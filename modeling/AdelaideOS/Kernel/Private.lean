import AdelaideOS.Kernel.Advance
import AdelaideOS.Kernel.Break
import AdelaideOS.Kernel.Fork

/-!
# The memory of a process is its own

What a process finds in its memory, whatever the others, the timer and the keyboard do in between.

* **`others_bytes`** — no input of another process changes a byte;
* **`own_bytes`** — neither do most calls of the process itself;
* **`private_memory`** — in every history, the memory of a process is what it and, before the forks, its ancestors
  stored there.
-/

namespace AdelaideOS.Kernel

open AdelaideOS.Lib.Bytes AdelaideOS.Lib.Triple AdelaideOS.Lib.View AdelaideOS.Page AdelaideOS.Process

variable {m : Machine} {n : Notes} {B : Books} {forked : ℕ → Bool} {k k' : State} {asp : ℕ → Aspace} {p q a no : ℕ}
  {r : Regs} {args : List ℕ} {o o' : Outline} {i : Input}

/-- The memory of process `q` reads the same in two states. -/
def SameBytes (q : ℕ) (k k' : State) : Prop := ∀ a < wordSize, userByte k' q a = userByte k q a

/-! ### Frames that stay as they are -/

/-- Addresses are translated with the frames of the address space only. -/
theorem translate_keeps {P : Pages} {M : Memory} {d : ℕ} {A : Aspace} {rest : Multiset ℕ} (h : Owns P d A rest)
    (hK : ∀ f ∈ A.owned d, AgreeOn P.mem M f PAGE_SIZE) (ha : a < wordSize) : translate M d a = translate P.mem d a := by
  have hpage := pageOf_lt ha
  have hdir : dirEntry M d a = dirEntry P.mem d a := by
    refine (hK d (Multiset.mem_cons_self _ _)).readWord (Nat.le_add_right _ _) ?_
    simp only [dirIndex, pageOf, PAGES, PAGE_SIZE] at hpage ⊢
    omega
  cases ht : A.tbl (pageOf a / 1024) with
  | none =>
    rw [Page.translate, Page.translate, hdir, h.dirEntry_none ha ht]
    rfl
  | some T =>
    obtain ⟨hentry, -, hT⟩ := h.entries ha ht
    have htbl : tblEntry M d a = tblEntry P.mem d a := by
      have hmem : T ∈ A.owned d := by
        refine Multiset.mem_cons_of_mem (Multiset.mem_add.mpr (Or.inl (mem_tablesOf.mpr ⟨_, ?_, ht⟩)))
        simp only [pageOf, PAGES, PAGE_SIZE] at hpage ⊢
        omega
      rw [tblEntry, tblEntry, hdir, hentry, (table_entry hT).2]
      refine (hK T hmem).readWord (Nat.le_add_right _ _) ?_
      simp only [tblIndex, PAGE_SIZE]
      omega
    rw [Page.translate, Page.translate, hdir, htbl]

/-- **A process whose frames stay as they are** finds the same bytes. -/
theorem Safe.sameBytes (h : Safe m forked k.sched k.pages k.space asp) (hq : k.sched.Live q)
    (hK : ∀ f ∈ (asp q).owned (k.space q).pdir, AgreeOn k.pages.mem k'.pages.mem f PAGE_SIZE)
    (hs : (k'.space q).pdir = (k.space q).pdir) : SameBytes q k k' := by
  intro a ha
  have hO := h.owns hq
  unfold userByte physical
  rw [hs, translate_keeps hO hK ha]
  by_cases hn : pageOf a ∈ (asp q).us
  · obtain ⟨htr, -, hfr, -⟩ := hO.user_page ha hn
    have hframe : (asp q).fr (pageOf a) ∈ (asp q).owned (k.space q).pdir :=
      Multiset.mem_cons_of_mem (Multiset.mem_add.mpr (Or.inr (Multiset.mem_map.mpr ⟨_, hn, rfl⟩)))
    have hlow : ¬ (asp q).fr (pageOf a) + a % PAGE_SIZE < PAGE_START := by
      have := hfr.facts.2.1
      omega
    rw [htr]
    simp only [if_neg hlow]
    exact hK _ hframe _ (Nat.le_add_right _ _) (Nat.add_lt_add_left (Nat.mod_lt _ (by decide)) _)
  · obtain ⟨-, hlow, -⟩ := hO.kernel_page ha hn
    cases htr : translate k.pages.mem (k.space q).pdir a with
    | none => rfl
    | some x => simp only [if_pos (hlow x htr)]

/-- The frames of one process are among those of the others of another one. -/
theorem Safe.keeps_other {P : Pages} (h : Safe m forked k.sched k.pages k.space asp) (hq : k.sched.Live q) (hqp : q ≠ p)
    (hK : Keeps (framesOf ((livePids k.sched).erase p) (fun z => (k.space z).pdir) asp) k.pages P) :
    ∀ f ∈ (asp q).owned (k.space q).pdir, AgreeOn k.pages.mem P.mem f PAGE_SIZE :=
  fun f hf => hK f (mem_framesOf.mpr ⟨q, Finset.mem_erase.mpr ⟨hqp, h.mem hq⟩, hf⟩)

theorem Safe.keeps_all {P : Pages} (h : Safe m forked k.sched k.pages k.space asp) (hq : k.sched.Live q)
    (hK : Keeps (framesOf (livePids k.sched) (fun z => (k.space z).pdir) asp) k.pages P) :
    ∀ f ∈ (asp q).owned (k.space q).pdir, AgreeOn k.pages.mem P.mem f PAGE_SIZE :=
  fun f hf => hK f (mem_framesOf.mpr ⟨q, h.mem hq, hf⟩)

/-! ### What the others do -/

section Others

variable (h : Safe m forked k.sched k.pages k.space asp) (hq : k.sched.Live q)

include h hq

theorem Safe.scrawled_other (hp : k.sched.Live p) (hqp : q ≠ p) (hs : Scrawled p k.outline o')
    (hpages : k'.pages = o'.pages) (hspace : k'.space = o'.space) : SameBytes q k k' := by
  obtain ⟨P, hP, rfl⟩ := hs
  obtain ⟨-, hK⟩ := (h.owns hp).scribbles hP
  apply h.sameBytes hq
  · rw [hpages]
    exact h.keeps_other hq hqp hK
  · rw [hspace]
    rfl

theorem Safe.released_other {P : Pages} (hp : k.sched.Live p) (hqp : q ≠ p)
    (hP : releasePages (k.space p) k.pages = .ok ((), P)) (hpages : k'.pages = P) (hspace : k'.space = k.space) :
    SameBytes q k k' := by
  obtain ⟨t, d, hs⟩ := h.shaped p hp
  obtain ⟨P₁, frees, hok, -, -, hK⟩ := releasePages_spec (h.owns hp) hs
  rw [hP] at hok
  cases hok
  apply h.sameBytes hq
  · rw [hpages]
    exact h.keeps_other hq hqp hK
  · rw [hspace]

theorem Safe.forked_other {child pdir : ℕ} {P : Pages} {s : Space} (hp : k.sched.Live p) (hchild : ¬ k.sched.Live child)
    (hP : forkPages (k.space p) k.pages = .ok (pdir, P)) (hpages : k'.pages = P)
    (hspace : k'.space = Function.update k.space child s) : SameBytes q k k' := by
  obtain ⟨pdir', P₁, A, hok, -, hK, -⟩ := h.forkPages_ok hp
  rw [hP] at hok
  cases hok
  apply h.sameBytes hq
  · rw [hpages]
    exact h.keeps_all hq hK
  · have hne : q ≠ child := fun heq => hchild (heq ▸ hq)
    rw [hspace, Function.update_of_ne hne]

theorem Safe.started_other {pid pdir : ℕ} {P : Pages} {s : Space} (hpid : ¬ k.sched.Live pid)
    (hP : startPages m k.pages = .ok (pdir, P)) (hpages : k'.pages = P)
    (hspace : k'.space = Function.update k.space pid s) : SameBytes q k k' := by
  obtain ⟨frees, hA⟩ := h.spaces.alloc
  obtain ⟨pdir', P₁, A, hok, -, hK, -⟩ := startPages_spec m hA h.spaces.live h.room
  rw [hP] at hok
  cases hok
  apply h.sameBytes hq
  · rw [hpages]
    exact h.keeps_all hq hK
  · have hne : q ≠ pid := fun heq => hpid (heq ▸ hq)
    rw [hspace, Function.update_of_ne hne]

/-- **`brk`** changes no byte, of the caller neither: new pages are zero, and so is what is not mapped. -/
theorem Safe.grown_bytes {P : Pages} {s : Space} (hp : k.sched.Live p) (hlt : (k.space p).dataEnd < a)
    (hmax : a ≤ PROCESS_DATA_BASE + PROCESS_DATA_MAX)
    (hP : Page.mapNewPages k.pages (k.space p).pdir (k.space p).dataEnd
      ((roundUp a + wordSize - (k.space p).dataEnd) % wordSize / PAGE_SIZE) = .ok P)
    (hpages : k'.pages = P) (hpdir : s.pdir = (k.space p).pdir) (hspace : k'.space = Function.update k.space p s) :
    SameBytes q k k' := by
  obtain ⟨t, d, hs⟩ := h.shaped p hp
  obtain ⟨d', -, hd', -, -, hcount⟩ := roundUp_pages hs.dataEnd hlt (hmax.trans (by decide))
  obtain ⟨P₁, A, hok, hO, hK, hG, hzero, -⟩ := h.mapNewPages_zero hp hs hd'
  rw [hcount, hok] at hP
  cases hP
  by_cases hqp : q = p
  · subst hqp
    have hO' : Owns k'.pages (k'.space q).pdir A (framesOf ((livePids k.sched).erase q) (fun z => (k.space z).pdir) asp) := by
      rw [hpages, hspace, Function.update_self, hpdir]
      exact hO
    intro x hx
    have hin := Nat.mod_lt x (show 0 < PAGE_SIZE by decide)
    rw [userByte_eq hO' hx, userByte_eq (h.owns hq) hx, hpages]
    by_cases hold : pageOf x ∈ (asp q).us
    · have hnew : pageOf x ∈ A.us := by
        rw [hG.us]
        exact Finset.mem_union_left _ hold
      rw [if_pos hold, if_pos hnew, hG.fr _ hold]
      exact hK _ (Multiset.mem_add.mpr (Or.inl (Multiset.mem_map.mpr ⟨_, hold, rfl⟩))) _ (Nat.le_add_right _ _)
        (Nat.add_lt_add_left hin _)
    · rw [if_neg hold]
      split
      case isTrue hnew =>
        rw [hG.us, Finset.mem_union, List.mem_toFinset] at hnew
        exact hzero _ (hnew.resolve_left hold) _ hin
      case isFalse => rfl
  · apply h.sameBytes hq
    · rw [hpages]
      exact h.keeps_other hq hqp hK.right
    · rw [hspace, Function.update_of_ne hqp]

theorem Safe.loaded_other (hp : k.sched.Live p) (hqp : q ≠ p) (hl : Loaded m.filesystem p k.outline o')
    (hpages : k'.pages = o'.pages) (hspace : k'.space = o'.space) : SameBytes q k k' := by
  obtain ⟨path, entry, P, hentry, hP, P', hP', rfl⟩ := hl
  obtain ⟨t, d, hs⟩ := h.shaped p hp
  obtain ⟨P₁, A, hok, hO, hK, -⟩ := execPages_spec (h.owns hp) hs (programPages_le m hentry) h.room
  have hok' : execPages m.filesystem entry (k.space p) k.pages = .ok ((), P) := hP
  rw [hok'] at hok
  cases hok
  have hscribbles : Scribbles (k.space p).pdir P P' := by
    have hpdir : ((k.outline.remap p P (execSpace m.filesystem entry (k.space p))).space p).pdir = (k.space p).pdir := by
      show ((Function.update k.space p (execSpace m.filesystem entry (k.space p))) p).pdir = _
      rw [Function.update_self]
      rfl
    rw [← hpdir]
    exact hP'
  obtain ⟨-, hK'⟩ := hO.scribbles hscribbles
  apply h.sameBytes hq
  · rw [hpages]
    exact h.keeps_other hq hqp (hK.trans hK')
  · rw [hspace]
    show ((Function.update k.space p _) q).pdir = _
    rw [Function.update_of_ne hqp]

/-- **A system call of another process.** -/
theorem Safe.turn_other {x : ℤ × Regs} (hp : k.sched.Live p) (hqp : q ≠ p) (hq' : o'.Live q)
    (hkill : no = SYSCALL_KILL → ∀ t : ℕ, toInt (args.getD 0 0) = t → (k.sched.procs t).exists_ = true →
      (k.sched.procs t).exited = false)
    (hbrk : no = SYSCALL_BRK → args.getD 0 0 ≤ PROCESS_DATA_BASE + PROCESS_DATA_MAX)
    (ht : Turn m.filesystem p no r args k.outline x o') (hpages : k'.pages = o'.pages) (hspace : k'.space = o'.space) :
    SameBytes q k k' := by
  cases ht with
  | wrote res o' hs => exact h.scrawled_other hq hp hqp hs hpages hspace
  | forked child pdir P hno hfree hP =>
    exact h.forked_other hq hp (not_live_of_free (S := k.sched) hfree) hP hpages hspace
  | killed res z e P hwho hP =>
    have hz : k.sched.Live z := by
      rcases hwho with ⟨-, rfl⟩ | ⟨hno, hz, hex⟩
      · exact hp
      · exact ⟨hex, hkill hno z hz hex⟩
    exact h.released_other hq hz (Outline.live_kill.mp hq').2 hP hpages hspace
  | grown res P hno hlt hP => 
    exact h.grown_bytes (s := { k.space p with dataEnd := roundUp (args.getD 0 0) }) hq hp hlt (hbrk hno) hP hpages rfl
      hspace
  | loaded r' o' hno hload => exact h.loaded_other hq hp hqp hload hpages hspace
  | reaped res o₁ o' hreap hs =>
    obtain ⟨P, hP, rfl⟩ := hs
    rw [hreap.pages.1, hreap.pages.2] at hP
    exact h.scrawled_other hq hp hqp ⟨P, hP, rfl⟩ hpages (hspace.trans hreap.pages.2)

end Others

/-- Process `q` makes a call, or stores into its memory. -/
def Input.Of (k : State) (q : ℕ) : Input → Prop
  | .event (.call _ _) => k.sched.current = some q
  | .event (.store _ _) => k.sched.current = some q
  | _ => False

/-- **No input of another process** changes a byte of a process that lives on. -/
theorem others_bytes {input : Option ℕ} (h : Mapped m k) (hq : k.sched.Live q) (hq' : k'.sched.Live q)
    (hfair : i.Fair n k) (hmodest : i.Modest) (hof : ¬ i.Of k q) (hok : react m input i k = .ok () k') :
    SameBytes q k k' := by
  obtain ⟨forked, asp, hsafe⟩ := h
  have hgood := hsafe.good
  cases react_stirs hok with
  | full startAddress hfree => exact fun _ _ => rfl
  | started startAddress pid pdir P k' hfree hP ho =>
    exact hsafe.started_other hq (not_live_of_free hfree) hP (congrArg Outline.pages ho) (congrArg Outline.space ho)
  | called r args p x k₂ hcur hturn =>
    have hqp : q ≠ p := by
      rintro rfl
      exact hof hcur
    have hlive := live_enter k.sched p r.eax
    have hsafe₁ : Safe m forked ({ k with sched := enter k.sched p r.eax } : State).sched k.pages k.space asp :=
      hsafe.sched (hgood.enter p r.eax) hlive
    refine hsafe₁.turn_other ((hlive q).mpr hq) ((hlive p).mpr (hgood.current_live hcur)) hqp ?_ ?_ hmodest hturn rfl rfl
    · exact (live_leave k₂.sched p r.eax x.2 x.1 q).mp hq'
    · intro hno t ht hex
      rw [enter_proc] at hex ⊢
      exact ((hfair p hcur).1 hno t ht hex).1
  | crashed r p e P k₁ hcur hP ho =>
    have hshows := shows_outline k₁
    rw [ho] at hshows
    have hqp : q ≠ p := (Outline.live_kill.mp ((hshows.live q).mp ((live_contextSwitch k₁.sched r q).mp hq'))).2
    exact hsafe.released_other hq (hgood.current_live hcur) hqp hP (congrArg Outline.pages ho) (congrArg Outline.space ho)
  | stored a b p k' hcur hs =>
    have hqp : q ≠ p := by
      rintro rfl
      exact hof hcur
    exact hsafe.scrawled_other hq (hgood.current_live hcur) hqp hs rfl rfl
  | switched r => exact fun _ _ => rfl
  | typed r c k₁ hsame => exact fun a _ => userByte_congr hsame q a

/-! ### What the process itself does -/

/-- The calls that store into the memory of the caller, or load another program into it. -/
def fillingCalls : List ℕ :=
  [SYSCALL_READ, SYSCALL_RECEIVE, SYSCALL_PIPE, SYSCALL_EXECVE, SYSCALL_WAITPID, SYSCALL_STAT, SYSCALL_GETDENT,
    SYSCALL_GETCWD]

/-- What the other calls do to the outline. -/
inductive PlainTurn (p no : ℕ) (r : Regs) (args : List ℕ) (o : Outline) : Outline → Prop where
  | same : PlainTurn p no r args o o
  | forked (child pdir : ℕ) (P : Pages) : no = SYSCALL_FORK → o.freeSlot = some child →
      forkPages (o.space p) o.pages = .ok (pdir, P) →
      PlainTurn p no r args o (o.install child { r with eax := 0 } P { o.space p with pdir := pdir })
  | killed (q : ℕ) (e : Bool) (P : Pages) :
      (no = SYSCALL_EXIT ∧ q = p) ∨
        (no = SYSCALL_KILL ∧ toInt (args.getD 0 0) = q ∧ (o.table q).exists_ = true) →
      releasePages (o.space q) o.pages = .ok ((), P) → PlainTurn p no r args o (o.kill q e P)
  | grown (P : Pages) : no = SYSCALL_BRK → (o.space p).dataEnd < args.getD 0 0 →
      Page.mapNewPages o.pages (o.space p).pdir (o.space p).dataEnd
        ((roundUp (args.getD 0 0) + wordSize - (o.space p).dataEnd) % wordSize / PAGE_SIZE) = .ok P →
      PlainTurn p no r args o (o.remap p P { o.space p with dataEnd := roundUp (args.getD 0 0) })

theorem plain_of_hidden {x : K ℤ} (h : Hidden x) :
    Acts State.outline AnyFault o (keep r x) fun _ o' => PlainTurn p no r args o o' :=
  acts_keep r ((h o).mono fun _ _ ho' => ho' ▸ PlainTurn.same)

/-- **Calls that store nothing.** -/
theorem acts_plain (m : Machine) (no : ℕ) (r : Regs) (args : List ℕ) (o : Outline) (hno : no ∉ fillingCalls) :
    Acts State.outline AnyFault o (dispatch m p r no args) fun _ o' => PlainTurn p no r args o o' := by
  by_cases hk : no ∈ knownCalls
  · simp only [knownCalls, List.mem_cons, List.not_mem_nil, or_false] at hk
    rcases hk with rfl | rfl | rfl | rfl | rfl | rfl | rfl | rfl | rfl | rfl | rfl | rfl | rfl | rfl | rfl |
      rfl | rfl | rfl | rfl | rfl
    · exact plain_of_hidden (still_get fun _ => still_pure _)
    · refine acts_keep r ((acts_syscallExit _).mono ?_)
      rintro res o' ⟨e, P, hP, -, rfl⟩
      exact .killed p e P (Or.inl ⟨rfl, rfl⟩) hP
    · exact plain_of_hidden (hidden_syscallWrite _ _ _ _)
    · exact absurd (by decide) hno
    · exact plain_of_hidden (still_get fun _ => still_pure _)
    · refine acts_keep r ((acts_syscallBrk _).mono ?_)
      rintro res o' (rfl | ⟨hlt, P, hP, rfl⟩)
      · exact .same
      · exact .grown P rfl hlt hP
    · exact plain_of_hidden (hidden_syscallSend _ _ _ _ _)
    · exact absurd (by decide) hno
    · exact plain_of_hidden (hidden_syscallClose _ _)
    · exact absurd (by decide) hno
    · exact plain_of_hidden (hidden_syscallDup2 _ _ _)
    · refine acts_keep r ((acts_syscallFork r).mono ?_)
      rintro res o' (rfl | ⟨child, pdir, P, hfree, hP, -, rfl⟩)
      · exact .same
      · exact .forked child pdir P rfl hfree hP
    · exact absurd (by decide) hno
    · exact absurd (by decide) hno
    · exact absurd (by decide) hno
    · exact plain_of_hidden (hidden_syscallOpen _ _ _ _)
    · exact absurd (by decide) hno
    · exact plain_of_hidden (hidden_syscallChdir _ _ _)
    · exact absurd (by decide) hno
    · refine acts_keep r ((acts_syscallKill _).mono ?_)
      rintro res o' (rfl | ⟨q, e, P, hq, -, hex, hP, rfl⟩)
      · exact .same
      · exact .killed q e P (Or.inr ⟨rfl, hq, hex⟩) hP
  · rw [(unknown_call hk args).1]
    exact plain_of_hidden (hidden_unimplemented no)

/-- The memory after some stores. -/
def stored (M : ℕ → UInt8) (stores : List (ℕ × UInt8)) : ℕ → UInt8 :=
  stores.foldl (fun M store => Function.update M store.1 store.2) M

/-- What process `q` stores itself; a store outside its ranges is not carried out. -/
def Input.stores (k : State) (q : ℕ) : Input → List (ℕ × UInt8)
  | .event (.store a b) =>
    if k.sched.current = some q ∧ (k.space q).InRange (a % wordSize) then [(a % wordSize, b)] else []
  | _ => []

/-- If process `q` makes a call, then it is none that fills its memory. -/
def Input.Plain (k : State) (q : ℕ) : Input → Prop
  | .event (.call r _) => k.sched.current = some q → r.eax ∉ fillingCalls
  | _ => True

/-- **A call of the process itself** that stores nothing. -/
theorem own_bytes {input : Option ℕ} (h : Mapped m k) (hcur : k.sched.current = some q) (hq' : k'.sched.Live q)
    (hfair : (Input.event (.call r args)).Fair n k) (hmodest : (Input.event (.call r args)).Modest)
    (hno : r.eax ∉ fillingCalls) (hok : react m input (.event (.call r args)) k = .ok () k') : SameBytes q k k' := by
  obtain ⟨forked, asp, hsafe⟩ := h
  obtain ⟨p, hcur', hcall⟩ := asCurrent_ok hok
  obtain rfl := Option.some.inj (hcur'.symm.trans hcur)
  obtain ⟨x, k₂, hdis, rfl⟩ := callWith_ok hcall
  have hlive := live_enter k.sched p r.eax
  have hp := hsafe.good.current_live hcur
  have hsafe₁ : Safe m forked ({ k with sched := enter k.sched p r.eax } : State).sched k.pages k.space asp :=
    hsafe.sched (hsafe.good.enter p r.eax) hlive
  have hp₁ := (hlive p).mpr hp
  have hturn := (acts_plain m r.eax r args _ hno).ok rfl hdis
  generalize ho : k₂.outline = o' at hturn
  have hpages : k₂.pages = o'.pages := congrArg Outline.pages ho
  have hspace : k₂.space = o'.space := congrArg Outline.space ho
  cases hturn with
  | same => exact fun a _ => userByte_congr ho p a
  | forked child pdir P hno hfree hP =>
    exact hsafe₁.forked_other hp₁ hp₁ (not_live_of_free (S := enter k.sched p r.eax) hfree) hP hpages hspace
  | killed z e P hwho hP =>
    have hpz : (({ k with sched := enter k.sched p r.eax } : State).outline.kill z e P).Live p := by
      rw [← ho]
      exact (live_leave k₂.sched p r.eax x.2 x.1 p).mp hq'
    have hz : (enter k.sched p r.eax).Live z := by
      rcases hwho with ⟨-, rfl⟩ | ⟨hno, hz, hex⟩
      · exact hp₁
      · refine ⟨hex, ?_⟩
        have hproc : ((enter k.sched p r.eax).procs z).exists_ = true := hex
        rw [enter_proc] at hproc ⊢
        exact ((hfair p hcur).1 hno z hz hproc).1
    exact hsafe₁.released_other hp₁ hz (Outline.live_kill.mp hpz).2 hP hpages hspace
  | grown P hno hlt hP =>
    exact hsafe₁.grown_bytes (s := { k.space p with dataEnd := roundUp (args.getD 0 0) }) hp₁ hp₁ hlt (hmodest hno) hP
      hpages rfl hspace

/-- **A store of the process itself.** -/
theorem own_store {input : Option ℕ} {b : UInt8} (h : Mapped m k) (hcur : k.sched.current = some q)
    (hok : react m input (.event (.store a b)) k = .ok () k') :
    ∀ x < wordSize, userByte k' q x = stored (userByte k q) ((Input.event (.store a b)).stores k q) x := by
  obtain ⟨forked, asp, hsafe⟩ := id h
  obtain ⟨p, hcur', hstore⟩ := asCurrent_ok hok
  obtain rfl := Option.some.inj (hcur'.symm.trans hcur)
  have hp := hsafe.good.current_live hcur
  have ha : a % wordSize < wordSize := Nat.mod_lt _ (by decide)
  have hiff := hsafe.writable_iff hp ha
  unfold storeWith at hstore
  rw [run_get] at hstore
  intro x hx
  by_cases hr : (k.space p).InRange (a % wordSize)
  · rw [if_pos (hiff.mpr hr)] at hstore
    obtain ⟨-, -, hbytes⟩ := h.seesStored hp ha hstore
    have hone : (Input.event (.store a b)).stores k p = [(a % wordSize, b)] := if_pos ⟨hcur, hr⟩
    rw [hbytes x hx, hone]
    exact (Function.update_apply _ _ _ _).symm
  · rw [if_neg fun hw => hr (hiff.mp hw)] at hstore
    have hnone : (Input.event (.store a b)).stores k p = [] := if_neg fun hboth => hr hboth.2
    cases hstore
    rw [hnone]
    rfl

/-! ### Histories -/

/-- **One input.** -/
theorem bytes_react {input : Option ℕ} (h : Mapped m k) (hq : k.sched.Live q) (hq' : k'.sched.Live q)
    (hfair : i.Fair n k) (hmodest : i.Modest) (hplain : i.Plain k q) (hok : react m input i k = .ok () k') :
    ∀ a < wordSize, userByte k' q a = stored (userByte k q) (i.stores k q) a := by
  by_cases hof : i.Of k q
  · cases i with
    | key r c => cases hof
    | event ev =>
      cases ev with
      | start | crash | switch => cases hof
      | call r args => exact own_bytes h hof hq' hfair hmodest (hplain hof) hok
      | store a b => exact own_store h hof hok
  · have hnone : i.stores k q = [] := by
      cases i with
      | key r c => rfl
      | event ev =>
        cases ev with
        | start | crash | switch | call => rfl
        | store a b => exact if_neg fun hboth => hof hboth.1
    rw [hnone]
    exact others_bytes h hq hq' hfair hmodest hof hok

/-- The line of a process.  `Line m p₀ k₀ q stores n B k` is a history of the kernel that leads from `k₀` to `k`.  In `k₀`
process `p₀` runs its program; `q` is the same process or descends from it by forks, and `stores` is what they have stored
themselves, each up to the fork that leads on to `q`.  Everybody else does anything in between. -/
inductive Line (m : Machine) (p₀ : ℕ) (k₀ : State) : ℕ → List (ℕ × UInt8) → Notes → Books → State → Prop where
  | here {n : Notes} {B : Books} : Run m (fun n k i => i.Fair n k ∧ i.Modest) n B k₀ → k₀.sched.Live p₀ →
      Line m p₀ k₀ p₀ [] n B k₀
  | step {q : ℕ} {stores : List (ℕ × UInt8)} {n : Notes} {B : Books} {k k' : State} (i : Input) :
      Line m p₀ k₀ q stores n B k → i.Fair n k → i.Modest → i.Plain k q → react m n.input i k = .ok () k' →
      k'.sched.Live q → Line m p₀ k₀ q (stores ++ i.stores k q) (n.next i k k') (B.next m n i k k') k'
  | fork {q child : ℕ} {stores : List (ℕ × UInt8)} {n : Notes} {B : Books} {k k' : State} (r : Regs) (args : List ℕ) :
      Line m p₀ k₀ q stores n B k → k.sched.current = some q → r.eax = SYSCALL_FORK →
      getFreePid k.sched = some child → react m n.input (.event (.call r args)) k = .ok () k' →
      Line m p₀ k₀ child stores (n.next (.event (.call r args)) k k') (B.next m n (.event (.call r args)) k k') k'

theorem stored_append (M : ℕ → UInt8) (stores stores' : List (ℕ × UInt8)) :
    stored M (stores ++ stores') = stored (stored M stores) stores' := List.foldl_append

/-- Stores below `2 ^ 32` do not tell apart memories that agree there. -/
theorem stored_congr {M M' : ℕ → UInt8} (h : ∀ a < wordSize, M' a = M a) (stores : List (ℕ × UInt8)) :
    ∀ a < wordSize, stored M' stores a = stored M stores a := by
  induction stores generalizing M M' with
  | nil => exact h
  | cons store stores ih =>
    apply ih
    intro a ha
    show Function.update M' store.1 store.2 a = Function.update M store.1 store.2 a
    rw [Function.update_apply, Function.update_apply, h a ha]

/-- Outside its ranges a process has no memory. -/
theorem userByte_outside (h : Mapped m k) (hp : k.sched.Live p) (ha : a < wordSize) (hr : ¬ (k.space p).InRange a) :
    userByte k p a = 0 := by
  obtain ⟨forked, asp, hsafe⟩ := h
  obtain ⟨t, d, hs⟩ := hsafe.shaped p hp
  rw [userByte_eq (hsafe.owns hp) ha, if_neg fun hn => hr ((hs.inRange_iff a).mpr hn)]

theorem fair_of_fork (hno : r.eax = SYSCALL_FORK) :
    (Input.event (.call r args)).Fair n k ∧ (Input.event (.call r args)).Modest := by
  refine ⟨fun p _ => ⟨fun hkill => ?_, fun hserve => ?_⟩, fun hbrk => ?_⟩
  · rw [hno] at hkill
    cases hkill
  · rw [hno] at hserve
    cases hserve
  · rw [hno] at hbrk
    cases hbrk

/-- **The child** finds the bytes of its parent. -/
theorem child_bytes {input : Option ℕ} {child : ℕ} (h : Mapped m k) (h' : Mapped m k') (hcur : k.sched.current = some p)
    (hno : r.eax = SYSCALL_FORK) (hfree : getFreePid k.sched = some child)
    (hok : react m input (.event (.call r args)) k = .ok () k') :
    k'.sched.Live child ∧ ∀ a < wordSize, userByte k' child a = userByte k p a := by
  obtain ⟨forked, asp, hsafe⟩ := id h
  obtain ⟨p', hcur', hcall⟩ := asCurrent_ok hok
  obtain rfl := Option.some.inj (hcur'.symm.trans hcur)
  obtain ⟨x, k₂, hdis, rfl⟩ := callWith_ok hcall
  rw [hno] at hdis
  have hlive := live_enter k.sched p' SYSCALL_FORK
  have hp := hsafe.good.current_live hcur
  have hp₁ := (hlive p').mpr hp
  have hmap₁ : Mapped m { k with sched := enter k.sched p' SYSCALL_FORK } :=
    h.sched (hsafe.good.enter p' SYSCALL_FORK) hlive
  obtain ⟨res, k₃, hfork, hpure⟩ := bind_ok (show (syscallFork p' r >>= fun res => pure (res, r)) _ = _ from hdis)
  cases hpure
  have hfree₁ : getFreePid (enter k.sched p' SYSCALL_FORK) = some child := by
    rw [getFreePid_enter]
    exact hfree
  obtain ⟨-, hcopied⟩ := (fork_copies hmap₁ hp₁).1 child _ _ hfree₁ hfork
  have hchild := (live_leave k₂.sched p' r.eax r res child).mpr hcopied.slot.2.2.2
  refine ⟨hchild, fun a ha => ?_⟩
  by_cases hr : (k.space p').InRange a
  · exact hcopied.memory a hr
  · obtain ⟨pdir, hspace⟩ := hcopied.ranges
    have hr' : ¬ (k₂.space child).InRange a := by
      rw [hspace]
      exact hr
    rw [userByte_outside h hp ha hr]
    exact userByte_outside h' hchild ha hr'

variable {p₀ : ℕ} {k₀ : State} {stores : List (ℕ × UInt8)}

theorem Line.run (h : Line m p₀ k₀ q stores n B k) : Run m (fun n k i => i.Fair n k ∧ i.Modest) n B k := by
  induction h with
  | here hrun _ => exact hrun
  | step i _ hfair hmodest _ hok _ ih => exact ih.step i ⟨hfair, hmodest⟩ hok
  | fork r args _ _ hno _ hok ih => exact ih.step _ (fair_of_fork hno) hok

theorem mapped_of_run (h : Run m (fun n k i => i.Fair n k ∧ i.Modest) n B k) : Mapped m k := by
  obtain ⟨-, -, C, -, hbooks⟩ := h.standing fun _ _ _ h => h.1
  exact (hbooks fun _ _ _ h => h.2).1

theorem Line.holds (h : Line m p₀ k₀ q stores n B k) :
    k.sched.Live q ∧ ∀ a < wordSize, userByte k q a = stored (userByte k₀ p₀) stores a := by
  induction h with
  | here _ hlive => exact ⟨hlive, fun _ _ => rfl⟩
  | @step q stores n B k k' i hline hfair hmodest hplain hok hlive' ih =>
    obtain ⟨hlive, hbytes⟩ := ih
    refine ⟨hlive', fun a ha => ?_⟩
    rw [bytes_react (mapped_of_run hline.run) hlive hlive' hfair hmodest hplain hok a ha, stored_append]
    exact stored_congr hbytes _ a ha
  | @fork q child stores n B k k' r args hline hcur hno hfree hok ih =>
    obtain ⟨hlive, hbytes⟩ := ih
    have hrun' := hline.run.step _ (fair_of_fork hno) hok
    obtain ⟨hchild, hcopied⟩ := child_bytes (mapped_of_run hline.run) (mapped_of_run hrun') hcur hno hfree hok
    exact ⟨hchild, fun a ha => (hcopied a ha).trans (hbytes a ha)⟩

/-- **The memory of a process is its own.**  Whatever the others, the timer and the keyboard do in between, a process finds
what was there in `k₀`, with what it and its ancestors have stored since. -/
theorem private_memory (h : Line m p₀ k₀ q stores n B k) :
    ∀ a < wordSize, userByte k q a = stored (userByte k₀ p₀) stores a := h.holds.2

/-- A byte is stored, and the child finds it. -/
theorem private_memory_forked : ∃ k₀ n B k, Line Machine.bare 1 k₀ 2 [(STACK_LOW, 7)] n B k ∧ userByte k 2 STACK_LOW = 7 := by
  obtain ⟨n₀, B₀, k₀, ⟨hrun, hmap, hs, hopen, -⟩, -, -, -, pdir, -, hspace⟩ := run_started Machine.bare
    (P := fun n k i => i.Fair n k ∧ i.Modest) roomy_boot (fun _ _ => ⟨trivial, trivial⟩) fun _ _ => ⟨trivial, trivial⟩
  have hcur : k₀.sched.current = some 1 := by
    rw [hs]
    rfl
  have hlive : k₀.sched.Live 1 := by
    rw [hs]
    exact ⟨rfl, rfl⟩
  have hr : (k₀.space 1).InRange STACK_LOW := by
    rw [hspace]
    exact Or.inr (Or.inr ⟨Nat.le_refl _, show STACK_LOW < PROCESS_STACK_BASE by decide⟩)
  obtain ⟨M, hok₁, -⟩ := react_store n₀.input 7 hmap hcur (by decide) hr
  have hline₀ : Line Machine.bare 1 k₀ 1 [] n₀ B₀ k₀ := .here hrun hlive
  have hline₁ := hline₀.step (.event (.store STACK_LOW 7)) trivial trivial trivial hok₁ hlive
  have hone : (Input.event (.store STACK_LOW 7)).stores k₀ 1 = [(STACK_LOW, 7)] := if_pos ⟨hcur, hr⟩
  rw [hone, List.nil_append] at hline₁
  obtain ⟨forked, asp, hsafe₁⟩ := mapped_of_run hline₁.run
  have hfree : getFreePid k₀.sched = some 2 := by
    rw [hs]
    rfl
  obtain ⟨k₂, hok₂, -⟩ := perform_fork (r := forkRegs) [] hsafe₁ hcur rfl hfree hopen
  have hline₂ := hline₁.fork forkRegs [] hcur rfl hfree hok₂
  exact ⟨k₀, _, _, k₂, hline₂, private_memory hline₂ STACK_LOW (by decide)⟩

end AdelaideOS.Kernel
