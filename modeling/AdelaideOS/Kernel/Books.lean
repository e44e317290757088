import AdelaideOS.Kernel.Histories

/-!
# The books balance

In every history of `Fair` and `Modest` inputs, what a pipe holds is what was written to it less what was read from
it, and the same of mailboxes.  The reader finds the bytes in its own memory, so that the address spaces have to be
in order, which `Mapped` says; a `Modest` program does not ask `brk` for more than `PROCESS_DATA_MAX` bytes.

* **`Safe.react`**, **`Mapped.react`** — one input leaves the address spaces in order;
* **`Balanced.next`** — one input keeps the books;
* **`Run.standing`** — every history.
-/

namespace AdelaideOS.Kernel

open AdelaideOS.Buddy AdelaideOS.Lib.Bytes AdelaideOS.Lib.View AdelaideOS.Page AdelaideOS.Process

/-- `brk` asks for at most `PROCESS_DATA_MAX` bytes. -/
def Input.Modest : Input → Prop
  | .event (.call r args) => r.eax = SYSCALL_BRK → args.getD 0 0 ≤ PROCESS_DATA_BASE + PROCESS_DATA_MAX
  | _ => True

variable {m : Machine} {n n' : Notes} {B : Books} {C C' C₁ : Contents} {k k' : State} {p q no : ℕ}
  {o o' : Outline} {r : Regs} {args : List ℕ} {forked : ℕ → Bool} {asp : ℕ → Aspace}

/-! ### Address spaces -/

/-- The processes that are alive, as the outline shows them. -/
def Outline.Live (o : Outline) (q : ℕ) : Prop := (o.table q).exists_ = true ∧ (o.table q).exited = false

/-- The processes that are alive, and the memory, are those of the outline. -/
structure Shows (k : State) (o : Outline) : Prop where
  pages : k.pages = o.pages
  space : k.space = o.space
  live : ∀ q, k.sched.Live q ↔ o.Live q

theorem shows_outline (k : State) : Shows k k.outline := ⟨rfl, rfl, fun _ => Iff.rfl⟩

/-- The outline shows the state in which the address spaces are in order. -/
theorem Safe.shown {S : Sched} (h : Safe m forked S o.pages o.space asp) (hG : Good k.sched) (ho : Shows k o)
    (hlive : ∀ q, o.Live q ↔ S.Live q) : Safe m forked k.sched k.pages k.space asp := by
  rw [ho.pages, ho.space]
  exact h.sched hG fun q => (ho.live q).trans (hlive q)

theorem Outline.live_install {child : ℕ} {P : Pages} {s : Space} :
    (o.install child r P s).Live q ↔ q = child ∨ o.Live q := by
  unfold Outline.Live Outline.install
  by_cases hq : q = child
  · simp [hq]
  · simp [hq]

theorem Outline.live_kill {e : Bool} {P : Pages} : (o.kill p e P).Live q ↔ o.Live q ∧ q ≠ p := by
  unfold Outline.Live Outline.kill
  by_cases hq : q = p
  · simp [hq]
  · simp [hq]

theorem Reaped.live (h : Reaped o o') : o'.Live q ↔ o.Live q := by
  obtain ⟨e, rfl, he⟩ := h
  unfold Outline.Live
  rcases he q with heq | ⟨heq, hexit⟩
  · simp only [heq]
  · simp [heq, hexit]

theorem Reaped.pages (h : Reaped o o') : o'.pages = o.pages ∧ o'.space = o.space := by
  obtain ⟨e, rfl, -⟩ := h
  exact ⟨rfl, rfl⟩

/-- Nobody who is alive has the number `c`, so it does not matter what is recorded about it. -/
theorem Safe.relabel {S : Sched} {P : Pages} {sp : ℕ → Space} {c : ℕ} (h : Safe m forked S P sp asp) (hc : ¬ S.Live c)
    (b : Bool) : Safe m (Function.update forked c b) S P sp asp := by
  refine ⟨h.good, h.spaces, h.shaped, fun q hq => ?_⟩
  have hne : q ≠ c := by
    rintro rfl
    exact hc hq
  rw [h.kern q hq, Function.update_of_ne hne]

/-- A call that has created nobody. -/
theorem Safe.unborn {S S' : Sched} {P : Pages} {sp : ℕ → Space} (h : Safe m forked S' P sp asp)
    (hlive : ∀ q, S'.Live q → S.Live q) (no : ℕ) : Safe m (originAfter forked S no) S' P sp asp := by
  unfold originAfter
  split
  case isTrue =>
    cases hfree : getFreePid S with
    | none => exact h
    | some c => exact h.relabel (fun hc => not_live_of_free hfree (hlive c hc)) true
  case isFalse => exact h

/-- What a handler does to the address spaces. -/
theorem Safe.turn {x : ℤ × Regs} (h : Safe m forked k.sched k.pages k.space asp) (hp : k.sched.Live p) (hG : Good k'.sched)
    (hkill : no = SYSCALL_KILL → ∀ t : ℕ, toInt (args.getD 0 0) = t → (k.sched.procs t).exists_ = true →
      (k.sched.procs t).exited = false)
    (hbrk : no = SYSCALL_BRK → args.getD 0 0 ≤ PROCESS_DATA_BASE + PROCESS_DATA_MAX)
    (ht : Turn m.filesystem p no r args k.outline x o') (ho : Shows k' o') :
    ∃ asp', Safe m (originAfter forked k.sched no) k'.sched k'.pages k'.space asp' := by
  cases ht with
  | wrote res o' hs =>
    obtain ⟨P, hP, rfl⟩ := hs
    have hsafe := (h.scribbles hp hP).shown (o := { k.outline with pages := P }) hG ho fun _ => Iff.rfl
    exact ⟨_, hsafe.unborn (fun q hq => (ho.live q).mp hq) no⟩
  | forked child pdir P hno hfree hP =>
    obtain ⟨asp', hsafe⟩ := h.fork (r := r) hp hfree hP
    have hborn : originAfter forked k.sched no = Function.update forked child true := by
      have hpid : getFreePid k.sched = some child := hfree
      unfold originAfter
      rw [if_pos hno, hpid]
    rw [hborn]
    refine ⟨asp', hsafe.shown hG ho fun q => ?_⟩
    rw [Outline.live_install, live_install rfl rfl]
    exact Iff.rfl
  | killed res q e P hwho hP =>
    have hq : k.sched.Live q := by
      rcases hwho with ⟨-, rfl⟩ | ⟨hno, hq, hex⟩
      · exact hp
      · exact ⟨hex, hkill hno q hq hex⟩
    have hlive : ∀ z, k'.sched.Live z ↔ k.sched.Live z ∧ z ≠ q := by
      intro z
      rw [ho.live, Outline.live_kill]
      exact Iff.rfl
    have hsafe := (h.remove hq hG hlive hP).shown (o := k.outline.kill q e P) hG ho fun z => (ho.live z).symm
    exact ⟨_, hsafe.unborn (fun z hz => ((hlive z).mp hz).1) no⟩
  | grown res P hno hlt hP =>
    obtain ⟨asp', hsafe⟩ := h.brk hp (hbrk hno) hlt hP
    have hsafe' := hsafe.shown (o := k.outline.remap p P { k.space p with dataEnd := roundUp (args.getD 0 0) }) hG ho
      fun _ => Iff.rfl
    exact ⟨asp', hsafe'.unborn (fun q hq => (ho.live q).mp hq) no⟩
  | loaded r' o' hno hload =>
    obtain ⟨path, entry, P, hentry, hP, P', hP', rfl⟩ := hload
    obtain ⟨asp', hsafe⟩ := h.exec hp hentry hP
    have hsafe' := (hsafe.scribbles hp hP').shown
      (o := { k.outline.remap p P (execSpace m.filesystem entry (k.space p)) with pages := P' }) hG ho fun _ => Iff.rfl
    exact ⟨asp', hsafe'.unborn (fun q hq => (ho.live q).mp hq) no⟩
  | reaped res o₁ o' hreap hs =>
    obtain ⟨P, hP, rfl⟩ := hs
    rw [hreap.pages.1, hreap.pages.2] at hP
    have hsafe := h.scribbles hp hP
    rw [← show o₁.space = k.space from hreap.pages.2] at hsafe
    have hsafe' := Safe.shown (o := { o₁ with pages := P }) hsafe hG ho fun q => hreap.live
    exact ⟨_, hsafe'.unborn (fun q hq => hreap.live.mp ((ho.live q).mp hq)) no⟩

/-! ### One input -/

theorem asCurrent_ok {f : ℕ → K Unit} (h : asCurrent f k = .ok () k') :
    ∃ p, k.sched.current = some p ∧ f p k = .ok () k' := by
  unfold asCurrent at h
  obtain ⟨k₀, k₁, hget, h⟩ := bind_ok h
  cases hget
  cases hcur : k.sched.current with
  | none =>
    rw [hcur] at h
    cases h
  | some p =>
    rw [hcur] at h
    exact ⟨p, rfl, h⟩

theorem callWith_ok (h : callWith m r args p k = .ok () k') :
    ∃ x k₂, dispatch m p r r.eax args { k with sched := enter k.sched p r.eax } = .ok x k₂ ∧
      k' = { k₂ with sched := leave k₂.sched p r.eax x.2 x.1 } := by
  unfold callWith serve at h
  obtain ⟨_, k₁, henter, h⟩ := bind_ok h
  cases henter
  obtain ⟨y, k₂, hserve, h⟩ := bind_ok h
  cases h
  obtain ⟨x, k₂, hx, hleave⟩ := bind_ok hserve
  obtain ⟨_, k₃, hleave, h⟩ := bind_ok hleave
  cases h
  cases hleave
  exact ⟨x, k₂, hx, rfl⟩

/-- What an input does to the outline. -/
inductive Stirs (m : Machine) (k : State) : Input → State → Prop where
  | full (startAddress : ℕ) : getFreePid k.sched = none → Stirs m k (.event (.start startAddress)) k
  | started (startAddress pid pdir : ℕ) (P : Pages) (k' : State) : getFreePid k.sched = some pid →
      startPages m k.pages = .ok (pdir, P) →
      k'.outline = k.outline.install pid (initRegs PROCESS_STACK_BASE startAddress) P (initialSpace pdir) →
      Stirs m k (.event (.start startAddress)) k'
  | called (r : Regs) (args : List ℕ) (p : ℕ) (x : ℤ × Regs) (k₂ : State) : k.sched.current = some p →
      Turn m.filesystem p r.eax r args ({ k with sched := enter k.sched p r.eax } : State).outline x k₂.outline →
      Stirs m k (.event (.call r args)) { k₂ with sched := leave k₂.sched p r.eax x.2 x.1 }
  | crashed (r : Regs) (p : ℕ) (e : Bool) (P : Pages) (k₁ : State) : k.sched.current = some p →
      releasePages (k.space p) k.pages = .ok ((), P) → k₁.outline = k.outline.kill p e P →
      Stirs m k (.event (.crash r)) { k₁ with sched := contextSwitch k₁.sched r }
  | stored (a : ℕ) (b : UInt8) (p : ℕ) (k' : State) : k.sched.current = some p →
      Scrawled p k.outline k'.outline → Stirs m k (.event (.store a b)) k'
  | switched (r : Regs) :
      Stirs m k (.event (.switch r)) { k with sched := contextSwitch k.sched r }
  | typed (r : Regs) (c : UInt8) (k₁ : State) : k₁.outline = k.outline →
      Stirs m k (.key r c) { k₁ with sched := contextSwitch k₁.sched r }

theorem hidden_typeKey (c : UInt8) (input : Option ℕ) : Hidden (typeKey c input) := by
  cases input with
  | none => exact still_pure ()
  | some b => exact hidden_writeToPipe b 1 (still_pure _)

theorem react_stirs {input : Option ℕ} {i : Input} (hok : react m input i k = .ok () k') : Stirs m k i k' := by
  cases i with
  | key r c =>
    obtain ⟨_, k₁, htype, hswitch⟩ := bind_ok hok
    cases hswitch
    exact .typed r c k₁ ((hidden_typeKey c input k.outline).ok rfl htype)
  | event ev =>
    cases ev with
    | start startAddress =>
      obtain ⟨res, k₁, hstart, hpure⟩ := bind_ok hok
      cases hpure
      unfold startProcess at hstart
      obtain ⟨k₀, k₁, hget, hstart⟩ := bind_ok hstart
      cases hget
      cases hfree : getFreePid k.sched with
      | none =>
        rw [hfree] at hstart
        cases hstart
        exact .full startAddress hfree
      | some pid =>
        rw [hfree] at hstart
        obtain ⟨_, k₂, hstart, hpure⟩ := bind_ok hstart
        cases hpure
        obtain ⟨pdir, P, hP, ho⟩ := (acts_startIn m pid startAddress).ok rfl hstart
        exact .started startAddress pid pdir P _ hfree hP ho
    | call r args =>
      obtain ⟨p, hcur, hcall⟩ := asCurrent_ok hok
      obtain ⟨x, k₂, hdis, rfl⟩ := callWith_ok hcall
      exact .called r args p x k₂ hcur ((acts_dispatch m r.eax r args _).ok rfl hdis)
    | crash r =>
      obtain ⟨p, hcur, hcrash⟩ := asCurrent_ok hok
      obtain ⟨_, k₁, hkill, hswitch⟩ := bind_ok hcrash
      cases hswitch
      obtain ⟨e, P, hP, -, ho⟩ := (acts_killProcess p).ok rfl hkill
      exact .crashed r p e P k₁ hcur hP ho
    | store a b =>
      obtain ⟨p, hcur, hstore⟩ := asCurrent_ok hok
      have hscrawls : Scrawls p (storeWith a b p) := scrawls_get fun _ =>
        Scrawls.ite (scrawls_storeMapped _ (Nat.mod_lt _ (by decide)) b) (scrawls_pure ())
      exact .stored a b p k' hcur ((hscrawls k.outline).ok rfl hstore)
    | switch r =>
      cases hok
      exact .switched r

/-- Who was created by `fork`, after an input. -/
def Input.origin (k : State) (forked : ℕ → Bool) : Input → ℕ → Bool
  | .event ev => ev.origin k forked
  | .key _ _ => forked

/-- **One input** leaves the address spaces in order, each with the kernel mappings that its origin gives it. -/
theorem Safe.react {input : Option ℕ} {i : Input} (h : Safe m forked k.sched k.pages k.space asp) (hG : Good k'.sched)
    (hfair : i.Fair n k) (hmodest : i.Modest) (hok : react m input i k = .ok () k') :
    ∃ asp', Safe m (i.origin k forked) k'.sched k'.pages k'.space asp' := by
  have hgood := h.good
  cases react_stirs hok with
  | full startAddress hfree =>
    refine ⟨asp, ?_⟩
    simp only [Input.origin, Event.origin, hfree]
    exact h
  | started startAddress pid pdir P k' hfree hP ho =>
    obtain ⟨asp', hsafe⟩ : ∃ asp', Safe m (Function.update forked pid false)
        (Process.install k.sched pid (startedProc pid startAddress)) P
        (Function.update k.space pid (initialSpace pdir)) asp' := h.start hfree hP
    have hshows := shows_outline k'
    rw [ho] at hshows
    refine ⟨asp', ?_⟩
    simp only [Input.origin, Event.origin, hfree]
    apply hsafe.shown hG hshows
    intro q
    rw [Outline.live_install, live_install rfl rfl]
    exact Iff.rfl
  | called r args p x k₂ hcur hturn =>
    have hlive₁ := live_enter k.sched p r.eax
    have hsafe₁ : Safe m forked ({ k with sched := enter k.sched p r.eax } : State).sched k.pages k.space asp :=
      h.sched (hgood.enter p r.eax) hlive₁
    have hborn : (Input.event (.call r args)).origin k forked = originAfter forked (enter k.sched p r.eax) r.eax := by
      unfold originAfter
      rw [getFreePid_enter]
      rfl
    rw [hborn]
    refine hsafe₁.turn ((hlive₁ p).mpr (hgood.current_live hcur)) hG ?_ hmodest hturn ?_
    · intro hno t ht hex
      rw [enter_proc] at hex ⊢
      exact ((hfair p hcur).1 hno t ht hex).1
    · exact ⟨rfl, rfl, fun q => live_leave k₂.sched p r.eax x.2 x.1 q⟩
  | crashed r p e P k₁ hcur hP ho =>
    have hshows := shows_outline k₁
    rw [ho] at hshows
    have hgone : ∀ z, (contextSwitch k₁.sched r).Live z ↔ k.sched.Live z ∧ z ≠ p := by
      intro z
      rw [live_contextSwitch, hshows.live, Outline.live_kill]
      exact Iff.rfl
    refine ⟨asp, (h.remove (hgood.current_live hcur) hG hgone hP).shown (o := k.outline.kill p e P) hG
      ⟨hshows.pages, hshows.space, fun z => ?_⟩ fun z => ?_⟩
    · exact (live_contextSwitch k₁.sched r z).trans (hshows.live z)
    · exact (hshows.live z).symm.trans (live_contextSwitch k₁.sched r z).symm
  | stored a b p k' hcur hs =>
    obtain ⟨P, hP, ho⟩ := hs
    have hshows := shows_outline k'
    rw [ho] at hshows
    exact ⟨asp, (h.scribbles (hgood.current_live hcur) hP).shown hG hshows fun _ => Iff.rfl⟩
  | switched r => exact ⟨asp, h.sched hG (live_contextSwitch k.sched r)⟩
  | typed r c k₁ hsame =>
    have hshows := shows_outline k₁
    rw [hsame] at hshows
    refine ⟨asp, h.shown (o := k.outline) hG ⟨hshows.pages, hshows.space, fun q => ?_⟩ fun _ => Iff.rfl⟩
    exact (live_contextSwitch k₁.sched r q).trans (hshows.live q)

theorem Mapped.react {input : Option ℕ} {i : Input} (h : Mapped m k) (hG : Good k'.sched) (hfair : i.Fair n k)
    (hmodest : i.Modest) (hok : react m input i k = .ok () k') : Mapped m k' := by
  obtain ⟨forked, asp, hsafe⟩ := h
  obtain ⟨asp', hsafe'⟩ := hsafe.react hG hfair hmodest hok
  exact ⟨_, asp', hsafe'⟩

theorem mapped_boot (mem bytes : Memory) (blocks : ℕ → Blockinfo) : Mapped m (State.boot mem bytes blocks) := by
  obtain ⟨-, asp, hsafe⟩ := inv_boot (m := m) mem bytes blocks
  exact ⟨fun _ => false, asp, hsafe⟩

/-! ### The books -/

/-- What has been received, and what is there to be received, is what was sent. -/
structure Balanced (B : Books) (C : Contents) (k : State) : Prop where
  pipes : ∀ b, k.pipes b ≠ none → B.taken b ++ C.text b = B.written b
  mail : ∀ p, (k.sched.procs p).exists_ = true → ∃ got : List Message,
    List.Forall₂ (fun msg record => msg.bytes <+: record) got (B.received p) ∧ got ++ C.mail p = B.sent p

theorem balanced_boot (mem bytes : Memory) (blocks : ℕ → Blockinfo) :
    Balanced Books.boot ⟨fun _ => [], fun _ => []⟩ (State.boot mem bytes blocks) := by
  constructor
  · intro b _
    rfl
  · intro p _
    exact ⟨[], List.Forall₂.nil, rfl⟩

/-- The books after a transfer. -/
theorem Balanced.record {t : Transfer} (h : Balanced B C k) (hm : t.Moves C C') : Balanced (B.record t) C' k := by
  obtain ⟨hpipes, hmail⟩ := h
  cases t with
  | nothing =>
    obtain rfl : C' = C := hm
    exact ⟨hpipes, hmail⟩
  | put b bytes =>
    obtain rfl : C' = C.setText b (C.text b ++ bytes) := hm
    refine ⟨?_, hmail⟩
    intro c hc
    by_cases hcb : c = b
    · subst hcb
      simp only [Books.record, Function.update_self, Contents.text_setText, ← hpipes c hc, List.append_assoc]
    · simp only [Books.record, Function.update_of_ne hcb, Contents.text_setText_of_ne C _ hcb]
      exact hpipes c hc
  | take b bytes =>
    obtain ⟨rest, htext, rfl⟩ := hm
    refine ⟨?_, hmail⟩
    intro c hc
    by_cases hcb : c = b
    · subst hcb
      simp only [Books.record, Function.update_self, Contents.text_setText, ← hpipes c hc, htext,
        List.append_assoc]
    · simp only [Books.record, Function.update_of_ne hcb, Contents.text_setText_of_ne C _ hcb]
      exact hpipes c hc
  | post d msg =>
    obtain rfl : C' = C.setMail d (C.mail d ++ [msg]) := hm
    refine ⟨hpipes, ?_⟩
    intro p hp
    obtain ⟨got, hgot, hsent⟩ := hmail p hp
    refine ⟨got, hgot, ?_⟩
    by_cases hpd : p = d
    · subst hpd
      simp only [Books.record, Function.update_self, Contents.mail_setMail, ← hsent, List.append_assoc]
    · simp only [Books.record, Function.update_of_ne hpd, Contents.mail_setMail_of_ne C _ hpd]
      exact hsent
  | collect d record =>
    obtain ⟨msg, rest, hcons, hpre, rfl⟩ := hm
    refine ⟨hpipes, ?_⟩
    intro p hp
    obtain ⟨got, hgot, hsent⟩ := hmail p hp
    by_cases hpd : p = d
    · subst hpd
      refine ⟨got ++ [msg], ?_, ?_⟩
      · simp only [Books.record, Function.update_self]
        exact List.rel_append hgot (List.Forall₂.cons hpre List.Forall₂.nil)
      · simp only [Books.record, Contents.mail_setMail, ← hsent, hcons, List.append_assoc, List.cons_append,
          List.nil_append]
    · refine ⟨got, ?_, ?_⟩
      · simp only [Books.record, Function.update_of_ne hpd]
        exact hgot
      · simp only [Books.record, Contents.mail_setMail_of_ne C _ hpd]
        exact hsent

/-- **One input keeps the books.** -/
theorem Balanced.next {i : Input} (h : Balanced B C k) (hm : (i.transfer m n k k').Moves C C₁)
    (hs : Silent C₁ C' k.objects k'.objects) : Balanced (B.next m n i k k') C' k' := by
  have hrec := h.record hm
  unfold Books.next
  generalize B.record (i.transfer m n k k') = B₁ at hrec
  constructor
  · intro b hb
    by_cases hnew : k.pipes b = none
    · simp only [Books.renew, if_pos (And.intro hnew hb)]
      exact hs.fresh b hnew hb
    · have hold : ¬ (k.pipes b = none ∧ k'.pipes b ≠ none) := fun hc => hnew hc.1
      simp only [Books.renew, if_neg hold]
      rw [hs.text b hnew]
      exact hrec.pipes b hnew
  · intro p hp
    cases hex : (k.sched.procs p).exists_ with
    | false =>
      refine ⟨[], ?_, ?_⟩
      · simp only [Books.renew, if_pos (And.intro hex hp)]
        exact List.Forall₂.nil
      · simp only [Books.renew, if_pos (And.intro hex hp)]
        exact hs.unread p hex hp
    | true =>
      obtain ⟨got, hgot, hsent⟩ := hrec.mail p hex
      refine ⟨got, ?_, ?_⟩
      · simp only [Books.renew, hex, Bool.true_eq_false, false_and, if_false]
        exact hgot
      · simp only [Books.renew, hex, Bool.true_eq_false, false_and, if_false]
        rw [hs.mail p hex]
        exact hsent

theorem Run.standing {P : Notes → State → Input → Prop} (h : Run m P n B k) (hfair : ∀ n k i, P n k i → i.Fair n k) :
    n.serving = none ∧ Steady k.sched ∧ ∃ C, Whole n C k.objects ∧
      ((∀ n k i, P n k i → i.Modest) → Mapped m k ∧ Balanced B C k) := by
  induction h with
  | boot mem bytes blocks =>
    refine ⟨rfl, ?_, _, whole_boot mem bytes blocks, fun _ => ⟨mapped_boot mem bytes blocks, ?_⟩⟩
    · intro p hp
      cases hp
    · exact balanced_boot mem bytes blocks
  | step i hrun hi hok ih =>
    obtain ⟨hserve, hsteady, C, hwhole, hbooks⟩ := ih
    obtain ⟨C', hwhole', hsteady', -, hmoves⟩ := (hwhole.react hserve hsteady (hfair _ _ _ hi)).ok rfl hok
    refine ⟨rfl, hsteady', C', hwhole', fun hmodest => ?_⟩
    obtain ⟨hmap, hbal⟩ := hbooks hmodest
    obtain ⟨C₁, hmove, hsilent⟩ := hmoves hmap
    exact ⟨hmap.react hwhole'.good (hfair _ _ _ hi) (hmodest _ _ _ hi) hok, hbal.next hmove hsilent⟩

end AdelaideOS.Kernel
