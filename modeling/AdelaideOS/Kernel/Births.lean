import AdelaideOS.Kernel.Mailboxes

/-!
# New processes

`fork` shares all descriptors of the caller with the child, `start_process` opens the three standard descriptors.
The slots of the new process count one after the other while they are filled; when the last one is, the entry is
put into the table and all live slots count again.

* **`Sane.install`** — the new entry;
* **`Serving.syscallFork`**, **`Whole.startProcess`**.
-/

namespace AdelaideOS.Kernel

open AdelaideOS.Buddy AdelaideOS.Lib.Bytes AdelaideOS.Lib.View AdelaideOS.Process

variable {n : Notes} {C C' : Contents} {D : Finset (ℕ × ℕ)} {box : ℕ → Option ℕ} {o o' : Objects}
  {child p q : ℕ} {S : Sched} {v : Proc}

/-- The slots of one process. -/
def slotsOf (child : ℕ) (fds : List ℕ) : Finset (ℕ × ℕ) := fds.toFinset.image fun fd => (child, fd)

theorem mem_slotsOf {fds : List ℕ} {s : ℕ × ℕ} : s ∈ slotsOf child fds ↔ s.1 = child ∧ s.2 ∈ fds := by
  unfold slotsOf
  rw [Finset.mem_image]
  constructor
  · rintro ⟨fd, hfd, rfl⟩
    exact ⟨rfl, List.mem_toFinset.mp hfd⟩
  · rintro ⟨h1, h2⟩
    exact ⟨s.2, List.mem_toFinset.mpr h2, by rw [← h1]⟩

theorem union_slotsOf_cons (D : Finset (ℕ × ℕ)) (child fd : ℕ) (fds : List ℕ) :
    D ∪ slotsOf child (fd :: fds) = insert (child, fd) D ∪ slotsOf child fds := by
  ext s
  simp only [Finset.mem_union, Finset.mem_insert, mem_slotsOf, List.mem_cons]
  constructor
  · rintro (h | ⟨h1, h2 | h2⟩)
    · exact Or.inl (Or.inr h)
    · exact Or.inl (Or.inl (Prod.ext h1 h2))
    · exact Or.inr ⟨h1, h2⟩
  · rintro ((h | h) | ⟨h1, h2⟩)
    · exact Or.inr ⟨by rw [h], Or.inl (by rw [h])⟩
    · exact Or.inl h
    · exact Or.inr ⟨h1, Or.inr h2⟩

/-! ### The entry -/

/-- The messages of a process without a mailbox do not matter. -/
theorem Stored.remail {h : Heap} {T : Table Use} {H : ℕ → Option Filehandle} {B : ℕ → Option PipeBuffer}
    (hS : Stored h T H B box C) (hnone : box p = none) (msgs : List Message) :
    Stored h T H B box (C.setMail p msgs) := by
  have hne : ∀ {q x}, box q = some x → q ≠ p := by
    intro q x hx he
    rw [he, hnone] at hx
    cases hx
  refine ⟨hS.holds, hS.handle, hS.pipe, hS.data, hS.fits, hS.text, hS.owned, ?_, ?_⟩
  · intro q x hx
    rw [C.mail_setMail_of_ne _ (hne hx)]
    exact hS.room q x hx
  · intro q x hx
    rw [C.mail_setMail_of_ne _ (hne hx)]
    exact hS.mail q x hx

/-- What a new entry looks like. -/
structure Newborn (v : Proc) : Prop where
  exists_ : v.exists_ = true
  exited : v.exited = false
  mailbox : v.mailbox = none
  mailboxSize : v.mailboxSize = 0
  receiveBlocked : v.receiveBlocked = false
  inSyscall : v.inSyscall = 0

theorem parked_install {c : ℕ} (hfree : (S.procs child).exists_ = false) :
    Parked (install S child v).procs c q ↔ Parked S.procs c q := by
  rw [install_procs]
  by_cases hq : q = child
  · rw [hq]
    constructor
    · intro h
      have hidle := h.idle
      rw [Function.update_self] at hidle
      cases hidle
    · intro h
      rw [h.exists_] at hfree
      cases hfree
  · constructor
    · intro h
      refine ⟨?_, ?_, ?_, ?_⟩
      · rw [← h.exists_, Function.update_of_ne hq]
      · rw [← h.alive, Function.update_of_ne hq]
      · rw [← h.idle, Function.update_of_ne hq]
      · rw [← h.call, Function.update_of_ne hq]
    · intro h
      refine ⟨?_, ?_, ?_, ?_⟩ <;> rw [Function.update_of_ne hq]
      · exact h.exists_
      · exact h.alive
      · exact h.idle
      · exact h.call

theorem Entries.install {serving : Option ℕ} {stale : ℕ → Bool} {mail : ℕ → List Message}
    (h : Entries serving S.procs stale mail) (hfree : (S.procs child).exists_ = false) (hv : Newborn v) :
    Entries serving (install S child v).procs (Function.update stale child false)
      (Function.update mail child []) := by
  have hparked := fun q => parked_install (v := v) (c := SYSCALL_RECEIVE) (q := q) hfree
  rw [install_procs] at hparked ⊢
  refine ⟨?_, ?_, ?_, ?_, ?_, ?_, ?_⟩
  · intro q
    by_cases hq : q = child
    · rw [hq, Function.update_self]
      exact fun _ _ => Function.update_self _ _ _
    · rw [Function.update_of_ne hq, Function.update_of_ne hq]
      exact h.fresh q
  · intro q
    by_cases hq : q = child
    · simp only [hq, Function.update_self]
      exact fun _ _ => hv.mailboxSize
    · rw [Function.update_of_ne hq, Function.update_of_ne hq, Function.update_of_ne hq]
      exact h.size q
  · intro q
    by_cases hq : q = child
    · simp only [hq, Function.update_self]
      exact fun _ _ _ => trivial
    · rw [Function.update_of_ne hq, Function.update_of_ne hq, Function.update_of_ne hq]
      exact h.empty q
  · intro q
    by_cases hq : q = child
    · rw [hq, Function.update_self]
      exact fun _ _ hsome => absurd hv.mailbox hsome
    · rw [Function.update_of_ne hq, Function.update_of_ne hq]
      exact h.alloc q
  · intro q
    rw [hparked q]
    by_cases hq : q = child
    · rw [hq, Function.update_self]
      intro _ _
      constructor
      · intro hb
        rw [hv.receiveBlocked] at hb
        cases hb
      · intro hpark
        rw [hpark.exists_] at hfree
        cases hfree
    · rw [Function.update_of_ne hq]
      exact h.blocked q
  · intro q hpark
    have hpark' := (hparked q).mp hpark
    have hq : q ≠ child := by
      intro he
      rw [he] at hpark'
      rw [hpark'.exists_] at hfree
      cases hfree
    rw [Function.update_of_ne hq]
    exact h.hungry q hpark'
  · intro q
    by_cases hq : q = child
    · rw [hq, Function.update_self]
      intro _ _ _ hcall
      have hcall' : v.inSyscall = SYSCALL_WAITPID := hcall
      rw [hv.inSyscall] at hcall'
      cases hcall'
    · rw [Function.update_of_ne hq]
      exact h.waiting q

theorem boxes_eq_none {stale : ℕ → Bool} (hfree : (S.procs child).exists_ = false) :
    boxes S.procs stale child = none := by
  rw [boxes, hfree, if_neg (by simp)]

theorem boxes_install {stale : ℕ → Bool} (hfree : (S.procs child).exists_ = false) (hv : Newborn v) :
    boxes (install S child v).procs (Function.update stale child false) = boxes S.procs stale := by
  funext q
  rw [install_procs]
  by_cases hq : q = child
  · rw [hq, boxes_eq_none hfree, boxes, Function.update_self]
    split
    · exact hv.mailbox
    · rfl
  · rw [boxes, boxes, Function.update_of_ne hq, Function.update_of_ne hq]

theorem liveSlots_install (hG : Good S) (hG' : Good (install S child v)) (hv : Newborn v) :
    liveSlots (install S child v) = liveSlots S ∪ slotsOf child (List.range MAX_FDS) := by
  ext s
  rw [Finset.mem_union, mem_liveSlots hG', mem_liveSlots hG, mem_slotsOf, List.mem_range,
    live_install hv.exists_ hv.exited]
  tauto

/-- **The new entry** goes into the table. -/
theorem Sane.install
    (h : Sane n C none (liveSlots S ∪ slotsOf child (List.range MAX_FDS)) (boxes S.procs n.stale) o)
    (hsched : o.sched = S) (hG : Good S) (hfree : getFreePid S = some child) (hv : Newborn v)
    (hG' : Good (install S child v)) :
    Whole { n with stale := Function.update n.stale child false } (C.setMail child [])
      { o with sched := install S child v } := by
  have hex := (getFreePid_spec hfree).2.2
  have hparked := fun c q => parked_install (v := v) (c := c) (q := q) hex
  obtain ⟨T, hS⟩ := h.tidy.stored
  unfold Whole
  show Sane _ _ none (liveSlots (Process.install S child v))
    (boxes (Process.install S child v).procs (Function.update n.stale child false))
    { o with sched := Process.install S child v }
  rw [liveSlots_install hG hG' hv, boxes_install hex hv]
  have hnone : boxes S.procs n.stale child = none := boxes_eq_none hex
  rw [← hsched] at hparked
  refine ⟨⟨h.tidy.counted, h.tidy.paired, T, hS.remail hnone []⟩, ⟨_, hG', rfl⟩, ⟨?_, ?_⟩, ?_, ?_, ?_,
    h.input⟩
  · intro b pb q hb hr
    obtain ⟨⟨hpark, hreads⟩, hlen, hw⟩ := h.waits.reader b pb q hb hr
    refine ⟨⟨?_, hreads⟩, hlen, hw⟩
    show Parked (Process.install S child v).procs _ q
    rw [← hsched]
    exact (hparked _ q).mpr hpark
  · intro q hq
    have hq' : Parked (Process.install S child v).procs SYSCALL_READ q := hq
    rw [← hsched] at hq'
    exact h.waits.parked q ((hparked _ q).mp hq')
  · have hentries := h.entries
    rw [hsched] at hentries
    exact hentries.install hex hv
  · intro q fd hq
    have hq' : Parked (Process.install S child v).procs SYSCALL_READ q := hq
    rw [← hsched] at hq'
    exact h.slots q fd ((hparked _ q).mp hq')
  · intro q _ he
    cases he

/-! ### Slots that are not used yet -/

/-- A closed slot counts as well. -/
theorem Sane.openSlot {s : ℕ × ℕ} (h : Sane n C none D box o) (hs : s ∉ D)
    (hnone : o.filedesc s.1 s.2 = none) : Sane n C none (insert s D) box o :=
  h.extend ⟨h.tidy.counted.opened hs hnone, h.tidy.paired, h.tidy.stored⟩ rfl rfl
    (Finset.subset_insert _ _) (fun _ _ => rfl) (fun _ fh hfh => ⟨fh, hfh, rfl, rfl⟩)
    (SameReaders.refl _) h.input

theorem Sane.openSlots (h : Sane n C none D box o) (child : ℕ) (fds : List ℕ) (hnodup : fds.Nodup)
    (hnot : ∀ fd ∈ fds, (child, fd) ∉ D) (hnone : ∀ fd ∈ fds, o.filedesc child fd = none) :
    Sane n C none (D ∪ slotsOf child fds) box o := by
  induction fds generalizing D with
  | nil =>
    have hempty : D ∪ slotsOf child [] = D := by
      ext s
      simp [mem_slotsOf]
    rw [hempty]
    exact h
  | cons fd fds ih =>
    rw [union_slotsOf_cons]
    rw [List.nodup_cons] at hnodup
    refine ih (h.openSlot (hnot fd (by simp)) (hnone fd (by simp))) hnodup.2 ?_ ?_
    · intro fd' hfd'
      rw [Finset.mem_insert, not_or]
      refine ⟨?_, hnot fd' (List.mem_cons_of_mem _ hfd')⟩
      intro he
      exact hnodup.1 ((Prod.mk.inj he).2 ▸ hfd')
    · exact fun fd' hfd' => hnone fd' (List.mem_cons_of_mem _ hfd')

theorem Sane.clearFds (h : Sane n C none D box o) (child : ℕ) (hD : ∀ s ∈ D, s.1 ≠ child) :
    Sane n C none D box { o with filedesc := Function.update o.filedesc child fun _ => none } := by
  have hfds : ∀ s ∈ D, Function.update o.filedesc child (fun _ => none) s.1 s.2 = o.filedesc s.1 s.2 := by
    intro s hs
    rw [Function.update_of_ne (hD s hs)]
  exact h.extend ⟨h.tidy.counted.congr fun a => refs_congr hfds a, h.tidy.paired, h.tidy.stored⟩ rfl
    rfl (Finset.Subset.refl _) hfds (fun _ fh hfh => ⟨fh, hfh, rfl, rfl⟩) (SameReaders.refl _) h.input

/-! ### `fork` -/

/-- What sharing descriptors leaves alone. -/
structure Shared (o o' : Objects) : Prop where
  handles : Shrinks o o'
  sched : o'.sched = o.sched
  pipes : o'.pipes = o.pipes

/-- **The descriptors** of the parent are shared one after the other. -/
theorem Sane.shareFds {F : Fault → Prop} {parent : ℕ} {fds : List ℕ} (h : Sane n C none D box o) (hnodup : fds.Nodup)
    (hparent : ∀ fd ∈ fds, (parent, fd) ∈ D)
    (hnot : ∀ fd ∈ fds, (child, fd) ∉ D) (hnone : ∀ fd ∈ fds, o.filedesc child fd = none) :
    Acts State.objects F o (shareFds parent child fds) fun _ o' =>
      Sane n C none (D ∪ slotsOf child fds) box o' ∧ Shared o o' := by
  induction fds generalizing D o with
  | nil => exact Acts.pure ⟨h.openSlots child [] hnodup hnot hnone, Shrinks.refl o, rfl, rfl⟩
  | cons fd fds ih =>
    rw [List.nodup_cons] at hnodup
    have hnot' : ∀ fd' ∈ fds, (child, fd') ∉ insert (child, fd) D := by
      intro fd' hfd'
      rw [Finset.mem_insert, not_or]
      refine ⟨?_, hnot fd' (List.mem_cons_of_mem _ hfd')⟩
      intro he
      exact hnodup.1 ((Prod.mk.inj he).2 ▸ hfd')
    have hparent' : ∀ fd' ∈ fds, (parent, fd') ∈ insert (child, fd) D := fun fd' hfd' =>
      Finset.mem_insert_of_mem (hparent fd' (List.mem_cons_of_mem _ hfd'))
    rw [union_slotsOf_cons]
    refine Acts.seq (Acts.get fun k hk => ?_)
    subst hk
    cases ha : k.filedesc parent fd with
    | none =>
      apply Acts.pure
      refine ih (h.openSlot (hnot fd (by simp)) (hnone fd (by simp))) hnodup.2 hparent' hnot' ?_
      exact fun fd' hfd' => hnone fd' (List.mem_cons_of_mem _ hfd')
    | some a =>
      obtain ⟨fh, hfh⟩ := h.tidy.counted.slot (hparent fd (by simp)) ha
      refine Acts.seq (does_setFd (does_addReference hfh ?_))
      refine (ih (h.share (hnot fd (by simp)) hfh) hnodup.2 hparent' hnot' ?_).mono ?_
      · intro fd' hfd'
        have hslot : (child, fd') ≠ (child, fd) := by
          intro he
          exact hnodup.1 ((Prod.mk.inj he).2 ▸ hfd')
        show putFd k.filedesc child fd (some a) child fd' = none
        rw [putFd_of_ne hslot]
        exact hnone fd' (List.mem_cons_of_mem _ hfd')
      · rintro _ o' ⟨hsane, hshared⟩
        refine ⟨hsane, Shrinks.trans ?_ hshared.handles, hshared.sched, hshared.pipes⟩
        intro x g hg
        have hg' : Function.update k.handles a (some { fh with refcount := fh.refcount + 1 }) x = some g := hg
        exact handle_touched hg' hfh rfl rfl

theorem newborn_forked (S : Sched) (parent child : ℕ) (r : Regs) : Newborn (forkedProc S parent child r) :=
  ⟨rfl, rfl, rfl, rfl, rfl, rfl⟩

theorem newborn_started (pid startAddress : ℕ) : Newborn (startedProc pid startAddress) :=
  ⟨rfl, rfl, rfl, rfl, rfl, rfl⟩

/-- What is remembered after a birth. -/
theorem Notes.after_install (hfresh : ∀ z, o.sched.Live z → n.stale z = false)
    (hfree : getFreePid o.sched = some child) (hv : Newborn v)
    (hsched : o'.sched = install o.sched child v) :
    n.after o o' = { n with stale := Function.update n.stale child false } := by
  have hdead := not_live_of_free hfree
  have hstale : (n.after o o').stale = Function.update n.stale child false := by
    funext z
    show (if _ then _ else _) = _
    rw [hsched]
    by_cases hz : z = child
    · rw [hz, if_pos ((live_install hv.exists_ hv.exited child).mpr (Or.inl rfl)), Function.update_self]
    · rw [Function.update_of_ne hz]
      by_cases hlive : o.sched.Live z
      · rw [if_pos ((live_install hv.exists_ hv.exited z).mpr (Or.inr hlive)), hfresh z hlive]
      · rw [if_neg fun h => ((live_install hv.exists_ hv.exited z).mp h).elim hz hlive, if_neg hlive]
  cases n
  simp only [Notes.after] at hstale ⊢
  rw [hstale]

/-- The slots of a new process are not live yet. -/
theorem not_mem_liveSlots (hG : Good S) (hfree : getFreePid S = some child) {s : ℕ × ℕ}
    (hs : s ∈ liveSlots S) : s.1 ≠ child := by
  intro he
  have hlive := ((mem_liveSlots hG).mp hs).1
  rw [he] at hlive
  exact not_live_of_free hfree hlive

theorem Serving.forkIn (h : Serving n C p o) (hfree : getFreePid o.sched = some child) (r : Regs) :
    Does o (forkIn p child r) fun _ o' => Quietly n C p o child o' := by
  have hp := h.live
  have hG := h.whole.good
  have hne : p ≠ child := by
    intro he
    exact not_live_of_free hfree (he ▸ hp)
  refine Acts.get fun k hk => ?_
  refine (remote_onPages fun P => mild_forkPages (k.space p) P).andThen fun pdir => ?_
  refine (remote_setSpace child _).andThen fun _ => ?_
  refine Acts.seq (does_clearFds ?_)
  have hsane := h.whole.clearFds child fun s hs => not_mem_liveSlots hG hfree hs
  refine Acts.bind (hsane.shareFds List.nodup_range ?_ ?_ ?_) ?_
  · exact fun fd hfd => h.whole.mem_slots.mpr ⟨hp, List.mem_range.mp hfd⟩
  · exact fun fd _ hmem => not_mem_liveSlots hG hfree hmem rfl
  · intro fd _
    show Function.update o.filedesc child (fun _ => none) child fd = none
    rw [Function.update_self]
  rintro _ o₁ ⟨hsane₁, hshared⟩
  refine (remote_setCwd child _).andThen fun _ => ?_
  refine does_schedDo rfl ?_
  have hsched : o₁.sched = o.sched := hshared.sched
  have hG' : Good (install o.sched child (forkedProc o.sched p child r)) := by
    have hok : Process.syscallFork o.sched p r =
        .ok ((child : ℤ), install o.sched child (forkedProc o.sched p child r)) := by
      rw [Process.syscallFork, hfree]
    exact hG.fork hp hok
  have hwhole := hsane₁.install hsched hG hfree (newborn_forked o.sched p child r) hG'
  rw [← hsched] at hwhole
  have hex := (getFreePid_spec hfree).2.2
  refine ⟨C.setMail child [], ⟨fun _ _ => rfl, ?_, ?_, ?_⟩, ?_, ?_, ?_⟩
  · intro b hb hb'
    exact absurd (by show o₁.pipes b = none; rw [hshared.pipes]; exact hb) hb'
  · intro q hq
    apply C.mail_setMail_of_ne
    intro he
    rw [he, hex] at hq
    cases hq
  · intro q hq hq'
    have hqc : q = child := by
      by_contra hqc
      have hq'' : ((install o₁.sched child (forkedProc o₁.sched p child r)).procs q).exists_ = true := hq'
      rw [hsched, install_procs, Function.update_of_ne hqc, hq] at hq''
      cases hq''
    rw [hqc, C.mail_setMail]
  · rw [Notes.after_install h.whole.fresh hfree (newborn_forked o.sched p child r) (by rw [hsched])]
    exact hwhole
  · rw [Settled, if_neg (by simp only [ESUSPEND]; omega), hsched]
    refine ⟨h.current, ?_⟩
    rw [install_procs, Function.update_of_ne hne]
    exact h.ready
  · intro a fh fh' hfh hfh'
    exact hshared.handles.kept a fh fh' hfh hfh'

theorem Serving.syscallFork (h : Serving n C p o) (r : Regs) :
    Does o (syscallFork p r) (Quietly n C p o) := by
  refine Acts.get fun k hk => ?_
  subst hk
  cases hfree : getFreePid k.sched with
  | none => exact Acts.pure (h.stay (by decide))
  | some child => exact Acts.bind (h.forkIn hfree r) fun _ o' hq => Acts.pure hq

/-! ### `start_process` -/

/-- The process `pid` has been started; its standard input is the pipe `b`. -/
structure Started (o : Objects) (pid b : ℕ) (o' : Objects) : Prop where
  free : getFreePid o.sched = some pid
  pipe : o.pipes b = none
  pipes : ∃ pb, o'.pipes = Function.update o.pipes b (some pb)
  handles : ∀ a fh, o.handles a = some fh → o'.handles a = some fh
  reads : Reads o'.filedesc o'.handles pid 0 b
  sched : ∃ v, Newborn v ∧ o'.sched = install o.sched pid v

theorem Reads.extend {b e : ℕ} {v : Option ℕ} {i : ℤ} (h : Reads o.filedesc o.handles p i b)
    (he : Extends o o') (hfds : o'.filedesc = putFd o.filedesc p e v) (hne : i.toNat ≠ e) :
    Reads o'.filedesc o'.handles p i b := by
  obtain ⟨h0, h1, a, fh, ha, hfh, hty, hp⟩ := h
  refine ⟨h0, h1, a, fh, ?_, he.handles a fh hfh, hty, hp⟩
  rw [hfds, putFd_of_ne]
  · exact ha
  · intro heq
    exact hne (Prod.mk.inj heq).2

/-- The three standard descriptors of a new process. -/
theorem Sane.openStandard
    (h : Sane n C none (D ∪ slotsOf p (List.range' 3 13)) box o) (hnot : ∀ s ∈ D, s.1 ≠ p) :
    Does o (openStandard p) fun _ o' => ∃ b pb, o.pipes b = none ∧ Extends o o' ∧
      o'.pipes = Function.update o.pipes b (some pb) ∧ Reads o'.filedesc o'.handles p 0 b ∧
      Sane { n with std := Function.update n.std b true } (C.setText b []) none
        (D ∪ slotsOf p (List.range MAX_FDS)) box o' := by
  have hmem : ∀ {fd}, (p, fd) ∈ D ∪ slotsOf p (List.range' 3 13) → 3 ≤ fd := by
    intro fd hfd
    rcases Finset.mem_union.mp hfd with hD | hs
    · exact absurd rfl (hnot _ hD)
    · exact (List.mem_range'_1.mp (mem_slotsOf.mp hs).2).1
  have hslots : insert (p, 2) (insert (p, 1) (insert (p, 0) (D ∪ slotsOf p (List.range' 3 13)))) =
      D ∪ slotsOf p (List.range MAX_FDS) := by
    have hrange : List.range MAX_FDS = 0 :: 1 :: 2 :: List.range' 3 13 := by decide
    rw [hrange, union_slotsOf_cons, union_slotsOf_cons, union_slotsOf_cons, Finset.insert_union,
      Finset.insert_union, Finset.insert_union]
  refine h.newReader 0 (fun hin => absurd (hmem hin) (by decide)) ?_ (by decide)
  intro b pb o₁ hb he₁ hp₁ hsane₁ hreads
  refine hsane₁.newPlain 1 ?_ rfl ?_
  · intro hin
    rcases Finset.mem_insert.mp hin with heq | hin
    · cases heq
    · exact absurd (hmem hin) (by decide)
  intro a₂ o₂ he₂ hp₂ hfds₂ hsane₂
  have hlast : (newScreenHandle >>= fun a => setFd p 2 (some a)) =
      (newHandle .screen 0 0 >>= fun a => setFd p 2 (some a) >>= fun _ => pure ()) := by
    simp only [bind_pure_unit]
    rfl
  rw [hlast]
  refine Sane.newPlain hsane₂ 2 ?_ rfl ?_
  · intro hin
    rcases Finset.mem_insert.mp hin with heq | hin
    · cases heq
    rcases Finset.mem_insert.mp hin with heq | hin
    · cases heq
    · exact absurd (hmem hin) (by decide)
  intro a₃ o₃ he₃ hp₃ hfds₃ hsane₃
  apply Acts.pure
  rw [hslots] at hsane₃
  refine ⟨b, pb, hb, (he₁.trans he₂).trans he₃, by rw [hp₃, hp₂, hp₁], ?_, hsane₃⟩
  exact (hreads.extend he₂ hfds₂ (by decide)).extend he₃ hfds₃ (by decide)

theorem Whole.startIn (h : Whole n C o) (hfree : getFreePid o.sched = some p) (m : Machine)
    (startAddress : ℕ) :
    Does o (startIn m p startAddress) fun _ o' => ∃ b, Started o p b o' ∧
      Whole { n with
          std := Function.update n.std b true, stale := Function.update n.stale p false }
        ((C.setText b []).setMail p []) o' := by
  have hG := h.good
  refine (remote_onPages fun P => mild_startPages m P).andThen fun pdir => ?_
  refine (remote_setSpace p _).andThen fun _ => ?_
  refine Acts.seq (does_clearFds ?_)
  have hnot : ∀ s ∈ liveSlots o.sched, s.1 ≠ p := fun s hs => not_mem_liveSlots hG hfree hs
  have hsane := (h.clearFds p hnot).openSlots p (List.range' 3 13) (by decide)
    (fun fd _ hmem => hnot _ hmem rfl) (by
      intro fd _
      show Function.update o.filedesc p (fun _ => none) p fd = none
      rw [Function.update_self])
  refine Acts.bind (hsane.openStandard hnot) ?_
  rintro _ o₁ ⟨b, pb, hb, he, hpipes, hreads, hsane₁⟩
  refine (remote_setCwd p _).andThen fun _ => ?_
  refine does_schedDo rfl ?_
  have hsched : o₁.sched = o.sched := he.sched
  have hv := newborn_started p startAddress
  have hG' : Good (install o.sched p (startedProc p startAddress)) := by
    refine hG.install hfree rfl rfl rfl ?_
    intro q hq
    cases hq
  have hwhole := hsane₁.install hsched hG hfree hv hG'
  rw [← hsched] at hwhole
  refine ⟨b, ⟨hfree, hb, ⟨pb, hpipes⟩, he.handles, hreads, _, hv, ?_⟩, hwhole⟩
  show install o₁.sched p _ = _
  rw [hsched]

/-- **`start_process`** finds no slot, or starts a process. -/
theorem Whole.startProcess (h : Whole n C o) (m : Machine) (startAddress : ℕ) :
    Does o (startProcess m startAddress) fun res o' =>
      (res = none ∧ getFreePid o.sched = none ∧ o' = o) ∨ ∃ pid b, res = some pid ∧ Started o pid b o' ∧
        Whole { n with
            std := Function.update n.std b true, stale := Function.update n.stale pid false }
          ((C.setText b []).setMail pid []) o' := by
  refine Acts.get fun k hk => ?_
  subst hk
  cases hfree : getFreePid k.sched with
  | none => exact Acts.pure (Or.inl ⟨rfl, hfree, rfl⟩)
  | some pid =>
    refine Acts.bind (h.startIn hfree m startAddress) ?_
    rintro _ o' ⟨b, hstarted, hwhole⟩
    exact Acts.pure (Or.inr ⟨pid, b, rfl, hstarted, hwhole⟩)

end AdelaideOS.Kernel
