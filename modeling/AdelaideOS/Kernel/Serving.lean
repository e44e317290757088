import AdelaideOS.Kernel.Waiting

/-!
# Serving a system call

`Serving n C p o` is the invariant when the handler of a call of process `p` begins, `Done` the one when it
returns.  `Silent` says that the handler moved no bytes and no messages, `Kept` that it left the handles what they
were, unless it destroyed them.

* **`Whole.enter`**, **`Whole.leave`**, **`Whole.switch`** — the beginning and the end of `syscall`, and the timer;
* **`Serving.stay`**, **`Serving.remote`** — handlers that do not touch the objects.
-/

namespace AdelaideOS.Kernel

open AdelaideOS.Buddy AdelaideOS.Lib.View AdelaideOS.Process

/-- A handle that is there before and after is the same handle. -/
def Kept (o o' : Objects) : Prop :=
  ∀ a fh fh', o.handles a = some fh → o'.handles a = some fh' → fh'.type = fh.type ∧ fh'.p = fh.p

/-- Every handle was there before. -/
def Shrinks (o o' : Objects) : Prop :=
  ∀ a fh', o'.handles a = some fh' → ∃ fh, o.handles a = some fh ∧ fh'.type = fh.type ∧ fh'.p = fh.p

/-- Buffers that exist keep what they hold, new ones are empty. -/
structure Silent (C C' : Contents) (o o' : Objects) : Prop where
  text : ∀ b, o.pipes b ≠ none → C'.text b = C.text b
  fresh : ∀ b, o.pipes b = none → o'.pipes b ≠ none → C'.text b = []
  mail : ∀ p, (o.sched.procs p).exists_ = true → C'.mail p = C.mail p
  unread : ∀ p, (o.sched.procs p).exists_ = false → (o'.sched.procs p).exists_ = true → C'.mail p = []

/-- What is remembered of the mailboxes of exited processes. -/
def Notes.after (n : Notes) (o o' : Objects) : Notes :=
  { n with
    stale := fun z =>
      if o'.sched.Live z then false
      else if o.sched.Live z then (o.sched.procs z).mailbox.isSome
      else n.stale z }

structure Serving (n : Notes) (C : Contents) (p : ℕ) (o : Objects) : Prop where
  whole : Whole n C o
  serving : n.serving = some p
  current : o.sched.current = some p
  ready : (o.sched.procs p).ready = true

/-- After a handler has returned `res`: the caller goes on, or it has been suspended or killed. -/
def Settled (p : ℕ) (res : ℤ) (S : Sched) : Prop :=
  if res = -ESUSPEND then
    (S.procs p).inSyscall = SYSCALL_WAITPID → (S.procs p).waitingOn ≠ none → S.Live p →
      (S.procs p).ready = false
  else S.current = some p ∧ (S.procs p).ready = true

structure Done (n : Notes) (C' : Contents) (p : ℕ) (o : Objects) (res : ℤ) (o' : Objects) : Prop where
  whole : Whole (n.after o o') C' o'
  settled : Settled p res o'.sched
  kept : Kept o o'

/-- The handler moves no data. -/
def Quietly (n : Notes) (C : Contents) (p : ℕ) (o : Objects) (res : ℤ) (o' : Objects) : Prop :=
  ∃ C', Silent C C' o o' ∧ Done n C' p o res o'

/-- The current process can go on. -/
def Steady (S : Sched) : Prop := ∀ p, S.current = some p → (S.procs p).ready = true

variable {n n' : Notes} {C C' : Contents} {o o' o'' : Objects} {a b p q : ℕ} {res : ℤ} {S S' : Sched}

/-! ### Relations between objects -/

theorem Shrinks.refl (o : Objects) : Shrinks o o := fun _ fh' h => ⟨fh', h, rfl, rfl⟩

theorem Shrinks.trans (h : Shrinks o o') (h' : Shrinks o' o'') : Shrinks o o'' := by
  intro a fh'' hfh''
  obtain ⟨fh', hfh', ht', hp'⟩ := h' a fh'' hfh''
  obtain ⟨fh, hfh, ht, hp⟩ := h a fh' hfh'
  exact ⟨fh, hfh, ht'.trans ht, hp'.trans hp⟩

theorem Shrinks.kept (h : Shrinks o o') : Kept o o' := by
  intro a fh fh' hfh hfh'
  obtain ⟨fh₀, hfh₀, ht, hp⟩ := h a fh' hfh'
  obtain rfl : fh₀ = fh := Option.some.inj (hfh₀.symm.trans hfh)
  exact ⟨ht, hp⟩

theorem kept_of_handles (h : o'.handles = o.handles) : Kept o o' := by
  intro a fh fh' hfh hfh'
  rw [h, hfh] at hfh'
  obtain rfl := Option.some.inj hfh'
  exact ⟨rfl, rfl⟩

theorem Closed.shrinks (h : Closed o a o') : Shrinks o o' := fun _ _ hg => h.handle hg

/-- No buffer and no process is new. -/
theorem silent_refl (C : Contents) (hpipes : ∀ b, o.pipes b = none → o'.pipes b = none)
    (hprocs : ∀ p, (o.sched.procs p).exists_ = false → (o'.sched.procs p).exists_ = false) :
    Silent C C o o' := by
  refine ⟨fun _ _ => rfl, ?_, fun _ _ => rfl, ?_⟩
  · exact fun b hb hb' => absurd (hpipes b hb) hb'
  · intro p hp hp'
    rw [hprocs p hp] at hp'
    cases hp'

/-- Nobody dies and nobody is born. -/
theorem Notes.after_eq (hfresh : ∀ z, o.sched.Live z → n.stale z = false)
    (hlives : ∀ z, o'.sched.Live z ↔ o.sched.Live z) : n.after o o' = n := by
  have hstale : (n.after o o').stale = n.stale := by
    funext z
    show (if _ then _ else _) = _
    by_cases hz : o.sched.Live z
    · rw [if_pos ((hlives z).mpr hz), hfresh z hz]
    · rw [if_neg fun h => hz ((hlives z).mp h), if_neg hz]
  cases n
  simp only [Notes.after] at hstale ⊢
  rw [hstale]

theorem Whole.good (h : Whole n C o) : Good o.sched := by
  obtain ⟨S, hG, hS⟩ := h.sched
  rw [hS]
  exact hG

theorem Whole.fresh (h : Whole n C o) (z : ℕ) (hz : o.sched.Live z) : n.stale z = false :=
  h.entries.fresh z hz.1 hz.2

theorem Whole.after_eq (h : Whole n C o) (hlives : ∀ z, o'.sched.Live z ↔ o.sched.Live z) :
    n.after o o' = n :=
  Notes.after_eq h.fresh hlives

theorem Whole.mem_slots (h : Whole n C o) {s : ℕ × ℕ} :
    s ∈ liveSlots o.sched ↔ o.sched.Live s.1 ∧ s.2 < MAX_FDS := mem_liveSlots h.good

/-! ### Assignments to table entries -/

/-- The entries agree in everything that the invariant speaks of, except for the call number. -/
structure SameEntry (v w : Proc) : Prop where
  exists_ : w.exists_ = v.exists_
  exited : w.exited = v.exited
  ready : w.ready = v.ready
  waitingOn : w.waitingOn = v.waitingOn
  mailbox : w.mailbox = v.mailbox
  mailboxSize : w.mailboxSize = v.mailboxSize
  mailboxAlloc : w.mailboxAlloc = v.mailboxAlloc
  receiveBlocked : w.receiveBlocked = v.receiveBlocked

theorem live_of_sameEntry (h : ∀ q, SameEntry (S.procs q) (S'.procs q)) (q : ℕ) :
    S'.Live q ↔ S.Live q := by
  rw [Sched.Live, Sched.Live, (h q).exists_, (h q).exited]

theorem liveSlots_congr (h : ∀ q, S'.Live q ↔ S.Live q) : liveSlots S' = liveSlots S := by
  rw [liveSlots, liveSlots, livePids_congr h]

/-- **The table** may change in the call numbers of ready processes and in fields that nothing speaks of. -/
theorem Whole.retable (h : Whole n C o) (hG : Good S')
    (hsame : ∀ q, SameEntry (o.sched.procs q) (S'.procs q))
    (hcall : ∀ q, (o.sched.procs q).ready = true ∨
      (S'.procs q).inSyscall = (o.sched.procs q).inSyscall)
    (hstd : n'.std = n.std) (hstale : n'.stale = n.stale) (hinput : n'.input = n.input)
    (hargs : ∀ q, (o.sched.procs q).ready = true ∨ n'.args q = n.args q)
    (hwait : ∀ q, some q ≠ n'.serving → S'.Live q → (S'.procs q).inSyscall = SYSCALL_WAITPID →
      (S'.procs q).waitingOn ≠ none → (S'.procs q).ready = false) :
    Whole n' C { o with sched := S' } := by
  have hlive := live_of_sameEntry hsame
  have hslots := liveSlots_congr hlive
  -- only processes that are not ready count as parked
  have hparked : ∀ no q, Parked S'.procs no q ↔ Parked o.sched.procs no q := by
    intro no q
    constructor
    · intro hq
      have hidle := (hsame q).ready.symm.trans hq.idle
      refine ⟨(hsame q).exists_.symm.trans hq.exists_, (hsame q).exited.symm.trans hq.alive, hidle, ?_⟩
      rcases hcall q with hr | hc
      · rw [hidle] at hr
        cases hr
      · exact hc.symm.trans hq.call
    · intro hq
      refine ⟨(hsame q).exists_.trans hq.exists_, (hsame q).exited.trans hq.alive,
        (hsame q).ready.trans hq.idle, ?_⟩
      rcases hcall q with hr | hc
      · rw [hq.idle] at hr
        cases hr
      · exact hc.trans hq.call
  have hfd : ∀ q, Parked o.sched.procs SYSCALL_READ q → n'.fd q = n.fd q := by
    intro q hq
    rcases hargs q with hr | ha
    · rw [hq.idle] at hr
      cases hr
    · rw [Notes.fd, ha, Notes.fd]
  have hboxes : boxes S'.procs n'.stale = boxes o.sched.procs n.stale := by
    funext q
    rw [boxes, boxes, (hsame q).exists_, (hsame q).mailbox, hstale]
  unfold Whole
  show Sane n' C none (liveSlots S') (boxes S'.procs n'.stale) { o with sched := S' }
  rw [hslots, hboxes]
  refine ⟨?_, ⟨S', hG, rfl⟩, ⟨?_, ?_⟩, ⟨?_, ?_, ?_, ?_, ?_, ?_, ?_⟩, ?_, ?_, ?_⟩
  · rw [hstd]
    exact ⟨h.tidy.counted, h.tidy.paired, h.tidy.stored⟩
  · intro b pb q hb hr
    obtain ⟨⟨hpark, hreads⟩, hlen, hw⟩ := h.waits.reader b pb q hb hr
    refine ⟨⟨(hparked _ q).mpr hpark, ?_⟩, hlen, hw⟩
    rw [hfd q hpark]
    exact hreads
  · intro q hq
    exact h.waits.parked q ((hparked _ q).mp hq)
  · intro q hex hexit
    rw [hstale]
    exact h.entries.fresh q ((hsame q).exists_.symm.trans hex) ((hsame q).exited.symm.trans hexit)
  · intro q hex hs
    rw [hstale] at hs
    exact (hsame q).mailboxSize.trans (h.entries.size q ((hsame q).exists_.symm.trans hex) hs)
  · intro q hex hs hnone
    rw [hstale] at hs
    exact h.entries.empty q ((hsame q).exists_.symm.trans hex) hs ((hsame q).mailbox.symm.trans hnone)
  · intro q hex hs hsome
    rw [hstale] at hs
    refine (hsame q).mailboxAlloc.trans (h.entries.alloc q ((hsame q).exists_.symm.trans hex) hs ?_)
    intro hnone
    exact hsome ((hsame q).mailbox.trans hnone)
  · intro q hex hexit
    rw [hparked, (hsame q).receiveBlocked]
    exact h.entries.blocked q ((hsame q).exists_.symm.trans hex) ((hsame q).exited.symm.trans hexit)
  · intro q hq
    exact h.entries.hungry q ((hparked _ q).mp hq)
  · intro q hq hex hexit
    exact hwait q hq ⟨hex, hexit⟩
  · intro q fd hq
    exact h.slots q fd ((hparked _ q).mp hq)
  · intro q hq
    exact h.alive q ((hparked _ q).mp hq)
  · intro b hb
    rw [hinput] at hb
    rw [hstd]
    exact h.input b hb

/-- **A call begins.** -/
theorem Whole.enter (h : Whole n C o) (hserve : n.serving = none) (hcur : o.sched.current = some p)
    (hsteady : Steady o.sched) (no : ℕ) (args : List ℕ) :
    Serving { n with serving := some p, args := Function.update n.args p args } C p
      { o with sched := enter o.sched p no } := by
  have hready := hsteady p hcur
  refine ⟨?_, rfl, hcur, ?_⟩
  · refine h.retable (h.good.enter p no) ?_ ?_ rfl rfl rfl ?_ ?_
    · intro q
      rw [enter_proc]
      exact ⟨rfl, rfl, rfl, rfl, rfl, rfl, rfl, rfl⟩
    · intro q
      rw [enter_proc]
      by_cases hq : q = p
      · rw [hq]
        exact Or.inl hready
      · exact Or.inr (if_neg hq)
    · intro q
      by_cases hq : q = p
      · rw [hq]
        exact Or.inl hready
      · exact Or.inr (Function.update_of_ne hq _ _)
    · intro q hq hlive
      have hne : q ≠ p := fun he => hq (by rw [he])
      rw [Sched.Live, enter_proc] at hlive
      rw [enter_proc]
      simp only [if_neg hne]
      exact h.entries.waiting q (by rw [hserve]; simp) hlive.1 hlive.2
  · show ((Process.enter o.sched p no).procs p).ready = true
    rw [enter_proc]
    exact hready

theorem steady_pickNext (hG : Good S) (hcur : S'.current = pickNext S)
    (hready : ∀ q, (S'.procs q).ready = (S.procs q).ready) : Steady S' := by
  intro q hq
  rw [hcur] at hq
  rw [hready]
  exact (hG.pickNext_live hq).2

/-- **A call ends.** -/
theorem Whole.leave (h : Whole n C o) (hserve : n.serving = some p) (hset : Settled p res o.sched)
    (no : ℕ) (r : Regs) :
    Whole { n with serving := none } C { o with sched := leave o.sched p no r res } ∧
      Steady (leave o.sched p no r res) := by
  obtain ⟨-, -, hcur⟩ := leave_spec o.sched p no r res
  have hproc := leave_proc o.sched p no r res
  have hsame : ∀ q, SameEntry (o.sched.procs q) ((Process.leave o.sched p no r res).procs q) := by
    intro q
    obtain ⟨regs, e, hq⟩ := hproc q
    rw [hq]
    exact ⟨rfl, rfl, rfl, rfl, rfl, rfl, rfl, rfl⟩
  constructor
  · refine h.retable (h.good.leave p no r res) hsame ?_ rfl rfl rfl (fun _ => Or.inr rfl) ?_
    · intro q
      obtain ⟨regs, e, hq⟩ := hproc q
      rw [hq]
      by_cases hqp : q = p ∧ res ≠ -ESUSPEND
      · rw [Settled, if_neg hqp.2] at hset
        rw [hqp.1]
        exact Or.inl hset.2
      · exact Or.inr (if_neg hqp)
    · intro q _ hlive hcall hwait
      obtain ⟨regs, e, hq⟩ := hproc q
      rw [Sched.Live, hq] at hlive
      rw [hq] at hcall hwait ⊢
      by_cases hqp : q = p ∧ res ≠ -ESUSPEND
      · simp only [if_pos hqp] at hcall
        cases hcall
      · simp only [if_neg hqp] at hcall
        by_cases hqp' : q = p
        · have hres : res = -ESUSPEND := by
            by_contra hne
            exact hqp ⟨hqp', hne⟩
          rw [Settled, if_pos hres] at hset
          rw [hqp'] at hcall hwait hlive ⊢
          exact hset hcall hwait hlive
        · refine h.entries.waiting q ?_ hlive.1 hlive.2 hcall hwait
          rw [hserve]
          exact fun he => hqp' (Option.some.inj he)
  · have hready : ∀ q, ((Process.leave o.sched p no r res).procs q).ready = (o.sched.procs q).ready :=
      fun q => (hsame q).ready
    by_cases hswitch : res = -ESUSPEND ∨ o.sched.current ≠ some p
    · rw [if_pos hswitch] at hcur
      exact steady_pickNext h.good hcur hready
    · rw [if_neg hswitch] at hcur
      rw [not_or] at hswitch
      rw [Settled, if_neg hswitch.1] at hset
      intro q hq
      rw [hcur, hset.1] at hq
      rw [hready, ← Option.some.inj hq]
      exact hset.2

/-- **Switching** to another process. -/
theorem Whole.switch (h : Whole n C o) (hserve : n.serving = none) (r : Regs) :
    Whole n C { o with sched := contextSwitch o.sched r } ∧ Steady (contextSwitch o.sched r) := by
  obtain ⟨-, -, hcur⟩ := contextSwitch_spec o.sched r
  have hproc := contextSwitch_proc o.sched r
  constructor
  · refine h.retable (h.good.contextSwitch r) ?_ ?_ rfl rfl rfl (fun _ => Or.inr rfl) ?_
    · intro q
      obtain ⟨regs, hq⟩ := hproc q
      rw [hq]
      exact ⟨rfl, rfl, rfl, rfl, rfl, rfl, rfl, rfl⟩
    · intro q
      obtain ⟨regs, hq⟩ := hproc q
      rw [hq]
      exact Or.inr rfl
    · intro q _ hlive
      obtain ⟨regs, hq⟩ := hproc q
      rw [Sched.Live, hq] at hlive
      rw [hq]
      exact h.entries.waiting q (by rw [hserve]; simp) hlive.1 hlive.2
  · refine steady_pickNext h.good hcur ?_
    intro q
    obtain ⟨regs, hq⟩ := hproc q
    rw [hq]

/-! ### Handlers that do nothing to the objects -/

theorem Serving.settled (h : Serving n C p o) (hres : res ≠ -ESUSPEND) : Settled p res o.sched := by
  rw [Settled, if_neg hres]
  exact ⟨h.current, h.ready⟩

theorem Serving.live (h : Serving n C p o) : o.sched.Live p := h.whole.good.current_live h.current

theorem Serving.unchanged (h : Serving n C p o) (hset : Settled p res o.sched) :
    Quietly n C p o res o := by
  refine ⟨C, silent_refl C (fun _ hb => hb) fun _ hp => hp, ?_, hset, kept_of_handles rfl⟩
  rw [h.whole.after_eq fun _ => Iff.rfl]
  exact h.whole

theorem Serving.stay (h : Serving n C p o) (hres : res ≠ -ESUSPEND) : Quietly n C p o res o :=
  h.unchanged (h.settled hres)

/-- Whatever the result is: `getcwd` returns an address of its caller's choice. -/
theorem Serving.remain (h : Serving n C p o) (hcall : (o.sched.procs p).inSyscall ≠ SYSCALL_WAITPID)
    (res : ℤ) : Quietly n C p o res o := by
  by_cases hres : res = -ESUSPEND
  · apply h.unchanged
    rw [Settled, if_pos hres]
    exact fun hc => absurd hc hcall
  · exact h.stay hres

/-- A handler that only reads and writes user memory. -/
theorem Serving.remote {m : K ℤ} (h : Serving n C p o)
    (hcall : (o.sched.procs p).inSyscall ≠ SYSCALL_WAITPID) (hm : Remote m) :
    Does o m (Quietly n C p o) :=
  hm.acts fun res => h.remain hcall res

/-! ### Handlers that suspend the caller -/

/-- The table after a process has been suspended. -/
theorem suspendProcess_entry (h : suspendProcess S q = .ok S') :
    S'.procs = Function.update S.procs q { S.procs q with ready := false } ∧ S'.current = S.current := by
  obtain ⟨-, -, rfl⟩ := suspendProcess_ok h
  exact ⟨rfl, rfl⟩

theorem suspendProcess_of (hex : (S.procs q).exists_ = true) (hready : (S.procs q).ready = true) :
    ∃ S', suspendProcess S q = .ok S' := by
  unfold suspendProcess
  rw [assert_pos hex, assert_pos hready]
  exact ⟨_, rfl⟩

/-- The entry of the process `p` when it goes to sleep. -/
def Asleep (procs : ℕ → Proc) (p : ℕ) (v : Proc) : Prop :=
  ∃ blocked w, v = { procs p with receiveBlocked := blocked, waitingOn := w, ready := false } ∧
    (blocked = true ↔ (procs p).inSyscall = SYSCALL_RECEIVE)

section

variable {procs : ℕ → Proc} {v : Proc} {c : ℕ}

theorem parked_asleep (hv : Asleep procs p v) (hex : (procs p).exists_ = true)
    (hexit : (procs p).exited = false) (hready : (procs p).ready = true) :
    Parked (Function.update procs p v) c q ↔
      Parked procs c q ∨ q = p ∧ (procs p).inSyscall = c := by
  obtain ⟨blocked, w, rfl, -⟩ := hv
  by_cases hq : q = p
  · rw [hq]
    constructor
    · intro h
      have hcall := h.call
      rw [Function.update_self] at hcall
      exact Or.inr ⟨rfl, hcall⟩
    · rintro (h | ⟨-, hcall⟩)
      · have hidle := h.idle
        rw [hready] at hidle
        cases hidle
      · refine ⟨?_, ?_, ?_, ?_⟩ <;> rw [Function.update_self]
        · exact hex
        · exact hexit
        · exact hcall
  · constructor
    · intro h
      refine Or.inl ⟨?_, ?_, ?_, ?_⟩
      · rw [← h.exists_, Function.update_of_ne hq]
      · rw [← h.alive, Function.update_of_ne hq]
      · rw [← h.idle, Function.update_of_ne hq]
      · rw [← h.call, Function.update_of_ne hq]
    · rintro (h | ⟨he, -⟩)
      · refine ⟨?_, ?_, ?_, ?_⟩ <;> rw [Function.update_of_ne hq]
        · exact h.exists_
        · exact h.alive
        · exact h.idle
        · exact h.call
      · exact absurd he hq

/-- The entries when `p` goes to sleep. -/
theorem Entries.asleep {serving : Option ℕ} {stale : ℕ → Bool} {mail : ℕ → List Message}
    (h : Entries serving procs stale mail) (hv : Asleep procs p v) (hex : (procs p).exists_ = true)
    (hexit : (procs p).exited = false) (hready : (procs p).ready = true)
    (hmail : (procs p).inSyscall = SYSCALL_RECEIVE → mail p = []) :
    Entries serving (Function.update procs p v) stale mail := by
  have hparked := fun q => parked_asleep (c := SYSCALL_RECEIVE) (q := q) hv hex hexit hready
  obtain ⟨blocked, w, rfl, hblocked⟩ := hv
  refine ⟨?_, ?_, ?_, ?_, ?_, ?_, ?_⟩
  · intro q
    by_cases hq : q = p
    · rw [hq, Function.update_self]
      exact h.fresh p
    · rw [Function.update_of_ne hq]
      exact h.fresh q
  · intro q
    by_cases hq : q = p
    · rw [hq, Function.update_self]
      exact h.size p
    · rw [Function.update_of_ne hq]
      exact h.size q
  · intro q
    by_cases hq : q = p
    · rw [hq, Function.update_self]
      exact h.empty p
    · rw [Function.update_of_ne hq]
      exact h.empty q
  · intro q
    by_cases hq : q = p
    · rw [hq, Function.update_self]
      exact h.alloc p
    · rw [Function.update_of_ne hq]
      exact h.alloc q
  · intro q
    rw [hparked q]
    by_cases hq : q = p
    · rw [hq, Function.update_self]
      intro _ _
      have hnot : ¬ Parked procs SYSCALL_RECEIVE p := by
        intro hpark
        have hidle := hpark.idle
        rw [hready] at hidle
        cases hidle
      simp only [hnot, false_or, true_and]
      exact hblocked
    · rw [Function.update_of_ne hq]
      simp only [hq, false_and, or_false]
      exact h.blocked q
  · intro q hpark
    rcases (hparked q).mp hpark with hq | ⟨rfl, hcall⟩
    · exact h.hungry q hq
    · exact hmail hcall
  · intro q
    by_cases hq : q = p
    · rw [hq, Function.update_self]
      exact fun _ _ _ _ _ => rfl
    · rw [Function.update_of_ne hq]
      exact h.waiting q

end

/-- What a suspension in the call of `p` leaves alone. -/
theorem live_asleep {v : Proc} (hv : Asleep S.procs p v) (hS : S'.procs = Function.update S.procs p v)
    (z : ℕ) : S'.Live z ↔ S.Live z := by
  obtain ⟨blocked, w, rfl, -⟩ := hv
  rw [Sched.Live, Sched.Live, hS]
  by_cases hz : z = p
  · rw [hz, Function.update_self]
  · rw [Function.update_of_ne hz]

theorem exists_asleep {v : Proc} (hv : Asleep S.procs p v) (hS : S'.procs = Function.update S.procs p v)
    (z : ℕ) : (S'.procs z).exists_ = (S.procs z).exists_ := by
  obtain ⟨blocked, w, rfl, -⟩ := hv
  rw [hS]
  by_cases hz : z = p
  · rw [hz, Function.update_self]
  · rw [Function.update_of_ne hz]

theorem boxes_asleep {v : Proc} (hv : Asleep S.procs p v) (hS : S'.procs = Function.update S.procs p v)
    (stale : ℕ → Bool) : boxes S'.procs stale = boxes S.procs stale := by
  obtain ⟨blocked, w, rfl, -⟩ := hv
  funext z
  rw [boxes, boxes, hS]
  by_cases hz : z = p
  · rw [hz, Function.update_self]
  · rw [Function.update_of_ne hz]

/-- **Going to sleep**, with the pipes as they will be. -/
theorem Serving.asleep {v : Proc} {B : ℕ → Option PipeBuffer} (h : Serving n C p o)
    (hv : Asleep o.sched.procs p v) (hS : S'.procs = Function.update o.sched.procs p v) (hG : Good S')
    (hmail : (o.sched.procs p).inSyscall = SYSCALL_RECEIVE → C.mail p = [])
    (htidy : Tidy n.std C (boxes o.sched.procs n.stale) (liveSlots o.sched) { o with pipes := B })
    (hwaits : Waits n { o with sched := S', pipes := B }) :
    Done n C p o (-ESUSPEND) { o with sched := S', pipes := B } := by
  have hlive := live_asleep hv hS
  have hp := h.live
  have hparked : ∀ q, Parked S'.procs SYSCALL_READ q →
      Parked o.sched.procs SYSCALL_READ q ∨ q = p ∧ (o.sched.procs p).inSyscall = SYSCALL_READ := by
    intro q hq
    rw [hS] at hq
    exact (parked_asleep hv hp.1 hp.2 h.ready).mp hq
  refine ⟨?_, ?_, kept_of_handles rfl⟩
  · rw [h.whole.after_eq hlive]
    unfold Whole
    show Sane n C none (liveSlots S') (boxes S'.procs n.stale) { o with sched := S', pipes := B }
    rw [liveSlots_congr hlive, boxes_asleep hv hS]
    refine ⟨⟨htidy.counted, htidy.paired, htidy.stored⟩, ⟨S', hG, rfl⟩, hwaits, ?_, ?_, ?_,
      h.whole.input⟩
    · show Entries n.serving S'.procs n.stale C.mail
      rw [hS]
      exact h.whole.entries.asleep hv hp.1 hp.2 h.ready hmail
    · intro q fd hq hlt
      rcases hparked q hq with hq | ⟨rfl, -⟩
      · exact h.whole.slots q fd hq hlt
      · exact h.whole.mem_slots.mpr ⟨hp, hlt⟩
    · intro q _ he
      cases he
  · rw [Settled, if_pos rfl]
    intro _ _ _
    show (S'.procs p).ready = false
    obtain ⟨blocked, w, rfl, -⟩ := hv
    rw [hS, Function.update_self]

/-- **Going to sleep** in a call other than `read`. -/
theorem Serving.dozes {v : Proc} (h : Serving n C p o) (hv : Asleep o.sched.procs p v)
    (hS : S'.procs = Function.update o.sched.procs p v) (hG : Good S')
    (hmail : (o.sched.procs p).inSyscall = SYSCALL_RECEIVE → C.mail p = [])
    (hcall : (o.sched.procs p).inSyscall ≠ SYSCALL_READ) :
    Quietly n C p o (-ESUSPEND) { o with sched := S' } := by
  have hp := h.live
  have hparked := fun q => parked_asleep (c := SYSCALL_READ) (q := q) hv hp.1 hp.2 h.ready
  refine ⟨C, silent_refl C (fun _ hb => hb) ?_, ?_⟩
  · intro z hz
    rw [← hz]
    exact exists_asleep hv hS z
  · refine h.asleep (B := o.pipes) hv hS hG hmail ?_ ⟨?_, ?_⟩
    · exact ⟨h.whole.tidy.counted, h.whole.tidy.paired, h.whole.tidy.stored⟩
    · intro b pb q hb hr
      obtain ⟨⟨hpark, hreads⟩, hlen, hw⟩ := h.whole.waits.reader b pb q hb hr
      refine ⟨⟨?_, hreads⟩, hlen, hw⟩
      show Parked S'.procs _ q
      rw [hS]
      exact (hparked q).mpr (Or.inl hpark)
    · intro q hq
      have hq' : Parked S'.procs SYSCALL_READ q := hq
      rw [hS] at hq'
      rcases (hparked q).mp hq' with hpark | ⟨-, hcall'⟩
      · exact h.whole.waits.parked q hpark
      · exact absurd hcall' hcall

end AdelaideOS.Kernel
