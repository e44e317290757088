import AdelaideOS.Process.Lists

/-!
# What each scheduler operation does

One lemma an operation: the conditions under which it succeeds and its effect on the table, the current
process and the two lists.  Everything later is derived from these; nothing later unfolds an operation.
-/

namespace AdelaideOS.Process

open AdelaideOS.Lib.Dlist

variable {S S' : Sched} {p q : ℕ}

/-! ### Projections -/

@[simp] theorem set_procs (S : Sched) (p : ℕ) (v : Proc) :
    (S.set p v).procs = Function.update S.procs p v := rfl
@[simp] theorem set_links (S : Sched) (p : ℕ) (v : Proc) : (S.set p v).links = S.links := rfl
@[simp] theorem set_ready (S : Sched) (p : ℕ) (v : Proc) : (S.set p v).ready = S.ready := rfl
@[simp] theorem set_suspended (S : Sched) (p : ℕ) (v : Proc) :
    (S.set p v).suspended = S.suspended := rfl
@[simp] theorem set_current (S : Sched) (p : ℕ) (v : Proc) : (S.set p v).current = S.current := rfl
@[simp] theorem addReady_procs (S : Sched) (p : ℕ) : (S.addReady p).procs = S.procs := rfl
@[simp] theorem addReady_current (S : Sched) (p : ℕ) : (S.addReady p).current = S.current := rfl
@[simp] theorem addSuspended_procs (S : Sched) (p : ℕ) : (S.addSuspended p).procs = S.procs := rfl
@[simp] theorem addSuspended_current (S : Sched) (p : ℕ) :
    (S.addSuspended p).current = S.current := rfl
@[simp] theorem removeReady_procs (S : Sched) (p : ℕ) : (S.removeReady p).procs = S.procs := rfl
@[simp] theorem removeReady_current (S : Sched) (p : ℕ) :
    (S.removeReady p).current = S.current := rfl
@[simp] theorem removeSuspended_procs (S : Sched) (p : ℕ) :
    (S.removeSuspended p).procs = S.procs := rfl
@[simp] theorem removeSuspended_current (S : Sched) (p : ℕ) :
    (S.removeSuspended p).current = S.current := rfl

/-! ### Finding and filling a slot -/

theorem getFreePid_spec (h : getFreePid S = some p) :
    1 ≤ p ∧ p < MAX_PROCESSES ∧ (S.procs p).exists_ = false := by
  have hp := List.find?_some h
  have hmem := List.mem_of_find?_eq_some h
  rw [List.mem_range'_1] at hmem
  refine ⟨hmem.1, by omega, by simpa using hp⟩

@[simp] theorem install_procs (S : Sched) (p : ℕ) (v : Proc) :
    (install S p v).procs = Function.update S.procs p { v with ready := true } := rfl
@[simp] theorem install_current (S : Sched) (p : ℕ) (v : Proc) :
    (install S p v).current = S.current := rfl

theorem install_layout {R U : List ℕ} {v : Proc} (h : Layout S.links S.ready S.suspended R U)
    (hR : p ∉ R) (hU : p ∉ U) :
    Layout (install S p v).links (install S p v).ready (install S p v).suspended (p :: R) U := by
  have hclear : clearLinks S p = S := by
    obtain ⟨hn, hp⟩ := h.off p hR hU
    unfold clearLinks
    rw [← hn, Function.update_eq_self, hn, ← hp, Function.update_eq_self]
  unfold install
  rw [hclear]
  exact h.add hR hU

/-! ### Suspending and resuming -/

/-- `suspend_process` on the table. -/
theorem suspendProcess_ok (h : suspendProcess S p = .ok S') :
    (S.procs p).exists_ = true ∧ (S.procs p).ready = true ∧
      S' = ((S.set p { S.procs p with ready := false }).removeReady p).addSuspended p := by
  simp only [suspendProcess, bind_eq_ok, assert_eq_ok, exists_const] at h
  obtain ⟨h₁, h₂, h₃⟩ := h
  exact ⟨h₁, h₂, (Except.ok.inj h₃).symm⟩

theorem resumeProcess_ok (h : resumeProcess S p = .ok S') :
    (S.procs p).exists_ = true ∧ (S.procs p).ready = false ∧
      S' = ((S.set p { S.procs p with ready := true }).removeSuspended p).addReady p := by
  simp only [resumeProcess, bind_eq_ok, assert_eq_ok, exists_const] at h
  obtain ⟨h₁, h₂, h₃⟩ := h
  exact ⟨h₁, h₂, (Except.ok.inj h₃).symm⟩

/-! ### Killing -/

@[simp] theorem detach_procs (S : Sched) (p : ℕ) : (detach S p).procs = S.procs := by
  unfold detach
  by_cases hc : S.current = some p <;> by_cases hr : (S.procs p).ready = true <;> simp [hc, hr]

@[simp] theorem detach_current (S : Sched) (p : ℕ) :
    (detach S p).current = if S.current = some p then none else S.current := by
  unfold detach
  by_cases hc : S.current = some p <;> by_cases hr : (S.procs p).ready = true <;> simp [hc, hr]

theorem detach_layout {R U : List ℕ} (h : Layout S.links S.ready S.suspended R U)
    (hR : (S.procs p).ready = false → p ∉ R) (hU : (S.procs p).ready = true → p ∉ U) :
    Layout (detach S p).links (detach S p).ready (detach S p).suspended
      (R.erase p) (U.erase p) := by
  have key : ∀ S₁ : Sched, S₁.links = S.links → S₁.ready = S.ready →
      S₁.suspended = S.suspended → S₁.procs = S.procs →
      let S₂ := if (S₁.procs p).ready then S₁.removeReady p else S₁.removeSuspended p
      Layout S₂.links S₂.ready S₂.suspended (R.erase p) (U.erase p) := by
    intro S₁ hl hr hs hp
    have h₁ : Layout S₁.links S₁.ready S₁.suspended R U := by
      rw [hl, hr, hs]
      exact h
    rw [hp]
    cases hready : (S.procs p).ready with
    | true =>
      rw [List.erase_of_not_mem (hU hready)]
      exact h₁.removeReady (hU hready)
    | false =>
      rw [List.erase_of_not_mem (hR hready)]
      exact h₁.removeSuspended (hR hready)
  unfold detach
  by_cases hc : S.current = some p
  · rw [if_pos hc]
    exact key _ rfl rfl rfl rfl
  · rw [if_neg hc]
    exact key _ rfl rfl rfl rfl

/-- The parent of `p` once its children, possibly itself, have been orphaned. -/
def survivingParent (S : Sched) (p : ℕ) : Option ℕ := ((orphan S (S.procs p).pid).procs p).parentPid

/-- The death of `p` wakes `q` up. -/
def Wakes (S : Sched) (p q : ℕ) : Prop :=
  survivingParent S p = some q ∧ (S.procs q).inSyscall = SYSCALL_WAITPID ∧
    (S.procs q).waitingOn = some (S.procs p).pid

instance (S : Sched) (p q : ℕ) : Decidable (Wakes S p q) := inferInstanceAs (Decidable (_ ∧ _))

/-- Only the parent can be woken up. -/
theorem Wakes.unique {q' : ℕ} (h : Wakes S p q) (h' : Wakes S p q') : q = q' :=
  Option.some.inj (h.1.symm.trans h'.1)

theorem not_wakes_of_survivingParent (h : survivingParent S p = none) (q : ℕ) : ¬ Wakes S p q := by
  intro hw
  rw [hw.1] at h
  cases h

/-- The entry of `q` after orphaning the children of process `pid`. -/
theorem orphan_proc (S : Sched) (pid q : ℕ) :
    (orphan S pid).procs q =
      { S.procs q with
        parentPid := if q < MAX_PROCESSES ∧ (S.procs q).parentPid = some pid then none
          else (S.procs q).parentPid } := by
  show (if _ then _ else _) = _
  split <;> rfl

theorem survivingParent_eq (S : Sched) (p : ℕ) :
    survivingParent S p =
      if p < MAX_PROCESSES ∧ (S.procs p).parentPid = some (S.procs p).pid then none
      else (S.procs p).parentPid := by
  rw [survivingParent, orphan_proc]

/-- The lists of two states are the same. -/
def SameLists (S S' : Sched) : Prop :=
  S'.links = S.links ∧ S'.ready = S.ready ∧ S'.suspended = S.suspended

/-- The entry of `q` once the death of `p` has been dealt with. -/
def mourned (S : Sched) (p q : ℕ) : Proc :=
  { S.procs q with
    exists_ := if q = p ∧ survivingParent S p = none then false else (S.procs q).exists_
    ready := if Wakes S p q then true else (S.procs q).ready
    waitingOn := if Wakes S p q then none else (S.procs q).waitingOn
    parentPid := if q < MAX_PROCESSES ∧ (S.procs q).parentPid = some (S.procs p).pid then none
      else (S.procs q).parentPid }

/-- The table after the death of `p`. -/
def buried (S : Sched) (p q : ℕ) : Proc :=
  { mourned S p q with exited := if q = p then true else (S.procs q).exited }

theorem orphan_mourned (hw : ¬ Wakes S p q) (hp : q = p → survivingParent S p ≠ none) :
    (orphan S (S.procs p).pid).procs q = mourned S p q := by
  have hx : ¬ (q = p ∧ survivingParent S p = none) := fun h => hp h.1 h.2
  simp only [orphan_proc, mourned, if_neg hw, if_neg hx]

/-- Waking up the parent of `p` gives the entries of `mourned`. -/
theorem wakeParent_ok {parent : ℕ} (hparent : survivingParent S p = some parent)
    (h : wakeParent (orphan S (S.procs p).pid) p parent = .ok S') :
    S'.procs = mourned S p ∧ S'.current = S.current ∧
      ((∀ q, ¬ Wakes S p q) ∧ SameLists S S' ∨
        ∃ q, Wakes S p q ∧ (S.procs q).exists_ = true ∧ (S.procs q).ready = false ∧
          SameLists ((S.removeSuspended q).addReady q) S') := by
  have hne : ∀ q, q = p → survivingParent S p ≠ none := by
    intro q _ hnone
    rw [hparent] at hnone
    cases hnone
  have hcond : (((orphan S (S.procs p).pid).procs parent).inSyscall = SYSCALL_WAITPID ∧
      ((orphan S (S.procs p).pid).procs parent).waitingOn =
        some ((orphan S (S.procs p).pid).procs p).pid) ↔ Wakes S p parent := by
    rw [orphan_proc, orphan_proc]
    exact ⟨fun hc => ⟨hparent, hc⟩, fun hw => hw.2⟩
  unfold wakeParent at h
  by_cases hwake : Wakes S p parent
  · rw [if_pos (hcond.mpr hwake)] at h
    obtain ⟨hex, hready, rfl⟩ := resumeProcess_ok h
    have hprocs : ∀ v, (orphan S (S.procs p).pid).procs parent = v →
        Function.update (Function.update (orphan S (S.procs p).pid).procs parent
          { v with waitingOn := none }) parent { v with waitingOn := none, ready := true } =
          mourned S p := by
      intro v hv
      funext q
      by_cases hq : q = parent
      · have hx : ¬ (parent = p ∧ survivingParent S p = none) := fun h => hne p rfl h.2
        rw [hq, Function.update_self, ← hv]
        simp only [orphan_proc, mourned, if_pos hwake, if_neg hx]
      · have hw : ¬ Wakes S p q := fun hw => hq (hw.unique hwake)
        rw [Function.update_of_ne hq, Function.update_of_ne hq, orphan_mourned hw (hne q)]
    refine ⟨?_, rfl, Or.inr ⟨parent, hwake, ?_, ?_, rfl, rfl, rfl⟩⟩
    · rw [← hprocs _ rfl]
      simp
    · simpa [orphan_proc] using hex
    · simpa [orphan_proc] using hready
  · rw [if_neg (fun hc => hwake (hcond.mp hc))] at h
    obtain rfl := Except.ok.inj h
    have hw : ∀ q, ¬ Wakes S p q := by
      intro q hq
      obtain rfl : parent = q := Option.some.inj (hparent.symm.trans hq.1)
      exact hwake hq
    refine ⟨?_, rfl, Or.inl ⟨hw, rfl, rfl, rfl⟩⟩
    funext q
    exact orphan_mourned (hw q) (hne q)

/-- **The end of `kill_process`.**  The table is `buried`; the lists change only when the parent is woken
up, and then the parent existed and was not ready. -/
theorem bury_ok (h : bury S p = .ok S') :
    S'.procs = buried S p ∧ S'.current = S.current ∧
      ((∀ q, ¬ Wakes S p q) ∧ SameLists S S' ∨
        ∃ q, Wakes S p q ∧ (S.procs q).exists_ = true ∧ (S.procs q).ready = false ∧
          SameLists ((S.removeSuspended q).addReady q) S') := by
  obtain ⟨S₁, h₁, h₂⟩ := bind_eq_ok.mp h
  obtain rfl := Except.ok.inj h₂
  have hexit : ∀ T : ℕ → Proc, T = mourned S p →
      Function.update T p { T p with exited := true } = buried S p := by
    intro T hT
    funext q
    by_cases hq : q = p
    · rw [hq, Function.update_self, hT, buried, if_pos rfl]
    · rw [Function.update_of_ne hq, hT, buried, if_neg hq]
      rfl
  cases hparent : survivingParent S p with
  | none =>
    have hnone : ((orphan S (S.procs p).pid).procs p).parentPid = none := hparent
    have hw := not_wakes_of_survivingParent hparent
    rw [release, hnone] at h₁
    obtain rfl := Except.ok.inj h₁
    refine ⟨hexit _ ?_, rfl, Or.inl ⟨hw, rfl, rfl, rfl⟩⟩
    funext q
    by_cases hq : q = p
    · rw [set_procs, hq, Function.update_self]
      simp [orphan_proc, mourned, hw p, hparent]
    · rw [set_procs, Function.update_of_ne hq]
      exact orphan_mourned (hw q) (fun h => absurd h hq)
  | some parent =>
    have hsome : ((orphan S (S.procs p).pid).procs p).parentPid = some parent := hparent
    rw [release, hsome] at h₁
    obtain ⟨hprocs, hcur, hlists⟩ := wakeParent_ok hparent h₁
    exact ⟨hexit _ hprocs, hcur, hlists⟩

@[simp] theorem wakes_detach (S : Sched) (p q : ℕ) : Wakes (detach S p) p q ↔ Wakes S p q := by
  simp [Wakes, survivingParent_eq]

@[simp] theorem buried_detach (S : Sched) (p : ℕ) : buried (detach S p) p = buried S p := by
  funext q
  simp [buried, mourned, survivingParent_eq]

/-- `kill_process` on the table and the current process. -/
theorem killProcess_ok (h : killProcess S p = .ok S') :
    S'.procs = buried S p ∧ S'.current = if S.current = some p then none else S.current := by
  obtain ⟨h₁, h₂, -⟩ := bury_ok h
  rw [h₁, h₂, detach_current, buried_detach]
  exact ⟨rfl, rfl⟩

/-! ### Handlers -/

variable {res : ℤ} {status : Option ℤ}

theorem plain_eq_ok {x : Except Fault (ℤ × Sched)} (h : plain x = .ok (res, status, S')) :
    x = .ok (res, S') ∧ status = none := by
  obtain ⟨⟨res', S₁⟩, h₁, h₂⟩ := bind_eq_ok.mp h
  cases h₂
  exact ⟨h₁, rfl⟩

/-- `fork` finds no slot, or fills one. -/
theorem syscallFork_ok {r : Regs} (h : syscallFork S p r = .ok (res, S')) :
    (getFreePid S = none ∧ res = -EAGAIN ∧ S' = S) ∨
      ∃ child, getFreePid S = some child ∧ res = child ∧
        S' = install S child (forkedProc S p child r) := by
  unfold syscallFork at h
  split at h
  · rename_i hfree
    cases h
    exact Or.inl ⟨hfree, rfl, rfl⟩
  · rename_i child hfree
    cases h
    exact Or.inr ⟨child, hfree, rfl, rfl⟩

theorem startProcess_some {addr : ℕ} (h : startProcess S addr = some (p, S')) :
    getFreePid S = some p ∧ S' = install S p (startedProc p addr) := by
  unfold startProcess at h
  split at h
  · cases h
  · rename_i pid hfree
    cases h
    exact ⟨hfree, rfl⟩

theorem syscallExit_ok {value : ℤ} (h : syscallExit S p value = .ok (res, S')) :
    res = -ESUSPEND ∧ killProcess (S.set p { S.procs p with exitStatus := value }) p = .ok S' := by
  obtain ⟨S₁, h₁, h₂⟩ := bind_eq_ok.mp h
  obtain ⟨rfl, rfl⟩ := Prod.mk.inj (Except.ok.inj h₂)
  exact ⟨rfl, h₁⟩

/-- `kill` either finds no process or kills an existing one. -/
theorem syscallKill_ok {pid : ℤ} (h : syscallKill S p pid = .ok (res, S')) :
    (res = -ESRCH ∧ S' = S) ∨
      ∃ t : ℕ, pid = t ∧ t < MAX_PROCESSES ∧ (S.procs t).exists_ = true ∧
        res = (if t = (S.procs p).pid then -ESUSPEND else 0) ∧ killProcess S t = .ok S' := by
  unfold syscallKill at h
  split at h
  · obtain ⟨rfl, rfl⟩ := Prod.mk.inj (Except.ok.inj h)
    exact Or.inl ⟨rfl, rfl⟩
  · rename_i hpid
    simp only [gt_iff_lt, not_or, not_lt, not_le, Bool.not_eq_false] at hpid
    obtain ⟨hpos, hlt, hex⟩ := hpid
    obtain ⟨t, rfl⟩ := Int.eq_ofNat_of_zero_le hpos
    obtain ⟨S₁, h₁, h₂⟩ := bind_eq_ok.mp h
    obtain ⟨rfl, rfl⟩ := Prod.mk.inj (Except.ok.inj h₂)
    refine Or.inr ⟨t, rfl, by omega, hex, ?_, h₁⟩
    simp

theorem waitFor_proc (S : Sched) (p : ℕ) (w : Option ℕ) (q : ℕ) :
    (waitFor S p w).procs q =
      { S.procs q with waitingOn := if q = p then w else (S.procs q).waitingOn } := by
  by_cases hq : q = p <;> simp [waitFor, hq]

@[simp] theorem waitFor_waitFor (S : Sched) (p : ℕ) (w w' : Option ℕ) :
    waitFor (waitFor S p w) p w' = waitFor S p w' := by
  simp [waitFor, Sched.set]

theorem reap_proc (S : Sched) (c q : ℕ) :
    (reap S c).procs q =
      { S.procs q with exists_ := if q = c then false else (S.procs q).exists_ } := by
  by_cases hq : q = c <;> simp [reap, hq]

/-- The process that `waitpid` asks for exists and is a child of the caller. -/
def IsChild (S : Sched) (p c : ℕ) : Prop :=
  c < MAX_PROCESSES ∧ (S.procs c).exists_ = true ∧ (S.procs c).parentPid = some (S.procs p).pid

/-- `waitpid` fails, reaps an exited child, or suspends the caller. -/
theorem syscallWaitpid_ok {pid : ℤ} (h : syscallWaitpid S p pid = .ok (res, status, S')) :
    (res = -ECHILD ∧ status = none ∧ (S' = S ∨ S' = waitFor S p none)) ∨
      (∃ c : ℕ, pid = c ∧ IsChild S p c ∧ (S.procs c).exited = true ∧ res = c ∧
        status = some (S.procs c).exitStatus ∧ S' = reap (waitFor S p none) c) ∨
      (∃ c : ℕ, pid = c ∧ IsChild S p c ∧ (S.procs c).exited = false ∧ res = -ESUSPEND ∧
        status = none ∧ suspendProcess (waitFor S p (some c)) p = .ok S') := by
  unfold syscallWaitpid at h
  split at h
  · cases h
    exact Or.inl ⟨rfl, rfl, Or.inl rfl⟩
  · rename_i hpid
    simp only [gt_iff_lt, not_or, not_lt, not_le] at hpid
    obtain ⟨c, rfl⟩ := Int.eq_ofNat_of_zero_le hpid.1
    simp only [waitFor_proc, Int.toNat_natCast, ne_eq, waitFor_waitFor] at h
    split at h
    · cases h
      exact Or.inl ⟨rfl, rfl, Or.inr rfl⟩
    · rename_i hchild
      simp only [not_or, Bool.not_eq_false, not_not] at hchild
      have hc : IsChild S p c := ⟨by omega, hchild⟩
      right
      split at h
      · rename_i hexit
        cases h
        exact Or.inl ⟨c, rfl, hc, hexit, rfl, rfl, rfl⟩
      · rename_i hexit
        obtain ⟨S₁, h₁, h₂⟩ := bind_eq_ok.mp h
        cases h₂
        exact Or.inr ⟨c, rfl, hc, by simpa using hexit, rfl, rfl, h₁⟩

/-- The entry `w` differs from `v` at most in what `syscall` and `context_switch` themselves write and in
the mailbox. -/
structure SameLife (v w : Proc) : Prop where
  pid : w.pid = v.pid
  exists_ : w.exists_ = v.exists_
  ready : w.ready = v.ready
  parentPid : w.parentPid = v.parentPid
  exitStatus : w.exitStatus = v.exitStatus
  exited : w.exited = v.exited
  waitingOn : w.waitingOn = v.waitingOn
  receiveBlocked : w.receiveBlocked = v.receiveBlocked

theorem SameLife.refl (v : Proc) : SameLife v v := ⟨rfl, rfl, rfl, rfl, rfl, rfl, rfl, rfl⟩

theorem SameLife.trans {u v w : Proc} (h : SameLife u v) (h' : SameLife v w) : SameLife u w :=
  ⟨h'.pid.trans h.pid, h'.exists_.trans h.exists_, h'.ready.trans h.ready,
    h'.parentPid.trans h.parentPid, h'.exitStatus.trans h.exitStatus, h'.exited.trans h.exited,
    h'.waitingOn.trans h.waitingOn, h'.receiveBlocked.trans h.receiveBlocked⟩

theorem sameLife_accept (v : Proc) (box : ℕ) : SameLife v (accept v box) := by
  unfold accept
  split <;> exact ⟨rfl, rfl, rfl, rfl, rfl, rfl, rfl, rfl⟩

/-- A `send` that passes all of its checks: the pointer is valid, the receiver exists, and the message
fits into the mailbox. -/
def Accepted (S : Sched) (valid : Bool) (dest : ℤ) (size : ℕ) : Prop :=
  valid = true ∧ 0 ≤ dest ∧ dest < MAX_PROCESSES ∧ (S.procs dest.toNat).exists_ = true ∧
    size ≤ MAX_MESSAGE_SIZE ∧
    ((S.procs dest.toNat).mailbox = none ∨
      (S.procs dest.toNat).mailboxSize < (S.procs dest.toNat).mailboxAlloc)

/-- `send` is accepted or changes nothing. -/
theorem syscallSend_ok {valid : Bool} {box size : ℕ} {dest : ℤ}
    (h : syscallSend S valid box dest size = .ok (res, S')) :
    S' = S ∨
      Accepted S valid dest size ∧ ∃ d : ℕ, dest = d ∧
        (((S.procs d).receiveBlocked = false ∧ S' = S.set d (accept (S.procs d) box)) ∨
          ((S.procs d).receiveBlocked = true ∧
            ∃ S₁, resumeProcess (S.set d (accept (S.procs d) box)) d = .ok S₁ ∧
              S' = S₁.set d { S₁.procs d with receiveBlocked := false })) := by
  unfold syscallSend at h
  split at h
  · cases h
    exact Or.inl rfl
  rename_i hvalid
  split at h
  · cases h
    exact Or.inl rfl
  rename_i hdest
  split at h
  · cases h
    exact Or.inl rfl
  rename_i hsize
  simp only [gt_iff_lt, not_or, not_lt, not_le, Bool.not_eq_false] at hdest hsize hvalid
  obtain ⟨hpos, hlt, hex⟩ := hdest
  obtain ⟨d, rfl⟩ := Int.eq_ofNat_of_zero_le hpos
  simp only [Int.toNat_natCast, set_procs, Function.update_self,
    (sameLife_accept _ box).receiveBlocked] at h
  split at h
  · cases h
    exact Or.inl rfl
  rename_i hroom
  rw [not_and_or, not_not, not_le] at hroom
  refine Or.inr ⟨⟨hvalid, hpos, hlt, hex, hsize, hroom⟩, d, rfl, ?_⟩
  split at h
  · rename_i hblocked
    obtain ⟨S₁, h₁, h₂⟩ := bind_eq_ok.mp h
    cases h₂
    exact Or.inr ⟨hblocked, S₁, h₁, rfl⟩
  · rename_i hblocked
    cases h
    exact Or.inl ⟨by simpa using hblocked, rfl⟩

/-- `receive` takes a message, suspends the caller, or changes nothing. -/
theorem syscallReceive_ok {valid block : Bool} (h : syscallReceive S p valid block = .ok (res, S')) :
    S' = S ∨
      S' = S.set p { S.procs p with mailboxSize := (S.procs p).mailboxSize - 1 } ∨
      (res = -ESUSPEND ∧
        suspendProcess (S.set p { S.procs p with receiveBlocked := true }) p = .ok S') := by
  unfold syscallReceive at h
  split at h
  · cases h
    exact Or.inl rfl
  split at h
  · cases h
    exact Or.inr (Or.inl rfl)
  split at h
  · obtain ⟨S₁, h₁, h₂⟩ := bind_eq_ok.mp h
    cases h₂
    exact Or.inr (Or.inr ⟨rfl, h₁⟩)
  · cases h
    exact Or.inl rfl

/-! ### Entering, switching and leaving -/

theorem enter_proc (S : Sched) (p no q : ℕ) :
    (enter S p no).procs q =
      { S.procs q with inSyscall := if q = p then no else (S.procs q).inSyscall } := by
  by_cases hq : q = p <;> simp [enter, hq]

/-- All entries of two tables agree up to registers, error number and mailbox. -/
def SameTable (S S' : Sched) : Prop :=
  ∀ q, SameLife (S.procs q) (S'.procs q) ∧ (S'.procs q).inSyscall = (S.procs q).inSyscall

theorem sameTable_set {v : Proc} (hv : SameLife (S.procs p) v)
    (hcall : v.inSyscall = (S.procs p).inSyscall) : SameTable S (S.set p v) := by
  intro q
  by_cases hq : q = p
  · rw [hq, set_procs, Function.update_self]
    exact ⟨hv, hcall⟩
  · rw [set_procs, Function.update_of_ne hq]
    exact ⟨SameLife.refl _, rfl⟩

theorem sameTable_refl (S : Sched) : SameTable S S := fun _ => ⟨SameLife.refl _, rfl⟩

theorem saveRegs_spec (S : Sched) (r : Regs) :
    SameTable S (saveRegs S r) ∧ SameLists S (saveRegs S r) ∧
      (saveRegs S r).current = S.current := by
  unfold saveRegs
  cases hcur : S.current with
  | none => exact ⟨sameTable_refl S, ⟨rfl, rfl, rfl⟩, hcur⟩
  | some p =>
    exact ⟨sameTable_set ⟨rfl, rfl, rfl, rfl, rfl, rfl, rfl, rfl⟩ rfl, ⟨rfl, rfl, rfl⟩, hcur⟩

/-- The choice depends on the lists, the current process and the `ready` flags only. -/
theorem pickNext_congr (hproc : ∀ q, (S'.procs q).ready = (S.procs q).ready)
    (hlists : SameLists S S') (hcur : S'.current = S.current) : pickNext S' = pickNext S := by
  obtain ⟨hl, hr, -⟩ := hlists
  unfold pickNext
  rw [hcur, hl, hr]
  cases S.current with
  | none => rfl
  | some p => simp only [hproc]

/-- `context_switch` changes saved registers and the current process only. -/
theorem contextSwitch_spec (S : Sched) (r : Regs) :
    SameTable S (contextSwitch S r) ∧ SameLists S (contextSwitch S r) ∧
      (contextSwitch S r).current = pickNext S := by
  obtain ⟨htable, hlists, hcur⟩ := saveRegs_spec S r
  exact ⟨htable, hlists, pickNext_congr (fun q => (htable q).1.ready) hlists hcur⟩

theorem storeErrno_spec (S : Sched) (no : ℕ) (res : ℤ) :
    SameTable S (storeErrno S no res).2 ∧ SameLists S (storeErrno S no res).2 ∧
      (storeErrno S no res).2.current = S.current ∧
      ((storeErrno S no res).1 = -ESUSPEND ↔ res = -ESUSPEND) := by
  have hset : ∀ p e, SameTable S (S.set p { S.procs p with lastErrno := e }) := fun p e =>
    sameTable_set ⟨rfl, rfl, rfl, rfl, rfl, rfl, rfl, rfl⟩ rfl
  unfold storeErrno
  split
  · rename_i hres
    cases hcur : S.current with
    | none => exact ⟨sameTable_refl S, ⟨rfl, rfl, rfl⟩, hcur, Iff.rfl⟩
    | some p =>
      by_cases hneg : res < 0
      · simp only [if_pos hneg]
        exact ⟨hset p _, ⟨rfl, rfl, rfl⟩, hcur, by simp [hres.2]⟩
      · simp only [if_neg hneg]
        exact ⟨hset p _, ⟨rfl, rfl, rfl⟩, hcur, by simp⟩
  · exact ⟨sameTable_refl S, ⟨rfl, rfl, rfl⟩, rfl, Iff.rfl⟩

/-- **The end of `syscall`.**  A call that suspends, or that removes its caller, switches; any other call
stays.  `in_syscall` is cleared unless the call suspends. -/
theorem leave_spec (S : Sched) (old no : ℕ) (r : Regs) (res : ℤ) :
    (∀ q, SameLife (S.procs q) ((leave S old no r res).procs q) ∧
        ((leave S old no r res).procs q).inSyscall =
          (if q = old ∧ res ≠ -ESUSPEND then 0 else (S.procs q).inSyscall)) ∧
      SameLists S (leave S old no r res) ∧
      (leave S old no r res).current =
        if res = -ESUSPEND ∨ S.current ≠ some old then pickNext S else S.current := by
  obtain ⟨ht, hl, hc, hres⟩ := storeErrno_spec S no res
  unfold leave
  generalize hst : storeErrno S no res = st at ht hl hc hres
  obtain ⟨res', S₁⟩ := st
  simp only at ht hl hc hres
  by_cases hsus : res = -ESUSPEND
  · obtain ⟨ht₂, hl₂, hc₂⟩ := contextSwitch_spec S₁ r
    simp only [hres.mpr hsus, if_true]
    refine ⟨fun q => ?_, ?_, ?_⟩
    · refine ⟨(ht q).1.trans (ht₂ q).1, ?_⟩
      rw [(ht₂ q).2, (ht q).2]
      simp [hsus]
    · exact ⟨hl₂.1.trans hl.1, hl₂.2.1.trans hl.2.1, hl₂.2.2.trans hl.2.2⟩
    · rw [hc₂, pickNext_congr (fun q => (ht q).1.ready) hl hc]
      simp [hsus]
  · have hres' : ¬ res' = -ESUSPEND := fun h => hsus (hres.mp h)
    have hS₂ : ∀ q, SameLife (S.procs q)
        ((S₁.set old { S₁.procs old with inSyscall := 0 }).procs q) ∧
        ((S₁.set old { S₁.procs old with inSyscall := 0 }).procs q).inSyscall =
          (if q = old ∧ res ≠ -ESUSPEND then 0 else (S.procs q).inSyscall) := by
      intro q
      by_cases hq : q = old
      · rw [hq, set_procs, Function.update_self]
        refine ⟨(ht old).1.trans ⟨rfl, rfl, rfl, rfl, rfl, rfl, rfl, rfl⟩, ?_⟩
        simp [hsus]
      · rw [set_procs, Function.update_of_ne hq, (ht q).2]
        exact ⟨(ht q).1, by simp [hq]⟩
    simp only [if_neg hres', set_current, hc]
    by_cases hstay : S.current = some old
    · rw [if_pos hstay]
      refine ⟨hS₂, hl, ?_⟩
      rw [set_current, hc, if_neg (by simp [hsus, hstay])]
    · rw [if_neg hstay]
      obtain ⟨ht₃, hl₃, hc₃⟩ := contextSwitch_spec (S₁.set old { S₁.procs old with inSyscall := 0 })
        { r with eax := (res' % 4294967296).toNat }
      refine ⟨fun q => ?_, ?_, ?_⟩
      · refine ⟨(hS₂ q).1.trans (ht₃ q).1, ?_⟩
        rw [(ht₃ q).2, (hS₂ q).2]
      · exact ⟨hl₃.1.trans hl.1, hl₃.2.1.trans hl.2.1, hl₃.2.2.trans hl.2.2⟩
      · rw [hc₃, pickNext_congr (fun q => (hS₂ q).1.ready) hl hc, if_pos (Or.inr hstay)]

/-- `syscall` is dispatch between entering and leaving. -/
theorem syscall_ok {r : Regs} {c : Call} (h : syscall S r c = .ok (res, status, S')) :
    ∃ old S₁, S.current = some old ∧
      dispatch (enter S old c.no) old r c = .ok (res, status, S₁) ∧
      S' = leave S₁ old c.no r res := by
  unfold syscall at h
  split at h
  · cases h
  · rename_i old hold
    obtain ⟨⟨res₁, status₁, S₁⟩, h₁, h₂⟩ := bind_eq_ok.mp h
    cases h₂
    exact ⟨old, S₁, hold, h₁, rfl⟩

/-! ### Entries across the end of a call -/

theorem contextSwitch_proc (S : Sched) (r : Regs) (q : ℕ) :
    ∃ regs, (contextSwitch S r).procs q = { S.procs q with savedRegs := regs } := by
  show ∃ regs, (saveRegs S r).procs q = _
  unfold saveRegs
  cases S.current with
  | none => exact ⟨_, rfl⟩
  | some p =>
    by_cases hq : q = p
    · rw [set_procs, hq, Function.update_self]
      exact ⟨r, rfl⟩
    · rw [set_procs, Function.update_of_ne hq]
      exact ⟨_, rfl⟩

theorem storeErrno_proc (S : Sched) (no : ℕ) (res : ℤ) (q : ℕ) :
    ∃ e, (storeErrno S no res).2.procs q = { S.procs q with lastErrno := e } := by
  have hset : ∀ p e, ∃ e', (S.set p { S.procs p with lastErrno := e }).procs q =
      { S.procs q with lastErrno := e' } := by
    intro p e
    by_cases hq : q = p
    · rw [set_procs, hq, Function.update_self]
      exact ⟨e, rfl⟩
    · rw [set_procs, Function.update_of_ne hq]
      exact ⟨_, rfl⟩
  unfold storeErrno
  split
  · split
    · split
      · exact hset _ _
      · exact hset _ _
    · exact ⟨_, rfl⟩
  · exact ⟨_, rfl⟩

/-- Apart from the call number, `leave` assigns registers and an error number. -/
theorem leave_proc (S : Sched) (old no : ℕ) (r : Regs) (res : ℤ) (q : ℕ) :
    ∃ regs e, (leave S old no r res).procs q =
      { S.procs q with
        savedRegs := regs
        lastErrno := e
        inSyscall := if q = old ∧ res ≠ -ESUSPEND then 0 else (S.procs q).inSyscall } := by
  obtain ⟨e, he⟩ := storeErrno_proc S no res q
  have hsus := (storeErrno_spec S no res).2.2.2
  unfold leave
  simp only
  split
  · rename_i hres
    obtain ⟨regs, hregs⟩ := contextSwitch_proc (storeErrno S no res).2 r q
    refine ⟨regs, e, ?_⟩
    rw [hregs, he, if_neg fun h => h.2 (hsus.mp hres)]
  · rename_i hres
    have hres' : res ≠ -ESUSPEND := fun h => hres (hsus.mpr h)
    have hcall : ∀ S₁ : Sched, S₁ = (storeErrno S no res).2 →
        (S₁.set old { S₁.procs old with inSyscall := 0 }).procs q =
          { S.procs q with
            lastErrno := e
            inSyscall := if q = old ∧ res ≠ -ESUSPEND then 0 else (S.procs q).inSyscall } := by
      rintro S₁ rfl
      by_cases hq : q = old
      · rw [set_procs, ← hq, Function.update_self, he, if_pos ⟨rfl, hres'⟩]
      · rw [set_procs, Function.update_of_ne hq, he, if_neg fun h => hq h.1]
    split
    · exact ⟨_, e, hcall _ rfl⟩
    · obtain ⟨regs, hregs⟩ := contextSwitch_proc _ _ q
      exact ⟨regs, e, by rw [hregs, hcall _ rfl]⟩

end AdelaideOS.Process
