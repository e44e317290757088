import AdelaideOS.Process.Runs

/-!
# The exit-status protocol

A dying child wakes its parent up from `waitpid`, and the parent then executes `waitpid` again to fetch the
status.  The two halves run at different times, with deaths, re-parenting and reuse of slots in between, so
the protocol is stated about whole runs: `Run H S` is a run that ends in state `S` and whose observable
history is `H`, latest event first.

The functions of a history look at the time since a slot was last filled: who filled it (`creator`), what
its process passed to `exit` (`passed`), whether it was reaped (`Reaped`) and whether a given process died
(`Died`).

* **`Waiting`** — a suspended process waits for a living child;
* **`Ledger`** — the process table agrees with the history;
* **`exit_status_protocol`** — no lost wake-up, the right status, at most one reaping, no early reuse.
-/

namespace AdelaideOS.Process

/-- What is recorded of an event. -/
inductive Obs where
  | started (c : ℕ)
  | forked (p c : ℕ)
  | exited (p : ℕ) (status : ℤ)
  | killed (p : ℕ)
  | reaped (p c : ℕ) (status : ℤ)

/-- What is recorded of a call of process `p` that returned `res` and passed `status` back. -/
def observe (p : ℕ) (res : ℤ) (status : Option ℤ) : Call → List Obs
  | .fork => if res < 0 then [] else [.forked p res.toNat]
  | .exit value => [.exited p value]
  | .kill pid => if res = -ESRCH then [] else [.killed pid.toNat]
  | .waitpid pid => (status.map fun s => Obs.reaped p pid.toNat s).toList
  | .send _ _ _ _ => []
  | .receive _ _ => []

/-- Runs of `fork`, `exit`, `kill`, `waitpid` and context switches, with their histories. -/
inductive Run : List Obs → Sched → Prop where
  | boot : Run [] Sched.boot
  | start {H : List Obs} {S S' : Sched} (startAddress pid : ℕ) :
      Run H S → startProcess S startAddress = some (pid, S') → Run (.started pid :: H) S'
  | call {H : List Obs} {S S' : Sched} (p : ℕ) (r : Regs) (c : Call) (res : ℤ) (status : Option ℤ) :
      Run H S → S.current = some p → c.Lifecycle → syscall S r c = .ok (res, status, S') →
      Run (observe p res status c ++ H) S'
  | switch {H : List Obs} {S : Sched} (r : Regs) : Run H S → Run H (contextSwitch S r)
  | kill {H : List Obs} {S S' : Sched} (p : ℕ) :
      Run H S → (S.procs p).exists_ = true → killProcess S p = .ok S' → Run (.killed p :: H) S'

/-! ### Reading a history -/

/-- The process whose `fork` last filled slot `c`; `none` if it was started by the kernel. -/
def creator (c : ℕ) : List Obs → Option ℕ
  | [] => none
  | .started d :: H => if d = c then none else creator c H
  | .forked p d :: H => if d = c then some p else creator c H
  | .exited _ _ :: H => creator c H
  | .killed _ :: H => creator c H
  | .reaped _ _ _ :: H => creator c H

/-- The status that the process in slot `c` passed to `exit`, or its initial status. -/
def passed (c : ℕ) : List Obs → ℤ
  | [] => 0
  | .started d :: H => if d = c then 255 else passed c H
  | .forked _ d :: H => if d = c then 0 else passed c H
  | .exited d status :: H => if d = c then status else passed c H
  | .killed _ :: H => passed c H
  | .reaped _ _ _ :: H => passed c H

/-- The process in slot `c` has been reaped. -/
def Reaped (c : ℕ) : List Obs → Prop
  | [] => False
  | .started d :: H => d ≠ c ∧ Reaped c H
  | .forked _ d :: H => d ≠ c ∧ Reaped c H
  | .exited _ _ :: H => Reaped c H
  | .killed _ :: H => Reaped c H
  | .reaped _ d _ :: H => d = c ∨ Reaped c H

/-- Process `q` has exited or been killed since slot `c` was last filled. -/
def Died (q c : ℕ) : List Obs → Prop
  | [] => False
  | .started d :: H => d ≠ c ∧ Died q c H
  | .forked _ d :: H => d ≠ c ∧ Died q c H
  | .exited d _ :: H => d = q ∨ Died q c H
  | .killed d :: H => d = q ∨ Died q c H
  | .reaped _ _ _ :: H => Died q c H

/-- The record of a death of `p`. -/
def IsDeath (p : ℕ) (o : Obs) : Prop := o = .killed p ∨ ∃ status, o = .exited p status

/-- The record of the creation of `p` by `parent`, with its initial status. -/
def IsBirth (p : ℕ) (parent : Option ℕ) (status : ℤ) (o : Obs) : Prop :=
  (o = .started p ∧ parent = none ∧ status = 255) ∨
    ∃ q, o = .forked q p ∧ parent = some q ∧ status = 0

section Histories

variable {p c q : ℕ} {o : Obs} {H : List Obs} {parent : Option ℕ} {status : ℤ}

theorem IsDeath.creator (h : IsDeath p o) : creator c (o :: H) = Process.creator c H := by
  rcases h with rfl | ⟨status, rfl⟩ <;> rfl

theorem IsDeath.reaped (h : IsDeath p o) : Reaped c (o :: H) ↔ Reaped c H := by
  rcases h with rfl | ⟨status, rfl⟩ <;> rfl

theorem IsDeath.died (h : IsDeath p o) : Died q c (o :: H) ↔ p = q ∨ Died q c H := by
  rcases h with rfl | ⟨status, rfl⟩ <;> rfl

theorem IsBirth.creator (h : IsBirth p parent status o) :
    creator c (o :: H) = if p = c then parent else Process.creator c H := by
  rcases h with ⟨rfl, rfl, -⟩ | ⟨q, rfl, rfl, -⟩ <;> rfl

theorem IsBirth.passed (h : IsBirth p parent status o) :
    passed c (o :: H) = if p = c then status else Process.passed c H := by
  rcases h with ⟨rfl, -, rfl⟩ | ⟨q, rfl, -, rfl⟩ <;> rfl

theorem IsBirth.reaped (h : IsBirth p parent status o) :
    Reaped c (o :: H) ↔ p ≠ c ∧ Reaped c H := by
  rcases h with ⟨rfl, -, -⟩ | ⟨q, rfl, -, -⟩ <;> rfl

theorem IsBirth.died (h : IsBirth p parent status o) :
    Died q c (o :: H) ↔ p ≠ c ∧ Died q c H := by
  rcases h with ⟨rfl, -, -⟩ | ⟨q, rfl, -, -⟩ <;> rfl

end Histories

/-! ### The invariants -/

/-- A living process that is suspended waits inside `waitpid` for a living child. -/
def Waiting (S : Sched) : Prop :=
  ∀ p, S.Live p → (S.procs p).ready = false →
    (S.procs p).inSyscall = SYSCALL_WAITPID ∧
      ∃ c, (S.procs p).waitingOn = some c ∧ S.Live c ∧ (S.procs c).parentPid = some p

/-- Existence and parents agree with the history. -/
structure Kinship (S : Sched) (H : List Obs) : Prop where
  unreaped : ∀ c, (S.procs c).exists_ = true → ¬ Reaped c H
  parent : ∀ c, (S.procs c).exists_ = true → ∀ q, creator c H = some q →
    (S.procs c).parentPid = some q ∨ Died q c H
  creator_eq : ∀ c, (S.procs c).exists_ = true → ∀ q, (S.procs c).parentPid = some q →
    creator c H = some q
  free : ∀ c, (S.procs c).exists_ = false → ∀ q, creator c H = some q →
    Reaped c H ∨ Died q c H

/-- The process table agrees with the history. -/
structure Ledger (S : Sched) (H : List Obs) : Prop extends Kinship S H where
  status : ∀ c, (S.procs c).exists_ = true → (S.procs c).exitStatus = passed c H

/-- Every reaping in the history returned the right status, was made by the creator and was the first. -/
def Honest : List Obs → Prop
  | [] => True
  | .reaped p c status :: H =>
    (status = passed c H ∧ creator c H = some p ∧ ¬ Reaped c H) ∧ Honest H
  | _ :: H => Honest H

variable {S S' : Sched} {H : List Obs} {p q : ℕ}

/-! ### Deaths -/

theorem Waiting.kill (h : Waiting S) (hG : Good S) (hp : (S.procs p).exists_ = true)
    (hok : killProcess S p = .ok S') : Waiting S' := by
  obtain ⟨R, U, hI⟩ := hG
  have hprocs := (killProcess_ok hok).1
  have hpid := hI.pid_eq p hp
  intro P hlive hready
  rw [live_of_buried hprocs] at hlive
  rw [hprocs] at hready ⊢
  simp only [buried, mourned] at hready ⊢
  by_cases hw : Wakes S p P
  · rw [if_pos hw] at hready
    cases hready
  · rw [if_neg hw] at hready ⊢
    obtain ⟨hcall, c, hwait, hc, hparent⟩ := h P hlive.1 hready
    have hne : (S.procs c).parentPid ≠ some (S.procs p).pid := by
      rw [hparent, hpid]
      exact fun heq => hlive.2 (Option.some.inj heq)
    refine ⟨hcall, c, hwait, ?_, ?_⟩
    · rw [live_of_buried hprocs]
      refine ⟨hc, ?_⟩
      -- otherwise the death of `p` would have woken `P` up
      intro hcp
      apply hw
      rw [hcp] at hparent hwait hne
      refine ⟨?_, hcall, by rw [hwait, hpid]⟩
      rw [survivingParent_eq, if_neg (fun h => hne h.2), hparent]
    · rw [if_neg (fun h => hne h.2), hparent]

theorem Kinship.kill {o : Obs} (h : Kinship S H) (hG : Good S) (hp : (S.procs p).exists_ = true)
    (ho : IsDeath p o) (hok : killProcess S p = .ok S')
    (hstatus : ∀ c, (S.procs c).exists_ = true → passed c (o :: H) = (S.procs c).exitStatus) :
    Ledger S' (o :: H) := by
  obtain ⟨R, U, hI⟩ := hG
  have hprocs := (killProcess_ok hok).1
  have hpid := hI.pid_eq p hp
  have hex : ∀ c, (S'.procs c).exists_ = true → (S.procs c).exists_ = true := by
    intro c hc
    rw [hprocs] at hc
    simp only [buried, mourned] at hc
    split at hc
    · cases hc
    · exact hc
  refine ⟨⟨?_, ?_, ?_, ?_⟩, ?_⟩
  · intro c hc
    rw [ho.reaped]
    exact h.unreaped c (hex c hc)
  · intro c hc q hq
    rw [ho.creator] at hq
    rw [ho.died, hprocs]
    simp only [buried, mourned]
    rcases h.parent c (hex c hc) q hq with hpar | hdied
    · by_cases hqp : p = q
      · exact Or.inr (Or.inl hqp)
      · left
        rw [if_neg, hpar]
        rw [hpar, hpid]
        exact fun heq => hqp (Option.some.inj heq.2).symm
    · exact Or.inr (Or.inr hdied)
  · intro c hc q hq
    rw [ho.creator]
    rw [hprocs] at hq
    simp only [buried, mourned] at hq
    split at hq
    · cases hq
    · exact h.creator_eq c (hex c hc) q hq
  · intro c hc q hq
    rw [ho.creator] at hq
    rw [ho.reaped, ho.died]
    cases hcex : (S.procs c).exists_ with
    | false =>
      rcases h.free c hcex q hq with hr | hd
      · exact Or.inl hr
      · exact Or.inr (Or.inr hd)
    | true =>
      -- the slot is released now, so it is that of `p` and `p` has no parent left
      rw [hprocs] at hc
      simp only [buried, mourned] at hc
      split at hc
      · rename_i hcp
        right
        rcases h.parent c hcex q hq with hpar | hdied
        · left
          obtain ⟨rfl, hnone⟩ := hcp
          rw [survivingParent_eq] at hnone
          split at hnone
          · rename_i hself
            rw [hpar, hpid] at hself
            exact (Option.some.inj hself.2).symm
          · rw [hpar] at hnone
            cases hnone
        · exact Or.inr hdied
      · rw [hcex] at hc
        cases hc
  · intro c hc
    rw [hstatus c (hex c hc), hprocs]
    rfl

/-! ### Births -/

theorem Waiting.install {v : Proc} (h : Waiting S) (hfree : getFreePid S = some p) :
    Waiting (install S p v) := by
  have hp := (getFreePid_spec hfree).2.2
  intro P hlive hready
  have hP : P ≠ p := by
    intro hPp
    rw [hPp, install_procs, Function.update_self] at hready
    cases hready
  have hlive' : ∀ q, S.Live q → (Process.install S p v).Live q := by
    intro q hq
    have hqp : q ≠ p := by
      intro hqp
      rw [hqp, Sched.Live, hp] at hq
      cases hq.1
    rw [Sched.Live, install_procs, Function.update_of_ne hqp]
    exact hq
  rw [Sched.Live, install_procs, Function.update_of_ne hP] at hlive
  rw [install_procs, Function.update_of_ne hP] at hready ⊢
  obtain ⟨hcall, c, hwait, hc, hparent⟩ := h P hlive hready
  refine ⟨hcall, c, hwait, hlive' c hc, ?_⟩
  have hcp : c ≠ p := by
    intro hcp
    rw [hcp, Sched.Live, hp] at hc
    cases hc.1
  rw [Function.update_of_ne hcp, hparent]

theorem Ledger.install {v : Proc} {o : Obs} (h : Ledger S H)
    (ho : IsBirth p v.parentPid v.exitStatus o) (hex : v.exists_ = true) :
    Ledger (install S p v) (o :: H) := by
  refine ⟨⟨?_, ?_, ?_, ?_⟩, ?_⟩
  · intro c hc hreaped
    rw [ho.reaped] at hreaped
    rw [install_procs, Function.update_of_ne (Ne.symm hreaped.1)] at hc
    exact h.unreaped c hc hreaped.2
  · intro c hc q hq
    rw [ho.creator] at hq
    rw [ho.died]
    by_cases hcp : c = p
    · rw [if_pos hcp.symm] at hq
      left
      rw [hcp, install_procs, Function.update_self]
      exact hq
    · rw [if_neg (Ne.symm hcp)] at hq
      rw [install_procs, Function.update_of_ne hcp] at hc ⊢
      rcases h.parent c hc q hq with hpar | hd
      · exact Or.inl hpar
      · exact Or.inr ⟨Ne.symm hcp, hd⟩
  · intro c hc q hq
    rw [ho.creator]
    by_cases hcp : c = p
    · rw [if_pos hcp.symm]
      rw [hcp, install_procs, Function.update_self] at hq
      exact hq
    · rw [if_neg (Ne.symm hcp)]
      rw [install_procs, Function.update_of_ne hcp] at hc hq
      exact h.creator_eq c hc q hq
  · intro c hc q hq
    by_cases hcp : c = p
    · rw [hcp, install_procs, Function.update_self] at hc
      rw [hex] at hc
      cases hc
    · rw [install_procs, Function.update_of_ne hcp] at hc
      rw [ho.creator, if_neg (Ne.symm hcp)] at hq
      rw [ho.reaped, ho.died]
      rcases h.free c hc q hq with hr | hd
      · exact Or.inl ⟨Ne.symm hcp, hr⟩
      · exact Or.inr ⟨Ne.symm hcp, hd⟩
  · intro c hc
    rw [ho.passed]
    by_cases hcp : c = p
    · rw [hcp, if_pos rfl, install_procs, Function.update_self]
    · rw [if_neg (Ne.symm hcp), install_procs, Function.update_of_ne hcp]
      rw [install_procs, Function.update_of_ne hcp] at hc
      exact h.status c hc

/-! ### Other changes of the table -/

/-- Changes to fields that the protocol does not read, and to `in_syscall` and `waiting_on` of processes
that are not suspended. -/
theorem Waiting.congr (h : Waiting S)
    (hex : ∀ q, (S'.procs q).exists_ = (S.procs q).exists_)
    (hexit : ∀ q, (S'.procs q).exited = (S.procs q).exited)
    (hready : ∀ q, (S'.procs q).ready = (S.procs q).ready)
    (hpar : ∀ q, (S'.procs q).parentPid = (S.procs q).parentPid)
    (hsus : ∀ q, S.Live q → (S.procs q).ready = false →
      (S'.procs q).inSyscall = (S.procs q).inSyscall ∧
      (S'.procs q).waitingOn = (S.procs q).waitingOn) : Waiting S' := by
  have hlive : ∀ q, S'.Live q ↔ S.Live q := by
    intro q
    rw [Sched.Live, Sched.Live, hex, hexit]
  intro P hP hr
  rw [hlive] at hP
  rw [hready] at hr
  obtain ⟨hcall, c, hwait, hc, hparent⟩ := h P hP hr
  rw [(hsus P hP hr).1, (hsus P hP hr).2]
  exact ⟨hcall, c, hwait, (hlive c).mpr hc, by rw [hpar, hparent]⟩

theorem Kinship.congr (h : Kinship S H)
    (hex : ∀ q, (S'.procs q).exists_ = (S.procs q).exists_)
    (hpar : ∀ q, (S'.procs q).parentPid = (S.procs q).parentPid) : Kinship S' H := by
  refine ⟨?_, ?_, ?_, ?_⟩ <;> intro c <;> rw [hex] <;> try rw [hpar]
  · exact h.unreaped c
  · exact h.parent c
  · exact h.creator_eq c
  · exact h.free c

theorem Ledger.congr (h : Ledger S H)
    (hex : ∀ q, (S'.procs q).exists_ = (S.procs q).exists_)
    (hpar : ∀ q, (S'.procs q).parentPid = (S.procs q).parentPid)
    (hst : ∀ q, (S'.procs q).exitStatus = (S.procs q).exitStatus) : Ledger S' H := by
  refine ⟨h.toKinship.congr hex hpar, ?_⟩
  intro c
  rw [hex, hst]
  exact h.status c

/-! ### `waitpid` -/

/-- A suspended caller of `waitpid` waits for the child it named. -/
theorem Waiting.suspend {c : ℕ} (h : Waiting S)
    (hcall : (S.procs p).inSyscall = SYSCALL_WAITPID) (hpid : (S.procs p).pid = p) (hchild : IsChild S p c)
    (hc : (S.procs c).exited = false)
    (hok : suspendProcess (waitFor S p (some c)) p = .ok S') : Waiting S' := by
  obtain ⟨-, -, rfl⟩ := suspendProcess_ok hok
  have hproc : ∀ q, ((((waitFor S p (some c)).set p
      { (waitFor S p (some c)).procs p with ready := false }).removeReady p).addSuspended p).procs q =
        { S.procs q with
          ready := if q = p then false else (S.procs q).ready
          waitingOn := if q = p then some c else (S.procs q).waitingOn } := by
    intro q
    by_cases hq : q = p <;> simp [waitFor_proc, hq]
  intro P hP hready
  rw [Sched.Live, hproc] at hP
  rw [hproc] at hready ⊢
  by_cases hPp : P = p
  · rw [hPp]
    refine ⟨hcall, c, by simp, ?_, ?_⟩
    · rw [Sched.Live, hproc]
      exact ⟨hchild.2.1, hc⟩
    · rw [hproc, hchild.2.2, hpid]
  · simp only [if_neg hPp] at hready ⊢
    obtain ⟨hcall', d, hwait, hd, hparent⟩ := h P hP hready
    refine ⟨hcall', d, hwait, ?_, ?_⟩
    · rw [Sched.Live, hproc]
      exact hd
    · rw [hproc, hparent]

/-- The reaping of `c` by `p` is recorded. -/
theorem Ledger.reap {c : ℕ} {status : ℤ} (h : Ledger S H) :
    Ledger (reap S c) (.reaped p c status :: H) := by
  have hne : ∀ d, ((Process.reap S c).procs d).exists_ = true →
      d ≠ c ∧ (S.procs d).exists_ = true := by
    intro d hd
    rw [reap_proc] at hd
    by_cases hdc : d = c
    · simp [hdc] at hd
    · simp only [if_neg hdc] at hd
      exact ⟨hdc, hd⟩
  refine ⟨⟨?_, ?_, ?_, ?_⟩, ?_⟩
  · intro d hd hreaped
    rcases hreaped with hcd | hr
    · exact (hne d hd).1 hcd.symm
    · exact h.unreaped d (hne d hd).2 hr
  · intro d hd q hq
    rw [reap_proc]
    exact h.parent d (hne d hd).2 q hq
  · intro d hd q hq
    rw [reap_proc] at hq
    exact h.creator_eq d (hne d hd).2 q hq
  · intro d hd q hq
    by_cases hdc : d = c
    · exact Or.inl (Or.inl hdc.symm)
    · rw [reap_proc] at hd
      simp only [if_neg hdc] at hd
      rcases h.free d hd q hq with hr | hdied
      · exact Or.inl (Or.inr hr)
      · exact Or.inr hdied
  · intro d hd
    rw [reap_proc]
    exact h.status d (hne d hd).2

theorem Waiting.reap {c : ℕ} (h : Waiting S) (hc : (S.procs c).exited = true) :
    Waiting (reap S c) := by
  have hlive : ∀ q, (Process.reap S c).Live q ↔ S.Live q := by
    intro q
    by_cases hq : q = c
    · simp [Sched.Live, reap_proc, hq, hc]
    · simp [Sched.Live, reap_proc, hq]
  intro P hP hready
  rw [hlive] at hP
  rw [reap_proc] at hready ⊢
  obtain ⟨hcall, d, hwait, hd, hparent⟩ := h P hP hready
  exact ⟨hcall, d, hwait, (hlive d).mpr hd, by rw [reap_proc, hparent]⟩

theorem Waiting.waitFor (h : Waiting S) (hp : (S.procs p).ready = true) (w : Option ℕ) :
    Waiting (waitFor S p w) := by
  refine h.congr ?_ ?_ ?_ ?_ ?_ <;> intro q <;> try rw [waitFor_proc]
  intro _ hready
  have hq : q ≠ p := by
    intro hq
    rw [hq, hp] at hready
    cases hready
  exact ⟨rfl, if_neg hq⟩

theorem Ledger.waitFor (h : Ledger S H) (p : ℕ) (w : Option ℕ) : Ledger (waitFor S p w) H := by
  refine h.congr ?_ ?_ ?_ <;> intro q <;> rw [waitFor_proc]

/-! ### Calls -/

/-- What the protocol needs of a state between kernel entries. -/
structure Protocol (S : Sched) (H : List Obs) : Prop where
  good : Good S
  waiting : Waiting S
  ledger : Ledger S H
  honest : Honest H
  current_ready : ∀ p, S.current = some p → (S.procs p).ready = true

/-- What it needs in the middle of a call of `p` that will return `res`: the caller may be suspended or
dead, but then the call will switch. -/
structure Midway (S : Sched) (H : List Obs) (p : ℕ) (res : ℤ) : Prop where
  good : Good S
  waiting : Waiting S
  ledger : Ledger S H
  honest : Honest H
  stays : res ≠ -ESUSPEND → S.current = some p ∧ (S.procs p).ready = true

variable {res : ℤ} {status : Option ℤ} {r : Regs}

theorem Protocol.enter (h : Protocol S H) (hp : S.current = some p) (no : ℕ) :
    Protocol (enter S p no) H := by
  refine ⟨h.good.enter p no, h.waiting.congr ?_ ?_ ?_ ?_ ?_, h.ledger.congr ?_ ?_ ?_, h.honest, ?_⟩ <;>
    intro q <;> try rw [enter_proc]
  · intro _ hready
    have hq : q ≠ p := by
      intro hq
      rw [hq, h.current_ready p hp] at hready
      cases hready
    exact ⟨if_neg hq, rfl⟩
  · exact h.current_ready q

theorem Protocol.fork (h : Protocol S H) (hp : S.current = some p)
    (hok : syscallFork S p r = .ok (res, S')) :
    Midway S' (observe p res none .fork ++ H) p res := by
  have hlive := h.good.current_live hp
  have hG := h.good.fork hlive hok
  have hready := h.current_ready p hp
  rcases syscallFork_ok hok with ⟨-, rfl, rfl⟩ | ⟨child, hfree, rfl, rfl⟩
  · exact ⟨hG, h.waiting, h.ledger, h.honest, fun _ => ⟨hp, hready⟩⟩
  · have hchild : p ≠ child := by
      intro heq
      have hc := (getFreePid_spec hfree).2.2
      rw [← heq, hlive.1] at hc
      cases hc
    have hobs : observe p (child : ℤ) none .fork = [.forked p child] := by
      have hpos : ¬ ((child : ℤ) < 0) := by omega
      simp [observe, hpos]
    rw [hobs]
    refine ⟨hG, h.waiting.install hfree, h.ledger.install ?_ rfl, h.honest, fun _ => ⟨hp, ?_⟩⟩
    · right
      refine ⟨p, rfl, ?_, rfl⟩
      show some (S.procs p).pid = some p
      rw [h.good.pid_eq hlive.1]
    · rw [install_procs, Function.update_of_ne hchild]
      exact hready

theorem Protocol.exit {value : ℤ} (h : Protocol S H) (hp : S.current = some p)
    (hok : syscallExit S p value = .ok (res, S')) : Midway S' (.exited p value :: H) p res := by
  have hlive := h.good.current_live hp
  have hG := h.good.exit hlive hok
  obtain ⟨rfl, hkill⟩ := syscallExit_ok hok
  have hproc : ∀ q, (S.set p { S.procs p with exitStatus := value }).procs q =
      { S.procs q with exitStatus := if q = p then value else (S.procs q).exitStatus } := by
    intro q
    by_cases hq : q = p <;> simp [hq]
  have hG₁ : Good (S.set p { S.procs p with exitStatus := value }) :=
    h.good.set ⟨rfl, rfl, rfl, rfl⟩ rfl
  have hex : ((S.set p { S.procs p with exitStatus := value }).procs p).exists_ = true := by
    rw [hproc]
    exact hlive.1
  have hW₁ : Waiting (S.set p { S.procs p with exitStatus := value }) := by
    refine h.waiting.congr ?_ ?_ ?_ ?_ ?_ <;> intro q <;> rw [hproc]
    exact fun _ _ => ⟨rfl, rfl⟩
  have hK₁ : Kinship (S.set p { S.procs p with exitStatus := value }) H := by
    refine h.ledger.toKinship.congr ?_ ?_ <;> intro q <;> rw [hproc]
  refine ⟨hG, hW₁.kill hG₁ hex hkill, hK₁.kill hG₁ hex (Or.inr ⟨value, rfl⟩) hkill ?_, h.honest,
    fun hne => absurd rfl hne⟩
  intro c hc
  rw [hproc] at hc ⊢
  show (if p = c then value else passed c H) = if c = p then value else (S.procs c).exitStatus
  by_cases hcp : c = p
  · rw [if_pos hcp.symm, if_pos hcp]
  · rw [if_neg (Ne.symm hcp), if_neg hcp, h.ledger.status c hc]

/-- A death caused from outside the dying process. -/
theorem Ledger.kill (h : Ledger S H) (hG : Good S) (hp : (S.procs p).exists_ = true)
    (hok : killProcess S p = .ok S') : Ledger S' (.killed p :: H) :=
  h.toKinship.kill hG hp (Or.inl rfl) hok fun c hc => (h.status c hc).symm

theorem Protocol.killCall {pid : ℤ} (h : Protocol S H) (hp : S.current = some p)
    (hok : syscallKill S p pid = .ok (res, S')) :
    Midway S' (observe p res none (.kill pid) ++ H) p res := by
  have hlive := h.good.current_live hp
  have hready := h.current_ready p hp
  have hG := h.good.killCall hok
  rcases syscallKill_ok hok with ⟨rfl, rfl⟩ | ⟨t, rfl, -, hex, hres, hkill⟩
  · exact ⟨hG, h.waiting, h.ledger, h.honest, fun _ => ⟨hp, hready⟩⟩
  · have hobs : observe p res none (.kill (t : ℤ)) = [.killed t] := by
      have hne : ¬ res = -ESRCH := by
        rw [hres]
        split <;> decide
      simp [observe, hne]
    rw [hobs]
    refine ⟨hG, h.waiting.kill h.good hex hkill, h.ledger.kill h.good hex hkill, h.honest, ?_⟩
    intro hne
    have hpt : t ≠ p := by
      intro htp
      apply hne
      rw [hres, h.good.pid_eq hlive.1, if_pos htp]
    obtain ⟨hprocs, hcur⟩ := killProcess_ok hkill
    have hpt' : ¬ S.current = some t := by
      rw [hp]
      exact fun heq => hpt (Option.some.inj heq).symm
    rw [hcur, if_neg hpt']
    refine ⟨hp, ?_⟩
    rw [hprocs]
    simp only [buried, mourned]
    split
    · rfl
    · exact hready

theorem Protocol.waitpid {pid : ℤ} (h : Protocol S H) (hp : S.current = some p)
    (hcall : (S.procs p).inSyscall = SYSCALL_WAITPID)
    (hok : syscallWaitpid S p pid = .ok (res, status, S')) :
    Midway S' (observe p res status (.waitpid pid) ++ H) p res := by
  have hlive := h.good.current_live hp
  have hready := h.current_ready p hp
  have hpid := h.good.pid_eq hlive.1
  have hG := h.good.waitpid hlive hok
  rcases syscallWaitpid_ok hok with ⟨-, rfl, hS⟩ | ⟨c, rfl, hchild, hexit, rfl, rfl, rfl⟩ |
    ⟨c, rfl, hchild, hexit, rfl, rfl, hsus⟩
  · rcases hS with rfl | rfl
    · exact ⟨hG, h.waiting, h.ledger, h.honest, fun _ => ⟨hp, hready⟩⟩
    · refine ⟨hG, h.waiting.waitFor hready none, h.ledger.waitFor p none, h.honest,
        fun _ => ⟨hp, ?_⟩⟩
      rw [waitFor_proc]
      exact hready
  · have hobs : observe p (c : ℤ) (some (S.procs c).exitStatus) (.waitpid (c : ℤ)) =
        [.reaped p c (S.procs c).exitStatus] := rfl
    have hparent : (S.procs c).parentPid = some p := by rw [hchild.2.2, hpid]
    rw [hobs]
    refine ⟨hG, (h.waiting.waitFor hready none).reap ?_, (h.ledger.waitFor p none).reap, ?_,
      fun _ => ⟨hp, ?_⟩⟩
    · rw [waitFor_proc]
      exact hexit
    · exact ⟨⟨h.ledger.status c hchild.2.1, h.ledger.creator_eq c hchild.2.1 p hparent,
        h.ledger.unreaped c hchild.2.1⟩, h.honest⟩
    · rw [reap_proc, waitFor_proc]
      exact hready
  · refine ⟨hG, h.waiting.suspend hcall hpid hchild hexit hsus, ?_, h.honest,
      fun hne => absurd rfl hne⟩
    obtain ⟨-, -, rfl⟩ := suspendProcess_ok hsus
    refine h.ledger.congr ?_ ?_ ?_ <;> intro q <;> by_cases hq : q = p <;>
      simp [waitFor_proc, hq]

/-- Leaving the call restores what holds between kernel entries. -/
theorem Midway.leave (h : Midway S H p res) (no : ℕ) (r : Regs) :
    Protocol (leave S p no r res) H := by
  obtain ⟨htable, hlists, hcur⟩ := leave_spec S p no r res
  refine ⟨h.good.leave p no r res, ?_, ?_, h.honest, ?_⟩
  · refine h.waiting.congr ?_ ?_ ?_ ?_ ?_
    · exact fun q => (htable q).1.exists_
    · exact fun q => (htable q).1.exited
    · exact fun q => (htable q).1.ready
    · exact fun q => (htable q).1.parentPid
    · intro q _ hready
      refine ⟨?_, (htable q).1.waitingOn⟩
      rw [(htable q).2, if_neg]
      rintro ⟨rfl, hne⟩
      rw [(h.stays hne).2] at hready
      cases hready
  · exact h.ledger.congr (fun q => (htable q).1.exists_) (fun q => (htable q).1.parentPid)
      fun q => (htable q).1.exitStatus
  · intro q hq
    rw [(htable q).1.ready]
    rw [hcur] at hq
    split at hq
    · exact (h.good.pickNext_live hq).2
    · rename_i hstay
      rw [not_or, not_not] at hstay
      rw [hstay.2] at hq
      obtain rfl : p = q := Option.some.inj hq
      exact (h.stays hstay.1).2

/-- **One call** keeps the protocol. -/
theorem Protocol.syscall {c : Call} (h : Protocol S H) (hp : S.current = some p)
    (hc : c.Lifecycle) (hok : syscall S r c = .ok (res, status, S')) :
    Protocol S' (observe p res status c ++ H) := by
  obtain ⟨old, S₁, hold, hdis, rfl⟩ := syscall_ok hok
  obtain rfl : p = old := Option.some.inj (hp.symm.trans hold)
  have hE := h.enter hp c.no
  have hpE : (Process.enter S p c.no).current = some p := hp
  suffices hM : Midway S₁ (observe p res status c ++ H) p res from hM.leave c.no r
  cases c with
  | fork =>
    obtain ⟨hfork, rfl⟩ := plain_eq_ok hdis
    exact hE.fork hpE hfork
  | exit value => exact hE.exit hpE (plain_eq_ok hdis).1
  | kill pid =>
    obtain ⟨hkill, rfl⟩ := plain_eq_ok hdis
    exact hE.killCall hpE hkill
  | waitpid pid =>
    refine hE.waitpid hpE ?_ hdis
    rw [enter_proc]
    exact if_pos rfl
  | send valid box dest size => exact hc.elim
  | receive valid block => exact hc.elim

/-! ### Runs -/

theorem protocol_boot : Protocol Sched.boot [] := by
  refine ⟨good_boot, ?_, ⟨⟨?_, ?_, ?_, ?_⟩, ?_⟩, trivial, ?_⟩
  · intro p hp
    cases hp.1
  · intro c hc
    cases hc
  · intro c hc
    cases hc
  · intro c hc
    cases hc
  · intro c _ q hq
    cases hq
  · intro c hc
    cases hc
  · intro p hp
    cases hp

/-- **Every run** follows the protocol. -/
theorem Run.protocol (h : Run H S) : Protocol S H := by
  induction h with
  | boot => exact protocol_boot
  | @start H S S' startAddress pid _ hstart ih =>
    obtain ⟨hfree, rfl⟩ := startProcess_some hstart
    refine ⟨?_, ih.waiting.install hfree, ih.ledger.install (Or.inl ⟨rfl, rfl, rfl⟩) rfl, ih.honest,
      ?_⟩
    · refine ih.good.install hfree rfl rfl rfl ?_
      intro q hq
      cases hq
    · intro q hq
      by_cases hqp : q = pid
      · rw [hqp, install_procs, Function.update_self]
      · rw [install_procs, Function.update_of_ne hqp]
        exact ih.current_ready q hq
  | call p r c res status _ hp hc hok ih => exact ih.syscall hp hc hok
  | @switch H S r _ ih =>
    obtain ⟨htable, hlists, hcur⟩ := contextSwitch_spec S r
    refine ⟨ih.good.contextSwitch r, ?_, ?_, ih.honest, ?_⟩
    · exact ih.waiting.congr (fun q => (htable q).1.exists_) (fun q => (htable q).1.exited)
        (fun q => (htable q).1.ready) (fun q => (htable q).1.parentPid)
        fun q _ _ => ⟨(htable q).2, (htable q).1.waitingOn⟩
    · exact ih.ledger.congr (fun q => (htable q).1.exists_) (fun q => (htable q).1.parentPid)
        fun q => (htable q).1.exitStatus
    · intro q hq
      rw [hcur] at hq
      rw [(htable q).1.ready]
      exact (ih.good.pickNext_live hq).2
  | @kill H S S' p _ hp hok ih =>
    refine ⟨ih.good.kill hp hok, ih.waiting.kill ih.good hp hok, ih.ledger.kill ih.good hp hok,
      ih.honest, ?_⟩
    intro q hq
    obtain ⟨hprocs, hcur⟩ := killProcess_ok hok
    rw [hcur] at hq
    split at hq
    · cases hq
    · rw [hprocs]
      simp only [buried, mourned]
      split
      · rfl
      · exact ih.current_ready q hq

theorem Honest.at {H₁ H₂ : List Obs} {c : ℕ} {value : ℤ}
    (h : Honest (H₁ ++ .reaped p c value :: H₂)) :
    value = passed c H₂ ∧ creator c H₂ = some p ∧ ¬ Reaped c H₂ := by
  induction H₁ with
  | nil => exact h.1
  | cons o H₁ ih =>
    cases o with
    | reaped p' c' value' => exact ih h.2
    | started d => exact ih h
    | forked p' d => exact ih h
    | exited d value' => exact ih h
    | killed d => exact ih h

/-- **Exit-status protocol.**  In every run: a living process suspended inside `waitpid` waits for a child
that exists, has not exited and has it as its parent; every successful `waitpid` returns the status that the
child passed to `exit`, or its initial status, is made by the process that forked the child, and is the
first for this child; and a slot that `fork` filled is not offered again before its process has been reaped
or the forking process has died. -/
theorem exit_status_protocol (h : Run H S) :
    (∀ p, S.Live p → (S.procs p).ready = false → (S.procs p).inSyscall = SYSCALL_WAITPID →
      ∃ c, (S.procs p).waitingOn = some c ∧ (S.procs c).exists_ = true ∧
        (S.procs c).exited = false ∧ (S.procs c).parentPid = some p) ∧
    (∀ H₁ H₂ p c value, H = H₁ ++ .reaped p c value :: H₂ →
      value = passed c H₂ ∧ creator c H₂ = some p ∧ ¬ Reaped c H₂) ∧
    (∀ c q, getFreePid S = some c → creator c H = some q → Reaped c H ∨ Died q c H) := by
  have hP := h.protocol
  refine ⟨?_, ?_, ?_⟩
  · intro p hlive hready _
    obtain ⟨-, c, hwait, hc, hparent⟩ := hP.waiting p hlive hready
    exact ⟨c, hwait, hc.1, hc.2, hparent⟩
  · intro H₁ H₂ p c value heq
    have hH := hP.honest
    rw [heq] at hH
    exact hH.at
  · intro c q hfree hq
    exact hP.ledger.free c (getFreePid_spec hfree).2.2 q hq

/-- Process 1 forks process 2 and waits for it; process 2 exits with status 7, which process 1 then
fetches by executing `waitpid` again. -/
theorem exit_status_seven :
    ∃ S, Run [.reaped 1 2 7, .exited 2 7, .forked 1 2, .started 1] S ∧
      (7 : ℤ) = passed 2 [.exited 2 7, .forked 1 2, .started 1] := by
  have h₁ := Run.start 0 1 .boot rfl
  have h₂ := h₁.switch Regs.zero
  have h₃ := h₂.call 1 Regs.zero .fork 2 none rfl trivial rfl
  have h₄ := h₃.call 1 Regs.zero (.waitpid 2) (-ESUSPEND) none rfl trivial rfl
  have h₅ := h₄.call 2 Regs.zero (.exit 7) (-ESUSPEND) none rfl trivial rfl
  have h₆ := h₅.call 1 Regs.zero (.waitpid 2) 2 (some 7) rfl trivial rfl
  exact ⟨_, h₆, ((exit_status_protocol h₆).2.1 [] _ 1 2 7 rfl).1⟩

end AdelaideOS.Process
