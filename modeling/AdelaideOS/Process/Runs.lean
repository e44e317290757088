import AdelaideOS.Process.Invariant

/-!
# Runs of the scheduler

The kernel runs in response to events: a process is started at boot, the current process makes a system
call, the timer switches processes, an exception handler kills a process, a driver suspends or resumes
one.  `exec` is one event, `Reachable P` the states that runs reach whose every event satisfies `P` in the
state where it happens.  A failed assertion stops the kernel, so it ends the run.

A process that is switched to inside a system call executes the call again before it returns to user mode;
such a re-execution is the next `call` event of the run.

* **`Good.exec`**, **`good_of_reachable`** — one event, and every run, keeps the invariant;
* **`lists_of_reachable`** — the process list invariant.
-/

namespace AdelaideOS.Process

open AdelaideOS.Lib.Dlist

inductive Event where
  | start (startAddress : ℕ)
  | call (r : Regs) (c : Call)
  | switch (r : Regs)
  | kill (p : ℕ)
  | suspend (p : ℕ)
  | resume (p : ℕ)

def exec (S : Sched) : Event → Except Fault Sched
  | .start startAddress => .ok (((startProcess S startAddress).map Prod.snd).getD S)
  | .call r c => do let (_, _, S) ← syscall S r c; return S
  | .switch r => .ok (contextSwitch S r)
  | .kill p => killProcess S p
  | .suspend p => suspendProcess S p
  | .resume p => resumeProcess S p

/-- The states that runs reach whose events all satisfy `P`. -/
inductive Reachable (P : Sched → Event → Prop) : Sched → Prop where
  | boot : Reachable P Sched.boot
  | step {S S' : Sched} (ev : Event) :
      Reachable P S → P S ev → exec S ev = .ok S' → Reachable P S'

variable {S S' : Sched} {p q : ℕ}

/-! ### The list invariant -/

/-- Events that keep the lists in order: killing applies to existing processes, suspending and resuming
to processes that have not exited, and no message is sent to the dead. -/
def Event.Orderly (S : Sched) : Event → Prop
  | .start _ => True
  | .call _ c => c.Sound S
  | .switch _ => True
  | .kill p => (S.procs p).exists_ = true
  | .suspend p => (S.procs p).exited = false
  | .resume p => (S.procs p).exited = false

/-- **One event** keeps the invariant. -/
theorem Good.exec {ev : Event} (h : Good S) (hev : ev.Orderly S) (hok : exec S ev = .ok S') :
    Good S' := by
  cases ev with
  | start startAddress =>
    cases hstart : startProcess S startAddress with
    | none =>
      rw [Process.exec, hstart] at hok
      cases hok
      exact h
    | some r =>
      obtain ⟨pid, S₁⟩ := r
      rw [Process.exec, hstart] at hok
      cases hok
      obtain ⟨hfree, rfl⟩ := startProcess_some hstart
      refine h.install hfree rfl rfl rfl ?_
      intro q hq
      cases hq
  | call r c =>
    obtain ⟨⟨res, status, S₁⟩, h₁, h₂⟩ := bind_eq_ok.mp hok
    cases h₂
    exact h.syscall hev h₁
  | switch r =>
    cases hok
    exact h.contextSwitch r
  | kill p => exact h.kill hev hok
  | suspend p => exact h.suspend ⟨(suspendProcess_ok hok).1, hev⟩ hok
  | resume p => exact h.resume ⟨(resumeProcess_ok hok).1, hev⟩ hok

/-- **Every run** keeps the invariant. -/
theorem good_of_reachable {P : Sched → Event → Prop}
    (hP : ∀ S ev, P S ev → ev.Orderly S) (h : Reachable P S) : Good S := by
  induction h with
  | boot => exact good_boot
  | step ev _ hev hok ih => exact ih.exec (hP _ ev hev) hok

/-- The calls that create, end and reap processes. -/
def Call.Lifecycle : Call → Prop
  | .fork => True
  | .exit _ => True
  | .kill _ => True
  | .waitpid _ => True
  | .send _ _ _ _ => False
  | .receive _ _ => False

/-- Process creation, death, reaping and switching; suspension and resumption of processes that have not
exited (the operations themselves check that the process is ready, or is not). -/
def Event.Lifecycle (S : Sched) : Event → Prop
  | .start _ => True
  | .call _ c => c.Lifecycle
  | .switch _ => True
  | .kill p => (S.procs p).exists_ = true
  | .suspend p => (S.procs p).exited = false
  | .resume p => (S.procs p).exited = false

theorem Event.Lifecycle.orderly (S : Sched) (ev : Event) (h : ev.Lifecycle S) : ev.Orderly S := by
  cases ev with
  | call r c => cases c <;> trivial
  | start startAddress => trivial
  | switch r => trivial
  | kill p => exact h
  | suspend p => exact h
  | resume p => exact h

/-- The process list invariant. -/
structure ListInvariant (S : Sched) (R U : List ℕ) : Prop where
  ready : IsDlist S.links S.ready R
  suspended : IsDlist S.links S.suspended U
  mem_ready : ∀ p, p ∈ R ↔
    (S.procs p).exists_ = true ∧ (S.procs p).exited = false ∧ (S.procs p).ready = true
  mem_suspended : ∀ p, p ∈ U ↔
    (S.procs p).exists_ = true ∧ (S.procs p).exited = false ∧ (S.procs p).ready = false
  off : ∀ p, p ∉ R → p ∉ U → S.links.next p = none ∧ S.links.prev p = none
  current : ∀ p, S.current = some p →
    (S.procs p).exists_ = true ∧ (S.procs p).exited = false

/-- **Process list invariant.**  After any run of process creation, death, reaping and switching, both
lists are well formed and hold exactly the living processes with the matching `ready` flag, all other
processes have null pointers, and the current process is alive. -/
theorem lists_of_reachable (h : Reachable Event.Lifecycle S) : ∃ R U, ListInvariant S R U := by
  obtain ⟨R, U, hI⟩ := good_of_reachable Event.Lifecycle.orderly h
  refine ⟨R, U, hI.layout.ready, hI.layout.suspended, ?_, ?_, hI.layout.off, hI.current_alive⟩
  · intro p
    rw [hI.mem_ready, Sched.Live, and_assoc]
  · intro p
    rw [hI.mem_suspended, Sched.Live, and_assoc]

/-- A run in which process 1 forks process 2, waits for it, and is woken up by its death. -/
theorem lists_of_waiting_parent :
    ∃ S, Reachable Event.Lifecycle S ∧ S.current = some 1 ∧ (S.procs 2).exited = true ∧
      ∃ R U, ListInvariant S R U := by
  have h₁ := Reachable.step (P := Event.Lifecycle) (.start 0) .boot trivial rfl
  have h₂ := h₁.step (.switch Regs.zero) trivial rfl
  have h₃ := h₂.step (.call Regs.zero .fork) trivial rfl
  have h₄ := h₃.step (.call Regs.zero (.waitpid 2)) trivial rfl
  have h₅ := h₄.step (.call Regs.zero (.exit 7)) trivial rfl
  exact ⟨_, h₅, rfl, rfl, lists_of_reachable h₅⟩

end AdelaideOS.Process
