import AdelaideOS.Process.Runs

/-!
# Exited processes and messages

A process that has exited keeps its table entry until its parent reaps it.  `kill` leaves the flag
`receive_blocked` of such an entry as it was, and `send` looks only at `exists` before it resumes a
process with that flag set.  So an exited process that was blocked in `receive` is resumed by the next
message (`dead_process_runs`).  Without such messages exited processes stay dead:

* **`dead_ready_exec`** — no event changes the `ready` flag of an exited process;
* **`dead_of_reachable`** — no run puts one back on the ready list or makes it current.
-/

namespace AdelaideOS.Process

open AdelaideOS.Lib.Dlist

variable {S S' : Sched} {p q : ℕ}

/-- A process that has exited and has not been reaped. -/
def Sched.Dead (S : Sched) (q : ℕ) : Prop := (S.procs q).exists_ = true ∧ (S.procs q).exited = true

theorem Sched.Dead.not_live (h : S.Dead q) : ¬ S.Live q := by
  intro hl
  have hx := h.2
  rw [hl.2] at hx
  cases hx

/-- The process is met when following the ready list. -/
def Sched.OnReady (S : Sched) (q : ℕ) : Prop := Walk S.links.next S.ready.first q

/-! ### The `ready` flag of the dead -/

theorem dead_ready_install {v : Proc} (hd : S.Dead q) (hfree : getFreePid S = some p) :
    ((install S p v).procs q).ready = (S.procs q).ready := by
  have hq : q ≠ p := by
    intro h
    have hp := (getFreePid_spec hfree).2.2
    rw [← h, hd.1] at hp
    cases hp
  rw [install_procs, Function.update_of_ne hq]

theorem dead_ready_kill (h : Good S) (hd : S.Dead q) (hp : (S.procs p).exists_ = true)
    (hok : killProcess S p = .ok S') : (S'.procs q).ready = (S.procs q).ready := by
  obtain ⟨R, U, hI⟩ := h
  have hw : ¬ Wakes S p q := fun hw => hd.not_live (hI.wakes_alive hp hw).1
  rw [(killProcess_ok hok).1]
  simp only [buried, mourned, if_neg hw]

/-- Suspending or resuming another process. -/
theorem ready_suspend (hok : suspendProcess S p = .ok S') (hq : q ≠ p) :
    (S'.procs q).ready = (S.procs q).ready := by
  obtain ⟨-, -, rfl⟩ := suspendProcess_ok hok
  simp [hq]

theorem ready_resume (hok : resumeProcess S p = .ok S') (hq : q ≠ p) :
    (S'.procs q).ready = (S.procs q).ready := by
  obtain ⟨-, -, rfl⟩ := resumeProcess_ok hok
  simp [hq]

theorem dead_ready_dispatch {r : Regs} {c : Call} {res : ℤ} {status : Option ℤ} (h : Good S)
    (hp : S.Live p) (hd : S.Dead q) (hc : c.Sound S)
    (hok : dispatch S p r c = .ok (res, status, S')) :
    (S'.procs q).ready = (S.procs q).ready := by
  have hqp : q ≠ p := by
    intro hqp
    rw [hqp] at hd
    exact hd.not_live hp
  cases c with
  | fork =>
    rcases syscallFork_ok (plain_eq_ok hok).1 with ⟨-, -, rfl⟩ | ⟨child, hfree, -, rfl⟩
    · rfl
    · exact dead_ready_install hd hfree
  | exit value =>
    obtain ⟨-, hkill⟩ := syscallExit_ok (plain_eq_ok hok).1
    have hG : Good (S.set p { S.procs p with exitStatus := value }) :=
      h.set ⟨rfl, rfl, rfl, rfl⟩ rfl
    have hd' : (S.set p { S.procs p with exitStatus := value }).Dead q := by
      rw [Sched.Dead, set_procs, Function.update_of_ne hqp]
      exact hd
    have hex : ((S.set p { S.procs p with exitStatus := value }).procs p).exists_ = true := by
      rw [set_procs, Function.update_self]
      exact hp.1
    rw [dead_ready_kill hG hd' hex hkill, set_procs, Function.update_of_ne hqp]
  | kill pid =>
    rcases syscallKill_ok (plain_eq_ok hok).1 with ⟨-, rfl⟩ | ⟨t, -, -, hex, -, hkill⟩
    · rfl
    · exact dead_ready_kill h hd hex hkill
  | waitpid pid =>
    rcases syscallWaitpid_ok hok with ⟨-, -, hS⟩ | ⟨d, -, -, -, -, -, rfl⟩ |
      ⟨d, -, -, -, -, -, hsus⟩
    · rcases hS with rfl | rfl
      · rfl
      · rw [waitFor_proc]
    · rw [reap_proc, waitFor_proc]
    · rw [ready_suspend hsus hqp, waitFor_proc]
  | send valid box dest size =>
    rcases syscallSend_ok (plain_eq_ok hok).1 with rfl | ⟨hacc, d, rfl, hcases⟩
    · rfl
    · have hsame := sameLife_accept (S.procs d) box
      have hset : ((S.set d (accept (S.procs d) box)).procs q).ready = (S.procs q).ready := by
        by_cases hqd : q = d
        · rw [hqd, set_procs, Function.update_self, hsame.ready]
        · rw [set_procs, Function.update_of_ne hqd]
      rcases hcases with ⟨-, rfl⟩ | ⟨hblocked, S₁, hres, rfl⟩
      · exact hset
      · have hqd : q ≠ d := by
          intro hqd
          rw [hqd] at hd
          exact hc ⟨hacc, hd.2, hblocked⟩
        rw [set_procs, Function.update_of_ne hqd, ready_resume hres hqd, hset]
  | receive valid block =>
    rcases syscallReceive_ok (plain_eq_ok hok).1 with rfl | rfl | ⟨-, hsus⟩
    · rfl
    · rw [set_procs, Function.update_of_ne hqp]
    · rw [ready_suspend hsus hqp, set_procs, Function.update_of_ne hqp]

/-- **No event resumes the dead.** -/
theorem dead_ready_exec {ev : Event} (h : Good S) (hd : S.Dead q) (hev : ev.Orderly S)
    (hok : exec S ev = .ok S') : (S'.procs q).ready = (S.procs q).ready := by
  cases ev with
  | start startAddress =>
    cases hstart : startProcess S startAddress with
    | none =>
      rw [exec, hstart] at hok
      cases hok
      rfl
    | some r =>
      obtain ⟨pid, S₁⟩ := r
      rw [exec, hstart] at hok
      cases hok
      obtain ⟨hfree, rfl⟩ := startProcess_some hstart
      exact dead_ready_install hd hfree
  | call r c =>
    obtain ⟨⟨res, status, S₁⟩, h₁, h₂⟩ := bind_eq_ok.mp hok
    cases h₂
    obtain ⟨old, S₂, hold, hdis, rfl⟩ := syscall_ok h₁
    have hlive := (live_enter S old c.no old).mpr (h.current_live hold)
    have hd' : (enter S old c.no).Dead q := by
      rw [Sched.Dead, enter_proc]
      exact hd
    rw [((leave_spec S₂ old c.no r res).1 q).1.ready,
      dead_ready_dispatch (h.enter old c.no) hlive hd' (hev.enter old c.no) hdis, enter_proc]
  | switch r =>
    cases hok
    exact ((contextSwitch_spec S r).1 q).1.ready
  | kill p => exact dead_ready_kill h hd hev hok
  | suspend p =>
    refine ready_suspend hok ?_
    intro hqp
    rw [hqp] at hd
    exact hd.not_live ⟨hd.1, hev⟩
  | resume p =>
    refine ready_resume hok ?_
    intro hqp
    rw [hqp] at hd
    exact hd.not_live ⟨hd.1, hev⟩

/-! ### Runs -/

/-- Process creation, death and reaping, switching, and messages. -/
def Event.Messaging (S : Sched) : Event → Prop
  | .start _ => True
  | .call _ _ => True
  | .switch _ => True
  | .kill p => (S.procs p).exists_ = true
  | .suspend _ => False
  | .resume _ => False

/-- No message is accepted for an exited process that is marked as blocked in `receive`. -/
def Event.SparesDead (S : Sched) : Event → Prop
  | .call _ (.send valid _ dest size) => ¬ SendsToDead S valid dest size
  | _ => True

/-- The dead are not on the ready list and not current. -/
def StayDead (S : Sched) : Prop := ∀ q, S.Dead q → ¬ S.OnReady q ∧ S.current ≠ some q

theorem Event.Messaging.orderly (S : Sched) (ev : Event) (h : ev.Messaging S ∧ ev.SparesDead S) :
    ev.Orderly S := by
  cases ev with
  | call r c =>
    cases c with
    | send valid box dest size => exact h.2
    | fork => trivial
    | exit value => trivial
    | kill pid => trivial
    | waitpid pid => trivial
    | receive valid block => trivial
  | start startAddress => trivial
  | switch r => trivial
  | kill p => exact h.1
  | suspend p => exact h.1.elim
  | resume p => exact h.1.elim

/-- **Exited processes stay dead.**  In every run in which no message is accepted for an exited process
marked as blocked in `receive`, a process that has exited and has not been reaped is not on the ready
list and not current, and no further event of such a run resumes it. -/
theorem dead_of_reachable (h : Reachable (fun S ev => ev.Messaging S ∧ ev.SparesDead S) S) :
    StayDead S ∧ ∀ ev S', ev.Messaging S → ev.SparesDead S → exec S ev = .ok S' →
      ∀ q, S.Dead q → (S'.procs q).ready = (S.procs q).ready := by
  have hG : Good S := good_of_reachable Event.Messaging.orderly h
  constructor
  · intro q hd
    obtain ⟨R, U, hI⟩ := hG
    constructor
    · intro hon
      have hmem := hI.layout.ready.mem_of_walk hon fun x hx => hI.layout.ready.first_mem hx
      exact hd.not_live ((hI.mem_ready q).mp hmem).1
    · intro hcur
      exact hd.not_live (hI.current_alive q hcur)
  · intro ev S' hm hs hok q hd
    exact dead_ready_exec hG hd (Event.Messaging.orderly S ev ⟨hm, hs⟩) hok

/-- A run in which process 2 blocks in `receive`, gets a message, is killed and is not reaped. -/
theorem dead_of_killed_receiver :
    ∃ S, Reachable (fun S ev => ev.Messaging S ∧ ev.SparesDead S) S ∧ S.Dead 2 ∧ StayDead S := by
  have h₁ := Reachable.step (P := fun S ev => ev.Messaging S ∧ ev.SparesDead S) (.start 0) .boot
    ⟨trivial, trivial⟩ rfl
  have h₂ := h₁.step (.switch Regs.zero) ⟨trivial, trivial⟩ rfl
  have h₃ := h₂.step (.call Regs.zero .fork) ⟨trivial, trivial⟩ rfl
  have h₄ := h₃.step (.switch Regs.zero) ⟨trivial, trivial⟩ rfl
  have h₅ := h₄.step (.call Regs.zero (.receive true true)) ⟨trivial, trivial⟩ rfl
  have h₆ := h₅.step (.call Regs.zero (.send true 4096 2 16))
    ⟨trivial, fun h => absurd h.2.1 (by decide)⟩ rfl
  have h₇ := h₆.step (.call Regs.zero (.kill 2)) ⟨trivial, trivial⟩ rfl
  exact ⟨_, h₇, ⟨rfl, rfl⟩, (dead_of_reachable h₇).1⟩

/-- **The dead can run.**  Process 1 forks process 2, which blocks in `receive`; process 1 kills it and
sends it a message.  The exited process 2 is then ready, and the next switch makes it current. -/
theorem dead_process_runs :
    ¬ ∀ S, Reachable Event.Messaging S → StayDead S := by
  intro hall
  have h₁ := Reachable.step (P := Event.Messaging) (.start 0) .boot trivial rfl
  have h₂ := h₁.step (.switch Regs.zero) trivial rfl
  have h₃ := h₂.step (.call Regs.zero .fork) trivial rfl
  have h₄ := h₃.step (.switch Regs.zero) trivial rfl
  have h₅ := h₄.step (.call Regs.zero (.receive true true)) trivial rfl
  have h₆ := h₅.step (.call Regs.zero (.kill 2)) trivial rfl
  have h₇ := h₆.step (.call Regs.zero (.send true 4096 2 16)) trivial rfl
  have h₈ := h₇.step (.switch Regs.zero) trivial rfl
  exact (hall _ h₈ 2 ⟨rfl, rfl⟩).2 rfl

end AdelaideOS.Process
