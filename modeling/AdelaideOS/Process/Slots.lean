import AdelaideOS.Process.Messages

/-!
# Slots of the process table

A process that has exited keeps its slot until its parent calls `waitpid`.  `kill_process` takes the parent away
from every child of the dying process, whether the child is running or has exited.  A running child will then
release its slot by itself; an exited one is left for nobody, and its slot is lost (`slot_lost`).

* **`Claimed`** — every exited process has a parent that is to reap it;
* **`claimed_kill`** — what one death does to those that have exited before;
* **`slots_of_reachable`** — in runs in which nobody dies before it has reaped its exited children, no slot is lost.
-/

namespace AdelaideOS.Process

variable {S S' : Sched} {p q z : ℕ}

/-- The recorded parent of `z` is alive, and its `waitpid` releases the slot of `z`. -/
def Reapable (S : Sched) (z : ℕ) : Prop :=
  ∃ q, (S.procs z).parentPid = some q ∧ S.Live q ∧
    syscallWaitpid S q z = .ok (z, some (S.procs z).exitStatus, reap (waitFor S q none) z)

/-- Every slot is free, in use, or will be free when a living process asks for it. -/
structure NoSlotLost (S : Sched) : Prop where
  reapable : ∀ z, S.Dead z → Reapable S z
  released : ∀ z, (S.procs z).exited = true →
    (∀ q, (S.procs z).parentPid = some q → ¬ S.Live q) → (S.procs z).exists_ = false
  full : ∀ p r S', syscallFork S p r = .ok (-EAGAIN, S') →
    ∀ z, 1 ≤ z → z < MAX_PROCESSES → S.Live z ∨ S.Dead z ∧ Reapable S z

/-- The process that dies in an event. -/
def Event.victim (S : Sched) : Event → Option ℕ
  | .call _ (.exit _) => S.current
  | .call _ (.kill pid) =>
    if 0 ≤ pid ∧ pid < MAX_PROCESSES ∧ (S.procs pid.toNat).exists_ = true then some pid.toNat else none
  | .kill p => some p
  | _ => none

/-- A process that dies has reaped all its children that have exited. -/
def Event.LeavesNoZombie (S : Sched) (ev : Event) : Prop :=
  ∀ p, ev.victim S = some p → ∀ z, S.Dead z → (S.procs z).parentPid ≠ some p

/-! ### Exited processes and their parents -/

/-- Somebody is to reap every exited process. -/
def Claimed (S : Sched) : Prop := ∀ z, S.Dead z → (S.procs z).parentPid ≠ none

/-- The fields that decide who is to reap whom. -/
def SameKin (S S' : Sched) : Prop :=
  ∀ z, (S'.procs z).exists_ = (S.procs z).exists_ ∧ (S'.procs z).exited = (S.procs z).exited ∧
    (S'.procs z).parentPid = (S.procs z).parentPid

theorem SameKin.dead (h : SameKin S S') (z : ℕ) : S'.Dead z ↔ S.Dead z := by
  rw [Sched.Dead, Sched.Dead, (h z).1, (h z).2.1]

theorem SameKin.claimed (h : SameKin S S') : Claimed S' ↔ Claimed S := by
  constructor
  · intro hc z hz
    rw [← (h z).2.2]
    exact hc z ((h.dead z).mpr hz)
  · intro hc z hz
    rw [(h z).2.2]
    exact hc z ((h.dead z).mp hz)

theorem sameKin_of_sameLife (h : ∀ z, SameLife (S.procs z) (S'.procs z)) : SameKin S S' :=
  fun z => ⟨(h z).exists_, (h z).exited, (h z).parentPid⟩

theorem sameKin_enter (S : Sched) (p no : ℕ) : SameKin S (enter S p no) := by
  intro z
  rw [enter_proc]
  exact ⟨rfl, rfl, rfl⟩

theorem sameKin_exitStatus (S : Sched) (p : ℕ) (value : ℤ) :
    SameKin S (S.set p { S.procs p with exitStatus := value }) := by
  intro z
  rw [set_procs]
  by_cases hz : z = p
  · rw [hz, Function.update_self]
    exact ⟨rfl, rfl, rfl⟩
  · rw [Function.update_of_ne hz]
    exact ⟨rfl, rfl, rfl⟩

theorem sameKin_suspend (h : suspendProcess S p = .ok S') : SameKin S S' := by
  obtain ⟨-, -, rfl⟩ := suspendProcess_ok h
  intro z
  by_cases hz : z = p
  · simp [hz]
  · simp [hz]

theorem sameKin_resume (h : resumeProcess S p = .ok S') : SameKin S S' := by
  obtain ⟨-, -, rfl⟩ := resumeProcess_ok h
  intro z
  by_cases hz : z = p
  · simp [hz]
  · simp [hz]

/-- Nobody else has exited, and parents are what they were. -/
theorem Claimed.mono (h : Claimed S)
    (hdead : ∀ z, S'.Dead z → S.Dead z ∧ (S'.procs z).parentPid = (S.procs z).parentPid) :
    Claimed S' := by
  intro z hz
  obtain ⟨hz', hparent⟩ := hdead z hz
  rw [hparent]
  exact h z hz'

/-- A new process has not exited. -/
theorem Claimed.install {v : Proc} (h : Claimed S) (hexit : v.exited = false) :
    Claimed (install S p v) := by
  refine h.mono ?_
  intro z hz
  have hne : z ≠ p := by
    intro he
    have hx := hz.2
    rw [install_procs, he, Function.update_self] at hx
    rw [show ({ v with ready := true } : Proc).exited = v.exited from rfl, hexit] at hx
    cases hx
  rw [Sched.Dead, install_procs, Function.update_of_ne hne] at hz
  rw [install_procs, Function.update_of_ne hne]
  exact ⟨hz, rfl⟩

theorem Claimed.reap (h : Claimed S) (c : ℕ) : Claimed (reap S c) := by
  refine h.mono ?_
  intro z hz
  rw [Sched.Dead, reap_proc] at hz
  rw [reap_proc]
  refine ⟨⟨?_, hz.2⟩, rfl⟩
  have hex := hz.1
  by_cases hzc : z = c
  · simp [hzc] at hex
  · simpa [hzc] using hex

/-- **One death** leaves an exited process without a parent exactly if the parent is the one that dies. -/
theorem claimed_kill (hG : Good S) (h : Claimed S) (hp : (S.procs p).exists_ = true)
    (hok : killProcess S p = .ok S') :
    Claimed S' ↔ ∀ z, S.Dead z → (S.procs z).parentPid ≠ some p := by
  have hpid := hG.pid_eq hp
  obtain ⟨R, U, hI⟩ := hG
  have hprocs := (killProcess_ok hok).1
  constructor
  · intro hc z hz hparent
    have hlt := (hI.range z hz.1).2
    -- a dead process is nobody's parent, so `z` is not the one that dies
    have hne : z ≠ p := by
      intro he
      rw [he] at hz hparent
      exact hz.not_live (hI.parent_alive p hz.1 p hparent)
    have hdead : S'.Dead z := by
      rw [Sched.Dead, hprocs]
      simpa [buried, mourned, hne, Sched.Dead] using hz
    refine hc z hdead ?_
    rw [hprocs]
    simp [buried, mourned, hpid, hparent, hlt]
  · intro hall z hz hnone
    rw [Sched.Dead, hprocs] at hz
    rw [hprocs] at hnone
    by_cases hzp : z = p
    · -- the dying process keeps its slot only for a parent
      rw [hzp] at hz hnone
      have hex := hz.1
      have hsurvive : survivingParent S p = none := by
        rw [survivingParent_eq]
        exact hnone
      simp [buried, mourned, hsurvive] at hex
    · have hz' : S.Dead z := by simpa [buried, mourned, hzp, Sched.Dead] using hz
      have hparent := h z hz'
      have hparent' := hall z hz'
      simp only [buried, mourned, hpid] at hnone
      rw [if_neg (fun hc => hparent' hc.2)] at hnone
      exact hparent hnone

/-- `kill`, by whether its argument names a process. -/
theorem killCall_ok {pid res : ℤ} (h : syscallKill S p pid = .ok (res, S')) :
    ((0 ≤ pid ∧ pid < MAX_PROCESSES ∧ (S.procs pid.toNat).exists_ = true) →
        killProcess S pid.toNat = .ok S') ∧
      (¬ (0 ≤ pid ∧ pid < MAX_PROCESSES ∧ (S.procs pid.toNat).exists_ = true) → S' = S) := by
  unfold syscallKill at h
  split at h
  · rename_i hc
    cases h
    refine ⟨?_, fun _ => rfl⟩
    rintro ⟨h0, hlt, hex⟩
    rcases hc with hc | hc | hc
    · omega
    · omega
    · rw [hex] at hc
      cases hc
  · rename_i hc
    obtain ⟨S₁, hkill, hres⟩ := bind_eq_ok.mp h
    cases hres
    refine ⟨fun _ => hkill, fun hn => absurd ?_ hn⟩
    rw [not_or, not_or] at hc
    exact ⟨by omega, by omega, by simpa using hc.2.2⟩

/-! ### What a claim is worth -/

/-- The parent of an exited process can reap it. -/
theorem reapable_of_claimed (hG : Good S) (h : Claimed S) (hz : S.Dead z) : Reapable S z := by
  cases hparent : (S.procs z).parentPid with
  | none => exact absurd hparent (h z hz)
  | some q =>
    have hpid := fun hq => hG.pid_eq (p := q) hq
    obtain ⟨R, U, hI⟩ := hG
    have hlive := hI.parent_alive z hz.1 q hparent
    have hlt := (hI.range z hz.1).2
    refine ⟨q, hparent, hlive, ?_⟩
    have hrange : ¬ (0 > (z : ℤ) ∨ (MAX_PROCESSES : ℤ) ≤ z) := by
      omega
    unfold syscallWaitpid
    rw [if_neg hrange]
    simp only [Int.toNat_natCast, waitFor_proc]
    rw [if_neg]
    · rw [if_pos hz.2]
      rfl
    · rintro (hex | hne)
      · rw [hz.1] at hex
        cases hex
      · exact hne (by rw [hparent, hpid hlive.1])

theorem noSlotLost_iff (hG : Good S) : NoSlotLost S ↔ Claimed S := by
  constructor
  · intro h z hz hnone
    obtain ⟨q, hq, -⟩ := h.reapable z hz
    rw [hnone] at hq
    cases hq
  · intro h
    refine ⟨fun z hz => reapable_of_claimed hG h hz, ?_, ?_⟩
    · intro z hexit hparent
      cases hex : (S.procs z).exists_ with
      | false => rfl
      | true =>
        obtain ⟨q, hq, hlive, -⟩ := reapable_of_claimed hG h ⟨hex, hexit⟩
        exact absurd hlive (hparent q hq)
    · intro p r S' hfork z h1 hlt
      rcases syscallFork_ok hfork with ⟨hfree, -, -⟩ | ⟨child, -, hres, -⟩
      · -- no slot is free
        have hex : (S.procs z).exists_ = true := by
          have hnone := List.find?_eq_none.mp hfree z (List.mem_range'_1.mpr ⟨h1, by omega⟩)
          simpa using hnone
        cases hexit : (S.procs z).exited with
        | false => exact Or.inl ⟨hex, hexit⟩
        | true => exact Or.inr ⟨⟨hex, hexit⟩, reapable_of_claimed hG h ⟨hex, hexit⟩⟩
      · have hneg : (-EAGAIN : ℤ) < 0 := by decide
        omega

/-! ### Runs -/

theorem claimed_dispatch {r : Regs} {c : Call} {res : ℤ} {status : Option ℤ} (hG : Good S) (h : Claimed S)
    (hp : S.current = some p) (hc : c.Lifecycle) (hok : dispatch S p r c = .ok (res, status, S')) :
    Claimed S' ↔ (Event.call r c).LeavesNoZombie S := by
  have hlive := hG.current_live hp
  cases c with
  | fork =>
    have hnone : (Event.call r .fork).LeavesNoZombie S := by
      intro q hq
      cases hq
    refine iff_of_true ?_ hnone
    rcases syscallFork_ok (plain_eq_ok hok).1 with ⟨-, -, rfl⟩ | ⟨child, -, -, rfl⟩
    · exact h
    · exact h.install rfl
  | exit value =>
    obtain ⟨-, hkill⟩ := syscallExit_ok (plain_eq_ok hok).1
    have hsame := sameKin_exitStatus S p value
    have hG' : Good (S.set p { S.procs p with exitStatus := value }) :=
      hG.set ⟨rfl, rfl, rfl, rfl⟩ rfl
    rw [claimed_kill hG' (hsame.claimed.mpr h) (by rw [(hsame p).1]; exact hlive.1) hkill]
    constructor
    · intro hall q hq z hz
      obtain rfl : p = q := Option.some.inj (hp.symm.trans hq)
      rw [← (hsame z).2.2]
      exact hall z ((hsame.dead z).mpr hz)
    · intro hall z hz
      rw [(hsame z).2.2]
      exact hall p hp z ((hsame.dead z).mp hz)
  | kill pid =>
    by_cases hv : 0 ≤ pid ∧ pid < MAX_PROCESSES ∧ (S.procs pid.toNat).exists_ = true
    · have hkill := (killCall_ok (plain_eq_ok hok).1).1 hv
      have hvictim : (Event.call r (.kill pid)).victim S = some pid.toNat := if_pos hv
      rw [claimed_kill hG h hv.2.2 hkill]
      constructor
      · intro hall q hq
        obtain rfl : pid.toNat = q := Option.some.inj (hvictim.symm.trans hq)
        exact hall
      · intro hall
        exact hall _ hvictim
    · obtain rfl := (killCall_ok (plain_eq_ok hok).1).2 hv
      have hvictim : (Event.call r (.kill pid)).victim S' = none := if_neg hv
      refine iff_of_true h ?_
      intro q hq
      rw [hvictim] at hq
      cases hq
  | waitpid pid =>
    have hnone : (Event.call r (.waitpid pid)).LeavesNoZombie S := by
      intro q hq
      cases hq
    refine iff_of_true ?_ hnone
    have hsame : ∀ w, SameKin S (waitFor S p w) := by
      intro w z
      rw [waitFor_proc]
      exact ⟨rfl, rfl, rfl⟩
    rcases syscallWaitpid_ok hok with ⟨-, -, rfl | rfl⟩ | ⟨d, -, -, -, -, -, rfl⟩ |
      ⟨d, -, -, -, -, -, hsus⟩
    · exact h
    · exact (hsame none).claimed.mpr h
    · exact ((hsame none).claimed.mpr h).reap d
    · exact (sameKin_suspend hsus).claimed.mpr ((hsame (some d)).claimed.mpr h)
  | send valid box dest size => exact hc.elim
  | receive valid block => exact hc.elim

/-- **One event** loses a slot exactly if a process dies in it that has not reaped its exited children. -/
theorem claimed_exec {ev : Event} (hG : Good S) (h : Claimed S) (hev : ev.Lifecycle S)
    (hok : exec S ev = .ok S') : Claimed S' ↔ ev.LeavesNoZombie S := by
  cases ev with
  | start startAddress =>
    refine iff_of_true ?_ (fun q hq => by cases hq)
    cases hstart : startProcess S startAddress with
    | none =>
      rw [exec, hstart] at hok
      cases hok
      exact h
    | some x =>
      obtain ⟨pid, S₁⟩ := x
      rw [exec, hstart] at hok
      cases hok
      obtain ⟨-, rfl⟩ := startProcess_some hstart
      exact h.install rfl
  | call r c =>
    obtain ⟨⟨res, status, S₁⟩, h₁, h₂⟩ := bind_eq_ok.mp hok
    cases h₂
    obtain ⟨old, S₂, hold, hdis, rfl⟩ := syscall_ok h₁
    have hkin := sameKin_enter S old c.no
    have hleave := sameKin_of_sameLife fun z => ((leave_spec S₂ old c.no r res).1 z).1
    have hold' : (enter S old c.no).current = some old := hold
    rw [hleave.claimed, claimed_dispatch (hG.enter old c.no) (hkin.claimed.mpr h) hold' hev hdis]
    have hvictim : (Event.call r c).victim (enter S old c.no) = (Event.call r c).victim S := by
      cases c with
      | kill pid =>
        simp only [Event.victim]
        rw [(hkin pid.toNat).1]
      | exit value => rfl
      | fork => rfl
      | waitpid pid => rfl
      | send valid box dest size => rfl
      | receive valid block => rfl
    unfold Event.LeavesNoZombie
    rw [hvictim]
    constructor
    · intro hall p hp z hz
      rw [← (hkin z).2.2]
      exact hall p hp z ((hkin.dead z).mpr hz)
    · intro hall p hp z hz
      rw [(hkin z).2.2]
      exact hall p hp z ((hkin.dead z).mp hz)
  | switch r =>
    refine iff_of_true ?_ (fun q hq => by cases hq)
    cases hok
    exact (sameKin_of_sameLife fun z => ((contextSwitch_spec S r).1 z).1).claimed.mpr h
  | kill p =>
    rw [claimed_kill hG h hev hok]
    constructor
    · intro hall q hq
      obtain rfl : p = q := Option.some.inj hq
      exact hall
    · intro hall
      exact hall p rfl
  | suspend p =>
    exact iff_of_true ((sameKin_suspend hok).claimed.mpr h) (fun q hq => by cases hq)
  | resume p =>
    exact iff_of_true ((sameKin_resume hok).claimed.mpr h) (fun q hq => by cases hq)

theorem claimed_of_reachable (h : Reachable (fun S ev => ev.Lifecycle S ∧ ev.LeavesNoZombie S) S) :
    Good S ∧ Claimed S := by
  induction h with
  | boot =>
    refine ⟨good_boot, ?_⟩
    intro z hz
    cases hz.1
  | step ev _ hev hok ih =>
    exact ⟨ih.1.exec (Event.Lifecycle.orderly _ ev hev.1) hok,
      (claimed_exec ih.1 ih.2 hev.1 hok).mpr hev.2⟩

/-- **No slot is lost.**  In every run of process creation, death and reaping in which a process that dies has
reaped its exited children, every exited process can be reaped by a living parent, and `fork` fails only if all
slots are in use or reapable.  The first death of a process with an exited child ends that. -/
theorem slots_of_reachable (h : Reachable (fun S ev => ev.Lifecycle S ∧ ev.LeavesNoZombie S) S) :
    NoSlotLost S ∧ ∀ ev S', ev.Lifecycle S → exec S ev = .ok S' →
      (NoSlotLost S' ↔ ev.LeavesNoZombie S) := by
  obtain ⟨hG, hc⟩ := claimed_of_reachable h
  refine ⟨(noSlotLost_iff hG).mpr hc, ?_⟩
  intro ev S' hev hok
  rw [noSlotLost_iff (hG.exec (Event.Lifecycle.orderly S ev hev) hok)]
  exact claimed_exec hG hc hev hok

/-- A run in which process 1 forks process 2, kills it, and has not reaped it yet. -/
theorem slots_of_killed_child :
    ∃ S, Reachable (fun S ev => ev.Lifecycle S ∧ ev.LeavesNoZombie S) S ∧ S.Dead 2 ∧ NoSlotLost S := by
  have hnone : ∀ {S : Sched} {ev : Event}, ev.victim S = none → ev.LeavesNoZombie S := by
    intro S ev hv p hp
    rw [hv] at hp
    cases hp
  have h₁ := Reachable.step (P := fun S ev => ev.Lifecycle S ∧ ev.LeavesNoZombie S) (.start 0) .boot
    ⟨trivial, hnone rfl⟩ rfl
  have h₂ := h₁.step (.switch Regs.zero) ⟨trivial, hnone rfl⟩ rfl
  have h₃ := h₂.step (.call Regs.zero .fork) ⟨trivial, hnone rfl⟩ rfl
  have h₄ := h₃.step (.call Regs.zero (.kill 2)) ⟨trivial, ?_⟩ rfl
  · exact ⟨_, h₄, ⟨rfl, rfl⟩, (slots_of_reachable h₄).1⟩
  · -- nobody has exited before
    intro p _ z hz
    obtain ⟨R, U, hI⟩ := (claimed_of_reachable h₃).1
    have hlt := (hI.range z hz.1).2
    have hexit := hz.2
    interval_cases z <;> cases hexit

/-- **A lost slot.**  Process 1 forks process 2, kills it, and exits without having reaped it: process 2 is left in
its slot, exited and with no parent. -/
theorem slot_lost : ¬ ∀ S, Reachable Event.Lifecycle S → NoSlotLost S := by
  intro hall
  have h₁ := Reachable.step (P := Event.Lifecycle) (.start 0) .boot trivial rfl
  have h₂ := h₁.step (.switch Regs.zero) trivial rfl
  have h₃ := h₂.step (.call Regs.zero .fork) trivial rfl
  have h₄ := h₃.step (.call Regs.zero (.kill 2)) trivial rfl
  have h₅ := h₄.step (.call Regs.zero (.exit 0)) trivial rfl
  obtain ⟨q, hq, -⟩ := (hall _ h₅).reapable 2 ⟨rfl, rfl⟩
  cases hq

end AdelaideOS.Process
