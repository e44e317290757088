import AdelaideOS.Process.Effects

/-!
# The invariant of the process lists

`Inv S A R U` says that the ready list is `R` and the suspended list `U`, with `A` the processes that count
as alive: alive processes are on the list that their `ready` flag names, all others have null pointers, and
the current process and every recorded parent are alive.  `A` is a parameter because `kill_process` takes
the process off its list long before it sets `exited`; between system calls `A` is `S.Live`.

Each operation of the scheduler has one lemma here that says how it moves `A`, `R` and `U`.
-/

namespace AdelaideOS.Process

open AdelaideOS.Lib.Dlist

structure Inv (S : Sched) (A : ℕ → Prop) (R U : List ℕ) : Prop where
  layout : Layout S.links S.ready S.suspended R U
  mem_ready : ∀ p, p ∈ R ↔ A p ∧ (S.procs p).ready = true
  mem_suspended : ∀ p, p ∈ U ↔ A p ∧ (S.procs p).ready = false
  alive_exists : ∀ p, A p → (S.procs p).exists_ = true
  current_alive : ∀ p, S.current = some p → A p
  pid_eq : ∀ p, (S.procs p).exists_ = true → (S.procs p).pid = p
  range : ∀ p, (S.procs p).exists_ = true → 1 ≤ p ∧ p < MAX_PROCESSES
  parent_alive : ∀ c, (S.procs c).exists_ = true → ∀ q, (S.procs c).parentPid = some q → A q

/-- The invariant between kernel entries. -/
def Good (S : Sched) : Prop := ∃ R U, Inv S S.Live R U

variable {S S' : Sched} {A A' : ℕ → Prop} {R U : List ℕ} {p q : ℕ}

/-- The fields that the invariant reads are the same in both entries. -/
def SameCore (v w : Proc) : Prop :=
  w.exists_ = v.exists_ ∧ w.ready = v.ready ∧ w.pid = v.pid ∧ w.parentPid = v.parentPid

theorem Inv.congr (h : Inv S A R U) (hlists : SameLists S S')
    (hcore : ∀ p, SameCore (S.procs p) (S'.procs p)) (hcur : ∀ p, S'.current = some p → A p)
    (hA : ∀ p, A p ↔ A' p) : Inv S' A' R U := by
  obtain ⟨hl, hr, hs⟩ := hlists
  obtain rfl : A = A' := funext fun p => propext (hA p)
  refine ⟨?_, ?_, ?_, ?_, hcur, ?_, ?_, ?_⟩
  · rw [hl, hr, hs]
    exact h.layout
  · intro p
    rw [(hcore p).2.1]
    exact h.mem_ready p
  · intro p
    rw [(hcore p).2.1]
    exact h.mem_suspended p
  · intro p hp
    rw [(hcore p).1]
    exact h.alive_exists p hp
  · intro p hp
    rw [(hcore p).1] at hp
    rw [(hcore p).2.2.1]
    exact h.pid_eq p hp
  · intro p hp
    rw [(hcore p).1] at hp
    exact h.range p hp
  · intro c hc q hq
    rw [(hcore c).1] at hc
    rw [(hcore c).2.2.2] at hq
    exact h.parent_alive c hc q hq

/-- Assigning an entry without touching the fields the invariant reads. -/
theorem Inv.set {v : Proc} (h : Inv S A R U) (hv : SameCore (S.procs p) v) :
    Inv (S.set p v) A R U := by
  refine h.congr ⟨rfl, rfl, rfl⟩ ?_ h.current_alive (fun _ => Iff.rfl)
  intro q
  by_cases hq : q = p
  · rw [hq, set_procs, Function.update_self]
    exact hv
  · rw [set_procs, Function.update_of_ne hq]
    exact ⟨rfl, rfl, rfl, rfl⟩

/-- The same between kernel entries. -/
theorem Good.set {v : Proc} (h : Good S) (hv : SameCore (S.procs p) v)
    (hex : v.exited = (S.procs p).exited) : Good (S.set p v) := by
  obtain ⟨R, U, hI⟩ := h
  refine ⟨R, U, (hI.set hv).congr ⟨rfl, rfl, rfl⟩ (fun _ => ⟨rfl, rfl, rfl, rfl⟩)
    (hI.set hv).current_alive ?_⟩
  intro q
  by_cases hq : q = p
  · simp [Sched.Live, hq, hex, hv.1]
  · simp [Sched.Live, Function.update_of_ne hq]

/-- Entries may change in the fields that `SameLife` leaves free, and the current process to one that is
alive. -/
theorem Good.congr (h : Good S) (hlists : SameLists S S')
    (htable : ∀ q, SameLife (S.procs q) (S'.procs q))
    (hcur : ∀ p, S'.current = some p → S.Live p) : Good S' := by
  obtain ⟨R, U, hI⟩ := h
  refine ⟨R, U, hI.congr hlists ?_ hcur ?_⟩
  · intro q
    exact ⟨(htable q).exists_, (htable q).ready, (htable q).pid, (htable q).parentPid⟩
  · intro q
    rw [Sched.Live, Sched.Live, (htable q).exists_, (htable q).exited]

theorem Good.current_live (h : Good S) (hp : S.current = some p) : S.Live p := by
  obtain ⟨R, U, hI⟩ := h
  exact hI.current_alive p hp

theorem Good.pid_eq (h : Good S) (hp : (S.procs p).exists_ = true) : (S.procs p).pid = p := by
  obtain ⟨R, U, hI⟩ := h
  exact hI.pid_eq p hp

/-- The scheduler chooses a ready process. -/
theorem Inv.pickNext_mem (h : Inv S A R U) (hq : pickNext S = some q) : q ∈ R := by
  unfold pickNext at hq
  split at hq
  · rename_i p hp
    split at hq
    · rename_i hready
      have hpR : p ∈ R := (h.mem_ready p).mpr ⟨h.current_alive p hp, hready⟩
      cases hnext : S.links.next p with
      | none =>
        rw [hnext] at hq
        exact h.layout.ready.first_mem hq
      | some n =>
        rw [hnext] at hq
        obtain rfl : n = q := Option.some.inj hq
        exact h.layout.ready.next_mem hpR hnext
    · exact h.layout.ready.first_mem hq
  · exact h.layout.ready.first_mem hq

theorem Good.pickNext_live (h : Good S) (hq : pickNext S = some q) :
    S.Live q ∧ (S.procs q).ready = true := by
  obtain ⟨R, U, hI⟩ := h
  exact (hI.mem_ready q).mp (hI.pickNext_mem hq)

theorem Good.contextSwitch (h : Good S) (r : Regs) : Good (contextSwitch S r) := by
  obtain ⟨htable, hlists, hcur⟩ := contextSwitch_spec S r
  refine h.congr hlists (fun q => (htable q).1) ?_
  intro q hq
  rw [hcur] at hq
  exact (h.pickNext_live hq).1

theorem Good.leave (h : Good S) (old no : ℕ) (r : Regs) (res : ℤ) : Good (leave S old no r res) := by
  obtain ⟨htable, hlists, hcur⟩ := leave_spec S old no r res
  refine h.congr hlists (fun q => (htable q).1) ?_
  intro q hq
  rw [hcur] at hq
  split at hq
  · exact (h.pickNext_live hq).1
  · exact h.current_live hq

/-! ### Boot and creation -/

theorem good_boot : Good Sched.boot := by
  refine ⟨[], [], ⟨isDlist_nil _, isDlist_nil _, by simp, fun _ _ _ => ⟨rfl, rfl⟩⟩, ?_, ?_, ?_, ?_,
    ?_, ?_, ?_⟩ <;> simp [Sched.boot, Sched.Live, Proc.zero]

theorem Inv.not_mem (h : Inv S A R U) (hp : ¬ A p) : p ∉ R ∧ p ∉ U :=
  ⟨fun h' => hp ((h.mem_ready p).mp h').1, fun h' => hp ((h.mem_suspended p).mp h').1⟩

/-- **Creation.**  A fresh entry with a living parent, or none, joins the ready list. -/
theorem Good.install {v : Proc} (h : Good S) (hp : getFreePid S = some p)
    (hpid : v.pid = p) (hex : v.exists_ = true) (hexit : v.exited = false)
    (hparent : ∀ q, v.parentPid = some q → S.Live q) : Good (install S p v) := by
  obtain ⟨R, U, hI⟩ := h
  obtain ⟨h1, h32, hfree⟩ := getFreePid_spec hp
  have hdead : ¬ S.Live p := by
    intro hlive
    rw [hlive.1] at hfree
    cases hfree
  have hlive : ∀ q, (Process.install S p v).Live q ↔ q = p ∨ S.Live q := by
    intro q
    by_cases hq : q = p
    · simp [Sched.Live, hq, hex, hexit]
    · simp [Sched.Live, hq]
  obtain ⟨hR, hU⟩ := hI.not_mem hdead
  refine ⟨p :: R, U, install_layout hI.layout hR hU, ?_, ?_, ?_, ?_, ?_, ?_, ?_⟩
  · intro q
    rw [hlive, List.mem_cons, hI.mem_ready]
    by_cases hq : q = p
    · simp [hq]
    · simp [hq]
  · intro q
    rw [hlive, hI.mem_suspended]
    by_cases hq : q = p
    · simp [hq, hdead]
    · simp [hq]
  · intro q hq
    exact hq.1
  · intro q hq
    rw [hlive]
    exact Or.inr (hI.current_alive q hq)
  · intro q
    by_cases hq : q = p
    · simp [hq, hpid]
    · simpa [hq] using hI.pid_eq q
  · intro q
    by_cases hq : q = p
    · rw [hq]
      exact fun _ => ⟨h1, h32⟩
    · simpa [hq] using hI.range q
  · intro c hc q hq
    rw [hlive]
    right
    by_cases hcp : c = p
    · apply hparent q
      simpa [hcp] using hq
    · simp only [install_procs, Function.update_of_ne hcp] at hc hq
      exact hI.parent_alive c hc q hq

/-! ### Moving between the lists -/

/-- **Suspension** moves a living ready process to the suspended list. -/
theorem Inv.suspend (h : Inv S A R U) (hp : A p) (hok : suspendProcess S p = .ok S') :
    Inv S' A (R.erase p) (p :: U) := by
  obtain ⟨hex, hready, rfl⟩ := suspendProcess_ok hok
  have hU : p ∉ U := by
    rw [h.mem_suspended, hready]
    simp
  have hnd := h.layout.ready.nodup
  have hR : p ∉ R.erase p := by
    rw [hnd.mem_erase_iff]
    simp
  refine ⟨Layout.addSuspended (Layout.removeReady h.layout hU) hR hU, ?_, ?_, ?_,
    h.current_alive, ?_, ?_, ?_⟩
  · intro q
    rw [hnd.mem_erase_iff, h.mem_ready]
    by_cases hq : q = p <;> simp [hq]
  · intro q
    rw [List.mem_cons, h.mem_suspended]
    by_cases hq : q = p <;> simp [hq, hp]
  · intro q hq
    by_cases hqp : q = p
    · simp [hqp, hex]
    · simpa [hqp] using h.alive_exists q hq
  · intro q
    by_cases hqp : q = p
    · simpa [hqp] using h.pid_eq p
    · simpa [hqp] using h.pid_eq q
  · intro q
    by_cases hqp : q = p
    · simpa [hqp] using h.range p
    · simpa [hqp] using h.range q
  · intro c
    by_cases hcp : c = p
    · simpa [hcp] using h.parent_alive p
    · simpa [hcp] using h.parent_alive c

/-- **Resumption** moves a living suspended process to the ready list. -/
theorem Inv.resume (h : Inv S A R U) (hp : A p) (hok : resumeProcess S p = .ok S') :
    Inv S' A (p :: R) (U.erase p) := by
  obtain ⟨hex, hready, rfl⟩ := resumeProcess_ok hok
  have hR : p ∉ R := by
    rw [h.mem_ready, hready]
    simp
  have hnd := h.layout.suspended.nodup
  have hU : p ∉ U.erase p := by
    rw [hnd.mem_erase_iff]
    simp
  refine ⟨Layout.addReady (Layout.removeSuspended h.layout hR) hR hU, ?_, ?_, ?_,
    h.current_alive, ?_, ?_, ?_⟩
  · intro q
    rw [List.mem_cons, h.mem_ready]
    by_cases hq : q = p <;> simp [hq, hp]
  · intro q
    rw [hnd.mem_erase_iff, h.mem_suspended]
    by_cases hq : q = p <;> simp [hq]
  · intro q hq
    by_cases hqp : q = p
    · simp [hqp, hex]
    · simpa [hqp] using h.alive_exists q hq
  · intro q
    by_cases hqp : q = p
    · simpa [hqp] using h.pid_eq p
    · simpa [hqp] using h.pid_eq q
  · intro q
    by_cases hqp : q = p
    · simpa [hqp] using h.range p
    · simpa [hqp] using h.range q
  · intro c
    by_cases hcp : c = p
    · simpa [hcp] using h.parent_alive p
    · simpa [hcp] using h.parent_alive c

/-! ### Death -/

/-- The processes that live on when `p` dies. -/
theorem live_of_buried (hprocs : S'.procs = buried S p) (q : ℕ) :
    S'.Live q ↔ S.Live q ∧ q ≠ p := by
  by_cases hq : q = p
  · simp [Sched.Live, hprocs, buried, hq]
  · simp [Sched.Live, hprocs, buried, mourned, hq]

/-- A woken parent is alive and is not the dying process. -/
theorem Inv.wakes_alive (h : Inv S A R U) (hp : (S.procs p).exists_ = true) (hw : Wakes S p q) :
    A q ∧ q ≠ p := by
  have hparent := hw.1
  rw [survivingParent_eq] at hparent
  split at hparent
  · cases hparent
  · rename_i hne
    refine ⟨h.parent_alive p hp q hparent, ?_⟩
    intro hq
    apply hne
    rw [h.pid_eq p hp, hparent, hq]
    exact ⟨(h.range p hp).2, rfl⟩

/-- The parts of the invariant that do not speak of the lists survive a death. -/
theorem Inv.of_buried {R' U' : List ℕ} (h : Inv S S.Live R U) (hp : (S.procs p).exists_ = true)
    (hprocs : S'.procs = buried S p)
    (hcur : S'.current = if S.current = some p then none else S.current)
    (hlayout : Layout S'.links S'.ready S'.suspended R' U')
    (hR : ∀ q, q ∈ R' ↔ Wakes S p q ∨ q ≠ p ∧ q ∈ R)
    (hU : ∀ q, q ∈ U' ↔ q ≠ p ∧ q ∈ U ∧ ¬ Wakes S p q) : Inv S' S'.Live R' U' := by
  have hlive := live_of_buried hprocs
  refine ⟨hlayout, ?_, ?_, ?_, ?_, ?_, ?_, ?_⟩
  · intro q
    rw [hR, hlive, h.mem_ready, hprocs]
    by_cases hw : Wakes S p q
    · simp [buried, mourned, hw, h.wakes_alive hp hw]
    · simp only [buried, mourned, hw, if_false]
      tauto
  · intro q
    rw [hU, hlive, h.mem_suspended, hprocs]
    by_cases hw : Wakes S p q
    · simp [buried, mourned, hw]
    · simp only [buried, mourned, hw, if_false]
      tauto
  · intro q hq
    exact hq.1
  · intro q hq
    rw [hcur] at hq
    split at hq
    · cases hq
    · rename_i hne
      rw [hlive]
      refine ⟨h.current_alive q hq, ?_⟩
      intro hqp
      exact hne (by rw [hq, hqp])
  · intro q hq
    rw [hprocs] at hq ⊢
    simp only [buried, mourned] at hq ⊢
    split at hq
    · cases hq
    · exact h.pid_eq q hq
  · intro q hq
    rw [hprocs] at hq
    simp only [buried, mourned] at hq
    split at hq
    · cases hq
    · exact h.range q hq
  · intro c hc q hq
    rw [hprocs] at hc hq
    simp only [buried, mourned] at hc hq
    rw [hlive]
    split at hc
    · cases hc
    · split at hq
      · cases hq
      · rename_i hne
        refine ⟨h.parent_alive c hc q hq, ?_⟩
        intro hqp
        apply hne
        rw [h.pid_eq p hp, hq, hqp]
        exact ⟨(h.range c hc).2, rfl⟩

/-- The dying process leaves its list. -/
theorem Inv.detached (h : Inv S A R U) (p : ℕ) :
    Layout (detach S p).links (detach S p).ready (detach S p).suspended (R.erase p) (U.erase p) := by
  apply detach_layout h.layout
  · intro hr hR
    rw [((h.mem_ready p).mp hR).2] at hr
    cases hr
  · intro hr hU
    rw [((h.mem_suspended p).mp hU).2] at hr
    cases hr

/-- **Death.**  Killing an existing process, whether it has exited before or not, keeps the invariant. -/
theorem Good.kill (h : Good S) (hp : (S.procs p).exists_ = true) (hok : killProcess S p = .ok S') :
    Good S' := by
  obtain ⟨R, U, hI⟩ := h
  obtain ⟨hprocs, hcur⟩ := killProcess_ok hok
  have hdetached := hI.detached p
  have hmemR : ∀ q, q ∈ R.erase p ↔ q ≠ p ∧ q ∈ R := fun q => hI.layout.ready.nodup.mem_erase_iff
  have hmemU : ∀ q, q ∈ U.erase p ↔ q ≠ p ∧ q ∈ U :=
    fun q => hI.layout.suspended.nodup.mem_erase_iff
  obtain ⟨-, -, hlists⟩ := bury_ok hok
  rcases hlists with ⟨hnone, hl, hr, hs⟩ | ⟨w, hw, -, hready, hl, hr, hs⟩
  · refine ⟨R.erase p, U.erase p, hI.of_buried hp hprocs hcur ?_ ?_ ?_⟩
    · rw [hl, hr, hs]
      exact hdetached
    · intro q
      have hq : ¬ Wakes S p q := fun hq => hnone q ((wakes_detach S p q).mpr hq)
      rw [hmemR]
      simp [hq]
    · intro q
      have hq : ¬ Wakes S p q := fun hq => hnone q ((wakes_detach S p q).mpr hq)
      rw [hmemU]
      simp [hq]
  · rw [wakes_detach] at hw
    rw [detach_procs] at hready
    have hwR : w ∉ R.erase p := by
      intro hmem
      rw [((hI.mem_ready w).mp (List.mem_of_mem_erase hmem)).2] at hready
      cases hready
    have hnd : (U.erase p).Nodup := hI.layout.suspended.nodup.erase p
    have hwU : w ∉ (U.erase p).erase w := by
      rw [hnd.mem_erase_iff]
      simp
    have hiff : ∀ q, Wakes S p q ↔ q = w := by
      intro q
      constructor
      · intro hq
        exact hq.unique hw
      · rintro rfl
        exact hw
    refine ⟨w :: R.erase p, (U.erase p).erase w, hI.of_buried hp hprocs hcur ?_ ?_ ?_⟩
    · rw [hl, hr, hs]
      exact Layout.addReady (Layout.removeSuspended hdetached hwR) hwR hwU
    · intro q
      rw [List.mem_cons, hmemR, hiff]
    · intro q
      rw [hnd.mem_erase_iff, hmemU, hiff]
      tauto

/-! ### System calls -/

theorem Good.suspend (h : Good S) (hp : S.Live p) (hok : suspendProcess S p = .ok S') : Good S' := by
  obtain ⟨R, U, hI⟩ := h
  have hI' := hI.suspend hp hok
  obtain ⟨-, -, rfl⟩ := suspendProcess_ok hok
  refine ⟨_, _, hI'.congr ⟨rfl, rfl, rfl⟩ (fun _ => ⟨rfl, rfl, rfl, rfl⟩) hI'.current_alive ?_⟩
  intro q
  by_cases hq : q = p <;> simp [Sched.Live, hq]

theorem Good.resume (h : Good S) (hp : S.Live p) (hok : resumeProcess S p = .ok S') : Good S' := by
  obtain ⟨R, U, hI⟩ := h
  have hI' := hI.resume hp hok
  obtain ⟨-, -, rfl⟩ := resumeProcess_ok hok
  refine ⟨_, _, hI'.congr ⟨rfl, rfl, rfl⟩ (fun _ => ⟨rfl, rfl, rfl, rfl⟩) hI'.current_alive ?_⟩
  intro q
  by_cases hq : q = p <;> simp [Sched.Live, hq]

/-- Releasing the slot of an exited process. -/
theorem Good.reap {c : ℕ} (h : Good S) (hc : (S.procs c).exited = true) : Good (reap S c) := by
  obtain ⟨R, U, hI⟩ := h
  have hlive : ∀ q, (Process.reap S c).Live q ↔ S.Live q := by
    intro q
    by_cases hq : q = c
    · simp [Sched.Live, reap_proc, hq, hc]
    · simp [Sched.Live, reap_proc, hq]
  have hexists : ∀ q, ((Process.reap S c).procs q).exists_ = true → (S.procs q).exists_ = true := by
    intro q
    by_cases hq : q = c <;> simp [reap_proc, hq]
  refine ⟨R, U, hI.layout, ?_, ?_, ?_, ?_, ?_, ?_, ?_⟩
  · intro q
    rw [hlive, reap_proc]
    exact hI.mem_ready q
  · intro q
    rw [hlive, reap_proc]
    exact hI.mem_suspended q
  · intro q hq
    exact hq.1
  · intro q hq
    rw [hlive]
    exact hI.current_alive q hq
  · intro q hq
    rw [reap_proc]
    exact hI.pid_eq q (hexists q hq)
  · intro q hq
    exact hI.range q (hexists q hq)
  · intro d hd q hq
    rw [hlive]
    rw [reap_proc] at hq
    exact hI.parent_alive d (hexists d hd) q hq

theorem Good.waitFor (h : Good S) (p : ℕ) (w : Option ℕ) : Good (waitFor S p w) :=
  h.set ⟨rfl, rfl, rfl, rfl⟩ rfl

variable {res : ℤ} {status : Option ℤ}

theorem Good.fork {r : Regs} (h : Good S) (hp : S.Live p) (hok : syscallFork S p r = .ok (res, S')) :
    Good S' := by
  rcases syscallFork_ok hok with ⟨-, -, rfl⟩ | ⟨child, hfree, -, rfl⟩
  · exact h
  · refine h.install hfree rfl rfl rfl ?_
    intro q hq
    have hpq : p = q := by
      rw [← h.pid_eq hp.1]
      exact Option.some.inj hq
    rw [← hpq]
    exact hp

theorem Good.exit {value : ℤ} (h : Good S) (hp : S.Live p)
    (hok : syscallExit S p value = .ok (res, S')) : Good S' := by
  obtain ⟨-, hkill⟩ := syscallExit_ok hok
  have hG : Good (S.set p { S.procs p with exitStatus := value }) :=
    h.set ⟨rfl, rfl, rfl, rfl⟩ rfl
  refine hG.kill ?_ hkill
  rw [set_procs, Function.update_self]
  exact hp.1

theorem Good.killCall {pid : ℤ} (h : Good S) (hok : syscallKill S p pid = .ok (res, S')) :
    Good S' := by
  rcases syscallKill_ok hok with ⟨-, rfl⟩ | ⟨t, -, -, hex, -, hkill⟩
  · exact h
  · exact h.kill hex hkill

theorem Good.waitpid {pid : ℤ} (h : Good S) (hp : S.Live p)
    (hok : syscallWaitpid S p pid = .ok (res, status, S')) : Good S' := by
  rcases syscallWaitpid_ok hok with ⟨-, -, hS⟩ | ⟨d, -, -, hexit, -, -, rfl⟩ |
    ⟨d, -, -, -, -, -, hsus⟩
  · rcases hS with rfl | rfl
    · exact h
    · exact h.waitFor p none
  · refine (h.waitFor p none).reap ?_
    rw [waitFor_proc]
    exact hexit
  · refine (h.waitFor p (some d)).suspend ?_ hsus
    rw [Sched.Live, waitFor_proc]
    exact hp

/-- A `send` that is accepted on behalf of an exited process that is marked as blocked in `receive`. -/
def SendsToDead (S : Sched) (valid : Bool) (dest : ℤ) (size : ℕ) : Prop :=
  Accepted S valid dest size ∧ (S.procs dest.toNat).exited = true ∧
    (S.procs dest.toNat).receiveBlocked = true

theorem Good.send {valid : Bool} {box size : ℕ} {dest : ℤ} (h : Good S)
    (hdest : ¬ SendsToDead S valid dest size)
    (hok : syscallSend S valid box dest size = .ok (res, S')) : Good S' := by
  rcases syscallSend_ok hok with rfl | ⟨hacc, d, rfl, hcases⟩
  · exact h
  · have hsame := sameLife_accept (S.procs d) box
    have hG : Good (S.set d (accept (S.procs d) box)) :=
      h.set ⟨hsame.exists_, hsame.ready, hsame.pid, hsame.parentPid⟩ hsame.exited
    rcases hcases with ⟨-, rfl⟩ | ⟨hblocked, S₂, hres, rfl⟩
    · exact hG
    · have hlive : (S.procs d).exited = false := by
        rw [← Bool.not_eq_true]
        exact fun hexit => hdest ⟨hacc, hexit, hblocked⟩
      refine (hG.resume ?_ hres).set ⟨rfl, rfl, rfl, rfl⟩ rfl
      rw [Sched.Live, set_procs, Function.update_self, hsame.exists_, hsame.exited]
      exact ⟨hacc.2.2.2.1, hlive⟩

theorem Good.receive {valid block : Bool} (h : Good S) (hp : S.Live p)
    (hok : syscallReceive S p valid block = .ok (res, S')) : Good S' := by
  rcases syscallReceive_ok hok with rfl | rfl | ⟨-, hsus⟩
  · exact h
  · exact h.set ⟨rfl, rfl, rfl, rfl⟩ rfl
  · have hG : Good (S.set p { S.procs p with receiveBlocked := true }) :=
      h.set ⟨rfl, rfl, rfl, rfl⟩ rfl
    refine hG.suspend ?_ hsus
    rw [Sched.Live, set_procs, Function.update_self]
    exact hp

/-- The call does not send to the dead. -/
def Call.Sound (S : Sched) : Call → Prop
  | .send valid _ dest size => ¬ SendsToDead S valid dest size
  | _ => True

/-- **Dispatch.**  Every handler keeps the invariant. -/
theorem Good.dispatch {r : Regs} {c : Call} (h : Good S) (hp : S.Live p) (hc : c.Sound S)
    (hok : dispatch S p r c = .ok (res, status, S')) : Good S' := by
  cases c with
  | fork => exact h.fork hp (plain_eq_ok hok).1
  | exit value => exact h.exit hp (plain_eq_ok hok).1
  | kill pid => exact h.killCall (plain_eq_ok hok).1
  | waitpid pid => exact h.waitpid hp hok
  | send valid box dest size => exact h.send hc (plain_eq_ok hok).1
  | receive valid block => exact h.receive hp (plain_eq_ok hok).1

theorem Good.enter (h : Good S) (p no : ℕ) : Good (enter S p no) :=
  h.set ⟨rfl, rfl, rfl, rfl⟩ rfl

theorem live_enter (S : Sched) (p no q : ℕ) : (enter S p no).Live q ↔ S.Live q := by
  rw [Sched.Live, Sched.Live, enter_proc]

/-- Whether a call is sound does not depend on `in_syscall`. -/
theorem Call.Sound.enter {c : Call} (h : c.Sound S) (p no : ℕ) : c.Sound (enter S p no) := by
  cases c with
  | send valid box dest size =>
    intro hdead
    apply h
    unfold SendsToDead Accepted at hdead
    simp only [enter_proc] at hdead
    exact hdead
  | fork => trivial
  | exit value => trivial
  | kill pid => trivial
  | waitpid pid => trivial
  | receive valid block => trivial

/-- **System calls** keep the invariant. -/
theorem Good.syscall {r : Regs} {c : Call} (h : Good S) (hc : c.Sound S)
    (hok : syscall S r c = .ok (res, status, S')) : Good S' := by
  obtain ⟨old, S₁, hold, hdis, rfl⟩ := syscall_ok hok
  have hlive := (live_enter S old c.no old).mpr (h.current_live hold)
  exact ((h.enter old c.no).dispatch hlive (hc.enter old c.no) hdis).leave old c.no r res

end AdelaideOS.Process
