import AdelaideOS.Kernel.Advance

/-!
# Who sees memory of the kernel

`Lineage m n B k forked` is a history that leads to `k`, with a record that says for each process number whether `fork`
created its latest owner.  Its inputs are those of a `Run` that are `Fair` and `Modest`: any system call with any arguments,
but `kill` and `send` are aimed at processes that can still be killed and written to, and `brk` stays within
`PROCESS_DATA_MAX`.  It ends where `waitpid` would store through a status pointer into memory of the kernel.

* **`Lineage.run`**, **`Run.lineage`** — the runs are the same;
* **`confidential_iff`** — memory of the kernel is hidden from a process unless `fork` created it.
-/

namespace AdelaideOS.Kernel

open AdelaideOS.Buddy AdelaideOS.Lib.Bytes AdelaideOS.Page AdelaideOS.Process

inductive Lineage (m : Machine) : Notes → Books → State → (ℕ → Bool) → Prop where
  | boot (mem bytes : Memory) (blocks : ℕ → Blockinfo) :
      Lineage m Notes.boot Books.boot (State.boot mem bytes blocks) fun _ => false
  | step {n : Notes} {B : Books} {k k' : State} {forked : ℕ → Bool} (i : Input) : Lineage m n B k forked →
      i.Fair n k → i.Modest → react m n.input i k = .ok () k' →
      Lineage m (n.next i k k') (B.next m n i k k') k' (i.origin k forked)

variable {m : Machine} {n : Notes} {B : Books} {k : State} {forked : ℕ → Bool} {p : ℕ}

theorem Lineage.run (h : Lineage m n B k forked) : Run m (fun n k i => i.Fair n k ∧ i.Modest) n B k := by
  induction h with
  | boot mem bytes blocks => exact .boot mem bytes blocks
  | step i _ hfair hmodest hok ih => exact ih.step i ⟨hfair, hmodest⟩ hok

/-- Every run can be recorded. -/
theorem Run.lineage (h : Run m (fun n k i => i.Fair n k ∧ i.Modest) n B k) : ∃ forked, Lineage m n B k forked := by
  induction h with
  | boot mem bytes blocks => exact ⟨_, .boot mem bytes blocks⟩
  | step i _ hi hok ih =>
    obtain ⟨forked, h⟩ := ih
    exact ⟨_, h.step i hi.1 hi.2 hok⟩

/-- **Every run** leaves the address spaces in order, with the kernel mappings that the record gives them. -/
theorem Lineage.safe (h : Lineage m n B k forked) : ∃ asp, Safe m forked k.sched k.pages k.space asp := by
  induction h with
  | boot mem bytes blocks =>
    obtain ⟨-, asp, hsafe⟩ := inv_boot (m := m) mem bytes blocks
    exact ⟨asp, hsafe⟩
  | step i hline hfair hmodest hok ih =>
    obtain ⟨asp, hsafe⟩ := ih
    have hrun' := hline.run.step i ⟨hfair, hmodest⟩ hok
    obtain ⟨-, -, C, hwhole, -⟩ := hrun'.standing fun _ _ _ hP => hP.1
    exact hsafe.react hwhole.good hfair hmodest hok

/-- **Memory of the kernel** is hidden from a process if and only if `start_process` created it. -/
theorem confidential_iff (h : Lineage m n B k forked) (hp : k.sched.Live p) :
    Confidential m k p ↔ forked p = false := by
  obtain ⟨asp, hsafe⟩ := h.safe
  constructor
  · -- the page at address 0 is never code
    intro hc
    by_contra hf
    rw [Bool.not_eq_false] at hf
    have hcode : ¬ (m.codeStart ≤ 0 ∧ 0 < m.codeEnd) := by
      have hlow := m.start_le
      simp only [MB] at hlow
      omega
    exact hc 0 (by decide) hcode (hsafe.exposed hp hf (by decide))
  · intro hf a ha hcode
    exact hsafe.hidden hp hf ha hcode

/-- **Two processes**: the first one is started and forks. -/
theorem lineage_fork : ∃ n B k forked, Lineage Machine.bare n B k forked ∧ k.sched = twoProcesses ∧
    forked 1 = false ∧ forked 2 = true := by
  let k₀ := State.boot (fun _ => 0) (fun _ => 0) fun _ => ⟨0, false⟩
  have h₀ : Lineage Machine.bare Notes.boot Books.boot k₀ fun _ => false := .boot _ _ _
  obtain ⟨asp, hsafe⟩ := h₀.safe
  obtain ⟨k₁, hk₁, hs₁, hopen, -⟩ := perform_start (p := 1) hsafe rfl roomy_boot 0
  have h₁ := h₀.step (.event (.start 0)) trivial trivial hk₁
  let k₂ : State := { k₁ with sched := contextSwitch k₁.sched Regs.zero }
  have h₂ : Lineage Machine.bare _ _ k₂ _ := h₁.step (.event (.switch Regs.zero)) trivial trivial rfl
  have hs₂ : k₂.sched = oneProcess := by
    show contextSwitch k₁.sched Regs.zero = _
    rw [hs₁]
    rfl
  have hcur : k₂.sched.current = some 1 := by
    rw [hs₂]
    rfl
  have hfree : getFreePid k₂.sched = some 2 := by
    rw [hs₂]
    rfl
  obtain ⟨asp₂, hsafe₂⟩ := h₂.safe
  obtain ⟨k₃, hk₃, hs₃, -⟩ := perform_fork (r := forkRegs) [] hsafe₂ hcur rfl hfree hopen
  have h₃ := h₂.step (.event (.call forkRegs [])) (fair_fork _ _).1 (fair_fork Notes.boot k₂).2 hk₃
  refine ⟨_, _, k₃, _, h₃, ?_, ?_, ?_⟩
  · rw [hs₃, hs₂]
    rfl
  · show (Event.call forkRegs []).origin k₂ _ 1 = false
    simp only [Event.origin, if_pos (show forkRegs.eax = SYSCALL_FORK from rfl), hfree]
    rfl
  · show (Event.call forkRegs []).origin k₂ _ 2 = true
    simp only [Event.origin, if_pos (show forkRegs.eax = SYSCALL_FORK from rfl), hfree]
    rfl

/-- Memory of the kernel is hidden from the parent, and not from the child. -/
theorem confidential_parent : ∃ n B k forked, Lineage Machine.bare n B k forked ∧ k.sched.Live 1 ∧ k.sched.Live 2 ∧
    Confidential Machine.bare k 1 ∧ ¬ Confidential Machine.bare k 2 := by
  obtain ⟨n, B, k, forked, h, hs, hf₁, hf₂⟩ := lineage_fork
  have h1 : k.sched.Live 1 := by
    rw [hs]
    exact ⟨rfl, rfl⟩
  have h2 : k.sched.Live 2 := by
    rw [hs]
    exact ⟨rfl, rfl⟩
  refine ⟨n, B, k, forked, h, h1, h2, (confidential_iff h h1).mpr hf₁, fun hc => ?_⟩
  have hf := (confidential_iff h h2).mp hc
  rw [hf₂] at hf
  cases hf

/-- The child reads the kernel heap at 2 MB. -/
theorem heap_exposed : ∃ n B k forked, Lineage Machine.bare n B k forked ∧ k.sched.Live 2 ∧
    userAccessible k.pages.mem (k.space 2).pdir (2 * MB) ∧ ¬ Confidential Machine.bare k 2 := by
  obtain ⟨n, B, k, forked, h, hs, -, hf⟩ := lineage_fork
  have h2 : k.sched.Live 2 := by
    rw [hs]
    exact ⟨rfl, rfl⟩
  obtain ⟨asp, hsafe⟩ := h.safe
  have hacc := hsafe.exposed h2 hf (a := 2 * MB) (by decide)
  refine ⟨n, B, k, forked, h, h2, hacc, ?_⟩
  intro hc
  exact hc (2 * MB) (by decide) (by decide) hacc

end AdelaideOS.Kernel
