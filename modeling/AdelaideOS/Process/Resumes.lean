import AdelaideOS.Process.Invariant

/-!
# Waking processes up

`Resumes W S S'` says that `S'` results from `S` by any number of calls of `resume_process` on processes in `W`.
The kernel wakes up the readers of pipes when it writes to a pipe or closes one.  `kill_process` closes the
descriptors of the dying process after it has taken that process off its list; a wake-up it causes may be
counted as happening before: **`resume_detach`**.
-/

namespace AdelaideOS.Process

open AdelaideOS.Lib.Dlist

inductive Resumes (W : ℕ → Prop) : Sched → Sched → Prop where
  | refl (S : Sched) : Resumes W S S
  | step {S S₁ S₂ : Sched} {q : ℕ} :
      Resumes W S S₁ → W q → resumeProcess S₁ q = .ok S₂ → Resumes W S S₂

variable {W : ℕ → Prop} {S S' : Sched} {p q : ℕ}

/-- Nothing but the `ready` flag of `p` changes in the table. -/
theorem resumeProcess_procs (h : resumeProcess S p = .ok S') :
    S'.procs = Function.update S.procs p { S.procs p with ready := true } ∧ S'.current = S.current := by
  obtain ⟨-, -, rfl⟩ := resumeProcess_ok h
  exact ⟨rfl, rfl⟩

/-! ### During a death -/

/-- A wake-up just after `p` has left its list can be made before. -/
theorem resume_detach (hG : Good S) (hq : S.Live q) (hne : q ≠ p)
    (hok : resumeProcess (detach S p) q = .ok S') :
    ∃ S₁, resumeProcess S q = .ok S₁ ∧ detach S₁ p = S' := by
  obtain ⟨R, U, hI⟩ := hG
  obtain ⟨hex, hready, hS'⟩ := resumeProcess_ok hok
  rw [detach_procs] at hex hready
  have hok₁ : resumeProcess S q =
      .ok (((S.set q { S.procs q with ready := true }).removeSuspended q).addReady q) := by
    simp only [resumeProcess, assert_pos hex, assert_pos hready, ok_bind]
    rfl
  refine ⟨_, hok₁, ?_⟩
  generalize hS₁ : ((S.set q { S.procs q with ready := true }).removeSuspended q).addReady q = S₁ at hok₁
  -- both orders leave the same nodes on the lists
  have hlayout₁ := (hI.resume hq hok₁).detached p
  rw [List.erase_cons_tail (by simpa using hne), List.erase_comm] at hlayout₁
  have hlayout' : Layout S'.links S'.ready S'.suspended (q :: R.erase p) ((U.erase p).erase q) := by
    have hdet := hI.detached p
    have hR : q ∉ R.erase p := by
      intro hmem
      rw [((hI.mem_ready q).mp (List.mem_of_mem_erase hmem)).2] at hready
      cases hready
    have hU : q ∉ (U.erase p).erase q := by
      rw [(hI.layout.suspended.nodup.erase p).mem_erase_iff]
      simp
    rw [hS']
    exact Layout.addReady (Layout.removeSuspended hdet hR) hR hU
  obtain ⟨hlinks, hr, hs⟩ := hlayout'.unique hlayout₁
  have hprocs : (detach S₁ p).procs = S'.procs := by
    rw [detach_procs, ← hS₁, hS', addReady_procs, removeSuspended_procs, set_procs, addReady_procs,
      removeSuspended_procs, set_procs, detach_procs]
  have hcur : (detach S₁ p).current = S'.current := by
    rw [detach_current, ← hS₁, hS', addReady_current, removeSuspended_current, set_current,
      addReady_current, removeSuspended_current, set_current, detach_current]
  cases hD : detach S₁ p with
  | mk procs links ready suspended current =>
    rw [hD] at hlinks hr hs hprocs hcur
    cases S' with
    | mk procs' links' ready' suspended' current' =>
      simp only at hlinks hr hs hprocs hcur
      rw [hlinks, hr, hs, hprocs, hcur]

end AdelaideOS.Process
