import AdelaideOS.Kernel.Effects
import AdelaideOS.Page.Access

/-!
# Handlers that create, change and end processes

How `start_process`, `fork`, `brk`, `execve`, `exit`, `kill` and `waitpid` move the core of the state.  Each
lemma names the operation on the scheduler and the operation on the pages that have to succeed.
-/

namespace AdelaideOS.Kernel

open AdelaideOS.Lib.Bytes AdelaideOS.Lib.Triple AdelaideOS.Page AdelaideOS.Process

variable {α : Type} {S : Sched} {P : Pages} {sp : ℕ → Space} {p : ℕ}

/-! ### Moving the core -/

theorem onPages_core (f : Pages → Except Fault (α × Pages)) :
    Sat (Core S P sp) (onPages f) (fun a k => ∃ P', f P = .ok (a, P') ∧ Core S P' sp k) Stopped := by
  constructor
  intro k hk
  unfold onPages
  rw [hk.pages]
  cases hf : f P with
  | ok r => exact ⟨r.2, rfl, hk.sched, rfl, hk.space, hk.quiet⟩
  | error e => trivial

theorem schedDo_core (f : Sched → Except Fault Sched) :
    Sat (Core S P sp) (schedDo f) (fun _ k => ∃ S', f S = .ok S' ∧ Core S' P sp k) Stopped := by
  constructor
  intro k hk
  unfold schedDo
  rw [hk.sched]
  cases hf : f S with
  | ok S' => exact ⟨S', rfl, rfl, hk.pages, hk.space, hk.quiet⟩
  | error e => trivial

/-- An operation of the scheduler that cannot fail. -/
theorem schedDo_ok (f : Sched → Sched) :
    Sat (Core S P sp) (schedDo fun S => .ok (f S)) (fun _ => Core (f S) P sp) Stopped := by
  refine (schedDo_core _).post fun _ k => ?_
  rintro ⟨S', hS, hk⟩
  cases hS
  exact hk

theorem setSpace_core (s : Space) :
    Sat (Core S P sp) (setSpace p s) (fun _ => Core S P (Function.update sp p s)) Stopped := by
  apply Sat.modify
  intro k hk
  refine ⟨hk.sched, hk.pages, ?_, hk.quiet⟩
  show Function.update k.space p s = _
  rw [hk.space]

theorem calm_setCwd (p : ℕ) (path : List UInt8) : Calm (setCwd p path) :=
  calm_modify fun _ => ⟨rfl, rfl, rfl, rfl⟩

theorem calm_clearFds (p : ℕ) : Calm (clearFds p) := calm_modify fun _ => ⟨rfl, rfl, rfl, rfl⟩

/-! ### Creating -/

theorem startIn_core (m : Machine) (pid startAddress : ℕ) :
    Sat (Core S P sp) (startIn m pid startAddress)
      (fun _ k => ∃ pdir P', startPages m P = .ok (pdir, P') ∧
        Core (install S pid (startedProc pid startAddress)) P'
          (Function.update sp pid (initialSpace pdir)) k) Stopped := by
  unfold startIn
  refine (onPages_core _).bind fun pdir => Sat.exists fun P' => Sat.and fun hP => ?_
  refine (setSpace_core _).bind fun _ => (calm_clearFds pid _ _ _).bind fun _ => ?_
  refine (calm_openStandard pid _ _ _).bind fun _ => (calm_setCwd pid _ _ _ _).bind fun _ => ?_
  exact (schedDo_ok _).post fun _ k hk => ⟨pdir, P', hP, hk⟩

theorem forkIn_core (p child : ℕ) (r : Regs) :
    Sat (Core S P sp) (forkIn p child r)
      (fun _ k => ∃ pdir P', forkPages (sp p) P = .ok (pdir, P') ∧
        Core (install S child (forkedProc S p child r)) P'
          (Function.update sp child { sp p with pdir := pdir }) k) Stopped := by
  unfold forkIn
  refine Sat.get fun k₀ hk₀ => ?_
  rw [hk₀.space]
  refine (onPages_core _).bind fun pdir => Sat.exists fun P' => Sat.and fun hP => ?_
  refine (setSpace_core _).bind fun _ => (calm_clearFds child _ _ _).bind fun _ => ?_
  refine (calm_shareFds p child _ _ _ _).bind fun _ => (calm_setCwd child _ _ _ _).bind fun _ => ?_
  exact (schedDo_ok fun S => install S child (forkedProc S p child r)).post
    fun _ k hk => ⟨pdir, P', hP, hk⟩

/-! ### Ending -/

theorem killProcess_core (q : ℕ) :
    Sat (Core S P sp) (killProcess q)
      (fun _ k => ∃ S' P', Process.killProcess S q = .ok S' ∧ releasePages (sp q) P = .ok ((), P') ∧
        Core S' P' sp k) Stopped := by
  unfold killProcess
  refine (schedDo_ok _).bind fun _ => (calm_closeFds q _ _ _ _).bind fun _ => ?_
  refine Sat.get fun k₀ hk₀ => ?_
  rw [hk₀.space]
  refine (onPages_core _).bind fun u => Sat.exists fun P' => Sat.and fun hP => ?_
  have hbox : Calm (freeMailbox (k₀.sched.procs q).mailbox) := by
    cases (k₀.sched.procs q).mailbox with
    | none => exact calm_pure ()
    | some box => exact calm_kfree box
  refine (hbox _ _ _).bind fun _ => (schedDo_core _).post fun _ k => ?_
  rintro ⟨S', hS, hk⟩
  exact ⟨S', P', hS, hP, hk⟩

/-! ### Stores into user memory -/

theorem physical_eq_ok {k : State} {a x : ℕ} (h : physical k p a = .ok x) :
    translate k.pages.mem (k.space p).pdir a = some x ∧ PAGE_START ≤ x := by
  unfold physical at h
  split at h
  · cases h
  · rename_i y hy
    split at h
    · cases h
    · cases h
      exact ⟨hy, by omega⟩

/-- The core up to stores into the memory of process `p`. -/
def Scribbled (S : Sched) (P : Pages) (sp : ℕ → Space) (p : ℕ) (k : State) : Prop :=
  ∃ P', Scribbles (sp p).pdir P P' ∧ Core S P' sp k

theorem storeMapped_core (a : ℕ) (ha : a < wordSize) (b : UInt8) :
    Sat (Scribbled S P sp p) (storeMapped p a b) (fun _ => Scribbled S P sp p) Stopped := by
  constructor
  rintro k ⟨P', hP', hk⟩
  unfold storeMapped
  cases hx : physical k p a with
  | error e => trivial
  | ok x =>
    obtain ⟨htr, hlow⟩ := physical_eq_ok hx
    rw [hk.pages, hk.space] at htr
    refine ⟨_, hP'.step b ha htr hlow, hk.sched, ?_, hk.space, hk.quiet⟩
    show ({ k.pages with mem := Function.update k.pages.mem x b } : Pages) = _
    rw [hk.pages]

theorem offset_lt (a i : ℕ) : offset a i < wordSize := Nat.mod_lt _ (by decide)

theorem storeMappedBytes_core (a : ℕ) (bs : List UInt8) (i : ℕ) :
    Sat (Scribbled S P sp p) (storeMappedBytes p a bs i) (fun _ => Scribbled S P sp p) Stopped := by
  induction bs generalizing i with
  | nil => exact Sat.pure fun _ hk => hk
  | cons b bs ih => exact (storeMapped_core _ (offset_lt a i) b).bind fun _ => ih (i + 1)

/-- A calm computation does not see the stores. -/
theorem Calm.scribbled {m : K α} (hm : Calm m) :
    Sat (Scribbled S P sp p) m (fun _ => Scribbled S P sp p) Stopped :=
  Sat.exists fun P' => Sat.and fun hP' => (hm S P' sp).post fun _ _ hk => ⟨P', hP', hk⟩

theorem writeUserBytes_core (a : ℕ) (bs : List UInt8) (i : ℕ) :
    Sat (Scribbled S P sp p) (writeUserBytes p a bs i) (fun _ => Scribbled S P sp p) Stopped := by
  induction bs generalizing i with
  | nil => exact Sat.pure fun _ hk => hk
  | cons b bs ih =>
    refine Sat.bind ?_ fun _ => ih (i + 1)
    exact (calm_touch _).scribbled.bind fun _ => storeMapped_core _ (offset_lt a i) b

theorem Core.scribbled {k : State} (p : ℕ) (h : Core S P sp k) : Scribbled S P sp p k :=
  ⟨P, .refl P, h⟩

/-! ### Handlers -/

theorem syscallBrk_core (endDataSegment : ℕ) :
    Sat (Core S P sp) (syscallBrk p endDataSegment)
      (fun _ k => Core S P sp k ∨ (sp p).dataEnd < endDataSegment ∧
        ∃ P', mapNewPages P (sp p).pdir (sp p).dataEnd
            ((roundUp endDataSegment + wordSize - (sp p).dataEnd) % wordSize / PAGE_SIZE) = .ok P' ∧
          Core S P' (Function.update sp p { sp p with dataEnd := roundUp endDataSegment }) k)
      Stopped := by
  unfold syscallBrk
  refine Sat.get fun k₀ hk₀ => ?_
  rw [hk₀.space]
  refine Sat.ite (fun _ => Sat.pure fun _ hk => Or.inl hk) fun hlt => ?_
  refine (onPages_core _).bind fun u => Sat.exists fun P' => Sat.and fun hP => ?_
  refine (setSpace_core _).bind fun _ => Sat.pure fun k hk => Or.inr ⟨by omega, P', ?_, hk⟩
  obtain ⟨P₁, h₁, h₂⟩ := bind_eq_ok.mp hP
  cases h₂
  exact h₁

theorem execProgram_core (fs : Memory) (entry : ℕ) (args : List (List UInt8)) :
    Sat (Core S P sp) (execProgram fs p entry args)
      (fun _ k => ∃ P', execPages fs entry (sp p) P = .ok ((), P') ∧
        Scribbled S P' (Function.update sp p (execSpace fs entry (sp p))) p k) Stopped := by
  unfold execProgram
  refine (calm_buildArgs args _ _ _).bind fun argdata => Sat.get fun k₀ hk₀ => ?_
  rw [hk₀.space]
  refine (onPages_core _).bind fun u => Sat.exists fun P' => Sat.and fun hP => ?_
  refine (setSpace_core _).bind fun _ => Sat.get fun k₁ hk₁ => ?_
  have hstart : Sat (Core S P' (Function.update sp p (execSpace fs entry (sp p))))
      (storeMappedBytes p (PROCESS_STACK_BASE + wordSize - argdataSize args)
        (loadBytes k₁.heap.bytes argdata (argdataSize args)) 0)
      (fun _ => Scribbled S P' (Function.update sp p (execSpace fs entry (sp p))) p) Stopped :=
    (storeMappedBytes_core _ _ _).pre fun _ hk => hk.scribbled p
  refine hstart.bind fun _ => ((calm_kfree argdata).scribbled).bind fun _ => ?_
  exact Sat.pure fun k hk => ⟨P', hP, hk⟩

/-- `execve` fails without effect, or replaces the program. -/
theorem syscallExecve_core (fs : Memory) (filename argv : ℕ) (r : Regs) :
    Sat (Core S P sp) (syscallExecve fs p filename argv r)
      (fun _ k => Core S P sp k ∨ ∃ path entry P',
        getDirectoryEntry fs path = .ok (.ok entry) ∧ execPages fs entry (sp p) P = .ok ((), P') ∧
        Scribbled S P' (Function.update sp p (execSpace fs entry (sp p))) p k) Stopped := by
  unfold syscallExecve
  refine (calm_validString p filename _ _ _).bind fun valid => ?_
  refine Sat.ite (fun _ => ?_) fun _ => Sat.pure fun _ hk => Or.inl hk
  refine (calm_validArgv p argv _ _ _).bind fun ok => ?_
  refine Sat.ite (fun _ => ?_) fun _ => Sat.pure fun _ hk => Or.inl hk
  unfold execEntry
  refine (calm_userString p filename _ _ _).bind fun path => ?_
  have hlift : Sat (Core S P sp) (lift (getDirectoryEntry fs path))
      (fun found k => getDirectoryEntry fs path = .ok found ∧ Core S P sp k) Stopped := by
    constructor
    intro k hk
    cases hf : getDirectoryEntry fs path with
    | ok found => exact ⟨rfl, hk⟩
    | error e => trivial
  refine hlift.bind fun found => Sat.and fun hfound => ?_
  cases found with
  | error e => exact Sat.pure fun _ hk => Or.inl hk
  | ok entry =>
    refine Sat.ite (fun _ => Sat.pure fun _ hk => Or.inl hk) fun _ => ?_
    refine (calm_argStrings p argv _ _ _).bind fun args => (execProgram_core fs entry args).post fun _ k => ?_
    rintro ⟨P', hP, hk⟩
    exact Or.inr ⟨path, entry, P', hfound, hP, hk⟩

theorem syscallWaitpid_core (pid : ℤ) (status : ℕ) :
    Sat (Core S P sp) (syscallWaitpid p pid status)
      (fun res k => ∃ value S', Process.syscallWaitpid S p pid = .ok (res, value, S') ∧
        Scribbled S' P sp p k) Stopped := by
  unfold syscallWaitpid
  refine Sat.get fun k₀ hk₀ => ?_
  rw [hk₀.sched]
  have hlift : Sat (Core S P sp) (lift (Process.syscallWaitpid S p pid))
      (fun x k => Process.syscallWaitpid S p pid = .ok x ∧ Core S P sp k) Stopped := by
    constructor
    intro k hk
    cases hf : Process.syscallWaitpid S p pid with
    | ok x => exact ⟨rfl, hk⟩
    | error e => trivial
  refine hlift.bind fun x => Sat.and fun hx => ?_
  obtain ⟨res, value, S'⟩ := x
  have hstore : Sat (Core S P sp) (storeStatus p status value) (fun _ => Scribbled S P sp p)
      Stopped := by
    unfold storeStatus
    cases value with
    | none => exact Sat.pure fun _ hk => hk.scribbled p
    | some v =>
      refine Sat.ite (fun _ => Sat.pure fun _ hk => hk.scribbled p) fun _ => ?_
      exact (writeUserBytes_core _ _ _).pre fun _ hk => hk.scribbled p
  refine hstore.bind fun _ => Sat.bind (R := fun _ => Scribbled S' P sp p) (Sat.modify ?_)
    fun _ => Sat.pure fun k hk => ⟨value, S', hx, hk⟩
  rintro k ⟨P', hP', hk⟩
  exact ⟨P', hP', rfl, hk.pages, hk.space, hk.quiet⟩

end AdelaideOS.Kernel
