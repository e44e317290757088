import AdelaideOS.Kernel.Traps

/-!
# Addresses that lead into the kernel

Memory below 6 MB is mapped in every address space, and the kernel can write to all of it.  Two addresses of a caller are
not checked: the position of its argument block, and the `status` of `waitpid`.  Where one of them leads into memory of the
kernel, `physical` ends the run; the kernel itself goes on, and so does `syscallAt`.  A word of the argument block can then
be any word, for what the kernel keeps there is not modelled as bytes.  A status is stored where the pointer leads, if that
is a saved register in the table of processes; a store to another place in the kernel still ends the run.

* **`executesAt_eq`** — a call whose status does not lead into the kernel is served as in `dispatch`;
* **`syscallOnce_at`** — a level of `Traps` is one of these.
-/

namespace AdelaideOS.Kernel

open AdelaideOS.Lib.Bytes AdelaideOS.Lib.Triple AdelaideOS.Lib.View AdelaideOS.Page AdelaideOS.Process

/-! ### The table of processes in memory -/

/-- `sizeof(regs)`, which is packed. -/
abbrev REGS_SIZE : ℕ := 184

/-- `offsetof(process,saved_regs)`. -/
abbrev SAVED_REGS : ℕ := 8

/-- `sizeof(process)`: `pid`, `exists` and `saved_regs`, six words, 16 descriptors, the working directory, and 14 words. -/
abbrev PROCESS_SIZE : ℕ := 1360

/-- A word of a frame is overwritten. -/
def setWord (r : Regs) (i v : ℕ) : Regs :=
  if i < 27 then { r with fstate := r.fstate.set i v }
  else
    match i - 27 with
    | 0 => { r with gs := v }
    | 1 => { r with fs := v }
    | 2 => { r with es := v }
    | 3 => { r with ds := v }
    | 4 => { r with edi := v }
    | 5 => { r with esi := v }
    | 6 => { r with ebp := v }
    | 7 => { r with esp := v }
    | 8 => { r with ebx := v }
    | 9 => { r with edx := v }
    | 10 => { r with ecx := v }
    | 11 => { r with eax := v }
    | 12 => { r with intNo := v }
    | 13 => { r with errCode := v }
    | 14 => { r with eip := v }
    | 15 => { r with cs := v }
    | 16 => { r with eflags := v }
    | 17 => { r with useresp := v }
    | 18 => { r with ss := v }
    | _ => r

/-- Store the word `v` at the address `x`, if that is a word of the saved registers of a process.  `table` is the address
of `processes`. -/
def storeSaved (table : ℕ) (S : Sched) (x v : ℕ) : Option Sched :=
  let q := (x - table) / PROCESS_SIZE
  let off := (x - table) % PROCESS_SIZE
  if table ≤ x ∧ q < MAX_PROCESSES ∧ SAVED_REGS ≤ off ∧ off < SAVED_REGS + REGS_SIZE ∧ off % 4 = 0 then
    some (S.set q { S.procs q with savedRegs := setWord (S.procs q).savedRegs ((off - SAVED_REGS) / 4) v })
  else none

/-- The address of `processes[q].saved_regs.eip`. -/
def eipAddress (table q : ℕ) : ℕ := table + PROCESS_SIZE * q + SAVED_REGS + 4 * 41

/-! ### The code -/

/-- Where an address of process `p` leads, if that is memory of the kernel. -/
def kernelAddress (k : State) (p a : ℕ) : Option ℕ :=
  (translate k.pages.mem (k.space p).pdir a).filter (· < PAGE_START)

/-- Where `waitpid` would store the status in memory of the kernel. -/
def strayStatus (k : State) (p status : ℕ) : Option ℕ := if status = 0 then none else kernelAddress k p status

/-- `syscall_waitpid`, with stores into the table of processes.  The words that it can overwrite are none of those that it
reads and writes itself, so that it does not matter when it stores. -/
def waitpidAt (table p : ℕ) (pid : ℤ) (status : ℕ) : K ℤ := do
  let k ← get
  match Process.syscallWaitpid k.sched p pid, strayStatus k p status with
  | .ok (res, some v, S), some x =>
    match storeSaved table S x (ofInt v) with
    | some S => do
      touch ((List.range 4).map (offset status))
      schedDo fun _ => .ok S
      return res
    | none => throw .wildPointer
  | _, _ => Kernel.syscallWaitpid p pid status

/-- The `switch` of `syscall`. -/
def dispatchAt (m : Machine) (table p : ℕ) (r : Regs) (no : ℕ) (args : List ℕ) : K (ℤ × Regs) :=
  if no = SYSCALL_WAITPID then keep r (waitpidAt table p (toInt (args.getD 0 0)) (args.getD 1 0))
  else Kernel.dispatch m p r no args

/-- The part of `syscall` that executes the handler, on the words of the argument block. -/
def executesAt (m : Machine) (table p : ℕ) (r : Regs) (args : List ℕ) : K (ℤ × Regs) := do
  schedDo fun S => .ok (enter S p r.eax)
  dispatchAt m table p r r.eax args

/-- `syscall`, up to the next `syscall`, on the words of the argument block. -/
def syscallAt (m : Machine) (table : ℕ) (idle r : Regs) (args : List ℕ) : K Next := do
  let k ← get
  match k.sched.current with
  | none => throw (.assertion .syscall)
  | some old => do
    let (res, r') ← executesAt m table old r args
    finish idle old r.eax r' res

/-- The words of the argument block: those in the memory of the caller are what is there. -/
structure Fetched (k : State) (p : ℕ) (r : Regs) (args : List ℕ) : Prop where
  length : args.length = arity r.eax
  mapped : ∀ i < 4 * arity r.eax, translate k.pages.mem (k.space p).pdir (offset r.useresp (4 + i)) ≠ none
  words : ∀ i < arity r.eax, (∀ j < 4, kernelAddress k p (offset r.useresp (4 + 4 * i + j)) = none) →
    args.getD i 0 = userWord k p (offset r.useresp (4 + 4 * i))

/-- A call of `waitpid` for a process that has exited does not store into memory of the kernel. -/
def Spares (k : State) (p : ℕ) (r : Regs) (args : List ℕ) : Prop :=
  r.eax = SYSCALL_WAITPID → ∀ c : ℕ, toInt (args.getD 0 0) = c → (k.sched.procs c).exited = true →
    strayStatus k p (args.getD 1 0) = none

variable {m : Machine} {idle r : Regs} {k k' k₁ : State} {table p q a status : ℕ} {args : List ℕ} {S S' : Sched}
  {x : ℤ × Regs} {next : Next} {pid : ℤ}

/-! ### Calls that spare the kernel -/

theorem storeSaved_eip (hq : q < MAX_PROCESSES) (v : ℕ) : storeSaved table S (eipAddress table q) v =
    some (S.set q { S.procs q with savedRegs := { (S.procs q).savedRegs with eip := v } }) := by
  have hoff : eipAddress table q - table = PROCESS_SIZE * q + 172 := by
    simp only [eipAddress, PROCESS_SIZE, SAVED_REGS]
    omega
  have hdiv : (PROCESS_SIZE * q + 172) / PROCESS_SIZE = q := by
    simp only [PROCESS_SIZE]
    omega
  have hmod : (PROCESS_SIZE * q + 172) % PROCESS_SIZE = 172 := by
    simp only [PROCESS_SIZE]
    omega
  have hle : table ≤ eipAddress table q := by
    simp only [eipAddress]
    omega
  unfold storeSaved
  rw [hoff, hdiv, hmod, if_pos ⟨hle, hq, by decide, by decide, by decide⟩]
  rfl

/-- A status that does not lead into the kernel is stored as in `Calls`. -/
theorem waitpidAt_eq (h : ∀ c : ℕ, pid = c → (k.sched.procs c).exited = true → strayStatus k p status = none) :
    waitpidAt table p pid status k = Kernel.syscallWaitpid p pid status k := by
  unfold waitpidAt
  rw [run_get]
  cases hwait : Process.syscallWaitpid k.sched p pid with
  | error e => rfl
  | ok y =>
    obtain ⟨res, value, S⟩ := y
    cases value with
    | none => rfl
    | some v =>
      cases hstray : strayStatus k p status with
      | none => rfl
      | some x =>
        rcases syscallWaitpid_ok hwait with ⟨-, hnone, -⟩ | ⟨c, hc, -, hexit, -⟩ | ⟨c, -, -, -, -, hnone, -⟩
        · cases hnone
        · rw [h c hc hexit] at hstray
          cases hstray
        · cases hnone

/-- **A call that spares the kernel** is served as in `dispatch`. -/
theorem executesAt_eq (h : Spares k p r args) : executesAt m table p r args k =
    Kernel.dispatch m p r r.eax args { k with sched := enter k.sched p r.eax } := by
  show dispatchAt m table p r r.eax args { k with sched := enter k.sched p r.eax } = _
  unfold dispatchAt
  split
  case isTrue hno =>
    have hwait : waitpidAt table p (toInt (args.getD 0 0)) (args.getD 1 0) { k with sched := enter k.sched p r.eax } =
        Kernel.syscallWaitpid p (toInt (args.getD 0 0)) (args.getD 1 0) { k with sched := enter k.sched p r.eax } := by
      apply waitpidAt_eq
      intro c hc hexit
      simp only [enter_proc] at hexit
      exact h hno c hc hexit
    rw [hno] at hwait ⊢
    exact run_congr (fun res => pure (res, r)) hwait
  case isFalse => rfl

/-- The end of a level whose handler has been executed. -/
theorem syscallAt_finish (hcur : k.sched.current = some p) (hx : executesAt m table p r args k = .ok x k₁)
    (hok : syscallAt m table idle r args k = .ok next k') : finish idle p r.eax x.2 x.1 k₁ = .ok next k' := by
  unfold syscallAt at hok
  rw [run_get, hcur] at hok
  exact (run_bind hx).symm.trans hok

/-! ### A level of `Traps` -/

theorem loadAll_mapped {f : ℕ → ℕ} {l : List ℕ} {bs : List UInt8} (hok : l.mapM (fun j => loadMapped p (f j)) k = .ok bs k') :
    ∀ j ∈ l, ∃ x, physical k p (f j) = .ok x := by
  induction l generalizing bs k' with
  | nil => exact fun j hj => absurd hj List.not_mem_nil
  | cons y l ih =>
    rw [mapM_cons_run] at hok
    obtain ⟨b, k₁, h₁, hrest⟩ := bind_ok hok
    obtain ⟨-, rfl⟩ := loadMapped_eq h₁
    obtain ⟨bs', k₂, h₂, -⟩ := bind_ok hrest
    intro j hj
    rcases List.mem_cons.mp hj with rfl | hj
    · unfold loadMapped at h₁
      cases hx : physical k₁ p (f j) with
      | ok x => exact ⟨x, rfl⟩
      | error e =>
        rw [hx] at h₁
        cases h₁
    · exact ih h₂ j hj

/-- All bytes of words that have been read are mapped. -/
theorem readWords_mapped {n j : ℕ} {ws : List ℕ} (hok : readWords p a n j k = .ok ws k') :
    ∀ i < 4 * n, ∃ x, physical k p (offset a (4 * j + i)) = .ok x := by
  induction n generalizing j ws k' with
  | zero => exact fun i hi => absurd hi (Nat.not_lt_zero i)
  | succ n ih =>
    unfold readWords at hok
    obtain ⟨bs, k₁, h₁, hrest⟩ := bind_ok hok
    have hfirst := loadAll_mapped h₁
    obtain ⟨-, rfl⟩ := loadAll_inv h₁
    obtain ⟨ws', k₂, h₂, -⟩ := bind_ok hrest
    intro i hi
    by_cases hlt : i < 4
    · exact hfirst i (List.mem_range.mpr hlt)
    · have hlater := ih h₂ (i - 4) (by omega)
      rwa [show 4 * (j + 1) + (i - 4) = 4 * j + i by omega] at hlater

/-- **A level of `Traps`** has read its argument block in the memory of the caller, and goes on as here. -/
theorem syscallOnce_at (hcur : k.sched.current = some p) (h : Spares k p r (argWords k p r))
    (hok : syscallOnce m idle r k = .ok next k') :
    Fetched k p r (argWords k p r) ∧
      ∃ log, syscallAt m table idle r (argWords k p r) { k with log := log } = .ok next k' := by
  rw [syscallOnce_executes idle hcur] at hok
  obtain ⟨⟨res, r₁⟩, k₁, hx, hend⟩ := bind_ok hok
  refine ⟨⟨by simp [argWords], fun i hi => ?_, fun i hi _ => by simp [argWords, hi]⟩, ?_⟩
  · obtain ⟨_, k₂, h₂, hx⟩ := bind_ok hx
    cases h₂
    obtain ⟨args, k₃, h₃, -⟩ := bind_ok hx
    obtain ⟨_, k₄, h₄, h₃⟩ := bind_ok h₃
    cases h₄
    obtain ⟨x, hx⟩ := readWords_mapped h₃ i hi
    rw [offset_offset, Nat.mul_zero, Nat.zero_add] at hx
    rw [show translate k.pages.mem (k.space p).pdir _ = some x from (physical_eq_ok hx).1]
    exact Option.some_ne_none x
  · obtain ⟨log, hdis⟩ := executes_inv hx
    refine ⟨log, ?_⟩
    have hspares : Spares { k with log := log } p r (argWords k p r) := h
    unfold syscallAt
    rw [run_get, hcur]
    exact (run_bind ((executesAt_eq hspares).trans hdis)).trans hend

end AdelaideOS.Kernel
