import AdelaideOS.Kernel.Guards

/-!
# Which addresses a system call follows

The addresses that a process can make the kernel follow are the position of the argument block, which comes from
its stack pointer, and the pointers among the arguments: `requests`.  `Checks m k p r` is what the comment of
`valid_pointer` asks for: nothing outside the ranges of the process is touched, and a call with a bad address
is refused without effect.

The handlers check their own pointers, but the argument block is not checked, and neither is the `status` of
`waitpid`: **`checks_iff`**.
-/

namespace AdelaideOS.Kernel

open AdelaideOS.Lib.Bytes AdelaideOS.Lib.Triple AdelaideOS.Page AdelaideOS.Process

/-- The words of the argument block. -/
def argWords (k : State) (p : ℕ) (r : Regs) : List ℕ :=
  (List.range (arity r.eax)).map fun i => userWord k p (offset r.useresp (4 + 4 * i))

/-- All that a system call follows: the argument block and the pointers in it. -/
def requests (k : State) (p : ℕ) (r : Regs) : List Request :=
  .bytes (offset r.useresp 4) (4 * arity r.eax) :: pointerArgs r.eax (argWords k p r)

structure Checks (m : Machine) (k : State) (p : ℕ) (r : Regs) : Prop where
  /-- Every byte touched through an address of the caller lies in its ranges. -/
  inside : Ends (fun _ => LogIn (k.space p)) (LogIn (k.space p)) (syscall m r { k with log := [] })
  /-- A bad address is refused; only the records of `syscall` itself about the caller are written. -/
  refuses : (∃ q ∈ requests k p r, ¬ q.Ok k p) → ∃ log,
    syscall m r { k with log := [] } = .ok (refusal r.eax, r)
      { k with sched := leave (enter k.sched p r.eax) p r.eax r (refusal r.eax), log := log }

/-- The argument block lies in the ranges, and so does the place for the status that `waitpid` is given. -/
def PointersFit (k : State) (p : ℕ) (r : Regs) : Prop :=
  (k.space p).Region (offset r.useresp 4) (4 * arity r.eax) ∧
    (r.eax = SYSCALL_WAITPID →
      (argWords k p r).getD 1 0 = 0 ∨ (k.space p).Region ((argWords k p r).getD 1 0) 4)

variable {m : Machine} {forked : ℕ → Bool} {k k' : State} {p a n : ℕ} {r : Regs}

/-! ### The argument block -/

theorem loadMapped_error (h : Sound k p) (ha : a < wordSize) (hr : ¬ (k.space p).InRange a) :
    ∃ e, loadMapped p a k = .error e k := by
  unfold loadMapped
  cases hx : physical k p a with
  | ok x => exact absurd ((h.mapped a ha).mpr ⟨x, hx⟩) hr
  | error e => exact ⟨e, rfl⟩

theorem mapM_cons_run {β : Type} (f : ℕ → K β) (x : ℕ) (l : List ℕ) :
    (x :: l).mapM f = f x >>= fun b => l.mapM f >>= fun bs => pure (b :: bs) := List.mapM_cons

/-- Bytes of the ranges are read. -/
theorem loadAll_ok (h : Sound k p) (f : ℕ → ℕ) (l : List ℕ) (hr : ∀ j ∈ l, (k.space p).InRange (f j)) :
    l.mapM (fun j => loadMapped p (f j)) k = .ok (l.map fun j => userByte k p (f j)) k := by
  induction l with
  | nil => rfl
  | cons x l ih =>
    rw [mapM_cons_run, run_bind (loadMapped_ok h (hr x (by simp))),
      run_bind (ih fun j hj => hr j (by simp [hj]))]
    rfl

/-- Other bytes stop the kernel. -/
theorem loadAll_error (h : Sound k p) (f : ℕ → ℕ) (l : List ℕ) (hf : ∀ j, f j < wordSize)
    (hr : ∃ j ∈ l, ¬ (k.space p).InRange (f j)) :
    ∃ e, l.mapM (fun j => loadMapped p (f j)) k = .error e k := by
  induction l with
  | nil =>
    obtain ⟨j, hj, -⟩ := hr
    cases hj
  | cons x l ih =>
    rw [mapM_cons_run]
    by_cases hx : (k.space p).InRange (f x)
    · obtain ⟨e, he⟩ := ih (by
        obtain ⟨j, hj, hne⟩ := hr
        rcases List.mem_cons.mp hj with rfl | hj
        · exact absurd hx hne
        · exact ⟨j, hj, hne⟩)
      refine ⟨e, ?_⟩
      rw [run_bind (loadMapped_ok h hx)]
      exact run_bind_error he
    · obtain ⟨e, he⟩ := loadMapped_error h (hf x) hx
      exact ⟨e, run_bind_error he⟩

theorem readWords_ok (h : Sound k p) (j : ℕ) (hr : ∀ i < 4 * n, (k.space p).InRange (offset a (4 * j + i))) :
    readWords p a n j k = .ok ((List.range n).map fun i => userWord k p (offset a (4 * (j + i)))) k := by
  induction n generalizing j with
  | zero => rfl
  | succ n ih =>
    have hfirst := loadAll_ok h (fun i => offset a (4 * j + i)) (List.range 4) (by
      intro i hi
      rw [List.mem_range] at hi
      exact hr i (by omega))
    have hrest := ih (j + 1) (by
      intro i hi
      have := hr (4 + i) (by omega)
      rwa [show 4 * j + (4 + i) = 4 * (j + 1) + i by omega] at this)
    unfold readWords
    have hsplit : List.range (n + 1) = 0 :: (List.range n).map Nat.succ := List.range_succ_eq_map
    rw [run_bind hfirst, run_bind hrest, hsplit, List.map_cons, List.map_map]
    have hhead : userWord k p (offset a (4 * (j + 0))) =
        wordOf ((List.range 4).map fun i => userByte k p (offset a (4 * j + i))) := by
      simp only [userWord, offset_offset, Nat.add_zero]
    have htail : (fun i => userWord k p (offset a (4 * (j + 1 + i)))) =
        (fun i => userWord k p (offset a (4 * (j + i)))) ∘ Nat.succ := by
      funext i
      rw [Function.comp_apply, Nat.succ_eq_add_one, Nat.add_right_comm, Nat.add_assoc]
    rw [hhead, htail]
    rfl

theorem readWords_error (h : Sound k p) (j : ℕ)
    (hr : ∃ i < 4 * n, ¬ (k.space p).InRange (offset a (4 * j + i))) :
    ∃ e, readWords p a n j k = .error e k := by
  induction n generalizing j with
  | zero =>
    obtain ⟨i, hi, -⟩ := hr
    omega
  | succ n ih =>
    unfold readWords
    by_cases hall : ∀ i ∈ List.range 4, (k.space p).InRange (offset a (4 * j + i))
    · have hfirst := loadAll_ok h (fun i => offset a (4 * j + i)) (List.range 4) hall
      obtain ⟨e, he⟩ := ih (j + 1) (by
        obtain ⟨i, hi, hne⟩ := hr
        have h4 : 4 ≤ i := by
          by_contra hlt
          exact hne (hall i (List.mem_range.mpr (by omega)))
        refine ⟨i - 4, by omega, ?_⟩
        rwa [show 4 * (j + 1) + (i - 4) = 4 * j + i by omega])
      refine ⟨e, ?_⟩
      rw [run_bind hfirst]
      exact run_bind_error he
    · push Not at hall
      obtain ⟨e, he⟩ := loadAll_error h (fun i => offset a (4 * j + i)) (List.range 4)
        (fun i => offset_lt a _) hall
      exact ⟨e, run_bind_error he⟩

theorem touch_block (r : Regs) (n : ℕ) :
    ((List.range (4 * n)).map fun i => offset r.useresp (4 + i)) =
      (List.range (4 * n)).map fun i => offset (offset r.useresp 4) i := by
  simp only [offset_offset]

/-- The argument block is read. -/
theorem readArgs_ok (h : Sound k p) (hr : (k.space p).Region (offset r.useresp 4) (4 * arity r.eax)) :
    ∃ k', readArgs p r.useresp (arity r.eax) k = .ok (argWords k p r) k' ∧ Logged (k.space p) k k' := by
  let k' : State :=
    { k with
      log := ((List.range (4 * arity r.eax)).map fun i => offset r.useresp (4 + i)) ++ k.log }
  have hl : Logged (k.space p) k k' := by
    refine ⟨_, ?_, rfl⟩
    rw [touch_block]
    intro a ha
    obtain ⟨i, hi, rfl⟩ := List.mem_map.mp ha
    exact hr i (List.mem_range.mp hi)
  have hwords := readWords_ok (n := arity r.eax) (a := offset r.useresp 4) (hl.sound h) 0 (by
    intro i hi
    rw [hl.space, Nat.mul_zero, Nat.zero_add]
    exact hr i hi)
  refine ⟨k', ?_, hl⟩
  show readWords p (offset r.useresp 4) (arity r.eax) 0 k' = _
  rw [hwords]
  simp only [argWords, userWord, hl.userByte, offset_offset, Nat.zero_add]

/-- An argument block outside the ranges makes the kernel touch it. -/
theorem readArgs_error (h : Sound k p) (hr : ¬ (k.space p).Region (offset r.useresp 4) (4 * arity r.eax)) :
    ∃ e k', readArgs p r.useresp (arity r.eax) k = .error e k' ∧ ¬ LogIn (k.space p) k' := by
  unfold Space.Region at hr
  push Not at hr
  obtain ⟨i, hi, hne⟩ := hr
  let k' : State :=
    { k with
      log := ((List.range (4 * arity r.eax)).map fun i => offset r.useresp (4 + i)) ++ k.log }
  have hs : Sound k' p := ⟨h.text, h.text_lt, h.data, h.data_lt, h.stack, h.stack_le, h.mapped⟩
  obtain ⟨e, he⟩ := readWords_error (n := arity r.eax) (a := offset r.useresp 4) hs 0
    ⟨i, hi, by rw [Nat.mul_zero, Nat.zero_add]; exact hne⟩
  refine ⟨e, k', he, ?_⟩
  intro hlog
  apply hne
  apply hlog
  apply List.mem_append_left
  rw [touch_block]
  exact List.mem_map.mpr ⟨i, List.mem_range.mpr hi, rfl⟩

theorem argWords_lt (k : State) (p : ℕ) (r : Regs) (i : ℕ) : (argWords k p r).getD i 0 < wordSize := by
  rw [List.getD_eq_getElem?_getD]
  cases hw : (argWords k p r)[i]? with
  | none => decide
  | some w =>
    obtain ⟨j, -, rfl⟩ := List.mem_map.mp (List.mem_of_getElem? hw)
    exact userWord_lt k p _

/-! ### The system call -/

theorem syscall_eq (hp : k.sched.current = some p) :
    syscall m r k = (readArgs p r.useresp (arity r.eax) >>= serve m p r)
      { k with sched := enter k.sched p r.eax } := by
  unfold syscall
  rw [run_get, hp]
  rfl

/-- A block outside the ranges. -/
theorem Sound.block_touched (h : Sound k p) (hp : k.sched.current = some p)
    (hr : ¬ (k.space p).Region (offset r.useresp 4) (4 * arity r.eax)) :
    ∃ e k', syscall m r { k with log := [] } = .error e k' ∧ ¬ LogIn (k.space p) k' := by
  let k₁ : State := { k with log := [], sched := enter k.sched p r.eax }
  have hs : Sound k₁ p := ⟨h.text, h.text_lt, h.data, h.data_lt, h.stack, h.stack_le, h.mapped⟩
  obtain ⟨e, k', hk', hlog⟩ := readArgs_error (k := k₁) (r := r) hs hr
  refine ⟨e, k', ?_, hlog⟩
  rw [syscall_eq (k := { k with log := [] }) hp]
  exact run_bind_error hk'

theorem sat_true {α : Type} (x : K α) : Sat (fun _ => True) x (fun _ _ => True) Stopped := by
  constructor
  intro k _
  cases x k with
  | ok v k' => trivial
  | error e k' => trivial

theorem waitpid_no_fault (pid : ℤ) (status : ℕ) :
    Sat (fun _ => True) (syscallWaitpid p pid status) (fun res _ => res ≠ -EFAULT) Stopped := by
  unfold syscallWaitpid
  refine Sat.get fun k₀ _ => ?_
  have hlift : Sat (fun _ => True) (lift (Process.syscallWaitpid k₀.sched p pid))
      (fun x _ => Process.syscallWaitpid k₀.sched p pid = .ok x ∧ True) Stopped := by
    constructor
    intro k _
    cases hf : Process.syscallWaitpid k₀.sched p pid with
    | ok x => exact ⟨rfl, trivial⟩
    | error e => trivial
  refine hlift.bind fun x => Sat.and fun hx => ?_
  obtain ⟨res, value, S⟩ := x
  have hres : res ≠ -EFAULT := by
    rcases syscallWaitpid_ok hx with ⟨rfl, -⟩ | ⟨c, -, -, -, rfl, -⟩ | ⟨c, -, -, -, rfl, -⟩
    · decide
    · simp only [EFAULT]
      omega
    · decide
  exact (sat_true _).bind fun _ => (sat_true _).bind fun _ => Sat.pure fun _ _ => hres

theorem dispatch_waitpid (hw : r.eax = SYSCALL_WAITPID) (args : List ℕ) :
    dispatch m p r r.eax args = keep r (syscallWaitpid p (toInt (args.getD 0 0)) (args.getD 1 0)) := by
  rw [hw]
  rfl

theorem pointerArgs_waitpid (hw : r.eax = SYSCALL_WAITPID) (args : List ℕ) :
    pointerArgs r.eax args = unlessNull (args.getD 1 0) (.bytes (args.getD 1 0) 4) := by
  rw [hw]
  rfl

theorem serve_waitpid (hw : r.eax = SYSCALL_WAITPID) (args : List ℕ) :
    Sat (fun _ => True) (serve m p r args) (fun x _ => x.1 ≠ -EFAULT) Stopped := by
  unfold serve
  rw [dispatch_waitpid hw]
  have hkeep : Sat (fun _ => True)
      (keep r (syscallWaitpid p (toInt (args.getD 0 0)) (args.getD 1 0)))
      (fun x _ => x.1 ≠ -EFAULT ∧ True) Stopped :=
    (waitpid_no_fault _ _).bind fun res => Sat.pure fun _ hres => ⟨hres, trivial⟩
  refine hkeep.bind fun x => Sat.and fun hx => ?_
  exact (sat_true _).bind fun _ => Sat.pure fun _ _ => hx

/-- After an argument block inside the ranges has been read. -/
theorem Sound.block_read (h : Sound k p) (hp : k.sched.current = some p)
    (hr : (k.space p).Region (offset r.useresp 4) (4 * arity r.eax)) :
    ∃ log, (∀ a ∈ log, (k.space p).InRange a) ∧
      syscall m r { k with log := [] } = serve m p r (argWords k p r)
        { k with sched := enter k.sched p r.eax, log := log } := by
  let k₁ : State := { k with log := [], sched := enter k.sched p r.eax }
  have hs : Sound k₁ p := ⟨h.text, h.text_lt, h.data, h.data_lt, h.stack, h.stack_le, h.mapped⟩
  obtain ⟨k₂, hk₂, L, hL, rfl⟩ := readArgs_ok (k := k₁) (r := r) hs hr
  refine ⟨L ++ [], ?_, ?_⟩
  · rw [List.append_nil]
    exact hL
  · rw [syscall_eq (k := { k with log := [] }) hp]
    exact run_bind hk₂

/-- Requests are about memory only. -/
theorem Request.ok_iff (S : Sched) (log : List ℕ) (q : Request) :
    q.Ok { k with sched := S, log := log } p ↔ q.Ok k p := by
  cases q with
  | bytes a n => exact Iff.rfl
  | string a => exact Iff.rfl
  | argv a => exact Iff.rfl

theorem Sound.congr (h : Sound k p) (S : Sched) (log : List ℕ) :
    Sound { k with sched := S, log := log } p :=
  ⟨h.text, h.text_lt, h.data, h.data_lt, h.stack, h.stack_le, h.mapped⟩

/-- A pointer among the arguments that the fitting ones exclude is not the one of `waitpid`. -/
theorem PointersFit.not_waitpid {q : Request} (h : PointersFit k p r)
    (hq : q ∈ pointerArgs r.eax (argWords k p r)) (hne : ¬ q.Ok k p) : r.eax ≠ SYSCALL_WAITPID := by
  intro hw
  rw [pointerArgs_waitpid hw] at hq
  unfold unlessNull at hq
  split at hq
  · cases hq
  · rename_i hz
    rw [List.mem_singleton] at hq
    rw [hq] at hne
    exact hne ((h.2 hw).resolve_left hz)

/-- **Fitting pointers**: nothing outside the ranges is touched. -/
theorem Sound.inside (h : Sound k p) (hp : k.sched.current = some p) (hfit : PointersFit k p r) :
    Ends (fun _ => LogIn (k.space p)) (LogIn (k.space p)) (syscall m r { k with log := [] }) := by
  obtain ⟨log, hlog, hcall⟩ := h.block_read (m := m) hp hfit.1
  rw [hcall]
  let k₂ : State := { k with sched := enter k.sched p r.eax, log := log }
  have hs : Sound k₂ p := h.congr _ _
  refine ends_bind (k := k₂) ?_ fun x => ?_
  · by_cases hw : r.eax = SYSCALL_WAITPID
    · rw [dispatch_waitpid hw]
      exact ((confined_syscallWaitpid _ (hfit.2 hw)).keep r).run k₂ hlog
    · have hguard := dispatch_guards (m := m) (r := r) hs hlog (argWords_lt k p r) hw
      by_cases hall : ∀ q ∈ pointerArgs r.eax (argWords k p r), q.Ok k₂ p
      · exact hguard.good hall
      · push Not at hall
        obtain ⟨k₃, hk₃, hl⟩ := hguard.bad hall
        rw [hk₃]
        exact hl.logIn hlog
  · obtain ⟨res, r'⟩ := x
    exact (confined_schedDo _).bind fun _ => confined_pure _

/-- **Fitting pointers**: a bad one among the arguments is refused. -/
theorem Sound.refuses (h : Sound k p) (hp : k.sched.current = some p) (hfit : PointersFit k p r)
    (hbad : ∃ q ∈ requests k p r, ¬ q.Ok k p) : ∃ log,
      syscall m r { k with log := [] } = .ok (refusal r.eax, r)
        { k with sched := leave (enter k.sched p r.eax) p r.eax r (refusal r.eax), log := log } := by
  obtain ⟨q, hq, hne⟩ := hbad
  have hq' : q ∈ pointerArgs r.eax (argWords k p r) := by
    rcases List.mem_cons.mp hq with rfl | hq
    · exact absurd hfit.1 hne
    · exact hq
  have hw := hfit.not_waitpid hq' hne
  obtain ⟨log, hlog, hcall⟩ := h.block_read (m := m) hp hfit.1
  rw [hcall]
  let k₂ : State := { k with sched := enter k.sched p r.eax, log := log }
  have hs : Sound k₂ p := h.congr _ _
  have hguard := dispatch_guards (m := m) (r := r) hs hlog (argWords_lt k p r) hw
  obtain ⟨k₃, hk₃, L, -, rfl⟩ := hguard.bad ⟨q, hq', (Request.ok_iff _ _ q).not.mpr hne⟩
  refine ⟨L ++ log, ?_⟩
  unfold serve
  rw [run_bind hk₃]
  rfl

theorem Sound.checks_iff_fit (h : Sound k p) (hp : k.sched.current = some p) :
    Checks m k p r ↔ PointersFit k p r := by
  constructor
  · intro hc
    have hblock : (k.space p).Region (offset r.useresp 4) (4 * arity r.eax) := by
      by_contra hr
      obtain ⟨e, k', hk', hlog⟩ := h.block_touched (m := m) hp hr
      have hin := hc.inside
      rw [hk'] at hin
      exact hlog hin
    refine ⟨hblock, ?_⟩
    intro hw
    by_contra hbad
    rw [not_or] at hbad
    -- `waitpid` never answers with the error for a bad address
    have hreq : Request.bytes ((argWords k p r).getD 1 0) 4 ∈ requests k p r := by
      apply List.mem_cons_of_mem
      rw [pointerArgs_waitpid hw, unlessNull, if_neg hbad.1]
      exact List.mem_singleton_self _
    obtain ⟨log', hok⟩ := hc.refuses ⟨_, hreq, hbad.2⟩
    obtain ⟨log, -, hcall⟩ := h.block_read (m := m) hp hblock
    rw [hcall] at hok
    have hne := (serve_waitpid hw _).ok trivial hok
    apply hne
    rw [hw]
    rfl
  · intro hfit
    exact ⟨h.inside hp hfit, h.refuses hp hfit⟩

/-! ### Reachable states -/

theorem sound_of_reachable (h : Reachable m k forked) (hp : k.sched.current = some p) : Sound k p := by
  obtain ⟨-, asp, hsafe⟩ := inv_of_reachable h
  exact hsafe.sound (hsafe.good.current_live hp)

/-- The stack of a process and the memory below its text. -/
theorem inRange_of_reachable (h : Reachable m k forked) (hp : k.sched.current = some p) :
    (PROCESS_STACK_BASE - PROCESS_STACK_SIZE ≤ a → a < PROCESS_STACK_BASE → (k.space p).InRange a) ∧
      (a < PROCESS_TEXT_BASE → ¬ (k.space p).InRange a) := by
  obtain ⟨-, asp, hsafe⟩ := inv_of_reachable h
  obtain ⟨t, d, hs⟩ := hsafe.shaped p (hsafe.good.current_live hp)
  rw [Space.InRange, hs.textStart, hs.textEnd, hs.dataStart, hs.dataEnd, hs.stackStart, hs.stackEnd]
  simp only [PAGE_SIZE, TEXT_PAGE, DATA_PAGE, STACK_PAGE, STACK_PAGES, PROCESS_STACK_BASE,
    PROCESS_STACK_SIZE, PROCESS_TEXT_BASE]
  omega

/-- **User pointers.**  In every reachable state the caller's ranges are in order; and then a system call follows
only addresses of the caller's ranges and refuses all others if and only if the argument block and the place
for the status of `waitpid` lie in the ranges. -/
theorem checks_iff (m : Machine) (r : Regs) (hp : k.sched.current = some p) :
    (∀ forked, Reachable m k forked → Sound k p) ∧
      (Sound k p → (Checks m k p r ↔ PointersFit k p r)) := by
  constructor
  · intro forked h
    exact sound_of_reachable h hp
  · intro h
    exact h.checks_iff_fit hp

/-- A call of `write` whose arguments lie 64 bytes below the end of the stack. -/
def writeRegs : Regs := { Regs.zero with eax := SYSCALL_WRITE, useresp := PROCESS_STACK_BASE - 64 }

/-- It is checked. -/
theorem checks_write : ∃ k forked, Reachable Machine.bare k forked ∧ k.sched.current = some 1 ∧
    Checks Machine.bare k 1 writeRegs := by
  obtain ⟨k, forked, h, -, -, hs⟩ := reachable_start
  have hcur : k.sched.current = some 1 := by
    rw [hs]
    rfl
  obtain ⟨hsound, hiff⟩ := checks_iff Machine.bare writeRegs hcur
  refine ⟨k, forked, h, hcur, (hiff (hsound forked h)).mpr ⟨?_, ?_⟩⟩
  · intro i hi
    have hi' : i < 12 := hi
    apply (inRange_of_reachable h hcur).1
    · simp only [writeRegs, offset, wordSize, PROCESS_STACK_BASE, PROCESS_STACK_SIZE]
      omega
    · simp only [writeRegs, offset, wordSize, PROCESS_STACK_BASE]
      omega
  · intro hw
    exact absurd hw (by decide)

/-- A call of `exit` with a stack pointer of `NULL`. -/
def exitRegs : Regs := { Regs.zero with eax := SYSCALL_EXIT }

/-- The kernel follows it. -/
theorem block_unchecked : ∃ k forked, Reachable Machine.bare k forked ∧ k.sched.current = some 1 ∧
    ¬ Checks Machine.bare k 1 exitRegs := by
  obtain ⟨k, forked, h, -, -, hs⟩ := reachable_start
  have hcur : k.sched.current = some 1 := by
    rw [hs]
    rfl
  refine ⟨k, forked, h, hcur, ?_⟩
  intro hc
  have hfit := ((sound_of_reachable h hcur).checks_iff_fit hcur).mp hc
  have hlow : ¬ (k.space 1).InRange (offset (offset exitRegs.useresp 4) 0) :=
    (inRange_of_reachable h hcur).2 (by decide)
  exact hlow (hfit.1 0 (by decide))

end AdelaideOS.Kernel
