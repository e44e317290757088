import AdelaideOS.Kernel.Lineup
import AdelaideOS.Kernel.Pointers
import AdelaideOS.Kernel.Execve

/-!
# Traps: `interrupt_handler`, with the recursion of `syscall` and `context_switch`

`syscall` of `Calls` ends where `context_switch` would execute the pending call of the process that it has picked.  Here
that call is executed: a level of the recursion is one `syscallOnce`, which says by its value whether another level
follows.  `Handled` says that the recursion comes to an end, and what each level does to the ready list.

`enable_paging` is not modelled: the page directory of the current process is the one that is active.

* **`syscallOnce_eq`** — a level leaves the state that `syscall` of `Calls` leaves;
* **`level_ok`**, **`Poised.handled`** — a nested level, and the recursion from it;
* **`trap_returns_iff`** — which traps end.
-/

namespace AdelaideOS.Kernel

open AdelaideOS.Lib.Bytes AdelaideOS.Lib.Triple AdelaideOS.Lib.View AdelaideOS.Process

/-! ### The code -/

/-- What is left to do: return with the registers, or execute the call that they hold. -/
inductive Next where
  | back (r : Regs)
  | again (r : Regs)

/-- `context_switch`, up to the call of `syscall`.  `idle` are the registers of the idle loop. -/
def switchTo (idle r : Regs) : K Next := do
  schedDo fun S => .ok (contextSwitch S r)
  let k ← get
  match k.sched.current with
  | none => return .back idle
  | some p =>
    if (k.sched.procs p).inSyscall = 0 then return .back (k.sched.procs p).savedRegs
    else return .again (k.sched.procs p).savedRegs

/-- `syscall` after the handler has returned `res`. -/
def finish (idle : Regs) (old no : ℕ) (r : Regs) (res : ℤ) : K Next := do
  let k ← get
  let (res, S) := storeErrno k.sched no res
  schedDo fun _ => .ok S
  if res = -ESUSPEND then switchTo idle r
  else do
    schedDo fun S => .ok (S.set old { S.procs old with inSyscall := 0 })
    let k ← get
    if k.sched.current = some old then return .back { r with eax := ofInt res }
    else switchTo idle { r with eax := ofInt res }

/-- `syscall`, up to the next `syscall`. -/
def syscallOnce (m : Machine) (idle r : Regs) : K Next := do
  let k ← get
  match k.sched.current with
  | none => throw (.assertion .syscall)
  | some old => do
    schedDo fun S => .ok (enter S old r.eax)
    let args ← readArgs old r.useresp (arity r.eax)
    let (res, r') ← dispatch m old r r.eax args
    finish idle old r.eax r' res

/-- The part of `syscall` that executes the handler. -/
def executes (m : Machine) (p : ℕ) (r : Regs) : K (ℤ × Regs) := do
  schedDo fun S => .ok (enter S p r.eax)
  let args ← readArgs p r.useresp (arity r.eax)
  dispatch m p r r.eax args

/-- What interrupts a process: the timer, a key, or a system call, with the registers of the process. -/
inductive Trap where
  | timer (r : Regs)
  | key (r : Regs) (c : UInt8)
  | call (r : Regs)

/-- `interrupt_handler`, up to the first pending call.  `input` is the input pipe. -/
def handle (m : Machine) (idle : Regs) (input : Option ℕ) : Trap → K Next
  | .timer r => switchTo idle r
  | .key r c => do
    typeKey c input
    switchTo idle r
  | .call r => syscallOnce m idle r

variable {m : Machine} {idle r r' : Regs} {k k' : State} {S S' : Sched} {R U : List ℕ} {p c : ℕ} {res : ℤ} {next : Next}

theorem switchTo_eq (idle r : Regs) (k : State) :
    ∃ next, switchTo idle r k = .ok next { k with sched := contextSwitch k.sched r } ∧
      ((∃ r', next = .back r') ∧ (∀ c, pickNext k.sched = some c → ((contextSwitch k.sched r).procs c).inSyscall = 0) ∨
        ∃ c, pickNext k.sched = some c ∧
        ((contextSwitch k.sched r).procs c).inSyscall ≠ 0 ∧
        next = .again ((contextSwitch k.sched r).procs c).savedRegs) := by
  let k₁ : State := { k with sched := contextSwitch k.sched r }
  have hcur : k₁.sched.current = pickNext k.sched := (contextSwitch_spec k.sched r).2.2
  have hstart : switchTo idle r k = (match k₁.sched.current with
    | none => (return .back idle : K Next)
    | some p =>
      if (k₁.sched.procs p).inSyscall = 0 then return .back (k₁.sched.procs p).savedRegs
      else return .again (k₁.sched.procs p).savedRegs) k₁ := rfl
  cases hpick : pickNext k.sched with
  | none =>
    rw [hpick] at hcur
    rw [hstart, hcur]
    exact ⟨_, rfl, .inl ⟨⟨_, rfl⟩, fun c hc => by cases hc⟩⟩
  | some c =>
    rw [hpick] at hcur
    rw [hstart, hcur]
    by_cases hcall : (k₁.sched.procs c).inSyscall = 0
    · simp only [if_pos hcall]
      exact ⟨_, rfl, .inl ⟨⟨_, rfl⟩, fun c' hc' => Option.some.inj hc' ▸ hcall⟩⟩
    · simp only [if_neg hcall]
      exact ⟨_, rfl, .inr ⟨c, rfl, hcall, rfl⟩⟩

/-- The end of a call leaves the state that `leave` of the process model does. -/
theorem finish_eq (idle : Regs) (old no : ℕ) (r : Regs) (res : ℤ) (k : State) :
    ∃ next, finish idle old no r res k = .ok next { k with sched := leave k.sched old no r res } := by
  let res' := (storeErrno k.sched no res).1
  let S := (storeErrno k.sched no res).2
  let S' := S.set old { S.procs old with inSyscall := 0 }
  have hstart : finish idle old no r res k = (if res' = -ESUSPEND then switchTo idle r
      else do
        schedDo fun S => .ok (S.set old { S.procs old with inSyscall := 0 })
        let k ← get
        if k.sched.current = some old then return .back { r with eax := ofInt res' }
        else switchTo idle { r with eax := ofInt res' }) { k with sched := S } := rfl
  have hleave : leave k.sched old no r res = if res' = -ESUSPEND then contextSwitch S r
      else if S'.current = some old then S' else contextSwitch S' { r with eax := ofInt res' } := rfl
  rw [hstart, hleave]
  by_cases hsus : res' = -ESUSPEND
  · rw [if_pos hsus, if_pos hsus]
    obtain ⟨next, hnext, -⟩ := switchTo_eq idle r { k with sched := S }
    exact ⟨next, hnext⟩
  · rw [if_neg hsus, if_neg hsus]
    show ∃ next, (if S'.current = some old then return .back { r with eax := ofInt res' }
        else switchTo idle { r with eax := ofInt res' } : K Next) { k with sched := S' } = _
    by_cases hcur : S'.current = some old
    · rw [if_pos hcur, if_pos hcur]
      exact ⟨_, rfl⟩
    · rw [if_neg hcur, if_neg hcur]
      obtain ⟨next, hnext, -⟩ := switchTo_eq idle { r with eax := ofInt res' } { k with sched := S' }
      exact ⟨next, hnext⟩

/-- **A level** leaves the state that `syscall` leaves. -/
theorem syscallOnce_eq (m : Machine) (idle r : Regs) {x : ℤ × Regs} (hok : syscall m r k = .ok x k') :
    ∃ next, syscallOnce m idle r k = .ok next k' := by
  unfold syscall at hok
  unfold syscallOnce
  rw [run_get] at hok ⊢
  cases hcur : k.sched.current with
  | none =>
    rw [hcur] at hok
    cases hok
  | some old =>
    rw [hcur] at hok
    simp only at hok ⊢
    obtain ⟨u, k₁, h₁, hok⟩ := bind_ok hok
    obtain ⟨args, k₂, h₂, hok⟩ := bind_ok hok
    unfold serve at hok
    obtain ⟨⟨res, r'⟩, k₃, h₃, hok⟩ := bind_ok hok
    cases hok
    rw [run_bind h₁, run_bind h₂, run_bind h₃]
    exact finish_eq idle old r.eax r' res k₃

/-! ### The argument block -/

theorem loadAll_inv {f : ℕ → ℕ} {l : List ℕ} {bs : List UInt8} (hok : l.mapM (fun j => loadMapped p (f j)) k = .ok bs k') :
    bs = l.map (fun j => userByte k p (f j)) ∧ k' = k := by
  induction l generalizing bs k k' with
  | nil =>
    cases hok
    exact ⟨rfl, rfl⟩
  | cons x l ih =>
    rw [mapM_cons_run] at hok
    obtain ⟨b, k₁, h₁, hok⟩ := bind_ok hok
    obtain ⟨rfl, rfl⟩ := loadMapped_eq h₁
    obtain ⟨bs', k₂, h₂, hok⟩ := bind_ok hok
    obtain ⟨rfl, rfl⟩ := ih h₂
    cases hok
    exact ⟨rfl, rfl⟩

theorem readWords_inv {a n j : ℕ} {ws : List ℕ} (hok : readWords p a n j k = .ok ws k') :
    ws = ((List.range n).map fun i => userWord k p (offset a (4 * (j + i)))) ∧ k' = k := by
  induction n generalizing j ws k k' with
  | zero =>
    cases hok
    exact ⟨rfl, rfl⟩
  | succ n ih =>
    unfold readWords at hok
    obtain ⟨bs, k₁, h₁, hok⟩ := bind_ok hok
    obtain ⟨rfl, rfl⟩ := loadAll_inv h₁
    obtain ⟨ws', k₂, h₂, hok⟩ := bind_ok hok
    obtain ⟨rfl, rfl⟩ := ih h₂
    cases hok
    refine ⟨?_, rfl⟩
    have hrange : List.range (n + 1) = 0 :: (List.range n).map Nat.succ := List.range_succ_eq_map
    rw [hrange, List.map_cons, List.map_map]
    refine List.cons_eq_cons.mpr ⟨?_, ?_⟩
    · simp only [userWord, offset_offset, Nat.add_zero]
    · apply List.map_congr_left
      intro i _
      rw [Function.comp_apply, Nat.succ_eq_add_one, Nat.add_assoc, Nat.add_comm 1 i]

theorem readArgs_inv {ws : List ℕ} (hok : readArgs p r.useresp (arity r.eax) k = .ok ws k') :
    ws = argWords k p r ∧ ∃ log, k' = { k with log := log } := by
  obtain ⟨u, k₁, h₁, hok⟩ := bind_ok hok
  cases h₁
  obtain ⟨rfl, rfl⟩ := readWords_inv hok
  refine ⟨?_, _, rfl⟩
  unfold argWords
  apply List.map_congr_left
  intro i _
  rw [offset_offset, Nat.zero_add]
  rfl

/-! ### What a level starts from -/

/-- The calls that suspend the caller until something has happened. -/
abbrev waitingCalls : List ℕ := [SYSCALL_READ, SYSCALL_RECEIVE, SYSCALL_WAITPID]

/-- The call that the process has not finished, if any, is one of those that suspend. -/
def Pending (S : Sched) (q : ℕ) : Prop := (S.procs q).inSyscall ≠ 0 → (S.procs q).savedRegs.eax ∈ waitingCalls

/-- The ready list is `R`, the current process is on it, and the processes on it have been in calls that suspend. -/
structure Poised (k : State) (R U : List ℕ) : Prop where
  lined : Lined k.sched R U
  running : ∀ c, k.sched.current = some c → c ∈ R
  pending : ∀ q ∈ R, Pending k.sched q
  bounded : ∀ q ∈ R, Bounded (k.space q)

/-- The registers are those of the current process, which has not finished its call. -/
def Resumed (k : State) (r : Regs) : Prop :=
  ∃ c, k.sched.current = some c ∧ (k.sched.procs c).inSyscall ≠ 0 ∧ r = (k.sched.procs c).savedRegs

theorem contextSwitch_procs (S : Sched) (r : Regs) (q : ℕ) :
    (contextSwitch S r).procs q = if S.current = some q then { S.procs q with savedRegs := r } else S.procs q := by
  unfold contextSwitch saveRegs
  cases hcur : S.current with
  | none => simp
  | some p =>
    by_cases hq : q = p
    · simp [hq]
    · simp [hq, Ne.symm hq]

/-- **A switch** leads to a process of the ready list. -/
theorem switchTo_poised (hl : Lined k.sched R U)
    (hcur : ∀ c, k.sched.current = some c → (k.sched.procs c).ready = true → c ∈ R)
    (hpend : ∀ q ∈ R, (k.sched.procs q).inSyscall ≠ 0 →
      (if k.sched.current = some q then r else (k.sched.procs q).savedRegs).eax ∈ waitingCalls)
    (hb : ∀ q ∈ R, Bounded (k.space q)) (hok : switchTo idle r k = .ok next k') :
    Poised k' R U ∧ ∀ r', next = .again r' → Resumed k' r' := by
  obtain ⟨next', hok', hnext⟩ := switchTo_eq idle r k
  obtain ⟨rfl, rfl⟩ := EStateM.Result.ok.inj (hok.symm.trans hok')
  obtain ⟨htable, hlists, hpick⟩ := contextSwitch_spec k.sched r
  have hprocs := contextSwitch_procs k.sched r
  refine ⟨⟨hl.congr hlists fun q => (htable q).1.ready, fun c hc => ?_, fun q hq hcall => ?_, hb⟩, fun r' hr' => ?_⟩
  · exact hl.pickNext_mem hcur (hpick.symm.trans hc)
  · have hq' := hpend q hq
    rw [hprocs] at hcall ⊢
    by_cases hqc : k.sched.current = some q
    · rw [if_pos hqc] at hcall hq' ⊢
      exact hq' hcall
    · rw [if_neg hqc] at hcall hq' ⊢
      exact hq' hcall
  · rcases hnext with ⟨⟨r'', rfl⟩, -⟩ | ⟨c, hc, hcall, rfl⟩
    · cases hr'
    · cases hr'
      exact ⟨c, hpick.trans hc, hcall, rfl⟩

/-! ### The recursion -/

/-- What a level does to the ready list: the current process, which has been in a call that suspends, leaves it, or the
list stays as it is and no level follows. -/
structure Level (k : State) (next : Next) (k' : State) : Prop where
  lists : ∃ c R U R' U', k.sched.current = some c ∧ c ∈ R ∧ Pending k.sched c ∧ Lined k.sched R U ∧ Lined k'.sched R' U' ∧
    (R' = R.erase c ∨ R' = R ∧ ∃ r, next = .back r)

/-- The recursion comes to an end, and each level does to the ready list what it should. -/
inductive Handled (m : Machine) (idle : Regs) : Next → State → Prop where
  | back (r : Regs) (k : State) : Handled m idle (.back r) k
  | fault {r : Regs} {k k' : State} {e : Fault} : syscallOnce m idle r k = .error e k' → Handled m idle (.again r) k
  | level {r : Regs} {k k' : State} {next : Next} : syscallOnce m idle r k = .ok next k' → Level k next k' →
      Handled m idle next k' → Handled m idle (.again r) k

/-- A call that suspends, executed by `p`. -/
theorem waiting_rests {args : List ℕ} {no : ℕ} (hb : Bounded (k.space p)) (hargs : ∀ i, args.getD i 0 < wordSize)
    (hno : no ∈ waitingCalls) (hok : dispatch m p r no args k = .ok (res, r') k') :
    r' = r ∧ Rests p res k.sched k'.sched := by
  simp only [List.mem_cons, List.not_mem_nil, or_false] at hno
  rcases hno with rfl | rfl | rfl
  · obtain ⟨hx, hr⟩ := keep_ok (x := syscallRead m.filesystem p _ _ _) hok
    exact ⟨hr, read_rests hb (hargs 2) hx⟩
  · obtain ⟨hx, hr⟩ := keep_ok (x := syscallReceive p _ _) hok
    exact ⟨hr, receive_rests hx⟩
  · obtain ⟨hx, hr⟩ := keep_ok (x := syscallWaitpid p _ _) hok
    exact ⟨hr, waitpid_rests hx⟩

/-! ### One level -/

theorem syscallOnce_executes (idle : Regs) (hcur : k.sched.current = some p) :
    syscallOnce m idle r k = (executes m p r >>= fun x => finish idle p r.eax x.2 x.1) k := by
  unfold syscallOnce executes
  rw [run_get, hcur]
  simp only [bind_assoc]

theorem executes_inv {x : ℤ × Regs} {k₁ : State} (hx : executes m p r k = .ok x k₁) : ∃ log,
    dispatch m p r r.eax (argWords k p r) { k with sched := enter k.sched p r.eax, log := log } = .ok x k₁ := by
  obtain ⟨_, k₂, h₂, hx⟩ := bind_ok hx
  cases h₂
  obtain ⟨args, k₃, h₃, hx⟩ := bind_ok hx
  obtain ⟨rfl, log, rfl⟩ := readArgs_inv h₃
  exact ⟨log, hx⟩

theorem syscallOnce_inv (hcur : k.sched.current = some p) (hok : syscallOnce m idle r k = .ok next k') :
    ∃ log res r₁ k₁, dispatch m p r r.eax (argWords k p r) { k with sched := enter k.sched p r.eax, log := log } =
      .ok (res, r₁) k₁ ∧ finish idle p r.eax r₁ res k₁ = .ok next k' := by
  rw [syscallOnce_executes idle hcur] at hok
  obtain ⟨⟨res, r₁⟩, k₁, hx, hend⟩ := bind_ok hok
  obtain ⟨log, hx⟩ := executes_inv hx
  exact ⟨log, res, r₁, k₁, hx, hend⟩

/-- The end of a call that has suspended the caller. -/
theorem finish_suspended (idle : Regs) (old no : ℕ) (r : Regs) (k : State) :
    finish idle old no r (-ESUSPEND) k = switchTo idle r k := by
  have herrno : storeErrno k.sched no (-ESUSPEND) = (-ESUSPEND, k.sched) := by
    unfold storeErrno
    exact if_neg fun h => h.2 rfl
  unfold finish
  rw [run_get, herrno]
  dsimp only
  have hkept : schedDo (fun _ => .ok k.sched) k = .ok () k := rfl
  rw [run_bind hkept, if_pos rfl]

/-- The end of a call that has not, and has left the caller where it was. -/
theorem finish_settled {old no : ℕ} (hres : res ≠ -ESUSPEND) (hcur : k.sched.current = some old)
    (hok : finish idle old no r res k = .ok next k') :
    (∃ r', next = .back r') ∧ ∀ R U, Lined k.sched R U → Lined k'.sched R U := by
  obtain ⟨htable, hlists, hcur', hsus⟩ := storeErrno_spec k.sched no res
  unfold finish at hok
  rw [run_get] at hok
  generalize storeErrno k.sched no res = x at hok htable hlists hcur' hsus
  obtain ⟨res', S⟩ := x
  obtain ⟨u, k₁, h₁, hok⟩ := bind_ok hok
  cases h₁
  rw [if_neg fun h => hres (hsus.mp h)] at hok
  obtain ⟨u', k₂, h₂, hok⟩ := bind_ok hok
  cases h₂
  rw [run_get] at hok
  rw [if_pos (show (S.set old { S.procs old with inSyscall := 0 }).current = some old from hcur'.trans hcur)] at hok
  cases hok
  refine ⟨⟨_, rfl⟩, fun R U hl => ?_⟩
  exact (hl.congr hlists fun q => (htable q).1.ready).set rfl

/-- The calls that suspend or end the caller. -/
abbrev stoppingCalls : List ℕ := SYSCALL_EXIT :: SYSCALL_KILL :: waitingCalls

/-- The calls and the registers of the processes, and their segments. -/
structure Spared (k k' : State) : Prop where
  call : ∀ q, (k'.sched.procs q).inSyscall = (k.sched.procs q).inSyscall
  regs : ∀ q, (k'.sched.procs q).savedRegs = (k.sched.procs q).savedRegs
  space : k'.space = k.space

/-- **The calls that suspend** do nothing to the calls of others. -/
theorem spared_dispatch {args : List ℕ} {no : ℕ} (hno : no ∈ stoppingCalls)
    (hok : dispatch m p r no args k = .ok (res, r') k') : Spared k k' := by
  have hturn := (acts_dispatch m no r args k.outline).ok rfl hok
  have hof : ∀ o' : Outline, k'.outline = o' → (∀ q, (o'.table q).inSyscall = (k.sched.procs q).inSyscall) →
      (∀ q, (o'.table q).savedRegs = (k.sched.procs q).savedRegs) → o'.space = k.space → Spared k k' := by
    rintro o' rfl hcall hregs hspace
    exact ⟨hcall, hregs, hspace⟩
  generalize ho : k'.outline = o' at hturn
  have hne : no ≠ SYSCALL_FORK ∧ no ≠ SYSCALL_BRK ∧ no ≠ SYSCALL_EXECVE := by
    simp only [stoppingCalls, waitingCalls, List.mem_cons, List.not_mem_nil, or_false] at hno
    rcases hno with rfl | rfl | rfl | rfl | rfl
    all_goals decide
  cases hturn with
  | wrote _ _ hsc =>
    obtain ⟨P, -, rfl⟩ := hsc
    exact hof _ ho (fun _ => rfl) (fun _ => rfl) rfl
  | forked _ _ _ hfork => exact absurd hfork hne.1
  | killed _ q e P =>
    -- only the flags of the process that has been killed are different
    have hstand : ∀ z, ∃ e' x', (Outline.kill k.outline q e P).table z = { k.outline.table z with exists_ := e', exited := x' } := by
      intro z
      by_cases hz : z = q
      · exact ⟨e, true, by rw [hz]; exact Function.update_self _ _ _⟩
      · exact ⟨_, _, Function.update_of_ne hz _ _⟩
    refine hof _ ho (fun z => ?_) (fun z => ?_) rfl
    · obtain ⟨e', x', h⟩ := hstand z
      rw [h]
      rfl
    · obtain ⟨e', x', h⟩ := hstand z
      rw [h]
      rfl
  | grown _ _ hbrk => exact absurd hbrk hne.2.1
  | loaded _ _ hexec => exact absurd hexec hne.2.2
  | reaped _ o₁ _ hreap hsc =>
    obtain ⟨e, rfl, -⟩ := hreap
    obtain ⟨P, -, rfl⟩ := hsc
    exact hof _ ho (fun _ => rfl) (fun _ => rfl) rfl

/-- Entering a call and reading its arguments does nothing to the calls of others. -/
theorem Spared.pending {no q : ℕ} {log : List ℕ} (h : Spared { k with sched := enter k.sched p no, log := log } k')
    (hq : q ≠ p) (hpend : Pending k.sched q) : Pending k'.sched q := by
  have hentry : (enter k.sched p no).procs q = k.sched.procs q := Function.update_of_ne hq _ _
  intro hcall
  rw [h.call q, show (enter k.sched p no).procs q = k.sched.procs q from hentry] at hcall
  rw [h.regs q, show (enter k.sched p no).procs q = k.sched.procs q from hentry]
  exact hpend hcall

/-- The current process stays the same, unless it has been killed. -/
theorem dispatch_current {args : List ℕ} {no : ℕ} (hok : dispatch m p r no args k = .ok (res, r') k') :
    k'.sched.current = k.sched.current ∨ k'.sched.current = none ∧ (no = SYSCALL_EXIT ∨
      no = SYSCALL_KILL ∧ ∃ q : ℕ, toInt (args.getD 0 0) = q ∧ k.sched.current = some q ∧ (k.sched.procs q).exists_ = true) := by
  have hturn := (acts_dispatch m no r args k.outline).ok rfl hok
  generalize ho : k'.outline = o' at hturn
  have hcur : k'.sched.current = o'.current := congrArg Outline.current ho
  rw [hcur]
  cases hturn with
  | wrote _ _ hsc =>
    obtain ⟨P, -, rfl⟩ := hsc
    exact Or.inl rfl
  | forked => exact Or.inl rfl
  | killed _ q e P hq =>
    by_cases hkc : k.sched.current = some q
    · refine Or.inr ⟨if_pos hkc, ?_⟩
      rcases hq with ⟨hno, -⟩ | ⟨hno, harg, hex⟩
      · exact Or.inl hno
      · exact Or.inr ⟨hno, q, harg, hkc, hex⟩
    · exact Or.inl (if_neg hkc)
  | grown => exact Or.inl rfl
  | loaded _ _ _ hload =>
    obtain ⟨_, _, P, -, -, P', -, rfl⟩ := hload
    exact Or.inl rfl
  | reaped _ o₁ _ hreap hsc =>
    obtain ⟨e, rfl, -⟩ := hreap
    obtain ⟨P, -, rfl⟩ := hsc
    exact Or.inl rfl

/-- **A nested level.**  The pending call of the current process is executed again. -/
theorem level_ok (hp : Poised k R U) (hr : Resumed k r) (hok : syscallOnce m idle r k = .ok next k') :
    Level k next k' ∧
      ∀ r', next = .again r' → ∃ R' U', Poised k' R' U' ∧ R'.length < R.length ∧ Resumed k' r' := by
  obtain ⟨c, hcur, hcall, rfl⟩ := hr
  have hcR := hp.running c hcur
  have hno := hp.pending c hcR hcall
  obtain ⟨log, res, r₁, k₁, hdis, hend⟩ := syscallOnce_inv hcur hok
  let k₀ : State := { k with sched := enter k.sched c (k.sched.procs c).savedRegs.eax, log := log }
  have hl₀ : Lined k₀.sched R U := hp.lined.set rfl
  have hb₀ : Bounded (k₀.space c) := hp.bounded c hcR
  obtain ⟨rfl, hrests⟩ := waiting_rests hb₀ (argWords_lt k c _) hno hdis
  have hspared := spared_dispatch (List.mem_cons_of_mem _ (List.mem_cons_of_mem _ hno)) hdis
  have hcur₁ : k₁.sched.current = some c := by
    rcases dispatch_current hdis with h | ⟨-, hexit | ⟨hkill, -⟩⟩
    · exact h.trans hcur
    · rw [hexit] at hno
      exact absurd hno (by decide)
    · rw [hkill] at hno
      exact absurd hno (by decide)
  obtain ⟨U', hl₁⟩ := hrests.lists R U hl₀
  by_cases hres : res = -ESUSPEND
  · -- the process has left the ready list
    subst hres
    rw [if_pos rfl] at hl₁
    have hout : c ∉ R.erase c := hp.lined.layout.ready.nodup.not_mem_erase
    have hasleep := (hrests.asleep rfl).2
    obtain ⟨hp', hnext⟩ := switchTo_poised hl₁ (fun c' hc' hready => by
        obtain rfl : c = c' := Option.some.inj (hcur₁.symm.trans hc')
        rw [hasleep] at hready
        cases hready)
      (fun q hq hcall' => by
        have hqc : q ≠ c := fun he => hout (he ▸ hq)
        rw [if_neg fun he => hqc (Option.some.inj (he.symm.trans hcur₁))]
        exact hspared.pending hqc (hp.pending q (List.mem_of_mem_erase hq)) hcall')
      (fun q hq => by
        rw [hspared.space]
        exact hp.bounded q (List.mem_of_mem_erase hq))
      (finish_suspended idle _ _ _ k₁ ▸ hend)
    refine ⟨⟨c, R, U, _, _, hcur, hcR, hp.pending c hcR, hp.lined, hp'.lined, Or.inl rfl⟩, fun r' hr' => ?_⟩
    refine ⟨_, _, hp', ?_, hnext r' hr'⟩
    rw [List.length_erase_of_mem hcR]
    exact Nat.sub_lt (List.length_pos_of_mem hcR) Nat.one_pos
  · rw [if_neg hres] at hl₁
    obtain ⟨⟨r₂, rfl⟩, hsame⟩ := finish_settled hres hcur₁ hend
    exact ⟨⟨c, R, U, _, _, hcur, hcR, hp.pending c hcR, hp.lined, hsame R U' hl₁, Or.inr ⟨rfl, r₂, rfl⟩⟩,
      fun r' hr' => by cases hr'⟩

/-- **The recursion ends.**  The induction is on the length of the ready list. -/
theorem Poised.handled (hp : Poised k R U) (hr : Resumed k r) : Handled m idle (.again r) k := by
  induction hn : R.length using Nat.strong_induction_on generalizing k R U r with
  | _ n ih =>
    subst hn
    cases hok : syscallOnce m idle r k with
    | error e k' => exact .fault hok
    | ok next k' =>
      obtain ⟨hlevel, hnext⟩ := level_ok hp hr hok
      refine .level hok hlevel ?_
      cases next with
      | back r' => exact .back r' k'
      | again r' =>
        obtain ⟨R', U', hp', hlt, hr'⟩ := hnext r' rfl
        exact ih R'.length hlt hp' hr' rfl

/-! ### From a trap to the first nested level -/

/-- The process is on the ready list, or could be woken up. -/
def Eligible (S : Sched) (q : ℕ) : Prop := (S.procs q).exists_ = true ∧ ((S.procs q).exited = false ∨ (S.procs q).ready = false)

/-- The kernel when a trap comes: the lists are well formed, the current process is ready, segments and error numbers
are in range, and no process but the current one has anything but a call that suspends to finish. -/
structure Orderly (k : State) : Prop where
  good : Good k.sched
  running : ∀ p, k.sched.current = some p → (k.sched.procs p).ready = true
  bounded : ∀ q, (k.sched.procs q).exists_ = true → Bounded (k.space q)
  errno : ∀ q, 0 ≤ (k.sched.procs q).lastErrno
  pending : ∀ q, Eligible k.sched q → k.sched.current ≠ some q → Pending k.sched q

/-- What has been said of the other processes holds of the one that is interrupted. -/
def Trap.Plain (k : State) : Trap → Prop
  | .timer r => ∀ p, k.sched.current = some p → (k.sched.procs p).inSyscall ≠ 0 → r.eax ∈ waitingCalls
  | .key r _ => ∀ p, k.sched.current = some p → (k.sched.procs p).inSyscall ≠ 0 → r.eax ∈ waitingCalls
  | .call _ => True

theorem Orderly.lined (h : Orderly k) : ∃ R U, Lined k.sched R U ∧ (∀ q ∈ R, Eligible k.sched q) ∧
    ∀ p, k.sched.current = some p → p ∈ R := by
  obtain ⟨R, U, hinv⟩ := h.good
  refine ⟨R, U, lined_of_inv hinv, fun q hq => ?_, fun p hp => ?_⟩
  · obtain ⟨hlive, -⟩ := (hinv.mem_ready q).mp hq
    exact ⟨hlive.1, Or.inl hlive.2⟩
  · exact (hinv.mem_ready p).mpr ⟨hinv.current_alive p hp, h.running p hp⟩

theorem Rousable.eligible (hR : ∀ q ∈ R, Eligible S q) {q : ℕ} (h : Rousable S R q) : Eligible S q := by
  rcases h with hq | ⟨hex, hready⟩
  · exact hR q hq
  · exact ⟨hex, Or.inr hready⟩

/-- A switch from the process that is interrupted. -/
theorem switch_first (h : Orderly k) (hspared : Spared k k') (hcur : k'.sched.current = k.sched.current) {R' U' : List ℕ}
    (hl : Lined k'.sched R' U') (hR : ∀ q ∈ R', Eligible k.sched q) (hin : ∀ p, k.sched.current = some p → p ∈ R')
    (hpend : ∀ p, k.sched.current = some p → (k.sched.procs p).inSyscall ≠ 0 → r.eax ∈ waitingCalls) {k'' : State}
    (hok : switchTo idle r k' = .ok next k'') : ∀ r', next = .again r' → ∃ R U, Poised k'' R U ∧ Resumed k'' r' := by
  obtain ⟨hp, hnext⟩ := switchTo_poised hl (fun c hc _ => hin c (hcur.symm.trans hc)) (fun q hq hcall => by
      rw [hspared.call q] at hcall
      by_cases hqc : k'.sched.current = some q
      · rw [if_pos hqc]
        exact hpend q (hcur.symm.trans hqc) hcall
      · rw [if_neg hqc, hspared.regs q]
        exact h.pending q (hR q hq) (fun he => hqc (hcur.trans he)) hcall)
    (fun q hq => by
      rw [hspared.space]
      exact h.bounded q (hR q hq).1) hok
  exact fun r' hr' => ⟨R', U', hp, hnext r' hr'⟩

theorem spared_of_outline (h : k'.outline = k.outline) : Spared k k' ∧ k'.sched.current = k.sched.current := by
  have htable : ∀ q, standingOf (k'.sched.procs q) = standingOf (k.sched.procs q) := fun q =>
    congrFun (congrArg Outline.table h) q
  refine ⟨⟨fun q => ?_, fun q => ?_, congrArg Outline.space h⟩, congrArg Outline.current h⟩
  · exact congrArg Standing.inSyscall (htable q)
  · exact congrArg Standing.savedRegs (htable q)

theorem timer_ok (h : Orderly k) (hplain : Trap.Plain k (.timer r)) (hok : switchTo idle r k = .ok next k') :
    ∀ r', next = .again r' → ∃ R U, Poised k' R U ∧ Resumed k' r' := by
  obtain ⟨R, U, hl, hR, hin⟩ := h.lined
  obtain ⟨hspared, hcur⟩ := spared_of_outline (show k.outline = k.outline from rfl)
  exact switch_first h hspared hcur hl hR hin hplain hok

theorem rouses_typeKey (b : UInt8) (input : Option ℕ) : Rouses (typeKey b input) := by
  cases input with
  | none => exact rouses_pure ()
  | some a => exact rouses_writeToPipe a 1 (still_pure _)

theorem key_ok {b : UInt8} {input : Option ℕ} (h : Orderly k) (hplain : Trap.Plain k (.key r b))
    (hok : handle m idle input (.key r b) k = .ok next k') :
    ∀ r', next = .again r' → ∃ R U, Poised k' R U ∧ Resumed k' r' := by
  obtain ⟨R, U, hl, hR, hin⟩ := h.lined
  unfold handle at hok
  obtain ⟨u, k₁, htype, hswitch⟩ := bind_ok hok
  have hres : Resumes (fun _ => True) k.sched k₁.sched := (rouses_typeKey b input k.sched).ok rfl htype
  obtain ⟨R₁, U₁, hstir, hl₁, hmore, -⟩ := (Stirred.refl k.sched R).resumes hl hres
  obtain ⟨hspared, hcur⟩ := spared_of_outline ((hidden_typeKey b input k.outline).ok rfl htype)
  exact switch_first h hspared hcur hl₁ (fun q hq => (hstir.rousable q hq).eligible hR)
    (fun p hp => hmore p (hin p hp)) hplain hswitch

/-- A switch from a process that has been suspended or killed by its call. -/
theorem switch_suspended (h : Orderly k) {log : List ℕ} {no : ℕ}
    (hspared : Spared { k with sched := enter k.sched p no, log := log } k') {R' U' : List ℕ} (hl : Lined k'.sched R' U')
    (hR : ∀ q ∈ R', Eligible k.sched q) (hcur : k.sched.current = some p) (hout : p ∉ R')
    (hgone : k'.sched.current = none ∨ k'.sched.current = some p ∧ (k'.sched.procs p).ready = false) {k'' : State}
    (hok : switchTo idle r k' = .ok next k'') : ∀ r', next = .again r' → ∃ R U, Poised k'' R U ∧ Resumed k'' r' := by
  obtain ⟨hp, hnext⟩ := switchTo_poised hl (fun c hc hready => by
      rcases hgone with hno | ⟨hsame, hasleep⟩
      · rw [hno] at hc
        cases hc
      · obtain rfl : p = c := Option.some.inj (hsame.symm.trans hc)
        rw [hasleep] at hready
        cases hready)
    (fun q hq hcall => by
      have hqp : q ≠ p := fun he => hout (he ▸ hq)
      have hother : k'.sched.current ≠ some q := by
        rintro hc
        rcases hgone with hno | ⟨hsame, -⟩
        · rw [hno] at hc
          cases hc
        · exact hqp (Option.some.inj (hc.symm.trans hsame))
      rw [if_neg hother]
      refine hspared.pending hqp (h.pending q (hR q hq) fun hc => ?_) hcall
      exact hqp (Option.some.inj (hc.symm.trans hcur)))
    (fun q hq => by
      rw [hspared.space]
      exact h.bounded q (hR q hq).1) hok
  exact fun r' hr' => ⟨R', U', hp, hnext r' hr'⟩

/-- What a handler that answers `-ESUSPEND` leaves behind. -/
theorem suspends_leaves {fs : Memory} {args : List ℕ} {no : ℕ} (hl : Lined k.sched R U)
    (hready : (k.sched.procs p).ready = true)
    (hcur : k.sched.current = some p) (hpid : (k.sched.procs p).pid = p) (hb : Bounded (k.space p))
    (hargs : ∀ i, args.getD i 0 < wordSize) (hsus : Suspends fs p args k k' no) :
    no ∈ stoppingCalls ∧ ∃ R' U', Lined k'.sched R' U' ∧ p ∉ R' ∧ (∀ q ∈ R', Rousable k.sched R q) ∧
      (k'.sched.current = none ∨ (k'.sched.procs p).ready = false) := by
  have hrests : Rests p (-ESUSPEND) k.sched k'.sched → ∃ R' U', Lined k'.sched R' U' ∧ p ∉ R' ∧
      (∀ q ∈ R', Rousable k.sched R q) ∧ (k'.sched.current = none ∨ (k'.sched.procs p).ready = false) := by
    intro h
    obtain ⟨U', hl'⟩ := h.lists R U hl
    rw [if_pos rfl] at hl'
    exact ⟨_, U', hl', hl.layout.ready.nodup.not_mem_erase, fun q hq => .inl (List.mem_of_mem_erase hq),
      Or.inr (h.asleep rfl).2⟩
  have hkills : ∀ (k₁ : State) {u : Unit}, k₁.sched.current = some p → killProcess p k₁ = .ok u k' →
      k'.sched.current = none := by
    intro k₁ u hcur₁ hkill
    obtain ⟨e, P, -, -, ho⟩ := (acts_killProcess (o := k₁.outline) p).ok rfl hkill
    exact (congrArg Outline.current ho).trans (if_pos hcur₁)
  cases hsus with
  | read hok => exact ⟨by decide, hrests (read_rests hb (hargs 2) hok)⟩
  | receive hok => exact ⟨by decide, hrests (receive_rests hok)⟩
  | waitpid hok => exact ⟨by decide, hrests (waitpid_rests hok)⟩
  | exit hok =>
    refine ⟨by decide, ?_⟩
    unfold Kernel.syscallExit at hok
    obtain ⟨u, k₁, h₁, hok⟩ := bind_ok hok
    cases h₁
    obtain ⟨u', k₂, hkill, hok⟩ := bind_ok hok
    cases hok
    let S := setExitStatus k.sched p (toInt (args.getD 0 0))
    have hsame : ∀ q, (S.procs q).ready = (k.sched.procs q).ready ∧ (S.procs q).exists_ = (k.sched.procs q).exists_ := by
      intro q
      show (Function.update k.sched.procs p _ q).ready = _ ∧ (Function.update k.sched.procs p _ q).exists_ = _
      by_cases hq : q = p
      · rw [hq, Function.update_self]
        exact ⟨rfl, rfl⟩
      · rw [Function.update_of_ne hq]
        exact ⟨rfl, rfl⟩
    obtain ⟨R', U', hstir, hl', hout⟩ := kill_stirs (k := { k with sched := S }) (hl.set rfl)
      ((hsame p).1.trans hready) hkill
    refine ⟨R', U', hl', hout, fun q hq => ?_, Or.inl (hkills { k with sched := S } hcur hkill)⟩
    have hq' := hstir.rousable q hq
    unfold Rousable at hq'
    rwa [show (State.sched { k with sched := S }) = S from rfl, (hsame q).1, (hsame q).2] at hq'
  | kill hok =>
    refine ⟨by decide, ?_⟩
    rcases kill_answer hok with ⟨hno, -⟩ | ⟨u, hkill, hnonneg, -, hres⟩
    · exact absurd hno (by decide)
    · have hself : toInt (args.getD 0 0) = (k.sched.procs p).pid := by
        by_contra hne
        rw [if_neg hne] at hres
        exact absurd hres (by decide)
      have hp : (toInt (args.getD 0 0)).toNat = p := by
        rw [hself, hpid]
        exact Int.toNat_natCast p
      rw [hp] at hkill
      obtain ⟨R', U', hstir, hl', hout⟩ := kill_stirs hl hready hkill
      exact ⟨R', U', hl', hout, hstir.rousable, Or.inl (hkills k hcur hkill)⟩

theorem call_ok (h : Orderly k) (hcur : k.sched.current = some p) (hno : ¬ Mistaken r.eax (argWords k p r))
    (hok : syscallOnce m idle r k = .ok next k') : ∀ r', next = .again r' → ∃ R U, Poised k' R U ∧ Resumed k' r' := by
  obtain ⟨R, U, hl, hR, hin⟩ := h.lined
  obtain ⟨log, res, r₁, k₁, hdis, hend⟩ := syscallOnce_inv hcur hok
  let k₀ : State := { k with sched := enter k.sched p r.eax, log := log }
  have hex : (k.sched.procs p).exists_ = true := (hR p (hin p hcur)).1
  have hpid : (k.sched.procs p).pid = p := by
    obtain ⟨R₀, U₀, hinv⟩ := h.good
    exact hinv.pid_eq p hex
  -- entering the call changes nothing that matters
  have hentry : ∀ q, (k₀.sched.procs q).ready = (k.sched.procs q).ready ∧
      (k₀.sched.procs q).exists_ = (k.sched.procs q).exists_ ∧ (k₀.sched.procs q).pid = (k.sched.procs q).pid ∧
      (k₀.sched.procs q).lastErrno = (k.sched.procs q).lastErrno := by
    intro q
    rw [show k₀.sched.procs q = (enter k.sched p r.eax).procs q from rfl, enter_proc]
    exact ⟨rfl, rfl, rfl, rfl⟩
  have hl₀ : Lined k₀.sched R U := hl.set rfl
  have hb₀ : Bounded (k₀.space p) := h.bounded p hex
  by_cases hres : res = -ESUSPEND
  · subst hres
    obtain ⟨rfl, hsus⟩ := answers_suspend hb₀ (argWords_lt k p r) ((hentry p).2.2.2 ▸ h.errno p) hno hdis
    obtain ⟨hstop, R', U', hl', hout, hR', hgone⟩ := suspends_leaves hl₀ ((hentry p).1.trans (h.running p hcur)) hcur
      ((hentry p).2.2.1.trans hpid) hb₀ (argWords_lt k p r₁) hsus
    refine switch_suspended h (spared_dispatch hstop hdis) hl' (fun q hq => ?_) hcur hout ?_ (finish_suspended idle _ _ _ k₁ ▸ hend)
    · apply Rousable.eligible hR
      rcases hR' q hq with hq' | ⟨hex', hready'⟩
      · exact Or.inl hq'
      · exact Or.inr ⟨(hentry q).2.1.symm.trans hex', (hentry q).1.symm.trans hready'⟩
    · rcases dispatch_current hdis with hsame | ⟨hnone, -⟩
      · rcases hgone with hnone | hasleep
        · exact Or.inl hnone
        · exact Or.inr ⟨hsame.trans hcur, hasleep⟩
      · exact Or.inl hnone
  · -- the caller has not been killed
    have hcur₁ : k₁.sched.current = some p := by
      rcases dispatch_current hdis with hsame | ⟨-, hexit | ⟨hkill, q, harg, hq, -⟩⟩
      · exact hsame.trans hcur
      · rw [hexit] at hdis
        obtain ⟨hx, -⟩ := keep_ok (x := syscallExit p _) hdis
        exact absurd (yields_exit _ _ _ _ hx) hres
      · obtain rfl : p = q := Option.some.inj (hcur.symm.trans hq)
        rw [hkill] at hdis
        obtain ⟨hx, -⟩ := keep_ok (x := syscallKill p _) hdis
        rcases kill_answer hx with ⟨-, hsame⟩ | ⟨u, -, -, -, hval⟩
        · rw [hsame]
          exact hcur
        · refine absurd (hval.trans (if_pos (harg.trans ?_))) hres
          have hpid' : ((enter k.sched p SYSCALL_KILL).procs p).pid = p := by
            rw [enter_proc]
            exact hpid
          exact congrArg Nat.cast hpid'.symm
    obtain ⟨⟨r₂, rfl⟩, -⟩ := finish_settled hres hcur₁ hend
    exact fun r' hr' => by cases hr'

/-! ### Traps that end -/

/-- The trap is handled in finitely many levels. -/
def Returns (m : Machine) (idle : Regs) (input : Option ℕ) (k : State) (t : Trap) : Prop :=
  ∀ next k', handle m idle input t k = .ok next k' → Handled m idle next k'

/-- What a trap is, apart from the state in which it comes. -/
inductive Cause where
  | timer
  | key (c : UInt8)
  | call (no : ℕ) (args : List ℕ)

def Trap.cause (k : State) : Trap → Cause
  | .timer _ => .timer
  | .key _ c => .key c
  | .call r => .call r.eax (match k.sched.current with
    | some p => argWords k p r
    | none => [])

/-- A call of `getcwd` with `-ESUSPEND` for a buffer of no size. -/
abbrev mistake : Cause := .call SYSCALL_GETCWD [SUSPEND_WORD, 0]

theorem mistake_of_mistaken (hcur : k.sched.current = some p) (h : Mistaken r.eax (argWords k p r)) :
    Trap.cause k (.call r) = mistake := by
  obtain ⟨hno, h0, h1⟩ := h
  have hlen : (argWords k p r).length = 2 := by
    unfold argWords
    rw [List.length_map, List.length_range, hno]
    rfl
  have hargs : argWords k p r = [SUSPEND_WORD, 0] := by
    generalize argWords k p r = l at hlen h0 h1
    obtain ⟨a, b, rfl⟩ := List.length_eq_two.mp hlen
    rw [show a = SUSPEND_WORD from h0, show b = 0 from h1]
  show Cause.call r.eax (match k.sched.current with
    | some p => argWords k p r
    | none => []) = _
  rw [hcur, hno]
  exact congrArg (Cause.call SYSCALL_GETCWD) hargs

/-- **Every other trap ends.** -/
theorem Orderly.returns (h : Orderly k) (input : Option ℕ) {t : Trap} (hplain : t.Plain k) (hcause : t.cause k ≠ mistake) :
    Returns m idle input k t := by
  intro next k' hok
  have hfirst : ∀ r', next = .again r' → ∃ R U, Poised k' R U ∧ Resumed k' r' := by
    cases t with
    | timer r => exact timer_ok h hplain hok
    | key r b => exact key_ok h hplain hok
    | call r =>
      cases hcur : k.sched.current with
      | none =>
        replace hok : syscallOnce m idle r k = .ok next k' := hok
        unfold syscallOnce at hok
        rw [run_get, hcur] at hok
        cases hok
      | some p => exact call_ok h hcur (fun hno => hcause (mistake_of_mistaken hcur hno)) hok
  cases next with
  | back r' => exact .back r' k'
  | again r' =>
    obtain ⟨R, U, hp, hr⟩ := hfirst r' rfl
    exact hp.handled hr

/-! ### The trap that does not end -/

/-- The only ready process has a call of `getcwd` to finish that looks as if it had suspended its caller. -/
structure Spinning (k : State) (p : ℕ) (r : Regs) : Prop where
  sound : Sound k p
  current : k.sched.current = some p
  ready : (k.sched.procs p).ready = true
  first : k.sched.ready.first = some p
  last : k.sched.links.next p = none
  call : r.eax = SYSCALL_GETCWD
  block : (k.space p).Region (offset r.useresp 4) 8
  args : argWords k p r = [SUSPEND_WORD, 0]

/-- The call is left pending, and executed again. -/
theorem Spinning.again (h : Spinning k p r) (m : Machine) (idle : Regs) :
    ∃ k', syscallOnce m idle r k = .ok (.again r) k' ∧ Spinning k' p r := by
  let S := enter k.sched p SYSCALL_GETCWD
  let k₁ : State := { k with sched := S }
  have hsound₁ : Sound k₁ p := ⟨h.sound.text, h.sound.text_lt, h.sound.data, h.sound.data_lt, h.sound.stack,
    h.sound.stack_le, h.sound.mapped⟩
  have harity : arity r.eax = 2 := by
    rw [h.call]
    rfl
  obtain ⟨k₂, hread, L, -, rfl⟩ := readArgs_ok (r := r) hsound₁ (by rw [harity]; exact h.block)
  rw [show argWords k₁ p r = [SUSPEND_WORD, 0] from h.args] at hread
  let k₂ : State := { k₁ with log := L ++ k.log }
  -- nothing is checked and nothing is printed
  have hdis : dispatch m p r SYSCALL_GETCWD [SUSPEND_WORD, 0] k₂ = .ok (-ESUSPEND, r) k₂ := rfl
  let S' := contextSwitch S r
  have hpick : pickNext S = some p := by
    unfold pickNext
    rw [show S.current = some p from h.current]
    have hready : (S.procs p).ready = true := by
      rw [enter_proc]
      exact h.ready
    simp only [hready, if_true]
    rw [show S.links.next p = none from h.last, show S.ready.first = some p from h.first]
    rfl
  obtain ⟨htable, hlists, hcur⟩ := contextSwitch_spec S r
  have hentry : S'.procs p = { S.procs p with savedRegs := r } := by
    rw [show S'.procs p = (contextSwitch S r).procs p from rfl, contextSwitch_procs]
    exact if_pos h.current
  have hcall : (S'.procs p).inSyscall = SYSCALL_GETCWD := by
    rw [hentry]
    show (S.procs p).inSyscall = _
    rw [enter_proc]
    exact if_pos rfl
  have hswitch : switchTo idle r k₂ = .ok (.again r) { k₂ with sched := S' } := by
    obtain ⟨next, hok, ⟨-, hno⟩ | ⟨c, hc, -, hnext⟩⟩ := switchTo_eq idle r k₂
    · exact absurd (hcall.symm.trans (hno p hpick)) (by decide)
    · obtain rfl : p = c := Option.some.inj (hpick.symm.trans hc)
      rw [hok, hnext, show (contextSwitch k₂.sched r).procs p = _ from hentry]
  refine ⟨{ k₂ with sched := S' }, ?_, ?_⟩
  · unfold syscallOnce
    rw [run_get, h.current]
    simp only [h.call]
    rw [run_bind (show schedDo (fun S => .ok (enter S p SYSCALL_GETCWD)) k = .ok () k₁ from rfl)]
    rw [h.call] at hread
    rw [run_bind hread, run_bind hdis]
    exact (finish_suspended idle p _ r k₂).trans hswitch
  · refine ⟨⟨hsound₁.text, hsound₁.text_lt, hsound₁.data, hsound₁.data_lt, hsound₁.stack, hsound₁.stack_le, hsound₁.mapped⟩,
      hcur.trans hpick, ?_, ?_, ?_, h.call, h.block, h.args⟩
    · rw [(htable p).1.ready, enter_proc]
      exact h.ready
    · exact (congrArg Lib.Dlist.Ends.first hlists.2.1).trans h.first
    · exact (congrFun (congrArg Lib.Dlist.Links.next hlists.1) p).trans h.last

/-- **The recursion does not end.** -/
theorem Spinning.not_handled (h : Spinning k p r) : ¬ Handled m idle (.again r) k := by
  intro hh
  generalize hnext : Next.again r = next at hh
  induction hh generalizing r with
  | back => cases hnext
  | fault he =>
    cases hnext
    obtain ⟨k', hok, -⟩ := h.again m idle
    rw [hok] at he
    cases he
  | level he _ _ ih =>
    cases hnext
    obtain ⟨k', hok, hspin⟩ := h.again m idle
    obtain ⟨rfl, rfl⟩ := EStateM.Result.ok.inj (hok.symm.trans he)
    exact ih hspin rfl

/-- The registers of such a call. -/
def spinRegs : Regs := { Regs.zero with eax := SYSCALL_GETCWD, useresp := STACK_LOW }

theorem bounded_of_sound (h : Sound k p) : Bounded (k.space p) := by
  obtain ⟨htext, htext', hdata, hdata', hstack, hstack', -⟩ := h
  exact ⟨by omega, by omega, hstack'⟩

/-- The first process, alone. -/
theorem orderly_of_one (hs : k.sched = oneProcess) (hsound : Sound k 1) : Orderly k := by
  have hother : ∀ q, (k.sched.procs q).exists_ = true → q = 1 := by
    intro q hq
    by_contra hne
    rw [hs, oneProcess_procs, Function.update_of_ne hne] at hq
    cases hq
  refine ⟨hs ▸ good_oneProcess, fun p hp => ?_, fun q hq => ?_, fun q => ?_, fun q hq hcur => ?_⟩
  · rw [hs] at hp ⊢
    obtain rfl : 1 = p := Option.some.inj hp
    rfl
  · rw [hother q hq]
    exact bounded_of_sound hsound
  · rw [hs, oneProcess_procs]
    by_cases hq : q = 1
    · rw [hq, Function.update_self]
      exact le_rfl
    · rw [Function.update_of_ne hq]
      exact le_rfl
  · rw [hother q hq.1, hs] at hcur
    exact absurd rfl hcur

/-- **The first process makes the call.** -/
theorem spinning_reached : ∃ n B k, Run Machine.bare (fun n k i => i.Fair n k ∧ i.Modest) n B k ∧
    k.sched = oneProcess ∧ Orderly k ∧ Spinning k 1 spinRegs := by
  obtain ⟨n, B, k, h, hmap, hs, -, -, -, hon⟩ := run_written Machine.bare 4 (wordBytes SUSPEND_WORD ++ wordBytes 0)
    (by decide)
  have hcur : k.sched.current = some 1 := by
    rw [hs]
    rfl
  obtain ⟨forked, asp, hsafe⟩ := id hmap
  have hsound : Sound k 1 := hsafe.sound (hsafe.good.current_live hcur)
  refine ⟨n, B, k, h, hs, orderly_of_one hs hsound, hsound, hcur, ?_, ?_, ?_, rfl, ?_, ?_⟩
  · rw [hs]
    rfl
  · rw [hs]
    rfl
  · rw [hs]
    rfl
  · exact hon.region (i := 0) (show 0 + 8 ≤ 8 by decide)
  · show [userWord k 1 (offset (STACK_LOW + 4 + 0) 0), userWord k 1 (offset (STACK_LOW + 4 + 0) 4)] = _
    rw [hon.word (w := SUSPEND_WORD) (by decide) (by decide), hon.word (w := 0) (by decide) (by decide)]
    rfl

/-- The state is one from which the call is made, and the trap is not handled in finitely many levels. -/
theorem Spinning.not_returns (h : Spinning k p r) (m : Machine) (idle : Regs) (input : Option ℕ) :
    Trap.cause k (.call r) = mistake ∧ ¬ Returns m idle input k (.call r) := by
  refine ⟨mistake_of_mistaken h.current ?_, fun hret => ?_⟩
  · rw [h.call, h.args]
    exact ⟨rfl, rfl, rfl⟩
  · obtain ⟨k', hok, hspin⟩ := h.again m idle
    exact hspin.not_handled (hret _ _ hok)

/-- **Traps end**, all but one. -/
theorem trap_returns_iff (cause : Cause) :
    (∀ m idle input k t, Orderly k → t.Plain k → t.cause k = cause → Returns m idle input k t) ↔
      cause ≠ .call SYSCALL_GETCWD [SUSPEND_WORD, 0] := by
  constructor
  · rintro hall rfl
    obtain ⟨n, B, k, -, -, horderly, hspin⟩ := spinning_reached
    obtain ⟨hcause, hnot⟩ := hspin.not_returns Machine.bare Regs.zero none
    exact hnot (hall _ _ _ _ _ horderly trivial hcause)
  · rintro hne m idle input k t horderly hplain rfl
    exact horderly.returns input hplain hne

/-- After boot the first process brings the kernel into an endless recursion. -/
theorem trap_spins : ∃ n B k r, Run Machine.bare (fun n k i => i.Fair n k ∧ i.Modest) n B k ∧ Orderly k ∧
    Trap.Plain k (.call r) ∧ k.sched = oneProcess ∧ ∀ idle input, ¬ Returns Machine.bare idle input k (.call r) := by
  obtain ⟨n, B, k, h, hs, horderly, hspin⟩ := spinning_reached
  exact ⟨n, B, k, spinRegs, h, horderly, trivial, hs, fun idle input => (hspin.not_returns Machine.bare idle input).2⟩

end AdelaideOS.Kernel
