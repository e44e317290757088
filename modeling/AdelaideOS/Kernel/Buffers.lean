import AdelaideOS.Kernel.Advance

/-!
# The buffers of the pipes

A pipe starts with a buffer of `BUFSIZE` bytes, and `write_to_pipe` doubles the size until the new bytes fit.  The loop
that doubles ends because the size is never 0: it is `BUFSIZE * 2 ^ j` in every state of every history.

* **`growLoop_ok`** — the loop ends, with less than twice the bytes that are needed;
* **`ample_of_run`** — the sizes of all buffers.
-/

namespace AdelaideOS.Kernel

open AdelaideOS.Lib.Bytes AdelaideOS.Lib.View AdelaideOS.Page AdelaideOS.Process

/-- A size that repeated doubling gives. -/
def Doubled (alloc : ℕ) : Prop := ∃ j, alloc = BUFSIZE * 2 ^ j

/-- Every buffer has such a size. -/
def Ample (B : ℕ → Option PipeBuffer) : Prop := ∀ b pb, B b = some pb → Doubled pb.alloc

variable {α : Type} {m : Machine} {n : Notes} {B : Books} {k k' : State} {V : ℕ → Option PipeBuffer} {p a b count : ℕ}
  {pb : PipeBuffer} {fh : Filehandle}

theorem Doubled.pos {alloc : ℕ} (h : Doubled alloc) : BUFSIZE ≤ alloc := by
  obtain ⟨j, rfl⟩ := h
  exact Nat.le_mul_of_pos_right _ (Nat.two_pow_pos j)

/-! ### Doubling -/

/-- The size stays a doubled one; a size that has wrapped around to 0 is never returned. -/
theorem doubled_growLoop {need fuel alloc res : ℕ} (hneed : 0 < need) (h : alloc = 0 ∨ Doubled alloc)
    (hok : growLoop need fuel alloc = .ok res) : Doubled res := by
  induction fuel generalizing alloc with
  | zero => cases hok
  | succ fuel ih =>
    unfold growLoop at hok
    split at hok
    · refine ih ?_ hok
      rcases h with rfl | ⟨j, rfl⟩
      · exact Or.inl rfl
      · rcases Nat.lt_or_ge j 21 with hj | hj
        · right
          refine ⟨j + 1, ?_⟩
          have hpow : 2 ^ j < 2 ^ 21 := Nat.pow_lt_pow_right (by decide) hj
          rw [Nat.mod_eq_of_lt (by simp only [wordSize, BUFSIZE] at *; omega), Nat.pow_succ, Nat.mul_assoc]
        · left
          -- `BUFSIZE * 2 ^ 21 * 2` is a whole number of words
          obtain ⟨i, rfl⟩ : ∃ i, j = 21 + i := ⟨j - 21, by omega⟩
          apply Nat.mod_eq_zero_of_dvd
          refine ⟨2 ^ i, ?_⟩
          simp only [wordSize, BUFSIZE, Nat.pow_add]
          omega
    · cases hok
      rcases h with rfl | h
      · omega
      · exact h

theorem growLoop_room {need fuel alloc res : ℕ} (hok : growLoop need fuel alloc = .ok res) : need ≤ res := by
  induction fuel generalizing alloc with
  | zero => cases hok
  | succ fuel ih =>
    unfold growLoop at hok
    split at hok
    · exact ih hok
    · cases hok
      omega

/-- **The loop ends** when the size is not 0 and a word has room for twice what is needed. -/
theorem growLoop_ok {need fuel alloc : ℕ} (hpos : 0 < alloc) (hneed : need ≤ 2 ^ 30)
    (hfuel : need ≤ alloc * 2 ^ fuel) :
    ∃ res, growLoop need (fuel + 1) alloc = .ok res ∧ (res = alloc ∨ res < 2 * need) := by
  induction fuel generalizing alloc with
  | zero =>
    rw [Nat.pow_zero, Nat.mul_one] at hfuel
    refine ⟨alloc, ?_, Or.inl rfl⟩
    unfold growLoop
    rw [if_neg (not_lt.mpr hfuel)]
  | succ fuel ih =>
    unfold growLoop
    by_cases hgrow : alloc < need
    · rw [if_pos hgrow, Nat.mod_eq_of_lt (by simp only [wordSize]; omega)]
      have hfuel' : need ≤ alloc * 2 * 2 ^ fuel := by
        rw [Nat.mul_assoc, ← Nat.pow_succ']
        exact hfuel
      obtain ⟨res, hok, hres⟩ := ih (by omega) hfuel'
      refine ⟨res, hok, Or.inr ?_⟩
      omega
    · rw [if_neg hgrow]
      exact ⟨alloc, rfl, Or.inl rfl⟩

/-! ### Computations that leave the pipes alone -/

abbrev Aside (x : K α) : Prop := Still State.pipes AnyFault x

theorem aside_of_remote {x : K α} (h : Remote x) : Aside x := h.map Objects.pipes fun _ _ => trivial

theorem aside_lift (x : Except Fault α) : Aside (lift x) := by
  intro V
  constructor
  intro k hk
  cases x with
  | ok a => exact hk
  | error e => trivial

theorem aside_check (site : Site) (c : Prop) [Decidable c] : Aside (check site c) := aside_lift _

theorem aside_onHeap (f : Buddy.Heap → Except Fault (α × Buddy.Heap)) : Aside (onHeap f) := by
  intro V
  constructor
  intro k hk
  unfold onHeap
  cases f k.heap with
  | ok x => exact hk
  | error e => trivial

theorem aside_onPages (f : Pages → Except Fault (α × Pages)) : Aside (onPages f) := by
  intro V
  constructor
  intro k hk
  unfold onPages
  cases f k.pages with
  | ok x => exact hk
  | error e => trivial

theorem aside_schedDo (f : Sched → Except Fault Sched) : Aside (schedDo f) := by
  intro V
  constructor
  intro k hk
  unfold schedDo
  cases f k.sched with
  | ok x => exact hk
  | error e => trivial

theorem aside_storeBlock (block size off : ℕ) (bs : List UInt8) : Aside (storeBlock block size off bs) := by
  intro V
  constructor
  intro k hk
  unfold storeBlock
  split
  · exact hk
  · trivial

theorem aside_getHandle (a : ℕ) : Aside (getHandle a) := by
  intro V
  constructor
  intro k hk
  unfold getHandle
  cases k.handles a with
  | some fh => exact hk
  | none => trivial

theorem aside_setHandle (a : ℕ) (fh : Option Filehandle) : Aside (setHandle a fh) := still_modify fun _ => rfl

theorem aside_setFd (p fd : ℕ) (fh : Option ℕ) : Aside (setFd p fd fh) := still_modify fun _ => rfl

theorem aside_clearFds (p : ℕ) : Aside (clearFds p) := still_modify fun _ => rfl

theorem aside_freeMailbox (box : Option ℕ) : Aside (freeMailbox box) := by
  cases box with
  | none => exact still_pure ()
  | some x => exact aside_onHeap fun h => do let h ← Buddy.buddyFree h x; return ((), h)

theorem aside_newHandle (type : FhType) (p entry : ℕ) : Aside (newHandle type p entry) :=
  (aside_onHeap _).bind fun a => (aside_setHandle a _).bind fun _ => still_pure a

theorem aside_plainDestroy (a : ℕ) : Aside (plainDestroy a) :=
  (aside_onHeap _).bind fun _ => aside_setHandle a none

theorem aside_addReference (a : ℕ) : Aside (addReference a) :=
  (aside_getHandle a).bind fun _ => aside_setHandle a _

theorem aside_shareFds (parent child : ℕ) (fds : List ℕ) : Aside (shareFds parent child fds) := by
  induction fds with
  | nil => exact still_pure ()
  | cons fd fds ih =>
    refine Still.bind (still_get fun k => ?_) fun _ => ih
    cases k.filedesc parent fd with
    | none => exact still_pure ()
    | some a => exact (aside_setFd child fd _).bind fun _ => aside_addReference a

/-! ### Computations that keep the sizes -/

abbrev Fills (x : K α) : Prop := Upholds State.pipes AnyFault Ample x

theorem fills_setPipe (b : ℕ) (pb : PipeBuffer) (h : Doubled pb.alloc) : Fills (setPipe b (some pb)) := by
  intro V hV
  refine Acts.modify fun k hk => ?_
  subst hk
  intro c x hx
  rcases update_eq_some hx with ⟨-, rfl⟩ | ⟨-, hx⟩
  · exact h
  · exact hV c x hx

theorem fills_dropPipe (b : ℕ) : Fills (setPipe b none) := by
  intro V hV
  refine Acts.modify fun k hk => ?_
  subst hk
  intro c x hx
  by_cases hc : c = b
  · rw [hc] at hx
    exact absurd (hx.symm.trans (Function.update_self _ _ _)) (by simp)
  · exact hV c x (hx.symm.trans (Function.update_of_ne hc _ _)).symm

theorem acts_getPipe (hV : Ample V) (b : ℕ) :
    Acts State.pipes AnyFault V (getPipe b) fun pb V' => V' = V ∧ Doubled pb.alloc := by
  constructor
  intro k hk
  subst hk
  unfold getPipe
  cases hb : k.pipes b with
  | none => trivial
  | some pb => exact ⟨rfl, hV b pb hb⟩

/-- A computation that begins by looking at a pipe. -/
theorem fills_getPipe (b : ℕ) {f : PipeBuffer → K α} (hf : ∀ pb, Doubled pb.alloc → Fills (f pb)) :
    Fills (getPipe b >>= f) := by
  intro V hV
  refine (acts_getPipe hV b).bind ?_
  rintro pb _ ⟨rfl, hpb⟩
  exact hf pb hpb _ hV

theorem fills_newPipe : Fills newPipe :=
  (aside_onHeap _).upholds.bind fun b => (aside_onHeap _).upholds.bind fun _ =>
    (fills_setPipe b _ ⟨0, rfl⟩).bind fun _ => upholds_pure b

theorem fills_openStandard (p : ℕ) : Fills (openStandard p) :=
  fills_newPipe.bind fun b => Still.upholds <|
    (aside_newHandle _ b 0).bind fun _ => (aside_setFd p 0 _).bind fun _ => (aside_newHandle _ 0 0).bind fun _ =>
      (aside_setFd p 1 _).bind fun _ => (aside_newHandle _ 0 0).bind fun _ => aside_setFd p 2 _

theorem fills_wakeUpReader (b : ℕ) : Fills (wakeUpReader b) := by
  refine fills_getPipe b fun pb hpb => ?_
  cases pb.readpid with
  | none => exact upholds_pure ()
  | some q => exact (aside_schedDo _).upholds.bind fun _ => fills_setPipe b _ hpb

/-- The larger buffer is a doubled one. -/
theorem acts_growPipe (hV : Ample V) (b count : ℕ) :
    Acts State.pipes AnyFault V (growPipe b count) fun pb V' => Doubled pb.alloc ∧ Ample V' := by
  refine (acts_getPipe hV b).bind ?_
  rintro pb V₁ ⟨rfl, hpb⟩
  refine Acts.ite (fun hlt => ?_) fun _ => Acts.pure ⟨hpb, hV⟩
  refine Acts.bind (R := fun alloc V' => V' = V₁ ∧ Doubled alloc) ⟨fun k hk => ?_⟩ ?_
  · subst hk
    cases hgrow : growLoop ((pb.len + count) % wordSize) 33 pb.alloc with
    | error e => trivial
    | ok alloc => exact ⟨rfl, doubled_growLoop (by omega) (Or.inr hpb) hgrow⟩
  · rintro alloc _ ⟨rfl, halloc⟩
    refine (aside_onHeap _).andThen fun data => Acts.get fun k _ => ?_
    refine (aside_storeBlock data alloc 0 _).andThen fun _ => (aside_onHeap _).andThen fun _ => ?_
    refine (fills_setPipe b { pb with alloc := alloc, data := data } halloc _ hV).bind fun _ V' hV' => ?_
    exact Acts.pure ⟨halloc, hV'⟩

theorem fills_writeToPipe (b count : ℕ) {source : K (List UInt8)} (h : Aside source) :
    Fills (writeToPipe b count source) := by
  intro V hV
  refine (acts_growPipe hV b count).bind ?_
  rintro pb V' ⟨hpb, hV'⟩
  refine h.andThen fun bs => (aside_storeBlock _ _ _ _).andThen fun _ => ?_
  exact ((fills_setPipe b { pb with len := (pb.len + count) % wordSize } hpb).bind fun _ =>
    fills_wakeUpReader b) V' hV'

theorem fills_checkBufferFree (b : ℕ) : Fills (checkBufferFree b) := by
  refine fills_getPipe b fun pb _ => Upholds.ite ?_ (upholds_pure ())
  exact (aside_check _ _).upholds.bind fun _ => (aside_onHeap _).upholds.bind fun _ =>
    (aside_onHeap _).upholds.bind fun _ => fills_dropPipe b

theorem fills_destroy (a : ℕ) (fh : Filehandle) : Fills (destroy a fh) := by
  unfold destroy
  cases fh.type with
  | screen => exact (aside_plainDestroy a).upholds
  | file => exact (aside_plainDestroy a).upholds
  | dir => exact (aside_plainDestroy a).upholds
  | pipeReader =>
    refine fills_getPipe fh.p fun pb hpb => (aside_check _ _).upholds.bind fun _ => ?_
    exact (fills_setPipe fh.p { pb with reading := false } hpb).bind fun _ =>
      (fills_checkBufferFree _).bind fun _ => (aside_plainDestroy a).upholds
  | pipeWriter =>
    refine fills_getPipe fh.p fun pb hpb => (aside_check _ _).upholds.bind fun _ => ?_
    exact (fills_setPipe fh.p { pb with writing := false } hpb).bind fun _ =>
      (fills_wakeUpReader _).bind fun _ => (fills_checkBufferFree _).bind fun _ => (aside_plainDestroy a).upholds

theorem fills_closeFilehandle (a : ℕ) : Fills (closeFilehandle a) :=
  (aside_getHandle a).upholds.bind fun _ => (aside_check _ _).upholds.bind fun _ =>
    (aside_setHandle a _).upholds.bind fun _ => Upholds.ite (fills_destroy a _) (upholds_pure ())

theorem fills_closeIfOpen (fh : Option ℕ) : Fills (closeIfOpen fh) := by
  cases fh with
  | none => exact upholds_pure ()
  | some a => exact fills_closeFilehandle a

theorem fills_closeFds (p : ℕ) (fds : List ℕ) : Fills (closeFds p fds) := by
  induction fds with
  | nil => exact upholds_pure ()
  | cons fd fds ih => exact upholds_get fun k => (fills_closeIfOpen _).bind fun _ => ih

theorem fills_killProcess (q : ℕ) : Fills (killProcess q) := by
  refine (aside_schedDo _).upholds.bind fun _ => (fills_closeFds q _).bind fun _ => upholds_get fun k => ?_
  exact ((aside_onPages _).bind fun _ => (aside_freeMailbox _).bind fun _ => aside_schedDo _).upholds

theorem fills_startProcess (m : Machine) (startAddress : ℕ) : Fills (startProcess m startAddress) := by
  refine upholds_get fun k => ?_
  cases getFreePid k.sched with
  | none => exact upholds_pure none
  | some pid =>
    refine Upholds.bind ?_ fun _ => upholds_pure (some pid)
    refine (aside_onPages _).upholds.bind fun pdir => (aside_of_remote (remote_setSpace pid _)).upholds.bind fun _ => ?_
    refine (aside_clearFds pid).upholds.bind fun _ => (fills_openStandard pid).bind fun _ => ?_
    exact (aside_of_remote (remote_setCwd pid _)).upholds.bind fun _ => (aside_schedDo _).upholds

/-! ### The handlers -/

theorem fills_takeFromPipe (p b : ℕ) (hpb : Doubled pb.alloc) (buf count : ℕ) : Fills (takeFromPipe p b pb buf count) :=
  upholds_get fun _ => (aside_of_remote (remote_writeUserBytes p buf _ 0)).upholds.bind fun _ => upholds_get fun _ =>
    (aside_storeBlock _ _ _ _).upholds.bind fun _ => Upholds.bind (fills_setPipe b _ hpb) fun _ => upholds_pure _

theorem fills_syscallRead (fs : Memory) (p : ℕ) (fd : ℤ) (buf count : ℕ) : Fills (syscallRead fs p fd buf count) := by
  refine upholds_get fun k => Upholds.ite ?_ (upholds_pure _)
  cases lookupFd k p fd with
  | none => exact upholds_pure _
  | some a =>
    refine (aside_getHandle a).upholds.bind fun fh => ?_
    unfold readHandle
    cases fh.type with
    | screen => exact upholds_pure _
    | pipeWriter => exact upholds_pure _
    | dir => exact upholds_pure _
    | pipeReader =>
      refine fills_getPipe fh.p fun pb hpb => Upholds.ite (upholds_pure _) ?_
      refine Upholds.ite (fills_takeFromPipe p _ hpb buf count) (Upholds.ite (upholds_pure _) (upholds_get fun k => ?_))
      exact (fills_setPipe fh.p { pb with readpid := some (k.sched.procs p).pid } hpb).bind fun _ =>
        (aside_schedDo _).upholds.bind fun _ => upholds_pure _
    | file =>
      refine Upholds.ite (upholds_pure _) ?_
      exact (aside_of_remote (remote_writeUserBytes p buf _ 0)).upholds.bind fun _ =>
        (aside_setHandle a _).upholds.bind fun _ => upholds_pure _

theorem fills_syscallWrite (p : ℕ) (fd : ℤ) (buf count : ℕ) : Fills (syscallWrite p fd buf count) := by
  refine upholds_get fun k => Upholds.ite ?_ (upholds_pure _)
  cases lookupFd k p fd with
  | none => exact upholds_pure _
  | some a =>
    refine (aside_getHandle a).upholds.bind fun fh => ?_
    unfold writeHandle
    cases fh.type with
    | pipeReader => exact upholds_pure _
    | file => exact upholds_pure _
    | dir => exact upholds_pure _
    | screen => exact (aside_of_remote (remote_screenWrite p buf count)).upholds
    | pipeWriter =>
      exact (fills_writeToPipe fh.p count (aside_of_remote (remote_readUserBytes p buf count 0))).bind fun _ =>
        upholds_pure _

theorem fills_syscallClose (p : ℕ) (fd : ℤ) : Fills (syscallClose p fd) := by
  refine upholds_get fun k => ?_
  cases lookupFd k p fd with
  | none => exact upholds_pure _
  | some a => exact (fills_closeFilehandle a).bind fun _ => (aside_setFd p _ _).upholds.bind fun _ => upholds_pure _

theorem fills_syscallDup2 (p : ℕ) (oldfd newfd : ℤ) : Fills (syscallDup2 p oldfd newfd) := by
  refine upholds_get fun k => Upholds.ite (upholds_pure _) ?_
  cases lookupFd k p oldfd with
  | none => exact upholds_pure _
  | some a =>
    refine Upholds.ite (upholds_pure _) (upholds_get fun k => (fills_closeIfOpen _).bind fun _ => ?_)
    exact (aside_setFd p _ _).upholds.bind fun _ => (aside_addReference a).upholds.bind fun _ => upholds_pure _

theorem fills_syscallPipe (p filedes : ℕ) : Fills (syscallPipe p filedes) := by
  refine upholds_get fun k => Upholds.ite ?_ (upholds_pure _)
  match freeFds k p with
  | [] => exact upholds_pure _
  | [_] => exact upholds_pure _
  | readfd :: writefd :: _ =>
    refine fills_newPipe.bind fun b => Still.upholds ?_
    refine (aside_newHandle _ b 0).bind fun _ => (aside_setFd p _ _).bind fun _ => ?_
    refine (aside_newHandle _ b 0).bind fun _ => (aside_setFd p _ _).bind fun _ => ?_
    exact (aside_of_remote (remote_writeUserBytes p _ _ 0)).bind fun _ =>
      (aside_of_remote (remote_writeUserBytes p _ _ 0)).bind fun _ => still_pure 0

theorem aside_syscallOpen (fs : Memory) (p path : ℕ) (flags : ℤ) : Aside (syscallOpen fs p path flags) := by
  refine (aside_of_remote (remote_validString p path)).bind fun valid => Still.ite (still_get fun k => ?_) (still_pure _)
  cases freeFds k p with
  | nil => exact still_pure _
  | cons fd _ =>
    refine (aside_of_remote (remote_findEntry fs p path)).bind fun x => ?_
    obtain ⟨abs, found⟩ := x
    cases found with
    | error e => exact still_pure e
    | ok entry =>
      refine Still.ite (still_pure _) (Still.ite (still_pure _) ?_)
      exact (aside_newHandle _ 0 entry).bind fun _ => (aside_setFd p fd _).bind fun _ => still_pure _

theorem aside_syscallGetdent (fs : Memory) (p : ℕ) (fd : ℤ) (entry : ℕ) : Aside (syscallGetdent fs p fd entry) := by
  refine still_get fun k => Still.ite ?_ (still_pure _)
  cases lookupFd k p fd with
  | none => exact still_pure _
  | some a =>
    refine (aside_getHandle a).bind fun fh => Still.ite (Still.ite (still_pure _) ?_) (still_pure _)
    refine (aside_of_remote (remote_writeUserBytes p entry _ 0)).bind fun _ => (aside_lift _).bind fun text => ?_
    exact (aside_of_remote (remote_printUser p _ _ text)).bind fun _ => (aside_setHandle a _).bind fun _ => still_pure 1

theorem aside_packArgs (argdata size : ℕ) (args : List (List UInt8)) (argno pos : ℕ) :
    Aside (packArgs argdata size args argno pos) := by
  induction args generalizing argno pos with
  | nil => exact still_pure ()
  | cons arg args ih =>
    exact (aside_storeBlock _ _ _ _).bind fun _ => (aside_storeBlock _ _ _ _).bind fun _ => ih _ _

theorem aside_execProgram (fs : Memory) (p entry : ℕ) (args : List (List UInt8)) : Aside (execProgram fs p entry args) := by
  refine Still.bind ?_ fun argdata => still_get fun k => (aside_onPages _).bind fun _ => ?_
  · exact (aside_onHeap _).bind fun _ => (aside_packArgs _ _ args 0 _).bind fun _ =>
      (aside_storeBlock _ _ _ _).bind fun _ => (aside_storeBlock _ _ _ _).bind fun _ => still_pure _
  · refine (aside_of_remote (remote_setSpace p _)).bind fun _ => still_get fun k => ?_
    exact (aside_of_remote (remote_storeMappedBytes p _ _ 0)).bind fun _ => (aside_onHeap _).bind fun _ => still_pure _

theorem aside_syscallExecve (fs : Memory) (p filename argv : ℕ) (r : Regs) : Aside (syscallExecve fs p filename argv r) := by
  refine (aside_of_remote (remote_validString p filename)).bind fun valid => Still.ite ?_ (still_pure _)
  refine (aside_of_remote (remote_validArgv p argv)).bind fun ok => Still.ite ?_ (still_pure _)
  refine (aside_of_remote (remote_userString p filename)).bind fun path => (aside_lift _).bind fun found => ?_
  cases found with
  | error e => exact still_pure _
  | ok entry =>
    refine Still.ite (still_pure _) ((aside_of_remote (remote_argStrings p argv)).bind fun args => ?_)
    exact aside_execProgram fs p entry args

theorem aside_syscallFork (p : ℕ) (r : Regs) : Aside (syscallFork p r) := by
  refine still_get fun k => ?_
  cases getFreePid k.sched with
  | none => exact still_pure _
  | some child =>
    refine Still.bind (still_get fun k => (aside_onPages _).bind fun pdir => ?_) fun _ => still_pure _
    refine (aside_of_remote (remote_setSpace child _)).bind fun _ => (aside_clearFds child).bind fun _ => ?_
    exact (aside_shareFds p child _).bind fun _ => (aside_of_remote (remote_setCwd child _)).bind fun _ =>
      aside_schedDo _

theorem aside_syscallSend (p : ℕ) (dest : ℤ) (tag data size : ℕ) : Aside (syscallSend p dest tag data size) := by
  refine still_get fun k => Still.ite (Still.ite (still_pure _) (Still.ite (still_pure _)
    (Still.ite (still_pure _) ?_))) (still_pure _)
  refine Still.bind ?_ fun box => (aside_schedDo _).bind fun _ => still_get fun k => ?_
  · refine still_get fun k => ?_
    cases (k.sched.procs dest.toNat).mailbox with
    | none => exact aside_onHeap _
    | some box => exact still_pure box
  · refine (aside_storeBlock _ _ _ _).bind fun _ => (aside_of_remote (remote_readUserBytes p data size 0)).bind fun bytes => ?_
    refine (aside_storeBlock _ _ _ _).bind fun _ => Still.ite ?_ (still_pure _)
    exact (aside_schedDo _).bind fun _ => (aside_schedDo _).bind fun _ => still_pure _

theorem aside_syscallReceive (p msg : ℕ) (block : Bool) : Aside (syscallReceive p msg block) := by
  refine still_get fun k => Still.ite (Still.ite ?_ (Still.ite ?_ (still_pure _))) (still_pure _)
  · cases (k.sched.procs p).mailbox with
    | none => exact fun _ => ⟨fun _ _ => trivial⟩
    | some x =>
      refine still_get fun _ => (aside_of_remote (remote_writeUserBytes p msg _ 0)).bind fun _ => still_get fun _ => ?_
      exact (aside_storeBlock _ _ _ _).bind fun _ => (aside_schedDo _).bind fun _ => still_pure 0
  · exact (aside_schedDo _).bind fun _ => still_pure _

theorem aside_syscallWaitpid (p : ℕ) (pid : ℤ) (status : ℕ) : Aside (syscallWaitpid p pid status) := by
  refine still_get fun k => (aside_lift _).bind fun x => ?_
  obtain ⟨res, value, S⟩ := x
  refine (aside_of_remote (remote_storeStatus p status value)).bind fun _ => Still.bind ?_ fun _ => still_pure res
  exact still_modify fun _ => rfl

theorem Upholds.keep {x : K ℤ} (r : Regs) (h : Fills x) : Fills (keep r x) := h.bind fun _ => upholds_pure _

theorem aside_keep {x : K ℤ} (r : Regs) (h : Aside x) : Fills (keep r x) := Upholds.keep r h.upholds

/-- **Every handler** keeps the sizes. -/
theorem fills_dispatch (m : Machine) (p no : ℕ) (r : Regs) (args : List ℕ) : Fills (dispatch m p r no args) := by
  by_cases hk : no ∈ knownCalls
  · simp only [knownCalls, List.mem_cons, List.not_mem_nil, or_false] at hk
    rcases hk with rfl | rfl | rfl | rfl | rfl | rfl | rfl | rfl | rfl | rfl | rfl | rfl | rfl | rfl | rfl |
      rfl | rfl | rfl | rfl | rfl
    · exact aside_keep r (still_get fun _ => still_pure _)
    · exact Upholds.keep r ((aside_schedDo _).upholds.bind fun _ => (fills_killProcess p).bind fun _ => upholds_pure _)
    · exact Upholds.keep r (fills_syscallWrite _ _ _ _)
    · exact Upholds.keep r (fills_syscallRead _ _ _ _ _)
    · exact aside_keep r (still_get fun _ => still_pure _)
    · exact aside_keep r (aside_of_remote (remote_syscallBrk _ _))
    · exact aside_keep r (aside_syscallSend _ _ _ _ _)
    · exact aside_keep r (aside_syscallReceive _ _ _)
    · exact Upholds.keep r (fills_syscallClose _ _)
    · exact Upholds.keep r (fills_syscallPipe _ _)
    · exact Upholds.keep r (fills_syscallDup2 _ _ _)
    · exact aside_keep r (aside_syscallFork _ r)
    · exact (aside_syscallExecve _ _ _ _ r).upholds
    · exact aside_keep r (aside_syscallWaitpid _ _ _)
    · exact aside_keep r (aside_of_remote (remote_syscallStat _ _ _ _))
    · exact aside_keep r (aside_syscallOpen _ _ _ _)
    · exact aside_keep r (aside_syscallGetdent _ _ _ _)
    · exact aside_keep r (aside_of_remote (remote_syscallChdir _ _ _))
    · exact aside_keep r (aside_of_remote (remote_syscallGetcwd _ _ _))
    · refine Upholds.keep r (upholds_get fun k => Upholds.ite (upholds_pure _) ?_)
      exact (fills_killProcess _).bind fun _ => upholds_pure _
  · rw [(unknown_call hk args).1]
    exact aside_keep r ((aside_of_remote (remote_writeToScreen _)).bind fun _ => still_pure _)

/-! ### Histories -/

theorem fills_react (m : Machine) (input : Option ℕ) (i : Input) : Fills (react m input i) := by
  have hcur : ∀ {f : ℕ → K Unit}, (∀ p, Fills (f p)) → Fills (asCurrent f) := by
    intro f hf
    refine upholds_get fun k => ?_
    cases k.sched.current with
    | none => exact fun _ _ => ⟨fun _ _ => trivial⟩
    | some p => exact hf p
  cases i with
  | key r c =>
    refine Upholds.bind ?_ fun _ => (aside_schedDo _).upholds
    cases input with
    | none => exact upholds_pure ()
    | some b => exact fills_writeToPipe b 1 (still_pure _)
  | event ev =>
    cases ev with
    | start startAddress => exact (fills_startProcess m startAddress).bind fun _ => upholds_pure ()
    | call r args =>
      refine hcur fun p => (aside_schedDo _).upholds.bind fun _ => Upholds.bind ?_ fun _ => upholds_pure ()
      exact (fills_dispatch m p r.eax r args).bind fun _ => (aside_schedDo _).upholds.bind fun _ => upholds_pure _
    | crash r => exact hcur fun p => (fills_killProcess p).bind fun _ => (aside_schedDo _).upholds
    | store a b =>
      exact hcur fun p => upholds_get fun k => Upholds.ite (aside_of_remote (remote_storeMapped p _ b)).upholds
        (upholds_pure ())
    | switch r => exact Still.upholds (aside_schedDo fun S => .ok (contextSwitch S r))

/-- **The size of a buffer** is `BUFSIZE` times a power of two, in every state of every history. -/
theorem ample_of_run {P : Notes → State → Input → Prop} (h : Run m P n B k) : Ample k.pipes := by
  induction h with
  | boot mem bytes blocks => exact fun b pb hb => by cases hb
  | step i hrun hi hok ih => exact (fills_react m _ i _ ih).ok rfl hok

end AdelaideOS.Kernel
