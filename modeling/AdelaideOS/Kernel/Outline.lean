import AdelaideOS.Kernel.Guards
import AdelaideOS.Kernel.Invariant
import AdelaideOS.Kernel.Lifecycle
import AdelaideOS.Lib.View

/-!
# Registers and memory through the handlers

`Outline` is the part of the state that belongs to the processes themselves: who exists and who has exited, the
saved registers and the pending system call of each, who is running, and the memory with its page tables.  It has
little in common with `Objects`, so the handlers are followed here once more: a computation is `Hidden` if it
leaves the outline alone, and it `Scrawls` if it writes at most through the page directory of the caller.

* **`acts_forkIn`**, **`acts_killProcess`**, **`acts_syscallWaitpid`** and so on — what creates, changes or ends a process;
* **`acts_dispatch`** — every handler.
-/

namespace AdelaideOS.Kernel

open AdelaideOS.Lib.Bytes AdelaideOS.Lib.View AdelaideOS.Page AdelaideOS.Process

/-- What the process table says about the standing of a process. -/
structure Standing where
  exists_ : Bool
  exited : Bool
  savedRegs : Regs
  inSyscall : ℕ

/-- The standing of a table entry. -/
def standingOf (v : Proc) : Standing := ⟨v.exists_, v.exited, v.savedRegs, v.inSyscall⟩

structure Outline where
  table : ℕ → Standing
  current : Option ℕ
  pages : Pages
  space : ℕ → Space

def State.outline (k : State) : Outline :=
  ⟨fun q => standingOf (k.sched.procs q), k.sched.current, k.pages, k.space⟩

/-- Any fault. -/
def AnyFault (_ : Fault) : Prop := True

abbrev Hidden {α : Type} (m : K α) : Prop := Still State.outline AnyFault m

/-- Stores through the page directory of process `p` have been made. -/
def Scrawled (p : ℕ) (o o' : Outline) : Prop :=
  ∃ P, Scribbles (o.space p).pdir o.pages P ∧ o' = { o with pages := P }

def Scrawls {α : Type} (p : ℕ) (m : K α) : Prop :=
  ∀ o, Acts State.outline AnyFault o m fun _ => Scrawled p o

variable {α β : Type} {o o' o'' : Outline} {p q : ℕ}

/-! ### Hidden computations -/

theorem hidden_throw (e : Fault) : Hidden (throw e : K α) := fun _ => ⟨fun _ _ => trivial⟩

theorem hidden_lift (x : Except Fault α) : Hidden (lift x) := by
  intro o
  constructor
  intro k hk
  cases x with
  | ok a => exact hk
  | error e => trivial

theorem hidden_check (site : Site) (c : Prop) [Decidable c] : Hidden (check site c) := hidden_lift _

theorem hidden_onHeap (f : Buddy.Heap → Except Fault (α × Buddy.Heap)) : Hidden (onHeap f) := by
  intro o
  constructor
  intro k hk
  unfold onHeap
  cases f k.heap with
  | ok x => exact hk
  | error e => trivial

theorem hidden_kmalloc (n : ℕ) : Hidden (kmalloc n) := hidden_onHeap _

theorem hidden_kfree (ptr : ℕ) : Hidden (kfree ptr) := hidden_onHeap _

theorem hidden_storeBlock (block size off : ℕ) (bs : List UInt8) :
    Hidden (storeBlock block size off bs) := by
  intro o
  constructor
  intro k hk
  unfold storeBlock
  split
  · exact hk
  · trivial

theorem hidden_touch (as : List ℕ) : Hidden (touch as) := fun _ => ⟨fun _ hk => hk⟩

theorem hidden_loadMapped (p a : ℕ) : Hidden (loadMapped p a) := by
  intro o
  constructor
  intro k hk
  unfold loadMapped
  cases physical k p a with
  | ok x => exact hk
  | error e => trivial

theorem hidden_getHandle (a : ℕ) : Hidden (getHandle a) := by
  intro o
  constructor
  intro k hk
  unfold getHandle
  cases k.handles a with
  | some fh => exact hk
  | none => trivial

theorem hidden_getPipe (b : ℕ) : Hidden (getPipe b) := by
  intro o
  constructor
  intro k hk
  unfold getPipe
  cases k.pipes b with
  | some pb => exact hk
  | none => trivial

theorem hidden_setHandle (a : ℕ) (fh : Option Filehandle) : Hidden (setHandle a fh) :=
  still_modify fun _ => rfl

theorem hidden_setPipe (b : ℕ) (pb : Option PipeBuffer) : Hidden (setPipe b pb) := still_modify fun _ => rfl

theorem hidden_setFd (p fd : ℕ) (fh : Option ℕ) : Hidden (setFd p fd fh) := still_modify fun _ => rfl

theorem hidden_setCwd (p : ℕ) (path : List UInt8) : Hidden (setCwd p path) := still_modify fun _ => rfl

theorem hidden_clearFds (p : ℕ) : Hidden (clearFds p) := still_modify fun _ => rfl

theorem hidden_writeToScreen (bs : List UInt8) : Hidden (writeToScreen bs) := still_modify fun _ => rfl

/-- An operation of the scheduler that changes only lists and flags. -/
theorem hidden_schedDo {f : Sched → Except Fault Sched}
    (hf : ∀ S S', f S = .ok S' → (∀ q, standingOf (S'.procs q) = standingOf (S.procs q)) ∧
      S'.current = S.current) : Hidden (schedDo f) := by
  intro o
  constructor
  intro k hk
  unfold schedDo
  cases hS : f k.sched with
  | ok S' =>
    obtain ⟨htable, hcur⟩ := hf _ _ hS
    show (⟨fun q => standingOf (S'.procs q), S'.current, k.pages, k.space⟩ : Outline) = o
    rw [funext htable, hcur]
    exact hk
  | error e => trivial

theorem standing_set {S : Sched} (v : Proc) (hv : standingOf v = standingOf (S.procs p)) (q : ℕ) :
    standingOf ((S.set p v).procs q) = standingOf (S.procs q) := by
  rw [set_procs]
  by_cases hq : q = p
  · rw [hq, Function.update_self]
    exact hv
  · rw [Function.update_of_ne hq]

theorem hidden_resume (q : ℕ) : Hidden (schedDo fun S => resumeProcess S q) := by
  apply hidden_schedDo
  intro S S' hS
  obtain ⟨-, -, rfl⟩ := resumeProcess_ok hS
  exact ⟨fun z => standing_set { S.procs q with ready := true } rfl z, rfl⟩

theorem hidden_suspend (v : Sched → Proc) (hv : ∀ S, standingOf (v S) = standingOf (S.procs p)) :
    Hidden (schedDo fun S => suspendProcess (S.set p (v S)) p) := by
  apply hidden_schedDo
  intro S S' hS
  obtain ⟨-, -, rfl⟩ := suspendProcess_ok hS
  refine ⟨fun z => ?_, rfl⟩
  refine (standing_set _ ?_ z).trans (standing_set (v S) (hv S) z)
  rw [set_procs, Function.update_self]
  rfl

theorem hidden_set (v : Sched → Proc) (hv : ∀ S, standingOf (v S) = standingOf (S.procs p)) :
    Hidden (schedDo fun S => .ok (S.set p (v S))) := by
  apply hidden_schedDo
  intro S S' hS
  cases hS
  exact ⟨fun z => standing_set (v S) (hv S) z, rfl⟩

/-! ### Pipes and descriptors -/

theorem hidden_newPipe : Hidden newPipe :=
  (hidden_kmalloc 24).bind fun b => (hidden_kmalloc BUFSIZE).bind fun _ =>
    (hidden_setPipe b _).bind fun _ => still_pure b

theorem hidden_newHandle (type : FhType) (p entry : ℕ) : Hidden (newHandle type p entry) :=
  (hidden_kmalloc 36).bind fun fh => (hidden_setHandle fh _).bind fun _ => still_pure fh

theorem hidden_openStandard (p : ℕ) : Hidden (openStandard p) :=
  hidden_newPipe.bind fun b => (hidden_newHandle _ b 0).bind fun _ => (hidden_setFd p 0 _).bind fun _ =>
    (hidden_newHandle _ 0 0).bind fun _ => (hidden_setFd p 1 _).bind fun _ =>
      (hidden_newHandle _ 0 0).bind fun _ => hidden_setFd p 2 _

theorem hidden_wakeUpReader (b : ℕ) : Hidden (wakeUpReader b) := by
  refine (hidden_getPipe b).bind fun pb => ?_
  cases pb.readpid with
  | none => exact still_pure ()
  | some q => exact (hidden_resume q).bind fun _ => hidden_setPipe b _

theorem hidden_growPipe (b count : ℕ) : Hidden (growPipe b count) := by
  refine (hidden_getPipe b).bind fun pb => Still.ite ?_ (still_pure pb)
  refine (hidden_lift _).bind fun alloc => (hidden_kmalloc alloc).bind fun data => still_get fun k => ?_
  exact (hidden_storeBlock data alloc 0 _).bind fun _ => (hidden_kfree _).bind fun _ =>
    (hidden_setPipe b _).bind fun _ => still_pure _

theorem hidden_writeToPipe (b count : ℕ) {source : K (List UInt8)} (h : Hidden source) :
    Hidden (writeToPipe b count source) :=
  (hidden_growPipe b count).bind fun _ => h.bind fun _ => (hidden_storeBlock _ _ _ _).bind fun _ =>
    (hidden_setPipe b _).bind fun _ => hidden_wakeUpReader b

theorem hidden_checkBufferFree (b : ℕ) : Hidden (checkBufferFree b) := by
  refine (hidden_getPipe b).bind fun pb => Still.ite ?_ (still_pure ())
  exact (hidden_check _ _).bind fun _ => (hidden_kfree _).bind fun _ => (hidden_kfree b).bind fun _ =>
    hidden_setPipe b none

theorem hidden_plainDestroy (a : ℕ) : Hidden (plainDestroy a) :=
  (hidden_kfree a).bind fun _ => hidden_setHandle a none

theorem hidden_destroy (a : ℕ) (fh : Filehandle) : Hidden (destroy a fh) := by
  unfold destroy
  cases fh.type with
  | screen => exact hidden_plainDestroy a
  | file => exact hidden_plainDestroy a
  | dir => exact hidden_plainDestroy a
  | pipeReader =>
    exact (hidden_getPipe _).bind fun _ => (hidden_check _ _).bind fun _ => (hidden_setPipe _ _).bind fun _ =>
      (hidden_checkBufferFree _).bind fun _ => hidden_plainDestroy a
  | pipeWriter =>
    exact (hidden_getPipe _).bind fun _ => (hidden_check _ _).bind fun _ => (hidden_setPipe _ _).bind fun _ =>
      (hidden_wakeUpReader _).bind fun _ => (hidden_checkBufferFree _).bind fun _ => hidden_plainDestroy a

theorem hidden_closeFilehandle (a : ℕ) : Hidden (closeFilehandle a) :=
  (hidden_getHandle a).bind fun _ => (hidden_check _ _).bind fun _ => (hidden_setHandle a _).bind fun _ =>
    Still.ite (hidden_destroy a _) (still_pure ())

theorem hidden_closeIfOpen (fh : Option ℕ) : Hidden (closeIfOpen fh) := by
  cases fh with
  | none => exact still_pure ()
  | some a => exact hidden_closeFilehandle a

theorem hidden_addReference (a : ℕ) : Hidden (addReference a) :=
  (hidden_getHandle a).bind fun _ => hidden_setHandle a _

theorem hidden_closeFds (p : ℕ) (fds : List ℕ) : Hidden (closeFds p fds) := by
  induction fds with
  | nil => exact still_pure ()
  | cons fd fds ih => exact still_get fun k => (hidden_closeIfOpen _).bind fun _ => ih

theorem hidden_shareFds (parent child : ℕ) (fds : List ℕ) : Hidden (shareFds parent child fds) := by
  induction fds with
  | nil => exact still_pure ()
  | cons fd fds ih =>
    refine Still.bind ?_ fun _ => ih
    refine still_get fun k => ?_
    cases k.filedesc parent fd with
    | none => exact still_pure ()
    | some a => exact (hidden_setFd child fd _).bind fun _ => hidden_addReference a

theorem hidden_syscallClose (p : ℕ) (fd : ℤ) : Hidden (syscallClose p fd) := by
  refine still_get fun k => ?_
  cases lookupFd k p fd with
  | none => exact still_pure _
  | some a =>
    exact (hidden_closeFilehandle a).bind fun _ => (hidden_setFd p _ none).bind fun _ => still_pure 0

theorem hidden_syscallDup2 (p : ℕ) (oldfd newfd : ℤ) : Hidden (syscallDup2 p oldfd newfd) := by
  refine still_get fun k => Still.ite (still_pure _) ?_
  cases lookupFd k p oldfd with
  | none => exact still_pure _
  | some a =>
    refine Still.ite (still_pure _) (still_get fun k => ?_)
    exact (hidden_closeIfOpen _).bind fun _ => (hidden_setFd p _ _).bind fun _ =>
      (hidden_addReference a).bind fun _ => still_pure _

/-! ### Reading user memory -/

theorem hidden_readUser (p a : ℕ) : Hidden (readUser p a) :=
  (hidden_touch [a]).bind fun _ => hidden_loadMapped p a

theorem hidden_readUserBytes (p a n i : ℕ) : Hidden (readUserBytes p a n i) := by
  induction n generalizing i with
  | zero => exact still_pure []
  | succ n ih => exact (hidden_readUser p _).bind fun b => (ih (i + 1)).bind fun bs => still_pure (b :: bs)

theorem hidden_readUserWord (p a : ℕ) : Hidden (readUserWord p a) :=
  (hidden_readUserBytes p a 4 0).bind fun bs => still_pure (wordOf bs)

theorem hidden_validString (p str : ℕ) : Hidden (validString p str) := by
  unfold validString
  generalize wordSize = fuel
  suffices h : ∀ len, Hidden (validStringLoop p str fuel len) from h 0
  induction fuel with
  | zero => exact fun _ => hidden_throw _
  | succ fuel ih =>
    intro len
    refine still_get fun k => Still.ite ?_ (still_pure false)
    exact (hidden_readUser p _).bind fun c => Still.ite (still_pure true) (ih (len + 1))

theorem hidden_userString (p str : ℕ) : Hidden (userString p str) := by
  unfold userString
  generalize wordSize = fuel
  suffices h : ∀ len, Hidden (userStringLoop p str fuel len) from h 0
  induction fuel with
  | zero => exact fun _ => hidden_throw _
  | succ fuel ih =>
    intro len
    refine (hidden_readUser p _).bind fun c => Still.ite (still_pure []) ?_
    exact (ih (len + 1)).bind fun rest => still_pure (c :: rest)

theorem hidden_validArgv (p argv : ℕ) : Hidden (validArgv p argv) := by
  refine Still.ite (still_pure true) ?_
  generalize wordSize = fuel
  suffices h : ∀ argno, Hidden (checkArgv p argv fuel argno) from h 0
  induction fuel with
  | zero => exact fun _ => hidden_throw _
  | succ fuel ih =>
    intro argno
    refine still_get fun k => Still.ite ?_ (still_pure false)
    refine (hidden_readUserWord p _).bind fun s => Still.ite (still_pure true) ?_
    exact (hidden_validString p s).bind fun valid => Still.ite (ih (argno + 1)) (still_pure false)

theorem hidden_argStrings (p argv : ℕ) : Hidden (argStrings p argv) := by
  refine Still.ite (still_pure []) ?_
  generalize wordSize = fuel
  suffices h : ∀ argno, Hidden (readArgv p argv fuel argno) from h 0
  induction fuel with
  | zero => exact fun _ => hidden_throw _
  | succ fuel ih =>
    intro argno
    refine (hidden_readUserWord p _).bind fun s => Still.ite (still_pure []) ?_
    refine (hidden_userString p s).bind fun arg => ?_
    exact (ih (argno + 1)).bind fun rest => still_pure (arg :: rest)

theorem hidden_findEntry (fs : Memory) (p path : ℕ) : Hidden (findEntry fs p path) :=
  (hidden_userString p path).bind fun _ => still_get fun _ =>
    (hidden_lift _).bind fun found => still_pure (_, found)

theorem hidden_syscallOpen (fs : Memory) (p path : ℕ) (flags : ℤ) : Hidden (syscallOpen fs p path flags) := by
  refine (hidden_validString p path).bind fun valid => Still.ite (still_get fun k => ?_) (still_pure _)
  cases freeFds k p with
  | nil => exact still_pure _
  | cons fd fds =>
    refine (hidden_findEntry fs p path).bind fun x => ?_
    obtain ⟨abs, found⟩ := x
    cases found with
    | error e => exact still_pure e
    | ok entry =>
      refine Still.ite (still_pure _) (Still.ite (still_pure _) ?_)
      exact (hidden_newHandle _ 0 entry).bind fun fh => (hidden_setFd p fd _).bind fun _ => still_pure _

theorem hidden_syscallChdir (fs : Memory) (p path : ℕ) : Hidden (syscallChdir fs p path) := by
  refine (hidden_validString p path).bind fun valid => Still.ite ?_ (still_pure _)
  refine (hidden_findEntry fs p path).bind fun x => ?_
  obtain ⟨abs, found⟩ := x
  cases found with
  | error e => exact still_pure e
  | ok entry =>
    refine Still.ite (still_pure _) ?_
    exact Still.bind (still_modify fun _ => rfl) fun _ => still_pure 0

theorem hidden_syscallWrite (p : ℕ) (fd : ℤ) (buf count : ℕ) : Hidden (syscallWrite p fd buf count) := by
  refine still_get fun k => Still.ite ?_ (still_pure _)
  cases lookupFd k p fd with
  | none => exact still_pure _
  | some a =>
    refine (hidden_getHandle a).bind fun fh => ?_
    unfold writeHandle
    cases fh.type with
    | screen =>
      exact (hidden_readUserBytes p buf count 0).bind fun bs => (hidden_writeToScreen bs).bind fun _ =>
        still_pure _
    | pipeWriter =>
      exact (hidden_writeToPipe _ count (hidden_readUserBytes p buf count 0)).bind fun _ => still_pure _
    | pipeReader => exact still_pure _
    | file => exact still_pure _
    | dir => exact still_pure _

theorem hidden_mailboxOf (d : ℕ) : Hidden (mailboxOf d) := by
  refine still_get fun k => ?_
  cases (k.sched.procs d).mailbox with
  | some x => exact still_pure x
  | none => exact hidden_kmalloc _

theorem standing_accept (v : Proc) (x : ℕ) : standingOf (accept v x) = standingOf v := by
  unfold accept
  split
  · rfl
  · rfl

theorem hidden_deliver (p d tag data size : ℕ) : Hidden (deliver p d tag data size) := by
  refine (hidden_mailboxOf d).bind fun x => ?_
  refine (hidden_set (fun S => accept (S.procs d) x) fun S => standing_accept (S.procs d) x).bind fun _ => still_get fun k => ?_
  refine (hidden_storeBlock _ _ _ _).bind fun _ => (hidden_readUserBytes p data size 0).bind fun bytes => ?_
  refine (hidden_storeBlock _ _ _ _).bind fun _ => Still.ite ?_ (still_pure 0)
  exact (hidden_resume d).bind fun _ => (hidden_set (fun S => { S.procs d with receiveBlocked := false }) fun _ => rfl).bind
    fun _ => still_pure 0

theorem hidden_syscallSend (p : ℕ) (dest : ℤ) (tag data size : ℕ) :
    Hidden (syscallSend p dest tag data size) :=
  still_get fun _ => Still.ite (Still.ite (still_pure _) (Still.ite (still_pure _)
    (Still.ite (still_pure _) (hidden_deliver _ _ _ _ _)))) (still_pure _)

theorem hidden_unimplemented (no : ℕ) : Hidden (unimplemented no) :=
  (hidden_writeToScreen _).bind fun _ => still_pure _

/-! ### Writing user memory -/

theorem Scrawled.refl (p : ℕ) (o : Outline) : Scrawled p o o := ⟨o.pages, .refl _, rfl⟩

theorem Scrawled.trans (h : Scrawled p o o') (h' : Scrawled p o' o'') : Scrawled p o o'' := by
  obtain ⟨P, hP, rfl⟩ := h
  obtain ⟨P', hP', rfl⟩ := h'
  exact ⟨P', hP.trans hP', rfl⟩

theorem scrawls_of {m : K α} (h : Hidden m) : Scrawls p m := fun o => h.acts fun _ => Scrawled.refl p o

theorem Scrawls.bind {m : K β} {f : β → K α} (hm : Scrawls p m) (hf : ∀ b, Scrawls p (f b)) :
    Scrawls p (m >>= f) := by
  intro o
  refine (hm o).bind fun b o' ho => ?_
  exact ((hf b) o').mono fun _ o'' ho' => ho.trans ho'

theorem scrawls_pure (a : α) : Scrawls p (pure a : K α) := scrawls_of (still_pure a)

theorem scrawls_get {f : State → K α} (hf : ∀ k, Scrawls p (f k)) : Scrawls p (get >>= f) :=
  fun o => Acts.get fun k _ => hf k o

theorem Scrawls.ite {c : Prop} [Decidable c] {m m' : K α} (h : Scrawls p m) (h' : Scrawls p m') :
    Scrawls p (if c then m else m') :=
  fun o => Acts.ite (fun _ => h o) fun _ => h' o

theorem scrawls_storeMapped (a : ℕ) (ha : a < wordSize) (b : UInt8) : Scrawls p (storeMapped p a b) := by
  intro o
  constructor
  intro k hk
  subst hk
  unfold storeMapped
  cases hx : physical k p a with
  | ok x =>
    obtain ⟨htr, hlow⟩ := physical_eq_ok hx
    exact ⟨_, .step b (.refl _) ha htr hlow, rfl⟩
  | error e => trivial

theorem scrawls_writeUser (a : ℕ) (ha : a < wordSize) (b : UInt8) : Scrawls p (writeUser p a b) :=
  Scrawls.bind (scrawls_of (hidden_touch [a])) fun _ => scrawls_storeMapped a ha b

theorem scrawls_writeUserBytes (a : ℕ) (bs : List UInt8) (i : ℕ) : Scrawls p (writeUserBytes p a bs i) := by
  induction bs generalizing i with
  | nil => exact scrawls_pure ()
  | cons b bs ih => exact (scrawls_writeUser _ (offset_lt a i) b).bind fun _ => ih (i + 1)

theorem scrawls_storeMappedBytes (a : ℕ) (bs : List UInt8) (i : ℕ) :
    Scrawls p (storeMappedBytes p a bs i) := by
  induction bs generalizing i with
  | nil => exact scrawls_pure ()
  | cons b bs ih => exact (scrawls_storeMapped _ (offset_lt a i) b).bind fun _ => ih (i + 1)

theorem scrawls_printUser (str size : ℕ) (text : List UInt8) : Scrawls p (printUser p str size text) :=
  (scrawls_writeUserBytes str _ 0).bind fun _ =>
    Scrawls.ite (scrawls_writeUser _ (offset_lt str _) 0) (scrawls_pure ())

theorem scrawls_storeStatus (status : ℕ) (value : Option ℤ) : Scrawls p (storeStatus p status value) := by
  cases value with
  | none => exact scrawls_pure ()
  | some v => exact Scrawls.ite (scrawls_pure ()) (scrawls_writeUserBytes status _ 0)

theorem scrawls_takeFromPipe (b : ℕ) (pb : PipeBuffer) (buf count : ℕ) :
    Scrawls p (takeFromPipe p b pb buf count) :=
  scrawls_get fun _ => (scrawls_writeUserBytes buf _ 0).bind fun _ => scrawls_get fun _ =>
    Scrawls.bind (scrawls_of (hidden_storeBlock _ _ _ _)) fun _ =>
      Scrawls.bind (scrawls_of (hidden_setPipe b _)) fun _ => scrawls_pure _

theorem scrawls_pipeReaderRead (fh : Filehandle) (buf count : ℕ) :
    Scrawls p (pipeReaderRead p fh buf count) := by
  refine Scrawls.bind (scrawls_of (hidden_getPipe _)) fun pb => ?_
  refine Scrawls.ite (scrawls_pure _) (Scrawls.ite (scrawls_takeFromPipe _ pb buf count) ?_)
  refine Scrawls.ite (scrawls_pure _) (scrawls_get fun k => ?_)
  refine Scrawls.bind (scrawls_of (hidden_setPipe _ _)) fun _ => ?_
  have hsus : Hidden (schedDo fun S => suspendProcess S p) := by
    apply hidden_schedDo
    intro S S' hS
    obtain ⟨-, -, rfl⟩ := suspendProcess_ok hS
    exact ⟨fun z => standing_set { S.procs p with ready := false } rfl z, rfl⟩
  exact Scrawls.bind (scrawls_of hsus) fun _ => scrawls_pure _

theorem scrawls_syscallRead (fs : Memory) (fd : ℤ) (buf count : ℕ) :
    Scrawls p (syscallRead fs p fd buf count) := by
  refine scrawls_get fun k => Scrawls.ite ?_ (scrawls_pure _)
  cases lookupFd k p fd with
  | none => exact scrawls_pure _
  | some a =>
    refine Scrawls.bind (scrawls_of (hidden_getHandle a)) fun fh => ?_
    unfold readHandle
    cases fh.type with
    | screen => exact scrawls_pure _
    | pipeWriter => exact scrawls_pure _
    | dir => exact scrawls_pure _
    | pipeReader => exact scrawls_pipeReaderRead fh buf count
    | file =>
      refine Scrawls.ite (scrawls_pure _) ((scrawls_writeUserBytes buf _ 0).bind fun _ => ?_)
      exact Scrawls.bind (scrawls_of (hidden_setHandle a _)) fun _ => scrawls_pure _

theorem scrawls_syscallPipe (filedes : ℕ) : Scrawls p (syscallPipe p filedes) := by
  refine scrawls_get fun k => Scrawls.ite ?_ (scrawls_pure _)
  match freeFds k p with
  | [] => exact scrawls_pure _
  | [_] => exact scrawls_pure _
  | readfd :: writefd :: _ =>
    refine Scrawls.bind (scrawls_of hidden_newPipe) fun b => ?_
    refine Scrawls.bind (scrawls_of (hidden_newHandle _ b 0)) fun _ => ?_
    refine Scrawls.bind (scrawls_of (hidden_setFd p _ _)) fun _ => ?_
    refine Scrawls.bind (scrawls_of (hidden_newHandle _ b 0)) fun _ => ?_
    refine Scrawls.bind (scrawls_of (hidden_setFd p _ _)) fun _ => ?_
    exact (scrawls_writeUserBytes filedes _ 0).bind fun _ => (scrawls_writeUserBytes _ _ 0).bind fun _ =>
      scrawls_pure 0

theorem scrawls_syscallStat (fs : Memory) (path buf : ℕ) : Scrawls p (syscallStat fs p path buf) := by
  refine Scrawls.bind (scrawls_of (hidden_validString p path)) fun valid => scrawls_get fun k => ?_
  refine Scrawls.ite ?_ (scrawls_pure _)
  refine Scrawls.bind (scrawls_of (hidden_findEntry fs p path)) fun x => ?_
  obtain ⟨abs, found⟩ := x
  cases found with
  | error e => exact scrawls_pure e
  | ok entry => exact (scrawls_writeUserBytes buf _ 0).bind fun _ => scrawls_pure 0

theorem scrawls_syscallGetdent (fs : Memory) (fd : ℤ) (entry : ℕ) :
    Scrawls p (syscallGetdent fs p fd entry) := by
  refine scrawls_get fun k => Scrawls.ite ?_ (scrawls_pure _)
  cases lookupFd k p fd with
  | none => exact scrawls_pure _
  | some a =>
    refine Scrawls.bind (scrawls_of (hidden_getHandle a)) fun fh => Scrawls.ite ?_ (scrawls_pure _)
    refine Scrawls.ite (scrawls_pure _) ((scrawls_writeUserBytes entry _ 0).bind fun _ => ?_)
    refine Scrawls.bind (scrawls_of (hidden_lift _)) fun text => (scrawls_printUser _ _ text).bind fun _ => ?_
    exact Scrawls.bind (scrawls_of (hidden_setHandle a _)) fun _ => scrawls_pure 1

theorem scrawls_syscallGetcwd (buf size : ℕ) : Scrawls p (syscallGetcwd p buf size) :=
  scrawls_get fun _ => Scrawls.ite ((scrawls_printUser buf size _).bind fun _ => scrawls_pure _)
    (scrawls_pure 0)

theorem scrawls_syscallReceive (msg : ℕ) (block : Bool) : Scrawls p (syscallReceive p msg block) := by
  refine scrawls_get fun k => Scrawls.ite (Scrawls.ite ?_ (Scrawls.ite ?_ (scrawls_pure _))) (scrawls_pure _)
  · cases (k.sched.procs p).mailbox with
    | none => exact scrawls_of (hidden_throw _)
    | some x =>
      refine scrawls_get fun _ => (scrawls_writeUserBytes msg _ 0).bind fun _ => scrawls_get fun _ => ?_
      refine Scrawls.bind (scrawls_of (hidden_storeBlock _ _ _ _)) fun _ => ?_
      exact Scrawls.bind (scrawls_of (hidden_set _ fun _ => rfl)) fun _ => scrawls_pure 0
  · exact Scrawls.bind (scrawls_of (hidden_suspend _ fun _ => rfl)) fun _ => scrawls_pure _

/-! ### Creating, changing and ending processes -/

/-- The lowest unused slot. -/
def Outline.freeSlot (o : Outline) : Option ℕ :=
  (List.range' 1 (MAX_PROCESSES - 1)).find? fun pid => !(o.table pid).exists_

/-- A new process with the registers `r`. -/
def Outline.install (o : Outline) (pid : ℕ) (r : Regs) (P : Pages) (s : Space) : Outline :=
  { o with
    table := Function.update o.table pid ⟨true, false, r, 0⟩
    pages := P
    space := Function.update o.space pid s }

/-- The process `q` has been killed; `e` tells whether its slot is kept. -/
def Outline.kill (o : Outline) (q : ℕ) (e : Bool) (P : Pages) : Outline :=
  { o with
    table := Function.update o.table q { o.table q with exists_ := e, exited := true }
    current := if o.current = some q then none else o.current
    pages := P }

/-- The address space of `p` has been changed. -/
def Outline.remap (o : Outline) (p : ℕ) (P : Pages) (s : Space) : Outline :=
  { o with pages := P, space := Function.update o.space p s }

/-- Slots of exited processes have been released. -/
def Reaped (o o' : Outline) : Prop :=
  ∃ e : ℕ → Bool, o' = { o with table := fun z => { o.table z with exists_ := e z } } ∧
    ∀ z, e z = (o.table z).exists_ ∨ e z = false ∧ (o.table z).exited = true

variable {R : α → Outline → Prop} {U : Unit → Outline → Prop}

theorem acts_onPages {f : Pages → Except Fault (α × Pages)}
    (hR : ∀ a P, f o.pages = .ok (a, P) → R a { o with pages := P }) :
    Acts State.outline AnyFault o (onPages f) R := by
  constructor
  intro k hk
  subst hk
  unfold onPages
  cases hP : f k.pages with
  | ok x => exact hR x.1 x.2 hP
  | error e => trivial

theorem acts_setSpace {s : Space} (hR : U () { o with space := Function.update o.space p s }) :
    Acts State.outline AnyFault o (setSpace p s) U := by
  apply Acts.modify
  intro k hk
  subst hk
  exact hR

theorem acts_schedDo {f : Sched → Except Fault Sched}
    (hR : ∀ S S', (fun q => standingOf (S.procs q)) = o.table → S.current = o.current → f S = .ok S' →
      U () { o with table := fun q => standingOf (S'.procs q), current := S'.current }) :
    Acts State.outline AnyFault o (schedDo f) U := by
  constructor
  intro k hk
  subst hk
  unfold schedDo
  cases hS : f k.sched with
  | ok S' => exact hR _ S' rfl rfl hS
  | error e => trivial

theorem standing_install {S : Sched} {v : Proc} {r : Regs} (hS : (fun q => standingOf (S.procs q)) = o.table)
    (hv : standingOf v = ⟨true, false, r, 0⟩) :
    (fun q => standingOf ((install S p v).procs q)) = Function.update o.table p ⟨true, false, r, 0⟩ := by
  funext q
  rw [install_procs]
  by_cases hq : q = p
  · rw [hq, Function.update_self, Function.update_self]
    exact hv
  · rw [Function.update_of_ne hq, Function.update_of_ne hq, ← hS]

theorem acts_startIn (m : Machine) (pid startAddress : ℕ) :
    Acts State.outline AnyFault o (startIn m pid startAddress) fun _ o' => ∃ pdir P,
      startPages m o.pages = .ok (pdir, P) ∧
      o' = o.install pid (initRegs PROCESS_STACK_BASE startAddress) P (initialSpace pdir) := by
  refine Acts.seq (acts_onPages fun pdir P hP => Acts.seq (acts_setSpace ?_))
  refine (hidden_clearFds pid).andThen fun _ => (hidden_openStandard pid).andThen fun _ => ?_
  refine (hidden_setCwd pid _).andThen fun _ => acts_schedDo fun S S' hS hcur hok => ?_
  cases hok
  refine ⟨pdir, P, hP, ?_⟩
  rw [standing_install hS rfl, install_current, hcur]
  rfl

theorem acts_forkIn (child : ℕ) (r : Regs) :
    Acts State.outline AnyFault o (forkIn p child r) fun _ o' => ∃ pdir P,
      forkPages (o.space p) o.pages = .ok (pdir, P) ∧
      o' = o.install child { r with eax := 0 } P { o.space p with pdir := pdir } := by
  refine Acts.get fun k hk => ?_
  have hspace : k.space = o.space := congrArg Outline.space hk
  rw [hspace]
  refine Acts.seq (acts_onPages fun pdir P hP => Acts.seq (acts_setSpace ?_))
  refine (hidden_clearFds child).andThen fun _ => (hidden_shareFds p child _).andThen fun _ => ?_
  refine (hidden_setCwd child _).andThen fun _ => acts_schedDo fun S S' hS hcur hok => ?_
  cases hok
  refine ⟨pdir, P, hP, ?_⟩
  rw [standing_install hS rfl, install_current, hcur]
  rfl

theorem hidden_freeMailbox (x : Option ℕ) : Hidden (freeMailbox x) := by
  cases x with
  | none => exact still_pure ()
  | some x => exact hidden_kfree x

theorem acts_killProcess (q : ℕ) :
    Acts State.outline AnyFault o (killProcess q) fun _ o' => ∃ e P,
      releasePages (o.space q) o.pages = .ok ((), P) ∧ (e = true → (o.table q).exists_ = true) ∧
      o' = o.kill q e P := by
  refine Acts.seq (acts_schedDo fun S S' hS hcur hok => ?_)
  cases hok
  refine (hidden_closeFds q _).andThen fun _ => Acts.get fun k hk => ?_
  have hspace : k.space = o.space := congrArg Outline.space hk
  rw [hspace]
  refine Acts.seq (acts_onPages fun _ P hP => ?_)
  refine (hidden_freeMailbox _).andThen fun _ => acts_schedDo fun S₁ S₂ hS₁ hcur₁ hok => ?_
  obtain ⟨hprocs, hcur₂, -⟩ := bury_ok hok
  simp only [detach_procs] at hS₁
  rw [hS] at hS₁
  have hcurrent : S₂.current = if o.current = some q then none else o.current := by
    rw [hcur₂, hcur₁, ← hcur]
    exact detach_current S q
  -- burying changes the standing of the dead process only
  have htable : (fun z => standingOf (S₂.procs z)) = Function.update o.table q
      { o.table q with exists_ := (buried S₁ q q).exists_, exited := true } := by
    funext z
    rw [hprocs, ← hS₁]
    by_cases hz : z = q
    · rw [hz, Function.update_self]
      show (⟨_, _, _, _⟩ : Standing) = ⟨_, _, _, _⟩
      simp [buried, mourned, standingOf]
    · rw [Function.update_of_ne hz]
      show (⟨_, _, _, _⟩ : Standing) = ⟨_, _, _, _⟩
      simp [buried, mourned, hz]
  refine ⟨(buried S₁ q q).exists_, P, hP, ?_, ?_⟩
  · intro he
    rw [← hS₁]
    simp only [buried, mourned] at he
    split at he
    · cases he
    · exact he
  · rw [htable, hcurrent]
    rfl

theorem acts_syscallBrk (endDataSegment : ℕ) :
    Acts State.outline AnyFault o (syscallBrk p endDataSegment) fun _ o' =>
      o' = o ∨ (o.space p).dataEnd < endDataSegment ∧
        ∃ P, mapNewPages o.pages (o.space p).pdir (o.space p).dataEnd
            ((roundUp endDataSegment + wordSize - (o.space p).dataEnd) % wordSize / PAGE_SIZE) = .ok P ∧
          o' = o.remap p P { o.space p with dataEnd := roundUp endDataSegment } := by
  refine Acts.get fun k hk => ?_
  have hspace : k.space = o.space := congrArg Outline.space hk
  rw [hspace]
  refine Acts.ite (fun _ => Acts.pure (Or.inl rfl)) fun hlt => ?_
  refine Acts.seq (acts_onPages fun _ P hP => Acts.seq (acts_setSpace (Acts.pure ?_)))
  obtain ⟨P₁, hP₁, h'⟩ := bind_eq_ok.mp hP
  obtain rfl : P₁ = P := congrArg Prod.snd (Except.ok.inj h')
  exact Or.inr ⟨not_le.mp hlt, P₁, hP₁, rfl⟩

theorem hidden_packArgs (argdata size : ℕ) (args : List (List UInt8)) (argno pos : ℕ) :
    Hidden (packArgs argdata size args argno pos) := by
  induction args generalizing argno pos with
  | nil => exact still_pure ()
  | cons arg args ih =>
    exact (hidden_storeBlock _ _ _ _).bind fun _ => (hidden_storeBlock _ _ _ _).bind fun _ => ih _ _

theorem hidden_buildArgs (args : List (List UInt8)) : Hidden (buildArgs args) :=
  (hidden_kmalloc _).bind fun _ => (hidden_packArgs _ _ args 0 _).bind fun _ =>
    (hidden_storeBlock _ _ _ _).bind fun _ => (hidden_storeBlock _ _ _ _).bind fun _ => still_pure _

/-- The address space of `p` holds the program of an entry of the file system. -/
def Loaded (fs : Memory) (p : ℕ) (o o' : Outline) : Prop :=
  ∃ path entry P, getDirectoryEntry fs path = .ok (.ok entry) ∧
    execPages fs entry (o.space p) o.pages = .ok ((), P) ∧
    Scrawled p (o.remap p P (execSpace fs entry (o.space p))) o'

theorem acts_execProgram (fs : Memory) (entry : ℕ) (args : List (List UInt8)) :
    Acts State.outline AnyFault o (execProgram fs p entry args) fun x o' => x.1 = 0 ∧
      ∃ P, execPages fs entry (o.space p) o.pages = .ok ((), P) ∧
        Scrawled p (o.remap p P (execSpace fs entry (o.space p))) o' := by
  refine (hidden_buildArgs args).andThen fun argdata => Acts.get fun k hk => ?_
  have hspace : k.space = o.space := congrArg Outline.space hk
  rw [hspace]
  refine Acts.seq (acts_onPages fun _ P hP => Acts.seq (acts_setSpace ?_))
  refine Acts.get fun k' _ => Acts.bind (scrawls_storeMappedBytes _ _ 0 _) fun _ o' ho' => ?_
  exact (hidden_kfree argdata).andThen fun _ => Acts.pure ⟨rfl, P, hP, ho'⟩

theorem acts_lift {x : Except Fault α} (hR : ∀ a, x = .ok a → R a o) :
    Acts State.outline AnyFault o (lift x) R := by
  constructor
  intro k hk
  cases x with
  | ok a =>
    show R a k.outline
    rw [hk]
    exact hR a rfl
  | error e => exact trivial

theorem acts_syscallExecve (fs : Memory) (filename argv : ℕ) (r : Regs) :
    Acts State.outline AnyFault o (syscallExecve fs p filename argv r) fun x o' =>
      (o' = o ∧ x.2 = r) ∨ x.1 = 0 ∧ Loaded fs p o o' := by
  refine (hidden_validString p filename).andThen fun valid => ?_
  refine Acts.ite (fun _ => ?_) fun _ => Acts.pure (Or.inl ⟨rfl, rfl⟩)
  refine (hidden_validArgv p argv).andThen fun ok => ?_
  refine Acts.ite (fun _ => ?_) fun _ => Acts.pure (Or.inl ⟨rfl, rfl⟩)
  refine (hidden_userString p filename).andThen fun path => Acts.seq (acts_lift fun found hfound => ?_)
  cases found with
  | error e => exact Acts.pure (Or.inl ⟨rfl, rfl⟩)
  | ok entry =>
    refine Acts.ite (fun _ => Acts.pure (Or.inl ⟨rfl, rfl⟩)) fun _ => ?_
    refine (hidden_argStrings p argv).andThen fun args => ?_
    refine (acts_execProgram fs entry args).mono ?_
    rintro x o' ⟨hx, P, hP, hsc⟩
    exact Or.inr ⟨hx, path, entry, P, hfound, hP, hsc⟩

theorem acts_syscallFork (r : Regs) :
    Acts State.outline AnyFault o (syscallFork p r) fun res o' => o' = o ∨ ∃ child pdir P,
      o.freeSlot = some child ∧ forkPages (o.space p) o.pages = .ok (pdir, P) ∧ res = child ∧
      o' = o.install child { r with eax := 0 } P { o.space p with pdir := pdir } := by
  refine Acts.get fun k hk => ?_
  have hslot : getFreePid k.sched = o.freeSlot := by
    rw [← hk]
    rfl
  rw [hslot]
  cases hfree : o.freeSlot with
  | none => exact Acts.pure (Or.inl rfl)
  | some child =>
    refine Acts.bind (acts_forkIn child r) ?_
    rintro _ o' ⟨pdir, P, hP, ho'⟩
    exact Acts.pure (Or.inr ⟨child, pdir, P, rfl, hP, rfl, ho'⟩)

theorem acts_syscallExit (status : ℤ) :
    Acts State.outline AnyFault o (syscallExit p status) fun _ o' => ∃ e P,
      releasePages (o.space p) o.pages = .ok ((), P) ∧ (e = true → (o.table p).exists_ = true) ∧
      o' = o.kill p e P := by
  have hset : Hidden (schedDo fun S => .ok (setExitStatus S p status)) := hidden_set _ fun _ => rfl
  refine hset.andThen fun _ => Acts.bind (acts_killProcess p) ?_
  intro _ o' ho'
  exact Acts.pure ho'

theorem acts_syscallKill (pid : ℤ) :
    Acts State.outline AnyFault o (syscallKill p pid) fun _ o' => o' = o ∨ ∃ (q : ℕ) (e : Bool) (P : Pages),
      pid = q ∧ q < MAX_PROCESSES ∧ (o.table q).exists_ = true ∧
      releasePages (o.space q) o.pages = .ok ((), P) ∧ o' = o.kill q e P := by
  refine Acts.get fun k hk => ?_
  have htable : ∀ q, (k.sched.procs q).exists_ = (o.table q).exists_ := by
    intro q
    rw [← hk]
    rfl
  refine Acts.ite (fun _ => Acts.pure (Or.inl rfl)) fun hc => ?_
  rw [not_or, not_or, htable] at hc
  refine Acts.bind (acts_killProcess pid.toNat) ?_
  rintro _ o' ⟨e, P, hP, -, ho'⟩
  refine Acts.pure (Or.inr ⟨pid.toNat, e, P, by omega, by omega, by simpa using hc.2.2, hP, ho'⟩)

theorem reaped_refl (o : Outline) : Reaped o o := ⟨fun z => (o.table z).exists_, rfl, fun _ => Or.inl rfl⟩

/-- What `waitpid` does to the table. -/
theorem reaped_waitpid {S S' : Sched} {pid res : ℤ} {value : Option ℤ}
    (hS : (fun q => standingOf (S.procs q)) = o.table) (hcur : S.current = o.current)
    (hok : Process.syscallWaitpid S p pid = .ok (res, value, S')) :
    Reaped o { o with table := fun q => standingOf (S'.procs q), current := S'.current } := by
  have hstill : ∀ w z, standingOf ((waitFor S p w).procs z) = standingOf (S.procs z) := by
    intro w z
    rw [waitFor_proc]
    rfl
  have hsame : ∀ {S₁ : Sched}, (∀ z, standingOf (S₁.procs z) = standingOf (S.procs z)) →
      S₁.current = S.current →
      Reaped o { o with table := fun q => standingOf (S₁.procs q), current := S₁.current } := by
    intro S₁ hstand hcur₁
    rw [hcur₁, hcur, funext hstand, hS]
    exact reaped_refl o
  rcases syscallWaitpid_ok hok with ⟨-, -, rfl | rfl⟩ | ⟨d, -, -, hexit, -, -, rfl⟩ |
    ⟨d, -, -, -, -, -, hsus⟩
  · exact hsame (fun _ => rfl) rfl
  · exact hsame (hstill none) rfl
  · refine ⟨fun z => if z = d then false else (o.table z).exists_, ?_, ?_⟩
    · have htable : (fun z => standingOf ((reap (waitFor S p none) d).procs z)) =
          fun z => { o.table z with exists_ := if z = d then false else (o.table z).exists_ } := by
        funext z
        rw [reap_proc, waitFor_proc, ← hS]
        rfl
      rw [htable, show (reap (waitFor S p none) d).current = o.current from hcur]
    · intro z
      by_cases hz : z = d
      · refine Or.inr ⟨if_pos hz, ?_⟩
        rw [hz, ← hS]
        exact hexit
      · exact Or.inl (if_neg hz)
  · obtain ⟨-, -, rfl⟩ := suspendProcess_ok hsus
    refine hsame ?_ rfl
    intro z
    rw [← hstill (some d) z]
    exact standing_set { (waitFor S p (some d)).procs p with ready := false } rfl z

theorem acts_syscallWaitpid (pid : ℤ) (status : ℕ) :
    Acts State.outline AnyFault o (syscallWaitpid p pid status) fun _ o' =>
      ∃ o₁, Reaped o o₁ ∧ Scrawled p o₁ o' := by
  refine Acts.get fun k hk => Acts.seq (acts_lift ?_)
  rintro ⟨res, value, S⟩ hS
  refine Acts.bind (scrawls_storeStatus status value o) ?_
  rintro _ o' ⟨P, hsc, rfl⟩
  have htable : (fun q => standingOf (k.sched.procs q)) = o.table := congrArg Outline.table hk
  have hcur : k.sched.current = o.current := congrArg Outline.current hk
  have hreaped := reaped_waitpid htable hcur hS
  refine Acts.bind (R := fun _ o' => o' = { o with
    table := fun q => standingOf (S.procs q), current := S.current, pages := P }) ?_ ?_
  · refine Acts.modify fun k' hk' => ?_
    show (⟨_, _, k'.pages, k'.space⟩ : Outline) = _
    rw [show k'.pages = P from congrArg Outline.pages hk', show k'.space = o.space from congrArg Outline.space hk']
  · rintro _ _ rfl
    exact Acts.pure ⟨_, hreaped, P, hsc, rfl⟩

/-! ### All handlers -/

/-- What the handler of the call `no` of process `p`, with the registers `r` and the argument words `args`, does
to the outline. -/
inductive Turn (fs : Memory) (p no : ℕ) (r : Regs) (args : List ℕ) (o : Outline) : ℤ × Regs → Outline → Prop where
  | wrote (res : ℤ) (o' : Outline) : Scrawled p o o' → Turn fs p no r args o (res, r) o'
  | forked (child pdir : ℕ) (P : Pages) : no = SYSCALL_FORK → o.freeSlot = some child →
      forkPages (o.space p) o.pages = .ok (pdir, P) →
      Turn fs p no r args o (child, r)
        (o.install child { r with eax := 0 } P { o.space p with pdir := pdir })
  | killed (res : ℤ) (q : ℕ) (e : Bool) (P : Pages) :
      (no = SYSCALL_EXIT ∧ q = p) ∨
        (no = SYSCALL_KILL ∧ toInt (args.getD 0 0) = q ∧ (o.table q).exists_ = true) →
      releasePages (o.space q) o.pages = .ok ((), P) →
      Turn fs p no r args o (res, r) (o.kill q e P)
  | grown (res : ℤ) (P : Pages) : no = SYSCALL_BRK → (o.space p).dataEnd < args.getD 0 0 →
      mapNewPages o.pages (o.space p).pdir (o.space p).dataEnd
        ((roundUp (args.getD 0 0) + wordSize - (o.space p).dataEnd) % wordSize / PAGE_SIZE) = .ok P →
      Turn fs p no r args o (res, r) (o.remap p P { o.space p with dataEnd := roundUp (args.getD 0 0) })
  | loaded (r' : Regs) (o' : Outline) : no = SYSCALL_EXECVE → Loaded fs p o o' → Turn fs p no r args o (0, r') o'
  | reaped (res : ℤ) (o₁ o' : Outline) : Reaped o o₁ → Scrawled p o₁ o' → Turn fs p no r args o (res, r) o'

theorem acts_keep {ω : Type} {v : State → ω} {F : Fault → Prop} {o : ω} {x : K ℤ} {R : ℤ × Regs → ω → Prop}
    (r : Regs) (h : Acts v F o x fun res o' => R (res, r) o') : Acts v F o (keep r x) R :=
  Acts.bind h fun _ _ hR => Acts.pure hR

variable {no : ℕ} {r : Regs} {args : List ℕ} {fs : Memory}

/-- A handler that at most writes to the memory of the caller. -/
theorem turn_of_scrawls {x : K ℤ} (h : Scrawls p x) :
    Acts State.outline AnyFault o (keep r x) (Turn fs p no r args o) :=
  acts_keep r ((h o).mono fun res o' ho' => .wrote res o' ho')

/-- **The handlers.** -/
theorem acts_dispatch (m : Machine) (no : ℕ) (r : Regs) (args : List ℕ) (o : Outline) :
    Acts State.outline AnyFault o (dispatch m p r no args) (Turn m.filesystem p no r args o) := by
  by_cases hk : no ∈ knownCalls
  · simp only [knownCalls, List.mem_cons, List.not_mem_nil, or_false] at hk
    rcases hk with rfl | rfl | rfl | rfl | rfl | rfl | rfl | rfl | rfl | rfl | rfl | rfl | rfl | rfl | rfl |
      rfl | rfl | rfl | rfl | rfl
    · exact turn_of_scrawls (scrawls_get fun _ => scrawls_pure _)
    · refine acts_keep r ((acts_syscallExit _).mono ?_)
      rintro res o' ⟨e, P, hP, -, rfl⟩
      exact .killed res p e P (Or.inl ⟨rfl, rfl⟩) hP
    · exact turn_of_scrawls (scrawls_of (hidden_syscallWrite _ _ _ _))
    · exact turn_of_scrawls (scrawls_syscallRead _ _ _ _)
    · exact turn_of_scrawls (scrawls_get fun _ => scrawls_pure _)
    · refine acts_keep r ((acts_syscallBrk _).mono ?_)
      rintro res o' (rfl | ⟨hlt, P, hP, rfl⟩)
      · exact .wrote res o' (Scrawled.refl p o')
      · exact .grown res P rfl hlt hP
    · exact turn_of_scrawls (scrawls_of (hidden_syscallSend _ _ _ _ _))
    · exact turn_of_scrawls (scrawls_syscallReceive _ _)
    · exact turn_of_scrawls (scrawls_of (hidden_syscallClose _ _))
    · exact turn_of_scrawls (scrawls_syscallPipe _)
    · exact turn_of_scrawls (scrawls_of (hidden_syscallDup2 _ _ _))
    · refine acts_keep r ((acts_syscallFork r).mono ?_)
      rintro res o' (rfl | ⟨child, pdir, P, hfree, hP, rfl, rfl⟩)
      · exact .wrote res o' (Scrawled.refl p o')
      · exact .forked child pdir P rfl hfree hP
    · refine (acts_syscallExecve _ _ _ r).mono ?_
      rintro ⟨res, r'⟩ o' (⟨rfl, rfl⟩ | ⟨rfl, hload⟩)
      · exact .wrote res o' (Scrawled.refl p o')
      · exact .loaded r' o' rfl hload
    · refine acts_keep r ((acts_syscallWaitpid _ _).mono ?_)
      rintro res o' ⟨o₁, hreap, hsc⟩
      exact .reaped res o₁ o' hreap hsc
    · exact turn_of_scrawls (scrawls_syscallStat _ _ _)
    · exact turn_of_scrawls (scrawls_of (hidden_syscallOpen _ _ _ _))
    · exact turn_of_scrawls (scrawls_syscallGetdent _ _ _)
    · exact turn_of_scrawls (scrawls_of (hidden_syscallChdir _ _ _))
    · exact turn_of_scrawls (scrawls_syscallGetcwd _ _)
    · refine acts_keep r ((acts_syscallKill _).mono ?_)
      rintro res o' (rfl | ⟨q, e, P, hq, -, hex, hP, rfl⟩)
      · exact .wrote res o' (Scrawled.refl p o')
      · exact .killed res q e P (Or.inr ⟨rfl, hq, hex⟩) hP
  · rw [(unknown_call hk args).1]
    exact turn_of_scrawls (scrawls_of (hidden_unimplemented no))

end AdelaideOS.Kernel
