import AdelaideOS.Kernel.Calls
import AdelaideOS.Lib.Triple

/-!
# What the handlers do to processes and memory

`Core S P sp k` says that the state `k` has the scheduler `S`, the pages `P` and the address spaces `sp`, and
that no process is blocked on a pipe.  A computation that keeps every core is `Calm`: it may allocate on the
heap, open and close files, print, and read user memory.  The lemmas say how each handler that creates, changes
or ends processes moves the core; everything else they do is calm.
-/

namespace AdelaideOS.Kernel

open AdelaideOS.Lib.Bytes AdelaideOS.Lib.Triple AdelaideOS.Page AdelaideOS.Process

/-- No process is blocked on a pipe. -/
def Quiet (k : State) : Prop := ∀ a b, k.pipes a = some b → b.readpid = none

structure Core (S : Sched) (P : Pages) (sp : ℕ → Space) (k : State) : Prop where
  sched : k.sched = S
  pages : k.pages = P
  space : k.space = sp
  quiet : Quiet k

/-- Where the kernel stops, nothing is claimed. -/
abbrev Stopped : State → Prop := fun _ => True

def Calm {α : Type} (m : K α) : Prop :=
  ∀ S P sp, Sat (Core S P sp) m (fun _ => Core S P sp) Stopped

variable {α β : Type} {S : Sched} {P : Pages} {sp : ℕ → Space}

/-! ### Calm computations -/

theorem calm_pure (a : α) : Calm (pure a : K α) := fun _ _ _ => Sat.pure fun _ h => h

theorem Calm.bind {m : K β} {f : β → K α} (hm : Calm m) (hf : ∀ b, Calm (f b)) : Calm (m >>= f) :=
  fun S P sp => (hm S P sp).bind fun b => hf b S P sp

theorem calm_get {f : State → K α} (hf : ∀ k, Calm (f k)) : Calm (get >>= f) :=
  fun S P sp => Sat.get fun k _ => hf k S P sp

theorem Calm.ite {c : Prop} [Decidable c] {m m' : K α} (h : Calm m) (h' : Calm m') :
    Calm (if c then m else m') :=
  fun S P sp => Sat.ite (fun _ => h S P sp) fun _ => h' S P sp

/-- A change of the parts that the core leaves out. -/
theorem calm_modify {f : State → State}
    (h : ∀ k, (f k).sched = k.sched ∧ (f k).pages = k.pages ∧ (f k).space = k.space ∧
      (f k).pipes = k.pipes) : Calm (modify f : K Unit) := by
  intro S P sp
  apply Sat.modify
  intro k hk
  obtain ⟨h₁, h₂, h₃, h₄⟩ := h k
  refine ⟨h₁.trans hk.sched, h₂.trans hk.pages, h₃.trans hk.space, ?_⟩
  intro a b hb
  rw [h₄] at hb
  exact hk.quiet a b hb

theorem calm_throw (e : Fault) : Calm (throw e : K α) := fun _ _ _ => ⟨fun _ _ => trivial⟩

theorem calm_lift (x : Except Fault α) : Calm (lift x) := by
  intro S P sp
  constructor
  intro k hk
  cases x with
  | ok a => exact hk
  | error e => trivial

theorem calm_onHeap (f : Buddy.Heap → Except Fault (α × Buddy.Heap)) : Calm (onHeap f) := by
  intro S P sp
  constructor
  intro k hk
  unfold onHeap
  cases f k.heap with
  | ok r => exact ⟨hk.sched, hk.pages, hk.space, hk.quiet⟩
  | error e => trivial

theorem calm_kmalloc (n : ℕ) : Calm (kmalloc n) := calm_onHeap _

theorem calm_kfree (ptr : ℕ) : Calm (kfree ptr) := calm_onHeap _

theorem calm_storeBlock (block size off : ℕ) (bs : List UInt8) : Calm (storeBlock block size off bs) := by
  intro S P sp
  constructor
  intro k hk
  unfold storeBlock
  by_cases h : off + bs.length ≤ size
  · rw [if_pos h]
    exact ⟨hk.sched, hk.pages, hk.space, hk.quiet⟩
  · rw [if_neg h]
    trivial

theorem calm_touch (as : List ℕ) : Calm (touch as) :=
  fun _ _ _ => ⟨fun _ hk => ⟨hk.sched, hk.pages, hk.space, hk.quiet⟩⟩

theorem calm_loadMapped (p a : ℕ) : Calm (loadMapped p a) := by
  intro S P sp
  constructor
  intro k hk
  unfold loadMapped
  cases physical k p a with
  | ok x => exact hk
  | error e => trivial

theorem calm_check (site : Site) (c : Prop) [Decidable c] : Calm (check site c) := calm_lift _

theorem calm_getHandle (a : ℕ) : Calm (getHandle a) := by
  intro S P sp
  constructor
  intro k hk
  unfold getHandle
  cases k.handles a with
  | some fh => exact hk
  | none => trivial

theorem calm_setHandle (a : ℕ) (fh : Option Filehandle) : Calm (setHandle a fh) :=
  calm_modify fun _ => ⟨rfl, rfl, rfl, rfl⟩

theorem calm_setFd (p fd : ℕ) (fh : Option ℕ) : Calm (setFd p fd fh) :=
  calm_modify fun _ => ⟨rfl, rfl, rfl, rfl⟩

/-- Pipes that are read are quiet. -/
theorem getPipe_quiet (a : ℕ) :
    Sat (Core S P sp) (getPipe a) (fun b k => b.readpid = none ∧ Core S P sp k) Stopped := by
  constructor
  intro k hk
  unfold getPipe
  cases hb : k.pipes a with
  | some b => exact ⟨hk.quiet a b hb, hk⟩
  | none => trivial

theorem calm_getPipe {a : ℕ} {f : PipeBuffer → K α} (hf : ∀ b, b.readpid = none → Calm (f b)) :
    Calm (getPipe a >>= f) := by
  intro S P sp
  refine (getPipe_quiet a).bind fun b => ?_
  refine Sat.assume (fun k hk => hk.1) fun hb => ?_
  exact (hf b hb S P sp).pre fun k hk => hk.2

theorem calm_setPipe (a : ℕ) {b : Option PipeBuffer} (hb : ∀ x, b = some x → x.readpid = none) :
    Calm (setPipe a b) := by
  intro S P sp
  apply Sat.modify
  intro k hk
  refine ⟨hk.sched, hk.pages, hk.space, ?_⟩
  intro c x hx
  by_cases hc : c = a
  · have hx' : Function.update k.pipes a b c = some x := hx
    rw [hc, Function.update_self] at hx'
    exact hb x hx'
  · have hx' : Function.update k.pipes a b c = some x := hx
    rw [Function.update_of_ne hc] at hx'
    exact hk.quiet c x hx'

/-! ### Files -/

theorem calm_newPipe : Calm newPipe := by
  unfold newPipe
  refine (calm_kmalloc 24).bind fun b => (calm_kmalloc BUFSIZE).bind fun data => ?_
  refine Calm.bind (calm_setPipe b ?_) fun _ => calm_pure b
  intro x hx
  cases hx
  rfl

theorem calm_newHandle (type : FhType) (p entry : ℕ) : Calm (newHandle type p entry) := by
  unfold newHandle
  exact (calm_kmalloc 36).bind fun fh => (calm_setHandle fh _).bind fun _ => calm_pure fh

theorem calm_openStandard (p : ℕ) : Calm (openStandard p) := by
  unfold openStandard
  refine calm_newPipe.bind fun b => (calm_newHandle .pipeReader b 0).bind fun stdin => ?_
  refine (calm_setFd p 0 _).bind fun _ => (calm_newHandle .screen 0 0).bind fun stdout => ?_
  exact (calm_setFd p 1 _).bind fun _ => (calm_newHandle .screen 0 0).bind fun stderr =>
    calm_setFd p 2 _

theorem calm_wakeUpReader (b : ℕ) : Calm (wakeUpReader b) := by
  unfold wakeUpReader
  refine calm_getPipe fun pb hpb => ?_
  rw [hpb]
  exact calm_pure ()

theorem calm_checkBufferFree (b : ℕ) : Calm (checkBufferFree b) := by
  unfold checkBufferFree
  refine calm_getPipe fun pb _ => Calm.ite ?_ (calm_pure ())
  refine (calm_check _ _).bind fun _ => (calm_kfree _).bind fun _ => (calm_kfree b).bind fun _ => ?_
  apply calm_setPipe
  intro x hx
  cases hx

theorem calm_plainDestroy (a : ℕ) : Calm (plainDestroy a) :=
  (calm_kfree a).bind fun _ => calm_setHandle a none

theorem calm_destroy (a : ℕ) (fh : Filehandle) : Calm (destroy a fh) := by
  have hclose : ∀ b, Calm (do checkBufferFree b; plainDestroy a) :=
    fun b => (calm_checkBufferFree b).bind fun _ => calm_plainDestroy a
  have hset : ∀ b pb, pb.readpid = none → Calm (setPipe b (some pb)) := by
    intro b pb hpb
    apply calm_setPipe
    intro x hx
    cases hx
    exact hpb
  unfold destroy
  cases fh.type with
  | pipeWriter =>
    refine calm_getPipe fun pb hpb => (calm_check _ _).bind fun _ => ?_
    exact (hset fh.p { pb with writing := false } hpb).bind fun _ =>
      (calm_wakeUpReader fh.p).bind fun _ => hclose fh.p
  | pipeReader =>
    refine calm_getPipe fun pb hpb => (calm_check _ _).bind fun _ => ?_
    exact (hset fh.p { pb with reading := false } hpb).bind fun _ => hclose fh.p
  | screen => exact calm_plainDestroy a
  | file => exact calm_plainDestroy a
  | dir => exact calm_plainDestroy a

theorem calm_closeFilehandle (a : ℕ) : Calm (closeFilehandle a) := by
  unfold closeFilehandle
  refine (calm_getHandle a).bind fun fh => (calm_check _ _).bind fun _ => ?_
  exact (calm_setHandle a _).bind fun _ => Calm.ite (calm_destroy a _) (calm_pure ())

theorem calm_closeFds (p : ℕ) (fds : List ℕ) : Calm (closeFds p fds) := by
  induction fds with
  | nil => exact calm_pure ()
  | cons fd fds ih =>
    refine calm_get fun k => Calm.bind ?_ fun _ => ih
    cases k.filedesc p fd with
    | none => exact calm_pure ()
    | some a => exact calm_closeFilehandle a

theorem calm_shareFds (parent child : ℕ) (fds : List ℕ) : Calm (shareFds parent child fds) := by
  induction fds with
  | nil => exact calm_pure ()
  | cons fd fds ih =>
    refine Calm.bind (calm_get fun k => ?_) fun _ => ih
    cases k.filedesc parent fd with
    | none => exact calm_pure ()
    | some a =>
      refine (calm_setFd child fd (some a)).bind fun _ => (calm_getHandle a).bind fun fh => ?_
      exact calm_setHandle a _

/-! ### Reading user memory -/

theorem calm_readUser (p a : ℕ) : Calm (readUser p a) := (calm_touch [a]).bind fun _ => calm_loadMapped p a

theorem calm_readUserBytes (p a n i : ℕ) : Calm (readUserBytes p a n i) := by
  induction n generalizing i with
  | zero => exact calm_pure []
  | succ n ih =>
    exact (calm_readUser p _).bind fun b => (ih (i + 1)).bind fun bs => calm_pure (b :: bs)

theorem calm_readUserWord (p a : ℕ) : Calm (readUserWord p a) :=
  (calm_readUserBytes p a 4 0).bind fun bs => calm_pure (wordOf bs)

theorem calm_validString (p str : ℕ) : Calm (validString p str) := by
  unfold validString
  generalize wordSize = fuel
  suffices h : ∀ len, Calm (validStringLoop p str fuel len) from h 0
  induction fuel with
  | zero => exact fun _ => calm_throw _
  | succ fuel ih =>
    intro len
    refine calm_get fun k => Calm.ite ?_ (calm_pure false)
    exact (calm_readUser p _).bind fun c => Calm.ite (calm_pure true) (ih (len + 1))

theorem calm_userString (p str : ℕ) : Calm (userString p str) := by
  unfold userString
  generalize wordSize = fuel
  suffices h : ∀ len, Calm (userStringLoop p str fuel len) from h 0
  induction fuel with
  | zero => exact fun _ => calm_throw _
  | succ fuel ih =>
    intro len
    refine (calm_readUser p _).bind fun c => Calm.ite (calm_pure []) ?_
    exact (ih (len + 1)).bind fun rest => calm_pure (c :: rest)

theorem calm_checkArgv (p argv fuel argno : ℕ) : Calm (checkArgv p argv fuel argno) := by
  induction fuel generalizing argno with
  | zero => exact calm_throw _
  | succ fuel ih =>
    refine calm_get fun k => Calm.ite ?_ (calm_pure false)
    refine (calm_readUserWord p _).bind fun s => Calm.ite (calm_pure true) ?_
    exact (calm_validString p s).bind fun valid => Calm.ite (ih (argno + 1)) (calm_pure false)

theorem calm_readArgv (p argv fuel argno : ℕ) : Calm (readArgv p argv fuel argno) := by
  induction fuel generalizing argno with
  | zero => exact calm_throw _
  | succ fuel ih =>
    refine (calm_readUserWord p _).bind fun s => Calm.ite (calm_pure []) ?_
    refine (calm_userString p s).bind fun arg => ?_
    exact (ih (argno + 1)).bind fun rest => calm_pure (arg :: rest)

theorem calm_validArgv (p argv : ℕ) : Calm (validArgv p argv) :=
  Calm.ite (calm_pure true) (calm_checkArgv p argv wordSize 0)

theorem calm_argStrings (p argv : ℕ) : Calm (argStrings p argv) :=
  Calm.ite (calm_pure []) (calm_readArgv p argv wordSize 0)

theorem calm_packArgs (argdata size : ℕ) (args : List (List UInt8)) (argno pos : ℕ) :
    Calm (packArgs argdata size args argno pos) := by
  induction args generalizing argno pos with
  | nil => exact calm_pure ()
  | cons arg args ih =>
    exact (calm_storeBlock _ _ _ _).bind fun _ => (calm_storeBlock _ _ _ _).bind fun _ => ih _ _

theorem calm_buildArgs (args : List (List UInt8)) : Calm (buildArgs args) := by
  unfold buildArgs
  refine (calm_kmalloc _).bind fun argdata => (calm_packArgs _ _ args _ _).bind fun _ => ?_
  exact (calm_storeBlock _ _ _ _).bind fun _ => (calm_storeBlock _ _ _ _).bind fun _ =>
    calm_pure argdata

end AdelaideOS.Kernel
