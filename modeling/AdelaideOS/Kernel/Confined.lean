import AdelaideOS.Kernel.UserMemory

/-!
# Handlers whose pointers are checked

`Confined s x`: if all addresses in the log lie in the ranges `s` before the computation `x`, so they do after
it, and also where it stops.  Most of the kernel leaves the log alone (`confined_silent`); what remains are the
parts of the handlers that copy from and to a region that was checked.
-/

namespace AdelaideOS.Kernel

open AdelaideOS.Lib.Bytes AdelaideOS.Lib.Triple AdelaideOS.Page AdelaideOS.Process

/-- All addresses in the log lie in the ranges. -/
def LogIn (s : Space) (k : State) : Prop := ∀ a ∈ k.log, s.InRange a

def Confined {α : Type} (s : Space) (x : K α) : Prop := Sat (LogIn s) x (fun _ => LogIn s) (LogIn s)

variable {α β : Type} {s : Space} {k k' : State} {p a n : ℕ}

theorem Logged.logIn (h : Logged s k k') (hk : LogIn s k) : LogIn s k' := by
  obtain ⟨L, hL, rfl⟩ := h
  intro a ha
  rcases List.mem_append.mp ha with ha | ha
  · exact hL a ha
  · exact hk a ha

/-! ### Rules -/

theorem confined_pure (v : α) : Confined s (pure v : K α) := Sat.pure fun _ h => h

theorem Confined.bind {x : K β} {f : β → K α} (hx : Confined s x) (hf : ∀ b, Confined s (f b)) :
    Confined s (x >>= f) :=
  Sat.bind hx hf

theorem confined_get {f : State → K α} (hf : ∀ k, Confined s (f k)) : Confined s (get >>= f) :=
  Sat.get fun k _ => hf k

theorem Confined.ite {c : Prop} [Decidable c] {x y : K α} (hx : Confined s x) (hy : Confined s y) :
    Confined s (if c then x else y) :=
  Sat.ite (fun _ => hx) fun _ => hy

theorem Confined.keep {x : K ℤ} (r : Regs) (hx : Confined s x) : Confined s (keep r x) :=
  hx.bind fun res => confined_pure (res, r)

/-- A computation that leaves the log alone. -/
theorem confined_silent {x : K α}
    (h : ∀ k, Ends (fun _ k' => k'.log = k.log) (fun k' => k'.log = k.log) (x k)) : Confined s x := by
  constructor
  intro k hk
  have hlog := h k
  cases hr : x k with
  | ok v k' =>
    rw [hr] at hlog
    show LogIn s k'
    unfold LogIn
    rw [show k'.log = k.log from hlog]
    exact hk
  | error e k' =>
    rw [hr] at hlog
    show LogIn s k'
    unfold LogIn
    rw [show k'.log = k.log from hlog]
    exact hk

theorem confined_modify {f : State → State} (h : ∀ k, (f k).log = k.log) :
    Confined s (modify f : K Unit) :=
  confined_silent h

/-! ### Components -/

theorem confined_throw (e : Fault) : Confined s (throw e : K α) := confined_silent fun _ => rfl

theorem confined_lift (x : Except Fault α) : Confined s (lift x) := by
  apply confined_silent
  intro k
  cases x with
  | ok v => rfl
  | error e => rfl

theorem confined_schedDo (f : Sched → Except Fault Sched) : Confined s (schedDo f) := by
  apply confined_silent
  intro k
  unfold schedDo
  cases f k.sched with
  | ok S => rfl
  | error e => rfl

theorem confined_onPages (f : Pages → Except Fault (α × Pages)) : Confined s (onPages f) := by
  apply confined_silent
  intro k
  unfold onPages
  cases f k.pages with
  | ok r => rfl
  | error e => rfl

theorem confined_onHeap (f : Buddy.Heap → Except Fault (α × Buddy.Heap)) : Confined s (onHeap f) := by
  apply confined_silent
  intro k
  unfold onHeap
  cases f k.heap with
  | ok r => rfl
  | error e => rfl

theorem confined_kmalloc (n : ℕ) : Confined s (kmalloc n) := confined_onHeap _

theorem confined_kfree (ptr : ℕ) : Confined s (kfree ptr) := confined_onHeap _

theorem confined_storeBlock (block size off : ℕ) (bs : List UInt8) :
    Confined s (storeBlock block size off bs) := by
  apply confined_silent
  intro k
  unfold storeBlock
  split
  · rfl
  · rfl

theorem confined_loadMapped (p a : ℕ) : Confined s (loadMapped p a) := by
  apply confined_silent
  intro k
  unfold loadMapped
  cases physical k p a with
  | ok x => rfl
  | error e => rfl

theorem confined_storeMapped (p a : ℕ) (b : UInt8) : Confined s (storeMapped p a b) := by
  apply confined_silent
  intro k
  unfold storeMapped
  cases physical k p a with
  | ok x => rfl
  | error e => rfl

theorem confined_check (site : Site) (c : Prop) [Decidable c] : Confined s (check site c) :=
  confined_lift _

theorem confined_getHandle (a : ℕ) : Confined s (getHandle a) := by
  apply confined_silent
  intro k
  unfold getHandle
  cases k.handles a with
  | some fh => rfl
  | none => rfl

theorem confined_setHandle (a : ℕ) (fh : Option Filehandle) : Confined s (setHandle a fh) :=
  confined_modify fun _ => rfl

theorem confined_getPipe (a : ℕ) : Confined s (getPipe a) := by
  apply confined_silent
  intro k
  unfold getPipe
  cases k.pipes a with
  | some b => rfl
  | none => rfl

theorem confined_setPipe (a : ℕ) (b : Option PipeBuffer) : Confined s (setPipe a b) :=
  confined_modify fun _ => rfl

theorem confined_setFd (p fd : ℕ) (fh : Option ℕ) : Confined s (setFd p fd fh) :=
  confined_modify fun _ => rfl

theorem confined_setSpace (p : ℕ) (sp : Space) : Confined s (setSpace p sp) := confined_modify fun _ => rfl

theorem confined_setCwd (p : ℕ) (path : List UInt8) : Confined s (setCwd p path) :=
  confined_modify fun _ => rfl

theorem confined_clearFds (p : ℕ) : Confined s (clearFds p) := confined_modify fun _ => rfl

theorem confined_writeToScreen (bs : List UInt8) : Confined s (writeToScreen bs) :=
  confined_modify fun _ => rfl

/-! ### Regions -/

/-- An address of the ranges is touched. -/
theorem confined_touch (ha : s.InRange a) : Confined s (touch [a]) := by
  constructor
  intro k hk b hb
  rcases List.mem_cons.mp hb with rfl | hb
  · exact ha
  · exact hk b hb

theorem confined_readUserBytes (hr : s.Region a n) : Confined s (readUserBytes p a n 0) := by
  suffices h : ∀ j, (∀ i < n, s.InRange (offset a (j + i))) → Confined s (readUserBytes p a n j) by
    apply h 0
    intro i hi
    rw [Nat.zero_add]
    exact hr i hi
  clear hr
  induction n with
  | zero => exact fun _ _ => confined_pure []
  | succ n ih =>
    intro j hr
    refine Confined.bind ((confined_touch (hr 0 (by omega))).bind fun _ => confined_loadMapped _ _) fun b => ?_
    refine (ih (j + 1) fun i hi => ?_).bind fun bs => confined_pure (b :: bs)
    rw [Nat.add_right_comm, Nat.add_assoc]
    exact hr (i + 1) (by omega)

theorem confined_writeUserBytes {bs : List UInt8} (hr : s.Region a bs.length) :
    Confined s (writeUserBytes p a bs 0) := by
  suffices h : ∀ j, (∀ i < bs.length, s.InRange (offset a (j + i))) →
      Confined s (writeUserBytes p a bs j) by
    apply h 0
    intro i hi
    rw [Nat.zero_add]
    exact hr i hi
  clear hr
  induction bs with
  | nil => exact fun _ _ => confined_pure ()
  | cons b bs ih =>
    intro j hr
    rw [List.length_cons] at hr
    refine Confined.bind
      ((confined_touch (hr 0 (by omega))).bind fun _ => confined_storeMapped _ _ _) fun _ => ?_
    refine ih (j + 1) fun i hi => ?_
    rw [Nat.add_right_comm, Nat.add_assoc]
    exact hr (i + 1) (by omega)

theorem confined_printUser (hr : s.Region a n) (text : List UInt8) :
    Confined s (printUser p a n text) := by
  unfold printUser
  have hlen : (text.take (n - 1)).length ≤ n := by
    rw [List.length_take]
    omega
  refine (confined_writeUserBytes (hr.mono hlen)).bind fun _ => ?_
  by_cases hn : 0 < n
  · rw [if_pos hn]
    refine (confined_touch (hr _ ?_)).bind fun _ => confined_storeMapped _ _ _
    omega
  · rw [if_neg hn]
    exact confined_pure ()

theorem confined_storeMappedBytes (p a : ℕ) (bs : List UInt8) (i : ℕ) :
    Confined s (storeMappedBytes p a bs i) := by
  induction bs generalizing i with
  | nil => exact confined_pure ()
  | cons b bs ih => exact (confined_storeMapped p _ b).bind fun _ => ih (i + 1)

/-! ### Pipes and descriptors -/

theorem confined_newPipe : Confined s newPipe :=
  (confined_kmalloc 24).bind fun b => (confined_kmalloc BUFSIZE).bind fun _ =>
    (confined_setPipe b _).bind fun _ => confined_pure b

theorem confined_newHandle (type : FhType) (p entry : ℕ) : Confined s (newHandle type p entry) :=
  (confined_kmalloc 36).bind fun fh => (confined_setHandle fh _).bind fun _ => confined_pure fh

theorem confined_wakeUpReader (b : ℕ) : Confined s (wakeUpReader b) := by
  refine (confined_getPipe b).bind fun pb => ?_
  cases pb.readpid with
  | none => exact confined_pure ()
  | some q => exact (confined_schedDo _).bind fun _ => confined_setPipe b _

theorem confined_growPipe (b count : ℕ) : Confined s (growPipe b count) := by
  refine (confined_getPipe b).bind fun pb => Confined.ite ?_ (confined_pure pb)
  refine (confined_lift _).bind fun alloc => (confined_kmalloc alloc).bind fun newdata => ?_
  refine confined_get fun k => (confined_storeBlock _ _ _ _).bind fun _ => ?_
  exact (confined_kfree _).bind fun _ => (confined_setPipe b _).bind fun _ => confined_pure _

theorem confined_writeToPipe (b count : ℕ) {source : K (List UInt8)} (h : Confined s source) :
    Confined s (writeToPipe b count source) := by
  refine (confined_growPipe b count).bind fun pb => h.bind fun bs => ?_
  exact (confined_storeBlock _ _ _ _).bind fun _ => (confined_setPipe b _).bind fun _ =>
    confined_wakeUpReader b

theorem confined_checkBufferFree (b : ℕ) : Confined s (checkBufferFree b) := by
  refine (confined_getPipe b).bind fun pb => Confined.ite ?_ (confined_pure ())
  exact (confined_check _ _).bind fun _ => (confined_kfree _).bind fun _ => (confined_kfree b).bind fun _ =>
    confined_setPipe b none

theorem confined_plainDestroy (a : ℕ) : Confined s (plainDestroy a) :=
  (confined_kfree a).bind fun _ => confined_setHandle a none

theorem confined_destroy (a : ℕ) (fh : Filehandle) : Confined s (destroy a fh) := by
  have hclose : ∀ b, Confined s (do checkBufferFree b; plainDestroy a) :=
    fun b => (confined_checkBufferFree b).bind fun _ => confined_plainDestroy a
  unfold destroy
  cases fh.type with
  | pipeWriter =>
    refine (confined_getPipe fh.p).bind fun pb => (confined_check _ _).bind fun _ => ?_
    exact (confined_setPipe fh.p _).bind fun _ => (confined_wakeUpReader fh.p).bind fun _ => hclose fh.p
  | pipeReader =>
    refine (confined_getPipe fh.p).bind fun pb => (confined_check _ _).bind fun _ => ?_
    exact (confined_setPipe fh.p _).bind fun _ => hclose fh.p
  | screen => exact confined_plainDestroy a
  | file => exact confined_plainDestroy a
  | dir => exact confined_plainDestroy a

theorem confined_closeFilehandle (a : ℕ) : Confined s (closeFilehandle a) := by
  refine (confined_getHandle a).bind fun fh => (confined_check _ _).bind fun _ => ?_
  exact (confined_setHandle a _).bind fun _ => Confined.ite (confined_destroy a _) (confined_pure ())

theorem confined_closeIfOpen (o : Option ℕ) : Confined s (closeIfOpen o) := by
  cases o with
  | none => exact confined_pure ()
  | some a => exact confined_closeFilehandle a

theorem confined_addReference (a : ℕ) : Confined s (addReference a) :=
  (confined_getHandle a).bind fun _ => confined_setHandle a _

theorem confined_closeFds (p : ℕ) (fds : List ℕ) : Confined s (closeFds p fds) := by
  induction fds with
  | nil => exact confined_pure ()
  | cons fd fds ih => exact confined_get fun _ => (confined_closeIfOpen _).bind fun _ => ih

theorem confined_shareFds (parent child : ℕ) (fds : List ℕ) : Confined s (shareFds parent child fds) := by
  induction fds with
  | nil => exact confined_pure ()
  | cons fd fds ih =>
    refine Confined.bind (confined_get fun k => ?_) fun _ => ih
    cases k.filedesc parent fd with
    | none => exact confined_pure ()
    | some a => exact (confined_setFd child fd _).bind fun _ => confined_addReference a

/-! ### Handlers without pointers -/

theorem confined_syscallClose (p : ℕ) (fd : ℤ) : Confined s (syscallClose p fd) := by
  refine confined_get fun k => ?_
  cases lookupFd k p fd with
  | none => exact confined_pure _
  | some a =>
    exact (confined_closeFilehandle a).bind fun _ => (confined_setFd _ _ _).bind fun _ => confined_pure 0

theorem confined_syscallDup2 (p : ℕ) (oldfd newfd : ℤ) : Confined s (syscallDup2 p oldfd newfd) := by
  refine confined_get fun k => Confined.ite (confined_pure _) ?_
  cases lookupFd k p oldfd with
  | none => exact confined_pure _
  | some a =>
    refine Confined.ite (confined_pure _) (confined_get fun k => ?_)
    exact (confined_closeIfOpen _).bind fun _ => (confined_setFd _ _ _).bind fun _ =>
      (confined_addReference a).bind fun _ => confined_pure _

theorem confined_syscallFork (p : ℕ) (r : Regs) : Confined s (syscallFork p r) := by
  refine confined_get fun k => ?_
  cases getFreePid k.sched with
  | none => exact confined_pure _
  | some child =>
    refine Confined.bind (confined_get fun k => ?_) fun _ => confined_pure _
    refine (confined_onPages _).bind fun pdir => (confined_setSpace child _).bind fun _ => ?_
    refine (confined_clearFds child).bind fun _ => (confined_shareFds _ _ _).bind fun _ => ?_
    exact (confined_setCwd child _).bind fun _ => confined_schedDo _

theorem confined_killProcess (q : ℕ) : Confined s (killProcess q) := by
  refine (confined_schedDo _).bind fun _ => (confined_closeFds q _).bind fun _ => ?_
  refine confined_get fun k => (confined_onPages _).bind fun _ => Confined.bind ?_ fun _ => confined_schedDo _
  cases (k.sched.procs q).mailbox with
  | none => exact confined_pure ()
  | some box => exact confined_kfree box

theorem confined_syscallExit (p : ℕ) (status : ℤ) : Confined s (syscallExit p status) :=
  (confined_schedDo _).bind fun _ => (confined_killProcess p).bind fun _ => confined_pure _

theorem confined_syscallKill (p : ℕ) (pid : ℤ) : Confined s (syscallKill p pid) :=
  confined_get fun _ => Confined.ite (confined_pure _)
    ((confined_killProcess _).bind fun _ => confined_pure _)

theorem confined_syscallBrk (p a : ℕ) : Confined s (syscallBrk p a) := by
  refine confined_get fun k => Confined.ite (confined_pure 0) ?_
  exact (confined_onPages _).bind fun _ => (confined_setSpace p _).bind fun _ => confined_pure 0

theorem confined_unimplemented (no : ℕ) : Confined s (unimplemented no) :=
  (confined_writeToScreen _).bind fun _ => confined_pure _

/-! ### Handlers behind their checks -/

theorem confined_writeHandle (fh : Filehandle) (hr : s.Region a n) : Confined s (writeHandle p fh a n) := by
  unfold writeHandle
  cases fh.type with
  | screen =>
    refine (confined_readUserBytes hr).bind fun bs => ?_
    exact (confined_writeToScreen bs).bind fun _ => confined_pure _
  | pipeWriter =>
    exact (confined_writeToPipe fh.p n (confined_readUserBytes hr)).bind fun _ => confined_pure _
  | pipeReader => exact confined_pure _
  | file => exact confined_pure _
  | dir => exact confined_pure _

theorem readable_le {size pos count : ℕ} (h : pos < size) : readable size pos count ≤ count := by
  unfold readable
  split
  · rename_i hlt
    have := Nat.mod_le (pos + count) wordSize
    omega
  · exact Nat.le_refl _

theorem confined_readHandle (fs : Memory) (h : ℕ) (fh : Filehandle) (hr : s.Region a n) :
    Confined s (readHandle fs p h fh a n) := by
  unfold readHandle
  cases fh.type with
  | screen => exact confined_pure _
  | pipeWriter => exact confined_pure _
  | pipeReader =>
    refine (confined_getPipe fh.p).bind fun pb => Confined.ite (confined_pure _) (Confined.ite ?_ ?_)
    · refine confined_get fun k => Confined.bind (confined_writeUserBytes ?_) fun _ => ?_
      · rw [loadBytes_length]
        apply hr.mono
        split <;> omega
      · exact confined_get fun k => (confined_storeBlock _ _ _ _).bind fun _ =>
          (confined_setPipe _ _).bind fun _ => confined_pure _
    · refine Confined.ite (confined_pure _) (confined_get fun k => ?_)
      exact (confined_setPipe _ _).bind fun _ => (confined_schedDo _).bind fun _ => confined_pure _
  | file =>
    show Confined s (fileRead fs p h fh a n)
    unfold fileRead
    by_cases hsize : entrySize fs fh.entry ≤ fh.pos
    · rw [if_pos hsize]
      exact confined_pure _
    · rw [if_neg hsize]
      refine Confined.bind (confined_writeUserBytes ?_) fun _ =>
        (confined_setHandle h _).bind fun _ => confined_pure _
      rw [loadBytes_length]
      exact hr.mono (readable_le (by omega))
  | dir => exact confined_pure _

theorem confined_openPipe (readfd writefd : ℕ) (hr : s.Region a 8) :
    Confined s (openPipe p a readfd writefd) := by
  refine confined_newPipe.bind fun b => (confined_newHandle .pipeReader b 0).bind fun reader => ?_
  refine (confined_setFd _ _ _).bind fun _ => (confined_newHandle .pipeWriter b 0).bind fun writer => ?_
  refine (confined_setFd _ _ _).bind fun _ => ?_
  have htake : s.Region a (wordBytes readfd).length := hr.mono (show 4 ≤ 8 by decide)
  refine (confined_writeUserBytes htake).bind fun _ => ?_
  have hdrop : s.Region (offset a 4) 4 := Space.Region.drop (j := 4) (n := 4) hr
  exact (confined_writeUserBytes hdrop).bind fun _ => confined_pure 0

theorem confined_nextEntry (fs : Memory) (h : ℕ) (fh : Filehandle) (hr : s.Region a DIRENT_SIZE) :
    Confined s (nextEntry fs p h fh a) := by
  refine Confined.ite (confined_pure 0) ?_
  have htake : s.Region a (wordBytes 0).length := hr.mono (by decide)
  refine (confined_writeUserBytes htake).bind fun _ => ?_
  have hdrop : s.Region (offset a 4) (NAME_MAX + 1) := by
    apply Space.Region.drop (j := 4)
    exact hr.mono (by decide)
  refine (confined_lift _).bind fun text => (confined_printUser hdrop text).bind fun _ => ?_
  exact (confined_setHandle h _).bind fun _ => confined_pure 1

theorem confined_deliver (d tag : ℕ) (hr : s.Region a n) : Confined s (deliver p d tag a n) := by
  have hbox : Confined s (mailboxOf d) := by
    refine confined_get fun k => ?_
    cases (k.sched.procs d).mailbox with
    | some box => exact confined_pure box
    | none => exact confined_kmalloc _
  refine hbox.bind fun box => (confined_schedDo _).bind fun _ => confined_get fun k => ?_
  refine (confined_storeBlock _ _ _ _).bind fun _ => (confined_readUserBytes hr).bind fun bytes => ?_
  refine (confined_storeBlock _ _ _ _).bind fun _ => Confined.ite ?_ (confined_pure 0)
  exact (confined_schedDo _).bind fun _ => (confined_schedDo _).bind fun _ => confined_pure 0

theorem confined_takeMessage (box size : ℕ) (hr : s.Region a MESSAGE_SIZE) :
    Confined s (takeMessage p box size a) := by
  refine confined_get fun k => Confined.bind (confined_writeUserBytes ?_) fun _ => ?_
  · rw [loadBytes_length]
    exact hr
  · exact confined_get fun k => (confined_storeBlock _ _ _ _).bind fun _ =>
      (confined_schedDo _).bind fun _ => confined_pure 0

theorem confined_syscallWaitpid (pid : ℤ) (hr : a = 0 ∨ s.Region a 4) :
    Confined s (syscallWaitpid p pid a) := by
  refine confined_get fun k => (confined_lift _).bind fun x => ?_
  obtain ⟨res, value, S⟩ := x
  refine Confined.bind ?_ fun _ => Confined.bind (confined_modify fun _ => rfl) fun _ => confined_pure res
  cases value with
  | none => exact confined_pure ()
  | some v =>
    show Confined s (if a = 0 then pure () else writeUserBytes p a (wordBytes (ofInt v)) 0)
    by_cases hz : a = 0
    · rw [if_pos hz]
      exact confined_pure ()
    · rw [if_neg hz]
      exact confined_writeUserBytes (hr.resolve_left hz)

theorem confined_packArgs (argdata size : ℕ) (args : List (List UInt8)) (argno pos : ℕ) :
    Confined s (packArgs argdata size args argno pos) := by
  induction args generalizing argno pos with
  | nil => exact confined_pure ()
  | cons arg args ih =>
    exact (confined_storeBlock _ _ _ _).bind fun _ => (confined_storeBlock _ _ _ _).bind fun _ => ih _ _

theorem confined_execProgram (fs : Memory) (entry : ℕ) (args : List (List UInt8)) :
    Confined s (execProgram fs p entry args) := by
  have hbuild : Confined s (buildArgs args) := by
    refine (confined_kmalloc _).bind fun argdata => (confined_packArgs _ _ args _ _).bind fun _ => ?_
    exact (confined_storeBlock _ _ _ _).bind fun _ => (confined_storeBlock _ _ _ _).bind fun _ =>
      confined_pure argdata
  refine hbuild.bind fun argdata => confined_get fun k => (confined_onPages _).bind fun _ => ?_
  refine (confined_setSpace p _).bind fun _ => confined_get fun k => ?_
  exact (confined_storeMappedBytes _ _ _ _).bind fun _ => (confined_kfree argdata).bind fun _ =>
    confined_pure _

end AdelaideOS.Kernel
