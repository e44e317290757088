import AdelaideOS.Constants
import AdelaideOS.Fault
import AdelaideOS.Lib.Dlist

/-!
# The process table and the scheduler: `process.c`, `unixproc.c`, `syscall.c`

`Sched` is the part of the kernel's state that decides which process runs: the process table, the ready and
suspended lists, and the current process.  A process is named by its index in the table.  The `prev` and
`next` fields of the table entries are kept as one `Links` value, everything else of an entry that is
scalar in a `Proc`.  The value `-1` of `parent_pid` and `waiting_on` is `none`.

What a system call does besides (page tables, descriptors, memory) is modelled elsewhere; a handler here
takes what it needs to know of that part as an argument.
-/

namespace AdelaideOS.Process

open AdelaideOS.Lib.Dlist

/-! ### Registers -/

structure Regs where
  fstate : List ℕ
  gs : ℕ
  fs : ℕ
  es : ℕ
  ds : ℕ
  edi : ℕ
  esi : ℕ
  ebp : ℕ
  esp : ℕ
  ebx : ℕ
  edx : ℕ
  ecx : ℕ
  eax : ℕ
  intNo : ℕ
  errCode : ℕ
  eip : ℕ
  cs : ℕ
  eflags : ℕ
  useresp : ℕ
  ss : ℕ
  deriving DecidableEq, Repr

/-- All registers zero. -/
def Regs.zero : Regs :=
  ⟨List.replicate 27 0, 0, 0, 0, 0, 0, 0, 0, 0, 0, 0, 0, 0, 0, 0, 0, 0, 0, 0, 0⟩

def initRegs (stackMax startAddr : ℕ) : Regs :=
  { Regs.zero with
    gs := USER_DATA_SEGMENT ||| RING_3
    fs := USER_DATA_SEGMENT ||| RING_3
    es := USER_DATA_SEGMENT ||| RING_3
    ds := USER_DATA_SEGMENT ||| RING_3
    ss := USER_DATA_SEGMENT ||| RING_3
    cs := USER_CODE_SEGMENT ||| RING_3
    eflags := 0x202
    eip := startAddr
    useresp := stackMax }

/-! ### The table -/

structure Proc where
  pid : ℕ
  exists_ : Bool
  savedRegs : Regs
  ready : Bool
  inSyscall : ℕ
  lastErrno : ℤ
  parentPid : Option ℕ
  exitStatus : ℤ
  exited : Bool
  waitingOn : Option ℕ
  mailbox : Option ℕ
  mailboxSize : ℕ
  mailboxAlloc : ℕ
  receiveBlocked : Bool

/-- A table entry after `memset(proc,0,sizeof(process))`. -/
def Proc.zero : Proc where
  pid := 0
  exists_ := false
  savedRegs := Regs.zero
  ready := false
  inSyscall := 0
  lastErrno := 0
  parentPid := some 0
  exitStatus := 0
  exited := false
  waitingOn := some 0
  mailbox := none
  mailboxSize := 0
  mailboxAlloc := 0
  receiveBlocked := false

structure Sched where
  procs : ℕ → Proc
  links : Links ℕ
  ready : Ends ℕ
  suspended : Ends ℕ
  current : Option ℕ

/-- The table and the lists at boot. -/
def Sched.boot : Sched where
  procs := fun _ => Proc.zero
  links := ⟨fun _ => none, fun _ => none⟩
  ready := ⟨none, none⟩
  suspended := ⟨none, none⟩
  current := none

/-- Assign one table entry. -/
def Sched.set (S : Sched) (p : ℕ) (v : Proc) : Sched :=
  { S with procs := Function.update S.procs p v }

/-- A process that exists and has not exited. -/
def Sched.Live (S : Sched) (p : ℕ) : Prop :=
  (S.procs p).exists_ = true ∧ (S.procs p).exited = false

instance (S : Sched) (p : ℕ) : Decidable (S.Live p) := inferInstanceAs (Decidable (_ ∧ _))

/-! ### List macros of `kernel.h` -/

def listAdd (L : Links ℕ) (ll : Ends ℕ) (obj : ℕ) : Links ℕ × Ends ℕ :=
  match ll.first with
  | some first =>
    ({ next := Function.update L.next obj (some first)
       prev := Function.update L.prev first (some obj) },
      { ll with first := some obj })
  | none => (L, ⟨some obj, some obj⟩)

/-- The head after the first two tests of `list_remove`. -/
def removeEnds (L : Links ℕ) (ll : Ends ℕ) (obj : ℕ) : Ends ℕ where
  first := if ll.first = some obj then L.next obj else ll.first
  last := if ll.last = some obj then L.prev obj else ll.last

/-- The neighbours of `obj` are joined. -/
def joinNeighbours (L : Links ℕ) (obj : ℕ) : Links ℕ :=
  let L := match L.next obj with
    | some n => { L with prev := Function.update L.prev n (L.prev obj) }
    | none => L
  match L.prev obj with
  | some p => { L with next := Function.update L.next p (L.next obj) }
  | none => L

def listRemove (L : Links ℕ) (ll : Ends ℕ) (obj : ℕ) : Links ℕ × Ends ℕ :=
  let ll := removeEnds L ll obj
  let L := joinNeighbours L obj
  ({ next := Function.update L.next obj none, prev := Function.update L.prev obj none }, ll)

/-- `list_add(&ready,proc)`. -/
def Sched.addReady (S : Sched) (p : ℕ) : Sched :=
  let (L, e) := listAdd S.links S.ready p
  { S with links := L, ready := e }

/-- `list_add(&suspended,proc)`. -/
def Sched.addSuspended (S : Sched) (p : ℕ) : Sched :=
  let (L, e) := listAdd S.links S.suspended p
  { S with links := L, suspended := e }

/-- `list_remove(&ready,proc)`. -/
def Sched.removeReady (S : Sched) (p : ℕ) : Sched :=
  let (L, e) := listRemove S.links S.ready p
  { S with links := L, ready := e }

/-- `list_remove(&suspended,proc)`. -/
def Sched.removeSuspended (S : Sched) (p : ℕ) : Sched :=
  let (L, e) := listRemove S.links S.suspended p
  { S with links := L, suspended := e }

/-! ### Creating processes -/

/-- The lowest unused index above 0; `none` for `-1`. -/
def getFreePid (S : Sched) : Option ℕ :=
  (List.range' 1 (MAX_PROCESSES - 1)).find? fun pid => !(S.procs pid).exists_

/-- A zeroed table entry, marked as used. -/
def newProc (pid : ℕ) : Proc := { Proc.zero with pid := pid, exists_ := true }

/-- `memset` also clears the pointers of the entry. -/
def clearLinks (S : Sched) (p : ℕ) : Sched :=
  { S with
    links := { next := Function.update S.links.next p none
               prev := Function.update S.links.prev p none } }

/-- The entry is filled in, marked ready and put on the ready list. -/
def install (S : Sched) (p : ℕ) (v : Proc) : Sched :=
  ((clearLinks S p).set p { v with ready := true }).addReady p

/-- The entry that `start_process` fills in. -/
def startedProc (pid startAddress : ℕ) : Proc :=
  { newProc pid with
    parentPid := none
    waitingOn := none
    exitStatus := 255
    savedRegs := initRegs PROCESS_STACK_BASE startAddress }

def startProcess (S : Sched) (startAddress : ℕ) : Option (ℕ × Sched) :=
  match getFreePid S with
  | none => none
  | some pid => some (pid, install S pid (startedProc pid startAddress))

/-! ### Suspending, resuming, killing -/

def suspendProcess (S : Sched) (p : ℕ) : Except Fault Sched := do
  assert .suspendProcess ((S.procs p).exists_ = true)
  assert .suspendProcess ((S.procs p).ready = true)
  return ((S.set p { S.procs p with ready := false }).removeReady p).addSuspended p

def resumeProcess (S : Sched) (p : ℕ) : Except Fault Sched := do
  assert .resumeProcess ((S.procs p).exists_ = true)
  assert .resumeProcess ((S.procs p).ready = false)
  return ((S.set p { S.procs p with ready := true }).removeSuspended p).addReady p

/-- The beginning of `kill_process`: the process leaves the processor and its list. -/
def detach (S : Sched) (p : ℕ) : Sched :=
  let S := if S.current = some p then { S with current := none } else S
  if (S.procs p).ready then S.removeReady p else S.removeSuspended p

/-- The children of the process `pid` lose their parent. -/
def orphan (S : Sched) (pid : ℕ) : Sched :=
  { S with
    procs := fun c =>
      if c < MAX_PROCESSES ∧ (S.procs c).parentPid = some pid
      then { S.procs c with parentPid := none } else S.procs c }

/-- A parent that waits for the dying process `p` is woken up. -/
def wakeParent (S : Sched) (p parent : ℕ) : Except Fault Sched :=
  if (S.procs parent).inSyscall = SYSCALL_WAITPID ∧
      (S.procs parent).waitingOn = some (S.procs p).pid then
    resumeProcess (S.set parent { S.procs parent with waitingOn := none }) parent
  else .ok S

/-- The entry is released if there is no parent, else kept for the parent. -/
def release (S : Sched) (p : ℕ) : Except Fault Sched :=
  match (S.procs p).parentPid with
  | none => .ok (S.set p { S.procs p with exists_ := false })
  | some parent => wakeParent S p parent

/-- The end of `kill_process`. -/
def bury (S : Sched) (p : ℕ) : Except Fault Sched := do
  let S ← release (orphan S (S.procs p).pid) p
  return S.set p { S.procs p with exited := true }

/-- `kill_process`, its effects on descriptors, memory and mailbox left aside. -/
def killProcess (S : Sched) (p : ℕ) : Except Fault Sched := bury (detach S p) p

/-! ### System calls

A handler returns the value of its C function and the new state. -/

/-- The entry that `fork` fills in. -/
def forkedProc (S : Sched) (parent child : ℕ) (r : Regs) : Proc :=
  { newProc child with
    parentPid := some (S.procs parent).pid
    savedRegs := { r with eax := 0 } }

def syscallFork (S : Sched) (parent : ℕ) (r : Regs) : Except Fault (ℤ × Sched) :=
  match getFreePid S with
  | none => .ok (-EAGAIN, S)
  | some child => .ok (child, install S child (forkedProc S parent child r))

def syscallExit (S : Sched) (p : ℕ) (status : ℤ) : Except Fault (ℤ × Sched) := do
  let S ← killProcess (S.set p { S.procs p with exitStatus := status }) p
  return (-ESUSPEND, S)

def syscallKill (S : Sched) (p : ℕ) (pid : ℤ) : Except Fault (ℤ × Sched) := do
  if 0 > pid ∨ (MAX_PROCESSES : ℤ) ≤ pid ∨ (S.procs pid.toNat).exists_ = false then
    return (-ESRCH, S)
  let r := if pid = (S.procs p).pid then -ESUSPEND else 0
  let S ← killProcess S pid.toNat
  return (r, S)

/-- `current_process->waiting_on = w`. -/
def waitFor (S : Sched) (p : ℕ) (w : Option ℕ) : Sched := S.set p { S.procs p with waitingOn := w }

/-- The slot of an exited process is released. -/
def reap (S : Sched) (c : ℕ) : Sched := S.set c { S.procs c with exists_ := false }

/-- `syscall_waitpid`; the second component is the exit status that is passed back. -/
def syscallWaitpid (S : Sched) (p : ℕ) (pid : ℤ) : Except Fault (ℤ × Option ℤ × Sched) := do
  if 0 > pid ∨ (MAX_PROCESSES : ℤ) ≤ pid then return (-ECHILD, none, S)
  let S := waitFor S p none
  let c := pid.toNat
  if (S.procs c).exists_ = false ∨ (S.procs c).parentPid ≠ some (S.procs p).pid then
    return (-ECHILD, none, S)
  if (S.procs c).exited then
    return (pid, some (S.procs c).exitStatus, reap S c)
  else
    let S ← suspendProcess (waitFor S p (some c)) p
    return (-ESUSPEND, none, S)

/-- Room for one more message in the mailbox, which is created at `box` if there is none. -/
def accept (v : Proc) (box : ℕ) : Proc :=
  match v.mailbox with
  | none => { v with mailboxAlloc := 8, mailboxSize := 1, mailbox := some box }
  | some _ => { v with mailboxSize := v.mailboxSize + 1 }

/-- `syscall_send`, given whether the pointer is valid and what `kmalloc` returns for a new mailbox. -/
def syscallSend (S : Sched) (valid : Bool) (box : ℕ) (dest : ℤ) (size : ℕ) :
    Except Fault (ℤ × Sched) := do
  if valid = false then return (-EFAULT, S)
  if 0 > dest ∨ (MAX_PROCESSES : ℤ) ≤ dest ∨ (S.procs dest.toNat).exists_ = false then
    return (-ESRCH, S)
  if MAX_MESSAGE_SIZE < size then return (-EINVAL, S)
  let d := dest.toNat
  if (S.procs d).mailbox ≠ none ∧ (S.procs d).mailboxAlloc ≤ (S.procs d).mailboxSize then
    return (-ENOMEM, S)
  let S := S.set d (accept (S.procs d) box)
  if (S.procs d).receiveBlocked then
    let S ← resumeProcess S d
    return (0, S.set d { S.procs d with receiveBlocked := false })
  else return (0, S)

/-- `syscall_receive`, given whether the pointer is valid. -/
def syscallReceive (S : Sched) (p : ℕ) (valid block : Bool) : Except Fault (ℤ × Sched) := do
  if valid = false then return (-EFAULT, S)
  if 0 < (S.procs p).mailboxSize then
    return (0, S.set p { S.procs p with mailboxSize := (S.procs p).mailboxSize - 1 })
  else if block then
    let S ← suspendProcess (S.set p { S.procs p with receiveBlocked := true }) p
    return (-ESUSPEND, S)
  else return (-EAGAIN, S)

/-! ### Switching and dispatching -/

/-- `context_switch` up to the registers; `ready` is not read when there is no current process, since
the outcome is the same.  The registers are those of the idle loop when no process is ready. -/
def pickNext (S : Sched) : Option ℕ :=
  match S.current with
  | some p => if (S.procs p).ready then (S.links.next p).orElse fun _ => S.ready.first
              else S.ready.first
  | none => S.ready.first

def saveRegs (S : Sched) (r : Regs) : Sched :=
  match S.current with
  | some p => S.set p { S.procs p with savedRegs := r }
  | none => S

def contextSwitch (S : Sched) (r : Regs) : Sched :=
  let S := saveRegs S r
  { S with current := pickNext S }

/-- A system call that moves processes, with its arguments. -/
inductive Call where
  | fork
  | exit (status : ℤ)
  | kill (pid : ℤ)
  | waitpid (pid : ℤ)
  | send (valid : Bool) (box : ℕ) (dest : ℤ) (size : ℕ)
  | receive (valid block : Bool)

def Call.no : Call → ℕ
  | fork => SYSCALL_FORK
  | exit _ => SYSCALL_EXIT
  | kill _ => SYSCALL_KILL
  | waitpid _ => SYSCALL_WAITPID
  | send _ _ _ _ => SYSCALL_SEND
  | receive _ _ => SYSCALL_RECEIVE

/-- A handler that passes nothing back through its arguments. -/
def plain (x : Except Fault (ℤ × Sched)) : Except Fault (ℤ × Option ℤ × Sched) := do
  let (res, S) ← x
  return (res, none, S)

/-- The `switch` of `syscall`; the second component is the status that `waitpid` passes back. -/
def dispatch (S : Sched) (p : ℕ) (r : Regs) : Call → Except Fault (ℤ × Option ℤ × Sched)
  | .fork => plain (syscallFork S p r)
  | .exit status => plain (syscallExit S p status)
  | .kill pid => plain (syscallKill S p pid)
  | .waitpid pid => syscallWaitpid S p pid
  | .send valid box dest size => plain (syscallSend S valid box dest size)
  | .receive valid block => plain (syscallReceive S p valid block)

/-- The part of `syscall` that records `errno`; returns the result as the caller sees it. -/
def storeErrno (S : Sched) (no : ℕ) (res : ℤ) : ℤ × Sched :=
  if no ≠ SYSCALL_GETERRNO ∧ res ≠ -ESUSPEND then
    match S.current with
    | some p =>
      if res < 0 then (-1, S.set p { S.procs p with lastErrno := -res })
      else (res, S.set p { S.procs p with lastErrno := 0 })
    | none => (res, S)
  else (res, S)

/-- The end of `syscall` after the handler returned `res`. -/
def leave (S : Sched) (old no : ℕ) (r : Regs) (res : ℤ) : Sched :=
  let (res, S) := storeErrno S no res
  if res = -ESUSPEND then contextSwitch S r
  else
    let S := S.set old { S.procs old with inSyscall := 0 }
    if S.current = some old then S
    else contextSwitch S { r with eax := (res % 4294967296).toNat }

/-- `current_process->in_syscall = call_no`. -/
def enter (S : Sched) (p no : ℕ) : Sched := S.set p { S.procs p with inSyscall := no }

/-- `syscall`, up to the re-execution of the call of the process that is switched to. -/
def syscall (S : Sched) (r : Regs) (c : Call) : Except Fault (ℤ × Option ℤ × Sched) :=
  match S.current with
  | none => .error (.assertion .syscall)
  | some old => do
    let (res, status, S) ← dispatch (enter S old c.no) old r c
    return (res, status, leave S old c.no r res)

end AdelaideOS.Process
