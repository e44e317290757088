import AdelaideOS.Kernel.Files

/-!
# Processes and system calls: `process.c`, `unixproc.c`, `syscall.c`

The handlers of the whole kernel.  Their effect on the process table and the lists is the one of the
functions of the same names in `AdelaideOS.Process.Model`, which they call.

The page tables are changed while paging is off; those parts of a function are operations on `Pages` alone.
-/

namespace AdelaideOS.Kernel

open AdelaideOS.Lib.Bytes AdelaideOS.Page AdelaideOS.Process

/-! ### Creating a process -/

/-- The page directory that `start_process` sets up. -/
def startPages (m : Machine) (P : Pages) : Except Fault (ℕ × Pages) := do
  let (pdir, P) := allocPage P
  let P ← identityMap P pdir 0 (6 * MB) PAGE_SUPERVISOR PAGE_READ_ONLY
  let P ← identityMap P pdir m.codeStart m.codeEnd PAGE_USER PAGE_READ_ONLY
  let P ← mapNewPages P pdir (PROCESS_STACK_BASE - PROCESS_STACK_SIZE)
    (PROCESS_STACK_SIZE / PAGE_SIZE)
  return (pdir, P)

/-- The address space of a process without text and data. -/
def initialSpace (pdir : ℕ) : Space where
  pdir := pdir
  textStart := PROCESS_TEXT_BASE
  textEnd := PROCESS_TEXT_BASE
  dataStart := PROCESS_DATA_BASE
  dataEnd := PROCESS_DATA_BASE
  stackStart := PROCESS_STACK_BASE - PROCESS_STACK_SIZE
  stackEnd := PROCESS_STACK_BASE

def setSpace (p : ℕ) (s : Space) : K Unit :=
  modify fun k => { k with space := Function.update k.space p s }

def setCwd (p : ℕ) (path : List UInt8) : K Unit :=
  modify fun k => { k with cwd := Function.update k.cwd p path }

/-- `memset` clears the descriptors of a new process. -/
def clearFds (p : ℕ) : K Unit :=
  modify fun k => { k with filedesc := Function.update k.filedesc p fun _ => none }

/-- Standard input, output and error of a new process. -/
def openStandard (p : ℕ) : K Unit := do
  let b ← newPipe
  let stdin ← newPipeReader b
  setFd p 0 (some stdin)
  let stdout ← newScreenHandle
  setFd p 1 (some stdout)
  let stderr ← newScreenHandle
  setFd p 2 (some stderr)

/-- `start_process` once a slot is found. -/
def startIn (m : Machine) (pid startAddress : ℕ) : K Unit := do
  let pdir ← onPages (startPages m)
  setSpace pid (initialSpace pdir)
  clearFds pid
  openStandard pid
  setCwd pid [char '/']
  schedDo fun S => .ok (install S pid (startedProc pid startAddress))

/-- `start_process`; `none` is `-1`. -/
def startProcess (m : Machine) (startAddress : ℕ) : K (Option ℕ) := do
  let k ← get
  match getFreePid k.sched with
  | none => return none
  | some pid => do
    startIn m pid startAddress
    return some pid

/-- The page directory that `fork` sets up for a copy of the address space `s`. -/
def forkPages (s : Space) (P : Pages) : Except Fault (ℕ × Pages) := do
  let (pdir, P) := allocPage P
  let P ← identityMap P pdir 0 (6 * MB) PAGE_USER PAGE_READ_ONLY
  let P ← mapAndCopy P s.pdir pdir s.textStart s.textEnd
  let P ← mapAndCopy P s.pdir pdir s.dataStart s.dataEnd
  let P ← mapAndCopy P s.pdir pdir s.stackStart s.stackEnd
  return (pdir, P)

/-- The child gets the descriptor `fd` of its parent. -/
def shareFd (parent child fd : ℕ) : K Unit := do
  let k ← get
  match k.filedesc parent fd with
  | none => pure ()
  | some a => do
    setFd child fd (some a)
    addReference a

def shareFds (parent child : ℕ) : List ℕ → K Unit
  | [] => pure ()
  | fd :: fds => do
    shareFd parent child fd
    shareFds parent child fds

/-- `fork` once a slot is found. -/
def forkIn (p child : ℕ) (r : Regs) : K Unit := do
  let k ← get
  let pdir ← onPages (forkPages (k.space p))
  setSpace child { k.space p with pdir := pdir }
  clearFds child
  shareFds p child (List.range MAX_FDS)
  setCwd child (k.cwd p)
  schedDo fun S => .ok (install S child (forkedProc S p child r))

def syscallFork (p : ℕ) (r : Regs) : K ℤ := do
  let k ← get
  match getFreePid k.sched with
  | none => return -EAGAIN
  | some child => do
    forkIn p child r
    return child

/-! ### Ending a process -/

/-- The frames that `kill_process` gives back. -/
def releasePages (s : Space) (P : Pages) : Except Fault (Unit × Pages) := do
  let P ← unmapRange P s.pdir s.stackStart s.stackEnd
  let P ← unmapRange P s.pdir s.dataStart s.dataEnd
  let P ← unmapRange P s.pdir s.textStart s.textEnd
  let P ← freePageDir P s.pdir
  return ((), P)

def closeFds (p : ℕ) : List ℕ → K Unit
  | [] => pure ()
  | fd :: fds => do
    let k ← get
    closeIfOpen (k.filedesc p fd)
    closeFds p fds

/-- `kfree` of the mailbox, if there is one. -/
def freeMailbox : Option ℕ → K Unit
  | none => pure ()
  | some box => kfree box

def killProcess (q : ℕ) : K Unit := do
  schedDo fun S => .ok (detach S q)
  closeFds q (List.range MAX_FDS)
  let k ← get
  onPages (releasePages (k.space q))
  freeMailbox (k.sched.procs q).mailbox
  schedDo fun S => bury S q

/-- `current_process->exit_status = status`. -/
def setExitStatus (S : Sched) (p : ℕ) (status : ℤ) : Sched :=
  S.set p { S.procs p with exitStatus := status }

def syscallExit (p : ℕ) (status : ℤ) : K ℤ := do
  schedDo fun S => .ok (setExitStatus S p status)
  killProcess p
  return -ESUSPEND

def syscallKill (p : ℕ) (pid : ℤ) : K ℤ := do
  let k ← get
  if 0 > pid ∨ (MAX_PROCESSES : ℤ) ≤ pid ∨ (k.sched.procs pid.toNat).exists_ = false then
    return -ESRCH
  else do
    killProcess pid.toNat
    return if pid = (k.sched.procs p).pid then -ESUSPEND else 0

/-- `*status = exit_status`, unless `status` is `NULL`. -/
def storeStatus (p status : ℕ) : Option ℤ → K Unit
  | none => pure ()
  | some v => if status = 0 then pure () else writeUserBytes p status (wordBytes (ofInt v)) 0

def syscallWaitpid (p : ℕ) (pid : ℤ) (status : ℕ) : K ℤ := do
  let k ← get
  let (res, value, S) ← lift (Process.syscallWaitpid k.sched p pid)
  storeStatus p status value
  modify fun k => { k with sched := S }
  return res

/-! ### Memory -/

/-- Round up to a multiple of `PAGE_SIZE`. -/
def roundUp (a : ℕ) : ℕ :=
  if a % PAGE_SIZE = 0 then a else (a / PAGE_SIZE + 1) * PAGE_SIZE % wordSize

def syscallBrk (p endDataSegment : ℕ) : K ℤ := do
  let k ← get
  let oldend := (k.space p).dataEnd
  let newend := roundUp endDataSegment
  if endDataSegment ≤ oldend then return 0
  else do
    onPages fun P => do
      let P ← mapNewPages P (k.space p).pdir oldend ((newend + wordSize - oldend) % wordSize / PAGE_SIZE)
      return ((), P)
    setSpace p { k.space p with dataEnd := newend }
    return 0

/-! ### Running another program -/

/-- The loop of `execve` that checks the pointers in `argv`. -/
def checkArgv (p argv : ℕ) : ℕ → ℕ → K Bool
  | 0, _ => throw .diverges
  | fuel + 1, argno => do
    let k ← get
    if validPointer (k.space p) argv ((argno + 1) * 4 % wordSize) then do
      let s ← readUserWord p (offset argv (4 * argno))
      if s = 0 then return true
      else do
        let valid ← validString p s
        if valid then checkArgv p argv fuel (argno + 1) else return false
    else return false

/-- The pointers in `argv` are valid, if there is an `argv`. -/
def validArgv (p argv : ℕ) : K Bool :=
  if argv = 0 then pure true else checkArgv p argv wordSize 0

/-- The strings of `argv`.  The source walks over them twice, to measure and to copy them; nothing changes
in between. -/
def readArgv (p argv : ℕ) : ℕ → ℕ → K (List (List UInt8))
  | 0, _ => throw .diverges
  | fuel + 1, argno => do
    let s ← readUserWord p (offset argv (4 * argno))
    if s = 0 then return []
    else do
      let arg ← userString p s
      let rest ← readArgv p argv fuel (argno + 1)
      return arg :: rest

def argStrings (p argv : ℕ) : K (List (List UInt8)) :=
  if argv = 0 then pure [] else readArgv p argv wordSize 0

/-- `argdata_size` for the given arguments. -/
def argdataSize (args : List (List UInt8)) : ℕ :=
  ((args.map fun a => a.length + 1).sum + args.length * 4 + 8) % wordSize

/-- The loop that copies the arguments, from the end of the buffer backwards. -/
def packArgs (argdata size : ℕ) : List (List UInt8) → ℕ → ℕ → K Unit
  | [], _, _ => pure ()
  | arg :: args, argno, pos => do
    let pos := (pos + wordSize - (arg.length + 1)) % wordSize
    storeBlock argdata size pos (arg ++ [0])
    storeBlock argdata size (8 + 4 * argno) (wordBytes (PROCESS_STACK_BASE + wordSize - size + pos))
    packArgs argdata size args (argno + 1) pos

/-- The buffer with the arguments, as it will lie at the end of the stack. -/
def buildArgs (args : List (List UInt8)) : K ℕ := do
  let size := argdataSize args
  let argdata ← kmalloc size
  packArgs argdata size args 0 size
  storeBlock argdata size 0 (wordBytes args.length)
  storeBlock argdata size 4 (wordBytes (PROCESS_STACK_BASE + wordSize - size + 8))
  return argdata

/-- Memory with the bytes of the program from `pos` on copied to `page`. -/
def fillPage (fs : Memory) (entry : ℕ) (M : Memory) (page pos : ℕ) : Memory :=
  storeBytes M page
    (loadBytes fs (entryLocation fs entry + pos) (min PAGE_SIZE (entrySize fs entry - pos)))

/-- One page of the new text segment. -/
def loadPage (fs : Memory) (entry pdir : ℕ) (P : Pages) (pos : ℕ) : Except Fault Pages :=
  let (page, P) := allocPage P
  mapPage { P with mem := fillPage fs entry P.mem page pos } pdir (PROCESS_TEXT_BASE + pos) page
    PAGE_USER PAGE_READ_WRITE

/-- `execve` replaces text and data by the program at `entry`. -/
def execPages (fs : Memory) (entry : ℕ) (s : Space) (P : Pages) : Except Fault (Unit × Pages) := do
  let P ← unmapRange P s.pdir s.textStart s.textEnd
  let P ← unmapRange P s.pdir s.dataStart s.dataEnd
  let P ← (pagesOf 0 (entrySize fs entry)).foldlM (loadPage fs entry s.pdir) P
  return ((), P)

/-- The address space with the program at `entry` as its text. -/
def execSpace (fs : Memory) (entry : ℕ) (s : Space) : Space :=
  { s with
    textStart := PROCESS_TEXT_BASE
    textEnd := PROCESS_TEXT_BASE + (pagesOf 0 (entrySize fs entry)).length * PAGE_SIZE
    dataStart := PROCESS_DATA_BASE
    dataEnd := PROCESS_DATA_BASE }

/-- Store bytes at an address that the kernel chose itself. -/
def storeMappedBytes (p a : ℕ) : List UInt8 → ℕ → K Unit
  | [], _ => pure ()
  | b :: bs, i => do
    storeMapped p (offset a i) b
    storeMappedBytes p a bs (i + 1)

/-- `execve` from the allocation of the argument buffer on. -/
def execProgram (fs : Memory) (p entry : ℕ) (args : List (List UInt8)) : K (ℤ × Regs) := do
  let size := argdataSize args
  let argdata ← buildArgs args
  let k ← get
  onPages (execPages fs entry (k.space p))
  setSpace p (execSpace fs entry (k.space p))
  let k ← get
  storeMappedBytes p (PROCESS_STACK_BASE + wordSize - size) (loadBytes k.heap.bytes argdata size) 0
  kfree argdata
  return (0, initRegs ((PROCESS_STACK_BASE + wordSize - size) % wordSize) PROCESS_TEXT_BASE)

/-- `execve` once its pointers are checked. -/
def execEntry (fs : Memory) (p filename argv : ℕ) (r : Regs) : K (ℤ × Regs) := do
  let path ← userString p filename
  let found ← lift (getDirectoryEntry fs path)
  match found with
  | .error e => return (e, r)
  | .ok entry =>
    if entryType fs entry = TYPE_DIR then return (-EISDIR, r)
    else do
      let args ← argStrings p argv
      execProgram fs p entry args

/-- `execve`; the registers are changed if it succeeds. -/
def syscallExecve (fs : Memory) (p filename argv : ℕ) (r : Regs) : K (ℤ × Regs) := do
  let valid ← validString p filename
  if valid then do
    let ok ← validArgv p argv
    if ok then execEntry fs p filename argv r else return (-EFAULT, r)
  else return (-EFAULT, r)

/-! ### Messages -/

/-- `sizeof(message)`. -/
abbrev MESSAGE_SIZE : ℕ := 1036

/-- The mailbox of a process, created if there is none. -/
def mailboxOf (d : ℕ) : K ℕ := do
  let k ← get
  match (k.sched.procs d).mailbox with
  | some box => return box
  | none => kmalloc (8 * MESSAGE_SIZE)

/-- `send` once all checks are passed. -/
def deliver (p d tag data size : ℕ) : K ℤ := do
  let box ← mailboxOf d
  schedDo fun S => .ok (S.set d (accept (S.procs d) box))
  let k ← get
  let v := k.sched.procs d
  let msg := (v.mailboxSize - 1) * MESSAGE_SIZE
  storeBlock box (v.mailboxAlloc * MESSAGE_SIZE) msg
    (wordBytes (k.sched.procs p).pid ++ wordBytes tag ++ wordBytes size)
  let bytes ← readUserBytes p data size 0
  storeBlock box (v.mailboxAlloc * MESSAGE_SIZE) (msg + 12) bytes
  if v.receiveBlocked then do
    schedDo fun S => resumeProcess S d
    schedDo fun S => .ok (S.set d { S.procs d with receiveBlocked := false })
    return 0
  else return 0

def syscallSend (p : ℕ) (dest : ℤ) (tag data size : ℕ) : K ℤ := do
  let k ← get
  let d := k.sched.procs dest.toNat
  if validPointer (k.space p) data size then
    if 0 > dest ∨ (MAX_PROCESSES : ℤ) ≤ dest ∨ d.exists_ = false then return -ESRCH
    else if MAX_MESSAGE_SIZE < size then return -EINVAL
    else if d.mailbox ≠ none ∧ d.mailboxAlloc ≤ d.mailboxSize then return -ENOMEM
    else deliver p dest.toNat tag data size
  else return -EFAULT

/-- The first message of the mailbox goes to the caller, the others move up. -/
def takeMessage (p box n msg : ℕ) : K ℤ := do
  let k ← get
  writeUserBytes p msg (loadBytes k.heap.bytes box MESSAGE_SIZE) 0
  let k ← get
  storeBlock box (n * MESSAGE_SIZE) 0
    (loadBytes k.heap.bytes (box + MESSAGE_SIZE) ((n - 1) * MESSAGE_SIZE))
  schedDo fun S => .ok (S.set p { S.procs p with mailboxSize := n - 1 })
  return 0

def syscallReceive (p msg : ℕ) (block : Bool) : K ℤ := do
  let k ← get
  let v := k.sched.procs p
  if validPointer (k.space p) msg MESSAGE_SIZE then
    if 0 < v.mailboxSize then
      match v.mailbox with
      | some box => takeMessage p box v.mailboxSize msg
      | none => throw .wildPointer
    else if block then do
      schedDo fun S => suspendProcess (S.set p { S.procs p with receiveBlocked := true }) p
      return -ESUSPEND
    else return -EAGAIN
  else return -EFAULT

/-! ### Dispatching -/

def syscallGetpid (p : ℕ) : K ℤ := do
  let k ← get
  return (k.sched.procs p).pid

def syscallGeterrno (p : ℕ) : K ℤ := do
  let k ← get
  return (k.sched.procs p).lastErrno

/-- The warning about an unknown system call. -/
def unimplemented (no : ℕ) : K ℤ := do
  writeToScreen ("Warning: Call to unimplemented system call " ++ toString (toInt no) ++ "\n").toUTF8.toList
  return -ENOSYS

/-- How many words of its argument block a system call reads. -/
def arity (no : ℕ) : ℕ :=
  if no = SYSCALL_EXIT then 1
  else if no = SYSCALL_WRITE then 3
  else if no = SYSCALL_READ then 3
  else if no = SYSCALL_BRK then 1
  else if no = SYSCALL_SEND then 4
  else if no = SYSCALL_RECEIVE then 2
  else if no = SYSCALL_CLOSE then 1
  else if no = SYSCALL_PIPE then 1
  else if no = SYSCALL_DUP2 then 2
  else if no = SYSCALL_EXECVE then 3
  else if no = SYSCALL_WAITPID then 3
  else if no = SYSCALL_STAT then 2
  else if no = SYSCALL_OPEN then 2
  else if no = SYSCALL_GETDENT then 2
  else if no = SYSCALL_CHDIR then 1
  else if no = SYSCALL_GETCWD then 2
  else if no = SYSCALL_KILL then 1
  else 0

/-- `n` words from `a` on. -/
def readWords (p a : ℕ) : ℕ → ℕ → K (List ℕ)
  | 0, _ => pure []
  | n + 1, i => do
    let bs ← (List.range 4).mapM fun j => loadMapped p (offset a (4 * i + j))
    let ws ← readWords p a n (i + 1)
    return wordOf bs :: ws

/-- The argument block, which lies behind the return address.  The order in which its words are evaluated is
up to the compiler, so all of it counts as touched even if one word faults. -/
def readArgs (p useresp n : ℕ) : K (List ℕ) := do
  touch ((List.range (4 * n)).map fun i => offset useresp (4 + i))
  readWords p (offset useresp 4) n 0

/-- A handler that leaves the registers alone. -/
def keep (r : Regs) (x : K ℤ) : K (ℤ × Regs) := do
  let res ← x
  return (res, r)

/-- The `switch` of `syscall`, on the words of the argument block. -/
def dispatch (m : Machine) (p : ℕ) (r : Regs) (no : ℕ) (args : List ℕ) : K (ℤ × Regs) :=
  let arg := fun i => args.getD i 0
  let int := fun i => toInt (args.getD i 0)
  let fs := m.filesystem
  if no = SYSCALL_GETPID then keep r (syscallGetpid p)
  else if no = SYSCALL_EXIT then keep r (syscallExit p (int 0))
  else if no = SYSCALL_WRITE then keep r (syscallWrite p (int 0) (arg 1) (arg 2))
  else if no = SYSCALL_READ then keep r (syscallRead fs p (int 0) (arg 1) (arg 2))
  else if no = SYSCALL_GETERRNO then keep r (syscallGeterrno p)
  else if no = SYSCALL_BRK then keep r (syscallBrk p (arg 0))
  else if no = SYSCALL_SEND then keep r (syscallSend p (int 0) (arg 1) (arg 2) (arg 3))
  else if no = SYSCALL_RECEIVE then keep r (syscallReceive p (arg 0) (arg 1 ≠ 0))
  else if no = SYSCALL_CLOSE then keep r (syscallClose p (int 0))
  else if no = SYSCALL_PIPE then keep r (syscallPipe p (arg 0))
  else if no = SYSCALL_DUP2 then keep r (syscallDup2 p (int 0) (int 1))
  else if no = SYSCALL_FORK then keep r (syscallFork p r)
  else if no = SYSCALL_EXECVE then syscallExecve fs p (arg 0) (arg 1) r
  else if no = SYSCALL_WAITPID then keep r (syscallWaitpid p (int 0) (arg 1))
  else if no = SYSCALL_STAT then keep r (syscallStat fs p (arg 0) (arg 1))
  else if no = SYSCALL_OPEN then keep r (syscallOpen fs p (arg 0) (int 1))
  else if no = SYSCALL_GETDENT then keep r (syscallGetdent fs p (int 0) (arg 1))
  else if no = SYSCALL_CHDIR then keep r (syscallChdir fs p (arg 0))
  else if no = SYSCALL_GETCWD then keep r (syscallGetcwd p (arg 0) (arg 1))
  else if no = SYSCALL_KILL then keep r (syscallKill p (int 0))
  else keep r (unimplemented no)

/-- `syscall` from the `switch` on, for the process `old` and the argument words `args`. -/
def serve (m : Machine) (old : ℕ) (r : Regs) (args : List ℕ) : K (ℤ × Regs) := do
  let (res, r') ← dispatch m old r r.eax args
  schedDo fun S => .ok (leave S old r.eax r' res)
  return (res, r')

/-- `syscall`, up to the re-execution of the call of the process that is switched to.  Returns what the
handler returned, with the registers after it. -/
def syscall (m : Machine) (r : Regs) : K (ℤ × Regs) := do
  let k ← get
  match k.sched.current with
  | none => throw (.assertion .syscall)
  | some old => do
    schedDo fun S => .ok (enter S old r.eax)
    let args ← readArgs old r.useresp (arity r.eax)
    serve m old r args

end AdelaideOS.Kernel
