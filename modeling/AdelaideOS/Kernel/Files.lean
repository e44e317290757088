import AdelaideOS.Kernel.State

/-!
# Descriptors, pipes and files: `filedesc.c`, `pipe.c`, `fscalls.c`

The process `p` is the one that makes the call; `fs` is the file system image.  A file handle is named by its
address on the kernel heap.
-/

namespace AdelaideOS.Kernel

open AdelaideOS.Lib.Bytes AdelaideOS.Process

/-! ### Pipes -/

def newPipe : K ℕ := do
  let b ← kmalloc 24
  let data ← kmalloc BUFSIZE
  setPipe b (some ⟨true, true, BUFSIZE, 0, none, data⟩)
  return b

/-- A new file handle with one reference. -/
def newHandle (type : FhType) (p entry : ℕ) : K ℕ := do
  let fh ← kmalloc 36
  setHandle fh (some ⟨type, 1, p, entry, 0, 0⟩)
  return fh

def newPipeWriter (b : ℕ) : K ℕ := newHandle .pipeWriter b 0

def newPipeReader (b : ℕ) : K ℕ := newHandle .pipeReader b 0

def newScreenHandle : K ℕ := newHandle .screen 0 0

def wakeUpReader (b : ℕ) : K Unit := do
  let pb ← getPipe b
  match pb.readpid with
  | none => pure ()
  | some q => do
    schedDo fun S => resumeProcess S q
    setPipe b (some { pb with readpid := none })

/-- `while (b->len+count > b->alloc) b->alloc *= 2`. -/
def growLoop (need : ℕ) : ℕ → ℕ → Except Fault ℕ
  | 0, _ => .error .diverges
  | fuel + 1, alloc =>
    if alloc < need then growLoop need fuel (alloc * 2 % wordSize) else .ok alloc

/-- The part of `write_to_pipe` that makes room for `count` more bytes. -/
def growPipe (b count : ℕ) : K PipeBuffer := do
  let pb ← getPipe b
  if pb.alloc < (pb.len + count) % wordSize then do
    let alloc ← lift (growLoop ((pb.len + count) % wordSize) 33 pb.alloc)
    let newdata ← kmalloc alloc
    let k ← get
    storeBlock newdata alloc 0 (loadBytes k.heap.bytes pb.data pb.len)
    kfree pb.data
    setPipe b (some { pb with alloc := alloc, data := newdata })
    return { pb with alloc := alloc, data := newdata }
  else return pb

/-- `write_to_pipe` of `count` bytes that `source` fetches. -/
def writeToPipe (b count : ℕ) (source : K (List UInt8)) : K Unit := do
  let pb ← growPipe b count
  let bs ← source
  storeBlock pb.data pb.alloc pb.len bs
  setPipe b (some { pb with len := (pb.len + count) % wordSize })
  wakeUpReader b

def checkBufferFree (b : ℕ) : K Unit := do
  let pb ← getPipe b
  if pb.reading = false ∧ pb.writing = false then do
    check .checkBufferFree (pb.readpid = none)
    kfree pb.data
    kfree b
    setPipe b none
  else pure ()

def pipeWriterWrite (p : ℕ) (fh : Filehandle) (buf count : ℕ) : K ℤ := do
  writeToPipe fh.p count (readUserBytes p buf count 0)
  return toInt count

/-- The first case of `pipe_reader_read`: data is available. -/
def takeFromPipe (p b : ℕ) (pb : PipeBuffer) (buf count : ℕ) : K ℤ := do
  let n := if count < pb.len then count else pb.len
  let k ← get
  writeUserBytes p buf (loadBytes k.heap.bytes pb.data n) 0
  let k ← get
  storeBlock pb.data pb.alloc 0 (loadBytes k.heap.bytes (pb.data + n) (pb.len - n))
  setPipe b (some { pb with len := pb.len - n })
  return toInt n

def pipeReaderRead (p : ℕ) (fh : Filehandle) (buf count : ℕ) : K ℤ := do
  let pb ← getPipe fh.p
  if pb.readpid ≠ none then return -EBADF
  else if 0 < pb.len then takeFromPipe p fh.p pb buf count
  else if pb.writing = false then return 0
  else do
    let k ← get
    setPipe fh.p (some { pb with readpid := some (k.sched.procs p).pid })
    schedDo fun S => suspendProcess S p
    return -ESUSPEND

def pipeWriterDestroy (a : ℕ) (fh : Filehandle) : K Unit := do
  let pb ← getPipe fh.p
  check .pipeWriterDestroy (pb.writing = true)
  setPipe fh.p (some { pb with writing := false })
  wakeUpReader fh.p
  checkBufferFree fh.p
  kfree a
  setHandle a none

def pipeReaderDestroy (a : ℕ) (fh : Filehandle) : K Unit := do
  let pb ← getPipe fh.p
  check .pipeReaderDestroy (pb.reading = true)
  setPipe fh.p (some { pb with reading := false })
  checkBufferFree fh.p
  kfree a
  setHandle a none

/-- `screen_destroy` and `file_destroy`. -/
def plainDestroy (a : ℕ) : K Unit := do
  kfree a
  setHandle a none

/-! ### Descriptors -/

/-- `fh->destroy(fh)`. -/
def destroy (a : ℕ) (fh : Filehandle) : K Unit :=
  match fh.type with
  | .pipeWriter => pipeWriterDestroy a fh
  | .pipeReader => pipeReaderDestroy a fh
  | .screen => plainDestroy a
  | .file => plainDestroy a
  | .dir => plainDestroy a

def closeFilehandle (a : ℕ) : K Unit := do
  let fh ← getHandle a
  check .closeFilehandle (1 ≤ fh.refcount)
  setHandle a (some { fh with refcount := fh.refcount - 1 })
  if fh.refcount - 1 = 0 then destroy a { fh with refcount := fh.refcount - 1 } else pure ()

/-- The handle of a descriptor; `none` where the handlers answer `-EBADF`. -/
def lookupFd (k : State) (p : ℕ) (fd : ℤ) : Option ℕ :=
  if 0 > fd ∨ (MAX_FDS : ℤ) ≤ fd then none else k.filedesc p fd.toNat

def syscallClose (p : ℕ) (fd : ℤ) : K ℤ := do
  let k ← get
  match lookupFd k p fd with
  | none => return -EBADF
  | some a => do
    closeFilehandle a
    setFd p fd.toNat none
    return 0

/-- Close the handle that a descriptor refers to, if any. -/
def closeIfOpen : Option ℕ → K Unit
  | none => pure ()
  | some a => closeFilehandle a

/-- `fh->refcount++`. -/
def addReference (a : ℕ) : K Unit := do
  let fh ← getHandle a
  setHandle a (some { fh with refcount := fh.refcount + 1 })

/-- `dup2` of two different descriptors. -/
def replaceFd (p : ℕ) (a : ℕ) (newfd : ℤ) : K ℤ := do
  let k ← get
  closeIfOpen (k.filedesc p newfd.toNat)
  setFd p newfd.toNat (some a)
  addReference a
  return newfd

def syscallDup2 (p : ℕ) (oldfd newfd : ℤ) : K ℤ := do
  let k ← get
  if 0 > newfd ∨ (MAX_FDS : ℤ) ≤ newfd then return -EBADF
  else
    match lookupFd k p oldfd with
    | none => return -EBADF
    | some a => if oldfd = newfd then return newfd else replaceFd p a newfd

/-- The unused descriptors of a process in order. -/
def freeFds (k : State) (p : ℕ) : List ℕ :=
  (List.range MAX_FDS).filter fun fd => k.filedesc p fd = none

/-- `pipe` once two descriptors are found. -/
def openPipe (p filedes readfd writefd : ℕ) : K ℤ := do
  let b ← newPipe
  let reader ← newPipeReader b
  setFd p readfd (some reader)
  let writer ← newPipeWriter b
  setFd p writefd (some writer)
  writeUserBytes p filedes (wordBytes readfd) 0
  writeUserBytes p (offset filedes 4) (wordBytes writefd) 0
  return 0

def syscallPipe (p filedes : ℕ) : K ℤ := do
  let k ← get
  if validPointer (k.space p) filedes 8 then
    match freeFds k p with
    | readfd :: writefd :: _ => openPipe p filedes readfd writefd
    | _ => return -EMFILE
  else return -EFAULT

/-! ### Reading and writing -/

/-- `screen_write`. -/
def screenWrite (p buf count : ℕ) : K ℤ := do
  let bs ← readUserBytes p buf count 0
  writeToScreen bs
  return toInt count

/-- `fh->write(fh,buf,count)`. -/
def writeHandle (p : ℕ) (fh : Filehandle) (buf count : ℕ) : K ℤ :=
  match fh.type with
  | .screen => screenWrite p buf count
  | .pipeWriter => pipeWriterWrite p fh buf count
  | .pipeReader => pure (-EINVAL)
  | .file => pure (-EBADF)
  | .dir => pure (-EBADF)

def syscallWrite (p : ℕ) (fd : ℤ) (buf count : ℕ) : K ℤ := do
  let k ← get
  if validPointer (k.space p) buf count then
    match lookupFd k p fd with
    | none => return -EBADF
    | some a => do
      let fh ← getHandle a
      writeHandle p fh buf count
  else return -EFAULT

/-- How many bytes `file_read` copies. -/
def readable (size pos count : ℕ) : ℕ := if size < (pos + count) % wordSize then size - pos else count

/-- `file_read` of a file. -/
def fileRead (fs : Memory) (p a : ℕ) (fh : Filehandle) (buf count : ℕ) : K ℤ := do
  let size := entrySize fs fh.entry
  if size ≤ fh.pos then return 0
  else do
    let n := readable size fh.pos count
    writeUserBytes p buf (loadBytes fs (entryLocation fs fh.entry + fh.pos) n) 0
    setHandle a (some { fh with pos := (fh.pos + n) % wordSize })
    return toInt n

/-- `fh->read(fh,buf,count)`. -/
def readHandle (fs : Memory) (p a : ℕ) (fh : Filehandle) (buf count : ℕ) : K ℤ :=
  match fh.type with
  | .screen => pure (-EINVAL)
  | .pipeWriter => pure (-EINVAL)
  | .pipeReader => pipeReaderRead p fh buf count
  | .file => fileRead fs p a fh buf count
  | .dir => pure (-EISDIR)

def syscallRead (fs : Memory) (p : ℕ) (fd : ℤ) (buf count : ℕ) : K ℤ := do
  let k ← get
  if validPointer (k.space p) buf count then
    match lookupFd k p fd with
    | none => return -EBADF
    | some a => do
      let fh ← getHandle a
      readHandle fs p a fh buf count
  else return -EFAULT

/-! ### Files and directories -/

/-- The entry of a user's path, relative to the working directory. -/
def findEntry (fs : Memory) (p path : ℕ) : K (List UInt8 × Except ℤ ℕ) := do
  let rel ← userString p path
  let k ← get
  let abs := relativeToAbsolute (k.cwd p) rel PATH_MAX
  let found ← lift (getDirectoryEntry fs abs)
  return (abs, found)

/-- The bytes of a `struct stat`. -/
def statBytes (fs : Memory) (entry : ℕ) : List UInt8 :=
  wordBytes (entryMode fs entry) ++ wordBytes 0 ++ wordBytes 0 ++ wordBytes (entrySize fs entry) ++
    wordBytes (entryMtime fs entry)

/-- `stat` once its pointers are checked. -/
def statEntry (fs : Memory) (p path buf : ℕ) : K ℤ := do
  let (_, found) ← findEntry fs p path
  match found with
  | .error e => return e
  | .ok entry => do
    writeUserBytes p buf (statBytes fs entry) 0
    return 0

def syscallStat (fs : Memory) (p path buf : ℕ) : K ℤ := do
  let valid ← validString p path
  let k ← get
  if valid = true ∧ validPointer (k.space p) buf 20 = true then statEntry fs p path buf
  else return -EFAULT

/-- The value of `flags` that asks for a directory. -/
abbrev OPEN_DIRECTORY : ℤ := 0xFFFF

/-- `open` once a descriptor is found. -/
def openEntry (fs : Memory) (p path : ℕ) (flags : ℤ) (fd : ℕ) : K ℤ := do
  let (_, found) ← findEntry fs p path
  match found with
  | .error e => return e
  | .ok entry =>
    if flags = OPEN_DIRECTORY ∧ entryType fs entry ≠ TYPE_DIR then return -ENOTDIR
    else if flags ≠ OPEN_DIRECTORY ∧ entryType fs entry = TYPE_DIR then return -EISDIR
    else do
      let fh ← newHandle (if entryType fs entry = TYPE_DIR then .dir else .file) 0 entry
      setFd p fd (some fh)
      return fd

def syscallOpen (fs : Memory) (p path : ℕ) (flags : ℤ) : K ℤ := do
  let valid ← validString p path
  if valid then do
    let k ← get
    match freeFds k p with
    | fd :: _ => openEntry fs p path flags fd
    | [] => return -EMFILE
  else return -EFAULT

/-- `getdent` on a directory: the entry's name is used as a format. -/
def nextEntry (fs : Memory) (p a : ℕ) (fh : Filehandle) (entry : ℕ) : K ℤ := do
  let dir := entryLocation fs fh.entry
  if dirCount fs dir ≤ fh.entryno then return 0
  else do
    writeUserBytes p entry (wordBytes 0) 0
    let text ← lift (format fs (entryName (dirEntryAt dir fh.entryno)))
    printUser p (offset entry 4) (NAME_MAX + 1) text
    setHandle a (some { fh with entryno := (fh.entryno + 1) % wordSize })
    return 1

/-- `sizeof(struct dirent)`. -/
abbrev DIRENT_SIZE : ℕ := 1032

def syscallGetdent (fs : Memory) (p : ℕ) (fd : ℤ) (entry : ℕ) : K ℤ := do
  let k ← get
  if validPointer (k.space p) entry DIRENT_SIZE then
    match lookupFd k p fd with
    | none => return -EBADF
    | some a => do
      let fh ← getHandle a
      if fh.type = .dir then nextEntry fs p a fh entry else return -ENOTDIR
  else return -EFAULT

/-- `chdir` once its pointer is checked. -/
def changeDir (fs : Memory) (p path : ℕ) : K ℤ := do
  let (abs, found) ← findEntry fs p path
  match found with
  | .error e => return e
  | .ok entry =>
    if entryType fs entry ≠ TYPE_DIR then return -ENOTDIR
    else do
      modify fun k => { k with cwd := Function.update k.cwd p abs }
      return 0

def syscallChdir (fs : Memory) (p path : ℕ) : K ℤ := do
  let valid ← validString p path
  if valid then changeDir fs p path else return -EFAULT

/-- `getcwd`; `0` is `NULL`. -/
def syscallGetcwd (p buf size : ℕ) : K ℤ := do
  let k ← get
  if validPointer (k.space p) buf size then do
    printUser p buf size (k.cwd p)
    return toInt buf
  else return 0

end AdelaideOS.Kernel
