import AdelaideOS.Buddy.Model
import AdelaideOS.Kernel.Filesystem
import AdelaideOS.Page.Model
import AdelaideOS.Process.Model

/-!
# The state of the kernel

`State` puts together the scheduler, the page allocator with the memory of all processes, the kernel heap,
and the objects on it.  What the source keeps in one `process` structure is spread over several maps from
process numbers: the scalar fields are in `sched`, the address space in `space`, the descriptors in
`filedesc`, the working directory in `cwd`.  Structures on the kernel heap (file handles, pipe buffers) are
kept by address; plain buffers (pipe data, mailboxes, arguments of `execve`) are bytes of the heap.

A function of the kernel is a `K`: it stops with a `Fault` or returns a value, and leaves a state in both
cases.  The field `log` has no counterpart in the source and nothing reads it: it lists the addresses through
which the kernel has touched user memory because a register or an argument of the caller named them.
-/

namespace AdelaideOS.Kernel

open AdelaideOS.Lib.Bytes AdelaideOS.Page AdelaideOS.Process

/-- The address space of a process. -/
structure Space where
  pdir : ℕ
  textStart : ℕ
  textEnd : ℕ
  dataStart : ℕ
  dataEnd : ℕ
  stackStart : ℕ
  stackEnd : ℕ
  deriving DecidableEq

/-- The types of file handles; the handlers of a handle are determined by its type. -/
inductive FhType where
  | screen
  | pipeWriter
  | pipeReader
  | file
  | dir
  deriving DecidableEq, Repr

structure Filehandle where
  type : FhType
  refcount : ℕ
  p : ℕ
  entry : ℕ
  pos : ℕ
  entryno : ℕ

structure PipeBuffer where
  reading : Bool
  writing : Bool
  alloc : ℕ
  len : ℕ
  readpid : Option ℕ
  data : ℕ

structure State where
  sched : Sched
  pages : Pages
  space : ℕ → Space
  filedesc : ℕ → ℕ → Option ℕ
  cwd : ℕ → List UInt8
  handles : ℕ → Option Filehandle
  pipes : ℕ → Option PipeBuffer
  heap : Buddy.Heap
  screen : List UInt8
  log : List ℕ

/-- What the linker and the boot loader decide.  The kernel's code is page aligned and lies, like the file
system image, between 1 and 2 MB (`kernel_main` asserts the latter); the files lie inside the image. -/
structure Machine where
  codeStart : ℕ
  codeEnd : ℕ
  filesystem : Memory
  imageSize : ℕ
  start_aligned : codeStart % PAGE_SIZE = 0
  end_aligned : codeEnd % PAGE_SIZE = 0
  start_le : MB ≤ codeStart
  code_le : codeStart ≤ codeEnd
  end_le : codeEnd ≤ 2 * MB
  image_lt : imageSize < 2 * MB
  fits : ∀ path entry, getDirectoryEntry filesystem path = .ok (.ok entry) →
    entryLocation filesystem entry + entrySize filesystem entry ≤ imageSize

/-! A kernel of one page, at the first place that it may have. -/

theorem onePage_start_aligned : MB % PAGE_SIZE = 0 := by decide

theorem onePage_end_aligned : (MB + PAGE_SIZE) % PAGE_SIZE = 0 := by decide

theorem onePage_start_le : MB ≤ MB := le_rfl

theorem onePage_code_le : MB ≤ MB + PAGE_SIZE := Nat.le_add_right _ _

theorem onePage_end_le : MB + PAGE_SIZE ≤ 2 * MB := by decide

abbrev K := EStateM Fault State

/-! ### Components -/

def throw {α : Type} (e : Fault) : K α := fun k => .error e k

/-- A computation that does not depend on the state. -/
def lift {α : Type} (x : Except Fault α) : K α := fun k =>
  match x with
  | .ok a => .ok a k
  | .error e => .error e k

/-- An operation of the scheduler. -/
def schedDo (f : Sched → Except Fault Sched) : K Unit := fun k =>
  match f k.sched with
  | .ok S => .ok () { k with sched := S }
  | .error e => .error e k

/-- An operation on physical memory. -/
def onPages {α : Type} (f : Pages → Except Fault (α × Pages)) : K α := fun k =>
  match f k.pages with
  | .ok (a, P) => .ok a { k with pages := P }
  | .error e => .error e k

/-- An operation of the kernel heap. -/
def onHeap {α : Type} (f : Buddy.Heap → Except Fault (α × Buddy.Heap)) : K α := fun k =>
  match f k.heap with
  | .ok (a, h) => .ok a { k with heap := h }
  | .error e => .error e k

def kmalloc (nbytes : ℕ) : K ℕ := onHeap fun h => Buddy.buddyAlloc .kernel h nbytes

def kfree (ptr : ℕ) : K Unit :=
  onHeap fun h => do let h ← Buddy.buddyFree h ptr; return ((), h)

/-- Store bytes in memory. -/
def storeBytes (M : Memory) (a : ℕ) (bs : List UInt8) : Memory := fun x =>
  if a ≤ x then (bs[x - a]?).getD (M x) else M x

/-- Load `n` bytes from memory. -/
def loadBytes (M : Memory) (a n : ℕ) : List UInt8 := (List.range n).map fun i => M (a + i)

theorem loadBytes_length (M : Memory) (a n : ℕ) : (loadBytes M a n).length = n := by
  rw [loadBytes, List.length_map, List.length_range]

/-- Store bytes at offset `off` of a heap block of `size` bytes.  Outside the block the kernel would
overwrite other objects, and nothing is known about it from there on. -/
def storeBlock (block size off : ℕ) (bs : List UInt8) : K Unit := fun k =>
  if off + bs.length ≤ size then
    .ok () { k with heap := { k.heap with bytes := storeBytes k.heap.bytes (block + off) bs } }
  else .error .wildPointer k

/-- The little-endian bytes of a word. -/
def wordBytes (w : ℕ) : List UInt8 :=
  [UInt8.ofNat w, UInt8.ofNat (w / 256), UInt8.ofNat (w / 65536), UInt8.ofNat (w / 16777216)]

/-- The word spelled by four bytes. -/
def wordOf : List UInt8 → ℕ
  | [a, b, c, d] => a.toNat + 256 * b.toNat + 65536 * c.toNat + 16777216 * d.toNat
  | _ => 0

/-- A signed `int` from its word. -/
def toInt (w : ℕ) : ℤ := if w < 2147483648 then w else (w : ℤ) - 4294967296

/-- The word of an `int`. -/
def ofInt (i : ℤ) : ℕ := (i % 4294967296).toNat

/-! ### User memory -/

/-- The address lies in the text, data or stack range. -/
def Space.InRange (s : Space) (a : ℕ) : Prop :=
  (s.textStart ≤ a ∧ a < s.textEnd) ∨ (s.dataStart ≤ a ∧ a < s.dataEnd) ∨
    (s.stackStart ≤ a ∧ a < s.stackEnd)

instance (s : Space) (a : ℕ) : Decidable (s.InRange a) := inferInstanceAs (Decidable (_ ∨ _))

/-- `valid_pointer`. -/
def validPointer (s : Space) (ptr size : ℕ) : Bool :=
  let endAddress := (ptr + size) % wordSize
  if size = 0 then true
  else if endAddress < ptr then false
  else if s.stackStart ≤ ptr ∧ endAddress ≤ s.stackEnd then true
  else if s.dataStart ≤ ptr ∧ endAddress ≤ s.dataEnd then true
  else if s.textStart ≤ ptr ∧ endAddress ≤ s.textEnd then true
  else false

/-- The physical address behind an address of process `p`, whose page directory is active.  Memory of
the kernel itself is not kept in `pages`.  The kernel can load and store there through an address of the caller that it
has not checked, and goes on; the model ends the run. -/
def physical (k : State) (p a : ℕ) : Except Fault ℕ :=
  match translate k.pages.mem (k.space p).pdir a with
  | none => .error (.pageFault a)
  | some x => if x < PAGE_START then .error .wildPointer else .ok x

/-- A user's register or argument makes the kernel touch the addresses `as`. -/
def touch (as : List ℕ) : K Unit := fun k => .ok () { k with log := as ++ k.log }

/-- Load one byte of process `p`. -/
def loadMapped (p a : ℕ) : K UInt8 := fun k =>
  match physical k p a with
  | .ok x => .ok (k.pages.mem x) k
  | .error e => .error e k

/-- Physical memory with another byte at `x`. -/
def State.storeAt (k : State) (x : ℕ) (b : UInt8) : State :=
  { k with pages := { k.pages with mem := Function.update k.pages.mem x b } }

/-- Store one byte in the memory of process `p`. -/
def storeMapped (p a : ℕ) (b : UInt8) : K Unit := fun k =>
  match physical k p a with
  | .ok x => .ok () (k.storeAt x b)
  | .error e => .error e k

/-- Read one byte at an address that the caller named. -/
def readUser (p a : ℕ) : K UInt8 := do
  touch [a]
  loadMapped p a

/-- Write one byte at an address that the caller named. -/
def writeUser (p a : ℕ) (b : UInt8) : K Unit := do
  touch [a]
  storeMapped p a b

/-- The address `a + i`. -/
def offset (a i : ℕ) : ℕ := (a + i) % wordSize

/-- Read `n` bytes from `a` on. -/
def readUserBytes (p a : ℕ) : ℕ → ℕ → K (List UInt8)
  | 0, _ => pure []
  | n + 1, i => do
    let b ← readUser p (offset a i)
    let bs ← readUserBytes p a n (i + 1)
    return b :: bs

/-- Store bytes from `a` on. -/
def writeUserBytes (p a : ℕ) : List UInt8 → ℕ → K Unit
  | [], _ => pure ()
  | b :: bs, i => do
    writeUser p (offset a i) b
    writeUserBytes p a bs (i + 1)

def readUserWord (p a : ℕ) : K ℕ := do
  let bs ← readUserBytes p a 4 0
  return wordOf bs

/-- The loop of `valid_string`. -/
def validStringLoop (p str : ℕ) : ℕ → ℕ → K Bool
  | 0, _ => throw .diverges
  | fuel + 1, len => do
    let k ← get
    if validPointer (k.space p) str ((len + 1) % wordSize) then do
      let c ← readUser p (offset str len)
      if c = 0 then return true else validStringLoop p str fuel (len + 1)
    else return false

def validString (p str : ℕ) : K Bool := validStringLoop p str wordSize 0

/-- The string at `str`, as `strlen` and the functions after it read it. -/
def userStringLoop (p str : ℕ) : ℕ → ℕ → K (List UInt8)
  | 0, _ => throw .diverges
  | fuel + 1, len => do
    let c ← readUser p (offset str len)
    if c = 0 then return []
    else do
      let rest ← userStringLoop p str fuel (len + 1)
      return c :: rest

def userString (p str : ℕ) : K (List UInt8) := userStringLoop p str wordSize 0

/-- The part of `snprintf` that puts the text into the buffer: a character is stored only if one more
fits behind it, and a NUL ends the text.  A field is printed twice over the same characters, which has the
effect of printing it once. -/
def printUser (p str size : ℕ) (text : List UInt8) : K Unit := do
  writeUserBytes p str (text.take (size - 1)) 0
  if 0 < size then writeUser p (offset str (min text.length (size - 1))) 0

/-! ### Objects -/

def getHandle (a : ℕ) : K Filehandle := fun k =>
  match k.handles a with
  | some fh => .ok fh k
  | none => .error .wildPointer k

def setHandle (a : ℕ) (fh : Option Filehandle) : K Unit :=
  modify fun k => { k with handles := Function.update k.handles a fh }

def getPipe (a : ℕ) : K PipeBuffer := fun k =>
  match k.pipes a with
  | some b => .ok b k
  | none => .error .wildPointer k

def setPipe (a : ℕ) (b : Option PipeBuffer) : K Unit :=
  modify fun k => { k with pipes := Function.update k.pipes a b }

/-- `current_process->filedesc[fd] = fh`. -/
def setFd (p fd : ℕ) (fh : Option ℕ) : K Unit :=
  modify fun k =>
    { k with filedesc := Function.update k.filedesc p (Function.update (k.filedesc p) fd fh) }

/-- `assert(c)` in the function `site`. -/
def check (site : Site) (c : Prop) [Decidable c] : K Unit := lift (assert site c)

/-- Show text on the screen. -/
def writeToScreen (bs : List UInt8) : K Unit :=
  modify fun k => { k with screen := k.screen ++ bs }

end AdelaideOS.Kernel
