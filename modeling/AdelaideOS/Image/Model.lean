import AdelaideOS.Kernel.Filesystem
import AdelaideOS.Kernel.State

/-!
# Building a file system image: `fstool.c`

`fstool -build` runs on a host and writes a directory of the host as an image.  The directory tables are appended
with locations that are still zero, then the contents of their entries, and at last each table is copied over its
first version.

The host is a parameter: the names that `readdir` returns, what `stat` says about a path, and the bytes that `read`
returns for one.  Memory that the tool has allocated and not written holds anything, which is a parameter too.
-/

namespace AdelaideOS.Image

open AdelaideOS.Lib.Bytes AdelaideOS.Kernel

/-! ### The host -/

/-- The fields of `struct stat` that are used. -/
structure Stat where
  mode : ℕ
  size : ℕ
  mtime : ℕ
  deriving DecidableEq

/-- `S_ISDIR`. -/
def isDir (mode : ℕ) : Bool := mode &&& 0xF000 = 0x4000

/-- `S_ISREG`. -/
def isReg (mode : ℕ) : Bool := mode &&& 0xF000 = 0x8000

/-- The host as the tool sees it.  `pathMax` is its `PATH_MAX`; a call that fails has no result. -/
structure Host where
  pathMax : ℕ
  readdir : List UInt8 → Option (List (List UInt8))
  stat : List UInt8 → Option Stat
  read : List UInt8 → Option (List UInt8)

/-- Memory that has not been written: that of an output buffer of the given size, the last byte of the name in a
row of a directory, and the local variable `root`. -/
structure Garbage where
  block : ℕ → Memory
  name : List UInt8 → ℕ → UInt8
  root : ℕ → UInt8

/-- Why no image is written. -/
inductive Failure where
  /-- A call of the host failed, and the tool exited. -/
  | exit
  /-- A loop does not end. -/
  | diverges
  /-- A write outside of the output buffer. -/
  | wildPointer
  deriving DecidableEq

/-! ### The output -/

/-- `output`. -/
structure Output where
  alloc : ℕ
  size : ℕ
  data : Memory

/-- `OUTPUT_INIT`. -/
def Output.init (g : Garbage) : Output := ⟨1, 0, g.block 1⟩

/-- The loop `while (b->size+size > b->alloc) b->alloc *= 2`. -/
def growLoop (need : ℕ) : ℕ → ℕ → Except Failure ℕ
  | 0, _ => .error .diverges
  | fuel + 1, alloc => if alloc < need then growLoop need fuel (alloc * 2 % wordSize) else .ok alloc

/-- `realloc`: the old bytes, and anything behind them. -/
def reallocData (g : Garbage) (b : Output) (alloc : ℕ) : Memory := fun x =>
  if x < b.alloc then b.data x else g.block alloc x

/-- `output_append`.  After 32 rounds `alloc` is zero and stays so. -/
def outputAppend (g : Garbage) (b : Output) (bs : List UInt8) : Except Failure Output :=
  let need := (b.size + bs.length) % wordSize
  do
    let alloc ← growLoop need 33 b.alloc
    let data := if b.alloc < need then reallocData g b alloc else b.data
    if alloc < b.size + bs.length then .error .wildPointer
    else return ⟨alloc, need, storeBytes data b.size bs⟩

/-- `BUFSIZE` of the tool. -/
abbrev READ_SIZE : ℕ := 1024

/-- The loop of `process_file`. -/
def copyLoop (g : Garbage) (out : Output) (bytes : List UInt8) : Except Failure Output :=
  if h : bytes = [] then .ok out
  else do
    let out ← outputAppend g out (bytes.take READ_SIZE)
    copyLoop g out (bytes.drop READ_SIZE)
termination_by bytes.length
decreasing_by
  rw [List.length_drop]
  exact Nat.sub_lt (List.length_pos_of_ne_nil h) (by decide)

/-- `process_file`. -/
def processFile (host : Host) (g : Garbage) (out : Output) (path : List UInt8) : Except Failure Output :=
  match host.read path with
  | none => .error .exit
  | some bytes => copyLoop g out bytes

/-! ### Directories -/

abbrev TYPE_FILE : ℕ := 2

abbrev MAX_FILENAME_LEN : ℕ := 255

/-- `directory_entry`; the field `name` has 256 bytes. -/
structure Entry where
  size : ℕ
  type : ℕ
  location : ℕ
  mode : ℕ
  mtime : ℕ
  name : List UInt8
  deriving DecidableEq

def Entry.bytes (e : Entry) : List UInt8 :=
  wordBytes e.size ++ wordBytes e.type ++ wordBytes e.location ++ wordBytes e.mode ++ wordBytes e.mtime ++ e.name

/-- The field `name` as a string.  It stops at the end of the field, where `%s` would run on into the next row. -/
def Entry.string (e : Entry) : List UInt8 := e.name.takeWhile (· ≠ 0)

/-- The bytes of a `directory`. -/
def tableBytes (entries : List Entry) : List UInt8 :=
  wordBytes entries.length ++ entries.flatMap Entry.bytes

/-- What `strncpy` stores. -/
def strncpy (s : List UInt8) (n : ℕ) : List UInt8 := s.take n ++ List.replicate (n - s.length) 0

/-- `ignore_file`. -/
def ignoreFile (name : List UInt8) : Bool :=
  name ∈ [[char '.'], [char '.', char '.'], [char '.', char 's', char 'v', char 'n']]

/-- `snprintf(fullpath,PATH_MAX,"%s/%s",path,name)`. -/
def fullPath (host : Host) (path name : List UInt8) : List UInt8 := (path ++ char '/' :: name).take (host.pathMax - 1)

/-- A new row, whose location is filled in later. -/
def newEntry (g : Garbage) (path name : List UInt8) (st : Stat) (i : ℕ) : Entry where
  size := st.size % wordSize
  type := if isDir st.mode then TYPE_DIR else TYPE_FILE
  location := 0
  mode := st.mode % wordSize
  mtime := st.mtime % wordSize
  name := strncpy name MAX_FILENAME_LEN ++ [g.name path i]

/-- One round of the first loop of `process_dir`. -/
def addEntry (host : Host) (g : Garbage) (path : List UInt8) (entries : List Entry) (name : List UInt8) :
    Except Failure (List Entry) :=
  if ignoreFile name then .ok entries
  else
    match host.stat (fullPath host path name) with
    | none => .error .exit
    | some st =>
      if isDir st.mode ∨ isReg st.mode then .ok (entries ++ [newEntry g path name st entries.length])
      else .ok entries

/-- The second loop of `process_dir`; `process` is the recursive call. -/
def fillLoop (host : Host) (g : Garbage) (process : Output → List UInt8 → Except Failure Output) (path : List UInt8) :
    List Entry → Output → Except Failure (Output × List Entry)
  | [], out => .ok (out, [])
  | e :: es, out => do
    let full := fullPath host path e.string
    let filled ← if e.type = TYPE_DIR then process out full else processFile host g out full
    let (last, es) ← fillLoop host g process path es filled
    return (last, { e with location := out.size } :: es)

/-- `process_dir`; the fuel bounds the depth of the recursion. -/
def processDir (host : Host) (g : Garbage) : ℕ → Output → List UInt8 → Except Failure Output
  | 0, _, _ => .error .diverges
  | fuel + 1, out, path =>
    match host.readdir path with
    | none => .error .exit
    | some names => do
      let entries ← names.foldlM (addEntry host g path) []
      let table ← outputAppend g out (tableBytes entries)
      let (filled, entries) ← fillLoop host g (processDir host g fuel) path entries table
      -- the table is copied over its first version
      return { filled with data := storeBytes filled.data out.size (tableBytes entries) }

/-- The local variable `root` of `main`. -/
def rootEntry (g : Garbage) : List UInt8 :=
  wordBytes 0 ++ wordBytes TYPE_DIR ++ wordBytes ENTRY_SIZE ++ (List.range 8).map g.root ++
    [char 'R', char 'O', char 'O', char 'T', 0] ++ (List.range 251).map fun i => g.root (8 + i)

/-- `main` with `-build`: the output whose first `size` bytes are written to the image. -/
def build (host : Host) (g : Garbage) (fuel : ℕ) (dir : List UInt8) : Except Failure Output := do
  let out ← outputAppend g (Output.init g) (rootEntry g)
  processDir host g fuel out dir

end AdelaideOS.Image
