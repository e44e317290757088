import AdelaideOS.Constants
import AdelaideOS.Fault
import AdelaideOS.Lib.Bytes

/-!
# The file system image: `filesystem.c`, and `vsnprintf` of `libc.c`

The RAM disk is a read-only memory, addressed by offset from `filesystem`.  A directory entry is named by its
offset; its fields follow the packed layout of `directory_entry`.

Strings are lists of bytes without the terminating NUL.  A scan for a NUL that finds none within the
address space does not end in the model.
-/

namespace AdelaideOS.Kernel

open AdelaideOS.Lib.Bytes

/-! ### Strings in memory -/

/-- The bytes from `a` up to the next NUL. -/
def cstringLoop (M : Memory) : ℕ → ℕ → Except Fault (List UInt8)
  | 0, _ => .error .diverges
  | fuel + 1, a =>
    if M a = 0 then .ok []
    else do
      let rest ← cstringLoop M fuel (a + 1)
      return M a :: rest

def cstring (M : Memory) (a : ℕ) : Except Fault (List UInt8) := cstringLoop M wordSize a

/-- The character `c`. -/
def char (c : Char) : UInt8 := UInt8.ofNat c.toNat

/-! ### Directory entries -/

abbrev TYPE_DIR : ℕ := 1

/-- `sizeof(directory_entry)`. -/
abbrev ENTRY_SIZE : ℕ := 276

def entrySize (fs : Memory) (entry : ℕ) : ℕ := readWord fs entry

def entryType (fs : Memory) (entry : ℕ) : ℕ := readWord fs (entry + 4)

def entryLocation (fs : Memory) (entry : ℕ) : ℕ := readWord fs (entry + 8)

def entryMode (fs : Memory) (entry : ℕ) : ℕ := readWord fs (entry + 12)

def entryMtime (fs : Memory) (entry : ℕ) : ℕ := readWord fs (entry + 16)

/-- The address of the field `name`. -/
def entryName (entry : ℕ) : ℕ := entry + 20

/-- `dir->count`. -/
def dirCount (fs : Memory) (dir : ℕ) : ℕ := readWord fs dir

/-- `&dir->entries[i]`. -/
def dirEntryAt (dir i : ℕ) : ℕ := dir + 4 + ENTRY_SIZE * i

/-! ### Lookup -/

/-- The loop of `lookup`, at entry `i`.  A path component holds no NUL, so the comparison of lengths and
`strncmp` together say that the two strings are equal. -/
def lookupLoop (fs : Memory) (dir : ℕ) (name : List UInt8) : ℕ → ℕ → Except Fault (Option ℕ)
  | 0, _ => .ok none
  | n + 1, i => do
    let s ← cstring fs (entryName (dirEntryAt dir i))
    if s = name then return some (dirEntryAt dir i) else lookupLoop fs dir name n (i + 1)

def lookup (fs : Memory) (dir : ℕ) (name : List UInt8) : Except Fault (Option ℕ) :=
  lookupLoop fs dir name (dirCount fs dir) 0

/-- The components of a path in order; empty components are skipped. -/
def components (path : List UInt8) : List (List UInt8) :=
  (path.splitOn (char '/')).filter (· ≠ [])

/-- The walk of `get_directory_entry` from directory `dir`; `endsInSlash` says whether the last component
is followed by more characters, so that it has to be a directory. -/
def walk (fs : Memory) (endsInSlash : Bool) :
    List (List UInt8) → ℕ → ℕ → Except Fault (Except ℤ ℕ)
  | [], entry, _ => .ok (.ok entry)
  | c :: cs, _, dir => do
    match ← lookup fs dir c with
    | none => return .error (-ENOENT)
    | some entry =>
      if entryType fs entry = TYPE_DIR then walk fs endsInSlash cs entry (entryLocation fs entry)
      else if cs ≠ [] ∨ endsInSlash then return .error (-ENOENT)
      else return .ok entry

/-- The only error of a look-up. -/
theorem walk_enoent {fs : Memory} {slash : Bool} {cs : List (List UInt8)} {entry dir : ℕ} {e : ℤ}
    (h : walk fs slash cs entry dir = .ok (.error e)) : e = -ENOENT := by
  induction cs generalizing entry dir with
  | nil => cases h
  | cons c cs ih =>
    unfold walk at h
    obtain ⟨found, -, h⟩ := bind_eq_ok.mp h
    cases found with
    | none =>
      cases h
      rfl
    | some found =>
      replace h : (if entryType fs found = TYPE_DIR then walk fs slash cs found (entryLocation fs found)
        else if cs ≠ [] ∨ slash = true then (return .error (-ENOENT)) else (return .ok found) :
          Except Fault (Except ℤ ℕ)) = .ok (.error e) := h
      by_cases hdir : entryType fs found = TYPE_DIR
      · rw [if_pos hdir] at h
        exact ih h
      · rw [if_neg hdir] at h
        by_cases hmore : cs ≠ [] ∨ slash = true
        · rw [if_pos hmore] at h
          cases h
          rfl
        · rw [if_neg hmore] at h
          cases h

/-- `get_directory_entry`: the offset of the entry, or a negative error code. -/
def getDirectoryEntry (fs : Memory) (path : List UInt8) : Except Fault (Except ℤ ℕ) :=
  walk fs (path.getLast? = some (char '/')) (components path) 0 (entryLocation fs 0)

/-! ### Absolute paths -/

/-- `..` removes the last component of the path, unless it is the root. -/
def parentPath (abs : List UInt8) : List UInt8 :=
  let kept := dropToSlash abs.length abs
  if 1 < kept.length then kept.dropLast else kept
where
  dropToSlash : ℕ → List UInt8 → List UInt8
    | 0, abs => abs
    | n + 1, abs =>
      if 1 < abs.length ∧ abs.getLast? ≠ some (char '/') then dropToSlash n abs.dropLast else abs

/-- A component is added, up to `max - 1` bytes in all. -/
def addComponent (max : ℕ) (abs name : List UInt8) : List UInt8 :=
  let abs := if abs.length < max - 1 ∧ abs.getLast? ≠ some (char '/') then abs ++ [char '/'] else abs
  abs ++ name.take (max - 1 - abs.length)

/-- One component of the relative path. -/
def applyComponent (max : ℕ) (abs name : List UInt8) : List UInt8 :=
  if name = [char '.'] then abs
  else if name = [char '.', char '.'] then parentPath abs
  else addComponent max abs name

def relativeToAbsolute (base rel : List UInt8) (max : ℕ) : List UInt8 :=
  let start := if rel.head? = some (char '/') then [char '/'] else base.take (max - 1)
  (components rel).foldl (applyComponent max) start

/-! ### Formatting -/

/-- The conversions that fetch an argument. -/
def takesArgument (c : UInt8) : Bool :=
  c ∈ [char 's', char 'c', char 'd', char 'u', char 'p', char 'x']

/-- The digits of a field width from `a` on: the width and the address behind them. -/
def widthLoop (M : Memory) : ℕ → ℕ → ℕ → Except Fault (ℕ × ℕ)
  | 0, _, _ => .error .diverges
  | fuel + 1, a, pad =>
    if char '0' ≤ M a ∧ M a ≤ char '9' then
      widthLoop M fuel (a + 1) (pad * 10 + ((M a).toNat - (char '0').toNat))
    else .ok (pad, a)

/-- What `vsnprintf` prints for the format at `a`, when it is passed no arguments.  A conversion that wants
one reads whatever lies on the stack, and a field width may overflow: neither is defined.  Every other
character after a percent sign, the terminating NUL included, is skipped and a percent sign is printed, padded
to the field width; the scan then goes on behind that character. -/
def formatLoop (M : Memory) : ℕ → ℕ → Except Fault (List UInt8)
  | 0, _ => .error .diverges
  | fuel + 1, a =>
    if M a = 0 then .ok []
    else if M a ≠ char '%' then do
      let rest ← formatLoop M fuel (a + 1)
      return M a :: rest
    else do
      let left := M (a + 1) = char '-'
      let (pad, b) ← widthLoop M wordSize (if left then a + 2 else a + 1) 0
      if takesArgument (M b) ∨ 2147483648 ≤ pad then .error .wildPointer
      else do
        let rest ← formatLoop M fuel (b + 1)
        let blanks := List.replicate (pad - 1) (char ' ')
        return (if left then char '%' :: blanks else blanks ++ [char '%']) ++ rest

def format (M : Memory) (a : ℕ) : Except Fault (List UInt8) := formatLoop M wordSize a

end AdelaideOS.Kernel
