import AdelaideOS.Image.Model
import AdelaideOS.Libc.Numerals
import AdelaideOS.Shell.Model

/-!
# Looking into an image: `fstool.c`

`fstool -dump` prints all files and directories of an image, and `fstool -shell` reads commands from standard input and
prints what they find.  Both read the image file into memory first.  The output is the list of the printed bytes; `PATH_MAX`
of the host and its texts of errors are parameters.
-/

namespace AdelaideOS.Image

open AdelaideOS.Kernel AdelaideOS.Lib.Bytes AdelaideOS.Libc

/-- What the host decides about the output; errors have the numbers of `constants.h`. -/
structure Terminal where
  pathMax : ℕ
  strerror : ℤ → List UInt8

/-! ### Reading the image -/

/-- The loop of `read_file`; `read` may use `READ_SIZE` bytes of the buffer, whose size is an `int`. -/
def readLoop (g : Garbage) (b : Output) (bytes : List UInt8) : Except Failure Output :=
  if b.alloc < b.size + READ_SIZE ∨ 2147483648 ≤ b.alloc then .error .wildPointer
  else if _h : bytes = [] then .ok b
  else
    let piece := bytes.take READ_SIZE
    let b := { b with data := storeBytes b.data b.size piece }
    let alloc := b.alloc + piece.length
    readLoop g ⟨alloc, b.size + piece.length, reallocData g b alloc⟩ (bytes.drop READ_SIZE)
termination_by bytes.length
decreasing_by
  rw [List.length_drop]
  exact Nat.sub_lt (List.length_pos_of_ne_nil ‹_›) (by decide)

/-- `read_file`. -/
def readFile (g : Garbage) (bytes : List UInt8) : Except Failure Output :=
  readLoop g ⟨READ_SIZE, 0, g.block READ_SIZE⟩ bytes

/-! ### Dumping -/

/-- `%-8d` for a word. -/
def sizeField (size : ℕ) : List UInt8 :=
  let digits := signedNumeral (toInt size)
  digits ++ List.replicate (8 - digits.length) (char ' ')

/-- A line of the dump. -/
def dumpLine (kind : UInt8) (size : ℕ) (full : List UInt8) : List UInt8 :=
  kind :: char ' ' :: (sizeField size ++ char ' ' :: (full ++ [char '\n']))

/-- The loop of `dump_dir`; `dump` is the recursive call. -/
def dumpLoop (t : Terminal) (fs : Memory) (dump : List UInt8 → ℕ → Except Fault (List UInt8)) (path : List UInt8)
    (dir : ℕ) : ℕ → ℕ → Except Fault (List UInt8)
  | 0, _ => .ok []
  | n + 1, i => do
    let row := dirEntryAt dir i
    let name ← cstring fs (entryName row)
    let full := (path ++ char '/' :: name).take (t.pathMax - 1)
    let line := dumpLine (if entryType fs row = TYPE_DIR then char 'D' else char 'F') (entrySize fs row) full
    let below ← if entryType fs row = TYPE_DIR then dump full row else .ok []
    let rest ← dumpLoop t fs dump path dir n (i + 1)
    return line ++ (below ++ rest)

/-- `dump_dir`; the fuel bounds the depth of the recursion. -/
def dumpDir (t : Terminal) (fs : Memory) : ℕ → List UInt8 → ℕ → Except Fault (List UInt8)
  | 0, _, _ => .error .diverges
  | fuel + 1, path, entry =>
    dumpLoop t fs (dumpDir t fs fuel) path (entryLocation fs entry) (dirCount fs (entryLocation fs entry)) 0

/-- `dump_image`. -/
def dumpImage (t : Terminal) (fs : Memory) (fuel : ℕ) : Except Fault (List UInt8) := dumpDir t fs fuel [] 0

/-! ### The commands of the shell -/

/-- `getdir`. -/
def getdir (fs : Memory) (path : List UInt8) : Except Fault (Except ℤ ℕ) := do
  match ← getDirectoryEntry fs path with
  | .error r => return .error r
  | .ok entry => if TYPE_DIR ≠ entryType fs entry then return .error (-ENOTDIR) else return .ok entry

/-- `getfile`. -/
def getfile (fs : Memory) (path : List UInt8) : Except Fault (Except ℤ ℕ) := do
  match ← getDirectoryEntry fs path with
  | .error r => return .error r
  | .ok entry => if TYPE_FILE ≠ entryType fs entry then return .error (-EISDIR) else return .ok entry

/-- The characters of a string literal. -/
def word (s : String) : List UInt8 := s.toList.map char

/-- The permission bits as `ls` prints them. -/
def permissions (mode : ℕ) : List UInt8 :=
  [if mode &&& 0o400 ≠ 0 then char 'r' else char '-', if mode &&& 0o200 ≠ 0 then char 'w' else char '-',
    if mode &&& 0o100 ≠ 0 then char 'x' else char '-', if mode &&& 0o40 ≠ 0 then char 'r' else char '-',
    if mode &&& 0o20 ≠ 0 then char 'w' else char '-', if mode &&& 0o10 ≠ 0 then char 'x' else char '-',
    if mode &&& 0o4 ≠ 0 then char 'r' else char '-', if mode &&& 0o2 ≠ 0 then char 'w' else char '-',
    if mode &&& 0o1 ≠ 0 then char 'x' else char '-']

/-- A line of `ls`. -/
def lsLine (isDir : Bool) (mode size : ℕ) (name : List UInt8) : List UInt8 :=
  (if isDir then char 'd' else char '-') :: permissions mode ++
    if isDir then word " DIR  " ++ sizeField size ++ char ' ' :: name ++ word "/\n"
    else word " FILE " ++ sizeField size ++ char ' ' :: name ++ word "\n"

/-- The loop of `ls`. -/
def lsLoop (fs : Memory) (dir : ℕ) : ℕ → ℕ → Except Fault (List UInt8)
  | 0, _ => .ok []
  | n + 1, i => do
    let row := dirEntryAt dir i
    let name ← cstring fs (entryName row)
    let rest ← lsLoop fs dir n (i + 1)
    return lsLine (entryType fs row = TYPE_DIR) (entryMode fs row) (entrySize fs row) name ++ rest

/-- The text of `help`. -/
def helpText : List UInt8 :=
  word "Commands:\n" ++ word "ls [path]  - list directory contents (or . if no path)\n" ++
    word "cat <path> - display contents of a file\n" ++ word "cd <path>  - change current working directory\n" ++
    word "pwd        - print current working directory\n" ++ word "q          - quit fstool\n"

/-- `printf("%s\n",strerror(-r))`. -/
def complain (t : Terminal) (r : ℤ) : List UInt8 := t.strerror (-r) ++ [char '\n']

/-- What a command leaves: the current directory, what it printed, and whether the shell goes on. -/
structure Done where
  cwd : List UInt8
  out : List UInt8
  goes : Bool

/-- The arms of the shell, for the words of a line. -/
def command (t : Terminal) (fs : Memory) (cwd : List UInt8) (args : List (List UInt8)) : Except Fault Done := do
  if args.head? = some (word "ls") then
    let path := if h : 1 < args.length then relativeToAbsolute cwd args[1] t.pathMax else cwd.take (t.pathMax - 1)
    match ← getdir fs path with
    | .error r => return ⟨cwd, complain t r, true⟩
    | .ok entry =>
      let out ← lsLoop fs (entryLocation fs entry) (dirCount fs (entryLocation fs entry)) 0
      return ⟨cwd, out, true⟩
  else
    match args with
    | [name, path] =>
      if name = word "cat" then
        match ← getfile fs (relativeToAbsolute cwd path t.pathMax) with
        | .error r => return ⟨cwd, complain t r, true⟩
        | .ok entry => return ⟨cwd, loadBytes fs (entryLocation fs entry) (entrySize fs entry), true⟩
      else if name = word "cd" then
        match ← getdir fs (relativeToAbsolute cwd path t.pathMax) with
        | .error r => return ⟨cwd, complain t r, true⟩
        | .ok _ => return ⟨(relativeToAbsolute cwd path t.pathMax).take (t.pathMax - 1), [], true⟩
      else return ⟨cwd, word "Invalid command\n", true⟩
    | [name] =>
      if name = word "pwd" then return ⟨cwd, cwd ++ [char '\n'], true⟩
      else if name = word "q" then return ⟨cwd, [], false⟩
      else if name = word "help" then return ⟨cwd, helpText, true⟩
      else return ⟨cwd, word "Invalid command\n", true⟩
    | _ => return ⟨cwd, word "Invalid command\n", true⟩

/-! ### The loop of the shell -/

/-- The bytes that `fgets` takes for a line of at most `n` bytes. -/
def fgets : ℕ → List UInt8 → List UInt8
  | 0, _ => []
  | _, [] => []
  | n + 1, c :: input => if c = char '\n' then [c] else c :: fgets n input

/-- The size of the array `line`. -/
abbrev LINE_SIZE : ℕ := 1024

/-- `printf("%s > ",cwd)`. -/
def prompt (cwd : List UInt8) : List UInt8 := cwd ++ word " > "

/-- One line: it is stored in the array `line`, taken apart there, and its command is run. -/
def lineStep (t : Terminal) (fs : Memory) (cwd : List UInt8) (line : Memory) (text : List UInt8) :
    Except Fault (Memory × Done) := do
  let line := storeBytes line 0 (text ++ [0])
  let parse ← Shell.parseCommand line 0 8 LINE_SIZE
  let args ← parse.argv.mapM (cstring parse.mem)
  let done ← command t fs cwd args
  return (parse.mem, done)

theorem fgets_length_pos {n : ℕ} {input : List UInt8} (hn : 0 < n) (hne : input ≠ []) : 0 < (fgets n input).length := by
  obtain ⟨n, rfl⟩ : ∃ n', n = n' + 1 := ⟨n - 1, by omega⟩
  cases input with
  | nil => exact absurd rfl hne
  | cons c input =>
    rw [fgets]
    split <;> exact Nat.succ_pos _

/-- The loop of `shell`, from a prompt on; what is printed. -/
def shellLoop (t : Terminal) (fs : Memory) (cwd : List UInt8) (line : Memory) (input : List UInt8) :
    Except Fault (List UInt8) :=
  if _h : input = [] then .ok []
  else do
    let text := fgets (LINE_SIZE - 1) input
    let (line, done) ← lineStep t fs cwd line text
    if done.goes then do
      let rest ← shellLoop t fs done.cwd line (input.drop text.length)
      return done.out ++ (prompt done.cwd ++ rest)
    else return done.out
termination_by input.length
decreasing_by
  rw [List.length_drop]
  exact Nat.sub_lt (List.length_pos_of_ne_nil ‹_›) (fgets_length_pos (by decide) ‹_›)

/-- `shell`; the array `line` holds anything at first. -/
def shell (t : Terminal) (fs : Memory) (line : Memory) (input : List UInt8) : Except Fault (List UInt8) := do
  let cwd := [char '/'].take (t.pathMax - 1)
  let out ← shellLoop t fs cwd line input
  return prompt cwd ++ out

end AdelaideOS.Image
