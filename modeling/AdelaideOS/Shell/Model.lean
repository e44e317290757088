import AdelaideOS.Libc.Strings

/-!
# The shell

`main` reads from standard input into the array `input` and passes complete lines to `process_line`, which takes them apart
in place.  The prompts are left out, and so is what a command does: it changes nothing of `input`.

Where a line is looked at, the indices are noted; `input` lies somewhere in memory, with the bytes of the stack around it,
and an index at or behind the end of the array is a byte of these.
-/

namespace AdelaideOS.Shell

open AdelaideOS.Kernel AdelaideOS.Libc AdelaideOS.Lib.Bytes

def MAX_ARGS : ℕ := 32

/-- The indices from `a` to `a + n`. -/
def span (a n : ℕ) : List ℕ := (List.range (n + 1)).map (a + ·)

/-! ### `parse_command` -/

/-- What `parse_command` changes: the line, `argv` with `argc` entries, and `start`; and the indices that were used. -/
structure Parse where
  mem : Memory
  argv : List ℕ
  start : ℕ
  log : List ℕ

/-- One round of the loop. -/
def parseStep (line len max : ℕ) (s : Parse) (pos : ℕ) : Parse :=
  let log := (line + pos) :: s.log
  if char '\n' = s.mem (line + pos) ∨ char ' ' = s.mem (line + pos) ∨ pos = len then
    { mem := Function.update s.mem (line + pos) 0
      argv := if s.start < pos ∧ s.argv.length + 1 < max then s.argv ++ [line + s.start] else s.argv
      start := pos + 1
      log := log }
  else { s with log := log }

def parseCommand (mem : Memory) (line max fuel : ℕ) : Except Fault Parse := do
  let len ← strlen (fun i => mem (line + i)) fuel
  return (List.range (len + 1)).foldl (parseStep line len max) ⟨mem, [], 0, span line len⟩

/-! ### `process_line` -/

/-- What is done for a line, with the arguments where they are used. -/
inductive Command where
  | nothing
  | cd (path : Option ℕ)
  | pwd
  | exit
  | program (argv : List ℕ)
  deriving DecidableEq

/-- The indices at which the arguments are read: each up to its NUL. -/
def readArgs (mem : Memory) (fuel : ℕ) : List ℕ → Except Fault (List ℕ)
  | [] => .ok []
  | p :: argv => do
    let len ← strlen (fun i => mem (p + i)) fuel
    let log ← readArgs mem fuel argv
    return span p len ++ log

def exitWord : List UInt8 := [char 'e', char 'x', char 'i', char 't']

/-- The command with the name at `name`. -/
def selectCommand (mem : Memory) (name : ℕ) (args : List ℕ) (fuel : ℕ) : Except Fault Command := do
  let isCd ← strcmp (fun i => mem (name + i)) (chars [char 'c', char 'd']) fuel
  if isCd = 0 then return .cd args.head?
  else do
    let isPwd ← strcmp (fun i => mem (name + i)) (chars [char 'p', char 'w', char 'd']) fuel
    if isPwd = 0 then return .pwd
    else do
      let isExit ← strcmp (fun i => mem (name + i)) (chars exitWord) fuel
      if isExit = 0 then return .exit else return .program (name :: args)

structure Processed where
  mem : Memory
  command : Command
  log : List ℕ

def processLine (mem : Memory) (line fuel : ℕ) : Except Fault Processed := do
  let p ← parseCommand mem line MAX_ARGS fuel
  match p.argv with
  | [] => return ⟨p.mem, .nothing, p.log⟩
  | name :: args => do
    let log ← readArgs p.mem fuel p.argv
    let command ← selectCommand p.mem name args fuel
    return ⟨p.mem, command, log ++ p.log⟩

/-! ### `main` -/

/-- What `main` does for all to see: it passes the line at `line` to `process_line`, or it prints
`Line too long; ignored`.  The first number counts the newlines that have been found before. -/
inductive Event where
  | passed (n : ℕ) (mem : Memory) (line : ℕ)
  | tooLong (n : ℕ)

/-- The variables of `main`; and, which are not kept by the program, the number of newlines that have been found, the
events, and the indices that were used. -/
structure State where
  input : Memory
  pos : ℕ
  linestart : ℕ
  done : Bool
  newlines : ℕ
  events : List Event
  log : List ℕ

/-- `read(0,&input[pos],BUFSIZE)` and what is done with the new text before it is scanned. -/
def readText (s : State) (chunk : List UInt8) : State :=
  let input := fun i => if s.pos ≤ i ∧ i < s.pos + chunk.length then chunk.getD (i - s.pos) 0 else s.input i
  { s with
    input := Function.update input (s.pos + chunk.length) 0
    log := span s.pos chunk.length ++ s.log }

/-- One round of the loop that looks for newlines. -/
def scanStep (fuel : ℕ) (s : State) : Except Fault State :=
  let s := { s with log := s.pos :: s.log }
  if char '\n' = s.input s.pos then do
    let input := Function.update s.input s.pos 0
    let p ← processLine input s.linestart fuel
    return { s with
      input := p.mem
      pos := s.pos + 1
      linestart := s.pos + 1
      done := s.done || p.command = .exit
      newlines := s.newlines + 1
      events := s.events ++ [.passed s.newlines input s.linestart]
      log := p.log ++ s.log }
  else return { s with pos := s.pos + 1 }

/-- `while (pos < end)`, with `end - pos` bytes to go. -/
def scanLoop (fuel : ℕ) : ℕ → State → Except Fault State
  | 0, s => .ok s
  | n + 1, s => do
    let s ← scanStep fuel s
    scanLoop fuel n s

/-- The rest of a line is moved to the beginning of the array. -/
def keepRest (s : State) : State :=
  let len := s.pos - s.linestart
  { s with
    input := memmove s.input 0 s.linestart len
    pos := len
    linestart := 0
    log := (List.range len).map (s.linestart + ·) ++ List.range len ++ s.log }

def dropLong (s : State) : State :=
  if BUFSIZE ≤ s.pos then { s with pos := 0, events := s.events ++ [.tooLong s.newlines] } else s

/-- One round of the loop of `main`. -/
def mainStep (fuel : ℕ) (chunk : List UInt8) (s : State) : Except Fault State := do
  let s ← scanLoop fuel chunk.length (readText s chunk)
  return dropLong (keepRest s)

/-- The loop of `main`; the reads return the elements of the list and then nothing. -/
def mainLoop (fuel : ℕ) : List (List UInt8) → State → Except Fault State
  | [], s => .ok s
  | chunk :: chunks, s =>
    if s.done = false ∧ 0 < chunk.length then do
      let s ← mainStep fuel chunk s
      mainLoop fuel chunks s
    else .ok s

def start (input : Memory) : State := ⟨input, 0, 0, false, 0, [], []⟩

def main (fuel : ℕ) (input : Memory) (chunks : List (List UInt8)) : Except Fault State :=
  mainLoop fuel chunks (start input)

end AdelaideOS.Shell
