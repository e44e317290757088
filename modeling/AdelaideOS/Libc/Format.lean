import AdelaideOS.Kernel.Filesystem
import AdelaideOS.Kernel.State

/-!
# `vsnprintf` and the functions around it

The text goes to a buffer of `size` bytes; characters that do not fit are counted and not stored.  A field is printed
first to learn its length; if it is aligned to the right it is then printed again behind the padding, over the
first text.

The buffer overlaps neither the format nor a string argument, so it is kept apart from the rest of memory and its bytes
are numbered from 0.  The arguments are the words that lie on the stack behind the last named parameter.
-/

namespace AdelaideOS.Libc

open AdelaideOS.Kernel AdelaideOS.Lib.Bytes

/-- What stays the same during a call: memory, the argument words, and the size of the buffer. -/
structure Call where
  mem : Memory
  args : ℕ → UInt32
  size : ℕ

/-- The buffer, `pos`, and the number of argument words that have been fetched; and, which is not kept by the program,
the addresses of the format at which a character has been looked at. -/
structure Printer where
  str : Memory
  pos : ℕ
  ap : ℕ
  seen : List ℕ

/-- An `int`, after arithmetic that may have overflowed. -/
def wrapInt (i : ℤ) : ℤ := toInt (ofInt i)

/-- The character at `c` is looked at. -/
def Printer.look (o : Printer) (c : ℕ) : Printer := { o with seen := c :: o.seen }

/-! ### Characters and numbers -/

def addchar (size : ℕ) (c : UInt8) (o : Printer) : Printer :=
  { o with
    str := if (o.pos + 1) % wordSize < size then Function.update o.str o.pos c else o.str
    pos := (o.pos + 1) % wordSize }

def hexdigits : List UInt8 :=
  ['0', '1', '2', '3', '4', '5', '6', '7', '8', '9', 'a', 'b', 'c', 'd', 'e', 'f'].map char

def hexdigit (i : ℕ) : UInt8 := hexdigits.getD i 0

/-- One round of the first loop of `print_num`, which changes `x` and `mult`. -/
def growStep (base : ℕ) (s : ℕ × ℕ) : ℕ × ℕ := (s.1 / base, s.2 * base % wordSize)

/-- One round of the second loop. -/
def shrinkStep (base : ℕ) (s : ℕ × ℕ) : ℕ × ℕ := (s.1 / base, s.2 / base)

def growLoop (base : ℕ) : ℕ → ℕ × ℕ → Except Fault (ℕ × ℕ)
  | 0, _ => .error .diverges
  | fuel + 1, s => if base ≤ s.1 then growLoop base fuel (growStep base s) else .ok s

def shrinkLoop (size val base : ℕ) : ℕ → ℕ × ℕ → Printer → Except Fault Printer
  | 0, _, _ => .error .diverges
  | fuel + 1, s, o =>
    if base ≤ s.1 then
      shrinkLoop size val base fuel (shrinkStep base s) (addchar size (hexdigit (val / s.2 % base)) o)
    else .ok o

def printNum (size fuel val base : ℕ) (o : Printer) : Except Fault Printer := do
  let s ← growLoop base fuel (val, 1)
  let o ← shrinkLoop size val base fuel (val, s.2) o
  return addchar size (hexdigit (val % base)) o

/-! ### Fields -/

/-- The loop of `%s`. -/
def stringLoop (mem : Memory) (size : ℕ) : ℕ → ℕ → Printer → Except Fault Printer
  | 0, _, _ => .error .diverges
  | fuel + 1, s, o =>
    if mem s = 0 then .ok o else stringLoop mem size fuel (s + 1) (addchar size (mem s) o)

/-- `print_field` for the conversion at `c`. -/
def printField (j : Call) (fuel c : ℕ) (o : Printer) : Except Fault Printer :=
  let o := o.look c
  let arg := (j.args o.ap).toNat
  let fetched := { o with ap := o.ap + 1 }
  if j.mem c = char 's' then stringLoop j.mem j.size fuel arg fetched
  else if j.mem c = char 'c' then .ok (addchar j.size (UInt8.ofNat arg) fetched)
  else if j.mem c = char 'd' then
    if toInt arg < 0 then
      printNum j.size fuel (ofInt (wrapInt (-toInt arg))) 10 (addchar j.size (char '-') fetched)
    else printNum j.size fuel arg 10 fetched
  else if j.mem c = char 'u' then printNum j.size fuel arg 10 fetched
  else if j.mem c = char 'p' then
    printNum j.size fuel arg 16 (addchar j.size (char 'x') (addchar j.size (char '0') fetched))
  else if j.mem c = char 'x' then printNum j.size fuel arg 16 fetched
  else .ok (addchar j.size (char '%') o)

/-- The loop over the digits of a width. -/
def padDigits (mem : Memory) : ℕ → ℕ → ℤ → Printer → Except Fault (ℤ × ℕ × Printer)
  | 0, _, _, _ => .error .diverges
  | fuel + 1, c, pad, o =>
    let o := o.look c
    if char '0' ≤ mem c ∧ mem c ≤ char '9' then
      padDigits mem fuel (c + 1) (wrapInt (pad * 10 + (mem c).toNat - (char '0').toNat)) o
    else .ok (pad, c, o)

/-- The loop that adds padding. -/
def padLoop (size : ℕ) : ℕ → Printer → Printer
  | 0, o => o
  | pad + 1, o => padLoop size pad (addchar size (char ' ') o)

/-! ### The loop over the format -/

/-- The loop of `vsnprintf` from the address `c` on; it ends with the address of the NUL that it has found. -/
def vsnprintfLoop (j : Call) : ℕ → ℕ → Printer → Except Fault (ℕ × Printer)
  | 0, _, _ => .error .diverges
  | fuel + 1, c, o =>
    let o := o.look c
    if j.mem c = 0 then .ok (c, o)
    else if j.mem c = char '%' then do
      let rightAligned := j.mem (c + 1) ≠ char '-'
      let start := o.look (c + 1)
      let (pad, c, o) ← padDigits j.mem fuel (if rightAligned then c + 1 else c + 2) 0 start
      let o ← printField j fuel c o
      let pad := wrapInt (pad - ((o.pos : ℤ) - start.pos))
      if rightAligned then do
        let o ← printField j fuel c (padLoop j.size pad.toNat { o with pos := start.pos, ap := start.ap })
        vsnprintfLoop j fuel (c + 1) o
      else vsnprintfLoop j fuel (c + 1) (padLoop j.size pad.toNat o)
    else vsnprintfLoop j fuel (c + 1) (addchar j.size (j.mem c) o)

/-- The NUL behind the text. -/
def terminate (size : ℕ) (o : Printer) : Memory :=
  if 0 < size then
    if (o.pos + 1) % wordSize < size then Function.update o.str o.pos 0 else Function.update o.str (size - 1) 0
  else o.str

/-- `vsnprintf` with the format at `format`: the value that is returned and the buffer. -/
def vsnprintf (j : Call) (fuel format : ℕ) (str : Memory) : Except Fault (ℤ × Memory) := do
  let (_, o) ← vsnprintfLoop j fuel format ⟨str, 0, 0, []⟩
  return (toInt o.pos, terminate j.size o)

/-- The buffer of `printf` and `kprintf`. -/
def PRINT_SIZE : ℕ := 4096

/-- The bytes that a function which formats into the buffer `buf` passes on: as many as `vsnprintf` has returned. -/
def printAll (mem : Memory) (args : ℕ → UInt32) (fuel format : ℕ) (buf : Memory) : Except Fault (List UInt8) := do
  let (len, buf) ← vsnprintf ⟨mem, args, PRINT_SIZE⟩ fuel format buf
  return (List.range (ofInt len)).map buf

/-- What `printf` passes to `write`. -/
def printf (mem : Memory) (args : ℕ → UInt32) (fuel format : ℕ) (buf : Memory) : Except Fault (List UInt8) :=
  printAll mem args fuel format buf

/-- What `kprintf` passes to `write_to_screen`. -/
def kprintf (mem : Memory) (args : ℕ → UInt32) (fuel format : ℕ) (buf : Memory) : Except Fault (List UInt8) :=
  printAll mem args fuel format buf

end AdelaideOS.Libc
