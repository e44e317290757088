import Mathlib.Data.List.DropRight
import Mathlib.Tactic

/-!
# `GenVersions`

`GenVersions.java` writes the source files of each version of the system: it resolves the conditionals on `USE_`
symbols for a given set of them, and keeps those on other symbols.  A line is a list of characters without its
terminator, and the stack holds the conditionals that are open, the innermost one first.
-/

namespace AdelaideOS.Versions

abbrev Line := List Char

/-- `String.trim`. -/
def trim (line : Line) : Line := (line.dropWhile (· ≤ ' ')).rdropWhile (· ≤ ' ')

/-- `String.startsWith`. -/
def startsWith (line start : Line) : Bool := start.isPrefixOf line

structure Condition where
  /-- `def`; `none` for `null`. -/
  name : Option Line
  set : Bool

def userland : Line := ['U', 'S', 'E', 'R', 'L', 'A', 'N', 'D']

def hashIf : Line := ['#', 'i', 'f', ' ']

def hashIfdef : Line := ['#', 'i', 'f', 'd', 'e', 'f', ' ']

def hashIfndef : Line := ['#', 'i', 'f', 'n', 'd', 'e', 'f', ' ']

def hashElse : Line := ['#', 'e', 'l', 's', 'e']

def hashEndif : Line := ['#', 'e', 'n', 'd', 'i', 'f']

def hashDefineUse : Line := ['#', 'd', 'e', 'f', 'i', 'n', 'e', ' ', 'U', 'S', 'E', '_']

def hashInclude : Line := ['#', 'i', 'n', 'c', 'l', 'u', 'd', 'e']

/-- `def.startsWith("USE_")`. -/
def usesSymbol (name : Line) : Bool := startsWith name ['U', 'S', 'E', '_']

/-- One round of the loop of `canPrint`. -/
def Condition.passes (c : Condition) (defines : Line → Bool) : Bool :=
  match c.name with
  | none => c.set
  | some name =>
    if name = userland then true
    else if c.set && !defines name then false
    else if !c.set && defines name then false
    else true

def canPrint (stack : List Condition) (defines : Line → Bool) : Bool := stack.all fun c => c.passes defines

/-- The stack, the lines printed so far, and `hasContent`. -/
structure Stream where
  stack : List Condition
  printed : List Line
  hasContent : Bool

def Stream.push (st : Stream) (c : Condition) : Stream := { st with stack := c :: st.stack }

/-- `pw.println(line)` if `c` holds. -/
def Stream.printIf (st : Stream) (c : Bool) (line : Line) : Stream :=
  if c then { st with printed := st.printed ++ [line] } else st

/-- Whether the directive of a condition stays in the output: `(def != null) && !def.startsWith("USE_")`. -/
def Condition.stays (c : Condition) : Bool :=
  match c.name with
  | none => false
  | some name => !usesSymbol name

/-- One line; `none` for the exception of `stack.pop()` on an empty stack. -/
def processLine (defines : Line → Bool) (st : Stream) (line : Line) : Option Stream :=
  let trimmed := trim line
  if startsWith trimmed hashIf then
    if trimmed.drop 4 = ['0'] then some (st.push ⟨none, false⟩) else some (st.push ⟨none, true⟩)
  else if startsWith trimmed hashIfdef then
    let c : Condition := ⟨some (trimmed.drop 7), true⟩
    some ((st.printIf (c.stays && canPrint st.stack defines) line).push c)
  else if startsWith trimmed hashIfndef then
    let c : Condition := ⟨some (trimmed.drop 8), false⟩
    some ((st.printIf (c.stays && canPrint st.stack defines) line).push c)
  else if startsWith trimmed hashElse then
    match st.stack with
    | [] => none
    | cond :: rest =>
      let st : Stream := { st with stack := ⟨cond.name, !cond.set⟩ :: rest }
      some (st.printIf (cond.stays && canPrint st.stack defines) line)
  else if startsWith trimmed hashEndif then
    match st.stack with
    | [] => none
    | cond :: rest =>
      let st : Stream := { st with stack := rest }
      some (st.printIf (cond.stays && canPrint st.stack defines) line)
  else if startsWith trimmed hashDefineUse then some st
  else if canPrint st.stack defines then
    some { st with
      printed := st.printed ++ [line]
      hasContent := st.hasContent || (decide (0 < trimmed.length) && !startsWith trimmed hashInclude) }
  else some st

/-- The lines of a file, from an empty stack: what is printed, and `hasContent`. -/
def processStream (defines : Line → Bool) (text : List Line) : Option (List Line × Bool) := do
  let st ← text.foldlM (processLine defines) ⟨[], [], false⟩
  return (st.printed, st.hasContent)

end AdelaideOS.Versions
