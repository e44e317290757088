import Mathlib.Tactic

/-!
# How kernel code can stop

The kernel has no exceptions.  A failed `assert` prints a message and spins for ever, a page fault taken
in kernel mode prints the registers and halts, and a loop may simply not end.  In each of these cases no later
instruction of the kernel runs, so the model returns a `Fault` and no state from which to go on.

`wildPointer` is not such an end but a limit of the model.  The kernel has loaded or stored where the model keeps
no bytes, in memory of its own data say, and it goes on from there; what is proved about runs says nothing of that.
-/

namespace AdelaideOS

/-- The functions whose assertions the model checks. -/
inductive Site where
  | getBuddy
  | addToFreelist
  | removeFromFreelist
  | buddyAlloc
  | buddyFree
  | freePage
  | mapPage
  | lookupPage
  | unmapAndFreePage
  | mapNewPages
  | mapAndCopy
  | suspendProcess
  | resumeProcess
  | closeFilehandle
  | checkBufferFree
  | pipeWriterDestroy
  | pipeReaderDestroy
  | syscall
  deriving DecidableEq, Repr

/-- Why the kernel stopped. -/
inductive Fault where
  /-- `assert` failed in the given function. -/
  | assertion (site : Site)
  /-- `buddy_alloc` found no block: the `assert(0)` after "Memory exhausted". -/
  | memoryExhausted
  /-- A loop of the source does not end. -/
  | diverges
  /-- Kernel code touched an address that the active page directory does not map. -/
  | pageFault (address : ℕ)
  /-- Kernel code touched memory through a pointer that names none of its objects.  The model follows the kernel no
  further. -/
  | wildPointer
  deriving DecidableEq, Repr

/-- `assert(c)` in the function `site`. -/
def assert (site : Site) (c : Prop) [Decidable c] : Except Fault Unit :=
  if c then .ok () else .error (.assertion site)

@[simp]
theorem assert_pos {site : Site} {c : Prop} [Decidable c] (h : c) : assert site c = .ok () :=
  if_pos h

@[simp]
theorem assert_eq_ok {site : Site} {c : Prop} [Decidable c] {u : Unit} :
    assert site c = .ok u ↔ c := by
  by_cases h : c <;> simp [assert, h]

/-- A sequence of two computations succeeds exactly when both do. -/
theorem bind_eq_ok {α β : Type} {x : Except Fault α} {f : α → Except Fault β} {b : β} :
    (x >>= f) = .ok b ↔ ∃ a, x = .ok a ∧ f a = .ok b := by
  cases x with
  | error e => simp [bind, Except.bind]
  | ok a => simp [bind, Except.bind]

/-- A function of the result. -/
theorem map_eq_ok {α β : Type} {x : Except Fault α} {f : α → β} {b : β} :
    x.map f = .ok b ↔ ∃ a, x = .ok a ∧ f a = b := by
  cases x with
  | error e => simp [Except.map]
  | ok a => simp [Except.map]

@[simp]
theorem ok_bind {α β : Type} (a : α) (f : α → Except Fault β) :
    (Except.ok a >>= f) = f a := rfl

end AdelaideOS
