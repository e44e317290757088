import Mathlib.Tactic

/-!
# Processes that exchange messages

Each process runs a sequential program that sends messages to mailboxes and receives from its own one; a mailbox is
a queue.  `act p s` is what process `p` does next in its state `s`.  Which process moves next is not determined, so
a property of all `Reaches act N` is one of all interleavings.

* **`Reaches.invariant`** — what every step preserves holds of all interleavings;
* **`Stuck.box_nil`**, **`not_stuck`** — where nobody can move, whoever is to receive has an empty mailbox, and
  elsewhere there is something to send or a message to receive.
-/

namespace AdelaideOS.Lib.Actors

variable {P M L : Type*}

/-- The next thing a program does to mailboxes. -/
inductive Act (P M L : Type*) where
  | send (dest : P) (msg : M) (next : L)
  | receive (next : M → L)
  | stop

/-- The states of the programs, and what is in the mailboxes. -/
structure Net (P M L : Type*) where
  state : P → L
  box : P → List M

/-- Nothing has been sent. -/
def Net.init (s : P → L) : Net P M L := ⟨s, fun _ => []⟩

variable [DecidableEq P]

/-- The message is sent. -/
def Net.post (N : Net P M L) (p dest : P) (msg : M) (next : L) : Net P M L :=
  ⟨Function.update N.state p next, Function.update N.box dest (N.box dest ++ [msg])⟩

/-- The first message is received. -/
def Net.collect (N : Net P M L) (p : P) (next : L) (rest : List M) : Net P M L :=
  ⟨Function.update N.state p next, Function.update N.box p rest⟩

inductive Step (act : P → L → Act P M L) : Net P M L → Net P M L → Prop where
  | send {N : Net P M L} {p dest : P} {msg : M} {next : L} : act p (N.state p) = .send dest msg next →
      Step act N (N.post p dest msg next)
  | receive {N : Net P M L} {p : P} {next : M → L} {msg : M} {rest : List M} :
      act p (N.state p) = .receive next → N.box p = msg :: rest → Step act N (N.collect p (next msg) rest)

def Reaches (act : P → L → Act P M L) : Net P M L → Net P M L → Prop := Relation.ReflTransGen (Step act)

variable {act : P → L → Act P M L} {N N' : Net P M L} {p q dest : P} {msg : M} {next : L} {rest : List M}

/-- **Invariants** of all interleavings. -/
theorem Reaches.invariant {I : Net P M L → Prop} (h : Reaches act N N') (hN : I N)
    (hstep : ∀ N₁ N₂, I N₁ → Step act N₁ N₂ → I N₂) : I N' := by
  induction h with
  | refl => exact hN
  | tail _ hlast ih => exact hstep _ _ ih hlast

/-! ### What a step changes -/

@[simp] theorem Net.state_post_self (N : Net P M L) (p dest : P) (msg : M) (next : L) :
    (N.post p dest msg next).state p = next := Function.update_self _ _ _

theorem Net.state_post_of_ne (N : Net P M L) (msg : M) (next : L) (hq : q ≠ p) :
    (N.post p dest msg next).state q = N.state q := Function.update_of_ne hq _ _

@[simp] theorem Net.box_post_self (N : Net P M L) (p dest : P) (msg : M) (next : L) :
    (N.post p dest msg next).box dest = N.box dest ++ [msg] := Function.update_self _ _ _

theorem Net.box_post_of_ne (N : Net P M L) (msg : M) (next : L) (hq : q ≠ dest) :
    (N.post p dest msg next).box q = N.box q := Function.update_of_ne hq _ _

@[simp] theorem Net.state_collect_self (N : Net P M L) (p : P) (next : L) (rest : List M) :
    (N.collect p next rest).state p = next := Function.update_self _ _ _

theorem Net.state_collect_of_ne (N : Net P M L) (next : L) (rest : List M) (hq : q ≠ p) :
    (N.collect p next rest).state q = N.state q := Function.update_of_ne hq _ _

@[simp] theorem Net.box_collect_self (N : Net P M L) (p : P) (next : L) (rest : List M) :
    (N.collect p next rest).box p = rest := Function.update_self _ _ _

theorem Net.box_collect_of_ne (N : Net P M L) (next : L) (rest : List M) (hq : q ≠ p) :
    (N.collect p next rest).box q = N.box q := Function.update_of_ne hq _ _

/-! ### Runs that end -/

/-- A run of `n` steps. -/
inductive Path (act : P → L → Act P M L) : ℕ → Net P M L → Net P M L → Prop where
  | nil (N : Net P M L) : Path act 0 N N
  | snoc {n : ℕ} {N₀ N₁ N₂ : Net P M L} : Path act n N₀ N₁ → Step act N₁ N₂ → Path act (n + 1) N₀ N₂

/-- Nobody can move. -/
def Stuck (act : P → L → Act P M L) (N : Net P M L) : Prop := ∀ N', ¬ Step act N N'

theorem Stuck.not_send {msg : M} {next : L} (h : Stuck act N) : act p (N.state p) ≠ .send dest msg next :=
  fun hact => h _ (.send hact)

/-- A process that is to receive has an empty mailbox. -/
theorem Stuck.box_nil {next : M → L} (h : Stuck act N) (hact : act p (N.state p) = .receive next) :
    N.box p = [] := by
  cases hbox : N.box p with
  | nil => rfl
  | cons msg rest => exact absurd (.receive hact hbox) (h _)

/-- Unless all are stuck, there is something to send, or a message to receive. -/
theorem not_stuck (h : ¬ Stuck act N) : ∃ p, (∃ dest msg next, act p (N.state p) = .send dest msg next) ∨
    ∃ next msg rest, act p (N.state p) = .receive next ∧ N.box p = msg :: rest := by
  unfold Stuck at h
  push Not at h
  obtain ⟨N', hstep⟩ := h
  cases hstep with
  | send hact => exact ⟨_, Or.inl ⟨_, _, _, hact⟩⟩
  | receive hact hbox => exact ⟨_, Or.inr ⟨_, _, _, hact, hbox⟩⟩

end AdelaideOS.Lib.Actors
