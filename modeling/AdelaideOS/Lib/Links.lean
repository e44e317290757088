import Mathlib.Tactic

/-!
# Singly linked chains

A chain is the list of nodes met by following a link function from a head to a sentinel.
`Chain next nil head xs` says that the walk from `head` visits exactly `xs`, in order, and then stops
at `nil`.  Since the walk is deterministic the list is determined by the head (`Chain.unique`), so a
chain that exists is acyclic and ends.

* **`Chain.congr`** — only the links of the nodes on the chain matter;
* **`Chain.push`** — a new head in front of a chain;
* **`Chain.unlink`** — redirecting the link of a predecessor takes one node out.
-/

namespace AdelaideOS.Lib.Links

variable {α : Type*}

/-- Following `next` from `head` visits `xs` in order and stops at `nil`. -/
def Chain (next : α → α) (nil : α) : α → List α → Prop
  | head, [] => head = nil
  | head, x :: xs => head = x ∧ x ≠ nil ∧ Chain next nil (next x) xs

variable {next next' : α → α} {nil : α}

/-- A chain from the sentinel is empty. -/
theorem Chain.eq_nil_of_head {xs : List α} (h : Chain next nil nil xs) : xs = [] := by
  cases xs with
  | nil => rfl
  | cons x xs =>
    obtain ⟨hx, hne, -⟩ := h
    exact absurd hx.symm hne

/-- A chain from a proper node starts with that node. -/
theorem Chain.eq_cons_of_head_ne {head : α} {xs : List α} (h : Chain next nil head xs)
    (hne : head ≠ nil) : ∃ ys, xs = head :: ys ∧ Chain next nil (next head) ys := by
  cases xs with
  | nil => exact absurd h hne
  | cons x xs =>
    obtain ⟨rfl, -, hrest⟩ := h
    exact ⟨xs, rfl, hrest⟩

/-- The head alone decides whether the chain is empty. -/
theorem Chain.head_eq_nil_iff {head : α} {xs : List α} (h : Chain next nil head xs) :
    head = nil ↔ xs = [] := by
  constructor
  · rintro rfl
    exact h.eq_nil_of_head
  · rintro rfl
    exact h

/-- The nodes visited are determined by the head. -/
theorem Chain.unique {head : α} {xs ys : List α} (hx : Chain next nil head xs)
    (hy : Chain next nil head ys) : xs = ys := by
  induction xs generalizing head ys with
  | nil =>
    obtain rfl : head = nil := hx
    exact hy.eq_nil_of_head.symm
  | cons x xs ih =>
    obtain ⟨rfl, hne, hrest⟩ := hx
    obtain ⟨zs, rfl, hzs⟩ := hy.eq_cons_of_head_ne hne
    rw [ih hrest hzs]

/-- Only the links of the nodes on the chain matter. -/
theorem Chain.congr {head : α} {xs : List α} (h : Chain next nil head xs)
    (hn : ∀ x ∈ xs, next' x = next x) : Chain next' nil head xs := by
  induction xs generalizing head with
  | nil => exact h
  | cons x xs ih =>
    obtain ⟨rfl, hne, hrest⟩ := h
    refine ⟨rfl, hne, ?_⟩
    rw [hn head List.mem_cons_self]
    exact ih hrest fun y hy => hn y (List.mem_cons_of_mem _ hy)

/-- A node whose link is the old head becomes the new head. -/
theorem Chain.push {head x : α} {xs : List α} (h : Chain next nil head xs) (hx : x ≠ nil)
    (hlink : next' x = head) (hn : ∀ y ∈ xs, next' y = next y) :
    Chain next' nil x (x :: xs) :=
  ⟨rfl, hx, by rw [hlink]; exact h.congr hn⟩

/-- **Unlink.**  When the only changed link is that of the node before `x`, and it now skips `x`, the
chain loses exactly `x`. -/
theorem Chain.unlink {head p x : α} {l r : List α}
    (h : Chain next nil head (l ++ p :: x :: r)) (hp : next' p = next x)
    (hn : ∀ y ∈ l ++ p :: x :: r, y ≠ p → next' y = next y)
    (hnd : (l ++ p :: x :: r).Nodup) : Chain next' nil head (l ++ p :: r) := by
  induction l generalizing head with
  | nil =>
    obtain ⟨rfl, hne, rfl, -, hrest⟩ := h
    simp only [List.nil_append, List.nodup_cons, List.mem_cons, not_or] at hnd
    refine ⟨rfl, hne, ?_⟩
    rw [hp]
    refine hrest.congr fun y hy => hn y (by simp [hy]) ?_
    rintro rfl
    exact hnd.1.2 hy
  | cons a l ih =>
    obtain ⟨rfl, hne, hrest⟩ := h
    simp only [List.cons_append, List.nodup_cons] at hnd
    refine ⟨rfl, hne, ?_⟩
    have ha : head ≠ p := by
      rintro rfl
      exact hnd.1 (by simp)
    rw [hn head (by simp) ha]
    exact ih hrest (fun y hy => hn y (List.mem_cons_of_mem _ hy)) hnd.2

end AdelaideOS.Lib.Links
