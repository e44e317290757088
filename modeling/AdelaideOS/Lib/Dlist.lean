import Mathlib.Tactic

/-!
# Doubly linked lists

`Links` holds the two pointers of every node, `Ends` the two pointers of a list head.
`IsDlist L e xs` says that `e` is the head of a null-terminated doubly linked list whose nodes are `xs`, in
order: each node points to its two neighbours, and no node occurs twice.

* **`IsDlist.links_eq`**, **`IsDlist.unique`** — the nodes determine the pointers, and the pointers the nodes;
* **`IsDlist.congr`** — only the pointers of the nodes on the list matter;
* **`IsDlist.push`** — a new first node;
* **`IsDlist.unlink`** — the neighbours of a node are joined and the node is taken out.
-/

namespace AdelaideOS.Lib.Dlist

variable {α : Type*}

/-- The pointers of all nodes. -/
structure Links (α : Type*) where
  next : α → Option α
  prev : α → Option α

/-- The pointers of a list head. -/
structure Ends (α : Type*) where
  first : Option α
  last : Option α

/-- Every node of `xs` points to its neighbours in `xs`. -/
def Linked (L : Links α) (xs : List α) : Prop :=
  ∀ l x r, xs = l ++ x :: r → L.next x = r.head? ∧ L.prev x = l.getLast?

/-- `e` heads the doubly linked list with nodes `xs`. -/
structure IsDlist (L : Links α) (e : Ends α) (xs : List α) : Prop where
  nodup : xs.Nodup
  first_eq : e.first = xs.head?
  last_eq : e.last = xs.getLast?
  linked : Linked L xs

variable {L L' : Links α} {e : Ends α} {xs : List α}

theorem isDlist_nil (L : Links α) : IsDlist L ⟨none, none⟩ [] := by
  refine ⟨List.nodup_nil, rfl, rfl, ?_⟩
  intro l x r h
  simp at h

/-- The successor of a node is a node. -/
theorem IsDlist.next_mem (h : IsDlist L e xs) {x y : α} (hx : x ∈ xs) (hy : L.next x = some y) :
    y ∈ xs := by
  obtain ⟨l, r, rfl⟩ := List.append_of_mem hx
  rw [(h.linked l x r rfl).1] at hy
  have hr : y ∈ r := List.mem_of_head? hy
  simp [hr]

/-- The first node is a node. -/
theorem IsDlist.first_mem (h : IsDlist L e xs) {x : α} (hx : e.first = some x) : x ∈ xs := by
  rw [h.first_eq] at hx
  exact List.mem_of_head? hx

/-- The nodes met by following `next` from a pointer. -/
inductive Walk (next : α → Option α) : Option α → α → Prop where
  | here (x : α) : Walk next (some x) x
  | further {x y : α} : Walk next (next x) y → Walk next (some x) y

/-- A walk from a node stays on the list. -/
theorem IsDlist.mem_of_walk (h : IsDlist L e xs) {s : Option α} {y : α}
    (hw : Walk L.next s y) (hs : ∀ x, s = some x → x ∈ xs) : y ∈ xs := by
  induction hw with
  | here x => exact hs x rfl
  | @further x y _ ih =>
    apply ih
    intro z hz
    exact h.next_mem (hs x rfl) hz

/-- The nodes determine the pointers of the head. -/
theorem IsDlist.ends_eq {e' : Ends α} (h : IsDlist L e xs) (h' : IsDlist L' e' xs) : e' = e := by
  cases e with
  | mk first last =>
    cases e' with
    | mk first' last' =>
      have h1 : first' = first := h'.first_eq.trans h.first_eq.symm
      have h2 : last' = last := h'.last_eq.trans h.last_eq.symm
      rw [h1, h2]

/-- The nodes determine their pointers. -/
theorem IsDlist.links_eq {e' : Ends α} (h : IsDlist L e xs) (h' : IsDlist L' e' xs) {x : α}
    (hx : x ∈ xs) : L'.next x = L.next x ∧ L'.prev x = L.prev x := by
  obtain ⟨l, r, hxs⟩ := List.append_of_mem hx
  obtain ⟨h1, h2⟩ := h.linked l x r hxs
  obtain ⟨h1', h2'⟩ := h'.linked l x r hxs
  exact ⟨h1'.trans h1.symm, h2'.trans h2.symm⟩

/-- From equal heads on, the pointers lead through the same nodes. -/
theorem IsDlist.unique_from {e' : Ends α} {ys l s t : List α} (h : IsDlist L e xs) (h' : IsDlist L e' ys)
    (hxs : xs = l ++ s) (hys : ys = l ++ t) (hhead : s.head? = t.head?) : s = t := by
  induction s generalizing l t with
  | nil => exact (List.head?_eq_none_iff.mp hhead.symm).symm
  | cons x s ih =>
    cases t with
    | nil => cases hhead
    | cons y t =>
      obtain rfl : x = y := Option.some.inj hhead
      have hnext := (h.linked l x s hxs).1.symm.trans (h'.linked l x t hys).1
      have hrest : s = t := ih (l := l ++ [x]) (by simp [hxs]) (by simp [hys]) hnext
      rw [hrest]

/-- The pointers determine the nodes. -/
theorem IsDlist.unique {ys : List α} (h : IsDlist L e xs) (h' : IsDlist L e ys) : xs = ys :=
  h.unique_from (l := []) h' rfl rfl (h.first_eq.symm.trans h'.first_eq)

/-- Only the pointers of the nodes on the list matter. -/
theorem IsDlist.congr (h : IsDlist L e xs)
    (hL : ∀ x ∈ xs, L'.next x = L.next x ∧ L'.prev x = L.prev x) : IsDlist L' e xs := by
  refine ⟨h.nodup, h.first_eq, h.last_eq, ?_⟩
  intro l x r heq
  have hx : x ∈ xs := by simp [heq]
  rw [(hL x hx).1, (hL x hx).2]
  exact h.linked l x r heq

/-- **Push.**  The new first node points to the old one, which points back. -/
theorem IsDlist.push (h : IsDlist L e xs) {x : α} (hx : x ∉ xs) (hnext : L'.next x = xs.head?)
    (hprev : L'.prev x = none) (hback : ∀ y, xs.head? = some y → L'.prev y = some x)
    (hn : ∀ y ∈ xs, L'.next y = L.next y)
    (hp : ∀ y ∈ xs, xs.head? ≠ some y → L'.prev y = L.prev y) :
    IsDlist L' ⟨some x, (x :: xs).getLast?⟩ (x :: xs) := by
  refine ⟨List.nodup_cons.mpr ⟨hx, h.nodup⟩, rfl, rfl, ?_⟩
  intro l y r heq
  cases l with
  | nil =>
    obtain ⟨rfl, rfl⟩ : x = y ∧ xs = r := by simpa using heq
    exact ⟨hnext, hprev⟩
  | cons a l =>
    obtain ⟨rfl, hxs⟩ : x = a ∧ xs = l ++ y :: r := by simpa using heq
    have hy : y ∈ xs := by simp [hxs]
    obtain ⟨h₁, h₂⟩ := h.linked l y r hxs
    refine ⟨by rw [hn y hy, h₁], ?_⟩
    cases l with
    | nil => exact hback y (by simp [hxs])
    | cons b l =>
      have hne : xs.head? ≠ some y := by
        intro hb
        obtain rfl : b = y := by simpa [hxs] using hb
        have hnd := h.nodup
        rw [hxs] at hnd
        simp at hnd
      rw [hp y hy hne, h₂]
      simp [List.getLast?_cons_cons]

/-- Splitting a list at `y` when the list has lost the node `x` between `l` and `r`. -/
theorem split_cases {l r a b : List α} {y : α} (h : l ++ r = a ++ y :: b) :
    (∃ c, l = a ++ y :: c ∧ b = c ++ r) ∨ (∃ c, r = c ++ y :: b ∧ a = l ++ c) := by
  rcases List.append_eq_append_iff.mp h with ⟨c, rfl, hr⟩ | ⟨c, rfl, hc⟩
  · exact Or.inr ⟨c, hr, rfl⟩
  · cases c with
    | nil => exact Or.inr ⟨[], by simpa using hc.symm, by simp⟩
    | cons z c =>
      obtain ⟨rfl, rfl⟩ : y = z ∧ b = c ++ r := by simpa using hc
      exact Or.inl ⟨c, rfl, rfl⟩

/-- **Unlink.**  Joining the two neighbours of `x` takes exactly `x` out. -/
theorem IsDlist.unlink {l r : List α} {x : α} (h : IsDlist L e (l ++ x :: r))
    (hl : ∀ y, l.getLast? = some y → L'.next y = L.next x)
    (hr : ∀ y, r.head? = some y → L'.prev y = L.prev x)
    (hn : ∀ y ∈ l ++ r, l.getLast? ≠ some y → L'.next y = L.next y)
    (hp : ∀ y ∈ l ++ r, r.head? ≠ some y → L'.prev y = L.prev y) :
    IsDlist L' ⟨(l ++ r).head?, (l ++ r).getLast?⟩ (l ++ r) := by
  have hnd : (l ++ r).Nodup := h.nodup.sublist (by simp)
  obtain ⟨hxn, hxp⟩ := h.linked l x r rfl
  refine ⟨hnd, rfl, rfl, ?_⟩
  intro a y b heq
  rcases split_cases heq with ⟨c, rfl, rfl⟩ | ⟨c, rfl, rfl⟩
  · -- `y` stands before the gap
    have hy : y ∈ a ++ y :: c ++ r := by simp
    obtain ⟨h₁, h₂⟩ := h.linked a y (c ++ x :: r) (by simp)
    have hyr : r.head? ≠ some y := by
      intro hb
      have hmem := List.mem_of_head? hb
      rw [List.nodup_append] at hnd
      exact hnd.2.2 y (by simp) y hmem rfl
    refine ⟨?_, by rw [hp y hy hyr, h₂]⟩
    cases c with
    | nil => rw [hl y (by simp), hxn, List.nil_append]
    | cons z c =>
      have hyl : (a ++ y :: z :: c).getLast? ≠ some y := by
        intro hb
        have hmem : y ∈ z :: c := by
          have hlast : (z :: c).getLast? = some y := by
            rw [← hb]
            simp [List.getLast?_append, List.getLast?_cons]
          exact List.mem_of_getLast? hlast
        have hnd' := (List.nodup_append.mp (List.nodup_append.mp hnd).1).2.1
        exact (List.nodup_cons.mp hnd').1 hmem
      rw [hn y hy hyl, h₁]
      simp
  · -- `y` stands after the gap
    have hy : y ∈ l ++ (c ++ y :: b) := by simp
    obtain ⟨h₁, h₂⟩ := h.linked (l ++ x :: c) y b (by simp)
    have hyl : l.getLast? ≠ some y := by
      intro hb
      have hmem := List.mem_of_getLast? hb
      rw [List.nodup_append] at hnd
      exact hnd.2.2 y hmem y (by simp) rfl
    refine ⟨by rw [hn y hy hyl, h₁], ?_⟩
    cases c with
    | nil => rw [hr y (by simp), hxp, List.append_nil]
    | cons z c =>
      have hyr : (z :: c ++ y :: b).head? ≠ some y := by
        intro hb
        obtain rfl : z = y := by simpa using hb
        have hnd' := (List.nodup_append.mp hnd).2.1
        simp at hnd'
      rw [hp y hy hyr, h₂]
      simp [List.getLast?_append, List.getLast?_cons_cons]

end AdelaideOS.Lib.Dlist
