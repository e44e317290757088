import AdelaideOS.Process.Model

/-!
# The ready and suspended lists

`list_add` never writes `prev` and writes `next` only when the list has a first node, so it relies on the
node's pointers being null; `list_remove` is also run on processes that are on no list.  `Layout` states
what makes both safe: the two lists are well formed and disjoint, and a process on neither has null
pointers.  Each macro keeps a layout and changes the node lists as expected:

* **`Layout.addReady`**, **`Layout.addSuspended`** — for a process on neither list;
* **`Layout.removeReady`**, **`Layout.removeSuspended`** — the process is on neither list afterwards,
  whether it was on the list before or on none.
-/

namespace AdelaideOS.Process

open AdelaideOS.Lib.Dlist

/-! ### The macros on one list -/

section Macros

variable {L : Links ℕ} {e : Ends ℕ} {xs : List ℕ} {x : ℕ}

/-- The pointers of the nodes outside `xs` are the same in both link tables. -/
def SameOff (xs : List ℕ) (L L' : Links ℕ) : Prop :=
  ∀ y, y ∉ xs → L'.next y = L.next y ∧ L'.prev y = L.prev y

theorem listAdd_spec (h : IsDlist L e xs) (hx : x ∉ xs) (hn : L.next x = none)
    (hp : L.prev x = none) :
    IsDlist (listAdd L e x).1 (listAdd L e x).2 (x :: xs) ∧
      SameOff (x :: xs) L (listAdd L e x).1 := by
  cases xs with
  | nil =>
    have hf : e.first = none := h.first_eq
    have heq : listAdd L e x = (L, ⟨some x, some x⟩) := by simp [listAdd, hf]
    rw [heq]
    refine ⟨?_, fun _ _ => ⟨rfl, rfl⟩⟩
    exact h.push hx hn hp (by simp) (by simp) (by simp)
  | cons f xs =>
    have hf : e.first = some f := h.first_eq
    have heq : listAdd L e x =
        ({ next := Function.update L.next x (some f)
           prev := Function.update L.prev f (some x) }, ⟨some x, e.last⟩) := by
      simp [listAdd, hf]
    have hxf : x ≠ f := by
      intro hxf
      exact hx (by simp [hxf])
    have hne : ∀ y ∈ f :: xs, y ≠ x := by
      intro y hy hyx
      rw [hyx] at hy
      exact hx hy
    rw [heq]
    constructor
    · have hlast : e.last = (x :: f :: xs).getLast? := by
        rw [h.last_eq, List.getLast?_cons_cons]
      rw [hlast]
      apply h.push hx
      · simp
      · simp [Function.update_of_ne hxf, hp]
      · intro y hy
        obtain rfl : f = y := by simpa using hy
        simp
      · intro y hy
        simp [Function.update_of_ne (hne y hy)]
      · intro y hy hyf
        have hyf' : y ≠ f := by
          intro h'
          exact hyf (by simp [h'])
        simp [Function.update_of_ne hyf']
    · intro y hy
      simp only [List.mem_cons, not_or] at hy
      simp [Function.update_of_ne hy.1, Function.update_of_ne hy.2.1]

/-- The pointers after `list_remove` of a node that is not its own successor. -/
theorem listRemove_links (hself : L.next x ≠ some x) (y : ℕ) :
    (listRemove L e x).1.next y =
        (if y = x then none else if L.prev x = some y then L.next x else L.next y) ∧
      (listRemove L e x).1.prev y =
        (if y = x then none else if L.next x = some y then L.prev x else L.prev y) := by
  simp only [listRemove, joinNeighbours]
  cases hn : L.next x with
  | none =>
    cases hp : L.prev x with
    | none => simp [Function.update_apply]
    | some p => simp [hn, Function.update_apply, eq_comm]
  | some n =>
    have hxn : x ≠ n := by
      intro h
      exact hself (by rw [hn, ← h])
    cases hp : L.prev x with
    | none =>
      simp [Function.update_apply, hxn, hp, eq_comm]
    | some p =>
      simp [Function.update_apply, hxn, hp, hn, eq_comm]

/-- `list_remove` of a node with null pointers that is at neither end does nothing. -/
theorem listRemove_off (hn : L.next x = none) (hp : L.prev x = none) (hf : e.first ≠ some x)
    (hl : e.last ≠ some x) : listRemove L e x = (L, e) := by
  have hends : removeEnds L e x = e := by
    cases e
    simp_all [removeEnds]
  have hjoin : joinNeighbours L x = L := by simp [joinNeighbours, hn, hp]
  simp only [listRemove, hends, hjoin]
  rw [← hn, Function.update_eq_self, hn, ← hp, Function.update_eq_self]

theorem listRemove_spec (h : IsDlist L e xs) (hx : x ∈ xs) :
    IsDlist (listRemove L e x).1 (listRemove L e x).2 (xs.erase x) ∧
      SameOff xs L (listRemove L e x).1 ∧
      (listRemove L e x).1.next x = none ∧ (listRemove L e x).1.prev x = none := by
  obtain ⟨l, r, rfl⟩ := List.append_of_mem hx
  have hnd := h.nodup
  have hxl : x ∉ l := by
    intro hxl
    exact (List.nodup_append.mp hnd).2.2 x hxl x (by simp) rfl
  have hxr : x ∉ r := (List.nodup_cons.mp (List.nodup_append.mp hnd).2.1).1
  obtain ⟨hnx, hpx⟩ := h.linked l x r rfl
  have hself : L.next x ≠ some x := by
    rw [hnx]
    intro hr
    exact hxr (List.mem_of_head? hr)
  have hlinks := listRemove_links (e := e) hself
  have herase : (l ++ x :: r).erase x = l ++ r := by
    rw [List.erase_append_right _ hxl, List.erase_cons_head]
  refine ⟨?_, ?_, ?_, ?_⟩
  · have hends : (listRemove L e x).2 = ⟨(l ++ r).head?, (l ++ r).getLast?⟩ := by
      have hfirst := h.first_eq
      have hlast := h.last_eq
      simp only [listRemove, removeEnds, Ends.mk.injEq]
      constructor
      · cases l with
        | nil => simp [hfirst, hnx]
        | cons a l =>
          have hax : a ≠ x := by
            intro h'
            exact hxl (by simp [h'])
          simp [hfirst, hax]
      · rcases List.eq_nil_or_concat' r with rfl | ⟨r', z, rfl⟩
        · simp [hlast, hpx]
        · have hzx : z ≠ x := by
            intro h'
            exact hxr (by simp [h'])
          have hz : e.last = some z := by
            rw [hlast, ← List.cons_append, ← List.append_assoc, List.getLast?_concat]
          rw [hz, if_neg (by simpa using hzx), ← List.append_assoc, List.getLast?_concat]
    rw [herase, hends]
    have hne : ∀ y ∈ l ++ r, y ≠ x := by
      intro y hy hyx
      rw [hyx] at hy
      rcases List.mem_append.mp hy with h' | h'
      · exact hxl h'
      · exact hxr h'
    apply h.unlink
    · intro y hy
      have hyx : y ≠ x := hne y (by simp [List.mem_of_getLast? hy])
      rw [(hlinks y).1, if_neg hyx, if_pos (by rw [hpx, hy])]
    · intro y hy
      have hyx : y ≠ x := hne y (by simp [List.mem_of_head? hy])
      rw [(hlinks y).2, if_neg hyx, if_pos (by rw [hnx, hy])]
    · intro y hy hyl
      rw [(hlinks y).1, if_neg (hne y hy), if_neg (by rwa [hpx])]
    · intro y hy hyr
      rw [(hlinks y).2, if_neg (hne y hy), if_neg (by rwa [hnx])]
  · intro y hy
    have hyx : y ≠ x := by
      intro h'
      exact hy (by simp [h'])
    have hyp : L.prev x ≠ some y := by
      rw [hpx]
      intro h'
      exact hy (by simp [List.mem_of_getLast? h'])
    have hyn : L.next x ≠ some y := by
      rw [hnx]
      intro h'
      exact hy (by simp [List.mem_of_head? h'])
    rw [(hlinks y).1, (hlinks y).2, if_neg hyx, if_neg hyx, if_neg hyp, if_neg hyn]
    exact ⟨rfl, rfl⟩
  · rw [(hlinks x).1, if_pos rfl]
  · rw [(hlinks x).2, if_pos rfl]

end Macros

/-! ### The two lists together -/

/-- Two disjoint lists; processes on neither have null pointers. -/
structure Layout (L : Links ℕ) (ready suspended : Ends ℕ) (R U : List ℕ) : Prop where
  ready : IsDlist L ready R
  suspended : IsDlist L suspended U
  disjoint : ∀ p ∈ R, p ∉ U
  off : ∀ p, p ∉ R → p ∉ U → L.next p = none ∧ L.prev p = none

section Layout

variable {L : Links ℕ} {e₁ e₂ : Ends ℕ} {R U : List ℕ} {p : ℕ}

/-- The two lists are interchangeable. -/
theorem Layout.swap (h : Layout L e₁ e₂ R U) : Layout L e₂ e₁ U R :=
  ⟨h.suspended, h.ready, fun p hU hR => h.disjoint p hR hU, fun p hU hR => h.off p hR hU⟩

/-- The nodes determine everything. -/
theorem Layout.unique {L' : Links ℕ} {e₁' e₂' : Ends ℕ} (h : Layout L e₁ e₂ R U)
    (h' : Layout L' e₁' e₂' R U) : L' = L ∧ e₁' = e₁ ∧ e₂' = e₂ := by
  have hlinks : ∀ x, L'.next x = L.next x ∧ L'.prev x = L.prev x := by
    intro x
    by_cases hR : x ∈ R
    · exact h.ready.links_eq h'.ready hR
    · by_cases hU : x ∈ U
      · exact h.suspended.links_eq h'.suspended hU
      · obtain ⟨h1, h2⟩ := h.off x hR hU
        obtain ⟨h1', h2'⟩ := h'.off x hR hU
        rw [h1, h2, h1', h2']
        exact ⟨rfl, rfl⟩
  refine ⟨?_, h.ready.ends_eq h'.ready, h.suspended.ends_eq h'.suspended⟩
  cases L with
  | mk next prev =>
    cases L' with
    | mk next' prev' =>
      have h1 : next' = next := funext fun x => (hlinks x).1
      have h2 : prev' = prev := funext fun x => (hlinks x).2
      rw [h1, h2]

theorem Layout.add (h : Layout L e₁ e₂ R U) (hR : p ∉ R) (hU : p ∉ U) :
    Layout (listAdd L e₁ p).1 (listAdd L e₁ p).2 e₂ (p :: R) U := by
  obtain ⟨hn, hp⟩ := h.off p hR hU
  obtain ⟨hlist, hsame⟩ := listAdd_spec h.ready hR hn hp
  have hdis : ∀ q ∈ U, q ∉ p :: R := by
    intro q hq hmem
    rcases List.mem_cons.mp hmem with rfl | hmem
    · exact hU hq
    · exact h.disjoint q hmem hq
  refine ⟨hlist, h.suspended.congr fun q hq => hsame q (hdis q hq), ?_, ?_⟩
  · intro q hq hqU
    exact hdis q hqU hq
  · intro q hq hqU
    rw [(hsame q hq).1, (hsame q hq).2]
    exact h.off q (fun h' => hq (List.mem_cons_of_mem _ h')) hqU

theorem Layout.remove (h : Layout L e₁ e₂ R U) (hU : p ∉ U) :
    Layout (listRemove L e₁ p).1 (listRemove L e₁ p).2 e₂ (R.erase p) U := by
  by_cases hR : p ∈ R
  · obtain ⟨hlist, hsame, hn, hp⟩ := listRemove_spec h.ready hR
    refine ⟨hlist, h.suspended.congr fun q hq => hsame q fun hqR => h.disjoint q hqR hq, ?_, ?_⟩
    · intro q hq
      exact h.disjoint q (List.mem_of_mem_erase hq)
    · intro q hq hqU
      rw [h.ready.nodup.mem_erase_iff, not_and_or, not_not] at hq
      by_cases hqp : q = p
      · rw [hqp]
        exact ⟨hn, hp⟩
      · have hqR : q ∉ R := by
          intro h'
          rcases hq with hq | hq
          · exact hqp hq
          · exact hq h'
        rw [(hsame q hqR).1, (hsame q hqR).2]
        exact h.off q hqR hqU
  · obtain ⟨hn, hp⟩ := h.off p hR hU
    have hf : e₁.first ≠ some p := fun hf => hR (h.ready.first_mem hf)
    have hl : e₁.last ≠ some p := by
      rw [h.ready.last_eq]
      exact fun hl => hR (List.mem_of_getLast? hl)
    rw [listRemove_off hn hp hf hl, List.erase_of_not_mem hR]
    exact h

end Layout

variable {S : Sched} {R U : List ℕ} {p : ℕ}

theorem Layout.addReady (h : Layout S.links S.ready S.suspended R U) (hR : p ∉ R) (hU : p ∉ U) :
    Layout (S.addReady p).links (S.addReady p).ready (S.addReady p).suspended (p :: R) U :=
  h.add hR hU

theorem Layout.addSuspended (h : Layout S.links S.ready S.suspended R U) (hR : p ∉ R)
    (hU : p ∉ U) :
    Layout (S.addSuspended p).links (S.addSuspended p).ready (S.addSuspended p).suspended
      R (p :: U) :=
  (h.swap.add hU hR).swap

theorem Layout.removeReady (h : Layout S.links S.ready S.suspended R U) (hU : p ∉ U) :
    Layout (S.removeReady p).links (S.removeReady p).ready (S.removeReady p).suspended
      (R.erase p) U :=
  h.remove hU

theorem Layout.removeSuspended (h : Layout S.links S.ready S.suspended R U) (hR : p ∉ R) :
    Layout (S.removeSuspended p).links (S.removeSuspended p).ready
      (S.removeSuspended p).suspended R (U.erase p) :=
  (h.swap.remove hR).swap

end AdelaideOS.Process
