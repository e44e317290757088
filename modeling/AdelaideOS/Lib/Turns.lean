import Mathlib.Tactic

/-!
# Taking turns

The members of a list take turns in its order, over and over; `turns c xs` is the order in which they come when
`c` has just had its turn, or when nobody has.  The list itself does not move: only the place in it does.

* **`turns_rotate`** — when the head of the order has had its turn, it waits behind all others;
* **`idxOf_turns`** — newcomers join in front of the list and others leave it: a member's turn is put off by no
  more than the number of newcomers, as long as the one who has the turn stays.
-/

namespace AdelaideOS.Lib.Turns

variable {α : Type*}

/-- Some members of `xs` are left, and newcomers stand before them. -/
structure Shift (xs as bs ys : List α) : Prop where
  eq : ys = as ++ bs
  stay : bs.Sublist xs
  fresh : ∀ a ∈ as, a ∉ xs

theorem Shift.refl (xs : List α) : Shift xs [] xs xs := ⟨rfl, List.Sublist.refl _, by simp⟩

theorem Shift.arrive {x : α} {xs : List α} (hx : x ∉ xs) : Shift xs [x] xs (x :: xs) :=
  ⟨rfl, List.Sublist.refl _, by simpa using hx⟩

variable [DecidableEq α]

theorem Shift.leave (x : α) (xs : List α) : Shift xs [] (xs.erase x) (xs.erase x) :=
  ⟨rfl, List.erase_sublist, by simp⟩

/-- What stands behind `c`. -/
def after (c : α) : List α → List α
  | [] => []
  | x :: xs => if x = c then xs else after c xs

/-- What stands before `c`, and `c`. -/
def upTo (c : α) : List α → List α
  | [] => []
  | x :: xs => if x = c then [x] else x :: upTo c xs

def turns (c : Option α) (xs : List α) : List α :=
  match c with
  | some c => after c xs ++ upTo c xs
  | none => xs

variable {c x p : α} {o : Option α} {xs ys l r as bs ms ns : List α}

theorem upTo_append_after (c : α) (xs : List α) : upTo c xs ++ after c xs = xs := by
  induction xs with
  | nil => rfl
  | cons x xs ih =>
    by_cases hx : x = c
    · simp [upTo, after, hx]
    · simp [upTo, after, hx, ih]

theorem after_append_right (hc : c ∉ l) : after c (l ++ r) = after c r := by
  induction l with
  | nil => rfl
  | cons y l ih =>
    rw [List.mem_cons, not_or] at hc
    rw [List.cons_append, after, if_neg (Ne.symm hc.1), ih hc.2]

theorem upTo_append_right (hc : c ∉ l) : upTo c (l ++ r) = l ++ upTo c r := by
  induction l with
  | nil => rfl
  | cons y l ih =>
    rw [List.mem_cons, not_or] at hc
    rw [List.cons_append, upTo, if_neg (Ne.symm hc.1), ih hc.2, List.cons_append]

theorem after_of_not_mem (hc : c ∉ xs) : after c xs = [] := by
  have happ := after_append_right (r := []) hc
  rw [List.append_nil] at happ
  exact happ

theorem upTo_of_not_mem (hc : c ∉ xs) : upTo c xs = xs := by
  have happ := upTo_append_after c xs
  rw [after_of_not_mem hc, List.append_nil] at happ
  exact happ

/-- Nobody of the list has the turn. -/
theorem turns_of_not_mem (hc : c ∉ xs) : turns (some c) xs = xs := by
  rw [turns, after_of_not_mem hc, upTo_of_not_mem hc, List.nil_append]

/-- The order behind a member. -/
theorem turns_split (hc : c ∉ l) : turns (some c) (l ++ c :: r) = r ++ (l ++ [c]) := by
  rw [turns, after_append_right hc, upTo_append_right hc, after, if_pos rfl, upTo, if_pos rfl]

/-- Everybody gets a turn. -/
theorem turns_perm (o : Option α) (xs : List α) : (turns o xs).Perm xs := by
  cases o with
  | none => exact List.Perm.refl xs
  | some c =>
    have happ : (after c xs ++ upTo c xs).Perm (upTo c xs ++ after c xs) := List.perm_append_comm
    rw [upTo_append_after] at happ
    exact happ

theorem mem_turns : x ∈ turns o xs ↔ x ∈ xs := (turns_perm o xs).mem_iff

/-- The member whose turn it is was the head of a list that nobody has the turn of, or stands behind it. -/
theorem turns_head (hnd : xs.Nodup) (h : turns o xs = x :: ms) : turns (some x) xs = ms ++ [x] := by
  have hplain : xs = x :: ms → turns (some x) xs = ms ++ [x] := by
    rintro rfl
    exact turns_split (l := []) List.not_mem_nil
  cases o with
  | none => exact hplain h
  | some c =>
    by_cases hc : c ∈ xs
    · obtain ⟨l, r, rfl⟩ := List.append_of_mem hc
      have hcl : c ∉ l := fun hcl => (List.nodup_append.mp hnd).2.2 c hcl c (by simp) rfl
      rw [turns_split hcl] at h
      cases r with
      | nil => exact hplain h
      | cons y r =>
        obtain ⟨rfl, rfl⟩ : y = x ∧ r ++ (l ++ [c]) = ms := by simpa using h
        have hsplit : l ++ c :: y :: r = (l ++ [c]) ++ y :: r := by simp
        have hy : y ∉ l ++ [c] := by
          rw [hsplit] at hnd
          exact fun hy => (List.nodup_append.mp hnd).2.2 y hy y (by simp) rfl
        rw [hsplit, turns_split hy]
        simp
    · rw [turns_of_not_mem hc] at h
      exact hplain h

/-- **Rotation.**  The head of the order goes to its end, and everybody else moves up by one. -/
theorem turns_rotate (hnd : xs.Nodup) (hx : (turns o xs).head? = some x) (hp : p ∈ xs) (hne : p ≠ x) :
    (turns (some x) xs).idxOf p + 1 = (turns o xs).idxOf p := by
  cases hturns : turns o xs with
  | nil =>
    rw [hturns] at hx
    cases hx
  | cons y ms =>
    rw [hturns, List.head?_cons] at hx
    obtain rfl := Option.some.inj hx
    have hmem : p ∈ ms := by
      have hp' := (mem_turns (o := o)).mpr hp
      rw [hturns, List.mem_cons] at hp'
      exact hp'.resolve_left hne
    rw [turns_head hnd hturns, List.idxOf_append_of_mem hmem, List.idxOf_cons_ne _ (Ne.symm hne)]

/-! ### Newcomers and leavers -/

/-- Whoever stays moves up at most. -/
theorem idxOf_le_of_sublist (h : ms.Sublist ns) (hnd : ns.Nodup) (hp : p ∈ ms) : ms.idxOf p ≤ ns.idxOf p := by
  induction h with
  | slnil => exact Nat.le_refl _
  | @cons ms ns a h ih =>
    have ha : a ≠ p := by
      rintro rfl
      exact (List.nodup_cons.mp hnd).1 (h.subset hp)
    rw [List.idxOf_cons_ne _ ha]
    have hle := ih (List.nodup_cons.mp hnd).2 hp
    omega
  | @cons_cons ms ns a h ih =>
    by_cases ha : a = p
    · rw [ha, List.idxOf_cons_self]
      exact Nat.zero_le _
    · rw [List.idxOf_cons_ne _ ha, List.idxOf_cons_ne _ ha]
      have hmem : p ∈ ms := (List.mem_cons.mp hp).resolve_left (Ne.symm ha)
      have hle := ih (List.nodup_cons.mp hnd).2 hmem
      omega

/-- A block put between two parts delays the second part by its length. -/
theorem idxOf_insert_le (p : α) (ms as ns : List α) :
    (ms ++ (as ++ ns)).idxOf p ≤ (ms ++ ns).idxOf p + as.length := by
  rw [List.idxOf_append, List.idxOf_append, List.idxOf_append]
  split
  · omega
  · split
    · rename_i ha
      have hlt := List.idxOf_lt_length_of_mem ha
      omega
    · omega

/-- The members before and behind one that stays. -/
theorem sublist_parts (h : ms.Sublist ns) (hnd : ns.Nodup) (hc : c ∈ ms) :
    (after c ms).Sublist (after c ns) ∧ (upTo c ms).Sublist (upTo c ns) := by
  induction h with
  | slnil => cases hc
  | @cons ms ns a h ih =>
    have ha : a ≠ c := by
      rintro rfl
      exact (List.nodup_cons.mp hnd).1 (h.subset hc)
    obtain ⟨h₁, h₂⟩ := ih (List.nodup_cons.mp hnd).2 hc
    rw [after, if_neg ha, upTo, if_neg ha]
    exact ⟨h₁, h₂.cons a⟩
  | @cons_cons ms ns a h ih =>
    by_cases ha : a = c
    · rw [after, after, upTo, upTo, if_pos ha, if_pos ha, if_pos ha, if_pos ha]
      exact ⟨h, List.Sublist.refl _⟩
    · have hmem : c ∈ ms := (List.mem_cons.mp hc).resolve_left (Ne.symm ha)
      obtain ⟨h₁, h₂⟩ := ih (List.nodup_cons.mp hnd).2 hmem
      rw [after, after, upTo, upTo, if_neg ha, if_neg ha, if_neg ha, if_neg ha]
      exact ⟨h₁, h₂.cons_cons a⟩

/-- **Waiting.**  A member is put off by newcomers only, as long as the one who has the turn stays. -/
theorem idxOf_turns (h : Shift xs as bs ys) (hxs : xs.Nodup) (hys : ys.Nodup) (hp : p ∈ bs)
    (hstay : ∀ c, o = some c → c ∈ xs → c ∈ ys) :
    (turns o ys).idxOf p ≤ (turns o xs).idxOf p + as.length := by
  obtain ⟨rfl, hsub, hfresh⟩ := h
  have hfront : (as ++ bs).idxOf p ≤ xs.idxOf p + as.length := by
    have h₁ := idxOf_insert_le p [] as bs
    have h₂ := idxOf_le_of_sublist hsub hxs hp
    rw [List.nil_append, List.nil_append] at h₁
    omega
  cases o with
  | none => exact hfront
  | some c =>
    by_cases hc : c ∈ as ++ bs
    · rcases List.mem_append.mp hc with ha | hb
      · -- a newcomer has the turn
        obtain ⟨a₁, a₂, rfl⟩ := List.append_of_mem ha
        have hca : c ∉ a₁ := by
          intro h₁
          exact (List.nodup_append.mp (List.nodup_append.mp hys).1).2.2 c h₁ c (by simp) rfl
        have hsplit : a₁ ++ c :: a₂ ++ bs = a₁ ++ c :: (a₂ ++ bs) := by simp
        rw [turns_of_not_mem (hfresh c ha), hsplit, turns_split hca,
          List.idxOf_append_of_mem (List.mem_append_right _ hp)]
        have h₁ := idxOf_insert_le p [] a₂ bs
        have h₂ := idxOf_le_of_sublist hsub hxs hp
        rw [List.nil_append, List.nil_append] at h₁
        simp only [List.length_append, List.length_cons]
        omega
      · have hca : c ∉ as := fun ha => (List.nodup_append.mp hys).2.2 c ha c hb rfl
        obtain ⟨h₁, h₂⟩ := sublist_parts hsub hxs hb
        have hnd : (after c xs ++ upTo c xs).Nodup := (turns_perm (some c) xs).nodup_iff.mpr hxs
        have hmem : p ∈ after c bs ++ upTo c bs := (mem_turns (o := some c)).mpr hp
        have hle := idxOf_le_of_sublist (h₁.append h₂) hnd hmem
        have hins := idxOf_insert_le p (after c bs) as (upTo c bs)
        rw [turns, after_append_right hca, upTo_append_right hca]
        exact hins.trans (Nat.add_le_add_right hle _)
    · have hcx : c ∉ xs := fun hcx => hc (hstay c rfl hcx)
      rw [turns_of_not_mem hc, turns_of_not_mem hcx]
      exact hfront

end AdelaideOS.Lib.Turns
