import AdelaideOS.Buddy.Model
import AdelaideOS.Lib.Links
import AdelaideOS.Lib.Dyadic

/-!
# The free lists of the buddy allocator

The 32 list heads and the link words stored in the free blocks represent a family of lists
`free : ℕ → List ℕ`, one for each order.  `Lists h free` is that representation and `Separate` is what
the two list operations need of the listed blocks: distinct entries, at least 256 bytes apart.  Under it
`removeFromFreelist` erases a block from its list, `addToFreelist` puts one in front, and both change
nothing but the first words of listed blocks (`ListStep`).
-/

namespace AdelaideOS.Buddy

open AdelaideOS.Lib.Bytes AdelaideOS.Lib.Links AdelaideOS.Lib.Dyadic

/-- The heap's list heads and link words represent the lists `free`. -/
def Lists (h : Heap) (free : ℕ → List ℕ) : Prop :=
  ∀ m, Chain (link h) EMPTY (h.ma.freelist m) (free m)

/-- The listed blocks are pairwise distinct, at least 256 bytes apart, and lie below `2 ^ 30`. -/
structure Separate (free : ℕ → List ℕ) : Prop where
  nodup : ∀ m, (free m).Nodup
  bounded : ∀ m, ∀ x ∈ free m, x < 2 ^ 30
  apart : ∀ m, ∀ x ∈ free m, ∀ k, ∀ y ∈ free k, x ≠ y → x + 256 ≤ y ∨ y + 256 ≤ x
  order_eq : ∀ m k x, x ∈ free m → x ∈ free k → m = k

/-- What the list operations leave alone: everything but the heads and the first words of the blocks
in `S`. -/
structure ListStep (h h' : Heap) (S : Set ℕ) : Prop where
  lower : h'.ma.lower = h.ma.lower
  upper : h'.ma.upper = h.ma.upper
  mem : h'.ma.mem = h.ma.mem
  blocks : h'.ma.blocks = h.ma.blocks
  bytes : ∀ a, (∀ x ∈ S, a < h.ma.mem + x ∨ h.ma.mem + x + 4 ≤ a) → h'.bytes a = h.bytes a

theorem EMPTY_lt : EMPTY < wordSize := by decide

theorem ne_EMPTY_of_lt {x : ℕ} (h : x < 2 ^ 30) : x ≠ EMPTY := by
  rw [EMPTY]
  omega

theorem link_lt (h : Heap) (b : ℕ) : link h b < wordSize := readWord_lt _ _

theorem link_setLink_self (h : Heap) (b : ℕ) {w : ℕ} (hw : w < wordSize) :
    link (setLink h b w) b = w := readWord_writeWord _ _ _ hw

theorem link_setLink_of_apart (h : Heap) {b c : ℕ} (w : ℕ) (hbc : c + 256 ≤ b ∨ b + 256 ≤ c) :
    link (setLink h b w) c = link h c := by
  show readWord (writeWord h.bytes (h.ma.mem + b) w) (h.ma.mem + c) = _
  exact readWord_writeWord_of_apart _ w (by omega)

theorem setLink_bytes (h : Heap) {b w a : ℕ} (ha : a < h.ma.mem + b ∨ h.ma.mem + b + 4 ≤ a) :
    (setLink h b w).bytes a = h.bytes a := writeWord_of_outside _ _ ha

variable {h : Heap} {free : ℕ → List ℕ}

/-- The list head is a word. -/
theorem Lists.head_lt (hL : Lists h free) (hS : Separate free) (m : ℕ) :
    h.ma.freelist m < wordSize := by
  by_cases he : h.ma.freelist m = EMPTY
  · rw [he]
    exact EMPTY_lt
  · obtain ⟨ys, hys, -⟩ := (hL m).eq_cons_of_head_ne he
    have hb := hS.bounded m (h.ma.freelist m) (by rw [hys]; exact List.mem_cons_self)
    rw [wordSize]
    omega

theorem Lists.head_eq_EMPTY_iff (hL : Lists h free) (m : ℕ) :
    h.ma.freelist m = EMPTY ↔ free m = [] := (hL m).head_eq_nil_iff

/-- A non-empty list starts at its head word. -/
theorem Lists.head_eq (hL : Lists h free) {m b : ℕ} {rest : List ℕ} (hb : free m = b :: rest) :
    h.ma.freelist m = b := by
  have hc := hL m
  rw [hb] at hc
  exact hc.1

/-- A duplicate-free list of small numbers is short. -/
theorem length_le_of_nodup {l : List ℕ} (hl : l.Nodup) {n : ℕ} (hb : ∀ x ∈ l, x < n) :
    l.length ≤ n := by
  rw [← List.toFinset_card_of_nodup hl, ← Finset.card_range n]
  apply Finset.card_le_card
  intro x hx
  exact Finset.mem_range.mpr (hb x (List.mem_toFinset.mp hx))

/-! ### Removal -/

/-- Removing the first block of a list only moves the head. -/
theorem Lists.setHead_tail (hL : Lists h free) {m b : ℕ} {rest : List ℕ} (hb : free m = b :: rest) :
    Lists (setHead h m (link h b)) (Function.update free m rest) := by
  intro k
  by_cases hk : k = m
  · subst hk
    have hc := hL k
    rw [hb] at hc
    rw [Function.update_self]
    show Chain (link h) EMPTY (Function.update h.ma.freelist k (link h b) k) rest
    rw [Function.update_self]
    exact hc.2.2
  · rw [Function.update_of_ne hk]
    show Chain (link h) EMPTY (Function.update h.ma.freelist m (link h b) k) (free k)
    rw [Function.update_of_ne hk]
    exact hL k

/-- Removing a later block redirects the link of the block before it. -/
theorem Lists.setLink_skip (hL : Lists h free) (hS : Separate free) {m p b : ℕ} {l r : List ℕ}
    (hm : free m = l ++ p :: b :: r) :
    Lists (setLink h p (link h b)) (Function.update free m (l ++ p :: r)) := by
  have hp : p ∈ free m := by rw [hm]; simp
  -- the link of every other listed block is out of reach of the written word
  have hother : ∀ k, ∀ y ∈ free k, y ≠ p → link (setLink h p (link h b)) y = link h y := by
    intro k y hy hne
    exact link_setLink_of_apart h _ (hS.apart k y hy m p hp hne)
  intro k
  by_cases hk : k = m
  · subst hk
    rw [Function.update_self]
    have hc := hL k
    rw [hm] at hc
    have hnd := hS.nodup k
    rw [hm] at hnd
    refine Chain.unlink hc (link_setLink_self h p (link_lt h b)) ?_ hnd
    intro y hy hne
    exact hother k y (by rw [hm]; exact hy) hne
  · rw [Function.update_of_ne hk]
    refine (hL k).congr ?_
    intro y hy
    refine hother k y hy ?_
    rintro rfl
    exact hk (hS.order_eq k m y hy hp)

/-- The position of `ptr` in the walk over `free m = l ++ r`: at the head before anything was passed,
else at the link of the last block passed. -/
def Ptr.At (l : List ℕ) : Ptr → Prop
  | .head => l = []
  | .link p => ∃ l₀, l = l₀ ++ [p]

/-- **Removal loop.**  From any position before `b` the loop ends with `b` out of the list. -/
theorem removeLoop_spec (hL : Lists h free) (hS : Separate free) {m b : ℕ} (r : List ℕ) :
    ∀ (l : List ℕ) (ptr : Ptr) (fuel : ℕ), free m = l ++ r → ptr.At l →
      Chain (link h) EMPTY (ptr.read h m) r → b ∈ r → r.length < fuel → b ∉ l →
      ∃ h', removeLoop h m b fuel ptr = .ok h' ∧
        Lists h' (Function.update free m ((free m).erase b)) ∧
        ListStep h h' {x | x ∈ free m} := by
  induction r with
  | nil =>
    intro l ptr fuel _ _ _ hb
    simp at hb
  | cons y r ih =>
    intro l ptr fuel hm hat hc hb hfuel hbl
    obtain ⟨n, rfl⟩ : ∃ n, fuel = n + 1 := ⟨fuel - 1, by simp at hfuel; omega⟩
    obtain ⟨hy, hne, hrest⟩ := hc
    rw [removeLoop, hy, if_neg hne]
    by_cases hyb : y = b
    · subst hyb
      rw [if_pos rfl]
      have herase : (free m).erase y = l ++ r := by
        rw [hm, List.erase_append_right _ hbl, List.erase_cons_head]
      rw [herase]
      refine ⟨_, rfl, ?_⟩
      cases ptr with
      | head =>
        obtain rfl : l = [] := hat
        exact ⟨hL.setHead_tail hm, ⟨rfl, rfl, rfl, rfl, fun _ _ => rfl⟩⟩
      | link p =>
        obtain ⟨l₀, rfl⟩ := hat
        rw [List.append_assoc] at hm ⊢
        refine ⟨hL.setLink_skip hS hm, ⟨rfl, rfl, rfl, rfl, ?_⟩⟩
        intro a ha
        refine setLink_bytes h (ha p ?_)
        show p ∈ free m
        rw [hm]
        simp
    · rw [if_neg hyb]
      refine ih (l ++ [y]) (.link y) n ?_ ⟨l, rfl⟩ hrest ?_ ?_ ?_
      · rw [hm, List.append_assoc]
        rfl
      · exact (List.mem_cons.mp hb).resolve_left (Ne.symm hyb)
      · simp only [List.length_cons] at hfuel
        omega
      · simp only [List.mem_append, List.mem_singleton, not_or]
        exact ⟨hbl, Ne.symm hyb⟩

/-- **Removal.**  A listed block is found and erased from its list. -/
theorem removeFromFreelist_spec (hL : Lists h free) (hS : Separate free) {m b : ℕ}
    (hb : b ∈ free m) :
    ∃ h', removeFromFreelist h m b = .ok h' ∧
      Lists h' (Function.update free m ((free m).erase b)) ∧ ListStep h h' {x | x ∈ free m} := by
  refine removeLoop_spec hL hS (free m) [] .head (wordSize + 1) rfl rfl (hL m) hb ?_ (by simp)
  have hlen := length_le_of_nodup (hS.nodup m) (hS.bounded m)
  rw [wordSize]
  omega

/-! ### Insertion -/

/-- The new block is a word below `2 ^ 30`, at least 256 bytes from every listed block. -/
def Fresh (free : ℕ → List ℕ) (b : ℕ) : Prop :=
  b < 2 ^ 30 ∧ ∀ k, ∀ x ∈ free k, x + 256 ≤ b ∨ b + 256 ≤ x

/-- **Insertion.**  A block apart from the listed ones goes to the front of its list. -/
theorem addToFreelist_spec (hL : Lists h free) (hS : Separate free) {m b : ℕ} (hb : Fresh free b)
    (hin : b + 2 ^ m ≤ 2 ^ h.ma.upper) :
    ∃ h', addToFreelist h m b = .ok h' ∧ Lists h' (Function.update free m (b :: free m)) ∧
      ListStep h h' {b} := by
  have hassert : b + 1 <<< m ≤ 1 <<< h.ma.upper := by
    rw [Nat.one_shiftLeft, Nat.one_shiftLeft]
    exact hin
  refine ⟨setHead (setLink h b (h.ma.freelist m)) m b, ?_, ?_, ⟨rfl, rfl, rfl, rfl, ?_⟩⟩
  · rw [addToFreelist, assert_pos hassert]
    rfl
  · intro k
    have hframe : ∀ y ∈ free k, link (setLink h b (h.ma.freelist m)) y = link h y := by
      intro y hy
      exact link_setLink_of_apart h _ (hb.2 k y hy)
    show Chain (link (setLink h b (h.ma.freelist m))) EMPTY
      (Function.update h.ma.freelist m b k) _
    by_cases hk : k = m
    · subst hk
      rw [Function.update_self, Function.update_self]
      exact (hL k).push (ne_EMPTY_of_lt hb.1) (link_setLink_self h b (hL.head_lt hS k)) hframe
    · rw [Function.update_of_ne hk, Function.update_of_ne hk]
      exact (hL k).congr hframe
  · intro a ha
    exact setLink_bytes h (ha b rfl)

end AdelaideOS.Buddy
