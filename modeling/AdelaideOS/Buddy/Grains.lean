import AdelaideOS.Buddy.Lists
import AdelaideOS.Buddy.Spec
import Mathlib.Data.Nat.Bitwise

/-!
# The granule array of the buddy allocator

Every block starts at a multiple of 256 bytes, so at most one block starts in a granule.  `Grains` says
that the array records exactly the blocks of two sets: a block of `idle` has its order and `used = 0`
in its first granule, a block of `used` its order and `used = 1`, and all other granules are blank.  The
four updates of the source (mark, unmark, split, merge) move `Grains` along with the sets, and the array
answers the one question the merging loop asks: is the buddy an idle block of the same order.
-/

namespace AdelaideOS.Buddy

open AdelaideOS.Lib.Bytes AdelaideOS.Lib.Links AdelaideOS.Lib.Dyadic

/-- The granule array of a heap of size `2 ^ u` records the blocks of `idle` and `used` and no others. -/
structure Grains (u : ℕ) (blocks : ℕ → Blockinfo) (idle used : Set Block) : Prop where
  idle_info : ∀ p ∈ idle, blocks (p.1 / 256) = ⟨p.2, false⟩
  used_info : ∀ p ∈ used, blocks (p.1 / 256) = ⟨p.2, true⟩
  other_info : ∀ g, g < 2 ^ (u - 8) → (∀ p ∈ idle ∪ used, p.1 / 256 ≠ g) → blocks g = ⟨0, false⟩

variable {u : ℕ} {blocks : ℕ → Blockinfo} {idle used : Set Block}

/-- A block of order at least 8 starts on a granule boundary. -/
theorem dvd_of_order {p : Block} (hp : p.Aligned) (h8 : 8 ≤ p.2) : 256 ∣ p.1 :=
  (pow_dvd_pow 2 h8).trans hp

/-- Two blocks of a tiling that start in the same granule are the same. -/
theorem grain_inj {T : Set Block} (hT : Tiling 8 u T) {p q : Block} (hp : p ∈ T) (hq : q ∈ T)
    (h : p.1 / 256 = q.1 / 256) : p = q := by
  have h1 := dvd_of_order (hT.aligned p hp) (hT.lower_le p hp)
  have h2 := dvd_of_order (hT.aligned q hq) (hT.lower_le q hq)
  have he : p.1 = q.1 := by omega
  exact hT.disjoint p hp q hq p.1 p.has_self (he ▸ q.has_self)

/-- No block of a tiling starts in a granule of another block's upper half. -/
theorem grain_ne_upper {T : Set Block} (hT : Tiling 8 u T) {b m : ℕ} (hb : (b, m + 1) ∈ T)
    (hm : 8 ≤ m) {p : Block} (hp : p ∈ T) (hne : p ≠ (b, m + 1)) :
    p.1 / 256 ≠ (b + 2 ^ m) / 256 := by
  intro h
  have h1 := dvd_of_order (hT.aligned p hp) (hT.lower_le p hp)
  have h2 := dvd_of_order (Block.aligned_upper (hT.aligned _ hb)) hm
  simp only at h2
  have he : p.1 = b + 2 ^ m := by omega
  have hin : Block.Has (b, m + 1) p.1 := by
    rw [he]
    exact (Block.has_succ_iff b m _).mpr (Or.inr (Block.has_self (b + 2 ^ m, m)))
  exact hne (hT.eq_of_has_start hb hp hin).symm

/-- The granules of the two halves differ. -/
theorem grain_half_ne {b m : ℕ} (hm : 8 ≤ m) : (b + 2 ^ m) / 256 ≠ b / 256 := by
  have h : 2 ^ 8 ≤ 2 ^ m := Nat.pow_le_pow_right (by decide) hm
  omega

/-- An idle block and a used block never coincide. -/
theorem Grains.disjoint (hG : Grains u blocks idle used) : Disjoint idle used := by
  rw [Set.disjoint_left]
  intro p hi hu
  have h := (hG.idle_info p hi).symm.trans (hG.used_info p hu)
  simp at h

/-- **Mark.**  Setting the bit of an idle block makes it used. -/
theorem Grains.mark (hT : Tiling 8 u (idle ∪ used)) (hG : Grains u blocks idle used) {p : Block}
    (hp : p ∈ idle) :
    Grains u (Function.update blocks (p.1 / 256) ⟨p.2, true⟩) (idle \ {p}) (used ∪ {p}) := by
  have hpT : p ∈ idle ∪ used := Or.inl hp
  refine ⟨?_, ?_, ?_⟩
  · intro q hq
    rw [Function.update_of_ne, hG.idle_info q hq.1]
    intro h
    exact hq.2 (grain_inj hT (Or.inl hq.1) hpT h)
  · intro q hq
    rcases hq with hq | hq
    · rw [Function.update_of_ne, hG.used_info q hq]
      intro h
      have he := grain_inj hT (Or.inr hq) hpT h
      exact Set.disjoint_left.mp hG.disjoint hp (he ▸ hq)
    · obtain rfl : q = p := hq
      rw [Function.update_self]
  · intro g hg hnone
    have hgp : g ≠ p.1 / 256 := fun h => hnone p (Or.inr (Or.inr rfl)) h.symm
    rw [Function.update_of_ne hgp]
    refine hG.other_info g hg ?_
    intro q hq
    by_cases hqp : q = p
    · rw [hqp]
      exact hgp.symm
    · rcases hq with hq | hq
      · exact hnone q (Or.inl ⟨hq, hqp⟩)
      · exact hnone q (Or.inr (Or.inl hq))

/-- **Unmark.**  Clearing the bit of a used block makes it idle. -/
theorem Grains.unmark (hT : Tiling 8 u (idle ∪ used)) (hG : Grains u blocks idle used) {p : Block}
    (hp : p ∈ used) :
    Grains u (Function.update blocks (p.1 / 256) ⟨p.2, false⟩) (idle ∪ {p}) (used \ {p}) := by
  have hpT : p ∈ idle ∪ used := Or.inr hp
  refine ⟨?_, ?_, ?_⟩
  · intro q hq
    rcases hq with hq | hq
    · rw [Function.update_of_ne, hG.idle_info q hq]
      intro h
      have he := grain_inj hT (Or.inl hq) hpT h
      exact Set.disjoint_left.mp hG.disjoint hq (he ▸ hp)
    · obtain rfl : q = p := hq
      rw [Function.update_self]
  · intro q hq
    rw [Function.update_of_ne, hG.used_info q hq.1]
    intro h
    exact hq.2 (grain_inj hT (Or.inr hq.1) hpT h)
  · intro g hg hnone
    have hgp : g ≠ p.1 / 256 := fun h => hnone p (Or.inl (Or.inr rfl)) h.symm
    rw [Function.update_of_ne hgp]
    refine hG.other_info g hg ?_
    intro q hq
    by_cases hqp : q = p
    · rw [hqp]
      exact hgp.symm
    · rcases hq with hq | hq
      · exact hnone q (Or.inl (Or.inl hq))
      · exact hnone q (Or.inr ⟨hq, hqp⟩)

/-- **Split.**  Recording the order `m` in both halves of an idle block of order `m + 1`. -/
theorem Grains.split (hT : Tiling 8 u (idle ∪ used)) (hG : Grains u blocks idle used) {b m : ℕ}
    (hb : (b, m + 1) ∈ idle) (hm : 8 ≤ m) :
    Grains u (Function.update (Function.update blocks (b / 256) ⟨m, false⟩)
        ((b + 2 ^ m) / 256) ⟨m, false⟩)
      ((idle \ {(b, m + 1)}) ∪ {(b, m), (b + 2 ^ m, m)}) used := by
  have hbT : (b, m + 1) ∈ idle ∪ used := Or.inl hb
  have hfar : ∀ q ∈ idle ∪ used, q ≠ (b, m + 1) →
      q.1 / 256 ≠ (b + 2 ^ m) / 256 ∧ q.1 / 256 ≠ b / 256 := by
    intro q hq hne
    exact ⟨grain_ne_upper hT hbT hm hq hne, fun h => hne (grain_inj hT hq hbT h)⟩
  refine ⟨?_, ?_, ?_⟩
  · intro q hq
    rcases hq with hq | rfl | rfl
    · obtain ⟨h1, h2⟩ := hfar q (Or.inl hq.1) hq.2
      rw [Function.update_of_ne h1, Function.update_of_ne h2, hG.idle_info q hq.1]
    · rw [Function.update_of_ne (grain_half_ne hm).symm, Function.update_self]
    · rw [Function.update_self]
  · intro q hq
    have hne : q ≠ (b, m + 1) := by
      intro h
      exact Set.disjoint_left.mp hG.disjoint hb (h ▸ hq)
    obtain ⟨h1, h2⟩ := hfar q (Or.inr hq) hne
    rw [Function.update_of_ne h1, Function.update_of_ne h2, hG.used_info q hq]
  · intro g hg hnone
    have h1 : g ≠ (b + 2 ^ m) / 256 := fun h =>
      hnone (b + 2 ^ m, m) (Or.inl (Or.inr (Or.inr rfl))) h.symm
    have h2 : g ≠ b / 256 := fun h => hnone (b, m) (Or.inl (Or.inr (Or.inl rfl))) h.symm
    rw [Function.update_of_ne h1, Function.update_of_ne h2]
    refine hG.other_info g hg ?_
    intro q hq
    by_cases hqb : q = (b, m + 1)
    · rw [hqb]
      exact h2.symm
    · rcases hq with hq | hq
      · exact hnone q (Or.inl (Or.inl ⟨hq, hqb⟩))
      · exact hnone q (Or.inr hq)

/-- **Merge.**  Recording the order `m + 1` in the lower of two idle buddies and blanking the upper. -/
theorem Grains.merge (hT : Tiling 8 u (idle ∪ used)) (hG : Grains u blocks idle used) {b m : ℕ}
    (h1 : (b, m) ∈ idle) (h2 : (b + 2 ^ m, m) ∈ idle) :
    Grains u (Function.update (Function.update blocks (b / 256) ⟨m + 1, false⟩)
        ((b + 2 ^ m) / 256) ⟨0, false⟩)
      ((idle \ {(b, m), (b + 2 ^ m, m)}) ∪ {(b, m + 1)}) used := by
  have hm : 8 ≤ m := hT.lower_le _ (Or.inl h1)
  have hfar : ∀ q ∈ idle ∪ used, q ≠ (b, m) → q ≠ (b + 2 ^ m, m) →
      q.1 / 256 ≠ (b + 2 ^ m) / 256 ∧ q.1 / 256 ≠ b / 256 := by
    intro q hq hne1 hne2
    exact ⟨fun h => hne2 (grain_inj hT hq (Or.inl h2) h), fun h => hne1 (grain_inj hT hq (Or.inl h1) h)⟩
  refine ⟨?_, ?_, ?_⟩
  · intro q hq
    rcases hq with hq | rfl
    · have hq2 := hq.2
      simp only [Set.mem_insert_iff, Set.mem_singleton_iff, not_or] at hq2
      obtain ⟨e1, e2⟩ := hfar q (Or.inl hq.1) hq2.1 hq2.2
      rw [Function.update_of_ne e1, Function.update_of_ne e2, hG.idle_info q hq.1]
    · rw [Function.update_of_ne (grain_half_ne hm).symm, Function.update_self]
  · intro q hq
    have hq1 : q ≠ (b, m) := fun h => Set.disjoint_left.mp hG.disjoint h1 (h ▸ hq)
    have hq2 : q ≠ (b + 2 ^ m, m) := fun h => Set.disjoint_left.mp hG.disjoint h2 (h ▸ hq)
    obtain ⟨e1, e2⟩ := hfar q (Or.inr hq) hq1 hq2
    rw [Function.update_of_ne e1, Function.update_of_ne e2, hG.used_info q hq]
  · intro g hg hnone
    by_cases hgu : g = (b + 2 ^ m) / 256
    · rw [hgu, Function.update_self]
    have hgl : g ≠ b / 256 := fun h => hnone (b, m + 1) (Or.inl (Or.inr rfl)) h.symm
    rw [Function.update_of_ne hgu, Function.update_of_ne hgl]
    refine hG.other_info g hg ?_
    intro q hq
    by_cases hq1 : q = (b, m)
    · rw [hq1]
      exact hgl.symm
    by_cases hq2 : q = (b + 2 ^ m, m)
    · rw [hq2]
      exact Ne.symm hgu
    rcases hq with hq | hq
    · exact hnone q (Or.inl (Or.inl ⟨hq, by simp [hq1, hq2]⟩))
    · exact hnone q (Or.inr hq)

/-- **Lookup.**  A granule inside the heap that records an unused block of order `m ≥ 8` is the first one
of such a block. -/
theorem Grains.idle_of_info (hT : Tiling 8 u (idle ∪ used)) (hG : Grains u blocks idle used)
    {b m : ℕ} (h8 : 8 ≤ m) (hal : 256 ∣ b) (hb : b / 256 < 2 ^ (u - 8))
    (hi : blocks (b / 256) = ⟨m, false⟩) : (b, m) ∈ idle := by
  by_contra hnot
  have hnone : ∀ p ∈ idle ∪ used, p.1 / 256 ≠ b / 256 := by
    intro p hp h
    rcases hp with hp | hp
    · have hinfo := hG.idle_info p hp
      rw [h, hi] at hinfo
      have hpal := dvd_of_order (hT.aligned p (Or.inl hp)) (hT.lower_le p (Or.inl hp))
      have hpb : p = (b, m) := Prod.ext (show p.1 = b by omega) (by simp at hinfo; exact hinfo.symm)
      exact hnot (hpb ▸ hp)
    · have hinfo := hG.used_info p hp
      rw [h, hi] at hinfo
      simp at hinfo
  have hblank := hG.other_info (b / 256) hb hnone
  rw [hi] at hblank
  simp at hblank
  omega

/-! ### The buddy of a block -/

/-- Clearing bit `m` of an upper half. -/
theorem land_clear {k m : ℕ} (hb : 2 ^ (m + 1) * k + 2 ^ m < 2 ^ 32) :
    (2 ^ (m + 1) * k + 2 ^ m) &&& (0xFFFFFFFF ^^^ 1 <<< m) = 2 ^ (m + 1) * k := by
  have hlt : 2 ^ m < 2 ^ (m + 1) := Nat.pow_lt_pow_right (by decide) (Nat.lt_succ_self m)
  apply Nat.eq_of_testBit_eq
  intro i
  rw [Nat.testBit_and, Nat.testBit_xor, Nat.one_shiftLeft,
    show (0xFFFFFFFF : ℕ) = 2 ^ 32 - 1 from rfl, Nat.testBit_two_pow_sub_one, Nat.testBit_two_pow,
    Nat.testBit_two_pow_mul_add _ hlt, Nat.testBit_two_pow_mul]
  by_cases hi : i < m + 1
  · rw [if_pos hi, Nat.testBit_two_pow]
    by_cases him : m = i
    · subst him
      have h32 : m < 32 := by
        by_contra hge
        have := Nat.pow_le_pow_right (show 0 < 2 by decide) (Nat.le_of_not_lt hge)
        omega
      simp [h32]
    · simp [him, show ¬ m + 1 ≤ i by omega]
  · rw [if_neg hi]
    by_cases hk : k.testBit (i - (m + 1))
    · have hge := Nat.ge_two_pow_of_testBit hk
      have h32 : i < 32 := by
        by_contra hge32
        have h1 : 2 ^ 32 ≤ 2 ^ i := Nat.pow_le_pow_right (by decide) (by omega)
        have h2 : 2 ^ i = 2 ^ (m + 1) * 2 ^ (i - (m + 1)) := by
          rw [← pow_add]
          congr 1
          omega
        have h3 : 2 ^ (m + 1) * 2 ^ (i - (m + 1)) ≤ 2 ^ (m + 1) * k := Nat.mul_le_mul_left _ hge
        omega
      simp [hk, h32, show m ≠ i by omega, show m + 1 ≤ i by omega]
    · simp [hk]

/-- **Buddy address.**  On a block whose granule records its order, `getBuddy` passes its assertion and
computes the buddy. -/
theorem getBuddy_spec {h : Heap} {b m : ℕ} (hlow : h.ma.lower = 8)
    (hi : (h.ma.blocks (b / 256)).sizem = m) (h8 : 8 ≤ m) (hu : m ≤ h.ma.upper)
    (hal : Block.Aligned (b, m)) (hb : b < 2 ^ 32) : getBuddy h b = .ok (buddyOf b m) := by
  have hs : getSizem h b = m := by
    rw [getSizem, hlow]
    exact hi
  rw [getBuddy, hs, assert_pos (by rw [hlow]; exact ⟨h8, hu⟩)]
  show Except.ok _ = _
  congr 1
  have hpos : 0 < 2 ^ m := Nat.two_pow_pos m
  have hlt : 2 ^ m < 2 ^ (m + 1) := Nat.pow_lt_pow_right (by decide) (Nat.lt_succ_self m)
  rw [Nat.one_shiftLeft, Nat.and_two_pow]
  rcases buddyOf_cases hal with ⟨⟨k, hk⟩, hbd⟩ | ⟨c, ⟨k, hk⟩, hbc, hbd⟩
  · simp only at hk
    have hbit : b.testBit m = false := by
      rw [hk, Nat.testBit_two_pow_mul]
      simp
    rw [hbit, hbd]
    simp only [Bool.toNat_false, Nat.zero_mul, ne_eq, not_true_eq_false, if_false]
    rw [hk, ← Nat.two_pow_add_eq_or_of_lt hlt]
  · simp only at hk
    subst hk
    subst hbc
    have hbit : (2 ^ (m + 1) * k + 2 ^ m).testBit m = true := by
      rw [Nat.testBit_two_pow_mul_add _ hlt, if_pos (Nat.lt_succ_self m), Nat.testBit_two_pow_self]
    rw [hbit, hbd, if_pos (by simp)]
    have hclear := land_clear hb
    rw [Nat.one_shiftLeft] at hclear
    exact hclear

end AdelaideOS.Buddy
