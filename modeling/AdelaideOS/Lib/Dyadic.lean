import Mathlib.Tactic
import Mathlib.Order.CompletePartialOrder

/-!
# Dyadic blocks and their tilings

A block is a pair `(b, m)`: the interval `[b, b + 2 ^ m)`.  It is *aligned* when `2 ^ m ∣ b`.  Two aligned
blocks are nested or disjoint, which makes tilings of `[0, 2 ^ u)` by aligned blocks of order at least `l`
behave like binary trees without mentioning trees:

* **`Tiling.split`** / **`Tiling.merge`** — replacing a block by its two halves, and back;
* **`Tiling.window`** — in a tiling whose free part has no two buddies, an aligned window that meets no
  occupied block lies inside one free block;
* **`Tiling.free_unique`** — hence the free part is determined by the occupied part.
-/

namespace AdelaideOS.Lib.Dyadic

/-- The interval `[p.1, p.1 + 2 ^ p.2)`. -/
abbrev Block := ℕ × ℕ

/-- The address `a` lies in the block. -/
def Block.Has (p : Block) (a : ℕ) : Prop := p.1 ≤ a ∧ a < p.1 + 2 ^ p.2

instance (p : Block) (a : ℕ) : Decidable (p.Has a) := inferInstanceAs (Decidable (_ ∧ _))

/-- The block starts at a multiple of its own size. -/
def Block.Aligned (p : Block) : Prop := 2 ^ p.2 ∣ p.1

instance (p : Block) : Decidable p.Aligned := inferInstanceAs (Decidable (_ ∣ _))

theorem Block.has_self (p : Block) : p.Has p.1 :=
  ⟨le_refl _, Nat.lt_add_of_pos_right (Nat.two_pow_pos _)⟩

/-- In an aligned block an address is recognised by its quotient. -/
theorem Block.has_iff {p : Block} (hp : p.Aligned) (a : ℕ) :
    p.Has a ↔ a / 2 ^ p.2 = p.1 / 2 ^ p.2 := by
  obtain ⟨b, m⟩ := p
  obtain ⟨k, hk⟩ := hp
  simp only at hk
  subst hk
  have hpos : 0 < 2 ^ m := Nat.two_pow_pos m
  simp only [Block.Has, Nat.mul_div_cancel_left k hpos]
  rw [Nat.div_eq_iff hpos, mul_comm]
  have hs : k * 2 ^ m + (2 ^ m - 1) < k * 2 ^ m + 2 ^ m := by omega
  constructor
  · rintro ⟨h1, h2⟩
    exact ⟨h1, by omega⟩
  · rintro ⟨h1, h2⟩
    exact ⟨h1, by omega⟩

/-- Two aligned blocks that share an address are nested. -/
theorem Block.nested {p q : Block} (hp : p.Aligned) (hq : q.Aligned) (hle : p.2 ≤ q.2) {a : ℕ}
    (hpa : p.Has a) (hqa : q.Has a) {x : ℕ} (hpx : p.Has x) : q.Has x := by
  rw [Block.has_iff hp] at hpa hpx
  rw [Block.has_iff hq] at hqa ⊢
  have hfac : 2 ^ q.2 = 2 ^ p.2 * 2 ^ (q.2 - p.2) := by
    rw [← pow_add]
    congr 1
    omega
  rw [← hqa, hfac, ← Nat.div_div_eq_div_mul, ← Nat.div_div_eq_div_mul, hpx, hpa]

/-- Aligned blocks of one order that share an address are equal. -/
theorem Block.eq_of_order_eq {p q : Block} (hp : p.Aligned) (hq : q.Aligned) (hm : p.2 = q.2) {a : ℕ}
    (hpa : p.Has a) (hqa : q.Has a) : p = q := by
  rw [Block.has_iff hp] at hpa
  rw [Block.has_iff hq, ← hm] at hqa
  have hb : p.1 = q.1 := by
    rw [← Nat.div_mul_cancel hp, ← Nat.div_mul_cancel (show 2 ^ p.2 ∣ q.1 from hm ▸ hq), ← hpa, hqa]
  exact Prod.ext hb hm

/-- The lower half. -/
theorem Block.aligned_lower {b m : ℕ} (h : Block.Aligned (b, m + 1)) : Block.Aligned (b, m) :=
  (pow_dvd_pow 2 (Nat.le_succ m)).trans h

/-- The upper half. -/
theorem Block.aligned_upper {b m : ℕ} (h : Block.Aligned (b, m + 1)) :
    Block.Aligned (b + 2 ^ m, m) :=
  (Nat.dvd_add_right (Block.aligned_lower h)).mpr dvd_rfl

/-- A block is the disjoint union of its halves. -/
theorem Block.has_succ_iff (b m a : ℕ) :
    Block.Has (b, m + 1) a ↔ Block.Has (b, m) a ∨ Block.Has (b + 2 ^ m, m) a := by
  simp only [Block.Has, pow_succ]
  omega

theorem Block.halves_disjoint {b m a : ℕ} (h1 : Block.Has (b, m) a) :
    ¬ Block.Has (b + 2 ^ m, m) a := by
  simp only [Block.Has] at *
  omega

/-- An aligned block that starts below `2 ^ u` ends there too. -/
theorem Block.bounded_of_aligned {p : Block} {u : ℕ} (hal : p.Aligned) (hu : p.2 ≤ u)
    (hlt : p.1 < 2 ^ u) : p.1 + 2 ^ p.2 ≤ 2 ^ u := by
  obtain ⟨k, hk⟩ := hal
  have hfac : 2 ^ u = 2 ^ p.2 * 2 ^ (u - p.2) := by
    rw [← pow_add]
    congr 1
    omega
  rw [hk, hfac] at hlt ⊢
  have hlt' : k < 2 ^ (u - p.2) := Nat.lt_of_mul_lt_mul_left hlt
  calc 2 ^ p.2 * k + 2 ^ p.2 = 2 ^ p.2 * (k + 1) := by ring
    _ ≤ 2 ^ p.2 * 2 ^ (u - p.2) := Nat.mul_le_mul_left _ hlt'

/-- `B` is a set of aligned blocks of orders `l` to `u` that covers `[0, 2 ^ u)` exactly once. -/
structure Tiling (l u : ℕ) (B : Set Block) : Prop where
  lower_le : ∀ p ∈ B, l ≤ p.2
  le_upper : ∀ p ∈ B, p.2 ≤ u
  aligned : ∀ p ∈ B, p.Aligned
  bounded : ∀ p ∈ B, p.1 + 2 ^ p.2 ≤ 2 ^ u
  cover : ∀ a, a < 2 ^ u → ∃ p ∈ B, p.Has a
  disjoint : ∀ p ∈ B, ∀ q ∈ B, ∀ a, p.Has a → q.Has a → p = q

/-- The trivial tiling by one block. -/
theorem Tiling.single {l u : ℕ} (h : l ≤ u) : Tiling l u {(0, u)} where
  lower_le := by rintro p rfl; exact h
  le_upper := by rintro p rfl; exact le_refl u
  aligned := by rintro p rfl; exact dvd_zero _
  bounded := by rintro p rfl; simp
  cover := fun a ha => ⟨(0, u), rfl, by simp only [Block.Has]; omega⟩
  disjoint := by rintro p rfl q rfl _ _ _; rfl

variable {l u : ℕ} {B : Set Block}

/-- A block of the tiling is met by no other block, so a different block cannot start inside it. -/
theorem Tiling.eq_of_has_start (hT : Tiling l u B) {p q : Block} (hp : p ∈ B) (hq : q ∈ B)
    (h : p.Has q.1) : p = q :=
  hT.disjoint p hp q hq q.1 h q.has_self

/-- **Split.**  A block above the least order may be replaced by its halves. -/
theorem Tiling.split (hT : Tiling l u B) {b m : ℕ} (hb : (b, m + 1) ∈ B) (hm : l ≤ m) :
    Tiling l u ((B \ {(b, m + 1)}) ∪ {(b, m), (b + 2 ^ m, m)}) := by
  have hal := hT.aligned _ hb
  have hbd := hT.bounded _ hb
  have hup := hT.le_upper _ hb
  simp only [pow_succ] at hbd
  -- a half meets an address only where the whole block does
  have hsub : ∀ q : Block, q = (b, m) ∨ q = (b + 2 ^ m, m) → ∀ a, q.Has a →
      Block.Has (b, m + 1) a := by
    rintro q (rfl | rfl) a ha
    · exact (Block.has_succ_iff b m a).mpr (Or.inl ha)
    · exact (Block.has_succ_iff b m a).mpr (Or.inr ha)
  refine ⟨?_, ?_, ?_, ?_, ?_, ?_⟩
  · rintro p (⟨hp, -⟩ | rfl | rfl)
    · exact hT.lower_le p hp
    · exact hm
    · exact hm
  · rintro p (⟨hp, -⟩ | rfl | rfl)
    · exact hT.le_upper p hp
    · simp only at hup ⊢; omega
    · simp only at hup ⊢; omega
  · rintro p (⟨hp, -⟩ | rfl | rfl)
    · exact hT.aligned p hp
    · exact Block.aligned_lower hal
    · exact Block.aligned_upper hal
  · rintro p (⟨hp, -⟩ | rfl | rfl)
    · exact hT.bounded p hp
    · simp only; omega
    · simp only; omega
  · intro a ha
    obtain ⟨p, hp, hpa⟩ := hT.cover a ha
    by_cases hpe : p = (b, m + 1)
    · subst hpe
      rcases (Block.has_succ_iff b m a).mp hpa with h | h
      · exact ⟨_, Or.inr (Or.inl rfl), h⟩
      · exact ⟨_, Or.inr (Or.inr rfl), h⟩
    · exact ⟨p, Or.inl ⟨hp, hpe⟩, hpa⟩
  · rintro p (⟨hp, hpe⟩ | hp) q (⟨hq, hqe⟩ | hq) a hpa hqa
    · exact hT.disjoint p hp q hq a hpa hqa
    · exact absurd (hT.disjoint p hp _ hb a hpa (hsub q hq a hqa)) hpe
    · exact absurd (hT.disjoint q hq _ hb a hqa (hsub p hp a hpa)) hqe
    · rcases hp with rfl | rfl <;> rcases hq with rfl | rfl
      · rfl
      · exact absurd hqa (Block.halves_disjoint hpa)
      · exact absurd hpa (Block.halves_disjoint hqa)
      · rfl

/-- **Merge.**  Two halves that are both blocks may be replaced by the whole. -/
theorem Tiling.merge (hT : Tiling l u B) {b m : ℕ} (h1 : (b, m) ∈ B) (h2 : (b + 2 ^ m, m) ∈ B)
    (hal : Block.Aligned (b, m + 1)) (hu : m + 1 ≤ u) :
    Tiling l u ((B \ {(b, m), (b + 2 ^ m, m)}) ∪ {(b, m + 1)}) := by
  have hbd := hT.bounded _ h2
  have hlow := hT.lower_le _ h1
  simp only at hbd hlow
  have hmeet : ∀ q ∈ B, ∀ a, q.Has a → Block.Has (b, m + 1) a →
      q = (b, m) ∨ q = (b + 2 ^ m, m) := by
    intro q hq a hqa ha
    rcases (Block.has_succ_iff b m a).mp ha with h | h
    · exact Or.inl (hT.disjoint q hq _ h1 a hqa h)
    · exact Or.inr (hT.disjoint q hq _ h2 a hqa h)
  refine ⟨?_, ?_, ?_, ?_, ?_, ?_⟩
  · rintro p (⟨hp, -⟩ | rfl)
    · exact hT.lower_le p hp
    · simp only; omega
  · rintro p (⟨hp, -⟩ | rfl)
    · exact hT.le_upper p hp
    · exact hu
  · rintro p (⟨hp, -⟩ | rfl)
    · exact hT.aligned p hp
    · exact hal
  · rintro p (⟨hp, -⟩ | rfl)
    · exact hT.bounded p hp
    · simp only [pow_succ]; omega
  · intro a ha
    obtain ⟨p, hp, hpa⟩ := hT.cover a ha
    by_cases hpe : p = (b, m) ∨ p = (b + 2 ^ m, m)
    · refine ⟨(b, m + 1), Or.inr rfl, (Block.has_succ_iff b m a).mpr ?_⟩
      rcases hpe with rfl | rfl
      · exact Or.inl hpa
      · exact Or.inr hpa
    · exact ⟨p, Or.inl ⟨hp, hpe⟩, hpa⟩
  · rintro p (⟨hp, hpe⟩ | rfl) q (⟨hq, hqe⟩ | rfl) a hpa hqa
    · exact hT.disjoint p hp q hq a hpa hqa
    · exact absurd (hmeet p hp a hpa hqa) hpe
    · exact absurd (hmeet q hq a hqa hpa) hqe
    · rfl

/-! ### Canonical tilings -/

/-- No two blocks of `F` below order `u` are the two halves of one block. -/
def Canonical (u : ℕ) (F : Set Block) : Prop :=
  ∀ b m, m < u → Block.Aligned (b, m + 1) → (b, m) ∈ F → (b + 2 ^ m, m) ∉ F

theorem Canonical.mono {F G : Set Block} (hF : Canonical u F) (h : G ⊆ F) : Canonical u G :=
  fun b m hm hal h1 h2 => hF b m hm hal (h h1) (h h2)

/-- **Window.**  An aligned window that meets no occupied block lies inside one free block. -/
theorem Tiling.window {F L : Set Block} (hT : Tiling l u (F ∪ L)) (hC : Canonical u F) {b m : ℕ}
    (hl : l ≤ m) (hu : m ≤ u) (hal : Block.Aligned (b, m)) (hb : b + 2 ^ m ≤ 2 ^ u)
    (hfree : ∀ q ∈ L, ∀ a, Block.Has (b, m) a → ¬ q.Has a) :
    ∃ p ∈ F, m ≤ p.2 ∧ ∀ a, Block.Has (b, m) a → p.Has a := by
  -- induction on the order above the least one; the step joins the blocks of the two halves
  induction m, hl using Nat.le_induction generalizing b with
  | base =>
    have hpos : 0 < 2 ^ l := Nat.two_pow_pos l
    obtain ⟨p, hp, hpb⟩ := hT.cover b (by omega)
    have hself := Block.has_self (b, l)
    have hpF : p ∈ F := hp.resolve_right fun hL => hfree p hL b hself hpb
    have hle := hT.lower_le p hp
    exact ⟨p, hpF, hle, fun a ha => Block.nested hal (hT.aligned p hp) hle hself hpb ha⟩
  | succ m hlm ih =>
    have hlo := Block.aligned_lower hal
    have hhi := Block.aligned_upper hal
    rw [pow_succ] at hb
    obtain ⟨p, hpF, hpm, hp⟩ := ih (b := b) (by omega) hlo (by omega) fun q hq a ha =>
      hfree q hq a ((Block.has_succ_iff b m a).mpr (Or.inl ha))
    obtain ⟨q, hqF, hqm, hq⟩ := ih (b := b + 2 ^ m) (by omega) hhi (by omega) fun q hq a ha =>
      hfree q hq a ((Block.has_succ_iff b m a).mpr (Or.inr ha))
    have hpb := hp b (Block.has_self (b, m))
    have hqb := hq (b + 2 ^ m) (Block.has_self (b + 2 ^ m, m))
    have hpal := hT.aligned p (Or.inl hpF)
    have hqal := hT.aligned q (Or.inl hqF)
    -- a block that is larger than its half contains the whole window
    by_cases hp' : m + 1 ≤ p.2
    · refine ⟨p, hpF, hp', fun a ha => ?_⟩
      exact Block.nested hal hpal hp' (Block.has_self (b, m + 1)) hpb ha
    by_cases hq' : m + 1 ≤ q.2
    · refine ⟨q, hqF, hq', fun a ha => ?_⟩
      have hmid : Block.Has (b, m + 1) (b + 2 ^ m) :=
        (Block.has_succ_iff b m _).mpr (Or.inr (Block.has_self (b + 2 ^ m, m)))
      exact Block.nested hal hqal hq' hmid hqb ha
    -- otherwise both halves are free blocks themselves, and they are buddies
    have hpe : p = (b, m) :=
      Block.eq_of_order_eq hpal hlo (show p.2 = m by omega) hpb (Block.has_self (b, m))
    have hqe : q = (b + 2 ^ m, m) :=
      Block.eq_of_order_eq hqal hhi (show q.2 = m by omega) hqb (Block.has_self (b + 2 ^ m, m))
    subst hpe
    subst hqe
    exact absurd hqF (hC b m (by omega) hal hpF)

/-- One direction of uniqueness. -/
theorem Tiling.free_subset {F G L : Set Block} (hF : Tiling l u (F ∪ L)) (hG : Tiling l u (G ∪ L))
    (hFL : Disjoint F L) (hGL : Disjoint G L) (hCF : Canonical u F) (hCG : Canonical u G) :
    F ⊆ G := by
  intro p hpF
  have hpB : p ∈ F ∪ L := Or.inl hpF
  -- the free block `p` is a window of the other tiling, hence inside one of its free blocks `q`
  obtain ⟨q, hqG, hpq, hin⟩ := hG.window hCG (hF.lower_le p hpB) (hF.le_upper p hpB)
    (hF.aligned p hpB) (hF.bounded p hpB) fun r hr a hpa hra =>
      Set.disjoint_left.mp hFL hpF (hF.disjoint p hpB r (Or.inr hr) a hpa hra ▸ hr)
  have hqB : q ∈ G ∪ L := Or.inl hqG
  -- and `q` in turn inside a free block of the first, which can only be `p`
  obtain ⟨r, hrF, hqr, hin'⟩ := hF.window hCF (hG.lower_le q hqB) (hG.le_upper q hqB)
    (hG.aligned q hqB) (hG.bounded q hqB) fun r hr a hqa hra =>
      Set.disjoint_left.mp hGL hqG (hG.disjoint q hqB r (Or.inr hr) a hqa hra ▸ hr)
  have hqp := hin p.1 p.has_self
  have hrp := hin' p.1 hqp
  obtain rfl : p = r := hF.disjoint p hpB r (Or.inl hrF) p.1 p.has_self hrp
  have hqe : p = q := Block.eq_of_order_eq (hF.aligned p hpB) (hG.aligned q hqB)
    (le_antisymm hpq hqr) p.has_self hqp
  exact hqe ▸ hqG

/-- **Uniqueness.**  The free part of a canonical tiling is determined by the occupied part. -/
theorem Tiling.free_unique {F G L : Set Block} (hF : Tiling l u (F ∪ L)) (hG : Tiling l u (G ∪ L))
    (hFL : Disjoint F L) (hGL : Disjoint G L) (hCF : Canonical u F) (hCG : Canonical u G) : F = G :=
  Set.Subset.antisymm (hF.free_subset hG hFL hGL hCF hCG) (hG.free_subset hF hGL hFL hCG hCF)

end AdelaideOS.Lib.Dyadic
