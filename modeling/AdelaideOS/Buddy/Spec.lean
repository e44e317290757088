import AdelaideOS.Lib.Dyadic

/-!
# The buddy system as lists of blocks

The abstract allocator: for each order `m` a list `free m` of offsets, a set `used` of blocks handed out,
and, while a release is under way, a set `float` of blocks that are in neither.  The operations are those
of the source with the memory taken away:

* `splitFree` / `splitTo` — halve the first block of a list, down to a wanted order;
* `mergeFree` — join a returned block with its buddy while the buddy is listed, then list it.

`Wf` says that all blocks together tile the heap.  It is kept by every operation, and so is being
`Canonical`: the lists never hold two buddies.
-/

namespace AdelaideOS.Buddy

open AdelaideOS.Lib.Dyadic

/-- The blocks on the lists. -/
def freeSet (free : ℕ → List ℕ) : Set Block := {p | p.1 ∈ free p.2}

theorem mem_freeSet {free : ℕ → List ℕ} {b m : ℕ} : (b, m) ∈ freeSet free ↔ b ∈ free m := Iff.rfl

/-- The listed, floating and used blocks are distinct and tile a heap of size `2 ^ u`. -/
structure Wf (u : ℕ) (free : ℕ → List ℕ) (float used : Set Block) : Prop where
  nodup : ∀ m, (free m).Nodup
  float_free : ∀ p ∈ float, p ∉ freeSet free
  used_idle : ∀ p ∈ used, p ∉ freeSet free ∪ float
  tiling : Tiling 8 u ((freeSet free ∪ float) ∪ used)

/-- The buddy as arithmetic: down for an upper half, up for a lower half. -/
def buddyOf (b m : ℕ) : ℕ := if b / 2 ^ m % 2 = 1 then b - 2 ^ m else b + 2 ^ m

/-- An aligned block is a lower or an upper half, and its buddy is the other one. -/
theorem buddyOf_cases {b m : ℕ} (hal : Block.Aligned (b, m)) :
    (Block.Aligned (b, m + 1) ∧ buddyOf b m = b + 2 ^ m) ∨
      (∃ c, Block.Aligned (c, m + 1) ∧ b = c + 2 ^ m ∧ buddyOf b m = c) := by
  obtain ⟨k, hk⟩ := hal
  simp only at hk
  have hpos : 0 < 2 ^ m := Nat.two_pow_pos m
  have hq : b / 2 ^ m = k := by
    rw [hk, Nat.mul_div_cancel_left k hpos]
  rcases Nat.even_or_odd' k with ⟨j, hj | hj⟩
  · left
    refine ⟨⟨j, ?_⟩, ?_⟩
    · show b = 2 ^ (m + 1) * j
      rw [hk, hj, pow_succ]
      ring
    · rw [buddyOf, hq, if_neg (by omega)]
  · right
    refine ⟨2 ^ (m + 1) * j, ⟨j, rfl⟩, ?_, ?_⟩
    · rw [hk, hj, pow_succ]
      ring
    · rw [buddyOf, hq, if_pos (by omega), hk, hj, pow_succ]
      rw [show 2 ^ m * (2 * j + 1) = 2 ^ m * 2 * j + 2 ^ m from by ring]
      omega

/-! ### Moving a block between a list and the floating set -/

variable {u : ℕ} {free : ℕ → List ℕ} {float used : Set Block} {b m : ℕ}

/-- Erasing a block from its list removes exactly that block. -/
theorem freeSet_erase (hnd : ∀ m, (free m).Nodup) (m b : ℕ) :
    freeSet (Function.update free m ((free m).erase b)) = freeSet free \ {(b, m)} := by
  ext ⟨x, k⟩
  show x ∈ Function.update free m ((free m).erase b) k ↔ x ∈ free k ∧ (x, k) ≠ (b, m)
  by_cases hk : k = m
  · subst hk
    rw [Function.update_self, (hnd k).mem_erase_iff]
    simp [and_comm]
  · rw [Function.update_of_ne hk]
    simp [hk]

/-- Listing a block adds exactly that block. -/
theorem freeSet_cons (free : ℕ → List ℕ) (m b : ℕ) :
    freeSet (Function.update free m (b :: free m)) = freeSet free ∪ {(b, m)} := by
  ext ⟨x, k⟩
  show x ∈ Function.update free m (b :: free m) k ↔ x ∈ free k ∨ (x, k) = (b, m)
  by_cases hk : k = m
  · subst hk
    rw [Function.update_self]
    simp [or_comm]
  · rw [Function.update_of_ne hk]
    simp [hk]

/-- Taking a listed block out makes it float. -/
theorem Wf.remove (hW : Wf u free float used) {m b : ℕ} (hb : b ∈ free m) :
    Wf u (Function.update free m ((free m).erase b)) (float ∪ {(b, m)}) used := by
  have hset := freeSet_erase hW.nodup m b
  have hall : freeSet (Function.update free m ((free m).erase b)) ∪ (float ∪ {(b, m)})
      = freeSet free ∪ float := by
    rw [hset]
    ext p
    by_cases hp : p = (b, m)
    · subst hp
      simp [mem_freeSet, hb]
    · simp [hp]
  refine ⟨?_, ?_, ?_, ?_⟩
  · intro k
    by_cases hk : k = m
    · subst hk
      rw [Function.update_self]
      exact (hW.nodup k).erase b
    · rw [Function.update_of_ne hk]
      exact hW.nodup k
  · intro p hp hin
    rw [hset] at hin
    rcases hp with hp | hp
    · exact hW.float_free p hp hin.1
    · exact hin.2 hp
  · rw [hall]
    exact hW.used_idle
  · rw [hall]
    exact hW.tiling

/-- Listing a floating block. -/
theorem Wf.add (hW : Wf u free float used) {m b : ℕ} (hb : (b, m) ∈ float) :
    Wf u (Function.update free m (b :: free m)) (float \ {(b, m)}) used := by
  have hset := freeSet_cons free m b
  have hall : freeSet (Function.update free m (b :: free m)) ∪ (float \ {(b, m)})
      = freeSet free ∪ float := by
    rw [hset]
    ext p
    by_cases hp : p = (b, m)
    · subst hp
      simp [hb]
    · simp [hp]
  refine ⟨?_, ?_, ?_, ?_⟩
  · intro k
    by_cases hk : k = m
    · subst hk
      rw [Function.update_self]
      exact List.nodup_cons.mpr ⟨hW.float_free _ hb, hW.nodup k⟩
    · rw [Function.update_of_ne hk]
      exact hW.nodup k
  · intro p hp hin
    rw [hset] at hin
    rcases hin with hin | hin
    · exact hW.float_free p hp.1 hin
    · exact hp.2 hin
  · rw [hall]
    exact hW.used_idle
  · rw [hall]
    exact hW.tiling

/-- A floating block above the least order falls into its halves. -/
theorem Wf.split (hW : Wf u free {(b, m + 1)} used) (hm : 8 ≤ m) :
    Wf u free {(b, m), (b + 2 ^ m, m)} used := by
  have hb : (b, m + 1) ∈ (freeSet free ∪ {(b, m + 1)}) ∪ used := Or.inl (Or.inr rfl)
  have hnf : (b, m + 1) ∉ freeSet free := hW.float_free _ rfl
  have hnu : (b, m + 1) ∉ used := fun h => hW.used_idle _ h (Or.inr rfl)
  have hall : ((freeSet free ∪ {(b, m + 1)}) ∪ used) \ {(b, m + 1)} ∪ {(b, m), (b + 2 ^ m, m)}
      = (freeSet free ∪ {(b, m), (b + 2 ^ m, m)}) ∪ used := by
    ext p
    by_cases hp : p = (b, m + 1)
    · subst hp
      simp [hnf, hnu]
    · simp only [Set.mem_union, Set.mem_sdiff, Set.mem_singleton_iff, hp, or_false, not_false_eq_true,
        and_true]
      tauto
  -- neither half can be listed or used: it would overlap the floating block
  have hhalf : ∀ p : Block, p = (b, m) ∨ p = (b + 2 ^ m, m) →
      p ∉ (freeSet free ∪ {(b, m + 1)}) ∪ used := by
    intro p hp hin
    have hhas : Block.Has (b, m + 1) p.1 := by
      rw [Block.has_succ_iff]
      rcases hp with rfl | rfl
      · exact Or.inl (Block.has_self (b, m))
      · exact Or.inr (Block.has_self (b + 2 ^ m, m))
    have he := hW.tiling.eq_of_has_start hb hin hhas
    rcases hp with rfl | rfl <;> simp at he
  refine ⟨hW.nodup, ?_, ?_, ?_⟩
  · intro p hp hin
    exact hhalf p hp (Or.inl (Or.inl hin))
  · intro p hp hin
    rcases hin with hin | hin
    · exact hW.used_idle p hp (Or.inl hin)
    · exact hhalf p hin (Or.inr hp)
  · rw [← hall]
    exact hW.tiling.split hb hm

/-- Two floating buddies join. -/
theorem Wf.merge (hW : Wf u free {(b, m), (b + 2 ^ m, m)} used) (hal : Block.Aligned (b, m + 1))
    (hu : m + 1 ≤ u) : Wf u free {(b, m + 1)} used := by
  have h1 : (b, m) ∈ (freeSet free ∪ {(b, m), (b + 2 ^ m, m)}) ∪ used :=
    Or.inl (Or.inr (Or.inl rfl))
  have h2 : (b + 2 ^ m, m) ∈ (freeSet free ∪ {(b, m), (b + 2 ^ m, m)}) ∪ used :=
    Or.inl (Or.inr (Or.inr rfl))
  have hdis : ∀ p ∈ ({(b, m), (b + 2 ^ m, m)} : Set Block), p ∉ freeSet free ∧ p ∉ used := by
    intro p hp
    exact ⟨hW.float_free p hp, fun h => hW.used_idle p h (Or.inr hp)⟩
  have hall : ((freeSet free ∪ {(b, m), (b + 2 ^ m, m)}) ∪ used) \ {(b, m), (b + 2 ^ m, m)}
      ∪ {(b, m + 1)} = (freeSet free ∪ {(b, m + 1)}) ∪ used := by
    ext p
    by_cases hp : p ∈ ({(b, m), (b + 2 ^ m, m)} : Set Block)
    · have hp' := hdis p hp
      simp only [Set.mem_union, Set.mem_sdiff, hp, hp'.1, hp'.2, not_true_eq_false, and_false,
        false_or, or_false]
    · simp only [Set.mem_union, Set.mem_sdiff, hp, or_false, not_false_eq_true, and_true]
      tauto
  have hnot : (b, m + 1) ∉ (freeSet free ∪ {(b, m), (b + 2 ^ m, m)}) ∪ used := by
    intro hin
    have he := hW.tiling.disjoint _ hin _ h1 b (Block.has_self (b, m + 1)) (Block.has_self (b, m))
    simp at he
  refine ⟨hW.nodup, ?_, ?_, ?_⟩
  · intro p hp hin
    obtain rfl : p = (b, m + 1) := hp
    exact hnot (Or.inl (Or.inl hin))
  · intro p hp hin
    rcases hin with hin | hin
    · exact hW.used_idle p hp (Or.inl hin)
    · obtain rfl : p = (b, m + 1) := hin
      exact hnot (Or.inr hp)
  · rw [← hall]
    exact hW.tiling.merge h1 h2 hal hu

/-- A floating block is handed out. -/
theorem Wf.mark {p : Block} (hW : Wf u free {p} used) : Wf u free ∅ (used ∪ {p}) := by
  have hall : (freeSet free ∪ ∅) ∪ (used ∪ {p}) = (freeSet free ∪ {p}) ∪ used := by
    ext q
    simp only [Set.mem_union, Set.mem_singleton_iff, Set.mem_empty_iff_false]
    tauto
  refine ⟨hW.nodup, ?_, ?_, ?_⟩
  · intro q hq
    exact absurd hq (Set.notMem_empty q)
  · intro q hq hin
    rw [Set.union_empty] at hin
    rcases hq with hq | hq
    · exact hW.used_idle q hq (Or.inl hin)
    · exact hW.float_free q hq hin
  · rw [hall]
    exact hW.tiling

/-- A used block comes back. -/
theorem Wf.unmark {p : Block} (hW : Wf u free ∅ used) (hp : p ∈ used) :
    Wf u free {p} (used \ {p}) := by
  have hall : (freeSet free ∪ {p}) ∪ (used \ {p}) = (freeSet free ∪ ∅) ∪ used := by
    ext q
    by_cases hq : q = p
    · subst hq
      simp [hp]
    · simp [hq]
  refine ⟨hW.nodup, ?_, ?_, ?_⟩
  · intro q hq hin
    obtain rfl : q = p := hq
    exact hW.used_idle q hp (Or.inl hin)
  · intro q hq hin
    rcases hin with hin | hin
    · exact hW.used_idle q hq.1 (Or.inl hin)
    · exact hq.2 hin
  · rw [hall]
    exact hW.tiling

/-! ### Splitting down -/

/-- Halve the first block of order `m + 1`; both halves go to the front of list `m`. -/
def splitFree (free : ℕ → List ℕ) (m : ℕ) : ℕ → List ℕ :=
  match free (m + 1) with
  | [] => free
  | b :: rest => Function.update (Function.update free (m + 1) rest) m (b :: (b + 2 ^ m) :: free m)

/-- Halve from order `cm` down to order `m`. -/
def splitTo (m : ℕ) : ℕ → (ℕ → List ℕ) → ℕ → List ℕ
  | 0, free => free
  | cm + 1, free => if m < cm + 1 then splitTo m cm (splitFree free cm) else free

/-- A split is one removal and two insertions. -/
theorem splitFree_eq {rest : List ℕ} (hb : free (m + 1) = b :: rest) :
    splitFree free m =
      let f₁ := Function.update free (m + 1) ((free (m + 1)).erase b)
      let f₂ := Function.update f₁ m ((b + 2 ^ m) :: f₁ m)
      Function.update f₂ m (b :: f₂ m) := by
  have hm : m ≠ m + 1 := by omega
  simp only [splitFree, hb, List.erase_cons_head, Function.update_self, Function.update_idem,
    Function.update_of_ne hm]

theorem splitFree_head {rest : List ℕ} (hb : free (m + 1) = b :: rest) :
    splitFree free m m = b :: (b + 2 ^ m) :: free m := by
  simp only [splitFree, hb, Function.update_self]

/-- The halves replace the whole. -/
theorem Wf.splitFree (hW : Wf u free ∅ used) (hm : 8 ≤ m) {rest : List ℕ}
    (hb : free (m + 1) = b :: rest) : Wf u (splitFree free m) ∅ used := by
  have hmem : b ∈ free (m + 1) := by rw [hb]; exact List.mem_cons_self
  have h1 := hW.remove hmem
  rw [Set.empty_union] at h1
  have h2 := (h1.split hm).add (b := b + 2 ^ m) (m := m) (Or.inr rfl)
  have hfl : ({(b, m), (b + 2 ^ m, m)} : Set Block) \ {(b + 2 ^ m, m)} = {(b, m)} := by
    ext p
    simp only [Set.mem_sdiff, Set.mem_insert_iff, Set.mem_singleton_iff]
    constructor
    · rintro ⟨h | h, hne⟩
      · exact h
      · exact absurd h hne
    · rintro rfl
      exact ⟨Or.inl rfl, by simp⟩
  rw [hfl] at h2
  have h3 := h2.add (b := b) (m := m) rfl
  rw [Set.sdiff_self] at h3
  rw [splitFree_eq hb]
  exact h3

theorem freeSet_splitFree (hW : Wf u free ∅ used) {rest : List ℕ} (hb : free (m + 1) = b :: rest) :
    freeSet (Buddy.splitFree free m)
      = (freeSet free \ {(b, m + 1)}) ∪ {(b + 2 ^ m, m)} ∪ {(b, m)} := by
  rw [splitFree_eq hb]
  simp only
  rw [freeSet_cons, freeSet_cons, freeSet_erase hW.nodup]

/-- **Splitting down.**  The wanted order gets the lower end `b` of the block that was split; apart from
`b` itself the lists stay canonical. -/
theorem splitTo_spec (hm : 8 ≤ m) (cm : ℕ) :
    ∀ (free : ℕ → List ℕ) (rest : List ℕ), m ≤ cm → Wf u free ∅ used → free cm = b :: rest →
      Canonical u (freeSet free \ {(b, cm)}) →
      ∃ rest', splitTo m cm free m = b :: rest' ∧ Wf u (splitTo m cm free) ∅ used ∧
        Canonical u (freeSet (splitTo m cm free) \ {(b, m)}) := by
  induction cm with
  | zero =>
    intro free rest hle hW hb hC
    obtain rfl : m = 0 := by omega
    exact ⟨rest, hb, hW, hC⟩
  | succ cm ih =>
    intro free rest hle hW hb hC
    by_cases hlt : m < cm + 1
    · rw [splitTo, if_pos hlt]
      have hbT : (b, cm + 1) ∈ (freeSet free ∪ ∅) ∪ used := by
        refine Or.inl (Or.inl ?_)
        rw [mem_freeSet, hb]
        exact List.mem_cons_self
      refine ih (splitFree free cm) _ (by omega) (hW.splitFree (by omega) hb) (splitFree_head hb) ?_
      rw [freeSet_splitFree hW hb]
      -- the upper half is the only new listed block, and its buddy is the block taken away
      have hnew : ∀ p : Block, p ∈ ((freeSet free \ {(b, cm + 1)}) ∪ {(b + 2 ^ cm, cm)} ∪ {(b, cm)})
          \ {(b, cm)} → p ∈ freeSet free \ {(b, cm + 1)} ∨ p = (b + 2 ^ cm, cm) := by
        intro p hp
        rcases hp with ⟨(hp | hp) | hp, hne⟩
        · exact Or.inl hp
        · exact Or.inr hp
        · exact absurd hp hne
      have hal := hW.tiling.aligned _ hbT
      have hpos := Nat.two_pow_pos cm
      intro x k hk halx h1 h2
      rcases hnew _ h1 with h1' | h1' <;> rcases hnew _ h2 with h2' | h2'
      · exact hC x k hk halx h1' h2'
      · -- then `x = b`, and `(b, cm)` was removed
        simp only [Prod.mk.injEq] at h2'
        obtain ⟨hx, rfl⟩ := h2'
        have hxb : x = b := by omega
        subst hxb
        exact h1.2 rfl
      · -- the listed block above the upper half would start inside the next block up
        simp only [Prod.mk.injEq] at h1'
        obtain ⟨hx, rfl⟩ := h1'
        subst hx
        have hd : 2 ^ (k + 1) ∣ 2 ^ k :=
          (Nat.dvd_add_right (show 2 ^ (k + 1) ∣ b from hal)).mp halx
        have := Nat.le_of_dvd hpos hd
        rw [pow_succ] at this
        omega
      · simp only [Prod.mk.injEq] at h1' h2'
        have := Nat.two_pow_pos k
        omega
    · rw [splitTo, if_neg hlt]
      obtain rfl : m = cm + 1 := by omega
      exact ⟨rest, hb, hW, hC⟩

/-! ### Merging up -/

theorem buddyOf_lower (hal : Block.Aligned (b, m + 1)) : buddyOf b m = b + 2 ^ m := by
  rcases buddyOf_cases (Block.aligned_lower hal) with ⟨-, h⟩ | ⟨c, hc, hbc, -⟩
  · exact h
  · have hd : 2 ^ (m + 1) ∣ 2 ^ m :=
      (Nat.dvd_add_right (show 2 ^ (m + 1) ∣ c from hc)).mp (hbc ▸ hal)
    have := Nat.le_of_dvd (Nat.two_pow_pos m) hd
    rw [pow_succ] at this
    have := Nat.two_pow_pos m
    omega

theorem buddyOf_upper (hal : Block.Aligned (b, m + 1)) : buddyOf (b + 2 ^ m) m = b := by
  rcases buddyOf_cases (Block.aligned_upper hal) with ⟨h, -⟩ | ⟨c, -, hbc, h⟩
  · have hd : 2 ^ (m + 1) ∣ 2 ^ m := (Nat.dvd_add_right (show 2 ^ (m + 1) ∣ b from hal)).mp h
    have := Nat.le_of_dvd (Nat.two_pow_pos m) hd
    rw [pow_succ] at this
    have := Nat.two_pow_pos m
    omega
  · omega

/-- Join `b` with its buddy as long as the buddy is listed, then list the result.  The first argument
bounds the rounds. -/
def mergeFree (u : ℕ) : ℕ → (ℕ → List ℕ) → ℕ → ℕ → ℕ → List ℕ
  | 0, free, m, b => Function.update free m (b :: free m)
  | n + 1, free, m, b =>
    if m < u ∧ buddyOf b m ∈ free m then
      mergeFree u n (Function.update free m ((free m).erase (buddyOf b m))) (m + 1)
        (min b (buddyOf b m))
    else Function.update free m (b :: free m)

/-- One merging round: the listed buddy is taken out and joined with the floating block. -/
theorem Wf.join (hW : Wf u free {(b, m)} used) (hmu : m < u) (hbud : buddyOf b m ∈ free m) :
    Wf u (Function.update free m ((free m).erase (buddyOf b m))) {(min b (buddyOf b m), m + 1)}
      used := by
  have hal : Block.Aligned (b, m) := hW.tiling.aligned _ (Or.inl (Or.inr rfl))
  have h1 := hW.remove hbud
  rcases buddyOf_cases hal with ⟨hlow, hbd⟩ | ⟨c, hc, hbc, hbd⟩
  · rw [hbd] at h1 ⊢
    rw [Nat.min_eq_left (Nat.le_add_right b _)]
    exact h1.merge hlow hmu
  · rw [hbd] at h1 ⊢
    subst hbc
    rw [Nat.min_eq_right (Nat.le_add_right c _)]
    rw [Set.union_comm] at h1
    exact h1.merge hc hmu

/-- A block without a listed buddy may be listed. -/
theorem canonical_insert (hC : Canonical u (freeSet free))
    (hno : ¬ (m < u ∧ buddyOf b m ∈ free m)) : Canonical u (freeSet free ∪ {(b, m)}) := by
  intro x k hk hal h1 h2
  have hpos := Nat.two_pow_pos k
  rcases h1 with h1 | h1 <;> rcases h2 with h2 | h2
  · exact hC x k hk hal h1 h2
  · simp only [Set.mem_singleton_iff, Prod.mk.injEq] at h2
    obtain ⟨rfl, rfl⟩ := h2
    rw [buddyOf_upper hal] at hno
    exact hno ⟨hk, h1⟩
  · simp only [Set.mem_singleton_iff, Prod.mk.injEq] at h1
    obtain ⟨rfl, rfl⟩ := h1
    rw [buddyOf_lower hal] at hno
    exact hno ⟨hk, h2⟩
  · simp only [Set.mem_singleton_iff, Prod.mk.injEq] at h1 h2
    omega

/-- **Merging up.**  The returned block ends on a list, the tiling is kept and stays canonical. -/
theorem mergeFree_spec (n : ℕ) :
    ∀ (free : ℕ → List ℕ) (m b : ℕ), u - m < n → Wf u free {(b, m)} used →
      Canonical u (freeSet free) →
      Wf u (mergeFree u n free m b) ∅ used ∧ Canonical u (freeSet (mergeFree u n free m b)) := by
  induction n with
  | zero =>
    intro free m b hn
    omega
  | succ n ih =>
    intro free m b hn hW hC
    rw [mergeFree]
    by_cases hg : m < u ∧ buddyOf b m ∈ free m
    · rw [if_pos hg]
      refine ih _ _ _ (by omega) (hW.join hg.1 hg.2) ?_
      rw [freeSet_erase hW.nodup]
      exact hC.mono Set.sdiff_subset
    · rw [if_neg hg]
      have h := hW.add (b := b) (m := m) rfl
      rw [Set.sdiff_self] at h
      refine ⟨h, ?_⟩
      rw [freeSet_cons]
      exact canonical_insert hC hg

end AdelaideOS.Buddy
