import AdelaideOS.Buddy.Runs

/-!
# A heap shared by several owners

A `Table` says which addresses hold a piece of the heap, how many bytes it has and what it is used for.
`Holds R h T` says that every piece of `T` lies in a live block of the allocator `h`; blocks that no piece lies
in may be live too.  The uses are of an arbitrary type.

* **`Holds.alloc`**, **`Holds.free`**, **`Holds.write`** — requests, releases and stores;
* **`Holds.apart`** — pieces at different addresses do not overlap;
* **`Holds.allocated`** — the allocator's own record of a piece.
-/

namespace AdelaideOS.Buddy

open AdelaideOS.Lib.Bytes AdelaideOS.Lib.Dyadic

structure Piece (τ : Type) where
  size : ℕ
  use : τ

/-- The pieces by address. -/
abbrev Table (τ : Type) := ℕ → Option (Piece τ)

def Holds {τ : Type} (R : Region) (h : Heap) (T : Table τ) : Prop :=
  ∃ live free, Good R ⟨h, live⟩ free ∧
    ∀ a x, T a = some x → ∃ b m, a = R.base + b ∧ (b, m) ∈ live ∧ x.size ≤ 2 ^ m

/-- The bytes of all pieces are the same in both heaps. -/
def SameBytes {τ : Type} (T : Table τ) (h h' : Heap) : Prop :=
  ∀ a x, T a = some x → ∀ i, i < x.size → h'.bytes (a + i) = h.bytes (a + i)

/-- The granule of the address `a` records a block in use of at least `n` bytes. -/
def Allocated (R : Region) (h : Heap) (a n : ℕ) : Prop :=
  R.base ≤ a ∧ isUsed h (a - R.base) = true ∧ n ≤ 2 ^ getSizem h (a - R.base)

variable {τ : Type} {R : Region} {h h' : Heap} {T : Table τ} {a n : ℕ} {x : Piece τ}

theorem holds_init (R : Region) (blocks : ℕ → Blockinfo) (bytes : Memory) :
    Holds R (buddyInit R.upper R.base blocks bytes) (fun _ => none : Table τ) := by
  refine ⟨[], _, good_start R blocks bytes, ?_⟩
  intro a x hx
  cases hx

/-- Two live blocks are equal or apart. -/
theorem Good.live_apart {s : Client} {free : ℕ → List ℕ} (hG : Good R s free) {p q : Block}
    (hp : p ∈ s.live) (hq : q ∈ s.live) (hne : p ≠ q) :
    p.1 + 2 ^ p.2 ≤ q.1 ∨ q.1 + 2 ^ q.2 ≤ p.1 := by
  by_contra hcon
  rw [not_or, not_le, not_le] at hcon
  have hdis := hG.wf.tiling.disjoint p (Or.inr hp) q (Or.inr hq)
  apply hne
  -- the larger of the two starts lies in both
  rcases le_total p.1 q.1 with hle | hle
  · exact hdis q.1 ⟨hle, hcon.1⟩ (Block.has_self q)
  · exact hdis p.1 (Block.has_self p) ⟨hle, hcon.2⟩

/-- **Pieces** at different addresses do not overlap. -/
theorem Holds.apart {a' : ℕ} {x' : Piece τ} (hH : Holds R h T) (hx : T a = some x) (hx' : T a' = some x')
    (hne : a ≠ a') : a + x.size ≤ a' ∨ a' + x'.size ≤ a := by
  obtain ⟨live, free, hG, hT⟩ := hH
  obtain ⟨b, m, rfl, hb, hsize⟩ := hT a x hx
  obtain ⟨b', m', rfl, hb', hsize'⟩ := hT a' x' hx'
  have hblock : (b, m) ≠ (b', m') := by
    intro he
    exact hne (by rw [(Prod.mk.inj he).1])
  have := hG.live_apart hb hb' hblock
  simp only at this
  omega

/-- A piece lies inside the region. -/
theorem Holds.end_le (hH : Holds R h T) (hx : T a = some x) : a + x.size ≤ R.base + 2 ^ R.upper := by
  obtain ⟨live, free, hG, hT⟩ := hH
  obtain ⟨b, m, rfl, hb, hsize⟩ := hT a x hx
  have hend := hG.wf.tiling.bounded (b, m) (Or.inr hb)
  simp only at hend
  omega

/-- **The record** of a piece. -/
theorem Holds.allocated (hH : Holds R h T) (hx : T a = some x) : Allocated R h a x.size := by
  obtain ⟨live, free, hG, hT⟩ := hH
  obtain ⟨b, m, rfl, hb, hsize⟩ := hT a x hx
  have hinfo : h.ma.blocks (b / 256) = ⟨m, true⟩ := hG.rep.grains.used_info (b, m) hb
  have hlower : h.ma.lower = 8 := hG.rep.lower_eq
  refine ⟨Nat.le_add_right _ _, ?_, ?_⟩
  · rw [Nat.add_sub_cancel_left, isUsed, hlower, show 2 ^ 8 = 256 from rfl, hinfo]
  · rw [Nat.add_sub_cancel_left, getSizem, hlower, show 2 ^ 8 = 256 from rfl, hinfo]
    exact hsize

/-- What a request needs besides memory: fewer than `2 ^ 31` bytes. -/
theorem mforsizeLoop_diverges (nbytes : ℕ) (fuel m : ℕ) : mforsizeLoop nbytes fuel 0 m = .error .diverges := by
  induction fuel generalizing m with
  | zero => rfl
  | succ fuel ih =>
    rw [mforsizeLoop, if_pos (Nat.zero_le _)]
    exact ih (m + 1)

theorem mforsizeLoop_large {nbytes : ℕ} (hn : 2 ^ 31 ≤ nbytes) (j m : ℕ) (hj : j ≤ 31) (fuel : ℕ) :
    mforsizeLoop nbytes fuel (2 ^ j) m = .error .diverges := by
  induction fuel generalizing j m with
  | zero => rfl
  | succ fuel ih =>
    have hle : 2 ^ j ≤ nbytes := (Nat.pow_le_pow_right (by decide) hj).trans hn
    rw [mforsizeLoop, if_pos hle]
    by_cases h31 : j = 31
    · rw [h31]
      exact mforsizeLoop_diverges nbytes fuel (m + 1)
    · have hpow : 2 ^ (j + 1) ≤ 2 ^ 31 := Nat.pow_le_pow_right (by decide) (by omega)
      rw [← pow_succ, Nat.mod_eq_of_lt (by simp only [wordSize]; omega)]
      exact ih (j + 1) (m + 1) (by omega)

theorem buddyAlloc_large {build : Build} (hn : 2 ^ 31 ≤ n) : buddyAlloc build h n = .error .diverges := by
  have hm : mforsize h.ma n = .error .diverges := by
    have hloop : mforsizeLoop n 33 1 0 = .error .diverges :=
      mforsizeLoop_large hn 0 0 (by decide) 33
    rw [mforsize, hloop]
    rfl
  rw [buddyAlloc, hm]
  rfl

/-- A request that fails has found no memory or is too large. -/
theorem Holds.alloc_error {e : Fault} (hH : Holds R h T) (he : buddyAlloc .kernel h n = .error e) :
    e = .memoryExhausted ∨ e = .diverges := by
  by_cases hn : n < 2 ^ 31
  · obtain ⟨live, free, hG, -⟩ := hH
    obtain ⟨m, -, -, -, hcase⟩ := hG.alloc_cases .kernel hn
    rcases hcase with ⟨c, b, h', -, hok, -⟩ | ⟨-, hex⟩
    · rw [hok] at he
      cases he
    · rw [hex] at he
      cases he
      exact Or.inl rfl
  · rw [buddyAlloc_large (by omega)] at he
    cases he
    exact Or.inr rfl

/-- **Requests.**  The new piece lies at an unused address and the other pieces keep their bytes. -/
theorem Holds.alloc (hH : Holds R h T) (hok : buddyAlloc .kernel h n = .ok (a, h')) :
    T a = none ∧ SameBytes T h h' ∧ ∀ use, Holds R h' (Function.update T a (some ⟨n, use⟩)) := by
  obtain ⟨live, free, hG, hT⟩ := hH
  have hn : n < 2 ^ 31 := by
    by_contra hn
    rw [buddyAlloc_large (by omega)] at hok
    cases hok
  obtain ⟨m, -, -, hlt, hcase⟩ := hG.alloc_cases .kernel hn
  rcases hcase with ⟨c, b, h₁, -, hok₁, hG', hnew, hK⟩ | ⟨-, hex⟩
  swap
  · rw [hex] at hok
    cases hok
  rw [hok₁] at hok
  obtain ⟨rfl, rfl⟩ := Prod.mk.inj (Except.ok.inj hok)
  refine ⟨?_, ?_, ?_⟩
  · cases hx : T (R.base + b) with
    | none => rfl
    | some x =>
      obtain ⟨b', m', he, hb', -⟩ := hT _ x hx
      obtain rfl : b = b' := by omega
      -- a live block at the same place would be the new block
      have hdis := hG'.wf.tiling.disjoint (b, m) (Or.inr List.mem_cons_self) (b, m')
        (Or.inr (List.mem_cons_of_mem _ hb')) b (Block.has_self (b, m)) (Block.has_self (b, m'))
      rw [← hdis] at hb'
      exact absurd hb' hnew
  · intro a x hx i hi
    obtain ⟨b', m', rfl, hb', hsize⟩ := hT a x hx
    refine hK _ (Or.inr (Or.inr ⟨(b', m'), hb', by omega, ?_⟩))
    constructor
    · show b' ≤ _
      omega
    · show _ < b' + 2 ^ m'
      omega
  · intro use
    refine ⟨_, _, hG', ?_⟩
    intro a x hx
    rcases update_eq_some hx with ⟨ha, rfl⟩ | ⟨-, hx⟩
    · exact ⟨b, m, ha, List.mem_cons_self, hlt.le⟩
    · obtain ⟨b', m', he, hb', hsize⟩ := hT a x hx
      exact ⟨b', m', he, List.mem_cons_of_mem _ hb', hsize⟩

/-- **Releases.**  Every piece can be given back, and the other pieces keep their bytes. -/
theorem Holds.free (hH : Holds R h T) (hx : T a = some x) :
    ∃ h', buddyFree h a = .ok h' ∧ Holds R h' (Function.update T a none) ∧
      SameBytes (Function.update T a none) h h' := by
  obtain ⟨live, free, hG, hT⟩ := hH
  obtain ⟨b, m, rfl, hb, -⟩ := hT a x hx
  obtain ⟨h', hok, hG', hK⟩ := hG.free_ok hb
  have hother : ∀ a' x', Function.update T (R.base + b) none a' = some x' →
      ∃ b' m', a' = R.base + b' ∧ (b', m') ∈ live.erase (b, m) ∧ x'.size ≤ 2 ^ m' := by
    intro a' x' hx'
    obtain ⟨ha, hx'⟩ := update_none_eq_some hx'
    obtain ⟨b', m', he, hb', hsize⟩ := hT a' x' hx'
    refine ⟨b', m', he, ?_, hsize⟩
    rw [hG.live_nodup.mem_erase_iff]
    refine ⟨?_, hb'⟩
    intro hblock
    exact ha (by rw [he, (Prod.mk.inj hblock).1])
  refine ⟨h', hok, ⟨_, _, hG', hother⟩, ?_⟩
  intro a' x' hx' i hi
  obtain ⟨b', m', rfl, hb', hsize⟩ := hother a' x' hx'
  refine hK _ (Or.inr (Or.inr ⟨(b', m'), hb', by omega, ?_⟩))
  constructor
  · show b' ≤ _
    omega
  · show _ < b' + 2 ^ m'
    omega

/-- A piece that was given back is not in use any more. -/
theorem Holds.freed (hH : Holds R h T) (hx : T a = some x) (hok : buddyFree h a = .ok h') : ¬ Allocated R h' a n := by
  obtain ⟨live, free, hG, hT⟩ := hH
  obtain ⟨b, m, rfl, hb, -⟩ := hT a x hx
  obtain ⟨h₁, hok₁, hG', -⟩ := hG.free_ok hb
  obtain rfl : h' = h₁ := Except.ok.inj (hok.symm.trans hok₁)
  have hmem : (b, m) ∈ (freeSet free ∪ ∅) ∪ liveSet live := Or.inr hb
  have hend := hG.wf.tiling.bounded (b, m) hmem
  have hpos := Nat.two_pow_pos m
  simp only at hend
  have hgrain : b / 256 < 2 ^ (R.upper - 8) := by
    have hu : 8 ≤ R.upper := (hG.wf.tiling.lower_le _ hmem).trans (hG.wf.tiling.le_upper _ hmem)
    have hpow : 2 ^ R.upper = 256 * 2 ^ (R.upper - 8) := by
      rw [show (256 : ℕ) = 2 ^ 8 from rfl, ← Nat.pow_add]
      congr 1
      omega
    rw [Nat.div_lt_iff_lt_mul (by decide)]
    omega
  rintro ⟨-, hused, -⟩
  rw [Nat.add_sub_cancel_left, isUsed, hG'.rep.lower_eq] at hused
  replace hused : (h'.ma.blocks (b / 256)).used = true := hused
  by_cases hother : ∀ p ∈ (freeSet (mergeFree R.upper (R.upper + 1) free m b) ∪ ∅) ∪ liveSet (live.erase (b, m)),
      p.1 / 256 ≠ b / 256
  · rw [hG'.rep.grains.other_info _ hgrain hother] at hused
    cases hused
  · push Not at hother
    obtain ⟨p, hp, heq⟩ := hother
    rcases hp with hp | hp
    · have := hG'.rep.grains.idle_info p hp
      rw [heq] at this
      rw [this] at hused
      cases hused
    · -- a block in use that starts in the same granule would be the one that was freed
      have hlive : p ∈ live ∧ p ≠ (b, m) := by
        have := hp
        rw [liveSet_erase hG.live_nodup] at this
        exact this
      exact hlive.2 (grain_inj hG.wf.tiling (Or.inr hlive.1) hmem heq)

/-- **Stores** inside a piece. -/
theorem Holds.write {bytes : Memory} (hH : Holds R h T) (hx : T a = some x)
    (hout : ∀ y, y < a ∨ a + x.size ≤ y → bytes y = h.bytes y) :
    Holds R { h with bytes := bytes } T := by
  obtain ⟨live, free, hG, hT⟩ := hH
  refine ⟨live, free, hG.write ?_, hT⟩
  intro y _ hnone
  obtain ⟨b, m, rfl, hb, hsize⟩ := hT a x hx
  have hmem : h.ma.mem = R.base := hG.rep.mem_eq
  apply hout
  have hnot := hnone (b, m) hb
  show h.ma.mem + y < _ ∨ _ ≤ h.ma.mem + y
  unfold Block.Has at hnot
  simp only at hnot
  omega

/-- They leave the other pieces alone. -/
theorem Holds.write_apart {bytes : Memory} (hH : Holds R h T) (hx : T a = some x)
    (hout : ∀ y, y < a ∨ a + x.size ≤ y → bytes y = h.bytes y) {a' : ℕ} {x' : Piece τ}
    (hx' : T a' = some x') (hne : a' ≠ a) {i : ℕ} (hi : i < x'.size) :
    bytes (a' + i) = h.bytes (a' + i) := by
  apply hout
  have := hH.apart hx' hx hne
  omega

end AdelaideOS.Buddy
