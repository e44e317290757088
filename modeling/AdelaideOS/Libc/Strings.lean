import AdelaideOS.Kernel.Formatting
import AdelaideOS.Kernel.Storage

/-!
# Strings and memory blocks

`strlen`, `strcmp`, `strncmp` and `memmove` of the library, which kernel and processes share.

* **`strcmp_spec`**, **`strncmp_spec`** — what the two comparisons answer;
* **`coherent_iff`** — when their signs are the order of the strings;
* **`memmove_byte`** — what each byte is after `memmove`;
* **`moved_iff`** — when that is the byte of the source.
-/

namespace AdelaideOS.Libc

open AdelaideOS.Kernel AdelaideOS.Lib.Bytes

/-! ### Comparing strings -/

/-- The loop of `strcmp`. -/
def strcmpLoop (s1 s2 : ℕ → UInt8) : ℕ → ℕ → Except Fault ℤ
  | 0, _ => .error .diverges
  | fuel + 1, pos =>
    if s1 pos ≠ 0 ∧ s2 pos ≠ 0 then
      if s1 pos ≠ s2 pos then .ok (charValue (s1 pos) - charValue (s2 pos))
      else strcmpLoop s1 s2 fuel (pos + 1)
    else if s1 pos ≠ 0 then .ok (-1)
    else if s2 pos ≠ 0 then .ok 1
    else .ok 0

def strcmp (s1 s2 : ℕ → UInt8) (fuel : ℕ) : Except Fault ℤ := strcmpLoop s1 s2 fuel 0

/-- The characters of a text, as numbers; such lists are ordered like words in a dictionary. -/
def values (s : List UInt8) : List ℤ := s.map charValue

/-- The sign of `v` is the order of the texts `a` and `b`. -/
structure SignOf (v : ℤ) (a b : List UInt8) : Prop where
  less : v < 0 ↔ values a < values b
  equal : v = 0 ↔ a = b
  greater : 0 < v ↔ values b < values a

/-- What is expected of the two comparisons of the strings at `s1` and `s2`, whose texts are `a` and `b`. -/
structure Coherent (s1 s2 : ℕ → UInt8) (a b : List UInt8) (n : ℕ) : Prop where
  whole : ∃ v, (∀ fuel, min a.length b.length < fuel → strcmp s1 s2 fuel = .ok v) ∧ SignOf v a b
  start : SignOf (strncmp s1 s2 n) (a.take n) (b.take n)
  agree : a.length < n → b.length < n → ∀ fuel v, strcmp s1 s2 fuel = .ok v → SignType.sign v = SignType.sign (strncmp s1 s2 n)

/-- The loop of `strlen`. -/
def strlenLoop (s : ℕ → UInt8) : ℕ → ℕ → Except Fault ℕ
  | 0, _ => .error .diverges
  | fuel + 1, len => if s len = 0 then .ok len else strlenLoop s fuel (len + 1)

def strlen (s : ℕ → UInt8) (fuel : ℕ) : Except Fault ℕ := strlenLoop s fuel 0

/-! ### Copying -/

/-- The `len` bytes that were at `src` are at `dst`, and nothing else has changed. -/
structure Moved (M M' : Memory) (dst src len : ℕ) : Prop where
  inside : ∀ i < len, M' (dst + i) = M (src + i)
  outside : ∀ x, x < dst ∨ dst + len ≤ x → M' x = M x

variable {M : Memory} {s1 s2 : ℕ → UInt8} {a b : List UInt8} {dst src len n pos fuel : ℕ}

/-! ### The order of texts -/

theorem values_cons (c : UInt8) (a : List UInt8) : values (c :: a) = charValue c :: values a := rfl

theorem SignOf.nil (v : ℤ) : SignOf v [] [] ↔ v = 0 := by
  constructor
  · exact fun h => h.equal.mpr rfl
  · rintro rfl
    exact ⟨by simp [values], by simp, by simp [values]⟩

theorem SignOf.nil_cons (v : ℤ) (d : UInt8) (b : List UInt8) : SignOf v [] (d :: b) ↔ v < 0 := by
  have hless : values [] < values (d :: b) := List.nil_lt_cons _ _
  constructor
  · exact fun h => h.less.mpr hless
  · intro hv
    refine ⟨iff_of_true hv hless, iff_of_false hv.ne (by simp), iff_of_false (by omega) hless.not_gt⟩

theorem SignOf.symm {v : ℤ} (h : SignOf v a b) : SignOf (-v) b a := by
  refine ⟨?_, ?_, ?_⟩
  · rw [← h.greater]
    omega
  · rw [eq_comm (a := b), ← h.equal]
    omega
  · rw [← h.less]
    omega

theorem SignOf.cons_nil (v : ℤ) (c : UInt8) (a : List UInt8) : SignOf v (c :: a) [] ↔ 0 < v := by
  constructor
  · intro h
    have := (SignOf.nil_cons (-v) c a).mp h.symm
    omega
  · intro hv
    have h : SignOf (-v) [] (c :: a) := (SignOf.nil_cons (-v) c a).mpr (by omega)
    simpa using h.symm

/-- The first character decides, unless it is the same. -/
theorem SignOf.cons (v : ℤ) (c : UInt8) : SignOf v (c :: a) (c :: b) ↔ SignOf v a b := by
  have hless : ∀ a b : List UInt8, values (c :: a) < values (c :: b) ↔ values a < values b := by
    intro a b
    rw [values_cons, values_cons, List.cons_lt_cons_iff]
    simp
  constructor
  · rintro ⟨h1, h2, h3⟩
    refine ⟨h1.trans (hless a b), h2.trans (by simp), h3.trans (hless b a)⟩
  · rintro ⟨h1, h2, h3⟩
    refine ⟨h1.trans (hless a b).symm, h2.trans (by simp), h3.trans (hless b a).symm⟩

theorem SignOf.cons_ne {c d : UInt8} (h : c ≠ d) (a b : List UInt8) :
    SignOf (charValue c - charValue d) (c :: a) (d :: b) := by
  have hne : charValue c ≠ charValue d := charValue_injective.ne h
  refine ⟨?_, ?_, ?_⟩
  · rw [values_cons, values_cons, List.cons_lt_cons_iff]
    simp [hne]
  · simp [h, sub_eq_zero, hne]
  · rw [values_cons, values_cons, List.cons_lt_cons_iff]
    simp [hne.symm]

/-- Two texts leave one sign only. -/
theorem SignOf.sign_eq {v w : ℤ} (h : SignOf v a b) (h' : SignOf w a b) : SignType.sign v = SignType.sign w := by
  rcases lt_trichotomy v 0 with hv | hv | hv
  · rw [sign_neg hv, sign_neg (h'.less.mpr (h.less.mp hv))]
  · rw [hv, h'.equal.mpr (h.equal.mp hv)]
  · rw [sign_pos hv, sign_pos (h'.greater.mpr (h.greater.mp hv))]

/-! ### What the comparisons answer -/

/-- The answer of `strcmp`: where one text is the beginning of the other, the shorter one counts as the greater. -/
def compared : List UInt8 → List UInt8 → ℤ
  | [], [] => 0
  | [], _ :: _ => 1
  | _ :: _, [] => -1
  | c :: a, d :: b => if c ≠ d then charValue c - charValue d else compared a b

/-- The answer of `strncmp`: two texts that both end before `n` are never equal. -/
def comparedN : ℕ → List UInt8 → List UInt8 → ℤ
  | 0, _, _ => 0
  | _ + 1, [], [] => 1
  | _ + 1, [], _ :: _ => -1
  | _ + 1, _ :: _, [] => 1
  | n + 1, c :: a, d :: b => if c ≠ d then charValue c - charValue d else comparedN n a b

/-- More fuel changes nothing. -/
theorem strcmpLoop_mono {fuel' : ℕ} {v : ℤ} (h : strcmpLoop s1 s2 fuel pos = .ok v) (hle : fuel ≤ fuel') :
    strcmpLoop s1 s2 fuel' pos = .ok v := by
  induction fuel generalizing fuel' pos with
  | zero => cases h
  | succ fuel ih =>
    obtain ⟨fuel', rfl⟩ : ∃ x, fuel' = x + 1 := ⟨fuel' - 1, by omega⟩
    unfold strcmpLoop at h ⊢
    split_ifs at h ⊢
    · exact h
    · exact ih h (by omega)
    · exact h
    · exact h
    · exact h

theorem strcmpLoop_spec (ha : TextAt s1 pos a) (hb : TextAt s2 pos b) (hfuel : min a.length b.length < fuel) :
    strcmpLoop s1 s2 fuel pos = .ok (compared a b) := by
  induction fuel generalizing pos a b with
  | zero => omega
  | succ fuel ih =>
    unfold strcmpLoop
    cases a with
    | nil =>
      have hz : s1 pos = 0 := ha
      rw [if_neg (fun h => h.1 hz), if_neg (not_not_intro hz)]
      cases b with
      | nil => rw [if_neg (not_not_intro (show s2 pos = 0 from hb)), compared]
      | cons d b => rw [if_pos (hb.1 ▸ hb.2.1), compared]
    | cons c a =>
      obtain ⟨rfl, hc, ha⟩ := ha
      cases b with
      | nil =>
        have hz : s2 pos = 0 := hb
        rw [if_neg (fun h => h.2 hz), if_pos hc, compared]
      | cons d b =>
        obtain ⟨rfl, hd, hb⟩ := hb
        rw [if_pos ⟨hc, hd⟩, compared]
        split
        · rfl
        · refine ih ha hb ?_
          simp only [List.length_cons] at hfuel
          omega

/-- **`strcmp`** -/
theorem strcmp_spec (ha : TextAt s1 0 a) (hb : TextAt s2 0 b) (hfuel : min a.length b.length < fuel) :
    strcmp s1 s2 fuel = .ok (compared a b) := strcmpLoop_spec ha hb hfuel

theorem strncmpLoop_spec (ha : TextAt s1 pos a) (hb : TextAt s2 pos b) :
    strncmpLoop s1 s2 n pos = comparedN n a b := by
  induction n generalizing pos a b with
  | zero => cases a <;> cases b <;> rfl
  | succ n ih =>
    unfold strncmpLoop
    cases a with
    | nil =>
      have hz : s1 pos = 0 := ha
      rw [if_neg (fun h => h.1 hz)]
      cases b with
      | nil => rw [if_neg (not_not_intro (show s2 pos = 0 from hb)), comparedN]
      | cons d b => rw [if_pos (hb.1 ▸ hb.2.1), comparedN]
    | cons c a =>
      obtain ⟨rfl, hc, ha⟩ := ha
      cases b with
      | nil =>
        have hz : s2 pos = 0 := hb
        rw [if_neg (fun h => h.2 hz), if_neg (not_not_intro hz), comparedN]
      | cons d b =>
        obtain ⟨rfl, hd, hb⟩ := hb
        rw [if_pos ⟨hc, hd⟩, comparedN, ih ha hb]

/-- **`strncmp`** -/
theorem strncmp_spec (ha : TextAt s1 0 a) (hb : TextAt s2 0 b) : strncmp s1 s2 n = comparedN n a b :=
  strncmpLoop_spec ha hb

/-! ### When the answers are right -/

theorem compared_sign (a b : List UInt8) : SignOf (compared a b) a b ↔ (a <+: b ∨ b <+: a → a = b) := by
  induction a generalizing b with
  | nil =>
    cases b with
    | nil => simp [compared, SignOf.nil]
    | cons d b => simp [compared, SignOf.nil_cons]
  | cons c a ih =>
    cases b with
    | nil => simp [compared, SignOf.cons_nil]
    | cons d b =>
      unfold compared
      by_cases hcd : c = d
      · rw [if_neg (not_not_intro hcd), hcd, SignOf.cons, ih]
        simp [List.cons_prefix_cons]
      · rw [if_pos hcd]
        have hother : ¬ d = c := fun h => hcd h.symm
        simp [SignOf.cons_ne hcd, List.cons_prefix_cons, hcd, hother]

theorem comparedN_sign (n : ℕ) (a b : List UInt8) :
    SignOf (comparedN n a b) (a.take n) (b.take n) ↔ (a = b → n ≤ a.length) := by
  induction n generalizing a b with
  | zero => simp [comparedN, SignOf.nil]
  | succ n ih =>
    cases a with
    | nil =>
      cases b with
      | nil => simp [comparedN, SignOf.nil]
      | cons d b => simp [comparedN, SignOf.nil_cons]
    | cons c a =>
      cases b with
      | nil => simp [comparedN, SignOf.cons_nil]
      | cons d b =>
        unfold comparedN
        by_cases hcd : c = d
        · rw [if_neg (not_not_intro hcd), hcd, List.take_succ_cons, List.take_succ_cons, SignOf.cons, ih]
          simp
        · rw [if_pos hcd]
          simp [SignOf.cons_ne hcd, hcd]

/-- **The comparisons are coherent** for texts that differ before either of them ends, and for equal texts that do not
end before `n`. -/
theorem coherent_iff (ha : TextAt s1 0 a) (hb : TextAt s2 0 b) (n : ℕ) :
    Coherent s1 s2 a b n ↔ (a <+: b ∨ b <+: a → a = b ∧ n ≤ a.length) := by
  constructor
  · intro h hprefix
    obtain ⟨v, hv, hsign⟩ := h.whole
    obtain rfl : v = compared a b := by
      have := (hv _ (Nat.lt_succ_self _)).symm.trans (strcmp_spec ha hb (Nat.lt_succ_self _))
      exact Except.ok.inj this
    have hstart := h.start
    rw [strncmp_spec ha hb] at hstart
    have heq := (compared_sign a b).mp hsign hprefix
    exact ⟨heq, (comparedN_sign n a b).mp hstart heq⟩
  · intro h
    have hwhole : SignOf (compared a b) a b := (compared_sign a b).mpr fun hprefix => (h hprefix).1
    have hstart : SignOf (comparedN n a b) (a.take n) (b.take n) := by
      refine (comparedN_sign n a b).mpr fun heq => (h (.inl ?_)).2
      rw [heq]
    rw [← strncmp_spec ha hb] at hstart
    refine ⟨⟨_, fun fuel hfuel => strcmp_spec ha hb hfuel, hwhole⟩, hstart, ?_⟩
    intro hla hlb fuel v hv
    rw [List.take_of_length_le hla.le, List.take_of_length_le hlb.le] at hstart
    have hfuel : v = compared a b := by
      have hmore := strcmpLoop_mono hv (Nat.le_max_left fuel (min a.length b.length + 1))
      have hspec := strcmp_spec ha hb (show min a.length b.length < max fuel (min a.length b.length + 1) by omega)
      exact Except.ok.inj (hmore.symm.trans hspec)
    rw [hfuel]
    exact hwhole.sign_eq hstart

/-- Two different words. -/
theorem coherent_words :
    TextAt (chars [97, 98]) 0 [97, 98] ∧ TextAt (chars [97, 99, 100]) 0 [97, 99, 100] ∧
      Coherent (chars [97, 98]) (chars [97, 99, 100]) [97, 98] [97, 99, 100] 7 := by
  have ha : TextAt (chars [97, 98]) 0 [97, 98] := ⟨rfl, by decide, rfl, by decide, rfl⟩
  have hb : TextAt (chars [97, 99, 100]) 0 [97, 99, 100] := ⟨rfl, by decide, rfl, by decide, rfl, by decide, rfl⟩
  exact ⟨ha, hb, (coherent_iff ha hb 7).mpr (by decide)⟩

/-- The text `hi` compared with itself: the first seven characters are found to differ. -/
theorem same_texts_differ :
    TextAt (chars [104, 105]) 0 [104, 105] ∧ ¬ Coherent (chars [104, 105]) (chars [104, 105]) [104, 105] [104, 105] 7 := by
  refine ⟨⟨rfl, by decide, rfl, by decide, rfl⟩, fun h => ?_⟩
  have hzero : strncmp (chars [104, 105]) (chars [104, 105]) 7 = 0 := h.start.equal.mpr rfl
  exact absurd hzero (by decide)

/-- Only equal texts compare as equal. -/
theorem compared_eq_zero (a b : List UInt8) : compared a b = 0 ↔ a = b := by
  induction a generalizing b with
  | nil => cases b <;> simp [compared]
  | cons c a ih =>
    cases b with
    | nil => simp [compared]
    | cons d b =>
      unfold compared
      by_cases hne : c ≠ d
      · have hvalue : charValue c ≠ charValue d := charValue_injective.ne hne
        rw [if_pos hne, sub_eq_zero]
        exact iff_of_false hvalue fun h => hne (List.head_eq_of_cons_eq h)
      · rw [if_neg hne, ih, List.cons.injEq, and_iff_right (not_not.mp hne)]

theorem strlenLoop_spec (ha : TextAt s1 pos a) (hfuel : a.length < fuel) :
    strlenLoop s1 fuel pos = .ok (pos + a.length) := by
  induction a generalizing fuel pos with
  | nil =>
    obtain ⟨fuel, rfl⟩ : ∃ x, fuel = x + 1 := ⟨fuel - 1, by simp only [List.length_nil] at hfuel; omega⟩
    exact if_pos ha
  | cons c a ih =>
    obtain ⟨rfl, hne, hrest⟩ := ha
    rw [List.length_cons] at hfuel ⊢
    obtain ⟨fuel, rfl⟩ : ∃ x, fuel = x + 1 := ⟨fuel - 1, by omega⟩
    rw [strlenLoop, if_neg hne, ih hrest (by omega), Nat.add_assoc, Nat.add_comm 1]

theorem strlen_spec (ha : TextAt s1 0 a) (hfuel : a.length < fuel) : strlen s1 fuel = .ok a.length := by
  rw [strlen, strlenLoop_spec ha hfuel, Nat.zero_add]

/-! ### Copying where the ranges overlap -/

theorem memmove_outside (M : Memory) (dst src len : ℕ) {x : ℕ} (hx : x < dst ∨ dst + len ≤ x) :
    memmove M dst src len x = M x := by
  induction len with
  | zero => rfl
  | succ pos ih =>
    rw [memmove]
    exact (Function.update_of_ne (by omega) _ _).trans (ih (by omega))

/-- Each byte is written in its own round, and not again. -/
theorem memmove_round (M : Memory) {dst src len i : ℕ} (hi : i < len) :
    memmove M dst src len (dst + i) = memmove M dst src i (src + i) := by
  induction len with
  | zero => omega
  | succ pos ih =>
    rw [memmove]
    by_cases he : i = pos
    · rw [he]
      exact Function.update_self _ _ _
    · exact (Function.update_of_ne (by omega) _ _).trans (ih (by omega))

/-- **`memmove`** copies upwards: a byte of the source that lies in the destination has been overwritten when its turn
comes. -/
theorem memmove_byte (M : Memory) {dst src len i : ℕ} (hi : i < len) :
    memmove M dst src len (dst + i) =
      if src < dst ∧ dst ≤ src + i then memmove M dst src len (src + i) else M (src + i) := by
  rw [memmove_round M hi]
  split
  · rename_i hover
    obtain ⟨k, hk⟩ : ∃ k, src + i = dst + k := ⟨src + i - dst, by omega⟩
    rw [hk, memmove_round M (show k < i by omega), memmove_round M (show k < len by omega)]
  · exact memmove_outside M dst src i (by omega)

/-- **`memmove` moves** the bytes unless the destination begins inside the source, and then only bytes that repeat. -/
theorem moved_iff (M : Memory) (dst src len : ℕ) :
    Moved M (memmove M dst src len) dst src len ↔
      (src < dst → ∀ i, dst + i < src + len → M (dst + i) = M (src + i)) := by
  constructor
  · intro h hlt i hi
    obtain ⟨j, hj⟩ : ∃ j, src + j = dst + i := ⟨dst + i - src, by omega⟩
    have hover := @memmove_byte M dst src len j (by omega)
    rw [if_pos (by omega), hj, h.inside i (by omega), h.inside j (by omega), hj] at hover
    exact hover
  · intro h
    refine ⟨fun i => ?_, fun x hx => memmove_outside M dst src len hx⟩
    induction i using Nat.strong_induction_on with
    | _ i ih =>
      intro hi
      rw [memmove_byte M hi]
      split
      · rename_i hover
        obtain ⟨j, hj⟩ : ∃ j, dst + j = src + i := ⟨src + i - dst, by omega⟩
        rw [← hj, ih j (by omega) (by omega), ← h hover.1 j (by omega)]
      · rfl

/-- Three bytes are moved up by one: the first of them is copied all the way. -/
theorem memmove_smears : ¬ Moved (chars [1, 2, 3, 4]) (memmove (chars [1, 2, 3, 4]) 1 0 3) 1 0 3 := by
  intro h
  have hbyte : memmove (chars [1, 2, 3, 4]) 1 0 3 (1 + 1) = chars [1, 2, 3, 4] (0 + 1) := h.inside 1 (by decide)
  exact absurd hbyte (by decide)

end AdelaideOS.Libc
