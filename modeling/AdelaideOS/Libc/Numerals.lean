import AdelaideOS.Libc.Printing
import Mathlib.Data.Nat.Log

/-!
# Numbers as text

`print_num` looks for the largest power of the base that is not greater than the number, and then takes one digit after
the other with the powers below it.

* **`IsNumeral`** — the shortest text for a number, which can be read back;
* **`printNum_spec`** — `print_num` prints it, for every word;
* **`scaled`** — the power never overflows and never becomes 0;
* **`numbers_print`** — the conversions `u`, `x` and `d`.
-/

namespace AdelaideOS.Libc

open AdelaideOS.Kernel AdelaideOS.Lib.Bytes

/-! ### Numerals -/

/-- The characters are digits of the base. -/
def Digits (base : ℕ) (text : List UInt8) : Prop := ∀ c ∈ text, ∃ i < base, c = hexdigit i

/-- The number that a text of digits stands for. -/
def parse (base : ℕ) (text : List UInt8) : ℕ := text.foldl (fun n c => n * base + hexdigits.idxOf c) 0

/-- The text is the numeral of `n`: no text of digits that stands for `n` is shorter. -/
structure IsNumeral (base : ℕ) (text : List UInt8) (n : ℕ) : Prop where
  digits : Digits base text
  nonempty : text ≠ []
  leading : text.head? = some (char '0') → text = [char '0']
  value : parse base text = n
  shortest : ∀ t, Digits base t → t ≠ [] → parse base t = n → text.length ≤ t.length

/-- The text is the numeral of an `int`, with a sign if it is negative. -/
def IsInteger (text : List UInt8) (i : ℤ) : Prop :=
  if i < 0 then ∃ t, text = char '-' :: t ∧ IsNumeral 10 t i.natAbs else IsNumeral 10 text i.natAbs

/-- The digits of `n`, the last one behind the others. -/
def numeral (base n : ℕ) : List UInt8 :=
  if n = 0 then [hexdigit 0] else (Nat.digits base n).reverse.map hexdigit

def signedNumeral (i : ℤ) : List UInt8 :=
  if i < 0 then char '-' :: numeral 10 i.natAbs else numeral 10 i.natAbs

variable {base n i k val fuel : ℕ} {text t : List UInt8} {o : Printer} {s : ℕ × ℕ}

theorem numeral_small (hn : n < base) : numeral base n = [hexdigit n] := by
  unfold numeral
  by_cases hz : n = 0
  · rw [if_pos hz, hz]
  · rw [if_neg hz, Nat.digits_of_lt base n hz hn]
    rfl

theorem numeral_step (hb : 2 ≤ base) (hn : base ≤ n) :
    numeral base n = numeral base (n / base) ++ [hexdigit (n % base)] := by
  have hpos : n / base ≠ 0 := (Nat.div_pos hn (by omega)).ne'
  unfold numeral
  rw [if_neg (by omega), if_neg hpos, Nat.digits_def' (by omega) (by omega), List.reverse_cons, List.map_append]
  rfl

/-- The digits as `print_num` computes them. -/
theorem numeral_powers (hb : 2 ≤ base) (n : ℕ) :
    numeral base n = ((List.range (Nat.log base n)).map fun i => hexdigit (n / base ^ (Nat.log base n - i) % base)) ++
      [hexdigit (n % base)] := by
  induction n using Nat.strong_induction_on with
  | _ n ih =>
    by_cases hn : n < base
    · rw [numeral_small hn, Nat.log_of_lt hn, Nat.mod_eq_of_lt hn]
      rfl
    · have hlog : Nat.log base n = Nat.log base (n / base) + 1 := by
        have := Nat.log_pos (by omega) (show base ≤ n by omega)
        rw [Nat.log_div_base]
        omega
      rw [numeral_step hb (by omega), ih _ (Nat.div_lt_self (by omega) (by omega)), hlog, List.range_succ,
        List.map_append]
      congr 2
      · apply List.map_congr_left
        intro i hi
        rw [List.mem_range] at hi
        rw [Nat.div_div_eq_div_mul, ← pow_succ', show Nat.log base (n / base) + 1 - i = Nat.log base (n / base) - i + 1
          by omega]
      · simp

theorem numeral_length (hb : 2 ≤ base) (n : ℕ) : (numeral base n).length = Nat.log base n + 1 := by
  rw [numeral_powers hb]
  simp

/-! ### Reading a numeral back -/

theorem idxOf_hexdigit (hi : i < 16) : hexdigits.idxOf (hexdigit i) = i := by
  interval_cases i <;> rfl

theorem hexdigit_eq_zero (hi : i < 16) (h : hexdigit i = char '0') : i = 0 := by
  rw [← idxOf_hexdigit hi, h]
  rfl

theorem parse_append (base : ℕ) (t : List UInt8) (c : UInt8) :
    parse base (t ++ [c]) = parse base t * base + hexdigits.idxOf c := by
  rw [parse, List.foldl_append]
  rfl

theorem parse_lt (hb : base ≤ 16) (h : Digits base t) : parse base t < base ^ t.length := by
  induction t using List.reverseRecOn with
  | nil => exact Nat.one_pos
  | append_singleton t c ih =>
    obtain ⟨i, hi, rfl⟩ := h c (by simp)
    have hrest := ih fun c hc => h c (by simp [hc])
    rw [parse_append, idxOf_hexdigit (by omega), List.length_append, List.length_singleton, pow_succ]
    calc parse base t * base + i < parse base t * base + base := by omega
      _ = (parse base t + 1) * base := by ring
      _ ≤ base ^ t.length * base := Nat.mul_le_mul_right base hrest

theorem numeral_digits (hb : 2 ≤ base) (n : ℕ) : Digits base (numeral base n) := by
  rw [numeral_powers hb]
  intro c hc
  rw [List.mem_append, List.mem_map, List.mem_singleton] at hc
  rcases hc with ⟨i, -, rfl⟩ | rfl
  · exact ⟨_, Nat.mod_lt _ (by omega), rfl⟩
  · exact ⟨_, Nat.mod_lt _ (by omega), rfl⟩

theorem parse_numeral (hb : 2 ≤ base) (hb' : base ≤ 16) (n : ℕ) : parse base (numeral base n) = n := by
  induction n using Nat.strong_induction_on with
  | _ n ih =>
    by_cases hn : n < base
    · rw [numeral_small hn]
      show 0 * base + hexdigits.idxOf (hexdigit n) = n
      rw [idxOf_hexdigit (by omega)]
      omega
    · have hmod := Nat.mod_lt n (show base > 0 by omega)
      rw [numeral_step hb (by omega), parse_append, ih _ (Nat.div_lt_self (by omega) (by omega)),
        idxOf_hexdigit (by omega), Nat.div_add_mod']

/-- Only the numeral of 0 begins with a 0. -/
theorem numeral_leading (hb : 2 ≤ base) (hb' : base ≤ 16) (h : (numeral base n).head? = some (char '0')) : n = 0 := by
  induction n using Nat.strong_induction_on with
  | _ n ih =>
    by_cases hn : n < base
    · rw [numeral_small hn] at h
      exact hexdigit_eq_zero (by omega) (Option.some.inj h)
    · have hne : numeral base (n / base) ≠ [] := by
        rw [← List.length_pos_iff, numeral_length hb]
        omega
      rw [numeral_step hb (by omega), List.head?_append_of_ne_nil _ hne] at h
      have hpos := Nat.div_pos (show base ≤ n by omega) (by omega)
      have := ih _ (Nat.div_lt_self (by omega) (by omega)) h
      omega

/-- **The numeral** of a number is its numeral. -/
theorem isNumeral (hb : 2 ≤ base) (hb' : base ≤ 16) (n : ℕ) : IsNumeral base (numeral base n) n := by
  refine ⟨numeral_digits hb n, ?_, ?_, parse_numeral hb hb' n, ?_⟩
  · rw [← List.length_pos_iff, numeral_length hb]
    omega
  · intro h
    rw [numeral_leading hb hb' h]
    rfl
  · rintro t ht hne rfl
    rw [numeral_length hb]
    by_cases hz : parse base t = 0
    · rw [hz, Nat.log_zero_right]
      exact List.length_pos_iff.mpr hne
    · exact Nat.log_lt_of_lt_pow hz (parse_lt hb' ht)

theorem isInteger (i : ℤ) : IsInteger (signedNumeral i) i := by
  unfold IsInteger signedNumeral
  split
  · exact ⟨_, rfl, isNumeral (by decide) (by decide) _⟩
  · exact isNumeral (by decide) (by decide) _

/-! ### The two loops -/

/-- The first loop gets from one state to the other. -/
def Grows (base : ℕ) : ℕ × ℕ → ℕ × ℕ → Prop := Relation.ReflTransGen fun s t => base ≤ s.1 ∧ t = growStep base s

/-- The second loop gets from one state to the other. -/
def Shrinks (base : ℕ) : ℕ × ℕ → ℕ × ℕ → Prop := Relation.ReflTransGen fun s t => base ≤ s.1 ∧ t = shrinkStep base s

/-- The power of the base neither overflows nor becomes 0: wherever the first loop gets to, and from where it has
ended, wherever the second one gets to. -/
structure Scaled (base val : ℕ) : Prop where
  grow : ∀ s, Grows base (val, 1) s → 0 < s.2 ∧ (base ≤ s.1 → s.2 * base < wordSize)
  shrink : ∀ fuel s t, growLoop base fuel (val, 1) = .ok s → Shrinks base (val, s.2) t → 0 < t.2

theorem le_div_iff_lt_log (hb : 2 ≤ base) (i : ℕ) : base ≤ val / base ^ i ↔ i < Nat.log base val := by
  have hpos : 0 < base ^ i := Nat.pow_pos (by omega)
  rw [Nat.le_div_iff_mul_le hpos, ← pow_succ']
  constructor
  · intro h
    exact Nat.le_log_of_pow_le (by omega) h
  · intro h
    have hne : val ≠ 0 := by
      rintro rfl
      simp at h
    exact Nat.pow_le_of_le_log hne h

theorem growStep_power (hval : val < wordSize) (hi : i < Nat.log base val) :
    base ^ i * base < wordSize ∧ growStep base (val / base ^ i, base ^ i) = (val / base ^ (i + 1), base ^ (i + 1)) := by
  have hne : val ≠ 0 := by
    rintro rfl
    simp at hi
  have hle : base ^ (i + 1) ≤ val := Nat.pow_le_of_le_log hne hi
  rw [pow_succ] at hle
  have hlt : base ^ i * base < wordSize := by omega
  refine ⟨hlt, ?_⟩
  show (val / base ^ i / base, base ^ i * base % wordSize) = _
  rw [Nat.mod_eq_of_lt hlt, Nat.div_div_eq_div_mul, pow_succ]

theorem shrinkStep_power (hb : 2 ≤ base) (hi : i < k) :
    shrinkStep base (val / base ^ i, base ^ (k - i)) = (val / base ^ (i + 1), base ^ (k - (i + 1))) := by
  show (val / base ^ i / base, base ^ (k - i) / base) = _
  rw [Nat.div_div_eq_div_mul, ← pow_succ, show k - i = k - (i + 1) + 1 by omega,
    pow_succ base (k - (i + 1)), Nat.mul_div_cancel _ (by omega)]

/-- The states of the first loop. -/
theorem Grows.power (h : Grows base (val, 1) s) (hb : 2 ≤ base) (hval : val < wordSize) :
    ∃ i ≤ Nat.log base val, s = (val / base ^ i, base ^ i) := by
  induction h with
  | refl => exact ⟨0, Nat.zero_le _, by simp⟩
  | tail _ hstep ih =>
    obtain ⟨i, -, rfl⟩ := ih
    obtain ⟨hle, rfl⟩ := hstep
    have hi := (le_div_iff_lt_log hb i).mp hle
    exact ⟨i + 1, hi, (growStep_power hval hi).2⟩

/-- The states of the second loop. -/
theorem Shrinks.power (h : Shrinks base (val, base ^ Nat.log base val) s) (hb : 2 ≤ base) :
    ∃ i ≤ Nat.log base val, s = (val / base ^ i, base ^ (Nat.log base val - i)) := by
  induction h with
  | refl => exact ⟨0, Nat.zero_le _, by simp⟩
  | tail _ hstep ih =>
    obtain ⟨i, -, rfl⟩ := ih
    obtain ⟨hle, rfl⟩ := hstep
    have hi := (le_div_iff_lt_log hb i).mp hle
    exact ⟨i + 1, hi, shrinkStep_power hb hi⟩

theorem growLoop_grows {s t : ℕ × ℕ} (h : growLoop base fuel s = .ok t) : Grows base s t ∧ t.1 < base := by
  induction fuel generalizing s with
  | zero => cases h
  | succ fuel ih =>
    unfold growLoop at h
    split at h
    · obtain ⟨hgrows, hlt⟩ := ih h
      exact ⟨Relation.ReflTransGen.head ⟨‹_›, rfl⟩ hgrows, hlt⟩
    · obtain rfl := Except.ok.inj h
      exact ⟨Relation.ReflTransGen.refl, by omega⟩

theorem growLoop_power (hb : 2 ≤ base) (hval : val < wordSize) (h : growLoop base fuel (val, 1) = .ok s) :
    s.2 = base ^ Nat.log base val := by
  obtain ⟨hgrows, hlt⟩ := growLoop_grows h
  obtain ⟨i, hi, rfl⟩ := hgrows.power hb hval
  have hno := mt (le_div_iff_lt_log hb i).mpr (Nat.not_le.mpr hlt)
  rw [show i = Nat.log base val by omega]

/-- **No overflow.** -/
theorem scaled (hb : 2 ≤ base) (hval : val < wordSize) : Scaled base val := by
  constructor
  · intro s hs
    obtain ⟨i, -, rfl⟩ := hs.power hb hval
    exact ⟨Nat.pow_pos (by omega), fun hle => (growStep_power hval ((le_div_iff_lt_log hb i).mp hle)).1⟩
  · intro fuel s t hs ht
    rw [growLoop_power hb hval hs] at ht
    obtain ⟨i, -, rfl⟩ := ht.power hb
    exact Nat.pow_pos (by omega)

/-! ### `print_num` -/

theorem growLoop_spec (hb : 2 ≤ base) (hval : val < wordSize) (hi : i ≤ Nat.log base val)
    (hfuel : Nat.log base val < fuel + i) :
    ∃ x, growLoop base fuel (val / base ^ i, base ^ i) = .ok (x, base ^ Nat.log base val) := by
  induction fuel generalizing i with
  | zero => omega
  | succ fuel ih =>
    unfold growLoop
    by_cases hlt : i < Nat.log base val
    · rw [if_pos ((le_div_iff_lt_log hb i).mpr hlt), (growStep_power hval hlt).2]
      exact ih (by omega) (by omega)
    · rw [if_neg (mt (le_div_iff_lt_log hb i).mp hlt), show i = Nat.log base val by omega]
      exact ⟨_, rfl⟩

theorem shrinkLoop_spec (size : ℕ) (hb : 2 ≤ base) (hi : i ≤ Nat.log base val) (hfuel : Nat.log base val < fuel + i) :
    shrinkLoop size val base fuel (val / base ^ i, base ^ (Nat.log base val - i)) o =
      .ok (puts size ((List.range' i (Nat.log base val - i)).map fun j =>
        hexdigit (val / base ^ (Nat.log base val - j) % base)) o) := by
  induction fuel generalizing i o with
  | zero => omega
  | succ fuel ih =>
    unfold shrinkLoop
    by_cases hlt : i < Nat.log base val
    · rw [if_pos ((le_div_iff_lt_log hb i).mpr hlt), shrinkStep_power hb hlt, ih (by omega) (by omega),
        show Nat.log base val - i = Nat.log base val - (i + 1) + 1 by omega, List.range'_succ, List.map_cons, puts_cons,
        show Nat.log base val - (i + 1) + 1 = Nat.log base val - i by omega]
    · rw [if_neg (mt (le_div_iff_lt_log hb i).mp hlt), show Nat.log base val - i = 0 by omega]
      rfl

theorem log_lt (base : ℕ) (hval : val < wordSize) : Nat.log base val < 32 := by
  rcases Nat.lt_or_ge base 2 with hb | hb
  · rw [Nat.log_of_left_le_one (by omega)]
    decide
  · by_cases hz : val = 0
    · rw [hz, Nat.log_zero_right]
      decide
    · refine Nat.log_lt_of_lt_pow hz (hval.trans_le ?_)
      calc wordSize = 2 ^ 32 := rfl
        _ ≤ base ^ 32 := Nat.pow_le_pow_left hb 32

/-- **`print_num`** -/
theorem printNum_spec (size : ℕ) (hb : 2 ≤ base) (hval : val < wordSize) (hfuel : 32 ≤ fuel) :
    printNum size fuel val base o = .ok (puts size (numeral base val) o) := by
  have hlog := log_lt base hval
  obtain ⟨x, hgrow⟩ := @growLoop_spec base 0 val fuel hb hval (Nat.zero_le _) (by omega)
  have hshrink := @shrinkLoop_spec base 0 val fuel o size hb (Nat.zero_le _) (by omega)
  rw [pow_zero, Nat.div_one] at hgrow hshrink
  rw [Nat.sub_zero] at hshrink
  unfold printNum
  rw [hgrow]
  simp only [bind, Except.bind]
  rw [hshrink]
  simp only [pure, Except.pure]
  rw [puts_one, ← puts_append, numeral_powers hb, List.range_eq_range']

/-! ### The conversions -/

/-- The conversion at `c` stores the text in the buffer, behind what is there. -/
structure Stores (j : Call) (c : ℕ) (o : Printer) (text : List UInt8) : Prop where
  run : ∃ N, ∀ fuel ≥ N, ∃ o', printField j fuel c o = .ok o' ∧ o'.pos = o.pos + text.length ∧
    ∀ i < text.length, text[i]? = some (o'.str (o.pos + i))

/-- What `u`, `x` and `d` print for a word, in a buffer that is large enough. -/
structure PrintsNumber (j : Call) (c : ℕ) (o : Printer) (word : ℕ) : Prop where
  unsigned : j.mem c = char 'u' → ∃ text, IsNumeral 10 text word ∧ (o.pos + text.length < j.size → Stores j c o text)
  hex : j.mem c = char 'x' → ∃ text, IsNumeral 16 text word ∧ (o.pos + text.length < j.size → Stores j c o text)
  signed : j.mem c = char 'd' → ∃ text, IsInteger text (toInt word) ∧
    (o.pos + text.length < j.size → Stores j c o text)

variable {j : Call} {c : ℕ}

/-- A text that fits is stored. -/
theorem stores_of_puts (ap : ℕ) (seen : List ℕ) (hsize : j.size < wordSize) (hfits : o.pos + text.length < j.size)
    (h : ∀ fuel ≥ 32, printField j fuel c o = .ok (puts j.size text { o with ap := ap, seen := seen })) :
    Stores j c o text := by
  let o₁ : Printer := { o with ap := ap, seen := seen }
  have hpos : o₁.pos < wordSize := show o.pos < wordSize by omega
  have hlen : o₁.pos + text.length < wordSize := show o.pos + text.length < wordSize by omega
  refine ⟨32, fun fuel hfuel => ⟨_, h fuel hfuel, ?_, fun i hi => ?_⟩⟩
  · exact (puts_pos j.size text hpos).trans (Nat.mod_eq_of_lt hlen)
  · rw [puts_str hlen]
    show text[i]? = some (if o.pos ≤ o.pos + i ∧ o.pos + i < o.pos + text.length ∧ o.pos + i + 1 < j.size then
      text.getD (o.pos + i - o.pos) 0 else o.str (o.pos + i))
    rw [if_pos (by omega), Nat.add_sub_cancel_left, List.getD_eq_getElem?_getD, List.getElem?_eq_getElem hi]
    rfl

/-- `-val` of an `int`, taken for an `unsigned int`. -/
theorem ofInt_neg {word : ℕ} (hword : word < wordSize) (hneg : toInt word < 0) :
    ofInt (wrapInt (-toInt word)) = (toInt word).natAbs := by
  have hbig : ¬ word < 2147483648 := by
    intro hlt
    rw [toInt, if_pos hlt] at hneg
    omega
  have hval : toInt word = (word : ℤ) - 4294967296 := if_neg hbig
  simp only [wordSize] at hword
  have hself : ofInt (-((word : ℤ) - 4294967296)) = 4294967296 - word := by
    unfold ofInt
    omega
  have habs : ((word : ℤ) - 4294967296).natAbs = 4294967296 - word := by omega
  unfold wrapInt
  rw [hval, hself, habs]
  unfold toInt ofInt
  split <;> omega

theorem toInt_natAbs {word : ℕ} (hword : word < wordSize) (hpos : ¬ toInt word < 0) : (toInt word).natAbs = word := by
  simp only [wordSize] at hword
  unfold toInt at *
  split_ifs at * <;> omega

/-- What the conversion `d` prints. -/
theorem printSigned (size : ℕ) {word : ℕ} (hword : word < wordSize) (hfuel : 32 ≤ fuel) (o : Printer) :
    (if toInt word < 0 then printNum size fuel (ofInt (wrapInt (-toInt word))) 10 (addchar size (char '-') o)
      else printNum size fuel word 10 o) = .ok (puts size (signedNumeral (toInt word)) o) := by
  unfold signedNumeral
  split
  · rename_i hneg
    have hlt : (toInt word).natAbs < wordSize := by
      simp only [wordSize] at hword ⊢
      unfold toInt
      split_ifs <;> omega
    rw [ofInt_neg hword hneg, printNum_spec size (by decide) hlt hfuel, puts_cons]
  · rename_i hpos
    rw [toInt_natAbs hword hpos, printNum_spec size (by decide) hword hfuel]

/-- **Numbers print as their numerals**, for every word, and the power of the base never overflows. -/
theorem numbers_print (j : Call) (hsize : j.size < wordSize) (c : ℕ) (o : Printer) :
    PrintsNumber j c o (j.args o.ap).toNat ∧ ∀ val < wordSize, Scaled 10 val ∧ Scaled 16 val := by
  have hword : (j.args o.ap).toNat < wordSize := (j.args o.ap).toNat_lt
  refine ⟨⟨fun hc => ?_, fun hc => ?_, fun hc => ?_⟩, fun val hval => ⟨scaled (by decide) hval, scaled (by decide) hval⟩⟩
  · refine ⟨_, isNumeral (by decide) (by decide) _, fun hfits => ?_⟩
    refine stores_of_puts (o.ap + 1) (c :: o.seen) hsize hfits fun fuel hfuel => ?_
    unfold printField
    simp only [hc]
    exact printNum_spec _ (by decide) hword hfuel
  · refine ⟨_, isNumeral (by decide) (by decide) _, fun hfits => ?_⟩
    refine stores_of_puts (o.ap + 1) (c :: o.seen) hsize hfits fun fuel hfuel => ?_
    unfold printField
    simp only [hc]
    exact printNum_spec _ (by decide) hword hfuel
  · refine ⟨_, isInteger _, fun hfits => ?_⟩
    refine stores_of_puts (o.ap + 1) (c :: o.seen) hsize hfits fun fuel hfuel => ?_
    unfold printField
    simp only [hc]
    exact printSigned _ hword hfuel _

/-- The smallest `int` is printed with the conversion `d`, into 20 bytes. -/
theorem numbers_print_min :
    ∃ text, IsInteger text (-2147483648) ∧
      Stores ⟨fun _ => char 'd', fun _ => 2147483648, 20⟩ 0 ⟨fun _ => 0, 0, 0, []⟩ text := by
  obtain ⟨text, htext, hstores⟩ := (numbers_print ⟨fun _ => char 'd', fun _ => 2147483648, 20⟩ (by decide) 0
    ⟨fun _ => 0, 0, 0, []⟩).1.signed rfl
  refine ⟨text, htext, hstores ?_⟩
  -- ten digits are enough
  obtain ⟨t, rfl, ht⟩ : ∃ t, text = char '-' :: t ∧ IsNumeral 10 t 2147483648 := htext
  have hdigits : Digits 10 ([2, 1, 4, 7, 4, 8, 3, 6, 4, 8].map hexdigit) := by
    intro c hc
    obtain ⟨i, hi, rfl⟩ := List.mem_map.mp hc
    have hlt : ∀ i ∈ [2, 1, 4, 7, 4, 8, 3, 6, 4, 8], i < 10 := by decide
    exact ⟨i, hlt i hi, rfl⟩
  have hten := ht.shortest _ hdigits (by decide) (by decide)
  simp only [List.length_map, List.length_cons, List.length_nil] at hten ⊢
  omega

end AdelaideOS.Libc
