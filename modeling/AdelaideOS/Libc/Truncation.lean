import AdelaideOS.Libc.Directives

/-!
# What is stored and what is printed

`vsnprintf` stores the beginning of the rendering and returns the length of all of it.  `printf` and `kprintf` take that
length for the number of characters in their buffer.

* **`vsnprintf_truncates`** — formatting into a buffer is the beginning of the full rendering;
* **`honest_iff`** — the output of `printf` and `kprintf` is formatted text if the rendering fits into their buffer.
-/

namespace AdelaideOS.Libc

open AdelaideOS.Kernel AdelaideOS.Lib.Bytes

/-- The buffer `str'` of `size` bytes holds the beginning of the text `R`; it was `str` before. -/
structure Truncated (size : ℕ) (R : List UInt8) (str str' : Memory) : Prop where
  outside : ∀ i, size ≤ i → str' i = str i
  stored : (List.range (min R.length (size - 1))).map str' = R.take (size - 1)
  nul : 0 < size → str' (min R.length (size - 1)) = 0

/-- The bytes `out` are the beginning of the text `R`, as far as that is stored in the buffer of `printf`. -/
def Honest (R out : List UInt8) : Prop := out <+: R.take (PRINT_SIZE - 1)

/-- The text `R` is so long that an `int` cannot count it, and the few characters that went to the beginning of the buffer
last are the first ones again. -/
def WrapsAround (mem : Memory) (args : ℕ → UInt32) (format : ℕ) (R : List UInt8) : Prop :=
  2147483648 ≤ R.length ∧ ∃ S stop, Rendering ⟨mem, args, PRINT_SIZE⟩ intBlanks format 0 S stop ∧
    S.length % wordSize < PRINT_SIZE ∧
    ∀ i < S.length % wordSize, S[wordSize * (S.length / wordSize) + i]? = R[i]?

variable {j : Call} {mem : Memory} {args : ℕ → UInt32} {c ap stop format n size : ℕ} {R S out : List UInt8}
  {str : Memory} {items : List Item}

/-- **The call**: what is returned, and the buffer. -/
theorem vsnprintf_eq (h : Rendering j intBlanks format 0 R stop) : ∃ N, ∀ fuel ≥ N, ∀ str,
    vsnprintf j fuel format str =
      .ok (toInt (R.length % wordSize), terminate j.size (puts j.size R ⟨str, 0, 0, []⟩)) := by
  obtain ⟨-, N, hrun⟩ := h.run
  refine ⟨N, fun fuel hfuel str => ?_⟩
  have hzero : (0 : ℕ) < wordSize := by decide
  obtain ⟨ap', seen, hok, -⟩ := hrun fuel hfuel ⟨str, 0, 0, []⟩ rfl hzero
  have hpos : ((puts j.size R ⟨str, 0, 0, []⟩).mark ap' seen).pos = R.length % wordSize := by
    have hputs := puts_pos (o := ⟨str, 0, 0, []⟩) j.size R hzero
    rw [Nat.zero_add] at hputs
    exact hputs
  unfold vsnprintf
  rw [hok]
  simp only [bind, Except.bind]
  rw [hpos]
  rfl

/-- The text behind which the NUL is put. -/
theorem terminate_puts (hlen : R.length < 2147483648) :
    Truncated size R str (terminate size (puts size R ⟨str, 0, 0, []⟩)) := by
  have hsmall : R.length + 1 < wordSize := by
    simp only [wordSize]
    omega
  have hpos : (puts size R ⟨str, 0, 0, []⟩).pos = R.length := by
    rw [puts_pos size R (show (0 : ℕ) < wordSize by decide), Nat.zero_add, Nat.mod_eq_of_lt (by omega)]
  have hstr := @puts_str size R ⟨str, 0, 0, []⟩ (by simp only [Nat.zero_add]; omega)
  simp only [Nat.zero_add, Nat.zero_le, true_and, Nat.sub_zero] at hstr
  -- the NUL stands behind the characters that are stored
  have hterm : terminate size (puts size R ⟨str, 0, 0, []⟩) =
      if 0 < size then Function.update (puts size R ⟨str, 0, 0, []⟩).str (min R.length (size - 1)) 0
      else (puts size R ⟨str, 0, 0, []⟩).str := by
    unfold terminate
    rw [hpos, Nat.mod_eq_of_lt hsmall]
    split
    · split
      · rw [Nat.min_eq_left (by omega)]
      · rw [Nat.min_eq_right (by omega)]
    · rfl
  rw [hterm]
  refine ⟨fun i hi => ?_, ?_, fun hsize => ?_⟩
  · split
    · rw [Function.update_of_ne (by omega), hstr, if_neg (by omega)]
    · rw [hstr, if_neg (by omega)]
  · refine List.ext_getElem (by simp [Nat.min_comm]) fun i hi hi' => ?_
    simp only [List.length_map, List.length_range] at hi
    simp only [List.getElem_map, List.getElem_range, List.getElem_take]
    rw [if_pos (by omega), Function.update_of_ne (by omega), hstr, if_pos (by omega), List.getD_eq_getElem?_getD,
      List.getElem?_eq_getElem (by omega), Option.getD_some]
  · rw [if_pos hsize, Function.update_self]

/-- **Bounded formatting is the beginning of unbounded formatting.** -/
theorem vsnprintf_truncates (hs : TextAt j.mem format (spell items)) (hR : Renders j fullBlanks items 0 R)
    (hlen : R.length < 2147483648) :
    ∃ N, ∀ fuel ≥ N, ∀ str, ∃ str', vsnprintf j fuel format str = .ok (R.length, str') ∧ Truncated j.size R str str' := by
  obtain ⟨N, hrun⟩ := vsnprintf_eq ((hR.rendering hs).of_short hlen)
  refine ⟨N, fun fuel hfuel str => ⟨_, ?_, terminate_puts hlen⟩⟩
  have hsmall : R.length % wordSize = R.length := Nat.mod_eq_of_lt (by simp only [wordSize]; omega)
  have hint : toInt R.length = R.length := if_pos hlen
  rw [hrun fuel hfuel str, hsmall, hint]

/-- A padded percent sign and a plain character, cut off after three characters. -/
theorem vsnprintf_truncates_padded :
    ∃ N, ∀ fuel ≥ N, ∀ str, ∃ str', vsnprintf ⟨chars [37, 51, 37, 33], fun _ => 0, 4⟩ fuel 0 str = .ok (4, str') ∧
      Truncated 4 [32, 32, 37, 33] str str' := by
  let d : Directive := ⟨false, [51], 37, digits_of_all (by decide), by decide, by decide⟩
  have hs : TextAt (chars [37, 51, 37, 33]) 0 (spell [.directive d, .plain 33 (by decide)]) :=
    ⟨rfl, by decide, rfl, by decide, rfl, by decide, rfl, by decide, rfl⟩
  have hfield : IsField ⟨chars [37, 51, 37, 33], fun _ => 0, 4⟩ d.conv 0 [char '%'] := rfl
  have hR : Renders ⟨chars [37, 51, 37, 33], fun _ => 0, 4⟩ fullBlanks [.directive d, .plain 33 (by decide)] 0
      [32, 32, 37, 33] :=
    .directive d hfield (.plain 33 (by decide) .nil)
  exact vsnprintf_truncates hs hR (by decide)

/-! ### The output -/

theorem ofInt_toInt (hn : n < wordSize) : ofInt (toInt n) = n := by
  simp only [wordSize] at hn
  unfold ofInt toInt
  split <;> omega

/-- Both functions pass on as many bytes as `vsnprintf` has counted. -/
theorem printAll_eq (h : Rendering ⟨mem, args, PRINT_SIZE⟩ intBlanks format 0 S stop) :
    ∃ N, ∀ fuel ≥ N, ∀ buf, printAll mem args fuel format buf =
      .ok ((List.range (S.length % wordSize)).map (terminate PRINT_SIZE (puts PRINT_SIZE S ⟨buf, 0, 0, []⟩))) := by
  obtain ⟨N, hrun⟩ := vsnprintf_eq h
  refine ⟨N, fun fuel hfuel buf => ?_⟩
  unfold printAll
  rw [hrun fuel hfuel buf]
  simp only [bind, Except.bind, pure, Except.pure]
  rw [ofInt_toInt (Nat.mod_lt _ (by decide))]

/-- In front of the NUL, the buffer holds the characters that went there last. -/
theorem terminate_last {i : ℕ} (hi : i < S.length % wordSize) (hfits : S.length % wordSize < PRINT_SIZE) (buf : Memory) :
    S[wordSize * (S.length / wordSize) + i]? =
      some (terminate PRINT_SIZE (puts PRINT_SIZE S ⟨buf, 0, 0, []⟩) i) := by
  have hpos : (puts PRINT_SIZE S ⟨buf, 0, 0, []⟩).pos = S.length % wordSize := by
    rw [puts_pos PRINT_SIZE S (show (0 : ℕ) < wordSize by decide), Nat.zero_add]
  have hroom : i + 1 < PRINT_SIZE := by omega
  rw [puts_last (o := ⟨buf, 0, 0, []⟩) rfl hi hroom (by decide)]
  congr 1
  unfold terminate
  rw [hpos, if_pos (by decide)]
  by_cases hbehind : (S.length % wordSize + 1) % wordSize < PRINT_SIZE
  · rw [if_pos hbehind, Function.update_of_ne (by omega)]
  · rw [if_neg hbehind, Function.update_of_ne (by omega)]

/-- What the output is, if it is the beginning of a text. -/
theorem honest_range {B : Memory} : Honest R ((List.range n).map B) ↔ n < PRINT_SIZE ∧ ∀ i < n, R[i]? = some (B i) := by
  unfold Honest
  constructor
  · intro hprefix
    have hlen := hprefix.length_le
    simp only [List.length_map, List.length_range, List.length_take] at hlen
    have hsize : 0 < PRINT_SIZE := by decide
    refine ⟨by omega, fun i hi => ?_⟩
    have hget := List.IsPrefix.getElem hprefix (i := i) (by simpa using hi)
    simp only [List.getElem_map, List.getElem_range, List.getElem_take] at hget
    rw [List.getElem?_eq_getElem (by omega), hget]
  · rintro ⟨hn, hget⟩
    have hlen : n ≤ R.length := by
      rcases Nat.eq_zero_or_pos n with rfl | hpos
      · exact Nat.zero_le _
      · have hlast := (List.getElem?_eq_some_iff.mp (hget (n - 1) (by omega))).1
        omega
    have htake : (List.range n).map B = R.take n := by
      refine List.ext_getElem (by simp [hlen]) fun i hi hi' => ?_
      simp only [List.length_map, List.length_range] at hi
      have hi'' := hget i hi
      rw [List.getElem?_eq_getElem (by omega)] at hi''
      simp only [List.getElem_map, List.getElem_range, List.getElem_take]
      exact (Option.some.inj hi'').symm
    rw [htake]
    exact List.take_prefix_take_left (by omega)

/-- **The output is formatted text** exactly if the rendering fits into the buffer, or is so long that its length is not
seen. -/
theorem honest_iff (h : Rendering ⟨mem, args, PRINT_SIZE⟩ fullBlanks format 0 R stop) :
    ∃ N, ∀ fuel ≥ N, ∀ buf, ∃ out, printf mem args fuel format buf = .ok out ∧ kprintf mem args fuel format buf = .ok out ∧
      (Honest R out ↔ R.length < PRINT_SIZE ∨ WrapsAround mem args format R) := by
  obtain ⟨S, hS⟩ := h.change intBlanks
  obtain ⟨N, hrun⟩ := printAll_eq hS
  refine ⟨N, fun fuel hfuel buf => ⟨_, hrun fuel hfuel buf, hrun fuel hfuel buf, ?_⟩⟩
  -- the characters that went to the beginning of the buffer last
  have hlast : Honest R ((List.range (S.length % wordSize)).map
      (terminate PRINT_SIZE (puts PRINT_SIZE S ⟨buf, 0, 0, []⟩))) ↔
      S.length % wordSize < PRINT_SIZE ∧ ∀ i < S.length % wordSize, S[wordSize * (S.length / wordSize) + i]? = R[i]? := by
    rw [honest_range]
    refine and_congr_right fun hfits => forall₂_congr fun i hi => ?_
    rw [terminate_last hi hfits buf]
    exact eq_comm
  rw [hlast]
  by_cases hshort : R.length < 2147483648
  · obtain ⟨rfl, -⟩ := hS.unique (h.of_short hshort)
    have hsmall : S.length % wordSize = S.length ∧ S.length / wordSize = 0 := by
      simp only [wordSize]
      omega
    rw [hsmall.1, hsmall.2]
    constructor
    · exact fun hfits => .inl hfits.1
    · rintro (hfits | hwraps)
      · exact ⟨hfits, fun i _ => by rw [Nat.mul_zero, Nat.zero_add]⟩
      · exact absurd hwraps.1 (by omega)
  · constructor
    · exact fun hfits => .inr ⟨by omega, S, stop, hS, hfits⟩
    · rintro (hfits | ⟨-, T, stop', hT, hfits⟩)
      · simp only [PRINT_SIZE] at hfits
        omega
      · obtain ⟨rfl, -⟩ := hS.unique hT
        exact hfits

/-- A string that is aligned to the left, and a number to the right: `"%-3s%2u"` with `"hi"` and 7. -/
theorem honest_iff_fields : ∃ N, ∀ fuel ≥ N, ∀ buf, ∃ out,
    printf (chars [37, 45, 51, 115, 37, 50, 117, 0, 104, 105]) (fun n => if n = 0 then 8 else 7) fuel 0 buf = .ok out ∧
    kprintf (chars [37, 45, 51, 115, 37, 50, 117, 0, 104, 105]) (fun n => if n = 0 then 8 else 7) fuel 0 buf = .ok out ∧
    Honest [104, 105, 32, 32, 55] out := by
  let j : Call := ⟨chars [37, 45, 51, 115, 37, 50, 117, 0, 104, 105], fun n => if n = 0 then 8 else 7, PRINT_SIZE⟩
  let d₁ : Directive := ⟨true, [51], 115, digits_of_all (by decide), by decide, by decide⟩
  let d₂ : Directive := ⟨false, [50], 117, digits_of_all (by decide), by decide, by decide⟩
  have hs : TextAt j.mem 0 (spell [.directive d₁, .directive d₂]) :=
    ⟨rfl, by decide, rfl, by decide, rfl, by decide, rfl, by decide, rfl, by decide, rfl, by decide, rfl, by decide, rfl⟩
  have hstring : IsField j d₁.conv 0 [104, 105] := ⟨rfl, by decide, rfl, by decide, rfl⟩
  have hnumber : IsField j d₂.conv 1 [55] := (numeral_small (show 7 < 10 by decide)).symm
  have hR : Renders j fullBlanks [.directive d₁, .directive d₂] 0 [104, 105, 32, 32, 55] :=
    .directive d₁ hstring (.directive d₂ hnumber .nil)
  obtain ⟨N, hrun⟩ := honest_iff (hR.rendering hs)
  refine ⟨N, fun fuel hfuel buf => ?_⟩
  obtain ⟨out, hprintf, hkprintf, hiff⟩ := hrun fuel hfuel buf
  exact ⟨out, hprintf, hkprintf, hiff.mpr (.inl (by decide))⟩

/-- A percent sign that is padded to 4096 characters: the NUL is passed on with the rest. -/
theorem nul_is_printed : ∃ R, Rendering ⟨chars [37, 52, 48, 57, 54, 37], fun _ => 0, PRINT_SIZE⟩ fullBlanks 0 0 R 6 ∧
    ∃ N, ∀ fuel ≥ N, ∀ buf, ∃ out, printf (chars [37, 52, 48, 57, 54, 37]) (fun _ => 0) fuel 0 buf = .ok out ∧
      kprintf (chars [37, 52, 48, 57, 54, 37]) (fun _ => 0) fuel 0 buf = .ok out ∧ ¬ Honest R out := by
  let d : Directive := ⟨false, [52, 48, 57, 54], 37, digits_of_all (by decide), by decide, by decide⟩
  have hs : TextAt (chars [37, 52, 48, 57, 54, 37]) 0 (spell [.directive d]) :=
    ⟨rfl, by decide, rfl, by decide, rfl, by decide, rfl, by decide, rfl, by decide, rfl, by decide, rfl⟩
  let R : List UInt8 := padded (fullBlanks d.number 1) (d.left = true) [char '%'] ++ []
  have hfield : IsField ⟨chars [37, 52, 48, 57, 54, 37], fun _ => 0, PRINT_SIZE⟩ d.conv 0 [char '%'] := rfl
  have hR : Renders ⟨chars [37, 52, 48, 57, 54, 37], fun _ => 0, PRINT_SIZE⟩ fullBlanks [.directive d] 0 R :=
    .directive d hfield .nil
  have hlen : R.length = 4096 := by
    simp only [R, List.append_nil, padded_length]
    rfl
  have hrendering := hR.rendering hs
  refine ⟨R, hrendering, ?_⟩
  obtain ⟨N, hrun⟩ := printAll_eq (hrendering.of_short (by omega))
  refine ⟨N, fun fuel hfuel buf => ⟨_, hrun fuel hfuel buf, hrun fuel hfuel buf, ?_⟩⟩
  rw [honest_range, hlen]
  exact fun h => absurd h.1 (by decide)

end AdelaideOS.Libc
