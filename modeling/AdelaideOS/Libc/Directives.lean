import AdelaideOS.Libc.Rendering

/-!
# Formats that are complete

A format is complete if a directive follows each percent sign: an optional dash, an optional width, and one more
character.  Such formats are the spellings of lists of items.

* **`Renders.rendering`** — the rendering of a list of items is that of its spelling;
* **`inBounds_iff`** — `vsnprintf` stays inside a format exactly if it is complete.
-/

namespace AdelaideOS.Libc

open AdelaideOS.Kernel AdelaideOS.Lib.Bytes

/-! ### Items -/

/-- What follows a percent sign.  The character of the conversion ends the digits, and it is no dash that would be taken
for the flag. -/
structure Directive where
  left : Bool
  width : List UInt8
  conv : UInt8
  digits : ∀ ch ∈ width, IsDigit ch
  conv_not_digit : ¬ IsDigit conv
  conv_not_dash : left = false → width = [] → conv ≠ char '-'

inductive Item where
  | plain (ch : UInt8) (h : ch ≠ char '%')
  | directive (d : Directive)

def Directive.dash (d : Directive) : List UInt8 := if d.left then [char '-'] else []

def Item.text : Item → List UInt8
  | .plain ch _ => [ch]
  | .directive d => char '%' :: (d.dash ++ (d.width ++ [d.conv]))

/-- The format that consists of these items. -/
def spell (items : List Item) : List UInt8 := items.flatMap Item.text

/-- Each percent sign is followed by a complete directive. -/
def Complete (s : List UInt8) : Prop := ∃ items, s = spell items

/-- The width of the field; no digits mean no width. -/
def Directive.number (d : Directive) : ℕ := d.width.foldl addDigit 0

/-- The text `R` for the items, with the arguments from number `ap` on, where `blanks` counts the blanks of a field. -/
inductive Renders (j : Call) (blanks : ℕ → ℕ → ℕ) : List Item → ℕ → List UInt8 → Prop where
  | nil {ap : ℕ} : Renders j blanks [] ap []
  | plain {items : List Item} {ap : ℕ} {R : List UInt8} (ch : UInt8) (h : ch ≠ char '%') : Renders j blanks items ap R →
      Renders j blanks (.plain ch h :: items) ap (ch :: R)
  | directive {items : List Item} {ap : ℕ} {text R : List UInt8} (d : Directive) : IsField j d.conv ap text →
      Renders j blanks items (ap + fetches d.conv) R →
      Renders j blanks (.directive d :: items) ap (padded (blanks d.number text.length) (d.left = true) text ++ R)

/-- `vsnprintf` ends at the NUL of the format `s`, and has looked at no byte behind it. -/
def InBounds (j : Call) (format : ℕ) (s : List UInt8) : Prop :=
  ∃ N, ∀ fuel ≥ N, ∀ str, ∃ o, vsnprintfLoop j fuel format ⟨str, 0, 0, []⟩ = .ok (format + s.length, o) ∧
    ∀ a ∈ o.seen, format ≤ a ∧ a ≤ format + s.length

variable {j : Call} {mem : Memory} {c c' w ap stop format fuel : ℕ} {s t text R : List UInt8} {o o' : Printer}
  {items : List Item} {blanks : ℕ → ℕ → ℕ}

theorem spell_cons (item : Item) (items : List Item) : spell (item :: items) = item.text ++ spell items := rfl

theorem digits_of_all {width : List UInt8} (h : (width.all fun ch => decide (IsDigit ch)) = true) :
    ∀ ch ∈ width, IsDigit ch := by
  simpa using h

theorem dash_not_digit : ¬ IsDigit (char '-') := by decide

/-! ### From items to the rendering -/

/-- The digits of a width are read. -/
theorem width_of_digits {width : List UInt8} {ch : UInt8} (h : TextAt mem c (width ++ ch :: s))
    (hdigits : ∀ ch ∈ width, IsDigit ch) (hno : ¬ IsDigit ch) (w : ℕ) :
    Width mem c w (width.foldl addDigit w) (c + width.length) := by
  induction width generalizing c w with
  | nil =>
    refine .done ?_
    rw [h.1]
    exact hno
  | cons d width ih =>
    obtain ⟨rfl, -, hrest⟩ := h
    have htail := ih hrest (fun ch hch => hdigits ch (by simp [hch])) (addDigit w (mem c))
    rw [List.length_cons, ← Nat.add_assoc, Nat.add_right_comm]
    exact .digit (hdigits _ (by simp)) htail

/-- The flag of a directive is recognised. -/
theorem Directive.flag (d : Directive) (h : TextAt mem (c + 1) (d.dash ++ (d.width ++ d.conv :: s))) :
    (mem (c + 1) = char '-' ↔ d.left = true) ∧ widthAt mem c = c + 1 + d.dash.length := by
  unfold widthAt
  unfold Directive.dash at *
  by_cases hleft : d.left = true
  · rw [if_pos hleft] at h ⊢
    have hdash : mem (c + 1) = char '-' := h.1
    exact ⟨iff_of_true hdash hleft, if_pos hdash⟩
  · rw [if_neg hleft] at h ⊢
    have hno : mem (c + 1) ≠ char '-' := by
      cases hwidth : d.width with
      | nil =>
        rw [hwidth] at h
        rw [h.1]
        exact d.conv_not_dash (by simpa using hleft) hwidth
      | cons ch width =>
        rw [hwidth] at h
        intro hdash
        have hdigit := d.digits ch (by simp [hwidth])
        rw [← h.1, hdash] at hdigit
        exact dash_not_digit hdigit
    exact ⟨iff_of_false hno hleft, if_neg hno⟩

/-- **The spelling of items** has the rendering of the items. -/
theorem Renders.rendering (h : Renders j blanks items ap R) (hs : TextAt j.mem c (spell items)) :
    Rendering j blanks c ap R (c + (spell items).length) := by
  induction h generalizing c with
  | nil => exact .done hs
  | @plain items ap R ch hne hrest ih =>
    rw [spell_cons, Item.text, List.singleton_append] at hs ⊢
    obtain ⟨rfl, hz, hs⟩ := hs
    have hrest := ih hs
    rw [List.length_cons, ← Nat.add_assoc, Nat.add_right_comm]
    exact .plain hz hne hrest
  | @directive items ap text R d hfield hrest ih =>
    have hspell : spell (.directive d :: items) = char '%' :: (d.dash ++ (d.width ++ d.conv :: spell items)) := by
      rw [spell_cons, Item.text]
      simp
    rw [hspell] at hs ⊢
    obtain ⟨hp, -, hs⟩ := hs
    obtain ⟨hflag, hat⟩ := d.flag hs
    have hwidth := hs.drop
    have hw := width_of_digits hwidth d.digits d.conv_not_digit 0
    rw [← hat] at hw
    have hconv := hwidth.drop
    rw [← hat] at hconv
    have htail := ih hconv.2.2
    have hfinal := Rendering.field hp hw (by rw [hconv.1]; exact hfield) (by rw [hconv.1]; exact htail)
    rw [hat] at hfinal
    simp only [List.length_cons, List.length_append]
    have hpad : padded (blanks d.number text.length) (d.left = true) text =
        padded (blanks (d.width.foldl addDigit 0) text.length) (j.mem (c + 1) = char '-') text := by
      unfold padded Directive.number
      simp only [hflag]
    rw [hpad]
    convert hfinal using 1
    omega

/-! ### Formats that are not complete -/

theorem padDigits_inv {pad pad' : ℤ} (h : padDigits mem fuel c pad o = .ok (pad', c', o')) (hs : TextAt mem c s) :
    ∃ width rest, s = width ++ rest ∧ c' = c + width.length ∧ TextAt mem c' rest ∧ (∀ ch ∈ width, IsDigit ch) ∧
      ¬ IsDigit (mem c') := by
  induction fuel generalizing c pad o s with
  | zero => cases h
  | succ fuel ih =>
    unfold padDigits at h
    by_cases hdigit : IsDigit (mem c)
    · replace h := (if_pos hdigit).symm.trans h
      cases s with
      | nil =>
        have hz : mem c = 0 := hs
        rw [hz] at hdigit
        exact absurd hdigit (by decide)
      | cons ch s =>
        obtain ⟨rfl, -, hs⟩ := hs
        obtain ⟨width, rest, rfl, rfl, hrest, hdigits, hno⟩ := ih h hs
        refine ⟨mem c :: width, rest, rfl, ?_, hrest, ?_, hno⟩
        · rw [List.length_cons]
          omega
        · intro x hx
          rcases List.mem_cons.mp hx with rfl | hx
          · exact hdigit
          · exact hdigits x hx
    · replace h := (if_neg hdigit).symm.trans h
      simp only [Except.ok.injEq, Prod.mk.injEq] at h
      obtain ⟨-, rfl, -⟩ := h
      exact ⟨[], s, rfl, rfl, hs, by simp, hdigit⟩

theorem padDigits_le {pad pad' : ℤ} (h : padDigits mem fuel c pad o = .ok (pad', c', o')) : c ≤ c' := by
  induction fuel generalizing c pad o with
  | zero => cases h
  | succ fuel ih =>
    unfold padDigits at h
    split at h
    · have := ih h
      omega
    · simp only [Except.ok.injEq, Prod.mk.injEq] at h
      obtain ⟨-, rfl, -⟩ := h
      exact le_rfl

/-- Behind a percent sign, the loop goes on behind the character that it takes for the conversion. -/
theorem vsnprintfLoop_percent {x : ℕ × Printer} (h : vsnprintfLoop j (fuel + 1) c o = .ok x) (hp : j.mem c = char '%') :
    ∃ pad c' o₁ o₂ o₃, padDigits j.mem fuel (widthAt j.mem c) 0 o₁ = .ok (pad, c', o₂) ∧
      vsnprintfLoop j fuel (c' + 1) o₃ = .ok x := by
  have hpercent : ¬ char '%' = 0 := by decide
  rw [vsnprintfLoop] at h
  simp only [hp, if_neg hpercent, if_true] at h
  obtain ⟨⟨pad, c', o₂⟩, hdigits, h⟩ := bind_eq_ok.mp h
  obtain ⟨o₃, -, h⟩ := bind_eq_ok.mp h
  have hat : (if j.mem (c + 1) ≠ char '-' then c + 1 else c + 2) = widthAt j.mem c := by
    unfold widthAt
    by_cases hleft : j.mem (c + 1) = char '-'
    · rw [if_pos hleft, if_neg (not_not_intro hleft)]
    · rw [if_neg hleft, if_pos hleft]
  rw [hat] at hdigits
  split at h
  · obtain ⟨o₄, -, h⟩ := bind_eq_ok.mp h
    exact ⟨pad, c', _, o₂, _, hdigits, h⟩
  · exact ⟨pad, c', _, o₂, _, hdigits, h⟩

theorem vsnprintfLoop_le (h : vsnprintfLoop j fuel c o = .ok (stop, o')) : c ≤ stop := by
  induction fuel generalizing c o with
  | zero => cases h
  | succ fuel ih =>
    by_cases hp : j.mem c = char '%'
    · obtain ⟨pad, c', o₁, o₂, o₃, hdigits, hrest⟩ := vsnprintfLoop_percent h hp
      have h1 := padDigits_le hdigits
      have h2 := ih hrest
      have h3 : c + 1 ≤ widthAt j.mem c := by
        unfold widthAt
        split <;> omega
      omega
    · unfold vsnprintfLoop at h
      simp only [if_neg hp] at h
      split at h
      · simp only [Except.ok.injEq, Prod.mk.injEq] at h
        omega
      · have := ih h
        omega

/-- **A format at whose NUL the scan ends is complete.** -/
theorem complete_of_stop (hs : TextAt j.mem c s) (h : vsnprintfLoop j fuel c o = .ok (c + s.length, o')) : Complete s := by
  induction fuel generalizing c o s with
  | zero => cases h
  | succ fuel ih =>
    cases s with
    | nil => exact ⟨[], rfl⟩
    | cons ch s =>
      rw [List.length_cons] at h
      by_cases hp : j.mem c = char '%'
      · obtain ⟨pad, c', o₁, o₂, o₃, hdigits, hrest⟩ := vsnprintfLoop_percent h hp
        obtain ⟨hch, -, hs⟩ := hs
        -- the dash is a character of the format
        obtain ⟨left, v, rfl, hat, hv, hno⟩ : ∃ (left : Bool) (v : List UInt8),
            s = (if left then [char '-'] else []) ++ v ∧
            widthAt j.mem c = c + 1 + (if left then [char '-'] else []).length ∧ TextAt j.mem (widthAt j.mem c) v ∧
            (left = false → j.mem (c + 1) ≠ char '-') := by
          unfold widthAt
          by_cases hleft : j.mem (c + 1) = char '-'
          · rw [if_pos hleft]
            cases s with
            | nil =>
              have hz : j.mem (c + 1) = 0 := hs
              rw [hz] at hleft
              exact absurd hleft (by decide)
            | cons d s =>
              obtain ⟨rfl, -, hs⟩ := hs
              exact ⟨true, s, by rw [hleft]; rfl, rfl, hs, by simp⟩
          · rw [if_neg hleft]
            exact ⟨false, s, rfl, rfl, hs, fun _ => hleft⟩
        obtain ⟨width, rest, rfl, hc', hrest', hwidth, hconv⟩ := padDigits_inv hdigits hv
        cases rest with
        | nil =>
          -- the conversion is the NUL, and the scan goes on behind it
          have hle := vsnprintfLoop_le hrest
          rw [hc', hat] at hle
          simp only [List.length_append, List.length_nil] at hle
          omega
        | cons conv rest =>
          obtain ⟨rfl, -, htail⟩ := hrest'
          have hend : c + ((if left then [char '-'] else []) ++ (width ++ j.mem c' :: rest)).length.succ =
              c' + 1 + rest.length := by
            rw [hc', hat]
            simp only [List.length_append, List.length_cons]
            omega
          rw [← Nat.succ_eq_add_one, hend] at hrest
          obtain ⟨items, hitems⟩ := ih htail hrest
          let d : Directive := ⟨left, width, j.mem c', hwidth, hconv, by
            rintro rfl rfl
            have hsame : c' = c + 1 := by
              rw [hc', hat]
              rfl
            rw [hsame]
            exact hno rfl⟩
          refine ⟨.directive d :: items, ?_⟩
          rw [spell_cons, Item.text, ← hitems, ← hch, hp]
          simp [d, Directive.dash]
      · obtain ⟨rfl, hz, hs⟩ := hs
        unfold vsnprintfLoop at h
        simp only [if_neg hp, if_neg hz] at h
        rw [show c + (s.length + 1) = c + 1 + s.length by omega] at h
        obtain ⟨items, rfl⟩ := ih hs h
        exact ⟨.plain _ hp :: items, rfl⟩

/-- **The scan stays inside the format** exactly if the format is complete, with arguments that match it. -/
theorem inBounds_iff (hs : TextAt j.mem format s)
    (hargs : ∀ items, s = spell items → ∃ R, Renders j fullBlanks items 0 R) : InBounds j format s ↔ Complete s := by
  constructor
  · rintro ⟨N, hrun⟩
    obtain ⟨o, hok, -⟩ := hrun N le_rfl fun _ => 0
    exact complete_of_stop hs hok
  · rintro ⟨items, rfl⟩
    obtain ⟨R, hR⟩ := hargs items rfl
    obtain ⟨S, hS⟩ := (hR.rendering hs).change intBlanks
    obtain ⟨-, N, hrun⟩ := hS.run
    refine ⟨N, fun fuel hfuel str => ?_⟩
    obtain ⟨ap', seen, hok, hseen⟩ := hrun fuel hfuel ⟨str, 0, 0, []⟩ rfl (show (0 : ℕ) < wordSize by decide)
    refine ⟨_, hok, fun a ha => ?_⟩
    exact (hseen a ha).resolve_left (by simp)

/-- Arguments that all point to strings match every format. -/
theorem renders_of_strings (h : ∀ n, ∃ t, TextAt j.mem (j.args n).toNat t) (blanks : ℕ → ℕ → ℕ) (items : List Item)
    (ap : ℕ) : ∃ R, Renders j blanks items ap R := by
  induction items generalizing ap with
  | nil => exact ⟨[], .nil⟩
  | cons item items ih =>
    cases item with
    | plain ch hne =>
      obtain ⟨R, hR⟩ := ih ap
      exact ⟨_, .plain ch hne hR⟩
    | directive d =>
      obtain ⟨R, hR⟩ := ih (ap + fetches d.conv)
      obtain ⟨t, ht⟩ := h ap
      have hfield : ∃ text, IsField j d.conv ap text := by
        unfold IsField
        simp only
        split_ifs
        · exact ⟨t, ht⟩
        all_goals exact ⟨_, rfl⟩
      obtain ⟨text, htext⟩ := hfield
      exact ⟨_, .directive d htext hR⟩

/-- A field that is as wide as its number asks for, followed by a plain character. -/
theorem inBounds_iff_wide :
    TextAt (chars [37, 45, 49, 50, 100, 46]) 0 [37, 45, 49, 50, 100, 46] ∧
      InBounds ⟨chars [37, 45, 49, 50, 100, 46], fun _ => 6, 20⟩ 0 [37, 45, 49, 50, 100, 46] := by
  have hs : TextAt (chars [37, 45, 49, 50, 100, 46]) 0 [37, 45, 49, 50, 100, 46] :=
    ⟨rfl, by decide, rfl, by decide, rfl, by decide, rfl, by decide, rfl, by decide, rfl, by decide, rfl⟩
  let j : Call := ⟨chars [37, 45, 49, 50, 100, 46], fun _ => 6, 20⟩
  have hargs : ∀ n, ∃ t, TextAt j.mem (j.args n).toNat t := fun n => ⟨[], rfl⟩
  refine ⟨hs, (inBounds_iff (j := j) hs fun items _ => renders_of_strings hargs fullBlanks items 0).mpr ?_⟩
  exact ⟨[.directive ⟨true, [49, 50], 100, digits_of_all (by decide), by decide, by decide⟩, .plain 46 (by decide)], rfl⟩

/-- A format that consists of a percent sign. -/
theorem percent_runs_on :
    TextAt (chars [37]) 0 [37] ∧ ¬ InBounds ⟨chars [37], fun _ => 0, 20⟩ 0 [37] := by
  have hs : TextAt (chars [37]) 0 [37] := ⟨rfl, by decide, rfl⟩
  refine ⟨hs, ?_⟩
  rintro ⟨N, hrun⟩
  obtain ⟨o, hok, -⟩ := hrun N le_rfl fun _ => 0
  obtain ⟨items, hitems⟩ := complete_of_stop hs hok
  cases items with
  | nil => cases hitems
  | cons item items =>
    rw [spell_cons] at hitems
    cases item with
    | plain ch hne =>
      have hch : char '%' = ch := List.head_eq_of_cons_eq hitems
      exact hne hch.symm
    | directive d =>
      -- one character is too short for a directive
      have hlen := congrArg List.length hitems
      simp only [Item.text, List.length_append, List.length_cons, List.length_nil] at hlen
      omega

end AdelaideOS.Libc
