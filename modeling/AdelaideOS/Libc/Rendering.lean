import AdelaideOS.Libc.Numerals
import AdelaideOS.Kernel.Formatting

/-!
# The full rendering of a format

`Rendering j blanks c ap R stop` says which text a format stands for when there is no limit: the format is read from the
address `c` on up to the NUL at `stop`, with the arguments from number `ap` on, and `R` is the text.  The blanks of a
field are counted by `blanks`: by `fullBlanks` for the text that is meant, by `intBlanks` for the one that an `int`
leads to.

* **`IsField`**, **`padded`** — a field and its padding;
* **`Rendering.run`** — `vsnprintf` puts this text into the buffer, although it prints fields twice, and looks at the
  characters up to `stop` only;
* **`Rendering.of_short`** — below 2^31 characters, an `int` counts the blanks correctly.
-/

namespace AdelaideOS.Libc

open AdelaideOS.Kernel AdelaideOS.Lib.Bytes

/-! ### The text of a format -/

/-- The text of a field, without padding. -/
def IsField (j : Call) (ch : UInt8) (ap : ℕ) (text : List UInt8) : Prop :=
  let arg := (j.args ap).toNat
  if ch = char 's' then TextAt j.mem arg text
  else if ch = char 'c' then text = [UInt8.ofNat arg]
  else if ch = char 'd' then text = signedNumeral (toInt arg)
  else if ch = char 'u' then text = numeral 10 arg
  else if ch = char 'p' then text = char '0' :: char 'x' :: numeral 16 arg
  else if ch = char 'x' then text = numeral 16 arg
  else text = [char '%']

/-- The number of words that a conversion fetches. -/
def fetches (ch : UInt8) : ℕ := if takesArgument ch then 1 else 0

/-- The blanks that a field of `len` characters needs for the width `w`. -/
def fullBlanks (w len : ℕ) : ℕ := w - len

/-- The blanks that it gets, in the arithmetic of an `int`. -/
def intBlanks (w len : ℕ) : ℕ := (wrapInt ((w : ℤ) - len)).toNat

/-- A field with its padding. -/
def padded (blanks : ℕ) (left : Prop) [Decidable left] (text : List UInt8) : List UInt8 :=
  if left then text ++ List.replicate blanks (char ' ') else List.replicate blanks (char ' ') ++ text

def IsDigit (ch : UInt8) : Prop := char '0' ≤ ch ∧ ch ≤ char '9'

instance (ch : UInt8) : Decidable (IsDigit ch) := inferInstanceAs (Decidable (_ ∧ _))

/-- One more digit of a width. -/
def addDigit (w : ℕ) (ch : UInt8) : ℕ := w * 10 + (ch.toNat - 48)

/-- Reading the digits from `c` on ends at `c'`, and the number goes from `w` to `w'`. -/
inductive Width (mem : Memory) : ℕ → ℕ → ℕ → ℕ → Prop where
  | done {c w : ℕ} : ¬ IsDigit (mem c) → Width mem c w w c
  | digit {c w w' c' : ℕ} : IsDigit (mem c) → Width mem (c + 1) (addDigit w (mem c)) w' c' → Width mem c w w' c'

/-- Where the width begins, behind the percent sign at `c`. -/
def widthAt (mem : Memory) (c : ℕ) : ℕ := if mem (c + 1) = char '-' then c + 2 else c + 1

inductive Rendering (j : Call) (blanks : ℕ → ℕ → ℕ) : ℕ → ℕ → List UInt8 → ℕ → Prop where
  | done {c ap : ℕ} : j.mem c = 0 → Rendering j blanks c ap [] c
  | plain {c ap stop : ℕ} {R : List UInt8} : j.mem c ≠ 0 → j.mem c ≠ char '%' → Rendering j blanks (c + 1) ap R stop →
      Rendering j blanks c ap (j.mem c :: R) stop
  | field {c c' w ap stop : ℕ} {text R : List UInt8} : j.mem c = char '%' → Width j.mem (widthAt j.mem c) 0 w c' →
      IsField j (j.mem c') ap text → Rendering j blanks (c' + 1) (ap + fetches (j.mem c')) R stop →
      Rendering j blanks c ap (padded (blanks w text.length) (j.mem (c + 1) = char '-') text ++ R) stop

variable {j : Call} {mem : Memory} {c c' w w' ap stop size fuel : ℕ} {text R : List UInt8} {o : Printer}

/-! ### Arithmetic of an `int` -/

theorem wrapInt_congr {a b : ℤ} (h : a % 4294967296 = b % 4294967296) : wrapInt a = wrapInt b := by
  unfold wrapInt ofInt
  rw [h]

theorem wrapInt_mod (a : ℤ) : wrapInt a % 4294967296 = a % 4294967296 := by
  unfold wrapInt ofInt toInt
  split <;> omega

theorem wrapInt_of_small {a : ℤ} (h : -2147483648 ≤ a) (h' : a < 2147483648) : wrapInt a = a := by
  have h1 := wrapInt_mod a
  unfold wrapInt ofInt toInt at *
  split_ifs at * <;> omega

/-! ### Widths -/

/-- Reading a width. -/
theorem Width.run (h : Width mem c w w' c') {pad : ℤ} (hpad : pad = wrapInt w) (hfuel : c' < fuel + c) (o : Printer) :
    c ≤ c' ∧ ∃ seen, padDigits mem fuel c pad o = .ok (wrapInt w', c', o.mark o.ap seen) ∧
      ∀ a ∈ seen, a ∈ o.seen ∨ (c ≤ a ∧ a ≤ c') := by
  induction h generalizing fuel pad o with
  | @done c w hno =>
    obtain ⟨fuel, rfl⟩ : ∃ f, fuel = f + 1 := ⟨fuel - 1, by omega⟩
    refine ⟨le_rfl, c :: o.seen, ?_, fun a ha => ?_⟩
    · unfold padDigits
      rw [hpad]
      exact if_neg hno
    · rcases List.mem_cons.mp ha with rfl | ha
      · exact .inr ⟨le_rfl, le_rfl⟩
      · exact .inl ha
  | @digit c w w' c' hdigit hrest ih =>
    obtain ⟨fuel, rfl⟩ : ∃ f, fuel = f + 1 := ⟨fuel - 1, by
      have hle := (ih rfl (show c' < c' + 1 + (c + 1) by omega) o).1
      omega⟩
    have hnext : wrapInt (pad * 10 + (mem c).toNat - (char '0').toNat) = wrapInt (addDigit w (mem c) : ℕ) := by
      apply wrapInt_congr
      have hmod := wrapInt_mod w
      have hge : 48 ≤ (mem c).toNat := UInt8.le_iff_toNat_le.mp hdigit.1
      have hzero : (char '0').toNat = 48 := rfl
      rw [hpad, hzero]
      unfold addDigit
      push_cast [hge]
      omega
    obtain ⟨hle, seen, hok, hseen⟩ := ih hnext (show c' < fuel + (c + 1) by omega) (o.look c)
    refine ⟨by omega, seen, ?_, fun a ha => ?_⟩
    · unfold padDigits
      exact (if_pos hdigit).trans hok
    · rcases hseen a ha with ha | ha
      · rcases List.mem_cons.mp ha with rfl | ha
        · exact .inr ⟨le_rfl, by omega⟩
        · exact .inl ha
      · exact .inr ⟨by omega, ha.2⟩

/-! ### Fields -/

theorem stringLoop_run {s : ℕ} (hs : TextAt mem s text) (hfuel : text.length < fuel) (o : Printer) :
    stringLoop mem size fuel s o = .ok (puts size text o) := by
  induction text generalizing fuel s o with
  | nil =>
    obtain ⟨fuel, rfl⟩ : ∃ f, fuel = f + 1 := ⟨fuel - 1, by simp only [List.length_nil] at hfuel; omega⟩
    exact if_pos hs
  | cons ch text ih =>
    obtain ⟨rfl, hne, hrest⟩ := hs
    rw [List.length_cons] at hfuel
    obtain ⟨fuel, rfl⟩ : ∃ f, fuel = f + 1 := ⟨fuel - 1, by omega⟩
    rw [stringLoop, if_neg hne, ih hrest (by omega), puts_cons]

/-- **A field** is printed, and the arguments move on. -/
theorem IsField.run (h : IsField j (j.mem c) o.ap text) (hfuel : 32 ≤ fuel) (hlen : text.length < fuel) :
    printField j fuel c o = .ok ((puts j.size text o).mark (o.ap + fetches (j.mem c)) (c :: o.seen)) := by
  have hword : (j.args o.ap).toNat < wordSize := (j.args o.ap).toNat_lt
  have hfetch : takesArgument (j.mem c) = true → puts j.size text (o.mark (o.ap + 1) (c :: o.seen)) =
      (puts j.size text o).mark (o.ap + fetches (j.mem c)) (c :: o.seen) := by
    intro htakes
    rw [fetches, if_pos htakes, puts_mark]
  unfold printField
  unfold IsField at h
  simp only at h ⊢
  by_cases hs : j.mem c = char 's'
  · rw [if_pos hs] at h ⊢
    rw [← hfetch (by rw [hs]; decide)]
    exact stringLoop_run h hlen _
  rw [if_neg hs] at h ⊢
  by_cases hc : j.mem c = char 'c'
  · rw [if_pos hc] at h ⊢
    rw [← hfetch (by rw [hc]; decide), h]
    rfl
  rw [if_neg hc] at h ⊢
  by_cases hd : j.mem c = char 'd'
  · rw [if_pos hd] at h ⊢
    rw [← hfetch (by rw [hd]; decide), h]
    exact printSigned _ hword hfuel _
  rw [if_neg hd] at h ⊢
  by_cases hu : j.mem c = char 'u'
  · rw [if_pos hu] at h ⊢
    rw [← hfetch (by rw [hu]; decide), h]
    exact printNum_spec _ (by decide) hword hfuel
  rw [if_neg hu] at h ⊢
  by_cases hp : j.mem c = char 'p'
  · rw [if_pos hp] at h ⊢
    rw [← hfetch (by rw [hp]; decide), h]
    exact printNum_spec _ (by decide) hword hfuel
  rw [if_neg hp] at h ⊢
  by_cases hx : j.mem c = char 'x'
  · rw [if_pos hx] at h ⊢
    rw [← hfetch (by rw [hx]; decide), h]
    exact printNum_spec _ (by decide) hword hfuel
  rw [if_neg hx] at h ⊢
  have hnone : fetches (j.mem c) = 0 := by
    unfold fetches takesArgument
    simp [hs, hc, hd, hu, hp, hx]
  rw [h, hnone]
  rfl

/-! ### The loop over the format -/

theorem padded_length (blanks : ℕ) (left : Prop) [Decidable left] (text : List UInt8) :
    (padded blanks left text).length = text.length + blanks := by
  unfold padded
  split
  · rw [List.length_append, List.length_replicate]
  · rw [List.length_append, List.length_replicate, Nat.add_comm]

/-- A directive that is aligned to the left. -/
theorem vsnprintfLoop_left {pad : ℤ} {o₁ o₂ : Printer} (hp : j.mem c = char '%') (hleft : j.mem (c + 1) = char '-')
    (hdigits : padDigits j.mem fuel (c + 2) 0 ((o.look c).look (c + 1)) = .ok (pad, c', o₁))
    (hfirst : printField j fuel c' o₁ = .ok o₂) :
    vsnprintfLoop j (fuel + 1) c o =
      vsnprintfLoop j fuel (c' + 1) (padLoop j.size (wrapInt (pad - ((o₂.pos : ℤ) - o.pos))).toNat o₂) := by
  have hpercent : ¬ char '%' = 0 := by decide
  have hno : ¬ (j.mem (c + 1) ≠ char '-') := not_not_intro hleft
  rw [vsnprintfLoop]
  simp only [hp, if_neg hpercent, if_true]
  rw [if_neg hno, hdigits]
  simp only [bind, Except.bind]
  rw [hfirst]
  exact if_neg hno

/-- A directive that is aligned to the right is printed twice. -/
theorem vsnprintfLoop_right {pad : ℤ} {o₁ o₂ o₃ : Printer} (hp : j.mem c = char '%') (hright : j.mem (c + 1) ≠ char '-')
    (hdigits : padDigits j.mem fuel (c + 1) 0 ((o.look c).look (c + 1)) = .ok (pad, c', o₁))
    (hfirst : printField j fuel c' o₁ = .ok o₂)
    (hagain : printField j fuel c' (padLoop j.size (wrapInt (pad - ((o₂.pos : ℤ) - o.pos))).toNat
      ((o₂.rewind o.pos).mark o.ap o₂.seen)) = .ok o₃) :
    vsnprintfLoop j (fuel + 1) c o = vsnprintfLoop j fuel (c' + 1) o₃ := by
  have hpercent : ¬ char '%' = 0 := by decide
  rw [vsnprintfLoop]
  simp only [hp, if_neg hpercent, if_true]
  rw [if_pos hright, hdigits]
  simp only [bind, Except.bind]
  rw [hfirst]
  simp only
  rw [if_pos hright]
  simp only [Printer.rewind, Printer.mark] at hagain
  have hlook : ((o.look c).look (c + 1)).pos = o.pos ∧ ((o.look c).look (c + 1)).ap = o.ap := ⟨rfl, rfl⟩
  rw [hlook.1, hlook.2, hagain]

/-- **One directive**: however it is aligned, the field and its padding are put into the buffer once. -/
theorem vsnprintfLoop_field (hp : j.mem c = char '%') (hw : Width j.mem (widthAt j.mem c) 0 w c')
    (hfield : IsField j (j.mem c') o.ap text) (hpos : o.pos < wordSize) (hfuel : 32 ≤ fuel) (hlen : text.length < fuel)
    (hwidth : c' < fuel) :
    c < c' ∧ ∃ seen, vsnprintfLoop j (fuel + 1) c o = vsnprintfLoop j fuel (c' + 1)
        ((puts j.size (padded (intBlanks w text.length) (j.mem (c + 1) = char '-') text) o).mark
          (o.ap + fetches (j.mem c')) seen) ∧
      ∀ a ∈ seen, a ∈ o.seen ∨ (c ≤ a ∧ a ≤ c') := by
  let start : Printer := (o.look c).look (c + 1)
  have hbegin : c + 1 ≤ widthAt j.mem c := by
    unfold widthAt
    split <;> omega
  have hzero : (0 : ℤ) = wrapInt (0 : ℕ) := rfl
  obtain ⟨hle, seen, hdigits, hseen⟩ := hw.run hzero (show c' < fuel + widthAt j.mem c by omega) start
  have hmem : ∀ a ∈ seen, a ∈ o.seen ∨ (c ≤ a ∧ a ≤ c') := by
    intro a ha
    rcases hseen a ha with ha | ha
    · rcases List.mem_cons.mp ha with rfl | ha
      · exact .inr ⟨by omega, by omega⟩
      · rcases List.mem_cons.mp ha with rfl | ha
        · exact .inr ⟨le_rfl, by omega⟩
        · exact .inl ha
    · exact .inr ⟨by omega, ha.2⟩
  -- the field is printed
  let o₁ : Printer := o.mark o.ap seen
  have hfirst : printField j fuel c' o₁ =
      .ok ((puts j.size text o).mark (o.ap + fetches (j.mem c')) (c' :: seen)) := by
    have hrun : printField j fuel c' o₁ = _ := IsField.run (o := o₁) hfield hfuel hlen
    rw [hrun, puts_mark]
    rfl
  -- the padding that is left
  have hpad : (wrapInt (wrapInt w - (((puts j.size text o).pos : ℤ) - o.pos))).toNat = intBlanks w text.length := by
    unfold intBlanks
    congr 1
    apply wrapInt_congr
    have hmod := wrapInt_mod w
    rw [puts_pos j.size text hpos]
    simp only [wordSize] at *
    push_cast
    omega
  refine ⟨by omega, ?_⟩
  by_cases hleft : j.mem (c + 1) = char '-'
  · refine ⟨c' :: seen, ?_, ?_⟩
    · have hat : widthAt j.mem c = c + 2 := if_pos hleft
      rw [hat] at hdigits
      have hpad' : (wrapInt (wrapInt w - ((((puts j.size text o).mark (o.ap + fetches (j.mem c')) (c' :: seen)).pos : ℤ)
          - o.pos))).toNat = intBlanks w text.length := hpad
      rw [vsnprintfLoop_left hp hleft hdigits hfirst, hpad', padLoop_eq, puts_mark, padded, if_pos hleft, puts_append]
    · intro a ha
      rcases List.mem_cons.mp ha with rfl | ha
      · exact .inr ⟨by omega, le_rfl⟩
      · exact hmem a ha
  · refine ⟨c' :: c' :: seen, ?_, ?_⟩
    · have hat : widthAt j.mem c = c + 1 := if_neg hleft
      rw [hat] at hdigits
      refine vsnprintfLoop_right hp hleft hdigits hfirst ?_
      have hpad' : (wrapInt (wrapInt w - ((((puts j.size text o).mark (o.ap + fetches (j.mem c')) (c' :: seen)).pos : ℤ)
          - o.pos))).toNat = intBlanks w text.length := hpad
      rw [hpad', padLoop_eq]
      -- printing again goes over the first text
      let blanks := List.replicate (intBlanks w text.length) (char ' ')
      have hrewind : puts j.size blanks ((((puts j.size text o).mark (o.ap + fetches (j.mem c')) (c' :: seen)).rewind
          o.pos).mark o.ap (c' :: seen)) =
          (puts j.size blanks ((puts j.size text o).rewind o.pos)).mark o.ap (c' :: seen) :=
        puts_mark j.size blanks ((puts j.size text o).rewind o.pos) o.ap (c' :: seen)
      have hrun := IsField.run (j := j) (c := c')
        (o := (puts j.size blanks ((puts j.size text o).rewind o.pos)).mark o.ap (c' :: seen)) hfield hfuel hlen
      rw [← hrewind] at hrun
      refine hrun.trans ?_
      rw [hrewind, puts_mark, ← puts_append, padded, if_neg hleft, puts_over]
      · rfl
      · simp
    · intro a ha
      rcases List.mem_cons.mp ha with rfl | ha
      · exact .inr ⟨by omega, le_rfl⟩
      · rcases List.mem_cons.mp ha with rfl | ha
        · exact .inr ⟨by omega, le_rfl⟩
        · exact hmem a ha

/-- **`vsnprintf` prints the rendering**, and looks at the format up to its end only. -/
theorem Rendering.run (h : Rendering j intBlanks c ap R stop) :
    c ≤ stop ∧ ∃ N, ∀ fuel ≥ N, ∀ o : Printer, o.ap = ap → o.pos < wordSize →
      ∃ ap' seen, vsnprintfLoop j fuel c o = .ok (stop, (puts j.size R o).mark ap' seen) ∧
        ∀ a ∈ seen, a ∈ o.seen ∨ (c ≤ a ∧ a ≤ stop) := by
  induction h with
  | @done c ap hz =>
    refine ⟨le_rfl, 1, fun fuel hfuel o hap hpos => ?_⟩
    obtain ⟨fuel, rfl⟩ : ∃ f, fuel = f + 1 := ⟨fuel - 1, by omega⟩
    refine ⟨o.ap, c :: o.seen, ?_, ?_⟩
    · unfold vsnprintfLoop
      exact if_pos hz
    · intro a ha
      rcases List.mem_cons.mp ha with rfl | ha
      · exact .inr ⟨le_rfl, le_rfl⟩
      · exact .inl ha
  | @plain c ap stop R hz hp hrest ih =>
    obtain ⟨hle, N, hrun⟩ := ih
    refine ⟨by omega, N + 1, fun fuel hfuel o hap hpos => ?_⟩
    obtain ⟨fuel, rfl⟩ : ∃ f, fuel = f + 1 := ⟨fuel - 1, by omega⟩
    obtain ⟨ap', seen, hok, hseen⟩ := hrun fuel (by omega) (addchar j.size (j.mem c) (o.look c)) hap
      (Nat.mod_lt _ (by decide))
    refine ⟨ap', seen, ?_, fun a ha => ?_⟩
    · unfold vsnprintfLoop
      rw [if_neg hz, if_neg hp, hok, puts_cons]
      have hlook : addchar j.size (j.mem c) (o.look c) = (addchar j.size (j.mem c) o).mark o.ap (c :: o.seen) := rfl
      rw [hlook, puts_mark]
      rfl
    · rcases hseen a ha with ha | ha
      · rcases List.mem_cons.mp ha with rfl | ha
        · exact .inr ⟨le_rfl, by omega⟩
        · exact .inl ha
      · exact .inr ⟨by omega, ha.2⟩
  | @field c c' w ap stop text R hp hw hfield hrest ih =>
    obtain ⟨hle, N, hrun⟩ := ih
    have hlt : c < c' := by
      have hstep := vsnprintfLoop_field (o := ⟨fun _ => 0, 0, ap, []⟩) hp hw hfield
        (show (0 : ℕ) < wordSize by decide) (show 32 ≤ c' + text.length + 33 by omega) (by omega) (by omega)
      exact hstep.1
    refine ⟨by omega, N + c' + text.length + 34, fun fuel hfuel o hap hpos => ?_⟩
    obtain ⟨fuel, rfl⟩ : ∃ f, fuel = f + 1 := ⟨fuel - 1, by omega⟩
    obtain ⟨-, seen₁, hstep, hseen₁⟩ := vsnprintfLoop_field hp hw (hap ▸ hfield) hpos (show 32 ≤ fuel by omega)
      (by omega) (by omega)
    rw [hap] at hstep
    obtain ⟨ap', seen, hok, hseen⟩ := hrun fuel (by omega) ((puts j.size (padded (intBlanks w text.length)
      (j.mem (c + 1) = char '-') text) o).mark (ap + fetches (j.mem c')) seen₁) rfl (puts_pos_lt j.size _ hpos)
    refine ⟨ap', seen, ?_, fun a ha => ?_⟩
    · rw [hstep, hok, puts_append, puts_mark]
      rfl
    · rcases hseen a ha with ha | ha
      · rcases hseen₁ a ha with ha | ha
        · exact .inl ha
        · exact .inr ⟨ha.1, by omega⟩
      · exact .inr ⟨by omega, ha.2⟩

/-! ### Other ways to count the blanks -/

theorem IsField.unique {ch : UInt8} {s t : List UInt8} (hs : IsField j ch ap s) (ht : IsField j ch ap t) : s = t := by
  unfold IsField at hs ht
  simp only at hs ht
  split_ifs at hs ht
  · exact hs.unique ht
  all_goals exact hs.trans ht.symm

theorem Width.unique {v d : ℕ} (h : Width mem c w w' c') (h' : Width mem c w v d) : w' = v ∧ c' = d := by
  induction h with
  | done hno =>
    cases h' with
    | done => exact ⟨rfl, rfl⟩
    | digit hdigit _ => exact absurd hdigit hno
  | digit hdigit _ ih =>
    cases h' with
    | done hno => exact absurd hdigit hno
    | digit _ hrest => exact ih hrest

/-- A format and its arguments have one rendering. -/
theorem Rendering.unique {blanks : ℕ → ℕ → ℕ} {S : List UInt8} {d : ℕ} (h : Rendering j blanks c ap R stop)
    (h' : Rendering j blanks c ap S d) : R = S ∧ stop = d := by
  have hpercent : char '%' ≠ 0 := by decide
  induction h generalizing S with
  | done hz =>
    cases h' with
    | done => exact ⟨rfl, rfl⟩
    | plain hne _ _ => exact absurd hz hne
    | field hp _ _ _ => exact absurd (hp.symm.trans hz) hpercent
  | plain hne hnp _ ih =>
    cases h' with
    | done hz => exact absurd hz hne
    | plain _ _ hrest =>
      obtain ⟨rfl, rfl⟩ := ih hrest
      exact ⟨rfl, rfl⟩
    | field hp _ _ _ => exact absurd hp hnp
  | field hp hw hfield _ ih =>
    cases h' with
    | done hz => exact absurd (hp.symm.trans hz) hpercent
    | plain _ hnp _ => exact absurd hp hnp
    | field _ hw' hfield' hrest =>
      obtain ⟨rfl, rfl⟩ := hw.unique hw'
      obtain rfl := hfield.unique hfield'
      obtain ⟨rfl, rfl⟩ := ih hrest
      exact ⟨rfl, rfl⟩

/-- The blanks do not decide whether there is a rendering, or where the format ends. -/
theorem Rendering.change {blanks : ℕ → ℕ → ℕ} (h : Rendering j blanks c ap R stop) (counted : ℕ → ℕ → ℕ) :
    ∃ S, Rendering j counted c ap S stop := by
  induction h with
  | done hz => exact ⟨_, .done hz⟩
  | plain hne hnp _ ih =>
    obtain ⟨S, hS⟩ := ih
    exact ⟨_, .plain hne hnp hS⟩
  | field hp hw hfield _ ih =>
    obtain ⟨S, hS⟩ := ih
    exact ⟨_, .field hp hw hfield hS⟩

/-- An `int` counts the blanks of a short field correctly. -/
theorem intBlanks_eq {len : ℕ} (hshort : len + fullBlanks w len < 2147483648) : intBlanks w len = fullBlanks w len := by
  unfold intBlanks
  unfold fullBlanks at *
  rw [wrapInt_of_small (by omega) (by omega)]
  omega

/-- **Below 2^31 characters**, the blanks are counted correctly. -/
theorem Rendering.of_short (h : Rendering j fullBlanks c ap R stop) (hshort : R.length < 2147483648) :
    Rendering j intBlanks c ap R stop := by
  induction h with
  | done hz => exact .done hz
  | plain hne hnp _ ih =>
    rw [List.length_cons] at hshort
    exact .plain hne hnp (ih (by omega))
  | field hp hw hfield _ ih =>
    rw [List.length_append, padded_length] at hshort
    rw [← intBlanks_eq (by omega)]
    exact .field hp hw hfield (ih (by omega))

end AdelaideOS.Libc
