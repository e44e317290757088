import AdelaideOS.Kernel.Scanning

/-!
# Texts used as formats

`getdent` hands the name of an entry to `snprintf` as the format.  The text that is printed is the name again only if
no character of the name is a percent sign, with one exception: the last one may be.  It then takes the NUL for a
conversion and the scan goes on behind it, which is harmless where a second NUL follows.

* **`format_eq_iff`** — when a text prints itself.
-/

namespace AdelaideOS.Kernel

open AdelaideOS.Lib.Bytes

variable {M : Memory} {a b pad fuel : ℕ} {s t u w out : List UInt8}

/-- The text `s` and a NUL behind it are at `a`. -/
def TextAt (M : Memory) : ℕ → List UInt8 → Prop
  | a, [] => M a = 0
  | a, c :: s => M a = c ∧ c ≠ 0 ∧ TextAt M (a + 1) s

/-- A percent sign stands at the end only. -/
def PercentLast (s : List UInt8) : Prop := ∀ t, char '%' :: t <:+ s → t = []

instance (s : List UInt8) : Decidable (PercentLast s) :=
  decidable_of_iff (∀ t ∈ s.tails, t.head? = some (char '%') → t.tail = []) <| by
    unfold PercentLast
    simp only [List.mem_tails]
    constructor
    · intro h t ht
      exact h _ ht rfl
    · intro h t ht hhead
      cases t with
      | nil => rfl
      | cons c t =>
        obtain rfl := Option.some.inj hhead
        exact h t ht

theorem textAt_of_cstringLoop (h : cstringLoop M fuel a = .ok s) : TextAt M a s := by
  induction fuel generalizing a s with
  | zero => cases h
  | succ fuel ih =>
    unfold cstringLoop at h
    by_cases hz : M a = 0
    · rw [if_pos hz] at h
      obtain rfl := Except.ok.inj h
      exact hz
    · rw [if_neg hz] at h
      obtain ⟨rest, hrest, h⟩ := bind_eq_ok.mp h
      obtain rfl := Except.ok.inj h
      exact ⟨rfl, hz, ih hrest⟩

/-- Memory has one text at an address. -/
theorem TextAt.unique (hs : TextAt M a s) (ht : TextAt M a t) : s = t := by
  induction s generalizing a t with
  | nil =>
    cases t with
    | nil => rfl
    | cons d t => exact absurd (ht.1.symm.trans hs) ht.2.1
  | cons d s ih =>
    cases t with
    | nil => exact absurd (hs.1.symm.trans ht) hs.2.1
    | cons e t => rw [← hs.1, ← ht.1, ih hs.2.2 ht.2.2]

/-- The end of a text is a text. -/
theorem TextAt.drop (h : TextAt M a (s ++ t)) : TextAt M (a + s.length) t := by
  induction s generalizing a with
  | nil => exact h
  | cons c s ih =>
    have hrest := ih h.2.2
    rw [List.length_cons, ← Nat.add_assoc, Nat.add_right_comm]
    exact hrest

theorem TextAt.congr {M' : Memory} (h : TextAt M a s) (heq : ∀ x, a ≤ x → x ≤ a + s.length → M' x = M x) :
    TextAt M' a s := by
  induction s generalizing a with
  | nil => exact (heq a le_rfl (Nat.le_add_right _ _)).trans h
  | cons c s ih =>
    obtain ⟨hc, hne, hrest⟩ := h
    rw [List.length_cons] at heq
    refine ⟨(heq a le_rfl (Nat.le_add_right _ _)).trans hc, hne, ih hrest fun x hx hx' => ?_⟩
    exact heq x (by omega) (by omega)

/-- A text, seen from another address. -/
theorem TextAt.shift (h : TextAt M (b + a) s) : TextAt (fun i => M (b + i)) a s := by
  induction s generalizing a with
  | nil => exact h
  | cons c s ih => exact ⟨h.1, h.2.1, ih h.2.2⟩

/-! ### The width of a field -/

/-- The digits of a width lie in the text. -/
theorem widthLoop_inv {pad' : ℕ} (h : widthLoop M fuel a pad = .ok (pad', b)) (hs : TextAt M a s) :
    ∃ digits rest, s = digits ++ rest ∧ b = a + digits.length ∧ TextAt M b rest ∧ (digits = [] → pad' = pad) := by
  induction fuel generalizing a pad s with
  | zero => cases h
  | succ fuel ih =>
    unfold widthLoop at h
    by_cases hdigit : char '0' ≤ M a ∧ M a ≤ char '9'
    · rw [if_pos hdigit] at h
      cases s with
      | nil =>
        have hz : M a = 0 := hs
        rw [hz] at hdigit
        exact absurd hdigit (by decide)
      | cons c s =>
        obtain ⟨digits, rest, rfl, rfl, hrest, -⟩ := ih h hs.2.2
        refine ⟨c :: digits, rest, rfl, ?_, hrest, fun hno => by cases hno⟩
        rw [List.length_cons]
        omega
    · rw [if_neg hdigit] at h
      obtain ⟨rfl, rfl⟩ := Prod.mk.inj (Except.ok.inj h)
      exact ⟨[], s, rfl, rfl, hs, fun _ => rfl⟩

/-! ### One conversion -/

theorem formatLoop_nul (h : formatLoop M fuel a = .ok out) (hz : M a = 0) : out = [] := by
  cases fuel with
  | zero => cases h
  | succ fuel =>
    unfold formatLoop at h
    rw [if_pos hz] at h
    exact (Except.ok.inj h).symm

theorem formatLoop_plain (h : formatLoop M (fuel + 1) a = .ok out) (hz : M a ≠ 0) (hp : M a ≠ char '%') :
    ∃ rest, formatLoop M fuel (a + 1) = .ok rest ∧ out = M a :: rest := by
  unfold formatLoop at h
  rw [if_neg hz, if_pos hp] at h
  obtain ⟨rest, hrest, h⟩ := bind_eq_ok.mp h
  exact ⟨rest, hrest, (Except.ok.inj h).symm⟩

theorem formatLoop_percent (h : formatLoop M (fuel + 1) a = .ok out) (hp : M a = char '%') :
    ∃ pad b rest, widthLoop M wordSize (if M (a + 1) = char '-' then a + 2 else a + 1) 0 = .ok (pad, b) ∧
      formatLoop M fuel (b + 1) = .ok rest ∧
      out = (if M (a + 1) = char '-' then char '%' :: List.replicate (pad - 1) (char ' ')
        else List.replicate (pad - 1) (char ' ') ++ [char '%']) ++ rest := by
  unfold formatLoop at h
  rw [hp, if_neg (by decide), if_neg (not_not_intro rfl)] at h
  obtain ⟨⟨pad, b⟩, hwidth, h⟩ := bind_eq_ok.mp h
  by_cases hfetch : takesArgument (M b) ∨ 2147483648 ≤ pad
  · exact absurd ((if_pos hfetch).symm.trans h) (by simp)
  · replace h := (if_neg hfetch).symm.trans h
    obtain ⟨rest, hrest, h⟩ := bind_eq_ok.mp h
    refine ⟨pad, b, rest, ?_, hrest, ?_⟩
    · simpa using hwidth
    · simpa using (Except.ok.inj h).symm

/-- What a conversion at the beginning of `% t` prints, and where the scan goes on: behind the characters `r` of `t`,
or nowhere because the conversion took the NUL. -/
theorem converts (h : formatLoop M (fuel + 1) a = .ok out) (hs : TextAt M a (char '%' :: t))
    (hend : M (a + t.length + 2) = 0) :
    ∃ before behind rest r u, out = before ++ char '%' :: (behind ++ rest) ∧ t = r ++ u ∧
      (∀ c ∈ before ++ behind, c = char ' ') ∧ (before = [] ∧ t.head? = some (char '-') ∨ behind = []) ∧
      (r ≠ [] ∧ TextAt M (a + 1 + r.length) u ∧ formatLoop M fuel (a + 1 + r.length) = .ok rest ∨
        u = [] ∧ rest = [] ∧ (t = [] → before = [])) := by
  obtain ⟨hp, -, ht⟩ := hs
  obtain ⟨pad, b, rest, hwidth, hrest, rfl⟩ := formatLoop_percent h hp
  -- the dash is a character of the text
  obtain ⟨dash, v, rfl, hdash, hv, hstart⟩ : ∃ dash v, t = dash ++ v ∧
      (if M (a + 1) = char '-' then a + 2 else a + 1) = a + 1 + dash.length ∧ TextAt M (a + 1 + dash.length) v ∧
      (M (a + 1) = char '-' ∧ (dash ++ v).head? = some (char '-') ∨ M (a + 1) ≠ char '-') := by
    by_cases hleft : M (a + 1) = char '-'
    · cases t with
      | nil =>
        have hz : M (a + 1) = 0 := ht
        rw [hz] at hleft
        exact absurd hleft (by decide)
      | cons c t =>
        obtain ⟨rfl, -, ht⟩ := ht
        exact ⟨[M (a + 1)], t, rfl, if_pos hleft, ht, .inl ⟨hleft, congrArg some hleft⟩⟩
    · exact ⟨[], t, rfl, if_neg hleft, ht, .inr hleft⟩
  rw [hdash] at hwidth
  obtain ⟨digits, v', rfl, rfl, hv', hpad⟩ := widthLoop_inv hwidth hv
  -- what is printed
  obtain ⟨before, behind, hprinted, hblank, hside, hempty⟩ : ∃ before behind,
      (if M (a + 1) = char '-' then char '%' :: List.replicate (pad - 1) (char ' ')
        else List.replicate (pad - 1) (char ' ') ++ [char '%']) = before ++ char '%' :: behind ∧
      (∀ c ∈ before ++ behind, c = char ' ') ∧
      (before = [] ∧ (dash ++ (digits ++ v')).head? = some (char '-') ∨ behind = []) ∧ (digits = [] → before = []) := by
    rcases hstart with ⟨hleft, hhead⟩ | hright
    · rw [if_pos hleft]
      exact ⟨[], _, rfl, fun c hc => List.eq_of_mem_replicate hc, .inl ⟨rfl, hhead⟩, fun _ => rfl⟩
    · rw [if_neg hright]
      refine ⟨_, [], rfl, fun c hc => List.eq_of_mem_replicate (by simpa using hc), .inr rfl, ?_⟩
      intro hno
      rw [hpad hno]
      rfl
  rw [hprinted]
  cases v' with
  | nil =>
    -- the conversion takes the NUL
    refine ⟨before, behind, rest, dash ++ digits, [], by simp, by simp, hblank, hside, .inr ⟨rfl, ?_, ?_⟩⟩
    · apply formatLoop_nul hrest
      rw [← hend]
      congr 1
      simp only [List.length_append, List.length_nil]
      omega
    · intro hno
      apply hempty
      simpa using (List.append_eq_nil_iff.mp hno).2
  | cons x u =>
    have hplace : a + 1 + dash.length + digits.length + 1 = a + 1 + (dash ++ (digits ++ [x])).length := by
      simp only [List.length_append, List.length_cons, List.length_nil]
      omega
    refine ⟨before, behind, rest, dash ++ (digits ++ [x]), u, by simp, by simp, hblank, hside, .inl ⟨by simp, ?_, ?_⟩⟩
    · exact hplace ▸ hv'.2.2
    · exact hplace ▸ hrest

/-! ### Texts that print themselves -/

/-- A format prints no more percent signs than it has. -/
theorem count_percent_le (h : formatLoop M fuel a = .ok out) (hs : TextAt M a s) (hend : M (a + s.length + 1) = 0) :
    out.count (char '%') ≤ s.count (char '%') := by
  induction fuel generalizing a s out with
  | zero => cases h
  | succ fuel ih =>
    cases s with
    | nil => rw [formatLoop_nul h hs]
    | cons c t =>
      rw [List.length_cons] at hend
      by_cases hp : c = char '%'
      · subst hp
        obtain ⟨before, behind, rest, r, u, rfl, rfl, hblank, -, hnext⟩ := converts h hs hend
        have hrest : rest.count (char '%') ≤ u.count (char '%') := by
          rcases hnext with ⟨-, hu, hrest⟩ | ⟨-, rfl, -⟩
          · apply ih hrest hu
            rw [← hend, List.length_append]
            congr 1
            omega
          · exact Nat.zero_le _
        have hnone : ∀ l : List UInt8, (∀ c ∈ l, c ∈ before ++ behind) → l.count (char '%') = 0 := by
          intro l hl
          apply List.count_eq_zero_of_not_mem
          intro hmem
          exact absurd (hblank _ (hl _ hmem)) (by decide)
        simp only [List.count_append, List.count_cons_self, hnone before fun c hc => List.mem_append_left _ hc,
          hnone behind fun c hc => List.mem_append_right _ hc]
        omega
      · obtain ⟨rfl, hz, ht⟩ := hs
        obtain ⟨rest, hrest, rfl⟩ := formatLoop_plain h hz hp
        have := ih hrest ht (by rw [← hend]; congr 1; omega)
        rw [List.count_cons_of_ne hp, List.count_cons_of_ne hp]
        exact this

theorem split_first {c : UInt8} {x y : List UInt8} (hw : c ∉ w) (ht : c ∉ t) (h : w ++ c :: x = t ++ c :: y) :
    w = t ∧ x = y := by
  induction w generalizing t with
  | nil =>
    cases t with
    | nil => exact ⟨rfl, (List.cons.inj h).2⟩
    | cons d t => exact absurd ((List.cons.inj h).1 ▸ List.mem_cons_self) ht
  | cons d w ih =>
    cases t with
    | nil => exact absurd ((List.cons.inj h).1 ▸ List.mem_cons_self) hw
    | cons e t =>
      obtain ⟨rfl, hrest⟩ := List.cons.inj h
      obtain ⟨rfl, hxy⟩ := ih (fun hc => hw (List.mem_cons_of_mem _ hc)) (fun hc => ht (List.mem_cons_of_mem _ hc)) hrest
      exact ⟨rfl, hxy⟩

/-- A text that ends like what it prints is what it prints. -/
theorem format_suffix (h : formatLoop M fuel a = .ok (w ++ s)) (hs : TextAt M a s) (hend : M (a + s.length + 1) = 0) :
    w = [] := by
  induction fuel generalizing a s w with
  | zero => cases h
  | succ fuel ih =>
    cases s with
    | nil => exact (List.append_eq_nil_iff.mp (formatLoop_nul h hs)).1
    | cons c t =>
      have hcount := count_percent_le h hs hend
      rw [List.length_cons] at hend
      by_cases hp : c = char '%'
      · subst hp
        obtain ⟨before, behind, rest, r, u, hout, rfl, hblank, hside, hnext⟩ := converts h hs hend
        -- nothing stands before the first percent sign of the text
        have hw : char '%' ∉ w := by
          rw [List.count_append] at hcount
          exact List.count_eq_zero.mp (by omega)
        have hb : char '%' ∉ before := by
          intro hmem
          exact absurd (hblank _ (List.mem_append_left _ hmem)) (by decide)
        obtain ⟨rfl, hrest⟩ := split_first hw hb hout
        rcases hside with ⟨rfl, -⟩ | rfl
        · rfl
        · rcases hnext with ⟨hr, hu, hloop⟩ | ⟨rfl, rfl, hnone⟩
          · rw [List.nil_append] at hrest
            refine absurd (ih (hrest ▸ hloop) hu ?_) hr
            rw [← hend, List.length_append]
            congr 1
            omega
          · exact hnone (by simpa using hrest)
      · obtain ⟨hc, hz, ht⟩ := hs
        obtain ⟨rest, hrest, hout⟩ := formatLoop_plain h (hc ▸ hz) (hc ▸ hp)
        cases w with
        | nil => rfl
        | cons x w =>
          have hcut : rest = (w ++ [c]) ++ t := by
            rw [List.append_assoc]
            exact (List.cons.inj hout).2.symm
          have := ih (hcut ▸ hrest) ht (by rw [← hend]; congr 1; omega)
          exact absurd this (by simp)

theorem percentLast_cons {c : UInt8} : PercentLast (c :: s) ↔ (c = char '%' → s = []) ∧ PercentLast s := by
  unfold PercentLast
  simp only [List.suffix_cons_iff]
  constructor
  · intro h
    refine ⟨fun hc => h s (.inl (by rw [hc])), fun t ht => h t (.inr ht)⟩
  · rintro ⟨hc, h⟩ t (ht | ht)
    · obtain ⟨rfl, rfl⟩ := List.cons.inj ht
      exact hc rfl
    · exact h t ht

/-- A text that prints itself has no percent sign but the last character. -/
theorem percentLast_of_format (h : formatLoop M fuel a = .ok s) (hs : TextAt M a s) (hend : M (a + s.length + 1) = 0) :
    PercentLast s := by
  induction s generalizing fuel a with
  | nil =>
    intro t ht
    exact absurd (List.suffix_nil.mp ht) (List.cons_ne_nil _ _)
  | cons c t ih =>
    obtain ⟨fuel, rfl⟩ : ∃ n, fuel = n + 1 := by
      cases fuel with
      | zero => cases h
      | succ n => exact ⟨n, rfl⟩
    rw [List.length_cons] at hend
    rw [percentLast_cons]
    by_cases hp : c = char '%'
    · subst hp
      obtain ⟨before, behind, rest, r, u, hout, rfl, hblank, hside, hnext⟩ := converts h hs hend
      obtain ⟨rfl, hrest⟩ : before = [] ∧ r ++ u = behind ++ rest := by
        cases before with
        | nil => exact ⟨rfl, (List.cons.inj hout).2⟩
        | cons x before =>
          have hx := hblank x List.mem_cons_self
          exact absurd ((List.cons.inj hout).1.trans hx) (by decide)
      -- no blank is printed behind the percent sign, for the text goes on with a dash
      obtain rfl : behind = [] := by
        rcases hside with ⟨-, hhead⟩ | hnone
        · cases behind with
          | nil => rfl
          | cons x behind =>
            have hx := hblank x List.mem_cons_self
            rw [hrest] at hhead
            exact absurd ((Option.some.inj hhead).symm.trans hx) (by decide)
        · exact hnone
      rw [List.nil_append] at hrest
      rcases hnext with ⟨hr, hu, hloop⟩ | ⟨-, rfl, -⟩
      · refine absurd (format_suffix (hrest ▸ hloop) hu ?_) hr
        rw [← hend, List.length_append]
        congr 1
        omega
      · rw [hrest]
        exact ⟨fun _ => rfl, fun t ht => absurd (List.suffix_nil.mp ht) (List.cons_ne_nil _ _)⟩
    · obtain ⟨hc, hz, ht⟩ := hs
      obtain ⟨rest, hrest, hout⟩ := formatLoop_plain h (hc ▸ hz) (hc ▸ hp)
      obtain rfl := (List.cons.inj hout).2
      exact ⟨fun hno => absurd hno hp, ih hrest ht (by rw [← hend]; congr 1; omega)⟩

theorem format_of_percentLast (hs : TextAt M a s) (hfuel : s.length + 1 < fuel) (hlast : PercentLast s)
    (hend : char '%' ∈ s → M (a + s.length + 1) = 0) : formatLoop M fuel a = .ok s := by
  induction s generalizing fuel a with
  | nil =>
    obtain ⟨fuel, rfl⟩ : ∃ n, fuel = n + 1 := ⟨fuel - 1, by omega⟩
    unfold formatLoop
    exact if_pos hs
  | cons c t ih =>
    obtain ⟨fuel, rfl⟩ : ∃ n, fuel = n + 2 := ⟨fuel - 2, by omega⟩
    obtain ⟨hc, hz, ht⟩ := hs
    rw [percentLast_cons] at hlast
    unfold formatLoop
    rw [hc, if_neg hz]
    by_cases hp : c = char '%'
    · -- the percent sign takes the NUL
      obtain rfl := hlast.1 hp
      have hnul : M (a + 1) = 0 := ht
      have hnext : M (a + 1 + 1) = 0 := hend (hp ▸ List.mem_cons_self)
      rw [if_neg (not_not_intro hp), hnul]
      have hwidth : widthLoop M wordSize (a + 1) 0 = .ok (0, a + 1) := by
        rw [show wordSize = 4294967295 + 1 from rfl]
        unfold widthLoop
        rw [hnul]
        exact if_neg (by decide)
      have hrest : formatLoop M (fuel + 1) (a + 1 + 1) = .ok [] := by
        unfold formatLoop
        exact if_pos hnext
      have hleft : ¬ (0 : UInt8) = char '-' := by decide
      simp only [hleft, if_false, hwidth]
      show (if takesArgument (M (a + 1)) = true ∨ 2147483648 ≤ 0 then _ else _ : Except Fault (List UInt8)) = _
      rw [hnul, if_neg (by decide), hrest, hp]
      rfl
    · rw [if_pos hp, ih ht (by rw [List.length_cons] at hfuel; omega) hlast.2 (by
        intro hmem
        rw [← hend (List.mem_cons_of_mem _ hmem), List.length_cons]
        congr 1
        omega)]
      rfl

/-- **Texts that print themselves.** -/
theorem format_eq_iff (hs : TextAt M a s) (hlen : s.length + 1 < wordSize)
    (hend : char '%' ∈ s → M (a + s.length + 1) = 0) : format M a = .ok s ↔ PercentLast s := by
  constructor
  · intro h
    by_cases hmem : char '%' ∈ s
    · exact percentLast_of_format h hs (hend hmem)
    · intro t ht
      exact absurd (ht.subset List.mem_cons_self) hmem
  · intro h
    exact format_of_percentLast hs hlen h hend

end AdelaideOS.Kernel
