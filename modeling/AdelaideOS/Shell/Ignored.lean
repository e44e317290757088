import AdelaideOS.Shell.Lines

/-!
# What the shell should ignore

A line that is too long is dropped piece by piece, but what comes after the last piece is taken for a line of its own.  And
the loop of `main` looks at `done` only between two reads.

* **`ignores_reports_iff`** — which reads lead to neither;
* **`ignores_iff`** — the same for `main`.
-/

namespace AdelaideOS.Shell

open AdelaideOS.Kernel AdelaideOS.Libc AdelaideOS.Lib.Bytes

/-! ### What is expected -/

/-- The string at `a` is the command `exit`. -/
def ExitAt (M : Memory) (a : ℕ) : Prop := ∃ text, TextAt M a text ∧ Exits text

/-- After a line was too long, nothing but an empty string is passed on of this line; after `exit`, nothing is. -/
def Ignores : List Event → Prop
  | [] => True
  | .tooLong n :: events => (∀ M a, .passed n M a ∈ events → M a = 0) ∧ Ignores events
  | .passed _ M a :: events => (ExitAt M a → ∀ e ∈ events, e.isPassed = false) ∧ Ignores events

/-! ### When it happens -/

/-- What there is of an unfinished line, and whether more of it has been dropped. -/
structure Pending where
  kept : List UInt8
  dropped : Bool

/-- The same after one more read. -/
def Pending.read (p : Pending) (chunk : List UInt8) : Pending :=
  let rest := restFrom p.kept chunk
  { kept := if BUFSIZE ≤ rest.length then [] else rest
    dropped := (p.dropped && char '\n' ∉ chunk) || BUFSIZE ≤ rest.length }

/-- A read that does no harm: if it ends a line of which a part has been dropped, then nothing of this line came in between;
and if it ends a line with the command `exit`, then it ends no line after that. -/
structure QuietRead (p : Pending) (chunk : List UInt8) : Prop where
  tail : p.dropped = true → char '\n' ∈ chunk → ∀ c ∈ (p.kept ++ chunk).head?, c = char '\n' ∨ c = 0
  exit : ∀ u v, chunk = u ++ char '\n' :: v → ExitLine (restFrom p.kept u) → char '\n' ∉ v

/-- All reads up to the one that ends the shell do no harm. -/
def Quiet : Pending → List (List UInt8) → Prop
  | _, [] => True
  | p, chunk :: chunks =>
    QuietRead p chunk ∧ ((∀ line ∈ linesFrom p.kept chunk, ¬ ExitLine line) → Quiet (p.read chunk) chunks)

variable {M : Memory} {a n m fuel : ℕ} {kept text chunk : List UInt8} {chunks texts : List (List UInt8)} {p : Pending}
  {events : List Event} {rs : List Report}

/-! ### Events and reports -/

/-- Nothing but an empty string is passed on of the line with this number. -/
def Spared (n : ℕ) (rs : List Report) : Prop := ∀ text, .line n text ∈ rs → string text = []

/-- The expectation, for reports. -/
def IgnoresReports : List Report → Prop
  | [] => True
  | .tooLong n :: rs => Spared n rs ∧ IgnoresReports rs
  | .line _ text :: rs => (ExitLine text → passedLines rs = []) ∧ IgnoresReports rs

theorem BytesAt.head_zero (h : BytesAt M a (text ++ [0])) : M a = 0 ↔ string text = [] := by
  have htext := h.textAt
  constructor
  · exact fun hz => htext.unique hz
  · intro hnil
    rw [hnil] at htext
    exact htext

theorem BytesAt.exitAt (h : BytesAt M a (text ++ [0])) : ExitAt M a ↔ ExitLine text := by
  constructor
  · rintro ⟨t, ht, hexit⟩
    rw [ht.unique h.textAt] at hexit
    exact hexit
  · exact fun hexit => ⟨_, h.textAt, hexit⟩

theorem spared_iff (h : List.Forall₂ Event.Is events rs) (n : ℕ) :
    (∀ M a, .passed n M a ∈ events → M a = 0) ↔ Spared n rs := by
  unfold Spared
  induction h with
  | nil => simp
  | @cons e r events rs he hrest ih =>
    cases e with
    | passed k M a =>
      cases r with
      | line m text =>
        obtain ⟨rfl, hbytes⟩ := he
        simp only [List.mem_cons, Event.passed.injEq, Report.line.injEq]
        have hzero := hbytes.head_zero
        constructor
        · rintro h t (⟨rfl, rfl⟩ | ht)
          · exact hzero.mp (h M a (.inl ⟨rfl, rfl, rfl⟩))
          · exact ih.mp (fun M a hm => h M a (.inr hm)) t ht
        · rintro h M' a' (⟨rfl, rfl, rfl⟩ | hm)
          · exact hzero.mpr (h text (.inl ⟨rfl, rfl⟩))
          · exact ih.mpr (fun t ht => h t (.inr ht)) M' a' hm
      | tooLong m => exact he.elim
    | tooLong k =>
      cases r with
      | line m text => exact he.elim
      | tooLong m =>
        simp only [List.mem_cons, reduceCtorEq, false_or]
        exact ih

theorem passedLines_eq_nil (h : List.Forall₂ Event.Is events rs) :
    (∀ e ∈ events, e.isPassed = false) ↔ passedLines rs = [] := by
  have hpasses := passes_of_is h
  constructor
  · intro hnone
    have hfilter : events.filter Event.isPassed = [] := List.filter_eq_nil_iff.mpr fun e he => by simp [hnone e he]
    rw [hfilter] at hpasses
    exact List.forall₂_nil_left_iff.mp hpasses
  · intro hnil e he
    rw [hnil] at hpasses
    have hfilter := List.forall₂_nil_right_iff.mp hpasses
    simpa using List.filter_eq_nil_iff.mp hfilter e he

/-- The expectation may be read off the reports. -/
theorem ignores_of_is (h : List.Forall₂ Event.Is events rs) : Ignores events ↔ IgnoresReports rs := by
  induction h with
  | nil => exact Iff.rfl
  | @cons e r events rs he hrest ih =>
    cases e with
    | passed k M a =>
      cases r with
      | line m text => exact and_congr (imp_congr he.2.exitAt (passedLines_eq_nil hrest)) ih
      | tooLong m => exact he.elim
    | tooLong k =>
      cases r with
      | line m text => exact he.elim
      | tooLong m =>
        obtain rfl : k = m := he
        exact and_congr (spared_iff hrest k) ih

/-! ### The lines of one read -/

theorem number_mem (h : .line m text ∈ number n texts) : n ≤ m := by
  induction texts generalizing n with
  | nil => cases h
  | cons t texts ih =>
    rcases List.mem_cons.mp h with h | h
    · exact (Report.line.inj h).1.ge
    · exact (Nat.le_succ n).trans (ih h)

/-- The numbers go up. -/
theorem reports_mem (h : .line m text ∈ reports n kept chunks) : n ≤ m := by
  induction chunks generalizing n kept with
  | nil => cases h
  | cons chunk chunks ih =>
    rw [reports] at h
    rcases List.mem_append.mp h with h | h
    · rcases List.mem_append.mp h with h | h
      · exact number_mem h
      · split at h
        · cases List.mem_singleton.mp h
        · cases h
    · split at h
      · cases h
      · exact (Nat.le_add_right _ _).trans (ih h)

theorem spared_append (n : ℕ) (rs rs' : List Report) : Spared n (rs ++ rs') ↔ Spared n rs ∧ Spared n rs' := by
  unfold Spared
  simp only [List.mem_append, or_imp, forall_and]

/-- Of numbered lines, only the first one has the first number. -/
theorem spared_number (n : ℕ) (texts : List (List UInt8)) :
    Spared n (number n texts) ↔ ∀ line ∈ texts.head?, string line = [] := by
  cases texts with
  | nil => exact iff_of_true (fun _ h => by cases h) (by simp)
  | cons text texts =>
    simp only [List.head?_cons, Option.mem_some_iff, forall_eq']
    constructor
    · exact fun h => h text List.mem_cons_self
    · intro hnil t ht
      rcases List.mem_cons.mp ht with ht | ht
      · rw [(Report.line.inj ht).2]
        exact hnil
      · exact absurd (number_mem ht) (Nat.not_succ_le_self n)

theorem spared_of_lt (h : ∀ m text, .line m text ∈ rs → n < m) : Spared n rs :=
  fun text ht => absurd (h n text ht) (Nat.lt_irrefl n)

/-- What numbered lines add to the expectation. -/
theorem ignores_number (n : ℕ) (texts : List (List UInt8)) (rs : List Report) :
    IgnoresReports (number n texts ++ rs) ↔
      (∀ pre line post, texts = pre ++ line :: post → ExitLine line → post = [] ∧ passedLines rs = []) ∧
        IgnoresReports rs := by
  induction texts generalizing n with
  | nil =>
    refine (and_iff_right ?_).symm
    intro pre line post h
    simp at h
  | cons text texts ih =>
    rw [number, List.cons_append, IgnoresReports, ih, ← and_assoc]
    refine and_congr_left fun _ => ?_
    rw [passedLines_append, passedLines_number, List.append_eq_nil_iff]
    constructor
    · rintro ⟨hfirst, hothers⟩ pre line post hsplit hexit
      cases pre with
      | nil =>
        obtain ⟨rfl, rfl⟩ := List.cons.inj hsplit
        exact hfirst hexit
      | cons c pre => exact hothers pre line post (List.cons.inj hsplit).2 hexit
    · intro h
      refine ⟨fun hexit => h [] text texts rfl hexit, fun pre line post hsplit hexit => ?_⟩
      exact h (text :: pre) line post (by rw [hsplit]; rfl) hexit

/-- The line that a newline ends. -/
theorem linesFrom_split (u v : List UInt8) :
    linesFrom kept (u ++ char '\n' :: v) = linesFrom kept u ++ restFrom kept u :: linesFrom [] v := by
  rw [linesFrom_append, linesFrom, if_pos rfl]

/-- Each line is ended by a newline. -/
theorem split_of_linesFrom {pre post : List (List UInt8)} {line : List UInt8}
    (h : linesFrom kept chunk = pre ++ line :: post) :
    ∃ u v, chunk = u ++ char '\n' :: v ∧ restFrom kept u = line ∧ linesFrom [] v = post := by
  induction chunk generalizing kept pre with
  | nil => simp [linesFrom] at h
  | cons c chunk ih =>
    rw [linesFrom] at h
    by_cases hc : char '\n' = c
    · rw [if_pos hc] at h
      cases pre with
      | nil =>
        obtain ⟨hline, hpost⟩ := List.cons.inj h
        exact ⟨[], chunk, by rw [hc]; rfl, hline, hpost⟩
      | cons t pre =>
        obtain ⟨u, v, rfl, hu, hv⟩ := ih (List.cons.inj h).2
        refine ⟨c :: u, v, rfl, ?_, hv⟩
        rw [restFrom, if_pos hc, hu]
    · rw [if_neg hc] at h
      obtain ⟨u, v, rfl, hu, hv⟩ := ih h
      refine ⟨c :: u, v, rfl, ?_, hv⟩
      rw [restFrom, if_neg hc, hu]

theorem string_cons (c : UInt8) (text : List UInt8) : string (c :: text) = [] ↔ c = 0 := by
  unfold string
  rw [List.takeWhile_cons]
  by_cases hc : c = 0
  · simp [hc]
  · simp [hc]

theorem restFrom_clean (h : char '\n' ∉ kept) (text : List UInt8) : char '\n' ∉ restFrom kept text := by
  induction text generalizing kept with
  | nil => exact h
  | cons c text ih =>
    rw [restFrom]
    by_cases hc : char '\n' = c
    · rw [if_pos hc]
      exact ih (by simp)
    · rw [if_neg hc]
      exact ih (by simp [h, hc])

/-- A first line that begins with `c` is an empty string if this is a NUL. -/
theorem string_first {c : UInt8} (hne : linesFrom (c :: kept) text ≠ []) :
    (∀ line ∈ (linesFrom (c :: kept) text).head?, string line = []) ↔ c = 0 := by
  obtain ⟨line, hline⟩ : ∃ line, (linesFrom (c :: kept) text).head? = some line :=
    Option.isSome_iff_exists.mp (List.isSome_head?.mpr hne)
  obtain ⟨rest, rfl⟩ := linesFrom_head hline
  rw [hline]
  simp only [Option.mem_some_iff, forall_eq']
  exact string_cons c _

/-- The first byte tells whether the first line is an empty string. -/
theorem string_head (hkept : char '\n' ∉ kept) (h : char '\n' ∈ chunk) :
    (∀ line ∈ (linesFrom kept chunk).head?, string line = []) ↔
      ∀ c ∈ (kept ++ chunk).head?, c = char '\n' ∨ c = 0 := by
  have hsome : ∀ kept text, char '\n' ∈ text → linesFrom kept text ≠ [] :=
    fun kept text ht hnil => (linesFrom_eq_nil kept text).mp hnil ht
  cases kept with
  | cons c kept =>
    have hc : c ≠ char '\n' := fun hc => hkept (by simp [hc])
    rw [string_first (hsome _ _ h)]
    simp [hc]
  | nil =>
    cases chunk with
    | nil => simp at h
    | cons c chunk =>
      rw [linesFrom]
      by_cases hc : char '\n' = c
      · rw [if_pos hc]
        simp [hc, string]
      · rw [if_neg hc, List.nil_append, string_first (hsome _ _ (by simpa [hc] using h))]
        simp [Ne.symm hc]

/-- **One read** does no harm exactly if its lines do none. -/
theorem quietRead_iff (hkept : char '\n' ∉ p.kept) : QuietRead p chunk ↔
    (p.dropped = true → ∀ line ∈ (linesFrom p.kept chunk).head?, string line = []) ∧
      ∀ pre line post, linesFrom p.kept chunk = pre ++ line :: post → ExitLine line → post = [] := by
  constructor
  · rintro ⟨htail, hexit⟩
    refine ⟨fun hdropped => ?_, fun pre line post hsplit hline => ?_⟩
    · by_cases hnl : char '\n' ∈ chunk
      · exact (string_head hkept hnl).mpr (htail hdropped hnl)
      · rw [(linesFrom_eq_nil p.kept chunk).mpr hnl]
        simp
    · obtain ⟨u, v, hchunk, rfl, rfl⟩ := split_of_linesFrom hsplit
      exact (linesFrom_eq_nil _ _).mpr (hexit u v hchunk hline)
  · rintro ⟨htail, hexit⟩
    refine ⟨fun hdropped hnl => (string_head hkept hnl).mp (htail hdropped), fun u v hchunk hline => ?_⟩
    rw [hchunk, linesFrom_split] at hexit
    exact (linesFrom_eq_nil [] v).mp (hexit _ _ _ rfl hline)

/-! ### All reads -/

section Cutoff

variable (b : Prop) [Decidable b] (n k : ℕ) (rs : List Report)

theorem ignores_cutoff :
    IgnoresReports ((if b then [.tooLong n] else []) ++ rs) ↔ (b → Spared n rs) ∧ IgnoresReports rs := by
  by_cases hb : b
  · rw [if_pos hb, List.singleton_append, IgnoresReports]
    simp [hb]
  · rw [if_neg hb, List.nil_append]
    simp [hb]

theorem spared_cutoff : Spared k ((if b then [.tooLong n] else []) ++ rs) ↔ Spared k rs := by
  by_cases hb : b
  · rw [if_pos hb]
    simp [Spared]
  · rw [if_neg hb, List.nil_append]

theorem passedLines_cutoff : passedLines ((if b then [.tooLong n] else []) ++ rs) = passedLines rs := by
  by_cases hb : b
  · rw [if_pos hb]
    rfl
  · rw [if_neg hb, List.nil_append]

end Cutoff

/-- **The reports are as expected** exactly if the reads do no harm. -/
theorem ignores_reports_iff (hkept : char '\n' ∉ p.kept) (n : ℕ) (chunks : List (List UInt8)) :
    (IgnoresReports (reports n p.kept chunks) ∧ (p.dropped = true → Spared n (reports n p.kept chunks))) ↔
      Quiet p chunks := by
  induction chunks generalizing p n with
  | nil => exact iff_of_true ⟨trivial, fun _ _ h => by cases h⟩ trivial
  | cons chunk chunks ih =>
    rw [Quiet, quietRead_iff hkept, reports, List.append_assoc, ignores_number, ignores_cutoff, spared_append,
      spared_number, spared_cutoff, passedLines_cutoff]
    by_cases hexit : ∃ line ∈ linesFrom p.kept chunk, ExitLine line
    · -- the shell ends with this read
      rw [if_pos hexit]
      have hstop : ¬ ∀ line ∈ linesFrom p.kept chunk, ¬ ExitLine line := by
        obtain ⟨line, hline, hbad⟩ := hexit
        exact fun h => h line hline hbad
      have hnil : ∀ k, Spared k [] := fun _ _ h => by cases h
      simp only [passedLines, and_true, hnil, implies_true, IgnoresReports, hstop, false_imp_iff]
      exact and_comm
    · rw [if_neg hexit]
      have hgo : ∀ line ∈ linesFrom p.kept chunk, ¬ ExitLine line := fun line hline hbad => hexit ⟨line, hline, hbad⟩
      have hclean : char '\n' ∉ (p.read chunk).kept := by
        unfold Pending.read
        simp only
        split
        · simp
        · exact restFrom_clean hkept chunk
      have hrest := ih hclean (n + (linesFrom p.kept chunk).length)
      have hlines : ∀ pre line post, linesFrom p.kept chunk = pre ++ line :: post → ¬ ExitLine line := by
        intro pre line post hsplit
        exact hgo line (by rw [hsplit]; simp)
      have hdropped : (p.read chunk).dropped = true ↔
          (p.dropped = true ∧ char '\n' ∉ chunk) ∨ BUFSIZE ≤ (restFrom p.kept chunk).length := by
        simp [Pending.read]
      rw [hdropped, ← linesFrom_eq_nil p.kept] at hrest
      generalize hB : reports (n + (linesFrom p.kept chunk).length)
        (if BUFSIZE ≤ (restFrom p.kept chunk).length then [] else restFrom p.kept chunk) chunks = B
      have hB' : reports (n + (linesFrom p.kept chunk).length) (p.read chunk).kept chunks = B := hB
      rw [hB'] at hrest
      have hvoid : ∀ P : List (List UInt8) → Prop,
          (∀ pre line post, linesFrom p.kept chunk = pre ++ line :: post → ExitLine line → P post) ↔ True := by
        intro P
        exact iff_true_intro fun pre line post hsplit hline => absurd hline (hlines pre line post hsplit)
      rw [hvoid fun post => post = [] ∧ passedLines B = [], hvoid fun post => post = [], forall_prop_of_true hgo,
        ← hrest]
      by_cases hnone : linesFrom p.kept chunk = []
      · -- the line goes on
        simp only [hnone, List.length_nil, Nat.add_zero, List.head?_nil, Option.not_mem_none, false_imp_iff, implies_true,
          true_and, and_true, or_imp]
        tauto
      · -- another line has begun
        have hspared : Spared n B := by
          refine spared_of_lt fun m text hmem => ?_
          rw [← hB] at hmem
          have hle := reports_mem hmem
          have hpos := List.length_pos_iff.mpr hnone
          omega
        simp only [hnone, and_false, false_or, true_and, and_true, hspared]
        tauto

/-- The events are as expected exactly if the reads do no harm. -/
theorem ignores_events_iff (h : List.Forall₂ Event.Is events (reports 0 [] chunks)) :
    Ignores events ↔ Quiet ⟨[], false⟩ chunks := by
  rw [ignores_of_is h, ← ignores_reports_iff (p := ⟨[], false⟩) (by simp) 0 chunks]
  simp

/-- **The shell ignores what it should ignore** exactly if no read does harm. -/
theorem ignores_iff (input : Memory) (hchunks : ∀ chunk ∈ chunks, 0 < chunk.length ∧ chunk.length ≤ BUFSIZE)
    (hfuel : 2 * BUFSIZE < fuel) :
    ∃ s, main fuel input chunks = .ok s ∧ (Ignores s.events ↔ Quiet ⟨[], false⟩ chunks) := by
  obtain ⟨s, hok, -, hall⟩ := main_spec input hchunks hfuel
  exact ⟨s, hok, ignores_events_iff hall⟩

/-- The command `exit` at the end of a read, in front of another line. -/
theorem ignores_iff_exit_last :
    ∃ s, main 2049 (fun _ => 0) [[101, 120, 105, 116, 10], [108, 115, 10]] = .ok s ∧ Ignores s.events := by
  obtain ⟨s, hok, hiff⟩ := @ignores_iff 2049 [[101, 120, 105, 116, 10], [108, 115, 10]] (fun _ => 0) (by decide)
    (by decide)
  have hexit : ExitLine [101, 120, 105, 116] := by decide
  refine ⟨s, hok, hiff.mpr ⟨(quietRead_iff (by simp)).mpr ⟨by simp, ?_⟩, fun h => ?_⟩⟩
  · have hlines : linesFrom [] [101, 120, 105, 116, 10] = [[101, 120, 105, 116]] := by decide
    intro pre line post hsplit _
    rw [hlines] at hsplit
    cases pre with
    | nil => exact (List.cons.inj hsplit).2.symm
    | cons c pre => exact absurd (List.cons.inj hsplit).2 (by simp)
  · exact absurd hexit (h _ (by decide))

/-- The command `exit` and another line in one read; and a line of 1024 letters, of which two more come with the next
read. -/
theorem ignored_lines_run :
    (∃ s, main 2049 (fun _ => 0) [[101, 120, 105, 116, 10, 108, 115, 10]] = .ok s ∧ ¬ Ignores s.events) ∧
      ∃ s, main 2049 (fun _ => 0) [List.replicate 1024 97, [108, 115, 10]] = .ok s ∧ ¬ Ignores s.events := by
  constructor
  · obtain ⟨s, hok, -, hall⟩ := @main_spec 2049 [[101, 120, 105, 116, 10, 108, 115, 10]] (fun _ => 0) (by decide)
      (by decide)
    refine ⟨s, hok, fun h => ?_⟩
    have hquiet := ((ignores_events_iff hall).mp h).1
    have hexit : ExitLine (restFrom [] [101, 120, 105, 116]) := by decide
    exact absurd (hquiet.exit [101, 120, 105, 116] [108, 115, 10] rfl hexit) (by decide)
  · have hno : char '\n' ∉ List.replicate 1024 (97 : UInt8) := by
      rw [List.mem_replicate]
      decide
    have hlines : linesFrom [] (List.replicate 1024 97) = [] := (linesFrom_eq_nil _ _).mpr hno
    have hrest : restFrom [] (List.replicate 1024 97) = List.replicate 1024 97 := by
      have hjoin := linesFrom_join [] (List.replicate 1024 97)
      rw [hlines, List.flatMap_nil, List.nil_append, List.nil_append] at hjoin
      exact hjoin
    have hlong : BUFSIZE ≤ (restFrom [] (List.replicate 1024 97)).length := by
      rw [hrest, List.length_replicate]
    have hchunks : ∀ chunk ∈ [List.replicate 1024 (97 : UInt8), [108, 115, 10]],
        0 < chunk.length ∧ chunk.length ≤ BUFSIZE := by
      intro chunk hchunk
      rcases List.mem_cons.mp hchunk with rfl | hchunk
      · rw [List.length_replicate]
        decide
      · rw [List.mem_singleton.mp hchunk]
        decide
    have hnone : ∀ line ∈ linesFrom [] (List.replicate 1024 97), ¬ ExitLine line := by
      intro line hline
      rw [hlines] at hline
      cases hline
    obtain ⟨s, hok, -, hall⟩ := @main_spec 2049 _ (fun _ => 0) hchunks (by decide)
    refine ⟨s, hok, fun h => ?_⟩
    have hquiet := (((ignores_events_iff hall).mp h).2 hnone).1
    have hread : Pending.read ⟨[], false⟩ (List.replicate 1024 97) = ⟨[], true⟩ := by
      unfold Pending.read
      simp only [if_pos hlong, decide_eq_true hlong, Bool.or_true]
    rw [hread] at hquiet
    exact absurd (hquiet.tail rfl (by decide) 108 rfl) (by decide)

end AdelaideOS.Shell
