import AdelaideOS.Shell.Model

/-!
# The words of a line

* **`wordsFrom_mem`** — the words are runs of characters that separate no words;
* **`parseCommand_spec`** — `parse_command` finds the words, and turns each into a string;
* **`processLine_spec`** — `process_line` stays inside its line, and finds out whether the command is `exit`.
-/

namespace AdelaideOS.Shell

open AdelaideOS.Kernel AdelaideOS.Libc AdelaideOS.Lib.Bytes

/-- The characters that separate words. -/
def IsSep (c : UInt8) : Prop := char '\n' = c ∨ char ' ' = c

instance (c : UInt8) : Decidable (IsSep c) := inferInstanceAs (Decidable (_ ∨ _))

/-- The word that began at `a`, if it has any characters. -/
def found (a : ℕ) (word : List UInt8) : List (ℕ × List UInt8) := if word = [] then [] else [(a, word)]

/-- The words of a text with the places where they begin; of the word that begins at `a`, the characters `word` have been
read. -/
def wordsFrom (a : ℕ) (word : List UInt8) : List UInt8 → List (ℕ × List UInt8)
  | [] => found a word
  | c :: text =>
    if IsSep c then found a word ++ wordsFrom (a + word.length + 1) [] text else wordsFrom a (word ++ [c]) text

def words (text : List UInt8) : List (ℕ × List UInt8) := wordsFrom 0 [] text

/-- The text is the command `exit`. -/
def Exits (text : List UInt8) : Prop := (words text).head?.map Prod.snd = some exitWord

instance (text : List UInt8) : Decidable (Exits text) := inferInstanceAs (Decidable (_ = _))

/-- The word `w` stands in the text behind `pre`, between separators. -/
structure WordIn (text pre w post : List UInt8) : Prop where
  split : text = pre ++ (w ++ post)
  nonempty : w ≠ []
  chars : ∀ c ∈ w, ¬ IsSep c
  behind : ∀ c ∈ post.head?, IsSep c
  before : ∀ c ∈ pre.getLast?, IsSep c

variable {M M' : Memory} {line len max pos a b n p x fuel : ℕ} {text rest word w : List UInt8} {s : Parse} {argv : List ℕ}

/-! ### Words -/

/-- One more character of a word. -/
theorem chars_snoc {c : UInt8} (hword : ∀ d ∈ word, ¬ IsSep d) (hc : ¬ IsSep c) : ∀ d ∈ word ++ [c], ¬ IsSep d := by
  intro d hd
  rcases List.mem_append.mp hd with hd | hd
  · exact hword d hd
  · rw [List.mem_singleton.mp hd]
    exact hc

theorem found_word (rest : List UInt8) (h : (b, w) ∈ found a word) (hword : ∀ c ∈ word, ¬ IsSep c)
    (hsep : ∀ c ∈ rest.head?, IsSep c) :
    WordIn (word ++ rest) [] w rest ∧ b = a := by
  unfold found at h
  split at h
  · simp at h
  · rename_i hne
    simp only [List.mem_singleton, Prod.mk.injEq] at h
    obtain ⟨rfl, rfl⟩ := h
    exact ⟨⟨rfl, hne, hword, hsep, by simp⟩, rfl⟩

/-- A word behind a separator. -/
theorem WordIn.later {c : UInt8} {pre post : List UInt8} (h : WordIn rest pre w post) (hsep : IsSep c) :
    WordIn (word ++ c :: rest) (word ++ c :: pre) w post := by
  refine ⟨?_, h.nonempty, h.chars, h.behind, ?_⟩
  · rw [h.split, List.append_assoc, List.cons_append]
  · intro e he
    rw [List.getLast?_append_cons] at he
    cases pre with
    | nil =>
      rw [List.getLast?_singleton, Option.mem_some_iff] at he
      exact he ▸ hsep
    | cons d pre =>
      rw [List.getLast?_cons_cons] at he
      exact h.before e he

/-- **The words** are runs of other characters between separators. -/
theorem wordsFrom_mem (h : (b, w) ∈ wordsFrom a word rest) (hword : ∀ c ∈ word, ¬ IsSep c) :
    ∃ pre post, WordIn (word ++ rest) pre w post ∧ b = a + pre.length := by
  induction rest generalizing a word with
  | nil =>
    obtain ⟨hin, rfl⟩ := found_word [] h hword (by simp)
    exact ⟨[], [], hin, rfl⟩
  | cons c rest ih =>
    unfold wordsFrom at h
    by_cases hsep : IsSep c
    · rw [if_pos hsep] at h
      rcases List.mem_append.mp h with h | h
      · obtain ⟨hin, rfl⟩ := found_word (c :: rest) h hword (by simpa using hsep)
        exact ⟨[], c :: rest, hin, rfl⟩
      · obtain ⟨pre, post, hin, rfl⟩ := ih h (by simp)
        refine ⟨word ++ c :: pre, post, hin.later hsep, ?_⟩
        rw [List.length_append, List.length_cons]
        omega
    · rw [if_neg hsep] at h
      obtain ⟨pre, post, hin, rfl⟩ := ih h (chars_snoc hword hsep)
      refine ⟨pre, post, ?_, rfl⟩
      rw [List.append_assoc, List.singleton_append] at hin
      exact hin

/-! ### `parse_command` -/

/-- The end of a word, or one more separator. -/
theorem parseStep_end (h : IsSep (s.mem (line + pos)) ∨ pos = len) : parseStep line len max s pos =
    { mem := Function.update s.mem (line + pos) 0
      argv := if s.start < pos ∧ s.argv.length + 1 < max then s.argv ++ [line + s.start] else s.argv
      start := pos + 1
      log := (line + pos) :: s.log } := if_pos (or_assoc.mp h)

/-- A character of a word. -/
theorem parseStep_char (h : ¬ (IsSep (s.mem (line + pos)) ∨ pos = len)) :
    parseStep line len max s pos = { s with log := (line + pos) :: s.log } := if_neg (mt or_assoc.mpr h)

theorem parseStep_mem (x : ℕ) : (parseStep line len max s pos).mem x =
    if x = line + pos ∧ (IsSep (s.mem x) ∨ x = line + len) then 0 else s.mem x := by
  have hlast : pos = len ↔ line + pos = line + len := by omega
  by_cases hend : IsSep (s.mem (line + pos)) ∨ pos = len
  · rw [parseStep_end hend]
    rw [hlast] at hend
    simp only
    rw [Function.update_apply]
    by_cases he : x = line + pos
    · rw [if_pos he, he, if_pos ⟨rfl, hend⟩]
    · rw [if_neg he, if_neg fun hc => he hc.1]
  · rw [parseStep_char hend]
    rw [hlast] at hend
    rw [if_neg]
    rintro ⟨rfl, hc⟩
    exact hend hc

theorem parseStep_log : (parseStep line len max s pos).log = (line + pos) :: s.log := by
  unfold parseStep
  simp only
  split <;> rfl

/-- The loop, from `pos` on for `n` rounds. -/
def parseLoop (line len max pos n : ℕ) (s : Parse) : Parse := (List.range' pos n).foldl (parseStep line len max) s

theorem parseLoop_succ : parseLoop line len max pos (n + 1) s =
    parseLoop line len max (pos + 1) n (parseStep line len max s pos) := rfl

/-- What the rounds do to the line. -/
theorem parseLoop_mem (x : ℕ) : (parseLoop line len max pos n s).mem x =
    if line + pos ≤ x ∧ x < line + pos + n ∧ (IsSep (s.mem x) ∨ x = line + len) then 0 else s.mem x := by
  induction n generalizing pos s with
  | zero => rw [if_neg (by omega)]; rfl
  | succ n ih =>
    rw [parseLoop_succ, ih, parseStep_mem]
    by_cases he : x = line + pos
    · rw [if_neg (by omega)]
      by_cases hsep : IsSep (s.mem x) ∨ x = line + len
      · rw [if_pos ⟨he, hsep⟩, if_pos ⟨by omega, by omega, hsep⟩]
      · rw [if_neg fun hc => hsep hc.2, if_neg fun hc => hsep hc.2.2]
    · have hno : ¬ (x = line + pos ∧ (IsSep (s.mem x) ∨ x = line + len)) := fun hc => he hc.1
      rw [if_neg hno]
      by_cases hin : line + pos ≤ x ∧ x < line + pos + (n + 1)
      · by_cases hsep : IsSep (s.mem x) ∨ x = line + len
        · rw [if_pos ⟨by omega, by omega, hsep⟩, if_pos ⟨hin.1, hin.2, hsep⟩]
        · rw [if_neg fun hc => hsep hc.2.2, if_neg fun hc => hsep hc.2.2]
      · rw [if_neg (by omega), if_neg fun hc => hin ⟨hc.1, hc.2.1⟩]

theorem parseLoop_log : ∀ i ∈ (parseLoop line len max pos n s).log, i ∈ s.log ∨ (line + pos ≤ i ∧ i < line + pos + n) := by
  induction n generalizing pos s with
  | zero => exact fun i hi => .inl hi
  | succ n ih =>
    intro i hi
    rw [parseLoop_succ] at hi
    rcases ih i hi with hi | hi
    · rw [parseStep_log] at hi
      rcases List.mem_cons.mp hi with rfl | hi
      · exact .inr (by omega)
      · exact .inl hi
    · exact .inr (by omega)

/-- The word that ends at `pos` is added, if there is room for it. -/
theorem found_argv (hpos : pos = s.start + word.length) :
    (if s.start < pos ∧ s.argv.length + 1 < max then s.argv ++ [line + s.start] else s.argv) =
      s.argv ++ ((found s.start word).map (line + ·.1)).take (max - 1 - s.argv.length) := by
  unfold found
  by_cases hnil : word = []
  · rw [if_pos hnil, if_neg (by rw [hpos, hnil, List.length_nil]; omega)]
    simp
  · have hlen := List.length_pos_iff.mpr hnil
    rw [if_neg hnil]
    by_cases hroom : s.argv.length + 1 < max
    · rw [if_pos ⟨by omega, hroom⟩, List.take_of_length_le (by simp only [List.length_map, List.length_singleton]; omega)]
      rfl
    · rw [if_neg fun hc => hroom hc.2, show max - 1 - s.argv.length = 0 by omega, List.take_zero, List.append_nil]

/-- What the rounds do to `argv`. -/
theorem parseLoop_argv (htext : TextAt s.mem (line + pos) rest) (hlen : len = pos + rest.length)
    (hpos : pos = s.start + word.length) :
    (parseLoop line len max pos (rest.length + 1) s).argv =
      s.argv ++ ((wordsFrom s.start word rest).map (line + ·.1)).take (max - 1 - s.argv.length) := by
  induction rest generalizing s pos word with
  | nil =>
    have hend : pos = len := hlen.symm
    rw [List.length_nil, parseLoop_succ, parseStep_end (.inr hend)]
    exact found_argv hpos
  | cons c rest ih =>
    obtain ⟨hc, -, hrest⟩ := htext
    rw [List.length_cons] at hlen ⊢
    rw [parseLoop_succ, wordsFrom]
    -- the step changes nothing behind `pos`
    have htail : TextAt (parseStep line len max s pos).mem (line + (pos + 1)) rest := by
      refine hrest.congr fun x hx _ => ?_
      rw [parseStep_mem, if_neg fun hc => by omega]
    by_cases hsep : IsSep c
    · have hend : IsSep (s.mem (line + pos)) ∨ pos = len := .inl (by rw [hc]; exact hsep)
      rw [if_pos hsep]
      have hpos' : pos + 1 = (parseStep line len max s pos).start + ([] : List UInt8).length := by
        rw [parseStep_end hend]
        rfl
      have hrun := ih htail (by omega) hpos'
      rw [hrun, parseStep_end hend]
      simp only
      rw [found_argv hpos, List.map_append, List.take_append, hpos, List.append_assoc]
      congr 2
      rw [List.length_append, List.length_take, List.length_map]
      congr 1
      omega
    · have hchar : ¬ (IsSep (s.mem (line + pos)) ∨ pos = len) := by
        rintro (hsep' | hend)
        · rw [hc] at hsep'
          exact hsep hsep'
        · omega
      rw [if_neg hsep]
      have hpos' : pos + 1 = (parseStep line len max s pos).start + (word ++ [c]).length := by
        rw [parseStep_char hchar, List.length_append, List.length_singleton, hpos, Nat.add_assoc]
      have hrun := ih htail (by omega) hpos'
      rw [hrun, parseStep_char hchar]

/-- What `parse_command` makes of the line with this text: separators and the end are NUL, and `argv` has the first words. -/
structure Parsed (M : Memory) (line : ℕ) (text : List UInt8) (max : ℕ) (s : Parse) : Prop where
  mem : ∀ x, s.mem x =
    if line ≤ x ∧ x ≤ line + text.length ∧ (IsSep (M x) ∨ x = line + text.length) then 0 else M x
  argv : s.argv = ((words text).map (line + ·.1)).take (max - 1)
  log : ∀ i ∈ s.log, line ≤ i ∧ i ≤ line + text.length

theorem span_mem {i : ℕ} (h : i ∈ span a n) : a ≤ i ∧ i ≤ a + n := by
  simp only [span, List.mem_map, List.mem_range] at h
  omega

/-- **`parse_command`** -/
theorem parseCommand_spec (htext : TextAt M line text) (hfuel : text.length < fuel) (max : ℕ) :
    ∃ s, parseCommand M line max fuel = .ok s ∧ Parsed M line text max s := by
  have hlen := strlen_spec (TextAt.shift (a := 0) htext) hfuel
  refine ⟨parseLoop line text.length max 0 (text.length + 1) ⟨M, [], 0, span line text.length⟩, ?_, ?_, ?_, ?_⟩
  · unfold parseCommand
    rw [hlen]
    simp only [bind, Except.bind, pure, Except.pure, parseLoop]
    rw [List.range_eq_range']
  · intro x
    rw [parseLoop_mem]
    simp only [Nat.add_zero, ← Nat.add_assoc, Nat.lt_succ_iff]
  · have hargv := @parseLoop_argv line text.length max 0 text [] ⟨M, [], 0, span line text.length⟩ htext
      (Nat.zero_add _).symm rfl
    rw [hargv]
    rfl
  · intro i hi
    rcases parseLoop_log i hi with hi | hi
    · exact span_mem hi
    · omega

/-- A word stays what it is where its separators have become NUL. -/
theorem textAt_cut {post : List UInt8} (h : TextAt M p (w ++ post)) (hw : ∀ c ∈ w, ¬ IsSep c)
    (hpost : ∀ c ∈ post.head?, IsSep c) (hcut : ∀ x, p ≤ x → x ≤ p + (w ++ post).length →
      M' x = if IsSep (M x) ∨ x = p + (w ++ post).length then 0 else M x) : TextAt M' p w := by
  induction w generalizing p with
  | nil =>
    have hp := hcut p le_rfl (Nat.le_add_right _ _)
    refine hp.trans (if_pos ?_)
    cases post with
    | nil => exact .inr rfl
    | cons c post =>
      left
      rw [h.1]
      exact hpost c rfl
  | cons c w ih =>
    obtain ⟨rfl, hne, hrest⟩ := h
    rw [List.cons_append, List.length_cons] at hcut
    refine ⟨(hcut p le_rfl (by omega)).trans (if_neg ?_), hne, ih hrest (fun d hd => hw d (by simp [hd])) ?_⟩
    · rintro (hsep | hend)
      · exact hw _ (by simp) hsep
      · omega
    · intro x hx hx'
      have hxcut := hcut x (by omega) (by omega)
      rw [show p + ((w ++ post).length + 1) = p + 1 + (w ++ post).length by omega] at hxcut
      exact hxcut

/-- **Each word has become a string**, inside the line. -/
theorem Parsed.textAt (h : Parsed M line text max s) (htext : TextAt M line text) (hw : (a, w) ∈ words text) :
    TextAt s.mem (line + a) w ∧ w ≠ [] ∧ a + w.length ≤ text.length := by
  obtain ⟨pre, post, hin, ha⟩ := wordsFrom_mem hw (by simp)
  have hsplit : text = pre ++ (w ++ post) := hin.split
  have hlen : text.length = pre.length + (w ++ post).length := by rw [hsplit, List.length_append]
  rw [Nat.zero_add] at ha
  refine ⟨?_, hin.nonempty, ?_⟩
  · rw [hsplit] at htext
    rw [ha]
    refine textAt_cut htext.drop hin.chars hin.behind fun x hx hx' => ?_
    have hend : line + text.length = line + pre.length + (w ++ post).length := by omega
    rw [h.mem x, hend]
    by_cases hc : IsSep (M x) ∨ x = line + pre.length + (w ++ post).length
    · rw [if_pos hc, if_pos ⟨by omega, hx', hc⟩]
    · rw [if_neg hc, if_neg fun hc' => hc hc'.2.2]
  · rw [hlen, ha, List.length_append]
    omega

/-! ### `process_line` -/

/-- The arguments are read where they are. -/
theorem readArgs_spec (h : ∀ p ∈ argv, ∃ w, TextAt M p w ∧ w.length < fuel ∧ line ≤ p ∧ p + w.length ≤ line + len) :
    ∃ log, readArgs M fuel argv = .ok log ∧ ∀ i ∈ log, line ≤ i ∧ i ≤ line + len := by
  induction argv with
  | nil => exact ⟨[], rfl, by simp⟩
  | cons p argv ih =>
    obtain ⟨log, hok, hlog⟩ := ih fun q hq => h q (by simp [hq])
    obtain ⟨w, hw, hfuel, hge, hle⟩ := h p (by simp)
    refine ⟨span p w.length ++ log, ?_, fun i hi => ?_⟩
    · unfold readArgs
      rw [strlen_spec (TextAt.shift (a := 0) hw) hfuel, hok]
      rfl
    · rcases List.mem_append.mp hi with hi | hi
      · have := span_mem hi
        omega
      · exact hlog i hi

/-- The command is `exit` if its name is. -/
theorem selectCommand_spec (hname : TextAt M p w) (hfuel : w.length < fuel) (args : List ℕ) :
    ∃ command, selectCommand M p args fuel = .ok command ∧ (command = .exit ↔ w = exitWord) := by
  have hcompare : ∀ t : List UInt8, TextAt (chars t) 0 t →
      strcmp (fun i => M (p + i)) (chars t) fuel = .ok (compared w t) :=
    fun t ht => strcmp_spec (TextAt.shift (a := 0) hname) ht (by omega)
  have hcd := hcompare [char 'c', char 'd'] ⟨rfl, by decide, rfl, by decide, rfl⟩
  have hpwd := hcompare [char 'p', char 'w', char 'd'] ⟨rfl, by decide, rfl, by decide, rfl, by decide, rfl⟩
  have hexit := hcompare exitWord ⟨rfl, by decide, rfl, by decide, rfl, by decide, rfl, by decide, rfl⟩
  unfold selectCommand
  rw [hcd, hpwd, hexit]
  simp only [bind, Except.bind, pure, Except.pure, compared_eq_zero]
  by_cases h1 : w = [char 'c', char 'd']
  · rw [if_pos h1]
    exact ⟨_, rfl, by simp [h1, exitWord]⟩
  rw [if_neg h1]
  by_cases h2 : w = [char 'p', char 'w', char 'd']
  · rw [if_pos h2]
    exact ⟨_, rfl, by simp [h2, exitWord]⟩
  rw [if_neg h2]
  by_cases h3 : w = exitWord
  · rw [if_pos h3]
    exact ⟨_, rfl, by simp [h3]⟩
  · rw [if_neg h3]
    exact ⟨_, rfl, by simp [h3]⟩

/-- What `process_line` does to a line with this text. -/
structure ProcessedLine (M : Memory) (line : ℕ) (text : List UInt8) (r : Processed) : Prop where
  outside : ∀ x, x < line ∨ line + text.length < x → r.mem x = M x
  exits : r.command = .exit ↔ Exits text
  log : ∀ i ∈ r.log, line ≤ i ∧ i ≤ line + text.length

/-- **`process_line`** -/
theorem processLine_spec (htext : TextAt M line text) (hfuel : text.length < fuel) :
    ∃ r, processLine M line fuel = .ok r ∧ ProcessedLine M line text r := by
  obtain ⟨s, hok, hparsed⟩ := parseCommand_spec htext hfuel MAX_ARGS
  have houtside : ∀ x, x < line ∨ line + text.length < x → s.mem x = M x := by
    intro x hx
    rw [hparsed.mem x, if_neg (by omega)]
  unfold processLine
  rw [hok]
  simp only [bind, Except.bind, pure, Except.pure]
  cases hwords : words text with
  | nil =>
    have hargv : s.argv = [] := by rw [hparsed.argv, hwords]; rfl
    rw [hargv]
    exact ⟨_, rfl, houtside, by simp [Exits, hwords], hparsed.log⟩
  | cons first others =>
    obtain ⟨a, w⟩ := first
    obtain ⟨args, hargv⟩ : ∃ args, s.argv = (line + a) :: args := by
      rw [hparsed.argv, hwords]
      exact ⟨_, rfl⟩
    -- every argument is a word
    have hargs : ∀ p ∈ s.argv, ∃ w, TextAt s.mem p w ∧ w.length < fuel ∧ line ≤ p ∧ p + w.length ≤ line + text.length := by
      intro p hp
      rw [hparsed.argv] at hp
      obtain ⟨⟨b, v⟩, hv, rfl⟩ := List.mem_map.mp (List.mem_of_mem_take hp)
      obtain ⟨hv, -, hlen⟩ := hparsed.textAt htext hv
      exact ⟨v, hv, by omega, by omega, by omega⟩
    obtain ⟨log, hread, hlog⟩ := readArgs_spec hargs
    obtain ⟨hw, -, hlen⟩ := hparsed.textAt htext (hwords ▸ List.mem_cons_self)
    obtain ⟨command, hcommand, hexit⟩ := selectCommand_spec hw (show w.length < fuel by omega) args
    rw [hargv] at hread ⊢
    simp only
    rw [hread]
    simp only
    rw [hcommand]
    refine ⟨_, rfl, houtside, ?_, fun i hi => ?_⟩
    · rw [hexit]
      simp [Exits, hwords]
    · rcases List.mem_append.mp hi with hi | hi
      · exact hlog i hi
      · exact hparsed.log i hi

end AdelaideOS.Shell
