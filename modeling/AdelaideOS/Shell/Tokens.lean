import AdelaideOS.Shell.Words

/-!
# The runs of a line

`parse_command`, which `sh.c` and `fstool.c` have word for word alike, for any number of arguments.  The runs of characters
that separate no words are described apart from the scanner.

* **`wordIn_iff`** — a word between separators is a run that no longer one contains;
* **`words_runs`** — the words of a line are these runs, each once and in their order;
* **`parseCommand_tokens`** — `parse_command` finds the first `max - 1` runs and ends each with a NUL.
-/

namespace AdelaideOS.Shell

open AdelaideOS.Kernel AdelaideOS.Libc AdelaideOS.Lib.Bytes

/-- `w`, behind `pre`, is a run of characters that separate no words, and no longer run contains it. -/
structure MaximalRun (text pre w post : List UInt8) : Prop where
  split : text = pre ++ (w ++ post)
  nonempty : w ≠ []
  chars : ∀ c ∈ w, ¬ IsSep c
  maximal : ∀ pre' u v post', pre = pre' ++ u → post = v ++ post' → (∀ c ∈ u ++ (w ++ v), ¬ IsSep c) →
    u = [] ∧ v = []

/-- The maximal runs of a text with the places where they begin, each once and in their order. -/
structure RunsOf (text : List UInt8) (runs : List (ℕ × List UInt8)) : Prop where
  exact : ∀ a w, (a, w) ∈ runs ↔ ∃ pre post, MaximalRun text pre w post ∧ a = pre.length
  ordered : runs.Pairwise fun r r' => r.1 < r'.1

variable {M : Memory} {line len max pos a b n fuel : ℕ} {text rest word pre w post : List UInt8} {s : Parse}
  {runs runs' : List (ℕ × List UInt8)}

/-! ### Runs -/

/-- Separators, or the ends of the text, stand around a run if and only if it is maximal. -/
theorem wordIn_iff : WordIn text pre w post ↔ MaximalRun text pre w post := by
  constructor
  · intro h
    refine ⟨h.split, h.nonempty, h.chars, fun pre' u v post' hpre hpost hchars => ⟨?_, ?_⟩⟩
    · by_contra hu
      have hlast : u.getLast hu ∈ pre.getLast? := by
        rw [hpre, List.getLast?_append_of_ne_nil _ hu, List.getLast?_eq_getLast_of_ne_nil hu]
        rfl
      exact hchars _ (List.mem_append_left _ (List.getLast_mem hu)) (h.before _ hlast)
    · by_contra hv
      have hhead : v.head hv ∈ post.head? := by
        rw [hpost, List.head?_append_of_ne_nil _ hv, List.head?_eq_some_head hv]
        rfl
      exact hchars _ (by simp) (h.behind _ hhead)
  · intro h
    refine ⟨h.split, h.nonempty, h.chars, fun c hc => ?_, fun c hc => ?_⟩
    · by_contra hsep
      obtain ⟨post', hpost⟩ := List.head?_eq_some_iff.mp hc
      have hlonger := h.maximal pre [] [c] post' (List.append_nil _).symm hpost (chars_snoc h.chars hsep)
      exact List.cons_ne_nil c [] hlonger.2
    · by_contra hsep
      obtain ⟨pre', hpre⟩ := List.getLast?_eq_some_iff.mp hc
      have hlonger := h.maximal pre' [c] [] post hpre rfl (by
        intro d hd
        rw [List.append_nil] at hd
        rcases List.mem_cons.mp hd with rfl | hd
        · exact hsep
        · exact h.chars d hd)
      exact List.cons_ne_nil c [] hlonger.1

/-- A word does not begin inside other characters that separate no words. -/
theorem WordIn.before_nil {u : List UInt8} (h : WordIn text pre w post) (hpre : word = pre ++ u)
    (hword : ∀ c ∈ word, ¬ IsSep c) : pre = [] := by
  by_contra hne
  have hlast : pre.getLast hne ∈ pre.getLast? := List.getLast?_eq_getLast_of_ne_nil hne
  exact hword _ (hpre ▸ List.mem_append_left _ (List.getLast_mem hne)) (h.before _ hlast)

/-- A word behind a separator is a word of the rest. -/
theorem WordIn.behind_sep {c : UInt8} (h : WordIn text (word ++ c :: pre) w post) (hrest : rest = pre ++ (w ++ post)) :
    WordIn rest pre w post := by
  refine ⟨hrest, h.nonempty, h.chars, h.behind, fun d hd => h.before d ?_⟩
  rw [List.getLast?_append_cons]
  cases pre with
  | nil => cases hd
  | cons e pre => rwa [List.getLast?_cons_cons]

/-- Characters that separate no words, up to a separator or the end, are read in one way. -/
theorem run_unique {post' w' : List UInt8} (h : w ++ post = w' ++ post') (hw : ∀ c ∈ w, ¬ IsSep c)
    (hw' : ∀ c ∈ w', ¬ IsSep c) (hpost : ∀ c ∈ post.head?, IsSep c) (hpost' : ∀ c ∈ post'.head?, IsSep c) :
    w = w' ∧ post = post' := by
  induction w generalizing w' with
  | nil =>
    cases w' with
    | nil => exact ⟨rfl, h⟩
    | cons d w' =>
      rw [List.nil_append] at h
      exact absurd (hpost d (by rw [h]; rfl)) (hw' d (by simp))
  | cons c w ih =>
    cases w' with
    | nil =>
      rw [List.nil_append] at h
      exact absurd (hpost' c (by rw [← h]; rfl)) (hw c (by simp))
    | cons d w' =>
      rw [List.cons_append, List.cons_append] at h
      obtain ⟨rfl, hrest⟩ := List.cons.inj h
      obtain ⟨rfl, rfl⟩ := ih hrest (fun e he => hw e (by simp [he])) fun e he => hw' e (by simp [he])
      exact ⟨rfl, rfl⟩

/-- The word of which `word` is the beginning is found where it ends. -/
theorem found_mem (h : WordIn (word ++ rest) [] w post) (hword : ∀ c ∈ word, ¬ IsSep c)
    (hsep : ∀ c ∈ rest.head?, IsSep c) :
    (a, w) ∈ found a word := by
  have hsplit : word ++ rest = w ++ post := h.split
  obtain ⟨rfl, -⟩ := run_unique hsplit hword h.chars hsep h.behind
  rw [found, if_neg h.nonempty]
  exact List.mem_singleton.mpr rfl

/-- **Every word is found**, with its place. -/
theorem mem_wordsFrom (h : WordIn (word ++ rest) pre w post) (hword : ∀ c ∈ word, ¬ IsSep c) :
    (a + pre.length, w) ∈ wordsFrom a word rest := by
  induction rest generalizing a word pre with
  | nil =>
    rw [List.append_nil] at h
    obtain rfl := h.before_nil h.split hword
    exact found_mem ((List.append_nil word).symm ▸ h) hword (by simp)
  | cons c rest ih =>
    unfold wordsFrom
    by_cases hsep : IsSep c
    · rw [if_pos hsep]
      -- the word begins in `word`, or behind `c`
      rcases List.append_eq_append_iff.mp h.split with ⟨u, hpre, hrest⟩ | ⟨u, hpre, -⟩
      · cases u with
        | nil =>
          rw [List.append_nil] at hpre
          obtain rfl := h.before_nil (List.append_nil pre).symm (hpre ▸ hword)
          exact List.mem_append_left _ (found_mem h hword (by simpa using hsep))
        | cons d u =>
          rw [List.cons_append] at hrest
          obtain ⟨rfl, htail⟩ := List.cons.inj hrest
          rw [hpre] at h
          have hfound := @ih (a + word.length + 1) [] u (h.behind_sep htail) (by simp)
          rw [hpre, List.length_append, List.length_cons,
            show a + (word.length + (u.length + 1)) = a + word.length + 1 + u.length by omega]
          exact List.mem_append_right _ hfound
      · obtain rfl := h.before_nil hpre hword
        exact List.mem_append_left _ (found_mem h hword (by simpa using hsep))
    · rw [if_neg hsep]
      refine ih ?_ (chars_snoc hword hsep)
      rw [List.append_assoc]
      exact h

/-- The words are found in their order. -/
theorem wordsFrom_ordered (hword : ∀ c ∈ word, ¬ IsSep c) :
    (wordsFrom a word rest).Pairwise fun r r' => r.1 < r'.1 := by
  have hone : ∀ b v, (found b v).Pairwise fun r r' => r.1 < r'.1 := by
    intro b v
    unfold found
    split <;> simp
  induction rest generalizing a word with
  | nil => exact hone a word
  | cons c rest ih =>
    unfold wordsFrom
    by_cases hsep : IsSep c
    · rw [if_pos hsep, List.pairwise_append]
      refine ⟨hone a word, ih (by simp), fun r hr r' hr' => ?_⟩
      have hfirst := (found_word (c :: rest) hr hword (by simpa using hsep)).2
      obtain ⟨pre, post, -, hplace⟩ := wordsFrom_mem hr' (by simp)
      omega
    · rw [if_neg hsep]
      exact ih (chars_snoc hword hsep)

/-- **The words of a text are its maximal runs.** -/
theorem words_runs (text : List UInt8) : RunsOf text (words text) := by
  refine ⟨fun a w => ⟨fun h => ?_, ?_⟩, wordsFrom_ordered (by simp)⟩
  · obtain ⟨pre, post, hin, hplace⟩ := wordsFrom_mem h (by simp)
    exact ⟨pre, post, wordIn_iff.mp hin, hplace.trans (Nat.zero_add _)⟩
  · rintro ⟨pre, post, hrun, rfl⟩
    have hfound := @mem_wordsFrom 0 text [] pre w post (wordIn_iff.mpr hrun) (by simp)
    rwa [Nat.zero_add] at hfound

/-- A text has one list of runs. -/
theorem RunsOf.unique (h : RunsOf text runs) (h' : RunsOf text runs') : runs = runs' := by
  have hnodup : ∀ {l : List (ℕ × List UInt8)}, (l.Pairwise fun r r' => r.1 < r'.1) → l.Nodup :=
    fun hl => hl.imp fun hlt heq => absurd (congrArg Prod.fst heq) (by omega)
  have hperm := (List.perm_ext_iff_of_nodup (hnodup h.ordered) (hnodup h'.ordered)).mpr fun r =>
    (h.exact r.1 r.2).trans (h'.exact r.1 r.2).symm
  exact hperm.eq_of_pairwise (fun r r' _ _ hlt hgt => absurd (hlt.trans hgt) (lt_irrefl _)) h.ordered h'.ordered

/-! ### `parse_command` -/

/-- **Command tokenising.**  `argc` is the number of runs, or `max - 1` if there are more; `argv` points to the first runs,
now strings; of the line, nothing but separators and the terminator has changed. -/
theorem parseCommand_tokens (htext : TextAt M line text) (hfuel : text.length < fuel) (max : ℕ) :
    ∃ s runs, parseCommand M line max fuel = .ok s ∧ RunsOf text runs ∧
      s.argv.length = min (max - 1) runs.length ∧
      (∀ i < s.argv.length, ∃ a w,
        runs[i]? = some (a, w) ∧ s.argv[i]? = some (line + a) ∧ TextAt s.mem (line + a) w) ∧
      (∀ x, s.mem x ≠ M x → line ≤ x ∧ x ≤ line + text.length ∧ (IsSep (M x) ∨ x = line + text.length)) ∧
      s.argv.length ≤ max - 1 := by
  obtain ⟨s, hok, hparsed⟩ := parseCommand_spec htext hfuel max
  have hargc : s.argv.length = min (max - 1) (words text).length := by
    rw [hparsed.argv, List.length_take, List.length_map]
  refine ⟨s, words text, hok, words_runs text, hargc, fun i hi => ?_, fun x hx => ?_, ?_⟩
  · have hfirst : i < max - 1 := by omega
    have hrun : i < (words text).length := by omega
    refine ⟨(words text)[i].1, (words text)[i].2, List.getElem?_eq_getElem hrun, ?_, ?_⟩
    · rw [hparsed.argv, List.getElem?_take_of_lt hfirst, List.getElem?_map, List.getElem?_eq_getElem hrun]
      rfl
    · exact (hparsed.textAt htext (List.getElem_mem hrun)).1
  · by_contra hno
    rw [hparsed.mem x, if_neg hno] at hx
    exact hx rfl
  · rw [hargc]
    exact min_le_left _ _

/-- The line ` ls -l a`, with room for two arguments. -/
theorem parseCommand_tokens_ls :
    ∃ s, parseCommand (chars [32, 108, 115, 32, 45, 108, 32, 97, 10]) 0 3 10 = .ok s ∧ s.argv.length = 2 ∧
      s.argv[1]? = some 4 ∧ TextAt s.mem 4 [45, 108] := by
  have htext : TextAt (chars [32, 108, 115, 32, 45, 108, 32, 97, 10]) 0 [32, 108, 115, 32, 45, 108, 32, 97, 10] :=
    ⟨rfl, by decide, rfl, by decide, rfl, by decide, rfl, by decide, rfl, by decide, rfl, by decide, rfl, by decide,
      rfl, by decide, rfl, by decide, rfl⟩
  obtain ⟨s, runs, hok, hruns, hargc, hargv, -⟩ := parseCommand_tokens htext (show 9 < 10 by decide) 3
  have hthree : runs = [(1, [108, 115]), (4, [45, 108]), (7, [97])] := hruns.unique (words_runs _)
  rw [hthree] at hargc hargv
  obtain ⟨a, w, hrun, hplace, hstring⟩ := hargv 1 (by rw [hargc]; decide)
  obtain ⟨rfl, rfl⟩ := Prod.mk.inj (Option.some.inj hrun)
  exact ⟨s, hok, hargc, hplace, hstring⟩

end AdelaideOS.Shell
