import AdelaideOS.Kernel.Absolute
import AdelaideOS.Kernel.Resolution

/-!
# Paths that do not fit

`relative_to_absolute` cuts a path off at `PATH_MAX` and does not tell.  A list of components is followed without a
limit: `resolved base rel`.  Next to it goes the buffer, which holds the canonical text of a list, cut off; `course` says
as long as it is the same list.

* **`buffered_foldl`** — the buffer after all components;
* **`fits_iff`** — every file system is searched for the right entry exactly for the paths that fit.
-/

namespace AdelaideOS.Kernel

open AdelaideOS.Buddy AdelaideOS.Lib.Bytes AdelaideOS.Lib.Triple AdelaideOS.Lib.View AdelaideOS.Page AdelaideOS.Process

/-! ### Without a limit -/

/-- The components that a path leads to. -/
def resolved (base rel : List UInt8) : List (List UInt8) := (components rel).foldl follow (startList (components base) rel)

/-- The entry that a path names. -/
def Names (fs : Memory) (base rel : List UInt8) (entry : ℕ) : Prop :=
  getDirectoryEntry fs (canonicalText (resolved base rel)) = .ok (.ok entry)

/-- The components that a path has led to, and whether the buffer follows. -/
structure Course where
  names : List (List UInt8)
  kept : Bool

/-- A component `..` is followed from a text that has been cut off, if no more than the last name has been cut.  At the
root it does not matter what the buffer has lost. -/
def Course.next (limit : ℕ) (c : Course) (name : List UInt8) : Course where
  names := follow c.names name
  kept :=
    if name = [char '.', char '.'] then
      decide (c.names.dropLast = []) || c.kept && decide ((canonicalText c.names.dropLast).length < limit)
    else c.kept

def course (limit : ℕ) (base rel : List UInt8) : Course :=
  (components rel).foldl (Course.next limit) ⟨startList (components base) rel, true⟩

/-- The path fits, and so does every directory that a `..` leads to since the path was at the root. -/
def Fits (base rel : List UInt8) : Prop :=
  (course (PATH_MAX - 1) base rel).kept = true ∧ (canonicalText (resolved base rel)).length ≤ PATH_MAX - 1

instance (base rel : List UInt8) : Decidable (Fits base rel) := inferInstanceAs (Decidable (_ ∧ _))

variable {N : ℕ} {l q : List (List UInt8)} {path name base rel : List UInt8} {c : Course}

theorem names_foldl (N : ℕ) (names : List (List UInt8)) (c : Course) :
    (names.foldl (Course.next N) c).names = names.foldl follow c.names := by
  induction names generalizing c with
  | nil => rfl
  | cons name names ih => exact ih (c.next N name)

theorem course_names (N : ℕ) (base rel : List UInt8) : (course N base rel).names = resolved base rel :=
  names_foldl N _ _

/-! ### Texts and their components -/

/-- The names without the slash of the root. -/
def slashed (l : List (List UInt8)) : List UInt8 := l.flatMap fun name => char '/' :: name

theorem slashed_concat (l : List (List UInt8)) (name : List UInt8) :
    slashed (l ++ [name]) = slashed l ++ char '/' :: name := by
  unfold slashed
  rw [List.flatMap_append]
  simp

theorem canonicalText_eq (hne : l ≠ []) : canonicalText l = slashed l := if_neg hne

theorem components_slashed (hl : ∀ name ∈ l, IsName name) : components (slashed l) = l := by
  induction l with
  | nil => rfl
  | cons name l ih =>
    have hname := hl name List.mem_cons_self
    have hrest := ih fun n hn => hl n (List.mem_cons_of_mem _ hn)
    show components (char '/' :: (name ++ slashed l)) = name :: l
    rw [components_slash]
    cases l with
    | nil =>
      show components (name ++ []) = [name]
      rw [List.append_nil, components_name hname.slash hname.ne_nil]
    | cons next l =>
      show components (name ++ char '/' :: (next ++ slashed l)) = _
      rw [components_append_slash, components_name hname.slash hname.ne_nil]
      rw [show slashed (next :: l) = char '/' :: (next ++ slashed l) from rfl, components_slash] at hrest
      rw [hrest]
      rfl

theorem isAbsolute_canonicalText (l : List (List UInt8)) : IsAbsolute (canonicalText l) := by
  cases l with
  | nil => rfl
  | cons name l => rfl

theorem IsAbsolute.take {n : ℕ} (h : IsAbsolute path) : IsAbsolute (path.take (n + 1)) := by
  cases path with
  | nil => cases h
  | cons c path => exact h

/-- A canonical text holds no NUL. -/
theorem zero_canonicalText (hl : ∀ name ∈ l, IsName name) : (0 : UInt8) ∉ canonicalText l := by
  intro hmem
  by_cases hnil : l = []
  · rw [hnil] at hmem
    exact absurd hmem (by decide)
  · rw [canonicalText_eq hnil] at hmem
    obtain ⟨name, hname, hin⟩ := List.mem_flatMap.mp hmem
    rcases List.mem_cons.mp hin with hin | hin
    · exact absurd hin (by decide)
    · exact (hl name hname).nul hin

/-- **Canonical texts** are those of their components. -/
theorem components_canonicalText (hl : ∀ name ∈ l, IsName name) : components (canonicalText l) = l := by
  by_cases hnil : l = []
  · rw [hnil]
    rfl
  · rw [canonicalText_eq hnil, components_slashed hl]

theorem length_slashed (l : List (List UInt8)) : (slashed l).length = roomFor l := by
  induction l with
  | nil => rfl
  | cons name l ih =>
    show (char '/' :: (name ++ slashed l)).length = _
    rw [List.length_cons, List.length_append, ih]
    show _ = (name.length + 1) + roomFor l
    omega

theorem roomFor_append (l l' : List (List UInt8)) : roomFor (l ++ l') = roomFor l + roomFor l' := by
  unfold roomFor
  rw [List.map_append, List.sum_append]

/-- The components have room in the path. -/
theorem roomFor_components (path : List UInt8) : roomFor (components path) ≤ path.length + 1 := by
  generalize hn : path.length = n
  induction n using Nat.strong_induction_on generalizing path with
  | _ n ih =>
    by_cases hslash : char '/' ∈ path
    · obtain ⟨xs, name, rfl, hs⟩ := last_slash hslash
      rw [List.length_append, List.length_cons] at hn
      have hxs := ih xs.length (by omega) xs rfl
      rw [components_append_slash]
      have hname : roomFor (components name) ≤ name.length + 1 := by
        by_cases hne : name = []
        · rw [hne]
          exact Nat.zero_le _
        · rw [components_name hs hne]
          exact Nat.le_refl _
      rw [roomFor_append]
      omega
    · by_cases hne : path = []
      · rw [hne]
        exact Nat.zero_le _
      · rw [components_name hslash hne, ← hn]
        exact Nat.le_refl _

theorem roomFor_absolute (h : IsAbsolute path) : roomFor (components path) ≤ path.length := by
  cases path with
  | nil => cases h
  | cons c path =>
    obtain rfl : c = char '/' := Option.some.inj h
    rw [components_slash]
    exact roomFor_components path

/-- A text that has been cut off has no more components. -/
theorem components_take (n : ℕ) (hl : ∀ name ∈ l, IsName name) : (components ((slashed l).take n)).length ≤ l.length := by
  induction l using List.reverseRecOn with
  | nil =>
    rw [show slashed [] = [] from rfl, List.take_nil]
    exact Nat.le_refl 0
  | append_singleton front last ih =>
    have hfront : ∀ name ∈ front, IsName name := fun n hn => hl n (List.mem_append_left _ hn)
    have hlast := hl last (by simp)
    rw [slashed_concat, List.length_append, List.length_singleton]
    by_cases hcut : n ≤ (slashed front).length
    · rw [List.take_append_of_le_length hcut]
      exact (ih hfront).trans (Nat.le_succ _)
    · rw [List.take_append, List.take_of_length_le (by omega), show n - (slashed front).length =
        (n - (slashed front).length - 1) + 1 by omega, List.take_succ_cons, components_append_slash, components_slashed hfront,
        List.length_append]
      have hs : char '/' ∉ last.take (n - (slashed front).length - 1) := fun hmem => hlast.slash (List.mem_of_mem_take hmem)
      by_cases hne : last.take (n - (slashed front).length - 1) = []
      · rw [hne]
        exact Nat.le_succ _
      · rw [components_name hs hne]
        exact Nat.le_refl _

theorem components_take_canonical (n : ℕ) (hl : ∀ name ∈ l, IsName name) :
    (components ((canonicalText l).take n)).length ≤ l.length := by
  by_cases hnil : l = []
  · subst hnil
    cases n with
    | zero => exact Nat.le_refl 0
    | succ n =>
      rw [show canonicalText [] = [char '/'] from rfl, List.take_of_length_le (by simp)]
      exact Nat.le_refl 0
  · rw [canonicalText_eq hnil]
    exact components_take n hl

/-! ### The buffer -/

theorem canonicalText_length_pos (l : List (List UInt8)) : 1 ≤ (canonicalText l).length := by
  by_cases hnil : l = []
  · rw [hnil]
    exact Nat.le_refl 1
  · obtain ⟨name, l, rfl⟩ := List.exists_cons_of_ne_nil hnil
    exact Nat.succ_pos _

/-- **A name** behind a text that may have been cut off. -/
theorem addComponent_take (hN : 2 ≤ N) (hl : ∀ name ∈ l, IsName name) (name : List UInt8) :
    addComponent (N + 1) ((canonicalText l).take N) name = (canonicalText (l ++ [name])).take N := by
  rw [canonicalText_eq (l := l ++ [name]) (by simp), slashed_concat]
  unfold addComponent
  simp only [Nat.add_sub_cancel]
  by_cases hnil : l = []
  · subst hnil
    rw [show canonicalText [] = [char '/'] from rfl, List.take_of_length_le (by simp only [List.length_singleton]; omega),
      if_neg fun h => h.2 rfl]
    obtain ⟨n, rfl⟩ : ∃ n, N = n + 1 := ⟨N - 1, by omega⟩
    rfl
  · rw [canonicalText_eq hnil]
    by_cases hcut : N ≤ (slashed l).length
    · have hlen : ((slashed l).take N).length = N := List.length_take_of_le hcut
      rw [if_neg fun h => absurd h.1 (by omega), hlen, Nat.sub_self, List.take_zero, List.append_nil,
        List.take_append_of_le_length hcut]
    · have hlast : (slashed l).getLast? ≠ some (char '/') := by
        rw [← canonicalText_eq hnil]
        exact (canonicalText_ne hl hnil).2
      rw [List.take_of_length_le (by omega), if_pos ⟨by omega, hlast⟩, List.append_assoc, List.length_append,
        List.length_singleton, List.take_append, List.take_of_length_le (l := slashed l) (by omega),
        show N - (slashed l).length = (N - ((slashed l).length + 1)) + 1 by omega, List.take_succ_cons]
      rfl

/-- **`..`** from a text that may have been cut off. -/
theorem parentPath_take (hN : 2 ≤ N) (hl : ∀ name ∈ l, IsName name) :
    ∃ q, (∀ name ∈ q, IsName name) ∧ parentPath ((canonicalText l).take N) = (canonicalText q).take N ∧
      ((canonicalText l.dropLast).length < N → q = l.dropLast) ∧
      (N ≤ (canonicalText l.dropLast).length → q.length < l.dropLast.length) := by
  induction l using List.reverseRecOn with
  | nil =>
    refine ⟨[], hl, ?_, fun _ => rfl, fun hle => absurd hle ?_⟩
    · rw [show canonicalText [] = [char '/'] from rfl, List.take_of_length_le (by simp only [List.length_singleton]; omega)]
      rfl
    · show ¬ N ≤ 1
      omega
  | append_singleton front last ih =>
    have hfront : ∀ name ∈ front, IsName name := fun n hn => hl n (List.mem_append_left _ hn)
    have hlast := hl last (by simp)
    rw [List.dropLast_concat, canonicalText_eq (l := front ++ [last]) (by simp), slashed_concat]
    by_cases hroom : (canonicalText front).length < N
    · -- at most the last name has been cut
      refine ⟨front, hfront, ?_, fun _ => rfl, fun hle => absurd hle (by omega)⟩
      rw [List.take_of_length_le (l := canonicalText front) (by omega)]
      have hcut : ∀ n, char '/' ∉ last.take n := fun n hmem => hlast.slash (List.mem_of_mem_take hmem)
      by_cases hnil : front = []
      · subst hnil
        obtain ⟨n, rfl⟩ : ∃ n, N = n + 1 := ⟨N - 1, by omega⟩
        exact (parentPath_eq [] (hcut n)).trans (if_pos rfl)
      · rw [canonicalText_eq hnil] at hroom ⊢
        have hne : slashed front ≠ [] := by
          rw [← canonicalText_eq hnil]
          exact List.ne_nil_of_length_pos (canonicalText_length_pos front)
        rw [List.take_append, List.take_of_length_le (by omega), show N - (slashed front).length =
          (N - (slashed front).length - 1) + 1 by omega, List.take_succ_cons, parentPath_eq _ (hcut _), if_neg hne]
    · have hnil : front ≠ [] := by
        rintro rfl
        exact hroom (show 1 < N by omega)
      obtain ⟨q, hq, hpath, hsame, hless⟩ := ih hfront
      have hshort : q.length < front.length := by
        have hpos := List.length_pos_of_ne_nil hnil
        by_cases hfit : (canonicalText front.dropLast).length < N
        · rw [hsame hfit, List.length_dropLast]
          omega
        · have := hless (by omega)
          rw [List.length_dropLast] at this
          omega
      refine ⟨q, hq, ?_, fun hlt => absurd hlt hroom, fun _ => hshort⟩
      rw [← hpath, canonicalText_eq hnil] at *
      rw [List.take_append_of_le_length (by omega)]

/-- The buffer holds the text of some components, cut off.  These are the right ones, or there are too few of them. -/
def Buffered (N : ℕ) (path : List UInt8) (c : Course) : Prop :=
  ∃ q, (∀ name ∈ q, IsName name) ∧ path = (canonicalText q).take N ∧ (c.kept = true → q = c.names) ∧
    (c.kept = false → q.length < c.names.length)

/-- **One component** -/
theorem Buffered.next (h : Buffered N path c) (hN : 2 ≤ N) (hne : name ≠ []) (hs : char '/' ∉ name) (hz : (0 : UInt8) ∉ name) :
    Buffered N (applyComponent (N + 1) path name) (c.next N name) := by
  obtain ⟨q, hq, rfl, hsame, hless⟩ := h
  unfold applyComponent
  by_cases h1 : name = [char '.']
  · have hnext : c.next N name = c := by
      subst h1
      rfl
    rw [if_pos h1, hnext]
    exact ⟨q, hq, rfl, hsame, hless⟩
  · rw [if_neg h1]
    by_cases h2 : name = [char '.', char '.']
    · obtain ⟨q', hq', hpath, hsame', hless'⟩ := parentPath_take hN hq
      have hnames : (c.next N name).names = c.names.dropLast := by
        subst h2
        rfl
      have hkept : (c.next N name).kept = true ↔
          c.names.dropLast = [] ∨ c.kept = true ∧ (canonicalText c.names.dropLast).length < N := by
        unfold Course.next
        simp only [if_pos h2, Bool.or_eq_true, Bool.and_eq_true, decide_eq_true_eq]
      have hroot : (canonicalText []).length < N := hN
      rw [if_pos h2]
      refine ⟨q', hq', hpath, ?_, ?_⟩
      · rw [hkept, hnames]
        rintro (hnil | ⟨hk, hroom⟩)
        · -- the root is reached, from whatever the buffer holds
          rw [hnil]
          have hshort : q.dropLast = [] := by
            cases hk : c.kept with
            | true =>
              rw [hsame hk]
              exact hnil
            | false =>
              have hlt := hless hk
              have hlen : c.names.length - 1 = 0 := by rw [← List.length_dropLast, hnil, List.length_nil]
              apply List.eq_nil_of_length_eq_zero
              rw [List.length_dropLast]
              omega
          rw [← hshort]
          exact hsame' (by rw [hshort]; exact hroot)
        · obtain rfl := hsame hk
          exact hsame' hroom
      · intro hlost
        rw [hnames]
        have hno : ¬ (c.names.dropLast = [] ∨ c.kept = true ∧ (canonicalText c.names.dropLast).length < N) := by
          rw [← hkept, hlost]
          exact Bool.false_ne_true
        rw [not_or, not_and] at hno
        have hpos := List.length_pos_of_ne_nil hno.1
        cases hk : c.kept with
        | true =>
          obtain rfl := hsame hk
          exact hless' (Nat.le_of_not_lt (hno.2 hk))
        | false =>
          have hlt := hless hk
          have hq'len : q'.length ≤ q.dropLast.length := by
            by_cases hroom : (canonicalText q.dropLast).length < N
            · rw [hsame' hroom]
            · exact (hless' (Nat.le_of_not_lt hroom)).le
          rw [List.length_dropLast] at hq'len hpos ⊢
          omega
    · have hnext : c.next N name = ⟨c.names ++ [name], c.kept⟩ := by
        unfold Course.next follow
        rw [if_neg h1, if_neg h2, if_neg h2]
      rw [if_neg h2, addComponent_take hN hq, hnext]
      refine ⟨q ++ [name], fun n hn => ?_, rfl, fun hk => ?_, fun hk => ?_⟩
      · rcases List.mem_append.mp hn with hn | hn
        · exact hq n hn
        · rw [List.mem_singleton.mp hn]
          exact ⟨hne, hs, hz, fun hd => hd.elim h1 h2⟩
      · rw [hsame hk]
      · have := hless hk
        rw [List.length_append, List.length_append]
        exact Nat.add_lt_add_right this _

/-- **All components** -/
theorem buffered_foldl (names : List (List UInt8)) (hN : 2 ≤ N)
    (hnames : ∀ name ∈ names, name ≠ [] ∧ char '/' ∉ name ∧ (0 : UInt8) ∉ name) (h : Buffered N path c) :
    Buffered N (names.foldl (applyComponent (N + 1)) path) (names.foldl (Course.next N) c) := by
  induction names generalizing path c with
  | nil => exact h
  | cons name names ih =>
    obtain ⟨hne, hs, hz⟩ := hnames name List.mem_cons_self
    exact ih (fun n hn => hnames n (List.mem_cons_of_mem _ hn)) (h.next hN hne hs hz)

/-! ### Whole paths -/

/-- A current directory: a canonical text that has not been cut off. -/
structure IsCwd (base : List UInt8) : Prop where
  canonical : CanonicalPath base (components base)
  fits : base.length ≤ PATH_MAX - 1

theorem isCwd_root : IsCwd [char '/'] :=
  ⟨⟨fun _ hname => absurd hname List.not_mem_nil, rfl⟩, by decide⟩

theorem isCwd_canonicalText (hl : ∀ name ∈ l, IsName name) (hlen : (canonicalText l).length ≤ PATH_MAX - 1) :
    IsCwd (canonicalText l) :=
  ⟨by rw [components_canonicalText hl]; exact ⟨hl, rfl⟩, hlen⟩

theorem startList_isName (h : IsCwd base) (rel : List UInt8) : ∀ name ∈ startList (components base) rel, IsName name := by
  unfold startList
  by_cases hrel : rel.head? = some (char '/')
  · rw [if_pos hrel]
    exact fun _ hname => absurd hname List.not_mem_nil
  · rw [if_neg hrel]
    exact h.canonical.1

/-- The components of a string. -/
theorem components_isSound (hz : (0 : UInt8) ∉ rel) :
    ∀ name ∈ components rel, name ≠ [] ∧ char '/' ∉ name ∧ (0 : UInt8) ∉ name := fun _ hname =>
  ⟨(mem_components hname).1, (mem_components hname).2, fun h0 => hz (mem_of_mem_components hname h0)⟩

theorem foldl_follow_isName (names : List (List UInt8)) (hl : ∀ name ∈ l, IsName name)
    (hnames : ∀ name ∈ names, name ≠ [] ∧ char '/' ∉ name ∧ (0 : UInt8) ∉ name) :
    ∀ name ∈ names.foldl follow l, IsName name := by
  induction names generalizing l with
  | nil => exact hl
  | cons name names ih =>
    obtain ⟨hne, hs, hz⟩ := hnames name List.mem_cons_self
    exact ih (follow_isName hl hne hs hz) fun n hn => hnames n (List.mem_cons_of_mem _ hn)

theorem resolved_isName (h : IsCwd base) (hz : (0 : UInt8) ∉ rel) : ∀ name ∈ resolved base rel, IsName name :=
  foldl_follow_isName _ (startList_isName h rel) (components_isSound hz)

/-- **The buffer at the end** -/
theorem buffered_relativeToAbsolute (h : IsCwd base) (hz : (0 : UInt8) ∉ rel) :
    Buffered (PATH_MAX - 1) (relativeToAbsolute base rel PATH_MAX) (course (PATH_MAX - 1) base rel) := by
  refine buffered_foldl (components rel) (by decide) (components_isSound hz)
    ⟨startList (components base) rel, startList_isName h rel, ?_, fun _ => rfl, fun hk => ?_⟩
  · unfold startList
    by_cases hrel : rel.head? = some (char '/')
    · rw [if_pos hrel, if_pos hrel]
      rfl
    · rw [if_neg hrel, if_neg hrel, ← h.canonical.2]
  · cases hk

/-- A component adds no more than its own length and a slash. -/
theorem follow_length (l : List (List UInt8)) (name : List UInt8) :
    (canonicalText (follow l name)).length ≤ (canonicalText l).length + (name.length + 1) := by
  unfold follow
  by_cases h1 : name = [char '.']
  · rw [if_pos h1]
    exact Nat.le_add_right _ _
  · rw [if_neg h1]
    by_cases h2 : name = [char '.', char '.']
    · rw [if_pos h2]
      rcases List.eq_nil_or_concat' l with rfl | ⟨front, last, rfl⟩
      · exact Nat.le_add_right _ _
      · rw [List.dropLast_concat, canonicalText_eq (l := front ++ [last]) (by simp), slashed_concat, List.length_append,
          List.length_cons]
        by_cases hnil : front = []
        · rw [hnil]
          show 1 ≤ _
          omega
        · rw [canonicalText_eq hnil]
          omega
    · rw [if_neg h2, canonicalText_eq (l := l ++ [name]) (by simp), slashed_concat, List.length_append, List.length_cons]
      by_cases hnil : l = []
      · rw [hnil]
        show 0 + (name.length + 1) ≤ _
        omega
      · rw [canonicalText_eq hnil]

theorem foldl_follow_length (names l : List (List UInt8)) :
    (canonicalText (names.foldl follow l)).length ≤ (canonicalText l).length + roomFor names := by
  induction names generalizing l with
  | nil => exact Nat.le_refl _
  | cons name names ih =>
    have hstep := follow_length l name
    have hrest := ih (follow l name)
    rw [roomFor_cons, List.foldl_cons]
    omega

/-- **Without a limit**, the code computes the text of `resolved`. -/
theorem relativeToAbsolute_unlimited (h : IsCwd base) (hz : (0 : UInt8) ∉ rel) {max : ℕ}
    (hmax : base.length + roomFor (components rel) < max) :
    relativeToAbsolute base rel max = canonicalText (resolved base rel) := by
  have hpos := canonicalText_length_pos (components base)
  rw [← h.canonical.2] at hpos
  have hstart : (if rel.head? = some (char '/') then [char '/'] else base.take (max - 1)) =
      canonicalText (startList (components base) rel) ∧
      (canonicalText (startList (components base) rel)).length ≤ base.length := by
    unfold startList
    by_cases hrel : rel.head? = some (char '/')
    · rw [if_pos hrel, if_pos hrel]
      exact ⟨rfl, hpos⟩
    · rw [if_neg hrel, if_neg hrel, List.take_of_length_le (by omega), ← h.canonical.2]
      exact ⟨rfl, Nat.le_refl _⟩
  unfold relativeToAbsolute resolved
  rw [hstart.1]
  refine foldl_canonical (components rel) (startList_isName h rel) (components_isSound hz) fun n _ => ?_
  have hlen := foldl_follow_length ((components rel).take n) (startList (components base) rel)
  have hroom : roomFor ((components rel).take n) ≤ roomFor (components rel) := by
    rw [← List.take_append_drop n (components rel), roomFor_append, List.take_append_drop]
    exact Nat.le_add_right _ _
  have := hstart.2
  omega

/-- **A path that fits** is resolved as without a limit. -/
theorem relativeToAbsolute_fits (h : IsCwd base) (hz : (0 : UInt8) ∉ rel) (hfits : Fits base rel) :
    relativeToAbsolute base rel PATH_MAX = canonicalText (resolved base rel) := by
  obtain ⟨q, -, htext, hsame, -⟩ := buffered_relativeToAbsolute h hz
  rw [htext, hsame hfits.1, course_names, List.take_of_length_le hfits.2]

theorem isCwd_resolved (h : IsCwd base) (hz : (0 : UInt8) ∉ rel) (hfits : Fits base rel) :
    IsCwd (canonicalText (resolved base rel)) := isCwd_canonicalText (resolved_isName h hz) hfits.2

/-- **A path that does not fit** leads to other components. -/
theorem components_of_not_fits (h : IsCwd base) (hz : (0 : UInt8) ∉ rel) (hfits : ¬ Fits base rel) :
    components (relativeToAbsolute base rel PATH_MAX) ≠ resolved base rel := by
  obtain ⟨q, hq, htext, hsame, hless⟩ := buffered_relativeToAbsolute h hz
  intro heq
  have hcount : (components (relativeToAbsolute base rel PATH_MAX)).length ≤ q.length := by
    rw [htext]
    exact components_take_canonical _ hq
  cases hk : (course (PATH_MAX - 1) base rel).kept with
  | false =>
    have hlt := hless hk
    rw [course_names, ← heq] at hlt
    omega
  | true =>
    -- the last characters are missing
    have hlong : PATH_MAX - 1 < (canonicalText (resolved base rel)).length := Nat.lt_of_not_le fun hle => hfits ⟨hk, hle⟩
    have hne : resolved base rel ≠ [] := by
      intro hnil
      rw [hnil] at hlong
      exact absurd hlong (by decide)
    have habs : IsAbsolute (relativeToAbsolute base rel PATH_MAX) := by
      rw [htext]
      exact (isAbsolute_canonicalText q).take
    have hroom := roomFor_absolute habs
    rw [heq, ← length_slashed, ← canonicalText_eq hne] at hroom
    have hlen : (relativeToAbsolute base rel PATH_MAX).length ≤ PATH_MAX - 1 := by
      rw [htext]
      exact List.length_take_le _ _
    omega

/-- **Every file system is searched for the right entry**, if and only if the path fits. -/
theorem fits_iff (h : IsCwd base) (hz : (0 : UInt8) ∉ rel) :
    Fits base rel ↔ ∀ fs entry, getDirectoryEntry fs (relativeToAbsolute base rel PATH_MAX) = .ok (.ok entry) →
      Names fs base rel entry := by
  constructor
  · intro hfits fs entry hfound
    rwa [relativeToAbsolute_fits h hz hfits] at hfound
  · intro hall
    by_contra hfits
    have hother := components_of_not_fits h hz hfits
    obtain ⟨q, hq, htext, -⟩ := buffered_relativeToAbsolute h hz
    have hlen : (relativeToAbsolute base rel PATH_MAX).length < PATH_MAX := by
      rw [htext]
      exact (List.length_take_le _ _).trans_lt (by decide)
    have hzero : (0 : UInt8) ∉ relativeToAbsolute base rel PATH_MAX := by
      rw [htext]
      exact fun hmem => zero_canonicalText hq (List.mem_of_mem_take hmem)
    have hchain := chained_components hlen hzero
    have hself := (walk_chain_iff hchain (decide ((relativeToAbsolute base rel PATH_MAX).getLast? = some (char '/'))) _
      (Nat.zero_le _)).mpr (List.drop_zero).symm
    rw [← getDirectoryEntry_chain] at hself
    have hnamed := hall _ _ hself
    unfold Names at hnamed
    rw [getDirectoryEntry_chain, walk_chain_iff hchain _ _ (Nat.zero_le _), List.drop_zero,
      components_canonicalText (resolved_isName h hz)] at hnamed
    exact hother hnamed.symm

end AdelaideOS.Kernel
