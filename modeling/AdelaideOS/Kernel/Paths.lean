import AdelaideOS.Kernel.Filesystem

/-!
# Paths and their components

What `relative_to_absolute` does to the components of a path, when nothing is cut off: it goes through the components
of the relative path and drops `.`, follows `..` and appends the others.

* **`components_relativeToAbsolute`** — a path without `.` and `..` is appended to the components of the base;
* **`dotFree_relativeToAbsolute`** — no `.` and no `..` is left.
-/

namespace AdelaideOS.Kernel

open AdelaideOS.Lib.Bytes

variable {path xs ys name : List UInt8} {max : ℕ}

/-- The names `.` and `..`. -/
def IsDots (name : List UInt8) : Prop := name = [char '.'] ∨ name = [char '.', char '.']

instance (name : List UInt8) : Decidable (IsDots name) := inferInstanceAs (Decidable (_ ∨ _))

/-- No component of the path is `.` or `..`. -/
def DotFree (path : List UInt8) : Prop := ∀ name ∈ components path, ¬ IsDots name

/-- The path begins with a slash. -/
def IsAbsolute (path : List UInt8) : Prop := path.head? = some (char '/')

instance (path : List UInt8) : Decidable (IsAbsolute path) := inferInstanceAs (Decidable (_ = _))

/-! ### Strings in an image -/

/-- A string that lies in memory is read back. -/
theorem cstringLoop_eq {M : Memory} (name : List UInt8) {a fuel : ℕ} (hfuel : name.length < fuel)
    (hz : (0 : UInt8) ∉ name) (hM : ∀ i, i ≤ name.length → M (a + i) = name.getD i 0) :
    cstringLoop M fuel a = .ok name := by
  induction name generalizing a fuel with
  | nil =>
    obtain ⟨f, rfl⟩ := Nat.exists_eq_add_of_lt hfuel
    have h0 : M a = 0 := hM 0 (Nat.le_refl _)
    unfold cstringLoop
    rw [if_pos h0]
  | cons c name ih =>
    obtain ⟨f, rfl⟩ : ∃ f, fuel = f + 1 := ⟨fuel - 1, by omega⟩
    have h0 : M a = c := hM 0 (Nat.zero_le _)
    have hc : c ≠ 0 := by
      rintro rfl
      exact hz List.mem_cons_self
    have hrest : cstringLoop M f (a + 1) = .ok name := by
      refine ih (by simpa using hfuel) (fun hmem => hz (List.mem_cons_of_mem _ hmem)) ?_
      intro i hi
      have := hM (i + 1) (by simpa using hi)
      rw [Nat.add_assoc, Nat.add_comm 1 i]
      exact this
    unfold cstringLoop
    rw [h0, if_neg hc, hrest]
    rfl

/-! ### Components -/

@[simp] theorem components_nil : components [] = [] := rfl

theorem components_append_slash (xs ys : List UInt8) :
    components (xs ++ char '/' :: ys) = components xs ++ components ys := by
  unfold components
  rw [List.splitOn_append_cons_self, List.filter_append]

theorem components_slash (ys : List UInt8) : components (char '/' :: ys) = components ys :=
  components_append_slash [] ys

theorem components_name (hs : char '/' ∉ name) (hne : name ≠ []) : components name = [name] := by
  unfold components
  rw [List.splitOn_eq_singleton hs]
  simp [hne]

theorem splitOn_not_mem (path : List UInt8) : ∀ name ∈ path.splitOn (char '/'), char '/' ∉ name := by
  induction path with
  | nil => simp
  | cons c path ih =>
    intro name hname
    rw [List.splitOn_cons_eq_if_modifyHead] at hname
    split_ifs at hname with hc
    · rcases List.mem_cons.mp hname with rfl | hname
      · exact List.not_mem_nil
      · exact ih name hname
    · cases hsplit : path.splitOn (char '/') with
      | nil => exact absurd hsplit (List.splitOn_ne_nil _ _)
      | cons first others =>
        rw [hsplit, List.modifyHead_cons] at hname
        rcases List.mem_cons.mp hname with rfl | hname
        · intro hmem
          rcases List.mem_cons.mp hmem with hc' | hmem
          · exact hc (by simp [hc'])
          · exact ih first (by rw [hsplit]; exact List.mem_cons_self) hmem
        · exact ih name (by rw [hsplit]; exact List.mem_cons_of_mem _ hname)

/-- Components are not empty and hold no slash. -/
theorem mem_components (h : name ∈ components path) : name ≠ [] ∧ char '/' ∉ name := by
  unfold components at h
  rw [List.mem_filter] at h
  exact ⟨by simpa using h.2, splitOn_not_mem path name h.1⟩

/-- A path with a slash, cut at the last one. -/
theorem last_slash (h : char '/' ∈ path) : ∃ xs name, path = xs ++ char '/' :: name ∧ char '/' ∉ name := by
  induction path with
  | nil => cases h
  | cons c path ih =>
    by_cases hp : char '/' ∈ path
    · obtain ⟨xs, name, rfl, hname⟩ := ih hp
      exact ⟨c :: xs, name, rfl, hname⟩
    · rcases List.mem_cons.mp h with hc | hmem
      · exact ⟨[], path, by rw [hc]; rfl, hp⟩
      · exact absurd hmem hp

/-! ### The three steps -/

theorem dropToSlash_eq (xs : List UInt8) (hs : char '/' ∉ name) (n : ℕ) (hn : name.length ≤ n) :
    parentPath.dropToSlash n (xs ++ char '/' :: name) = xs ++ [char '/'] := by
  induction n generalizing name with
  | zero =>
    obtain rfl : name = [] := List.length_eq_zero_iff.mp (Nat.le_zero.mp hn)
    rfl
  | succ n ih =>
    rcases List.eq_nil_or_concat' name with rfl | ⟨front, last, rfl⟩
    · unfold parentPath.dropToSlash
      rw [if_neg (by simp)]
    · have hlast : last ≠ char '/' := by
        rintro rfl
        exact hs (by simp)
      have hfront : char '/' ∉ front := fun hmem => hs (by simp [hmem])
      unfold parentPath.dropToSlash
      have hgo : 1 < (xs ++ char '/' :: (front ++ [last])).length ∧
          (xs ++ char '/' :: (front ++ [last])).getLast? ≠ some (char '/') := by
        rw [← List.cons_append, ← List.append_assoc, List.getLast?_concat]
        constructor
        · simp
          omega
        · simpa using hlast
      rw [if_pos hgo]
      have hdrop : (xs ++ char '/' :: (front ++ [last])).dropLast = xs ++ char '/' :: front := by
        rw [← List.cons_append, ← List.append_assoc, List.dropLast_concat]
      rw [hdrop]
      exact ih hfront (by simpa using hn)

/-- `..` cuts off what follows the last slash. -/
theorem parentPath_eq (xs : List UInt8) (hs : char '/' ∉ name) :
    parentPath (xs ++ char '/' :: name) = if xs = [] then [char '/'] else xs := by
  unfold parentPath
  simp only
  rw [dropToSlash_eq xs hs _ (by simp; omega)]
  cases xs with
  | nil => rfl
  | cons x xs => rw [if_pos (by simp), if_neg (by simp), List.dropLast_concat]

theorem components_parentPath (xs : List UInt8) (hs : char '/' ∉ name) :
    components (parentPath (xs ++ char '/' :: name)) = components xs := by
  rw [parentPath_eq xs hs]
  split_ifs with hxs
  · subst hxs
    rfl
  · rfl

theorem IsAbsolute.mem (h : IsAbsolute path) : char '/' ∈ path := List.mem_of_mem_head? h

/-- `..` leaves an absolute path absolute. -/
theorem IsAbsolute.parentPath (h : IsAbsolute path) : IsAbsolute (parentPath path) := by
  obtain ⟨xs, name, rfl, hname⟩ := last_slash h.mem
  rw [parentPath_eq xs hname]
  cases xs with
  | nil => rfl
  | cons x xs => exact h

/-- An addition that fits. -/
theorem addComponent_eq (hfit : path.length + 1 + name.length < max) :
    addComponent max path name =
      (if path.getLast? = some (char '/') then path else path ++ [char '/']) ++ name := by
  unfold addComponent
  by_cases hlast : path.getLast? = some (char '/')
  · rw [if_neg (by simp [hlast]), if_pos hlast]
    simp only
    rw [List.take_of_length_le (by omega)]
  · rw [if_pos ⟨by omega, hlast⟩, if_neg hlast]
    simp only
    rw [List.take_of_length_le (by simp; omega)]

theorem components_addComponent (hfit : path.length + 1 + name.length < max) (hs : char '/' ∉ name)
    (hne : name ≠ []) : components (addComponent max path name) = components path ++ [name] := by
  rw [addComponent_eq hfit]
  split_ifs with hlast
  · obtain ⟨front, rfl⟩ : ∃ front, path = front ++ [char '/'] := by
      rcases List.eq_nil_or_concat' path with rfl | ⟨front, last, rfl⟩
      · cases hlast
      · simp at hlast
        exact ⟨front, by rw [hlast]⟩
    rw [List.append_assoc, List.singleton_append, components_append_slash, components_append_slash,
      components_name hs hne]
    simp
  · rw [List.append_assoc, List.singleton_append, components_append_slash, components_name hs hne]

/-- Every byte of a component is a byte of the path. -/
theorem mem_of_mem_components {c : UInt8} (hname : name ∈ components path) (hc : c ∈ name) : c ∈ path := by
  unfold components at hname
  have hsplit := (List.mem_filter.mp hname).1
  clear hname
  induction path generalizing name with
  | nil =>
    rw [List.splitOn_nil, List.mem_singleton] at hsplit
    rw [hsplit] at hc
    cases hc
  | cons x path ih =>
    rw [List.splitOn_cons_eq_if_modifyHead] at hsplit
    split_ifs at hsplit with hx
    · rcases List.mem_cons.mp hsplit with rfl | hsplit
      · cases hc
      · exact List.mem_cons_of_mem x (ih hc hsplit)
    · cases hpath : path.splitOn (char '/') with
      | nil => exact absurd hpath (List.splitOn_ne_nil _ _)
      | cons first others =>
        rw [hpath, List.modifyHead_cons] at hsplit
        rcases List.mem_cons.mp hsplit with rfl | hsplit
        · rcases List.mem_cons.mp hc with rfl | hc
          · exact List.mem_cons_self
          · exact List.mem_cons_of_mem x (ih hc (by rw [hpath]; exact List.mem_cons_self))
        · exact List.mem_cons_of_mem x (ih hc (by rw [hpath]; exact List.mem_cons_of_mem _ hsplit))

/-- There are no more components than bytes, and none is longer than the path. -/
theorem components_size (path : List UInt8) :
    (components path).length ≤ path.length + 1 ∧ ∀ name ∈ components path, name.length ≤ path.length := by
  have hsplit : (path.splitOn (char '/')).length ≤ path.length + 1 ∧
      ∀ name ∈ path.splitOn (char '/'), name.length ≤ path.length := by
    induction path with
    | nil => simp
    | cons x path ih =>
      rw [List.splitOn_cons_eq_if_modifyHead]
      split_ifs with hx
      · refine ⟨by simpa using ih.1, ?_⟩
        intro name hname
        rcases List.mem_cons.mp hname with rfl | hname
        · exact Nat.zero_le _
        · exact (ih.2 name hname).trans (by simp)
      · cases hpath : path.splitOn (char '/') with
        | nil => exact absurd hpath (List.splitOn_ne_nil _ _)
        | cons first others =>
          rw [hpath] at ih
          rw [List.modifyHead_cons]
          refine ⟨by simpa using ih.1.trans (Nat.le_succ _), ?_⟩
          intro name hname
          rcases List.mem_cons.mp hname with rfl | hname
          · simpa using ih.2 first List.mem_cons_self
          · exact (ih.2 name (List.mem_cons_of_mem _ hname)).trans (by simp)
  constructor
  · exact (List.length_filter_le _ _).trans hsplit.1
  · intro name hname
    exact hsplit.2 name (List.mem_filter.mp hname).1

/-! ### Whole paths -/

/-- The room that the components `l` take, each with a slash. -/
def roomFor (l : List (List UInt8)) : ℕ := (l.map fun name => name.length + 1).sum

theorem addComponent_length (max : ℕ) (path name : List UInt8) :
    (addComponent max path name).length ≤ path.length + 1 + name.length ∧
      (path.length ≤ max - 1 → (addComponent max path name).length ≤ max - 1) := by
  unfold addComponent
  by_cases hsep : path.length < max - 1 ∧ path.getLast? ≠ some (char '/')
  · rw [if_pos hsep]
    simp only [List.length_append, List.length_take, List.length_singleton]
    omega
  · rw [if_neg hsep]
    simp only [List.length_append, List.length_take]
    omega

theorem parentPath_length (h : IsAbsolute path) : (parentPath path).length ≤ path.length := by
  obtain ⟨xs, last, rfl, hlast⟩ := last_slash h.mem
  rw [parentPath_eq xs hlast, List.length_append, List.length_cons]
  split_ifs
  · rw [List.length_singleton]
    omega
  · omega

theorem applyComponent_length (max : ℕ) (h : IsAbsolute path) (name : List UInt8) :
    (applyComponent max path name).length ≤ path.length + 1 + name.length := by
  unfold applyComponent
  split_ifs
  · omega
  · have := parentPath_length h
    omega
  · exact (addComponent_length max path name).1

theorem IsAbsolute.append (h : IsAbsolute path) (ys : List UInt8) : IsAbsolute (path ++ ys) := by
  cases path with
  | nil => cases h
  | cons c path => exact h

theorem IsAbsolute.applyComponent (h : IsAbsolute path) (max : ℕ) (name : List UInt8) :
    IsAbsolute (applyComponent max path name) := by
  unfold Kernel.applyComponent
  split_ifs
  · exact h
  · exact h.parentPath
  · unfold addComponent
    simp only
    split_ifs
    · exact (h.append _).append _
    · exact h.append _

theorem foldl_length_room (max : ℕ) (l : List (List UInt8)) (habs : IsAbsolute path) :
    (l.foldl (applyComponent max) path).length ≤ path.length + roomFor l := by
  induction l generalizing path with
  | nil => simp [roomFor]
  | cons name l ih =>
    have hlen := applyComponent_length max habs name
    have hrest := ih (habs.applyComponent max name)
    have hroom : roomFor (name :: l) = name.length + 1 + roomFor l := by simp [roomFor]
    rw [List.foldl_cons]
    omega

/-- Where there is room for the components, a larger buffer makes no difference. -/
theorem foldl_applyComponent_max {max' : ℕ} (l : List (List UInt8)) (habs : IsAbsolute path)
    (hfit : path.length + roomFor l < max) (hle : max ≤ max') :
    l.foldl (applyComponent max') path = l.foldl (applyComponent max) path := by
  induction l generalizing path with
  | nil => rfl
  | cons name l ih =>
    have hroom : roomFor (name :: l) = name.length + 1 + roomFor l := by simp [roomFor]
    have hstep : applyComponent max' path name = applyComponent max path name := by
      unfold applyComponent addComponent
      simp only [show path.length < max' - 1 by omega, show path.length < max - 1 by omega, true_and]
      by_cases hlast : path.getLast? ≠ some (char '/')
      · rw [if_pos hlast, List.take_of_length_le (by simp; omega), List.take_of_length_le (by simp; omega)]
      · rw [if_neg hlast, List.take_of_length_le (by omega), List.take_of_length_le (by omega)]
    have hlen := applyComponent_length max habs name
    rw [List.foldl_cons, List.foldl_cons, hstep]
    exact ih (habs.applyComponent max name) (by omega)

/-- Components without `.` and `..` are appended one after the other. -/
theorem components_foldl (l : List (List UInt8)) (hl : ∀ name ∈ l, name ≠ [] ∧ char '/' ∉ name)
    (hdots : ∀ name ∈ l, ¬ IsDots name) (hfit : path.length + roomFor l < max) :
    components (l.foldl (applyComponent max) path) = components path ++ l := by
  induction l generalizing path with
  | nil => simp
  | cons name l ih =>
    obtain ⟨hne, hs⟩ := hl name List.mem_cons_self
    have hd := hdots name List.mem_cons_self
    have hroom : roomFor (name :: l) = name.length + 1 + roomFor l := by simp [roomFor]
    have hstep : applyComponent max path name = addComponent max path name := by
      unfold applyComponent
      rw [if_neg fun h => hd (Or.inl h), if_neg fun h => hd (Or.inr h)]
    have hlen := (addComponent_length max path name).1
    rw [List.foldl_cons, hstep, ih (fun x hx => hl x (List.mem_cons_of_mem _ hx))
      (fun x hx => hdots x (List.mem_cons_of_mem _ hx)) (by omega),
      components_addComponent (by omega) hs hne, List.append_assoc, List.singleton_append]

/-- No `.` and no `..` comes in. -/
theorem dotFree_foldl (l : List (List UInt8)) (hl : ∀ name ∈ l, name ≠ [] ∧ char '/' ∉ name)
    (habs : IsAbsolute path) (hfree : DotFree path) (hfit : path.length + roomFor l < max) :
    DotFree (l.foldl (applyComponent max) path) := by
  induction l generalizing path with
  | nil => exact hfree
  | cons name l ih =>
    obtain ⟨hne, hs⟩ := hl name List.mem_cons_self
    have hroom : roomFor (name :: l) = name.length + 1 + roomFor l := by simp [roomFor]
    have hlen := applyComponent_length max habs name
    rw [List.foldl_cons]
    refine ih (fun x hx => hl x (List.mem_cons_of_mem _ hx)) (habs.applyComponent max name) ?_ (by omega)
    unfold applyComponent
    split_ifs with h1 h2
    · exact hfree
    · obtain ⟨xs, last, rfl, hlast⟩ := last_slash habs.mem
      intro x hx
      rw [components_parentPath xs hlast] at hx
      refine hfree x ?_
      rw [components_append_slash]
      exact List.mem_append_left _ hx
    · intro x hx
      rw [components_addComponent (by omega) hs hne] at hx
      rcases List.mem_append.mp hx with hx | hx
      · exact hfree x hx
      · rw [List.mem_singleton.mp hx]
        rintro (h | h)
        · exact h1 h
        · exact h2 h

/-- The path is cut to `max - 1` bytes at each step. -/
theorem foldl_length_le (l : List (List UInt8)) (habs : IsAbsolute path) (hlen : path.length ≤ max - 1) :
    (l.foldl (applyComponent max) path).length ≤ max - 1 := by
  induction l generalizing path with
  | nil => exact hlen
  | cons name l ih =>
    rw [List.foldl_cons]
    refine ih (habs.applyComponent max name) ?_
    unfold applyComponent
    split_ifs
    · exact hlen
    · exact (parentPath_length habs).trans hlen
    · exact (addComponent_length max path name).2 hlen

/-- No byte comes in but slashes and those of the components. -/
theorem not_mem_foldl {c : UInt8} (l : List (List UInt8)) (hc : c ≠ char '/') (hl : ∀ name ∈ l, c ∉ name)
    (habs : IsAbsolute path) (hpath : c ∉ path) : c ∉ l.foldl (applyComponent max) path := by
  induction l generalizing path with
  | nil => exact hpath
  | cons name l ih =>
    have hname := hl name List.mem_cons_self
    rw [List.foldl_cons]
    refine ih (fun x hx => hl x (List.mem_cons_of_mem _ hx)) (habs.applyComponent max name) ?_
    unfold applyComponent
    split_ifs
    · exact hpath
    · obtain ⟨xs, last, rfl, hlast⟩ := last_slash habs.mem
      rw [parentPath_eq xs hlast]
      split_ifs
      · simpa using hc
      · exact fun hmem => hpath (List.mem_append_left _ hmem)
    · unfold addComponent
      simp only
      intro hmem
      rcases List.mem_append.mp hmem with hmem | hmem
      · split_ifs at hmem
        · rcases List.mem_append.mp hmem with hmem | hmem
          · exact hpath hmem
          · exact hc (List.mem_singleton.mp hmem)
        · exact hpath hmem
      · exact hname (List.mem_of_mem_take hmem)

/-! ### `relative_to_absolute` -/

section Relative

variable {base rel : List UInt8}

/-- A larger buffer makes no difference. -/
def Untruncated (base rel : List UInt8) : Prop :=
  ∀ max, PATH_MAX ≤ max → relativeToAbsolute base rel max = relativeToAbsolute base rel PATH_MAX

/-- Where `relative_to_absolute` starts. -/
def startPath (base rel : List UInt8) : List UInt8 := if IsAbsolute rel then [char '/'] else base

theorem Untruncated.eq (h : Untruncated base rel) :
    ∃ max, (startPath base rel).length + roomFor (components rel) < max ∧
      relativeToAbsolute base rel PATH_MAX = (components rel).foldl (applyComponent max) (startPath base rel) := by
  refine ⟨PATH_MAX + base.length + roomFor (components rel) + 2, ?_, ?_⟩
  · unfold startPath
    split_ifs
    · simp
      omega
    · omega
  · rw [← h (PATH_MAX + base.length + roomFor (components rel) + 2) (by omega)]
    unfold relativeToAbsolute startPath
    by_cases hrel : IsAbsolute rel
    · have hhead : rel.head? = some (char '/') := hrel
      rw [if_pos hhead, if_pos hrel]
    · have hhead : ¬ rel.head? = some (char '/') := hrel
      rw [if_neg hhead, if_neg hrel, List.take_of_length_le (by omega)]

theorem IsAbsolute.startPath (h : IsAbsolute base) (rel : List UInt8) : IsAbsolute (startPath base rel) := by
  unfold Kernel.startPath
  split_ifs
  · rfl
  · exact h

/-- **A path without `.` and `..`** is appended to the components of the base. -/
theorem components_relativeToAbsolute (h : Untruncated base rel) (hrel : DotFree rel) :
    components (relativeToAbsolute base rel PATH_MAX) = components (startPath base rel) ++ components rel := by
  obtain ⟨max, hfit, heq⟩ := h.eq
  rw [heq]
  exact components_foldl _ (fun _ hx => mem_components hx) hrel hfit

theorem dotFree_slash : DotFree [char '/'] := by
  intro name hname
  rw [components_slash] at hname
  cases hname

/-- **No `.` and no `..`** is left of any path. -/
theorem dotFree_relativeToAbsolute (h : Untruncated base rel) (habs : IsAbsolute base) (hfree : DotFree base) :
    DotFree (relativeToAbsolute base rel PATH_MAX) := by
  obtain ⟨max, hfit, heq⟩ := h.eq
  rw [heq]
  refine dotFree_foldl _ (fun _ hx => mem_components hx) (habs.startPath rel) ?_ hfit
  unfold startPath
  split_ifs
  · exact dotFree_slash
  · exact hfree

/-- The result does not end in a slash, if there are any components. -/
theorem getLast_relativeToAbsolute (h : Untruncated base rel) (habs : IsAbsolute base) (hrel : DotFree rel)
    (hne : components rel ≠ []) :
    (relativeToAbsolute base rel PATH_MAX).getLast? ≠ some (char '/') := by
  obtain ⟨max, hfit, heq⟩ := h.eq
  rw [heq]
  obtain ⟨front, name, hl⟩ : ∃ front name, components rel = front ++ [name] := by
    rcases List.eq_nil_or_concat' (components rel) with hnil | ⟨front, name, hl⟩
    · exact absurd hnil hne
    · exact ⟨front, name, hl⟩
  have hmem : name ∈ components rel := by simp [hl]
  obtain ⟨hname, hs⟩ := mem_components hmem
  have hd := hrel name hmem
  have hlen := foldl_length_room max front (habs.startPath rel)
  have hroom : roomFor (front ++ [name]) = roomFor front + (name.length + 1) := by simp [roomFor]
  rw [hl] at hfit ⊢
  rw [List.foldl_append, List.foldl_cons, List.foldl_nil]
  unfold applyComponent at hlen ⊢
  rw [if_neg fun h => hd (Or.inl h), if_neg fun h => hd (Or.inr h), addComponent_eq (by omega),
    List.getLast?_append_of_ne_nil _ hname]
  intro hlast
  exact hs (List.mem_of_mem_getLast? hlast)

/-- The result fits its buffer. -/
theorem length_relativeToAbsolute (habs : IsAbsolute base) :
    (relativeToAbsolute base rel PATH_MAX).length < PATH_MAX := by
  have hle : (relativeToAbsolute base rel PATH_MAX).length ≤ PATH_MAX - 1 := by
    unfold relativeToAbsolute
    refine foldl_length_le _ ?_ ?_
    · split_ifs
      · rfl
      · cases base with
        | nil => cases habs
        | cons c base => exact habs
    · split_ifs
      · decide
      · simp
  exact Nat.lt_of_le_of_lt hle (by decide)

theorem not_mem_relativeToAbsolute {c : UInt8} (h : Untruncated base rel) (hc : c ≠ char '/')
    (habs : IsAbsolute base) (hbase : c ∉ base) (hrel : c ∉ rel) : c ∉ relativeToAbsolute base rel PATH_MAX := by
  obtain ⟨max, hfit, heq⟩ := h.eq
  rw [heq]
  refine not_mem_foldl _ hc (fun name hname hmem => hrel (mem_of_mem_components hname hmem)) (habs.startPath rel) ?_
  unfold startPath
  split_ifs
  · simpa using hc
  · exact hbase

end Relative

end AdelaideOS.Kernel
