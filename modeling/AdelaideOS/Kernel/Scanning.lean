import AdelaideOS.Kernel.Paths

/-!
# The scan of `get_directory_entry`

`getDirectoryEntry` of the model walks along the components of a path.  The source has one loop over the characters
of the path, which finds a component at each slash and at the end, and compares names with `strlen` and the kernel's
own `strncmp`.  `scanDirectoryEntry` is that loop.

* **`strncmp_eq_zero`** — what `strncmp` compares equal;
* **`scanDirectoryEntry_eq`** — the loop computes the walk, for every image and every path.
-/

namespace AdelaideOS.Kernel

open AdelaideOS.Lib.Bytes

/-! ### Comparing names -/

/-- A `char` as a number. -/
def charValue (c : UInt8) : ℤ := if c.toNat < 128 then c.toNat else (c.toNat : ℤ) - 256

/-- The loop of `strncmp`, with `k` characters to go from `pos` on. -/
def strncmpLoop (s1 s2 : ℕ → UInt8) : ℕ → ℕ → ℤ
  | 0, _ => 0
  | k + 1, pos =>
    if s1 pos ≠ 0 ∧ s2 pos ≠ 0 then
      if s1 pos ≠ s2 pos then charValue (s1 pos) - charValue (s2 pos)
      else strncmpLoop s1 s2 k (pos + 1)
    else if s2 pos ≠ 0 then -1
    else 1

def strncmp (s1 s2 : ℕ → UInt8) (n : ℕ) : ℤ := strncmpLoop s1 s2 n 0

/-- The loop of `lookup` from entry `i` on, for the `len` characters of `name`. -/
def lookupFrom (fs : Memory) (dir : ℕ) (name : ℕ → UInt8) (len : ℕ) : ℕ → ℕ → Except Fault (Option ℕ)
  | 0, _ => .ok none
  | n + 1, i => do
    let s ← cstring fs (entryName (dirEntryAt dir i))
    if s.length = len ∧ strncmp (fun j => fs (entryName (dirEntryAt dir i) + j)) name len = 0
    then return some (dirEntryAt dir i)
    else lookupFrom fs dir name len n (i + 1)

/-- The characters of a path, with the NUL behind it. -/
def chars (path : List UInt8) (pos : ℕ) : UInt8 := path.getD pos 0

/-- The loop of `get_directory_entry`, with `k` rounds to go. -/
def scanLoop (fs : Memory) (path : ℕ → UInt8) (len : ℕ) :
    ℕ → ℕ → ℕ → ℕ → ℕ → Except Fault (Except ℤ ℕ)
  | 0, _, _, entry, _ => .ok (.ok entry)
  | k + 1, pos, start, entry, dir =>
    if path pos = char '/' ∨ pos = len then
      if start < pos then do
        match ← lookupFrom fs dir (fun j => path (start + j)) (pos - start) (dirCount fs dir) 0 with
        | none => return .error (-ENOENT)
        | some e =>
          if entryType fs e = TYPE_DIR then scanLoop fs path len k (pos + 1) (pos + 1) e (entryLocation fs e)
          else if pos < len then return .error (-ENOENT)
          else scanLoop fs path len k (pos + 1) (pos + 1) e dir
      else scanLoop fs path len k (pos + 1) (pos + 1) entry dir
    else scanLoop fs path len k (pos + 1) start entry dir

/-- `get_directory_entry`. -/
def scanDirectoryEntry (fs : Memory) (path : List UInt8) : Except Fault (Except ℤ ℕ) :=
  scanLoop fs (chars path) path.length (path.length + 1) 0 0 0 (entryLocation fs 0)

variable {fs : Memory} {s name path : List UInt8} {s1 s2 : ℕ → UInt8} {a dir n k pos : ℕ}

theorem charValue_injective : Function.Injective charValue := by
  intro a b h
  have ha := a.toNat_lt
  have hb := b.toNat_lt
  apply UInt8.toNat_inj.mp
  unfold charValue at h
  split_ifs at h <;> omega

theorem strncmpLoop_eq_zero (hs : ∀ j < k, s1 (pos + j) ≠ 0 ∧ s2 (pos + j) ≠ 0) :
    strncmpLoop s1 s2 k pos = 0 ↔ ∀ j < k, s1 (pos + j) = s2 (pos + j) := by
  induction k generalizing pos with
  | zero => simp [strncmpLoop]
  | succ k ih =>
    have hrest : ∀ j < k, s1 (pos + 1 + j) ≠ 0 ∧ s2 (pos + 1 + j) ≠ 0 := by
      intro j hj
      rw [Nat.add_assoc, Nat.add_comm 1 j]
      exact hs (j + 1) (by omega)
    have hfirst : s1 pos ≠ 0 ∧ s2 pos ≠ 0 := hs 0 (by omega)
    rw [strncmpLoop, if_pos hfirst]
    by_cases heq : s1 pos = s2 pos
    · rw [if_neg (not_not_intro heq), ih hrest]
      constructor
      · intro h j hj
        cases j with
        | zero => exact heq
        | succ j =>
          rw [← Nat.add_assoc, Nat.add_right_comm]
          exact h j (by omega)
      · intro h j hj
        rw [Nat.add_assoc, Nat.add_comm 1 j]
        exact h (j + 1) (by omega)
    · rw [if_pos heq]
      constructor
      · intro h
        exact absurd (charValue_injective (by omega)) heq
      · intro h
        exact absurd (h 0 (by omega)) heq

/-- **Comparison.**  On characters other than NUL, `strncmp` answers 0 exactly when they are the same. -/
theorem strncmp_eq_zero (hs : ∀ j < n, s1 j ≠ 0 ∧ s2 j ≠ 0) :
    strncmp s1 s2 n = 0 ↔ ∀ j < n, s1 j = s2 j := by
  have hs' : ∀ j < n, s1 (0 + j) ≠ 0 ∧ s2 (0 + j) ≠ 0 := by simpa using hs
  simpa [strncmp] using strncmpLoop_eq_zero hs'

/-- The characters of a string in memory. -/
theorem cstringLoop_chars {fuel : ℕ} (h : cstringLoop fs fuel a = .ok s) :
    ∀ j < s.length, s[j]? = some (fs (a + j)) ∧ fs (a + j) ≠ 0 := by
  induction fuel generalizing a s with
  | zero => cases h
  | succ fuel ih =>
    unfold cstringLoop at h
    split at h
    · obtain rfl := Except.ok.inj h
      intro j hj
      cases hj
    · rename_i hne
      obtain ⟨rest, hrest, h⟩ := bind_eq_ok.mp h
      obtain rfl := Except.ok.inj h
      intro j hj
      cases j with
      | zero => exact ⟨rfl, hne⟩
      | succ j =>
        have := ih hrest j (by simpa using hj)
        rw [Nat.add_assoc, Nat.add_comm 1 j] at this
        exact this

/-- Equal lengths and a `strncmp` of 0 mean equal names. -/
theorem same_name (h : cstring fs a = .ok s) (hz : (0 : UInt8) ∉ name)
    (hname : ∀ j < name.length, name[j]? = some (s2 j)) :
    s.length = name.length ∧ strncmp (fun j => fs (a + j)) s2 name.length = 0 ↔ s = name := by
  have hchars := cstringLoop_chars h
  have hnonzero : ∀ j < name.length, s2 j ≠ 0 := by
    intro j hj hj0
    have hmem := List.mem_of_getElem? (hname j hj)
    rw [hj0] at hmem
    exact hz hmem
  constructor
  · rintro ⟨hlen, hcmp⟩
    rw [strncmp_eq_zero fun j hj => ⟨(hchars j (by omega)).2, hnonzero j hj⟩] at hcmp
    apply List.ext_getElem?
    intro j
    by_cases hj : j < name.length
    · rw [(hchars j (by omega)).1, hcmp j hj, hname j hj]
    · rw [List.getElem?_eq_none (by omega), List.getElem?_eq_none (by omega)]
  · rintro rfl
    refine ⟨rfl, (strncmp_eq_zero fun j hj => ⟨(hchars j hj).2, hnonzero j hj⟩).mpr fun j hj => ?_⟩
    exact Option.some.inj ((hchars j hj).1.symm.trans (hname j hj))

theorem lookupFrom_eq (hz : (0 : UInt8) ∉ name) (hname : ∀ j < name.length, name[j]? = some (s2 j)) (n i : ℕ) :
    lookupFrom fs dir s2 name.length n i = lookupLoop fs dir name n i := by
  induction n generalizing i with
  | zero => rfl
  | succ n ih =>
    unfold lookupFrom lookupLoop
    cases hs : cstring fs (entryName (dirEntryAt dir i)) with
    | error e => rfl
    | ok s =>
      rw [ok_bind, ok_bind]
      by_cases heq : s = name
      · rw [if_pos ((same_name hs hz hname).mpr heq), if_pos heq]
      · rw [if_neg fun h => heq ((same_name hs hz hname).mp h), if_neg heq, ih]

/-! ### The loop -/

/-- What has no components is empty or ends in a slash. -/
theorem last_of_components_nil (h : components path = []) : path = [] ∨ path.getLast? = some (char '/') := by
  by_cases hs : char '/' ∈ path
  · right
    obtain ⟨xs, name, rfl, hname⟩ := last_slash hs
    rw [components_append_slash, List.append_eq_nil_iff] at h
    have hnil : name = [] := by
      by_contra hne
      rw [components_name hname hne] at h
      exact absurd h.2 (List.cons_ne_nil _ _)
    rw [hnil, List.getLast?_concat]
  · left
    by_contra hne
    rw [components_name hs hne] at h
    exact absurd h (List.cons_ne_nil _ _)

/-- Behind a component that is followed by a slash there are more components, or the path ends in a slash. -/
theorem goes_on (pre suf : List UInt8) :
    components suf ≠ [] ∨ (pre ++ char '/' :: suf).getLast? = some (char '/') := by
  by_cases hnil : components suf = []
  · right
    rcases last_of_components_nil hnil with rfl | hlast
    · exact List.getLast?_concat
    · have hne : suf ≠ [] := by
        rintro rfl
        cases hlast
      rw [List.getLast?_append_of_ne_nil _ (List.cons_ne_nil _ _), List.getLast?_cons_of_ne_nil hne, hlast]
  · exact Or.inl hnil

theorem chars_middle (pre cur suf : List UInt8) :
    ∀ j < cur.length, cur[j]? = some (chars (pre ++ cur ++ suf) (pre.length + j)) := by
  intro j hj
  unfold chars
  rw [List.getD_eq_getElem?_getD, List.append_assoc, List.getElem?_append_right (Nat.le_add_right _ _),
    Nat.add_sub_cancel_left, List.getElem?_append_left hj, List.getElem?_eq_getElem hj]
  rfl

theorem chars_after (pre cur : List UInt8) (c : UInt8) (suf : List UInt8) :
    chars (pre ++ cur ++ c :: suf) (pre.length + cur.length) = c := by
  unfold chars
  rw [List.getD_eq_getElem?_getD, ← List.length_append, List.getElem?_append_right (Nat.le_refl _), Nat.sub_self]
  rfl

/-- The component between two positions is looked up. -/
theorem lookup_component (pre cur suf : List UInt8) (hpath : path = pre ++ cur ++ suf) (hz : (0 : UInt8) ∉ path)
    (dir : ℕ) :
    lookupFrom fs dir (fun j => chars path (pre.length + j)) (pre.length + cur.length - pre.length)
      (dirCount fs dir) 0 = lookup fs dir cur := by
  have hzc : (0 : UInt8) ∉ cur := fun hmem => hz (by simp [hpath, hmem])
  rw [Nat.add_sub_cancel_left]
  refine lookupFrom_eq hzc ?_ _ _
  rw [hpath]
  exact chars_middle pre cur suf

/-- **The loop**, with `pre` behind it, in the middle of the component that begins with `cur`, and with `suf` to
come. -/
theorem scanLoop_eq (suf pre cur : List UInt8) (hpath : path = pre ++ cur ++ suf) (hz : (0 : UInt8) ∉ path)
    (hcur : char '/' ∉ cur) (entry dir : ℕ) :
    scanLoop fs (chars path) path.length (suf.length + 1) (pre.length + cur.length) pre.length entry dir =
      walk fs (path.getLast? = some (char '/')) (components (cur ++ suf)) entry dir := by
  have hlen : path.length = pre.length + cur.length + suf.length := by
    rw [hpath, List.length_append, List.length_append]
  induction suf generalizing pre cur entry dir with
  | nil =>
    have hend : pre.length + cur.length = path.length := by
      rw [hlen]
      rfl
    unfold scanLoop
    rw [if_pos (Or.inr hend), List.append_nil]
    by_cases hnil : cur = []
    · rw [hnil, List.length_nil, Nat.add_zero, if_neg (Nat.lt_irrefl _)]
      rfl
    · have hpos := List.length_pos_of_ne_nil hnil
      have hlast : ¬ path.getLast? = some (char '/') := by
        rw [hpath, List.append_nil, List.getLast?_append_of_ne_nil _ hnil]
        intro h
        exact hcur (List.mem_of_getLast? h)
      rw [if_pos (by omega), lookup_component pre cur [] hpath hz, components_name hcur hnil]
      unfold walk
      cases hl : lookup fs dir cur with
      | error e => rfl
      | ok found =>
        cases found with
        | none => rfl
        | some e =>
          rw [ok_bind, ok_bind]
          by_cases htype : entryType fs e = TYPE_DIR
          · simp only [if_pos htype]
            rfl
          · have hstop : ¬ (([] : List (List UInt8)) ≠ [] ∨ decide (path.getLast? = some (char '/')) = true) := by
              simp [hlast]
            simp only [if_neg htype, if_neg hstop, if_neg (show ¬ pre.length + cur.length < path.length by omega)]
            rfl
  | cons c suf ih =>
    rw [List.length_cons] at hlen
    have hchar : chars path (pre.length + cur.length) = c := by
      rw [hpath]
      exact chars_after pre cur c suf
    -- the rest of the path behind this character
    have hnext : ∀ entry dir, c = char '/' →
        scanLoop fs (chars path) path.length (suf.length + 1) (pre.length + cur.length + 1)
          (pre.length + cur.length + 1) entry dir =
        walk fs (path.getLast? = some (char '/')) (components suf) entry dir := by
      intro entry dir hc
      have h := ih (pre ++ cur ++ [c]) [] (by simp [hpath]) (by simp) entry dir (by simp [hlen]; omega)
      simpa [Nat.add_assoc] using h
    unfold scanLoop
    by_cases hc : c = char '/'
    · rw [hchar, if_pos (Or.inl hc), hc, components_append_slash]
      by_cases hnil : cur = []
      · rw [hnil, components_nil, List.nil_append, List.length_nil, Nat.add_zero, if_neg (Nat.lt_irrefl _)]
        have h := hnext entry dir hc
        rwa [hnil, List.length_nil, Nat.add_zero] at h
      · have hpos := List.length_pos_of_ne_nil hnil
        rw [if_pos (by omega), lookup_component pre cur (c :: suf) hpath hz, components_name hcur hnil,
          List.singleton_append]
        unfold walk
        cases hl : lookup fs dir cur with
        | error e => rfl
        | ok found =>
          cases found with
          | none => rfl
          | some e =>
            rw [ok_bind, ok_bind]
            by_cases htype : entryType fs e = TYPE_DIR
            · simp only [if_pos htype]
              exact hnext e (entryLocation fs e) hc
            · have hmore : components suf ≠ [] ∨ decide (path.getLast? = some (char '/')) = true := by
                rw [decide_eq_true_iff, hpath, hc]
                exact goes_on (pre ++ cur) suf
              simp only [if_neg htype, if_pos hmore, if_pos (show pre.length + cur.length < path.length by omega)]
    · have hskip : ¬ (chars path (pre.length + cur.length) = char '/' ∨ pre.length + cur.length = path.length) := by
        rw [hchar]
        rintro (h | h)
        · exact hc h
        · omega
      have hcur' : char '/' ∉ cur ++ [c] := by
        intro hmem
        rcases List.mem_append.mp hmem with hmem | hmem
        · exact hcur hmem
        · exact hc (List.mem_singleton.mp hmem).symm
      have h := ih pre (cur ++ [c]) (by simp [hpath]) hcur' entry dir (by simp [hlen]; omega)
      rw [List.length_append, List.append_assoc, ← Nat.add_assoc] at h
      rw [if_neg hskip]
      exact h

/-- **The scan of a path** computes the walk along its components. -/
theorem scanDirectoryEntry_eq (fs : Memory) (hz : (0 : UInt8) ∉ path) :
    scanDirectoryEntry fs path = getDirectoryEntry fs path :=
  scanLoop_eq path [] [] rfl hz (by simp) 0 (entryLocation fs 0)

end AdelaideOS.Kernel
