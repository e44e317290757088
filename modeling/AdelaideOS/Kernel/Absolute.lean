import AdelaideOS.Kernel.Formatting

/-!
# `relative_to_absolute` in its buffer

`relativeToAbsolute` of the model computes a list of characters.  The source edits the buffer `abs` of `max` bytes in
place, with the number `abs_len` of its characters.  `relativeToAbsoluteAt` is that function: a load or a store outside
the buffer is a fault.

* **`relativeToAbsoluteAt_ok`** — there are no faults, and the buffer ends up with the text of the model;
* **`relativeToAbsolute_canonical`** — from a canonical path, and as long as everything fits, this is the canonical text
  of a list of components.
-/

namespace AdelaideOS.Kernel

open AdelaideOS.Lib.Bytes

/-! ### The code -/

/-- A store to the buffer. -/
def storeAbs (max : ℕ) (M : Memory) (i : ℕ) (c : UInt8) : Except Fault Memory :=
  if i < max then .ok (Function.update M i c) else .error .wildPointer

def addchar (max pos : ℕ) (c : UInt8) (M : Memory) : Except Fault Memory :=
  if pos + 1 < max then storeAbs max M pos c else .ok M

/-- The characters of a text, from `pos` on. -/
def addChars (max : ℕ) : List UInt8 → ℕ → Memory → Except Fault Memory
  | [], _, M => .ok M
  | c :: cs, pos, M => do
    let M ← addchar max pos c M
    addChars max cs (pos + 1) M

/-- The end of `vsnprintf`, with `pos` characters printed. -/
def endText (max : ℕ) (pos : ℕ) (M : Memory) : Except Fault Memory :=
  if 0 < max then if pos + 1 < max then storeAbs max M pos 0 else storeAbs max M (max - 1) 0 else .ok M

/-- `strlen(abs)`, with `n` bytes of the buffer to go. -/
def strlenAbs (M : Memory) : ℕ → ℕ → Except Fault ℕ
  | 0, _ => .error .wildPointer
  | n + 1, i => if M i = 0 then .ok i else strlenAbs M n (i + 1)

/-- The buffer, and `abs_len`. -/
structure PathBuffer where
  bytes : Memory
  len : ℕ

/-- `abs[abs_len-1]`. -/
def lastChar (max : ℕ) (b : PathBuffer) : Except Fault UInt8 :=
  if 0 < b.len ∧ b.len ≤ max then .ok (b.bytes (b.len - 1)) else .error .wildPointer

/-- The loop that removes the last name; the first argument is `abs_len`. -/
def dropName (max : ℕ) : ℕ → Memory → Except Fault PathBuffer
  | 0, M => .ok ⟨M, 0⟩
  | n + 1, M =>
    if 1 < n + 1 then do
      let c ← lastChar max ⟨M, n + 1⟩
      if c ≠ char '/' then do
        let M ← storeAbs max M n 0
        dropName max n M
      else return ⟨M, n + 1⟩
    else .ok ⟨M, n + 1⟩

/-- The component `..`. -/
def dropDirectory (max : ℕ) (b : PathBuffer) : Except Fault PathBuffer := do
  let b ← dropName max b.len b.bytes
  if 1 < b.len then do
    let M ← storeAbs max b.bytes (b.len - 1) 0
    return ⟨M, b.len - 1⟩
  else return b

/-- The loop that copies a name, with `k` characters to go from `rel` at `rpos` on. -/
def copyName (max : ℕ) (rel : ℕ → UInt8) : ℕ → ℕ → PathBuffer → Except Fault PathBuffer
  | 0, _, b => .ok b
  | k + 1, rpos, b =>
    if b.len < max - 1 then do
      let M ← storeAbs max b.bytes b.len (rel rpos)
      copyName max rel k (rpos + 1) ⟨M, b.len + 1⟩
    else .ok b

/-- A slash behind the path, if it is not the root. -/
def addSlash (max : ℕ) (b : PathBuffer) : Except Fault PathBuffer :=
  if b.len < max - 1 then do
    let c ← lastChar max b
    if c ≠ char '/' then do
      let M ← storeAbs max b.bytes b.len (char '/')
      return ⟨M, b.len + 1⟩
    else return b
  else .ok b

/-- A component that is a name, the characters `start` to `pos` of `rel`. -/
def addName (max : ℕ) (rel : ℕ → UInt8) (start pos : ℕ) (b : PathBuffer) : Except Fault PathBuffer := do
  let b ← addSlash max b
  let b ← copyName max rel (pos - start) start b
  let M ← storeAbs max b.bytes b.len 0
  return ⟨M, b.len⟩

/-- One component of `rel`. -/
def applyAt (max : ℕ) (rel : ℕ → UInt8) (start pos : ℕ) (b : PathBuffer) : Except Fault PathBuffer :=
  if pos - start = 1 ∧ strncmp (fun j => rel (start + j)) (chars [char '.']) (pos - start) = 0 then .ok b
  else if pos - start = 2 ∧ strncmp (fun j => rel (start + j)) (chars [char '.', char '.']) (pos - start) = 0 then
    dropDirectory max b
  else addName max rel start pos b

/-- The loop over the characters of `rel`, with `k` rounds to go. -/
def editLoop (max : ℕ) (rel : ℕ → UInt8) (len : ℕ) : ℕ → ℕ → ℕ → PathBuffer → Except Fault PathBuffer
  | 0, _, _, b => .ok b
  | k + 1, pos, start, b =>
    if rel pos = char '/' ∨ pos = len then
      if start < pos then do
        let b ← applyAt max rel start pos b
        editLoop max rel len k (pos + 1) (pos + 1) b
      else editLoop max rel len k (pos + 1) (pos + 1) b
    else editLoop max rel len k (pos + 1) start b

/-- What `abs` begins with.  The field of the format `%s` is printed twice over the same characters. -/
def startAt (max : ℕ) (M : Memory) (base rel : List UInt8) : Except Fault Memory :=
  if chars rel 0 = char '/' then do
    let M ← addChars max [char '/'] 0 M
    endText max 1 M
  else do
    let M ← addChars max base 0 M
    let M ← addChars max base 0 M
    endText max base.length M

/-- `relative_to_absolute`. -/
def relativeToAbsoluteAt (max : ℕ) (M : Memory) (base rel : List UInt8) : Except Fault Memory := do
  let M ← startAt max M base rel
  let len ← strlenAbs M max 0
  let b ← editLoop max (chars rel) rel.length (rel.length + 1) 0 0 ⟨M, len⟩
  return b.bytes

variable {max : ℕ} {M M' : Memory} {b : PathBuffer} {path name base rel s : List UInt8} {n pos : ℕ}

/-! ### What the buffer holds -/

/-- The buffer holds the characters of `path`, and has not been left: behind it the memory is as it was in `M`. -/
structure InAbs (max : ℕ) (M : Memory) (b : PathBuffer) (path : List UInt8) : Prop where
  len : b.len = path.length
  fits : path.length < max
  text : ∀ i < path.length, b.bytes i = chars path i
  outside : ∀ i, max ≤ i → b.bytes i = M i

/-- It also holds the NUL. -/
structure EndsAbs (max : ℕ) (M : Memory) (b : PathBuffer) (path : List UInt8) : Prop extends InAbs max M b path where
  nul : b.bytes path.length = 0

theorem storeAbs_ok (M : Memory) (c : UInt8) {i : ℕ} (hi : i < max) :
    storeAbs max M i c = .ok (Function.update M i c) := if_pos hi

theorem chars_concat (path : List UInt8) (c : UInt8) (i : ℕ) (hi : i < path.length + 1) :
    chars (path ++ [c]) i = if i = path.length then c else chars path i := by
  unfold chars
  by_cases heq : i = path.length
  · rw [if_pos heq, heq, List.getD_eq_getElem?_getD, List.getElem?_concat_length]
    rfl
  · rw [if_neg heq, List.getD_eq_getElem?_getD, List.getD_eq_getElem?_getD, List.getElem?_append_left (by omega)]

theorem chars_dropLast (path : List UInt8) (i : ℕ) (hi : i < path.length - 1) : chars path.dropLast i = chars path i := by
  unfold chars
  rw [List.getD_eq_getElem?_getD, List.getD_eq_getElem?_getD, List.getElem?_dropLast, if_pos hi]

/-- One more character. -/
theorem InAbs.push (h : InAbs max M b path) (hlen : path.length < max - 1) (c : UInt8) :
    ∃ M', storeAbs max b.bytes b.len c = .ok M' ∧ InAbs max M ⟨M', b.len + 1⟩ (path ++ [c]) := by
  have hfits := h.fits
  refine ⟨_, storeAbs_ok _ c (by rw [h.len]; exact h.fits), ?_, ?_, fun i hi => ?_, fun i hi => ?_⟩
  · rw [List.length_append, List.length_singleton, h.len]
  · rw [List.length_append, List.length_singleton]
    omega
  · rw [List.length_append, List.length_singleton] at hi
    rw [chars_concat path c i hi, h.len]
    by_cases heq : i = path.length
    · rw [if_pos heq, heq]
      exact Function.update_self _ _ _
    · rw [if_neg heq]
      exact (Function.update_of_ne heq _ _).trans (h.text i (by omega))
  · refine (Function.update_of_ne ?_ _ _).trans (h.outside i hi)
    rw [h.len]
    omega

/-- The NUL behind the characters. -/
theorem InAbs.close (h : InAbs max M b path) :
    ∃ M', storeAbs max b.bytes b.len 0 = .ok M' ∧ EndsAbs max M ⟨M', b.len⟩ path := by
  have hfits := h.fits
  refine ⟨_, storeAbs_ok _ 0 (by rw [h.len]; exact h.fits), ⟨h.len, h.fits, fun i hi => ?_, fun i hi => ?_⟩, ?_⟩
  · refine (Function.update_of_ne ?_ _ _).trans (h.text i hi)
    rw [h.len]
    omega
  · refine (Function.update_of_ne ?_ _ _).trans (h.outside i hi)
    rw [h.len]
    omega
  · show Function.update b.bytes b.len 0 path.length = 0
    rw [h.len]
    exact Function.update_self _ _ _

/-- One character less. -/
theorem EndsAbs.pop (h : EndsAbs max M b path) (hne : path ≠ []) :
    ∃ M', storeAbs max b.bytes (b.len - 1) 0 = .ok M' ∧ EndsAbs max M ⟨M', b.len - 1⟩ path.dropLast := by
  have hpos := List.length_pos_of_ne_nil hne
  have hfits := h.fits
  have hlen := h.len
  refine ⟨_, storeAbs_ok _ 0 (by omega), ⟨?_, ?_, fun i hi => ?_, fun i hi => ?_⟩, ?_⟩
  · rw [List.length_dropLast, h.len]
  · rw [List.length_dropLast]
    omega
  · rw [List.length_dropLast] at hi
    rw [chars_dropLast path i hi]
    exact (Function.update_of_ne (by omega) _ _).trans (h.text i (by omega))
  · exact (Function.update_of_ne (by omega) _ _).trans (h.outside i hi)
  · show Function.update b.bytes (b.len - 1) 0 path.dropLast.length = 0
    rw [List.length_dropLast, h.len]
    exact Function.update_self _ _ _

/-- The last character is loaded. -/
theorem InAbs.last (h : InAbs max M b path) (hne : path ≠ []) :
    ∃ c, lastChar max b = .ok c ∧ (c = char '/' ↔ path.getLast? = some (char '/')) := by
  have hpos := List.length_pos_of_ne_nil hne
  have hfits := h.fits
  refine ⟨b.bytes (b.len - 1), if_pos (by rw [h.len]; omega), ?_⟩
  rw [h.len, h.text _ (by omega)]
  unfold chars
  rw [List.getLast?_eq_getElem?, List.getD_eq_getElem?_getD, List.getElem?_eq_getElem (by omega), Option.getD_some,
    Option.some_inj]

/-! ### The three commands -/

theorem dropName_ok (h : EndsAbs max M b path) (hn : b.len = n) :
    ∃ b', dropName max n b.bytes = .ok b' ∧ EndsAbs max M b' (parentPath.dropToSlash n path) := by
  subst hn
  generalize hn : b.len = n at *
  induction n generalizing b path with
  | zero =>
    have hb : (⟨b.bytes, 0⟩ : PathBuffer) = b := by rw [← hn]
    refine ⟨⟨b.bytes, 0⟩, rfl, ?_⟩
    rw [hb]
    exact h
  | succ n ih =>
    have hlen : path.length = n + 1 := by rw [← h.len, hn]
    have hb : (⟨b.bytes, n + 1⟩ : PathBuffer) = b := by rw [← hn]
    unfold dropName parentPath.dropToSlash
    rw [hlen]
    by_cases hone : 1 < n + 1
    · have hne : path ≠ [] := List.ne_nil_of_length_pos (by omega)
      obtain ⟨c, hc, hslash⟩ := h.last hne
      rw [if_pos hone, hb, hc, ok_bind]
      by_cases hcs : c = char '/'
      · rw [if_neg (not_not_intro hcs), if_neg fun hgo => hgo.2 (hslash.mp hcs)]
        exact ⟨b, rfl, h⟩
      · rw [if_pos hcs, if_pos ⟨hone, fun hlast => hcs (hslash.mpr hlast)⟩]
        obtain ⟨M', hM', h'⟩ := h.pop hne
        rw [hn] at hM' h'
        rw [show n + 1 - 1 = n from rfl] at hM' h'
        rw [hM', ok_bind]
        exact ih h' rfl
    · rw [if_neg hone, if_neg fun hgo => hone hgo.1, hb]
      exact ⟨b, rfl, h⟩

/-- **`..`** -/
theorem dropDirectory_ok (h : EndsAbs max M b path) :
    ∃ b', dropDirectory max b = .ok b' ∧ EndsAbs max M b' (parentPath path) := by
  obtain ⟨b₁, hb₁, h₁⟩ := dropName_ok h rfl
  rw [h.len] at hb₁ h₁
  unfold dropDirectory parentPath
  rw [h.len, hb₁, ok_bind]
  simp only [h₁.len]
  by_cases hone : 1 < (parentPath.dropToSlash path.length path).length
  · obtain ⟨M', hM', h'⟩ := h₁.pop (List.ne_nil_of_length_pos (by omega))
    rw [h₁.len] at hM' h'
    rw [if_pos hone, if_pos hone, hM']
    exact ⟨_, rfl, h'⟩
  · rw [if_neg hone, if_neg hone]
    exact ⟨b₁, rfl, h₁⟩

theorem copyName_ok {rel : ℕ → UInt8} {rpos : ℕ} (h : InAbs max M b path)
    (hname : ∀ j < name.length, name[j]? = some (rel (rpos + j))) :
    ∃ b', copyName max rel name.length rpos b = .ok b' ∧
      InAbs max M b' (path ++ name.take (max - 1 - path.length)) := by
  induction name generalizing path b rpos with
  | nil =>
    refine ⟨b, rfl, ?_⟩
    rw [List.take_nil, List.append_nil]
    exact h
  | cons c name ih =>
    have hfirst : rel rpos = c := by
      have := hname 0 (by simp)
      rw [List.getElem?_cons_zero, Nat.add_zero] at this
      exact (Option.some.inj this).symm
    rw [List.length_cons]
    unfold copyName
    rw [h.len, hfirst]
    by_cases hroom : path.length < max - 1
    · obtain ⟨M', hM', h'⟩ := h.push hroom c
      rw [h.len] at hM' h'
      rw [if_pos hroom, hM', ok_bind]
      have hrest : ∀ j < name.length, name[j]? = some (rel (rpos + 1 + j)) := by
        intro j hj
        have := hname (j + 1) (by simpa using hj)
        rw [List.getElem?_cons_succ] at this
        rw [this, Nat.add_assoc, Nat.add_comm 1 j]
      obtain ⟨b', hb', hholds⟩ := ih h' hrest
      refine ⟨b', hb', ?_⟩
      rw [List.append_assoc, List.singleton_append, List.length_append, List.length_singleton] at hholds
      rw [show max - 1 - path.length = (max - 1 - (path.length + 1)) + 1 by omega, List.take_succ_cons]
      exact hholds
    · rw [if_neg hroom, show max - 1 - path.length = 0 by omega, List.take_zero, List.append_nil]
      exact ⟨b, rfl, h⟩

theorem addSlash_ok (h : InAbs max M b path) (hne : path ≠ []) :
    ∃ b', addSlash max b = .ok b' ∧ InAbs max M b'
      (if path.length < max - 1 ∧ path.getLast? ≠ some (char '/') then path ++ [char '/'] else path) := by
  unfold addSlash
  rw [h.len]
  by_cases hroom : path.length < max - 1
  · obtain ⟨c, hc, hslash⟩ := h.last hne
    rw [if_pos hroom, hc, ok_bind]
    by_cases hcs : c = char '/'
    · rw [if_neg (not_not_intro hcs), if_neg fun hgo => hgo.2 (hslash.mp hcs)]
      exact ⟨b, rfl, h⟩
    · obtain ⟨M', hM', h'⟩ := h.push hroom (char '/')
      rw [h.len] at hM' h'
      rw [if_pos hcs, if_pos ⟨hroom, fun hlast => hcs (hslash.mpr hlast)⟩, hM']
      exact ⟨_, rfl, h'⟩
  · rw [if_neg hroom, if_neg fun hgo => hroom hgo.1]
    exact ⟨b, rfl, h⟩

/-- **A name** -/
theorem addName_ok {rel : ℕ → UInt8} {start : ℕ} (h : EndsAbs max M b path) (hne : path ≠ [])
    (hname : ∀ j < name.length, name[j]? = some (rel (start + j))) :
    ∃ b', addName max rel start (start + name.length) b = .ok b' ∧ EndsAbs max M b' (addComponent max path name) := by
  obtain ⟨b₁, hb₁, h₁⟩ := addSlash_ok h.toInAbs hne
  obtain ⟨b₂, hb₂, h₂⟩ := copyName_ok h₁ hname
  obtain ⟨M', hM', h₃⟩ := h₂.close
  unfold addName
  rw [hb₁, ok_bind, Nat.add_sub_cancel_left, hb₂, ok_bind, hM']
  exact ⟨_, rfl, h₃⟩

/-- The comparison with `.` or `..`. -/
theorem same_component {rel : ℕ → UInt8} {start : ℕ} {cur : List UInt8} (word : List UInt8)
    (hname : ∀ j < cur.length, cur[j]? = some (rel (start + j))) (hz : (0 : UInt8) ∉ cur) (hzw : (0 : UInt8) ∉ word) :
    cur.length = word.length ∧ strncmp (fun j => rel (start + j)) (chars word) cur.length = 0 ↔ cur = word := by
  have hcur : ∀ j < cur.length, rel (start + j) ≠ 0 := by
    intro j hj h0
    have hmem := List.mem_of_getElem? (hname j hj)
    rw [h0] at hmem
    exact hz hmem
  have hword : ∀ j < word.length, word[j]? = some (chars word j) ∧ chars word j ≠ 0 := by
    intro j hj
    have hget : word[j]? = some (chars word j) := by
      unfold chars
      rw [List.getD_eq_getElem?_getD, List.getElem?_eq_getElem hj, Option.getD_some]
    refine ⟨hget, fun h0 => ?_⟩
    rw [h0] at hget
    exact hzw (List.mem_of_getElem? hget)
  constructor
  · rintro ⟨hlen, hcmp⟩
    rw [strncmp_eq_zero fun j hj => ⟨hcur j hj, (hword j (by omega)).2⟩] at hcmp
    apply List.ext_getElem?
    intro j
    by_cases hj : j < cur.length
    · rw [hname j hj, hcmp j hj, (hword j (by omega)).1]
    · rw [List.getElem?_eq_none (by omega), List.getElem?_eq_none (by omega)]
  · rintro rfl
    refine ⟨rfl, (strncmp_eq_zero fun j hj => ⟨hcur j hj, (hword j hj).2⟩).mpr fun j hj => ?_⟩
    exact Option.some.inj ((hname j hj).symm.trans (hword j hj).1)

/-- **One component.** -/
theorem applyAt_ok {rel : ℕ → UInt8} {start : ℕ} (h : EndsAbs max M b path) (hne : path ≠ []) (hz : (0 : UInt8) ∉ name)
    (hname : ∀ j < name.length, name[j]? = some (rel (start + j))) :
    ∃ b', applyAt max rel start (start + name.length) b = .ok b' ∧ EndsAbs max M b' (applyComponent max path name) := by
  have hdot : name.length = 1 ∧ strncmp (fun j => rel (start + j)) (chars [char '.']) name.length = 0 ↔ name = [char '.'] :=
    same_component [char '.'] hname hz (by decide)
  have hdots : name.length = 2 ∧ strncmp (fun j => rel (start + j)) (chars [char '.', char '.']) name.length = 0 ↔
      name = [char '.', char '.'] := same_component [char '.', char '.'] hname hz (by decide)
  unfold applyAt applyComponent
  rw [Nat.add_sub_cancel_left]
  by_cases h1 : name = [char '.']
  · rw [if_pos (hdot.mpr h1), if_pos h1]
    exact ⟨b, rfl, h⟩
  · rw [if_neg fun hc => h1 (hdot.mp hc), if_neg h1]
    by_cases h2 : name = [char '.', char '.']
    · rw [if_pos (hdots.mpr h2), if_pos h2]
      exact dropDirectory_ok h
    · rw [if_neg fun hc => h2 (hdots.mp hc), if_neg h2]
      exact addName_ok h hne hname

theorem dropToSlash_front (n : ℕ) (path : List UInt8) (hne : path ≠ []) :
    parentPath.dropToSlash n path <+: path ∧ parentPath.dropToSlash n path ≠ [] := by
  induction n generalizing path with
  | zero => exact ⟨List.prefix_refl path, hne⟩
  | succ n ih =>
    unfold parentPath.dropToSlash
    by_cases hgo : 1 < path.length ∧ path.getLast? ≠ some (char '/')
    · rw [if_pos hgo]
      obtain ⟨hfront, hne'⟩ := ih path.dropLast (List.ne_nil_of_length_pos (by rw [List.length_dropLast]; omega))
      exact ⟨hfront.trans (List.dropLast_prefix path), hne'⟩
    · rw [if_neg hgo]
      exact ⟨List.prefix_refl path, hne⟩

theorem parentPath_front (hne : path ≠ []) : parentPath path <+: path ∧ parentPath path ≠ [] := by
  obtain ⟨hfront, hne'⟩ := dropToSlash_front path.length path hne
  unfold parentPath
  simp only
  by_cases hone : 1 < (parentPath.dropToSlash path.length path).length
  · rw [if_pos hone]
    exact ⟨(List.dropLast_prefix _).trans hfront, List.ne_nil_of_length_pos (by rw [List.length_dropLast]; omega)⟩
  · rw [if_neg hone]
    exact ⟨hfront, hne'⟩

/-- A path that is not empty stays so, and gets no NUL. -/
theorem applyComponent_sound (max : ℕ) (hne : path ≠ []) (hz : (0 : UInt8) ∉ path) (hname : (0 : UInt8) ∉ name) :
    applyComponent max path name ≠ [] ∧ (0 : UInt8) ∉ applyComponent max path name := by
  unfold applyComponent
  by_cases h1 : name = [char '.']
  · rw [if_pos h1]
    exact ⟨hne, hz⟩
  · rw [if_neg h1]
    by_cases h2 : name = [char '.', char '.']
    · rw [if_pos h2]
      obtain ⟨hfront, hne'⟩ := parentPath_front hne
      exact ⟨hne', fun hmem => hz (hfront.subset hmem)⟩
    · rw [if_neg h2]
      have hstart : ∀ front : List UInt8, front ≠ [] → (0 : UInt8) ∉ front → ∀ n,
          front ++ name.take n ≠ [] ∧ (0 : UInt8) ∉ front ++ name.take n := by
        intro front hfront hzf n
        refine ⟨List.append_ne_nil_of_left_ne_nil hfront _, fun hmem => ?_⟩
        rcases List.mem_append.mp hmem with hmem | hmem
        · exact hzf hmem
        · exact hname (List.mem_of_mem_take hmem)
      unfold addComponent
      simp only
      by_cases hslash : path.length < max - 1 ∧ path.getLast? ≠ some (char '/')
      · rw [if_pos hslash]
        refine hstart _ (List.append_ne_nil_of_left_ne_nil hne _) (fun hmem => ?_) _
        rcases List.mem_append.mp hmem with hmem | hmem
        · exact hz hmem
        · exact absurd (List.mem_singleton.mp hmem) (by decide)
      · rw [if_neg hslash]
        exact hstart path hne hz _

/-! ### The loop -/

/-- **The loop**, with `pre` behind it, in the middle of the component that begins with `cur`, and with `suf` to
come. -/
theorem editLoop_ok (suf pre cur : List UInt8) (hrel : rel = pre ++ cur ++ suf) (hzr : (0 : UInt8) ∉ rel)
    (hcur : char '/' ∉ cur) (h : EndsAbs max M b path) (hne : path ≠ []) (hz : (0 : UInt8) ∉ path) :
    ∃ b', editLoop max (chars rel) rel.length (suf.length + 1) (pre.length + cur.length) pre.length b = .ok b' ∧
      EndsAbs max M b' ((components (cur ++ suf)).foldl (applyComponent max) path) ∧
      (0 : UInt8) ∉ (components (cur ++ suf)).foldl (applyComponent max) path := by
  have hlen : rel.length = pre.length + cur.length + suf.length := by
    rw [hrel, List.length_append, List.length_append]
  have hzc : (0 : UInt8) ∉ cur := fun hmem => hzr (by simp [hrel, hmem])
  have hname : ∀ j < cur.length, cur[j]? = some (chars rel (pre.length + j)) := by
    rw [hrel]
    exact chars_middle pre cur suf
  induction suf generalizing pre cur b path with
  | nil =>
    have hend : pre.length + cur.length = rel.length := by
      rw [hlen]
      rfl
    rw [List.append_nil]
    unfold editLoop
    rw [if_pos (Or.inr hend)]
    by_cases hnil : cur = []
    · rw [hnil, List.length_nil, Nat.add_zero, if_neg (Nat.lt_irrefl _), components_nil]
      exact ⟨b, rfl, h, hz⟩
    · have hpos := List.length_pos_of_ne_nil hnil
      obtain ⟨b', hb', h'⟩ := applyAt_ok h hne hzc hname
      rw [if_pos (by omega), hb', ok_bind, components_name hcur hnil]
      exact ⟨b', rfl, h', (applyComponent_sound max hne hz hzc).2⟩
  | cons c suf ih =>
    rw [List.length_cons] at hlen
    have hchar : chars rel (pre.length + cur.length) = c := by
      rw [hrel]
      exact chars_after pre cur c suf
    unfold editLoop
    rw [hchar]
    by_cases hc : c = char '/'
    · -- the component ends here
      have hnext : ∀ {b₁ : PathBuffer} {path₁ : List UInt8}, EndsAbs max M b₁ path₁ → path₁ ≠ [] → (0 : UInt8) ∉ path₁ →
          ∃ b', editLoop max (chars rel) rel.length (suf.length + 1) (pre.length + cur.length + 1)
            (pre.length + cur.length + 1) b₁ = .ok b' ∧
            EndsAbs max M b' ((components suf).foldl (applyComponent max) path₁) ∧
            (0 : UInt8) ∉ (components suf).foldl (applyComponent max) path₁ := by
        intro b₁ path₁ h₁ hne₁ hz₁
        have hstep := ih (pre ++ cur ++ [c]) [] (by simp [hrel]) (by simp) h₁ hne₁ hz₁ (by simp [hlen]; omega) (by simp)
          (by simp)
        simpa [Nat.add_assoc] using hstep
      rw [if_pos (Or.inl hc), hc, components_append_slash, List.foldl_append]
      by_cases hnil : cur = []
      · rw [hnil, List.length_nil, Nat.add_zero, if_neg (Nat.lt_irrefl _), components_nil, List.foldl_nil]
        have hstep := hnext h hne hz
        rwa [hnil, List.length_nil, Nat.add_zero] at hstep
      · have hpos := List.length_pos_of_ne_nil hnil
        obtain ⟨b', hb', h'⟩ := applyAt_ok h hne hzc hname
        obtain ⟨hne', hz'⟩ := applyComponent_sound max hne hz hzc
        rw [if_pos (by omega), hb', ok_bind, components_name hcur hnil, List.foldl_cons, List.foldl_nil]
        exact hnext h' hne' hz'
    · have hskip : ¬ (c = char '/' ∨ pre.length + cur.length = rel.length) := by
        rintro (h | h)
        · exact hc h
        · omega
      have hcur' : char '/' ∉ cur ++ [c] := by
        intro hmem
        rcases List.mem_append.mp hmem with hmem | hmem
        · exact hcur hmem
        · exact hc (List.mem_singleton.mp hmem).symm
      have hrel' : rel = pre ++ (cur ++ [c]) ++ suf := by simp [hrel]
      have hstep := ih pre (cur ++ [c]) hrel' hcur' h hne hz (by simp [hlen]; omega)
        (fun hmem => hzr (hrel' ▸ List.mem_append_left _ (List.mem_append_right _ hmem)))
        (by rw [hrel']; exact chars_middle pre (cur ++ [c]) suf)
      rw [List.length_append, List.append_assoc, ← Nat.add_assoc] at hstep
      rw [if_neg hskip]
      exact hstep

/-! ### The start -/

theorem addChars_ok (max : ℕ) (s : List UInt8) (pos : ℕ) (M : Memory) :
    ∃ M', addChars max s pos M = .ok M' ∧
      ∀ i, M' i = if pos ≤ i ∧ i < pos + s.length ∧ i + 1 < max then chars s (i - pos) else M i := by
  induction s generalizing pos M with
  | nil =>
    refine ⟨M, rfl, fun i => ?_⟩
    rw [if_neg (by simp only [List.length_nil]; omega)]
  | cons c s ih =>
    have hstore : ∃ M₁, addchar max pos c M = .ok M₁ ∧ ∀ i, M₁ i = if i = pos ∧ i + 1 < max then c else M i := by
      unfold addchar
      by_cases hpos : pos + 1 < max
      · refine ⟨Function.update M pos c, by rw [if_pos hpos, storeAbs_ok M c (by omega)], fun i => ?_⟩
        by_cases hi : i = pos
        · rw [if_pos ⟨hi, by omega⟩, hi, Function.update_self]
        · rw [if_neg fun h => hi h.1, Function.update_of_ne hi]
      · refine ⟨M, if_neg hpos, fun i => ?_⟩
        rw [if_neg fun h : i = pos ∧ i + 1 < max => hpos (h.1 ▸ h.2)]
    obtain ⟨M₁, hM₁, hfirst⟩ := hstore
    obtain ⟨M', hM', hrest⟩ := ih (pos + 1) M₁
    refine ⟨M', ?_, fun i => ?_⟩
    · unfold addChars
      rw [hM₁]
      exact hM'
    · rw [hrest, hfirst, List.length_cons]
      by_cases hlater : pos + 1 ≤ i ∧ i < pos + 1 + s.length ∧ i + 1 < max
      · rw [if_pos hlater, if_pos (by omega), show i - pos = (i - (pos + 1)) + 1 by omega]
        rfl
      · rw [if_neg hlater]
        by_cases hi : i = pos ∧ i + 1 < max
        · rw [if_pos hi, if_pos (by omega), hi.1, Nat.sub_self]
          rfl
        · rw [if_neg hi, if_neg (by omega)]

/-- Printed characters and the NUL. -/
theorem printed_ok (s : List UInt8) (hmax : 0 < max) {M₀ : Memory} (hout : ∀ i, max ≤ i → M i = M₀ i)
    (hM : ∀ i, i < s.length → i + 1 < max → M i = chars s i) :
    ∃ M', endText max s.length M = .ok M' ∧ EndsAbs max M₀ ⟨M', (s.take (max - 1)).length⟩ (s.take (max - 1)) := by
  have hlen : (s.take (max - 1)).length = min (max - 1) s.length := List.length_take
  have hholds : InAbs max M₀ ⟨M, (s.take (max - 1)).length⟩ (s.take (max - 1)) := by
    refine ⟨rfl, by omega, fun i hi => ?_, hout⟩
    rw [hlen] at hi
    refine (hM i (by omega) (by omega)).trans ?_
    unfold chars
    rw [List.getD_eq_getElem?_getD, List.getD_eq_getElem?_getD, List.getElem?_take_of_lt (by omega)]
  obtain ⟨M', hM', hended⟩ := hholds.close
  refine ⟨M', ?_, hended⟩
  unfold endText
  rw [if_pos hmax]
  by_cases hpos : s.length + 1 < max
  · rw [if_pos hpos, ← hM', hlen, show min (max - 1) s.length = s.length by omega]
  · rw [if_neg hpos, ← hM', hlen, show min (max - 1) s.length = max - 1 by omega]

theorem chars_head (rel : List UInt8) : chars rel 0 = char '/' ↔ rel.head? = some (char '/') := by
  cases rel with
  | nil => decide
  | cons c rel =>
    show c = char '/' ↔ some c = some (char '/')
    rw [Option.some_inj]

/-- **The start** -/
theorem startAt_ok (hmax : 2 ≤ max) (M : Memory) (base rel : List UInt8) :
    ∃ M', startAt max M base rel = .ok M' ∧
      let start := if rel.head? = some (char '/') then [char '/'] else base.take (max - 1)
      EndsAbs max M ⟨M', start.length⟩ start := by
  have hpos : 0 < max := by omega
  unfold startAt
  by_cases hrel : rel.head? = some (char '/')
  · obtain ⟨M₁, hM₁, h₁⟩ := addChars_ok max [char '/'] 0 M
    have hout : ∀ i, max ≤ i → M₁ i = M i := fun i hi => by rw [h₁, if_neg (by omega)]
    have htext : ∀ i, i < [char '/'].length → i + 1 < max → M₁ i = chars [char '/'] i := fun i hi hfit => by
      rw [h₁, if_pos (by omega), Nat.sub_zero]
    obtain ⟨M', hM', hended⟩ := printed_ok [char '/'] hpos hout htext
    rw [List.take_of_length_le (by simp only [List.length_singleton]; omega)] at hended
    rw [if_pos ((chars_head rel).mpr hrel), if_pos hrel, hM₁]
    exact ⟨M', hM', hended⟩
  · obtain ⟨M₁, hM₁, h₁⟩ := addChars_ok max base 0 M
    obtain ⟨M₂, hM₂, h₂⟩ := addChars_ok max base 0 M₁
    have hout : ∀ i, max ≤ i → M₂ i = M i := fun i hi => by rw [h₂, if_neg (by omega), h₁, if_neg (by omega)]
    have htext : ∀ i, i < base.length → i + 1 < max → M₂ i = chars base i := fun i hi hfit => by
      rw [h₂, if_pos (by omega), Nat.sub_zero]
    obtain ⟨M', hM', hended⟩ := printed_ok base hpos hout htext
    rw [if_neg fun h => hrel ((chars_head rel).mp h), if_neg hrel, hM₁, ok_bind, hM₂, ok_bind]
    exact ⟨M', hM', hended⟩

/-- The length of the text is found. -/
theorem EndsAbs.strlen (h : EndsAbs max M b path) (hz : (0 : UInt8) ∉ path) : strlenAbs b.bytes max 0 = .ok path.length := by
  have hloop : ∀ n i, i + n = max → i ≤ path.length → strlenAbs b.bytes n i = .ok path.length := by
    intro n
    induction n with
    | zero =>
      intro i hn hi
      have := h.fits
      omega
    | succ n ih =>
      intro i hn hi
      unfold strlenAbs
      by_cases hend : i = path.length
      · rw [if_pos (by rw [hend]; exact h.nul), hend]
      · have hchar : b.bytes i ≠ 0 := by
          rw [h.text i (by omega)]
          unfold chars
          rw [List.getD_eq_getElem?_getD, List.getElem?_eq_getElem (by omega), Option.getD_some]
          exact fun h0 => hz (h0 ▸ List.getElem_mem _)
        rw [if_neg hchar]
        exact ih (i + 1) (by omega) (by omega)
  exact hloop max 0 (Nat.zero_add max) (Nat.zero_le _)

theorem EndsAbs.textAt (h : EndsAbs max M b path) (hz : (0 : UInt8) ∉ path) : TextAt b.bytes 0 path := by
  have hsuffix : ∀ t pre, path = pre ++ t → TextAt b.bytes pre.length t := by
    intro t
    induction t with
    | nil =>
      intro pre hpre
      rw [List.append_nil] at hpre
      rw [← hpre]
      exact h.nul
    | cons c t ih =>
      intro pre hpre
      have hlen : pre.length < path.length := by
        rw [hpre, List.length_append, List.length_cons]
        omega
      have hchar : chars path pre.length = c := by
        have := chars_after pre [] c t
        rwa [List.append_nil, List.length_nil, Nat.add_zero, ← hpre] at this
      refine ⟨(h.text _ hlen).trans hchar, fun h0 => hz ?_, ?_⟩
      · rw [hpre, h0]
        simp
      · have := ih (pre ++ [c]) (by rw [hpre, List.append_assoc]; rfl)
        rwa [List.length_append] at this
  exact hsuffix path [] rfl

/-- **`relative_to_absolute`** stays in its buffer and leaves the text of the model there. -/
theorem relativeToAbsoluteAt_ok (hmax : 2 ≤ max) (hbase : base ≠ []) (hz : (0 : UInt8) ∉ base) (hzr : (0 : UInt8) ∉ rel)
    (M : Memory) :
    ∃ M', relativeToAbsoluteAt max M base rel = .ok M' ∧ TextAt M' 0 (relativeToAbsolute base rel max) ∧
      (relativeToAbsolute base rel max).length < max ∧ ∀ i, max ≤ i → M' i = M i := by
  obtain ⟨M₁, hM₁, hstart⟩ := startAt_ok hmax M base rel
  have hsound : (if rel.head? = some (char '/') then [char '/'] else base.take (max - 1)) ≠ [] ∧
      (0 : UInt8) ∉ if rel.head? = some (char '/') then [char '/'] else base.take (max - 1) := by
    by_cases hrel : rel.head? = some (char '/')
    · rw [if_pos hrel]
      exact ⟨List.cons_ne_nil _ _, by decide⟩
    · rw [if_neg hrel]
      refine ⟨fun hnil => ?_, fun hmem => hz (List.mem_of_mem_take hmem)⟩
      rcases List.take_eq_nil_iff.mp hnil with h | h
      · omega
      · exact hbase h
  obtain ⟨b, hb, hended, hzero⟩ := editLoop_ok rel [] [] (show rel = [] ++ [] ++ rel from rfl) hzr (by simp) hstart
    hsound.1 hsound.2
  refine ⟨b.bytes, ?_, hended.textAt hzero, hended.fits, hended.outside⟩
  unfold relativeToAbsoluteAt
  rw [hM₁, ok_bind, hstart.strlen hsound.2, ok_bind]
  rw [List.length_nil, Nat.add_zero] at hb
  rw [hb]
  rfl

/-! ### CanonicalPath paths -/

/-- A component that names an entry. -/
structure IsName (name : List UInt8) : Prop where
  ne_nil : name ≠ []
  slash : char '/' ∉ name
  nul : (0 : UInt8) ∉ name
  dots : ¬ IsDots name

/-- The text of a list of components. -/
def canonicalText (l : List (List UInt8)) : List UInt8 :=
  if l = [] then [char '/'] else l.flatMap fun name => char '/' :: name

/-- What a component does to a list of components. -/
def follow (l : List (List UInt8)) (name : List UInt8) : List (List UInt8) :=
  if name = [char '.'] then l
  else if name = [char '.', char '.'] then l.dropLast
  else l ++ [name]

/-- The path is canonical, and stands for `l`. -/
def CanonicalPath (path : List UInt8) (l : List (List UInt8)) : Prop := (∀ name ∈ l, IsName name) ∧ path = canonicalText l

/-- The components from which `rel` is followed. -/
def startList (l : List (List UInt8)) (rel : List UInt8) : List (List UInt8) :=
  if rel.head? = some (char '/') then [] else l

/-- The components after `n` components of `rel`. -/
def reached (l : List (List UInt8)) (rel : List UInt8) (n : ℕ) : List (List UInt8) :=
  ((components rel).take n).foldl follow (startList l rel)

variable {l : List (List UInt8)}

theorem canonicalText_concat (l : List (List UInt8)) (name : List UInt8) :
    canonicalText (l ++ [name]) = (l.flatMap fun name => char '/' :: name) ++ char '/' :: name := by
  unfold canonicalText
  rw [if_neg (by simp), List.flatMap_append]
  simp

theorem follow_isName (hl : ∀ name ∈ l, IsName name) (hne : name ≠ []) (hs : char '/' ∉ name) (hz : (0 : UInt8) ∉ name) :
    ∀ n ∈ follow l name, IsName n := by
  unfold follow
  by_cases h1 : name = [char '.']
  · rw [if_pos h1]
    exact hl
  · rw [if_neg h1]
    by_cases h2 : name = [char '.', char '.']
    · rw [if_pos h2]
      exact fun n hn => hl n (List.mem_of_mem_dropLast hn)
    · rw [if_neg h2]
      intro n hn
      rcases List.mem_append.mp hn with hn | hn
      · exact hl n hn
      · rw [List.mem_singleton.mp hn]
        exact ⟨hne, hs, hz, fun hd => hd.elim h1 h2⟩

theorem canonicalText_ne (hl : ∀ name ∈ l, IsName name) (hne : l ≠ []) :
    canonicalText l = (l.flatMap fun name => char '/' :: name) ∧ (canonicalText l).getLast? ≠ some (char '/') := by
  refine ⟨if_neg hne, fun hlast => ?_⟩
  rcases List.eq_nil_or_concat' l with rfl | ⟨front, name, rfl⟩
  · exact hne rfl
  · have hname := hl name (by simp)
    rw [canonicalText_concat, List.getLast?_append_of_ne_nil _ (List.cons_ne_nil _ _),
      List.getLast?_cons_of_ne_nil hname.ne_nil] at hlast
    exact hname.slash (List.mem_of_getLast? hlast)

/-- **One component** on canonical paths. -/
theorem applyComponent_canonical (hl : ∀ name ∈ l, IsName name)
    (hfit : (canonicalText (follow l name)).length ≤ max - 1) :
    applyComponent max (canonicalText l) name = canonicalText (follow l name) := by
  unfold applyComponent
  unfold follow at hfit ⊢
  by_cases h1 : name = [char '.']
  · rw [if_pos h1, if_pos h1]
  · rw [if_neg h1] at hfit ⊢
    rw [if_neg h1]
    by_cases h2 : name = [char '.', char '.']
    · rw [if_pos h2, if_pos h2]
      rcases List.eq_nil_or_concat' l with rfl | ⟨front, last, rfl⟩
      · rfl
      · have hlast := hl last (by simp)
        rw [canonicalText_concat, parentPath_eq _ hlast.slash, List.dropLast_concat]
        unfold canonicalText
        by_cases hfront : front = []
        · rw [hfront]
          rfl
        · rw [if_neg hfront, if_neg]
          intro hnil
          exact hfront (List.eq_nil_iff_forall_not_mem.mpr fun n hn => by
            have := List.flatMap_eq_nil_iff.mp hnil n hn
            cases this)
    · rw [if_neg h2] at hfit ⊢
      rw [if_neg h2]
      rw [canonicalText_concat, List.length_append, List.length_cons] at hfit
      rw [canonicalText_concat]
      unfold addComponent
      simp only
      by_cases hnil : l = []
      · subst hnil
        rw [List.flatMap_nil, List.length_nil] at hfit
        rw [if_neg fun h => h.2 rfl, List.take_of_length_le]
        · rfl
        · show name.length ≤ max - 1 - 1
          omega
      · obtain ⟨htext, hlast⟩ := canonicalText_ne hl hnil
        rw [htext] at hlast ⊢
        rw [if_pos ⟨by omega, hlast⟩, List.append_assoc, List.take_of_length_le]
        · rfl
        · rw [List.length_append, List.length_singleton]
          omega

/-- **All components** -/
theorem foldl_canonical (names : List (List UInt8)) (hl : ∀ name ∈ l, IsName name)
    (hnames : ∀ name ∈ names, name ≠ [] ∧ char '/' ∉ name ∧ (0 : UInt8) ∉ name)
    (hfit : ∀ n ≤ names.length, (canonicalText ((names.take n).foldl follow l)).length ≤ max - 1) :
    names.foldl (applyComponent max) (canonicalText l) = canonicalText (names.foldl follow l) := by
  induction names generalizing l with
  | nil => rfl
  | cons name names ih =>
    obtain ⟨hne, hs, hz⟩ := hnames name List.mem_cons_self
    have hfirst := hfit 1 (by simp)
    rw [List.foldl_cons, List.foldl_cons, applyComponent_canonical hl hfirst]
    exact ih (follow_isName hl hne hs hz) (fun n hn => hnames n (List.mem_cons_of_mem _ hn)) fun n hn =>
      hfit (n + 1) (by simpa using hn)

/-- **Path normalisation.**  The buffer is not left, and ends up with a text.  From a canonical path, if everything fits,
that text is the canonical one of the components that are reached. -/
theorem relativeToAbsolute_canonical (hmax : 2 ≤ max) (hz : (0 : UInt8) ∉ base) (hzr : (0 : UInt8) ∉ rel) (M : Memory) :
    (base ≠ [] → ∃ M', relativeToAbsoluteAt max M base rel = .ok M' ∧ (∀ i, max ≤ i → M' i = M i) ∧
      ∃ s, TextAt M' 0 s ∧ s.length < max) ∧
    ∀ l, CanonicalPath base l → base.length ≤ max - 1 →
      (∀ n ≤ (components rel).length, (canonicalText (reached l rel n)).length ≤ max - 1) →
      ∃ M', relativeToAbsoluteAt max M base rel = .ok M' ∧
        TextAt M' 0 (canonicalText ((components rel).foldl follow (startList l rel))) := by
  constructor
  · intro hne
    obtain ⟨M', hok, htext, hlen, hout⟩ := relativeToAbsoluteAt_ok hmax hne hz hzr M
    exact ⟨M', hok, hout, _, htext, hlen⟩
  · rintro l ⟨hl, rfl⟩ hbase hfit
    have hne : canonicalText l ≠ [] := by
      unfold canonicalText
      by_cases hnil : l = []
      · rw [if_pos hnil]
        exact List.cons_ne_nil _ _
      · rw [if_neg hnil]
        obtain ⟨name, l, rfl⟩ := List.exists_cons_of_ne_nil hnil
        exact List.cons_ne_nil _ _
    obtain ⟨M', hok, htext, -, -⟩ := relativeToAbsoluteAt_ok hmax hne hz hzr M
    refine ⟨M', hok, ?_⟩
    have hstart : (if rel.head? = some (char '/') then [char '/'] else (canonicalText l).take (max - 1)) =
        canonicalText (startList l rel) := by
      unfold startList
      by_cases hrel : rel.head? = some (char '/')
      · rw [if_pos hrel, if_pos hrel]
        rfl
      · rw [if_neg hrel, if_neg hrel, List.take_of_length_le hbase]
    have hlist : ∀ name ∈ startList l rel, IsName name := by
      unfold startList
      split_ifs
      · exact fun _ hname => absurd hname List.not_mem_nil
      · exact hl
    have hnames : ∀ name ∈ components rel, name ≠ [] ∧ char '/' ∉ name ∧ (0 : UInt8) ∉ name := fun name hname =>
      ⟨(mem_components hname).1, (mem_components hname).2, fun h0 => hzr (mem_of_mem_components hname h0)⟩
    unfold relativeToAbsolute at htext
    rwa [hstart, foldl_canonical (components rel) hlist hnames hfit] at htext

/-- From `/a`, the path `../b/./c/` leads to `/b/c`, in a buffer of five bytes. -/
theorem relativeToAbsolute_sample : ∃ M', relativeToAbsoluteAt 5 (fun _ => 7) [char '/', char 'a']
      [char '.', char '.', char '/', char 'b', char '/', char '.', char '/', char 'c', char '/'] = .ok M' ∧
    TextAt M' 0 [char '/', char 'b', char '/', char 'c'] :=
  (relativeToAbsolute_canonical (by decide) (by decide) (by decide) _).2 [[char 'a']]
    ⟨fun name hname => by
      rw [List.mem_singleton.mp hname]
      exact ⟨by decide, by decide, by decide, by unfold IsDots; decide⟩, by decide⟩ (by decide) (by decide)

end AdelaideOS.Kernel
