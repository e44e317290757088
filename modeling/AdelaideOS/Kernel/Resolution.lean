import AdelaideOS.Kernel.Advance

/-!
# Two ways to resolve a path

`open` and `stat` make a path absolute before they look it up, and `execve` does not.  To tell two paths apart there
is an image for each list of components: `chainImage l` is a chain of directories with one entry each, named by `l`.

* **`walk_chain_iff`** — only the path `l` leads to the end of the chain;
* **`execve_path_iff`** — the two ways agree on every file system exactly for the plain paths.
-/

namespace AdelaideOS.Kernel

open AdelaideOS.Buddy AdelaideOS.Lib.Bytes AdelaideOS.Lib.Triple AdelaideOS.Lib.View AdelaideOS.Page
  AdelaideOS.Process

/-! ### Chains of directories -/

/-- A directory table for each name, with one entry that leads to the next table.  The tables are behind the root entry,
`w` bytes apart; the last entry is of the given type, and the last table is empty. -/
def chainImage (w : ℕ) (l : List (List UInt8)) (type : UInt8) : Memory := fun x =>
  if x < ENTRY_SIZE then if x = 4 then 1 else if x = 8 then 20 else if x = 9 then 1 else 0
  else
    let i := (x - ENTRY_SIZE) / w
    let j := (x - ENTRY_SIZE) % w
    let child := ENTRY_SIZE + w * (i + 1)
    match l[i]? with
    | none => 0
    | some name =>
      if j = 0 then 1
      else if j = 8 then if i + 1 = l.length then type else 1
      else if j = 12 then UInt8.ofNat child
      else if j = 13 then UInt8.ofNat (child / 256)
      else if j = 14 then UInt8.ofNat (child / 65536)
      else if j = 15 then UInt8.ofNat (child / 16777216)
      else if 24 ≤ j then name.getD (j - 24) 0
      else 0

/-- The table of the directory at depth `i`. -/
def chainDir (w i : ℕ) : ℕ := ENTRY_SIZE + w * i

/-- The entry of the directory at depth `i`. -/
def chainEntry (w : ℕ) : ℕ → ℕ
  | 0 => 0
  | i + 1 => dirEntryAt (chainDir w i) 0

/-- The distance of two tables with one entry each: they are packed. -/
abbrev ROW : ℕ := 4 + ENTRY_SIZE

/-- A distance that leaves room for every name in a path. -/
abbrev STRIDE : ℕ := 2048

section Chain

variable {w : ℕ} {l : List (List UInt8)} {type : UInt8} {i : ℕ}

theorem chainImage_at (l : List (List UInt8)) (type : UInt8) (i : ℕ) {j : ℕ} (hj : j < w) :
    chainImage w l type (chainDir w i + j) =
      match l[i]? with
      | none => 0
      | some name =>
        if j = 0 then 1
        else if j = 8 then if i + 1 = l.length then type else 1
        else if j = 12 then UInt8.ofNat (chainDir w (i + 1))
        else if j = 13 then UInt8.ofNat (chainDir w (i + 1) / 256)
        else if j = 14 then UInt8.ofNat (chainDir w (i + 1) / 65536)
        else if j = 15 then UInt8.ofNat (chainDir w (i + 1) / 16777216)
        else if 24 ≤ j then name.getD (j - 24) 0
        else 0 := by
  have hlow : ¬ chainDir w i + j < ENTRY_SIZE := by
    unfold chainDir
    omega
  have hoff : chainDir w i + j - ENTRY_SIZE = w * i + j := by
    unfold chainDir
    omega
  have hdiv : (w * i + j) / w = i := by
    rw [Nat.mul_add_div (Nat.zero_lt_of_lt hj), Nat.div_eq_of_lt hj, Nat.add_zero]
  have hmod : (w * i + j) % w = j := by
    rw [Nat.mul_add_mod, Nat.mod_eq_of_lt hj]
  unfold chainImage
  rw [if_neg hlow, hoff, hdiv, hmod]
  rfl

theorem chain_root : entryLocation (chainImage w l type) 0 = chainDir w 0 := by
  show readWord (chainImage w l type) 8 = _
  simp [readWord, chainImage, chainDir, ENTRY_SIZE]

/-- The words of a table. -/
theorem readWord_chain (l : List (List UInt8)) (type : UInt8) (i j : ℕ) :
    readWord (chainImage w l type) (chainDir w i + j) =
      (chainImage w l type (chainDir w i + j)).toNat + 256 * (chainImage w l type (chainDir w i + (j + 1))).toNat +
        65536 * (chainImage w l type (chainDir w i + (j + 2))).toNat +
          16777216 * (chainImage w l type (chainDir w i + (j + 3))).toNat := rfl

section

variable (hw : ROW ≤ w)

include hw

theorem inside_row {j : ℕ} (hj : j < 16) : j < w := hj.trans_le (le_trans (by decide) hw)

theorem chain_count (hi : i < l.length) : dirCount (chainImage w l type) (chainDir w i) = 1 := by
  show readWord (chainImage w l type) (chainDir w i + 0) = 1
  have hat := fun j (hj : j < 16) => chainImage_at l type i (inside_row hw hj)
  rw [readWord_chain, hat _ (by decide), hat _ (by decide), hat _ (by decide), hat _ (by decide),
    List.getElem?_eq_getElem hi]
  rfl

theorem chain_count_end : dirCount (chainImage w l type) (chainDir w l.length) = 0 := by
  show readWord (chainImage w l type) (chainDir w l.length + 0) = 0
  have hat := fun j (hj : j < 16) => chainImage_at l type l.length (inside_row hw hj)
  rw [readWord_chain, hat _ (by decide), hat _ (by decide), hat _ (by decide), hat _ (by decide),
    List.getElem?_eq_none (Nat.le_refl _)]
  rfl

theorem chain_type (hi : i < l.length) :
    entryType (chainImage w l type) (dirEntryAt (chainDir w i) 0) = if i + 1 = l.length then type.toNat else 1 := by
  show readWord (chainImage w l type) (chainDir w i + 8) = _
  have hat := fun j (hj : j < 16) => chainImage_at l type i (inside_row hw hj)
  rw [readWord_chain, hat _ (by decide), hat _ (by decide), hat _ (by decide), hat _ (by decide),
    List.getElem?_eq_getElem hi]
  show (if i + 1 = l.length then type else 1).toNat + 256 * 0 + 65536 * 0 + 16777216 * 0 = _
  split_ifs <;> rfl

theorem chain_location (hi : i < l.length) (hsmall : chainDir w l.length < wordSize) :
    entryLocation (chainImage w l type) (dirEntryAt (chainDir w i) 0) = chainDir w (i + 1) := by
  show readWord (chainImage w l type) (chainDir w i + 12) = _
  have hat := fun j (hj : j < 16) => chainImage_at l type i (inside_row hw hj)
  rw [readWord_chain, hat _ (by decide), hat _ (by decide), hat _ (by decide), hat _ (by decide),
    List.getElem?_eq_getElem hi]
  have hlt : chainDir w (i + 1) < wordSize :=
    (Nat.add_le_add_left (Nat.mul_le_mul_left w hi) ENTRY_SIZE).trans_lt hsmall
  show (UInt8.ofNat (chainDir w (i + 1))).toNat + 256 * (UInt8.ofNat (chainDir w (i + 1) / 256)).toNat +
    65536 * (UInt8.ofNat (chainDir w (i + 1) / 65536)).toNat +
      16777216 * (UInt8.ofNat (chainDir w (i + 1) / 16777216)).toNat = _
  generalize chainDir w (i + 1) = x at hlt
  simp only [UInt8.toNat_ofNat', wordSize] at *
  omega

end

theorem chain_name (hi : i < l.length) (hz : (0 : UInt8) ∉ l[i]) (hlen : 24 + l[i].length < w) (hw : w < wordSize) :
    cstring (chainImage w l type) (entryName (dirEntryAt (chainDir w i) 0)) = .ok l[i] := by
  apply cstringLoop_eq l[i] (by omega) hz
  intro j hj
  have haddr : entryName (dirEntryAt (chainDir w i) 0) + j = chainDir w i + (24 + j) := by
    simp only [entryName, dirEntryAt]
    omega
  rw [haddr, chainImage_at l type i (by omega), List.getElem?_eq_getElem hi]
  simp only
  rw [if_neg (by omega), if_neg (by omega), if_neg (by omega), if_neg (by omega), if_neg (by omega),
    if_neg (by omega), if_pos (by omega), Nat.add_sub_cancel_left]

/-- Names that fit the tables. -/
structure Chained (w : ℕ) (l : List (List UInt8)) : Prop where
  wide : ROW ≤ w
  word : w < wordSize
  small : chainDir w l.length < wordSize
  names : ∀ name ∈ l, (0 : UInt8) ∉ name ∧ 24 + name.length < w

theorem chain_lookup (hl : Chained w l) (hi : i < l.length) (name : List UInt8) :
    lookup (chainImage w l type) (chainDir w i) name =
      .ok (if l[i] = name then some (dirEntryAt (chainDir w i) 0) else none) := by
  obtain ⟨hz, hlen⟩ := hl.names _ (List.getElem_mem hi)
  unfold lookup
  rw [chain_count hl.wide hi]
  unfold lookupLoop
  rw [chain_name hi hz hlen hl.word, ok_bind]
  split_ifs
  · rfl
  · rfl

theorem chain_lookup_end (hw : ROW ≤ w) (name : List UInt8) :
    lookup (chainImage w l type) (chainDir w l.length) name = .ok none := by
  unfold lookup
  rw [chain_count_end hw]
  rfl

theorem chainEntry_inj (hw : ROW ≤ w) {i j : ℕ} (h : chainEntry w i = chainEntry w j) : i = j := by
  have hpos : 0 < w := lt_of_lt_of_le (by decide) hw
  cases i with
  | zero =>
    cases j with
    | zero => rfl
    | succ j =>
      simp only [chainEntry, dirEntryAt, chainDir] at h
      omega
  | succ i =>
    cases j with
    | zero =>
      simp only [chainEntry, dirEntryAt, chainDir] at h
      omega
    | succ j =>
      simp only [chainEntry, dirEntryAt, chainDir] at h
      have heq : w * i = w * j := by omega
      rw [Nat.eq_of_mul_eq_mul_left hpos heq]

theorem chain_isDir (hw : ROW ≤ w) (hi : i < l.length) :
    entryType (chainImage w l 1) (dirEntryAt (chainDir w i) 0) = TYPE_DIR := by
  rw [chain_type hw hi]
  split_ifs
  · rfl
  · rfl

/-- **What is found** on a chain. -/
theorem walk_chain_found (hl : Chained w l) (slash : Bool) {entry : ℕ} (cs : List (List UInt8))
    (hi : i ≤ l.length) : walk (chainImage w l 1) slash cs (chainEntry w i) (chainDir w i) = .ok (.ok entry) ↔
      cs <+: l.drop i ∧ entry = chainEntry w (i + cs.length) := by
  induction cs generalizing i with
  | nil =>
    unfold walk
    rw [Except.ok.injEq, Except.ok.injEq]
    exact ⟨fun h => ⟨List.nil_prefix, h.symm⟩, fun h => h.2.symm⟩
  | cons c cs ih =>
    unfold walk
    by_cases hend : i = l.length
    · rw [hend, chain_lookup_end hl.wide, List.drop_length]
      constructor
      · intro h
        cases h
      · rintro ⟨h, -⟩
        cases List.prefix_nil.mp h
    · have hlt : i < l.length := by omega
      rw [chain_lookup hl hlt, ok_bind, List.drop_eq_getElem_cons hlt, List.cons_prefix_cons]
      by_cases hc : l[i] = c
      · simp only [if_pos hc, if_pos (chain_isDir hl.wide hlt)]
        rw [chain_location hl.wide hlt hl.small, List.length_cons, show i + (cs.length + 1) = i + 1 + cs.length by omega]
        refine (ih (i := i + 1) hlt).trans ?_
        exact ⟨fun h => ⟨⟨hc.symm, h.1⟩, h.2⟩, fun h => ⟨h.1.2, h.2⟩⟩
      · simp only [if_neg hc]
        constructor
        · intro h
          cases h
        · rintro ⟨⟨h, -⟩, -⟩
          exact absurd h.symm hc

/-- **Only the path itself** leads to the end of a chain. -/
theorem walk_chain_iff (hl : Chained w l) (slash : Bool) (cs : List (List UInt8)) (hi : i ≤ l.length) :
    walk (chainImage w l 1) slash cs (chainEntry w i) (chainDir w i) = .ok (.ok (chainEntry w l.length)) ↔
      cs = l.drop i := by
  rw [walk_chain_found hl slash cs hi]
  constructor
  · rintro ⟨hfront, hentry⟩
    have hlen := chainEntry_inj hl.wide hentry
    exact hfront.eq_of_length (by rw [List.length_drop]; omega)
  · rintro rfl
    refine ⟨List.prefix_rfl, ?_⟩
    rw [List.length_drop, Nat.add_sub_cancel' hi]

/-- A chain that ends in a file does not lead behind it. -/
theorem walk_chain_file (hl : Chained w l) (slash : Bool) (n : ℕ) (hi : i + n + 1 = l.length) :
    walk (chainImage w l 0) slash (l.drop i) (chainEntry w i) (chainDir w i) =
      .ok (if slash then .error (-ENOENT) else .ok (chainEntry w l.length)) := by
  have hlt : i < l.length := by omega
  rw [List.drop_eq_getElem_cons hlt]
  unfold walk
  rw [chain_lookup hl hlt, ok_bind]
  simp only [if_true]
  induction n generalizing i with
  | zero =>
    have htype : ¬ entryType (chainImage w l 0) (dirEntryAt (chainDir w i) 0) = TYPE_DIR := by
      rw [chain_type hl.wide hlt, if_pos (by omega)]
      decide
    have hdrop : l.drop (i + 1) = [] := List.drop_eq_nil_of_le (by omega)
    rw [if_neg htype, hdrop]
    have hentry : dirEntryAt (chainDir w i) 0 = chainEntry w l.length := by
      rw [← hi]
      rfl
    cases slash with
    | true => rfl
    | false =>
      rw [hentry]
      rfl
  | succ n ih =>
    have htype : entryType (chainImage w l 0) (dirEntryAt (chainDir w i) 0) = TYPE_DIR := by
      rw [chain_type hl.wide hlt, if_neg (by omega)]
    rw [if_pos htype, chain_location hl.wide hlt hl.small]
    have hlt' : i + 1 < l.length := by omega
    rw [List.drop_eq_getElem_cons hlt']
    unfold walk
    rw [chain_lookup hl hlt', ok_bind]
    simp only [if_true]
    exact ih (by omega) hlt'

end Chain

/-! ### The two ways -/

variable {k k' : State} {p path : ℕ} {text : List UInt8}

/-- How `execve` finds its file. -/
def execLookup (fs : Memory) (p filename : ℕ) : K (Except ℤ ℕ) := do
  let path ← userString p filename
  lift (getDirectoryEntry fs path)

theorem execEntry_eq (fs : Memory) (p filename argv : ℕ) (r : Regs) :
    execEntry fs p filename argv r = (do
      let found ← execLookup fs p filename
      match found with
      | .error e => return (e, r)
      | .ok entry =>
        if entryType fs entry = TYPE_DIR then return (-EISDIR, r)
        else do
          let args ← argStrings p argv
          execProgram fs p entry args) := by
  unfold execEntry execLookup
  exact (bind_assoc _ _ _).symm

/-- The entry that `execve` loads, or the error that it returns. -/
def Loads (fs : Memory) (k : State) (p path : ℕ) (found : Except ℤ ℕ) : Prop :=
  ∃ k', execLookup fs p path k = .ok found k'

/-- The entry that `open` and `stat` work on, or the error that they return. -/
def Resolves (fs : Memory) (k : State) (p path : ℕ) (found : Except ℤ ℕ) : Prop :=
  ∃ abs k', findEntry fs p path k = .ok (abs, found) k'

/-- On every file system, the path leads `execve` to the entry that it leads `open` and `stat` to. -/
def Agrees (k : State) (p path : ℕ) : Prop :=
  ∀ fs found, Loads fs k p path found ↔ Resolves fs k p path found

/-- The path is absolute or the working directory is the root, no component is `.` or `..`, and nothing follows the
last component. -/
structure Plain (base rel : List UInt8) : Prop where
  start : IsAbsolute rel ∨ components base = []
  dots : DotFree rel
  slash : components rel = [] ∨ rel.getLast? ≠ some (char '/')

/-- A working directory: an absolute path in which `.` and `..` have been resolved. -/
structure IsDirectory (path : List UInt8) : Prop where
  absolute : IsAbsolute path
  dots : DotFree path
  string : (0 : UInt8) ∉ path

theorem lift_ok {α : Type} {x : Except Fault α} {a : α} : (∃ k', lift x k = .ok a k') ↔ x = .ok a := by
  cases x with
  | error e =>
    constructor
    · rintro ⟨k', h⟩
      cases h
    · intro h
      cases h
  | ok b =>
    constructor
    · rintro ⟨k', h⟩
      cases h
      rfl
    · intro h
      cases h
      exact ⟨k, rfl⟩

/-- A string that has been read holds no NUL, and reading it changes nothing but the log. -/
theorem userStringLoop_text (fuel len : ℕ) (h : userStringLoop p path fuel len k = .ok text k') :
    (0 : UInt8) ∉ text ∧ k'.cwd = k.cwd := by
  obtain ⟨hs, hl⟩ := userStringLoop_inv h
  have hcwd : k'.unlogged.cwd = k.unlogged.cwd := congrArg State.cwd hl
  exact ⟨hs.1, hcwd⟩

theorem loads_iff {fs : Memory} {found : Except ℤ ℕ} (h : userString p path k = .ok text k') :
    Loads fs k p path found ↔ getDirectoryEntry fs text = .ok found := by
  unfold Loads execLookup
  rw [run_bind h]
  exact lift_ok

theorem resolves_iff {fs : Memory} {found : Except ℤ ℕ} (h : userString p path k = .ok text k') :
    Resolves fs k p path found ↔
      getDirectoryEntry fs (relativeToAbsolute (k.cwd p) text PATH_MAX) = .ok found := by
  have hcwd : k'.cwd = k.cwd := (userStringLoop_text _ _ h).2
  unfold Resolves findEntry
  rw [run_bind h]
  simp only [run_get, hcwd]
  rw [← lift_ok (k := k')]
  constructor
  · rintro ⟨abs, k₁, hok⟩
    obtain ⟨x, k₂, hx, hpure⟩ := bind_ok hok
    cases hpure
    exact ⟨_, hx⟩
  · rintro ⟨k₁, hx⟩
    exact ⟨_, k₁, run_bind hx⟩

/-- The components of an absolute path make a chain. -/
theorem chained_components {path : List UInt8} (hlen : path.length < PATH_MAX) (hz : (0 : UInt8) ∉ path) :
    Chained STRIDE (components path) := by
  obtain ⟨hcount, hnames⟩ := components_size path
  simp only [PATH_MAX] at hlen
  refine ⟨by decide, by decide, ?_, ?_⟩
  · simp only [chainDir, ENTRY_SIZE, STRIDE, wordSize]
    omega
  · intro name hname
    have := hnames name hname
    exact ⟨fun hmem => hz (mem_of_mem_components hname hmem), by simp only [STRIDE]; omega⟩

theorem getDirectoryEntry_chain (w : ℕ) (l : List (List UInt8)) (type : UInt8) (path : List UInt8) :
    getDirectoryEntry (chainImage w l type) path =
      walk (chainImage w l type) (path.getLast? = some (char '/')) (components path) (chainEntry w 0)
        (chainDir w 0) := by
  unfold getDirectoryEntry
  rw [chain_root]
  rfl

/-- **Plain paths** are looked up in the same way. -/
theorem Plain.getDirectoryEntry {base rel : List UInt8} (h : Plain base rel) (hbase : IsAbsolute base)
    (hfit : Untruncated base rel) (fs : Memory) :
    Kernel.getDirectoryEntry fs rel = Kernel.getDirectoryEntry fs (relativeToAbsolute base rel PATH_MAX) := by
  have hstart : components (startPath base rel) = [] := by
    unfold startPath
    split_ifs with hrel
    · rfl
    · exact h.start.resolve_left hrel
  have hcomp := components_relativeToAbsolute hfit h.dots
  rw [hstart, List.nil_append] at hcomp
  unfold Kernel.getDirectoryEntry
  rw [hcomp]
  rcases h.slash with hnil | hslash
  · rw [hnil]
    rfl
  · by_cases hnil : components rel = []
    · rw [hnil]
      rfl
    · have hlast := getLast_relativeToAbsolute hfit hbase h.dots hnil
      rw [decide_eq_false hslash, decide_eq_false hlast]

/-- A path that is looked up in the same way on every chain is plain. -/
theorem plain_of_chains {base rel : List UInt8} (hbase : IsDirectory base) (hrel : (0 : UInt8) ∉ rel)
    (hfit : Untruncated base rel)
    (h : ∀ l type found, getDirectoryEntry (chainImage STRIDE l type) rel = .ok found ↔
      getDirectoryEntry (chainImage STRIDE l type) (relativeToAbsolute base rel PATH_MAX) = .ok found) :
    Plain base rel := by
  have hz := not_mem_relativeToAbsolute hfit (by decide) hbase.absolute hbase.string hrel
  have hchain : Chained STRIDE (components (relativeToAbsolute base rel PATH_MAX)) :=
    chained_components (length_relativeToAbsolute hbase.absolute) hz
  -- the chain of the absolute path tells other components apart
  have hcomp : components rel = components (relativeToAbsolute base rel PATH_MAX) := by
    have hself := (walk_chain_iff hchain
      (decide ((relativeToAbsolute base rel PATH_MAX).getLast? = some (char '/'))) _ (Nat.zero_le _)).mpr
      (List.drop_zero).symm
    rw [← getDirectoryEntry_chain, ← h, getDirectoryEntry_chain, walk_chain_iff hchain _ _ (Nat.zero_le _)] at hself
    rw [hself, List.drop_zero]
  have hdots : DotFree rel := by
    intro name hname
    rw [hcomp] at hname
    exact dotFree_relativeToAbsolute hfit hbase.absolute hbase.dots name hname
  refine ⟨?_, hdots, ?_⟩
  · by_cases habs : IsAbsolute rel
    · exact Or.inl habs
    · right
      have happ := components_relativeToAbsolute hfit hdots
      rw [← hcomp] at happ
      unfold startPath at happ
      rw [if_neg habs] at happ
      exact List.self_eq_append_left.mp happ
  · by_cases hnil : components rel = []
    · exact Or.inl hnil
    · right
      intro hslash
      have hlast := getLast_relativeToAbsolute hfit hbase.absolute hdots hnil
      rw [← hcomp] at hchain
      -- behind a file, the slash makes the difference
      have hpos : 0 + ((components rel).length - 1) + 1 = (components rel).length := by
        have := List.length_pos_of_ne_nil hnil
        omega
      have hfile := (h (components rel) 0 (.error (-ENOENT))).mp (by
        rw [getDirectoryEntry_chain, decide_eq_true hslash]
        exact walk_chain_file hchain true _ hpos)
      have hfound : getDirectoryEntry (chainImage STRIDE (components rel) 0) (relativeToAbsolute base rel PATH_MAX) =
          .ok (.ok (chainEntry STRIDE (components rel).length)) := by
        rw [getDirectoryEntry_chain, decide_eq_false hlast, ← hcomp]
        exact walk_chain_file hchain false _ hpos
      rw [hfound] at hfile
      cases hfile

/-- **`execve` agrees with `open` and `stat`** on a path exactly if the path is absolute or the working directory is
the root, no component is `.` or `..`, and the path does not end in a slash. -/
theorem execve_path_iff (hcwd : IsDirectory (k.cwd p)) (htext : userString p path k = .ok text k')
    (hfit : Untruncated (k.cwd p) text) : Agrees k p path ↔ Plain (k.cwd p) text := by
  constructor
  · intro h
    refine plain_of_chains hcwd (userStringLoop_text _ _ htext).1 hfit ?_
    intro l type found
    rw [← loads_iff htext, ← resolves_iff htext]
    exact h _ _
  · intro h fs found
    rw [loads_iff htext, resolves_iff htext, h.getDirectoryEntry hcwd.absolute hfit]

/-! ### Paths in the root directory -/

theorem isDirectory_root : IsDirectory [char '/'] := ⟨rfl, dotFree_slash, by decide⟩

/-- A process at the root stores a string on its stack. -/
theorem run_string (text : List UInt8) (hz : (0 : UInt8) ∉ text) (hlen : text.length < PROCESS_STACK_SIZE) :
    ∃ n B k k', Run Machine.bare (fun n k i => i.Fair n k ∧ i.Modest) n B k ∧ k.cwd 1 = [char '/'] ∧
      userString 1 (PROCESS_STACK_BASE - PROCESS_STACK_SIZE) k = .ok text k' := by
  obtain ⟨n, B, k, h, hmap, hp, hcwd, -, hstr, htext⟩ := run_text Machine.bare text hz hlen
  obtain ⟨forked, asp, hsafe⟩ := id hmap
  obtain ⟨text', k', hok, -⟩ := userString_ok (hsafe.sound hp) (by decide) hstr
  obtain rfl : text = text' := htext.unique (userString_inv (by decide) hok).1
  exact ⟨n, B, k, k', h, hcwd, hok⟩

/-- The path `.` leads `stat` to the root directory and `execve` nowhere. -/
theorem execve_dot :
    ∃ n B k, Run Machine.bare (fun n k i => i.Fair n k ∧ i.Modest) n B k ∧
      ¬ Agrees k 1 (PROCESS_STACK_BASE - PROCESS_STACK_SIZE) := by
  obtain ⟨n, B, k, k', h, hcwd, htext⟩ := run_string [char '.'] (by decide) (by decide)
  refine ⟨n, B, k, h, ?_⟩
  intro hagree
  have hload : Loads (chainImage STRIDE [] 1) k 1 (PROCESS_STACK_BASE - PROCESS_STACK_SIZE) (.error (-ENOENT)) := by
    rw [loads_iff htext]
    decide +kernel
  rw [hagree, resolves_iff htext, hcwd] at hload
  have hroot : getDirectoryEntry (chainImage STRIDE [] 1) (relativeToAbsolute [char '/'] [char '.'] PATH_MAX) =
      .ok (.ok 0) := by
    decide +kernel
  rw [hroot] at hload
  cases hload

/-- The path `/bin/sh`. -/
def shellPath : List UInt8 := [char '/', char 'b', char 'i', char 'n', char '/', char 's', char 'h']

theorem untruncated_shellPath : Untruncated [char '/'] shellPath := by
  intro max hmax
  show (components shellPath).foldl (applyComponent max) [char '/'] = (components shellPath).foldl _ [char '/']
  exact foldl_applyComponent_max _ rfl (by decide) hmax

/-- The path `/bin/sh` leads both to the same entry. -/
theorem execve_program :
    ∃ n B k, Run Machine.bare (fun n k i => i.Fair n k ∧ i.Modest) n B k ∧ Plain (k.cwd 1) shellPath ∧
      (Agrees k 1 (PROCESS_STACK_BASE - PROCESS_STACK_SIZE) ↔ Plain (k.cwd 1) shellPath) := by
  obtain ⟨n, B, k, k', h, hcwd, htext⟩ := run_string shellPath (by decide) (by decide)
  refine ⟨n, B, k, h, ⟨Or.inl rfl, ?_, Or.inr (by decide)⟩, execve_path_iff ?_ htext ?_⟩
  · intro name hname
    have hcases : name = [char 'b', char 'i', char 'n'] ∨ name = [char 's', char 'h'] := by
      simpa [show components shellPath = [[char 'b', char 'i', char 'n'], [char 's', char 'h']] by decide] using hname
    rcases hcases with rfl | rfl
    · exact fun hdots => hdots.elim (by decide) (by decide)
    · exact fun hdots => hdots.elim (by decide) (by decide)
  · rw [hcwd]
    exact isDirectory_root
  · rw [hcwd]
    exact untruncated_shellPath

end AdelaideOS.Kernel
