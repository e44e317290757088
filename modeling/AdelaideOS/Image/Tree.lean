import AdelaideOS.Image.Reading
import AdelaideOS.Kernel.Scanning

/-!
# Paths in an image

`Depicts M table f` says that the table at `table` lists the forest `f`: the names of its files and directories in
order, and for each directory a table that lists its children.  Every image that the tool builds is of this form; the
names need not be ones that the tool lets through.

* **`lookup_depicts`** — `lookup` finds exactly the names of a table;
* **`walk_depicts`** — a walk goes where the tree goes;
* **`scan_accepts`** — `get_directory_entry` accepts exactly the paths of the tree.
-/

namespace AdelaideOS.Image

open AdelaideOS.Lib.Bytes AdelaideOS.Kernel

variable {M : Memory} {lo hi table entry i : ℕ} {f : Forest} {es : List Entry} {name path : List UInt8} {node : Node}

/-! ### Well-formed images -/

/-- Row `i` has the name, which is a name of the format and not that of a later row. -/
structure Titled (M : Memory) (table i : ℕ) (name : List UInt8) (rest : Forest) : Prop where
  string : cstring M (entryName (dirEntryAt table i)) = .ok name
  nonempty : name ≠ []
  length : name.length ≤ MAX_FILENAME_LEN
  slash : char '/' ∉ name
  once : name ∉ rest.names

namespace Forest

/-- The rows from number `i` on list the forest. -/
def Rows (M : Memory) : Forest → ℕ → ℕ → Prop
  | nil, _, _ => True
  | file name _ _ _ rest, table, i =>
    Titled M table i name rest ∧ entryType M (dirEntryAt table i) = TYPE_FILE ∧ rest.Rows M table (i + 1)
  | dir name _ children rest, table, i =>
    Titled M table i name rest ∧ entryType M (dirEntryAt table i) = TYPE_DIR ∧
      dirCount M (entryLocation M (dirEntryAt table i)) = children.names.length ∧
      children.Rows M (entryLocation M (dirEntryAt table i)) 0 ∧ rest.Rows M table (i + 1)

/-- The table lists the forest. -/
def Depicts (M : Memory) (table : ℕ) (f : Forest) : Prop :=
  dirCount M table = f.names.length ∧ f.Rows M table 0

/-- The entry and the node that the names lead to, one directory after the other. -/
def locate (M : Memory) : List (List UInt8) → Forest → ℕ → Option (ℕ × Node)
  | [], _, _ => none
  | [name], f, table => (f.find name).map fun node => (dirEntryAt table (f.names.idxOf name), node)
  | name :: next :: names, f, table =>
    match f.find name with
    | some (.dir _ children) =>
      children.locate M (next :: names) (entryLocation M (dirEntryAt table (f.names.idxOf name)))
    | _ => none

end Forest

/-- The row at `e` is of the kind of the node. -/
def Node.Rowed (M : Memory) (e : ℕ) : Node → Prop
  | .file _ _ _ => entryType M e = TYPE_FILE
  | .dir _ children => entryType M e = TYPE_DIR ∧ children.Depicts M (entryLocation M e)

/-! ### Lookup -/

theorem Forest.find_eq_none : f.find name = none ↔ name ∉ f.names := by
  induction f with
  | nil => simp [Forest.find, Forest.names]
  | file name' mode mtime bytes rest ih =>
    unfold Forest.find Forest.names
    by_cases he : name' = name
    · simp [he]
    · rw [if_neg he, ih, List.mem_cons, not_or]
      exact ⟨fun h => ⟨Ne.symm he, h⟩, fun h => h.2⟩
  | dir name' st children rest _ ih =>
    unfold Forest.find Forest.names
    by_cases he : name' = name
    · simp [he]
    · rw [if_neg he, ih, List.mem_cons, not_or]
      exact ⟨fun h => ⟨Ne.symm he, h⟩, fun h => h.2⟩

/-- The place of a name that is not the first. -/
theorem idxOf_later {name' : List UInt8} (he : name' ≠ name) (names : List (List UInt8)) (i : ℕ) :
    i + (name' :: names).idxOf name = i + 1 + names.idxOf name := by
  rw [List.idxOf_cons_ne _ he, Nat.succ_eq_add_one, Nat.add_comm _ 1, ← Nat.add_assoc]

/-- The search through the rows. -/
theorem lookupLoop_rows (h : f.Rows M table i) :
    lookupLoop M table name f.names.length i =
      .ok (if name ∈ f.names then some (dirEntryAt table (i + f.names.idxOf name)) else none) := by
  have hstep : ∀ {name' : List UInt8} {rest : Forest} {i : ℕ}, Titled M table i name' rest →
      lookupLoop M table name rest.names.length (i + 1) =
        .ok (if name ∈ rest.names then some (dirEntryAt table (i + 1 + rest.names.idxOf name)) else none) →
      lookupLoop M table name (rest.names.length + 1) i =
        .ok (if name ∈ name' :: rest.names then some (dirEntryAt table (i + (name' :: rest.names).idxOf name))
          else none) := by
    intro name' rest i ht hrest
    rw [lookupLoop_succ ht.string, hrest]
    by_cases he : name' = name
    · rw [if_pos he, he, if_pos List.mem_cons_self, List.idxOf_cons_self, Nat.add_zero]
    · rw [if_neg he, idxOf_later he]
      simp only [List.mem_cons, Ne.symm he, false_or]
  induction f generalizing i with
  | nil => rfl
  | file name' mode mtime bytes rest ih => exact hstep h.1 (ih h.2.2)
  | dir name' st children rest _ ih => exact hstep h.1 (ih h.2.2.2.2)

/-- **Lookup** finds exactly the names of a table. -/
theorem lookup_depicts (h : f.Depicts M table) (name : List UInt8) :
    lookup M table name =
      .ok (if name ∈ f.names then some (dirEntryAt table (f.names.idxOf name)) else none) := by
  unfold lookup
  rw [h.1, lookupLoop_rows h.2, Nat.zero_add]

theorem row_of_find (h : f.Rows M table i) (hfind : f.find name = some node) :
    node.Rowed M (dirEntryAt table (i + f.names.idxOf name)) := by
  induction f generalizing i with
  | nil => cases hfind
  | file name' mode mtime bytes rest ih =>
    unfold Forest.find at hfind
    unfold Forest.names
    by_cases he : name' = name
    · rw [if_pos he] at hfind
      obtain rfl := Option.some.inj hfind
      rw [he, List.idxOf_cons_self, Nat.add_zero]
      exact h.2.1
    · rw [if_neg he] at hfind
      rw [idxOf_later he]
      exact ih h.2.2 hfind
  | dir name' st children rest _ ih =>
    unfold Forest.find at hfind
    unfold Forest.names
    by_cases he : name' = name
    · rw [if_pos he] at hfind
      obtain rfl := Option.some.inj hfind
      rw [he, List.idxOf_cons_self, Nat.add_zero]
      exact ⟨h.2.1, h.2.2.1, h.2.2.2.1⟩
    · rw [if_neg he] at hfind
      rw [idxOf_later he]
      exact ih h.2.2.2.2 hfind

/-! ### Walks -/

/-- Where a path that goes on behind its last component may not end. -/
def Node.stops (slash : Bool) : Node → Bool
  | .file _ _ _ => !slash
  | .dir _ _ => true

/-- **A walk** goes where the names lead, and fails where they lead nowhere or the path goes on behind a file. -/
theorem walk_depicts (names : List (List UInt8)) (hne : names ≠ []) (slash : Bool) (h : f.Depicts M table)
    (entry : ℕ) :
    walk M slash names entry table =
      .ok (match f.locate M names table with
        | some (e, node) => if node.stops slash then .ok e else .error (-ENOENT)
        | none => .error (-ENOENT)) := by
  induction names generalizing f table entry with
  | nil => exact absurd rfl hne
  | cons name names ih =>
    unfold walk
    rw [lookup_depicts h, ok_bind]
    cases hfind : f.find name with
    | none =>
      have hlocate : f.locate M (name :: names) table = none := by
        cases names with
        | nil => simp [Forest.locate, hfind]
        | cons next names => simp [Forest.locate, hfind]
      rw [if_neg (Forest.find_eq_none.mp hfind), hlocate]
      rfl
    | some node =>
      have hmem : name ∈ f.names := by
        by_contra hno
        rw [Forest.find_eq_none.mpr hno] at hfind
        cases hfind
      have hrow := row_of_find h.2 hfind
      rw [Nat.zero_add] at hrow
      rw [if_pos hmem]
      cases node with
      | file mode mtime bytes =>
        have htype : ¬ entryType M (dirEntryAt table (f.names.idxOf name)) = TYPE_DIR := by
          rw [show entryType M (dirEntryAt table (f.names.idxOf name)) = TYPE_FILE from hrow]
          decide
        simp only [if_neg htype]
        cases names with
        | nil => cases slash <;> simp [Forest.locate, hfind, Node.stops] <;> rfl
        | cons next names => simp [Forest.locate, hfind]; rfl
      | dir st children =>
        simp only [if_pos hrow.1]
        cases names with
        | nil => simp [Forest.locate, hfind, Node.stops]; rfl
        | cons next names =>
          rw [ih (List.cons_ne_nil _ _) hrow.2]
          simp only [Forest.locate, hfind]

/-- The entry that a path denotes.  A path with nothing but slashes denotes the root; a path with something behind the
slash that follows a file denotes nothing. -/
def Denotes (M : Memory) (f : Forest) (path : List UInt8) (e : ℕ) : Prop :=
  components path = [] ∧ e = 0 ∨
  ∃ node, f.locate M (components path) (entryLocation M 0) = some (e, node) ∧
    (∀ mode mtime bytes, node = .file mode mtime bytes → path.getLast? ≠ some (char '/'))

theorem components_of_slashes (h : ∀ c ∈ path, c = char '/') : components path = [] := by
  induction path with
  | nil => rfl
  | cons c path ih =>
    rw [h c List.mem_cons_self, components_slash]
    exact ih fun x hx => h x (List.mem_cons_of_mem _ hx)

/-- **Path lookup.**  In every well-formed image `get_directory_entry` accepts exactly the paths of the tree, with the
entry that they denote, and answers `-ENOENT` to all others; paths of slashes only denote the root. -/
theorem scan_accepts (h : f.Depicts M (entryLocation M 0)) (hz : (0 : UInt8) ∉ path) :
    (∀ e, scanDirectoryEntry M path = .ok (.ok e) ↔ Denotes M f path e) ∧
    ((∀ e, ¬ Denotes M f path e) → scanDirectoryEntry M path = .ok (.error (-ENOENT))) ∧
    ((∀ c ∈ path, c = char '/') → scanDirectoryEntry M path = .ok (.ok 0)) := by
  rw [scanDirectoryEntry_eq M hz]
  unfold getDirectoryEntry Denotes
  by_cases hnil : components path = []
  · have hwalk : walk M (path.getLast? = some (char '/')) (components path) 0 (entryLocation M 0) = .ok (.ok 0) := by
      rw [hnil]
      rfl
    have hnone : f.locate M (components path) (entryLocation M 0) = none := by
      rw [hnil]
      rfl
    rw [hwalk, hnone]
    refine ⟨fun e => ?_, fun hno => absurd (Or.inl ⟨hnil, rfl⟩) (hno 0), fun _ => rfl⟩
    constructor
    · intro he
      exact Or.inl ⟨hnil, (Except.ok.inj (Except.ok.inj he)).symm⟩
    · rintro (⟨-, rfl⟩ | ⟨node, hnode, -⟩)
      · rfl
      · cases hnode
  · rw [walk_depicts _ hnil _ h]
    simp only [hnil, false_and, false_or]
    cases hloc : f.locate M (components path) (entryLocation M 0) with
    | none =>
      refine ⟨fun e => ?_, fun _ => rfl, fun hs => absurd (components_of_slashes hs) hnil⟩
      simp
    | some found =>
      obtain ⟨e', node⟩ := found
      cases node with
      | file mode mtime bytes =>
        by_cases hlast : path.getLast? = some (char '/')
        · refine ⟨fun e => ?_, fun _ => ?_, fun hs => absurd (components_of_slashes hs) hnil⟩
          · simp [Node.stops, hlast]
          · simp [Node.stops, hlast]
        · refine ⟨fun e => ?_, fun hno => ?_, fun hs => absurd (components_of_slashes hs) hnil⟩
          · simp [Node.stops, hlast]
          · exact absurd ⟨_, rfl, fun _ _ _ _ => hlast⟩ (hno e')
      | dir st children =>
        refine ⟨fun e => ?_, fun hno => ?_, fun hs => absurd (components_of_slashes hs) hnil⟩
        · simp [Node.stops]
        · exact absurd ⟨_, rfl, fun _ _ _ hfile => by cases hfile⟩ (hno e')

/-! ### Images that the tool builds -/

theorem titled_row {e : Entry} {c : UInt8} {rest : Forest}
    (hload : loadBytes M (dirEntryAt table i) ENTRY_SIZE = e.bytes)
    (hname : e.name = strncpy name MAX_FILENAME_LEN ++ [c]) (hplain : Forest.Named.Plain name)
    (honce : name ∉ rest.names) : Titled M table i name rest := by
  obtain ⟨hpos, hlen, hs, -, -⟩ := id hplain
  exact ⟨(shown_row hload hname hplain).1, List.ne_nil_of_length_pos hpos, hlen.trans (by decide), hs, honce⟩

theorem rows_of_filled (hhi : hi < LIMIT) (hfilled : f.Filled M lo hi es) (hnamed : f.Named)
    (hrows : RowsAt M table i es) : f.Rows M table i := by
  have hmod : ∀ {x}, x ≤ hi → x % wordSize = x := fun hx => Nat.mod_eq_of_lt (hx.trans_lt (hhi.trans (by decide)))
  induction f generalizing es table i with
  | nil => trivial
  | file name mode mtime bytes rest ih =>
    obtain ⟨loc, c, es', rfl, hlo, hend, hbytes, hrest⟩ := hfilled
    exact ⟨titled_row hrows.head rfl hnamed.1 hnamed.2.1, (shown_row hrows.head rfl hnamed.1).2.2.1,
      ih hrest hnamed.2.2 hrows.tail⟩
  | dir name st children rest ihc ih =>
    obtain ⟨loc, c, es', sub, rfl, hlo, hend, hbytes, hchildren, hrest⟩ := hfilled
    obtain ⟨-, -, htype, hloc, -, -⟩ := shown_row hrows.head rfl hnamed.1
    have hloc' : entryLocation M (dirEntryAt table i) = loc :=
      hloc.trans (hmod ((Nat.le_add_right _ _).trans hend))
    obtain ⟨hcount, hsub⟩ := rows_of_table hbytes fun e he => hchildren.name_length he
    have hlen := hchildren.length
    refine ⟨titled_row hrows.head rfl hnamed.1 hnamed.2.1, htype, ?_, ?_, ih hrest hnamed.2.2.2 hrows.tail⟩
    · rw [hloc', hcount, hlen, hmod]
      simp only [ENTRY_SIZE] at hend
      omega
    · rw [hloc']
      exact ihc hchildren hnamed.2.2.1 hsub

/-- **Built images** are well formed. -/
theorem depicts_of_shows (hhi : hi < LIMIT) (h : f.Shows M lo hi table) (hnamed : f.Named) : f.Depicts M table := by
  obtain ⟨es, hlo, hend, hload, hfilled⟩ := h
  obtain ⟨hcount, hrows⟩ := rows_of_table hload fun e he => hfilled.name_length he
  refine ⟨?_, rows_of_filled hhi hfilled hnamed hrows⟩
  rw [hcount, hfilled.length, Nat.mod_eq_of_lt]
  simp only [ENTRY_SIZE, LIMIT, wordSize] at *
  omega

/-- In the image of the sample, a slash behind a file denotes nothing, and a doubled slash is one. -/
theorem scan_accepts_sample :
    ∃ out, build sampleHost ⟨fun _ _ => 0, fun _ _ => 0, fun _ => 0⟩ 2 [char 'r'] = .ok out ∧
      scanDirectoryEntry out.data [char 'a', char '/'] = .ok (.error (-ENOENT)) ∧
      ∃ e, scanDirectoryEntry out.data [char 'b', char '/', char '/', char 'c'] = .ok (.ok e) := by
  obtain ⟨out, hbuild, hsize, hshows⟩ := build_shows ⟨fun _ _ => 0, fun _ _ => 0, fun _ => 0⟩ storable_sample
  have hdepicts : sampleForest.Depicts out.data (entryLocation out.data 0) :=
    depicts_of_shows (hsize ▸ storable_sample.small) (hshows out.data fun _ _ => rfl) storable_sample.named
  refine ⟨out, hbuild 2 (by decide), ?_,
    dirEntryAt (entryLocation out.data (dirEntryAt (entryLocation out.data 0) 1)) 0, ?_⟩
  · refine (scan_accepts hdepicts (by decide)).2.1 ?_
    rintro e (⟨hnil, -⟩ | ⟨node, hnode, hfile⟩)
    · exact absurd hnil (by decide)
    · cases hnode
      exact hfile _ _ _ rfl rfl
  · exact ((scan_accepts hdepicts (by decide)).1 _).mpr (.inr ⟨_, rfl, fun _ _ _ hfile => by cases hfile; decide⟩)

end AdelaideOS.Image
