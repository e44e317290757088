import AdelaideOS.Image.Layout
import AdelaideOS.Kernel.Arguments

/-!
# Looking up a path in an image

In an image that shows a forest, `lookup` finds the row of a name and `get_directory_entry` that of a path.

* **`rows_of_table`** — what the rows of a table hold;
* **`lookup_ok`** — a name is found in its directory;
* **`walk_ok`**, **`getDirectoryEntry_ok`** — a path leads to its node.
-/

namespace AdelaideOS.Image

open AdelaideOS.Lib.Bytes AdelaideOS.Kernel

variable {M M' : Memory} {lo hi table a n i : ℕ} {f : Forest} {es : List Entry} {name : List UInt8}

/-! ### Nodes -/

/-- A file or a directory without its name. -/
inductive Node where
  | file (mode mtime : ℕ) (bytes : List UInt8)
  | dir (st : Stat) (children : Forest)

namespace Forest

/-- The node of the given name. -/
def find (name : List UInt8) : Forest → Option Node
  | nil => none
  | file name' mode mtime bytes rest => if name' = name then some (.file mode mtime bytes) else rest.find name
  | dir name' st children rest => if name' = name then some (.dir st children) else rest.find name

/-- The node that the names lead to, one directory after the other. -/
def get? : List (List UInt8) → Forest → Option Node
  | [], _ => none
  | [name], f => f.find name
  | name :: next :: names, f =>
    match f.find name with
    | some (.dir _ children) => children.get? (next :: names)
    | _ => none

theorem plain_of_find {node : Node} (hf : f.Named) (h : f.find name = some node) : Named.Plain name := by
  induction f with
  | nil => cases h
  | file name' mode mtime bytes rest ih =>
    unfold find at h
    split_ifs at h with he
    · exact he ▸ hf.1
    · exact ih hf.2.2 h
  | dir name' st children rest _ ih =>
    unfold find at h
    split_ifs at h with he
    · exact he ▸ hf.1
    · exact ih hf.2.2.2 h

theorem named_of_find {st : Stat} {children : Forest} (hf : f.Named) (h : f.find name = some (.dir st children)) :
    children.Named := by
  induction f with
  | nil => cases h
  | file name' mode mtime bytes rest ih =>
    unfold find at h
    split_ifs at h with he
    · cases h
    · exact ih hf.2.2 h
  | dir name' st' children' rest _ ih =>
    unfold find at h
    split_ifs at h with he
    · cases h
      exact hf.2.2.1
    · exact ih hf.2.2.2 h

end Forest

/-- The row at `e` describes the node, and leads to its contents. -/
def Node.Shown (M : Memory) (lo hi : ℕ) (e : ℕ) : Node → Prop
  | .file mode mtime bytes =>
    entryType M e = TYPE_FILE ∧ entryMode M e = mode % wordSize ∧ entryMtime M e = mtime % wordSize ∧
      entrySize M e = bytes.length ∧ bytes.length < LIMIT ∧ loadBytes M (entryLocation M e) bytes.length = bytes
  | .dir st children =>
    entryType M e = TYPE_DIR ∧ entryMode M e = st.mode % wordSize ∧ entryMtime M e = st.mtime % wordSize ∧
      children.Shows M lo hi (entryLocation M e)

/-! ### Rows -/

/-- Bytes in the middle of a range. -/
theorem loadBytes_middle (xs : List UInt8) {ys : List UInt8} (zs : List UInt8) (h : loadBytes M a n = xs ++ ys ++ zs) :
    loadBytes M (a + xs.length) ys.length = ys := by
  have hn : n = xs.length + ys.length + zs.length := by
    rw [← List.length_append, ← List.length_append, ← h, loadBytes_length]
  rw [hn, loadBytes_add, loadBytes_add] at h
  have hxy := (List.append_inj h (by
    rw [List.length_append, List.length_append, loadBytes_length, loadBytes_length])).1
  exact (List.append_inj hxy (loadBytes_length _ _ _)).2

theorem readWord_eq (M : Memory) (a : ℕ) : readWord M a = wordOf (loadBytes M a 4) := rfl

theorem readWord_of_loadBytes {w : ℕ} (xs zs : List UInt8) (h : loadBytes M a n = xs ++ wordBytes w ++ zs) :
    readWord M (a + xs.length) = w % wordSize := by
  have hword : loadBytes M (a + xs.length) 4 = wordBytes w := loadBytes_middle xs zs h
  rw [readWord_eq, hword, wordOf_wordBytes]

/-- The fields of a row. -/
theorem fields_of_bytes {e : Entry} (h : loadBytes M a n = e.bytes) :
    entrySize M a = e.size % wordSize ∧ entryType M a = e.type % wordSize ∧
      entryLocation M a = e.location % wordSize ∧ entryMode M a = e.mode % wordSize ∧
      entryMtime M a = e.mtime % wordSize ∧ loadBytes M (entryName a) e.name.length = e.name := by
  unfold Entry.bytes at h
  have hsize := readWord_of_loadBytes (a := a) (n := n) (w := e.size) []
    (wordBytes e.type ++ wordBytes e.location ++ wordBytes e.mode ++ wordBytes e.mtime ++ e.name) (by
      rw [h]
      simp only [List.append_assoc, List.nil_append])
  have htype := readWord_of_loadBytes (a := a) (n := n) (w := e.type) (wordBytes e.size)
    (wordBytes e.location ++ wordBytes e.mode ++ wordBytes e.mtime ++ e.name) (by
      rw [h]
      simp only [List.append_assoc])
  have hloc := readWord_of_loadBytes (a := a) (n := n) (w := e.location) (wordBytes e.size ++ wordBytes e.type)
    (wordBytes e.mode ++ wordBytes e.mtime ++ e.name) (by
      rw [h]
      simp only [List.append_assoc])
  have hmode := readWord_of_loadBytes (a := a) (n := n) (w := e.mode)
    (wordBytes e.size ++ wordBytes e.type ++ wordBytes e.location) (wordBytes e.mtime ++ e.name) (by
      rw [h]
      simp only [List.append_assoc])
  have hmtime := readWord_of_loadBytes (wordBytes e.size ++ wordBytes e.type ++ wordBytes e.location ++
    wordBytes e.mode) e.name h
  have hname := loadBytes_middle (wordBytes e.size ++ wordBytes e.type ++ wordBytes e.location ++ wordBytes e.mode ++
    wordBytes e.mtime) [] (h.trans (List.append_nil _).symm)
  exact ⟨hsize, htype, hloc, hmode, hmtime, hname⟩

/-- The name of a row as a C string. -/
theorem cstring_of_field {c : UInt8} (hload : loadBytes M a 256 = strncpy name MAX_FILENAME_LEN ++ [c])
    (hplain : Forest.Named.Plain name) : cstring M a = .ok name := by
  obtain ⟨-, hlen, -, hz, -⟩ := hplain
  refine cstringLoop_eq name (hlen.trans_lt (by decide)) hz ?_
  intro j hj
  have hfit : name.take MAX_FILENAME_LEN = name := List.take_of_length_le (by simp only [MAX_FILENAME_LEN]; omega)
  have hbyte : (loadBytes M a 256)[j]? = some (M (a + j)) := by
    unfold loadBytes
    rw [List.getElem?_map, List.getElem?_range (by omega), Option.map_some]
  rw [hload, strncpy, hfit, List.append_assoc] at hbyte
  rcases Nat.lt_or_eq_of_le hj with hlt | rfl
  · rw [List.getElem?_append_left hlt, List.getElem?_eq_getElem hlt] at hbyte
    rw [List.getD_eq_getElem _ _ hlt]
    exact (Option.some.inj hbyte).symm
  · obtain ⟨r, hr⟩ : ∃ r, MAX_FILENAME_LEN - name.length = r + 1 := ⟨254 - name.length, by
      simp only [MAX_FILENAME_LEN]
      omega⟩
    rw [List.getElem?_append_right (Nat.le_refl _), Nat.sub_self, hr, List.replicate_succ, List.cons_append] at hbyte
    rw [List.getD_eq_default _ _ (Nat.le_refl _)]
    exact (Option.some.inj hbyte).symm

/-- The rows from number `i` on in the table are `es`. -/
def RowsAt (M : Memory) (table i : ℕ) (es : List Entry) : Prop :=
  ∀ j e, es[j]? = some e → loadBytes M (dirEntryAt table (i + j)) ENTRY_SIZE = e.bytes

theorem RowsAt.head {e : Entry} (h : RowsAt M table i (e :: es)) :
    loadBytes M (dirEntryAt table i) ENTRY_SIZE = e.bytes := h 0 e rfl

theorem RowsAt.tail {e : Entry} (h : RowsAt M table i (e :: es)) : RowsAt M table (i + 1) es := by
  intro j e' he'
  rw [show i + 1 + j = i + (j + 1) by omega]
  exact h (j + 1) e' he'

/-- **What the rows of a table hold.** -/
theorem rows_of_table (h : loadBytes M table n = tableBytes es) (hwidth : ∀ e ∈ es, e.name.length = 256) :
    dirCount M table = es.length % wordSize ∧ RowsAt M table 0 es := by
  constructor
  · exact readWord_of_loadBytes [] (es.flatMap Entry.bytes) h
  · intro j e he
    obtain ⟨hj, hget⟩ := List.getElem?_eq_some_iff.mp he
    have hsplit : es = es.take j ++ e :: es.drop (j + 1) := by
      rw [← hget, List.getElem_cons_drop, List.take_append_drop]
    have hbefore : (tableBytes (es.take j)).length = 4 + ENTRY_SIZE * j := by
      rw [tableBytes_length fun x hx => hwidth x (List.mem_of_mem_take hx), List.length_take, Nat.min_eq_left hj.le]
    have hlen : e.bytes.length = ENTRY_SIZE := by
      rw [Entry.bytes_length, hwidth e (List.mem_of_getElem? he)]
    have hmiddle : loadBytes M table n = (wordBytes es.length ++ (es.take j).flatMap Entry.bytes) ++ e.bytes ++
        (es.drop (j + 1)).flatMap Entry.bytes := by
      rw [h, tableBytes]
      conv_lhs => rw [hsplit]
      rw [List.flatMap_append, List.flatMap_cons, ← hsplit]
      simp only [List.append_assoc]
    have hload := loadBytes_middle _ _ hmiddle
    rw [hlen] at hload
    have hoff : dirEntryAt table (0 + j) = table + (wordBytes es.length ++ (es.take j).flatMap Entry.bytes).length := by
      rw [List.length_append]
      rw [tableBytes, List.length_append] at hbefore
      unfold dirEntryAt
      rw [Nat.zero_add]
      simp only [wordBytes, List.length_cons, List.length_nil] at hbefore ⊢
      omega
    rw [hoff]
    exact hload

/-! ### Names -/

/-- A row that is written out in memory. -/
theorem shown_row {e : Entry} {c : UInt8} (hload : loadBytes M a ENTRY_SIZE = e.bytes)
    (hname : e.name = strncpy name MAX_FILENAME_LEN ++ [c]) (hplain : Forest.Named.Plain name) :
    cstring M (entryName a) = .ok name ∧ entrySize M a = e.size % wordSize ∧ entryType M a = e.type % wordSize ∧
      entryLocation M a = e.location % wordSize ∧ entryMode M a = e.mode % wordSize ∧
      entryMtime M a = e.mtime % wordSize := by
  obtain ⟨hsize, htype, hloc, hmode, hmtime, hfield⟩ := fields_of_bytes hload
  have hwidth : e.name.length = 256 := by
    rw [hname, List.length_append, strncpy_length]
    rfl
  rw [hwidth, hname] at hfield
  exact ⟨cstring_of_field hfield hplain, hsize, htype, hloc, hmode, hmtime⟩

/-- One round of `lookup`. -/
theorem lookupLoop_succ {s : List UInt8} (h : cstring M (entryName (dirEntryAt table i)) = .ok s) (n : ℕ) :
    lookupLoop M table name (n + 1) i =
      if s = name then .ok (some (dirEntryAt table i)) else lookupLoop M table name n (i + 1) := by
  show (cstring M (entryName (dirEntryAt table i)) >>= _) = _
  rw [h]
  rfl

theorem lookupLoop_ok {node : Node} (hhi : hi < LIMIT) (hfilled : f.Filled M lo hi es) (hnamed : f.Named)
    (hfind : f.find name = some node) (hrows : RowsAt M table i es) :
    ∃ e, lookupLoop M table name es.length i = .ok (some e) ∧ node.Shown M lo hi e := by
  have hmod : ∀ {x}, x ≤ hi → x % wordSize = x := fun hx => Nat.mod_eq_of_lt (hx.trans_lt (hhi.trans (by decide)))
  induction f generalizing es i with
  | nil => cases hfind
  | file name' mode mtime bytes rest ih =>
    obtain ⟨loc, c, es', rfl, hlo, hend, hbytes, hrest⟩ := hfilled
    obtain ⟨hcstr, hsize, htype, hloc, hmode, hmtime⟩ := shown_row hrows.head rfl hnamed.1
    have hle : loc ≤ hi := (Nat.le_add_right _ _).trans hend
    unfold Forest.find at hfind
    rw [List.length_cons, lookupLoop_succ hcstr]
    by_cases he : name' = name
    · rw [if_pos he] at hfind ⊢
      obtain rfl := Option.some.inj hfind
      refine ⟨_, rfl, htype, ?_, ?_, ?_, by omega, ?_⟩
      · exact hmode.trans (Nat.mod_mod _ _)
      · exact hmtime.trans (Nat.mod_mod _ _)
      · exact (hsize.trans (Nat.mod_mod _ _)).trans (hmod (by omega))
      · rw [show entryLocation M (dirEntryAt table i) = loc from hloc.trans (hmod hle)]
        exact hbytes
    · rw [if_neg he] at hfind ⊢
      exact ih hrest hnamed.2.2 hfind hrows.tail
  | dir name' st children rest _ ih =>
    obtain ⟨loc, c, es', sub, rfl, hlo, hend, hbytes, hchildren, hrest⟩ := hfilled
    obtain ⟨hcstr, hsize, htype, hloc, hmode, hmtime⟩ := shown_row hrows.head rfl hnamed.1
    have hle : loc ≤ hi := (Nat.le_add_right _ _).trans hend
    unfold Forest.find at hfind
    rw [List.length_cons, lookupLoop_succ hcstr]
    by_cases he : name' = name
    · rw [if_pos he] at hfind ⊢
      obtain rfl := Option.some.inj hfind
      refine ⟨_, rfl, htype, hmode.trans (Nat.mod_mod _ _), hmtime.trans (Nat.mod_mod _ _), ?_⟩
      rw [show entryLocation M (dirEntryAt table i) = loc from hloc.trans (hmod hle)]
      exact ⟨sub, hlo, hend, hbytes, hchildren⟩
    · rw [if_neg he] at hfind ⊢
      exact ih hrest hnamed.2.2.2 hfind hrows.tail

/-- **A name is found** in its directory. -/
theorem lookup_ok {node : Node} (hhi : hi < LIMIT) (h : f.Shows M lo hi table) (hnamed : f.Named)
    (hfind : f.find name = some node) : ∃ e, lookup M table name = .ok (some e) ∧ node.Shown M lo hi e := by
  obtain ⟨es, hlo, hend, hload, hfilled⟩ := h
  obtain ⟨hcount, hrows⟩ := rows_of_table hload fun e he => hfilled.name_length he
  have hlen := hfilled.length
  have hsmall : es.length < wordSize := by
    rw [hlen]
    simp only [LIMIT] at hhi
    simp only [wordSize, ENTRY_SIZE] at *
    omega
  unfold lookup
  rw [hcount, Nat.mod_eq_of_lt hsmall]
  exact lookupLoop_ok hhi hfilled hnamed hfind hrows

/-! ### Paths -/

/-- One step of a walk. -/
theorem walk_cons {e : ℕ} (h : lookup M table name = .ok (some e)) (names : List (List UInt8)) (entry : ℕ) :
    walk M false (name :: names) entry table =
      if entryType M e = TYPE_DIR then walk M false names e (entryLocation M e)
      else if names ≠ [] ∨ (false : Bool) = true then .ok (.error (-ENOENT)) else .ok (.ok e) := by
  show (lookup M table name >>= _) = _
  rw [h]
  rfl

/-- **A walk** along the names. -/
theorem walk_ok {node : Node} (names : List (List UInt8)) (hhi : hi < LIMIT) (h : f.Shows M lo hi table)
    (hnamed : f.Named) (hget : f.get? names = some node) (entry : ℕ) :
    ∃ e, walk M false names entry table = .ok (.ok e) ∧ node.Shown M lo hi e := by
  induction names generalizing f table entry with
  | nil => cases hget
  | cons name names ih =>
    cases names with
    | nil =>
      obtain ⟨e, hlook, hshown⟩ := lookup_ok hhi h hnamed hget
      refine ⟨e, ?_, hshown⟩
      rw [walk_cons hlook]
      by_cases htype : entryType M e = TYPE_DIR
      · rw [if_pos htype]
        rfl
      · rw [if_neg htype]
        exact if_neg (by simp)
    | cons next names =>
      unfold Forest.get? at hget
      split at hget
      · rename_i st children hfind
        obtain ⟨e, hlook, htype, -, -, hshows⟩ := lookup_ok hhi h hnamed hfind
        obtain ⟨e', hwalk, hshown⟩ := ih hshows (Forest.named_of_find hnamed hfind) hget e
        refine ⟨e', ?_, hshown⟩
        rw [walk_cons hlook, if_pos htype]
        exact hwalk
      · cases hget

/-- The path with the given names. -/
def joined (names : List (List UInt8)) : List UInt8 := names.flatMap fun name => char '/' :: name

theorem components_joined (names : List (List UInt8)) (h : ∀ name ∈ names, name ≠ [] ∧ char '/' ∉ name) :
    components (joined names) = names := by
  induction names with
  | nil => rfl
  | cons name names ih =>
    obtain ⟨hne, hs⟩ := h name List.mem_cons_self
    have hrest := ih fun x hx => h x (List.mem_cons_of_mem _ hx)
    have hsplit : components (name ++ joined names) = name :: components (joined names) := by
      cases names with
      | nil =>
        rw [joined, List.flatMap_nil, List.append_nil, components_nil]
        exact components_name hs hne
      | cons next names =>
        rw [joined, List.flatMap_cons, List.cons_append, components_append_slash, components_slash,
          components_name hs hne]
        rfl
    rw [joined, List.flatMap_cons, List.cons_append, components_slash]
    exact hsplit.trans (congrArg _ hrest)

theorem getLast_joined (names : List (List UInt8)) (hne : names ≠ []) (h : ∀ name ∈ names, name ≠ [] ∧ char '/' ∉ name) :
    (joined names).getLast? ≠ some (char '/') := by
  obtain ⟨before, last, rfl⟩ := names.eq_nil_or_concat.resolve_left hne
  obtain ⟨hlast, hs⟩ := h last (by simp)
  rw [joined, List.concat_eq_append, List.flatMap_append, List.flatMap_cons, List.flatMap_nil, List.append_nil,
    List.getLast?_append_of_ne_nil _ (List.cons_ne_nil _ _), List.getLast?_cons]
  intro he
  have hmem : last.getLast? = some (char '/') := by
    rw [List.getLast?_eq_getLast_of_ne_nil hlast] at he ⊢
    simpa using he
  exact hs (List.mem_of_getLast? hmem)

theorem Forest.plain_of_get {node : Node} (names : List (List UInt8)) (hnamed : f.Named) (hget : f.get? names = some node) :
    names ≠ [] ∧ ∀ name ∈ names, name ≠ [] ∧ char '/' ∉ name := by
  have hplain : ∀ {name : List UInt8}, Named.Plain name → name ≠ [] ∧ char '/' ∉ name := by
    rintro name ⟨hpos, -, hs, -⟩
    exact ⟨List.ne_nil_of_length_pos hpos, hs⟩
  induction names generalizing f with
  | nil => cases hget
  | cons name names ih =>
    refine ⟨List.cons_ne_nil _ _, ?_⟩
    cases names with
    | nil =>
      intro x hx
      rw [List.mem_singleton.mp hx]
      exact hplain (plain_of_find hnamed hget)
    | cons next names =>
      unfold Forest.get? at hget
      split at hget
      · rename_i st children hfind
        intro x hx
        rcases List.mem_cons.mp hx with rfl | hx
        · exact hplain (plain_of_find hnamed hfind)
        · exact (ih (named_of_find hnamed hfind) hget).2 x hx
      · cases hget

/-- **A path leads to its node.** -/
theorem getDirectoryEntry_ok {node : Node} (names : List (List UInt8)) (hhi : hi < LIMIT)
    (hroot : f.Shows M lo hi (entryLocation M 0)) (hnamed : f.Named) (hget : f.get? names = some node) :
    ∃ e, getDirectoryEntry M (joined names) = .ok (.ok e) ∧ node.Shown M lo hi e := by
  obtain ⟨hne, hplain⟩ := Forest.plain_of_get names hnamed hget
  obtain ⟨e, hwalk, hshown⟩ := walk_ok names hhi hroot hnamed hget 0
  refine ⟨e, ?_, hshown⟩
  unfold getDirectoryEntry
  rw [components_joined names hplain, decide_eq_false (getLast_joined names hne hplain)]
  exact hwalk

end AdelaideOS.Image
