import AdelaideOS.Image.Lookup

/-!
# Names in a built image

The first loop of `process_dir` copies each name of the host into a field of 256 bytes with a `strncpy` of 255, and
leaves the last byte as `malloc` or `realloc` left it.  A name of 255 bytes is then followed by that byte.

* **`collected`** — the rows after the first loop, for any directory of the host;
* **`name_terminated_iff`** — which names end inside of their field and are found by `lookup`.
-/

namespace AdelaideOS.Image

open AdelaideOS.Lib.Bytes AdelaideOS.Kernel

variable {host : Host} {g : Garbage} {path name : List UInt8} {names : List (List UInt8)} {M : Memory}
  {table a b i j n : ℕ} {es rows : List Entry} {out out' first : Output} {fuel : ℕ}

/-! ### The rows -/

/-- The names that get a row: those that are not skipped and belong to a file or a directory. -/
def kept (host : Host) (path : List UInt8) (names : List (List UInt8)) : List (List UInt8) :=
  names.filter fun name =>
    !ignoreFile name && ((host.stat (fullPath host path name)).any fun st => isDir st.mode || isReg st.mode)

/-- The field `name` of row `i`. -/
def nameField (g : Garbage) (path name : List UInt8) (i : ℕ) : List UInt8 :=
  strncpy name MAX_FILENAME_LEN ++ [g.name path i]

theorem nameField_length (g : Garbage) (path name : List UInt8) (i : ℕ) : (nameField g path name i).length = 256 := by
  rw [nameField, List.length_append, strncpy_length]
  rfl

/-- One round of the first loop. -/
theorem addEntry_names {entries : List Entry} (hok : addEntry host g path entries name = .ok es) :
    es.map Entry.name = entries.map Entry.name ++
      (kept host path [name]).mapIdx fun j name => nameField g path name (entries.length + j) := by
  unfold addEntry at hok
  unfold kept
  cases hign : ignoreFile name with
  | true =>
    rw [hign, if_pos rfl] at hok
    obtain rfl := Except.ok.inj hok
    simp [hign]
  | false =>
    rw [hign, if_neg (by decide)] at hok
    cases hstat : host.stat (fullPath host path name) with
    | none =>
      rw [hstat] at hok
      cases hok
    | some st =>
      rw [hstat] at hok
      simp only at hok
      by_cases htype : isDir st.mode ∨ isReg st.mode
      · rw [if_pos htype] at hok
        obtain rfl := Except.ok.inj hok
        have hany : (isDir st.mode || isReg st.mode) = true := by simpa using htype
        simp [hign, hstat, hany, newEntry, nameField]
      · rw [if_neg htype] at hok
        obtain rfl := Except.ok.inj hok
        have hany : (isDir st.mode || isReg st.mode) = false := by simpa using htype
        simp [hign, hstat, hany]

/-- **The first loop.** -/
theorem collected {entries : List Entry} (hok : names.foldlM (addEntry host g path) entries = .ok rows) :
    rows.map Entry.name = entries.map Entry.name ++
      (kept host path names).mapIdx fun j name => nameField g path name (entries.length + j) := by
  induction names generalizing entries with
  | nil =>
    obtain rfl := Except.ok.inj hok
    simp [kept]
  | cons name names ih =>
    rw [List.foldlM_cons] at hok
    cases hone : addEntry host g path entries name with
    | error e =>
      rw [hone] at hok
      cases hok
    | ok es =>
      rw [hone] at hok
      have hes := addEntry_names hone
      have hsplit : kept host path (name :: names) = kept host path [name] ++ kept host path names := by
        unfold kept
        rw [← List.filter_append, List.singleton_append]
      have hlen : es.length = entries.length + (kept host path [name]).length := by
        have := congrArg List.length hes
        simpa using this
      rw [ih hok, hes, hsplit, List.mapIdx_append, List.append_assoc]
      congr 3
      funext j name'
      rw [hlen, Nat.add_assoc, Nat.add_comm j]

/-- A sequence that succeeds. -/
theorem seq_ok {α β : Type} {x : Except Failure α} {f : α → Except Failure β} {b : β} (h : (x >>= f) = .ok b) :
    ∃ a, x = .ok a ∧ f a = .ok b := by
  cases x with
  | error e => cases h
  | ok a => exact ⟨a, rfl, h⟩

/-- The second loop fills in locations only. -/
theorem names_fillLoop {process : Output → List UInt8 → Except Failure Output}
    (hok : fillLoop host g process path es out = .ok (out', rows)) :
    rows.map Entry.name = es.map Entry.name := by
  induction es generalizing out rows with
  | nil =>
    obtain ⟨rfl, rfl⟩ := Prod.mk.inj (Except.ok.inj hok)
    rfl
  | cons e es ih =>
    have hrest : ∃ filled last es', fillLoop host g process path es filled = .ok (last, es') ∧
        (last, { e with location := out.size } :: es') = (out', rows) := by
      unfold fillLoop at hok
      split at hok
      · obtain ⟨filled, -, hok⟩ := seq_ok hok
        obtain ⟨⟨last, es'⟩, hrest, hok⟩ := seq_ok hok
        exact ⟨filled, last, es', hrest, Except.ok.inj hok⟩
      · obtain ⟨filled, -, hok⟩ := seq_ok hok
        obtain ⟨⟨last, es'⟩, hrest, hok⟩ := seq_ok hok
        exact ⟨filled, last, es', hrest, Except.ok.inj hok⟩
    obtain ⟨filled, last, es', hrest, heq⟩ := hrest
    obtain ⟨rfl, rfl⟩ := Prod.mk.inj heq
    rw [List.map_cons, List.map_cons, ih hrest]

/-- The table that `process_dir` leaves, and its rows. -/
theorem processDir_table (hread : host.readdir path = some names)
    (hrows : names.foldlM (addEntry host g path) [] = .ok rows)
    (hok : processDir host g fuel out path = .ok out') :
    ∃ es, es.map Entry.name = rows.map Entry.name ∧
      loadBytes out'.data out.size (tableBytes es).length = tableBytes es := by
  cases fuel with
  | zero => cases hok
  | succ fuel =>
    unfold processDir at hok
    rw [hread] at hok
    simp only at hok
    rw [ok_seq _ hrows] at hok
    obtain ⟨table, -, hok⟩ := seq_ok hok
    obtain ⟨⟨filled, es⟩, hfill, hok⟩ := seq_ok hok
    obtain rfl := Except.ok.inj hok
    exact ⟨es, names_fillLoop hfill, loadBytes_storeBytes _ _ _⟩

theorem growLoop_lt {need alloc alloc' : ℕ} (fuel : ℕ) (halloc : alloc < wordSize)
    (hok : growLoop need fuel alloc = .ok alloc') : alloc' < wordSize := by
  induction fuel generalizing alloc with
  | zero => cases hok
  | succ fuel ih =>
    unfold growLoop at hok
    split at hok
    · exact ih (Nat.mod_lt _ (by decide)) hok
    · obtain rfl := Except.ok.inj hok
      exact halloc

/-- What was appended is there, and fits into a buffer that 32 bits can measure. -/
theorem appended {bs : List UInt8} (hout : out.alloc < wordSize) (hok : outputAppend g out bs = .ok first) :
    loadBytes first.data out.size bs.length = bs ∧ bs.length < wordSize := by
  unfold outputAppend at hok
  obtain ⟨alloc, hgrow, hok⟩ := seq_ok hok
  have halloc := growLoop_lt 33 hout hgrow
  by_cases hfits : alloc < out.size + bs.length
  · exact absurd (hok.symm.trans (if_pos hfits)) (by simp)
  · obtain rfl := Except.ok.inj (hok.symm.trans (if_neg hfits))
    exact ⟨loadBytes_storeBytes _ _ _, by omega⟩

/-! ### Which names end -/

/-- The field at `a` holds the name and a NUL, within its 256 bytes. -/
def Terminated (M : Memory) (a : ℕ) (name : List UInt8) : Prop :=
  name.length < 256 ∧ loadBytes M a (name.length + 1) = name ++ [0]

theorem byte_of_field {field : List UInt8} (hload : loadBytes M a 256 = field) (hj : j < 256) :
    field[j]? = some (M (a + j)) := by
  rw [← hload]
  unfold loadBytes
  rw [List.getElem?_map, List.getElem?_range hj, Option.map_some]

/-- A field ends with its name unless the name takes 255 bytes and the byte behind it is not zero. -/
theorem terminated_iff (hload : loadBytes M a 256 = nameField g path name i) (hlen : name.length ≤ MAX_FILENAME_LEN) :
    Terminated M a name ↔ name.length ≤ 254 ∨ g.name path i = 0 := by
  have hfit : name.take MAX_FILENAME_LEN = name := List.take_of_length_le hlen
  have hfield : nameField g path name i =
      name ++ List.replicate (MAX_FILENAME_LEN - name.length) 0 ++ [g.name path i] := by
    rw [nameField, strncpy, hfit]
  have hfront : ∀ k ≤ 256, loadBytes M a k = (nameField g path name i).take k := by
    intro k hk
    rw [← hload]
    unfold loadBytes
    rw [← List.map_take, List.take_range, Nat.min_eq_left hk]
  have hlt : name.length < 256 := Nat.lt_succ_of_le hlen
  unfold Terminated
  rw [hfront (name.length + 1) hlt, hfield, List.append_assoc, List.take_length_add_append]
  simp only [hlt, true_and, List.append_cancel_left_eq]
  by_cases hshort : name.length ≤ 254
  · obtain ⟨r, hr⟩ : ∃ r, MAX_FILENAME_LEN - name.length = r + 1 := ⟨254 - name.length, by
      simp only [MAX_FILENAME_LEN]
      omega⟩
    simp [hr, List.replicate_succ, hshort]
  · have hfull : MAX_FILENAME_LEN - name.length = 0 := by
      simp only [MAX_FILENAME_LEN] at hlen ⊢
      omega
    simp [hfull, hshort]

/-- A string that ends at some point. -/
theorem cstring_of_nul (hab : a ≤ b) (hfar : b - a < wordSize) (hb : M b = 0) :
    ∃ s, cstring M a = .ok s ∧ M (a + s.length) = 0 := by
  have hex : ∃ d, M (a + d) = 0 := ⟨b - a, by rw [Nat.add_sub_cancel' hab]; exact hb⟩
  have hlen : (loadBytes M a (Nat.find hex)).length = Nat.find hex := loadBytes_length _ _ _
  have hle : Nat.find hex ≤ b - a := Nat.find_min' hex (by rw [Nat.add_sub_cancel' hab]; exact hb)
  have hzero : (0 : UInt8) ∉ loadBytes M a (Nat.find hex) := by
    intro hmem
    obtain ⟨k, hk, hk0⟩ := List.mem_map.mp hmem
    exact Nat.find_min hex (List.mem_range.mp hk) hk0
  refine ⟨_, cstringLoop_eq (loadBytes M a (Nat.find hex)) (by omega) hzero ?_, ?_⟩
  · intro k hk
    rw [hlen] at hk
    rw [List.getD_eq_getElem?_getD]
    unfold loadBytes
    rw [List.getElem?_map]
    rcases Nat.lt_or_eq_of_le hk with hlt | rfl
    · rw [List.getElem?_range hlt]
      rfl
    · rw [Nat.find_spec hex, List.getElem?_eq_none (by rw [List.length_range])]
      rfl
  · rw [hlen]
    exact Nat.find_spec hex

/-- A name that ends is read back. -/
theorem cstring_terminated (h : Terminated M a name) (hz : (0 : UInt8) ∉ name) : cstring M a = .ok name := by
  obtain ⟨hlt, hload⟩ := h
  refine cstringLoop_eq name (hlt.trans (by decide)) hz ?_
  intro j hj
  have hbyte : (loadBytes M a (name.length + 1))[j]? = some (M (a + j)) := by
    unfold loadBytes
    rw [List.getElem?_map, List.getElem?_range (by omega), Option.map_some]
  rw [hload] at hbyte
  rw [List.getD_eq_getElem?_getD]
  rcases Nat.lt_or_eq_of_le hj with hlt | rfl
  · rw [List.getElem?_append_left hlt] at hbyte
    rw [hbyte]
    rfl
  · rw [List.getElem?_append_right (Nat.le_refl _), Nat.sub_self] at hbyte
    rw [List.getElem?_eq_none (Nat.le_refl _)]
    exact (Option.some.inj hbyte).symm

theorem nul_of_terminated (h : Terminated M a name) : M (a + name.length) = 0 := by
  have hbyte : (loadBytes M a (name.length + 1))[name.length]? = some (M (a + name.length)) := by
    unfold loadBytes
    rw [List.getElem?_map, List.getElem?_range (by omega), Option.map_some]
  rw [h.2, List.getElem?_append_right (Nat.le_refl _), Nat.sub_self] at hbyte
  exact (Option.some.inj hbyte).symm

/-- A field whose name does not end holds no NUL at all. -/
theorem nonzero_of_not_terminated (hload : loadBytes M a 256 = nameField g path name i)
    (hlen : name.length ≤ MAX_FILENAME_LEN) (hz : (0 : UInt8) ∉ name) (hno : ¬ Terminated M a name) :
    ∀ k < 256, M (a + k) ≠ 0 := by
  rw [terminated_iff hload hlen, not_or] at hno
  have hfull : name.length = MAX_FILENAME_LEN := by
    simp only [MAX_FILENAME_LEN] at hlen ⊢
    omega
  have hfield : nameField g path name i = name ++ [g.name path i] := by
    rw [nameField, strncpy, ← hfull, List.take_length, Nat.sub_self, List.replicate_zero, List.append_nil]
  intro k hk hk0
  have hbyte := byte_of_field hload hk
  rw [hfield, hk0] at hbyte
  rcases List.mem_append.mp (List.mem_of_getElem? hbyte) with hmem | hmem
  · exact hz hmem
  · exact hno.2 (List.mem_singleton.mp hmem).symm

/-! ### Lookup -/

/-- The search passes rows of other names. -/
theorem lookupLoop_skip (k : ℕ) (hk : k ≤ n)
    (hother : ∀ j, i ≤ j → j < i + k → ∃ s, cstring M (entryName (dirEntryAt table j)) = .ok s ∧ s ≠ name) :
    lookupLoop M table name n i = lookupLoop M table name (n - k) (i + k) := by
  induction k generalizing i n with
  | zero => rfl
  | succ k ih =>
    obtain ⟨m, rfl⟩ : ∃ m, n = m + 1 := ⟨n - 1, by omega⟩
    obtain ⟨s, hs, hne⟩ := hother i (Nat.le_refl _) (by omega)
    rw [lookupLoop_succ hs, if_neg hne, ih (by omega) fun j h1 h2 => hother j (by omega) (by omega),
      Nat.succ_sub_succ, Nat.add_assoc, Nat.add_comm 1 k]

/-- Row `i` holds the name and a NUL, and `lookup` finds the row under the name. -/
def NameKept (M : Memory) (table i : ℕ) (name : List UInt8) : Prop :=
  Terminated M (entryName (dirEntryAt table i)) name ∧ lookup M table name = .ok (some (dirEntryAt table i))

/-- The names that a host directory can have, each of them once. -/
structure HostNames (names : List (List UInt8)) : Prop where
  once : names.Nodup
  length : ∀ name ∈ names, 1 ≤ name.length ∧ name.length ≤ MAX_FILENAME_LEN
  nonzero : ∀ name ∈ names, (0 : UInt8) ∉ name

theorem width_of_fields (hfields : es.map Entry.name = names.mapIdx fun i name => nameField g path name i) :
    ∀ e ∈ es, e.name.length = 256 := by
  intro e he
  have hmem : e.name ∈ names.mapIdx fun i name => nameField g path name i := by
    rw [← hfields]
    exact List.mem_map_of_mem he
  obtain ⟨j, hj, hname⟩ := List.mem_mapIdx.mp hmem
  rw [← hname, nameField_length]

/-- **Names in a table.** -/
theorem nameKept_iff (hnames : HostNames names)
    (hfields : es.map Entry.name = names.mapIdx fun i name => nameField g path name i)
    (hload : loadBytes M table (tableBytes es).length = tableBytes es) (hsize : (tableBytes es).length < wordSize)
    (hget : names[i]? = some name) : NameKept M table i name ↔ name.length ≤ 254 ∨ g.name path i = 0 := by
  have hfield : ∀ j name', names[j]? = some name' → ∃ e, es[j]? = some e ∧ e.name = nameField g path name' j := by
    intro j name' hj
    have hmap := congrArg (·[j]?) hfields
    simp only [List.getElem?_map, List.getElem?_mapIdx, hj, Option.map_some] at hmap
    obtain ⟨e, he, hname⟩ := Option.map_eq_some_iff.mp hmap
    exact ⟨e, he, hname⟩
  have hlen : es.length = names.length := by simpa using congrArg List.length hfields
  have hwidth := width_of_fields hfields
  have hbytes := tableBytes_length hwidth
  obtain ⟨hcount, hrows⟩ := rows_of_table hload hwidth
  have hrow : ∀ j name', names[j]? = some name' →
      loadBytes M (entryName (dirEntryAt table j)) 256 = nameField g path name' j := by
    intro j name' hj
    obtain ⟨e, he, hname⟩ := hfield j name' hj
    have hbytes := hrows j e he
    rw [Nat.zero_add] at hbytes
    have := (fields_of_bytes hbytes).2.2.2.2.2
    rwa [hwidth e (List.mem_of_getElem? he), hname] at this
  have hmem := List.mem_of_getElem? hget
  have hiff := terminated_iff (hrow i name hget) (hnames.length name hmem).2
  refine ⟨fun h => hiff.mp h.1, fun h => ⟨hiff.mpr h, ?_⟩⟩
  have hterm := hiff.mpr h
  have hi : i < names.length := (List.getElem?_eq_some_iff.mp hget).1
  have hsmall : es.length < wordSize := by
    simp only [ENTRY_SIZE, wordSize] at *
    omega
  have hother : ∀ j, 0 ≤ j → j < 0 + i →
      ∃ s, cstring M (entryName (dirEntryAt table j)) = .ok s ∧ s ≠ name := by
    intro j _ hj
    obtain ⟨name', hj'⟩ : ∃ name', names[j]? = some name' := ⟨names[j], List.getElem?_eq_getElem (by omega)⟩
    have hmem' := List.mem_of_getElem? hj'
    by_cases hends : Terminated M (entryName (dirEntryAt table j)) name'
    · refine ⟨name', cstring_terminated hends (hnames.nonzero name' hmem'), ?_⟩
      rintro rfl
      obtain ⟨h₁, he₁⟩ := List.getElem?_eq_some_iff.mp hget
      obtain ⟨h₂, he₂⟩ := List.getElem?_eq_some_iff.mp hj'
      have := (List.Nodup.getElem_inj_iff hnames.once).mp (he₂.trans he₁.symm)
      omega
    · -- the name runs on into the rows behind it, but not beyond the end of row `i`
      have hrun := nonzero_of_not_terminated (hrow j name' hj') (hnames.length name' hmem').2
        (hnames.nonzero name' hmem') hends
      have hle : entryName (dirEntryAt table j) ≤ entryName (dirEntryAt table i) + name.length := by
        simp only [entryName, dirEntryAt, ENTRY_SIZE]
        omega
      have hfar : entryName (dirEntryAt table i) + name.length - entryName (dirEntryAt table j) < wordSize := by
        have hshort := hterm.1
        rw [hbytes, hlen] at hsize
        simp only [entryName, dirEntryAt, ENTRY_SIZE, wordSize] at *
        omega
      obtain ⟨s, hs, hend⟩ := cstring_of_nul hle hfar (nul_of_terminated hterm)
      refine ⟨s, hs, ?_⟩
      rintro rfl
      exact hrun s.length hterm.1 hend
  unfold lookup
  rw [hcount, Nat.mod_eq_of_lt hsmall, lookupLoop_skip i (by omega) hother, Nat.zero_add]
  obtain ⟨r, hr⟩ : ∃ r, es.length - i = r + 1 := ⟨es.length - i - 1, by omega⟩
  rw [hr, lookupLoop_succ (cstring_terminated hterm (hnames.nonzero name hmem)), if_pos rfl]

theorem kept_hostNames (h : HostNames names) : HostNames (kept host path names) :=
  ⟨h.once.filter _, fun name hmem => h.length name (List.mem_filter.mp hmem).1,
    fun name hmem => h.nonzero name (List.mem_filter.mp hmem).1⟩

/-- **Names in a built image.**  For every directory of the host, in the table as it is first appended and in the
one that is copied over it, a row holds its name and a NUL, and is found under the name, exactly when the name has no
more than 254 bytes or the last byte of the row happened to be zero. -/
theorem name_terminated_iff (g : Garbage) (hread : host.readdir path = some names) (hnames : HostNames names)
    (hout : out.alloc < wordSize) (hrows : names.foldlM (addEntry host g path) [] = .ok rows)
    (happend : outputAppend g out (tableBytes rows) = .ok first) (hget : (kept host path names)[i]? = some name) :
    (NameKept first.data out.size i name ↔ name.length ≤ 254 ∨ g.name path i = 0) ∧
    ∀ fuel out', processDir host g fuel out path = .ok out' →
      (NameKept out'.data out.size i name ↔ name.length ≤ 254 ∨ g.name path i = 0) := by
  have hfields : rows.map Entry.name = (kept host path names).mapIdx fun i name => nameField g path name i := by
    have := collected hrows
    simpa using this
  obtain ⟨hload, hsize⟩ := appended hout happend
  refine ⟨nameKept_iff (kept_hostNames hnames) hfields hload hsize hget, fun fuel out' hok => ?_⟩
  obtain ⟨es, hes, hload'⟩ := processDir_table hread hrows hok
  have hlen : es.length = rows.length := by simpa using congrArg List.length hes
  have hsize' : (tableBytes es).length < wordSize := by
    rw [tableBytes_length (width_of_fields (hes.trans hfields)), hlen, ← tableBytes_length (width_of_fields hfields)]
    exact hsize
  exact nameKept_iff (kept_hostNames hnames) (hes.trans hfields) hload' hsize' hget

/-- A host with one empty file. -/
def oneFile (name : List UInt8) : Host where
  pathMax := 4096
  readdir _ := some [name]
  stat _ := some ⟨0x8000, 0, 0⟩
  read _ := some []

/-- Memory that held nothing but the byte `c`. -/
def leftover (c : UInt8) : Garbage := ⟨fun _ _ => c, fun _ _ => c, fun _ => c⟩

/-- A name of 255 bytes. -/
def longName : List UInt8 := List.replicate 255 (char 'x')

theorem hostNames_longName : HostNames [longName] := by
  refine ⟨List.nodup_singleton _, fun name hmem => ?_, fun name hmem => ?_⟩
  · rw [List.mem_singleton.mp hmem, longName, List.length_replicate]
    decide
  · rw [List.mem_singleton.mp hmem, longName]
    intro hz
    exact absurd (List.eq_of_mem_replicate hz) (by decide)

theorem ignoreFile_longName : ignoreFile longName = false := by
  unfold ignoreFile
  apply decide_eq_false
  intro hmem
  have hlen : ∀ name ∈ [[char '.'], [char '.', char '.'], [char '.', char 's', char 'v', char 'n']],
      name.length ≤ 4 := by decide
  exact absurd (hlen _ hmem) (by rw [longName, List.length_replicate]; decide)

theorem kept_longName (path : List UInt8) : kept (oneFile longName) path [longName] = [longName] := by
  unfold kept
  rw [List.filter_cons_of_pos]
  · rfl
  · rw [ignoreFile_longName]
    rfl

/-- The rows of a directory with the one name, and their table. -/
theorem oneFile_rows (c : UInt8) : ∃ rows first,
    [longName].foldlM (addEntry (oneFile longName) (leftover c) [char 'r']) [] = .ok rows ∧
      outputAppend (leftover c) (Output.init (leftover c)) (tableBytes rows) = .ok first := by
  have hone : addEntry (oneFile longName) (leftover c) [char 'r'] [] longName =
      .ok [newEntry (leftover c) [char 'r'] longName ⟨0x8000, 0, 0⟩ 0] := by
    unfold addEntry
    rw [ignoreFile_longName]
    rfl
  have hrows : [longName].foldlM (addEntry (oneFile longName) (leftover c) [char 'r']) [] =
      .ok [newEntry (leftover c) [char 'r'] longName ⟨0x8000, 0, 0⟩ 0] := by
    rw [List.foldlM_cons, ok_seq _ hone]
    rfl
  have hwidth : ∀ e ∈ [newEntry (leftover c) [char 'r'] longName ⟨0x8000, 0, 0⟩ 0], e.name.length = 256 := by
    intro e he
    rw [List.mem_singleton.mp he]
    exact nameField_length (leftover c) [char 'r'] longName 0
  obtain ⟨first, happend, -, -⟩ := outputAppend_ok (leftover c)
    (tableBytes [newEntry (leftover c) [char 'r'] longName ⟨0x8000, 0, 0⟩ 0]) (sound_init (leftover c)) (by
      rw [tableBytes_length hwidth]
      show 0 + (4 + ENTRY_SIZE * 1) < LIMIT
      decide)
  exact ⟨_, first, hrows, happend⟩

/-- A name of 255 bytes in memory that happened to be zero. -/
theorem name_terminated_zero : ∃ rows first,
    [longName].foldlM (addEntry (oneFile longName) (leftover 0) [char 'r']) [] = .ok rows ∧
      outputAppend (leftover 0) (Output.init (leftover 0)) (tableBytes rows) = .ok first ∧
      NameKept first.data 0 0 longName := by
  obtain ⟨rows, first, hrows, happend⟩ := oneFile_rows 0
  refine ⟨rows, first, hrows, happend, ?_⟩
  have hget : (kept (oneFile longName) [char 'r'] [longName])[0]? = some longName := by
    rw [kept_longName]
    rfl
  exact ((name_terminated_iff (leftover 0) rfl hostNames_longName (by decide) hrows happend hget).1).mpr (Or.inr rfl)

/-- A name of 255 bytes in memory that held ones. -/
theorem name_not_terminated : ∃ rows first,
    (oneFile longName).readdir [char 'r'] = some [longName] ∧ HostNames [longName] ∧
      [longName].foldlM (addEntry (oneFile longName) (leftover 1) [char 'r']) [] = .ok rows ∧
      outputAppend (leftover 1) (Output.init (leftover 1)) (tableBytes rows) = .ok first ∧
      ¬ NameKept first.data 0 0 longName := by
  obtain ⟨rows, first, hrows, happend⟩ := oneFile_rows 1
  refine ⟨rows, first, rfl, hostNames_longName, hrows, happend, ?_⟩
  have hfields : rows.map Entry.name =
      [longName].mapIdx fun i name => nameField (leftover 1) [char 'r'] name i := by
    have hcollected := collected hrows
    rw [kept_longName] at hcollected
    simpa using hcollected
  obtain ⟨hload, hsize⟩ := appended (by decide) happend
  intro hkept
  have hcond := (nameKept_iff hostNames_longName hfields hload hsize rfl).mp hkept
  rw [longName, List.length_replicate] at hcond
  exact absurd hcond (by decide)

end AdelaideOS.Image
