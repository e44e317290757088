import AdelaideOS.Image.Model
import AdelaideOS.Kernel.Storage

/-!
# The layout of an image

A directory of the host is a `Forest`: its files and subdirectories in order.  `Shows M lo hi f dir` says that the
table at `dir` in the memory `M` lists the forest `f`, and that everything it leads to lies in `[lo, hi)`.

* **`outputAppend_ok`**, **`copyLoop_ok`** — appending succeeds below 2 GB and keeps what is there;
* **`fills`** — the second loop of `process_dir` fills in the locations, by induction on the forest;
* **`build_ok`** — the image shows the forest.
-/

namespace AdelaideOS.Image

open AdelaideOS.Lib.Bytes AdelaideOS.Kernel

variable {host : Host} {g : Garbage} {b b' b'' out : Output} {bs bytes name path : List UInt8} {M M' : Memory}
  {n lo hi fuel : ℕ}

/-! ### Sequences that succeed -/

theorem ok_seq {α β : Type} {x : Except Failure α} {a : α} (f : α → Except Failure β) (h : x = .ok a) :
    (x >>= f) = f a := by
  rw [h]
  rfl

/-! ### The output -/

/-- The images that the tool can write are smaller than this. -/
abbrev LIMIT : ℕ := 2147483648

/-- The buffer holds the bytes, and its size is a power of two that a further one can be doubled to. -/
structure Output.Sound (b : Output) : Prop where
  size_le : b.size ≤ b.alloc
  pow : ∃ j ≤ 31, b.alloc = 2 ^ j

/-- The output `b'` is `b` with `n` more bytes. -/
structure Extends (b b' : Output) (n : ℕ) : Prop where
  sound : b'.Sound
  size : b'.size = b.size + n
  keeps : ∀ x < b.size, b'.data x = b.data x

theorem Extends.refl (h : b.Sound) : Extends b b 0 := ⟨h, rfl, fun _ _ => rfl⟩

theorem Extends.trans {n' : ℕ} (h : Extends b b' n) (h' : Extends b' b'' n') : Extends b b'' (n + n') := by
  refine ⟨h'.sound, ?_, ?_⟩
  · rw [h'.size, h.size, Nat.add_assoc]
  · intro x hx
    have hsize := h.size
    rw [h'.keeps x (by omega), h.keeps x hx]

theorem Extends.loadBytes (h : Extends b b' n) {a len : ℕ} (hlen : a + len ≤ b.size) :
    loadBytes b'.data a len = loadBytes b.data a len := by
  apply loadBytes_congr
  intro i hi
  exact h.keeps _ (by omega)

theorem sound_init (g : Garbage) : (Output.init g).Sound := ⟨Nat.zero_le _, 0, by decide, rfl⟩

/-- Doubling reaches every need up to the limit. -/
theorem growLoop_ok {need : ℕ} (hneed : need ≤ LIMIT) (j fuel : ℕ) (hj : j ≤ 31) (hfuel : 31 < j + fuel) :
    ∃ j' ≤ 31, growLoop need fuel (2 ^ j) = .ok (2 ^ j') ∧ need ≤ 2 ^ j' ∧ 2 ^ j ≤ 2 ^ j' := by
  induction fuel generalizing j with
  | zero => omega
  | succ fuel ih =>
    unfold growLoop
    by_cases hlt : 2 ^ j < need
    · have hj' : j < 31 := by
        by_contra hge
        obtain rfl : j = 31 := by omega
        exact absurd (hlt.trans_le hneed) (by decide)
      have hpow : 2 ^ (j + 1) < wordSize := (Nat.pow_le_pow_right (by decide) hj').trans_lt (by decide)
      obtain ⟨j', hj₁, hok, hle, hmono⟩ := ih (j + 1) hj' (by omega)
      rw [if_pos hlt, ← Nat.pow_succ, Nat.mod_eq_of_lt hpow]
      exact ⟨j', hj₁, hok, hle, (Nat.pow_le_pow_right (by decide) (Nat.le_succ j)).trans hmono⟩
    · rw [if_neg hlt]
      exact ⟨j, hj, rfl, Nat.le_of_not_lt hlt, Nat.le_refl _⟩

/-- **Appending** below the limit. -/
theorem outputAppend_ok (g : Garbage) (bs : List UInt8) (h : b.Sound) (hlimit : b.size + bs.length < LIMIT) :
    ∃ b', outputAppend g b bs = .ok b' ∧ Extends b b' bs.length ∧ loadBytes b'.data b.size bs.length = bs := by
  obtain ⟨hsize, j, hj, halloc⟩ := h
  have hneed : (b.size + bs.length) % wordSize = b.size + bs.length := Nat.mod_eq_of_lt (hlimit.trans (by decide))
  obtain ⟨j', hj', hgrow, hle, hmono⟩ := growLoop_ok hlimit.le j 33 hj (by omega)
  let data := if b.alloc < b.size + bs.length then reallocData g b (2 ^ j') else b.data
  have hok : outputAppend g b bs = .ok ⟨2 ^ j', b.size + bs.length, storeBytes data b.size bs⟩ := by
    unfold outputAppend
    simp only [hneed]
    rw [halloc, ok_seq _ hgrow, if_neg (Nat.not_lt_of_le hle), ← halloc]
    rfl
  refine ⟨_, hok, ⟨⟨hle, j', hj', rfl⟩, rfl, ?_⟩, loadBytes_storeBytes _ _ _⟩
  intro x hx
  show storeBytes data b.size bs x = b.data x
  rw [storeBytes_of_outside _ (Or.inl hx)]
  show (if b.alloc < b.size + bs.length then reallocData g b (2 ^ j') else b.data) x = b.data x
  split
  · exact if_pos (hx.trans_le hsize)
  · rfl

/-- **Copying a file** below the limit. -/
theorem copyLoop_ok (g : Garbage) (bytes : List UInt8) (h : b.Sound) (hlimit : b.size + bytes.length < LIMIT) :
    ∃ b', copyLoop g b bytes = .ok b' ∧ Extends b b' bytes.length ∧
      loadBytes b'.data b.size bytes.length = bytes := by
  induction hlen : bytes.length using Nat.strong_induction_on generalizing b bytes with
  | h len ih =>
    subst hlen
    rw [copyLoop]
    by_cases hnil : bytes = []
    · rw [dif_pos hnil, hnil]
      exact ⟨b, rfl, Extends.refl h, rfl⟩
    · rw [dif_neg hnil]
      have hpos := List.length_pos_of_ne_nil hnil
      have hsplit : (bytes.take READ_SIZE).length + (bytes.drop READ_SIZE).length = bytes.length := by
        rw [← List.length_append, List.take_append_drop]
      have htake : 0 < (bytes.take READ_SIZE).length := by
        rw [List.length_take]
        exact Nat.lt_min.mpr ⟨by decide, hpos⟩
      obtain ⟨b₁, hok₁, hext₁, hload₁⟩ := outputAppend_ok g (bytes.take READ_SIZE) h (by omega)
      have hsize₁ := hext₁.size
      obtain ⟨b₂, hok₂, hext₂, hload₂⟩ := ih (bytes.drop READ_SIZE).length (by omega) (b := b₁) (bytes.drop READ_SIZE)
        hext₁.sound (by omega) rfl
      refine ⟨b₂, (ok_seq _ hok₁).trans hok₂, hsplit ▸ hext₁.trans hext₂, ?_⟩
      rw [← hsplit, loadBytes_add, hext₂.loadBytes hsize₁.ge, hload₁, ← hsize₁, hload₂, List.take_append_drop]

/-! ### Directories of the host -/

/-- The contents of a directory: files and subdirectories in order. -/
inductive Forest where
  | nil
  | file (name : List UInt8) (mode mtime : ℕ) (bytes : List UInt8) (rest : Forest)
  | dir (name : List UInt8) (st : Stat) (children rest : Forest)

namespace Forest

def names : Forest → List (List UInt8)
  | nil => []
  | file name _ _ _ rest => name :: rest.names
  | dir name _ _ rest => name :: rest.names

/-- The bytes that follow the table of a directory. -/
def contents : Forest → ℕ
  | nil => 0
  | file _ _ _ bytes rest => bytes.length + rest.contents
  | dir _ _ children rest => 4 + ENTRY_SIZE * children.names.length + children.contents + rest.contents

/-- The bytes of a directory. -/
def size (f : Forest) : ℕ := 4 + ENTRY_SIZE * f.names.length + f.contents

/-- How deep the directories are nested. -/
def depth : Forest → ℕ
  | nil => 0
  | file _ _ _ _ rest => rest.depth
  | dir _ _ children rest => max (children.depth + 1) rest.depth

/-- The names are those that the format can hold, and those of one directory are distinct. -/
def Named : Forest → Prop
  | nil => True
  | file name _ _ _ rest => Plain name ∧ name ∉ rest.names ∧ rest.Named
  | dir name _ children rest => Plain name ∧ name ∉ rest.names ∧ children.Named ∧ rest.Named
where
  /-- One to 254 bytes without `/` and NUL, and not a name that the tool skips. -/
  Plain (name : List UInt8) : Prop :=
    1 ≤ name.length ∧ name.length ≤ 254 ∧ char '/' ∉ name ∧ (0 : UInt8) ∉ name ∧ ignoreFile name = false

/-- All paths fit into `PATH_MAX`. -/
def Short (pathMax : ℕ) : List UInt8 → Forest → Prop
  | _, nil => True
  | path, file name _ _ _ rest => (path ++ char '/' :: name).length < pathMax ∧ rest.Short pathMax path
  | path, dir name _ children rest =>
    (path ++ char '/' :: name).length < pathMax ∧ children.Short pathMax (path ++ char '/' :: name) ∧
      rest.Short pathMax path

/-- The names that `readdir` returns for a path, less those that the tool skips. -/
def Listed (host : Host) (path : List UInt8) (f : Forest) : Prop :=
  ∃ names, host.readdir path = some names ∧ names.filter (fun name => !ignoreFile name) = f.names

/-- The host holds the forest below a path.  What `stat` says about a file is its length. -/
def Held (host : Host) : List UInt8 → Forest → Prop
  | _, nil => True
  | path, file name mode mtime bytes rest =>
    host.stat (path ++ char '/' :: name) = some ⟨mode, bytes.length, mtime⟩ ∧ isReg mode = true ∧
      host.read (path ++ char '/' :: name) = some bytes ∧ rest.Held host path
  | path, dir name st children rest =>
    host.stat (path ++ char '/' :: name) = some st ∧ isDir st.mode = true ∧
      Listed host (path ++ char '/' :: name) children ∧ children.Held host (path ++ char '/' :: name) ∧
      rest.Held host path

/-- The rows of a directory before the locations are filled in. -/
def rows (g : Garbage) (path : List UInt8) : ℕ → Forest → List Entry
  | _, nil => []
  | i, file name mode mtime bytes rest =>
    newEntry g path name ⟨mode, bytes.length, mtime⟩ i :: rest.rows g path (i + 1)
  | i, dir name st _ rest => newEntry g path name st i :: rest.rows g path (i + 1)

/-- The rows `es` list the forest, with the contents in `[lo, hi)` of the memory `M`. -/
def Filled (M : Memory) (lo hi : ℕ) : Forest → List Entry → Prop
  | nil, es => es = []
  | file name mode mtime bytes rest, es => ∃ loc c es',
    es = ⟨bytes.length % wordSize, TYPE_FILE, loc, mode % wordSize, mtime % wordSize,
      strncpy name MAX_FILENAME_LEN ++ [c]⟩ :: es' ∧
      lo ≤ loc ∧ loc + bytes.length ≤ hi ∧ loadBytes M loc bytes.length = bytes ∧ rest.Filled M lo hi es'
  | dir name st children rest, es => ∃ loc c es' sub,
    es = ⟨st.size % wordSize, TYPE_DIR, loc, st.mode % wordSize, st.mtime % wordSize,
      strncpy name MAX_FILENAME_LEN ++ [c]⟩ :: es' ∧
      lo ≤ loc ∧ loc + (4 + ENTRY_SIZE * children.names.length) ≤ hi ∧
      loadBytes M loc (4 + ENTRY_SIZE * children.names.length) = tableBytes sub ∧
      children.Filled M lo hi sub ∧ rest.Filled M lo hi es'

/-- The table at `dir` lists the forest. -/
def Shows (M : Memory) (lo hi : ℕ) (f : Forest) (dir : ℕ) : Prop :=
  ∃ es, lo ≤ dir ∧ dir + (4 + ENTRY_SIZE * f.names.length) ≤ hi ∧
    loadBytes M dir (4 + ENTRY_SIZE * f.names.length) = tableBytes es ∧ f.Filled M lo hi es

end Forest

/-! ### Tables -/

theorem strncpy_length (s : List UInt8) (n : ℕ) : (strncpy s n).length = n := by
  rw [strncpy, List.length_append, List.length_take, List.length_replicate]
  omega

/-- A short name ends inside the field. -/
theorem takeWhile_strncpy (c : UInt8) (hlen : name.length < n) (hz : (0 : UInt8) ∉ name) :
    (strncpy name n ++ [c]).takeWhile (· ≠ 0) = name := by
  have hfit : name.take n = name := List.take_of_length_le hlen.le
  obtain ⟨j, hj⟩ : ∃ j, n - name.length = j + 1 := ⟨n - name.length - 1, by omega⟩
  unfold strncpy
  rw [hfit, hj, List.replicate_succ, List.append_assoc, List.cons_append, List.takeWhile_append_of_pos]
  · rw [List.takeWhile_cons_of_neg (by decide), List.append_nil]
  · intro x hx
    apply decide_eq_true
    rintro rfl
    exact hz hx

theorem Entry.bytes_length (e : Entry) : e.bytes.length = 20 + e.name.length := by
  simp only [Entry.bytes, wordBytes, List.length_append, List.length_cons, List.length_nil]

theorem tableBytes_length {es : List Entry} (h : ∀ e ∈ es, e.name.length = 256) :
    (tableBytes es).length = 4 + ENTRY_SIZE * es.length := by
  have hrows : (es.flatMap Entry.bytes).length = ENTRY_SIZE * es.length := by
    induction es with
    | nil => rfl
    | cons e es ih =>
      rw [List.flatMap_cons, List.length_append, ih fun x hx => h x (List.mem_cons_of_mem _ hx), Entry.bytes_length,
        h e List.mem_cons_self, List.length_cons]
      simp only [ENTRY_SIZE]
      omega
  rw [tableBytes, List.length_append, hrows]
  rfl

namespace Forest

variable {f : Forest} {es : List Entry} {i : ℕ}

theorem length_rows (g : Garbage) (path : List UInt8) (i : ℕ) (f : Forest) :
    (f.rows g path i).length = f.names.length := by
  induction f generalizing i with
  | nil => rfl
  | file name mode mtime bytes rest ih => exact congrArg (· + 1) (ih (i + 1))
  | dir name st children rest _ ih => exact congrArg (· + 1) (ih (i + 1))

theorem name_rows {e : Entry} (he : e ∈ f.rows g path i) : e.name.length = 256 := by
  have hnew : ∀ name st i, (newEntry g path name st i).name.length = 256 := by
    intro name st i
    rw [newEntry, List.length_append, strncpy_length]
    rfl
  induction f generalizing i with
  | nil => cases he
  | file name mode mtime bytes rest ih =>
    rcases List.mem_cons.mp he with rfl | he
    · exact hnew _ _ _
    · exact ih he
  | dir name st children rest _ ih =>
    rcases List.mem_cons.mp he with rfl | he
    · exact hnew _ _ _
    · exact ih he

theorem Filled.length (h : f.Filled M lo hi es) : es.length = f.names.length := by
  induction f generalizing es with
  | nil => rw [show es = [] from h]; rfl
  | file name mode mtime bytes rest ih =>
    obtain ⟨loc, c, es', rfl, -, -, -, hrest⟩ := h
    exact congrArg (· + 1) (ih hrest)
  | dir name st children rest _ ih =>
    obtain ⟨loc, c, es', sub, rfl, -, -, -, -, hrest⟩ := h
    exact congrArg (· + 1) (ih hrest)

theorem Filled.name_length (h : f.Filled M lo hi es) {e : Entry} (he : e ∈ es) : e.name.length = 256 := by
  have hfield : ∀ (name : List UInt8) (c : UInt8), (strncpy name MAX_FILENAME_LEN ++ [c]).length = 256 := by
    intro name c
    rw [List.length_append, strncpy_length]
    rfl
  induction f generalizing es with
  | nil =>
    rw [show es = [] from h] at he
    cases he
  | file name mode mtime bytes rest ih =>
    obtain ⟨loc, c, es', rfl, -, -, -, hrest⟩ := h
    rcases List.mem_cons.mp he with rfl | he
    · exact hfield _ _
    · exact ih hrest he
  | dir name st children rest _ ih =>
    obtain ⟨loc, c, es', sub, rfl, -, -, -, -, hrest⟩ := h
    rcases List.mem_cons.mp he with rfl | he
    · exact hfield _ _
    · exact ih hrest he

/-- Only the bytes of the range matter. -/
theorem Filled.congr (h : f.Filled M lo hi es) (hM : ∀ x, lo ≤ x → x < hi → M' x = M x) : f.Filled M' lo hi es := by
  have hload : ∀ {loc len}, lo ≤ loc → loc + len ≤ hi → loadBytes M' loc len = loadBytes M loc len := by
    intro loc len h1 h2
    apply loadBytes_congr
    intro j hj
    exact hM _ (by omega) (by omega)
  induction f generalizing es with
  | nil => exact h
  | file name mode mtime bytes rest ih =>
    obtain ⟨loc, c, es', he, hlo, hhi, hbytes, hrest⟩ := h
    exact ⟨loc, c, es', he, hlo, hhi, (hload hlo hhi).trans hbytes, ih hrest⟩
  | dir name st children rest ihc ih =>
    obtain ⟨loc, c, es', sub, he, hlo, hhi, hbytes, hch, hrest⟩ := h
    exact ⟨loc, c, es', sub, he, hlo, hhi, (hload hlo hhi).trans hbytes, ihc hch, ih hrest⟩

theorem Filled.mono {lo' hi' : ℕ} (h : f.Filled M lo hi es) (hlo : lo' ≤ lo) (hhi : hi ≤ hi') :
    f.Filled M lo' hi' es := by
  induction f generalizing es with
  | nil => exact h
  | file name mode mtime bytes rest ih =>
    obtain ⟨loc, c, es', he, h1, h2, hbytes, hrest⟩ := h
    exact ⟨loc, c, es', he, hlo.trans h1, h2.trans hhi, hbytes, ih hrest⟩
  | dir name st children rest ihc ih =>
    obtain ⟨loc, c, es', sub, he, h1, h2, hbytes, hch, hrest⟩ := h
    exact ⟨loc, c, es', sub, he, hlo.trans h1, h2.trans hhi, hbytes, ihc hch, ih hrest⟩

end Forest

/-! ### The first loop -/

theorem fullPath_eq (h : (path ++ char '/' :: name).length < host.pathMax) :
    fullPath host path name = path ++ char '/' :: name :=
  List.take_of_length_le (by omega)

theorem isDir_of_isReg {mode : ℕ} (h : isReg mode = true) : isDir mode = false := by
  have hreg : mode &&& 0xF000 = 0x8000 := of_decide_eq_true h
  unfold isDir
  rw [hreg]
  rfl

theorem addEntry_ok {st : Stat} {entries : List Entry} (hplain : ignoreFile name = false)
    (hshort : (path ++ char '/' :: name).length < host.pathMax)
    (hstat : host.stat (path ++ char '/' :: name) = some st) (htype : isDir st.mode ∨ isReg st.mode) :
    addEntry host g path entries name = .ok (entries ++ [newEntry g path name st entries.length]) := by
  unfold addEntry
  rw [hplain, fullPath_eq hshort, hstat]
  exact if_pos htype

/-- **The first loop** collects the rows. -/
theorem collect_ok {f : Forest} {names : List (List UInt8)} (entries : List Entry)
    (hnames : names.filter (fun name => !ignoreFile name) = f.names) (hheld : f.Held host path)
    (hshort : f.Short host.pathMax path) :
    names.foldlM (addEntry host g path) entries = .ok (entries ++ f.rows g path entries.length) := by
  induction names generalizing f entries with
  | nil =>
    cases f with
    | nil => rw [Forest.rows, List.append_nil]; rfl
    | file => cases hnames
    | dir => cases hnames
  | cons name names ih =>
    rw [List.foldlM_cons]
    cases hign : ignoreFile name with
    | true =>
      have hskip : addEntry host g path entries name = .ok entries := by
        unfold addEntry
        rw [hign]
        rfl
      rw [ok_seq _ hskip]
      apply ih entries _ hheld hshort
      rw [← hnames, List.filter_cons_of_neg]
      rw [hign]
      decide
    | false =>
      rw [List.filter_cons_of_pos (by rw [hign]; rfl)] at hnames
      cases f with
      | nil => cases hnames
      | file name' mode mtime bytes rest =>
        obtain ⟨rfl, hrest⟩ := List.cons.inj hnames
        obtain ⟨hstat, hreg, -, hheld⟩ := hheld
        rw [ok_seq _ (addEntry_ok hign hshort.1 hstat (Or.inr hreg)), ih _ hrest hheld hshort.2]
        rw [List.append_assoc, List.length_append]
        rfl
      | dir name' st children rest =>
        obtain ⟨rfl, hrest⟩ := List.cons.inj hnames
        obtain ⟨hstat, hdir, -, -, hheld⟩ := hheld
        rw [ok_seq _ (addEntry_ok hign hshort.1 hstat (Or.inl hdir)), ih _ hrest hheld hshort.2.2]
        rw [List.append_assoc, List.length_append]
        rfl

/-! ### The second loop -/

theorem string_newEntry (g : Garbage) (path : List UInt8) (st : Stat) (i : ℕ) (h : Forest.Named.Plain name) :
    (newEntry g path name st i).string = name :=
  takeWhile_strncpy _ (Nat.lt_succ_of_le h.2.1) h.2.2.2.1

/-- The second loop fills in the locations of the forest, whatever was written before. -/
def Fills (host : Host) (g : Garbage) (f : Forest) : Prop :=
  ∀ path i out, out.Sound → out.size + f.contents < LIMIT → f.Held host path → f.Named → f.Short host.pathMax path →
    ∃ out' es, (∀ fuel, f.depth ≤ fuel →
        fillLoop host g (processDir host g fuel) path (f.rows g path i) out = .ok (out', es)) ∧
      Extends out out' f.contents ∧ f.Filled out'.data out.size out'.size es

/-- **`process_dir`** appends a directory if its second loop fills in the locations. -/
theorem process_of_fills {f : Forest} (h : Fills host g f) (hsound : out.Sound)
    (hlimit : out.size + f.size < LIMIT) (hlisted : f.Listed host path) (hheld : f.Held host path) (hnamed : f.Named)
    (hshort : f.Short host.pathMax path) :
    ∃ out', (∀ fuel, f.depth < fuel → processDir host g fuel out path = .ok out') ∧ Extends out out' f.size ∧
      f.Shows out'.data out.size out'.size out.size := by
  obtain ⟨names, hdir, hnames⟩ := hlisted
  have hcollect : names.foldlM (addEntry host g path) [] = .ok (f.rows g path 0) := collect_ok [] hnames hheld hshort
  have hwidth : (tableBytes (f.rows g path 0)).length = 4 + ENTRY_SIZE * f.names.length := by
    rw [tableBytes_length fun e he => Forest.name_rows he, Forest.length_rows]
  unfold Forest.size at hlimit ⊢
  obtain ⟨b₁, hok₁, hext₁, -⟩ := outputAppend_ok g (tableBytes (f.rows g path 0)) hsound (by omega)
  have hsize₁ := hext₁.size
  obtain ⟨b₂, es, hok₂, hext₂, hfilled⟩ := h path 0 b₁ hext₁.sound (by omega) hheld hnamed hshort
  have hsize₂ := hext₂.size
  have hlen : (tableBytes es).length = 4 + ENTRY_SIZE * f.names.length := by
    rw [tableBytes_length fun e he => hfilled.name_length he, hfilled.length]
  let out' : Output := { b₂ with data := storeBytes b₂.data out.size (tableBytes es) }
  have hok : ∀ fuel, f.depth < fuel → processDir host g fuel out path = .ok out' := by
    intro fuel hdepth
    obtain ⟨fuel, rfl⟩ : ∃ j, fuel = j + 1 := ⟨fuel - 1, by omega⟩
    unfold processDir
    rw [hdir]
    show (names.foldlM (addEntry host g path) [] >>= _) = _
    rw [ok_seq _ hcollect]
    show (outputAppend g out (tableBytes (f.rows g path 0)) >>= _) = _
    rw [ok_seq _ hok₁, ok_seq _ (hok₂ fuel (Nat.le_of_lt_succ hdepth))]
    rfl
  refine ⟨out', hok, ⟨⟨hext₂.sound.size_le, hext₂.sound.pow⟩, ?_, ?_⟩, es, Nat.le_refl _, ?_, ?_, ?_⟩
  · show b₂.size = _
    omega
  · intro x hx
    show storeBytes b₂.data out.size (tableBytes es) x = _
    rw [storeBytes_of_outside _ (Or.inl hx), hext₂.keeps x (by omega), hext₁.keeps x hx]
  · show _ ≤ b₂.size
    omega
  · rw [← hlen]
    exact loadBytes_storeBytes _ _ _
  · have hkept : f.Filled out'.data b₁.size b₂.size es := by
      apply hfilled.congr
      intro x hx _
      exact storeBytes_of_outside _ (Or.inr (by omega))
    exact hkept.mono (by omega) (Nat.le_refl _)

/-- **The second loop**, by induction on the forest. -/
theorem fills (host : Host) (g : Garbage) (f : Forest) : Fills host g f := by
  induction f with
  | nil =>
    intro path i out hsound _ _ _ _
    exact ⟨out, [], fun _ _ => rfl, Extends.refl hsound, rfl⟩
  | file name mode mtime bytes rest ih =>
    intro path i out hsound hlimit hheld hnamed hshort
    obtain ⟨-, hreg, hread, hheld⟩ := hheld
    obtain ⟨hplain, -, hnamed⟩ := hnamed
    unfold Forest.contents at hlimit ⊢
    obtain ⟨b₁, hok₁, hext₁, hload₁⟩ := copyLoop_ok g bytes hsound (by omega)
    have hsize₁ := hext₁.size
    obtain ⟨b₂, es, hok₂, hext₂, hfilled⟩ := ih path (i + 1) b₁ hext₁.sound (by omega) hheld hnamed hshort.2
    have hsize₂ := hext₂.size
    have hfile : processFile host g out (fullPath host path (newEntry g path name ⟨mode, bytes.length, mtime⟩ i).string) =
        .ok b₁ := by
      unfold processFile
      rw [string_newEntry g path _ i hplain, fullPath_eq hshort.1, hread]
      exact hok₁
    have htype : (newEntry g path name ⟨mode, bytes.length, mtime⟩ i).type = TYPE_FILE := by
      show (if isDir mode then TYPE_DIR else TYPE_FILE) = TYPE_FILE
      rw [isDir_of_isReg hreg]
      rfl
    refine ⟨b₂, { newEntry g path name ⟨mode, bytes.length, mtime⟩ i with location := out.size } :: es, ?_,
      hext₁.trans hext₂, out.size, g.name path i, es, ?_, Nat.le_refl _, by omega, ?_, ?_⟩
    · intro fuel hdepth
      unfold Forest.rows fillLoop
      simp only [htype]
      rw [if_neg (by decide), ok_seq _ hfile, ok_seq _ (hok₂ fuel hdepth)]
      rfl
    · rw [← htype]
      rfl
    · rw [hext₂.loadBytes hsize₁.ge, hload₁]
    · exact hfilled.mono (by omega) (Nat.le_refl _)
  | dir name st children rest ihc ih =>
    intro path i out hsound hlimit hheld hnamed hshort
    obtain ⟨-, hdir, hlisted, hheldc, hheld⟩ := hheld
    obtain ⟨hplain, -, hnamedc, hnamed⟩ := hnamed
    obtain ⟨hshort₀, hshortc, hshort⟩ := hshort
    unfold Forest.contents at hlimit ⊢
    obtain ⟨b₁, hok₁, hext₁, es₁, -, hend, hload, hshown⟩ := process_of_fills ihc hsound
      (by unfold Forest.size; omega) hlisted hheldc hnamedc hshortc
    have hsize₁ := hext₁.size
    obtain ⟨b₂, es, hok₂, hext₂, hfilled⟩ := ih path (i + 1) b₁ hext₁.sound
      (by unfold Forest.size at hsize₁; omega) hheld hnamed hshort
    have hsize₂ := hext₂.size
    have hproc : ∀ fuel, children.depth < fuel →
        processDir host g fuel out (fullPath host path (newEntry g path name st i).string) = .ok b₁ := by
      rw [string_newEntry g path st i hplain, fullPath_eq hshort₀]
      exact hok₁
    have htype : (newEntry g path name st i).type = TYPE_DIR := by
      show (if isDir st.mode then TYPE_DIR else TYPE_FILE) = TYPE_DIR
      rw [hdir]
      rfl
    have hshown₂ : children.Filled b₂.data out.size b₂.size es₁ := by
      have hkept : children.Filled b₂.data out.size b₁.size es₁ := by
        apply hshown.congr
        intro x _ hx
        exact hext₂.keeps x hx
      exact hkept.mono (Nat.le_refl _) (by omega)
    refine ⟨b₂, { newEntry g path name st i with location := out.size } :: es, ?_, hext₁.trans hext₂, out.size,
      g.name path i, es, es₁, ?_, Nat.le_refl _, by omega, ?_, hshown₂, ?_⟩
    · intro fuel hdepth
      unfold Forest.depth at hdepth
      unfold Forest.rows fillLoop
      simp only [htype]
      rw [if_pos trivial, ok_seq _ (hproc fuel (by omega)), ok_seq _ (hok₂ fuel (by omega))]
      rfl
    · rw [← htype]
      rfl
    · rw [hext₂.loadBytes hend, hload]
    · exact hfilled.mono (by omega) (Nat.le_refl _)

/-! ### The image -/

theorem rootEntry_length (g : Garbage) : (rootEntry g).length = ENTRY_SIZE := by
  simp only [rootEntry, wordBytes, List.length_append, List.length_cons, List.length_nil, List.length_map,
    List.length_range, ENTRY_SIZE]

/-- A directory that can be stored as an image. -/
structure Storable (host : Host) (path : List UInt8) (f : Forest) : Prop where
  listed : f.Listed host path
  held : f.Held host path
  named : f.Named
  short : f.Short host.pathMax path
  small : ENTRY_SIZE + f.size < LIMIT

/-- **The image** shows the forest behind the root entry. -/
theorem build_ok {f : Forest} (g : Garbage) (h : Storable host path f) :
    ∃ out, (∀ fuel, f.depth < fuel → build host g fuel path = .ok out) ∧ out.size = ENTRY_SIZE + f.size ∧
      loadBytes out.data 0 ENTRY_SIZE = rootEntry g ∧ f.Shows out.data ENTRY_SIZE out.size ENTRY_SIZE := by
  have hroot := rootEntry_length g
  have hsmall := h.small
  obtain ⟨b₁, hok₁, hext₁, hload₁⟩ := outputAppend_ok g (rootEntry g) (sound_init g) (by
    show 0 + (rootEntry g).length < LIMIT
    omega)
  have hsize₁ : b₁.size = ENTRY_SIZE := by
    rw [hext₁.size, hroot]
    exact Nat.zero_add _
  obtain ⟨b₂, hok₂, hext₂, hshows⟩ := process_of_fills (fills host g f) hext₁.sound (by rw [hsize₁]; exact hsmall)
    h.listed h.held h.named h.short
  refine ⟨b₂, ?_, by rw [hext₂.size, hsize₁], ?_, hsize₁ ▸ hshows⟩
  · intro fuel hfuel
    unfold build
    rw [ok_seq _ hok₁]
    exact hok₂ fuel hfuel
  · rw [hext₂.loadBytes (by omega), ← hroot]
    exact hload₁

end AdelaideOS.Image
