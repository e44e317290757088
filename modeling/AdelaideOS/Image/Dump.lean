import AdelaideOS.Image.Reading
import AdelaideOS.Image.Tool

/-!
# Dumping an image

`fstool -dump` reads an image file and prints a line for each file and directory, each directory before what it
contains.

* **`readFile_ok`** — the file is in memory;
* **`dumps`** — the lines of a table, by induction on the forest;
* **`alike_of_dump`** — the lines determine names, kinds, sizes and the order;
* **`dump_round_trip`** — what is built is dumped.
-/

namespace AdelaideOS.Image

open AdelaideOS.Kernel AdelaideOS.Lib.Bytes AdelaideOS.Libc

variable {M fs : Memory} {lo hi table i : ℕ} {f : Forest} {es : List Entry} {name path bytes : List UInt8} {g : Garbage}
  {t : Terminal} {host : Host}

/-! ### Reading the image -/

/-- Between two reads there is room for the next one. -/
structure Buffered (b : Output) (bytes : List UInt8) : Prop where
  alloc : b.alloc = b.size + READ_SIZE
  size : b.size = bytes.length
  data : loadBytes b.data 0 bytes.length = bytes

/-- One round of the loop of `read_file`. -/
theorem Buffered.piece {b : Output} {start piece : List UInt8} (g : Garbage) (h : Buffered b start)
    (hle : piece.length ≤ READ_SIZE) :
    Buffered ⟨b.alloc + piece.length, b.size + piece.length,
      reallocData g { b with data := storeBytes b.data b.size piece } (b.alloc + piece.length)⟩ (start ++ piece) := by
  obtain ⟨halloc, hsize, hdata⟩ := h
  have hload : loadBytes (storeBytes b.data b.size piece) 0 (start ++ piece).length = start ++ piece := by
    rw [List.length_append, loadBytes_add, Nat.zero_add, ← hsize, loadBytes_storeBytes,
      loadBytes_storeBytes_of_apart _ (Or.inl (by omega)), hsize, hdata]
  refine ⟨?_, ?_, ?_⟩
  · show b.alloc + piece.length = b.size + piece.length + READ_SIZE
    omega
  · rw [List.length_append, ← hsize]
  · refine (loadBytes_congr fun j hj => ?_).trans hload
    have hj' : 0 + j < b.alloc := by
      rw [List.length_append] at hj
      omega
    exact if_pos hj'

theorem readLoop_ok (g : Garbage) {b : Output} {start rest : List UInt8} (h : Buffered b start)
    (hlimit : start.length + rest.length + READ_SIZE < LIMIT) :
    ∃ b', readLoop g b rest = .ok b' ∧ Buffered b' (start ++ rest) := by
  induction hlen : rest.length using Nat.strong_induction_on generalizing b start rest with
  | h len ih =>
    subst hlen
    have halloc := h.alloc
    have hsize := h.size
    have hroom : ¬ (b.alloc < b.size + READ_SIZE ∨ 2147483648 ≤ b.alloc) := by
      unfold LIMIT at hlimit
      omega
    rw [readLoop, if_neg hroom]
    by_cases hnil : rest = []
    · rw [dif_pos hnil, hnil, List.append_nil]
      exact ⟨b, rfl, h⟩
    · rw [dif_neg hnil]
      have hpos := List.length_pos_of_ne_nil hnil
      have hsplit : (rest.take READ_SIZE).length + (rest.drop READ_SIZE).length = rest.length := by
        rw [← List.length_append, List.take_append_drop]
      have htake : 0 < (rest.take READ_SIZE).length := by
        rw [List.length_take]
        exact Nat.lt_min.mpr ⟨by decide, hpos⟩
      have hstored := h.piece g (List.length_take_le READ_SIZE rest)
      obtain ⟨b', hok, hb'⟩ := ih (rest.drop READ_SIZE).length (by omega) hstored
        (by rw [List.length_append]; omega) rfl
      rw [List.append_assoc, List.take_append_drop] at hb'
      exact ⟨b', hok, hb'⟩

/-- **The file is in memory.** -/
theorem readFile_ok (g : Garbage) (hlimit : bytes.length + READ_SIZE < LIMIT) :
    ∃ b, readFile g bytes = .ok b ∧ b.size = bytes.length ∧ loadBytes b.data 0 bytes.length = bytes := by
  have hempty : Buffered ⟨READ_SIZE, 0, g.block READ_SIZE⟩ [] := ⟨rfl, rfl, rfl⟩
  have hroom : ([] : List UInt8).length + bytes.length + READ_SIZE < LIMIT := by rw [List.length_nil]; omega
  obtain ⟨b, hok, -, hsize, hdata⟩ := readLoop_ok g hempty hroom
  exact ⟨b, hok, hsize, hdata⟩

/-! ### The rows of a table -/

/-- The first row of a table that begins with a file. -/
theorem file_row {mode mtime : ℕ} {rest : Forest} (hhi : hi < LIMIT)
    (hfilled : (Forest.file name mode mtime bytes rest).Filled M lo hi es)
    (hnamed : (Forest.file name mode mtime bytes rest).Named) (hrows : RowsAt M table i es) :
    cstring M (entryName (dirEntryAt table i)) = .ok name ∧ entryType M (dirEntryAt table i) = TYPE_FILE ∧
      entrySize M (dirEntryAt table i) = bytes.length ∧ entryMode M (dirEntryAt table i) = mode % wordSize ∧
      ∃ es', rest.Filled M lo hi es' ∧ RowsAt M table (i + 1) es' := by
  obtain ⟨loc, c, es', rfl, -, hend, -, hrest⟩ := hfilled
  obtain ⟨hcstr, hsize, htype, -, hmode, -⟩ := shown_row hrows.head rfl hnamed.1
  have hsmall : bytes.length % wordSize = bytes.length :=
    Nat.mod_eq_of_lt (lt_trans (by omega) (show LIMIT < wordSize by decide))
  exact ⟨hcstr, htype, (hsize.trans (Nat.mod_mod _ _)).trans hsmall, hmode.trans (Nat.mod_mod _ _), es', hrest,
    hrows.tail⟩

/-- The first row of a table that begins with a directory. -/
theorem dir_row {st : Stat} {children rest : Forest} (hhi : hi < LIMIT)
    (hfilled : (Forest.dir name st children rest).Filled M lo hi es)
    (hnamed : (Forest.dir name st children rest).Named) (hrows : RowsAt M table i es) :
    cstring M (entryName (dirEntryAt table i)) = .ok name ∧ entryType M (dirEntryAt table i) = TYPE_DIR ∧
      entrySize M (dirEntryAt table i) = st.size % wordSize ∧
      entryMode M (dirEntryAt table i) = st.mode % wordSize ∧
      children.Shows M lo hi (entryLocation M (dirEntryAt table i)) ∧
      ∃ es', rest.Filled M lo hi es' ∧ RowsAt M table (i + 1) es' := by
  obtain ⟨loc, c, es', sub, rfl, hlo, hend, hbytes, hchildren, hrest⟩ := hfilled
  obtain ⟨hcstr, hsize, htype, hloc, hmode, -⟩ := shown_row hrows.head rfl hnamed.1
  have hsmall : loc % wordSize = loc := Nat.mod_eq_of_lt (lt_trans (by omega) (show LIMIT < wordSize by decide))
  have hat : entryLocation M (dirEntryAt table i) = loc := hloc.trans hsmall
  refine ⟨hcstr, htype, hsize.trans (Nat.mod_mod _ _), hmode.trans (Nat.mod_mod _ _), ?_, es', hrest, hrows.tail⟩
  rw [hat]
  exact ⟨sub, hlo, hend, hbytes, hchildren⟩

/-- The rows of a table that shows a forest. -/
theorem Forest.Shows.rows (hhi : hi < LIMIT) (h : f.Shows M lo hi table) :
    ∃ es, dirCount M table = es.length ∧ es.length = f.names.length ∧ f.Filled M lo hi es ∧ RowsAt M table 0 es := by
  obtain ⟨es, hlo, hend, hload, hfilled⟩ := h
  obtain ⟨hcount, hrows⟩ := rows_of_table hload fun e he => hfilled.name_length he
  have hlen := hfilled.length
  refine ⟨es, ?_, hlen, hfilled, hrows⟩
  rw [hcount]
  refine Nat.mod_eq_of_lt (lt_trans ?_ (show LIMIT < wordSize by decide))
  unfold ENTRY_SIZE at hend
  omega

/-! ### The lines -/

namespace Forest

/-- The lines of a forest whose path is `path`. -/
def dump : List UInt8 → Forest → List UInt8
  | _, nil => []
  | path, file name _ _ bytes rest =>
    dumpLine (char 'F') bytes.length (path ++ char '/' :: name) ++ rest.dump path
  | path, dir name st children rest =>
    dumpLine (char 'D') (st.size % wordSize) (path ++ char '/' :: name) ++
      (children.dump (path ++ char '/' :: name) ++ rest.dump path)

/-- Paths that begin elsewhere are not longer. -/
theorem Short.mono {pathMax : ℕ} {path path' : List UInt8} (h : f.Short pathMax path)
    (hle : path'.length ≤ path.length) : f.Short pathMax path' := by
  induction f generalizing path path' with
  | nil => trivial
  | file name mode mtime bytes rest ih =>
    obtain ⟨hlen, hrest⟩ := h
    rw [List.length_append] at hlen
    exact ⟨by rw [List.length_append]; omega, ih hrest hle⟩
  | dir name st children rest ihc ih =>
    obtain ⟨hlen, hchildren, hrest⟩ := h
    have hlen' : (path' ++ char '/' :: name).length ≤ (path ++ char '/' :: name).length := by
      rw [List.length_append, List.length_append]
      omega
    exact ⟨hlen'.trans_lt hlen, ihc hchildren hlen', ih hrest hle⟩

/-- More room for paths. -/
theorem Short.loosen {pathMax pathMax' : ℕ} {path : List UInt8} (h : f.Short pathMax path) (hle : pathMax ≤ pathMax') :
    f.Short pathMax' path := by
  induction f generalizing path with
  | nil => trivial
  | file name mode mtime bytes rest ih => exact ⟨h.1.trans_le hle, ih h.2⟩
  | dir name st children rest ihc ih => exact ⟨h.1.trans_le hle, ihc h.2.1, ih h.2.2⟩

end Forest

/-- What `dump_dir` prints for the tables of a forest. -/
def Dumps (t : Terminal) (M : Memory) (lo hi : ℕ) (f : Forest) : Prop :=
  ∀ path table i es fuel, f.Filled M lo hi es → f.Named → f.Short t.pathMax path → f.depth ≤ fuel →
    RowsAt M table i es → dumpLoop t M (dumpDir t M fuel) path table f.names.length i = .ok (f.dump path)

theorem dumpDir_of_dumps {entry fuel : ℕ} (hhi : hi < LIMIT) (h : Dumps t M lo hi f)
    (hshows : f.Shows M lo hi (entryLocation M entry)) (hnamed : f.Named) (hshort : f.Short t.pathMax path)
    (hfuel : f.depth < fuel) : dumpDir t M fuel path entry = .ok (f.dump path) := by
  obtain ⟨fuel, rfl⟩ : ∃ n, fuel = n + 1 := ⟨fuel - 1, by omega⟩
  obtain ⟨es, hcount, hlen, hfilled, hrows⟩ := hshows.rows hhi
  rw [dumpDir, hcount, hlen]
  exact h path _ 0 es fuel hfilled hnamed hshort (by omega) hrows

/-- One round of the loop of `dump_dir`. -/
theorem dumpLoop_succ {dump : List UInt8 → ℕ → Except Fault (List UInt8)} {n : ℕ} {below rest : List UInt8}
    (hname : cstring M (entryName (dirEntryAt table i)) = .ok name)
    (hshort : (path ++ char '/' :: name).length < t.pathMax)
    (hbelow : (if entryType M (dirEntryAt table i) = TYPE_DIR then dump (path ++ char '/' :: name) (dirEntryAt table i)
      else .ok []) = .ok below)
    (hrest : dumpLoop t M dump path table n (i + 1) = .ok rest) :
    dumpLoop t M dump path table (n + 1) i =
      .ok (dumpLine (if entryType M (dirEntryAt table i) = TYPE_DIR then char 'D' else char 'F')
        (entrySize M (dirEntryAt table i)) (path ++ char '/' :: name) ++ (below ++ rest)) := by
  have hfull : (path ++ char '/' :: name).take (t.pathMax - 1) = path ++ char '/' :: name :=
    List.take_of_length_le (by omega)
  unfold dumpLoop
  simp only [hname, bind, Except.bind, hfull, hrest]
  by_cases hdir : entryType M (dirEntryAt table i) = TYPE_DIR
  · rw [if_pos hdir] at hbelow
    simp only [if_pos hdir, hbelow]
    rfl
  · rw [if_neg hdir] at hbelow
    obtain rfl := Except.ok.inj hbelow
    simp only [if_neg hdir]
    rfl

/-- **The lines of a forest** are printed. -/
theorem dumps (t : Terminal) (hhi : hi < LIMIT) (f : Forest) : Dumps t M lo hi f := by
  induction f with
  | nil => exact fun _ _ _ _ _ _ _ _ _ _ => rfl
  | file name mode mtime bytes rest ih =>
    intro path table i es fuel hfilled hnamed hshort hdepth hrows
    obtain ⟨hname, htype, hsize, -, es', hrest, hrows'⟩ := file_row hhi hfilled hnamed hrows
    have hloop := ih path table (i + 1) es' fuel hrest hnamed.2.2 hshort.2 hdepth hrows'
    have hfile : ¬ entryType M (dirEntryAt table i) = TYPE_DIR := by
      rw [htype]
      decide
    rw [Forest.names, List.length_cons, dumpLoop_succ hname hshort.1 (if_neg hfile) hloop, if_neg hfile, hsize]
    rfl
  | dir name st children rest ihc ih =>
    intro path table i es fuel hfilled hnamed hshort hdepth hrows
    obtain ⟨hname, htype, hsize, -, hshows, es', hrest, hrows'⟩ := dir_row hhi hfilled hnamed hrows
    have hchildren : children.depth < fuel := lt_of_lt_of_le (Nat.lt_succ_self _) ((le_max_left _ _).trans hdepth)
    have hbelow := dumpDir_of_dumps hhi ihc hshows hnamed.2.2.1 hshort.2.1 hchildren
    have hloop := ih path table (i + 1) es' fuel hrest hnamed.2.2.2 hshort.2.2 ((le_max_right _ _).trans hdepth) hrows'
    rw [Forest.names, List.length_cons, dumpLoop_succ hname hshort.1 ((if_pos htype).trans hbelow) hloop, if_pos htype,
      hsize]
    rfl

theorem dumpImage_ok {fuel : ℕ} (hhi : hi < LIMIT) (hshows : f.Shows M lo hi (entryLocation M 0)) (hnamed : f.Named)
    (hshort : f.Short t.pathMax []) (hfuel : f.depth < fuel) : dumpImage t M fuel = .ok (f.dump []) :=
  dumpDir_of_dumps hhi (dumps t hhi f) hshows hnamed hshort hfuel

/-! ### What the lines say -/

/-- What a line tells: kind, size and path of a file or directory. -/
structure Item where
  kind : UInt8
  size : ℕ
  full : List UInt8

def Item.line (x : Item) : List UInt8 := dumpLine x.kind x.size x.full

namespace Forest

/-- The files and directories of a forest, each directory before what it contains. -/
def outline : List UInt8 → Forest → List Item
  | _, nil => []
  | path, file name _ _ bytes rest => ⟨char 'F', bytes.length, path ++ char '/' :: name⟩ :: rest.outline path
  | path, dir name st children rest =>
    ⟨char 'D', st.size % wordSize, path ++ char '/' :: name⟩ ::
      (children.outline (path ++ char '/' :: name) ++ rest.outline path)

theorem dump_eq (path : List UInt8) (f : Forest) : f.dump path = (f.outline path).flatMap Item.line := by
  induction f generalizing path with
  | nil => rfl
  | file name mode mtime bytes rest ih => rw [dump, outline, List.flatMap_cons, ih, Item.line]
  | dir name st children rest ihc ih =>
    rw [dump, outline, List.flatMap_cons, List.flatMap_append, ihc, ih, Item.line]

/-- The same names in the same order, the same kinds and sizes. -/
def Alike : Forest → Forest → Prop
  | nil, nil => True
  | file name _ _ bytes rest, file name' _ _ bytes' rest' =>
    name = name' ∧ bytes.length = bytes'.length ∧ rest.Alike rest'
  | dir name st children rest, dir name' st' children' rest' =>
    name = name' ∧ st.size % wordSize = st'.size % wordSize ∧ children.Alike children' ∧ rest.Alike rest'
  | _, _ => False

/-- No name contains the end of a line. -/
def OneLine : Forest → Prop
  | nil => True
  | file name _ _ _ rest => char '\n' ∉ name ∧ rest.OneLine
  | dir name _ children rest => char '\n' ∉ name ∧ children.OneLine ∧ rest.OneLine

end Forest

/-- A list is cut at one place where a property ends. -/
theorem cut_unique {α : Type} {P : α → Prop} {xs ys xs' ys' : List α} (h : xs ++ ys = xs' ++ ys') (hxs : ∀ x ∈ xs, P x)
    (hxs' : ∀ x ∈ xs', P x) (hys : ∀ y ∈ ys.head?, ¬ P y) (hys' : ∀ y ∈ ys'.head?, ¬ P y) : xs = xs' ∧ ys = ys' := by
  induction xs generalizing xs' with
  | nil =>
    cases xs' with
    | nil => exact ⟨rfl, h⟩
    | cons x xs' =>
      rw [List.nil_append] at h
      exact absurd (hxs' x List.mem_cons_self) (hys x (by rw [h]; rfl))
  | cons x xs ih =>
    cases xs' with
    | nil =>
      rw [List.nil_append] at h
      exact absurd (hxs x List.mem_cons_self) (hys' x (by rw [← h]; rfl))
    | cons x' xs' =>
      obtain ⟨rfl, htail⟩ := List.cons.inj h
      obtain ⟨rfl, rfl⟩ := ih htail (fun y hy => hxs y (List.mem_cons_of_mem _ hy)) fun y hy =>
        hxs' y (List.mem_cons_of_mem _ hy)
      exact ⟨rfl, rfl⟩

/-! ### Reading a line -/

theorem hexdigit_spec {j : ℕ} (hj : j < 10) : hexdigit j ≠ char ' ' ∧ hexdigit j ≠ char '/' ∧ hexdigit j ≠ char '\n' ∧
    hexdigit j ≠ char '-' := by
  interval_cases j <;> decide

/-- The characters of a number. -/
theorem signedNumeral_chars {j : ℤ} {c : UInt8} (hc : c ∈ signedNumeral j) :
    c ≠ char ' ' ∧ c ≠ char '/' ∧ c ≠ char '\n' := by
  have hdigits : ∀ c ∈ numeral 10 j.natAbs, c ≠ char ' ' ∧ c ≠ char '/' ∧ c ≠ char '\n' := fun c hc => by
    obtain ⟨d, hd, rfl⟩ := numeral_digits (by decide) _ c hc
    exact ⟨(hexdigit_spec hd).1, (hexdigit_spec hd).2.1, (hexdigit_spec hd).2.2.1⟩
  unfold signedNumeral at hc
  split at hc
  · rcases List.mem_cons.mp hc with rfl | hc
    · decide
    · exact hdigits c hc
  · exact hdigits c hc

theorem signedNumeral_injective : Function.Injective signedNumeral := by
  intro j j' h
  have hnum : ∀ {m n : ℕ}, numeral 10 m = numeral 10 n → m = n := fun {m n} heq => by
    rw [← parse_numeral (by decide : 2 ≤ 10) (by decide) m, heq, parse_numeral (by decide) (by decide)]
  have hsign : ∀ m n : ℕ, char '-' :: numeral 10 m ≠ numeral 10 n := fun m n heq => by
    obtain ⟨d, hd, hc⟩ := numeral_digits (by decide : 2 ≤ 10) n (char '-') (heq ▸ List.mem_cons_self)
    exact (hexdigit_spec hd).2.2.2 hc.symm
  unfold signedNumeral at h
  split at h <;> split at h
  · have := hnum (List.cons.inj h).2
    omega
  · exact absurd h (hsign _ _)
  · exact absurd h.symm (hsign _ _)
  · have := hnum h
    omega

theorem toInt_injective {n n' : ℕ} (hn : n < wordSize) (hn' : n' < wordSize) (h : toInt n = toInt n') : n = n' := by
  unfold toInt at h
  unfold wordSize at hn hn'
  split at h <;> split at h <;> omega

theorem sizeField_chars {n : ℕ} {c : UInt8} (hc : c ∈ sizeField n) : c ≠ char '/' ∧ c ≠ char '\n' := by
  rw [sizeField, List.mem_append, List.mem_replicate] at hc
  rcases hc with hc | ⟨-, rfl⟩
  · exact (signedNumeral_chars hc).2
  · decide

theorem sizeField_injective {n n' : ℕ} (hn : n < wordSize) (hn' : n' < wordSize) (h : sizeField n = sizeField n') :
    n = n' := by
  have hblank : ∀ k, ∀ c ∈ (List.replicate k (char ' ')).head?, ¬ c ≠ char ' ' := fun k c hc =>
    not_not.mpr (List.mem_replicate.mp (List.mem_of_mem_head? hc)).2
  exact toInt_injective hn hn' (signedNumeral_injective (cut_unique h (fun c hc => (signedNumeral_chars hc).1)
    (fun c hc => (signedNumeral_chars hc).1) (hblank _) (hblank _)).1)

/-- A line can be read. -/
structure Item.Legible (x : Item) : Prop where
  kind : x.kind ≠ char '\n'
  size : x.size < wordSize
  slash : x.full.head? = some (char '/')
  full : char '\n' ∉ x.full

/-- **A line** is read back, and ends where it ends. -/
theorem Item.line_unique {x x' : Item} {rest rest' : List UInt8} (hx : x.Legible) (hx' : x'.Legible)
    (h : x.line ++ rest = x'.line ++ rest') : x = x' ∧ rest = rest' := by
  have hassoc : ∀ (y : Item) (more : List UInt8), y.line ++ more =
      (y.kind :: char ' ' :: (sizeField y.size ++ char ' ' :: y.full)) ++ char '\n' :: more := fun y more => by
    simp [Item.line, dumpLine]
  have hone : ∀ y : Item, y.Legible → ∀ c ∈ y.kind :: char ' ' :: (sizeField y.size ++ char ' ' :: y.full),
      c ≠ char '\n' := fun y hy c hc => by
    simp only [List.mem_cons, List.mem_append] at hc
    rcases hc with rfl | rfl | hc | rfl | hc
    · exact hy.kind
    · decide
    · exact (sizeField_chars hc).2
    · decide
    · exact fun heq => hy.full (heq ▸ hc)
  have hend : ∀ more : List UInt8, ∀ c ∈ (char '\n' :: more).head?, ¬ c ≠ char '\n' := fun more c hc =>
    not_not.mpr (Option.some.inj hc).symm
  rw [hassoc, hassoc] at h
  obtain ⟨hline, hrest⟩ := cut_unique h (hone x hx) (hone x' hx') (hend _) (hend _)
  obtain ⟨hkind, hline⟩ := List.cons.inj hline
  have hfield : ∀ n, ∀ c ∈ sizeField n ++ [char ' '], c ≠ char '/' := fun n c hc => by
    rcases List.mem_append.mp hc with hc | hc
    · exact (sizeField_chars hc).1
    · rw [List.mem_singleton.mp hc]
      decide
  have hslash : ∀ y : Item, y.Legible → ∀ c ∈ y.full.head?, ¬ c ≠ char '/' := fun y hy c hc => by
    rw [hy.slash] at hc
    exact not_not.mpr (Option.some.inj hc).symm
  have hline' : (sizeField x.size ++ [char ' ']) ++ x.full = (sizeField x'.size ++ [char ' ']) ++ x'.full := by
    simpa using (List.cons.inj hline).2
  obtain ⟨hsize, hfull⟩ := cut_unique hline' (hfield _) (hfield _) (hslash x hx) (hslash x' hx')
  have hsize' := sizeField_injective hx.size hx'.size (List.append_cancel_right hsize)
  cases x
  cases x'
  simp only [Item.mk.injEq]
  exact ⟨⟨hkind, hsize', hfull⟩, (List.cons.inj hrest).2⟩

theorem items_of_lines {xs xs' : List Item} (hxs : ∀ x ∈ xs, x.Legible) (hxs' : ∀ x ∈ xs', x.Legible)
    (h : xs.flatMap Item.line = xs'.flatMap Item.line) : xs = xs' := by
  have hne : ∀ (x : Item) (more : List UInt8), x.line ++ more ≠ [] := fun x more heq => by
    simp [Item.line, dumpLine] at heq
  induction xs generalizing xs' with
  | nil =>
    cases xs' with
    | nil => rfl
    | cons x' xs' => exact absurd h.symm (hne x' _)
  | cons x xs ih =>
    cases xs' with
    | nil => exact absurd h (hne x _)
    | cons x' xs' =>
      obtain ⟨rfl, hrest⟩ := Item.line_unique (hxs x List.mem_cons_self) (hxs' x' List.mem_cons_self) h
      rw [ih (fun y hy => hxs y (List.mem_cons_of_mem _ hy)) (fun y hy => hxs' y (List.mem_cons_of_mem _ hy)) hrest]

/-! ### From the lines to the tree -/

/-- The number of names in a path. -/
def level (path : List UInt8) : ℕ := path.count (char '/')

theorem level_name (path : List UInt8) (h : char '/' ∉ name) : level (path ++ char '/' :: name) = level path + 1 := by
  rw [level, List.count_append, List.count_cons_self, List.count_eq_zero.mpr h]
  rfl

/-- What is in a forest is deeper than its path. -/
theorem level_outline (hnamed : f.Named) (path : List UInt8) : ∀ x ∈ f.outline path, level path < level x.full := by
  induction f generalizing path with
  | nil =>
    intro x hx
    cases hx
  | file name mode mtime bytes rest ih =>
    intro x hx
    rcases List.mem_cons.mp hx with rfl | hx
    · exact (level_name path hnamed.1.2.2.1).symm ▸ Nat.lt_succ_self _
    · exact ih hnamed.2.2 path x hx
  | dir name st children rest ihc ih =>
    intro x hx
    rcases List.mem_cons.mp hx with rfl | hx
    · exact (level_name path hnamed.1.2.2.1).symm ▸ Nat.lt_succ_self _
    · rcases List.mem_append.mp hx with hx | hx
      · have := ihc hnamed.2.2.1 _ x hx
        rw [level_name path hnamed.1.2.2.1] at this
        omega
      · exact ih hnamed.2.2.2 path x hx

/-- A forest begins one level below its path. -/
theorem level_head (hnamed : f.Named) (path : List UInt8) :
    ∀ x ∈ (f.outline path).head?, level x.full = level path + 1 := by
  intro x hx
  cases f with
  | nil => cases hx
  | file name mode mtime bytes rest =>
    obtain rfl := Option.some.inj hx
    exact level_name path hnamed.1.2.2.1
  | dir name st children rest =>
    obtain rfl := Option.some.inj hx
    exact level_name path hnamed.1.2.2.1

/-- **The order** determines the tree. -/
theorem alike_of_outline {f' : Forest} (hnamed : f.Named) (hnamed' : f'.Named) (path : List UInt8)
    (h : f.outline path = f'.outline path) : f.Alike f' := by
  induction f generalizing path f' with
  | nil =>
    cases f' with
    | nil => trivial
    | file => cases h
    | dir => cases h
  | file name mode mtime bytes rest ih =>
    cases f' with
    | nil => cases h
    | dir name' st' children' rest' =>
      exact absurd (congrArg Item.kind (List.cons.inj h).1) (show char 'F' ≠ char 'D' by decide)
    | file name' mode' mtime' bytes' rest' =>
      obtain ⟨hitem, hrest⟩ := List.cons.inj h
      have hname := (List.cons.inj (List.append_cancel_left (congrArg Item.full hitem))).2
      exact ⟨hname, congrArg Item.size hitem, ih hnamed.2.2 hnamed'.2.2 path hrest⟩
  | dir name st children rest ihc ih =>
    cases f' with
    | nil => cases h
    | file name' mode' mtime' bytes' rest' =>
      exact absurd (congrArg Item.kind (List.cons.inj h).1) (show char 'D' ≠ char 'F' by decide)
    | dir name' st' children' rest' =>
      obtain ⟨hitem, hbelow⟩ := List.cons.inj h
      obtain rfl := (List.cons.inj (List.append_cancel_left (congrArg Item.full hitem))).2
      -- what is deeper than one level belongs to the directory
      have hdeep : ∀ {g : Forest}, g.Named → ∀ x ∈ g.outline (path ++ char '/' :: name), level path + 1 < level x.full :=
        fun {g} hg x hx => level_name path hnamed.1.2.2.1 ▸ level_outline hg _ x hx
      have hnext : ∀ {g : Forest}, g.Named → ∀ x ∈ (g.outline path).head?, ¬ level path + 1 < level x.full :=
        fun {g} hg x hx => by
          have := level_head hg path x hx
          omega
      obtain ⟨hchildren, hrest⟩ := cut_unique hbelow (hdeep hnamed.2.2.1) (hdeep hnamed'.2.2.1) (hnext hnamed.2.2.2)
        (hnext hnamed'.2.2.2)
      exact ⟨rfl, congrArg Item.size hitem, ihc hnamed.2.2.1 hnamed'.2.2.1 _ hchildren,
        ih hnamed.2.2.2 hnamed'.2.2.2 path hrest⟩

/-- Each line of a forest can be read. -/
theorem legible_outline (hone : f.OneLine) (hsmall : f.contents < wordSize)
    (hpath : (path ++ [char '/']).head? = some (char '/')) (hline : char '\n' ∉ path) :
    ∀ x ∈ f.outline path, x.Legible := by
  have hhead : ∀ name : List UInt8, (path ++ char '/' :: name).head? = some (char '/') := fun name => by
    cases path with
    | nil => rfl
    | cons c path => exact hpath
  have hfull : ∀ name : List UInt8, char '\n' ∉ name → char '\n' ∉ path ++ char '/' :: name := fun name hname hmem => by
    rcases List.mem_append.mp hmem with hmem | hmem
    · exact hline hmem
    · rcases List.mem_cons.mp hmem with heq | hmem
      · exact absurd heq (by decide)
      · exact hname hmem
  induction f generalizing path with
  | nil =>
    intro x hx
    cases hx
  | file name mode mtime bytes rest ih =>
    rw [Forest.contents] at hsmall
    intro x hx
    rcases List.mem_cons.mp hx with rfl | hx
    · exact ⟨show char 'F' ≠ char '\n' by decide, show bytes.length < wordSize by omega, hhead name, hfull name hone.1⟩
    · exact ih hone.2 (by omega) hpath hline hhead hfull x hx
  | dir name st children rest ihc ih =>
    rw [Forest.contents] at hsmall
    intro x hx
    rcases List.mem_cons.mp hx with rfl | hx
    · exact ⟨show char 'D' ≠ char '\n' by decide, Nat.mod_lt _ (by decide), hhead name, hfull name hone.1⟩
    · rcases List.mem_append.mp hx with hx | hx
      · have hline' := hfull name hone.1
        have hhead' : ∀ name' : List UInt8, (path ++ char '/' :: name ++ char '/' :: name').head? = some (char '/') :=
          fun name' => by
            rw [List.append_assoc, List.cons_append]
            exact hhead _
        refine ihc hone.2.1 (by omega) (hhead' []) hline' hhead' (fun name' hname' hmem => ?_) x hx
        rcases List.mem_append.mp hmem with hmem | hmem
        · exact hline' hmem
        · rcases List.mem_cons.mp hmem with heq | hmem
          · exact absurd heq (by decide)
          · exact hname' hmem
      · exact ih hone.2.2 (by omega) hpath hline hhead hfull x hx

/-- **The dump** determines the tree. -/
theorem alike_of_dump {f' : Forest} (hnamed : f.Named) (hnamed' : f'.Named) (hone : f.OneLine) (hone' : f'.OneLine)
    (hsmall : f.contents < wordSize) (hsmall' : f'.contents < wordSize) (h : f.dump [] = f'.dump []) : f.Alike f' := by
  rw [Forest.dump_eq, Forest.dump_eq] at h
  exact alike_of_outline hnamed hnamed' [] (items_of_lines (legible_outline hone hsmall rfl (List.not_mem_nil))
    (legible_outline hone' hsmall' rfl List.not_mem_nil) h)

/-- **Dump of what was built.**  `fstool -dump` prints the lines of the directory from which `fstool -build` made the
image, and no directory of another shape has the same lines. -/
theorem dump_round_trip (g : Garbage) (h : Storable host path f) (hlimit : ENTRY_SIZE + f.size + READ_SIZE < LIMIT) :
    ∃ out, (∀ fuel, f.depth < fuel → build host g fuel path = .ok out) ∧ out.size = ENTRY_SIZE + f.size ∧
      (∀ g' : Garbage, ∃ b, readFile g' (loadBytes out.data 0 out.size) = .ok b ∧
        ∀ (t : Terminal) (fuel : ℕ), host.pathMax ≤ t.pathMax → f.depth < fuel →
          dumpImage t b.data fuel = .ok (f.dump [])) ∧
      ∀ (host' : Host) (path' : List UInt8) (f' : Forest), Storable host' path' f' → f.OneLine → f'.OneLine →
        f.dump [] = f'.dump [] → f.Alike f' := by
  obtain ⟨out, hbuild, hsize, hshows⟩ := build_shows g h
  have hsmall : ∀ {host' : Host} {path' : List UInt8} {f' : Forest}, Storable host' path' f' → f'.contents < wordSize :=
    fun {host' path' f'} h' => by
      have := h'.small
      unfold Forest.size LIMIT at this
      unfold wordSize
      omega
  refine ⟨out, hbuild, hsize, fun g' => ?_, fun host' path' f' h' hone hone' heq =>
    alike_of_dump h.named h'.named hone hone' (hsmall h) (hsmall h') heq⟩
  have hroom : (loadBytes out.data 0 out.size).length + READ_SIZE < LIMIT := by rw [loadBytes_length, hsize]; exact hlimit
  obtain ⟨b, hread, -, hdata⟩ := readFile_ok g' hroom
  refine ⟨b, hread, fun t fuel ht hfuel => ?_⟩
  have hsame : ∀ x < out.size, b.data x = out.data x := fun x hx => by
    rw [loadBytes_length] at hdata
    have hx' := congrArg (fun l => l[x]?) hdata
    simpa [loadBytes, hx] using hx'
  have hlen : out.size < LIMIT := by
    rw [hsize]
    exact h.small
  exact dumpImage_ok hlen (hshows b.data hsame) h.named ((h.short.mono (Nat.zero_le _)).loosen ht) hfuel

/-- Two files and a directory. -/
theorem dump_round_trip_sample : ∃ out, build sampleHost ⟨fun _ _ => 0, fun _ _ => 0, fun _ => 0⟩ 2 [char 'r'] = .ok out ∧
    ∃ b, readFile ⟨fun _ _ => 1, fun _ _ => 1, fun _ => 1⟩ (loadBytes out.data 0 out.size) = .ok b ∧
      dumpImage ⟨1024, fun _ => []⟩ b.data 2 = .ok (word "F 3        /a\nD 4096     /b\nF 2        /b/c\n") := by
  obtain ⟨out, hbuild, -, hdump, -⟩ := dump_round_trip ⟨fun _ _ => 0, fun _ _ => 0, fun _ => 0⟩ storable_sample (by decide)
  obtain ⟨b, hread, hlines⟩ := hdump ⟨fun _ _ => 1, fun _ _ => 1, fun _ => 1⟩
  have htext : sampleForest.dump [] = word "F 3        /a\nD 4096     /b\nF 2        /b/c\n" := by
    simp only [sampleForest, Forest.dump, dumpLine, sizeField, signedNumeral, toInt, numeral]
    decide
  exact ⟨out, hbuild 2 (by decide), b, hread, htext ▸ hlines ⟨1024, fun _ => []⟩ 2 (by decide) (by decide)⟩

end AdelaideOS.Image
