import AdelaideOS.Image.Tree
import AdelaideOS.Kernel.Formatting
import AdelaideOS.Kernel.Advance

/-!
# Listing a directory

`getdent` returns the next row of the directory that a handle is open for.  A `Listing` is a history of one handle, as
`Session` is for files.  The names pass through the formatter on their way out, so a listing is exact only where the
names print themselves.

* **`getdent_row`**, **`getdent_end`** — one call;
* **`listing_ok`** — a listing goes through the rows in order;
* **`listing_exact_iff`** — when the listings of a directory are exact.
-/

namespace AdelaideOS.Image

open AdelaideOS.Lib.Bytes AdelaideOS.Lib.Triple AdelaideOS.Lib.View AdelaideOS.Kernel AdelaideOS.Page AdelaideOS.Process

variable {m : Machine} {M fs : Memory} {k k' : State} {a e i p buf table : ℕ} {fd res : ℤ} {fh fh' : Filehandle}
  {f g : Forest} {name text : List UInt8} {names : List (List UInt8)}

/-! ### Directories -/

/-- The directory of the tree at entry `e`, with the forest that it holds. -/
def Directory (M : Memory) (f : Forest) (e : ℕ) (g : Forest) : Prop :=
  e = 0 ∧ g = f ∨ ∃ names st, f.locate M names (entryLocation M 0) = some (e, .dir st g)

theorem rowed_of_locate {node : Node} (h : f.Depicts M table) (hloc : f.locate M names table = some (e, node)) :
    node.Rowed M e := by
  induction names generalizing f table with
  | nil => cases hloc
  | cons name rest ih =>
    cases hfind : f.find name with
    | none =>
      cases rest with
      | nil => simp [Forest.locate, hfind] at hloc
      | cons next rest => simp [Forest.locate, hfind] at hloc
    | some found =>
      have hrow := row_of_find h.2 hfind
      rw [Nat.zero_add] at hrow
      cases rest with
      | nil =>
        simp only [Forest.locate, hfind, Option.map_some, Option.some.injEq, Prod.mk.injEq] at hloc
        obtain ⟨rfl, rfl⟩ := hloc
        exact hrow
      | cons next rest =>
        cases found with
        | file mode mtime bytes => simp [Forest.locate, hfind] at hloc
        | dir st children =>
          simp only [Forest.locate, hfind] at hloc
          exact ih hrow.2 hloc

/-- The table of a directory lists what it holds. -/
theorem Directory.depicts (h : f.Depicts M (entryLocation M 0)) (hdir : Directory M f e g) :
    g.Depicts M (entryLocation M e) := by
  rcases hdir with ⟨rfl, rfl⟩ | ⟨names, st, hloc⟩
  · exact h
  · exact (rowed_of_locate h hloc).2

theorem name_of_rows (h : f.Rows M table i) (j : ℕ) (hj : f.names[j]? = some name) :
    cstring M (entryName (dirEntryAt table (i + j))) = .ok name ∧ name.length ≤ MAX_FILENAME_LEN := by
  induction f generalizing i j with
  | nil => cases hj
  | file name' mode mtime bytes rest ih =>
    cases j with
    | zero =>
      obtain rfl := Option.some.inj hj
      exact ⟨h.1.string, h.1.length⟩
    | succ j =>
      rw [← Nat.add_assoc, Nat.add_right_comm]
      exact ih h.2.2 j hj
  | dir name' st children rest _ ih =>
    cases j with
    | zero =>
      obtain rfl := Option.some.inj hj
      exact ⟨h.1.string, h.1.length⟩
    | succ j =>
      rw [← Nat.add_assoc, Nat.add_right_comm]
      exact ih h.2.2.2.2 j hj

/-! ### What `snprintf` leaves in a buffer -/

theorem formatLoop_nonzero {fuel : ℕ} (h : formatLoop M fuel a = .ok text) : (0 : UInt8) ∉ text := by
  induction fuel generalizing a text with
  | zero => cases h
  | succ fuel ih =>
    by_cases hz : M a = 0
    · rw [formatLoop_nul h hz]
      exact List.not_mem_nil
    · by_cases hp : M a = char '%'
      · obtain ⟨pad, b, rest, -, hrest, rfl⟩ := formatLoop_percent h hp
        have hblank : (0 : UInt8) ∉ List.replicate (pad - 1) (char ' ') := by
          intro hmem
          exact absurd (List.eq_of_mem_replicate hmem) (by decide)
        rw [List.mem_append, not_or]
        refine ⟨?_, ih hrest⟩
        split
        · rw [List.mem_cons, not_or]
          exact ⟨by decide, hblank⟩
        · rw [List.mem_append, not_or]
          exact ⟨hblank, by decide⟩
      · obtain ⟨rest, hrest, rfl⟩ := formatLoop_plain h hz hp
        rw [List.mem_cons, not_or]
        exact ⟨fun hno => hz hno.symm, ih hrest⟩

theorem userBytes_add (k : State) (p a l n : ℕ) :
    userBytes k p a (l + n) = userBytes k p a l ++ userBytes k p (offset a l) n := by
  unfold userBytes
  rw [List.range_add, List.map_append, List.map_map]
  congr 1
  apply List.map_congr_left
  intro j _
  show userByte k p (offset a (l + j)) = userByte k p (offset (offset a l) j)
  rw [offset_offset]

theorem writeUserBytes_append (bs cs : List UInt8) (i : ℕ) :
    writeUserBytes p a (bs ++ cs) i = (do writeUserBytes p a bs i; writeUserBytes p a cs (i + bs.length)) := by
  induction bs generalizing i with
  | nil => rfl
  | cons b bs ih =>
    show (writeUser p (offset a i) b >>= fun _ => writeUserBytes p a (bs ++ cs) (i + 1)) = _
    rw [ih, List.length_cons, show i + (bs.length + 1) = i + 1 + bs.length by omega]
    exact (bind_assoc _ _ _).symm

/-- **Printing** stores the text as far as it fits, and a NUL. -/
theorem printUser_eq (size : ℕ) (text : List UInt8) :
    printUser p a (size + 1) text = writeUserBytes p a (text.take size ++ [0]) 0 := by
  rw [writeUserBytes_append]
  unfold printUser
  rw [if_pos (Nat.succ_pos _), Nat.add_sub_cancel, Nat.zero_add, List.length_take, Nat.min_comm]
  show _ = (writeUserBytes p a (text.take size) 0 >>= fun _ => writeUser p (offset a (min size text.length)) 0 >>= fun _ => pure ())
  rw [bind_pure]

/-- `d_name` of the `struct dirent` at `buf`. -/
def dirName (k : State) (p buf : ℕ) : List UInt8 :=
  (userBytes k p (offset buf 4) (NAME_MAX + 1)).takeWhile (· ≠ 0)

/-! ### One call -/

/-- A call of `getdent`. -/
structure DirCall where
  p : ℕ
  fd : ℤ
  buf : ℕ

/-- What the call writes to. -/
def DirCall.range (c : DirCall) : ReadCall := ⟨c.p, c.fd, c.buf, DIRENT_SIZE⟩

theorem syscallGetdent_eq {c : DirCall} (h : Ready m k a c.range) (hfh : k.handles a = some fh) (htype : fh.type = .dir) :
    syscallGetdent fs c.p c.fd c.buf k = nextEntry fs c.p a fh c.buf k := by
  have hget : getHandle a k = .ok fh k := by
    unfold getHandle
    rw [hfh]
  have hvalid : validPointer (k.space c.p) c.buf DIRENT_SIZE = true := h.valid
  have hnames : lookupFd k c.p c.fd = some a := h.names
  unfold syscallGetdent
  rw [run_get, if_pos hvalid, hnames]
  show (getHandle a >>= fun fh => if fh.type = .dir then nextEntry fs c.p a fh c.buf else return -ENOTDIR) k = _
  rw [run_bind hget, if_pos htype]

/-- **Behind the last row** the call returns 0. -/
theorem getdent_end {c : DirCall} (h : Ready m k a c.range) (hfh : k.handles a = some fh) (htype : fh.type = .dir)
    (hend : dirCount fs (entryLocation fs fh.entry) ≤ fh.entryno) :
    syscallGetdent fs c.p c.fd c.buf k = .ok 0 k := by
  rw [syscallGetdent_eq h hfh htype]
  unfold nextEntry
  exact congrFun (if_pos hend) k

theorem takeWhile_text (htext : (0 : UInt8) ∉ text) (rest : List UInt8) :
    (text ++ 0 :: rest).takeWhile (· ≠ 0) = text := by
  rw [List.takeWhile_append_of_pos, List.takeWhile_cons_of_neg, List.append_nil]
  · decide
  · intro c hc
    simpa using fun hz : c = 0 => htext (hz ▸ hc)

/-- **A row** is returned with its name, if the name can be printed. -/
theorem getdent_row {c : DirCall} (h : Ready m k a c.range) (hfh : k.handles a = some fh) (htype : fh.type = .dir)
    (hrow : fh.entryno < dirCount fs (entryLocation fs fh.entry))
    (htext : format fs (entryName (dirEntryAt (entryLocation fs fh.entry) fh.entryno)) = .ok text) :
    ∃ k', syscallGetdent fs c.p c.fd c.buf k = .ok 1 k' ∧
      k'.handles a = some { fh with entryno := fh.entryno + 1 } ∧ dirName k' c.p c.buf = text.take NAME_MAX := by
  rw [syscallGetdent_eq h hfh htype]
  unfold nextEntry
  obtain ⟨forked, asp, hsafe⟩ := id h.mapped
  have hregion : (k.space c.p).Region c.buf DIRENT_SIZE :=
    ((hsafe.sound h.live).validPointer_iff h.buf_lt (h.count_lt.trans (by decide))).mp h.valid
  have hlive : k.sched.Live c.p := h.live
  -- the inode number
  obtain ⟨P₁, log₁, h₁⟩ := writeUserBytes_ok c.buf (wordBytes 0) 0 h.mapped hlive (by
    intro j hj
    rw [Nat.zero_add]
    exact hregion j (hj.trans (by decide)))
  obtain ⟨hmap, hsched⟩ := h.mapped.writes hlive h₁
  -- the name
  have hlen : (text.take NAME_MAX ++ [0]).length ≤ NAME_MAX + 1 := by
    rw [List.length_append, List.length_take]
    exact Nat.add_le_add_right (Nat.min_le_left _ _) 1
  obtain ⟨P₂, log₂, h₂⟩ := writeUserBytes_ok (offset c.buf 4) (text.take NAME_MAX ++ [0]) 0 hmap hlive (by
    intro j hj
    have hroom : 4 + (0 + j) < DIRENT_SIZE := by
      have := hj.trans_le hlen
      simp only [NAME_MAX, DIRENT_SIZE] at this ⊢
      omega
    rw [offset_offset]
    exact hregion _ hroom)
  have hseen := hmap.seesBytes hlive (hlen.trans (by decide)) h₂
  have hmod : (fh.entryno + 1) % wordSize = fh.entryno + 1 := by
    have := readWord_lt fs (entryLocation fs fh.entry)
    exact Nat.mod_eq_of_lt (by unfold dirCount at hrow; omega)
  refine ⟨{ k with pages := P₂, log := log₂, handles := Function.update k.handles a (some { fh with entryno := fh.entryno + 1 }) },
    ?_, Function.update_self _ _ _, ?_⟩
  · show (if dirCount fs (entryLocation fs fh.entry) ≤ fh.entryno then pure 0 else _ : K ℤ) k = _
    rw [if_neg (Nat.not_le.mpr hrow), run_bind h₁, htext, hmod]
    show (printUser c.p (offset c.buf 4) (NAME_MAX + 1) text >>= _) _ = _
    rw [printUser_eq, run_bind h₂]
    rfl
  · have hnonzero : (0 : UInt8) ∉ text.take NAME_MAX := fun hno => formatLoop_nonzero htext (List.mem_of_mem_take hno)
    obtain ⟨d, hd⟩ := Nat.exists_eq_add_of_le hlen
    unfold dirName
    rw [hd, userBytes_add]
    have hbytes : userBytes { k with pages := P₂, log := log₂, handles := Function.update k.handles a (some { fh with entryno := fh.entryno + 1 }) }
        c.p (offset c.buf 4) (text.take NAME_MAX ++ [0]).length = text.take NAME_MAX ++ [0] := hseen
    rw [hbytes, List.append_assoc]
    exact takeWhile_text hnonzero _

/-- What a call that succeeds on a row has printed. -/
theorem getdent_row_inv {c : DirCall} (h : Ready m k a c.range) (hfh : k.handles a = some fh) (htype : fh.type = .dir)
    (hrow : fh.entryno < dirCount fs (entryLocation fs fh.entry)) (hok : syscallGetdent fs c.p c.fd c.buf k = .ok res k') :
    ∃ text, format fs (entryName (dirEntryAt (entryLocation fs fh.entry) fh.entryno)) = .ok text ∧
      dirName k' c.p c.buf = text.take NAME_MAX := by
  cases htext : format fs (entryName (dirEntryAt (entryLocation fs fh.entry) fh.entryno)) with
  | ok text =>
    obtain ⟨k'', hok', -, hname⟩ := getdent_row h hfh htype hrow htext
    obtain ⟨-, rfl⟩ := EStateM.Result.ok.inj (hok.symm.trans hok')
    exact ⟨text, rfl, hname⟩
  | error fault =>
    rw [syscallGetdent_eq h hfh htype] at hok
    unfold nextEntry at hok
    replace hok : (if dirCount fs (entryLocation fs fh.entry) ≤ fh.entryno then pure 0 else _ : K ℤ) k = _ := hok
    rw [if_neg (Nat.not_le.mpr hrow)] at hok
    obtain ⟨_, k₁, -, hok⟩ := bind_ok hok
    rw [htext] at hok
    cases hok

/-! ### A directory in use -/

/-- A handle just opened for the directory at `e`. -/
structure Fresh (fh : Filehandle) (e : ℕ) : Prop where
  type : fh.type = .dir
  entry : fh.entry = e
  entryno : fh.entryno = 0

/-- The handle `fh₀` is open for the directory of `fh`, at the same row. -/
structure SamePlace (fh fh₀ : Filehandle) : Prop where
  type : fh₀.type = fh.type
  entry : fh₀.entry = fh.entry
  entryno : fh₀.entryno = fh.entryno

/-- A history of the handle `a`: the calls of `getdent`, what each returned and the name that it left in its buffer,
and the handle before and after.  Between two calls other things may happen that keep the handle's place. -/
inductive Listing (m : Machine) (fs : Memory) (a : ℕ) : Filehandle → List DirCall → List (ℤ × List UInt8) → Filehandle → Prop where
  | done (fh : Filehandle) : Listing m fs a fh [] [] fh
  | next {k k' : State} {c : DirCall} {cs : List DirCall} {res : ℤ} {results : List (ℤ × List UInt8)}
      {fh fh₀ fh₁ fh' : Filehandle} : Ready m k a c.range → k.handles a = some fh₀ → SamePlace fh fh₀ →
      syscallGetdent fs c.p c.fd c.buf k = .ok res k' → k'.handles a = some fh₁ → Listing m fs a fh₁ cs results fh' →
      Listing m fs a fh (c :: cs) ((res, dirName k' c.p c.buf) :: results) fh'

theorem Listing.append {fh'' : Filehandle} {cs cs' : List DirCall} {results results' : List (ℤ × List UInt8)}
    (h : Listing m fs a fh cs results fh') (h' : Listing m fs a fh' cs' results' fh'') :
    Listing m fs a fh (cs ++ cs') (results ++ results') fh'' := by
  induction h with
  | done fh => exact h'
  | next hready hfh₀ hsame hok hfh₁ _ ih => exact .next hready hfh₀ hsame hok hfh₁ (ih h')

/-- The answer of a call at row `i`: the name, or 0 behind the last row. -/
def Answers (names : List (List UInt8)) (i : ℕ) (r : ℤ × List UInt8) : Prop :=
  (∀ name, names[i]? = some name → r = (1, name)) ∧ (names.length ≤ i → r.1 = 0)

/-- **Listings are exact**: `getdent` on a handle for the directory at `e` returns the names in order, and then 0. -/
structure ListsExactly (fs : Memory) (e : ℕ) (names : List (List UInt8)) : Prop where
  /-- Each call is served. -/
  served : ∀ m a fh cs results fh' k (c : DirCall) fh₀, Fresh fh e → Listing m fs a fh cs results fh' →
    Ready m k a c.range → k.handles a = some fh₀ → SamePlace fh' fh₀ →
    ∃ res k', syscallGetdent fs c.p c.fd c.buf k = .ok res k'
  /-- Each call is answered by its row. -/
  answered : ∀ m a fh cs results fh', Fresh fh e → Listing m fs a fh cs results fh' →
    ∀ i r, results[i]? = some r → Answers names i r

/-- One call on a directory whose names print themselves. -/
theorem getdent_ok {c : DirCall} (hg : g.Depicts fs (entryLocation fs e))
    (hprint : ∀ i name, g.names[i]? = some name → format fs (entryName (dirEntryAt (entryLocation fs e) i)) = .ok name)
    (h : Ready m k a c.range) (hfh : k.handles a = some fh) (htype : fh.type = .dir) (hentry : fh.entry = e)
    (hle : fh.entryno ≤ g.names.length) :
    ∃ res k', syscallGetdent fs c.p c.fd c.buf k = .ok res k' ∧ Answers g.names fh.entryno (res, dirName k' c.p c.buf) ∧
      ∃ fh', k'.handles a = some fh' ∧ fh'.type = .dir ∧ fh'.entry = e ∧
        fh'.entryno = min (fh.entryno + 1) g.names.length := by
  subst hentry
  cases hname : g.names[fh.entryno]? with
  | none =>
    have hend : g.names.length ≤ fh.entryno := List.getElem?_eq_none_iff.mp hname
    refine ⟨0, k, getdent_end h hfh htype (hg.1 ▸ hend), ⟨fun name hno => ?_, fun _ => rfl⟩, fh, hfh, htype, rfl, by omega⟩
    rw [hname] at hno
    cases hno
  | some name =>
    have hlt : fh.entryno < g.names.length := (List.getElem?_eq_some_iff.mp hname).1
    obtain ⟨k', hok, hfh', hseen⟩ := getdent_row h hfh htype (hg.1 ▸ hlt) (hprint _ _ hname)
    have hshort := (name_of_rows hg.2 _ hname).2
    refine ⟨1, k', hok, ⟨fun name' hname' => ?_, fun hno => absurd hno (by omega)⟩, _, hfh', htype, rfl, ?_⟩
    · obtain rfl := Option.some.inj (hname.symm.trans hname')
      rw [hseen, List.take_of_length_le (hshort.trans (by decide))]
    · show fh.entryno + 1 = _
      omega

/-- **A listing** goes through the rows in order. -/
theorem listing_ok (hg : g.Depicts fs (entryLocation fs e))
    (hprint : ∀ i name, g.names[i]? = some name → format fs (entryName (dirEntryAt (entryLocation fs e) i)) = .ok name)
    {cs : List DirCall} {results : List (ℤ × List UInt8)} (h : Listing m fs a fh cs results fh') (htype : fh.type = .dir)
    (hentry : fh.entry = e) (hle : fh.entryno ≤ g.names.length) :
    (fh'.type = .dir ∧ fh'.entry = e ∧ fh'.entryno ≤ g.names.length) ∧
      ∀ i r, results[i]? = some r → Answers g.names (fh.entryno + i) r := by
  induction h with
  | done fh => exact ⟨⟨htype, hentry, hle⟩, fun i r hr => by cases hr⟩
  | @next k k' c cs res results fh fh₀ fh₁ fh' hready hfh₀ hsame hok hfh₁ hrest ih =>
    obtain ⟨res', k'', hok', hanswer, fh₂, hfh₂, htype₂, hentry₂, hno₂⟩ := getdent_ok hg hprint hready hfh₀
      (hsame.type.trans htype) (hsame.entry.trans hentry) (hsame.entryno ▸ hle)
    obtain ⟨rfl, rfl⟩ := EStateM.Result.ok.inj (hok.symm.trans hok')
    obtain rfl := Option.some.inj (hfh₁.symm.trans hfh₂)
    rw [hsame.entryno] at hanswer hno₂
    obtain ⟨hend, hlater⟩ := ih htype₂ hentry₂ (by omega)
    refine ⟨hend, fun i r hr => ?_⟩
    cases i with
    | zero =>
      obtain rfl := Option.some.inj hr
      exact hanswer
    | succ i =>
      have hfound := hlater i r hr
      rcases Nat.lt_or_ge fh.entryno g.names.length with hlt | hge
      · rwa [hno₂, Nat.min_eq_left hlt, show fh.entryno.succ + i = fh.entryno + (i + 1) by omega] at hfound
      · -- behind the last row the handle stays where it is
        rw [hno₂, Nat.min_eq_right (by omega)] at hfound
        refine ⟨fun name hno => ?_, fun _ => hfound.2 (by omega)⟩
        rw [List.getElem?_eq_none (by omega)] at hno
        cases hno

/-! ### Exact listings -/

/-- Every handle can be asked: there is a process with a descriptor for it and a buffer. -/
theorem exists_ready : ∃ m a, ∀ fh, ∃ k, ∃ c : DirCall, Ready m k a c.range ∧ k.handles a = some fh := by
  obtain ⟨n, B, k, -, hmap, hs, -, -, -, hon⟩ := run_written Machine.bare 0 [] (by decide)
  have hlive : k.sched.Live 1 := by
    rw [hs]
    exact ⟨rfl, rfl⟩
  refine ⟨Machine.bare, 0, fun fh => ?_⟩
  let k' : State :=
    { k with filedesc := Function.update k.filedesc 1 (Function.update (k.filedesc 1) 0 (some 0)),
             handles := Function.update k.handles 0 (some fh) }
  have hmap' : Mapped Machine.bare k' := hmap
  refine ⟨k', ⟨1, 0, STACK_LOW⟩, ⟨hmap', hlive, ?_, by decide, ?_, by decide⟩, ?_⟩
  · show Function.update k.filedesc 1 (Function.update (k.filedesc 1) 0 (some 0)) 1 0 = some 0
    rw [Function.update_self, Function.update_self]
  · obtain ⟨forked, asp, hsafe⟩ := id hmap'
    refine ((hsafe.sound hlive).validPointer_iff (by decide) (by decide)).mpr fun j hj => ?_
    have hj' : j < DIRENT_SIZE := hj
    have hoff : offset STACK_LOW j = STACK_LOW + j := by
      apply Nat.mod_eq_of_lt
      simp only [STACK_LOW, PROCESS_STACK_BASE, PROCESS_STACK_SIZE, DIRENT_SIZE, wordSize] at hj' ⊢
      omega
    show (k.space 1).InRange (offset STACK_LOW j)
    rw [hoff]
    apply hon.stack
    · exact Nat.le_add_right _ _
    · simp only [STACK_LOW, PROCESS_STACK_BASE, PROCESS_STACK_SIZE, DIRENT_SIZE] at hj' ⊢
      omega
  · show Function.update k.handles 0 (some fh) 0 = some fh
    rw [Function.update_self]

/-- As long as the names print themselves, a listing gets to any row. -/
theorem exists_listing (hg : g.Depicts fs (entryLocation fs e)) (n : ℕ) (hfh : fh.type = .dir) (hentry : fh.entry = e)
    (hle : fh.entryno + n ≤ g.names.length)
    (hprint : ∀ i < fh.entryno + n, ∀ name, g.names[i]? = some name →
      format fs (entryName (dirEntryAt (entryLocation fs e) i)) = .ok name)
    (hm : ∀ fh, ∃ k, ∃ c : DirCall, Ready m k a c.range ∧ k.handles a = some fh) :
    ∃ cs results fh', Listing m fs a fh cs results fh' ∧ results.length = n ∧ fh'.type = .dir ∧ fh'.entry = e ∧
      fh'.entryno = fh.entryno + n := by
  induction n generalizing fh with
  | zero => exact ⟨[], [], fh, .done fh, rfl, hfh, hentry, rfl⟩
  | succ n ih =>
    subst hentry
    obtain ⟨k, c, hready, hk⟩ := hm fh
    obtain ⟨name, hname⟩ : ∃ name, g.names[fh.entryno]? = some name :=
      ⟨_, List.getElem?_eq_getElem (by omega)⟩
    obtain ⟨k', hok, hk', -⟩ := getdent_row hready hk hfh (hg.1 ▸ (by omega : fh.entryno < g.names.length))
      (hprint _ (by omega) _ hname)
    have hnext : ({ fh with entryno := fh.entryno + 1 } : Filehandle).type = .dir := hfh
    obtain ⟨cs, results, fh', hlisting, hlen, htype, hentry, hno⟩ := ih hnext rfl (by show fh.entryno + 1 + n ≤ _; omega)
      fun i hi => hprint i (by change i < fh.entryno + 1 + n at hi; omega)
    refine ⟨c :: cs, _ :: results, fh', .next hready hk ⟨rfl, rfl, rfl⟩ hok hk' hlisting, by simp [hlen], htype, hentry, ?_⟩
    rw [hno]
    show fh.entryno + 1 + n = _
    omega

/-- The listings of a directory whose names print themselves are exact. -/
theorem lists_of_print (hg : g.Depicts fs (entryLocation fs e))
    (hprint : ∀ i name, g.names[i]? = some name → format fs (entryName (dirEntryAt (entryLocation fs e) i)) = .ok name) :
    ListsExactly fs e g.names := by
  constructor
  · intro m a fh cs results fh' k c fh₀ hfresh hlisting hready hk hsame
    obtain ⟨⟨htype, hentry, hle⟩, -⟩ := listing_ok hg hprint hlisting hfresh.type hfresh.entry (hfresh.entryno ▸ Nat.zero_le _)
    obtain ⟨res, k', hok, -⟩ := getdent_ok hg hprint hready hk (hsame.type.trans htype) (hsame.entry.trans hentry)
      (hsame.entryno ▸ hle)
    exact ⟨res, k', hok⟩
  · intro m a fh cs results fh' hfresh hlisting i r hr
    have := (listing_ok hg hprint hlisting hfresh.type hfresh.entry (hfresh.entryno ▸ Nat.zero_le _)).2 i r hr
    rwa [hfresh.entryno, Nat.zero_add] at this

/-- If the listings are exact, each name prints itself.  The rows before the first that does not can be listed, and that
one is then returned wrong. -/
theorem print_of_lists (hg : g.Depicts fs (entryLocation fs e)) (hexact : ListsExactly fs e g.names) (i : ℕ)
    (hname : g.names[i]? = some name) : format fs (entryName (dirEntryAt (entryLocation fs e) i)) = .ok name := by
  induction i using Nat.strong_induction_on generalizing name with
  | _ i ih =>
    have hlt : i < g.names.length := (List.getElem?_eq_some_iff.mp hname).1
    obtain ⟨m, a, hm⟩ := exists_ready
    have hfresh : Fresh ⟨.dir, 1, 0, e, 0, 0⟩ e := ⟨rfl, rfl, rfl⟩
    obtain ⟨cs, results, fh, hlisting, hlen, htype, hentry, hno⟩ :=
      exists_listing hg i hfresh.type rfl (by show 0 + i ≤ _; omega)
        (fun j hj name' hname' => ih j (by change j < 0 + i at hj; omega) hname') hm
    replace hno : fh.entryno = i := hno.trans (Nat.zero_add i)
    have hrow : fh.entryno < dirCount fs (entryLocation fs fh.entry) := by
      rw [hentry, hg.1, hno]
      exact hlt
    -- one more call
    obtain ⟨k, c, hready, hk⟩ := hm fh
    obtain ⟨res, k', hok⟩ := hexact.served m a _ cs results fh k c fh hfresh hlisting hready hk ⟨rfl, rfl, rfl⟩
    obtain ⟨text, htext, hseen⟩ := getdent_row_inv hready hk htype hrow hok
    have hanswer : dirName k' c.p c.buf = name := by
      obtain ⟨k'', hok', hk', -⟩ := getdent_row hready hk htype hrow htext
      obtain ⟨rfl, rfl⟩ := EStateM.Result.ok.inj (hok.symm.trans hok')
      have hlonger := hlisting.append (.next hready hk ⟨rfl, rfl, rfl⟩ hok hk' (.done _))
      have hlast := hexact.answered m a _ _ _ _ hfresh hlonger i (1, dirName k' c.p c.buf)
        (by rw [List.getElem?_append_right (by omega), hlen, Nat.sub_self]; rfl)
      exact (Prod.mk.inj (hlast.1 name hname)).2
    rw [hentry, hno] at htext
    -- a name is shorter than the buffer, so nothing was cut off
    have hshort := (name_of_rows hg.2 i hname).2
    have htake : text.take NAME_MAX = name := hseen.symm.trans hanswer
    have hwhole : text.take NAME_MAX = text := by
      apply List.take_of_length_le
      by_contra hlong
      have := congrArg List.length htake
      rw [List.length_take] at this
      simp only [NAME_MAX, MAX_FILENAME_LEN] at *
      omega
    rw [hwhole] at htake
    exact htake ▸ htext

/-- The percent signs of the name in row `i` have a second NUL behind the name. -/
def Roomy (fs : Memory) (table i : ℕ) (name : List UInt8) : Prop :=
  char '%' ∈ name → fs (entryName (dirEntryAt table i) + name.length + 1) = 0

theorem print_iff (hg : g.Depicts fs table) (hname : g.names[i]? = some name) (hroom : Roomy fs table i name) :
    format fs (entryName (dirEntryAt table i)) = .ok name ↔ PercentLast name := by
  obtain ⟨hstring, hshort⟩ := name_of_rows hg.2 i hname
  rw [Nat.zero_add] at hstring
  refine format_eq_iff (textAt_of_cstringLoop hstring) ?_ hroom
  exact (Nat.add_le_add_right hshort 1).trans_lt (by decide)

/-- **Directory listing.**  In a well-formed image the listings of a directory are exact if in each of its names a
percent sign stands only at the end, with a second NUL behind the name.  Where there is room for that NUL in the field of
each name with a percent sign, they are exact only then. -/
theorem listing_exact_iff (h : f.Depicts fs (entryLocation fs 0)) (hdir : Directory fs f e g) :
    ((∀ i name, g.names[i]? = some name → PercentLast name ∧ Roomy fs (entryLocation fs e) i name) →
      ListsExactly fs e g.names) ∧
    ((∀ i name, g.names[i]? = some name → Roomy fs (entryLocation fs e) i name) →
      (ListsExactly fs e g.names ↔ ∀ name ∈ g.names, PercentLast name)) := by
  have hg := hdir.depicts h
  have henough : (∀ i name, g.names[i]? = some name → PercentLast name ∧ Roomy fs (entryLocation fs e) i name) →
      ListsExactly fs e g.names := fun hall =>
    lists_of_print hg fun i name hname => (print_iff hg hname (hall i name hname).2).mpr (hall i name hname).1
  refine ⟨henough, fun hroom => ⟨fun hexact name hmem => ?_, fun hlast => ?_⟩⟩
  · obtain ⟨i, hi⟩ := List.getElem?_of_mem hmem
    exact (print_iff hg hi (hroom i name hi)).mp (print_of_lists hg hexact i hi)
  · exact henough fun i name hname => ⟨hlast name (List.mem_of_getElem? hname), hroom i name hname⟩

/-! ### An image with one name -/

/-- The image with an empty file, whose name has the characters `c` and `d`. -/
def twoCharImage (c d : UInt8) : Memory := fun x =>
  if x = 4 then 1 else if x = 9 then 8 else if x = 2048 then 1 else if x = 2056 then 2 else if x = 2072 then c else if x = 2073 then d else 0

def twoCharForest (c d : UInt8) : Forest := .file [c, d] 0 0 [] .nil

/-- A name that ends in a percent sign is listed. -/
theorem listing_exact_last : ListsExactly (twoCharImage (char 'b') (char '%')) 0 [[char 'b', char '%']] := by
  have hdepicts : (twoCharForest (char 'b') (char '%')).Depicts (twoCharImage (char 'b') (char '%'))
      (entryLocation (twoCharImage (char 'b') (char '%')) 0) := by
    refine ⟨by decide, ⟨by decide +kernel, by decide, by decide, by decide, by decide⟩, by decide, trivial⟩
  refine (listing_exact_iff hdepicts (.inl ⟨rfl, rfl⟩)).1 fun i name hname => ?_
  cases i with
  | zero =>
    obtain rfl := Option.some.inj hname
    exact ⟨by decide, fun _ => by decide⟩
  | succ i => cases hname

/-- A name with a percent sign in front is not. -/
theorem listing_percent_first : ∃ f : Forest, f.Depicts (twoCharImage (char '%') (char 'b'))
    (entryLocation (twoCharImage (char '%') (char 'b')) 0) ∧
    Directory (twoCharImage (char '%') (char 'b')) f 0 f ∧
    ¬ ListsExactly (twoCharImage (char '%') (char 'b')) 0 f.names := by
  have hdepicts : (twoCharForest (char '%') (char 'b')).Depicts (twoCharImage (char '%') (char 'b'))
      (entryLocation (twoCharImage (char '%') (char 'b')) 0) := by
    refine ⟨by decide, ⟨by decide +kernel, by decide, by decide, by decide, by decide⟩, by decide, trivial⟩
  refine ⟨_, hdepicts, .inl ⟨rfl, rfl⟩, fun hexact => ?_⟩
  have hprint := (print_iff hdepicts (i := 0) rfl fun _ => by decide).mp (print_of_lists hdepicts hexact 0 rfl)
  exact absurd hprint (by decide)

end AdelaideOS.Image
