import AdelaideOS.Image.Lookup

/-!
# Reading a file of an image

`open` makes a handle at position zero for the row of a file, and each `read` through a descriptor of that handle
returns the next bytes of the file.  Other calls may come between two reads as long as they leave the handle's position
alone; a `Session` is a history of one handle.

* **`open_file`** — the handle that `open` makes;
* **`read_file`** — one read;
* **`session_ok`** — the pieces of a session are consecutive;
* **`image_round_trip`** — what `fstool` stores is found and read back.
-/

namespace AdelaideOS.Image

open AdelaideOS.Lib.Bytes AdelaideOS.Lib.Triple AdelaideOS.Lib.View AdelaideOS.Kernel AdelaideOS.Page AdelaideOS.Process

variable {m : Machine} {fs : Memory} {k k' : State} {lo hi a e p buf count : ℕ} {fd : ℤ} {fh : Filehandle}
  {mode mtime : ℕ} {bytes text : List UInt8}

/-! ### Opening -/

/-- **What `open` makes** of an entry. -/
theorem open_entry {ptr : ℕ} {flags : ℤ} (hptr : ptr < wordSize) (hstring : StringIs k p ptr text)
    (hentry : getDirectoryEntry fs (relativeToAbsolute (k.cwd p) text PATH_MAX) = .ok (.ok e))
    (hok : syscallOpen fs p ptr flags k = .ok fd k') (hfd : 0 ≤ fd) :
    ∃ a, lookupFd k' p fd = some a ∧
      k'.handles a = some ⟨if entryType fs e = TYPE_DIR then .dir else .file, 1, 0, e, 0, 0⟩ := by
  unfold syscallOpen at hok
  obtain ⟨valid, k₁, hvalid, hok⟩ := bind_ok hok
  have hl₁ : k₁.unlogged = k.unlogged := validStringLoop_inv hvalid
  cases valid with
  | false =>
    cases hok
    exact absurd hfd (by decide)
  | true =>
    rw [if_pos rfl, run_get] at hok
    cases hfree : freeFds k₁ p with
    | nil =>
      rw [hfree] at hok
      cases hok
      exact absurd hfd (by decide)
    | cons free others =>
      rw [hfree] at hok
      have hmem : free ∈ freeFds k₁ p := hfree ▸ List.mem_cons_self
      have hlt : free < MAX_FDS := List.mem_range.mp (List.mem_filter.mp hmem).1
      replace hok : openEntry fs p ptr flags free k₁ = .ok fd k' := hok
      unfold openEntry at hok
      obtain ⟨⟨abs, found⟩, k₂, hfind, hok⟩ := bind_ok hok
      -- the path is the string that the caller named
      have hfound : found = .ok e := by
        unfold findEntry at hfind
        obtain ⟨text', k₃, hread, hfind⟩ := bind_ok hfind
        obtain ⟨hs, hl₃⟩ := userString_inv hptr hread
        obtain rfl := hstring.unique (hs.unlogged hl₁)
        have hcwd : k₃.unlogged.cwd = k.unlogged.cwd := congrArg State.cwd (hl₃.trans hl₁)
        rw [run_get, show k₃.cwd = k.cwd from hcwd, hentry] at hfind
        cases hfind
        rfl
      subst hfound
      replace hok : (if flags = OPEN_DIRECTORY ∧ entryType fs e ≠ TYPE_DIR then pure (-ENOTDIR)
        else if flags ≠ OPEN_DIRECTORY ∧ entryType fs e = TYPE_DIR then pure (-EISDIR)
        else do
          let fh ← newHandle (if entryType fs e = TYPE_DIR then .dir else .file) 0 e
          setFd p free (some fh)
          return free : K ℤ) k₂ = .ok fd k' := hok
      by_cases hdir : flags = OPEN_DIRECTORY ∧ entryType fs e ≠ TYPE_DIR
      · rw [if_pos hdir] at hok
        cases hok
        exact absurd hfd (by decide)
      · rw [if_neg hdir] at hok
        by_cases hfile : flags ≠ OPEN_DIRECTORY ∧ entryType fs e = TYPE_DIR
        · rw [if_pos hfile] at hok
          cases hok
          exact absurd hfd (by decide)
        · rw [if_neg hfile] at hok
          obtain ⟨a, k₄, hnew, hok⟩ := bind_ok hok
          cases hok
          unfold newHandle at hnew
          obtain ⟨_, k₅, -, hnew⟩ := bind_ok hnew
          cases hnew
          refine ⟨a, ?_, Function.update_self _ _ _⟩
          unfold lookupFd
          rw [if_neg (by simp only [MAX_FDS] at hlt ⊢; omega), Int.toNat_natCast]
          show Function.update k₅.filedesc p (Function.update (k₅.filedesc p) free (some a)) p free = some a
          rw [Function.update_self, Function.update_self]

/-- **What `open` makes** of a file. -/
theorem open_file {ptr : ℕ} {flags : ℤ} (hptr : ptr < wordSize) (hstring : StringIs k p ptr text)
    (hentry : getDirectoryEntry fs (relativeToAbsolute (k.cwd p) text PATH_MAX) = .ok (.ok e))
    (htype : entryType fs e ≠ TYPE_DIR) (hok : syscallOpen fs p ptr flags k = .ok fd k') (hfd : 0 ≤ fd) :
    ∃ a, lookupFd k' p fd = some a ∧ k'.handles a = some ⟨.file, 1, 0, e, 0, 0⟩ := by
  obtain ⟨a, hname, hfh⟩ := open_entry hptr hstring hentry hok hfd
  rw [if_neg htype] at hfh
  exact ⟨a, hname, hfh⟩

/-! ### One read -/

/-- A call of `read`. -/
structure ReadCall where
  p : ℕ
  fd : ℤ
  buf : ℕ
  count : ℕ

/-- The call goes to the handle `a`, and the caller may write to the buffer. -/
structure Ready (m : Machine) (k : State) (a : ℕ) (c : ReadCall) : Prop where
  mapped : Mapped m k
  live : k.sched.Live c.p
  names : lookupFd k c.p c.fd = some a
  buf_lt : c.buf < wordSize
  valid : validPointer (k.space c.p) c.buf c.count = true
  count_lt : c.count < LIMIT

/-- How many bytes a read at a position returns. -/
theorem readable_eq {size pos : ℕ} (hsize : size < LIMIT) (hpos : pos ≤ size) (hcount : count < LIMIT) :
    readable size pos count = min count (size - pos) := by
  simp only [LIMIT] at hsize hcount
  unfold readable
  rw [Nat.mod_eq_of_lt (show pos + count < wordSize by simp only [wordSize]; omega)]
  split <;> omega

/-- **One read** returns the next bytes, and moves the position behind them. -/
theorem read_file {c : ReadCall} (h : Ready m k a c) (hfh : k.handles a = some fh) (htype : fh.type = .file)
    (hshown : (Node.file mode mtime bytes).Shown fs lo hi fh.entry) (hpos : fh.pos ≤ bytes.length) :
    ∃ k', syscallRead fs c.p c.fd c.buf c.count k = .ok (((bytes.drop fh.pos).take c.count).length : ℤ) k' ∧
      k'.handles a = some { fh with pos := fh.pos + ((bytes.drop fh.pos).take c.count).length } ∧
      userBytes k' c.p c.buf ((bytes.drop fh.pos).take c.count).length = (bytes.drop fh.pos).take c.count := by
  obtain ⟨-, -, -, hsize, hlimit, hload⟩ := hshown
  have hlen : ((bytes.drop fh.pos).take c.count).length = min c.count (bytes.length - fh.pos) := by
    rw [List.length_take, List.length_drop]
  have hget : getHandle a k = .ok fh k := by
    unfold getHandle
    rw [hfh]
  have hcall : syscallRead fs c.p c.fd c.buf c.count k = fileRead fs c.p a fh c.buf c.count k := by
    unfold syscallRead
    rw [run_get, if_pos h.valid, h.names]
    show (getHandle a >>= fun fh => readHandle fs c.p a fh c.buf c.count) k = _
    rw [run_bind hget]
    unfold readHandle
    rw [htype]
  rw [hcall]
  unfold fileRead
  simp only [hsize]
  by_cases hend : bytes.length ≤ fh.pos
  · -- nothing is left
    have hnil : (bytes.drop fh.pos).take c.count = [] := by
      rw [List.drop_eq_nil_of_le hend, List.take_nil]
    rw [if_pos hend, hnil]
    exact ⟨k, rfl, by rw [hfh]; rfl, rfl⟩
  · rw [if_neg hend, readable_eq hlimit hpos h.count_lt, ← hlen]
    have hbytes : loadBytes fs (entryLocation fs fh.entry + fh.pos) ((bytes.drop fh.pos).take c.count).length =
        (bytes.drop fh.pos).take c.count := by
      have hsplit : bytes = bytes.take fh.pos ++ (bytes.drop fh.pos).take c.count ++
          (bytes.drop fh.pos).drop c.count := by
        rw [List.append_assoc, List.take_append_drop, List.take_append_drop]
      have hmiddle := loadBytes_middle _ _ (hload.trans hsplit)
      rwa [List.length_take, Nat.min_eq_left hpos] at hmiddle
    rw [hbytes]
    obtain ⟨forked, asp, hsafe⟩ := id h.mapped
    have hcount : c.count < wordSize := h.count_lt.trans (by decide)
    have hregion := ((hsafe.sound h.live).validPointer_iff h.buf_lt hcount).mp h.valid
    obtain ⟨P, log, hwrite⟩ := writeUserBytes_ok c.buf ((bytes.drop fh.pos).take c.count) 0 h.mapped h.live (by
      intro j hj
      rw [Nat.zero_add]
      exact hregion j (by omega))
    have hseen := h.mapped.seesBytes h.live (by
      rw [hlen]
      exact (Nat.min_le_left _ _).trans hcount.le) hwrite
    have hmod : (fh.pos + ((bytes.drop fh.pos).take c.count).length) % wordSize =
        fh.pos + ((bytes.drop fh.pos).take c.count).length := by
      apply Nat.mod_eq_of_lt
      simp only [LIMIT] at hlimit
      simp only [wordSize]
      omega
    have hint : toInt ((bytes.drop fh.pos).take c.count).length = (((bytes.drop fh.pos).take c.count).length : ℤ) := by
      apply if_pos
      simp only [LIMIT] at hlimit
      omega
    rw [run_bind hwrite, hint, hmod]
    exact ⟨_, rfl, Function.update_self _ _ _, hseen⟩

/-! ### A handle in use -/

/-- The pieces that reads of the given counts cut from the bytes. -/
def pieces : List UInt8 → List ℕ → List (List UInt8)
  | _, [] => []
  | bytes, n :: counts => bytes.take n :: pieces (bytes.drop n) counts

/-- What a read that returns a piece answers. -/
def answerOf (piece : List UInt8) : ℤ × List UInt8 := (piece.length, piece)

theorem pieces_flatten (bytes : List UInt8) (counts : List ℕ) : (pieces bytes counts).flatten = bytes.take counts.sum := by
  induction counts generalizing bytes with
  | nil => rfl
  | cons n counts ih =>
    show bytes.take n ++ (pieces (bytes.drop n) counts).flatten = _
    rw [ih, List.sum_cons, List.take_add]

theorem pieces_end (counts : List ℕ) (i : ℕ) {piece : List UInt8} (h : bytes.length ≤ (counts.take i).sum)
    (hi : (pieces bytes counts)[i]? = some piece) : piece = [] := by
  induction counts generalizing bytes i with
  | nil => cases hi
  | cons n counts ih =>
    cases i with
    | zero =>
      have hnil : bytes = [] := List.eq_nil_of_length_eq_zero (Nat.le_zero.mp h)
      obtain rfl := Option.some.inj hi
      rw [hnil, List.take_nil]
    | succ i =>
      apply ih i _ hi
      rw [List.length_drop]
      rw [List.take_succ_cons, List.sum_cons] at h
      omega

/-- A history of the handle `a`: the calls of `read`, what each returned and put into its buffer, and the handle
before and after.  Between two calls other things may happen that keep the handle's file and position. -/
inductive Session (m : Machine) (fs : Memory) (a : ℕ) : Filehandle → List ReadCall → List (ℤ × List UInt8) → Filehandle → Prop where
  | done (fh : Filehandle) : Session m fs a fh [] [] fh
  | read {k k' : State} {c : ReadCall} {cs : List ReadCall} {res : ℤ} {results : List (ℤ × List UInt8)}
      {fh fh₀ fh₁ fh' : Filehandle} : Ready m k a c → k.handles a = some fh₀ → fh₀.type = fh.type →
      fh₀.entry = fh.entry → fh₀.pos = fh.pos → syscallRead fs c.p c.fd c.buf c.count k = .ok res k' →
      k'.handles a = some fh₁ → Session m fs a fh₁ cs results fh' →
      Session m fs a fh (c :: cs) ((res, userBytes k' c.p c.buf res.toNat) :: results) fh'

theorem drop_take_length (l : List UInt8) (n : ℕ) : l.drop (l.take n).length = l.drop n := by
  rw [List.length_take]
  rcases Nat.le_total n l.length with h | h
  · rw [Nat.min_eq_left h]
  · rw [Nat.min_eq_right h, List.drop_eq_nil_of_le h, List.drop_length]

/-- **The pieces of a session** are consecutive, from the position of the handle on. -/
theorem session_ok {fh' : Filehandle} {cs : List ReadCall} {results : List (ℤ × List UInt8)}
    (h : Session m fs a fh cs results fh') (htype : fh.type = .file)
    (hshown : (Node.file mode mtime bytes).Shown fs lo hi fh.entry) (hpos : fh.pos ≤ bytes.length) :
    results = (pieces (bytes.drop fh.pos) (cs.map ReadCall.count)).map answerOf := by
  induction h with
  | done fh => rfl
  | @read k k' c cs res results fh fh₀ fh₁ fh' hready hfh₀ ht he hp hok hfh₁ hrest ih =>
    obtain ⟨k'', hok', hfh', hseen⟩ := read_file hready hfh₀ (ht.trans htype) (he ▸ hshown) (hp ▸ hpos)
    obtain ⟨rfl, rfl⟩ := EStateM.Result.ok.inj (hok.symm.trans hok')
    obtain rfl := Option.some.inj (hfh₁.symm.trans hfh')
    have hlen : ((bytes.drop fh₀.pos).take c.count).length ≤ bytes.length - fh₀.pos := by
      rw [List.length_take, List.length_drop]
      exact Nat.min_le_right _ _
    have hpos₀ : fh₀.pos ≤ bytes.length := hp ▸ hpos
    have hlater := ih (ht.trans htype) (he ▸ hshown) (by
      show fh₀.pos + _ ≤ _
      omega)
    rw [hlater]
    show _ = answerOf ((bytes.drop fh.pos).take c.count) ::
      (pieces ((bytes.drop fh.pos).drop c.count) (cs.map ReadCall.count)).map answerOf
    rw [Int.toNat_natCast, hseen, ← hp, ← List.drop_drop, drop_take_length]
    rfl

/-! ### The round trip -/

/-- The row at `e` has the type, the mode, the modification time and, for a file, the size of the node. -/
def Node.Described (fs : Memory) (e : ℕ) : Node → Prop
  | .file mode mtime bytes =>
    entryType fs e = TYPE_FILE ∧ entryMode fs e = mode % wordSize ∧ entryMtime fs e = mtime % wordSize ∧
      entrySize fs e = bytes.length
  | .dir st _ =>
    entryType fs e = TYPE_DIR ∧ entryMode fs e = st.mode % wordSize ∧ entryMtime fs e = st.mtime % wordSize

/-- The file at the absolute path `path`, with the row `e`, can be read back. -/
structure ReadsBack (fs : Memory) (path : List UInt8) (e : ℕ) (bytes : List UInt8) : Prop where
  /-- A descriptor that `open` returns is one of a new handle for the file. -/
  opened : ∀ k p ptr text flags fd k', ptr < wordSize → StringIs k p ptr text →
    relativeToAbsolute (k.cwd p) text PATH_MAX = path → syscallOpen fs p ptr flags k = .ok fd k' → 0 ≤ fd →
    ∃ a, lookupFd k' p fd = some a ∧ k'.handles a = some ⟨.file, 1, 0, e, 0, 0⟩
  /-- Each read is served. -/
  served : ∀ m k a c fh, Ready m k a c → k.handles a = some fh → fh.type = .file → fh.entry = e → fh.pos ≤ bytes.length →
    ∃ res k', syscallRead fs c.p c.fd c.buf c.count k = .ok res k'
  /-- The reads of a new handle return consecutive pieces of the file. -/
  pieces : ∀ m a fh cs results fh', Session m fs a fh cs results fh' → fh.type = .file → fh.entry = e → fh.pos = 0 →
    results = (Image.pieces bytes (cs.map ReadCall.count)).map answerOf
  /-- Put together they are the beginning of the file, or the whole file. -/
  together : ∀ m a fh cs results fh', Session m fs a fh cs results fh' → fh.type = .file → fh.entry = e → fh.pos = 0 →
    (results.map Prod.snd).flatten = bytes.take (cs.map ReadCall.count).sum
  /-- Behind the end of the file a read returns zero. -/
  atEnd : ∀ m a fh cs results fh' i r, Session m fs a fh cs results fh' → fh.type = .file → fh.entry = e → fh.pos = 0 →
    bytes.length ≤ ((cs.map ReadCall.count).take i).sum → results[i]? = some r → r = (0, [])

theorem map_snd_answerOf (l : List (List UInt8)) : (l.map answerOf).map Prod.snd = l := by
  rw [List.map_map]
  exact List.map_id l

theorem readsBack {path : List UInt8} (hentry : getDirectoryEntry fs path = .ok (.ok e))
    (hshown : (Node.file mode mtime bytes).Shown fs lo hi e) : ReadsBack fs path e bytes := by
  have htype : entryType fs e ≠ TYPE_DIR := by
    rw [hshown.1]
    decide
  have hpieces : ∀ m a fh cs results fh', Session m fs a fh cs results fh' → fh.type = .file → fh.entry = e → fh.pos = 0 →
      results = (pieces bytes (cs.map ReadCall.count)).map answerOf := by
    intro m a fh cs results fh' hs hfile he hpos
    have h := session_ok hs hfile (he ▸ hshown) (hpos ▸ Nat.zero_le _)
    rwa [hpos, List.drop_zero] at h
  constructor
  · intro k p ptr text flags fd k' hptr hs hpath hok hfd
    exact open_file hptr hs (hpath ▸ hentry) htype hok hfd
  · intro m k a c fh hready hfh hfile he hpos
    obtain ⟨k', hok, -⟩ := read_file hready hfh hfile (he ▸ hshown) hpos
    exact ⟨_, k', hok⟩
  · exact hpieces
  · intro m a fh cs results fh' hs hfile he hpos
    rw [hpieces m a fh cs results fh' hs hfile he hpos, map_snd_answerOf, pieces_flatten]
  · intro m a fh cs results fh' i r hs hfile he hpos hend hr
    rw [hpieces m a fh cs results fh' hs hfile he hpos, List.getElem?_map] at hr
    obtain ⟨piece, hpiece, rfl⟩ := Option.map_eq_some_iff.mp hr
    rw [pieces_end _ i hend hpiece]
    rfl

/-- The root entry leads to the first table. -/
theorem root_location (g : Garbage) {fs : Memory} (hload : loadBytes fs 0 ENTRY_SIZE = rootEntry g) :
    entryLocation fs 0 = ENTRY_SIZE := by
  have hword := readWord_of_loadBytes (a := 0) (n := ENTRY_SIZE) (w := ENTRY_SIZE) (wordBytes 0 ++ wordBytes TYPE_DIR)
    ((List.range 8).map g.root ++ [char 'R', char 'O', char 'O', char 'T', 0] ++
      (List.range 251).map fun i => g.root (8 + i)) (by
      rw [hload]
      simp only [rootEntry, List.append_assoc])
  exact hword.trans (by decide)

/-- The output is the image of the forest, in every memory that holds it. -/
theorem build_shows {host : Host} {path : List UInt8} {f : Forest} (g : Garbage) (h : Storable host path f) :
    ∃ out, (∀ fuel, f.depth < fuel → build host g fuel path = .ok out) ∧ out.size = ENTRY_SIZE + f.size ∧
      ∀ fs : Memory, (∀ x < out.size, fs x = out.data x) →
        f.Shows fs ENTRY_SIZE out.size (entryLocation fs 0) := by
  obtain ⟨out, hbuild, hsize, hroot, hshows⟩ := build_ok g h
  refine ⟨out, hbuild, hsize, fun fs hfs => ?_⟩
  have hload : loadBytes fs 0 ENTRY_SIZE = rootEntry g := by
    rw [← hroot]
    apply loadBytes_congr
    intro i hi
    exact hfs _ (by omega)
  rw [root_location g hload]
  obtain ⟨es, hlo, hend, hload, hfilled⟩ := hshows
  refine ⟨es, hlo, hend, ?_, hfilled.congr fun x _ hx => hfs x hx⟩
  rw [← hload]
  apply loadBytes_congr
  intro i hi
  exact hfs _ (by omega)

/-- **The round trip**: what `fstool` stores is found under its path, and every file is read back. -/
theorem image_round_trip {host : Host} {path : List UInt8} {f : Forest} (g : Garbage) (h : Storable host path f) :
    ∃ out, (∀ fuel, f.depth < fuel → build host g fuel path = .ok out) ∧ out.size = ENTRY_SIZE + f.size ∧
      ∀ fs : Memory, (∀ x < out.size, fs x = out.data x) → ∀ names node, f.get? names = some node →
        ∃ e, getDirectoryEntry fs (joined names) = .ok (.ok e) ∧ node.Described fs e ∧
          ∀ mode mtime bytes, node = .file mode mtime bytes → ReadsBack fs (joined names) e bytes := by
  obtain ⟨out, hbuild, hsize, hshows⟩ := build_shows g h
  refine ⟨out, hbuild, hsize, ?_⟩
  intro fs hfs names node hget
  have hlimit : out.size < LIMIT := hsize ▸ h.small
  obtain ⟨e, hentry, hshown⟩ := getDirectoryEntry_ok names hlimit (hshows fs hfs) h.named hget
  refine ⟨e, hentry, ?_, ?_⟩
  · cases node with
    | file mode mtime bytes => exact ⟨hshown.1, hshown.2.1, hshown.2.2.1, hshown.2.2.2.1⟩
    | dir st children => exact ⟨hshown.1, hshown.2.1, hshown.2.2.1⟩
  · rintro mode mtime bytes rfl
    exact readsBack hentry hshown

/-- A directory with a file and a subdirectory that holds another file. -/
def sampleForest : Forest :=
  .file [char 'a'] 0x81A4 7 [1, 2, 3] (.dir [char 'b'] ⟨0x41ED, 4096, 8⟩ (.file [char 'c'] 0x8180 9 [4, 5] .nil) .nil)

def sampleHost : Host where
  pathMax := 1024
  readdir := fun path =>
    if path = [char 'r'] then some [[char '.'], [char '.', char '.'], [char 'a'], [char 'b']]
    else if path = [char 'r', char '/', char 'b'] then some [[char '.'], [char 'c'], [char '.', char '.']]
    else none
  stat := fun path =>
    if path = [char 'r', char '/', char 'a'] then some ⟨0x81A4, 3, 7⟩
    else if path = [char 'r', char '/', char 'b'] then some ⟨0x41ED, 4096, 8⟩
    else if path = [char 'r', char '/', char 'b', char '/', char 'c'] then some ⟨0x8180, 2, 9⟩
    else none
  read := fun path =>
    if path = [char 'r', char '/', char 'a'] then some [1, 2, 3]
    else if path = [char 'r', char '/', char 'b', char '/', char 'c'] then some [4, 5]
    else none

theorem storable_sample : Storable sampleHost [char 'r'] sampleForest where
  listed := ⟨_, rfl, by decide⟩
  held := ⟨by decide, by decide, by decide, by decide, by decide, ⟨_, rfl, by decide⟩,
    ⟨by decide, by decide, by decide, trivial⟩, trivial⟩
  named := by
    have hplain : ∀ c : UInt8, c ≠ char '/' → c ≠ 0 → ignoreFile [c] = false → Forest.Named.Plain [c] := by
      intro c hs hz hkept
      refine ⟨Nat.le_refl 1, Nat.le_of_lt (by simp), ?_, ?_, hkept⟩
      · rw [List.mem_singleton]
        exact hs.symm
      · rw [List.mem_singleton]
        exact hz.symm
    have ha := hplain (char 'a') (by decide) (by decide) (by decide)
    have hb := hplain (char 'b') (by decide) (by decide) (by decide)
    have hc := hplain (char 'c') (by decide) (by decide) (by decide)
    exact ⟨ha, by decide, hb, by decide, ⟨hc, by decide, trivial⟩, trivial⟩
  short := ⟨by decide, by decide, ⟨by decide, trivial⟩, trivial⟩
  small := by
    have hsize : sampleForest.size = 841 := rfl
    rw [hsize]
    simp only [ENTRY_SIZE, LIMIT]
    decide

/-- The file in the subdirectory is found in the image, and read back. -/
theorem image_round_trip_sample :
    ∃ out, build sampleHost ⟨fun _ _ => 0, fun _ _ => 0, fun _ => 0⟩ 2 [char 'r'] = .ok out ∧
      ∃ e, getDirectoryEntry out.data [char '/', char 'b', char '/', char 'c'] = .ok (.ok e) ∧
        entryType out.data e = TYPE_FILE ∧ entryMode out.data e = 0x8180 ∧ entryMtime out.data e = 9 ∧
        entrySize out.data e = 2 ∧
        ReadsBack out.data [char '/', char 'b', char '/', char 'c'] e [4, 5] := by
  obtain ⟨out, hbuild, -, hread⟩ :=
    image_round_trip ⟨fun _ _ => 0, fun _ _ => 0, fun _ => 0⟩ storable_sample
  obtain ⟨e, hentry, ⟨htype, hmode, hmtime, hsize⟩, hback⟩ := hread out.data (fun _ _ => rfl)
    [[char 'b'], [char 'c']] (.file 0x8180 9 [4, 5]) rfl
  exact ⟨out, hbuild 2 (by decide), e, hentry, htype, hmode, hmtime, hsize, hback _ _ _ rfl⟩

end AdelaideOS.Image
