import AdelaideOS.Kernel.Answers
import AdelaideOS.Kernel.Execve
import AdelaideOS.Kernel.Overlong

/-!
# Current directories

The directories that `chdir` leads to, call after call.  As long as the paths fit, the current directory is the
canonical text of a list of components, and `chdir`, `stat` and `open` use the entry that their path names.

* **`paths_resolve`** — all current directories that are reached so, and all paths that fit;
* **`chdir_cut`** — a path that does not fit leads to another directory.
-/

namespace AdelaideOS.Kernel

open AdelaideOS.Buddy AdelaideOS.Lib.Bytes AdelaideOS.Lib.Triple AdelaideOS.Lib.View AdelaideOS.Page AdelaideOS.Process

variable {m : Machine} {k k' : State} {p path buf : ℕ} {fs : Memory} {base rel : List UInt8} {L L' : List ℕ}

/-! ### The calls -/

/-- What a call of `chdir` may do.  It faults only where the image does. -/
def ChdirObeys (fs : Memory) (p : ℕ) (rel : List UInt8) (k : State) : EStateM.Result Fault State ℤ → Prop
  | .ok res k' =>
    res < 0 ∧ k'.cwd = k.cwd ∨
      res = 0 ∧ (∃ entry, Names fs (k.cwd p) rel entry ∧ entryType fs entry = TYPE_DIR) ∧
        k'.cwd = Function.update k.cwd p (canonicalText (resolved (k.cwd p) rel))
  | .error e k' => k'.cwd = k.cwd ∧ getDirectoryEntry fs (canonicalText (resolved (k.cwd p) rel)) = .error e

/-- What a call of `stat` may do: on success, the fields of the entry are in the buffer. -/
def StatObeys (fs : Memory) (p buf : ℕ) (rel : List UInt8) (k : State) : EStateM.Result Fault State ℤ → Prop
  | .ok res k' =>
    k'.cwd = k.cwd ∧ (res < 0 ∨ res = 0 ∧ ∃ entry, Names fs (k.cwd p) rel entry ∧ userBytes k' p buf 20 = statBytes fs entry)
  | .error e k' => k'.cwd = k.cwd ∧ getDirectoryEntry fs (canonicalText (resolved (k.cwd p) rel)) = .error e

/-- What a call of `open` may do: on success, there is a handle for the entry.  It also faults if the heap is full. -/
def OpenObeys (fs : Memory) (p : ℕ) (rel : List UInt8) (k : State) : EStateM.Result Fault State ℤ → Prop
  | .ok res k' =>
    k'.cwd = k.cwd ∧ (res < 0 ∨ ∃ fd a fh, res = (fd : ℕ) ∧ k'.filedesc p fd = some a ∧ k'.handles a = some fh ∧
      Names fs (k.cwd p) rel fh.entry)
  | .error e k' =>
    k'.cwd = k.cwd ∧ (getDirectoryEntry fs (canonicalText (resolved (k.cwd p) rel)) = .error e ∨
      buddyAlloc .kernel k.heap 36 = .error e)

/-- The entry that the path leads to, when the log is `L'`. -/
def foundWith (fs : Memory) (k : State) (p : ℕ) (rel : List UInt8) (L' : List ℕ) :
    EStateM.Result Fault State (List UInt8 × Except ℤ ℕ) :=
  match getDirectoryEntry fs (relativeToAbsolute (k.cwd p) rel PATH_MAX) with
  | .ok found => .ok (relativeToAbsolute (k.cwd p) rel PATH_MAX, found) (k.touching L')
  | .error e => .error e (k.touching L')

/-- **A valid string** is read and looked up. -/
theorem findEntry_ok (hs : Sound k p) (ha : path < wordSize) (hstr : StringAt k p path) (htext : StringIs k p path rel) :
    ∃ L L', validString p path k = .ok true (k.touching L) ∧ Logged (k.space p) k (k.touching L') ∧
      ∀ fs, findEntry fs p path (k.touching L) = foundWith fs k p rel L' := by
  obtain ⟨b, k₁, hok, hl, hb⟩ := validString_ok hs ha
  obtain rfl := hb.mpr hstr
  obtain ⟨text, k₂, hok', hl'⟩ := userString_ok (hl.sound hs) ha (hl.stringAt.mpr hstr)
  obtain rfl : rel = text := htext.unique ((userString_inv ha hok').1.unlogged hl.unlogged)
  rw [hl.space] at hl'
  have hlogged := hl.trans hl'
  obtain ⟨L, rfl⟩ := hl.touching
  obtain ⟨L', rfl⟩ := hlogged.touching
  refine ⟨L, L', hok, hlogged, fun fs => ?_⟩
  unfold findEntry foundWith
  rw [run_bind hok', run_get]
  cases hfound : getDirectoryEntry fs (relativeToAbsolute (k.cwd p) rel PATH_MAX) with
  | ok found =>
    have hlift : lift (getDirectoryEntry fs (relativeToAbsolute (k.cwd p) rel PATH_MAX)) (k.touching L') =
        .ok found (k.touching L') := by
      unfold lift
      rw [hfound]
    exact run_bind hlift
  | error e =>
    have hlift : lift (getDirectoryEntry fs (relativeToAbsolute (k.cwd p) rel PATH_MAX)) (k.touching L') =
        .error e (k.touching L') := by
      unfold lift
      rw [hfound]
    exact run_bind_error hlift

theorem foundWith_fits (fs : Memory) (L' : List ℕ) (hcwd : IsCwd (k.cwd p)) (hz : (0 : UInt8) ∉ rel)
    (hfits : Fits (k.cwd p) rel) :
    (∃ e, getDirectoryEntry fs (canonicalText (resolved (k.cwd p) rel)) = .error e ∧
      foundWith fs k p rel L' = .error e (k.touching L')) ∨
    (∃ e, e < 0 ∧ foundWith fs k p rel L' = .ok (canonicalText (resolved (k.cwd p) rel), .error e) (k.touching L')) ∨
    ∃ entry, Names fs (k.cwd p) rel entry ∧
      foundWith fs k p rel L' = .ok (canonicalText (resolved (k.cwd p) rel), .ok entry) (k.touching L') := by
  unfold foundWith
  rw [relativeToAbsolute_fits hcwd hz hfits]
  cases hfound : getDirectoryEntry fs (canonicalText (resolved (k.cwd p) rel)) with
  | error e => exact Or.inl ⟨e, rfl, rfl⟩
  | ok found =>
    cases found with
    | error e =>
      have he : e = -ENOENT := walk_enoent hfound
      exact Or.inr (Or.inl ⟨e, by rw [he]; decide, rfl⟩)
    | ok entry => exact Or.inr (Or.inr ⟨entry, hfound, rfl⟩)

/-- **`chdir`** -/
theorem syscallChdir_obeys (hs : Sound k p) (ha : path < wordSize) (hstr : StringAt k p path)
    (htext : StringIs k p path rel) (hcwd : IsCwd (k.cwd p)) (hfits : Fits (k.cwd p) rel) :
    ChdirObeys fs p rel k (syscallChdir fs p path k) := by
  obtain ⟨L, L', hvalid, -, hfind⟩ := findEntry_ok hs ha hstr htext
  unfold syscallChdir
  rw [run_bind hvalid, if_pos rfl]
  unfold changeDir
  rcases foundWith_fits fs L' hcwd htext.1 hfits with ⟨e, hfault, hfound⟩ | ⟨e, he, hfound⟩ | ⟨entry, hnames, hfound⟩
  · rw [run_bind_error ((hfind fs).trans hfound)]
    exact ⟨rfl, hfault⟩
  · rw [run_bind ((hfind fs).trans hfound)]
    exact Or.inl ⟨he, rfl⟩
  · rw [run_bind ((hfind fs).trans hfound)]
    simp only
    by_cases hdir : entryType fs entry ≠ TYPE_DIR
    · rw [if_pos hdir]
      exact Or.inl ⟨by decide, rfl⟩
    · rw [if_neg hdir]
      exact Or.inr ⟨rfl, ⟨entry, hnames, not_not.mp hdir⟩, rfl⟩

/-- Whatever the buffer holds, `chdir` enters a directory. -/
theorem syscallChdir_enters {entry : ℕ} (hs : Sound k p) (ha : path < wordSize) (hstr : StringAt k p path)
    (htext : StringIs k p path rel)
    (hfound : getDirectoryEntry fs (relativeToAbsolute (k.cwd p) rel PATH_MAX) = .ok (.ok entry))
    (hdir : entryType fs entry = TYPE_DIR) : ∃ k', syscallChdir fs p path k = .ok 0 k' := by
  obtain ⟨L, L', hvalid, -, hfind⟩ := findEntry_ok hs ha hstr htext
  have hwith := hfind fs
  unfold foundWith at hwith
  rw [hfound] at hwith
  unfold syscallChdir
  rw [run_bind hvalid, if_pos rfl]
  unfold changeDir
  rw [run_bind hwith]
  simp only
  rw [if_neg (not_not_intro hdir)]
  exact ⟨_, rfl⟩

/-- **`stat`** -/
theorem syscallStat_obeys (h : Mapped m k) (hp : k.sched.Live p) (ha : path < wordSize) (hb : buf < wordSize)
    (hstr : StringAt k p path) (htext : StringIs k p path rel) (hcwd : IsCwd (k.cwd p)) (hfits : Fits (k.cwd p) rel) :
    StatObeys fs p buf rel k (syscallStat fs p path buf k) := by
  obtain ⟨forked, asp, hsafe⟩ := id h
  have hs := hsafe.sound hp
  obtain ⟨L, L', hvalid, -, hfind⟩ := findEntry_ok hs ha hstr htext
  unfold syscallStat
  rw [run_bind hvalid, run_get]
  by_cases hptr : true = true ∧ validPointer ((k.touching L).space p) buf 20 = true
  · rw [if_pos hptr]
    unfold statEntry
    rcases foundWith_fits fs L' hcwd htext.1 hfits with ⟨e, hfault, hfound⟩ | ⟨e, he, hfound⟩ | ⟨entry, hnames, hfound⟩
    · rw [run_bind_error ((hfind fs).trans hfound)]
      exact ⟨rfl, hfault⟩
    · rw [run_bind ((hfind fs).trans hfound)]
      exact ⟨rfl, Or.inl he⟩
    · have hlen : (statBytes fs entry).length = 20 := rfl
      have hmap : Mapped m (k.touching L') := ⟨forked, asp, hsafe⟩
      have hregion := (hs.validPointer_iff hb (by decide)).mp hptr.2
      obtain ⟨P, log, hok⟩ := writeUserBytes_ok buf (statBytes fs entry) 0 hmap hp fun j hj => by
        rw [Nat.zero_add]
        exact hregion j (by rw [hlen] at hj; exact hj)
      have hseen := hmap.seesBytes hp (by rw [hlen]; decide) hok
      rw [run_bind ((hfind fs).trans hfound)]
      simp only
      rw [run_bind hok]
      rw [hlen] at hseen
      exact ⟨rfl, Or.inr ⟨rfl, entry, hnames, hseen⟩⟩
  · rw [if_neg hptr]
    exact ⟨rfl, Or.inl (by decide)⟩

theorem newHandle_full (type : FhType) (entry : ℕ) {e : Fault} (h : buddyAlloc .kernel k.heap 36 = .error e) :
    newHandle type 0 entry k = .error e k := by
  have hfull : kmalloc 36 k = .error e k := by
    unfold kmalloc onHeap
    simp only [h]
  exact run_bind_error hfull

theorem newHandle_room (type : FhType) (entry : ℕ) {a : ℕ} {heap : Heap}
    (h : buddyAlloc .kernel k.heap 36 = .ok (a, heap)) :
    newHandle type 0 entry k =
      .ok a { k with heap := heap, handles := Function.update k.handles a (some ⟨type, 1, 0, entry, 0, 0⟩) } :=
  run_bind (kmalloc_ok h)

/-- **`open`** -/
theorem syscallOpen_obeys (hs : Sound k p) (ha : path < wordSize) (flags : ℤ) (hstr : StringAt k p path)
    (htext : StringIs k p path rel) (hcwd : IsCwd (k.cwd p)) (hfits : Fits (k.cwd p) rel) :
    OpenObeys fs p rel k (syscallOpen fs p path flags k) := by
  obtain ⟨L, L', hvalid, -, hfind⟩ := findEntry_ok hs ha hstr htext
  unfold syscallOpen
  rw [run_bind hvalid, if_pos rfl, run_get]
  cases hfree : freeFds (k.touching L) p with
  | nil => exact ⟨rfl, Or.inl (by decide)⟩
  | cons fd others =>
    show OpenObeys fs p rel k (openEntry fs p path flags fd (k.touching L))
    unfold openEntry
    rcases foundWith_fits fs L' hcwd htext.1 hfits with ⟨e, hfault, hfound⟩ | ⟨e, he, hfound⟩ | ⟨entry, hnames, hfound⟩
    · rw [run_bind_error ((hfind fs).trans hfound)]
      exact ⟨rfl, Or.inl hfault⟩
    · rw [run_bind ((hfind fs).trans hfound)]
      exact ⟨rfl, Or.inl he⟩
    · rw [run_bind ((hfind fs).trans hfound)]
      simp only
      by_cases hfile : flags = OPEN_DIRECTORY ∧ entryType fs entry ≠ TYPE_DIR
      · rw [if_pos hfile]
        exact ⟨rfl, Or.inl (by decide)⟩
      · rw [if_neg hfile]
        by_cases hdir : flags ≠ OPEN_DIRECTORY ∧ entryType fs entry = TYPE_DIR
        · rw [if_pos hdir]
          exact ⟨rfl, Or.inl (by decide)⟩
        · rw [if_neg hdir]
          cases halloc : buddyAlloc .kernel k.heap 36 with
          | error e =>
            rw [run_bind_error (newHandle_full (k := k.touching L') _ entry halloc)]
            exact ⟨rfl, Or.inr halloc⟩
          | ok x =>
            obtain ⟨a, heap⟩ := x
            rw [run_bind (newHandle_room (k := k.touching L') _ entry halloc)]
            refine ⟨rfl, Or.inr ⟨fd, a, _, rfl, ?_, Function.update_self _ _ _, hnames⟩⟩
            show Function.update k.filedesc p (Function.update (k.filedesc p) fd (some a)) p fd = some a
            rw [Function.update_self, Function.update_self]

/-! ### Call after call -/

/-- The current directories that calls of `chdir` lead to, all with paths that fit.  What happens between the calls is left
open, and a directory may be passed on to another process. -/
inductive ReachedBy (m : Machine) : List UInt8 → Prop where
  | root : ReachedBy m [char '/']
  | chdir (k k' : State) (p path : ℕ) (rel : List UInt8) : ReachedBy m (k.cwd p) → Mapped m k → k.sched.Live p →
      path < wordSize → StringAt k p path → StringIs k p path rel → Fits (k.cwd p) rel →
      syscallChdir m.filesystem p path k = .ok 0 k' → ReachedBy m (k'.cwd p)

/-- **Every directory that is reached** is canonical. -/
theorem ReachedBy.isCwd (h : ReachedBy m base) : IsCwd base := by
  induction h with
  | root => exact isCwd_root
  | chdir k k' p path rel _ hmap hp ha hstr htext hfits hok ih =>
    obtain ⟨forked, asp, hsafe⟩ := hmap
    have hobeys : ChdirObeys m.filesystem p rel k (syscallChdir m.filesystem p path k) :=
      syscallChdir_obeys (hsafe.sound hp) ha hstr htext ih hfits
    rw [hok] at hobeys
    rcases hobeys with ⟨hneg, -⟩ | ⟨-, -, hcwd⟩
    · exact absurd hneg (Int.lt_irrefl 0)
    · rw [hcwd, Function.update_self]
      exact isCwd_resolved ih htext.1 hfits

/-- **Paths that fit** name the entries that are used, from every current directory that is reached; and only for them
this is so on every file system. -/
theorem paths_resolve (m : Machine) (h : ReachedBy m base) :
    IsCwd base ∧
    (∀ rel, (0 : UInt8) ∉ rel → (Fits base rel ↔ ∀ fs entry,
      getDirectoryEntry fs (relativeToAbsolute base rel PATH_MAX) = .ok (.ok entry) → Names fs base rel entry)) ∧
    ∀ k p path rel, Mapped m k → k.sched.Live p → k.cwd p = base → path < wordSize → StringAt k p path →
      StringIs k p path rel → Fits base rel →
        ChdirObeys m.filesystem p rel k (syscallChdir m.filesystem p path k) ∧
        (∀ buf < wordSize, StatObeys m.filesystem p buf rel k (syscallStat m.filesystem p path buf k)) ∧
        ∀ flags, OpenObeys m.filesystem p rel k (syscallOpen m.filesystem p path flags k) := by
  refine ⟨h.isCwd, fun rel hz => fits_iff h.isCwd hz, ?_⟩
  rintro k p path rel hmap hp rfl ha hstr htext hfits
  obtain ⟨forked, asp, hsafe⟩ := id hmap
  have hs := hsafe.sound hp
  exact ⟨syscallChdir_obeys hs ha hstr htext h.isCwd hfits,
    fun buf hb => syscallStat_obeys hmap hp ha hb hstr htext h.isCwd hfits,
    fun flags => syscallOpen_obeys hs ha flags hstr htext h.isCwd hfits⟩

/-! ### A machine with many directories -/

/-- The entries of a chain have no size. -/
theorem chain_size {w : ℕ} (hw : ROW ≤ w) (l : List (List UInt8)) (type : UInt8) (i : ℕ) :
    entrySize (chainImage w l type) (chainEntry w i) = 0 := by
  cases i with
  | zero =>
    show readWord (chainImage w l type) 0 = 0
    simp [readWord, chainImage, ENTRY_SIZE]
  | succ i =>
    show readWord (chainImage w l type) (chainDir w i + 4) = 0
    have hat := fun j (hj : j < 16) => chainImage_at l type i (inside_row hw hj)
    rw [readWord_chain, hat _ (by decide), hat _ (by decide), hat _ (by decide), hat _ (by decide)]
    cases l[i]? with
    | none => rfl
    | some name => rfl

/-- Names of one character, one inside the other. -/
def deepNames : List (List UInt8) := List.replicate 511 [char 'a']

theorem isName_single {c : UInt8} (h0 : c ≠ 0) (hs : c ≠ char '/') (hd : c ≠ char '.') : IsName [c] :=
  ⟨List.cons_ne_nil _ _, fun hmem => hs (List.mem_singleton.mp hmem).symm, fun hmem => h0 (List.mem_singleton.mp hmem).symm,
    fun hdots => by
      rcases hdots with hdots | hdots
      · exact hd (List.cons.inj hdots).1
      · exact hd (List.cons.inj hdots).1⟩

theorem deepNames_isName : ∀ name ∈ deepNames, IsName name := fun name hname => by
  rw [List.eq_of_mem_replicate hname]
  exact isName_single (by decide) (by decide) (by decide)

theorem chained_deepNames : Chained ROW deepNames :=
  ⟨Nat.le_refl _, by decide, by unfold deepNames; rw [List.length_replicate]; decide, fun name hname => by
    rw [List.eq_of_mem_replicate hname]
    decide⟩

/-- The tables follow each other as the tool writes them; the last one is empty. -/
def deepSize : ℕ := chainDir ROW 511 + 4

theorem deepImage_lt : deepSize < 2 * MB := by decide

/-- The entries of the image are directories, and lie inside it. -/
theorem deepImage_fits (path : List UInt8) (entry : ℕ)
    (h : getDirectoryEntry (chainImage ROW deepNames 1) path = .ok (.ok entry)) :
    entryLocation (chainImage ROW deepNames 1) entry + entrySize (chainImage ROW deepNames 1) entry ≤ deepSize := by
  rw [getDirectoryEntry_chain] at h
  obtain ⟨hfront, rfl⟩ := (walk_chain_found chained_deepNames _ _ (Nat.zero_le _)).mp h
  have hle := hfront.length_le
  rw [List.drop_zero, ← Nat.zero_add (components path).length] at hle
  rw [chain_size (Nat.le_refl _)]
  generalize 0 + (components path).length = i at hle
  have hlen : deepNames.length = 511 := List.length_replicate
  cases i with
  | zero =>
    show entryLocation (chainImage ROW deepNames 1) 0 + 0 ≤ _
    rw [chain_root]
    decide
  | succ i =>
    show entryLocation (chainImage ROW deepNames 1) (dirEntryAt (chainDir ROW i) 0) + 0 ≤ _
    rw [chain_location (Nat.le_refl _) hle chained_deepNames.small]
    simp only [chainDir, deepSize, ROW, ENTRY_SIZE]
    omega

/-- A machine with 511 directories, one inside the other. -/
def Machine.deep : Machine where
  codeStart := MB
  codeEnd := MB + PAGE_SIZE
  filesystem := chainImage ROW deepNames 1
  imageSize := deepSize
  start_aligned := onePage_start_aligned
  end_aligned := onePage_end_aligned
  start_le := onePage_start_le
  code_le := onePage_code_le
  end_le := onePage_end_le
  image_lt := deepImage_lt
  fits := deepImage_fits

/-- The first process goes from the root to `/a`. -/
theorem paths_resolve_deep : ∃ n B k k', Run Machine.deep (fun n k i => i.Fair n k ∧ i.Modest) n B k ∧
    syscallChdir Machine.deep.filesystem 1 STACK_LOW k = .ok 0 k' ∧ k'.cwd 1 = [char '/', char 'a'] := by
  obtain ⟨n, B, k, h, hmap, hp, hcwd, -, hstr, htext⟩ := run_text Machine.deep [char 'a'] (by decide) (by decide)
  obtain ⟨forked, asp, hsafe⟩ := id hmap
  have hfound : getDirectoryEntry Machine.deep.filesystem (relativeToAbsolute (k.cwd 1) [char 'a'] PATH_MAX) =
      .ok (.ok (chainEntry ROW 1)) := by
    rw [hcwd]
    show getDirectoryEntry (chainImage ROW deepNames 1) [char '/', char 'a'] = _
    rw [getDirectoryEntry_chain]
    exact (walk_chain_found chained_deepNames _ _ (Nat.zero_le _)).mpr ⟨⟨List.replicate 510 [char 'a'], rfl⟩, rfl⟩
  have hdir : entryType Machine.deep.filesystem (chainEntry ROW 1) = TYPE_DIR :=
    chain_isDir (Nat.le_refl _) (show 0 < deepNames.length from List.length_pos_of_mem (List.mem_replicate.mpr ⟨by decide, rfl⟩))
  obtain ⟨k', hok⟩ := syscallChdir_enters (hsafe.sound hp) (by decide) hstr htext hfound hdir
  obtain ⟨hobeys, -⟩ := (paths_resolve Machine.deep ReachedBy.root).2.2 k 1 STACK_LOW [char 'a'] hmap hp hcwd (by decide) hstr
    htext (by decide)
  refine ⟨n, B, k, k', h, hok, ?_⟩
  rw [hok] at hobeys
  rcases hobeys with ⟨hneg, -⟩ | ⟨-, -, hcwd'⟩
  · exact absurd hneg (Int.lt_irrefl 0)
  · rw [hcwd', Function.update_self, hcwd]
    decide

/-! ### A path that is cut off -/

/-- A path to a name that is not there, one character too long. -/
def cutPath : List UInt8 := canonicalText (deepNames ++ [[char 'b']])

theorem cutNames_isName : ∀ name ∈ deepNames ++ [[char 'b']], IsName name := fun name hname => by
  rcases List.mem_append.mp hname with hname | hname
  · exact deepNames_isName name hname
  · rw [List.mem_singleton.mp hname]
    exact isName_single (by decide) (by decide) (by decide)

theorem follow_name {l : List (List UInt8)} {name : List UInt8} (h : IsName name) : follow l name = l ++ [name] := by
  unfold follow
  rw [if_neg fun h1 => h.dots (Or.inl h1), if_neg fun h2 => h.dots (Or.inr h2)]

theorem course_next_name (N : ℕ) (c : Course) {name : List UInt8} (h : IsName name) :
    c.next N name = ⟨c.names ++ [name], c.kept⟩ := by
  unfold Course.next
  rw [follow_name h, if_neg fun h2 => h.dots (Or.inr h2)]

/-- Names are appended. -/
theorem course_names_only (N : ℕ) (names : List (List UInt8)) (c : Course) (h : ∀ name ∈ names, IsName name) :
    names.foldl (Course.next N) c = ⟨c.names ++ names, c.kept⟩ := by
  induction names generalizing c with
  | nil => rw [List.append_nil]; rfl
  | cons name names ih =>
    rw [List.foldl_cons, course_next_name N c (h name List.mem_cons_self), ih _ fun n hn => h n (List.mem_cons_of_mem _ hn),
      List.append_assoc]
    rfl

theorem course_cutPath : course (PATH_MAX - 1) [char '/'] cutPath = ⟨deepNames ++ [[char 'b']], true⟩ := by
  unfold course
  rw [cutPath, components_canonicalText cutNames_isName]
  exact course_names_only _ _ _ cutNames_isName

theorem resolved_cutPath : resolved [char '/'] cutPath = deepNames ++ [[char 'b']] := by
  rw [← course_names (PATH_MAX - 1), course_cutPath]

theorem length_deepNames : (slashed deepNames).length = PATH_MAX - 2 := by
  rw [length_slashed]
  unfold roomFor deepNames
  rw [List.map_replicate, List.sum_replicate, smul_eq_mul]
  rfl

/-- The buffer ends up with the path of the innermost directory, and a slash. -/
theorem components_cutPath : components (relativeToAbsolute [char '/'] cutPath PATH_MAX) = deepNames := by
  have hz : (0 : UInt8) ∉ cutPath := zero_canonicalText cutNames_isName
  obtain ⟨q, -, htext, hsame, -⟩ := buffered_relativeToAbsolute isCwd_root hz
  rw [course_cutPath] at hsame
  rw [htext, hsame rfl, canonicalText_eq (by simp), slashed_concat, List.take_append, List.take_of_length_le (by
    rw [length_deepNames]
    decide), length_deepNames, show PATH_MAX - 1 - (PATH_MAX - 2) = 0 + 1 from rfl, List.take_succ_cons, List.take_zero,
    components_append_slash, components_slashed deepNames_isName, components_nil, List.append_nil]

theorem length_cutPath : cutPath.length = PATH_MAX := by
  rw [cutPath, canonicalText_eq (by simp), slashed_concat, List.length_append, length_deepNames]
  rfl

/-- The cut path leads to the innermost directory. -/
theorem cutPath_found : getDirectoryEntry Machine.deep.filesystem (relativeToAbsolute [char '/'] cutPath PATH_MAX) =
    .ok (.ok (chainEntry ROW deepNames.length)) := by
  show getDirectoryEntry (chainImage ROW deepNames 1) _ = _
  rw [getDirectoryEntry_chain, walk_chain_iff chained_deepNames _ _ (Nat.zero_le _), components_cutPath, List.drop_zero]

theorem innermost_isDir : entryType Machine.deep.filesystem (chainEntry ROW deepNames.length) = TYPE_DIR := by
  have hlen : deepNames.length = 510 + 1 := List.length_replicate
  rw [hlen]
  exact chain_isDir (Nat.le_refl _) (by rw [hlen]; decide)

/-- The whole path leads nowhere. -/
theorem cutPath_unnamed (entry : ℕ) : ¬ Names Machine.deep.filesystem [char '/'] cutPath entry := by
  intro hnames
  unfold Names at hnames
  replace hnames : getDirectoryEntry (chainImage ROW deepNames 1) _ = _ := hnames
  rw [resolved_cutPath, getDirectoryEntry_chain, components_canonicalText cutNames_isName] at hnames
  have hle := ((walk_chain_found chained_deepNames _ _ (Nat.zero_le _)).mp hnames).1.length_le
  rw [List.drop_zero, List.length_append, List.length_singleton] at hle
  omega

/-- **A path that is cut off.**  From the root, `chdir` succeeds with a path that names nothing, and the new current
directory is another one. -/
theorem chdir_cut : ∃ n B k k', Run Machine.deep (fun n k i => i.Fair n k ∧ i.Modest) n B k ∧
    ReachedBy Machine.deep (k.cwd 1) ∧ StringIs k 1 STACK_LOW cutPath ∧
    syscallChdir Machine.deep.filesystem 1 STACK_LOW k = .ok 0 k' ∧
    (∀ entry, ¬ Names Machine.deep.filesystem (k.cwd 1) cutPath entry) ∧
    ¬ ChdirObeys Machine.deep.filesystem 1 cutPath k (syscallChdir Machine.deep.filesystem 1 STACK_LOW k) := by
  obtain ⟨n, B, k, h, hmap, hp, hcwd, -, hstr, htext⟩ := run_text Machine.deep cutPath (zero_canonicalText cutNames_isName) (by
    rw [length_cutPath]
    decide)
  obtain ⟨forked, asp, hsafe⟩ := id hmap
  have hfound := cutPath_found
  have hnone := cutPath_unnamed
  rw [← hcwd] at hfound hnone
  obtain ⟨k', hok⟩ := syscallChdir_enters (hsafe.sound hp) (by decide) hstr htext hfound innermost_isDir
  refine ⟨n, B, k, k', h, by rw [hcwd]; exact .root, htext, hok, hnone, fun hobeys => ?_⟩
  rw [hok] at hobeys
  rcases hobeys with ⟨hneg, -⟩ | ⟨-, ⟨entry, hnames, -⟩, -⟩
  · exact Int.lt_irrefl 0 hneg
  · exact hnone entry hnames

end AdelaideOS.Kernel
