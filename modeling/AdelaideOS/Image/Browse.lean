import AdelaideOS.Image.Dump
import AdelaideOS.Image.Tree
import AdelaideOS.Kernel.Absolute
import AdelaideOS.Shell.Words

/-!
# The shell of `fstool`

`browse` is the shell over a tree: it knows nothing of tables and offsets.

* **`getdir_ok`**, **`getfile_ok`** — what a path of the image is;
* **`command_ok`** — one command;
* **`lineStep_ok`** — one line of the input;
* **`shell_refines`** — whole sessions over an image are sessions over the tree that was built.
-/

namespace AdelaideOS.Image

open AdelaideOS.Kernel AdelaideOS.Lib.Bytes AdelaideOS.Libc AdelaideOS.Shell

variable {M fs line : Memory} {lo hi table i e : ℕ} {f g : Forest} {es : List Entry} {name path cwd text : List UInt8}
  {t : Terminal} {args names : List (List UInt8)} {node : Node}

/-! ### The shell over a tree -/

namespace Forest

/-- The directory that a path names. -/
def directory (f : Forest) (path : List UInt8) : Except ℤ Forest :=
  if components path = [] then .ok f
  else match f.get? (components path) with
    | some (.dir _ children) => .ok children
    | some (.file _ _ _) => .error (if path.getLast? = some (char '/') then -ENOENT else -ENOTDIR)
    | none => .error (-ENOENT)

/-- The contents of the file that a path names. -/
def bytesOf (f : Forest) (path : List UInt8) : Except ℤ (List UInt8) :=
  if components path = [] then .error (-EISDIR)
  else match f.get? (components path) with
    | some (.dir _ _) => .error (-EISDIR)
    | some (.file _ _ bytes) => if path.getLast? = some (char '/') then .error (-ENOENT) else .ok bytes
    | none => .error (-ENOENT)

/-- The lines of `ls`. -/
def ls : Forest → List UInt8
  | nil => []
  | file name mode _ bytes rest => lsLine false (mode % wordSize) bytes.length name ++ rest.ls
  | dir name st _ rest => lsLine true (st.mode % wordSize) (st.size % wordSize) name ++ rest.ls

/-- One command. -/
def command (t : Terminal) (f : Forest) (cwd : List UInt8) (args : List (List UInt8)) : Done :=
  if args.head? = some (word "ls") then
    match f.directory (if h : 1 < args.length then relativeToAbsolute cwd args[1] t.pathMax
      else cwd.take (t.pathMax - 1)) with
    | .error r => ⟨cwd, complain t r, true⟩
    | .ok g => ⟨cwd, g.ls, true⟩
  else
    match args with
    | [name, path] =>
      if name = word "cat" then
        match f.bytesOf (relativeToAbsolute cwd path t.pathMax) with
        | .error r => ⟨cwd, complain t r, true⟩
        | .ok bytes => ⟨cwd, bytes, true⟩
      else if name = word "cd" then
        match f.directory (relativeToAbsolute cwd path t.pathMax) with
        | .error r => ⟨cwd, complain t r, true⟩
        | .ok _ => ⟨(relativeToAbsolute cwd path t.pathMax).take (t.pathMax - 1), [], true⟩
      else ⟨cwd, word "Invalid command\n", true⟩
    | [name] =>
      if name = word "pwd" then ⟨cwd, cwd ++ [char '\n'], true⟩
      else if name = word "q" then ⟨cwd, [], false⟩
      else if name = word "help" then ⟨cwd, helpText, true⟩
      else ⟨cwd, word "Invalid command\n", true⟩
    | _ => ⟨cwd, word "Invalid command\n", true⟩

end Forest

/-- The first seven words of a line; it ends at its first NUL. -/
def argsOf (text : List UInt8) : List (List UInt8) := ((words (text.takeWhile (· ≠ 0))).map Prod.snd).take 7

/-- The session over a tree. -/
def browse (t : Terminal) (f : Forest) (cwd input : List UInt8) : List UInt8 :=
  if _h : input = [] then []
  else
    let text := fgets (LINE_SIZE - 1) input
    let done := f.command t cwd (argsOf text)
    if done.goes then done.out ++ (prompt done.cwd ++ browse t f done.cwd (input.drop text.length)) else done.out
termination_by input.length
decreasing_by
  rw [List.length_drop]
  exact Nat.sub_lt (List.length_pos_of_ne_nil ‹_›) (fgets_length_pos (by decide) ‹_›)

/-! ### Paths -/

/-- The image of a tree. -/
structure Pictures (M : Memory) (lo hi : ℕ) (f : Forest) : Prop where
  small : hi < LIMIT
  root : entryType M 0 = TYPE_DIR
  shows : f.Shows M lo hi (entryLocation M 0)
  named : f.Named

/-- The node at the end of a walk is the one that the tree has there. -/
theorem Forest.get_eq_locate (M : Memory) (names : List (List UInt8)) (f : Forest) (table : ℕ) :
    f.get? names = (f.locate M names table).map Prod.snd := by
  induction names generalizing f table with
  | nil => rfl
  | cons name names ih =>
    cases names with
    | nil =>
      unfold Forest.get? Forest.locate
      cases f.find name <;> rfl
    | cons next names =>
      unfold Forest.get? Forest.locate
      cases hfind : f.find name with
      | none => rfl
      | some node =>
        cases node with
        | file mode mtime bytes => rfl
        | dir st children => exact ih children _

/-- What is at the end of a walk. -/
theorem shown_of_locate (hhi : hi < LIMIT) (h : f.Shows M lo hi table) (hnamed : f.Named)
    (hloc : f.locate M names table = some (e, node)) : node.Shown M lo hi e := by
  have hfound : ∀ {f : Forest} {table : ℕ} {name : List UInt8} {node : Node}, f.Shows M lo hi table → f.Named →
      f.find name = some node → node.Shown M lo hi (dirEntryAt table (f.names.idxOf name)) :=
    fun {f table name node} h hnamed hfind => by
      obtain ⟨e, hlookup, hshown⟩ := lookup_ok hhi h hnamed hfind
      have hmem : name ∈ f.names := by
        by_contra hno
        rw [Forest.find_eq_none.mpr hno] at hfind
        cases hfind
      rw [lookup_depicts (depicts_of_shows hhi h hnamed), if_pos hmem] at hlookup
      obtain rfl := Option.some.inj (Except.ok.inj hlookup)
      exact hshown
  induction names generalizing f table with
  | nil => cases hloc
  | cons name names ih =>
    cases names with
    | nil =>
      unfold Forest.locate at hloc
      obtain ⟨node', hfind, heq⟩ := Option.map_eq_some_iff.mp hloc
      obtain ⟨rfl, rfl⟩ := Prod.mk.inj heq
      exact hfound h hnamed hfind
    | cons next names =>
      unfold Forest.locate at hloc
      cases hfind : f.find name with
      | none =>
        rw [hfind] at hloc
        cases hloc
      | some node' =>
        rw [hfind] at hloc
        cases node' with
        | file mode mtime bytes => cases hloc
        | dir st children =>
          obtain ⟨-, -, -, hchildren⟩ := hfound h hnamed hfind
          exact ih hchildren (Forest.named_of_find hnamed hfind) hloc

/-- What `get_directory_entry` finds. -/
inductive Found (M : Memory) (lo hi : ℕ) (f : Forest) (path : List UInt8) : Except ℤ ℕ → Prop where
  | root : components path = [] → Found M lo hi f path (.ok 0)
  | missing : components path ≠ [] → f.get? (components path) = none → Found M lo hi f path (.error (-ENOENT))
  | slash (mode mtime : ℕ) (bytes : List UInt8) : components path ≠ [] →
      f.get? (components path) = some (.file mode mtime bytes) → path.getLast? = some (char '/') →
      Found M lo hi f path (.error (-ENOENT))
  | file (mode mtime : ℕ) (bytes : List UInt8) (e : ℕ) : components path ≠ [] →
      f.get? (components path) = some (.file mode mtime bytes) → path.getLast? ≠ some (char '/') →
      (Node.file mode mtime bytes).Shown M lo hi e → Found M lo hi f path (.ok e)
  | dir (st : Stat) (children : Forest) (e : ℕ) : components path ≠ [] →
      f.get? (components path) = some (.dir st children) → (Node.dir st children).Shown M lo hi e → children.Named →
      Found M lo hi f path (.ok e)

theorem Forest.named_of_get {st : Stat} {children : Forest} (hnamed : f.Named)
    (hget : f.get? names = some (.dir st children)) : children.Named := by
  induction names generalizing f with
  | nil => cases hget
  | cons name names ih =>
    cases names with
    | nil => exact named_of_find hnamed hget
    | cons next names =>
      unfold Forest.get? at hget
      cases hfind : f.find name with
      | none =>
        rw [hfind] at hget
        cases hget
      | some node =>
        rw [hfind] at hget
        cases node with
        | file mode mtime bytes => cases hget
        | dir st' children' => exact ih (named_of_find hnamed hfind) hget

/-- **A path of the image** is what it is in the tree. -/
theorem found_of_path (h : Pictures M lo hi f) (path : List UInt8) :
    ∃ r, getDirectoryEntry M path = .ok r ∧ Found M lo hi f path r := by
  unfold getDirectoryEntry
  by_cases hnil : components path = []
  · rw [hnil]
    exact ⟨.ok 0, rfl, .root hnil⟩
  · have hget := f.get_eq_locate M (components path) (entryLocation M 0)
    rw [walk_depicts _ hnil _ (depicts_of_shows h.small h.shows h.named)]
    cases hloc : f.locate M (components path) (entryLocation M 0) with
    | none =>
      rw [hloc] at hget
      exact ⟨_, rfl, .missing hnil hget⟩
    | some found =>
      obtain ⟨e, node⟩ := found
      rw [hloc] at hget
      have hshown := shown_of_locate h.small h.shows h.named hloc
      cases node with
      | file mode mtime bytes =>
        by_cases hslash : path.getLast? = some (char '/')
        · refine ⟨.error (-ENOENT), ?_, .slash mode mtime bytes hnil hget hslash⟩
          simp [Node.stops, hslash]
        · refine ⟨.ok e, ?_, .file mode mtime bytes e hnil hget hslash hshown⟩
          simp [Node.stops, hslash]
      | dir st children =>
        exact ⟨.ok e, rfl, .dir st children e hnil hget hshown (Forest.named_of_get h.named hget)⟩

theorem getdir_error {r : ℤ} (h : getDirectoryEntry M path = .ok (.error r)) : getdir M path = .ok (.error r) := by
  unfold getdir
  rw [h]
  rfl

theorem getdir_entry (h : getDirectoryEntry M path = .ok (.ok e)) :
    getdir M path = if TYPE_DIR ≠ entryType M e then .ok (.error (-ENOTDIR)) else .ok (.ok e) := by
  unfold getdir
  rw [h]
  rfl

theorem getfile_error {r : ℤ} (h : getDirectoryEntry M path = .ok (.error r)) : getfile M path = .ok (.error r) := by
  unfold getfile
  rw [h]
  rfl

theorem getfile_entry (h : getDirectoryEntry M path = .ok (.ok e)) :
    getfile M path = if TYPE_FILE ≠ entryType M e then .ok (.error (-EISDIR)) else .ok (.ok e) := by
  unfold getfile
  rw [h]
  rfl

/-- What `getdir` answers for what the tree has. -/
inductive DirAnswer (M : Memory) (lo hi : ℕ) : Except ℤ Forest → Except ℤ ℕ → Prop where
  | error (r : ℤ) : DirAnswer M lo hi (.error r) (.error r)
  | ok (g : Forest) (e : ℕ) : g.Shows M lo hi (entryLocation M e) → g.Named → DirAnswer M lo hi (.ok g) (.ok e)

/-- What `getfile` answers for what the tree has. -/
inductive FileAnswer (M : Memory) : Except ℤ (List UInt8) → Except ℤ ℕ → Prop where
  | error (r : ℤ) : FileAnswer M (.error r) (.error r)
  | ok (bytes : List UInt8) (e : ℕ) : loadBytes M (entryLocation M e) (entrySize M e) = bytes →
      FileAnswer M (.ok bytes) (.ok e)

/-- **`getdir`** -/
theorem getdir_ok (h : Pictures M lo hi f) (path : List UInt8) :
    ∃ r, getdir M path = .ok r ∧ DirAnswer M lo hi (f.directory path) r := by
  obtain ⟨r, hok, hfound⟩ := found_of_path h path
  unfold Forest.directory
  cases hfound with
  | root hnil =>
    rw [getdir_entry hok, if_pos hnil, if_neg (not_not.mpr h.root.symm)]
    exact ⟨_, rfl, .ok f 0 h.shows h.named⟩
  | missing hne hget =>
    rw [getdir_error hok, if_neg hne, hget]
    exact ⟨_, rfl, .error _⟩
  | slash mode mtime bytes hne hget hslash =>
    rw [getdir_error hok, if_neg hne, hget]
    simp only [if_pos hslash]
    exact ⟨_, rfl, .error _⟩
  | file mode mtime bytes e hne hget hslash hshown =>
    have htype : TYPE_DIR ≠ entryType M e := by
      rw [hshown.1]
      decide
    rw [getdir_entry hok, if_pos htype, if_neg hne, hget]
    simp only [if_neg hslash]
    exact ⟨_, rfl, .error _⟩
  | dir st children e hne hget hshown hnamed =>
    obtain ⟨htype, -, -, hshows⟩ := hshown
    rw [getdir_entry hok, if_neg (not_not.mpr htype.symm), if_neg hne, hget]
    exact ⟨_, rfl, .ok children e hshows hnamed⟩

/-- **`getfile`** -/
theorem getfile_ok (h : Pictures M lo hi f) (path : List UInt8) :
    ∃ r, getfile M path = .ok r ∧ FileAnswer M (f.bytesOf path) r := by
  obtain ⟨r, hok, hfound⟩ := found_of_path h path
  have hisdir : ∀ {e}, entryType M e = TYPE_DIR → TYPE_FILE ≠ entryType M e := fun {e} he => by
    rw [he]
    decide
  unfold Forest.bytesOf
  cases hfound with
  | root hnil =>
    rw [getfile_entry hok, if_pos hnil, if_pos (hisdir h.root)]
    exact ⟨_, rfl, .error _⟩
  | missing hne hget =>
    rw [getfile_error hok, if_neg hne, hget]
    exact ⟨_, rfl, .error _⟩
  | slash mode mtime bytes hne hget hslash =>
    rw [getfile_error hok, if_neg hne, hget]
    simp only [if_pos hslash]
    exact ⟨_, rfl, .error _⟩
  | file mode mtime bytes e hne hget hslash hshown =>
    obtain ⟨htype, -, -, hsize, -, hbytes⟩ := hshown
    rw [getfile_entry hok, if_neg (not_not.mpr htype.symm), if_neg hne, hget]
    simp only [if_neg hslash]
    rw [← hsize] at hbytes
    exact ⟨_, rfl, .ok bytes e hbytes⟩
  | dir st children e hne hget hshown hnamed =>
    rw [getfile_entry hok, if_pos (hisdir hshown.1), if_neg hne, hget]
    exact ⟨_, rfl, .error _⟩

/-! ### Commands -/

/-- The lines of a table. -/
theorem lsLoop_ok (hhi : hi < LIMIT) (hfilled : f.Filled M lo hi es) (hnamed : f.Named) (hrows : RowsAt M table i es) :
    lsLoop M table f.names.length i = .ok f.ls := by
  induction f generalizing es i with
  | nil => rfl
  | file name mode mtime bytes rest ih =>
    obtain ⟨hname, htype, hsize, hmode, es', hrest, hrows'⟩ := file_row hhi hfilled hnamed hrows
    have hloop := ih hrest hnamed.2.2 hrows'
    rw [Forest.names, List.length_cons, lsLoop]
    simp only [hname, bind, Except.bind, hloop, htype, hmode, hsize]
    rfl
  | dir name st children rest _ ih =>
    obtain ⟨hname, htype, hsize, hmode, -, es', hrest, hrows'⟩ := dir_row hhi hfilled hnamed hrows
    have hloop := ih hrest hnamed.2.2.2 hrows'
    rw [Forest.names, List.length_cons, lsLoop]
    simp only [hname, bind, Except.bind, hloop, htype, hmode, hsize]
    rfl

theorem ls_ok (hhi : hi < LIMIT) (h : g.Shows M lo hi table) (hnamed : g.Named) :
    lsLoop M table (dirCount M table) 0 = .ok g.ls := by
  obtain ⟨es, hcount, hlen, hfilled, hrows⟩ := h.rows hhi
  rw [hcount, hlen]
  exact lsLoop_ok hhi hfilled hnamed hrows

/-- **One command.** -/
theorem command_ok (h : Pictures M lo hi f) (t : Terminal) (cwd : List UInt8) (args : List (List UInt8)) :
    command t M cwd args = .ok (f.command t cwd args) := by
  unfold command Forest.command
  by_cases hls : args.head? = some (word "ls")
  · rw [if_pos hls, if_pos hls]
    generalize hpath : (if h : 1 < args.length then relativeToAbsolute cwd args[1] t.pathMax
      else cwd.take (t.pathMax - 1)) = path
    obtain ⟨r, hr, hanswer⟩ := getdir_ok h path
    dsimp only
    rw [hr]
    generalize f.directory path = found at hanswer ⊢
    cases hanswer with
    | error r => rfl
    | ok g e hshows hnamed =>
      simp only [bind, Except.bind, ls_ok h.small hshows hnamed]
      rfl
  · rw [if_neg hls, if_neg hls]
    match args with
    | [] => rfl
    | [name] => simp only [apply_ite Except.ok, pure, Except.pure]
    | [name, path] =>
      by_cases hcat : name = word "cat"
      · simp only [if_pos hcat]
        obtain ⟨r, hr, hanswer⟩ := getfile_ok h (relativeToAbsolute cwd path t.pathMax)
        rw [hr]
        generalize f.bytesOf (relativeToAbsolute cwd path t.pathMax) = found at hanswer ⊢
        cases hanswer with
        | error r => rfl
        | ok bytes e hbytes =>
          rw [← hbytes]
          rfl
      · simp only [if_neg hcat]
        by_cases hcd : name = word "cd"
        · simp only [if_pos hcd]
          obtain ⟨r, hr, hanswer⟩ := getdir_ok h (relativeToAbsolute cwd path t.pathMax)
          rw [hr]
          generalize f.directory (relativeToAbsolute cwd path t.pathMax) = found at hanswer ⊢
          cases hanswer with
          | error r => rfl
          | ok g e hshows hnamed => rfl
        · simp only [if_neg hcd]
          rfl
    | name :: path :: more :: rest => rfl

/-! ### Lines -/

theorem fgets_length_le (n : ℕ) (input : List UInt8) : (fgets n input).length ≤ n := by
  induction n generalizing input with
  | zero => exact Nat.le_refl _
  | succ n ih =>
    cases input with
    | nil => exact Nat.zero_le _
    | cons c input =>
      rw [fgets]
      split
      · exact Nat.succ_le_succ (Nat.zero_le _)
      · exact Nat.succ_le_succ (ih input)

/-- A stored line ends at its first NUL. -/
theorem textAt_stored (line : Memory) (text : List UInt8) :
    TextAt (storeBytes line 0 (text ++ [0])) 0 (text.takeWhile (· ≠ 0)) := by
  have hbyte : ∀ j < text.length + 1, storeBytes line 0 (text ++ [0]) j = (text ++ [0]).getD j 0 := fun j hj => by
    have hin : storeBytes line 0 (text ++ [0]) (0 + j) = (text ++ [0]).getD j 0 :=
      storeBytes_of_inside line (by simpa using hj)
    rwa [Nat.zero_add] at hin
  have hwhole : ∀ (pre rest : List UInt8), text = pre ++ rest →
      TextAt (storeBytes line 0 (text ++ [0])) pre.length (rest.takeWhile (· ≠ 0)) := by
    intro pre rest hsplit
    induction rest generalizing pre with
    | nil =>
      show storeBytes line 0 (text ++ [0]) pre.length = 0
      rw [hbyte _ (by rw [hsplit]; simp), hsplit]
      simp
    | cons c rest ih =>
      have hc : storeBytes line 0 (text ++ [0]) pre.length = c := by
        rw [hbyte _ (by rw [hsplit]; simp), hsplit]
        simp
      by_cases hz : c = 0
      · rw [hz, List.takeWhile_cons_of_neg (by simp)]
        exact hc.trans hz
      · rw [List.takeWhile_cons_of_pos (by simpa using hz)]
        have hnext := ih (pre ++ [c]) (by rw [hsplit, List.append_assoc, List.singleton_append])
        rw [List.length_append] at hnext
        exact ⟨hc, hz, hnext⟩
  exact hwhole [] text rfl

theorem cstring_of_textAt (h : TextAt M table name) (hlen : name.length < wordSize) : cstring M table = .ok name := by
  have hloop : ∀ (name : List UInt8) (fuel a : ℕ), TextAt M a name → name.length < fuel →
      cstringLoop M fuel a = .ok name := by
    intro name
    induction name with
    | nil =>
      intro fuel a ha hfuel
      obtain ⟨fuel, rfl⟩ : ∃ n, fuel = n + 1 := ⟨fuel - 1, by simp at hfuel; omega⟩
      exact if_pos ha
    | cons c name ih =>
      intro fuel a ha hfuel
      obtain ⟨fuel, rfl⟩ : ∃ n, fuel = n + 1 := ⟨fuel - 1, by simp at hfuel; omega⟩
      obtain ⟨hc, hz, hrest⟩ := ha
      unfold cstringLoop
      rw [hc, if_neg hz, ih fuel (a + 1) hrest (by simpa using hfuel)]
      rfl
  exact hloop name wordSize table h hlen

/-- **One line** of the input. -/
theorem lineStep_ok (h : Pictures M lo hi f) (t : Terminal) (cwd : List UInt8) (line : Memory)
    (hlen : text.length < LINE_SIZE) :
    ∃ line', lineStep t M cwd line text = .ok (line', f.command t cwd (argsOf text)) := by
  have htext := textAt_stored line text
  have hfirst : (text.takeWhile (· ≠ 0)).length < LINE_SIZE := ((List.takeWhile_prefix _).length_le).trans_lt hlen
  obtain ⟨s, hparse, hparsed⟩ := parseCommand_spec htext hfirst 8
  have hargs : s.argv.mapM (cstring s.mem) = .ok (argsOf text) := by
    have hmap : ∀ ws : List (ℕ × List UInt8), (∀ w ∈ ws, w ∈ words (text.takeWhile (· ≠ 0))) →
        (ws.map (0 + ·.1)).mapM (cstring s.mem) = .ok (ws.map Prod.snd) := by
      intro ws hws
      induction ws with
      | nil => rfl
      | cons w ws ih =>
        obtain ⟨a, w⟩ := w
        obtain ⟨hat, -, hle⟩ := hparsed.textAt htext (hws _ List.mem_cons_self)
        have hsmall : w.length < wordSize := lt_of_le_of_lt (by omega) (hfirst.trans (by decide))
        rw [List.map_cons, List.mapM_cons, cstring_of_textAt hat hsmall,
          ih fun x hx => hws x (List.mem_cons_of_mem _ hx)]
        rfl
    rw [hparsed.argv, argsOf, ← List.map_take, ← List.map_take]
    exact hmap _ fun w hw => List.mem_of_mem_take hw
  refine ⟨s.mem, ?_⟩
  unfold lineStep
  simp only [hparse, bind, Except.bind, hargs, command_ok h]
  rfl

/-! ### Sessions -/

theorem shellLoop_ok (h : Pictures M lo hi f) (t : Terminal) (cwd : List UInt8) (line : Memory) (input : List UInt8) :
    shellLoop t M cwd line input = .ok (browse t f cwd input) := by
  induction hlen : input.length using Nat.strong_induction_on generalizing cwd line input with
  | h len ih =>
    subst hlen
    rw [shellLoop, browse]
    by_cases hnil : input = []
    · rw [dif_pos hnil, dif_pos hnil]
    · rw [dif_neg hnil, dif_neg hnil]
      have hshort : (fgets (LINE_SIZE - 1) input).length < LINE_SIZE := (fgets_length_le _ _).trans_lt (by decide)
      obtain ⟨line', hstep⟩ := lineStep_ok h t cwd line hshort
      have hless : (input.drop (fgets (LINE_SIZE - 1) input).length).length < input.length := by
        rw [List.length_drop]
        exact Nat.sub_lt (List.length_pos_of_ne_nil hnil) (fgets_length_pos (by decide) hnil)
      simp only [hstep, bind, Except.bind]
      by_cases hgoes : (f.command t cwd (argsOf (fgets (LINE_SIZE - 1) input))).goes = true
      · simp only [hgoes, if_true, ih _ hless _ line' _ rfl]
        rfl
      · simp only [hgoes, if_false, Bool.false_eq_true]
        rfl

/-- The current directories of a session. -/
inductive Prompted (t : Terminal) (f : Forest) : List UInt8 → Prop where
  | start : Prompted t f ([char '/'].take (t.pathMax - 1))
  | line (cwd text : List UInt8) : Prompted t f cwd → Prompted t f (f.command t cwd (argsOf text)).cwd

theorem applyComponent_length {max : ℕ} (h : path.length ≤ max - 1) (name : List UInt8) :
    (applyComponent max path name).length ≤ max - 1 := by
  unfold applyComponent
  split
  · exact h
  · split
    · by_cases hne : path = []
      · rw [hne]
        exact Nat.zero_le _
      · exact (parentPath_front hne).1.length_le.trans h
    · unfold addComponent
      rw [List.length_append, List.length_take]
      split
      · rw [List.length_append, List.length_singleton]
        omega
      · omega

/-- A path fits into its buffer. -/
theorem relativeToAbsolute_fits {max : ℕ} (hmax : 2 ≤ max) (base rel : List UInt8) :
    (relativeToAbsolute base rel max).length ≤ max - 1 := by
  have hfold : ∀ (names : List (List UInt8)) (start : List UInt8), start.length ≤ max - 1 →
      (names.foldl (applyComponent max) start).length ≤ max - 1 := by
    intro names
    induction names with
    | nil => exact fun start h => h
    | cons name names ih => exact fun start h => ih _ (applyComponent_length h name)
  refine hfold _ _ ?_
  split
  · show 1 ≤ max - 1
    omega
  · exact List.length_take_le _ _

/-- **The current directory** is always one of the tree, and fits into its buffer. -/
theorem Prompted.directory (h : Prompted t f cwd) (ht : 2 ≤ t.pathMax) :
    cwd.length < t.pathMax ∧ ∃ g, f.directory cwd = .ok g := by
  induction h with
  | start =>
    rw [List.take_of_length_le (show 1 ≤ t.pathMax - 1 by omega)]
    refine ⟨show 1 < t.pathMax by omega, f, if_pos (components_of_slashes fun c hc => List.mem_singleton.mp hc)⟩
  | line cwd text _ ih =>
    have hcd : ∀ (path : List UInt8) (done : Done),
        (∀ g, f.directory (relativeToAbsolute cwd path t.pathMax) = .ok g →
          done.cwd = (relativeToAbsolute cwd path t.pathMax).take (t.pathMax - 1)) →
        (∀ r, f.directory (relativeToAbsolute cwd path t.pathMax) = .error r → done.cwd = cwd) →
        done.cwd.length < t.pathMax ∧ ∃ g, f.directory done.cwd = .ok g := by
      intro path done hgood hbad
      have hfits := relativeToAbsolute_fits ht cwd path
      cases hdir : f.directory (relativeToAbsolute cwd path t.pathMax) with
      | error r =>
        rw [hbad r hdir]
        exact ih
      | ok g =>
        rw [hgood g hdir, List.take_of_length_le hfits]
        exact ⟨by omega, g, hdir⟩
    generalize argsOf text = args
    unfold Forest.command
    by_cases hls : args.head? = some (word "ls")
    · rw [if_pos hls]
      split <;> exact ih
    · rw [if_neg hls]
      match args with
      | [] => exact ih
      | [name] =>
        dsimp only
        split_ifs <;> exact ih
      | [name, path] =>
        dsimp only
        split_ifs with hcat hcd'
        · split <;> exact ih
        · refine hcd path _ (fun g hg => ?_) (fun r hr => ?_)
          · rw [hg]
          · rw [hr]
        · exact ih
      | name :: path :: more :: rest => exact ih

/-- The root entry is a directory. -/
theorem root_type (g : Garbage) {fs : Memory} (hload : loadBytes fs 0 ENTRY_SIZE = rootEntry g) :
    entryType fs 0 = TYPE_DIR := by
  have hword := readWord_of_loadBytes (a := 0) (n := ENTRY_SIZE) (w := TYPE_DIR) (wordBytes 0)
    (wordBytes ENTRY_SIZE ++ ((List.range 8).map g.root ++ [char 'R', char 'O', char 'O', char 'T', 0] ++
      (List.range 251).map fun i => g.root (8 + i))) (by
      rw [hload]
      simp only [rootEntry, List.append_assoc])
  exact hword.trans (by decide)

/-- The output is an image of the tree, in every memory that holds it. -/
theorem build_pictures {host : Host} (g : Garbage) (h : Storable host path f) :
    ∃ out, (∀ fuel, f.depth < fuel → build host g fuel path = .ok out) ∧
      ∀ fs : Memory, (∀ x < out.size, fs x = out.data x) → Pictures fs ENTRY_SIZE out.size f := by
  obtain ⟨out, hbuild, hsize, hroot, -⟩ := build_ok g h
  obtain ⟨out', hbuild', -, hshows⟩ := build_shows g h
  obtain rfl : out = out' := Except.ok.inj ((hbuild _ (Nat.lt_succ_self _)).symm.trans (hbuild' _ (Nat.lt_succ_self _)))
  refine ⟨out, hbuild, fun fs hfs => ⟨hsize ▸ h.small, root_type g ?_, hshows fs hfs, h.named⟩⟩
  rw [← hroot]
  apply loadBytes_congr
  intro i hi
  exact hfs _ (by omega)

/-- **`fstool -shell`** over an image prints, for every input, what the shell over the tree prints from which the image was
built; and each current directory is one of the tree. -/
theorem shell_refines {host : Host} (g : Garbage) (h : Storable host path f) :
    ∃ out, (∀ fuel, f.depth < fuel → build host g fuel path = .ok out) ∧
      ∀ fs : Memory, (∀ x < out.size, fs x = out.data x) → ∀ (t : Terminal), 2 ≤ t.pathMax →
        (∀ (line : Memory) (input : List UInt8),
          shell t fs line input = .ok (prompt [char '/'] ++ browse t f [char '/'] input)) ∧
        ∀ cwd, Prompted t f cwd → cwd.length < t.pathMax ∧ ∃ g, f.directory cwd = .ok g := by
  obtain ⟨out, hbuild, hpictures⟩ := build_pictures g h
  refine ⟨out, hbuild, fun fs hfs t ht => ⟨fun line input => ?_, fun cwd hcwd => hcwd.directory ht⟩⟩
  have hroot : [char '/'].take (t.pathMax - 1) = [char '/'] :=
    List.take_of_length_le (show 1 ≤ t.pathMax - 1 by omega)
  unfold shell
  simp only [hroot, shellLoop_ok (hpictures fs hfs), bind, Except.bind]
  rfl

/-- A session that prints one file. -/
theorem shell_refines_sample :
    ∃ out, build sampleHost ⟨fun _ _ => 0, fun _ _ => 0, fun _ => 0⟩ 2 [char 'r'] = .ok out ∧
      shell ⟨4096, fun _ => []⟩ out.data (fun _ => 7) (word "cat ./b/c\n") =
        .ok (word "/ > " ++ ([4, 5] ++ word "/ > ")) := by
  obtain ⟨out, hbuild, hshell⟩ := shell_refines ⟨fun _ _ => 0, fun _ _ => 0, fun _ => 0⟩ storable_sample
  refine ⟨out, hbuild 2 (by decide), ((hshell out.data (fun _ _ => rfl) ⟨4096, fun _ => []⟩
    (by decide)).1 _ _).trans (congrArg Except.ok ?_)⟩
  have hcat : sampleForest.command ⟨4096, fun _ => []⟩ [char '/'] (argsOf (word "cat ./b/c\n")) =
      ⟨[char '/'], [4, 5], true⟩ := rfl
  rw [browse, dif_neg (by decide)]
  dsimp only
  rw [show fgets (LINE_SIZE - 1) (word "cat ./b/c\n") = word "cat ./b/c\n" by decide, hcat, if_pos rfl, browse,
    dif_pos (by decide)]
  decide

end AdelaideOS.Image
