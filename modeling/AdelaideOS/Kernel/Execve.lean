import AdelaideOS.Kernel.Advance

/-!
# What execve installs

After a successful `execve` the text segment holds the program and zeros up to the end of its last page, the data
segment is empty, and the arguments lie at the end of the stack as `buildArgs` laid them out.  The strings were read
before anything was unmapped or stored, so it does not matter where they were.

* **`Mapped.seesStoredBytes`** — the copy of the buffer to the stack;
* **`execProgram_installs`** — loading the program and copying the arguments;
* **`execve_installs`** — the call.
-/

namespace AdelaideOS.Kernel

open AdelaideOS.Buddy AdelaideOS.Lib.Bytes AdelaideOS.Lib.Triple AdelaideOS.Lib.View AdelaideOS.Page AdelaideOS.Process

variable {m : Machine} {k k' : State} {p a : ℕ} {args : List (List UInt8)}

/-! ### The copy to the stack -/

/-- The bytes that are stored are seen, and the others stay; only the pages change. -/
theorem Mapped.seesStoredBytes {bs : List UInt8} (h : Mapped m k) (hp : k.sched.Live p) (i : ℕ)
    (hlen : i + bs.length ≤ wordSize) (hok : storeMappedBytes p a bs i k = .ok () k') :
    (∃ P, k' = { k with pages := P }) ∧
      (∀ j < bs.length, userByte k' p (offset a (i + j)) = bs.getD j 0) ∧
      ∀ y < wordSize, (∀ j < bs.length, y ≠ offset a (i + j)) → userByte k' p y = userByte k p y := by
  induction bs generalizing k i with
  | nil =>
    cases hok
    exact ⟨⟨_, rfl⟩, fun j hj => absurd hj (Nat.not_lt_zero j), fun _ _ _ => rfl⟩
  | cons b bs ih =>
    rw [List.length_cons] at hlen
    obtain ⟨_, k₁, h₁, hrest⟩ := bind_ok hok
    obtain ⟨hmap, hsched, hbyte⟩ := h.seesStored hp (offset_lt a i) h₁
    obtain ⟨⟨P, hk'⟩, hseen, hstay⟩ := ih hmap (by rw [hsched]; exact hp) (i + 1) (by omega) hrest
    obtain ⟨P₁, hk₁⟩ : ∃ P, k₁ = { k with pages := P } := by
      unfold storeMapped at h₁
      split at h₁
      · cases h₁
        exact ⟨_, rfl⟩
      · cases h₁
    refine ⟨⟨P, by rw [hk', hk₁]⟩, ?_, ?_⟩
    · intro j hj
      cases j with
      | zero =>
        rw [Nat.add_zero, hstay _ (offset_lt a i), hbyte _ (offset_lt a i), if_pos rfl]
        · rfl
        · intro j hj
          simp only [offset, wordSize] at *
          omega
      | succ j =>
        have := hseen j (by simpa using hj)
        rw [show i + (j + 1) = i + 1 + j by omega]
        exact this
    · intro y hy hne
      have hi := hne 0 (by simp)
      rw [Nat.add_zero] at hi
      rw [hstay y hy, hbyte y hy, if_neg hi]
      intro j hj
      have := hne (j + 1) (by simpa using hj)
      rw [show i + 1 + j = i + (j + 1) by omega]
      exact this

/-! ### The new image of the process -/

/-- Where the arguments begin. -/
def argsBase (args : List (List UInt8)) : ℕ := PROCESS_STACK_BASE - marshalledSize args

/-- What the program finds when the buffer lies at the end of its stack. -/
theorem Laid.seen {M : Memory} {argdata : ℕ} (h : Laid M argdata args) (hfit : marshalledSize args ≤ PROCESS_STACK_SIZE)
    (hz : ∀ arg ∈ args, (0 : UInt8) ∉ arg)
    (hb : ∀ x < marshalledSize args, userByte k p (argsBase args + x) = M (argdata + x)) :
    userWord k p (argsBase args) = args.length ∧ userWord k p (argsBase args + 4) = argsBase args + 8 ∧
      ∀ i (hi : i < args.length),
        userWord k p (argsBase args + 8 + 4 * i) = argsBase args + argPos args (marshalledSize args) i ∧
        StringIs k p (argsBase args + argPos args (marshalledSize args) i) args[i] := by
  have hmin : 8 + 4 * args.length ≤ marshalledSize args := by
    unfold marshalledSize
    omega
  have hbase : argsBase args + marshalledSize args = PROCESS_STACK_BASE := by
    simp only [argsBase, PROCESS_STACK_BASE, PROCESS_STACK_SIZE] at *
    omega
  have hoff : ∀ x < marshalledSize args, ∀ j < marshalledSize args,
      offset (argsBase args + x) j = argsBase args + (x + j) := by
    intro x hx j hj
    rw [offset_of_lt, Nat.add_assoc]
    simp only [PROCESS_STACK_BASE, PROCESS_STACK_SIZE, wordSize] at *
    omega
  -- an address in the buffer is one on the stack
  have haddr : ∀ x ≤ marshalledSize args,
      (PROCESS_STACK_BASE + wordSize - marshalledSize args + x) % wordSize = argsBase args + x := by
    intro x hx
    simp only [PROCESS_STACK_BASE, PROCESS_STACK_SIZE, wordSize] at *
    omega
  have hword : ∀ x w, x + 4 ≤ marshalledSize args → (∀ j < 4, M (argdata + (x + j)) = (wordBytes w).getD j 0) →
      userWord k p (argsBase args + x) = w % wordSize := by
    intro x w hx hw
    apply userWord_of_bytes
    intro j hj
    rw [hoff x (by omega) j (by omega), hb _ (by omega)]
    exact hw j hj
  refine ⟨?_, ?_, ?_⟩
  · have := hword 0 args.length (by omega) (by simpa using h.argc)
    rw [Nat.add_zero, Nat.mod_eq_of_lt] at this
    · exact this
    · simp only [PROCESS_STACK_SIZE, wordSize] at *
      omega
  · rw [hword 4 _ (by omega) h.argv, haddr 8 (by omega)]
  · intro i hi
    obtain ⟨hlow, hhigh, -⟩ := argPos_ge args hi
    constructor
    · rw [Nat.add_assoc, hword _ _ (by omega) (h.pointers i hi), haddr _ (by omega)]
    · refine ⟨hz _ (List.getElem_mem hi), ?_⟩
      intro j hj
      rw [hoff _ (by omega) j (by omega), hb _ (by omega)]
      exact h.strings i hi j hj

/-- The address of argument `i` on the new stack, as the program finds it: the word at the stack pointer is `argc`,
the next one is the address of the array. -/
def argAddress (k : State) (p esp i : ℕ) : ℕ := userWord k p (userWord k p (esp + 4) + 4 * i)

/-- What `execve` leaves of process `p`: the program at `entry`, no data, and `args` on the stack. -/
structure Installed (fs : Memory) (entry p : ℕ) (args : List (List UInt8)) (r : Regs) (k k' : State) : Prop where
  textStart : (k'.space p).textStart = PROCESS_TEXT_BASE
  textEnd : (k'.space p).textEnd = PROCESS_TEXT_BASE + (entrySize fs entry + 4095) / 4096 * 4096
  text : ∀ i, PROCESS_TEXT_BASE + i < (k'.space p).textEnd →
    userByte k' p (PROCESS_TEXT_BASE + i) = programByte fs entry i
  data : (k'.space p).dataStart = (k'.space p).dataEnd
  stack : (k'.space p).stackStart = PROCESS_STACK_BASE - PROCESS_STACK_SIZE ∧
    (k'.space p).stackEnd = PROCESS_STACK_BASE
  eip : r.eip = PROCESS_TEXT_BASE
  argc : (k'.space p).stackStart ≤ r.useresp ∧ userWord k' p r.useresp = args.length
  array : r.useresp + 8 ≤ userWord k' p (r.useresp + 4) ∧
    userWord k' p (r.useresp + 4) + 4 * args.length ≤ (k'.space p).stackEnd
  strings : ∀ i (h : i < args.length), StringIs k' p (argAddress k' p r.useresp i) args[i] ∧
    userWord k' p (r.useresp + 4) + 4 * args.length ≤ argAddress k' p r.useresp i ∧
    argAddress k' p r.useresp i + args[i].length + 1 ≤ (k'.space p).stackEnd
  apart : ∀ i j (hi : i < args.length) (hj : j < args.length), i ≠ j →
    argAddress k' p r.useresp i + args[i].length + 1 ≤ argAddress k' p r.useresp j ∨
      argAddress k' p r.useresp j + args[j].length + 1 ≤ argAddress k' p r.useresp i
  filedesc : k'.filedesc = k.filedesc
  handles : k'.handles = k.handles
  pipes : k'.pipes = k.pipes
  cwd : k'.cwd = k.cwd
  sched : k'.sched = k.sched

theorem programPages_eq (fs : Memory) (entry : ℕ) : programPages fs entry = (entrySize fs entry + 4095) / 4096 := by
  rw [programPages, pagesOf, List.length_map, List.length_range]
  rfl

theorem kfree_inv (h : kfree a k = .ok () k') : ∃ heap, k' = { k with heap := heap } := by
  unfold kfree onHeap at h
  split at h
  · cases h
    exact ⟨_, rfl⟩
  · cases h

theorem onPages_inv {α : Type} {f : Pages → Except Fault (α × Pages)} {x : α} (h : onPages f k = .ok x k') :
    ∃ P, f k.pages = .ok (x, P) ∧ k' = { k with pages := P } := by
  unfold onPages at h
  split at h
  · next heq =>
    cases h
    exact ⟨_, heq, rfl⟩
  · cases h

/-- **The text** as soon as it is loaded. -/
theorem Safe.sees_text {forked : ℕ → Bool} {asp : ℕ → Aspace} {path : List UInt8} {entry : ℕ}
    (h : Safe m forked k.sched k.pages k.space asp) (hp : k.sched.Live p)
    (hentry : getDirectoryEntry m.filesystem path = .ok (.ok entry)) {P : Pages}
    (hok : execPages m.filesystem entry (k.space p) k.pages = .ok ((), P)) {i : ℕ}
    (hi : i < programPages m.filesystem entry * PAGE_SIZE) :
    userByte { k with
        pages := P
        space := Function.update k.space p (execSpace m.filesystem entry (k.space p)) } p (PROCESS_TEXT_BASE + i) =
      programByte m.filesystem entry i := by
  obtain ⟨t, d, hs⟩ := h.shaped p hp
  have hmax := programPages_le m hentry
  obtain ⟨P₁, A, hok', hO, -, hs', -, hbytes⟩ := execPages_spec (h.owns hp) hs hmax h.room
  rw [hok'] at hok
  cases hok
  simp only [PAGE_SIZE, MAX_TEXT] at hi hmax
  have hlt : PROCESS_TEXT_BASE + i < wordSize := by
    simp only [PROCESS_TEXT_BASE, wordSize]
    omega
  have hpage : pageOf (PROCESS_TEXT_BASE + i) = TEXT_PAGE + i / PAGE_SIZE := by
    simp only [pageOf, PROCESS_TEXT_BASE, PAGE_SIZE, TEXT_PAGE]
    omega
  have hmod : (PROCESS_TEXT_BASE + i) % PAGE_SIZE = i % PAGE_SIZE := by
    simp only [PROCESS_TEXT_BASE, PAGE_SIZE]
    omega
  have hn : i / PAGE_SIZE < programPages m.filesystem entry := by
    simp only [PAGE_SIZE]
    omega
  have hus : TEXT_PAGE + i / PAGE_SIZE ∈ A.us :=
    hs'.mem_us.mpr (Or.inl ⟨Nat.le_add_right _ _, Nat.add_lt_add_left hn _⟩)
  have hO' : Owns P (Function.update k.space p (execSpace m.filesystem entry (k.space p)) p).pdir A
      (framesOf ((livePids k.sched).erase p) (fun q => (k.space q).pdir) asp) := by
    rw [Function.update_self]
    exact hO
  rw [userByte_eq hO' hlt, hpage, hmod, if_pos hus]
  show P.mem _ = _
  rw [hbytes _ hn _ (Nat.mod_lt _ (by decide)), Nat.div_add_mod]

/-! ### The call -/

theorem loadBytes_getD (M : Memory) (a : ℕ) {n j : ℕ} (hj : j < n) : (loadBytes M a n).getD j 0 = M (a + j) := by
  rw [List.getD_eq_getElem _ _ (by rw [loadBytes_length]; exact hj)]
  simp [loadBytes]

/-- **Loading the program and copying the arguments.**  The buffer was laid out in `M`. -/
theorem execProgram_inv {path : List UInt8} {entry : ℕ} {res : ℤ} {r : Regs} (h : Mapped m k)
    (hp : k.sched.Live p) (hentry : getDirectoryEntry m.filesystem path = .ok (.ok entry))
    (hfit : marshalledSize args ≤ PROCESS_STACK_SIZE)
    (hok : execProgram m.filesystem p entry args k = .ok (res, r) k') :
    res = 0 ∧ r = initRegs (argsBase args) PROCESS_TEXT_BASE ∧
      (∃ P heap, k' = { k with
        pages := P
        heap := heap
        space := Function.update k.space p (execSpace m.filesystem entry (k.space p)) }) ∧
      (∀ i < programPages m.filesystem entry * PAGE_SIZE,
        userByte k' p (PROCESS_TEXT_BASE + i) = programByte m.filesystem entry i) ∧
      ∃ M argdata, Laid M argdata args ∧
        ∀ x < marshalledSize args, userByte k' p (argsBase args + x) = M (argdata + x) := by
  have hmin : 8 ≤ marshalledSize args := by
    unfold marshalledSize
    omega
  have hsize : marshalledSize args < wordSize := by
    simp only [PROCESS_STACK_SIZE, wordSize] at *
    omega
  unfold execProgram at hok
  simp only [argdataSize_eq hsize] at hok
  obtain ⟨argdata, k₁, hbuild, hok⟩ := bind_ok hok
  obtain ⟨⟨heap, hk₁⟩, hlaid⟩ := buildArgs_inv hsize hbuild
  rw [run_get] at hok
  obtain ⟨_, k₂, hpages, hok⟩ := bind_ok hok
  obtain ⟨P, hexec, hk₂⟩ := onPages_inv hpages
  obtain ⟨_, k₃, hset, hok⟩ := bind_ok hok
  have hk₃ : k₃ = { k₂ with space := Function.update k₂.space p (execSpace m.filesystem entry (k₁.space p)) } := by
    cases hset
    rfl
  rw [run_get] at hok
  obtain ⟨_, k₄, hstore, hok⟩ := bind_ok hok
  obtain ⟨_, k₅, hfree, hpure⟩ := bind_ok hok
  obtain ⟨heap', hk₅⟩ := kfree_inv hfree
  obtain ⟨hres, hr, hk'⟩ : res = 0 ∧
      r = initRegs ((PROCESS_STACK_BASE + wordSize - marshalledSize args) % wordSize) PROCESS_TEXT_BASE ∧
      k' = k₅ := by
    cases hpure
    exact ⟨rfl, rfl, rfl⟩
  have hsched₃ : k₃.sched = k.sched := by rw [hk₃, hk₂, hk₁]
  -- the address space in between
  obtain ⟨forked, asp, hsafe⟩ := id h
  have hexec' : execPages m.filesystem entry (k.space p) k.pages = .ok ((), P) := by
    rw [hk₁] at hexec
    exact hexec
  have hmap₃ : Mapped m k₃ := by
    obtain ⟨asp', hsafe'⟩ := hsafe.exec hp hentry hexec'
    refine ⟨forked, asp', ?_⟩
    rw [hk₃, hk₂, hk₁]
    exact hsafe'
  obtain ⟨⟨P', hk₄⟩, hseen, hstay⟩ := hmap₃.seesStoredBytes (by rw [hsched₃]; exact hp) 0
    (by rw [loadBytes_length]; omega) hstore
  rw [loadBytes_length] at hseen hstay
  have hoff : ∀ x < marshalledSize args,
      offset (PROCESS_STACK_BASE + wordSize - marshalledSize args) (0 + x) = argsBase args + x := by
    intro x hx
    simp only [argsBase, offset, PROCESS_STACK_BASE, PROCESS_STACK_SIZE, wordSize] at *
    omega
  -- `kfree` changes nothing that the process sees
  have hbyte : ∀ y, userByte k' p y = userByte k₄ p y := by
    intro y
    rw [hk', hk₅]
    rfl
  refine ⟨hres, ?_, ⟨P', heap', ?_⟩, ?_, k₁.heap.bytes, argdata, hlaid, ?_⟩
  · rw [hr]
    congr 1
    simp only [argsBase, PROCESS_STACK_BASE, PROCESS_STACK_SIZE, wordSize] at *
    omega
  · rw [hk', hk₅, hk₄, hk₃, hk₂, hk₁]
  · intro i hi
    have hmax := programPages_le m hentry
    rw [hbyte, hstay, ← hsafe.sees_text hp hentry hexec' hi, hk₃, hk₂, hk₁]
    · rfl
    · simp only [PROCESS_TEXT_BASE, PAGE_SIZE, MAX_TEXT, wordSize] at *
      omega
    · intro j hj
      rw [hoff j hj]
      simp only [argsBase, PROCESS_TEXT_BASE, PROCESS_STACK_BASE, PROCESS_STACK_SIZE, PAGE_SIZE, MAX_TEXT] at *
      omega
  · intro x hx
    have hheap₃ : k₃.heap = k₁.heap := by rw [hk₃, hk₂]
    rw [hbyte, ← hoff x hx, hseen x hx, loadBytes_getD _ _ hx, hheap₃]

/-- What is installed, from what is seen. -/
theorem execProgram_installs {path : List UInt8} {entry : ℕ} {res : ℤ} {r : Regs} (h : Mapped m k)
    (hp : k.sched.Live p) (hentry : getDirectoryEntry m.filesystem path = .ok (.ok entry))
    (hfit : marshalledSize args ≤ PROCESS_STACK_SIZE) (hz : ∀ arg ∈ args, (0 : UInt8) ∉ arg)
    (hok : execProgram m.filesystem p entry args k = .ok (res, r) k') :
    Installed m.filesystem entry p args r k k' := by
  obtain ⟨-, hr, ⟨P, heap, hk'⟩, htext, M, argdata, hlaid, hb⟩ := execProgram_inv h hp hentry hfit hok
  obtain ⟨hargc, hargv, hargs⟩ := hlaid.seen hfit hz hb
  obtain ⟨forked, asp, hsafe⟩ := id h
  obtain ⟨t, d, hs⟩ := hsafe.shaped p hp
  have hspace : k'.space p = execSpace m.filesystem entry (k.space p) := by
    rw [hk']
    exact Function.update_self ..
  have hesp : r.useresp = argsBase args := by
    rw [hr]
    rfl
  have hstart : (k'.space p).stackStart = PROCESS_STACK_BASE - PROCESS_STACK_SIZE := by
    rw [hspace]
    exact hs.stackStart
  have hend : (k'.space p).stackEnd = PROCESS_STACK_BASE := by
    rw [hspace]
    exact hs.stackEnd
  have hbase : argsBase args + marshalledSize args = PROCESS_STACK_BASE := by
    simp only [argsBase, PROCESS_STACK_BASE, PROCESS_STACK_SIZE] at *
    omega
  have hmin : 8 + 4 * args.length ≤ marshalledSize args := by
    unfold marshalledSize
    omega
  have hptr : ∀ i (hi : i < args.length),
      argAddress k' p (argsBase args) i = argsBase args + argPos args (marshalledSize args) i := by
    intro i hi
    unfold argAddress
    rw [hargv, (hargs i hi).1]
  constructor
  case textStart =>
    rw [hspace]
    rfl
  case textEnd =>
    rw [hspace, ← programPages_eq]
    rfl
  case text =>
    intro i hi
    rw [hspace] at hi
    exact htext i (Nat.lt_of_add_lt_add_left hi)
  case data =>
    rw [hspace]
    rfl
  case stack => exact ⟨hstart, hend⟩
  case eip =>
    rw [hr]
    rfl
  case argc =>
    rw [hesp, hstart]
    exact ⟨by omega, hargc⟩
  case array =>
    rw [hesp, hend, hargv]
    exact ⟨Nat.le_refl _, by omega⟩
  case strings =>
    intro i hi
    obtain ⟨hlow, hhigh, -⟩ := argPos_ge args hi
    rw [hesp, hend, hargv, hptr i hi]
    exact ⟨(hargs i hi).2, by omega, by omega⟩
  case apart =>
    intro i j hi hj hne
    rw [hesp, hptr i hi, hptr j hj]
    rcases Nat.lt_or_gt_of_ne hne with hlt | hlt
    · right
      have := (argPos_ge args hj).2.2 i hi hlt
      omega
    · left
      have := (argPos_ge args hi).2.2 j hj hlt
      omega
  all_goals rw [hk']

theorem eq_of_unlogged (h : k'.unlogged = k.unlogged) : ∃ log, k' = { k with log := log } := by
  refine ⟨k'.log, ?_⟩
  show { k'.unlogged with log := k'.log } = { k.unlogged with log := k'.log }
  rw [h]

theorem ArgsOf.unlogged {argv : ℕ} (hl : k'.unlogged = k.unlogged) (h : ArgsOf k' p argv args) : ArgsOf k p argv args := by
  unfold ArgsOf ArgvIs StringIs at *
  rw [userByte_unlogged hl, userWord_unlogged hl] at h
  exact h

theorem ArgsOf.string {argv : ℕ} (h : ArgsOf k p argv args) {arg : List UInt8} (harg : arg ∈ args) : (0 : UInt8) ∉ arg := by
  unfold ArgsOf at h
  split_ifs at h
  · rw [h] at harg
    cases harg
  · obtain ⟨i, hi, rfl⟩ := List.getElem_of_mem harg
    exact (h.1 i hi).2.1

/-- What a successful call has done. -/
theorem syscallExecve_inv {filename argv : ℕ} {r r' : Regs} (h : Mapped m k) (hp : k.sched.Live p)
    (hname : filename < wordSize) (hargv : argv < wordSize) (hargs : ArgsOf k p argv args)
    (hfit : marshalledSize args ≤ PROCESS_STACK_SIZE)
    (hok : syscallExecve m.filesystem p filename argv r k = .ok (0, r') k') :
    ∃ path entry, StringIs k p filename path ∧ getDirectoryEntry m.filesystem path = .ok (.ok entry) ∧
      entryType m.filesystem entry ≠ TYPE_DIR ∧ Installed m.filesystem entry p args r' k k' := by
  unfold syscallExecve at hok
  obtain ⟨valid, k₁, hvalid, hok⟩ := bind_ok hok
  have hl₁ := validStringLoop_inv hvalid
  split_ifs at hok
  · obtain ⟨ok, k₂, hvalid', hok⟩ := bind_ok hok
    have hl₂ := (validArgv_inv hvalid').trans hl₁
    split_ifs at hok
    · obtain ⟨path, k₃, hpath, hok⟩ := bind_ok hok
      obtain ⟨hstring, hl₃⟩ := userString_inv hname hpath
      replace hl₃ := hl₃.trans hl₂
      obtain ⟨found, k₄, hfound, hok⟩ := bind_ok hok
      obtain ⟨hentry, hk₄⟩ : getDirectoryEntry m.filesystem path = .ok found ∧ k₄ = k₃ := by
        unfold lift at hfound
        split at hfound
        · next heq =>
          cases hfound
          exact ⟨heq, rfl⟩
        · cases hfound
      rw [hk₄] at hok
      cases found with
      | error e =>
        cases hok
        exact absurd (walk_enoent hentry) (by decide)
      | ok entry =>
        simp only at hok
        split_ifs at hok with hdir
        · cases hok
        · obtain ⟨args', k₅, hargs', hok⟩ := bind_ok hok
          obtain ⟨hof, hl₅⟩ := argStrings_inv hargv hargs'
          obtain rfl := hargs.unique (hof.unlogged hl₃)
          obtain ⟨log, rfl⟩ := eq_of_unlogged (hl₅.trans hl₃)
          obtain ⟨forked, asp, hsafe⟩ := h
          have hinst := execProgram_installs (k := { k with log := log }) ⟨forked, asp, hsafe⟩ hp hentry hfit
            (fun _ => hargs.string) hok
          exact ⟨path, entry, hstring.unlogged hl₂, hentry, hdir, { hinst with }⟩
    · cases hok
  · cases hok

/-! ### Up to the buffer -/

theorem Logged.unlogged {s : Space} (h : Logged s k k') : k'.unlogged = k.unlogged := by
  obtain ⟨L, -, rfl⟩ := h
  rfl

/-- The state with more addresses in the log. -/
def State.touching (k : State) (L : List ℕ) : State := { k with log := L ++ k.log }

theorem Logged.touching {s : Space} (h : Logged s k k') : ∃ L, k' = k.touching L := by
  obtain ⟨L, -, rfl⟩ := h
  exact ⟨L, rfl⟩

/-- `execve` once the entry has been looked up. -/
def execFound (fs : Memory) (p argv : ℕ) (r : Regs) : Except ℤ ℕ → K (ℤ × Regs)
  | .error e => return (e, r)
  | .ok entry =>
    if entryType fs entry = TYPE_DIR then return (-EISDIR, r)
    else do
      let args ← argStrings p argv
      execProgram fs p entry args

/-- Valid pointers: the path is looked up. -/
theorem execve_looks {filename argv : ℕ} (hs : Sound k p) (hname : filename < wordSize) (hargv : argv < wordSize)
    (hstr : StringAt k p filename) (harr : argv = 0 ∨ ArgvAt k p argv) (r : Regs) :
    ∃ path L, StringIs k p filename path ∧ Logged (k.space p) k (k.touching L) ∧
      syscallExecve m.filesystem p filename argv r k =
        (lift (getDirectoryEntry m.filesystem path) >>= execFound m.filesystem p argv r) (k.touching L) := by
  obtain ⟨b, k₁, hok₁, hl₁, hb₁⟩ := validString_ok hs hname
  obtain ⟨b', k₂, hok₂, hl₂, hb₂⟩ := validArgv_ok (hl₁.sound hs) hargv
  rw [hl₁.space] at hl₂
  have hl := hl₁.trans hl₂
  obtain ⟨path, k₃, hok₃, hl₃⟩ := userString_ok (hl.sound hs) hname (hl.stringAt.mpr hstr)
  have hpath := (userString_inv hname hok₃).1.unlogged hl.unlogged
  rw [hl.space] at hl₃
  have hlogged := hl.trans hl₃
  obtain ⟨L, rfl⟩ := hlogged.touching
  refine ⟨path, L, hpath, hlogged, ?_⟩
  unfold syscallExecve
  rw [run_bind hok₁, if_pos (hb₁.mpr hstr), run_bind hok₂, if_pos (hb₂.mpr (by rw [hl₁.argvAt]; exact harr))]
  unfold execEntry
  rw [run_bind hok₃]
  rfl

/-- **A call that is not refused** comes to the allocation of the buffer. -/
theorem execve_reaches {filename argv entry : ℕ} {path : List UInt8} (hs : Sound k p) (hname : filename < wordSize)
    (hargv : argv < wordSize) (hstr : StringAt k p filename) (hpath : StringIs k p filename path) (harr : argv = 0 ∨ ArgvAt k p argv)
    (hentry : getDirectoryEntry m.filesystem path = .ok (.ok entry)) (hdir : entryType m.filesystem entry ≠ TYPE_DIR)
    (r : Regs) :
    ∃ args L, ArgsOf k p argv args ∧
      syscallExecve m.filesystem p filename argv r k = execProgram m.filesystem p entry args (k.touching L) := by
  obtain ⟨text, L, htext, hl, hlook⟩ := execve_looks hs hname hargv hstr harr r
  obtain rfl : path = text := hpath.unique htext
  obtain ⟨args, k₁, hok, hl₁⟩ := argStrings_ok (hl.sound hs) hargv (by
    rw [hl.argvAt]
    exact harr)
  have hargs := (argStrings_inv hargv hok).1.unlogged hl.unlogged
  rw [hl.space] at hl₁
  obtain ⟨L', rfl⟩ := (hl.trans hl₁).touching
  refine ⟨args, L', hargs, ?_⟩
  have hfound : lift (getDirectoryEntry m.filesystem path) (k.touching L) = .ok (.ok entry) (k.touching L) := by
    unfold lift
    rw [hentry]
  have hfile : execFound m.filesystem p argv r (.ok entry) = (argStrings p argv >>= execProgram m.filesystem p entry) :=
    if_neg hdir
  rw [hlook, run_bind hfound, hfile, run_bind hok]

/-! ### When it succeeds -/

section Success

variable {T : Table Use} {argdata size : ℕ} {use : Use}

theorem storeBlock_ok (off : ℕ) (bs : List UInt8) (hH : Holds kernelRegion k.heap T)
    (hx : T argdata = some ⟨size, use⟩) (hfit : off + bs.length ≤ size) :
    ∃ h, storeBlock argdata size off bs k = .ok () { k with heap := h } ∧ Holds kernelRegion h T := by
  unfold storeBlock
  rw [if_pos hfit]
  refine ⟨_, rfl, hH.write hx ?_⟩
  intro y hy
  exact storeBytes_of_outside _ (by simp only at hy; omega)

theorem packArgs_ok (argno pos : ℕ) (hH : Holds kernelRegion k.heap T) (hx : T argdata = some ⟨size, use⟩)
    (hroom : 8 + 4 * (argno + args.length) + roomFor args ≤ pos) (hpos : pos ≤ size) (hsize : size < wordSize) :
    ∃ h, packArgs argdata size args argno pos k = .ok () { k with heap := h } ∧ Holds kernelRegion h T := by
  induction args generalizing k argno pos with
  | nil => exact ⟨k.heap, rfl, hH⟩
  | cons arg args ih =>
    rw [roomFor_cons, List.length_cons] at hroom
    have hmod : (pos + wordSize - (arg.length + 1)) % wordSize = pos - (arg.length + 1) := by
      simp only [wordSize] at *
      omega
    unfold packArgs
    simp only [hmod]
    obtain ⟨h₁, hok₁, hH₁⟩ := storeBlock_ok (pos - (arg.length + 1)) (arg ++ [0]) hH hx
      (by simp only [List.length_append, List.length_singleton]; omega)
    obtain ⟨h₂, hok₂, hH₂⟩ := storeBlock_ok (k := { k with heap := h₁ }) (8 + 4 * argno)
      (wordBytes (PROCESS_STACK_BASE + wordSize - size + (pos - (arg.length + 1)))) hH₁ hx
      (by simp only [wordBytes, List.length_cons, List.length_nil]; omega)
    obtain ⟨h₃, hok₃, hH₃⟩ := ih (k := { k with heap := h₂ }) (argno + 1) (pos - (arg.length + 1)) hH₂
      (by omega) (by omega)
    refine ⟨h₃, ?_, hH₃⟩
    rw [run_bind hok₁, run_bind hok₂]
    exact hok₃

theorem buildArgs_ok {h₁ : Heap} (hH : Holds kernelRegion k.heap T) (hsize : marshalledSize args < wordSize)
    (halloc : buddyAlloc .kernel k.heap (marshalledSize args) = .ok (argdata, h₁)) :
    ∃ h h', buildArgs args k = .ok argdata { k with heap := h } ∧ buddyFree h argdata = .ok h' := by
  have hmin : 8 + 4 * (0 + args.length) + roomFor args ≤ marshalledSize args := by
    unfold marshalledSize
    omega
  have hH₁ := (hH.alloc halloc).2.2 .scratch
  have hx : Function.update T argdata (some ⟨marshalledSize args, .scratch⟩) argdata =
      some ⟨marshalledSize args, .scratch⟩ := Function.update_self ..
  obtain ⟨h₂, hok₂, hH₂⟩ := packArgs_ok (k := { k with heap := h₁ }) 0 _ hH₁ hx hmin (Nat.le_refl _) hsize
  obtain ⟨h₃, hok₃, hH₃⟩ := storeBlock_ok (k := { k with heap := h₂ }) 0 (wordBytes args.length) hH₂ hx
    (by simp only [wordBytes, List.length_cons, List.length_nil]; omega)
  obtain ⟨h₄, hok₄, hH₄⟩ := storeBlock_ok (k := { k with heap := h₃ }) 4
    (wordBytes (PROCESS_STACK_BASE + wordSize - marshalledSize args + 8)) hH₃ hx
    (by simp only [wordBytes, List.length_cons, List.length_nil]; omega)
  obtain ⟨h₅, hfree, -⟩ := hH₄.free hx
  refine ⟨h₄, h₅, ?_, hfree⟩
  unfold buildArgs
  simp only [argdataSize_eq hsize]
  rw [run_bind (kmalloc_ok halloc), run_bind hok₂, run_bind hok₃, run_bind hok₄]
  rfl

theorem storeMappedBytes_ok {bs : List UInt8} {i : ℕ} (h : Mapped m k) (hp : k.sched.Live p)
    (hr : ∀ j < bs.length, (k.space p).InRange (offset a (i + j))) :
    ∃ P, storeMappedBytes p a bs i k = .ok () { k with pages := P } := by
  induction bs generalizing k i with
  | nil => exact ⟨k.pages, rfl⟩
  | cons b bs ih =>
    obtain ⟨forked, asp, hsafe⟩ := id h
    obtain ⟨x, hx⟩ := (hsafe.sound hp).physical_ok (hr 0 (by simp))
    rw [Nat.add_zero] at hx
    have hok : storeMapped p (offset a i) b k = .ok () (k.storeAt x b) := by
      unfold storeMapped
      rw [hx]
    obtain ⟨hmap, hs, -⟩ := h.seesStored hp (offset_lt a i) hok
    obtain ⟨P, hok'⟩ := ih (k := k.storeAt x b) (i := i + 1) hmap hp (by
      intro j hj
      have := hr (j + 1) (by simpa using hj)
      rw [show i + 1 + j = i + (j + 1) by omega]
      exact this)
    refine ⟨P, ?_⟩
    unfold storeMappedBytes
    rw [run_bind hok]
    exact hok'

theorem kfree_ok {h : Heap} (hok : buddyFree k.heap a = .ok h) : kfree a k = .ok () { k with heap := h } := by
  unfold kfree onHeap
  simp only [hok]
  rfl

theorem execProgram_ok {path : List UInt8} {entry : ℕ} {h₁ : Heap} (h : Mapped m k) (hp : k.sched.Live p)
    (hentry : getDirectoryEntry m.filesystem path = .ok (.ok entry)) (hfit : marshalledSize args ≤ PROCESS_STACK_SIZE)
    (hH : Holds kernelRegion k.heap T)
    (halloc : buddyAlloc .kernel k.heap (marshalledSize args) = .ok (argdata, h₁)) :
    ∃ r k', execProgram m.filesystem p entry args k = .ok (0, r) k' := by
  have hmin : 8 ≤ marshalledSize args := by
    unfold marshalledSize
    omega
  have hsize : marshalledSize args < wordSize := by
    simp only [PROCESS_STACK_SIZE, wordSize] at *
    omega
  obtain ⟨h₂, h₃, hbuild, hfree⟩ := buildArgs_ok hH hsize halloc
  obtain ⟨forked, asp, hsafe⟩ := id h
  obtain ⟨t, d, hs⟩ := hsafe.shaped p hp
  obtain ⟨P, A, hexec, -⟩ := execPages_spec (hsafe.owns hp) hs (programPages_le m hentry) hsafe.room
  obtain ⟨asp', hsafe'⟩ := hsafe.exec hp hentry hexec
  let k₃ : State := { k with
    heap := h₂
    pages := P
    space := Function.update k.space p (execSpace m.filesystem entry (k.space p)) }
  have hmap₃ : Mapped m k₃ := ⟨forked, asp', hsafe'⟩
  have hrange : ∀ j < (loadBytes k₃.heap.bytes argdata (marshalledSize args)).length, (k₃.space p).InRange
      (offset (PROCESS_STACK_BASE + wordSize - marshalledSize args) (0 + j)) := by
    intro j hj
    rw [loadBytes_length] at hj
    right; right
    show (Function.update k.space p (execSpace m.filesystem entry (k.space p)) p).stackStart ≤ _ ∧
      _ < (Function.update k.space p (execSpace m.filesystem entry (k.space p)) p).stackEnd
    rw [Function.update_self]
    show (k.space p).stackStart ≤ _ ∧ _ < (k.space p).stackEnd
    rw [hs.stackStart, hs.stackEnd]
    simp only [offset, PROCESS_STACK_BASE, PROCESS_STACK_SIZE, PAGE_SIZE, STACK_PAGE, STACK_PAGES, wordSize] at *
    omega
  obtain ⟨P', hstore⟩ := storeMappedBytes_ok hmap₃ hp hrange
  have hkfree := kfree_ok (k := { k₃ with pages := P' }) (a := argdata) hfree
  apply Exists.intro
  apply Exists.intro
  unfold execProgram
  simp only [argdataSize_eq hsize]
  rw [run_bind hbuild, run_get, run_bind (onPages_ok (k := { k with heap := h₂ }) hexec)]
  show (do
    let k ← get
    storeMappedBytes p (PROCESS_STACK_BASE + wordSize - marshalledSize args)
      (loadBytes k.heap.bytes argdata (marshalledSize args)) 0
    kfree argdata
    return (0, initRegs ((PROCESS_STACK_BASE + wordSize - marshalledSize args) % wordSize) PROCESS_TEXT_BASE) :
      K (ℤ × Regs)) k₃ = _
  rw [run_get, run_bind hstore, run_bind hkfree]
  rfl

/-- The call succeeds when the path leads to a file and the heap has room for the buffer. -/
theorem syscallExecve_ok {filename argv entry : ℕ} {path : List UInt8} {h₁ : Heap} (r : Regs) (h : Mapped m k)
    (hp : k.sched.Live p) (hname : filename < wordSize) (hargv : argv < wordSize) (hstr : StringAt k p filename)
    (hpath : StringIs k p filename path) (harr : argv = 0 ∨ ArgvAt k p argv) (hargs : ArgsOf k p argv args)
    (hentry : getDirectoryEntry m.filesystem path = .ok (.ok entry)) (hdir : entryType m.filesystem entry ≠ TYPE_DIR)
    (hfit : marshalledSize args ≤ PROCESS_STACK_SIZE) (hH : Holds kernelRegion k.heap T)
    (halloc : buddyAlloc .kernel k.heap (marshalledSize args) = .ok (argdata, h₁)) :
    ∃ r' k', syscallExecve m.filesystem p filename argv r k = .ok (0, r') k' := by
  obtain ⟨forked, asp, hsafe⟩ := id h
  obtain ⟨args', L, hargs', hreach⟩ := execve_reaches (hsafe.sound hp) hname hargv hstr hpath harr hentry hdir r
  obtain rfl := hargs.unique hargs'
  obtain ⟨r', k', hok⟩ := execProgram_ok (k := k.touching L) ⟨forked, asp, hsafe⟩ hp hentry hfit hH halloc
  exact ⟨r', k', hreach.trans hok⟩

end Success

/-- **`execve`** installs the program and the arguments that the caller passed, and it succeeds if the path leads to
a file and the heap has room for the arguments. -/
theorem execve_installs (filename argv : ℕ) (r : Regs) (h : Mapped m k) (hp : k.sched.Live p)
    (hname : filename < wordSize) (hargv : argv < wordSize) (hargs : ArgsOf k p argv args)
    (hfit : marshalledSize args ≤ PROCESS_STACK_SIZE) :
    (∀ r' k', syscallExecve m.filesystem p filename argv r k = .ok (0, r') k' →
      ∃ path entry, StringIs k p filename path ∧ getDirectoryEntry m.filesystem path = .ok (.ok entry) ∧
        entryType m.filesystem entry ≠ TYPE_DIR ∧ Installed m.filesystem entry p args r' k k') ∧
    ∀ T path entry argdata heap, StringAt k p filename → StringIs k p filename path →
      (argv = 0 ∨ ArgvAt k p argv) → getDirectoryEntry m.filesystem path = .ok (.ok entry) →
      entryType m.filesystem entry ≠ TYPE_DIR → Holds (τ := Use) kernelRegion k.heap T →
      buddyAlloc .kernel k.heap (marshalledSize args) = .ok (argdata, heap) →
        ∃ r' k', syscallExecve m.filesystem p filename argv r k = .ok (0, r') k' := by
  constructor
  · intro r' k' hok
    exact syscallExecve_inv h hp hname hargv hargs hfit hok
  · intro T path entry argdata heap hstr hpath harr hentry hdir hH halloc
    exact syscallExecve_ok r h hp hname hargv hstr hpath harr hargs hentry hdir hfit hH halloc


/-! ### A machine with one file -/

/-- An image with the file `a` of three bytes: the root directory is at 2048, its entry at 2052. -/
def oneFileImage : Memory := fun x =>
  if x = 9 then 8 else if x = 2048 then 1 else if x = 2052 then 3 else if x = 2056 then 2 else if x = 2061 then 16
  else if x = 2072 then char 'a'
  else if x = 4096 then 1 else if x = 4097 then 2 else if x = 4098 then 3 else 0

theorem lookup_oneFile (name : List UInt8) :
    lookup oneFileImage 2048 name = .ok (if [char 'a'] = name then some 2052 else none) := by
  have hname : cstring oneFileImage (entryName (dirEntryAt 2048 0)) = .ok [char 'a'] := by decide +kernel
  show lookupLoop oneFileImage 2048 name 1 0 = _
  unfold lookupLoop
  rw [hname]
  show (if [char 'a'] = name then _ else _ : Except Fault (Option ℕ)) = _
  split_ifs
  · rfl
  · rfl

def Machine.oneFile : Machine where
  codeStart := MB
  codeEnd := MB + PAGE_SIZE
  filesystem := oneFileImage
  imageSize := 8192
  start_aligned := onePage_start_aligned
  end_aligned := onePage_end_aligned
  start_le := onePage_start_le
  code_le := onePage_code_le
  end_le := onePage_end_le
  image_lt := by decide
  fits := by
    intro path entry h
    unfold getDirectoryEntry at h
    rw [show entryLocation oneFileImage 0 = 2048 by decide] at h
    cases hc : components path with
    | nil =>
      rw [hc] at h
      cases h
      decide
    | cons c cs =>
      rw [hc] at h
      unfold walk at h
      rw [lookup_oneFile] at h
      by_cases hname : [char 'a'] = c
      · rw [if_pos hname] at h
        replace h : (if cs ≠ [] ∨ (decide (path.getLast? = some (char '/'))) then (return .error (-ENOENT))
          else (return .ok 2052) : Except Fault (Except ℤ ℕ)) = .ok (.ok entry) := h
        split_ifs at h
        · cases h
        · cases h
          decide
      · rw [if_neg hname] at h
        cases h

/-- The path `a` leads to the file. -/
theorem oneFile_found : getDirectoryEntry Machine.oneFile.filesystem [char 'a'] = .ok (.ok 2052) ∧
    entryType Machine.oneFile.filesystem 2052 ≠ TYPE_DIR := ⟨by decide +kernel, by decide⟩

/-- The strings `a` and `bc`, and behind them an array with pointers to both. -/
def argsStack : List UInt8 :=
  [char 'a', 0, char 'b', char 'c', 0, 0, 0, 0] ++ (wordBytes STACK_LOW ++ (wordBytes (STACK_LOW + 2) ++ wordBytes 0))

set_option maxRecDepth 10000 in
theorem allocs_args : (allocs (startSizes ++ [21]) bootHeap).isOk = true := by decide +kernel

/-- The first process has written them to its stack, and the heap has room for the argument block. -/
theorem run_args :
    ∃ n B k, Run Machine.oneFile (fun n k i => i.Fair n k ∧ i.Modest) n B k ∧ Mapped Machine.oneFile k ∧ k.sched.Live 1 ∧
      OnStack k STACK_LOW argsStack ∧ (∃ T, Holds (τ := Use) kernelRegion k.heap T) ∧
      ∃ a heap, buddyAlloc .kernel k.heap (marshalledSize [[char 'a'], [char 'b', char 'c']]) = .ok (a, heap) := by
  obtain ⟨n, B, k, h, hmap, hs, -, hserves, -, hon⟩ := run_written Machine.oneFile 0 argsStack (by decide)
  obtain ⟨-, -, C, hwhole, -⟩ := h.standing fun _ _ _ hP => hP.1
  obtain ⟨T, hstored⟩ := hwhole.tidy.stored
  refine ⟨n, B, k, h, hmap, ?_, hon, ⟨T, hstored.holds⟩, alloc_of_serves allocs_args hserves⟩
  rw [hs]
  exact ⟨rfl, rfl⟩

/-- The array passes both strings. -/
theorem args_array (h : OnStack k STACK_LOW argsStack) :
    ArgvAt k 1 (STACK_LOW + 8) ∧ ArgsOf k 1 (STACK_LOW + 8) [[char 'a'], [char 'b', char 'c']] := by
  have hfirst := h.string 0 [char 'a'] (by decide) (by decide) (by decide)
  have hsecond := h.string 2 [char 'b', char 'c'] (by decide) (by decide) (by decide)
  have hword₀ : userWord k 1 (offset (STACK_LOW + 8) 0) = STACK_LOW := h.word (w := STACK_LOW) (by decide) (by decide)
  have hword₁ : userWord k 1 (offset (STACK_LOW + 8) 4) = STACK_LOW + 2 :=
    h.word (w := STACK_LOW + 2) (by decide) (by decide)
  have hword₂ : userWord k 1 (offset (STACK_LOW + 8) 8) = 0 := h.word (w := 0) (by decide) (by decide)
  constructor
  · refine ⟨2, h.region (by decide), hword₂, fun i hi => ?_⟩
    obtain rfl | rfl : i = 0 ∨ i = 1 := by omega
    · rw [Nat.mul_zero, hword₀]
      exact ⟨by decide, hfirst.1⟩
    · rw [Nat.mul_one, hword₁]
      exact ⟨by decide, hsecond.1⟩
  · unfold ArgsOf
    rw [if_neg (by decide)]
    refine ⟨fun i hi => ?_, hword₂⟩
    have hi' : i < 2 := hi
    obtain rfl | rfl : i = 0 ∨ i = 1 := by omega
    · rw [Nat.mul_zero, hword₀]
      exact ⟨by decide, hfirst.2⟩
    · rw [Nat.mul_one, hword₁]
      exact ⟨by decide, hsecond.2⟩

/-- The first process executes the file `a` with the arguments `a` and `bc`. -/
theorem execve_installs_args :
    ∃ n B k r k', Run Machine.oneFile (fun n k i => i.Fair n k ∧ i.Modest) n B k ∧
      syscallExecve Machine.oneFile.filesystem 1 STACK_LOW (STACK_LOW + 8) Regs.zero k = .ok (0, r) k' ∧
      ∃ path entry, StringIs k 1 STACK_LOW path ∧
        getDirectoryEntry Machine.oneFile.filesystem path = .ok (.ok entry) ∧
        entryType Machine.oneFile.filesystem entry ≠ TYPE_DIR ∧
        Installed Machine.oneFile.filesystem entry 1 [[char 'a'], [char 'b', char 'c']] r k k' := by
  obtain ⟨n, B, k, h, hmap, hp, hon, ⟨T, hH⟩, a, heap, halloc⟩ := run_args
  obtain ⟨hentry, hdir⟩ := oneFile_found
  obtain ⟨harr, hargs⟩ := args_array hon
  obtain ⟨hstr, hpath⟩ := hon.string 0 [char 'a'] (by decide) (by decide) (by decide)
  obtain ⟨hinst, hok⟩ := execve_installs STACK_LOW (STACK_LOW + 8) Regs.zero hmap hp (by decide) (by decide) hargs
    (by decide)
  obtain ⟨r, k', hok⟩ := hok _ [char 'a'] 2052 a heap hstr hpath (Or.inr harr) hentry hdir hH halloc
  exact ⟨n, B, k, r, k', h, hok, hinst r k' hok⟩

end AdelaideOS.Kernel
