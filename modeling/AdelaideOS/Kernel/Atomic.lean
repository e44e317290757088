import AdelaideOS.Kernel.Execve
import AdelaideOS.Kernel.Answers

/-!
# `execve` as a whole

`execve` checks its pointers, the path and the type of the entry before it touches anything.  It does not check the size
of the arguments: text and data are gone, and the new program is loaded, when the arguments are copied to the stack.

* **`refused_nothing`** — a refused call changes nothing;
* **`execProgram_fits`** — any other call returns only if the arguments fit on the stack;
* **`execve_atomic_iff`** — when the call has the effect of a whole.
-/

namespace AdelaideOS.Kernel

open AdelaideOS.Buddy AdelaideOS.Lib.Bytes AdelaideOS.Lib.Triple AdelaideOS.Lib.View AdelaideOS.Page AdelaideOS.Process

variable {m : Machine} {k k' : State} {p a filename argv entry : ℕ} {args : List (List UInt8)} {r r' : Regs}
  {path : List UInt8}

/-! ### Refusals -/

/-- A bad file name. -/
theorem refuses_name (hs : Sound k p) (hname : filename < wordSize) (hstr : ¬ StringAt k p filename) (r : Regs) :
    ∃ L, syscallExecve m.filesystem p filename argv r k = .ok (-EFAULT, r) (k.touching L) := by
  obtain ⟨b, k₁, hok, hl, hb⟩ := validString_ok hs hname
  obtain ⟨L, rfl⟩ := hl.touching
  refine ⟨L, ?_⟩
  unfold syscallExecve
  rw [run_bind hok, if_neg fun h => hstr (hb.mp h)]
  rfl

/-- A bad pointer in `argv`. -/
theorem refuses_argv (hs : Sound k p) (hname : filename < wordSize) (hargv : argv < wordSize) (hstr : StringAt k p filename)
    (harr : ¬ (argv = 0 ∨ ArgvAt k p argv)) (r : Regs) :
    ∃ L, syscallExecve m.filesystem p filename argv r k = .ok (-EFAULT, r) (k.touching L) := by
  obtain ⟨b, k₁, hok, hl, hb⟩ := validString_ok hs hname
  obtain ⟨b', k₂, hok', hl', hb'⟩ := validArgv_ok (hl.sound hs) hargv
  rw [hl.space] at hl'
  obtain ⟨L, rfl⟩ := (hl.trans hl').touching
  refine ⟨L, ?_⟩
  unfold syscallExecve
  rw [run_bind hok, if_pos (hb.mpr hstr), run_bind hok', if_neg fun h => harr (by rw [← hl.argvAt]; exact hb'.mp h)]
  rfl

/-! ### The buffer and the stack -/

theorem storeBlock_fits_of {block size off : ℕ} {bs : List UInt8} {u : Unit} (h : storeBlock block size off bs k = .ok u k') :
    off + bs.length ≤ size := by
  unfold storeBlock at h
  by_contra hno
  rw [if_neg hno] at h
  cases h

/-- The loop that fills the buffer does not leave it only if the positions do not go below zero. -/
theorem packArgs_fits {argdata size argno pos : ℕ} {u : Unit} (hpos : pos ≤ size) (hsize : size < wordSize)
    (h : packArgs argdata size args argno pos k = .ok u k') :
    roomFor args ≤ pos ∧ (args ≠ [] → 8 + 4 * (argno + args.length) ≤ size) := by
  induction args generalizing k argno pos with
  | nil => exact ⟨Nat.zero_le _, fun hne => absurd rfl hne⟩
  | cons arg args ih =>
    unfold packArgs at h
    obtain ⟨_, k₁, h₁, h⟩ := bind_ok h
    obtain ⟨_, k₂, h₂, h⟩ := bind_ok h
    have hstring := storeBlock_fits_of h₁
    have hpointer := storeBlock_fits_of h₂
    rw [List.length_append, List.length_singleton] at hstring
    simp only [wordBytes, List.length_cons, List.length_nil] at hpointer
    have hroom : arg.length + 1 ≤ pos := by
      simp only [wordSize] at *
      omega
    have hmod : (pos + wordSize - (arg.length + 1)) % wordSize = pos - (arg.length + 1) := by
      simp only [wordSize] at *
      omega
    rw [hmod] at h
    obtain ⟨hrest, hmore⟩ := ih (by omega) h
    rw [roomFor_cons, List.length_cons]
    refine ⟨by omega, fun _ => ?_⟩
    by_cases hnil : args = []
    · rw [hnil, List.length_nil]
      omega
    · have := hmore hnil
      omega

/-- **The buffer** is allocated, and its size does not wrap around. -/
theorem buildArgs_fits {argdata : ℕ} (h : buildArgs args k = .ok argdata k') :
    argdataSize args = marshalledSize args ∧ ∃ heap, buddyAlloc .kernel k.heap (marshalledSize args) = .ok (argdata, heap) := by
  have hsize : argdataSize args < wordSize := Nat.mod_lt _ (by decide)
  unfold buildArgs at h
  obtain ⟨a, k₁, halloc, h⟩ := bind_ok h
  obtain ⟨_, k₂, hpack, h⟩ := bind_ok h
  obtain ⟨_, k₃, hargc, h⟩ := bind_ok h
  obtain ⟨_, k₄, hargv, hpure⟩ := bind_ok h
  cases hpure
  obtain ⟨hroom, hmore⟩ := packArgs_fits (Nat.le_refl _) hsize hpack
  have hwords := storeBlock_fits_of hargv
  simp only [wordBytes, List.length_cons, List.length_nil] at hwords
  have hcount : 8 + 4 * args.length ≤ argdataSize args := by
    by_cases hnil : args = []
    · rw [hnil] at hwords ⊢
      exact hwords
    · have := hmore hnil
      omega
  have hmod : argdataSize args = marshalledSize args % wordSize := by
    unfold argdataSize marshalledSize
    rw [Nat.mul_comm args.length 4]
    rfl
  have heq : argdataSize args = marshalledSize args := by
    have hsum : marshalledSize args = roomFor args + 4 * args.length + 8 := rfl
    simp only [wordSize] at *
    omega
  refine ⟨heq, ?_⟩
  rw [heq] at halloc
  unfold kmalloc onHeap at halloc
  dsimp only at halloc
  cases hb : buddyAlloc .kernel k.heap (marshalledSize args) with
  | error e =>
    rw [hb] at halloc
    cases halloc
  | ok x =>
    rw [hb] at halloc
    cases halloc
    exact ⟨_, rfl⟩

/-- What is stored without a fault lies in the ranges. -/
theorem storeMappedBytes_range {bs : List UInt8} {i : ℕ} {u : Unit} (h : Mapped m k) (hp : k.sched.Live p)
    (hok : storeMappedBytes p a bs i k = .ok u k') : ∀ j < bs.length, (k.space p).InRange (offset a (i + j)) := by
  induction bs generalizing k i with
  | nil => exact fun j hj => absurd hj (Nat.not_lt_zero j)
  | cons b bs ih =>
    obtain ⟨_, k₁, h₁, hrest⟩ := bind_ok hok
    obtain ⟨hmap, hsched, -⟩ := h.seesStored hp (offset_lt a i) h₁
    obtain ⟨forked, asp, hsafe⟩ := id h
    have hphys : (∃ x, physical k p (offset a i) = .ok x) ∧ k₁.space = k.space := by
      unfold storeMapped at h₁
      cases hx : physical k p (offset a i) with
      | error e =>
        rw [hx] at h₁
        cases h₁
      | ok x =>
        rw [hx] at h₁
        cases h₁
        exact ⟨⟨x, rfl⟩, rfl⟩
    intro j hj
    cases j with
    | zero => exact ((hsafe.sound hp).mapped _ (offset_lt a i)).mpr hphys.1
    | succ j =>
      have := ih hmap (by rw [hsched]; exact hp) hrest j (by simpa using hj)
      rw [hphys.2] at this
      rwa [show i + (j + 1) = i + 1 + j by omega]

theorem storeMappedBytes_space {bs : List UInt8} {i : ℕ} {e : Fault} (h : storeMappedBytes p a bs i k = .error e k') :
    k'.space = k.space := by
  induction bs generalizing k k' i with
  | nil => cases h
  | cons b bs ih =>
    unfold storeMappedBytes at h
    cases hx : physical k p (offset a i) with
    | error f =>
      have hstore : storeMapped p (offset a i) b k = .error f k := by
        unfold storeMapped
        rw [hx]
      rw [run_bind_error hstore] at h
      cases h
      rfl
    | ok x =>
      have hstore : storeMapped p (offset a i) b k = .ok () (k.storeAt x b) := by
        unfold storeMapped
        rw [hx]
      rw [run_bind hstore] at h
      exact (ih h).trans rfl

/-! ### Loading -/

/-- The memory below the stack is in no range of a process that has just got its program. -/
theorem below_stack {asp : ℕ → Aspace} {forked : ℕ → Bool} (h : Safe m forked k.sched k.pages k.space asp)
    (hp : k.sched.Live p) (hentry : getDirectoryEntry m.filesystem path = .ok (.ok entry)) :
    ¬ (execSpace m.filesystem entry (k.space p)).InRange (PROCESS_STACK_BASE - PROCESS_STACK_SIZE - 1) := by
  obtain ⟨t, d, hs⟩ := h.shaped p hp
  have hmax := programPages_le m hentry
  have hstart : (execSpace m.filesystem entry (k.space p)).stackStart = PROCESS_STACK_BASE - PROCESS_STACK_SIZE := hs.stackStart
  have hend : (execSpace m.filesystem entry (k.space p)).textEnd =
      PROCESS_TEXT_BASE + programPages m.filesystem entry * PAGE_SIZE := rfl
  unfold Space.InRange
  rintro (⟨-, htext⟩ | ⟨hlow, hhigh⟩ | ⟨hlow, -⟩)
  · rw [hend] at htext
    simp only [PROCESS_TEXT_BASE, PROCESS_STACK_BASE, PROCESS_STACK_SIZE, PAGE_SIZE, MAX_TEXT] at *
    omega
  · exact absurd (hlow.trans_lt hhigh) (lt_irrefl _)
  · rw [hstart] at hlow
    exact absurd hlow (by decide)

/-- The state in which the arguments are copied to the stack. -/
theorem execProgram_loads {forked : ℕ → Bool} {asp : ℕ → Aspace} (h : Safe m forked k.sched k.pages k.space asp)
    (hp : k.sched.Live p) (hentry : getDirectoryEntry m.filesystem path = .ok (.ok entry)) {argdata : ℕ} {heap : Heap}
    (hbuild : buildArgs args k = .ok argdata { k with heap := heap }) :
    ∃ P, Mapped m { k with
        heap := heap
        pages := P
        space := Function.update k.space p (execSpace m.filesystem entry (k.space p)) } ∧
      execProgram m.filesystem p entry args k = (do
        storeMappedBytes p (PROCESS_STACK_BASE + wordSize - argdataSize args)
          (loadBytes heap.bytes argdata (argdataSize args)) 0
        kfree argdata
        return (0, initRegs ((PROCESS_STACK_BASE + wordSize - argdataSize args) % wordSize) PROCESS_TEXT_BASE) :
          K (ℤ × Regs)) { k with
        heap := heap
        pages := P
        space := Function.update k.space p (execSpace m.filesystem entry (k.space p)) } := by
  obtain ⟨t, d, hs⟩ := h.shaped p hp
  obtain ⟨P, A, hexec, -⟩ := execPages_spec (h.owns hp) hs (programPages_le m hentry) h.room
  obtain ⟨asp', hsafe'⟩ := h.exec hp hentry hexec
  refine ⟨P, ⟨forked, asp', hsafe'⟩, ?_⟩
  unfold execProgram
  rw [run_bind hbuild, run_get, run_bind (onPages_ok (k := { k with heap := heap }) hexec)]
  rfl

/-- **Too large arguments.**  The new program has been loaded when the copy faults. -/
theorem execProgram_large {argdata : ℕ} {heap : Heap} (h : Mapped m k) (hp : k.sched.Live p)
    (hentry : getDirectoryEntry m.filesystem path = .ok (.ok entry))
    (hbuild : buildArgs args k = .ok argdata { k with heap := heap }) (hlarge : PROCESS_STACK_SIZE < argdataSize args) :
    ∃ e k', execProgram m.filesystem p entry args k = .error e k' ∧
      k'.space = Function.update k.space p (execSpace m.filesystem entry (k.space p)) := by
  have hlt : argdataSize args < wordSize := Nat.mod_lt _ (by decide)
  obtain ⟨forked, asp, hsafe⟩ := id h
  obtain ⟨P, hmap, heq⟩ := execProgram_loads hsafe hp hentry hbuild
  rw [heq]
  cases hstore : storeMappedBytes p (PROCESS_STACK_BASE + wordSize - argdataSize args)
      (loadBytes heap.bytes argdata (argdataSize args)) 0 { k with
        heap := heap
        pages := P
        space := Function.update k.space p (execSpace m.filesystem entry (k.space p)) } with
  | error e k' => exact ⟨e, k', run_bind_error hstore, storeMappedBytes_space hstore⟩
  | ok u k' =>
    -- the block reaches below the stack
    exfalso
    have hrange := storeMappedBytes_range hmap hp hstore (argdataSize args - PROCESS_STACK_SIZE - 1) (by
      rw [loadBytes_length]
      simp only [PROCESS_STACK_SIZE] at *
      omega)
    have haddr : offset (PROCESS_STACK_BASE + wordSize - argdataSize args) (0 + (argdataSize args - PROCESS_STACK_SIZE - 1)) =
        PROCESS_STACK_BASE - PROCESS_STACK_SIZE - 1 := by
      simp only [offset, PROCESS_STACK_BASE, PROCESS_STACK_SIZE, wordSize] at *
      omega
    have hspace : Function.update k.space p (execSpace m.filesystem entry (k.space p)) p =
        execSpace m.filesystem entry (k.space p) := Function.update_self ..
    rw [haddr] at hrange
    exact below_stack hsafe hp hentry (hspace ▸ hrange)

/-- **Loading the program** returns only if the arguments fit on the stack. -/
theorem execProgram_fits {x : ℤ × Regs} (h : Mapped m k) (hp : k.sched.Live p)
    (hentry : getDirectoryEntry m.filesystem path = .ok (.ok entry))
    (hok : execProgram m.filesystem p entry args k = .ok x k') :
    marshalledSize args ≤ PROCESS_STACK_SIZE ∧
      ∃ argdata heap, buddyAlloc .kernel k.heap (marshalledSize args) = .ok (argdata, heap) := by
  obtain ⟨argdata, k₁, hbuild, -⟩ := bind_ok hok
  obtain ⟨hsize, heap, halloc⟩ := buildArgs_fits hbuild
  refine ⟨?_, argdata, heap, halloc⟩
  have hlt : argdataSize args < wordSize := Nat.mod_lt _ (by decide)
  obtain ⟨⟨heap', rfl⟩, -⟩ := buildArgs_inv (hsize ▸ hlt) hbuild
  by_contra hlarge
  obtain ⟨e, k₂, herr, -⟩ := execProgram_large h hp hentry hbuild (by omega)
  rw [hok] at herr
  cases herr

/-! ### All or nothing -/

/-- The call returns an error and nothing has changed, or it has installed a program and all the arguments. -/
def AllOrNothing (fs : Memory) (p argv : ℕ) (r : Regs) (k : State) : EStateM.Result Fault State (ℤ × Regs) → Prop
  | .ok (res, r') k' => res < 0 ∧ r' = r ∧ k'.unlogged = k.unlogged ∨
    res = 0 ∧ ∃ entry args, ArgsOf k p argv args ∧ Installed fs entry p args r' k k'
  | .error _ _ => False

/-- The pointers are bad, or the path leads to no file. -/
def Refused (fs : Memory) (k : State) (p filename argv : ℕ) : Prop :=
  ¬ StringAt k p filename ∨ ¬ (argv = 0 ∨ ArgvAt k p argv) ∨
    ∃ path found, StringIs k p filename path ∧ getDirectoryEntry fs path = .ok found ∧
      ∀ entry, found = .ok entry → entryType fs entry = TYPE_DIR

/-- The path leads to an entry, the arguments fit on the stack, and the heap has room for them. -/
def FitsStack (fs : Memory) (k : State) (p filename argv : ℕ) : Prop :=
  ∃ path entry args, StringIs k p filename path ∧ getDirectoryEntry fs path = .ok (.ok entry) ∧ ArgsOf k p argv args ∧
    marshalledSize args ≤ PROCESS_STACK_SIZE ∧
    ∃ argdata heap, buddyAlloc .kernel k.heap (marshalledSize args) = .ok (argdata, heap)

variable {T : Table Use}

/-- A refused call. -/
theorem refused_nothing (h : Mapped m k) (hp : k.sched.Live p) (hname : filename < wordSize) (hargv : argv < wordSize)
    (href : Refused m.filesystem k p filename argv) (r : Regs) :
    AllOrNothing m.filesystem p argv r k (syscallExecve m.filesystem p filename argv r k) := by
  obtain ⟨forked, asp, hsafe⟩ := h
  have hs := hsafe.sound hp
  have hnothing : ∀ {e : ℤ} {L : List ℕ}, e < 0 → syscallExecve m.filesystem p filename argv r k = .ok (e, r) (k.touching L) →
      AllOrNothing m.filesystem p argv r k (syscallExecve m.filesystem p filename argv r k) := by
    intro e L he hok
    rw [hok]
    exact Or.inl ⟨he, rfl, rfl⟩
  by_cases hstr : StringAt k p filename
  · by_cases harr : argv = 0 ∨ ArgvAt k p argv
    · obtain ⟨path, L, hpath, -, hlook⟩ := execve_looks (m := m) hs hname hargv hstr harr r
      rcases href with hno | hno | ⟨text, found, htext, hfound, hdir⟩
      · exact absurd hstr hno
      · exact absurd harr hno
      · obtain rfl : path = text := hpath.unique htext
        have hlift : lift (getDirectoryEntry m.filesystem path) (k.touching L) = .ok found (k.touching L) := by
          unfold lift
          rw [hfound]
        rw [run_bind hlift] at hlook
        cases found with
        | error e =>
          have he : e = -ENOENT := walk_enoent hfound
          exact hnothing (by rw [he]; decide) hlook
        | ok entry =>
          have hfile : execFound m.filesystem p argv r (.ok entry) = (return (-EISDIR, r)) := if_pos (hdir entry rfl)
          rw [hfile] at hlook
          exact hnothing (by decide) hlook
    · obtain ⟨L, hok⟩ := refuses_argv (m := m) hs hname hargv hstr harr r
      exact hnothing (by decide) hok
  · obtain ⟨L, hok⟩ : ∃ L, syscallExecve m.filesystem p filename argv r k = .ok (-EFAULT, r) (k.touching L) :=
      refuses_name hs hname hstr r
    exact hnothing (by decide) hok

/-- **All or nothing**, if and only if the call is refused or the arguments fit. -/
theorem execve_atomic_iff (filename argv : ℕ) (r : Regs) (h : Mapped m k) (hp : k.sched.Live p)
    (hH : Holds kernelRegion k.heap T) (hname : filename < wordSize) (hargv : argv < wordSize) :
    AllOrNothing m.filesystem p argv r k (syscallExecve m.filesystem p filename argv r k) ↔
      Refused m.filesystem k p filename argv ∨ FitsStack m.filesystem k p filename argv := by
  have hs : Sound k p := by
    obtain ⟨forked, asp, hsafe⟩ := id h
    exact hsafe.sound hp
  constructor
  · intro hall
    by_contra hno
    obtain ⟨href, hfits⟩ := not_or.mp hno
    unfold Refused at href
    obtain ⟨hstr, href⟩ := not_or.mp href
    obtain ⟨harr, hfile⟩ := not_or.mp href
    rw [not_not] at hstr harr
    obtain ⟨path, L, hpath, -, hlook⟩ := execve_looks (m := m) hs hname hargv hstr harr r
    cases hfound : getDirectoryEntry m.filesystem path with
    | error e =>
      have hlift : lift (getDirectoryEntry m.filesystem path) (k.touching L) = .error e (k.touching L) := by
        unfold lift
        rw [hfound]
      rw [hlook, run_bind_error hlift] at hall
      exact hall
    | ok found =>
      have hentry : ∃ entry, found = .ok entry ∧ entryType m.filesystem entry ≠ TYPE_DIR := by
        by_contra hdir
        refine hfile ⟨path, found, hpath, hfound, fun entry he => ?_⟩
        by_contra hne
        exact hdir ⟨entry, he, hne⟩
      obtain ⟨entry, rfl, hdir⟩ := hentry
      obtain ⟨args, L', hargs, hreach⟩ := execve_reaches hs hname hargv hstr hpath harr hfound hdir r
      rw [hreach] at hall
      cases hok : execProgram m.filesystem p entry args (k.touching L') with
      | error e k' =>
        rw [hok] at hall
        exact hall
      | ok x k' =>
        obtain ⟨forked, asp, hsafe⟩ := id h
        have hmap : Mapped m (k.touching L') := ⟨forked, asp, hsafe⟩
        obtain ⟨hfit, halloc⟩ := execProgram_fits hmap hp hfound hok
        exact hfits ⟨path, entry, args, hpath, hfound, hargs, hfit, halloc⟩
  · intro hcase
    by_cases href : Refused m.filesystem k p filename argv
    · exact refused_nothing h hp hname hargv href r
    · obtain ⟨path, entry, args, hpath, hentry, hargs, hfit, argdata, heap, halloc⟩ := hcase.resolve_left href
      unfold Refused at href
      obtain ⟨hstr, href⟩ := not_or.mp href
      obtain ⟨harr, hfile⟩ := not_or.mp href
      rw [not_not] at hstr harr
      have hdir : entryType m.filesystem entry ≠ TYPE_DIR := by
        intro hdir
        refine hfile ⟨path, .ok entry, hpath, hentry, fun entry' he => ?_⟩
        cases he
        exact hdir
      obtain ⟨r', k', hok⟩ := syscallExecve_ok r h hp hname hargv hstr hpath harr hargs hentry hdir hfit hH halloc
      obtain ⟨-, entry', -, -, -, hinst⟩ := syscallExecve_inv h hp hname hargv hargs hfit hok
      rw [hok]
      exact Or.inr ⟨rfl, entry', args, hargs, hinst⟩

/-- The first process executes the file `a` with two arguments. -/
theorem execve_atomic_file : ∃ n B k, Run Machine.oneFile (fun n k i => i.Fair n k ∧ i.Modest) n B k ∧
    AllOrNothing Machine.oneFile.filesystem 1 (STACK_LOW + 8) Regs.zero k
      (syscallExecve Machine.oneFile.filesystem 1 STACK_LOW (STACK_LOW + 8) Regs.zero k) := by
  obtain ⟨n, B, k, h, hmap, hp, hon, ⟨T, hH⟩, halloc⟩ := run_args
  obtain ⟨-, hpath⟩ := hon.string 0 [char 'a'] (by decide) (by decide) (by decide)
  exact ⟨n, B, k, h, (execve_atomic_iff STACK_LOW (STACK_LOW + 8) Regs.zero hmap hp hH (by decide) (by decide)).mpr
    (Or.inr ⟨[char 'a'], 2052, _, hpath, oneFile_found.1, (args_array hon).2, by decide, halloc⟩)⟩

/-! ### Half of a call -/

/-- The length of a string that fits on the stack, but not twice. -/
def LONG : ℕ := 40000

/-- A string and, behind it, an array with two pointers to it. -/
def longStack : List UInt8 :=
  List.replicate LONG (char 'a') ++ ([0] ++ (wordBytes STACK_LOW ++ (wordBytes STACK_LOW ++ wordBytes 0)))

theorem longStack_length : longStack.length = LONG + 13 := by
  unfold longStack
  rw [List.length_append, List.length_replicate]
  rfl

theorem longStack_string {i : ℕ} (hi : i < LONG) : longStack.getD i 0 = char 'a' := by
  unfold longStack
  rw [List.getD_eq_getElem?_getD, List.getElem?_append_left (by rw [List.length_replicate]; exact hi),
    List.getElem?_replicate_of_lt hi]
  rfl

theorem longStack_rest (i : ℕ) :
    longStack.getD (LONG + i) 0 = ([0] ++ (wordBytes STACK_LOW ++ (wordBytes STACK_LOW ++ wordBytes 0))).getD i 0 := by
  unfold longStack
  rw [List.getD_eq_getElem?_getD, List.getElem?_append_right (by rw [List.length_replicate]; omega), List.length_replicate,
    Nat.add_sub_cancel_left, List.getD_eq_getElem?_getD]

set_option maxRecDepth 10000 in
theorem allocs_long : (allocs (startSizes ++ [80018]) bootHeap).isOk = true := by decide +kernel

/-- **The first process writes it.** -/
theorem run_long : ∃ n B k, Run Machine.oneFile (fun n k i => i.Fair n k ∧ i.Modest) n B k ∧ Mapped Machine.oneFile k ∧
    k.sched.Live 1 ∧ (∃ T, Holds (τ := Use) kernelRegion k.heap T) ∧
    (∃ a heap, buddyAlloc .kernel k.heap 80018 = .ok (a, heap)) ∧ (k.space 1).textEnd = PROCESS_TEXT_BASE ∧
    OnStack k STACK_LOW longStack := by
  obtain ⟨n, B, k, h, hmap, hs, -, hserves, htext, hon⟩ := run_written Machine.oneFile 0 longStack (by
    rw [longStack_length]
    decide)
  obtain ⟨-, -, C, hwhole, -⟩ := h.standing fun _ _ _ hP => hP.1
  obtain ⟨T, hstored⟩ := hwhole.tidy.stored
  refine ⟨n, B, k, h, hmap, ?_, ⟨T, hstored.holds⟩, alloc_of_serves allocs_long hserves, htext, hon⟩
  rw [hs]
  exact ⟨rfl, rfl⟩

/-- The string, and its ends. -/
theorem long_string (h : OnStack k STACK_LOW longStack) {i : ℕ} (hi : i ≤ LONG) :
    StringAt k 1 (STACK_LOW + i) ∧ StringIs k 1 (STACK_LOW + i) (List.replicate (LONG - i) (char 'a')) := by
  refine h.string i _ ?_ ?_ fun j hj => ?_
  · intro hmem
    exact absurd (List.eq_of_mem_replicate hmem) (by decide)
  · rw [longStack_length, List.length_replicate]
    omega
  · rw [List.length_replicate] at hj
    by_cases heq : j = LONG - i
    · rw [heq, show i + (LONG - i) = LONG + 0 by omega, longStack_rest,
        List.getD_eq_default (List.replicate _ _) _ (by rw [List.length_replicate])]
      rfl
    · rw [longStack_string (by omega), List.getD_eq_getElem?_getD, List.getElem?_replicate_of_lt (by omega)]
      rfl

theorem long_word (h : OnStack k STACK_LOW longStack) {i : ℕ} (hi : i < 3) :
    userWord k 1 (offset (STACK_LOW + (LONG + 1)) (4 * i)) = if i < 2 then STACK_LOW else 0 := by
  have hword : ∀ w, (∀ j < 4, longStack.getD (LONG + (1 + 4 * i + j)) 0 = (wordBytes w).getD j 0) →
      userWord k 1 (offset (STACK_LOW + (LONG + 1)) (4 * i)) = w % wordSize := by
    intro w hw
    refine h.word (by rw [longStack_length]; omega) fun j hj => ?_
    rw [← hw j hj, Nat.add_assoc, Nat.add_assoc, Nat.add_assoc]
  simp only [longStack_rest] at hword
  obtain rfl | rfl | rfl : i = 0 ∨ i = 1 ∨ i = 2 := by omega
  · exact hword STACK_LOW (by decide)
  · exact hword STACK_LOW (by decide)
  · exact hword 0 (by decide)

/-- The array passes the string twice. -/
theorem long_array (h : OnStack k STACK_LOW longStack) : ArgvAt k 1 (STACK_LOW + (LONG + 1)) ∧
    ArgsOf k 1 (STACK_LOW + (LONG + 1)) [List.replicate LONG (char 'a'), List.replicate LONG (char 'a')] := by
  have hstring := long_string h (Nat.zero_le LONG)
  rw [Nat.add_zero, Nat.sub_zero] at hstring
  have hfirst : ∀ i < 2, userWord k 1 (offset (STACK_LOW + (LONG + 1)) (4 * i)) = STACK_LOW := fun i hi => by
    rw [long_word h (by omega), if_pos hi]
  constructor
  · refine ⟨2, h.region (by rw [longStack_length]), long_word h (by decide), fun i hi => ?_⟩
    rw [hfirst i hi]
    exact ⟨by decide, hstring.1⟩
  · unfold ArgsOf
    rw [if_neg (by decide)]
    refine ⟨fun i hi => ?_, long_word h (by decide)⟩
    have hi' : i < 2 := hi
    rw [hfirst i hi']
    refine ⟨by decide, ?_⟩
    obtain rfl | rfl : i = 0 ∨ i = 1 := by omega
    · exact hstring.2
    · exact hstring.2

/-- **Half of a call.**  The new program is loaded, and the kernel faults. -/
theorem execve_halfway : ∃ n B k e k', Run Machine.oneFile (fun n k i => i.Fair n k ∧ i.Modest) n B k ∧
    syscallExecve Machine.oneFile.filesystem 1 (STACK_LOW + 39999) (STACK_LOW + 40001) Regs.zero k = .error e k' ∧
    (k.space 1).textEnd = PROCESS_TEXT_BASE ∧ (k'.space 1).textEnd = PROCESS_TEXT_BASE + PAGE_SIZE ∧
    ¬ AllOrNothing Machine.oneFile.filesystem 1 (STACK_LOW + 40001) Regs.zero k
      (syscallExecve Machine.oneFile.filesystem 1 (STACK_LOW + 39999) (STACK_LOW + 40001) Regs.zero k) := by
  obtain ⟨n, B, k, h, hmap, hp, ⟨T, hH⟩, ⟨a, heap, halloc⟩, htext, hlong⟩ := run_long
  obtain ⟨forked, asp, hsafe⟩ := id hmap
  obtain ⟨hstr, hpath⟩ := long_string hlong (show LONG - 1 ≤ LONG by decide)
  obtain ⟨harr, hargs⟩ := long_array hlong
  obtain ⟨hentry, hdir⟩ := oneFile_found
  obtain ⟨args, L, hof, hreach⟩ := execve_reaches (hsafe.sound hp) (by decide) (by decide) hstr hpath (Or.inr harr) hentry
    hdir Regs.zero
  obtain rfl := hof.unique hargs
  have hsize : marshalledSize [List.replicate LONG (char 'a'), List.replicate LONG (char 'a')] = 80018 := by
    unfold marshalledSize
    rw [roomFor_cons, roomFor_cons, List.length_replicate]
    rfl
  obtain ⟨heap', -, hbuild, -⟩ := buildArgs_ok (k := k.touching L) hH (by rw [hsize]; decide) (by rw [hsize]; exact halloc)
  obtain ⟨e, k', herr, hspace⟩ := execProgram_large (k := k.touching L) ⟨forked, asp, hsafe⟩ hp hentry hbuild
    (by rw [argdataSize_eq (by rw [hsize]; decide), hsize]; decide)
  have hfault := hreach.trans herr
  refine ⟨n, B, k, e, k', h, hfault, htext, ?_, fun hall => ?_⟩
  · rw [hspace, Function.update_self]
    show PROCESS_TEXT_BASE + (pagesOf 0 (entrySize oneFileImage 2052)).length * PAGE_SIZE = _
    rw [show (pagesOf 0 (entrySize oneFileImage 2052)).length = 1 by decide +kernel, Nat.one_mul]
  · replace hfault : syscallExecve Machine.oneFile.filesystem 1 (STACK_LOW + 39999) (STACK_LOW + 40001) Regs.zero k =
      .error e k' := hfault
    rw [hfault] at hall
    exact hall

end AdelaideOS.Kernel
