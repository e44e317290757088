import AdelaideOS.Kernel.Runs

/-!
# When processes can be created

`start_process` succeeds when the kernel heap has room for its handles, `fork` whenever there is a free slot
and the descriptors of the parent are in order.  With these, runs that create processes exist.
-/

namespace AdelaideOS.Kernel

open AdelaideOS.Lib.Bytes AdelaideOS.Lib.Triple AdelaideOS.Page AdelaideOS.Process

variable {m : Machine} {forked : ℕ → Bool} {asp : ℕ → Aspace} {k k' : State} {p c : ℕ}

/-- Every open descriptor of `p` has a handle. -/
def Openable (k : State) (p : ℕ) : Prop := ∀ fd a, k.filedesc p fd = some a → ∃ fh, k.handles a = some fh

/-- `p` has the three standard descriptors, and no other. -/
def Standard (k : State) (p : ℕ) : Prop := ∀ fd, k.filedesc p fd = none ↔ 3 ≤ fd

/-! ### Starting -/

/-- `h'` is the heap after the five requests of a new process. -/
def Serves (h h' : Buddy.Heap) : Prop :=
  ∃ a₁ h₁ a₂ h₂ a₃ h₃ a₄ h₄ a₅,
    Buddy.buddyAlloc .kernel h 24 = .ok (a₁, h₁) ∧ Buddy.buddyAlloc .kernel h₁ BUFSIZE = .ok (a₂, h₂) ∧
    Buddy.buddyAlloc .kernel h₂ 36 = .ok (a₃, h₃) ∧ Buddy.buddyAlloc .kernel h₃ 36 = .ok (a₄, h₄) ∧
    Buddy.buddyAlloc .kernel h₄ 36 = .ok (a₅, h')

/-- The heap serves the five requests of a new process. -/
def Roomy (h : Buddy.Heap) : Prop :=
  ∃ a₁ h₁ a₂ h₂ a₃ h₃ a₄ h₄ a₅ h₅,
    Buddy.buddyAlloc .kernel h 24 = .ok (a₁, h₁) ∧ Buddy.buddyAlloc .kernel h₁ BUFSIZE = .ok (a₂, h₂) ∧
    Buddy.buddyAlloc .kernel h₂ 36 = .ok (a₃, h₃) ∧ Buddy.buddyAlloc .kernel h₃ 36 = .ok (a₄, h₄) ∧
    Buddy.buddyAlloc .kernel h₄ 36 = .ok (a₅, h₅)

theorem onPages_ok {α : Type} {f : Pages → Except Fault (α × Pages)} {a : α} {P' : Pages}
    (hok : f k.pages = .ok (a, P')) : onPages f k = .ok a { k with pages := P' } := by
  unfold onPages
  rw [hok]

theorem kmalloc_ok {n a : ℕ} {h : Buddy.Heap} (hok : Buddy.buddyAlloc .kernel k.heap n = .ok (a, h)) :
    kmalloc n k = .ok a { k with heap := h } := by
  unfold kmalloc onHeap
  simp only [hok]

/-- A new handle for a descriptor that was closed. -/
theorem openHandle_ok {a : ℕ} {h : Buddy.Heap} (type : FhType) (b fd : ℕ)
    (hok : Buddy.buddyAlloc .kernel k.heap 36 = .ok (a, h)) (hopen : Openable k p) :
    ∃ k', (newHandle type b 0 >>= fun fh => setFd p fd (some fh)) k = .ok () k' ∧
      (k'.sched, k'.pages, k'.space) = (k.sched, k.pages, k.space) ∧ k'.heap = h ∧
      k'.filedesc p = Function.update (k.filedesc p) fd (some a) ∧ Openable k' p := by
  have hnew : newHandle type b 0 k = .ok a
      { k with heap := h, handles := Function.update k.handles a (some ⟨type, 1, b, 0, 0, 0⟩) } := by
    unfold newHandle
    rw [run_bind (kmalloc_ok hok)]
    rfl
  refine ⟨_, run_bind hnew, rfl, rfl, Function.update_self _ _ _, ?_⟩
  · intro fd' a' ha'
    have hfd : Function.update k.filedesc p (Function.update (k.filedesc p) fd (some a)) p fd' =
        some a' := ha'
    rw [Function.update_self] at hfd
    show ∃ fh, Function.update k.handles a (some _) a' = some fh
    by_cases haa : a' = a
    · exact ⟨_, by rw [haa, Function.update_self]⟩
    · rw [Function.update_of_ne haa]
      by_cases hf : fd' = fd
      · rw [hf, Function.update_self] at hfd
        exact absurd (Option.some.inj hfd).symm haa
      · rw [Function.update_of_ne hf] at hfd
        exact hopen fd' a' hfd

theorem openStandard_ok (hroom : Roomy k.heap) (hclosed : k.filedesc p = fun _ => none) :
    ∃ k', openStandard p k = .ok () k' ∧ (k'.sched, k'.pages, k'.space) = (k.sched, k.pages, k.space) ∧ Openable k' p ∧
      Serves k.heap k'.heap ∧ Standard k' p := by
  obtain ⟨a₁, h₁, a₂, h₂, a₃, h₃, a₄, h₄, a₅, h₅, e₁, e₂, e₃, e₄, e₅⟩ := hroom
  have hpipe : ∃ k₁, newPipe k = .ok a₁ k₁ ∧ (k₁.sched, k₁.pages, k₁.space) = (k.sched, k.pages, k.space) ∧
      k₁.heap = h₂ ∧ k₁.filedesc = k.filedesc := by
    unfold newPipe
    rw [run_bind (kmalloc_ok e₁), run_bind (kmalloc_ok (k := { k with heap := h₁ }) e₂)]
    exact ⟨_, rfl, rfl, rfl, rfl⟩
  obtain ⟨k₁, hk₁, hs₁, hh₁, hf₁⟩ := hpipe
  have hopen₁ : Openable k₁ p := by
    intro fd a ha
    rw [hf₁, hclosed] at ha
    cases ha
  obtain ⟨k₂, hk₂, hs₂, hh₂, hf₂, hopen₂⟩ :=
    openHandle_ok .pipeReader a₁ 0 (by rw [hh₁]; exact e₃) hopen₁
  obtain ⟨k₃, hk₃, hs₃, hh₃, hf₃, hopen₃⟩ :=
    openHandle_ok .screen 0 1 (by rw [hh₂]; exact e₄) hopen₂
  obtain ⟨k₄, hk₄, hs₄, hh₄, hf₄, hopen₄⟩ :=
    openHandle_ok .screen 0 2 (by rw [hh₃]; exact e₅) hopen₃
  refine ⟨k₄, ?_, by rw [hs₄, hs₃, hs₂, hs₁], hopen₄, ⟨a₁, h₁, a₂, h₂, a₃, h₃, a₄, h₄, a₅, e₁, e₂, e₃, e₄,
    by rw [hh₄]; exact e₅⟩, fun fd => ?_⟩
  swap
  · rw [hf₄, hf₃, hf₂, hf₁, hclosed]
    simp only [Function.update_apply]
    split_ifs <;> simp <;> omega
  have hsplit : openStandard p = (newPipe >>= fun b =>
      (newHandle .pipeReader b 0 >>= fun fh => setFd p 0 (some fh)) >>= fun _ =>
      (newHandle .screen 0 0 >>= fun fh => setFd p 1 (some fh)) >>= fun _ =>
      (newHandle .screen 0 0 >>= fun fh => setFd p 2 (some fh))) := by
    simp only [openStandard, newPipeReader, newScreenHandle, bind_assoc]
  rw [hsplit, run_bind hk₁, run_bind hk₂, run_bind hk₃]
  exact hk₄

/-- **`start_process` succeeds** when there is a slot and room on the heap. -/
theorem perform_start (hsafe : Safe m forked k.sched k.pages k.space asp) (hfree : getFreePid k.sched = some p)
    (hroom : Roomy k.heap) (startAddress : ℕ) :
    ∃ k', perform m (.start startAddress) k = .ok () k' ∧
      k'.sched = install k.sched p (startedProc p startAddress) ∧ Openable k' p ∧ k'.cwd p = [char '/'] ∧
      Serves k.heap k'.heap ∧ Standard k' p ∧
      ∃ pdir, startPages m k.pages = .ok (pdir, k'.pages) ∧ k'.space p = initialSpace pdir := by
  obtain ⟨frees, hA⟩ := hsafe.spaces.alloc
  obtain ⟨pdir, P', A, hok, -⟩ := startPages_spec m hA hsafe.spaces.live hsafe.room
  let k₁ : State :=
    { k with
      pages := P'
      space := Function.update k.space p (initialSpace pdir)
      filedesc := Function.update k.filedesc p fun _ => none }
  obtain ⟨k₂, hk₂, hs₂, hopen, hserves, hstandard⟩ := openStandard_ok (k := k₁) (p := p) hroom
    (Function.update_self _ _ _)
  have hpages := onPages_ok hok
  obtain ⟨hs₂, hpages₂, hspace₂⟩ : k₂.sched = k.sched ∧ k₂.pages = P' ∧ k₂.space = k₁.space := by
    obtain ⟨h₁, h₂⟩ := Prod.mk.inj hs₂
    exact ⟨h₁, Prod.mk.inj h₂⟩
  refine ⟨{ k₂ with
    cwd := Function.update k₂.cwd p [char '/']
    sched := install k₂.sched p (startedProc p startAddress) }, ?_, by rw [hs₂], hopen,
    Function.update_self _ _ _, hserves, hstandard, pdir, by rw [hpages₂]; exact hok, ?_⟩
  swap
  · show k₂.space p = _
    rw [hspace₂]
    exact Function.update_self _ _ _
  have hstart : startIn m p startAddress k = .ok ()
      { k₂ with
        cwd := Function.update k₂.cwd p [char '/']
        sched := install k₂.sched p (startedProc p startAddress) } := by
    unfold startIn
    rw [run_bind hpages]
    show (openStandard p >>= fun _ => setCwd p [char '/'] >>= fun _ =>
      schedDo fun S => .ok (install S p (startedProc p startAddress))) k₁ = _
    rw [run_bind hk₂]
    rfl
  have hproc : startProcess m startAddress k = .ok (some p)
      { k₂ with
        cwd := Function.update k₂.cwd p [char '/']
        sched := install k₂.sched p (startedProc p startAddress) } := by
    unfold startProcess
    rw [run_get, hfree]
    exact run_bind hstart
  exact run_bind hproc

/-! ### Forking -/

theorem getHandle_ok {a : ℕ} {fh : Filehandle} (h : k.handles a = some fh) : getHandle a k = .ok fh k := by
  unfold getHandle
  rw [h]

theorem getPipe_ok {b : ℕ} {pb : PipeBuffer} (h : k.pipes b = some pb) : getPipe b k = .ok pb k := by
  unfold getPipe
  rw [h]

theorem shareFd_ok (fd : ℕ) (hopen : Openable k p) (hne : p ≠ c) :
    ∃ k', shareFd p c fd k = .ok () k' ∧ k'.sched = k.sched ∧ Openable k' p ∧ k'.heap = k.heap := by
  unfold shareFd
  rw [run_get]
  cases hfd : k.filedesc p fd with
  | none => exact ⟨k, rfl, rfl, hopen, rfl⟩
  | some a =>
    obtain ⟨fh, hfh⟩ := hopen fd a hfd
    let k₁ : State :=
      { k with
        filedesc := Function.update k.filedesc c (Function.update (k.filedesc c) fd (some a)) }
    have hget : getHandle a k₁ = .ok fh k₁ := getHandle_ok (k := k₁) hfh
    have href : addReference a k₁ = .ok ()
        { k₁ with
          handles := Function.update k.handles a (some { fh with refcount := fh.refcount + 1 }) } := by
      unfold addReference
      rw [run_bind hget]
      rfl
    refine ⟨_, href, rfl, ?_, rfl⟩
    intro fd' a' ha'
    have hfd' : k.filedesc p fd' = some a' := by
      have hold := Function.update_of_ne hne (Function.update (k.filedesc c) fd (some a)) k.filedesc
      rw [← hold]
      exact ha'
    show ∃ fh', Function.update k.handles a (some _) a' = some fh'
    by_cases haa : a' = a
    · exact ⟨_, by rw [haa, Function.update_self]⟩
    · rw [Function.update_of_ne haa]
      exact hopen fd' a' hfd'

theorem shareFds_ok (fds : List ℕ) (hopen : Openable k p) (hne : p ≠ c) :
    ∃ k', shareFds p c fds k = .ok () k' ∧ k'.sched = k.sched ∧ Openable k' p ∧ k'.heap = k.heap := by
  induction fds generalizing k with
  | nil => exact ⟨k, rfl, rfl, hopen, rfl⟩
  | cons fd fds ih =>
    obtain ⟨k₁, hk₁, hs₁, hopen₁, hh₁⟩ := shareFd_ok fd hopen hne
    obtain ⟨k₂, hk₂, hs₂, hopen₂, hh₂⟩ := ih hopen₁
    exact ⟨k₂, (run_bind hk₁).trans hk₂, hs₂.trans hs₁, hopen₂, hh₂.trans hh₁⟩

/-- `fork` itself succeeds when there is a slot. -/
theorem syscallFork_ok {r : Regs} {pdir : ℕ} {P' : Pages} (hok : forkPages (k.space p) k.pages = .ok (pdir, P'))
    (hne : p ≠ c) (hfree : getFreePid k.sched = some c) (hopen : Openable k p) :
    ∃ k', syscallFork p r k = .ok (c : ℤ) k' ∧ k'.sched = install k.sched c (forkedProc k.sched p c r) ∧
      Openable k' p ∧ k'.heap = k.heap := by
  let k₂ : State :=
    { k with
      pages := P'
      space := Function.update k.space c { k.space p with pdir := pdir }
      filedesc := Function.update k.filedesc c fun _ => none }
  have hopen₂ : Openable k₂ p := by
    intro fd a ha
    have hfd : Function.update k.filedesc c (fun _ => none) p fd = some a := ha
    rw [Function.update_of_ne hne] at hfd
    exact hopen fd a hfd
  obtain ⟨k₃, hk₃, hs₃, hopen₃, hh₃⟩ := shareFds_ok (List.range MAX_FDS) hopen₂ hne
  let k₄ : State :=
    { k₃ with
      cwd := Function.update k₃.cwd c (k.cwd p)
      sched := install k₃.sched c (forkedProc k₃.sched p c r) }
  have hpages : onPages (forkPages (k.space p)) k = .ok pdir { k with pages := P' } := onPages_ok hok
  have hfork : forkIn p c r k = .ok () k₄ := by
    unfold forkIn
    rw [run_get, run_bind hpages]
    show (shareFds p c (List.range MAX_FDS) >>= fun _ => setCwd c (k.cwd p) >>= fun _ =>
      schedDo fun S => .ok (install S c (forkedProc S p c r))) k₂ = _
    rw [run_bind hk₃]
    rfl
  refine ⟨k₄, ?_, ?_, hopen₃, hh₃⟩
  · unfold syscallFork
    rw [run_get, hfree]
    exact run_bind hfork
  · show install k₃.sched c (forkedProc k₃.sched p c r) = _
    rw [hs₃]

/-- **`fork` succeeds** when there is a slot. -/
theorem dispatch_fork {r : Regs} (args : List ℕ) (hsafe : Safe m forked k.sched k.pages k.space asp)
    (hp : k.sched.current = some p) (hno : r.eax = SYSCALL_FORK) (hfree : getFreePid k.sched = some c) (hopen : Openable k p) :
    ∃ k', dispatch m p r r.eax args { k with sched := enter k.sched p r.eax } = .ok ((c : ℤ), r) k' ∧
      k'.sched = install (enter k.sched p r.eax) c (forkedProc (enter k.sched p r.eax) p c r) ∧ Openable k' p ∧
      k'.heap = k.heap := by
  have hlive := hsafe.good.current_live hp
  have hne : p ≠ c := by
    intro he
    rw [he] at hlive
    exact not_live_of_free hfree hlive
  obtain ⟨pdir, P', A, hok, -⟩ := hsafe.forkPages_ok hlive
  let k₁ : State := { k with sched := enter k.sched p r.eax }
  obtain ⟨k', hcall, hs, hopen', hh⟩ := syscallFork_ok (k := k₁) (r := r) hok hne
    ((getFreePid_enter _ _ _).trans hfree) hopen
  refine ⟨k', ?_, hs, hopen', hh⟩
  show dispatch m p r r.eax args k₁ = _
  rw [hno]
  show keep r (syscallFork p r) k₁ = _
  exact run_bind hcall

/-- The same as an event. -/
theorem perform_fork {r : Regs} (args : List ℕ) (hsafe : Safe m forked k.sched k.pages k.space asp)
    (hp : k.sched.current = some p) (hno : r.eax = SYSCALL_FORK) (hfree : getFreePid k.sched = some c) (hopen : Openable k p) :
    ∃ k', perform m (.call r args) k = .ok () k' ∧
      k'.sched = leave (install (enter k.sched p r.eax) c
        (forkedProc (enter k.sched p r.eax) p c r)) p r.eax r c ∧ k'.heap = k.heap := by
  obtain ⟨k', hdis, hs, -, hh⟩ := dispatch_fork args hsafe hp hno hfree hopen
  have hserve : serve m p r args { k with sched := enter k.sched p r.eax } = .ok ((c : ℤ), r)
      { k' with sched := leave k'.sched p r.eax r c } := by
    unfold serve
    rw [run_bind hdis]
    rfl
  refine ⟨{ k' with sched := leave k'.sched p r.eax r c }, ?_, ?_, hh⟩
  · show asCurrent (callWith m r args) k = _
    unfold asCurrent
    rw [run_get, hp]
    show (serve m p r args >>= fun _ => pure ()) _ = _
    rw [run_bind hserve]
    rfl
  · show leave k'.sched p r.eax r c = _
    rw [hs]

/-! ### A run with two processes -/

/-- A machine whose file system holds an empty root directory only. -/
def Machine.bare : Machine where
  codeStart := MB
  codeEnd := MB + PAGE_SIZE
  filesystem := fun _ => 0
  imageSize := 0
  start_aligned := onePage_start_aligned
  end_aligned := onePage_end_aligned
  start_le := onePage_start_le
  code_le := onePage_code_le
  end_le := onePage_end_le
  image_lt := by decide
  fits := by
    intro path entry h
    unfold getDirectoryEntry at h
    cases hc : components path with
    | nil =>
      rw [hc] at h
      cases h
      decide
    | cons c cs =>
      rw [hc] at h
      cases h

/-- The registers of a process that calls `fork`. -/
def forkRegs : Regs := { Regs.zero with eax := SYSCALL_FORK }

/-- The kernel heap at boot, over memory that holds zeros. -/
def bootHeap : Buddy.Heap :=
  Buddy.buddyInit KERNEL_MEM_SIZEPOW2 KERNEL_MEM_BASE (fun _ => ⟨0, false⟩) fun _ => 0

/-- Requests one after the other: the addresses, and the heap after them. -/
def allocs : List ℕ → Buddy.Heap → Except Fault (List ℕ × Buddy.Heap)
  | [], h => .ok ([], h)
  | n :: ns, h => do
    let (a, h) ← Buddy.buddyAlloc .kernel h n
    let (as, h) ← allocs ns h
    return (a :: as, h)

/-- The five requests of a new process. -/
abbrev startSizes : List ℕ := [24, BUFSIZE, 36, 36, 36]

theorem allocs_inv {h h'' : Buddy.Heap} {n : ℕ} {as ns : List ℕ} (hok : allocs (n :: ns) h = .ok (as, h'')) :
    ∃ a bs h', Buddy.buddyAlloc .kernel h n = .ok (a, h') ∧ allocs ns h' = .ok (bs, h'') ∧ as = a :: bs := by
  unfold allocs at hok
  obtain ⟨⟨a, h'⟩, halloc, hok⟩ := bind_eq_ok.mp hok
  obtain ⟨⟨bs, h₂⟩, hrest, hpure⟩ := bind_eq_ok.mp hok
  cases hpure
  exact ⟨a, bs, h', halloc, hrest, rfl⟩

theorem roomy_of_allocs {h h' : Buddy.Heap} {as : List ℕ} (hok : allocs startSizes h = .ok (as, h')) : Roomy h := by
  obtain ⟨a₁, _, h₁, e₁, hok, -⟩ := allocs_inv hok
  obtain ⟨a₂, _, h₂, e₂, hok, -⟩ := allocs_inv hok
  obtain ⟨a₃, _, h₃, e₃, hok, -⟩ := allocs_inv hok
  obtain ⟨a₄, _, h₄, e₄, hok, -⟩ := allocs_inv hok
  obtain ⟨a₅, _, h₅, e₅, -, -⟩ := allocs_inv hok
  exact ⟨a₁, h₁, a₂, h₂, a₃, h₃, a₄, h₄, a₅, h₅, e₁, e₂, e₃, e₄, e₅⟩

set_option maxRecDepth 10000 in
theorem roomy_boot : Roomy bootHeap := by
  have h : (allocs startSizes bootHeap).isOk = true := by decide +kernel
  cases hr : allocs startSizes bootHeap with
  | ok x => exact roomy_of_allocs hr
  | error e =>
    rw [hr] at h
    cases h

/-- **One process**: it is started and gets the processor. -/
theorem reachable_start :
    ∃ k forked, Reachable Machine.bare k forked ∧ Openable k 1 ∧ forked 1 = false ∧
      k.sched = contextSwitch (install Sched.boot 1 (startedProc 1 0)) Regs.zero := by
  let k₀ := State.boot (fun _ => 0) (fun _ => 0) fun _ => ⟨0, false⟩
  have h₀ : Reachable Machine.bare k₀ fun _ => false := .boot _ _ _
  obtain ⟨-, asp, hsafe⟩ := inv_of_reachable h₀
  obtain ⟨k₁, hk₁, hs₁, hopen, -⟩ := perform_start (p := 1) hsafe rfl roomy_boot 0
  have h₁ := h₀.step (.start 0) trivial hk₁
  let k₂ : State := { k₁ with sched := contextSwitch k₁.sched Regs.zero }
  have h₂ : Reachable Machine.bare k₂ _ := h₁.step (.switch Regs.zero) trivial rfl
  refine ⟨k₂, _, h₂, hopen, rfl, ?_⟩
  show contextSwitch k₁.sched Regs.zero = _
  rw [hs₁]
  rfl

/-- **Two processes**: the first one forks. -/
theorem reachable_fork :
    ∃ k forked, Reachable Machine.bare k forked ∧ k.sched.Live 1 ∧ k.sched.Live 2 ∧
      forked 1 = false ∧ forked 2 = true := by
  obtain ⟨k, forked, h, hopen, hf, hs⟩ := reachable_start
  have hcur : k.sched.current = some 1 := by
    rw [hs]
    rfl
  have hfree : getFreePid k.sched = some 2 := by
    rw [hs]
    rfl
  obtain ⟨-, asp, hsafe⟩ := inv_of_reachable h
  obtain ⟨k', hk', hs', -⟩ := perform_fork (r := forkRegs) [] hsafe hcur rfl hfree hopen
  have hallow : (Event.call forkRegs []).Allowed k := by
    refine ⟨by decide, ?_, ?_⟩
    · intro h
      exact absurd h (by decide)
    · intro h
      exact absurd h (by decide)
  have horigin : (Event.call forkRegs []).origin k forked = Function.update forked 2 true := by
    have hno : forkRegs.eax = SYSCALL_FORK := rfl
    simp only [Event.origin, if_pos hno, hfree]
  have h' := h.step (.call forkRegs []) hallow hk'
  rw [horigin] at h'
  refine ⟨k', _, h', ?_, ?_, hf, rfl⟩
  · rw [hs', hs]
    exact ⟨rfl, rfl⟩
  · rw [hs', hs]
    exact ⟨rfl, rfl⟩

end AdelaideOS.Kernel
