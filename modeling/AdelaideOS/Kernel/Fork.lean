import AdelaideOS.Kernel.Advance
import AdelaideOS.Kernel.Frames

/-!
# What `fork` copies

`shareFds` is followed here with its exact effect: the child gets the descriptors of its parent, and each handle one
reference more for every slot that was copied.  The memory of the child was described along with the loops over page
tables.

* **`forkIn_ok`** — the state after a fork, component by component;
* **`fork_copies`** — from every state with its address spaces in order, fork makes a copy of the process and leaves
  everything else as it was, or finds no slot and does nothing;
* **`Run.forkFirst`** — the fork of the first process in a run.
-/

namespace AdelaideOS.Kernel

open AdelaideOS.Buddy AdelaideOS.Lib.Bytes AdelaideOS.Lib.Triple AdelaideOS.Lib.View AdelaideOS.Page
  AdelaideOS.Process

variable {m : Machine} {forked : ℕ → Bool} {k k' : State} {asp : ℕ → Aspace} {p child : ℕ} {r : Regs} {res : ℤ}

/-! ### Descriptors -/

/-- The number of slots `fds` of process `p` that hold the handle `a`. -/
def copiedSlots (k : State) (p a : ℕ) (fds : List ℕ) : ℕ := (fds.filter fun fd => k.filedesc p fd = some a).length

/-- The descriptors `fds` of the parent, where it has any, and else those the child has already. -/
def sharedFds (k : State) (p child : ℕ) (fds : List ℕ) (fd : ℕ) : Option ℕ :=
  if fd ∈ fds then (k.filedesc p fd).or (k.filedesc child fd) else k.filedesc child fd

/-- The handles with one reference more for each slot. -/
def raised (k : State) (p : ℕ) (fds : List ℕ) (a : ℕ) : Option Filehandle :=
  (k.handles a).map fun fh => { fh with refcount := fh.refcount + copiedSlots k p a fds }

theorem raised_of_some {a : ℕ} {fh : Filehandle} {fds : List ℕ} (h : k.handles a = some fh) :
    raised k p fds a = some { fh with refcount := fh.refcount + copiedSlots k p a fds } := by
  unfold raised
  rw [h]
  rfl

theorem shareFd_effect {fd : ℕ} (hok : shareFd p child fd k = .ok () k') :
    k' = { k with
      filedesc := Function.update k.filedesc child (sharedFds k p child [fd])
      handles := raised k p [fd] } := by
  unfold shareFd at hok
  rw [run_get] at hok
  cases hfd : k.filedesc p fd with
  | none =>
    simp only [hfd] at hok
    cases hok
    have hfds : sharedFds k p child [fd] = k.filedesc child := by
      funext x
      unfold sharedFds
      by_cases hx : x = fd
      · simp [hx, hfd]
      · simp [hx]
    have hhandles : raised k p [fd] = k.handles := by
      funext a
      simp [raised, copiedSlots, hfd]
    rw [hfds, hhandles, Function.update_eq_self]
  | some a =>
    simp only [hfd] at hok
    obtain ⟨_, k₁, hset, href⟩ := bind_ok hok
    cases hset
    obtain ⟨fh, k₂, hget, hput⟩ := bind_ok href
    unfold getHandle at hget
    cases hfh : k.handles a with
    | none =>
      simp only [hfh] at hget
      cases hget
    | some fh₁ =>
      simp only [hfh] at hget
      cases hget
      cases hput
      have hfds : Function.update (k.filedesc child) fd (some a) = sharedFds k p child [fd] := by
        funext x
        unfold sharedFds
        by_cases hx : x = fd
        · simp [hx, hfd]
        · simp [hx]
      have hhandles : Function.update k.handles a (some { fh with refcount := fh.refcount + 1 }) =
          raised k p [fd] := by
        funext x
        unfold raised copiedSlots
        by_cases hx : x = a
        · simp [hx, hfd, hfh]
        · have hxa : ¬ a = x := fun he => hx he.symm
          simp [hx, hfd, hxa]
      rw [← hfds, ← hhandles]

/-- **The descriptors of the child.** -/
theorem shareFds_effect (hne : p ≠ child) (fds : List ℕ) (hok : shareFds p child fds k = .ok () k') :
    k' = { k with
      filedesc := Function.update k.filedesc child (sharedFds k p child fds)
      handles := raised k p fds } := by
  induction fds generalizing k with
  | nil =>
    cases hok
    have hfds : sharedFds k' p child [] = k'.filedesc child := rfl
    have hhandles : raised k' p [] = k'.handles := by
      funext a
      simp [raised, copiedSlots]
    rw [hfds, hhandles, Function.update_eq_self]
  | cons fd fds ih =>
    obtain ⟨_, k₁, hfd, hrest⟩ := bind_ok hok
    have hk₁ := shareFd_effect hfd
    have hk' := ih hrest
    have hp : k₁.filedesc p = k.filedesc p := by
      rw [hk₁]
      exact Function.update_of_ne hne _ _
    have hc : k₁.filedesc child = sharedFds k p child [fd] := by
      rw [hk₁]
      exact Function.update_self _ _ _
    have hfds : sharedFds k₁ p child fds = sharedFds k p child (fd :: fds) := by
      funext x
      unfold sharedFds
      rw [hp, hc]
      unfold sharedFds
      by_cases hx : x = fd
      · by_cases hm : x ∈ fds <;> cases hv : k.filedesc p x <;> simp_all
      · by_cases hm : x ∈ fds <;> simp [hx, hm]
    have hhandles : raised k₁ p fds = raised k p (fd :: fds) := by
      funext a
      have hslots : copiedSlots k₁ p a fds = copiedSlots k p a fds := by
        unfold copiedSlots
        rw [hp]
      have hcount : copiedSlots k p a (fd :: fds) = copiedSlots k p a [fd] + copiedSlots k p a fds := by
        unfold copiedSlots
        rw [← List.length_append, ← List.filter_append]
        rfl
      have hk₁a : k₁.handles a = raised k p [fd] a := by rw [hk₁]
      unfold raised
      rw [hk₁a, hslots, hcount]
      unfold raised
      rw [Option.map_map]
      congr 1
      funext fh
      simp [Nat.add_assoc]
    rw [hk', hfds, hhandles, hk₁]
    simp only [Function.update_idem]

/-! ### The child -/

/-- **The state after a fork.** -/
theorem forkIn_ok (hne : p ≠ child) (hok : forkIn p child r k = .ok () k') :
    ∃ pdir P, forkPages (k.space p) k.pages = .ok (pdir, P) ∧
      k' = { k with
        sched := install k.sched child (forkedProc k.sched p child r)
        pages := P
        space := Function.update k.space child { k.space p with pdir := pdir }
        filedesc := Function.update k.filedesc child
          fun fd => if fd ∈ List.range MAX_FDS then k.filedesc p fd else none
        handles := raised k p (List.range MAX_FDS)
        cwd := Function.update k.cwd child (k.cwd p) } := by
  unfold forkIn at hok
  rw [run_get] at hok
  obtain ⟨pdir, k₁, hpages, hok⟩ := bind_ok hok
  unfold onPages at hpages
  cases hP : forkPages (k.space p) k.pages with
  | error e =>
    simp only [hP] at hpages
    cases hpages
  | ok x =>
    simp only [hP] at hpages
    cases hpages
    obtain ⟨_, k₂, hspace, hok⟩ := bind_ok hok
    cases hspace
    obtain ⟨_, k₃, hclear, hok⟩ := bind_ok hok
    cases hclear
    obtain ⟨_, k₄, hshare, hok⟩ := bind_ok hok
    let kc : State :=
      { k with
        pages := x.2
        space := Function.update k.space child { k.space p with pdir := x.1 }
        filedesc := Function.update k.filedesc child fun _ => none }
    have hk₄ : k₄ = { kc with
        filedesc := Function.update kc.filedesc child (sharedFds kc p child (List.range MAX_FDS))
        handles := raised kc p (List.range MAX_FDS) } := shareFds_effect hne _ hshare
    obtain ⟨_, k₅, hcwd, hinstall⟩ := bind_ok hok
    cases hcwd
    cases hinstall
    refine ⟨x.1, x.2, rfl, ?_⟩
    have hfds : ∀ k₀ : State, k₀.filedesc p = k.filedesc p → (k₀.filedesc child = fun _ => none) →
        sharedFds k₀ p child (List.range MAX_FDS) =
          fun fd => if fd ∈ List.range MAX_FDS then k.filedesc p fd else none := by
      intro k₀ hp hc
      funext fd
      unfold sharedFds
      rw [hp, hc, Option.or_none]
    have hhandles : ∀ k₀ : State, k₀.filedesc p = k.filedesc p → k₀.handles = k.handles →
        raised k₀ p (List.range MAX_FDS) = raised k p (List.range MAX_FDS) := by
      intro k₀ hp hh
      unfold raised copiedSlots
      rw [hp, hh]
    have hp : kc.filedesc p = k.filedesc p := Function.update_of_ne hne _ _
    rw [hfds kc hp (Function.update_self _ _ _), hhandles kc hp rfl] at hk₄
    rw [hk₄]
    simp only [kc, Function.update_idem]

/-- What a fork does to descriptors, handles and pipes. -/
theorem syscallFork_files {res : ℤ} (hfree : getFreePid k.sched = some child) (hne : p ≠ child)
    (hok : syscallFork p r k = .ok res k') :
    k'.filedesc = Function.update k.filedesc child (fun fd => if fd ∈ List.range MAX_FDS then k.filedesc p fd else none) ∧
      k'.handles = raised k p (List.range MAX_FDS) ∧ k'.pipes = k.pipes := by
  unfold syscallFork at hok
  rw [run_get, hfree] at hok
  obtain ⟨_, k₁, hin, hpure⟩ := bind_ok hok
  cases hpure
  obtain ⟨pdir, P, -, rfl⟩ := forkIn_ok hne hin
  exact ⟨rfl, rfl, rfl⟩

/-- The process `child` is a copy of process `p`, made by `fork` with the frame `r`, and nothing else has changed. -/
structure Copied (k k' : State) (p child : ℕ) (r : Regs) : Prop where
  /-- The child is a new process. -/
  slot : 1 ≤ child ∧ child < MAX_PROCESSES ∧ (k.sched.procs child).exists_ = false ∧ k'.sched.Live child
  /-- It has the ranges of its parent. -/
  ranges : ∃ pdir, k'.space child = { k.space p with pdir := pdir }
  /-- Every address of them is mapped, to a frame that was not live. -/
  fresh : ∀ a, (k.space p).InRange a → (∃ x, physical k' child a = .ok x) ∧ frameOf k' child a ∉ k.pages.live
  memory : ∀ a, (k.space p).InRange a → userByte k' child a = userByte k p a
  descriptors : ∀ fd < MAX_FDS, k'.filedesc child fd = k.filedesc p fd
  references : k'.handles = raised k p (List.range MAX_FDS)
  cwd : k'.cwd child = k.cwd p
  frame : (k'.sched.procs child).savedRegs = { r with eax := 0 }
  /-- The frames of the others, page tables and pages, hold the same bytes. -/
  frames : ∀ q, k.sched.Live q → ∀ f ∈ processFrames k q, AgreeOn k.pages.mem k'.pages.mem f PAGE_SIZE
  others : ∀ q, q ≠ child → k'.space q = k.space q ∧ k'.filedesc q = k.filedesc q ∧ k'.cwd q = k.cwd q ∧
    k'.sched.procs q = k.sched.procs q
  userBytes : ∀ q, k.sched.Live q → ∀ a < wordSize, userByte k' q a = userByte k q a
  rest : k'.pipes = k.pipes ∧ k'.heap = k.heap ∧ k'.screen = k.screen ∧ k'.sched.current = k.sched.current

/-- **`fork` copies the process and nothing else.** -/
theorem Safe.copied {pdir : ℕ} {P : Pages} (h : Safe m forked k.sched k.pages k.space asp)
    (hp : k.sched.Live p) (hc : getFreePid k.sched = some child)
    (hP : forkPages (k.space p) k.pages = .ok (pdir, P))
    (hk' : k' = { k with
      sched := Process.install k.sched child (forkedProc k.sched p child r)
      pages := P
      space := Function.update k.space child { k.space p with pdir := pdir }
      filedesc := Function.update k.filedesc child
        fun fd => if fd ∈ List.range MAX_FDS then k.filedesc p fd else none
      handles := raised k p (List.range MAX_FDS)
      cwd := Function.update k.cwd child (k.cwd p) }) : Copied k k' p child r := by
  obtain ⟨t, d, hs⟩ := h.shaped p hp
  obtain ⟨pdir', P', A, hok, hO, hK, hus, -, hbytes⟩ := h.forkPages_ok hp
  rw [hP] at hok
  cases hok
  have hnot := not_live_of_free hc
  have hspaces := h.spaces.add (fun hmem => hnot ((mem_livePids h.good).mp hmem)) hO hK
  have hpages : k'.pages = P := by rw [hk']
  have hspace : k'.space = Function.update k.space child { k.space p with pdir := pdir } := by rw [hk']
  have hchild : k'.space child = { k.space p with pdir := pdir } := by
    rw [hspace]
    exact Function.update_self _ _ _
  have hOc : Owns k'.pages (k'.space child).pdir A (framesOf (livePids k.sched) (fun q => (k.space q).pdir) asp) := by
    rw [hpages, hchild]
    exact hO
  -- the pages of the ranges
  have hpage : ∀ a, (k.space p).InRange a → pageOf a ∈ (asp p).us ∧ a < wordSize := by
    intro a ha
    refine ⟨(hs.inRange_iff a).mp ha, ?_⟩
    have htl := hs.text_le
    have hdl := hs.data_le
    unfold Space.InRange at ha
    rw [hs.textEnd, hs.dataEnd, hs.stackEnd] at ha
    simp only [PAGE_SIZE, TEXT_PAGE, DATA_PAGE, STACK_PAGE, MAX_TEXT, MAX_DATA, wordSize] at *
    omega
  constructor
  · obtain ⟨h1, h2, h3⟩ := getFreePid_spec hc
    refine ⟨h1, h2, h3, ?_⟩
    rw [hk']
    exact (live_install rfl rfl child).mpr (Or.inl rfl)
  · exact ⟨pdir, hchild⟩
  · intro a ha
    obtain ⟨hn, hlt⟩ := hpage a ha
    rw [← hus] at hn
    obtain ⟨htr, -, hfr, hmask⟩ := hOc.user_page hlt hn
    constructor
    · refine ⟨A.fr (pageOf a) + a % PAGE_SIZE, ?_⟩
      have hlow : ¬ A.fr (pageOf a) + a % PAGE_SIZE < PAGE_START := by
        have := hfr.facts.2.1
        omega
      unfold physical
      rw [htr]
      exact if_neg hlow
    · unfold frameOf
      rw [hmask, ← Multiset.mem_coe, h.spaces.live]
      intro hmem
      exact (hOc.rest_apart hmem).2.2 _ hn rfl
  · intro a ha
    obtain ⟨hn, hlt⟩ := hpage a ha
    rw [userByte_eq (h.owns hp) hlt, userByte_eq hOc hlt, hus, if_pos hn, if_pos hn, hpages]
    exact hbytes _ hn _ (Nat.mod_lt _ (by decide))
  · intro fd hfd
    rw [hk']
    show (Function.update k.filedesc child _) child fd = _
    rw [Function.update_self, if_pos (List.mem_range.mpr hfd)]
  · rw [hk']
  · rw [hk']
    exact Function.update_self _ _ _
  · rw [hk']
    show ((Function.update k.sched.procs child _) child).savedRegs = _
    rw [Function.update_self]
    rfl
  · intro q hq f hf
    obtain ⟨t', d', hs'⟩ := h.shaped q hq
    rw [hpages]
    apply hK
    rw [mem_framesOf]
    refine ⟨q, h.mem hq, ?_⟩
    rw [← processFrames_eq (h.owns hq) hs', Multiset.mem_coe]
    exact hf
  · intro q hq
    rw [hk']
    exact ⟨Function.update_of_ne hq _ _, Function.update_of_ne hq _ _, Function.update_of_ne hq _ _,
      Function.update_of_ne hq _ _⟩
  · intro q hq a ha
    have hqc : q ≠ child := by
      rintro rfl
      exact hnot hq
    have hOq := hspaces.owns (Finset.mem_insert_of_mem (h.mem hq))
    rw [Function.update_of_ne hqc, Function.update_of_ne hqc] at hOq
    have hdir : (k'.space q).pdir = (k.space q).pdir := by rw [hspace, Function.update_of_ne hqc]
    rw [← hdir, ← hpages] at hOq
    rw [userByte_eq (h.owns hq) ha, userByte_eq hOq ha, hpages]
    by_cases hn : pageOf a ∈ (asp q).us
    · rw [if_pos hn, if_pos hn]
      have hmem : (asp q).fr (pageOf a) ∈ framesOf (livePids k.sched) (fun q => (k.space q).pdir) asp := by
        refine mem_framesOf.mpr ⟨q, h.mem hq, ?_⟩
        exact Multiset.mem_cons_of_mem (Multiset.mem_add.mpr (Or.inr (Multiset.mem_map_of_mem _ hn)))
      refine hK _ hmem _ (Nat.le_add_right _ _) ?_
      exact Nat.add_lt_add_left (Nat.mod_lt _ (by decide)) _
    · rw [if_neg hn, if_neg hn]
  · rw [hk']
    exact ⟨rfl, rfl, rfl, rfl⟩

/-- From every state whose address spaces are in order, as they are after every run of modest programs: where there
is a free slot, `fork` returns it and has made a copy of the process there; where there is none, it returns `-EAGAIN`
and has changed nothing. -/
theorem fork_copies (h : Mapped m k) (hp : k.sched.Live p) :
    (∀ child res k', getFreePid k.sched = some child → syscallFork p r k = .ok res k' →
      res = child ∧ Copied k k' p child r) ∧
    (getFreePid k.sched = none → syscallFork p r k = .ok (-EAGAIN) k) := by
  obtain ⟨forked, asp, hsafe⟩ := h
  constructor
  · intro child res k' hc hok
    unfold syscallFork at hok
    rw [run_get] at hok
    simp only [hc] at hok
    obtain ⟨_, k₁, hfork, hpure⟩ := bind_ok hok
    cases hpure
    have hne : p ≠ child := by
      rintro rfl
      exact not_live_of_free hc hp
    obtain ⟨pdir, P, hP, hk'⟩ := forkIn_ok hne hfork
    exact ⟨rfl, hsafe.copied hp hc hP hk'⟩
  · intro hc
    unfold syscallFork
    rw [run_get]
    simp only [hc]
    rfl

/-! ### The first child -/

/-- **The first process forks**: its descriptors and what they refer to. -/
theorem Run.forkFirst {P : Notes → State → Input → Prop} {n : Notes} {B : Books} (h : Run Machine.bare P n B k)
    (hP : P n k (.event (.call forkRegs []))) (hmap : Mapped Machine.bare k) (hs : k.sched = oneProcess)
    (hopen : Openable k 1) :
    ∃ n' B' k', Run Machine.bare P n' B' k' ∧ k'.sched = twoProcesses ∧ k'.heap = k.heap ∧ n'.std = n.std ∧
      k'.filedesc = Function.update k.filedesc 2 (fun fd => if fd ∈ List.range MAX_FDS then k.filedesc 1 fd else none) ∧
      k'.handles = raised k 1 (List.range MAX_FDS) ∧ k'.pipes = k.pipes := by
  have hcur : k.sched.current = some 1 := by
    rw [hs]
    rfl
  have hfree : getFreePid k.sched = some 2 := by
    rw [hs]
    rfl
  obtain ⟨forked, asp, hsafe⟩ := hmap
  obtain ⟨k₁, hdis, hs₁, -, hheap⟩ := dispatch_fork (r := forkRegs) [] hsafe hcur rfl hfree hopen
  obtain ⟨_, _, hfork, hpure⟩ := bind_ok (show keep forkRegs (syscallFork 1 forkRegs) _ = _ from hdis)
  cases hpure
  obtain ⟨hfds, hhandles, hpipes⟩ := syscallFork_files ((getFreePid_enter _ _ _).trans hfree) (by decide) hfork
  refine ⟨_, _, _, h.call hcur hP hdis, ?_, hheap, rfl, hfds, hhandles, hpipes⟩
  show leave k₁.sched 1 forkRegs.eax forkRegs (2 : ℕ) = _
  rw [hs₁, hs]
  rfl

/-- The first process forks. -/
theorem fork_copies_first :
    ∃ n B k k', Run Machine.bare (fun n k i => i.Fair n k ∧ i.Modest) n B k ∧
      syscallFork 1 Regs.zero k = .ok 2 k' ∧ Copied k k' 1 2 Regs.zero := by
  obtain ⟨n, B, k, h, hmap, hs, hopen, -⟩ := run_start Machine.bare (P := fun n k i => i.Fair n k ∧ i.Modest)
    roomy_boot (fun _ _ => ⟨trivial, trivial⟩) fun _ _ => ⟨trivial, trivial⟩
  have hp : k.sched.Live 1 := by
    rw [hs]
    exact ⟨rfl, rfl⟩
  have hc : getFreePid k.sched = some 2 := by
    rw [hs]
    decide
  obtain ⟨forked, asp, hsafe⟩ := id hmap
  obtain ⟨pdir, P', A, hP, -⟩ := hsafe.forkPages_ok hp
  obtain ⟨k', hok, -⟩ := syscallFork_ok (r := Regs.zero) hP (by decide) hc hopen
  exact ⟨n, B, k, k', h, hok, ((fork_copies hmap hp).1 2 2 k' hc hok).2⟩

end AdelaideOS.Kernel
