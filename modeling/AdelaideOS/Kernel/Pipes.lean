import AdelaideOS.Kernel.Fork

/-!
# Handles and pipes over whole histories

What the invariant says about handles and pipes, in every state of every history.

* **`references_of_run`** — a handle exists as long as a descriptor of a live process refers to it, and counts
  these descriptors; a pipe exists as long as one of its ends.
-/

namespace AdelaideOS.Kernel

open AdelaideOS.Buddy AdelaideOS.Lib.Bytes AdelaideOS.Lib.Triple AdelaideOS.Lib.View AdelaideOS.Process

variable {m : Machine} {n : Notes} {B : Books} {C : Contents} {k k' : State} {o o' : Outline} {p q no : ℕ}
  {r : Regs} {args : List ℕ} {P Q : Notes → State → Input → Prop}

/-! ### Counting references -/

/-- The calls that open, share and close descriptors. -/
def descriptorCalls : List ℕ :=
  [SYSCALL_FORK, SYSCALL_OPEN, SYSCALL_PIPE, SYSCALL_DUP2, SYSCALL_CLOSE, SYSCALL_EXIT, SYSCALL_KILL]

/-- Only such calls are made, and `kill` is aimed at processes that have not exited. -/
def Input.Counting (k : State) : Input → Prop
  | .event (.call r args) =>
    r.eax ∈ descriptorCalls ∧
    (r.eax = SYSCALL_KILL → ∀ t : ℕ, toInt (args.getD 0 0) = t →
      (k.sched.procs t).exists_ = true → (k.sched.procs t).exited = false)
  | _ => True

/-- The end of type `t` of the pipe `b` has a handle. -/
def Held (k : State) (t : FhType) (b : ℕ) : Prop := ∃ a fh, k.handles a = some fh ∧ fh.type = t ∧ fh.p = b

/-- What holds of handles, descriptors and pipes. -/
structure References (n : Notes) (k : State) : Prop where
  count : ∀ a fh, k.handles a = some fh → fh.refcount = refs k.filedesc (liveSlots k.sched) a ∧ 1 ≤ fh.refcount
  slot : ∀ q fd a, k.sched.Live q → fd < MAX_FDS → k.filedesc q fd = some a → k.handles a ≠ none
  reading : ∀ b pb, k.pipes b = some pb → (pb.reading = true ↔ Held k .pipeReader b)
  writing : ∀ b pb, k.pipes b = some pb → n.std b = false → (pb.writing = true ↔ Held k .pipeWriter b)
  exists_ : ∀ b, n.std b = false → (k.pipes b ≠ none ↔ Held k .pipeReader b ∨ Held k .pipeWriter b)
  std : ∀ b, n.std b = true → k.pipes b ≠ none ∧ ¬ Held k .pipeWriter b

theorem Whole.references (h : Whole n C k.objects) : References n k := by
  have hcount := h.tidy.counted
  have hpair := h.tidy.paired
  have hends : ∀ {b t}, Held k t b → t.isPipe = true → ∃ pb, k.pipes b = some pb ∧ pb.isOpen t = true ∧
      (t = .pipeWriter → n.std b = false) := by
    rintro b t ⟨a, fh, hfh, rfl, rfl⟩ ht
    exact hpair.ends a fh hfh ht
  refine ⟨?_, ?_, ?_, ?_, ?_, ?_⟩
  · intro a fh hfh
    have hc := hcount.count a
    rw [show k.objects.handles a = some fh from hfh] at hc
    exact ⟨hc, hcount.pos a fh hfh⟩
  · intro q fd a hq hfd ha hnone
    have hs : (q, fd) ∈ liveSlots k.sched := h.mem_slots.mpr ⟨hq, hfd⟩
    obtain ⟨fh, hfh⟩ := hcount.slot hs ha
    rw [show k.objects.handles a = none from hnone] at hfh
    cases hfh
  · intro b pb hb
    constructor
    · intro hr
      rcases hpair.held b pb .pipeReader hb hr with hheld | ⟨habs, -⟩
      · exact hheld
      · cases habs
    · intro hheld
      obtain ⟨pb', hb', hopen, -⟩ := hends hheld rfl
      rw [hb] at hb'
      cases hb'
      exact hopen
  · intro b pb hb hstd
    constructor
    · intro hw
      rcases hpair.held b pb .pipeWriter hb hw with hheld | ⟨-, habs⟩
      · exact hheld
      · rw [hstd] at habs
        cases habs
    · intro hheld
      obtain ⟨pb', hb', hopen, -⟩ := hends hheld rfl
      rw [hb] at hb'
      cases hb'
      exact hopen
  · intro b hstd
    constructor
    · intro hne
      obtain ⟨pb, hb⟩ := Option.ne_none_iff_exists'.mp hne
      have hheld : ∀ t, pb.isOpen t = true → Held k t b := by
        intro t ht
        rcases hpair.held b pb t hb ht with hheld | ⟨-, habs⟩
        · exact hheld
        · rw [hstd] at habs
          cases habs
      rcases hpair.opened b pb hb with hr | hw
      · exact Or.inl (hheld .pipeReader hr)
      · exact Or.inr (hheld .pipeWriter hw)
    · intro hheld
      rcases hheld with hheld | hheld
      · obtain ⟨pb, hb, -⟩ := hends hheld rfl
        rw [hb]
        simp
      · obtain ⟨pb, hb, -⟩ := hends hheld rfl
        rw [hb]
        simp
  · intro b hstd
    obtain ⟨pb, hb, -⟩ := hpair.std b hstd
    refine ⟨?_, ?_⟩
    · rw [show k.pipes b = some pb from hb]
      simp
    · intro hheld
      obtain ⟨-, -, -, hno⟩ := hends hheld rfl
      rw [hno rfl] at hstd
      cases hstd

/-! ### Pending calls -/

/-- A handler leaves the pending calls of all processes alone. -/
theorem Turn.inSyscall {fs : Memory} {x : ℤ × Regs} (h : Turn fs p no r args o x o') (q : ℕ) :
    (o'.table q).inSyscall = (o.table q).inSyscall ∨ (o'.table q).inSyscall = 0 := by
  cases h with
  | wrote res o' hs =>
    obtain ⟨P, -, rfl⟩ := hs
    exact Or.inl rfl
  | forked child pdir P =>
    by_cases hq : q = child
    · exact Or.inr (by simp [Outline.install, hq])
    · exact Or.inl (by simp [Outline.install, hq])
  | killed res z e P =>
    by_cases hq : q = z
    · exact Or.inl (by simp [Outline.kill, hq])
    · exact Or.inl (by simp [Outline.kill, hq])
  | grown res P => exact Or.inl rfl
  | loaded r' o' hno hload =>
    obtain ⟨path, entry, P, -, -, P', -, rfl⟩ := hload
    exact Or.inl rfl
  | reaped res o₁ o' hreap hs =>
    obtain ⟨e, rfl, -⟩ := hreap
    obtain ⟨P, -, rfl⟩ := hs
    exact Or.inl rfl

/-- The pending calls after an input. -/
theorem react_inSyscall {input : Option ℕ} {i : Input} (hok : react m input i k = .ok () k') (q : ℕ) :
    (k'.sched.procs q).inSyscall = (k.sched.procs q).inSyscall ∨ (k'.sched.procs q).inSyscall = 0 ∨
      ∃ r args, i = .event (.call r args) ∧ (k'.sched.procs q).inSyscall = r.eax := by
  have hswitch : ∀ (S : Sched) (r : Regs), ((contextSwitch S r).procs q).inSyscall = (S.procs q).inSyscall :=
    fun S r => ((contextSwitch_spec S r).1 q).2
  have htable : ∀ {k₁ : State} {t : ℕ → Standing}, k₁.outline.table = t →
      (k₁.sched.procs q).inSyscall = (t q).inSyscall := by
    intro k₁ t ht
    exact congrArg Standing.inSyscall (congrFun ht q)
  cases react_stirs hok with
  | full startAddress hfree => exact Or.inl rfl
  | started startAddress pid pdir P k' hfree hP ho =>
    rw [htable (congrArg Outline.table ho)]
    by_cases hq : q = pid
    · exact Or.inr (Or.inl (by simp [Outline.install, hq]))
    · left
      simp only [Outline.install, Function.update_of_ne hq]
      rfl
  | called r args p x k₂ hcur hturn =>
    have hleave := ((leave_spec k₂.sched p r.eax x.2 x.1).1 q).2
    simp only [hleave]
    by_cases hc : q = p ∧ x.1 ≠ -ESUSPEND
    · rw [if_pos hc]
      exact Or.inr (Or.inl rfl)
    · rw [if_neg hc]
      rcases hturn.inSyscall q with hsame | hzero
      · replace hsame : (k₂.sched.procs q).inSyscall = ((enter k.sched p r.eax).procs q).inSyscall := hsame
        rw [hsame, enter_proc]
        by_cases hq : q = p
        · exact Or.inr (Or.inr ⟨r, args, rfl, by simp [hq]⟩)
        · exact Or.inl (by simp [hq])
      · exact Or.inr (Or.inl hzero)
  | crashed r p e P k₁ hcur hP ho =>
    left
    simp only [hswitch]
    rw [htable (congrArg Outline.table ho)]
    by_cases hq : q = p
    · rw [hq]
      simp only [Outline.kill, Function.update_self]
      rfl
    · simp only [Outline.kill, Function.update_of_ne hq]
      rfl
  | stored a b p k' hcur hs =>
    obtain ⟨P, -, ho⟩ := hs
    left
    rw [htable (congrArg Outline.table ho)]
    rfl
  | switched r => exact Or.inl (hswitch k.sched r)
  | typed r c k₁ hsame =>
    left
    simp only [hswitch]
    rw [htable (congrArg Outline.table hsame)]
    rfl

/-! ### Histories of descriptors -/

/-- Nobody reads. -/
theorem unread_of_run (h : Run m (fun _ k i => i.Counting k) n B k) (q : ℕ) :
    (k.sched.procs q).inSyscall ≠ SYSCALL_READ := by
  induction h with
  | boot mem bytes blocks =>
    show (0 : ℕ) ≠ SYSCALL_READ
    decide
  | step i hrun hi hok ih =>
    rcases react_inSyscall hok q with hsame | hzero | ⟨r, args, rfl, hcall⟩
    · rw [hsame]
      exact ih
    · rw [hzero]
      decide
    · rw [hcall]
      intro habs
      have hmem := hi.1
      rw [habs] at hmem
      revert hmem
      decide

theorem Input.Counting.fair {i : Input} (h : i.Counting k)
    (hunread : ∀ q, (k.sched.procs q).inSyscall ≠ SYSCALL_READ) : i.Fair n k := by
  cases i with
  | key r c => trivial
  | event ev =>
    cases ev with
    | call r args =>
      intro p _
      refine ⟨?_, ?_⟩
      · intro hno t ht hex
        exact ⟨h.2 hno t ht hex, fun hpark => hunread t hpark.call⟩
      · intro hno
        have hmem := h.1
        rw [hno] at hmem
        exact absurd hmem (by decide)
    | start _ => trivial
    | crash _ => trivial
    | store _ _ => trivial
    | switch _ => trivial

/-- Giving back the reference of any descriptor succeeds, and destroys the handle if it was the last one. -/
def Closes (k : State) : Prop :=
  ∀ q fd a, k.sched.Live q → fd < MAX_FDS → k.filedesc q fd = some a →
    ∃ k', closeFilehandle a k = .ok () k' ∧
      (k'.handles a = none ↔ refs k.filedesc (liveSlots k.sched) a = 1)

theorem Whole.closes (h : Whole n C k.objects) (hunread : ∀ q, (k.sched.procs q).inSyscall ≠ SYSCALL_READ) :
    Closes k := by
  intro q fd a hq hfd ha
  have hs : (q, fd) ∈ liveSlots k.objects.sched := h.mem_slots.mpr ⟨hq, hfd⟩
  have hsane := h
  unfold Whole at hsane
  rw [← Finset.insert_erase hs] at hsane
  have hclose := hsane.close (F := fun _ => False) (Finset.notMem_erase _ _) ha
    fun z _ hpark => absurd hpark.call (hunread z)
  obtain ⟨_, k', hok, hclosed, -⟩ := hclose.returns
  refine ⟨k', hok, ?_⟩
  obtain ⟨fh, hfh⟩ := h.tidy.counted.slot hs ha
  obtain ⟨hcount, hpos⟩ := h.references.count a fh hfh
  rw [← hcount]
  show k'.objects.handles a = none ↔ _
  generalize k'.objects = o' at hclosed
  have hsame : ∀ {g}, k.objects.handles a = some g → g = fh := by
    intro g hg
    rw [hfh] at hg
    exact (Option.some.inj hg).symm
  have hgone : fh.refcount - 1 = 0 → o'.handles a = none → (o'.handles a = none ↔ fh.refcount = 1) := by
    intro hlast hnone
    refine ⟨fun _ => ?_, fun _ => hnone⟩
    omega
  cases hclosed with
  | shared g hg hmore =>
    rw [hsame hg] at hmore ⊢
    simp only [Function.update_self, reduceCtorEq, false_iff]
    omega
  | plain g h' hg hlast =>
    rw [hsame hg] at hlast
    exact hgone hlast (Function.update_self _ _ _)
  | reader g pb h' hg hlast =>
    rw [hsame hg] at hlast
    exact hgone hlast (Function.update_self _ _ _)
  | writer g pb h' S hg hlast =>
    rw [hsame hg] at hlast
    exact hgone hlast (Function.update_self _ _ _)

/-- The handles that an input meets stay what they are, or go with their last reference; the pipes of
`start_process` stay. -/
structure Lasts (n : Notes) (i : Input) (k k' : State) : Prop where
  handles : ∀ a fh, k.handles a = some fh →
    (k'.handles a = none ∧ refs k'.filedesc (liveSlots k'.sched) a = 0) ∨
      ∃ fh', k'.handles a = some fh' ∧ fh'.type = fh.type ∧ fh'.p = fh.p
  std : ∀ b, n.std b = true → (n.next i k k').std b = true

theorem lasts_of_follows {i : Input} (h : Follows m n C i k k') : Lasts n i k k' := by
  obtain ⟨C', hwhole, -, hkept, -⟩ := h
  constructor
  · intro a fh hfh
    cases hfh' : k'.handles a with
    | none =>
      left
      have hc := hwhole.tidy.counted.count a
      rw [show k'.objects.handles a = none from hfh'] at hc
      exact ⟨rfl, hc.symm⟩
    | some fh' =>
      right
      obtain ⟨ht, hp⟩ := hkept a fh fh' hfh hfh'
      exact ⟨fh', rfl, ht, hp⟩
  · intro b hb
    show i.std k k' n.std b = true
    unfold Input.std
    split
    · simp [hb]
    · exact hb

/-- The functions whose assertions are about references and pipes. -/
def closingSites : List Site := [.closeFilehandle, .checkBufferFree, .pipeWriterDestroy, .pipeReaderDestroy]

/-- **References are counted.**  In every history of process creation, `fork`, `open`, `pipe`, `dup2`, `close`, `exit`
and `kill` of processes that have not exited, a handle exists exactly as long as descriptors of live processes refer
to it, and counts them; it is destroyed with the last one.  A pipe of `pipe` exists as long as one of its ends, a
pipe of `start_process` for ever.  The assertions about all this hold. -/
theorem references_of_run (h : Run m (fun _ k i => i.Counting k) n B k) :
    References n k ∧ Closes k ∧
      (∀ i k', i.Counting k → react m n.input i k = .ok () k' → Lasts n i k k') ∧
      ∀ i e k', i.Counting k → react m n.input i k = .error e k' → ∀ site ∈ closingSites, e ≠ .assertion site := by
  have hunread := unread_of_run h
  have hfair := h.refine (Q := fun n k i => i.Fair n k) fun n B k i hrun hi => hi.fair (unread_of_run hrun)
  obtain ⟨hserve, hsteady, C, hwhole, -⟩ := hfair.standing fun _ _ _ hi => hi
  have hreact : ∀ i : Input, i.Counting k → Acts id Benign k (react m n.input i) fun _ k' => Follows m n C i k k' :=
    fun i hi => hwhole.react hserve hsteady (hi.fair hunread)
  refine ⟨hwhole.references, hwhole.closes hunread, ?_, ?_⟩
  · intro i k' hi hok
    exact lasts_of_follows ((hreact i hi).ok rfl hok)
  · rintro i e k' hi herr site hsite rfl
    have hmem := (hreact i hi).error rfl herr site rfl
    revert hmem hsite
    cases site <;> decide

/-- `dup2` to a descriptor that is not open. -/
theorem syscallDup2_ok {a oldfd newfd : ℕ} {fh : Filehandle} (hold : oldfd < MAX_FDS) (hnew : newfd < MAX_FDS)
    (hne : oldfd ≠ newfd) (hfd : k.filedesc p oldfd = some a) (hfree : k.filedesc p newfd = none)
    (hfh : k.handles a = some fh) : syscallDup2 p oldfd newfd k = .ok newfd { k with
      filedesc := Function.update k.filedesc p (Function.update (k.filedesc p) newfd (some a))
      handles := Function.update k.handles a (some { fh with refcount := fh.refcount + 1 }) } := by
  have hlook : lookupFd k p oldfd = some a := by
    unfold lookupFd
    rw [if_neg (by omega), Int.toNat_natCast]
    exact hfd
  let k₁ : State := { k with filedesc := Function.update k.filedesc p (Function.update (k.filedesc p) newfd (some a)) }
  have href : addReference a k₁ = .ok () { k₁ with
      handles := Function.update k.handles a (some { fh with refcount := fh.refcount + 1 }) } := by
    unfold addReference
    rw [run_bind (getHandle_ok (k := k₁) hfh)]
    rfl
  unfold syscallDup2
  rw [run_get, if_neg (by omega), hlook]
  simp only
  rw [if_neg (by exact_mod_cast hne)]
  unfold replaceFd
  rw [run_get, Int.toNat_natCast, hfree]
  exact run_bind href

/-- `close` of a descriptor whose handle is shared. -/
theorem syscallClose_ok {a fd : ℕ} {fh : Filehandle} (hlt : fd < MAX_FDS) (hfd : k.filedesc p fd = some a)
    (hfh : k.handles a = some fh) (hshared : 1 < fh.refcount) : syscallClose p fd k = .ok 0 { k with
      filedesc := Function.update k.filedesc p (Function.update (k.filedesc p) fd none)
      handles := Function.update k.handles a (some { fh with refcount := fh.refcount - 1 }) } := by
  have hlook : lookupFd k p fd = some a := by
    unfold lookupFd
    rw [if_neg (by omega), Int.toNat_natCast]
    exact hfd
  have hclose : closeFilehandle a k = .ok () { k with
      handles := Function.update k.handles a (some { fh with refcount := fh.refcount - 1 }) } := by
    have hcheck : check .closeFilehandle (1 ≤ fh.refcount) k = .ok () k := by
      unfold check
      rw [assert_pos (by omega)]
      rfl
    unfold closeFilehandle
    rw [run_bind (getHandle_ok hfh), run_bind hcheck, if_neg (by omega)]
    rfl
  unfold syscallClose
  rw [run_get, hlook]
  simp only
  rw [run_bind hclose, Int.toNat_natCast]
  rfl

/-- **A handle that is shared**: the first process forks, duplicates its standard input, and closes it. -/
theorem run_shared : ∃ n B k a, Run Machine.bare (fun _ k i => i.Counting k) n B k ∧
    k.filedesc 1 0 = none ∧ k.filedesc 1 3 = some a ∧ k.filedesc 2 0 = some a := by
  obtain ⟨n, B, k, h, hmap, hs, hopen, -, -, ⟨b, pb, ⟨-, -, a, fh, hfd, hfh, -⟩, -⟩, hstandard⟩ := run_start Machine.bare
    (P := fun _ k i => i.Counting k) roomy_boot (fun _ _ => trivial) fun _ _ => trivial
  obtain ⟨_, _, k₃, h₃, hs₃, -, -, hfds, hhandles, -⟩ := h.forkFirst ⟨by decide, fun hno => absurd hno (by decide)⟩ hmap hs hopen
  have hcur₃ : k₃.sched.current = some 1 := by
    rw [hs₃]
    rfl
  have hparent : k₃.filedesc 1 = k.filedesc 1 := by
    rw [hfds]
    exact Function.update_of_ne (by decide) _ _
  have hchild : k₃.filedesc 2 0 = some a := by
    rw [hfds, Function.update_self, if_pos (by decide)]
    exact hfd
  -- the handle is shared now
  obtain ⟨c, hc, hfh₃⟩ : ∃ c, 1 ≤ c ∧ k₃.handles a = some { fh with refcount := fh.refcount + c } := by
    refine ⟨copiedSlots k 1 a (List.range MAX_FDS), ?_, ?_⟩
    · refine List.length_pos_of_mem (a := 0) (List.mem_filter.mpr ⟨by decide, ?_⟩)
      exact decide_eq_true hfd
    · rw [hhandles]
      exact raised_of_some hfh
  let r₄ : Regs := { Regs.zero with eax := SYSCALL_DUP2 }
  let k₄ : State := { k₃ with
    sched := enter k₃.sched 1 SYSCALL_DUP2
    filedesc := Function.update k₃.filedesc 1 (Function.update (k₃.filedesc 1) 3 (some a))
    handles := Function.update k₃.handles a (some { fh with refcount := fh.refcount + c + 1 }) }
  have hdup : dispatch Machine.bare 1 r₄ r₄.eax [0, 3] { k₃ with sched := enter k₃.sched 1 SYSCALL_DUP2 } = .ok (3, r₄) k₄ := by
    have hok := syscallDup2_ok (k := { k₃ with sched := enter k₃.sched 1 SYSCALL_DUP2 }) (p := 1) (show 0 < MAX_FDS by decide)
      (show 3 < MAX_FDS by decide) (by decide) ((congrFun hparent 0).trans hfd)
      ((congrFun hparent 3).trans ((hstandard 3).mpr (Nat.le_refl 3))) hfh₃
    exact run_bind hok
  have h₅ := h₃.call hcur₃ ⟨by decide, fun hno => absurd hno (by decide)⟩ hdup
  let k₅ : State := { k₄ with sched := leave k₄.sched 1 r₄.eax r₄ 3 }
  have hcur₅ : k₅.sched.current = some 1 := leave_back hcur₃ (by decide)
  have hnow : k₅.filedesc = Function.update k₃.filedesc 1 (Function.update (k₃.filedesc 1) 3 (some a)) := rfl
  have hfds₅ : k₅.filedesc 1 = Function.update (k.filedesc 1) 3 (some a) := by
    rw [hnow, Function.update_self, hparent]
  -- its other descriptor is closed
  let r₆ : Regs := { Regs.zero with eax := SYSCALL_CLOSE }
  let k₆ : State := { k₅ with
    sched := enter k₅.sched 1 SYSCALL_CLOSE
    filedesc := Function.update k₅.filedesc 1 (Function.update (k₅.filedesc 1) 0 none)
    handles := Function.update k₅.handles a (some { fh with refcount := fh.refcount + c + 1 - 1 }) }
  have hclose : dispatch Machine.bare 1 r₆ r₆.eax [0] { k₅ with sched := enter k₅.sched 1 SYSCALL_CLOSE } = .ok (0, r₆) k₆ := by
    have hok := syscallClose_ok (k := { k₅ with sched := enter k₅.sched 1 SYSCALL_CLOSE }) (p := 1) (show 0 < MAX_FDS by decide)
      ((congrFun hfds₅ 0).trans ((Function.update_of_ne (by decide) _ _).trans hfd)) (Function.update_self _ _ _)
      (show 1 < fh.refcount + c + 1 by omega)
    exact run_bind hok
  have h₇ := h₅.call hcur₅ ⟨by decide, fun hno => absurd hno (by decide)⟩ hclose
  have hlast : k₆.filedesc = Function.update k₅.filedesc 1 (Function.update (k₅.filedesc 1) 0 none) := rfl
  refine ⟨_, _, _, a, h₇, ?_, ?_, ?_⟩
  · show k₆.filedesc 1 0 = none
    rw [hlast, Function.update_self, Function.update_self]
  · show k₆.filedesc 1 3 = some a
    rw [hlast, Function.update_self, Function.update_of_ne (by decide), hfds₅, Function.update_self]
  · show k₆.filedesc 2 0 = some a
    rw [hlast, Function.update_of_ne (by decide), hnow, Function.update_of_ne (by decide)]
    exact hchild

/-- A handle that the first process and its child share. -/
theorem references_of_shared :
    ∃ n B k a, Run Machine.bare (fun _ k i => i.Counting k) n B k ∧ k.filedesc 1 0 = none ∧ k.filedesc 1 3 = some a ∧
      k.filedesc 2 0 = some a ∧ References n k := by
  obtain ⟨n, B, k, a, h, hclosed, hparent, hchild⟩ := run_shared
  exact ⟨n, B, k, a, h, hclosed, hparent, hchild, (references_of_run h).1⟩

/-! ### Pipes as streams -/

/-- What the invariant says about the bytes in a pipe. -/
theorem Whole.stream {b : ℕ} {pb : PipeBuffer} (h : Whole n C k.objects) (hb : k.pipes b = some pb) :
    loadBytes k.heap.bytes pb.data pb.len = C.text b ∧ pb.len ≤ pb.alloc ∧
      Allocated kernelRegion k.heap pb.data pb.alloc := by
  obtain ⟨T, hS⟩ := h.tidy.stored
  exact ⟨hS.text b pb hb, hS.fits b pb hb, hS.holds.allocated (hS.data b pb hb)⟩

end AdelaideOS.Kernel
