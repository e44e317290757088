import AdelaideOS.Kernel.Invariant

/-!
# Runs of the kernel

The kernel runs in response to events: a process is started at boot, the current process makes a system call
with some registers and argument words, faults, or stores into its memory, the timer switches processes.
`perform` is one event.  `Reachable m k forked` says that a run of events that satisfy `Event.Allowed` leads to
the state `k`, and `forked` records for each process number whether `fork` created its latest owner.  A fault in
the kernel ends the run.

* **`Inv.perform`**, **`inv_of_reachable`** — one event, and every run, keeps the invariant.
-/

namespace AdelaideOS.Kernel

open AdelaideOS.Lib.Bytes AdelaideOS.Lib.Triple AdelaideOS.Page AdelaideOS.Process

/-- The state when `kernel_main` has set up its data, over arbitrary memory contents. -/
def State.boot (mem bytes : Memory) (blocks : ℕ → Buddy.Blockinfo) : State where
  sched := Sched.boot
  pages := Pages.boot mem
  space := fun _ => ⟨0, 0, 0, 0, 0, 0, 0⟩
  filedesc := fun _ _ => none
  cwd := fun _ => []
  handles := fun _ => none
  pipes := fun _ => none
  heap := Buddy.buddyInit KERNEL_MEM_SIZEPOW2 KERNEL_MEM_BASE blocks bytes
  screen := []
  log := []

inductive Event where
  | start (startAddress : ℕ)
  | call (r : Regs) (args : List ℕ)
  | crash (r : Regs)
  | store (a : ℕ) (b : UInt8)
  | switch (r : Regs)

/-- Something that happens while a process is running. -/
def asCurrent (f : ℕ → K Unit) : K Unit := do
  let k ← get
  match k.sched.current with
  | none => throw (.assertion .syscall)
  | some p => f p

/-- A system call of process `p` whose argument block holds `args`. -/
def callWith (m : Machine) (r : Regs) (args : List ℕ) (p : ℕ) : K Unit := do
  schedDo fun S => .ok (enter S p r.eax)
  let _ ← serve m p r args

/-- A page fault in user mode kills the process. -/
def crashWith (r : Regs) (p : ℕ) : K Unit := do
  killProcess p
  schedDo fun S => .ok (contextSwitch S r)

/-- A store by user code, where the page tables allow it. -/
def storeWith (a : ℕ) (b : UInt8) (p : ℕ) : K Unit := do
  let k ← get
  if userWritable k.pages.mem (k.space p).pdir (a % wordSize) then storeMapped p (a % wordSize) b
  else pure ()

def perform (m : Machine) : Event → K Unit
  | .start startAddress => do let _ ← startProcess m startAddress
  | .call r args => asCurrent (callWith m r args)
  | .crash r => asCurrent (crashWith r)
  | .store a b => asCurrent (storeWith a b)
  | .switch r => schedDo fun S => .ok (contextSwitch S r)

/-- The system calls that create, change, end and reap processes. -/
def lifecycleCalls : List ℕ :=
  [SYSCALL_FORK, SYSCALL_BRK, SYSCALL_EXECVE, SYSCALL_EXIT, SYSCALL_KILL, SYSCALL_WAITPID]

/-- `kill` is aimed at a process that has not exited, and `brk` asks for at most `PROCESS_DATA_MAX` bytes. -/
def Event.Allowed (k : State) : Event → Prop
  | .call r args =>
    r.eax ∈ lifecycleCalls ∧
    (r.eax = SYSCALL_BRK → args.getD 0 0 ≤ PROCESS_DATA_BASE + PROCESS_DATA_MAX) ∧
    (r.eax = SYSCALL_KILL → ∀ t : ℕ, toInt (args.getD 0 0) = t →
      (k.sched.procs t).exists_ = true → (k.sched.procs t).exited = false)
  | _ => True

/-- Who was created by `fork`, after an event. -/
def Event.origin (k : State) (forked : ℕ → Bool) : Event → ℕ → Bool
  | .start _ =>
    match getFreePid k.sched with
    | none => forked
    | some pid => Function.update forked pid false
  | .call r _ =>
    if r.eax = SYSCALL_FORK then
      match getFreePid k.sched with
      | none => forked
      | some pid => Function.update forked pid true
    else forked
  | _ => forked

inductive Reachable (m : Machine) : State → (ℕ → Bool) → Prop where
  | boot (mem bytes : Memory) (blocks : ℕ → Buddy.Blockinfo) :
      Reachable m (State.boot mem bytes blocks) fun _ => false
  | step {k k' : State} {forked : ℕ → Bool} (ev : Event) :
      Reachable m k forked → ev.Allowed k → perform m ev k = .ok () k' →
      Reachable m k' (ev.origin k forked)

/-- The invariant of a state. -/
def Inv (m : Machine) (forked : ℕ → Bool) (k : State) : Prop :=
  Quiet k ∧ ∃ asp, Safe m forked k.sched k.pages k.space asp

variable {m : Machine} {forked : ℕ → Bool} {S S' : Sched} {P P' : Pages} {sp : ℕ → Space}
  {asp : ℕ → Aspace} {p : ℕ} {k k' : State}

theorem Safe.inv (h : Safe m forked S P sp asp) (hk : Core S P sp k) : Inv m forked k := by
  refine ⟨hk.quiet, asp, ?_⟩
  rw [hk.sched, hk.pages, hk.space]
  exact h

theorem inv_boot (mem bytes : Memory) (blocks : ℕ → Buddy.Blockinfo) :
    Inv m (fun _ => false) (State.boot mem bytes blocks) := by
  refine ⟨?_, fun _ => Aspace.empty, good_boot, ?_, ?_, ?_⟩
  · intro a b hb
    cases hb
  · have hnone : livePids Sched.boot = ∅ := by
      apply Finset.filter_eq_empty_iff.mpr
      intro q _ hq
      cases hq.1
    show Spaces (Pages.boot mem) (livePids Sched.boot) _ _
    rw [hnone]
    refine ⟨⟨[], alloc_boot mem⟩, rfl, ?_⟩
    intro q hq
    simp at hq
  · intro q hq
    cases hq.1
  · intro q hq
    cases hq.1

/-! ### One handler -/

theorem live_of_sameLife (h : ∀ q, SameLife (S.procs q) (S'.procs q)) (q : ℕ) :
    S'.Live q ↔ S.Live q := by
  rw [Sched.Live, Sched.Live, (h q).exists_, (h q).exited]

/-- `fork`. -/
theorem Safe.syscallFork (h : Safe m forked S P sp asp) (hp : S.Live p) (r : Regs) :
    Sat (Core S P sp) (syscallFork p r)
      (fun _ => Inv m (match getFreePid S with
        | none => forked
        | some pid => Function.update forked pid true)) Stopped := by
  unfold Kernel.syscallFork
  refine Sat.get fun k₀ hk₀ => ?_
  rw [hk₀.sched]
  cases hfree : getFreePid S with
  | none => exact Sat.pure fun k hk => h.inv hk
  | some child =>
    refine (forkIn_core p child r).bind fun _ => Sat.exists fun pdir => Sat.exists fun P' =>
      Sat.and fun hP => Sat.pure fun k hk => ?_
    obtain ⟨asp', h'⟩ := h.fork hp hfree hP
    exact h'.inv hk

theorem Safe.killProcess (h : Safe m forked S P sp asp) (hp : S.Live p) :
    Sat (Core S P sp) (killProcess p)
      (fun _ k => ∃ S' P', Safe m forked S' P' sp asp ∧ Core S' P' sp k) Stopped := by
  refine (killProcess_core p).post fun _ k => ?_
  rintro ⟨S', P', hS, hP, hk⟩
  exact ⟨S', P', h.kill hp hS hP, hk⟩

/-- `exit`. -/
theorem Safe.syscallExit (h : Safe m forked S P sp asp) (hp : S.Live p) (status : ℤ) :
    Sat (Core S P sp) (syscallExit p status) (fun _ => Inv m forked) Stopped := by
  have hlive : ∀ q, (setExitStatus S p status).Live q ↔ S.Live q := by
    intro q
    by_cases hq : q = p
    · simp [setExitStatus, Sched.Live, hq]
    · simp [setExitStatus, Sched.Live, hq]
  have hG : Good (setExitStatus S p status) := h.good.set ⟨rfl, rfl, rfl, rfl⟩ rfl
  unfold Kernel.syscallExit
  refine (schedDo_ok _).bind fun _ => ?_
  refine ((h.sched hG hlive).killProcess ((hlive p).mpr hp)).bind fun _ => ?_
  refine Sat.exists fun S' => Sat.exists fun P' => Sat.and fun h' => Sat.pure fun k hk => ?_
  exact h'.inv hk

/-- `kill`. -/
theorem Safe.syscallKill (h : Safe m forked S P sp asp) {pid : ℤ}
    (hpid : ∀ t : ℕ, pid = t → (S.procs t).exists_ = true → (S.procs t).exited = false) :
    Sat (Core S P sp) (syscallKill p pid) (fun _ => Inv m forked) Stopped := by
  unfold Kernel.syscallKill
  refine Sat.get fun k₀ hk₀ => ?_
  rw [hk₀.sched]
  refine Sat.ite (fun _ => Sat.pure fun k hk => h.inv hk) fun hc => ?_
  rw [not_or, not_or] at hc
  have hex : (S.procs pid.toNat).exists_ = true := by simpa using hc.2.2
  have hlive : S.Live pid.toNat := by
    refine ⟨hex, hpid _ ?_ hex⟩
    omega
  refine (h.killProcess hlive).bind fun _ => ?_
  refine Sat.exists fun S' => Sat.exists fun P' => Sat.and fun h' => Sat.pure fun k hk => ?_
  exact h'.inv hk

/-- `brk`. -/
theorem Safe.syscallBrk (h : Safe m forked S P sp asp) (hp : S.Live p) {a : ℕ}
    (ha : a ≤ PROCESS_DATA_BASE + PROCESS_DATA_MAX) :
    Sat (Core S P sp) (syscallBrk p a) (fun _ => Inv m forked) Stopped := by
  refine (syscallBrk_core a).post fun _ k => ?_
  rintro (hk | ⟨hlt, P', hP, hk⟩)
  · exact h.inv hk
  · obtain ⟨asp', h'⟩ := h.brk hp ha hlt hP
    exact h'.inv hk

/-- `execve`. -/
theorem Safe.syscallExecve (h : Safe m forked S P sp asp) (hp : S.Live p) (filename argv : ℕ) (r : Regs) :
    Sat (Core S P sp) (syscallExecve m.filesystem p filename argv r) (fun _ => Inv m forked)
      Stopped := by
  refine (syscallExecve_core m.filesystem filename argv r).post fun _ k => ?_
  rintro (hk | ⟨path, entry, P', hentry, hP, P'', hsc, hk⟩)
  · exact h.inv hk
  · obtain ⟨asp', h'⟩ := h.exec hp hentry hP
    exact (h'.scribbles hp hsc).inv hk

/-- `waitpid`. -/
theorem Safe.syscallWaitpid (h : Safe m forked S P sp asp) (hp : S.Live p) (pid : ℤ) (status : ℕ) :
    Sat (Core S P sp) (syscallWaitpid p pid status) (fun _ => Inv m forked) Stopped := by
  refine (syscallWaitpid_core pid status).post fun res k => ?_
  rintro ⟨value, S', hS, P', hsc, hk⟩
  have hlive : ∀ q, S'.Live q ↔ S.Live q := by
    rcases syscallWaitpid_ok hS with ⟨-, -, hS'⟩ | ⟨d, -, -, hexit, -, -, rfl⟩ |
      ⟨d, -, -, -, -, -, hsus⟩
    · rcases hS' with rfl | rfl
      · exact fun q => Iff.rfl
      · intro q
        rw [Sched.Live, waitFor_proc, Sched.Live]
    · intro q
      by_cases hq : q = d
      · simp [Sched.Live, reap_proc, waitFor_proc, hq, hexit]
      · simp [Sched.Live, reap_proc, waitFor_proc, hq]
    · intro q
      obtain ⟨-, -, rfl⟩ := suspendProcess_ok hsus
      by_cases hq : q = p
      · simp [Sched.Live, waitFor_proc, hq]
      · simp [Sched.Live, waitFor_proc, hq]
  exact (((h.scribbles hp hsc).sched (h.good.waitpid hp hS) hlive)).inv hk

/-! ### One event -/

theorem Sat.keep {Q : State → Prop} {x : K ℤ} (r : Regs) (h : Sat (Core S P sp) x (fun _ => Q) Stopped) :
    Sat (Core S P sp) (keep r x) (fun _ => Q) Stopped :=
  h.bind fun _ => Sat.pure fun _ hk => hk

/-- The ghost record after a system call. -/
def originAfter (forked : ℕ → Bool) (S : Sched) (no : ℕ) : ℕ → Bool :=
  if no = SYSCALL_FORK then
    match getFreePid S with
    | none => forked
    | some pid => Function.update forked pid true
  else forked

/-- **The handlers.** -/
theorem Safe.dispatch (h : Safe m forked S P sp asp) (hp : S.Live p) {no : ℕ} (args : List ℕ) (r : Regs)
    (hno : no ∈ lifecycleCalls)
    (hbrk : no = SYSCALL_BRK → args.getD 0 0 ≤ PROCESS_DATA_BASE + PROCESS_DATA_MAX)
    (hkill : no = SYSCALL_KILL → ∀ t : ℕ, toInt (args.getD 0 0) = t →
      (S.procs t).exists_ = true → (S.procs t).exited = false) :
    Sat (Core S P sp) (dispatch m p r no args) (fun _ => Inv m (originAfter forked S no)) Stopped := by
  simp only [lifecycleCalls, List.mem_cons, List.not_mem_nil, or_false] at hno
  rcases hno with rfl | rfl | rfl | rfl | rfl | rfl
  · exact Sat.keep r (h.syscallFork hp r)
  · exact Sat.keep r (h.syscallBrk hp (hbrk rfl))
  · exact h.syscallExecve hp _ _ r
  · exact Sat.keep r (h.syscallExit hp _)
  · exact Sat.keep r (h.syscallKill (hkill rfl))
  · exact Sat.keep r (h.syscallWaitpid hp _ _)

/-- An operation of the scheduler that neither creates nor ends a process. -/
theorem inv_schedDo {f : Sched → Sched} (hG : ∀ S, Good S → Good (f S))
    (hlive : ∀ S q, (f S).Live q ↔ S.Live q) :
    Sat (Inv m forked) (schedDo fun S => .ok (f S)) (fun _ => Inv m forked) Stopped := by
  constructor
  rintro k ⟨hquiet, asp, h⟩
  exact ⟨hquiet, asp, h.sched (hG _ h.good) (hlive _)⟩

theorem live_leave (S : Sched) (old no : ℕ) (r : Regs) (res : ℤ) (q : ℕ) :
    (leave S old no r res).Live q ↔ S.Live q :=
  live_of_sameLife (fun q => ((leave_spec S old no r res).1 q).1) q

theorem live_contextSwitch (S : Sched) (r : Regs) (q : ℕ) : (contextSwitch S r).Live q ↔ S.Live q :=
  live_of_sameLife (fun q => ((contextSwitch_spec S r).1 q).1) q

theorem getFreePid_enter (S : Sched) (p no : ℕ) : getFreePid (enter S p no) = getFreePid S := by
  unfold getFreePid
  congr 1
  funext pid
  rw [enter_proc]

theorem Safe.callWith (h : Safe m forked S P sp asp) (hp : S.Live p) {r : Regs} {args : List ℕ}
    (hno : r.eax ∈ lifecycleCalls)
    (hbrk : r.eax = SYSCALL_BRK → args.getD 0 0 ≤ PROCESS_DATA_BASE + PROCESS_DATA_MAX)
    (hkill : r.eax = SYSCALL_KILL → ∀ t : ℕ, toInt (args.getD 0 0) = t →
      (S.procs t).exists_ = true → (S.procs t).exited = false) :
    Sat (Core S P sp) (callWith m r args p) (fun _ => Inv m (originAfter forked S r.eax)) Stopped := by
  have hlive := live_enter S p r.eax
  have h' := h.sched (h.good.enter p r.eax) hlive
  have horigin : originAfter forked (enter S p r.eax) r.eax = originAfter forked S r.eax := by
    unfold originAfter
    rw [getFreePid_enter]
  have hdis := h'.dispatch ((hlive p).mpr hp) args r hno hbrk fun hno' t ht hex => by
    rw [enter_proc] at hex ⊢
    exact hkill hno' t ht hex
  rw [horigin] at hdis
  unfold Kernel.callWith serve
  refine (schedDo_ok fun S => enter S p r.eax).bind fun _ => Sat.bind ?_ fun _ => Sat.pure fun _ hk => hk
  refine hdis.bind fun x => Sat.bind ?_ fun _ => Sat.pure fun _ hk => hk
  exact inv_schedDo (fun S hG => hG.leave p r.eax x.2 x.1) fun S => live_leave S p r.eax x.2 x.1

/-- What happens while a process is running. -/
theorem Inv.asCurrent {f : ℕ → K Unit} {Q : State → Prop} (hinv : Inv m forked k)
    (hf : ∀ asp p, Safe m forked k.sched k.pages k.space asp → k.sched.Live p →
      Sat (Core k.sched k.pages k.space) (f p) (fun _ => Q) Stopped)
    (hok : asCurrent f k = .ok () k') : Q k' := by
  obtain ⟨hquiet, asp, h⟩ := hinv
  have hk : Core k.sched k.pages k.space k := ⟨rfl, rfl, rfl, hquiet⟩
  refine Sat.ok (m := Kernel.asCurrent f) (Q := fun _ => Q) (E := Stopped) ?_ hk hok
  unfold Kernel.asCurrent
  refine Sat.get fun k₀ hk₀ => ?_
  rw [hk₀.sched]
  cases hc : k.sched.current with
  | none => exact ⟨fun _ _ => trivial⟩
  | some p => exact hf asp p h (h.good.current_live hc)

/-- **One event** keeps the invariant. -/
theorem Inv.perform {ev : Event} (hinv : Inv m forked k) (hev : ev.Allowed k)
    (hok : perform m ev k = .ok () k') : Inv m (ev.origin k forked) k' := by
  obtain ⟨hquiet, asp, h⟩ := hinv
  have hk : Core k.sched k.pages k.space k := ⟨rfl, rfl, rfl, hquiet⟩
  cases ev with
  | start startAddress =>
    refine Sat.ok (m := Kernel.perform m (.start startAddress))
      (Q := fun _ => Inv m ((Event.start startAddress).origin k forked)) (E := Stopped) ?_ hk hok
    refine Sat.bind ?_ fun _ => Sat.pure fun _ hk => hk
    unfold startProcess
    refine Sat.get fun k₀ hk₀ => ?_
    rw [hk₀.sched]
    unfold Event.origin
    cases hfree : getFreePid k.sched with
    | none => exact Sat.pure fun k hk => h.inv hk
    | some pid =>
      refine (startIn_core m pid startAddress).bind fun _ => Sat.exists fun pdir =>
        Sat.exists fun P' => Sat.and fun hP => Sat.pure fun k hk => ?_
      obtain ⟨asp', h'⟩ := h.start hfree hP
      exact h'.inv hk
  | call r args =>
    refine Inv.asCurrent (f := Kernel.callWith m r args) ⟨hquiet, asp, h⟩ (fun asp p h hp => ?_) hok
    exact h.callWith hp hev.1 hev.2.1 hev.2.2
  | crash r =>
    refine Inv.asCurrent (f := crashWith r) ⟨hquiet, asp, h⟩ (fun asp p h hp => ?_) hok
    refine (h.killProcess hp).bind fun _ => Sat.exists fun S' => Sat.exists fun P' => Sat.and fun h' => ?_
    exact (inv_schedDo (fun S hG => hG.contextSwitch r) fun S => live_contextSwitch S r).pre
      fun k hk => h'.inv hk
  | store a b =>
    refine Inv.asCurrent (f := storeWith a b) ⟨hquiet, asp, h⟩ (fun asp p h hp => ?_) hok
    refine Sat.get fun k₀ _ => Sat.ite (fun _ => ?_) fun _ => Sat.pure fun k hk => h.inv hk
    refine ((storeMapped_core (a % wordSize) (Nat.mod_lt _ (by decide)) b).pre
      fun _ hk => hk.scribbled p).post fun _ k => ?_
    rintro ⟨P', hsc, hk⟩
    exact (h.scribbles hp hsc).inv hk
  | switch r =>
    exact (inv_schedDo (fun S hG => hG.contextSwitch r) fun S => live_contextSwitch S r).ok
      ⟨hquiet, asp, h⟩ hok

/-- **Every run** keeps the invariant. -/
theorem inv_of_reachable (h : Reachable m k forked) : Inv m forked k := by
  induction h with
  | boot mem bytes blocks => exact inv_boot mem bytes blocks
  | step ev _ hev hok ih => exact ih.perform hev hok

end AdelaideOS.Kernel
