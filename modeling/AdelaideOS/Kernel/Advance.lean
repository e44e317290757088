import AdelaideOS.Kernel.Arguments
import AdelaideOS.Kernel.Books
import AdelaideOS.Kernel.Progress

/-!
# Histories that go on

Which inputs are served to the end.  Closing descriptors, freeing mailboxes and address spaces cannot fail in a
state that satisfies the invariants, so a live process can always be killed; the calls that need memory or a user
pointer succeed when they get them.

* **`run_start`**, **`run_fork`** — histories with one and two processes;
* **`react_store`**, **`Run.stores`**, **`run_written`** — stores by user code;
* **`OnStack.word`**, **`OnStack.string`** — words and strings among what it has stored.
-/

namespace AdelaideOS.Kernel

open AdelaideOS.Buddy AdelaideOS.Lib.Bytes AdelaideOS.Lib.Triple AdelaideOS.Lib.View AdelaideOS.Page AdelaideOS.Process

variable {m : Machine} {n : Notes} {B : Books} {C : Contents} {k k' : State} {p q no : ℕ}
  {P Q : Notes → State → Input → Prop}

theorem Run.refine (h : Run m P n B k) (hQ : ∀ n B k i, Run m P n B k → P n k i → Q n k i) : Run m Q n B k := by
  induction h with
  | boot mem bytes blocks => exact .boot mem bytes blocks
  | step i hrun hi hok ih => exact ih.step i (hQ _ _ _ _ hrun hi) hok

/-- A system call whose handler returns. -/
theorem react_dispatch {r r' : Regs} {args : List ℕ} {res : ℤ} {k₂ : State} (input : Option ℕ)
    (hcur : k.sched.current = some p)
    (hdis : dispatch m p r r.eax args { k with sched := enter k.sched p r.eax } = .ok (res, r') k₂) :
    react m input (.event (.call r args)) k = .ok () { k₂ with sched := leave k₂.sched p r.eax r' res } := by
  show asCurrent (callWith m r args) k = _
  unfold asCurrent
  rw [run_get, hcur]
  show (serve m p r args >>= fun _ => pure ()) { k with sched := enter k.sched p r.eax } = _
  have hserved : serve m p r args { k with sched := enter k.sched p r.eax } =
      .ok (res, r') { k₂ with sched := leave k₂.sched p r.eax r' res } := by
    unfold serve
    exact run_bind hdis
  rw [run_bind hserved]
  rfl

/-- What a call moves. -/
theorem transfer_call (n : Notes) (k' : State) {r r' : Regs} {args : List ℕ} {res : ℤ} {k₂ : State}
    (hcur : k.sched.current = some p)
    (hdis : dispatch m p r r.eax args { k with sched := enter k.sched p r.eax } = .ok (res, r') k₂) :
    (Input.event (.call r args)).transfer m n k k' = transferOf p r.eax args k res k' := by
  have hanswer : answer m r args k = some res := by
    unfold answer
    rw [hcur]
    simp only [hdis]
  unfold Input.transfer
  simp only [hcur, hanswer]

/-- A call that has neither suspended nor killed its caller goes back to it. -/
theorem leave_back {S : Sched} {no : ℕ} {r : Regs} {res : ℤ} (hcur : S.current = some p) (hres : res ≠ -ESUSPEND) :
    (leave S p no r res).current = some p := by
  rw [(leave_spec S p no r res).2.2, if_neg, hcur]
  rintro (h | h)
  · exact hres h
  · exact h hcur

/-- **A call of the current process** whose handler returns. -/
theorem Run.call {r r' : Regs} {args : List ℕ} {res : ℤ} {k₂ : State} (h : Run m P n B k)
    (hcur : k.sched.current = some p) (hP : P n k (.event (.call r args)))
    (hdis : dispatch m p r r.eax args { k with sched := enter k.sched p r.eax } = .ok (res, r') k₂) :
    Run m P (n.next (.event (.call r args)) k { k₂ with sched := leave k₂.sched p r.eax r' res })
      (B.next m n (.event (.call r args)) k { k₂ with sched := leave k₂.sched p r.eax r' res })
      { k₂ with sched := leave k₂.sched p r.eax r' res } :=
  h.step (.event (.call r args)) hP (react_dispatch n.input hcur hdis)

/-! ### One and two processes -/

/-- The kernel heap at boot, over the given memory. -/
def heapOver (bytes : Memory) : Heap := buddyInit KERNEL_MEM_SIZEPOW2 KERNEL_MEM_BASE (fun _ => ⟨0, false⟩) bytes

/-- The processes when the first one has been started and runs. -/
def oneProcess : Sched := contextSwitch (install Sched.boot 1 (startedProc 1 0)) Regs.zero

theorem oneProcess_procs :
    oneProcess.procs = Function.update (fun _ => Proc.zero) 1 { startedProc 1 0 with ready := true } := rfl

/-- The processes when the first one has forked. -/
def twoProcesses : Sched :=
  leave (install (enter oneProcess 1 SYSCALL_FORK) 2 (forkedProc (enter oneProcess 1 SYSCALL_FORK) 1 2 forkRegs)) 1
    SYSCALL_FORK forkRegs 2

theorem good_oneProcess : Good oneProcess := by
  apply Good.contextSwitch
  apply good_boot.install
  · rfl
  · rfl
  · rfl
  · rfl
  · intro q hq
    cases hq

theorem good_twoProcesses : Good twoProcesses := by
  apply Good.leave
  exact (good_oneProcess.enter 1 SYSCALL_FORK).fork (r := forkRegs) (p := 1) ⟨rfl, rfl⟩ rfl

/-- **One process** is started and gets the processor.  Its books are empty, the kernel writes to its standard input, and
its address space does not depend on what the heap held before. -/
theorem run_started (m : Machine) {bytes : Memory} (hroom : Roomy (heapOver bytes)) (hstart : ∀ n k, P n k (.event (.start 0)))
    (hswitch : ∀ n k, P n k (.event (.switch Regs.zero))) :
    ∃ n B k, (Run m P n B k ∧ Mapped m k ∧ k.sched = oneProcess ∧ Openable k 1 ∧
      k.cwd 1 = [char '/'] ∧ Serves (heapOver bytes) k.heap ∧
      (∃ b pb, Reads k.filedesc k.handles 1 0 b ∧ k.pipes b = some pb) ∧ Standard k 1) ∧
      B.sent 1 = [] ∧ B.received 1 = [] ∧
      (∃ b, Reads k.filedesc k.handles 1 0 b ∧ n.std b = true ∧ n.input = some b ∧ B.written b = []) ∧
      ∃ pdir, startPages m (Pages.boot fun _ => 0) = .ok (pdir, k.pages) ∧ k.space 1 = initialSpace pdir := by
  let k₀ := State.boot (fun _ => 0) bytes fun _ => ⟨0, false⟩
  have h₀ : Run m P Notes.boot Books.boot k₀ := .boot _ _ _
  obtain ⟨forked, asp, hsafe⟩ : Mapped m k₀ := mapped_boot _ _ _
  obtain ⟨k₁, hk₁, hs₁, hopen, hcwd, hserves, hstandard, pdir, hpdir, hspace⟩ := perform_start (k := k₀) (p := 1) hsafe rfl hroom 0
  let k₂ : State := { k₁ with sched := contextSwitch k₁.sched Regs.zero }
  have h₁ := h₀.step (.event (.start 0)) (hstart _ _) hk₁
  have h₂ : Run m P _ _ k₂ := h₁.step (.event (.switch Regs.zero)) (hswitch _ _) rfl
  have hs₂ : k₂.sched = oneProcess := by
    show contextSwitch k₁.sched Regs.zero = _
    rw [hs₁]
    rfl
  have hG₁ : Good k₁.sched := by
    rw [hs₁]
    exact good_boot.install rfl rfl rfl rfl fun q hq => by cases hq
  have hG₂ : Good k₂.sched := by
    rw [hs₂]
    exact good_oneProcess
  have hok₁ : react m Notes.boot.input (.event (.start 0)) k₀ = .ok () k₁ := hk₁
  have hmap₁ : Mapped m k₁ :=
    Mapped.react (n := Notes.boot) (i := .event (.start 0)) ⟨forked, asp, hsafe⟩ hG₁ trivial trivial hok₁
  obtain ⟨b, pb, hreads, hpipe⟩ : ∃ b pb, Reads k₁.filedesc k₁.handles 1 0 b ∧ k₁.pipes b = some pb := by
    obtain ⟨res, k', hproc, hpure⟩ := bind_ok hk₁
    cases hpure
    have hstarted := ((whole_boot (fun _ => 0) bytes fun _ => ⟨0, false⟩).startProcess m 0).ok rfl hproc
    rcases hstarted with ⟨-, hnone, -⟩ | ⟨pid, b, -, hs, -⟩
    · cases hnone
    · obtain rfl : 1 = pid := Option.some.inj hs.free
      obtain ⟨pb, hpb⟩ := hs.pipes
      refine ⟨b, pb, hs.reads, ?_⟩
      show k₁.objects.pipes b = some pb
      rw [hpb]
      exact Function.update_self _ _ _
  refine ⟨_, _, k₂, ⟨h₂, hmap₁.sched hG₂ (live_contextSwitch k₁.sched Regs.zero), hs₂, hopen, hcwd, hserves,
    ⟨b, pb, hreads, hpipe⟩, hstandard⟩, ?_, ?_, ⟨b, hreads, ?_, endAt_of_reads hreads, ?_⟩, pdir, hpdir, hspace⟩
  · simp only [Books.next, Books.renew, Input.transfer, Books.record]
    split_ifs
    all_goals rfl
  · simp only [Books.next, Books.renew, Input.transfer, Books.record]
    split_ifs
    all_goals rfl
  · show (false || ((k₀.pipes b).isNone && (k₁.pipes b).isSome)) = true
    rw [hpipe]
    rfl
  · simp only [Books.next, Books.renew, Input.transfer, Books.record]
    split_ifs
    all_goals rfl

theorem run_start (m : Machine) {bytes : Memory} (hroom : Roomy (heapOver bytes))
    (hstart : ∀ n k, P n k (.event (.start 0))) (hswitch : ∀ n k, P n k (.event (.switch Regs.zero))) :
    ∃ n B k, Run m P n B k ∧ Mapped m k ∧ k.sched = oneProcess ∧ Openable k 1 ∧
      k.cwd 1 = [char '/'] ∧ Serves (heapOver bytes) k.heap ∧
      (∃ b pb, Reads k.filedesc k.handles 1 0 b ∧ k.pipes b = some pb) ∧ Standard k 1 := by
  obtain ⟨n, B, k, h, -⟩ := run_started m hroom hstart hswitch
  exact ⟨n, B, k, h⟩

theorem fair_fork (n : Notes) (k : State) :
    (Input.event (.call forkRegs [])).Fair n k ∧ (Input.event (.call forkRegs [])).Modest := by
  refine ⟨?_, fun hno => absurd hno (by decide)⟩
  intro p _
  exact ⟨fun hno => absurd hno (by decide), fun hno => absurd hno (by decide)⟩

/-- **Two processes**: the first one forks. -/
theorem run_fork {bytes : Memory} (hroom : Roomy (heapOver bytes)) (hstart : ∀ n k, P n k (.event (.start 0)))
    (hswitch : ∀ n k, P n k (.event (.switch Regs.zero))) (hfork : ∀ n k, P n k (.event (.call forkRegs []))) :
    ∃ n B k, Run Machine.bare P n B k ∧ Mapped Machine.bare k ∧ k.sched = twoProcesses ∧
      Serves (heapOver bytes) k.heap := by
  obtain ⟨n, B, k, h, hmap, hs, hopen, -, hserves, -⟩ := run_start Machine.bare hroom hstart hswitch
  have hcur : k.sched.current = some 1 := by
    rw [hs]
    rfl
  have hfree : getFreePid k.sched = some 2 := by
    rw [hs]
    rfl
  obtain ⟨forked, asp, hsafe⟩ := hmap
  obtain ⟨k', hk', hs', hh'⟩ := perform_fork (r := forkRegs) [] hsafe hcur rfl hfree hopen
  have hs₂ : k'.sched = twoProcesses := by
    rw [hs', hs]
    rfl
  have hG' : Good k'.sched := by
    rw [hs₂]
    exact good_twoProcesses
  obtain ⟨hfair, hmodest⟩ := fair_fork n k
  have hok : react Machine.bare n.input (.event (.call forkRegs [])) k = .ok () k' := hk'
  refine ⟨_, _, k', h.step (.event (.call forkRegs [])) (hfork _ _) hok, ?_, hs₂, ?_⟩
  · exact Mapped.react (i := .event (.call forkRegs [])) ⟨forked, asp, hsafe⟩ hG' hfair hmodest hok
  · rw [hh']
    exact hserves

/-- After the first process has been started, requests are served that would be served behind those for it. -/
theorem allocs_of_serves {h₀ h : Heap} {ns : List ℕ} (hok : (allocs (startSizes ++ ns) h₀).isOk = true)
    (hs : Serves h₀ h) : ∃ as h', allocs ns h = .ok (as, h') := by
  obtain ⟨a₁, h₁, a₂, h₂, a₃, h₃, a₄, h₄, a₅, e₁, e₂, e₃, e₄, e₅⟩ := hs
  cases hres : allocs (startSizes ++ ns) h₀ with
  | error e =>
    rw [hres] at hok
    cases hok
  | ok x =>
    obtain ⟨as, h'⟩ := x
    obtain ⟨_, _, _, e₁', hres, -⟩ := allocs_inv hres
    cases e₁.symm.trans e₁'
    obtain ⟨_, _, _, e₂', hres, -⟩ := allocs_inv hres
    cases e₂.symm.trans e₂'
    obtain ⟨_, _, _, e₃', hres, -⟩ := allocs_inv hres
    cases e₃.symm.trans e₃'
    obtain ⟨_, _, _, e₄', hres, -⟩ := allocs_inv hres
    cases e₄.symm.trans e₄'
    obtain ⟨_, bs, _, e₅', hres, -⟩ := allocs_inv hres
    cases e₅.symm.trans e₅'
    exact ⟨bs, h', hres⟩

/-- The sixth request is served too. -/
theorem alloc_of_serves {h₀ h : Heap} {N : ℕ} (hok : (allocs (startSizes ++ [N]) h₀).isOk = true) (hs : Serves h₀ h) :
    ∃ a h', buddyAlloc .kernel h N = .ok (a, h') := by
  obtain ⟨as, h₁, hres⟩ := allocs_of_serves hok hs
  obtain ⟨a, -, h', halloc, -⟩ := allocs_inv hres
  exact ⟨a, h', halloc⟩

/-- **A store by user code** into the ranges is carried out, and changes one byte. -/
theorem react_store {a : ℕ} (input : Option ℕ) (b : UInt8) (hmap : Mapped m k) (hcur : k.sched.current = some p)
    (ha : a < wordSize) (hr : (k.space p).InRange a) :
    ∃ M, react m input (.event (.store a b)) k = .ok () { k with pages := { k.pages with mem := M } } ∧
      Mapped m { k with pages := { k.pages with mem := M } } ∧
      ∀ y < wordSize, userByte { k with pages := { k.pages with mem := M } } p y = if y = a then b else userByte k p y := by
  obtain ⟨forked, asp, hsafe⟩ := id hmap
  have hp := hsafe.good.current_live hcur
  obtain ⟨htr, -, -, hframe⟩ := hsafe.user_page hp ha hr
  have hphys : physical k p a = .ok (frameOf k p a + a % PAGE_SIZE) := by
    unfold physical
    rw [htr]
    exact if_neg (by have := hframe.facts.2.1; omega)
  have hstore : storeMapped p a b k = .ok () (k.storeAt (frameOf k p a + a % PAGE_SIZE) b) := by
    unfold storeMapped
    rw [hphys]
  obtain ⟨hmap', -, hbytes⟩ := hmap.seesStored hp ha hstore
  refine ⟨_, ?_, hmap', hbytes⟩
  show asCurrent (storeWith a b) k = _
  unfold asCurrent storeWith
  rw [run_get, hcur]
  simp only [run_get, Nat.mod_eq_of_lt ha]
  rw [if_pos ((hsafe.writable_iff hp ha).mpr hr)]
  exact hstore

/-- **Stores by user code**, one after the other, keep what each of them keeps. -/
theorem stores_kept {I : Notes → State → Prop} {a : ℕ} (bs : List UInt8)
    (hstep : ∀ n k k' a b, I n k → react m n.input (.event (.store a b)) k = .ok () k' →
      I (n.next (.event (.store a b)) k k') k')
    (h : I n k) (hmap : Mapped m k) (hcur : k.sched.current = some p) (hfit : a + bs.length ≤ wordSize)
    (hr : ∀ i < bs.length, (k.space p).InRange (a + i)) :
    ∃ n' M, I n' { k with pages := { k.pages with mem := M } } ∧ Mapped m { k with pages := { k.pages with mem := M } } ∧
      n'.input = n.input ∧ n'.std = n.std ∧ ∀ y < wordSize, userByte { k with pages := { k.pages with mem := M } } p y =
        if a ≤ y ∧ y < a + bs.length then bs.getD (y - a) 0 else userByte k p y := by
  induction bs generalizing a n k with
  | nil =>
    refine ⟨n, k.pages.mem, h, hmap, rfl, rfl, fun y _ => ?_⟩
    rw [if_neg (by simp only [List.length_nil]; omega)]
  | cons b bs ih =>
    rw [List.length_cons] at hfit
    obtain ⟨M₁, hok, hmap₁, hb₁⟩ := react_store (a := a) n.input b hmap hcur (by omega) (hr 0 (by simp))
    obtain ⟨n₂, M₂, h₂, hmap₂, hin₂, hstd₂, hb₂⟩ := ih (a := a + 1) (hstep _ _ _ _ _ h hok) hmap₁ hcur (by omega) (by
      intro i hi
      rw [Nat.add_assoc, Nat.add_comm 1 i]
      exact hr (i + 1) (by simpa using hi))
    refine ⟨n₂, M₂, h₂, hmap₂, hin₂, hstd₂, fun y hy => ?_⟩
    rw [hb₂ y hy, List.length_cons]
    by_cases hlater : a + 1 ≤ y ∧ y < a + 1 + bs.length
    · rw [if_pos hlater, if_pos (by omega), show y - a = (y - (a + 1)) + 1 by omega, List.getD_cons_succ]
    · rw [if_neg hlater, hb₁ y hy]
      by_cases hfirst : y = a
      · rw [if_pos hfirst, if_pos (by omega), hfirst, Nat.sub_self, List.getD_cons_zero]
      · rw [if_neg hfirst, if_neg (by omega)]

/-- The same along a run. -/
theorem Run.stores {a : ℕ} (bs : List UInt8) (h : Run m P n B k) (hmap : Mapped m k) (hcur : k.sched.current = some p)
    (hfit : a + bs.length ≤ wordSize) (hr : ∀ i < bs.length, (k.space p).InRange (a + i))
    (hP : ∀ n k a b, P n k (.event (.store a b))) :
    ∃ n' B' k', Run m P n' B' k' ∧ Mapped m k' ∧ k'.sched = k.sched ∧ k'.cwd = k.cwd ∧ k'.space = k.space ∧
      k'.heap = k.heap ∧ ∀ y < wordSize, userByte k' p y =
        if a ≤ y ∧ y < a + bs.length then bs.getD (y - a) 0 else userByte k p y := by
  obtain ⟨n', M, ⟨B', h'⟩, hmap', -, -, hbytes⟩ := stores_kept (I := fun n k => ∃ B, Run m P n B k) bs
    (fun n k k' a b hrun hok => by
      obtain ⟨B, hrun⟩ := hrun
      exact ⟨_, hrun.step _ (hP _ _ _ _) hok⟩) ⟨B, h⟩ hmap hcur hfit hr
  exact ⟨n', B', _, h', hmap', rfl, rfl, rfl, rfl, hbytes⟩

/-- The lowest address of the stack. -/
abbrev STACK_LOW : ℕ := PROCESS_STACK_BASE - PROCESS_STACK_SIZE

/-- The bytes `bs` are on the stack of process 1, from `a` on. -/
structure OnStack (k : State) (a : ℕ) (bs : List UInt8) : Prop where
  low : STACK_LOW ≤ a
  high : a + bs.length ≤ PROCESS_STACK_BASE
  stack : ∀ x, STACK_LOW ≤ x → x < PROCESS_STACK_BASE → (k.space 1).InRange x
  bytes : ∀ i < bs.length, userByte k 1 (a + i) = bs.getD i 0

theorem OnStack.address {a i j : ℕ} {bs : List UInt8} (h : OnStack k a bs) (hij : i + j ≤ bs.length) :
    offset (a + i) j = a + (i + j) := by
  have hhigh := h.high
  rw [offset_of_lt, Nat.add_assoc]
  simp only [PROCESS_STACK_BASE, wordSize] at *
  omega

theorem OnStack.byte {a i j : ℕ} {bs : List UInt8} (h : OnStack k a bs) (hij : i + j < bs.length) :
    userByte k 1 (offset (a + i) j) = bs.getD (i + j) 0 := by
  rw [h.address hij.le, h.bytes _ hij]

theorem OnStack.region {a i size : ℕ} {bs : List UInt8} (h : OnStack k a bs) (hfit : i + size ≤ bs.length) :
    (k.space 1).Region (a + i) size := by
  intro j hj
  rw [h.address (by omega)]
  exact h.stack _ (h.low.trans (Nat.le_add_right _ _)) ((show _ < a + bs.length by omega).trans_le h.high)

theorem OnStack.word {a i j w : ℕ} {bs : List UInt8} (h : OnStack k a bs) (hfit : i + j + 4 ≤ bs.length)
    (hw : ∀ l < 4, bs.getD (i + j + l) 0 = (wordBytes w).getD l 0) : userWord k 1 (offset (a + i) j) = w % wordSize := by
  apply userWord_of_bytes
  intro l hl
  rw [offset_offset, h.byte (by omega), ← hw l hl, Nat.add_assoc]

/-- A string among the bytes. -/
theorem OnStack.string {a : ℕ} {bs : List UInt8} (h : OnStack k a bs) (i : ℕ) (text : List UInt8) (hz : (0 : UInt8) ∉ text)
    (hfit : i + text.length < bs.length) (htext : ∀ j ≤ text.length, bs.getD (i + j) 0 = text.getD j 0) :
    StringAt k 1 (a + i) ∧ StringIs k 1 (a + i) text := by
  have hbyte : ∀ j ≤ text.length, userByte k 1 (offset (a + i) j) = text.getD j 0 := fun j hj => by
    rw [h.byte (by omega), htext j hj]
  refine ⟨⟨text.length, h.region (by omega), ?_⟩, hz, hbyte⟩
  rw [hbyte _ (Nat.le_refl _), List.getD_eq_default _ _ (Nat.le_refl _)]

/-- **One process that has written to its stack.** -/
theorem run_written (m : Machine) (off : ℕ) (bs : List UInt8) (hfit : STACK_LOW + off + bs.length ≤ PROCESS_STACK_BASE) :
    ∃ n B k, Run m (fun n k i => i.Fair n k ∧ i.Modest) n B k ∧ Mapped m k ∧ k.sched = oneProcess ∧
      k.cwd 1 = [char '/'] ∧ Serves bootHeap k.heap ∧ (k.space 1).textEnd = PROCESS_TEXT_BASE ∧
      OnStack k (STACK_LOW + off) bs := by
  obtain ⟨n, B, k, ⟨h, hmap, hs, -, hcwd, hserves, -⟩, -, -, -, pdir, -, hspace⟩ := run_started m
    (P := fun n k i => i.Fair n k ∧ i.Modest) roomy_boot (fun _ _ => ⟨trivial, trivial⟩) fun _ _ => ⟨trivial, trivial⟩
  have hcur : k.sched.current = some 1 := by
    rw [hs]
    rfl
  have hstack : ∀ a, STACK_LOW ≤ a → a < PROCESS_STACK_BASE → (k.space 1).InRange a := by
    intro a h1 h2
    right; right
    rw [hspace]
    exact ⟨h1, h2⟩
  have hword : PROCESS_STACK_BASE ≤ wordSize := by decide
  obtain ⟨n', B', k', h', hmap', hs', hcwd', hsp', hheap', hbytes⟩ := h.stores (a := STACK_LOW + off) bs hmap hcur
    (hfit.trans hword) (fun i hi => hstack _ (by omega) (by omega)) fun _ _ _ _ => ⟨trivial, trivial⟩
  refine ⟨n', B', k', h', hmap', hs'.trans hs, by rw [hcwd', hcwd], by rw [hheap']; exact hserves, ?_,
    ⟨Nat.le_add_right _ _, hfit, ?_, fun i hi => ?_⟩⟩
  · rw [hsp', hspace]
    rfl
  · rw [hsp']
    exact hstack
  · rw [hbytes _ (by omega), if_pos (by omega), Nat.add_sub_cancel_left]

/-- **One process that has written a string** to its stack. -/
theorem run_text (m : Machine) (text : List UInt8) (hz : (0 : UInt8) ∉ text) (hlen : text.length < PROCESS_STACK_SIZE) :
    ∃ n B k, Run m (fun n k i => i.Fair n k ∧ i.Modest) n B k ∧ Mapped m k ∧ k.sched.Live 1 ∧ k.cwd 1 = [char '/'] ∧
      Serves bootHeap k.heap ∧ StringAt k 1 STACK_LOW ∧ StringIs k 1 STACK_LOW text := by
  have htop : STACK_LOW + PROCESS_STACK_SIZE = PROCESS_STACK_BASE := by decide
  have hends : (text ++ [0]).length = text.length + 1 := by rw [List.length_append, List.length_singleton]
  obtain ⟨n, B, k, h, hmap, hs, hcwd, hheap, -, hon⟩ := run_written m 0 (text ++ [0]) (by omega)
  refine ⟨n, B, k, h, hmap, ?_, hcwd, hheap, hon.string 0 text hz (by omega) fun j hj => ?_⟩
  · rw [hs]
    exact ⟨rfl, rfl⟩
  · rw [Nat.zero_add, List.getD_eq_getElem?_getD, List.getD_eq_getElem?_getD]
    by_cases hend : j = text.length
    · rw [hend, List.getElem?_concat_length, List.getElem?_eq_none (Nat.le_refl _)]
      rfl
    · rw [List.getElem?_append_left (by omega)]

end AdelaideOS.Kernel
