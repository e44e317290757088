import AdelaideOS.Kernel.Detaching
import AdelaideOS.Kernel.Keyboard

/-!
# Pipes over whole histories

* **`streams_of_run`** — pipes are queues of bytes;
* **`readers_of_run`** — a process is suspended in a read exactly if its pipe says so.
-/

namespace AdelaideOS.Kernel

open AdelaideOS.Buddy AdelaideOS.Lib.Bytes AdelaideOS.Lib.Triple AdelaideOS.Lib.View AdelaideOS.Process

variable {m : Machine} {P : Notes → State → Input → Prop} {n : Notes} {B : Books} {C : Contents} {k k' : State} {p l : ℕ}
  {r : Regs} {args : List ℕ}

/-! ### Pipes as streams -/

/-- A read that returns 0 although it asks for bytes has met the end of the stream. -/
theorem Whole.ends {b : ℕ} {pb : PipeBuffer} (h : Whole n C k.objects) (hserve : n.serving = none)
    (hsteady : Steady k.sched) (hcur : k.sched.current = some p) (hno : r.eax = SYSCALL_READ)
    (hend : endAt k p .pipeReader (toInt (args.getD 0 0)) = some b) (hb : k.pipes b = some pb)
    (hcount : args.getD 2 0 ≠ 0) (hzero : answer m r args k = some 0) :
    pb.len = 0 ∧ n.std b = false ∧ ¬ Held k .pipeWriter b := by
  have hserving := h.enter hserve hcur hsteady r.eax args
  have hcall : ((Process.enter k.sched p r.eax).procs p).inSyscall = SYSCALL_READ := by
    rw [enter_proc, hno]
    exact if_pos rfl
  have hread := Serving.syscallRead (m := m) (k := { k with sched := Process.enter k.sched p r.eax }) hserving hcall
    m.filesystem (Function.update_self _ _ _)
  have hdis : Kernel.dispatch m p r SYSCALL_READ args =
      keep r (syscallRead m.filesystem p (toInt (args.getD 0 0)) (args.getD 1 0) (args.getD 2 0)) := rfl
  unfold answer at hzero
  simp only [hcur, hno, hdis] at hzero
  cases hrun : keep r (syscallRead m.filesystem p (toInt (args.getD 0 0)) (args.getD 1 0) (args.getD 2 0))
      { k with sched := Process.enter k.sched p SYSCALL_READ } with
  | error e k' =>
    rw [hrun] at hzero
    cases hzero
  | ok x k' =>
    rw [hrun] at hzero
    obtain ⟨res, k₂, hok, hpure⟩ := bind_ok hrun
    cases hpure
    obtain rfl : res = 0 := Option.some.inj hzero
    rw [hno] at hread
    obtain ⟨pb', hb', hlen, hw⟩ := (hread.ok rfl hok).2 b hend rfl hcount
    rw [show k.pipes b = some pb from hb] at hb'
    cases hb'
    have hrefs := h.references
    have hstd : n.std b = false := by
      cases hs : n.std b with
      | false => rfl
      | true =>
        obtain ⟨pb', hb', hw'⟩ := h.tidy.paired.std b hs
        rw [show k.objects.pipes b = some pb from hb] at hb'
        cases hb'
        rw [hw] at hw'
        cases hw'
    refine ⟨hlen, hstd, ?_⟩
    rw [← hrefs.writing b pb hb hstd, hw]
    decide

/-- **Pipes are streams.**  In every history, what was read from a pipe followed by what it holds is what was written
to it, its buffer is an allocated block with room for what it holds, and a read that asks for bytes returns none only
at the end of the stream. -/
theorem streams_of_run {b : ℕ} {pb : PipeBuffer} (h : Run m (fun n k i => i.Fair n k ∧ i.Modest) n B k)
    (hb : k.pipes b = some pb) :
    B.taken b ++ loadBytes k.heap.bytes pb.data pb.len = B.written b ∧ pb.len ≤ pb.alloc ∧
      Allocated kernelRegion k.heap pb.data pb.alloc ∧
      ∀ p r args, k.sched.current = some p → r.eax = SYSCALL_READ →
        endAt k p .pipeReader (toInt (args.getD 0 0)) = some b → args.getD 2 0 ≠ 0 → answer m r args k = some 0 →
        pb.len = 0 ∧ n.std b = false ∧ ¬ Held k .pipeWriter b := by
  obtain ⟨hserve, hsteady, C, hwhole, hbooks⟩ := h.standing fun _ _ _ hi => hi.1
  obtain ⟨-, hbal⟩ := hbooks fun _ _ _ hi => hi.2
  obtain ⟨htext, hfits, halloc⟩ := hwhole.stream hb
  refine ⟨?_, hfits, halloc, ?_⟩
  · rw [htext]
    apply hbal.pipes
    rw [hb]
    simp
  · intro p r args hcur hno hend hcount hzero
    exact hwhole.ends hserve hsteady hcur hno hend hb hcount hzero

/-- A key is pressed while the first process runs. -/
theorem Run.press {b : ℕ} (h : Run m P n B k) (hlisten : Listening m n k b l) (hl : l < BUFSIZE) (c : UInt8)
    (hfair : ∀ n k i, P n k i → i.Fair n k) (hP : P n k (.key firstRegs c)) :
    ∃ n' B' k', Run m P n' B' k' ∧ Listening m n' k' b (l + 1) ∧ B'.written b = B.written b ++ [c] := by
  obtain ⟨-, -, C, hwhole, -⟩ := h.standing hfair
  obtain ⟨k', htype, hlisten'⟩ := hlisten.press hl c
  exact ⟨_, _, _, h.step (.key firstRegs c) hP (run_bind htype), hlisten' _ rfl, (written_next hwhole hlisten.input).2⟩

/-- The first process reads. -/
theorem Run.read {b count : ℕ} (h : Run m P n B k) (hlisten : Listening m n k b l) (hl : 0 < l) (hcount : count ≤ BUFSIZE)
    (hfair : ∀ n k i, P n k i → i.Fair n k) (hP : P n k (.event (.call readRegs [0, STACK_LOW, count]))) :
    ∃ n' B' k', Run m P n' B' k' ∧ Listening m n' k' b (l - min count l) ∧ B'.written b = B.written b := by
  obtain ⟨-, -, C, hwhole, -⟩ := h.standing hfair
  obtain ⟨k', hdis, hlisten'⟩ := hlisten.read (r := readRegs) rfl hl hcount
  refine ⟨_, _, _, h.call hlisten.current hP hdis, hlisten' _ rfl, ?_⟩
  exact (written_next hwhole hlisten.input).2.trans (List.append_nil _)

/-- **Two characters** are typed, and the first process reads one of them. -/
theorem streams_of_typing :
    ∃ n B k b pb, Run Machine.bare (fun n k i => i.Fair n k ∧ i.Modest) n B k ∧ k.pipes b = some pb ∧
      B.written b = [char 'a', char 'b'] ∧ B.taken b = [char 'a'] ∧
      loadBytes k.heap.bytes pb.data pb.len = [char 'b'] := by
  obtain ⟨n, B, k, b, h, hlisten, -, -, hw, -⟩ := run_listening Machine.bare (P := fun n k i => i.Fair n k ∧ i.Modest)
    roomy_boot (fun _ _ _ h => h) (fun _ _ => ⟨trivial, trivial⟩) fun _ _ => ⟨trivial, trivial⟩
  obtain ⟨n₁, B₁, k₁, h₁, hlisten₁, hw₁⟩ := h.press hlisten (by decide) (char 'a') (fun _ _ _ h => h.1) ⟨trivial, trivial⟩
  obtain ⟨n₂, B₂, k₂, h₂, hlisten₂, hw₂⟩ := h₁.press hlisten₁ (by decide) (char 'b') (fun _ _ _ h => h.1) ⟨trivial, trivial⟩
  obtain ⟨n₃, B₃, k₃, h₃, hlisten₃, hw₃⟩ := h₂.read hlisten₂ (by decide) (show 1 ≤ BUFSIZE by decide) (fun _ _ _ h => h.1)
    (fair_read _ _ _)
  obtain ⟨pb, hb, hlen, -⟩ := hlisten₃.pipe
  have hstream := (streams_of_run h₃ hb).1
  have hwritten : B₃.written b = [char 'a'] ++ [char 'b'] := by
    rw [hw₃, hw₂, hw₁, hw]
    rfl
  rw [hwritten] at hstream
  obtain ⟨htaken, hheld⟩ := List.append_inj' hstream (by rw [loadBytes_length, hlen]; rfl)
  exact ⟨n₃, B₃, k₃, b, pb, h₃, hb, hwritten, htaken, hheld⟩

/-! ### Blocked readers -/

/-- **Readers are blocked correctly.**  In every history, a process is suspended in a read from a pipe exactly if the
pipe records it as its reader, and then the pipe is empty and open for writing; a pipe has one suspended reader at
most; and waking up finds a suspended process. -/
theorem readers_of_run (h : Run m (fun n k i => i.Fair n k) n B k) :
    (∀ q b, SuspendedOn n k.objects q b ↔ ∃ pb, k.pipes b = some pb ∧ pb.readpid = some q) ∧
      (∀ q, Parked k.sched.procs SYSCALL_READ q → ∃ b, SuspendedOn n k.objects q b) ∧
      (∀ q b, SuspendedOn n k.objects q b → ∃ pb, k.pipes b = some pb ∧ pb.len = 0 ∧ pb.writing = true) ∧
      (∀ q q' b, SuspendedOn n k.objects q b → SuspendedOn n k.objects q' b → q = q') ∧
      ∀ i e k', i.Fair n k → react m n.input i k = .error e k' → e ≠ .assertion .resumeProcess := by
  obtain ⟨hserve, hsteady, C, hwhole, -⟩ := h.standing fun _ _ _ hi => hi
  have hwaits := hwhole.waits
  have hrecord : ∀ q b, SuspendedOn n k.objects q b → ∃ pb, k.pipes b = some pb ∧ pb.readpid = some q := by
    intro q b hq
    obtain ⟨b', pb, hb', hr⟩ := hwaits.parked q hq.1
    have hbb : b = b' := hq.unique (hwaits.reader b' pb q hb' hr).1
    rw [hbb]
    exact ⟨pb, hb', hr⟩
  refine ⟨?_, ?_, ?_, ?_, ?_⟩
  · intro q b
    refine ⟨hrecord q b, ?_⟩
    rintro ⟨pb, hb, hr⟩
    exact (hwaits.reader b pb q hb hr).1
  · intro q hq
    obtain ⟨b, pb, hb, hr⟩ := hwaits.parked q hq
    exact ⟨b, (hwaits.reader b pb q hb hr).1⟩
  · intro q b hq
    obtain ⟨pb, hb, hr⟩ := hrecord q b hq
    exact ⟨pb, hb, (hwaits.reader b pb q hb hr).2⟩
  · intro q q' b hq hq'
    obtain ⟨pb, hb, hr⟩ := hrecord q b hq
    obtain ⟨pb', hb', hr'⟩ := hrecord q' b hq'
    rw [hb] at hb'
    cases hb'
    rw [hr] at hr'
    exact Option.some.inj hr'
  · rintro i e k' hi herr rfl
    exact absurd ((hwhole.react hserve hsteady hi).error rfl herr .resumeProcess rfl) (by decide)


/-- **The first process waits for input**: it is the reader of its standard input, which is empty. -/
theorem readers_of_blocked :
    ∃ n B k b, Run Machine.bare (fun n k i => i.Fair n k) n B k ∧ SuspendedOn n k.objects 1 b ∧
      (∃ pb, k.pipes b = some pb ∧ pb.readpid = some 1) ∧ (∃ pb, k.pipes b = some pb ∧ pb.len = 0 ∧ pb.writing = true) ∧
      ∀ q, SuspendedOn n k.objects q b → q = 1 := by
  obtain ⟨n, B, k, b, h, -, hon, -⟩ := run_blocked
  have hfair := h.refine (Q := fun n k i => i.Fair n k) fun _ _ _ _ _ hi => hi.1
  obtain ⟨hreader, -, hempty, honly, -⟩ := readers_of_run hfair
  exact ⟨n, B, k, b, hfair, hon, (hreader 1 b).mp hon, hempty 1 b hon, fun q hq => honly q 1 b hq hon⟩

end AdelaideOS.Kernel
