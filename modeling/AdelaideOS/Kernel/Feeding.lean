import AdelaideOS.Kernel.Buffers
import AdelaideOS.Kernel.Pipes
import AdelaideOS.Kernel.Records

/-!
# Bytes that go through a pipe

Which writes to a pipe and which reads from it succeed.  `Listening` is the first process after boot, which has the
processor to itself: keys are pressed, and it reads what was typed.

* **`writeToPipe_fits`** — a write for which there is room;
* **`syscallRead_takes`**, **`syscallRead_suspends`** — a read that finds bytes, and one that finds none;
* **`syscallPipe_ok`** — a new pipe;
* **`Listening.press`**, **`Listening.read`** — a key, and a read of the first process;
* **`run_listening`** — the first process after boot.
-/

namespace AdelaideOS.Kernel

open AdelaideOS.Buddy AdelaideOS.Lib.Bytes AdelaideOS.Lib.Triple AdelaideOS.Lib.View AdelaideOS.Page AdelaideOS.Process

variable {m : Machine} {P : Notes → State → Input → Prop} {n : Notes} {C : Contents} {k k' : State} {S' : Sched} {p b l : ℕ}
  {pb : PipeBuffer}

/-! ### Writes and reads -/

/-- **A write for which there is room.** -/
theorem writeToPipe_fits (source : K (List UInt8)) {bs : List UInt8} (hb : k.pipes b = some pb)
    (hroom : pb.len + bs.length ≤ pb.alloc) (hsmall : pb.len + bs.length < wordSize) (hsource : source k = .ok bs k)
    (hrouse : wake k.sched pb.readpid = .ok S') : writeToPipe b bs.length source k = .ok () { k with
      heap := { k.heap with bytes := storeBytes k.heap.bytes (pb.data + pb.len) bs }
      pipes := Function.update k.pipes b (some { pb with len := pb.len + bs.length, readpid := none })
      sched := S' } := by
  have hgrow : growPipe b bs.length k = .ok pb k := by
    unfold growPipe
    rw [run_bind (getPipe_ok hb), Nat.mod_eq_of_lt hsmall, if_neg (Nat.not_lt_of_le hroom)]
    rfl
  let k₁ : State := { k with
    heap := { k.heap with bytes := storeBytes k.heap.bytes (pb.data + pb.len) bs }
    pipes := Function.update k.pipes b (some { pb with len := pb.len + bs.length }) }
  have hb₁ : k₁.pipes b = some { pb with len := pb.len + bs.length } := Function.update_self _ _ _
  unfold writeToPipe
  rw [run_bind hgrow, run_bind hsource, run_bind (storeBlock_fits hroom), Nat.mod_eq_of_lt hsmall]
  show wakeUpReader b k₁ = _
  unfold wakeUpReader
  rw [run_bind (getPipe_ok hb₁)]
  cases hr : pb.readpid with
  | none =>
    rw [hr] at hrouse
    cases hrouse
    simp only [← hr]
    rfl
  | some q =>
    rw [hr] at hrouse
    have hresume : schedDo (fun S => resumeProcess S q) k₁ = .ok () { k₁ with sched := S' } := by
      unfold schedDo
      simp only [show resumeProcess k₁.sched q = .ok S' from hrouse]
    simp only
    rw [run_bind hresume]
    show EStateM.Result.ok () { k₁ with pipes := Function.update k₁.pipes b _, sched := S' } = _
    simp only [k₁, Function.update_idem]

/-- How many bytes a read takes. -/
def takes (pb : PipeBuffer) (count : ℕ) : ℕ := if count < pb.len then count else pb.len

/-- **A read that finds bytes.** -/
theorem syscallRead_takes (fs : Memory) {fd : ℤ} {buf count : ℕ} (hreads : Reads k.filedesc k.handles p fd b)
    (hb : k.pipes b = some pb) (hr : pb.readpid = none) (hpos : 0 < pb.len) (hfit : pb.len ≤ pb.alloc) (hmap : Mapped m k)
    (hp : k.sched.Live p) (hvalid : validPointer (k.space p) buf count = true) (hregion : (k.space p).Region buf count) :
    ∃ Q log bytes, syscallRead fs p fd buf count k = .ok (toInt (takes pb count)) { k with
      pages := Q
      heap := { k.heap with bytes := bytes }
      pipes := Function.update k.pipes b (some { pb with len := pb.len - takes pb count })
      log := log } ∧ Mapped m { k with pages := Q, log := log } := by
  obtain ⟨hzero, htop, a, fh, hfd, hfh, hty, rfl⟩ := hreads
  have hlook : lookupFd k p fd = some a := by
    unfold lookupFd
    rw [if_neg (by omega)]
    exact hfd
  have hsome : takes pb count ≤ count ∧ takes pb count ≤ pb.len := by
    unfold takes
    split <;> omega
  obtain ⟨Q, log, hwrite⟩ := writeUserBytes_ok buf (loadBytes k.heap.bytes pb.data (takes pb count)) 0 hmap hp (by
    intro j hj
    rw [loadBytes_length] at hj
    rw [Nat.zero_add]
    exact hregion j (hj.trans_le hsome.1))
  refine ⟨Q, log, storeBytes k.heap.bytes (pb.data + 0)
    (loadBytes k.heap.bytes (pb.data + takes pb count) (pb.len - takes pb count)), ?_, (hmap.writes hp hwrite).1⟩
  unfold syscallRead
  rw [run_get, if_pos hvalid, hlook]
  simp only
  rw [run_bind (getHandle_ok hfh)]
  unfold readHandle
  rw [hty]
  simp only
  unfold pipeReaderRead
  rw [run_bind (getPipe_ok hb), if_neg (by simp [hr]), if_pos hpos]
  show takeFromPipe p fh.p pb buf count k = _
  unfold takeFromPipe
  rw [run_get]
  show (writeUserBytes p buf (loadBytes k.heap.bytes pb.data (takes pb count)) 0 >>= _) k = _
  rw [run_bind hwrite, run_get, run_bind (storeBlock_fits (by rw [loadBytes_length]; omega))]
  rfl

/-- **A read that finds none** suspends the caller. -/
theorem syscallRead_suspends (fs : Memory) {fd : ℤ} {buf count : ℕ} (hreads : Reads k.filedesc k.handles p fd b)
    (hb : k.pipes b = some pb) (hr : pb.readpid = none) (hlen : pb.len = 0) (hw : pb.writing = true)
    (hvalid : validPointer (k.space p) buf count = true) (hS : suspendProcess k.sched p = .ok S') :
    syscallRead fs p fd buf count k = .ok (-ESUSPEND) { k with
      pipes := Function.update k.pipes b (some { pb with readpid := some (k.sched.procs p).pid })
      sched := S' } := by
  obtain ⟨hpos, hlt, a, fh, hfd, hfh, hty, rfl⟩ := hreads
  have hlook : lookupFd k p fd = some a := by
    unfold lookupFd
    rw [if_neg (by omega)]
    exact hfd
  unfold syscallRead
  rw [run_get, if_pos hvalid, hlook]
  simp only
  rw [run_bind (getHandle_ok hfh)]
  unfold readHandle
  rw [hty]
  simp only
  unfold pipeReaderRead
  rw [run_bind (getPipe_ok hb), if_neg (by simp [hr]), if_neg (by omega), if_neg (by simp [hw]), run_get]
  have hsus : schedDo (fun S => suspendProcess S p) { k with
      pipes := Function.update k.pipes fh.p (some { pb with readpid := some (k.sched.procs p).pid }) } = .ok () { k with
      pipes := Function.update k.pipes fh.p (some { pb with readpid := some (k.sched.procs p).pid })
      sched := S' } := by
    unfold schedDo
    simp only [hS]
  exact run_bind hsus

/-- **A new pipe** for the two lowest unused descriptors. -/
theorem syscallPipe_ok {readfd writefd filedes data a a' : ℕ} {fds : List ℕ} {h : Heap} (hmap : Mapped m k)
    (hp : k.sched.Live p) (hvalid : validPointer (k.space p) filedes 8 = true) (hregion : (k.space p).Region filedes 8)
    (hfree : freeFds k p = readfd :: writefd :: fds)
    (halloc : allocs [24, BUFSIZE, 36, 36] k.heap = .ok ([b, data, a, a'], h)) :
    ∃ Q log, syscallPipe p filedes k = .ok 0 { k with
      pages := Q
      heap := h
      filedesc := Function.update k.filedesc p
        (Function.update (Function.update (k.filedesc p) readfd (some a)) writefd (some a'))
      handles := Function.update (Function.update k.handles a (some ⟨.pipeReader, 1, b, 0, 0, 0⟩)) a'
        (some ⟨.pipeWriter, 1, b, 0, 0, 0⟩)
      pipes := Function.update k.pipes b (some ⟨true, true, BUFSIZE, 0, none, data⟩)
      log := log } ∧ Mapped m { k with pages := Q, log := log } := by
  -- the four requests
  obtain ⟨_, _, h₁, e₁, halloc, hb⟩ := allocs_inv halloc
  obtain ⟨_, _, h₂, e₂, halloc, hdata⟩ := allocs_inv halloc
  obtain ⟨_, _, h₃, e₃, halloc, ha⟩ := allocs_inv halloc
  obtain ⟨_, _, h₄, e₄, hnil, ha'⟩ := allocs_inv halloc
  cases hnil
  cases ha'
  cases ha
  cases hdata
  cases hb
  let k₁ : State := { k with
    heap := h₂
    pipes := Function.update k.pipes b (some ⟨true, true, BUFSIZE, 0, none, data⟩) }
  have hpipe : newPipe k = .ok b k₁ := by
    unfold newPipe
    rw [run_bind (kmalloc_ok e₁), run_bind (kmalloc_ok (k := { k with heap := h₁ }) e₂)]
    rfl
  let k₂ : State := { k₁ with
    heap := h₃
    filedesc := Function.update k.filedesc p (Function.update (k.filedesc p) readfd (some a))
    handles := Function.update k.handles a (some ⟨.pipeReader, 1, b, 0, 0, 0⟩) }
  have hreader : (newPipeReader b >>= fun fh => setFd p readfd (some fh)) k₁ = .ok () k₂ := by
    unfold newPipeReader newHandle
    rw [bind_assoc, run_bind (kmalloc_ok e₃)]
    rfl
  let k₃ : State := { k₂ with
    heap := h
    filedesc := Function.update k.filedesc p
      (Function.update (Function.update (k.filedesc p) readfd (some a)) writefd (some a'))
    handles := Function.update (Function.update k.handles a (some ⟨.pipeReader, 1, b, 0, 0, 0⟩)) a'
      (some ⟨.pipeWriter, 1, b, 0, 0, 0⟩) }
  have hwriter : (newPipeWriter b >>= fun fh => setFd p writefd (some fh)) k₂ = .ok () k₃ := by
    unfold newPipeWriter newHandle
    rw [bind_assoc, run_bind (kmalloc_ok e₄)]
    show EStateM.Result.ok () { k₂ with
      heap := h
      filedesc := Function.update k₂.filedesc p (Function.update (k₂.filedesc p) writefd (some a'))
      handles := k₃.handles } = _
    simp only [k₂, k₃, Function.update_idem, Function.update_self]
  -- the two stores
  have hmap₃ : Mapped m k₃ := hmap
  obtain ⟨Q, log, hfirst⟩ := writeUserBytes_ok filedes (wordBytes readfd) 0 hmap₃ hp fun j hj => by
    rw [Nat.zero_add]
    exact hregion j (hj.trans_le (show 4 ≤ 8 by decide))
  obtain ⟨hmap₄, -⟩ := hmap₃.writes hp hfirst
  obtain ⟨Q', log', hsecond⟩ := writeUserBytes_ok (offset filedes 4) (wordBytes writefd) 0 hmap₄ hp fun j hj => by
    rw [Nat.zero_add, offset_offset]
    exact hregion (4 + j) (Nat.add_lt_add_left (show j < 4 from hj) 4)
  refine ⟨Q', log', ?_, (hmap₄.writes hp hsecond).1⟩
  have hsplit : openPipe p filedes readfd writefd = (newPipe >>= fun b =>
      (newPipeReader b >>= fun fh => setFd p readfd (some fh)) >>= fun _ =>
      (newPipeWriter b >>= fun fh => setFd p writefd (some fh)) >>= fun _ =>
      writeUserBytes p filedes (wordBytes readfd) 0 >>= fun _ =>
      writeUserBytes p (offset filedes 4) (wordBytes writefd) 0 >>= fun _ => pure 0) := by
    simp only [openPipe, bind_assoc]
  unfold syscallPipe
  rw [run_get, if_pos hvalid, hfree]
  show openPipe p filedes readfd writefd k = _
  rw [hsplit, run_bind hpipe, run_bind hreader, run_bind hwriter, run_bind hfirst]
  exact run_bind hsecond

/-! ### The first process -/

/-- The registers of the first process when it has not run yet. -/
def firstRegs : Regs := initRegs PROCESS_STACK_BASE 0

/-- The registers of a call of `read`. -/
def readRegs : Regs := { Regs.zero with eax := SYSCALL_READ }

theorem eq_oneProcess {S : Sched} (hS : S = { oneProcess with procs := S.procs })
    (hone : S.procs 1 = oneProcess.procs 1) (hrest : ∀ q, q ≠ 1 → S.procs q = oneProcess.procs q) : S = oneProcess := by
  have hprocs : S.procs = oneProcess.procs := by
    funext q
    by_cases hq : q = 1
    · rw [hq, hone]
    · exact hrest q hq
  rw [hS, hprocs]

/-- There is no other process to switch to. -/
theorem contextSwitch_oneProcess : contextSwitch oneProcess firstRegs = oneProcess :=
  eq_oneProcess rfl rfl fun _ hq => Function.update_of_ne hq _ _

/-- A system call that succeeds leaves no trace in the table. -/
theorem leave_oneProcess (no : ℕ) (r : Regs) {res : ℤ} (hres : 0 ≤ res) :
    leave (enter oneProcess 1 no) 1 no r res = oneProcess := by
  have hneg : ¬ res < 0 := by omega
  have hsus : res ≠ -ESUSPEND := by
    rintro rfl
    exact absurd hres (by decide)
  have hcur : (enter oneProcess 1 no).current = some 1 := rfl
  unfold leave storeErrno
  rw [hcur]
  by_cases hno : no = SYSCALL_GETERRNO
  · rw [if_neg (fun h => h.1 hno)]
    simp only [if_neg hsus]
    rw [if_pos (show ((enter oneProcess 1 no).set 1 _).current = some 1 from rfl)]
    refine eq_oneProcess rfl rfl fun q hq => ?_
    exact (Function.update_of_ne hq _ _).trans (Function.update_of_ne hq _ _)
  · rw [if_pos ⟨hno, hsus⟩]
    simp only [if_neg hneg, if_neg hsus]
    rw [if_pos (show (((enter oneProcess 1 no).set 1 _).set 1 _).current = some 1 from rfl)]
    refine eq_oneProcess rfl rfl fun q hq => ?_
    exact (Function.update_of_ne hq _ _).trans ((Function.update_of_ne hq _ _).trans (Function.update_of_ne hq _ _))

theorem fair_read (n : Notes) (k : State) (args : List ℕ) :
    (Input.event (.call readRegs args)).Fair n k ∧ (Input.event (.call readRegs args)).Modest :=
  ⟨fun _ _ => ⟨fun hno => absurd hno (by decide), fun hno => absurd hno (by decide)⟩, fun hno => absurd hno (by decide)⟩

theorem dispatch_read {r : Regs} {res : ℤ} (hr : r.eax = SYSCALL_READ) (fd buf count : ℕ)
    (hread : syscallRead m.filesystem p (toInt fd) buf count k = .ok res k') :
    dispatch m p r r.eax [fd, buf, count] k = .ok (res, r) k' := by
  rw [hr]
  exact run_bind hread

/-- The first process runs, and `l` bytes are in its standard input. -/
structure Listening (m : Machine) (n : Notes) (k : State) (b l : ℕ) : Prop where
  mapped : Mapped m k
  sched : k.sched = oneProcess
  reads : Reads k.filedesc k.handles 1 0 b
  input : n.input = some b
  small : l ≤ BUFSIZE
  pipe : ∃ pb, k.pipes b = some pb ∧ pb.len = l ∧ pb.readpid = none ∧ BUFSIZE ≤ pb.alloc ∧ pb.writing = true

theorem Listening.current (h : Listening m n k b l) : k.sched.current = some 1 := by
  rw [h.sched]
  rfl

/-- Nothing is left in the pipe. -/
theorem Listening.text (h : Listening m n k b 0) (hwhole : Whole n C k.objects) : C.text b = [] := by
  obtain ⟨pb, hb, hlen, -⟩ := h.pipe
  rw [← (hwhole.stream hb).1, hlen]
  rfl

/-- **A key is pressed.** -/
theorem Listening.press (h : Listening m n k b l) (hl : l < BUFSIZE) (c : UInt8) :
    ∃ k', typeKey c n.input k = .ok () k' ∧ ∀ n' : Notes, n'.input = n.input →
      Listening m n' { k' with sched := contextSwitch k'.sched firstRegs } b (l + 1) := by
  obtain ⟨pb, hb, hlen, hr, halloc, hw⟩ := h.pipe
  have hroom : pb.len + [c].length ≤ pb.alloc := by
    rw [hlen, List.length_singleton]
    omega
  have hwrite := writeToPipe_fits (pure [c]) hb hroom (by
    rw [hlen, List.length_singleton]
    simp only [BUFSIZE, wordSize] at hl ⊢
    omega) rfl (by rw [hr]; rfl)
  rw [h.input]
  refine ⟨_, hwrite, fun n' hn => ⟨?_, ?_, h.reads, hn, hl, ⟨_, Function.update_self _ _ _, ?_, rfl, halloc, hw⟩⟩⟩
  · have hmap := h.mapped
    unfold Mapped at hmap ⊢
    rw [h.sched] at hmap ⊢
    rw [contextSwitch_oneProcess]
    exact hmap
  · show contextSwitch k.sched firstRegs = oneProcess
    rw [h.sched, contextSwitch_oneProcess]
  · rw [hlen]
    rfl

/-- **It reads.** -/
theorem Listening.read {r : Regs} {count : ℕ} (h : Listening m n k b l) (hr : r.eax = SYSCALL_READ) (hl : 0 < l)
    (hcount : count ≤ BUFSIZE) :
    ∃ k', dispatch m 1 r r.eax [0, STACK_LOW, count] { k with sched := enter k.sched 1 r.eax } =
        .ok ((min count l : ℕ), r) k' ∧ ∀ n' : Notes, n'.input = n.input →
      Listening m n' { k' with sched := leave k'.sched 1 r.eax r (min count l : ℕ) } b (l - min count l) := by
  obtain ⟨pb, hb, hlen, hnone, halloc, hw⟩ := h.pipe
  obtain rfl := hlen
  let k₁ : State := { k with sched := enter k.sched 1 r.eax }
  have hs₁ : k₁.sched = enter oneProcess 1 r.eax := by
    show enter k.sched 1 r.eax = _
    rw [h.sched]
  have hlive₁ : k₁.sched.Live 1 := by
    rw [hs₁]
    exact ⟨rfl, rfl⟩
  have hgood₁ : Good k₁.sched := by
    rw [hs₁]
    exact good_oneProcess.enter 1 r.eax
  have hmap₁ : Mapped m k₁ := h.mapped.sched hgood₁ (live_enter k.sched 1 r.eax)
  obtain ⟨hregion, hvalid⟩ := hmap₁.lowStack hlive₁ (hcount.trans (by decide))
  obtain ⟨Q, log, bytes, hread, hmap₂⟩ := syscallRead_takes (k := k₁) m.filesystem h.reads hb hnone hl
    (h.small.trans halloc) hmap₁ hlive₁ hvalid hregion
  have htakes : takes pb count = min count pb.len := by
    unfold takes
    split <;> omega
  rw [htakes] at hread
  have hint : toInt (min count pb.len) = (min count pb.len : ℕ) := if_pos (by
    simp only [BUFSIZE] at hcount
    omega)
  rw [hint] at hread
  let k₂ : State := { k₁ with
    pages := Q
    heap := { k₁.heap with bytes := bytes }
    pipes := Function.update k₁.pipes b (some { pb with len := pb.len - min count pb.len })
    log := log }
  have hdis : dispatch m 1 r r.eax [0, STACK_LOW, count] k₁ = .ok ((min count pb.len : ℕ), r) k₂ :=
    dispatch_read hr 0 STACK_LOW count hread
  have hleft : leave k₁.sched 1 r.eax r (min count pb.len : ℕ) = oneProcess := by
    rw [hs₁]
    exact leave_oneProcess r.eax r (Int.natCast_nonneg _)
  refine ⟨_, hdis, fun n' hn => ⟨?_, hleft, h.reads, hn.trans h.input, (Nat.sub_le _ _).trans h.small,
    ⟨_, Function.update_self _ _ _, rfl, hnone, halloc, hw⟩⟩⟩
  refine hmap₂.sched ?_ (live_leave k₁.sched 1 r.eax r (min count pb.len : ℕ))
  show Good (leave k₁.sched 1 r.eax r _)
  rw [hleft]
  exact good_oneProcess

/-- **The first process after boot**: nothing has been typed. -/
theorem run_listening (m : Machine) {bytes : Memory} (hroom : Roomy (heapOver bytes))
    (hP : ∀ n k i, P n k i → i.Fair n k ∧ i.Modest) (hstart : ∀ n k, P n k (.event (.start 0)))
    (hswitch : ∀ n k, P n k (.event (.switch Regs.zero))) :
    ∃ n B k b, Run m P n B k ∧ Listening m n k b 0 ∧ Openable k 1 ∧ n.std b = true ∧ B.written b = [] ∧ B.taken b = [] := by
  obtain ⟨n, B, k, ⟨h, hmap, hs, hopen, -⟩, -, -, ⟨b, hreads, hstd, hinput, hwritten⟩, -⟩ :=
    run_started m hroom hstart hswitch
  obtain ⟨-, -, C, hwhole, hbooks⟩ := h.standing fun n k i hi => (hP n k i hi).1
  obtain ⟨-, hbal⟩ := hbooks fun n k i hi => (hP n k i hi).2
  obtain ⟨pb, hb, hw⟩ := hwhole.tidy.paired.std b hstd
  replace hb : k.pipes b = some pb := hb
  have htext := hbal.pipes b (by rw [hb]; simp)
  rw [hwritten, List.append_eq_nil_iff, ← (hwhole.stream hb).1] at htext
  have hlen : pb.len = 0 := by
    rw [← loadBytes_length k.heap.bytes pb.data pb.len, htext.2]
    rfl
  have hr : pb.readpid = none := by
    cases hr : pb.readpid with
    | none => rfl
    | some z =>
      have hcall := (hwhole.waits.reader b pb z hb hr).1.1.call
      replace hcall : (k.sched.procs z).inSyscall = SYSCALL_READ := hcall
      rw [hs, oneProcess_procs] at hcall
      by_cases hz : z = 1
      · rw [hz, Function.update_self] at hcall
        cases hcall
      · rw [Function.update_of_ne hz] at hcall
        cases hcall
  exact ⟨n, B, k, b, h, ⟨hmap, hs, hreads, hinput, Nat.zero_le _, pb, hb, hlen, hr, (ample_of_run h b pb hb).pos, hw⟩, hopen,
    hstd, hwritten, htext.1⟩

end AdelaideOS.Kernel
