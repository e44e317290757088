import AdelaideOS.Kernel.Copying
import AdelaideOS.Kernel.Descriptors

/-!
# Reading and writing

Bytes go through pipes: `write_to_pipe` appends to what a pipe holds and wakes up its reader, `read` takes
from the front or suspends the caller.  The growth of a full buffer and the move of the rest to the front are
steps in which what the pipe holds stays what it is.

* **`Sane.growPipe`**, **`Sane.storePipe`** — the two halves of `write_to_pipe`;
* **`Serving.pipeReaderRead`** — the three cases of a read.
-/

namespace AdelaideOS.Kernel

open AdelaideOS.Buddy AdelaideOS.Lib.Bytes AdelaideOS.Lib.View AdelaideOS.Process

variable {n : Notes} {C : Contents} {dying : Option ℕ} {D : Finset (ℕ × ℕ)} {box : ℕ → Option ℕ}
  {o o' : Objects} {a b p q count : ℕ} {res : ℤ} {pb pb' : PipeBuffer} {fh : Filehandle}

/-! ### Making room -/

theorem mild_growLoop (need fuel alloc : ℕ) : Mild (growLoop need fuel alloc) := by
  induction fuel generalizing alloc with
  | zero => exact mild_error benign_diverges
  | succ fuel ih =>
    unfold growLoop
    split
    · exact ih _
    · exact mild_ok alloc

/-- The record of a pipe is replaced by one with the same ends and the same reader. -/
theorem Sane.setPipe {C' : Contents} {T : Table Use} {h' : Heap} (h : Sane n C dying D box o)
    (pb' : PipeBuffer) (hb : o.pipes b = some pb) (hr : pb'.reading = pb.reading) (hw : pb'.writing = pb.writing)
    (hreader : pb'.readpid = pb.readpid) (hlen : pb'.len = pb.len ∨ pb.readpid = none) (hmail : C'.mail = C.mail)
    (hS : Stored h' T o.handles (Function.update o.pipes b (some pb')) box C') :
    Sane n C' dying D box
      { o with heap := h', pipes := Function.update o.pipes b (some pb') } := by
  refine h.extend ⟨h.tidy.counted, h.tidy.paired.setPipe hb hr hw, T, hS⟩ rfl hmail
    (Finset.Subset.refl _) (fun _ _ => rfl) (fun _ fh hfh => ⟨fh, hfh, rfl, rfl⟩) ?_ h.input
  rcases hlen with hlen | hnone
  · exact SameReaders.set hb hreader hlen hw
  · constructor
    · intro c x q hx hrx
      have hx' : Function.update o.pipes b (some pb') c = some x := hx
      rcases update_eq_some hx' with ⟨-, rfl⟩ | ⟨-, hx'⟩
      · rw [hreader, hnone] at hrx
        cases hrx
      · exact ⟨x, hx', hrx, rfl, rfl⟩
    · intro c x q hx hrx
      have hc : c ≠ b := by
        intro he
        obtain rfl : x = pb := Option.some.inj (hx.symm.trans (he ▸ hb))
        rw [hnone] at hrx
        cases hrx
      exact ⟨x, by rw [← hx]; exact Function.update_of_ne hc _ _, hrx⟩

/-- The old bytes in a new and larger block. -/
theorem Stored.grow {h h₁ : Heap} {T : Table Use} {H : ℕ → Option Filehandle} {B : ℕ → Option PipeBuffer}
    {data alloc : ℕ} (hS : Stored h T H B box C) (hb : B b = some pb)
    (hok : buddyAlloc .kernel h alloc = .ok (data, h₁)) (hfits : pb.len ≤ alloc) :
    ∃ h₂ T', buddyFree { h₁ with
        bytes := storeBytes h₁.bytes data (loadBytes h₁.bytes pb.data pb.len) } pb.data = .ok h₂ ∧
      Stored h₂ T' H (Function.update B b (some { pb with alloc := alloc, data := data })) box C := by
  obtain ⟨hT, -, -, hS₁⟩ := hS.alloc hok
  have hTd := hS.data b pb hb
  have hne : pb.data ≠ data := by
    intro he
    rw [he, hT] at hTd
    cases hTd
  have hnew : Function.update T data (some ⟨alloc, .data b⟩) data = some ⟨alloc, .data b⟩ :=
    Function.update_self _ _ _
  have hlen : (loadBytes h₁.bytes pb.data pb.len).length = pb.len := loadBytes_length _ _ _
  have hdata : ∀ c x, B c = some x → x.data ≠ data := by
    intro c x hx he
    have hTx := hS.data c x hx
    rw [he, hT] at hTx
    cases hTx
  have hbox : ∀ q, box q ≠ some data := by
    intro q hq
    have hTq := hS.owned q _ hq
    rw [hT] at hTq
    cases hTq
  -- nothing lies in the new block yet
  have hS₂ : Stored { h₁ with bytes := storeBytes h₁.bytes data (loadBytes h₁.bytes pb.data pb.len) }
      (Function.update T data (some ⟨alloc, .data b⟩)) H B box C := by
    refine (hS₁ (.data b)).writeFree hnew ?_ hdata hbox
    intro y hy
    apply storeBytes_of_outside
    have hy' : y < data ∨ data + alloc ≤ y := hy
    omega
  have hS₃ := hS₂.setPipe (b := b) { pb with alloc := alloc, data := data }
    (hS₂.pipe b pb hb) hnew hfits
  have htext : loadBytes (storeBytes h₁.bytes data (loadBytes h₁.bytes pb.data pb.len)) data pb.len =
      C.text b := by
    rw [← (hS₁ (.data b)).text b pb hb]
    have hload := loadBytes_storeBytes h₁.bytes data (loadBytes h₁.bytes pb.data pb.len)
    rw [hlen] at hload
    exact hload
  rw [htext, C.setText_self] at hS₃
  have hTd' : Function.update T data (some ⟨alloc, .data b⟩) pb.data = some ⟨pb.alloc, .data b⟩ := by
    rw [Function.update_of_ne hne]
    exact hTd
  -- nothing lies in the old block any more
  have hH : H pb.data = none := by
    cases hH : H pb.data with
    | none => rfl
    | some fh => cases sameUse hTd (hS.handle _ fh hH)
  have hB : Function.update B b (some { pb with alloc := alloc, data := data }) pb.data = none := by
    have hbd : pb.data ≠ b := by
      intro he
      rw [he] at hTd
      cases sameUse hTd (hS.pipe b pb hb)
    rw [Function.update_of_ne hbd]
    cases hB : B pb.data with
    | none => rfl
    | some x => cases sameUse hTd (hS.pipe _ x hB)
  obtain ⟨h₂, hok₂, hS₄⟩ := hS₃.free hTd' hH hB
    (by
      intro c x hx he
      rcases update_eq_some hx with ⟨-, rfl⟩ | ⟨hc, hx⟩
      · exact hne he.symm
      · cases sameUse hTd (he ▸ hS.data c x hx)
        exact hc rfl)
    (by
      intro q hq
      cases sameUse hTd (hS.owned q _ hq))
  exact ⟨h₂, _, hok₂, hS₄⟩

/-- **Room** for more bytes in a pipe, which holds the same bytes as before. -/
theorem Sane.growPipe (h : Sane n C dying D box o) (hb : o.pipes b = some pb) (count : ℕ) :
    Does o (growPipe b count) fun pb' o' => Sane n C dying D box o' ∧ pb'.len = pb.len ∧
      pb'.readpid = pb.readpid ∧
      ∃ h', o' = { o with heap := h', pipes := Function.update o.pipes b (some pb') } := by
  obtain ⟨T, hS⟩ := h.tidy.stored
  unfold Kernel.growPipe
  refine Acts.seq (does_getPipe fun x hx => ?_)
  obtain rfl : x = pb := Option.some.inj (hx.symm.trans hb)
  refine Acts.ite (fun _ => ?_) fun _ => ?_
  · refine Acts.seq (does_lift (mild_growLoop _ _ _) fun alloc _ => ?_)
    refine Acts.seq (does_kmalloc hS.holds fun data h₁ hok => ?_)
    refine Acts.get fun k hk => ?_
    have hheap : k.heap = h₁ := congrArg Objects.heap hk
    rw [hheap]
    refine Acts.seq (does_storeBlock fun hfits => ?_)
    rw [loadBytes_length, Nat.zero_add] at hfits
    obtain ⟨h₂, T', hok₂, hS₂⟩ := hS.grow hb hok hfits
    refine Acts.seq (does_kfree hok₂ ?_)
    refine Acts.seq (does_setPipe (Acts.pure ?_))
    refine ⟨?_, rfl, rfl, h₂, rfl⟩
    exact h.setPipe { x with alloc := alloc, data := data } hb rfl rfl rfl (Or.inl rfl) rfl hS₂
  · apply Acts.pure
    refine ⟨h, rfl, rfl, o.heap, ?_⟩
    rw [← hb, Function.update_eq_self]

/-! ### Appending -/

/-- The end of a block on the kernel heap. -/
theorem Stored.end_lt {h : Heap} {T : Table Use} {H : ℕ → Option Filehandle} {B : ℕ → Option PipeBuffer}
    {x : Piece Use} (hS : Stored h T H B box C) (hx : T a = some x) : a + x.size < 2 ^ 31 := by
  have hend := hS.holds.end_le hx
  have hlt : kernelRegion.base + 2 ^ kernelRegion.upper < 2 ^ 31 := by decide
  omega

/-- What `write_to_pipe` leaves alone. -/
structure Appended (o : Objects) (b : ℕ) (o' : Objects) : Prop where
  handles : o'.handles = o.handles
  filedesc : o'.filedesc = o.filedesc
  woken : Woken o.sched o'.sched
  pipes : ∃ pb, o'.pipes = Function.update o.pipes b (some pb)

theorem Appended.trans {o'' : Objects} (h : Appended o b o') (h' : Appended o' b o'') : Appended o b o'' := by
  refine ⟨h'.handles.trans h.handles, h'.filedesc.trans h.filedesc, h.woken.trans h'.woken, ?_⟩
  obtain ⟨pb, hpb⟩ := h.pipes
  obtain ⟨pb', hpb'⟩ := h'.pipes
  exact ⟨pb', by rw [hpb', hpb, Function.update_idem]⟩

/-- A reader that a pipe names can be woken up. -/
theorem Sane.wake (h : Sane n C dying D box o) (hb : o.pipes b = some pb) :
    ∃ S, Kernel.wake o.sched pb.readpid = .ok S ∧ Woken o.sched S ∧
      (S = o.sched ∨ ∃ b pb q, o.pipes b = some pb ∧ pb.readpid = some q ∧
        resumeProcess o.sched q = .ok S) := by
  cases hr : pb.readpid with
  | none => exact ⟨o.sched, rfl, Woken.refl _, Or.inl rfl⟩
  | some q =>
    obtain ⟨hex, hready, -⟩ := h.waits.wakeable b pb q hb hr
    obtain ⟨S, hS⟩ := resumeProcess_of hex hready
    exact ⟨S, hS, woken_resume hS, Or.inr ⟨b, pb, q, hb, hr, hS⟩⟩

/-- **Bytes** are put behind those that the pipe holds, and its reader is woken up. -/
theorem Sane.storePipe {bs : List UInt8} (h : Sane n C dying D box o) (hb : o.pipes b = some pb)
    (hcount : bs.length = count) :
    Does o (storeBlock pb.data pb.alloc pb.len bs >>= fun _ =>
        Kernel.setPipe b (some { pb with len := (pb.len + count) % wordSize }) >>= fun _ =>
          wakeUpReader b)
      fun _ o' => Sane n (C.setText b (C.text b ++ bs)) dying D box o' ∧ Appended o b o' ∧
        count < 2 ^ 31 := by
  obtain ⟨T, hS⟩ := h.tidy.stored
  obtain ⟨S, hwake, hwoken, hsched⟩ := h.wake hb
  refine Acts.seq (does_storeBlock fun hfits => ?_)
  rw [hcount] at hfits
  have hend : pb.data + pb.alloc < 2 ^ 31 := hS.end_lt (hS.data b pb hb)
  have hlen : (pb.len + count) % wordSize = pb.len + count := by
    exact Nat.mod_eq_of_lt (by simp only [wordSize]; omega)
  rw [hlen]
  refine Acts.seq (does_setPipe ?_)
  refine does_wakeUpReader { pb with len := pb.len + count } (Function.update_self _ _ _) hwake ?_
  generalize hpb' : ({ pb with len := pb.len + count, readpid := none } : PipeBuffer) = pb'
  simp only [Function.update_idem]
  -- the store itself
  have hS₁ := hS.writeData (storeBytes o.heap.bytes (pb.data + pb.len) bs) hb (by
    intro y hy
    apply storeBytes_of_outside
    omega)
  have hS₂ := hS₁.setPipe (b := b) pb' (hS.pipe b pb hb)
    (by rw [← hpb']; exact hS.data b pb hb) (by rw [← hpb']; exact hfits)
  have htext : loadBytes (storeBytes o.heap.bytes (pb.data + pb.len) bs) pb'.data pb'.len =
      C.text b ++ bs := by
    rw [← hpb']
    show loadBytes _ pb.data (pb.len + count) = _
    rw [loadBytes_add, loadBytes_storeBytes_of_apart _ (Or.inl (Nat.le_refl _)), hS.text b pb hb, ← hcount,
      loadBytes_storeBytes]
  rw [htext, C.setText_setText] at hS₂
  refine ⟨?_, ⟨rfl, rfl, hwoken, pb', rfl⟩, by omega⟩
  refine h.wakes ⟨h.tidy.counted, h.tidy.paired.setPipe hb (by rw [← hpb']) (by rw [← hpb']), T, hS₂⟩ rfl ?_
    hsched h.slots
  refine h.waits.wake hb hwake ?_ rfl fun _ _ hsus hpark => ⟨hpark, hsus.2⟩
  intro x hx
  rw [← Option.some.inj hx, ← hpb']

/-- **`write_to_pipe`** of the bytes that `source` fetches. -/
theorem Sane.writeToPipe {source : K (List UInt8)} {bytes : List UInt8} {k : State}
    (h : Sane n C dying D box k.objects) (hb : k.pipes b = some pb) (hlen : bytes.length = count)
    (hsource : ∀ k₁, k₁.outline = k.outline →
      Acts id Benign k₁ source fun bs k₂ => bs = bytes ∧ k₂.objects = k₁.objects) :
    Acts id Benign k (writeToPipe b count source) fun _ k' =>
      Sane n (C.setText b (C.text b ++ bytes)) dying D box k'.objects ∧
        Appended k.objects b k'.objects ∧ count < 2 ^ 31 := by
  unfold Kernel.writeToPipe
  refine Acts.bind ((h.growPipe hb count).whole.both (hidden_growPipe b count k.outline)) ?_
  rintro pb' k₁ ⟨⟨hsane, -, -, h', ho₁⟩, hout⟩
  refine Acts.bind (hsource k₁ hout) ?_
  rintro bs k₂ ⟨rfl, ho₂⟩
  have hb' : k₂.objects.pipes b = some pb' := by
    rw [ho₂, ho₁]
    exact Function.update_self _ _ _
  rw [← ho₂] at hsane
  refine (hsane.storePipe hb' hlen).whole.mono ?_
  rintro _ k' ⟨hsane', happ, hlt⟩
  refine ⟨hsane', Appended.trans ?_ happ, hlt⟩
  rw [ho₂, ho₁]
  exact ⟨rfl, rfl, Woken.refl _, pb', rfl⟩

/-! ### `write` -/

theorem does_readUserBytes (p a i : ℕ) (o : Objects) :
    Does o (readUserBytes p a count i) fun bs o' => o' = o ∧ bs.length = count := by
  induction count generalizing i with
  | zero => exact Acts.pure ⟨rfl, rfl⟩
  | succ count ih =>
    refine (remote_readUser p _).andThen fun b => ?_
    refine Acts.bind (ih (i + 1)) ?_
    rintro bs _ ⟨rfl, hlen⟩
    exact Acts.pure ⟨rfl, by rw [List.length_cons, hlen]⟩

/-- The caller goes on after others have been woken up. -/
theorem Serving.goesOn (h : Serving n C p o) (hcall : (o.sched.procs p).inSyscall ≠ SYSCALL_WAITPID)
    (hw : Woken o.sched o'.sched) (res : ℤ) : Settled p res o'.sched := by
  by_cases hres : res = -ESUSPEND
  · rw [Settled, if_pos hres]
    obtain ⟨r, hr, -⟩ := hw.procs p
    rw [hr]
    exact fun hc => absurd hc hcall
  · rw [Settled, if_neg hres]
    exact ⟨hw.current.trans h.current, hw.ready h.ready⟩

/-- The handler wrote to a pipe. -/
theorem Serving.appended {C' : Contents} (h : Serving n C p o)
    (hcall : (o.sched.procs p).inSyscall ≠ SYSCALL_WAITPID)
    (hsane : Sane n C' none (liveSlots o.sched) (boxes o.sched.procs n.stale) o') (ha : Appended o b o')
    (res : ℤ) : Done n C' p o res o' := by
  refine ⟨?_, h.goesOn hcall ha.woken res, kept_of_handles ha.handles⟩
  rw [h.whole.after_eq ha.woken.live]
  exact hsane.whole ha.woken rfl rfl

/-- The pipe that a handle is for. -/
theorem Whole.pipe_of (h : Whole n C o) (hfh : o.handles a = some fh) (hty : fh.type.isPipe = true) :
    ∃ pb, o.pipes fh.p = some pb := by
  obtain ⟨pb, hpb, -⟩ := h.tidy.paired.ends a fh hfh hty
  exact ⟨pb, hpb⟩

theorem Serving.pipeWriterWrite {k : State} (h : Serving n C p k.objects)
    (hcall : (k.sched.procs p).inSyscall ≠ SYSCALL_WAITPID) (hfh : k.handles a = some fh)
    (hty : fh.type = .pipeWriter) (buf count : ℕ) :
    Acts id Benign k (pipeWriterWrite p fh buf count) fun res k' => res = count ∧
      Done n (C.setText fh.p (C.text fh.p ++ userBytes k p buf count)) p k.objects res k'.objects ∧
      Appended k.objects fh.p k'.objects := by
  obtain ⟨pb, hpb⟩ := h.whole.pipe_of hfh (by rw [hty]; rfl)
  refine Acts.bind (h.whole.writeToPipe hpb (userBytes_length k p buf count) ?_) ?_
  · intro k₁ hk₁
    refine ((does_readUserBytes p buf 0 k₁.objects).whole.both (acts_readUserBytes k₁ p buf count 0)).mono ?_
    rintro bs k₂ ⟨⟨hobj, -⟩, hbs, -⟩
    refine ⟨?_, hobj⟩
    rw [hbs, userBytes_offset_zero, userBytes_congr hk₁]
  · rintro _ k' ⟨hsane, happ, hlt⟩
    refine Acts.pure ⟨?_, h.appended hcall hsane happ _, happ⟩
    unfold toInt
    exact if_pos hlt

/-! ### `read` -/

/-- **Taking** from the front of a pipe. -/
theorem Serving.takeFromPipe (h : Serving n C p o)
    (hcall : (o.sched.procs p).inSyscall ≠ SYSCALL_WAITPID) (hb : o.pipes b = some pb)
    (hnone : pb.readpid = none) (buf count : ℕ) :
    Does o (takeFromPipe p b pb buf count) fun res o' =>
      res = toInt (min count pb.len) ∧
      Done n (C.setText b ((C.text b).drop (min count pb.len))) p o res o' ∧ Appended o b o' := by
  obtain ⟨T, hS⟩ := h.whole.tidy.stored
  unfold Kernel.takeFromPipe
  have hmin : (if count < pb.len then count else pb.len) = min count pb.len := by
    split
    · exact (Nat.min_eq_left (by omega)).symm
    · exact (Nat.min_eq_right (by omega)).symm
  rw [hmin]
  generalize hm : min count pb.len = m
  have hle : m ≤ pb.len := by omega
  have hfits := hS.fits b pb hb
  refine Acts.get fun k _ => ?_
  refine (remote_writeUserBytes p buf _ 0).andThen fun _ => ?_
  refine Acts.get fun k hk => ?_
  have hheap : k.heap = o.heap := congrArg Objects.heap hk
  rw [hheap]
  refine Acts.seq (does_storeBlock fun _ => ?_)
  refine Acts.seq (does_setPipe (Acts.pure ?_))
  rw [Nat.add_zero]
  -- the rest of the bytes stands at the front now
  have hlen : (loadBytes o.heap.bytes (pb.data + m) (pb.len - m)).length = pb.len - m := loadBytes_length _ _ _
  have hS₁ := hS.writeData
    (storeBytes o.heap.bytes pb.data (loadBytes o.heap.bytes (pb.data + m) (pb.len - m))) hb (by
      intro y hy
      apply storeBytes_of_outside
      omega)
  have hS₂ := hS₁.setPipe (b := b) { pb with len := pb.len - m } (hS.pipe b pb hb)
    (hS.data b pb hb) (by show pb.len - m ≤ pb.alloc; omega)
  have htext : loadBytes (storeBytes o.heap.bytes pb.data (loadBytes o.heap.bytes (pb.data + m) (pb.len - m)))
      pb.data (pb.len - m) = (C.text b).drop m := by
    have hload := loadBytes_storeBytes o.heap.bytes pb.data
      (loadBytes o.heap.bytes (pb.data + m) (pb.len - m))
    rw [hlen] at hload
    have hsplit := loadBytes_add o.heap.bytes pb.data m (pb.len - m)
    rw [Nat.add_sub_cancel' hle, hS.text b pb hb] at hsplit
    rw [hload, hsplit]
    exact (List.drop_left' (loadBytes_length _ _ _)).symm
  rw [htext, C.setText_setText] at hS₂
  refine ⟨rfl, ?_, rfl, rfl, Woken.refl _, _, rfl⟩
  refine h.appended (b := b) hcall ?_ ?_ _
  · exact h.whole.setPipe { pb with len := pb.len - m } hb rfl rfl rfl (Or.inr hnone) rfl hS₂
  · exact ⟨rfl, rfl, Woken.refl _, _, rfl⟩

/-- **Blocking** on an empty pipe. -/
theorem Serving.blockOnPipe {a : ℕ} (h : Serving n C p o)
    (hcall : (o.sched.procs p).inSyscall = SYSCALL_READ) (hb : o.pipes b = some pb)
    (hreads : Reads o.filedesc o.handles p (n.fd p) b) (hnone : pb.readpid = none) (hlen : pb.len = 0)
    (hw : pb.writing = true) (ha : (o.sched.procs p).pid = a) :
    Does o (setPipe b (some { pb with readpid := some a }) >>= fun _ =>
        schedDo (fun S => suspendProcess S p) >>= fun _ => pure (-ESUSPEND))
      fun res o' => res = -ESUSPEND ∧ Quietly n C p o res o' := by
  obtain ⟨T, hS⟩ := h.whole.tidy.stored
  have hp := h.live
  rw [h.whole.good.pid_eq hp.1] at ha
  rw [← ha]
  obtain ⟨S', hS'⟩ := suspendProcess_of hp.1 h.ready
  obtain ⟨hprocs, -⟩ := suspendProcess_entry hS'
  refine Acts.seq (does_setPipe ?_)
  refine Acts.seq (does_schedDo hS' (Acts.pure ?_))
  generalize hpb' : ({ pb with readpid := some p } : PipeBuffer) = pb'
  have hasleep : Asleep o.sched.procs p { o.sched.procs p with ready := false } := by
    refine ⟨(o.sched.procs p).receiveBlocked, (o.sched.procs p).waitingOn, rfl, ?_⟩
    rw [h.whole.entries.blocked p hp.1 hp.2, hcall]
    constructor
    · exact fun hpark => absurd hpark (h.not_parked _)
    · exact fun he => by cases he
  have hparked := fun q => parked_asleep (c := SYSCALL_READ) (q := q) hasleep hp.1 hp.2 h.ready
  rw [← hprocs] at hparked
  refine ⟨rfl, C, silent_refl C ?_ ?_, ?_⟩
  · intro c hc
    have hcb : c ≠ b := by
      intro he
      rw [he, hb] at hc
      cases hc
    rw [← hc]
    exact Function.update_of_ne hcb _ _
  · intro z hz
    rw [← hz]
    exact exists_asleep hasleep hprocs z
  refine h.asleep hasleep hprocs (h.whole.good.suspend hp hS') ?_ ?_ ?_
  · intro hcall'
    rw [hcall] at hcall'
    cases hcall'
  · refine ⟨h.whole.tidy.counted, h.whole.tidy.paired.setPipe hb (by rw [← hpb']) (by rw [← hpb']), T, ?_⟩
    exact hS.keepPipe hb (by rw [← hpb']) (by rw [← hpb']) (by rw [← hpb'])
  · constructor
    · intro c x q hc hr
      have hc' : Function.update o.pipes b (some pb') c = some x := hc
      rcases update_eq_some hc' with ⟨hcb, rfl⟩ | ⟨-, hc'⟩
      · rw [← hpb'] at hr ⊢
        obtain rfl : p = q := Option.some.inj hr
        rw [hcb]
        exact ⟨⟨(hparked p).mpr (Or.inr ⟨rfl, hcall⟩), hreads⟩, hlen, hw⟩
      · obtain ⟨⟨hpark, hreads'⟩, hlen', hw'⟩ := h.whole.waits.reader c x q hc' hr
        exact ⟨⟨(hparked q).mpr (Or.inl hpark), hreads'⟩, hlen', hw'⟩
    · intro q hq
      rcases (hparked q).mp hq with hpark | ⟨rfl, -⟩
      · obtain ⟨c, x, hc, hr⟩ := h.whole.waits.parked q hpark
        have hcb : c ≠ b := by
          intro he
          obtain rfl : x = pb := Option.some.inj (hc.symm.trans (he ▸ hb))
          rw [hnone] at hr
          cases hr
        exact ⟨c, x, by rw [← hc]; exact Function.update_of_ne hcb _ _, hr⟩
      · exact ⟨b, pb', Function.update_self _ _ _, by rw [← hpb']⟩

/-- **A read** from a pipe, by the way it ends. -/
theorem Serving.pipeReaderRead (h : Serving n C p o)
    (hcall : (o.sched.procs p).inSyscall = SYSCALL_READ) (hreads : Reads o.filedesc o.handles p (n.fd p) fh.p) (buf count : ℕ) :
    Does o (pipeReaderRead p fh buf count) fun res o' => ∃ pb, o.pipes fh.p = some pb ∧
      ((res = -EBADF ∧ pb.readpid ≠ none ∧ Quietly n C p o res o') ∨
        (0 < pb.len ∧ res = toInt (min count pb.len) ∧
          Done n (C.setText fh.p ((C.text fh.p).drop (min count pb.len))) p o res o' ∧
          Appended o fh.p o') ∨
        (res = 0 ∧ pb.len = 0 ∧ pb.writing = false ∧ Quietly n C p o res o') ∨
        (res = -ESUSPEND ∧ pb.len = 0 ∧ pb.writing = true ∧ Quietly n C p o res o')) := by
  have hne : (o.sched.procs p).inSyscall ≠ SYSCALL_WAITPID := by
    rw [hcall]
    decide
  unfold Kernel.pipeReaderRead
  refine Acts.seq (does_getPipe fun pb hb => ?_)
  refine Acts.ite (fun hbusy => ?_) fun hidle => ?_
  · exact Acts.pure ⟨pb, hb, Or.inl ⟨rfl, hbusy, h.stay (by decide)⟩⟩
  rw [not_not] at hidle
  refine Acts.ite (fun hpos => ?_) fun hzero => ?_
  · refine (h.takeFromPipe hne hb hidle buf count).mono ?_
    rintro res o' ⟨hres, hdone, happ⟩
    exact ⟨pb, hb, Or.inr (Or.inl ⟨hpos, hres, hdone, happ⟩)⟩
  have hlen : pb.len = 0 := by omega
  refine Acts.ite (fun hw => ?_) fun hw => ?_
  · exact Acts.pure ⟨pb, hb, Or.inr (Or.inr (Or.inl ⟨rfl, hlen, hw, h.stay (by decide)⟩))⟩
  rw [Bool.not_eq_false] at hw
  refine Acts.get fun k hk => ?_
  have hpid : (o.sched.procs p).pid = (k.sched.procs p).pid := by
    rw [← hk]
    rfl
  refine (h.blockOnPipe hcall hb hreads hidle hlen hw hpid).mono ?_
  rintro res o' ⟨hres, hquiet⟩
  exact ⟨pb, hb, Or.inr (Or.inr (Or.inr ⟨hres, hlen, hw, hquiet⟩))⟩

/-! ### Files and directories -/

/-- The handler moved the position of a handle. -/
theorem Serving.touched {fh' : Filehandle} (h : Serving n C p o)
    (hcall : (o.sched.procs p).inSyscall ≠ SYSCALL_WAITPID) (hfh : o.handles a = some fh)
    (ht : fh'.type = fh.type) (hp : fh'.p = fh.p) (hr : fh'.refcount = fh.refcount) (res : ℤ) :
    Quietly n C p o res { o with handles := Function.update o.handles a (some fh') } := by
  refine ⟨C, silent_refl C (fun _ hb => hb) fun _ hz => hz, ?_, ?_, ?_⟩
  · have hafter : n.after o { o with handles := Function.update o.handles a (some fh') } = n :=
      h.whole.after_eq fun _ => Iff.rfl
    rw [hafter]
    exact h.whole.touch hfh ht hp hr
  · exact h.goesOn hcall (Woken.refl _) res
  · intro x g g' hg hg'
    obtain ⟨g₁, hg₁, ht₁, hp₁⟩ := kept_update fh' hfh ht hp x g hg
    obtain rfl : g₁ = g' := Option.some.inj (hg₁.symm.trans hg')
    exact ⟨ht₁, hp₁⟩

theorem Serving.fileRead (h : Serving n C p o)
    (hcall : (o.sched.procs p).inSyscall ≠ SYSCALL_WAITPID) (hfh : o.handles a = some fh) (fs : Memory)
    (buf count : ℕ) : Does o (fileRead fs p a fh buf count) (Quietly n C p o) := by
  refine Acts.ite (fun _ => Acts.pure (h.stay (by decide))) fun _ => ?_
  refine (remote_writeUserBytes p buf _ 0).andThen fun _ => ?_
  refine Acts.seq (does_setHandle (Acts.pure ?_))
  apply h.touched hcall hfh <;> rfl

theorem Serving.syscallGetdent (h : Serving n C p o)
    (hcall : (o.sched.procs p).inSyscall ≠ SYSCALL_WAITPID) (fs : Memory) (fd : ℤ) (entry : ℕ) :
    Does o (syscallGetdent fs p fd entry) (Quietly n C p o) := by
  refine Acts.get fun k hk => ?_
  refine Acts.ite (fun _ => ?_) fun _ => Acts.pure (h.stay (by decide))
  cases lookupFd k p fd with
  | none => exact Acts.pure (h.stay (by decide))
  | some a =>
    refine Acts.seq (does_getHandle fun fh hfh => ?_)
    refine Acts.ite (fun _ => ?_) fun _ => Acts.pure (h.stay (by decide))
    refine Acts.ite (fun _ => Acts.pure (h.stay (by decide))) fun _ => ?_
    refine (remote_writeUserBytes p entry _ 0).andThen fun _ => ?_
    refine (remote_lift (mild_format fs _)).andThen fun text => ?_
    refine (remote_printUser p _ _ text).andThen fun _ => ?_
    refine Acts.seq (does_setHandle (Acts.pure ?_))
    apply h.touched hcall hfh <;> rfl

end AdelaideOS.Kernel
