import AdelaideOS.Kernel.Storage

/-!
# Closing file handles

`close_filehandle` gives one reference back; with the last one the handle goes, and with the last handle of a
pipe the pipe.  `Closed` lists what can come of it, `Tidy.close` says that one of these does come of it, that no
assertion fails on the way, and that counts, pipes and heap agree again afterwards.
-/

namespace AdelaideOS.Kernel

open AdelaideOS.Buddy AdelaideOS.Lib.View AdelaideOS.Process

/-- Counts, pipes and heap agree; see `Counted`, `Paired` and `Stored`. -/
structure Tidy (std : ℕ → Bool) (C : Contents) (box : ℕ → Option ℕ) (D : Finset (ℕ × ℕ)) (o : Objects) :
    Prop where
  counted : Counted o.filedesc o.handles D
  paired : Paired std o.handles o.pipes
  stored : ∃ T, Stored o.heap T o.handles o.pipes box C

/-- Waking up the reader of a pipe, if one is blocked. -/
def wake (S : Sched) : Option ℕ → Except Fault Sched
  | none => .ok S
  | some q => resumeProcess S q

/-- What becomes of the objects when one reference to the handle at `a` is given back. -/
inductive Closed (o : Objects) (a : ℕ) : Objects → Prop where
  | shared (fh : Filehandle) : o.handles a = some fh → fh.refcount - 1 ≠ 0 →
      Closed o a { o with
        handles := Function.update o.handles a (some { fh with refcount := fh.refcount - 1 }) }
  | plain (fh : Filehandle) (h : Heap) : o.handles a = some fh → fh.refcount - 1 = 0 →
      fh.type.isPipe = false →
      Closed o a { o with handles := Function.update o.handles a none, heap := h }
  | reader (fh : Filehandle) (pb : PipeBuffer) (h : Heap) : o.handles a = some fh →
      fh.refcount - 1 = 0 → fh.type = .pipeReader → o.pipes fh.p = some pb →
      Closed o a { o with
        handles := Function.update o.handles a none
        pipes := Function.update o.pipes fh.p (pb.afterShut .pipeReader)
        heap := h }
  | writer (fh : Filehandle) (pb : PipeBuffer) (h : Heap) (S : Sched) : o.handles a = some fh →
      fh.refcount - 1 = 0 → fh.type = .pipeWriter → o.pipes fh.p = some pb →
      wake o.sched pb.readpid = .ok S →
      Closed o a { o with
        sched := S
        handles := Function.update o.handles a none
        pipes := Function.update o.pipes fh.p (pb.afterShut .pipeWriter)
        heap := h }

/-- Every blocked reader exists, is suspended, and waits for a pipe that is open for writing. -/
def Wakeable (o : Objects) : Prop :=
  ∀ b pb q, o.pipes b = some pb → pb.readpid = some q →
    (o.sched.procs q).exists_ = true ∧ (o.sched.procs q).ready = false ∧ pb.writing = true

variable {std : ℕ → Bool} {C : Contents} {box : ℕ → Option ℕ} {D : Finset (ℕ × ℕ)} {o : Objects} {s : ℕ × ℕ}
  {a b : ℕ} {fh : Filehandle} {pb : PipeBuffer} {U : Unit → Objects → Prop}
  {F : Fault → Prop}

theorem resumeProcess_of {S : Sched} {q : ℕ} (hex : (S.procs q).exists_ = true)
    (hready : (S.procs q).ready = false) : ∃ S', resumeProcess S q = .ok S' := by
  unfold resumeProcess
  rw [assert_pos hex, assert_pos hready]
  exact ⟨_, rfl⟩

theorem does_wakeUpReader (pb : PipeBuffer) (hb : o.pipes b = some pb) {S : Sched} (hS : wake o.sched pb.readpid = .ok S)
    (hR : U () { o with
      sched := S, pipes := Function.update o.pipes b (some { pb with readpid := none }) }) :
    Acts State.objects F o (wakeUpReader b) U := by
  unfold wakeUpReader
  refine Acts.seq (does_foundPipe hb ?_)
  cases hr : pb.readpid with
  | none =>
    rw [hr] at hS
    cases hS
    apply Acts.pure
    have he : ({ pb with readpid := none } : PipeBuffer) = pb := by
      rw [← hr]
    rw [he, ← hb, Function.update_eq_self] at hR
    exact hR
  | some q =>
    rw [hr] at hS
    exact Acts.seq (does_schedDo hS (does_setPipe hR))

theorem does_checkBufferFree (hb : o.pipes b = some pb) (hR : pb.reading = true ∨ pb.writing = true → U () o)
    (hfree : pb.reading = false ∧ pb.writing = false → pb.readpid = none ∧
      ∃ h₁ h₂, buddyFree o.heap pb.data = .ok h₁ ∧ buddyFree h₁ b = .ok h₂ ∧
        U () { o with heap := h₂, pipes := Function.update o.pipes b none }) :
    Acts State.objects F o (checkBufferFree b) U := by
  unfold checkBufferFree
  refine Acts.seq (does_foundPipe hb ?_)
  refine Acts.ite ?_ ?_
  · intro hc
    obtain ⟨hnone, h₁, h₂, hok₁, hok₂, hU⟩ := hfree hc
    refine Acts.seq (does_check hnone ?_)
    refine Acts.seq (does_kfree hok₁ ?_)
    refine Acts.seq (does_kfree hok₂ ?_)
    exact does_setPipe hU
  · intro hc
    apply Acts.pure
    apply hR
    rw [not_and_or, Bool.not_eq_false, Bool.not_eq_false] at hc
    exact hc

/-- The end of every destroy function. -/
theorem does_plainDestroy {h : Heap} (hok : buddyFree o.heap a = .ok h)
    (hR : U () { o with heap := h, handles := Function.update o.handles a none }) :
    Acts State.objects F o (plainDestroy a) U := by
  exact Acts.seq (does_kfree hok (does_setHandle hR))

/-- The two ways a pipe can end up when an end is closed, on the heap. -/
theorem Stored.shut {h : Heap} {T : Table Use} {H : ℕ → Option Filehandle} {B : ℕ → Option PipeBuffer}
    {t : FhType} (hS : Stored h T H B box C) (hb : B b = some pb) :
    ∃ h₂ T', Stored h₂ T' H (Function.update B b (pb.afterShut t)) box C ∧
      ((pb.shut t).reading = true ∨ (pb.shut t).writing = true → h₂ = h) ∧
      ((pb.shut t).reading = false ∧ (pb.shut t).writing = false →
        ∃ h₁, buddyFree h pb.data = .ok h₁ ∧ buddyFree h₁ b = .ok h₂) := by
  by_cases hc : (pb.shut t).reading = false ∧ (pb.shut t).writing = false
  · obtain ⟨h₁, h₂, T', hok₁, hok₂, hS'⟩ := hS.dropPipe hb
    refine ⟨h₂, T', ?_, ?_, fun _ => ⟨h₁, hok₁, hok₂⟩⟩
    · rw [PipeBuffer.afterShut, if_pos hc]
      exact hS'
    · intro hopen
      rw [hc.1, hc.2] at hopen
      simp at hopen
  · refine ⟨h, T, ?_, fun _ => rfl, fun hc' => absurd hc' hc⟩
    rw [PipeBuffer.afterShut, if_neg hc]
    refine hS.keepPipe hb ?_ ?_ ?_
    · cases t <;> rfl
    · cases t <;> rfl
    · cases t <;> rfl

/-- The end of both destroy functions for pipes, once the pipe has been marked as closed. -/
theorem Stored.finish {T : Table Use} {t : FhType} (hS : Stored o.heap T o.handles o.pipes box C)
    (hfh : o.handles a = some fh) (hb : o.pipes b = some pb)
    (hread : (pb.shut t).writing = false → (pb.shut t).readpid = none) (S : Sched) (g : Filehandle) :
    Acts State.objects F { o with
        sched := S
        handles := Function.update o.handles a (some g)
        pipes := Function.update o.pipes b (some (pb.shut t)) }
      (checkBufferFree b >>= fun _ => plainDestroy a)
      fun _ o' => ∃ h T', o' = { o with
          sched := S
          handles := Function.update o.handles a none
          pipes := Function.update o.pipes b (pb.afterShut t)
          heap := h } ∧
        Stored h T' (Function.update o.handles a none)
          (Function.update o.pipes b (pb.afterShut t)) box C := by
  obtain ⟨h₂, T', hS₂, hsame, hfreed⟩ := hS.shut (t := t) hb
  obtain ⟨h₃, hok₃, hS₃⟩ := hS₂.dropHandle hfh
  have hdata : (pb.shut t).data = pb.data := by
    cases t <;> rfl
  refine Acts.bind (does_checkBufferFree (U := fun _ o' => o' =
    { o with
      sched := S
      handles := Function.update o.handles a (some g)
      pipes := Function.update o.pipes b (pb.afterShut t)
      heap := h₂ }) (Function.update_self _ _ _) ?_ ?_) ?_
  · intro hopen
    have hsome : pb.afterShut t = some (pb.shut t) := by
      rw [PipeBuffer.afterShut, if_neg]
      rintro ⟨hr, hw⟩
      rw [hr, hw] at hopen
      simp at hopen
    rw [hsame hopen, hsome]
  · intro hc
    have hnone : pb.afterShut t = none := by
      rw [PipeBuffer.afterShut, if_pos hc]
    obtain ⟨h₁, hok₁, hok₂⟩ := hfreed hc
    refine ⟨hread hc.2, h₁, h₂, by rw [hdata]; exact hok₁, hok₂, ?_⟩
    simp only [hnone, Function.update_idem]
  · rintro _ _ rfl
    refine does_plainDestroy hok₃ ⟨h₃, _, ?_, hS₃⟩
    simp only [Function.update_idem]

variable {g : Filehandle}

/-- A handle that is not for a pipe is destroyed. -/
theorem Tidy.plainDestroy (h : Tidy std C box (insert s D) o) (hs : s ∉ D)
    (hfd : o.filedesc s.1 s.2 = some a) (hfh : o.handles a = some fh) (hlast : fh.refcount - 1 = 0)
    (hty : fh.type.isPipe = false) :
    Acts State.objects F { o with handles := Function.update o.handles a (some g) } (plainDestroy a)
      fun _ o' => Closed o a o' ∧ Tidy std C box D o' := by
  obtain ⟨T, hS⟩ := h.stored
  obtain ⟨h', hok, hS'⟩ := hS.dropHandle hfh
  refine does_plainDestroy hok ?_
  simp only [Function.update_idem]
  exact ⟨.plain fh h' hfh hlast hty, h.counted.last hs hfd hfh hlast, h.paired.dropPlain hfh hty, _, hS'⟩

/-- The end of a pipe that a handle is for is open. -/
theorem Tidy.end_open (h : Tidy std C box (insert s D) o) (hfh : o.handles a = some fh)
    (hpipe : fh.type.isPipe = true) : ∃ pb, o.pipes fh.p = some pb ∧ pb.isOpen fh.type = true := by
  obtain ⟨pb, hb, hopen, -⟩ := h.paired.ends a fh hfh hpipe
  exact ⟨pb, hb, hopen⟩

theorem Tidy.readerDestroy (h : Tidy std C box (insert s D) o) (hs : s ∉ D)
    (hfd : o.filedesc s.1 s.2 = some a) (hwake : Wakeable o) (hfh : o.handles a = some fh)
    (hlast : fh.refcount - 1 = 0) (hty : fh.type = .pipeReader) (hgp : g.p = fh.p) :
    Acts State.objects F { o with handles := Function.update o.handles a (some g) } (pipeReaderDestroy a g)
      fun _ o' => Closed o a o' ∧ Tidy std C box D o' := by
  obtain ⟨T, hS⟩ := h.stored
  obtain ⟨pb, hb, hopen⟩ := h.end_open hfh (by rw [hty]; rfl)
  rw [hty] at hopen
  unfold pipeReaderDestroy
  rw [hgp]
  refine Acts.seq (does_foundPipe hb ?_)
  refine Acts.seq (does_check hopen ?_)
  refine Acts.seq (does_setPipe ?_)
  -- a blocked reader would mean that the pipe is open for writing
  have hread : (pb.shut .pipeReader).writing = false → (pb.shut .pipeReader).readpid = none := by
    intro hw
    cases hr : pb.readpid with
    | none => exact hr
    | some q =>
      have hw' := (hwake _ pb q hb hr).2.2
      rw [show pb.writing = false from hw] at hw'
      cases hw'
  refine (hS.finish (t := .pipeReader) hfh hb hread o.sched g).mono ?_
  rintro _ _ ⟨h', T', rfl, hS'⟩
  have hpaired := h.paired.dropEnd hfh (by rw [hty]; rfl) hb
  rw [hty] at hpaired
  exact ⟨.reader fh pb h' hfh hlast hty hb, h.counted.last hs hfd hfh hlast, hpaired, T', hS'⟩

theorem Tidy.writerDestroy (h : Tidy std C box (insert s D) o) (hs : s ∉ D)
    (hfd : o.filedesc s.1 s.2 = some a) (hwake : Wakeable o) (hfh : o.handles a = some fh)
    (hlast : fh.refcount - 1 = 0) (hty : fh.type = .pipeWriter) (hgp : g.p = fh.p) :
    Acts State.objects F { o with handles := Function.update o.handles a (some g) } (pipeWriterDestroy a g)
      fun _ o' => Closed o a o' ∧ Tidy std C box D o' := by
  obtain ⟨T, hS⟩ := h.stored
  obtain ⟨pb, hb, hopen⟩ := h.end_open hfh (by rw [hty]; rfl)
  rw [hty] at hopen
  obtain ⟨S, hwoken⟩ : ∃ S, wake o.sched pb.readpid = .ok S := by
    cases hr : pb.readpid with
    | none => exact ⟨_, rfl⟩
    | some q =>
      obtain ⟨hex, hready, -⟩ := hwake _ pb q hb hr
      exact resumeProcess_of hex hready
  unfold pipeWriterDestroy
  rw [hgp]
  refine Acts.seq (does_foundPipe hb ?_)
  refine Acts.seq (does_check hopen ?_)
  refine Acts.seq (does_setPipe ?_)
  refine Acts.seq (does_wakeUpReader _ (Function.update_self _ _ _) hwoken ?_)
  simp only [Function.update_idem]
  refine (hS.finish (t := .pipeWriter) hfh hb (fun _ => rfl) S g).mono ?_
  rintro _ _ ⟨h', T', rfl, hS'⟩
  have hpaired := h.paired.dropEnd hfh (by rw [hty]; rfl) hb
  rw [hty] at hpaired
  exact ⟨.writer fh pb h' S hfh hlast hty hb hwoken, h.counted.last hs hfd hfh hlast, hpaired, T', hS'⟩

/-- **The last reference** is given back: the handle is destroyed. -/
theorem Tidy.destroy (h : Tidy std C box (insert s D) o) (hs : s ∉ D) (hfd : o.filedesc s.1 s.2 = some a)
    (hwake : Wakeable o) (hfh : o.handles a = some fh) (hlast : fh.refcount - 1 = 0)
    (hgt : g.type = fh.type) (hgp : g.p = fh.p) :
    Acts State.objects F { o with handles := Function.update o.handles a (some g) } (destroy a g)
      fun _ o' => Closed o a o' ∧ Tidy std C box D o' := by
  unfold Kernel.destroy
  cases hty : g.type with
  | screen => exact h.plainDestroy hs hfd hfh hlast (by rw [← hgt, hty]; rfl)
  | file => exact h.plainDestroy hs hfd hfh hlast (by rw [← hgt, hty]; rfl)
  | dir => exact h.plainDestroy hs hfd hfh hlast (by rw [← hgt, hty]; rfl)
  | pipeReader => exact h.readerDestroy hs hfd hwake hfh hlast (hgt.symm.trans hty) hgp
  | pipeWriter => exact h.writerDestroy hs hfd hwake hfh hlast (hgt.symm.trans hty) hgp

/-- **Giving back a reference** that the slot `s` holds. -/
theorem Tidy.close (h : Tidy std C box (insert s D) o) (hs : s ∉ D) (hfd : o.filedesc s.1 s.2 = some a)
    (hwake : Wakeable o) :
    Acts State.objects F o (closeFilehandle a) fun _ o' => Closed o a o' ∧ Tidy std C box D o' := by
  unfold closeFilehandle
  obtain ⟨fh, hfh⟩ := h.counted.slot (Finset.mem_insert_self s D) hfd
  refine Acts.seq (does_foundHandle hfh ?_)
  refine Acts.seq (does_check (h.counted.pos a fh hfh) ?_)
  refine Acts.seq (does_setHandle ?_)
  refine Acts.ite ?_ ?_
  · intro hlast
    exact h.destroy hs hfd hwake hfh hlast rfl rfl
  · intro hmore
    apply Acts.pure
    obtain ⟨T, hS⟩ := h.stored
    exact ⟨.shared fh hfh hmore, h.counted.release hs hfd hfh hmore, h.paired.touch hfh rfl rfl, T,
      hS.setHandle (hS.handle a fh hfh) _⟩

end AdelaideOS.Kernel
