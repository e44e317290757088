import AdelaideOS.Kernel.Feeding
import AdelaideOS.Kernel.Fork

/-!
# Killing a blocked reader

A pipe names the process that is suspended inside a read from it.  `kill_process` closes the descriptors of the process
and never looks at that name; closing the last descriptor for the write end is what clears it.

* **`Draining.closeFds`** — what closing descriptors does to the names in the pipes;
* **`kill_detaches_iff`** — the name is gone exactly if the dead process was the only one that could write to the pipe;
* **`kill_dangles`** — otherwise the pipe goes on naming it.
-/

namespace AdelaideOS.Kernel

open AdelaideOS.Buddy AdelaideOS.Lib.Bytes AdelaideOS.Lib.Triple AdelaideOS.Lib.View AdelaideOS.Process

variable {n : Notes} {C C' : Contents} {std : ℕ → Bool} {box : ℕ → Option ℕ} {D : Finset (ℕ × ℕ)} {o₀ o o' : Objects}
  {p q b a z : ℕ} {S S' : Sched} {F : Fault → Prop} {k k' : State} {m : Machine} {B : Books}

/-! ### The claim of the comments -/

/-- The descriptor `fd` of process `q` writes to the pipe `b`. -/
def Writes (fds : ℕ → ℕ → Option ℕ) (H : ℕ → Option Filehandle) (q fd b : ℕ) : Prop :=
  fd < MAX_FDS ∧ ∃ a fh, fds q fd = some a ∧ H a = some fh ∧ fh.type = .pipeWriter ∧ fh.p = b

/-- Process `q` can write to the pipe, and no other process can. -/
def OnlyWriter (o : Objects) (q b : ℕ) : Prop :=
  (∃ fd, Writes o.filedesc o.handles q fd b) ∧
    ∀ z fd, o.sched.Live z → Writes o.filedesc o.handles z fd b → z = q

/-- Process `q` is gone from the pipes: a write or a close resumes a process that is alive and suspended, and not the
next one with the number `q`; and the pipe `b` can be read again. -/
structure Detached (o : Objects) (q b : ℕ) : Prop where
  wakes : ∀ b' pb z, o.pipes b' = some pb → pb.readpid = some z →
    z ≠ q ∧ o.sched.Live z ∧ (o.sched.procs z).ready = false
  readable : ∀ pb, o.pipes b = some pb → pb.readpid = none

/-! ### Closing the descriptors of a blocked reader -/

/-- The descriptors of a process are being closed, `o₀` is what there was before.  A pipe that still names a process did
so then, that process is still suspended, and the pipe is open for writing. -/
structure Draining (std : ℕ → Bool) (C : Contents) (box : ℕ → Option ℕ) (D : Finset (ℕ × ℕ)) (o₀ o : Objects) : Prop where
  tidy : Tidy std C box D o
  named : ∀ b pb z, o.pipes b = some pb → pb.readpid = some z →
    (∃ pb₀, o₀.pipes b = some pb₀ ∧ pb₀.readpid = some z) ∧ pb.writing = true ∧ Parked o.sched.procs SYSCALL_READ z
  names : ∀ b pb, o.pipes b = some pb → pb.writing = true →
    ∃ pb₀, o₀.pipes b = some pb₀ ∧ pb₀.readpid = pb.readpid
  once : ∀ b b' pb pb' z, o₀.pipes b = some pb → o₀.pipes b' = some pb' → pb.readpid = some z → pb'.readpid = some z →
    b = b'
  handles : Shrinks o₀ o
  filedesc : o.filedesc = o₀.filedesc
  procs : ∀ z, ∃ ready, o.sched.procs z = { o₀.sched.procs z with ready := ready } ∧
    (ready = (o₀.sched.procs z).ready ∨ (o₀.sched.procs z).inSyscall = SYSCALL_READ)

theorem Draining.wakeable (h : Draining std C box D o₀ o) : Wakeable o := by
  intro b pb z hb hr
  obtain ⟨-, hw, hpark⟩ := h.named b pb z hb hr
  exact ⟨hpark.exists_, hpark.idle, hw⟩

/-- **One handle** -/
theorem Draining.closed {D' : Finset (ℕ × ℕ)} (h : Draining std C box D o₀ o) (hcl : Closed o a o')
    (htidy : Tidy std C box D' o') : Draining std C box D' o₀ o' := by
  have hhandles : Shrinks o₀ o' := by
    intro x g hg
    obtain ⟨g₁, hg₁, ht₁, hp₁⟩ := hcl.handle hg
    obtain ⟨g₀, hg₀, ht₀, hp₀⟩ := h.handles x g₁ hg₁
    exact ⟨g₀, hg₀, ht₁.trans ht₀, hp₁.trans hp₀⟩
  have hfiledesc : o'.filedesc = o₀.filedesc := hcl.filedesc.trans h.filedesc
  cases hcl with
  | shared fh hfh hmore => exact ⟨htidy, h.named, h.names, h.once, hhandles, hfiledesc, h.procs⟩
  | plain fh heap hfh hlast hty => exact ⟨htidy, h.named, h.names, h.once, hhandles, hfiledesc, h.procs⟩
  | reader fh pb heap hfh hlast hty hb =>
    -- the read end is closed: the pipe keeps its name
    have hback : ∀ b' pb', Function.update o.pipes fh.p (pb.afterShut .pipeReader) b' = some pb' →
        ∃ pb₁, o.pipes b' = some pb₁ ∧ pb'.readpid = pb₁.readpid ∧ pb'.writing = pb₁.writing := by
      intro b' pb' hb'
      by_cases he : b' = fh.p
      · rw [he, Function.update_self] at hb'
        obtain ⟨rfl, -⟩ := afterShut_eq_some hb'
        exact ⟨pb, by rw [he]; exact hb, rfl, rfl⟩
      · rw [Function.update_of_ne he] at hb'
        exact ⟨pb', hb', rfl, rfl⟩
    refine ⟨htidy, fun b' pb' z hb' hr => ?_, fun b' pb' hb' hw => ?_, h.once, hhandles, hfiledesc, h.procs⟩
    · obtain ⟨pb₁, hb₁, hr₁, hw₁⟩ := hback b' pb' hb'
      obtain ⟨hold, hwrite, hpark⟩ := h.named b' pb₁ z hb₁ (hr₁.symm.trans hr)
      exact ⟨hold, hw₁.trans hwrite, hpark⟩
    · obtain ⟨pb₁, hb₁, hr₁, hw₁⟩ := hback b' pb' hb'
      obtain ⟨pb₀, hb₀, hr₀⟩ := h.names b' pb₁ hb₁ (hw₁.symm.trans hw)
      exact ⟨pb₀, hb₀, hr₀.trans hr₁.symm⟩
  | writer fh pb heap S hfh hlast hty hb hS =>
    -- the write end is closed: the pipe loses its name, and who had it is resumed
    have hback : ∀ b' pb', Function.update o.pipes fh.p (pb.afterShut .pipeWriter) b' = some pb' →
        b' = fh.p ∧ pb'.readpid = none ∧ pb'.writing = false ∨ b' ≠ fh.p ∧ o.pipes b' = some pb' := by
      intro b' pb' hb'
      by_cases he : b' = fh.p
      · rw [he, Function.update_self] at hb'
        obtain ⟨rfl, -⟩ := afterShut_eq_some hb'
        exact Or.inl ⟨he, rfl, rfl⟩
      · rw [Function.update_of_ne he] at hb'
        exact Or.inr ⟨he, hb'⟩
    have hready : ∀ z, ∃ ready, S.procs z = { o.sched.procs z with ready := ready } ∧
        (ready = (o.sched.procs z).ready ∨ pb.readpid = some z) := by
      intro z
      cases hr : pb.readpid with
      | none =>
        rw [hr] at hS
        cases hS
        exact ⟨_, rfl, Or.inl rfl⟩
      | some x =>
        rw [hr] at hS
        refine ⟨_, resumeProcess_entry hS z, ?_⟩
        by_cases hz : z = x
        · exact Or.inr (by rw [hz])
        · exact Or.inl (if_neg hz)
    refine ⟨htidy, fun b' pb' z hb' hr => ?_, fun b' pb' hb' hw => ?_, h.once, hhandles, hfiledesc, fun z => ?_⟩
    · rcases hback b' pb' hb' with ⟨-, hnone, -⟩ | ⟨hne, hb₁⟩
      · rw [hnone] at hr
        cases hr
      · obtain ⟨⟨pb₀, hb₀, hr₀⟩, hwrite, hpark⟩ := h.named b' pb' z hb₁ hr
        refine ⟨⟨pb₀, hb₀, hr₀⟩, hwrite, ?_⟩
        obtain ⟨ready, hz, hor⟩ := hready z
        have hsame : ready = (o.sched.procs z).ready := by
          refine hor.resolve_right fun hr₁ => hne ?_
          obtain ⟨⟨pb₁, hb₁', hr₁'⟩, -, -⟩ := h.named fh.p pb z hb hr₁
          exact h.once b' fh.p pb₀ pb₁ z hb₀ hb₁' hr₀ hr₁'
        rw [hsame] at hz
        have hz' : S.procs z = o.sched.procs z := hz
        refine ⟨?_, ?_, ?_, ?_⟩
        · exact (congrArg Proc.exists_ hz').trans hpark.exists_
        · exact (congrArg Proc.exited hz').trans hpark.alive
        · exact (congrArg Proc.ready hz').trans hpark.idle
        · exact (congrArg Proc.inSyscall hz').trans hpark.call
    · rcases hback b' pb' hb' with ⟨-, -, hshut⟩ | ⟨-, hb₁⟩
      · rw [hshut] at hw
        cases hw
      · exact h.names b' pb' hb₁ hw
    · obtain ⟨ready, hz, hor⟩ := hready z
      obtain ⟨ready₀, hz₀, hor₀⟩ := h.procs z
      refine ⟨ready, ?_, ?_⟩
      · show S.procs z = _
        rw [hz, hz₀]
      · rcases hor with hsame | hr
        · rw [hsame, hz₀]
          exact hor₀
        · right
          obtain ⟨-, -, hpark⟩ := h.named fh.p pb z hb hr
          have hcall := hpark.call
          rw [hz₀] at hcall
          exact hcall

theorem Draining.closeFds {fds : List ℕ} (h : Draining std C box (D ∪ slotsOf q fds) o₀ o) (hnodup : fds.Nodup)
    (hD : ∀ s ∈ D, s.1 ≠ q) :
    Acts State.objects F o (closeFds q fds) fun _ o' => Draining std C box D o₀ o' := by
  refine closeFds_rule (I := fun D o => Draining std C box D o₀ o) h hnodup hD ?_ ?_
  · intro D' o' fd hs h ha
    exact ⟨⟨h.tidy.counted.closed hs ha, h.tidy.paired, h.tidy.stored⟩, h.named, h.names, h.once, h.handles, h.filedesc,
      h.procs⟩
  · intro D' o' fd a hs h ha
    refine (h.tidy.close hs ha h.wakeable).mono ?_
    rintro _ o₁ ⟨hcl, htidy⟩
    exact h.closed hcl htidy

/-- Before the first descriptor is closed. -/
theorem Whole.draining (h : Whole n C o) (hq : o.sched.Live q) :
    Draining n.std C (boxes o.sched.procs n.stale) (slotsBut o.sched q ∪ slotsOf q (List.range MAX_FDS)) o
      { o with sched := Process.detach o.sched q } := by
  rw [slotsBut_union h.good hq]
  refine ⟨⟨h.tidy.counted, h.tidy.paired, h.tidy.stored⟩, ?_, fun b pb hb _ => ⟨pb, hb, rfl⟩, ?_, ?_, rfl, ?_⟩
  · intro b pb z hb hr
    obtain ⟨⟨hz, -⟩, -, hw⟩ := h.waits.reader b pb z hb hr
    refine ⟨⟨pb, hb, hr⟩, hw, ?_⟩
    show Parked (Process.detach o.sched q).procs _ z
    rw [detach_procs]
    exact hz
  · intro b b' pb pb' z hb hb' hr hr'
    exact (h.waits.reader b pb z hb hr).1.unique (h.waits.reader b' pb' z hb' hr').1
  · intro a fh hfh
    exact ⟨fh, hfh, rfl, rfl⟩
  · intro z
    refine ⟨(o.sched.procs z).ready, ?_, Or.inl rfl⟩
    show (Process.detach o.sched q).procs z = _
    rw [detach_procs]

/-! ### After the death -/

/-- No descriptor writes to a pipe of `start_process`. -/
theorem Whole.std_unwritten {fd : ℕ} (h : Whole n C o) (hstd : n.std b = true) : ¬ Writes o.filedesc o.handles q fd b := by
  rintro ⟨-, a, fh, -, ha, ht, rfl⟩
  obtain ⟨-, -, -, hno⟩ := h.tidy.paired.ends a fh ha (by rw [ht]; rfl)
  rw [hno ht] at hstd
  cases hstd

/-- The pipe stays open for writing if another process has a descriptor for it, or the kernel writes to it. -/
theorem Draining.writing_iff (h : Draining n.std C box (slotsBut o₀.sched q) o₀ o) (hw : Whole n C' o₀)
    {pb₀ : PipeBuffer} (hb : o₀.pipes b = some pb₀) (hopen : pb₀.writing = true) :
    (∃ pb, o.pipes b = some pb ∧ pb.writing = true) ↔ ¬ OnlyWriter o₀ q b := by
  have hG := hw.good
  constructor
  · rintro ⟨pb, hpb, hwriting⟩ ⟨⟨fd, hmine⟩, honly⟩
    rcases h.tidy.paired.held b pb .pipeWriter hpb hwriting with ⟨a, fh, ha, ht, hp⟩ | ⟨-, hstd⟩
    · -- a descriptor that is left belongs to another process
      have hpos : 0 < refs o.filedesc (slotsBut o₀.sched q) a := by
        rw [← h.tidy.counted.count a, ha]
        exact h.tidy.counted.pos a fh ha
      obtain ⟨s, hs, hfd⟩ := refs_pos.mp hpos
      obtain ⟨hs₁, hne⟩ := Finset.mem_filter.mp hs
      obtain ⟨hlive, hlt⟩ := (mem_liveSlots hG).mp hs₁
      obtain ⟨fh₁, ha₁, ht₁, hp₁⟩ := h.handles a fh ha
      rw [h.filedesc] at hfd
      exact hne (honly s.1 s.2 hlive ⟨hlt, a, fh₁, hfd, ha₁, ht₁.symm.trans ht, hp₁.symm.trans hp⟩)
    · exact hw.std_unwritten hstd hmine
  · intro hnot
    rcases hw.tidy.paired.held b pb₀ .pipeWriter hb hopen with ⟨a, fh, ha, ht, hp⟩ | ⟨-, hstd⟩
    · -- some process has a descriptor, and not only `q`
      obtain ⟨z, e, hz, hne, hwrites⟩ : ∃ z e, o₀.sched.Live z ∧ z ≠ q ∧ Writes o₀.filedesc o₀.handles z e b := by
        have hpos : 0 < refs o₀.filedesc (liveSlots o₀.sched) a := by
          rw [← hw.tidy.counted.count a, ha]
          exact hw.tidy.counted.pos a fh ha
        obtain ⟨s, hs, hfd⟩ := refs_pos.mp hpos
        obtain ⟨hlive, hlt⟩ := (mem_liveSlots hG).mp hs
        have hs' : Writes o₀.filedesc o₀.handles s.1 s.2 b := ⟨hlt, a, fh, hfd, ha, ht, hp⟩
        by_cases he : s.1 = q
        · by_contra hno
          push Not at hno
          refine hnot ⟨⟨s.2, he ▸ hs'⟩, fun z e hz hwrites => ?_⟩
          by_contra hne
          exact hno z e hz hne hwrites
        · exact ⟨s.1, s.2, hlive, he, hs'⟩
      obtain ⟨hlt, a₁, fh₁, hfd, ha₁, ht₁, hp₁⟩ := hwrites
      have hslot : (z, e) ∈ slotsBut o₀.sched q :=
        Finset.mem_filter.mpr ⟨(mem_liveSlots hG).mpr ⟨hz, hlt⟩, hne⟩
      obtain ⟨fh₂, ha₂⟩ := h.tidy.counted.slot hslot (by rw [h.filedesc]; exact hfd)
      obtain ⟨fh₃, ha₃, ht₃, hp₃⟩ := h.handles a₁ fh₂ ha₂
      obtain rfl := Option.some.inj (ha₁.symm.trans ha₃)
      obtain ⟨pb, hpb, hwriting, -⟩ := h.tidy.paired.ends a₁ fh₂ ha₂ (by rw [ht₃, ht₁]; rfl)
      rw [ht₃, ht₁] at hwriting
      rw [hp₃, hp₁] at hpb
      exact ⟨pb, hpb, hwriting⟩
    · exact h.tidy.paired.std b hstd

section

variable (h : Draining n.std C box (slotsBut o₀.sched q) o₀ o) (hw : Whole n C' o₀) (hon : SuspendedOn n o₀ q b)

include h hw hon

/-- **The name stays** as long as the pipe is open for writing. -/
theorem Draining.dangling (hnot : ¬ OnlyWriter o₀ q b) : ∃ pb, o.pipes b = some pb ∧ pb.readpid = some q := by
  obtain ⟨b₁, pb₀, hb₁, hr₀⟩ := hw.waits.parked q hon.1
  obtain ⟨hon₁, -, hopen⟩ := hw.waits.reader b₁ pb₀ q hb₁ hr₀
  obtain rfl := hon₁.unique hon
  obtain ⟨pb, hpb, hpw⟩ := (h.writing_iff hw hb₁ hopen).mpr hnot
  obtain ⟨pb₁, hpb₁, hr₁⟩ := h.names b₁ pb hpb hpw
  obtain rfl := Option.some.inj (hb₁.symm.trans hpb₁)
  exact ⟨pb, hpb, hr₁.symm.trans hr₀⟩

/-- **The name goes** with the last descriptor for the write end. -/
theorem Draining.detached (hbury : bury o.sched q = .ok S') (honly : OnlyWriter o₀ q b) :
    Detached { o with sched := S' } q b := by
  obtain ⟨b₁, pb₀, hb₁, hr₀⟩ := hw.waits.parked q hon.1
  obtain ⟨hon₁, -, hopen⟩ := hw.waits.reader b₁ pb₀ q hb₁ hr₀
  obtain rfl := hon₁.unique hon
  have hprocs : S'.procs = buried o.sched q := (bury_ok hbury).1
  have hshut : ∀ pb, o.pipes b₁ = some pb → pb.writing ≠ true := fun pb hpb hpw =>
    (h.writing_iff hw hb₁ hopen).mp ⟨pb, hpb, hpw⟩ honly
  constructor
  · intro b' pb z hpb hr
    obtain ⟨⟨pb₁, hpb₁, hr₁⟩, hpw, hpark⟩ := h.named b' pb z hpb hr
    have hne : z ≠ q := by
      rintro rfl
      obtain rfl := h.once b' b₁ pb₁ pb₀ z hpb₁ hb₁ hr₁ hr₀
      exact hshut pb hpb hpw
    have hpark' : Parked S'.procs SYSCALL_READ z := by
      rw [hprocs]
      exact (parked_buried (by decide)).mpr ⟨hpark, hne⟩
    exact ⟨hne, ⟨hpark'.exists_, hpark'.alive⟩, hpark'.idle⟩
  · intro pb hpb
    cases hr : pb.readpid with
    | none => rfl
    | some z =>
      obtain ⟨-, hpw, -⟩ := h.named b₁ pb z hpb hr
      exact absurd hpw (hshut pb hpb)

/-- **What is left in the pipes** when the process has been buried. -/
theorem Draining.detached_iff (hbury : bury o.sched q = .ok S') :
    Detached { o with sched := S' } q b ↔ OnlyWriter o₀ q b := by
  constructor
  · intro hdet
    by_contra hnot
    obtain ⟨pb, hpb, hr⟩ := h.dangling hw hon hnot
    have hnone := hdet.readable pb hpb
    rw [hr] at hnone
    cases hnone
  · exact h.detached hw hon hbury

end

/-- Nobody who waits for the process has been resumed meanwhile. -/
theorem Draining.buryable (h : Draining std C box D o₀ o) (hw : Whole n C' o₀) (hq : o₀.sched.Live q)
    (hserve : ∀ r, n.serving = some r → (o₀.sched.procs r).inSyscall ≠ SYSCALL_WAITPID) :
    ∃ S', bury o.sched q = .ok S' := by
  apply bury_of
  intro z hz
  obtain ⟨rq, hrq, -⟩ := h.procs q
  obtain ⟨rz, hrz, hor⟩ := h.procs z
  have hz₀ : Wakes o₀.sched q z := by
    obtain ⟨hparent, hcall, hon⟩ := hz
    rw [survivingParent_eq, hrq] at hparent
    rw [hrz] at hcall hon
    rw [hrq] at hon
    refine ⟨?_, hcall, hon⟩
    rw [survivingParent_eq]
    exact hparent
  obtain ⟨R, U, hI⟩ := hw.good
  have hlive : o₀.sched.Live z := (hI.wakes_alive hq.1 hz₀).1
  have hsame := hor.resolve_right (by rw [hz₀.2.1]; decide)
  rw [hrz, hsame]
  refine ⟨hlive.1, hw.entries.waiting z ?_ hlive.1 hlive.2 hz₀.2.1 (by rw [hz₀.2.2]; simp)⟩
  intro hserving
  exact hserve z hserving.symm hz₀.2.1

/-- **A blocked reader is killed.** -/
theorem Whole.kill_reader (h : Whole n C k.objects) (hmap : Mapped m k) (hon : SuspendedOn n k.objects q b)
    (hserve : ∀ r, n.serving = some r → (k.sched.procs r).inSyscall ≠ SYSCALL_WAITPID) :
    ∃ k', Kernel.killProcess q k = .ok () k' ∧ (Detached k'.objects q b ↔ OnlyWriter k.objects q b) := by
  have hq : k.sched.Live q := ⟨hon.1.exists_, hon.1.alive⟩
  have hown : boxes k.sched.procs n.stale q = (k.sched.procs q).mailbox := if_pos ⟨hq.1, h.fresh q hq⟩
  obtain ⟨k', o, S', hok, hV, hbury, hobjects⟩ := killProcess_returns
    (U := fun _ o => Draining n.std C (boxes k.sched.procs n.stale) (slotsBut k.sched q) k.objects o)
    (V := fun _ o => Draining n.std C (Function.update (boxes k.sched.procs n.stale) q none) (slotsBut k.sched q)
      k.objects o)
    hmap hq ((h.draining hq).closeFds List.nodup_range slotsBut_ne)
    (by
      intro o hU
      obtain ⟨ready, hr, -⟩ := hU.procs q
      refine ⟨by rw [hr]; rfl, (hU.tidy.freeMailbox hown).mono ?_⟩
      rintro _ _ ⟨h', rfl, htidy, -⟩
      exact ⟨htidy, hU.named, hU.names, hU.once, hU.handles, hU.filedesc, hU.procs⟩)
    fun o hV => hV.buryable h hq hserve
  refine ⟨k', hok, ?_⟩
  rw [hobjects]
  exact hV.detached_iff h hon hbury

/-- **`kill`** for a blocked reader. -/
theorem syscallKill_reader (h : Whole n C k.objects) (hserve : n.serving = none) (hsteady : Steady k.sched)
    (hmap : Mapped m k) (hcur : k.sched.current = some p) (hon : SuspendedOn n k.objects q b) :
    ∃ k', syscallKill p q { k with sched := enter k.sched p SYSCALL_KILL } = .ok 0 k' ∧
      (Detached k'.objects q b ↔ OnlyWriter k.objects q b) := by
  have hserving := h.enter hserve hcur hsteady SYSCALL_KILL [q]
  let k₁ : State := { k with sched := enter k.sched p SYSCALL_KILL }
  have hne : q ≠ p := by
    rintro rfl
    have hready := hsteady q hcur
    rw [show (k.sched.procs q).ready = false from hon.1.idle] at hready
    cases hready
  have hproc : k₁.sched.procs q = k.sched.procs q := Function.update_of_ne hne _ _
  have hlive := live_enter k.sched p SYSCALL_KILL
  have hon₁ : SuspendedOn { n with serving := some p, args := Function.update n.args p [q] } k₁.objects q b := by
    obtain ⟨⟨h1, h2, h3, h4⟩, hreads⟩ := hon
    refine ⟨⟨?_, ?_, ?_, ?_⟩, ?_⟩
    · exact (congrArg Proc.exists_ hproc).trans h1
    · exact (congrArg Proc.exited hproc).trans h2
    · exact (congrArg Proc.ready hproc).trans h3
    · exact (congrArg Proc.inSyscall hproc).trans h4
    · show Reads k.filedesc k.handles q (toInt ((Function.update n.args p [q] q).getD 0 0)) b
      rw [Function.update_of_ne hne]
      exact hreads
  have hcall : ∀ r, some p = some r → (k₁.sched.procs r).inSyscall ≠ SYSCALL_WAITPID := by
    rintro r ⟨⟩
    show ((enter k.sched p SYSCALL_KILL).procs p).inSyscall ≠ _
    rw [enter_proc]
    simp
  obtain ⟨k', hkill, hiff⟩ := Whole.kill_reader (k := k₁) hserving.whole (hmap.sched hserving.whole.good hlive) hon₁ hcall
  refine ⟨k', syscallKill_returns hserving.whole.good hserving.live ⟨hon₁.1.exists_, hon₁.1.alive⟩ hne hkill, hiff.trans ?_⟩
  -- entering the call changes nothing about who can write
  constructor
  · rintro ⟨hmine, hothers⟩
    exact ⟨hmine, fun z fd hz => hothers z fd ((hlive z).mpr hz)⟩
  · rintro ⟨hmine, hothers⟩
    exact ⟨hmine, fun z fd hz => hothers z fd ((hlive z).mp hz)⟩

/-! ### A reader that is killed by its child -/

/-- The parent keeps its descriptors. -/
theorem Reads.forked {fd : ℤ} {child : ℕ} {f : ℕ → Option ℕ} (h : Reads k.filedesc k.handles p fd b) (hne : p ≠ child) :
    Reads (Function.update k.filedesc child f) (raised k p (List.range MAX_FDS)) p fd b := by
  obtain ⟨hpos, hlt, a, fh, hfd, hfh, hty, hp⟩ := h
  refine ⟨hpos, hlt, a, _, ?_, raised_of_some hfh, hty, hp⟩
  rw [Function.update_of_ne hne]
  exact hfd

/-- The processes when the first one has forked and is about to read. -/
def readingProcess : Sched := enter twoProcesses 1 SYSCALL_READ

/-- The first process, when it waits for input. -/
def blockedProcess : Sched :=
  ((readingProcess.set 1 { readingProcess.procs 1 with ready := false }).removeReady 1).addSuspended 1

theorem Notes.next_fd {r : Regs} {args : List ℕ} (hcur : k.sched.current = some p) :
    (n.next (.event (.call r args)) k k').fd p = toInt (args.getD 0 0) := by
  unfold Notes.fd Notes.next Input.args
  simp only [hcur, Function.update_self]

theorem suspend_reading : suspendProcess readingProcess 1 = .ok blockedProcess := rfl

/-- **The first process waits for input**, and its child runs. -/
theorem run_blocked : ∃ n B k b, Run Machine.bare (fun n k i => i.Fair n k ∧ i.Modest) n B k ∧
    k.sched.current = some 2 ∧ SuspendedOn n k.objects 1 b ∧ n.std b = true := by
  obtain ⟨n, B, k, b, h, ⟨hmap, hs, hreads, -, -, pb, hb, hlen, hr, -, hw⟩, hopen, hstd, -⟩ := run_listening Machine.bare
    (P := fun n k i => i.Fair n k ∧ i.Modest) roomy_boot (fun _ _ _ h => h) (fun _ _ => ⟨trivial, trivial⟩)
    fun _ _ => ⟨trivial, trivial⟩
  obtain ⟨_, _, k₃, h₃, hs₃, -, hstd₃, hfds₃, hhandles₃, hpipes₃⟩ := h.forkFirst (fair_fork n k) hmap hs hopen
  have hreads₃ : Reads k₃.filedesc k₃.handles 1 0 b := by
    rw [hfds₃, hhandles₃]
    exact hreads.forked (by decide)
  have hcur₃ : k₃.sched.current = some 1 := by
    rw [hs₃]
    rfl
  have hread : dispatch Machine.bare 1 readRegs readRegs.eax [0, 0, 0] { k₃ with sched := enter k₃.sched 1 SYSCALL_READ } =
      .ok (-ESUSPEND, readRegs) { k₃ with
        pipes := Function.update k₃.pipes b (some { pb with readpid := some 1 })
        sched := blockedProcess } := by
    rw [hs₃]
    apply dispatch_read rfl
    exact syscallRead_suspends (k := { k₃ with sched := readingProcess }) _ hreads₃
      ((congrFun hpipes₃ b).trans hb) hr hlen hw (by simp [validPointer]) suspend_reading
  refine ⟨_, _, _, b, h₃.call hcur₃ (fair_read _ _ _) hread, rfl, ⟨⟨rfl, rfl, rfl, rfl⟩, ?_⟩,
    (congrFun hstd₃ b).trans hstd⟩
  show Reads k₃.filedesc k₃.handles 1 _ b
  rw [Notes.next_fd hcur₃]
  exact hreads₃

/-! ### A reader that could have written itself -/

theorem Standard.freeFds (h : Standard k p) : freeFds k p = (List.range MAX_FDS).filter fun fd => 3 ≤ fd := by
  refine List.filter_congr fun fd _ => ?_
  exact decide_eq_decide.mpr (h fd)

set_option maxRecDepth 10000 in
theorem allocs_pipe : (allocs (startSizes ++ [24, BUFSIZE, 36, 36]) bootHeap).isOk = true := by decide +kernel

/-- The registers of a call of `pipe`. -/
def pipeRegs : Regs := { Regs.zero with eax := SYSCALL_PIPE }

/-- The processes when the first one has forked and has made a pipe. -/
def pipedProcess : Sched := leave (enter twoProcesses 1 SYSCALL_PIPE) 1 SYSCALL_PIPE pipeRegs 0

/-- Process 1 has made a pipe: it has both ends, and the handle `a` for the write end is in one slot. -/
structure Piped (k : State) (b a : ℕ) : Prop where
  reads : Reads k.filedesc k.handles 1 3 b
  handle : k.handles a = some ⟨.pipeWriter, 1, b, 0, 0, 0⟩
  slot : k.filedesc 1 4 = some a

theorem Piped.onlyWriter (h : Piped k b a) (hwhole : Whole n C k.objects) (hlive : k.sched.Live 1) :
    OnlyWriter k.objects 1 b := by
  refine ⟨⟨4, by decide, a, _, h.slot, h.handle, rfl, rfl⟩, ?_⟩
  rintro z fd hz ⟨hlt, x, fh, hfd, hx, hty, hp⟩
  obtain rfl := hwhole.tidy.paired.inj a x _ fh h.handle hx rfl hty hp
  have hslot := hwhole.tidy.counted.sole (z, fd) (1, 4) h.handle rfl
    (hwhole.mem_slots.mpr ⟨hz, hlt⟩) (hwhole.mem_slots.mpr ⟨hlive, by decide⟩) hfd h.slot
  exact (Prod.mk.inj hslot).1

/-- **A pipe of its own**: the first process forks and then makes a pipe. -/
theorem run_piped : ∃ n B k b a, Run Machine.bare (fun n k i => i.Fair n k ∧ i.Modest) n B k ∧ k.sched = pipedProcess ∧
    (∃ data, k.pipes b = some ⟨true, true, BUFSIZE, 0, none, data⟩) ∧ Piped k b a := by
  obtain ⟨n, B, k, h, hmap, hs, hopen, -, hserves, -, hstandard⟩ := run_start Machine.bare
    (P := fun n k i => i.Fair n k ∧ i.Modest) roomy_boot (fun _ _ => ⟨trivial, trivial⟩) fun _ _ => ⟨trivial, trivial⟩
  obtain ⟨_, _, k₃, h₃, hs₃, hheap, -, hfds₃, -⟩ := h.forkFirst (fair_fork n k) hmap hs hopen
  have hcur₃ : k₃.sched.current = some 1 := by
    rw [hs₃]
    rfl
  have hstandard₃ : Standard k₃ 1 := by
    intro fd
    rw [hfds₃, Function.update_of_ne (by decide)]
    exact hstandard fd
  -- and makes a pipe
  obtain ⟨-, -, C₃, hwhole₃, hbooks₃⟩ := h₃.standing fun _ _ _ hP => hP.1
  obtain ⟨hmap₃, -⟩ := hbooks₃ fun _ _ _ hP => hP.2
  let k₄ : State := { k₃ with sched := enter k₃.sched 1 SYSCALL_PIPE }
  have hlive₄ : k₄.sched.Live 1 := by
    show (enter k₃.sched 1 SYSCALL_PIPE).Live 1
    rw [hs₃]
    exact ⟨rfl, rfl⟩
  have hmap₄ : Mapped Machine.bare k₄ := hmap₃.sched (hwhole₃.good.enter 1 SYSCALL_PIPE) (live_enter k₃.sched 1 SYSCALL_PIPE)
  obtain ⟨hregion, hvalid⟩ := hmap₄.lowStack hlive₄ (show 8 ≤ MESSAGE_SIZE by decide)
  obtain ⟨as, heap, hallocs⟩ := allocs_of_serves allocs_pipe hserves
  obtain ⟨b, _, _, -, e₁, rfl⟩ := allocs_inv hallocs
  obtain ⟨data, _, _, -, e₂, rfl⟩ := allocs_inv e₁
  obtain ⟨a, _, _, -, e₃, rfl⟩ := allocs_inv e₂
  obtain ⟨a', _, _, -, e₄, rfl⟩ := allocs_inv e₃
  cases e₄
  obtain ⟨Q, log, hpipe, -⟩ := syscallPipe_ok (k := k₄) (b := b) hmap₄ hlive₄ hvalid hregion
    (show freeFds k₄ 1 = 3 :: 4 :: _ from hstandard₃.freeFds) (by
      show allocs _ k₃.heap = _
      rw [hheap]
      exact hallocs)
  have hdis₄ : dispatch Machine.bare 1 pipeRegs pipeRegs.eax [STACK_LOW] k₄ = .ok (0, pipeRegs) _ := run_bind hpipe
  have h₅ := h₃.call hcur₃ ⟨fun _ _ => ⟨fun hno => absurd hno (by decide), fun hno => absurd hno (by decide)⟩,
    fun hno => absurd hno (by decide)⟩ hdis₄
  -- the two ends are two handles, since the new one is in one slot
  let k₅ : State := { k₄ with
    pages := Q
    heap := heap
    filedesc := Function.update k₄.filedesc 1 (Function.update (Function.update (k₄.filedesc 1) 3 (some a)) 4 (some a'))
    handles := Function.update (Function.update k₄.handles a (some ⟨.pipeReader, 1, b, 0, 0, 0⟩)) a'
      (some ⟨.pipeWriter, 1, b, 0, 0, 0⟩)
    pipes := Function.update k₄.pipes b (some ⟨true, true, BUFSIZE, 0, none, data⟩)
    log := log
    sched := leave k₄.sched 1 pipeRegs.eax pipeRegs 0 }
  have hs₅ : k₅.sched = pipedProcess := by
    show leave (enter k₃.sched 1 SYSCALL_PIPE) 1 pipeRegs.eax pipeRegs 0 = _
    rw [hs₃]
    rfl
  have hfds₅ : k₅.filedesc =
      Function.update k₄.filedesc 1 (Function.update (Function.update (k₄.filedesc 1) 3 (some a)) 4 (some a')) := rfl
  have hreader : k₅.filedesc 1 3 = some a := by
    rw [hfds₅, Function.update_self, Function.update_of_ne (by decide), Function.update_self]
  have hwriter : k₅.filedesc 1 4 = some a' := by
    rw [hfds₅, Function.update_self, Function.update_self]
  have hhandle : k₅.handles a' = some ⟨.pipeWriter, 1, b, 0, 0, 0⟩ := Function.update_self _ _ _
  have hne : a ≠ a' := by
    rintro rfl
    obtain ⟨-, -, C₅, hwhole₅, -⟩ := h₅.standing fun _ _ _ hP => hP.1
    have hlive₅ : k₅.sched.Live 1 := by
      rw [hs₅]
      exact ⟨rfl, rfl⟩
    have hslot := hwhole₅.tidy.counted.sole (1, 3) (1, 4) hhandle rfl
      (hwhole₅.mem_slots.mpr ⟨hlive₅, by decide⟩) (hwhole₅.mem_slots.mpr ⟨hlive₅, by decide⟩) hreader hwriter
    cases hslot
  have hfirst : k₅.handles a = some ⟨.pipeReader, 1, b, 0, 0, 0⟩ :=
    (Function.update_of_ne hne _ _).trans (Function.update_self _ _ _)
  exact ⟨_, _, k₅, b, a', h₅, hs₅, ⟨data, Function.update_self _ _ _⟩,
    ⟨by decide, by decide, a, _, hreader, hfirst, rfl, rfl⟩, hhandle, hwriter⟩

/-- The first process, when it waits for input from its own pipe. -/
def soleProcess : Sched :=
  (((enter pipedProcess 1 SYSCALL_READ).set 1
    { (enter pipedProcess 1 SYSCALL_READ).procs 1 with ready := false }).removeReady 1).addSuspended 1

theorem suspend_piped : suspendProcess (enter pipedProcess 1 SYSCALL_READ) 1 = .ok soleProcess := rfl

/-- **The first process waits for input that only it could write**, and its child runs. -/
theorem run_sole : ∃ n B k b, Run Machine.bare (fun n k i => i.Fair n k ∧ i.Modest) n B k ∧
    k.sched.current = some 2 ∧ SuspendedOn n k.objects 1 b ∧ OnlyWriter k.objects 1 b := by
  obtain ⟨n, B, k, b, a, h, hs, ⟨data, hb⟩, hpiped⟩ := run_piped
  have hcur : k.sched.current = some 1 := by
    rw [hs]
    rfl
  have hread : dispatch Machine.bare 1 readRegs readRegs.eax [3, 0, 0] { k with sched := enter k.sched 1 SYSCALL_READ } =
      .ok (-ESUSPEND, readRegs) { k with
        pipes := Function.update k.pipes b (some ⟨true, true, BUFSIZE, 0, some 1, data⟩)
        sched := soleProcess } := by
    rw [hs]
    apply dispatch_read rfl
    exact syscallRead_suspends (k := { k with sched := enter pipedProcess 1 SYSCALL_READ }) _ hpiped.reads hb rfl rfl rfl
      (by simp [validPointer]) suspend_piped
  have h₁ := h.call hcur (fair_read _ _ _) hread
  refine ⟨_, _, _, b, h₁, rfl, ⟨⟨rfl, rfl, rfl, rfl⟩, ?_⟩, ?_⟩
  · show Reads k.filedesc k.handles 1 _ b
    rw [Notes.next_fd hcur]
    exact hpiped.reads
  · obtain ⟨-, -, C, hwhole, -⟩ := h₁.standing fun _ _ _ hP => hP.1
    exact Piped.onlyWriter ⟨hpiped.reads, hpiped.handle, hpiped.slot⟩ hwhole ⟨rfl, rfl⟩

/-- **Killing a blocked reader**, in every state of every run in which none was killed before: the call succeeds, and
afterwards no pipe names the process, and its pipe can be read again, exactly if it could write to the pipe and nobody
else could. -/
theorem kill_detaches_iff (h : Run m (fun n k i => i.Fair n k ∧ i.Modest) n B k) (hcur : k.sched.current = some p)
    (hon : SuspendedOn n k.objects q b) :
    ∃ k', syscallKill p q { k with sched := enter k.sched p SYSCALL_KILL } = .ok 0 k' ∧
      (Detached k'.objects q b ↔ OnlyWriter k.objects q b) := by
  obtain ⟨hserve, hsteady, C, hwhole, hbooks⟩ := h.standing fun _ _ _ hP => hP.1
  obtain ⟨hmap, -⟩ := hbooks fun _ _ _ hP => hP.2
  exact syscallKill_reader hwhole hserve hsteady hmap hcur hon

/-- The child of the first process kills it while it waits at a pipe of its own: nobody else could write to the pipe, and
it is gone from the pipes. -/
theorem kill_detaches_only : ∃ n B k b k', Run Machine.bare (fun n k i => i.Fair n k ∧ i.Modest) n B k ∧
    k.sched.current = some 2 ∧ SuspendedOn n k.objects 1 b ∧ OnlyWriter k.objects 1 b ∧
    syscallKill 2 1 { k with sched := enter k.sched 2 SYSCALL_KILL } = .ok 0 k' ∧ Detached k'.objects 1 b := by
  obtain ⟨n, B, k, b, h, hcur, hon, honly⟩ := run_sole
  obtain ⟨k', hok, hiff⟩ := kill_detaches_iff h hcur hon
  exact ⟨n, B, k, b, k', h, hcur, hon, honly, hok, hiff.mpr honly⟩

/-- The pipe goes on naming it: the kernel can write to the pipe. -/
theorem kill_dangles : ∃ n B k b k', Run Machine.bare (fun n k i => i.Fair n k ∧ i.Modest) n B k ∧
    k.sched.current = some 2 ∧ SuspendedOn n k.objects 1 b ∧
    syscallKill 2 1 { k with sched := enter k.sched 2 SYSCALL_KILL } = .ok 0 k' ∧ ¬ Detached k'.objects 1 b := by
  obtain ⟨n, B, k, b, h, hcur, hon, hstd⟩ := run_blocked
  obtain ⟨hserve, hsteady, C, hwhole, hbooks⟩ := h.standing fun _ _ _ hP => hP.1
  obtain ⟨hmap, -⟩ := hbooks fun _ _ _ hP => hP.2
  obtain ⟨k', hok, hiff⟩ := syscallKill_reader hwhole hserve hsteady hmap hcur hon
  refine ⟨n, B, k, b, k', h, hcur, hon, hok, fun hdet => ?_⟩
  obtain ⟨⟨fd, hwrites⟩, -⟩ := hiff.mp hdet
  exact hwhole.std_unwritten hstd hwrites

end AdelaideOS.Kernel
