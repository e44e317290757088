import AdelaideOS.Kernel.Births

/-!
# The end of a process

`kill_process` takes the process off its list, closes its descriptors, frees its memory and its mailbox, and
releases its slot or keeps it for the parent.  The descriptors of the dying process stop counting one after the
other while they are closed.

* **`Sane.closeFds`** — closing all descriptors;
* **`Whole.killProcess`** — the death of a process that is alive and not blocked in a read;
* **`Serving.syscallWaitpid`** — the slot of an exited process is released.
-/

namespace AdelaideOS.Kernel

open AdelaideOS.Buddy AdelaideOS.Lib.Bytes AdelaideOS.Lib.View AdelaideOS.Process

variable {n : Notes} {C C' : Contents} {D : Finset (ℕ × ℕ)} {box : ℕ → Option ℕ} {o o' : Objects}
  {p q z : ℕ} {S S' : Sched} {res : ℤ} {F : Fault → Prop}

/-! ### Descriptors -/

/-- **The loop** that closes descriptors: `I D` holds while the descriptors in `D` still count, and each turn takes one
of the dying process from `D`. -/
theorem closeFds_rule {I : Finset (ℕ × ℕ) → Objects → Prop} {fds : List ℕ} (h : I (D ∪ slotsOf q fds) o)
    (hnodup : fds.Nodup) (hD : ∀ s ∈ D, s.1 ≠ q)
    (hnone : ∀ D' o fd, (q, fd) ∉ D' → I (insert (q, fd) D') o → o.filedesc q fd = none → I D' o)
    (hsome : ∀ D' o fd a, (q, fd) ∉ D' → I (insert (q, fd) D') o → o.filedesc q fd = some a →
      Acts State.objects F o (closeFilehandle a) fun _ o' => I D' o') :
    Acts State.objects F o (closeFds q fds) fun _ o' => I D o' := by
  induction fds generalizing o with
  | nil =>
    have hempty : D ∪ slotsOf q [] = D := by
      ext s
      simp [mem_slotsOf]
    rw [hempty] at h
    exact Acts.pure h
  | cons fd fds ih =>
    rw [List.nodup_cons] at hnodup
    rw [union_slotsOf_cons, Finset.insert_union] at h
    have hs : (q, fd) ∉ D ∪ slotsOf q fds := by
      intro hmem
      rcases Finset.mem_union.mp hmem with hin | hin
      · exact hD _ hin rfl
      · exact hnodup.1 (mem_slotsOf.mp hin).2
    refine Acts.get fun k hk => ?_
    subst hk
    cases ha : k.filedesc q fd with
    | none => exact Acts.seq (Acts.pure (ih (hnone _ _ fd hs h ha) hnodup.2))
    | some a => exact Acts.bind (hsome _ _ fd a hs h ha) fun _ _ h' => ih h' hnodup.2

theorem Sane.closeFds {fds : List ℕ} (h : Sane n C (some q) (D ∪ slotsOf q fds) box o)
    (hnodup : fds.Nodup) (hD : ∀ s ∈ D, s.1 ≠ q) :
    Acts State.objects F o (closeFds q fds) fun _ o' =>
      Sane n C (some q) D box o' ∧ Fewer o o' ∧ o'.filedesc = o.filedesc := by
  -- blocked readers are not the dying process
  have hslots : ∀ {D' : Finset (ℕ × ℕ)} {o' : Objects} {fd : ℕ}, Sane n C (some q) (insert (q, fd) D') box o' →
      ∀ z e, Parked o'.sched.procs SYSCALL_READ z → e < MAX_FDS → (z, e) ∈ D' := by
    intro D' o' fd h z e hz he
    refine (Finset.mem_insert.mp (h.slots z e hz he)).resolve_left ?_
    intro heq
    exact h.alive z hz (by rw [(Prod.mk.inj heq).1])
  refine closeFds_rule (I := fun D' o' => Sane n C (some q) D' box o' ∧ Fewer o o' ∧ o'.filedesc = o.filedesc)
    ⟨h, Fewer.refl o, rfl⟩ hnodup hD ?_ ?_
  · rintro D' o' fd hs ⟨h, hrest⟩ ha
    exact ⟨⟨⟨h.tidy.counted.closed hs ha, h.tidy.paired, h.tidy.stored⟩, h.sched, h.waits, h.entries, hslots h,
      h.alive, h.input⟩, hrest⟩
  · rintro D' o' fd a hs ⟨h, hf, hfds⟩ ha
    refine (h.close hs ha (hslots h)).mono ?_
    rintro _ o₁ ⟨hcl, hsane⟩
    exact ⟨hsane, hf.trans hcl.fewer, hcl.filedesc.trans hfds⟩

/-! ### The table -/

/-- A woken parent can be resumed. -/
theorem bury_of (hwake : ∀ z, Wakes S q z → (S.procs z).exists_ = true ∧ (S.procs z).ready = false) :
    ∃ S', bury S q = .ok S' := by
  have hrelease : ∃ S', release (orphan S (S.procs q).pid) q = .ok S' := by
    unfold release
    cases hparent : ((orphan S (S.procs q).pid).procs q).parentPid with
    | none => exact ⟨_, rfl⟩
    | some parent =>
      simp only
      unfold wakeParent
      split
      · rename_i hw
        have hw' : Wakes S q parent := by
          refine ⟨hparent, ?_⟩
          rw [orphan_proc, orphan_proc] at hw
          exact hw
        obtain ⟨hex, hready⟩ := hwake parent hw'
        apply resumeProcess_of
        · rw [set_procs, Function.update_self, orphan_proc]
          exact hex
        · rw [set_procs, Function.update_self, orphan_proc]
          exact hready
      · exact ⟨_, rfl⟩
  obtain ⟨S', hS'⟩ := hrelease
  unfold bury
  rw [hS']
  exact ⟨_, rfl⟩

theorem parked_buried {c : ℕ} (hno : c ≠ SYSCALL_WAITPID) :
    Parked (buried S q) c z ↔ Parked S.procs c z ∧ z ≠ q := by
  by_cases hz : z = q
  · rw [hz]
    constructor
    · intro h
      have halive := h.alive
      simp [buried] at halive
    · exact fun h => absurd rfl h.2
  · have hexit : (buried S q z).exited = (S.procs z).exited := if_neg hz
    have hex : (buried S q z).exists_ = (S.procs z).exists_ := if_neg fun h => hz h.1
    have hcall : (buried S q z).inSyscall = (S.procs z).inSyscall := rfl
    have hready : ¬ Wakes S q z → (buried S q z).ready = (S.procs z).ready := fun hw => if_neg hw
    constructor
    · intro h
      have hw : ¬ Wakes S q z := fun hw => hno (h.call.symm.trans (hcall.trans hw.2.1))
      exact ⟨⟨hex.symm.trans h.exists_, hexit.symm.trans h.alive, (hready hw).symm.trans h.idle,
        hcall.symm.trans h.call⟩, hz⟩
    · rintro ⟨h, -⟩
      have hw : ¬ Wakes S q z := fun hw => hno (h.call.symm.trans hw.2.1)
      exact ⟨hex.trans h.exists_, hexit.trans h.alive, (hready hw).trans h.idle, hcall.trans h.call⟩

/-- The entries after the death of `q`. -/
theorem Entries.buried {serving : Option ℕ} {stale stale' : ℕ → Bool} {mail : ℕ → List Message}
    (h : Entries serving S.procs stale mail) (hq : S.Live q)
    (hstale : stale' = Function.update stale q (S.procs q).mailbox.isSome) :
    Entries serving (Process.buried S q) stale' mail := by
  have hparked := fun z => parked_buried (S := S) (q := q) (z := z) (c := SYSCALL_RECEIVE) (by decide)
  have hother : ∀ z, z ≠ q → stale' z = stale z := fun z hz => by rw [hstale, Function.update_of_ne hz]
  have hexists : ∀ z, (Process.buried S q z).exists_ = true → (S.procs z).exists_ = true := by
    intro z hz
    by_contra hne
    simp only [Process.buried, mourned] at hz
    split at hz
    · cases hz
    · exact hne hz
  -- the mailbox of the dead process is remembered
  have hself : stale' q = false → (S.procs q).mailbox = none := by
    intro hs
    rw [hstale, Function.update_self] at hs
    exact Option.isSome_eq_false_iff.mp hs |> Option.isNone_iff_eq_none.mp
  have hfresh := h.fresh q hq.1 hq.2
  refine ⟨?_, ?_, ?_, ?_, ?_, ?_, ?_⟩
  · intro z hex hexit
    have hz : z ≠ q := by
      rintro rfl
      simp [Process.buried] at hexit
    rw [hother z hz]
    refine h.fresh z (hexists z hex) ?_
    rw [← hexit]
    exact (if_neg hz).symm
  · intro z hex hs
    by_cases hz : z = q
    · rw [hz]
      exact h.size q hq.1 hfresh
    · rw [hother z hz] at hs
      exact h.size z (hexists z hex) hs
  · intro z hex hs hnone
    by_cases hz : z = q
    · rw [hz]
      rw [hz] at hnone
      exact h.empty q hq.1 hfresh hnone
    · rw [hother z hz] at hs
      exact h.empty z (hexists z hex) hs hnone
  · intro z hex hs hsome
    by_cases hz : z = q
    · rw [hz] at hs hsome
      exact absurd (hself hs) hsome
    · rw [hother z hz] at hs
      exact h.alloc z (hexists z hex) hs hsome
  · intro z hex hexit
    have hz : z ≠ q := by
      rintro rfl
      simp [Process.buried] at hexit
    rw [hparked z, and_iff_left hz]
    refine h.blocked z (hexists z hex) ?_
    rw [← hexit]
    exact (if_neg hz).symm
  · intro z hz
    exact h.hungry z ((hparked z).mp hz).1
  · intro z hserve hex hexit hcall hwait
    have hz : z ≠ q := by
      rintro rfl
      simp [Process.buried] at hexit
    by_cases hw : Wakes S q z
    · have hnone : (Process.buried S q z).waitingOn = none := if_pos hw
      exact absurd hnone hwait
    · have hready : (Process.buried S q z).ready = (S.procs z).ready := if_neg hw
      have hon : (Process.buried S q z).waitingOn = (S.procs z).waitingOn := if_neg hw
      rw [hready]
      rw [hon] at hwait
      refine h.waiting z hserve (hexists z hex) ?_ hcall hwait
      rw [← hexit]
      exact (if_neg hz).symm

/-- The live slots of the others. -/
def slotsBut (S : Sched) (q : ℕ) : Finset (ℕ × ℕ) := (liveSlots S).filter fun s => s.1 ≠ q

theorem slotsBut_ne : ∀ s ∈ slotsBut S q, s.1 ≠ q := by
  intro s hs
  rw [slotsBut, Finset.mem_filter] at hs
  exact hs.2

theorem liveSlots_buried (hG : Good S) (hG' : Good S') (hlive : ∀ z, S'.Live z ↔ S.Live z ∧ z ≠ q) :
    liveSlots S' = slotsBut S q := by
  ext s
  rw [slotsBut, Finset.mem_filter, mem_liveSlots hG', mem_liveSlots hG, hlive]
  tauto

theorem boxes_buried {stale : ℕ → Bool} (hS : S'.procs = buried S q) :
    boxes S'.procs (Function.update stale q (S.procs q).mailbox.isSome) =
      Function.update (boxes S.procs stale) q none := by
  funext z
  rw [hS]
  by_cases hz : z = q
  · rw [hz, Function.update_self, boxes, Function.update_self]
    have hbox : (buried S q q).mailbox = (S.procs q).mailbox := rfl
    rw [hbox]
    cases (S.procs q).mailbox with
    | none => split <;> rfl
    | some x => exact if_neg (by simp)
  · have hex : (buried S q z).exists_ = (S.procs z).exists_ := if_neg fun h => hz h.1
    rw [Function.update_of_ne hz, boxes, boxes, Function.update_of_ne hz, hex]
    rfl

theorem Woken.detach_proc (h : Woken (detach S q) S') (z : ℕ) :
    ∃ ready, S'.procs z = { S.procs z with ready := ready } := by
  obtain ⟨r, hr, -⟩ := h.procs z
  rw [detach_procs] at hr
  exact ⟨r, hr⟩

/-- **The burial** closes the death of a process whose descriptors and mailbox are gone. -/
theorem Sane.bury (h : Sane n C (some q) (slotsBut S q) (Function.update (boxes S.procs n.stale) q none) o)
    (hwoken : Woken (detach S q) o.sched) (hG : Good S) (hq : S.Live q)
    (hserve : ∀ r, n.serving = some r → (S.procs r).inSyscall ≠ SYSCALL_WAITPID) :
    ∃ S', Process.bury o.sched q = .ok S' ∧ S'.procs = buried o.sched q ∧
      S'.current = o.sched.current ∧
      Whole { n with stale := Function.update n.stale q (S.procs q).mailbox.isSome } C
        { o with sched := S' } := by
  obtain ⟨S₁, hG₁, hS₁⟩ := h.sched
  have hS₁' : o.sched = detach S₁ q := hS₁
  have hproc := hwoken.detach_proc
  have hlive : ∀ z, o.sched.Live z ↔ S.Live z := by
    intro z
    obtain ⟨r, hr⟩ := hproc z
    rw [Sched.Live, Sched.Live, hr]
  have hlive₁ : ∀ z, o.sched.Live z ↔ S₁.Live z := by
    intro z
    rw [Sched.Live, Sched.Live, hS₁', detach_procs]
  have hq₁ : S₁.Live q := (hlive₁ q).mp ((hlive q).mpr hq)
  obtain ⟨S', hS'⟩ : ∃ S', Process.bury o.sched q = .ok S' := by
    apply bury_of
    intro z hw
    have hw₁ : Wakes S₁ q z := by
      rw [hS₁'] at hw
      exact (wakes_detach S₁ q z).mp hw
    obtain ⟨R, U, hI⟩ := hG₁
    have hz := (hlive₁ z).mpr (hI.wakes_alive hq₁.1 hw₁).1
    refine ⟨hz.1, h.entries.waiting z ?_ hz.1 hz.2 hw.2.1 (by rw [hw.2.2]; simp)⟩
    intro hserving
    obtain ⟨r, hr⟩ := hproc z
    have hcall := hw.2.1
    rw [hr] at hcall
    exact hserve z hserving.symm hcall
  obtain ⟨hprocs, hcur, -⟩ := bury_ok hS'
  have hG' : Good S' := by
    refine hG₁.kill hq₁.1 ?_
    rw [Process.killProcess, ← hS₁']
    exact hS'
  have hlive' : ∀ z, S'.Live z ↔ S.Live z ∧ z ≠ q := by
    intro z
    rw [live_of_buried hprocs, hlive]
  have hmailbox : (o.sched.procs q).mailbox = (S.procs q).mailbox := by
    obtain ⟨r, hr⟩ := hproc q
    rw [hr]
  have hboxes : boxes o.sched.procs n.stale = boxes S.procs n.stale := by
    funext z
    obtain ⟨r, hr⟩ := hproc z
    rw [boxes, boxes, hr]
  have hparked : ∀ z, Parked S'.procs SYSCALL_READ z ↔ Parked o.sched.procs SYSCALL_READ z := by
    intro z
    rw [hprocs, parked_buried (by decide), and_iff_left_iff_imp]
    intro hz he
    exact h.alive z hz (by rw [he])
  refine ⟨S', hS', hprocs, hcur, ?_⟩
  unfold Whole
  show Sane _ C none (liveSlots S')
    (boxes S'.procs (Function.update n.stale q (S.procs q).mailbox.isSome)) { o with sched := S' }
  rw [liveSlots_buried hG hG' hlive', ← hmailbox, boxes_buried hprocs, hboxes]
  refine ⟨⟨h.tidy.counted, h.tidy.paired, h.tidy.stored⟩, ⟨S', hG', rfl⟩, ⟨?_, ?_⟩, ?_, ?_, ?_, h.input⟩
  · intro b pb z hb hr
    obtain ⟨⟨hpark, hreads⟩, hlen, hw⟩ := h.waits.reader b pb z hb hr
    exact ⟨⟨(hparked z).mpr hpark, hreads⟩, hlen, hw⟩
  · exact fun z hz => h.waits.parked z ((hparked z).mp hz)
  · show Entries n.serving S'.procs _ C.mail
    rw [hprocs]
    exact h.entries.buried ((hlive q).mpr hq) rfl
  · exact fun z fd hz => h.slots z fd ((hparked z).mp hz)
  · intro z _ he
    cases he

/-! ### `kill_process` -/

/-- What remains of the objects when the process `q` has been killed. -/
structure Killed (o : Objects) (q : ℕ) (o' : Objects) : Prop where
  handles : Shrinks o o'
  pipes : ∀ b, o.pipes b = none → o'.pipes b = none
  table : ∃ S₁, Woken (detach o.sched q) S₁ ∧ o'.sched.procs = buried S₁ q ∧ o'.sched.current = S₁.current

theorem slotsBut_union (hG : Good S) (hq : S.Live q) :
    slotsBut S q ∪ slotsOf q (List.range MAX_FDS) = liveSlots S := by
  ext s
  rw [Finset.mem_union, slotsBut, Finset.mem_filter, mem_liveSlots hG, mem_slotsOf, List.mem_range]
  constructor
  · rintro (⟨h, -⟩ | ⟨h1, h2⟩)
    · exact h
    · rw [h1]
      exact ⟨hq, h2⟩
  · intro h
    by_cases hs : s.1 = q
    · exact Or.inr ⟨hs, h.2⟩
    · exact Or.inl ⟨h, hs⟩

/-- The process leaves its list. -/
theorem Whole.detach (h : Whole n C o) (hq : o.sched.Live q) (hpark : ¬ Parked o.sched.procs SYSCALL_READ q) :
    Sane n C (some q) (slotsBut o.sched q ∪ slotsOf q (List.range MAX_FDS))
      (boxes o.sched.procs n.stale) { o with sched := detach o.sched q } := by
  rw [slotsBut_union h.good hq]
  refine ⟨⟨h.tidy.counted, h.tidy.paired, h.tidy.stored⟩, ⟨o.sched, h.good, rfl⟩, ⟨?_, ?_⟩, ?_, ?_, ?_,
    h.input⟩
  · intro b pb z hb hr
    obtain ⟨⟨hz, hreads⟩, hlen, hw⟩ := h.waits.reader b pb z hb hr
    refine ⟨⟨?_, hreads⟩, hlen, hw⟩
    show Parked (Process.detach o.sched q).procs _ z
    rw [detach_procs]
    exact hz
  · intro z hz
    have hz' : Parked (Process.detach o.sched q).procs SYSCALL_READ z := hz
    rw [detach_procs] at hz'
    exact h.waits.parked z hz'
  · show Entries n.serving (Process.detach o.sched q).procs n.stale C.mail
    rw [detach_procs]
    exact h.entries
  · intro z fd hz
    have hz' : Parked (Process.detach o.sched q).procs SYSCALL_READ z := hz
    rw [detach_procs] at hz'
    exact h.slots z fd hz'
  · intro z hz he
    have hz' : Parked (Process.detach o.sched q).procs SYSCALL_READ z := hz
    rw [detach_procs] at hz'
    rw [Option.some.inj he] at hz'
    exact hpark hz'

/-- The mailbox of the dying process is freed. -/
theorem Tidy.freeMailbox {std : ℕ → Bool} {x : Option ℕ} (h : Tidy std C box D o) (hown : box q = x) :
    Acts State.objects F o (freeMailbox x) fun _ o' =>
      ∃ h', o' = { o with heap := h' } ∧ Tidy std C (Function.update box q none) D o' ∧
        ∀ a N, x = some a → ¬ Allocated kernelRegion h' a N := by
  obtain ⟨T, hS⟩ := h.stored
  cases x with
  | none =>
    apply Acts.pure
    have hbox : Function.update box q none = box := by rw [← hown, Function.update_eq_self]
    rw [hbox]
    exact ⟨o.heap, rfl, h, fun _ _ hx => by cases hx⟩
  | some a =>
    obtain ⟨h', T', hok, hS'⟩ := hS.dropBox hown
    refine does_kfree hok ⟨h', rfl, ⟨h.counted, h.paired, T', hS'⟩, ?_⟩
    intro a' N ha
    rw [← Option.some.inj ha]
    exact hS.holds.freed (hS.owned q a hown) hok

theorem Sane.freeMailbox (h : Sane n C (some q) D (boxes S.procs n.stale) o) (hq : S.Live q)
    (hfresh : n.stale q = false) :
    Acts State.objects F o (freeMailbox (S.procs q).mailbox) fun _ o' =>
      Sane n C (some q) D (Function.update (boxes S.procs n.stale) q none) o' ∧
        ∃ h', o' = { o with heap := h' } ∧ ∀ a N, (S.procs q).mailbox = some a → ¬ Allocated kernelRegion h' a N := by
  have hown : boxes S.procs n.stale q = (S.procs q).mailbox := if_pos ⟨hq.1, hfresh⟩
  refine (h.tidy.freeMailbox hown).mono ?_
  rintro _ _ ⟨h', rfl, htidy, hfreed⟩
  exact ⟨⟨htidy, h.sched, ⟨h.waits.reader, h.waits.parked⟩, h.entries, h.slots, h.alive, h.input⟩, h', rfl, hfreed⟩

/-- **`kill_process`** of a process that is alive and not blocked in a read. -/
theorem Whole.killProcess (h : Whole n C o) (hq : o.sched.Live q)
    (hpark : ¬ Parked o.sched.procs SYSCALL_READ q)
    (hserve : ∀ r, n.serving = some r → (o.sched.procs r).inSyscall ≠ SYSCALL_WAITPID) :
    Does o (killProcess q) fun _ o' => Killed o q o' ∧
      Whole { n with stale := Function.update n.stale q (o.sched.procs q).mailbox.isSome } C o' := by
  have hsane := h.detach hq hpark
  unfold Kernel.killProcess
  refine Acts.seq (does_schedDo rfl ?_)
  refine Acts.bind (hsane.closeFds List.nodup_range slotsBut_ne) ?_
  rintro _ o₁ ⟨hsane₁, hf, -⟩
  refine Acts.get fun k hk => ?_
  refine (remote_onPages fun P => mild_releasePages (k.space q) P).andThen fun _ => ?_
  have hwoken : Woken (Process.detach o.sched q) o₁.sched := hf.woken
  have hmailbox : (k.sched.procs q).mailbox = (o.sched.procs q).mailbox := by
    obtain ⟨r, hr⟩ := hwoken.detach_proc q
    have hks : k.sched = o₁.sched := congrArg Objects.sched hk
    rw [hks, hr]
  rw [hmailbox]
  refine Acts.bind (hsane₁.freeMailbox hq (h.fresh q hq)) ?_
  rintro _ _ ⟨hsane₂, h', rfl, -⟩
  obtain ⟨S', hS', hprocs, hcur, hwhole⟩ := hsane₂.bury hwoken h.good hq hserve
  refine does_schedDo hS' ⟨⟨hf.handles, hf.pipes, o₁.sched, hwoken, hprocs, hcur⟩, hwhole⟩

/-- Who is alive after a death. -/
theorem Killed.live (h : Killed o q o') (z : ℕ) : o'.sched.Live z ↔ o.sched.Live z ∧ z ≠ q := by
  obtain ⟨S₁, hw, hprocs, -⟩ := h.table
  rw [live_of_buried hprocs, hw.live, Sched.Live, detach_procs]
  rfl

theorem Killed.exists_ (h : Killed o q o') {z : ℕ} (hz : (o.sched.procs z).exists_ = false) :
    (o'.sched.procs z).exists_ = false := by
  obtain ⟨S₁, hw, hprocs, -⟩ := h.table
  have hS₁ : (S₁.procs z).exists_ = false := by
    rw [hw.exists_ z, detach_procs]
    exact hz
  rw [hprocs]
  show (if _ then _ else _) = _
  split
  · rfl
  · exact hS₁

/-- What is remembered after a death. -/
theorem Killed.after (h : Killed o q o') (hq : o.sched.Live q)
    (hfresh : ∀ z, o.sched.Live z → n.stale z = false) :
    n.after o o' = { n with stale := Function.update n.stale q (o.sched.procs q).mailbox.isSome } := by
  have hstale : (n.after o o').stale = Function.update n.stale q (o.sched.procs q).mailbox.isSome := by
    funext z
    show (if _ then _ else _) = _
    by_cases hz : z = q
    · rw [hz, Function.update_self, if_neg fun hl => ((h.live q).mp hl).2 rfl, if_pos hq]
    · rw [Function.update_of_ne hz]
      by_cases hl : o.sched.Live z
      · rw [if_pos ((h.live z).mpr ⟨hl, hz⟩), hfresh z hl]
      · rw [if_neg fun hl' => hl ((h.live z).mp hl').1, if_neg hl]
  rw [← hstale]
  rfl

/-- A death moves no data. -/
theorem Killed.silent (h : Killed o q o') (C : Contents) : Silent C C o o' :=
  silent_refl C h.pipes fun _ hz => h.exists_ hz

/-- The current process stays, unless it is the one that dies. -/
theorem Killed.current (h : Killed o q o') :
    o'.sched.current = if o.sched.current = some q then none else o.sched.current := by
  obtain ⟨S₁, hw, -, hcur⟩ := h.table
  rw [hcur, hw.current, detach_current]

theorem Killed.ready (h : Killed o q o') (hready : (o.sched.procs p).ready = true) :
    (o'.sched.procs p).ready = true := by
  obtain ⟨S₁, hw, hprocs, -⟩ := h.table
  have hS₁ : (S₁.procs p).ready = true := by
    apply hw.ready
    rw [detach_procs]
    exact hready
  rw [hprocs]
  show (if _ then _ else _) = _
  split
  · rfl
  · exact hS₁

/-! ### `exit`, `kill` and `waitpid` -/

theorem setExitStatus_proc (S : Sched) (p : ℕ) (status : ℤ) (z : ℕ) :
    (setExitStatus S p status).procs z =
      { S.procs z with exitStatus := if z = p then status else (S.procs z).exitStatus } := by
  by_cases hz : z = p
  · rw [if_pos hz, hz]
    exact Function.update_self _ _ _
  · rw [if_neg hz]
    exact Function.update_of_ne hz _ _

theorem Whole.setExitStatus (h : Whole n C o) (p : ℕ) (status : ℤ) :
    Whole n C { o with sched := setExitStatus o.sched p status } := by
  have hproc := setExitStatus_proc o.sched p status
  refine h.retable (h.good.set ⟨rfl, rfl, rfl, rfl⟩ rfl) ?_ ?_ rfl rfl rfl (fun _ => Or.inr rfl) ?_
  · intro z
    rw [hproc]
    exact ⟨rfl, rfl, rfl, rfl, rfl, rfl, rfl, rfl⟩
  · intro z
    rw [hproc]
    exact Or.inr rfl
  · intro z hz hlive
    rw [Sched.Live, hproc] at hlive
    rw [hproc]
    exact h.entries.waiting z hz hlive.1 hlive.2

/-- The caller, or another process, has been killed by the call. -/
theorem Serving.killed (h : Serving n C p o) (hk : Killed o q o') (hq : o.sched.Live q)
    (hw : Whole { n with stale := Function.update n.stale q (o.sched.procs q).mailbox.isSome } C o')
    (hres : res = if q = p then -ESUSPEND else 0) : Quietly n C p o res o' := by
  refine ⟨C, hk.silent C, ?_, ?_, hk.handles.kept⟩
  · rw [hk.after hq h.whole.fresh]
    exact hw
  · by_cases hqp : q = p
    · rw [hres, if_pos hqp, Settled, if_pos rfl]
      intro _ _ hlive
      exact absurd hqp.symm ((hk.live p).mp hlive).2
    · rw [hres, if_neg hqp, Settled, if_neg (by decide), hk.current, h.current, if_neg]
      · exact ⟨rfl, hk.ready h.ready⟩
      · exact fun he => hqp (Option.some.inj he).symm

theorem Serving.killProcess (h : Serving n C p o)
    (hcall : (o.sched.procs p).inSyscall ≠ SYSCALL_WAITPID) (hq : o.sched.Live q)
    (hpark : ¬ Parked o.sched.procs SYSCALL_READ q) :
    Does o (killProcess q) fun _ o' => Quietly n C p o (if q = p then -ESUSPEND else 0) o' := by
  have hserve : ∀ r, n.serving = some r → (o.sched.procs r).inSyscall ≠ SYSCALL_WAITPID := by
    intro r hr
    obtain rfl : p = r := Option.some.inj (h.serving.symm.trans hr)
    exact hcall
  refine (h.whole.killProcess hq hpark hserve).mono ?_
  rintro _ o' ⟨hk, hw⟩
  exact h.killed hk hq hw rfl

/-- The call began with assignments to fields that the outcome does not depend on. -/
theorem Quietly.before (h : Quietly n C p { o with sched := S } res o')
    (hsame : ∀ z, SameEntry (o.sched.procs z) (S.procs z)) : Quietly n C p o res o' := by
  obtain ⟨C', hsilent, hdone⟩ := h
  have hafter : n.after { o with sched := S } o' = n.after o o' := by
    have hstale : (n.after { o with sched := S } o').stale = (n.after o o').stale := by
      funext z
      show (if _ then _ else if S.Live z then (S.procs z).mailbox.isSome else _) = _
      simp only [live_of_sameEntry hsame z, (hsame z).mailbox]
      rfl
    exact congrArg (fun stale => ({ n with stale := stale } : Notes)) hstale
  refine ⟨C', ⟨hsilent.text, hsilent.fresh, ?_, ?_⟩, ?_, hdone.settled, hdone.kept⟩
  · exact fun z hz => hsilent.mail z ((hsame z).exists_.trans hz)
  · exact fun z hz => hsilent.unread z ((hsame z).exists_.trans hz)
  · rw [← hafter]
    exact hdone.whole

theorem Serving.syscallExit (h : Serving n C p o)
    (hcall : (o.sched.procs p).inSyscall ≠ SYSCALL_WAITPID) (status : ℤ) :
    Does o (syscallExit p status) (Quietly n C p o) := by
  have hproc := setExitStatus_proc o.sched p status
  have hserving : Serving n C p { o with sched := setExitStatus o.sched p status } := by
    refine ⟨h.whole.setExitStatus p status, h.serving, h.current, ?_⟩
    show ((setExitStatus o.sched p status).procs p).ready = true
    rw [hproc]
    exact h.ready
  unfold Kernel.syscallExit
  refine Acts.seq (does_schedDo rfl ?_)
  refine Acts.bind (hserving.killProcess ?_ hserving.live (hserving.not_parked _)) ?_
  · show ((setExitStatus o.sched p status).procs p).inSyscall ≠ _
    rw [hproc]
    exact hcall
  rintro _ o' hquiet
  rw [if_pos rfl] at hquiet
  refine Acts.pure (hquiet.before fun z => ?_)
  rw [hproc]
  exact ⟨rfl, rfl, rfl, rfl, rfl, rfl, rfl, rfl⟩

theorem Serving.syscallKill (h : Serving n C p o)
    (hcall : (o.sched.procs p).inSyscall ≠ SYSCALL_WAITPID) {pid : ℤ}
    (htarget : ∀ t : ℕ, pid = t → (o.sched.procs t).exists_ = true →
      (o.sched.procs t).exited = false ∧ ¬ Parked o.sched.procs SYSCALL_READ t) :
    Does o (syscallKill p pid) (Quietly n C p o) := by
  refine Acts.get fun k hk => ?_
  subst hk
  refine Acts.ite (fun _ => Acts.pure (h.stay (by decide))) fun hc => ?_
  rw [not_or, not_or] at hc
  have hex : (k.sched.procs pid.toNat).exists_ = true := by simpa using hc.2.2
  have hpid : pid = (pid.toNat : ℤ) := by omega
  obtain ⟨halive, hpark⟩ := htarget pid.toNat hpid hex
  refine Acts.bind (h.killProcess hcall ⟨hex, halive⟩ hpark) ?_
  rintro _ o' hquiet
  apply Acts.pure
  have hself : (k.sched.procs p).pid = p := h.whole.good.pid_eq h.live.1
  have hres : (if pid = (k.sched.procs p).pid then -ESUSPEND else 0) =
      (if pid.toNat = p then -ESUSPEND else 0) := by
    rw [hself]
    congr 1
    rw [eq_iff_iff]
    omega
  rw [hres]
  exact hquiet

/-! ### `waitpid` -/

/-- The table changes only in what the calling process waits for and in which exited processes exist. -/
def Relaxed (serving : Option ℕ) (v w : Proc) (q : ℕ) : Prop :=
  ∃ e on, w = { v with exists_ := e, waitingOn := on } ∧ (e = true → v.exists_ = true) ∧
    (v.exited = false → e = v.exists_) ∧ (some q ≠ serving → on = v.waitingOn)

section

variable {serving : Option ℕ} {procs procs' : ℕ → Proc} {stale : ℕ → Bool} {mail : ℕ → List Message}

theorem parked_relaxed {c : ℕ} (hv : ∀ q, Relaxed serving (procs q) (procs' q) q) :
    Parked procs' c q ↔ Parked procs c q := by
  obtain ⟨e, on, hq, hex, halive, -⟩ := hv q
  constructor
  · intro h
    have hexists := h.exists_
    have hexit := h.alive
    have hidle := h.idle
    have hcall := h.call
    rw [hq] at hexists hexit hidle hcall
    exact ⟨hex hexists, hexit, hidle, hcall⟩
  · intro h
    refine ⟨?_, ?_, ?_, ?_⟩ <;> rw [hq]
    · exact (halive h.alive).trans h.exists_
    · exact h.alive
    · exact h.idle
    · exact h.call

theorem Entries.relaxed (h : Entries serving procs stale mail)
    (hv : ∀ q, Relaxed serving (procs q) (procs' q) q) : Entries serving procs' stale mail := by
  have hparked := fun q => parked_relaxed (c := SYSCALL_RECEIVE) (q := q) hv
  refine ⟨?_, ?_, ?_, ?_, ?_, ?_, ?_⟩
  · intro q hexists hexit
    obtain ⟨e, on, hq, hex, -, -⟩ := hv q
    rw [hq] at hexists hexit
    exact h.fresh q (hex hexists) hexit
  · intro q hexists hs
    obtain ⟨e, on, hq, hex, -, -⟩ := hv q
    rw [hq] at hexists ⊢
    exact h.size q (hex hexists) hs
  · intro q hexists hs hnone
    obtain ⟨e, on, hq, hex, -, -⟩ := hv q
    rw [hq] at hexists hnone
    exact h.empty q (hex hexists) hs hnone
  · intro q hexists hs hsome
    obtain ⟨e, on, hq, hex, -, -⟩ := hv q
    rw [hq] at hexists hsome ⊢
    exact h.alloc q (hex hexists) hs hsome
  · intro q hexists hexit
    rw [hparked q]
    obtain ⟨e, on, hq, hex, -, -⟩ := hv q
    rw [hq] at hexists hexit ⊢
    exact h.blocked q (hex hexists) hexit
  · intro q hpark
    exact h.hungry q ((hparked q).mp hpark)
  · intro q hserve hexists hexit hcall hwait
    obtain ⟨e, on, hq, hex, -, hon⟩ := hv q
    rw [hq] at hexists hexit hcall hwait ⊢
    rw [hon hserve] at hwait
    exact h.waiting q hserve (hex hexists) hexit hcall hwait

end

/-- **`waitpid`** returns to its caller. -/
theorem Serving.relaxed (h : Serving n C p o) (hG : Good S') (hcur : S'.current = o.sched.current)
    (hv : ∀ q, Relaxed (some p) (o.sched.procs q) (S'.procs q) q) (hres : res ≠ -ESUSPEND) :
    Quietly n C p o res { o with sched := S' } := by
  have hlive : ∀ z, S'.Live z ↔ o.sched.Live z := by
    intro z
    obtain ⟨e, on, hz, hex, halive, -⟩ := hv z
    rw [Sched.Live, Sched.Live, hz]
    constructor
    · exact fun hl => ⟨hex hl.1, hl.2⟩
    · exact fun hl => ⟨(halive hl.2).trans hl.1, hl.2⟩
  have hboxes : ∀ z x, boxes S'.procs n.stale z = some x → boxes o.sched.procs n.stale z = some x := by
    intro z x hx
    obtain ⟨e, on, hz, hex, -, -⟩ := hv z
    rw [boxes, hz] at hx
    split at hx
    · rename_i hc
      rw [boxes, if_pos ⟨hex hc.1, hc.2⟩]
      exact hx
    · cases hx
  obtain ⟨T, hS⟩ := h.whole.tidy.stored
  rw [← h.serving] at hv
  refine ⟨C, silent_refl C (fun _ hb => hb) ?_, ?_, ?_, kept_of_handles rfl⟩
  · intro z hz
    obtain ⟨e, on, hq, hex, -, -⟩ := hv z
    show (S'.procs z).exists_ = false
    rw [hq]
    cases e with
    | false => rfl
    | true =>
      rw [hex rfl] at hz
      cases hz
  · rw [h.whole.after_eq hlive]
    exact h.whole.update hG hlive (fun q => parked_relaxed hv) (hS.boxes hboxes)
      (h.whole.entries.relaxed hv)
  · rw [Settled, if_neg hres]
    refine ⟨hcur.trans h.current, ?_⟩
    obtain ⟨e, on, hp, -, -, -⟩ := hv p
    show (S'.procs p).ready = true
    rw [hp]
    exact h.ready

theorem relaxed_waitFor (S : Sched) (p : ℕ) (w : Option ℕ) (q : ℕ) :
    Relaxed (some p) (S.procs q) ((waitFor S p w).procs q) q := by
  refine ⟨_, _, waitFor_proc S p w q, fun h => h, fun _ => rfl, ?_⟩
  intro hq
  exact if_neg fun he => hq (by rw [he])

/-- The scheduler's part of `waitpid` cannot fail for a process that is running. -/
theorem syscallWaitpid_of (hex : (S.procs p).exists_ = true) (hready : (S.procs p).ready = true) (pid : ℤ) :
    ∃ x, Process.syscallWaitpid S p pid = .ok x := by
  unfold Process.syscallWaitpid
  split
  · exact ⟨_, rfl⟩
  · simp only
    split
    · exact ⟨_, rfl⟩
    · split
      · exact ⟨_, rfl⟩
      · obtain ⟨S', hS'⟩ : ∃ S', suspendProcess
            (waitFor (waitFor S p none) p (some pid.toNat)) p = .ok S' := by
          apply suspendProcess_of
          · rw [waitFor_waitFor, waitFor_proc]
            exact hex
          · rw [waitFor_waitFor, waitFor_proc]
            exact hready
        rw [hS']
        exact ⟨_, rfl⟩

/-- The scheduler's part of `waitpid`. -/
theorem Serving.waited {value : Option ℤ} {pid : ℤ} (h : Serving n C p o)
    (hcall : (o.sched.procs p).inSyscall = SYSCALL_WAITPID)
    (hok : Process.syscallWaitpid o.sched p pid = .ok (res, value, S')) :
    Quietly n C p o res { o with sched := S' } := by
  have hp := h.live
  have hG : Good S' := h.whole.good.waitpid hp hok
  rcases syscallWaitpid_ok hok with ⟨rfl, -, hS⟩ | ⟨c, -, -, hexit, rfl, -, rfl⟩ |
    ⟨c, -, -, -, rfl, -, hsus⟩
  · rcases hS with rfl | rfl
    · exact h.stay (by decide)
    · exact h.relaxed hG rfl (relaxed_waitFor o.sched p none) (by decide)
  · refine h.relaxed hG rfl ?_ ?_
    · intro q
      rw [reap_proc, waitFor_proc]
      refine ⟨_, _, rfl, ?_, ?_, ?_⟩
      · intro he
        split at he
        · cases he
        · exact he
      · intro halive
        have hq : q ≠ c := by
          rintro rfl
          rw [hexit] at halive
          cases halive
        exact if_neg hq
      · intro hq
        exact if_neg fun he => hq (by rw [he])
    · simp only [ESUSPEND]
      omega
  · obtain ⟨hprocs, -⟩ := suspendProcess_entry hsus
    have hentry : (waitFor o.sched p (some c)).procs =
        Function.update o.sched.procs p { o.sched.procs p with waitingOn := some c } := rfl
    rw [hentry, Function.update_idem, Function.update_self] at hprocs
    refine h.dozes ⟨(o.sched.procs p).receiveBlocked, some c, rfl, ?_⟩ hprocs hG ?_ ?_
    · rw [h.whole.entries.blocked p hp.1 hp.2, hcall]
      constructor
      · exact fun hpark => absurd hpark (h.not_parked _)
      · intro hc
        cases hc
    · intro hc
      rw [hcall] at hc
      cases hc
    · rw [hcall]
      decide

theorem Serving.syscallWaitpid (h : Serving n C p o)
    (hcall : (o.sched.procs p).inSyscall = SYSCALL_WAITPID) (pid : ℤ) (status : ℕ) :
    Does o (syscallWaitpid p pid status) (Quietly n C p o) := by
  refine Acts.get fun k hk => ?_
  subst hk
  obtain ⟨⟨res, value, S'⟩, hok⟩ := syscallWaitpid_of h.live.1 h.ready pid
  have hlift : lift (Process.syscallWaitpid k.sched p pid) = pure (res, value, S') := by
    rw [show Process.syscallWaitpid k.sched p pid = _ from hok]
    rfl
  rw [hlift]
  refine Acts.seq (Acts.pure ?_)
  refine (remote_storeStatus p status value).andThen fun _ => ?_
  refine Acts.seq (Acts.modify fun k' hk' => Acts.pure ?_)
  have hobj : ({ k' with sched := S' } : State).objects = { k.objects with sched := S' } := by
    rw [← hk']
    rfl
  rw [hobj]
  exact h.waited hcall hok

end AdelaideOS.Kernel
