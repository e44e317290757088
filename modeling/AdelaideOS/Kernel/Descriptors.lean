import AdelaideOS.Kernel.Serving

/-!
# Opening, sharing and closing descriptors

What the calls on descriptors do to the objects, under the invariant: `close` and `dup2` give references back,
`dup2` and `fork` share them, `open` and `pipe` make handles.  `Fewer` and `Extends` say what else can be seen
afterwards of giving back and of making.
-/

namespace AdelaideOS.Kernel

open AdelaideOS.Buddy AdelaideOS.Lib.Bytes AdelaideOS.Lib.View AdelaideOS.Process

/-- Processes have been woken up, and nothing else happened to the table. -/
structure Woken (S S' : Sched) : Prop where
  current : S'.current = S.current
  procs : ∀ q, ∃ ready, S'.procs q = { S.procs q with ready := ready } ∧
    ((S.procs q).ready = true → ready = true)

/-- Handles and pipes have gone. -/
structure Fewer (o o' : Objects) : Prop where
  handles : Shrinks o o'
  pipes : ∀ b, o.pipes b = none → o'.pipes b = none
  woken : Woken o.sched o'.sched

/-- The same readers are blocked in the same way. -/
structure SameReaders (B B' : ℕ → Option PipeBuffer) : Prop where
  old : ∀ b pb' q, B' b = some pb' → pb'.readpid = some q →
    ∃ pb, B b = some pb ∧ pb.readpid = some q ∧ pb'.len = pb.len ∧ pb'.writing = pb.writing
  new : ∀ b pb q, B b = some pb → pb.readpid = some q → ∃ pb', B' b = some pb' ∧ pb'.readpid = some q

/-- Handles and pipes have come. -/
structure Extends (o o' : Objects) : Prop where
  handles : ∀ a fh, o.handles a = some fh → o'.handles a = some fh
  pipes : ∀ b pb, o.pipes b = some pb → o'.pipes b = some pb
  sched : o'.sched = o.sched

variable {n n' : Notes} {C C' : Contents} {dying : Option ℕ} {D D' : Finset (ℕ × ℕ)} {box : ℕ → Option ℕ}
  {o o' o'' : Objects} {a b p q fd : ℕ} {res : ℤ} {S S' S'' : Sched} {fh : Filehandle} {α : Type}
  {R : α → Objects → Prop} {U : Unit → Objects → Prop} {F : Fault → Prop}

/-! ### Waking up -/

theorem Woken.refl (S : Sched) : Woken S S := ⟨rfl, fun q => ⟨(S.procs q).ready, rfl, fun h => h⟩⟩

theorem Woken.trans (h : Woken S S') (h' : Woken S' S'') : Woken S S'' := by
  refine ⟨h'.current.trans h.current, ?_⟩
  intro q
  obtain ⟨r, hr, hmono⟩ := h.procs q
  obtain ⟨r', hr', hmono'⟩ := h'.procs q
  refine ⟨r', by rw [hr', hr], ?_⟩
  intro hready
  apply hmono'
  rw [hr]
  exact hmono hready

theorem woken_resume (h : resumeProcess S q = .ok S') : Woken S S' := by
  refine ⟨(resumeProcess_procs h).2, ?_⟩
  intro p
  refine ⟨_, resumeProcess_entry h p, ?_⟩
  intro hready
  split
  · rfl
  · exact hready

theorem Woken.live (h : Woken S S') (z : ℕ) : S'.Live z ↔ S.Live z := by
  obtain ⟨r, hr, -⟩ := h.procs z
  rw [Sched.Live, Sched.Live, hr]

theorem Woken.exists_ (h : Woken S S') (z : ℕ) : (S'.procs z).exists_ = (S.procs z).exists_ := by
  obtain ⟨r, hr, -⟩ := h.procs z
  rw [hr]

theorem Woken.ready (h : Woken S S') (hready : (S.procs p).ready = true) : (S'.procs p).ready = true := by
  obtain ⟨r, hr, hmono⟩ := h.procs p
  rw [hr]
  exact hmono hready

theorem Woken.boxes (h : Woken S S') (stale : ℕ → Bool) : boxes S'.procs stale = boxes S.procs stale := by
  funext z
  obtain ⟨r, hr, -⟩ := h.procs z
  rw [Kernel.boxes, Kernel.boxes, hr]

theorem Woken.slots (h : Woken S S') : liveSlots S' = liveSlots S := liveSlots_congr h.live

/-! ### Giving back -/

theorem Fewer.refl (o : Objects) : Fewer o o := ⟨Shrinks.refl o, fun _ h => h, Woken.refl _⟩

theorem Fewer.trans (h : Fewer o o') (h' : Fewer o' o'') : Fewer o o'' :=
  ⟨h.handles.trans h'.handles, fun b hb => h'.pipes b (h.pipes b hb), h.woken.trans h'.woken⟩

theorem Closed.fewer (h : Closed o a o') : Fewer o o' := by
  refine ⟨h.shrinks, ?_, ?_⟩
  · have hupd : ∀ {c : ℕ} {x : PipeBuffer} {v : Option PipeBuffer}, o.pipes c = some x → ∀ b,
        o.pipes b = none → Function.update o.pipes c v b = none := by
      intro c x v hc b hb
      have hne : b ≠ c := by
        intro he
        rw [he, hc] at hb
        cases hb
      rw [Function.update_of_ne hne]
      exact hb
    cases h with
    | shared fh hfh hmore => exact fun _ hb => hb
    | plain fh h hfh hlast hty => exact fun _ hb => hb
    | reader fh pb h hfh hlast hty hp => exact hupd hp
    | writer fh pb h S hfh hlast hty hp hS => exact hupd hp
  · rcases h.sched with he | ⟨b, pb, q, -, -, hres⟩
    · rw [he]
      exact Woken.refl _
    · exact woken_resume hres

/-- The handler gave something back. -/
theorem Serving.fewer (h : Serving n C p o) (hf : Fewer o o') (hw : Whole n C o')
    (hres : res ≠ -ESUSPEND) : Quietly n C p o res o' := by
  refine ⟨C, silent_refl C hf.pipes ?_, ?_, ?_, hf.handles.kept⟩
  · intro z hz
    rw [hf.woken.exists_ z]
    exact hz
  · rw [h.whole.after_eq hf.woken.live]
    exact hw
  · rw [Settled, if_neg hres]
    exact ⟨hf.woken.current.trans h.current, hf.woken.ready h.ready⟩

/-! ### Changes of handles, pipes and descriptors -/

theorem SameReaders.refl (B : ℕ → Option PipeBuffer) : SameReaders B B :=
  ⟨fun _ pb _ hb hr => ⟨pb, hb, hr, rfl, rfl⟩, fun _ pb _ hb hr => ⟨pb, hb, hr⟩⟩

/-- Another pipe at `b` with the same reader. -/
theorem SameReaders.set {B : ℕ → Option PipeBuffer} {pb pb' : PipeBuffer} (hb : B b = some pb)
    (hr : pb'.readpid = pb.readpid) (hlen : pb'.len = pb.len) (hw : pb'.writing = pb.writing) :
    SameReaders B (Function.update B b (some pb')) := by
  constructor
  · intro c x q hx hrx
    rcases update_eq_some hx with ⟨rfl, rfl⟩ | ⟨-, hx⟩
    · exact ⟨pb, hb, hr.symm.trans hrx, hlen, hw⟩
    · exact ⟨x, hx, hrx, rfl, rfl⟩
  · intro c x q hx hrx
    by_cases hc : c = b
    · rw [hc, hb] at hx
      obtain rfl := Option.some.inj hx
      exact ⟨pb', by rw [hc, Function.update_self], hr.trans hrx⟩
    · exact ⟨x, by rw [Function.update_of_ne hc, hx], hrx⟩

/-- Who waits is not changed by new objects and by descriptors that are not counted. -/
theorem Waits.extend (h : Waits n o) (hsched : o'.sched = o.sched) (hargs : n'.args = n.args)
    (hslots : ∀ q fd, Parked o.sched.procs SYSCALL_READ q → fd < MAX_FDS → (q, fd) ∈ D)
    (hfds : ∀ s ∈ D, o'.filedesc s.1 s.2 = o.filedesc s.1 s.2)
    (hhandles : ∀ a fh, o.handles a = some fh →
      ∃ fh', o'.handles a = some fh' ∧ fh'.type = fh.type ∧ fh'.p = fh.p)
    (hpipes : SameReaders o.pipes o'.pipes) : Waits n' o' := by
  constructor
  · intro b pb q hb hr
    obtain ⟨pb₀, hb₀, hr₀, hlen₀, hw₀⟩ := hpipes.old b pb q hb hr
    obtain ⟨⟨hpark, h0, h1, x, fh, hx, hfh, hty, hp⟩, hlen, hw⟩ := h.reader b pb₀ q hb₀ hr₀
    have hfd : n'.fd q = n.fd q := by
      rw [Notes.fd, hargs, Notes.fd]
    refine ⟨⟨by rw [hsched]; exact hpark, ?_⟩, hlen₀.trans hlen, hw₀.trans hw⟩
    rw [hfd]
    obtain ⟨fh', hfh', ht', hp'⟩ := hhandles x fh hfh
    refine ⟨h0, h1, x, fh', ?_, hfh', ht'.trans hty, hp'.trans hp⟩
    rw [hfds (q, (n.fd q).toNat) (hslots q _ hpark (by omega))]
    exact hx
  · intro q hq
    rw [hsched] at hq
    obtain ⟨b, pb, hb, hr⟩ := h.parked q hq
    obtain ⟨pb', hb', hr'⟩ := hpipes.new b pb q hb hr
    exact ⟨b, pb', hb', hr'⟩

/-- **New objects** and descriptors that were not counted. -/
theorem Sane.extend {std' : ℕ → Bool} (h : Sane n C dying D box o) (htidy : Tidy std' C' box D' o')
    (hsched : o'.sched = o.sched) (hmail : C'.mail = C.mail) (hD : D ⊆ D')
    (hfds : ∀ s ∈ D, o'.filedesc s.1 s.2 = o.filedesc s.1 s.2)
    (hhandles : ∀ a fh, o.handles a = some fh →
      ∃ fh', o'.handles a = some fh' ∧ fh'.type = fh.type ∧ fh'.p = fh.p)
    (hpipes : SameReaders o.pipes o'.pipes)
    (hinput : ∀ b, n.input = some b → std' b = true) :
    Sane { n with std := std' } C' dying D' box o' := by
  refine ⟨htidy, ?_, h.waits.extend hsched rfl h.slots hfds hhandles hpipes, ?_, ?_, ?_, hinput⟩
  · rw [hsched]
    exact h.sched
  · rw [hsched, hmail]
    exact h.entries
  · intro q fd hq hlt
    rw [hsched] at hq
    exact hD (h.slots q fd hq hlt)
  · rw [hsched]
    exact h.alive

theorem kept_update (fh' : Filehandle) {H : ℕ → Option Filehandle} (hfh : H a = some fh)
    (ht : fh'.type = fh.type) (hp : fh'.p = fh.p) (x : ℕ) (g : Filehandle) (hg : H x = some g) :
    ∃ g', Function.update H a (some fh') x = some g' ∧ g'.type = g.type ∧ g'.p = g.p := by
  by_cases hx : x = a
  · rw [hx, hfh] at hg
    obtain rfl := Option.some.inj hg
    rw [hx, Function.update_self]
    exact ⟨fh', rfl, ht, hp⟩
  · rw [Function.update_of_ne hx]
    exact ⟨g, hg, rfl, rfl⟩

theorem added_update (fh : Filehandle) {H : ℕ → Option Filehandle} (ha : H a = none) (x : ℕ) (g : Filehandle)
    (hg : H x = some g) : Function.update H a (some fh) x = some g := by
  have hx : x ≠ a := by
    intro he
    rw [he, ha] at hg
    cases hg
  rw [Function.update_of_ne hx]
  exact hg

theorem putFd_of_mem {v : Option ℕ} (hs : (p, fd) ∉ D) {s : ℕ × ℕ} (hmem : s ∈ D) :
    putFd o.filedesc p fd v s.1 s.2 = o.filedesc s.1 s.2 := by
  apply putFd_of_ne
  intro he
  exact hs (he ▸ hmem)

/-- An uncounted slot is closed; from now on it counts. -/
theorem Sane.clear (h : Sane n C dying D box o) (hs : (p, fd) ∉ D) :
    Sane n C dying (insert (p, fd) D) box { o with filedesc := putFd o.filedesc p fd none } := by
  refine h.extend ⟨?_, h.tidy.paired, h.tidy.stored⟩ rfl rfl (Finset.subset_insert _ _) ?_
    (fun a fh hfh => ⟨fh, hfh, rfl, rfl⟩) (SameReaders.refl _) h.input
  · have hcount : Counted (putFd o.filedesc p fd none) o.handles D :=
      h.tidy.counted.congr fun a => refs_putFd hs a
    exact hcount.opened hs (putFd_self _ _ _ _)
  · exact fun s hmem => putFd_of_mem hs hmem

/-- An uncounted slot gets a reference to a handle that exists. -/
theorem Sane.share (h : Sane n C dying D box o) (hs : (p, fd) ∉ D) (hfh : o.handles a = some fh) :
    Sane n C dying (insert (p, fd) D) box { o with
      filedesc := putFd o.filedesc p fd (some a)
      handles := Function.update o.handles a (some { fh with refcount := fh.refcount + 1 }) } := by
  obtain ⟨T, hS⟩ := h.tidy.stored
  refine h.extend ⟨h.tidy.counted.share hs hfh, h.tidy.paired.touch hfh rfl rfl, T,
    hS.setHandle (hS.handle a fh hfh) _⟩ rfl rfl (Finset.subset_insert _ _) ?_
    (fun x g hg => ?_) (SameReaders.refl _) h.input
  · exact fun s hmem => putFd_of_mem hs hmem
  · exact kept_update { fh with refcount := fh.refcount + 1 } hfh rfl rfl x g hg

/-- The position in a file or directory is changed. -/
theorem Sane.touch {fh' : Filehandle} (h : Sane n C dying D box o) (hfh : o.handles a = some fh)
    (ht : fh'.type = fh.type) (hp : fh'.p = fh.p) (hr : fh'.refcount = fh.refcount) :
    Sane n C dying D box { o with handles := Function.update o.handles a (some fh') } := by
  obtain ⟨T, hS⟩ := h.tidy.stored
  exact h.extend ⟨h.tidy.counted.touch hfh hr, h.tidy.paired.touch hfh ht hp, T,
    hS.setHandle (hS.handle a fh hfh) _⟩ rfl rfl (Finset.Subset.refl _) (fun _ _ => rfl)
    (fun x g hg => kept_update fh' hfh ht hp x g hg) (SameReaders.refl _) h.input

/-- Another heap with the same objects on it. -/
theorem Sane.reheap {h' : Heap} {T : Table Use} (h : Sane n C dying D box o)
    (hS : Stored h' T o.handles o.pipes box C) : Sane n C dying D box { o with heap := h' } :=
  h.extend ⟨h.tidy.counted, h.tidy.paired, T, hS⟩ rfl rfl (Finset.Subset.refl _) (fun _ _ => rfl)
    (fun _ fh hfh => ⟨fh, hfh, rfl, rfl⟩) (SameReaders.refl _) h.input

/-! ### `close` and `dup2` -/

theorem Serving.not_parked (h : Serving n C p o) (no : ℕ) : ¬ Parked o.sched.procs no p := by
  intro hpark
  have hidle := hpark.idle
  rw [h.ready] at hidle
  cases hidle

/-- All slots are counted again. -/
theorem Sane.whole (h : Sane n C none D box o) (hw : Woken S o.sched) (hD : D = liveSlots S)
    (hbox : box = boxes S.procs n.stale) : Whole n C o := by
  rw [hD, ← hw.slots, hbox, ← hw.boxes] at h
  exact h

theorem lookupFd_eq_some {k : State} {i : ℤ} (h : lookupFd k p i = some a) :
    i.toNat < MAX_FDS ∧ k.filedesc p i.toNat = some a ∧ 0 ≤ i := by
  unfold lookupFd at h
  split at h
  · cases h
  · rename_i hc
    simp only [MAX_FDS] at hc ⊢
    exact ⟨by omega, h, by omega⟩

/-- A closed slot of the caller need not be counted. -/
theorem Serving.uncount {D : Finset (ℕ × ℕ)} (h : Serving n C p o)
    (hsane : Sane n C none (insert (p, fd) D) box o) (hs : (p, fd) ∉ D) (ha : o.filedesc p fd = none) :
    Sane n C none D box o := by
  refine ⟨⟨hsane.tidy.counted.closed hs ha, hsane.tidy.paired, hsane.tidy.stored⟩, hsane.sched,
    hsane.waits, hsane.entries, ?_, hsane.alive, hsane.input⟩
  intro q fd' hq hlt
  refine (Finset.mem_insert.mp (hsane.slots q fd' hq hlt)).resolve_left ?_
  intro he
  rw [(Prod.mk.inj he).1] at hq
  exact h.not_parked _ hq

theorem Serving.sane (h : Serving n C p o) (hlt : fd < MAX_FDS) :
    Sane n C none (insert (p, fd) ((liveSlots o.sched).erase (p, fd))) (boxes o.sched.procs n.stale) o := by
  rw [Finset.insert_erase (h.whole.mem_slots.mpr ⟨h.live, hlt⟩)]
  exact h.whole

/-- The caller gives a reference back; the slot does not count for now. -/
theorem Serving.giveBack (h : Serving n C p o) (hlt : fd < MAX_FDS) (ha : o.filedesc p fd = some a) :
    Acts State.objects F o (closeFilehandle a) fun _ o' => Fewer o o' ∧ o'.filedesc = o.filedesc ∧
      Sane n C none ((liveSlots o.sched).erase (p, fd)) (boxes o.sched.procs n.stale) o' := by
  refine ((h.sane hlt).close (Finset.notMem_erase _ _) ha ?_).mono ?_
  · intro q fd' hq hlt'
    refine Finset.mem_erase.mpr ⟨?_, h.whole.slots q fd' hq hlt'⟩
    intro he
    rw [(Prod.mk.inj he).1] at hq
    exact h.not_parked _ hq
  · rintro _ o' ⟨hcl, hsane'⟩
    exact ⟨hcl.fewer, hcl.filedesc, hsane'⟩

theorem Serving.syscallClose (h : Serving n C p o) (i : ℤ) :
    Acts State.objects F o (syscallClose p i) (Quietly n C p o) := by
  refine Acts.get fun k hk => ?_
  subst hk
  cases hl : lookupFd k p i with
  | none => exact Acts.pure (h.stay (by decide))
  | some a =>
    obtain ⟨hlt, ha, -⟩ := lookupFd_eq_some hl
    refine Acts.bind (h.giveBack hlt ha) ?_
    rintro _ o' ⟨hf, -, hsane⟩
    refine Acts.seq (does_setFd ?_)
    have hmem : (p, i.toNat) ∈ liveSlots k.sched := h.whole.mem_slots.mpr ⟨h.live, hlt⟩
    have hclear := hsane.clear (Finset.notMem_erase (p, i.toNat) _)
    apply Acts.pure
    refine h.fewer ⟨hf.handles, hf.pipes, hf.woken⟩ ?_ (by decide)
    exact hclear.whole hf.woken (Finset.insert_erase hmem) rfl

/-- A further reference to the handle at `a`. -/
theorem does_addReference (hfh : o.handles a = some fh)
    (hR : U () { o with
      handles := Function.update o.handles a (some { fh with refcount := fh.refcount + 1 }) }) :
    Acts State.objects F o (addReference a) U := by
  exact Acts.seq (does_foundHandle hfh (does_setHandle hR))

/-- The new descriptor of `dup2` is closed first, if it is open. -/
theorem Serving.closeIfOpen (h : Serving n C p o) (hlt : fd < MAX_FDS) :
    Acts State.objects F o (closeIfOpen (o.filedesc p fd)) fun _ o' => Fewer o o' ∧ o'.filedesc = o.filedesc ∧
      Sane n C none ((liveSlots o.sched).erase (p, fd)) (boxes o.sched.procs n.stale) o' := by
  cases ha : o.filedesc p fd with
  | none =>
    exact Acts.pure ⟨Fewer.refl o, rfl, h.uncount (h.sane hlt) (Finset.notMem_erase _ _) ha⟩
  | some a => exact h.giveBack hlt ha

/-- The old descriptor still refers to its handle, even if the new one did so too. -/
theorem Serving.replaceFd {oldfd newfd : ℤ} (h : Serving n C p o) (hold : oldfd.toNat < MAX_FDS)
    (ha : o.filedesc p oldfd.toNat = some a) (hnew : newfd.toNat < MAX_FDS)
    (hne : oldfd.toNat ≠ newfd.toNat) (hres : newfd ≠ -ESUSPEND) :
    Acts State.objects F o (replaceFd p a newfd) (Quietly n C p o) := by
  refine Acts.get fun k hk => ?_
  subst hk
  refine Acts.bind (h.closeIfOpen hnew) ?_
  rintro _ o' ⟨hf, hfds, hsane⟩
  have hmem : (p, newfd.toNat) ∈ liveSlots k.objects.sched := h.whole.mem_slots.mpr ⟨h.live, hnew⟩
  have hslot : (p, oldfd.toNat) ∈ (liveSlots k.objects.sched).erase (p, newfd.toNat) := by
    refine Finset.mem_erase.mpr ⟨?_, h.whole.mem_slots.mpr ⟨h.live, hold⟩⟩
    intro he
    exact hne (Prod.mk.inj he).2
  obtain ⟨fh, hfh⟩ := hsane.tidy.counted.slot hslot (by rw [hfds]; exact ha)
  refine Acts.seq (does_setFd ?_)
  refine Acts.seq (does_addReference hfh ?_)
  apply Acts.pure
  have hshare := hsane.share (Finset.notMem_erase (p, newfd.toNat) _) hfh
  refine h.fewer ⟨?_, hf.pipes, hf.woken⟩ (hshare.whole hf.woken (Finset.insert_erase hmem) rfl) hres
  refine hf.handles.trans ?_
  intro x g hg
  have hg' : Function.update o'.handles a (some { fh with refcount := fh.refcount + 1 }) x = some g := hg
  exact handle_touched hg' hfh rfl rfl

theorem Serving.syscallDup2 (h : Serving n C p o) (oldfd newfd : ℤ) :
    Acts State.objects F o (syscallDup2 p oldfd newfd) (Quietly n C p o) := by
  refine Acts.get fun k hk => ?_
  subst hk
  refine Acts.ite (fun _ => Acts.pure (h.stay (by decide))) fun hc => ?_
  have hc' : 0 ≤ newfd ∧ newfd < MAX_FDS := by
    rw [not_or, not_lt, not_le] at hc
    exact hc
  have hres : newfd ≠ -ESUSPEND := by
    simp only [ESUSPEND]
    omega
  cases hl : lookupFd k p oldfd with
  | none => exact Acts.pure (h.stay (by decide))
  | some a =>
    obtain ⟨hlt, ha, h0⟩ := lookupFd_eq_some hl
    refine Acts.ite (fun _ => Acts.pure (h.stay hres)) fun hne => ?_
    exact h.replaceFd hlt ha (by omega) (by omega) hres

/-! ### New handles -/

theorem Extends.trans (h : Extends o o') (h' : Extends o' o'') : Extends o o'' :=
  ⟨fun a fh hfh => h'.handles a fh (h.handles a fh hfh), fun b pb hb => h'.pipes b pb (h.pipes b pb hb),
    h'.sched.trans h.sched⟩

theorem Extends.kept (h : Extends o o') : Kept o o' := by
  intro a fh fh' hfh hfh'
  rw [h.handles a fh hfh] at hfh'
  obtain rfl := Option.some.inj hfh'
  exact ⟨rfl, rfl⟩

/-- **A new handle** that is not for a pipe. -/
theorem Sane.newPlain {f : ℕ → K α} {type : FhType} {x entry : ℕ} (h : Sane n C dying D box o)
    (fd : ℕ) (hs : (p, fd) ∉ D) (hty : type.isPipe = false)
    (hf : ∀ a o', Extends o o' → o'.pipes = o.pipes → o'.filedesc = putFd o.filedesc p fd (some a) →
      Sane n C dying (insert (p, fd) D) box o' → Does o' (f a) R) :
    Does o (newHandle type x entry >>= fun a => setFd p fd (some a) >>= fun _ => f a) R := by
  obtain ⟨T, hS⟩ := h.tidy.stored
  refine Acts.seq (Acts.seq (does_kmalloc hS.holds fun a h' hok => ?_))
  obtain ⟨hT, hH, -, hS'⟩ := hS.alloc hok
  refine Acts.seq (does_setHandle (Acts.pure ?_))
  refine Acts.seq (does_setFd ?_)
  have hadd := fun y g => added_update ⟨type, 1, x, entry, 0, 0⟩ hH y g
  refine hf a _ ⟨hadd, fun _ _ hb => hb, rfl⟩ rfl rfl ?_
  refine h.extend ⟨h.tidy.counted.create hs hH rfl, h.tidy.paired.addPlain hH hty, _,
    (hS' .handle).setHandle (Function.update_self _ _ _) _⟩ rfl rfl (Finset.subset_insert _ _) ?_
    (fun y g hg => ⟨g, hadd y g hg, rfl, rfl⟩) (SameReaders.refl _) h.input
  exact fun s hmem => putFd_of_mem hs hmem

/-- **A new pipe** with its reader. -/
theorem Sane.newReader {f : ℕ → K α} (h : Sane n C dying D box o) (fd : ℕ) (hs : (p, fd) ∉ D)
    (hf : ∀ b pb o', o.pipes b = none → Extends o o' → o'.pipes = Function.update o.pipes b (some pb) →
      Sane { n with std := Function.update n.std b true } (C.setText b []) dying
        (insert (p, fd) D) box o' → Reads o'.filedesc o'.handles p fd b → Does o' (f b) R) (hlt : fd < MAX_FDS) :
    Does o (newPipe >>= fun b => newPipeReader b >>= fun a => setFd p fd (some a) >>= fun _ => f b) R := by
  obtain ⟨T, hS⟩ := h.tidy.stored
  refine Acts.seq (Acts.seq (does_kmalloc hS.holds fun b h₁ hok₁ => ?_))
  obtain ⟨-, -, hB, hS₁⟩ := hS.alloc hok₁
  refine Acts.seq (does_kmalloc (hS₁ .pipe).holds fun data h₂ hok₂ => ?_)
  obtain ⟨hT₂, -, -, hS₂⟩ := (hS₁ .pipe).alloc hok₂
  have hne : b ≠ data := by
    intro he
    rw [← he, Function.update_self] at hT₂
    cases hT₂
  refine Acts.seq (does_setPipe (Acts.pure ?_))
  generalize hpb : (⟨true, true, BUFSIZE, 0, none, data⟩ : PipeBuffer) = pb
  have hS₃ := (hS₂ (.data b)).setPipe (b := b) pb
    (by rw [Function.update_of_ne hne, Function.update_self])
    (by rw [← hpb]; exact Function.update_self _ _ _) (by rw [← hpb]; exact Nat.zero_le _)
  have htext : loadBytes h₂.bytes pb.data pb.len = [] := by
    rw [← hpb]
    rfl
  rw [htext] at hS₃
  refine Acts.seq (Acts.seq (does_kmalloc hS₃.holds fun a h₄ hok₄ => ?_))
  obtain ⟨-, hH, -, hS₄⟩ := hS₃.alloc hok₄
  refine Acts.seq (does_setHandle (Acts.pure ?_))
  refine Acts.seq (does_setFd ?_)
  have hadd := fun y g => added_update ⟨.pipeReader, 1, b, 0, 0, 0⟩ hH y g
  have hpipes : ∀ c x, o.pipes c = some x → Function.update o.pipes b (some pb) c = some x := by
    intro c x hx
    have hc : c ≠ b := by
      intro he
      rw [he, hB] at hx
      cases hx
    rw [Function.update_of_ne hc]
    exact hx
  refine hf b pb _ hB ⟨hadd, hpipes, rfl⟩ rfl ?_ ?_
  · refine h.extend ⟨h.tidy.counted.create hs hH rfl,
      h.tidy.paired.addStd hB hH (by rw [← hpb]) (by rw [← hpb]) rfl rfl, _,
      (hS₄ .handle).setHandle (Function.update_self _ _ _) _⟩ rfl rfl (Finset.subset_insert _ _) ?_
      (fun y g hg => ⟨g, hadd y g hg, rfl, rfl⟩) ?_ ?_
    · exact fun s hmem => putFd_of_mem hs hmem
    · refine ⟨?_, fun c x q hx hr => ⟨x, hpipes c x hx, hr⟩⟩
      intro c x q hx hr
      have hx' : Function.update o.pipes b (some pb) c = some x := hx
      rcases update_eq_some hx' with ⟨-, rfl⟩ | ⟨-, hx'⟩
      · rw [← hpb] at hr
        cases hr
      · exact ⟨x, hx', hr, rfl, rfl⟩
    · intro c hc
      have hstd := h.input c hc
      by_cases hcb : c = b
      · rw [hcb, Function.update_self]
      · rw [Function.update_of_ne hcb]
        exact hstd
  · refine ⟨Int.natCast_nonneg fd, by exact_mod_cast hlt, a, ⟨.pipeReader, 1, b, 0, 0, 0⟩, ?_, ?_, rfl, rfl⟩
    · exact putFd_self _ _ _ _
    · exact Function.update_self _ _ _

/-- **A writer** for a pipe that has none. -/
theorem Sane.newWriter {f : ℕ → K α} (h : Sane n C dying D box o) (fd : ℕ) (hs : (p, fd) ∉ D)
    (hstd : n.std b = true) (hinput : n.input ≠ some b)
    (hf : ∀ a o', Extends o o' → o'.pipes = o.pipes →
      Sane { n with std := Function.update n.std b false } C dying (insert (p, fd) D) box o' →
      Does o' (f a) R) :
    Does o (newPipeWriter b >>= fun a => setFd p fd (some a) >>= fun _ => f a) R := by
  obtain ⟨T, hS⟩ := h.tidy.stored
  refine Acts.seq (Acts.seq (does_kmalloc hS.holds fun a h' hok => ?_))
  obtain ⟨hT, hH, -, hS'⟩ := hS.alloc hok
  refine Acts.seq (does_setHandle (Acts.pure ?_))
  refine Acts.seq (does_setFd ?_)
  have hadd := fun y g => added_update ⟨.pipeWriter, 1, b, 0, 0, 0⟩ hH y g
  refine hf a _ ⟨hadd, fun _ _ hb => hb, rfl⟩ rfl ?_
  refine h.extend ⟨h.tidy.counted.create hs hH rfl, h.tidy.paired.addWriter hstd hH rfl rfl, _,
    (hS' .handle).setHandle (Function.update_self _ _ _) _⟩ rfl rfl (Finset.subset_insert _ _) ?_
    (fun y g hg => ⟨g, hadd y g hg, rfl, rfl⟩) (SameReaders.refl _) ?_
  · exact fun s hmem => putFd_of_mem hs hmem
  · intro c hc
    have hcb : c ≠ b := by
      intro he
      rw [he] at hc
      exact hinput hc
    rw [Function.update_of_ne hcb]
    exact h.input c hc

/-! ### `open` and `pipe` -/

theorem mem_freeFds {k : State} (h : fd ∈ freeFds k p) : fd < MAX_FDS ∧ k.filedesc p fd = none := by
  unfold freeFds at h
  rw [List.mem_filter, List.mem_range] at h
  exact ⟨h.1, of_decide_eq_true h.2⟩

theorem freeFds_nodup (k : State) (p : ℕ) : (freeFds k p).Nodup := List.Nodup.filter _ List.nodup_range

/-- The handler made something. -/
theorem Serving.extends (h : Serving n C p o) (he : Extends o o') (hw : Whole n C' o')
    (hS : Silent C C' o o') (hres : res ≠ -ESUSPEND) : Quietly n C p o res o' := by
  refine ⟨C', hS, ?_, ?_, he.kept⟩
  · rw [h.whole.after_eq fun z => by rw [he.sched]]
    exact hw
  · rw [he.sched]
    exact h.settled hres

/-- The caller's closed slot `fd` does not count while something is put into it. -/
theorem Serving.unused (h : Serving n C p o) (hlt : fd < MAX_FDS) (ha : o.filedesc p fd = none) :
    Sane n C none ((liveSlots o.sched).erase (p, fd)) (boxes o.sched.procs n.stale) o :=
  h.uncount (h.sane hlt) (Finset.notMem_erase _ _) ha

theorem Serving.insert_slot (h : Serving n C p o) (hlt : fd < MAX_FDS) :
    insert (p, fd) ((liveSlots o.sched).erase (p, fd)) = liveSlots o.sched :=
  Finset.insert_erase (h.whole.mem_slots.mpr ⟨h.live, hlt⟩)

theorem Serving.openEntry (h : Serving n C p o) (hcall : (o.sched.procs p).inSyscall ≠ SYSCALL_WAITPID)
    (fs : Memory) (path : ℕ) (flags : ℤ) (hlt : fd < MAX_FDS) (ha : o.filedesc p fd = none) :
    Does o (openEntry fs p path flags fd) (Quietly n C p o) := by
  refine (remote_findEntry fs p path).andThen fun x => ?_
  obtain ⟨abs, found⟩ := x
  cases found with
  | error e => exact Acts.pure (h.remain hcall e)
  | ok entry =>
    refine Acts.ite (fun _ => Acts.pure (h.stay (by decide))) fun _ => ?_
    refine Acts.ite (fun _ => Acts.pure (h.stay (by decide))) fun _ => ?_
    refine (h.unused hlt ha).newPlain fd (Finset.notMem_erase _ _) ?_ ?_
    · split
      · rfl
      · rfl
    · intro a o' he hpipes _ hsane
      apply Acts.pure
      have hwhole := hsane.whole (by rw [he.sched]; exact Woken.refl _) (h.insert_slot hlt) rfl
      refine h.extends he hwhole (silent_refl C ?_ ?_) (by simp only [ESUSPEND]; omega)
      · intro b hb
        rw [hpipes]
        exact hb
      · intro z hz
        rw [he.sched]
        exact hz

theorem Serving.syscallOpen (h : Serving n C p o) (hcall : (o.sched.procs p).inSyscall ≠ SYSCALL_WAITPID)
    (fs : Memory) (path : ℕ) (flags : ℤ) : Does o (syscallOpen fs p path flags) (Quietly n C p o) := by
  refine (remote_validString p path).andThen fun valid => ?_
  refine Acts.ite (fun _ => ?_) fun _ => Acts.pure (h.stay (by decide))
  refine Acts.get fun k hk => ?_
  subst hk
  cases hfree : freeFds k p with
  | nil => exact Acts.pure (h.stay (by decide))
  | cons fd fds =>
    obtain ⟨hlt, ha⟩ := mem_freeFds (show fd ∈ freeFds k p by rw [hfree]; simp)
    exact h.openEntry hcall fs path flags hlt ha

/-- The two ends of a new pipe go to two different slots. -/
theorem Serving.openPipe {readfd writefd : ℕ} (h : Serving n C p o) (filedes : ℕ) (hr : readfd < MAX_FDS)
    (hw : writefd < MAX_FDS) (hne : readfd ≠ writefd) (hra : o.filedesc p readfd = none)
    (hwa : o.filedesc p writefd = none) :
    Does o (openPipe p filedes readfd writefd) (Quietly n C p o) := by
  -- neither slot counts while the pipe is set up
  have hmem : (p, writefd) ∈ (liveSlots o.sched).erase (p, readfd) := by
    refine Finset.mem_erase.mpr ⟨?_, h.whole.mem_slots.mpr ⟨h.live, hw⟩⟩
    intro he
    exact hne (Prod.mk.inj he).2.symm
  have hsane := h.unused hr hra
  rw [← Finset.insert_erase hmem] at hsane
  have hsane' := h.uncount hsane (Finset.notMem_erase _ _) hwa
  refine hsane'.newReader readfd ?_ ?_ hr
  · intro hmem'
    exact Finset.notMem_erase (p, readfd) _ (Finset.mem_of_mem_erase hmem')
  intro b pb o₁ hb he₁ hp₁ hsane₁ _
  have hfalse : n.std b = false := by
    rw [← Bool.not_eq_true]
    intro hstd
    obtain ⟨x, hx, -⟩ := h.whole.tidy.paired.std b hstd
    rw [hb] at hx
    cases hx
  refine hsane₁.newWriter writefd ?_ (Function.update_self _ _ _) ?_ ?_
  · intro hmem'
    rcases Finset.mem_insert.mp hmem' with he | he
    · exact hne (Prod.mk.inj he).2.symm
    · exact Finset.notMem_erase _ _ he
  · intro hinput
    rw [h.whole.input b hinput] at hfalse
    cases hfalse
  intro a o₂ he₂ hp₂ hsane₂
  refine (remote_writeUserBytes p filedes _ 0).andThen fun _ => ?_
  refine (remote_writeUserBytes p _ _ 0).andThen fun _ => Acts.pure ?_
  have he := he₁.trans he₂
  have hstd : Function.update (Function.update n.std b true) b false = n.std := by
    rw [Function.update_idem, ← hfalse, Function.update_eq_self]
  have hslots : insert (p, writefd) (insert (p, readfd) (((liveSlots o.sched).erase (p, readfd)).erase
      (p, writefd))) = liveSlots o.sched := by
    rw [Finset.insert_comm, Finset.insert_erase hmem, h.insert_slot hr]
  simp only [hstd] at hsane₂
  have hwhole := hsane₂.whole (by rw [he.sched]; exact Woken.refl _) hslots rfl
  refine h.extends he hwhole ⟨?_, ?_, fun _ _ => rfl, ?_⟩ (by decide)
  · intro c hc
    apply C.text_setText_of_ne
    intro hcb
    exact hc (hcb ▸ hb)
  · intro c hc hc'
    have hcb : c = b := by
      by_contra hcb
      rw [hp₂, hp₁, Function.update_of_ne hcb] at hc'
      exact hc' hc
    rw [hcb, C.text_setText]
  · intro z hz hz'
    rw [he.sched, hz] at hz'
    cases hz'

theorem Serving.syscallPipe (h : Serving n C p o) (filedes : ℕ) :
    Does o (syscallPipe p filedes) (Quietly n C p o) := by
  refine Acts.get fun k hk => ?_
  subst hk
  refine Acts.ite (fun _ => ?_) fun _ => Acts.pure (h.stay (by decide))
  have hnodup := freeFds_nodup k p
  cases hfree : freeFds k p with
  | nil => exact Acts.pure (h.stay (by decide))
  | cons readfd fds =>
    cases fds with
    | nil => exact Acts.pure (h.stay (by decide))
    | cons writefd fds =>
      obtain ⟨hr, hra⟩ := mem_freeFds (show readfd ∈ freeFds k p by rw [hfree]; simp)
      obtain ⟨hw, hwa⟩ := mem_freeFds (show writefd ∈ freeFds k p by rw [hfree]; simp)
      rw [hfree] at hnodup
      have hne : readfd ≠ writefd := by
        intro he
        simp [he] at hnodup
      exact h.openPipe filedes hr hw hne hra hwa

end AdelaideOS.Kernel
