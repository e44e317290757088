import AdelaideOS.Kernel.Deaths

/-!
# All handlers

The invariant of `Waiting` through the `switch` of `syscall`.  `execve` needs a scratch buffer on the heap for the
arguments; the other handlers are those of the modules before.

* **`Serving.syscallWrite`**, **`Serving.syscallRead`** — the handlers that move bytes;
* **`Serving.dispatch`** — every handler.
-/

namespace AdelaideOS.Kernel

open AdelaideOS.Buddy AdelaideOS.Lib.Bytes AdelaideOS.Lib.View AdelaideOS.Process

variable {n : Notes} {C : Contents} {box : ℕ → Option ℕ} {o o' : Objects} {a p size : ℕ} {res : ℤ} {k k' : State}

/-! ### `execve` -/

/-- The objects with a scratch buffer at `a`. -/
def Scratch (o : Objects) (box : ℕ → Option ℕ) (C : Contents) (a size : ℕ) (o' : Objects) : Prop :=
  ∃ h T, o' = { o with heap := h } ∧ Stored h T o.handles o.pipes box C ∧ T a = some ⟨size, .scratch⟩

/-- Nothing else lies in the scratch buffer. -/
theorem scratch_apart {h : Heap} {T : Table Use} {H : ℕ → Option Filehandle} {B : ℕ → Option PipeBuffer}
    (hS : Stored h T H B box C) (ha : T a = some ⟨size, .scratch⟩) :
    (∀ b pb, B b = some pb → pb.data ≠ a) ∧ ∀ q, box q ≠ some a := by
  constructor
  · rintro b pb hb rfl
    cases sameUse ha (hS.data b pb hb)
  · intro q hq
    cases sameUse ha (hS.owned q a hq)

theorem Scratch.store (h : Scratch o box C a size o') (off : ℕ) (bs : List UInt8) :
    Does o' (storeBlock a size off bs) fun _ => Scratch o box C a size := by
  obtain ⟨h', T, rfl, hS, ha⟩ := h
  refine does_storeBlock fun hfits => ?_
  obtain ⟨hdata, hbox⟩ := scratch_apart hS ha
  refine ⟨_, T, rfl, hS.writeFree ha ?_ hdata hbox, ha⟩
  intro y hy
  apply storeBytes_of_outside
  simp only at hy
  omega

theorem Scratch.packArgs (h : Scratch o box C a size o') (args : List (List UInt8)) (argno pos : ℕ) :
    Does o' (packArgs a size args argno pos) fun _ => Scratch o box C a size := by
  induction args generalizing o' argno pos with
  | nil => exact Acts.pure h
  | cons arg args ih =>
    refine Acts.bind (h.store _ _) fun _ o₁ h₁ => ?_
    refine Acts.bind (h₁.store _ _) fun _ o₂ h₂ => ?_
    exact ih h₂ _ _

theorem does_buildArgs {T : Table Use} (hS : Stored o.heap T o.handles o.pipes box C)
    (args : List (List UInt8)) :
    Does o (buildArgs args) fun a => Scratch o box C a (argdataSize args) := by
  unfold buildArgs
  refine Acts.seq (does_kmalloc hS.holds fun a h' hok => ?_)
  obtain ⟨-, -, -, hS'⟩ := hS.alloc hok
  have hscratch : Scratch o box C a (argdataSize args) { o with heap := h' } :=
    ⟨h', _, rfl, hS' .scratch, Function.update_self _ _ _⟩
  refine Acts.bind (hscratch.packArgs args 0 _) fun _ o₁ h₁ => ?_
  refine Acts.bind (h₁.store _ _) fun _ o₂ h₂ => ?_
  refine Acts.bind (h₂.store _ _) fun _ o₃ h₃ => ?_
  exact Acts.pure h₃

/-- The buffer is given back. -/
theorem Scratch.free (h : Scratch o box C a size o') :
    Does o' (kfree a) fun _ o'' => ∃ h' T, o'' = { o with heap := h' } ∧
      Stored h' T o.handles o.pipes box C := by
  obtain ⟨h', T, rfl, hS, ha⟩ := h
  obtain ⟨hdata, hbox⟩ := scratch_apart hS ha
  obtain ⟨h'', hok, hS'⟩ := hS.free ha (by
      cases hH : o.handles a with
      | none => rfl
      | some fh => cases sameUse ha (hS.handle a fh hH)) (by
      cases hB : o.pipes a with
      | none => rfl
      | some pb => cases sameUse ha (hS.pipe a pb hB)) hdata hbox
  exact does_kfree hok ⟨h'', _, rfl, hS'⟩

/-- The handler only used the heap. -/
theorem Serving.reheap {h' : Heap} {T : Table Use} (h : Serving n C p o)
    (hS : Stored h' T o.handles o.pipes (boxes o.sched.procs n.stale) C) (hres : res ≠ -ESUSPEND) :
    Quietly n C p o res { o with heap := h' } := by
  refine ⟨C, silent_refl C (fun _ hb => hb) fun _ hz => hz, ?_, h.settled hres, kept_of_handles rfl⟩
  have hlive : ∀ z, ({ o with heap := h' } : Objects).sched.Live z ↔ o.sched.Live z := fun _ => Iff.rfl
  rw [h.whole.after_eq hlive]
  exact Sane.reheap h.whole hS

theorem Serving.execProgram (h : Serving n C p o) (fs : Memory) (entry : ℕ) (args : List (List UInt8)) :
    Does o (execProgram fs p entry args) fun x o' => Quietly n C p o x.1 o' := by
  obtain ⟨T, hS⟩ := h.whole.tidy.stored
  unfold Kernel.execProgram
  refine Acts.bind (does_buildArgs hS args) fun a o₁ h₁ => ?_
  refine Acts.get fun k _ => ?_
  refine (remote_onPages fun P => mild_execPages fs entry (k.space p) P).andThen fun _ => ?_
  refine (remote_setSpace p _).andThen fun _ => ?_
  refine Acts.get fun k' _ => ?_
  refine (remote_storeMappedBytes p _ _ 0).andThen fun _ => ?_
  refine Acts.bind h₁.free ?_
  rintro _ _ ⟨h', T', rfl, hS'⟩
  exact Acts.pure (h.reheap hS' (show (0 : ℤ) ≠ -ESUSPEND by decide))

theorem Serving.syscallExecve (h : Serving n C p o)
    (hcall : (o.sched.procs p).inSyscall ≠ SYSCALL_WAITPID) (fs : Memory) (filename argv : ℕ) (r : Regs) :
    Does o (syscallExecve fs p filename argv r) fun x o' => Quietly n C p o x.1 o' := by
  refine (remote_validString p filename).andThen fun valid => ?_
  refine Acts.ite (fun _ => ?_) fun _ => Acts.pure (h.remain hcall _)
  refine (remote_validArgv p argv).andThen fun ok => ?_
  refine Acts.ite (fun _ => ?_) fun _ => Acts.pure (h.remain hcall _)
  refine (remote_userString p filename).andThen fun path => ?_
  refine (remote_lift (mild_getDirectoryEntry fs path)).andThen fun found => ?_
  cases found with
  | error e => exact Acts.pure (h.remain hcall e)
  | ok entry =>
    refine Acts.ite (fun _ => Acts.pure (h.remain hcall _)) fun _ => ?_
    exact (remote_argStrings p argv).andThen fun args => h.execProgram fs entry args

/-! ### What a call moves -/

/-- The pipe behind the descriptor `fd` of process `p`, if the descriptor is for the end `t` of a pipe. -/
def endAt (k : State) (p : ℕ) (t : FhType) (fd : ℤ) : Option ℕ := do
  let a ← lookupFd k p fd
  let fh ← k.handles a
  if fh.type = t then some fh.p else none

/-- Bytes go into and out of a pipe, messages into and out of a mailbox.  A message that comes out is a record of
`MESSAGE_SIZE` bytes. -/
inductive Transfer where
  | nothing
  | put (b : ℕ) (bytes : List UInt8)
  | take (b : ℕ) (bytes : List UInt8)
  | post (d : ℕ) (msg : Message)
  | collect (p : ℕ) (record : List UInt8)

/-- What a call of process `p` with the result `res` moved, as the caller sees it in its own memory. -/
def transferOf (p no : ℕ) (args : List ℕ) (k : State) (res : ℤ) (k' : State) : Transfer :=
  let arg := fun i => args.getD i 0
  if no = SYSCALL_WRITE then
    match endAt k p .pipeWriter (toInt (arg 0)) with
    | some b => if 0 ≤ res then .put b (userBytes k p (arg 1) (arg 2)) else .nothing
    | none => .nothing
  else if no = SYSCALL_READ then
    match endAt k p .pipeReader (toInt (arg 0)) with
    | some b => if 0 ≤ res then .take b (userBytes k' p (arg 1) res.toNat) else .nothing
    | none => .nothing
  else if no = SYSCALL_SEND then
    if res = 0 then .post (toInt (arg 0)).toNat ⟨p, arg 1, arg 3, userBytes k p (arg 2) (arg 3)⟩
    else .nothing
  else if no = SYSCALL_RECEIVE then
    if res = 0 then .collect p (userBytes k' p (arg 0) MESSAGE_SIZE) else .nothing
  else .nothing

/-- The contents before and after. -/
def Transfer.Moves : Transfer → Contents → Contents → Prop
  | nothing, C, C' => C' = C
  | put b bytes, C, C' => C' = C.setText b (C.text b ++ bytes)
  | take b bytes, C, C' => ∃ rest, C.text b = bytes ++ rest ∧ C' = C.setText b rest
  | post d msg, C, C' => C' = C.setMail d (C.mail d ++ [msg])
  | collect p record, C, C' => ∃ msg rest, C.mail p = msg :: rest ∧ msg.bytes <+: record ∧ C' = C.setMail p rest

/-- The handler keeps the invariant, and the contents of pipes and mailboxes change by what the caller sees. -/
def Accounts (m : Machine) (n : Notes) (C : Contents) (p no : ℕ) (args : List ℕ) (k : State) (res : ℤ)
    (k' : State) : Prop :=
  ∃ C', Done n C' p k.objects res k'.objects ∧
    (Mapped m k → ∃ C₁, (transferOf p no args k res k').Moves C C₁ ∧ Silent C₁ C' k.objects k'.objects)

variable {m : Machine} {no b : ℕ} {args : List ℕ} {pb : PipeBuffer}

theorem Quietly.accounts (h : Quietly n C p k.objects res k'.objects)
    (ht : transferOf p no args k res k' = .nothing) : Accounts m n C p no args k res k' := by
  obtain ⟨C', hsilent, hdone⟩ := h
  refine ⟨C', hdone, fun _ => ⟨C, ?_, hsilent⟩⟩
  rw [ht]
  exact rfl

/-- A handler that moves nothing. -/
theorem accounts_of_does {x : K ℤ} (h : Does k.objects x (Quietly n C p k.objects))
    (ht : ∀ res k', transferOf p no args k res k' = .nothing) :
    Acts id Benign k x (Accounts m n C p no args k) :=
  h.whole.mono fun _ _ hq => hq.accounts (ht _ _)

/-- What the caller sees after data was copied out of a pipe. -/
theorem sees_takeFromPipe (hmap : Mapped m k) (hp : k.sched.Live p) {buf count : ℕ} (hlen : pb.len ≤ wordSize)
    (hok : takeFromPipe p b pb buf count k = .ok res k') :
    userBytes k' p buf (min count pb.len) = loadBytes k.heap.bytes pb.data (min count pb.len) := by
  have hmin : (if count < pb.len then count else pb.len) = min count pb.len := by
    split
    · exact (Nat.min_eq_left (by omega)).symm
    · exact (Nat.min_eq_right (by omega)).symm
  unfold takeFromPipe at hok
  rw [hmin] at hok
  obtain ⟨k₀, k₀', hget, hok⟩ := bind_ok hok
  cases hget
  obtain ⟨_, k₁, hwrite, hrest⟩ := bind_ok hok
  have hstill : Hidden (get >>= fun k : State =>
      storeBlock pb.data pb.alloc 0 (loadBytes k.heap.bytes (pb.data + min count pb.len)
        (pb.len - min count pb.len)) >>= fun _ =>
      setPipe b (some { pb with len := pb.len - min count pb.len }) >>= fun _ =>
      pure (toInt (min count pb.len))) :=
    still_get fun _ => (hidden_storeBlock _ _ _ _).bind fun _ => (hidden_setPipe b _).bind fun _ => still_pure _
  have hout := (hstill k₁.outline).ok rfl hrest
  have hseen := hmap.seesBytes hp (by rw [loadBytes_length]; omega) hwrite
  rw [loadBytes_length] at hseen
  rw [userBytes_congr hout]
  exact hseen

theorem endAt_of {t : FhType} {fd : ℤ} {fh : Filehandle} (ha : lookupFd k p fd = some a)
    (hfh : k.handles a = some fh) : endAt k p t fd = if fh.type = t then some fh.p else none := by
  simp [endAt, ha, hfh]

theorem transferOf_write (h : res < 0 ∨ endAt k p .pipeWriter (toInt (args.getD 0 0)) = none) :
    transferOf p SYSCALL_WRITE args k res k' = .nothing := by
  simp only [transferOf]
  rw [if_pos trivial]
  split
  · rename_i b hb
    rcases h with h | h
    · exact if_neg (by omega)
    · rw [hb] at h
      cases h
  · rfl

theorem transferOf_read (h : res < 0 ∨ endAt k p .pipeReader (toInt (args.getD 0 0)) = none) :
    transferOf p SYSCALL_READ args k res k' = .nothing := by
  simp only [transferOf]
  rw [if_neg (by decide), if_pos trivial]
  split
  · rename_i b hb
    rcases h with h | h
    · exact if_neg (by omega)
    · rw [hb] at h
      cases h
  · rfl

theorem acts_getHandle {R : Filehandle → State → Prop} (hR : ∀ fh, k.handles a = some fh → R fh k) :
    Acts id Benign k (getHandle a) R := by
  constructor
  intro k₀ hk₀
  obtain rfl : k₀ = k := hk₀
  unfold getHandle
  cases hfh : k₀.handles a with
  | some fh => exact hR fh hfh
  | none => exact benign_wildPointer

/-- What is known of a state that a computation reaches. -/
theorem acts_of_ok {α : Type} {x : K α} {R : α → State → Prop} (h : ∀ a k', x k = .ok a k' → R a k') :
    Acts id AnyFault k x R := by
  constructor
  intro k₀ hk₀
  obtain rfl : k₀ = k := hk₀
  cases hx : x k₀ with
  | ok a k' => exact h a k' hx
  | error e k' => exact trivial

/-- Bytes went into a pipe or out of it, and nothing else was made. -/
theorem Appended.silent {k k' : State} (h : Appended k.objects b k'.objects) (hb : k.pipes b = some pb) (C : Contents) :
    Silent C C k.objects k'.objects := by
  refine silent_refl C ?_ fun z hz => ?_
  · intro c hc
    obtain ⟨pb', hpipes⟩ := h.pipes
    have hcb : c ≠ b := by
      intro he
      have hc' : k.pipes c = none := hc
      rw [he, hb] at hc'
      cases hc'
    rw [hpipes, Function.update_of_ne hcb]
    exact hc
  · rw [h.woken.exists_ z]
    exact hz

/-- **`write`.** -/
theorem Serving.syscallWrite (h : Serving n C p k.objects)
    (hcall : (k.sched.procs p).inSyscall ≠ SYSCALL_WAITPID) (args : List ℕ) :
    Acts id Benign k (syscallWrite p (toInt (args.getD 0 0)) (args.getD 1 0) (args.getD 2 0))
      (Accounts m n C p SYSCALL_WRITE args k) := by
  have hstay : ∀ {res : ℤ}, res < 0 → res ≠ -ESUSPEND → Accounts m n C p SYSCALL_WRITE args k res k :=
    fun hneg hres => (h.stay hres).accounts (transferOf_write (Or.inl hneg))
  refine Acts.get fun k₀ hk₀ => ?_
  obtain rfl : k₀ = k := hk₀
  refine Acts.ite (fun _ => ?_) fun _ => Acts.pure (hstay (by decide) (by decide))
  cases ha : lookupFd k₀ p (toInt (args.getD 0 0)) with
  | none => exact Acts.pure (hstay (by decide) (by decide))
  | some a =>
    refine Acts.seq (acts_getHandle fun fh hfh => ?_)
    have hend := endAt_of (t := .pipeWriter) ha hfh
    unfold writeHandle
    cases hty : fh.type with
    | screen =>
      rw [hty, if_neg (by decide)] at hend
      exact accounts_of_does (h.remote hcall (remote_screenWrite p _ _)) fun _ _ => transferOf_write (Or.inr hend)
    | pipeWriter =>
      rw [hty, if_pos rfl] at hend
      obtain ⟨pb, hpb⟩ := h.whole.pipe_of hfh (by rw [hty]; rfl)
      refine (h.pipeWriterWrite hcall hfh hty _ _).mono ?_
      rintro res k' ⟨hres, hdone, happ⟩
      refine ⟨_, hdone, fun _ => ⟨_, ?_, happ.silent hpb _⟩⟩
      have htransfer : transferOf p SYSCALL_WRITE args k₀ res k' =
          .put fh.p (userBytes k₀ p (args.getD 1 0) (args.getD 2 0)) := by
        simp only [transferOf]
        rw [if_pos trivial, hend]
        exact if_pos (by omega)
      rw [htransfer]
      exact rfl
    | pipeReader => exact Acts.pure (hstay (by decide) (by decide))
    | file => exact Acts.pure (hstay (by decide) (by decide))
    | dir => exact Acts.pure (hstay (by decide) (by decide))

/-- The length of a pipe is an `int`. -/
theorem Whole.len_lt (h : Whole n C o) (hb : o.pipes b = some pb) : pb.len < 2 ^ 31 := by
  obtain ⟨T, hS⟩ := h.tidy.stored
  have hfits := hS.fits b pb hb
  have hend : pb.data + pb.alloc < 2 ^ 31 := hS.end_lt (hS.data b pb hb)
  omega

/-- What the caller sees after a read from a pipe that holds data. -/
theorem sees_pipeReaderRead (hmap : Mapped m k) (hp : k.sched.Live p) {fh : Filehandle} {buf count : ℕ}
    (hb : k.pipes fh.p = some pb) (hnone : pb.readpid = none) (hpos : 0 < pb.len) (hlen : pb.len ≤ wordSize)
    (hok : pipeReaderRead p fh buf count k = .ok res k') :
    userBytes k' p buf (min count pb.len) = loadBytes k.heap.bytes pb.data (min count pb.len) := by
  unfold pipeReaderRead at hok
  obtain ⟨pb', k₁, hget, hok⟩ := bind_ok hok
  unfold getPipe at hget
  rw [hb] at hget
  cases hget
  rw [if_neg (not_not.mpr hnone), if_pos hpos] at hok
  exact sees_takeFromPipe hmap hp hlen hok

/-- **`read`.** -/
theorem Serving.syscallRead (h : Serving n C p k.objects)
    (hcall : (k.sched.procs p).inSyscall = SYSCALL_READ) (fs : Memory) (hargs : n.args p = args) :
    Acts id Benign k (syscallRead fs p (toInt (args.getD 0 0)) (args.getD 1 0) (args.getD 2 0)) fun res k' =>
      Accounts m n C p SYSCALL_READ args k res k' ∧
        ∀ b, endAt k p .pipeReader (toInt (args.getD 0 0)) = some b → res = 0 → args.getD 2 0 ≠ 0 →
          ∃ pb, k.pipes b = some pb ∧ pb.len = 0 ∧ pb.writing = false := by
  have hne : (k.sched.procs p).inSyscall ≠ SYSCALL_WAITPID := by
    rw [hcall]
    decide
  have hstay : ∀ {res : ℤ}, res < 0 → res ≠ -ESUSPEND → Accounts m n C p SYSCALL_READ args k res k ∧
      ∀ b, endAt k p .pipeReader (toInt (args.getD 0 0)) = some b → res = 0 → args.getD 2 0 ≠ 0 →
        ∃ pb, k.pipes b = some pb ∧ pb.len = 0 ∧ pb.writing = false :=
    fun hneg hres => ⟨(h.stay hres).accounts (transferOf_read (Or.inl hneg)), fun _ _ hz => by omega⟩
  refine Acts.get fun k₀ hk₀ => ?_
  obtain rfl : k₀ = k := hk₀
  refine Acts.ite (fun _ => ?_) fun _ => Acts.pure (hstay (by decide) (by decide))
  cases ha : lookupFd k₀ p (toInt (args.getD 0 0)) with
  | none => exact Acts.pure (hstay (by decide) (by decide))
  | some a =>
    refine Acts.seq (acts_getHandle fun fh hfh => ?_)
    have hend := endAt_of (t := .pipeReader) ha hfh
    unfold readHandle
    cases hty : fh.type with
    | screen => exact Acts.pure (hstay (by decide) (by decide))
    | pipeWriter => exact Acts.pure (hstay (by decide) (by decide))
    | pipeReader =>
      rw [hty, if_pos rfl] at hend
      obtain ⟨hlt, hfd, h0⟩ := lookupFd_eq_some ha
      have hreads : Reads k₀.filedesc k₀.handles p (n.fd p) fh.p := by
        rw [Notes.fd, hargs]
        exact ⟨h0, by omega, a, fh, hfd, hfh, hty, rfl⟩
      obtain ⟨pb, hpb⟩ := h.whole.pipe_of hfh (by rw [hty]; rfl)
      have hpb' : k₀.pipes fh.p = some pb := hpb
      have hlen := h.whole.len_lt hpb
      refine ((h.pipeReaderRead hcall hreads _ _).whole.both
        (acts_of_ok (R := fun res k' => Kernel.pipeReaderRead p fh (args.getD 1 0) (args.getD 2 0) k₀ = .ok res k')
          fun _ _ hx => hx)).mono ?_
      rintro res k' ⟨⟨pb', hpb₂, hcases⟩, hok⟩
      replace hok : Kernel.pipeReaderRead p fh (args.getD 1 0) (args.getD 2 0) k₀ = .ok res k' := hok
      obtain rfl : pb = pb' := Option.some.inj (hpb.symm.trans hpb₂)
      -- data was taken exactly when the result is not an error
      have htake : ∀ l : ℕ, res = l → transferOf p SYSCALL_READ args k₀ res k' =
          .take fh.p (userBytes k' p (args.getD 1 0) l) := by
        intro l hl
        simp only [transferOf]
        rw [if_neg (by decide), if_pos trivial, hend, hl]
        exact if_pos (by omega)
      rcases hcases with ⟨rfl, -, hq⟩ | ⟨hpos, hres, hdone, happ⟩ | ⟨rfl, hzero, hw, hq⟩ | ⟨rfl, -, -, hq⟩
      · exact ⟨hq.accounts (transferOf_read (Or.inl (by decide))), fun _ _ hz => by cases hz⟩
      · have hint : res = ((min (args.getD 2 0) pb.len : ℕ) : ℤ) := by
          rw [hres, toInt, if_pos (by omega)]
        refine ⟨⟨_, hdone, fun hmap => ⟨_, ?_, happ.silent hpb _⟩⟩, ?_⟩
        · have hnone : pb.readpid = none := by
            cases hr : pb.readpid with
            | none => rfl
            | some q =>
              have hzero := (h.whole.waits.reader fh.p pb q hpb hr).2.1
              omega
          obtain ⟨T, hS⟩ := h.whole.tidy.stored
          have hseen := sees_pipeReaderRead hmap h.live hpb' hnone hpos (by simp only [wordSize]; omega) hok
          rw [htake _ hint, hseen]
          refine ⟨_, ?_, rfl⟩
          have hsplit := loadBytes_add k₀.heap.bytes pb.data (min (args.getD 2 0) pb.len)
            (pb.len - min (args.getD 2 0) pb.len)
          rw [Nat.add_sub_cancel' (by omega)] at hsplit
          have htext : C.text fh.p = _ := (hS.text fh.p pb hpb).symm.trans hsplit
          rw [htext]
          exact congrArg _ (List.drop_left' (loadBytes_length _ _ _)).symm
        · intro b _ hz hcount
          rw [hint] at hz
          omega
      · refine ⟨?_, ?_⟩
        · obtain ⟨C', hsilent, hdone⟩ := hq
          refine ⟨C', hdone, fun _ => ⟨C, ?_, hsilent⟩⟩
          rw [htake 0 rfl]
          exact ⟨C.text fh.p, rfl, (C.setText_self fh.p).symm⟩
        · intro b hb _ _
          obtain rfl : fh.p = b := Option.some.inj (hend.symm.trans hb)
          exact ⟨pb, hpb', hzero, hw⟩
      · exact ⟨hq.accounts (transferOf_read (Or.inl (by decide))), fun _ _ hz => by cases hz⟩
    | file =>
      rw [hty, if_neg (by decide)] at hend
      refine (h.fileRead hne hfh fs _ _).whole.mono ?_
      intro res k' hq
      refine ⟨hq.accounts (transferOf_read (Or.inr hend)), ?_⟩
      intro b hb
      rw [hend] at hb
      cases hb
    | dir => exact Acts.pure (hstay (by decide) (by decide))

theorem transferOf_send (h : res ≠ 0) : transferOf p SYSCALL_SEND args k res k' = .nothing := by
  simp only [transferOf]
  rw [if_neg (by decide), if_neg (by decide), if_pos trivial, if_neg h]

theorem transferOf_receive (h : res ≠ 0) : transferOf p SYSCALL_RECEIVE args k res k' = .nothing := by
  simp only [transferOf]
  rw [if_neg (by decide), if_neg (by decide), if_neg (by decide), if_pos trivial, if_neg h]

/-- The handler made no process and no pipe. -/
theorem silent_of_outline (C : Contents) (hpipes : k'.pipes = k.pipes)
    (htable : k'.outline.table = k.outline.table) : Silent C C k.objects k'.objects := by
  refine silent_refl C (fun b hb => ?_) fun z hz => ?_
  · show k'.pipes b = none
    rw [hpipes]
    exact hb
  · have hz' : (k.outline.table z).exists_ = false := hz
    show (k'.outline.table z).exists_ = false
    rw [htable]
    exact hz'

/-- **`send`.** -/
theorem Serving.sendAccounts (h : Serving n C p k.objects) (args : List ℕ)
    (hd : Accepts k p (toInt (args.getD 0 0)) (args.getD 2 0) (args.getD 3 0) →
      Deliverable n.stale k.sched.procs (toInt (args.getD 0 0)).toNat) :
    Acts id Benign k
      (Kernel.syscallSend p (toInt (args.getD 0 0)) (args.getD 1 0) (args.getD 2 0) (args.getD 3 0))
      (Accounts m n C p SYSCALL_SEND args k) := by
  refine ((h.syscallSend _ (args.getD 1 0) _ _ hd).both (hidden_syscallSend _ _ _ _ _ k.outline)).mono ?_
  rintro res k' ⟨⟨-, hk, hres⟩ | ⟨-, rfl, hdone, hpipes, -⟩, hout⟩
  · obtain rfl : k' = k := hk
    have hneg : res < 0 ∧ res ≠ -ESUSPEND := by
      simp only [List.mem_cons, List.not_mem_nil, or_false] at hres
      rcases hres with rfl | rfl | rfl | rfl <;> decide
    exact (h.stay hneg.2).accounts (transferOf_send (by omega))
  · refine ⟨_, hdone, fun _ => ⟨_, ?_, silent_of_outline _ hpipes (congrArg Outline.table hout)⟩⟩
    exact rfl

/-- What the caller sees after a message was copied out of its mailbox. -/
theorem sees_takeMessage (hmap : Mapped m k) (hp : k.sched.Live p) {x l msg : ℕ}
    (hok : takeMessage p x l msg k = .ok res k') :
    userBytes k' p msg MESSAGE_SIZE = loadBytes k.heap.bytes x MESSAGE_SIZE := by
  unfold takeMessage at hok
  obtain ⟨k₀, k₀', hget, hok⟩ := bind_ok hok
  cases hget
  obtain ⟨_, k₁, hwrite, hrest⟩ := bind_ok hok
  have hstill : Hidden (get >>= fun k : State =>
      storeBlock x (l * MESSAGE_SIZE) 0 (loadBytes k.heap.bytes (x + MESSAGE_SIZE) ((l - 1) * MESSAGE_SIZE)) >>=
        fun _ => schedDo (fun S => .ok (S.set p { S.procs p with mailboxSize := l - 1 })) >>= fun _ =>
        pure (0 : ℤ)) :=
    still_get fun _ => (hidden_storeBlock _ _ _ _).bind fun _ =>
      (hidden_set (fun S => { S.procs p with mailboxSize := l - 1 }) fun _ => rfl).bind fun _ => still_pure _
  have hout := (hstill k₁.outline).ok rfl hrest
  have hseen := hmap.seesBytes hp (by rw [loadBytes_length]; decide) hwrite
  rw [loadBytes_length] at hseen
  rw [userBytes_congr hout]
  exact hseen

/-- The record at the front of a mailbox begins with the message. -/
theorem Mail.front {M : Memory} {x : ℕ} {msg : Message} {rest : List Message} (h : Mail M x (msg :: rest)) :
    msg.bytes <+: loadBytes M x MESSAGE_SIZE := by
  obtain ⟨hlen, hload, -⟩ := h
  have hle : msg.bytes.length ≤ MESSAGE_SIZE := by
    rw [msg.bytes_length]
    simp only [MESSAGE_SIZE, MAX_MESSAGE_SIZE] at *
    omega
  have hsplit := loadBytes_add M x msg.bytes.length (MESSAGE_SIZE - msg.bytes.length)
  rw [Nat.add_sub_cancel' hle, hload] at hsplit
  rw [hsplit]
  exact List.prefix_append _ _

/-- A `receive` that returns 0 took the first message. -/
theorem takes_of_receive {msg : Message} {rest : List Message} (h : Serving n C p k.objects)
    (hmail : C.mail p = msg :: rest) {buf : ℕ} {block : Bool} (hok : syscallReceive p buf block k = .ok 0 k') :
    ∃ x, boxes k.sched.procs n.stale p = some x ∧
      takeMessage p x (k.sched.procs p).mailboxSize buf k = .ok 0 k' := by
  have hp := h.live
  have hstale := h.whole.fresh p hp
  have hsize : (k.sched.procs p).mailboxSize = (C.mail p).length := h.whole.entries.size p hp.1 hstale
  rw [hmail, List.length_cons] at hsize
  unfold syscallReceive at hok
  obtain ⟨k₀, k₀', hget, hok⟩ := bind_ok hok
  cases hget
  split at hok
  · rw [if_pos (by omega)] at hok
    cases hx : (k.sched.procs p).mailbox with
    | none =>
      rw [hx] at hok
      cases hok
    | some x =>
      rw [hx] at hok
      refine ⟨x, ?_, hok⟩
      rw [boxes, if_pos ⟨hp.1, hstale⟩, hx]
  · cases hok

/-- **`receive`.** -/
theorem Serving.receiveAccounts (h : Serving n C p k.objects)
    (hcall : (k.sched.procs p).inSyscall = SYSCALL_RECEIVE) (args : List ℕ) :
    Acts id Benign k (Kernel.syscallReceive p (args.getD 0 0) (args.getD 1 0 ≠ 0))
      (Accounts m n C p SYSCALL_RECEIVE args k) := by
  refine (((h.syscallReceive hcall _).whole.both
    (scrawls_syscallReceive (args.getD 0 0) (args.getD 1 0 ≠ 0) k.outline)).both
    (acts_of_ok (R := fun res k' =>
      Kernel.syscallReceive p (args.getD 0 0) (args.getD 1 0 ≠ 0) k = .ok res k') fun _ _ hx => hx)).mono ?_
  rintro res k' ⟨⟨hcases, hout⟩, hok⟩
  replace hok : Kernel.syscallReceive p (args.getD 0 0) (args.getD 1 0 ≠ 0) k = .ok res k' := hok
  have htable : k'.outline.table = k.outline.table := by
    obtain ⟨P, -, ho⟩ := hout
    rw [ho]
  rcases hcases with ⟨ho, hres⟩ | ⟨rfl, msg, rest, hmail, hdone, hpipes, -⟩ | ⟨rfl, -, -, hq⟩
  · have hneg : res ≠ 0 ∧ res ≠ -ESUSPEND := by
      rcases hres with rfl | ⟨rfl, -⟩ <;> decide
    have hstay : Quietly n C p k.objects res k'.objects := by
      rw [ho]
      exact h.stay hneg.2
    exact hstay.accounts (transferOf_receive hneg.1)
  · refine ⟨_, hdone, fun hmap => ⟨_, ?_, silent_of_outline _ hpipes htable⟩⟩
    refine ⟨msg, rest, hmail, ?_, rfl⟩
    obtain ⟨x, hx, htaken⟩ := takes_of_receive h hmail hok
    show msg.bytes <+: userBytes k' p (args.getD 0 0) MESSAGE_SIZE
    rw [sees_takeMessage hmap h.live htaken]
    obtain ⟨T, hS⟩ := h.whole.tidy.stored
    have hfront := hS.mail p x hx
    rw [hmail] at hfront
    exact hfront.front
  · exact hq.accounts (transferOf_receive (by decide))

/-! ### All calls -/

/-- `kill` is aimed at a process that has not exited and is not blocked in a read, and a message is accepted only
for a process that can get it. -/
def FairCall (n : Notes) (k : State) (p no : ℕ) (args : List ℕ) : Prop :=
  (no = SYSCALL_KILL → ∀ t : ℕ, toInt (args.getD 0 0) = t → (k.sched.procs t).exists_ = true →
    (k.sched.procs t).exited = false ∧ ¬ Parked k.sched.procs SYSCALL_READ t) ∧
  (no = SYSCALL_SEND → Accepts k p (toInt (args.getD 0 0)) (args.getD 2 0) (args.getD 3 0) →
    Deliverable n.stale k.sched.procs (toInt (args.getD 0 0)).toNat)

/-- **The handlers.** -/
theorem Serving.dispatch (h : Serving n C p k.objects) (r : Regs) (hno : (k.sched.procs p).inSyscall = no)
    (hargs : n.args p = args) (hfair : FairCall n k p no args) :
    Acts id Benign k (dispatch m p r no args) fun x k' => Accounts m n C p no args k x.1 k' := by
  by_cases hk : no ∈ knownCalls
  · simp only [knownCalls, List.mem_cons, List.not_mem_nil, or_false] at hk
    have hne : no ≠ SYSCALL_WAITPID → (k.objects.sched.procs p).inSyscall ≠ SYSCALL_WAITPID := by
      intro hw
      exact fun he => hw (hno.symm.trans he)
    rcases hk with rfl | rfl | rfl | rfl | rfl | rfl | rfl | rfl | rfl | rfl | rfl | rfl | rfl | rfl | rfl |
      rfl | rfl | rfl | rfl | rfl
    · exact acts_keep r (accounts_of_does
        (h.remote (hne (by decide)) (still_get fun _ => still_pure _)) fun _ _ => rfl)
    · exact acts_keep r (accounts_of_does (h.syscallExit (hne (by decide)) _) fun _ _ => rfl)
    · exact acts_keep r (h.syscallWrite (hne (by decide)) args)
    · exact acts_keep r ((h.syscallRead hno _ hargs).mono fun _ _ hx => hx.1)
    · exact acts_keep r (accounts_of_does
        (h.remote (hne (by decide)) (still_get fun _ => still_pure _)) fun _ _ => rfl)
    · exact acts_keep r (accounts_of_does
        (h.remote (hne (by decide)) (remote_syscallBrk p _)) fun _ _ => rfl)
    · exact acts_keep r (h.sendAccounts args (hfair.2 rfl))
    · exact acts_keep r (h.receiveAccounts hno args)
    · exact acts_keep r (accounts_of_does (h.syscallClose _) fun _ _ => rfl)
    · exact acts_keep r (accounts_of_does (h.syscallPipe _) fun _ _ => rfl)
    · exact acts_keep r (accounts_of_does (h.syscallDup2 _ _) fun _ _ => rfl)
    · exact acts_keep r (accounts_of_does (h.syscallFork r) fun _ _ => rfl)
    · exact (h.syscallExecve (hne (by decide)) _ _ _ r).whole.mono fun _ _ hq => hq.accounts rfl
    · exact acts_keep r (accounts_of_does (h.syscallWaitpid hno _ _) fun _ _ => rfl)
    · exact acts_keep r (accounts_of_does
        (h.remote (hne (by decide)) (remote_syscallStat _ p _ _)) fun _ _ => rfl)
    · exact acts_keep r (accounts_of_does (h.syscallOpen (hne (by decide)) _ _ _) fun _ _ => rfl)
    · exact acts_keep r (accounts_of_does (h.syscallGetdent (hne (by decide)) _ _ _) fun _ _ => rfl)
    · exact acts_keep r (accounts_of_does
        (h.remote (hne (by decide)) (remote_syscallChdir _ p _)) fun _ _ => rfl)
    · exact acts_keep r (accounts_of_does
        (h.remote (hne (by decide)) (remote_syscallGetcwd p _ _)) fun _ _ => rfl)
    · exact acts_keep r (accounts_of_does (h.syscallKill (hne (by decide)) (hfair.1 rfl)) fun _ _ => rfl)
  · rw [(unknown_call hk args).1]
    have hnot := hk
    simp only [knownCalls, List.mem_cons, List.not_mem_nil, or_false, not_or] at hnot
    have hne : (k.objects.sched.procs p).inSyscall ≠ SYSCALL_WAITPID := by
      intro he
      exact hk (by rw [← hno]; rw [show (k.sched.procs p).inSyscall = SYSCALL_WAITPID from he]; decide)
    refine acts_keep r (accounts_of_does
      (h.remote hne ((remote_writeToScreen _).bind fun _ => still_pure _)) fun _ _ => ?_)
    simp only [transferOf, hnot, if_false]

end AdelaideOS.Kernel
