import AdelaideOS.Kernel.Handlers

/-!
# Histories

Runs of the whole kernel: the events of `AdelaideOS.Kernel.Runs` with every system call, and key presses.  A
history goes along with what the invariant of `Waiting` has to remember: `Notes.next` follows the notes through
one input.

`Run m P n B k` says that a history leads to the state `k` with the notes `n`, and that each of its inputs satisfied
`P` where it happened.  The books `B` record what has gone through pipes and mailboxes.  A fault in the kernel ends
a history.

* **`Whole.callWith`** — a whole system call;
* **`Whole.react`** — one input keeps the invariant, and stops for benign reasons only.
-/

namespace AdelaideOS.Kernel

open AdelaideOS.Buddy AdelaideOS.Lib.Bytes AdelaideOS.Lib.View AdelaideOS.Process

/-- A press of a key that stands for a character.  Other keyboard interrupts do nothing but switch. -/
inductive Input where
  | event (ev : Event)
  | key (r : Regs) (c : UInt8)

/-- `write_to_pipe(input_pipe,&c,1)`, if there is an input pipe. -/
def typeKey (c : UInt8) : Option ℕ → K Unit
  | none => pure ()
  | some b => writeToPipe b 1 (pure [c])

def keyboardHandler (input : Option ℕ) (r : Regs) (c : UInt8) : K Unit := do
  typeKey c input
  schedDo fun S => .ok (contextSwitch S r)

def react (m : Machine) (input : Option ℕ) : Input → K Unit
  | .event ev => perform m ev
  | .key r c => keyboardHandler input r c

/-! ### Notes -/

def Notes.boot : Notes where
  args := fun _ => []
  std := fun _ => false
  stale := fun _ => false
  serving := none
  input := none

/-- The argument words of the last call of each process. -/
def Input.args (i : Input) (k : State) (args : ℕ → List ℕ) : ℕ → List ℕ :=
  match i, k.sched.current with
  | .event (.call _ words), some p => Function.update args p words
  | _, _ => args

/-- The pipes that `start_process` made. -/
def Input.std (i : Input) (k k' : State) (std : ℕ → Bool) : ℕ → Bool :=
  match i with
  | .event (.start _) => fun b => std b || ((k.pipes b).isNone && (k'.pipes b).isSome)
  | _ => std

/-- `kernel_main` makes the standard input of the first process the input pipe. -/
def Input.input (i : Input) (k k' : State) (input : Option ℕ) : Option ℕ :=
  match i with
  | .event (.start _) =>
    input.orElse fun _ => (getFreePid k.sched).bind fun pid => endAt k' pid .pipeReader 0
  | _ => input

/-- The notes after an input that leads from `k` to `k'`. -/
def Notes.next (n : Notes) (i : Input) (k k' : State) : Notes where
  args := i.args k n.args
  std := i.std k k' n.std
  stale := (n.after k.objects k'.objects).stale
  serving := none
  input := i.input k k' n.input

/-- The inputs that the invariant is about. -/
def Input.Fair (n : Notes) (k : State) : Input → Prop
  | .event (.call r args) => ∀ p, k.sched.current = some p → FairCall n k p r.eax args
  | _ => True

/-- The result of a call in the state `k`, as its handler returns it. -/
def answer (m : Machine) (r : Regs) (args : List ℕ) (k : State) : Option ℤ :=
  match k.sched.current with
  | none => none
  | some p =>
    match dispatch m p r r.eax args { k with sched := enter k.sched p r.eax } with
    | .ok x _ => some x.1
    | .error _ _ => none

/-- What an input moves. -/
def Input.transfer (m : Machine) (n : Notes) (i : Input) (k k' : State) : Transfer :=
  match i with
  | .event (.call r args) =>
    match k.sched.current, answer m r args k with
    | some p, some res => transferOf p r.eax args k res k'
    | _, _ => .nothing
  | .key _ c =>
    match n.input with
    | some b => .put b [c]
    | none => .nothing
  | _ => .nothing

/-! ### Books -/

/-- What went into each pipe and came out again, and what was sent to each process and received by it.  A message
is received as the record that the caller finds in its buffer. -/
structure Books where
  written : ℕ → List UInt8
  taken : ℕ → List UInt8
  sent : ℕ → List Message
  received : ℕ → List (List UInt8)

def Books.boot : Books := ⟨fun _ => [], fun _ => [], fun _ => [], fun _ => []⟩

def Books.record (B : Books) : Transfer → Books
  | .nothing => B
  | .put b bytes => { B with written := Function.update B.written b (B.written b ++ bytes) }
  | .take b bytes => { B with taken := Function.update B.taken b (B.taken b ++ bytes) }
  | .post d msg => { B with sent := Function.update B.sent d (B.sent d ++ [msg]) }
  | .collect p record => { B with received := Function.update B.received p (B.received p ++ [record]) }

/-- The books of a new pipe, and of a new process, are empty. -/
def Books.renew (B : Books) (k k' : State) : Books where
  written := fun b => if k.pipes b = none ∧ k'.pipes b ≠ none then [] else B.written b
  taken := fun b => if k.pipes b = none ∧ k'.pipes b ≠ none then [] else B.taken b
  sent := fun p =>
    if (k.sched.procs p).exists_ = false ∧ (k'.sched.procs p).exists_ = true then [] else B.sent p
  received := fun p =>
    if (k.sched.procs p).exists_ = false ∧ (k'.sched.procs p).exists_ = true then [] else B.received p

/-- The books after an input that leads from `k` to `k'`. -/
def Books.next (B : Books) (m : Machine) (n : Notes) (i : Input) (k k' : State) : Books :=
  (B.record (i.transfer m n k k')).renew k k'

inductive Run (m : Machine) (P : Notes → State → Input → Prop) : Notes → Books → State → Prop where
  | boot (mem bytes : Memory) (blocks : ℕ → Blockinfo) :
      Run m P Notes.boot Books.boot (State.boot mem bytes blocks)
  | step {n : Notes} {B : Books} {k k' : State} (i : Input) : Run m P n B k → P n k i →
      react m n.input i k = .ok () k' → Run m P (n.next i k k') (B.next m n i k k') k'

variable {m : Machine} {n n' : Notes} {B : Books} {C C' : Contents} {k k' : State} {o o' : Objects} {p q : ℕ} {S : Sched}

/-! ### The invariant with other notes -/

/-- The invariant does not depend on the rest of the notes. -/
theorem Whole.renote (h : Whole n C o) (hargs : n'.args = n.args) (hstd : n'.std = n.std)
    (hstale : n'.stale = n.stale) (hserve : n'.serving = n.serving)
    (hinput : ∀ b, n'.input = some b → n.std b = true) : Whole n' C o := by
  have hfd : ∀ q, n'.fd q = n.fd q := by
    intro q
    rw [Notes.fd, Notes.fd, hargs]
  have hon : ∀ q b, SuspendedOn n' o q b ↔ SuspendedOn n o q b := by
    intro q b
    rw [SuspendedOn, SuspendedOn, hfd]
  unfold Whole
  rw [hstale]
  refine ⟨?_, h.sched, ?_, ?_, h.slots, h.alive, ?_⟩
  · rw [hstd]
    exact h.tidy
  · refine ⟨?_, h.waits.parked⟩
    intro b pb q hb hr
    rw [hon]
    exact h.waits.reader b pb q hb hr
  · rw [hserve, hstale]
    exact h.entries
  · intro b hb
    rw [hstd]
    exact hinput b hb

theorem boxes_boot (stale : ℕ → Bool) : boxes Sched.boot.procs stale = fun _ => none := by
  funext p
  rw [boxes, if_neg]
  rintro ⟨hex, -⟩
  cases hex

theorem whole_boot (mem bytes : Memory) (blocks : ℕ → Blockinfo) :
    Whole Notes.boot ⟨fun _ => [], fun _ => []⟩ (State.boot mem bytes blocks).objects := by
  have hparked : ∀ no q, ¬ Parked Sched.boot.procs no q := by
    intro no q h
    cases h.exists_
  refine ⟨⟨⟨?_, ?_⟩, ⟨?_, ?_, ?_, ?_, ?_⟩, fun _ => none, ?_⟩, ⟨Sched.boot, good_boot, rfl⟩, ⟨?_, ?_⟩, ?_, ?_, ?_, ?_⟩
  · intro a
    show 0 = refs _ _ a
    symm
    apply Nat.eq_zero_of_not_pos
    rw [refs_pos]
    rintro ⟨s, -, hs⟩
    cases hs
  · intro a fh hfh
    cases hfh
  · intro a fh hfh
    cases hfh
  · intro a a' fh fh' hfh
    cases hfh
  · intro b pb t hb
    cases hb
  · intro b pb hb
    cases hb
  · intro b hb
    cases hb
  · rw [show (State.boot mem bytes blocks).objects.sched = Sched.boot from rfl, boxes_boot]
    refine ⟨holds_init kernelRegion blocks bytes, ?_, ?_, ?_, ?_, ?_, ?_, ?_, ?_⟩
    · intro a fh hfh
      cases hfh
    · intro b pb hb
      cases hb
    · intro b pb hb
      cases hb
    · intro b pb hb
      cases hb
    · intro b pb hb
      cases hb
    · intro q x hx
      cases hx
    · intro q x hx
      cases hx
    · intro q x hx
      cases hx
  · intro b pb q hb
    cases hb
  · intro q hq
    exact absurd hq (hparked _ q)
  · refine ⟨?_, ?_, ?_, ?_, ?_, ?_, ?_⟩
    · intro q hex
      cases hex
    · intro q hex
      cases hex
    · intro q hex
      cases hex
    · intro q hex
      cases hex
    · intro q hex
      cases hex
    · intro q hq
      exact absurd hq (hparked _ q)
    · intro q _ hex
      cases hex
  · intro q fd hq
    exact absurd hq (hparked _ q)
  · intro q hq
    exact absurd hq (hparked _ q)
  · intro b hb
    cases hb

/-! ### One input -/

/-- What an input makes of a state that satisfies the invariant. -/
def Follows (m : Machine) (n : Notes) (C : Contents) (i : Input) (k k' : State) : Prop :=
  ∃ C', Whole (n.next i k k') C' k'.objects ∧ Steady k'.sched ∧ Kept k.objects k'.objects ∧
    (Mapped m k → ∃ C₁, (i.transfer m n k k').Moves C C₁ ∧ Silent C₁ C' k.objects k'.objects)

theorem Silent.congr {o₁ o₂ : Objects} (h : Silent C C' o₁ o₂) (hpipes : o.pipes = o₁.pipes)
    (hpipes' : o'.pipes = o₂.pipes)
    (hex : ∀ z, (o.sched.procs z).exists_ = (o₁.sched.procs z).exists_)
    (hex' : ∀ z, (o'.sched.procs z).exists_ = (o₂.sched.procs z).exists_) : Silent C C' o o' := by
  refine ⟨?_, ?_, ?_, ?_⟩
  · rw [hpipes]
    exact h.text
  · rw [hpipes, hpipes']
    exact h.fresh
  · intro z
    rw [hex]
    exact h.mail z
  · intro z
    rw [hex, hex']
    exact h.unread z

/-- The notes about mailboxes depend on who is alive, and on the mailboxes. -/
theorem Notes.after_stale_congr {o₁ o₂ : Objects} (hstale : n'.stale = n.stale)
    (hlive : ∀ z, o₁.sched.Live z ↔ o.sched.Live z) (hlive' : ∀ z, o₂.sched.Live z ↔ o'.sched.Live z)
    (hbox : ∀ z, (o₁.sched.procs z).mailbox = (o.sched.procs z).mailbox) :
    (n'.after o₁ o₂).stale = (n.after o o').stale := by
  funext z
  simp only [Notes.after, hlive, hlive', hbox, hstale]

theorem transferOf_congr {k₁ k₂ : State} {no : ℕ} {args : List ℕ} {res : ℤ}
    (hfds : k₁.filedesc = k.filedesc) (hhandles : k₁.handles = k.handles) (hpages : k₁.pages = k.pages)
    (hspace : k₁.space = k.space) (hpages' : k₂.pages = k'.pages) (hspace' : k₂.space = k'.space) :
    transferOf p no args k₁ res k₂ = transferOf p no args k res k' := by
  have hbytes : ∀ a l, userBytes k₁ p a l = userBytes k p a l := by
    intro a l
    simp only [userBytes, userByte, physical, hpages, hspace]
  have hbytes' : ∀ a l, userBytes k₂ p a l = userBytes k' p a l := by
    intro a l
    simp only [userBytes, userByte, physical, hpages', hspace']
  have hend : ∀ t fd, endAt k₁ p t fd = endAt k p t fd := by
    intro t fd
    simp only [endAt, lookupFd, hfds, hhandles]
  simp only [transferOf, hbytes, hbytes', hend]

theorem FairCall.enter {no : ℕ} {args : List ℕ} (h : FairCall n k p no args) (hstale : n'.stale = n.stale) :
    FairCall n' { k with sched := enter k.sched p no } p no args := by
  obtain ⟨hkill, hsend⟩ := h
  constructor
  · intro hno t ht hex
    simp only [enter_proc] at hex ⊢
    obtain ⟨hexit, hpark⟩ := hkill hno t ht hex
    refine ⟨hexit, ?_⟩
    intro hp
    have hcall := hp.call
    have h1 := hp.exists_
    have h2 := hp.alive
    have h3 := hp.idle
    rw [enter_proc] at hcall h1 h2 h3
    by_cases htp : t = p
    · simp only [if_pos htp] at hcall
      rw [hno] at hcall
      cases hcall
    · simp only [if_neg htp] at hcall
      exact hpark ⟨h1, h2, h3, hcall⟩
  · intro hno hacc
    have hacc' : Accepts k p (toInt (args.getD 0 0)) (args.getD 2 0) (args.getD 3 0) := by
      simp only [Accepts, Accepted, enter_proc] at hacc
      exact hacc
    obtain ⟨h1, h2, h3⟩ := hsend hno hacc'
    refine ⟨?_, by rw [hstale]; exact h2, ?_⟩
    · rw [enter_proc]
      exact h1
    · rw [enter_proc]
      exact h3

theorem Mapped.sched (h : Mapped m k) (hG : Good S) (hlive : ∀ q, S.Live q ↔ k.sched.Live q) :
    Mapped m { k with sched := S } := by
  obtain ⟨forked, asp, hsafe⟩ := h
  exact ⟨forked, asp, hsafe.sched hG hlive⟩

/-- **A system call.** -/
theorem Whole.callWith (h : Whole n C k.objects) (hserve : n.serving = none) (hsteady : Steady k.sched)
    (hcur : k.sched.current = some p) {r : Regs} {args : List ℕ} (hfair : FairCall n k p r.eax args) :
    Acts id Benign k (callWith m r args p) fun _ k' => Follows m n C (.event (.call r args)) k k' := by
  have hserving := h.enter hserve hcur hsteady r.eax args
  have hlive₁ := live_enter k.sched p r.eax
  have hex₁ : ∀ z, ((Process.enter k.sched p r.eax).procs z).exists_ = (k.sched.procs z).exists_ := by
    intro z
    rw [enter_proc]
  have hbox₁ : ∀ z, ((Process.enter k.sched p r.eax).procs z).mailbox = (k.sched.procs z).mailbox := by
    intro z
    rw [enter_proc]
  have hno : ((Process.enter k.sched p r.eax).procs p).inSyscall = r.eax := by
    rw [enter_proc]
    exact if_pos rfl
  generalize hn₁ : ({ n with serving := some p, args := Function.update n.args p args } : Notes) = n₁ at hserving
  have hargs : n₁.args p = args := by
    rw [← hn₁]
    exact Function.update_self _ _ _
  have hfair₁ : FairCall n₁ { k with sched := Process.enter k.sched p r.eax } p r.eax args :=
    hfair.enter (by rw [← hn₁])
  have hdis := Serving.dispatch (m := m) (k := { k with sched := Process.enter k.sched p r.eax }) hserving r hno hargs hfair₁
  unfold Kernel.callWith serve
  refine Acts.bind (R := fun _ k₁ => k₁ = { k with sched := Process.enter k.sched p r.eax }) ?_ ?_
  · constructor
    intro k₀ hk₀
    obtain rfl : k₀ = k := hk₀
    exact rfl
  rintro _ _ rfl
  refine Acts.bind (Acts.bind (hdis.both (acts_of_ok (R := fun x k₂ => Kernel.dispatch m p r r.eax args
    { k with sched := Process.enter k.sched p r.eax } = .ok x k₂) fun _ _ hx => hx)) ?_) fun _ _ hx => Acts.pure hx
  rintro x k₂ ⟨⟨C', hdone, hmoves⟩, hok⟩
  replace hok : Kernel.dispatch m p r r.eax args { k with sched := Process.enter k.sched p r.eax } = .ok x k₂ := hok
  refine Acts.bind (R := fun _ k' => k' = { k₂ with sched := Process.leave k₂.sched p r.eax x.2 x.1 }) ?_ ?_
  · constructor
    intro k₀ hk₀
    obtain rfl : k₀ = k₂ := hk₀
    exact rfl
  rintro _ _ rfl
  refine Acts.pure ?_
  have hlive₂ := live_leave k₂.sched p r.eax x.2 x.1
  have hex₂ : ∀ z, ((Process.leave k₂.sched p r.eax x.2 x.1).procs z).exists_ = (k₂.sched.procs z).exists_ :=
    fun z => ((leave_spec k₂.sched p r.eax x.2 x.1).1 z).1.exists_
  obtain ⟨hwhole, hsteady'⟩ := hdone.whole.leave (by rw [← hn₁]; rfl) hdone.settled r.eax x.2
  refine ⟨C', ?_, hsteady', hdone.kept, ?_⟩
  · have hnotes : ({ n₁.after { k with sched := Process.enter k.sched p r.eax }.objects k₂.objects with
        serving := none } : Notes) = n.next (.event (.call r args)) k
          { k₂ with sched := Process.leave k₂.sched p r.eax x.2 x.1 } := by
      have hstale : (n₁.after ({ k with sched := Process.enter k.sched p r.eax } : State).objects k₂.objects).stale =
          (n.after k.objects ({ k₂ with sched := Process.leave k₂.sched p r.eax x.2 x.1 } : State).objects).stale :=
        Notes.after_stale_congr (by rw [← hn₁]) hlive₁ (fun z => (hlive₂ z).symm) hbox₁
      unfold Notes.next Input.args
      rw [hcur, ← hstale, ← hn₁]
      rfl
    rw [← hnotes]
    exact hwhole
  · intro hmap
    have hmap₁ := hmap.sched (h.good.enter p r.eax) hlive₁
    obtain ⟨C₁, hmove, hsilent⟩ := hmoves hmap₁
    refine ⟨C₁, ?_, ?_⟩
    · have hanswer : answer m r args k = some x.1 := by
        unfold answer
        rw [hcur]
        simp only [hok]
      have htransfer : (Input.event (.call r args)).transfer m n k
          { k₂ with sched := Process.leave k₂.sched p r.eax x.2 x.1 } =
          transferOf p r.eax args { k with sched := Process.enter k.sched p r.eax } x.1 k₂ := by
        simp only [Input.transfer, hcur, hanswer]
        exact transferOf_congr rfl rfl rfl rfl rfl rfl
      rw [htransfer]
      exact hmove
    · exact hsilent.congr rfl rfl (fun z => (hex₁ z).symm) hex₂

/-! ### The other inputs -/

theorem endAt_of_reads {i : ℤ} {b : ℕ} (h : Reads k.filedesc k.handles q i b) :
    endAt k q .pipeReader i = some b := by
  obtain ⟨hpos, hlt, a, fh, hfd, hfh, hty, hb⟩ := h
  have ha : lookupFd k q i = some a := by
    rw [lookupFd, if_neg]
    · exact hfd
    · omega
  rw [endAt_of ha hfh, if_pos hty, hb]

theorem Started.silent {b : ℕ} (h : Started o p b o') (C : Contents) :
    Silent C ((C.setText b []).setMail p []) o o' := by
  obtain ⟨pb, hpipes⟩ := h.pipes
  obtain ⟨v, hv, hsched⟩ := h.sched
  have hfree := (getFreePid_spec h.free).2.2
  refine ⟨?_, ?_, ?_, ?_⟩
  · intro c hc
    apply Contents.text_setText_of_ne
    rintro rfl
    exact hc h.pipe
  · intro c hc hc'
    have hcb : c = b := by
      by_contra hne
      rw [hpipes, Function.update_of_ne hne] at hc'
      exact hc' hc
    rw [hcb]
    exact C.text_setText b []
  · intro z hz
    apply Contents.mail_setMail_of_ne
    rintro rfl
    rw [hfree] at hz
    cases hz
  · intro z hz hz'
    have hzp : z = p := by
      by_contra hne
      rw [hsched, install_procs, Function.update_of_ne hne, hz] at hz'
      cases hz'
    rw [hzp]
    exact Contents.mail_setMail _ p []

theorem Steady.started {b : ℕ} (h : Steady o.sched) (hs : Started o p b o') :
    Steady o'.sched := by
  obtain ⟨v, -, hsched⟩ := hs.sched
  intro q hq
  rw [hsched, install_current] at hq
  rw [hsched, install_procs]
  by_cases hqp : q = p
  · rw [hqp, Function.update_self]
  · rw [Function.update_of_ne hqp]
    exact h q hq

/-- Inputs that leave the notes alone. -/
theorem Notes.next_eq (h : Whole n C k.objects) (hserve : n.serving = none) {i : Input}
    (hargs : i.args k n.args = n.args) (hstd : i.std k k' n.std = n.std) (hinput : i.input k k' n.input = n.input)
    (hlive : ∀ z, k'.sched.Live z ↔ k.sched.Live z) : n.next i k k' = n := by
  have hstale : n.after k.objects k'.objects = n := h.after_eq hlive
  unfold Notes.next
  rw [hstale, hargs, hstd, hinput]
  cases n with
  | mk args std stale serving input =>
    cases hserve
    rfl

/-- A start that fails leaves the notes alone. -/
theorem Notes.next_start_none (h : Whole n C k.objects) (hserve : n.serving = none) (startAddress : ℕ)
    (hnone : getFreePid k.sched = none) (hsame : k'.objects = k.objects) :
    n.next (.event (.start startAddress)) k k' = n := by
  have hpipes : k'.pipes = k.pipes := congrArg Objects.pipes hsame
  have hsched : k'.sched = k.sched := congrArg Objects.sched hsame
  apply Notes.next_eq h hserve
  · rfl
  · funext b
    simp only [Input.std, hpipes]
    cases hb : k.pipes b <;> simp
  · simp only [Input.input, hnone]
    cases n.input <;> rfl
  · intro z
    rw [hsched]

/-- **A new process.** -/
theorem Whole.start (h : Whole n C k.objects) (hserve : n.serving = none) (hsteady : Steady k.sched)
    (startAddress : ℕ) :
    Acts id Benign k (perform m (.start startAddress)) fun _ k' =>
      Follows m n C (.event (.start startAddress)) k k' := by
  refine (h.startProcess m startAddress).whole.bind ?_
  rintro res k' (⟨-, hnone, hsame⟩ | ⟨pid, b, -, hs, hw⟩)
  · refine Acts.pure ⟨C, ?_, ?_, ?_, ?_⟩
    · rw [Notes.next_start_none h hserve startAddress hnone hsame]
      replace hsame : k'.objects = k.objects := hsame
      show Whole n C k'.objects
      rw [hsame]
      exact h
    · rw [show k'.sched = k.sched from congrArg Objects.sched hsame]
      exact hsteady
    · exact kept_of_handles (congrArg Objects.handles hsame)
    · intro _
      refine ⟨C, rfl, ?_⟩
      replace hsame : k'.objects = k.objects := hsame
      show Silent C C k.objects k'.objects
      rw [hsame]
      exact silent_refl C (fun _ hb => hb) fun _ hz => hz
  · replace hs : Started k.objects pid b k'.objects := hs
    replace hw : Whole _ _ k'.objects := hw
    obtain ⟨pb, hpipes⟩ := hs.pipes
    obtain ⟨v, hv, hsched⟩ := hs.sched
    refine Acts.pure ⟨(C.setText b []).setMail pid [], ?_, hsteady.started hs, ?_, ?_⟩
    · have hstd : (n.next (.event (.start startAddress)) k k').std = Function.update n.std b true := by
        funext c
        show (n.std c || ((k.pipes c).isNone && (k'.pipes c).isSome)) = _
        rw [show k'.pipes = Function.update k.pipes b (some pb) from hpipes]
        by_cases hcb : c = b
        · rw [hcb, Function.update_self, Function.update_self, show k.pipes b = none from hs.pipe]
          simp
        · rw [Function.update_of_ne hcb, Function.update_of_ne hcb]
          cases k.pipes c <;> simp
      refine hw.renote rfl hstd ?_ hserve.symm ?_
      · show (n.after k.objects k'.objects).stale = _
        rw [Notes.after_install h.fresh hs.free hv hsched]
      · intro c hc
        show Function.update n.std b true c = true
        by_cases hcb : c = b
        · rw [hcb, Function.update_self]
        · rw [Function.update_of_ne hcb]
          apply h.input
          simp only [Notes.next, Input.input, show getFreePid k.sched = some pid from hs.free,
            endAt_of_reads hs.reads, Option.bind_some] at hc
          cases hin : n.input with
          | some d =>
            rw [hin] at hc
            exact hc
          | none =>
            rw [hin] at hc
            exact absurd (Option.some.inj hc).symm hcb
    · intro a fh fh' hfh hfh'
      rw [hs.handles a fh hfh] at hfh'
      cases hfh'
      exact ⟨rfl, rfl⟩
    · intro _
      exact ⟨C, rfl, hs.silent C⟩

/-- A user page fault kills the current process. -/
theorem Whole.crashWith (h : Whole n C k.objects) (hserve : n.serving = none) (hsteady : Steady k.sched)
    (hcur : k.sched.current = some p) (r : Regs) :
    Acts id Benign k (crashWith r p) fun _ k' => Follows m n C (.event (.crash r)) k k' := by
  have hlive := h.good.current_live hcur
  have hpark : ¬ Parked k.objects.sched.procs SYSCALL_READ p := by
    intro hp
    have hready := hsteady p hcur
    rw [show (k.sched.procs p).ready = false from hp.idle] at hready
    cases hready
  refine (h.killProcess hlive hpark (by rw [hserve]; rintro _ ⟨⟩)).whole.bind ?_
  rintro _ k₁ ⟨hk, hw⟩
  replace hk : Killed k.objects p k₁.objects := hk
  replace hw : Whole _ C k₁.objects := hw
  refine Acts.mono (R := fun _ k' => k' = { k₁ with sched := contextSwitch k₁.sched r }) ?_ ?_
  · constructor
    intro k₀ hk₀
    obtain rfl : k₀ = k₁ := hk₀
    exact rfl
  rintro _ k' rfl
  obtain ⟨hw', hsteady'⟩ := hw.switch hserve r
  refine ⟨C, ?_, hsteady', hk.handles.kept, ?_⟩
  · have hstale : (n.after k.objects k₁.objects).stale =
        (n.after k.objects ({ k₁ with sched := contextSwitch k₁.sched r } : State).objects).stale :=
      Notes.after_stale_congr rfl (fun _ => Iff.rfl) (fun z => (live_contextSwitch k₁.sched r z).symm) fun _ => rfl
    rw [hk.after hlive h.fresh] at hstale
    exact hw'.renote rfl rfl hstale.symm hserve.symm h.input
  · intro _
    refine ⟨C, rfl, (hk.silent C).congr rfl rfl (fun _ => rfl) ?_⟩
    intro z
    exact ((contextSwitch_spec k₁.sched r).1 z).1.exists_

/-- **A press of a key.** -/
theorem Whole.typeKey (h : Whole n C k.objects) (c : UInt8) :
    Acts id Benign k (typeKey c n.input) fun _ k₁ => ∃ C', Whole n C' k₁.objects ∧
      Kept k.objects k₁.objects ∧ Woken k.sched k₁.sched ∧
      (∀ r k', ∃ C₁, ((Input.key r c).transfer m n k k').Moves C C₁ ∧ Silent C₁ C' k.objects k₁.objects) := by
  cases hin : n.input with
  | none =>
    refine Acts.pure ⟨C, h, kept_of_handles rfl, Woken.refl _, ?_⟩
    intro r k'
    refine ⟨C, ?_, silent_refl C (fun _ hb => hb) fun _ hz => hz⟩
    simp only [Input.transfer, hin]
    rfl
  | some b =>
    obtain ⟨pb, hb, -⟩ := h.tidy.paired.std b (h.input b hin)
    have hsource : ∀ k₁ : State, k₁.outline = k.outline →
        Acts id Benign k₁ (pure [c] : K (List UInt8)) fun bs k₂ => bs = [c] ∧ k₂.objects = k₁.objects :=
      fun k₁ _ => Acts.pure ⟨rfl, rfl⟩
    refine (Sane.writeToPipe h hb rfl hsource).mono ?_
    rintro _ k₁ ⟨hsane, happ, -⟩
    refine ⟨C.setText b (C.text b ++ [c]), ?_, kept_of_handles happ.handles, happ.woken, ?_⟩
    · exact hsane.whole happ.woken rfl rfl
    · intro r k'
      refine ⟨C.setText b (C.text b ++ [c]), ?_, happ.silent hb _⟩
      simp only [Input.transfer, hin]
      rfl

/-- The timer. -/
theorem Whole.switchWith (h : Whole n C k.objects) (hserve : n.serving = none) (r : Regs) :
    Acts id Benign k (schedDo fun S => .ok (contextSwitch S r)) fun _ k' =>
      k' = { k with sched := contextSwitch k.sched r } ∧ Whole n C k'.objects ∧ Steady k'.sched := by
  constructor
  intro k₀ hk₀
  obtain rfl : k₀ = k := hk₀
  exact ⟨rfl, h.switch hserve r⟩

/-- **The keyboard.** -/
theorem Whole.keyboardHandler (h : Whole n C k.objects) (hserve : n.serving = none) (r : Regs) (c : UInt8) :
    Acts id Benign k (keyboardHandler n.input r c) fun _ k' => Follows m n C (.key r c) k k' := by
  refine (h.typeKey (m := m) c).bind ?_
  rintro _ k₁ ⟨C', hw, hkept, hwoken, hmoves⟩
  refine (hw.switchWith hserve r).mono ?_
  rintro _ k' ⟨rfl, hw', hsteady'⟩
  have hlive : ∀ z, (contextSwitch k₁.sched r).Live z ↔ k.sched.Live z :=
    fun z => (live_contextSwitch k₁.sched r z).trans (hwoken.live z)
  refine ⟨C', ?_, hsteady', hkept, ?_⟩
  · rw [Notes.next_eq h hserve rfl rfl rfl hlive]
    exact hw'
  · intro _
    obtain ⟨C₁, hmove, hsilent⟩ := hmoves r _
    refine ⟨C₁, hmove, hsilent.congr rfl rfl (fun _ => rfl) ?_⟩
    intro z
    exact ((contextSwitch_spec k₁.sched r).1 z).1.exists_

/-- Inputs that do nothing to the objects but to switch. -/
theorem Whole.follows (h : Whole n C k.objects) (hserve : n.serving = none) {i : Input}
    (hw : Whole n C k'.objects) (hsteady : Steady k'.sched)
    (hargs : i.args k n.args = n.args) (hstd : i.std k k' n.std = n.std) (hinput : i.input k k' n.input = n.input)
    (hnone : i.transfer m n k k' = .nothing) (hhandles : k'.handles = k.handles) (hpipes : k'.pipes = k.pipes)
    (hlive : ∀ z, k'.sched.Live z ↔ k.sched.Live z)
    (hex : ∀ z, (k'.sched.procs z).exists_ = (k.sched.procs z).exists_) : Follows m n C i k k' := by
  refine ⟨C, ?_, hsteady, kept_of_handles hhandles, ?_⟩
  · rw [Notes.next_eq h hserve hargs hstd hinput hlive]
    exact hw
  · intro _
    refine ⟨C, by rw [hnone]; rfl, silent_refl C ?_ ?_⟩
    · intro b hb
      exact (congrFun hpipes b).trans hb
    · intro z hz
      exact (hex z).trans hz

/-- **One input.** -/
theorem Whole.react (h : Whole n C k.objects) (hserve : n.serving = none) (hsteady : Steady k.sched) {i : Input}
    (hfair : i.Fair n k) : Acts id Benign k (react m n.input i) fun _ k' => Follows m n C i k k' := by
  -- what the current process does, if there is one
  have hcurrent : ∀ {f : ℕ → K Unit} {R : Unit → State → Prop},
      (∀ p, k.sched.current = some p → Acts id Benign k (f p) R) → Acts id Benign k (asCurrent f) R := by
    intro f R hf
    apply Acts.get
    intro k₀ hk₀
    obtain rfl : k₀ = k := hk₀
    cases hcur : k₀.sched.current with
    | none => exact ⟨fun _ _ => benign_assertion (by decide)⟩
    | some p => exact hf p hcur
  cases i with
  | key r c => exact h.keyboardHandler hserve r c
  | event ev =>
    cases ev with
    | start startAddress => exact h.start hserve hsteady startAddress
    | call r args => exact hcurrent fun p hcur => h.callWith hserve hsteady hcur (hfair p hcur)
    | crash r => exact hcurrent fun p hcur => h.crashWith hserve hsteady hcur r
    | store a b =>
      refine hcurrent fun p hcur => ?_
      have hremote : Remote (storeWith a b p) :=
        still_get fun _ => Still.ite (remote_storeMapped p _ b) (still_pure ())
      refine (hremote k.objects).whole.mono fun _ k' (hsame : k'.objects = k.objects) => ?_
      have hsched : k'.sched = k.sched := congrArg Objects.sched hsame
      refine h.follows hserve ?_ ?_ rfl rfl rfl rfl (congrArg Objects.handles hsame)
        (congrArg Objects.pipes hsame) ?_ ?_
      · rw [hsame]
        exact h
      · rw [hsched]
        exact hsteady
      · rw [hsched]
        exact fun _ => Iff.rfl
      · rw [hsched]
        exact fun _ => rfl
    | switch r =>
      refine (h.switchWith hserve r).mono ?_
      rintro _ k' ⟨rfl, hw, hsteady'⟩
      exact h.follows hserve hw hsteady' rfl rfl rfl rfl rfl rfl (live_contextSwitch k.sched r)
        fun z => ((contextSwitch_spec k.sched r).1 z).1.exists_

end AdelaideOS.Kernel
