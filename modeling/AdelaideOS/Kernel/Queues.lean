import AdelaideOS.Kernel.Advance

/-!
# Mailboxes are queues

The messages that a process has received are the first of those that were sent to it, and at most eight wait in its
mailbox.  `Queue B k q got waiting` says this of process `q`, with the books `B` of what was sent and received; the
lemmas about single calls say when `send` is refused, and that a call that is refused changes nothing.

* **`syscallSend_refused`**, **`syscallReceive_refused`** — calls that fail;
* **`Serving.send_queue`** — `send` in terms of the messages that wait;
* **`send_of_run`** — every message goes into a buffer that belongs to its destination.
-/

namespace AdelaideOS.Kernel

open AdelaideOS.Buddy AdelaideOS.Lib.Bytes AdelaideOS.Lib.Triple AdelaideOS.Lib.View AdelaideOS.Page AdelaideOS.Process

variable {m : Machine} {n : Notes} {B : Books} {C : Contents} {k k' : State} {p q tag data size : ℕ} {res : ℤ}

/-! ### Calls that fail -/

theorem deliver_zero {d : ℕ} (h : deliver p d tag data size k = .ok res k') : res = 0 := by
  unfold deliver at h
  obtain ⟨box, k₁, -, h⟩ := bind_ok h
  obtain ⟨_, k₂, -, h⟩ := bind_ok h
  rw [run_get] at h
  obtain ⟨_, k₃, -, h⟩ := bind_ok h
  obtain ⟨bytes, k₄, -, h⟩ := bind_ok h
  obtain ⟨_, k₅, -, h⟩ := bind_ok h
  split_ifs at h
  · obtain ⟨_, k₆, -, h⟩ := bind_ok h
    obtain ⟨_, k₇, -, h⟩ := bind_ok h
    cases h
    rfl
  · cases h
    rfl

/-- **A send that fails** changes nothing. -/
theorem syscallSend_refused {dest : ℤ} (h : syscallSend p dest tag data size k = .ok res k') (hres : res < 0) :
    k' = k ∧ res ∈ [-EFAULT, -ESRCH, -EINVAL, -ENOMEM] := by
  unfold syscallSend at h
  rw [run_get] at h
  split_ifs at h
  · cases h
    exact ⟨rfl, by simp⟩
  · cases h
    exact ⟨rfl, by simp⟩
  · cases h
    exact ⟨rfl, by simp⟩
  · have := deliver_zero h
    omega
  · cases h
    exact ⟨rfl, by simp⟩

/-- **A receive that fails** and does not block changes nothing. -/
theorem syscallReceive_refused {msg : ℕ} (h : syscallReceive p msg false k = .ok res k') (hres : res < 0) :
    k' = k ∧ res ∈ [-EFAULT, -EAGAIN] := by
  unfold syscallReceive at h
  rw [run_get] at h
  simp only [Bool.false_eq_true, if_false] at h
  split_ifs at h
  · cases hbox : (k.sched.procs p).mailbox with
    | none =>
      rw [hbox] at h
      cases h
    | some box =>
      rw [hbox] at h
      replace h : takeMessage p box (k.sched.procs p).mailboxSize msg k = .ok res k' := h
      unfold takeMessage at h
      rw [run_get] at h
      obtain ⟨_, k₁, -, h⟩ := bind_ok h
      rw [run_get] at h
      obtain ⟨_, k₂, -, h⟩ := bind_ok h
      obtain ⟨_, k₃, -, h⟩ := bind_ok h
      cases h
      cases hres
  · cases h
    exact ⟨rfl, by simp⟩
  · cases h
    exact ⟨rfl, by simp⟩

/-! ### The queue of a process -/

/-- What process `q` has received, and what waits in its mailbox, with the books of the run. -/
structure Queue (B : Books) (k : State) (q : ℕ) (got waiting : List Message) : Prop where
  received : List.Forall₂ (fun msg record => msg.bytes <+: record) got (B.received q)
  order : got ++ waiting = B.sent q
  size : (k.sched.procs q).mailboxSize = waiting.length
  bound : waiting.length ≤ 8
  alloc : (k.sched.procs q).mailbox ≠ none → (k.sched.procs q).mailboxAlloc = 8
  blocked : Parked k.sched.procs SYSCALL_RECEIVE q ↔ (k.sched.procs q).receiveBlocked = true
  hungry : Parked k.sched.procs SYSCALL_RECEIVE q → waiting = []

/-- What `send` does to process `q`, for which `waiting` waits. -/
structure Posts (k : State) (p q tag data size : ℕ) (waiting : List Message) : Prop where
  full : validPointer (k.space p) data size = true → size ≤ MAX_MESSAGE_SIZE → waiting.length = 8 →
    syscallSend p q tag data size k = .ok (-ENOMEM) k
  room : validPointer (k.space p) data size = true → size ≤ MAX_MESSAGE_SIZE → waiting.length < 8 →
    ∀ res k', syscallSend p q tag data size k = .ok res k' → res = 0
  wakes : ∀ k', syscallSend p q tag data size k = .ok 0 k' →
    Parked k.sched.procs SYSCALL_RECEIVE q → (k'.sched.procs q).ready = true

/-- **`send`** in terms of the messages that wait. -/
theorem Serving.send_queue (h : Serving n C p k.objects) (hq : k.sched.Live q) (hlt : q < MAX_PROCESSES)
    (tag data size : ℕ) : Posts k p q tag data size (C.mail q) := by
  have hfresh := h.whole.fresh q hq
  have hsize : (k.sched.procs q).mailboxSize = (C.mail q).length := h.whole.entries.size q hq.1 hfresh
  have halloc : (k.sched.procs q).mailbox ≠ none → (k.sched.procs q).mailboxAlloc = 8 :=
    h.whole.entries.alloc q hq.1 hfresh
  have hempty : (k.sched.procs q).mailbox = none → C.mail q = [] := h.whole.entries.empty q hq.1 hfresh
  have hdel : Deliverable n.stale k.sched.procs q := by
    refine ⟨hq.1, hfresh, ?_⟩
    rw [hq.2]
    intro hc
    cases hc
  have hspec := h.syscallSend (k := k) (q : ℤ) tag data size fun _ => hdel
  constructor
  case full =>
    intro hvalid hmax hfull
    have hbox : (k.sched.procs q).mailbox ≠ none := by
      intro hnone
      rw [hempty hnone] at hfull
      cases hfull
    unfold Kernel.syscallSend
    rw [run_get, if_pos hvalid, if_neg, if_neg (by omega), if_pos]
    · rfl
    · rw [Int.toNat_natCast, halloc hbox, hsize, hfull]
      exact ⟨hbox, Nat.le_refl 8⟩
    · rw [Int.toNat_natCast, hq.1]
      simp only [Bool.true_eq_false, or_false]
      omega
  case room =>
    intro hvalid hmax hroom res k' hok
    rcases hspec.ok rfl hok with ⟨hacc, -⟩ | ⟨-, hres, -⟩
    · exfalso
      apply hacc
      refine ⟨hvalid, by omega, by omega, ?_, hmax, ?_⟩
      · rw [Int.toNat_natCast]
        exact hq.1
      · rw [Int.toNat_natCast]
        by_cases hbox : (k.sched.procs q).mailbox = none
        · exact Or.inl hbox
        · right
          rw [halloc hbox, hsize]
          exact hroom
    · exact hres
  case wakes =>
    intro k' hok hpark
    rcases hspec.ok rfl hok with ⟨-, -, hres⟩ | ⟨-, -, hdone, -⟩
    · exact absurd hres (by decide)
    · -- the message waits, so the process does not
      have hout := (hidden_syscallSend p q tag data size k.outline).ok rfl hok
      have hstand : standingOf (k'.sched.procs q) = standingOf (k.sched.procs q) :=
        congrFun (congrArg Outline.table hout) q
      by_contra hready
      have hpark' : Parked k'.sched.procs SYSCALL_RECEIVE q := by
        refine ⟨?_, ?_, by simpa using hready, ?_⟩
        · exact (congrArg Standing.exists_ hstand).trans hpark.exists_
        · exact (congrArg Standing.exited hstand).trans hpark.alive
        · exact (congrArg Standing.inSyscall hstand).trans hpark.call
      have hmail := hdone.whole.entries.hungry q hpark'
      rw [Int.toNat_natCast, Contents.mail_setMail] at hmail
      simp at hmail

/-! ### The buffer of a mailbox -/

/-- The mailbox of process `d` is a block of the heap that is in use, and nothing else is in it; `stale` are the
processes whose mailbox has been freed. -/
structure OwnsBox (stale : ℕ → Bool) (k : State) (d box : ℕ) : Prop where
  mailbox : (k.sched.procs d).mailbox = some box
  allocated : Allocated kernelRegion k.heap box (8 * MESSAGE_SIZE)
  others : ∀ q, q ≠ d → (k.sched.procs q).exists_ = true → stale q = false → (k.sched.procs q).mailbox ≠ some box
  handles : k.handles box = none
  pipes : ∀ b pb, k.pipes b = some pb → b ≠ box ∧ pb.data ≠ box

theorem Whole.ownsBox {d box : ℕ} (h : Whole n C k.objects) (hex : (k.sched.procs d).exists_ = true)
    (hfresh : n.stale d = false) (hbox : (k.sched.procs d).mailbox = some box) : OwnsBox n.stale k d box := by
  obtain ⟨T, hS⟩ := h.tidy.stored
  have hboxes : ∀ q x, (k.sched.procs q).exists_ = true → n.stale q = false → (k.sched.procs q).mailbox = some x →
      T x = some ⟨8 * MESSAGE_SIZE, .box q⟩ := by
    intro q x hq hs hx
    apply hS.owned q x
    rw [boxes, if_pos ⟨hq, hs⟩]
    exact hx
  have hown := hboxes d box hex hfresh hbox
  refine ⟨hbox, hS.holds.allocated hown, ?_, ?_, ?_⟩
  · intro q hne hq hs hx
    have := sameUse hown (hboxes q box hq hs hx)
    injection this with he
    exact hne he.symm
  · cases hfh : k.handles box with
    | none => rfl
    | some fh => cases sameUse hown (hS.handle box fh hfh)
  · intro b pb hb
    constructor
    · rintro rfl
      cases sameUse hown (hS.pipe b pb hb)
    · rintro rfl
      cases sameUse hown (hS.data b pb hb)

/-- **A message is stored** in a buffer that belongs to its destination. -/
theorem Serving.send_owns {dest : ℤ} (h : Serving n C p k.objects)
    (hd : Accepts k p dest data size → Deliverable n.stale k.sched.procs dest.toNat)
    (hok : Kernel.syscallSend p dest tag data size k = .ok 0 k') : ∃ box, OwnsBox n.stale k' dest.toNat box := by
  rcases (h.syscallSend dest tag data size hd).ok rfl hok with ⟨-, -, hres⟩ | ⟨hacc, -, hdone, -⟩
  · exact absurd hres (by decide)
  · have hdel := hd hacc
    have hout := (hidden_syscallSend p dest tag data size k.outline).ok rfl hok
    have hstand : ∀ q, standingOf (k'.sched.procs q) = standingOf (k.sched.procs q) :=
      congrFun (congrArg Outline.table hout)
    have hex : ∀ q, (k'.sched.procs q).exists_ = (k.sched.procs q).exists_ :=
      fun q => congrArg Standing.exists_ (hstand q)
    have hlives : ∀ q, k'.sched.Live q ↔ k.sched.Live q := by
      intro q
      rw [Sched.Live, Sched.Live, hex q, show (k'.sched.procs q).exited = (k.sched.procs q).exited from
        congrArg Standing.exited (hstand q)]
    have hafter : n.after k.objects k'.objects = n := Notes.after_eq h.whole.fresh hlives
    have hwhole : Whole (n.after k.objects k'.objects) _ k'.objects := hdone.whole
    rw [hafter] at hwhole
    have hexd : (k'.sched.procs dest.toNat).exists_ = true := (hex _).trans hdel.exists_
    cases hbox : (k'.sched.procs dest.toNat).mailbox with
    | none =>
      have hmail := hwhole.entries.empty dest.toNat hexd hdel.fresh hbox
      rw [Contents.mail_setMail] at hmail
      simp at hmail
    | some box => exact ⟨box, hwhole.ownsBox hexd hdel.fresh hbox⟩

/-- **In a run** without kills of exited or reading processes, and without messages to a process whose mailbox has
been freed, every message goes into a buffer that belongs to its destination. -/
theorem send_of_run (args : List ℕ) (h : Run m (fun n k i => i.Fair n k) n B k) (hcur : k.sched.current = some p)
    (hfair : FairCall n k p SYSCALL_SEND args)
    (hok : syscallSend p (toInt (args.getD 0 0)) (args.getD 1 0) (args.getD 2 0) (args.getD 3 0)
      { k with sched := enter k.sched p SYSCALL_SEND } = .ok 0 k') :
    ∃ box, OwnsBox n.stale k' (toInt (args.getD 0 0)).toNat box := by
  obtain ⟨hserve, hsteady, C, hwhole, -⟩ := h.standing fun _ _ _ hP => hP
  let n₁ : Notes := { n with serving := some p, args := Function.update n.args p args }
  have hserving : Serving n₁ C p { k with sched := enter k.sched p SYSCALL_SEND }.objects :=
    hwhole.enter hserve hcur hsteady SYSCALL_SEND args
  have hfair₁ : FairCall n₁ { k with sched := enter k.sched p SYSCALL_SEND } p SYSCALL_SEND args := hfair.enter rfl
  exact hserving.send_owns (hfair₁.2 rfl) hok

end AdelaideOS.Kernel
