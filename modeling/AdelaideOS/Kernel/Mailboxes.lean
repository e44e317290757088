import AdelaideOS.Kernel.Transfers

/-!
# Sending and receiving

`send` puts a message behind those in the mailbox of its destination and wakes the destination up if it is blocked
in `receive`; `receive` takes the first message out or suspends the caller.  A mailbox is created by the first
message that is sent to a process.

* **`Serving.deliver`** — a message that passed all checks;
* **`Serving.syscallReceive`** — the cases of `receive`.
-/

namespace AdelaideOS.Kernel

open AdelaideOS.Buddy AdelaideOS.Lib.Bytes AdelaideOS.Lib.View AdelaideOS.Process

variable {n : Notes} {C C' : Contents} {o o' : Objects} {box : ℕ → Option ℕ} {d p q x : ℕ} {res : ℤ}
  {S S' : Sched}

/-- **The table and the heap** change, but neither the objects, nor who lives, nor who waits for a pipe. -/
theorem Whole.update {h' : Heap} {T : Table Use} (h : Whole n C o) (hG : Good S')
    (hlive : ∀ z, S'.Live z ↔ o.sched.Live z)
    (hparked : ∀ q, Parked S'.procs SYSCALL_READ q ↔ Parked o.sched.procs SYSCALL_READ q)
    (hS : Stored h' T o.handles o.pipes (boxes S'.procs n.stale) C')
    (hentries : Entries n.serving S'.procs n.stale C'.mail) :
    Whole n C' { o with sched := S', heap := h' } := by
  unfold Whole
  show Sane n C' none (liveSlots S') (boxes S'.procs n.stale) { o with sched := S', heap := h' }
  rw [liveSlots_congr hlive]
  refine ⟨⟨h.tidy.counted, h.tidy.paired, T, hS⟩, ⟨S', hG, rfl⟩, ⟨?_, ?_⟩, hentries, ?_, ?_, h.input⟩
  · intro b pb q hb hr
    obtain ⟨⟨hpark, hreads⟩, hlen, hw⟩ := h.waits.reader b pb q hb hr
    exact ⟨⟨(hparked q).mpr hpark, hreads⟩, hlen, hw⟩
  · intro q hq
    exact h.waits.parked q ((hparked q).mp hq)
  · intro q fd hq
    exact h.slots q fd ((hparked q).mp hq)
  · intro q _ he
    cases he

/-! ### The mailbox as a queue -/

/-- The header and the data of a message are stored one after the other. -/
theorem load_message (M : Memory) (y : ℕ) (hdr bytes : List UInt8) (hhdr : hdr.length = 12) :
    loadBytes (storeBytes (storeBytes M y hdr) (y + 12) bytes) y (12 + bytes.length) = hdr ++ bytes := by
  rw [loadBytes_add, loadBytes_storeBytes_of_apart _ (Or.inl (Nat.le_refl _)), loadBytes_storeBytes, ← hhdr,
    loadBytes_storeBytes]

/-- **A message** is stored in the first unused slot of a mailbox. -/
theorem Stored.addMessage {h : Heap} {T : Table Use} {H : ℕ → Option Filehandle}
    {B : ℕ → Option PipeBuffer} {m : ℕ} (hS : Stored h T H B box C) (msg : Message) (hx : box d = some x)
    (hm : (C.mail d).length = m) (hroom : m < 8) (hlen : msg.data.length ≤ MAX_MESSAGE_SIZE) :
    Stored { h with
        bytes := storeBytes (storeBytes h.bytes (x + m * MESSAGE_SIZE)
          (wordBytes msg.sender ++ wordBytes msg.tag ++ wordBytes msg.size))
          (x + m * MESSAGE_SIZE + 12) msg.data }
      T H B box (C.setMail d (C.mail d ++ [msg])) := by
  have hhdr : (wordBytes msg.sender ++ wordBytes msg.tag ++ wordBytes msg.size).length = 12 := rfl
  simp only [MAX_MESSAGE_SIZE] at hlen
  refine hS.writeBox hx ?_ ?_ ?_
  · intro y hy
    simp only [MESSAGE_SIZE] at hy ⊢
    rw [storeBytes_of_outside _ (by omega), storeBytes_of_outside _ (by rw [hhdr]; omega)]
  · rw [List.length_append, hm]
    exact hroom
  · refine Mail.snoc ?_ hlen ?_
    · refine (hS.mail d x hx).move ?_
      intro i hi
      rw [hm] at hi
      rw [storeBytes_of_outside _ (by omega), storeBytes_of_outside _ (by omega)]
    · rw [hm, msg.bytes_length]
      exact load_message h.bytes _ _ msg.data hhdr

/-- **The first message** is taken out of a mailbox and the others move up. -/
theorem Stored.dropMessage {h : Heap} {T : Table Use} {H : ℕ → Option Filehandle}
    {B : ℕ → Option PipeBuffer} {msg : Message} {msgs : List Message} (hS : Stored h T H B box C)
    (hx : box d = some x) (hmail : C.mail d = msg :: msgs) :
    Stored { h with
        bytes := storeBytes h.bytes x (loadBytes h.bytes (x + MESSAGE_SIZE) (msgs.length * MESSAGE_SIZE)) }
      T H B box (C.setMail d msgs) := by
  have hroom := hS.room d x hx
  have hold := hS.mail d x hx
  rw [hmail] at hroom hold
  rw [List.length_cons] at hroom
  have hlen : (loadBytes h.bytes (x + MESSAGE_SIZE) (msgs.length * MESSAGE_SIZE)).length =
      msgs.length * MESSAGE_SIZE := loadBytes_length _ _ _
  refine hS.writeBox hx ?_ (by omega) ?_
  · intro y hy
    simp only [MESSAGE_SIZE] at hy hlen ⊢
    exact storeBytes_of_outside _ (by omega)
  · refine hold.2.2.move ?_
    intro i hi
    have hi' : i < (loadBytes h.bytes (x + MESSAGE_SIZE) (msgs.length * MESSAGE_SIZE)).length := by
      rw [hlen]
      exact hi
    rw [storeBytes, if_pos (Nat.le_add_right _ _), Nat.add_sub_cancel_left, List.getElem?_eq_getElem hi',
      Option.getD_some]
    simp only [loadBytes, List.getElem_map, List.getElem_range]

/-! ### `send` -/

/-- A message may be put into the mailbox of `d`: the mailbox has not been freed, and nobody sleeps in its
place. -/
structure Deliverable (stale : ℕ → Bool) (procs : ℕ → Proc) (d : ℕ) : Prop where
  exists_ : (procs d).exists_ = true
  fresh : stale d = false
  awake : (procs d).exited = true → (procs d).receiveBlocked = false

/-- The entry of the destination, with one message more. -/
def withMessage (v : Proc) (x m : ℕ) (ready : Bool) : Proc :=
  { v with
    mailbox := some x
    mailboxSize := m + 1
    mailboxAlloc := 8
    ready := ready
    receiveBlocked := false }

section

variable {procs : ℕ → Proc} {stale : ℕ → Bool} {mail : ℕ → List Message} {serving : Option ℕ} {ready : Bool}
  {m c : ℕ}

/-- A destination that sleeps in `receive` does not sleep any more, all others sleep on. -/
theorem parked_withMessage (h : Entries serving procs stale mail) (hd : Deliverable stale procs d)
    (hblocked : (procs d).receiveBlocked = true → ready = true)
    (hfree : (procs d).receiveBlocked = false → ready = (procs d).ready) :
    Parked (Function.update procs d (withMessage (procs d) x m ready)) c q ↔
      Parked procs c q ∧ ¬ (q = d ∧ c = SYSCALL_RECEIVE) := by
  by_cases hq : q = d
  · rw [hq]
    cases hb : (procs d).receiveBlocked with
    | true =>
      -- a blocked destination is alive and sleeps in `receive`
      have hpark : Parked procs SYSCALL_RECEIVE d := by
        refine (h.blocked d hd.exists_ ?_).mp hb
        rw [← Bool.not_eq_true]
        intro hexit
        rw [hd.awake hexit] at hb
        cases hb
      constructor
      · intro hpark'
        have hidle := hpark'.idle
        rw [Function.update_self, withMessage, hblocked hb] at hidle
        cases hidle
      · rintro ⟨hpark', hno⟩
        exact absurd ⟨rfl, hpark'.call.symm.trans hpark.call⟩ hno
    | false =>
      have hnot : ∀ {v : Prop}, Parked procs c d → c = SYSCALL_RECEIVE → v := by
        intro v hpark hno
        rw [hno] at hpark
        rw [(h.blocked d hpark.exists_ hpark.alive).mpr hpark] at hb
        cases hb
      constructor
      · intro hpark'
        have hpark : Parked procs c d := by
          have hidle := hpark'.idle
          rw [Function.update_self, withMessage, hfree hb] at hidle
          have hex := hpark'.exists_
          have hexit := hpark'.alive
          have hcall := hpark'.call
          rw [Function.update_self] at hex hexit hcall
          exact ⟨hex, hexit, hidle, hcall⟩
        exact ⟨hpark, fun hno => hnot hpark hno.2⟩
      · rintro ⟨hpark, -⟩
        refine ⟨?_, ?_, ?_, ?_⟩ <;> rw [Function.update_self]
        · exact hpark.exists_
        · exact hpark.alive
        · exact (hfree hb).trans hpark.idle
        · exact hpark.call
  · simp only [hq, false_and, not_false_eq_true, and_true]
    constructor
    · intro hpark
      refine ⟨?_, ?_, ?_, ?_⟩
      · rw [← hpark.exists_, Function.update_of_ne hq]
      · rw [← hpark.alive, Function.update_of_ne hq]
      · rw [← hpark.idle, Function.update_of_ne hq]
      · rw [← hpark.call, Function.update_of_ne hq]
    · intro hpark
      refine ⟨?_, ?_, ?_, ?_⟩ <;> rw [Function.update_of_ne hq]
      · exact hpark.exists_
      · exact hpark.alive
      · exact hpark.idle
      · exact hpark.call

theorem Entries.withMessage {msg : Message} (h : Entries serving procs stale mail)
    (hd : Deliverable stale procs d) (hm : (mail d).length = m)
    (hblocked : (procs d).receiveBlocked = true → ready = true)
    (hfree : (procs d).receiveBlocked = false → ready = (procs d).ready) :
    Entries serving (Function.update procs d (Kernel.withMessage (procs d) x m ready)) stale
      (Function.update mail d (mail d ++ [msg])) := by
  have hparked := fun q => parked_withMessage (x := x) (m := m) (c := SYSCALL_RECEIVE) (q := q) h hd
    hblocked hfree
  refine ⟨?_, ?_, ?_, ?_, ?_, ?_, ?_⟩
  · intro q
    by_cases hq : q = d
    · rw [hq]
      exact fun _ _ => hd.fresh
    · rw [Function.update_of_ne hq]
      exact h.fresh q
  · intro q
    by_cases hq : q = d
    · rw [hq, Function.update_self, Function.update_self, List.length_append, hm]
      exact fun _ _ => rfl
    · rw [Function.update_of_ne hq, Function.update_of_ne hq]
      exact h.size q
  · intro q
    by_cases hq : q = d
    · rw [hq, Function.update_self]
      exact fun _ _ hnone => by cases hnone
    · rw [Function.update_of_ne hq, Function.update_of_ne hq]
      exact h.empty q
  · intro q
    by_cases hq : q = d
    · rw [hq, Function.update_self]
      exact fun _ _ _ => rfl
    · rw [Function.update_of_ne hq]
      exact h.alloc q
  · intro q
    rw [hparked q]
    by_cases hq : q = d
    · rw [hq, Function.update_self]
      intro _ _
      simp [Kernel.withMessage]
    · rw [Function.update_of_ne hq]
      simp only [hq, not_false_eq_true, and_true]
      exact h.blocked q
  · intro q hpark
    obtain ⟨hpark, hne⟩ := (hparked q).mp hpark
    have hq : q ≠ d := fun he => hne ⟨he, rfl⟩
    rw [Function.update_of_ne hq]
    exact h.hungry q hpark
  · intro q
    by_cases hq : q = d
    · rw [hq, Function.update_self]
      intro hserve hex hexit hcall hwait
      cases hb : (procs d).receiveBlocked with
      | true =>
        have hpark := (h.blocked d hex hexit).mp hb
        have hcall' : (procs d).inSyscall = SYSCALL_WAITPID := hcall
        rw [hpark.call] at hcall'
        cases hcall'
      | false =>
        show ready = false
        rw [hfree hb]
        exact h.waiting d hserve hex hexit hcall hwait
    · rw [Function.update_of_ne hq]
      exact h.waiting q

end

theorem accept_some {v : Proc} {m : ℕ} (hbox : v.mailbox = some x) (hsize : v.mailboxSize = m)
    (halloc : v.mailboxAlloc = 8) :
    accept v x = { v with mailbox := some x, mailboxSize := m + 1, mailboxAlloc := 8 } := by
  rw [accept, hbox, hsize, halloc]

/-- The mailbox of the destination, old or new. -/
theorem Whole.mailboxOf (h : Whole n C o) (hd : Deliverable n.stale o.sched.procs d) :
    Does o (mailboxOf d) fun x o₁ => ∃ h₁ T, o₁ = { o with heap := h₁ } ∧
      Stored h₁ T o.handles o.pipes
        (Function.update (boxes o.sched.procs n.stale) d (some x)) C ∧
      accept (o.sched.procs d) x =
        { o.sched.procs d with
          mailbox := some x, mailboxSize := (C.mail d).length + 1, mailboxAlloc := 8 } := by
  obtain ⟨T, hS⟩ := h.tidy.stored
  have hsize := h.entries.size d hd.exists_ hd.fresh
  refine Acts.get fun k hk => ?_
  have hprocs : k.sched.procs = o.sched.procs := by
    rw [← hk]
    rfl
  rw [hprocs]
  cases hbox : (o.sched.procs d).mailbox with
  | some x =>
    apply Acts.pure
    have hown : boxes o.sched.procs n.stale d = some x := by
      rw [boxes, if_pos ⟨hd.exists_, hd.fresh⟩, hbox]
    refine ⟨o.heap, T, rfl, ?_, ?_⟩
    · rw [← hown, Function.update_eq_self]
      exact hS
    · have halloc := h.entries.alloc d hd.exists_ hd.fresh (by rw [hbox]; simp)
      exact accept_some hbox hsize halloc
  | none =>
    refine does_kmalloc hS.holds fun x h' hok => ?_
    obtain ⟨-, -, -, hS'⟩ := hS.alloc hok
    have hmail := h.entries.empty d hd.exists_ hd.fresh hbox
    have hS₁ := (hS' (.box d)).setBox (p := d) [] (Function.update_self _ _ _) (Nat.zero_le _) trivial
    have hC : C.setMail d [] = C := by
      rw [← hmail, Contents.setMail, Function.update_eq_self]
    rw [hC] at hS₁
    refine ⟨h', _, rfl, hS₁, ?_⟩
    rw [accept, hbox, hmail]
    rfl

theorem boxes_withMessage {procs : ℕ → Proc} {stale : ℕ → Bool} {m : ℕ} {ready : Bool}
    (hd : Deliverable stale procs d) :
    boxes (Function.update procs d (withMessage (procs d) x m ready)) stale =
      Function.update (boxes procs stale) d (some x) := by
  funext q
  by_cases hq : q = d
  · rw [hq, boxes, Function.update_self, Function.update_self]
    exact if_pos ⟨hd.exists_, hd.fresh⟩
  · rw [boxes, Function.update_of_ne hq, Function.update_of_ne hq, boxes]

/-- The scheduler when a message has been stored: the destination is woken up if it was blocked. -/
theorem Whole.notify (h : Whole n C o) (hd : Deliverable n.stale o.sched.procs d) {m : ℕ}
    (hv : accept (o.sched.procs d) x =
      { o.sched.procs d with mailbox := some x, mailboxSize := m + 1, mailboxAlloc := 8 }) :
    ∃ ready, ((o.sched.procs d).receiveBlocked = true → ready = true) ∧
      ((o.sched.procs d).receiveBlocked = false → ready = (o.sched.procs d).ready ∧
        (o.sched.set d (accept (o.sched.procs d) x)).procs =
          Function.update o.sched.procs d (withMessage (o.sched.procs d) x m ready) ∧
        Good (o.sched.set d (accept (o.sched.procs d) x))) ∧
      ((o.sched.procs d).receiveBlocked = true →
        ∃ S₁, resumeProcess (o.sched.set d (accept (o.sched.procs d) x)) d = .ok S₁ ∧
          (S₁.set d { S₁.procs d with receiveBlocked := false }).procs =
            Function.update o.sched.procs d (withMessage (o.sched.procs d) x m ready) ∧
          (S₁.set d { S₁.procs d with receiveBlocked := false }).current = o.sched.current ∧
          Good (S₁.set d { S₁.procs d with receiveBlocked := false })) := by
  have hsame := sameLife_accept (o.sched.procs d) x
  have hG : Good (o.sched.set d (accept (o.sched.procs d) x)) :=
    h.good.set ⟨hsame.exists_, hsame.ready, hsame.pid, hsame.parentPid⟩ hsame.exited
  cases hb : (o.sched.procs d).receiveBlocked with
  | false =>
    refine ⟨(o.sched.procs d).ready, ?_, ?_, ?_⟩
    · intro hb'
      cases hb'
    · intro _
      refine ⟨rfl, ?_, hG⟩
      rw [set_procs, hv, withMessage, ← hb]
    · intro hb'
      cases hb'
  | true =>
    have hpark : Parked o.sched.procs SYSCALL_RECEIVE d := by
      refine (h.entries.blocked d hd.exists_ ?_).mp hb
      rw [← Bool.not_eq_true]
      intro hexit
      rw [hd.awake hexit] at hb
      cases hb
    refine ⟨true, fun _ => rfl, ?_, ?_⟩
    · intro hb'
      cases hb'
    · intro _
      obtain ⟨S₁, hS₁⟩ : ∃ S₁, resumeProcess (o.sched.set d (accept (o.sched.procs d) x)) d = .ok S₁ := by
        apply resumeProcess_of
        · rw [set_procs, Function.update_self, hsame.exists_]
          exact hd.exists_
        · rw [set_procs, Function.update_self, hsame.ready]
          exact hpark.idle
      obtain ⟨hprocs, hcur⟩ := resumeProcess_procs hS₁
      refine ⟨S₁, hS₁, ?_, hcur, ?_⟩
      · rw [set_procs, hprocs, Function.update_idem, Function.update_self, set_procs, Function.update_idem,
          Function.update_self, hv]
        rfl
      · refine (hG.resume ?_ hS₁).set ⟨rfl, rfl, rfl, rfl⟩ rfl
        rw [Sched.Live, set_procs, Function.update_self, hsame.exists_, hsame.exited]
        exact ⟨hpark.exists_, hpark.alive⟩

theorem live_withMessage {m : ℕ} {ready : Bool}
    (hS : S'.procs = Function.update S.procs d (withMessage (S.procs d) x m ready)) (z : ℕ) :
    S'.Live z ↔ S.Live z := by
  rw [Sched.Live, Sched.Live, hS]
  by_cases hz : z = d
  · rw [hz, Function.update_self]
    exact Iff.rfl
  · rw [Function.update_of_ne hz]

/-- The end of `send`: the bytes of the message are stored, and the destination is woken up. -/
theorem Serving.delivered {size : ℕ} {bytes : List UInt8} {h₁ : Heap} {T : Table Use} (h : Serving n C p o)
    (hd : Deliverable n.stale o.sched.procs d) (hroom : (C.mail d).length < 8) (tag : ℕ)
    (hsize : size ≤ MAX_MESSAGE_SIZE) (hlen : bytes.length = size)
    (hS : Stored h₁ T o.handles o.pipes (Function.update (boxes o.sched.procs n.stale) d (some x)) C)
    (hv : accept (o.sched.procs d) x =
      { o.sched.procs d with
        mailbox := some x, mailboxSize := (C.mail d).length + 1, mailboxAlloc := 8 }) :
    Does { o with
        sched := o.sched.set d (accept (o.sched.procs d) x)
        heap := { h₁ with
          bytes := storeBytes h₁.bytes (x + (C.mail d).length * MESSAGE_SIZE)
            (wordBytes p ++ wordBytes tag ++ wordBytes size) } }
      (storeBlock x (8 * MESSAGE_SIZE) ((C.mail d).length * MESSAGE_SIZE + 12) bytes >>= fun _ =>
        if (o.sched.procs d).receiveBlocked then do
          schedDo fun S => resumeProcess S d
          schedDo fun S => .ok (S.set d { S.procs d with receiveBlocked := false })
          return 0
        else return 0)
      fun res o' => res = 0 ∧
        Done n (C.setMail d (C.mail d ++ [⟨p, tag, size, bytes⟩])) p o res o' ∧
        o'.pipes = o.pipes ∧ o'.handles = o.handles := by
  refine Acts.seq (does_storeBlock fun _ => ?_)
  simp only [← Nat.add_assoc]
  -- the heap is settled, the scheduler remains
  have hmsg := hS.addMessage ⟨p, tag, size, bytes⟩ (Function.update_self _ _ _) rfl hroom
    (by rw [hlen]; exact hsize)
  simp only at hmsg
  obtain ⟨ready, hblocked, hfree, hwoken⟩ := h.whole.notify hd hv
  have hdone : ∀ S', S'.procs = Function.update o.sched.procs d
        (withMessage (o.sched.procs d) x (C.mail d).length ready) → S'.current = o.sched.current → Good S' →
      Done n (C.setMail d (C.mail d ++ [⟨p, tag, size, bytes⟩])) p o 0
        { o with
          sched := S'
          heap := { h₁ with
            bytes := storeBytes (storeBytes h₁.bytes (x + (C.mail d).length * MESSAGE_SIZE)
              (wordBytes p ++ wordBytes tag ++ wordBytes size))
              (x + (C.mail d).length * MESSAGE_SIZE + 12) bytes } } := by
    intro S' hS' hcur hG
    have hfree' : (o.sched.procs d).receiveBlocked = false → ready = (o.sched.procs d).ready :=
      fun hb => (hfree hb).1
    have hlive := live_withMessage hS'
    refine ⟨?_, ?_, kept_of_handles rfl⟩
    · rw [h.whole.after_eq hlive]
      refine h.whole.update (T := T) hG hlive ?_ ?_ ?_
      · intro q
        rw [hS', parked_withMessage h.whole.entries hd hblocked hfree', and_iff_left]
        rintro ⟨-, hno⟩
        cases hno
      · rw [hS', boxes_withMessage hd]
        exact hmsg
      · rw [hS']
        exact h.whole.entries.withMessage hd rfl hblocked hfree'
    · rw [Settled, if_neg (by decide)]
      refine ⟨hcur.trans h.current, ?_⟩
      show (S'.procs p).ready = true
      rw [hS']
      by_cases hpd : p = d
      · rw [hpd, Function.update_self]
        show ready = true
        cases hb : (o.sched.procs d).receiveBlocked with
        | true => exact hblocked hb
        | false =>
          rw [hfree' hb, ← hpd]
          exact h.ready
      · rw [Function.update_of_ne hpd]
        exact h.ready
  refine Acts.ite (fun hb => ?_) fun hb => ?_
  · obtain ⟨S₁, hres, hprocs, hcur, hG⟩ := hwoken hb
    refine Acts.seq (does_schedDo hres ?_)
    refine Acts.seq (does_schedDo rfl (Acts.pure ?_))
    exact ⟨rfl, hdone _ hprocs hcur hG, rfl, rfl⟩
  · rw [Bool.not_eq_true] at hb
    obtain ⟨-, hprocs, hG⟩ := hfree hb
    exact Acts.pure ⟨rfl, hdone _ hprocs rfl hG, rfl, rfl⟩

/-- **Delivery.**  The message stands behind the others. -/
theorem Serving.deliver {size : ℕ} {k : State} (h : Serving n C p k.objects) (data : ℕ)
    (hd : Deliverable n.stale k.sched.procs d) (hroom : (C.mail d).length < 8) (tag : ℕ)
    (hsize : size ≤ MAX_MESSAGE_SIZE) :
    Acts id Benign k (deliver p d tag data size) fun res k' => res = 0 ∧
      Done n (C.setMail d (C.mail d ++ [⟨p, tag, size, userBytes k p data size⟩])) p k.objects res
        k'.objects ∧
      k'.pipes = k.pipes ∧ k'.handles = k.handles := by
  unfold Kernel.deliver
  refine Acts.bind ((h.whole.mailboxOf hd).whole.both (hidden_mailboxOf d k.outline)) ?_
  rintro x k₁ ⟨⟨h₁, T, ho₁, hS, hv⟩, hout₁⟩
  have hks₁ : k₁.sched = k.sched := congrArg Objects.sched ho₁
  have hset : Hidden (schedDo fun S => .ok (S.set d (accept (S.procs d) x))) :=
    hidden_set _ fun _ => standing_accept _ _
  have haccept : Does k₁.objects (schedDo fun S => .ok (S.set d (accept (S.procs d) x))) fun _ o' =>
      o' = { k.objects with sched := k.sched.set d (accept (k.sched.procs d) x), heap := h₁ } := by
    refine does_schedDo rfl ?_
    rw [ho₁]
    rfl
  refine Acts.bind (haccept.whole.both (hset k₁.outline)) ?_
  rintro _ k₂ ⟨ho₂, hout₂⟩
  have hks₂ : k₂.sched = k.sched.set d (accept (k.sched.procs d) x) := congrArg Objects.sched ho₂
  refine Acts.get fun k₃ hk₃ => ?_
  obtain rfl : k₃ = k₂ := hk₃
  have hproc : k₃.sched.procs d =
      { k.sched.procs d with
        mailbox := some x, mailboxSize := (C.mail d).length + 1, mailboxAlloc := 8 } := by
    rw [hks₂, set_procs, Function.update_self]
    exact hv
  have hpid : (k₃.sched.procs p).pid = p := by
    have hpid₀ : (k.sched.procs p).pid = p := h.whole.good.pid_eq h.live.1
    rw [hks₂, set_procs]
    by_cases hpd : p = d
    · rw [hpd, Function.update_self, (sameLife_accept _ _).pid, ← hpd, hpid₀]
    · rw [Function.update_of_ne hpd, hpid₀]
  simp only [hproc, hpid, Nat.add_sub_cancel]
  have hheader : Does k₃.objects (storeBlock x (8 * MESSAGE_SIZE) ((C.mail d).length * MESSAGE_SIZE)
      (wordBytes p ++ wordBytes tag ++ wordBytes size)) fun _ o' => o' = { k.objects with
        sched := k.sched.set d (accept (k.sched.procs d) x)
        heap := { h₁ with
          bytes := storeBytes h₁.bytes (x + (C.mail d).length * MESSAGE_SIZE)
            (wordBytes p ++ wordBytes tag ++ wordBytes size) } } := by
    refine does_storeBlock fun _ => ?_
    rw [ho₂]
  refine Acts.bind (hheader.whole.both (hidden_storeBlock _ _ _ _ k₃.outline)) ?_
  rintro _ k₄ ⟨ho₄, hout₄⟩
  have hout : k₄.outline = k.outline := hout₄.trans (hout₂.trans hout₁)
  -- the bytes of the message are those that the sender sees
  refine Acts.bind ((does_readUserBytes p data 0 k₄.objects).whole.both (acts_readUserBytes k₄ p data size 0)) ?_
  rintro bytes k₅ ⟨⟨ho₅, hlen⟩, hbytes, -⟩
  rw [userBytes_offset_zero, userBytes_congr hout] at hbytes
  have hrest := h.delivered hd hroom tag hsize hlen hS hv
  rw [show k.objects.sched = k.sched from rfl, ← ho₄, ← ho₅, hbytes] at hrest
  rw [hbytes]
  exact hrest.whole

/-- A `send` that passes all of its checks. -/
def Accepts (k : State) (p : ℕ) (dest : ℤ) (data size : ℕ) : Prop :=
  Accepted k.sched (validPointer (k.space p) data size) dest size

/-- **`send`**: refused without a trace, or delivered. -/
theorem Serving.syscallSend {k : State} (h : Serving n C p k.objects) (dest : ℤ) (tag data size : ℕ)
    (hd : Accepts k p dest data size → Deliverable n.stale k.sched.procs dest.toNat) :
    Acts id Benign k (syscallSend p dest tag data size) fun res k' =>
      (¬ Accepts k p dest data size ∧ k' = k ∧ res ∈ [-EFAULT, -ESRCH, -EINVAL, -ENOMEM]) ∨
        Accepts k p dest data size ∧ res = 0 ∧
          Done n (C.setMail dest.toNat (C.mail dest.toNat ++ [⟨p, tag, size, userBytes k p data size⟩])) p
            k.objects res k'.objects ∧
          k'.pipes = k.pipes ∧ k'.handles = k.handles := by
  constructor
  intro k₀ hk₀
  obtain rfl : k₀ = k := hk₀
  have hrun : Kernel.syscallSend p dest tag data size k₀ =
      (if validPointer (k₀.space p) data size then
        if 0 > dest ∨ (MAX_PROCESSES : ℤ) ≤ dest ∨ (k₀.sched.procs dest.toNat).exists_ = false then
          pure (-ESRCH)
        else if MAX_MESSAGE_SIZE < size then pure (-EINVAL)
        else if (k₀.sched.procs dest.toNat).mailbox ≠ none ∧
            (k₀.sched.procs dest.toNat).mailboxAlloc ≤ (k₀.sched.procs dest.toNat).mailboxSize then
          pure (-ENOMEM)
        else Kernel.deliver p dest.toNat tag data size
      else pure (-EFAULT) : K ℤ) k₀ := rfl
  rw [hrun]
  by_cases hvalid : validPointer (k₀.space p) data size = true
  · rw [if_pos hvalid]
    by_cases hsrch : 0 > dest ∨ (MAX_PROCESSES : ℤ) ≤ dest ∨ (k₀.sched.procs dest.toNat).exists_ = false
    · rw [if_pos hsrch]
      refine Or.inl ⟨?_, rfl, by simp⟩
      rintro ⟨-, h0, h1, hex, -⟩
      rw [hex] at hsrch
      simp only [Bool.true_eq_false, or_false] at hsrch
      omega
    rw [if_neg hsrch]
    by_cases hinval : MAX_MESSAGE_SIZE < size
    · rw [if_pos hinval]
      refine Or.inl ⟨?_, rfl, by simp⟩
      rintro ⟨-, -, -, -, hsize, -⟩
      omega
    rw [if_neg hinval]
    by_cases hnomem : (k₀.sched.procs dest.toNat).mailbox ≠ none ∧
        (k₀.sched.procs dest.toNat).mailboxAlloc ≤ (k₀.sched.procs dest.toNat).mailboxSize
    · rw [if_pos hnomem]
      refine Or.inl ⟨?_, rfl, by simp⟩
      rintro ⟨-, -, -, -, -, hnone | hlt⟩
      · exact hnomem.1 hnone
      · omega
    rw [if_neg hnomem]
    rw [not_or, not_or, Bool.not_eq_false] at hsrch
    have hacc : Accepts k₀ p dest data size := by
      refine ⟨hvalid, by omega, by omega, hsrch.2.2, by omega, ?_⟩
      by_cases hnone : (k₀.sched.procs dest.toNat).mailbox = none
      · exact Or.inl hnone
      · right
        by_contra hge
        exact hnomem ⟨hnone, by omega⟩
    have hdel := hd hacc
    have hroom : (C.mail dest.toNat).length < 8 := by
      have hsize := h.whole.entries.size dest.toNat hdel.exists_ hdel.fresh
      rcases hacc.2.2.2.2.2 with hnone | hlt
      · rw [h.whole.entries.empty dest.toNat hdel.exists_ hdel.fresh hnone]
        decide
      · by_cases hnone : (k₀.sched.procs dest.toNat).mailbox = none
        · rw [h.whole.entries.empty dest.toNat hdel.exists_ hdel.fresh hnone]
          decide
        · have halloc := h.whole.entries.alloc dest.toNat hdel.exists_ hdel.fresh hnone
          have halloc' : (k₀.sched.procs dest.toNat).mailboxAlloc = 8 := halloc
          have hsize' : (k₀.sched.procs dest.toNat).mailboxSize = (C.mail dest.toNat).length := hsize
          omega
    have hout := (h.deliver data hdel hroom tag hacc.2.2.2.2.1).run k₀ rfl
    cases hk : Kernel.deliver p dest.toNat tag data size k₀ with
    | ok res k' =>
      rw [hk] at hout
      exact Or.inr ⟨hacc, hout⟩
    | error e k' =>
      rw [hk] at hout
      exact hout
  · rw [if_neg hvalid]
    exact Or.inl ⟨fun hacc => hvalid hacc.1, rfl, by simp⟩

/-! ### `receive` -/

/-- **Taking** the first message. -/
theorem Serving.takeMessage {msg : ℕ} (h : Serving n C p o) (hbox : (o.sched.procs p).mailbox = some x)
    {m : Message} {msgs : List Message} (hmail : C.mail p = m :: msgs) :
    Does o (takeMessage p x (o.sched.procs p).mailboxSize msg) fun res o' => res = 0 ∧
      Done n (C.setMail p msgs) p o res o' ∧ o'.pipes = o.pipes ∧ o'.handles = o.handles := by
  obtain ⟨T, hS⟩ := h.whole.tidy.stored
  have hp := h.live
  have hstale := h.whole.fresh p hp
  have hsize := h.whole.entries.size p hp.1 hstale
  rw [hmail, List.length_cons] at hsize
  have hown : boxes o.sched.procs n.stale p = some x := by
    rw [boxes, if_pos ⟨hp.1, hstale⟩, hbox]
  have hS' := hS.dropMessage hown hmail
  rw [hsize]
  unfold Kernel.takeMessage
  refine Acts.get fun k _ => ?_
  refine (remote_writeUserBytes p msg _ 0).andThen fun _ => ?_
  refine Acts.get fun k hk => ?_
  have hheap : k.heap = o.heap := congrArg Objects.heap hk
  rw [hheap]
  simp only [Nat.add_sub_cancel]
  refine Acts.seq (does_storeBlock fun _ => ?_)
  rw [Nat.add_zero]
  refine Acts.seq (does_schedDo rfl (Acts.pure ?_))
  have hproc : ∀ q, ∃ size, ((o.sched.set p { o.sched.procs p with mailboxSize := msgs.length }).procs q) =
      { o.sched.procs q with mailboxSize := size } := by
    intro q
    by_cases hq : q = p
    · rw [set_procs, hq, Function.update_self]
      exact ⟨_, rfl⟩
    · rw [set_procs, Function.update_of_ne hq]
      exact ⟨_, rfl⟩
  generalize hS₁ : o.sched.set p { o.sched.procs p with mailboxSize := msgs.length } = S₁ at hproc
  have hG : Good S₁ := by
    rw [← hS₁]
    exact h.whole.good.set ⟨rfl, rfl, rfl, rfl⟩ rfl
  have hlive : ∀ z, S₁.Live z ↔ o.sched.Live z := by
    intro z
    obtain ⟨size, hz⟩ := hproc z
    rw [Sched.Live, Sched.Live, hz]
  have hparked : ∀ no q, Parked S₁.procs no q ↔ Parked o.sched.procs no q := by
    intro no q
    obtain ⟨size, hq⟩ := hproc q
    constructor
    · rintro ⟨h1, h2, h3, h4⟩
      rw [hq] at h1 h2 h3 h4
      exact ⟨h1, h2, h3, h4⟩
    · rintro ⟨h1, h2, h3, h4⟩
      refine ⟨?_, ?_, ?_, ?_⟩ <;> rw [hq] <;> assumption
  have hboxes : boxes S₁.procs n.stale = boxes o.sched.procs n.stale := by
    funext q
    obtain ⟨size, hq⟩ := hproc q
    rw [boxes, boxes, hq]
  refine ⟨rfl, ⟨?_, ?_, kept_of_handles rfl⟩, rfl, rfl⟩
  · rw [h.whole.after_eq hlive]
    refine Whole.update (o := o) (T := T) h.whole hG hlive (hparked _) (by rw [hboxes]; exact hS') ?_
    refine ⟨?_, ?_, ?_, ?_, ?_, ?_, ?_⟩
    · intro q
      obtain ⟨size, hq⟩ := hproc q
      rw [hq]
      exact h.whole.entries.fresh q
    · intro q hex hs
      by_cases hq : q = p
      · rw [hq, C.mail_setMail, ← hS₁, set_procs, Function.update_self]
      · rw [C.mail_setMail_of_ne _ hq, ← hS₁, set_procs, Function.update_of_ne hq]
        rw [← hS₁, set_procs, Function.update_of_ne hq] at hex
        exact h.whole.entries.size q hex hs
    · intro q hex hs hnone
      obtain ⟨size, hq⟩ := hproc q
      rw [hq] at hex hnone
      have hqp : q ≠ p := by
        intro he
        rw [he, hbox] at hnone
        cases hnone
      rw [C.mail_setMail_of_ne _ hqp]
      exact h.whole.entries.empty q hex hs hnone
    · intro q
      obtain ⟨size, hq⟩ := hproc q
      rw [hq]
      exact h.whole.entries.alloc q
    · intro q
      obtain ⟨size, hq⟩ := hproc q
      rw [hparked, hq]
      exact h.whole.entries.blocked q
    · intro q hpark
      rw [hparked] at hpark
      have hqp : q ≠ p := by
        intro he
        rw [he] at hpark
        exact h.not_parked _ hpark
      rw [C.mail_setMail_of_ne _ hqp]
      exact h.whole.entries.hungry q hpark
    · intro q
      obtain ⟨size, hq⟩ := hproc q
      rw [hq]
      exact h.whole.entries.waiting q
  · rw [Settled, if_neg (by decide)]
    refine ⟨by rw [← hS₁]; exact h.current, ?_⟩
    obtain ⟨size, hq⟩ := hproc p
    show (S₁.procs p).ready = true
    rw [hq]
    exact h.ready

/-- **`receive`**, by the way it ends. -/
theorem Serving.syscallReceive {block : Bool} (h : Serving n C p o)
    (hcall : (o.sched.procs p).inSyscall = SYSCALL_RECEIVE) (msg : ℕ) :
    Does o (syscallReceive p msg block) fun res o' =>
      (o' = o ∧ (res = -EFAULT ∨ res = -EAGAIN ∧ block = false ∧ C.mail p = [])) ∨
        (res = 0 ∧ ∃ m msgs, C.mail p = m :: msgs ∧ Done n (C.setMail p msgs) p o res o' ∧
          o'.pipes = o.pipes ∧ o'.handles = o.handles) ∨
        (res = -ESUSPEND ∧ block = true ∧ C.mail p = [] ∧ Quietly n C p o res o') := by
  have hp := h.live
  have hstale := h.whole.fresh p hp
  have hsize := h.whole.entries.size p hp.1 hstale
  refine Acts.get fun k hk => ?_
  have hprocs : k.sched.procs p = o.sched.procs p := by
    rw [← hk]
    rfl
  simp only [hprocs]
  refine Acts.ite (fun _ => ?_) fun _ => Acts.pure (Or.inl ⟨rfl, Or.inl rfl⟩)
  refine Acts.ite (fun hpos => ?_) fun hzero => ?_
  · cases hbox : (o.sched.procs p).mailbox with
    | none => exact does_throw benign_wildPointer
    | some x =>
      cases hmail : C.mail p with
      | nil =>
        rw [hsize, hmail] at hpos
        exact absurd hpos (lt_irrefl 0)
      | cons m msgs =>
        refine (h.takeMessage hbox hmail).mono ?_
        rintro res o' ⟨hres, hdone⟩
        exact Or.inr (Or.inl ⟨hres, m, msgs, rfl, hdone⟩)
  have hnil : C.mail p = [] := by
    rw [← List.length_eq_zero_iff, ← hsize]
    omega
  refine Acts.ite (fun hblock => ?_) fun hblock => ?_
  · have hset : ∀ v, (o.sched.set p v).procs = Function.update o.sched.procs p v := fun _ => rfl
    obtain ⟨S', hS'⟩ : ∃ S', suspendProcess
        (o.sched.set p { o.sched.procs p with receiveBlocked := true }) p = .ok S' := by
      apply suspendProcess_of
      · rw [hset, Function.update_self]
        exact hp.1
      · rw [hset, Function.update_self]
        exact h.ready
    obtain ⟨hprocs', -⟩ := suspendProcess_entry hS'
    rw [hset, Function.update_idem, Function.update_self] at hprocs'
    refine Acts.seq (does_schedDo hS' (Acts.pure ?_))
    have hasleep : Asleep o.sched.procs p
        { o.sched.procs p with receiveBlocked := true, ready := false } :=
      ⟨true, (o.sched.procs p).waitingOn, rfl, by simp [hcall]⟩
    have hG : Good S' := by
      have hG₁ : Good (o.sched.set p { o.sched.procs p with receiveBlocked := true }) :=
        h.whole.good.set ⟨rfl, rfl, rfl, rfl⟩ rfl
      refine hG₁.suspend ?_ hS'
      rw [Sched.Live, hset, Function.update_self]
      exact hp
    refine Or.inr (Or.inr ⟨rfl, hblock, hnil, ?_⟩)
    refine h.dozes hasleep hprocs' hG (fun _ => hnil) ?_
    rw [hcall]
    decide
  · rw [Bool.not_eq_true] at hblock
    exact Acts.pure (Or.inl ⟨rfl, Or.inr ⟨rfl, hblock, hnil⟩⟩)

end AdelaideOS.Kernel
