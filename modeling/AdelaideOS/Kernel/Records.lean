import AdelaideOS.Kernel.Zombies

/-!
# What a message record shows

`receive` copies a whole `message` structure to the caller, and `send` fills in as many data bytes as the message has.
The bytes behind a short message are what the kernel heap held there before.

* **`formed_of_run`** — the shape of what the books record;
* **`received_of_full`** — records of messages of the maximal size are determined by the messages;
* **`run_collected`** — a process that sends a message to itself, over a heap with given contents;
* **`records_iff`** — two runs with the same messages show the same records only for messages of maximal size;
* **`queue_of_run`** — messages arrive in the order in which they were sent.
-/

namespace AdelaideOS.Kernel

open AdelaideOS.Buddy AdelaideOS.Lib.Bytes AdelaideOS.Lib.Triple AdelaideOS.Lib.View AdelaideOS.Page AdelaideOS.Process

variable {m : Machine} {n n' : Notes} {B B' : Books} {k k' : State} {p q : ℕ}

/-! ### The shape of the books -/

/-- A message has as many data bytes as it says, and a record is a whole structure. -/
structure Formed (B : Books) : Prop where
  sent : ∀ q, ∀ msg ∈ B.sent q, msg.data.length = msg.size
  received : ∀ q, ∀ record ∈ B.received q, record.length = MESSAGE_SIZE

/-- The same for one transfer. -/
def Transfer.Formed : Transfer → Prop
  | .post _ msg => msg.data.length = msg.size
  | .collect _ record => record.length = MESSAGE_SIZE
  | _ => True

theorem transferOf_formed (p no : ℕ) (args : List ℕ) (k : State) (res : ℤ) (k' : State) :
    (transferOf p no args k res k').Formed := by
  unfold transferOf
  simp only
  split
  · split
    · split <;> trivial
    · trivial
  · split
    · split
      · split <;> trivial
      · trivial
    · split
      · split
        · exact userBytes_length k p _ _
        · trivial
      · split
        · split
          · exact userBytes_length k' p _ _
          · trivial
        · trivial

theorem Formed.record {t : Transfer} (h : Formed B) (ht : t.Formed) : Formed (B.record t) := by
  cases t with
  | nothing => exact h
  | put b bytes => exact ⟨h.sent, h.received⟩
  | take b bytes => exact ⟨h.sent, h.received⟩
  | post d msg =>
    refine ⟨?_, h.received⟩
    intro q x hx
    by_cases hq : q = d
    · rw [hq] at hx
      simp only [Books.record, Function.update_self, List.mem_append, List.mem_singleton] at hx
      rcases hx with hx | rfl
      · exact h.sent d x hx
      · exact ht
    · simp only [Books.record, Function.update_of_ne hq] at hx
      exact h.sent q x hx
  | collect d record =>
    refine ⟨h.sent, ?_⟩
    intro q x hx
    by_cases hq : q = d
    · rw [hq] at hx
      simp only [Books.record, Function.update_self, List.mem_append, List.mem_singleton] at hx
      rcases hx with hx | rfl
      · exact h.received d x hx
      · exact ht
    · simp only [Books.record, Function.update_of_ne hq] at hx
      exact h.received q x hx

theorem Formed.renew (h : Formed B) (k k' : State) : Formed (B.renew k k') := by
  constructor
  · intro q x hx
    simp only [Books.renew] at hx
    split_ifs at hx
    · cases hx
    · exact h.sent q x hx
  · intro q x hx
    simp only [Books.renew] at hx
    split_ifs at hx
    · cases hx
    · exact h.received q x hx

theorem formed_of_run {P : Notes → State → Input → Prop} (h : Run m P n B k) : Formed B := by
  induction h with
  | boot mem bytes blocks =>
    constructor
    · intro q x hx
      cases hx
    · intro q x hx
      cases hx
  | step i hrun hi hok ih =>
    apply Formed.renew
    apply ih.record
    unfold Input.transfer
    split
    · split
      · exact transferOf_formed _ _ _ _ _ _
      · trivial
    · split <;> trivial
    · trivial

/-! ### Messages of maximal size -/

/-- The messages that process `q` has received. -/
def Books.delivered (B : Books) (q : ℕ) : List Message := (B.sent q).take (B.received q).length

theorem records_of_full {got : List Message} {records : List (List UInt8)}
    (h : List.Forall₂ (fun msg record => msg.bytes <+: record) got records)
    (hdata : ∀ msg ∈ got, msg.data.length = msg.size) (hrec : ∀ record ∈ records, record.length = MESSAGE_SIZE)
    (hfull : ∀ msg ∈ got, MAX_MESSAGE_SIZE ≤ msg.size) : records = got.map Message.bytes := by
  induction h with
  | nil => rfl
  | @cons msg record got records hpre hrest ih =>
    have htail := ih (fun x hx => hdata x (List.mem_cons_of_mem _ hx)) (fun x hx => hrec x (List.mem_cons_of_mem _ hx))
      fun x hx => hfull x (List.mem_cons_of_mem _ hx)
    -- a prefix as long as the whole
    have hhead : msg.bytes = record := by
      apply hpre.eq_of_length
      have hlen := hrec record List.mem_cons_self
      have hd := hdata msg List.mem_cons_self
      have hsize := hfull msg List.mem_cons_self
      have hle := hpre.length_le
      rw [Message.bytes_length] at hle ⊢
      simp only [MAX_MESSAGE_SIZE] at hsize
      rw [hlen] at hle ⊢
      simp only [MESSAGE_SIZE] at hle ⊢
      omega
    rw [List.map_cons, hhead, ← htail]

/-- **The records of full messages** are the messages. -/
theorem received_of_full (h : Run m (fun n k i => i.Fair n k ∧ i.Modest) n B k) (hq : k.sched.Live q)
    (hfull : ∀ msg ∈ B.delivered q, MAX_MESSAGE_SIZE ≤ msg.size) :
    B.received q = (B.delivered q).map Message.bytes := by
  have hform := formed_of_run h
  obtain ⟨-, -, C, -, hbooks⟩ := h.standing fun _ _ _ hP => hP.1
  obtain ⟨got, hgot, hsent⟩ := (hbooks fun _ _ _ hP => hP.2).2.mail q hq.1
  have hdel : B.delivered q = got := by
    unfold Books.delivered
    rw [← hsent, ← hgot.length_eq, List.take_left]
  rw [hdel] at hfull ⊢
  apply records_of_full hgot _ (hform.received q) hfull
  intro msg hmsg
  apply hform.sent q
  rw [← hsent]
  exact List.mem_append_left _ hmsg

/-! ### A process that writes to itself -/

/-- The last byte of the first slot of a mailbox that is allocated after the requests of `start_process`. -/
def mailboxByte (h : Heap) : Except Fault UInt8 := do
  let (_, h) ← buddyAlloc .kernel h 24
  let (_, h) ← buddyAlloc .kernel h BUFSIZE
  let (_, h) ← buddyAlloc .kernel h 36
  let (_, h) ← buddyAlloc .kernel h 36
  let (_, h) ← buddyAlloc .kernel h 36
  let (box, h) ← buddyAlloc .kernel h (8 * MESSAGE_SIZE)
  return h.bytes (box + (MESSAGE_SIZE - 1))

theorem mailboxByte_ok {h : Heap} {c : UInt8} (hok : mailboxByte h = .ok c) :
    Roomy h ∧ ∀ h', Serves h h' → ∃ box h'', buddyAlloc .kernel h' (8 * MESSAGE_SIZE) = .ok (box, h'') ∧
      h''.bytes (box + (MESSAGE_SIZE - 1)) = c := by
  obtain ⟨⟨a₁, h₁⟩, e₁, hok⟩ := bind_eq_ok.mp hok
  obtain ⟨⟨a₂, h₂⟩, e₂, hok⟩ := bind_eq_ok.mp hok
  obtain ⟨⟨a₃, h₃⟩, e₃, hok⟩ := bind_eq_ok.mp hok
  obtain ⟨⟨a₄, h₄⟩, e₄, hok⟩ := bind_eq_ok.mp hok
  obtain ⟨⟨a₅, h₅⟩, e₅, hok⟩ := bind_eq_ok.mp hok
  obtain ⟨⟨box, h₆⟩, e₆, hok⟩ := bind_eq_ok.mp hok
  refine ⟨⟨a₁, h₁, a₂, h₂, a₃, h₃, a₄, h₄, a₅, h₅, e₁, e₂, e₃, e₄, e₅⟩, ?_⟩
  rintro h' ⟨b₁, g₁, b₂, g₂, b₃, g₃, b₄, g₄, b₅, f₁, f₂, f₃, f₄, f₅⟩
  obtain ⟨rfl, rfl⟩ := Prod.mk.inj (Except.ok.inj (e₁.symm.trans f₁))
  obtain ⟨rfl, rfl⟩ := Prod.mk.inj (Except.ok.inj (e₂.symm.trans f₂))
  obtain ⟨rfl, rfl⟩ := Prod.mk.inj (Except.ok.inj (e₃.symm.trans f₃))
  obtain ⟨rfl, rfl⟩ := Prod.mk.inj (Except.ok.inj (e₄.symm.trans f₄))
  obtain ⟨rfl, rfl⟩ := Prod.mk.inj (Except.ok.inj (e₅.symm.trans f₅))
  exact ⟨box, h₆, e₆, Except.ok.inj hok⟩

set_option maxRecDepth 10000 in
theorem mailboxByte_zero : mailboxByte (heapOver fun _ => 0) = .ok 0 := by decide +kernel

set_option maxRecDepth 10000 in
theorem mailboxByte_one : mailboxByte (heapOver fun _ => 1) = .ok 1 := by decide +kernel

/-- The books after a call. -/
theorem next_call (n : Notes) (B : Books) (k' : State) {r r' : Regs} {args : List ℕ} {res : ℤ} {k₂ : State}
    (hcur : k.sched.current = some p) (hq : (k.sched.procs q).exists_ = true)
    (hdis : dispatch m p r r.eax args { k with sched := enter k.sched p r.eax } = .ok (res, r') k₂) :
    (B.next m n (.event (.call r args)) k k').sent q = (B.record (transferOf p r.eax args k res k')).sent q ∧
      (B.next m n (.event (.call r args)) k k').received q =
        (B.record (transferOf p r.eax args k res k')).received q := by
  have hold : ¬ ((k.sched.procs q).exists_ = false ∧ (k'.sched.procs q).exists_ = true) := by
    rintro ⟨hfalse, -⟩
    rw [hq] at hfalse
    cases hfalse
  unfold Books.next
  rw [transfer_call n k' hcur hdis]
  exact ⟨if_neg hold, if_neg hold⟩

/-- The process and its own mailbox at `box`, with one message. -/
def selfPosted (box : ℕ) : Sched :=
  leave ((enter oneProcess 1 SYSCALL_SEND).set 1 (accept ((enter oneProcess 1 SYSCALL_SEND).procs 1) box)) 1
    SYSCALL_SEND sendRegs 0

/-- The registers of a call of `receive`. -/
def receiveRegs : Regs := { Regs.zero with eax := SYSCALL_RECEIVE }

/-- A buffer at the low end of the stack. -/
theorem Mapped.lowStack (h : Mapped m k) (hp : k.sched.Live p) {size : ℕ} (hsize : size ≤ MESSAGE_SIZE) :
    (k.space p).Region STACK_LOW size ∧ validPointer (k.space p) STACK_LOW size = true := by
  obtain ⟨forked, asp, hsafe⟩ := h
  obtain ⟨t, d, hshape⟩ := hsafe.shaped p hp
  have hregion : (k.space p).Region STACK_LOW size := by
    intro i hi
    right; right
    have hstart : (k.space p).stackStart = STACK_LOW := hshape.stackStart
    have hstop : (k.space p).stackEnd = PROCESS_STACK_BASE := hshape.stackEnd
    have hlt : STACK_LOW + i < PROCESS_STACK_BASE := by
      simp only [MESSAGE_SIZE, STACK_LOW, PROCESS_STACK_BASE, PROCESS_STACK_SIZE] at hsize ⊢
      omega
    have hoff : offset STACK_LOW i = STACK_LOW + i := Nat.mod_eq_of_lt (hlt.trans (by decide))
    rw [hstart, hstop, hoff]
    exact ⟨Nat.le_add_right _ _, hlt⟩
  refine ⟨hregion, ((hsafe.sound hp).validPointer_iff (by decide) ?_).mpr hregion⟩
  simp only [MESSAGE_SIZE, wordSize] at *
  omega

/-- **The only message**: the record is the whole first slot of the mailbox. -/
theorem syscallReceive_first {a : ℕ} (box : ℕ) (hmap : Mapped m k) (hp : k.sched.Live p)
    (hcount : (k.sched.procs p).mailboxSize = 1) (hbox : (k.sched.procs p).mailbox = some box)
    (hregion : (k.space p).Region a MESSAGE_SIZE) (hvalid : validPointer (k.space p) a MESSAGE_SIZE = true) :
    ∃ Q log bytes, syscallReceive p a false { k with sched := enter k.sched p SYSCALL_RECEIVE } = .ok 0 { k with
      sched := (enter k.sched p SYSCALL_RECEIVE).set p { (enter k.sched p SYSCALL_RECEIVE).procs p with mailboxSize := 1 - 1 }
      pages := Q
      heap := { k.heap with bytes := bytes }
      log := log } ∧ userBytes { k with pages := Q } p a MESSAGE_SIZE = loadBytes k.heap.bytes box MESSAGE_SIZE := by
  let k₁ : State := { k with sched := enter k.sched p SYSCALL_RECEIVE }
  have hproc : k₁.sched.procs p = { k.sched.procs p with inSyscall := SYSCALL_RECEIVE } :=
    (enter_proc _ _ _ _).trans (by rw [if_pos rfl])
  have hcount₁ : (k₁.sched.procs p).mailboxSize = 1 := by
    rw [hproc]
    exact hcount
  have hbox₁ : (k₁.sched.procs p).mailbox = some box := by
    rw [hproc]
    exact hbox
  have hlive₁ : k₁.sched.Live p := (live_enter k.sched p SYSCALL_RECEIVE p).mpr hp
  have hmap₁ : Mapped m k₁ := by
    obtain ⟨forked, asp, hsafe⟩ := id hmap
    exact hmap.sched (hsafe.good.enter p SYSCALL_RECEIVE) (live_enter k.sched p SYSCALL_RECEIVE)
  have hlen : (loadBytes k.heap.bytes box MESSAGE_SIZE).length = MESSAGE_SIZE := loadBytes_length _ _ _
  obtain ⟨Q, log, hwrite⟩ := writeUserBytes_ok a (loadBytes k.heap.bytes box MESSAGE_SIZE) 0 hmap₁ hlive₁ (by
      intro j hj
      rw [Nat.zero_add]
      exact hregion j (hlen ▸ hj))
  let k₂ : State := { k₁ with pages := Q, log := log }
  have hsees : userBytes k₂ p a MESSAGE_SIZE = loadBytes k.heap.bytes box MESSAGE_SIZE := by
    have := hmap₁.seesBytes hlive₁ (by rw [hlen]; decide) hwrite
    rwa [hlen] at this
  let rest := loadBytes k.heap.bytes (box + MESSAGE_SIZE) ((1 - 1) * MESSAGE_SIZE)
  have hstore : storeBlock box (1 * MESSAGE_SIZE) 0 rest k₂ = _ :=
    storeBlock_fits (by
      rw [loadBytes_length, Nat.sub_self, Nat.zero_mul]
      exact Nat.zero_le _)
  refine ⟨Q, log, storeBytes k.heap.bytes (box + 0) rest, ?_, hsees⟩
  unfold syscallReceive
  rw [run_get, if_pos hvalid, if_pos (by rw [hcount₁]; decide), hbox₁, hcount₁]
  show takeMessage p box 1 a k₁ = _
  unfold takeMessage
  rw [run_get, run_bind hwrite, run_get, run_bind hstore]
  rfl

/-- **A message to itself.** -/
theorem Run.post {box a size : ℕ} {heap : Heap} (h : Run m (fun n k i => i.Fair n k ∧ i.Modest) n B k)
    (hmap : Mapped m k) (hs : k.sched = oneProcess)
    (halloc : buddyAlloc .kernel k.heap (8 * MESSAGE_SIZE) = .ok (box, heap)) (hregion : (k.space 1).Region a size)
    (hvalid : validPointer (k.space 1) a size = true) (hsize : size ≤ MAX_MESSAGE_SIZE) :
    ∃ n' B' k', Run m (fun n k i => i.Fair n k ∧ i.Modest) n' B' k' ∧ Mapped m k' ∧ k'.sched = selfPosted box ∧
      B'.sent 1 = B.sent 1 ++ [⟨1, 0, size, userBytes k 1 a size⟩] ∧ B'.received 1 = B.received 1 ∧
      ∀ x, box + 12 + size ≤ x → k'.heap.bytes x = heap.bytes x := by
  obtain ⟨-, -, C, hwhole, -⟩ := h.standing fun _ _ _ hP => hP.1
  have hcur : k.sched.current = some 1 := by
    rw [hs]
    rfl
  have hlive : k.sched.Live 1 := by
    rw [hs]
    exact ⟨rfl, rfl⟩
  obtain ⟨log, bytes, hsend, hrest⟩ := syscallSend_first 1 0 a size hmap hlive hlive (by decide) (by rw [hs]; rfl)
    (by rw [hs]; rfl) halloc hregion hvalid hsize
  have hdis : dispatch m 1 sendRegs sendRegs.eax [1, 0, a, size] { k with sched := enter k.sched 1 SYSCALL_SEND } =
      .ok (0, sendRegs) _ := run_bind hsend
  have h' := h.call hcur (hwhole.fair_send hlive rfl) hdis
  obtain ⟨-, -, C', hwhole', hbooks'⟩ := h'.standing fun _ _ _ hP => hP.1
  obtain ⟨hmap', -⟩ := hbooks' fun _ _ _ hP => hP.2
  obtain ⟨hsent, hreceived⟩ := next_call n B _ hcur hlive.1 hdis
  refine ⟨_, _, _, h', hmap', ?_, hsent, hreceived, hrest⟩
  show leave ((enter k.sched 1 SYSCALL_SEND).set 1 (accept ((enter k.sched 1 SYSCALL_SEND).procs 1) box)) 1 SYSCALL_SEND
    sendRegs 0 = _
  rw [hs]
  rfl

/-- A call of `receive` is fair. -/
theorem fair_receive (n : Notes) (k : State) (args : List ℕ) :
    (Input.event (.call receiveRegs args)).Fair n k ∧ (Input.event (.call receiveRegs args)).Modest :=
  ⟨fun _ _ => ⟨fun hno => absurd hno (by decide), fun hno => absurd hno (by decide)⟩, fun hno => absurd hno (by decide)⟩

/-- **The message is received.** -/
theorem Run.collect {box a : ℕ} (h : Run m (fun n k i => i.Fair n k ∧ i.Modest) n B k) (hmap : Mapped m k)
    (hs : k.sched = selfPosted box) (hregion : (k.space 1).Region a MESSAGE_SIZE)
    (hvalid : validPointer (k.space 1) a MESSAGE_SIZE = true) :
    ∃ n' B' k', Run m (fun n k i => i.Fair n k ∧ i.Modest) n' B' k' ∧ k'.sched.Live 1 ∧
      B'.sent 1 = B.sent 1 ∧ B'.received 1 = B.received 1 ++ [loadBytes k.heap.bytes box MESSAGE_SIZE] := by
  have hcur : k.sched.current = some 1 := by
    rw [hs]
    rfl
  have hlive : k.sched.Live 1 := by
    rw [hs]
    exact ⟨rfl, rfl⟩
  obtain ⟨Q, log, bytes, hreceive, hsees⟩ := syscallReceive_first box hmap hlive (by rw [hs]; rfl)
    (by rw [hs]; rfl) hregion hvalid
  have hdis : dispatch m 1 receiveRegs receiveRegs.eax [a, 0] { k with sched := enter k.sched 1 SYSCALL_RECEIVE } =
      .ok (0, receiveRegs) _ := run_bind hreceive
  obtain ⟨hsent, hreceived⟩ := next_call n B _ hcur hlive.1 hdis
  refine ⟨_, _, _, h.call hcur (fair_receive n k _) hdis, ?_, hsent, ?_⟩
  · show (leave ((enter k.sched 1 SYSCALL_RECEIVE).set 1
      { (enter k.sched 1 SYSCALL_RECEIVE).procs 1 with mailboxSize := 1 - 1 }) 1 SYSCALL_RECEIVE receiveRegs 0).Live 1
    rw [hs]
    exact ⟨rfl, rfl⟩
  · exact hreceived.trans (congrArg (fun record => B.received 1 ++ [record]) hsees)

/-- **One short message**, over a heap whose memory shows `c` behind it. -/
theorem run_collected (m : Machine) {c : UInt8} {bytes : Memory} (hc : mailboxByte (heapOver bytes) = .ok c) {size : ℕ}
    (hsize : size < MAX_MESSAGE_SIZE) :
    ∃ k₀ pdir, startPages m (Pages.boot fun _ => 0) = .ok (pdir, k₀.pages) ∧ k₀.space 1 = initialSpace pdir ∧
      ∃ n B k, Run m (fun n k i => i.Fair n k ∧ i.Modest) n B k ∧ k.sched.Live 1 ∧
        B.sent 1 = [⟨1, 0, size, userBytes k₀ 1 STACK_LOW size⟩] ∧
        ∃ record, B.received 1 = [record] ∧ record[MESSAGE_SIZE - 1]? = some c := by
  obtain ⟨hroom, hlast⟩ := mailboxByte_ok hc
  obtain ⟨n, B, k, ⟨h, hmap, hs, -, -, hserves, -⟩, hsent, hreceived, -, pdir, hpages, hspace⟩ := run_started m
    (P := fun n k i => i.Fair n k ∧ i.Modest) hroom (fun _ _ => ⟨trivial, trivial⟩) fun _ _ => ⟨trivial, trivial⟩
  obtain ⟨box, heap, halloc, hbyte⟩ := hlast k.heap hserves
  have hlive : k.sched.Live 1 := by
    rw [hs]
    exact ⟨rfl, rfl⟩
  have hsmall : size ≤ MESSAGE_SIZE := hsize.le.trans (by decide)
  obtain ⟨hregion, hvalid⟩ := hmap.lowStack hlive hsmall
  obtain ⟨n₁, B₁, k₁, h₁, hmap₁, hs₁, hsent₁, hreceived₁, hrest⟩ := h.post hmap hs halloc hregion hvalid hsize.le
  have hlive₁ : k₁.sched.Live 1 := by
    rw [hs₁]
    exact ⟨rfl, rfl⟩
  obtain ⟨hregion₁, hvalid₁⟩ := hmap₁.lowStack hlive₁ (Nat.le_refl MESSAGE_SIZE)
  obtain ⟨n₂, B₂, k₂, h₂, hlive₂, hsent₂, hreceived₂⟩ := h₁.collect hmap₁ hs₁ hregion₁ hvalid₁
  refine ⟨k, pdir, hpages, hspace, n₂, B₂, k₂, h₂, hlive₂, ?_, loadBytes k₁.heap.bytes box MESSAGE_SIZE, ?_, ?_⟩
  · rw [hsent₂, hsent₁, hsent, List.nil_append]
  · rw [hreceived₂, hreceived₁, hreceived, List.nil_append]
  · -- the last byte of the slot is not part of the message
    have hkept : k₁.heap.bytes (box + (MESSAGE_SIZE - 1)) = c := by
      rw [← hbyte]
      apply hrest
      simp only [MAX_MESSAGE_SIZE, MESSAGE_SIZE] at hsize ⊢
      omega
    unfold loadBytes
    rw [List.getElem?_map, List.getElem?_range (by decide), Option.map_some, hkept]

/-- Two runs that deliver the same short message and show different records. -/
theorem records_differ (m : Machine) {size : ℕ} (hsize : size < MAX_MESSAGE_SIZE) :
    ∃ n B k n' B' k', Run m (fun n k i => i.Fair n k ∧ i.Modest) n B k ∧
      Run m (fun n k i => i.Fair n k ∧ i.Modest) n' B' k' ∧ k.sched.Live 1 ∧ k'.sched.Live 1 ∧
      B.delivered 1 = B'.delivered 1 ∧ (∀ msg ∈ B.delivered 1, msg.size = size) ∧ B.received 1 ≠ B'.received 1 := by
  obtain ⟨k₀, pdir, hpages, hspace, n, B, k, h, hlive, hsent, record, hrec, hlast⟩ := run_collected m mailboxByte_zero hsize
  obtain ⟨k₀', pdir', hpages', hspace', n', B', k', h', hlive', hsent', record', hrec', hlast'⟩ :=
    run_collected m mailboxByte_one hsize
  obtain ⟨hdir, hP⟩ := Prod.mk.inj (Except.ok.inj (hpages.symm.trans hpages'))
  have hdata : userBytes k₀ 1 STACK_LOW size = userBytes k₀' 1 STACK_LOW size := by
    unfold userBytes userByte physical
    rw [hP, hspace, hspace', hdir]
  have hdel : B.delivered 1 = [⟨1, 0, size, userBytes k₀ 1 STACK_LOW size⟩] := by
    unfold Books.delivered
    rw [hsent, hrec]
    rfl
  have hdel' : B'.delivered 1 = [⟨1, 0, size, userBytes k₀ 1 STACK_LOW size⟩] := by
    unfold Books.delivered
    rw [hsent', hrec', hdata]
    rfl
  refine ⟨n, B, k, n', B', k', h, h', hlive, hlive', hdel.trans hdel'.symm, ?_, ?_⟩
  · intro msg hmsg
    rw [hdel, List.mem_singleton] at hmsg
    rw [hmsg]
  · intro heq
    rw [hrec, hrec'] at heq
    obtain rfl := (List.cons.inj heq).1
    rw [hlast] at hlast'
    exact absurd (Option.some.inj hlast') (by decide)

/-! ### Two runs -/

/-- **Same messages, same records** — this is what a lower bound on the sizes of the messages gives if it is the
maximal size, and only then. -/
theorem records_iff (m : Machine) (size : ℕ) :
    (∀ n B k n' B' k' q, Run m (fun n k i => i.Fair n k ∧ i.Modest) n B k →
      Run m (fun n k i => i.Fair n k ∧ i.Modest) n' B' k' → k.sched.Live q → k'.sched.Live q →
      B.delivered q = B'.delivered q → (∀ msg ∈ B.delivered q, size ≤ msg.size) → B.received q = B'.received q) ↔
      MAX_MESSAGE_SIZE ≤ size := by
  constructor
  · intro hall
    by_contra hlt
    obtain ⟨n, B, k, n', B', k', h, h', hlive, hlive', hdel, hsize, hne⟩ := records_differ m (Nat.lt_of_not_le hlt)
    exact hne (hall n B k n' B' k' 1 h h' hlive hlive' hdel fun msg hmsg => (hsize msg hmsg).ge)
  · intro hmax n B k n' B' k' q h h' hlive hlive' hdel hsize
    rw [received_of_full h hlive fun msg hmsg => hmax.trans (hsize msg hmsg),
      received_of_full h' hlive' fun msg hmsg => hmax.trans (hsize msg (hdel ▸ hmsg)), hdel]

/-- An empty message shows what was in the kernel heap. -/
theorem records_differ_empty :
    ∃ n B k n' B' k', Run Machine.bare (fun n k i => i.Fair n k ∧ i.Modest) n B k ∧
      Run Machine.bare (fun n k i => i.Fair n k ∧ i.Modest) n' B' k' ∧ k.sched.Live 1 ∧ k'.sched.Live 1 ∧
      B.delivered 1 = B'.delivered 1 ∧ (∀ msg ∈ B.delivered 1, msg.size = 0) ∧ B.received 1 ≠ B'.received 1 :=
  records_differ Machine.bare (by decide)

/-! ### Queues -/

/-- **Mailboxes are bounded queues**, in every run: what is received is a prefix of what is sent, at most eight
messages wait, a send fails exactly when eight wait, a call that fails changes nothing, and a process that is
suspended in `receive` waits for the next message and is made ready by it. -/
theorem queue_of_run (h : Run m (fun n k i => i.Fair n k ∧ i.Modest) n B k) :
    (∀ q, k.sched.Live q → ∃ got waiting, Queue B k q got waiting ∧
      ∀ p, k.sched.current = some p → ∀ tag data size,
        Posts { k with sched := enter k.sched p SYSCALL_SEND } p q tag data size waiting) ∧
    (∀ p dest tag data size res k₁ k', syscallSend p dest tag data size k₁ = .ok res k' → res < 0 →
      k' = k₁ ∧ res ∈ [-EFAULT, -ESRCH, -EINVAL, -ENOMEM]) ∧
    ∀ p msg res k₁ k', syscallReceive p msg false k₁ = .ok res k' → res < 0 →
      k' = k₁ ∧ res ∈ [-EFAULT, -EAGAIN] := by
  obtain ⟨hserve, hsteady, C, hwhole, hbooks⟩ := h.standing fun _ _ _ hP => hP.1
  obtain ⟨-, hbal⟩ := hbooks fun _ _ _ hP => hP.2
  obtain ⟨R, U, hinv⟩ := hwhole.good
  refine ⟨?_, ?_, ?_⟩
  · intro q hq
    have hfresh := hwhole.fresh q hq
    obtain ⟨got, hgot, hsent⟩ := hbal.mail q hq.1
    have hent := hwhole.entries
    refine ⟨got, C.mail q, ⟨hgot, hsent, hent.size q hq.1 hfresh, ?_, hent.alloc q hq.1 hfresh,
      (hent.blocked q hq.1 hq.2).symm, hent.hungry q⟩, ?_⟩
    · cases hbox : (k.sched.procs q).mailbox with
      | none =>
        rw [hent.empty q hq.1 hfresh hbox]
        decide
      | some x =>
        obtain ⟨T, hS⟩ := hwhole.tidy.stored
        apply hS.room q x
        rw [boxes, if_pos ⟨hq.1, hfresh⟩]
        exact hbox
    · intro p hp tag data size
      exact Serving.send_queue (k := { k with sched := enter k.sched p SYSCALL_SEND })
        (hwhole.enter hserve hp hsteady SYSCALL_SEND []) ((live_enter _ _ _ q).mpr hq)
        (hinv.range q hq.1).2 tag data size
  · intro p dest tag data size res k₁ k' hok hres
    exact syscallSend_refused hok hres
  · intro p msg res k₁ k' hok hres
    exact syscallReceive_refused hok hres

/-- **One message**: the first process sends it to itself, and then it receives it. -/
theorem queue_of_message : ∃ n B k n' B' k' msg, Run Machine.bare (fun n k i => i.Fair n k ∧ i.Modest) n B k ∧
    Run Machine.bare (fun n k i => i.Fair n k ∧ i.Modest) n' B' k' ∧ B.sent 1 = [msg] ∧ B'.sent 1 = [msg] ∧
    Queue B k 1 [] [msg] ∧ Queue B' k' 1 [msg] [] := by
  obtain ⟨n, B, k, ⟨h, hmap, hs, -, -, hserves, -⟩, hsent, hreceived, -⟩ := run_started Machine.bare
    (P := fun n k i => i.Fair n k ∧ i.Modest) roomy_boot (fun _ _ => ⟨trivial, trivial⟩) fun _ _ => ⟨trivial, trivial⟩
  obtain ⟨box, heap, halloc⟩ := alloc_of_serves allocs_mailbox hserves
  have hlive : k.sched.Live 1 := by
    rw [hs]
    exact ⟨rfl, rfl⟩
  obtain ⟨hregion, hvalid⟩ := hmap.lowStack hlive (show 5 ≤ MESSAGE_SIZE by decide)
  obtain ⟨n₁, B₁, k₁, h₁, hmap₁, hs₁, hsent₁, hreceived₁, -⟩ := h.post hmap hs halloc hregion hvalid (by decide)
  have hlive₁ : k₁.sched.Live 1 := by
    rw [hs₁]
    exact ⟨rfl, rfl⟩
  obtain ⟨hregion₁, hvalid₁⟩ := hmap₁.lowStack hlive₁ (Nat.le_refl MESSAGE_SIZE)
  obtain ⟨n₂, B₂, k₂, h₂, hlive₂, hsent₂, hreceived₂⟩ := h₁.collect hmap₁ hs₁ hregion₁ hvalid₁
  rw [hsent, List.nil_append] at hsent₁
  obtain ⟨got₁, waiting₁, hqueue₁, -⟩ := (queue_of_run h₁).1 1 hlive₁
  obtain ⟨got₂, waiting₂, hqueue₂, -⟩ := (queue_of_run h₂).1 1 hlive₂
  refine ⟨n₁, B₁, k₁, n₂, B₂, k₂, _, h₁, h₂, hsent₁, hsent₂.trans hsent₁, ?_, ?_⟩
  · -- nothing has been received
    have hgot := hqueue₁.received.length_eq
    rw [hreceived₁, hreceived] at hgot
    obtain rfl := List.length_eq_zero_iff.mp hgot
    obtain rfl : waiting₁ = _ := hqueue₁.order.trans hsent₁
    exact hqueue₁
  · have hgot := hqueue₂.received.length_eq
    rw [hreceived₂, hreceived₁, hreceived, List.nil_append, List.length_singleton] at hgot
    have horder := hqueue₂.order.trans (hsent₂.trans hsent₁)
    have hcount := congrArg List.length horder
    rw [List.length_append, hgot, List.length_singleton] at hcount
    obtain rfl := List.length_eq_zero_iff.mp (show waiting₂.length = 0 by omega)
    rw [List.append_nil] at horder
    rw [← horder]
    exact hqueue₂

end AdelaideOS.Kernel
