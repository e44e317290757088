import AdelaideOS.Kernel.Books
import AdelaideOS.Kernel.Advance
import AdelaideOS.Lib.Actors

/-!
# Programs that exchange messages

`act p s` is the next `send` or `receive` of process `p` when its program is in the state `s`.  A `Session` is a run
of the kernel in which the processes that satisfy `part` do what their programs say: what they send and receive is
what `act` names, in the order in which the system calls succeed, and nobody else sends to them or receives for them.
Everything else is left open: other system calls of theirs, other processes, the timer, the keyboard.

* **`Session.reaches`** — the kernel implements the network: every session is an interleaving of the programs over
  mailboxes that are queues.
-/

namespace AdelaideOS.Kernel

open AdelaideOS.Buddy AdelaideOS.Lib.Actors AdelaideOS.Lib.Bytes AdelaideOS.Process

/-- The fields of a received record, as the program reads them. -/
def readMessage (record : List UInt8) : Message where
  sender := wordOf (record.take 4)
  tag := wordOf ((record.drop 4).take 4)
  size := wordOf ((record.drop 8).take 4)
  data := (record.drop 12).take (wordOf ((record.drop 8).take 4))

/-- The fields are words, and the size is that of the data. -/
structure Message.Plain (msg : Message) : Prop where
  sender : msg.sender < wordSize
  tag : msg.tag < wordSize
  size : msg.size < wordSize
  length : msg.data.length = msg.size

variable {L : Type} {act : ℕ → L → Act ℕ Message L} {part : ℕ → Prop} {m : Machine} {n n₀ : Notes} {B B₀ : Books}
  {C : Contents} {k k₀ : State} {σ σ₀ σ' : ℕ → L} {msg : Message} {record : List UInt8} {p : ℕ}

theorem wordBytes_length (w : ℕ) : (wordBytes w).length = 4 := rfl

/-- **What was sent is read back.** -/
theorem readMessage_of_prefix (h : msg.Plain) (hpre : msg.bytes <+: record) : readMessage record = msg := by
  obtain ⟨rest, rfl⟩ := hpre
  have htake : ∀ (w : ℕ) (bs : List UInt8), (wordBytes w ++ bs).take 4 = wordBytes w := fun w bs =>
    List.take_left' (wordBytes_length w)
  have hdrop : ∀ (w : ℕ) (bs : List UInt8), (wordBytes w ++ bs).drop 4 = bs := fun w bs =>
    List.drop_left' (wordBytes_length w)
  have hword : ∀ w < wordSize, wordOf (wordBytes w) = w := fun w hw => by
    rw [wordOf_wordBytes, Nat.mod_eq_of_lt hw]
  have hbytes : msg.bytes ++ rest =
      wordBytes msg.sender ++ (wordBytes msg.tag ++ (wordBytes msg.size ++ (msg.data ++ rest))) := by
    simp [Message.bytes]
  have h8 : ∀ bs : List UInt8, bs.drop 8 = (bs.drop 4).drop 4 := fun bs => by
    rw [List.drop_drop]
  have h12 : ∀ bs : List UInt8, bs.drop 12 = ((bs.drop 4).drop 4).drop 4 := fun bs => by
    rw [List.drop_drop, List.drop_drop]
  have hdata : (msg.data ++ rest).take msg.size = msg.data := by
    rw [← h.length, List.take_left]
  unfold readMessage
  rw [h8, h12, hbytes, hdrop, hdrop, hdrop, htake, htake, htake, hword _ h.sender, hword _ h.tag, hword _ h.size,
    hdata]

/-- What the programs become when the kernel makes the transfer. -/
inductive Obeys (act : ℕ → L → Act ℕ Message L) (part : ℕ → Prop) (σ : ℕ → L) : Transfer → (ℕ → L) → Prop where
  | nothing : Obeys act part σ .nothing σ
  | put (b : ℕ) (bytes : List UInt8) : Obeys act part σ (.put b bytes) σ
  | take (b : ℕ) (bytes : List UInt8) : Obeys act part σ (.take b bytes) σ
  | others (d : ℕ) (msg : Message) : ¬ part d → ¬ part msg.sender → Obeys act part σ (.post d msg) σ
  | post (d : ℕ) (msg : Message) (next : L) : part msg.sender →
      act msg.sender (σ msg.sender) = .send d msg next →
      Obeys act part σ (.post d msg) (Function.update σ msg.sender next)
  | theirs (p : ℕ) (record : List UInt8) : ¬ part p → Obeys act part σ (.collect p record) σ
  | collect (p : ℕ) (record : List UInt8) (next : Message → L) : part p → act p (σ p) = .receive next →
      Obeys act part σ (.collect p record) (Function.update σ p (next (readMessage record)))

/-- The programs are at their beginnings, and no messages are waiting for them. -/
structure Opening (m : Machine) (part : ℕ → Prop) (n : Notes) (B : Books) (k : State) : Prop where
  run : Run m (fun n k i => i.Fair n k ∧ i.Modest) n B k
  live : ∀ p, part p → k.sched.Live p
  empty : ∀ p, part p → (k.sched.procs p).mailboxSize = 0

inductive Session (m : Machine) (act : ℕ → L → Act ℕ Message L) (part : ℕ → Prop) (σ₀ : ℕ → L) :
    Notes → Books → State → (ℕ → L) → Prop where
  | start {n : Notes} {B : Books} {k : State} : Opening m part n B k → Session m act part σ₀ n B k σ₀
  | step {n : Notes} {B : Books} {k k' : State} {σ σ' : ℕ → L} (i : Input) : Session m act part σ₀ n B k σ →
      i.Fair n k → i.Modest → react m n.input i k = .ok () k' → (∀ p, part p → k'.sched.Live p) →
      Obeys act part σ (i.transfer m n k k') σ' → Session m act part σ₀ (n.next i k k') (B.next m n i k k') k' σ'

/-- **A system call** in a session. -/
theorem Session.call {r r' : Regs} {args : List ℕ} {res : ℤ} {k₂ : State} (h : Session m act part σ₀ n B k σ)
    (hcur : k.sched.current = some p)
    (hgood : (Input.event (.call r args)).Fair n k ∧ (Input.event (.call r args)).Modest)
    (hdis : dispatch m p r r.eax args { k with sched := enter k.sched p r.eax } = .ok (res, r') k₂)
    (hlive : ∀ q, part q → (leave k₂.sched p r.eax r' res).Live q)
    (hobeys : Obeys act part σ (transferOf p r.eax args k res { k₂ with sched := leave k₂.sched p r.eax r' res }) σ') :
    Session m act part σ₀ (n.next (.event (.call r args)) k { k₂ with sched := leave k₂.sched p r.eax r' res })
      (B.next m n (.event (.call r args)) k { k₂ with sched := leave k₂.sched p r.eax r' res })
      { k₂ with sched := leave k₂.sched p r.eax r' res } σ' :=
  h.step (.event (.call r args)) hgood.1 hgood.2 (react_dispatch n.input hcur hdis) hlive
    (by rw [transfer_call n _ hcur hdis]; exact hobeys)

/-- The mailboxes of the programs are those of the network. -/
def Carries (part : ℕ → Prop) (C : Contents) (N : Net ℕ Message L) : Prop := ∀ p, part p → N.box p = C.mail p

/-- The programs send plain messages only. -/
def SendsPlain (act : ℕ → L → Act ℕ Message L) (part : ℕ → Prop) : Prop :=
  ∀ p, part p → ∀ s d msg next, act p s = .send d msg next → msg.Plain

/-- The mailboxes of the programs hold plain messages. -/
def HoldsPlain (part : ℕ → Prop) (N : Net ℕ Message L) : Prop := ∀ p, part p → ∀ msg ∈ N.box p, msg.Plain

/-- **One transfer** is at most one step of the network. -/
theorem Obeys.step {t : Transfer} {C' : Contents} {N : Net ℕ Message L} (h : Obeys act part σ t σ')
    (hmoves : t.Moves C C') (hN : N.state = σ) (hbox : Carries part C N)
    (hsends : SendsPlain act part) (hplain : HoldsPlain part N) :
    ∃ N', Reaches act N N' ∧ N'.state = σ' ∧ Carries part C' N' ∧ HoldsPlain part N' := by
  cases h with
  | nothing =>
    obtain rfl : C' = C := hmoves
    exact ⟨N, .refl, hN, hbox, hplain⟩
  | put b bytes =>
    obtain rfl : C' = C.setText b (C.text b ++ bytes) := hmoves
    exact ⟨N, .refl, hN, hbox, hplain⟩
  | take b bytes =>
    obtain ⟨rest, -, rfl⟩ := hmoves
    exact ⟨N, .refl, hN, hbox, hplain⟩
  | others d msg hd _ =>
    obtain rfl : C' = C.setMail d (C.mail d ++ [msg]) := hmoves
    refine ⟨N, .refl, hN, fun p hp => ?_, hplain⟩
    have hne : p ≠ d := by
      rintro rfl
      exact hd hp
    rw [C.mail_setMail_of_ne _ hne]
    exact hbox p hp
  | post d msg next hs hact =>
    obtain rfl : C' = C.setMail d (C.mail d ++ [msg]) := hmoves
    rw [← hN] at hact
    refine ⟨_, .single (.send hact), ?_, fun p hp => ?_, fun p hp sent hmem => ?_⟩
    · rw [← hN]
      rfl
    · by_cases hpd : p = d
      · rw [hpd, Net.box_post_self, C.mail_setMail, hbox d (hpd ▸ hp)]
      · rw [Net.box_post_of_ne _ _ _ hpd, C.mail_setMail_of_ne _ hpd]
        exact hbox p hp
    · by_cases hpd : p = d
      · rw [hpd, Net.box_post_self, List.mem_append, List.mem_singleton] at hmem
        rcases hmem with hmem | rfl
        · exact hplain d (hpd ▸ hp) sent hmem
        · exact hsends _ hs _ _ _ _ hact
      · rw [Net.box_post_of_ne _ _ _ hpd] at hmem
        exact hplain p hp sent hmem
  | theirs p record hp =>
    obtain ⟨msg, rest, -, -, rfl⟩ := hmoves
    refine ⟨N, .refl, hN, fun q hq => ?_, hplain⟩
    have hne : q ≠ p := by
      rintro rfl
      exact hp hq
    rw [C.mail_setMail_of_ne _ hne]
    exact hbox q hq
  | collect p record next hp hact =>
    obtain ⟨msg, rest, hmail, hpre, rfl⟩ := hmoves
    rw [← hbox p hp] at hmail
    have hread := readMessage_of_prefix (hplain p hp msg (by rw [hmail]; exact List.mem_cons_self)) hpre
    rw [← hN] at hact
    refine ⟨_, .single (.receive hact hmail), ?_, fun q hq => ?_, fun q hq left hmem => ?_⟩
    · rw [hread, ← hN]
      rfl
    · by_cases hqp : q = p
      · rw [hqp, Net.box_collect_self, C.mail_setMail]
      · rw [Net.box_collect_of_ne _ _ _ hqp, C.mail_setMail_of_ne _ hqp]
        exact hbox q hq
    · by_cases hqp : q = p
      · rw [hqp, Net.box_collect_self] at hmem
        exact hplain p hp left (by rw [hmail]; exact List.mem_cons_of_mem _ hmem)
      · rw [Net.box_collect_of_ne _ _ _ hqp] at hmem
        exact hplain q hq left hmem

/-- **The kernel implements the network.**  In every session the programs are in the states, and their mailboxes hold
the messages, of some interleaving. -/
theorem Session.reaches (h : Session m act part σ₀ n B k σ) (hsends : SendsPlain act part) :
    n.serving = none ∧ Steady k.sched ∧ Mapped m k ∧ (∀ p, part p → k.sched.Live p) ∧
      ∃ C N, Whole n C k.objects ∧ Reaches act (Net.init σ₀) N ∧ N.state = σ ∧ Carries part C N ∧
        HoldsPlain part N := by
  induction h with
  | @start n B k hopen =>
    obtain ⟨hserve, hsteady, C, hwhole, hbooks⟩ := hopen.run.standing fun _ _ _ h => h.1
    obtain ⟨hmap, -⟩ := hbooks fun _ _ _ h => h.2
    refine ⟨hserve, hsteady, hmap, hopen.live, C, Net.init σ₀, hwhole, .refl, rfl, fun p hp => ?_,
      fun p _ msg hmem => (List.not_mem_nil hmem).elim⟩
    have hlive := hopen.live p hp
    have hsize := hwhole.entries.size p hlive.1 (hwhole.fresh p hlive)
    rw [show (k.objects.sched.procs p).mailboxSize = 0 from hopen.empty p hp] at hsize
    exact (List.length_eq_zero_iff.mp hsize.symm).symm
  | step i _ hfair hmodest hok hlive hobeys ih =>
    obtain ⟨hserve, hsteady, hmap, hlive₀, C, N, hwhole, hreach, hN, hbox, hplain⟩ := ih
    obtain ⟨C', hwhole', hsteady', -, hmoves⟩ := (hwhole.react hserve hsteady hfair).ok rfl hok
    obtain ⟨C₁, hmove, hsilent⟩ := hmoves hmap
    obtain ⟨N', hstep, hN', hbox', hplain'⟩ := hobeys.step hmove hN hbox hsends hplain
    refine ⟨rfl, hsteady', hmap.react hwhole'.good hfair hmodest hok, hlive, C', N', hwhole', hreach.trans hstep, hN',
      fun p hp => ?_, hplain'⟩
    rw [hsilent.mail p (hlive₀ p hp).1]
    exact hbox' p hp

/-- A program is about to send, or there is a message for it to receive. -/
def Ripe (act : ℕ → L → Act ℕ Message L) (σ : ℕ → L) (k : State) (p : ℕ) : Prop :=
  (∃ dest msg next, act p (σ p) = .send dest msg next) ∨
    (∃ next, act p (σ p) = .receive next) ∧ 0 < (k.sched.procs p).mailboxSize

end AdelaideOS.Kernel
