import AdelaideOS.Process.Runs
import AdelaideOS.Lib.Turns

/-!
# Queued for the processor

Behind the pointers of the ready list and `current_process` there is a queue: the order in which the ready
processes come if nothing but the timer happens (`turns`).  `context_switch` takes its head and moves it to the
end.  A process that becomes ready is put in front of the list, and when the current process suspends itself or
dies, the turn goes back to the front.

`Queued P p S t S'` is a run of events, each of which satisfies `P`, during which `p` stays ready and does not
become current; `t` counts what happened.

* **`Inv.pickNext_turns`** — the scheduler takes the head of the queue;
* **`waiting_bound`** — a ready process is kept waiting for a bounded number of timer switches, unless the current
  process gives up the processor time and again.
-/

namespace AdelaideOS.Process

open AdelaideOS.Lib.Dlist AdelaideOS.Lib.Turns

/-- Ready to run. -/
def Sched.IsReady (S : Sched) (p : ℕ) : Prop := S.Live p ∧ (S.procs p).ready = true

instance (S : Sched) (p : ℕ) : Decidable (S.IsReady p) := inferInstanceAs (Decidable (_ ∧ _))

variable {S S' : Sched} {A : ℕ → Prop} {R R' U U' : List ℕ} {p q : ℕ}

theorem Inv.isReady_iff (h : Inv S S.Live R U) (q : ℕ) : S.IsReady q ↔ q ∈ R := (h.mem_ready q).symm

theorem Inv.current_mem (h : Inv S A R U) (hcur : S.current = some p) : p ∈ R ↔ (S.procs p).ready = true := by
  rw [h.mem_ready]
  exact and_iff_right (h.current_alive p hcur)

/-- **The queue.**  The scheduler takes its head. -/
theorem Inv.pickNext_turns (h : Inv S A R U) : pickNext S = (turns S.current R).head? := by
  have hfirst := h.layout.ready.first_eq
  unfold pickNext
  cases hcur : S.current with
  | none => exact hfirst
  | some p =>
    by_cases hp : p ∈ R
    · have hready := (h.current_mem hcur).mp hp
      obtain ⟨l, r, rfl⟩ := List.append_of_mem hp
      have hpl : p ∉ l := fun hpl => (List.nodup_append.mp h.layout.ready.nodup).2.2 p hpl p (by simp) rfl
      simp only [hready, if_true]
      rw [(h.layout.ready.linked l p r rfl).1, hfirst, turns_split hpl]
      cases r with
      | nil => cases l <;> rfl
      | cons y r => rfl
    · have hready : (S.procs p).ready = false := by
        rw [← Bool.not_eq_true]
        exact fun hr => hp ((h.current_mem hcur).mpr hr)
      simp only [hready]
      rw [turns_of_not_mem hp]
      exact hfirst

/-- The ready list is what the pointers say. -/
theorem Good.inv_of_list (h : Good S) (hlist : IsDlist S.links S.ready R) : ∃ U, Inv S S.Live R U := by
  obtain ⟨R₀, U, hI⟩ := h
  rw [hlist.unique hI.layout.ready]
  exact ⟨U, hI⟩

theorem Inv.good (h : Inv S S.Live R U) : Good S := ⟨R, U, h⟩

/-! ### What an event does to the list -/

/-- The ready list `R` has become `R'`; whoever had the turn has it still, or is off the list and nobody has it. -/
structure Relisted (S S' : Sched) (R R' : List ℕ) : Prop where
  list : IsDlist S'.links S'.ready R'
  shift : ∃ as bs, Shift R as bs R'
  current : S'.current = S.current ∨ S'.current = none ∧ ∀ c, S.current = some c → c ∉ R'

theorem Relisted.same (h : Inv S A R U) (hlists : SameLists S S') (hcur : S'.current = S.current) :
    Relisted S S' R R := by
  obtain ⟨hl, hr, -⟩ := hlists
  refine ⟨?_, ⟨[], R, Shift.refl R⟩, Or.inl hcur⟩
  rw [hl, hr]
  exact h.layout.ready

/-- The table does not matter. -/
theorem Relisted.congr {S₀ : Sched} (h : Relisted S S' R R') (hcur : S₀.current = S.current) :
    Relisted S₀ S' R R' := by
  refine ⟨h.list, h.shift, ?_⟩
  rw [hcur]
  exact h.current

theorem Relisted.install {v : Proc} (h : Inv S S.Live R U) (hp : getFreePid S = some p) :
    Relisted S (install S p v) R (p :: R) := by
  have hdead : ¬ S.Live p := by
    intro hlive
    have hfree := (getFreePid_spec hp).2.2
    rw [hlive.1] at hfree
    cases hfree
  obtain ⟨hR, hU⟩ := h.not_mem hdead
  exact ⟨(install_layout h.layout hR hU).ready, ⟨[p], R, Shift.arrive hR⟩, Or.inl (install_current S p v)⟩

theorem Relisted.suspend (h : Inv S A R U) (hp : A p) (hok : suspendProcess S p = .ok S') :
    Relisted S S' R (R.erase p) := by
  have hI := h.suspend hp hok
  obtain ⟨-, -, rfl⟩ := suspendProcess_ok hok
  exact ⟨hI.layout.ready, ⟨[], _, Shift.leave p R⟩, Or.inl rfl⟩

theorem Relisted.resume (h : Inv S A R U) (hp : A p) (hok : resumeProcess S p = .ok S') :
    Relisted S S' R (p :: R) := by
  have hI := h.resume hp hok
  obtain ⟨-, hready, rfl⟩ := resumeProcess_ok hok
  refine ⟨hI.layout.ready, ⟨[p], R, Shift.arrive ?_⟩, Or.inl rfl⟩
  rw [h.mem_ready, hready]
  simp

/-- The dying process leaves the list, and a parent that waits for it joins. -/
theorem Relisted.kill (h : Inv S S.Live R U) (hp : (S.procs p).exists_ = true) (hok : killProcess S p = .ok S') :
    ∃ R', Relisted S S' R R' ∧ p ∉ R' := by
  have hdetached := h.detached p
  have hnd := h.layout.ready.nodup
  have hpR : p ∉ R.erase p := by
    rw [hnd.mem_erase_iff]
    simp
  have hcur : ∀ R' : List ℕ, p ∉ R' → S'.current = S.current ∨ S'.current = none ∧ ∀ c, S.current = some c → c ∉ R' := by
    intro R' hR'
    rw [(killProcess_ok hok).2]
    by_cases hc : S.current = some p
    · refine Or.inr ⟨if_pos hc, ?_⟩
      intro c hc'
      rw [hc] at hc'
      obtain rfl := Option.some.inj hc'
      exact hR'
    · exact Or.inl (if_neg hc)
  obtain ⟨-, -, hlists⟩ := bury_ok hok
  rcases hlists with ⟨-, hl, hr, -⟩ | ⟨w, hw, -, hready, hl, hr, -⟩
  · refine ⟨R.erase p, ⟨?_, ⟨[], _, Shift.leave p R⟩, hcur _ hpR⟩, hpR⟩
    rw [hl, hr]
    exact hdetached.ready
  · rw [wakes_detach] at hw
    rw [detach_procs] at hready
    have hwR : w ∉ R := by
      rw [h.mem_ready, hready]
      simp
    have hwR' : w ∉ R.erase p := fun hmem => hwR (List.mem_of_mem_erase hmem)
    have hwU : w ∉ (U.erase p).erase w := by
      rw [(h.layout.suspended.nodup.erase p).mem_erase_iff]
      simp
    have hpw : p ∉ w :: R.erase p := by
      rw [List.mem_cons, not_or]
      exact ⟨Ne.symm (h.wakes_alive hp hw).2, hpR⟩
    refine ⟨w :: R.erase p, ⟨?_, ⟨[w], _, ⟨rfl, List.erase_sublist, by simpa using hwR⟩⟩, hcur _ hpw⟩, hpw⟩
    rw [hl, hr]
    exact (Layout.addReady (Layout.removeSuspended hdetached hwR') hwR' hwU).ready

/-- Assigning an entry without touching the fields that the lists depend on. -/
theorem Inv.put {v : Proc} (h : Inv S S.Live R U) (hv : SameCore (S.procs p) v)
    (hex : v.exited = (S.procs p).exited) : Inv (S.set p v) (S.set p v).Live R U := by
  obtain ⟨U', hI⟩ := (h.good.set hv hex).inv_of_list h.layout.ready
  have hset := h.set hv
  rw [hset.layout.suspended.unique hI.layout.suspended]
  exact hI

variable {res : ℤ} {status : Option ℤ}

/-- **The handlers.** -/
theorem Relisted.dispatch {r : Regs} {c : Call} (h : Inv S S.Live R U) (hp : S.Live p) (hc : c.Sound S)
    (hok : dispatch S p r c = .ok (res, status, S')) : ∃ R', Relisted S S' R R' := by
  cases c with
  | fork =>
    rcases syscallFork_ok (plain_eq_ok hok).1 with ⟨-, -, rfl⟩ | ⟨child, hfree, -, rfl⟩
    · exact ⟨R, .same h ⟨rfl, rfl, rfl⟩ rfl⟩
    · exact ⟨_, .install h hfree⟩
  | exit value =>
    obtain ⟨-, hkill⟩ := syscallExit_ok (plain_eq_ok hok).1
    have hI : Inv (S.set p { S.procs p with exitStatus := value }) (S.set p { S.procs p with exitStatus := value }).Live
      R U := h.put ⟨rfl, rfl, rfl, rfl⟩ rfl
    obtain ⟨R', hR', -⟩ := Relisted.kill hI (by rw [set_procs, Function.update_self]; exact hp.1) hkill
    exact ⟨R', hR'.congr rfl⟩
  | kill pid =>
    rcases syscallKill_ok (plain_eq_ok hok).1 with ⟨-, rfl⟩ | ⟨t, -, -, hex, -, hkill⟩
    · exact ⟨R, .same h ⟨rfl, rfl, rfl⟩ rfl⟩
    · obtain ⟨R', hR', -⟩ := Relisted.kill h hex hkill
      exact ⟨R', hR'⟩
  | waitpid pid =>
    rcases syscallWaitpid_ok hok with ⟨-, -, rfl | rfl⟩ | ⟨d, -, -, -, -, -, rfl⟩ | ⟨d, -, -, -, -, -, hsus⟩
    · exact ⟨R, .same h ⟨rfl, rfl, rfl⟩ rfl⟩
    · exact ⟨R, .same h ⟨rfl, rfl, rfl⟩ rfl⟩
    · exact ⟨R, .same h ⟨rfl, rfl, rfl⟩ rfl⟩
    · have hI : Inv (waitFor S p (some d)) (waitFor S p (some d)).Live R U := h.put ⟨rfl, rfl, rfl, rfl⟩ rfl
      have hlive : (waitFor S p (some d)).Live p := by
        rw [Sched.Live, waitFor_proc]
        exact hp
      exact ⟨_, (Relisted.suspend hI hlive hsus).congr rfl⟩
  | send valid box dest size =>
    rcases syscallSend_ok (plain_eq_ok hok).1 with rfl | ⟨hacc, d, rfl, hcases⟩
    · exact ⟨R, .same h ⟨rfl, rfl, rfl⟩ rfl⟩
    · have hsame := sameLife_accept (S.procs d) box
      have hI : Inv (S.set d (accept (S.procs d) box)) (S.set d (accept (S.procs d) box)).Live R U :=
        h.put ⟨hsame.exists_, hsame.ready, hsame.pid, hsame.parentPid⟩ hsame.exited
      rcases hcases with ⟨-, rfl⟩ | ⟨hblocked, S₂, hres, rfl⟩
      · exact ⟨R, .same h ⟨rfl, rfl, rfl⟩ rfl⟩
      · have hexit : (S.procs d).exited = false := by
          rw [← Bool.not_eq_true]
          exact fun hexit => hc ⟨hacc, hexit, hblocked⟩
        have hlive : (S.set d (accept (S.procs d) box)).Live d := by
          rw [Sched.Live, set_procs, Function.update_self, hsame.exists_, hsame.exited]
          exact ⟨hacc.2.2.2.1, hexit⟩
        obtain ⟨hlist, hshift, hcur⟩ := Relisted.resume hI hlive hres
        exact ⟨_, ⟨hlist, hshift, hcur⟩⟩
  | receive valid block =>
    rcases syscallReceive_ok (plain_eq_ok hok).1 with rfl | rfl | ⟨-, hsus⟩
    · exact ⟨R, .same h ⟨rfl, rfl, rfl⟩ rfl⟩
    · exact ⟨R, .same h ⟨rfl, rfl, rfl⟩ rfl⟩
    · have hI : Inv (S.set p { S.procs p with receiveBlocked := true })
        (S.set p { S.procs p with receiveBlocked := true }).Live R U := h.put ⟨rfl, rfl, rfl, rfl⟩ rfl
      have hlive : (S.set p { S.procs p with receiveBlocked := true }).Live p := by
        rw [Sched.Live, set_procs, Function.update_self]
        exact hp
      exact ⟨_, (Relisted.suspend hI hlive hsus).congr rfl⟩

/-- What one event does: the list is `R'` afterwards, and the turn is where it was, or with the head of the queue,
or nobody's. -/
structure Turned (S S' : Sched) (R R' : List ℕ) : Prop where
  list : IsDlist S'.links S'.ready R'
  shift : ∃ as bs, Shift R as bs R'
  current : S'.current = S.current ∨ S'.current = none ∧ turns S.current R' = R' ∨
    S'.current = (turns S.current R').head?

theorem turns_of_off {o : Option ℕ} (h : ∀ c, o = some c → c ∉ R) : turns o R = R := by
  cases o with
  | none => rfl
  | some c => exact turns_of_not_mem (h c rfl)

theorem Relisted.turned (h : Relisted S S' R R') : Turned S S' R R' := by
  refine ⟨h.list, h.shift, ?_⟩
  rcases h.current with hcur | ⟨hnone, hoff⟩
  · exact Or.inl hcur
  · exact Or.inr (Or.inl ⟨hnone, turns_of_off hoff⟩)

/-- A switch, when the list has become `R'`. -/
theorem Relisted.switch {S₁ : Sched} (h : Relisted S S₁ R R') (hG : Good S₁) (hlists : SameLists S₁ S')
    (hcur : S'.current = pickNext S₁) : Turned S S' R R' := by
  obtain ⟨U₁, hI⟩ := hG.inv_of_list h.list
  obtain ⟨hl, hr, -⟩ := hlists
  refine ⟨?_, h.shift, Or.inr (Or.inr ?_)⟩
  · rw [hl, hr]
    exact h.list
  · rw [hcur, hI.pickNext_turns]
    rcases h.current with hsame | ⟨hnone, hoff⟩
    · rw [hsame]
    · rw [hnone, turns_of_off hoff]
      rfl

/-- The end of a call. -/
theorem Relisted.leave {S₁ : Sched} (h : Relisted S S₁ R R') (hG : Good S₁) (old no : ℕ) (r : Regs) (res : ℤ) :
    Turned S (leave S₁ old no r res) R R' := by
  obtain ⟨-, hlists, hcur⟩ := leave_spec S₁ old no r res
  split at hcur
  · exact h.switch hG hlists hcur
  · obtain ⟨hl, hr, -⟩ := hlists
    refine Relisted.turned ⟨?_, h.shift, ?_⟩
    · rw [hl, hr]
      exact h.list
    · rw [hcur]
      exact h.current

/-- The timer. -/
def Event.switches : Event → ℕ
  | .switch _ => 1
  | _ => 0

theorem Turned.switch (h : Inv S S.Live R U) (r : Regs) :
    Turned S (contextSwitch S r) R R ∧ (contextSwitch S r).current = (turns S.current R).head? := by
  obtain ⟨-, hlists, hcur⟩ := contextSwitch_spec S r
  exact ⟨(Relisted.same h ⟨rfl, rfl, rfl⟩ rfl).switch h.good hlists hcur, hcur.trans h.pickNext_turns⟩

/-- **One event.** -/
theorem Turned.exec {ev : Event} (h : Inv S S.Live R U) (hev : ev.Orderly S) (hok : exec S ev = .ok S') :
    ∃ R', Turned S S' R R' := by
  cases ev with
  | start startAddress =>
    cases hstart : startProcess S startAddress with
    | none =>
      rw [Process.exec, hstart] at hok
      cases hok
      exact ⟨R, (Relisted.same h ⟨rfl, rfl, rfl⟩ rfl).turned⟩
    | some x =>
      obtain ⟨pid, S₁⟩ := x
      rw [Process.exec, hstart] at hok
      cases hok
      obtain ⟨hfree, rfl⟩ := startProcess_some hstart
      exact ⟨_, (Relisted.install h hfree).turned⟩
  | call r c =>
    obtain ⟨⟨res, status, S₂⟩, h₁, h₂⟩ := bind_eq_ok.mp hok
    cases h₂
    obtain ⟨old, S₁, hold, hdis, rfl⟩ := syscall_ok h₁
    have hI : Inv (enter S old c.no) (enter S old c.no).Live R U := h.put ⟨rfl, rfl, rfl, rfl⟩ rfl
    have hlive := (live_enter S old c.no old).mpr (h.current_alive old hold)
    have hsound := hev.enter old c.no
    obtain ⟨R', hR'⟩ := Relisted.dispatch hI hlive hsound hdis
    have hG₁ := hI.good.dispatch hlive hsound hdis
    have hrel : Relisted S _ R R' := hR'.congr rfl
    exact ⟨R', hrel.leave hG₁ old c.no r res⟩
  | switch r =>
    cases hok
    exact ⟨R, (Turned.switch h r).1⟩
  | kill p =>
    obtain ⟨R', hR', -⟩ := Relisted.kill h hev hok
    exact ⟨R', hR'.turned⟩
  | suspend p => exact ⟨_, (Relisted.suspend h ⟨(suspendProcess_ok hok).1, hev⟩ hok).turned⟩
  | resume p => exact ⟨_, (Relisted.resume h ⟨(resumeProcess_ok hok).1, hev⟩ hok).turned⟩

/-! ### Queued -/

/-- The processes that an event made ready. -/
def arrivals (S S' : Sched) : ℕ := ((Finset.range MAX_PROCESSES).filter fun q => S'.IsReady q ∧ ¬ S.IsReady q).card

/-- Whether the current process gave up the processor, by suspending itself or dying. -/
def departures (S S' : Sched) : ℕ :=
  match S.current with
  | some c => if S.IsReady c ∧ ¬ S'.IsReady c then 1 else 0
  | none => 0

structure Tally where
  switches : ℕ
  arrivals : ℕ
  departures : ℕ
  deriving DecidableEq, Repr

def Tally.zero : Tally := ⟨0, 0, 0⟩

def Tally.add (t : Tally) (S : Sched) (ev : Event) (S' : Sched) : Tally :=
  ⟨t.switches + ev.switches, t.arrivals + Process.arrivals S S', t.departures + Process.departures S S'⟩

inductive Queued (P : Sched → Event → Prop) (p : ℕ) : Sched → Tally → Sched → Prop where
  | refl (S : Sched) : Queued P p S .zero S
  | step {S S₁ S₂ : Sched} {t : Tally} (ev : Event) : Queued P p S t S₁ → P S₁ ev → exec S₁ ev = .ok S₂ →
      S₂.IsReady p → S₂.current ≠ some p → Queued P p S (t.add S₁ ev S₂) S₂

theorem length_le_arrivals {as bs : List ℕ} (h : Inv S S.Live R U) (h' : Inv S' S'.Live R' U')
    (hshift : Shift R as bs R') : as.length ≤ arrivals S S' := by
  have hnd : as.Nodup := by
    have hR' := h'.layout.ready.nodup
    rw [hshift.eq] at hR'
    exact (List.nodup_append.mp hR').1
  rw [← List.toFinset_card_of_nodup hnd]
  apply Finset.card_le_card
  intro q hq
  rw [List.mem_toFinset] at hq
  have hready : S'.IsReady q := by
    rw [h'.isReady_iff, hshift.eq]
    exact List.mem_append_left _ hq
  rw [Finset.mem_filter, Finset.mem_range, h.isReady_iff]
  exact ⟨(h'.range q hready.1.1).2, hready, hshift.fresh q hq⟩

/-- Process numbers are between 1 and `MAX_PROCESSES - 1`. -/
theorem Inv.length_le (h : Inv S S.Live R U) : R.length ≤ MAX_PROCESSES - 1 := by
  have hsub : R.toFinset ⊆ Finset.Ico 1 MAX_PROCESSES := by
    intro q hq
    rw [List.mem_toFinset, h.mem_ready] at hq
    rw [Finset.mem_Ico]
    exact h.range q hq.1.1
  have hcard := Finset.card_le_card hsub
  rw [List.toFinset_card_of_nodup h.layout.ready.nodup, Nat.card_Ico] at hcard
  exact hcard

/-- How many others come before `p`. -/
theorem Inv.idxOf_le (h : Inv S S.Live R U) (hp : S.IsReady p) (o : Option ℕ) :
    (turns o R).idxOf p ≤ MAX_PROCESSES - 2 := by
  have hmem : p ∈ turns o R := mem_turns.mpr ((h.isReady_iff p).mp hp)
  have hlt := List.idxOf_lt_length_of_mem hmem
  rw [(turns_perm o R).length_eq] at hlt
  have hlen := h.length_le
  omega

/-- The place of `p` in the queue does not change when the turn passes, and a timer switch brings it forward. -/
theorem Turned.idxOf_le (h : Turned S S' R R') (hnd : R'.Nodup) (hp : p ∈ R') (hne : S'.current ≠ some p) :
    (turns S'.current R').idxOf p ≤ (turns S.current R').idxOf p := by
  rcases h.current with hcur | ⟨hnone, hoff⟩ | hcur
  · rw [hcur]
  · rw [hnone, hoff]
    exact Nat.le_refl _
  · cases hhead : (turns S.current R').head? with
    | none =>
      have hnil := List.head?_eq_none_iff.mp hhead
      have hmem := (mem_turns (o := S.current)).mpr hp
      rw [hnil] at hmem
      cases hmem
    | some x =>
      rw [hhead] at hcur
      have hx : p ≠ x := by
        rintro rfl
        exact hne hcur
      have hrot := turns_rotate hnd hhead hp hx
      rw [hcur]
      omega

/-- An event other than the timer. -/
theorem waiting_quiet {ev : Event} (hsw : ev.switches = 0) (h : Inv S S.Live R U) (hev : ev.Orderly S)
    (hok : exec S ev = .ok S') (hp : S.IsReady p) (hp' : S'.IsReady p) (hne : S'.current ≠ some p) :
    ∃ R' U', Inv S' S'.Live R' U' ∧ ev.switches + (turns S'.current R').idxOf p ≤
      (turns S.current R).idxOf p + arrivals S S' + (MAX_PROCESSES - 2) * departures S S' := by
  obtain ⟨R', hturned⟩ := Turned.exec h hev hok
  obtain ⟨U', hI'⟩ := (h.good.exec hev hok).inv_of_list hturned.list
  refine ⟨R', U', hI', ?_⟩
  have hpR := (h.isReady_iff p).mp hp
  have hpR' := (hI'.isReady_iff p).mp hp'
  have hle := hturned.idxOf_le hI'.layout.ready.nodup hpR' hne
  obtain ⟨as, bs, hshift⟩ := hturned.shift
  have harr := length_le_arrivals h hI' hshift
  rw [hsw, Nat.zero_add]
  by_cases hdep : departures S S' = 0
  · have hstay : ∀ c, S.current = some c → c ∈ R → c ∈ R' := by
      intro c hc hcR
      by_contra hcR'
      rw [departures, hc] at hdep
      simp only [h.isReady_iff, hI'.isReady_iff] at hdep
      rw [if_pos ⟨hcR, hcR'⟩] at hdep
      cases hdep
    have hbs : p ∈ bs := by
      rw [hshift.eq] at hpR'
      rcases List.mem_append.mp hpR' with ha | hb
      · exact absurd hpR (hshift.fresh p ha)
      · exact hb
    have hput := idxOf_turns hshift h.layout.ready.nodup hI'.layout.ready.nodup hbs hstay
    omega
  · -- the turn went back to the front, which puts `p` off by the length of the list at most
    have hlen := hI'.idxOf_le hp' S'.current
    have hmul : (MAX_PROCESSES - 2) * 1 ≤ (MAX_PROCESSES - 2) * departures S S' :=
      Nat.mul_le_mul_left _ (Nat.one_le_iff_ne_zero.mpr hdep)
    omega

/-- The timer brings `p` forward. -/
theorem waiting_switch (h : Inv S S.Live R U) (r : Regs) (hp : S.IsReady p)
    (hne : (contextSwitch S r).current ≠ some p) :
    ∃ U', Inv (contextSwitch S r) (contextSwitch S r).Live R U' ∧
      1 + (turns (contextSwitch S r).current R).idxOf p = (turns S.current R).idxOf p := by
  obtain ⟨hturned, hcur⟩ := Turned.switch h r
  obtain ⟨U', hI'⟩ := (h.good.contextSwitch r).inv_of_list hturned.list
  refine ⟨U', hI', ?_⟩
  have hpR := (h.isReady_iff p).mp hp
  cases hhead : (turns S.current R).head? with
  | none =>
    have hmem := (mem_turns (o := S.current)).mpr hpR
    rw [List.head?_eq_none_iff.mp hhead] at hmem
    cases hmem
  | some x =>
    rw [hhead] at hcur
    have hx : p ≠ x := by
      rintro rfl
      exact hne hcur
    rw [hcur, Nat.add_comm]
    exact turns_rotate h.layout.ready.nodup hhead hpR hx

/-- **One event** of waiting. -/
theorem waiting_step {ev : Event} (h : Inv S S.Live R U) (hev : ev.Orderly S) (hok : exec S ev = .ok S')
    (hp : S.IsReady p) (hp' : S'.IsReady p) (hne : S'.current ≠ some p) :
    ∃ R' U', Inv S' S'.Live R' U' ∧ ev.switches + (turns S'.current R').idxOf p ≤
      (turns S.current R).idxOf p + arrivals S S' + (MAX_PROCESSES - 2) * departures S S' := by
  cases ev with
  | switch r =>
    cases hok
    obtain ⟨U', hI', heq⟩ := waiting_switch h r hp hne
    refine ⟨R, U', hI', ?_⟩
    rw [Event.switches, heq]
    omega
  | start startAddress => exact waiting_quiet rfl h hev hok hp hp' hne
  | call r c => exact waiting_quiet rfl h hev hok hp hp' hne
  | kill q => exact waiting_quiet rfl h hev hok hp hp' hne
  | suspend q => exact waiting_quiet rfl h hev hok hp hp' hne
  | resume q => exact waiting_quiet rfl h hev hok hp hp' hne

/-- **A run** of waiting. -/
theorem Queued.bound {t : Tally} (h : Queued Event.Orderly p S t S') (hG : Good S) (hp : S.IsReady p) :
    S'.IsReady p ∧ ∃ R' U', Inv S' S'.Live R' U' ∧ t.switches + (turns S'.current R').idxOf p ≤
      (MAX_PROCESSES - 2) * (t.departures + 1) + t.arrivals := by
  induction h with
  | refl =>
    obtain ⟨R, U, hI⟩ := hG
    have hle := hI.idxOf_le hp S.current
    refine ⟨hp, R, U, hI, ?_⟩
    show 0 + _ ≤ (MAX_PROCESSES - 2) * 1 + 0
    omega
  | @step S₁ S₂ t ev _ hev hok hp' hne ih =>
    obtain ⟨hp₁, R, U, hI, hle⟩ := ih
    obtain ⟨R', U', hI', hstep⟩ := waiting_step hI hev hok hp₁ hp' hne
    refine ⟨hp', R', U', hI', ?_⟩
    simp only [Tally.add]
    rw [Nat.add_right_comm t.departures, Nat.mul_add]
    omega

/-- **Bounded waiting.**  While a process is ready and waits for the processor, there are at most 30 timer switches
for each time the current process gives up the processor, and 30 more, and one for each process that becomes ready. -/
theorem waiting_bound {t : Tally} (hS : Reachable Event.Orderly S) (hp : S.IsReady p)
    (h : Queued Event.Orderly p S t S') :
    t.switches ≤ (MAX_PROCESSES - 2) * (t.departures + 1) + t.arrivals := by
  obtain ⟨-, R', U', -, hle⟩ := h.bound (good_of_reachable (fun _ _ h => h) hS) hp
  omega

/-- Four processes have been started. -/
def fourReady : Sched :=
  install (install (install (install Sched.boot 1 (startedProc 1 0)) 2 (startedProc 2 0)) 3 (startedProc 3 0)) 4
    (startedProc 4 0)

theorem reachable_fourReady : Reachable Event.Orderly fourReady := by
  have h₁ := Reachable.step (P := Event.Orderly) (.start 0) .boot trivial rfl
  have h₂ := h₁.step (.start 0) trivial rfl
  have h₃ := h₂.step (.start 0) trivial rfl
  exact h₃.step (.start 0) trivial rfl

/-- The last of them waits for three switches. -/
theorem waiting_bound_four : ∃ t S', Queued Event.Orderly 1 fourReady t S' ∧ t.switches = 3 ∧
    t.switches ≤ (MAX_PROCESSES - 2) * (t.departures + 1) + t.arrivals := by
  have h₁ := Queued.step (P := Event.Orderly) (p := 1) (.switch Regs.zero) (.refl fourReady) trivial rfl (by decide) (by decide)
  have h₂ := h₁.step (.switch Regs.zero) trivial rfl (by decide) (by decide)
  have h₃ := h₂.step (.switch Regs.zero) trivial rfl (by decide) (by decide)
  exact ⟨_, _, h₃, rfl, waiting_bound reachable_fourReady (by decide) h₃⟩

end AdelaideOS.Process
