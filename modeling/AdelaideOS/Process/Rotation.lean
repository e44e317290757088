import AdelaideOS.Process.Effects

/-!
# Round-robin scheduling

`contextSwitch` of the model leaves out what `context_switch` reads through a null `current_process`, the
registers it hands back, and the pending call that it executes again.  `contextSwitchFrom` has all three:
`nullReady` is the value found at the address of `ready` when there is no current process, and `again` stands
for `syscall`.

* **`contextSwitchFrom_eq`** — the value of `nullReady` is of no consequence;
* **`round_robin`** — the processes of the ready list take turns, in the order of the list.
-/

namespace AdelaideOS.Process

open AdelaideOS.Lib.Dlist

/-- `current_process->ready`. -/
def readyFlag (nullReady : Bool) (S : Sched) : Bool :=
  match S.current with
  | some p => (S.procs p).ready
  | none => nullReady

/-- `if (!current_process->ready) current_process = NULL`. -/
def dropCurrent (nullReady : Bool) (S : Sched) : Sched :=
  if readyFlag nullReady S then S else { S with current := none }

/-- The next process of the ready list, or its first one. -/
def advance (S : Sched) : Sched :=
  match S.current with
  | some p =>
    match S.links.next p with
    | some q => { S with current := some q }
    | none => { S with current := S.ready.first }
  | none => { S with current := S.ready.first }

/-- What `context_switch` does once the next process is chosen: the registers of the process, and its pending
call if it has one, or the idle loop. -/
def enterCurrent (again : Sched → Regs → Except Fault (Sched × Regs)) (idle : Regs) (S : Sched) :
    Except Fault (Sched × Regs) :=
  match S.current with
  | some p =>
    if (S.procs p).inSyscall = 0 then .ok (S, (S.procs p).savedRegs)
    else again S (S.procs p).savedRegs
  | none => .ok (S, idle)

/-- `context_switch`. -/
def contextSwitchFrom (again : Sched → Regs → Except Fault (Sched × Regs)) (idle : Regs) (nullReady : Bool)
    (S : Sched) (r : Regs) : Except Fault (Sched × Regs) :=
  enterCurrent again idle (advance (dropCurrent nullReady (saveRegs S r)))

/-- Consecutive calls of `context_switch`, each with the registers of its moment; the processes that become
current. -/
def switchAll (again : Sched → Regs → Except Fault (Sched × Regs)) (idle : Regs) :
    List (Bool × Regs) → Sched → Except Fault (List (Option ℕ) × Sched)
  | [], S => .ok ([], S)
  | (nullReady, r) :: calls, S => do
    let (S, _) ← contextSwitchFrom again idle nullReady S r
    let (ps, S') ← switchAll again idle calls S
    return (S.current :: ps, S')

variable {again : Sched → Regs → Except Fault (Sched × Regs)} {idle : Regs} {S S' : Sched} {xs : List ℕ}

/-- **The null pointer.**  Whatever is read through it, the next process is the one that `pickNext` picks. -/
theorem contextSwitchFrom_eq (nullReady : Bool) (S : Sched) (r : Regs) :
    contextSwitchFrom again idle nullReady S r = enterCurrent again idle (contextSwitch S r) := by
  have hpick : advance (dropCurrent nullReady (saveRegs S r)) = contextSwitch S r := by
    unfold contextSwitch dropCurrent readyFlag pickNext
    cases hcur : (saveRegs S r).current with
    | none =>
      by_cases hnull : nullReady = true
      · simp [advance, hcur, hnull]
      · simp [advance, hnull, hcur]
    | some p =>
      by_cases hready : ((saveRegs S r).procs p).ready = true
      · simp only [hready, if_true, advance, hcur]
        cases (saveRegs S r).links.next p <;> rfl
      · simp [hready, advance, hcur]
  rw [contextSwitchFrom, hpick]

/-- **Nobody is current.**  After a death or a suspension the turn passes to the first of the ready list. -/
theorem pickNext_first (h : ∀ p, S.current = some p → (S.procs p).ready = false) :
    pickNext S = S.ready.first := by
  unfold pickNext
  cases hcur : S.current with
  | none => rfl
  | some p => simp [h p hcur]

/-- The ready list holds `xs`, and none of them is inside a call. -/
structure Rotating (S : Sched) (xs : List ℕ) : Prop where
  list : IsDlist S.links S.ready xs
  ready : ∀ p ∈ xs, (S.procs p).ready = true
  idle : ∀ p ∈ xs, (S.procs p).inSyscall = 0

theorem Rotating.switch (h : Rotating S xs) (r : Regs) : Rotating (contextSwitch S r) xs := by
  obtain ⟨htable, ⟨hlinks, hready, -⟩, -⟩ := contextSwitch_spec S r
  refine ⟨?_, fun p hp => ?_, fun p hp => ?_⟩
  · rw [hlinks, hready]
    exact h.list
  · rw [(htable p).1.ready]
    exact h.ready p hp
  · rw [(htable p).2]
    exact h.idle p hp

/-- The process after the `i`-th is the `i + 1`-st, and after the last one comes the first. -/
theorem Rotating.pickNext (h : Rotating S xs) {i : ℕ} (hi : i < xs.length)
    (hcur : S.current = some (xs.get ⟨i, hi⟩)) : pickNext S = xs[(i + 1) % xs.length]? := by
  have hsplit : xs = xs.take i ++ xs.get ⟨i, hi⟩ :: xs.drop (i + 1) := by
    rw [List.get_eq_getElem, List.cons_getElem_drop_succ, List.take_append_drop]
  have hnext := (h.list.linked _ _ _ hsplit).1
  have hready := h.ready _ (List.get_mem xs ⟨i, hi⟩)
  have hpick : Process.pickNext S =
      (S.links.next (xs.get ⟨i, hi⟩)).orElse fun _ => S.ready.first := by
    unfold Process.pickNext
    rw [hcur]
    exact if_pos hready
  rw [hpick, hnext, h.list.first_eq, List.head?_drop]
  by_cases hlast : i + 1 < xs.length
  · rw [Nat.mod_eq_of_lt hlast, List.getElem?_eq_getElem hlast]
    rfl
  · have hlen : i + 1 = xs.length := by omega
    rw [hlen, Nat.mod_self, List.getElem?_eq_none (Nat.le_refl _), List.head?_eq_getElem?]
    rfl

theorem enterCurrent_quiet (h : Rotating S xs) (hcur : ∀ p, S.current = some p → p ∈ xs) :
    ∃ regs, enterCurrent again idle S = .ok (S, regs) := by
  unfold enterCurrent
  cases hc : S.current with
  | none => exact ⟨idle, rfl⟩
  | some p => exact ⟨(S.procs p).savedRegs, if_pos (h.idle p (hcur p hc))⟩

/-- **Any number of switches**, the first of them to the `i`-th process. -/
theorem Rotating.switchAll (calls : List (Bool × Regs)) (h : Rotating S xs) (hne : 0 < xs.length) {i : ℕ}
    (hpick : Process.pickNext S = xs[i % xs.length]?) :
    ∃ S', Process.switchAll again idle calls S =
      .ok ((List.range calls.length).map fun k => xs[(i + k) % xs.length]?, S') := by
  induction calls generalizing S i with
  | nil => exact ⟨S, rfl⟩
  | cons call calls ih =>
    obtain ⟨nullReady, r⟩ := call
    have hmod : i % xs.length < xs.length := Nat.mod_lt _ hne
    have hswitch := h.switch r
    have hcur : (contextSwitch S r).current = xs[i % xs.length]? := by
      rw [(contextSwitch_spec S r).2.2, hpick]
    have hget : (contextSwitch S r).current = some (xs.get ⟨i % xs.length, hmod⟩) := by
      rw [hcur, List.getElem?_eq_getElem hmod]
      rfl
    have hmem : ∀ p, (contextSwitch S r).current = some p → p ∈ xs := by
      intro p hp
      rw [hget] at hp
      obtain rfl := Option.some.inj hp
      exact List.get_mem xs _
    have hpick' : Process.pickNext (contextSwitch S r) = xs[(i + 1) % xs.length]? := by
      rw [hswitch.pickNext hmod hget, Nat.mod_add_mod]
    obtain ⟨regs, henter⟩ := enterCurrent_quiet hswitch hmem
    obtain ⟨S', hrest⟩ := ih hswitch hpick'
    refine ⟨S', ?_⟩
    rw [Process.switchAll, contextSwitchFrom_eq, henter]
    show (do
      let (ps, S') ← Process.switchAll again idle calls (contextSwitch S r)
      return ((contextSwitch S r).current :: ps, S')) = _
    rw [hrest, List.length_cons, List.range_succ_eq_map, List.map_cons, List.map_map, hcur]
    show Except.ok (_ :: _, S') = Except.ok (_ :: _, S')
    congr 3
    apply List.map_congr_left
    intro k _
    show xs[(i + 1 + k) % xs.length]? = xs[(i + (k + 1)) % xs.length]?
    rw [Nat.add_assoc, Nat.add_comm 1 k]

/-- A whole turn of the list, from the `i`-th element on. -/
theorem map_range_rotate (xs : List ℕ) (i : ℕ) :
    ((List.range xs.length).map fun k => xs[(i + k) % xs.length]?) = (xs.rotate i).map some := by
  apply List.ext_getElem
  · simp
  · intro k hk hk'
    have hlt : k < xs.length := by simpa using hk
    have hmod : (i + k) % xs.length < xs.length := Nat.mod_lt _ (by omega)
    simp [List.getElem_rotate, Nat.add_comm k i, List.getElem?_eq_getElem hmod]

/-- **Round robin.**  On a ready list of at least one process, none of which is inside a call, as many calls
of `context_switch` as the list is long make every process current once, in the order of the list: beginning
behind the current process, or with the first process if none is current or the current one is not ready.  In
any state where nobody is current, or only a process that is not ready, one call makes the first of the ready
list current. -/
theorem round_robin (again : Sched → Regs → Except Fault (Sched × Regs)) (idle : Regs) :
    (∀ (S : Sched) (xs : List ℕ) (calls : List (Bool × Regs)), Rotating S xs → xs ≠ [] →
      calls.length = xs.length →
      (∀ i, (hi : i < xs.length) → S.current = some (xs.get ⟨i, hi⟩) →
        ∃ S', switchAll again idle calls S = .ok ((xs.rotate (i + 1)).map some, S')) ∧
      ((∀ p, S.current = some p → (S.procs p).ready = false) →
        ∃ S', switchAll again idle calls S = .ok (xs.map some, S'))) ∧
    ∀ (S : Sched) (nullReady : Bool) (r : Regs),
      (∀ p, S.current = some p → (S.procs p).ready = false) →
      contextSwitchFrom again idle nullReady S r =
        enterCurrent again idle { saveRegs S r with current := S.ready.first } := by
  have hfirst : ∀ (S : Sched) (r : Regs), (∀ p, S.current = some p → (S.procs p).ready = false) →
      contextSwitch S r = { saveRegs S r with current := S.ready.first } := by
    intro S r hS
    have hpick := pickNext_first hS
    have hcur := (contextSwitch_spec S r).2.2
    rw [hpick] at hcur
    show ({ saveRegs S r with current := (contextSwitch S r).current } : Sched) = _
    rw [hcur]
  refine ⟨fun S xs calls h hne hlen => ⟨fun i hi hcur => ?_, fun hS => ?_⟩, fun S nullReady r hS => ?_⟩
  · obtain ⟨S', hok⟩ := h.switchAll calls (List.length_pos_of_ne_nil hne) (h.pickNext hi hcur)
    refine ⟨S', ?_⟩
    rw [hok, hlen, map_range_rotate xs (i + 1)]
  · have hpick : pickNext S = xs[0 % xs.length]? := by
      rw [pickNext_first hS, h.list.first_eq, Nat.zero_mod, List.head?_eq_getElem?]
    obtain ⟨S', hok⟩ := h.switchAll calls (List.length_pos_of_ne_nil hne) hpick
    refine ⟨S', ?_⟩
    rw [hok, hlen, map_range_rotate xs 0, List.rotate_zero]
  · rw [contextSwitchFrom_eq, hfirst S r hS]

/-- Two processes on the ready list, none of them current. -/
def twoReady : Sched := install (install Sched.boot 1 (startedProc 1 0)) 2 (startedProc 2 0)

theorem rotating_twoReady : Rotating twoReady [2, 1] := by
  have h₁ : IsDlist (install Sched.boot 1 (startedProc 1 0)).links
      (install Sched.boot 1 (startedProc 1 0)).ready [1] :=
    (listAdd_spec (isDlist_nil (clearLinks Sched.boot 1).links) (by simp) rfl rfl).1
  have hclear : IsDlist (clearLinks (install Sched.boot 1 (startedProc 1 0)) 2).links
      (install Sched.boot 1 (startedProc 1 0)).ready [1] := by
    apply h₁.congr
    intro x hx
    obtain rfl := List.mem_singleton.mp hx
    exact ⟨rfl, rfl⟩
  have h₂ : IsDlist twoReady.links twoReady.ready [2, 1] := (listAdd_spec hclear (by simp) rfl rfl).1
  refine ⟨h₂, fun p hp => ?_, fun p hp => ?_⟩
  · rcases List.mem_cons.mp hp with rfl | hp
    · rfl
    · obtain rfl := List.mem_singleton.mp hp
      rfl
  · rcases List.mem_cons.mp hp with rfl | hp
    · rfl
    · obtain rfl := List.mem_singleton.mp hp
      rfl

/-- They take turns. -/
theorem round_robin_two : ∃ S', switchAll (fun S r => .ok (S, r)) Regs.zero
    [(true, Regs.zero), (false, Regs.zero)] twoReady = .ok ([some 2, some 1], S') := by
  have hcalls : [(true, Regs.zero), (false, Regs.zero)].length = [2, 1].length := rfl
  exact ((round_robin _ Regs.zero).1 twoReady [2, 1] _ rotating_twoReady (by simp) hcalls).2 fun p hp => by
    cases hp

end AdelaideOS.Process
