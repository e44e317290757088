import AdelaideOS.Kernel.Unchecked

/-!
# Registers across traps

Every process has the processor to itself, as far as it can see: it goes on with the registers that it had when it was
interrupted, and a system call changes nothing but `eax`.  `Due` says what the kernel owes to a process, going by the
last trap of that process alone; `Schedule` follows the dues through the traps of all processes, and through the levels of
the recursion of `syscall` and `context_switch`.

* **`Honoured.switched`**, **`Honoured.executed`** — an interrupt, and an execution of a call;
* **`Schedule.run`** — every schedule is a run;
* **`Schedule.honoured`** — every schedule of `Proper` calls honours what is due.
-/

namespace AdelaideOS.Kernel

open AdelaideOS.Lib.Bytes AdelaideOS.Lib.Triple AdelaideOS.Lib.View AdelaideOS.Process

/-! ### What is due -/

/-- What the kernel owes to a process: to return to user mode with some registers, or to execute its call with these. -/
inductive Due where
  | nothing
  | frame (r : Regs)
  | call (r : Regs)

/-- What is due for a call with the registers `r`, after its handler has returned `res` and left the registers `r'`. -/
def owed (r : Regs) (res : ℤ) (r' : Regs) : Due :=
  if res = -ESUSPEND then .call r
  else if r.eax = SYSCALL_EXECVE ∧ res = 0 then .frame { r' with eax := 0 }
  else .frame { r with eax := ofInt (if r.eax ≠ SYSCALL_GETERRNO ∧ res < 0 then -1 else res) }

/-- Process `p` is interrupted. -/
def interrupted (d : ℕ → Due) (p : Option ℕ) (r : Regs) : ℕ → Due :=
  match p with
  | none => d
  | some p => Function.update d p (.frame r)

/-- A new process starts with the registers `r`. -/
def born (d : ℕ → Due) (k k' : State) (r : Regs) : ℕ → Due := fun q =>
  if k'.sched.Live q ∧ ¬ k.sched.Live q then .frame r else d q

/-- The call of `p` has been executed, and its handler has returned `x`.  A child starts with the registers of its
parent, and with 0 in `eax`. -/
def dueAfter (d : ℕ → Due) (k k' : State) (p : ℕ) (x : ℤ × Regs) : ℕ → Due :=
  match d p with
  | .call r => born (Function.update d p (owed r x.1 x.2)) k k' { r with eax := 0 }
  | _ => d

/-! ### Schedules -/

/-- A page fault in user mode. -/
def handleFault (idle r : Regs) (p : ℕ) : K Next := do
  killProcess p
  switchTo idle r

/-- What has happened since boot: processes are started, the current process stores into its memory or changes its
registers, and traps.  `.back r` is the processor in user mode, or in the idle loop; `.again r` is a level of the recursion
that is about to execute the call in `r`.  Each call satisfied `P` where it was executed. -/
inductive Schedule (m : Machine) (table : ℕ) (idle : Regs) (P : Notes → State → ℕ → Regs → List ℕ → Prop) :
    Notes → (ℕ → Due) → State → Next → Prop where
  | boot (mem bytes : Memory) (blocks : ℕ → Buddy.Blockinfo) :
      Schedule m table idle P Notes.boot (fun _ => .nothing) (State.boot mem bytes blocks) (.back idle)
  | start {n : Notes} {d : ℕ → Due} {k k' : State} {r₀ : Regs} (a : ℕ) : Schedule m table idle P n d k (.back r₀) →
      react m n.input (.event (.start a)) k = .ok () k' →
      Schedule m table idle P (n.next (.event (.start a)) k k') (born d k k' (initRegs PROCESS_STACK_BASE a)) k' (.back r₀)
  | store {n : Notes} {d : ℕ → Due} {k k' : State} {r₀ : Regs} (a : ℕ) (b : UInt8) :
      Schedule m table idle P n d k (.back r₀) → react m n.input (.event (.store a b)) k = .ok () k' →
      Schedule m table idle P (n.next (.event (.store a b)) k k') d k' (.back r₀)
  | fault {n : Notes} {d : ℕ → Due} {k k' : State} {r₀ : Regs} {p : ℕ} {next : Next} (r : Regs) :
      Schedule m table idle P n d k (.back r₀) → k.sched.current = some p → handleFault idle r p k = .ok next k' →
      Schedule m table idle P (n.next (.event (.crash r)) k k') d k' next
  | timer {n : Notes} {d : ℕ → Due} {k k' : State} {r₀ : Regs} {next : Next} (r : Regs) :
      Schedule m table idle P n d k (.back r₀) → handle m idle n.input (.timer r) k = .ok next k' →
      Schedule m table idle P (n.next (.event (.switch r)) k k') (interrupted d k.sched.current r) k' next
  | key {n : Notes} {d : ℕ → Due} {k k' : State} {r₀ : Regs} {next : Next} (r : Regs) (c : UInt8) :
      Schedule m table idle P n d k (.back r₀) → handle m idle n.input (.key r c) k = .ok next k' →
      Schedule m table idle P (n.next (.key r c) k k') (interrupted d k.sched.current r) k' next
  | call {n : Notes} {d : ℕ → Due} {k k₁ k' : State} {r₀ : Regs} {p : ℕ} {x : ℤ × Regs} {next : Next} (r : Regs)
      (args : List ℕ) : Schedule m table idle P n d k (.back r₀) → k.sched.current = some p → Fetched k p r args →
      P n k p r args → executesAt m table p r args k = .ok x k₁ → syscallAt m table idle r args k = .ok next k' →
      Schedule m table idle P (n.next (.event (.call r args)) k k') (dueAfter (Function.update d p (.call r)) k k' p x) k'
        next
  | level {n : Notes} {d : ℕ → Due} {k k₁ k' : State} {r : Regs} {p : ℕ} {x : ℤ × Regs} {next : Next} (args : List ℕ) :
      Schedule m table idle P n d k (.again r) → k.sched.current = some p → Fetched k p r args →
      P n k p r args → executesAt m table p r args k = .ok x k₁ → syscallAt m table idle r args k = .ok next k' →
      Schedule m table idle P (n.next (.event (.call r args)) k k') (dueAfter d k k' p x) k' next

/-- `kill` and `send` are aimed at processes that can still be killed and written to. -/
def Aimed (n : Notes) (k : State) (_p : ℕ) (r : Regs) (args : List ℕ) : Prop := (Input.event (.call r args)).Fair n k

/-- And no status is stored into memory of the kernel. -/
def Proper (n : Notes) (k : State) (p : ℕ) (r : Regs) (args : List ℕ) : Prop := Aimed n k p r args ∧ Spares k p r args

variable {m : Machine} {P : Notes → State → ℕ → Regs → List ℕ → Prop} {n : Notes} {d : ℕ → Due} {k k₁ k' : State}
  {idle r r₀ : Regs} {p q table : ℕ} {args : List ℕ} {x : ℤ × Regs} {next : Next}

/-! ### The table and the dues -/

/-- The entry of a process that is not in user mode holds what is due to it. -/
inductive Matches (v : Proc) : Due → Prop where
  | frame : v.inSyscall = 0 → Matches v (.frame v.savedRegs)
  | call : v.inSyscall = v.savedRegs.eax → v.inSyscall ≠ 0 → Matches v (.call v.savedRegs)

/-- The dues are those of the processes in the table, and of the one that is in user mode. -/
structure Honoured (d : ℕ → Due) (k : State) (next : Next) : Prop where
  saved : ∀ q, k.sched.Live q → ((∃ r, next = .back r) → k.sched.current ≠ some q) → Matches (k.sched.procs q) (d q)
  back : ∀ r p, next = .back r → k.sched.current = some p → d p = .frame r ∧ (k.sched.procs p).inSyscall = 0
  again : ∀ r, next = .again r →
    ∃ p, k.sched.current = some p ∧ (k.sched.procs p).savedRegs = r ∧ (k.sched.procs p).inSyscall ≠ 0

theorem Matches.back {v : Proc} {u : Due} (h : Matches v u) (hcall : v.inSyscall = 0) : u = .frame v.savedRegs := by
  cases h with
  | frame => rfl
  | call _ hne => exact absurd hcall hne

theorem Matches.again {v : Proc} {u : Due} (h : Matches v u) (hcall : v.inSyscall ≠ 0) :
    u = .call v.savedRegs ∧ v.inSyscall = v.savedRegs.eax := by
  cases h with
  | frame hzero => exact absurd hzero hcall
  | call heq => exact ⟨rfl, heq⟩

/-- Only the registers and the pending call of an entry matter. -/
theorem Matches.congr {v w : Proc} {u : Due} (h : Matches v u) (hregs : w.savedRegs = v.savedRegs)
    (hcall : w.inSyscall = v.inSyscall) : Matches w u := by
  cases h with
  | frame hzero =>
    rw [← hregs]
    exact .frame (hcall.trans hzero)
  | call heq hne =>
    rw [← hregs] at heq ⊢
    exact .call (hcall.trans heq) (by rw [hcall]; exact hne)

/-! ### Switching -/

theorem switchTo_state (hok : switchTo idle r k = .ok next k') : k' = { k with sched := contextSwitch k.sched r } := by
  obtain ⟨next', hok', -⟩ := switchTo_eq idle r k
  exact (EStateM.Result.ok.inj (hok.symm.trans hok')).2

/-- **A switch** gives the process that it picks what is due to it. -/
theorem switchTo_honoured (hok : switchTo idle r k = .ok next k') (hG : Good k'.sched)
    (hd : ∀ q, k'.sched.Live q → Matches (k'.sched.procs q) (d q)) : Honoured d k' next := by
  obtain ⟨_, k₁, hswitch, hnext⟩ := bind_ok hok
  cases hswitch
  rw [run_get] at hnext
  cases hcur : (contextSwitch k.sched r).current with
  | none =>
    simp only [hcur] at hnext
    cases hnext
    refine ⟨fun q hq _ => hd q hq, fun r' p _ hp => ?_, fun r' hr' => by cases hr'⟩
    rw [show (contextSwitch k.sched r).current = some p from hp] at hcur
    cases hcur
  | some c =>
    simp only [hcur] at hnext
    have hlive := fun hG : Good (contextSwitch k.sched r) => hG.current_live hcur
    by_cases hcall : ((contextSwitch k.sched r).procs c).inSyscall = 0
    · rw [if_pos hcall] at hnext
      cases hnext
      refine ⟨fun q hq _ => hd q hq, fun r' p hr' hp => ?_, fun r' hr' => by cases hr'⟩
      obtain rfl : c = p := Option.some.inj (hcur.symm.trans hp)
      cases hr'
      exact ⟨(hd c (hlive hG)).back hcall, hcall⟩
    · rw [if_neg hcall] at hnext
      cases hnext
      refine ⟨fun q hq _ => hd q hq, fun r' p hr' => (by cases hr'), fun r' hr' => ?_⟩
      cases hr'
      exact ⟨c, hcur, rfl, hcall⟩

/-- **An interrupt** of the current process. -/
theorem Honoured.switched (h : Honoured d k (.back r₀)) (hsame : k₁.outline = k.outline)
    (hok : switchTo idle r k₁ = .ok next k') (hG : Good k'.sched) :
    Honoured (interrupted d k.sched.current r) k' next := by
  have hstand : ∀ q, standingOf (k₁.sched.procs q) = standingOf (k.sched.procs q) := congrFun (congrArg Outline.table hsame)
  have hcur : k₁.sched.current = k.sched.current := congrArg Outline.current hsame
  refine switchTo_honoured hok hG fun q hq => ?_
  rw [switchTo_state hok] at hq ⊢
  have hlive : k.sched.Live q := by
    have hq₁ := (live_contextSwitch k₁.sched r q).mp hq
    exact ⟨(congrArg Standing.exists_ (hstand q)).symm.trans hq₁.1, (congrArg Standing.exited (hstand q)).symm.trans hq₁.2⟩
  have hregs := congrArg Standing.savedRegs (hstand q)
  have hcall := congrArg Standing.inSyscall (hstand q)
  show Matches ((contextSwitch k₁.sched r).procs q) _
  rw [contextSwitch_procs, hcur]
  by_cases hqc : k.sched.current = some q
  · -- its registers are saved
    have hzero := (h.back r₀ q rfl hqc).2
    rw [if_pos hqc, hqc]
    show Matches _ (Function.update d q (.frame r) q)
    rw [Function.update_self]
    exact .frame (hcall.trans hzero)
  · rw [if_neg hqc]
    have hold := (h.saved q hlive fun _ => hqc).congr hregs hcall
    cases hc : k.sched.current with
    | none => exact hold
    | some c =>
      show Matches _ (Function.update d c (.frame r) q)
      rw [Function.update_of_ne (by rintro rfl; exact hqc hc)]
      exact hold

/-! ### The end of a call -/

/-- A call that has not suspended its caller goes back to it, with the result in `eax`. -/
theorem finish_back {old no : ℕ} {res : ℤ} (hres : res ≠ -ESUSPEND) (hcur : k.sched.current = some old)
    (hok : finish idle old no r res k = .ok next k') :
    next = .back { r with eax := ofInt (if no ≠ SYSCALL_GETERRNO ∧ res < 0 then -1 else res) } ∧
      k'.sched.current = some old ∧ ∀ q, (k'.sched.procs q).savedRegs = (k.sched.procs q).savedRegs ∧
        (k'.sched.procs q).inSyscall = if q = old then 0 else (k.sched.procs q).inSyscall := by
  have hvalue : (storeErrno k.sched no res).1 = if no ≠ SYSCALL_GETERRNO ∧ res < 0 then -1 else res := by
    unfold storeErrno
    by_cases hno : no = SYSCALL_GETERRNO
    · rw [if_neg fun h => h.1 hno, if_neg fun h => h.1 hno]
    · rw [if_pos ⟨hno, hres⟩, hcur]
      by_cases hneg : res < 0
      · rw [if_pos ⟨hno, hneg⟩]
        simp only [if_pos hneg]
      · rw [if_neg fun h => hneg h.2]
        simp only [if_neg hneg]
  obtain ⟨-, -, hcur', hsus⟩ := storeErrno_spec k.sched no res
  have hproc := storeErrno_proc k.sched no res
  unfold finish at hok
  rw [run_get] at hok
  generalize storeErrno k.sched no res = y at hok hvalue hcur' hsus hproc
  obtain ⟨res', S⟩ := y
  obtain ⟨_, k₁, h₁, hok⟩ := bind_ok hok
  cases h₁
  rw [if_neg fun h => hres (hsus.mp h)] at hok
  obtain ⟨_, k₂, h₂, hok⟩ := bind_ok hok
  cases h₂
  rw [run_get] at hok
  rw [if_pos (show (S.set old { S.procs old with inSyscall := 0 }).current = some old from hcur'.trans hcur)] at hok
  cases hok
  refine ⟨by rw [← hvalue], hcur'.trans hcur, fun q => ?_⟩
  obtain ⟨e, he⟩ := hproc q
  replace he : S.procs q = { k.sched.procs q with lastErrno := e } := he
  show ((S.set old { S.procs old with inSyscall := 0 }).procs q).savedRegs = _ ∧ ((S.set old _).procs q).inSyscall = _
  rw [set_procs]
  by_cases hq : q = old
  · rw [← hq, Function.update_self, he, if_pos rfl]
    exact ⟨rfl, rfl⟩
  · rw [Function.update_of_ne hq, he, if_neg hq]
    exact ⟨rfl, rfl⟩

/-- A call that has killed its caller. -/
theorem finish_away {old no : ℕ} {res : ℤ} (hres : res ≠ -ESUSPEND) (hcur : k.sched.current = none)
    (hok : finish idle old no r res k = .ok next k') :
    ∃ r', switchTo idle r' { k with sched := k.sched.set old { k.sched.procs old with inSyscall := 0 } } = .ok next k' := by
  have hvalue : storeErrno k.sched no res = (res, k.sched) := by
    unfold storeErrno
    rw [hcur]
    split_ifs <;> rfl
  unfold finish at hok
  rw [run_get, hvalue] at hok
  obtain ⟨_, k₁, h₁, hok⟩ := bind_ok hok
  cases h₁
  rw [if_neg hres] at hok
  obtain ⟨_, k₂, h₂, hok⟩ := bind_ok hok
  cases h₂
  rw [run_get] at hok
  rw [if_neg (show (k.sched.set old { k.sched.procs old with inSyscall := 0 }).current ≠ some old by
    rw [show (k.sched.set old { k.sched.procs old with inSyscall := 0 }).current = none from hcur]
    simp)] at hok
  exact ⟨_, hok⟩

/-! ### What a handler does to the table -/

section

variable {fs : Memory} {no : ℕ} {o o' : Outline}

/-- A process that is alive after a handler is as it was, or has just been forked. -/
theorem Turn.entry (h : Turn fs p no r args o x o') (hq : o'.Live q) :
    (o.Live q ∧ (o'.table q).savedRegs = (o.table q).savedRegs ∧ (o'.table q).inSyscall = (o.table q).inSyscall) ∨
      ¬ o.Live q ∧ o'.table q = ⟨true, false, { r with eax := 0 }, 0⟩ := by
  cases h with
  | wrote res o' hs =>
    obtain ⟨P, -, rfl⟩ := hs
    exact Or.inl ⟨hq, rfl, rfl⟩
  | forked child pdir P hno hfree =>
    by_cases hc : q = child
    · right
      rw [hc]
      refine ⟨fun hlive => ?_, Function.update_self _ _ _⟩
      have hunused := List.find?_some hfree
      rw [hlive.1] at hunused
      cases hunused
    · left
      unfold Outline.Live Outline.install at hq
      simp only [Function.update_of_ne hc] at hq
      exact ⟨hq, by simp [Outline.install, hc], by simp [Outline.install, hc]⟩
  | killed res z e P =>
    obtain ⟨hlive, hz⟩ := Outline.live_kill.mp hq
    exact Or.inl ⟨hlive, by simp [Outline.kill, hz], by simp [Outline.kill, hz]⟩
  | grown res P => exact Or.inl ⟨hq, rfl, rfl⟩
  | loaded r' o' hno hload =>
    obtain ⟨path, entry, P, -, -, P', -, rfl⟩ := hload
    exact Or.inl ⟨hq, rfl, rfl⟩
  | reaped res o₁ o' hreap hs =>
    obtain ⟨P, -, rfl⟩ := hs
    have hlive := hreap.live.mp (show o₁.Live q from hq)
    obtain ⟨e, rfl, -⟩ := hreap
    exact Or.inl ⟨hlive, rfl, rfl⟩

/-- The caller goes on, or has been killed. -/
theorem Turn.current (h : Turn fs p no r args o x o') (hcur : o.current = some p) :
    o'.current = some p ∨ o'.current = none ∧ ¬ o'.Live p := by
  cases h with
  | wrote res o' hs =>
    obtain ⟨P, -, rfl⟩ := hs
    exact Or.inl hcur
  | forked child pdir P => exact Or.inl hcur
  | killed res z e P =>
    by_cases hz : z = p
    · right
      rw [hz]
      exact ⟨if_pos hcur, fun hlive => (Outline.live_kill.mp hlive).2 rfl⟩
    · left
      show (if o.current = some z then none else o.current) = some p
      rw [if_neg (by rw [hcur]; simpa using Ne.symm hz), hcur]
  | grown res P => exact Or.inl hcur
  | loaded r' o' hno hload =>
    obtain ⟨path, entry, P, -, -, P', -, rfl⟩ := hload
    exact Or.inl hcur
  | reaped res o₁ o' hreap hs =>
    obtain ⟨P, -, rfl⟩ := hs
    obtain ⟨e, rfl, -⟩ := hreap
    exact Or.inl hcur

/-- Only `execve` touches the registers of the caller. -/
theorem Turn.regs (h : Turn fs p no r args o x o') : x.2 = r ∨ no = SYSCALL_EXECVE ∧ x.1 = 0 := by
  cases h with
  | loaded r' o' hno => exact Or.inr ⟨hno, rfl⟩
  | _ => exact Or.inl rfl

end

/-! ### A call -/

/-- A handler that returns `-ESUSPEND` is one of a known call. -/
theorem known_of_suspends (hdis : dispatch m p r r.eax args k = .ok x k₁) (hsus : x.1 = -ESUSPEND) : r.eax ≠ 0 := by
  intro hzero
  -- the call 0 is unknown, and unknown calls return
  rw [hzero, (unknown_call (by decide) _).1] at hdis
  obtain ⟨res, r'⟩ := x
  obtain ⟨hres, -⟩ := keep_ok hdis
  obtain ⟨_, k₄, -, hpure⟩ := bind_ok hres
  obtain ⟨hval, -⟩ := EStateM.Result.ok.inj hpure
  exact absurd (hval.trans hsus) (by decide)

/-- The entries after a handler has been executed for `p`. -/
structure Executed (p : ℕ) (r : Regs) (x : ℤ × Regs) (k k₁ : State) : Prop where
  caller : k₁.sched.Live p → (k₁.sched.procs p).inSyscall = r.eax
  old : ∀ q, q ≠ p → k₁.sched.Live q → k.sched.Live q →
    (k₁.sched.procs q).savedRegs = (k.sched.procs q).savedRegs ∧ (k₁.sched.procs q).inSyscall = (k.sched.procs q).inSyscall
  new : ∀ q, k₁.sched.Live q → ¬ k.sched.Live q →
    (k₁.sched.procs q).savedRegs = { r with eax := 0 } ∧ (k₁.sched.procs q).inSyscall = 0
  current : k₁.sched.current = some p ∨ k₁.sched.current = none ∧ ¬ k₁.sched.Live p
  regs : x.2 = r ∨ r.eax = SYSCALL_EXECVE ∧ x.1 = 0
  call : x.1 = -ESUSPEND → r.eax ≠ 0

theorem dispatch_executed (hcur : k.sched.current = some p) (hp : k.sched.Live p)
    (hdis : dispatch m p r r.eax args { k with sched := enter k.sched p r.eax } = .ok x k₁) : Executed p r x k k₁ := by
  have hturn : Turn m.filesystem p r.eax r args ({ k with sched := enter k.sched p r.eax } : State).outline x k₁.outline :=
    (acts_dispatch m r.eax r args _).ok rfl hdis
  have hlive : ∀ q, ({ k with sched := enter k.sched p r.eax } : State).outline.Live q ↔ k.sched.Live q :=
    live_enter k.sched p r.eax
  have hentry : ∀ q, (enter k.sched p r.eax).procs q =
      { k.sched.procs q with inSyscall := if q = p then r.eax else (k.sched.procs q).inSyscall } :=
    enter_proc k.sched p r.eax
  refine ⟨fun hp₁ => ?_, fun q hq hq₁ hq₀ => ?_, fun q hq₁ hq₀ => ?_, hturn.current hcur, hturn.regs,
    known_of_suspends hdis⟩
  · rcases hturn.entry (q := p) hp₁ with ⟨-, -, h⟩ | ⟨h, -⟩
    · replace h : (k₁.sched.procs p).inSyscall = ((enter k.sched p r.eax).procs p).inSyscall := h
      rw [h, hentry]
      exact if_pos rfl
    · exact absurd ((hlive p).mpr hp) h
  · rcases hturn.entry (q := q) hq₁ with ⟨-, hregs, h⟩ | ⟨h, -⟩
    · replace hregs : (k₁.sched.procs q).savedRegs = ((enter k.sched p r.eax).procs q).savedRegs := hregs
      replace h : (k₁.sched.procs q).inSyscall = ((enter k.sched p r.eax).procs q).inSyscall := h
      rw [hregs, h, hentry]
      exact ⟨rfl, if_neg hq⟩
    · exact absurd ((hlive q).mpr hq₀) h
  · rcases hturn.entry (q := q) hq₁ with ⟨h, -⟩ | ⟨-, h⟩
    · exact absurd ((hlive q).mp h) hq₀
    · exact ⟨congrArg Standing.savedRegs h, congrArg Standing.inSyscall h⟩

/-- What is due to the caller. -/
theorem dueAfter_self (hd : d p = .call r) (hp : k.sched.Live p) : dueAfter d k k' p x p = owed r x.1 x.2 := by
  unfold dueAfter
  rw [hd]
  show (if k'.sched.Live p ∧ ¬ k.sched.Live p then _ else Function.update d p _ p) = _
  rw [if_neg fun h => h.2 hp, Function.update_self]

section

variable (he : Executed p r x k k₁) (hlive : ∀ q, k'.sched.Live q ↔ k₁.sched.Live q) (hd : d p = .call r)
  (hsaved : ∀ q, q ≠ p → k.sched.Live q → Matches (k.sched.procs q) (d q))

include he hlive hd hsaved

/-- What is due to the others. -/
theorem Executed.others {v : Proc} (hq : q ≠ p) (hq' : k'.sched.Live q) (hregs : v.savedRegs = (k₁.sched.procs q).savedRegs)
    (hcall : v.inSyscall = (k₁.sched.procs q).inSyscall) : Matches v (dueAfter d k k' p x q) := by
  have hq₁ := (hlive q).mp hq'
  unfold dueAfter
  rw [hd]
  show Matches v (if k'.sched.Live q ∧ ¬ k.sched.Live q then _ else Function.update d p _ q)
  by_cases hq₀ : k.sched.Live q
  · rw [if_neg fun h => h.2 hq₀, Function.update_of_ne hq]
    obtain ⟨h1, h2⟩ := he.old q hq hq₁ hq₀
    exact (hsaved q hq hq₀).congr (hregs.trans h1) (hcall.trans h2)
  · rw [if_pos ⟨hq', hq₀⟩]
    obtain ⟨h1, h2⟩ := he.new q hq₁ hq₀
    rw [← h1, ← hregs]
    exact .frame (hcall.trans h2)

/-- **The call is still to be done.** -/
theorem Executed.suspended (hres : x.1 = -ESUSPEND) (hp : k.sched.Live p) (hok : switchTo idle r k₁ = .ok next k')
    (hG : Good k'.sched) : Honoured (dueAfter d k k' p x) k' next := by
  refine switchTo_honoured hok hG fun q hq => ?_
  obtain rfl := switchTo_state hok
  have hentry := contextSwitch_procs k₁.sched r q
  by_cases hqp : q = p
  · have hp₁ := (hlive p).mp (hqp ▸ hq)
    have hcur₁ : k₁.sched.current = some p := he.current.resolve_right fun h => h.2 hp₁
    rw [hqp, hcur₁, if_pos rfl] at hentry
    rw [hqp, dueAfter_self hd hp, owed, if_pos hres]
    show Matches ((contextSwitch k₁.sched r).procs p) _
    rw [hentry]
    have hcall := he.caller hp₁
    exact .call hcall (by rw [show (_ : ℕ) = r.eax from hcall]; exact he.call hres)
  · have hcur₁ : k₁.sched.current ≠ some q := by
      rcases he.current with h | ⟨h, -⟩
      · rw [h]
        exact fun h' => hqp (Option.some.inj h').symm
      · rw [h]
        simp
    rw [if_neg hcur₁] at hentry
    refine he.others hlive hd hsaved hqp hq ?_ ?_
    · exact congrArg Proc.savedRegs hentry
    · exact congrArg Proc.inSyscall hentry

/-- **The call has been completed.** -/
theorem Executed.completed (hres : x.1 ≠ -ESUSPEND) (hp : k.sched.Live p) (hcur₁ : k₁.sched.current = some p)
    (hok : finish idle p r.eax x.2 x.1 k₁ = .ok next k') : Honoured (dueAfter d k k' p x) k' next := by
  obtain ⟨rfl, hcur', hsame⟩ := finish_back hres hcur₁ hok
  refine ⟨fun q hq hne => ?_, fun r' q hr' hq => ?_, fun r' hr' => by cases hr'⟩
  · have hqp : q ≠ p := by
      rintro rfl
      exact hne ⟨_, rfl⟩ hcur'
    obtain ⟨hregs, hcall⟩ := hsame q
    rw [if_neg hqp] at hcall
    exact he.others hlive hd hsaved hqp hq hregs hcall
  · obtain rfl : p = q := Option.some.inj (hcur'.symm.trans hq)
    obtain ⟨-, hcall⟩ := hsame p
    rw [if_pos rfl] at hcall
    refine ⟨?_, hcall⟩
    rw [dueAfter_self hd hp, owed, if_neg hres]
    cases hr'
    rcases he.regs with h | ⟨hno, hzero⟩
    · rw [h]
      by_cases hexec : r.eax = SYSCALL_EXECVE ∧ x.1 = 0
      · rw [if_pos hexec, hexec.2]
        simp [ofInt]
      · rw [if_neg hexec]
    · rw [if_pos ⟨hno, hzero⟩, hzero]
      simp [ofInt]

/-- **The caller is dead.** -/
theorem Executed.killed (hres : x.1 ≠ -ESUSPEND) (hcur₁ : k₁.sched.current = none) (hdead : ¬ k₁.sched.Live p)
    (hok : finish idle p r.eax x.2 x.1 k₁ = .ok next k') (hG : Good k'.sched) : Honoured (dueAfter d k k' p x) k' next := by
  obtain ⟨r', hswitch⟩ := finish_away hres hcur₁ hok
  refine switchTo_honoured hswitch hG fun q hq => ?_
  have hqp : q ≠ p := by
    rintro rfl
    exact hdead ((hlive q).mp hq)
  let S := k₁.sched.set p { k₁.sched.procs p with inSyscall := 0 }
  obtain rfl := switchTo_state hswitch
  have hentry : (contextSwitch S r').procs q = k₁.sched.procs q := by
    rw [contextSwitch_procs, if_neg (by rw [show S.current = none from hcur₁]; simp)]
    exact Function.update_of_ne hqp _ _
  refine he.others hlive hd hsaved hqp hq ?_ ?_
  · exact congrArg Proc.savedRegs hentry
  · exact congrArg Proc.inSyscall hentry

end

/-- **An execution of a call**, of the process that is current. -/
theorem Honoured.executed (hsaved : ∀ q, q ≠ p → k.sched.Live q → Matches (k.sched.procs q) (d q)) (hd : d p = .call r)
    (hcur : k.sched.current = some p) (hp : k.sched.Live p) (hspares : Spares k p r args)
    (hx : executesAt m table p r args k = .ok x k₁) (hok : syscallAt m table idle r args k = .ok next k')
    (hG : Good k'.sched) : Honoured (dueAfter d k k' p x) k' next := by
  replace hok := syscallAt_finish hcur hx hok
  rw [executesAt_eq hspares] at hx
  have he := dispatch_executed hcur hp hx
  obtain ⟨next', hfinish⟩ := finish_eq idle p r.eax x.2 x.1 k₁
  have hlive : ∀ q, k'.sched.Live q ↔ k₁.sched.Live q := by
    obtain ⟨-, hk'⟩ := EStateM.Result.ok.inj (hok.symm.trans hfinish)
    rw [hk']
    exact live_leave k₁.sched p r.eax x.2 x.1
  by_cases hres : x.1 = -ESUSPEND
  · have hr : x.2 = r := he.regs.resolve_right fun h => by
      rw [h.2] at hres
      exact absurd hres (by decide)
    rw [hres, finish_suspended, hr] at hok
    exact he.suspended hlive hd hsaved hres hp hok hG
  · rcases he.current with hcur₁ | ⟨hcur₁, hdead⟩
    · exact he.completed hlive hd hsaved hres hp hcur₁ hok
    · exact he.killed hlive hd hsaved hres hcur₁ hdead hok hG

/-! ### Schedules are runs -/

/-- A level of the recursion is a call of the current process. -/
theorem react_call {input : Option ℕ} (hcur : k.sched.current = some p) (hspares : Spares k p r args)
    (hx : executesAt m table p r args k = .ok x k₁) (hok : syscallAt m table idle r args k = .ok next k') :
    react m input (.event (.call r args)) k = .ok () k' := by
  replace hok := syscallAt_finish hcur hx hok
  rw [executesAt_eq hspares] at hx
  obtain ⟨next', hfinish⟩ := finish_eq idle p r.eax x.2 x.1 k₁
  obtain ⟨-, rfl⟩ := EStateM.Result.ok.inj (hok.symm.trans hfinish)
  exact react_dispatch input hcur hx

/-- A page fault. -/
theorem react_fault {input : Option ℕ} (hcur : k.sched.current = some p) (hok : handleFault idle r p k = .ok next k') :
    react m input (.event (.crash r)) k = .ok () k' := by
  obtain ⟨_, k₁, hkill, hswitch⟩ := bind_ok hok
  show asCurrent (crashWith r) k = _
  unfold asCurrent
  rw [run_get, hcur]
  show (killProcess p >>= fun _ => schedDo fun S => .ok (contextSwitch S r)) k = _
  rw [run_bind hkill, switchTo_state hswitch]
  rfl

theorem react_timer {input : Option ℕ} (hok : handle m idle input (.timer r) k = .ok next k') :
    react m input (.event (.switch r)) k = .ok () k' := by
  rw [switchTo_state hok]
  rfl

theorem react_key {input : Option ℕ} {c : UInt8} (hok : handle m idle input (.key r c) k = .ok next k') :
    react m input (.key r c) k = .ok () k' := by
  obtain ⟨_, k₁, htype, hswitch⟩ := bind_ok hok
  show (typeKey c input >>= fun _ => schedDo fun S => .ok (contextSwitch S r)) k = _
  rw [run_bind htype, switchTo_state hswitch]
  rfl

/-- **Every schedule** of calls that spare the kernel is a run. -/
theorem Schedule.run {Q : Notes → State → Input → Prop} (h : Schedule m table idle P n d k next)
    (hspares : ∀ n k p r args, P n k p r args → Spares k p r args)
    (hcall : ∀ n k p r args, P n k p r args → Q n k (.event (.call r args)))
    (hother : ∀ n k i, (∀ r args, i ≠ .event (.call r args)) → Q n k i) : ∃ B, Run m Q n B k := by
  induction h with
  | boot mem bytes blocks => exact ⟨_, .boot mem bytes blocks⟩
  | start a _ hok ih =>
    obtain ⟨B, hrun⟩ := ih
    exact ⟨_, hrun.step _ (hother _ _ _ fun _ _ h => by cases h) hok⟩
  | store a b _ hok ih =>
    obtain ⟨B, hrun⟩ := ih
    exact ⟨_, hrun.step _ (hother _ _ _ fun _ _ h => by cases h) hok⟩
  | fault r _ hcur hok ih =>
    obtain ⟨B, hrun⟩ := ih
    exact ⟨_, hrun.step _ (hother _ _ _ fun _ _ h => by cases h) (react_fault hcur hok)⟩
  | timer r _ hok ih =>
    obtain ⟨B, hrun⟩ := ih
    exact ⟨_, hrun.step _ (hother _ _ _ fun _ _ h => by cases h) (react_timer hok)⟩
  | key r c _ hok ih =>
    obtain ⟨B, hrun⟩ := ih
    exact ⟨_, hrun.step _ (hother _ _ _ fun _ _ h => by cases h) (react_key hok)⟩
  | call r args _ hcur _ hP hx hok ih =>
    obtain ⟨B, hrun⟩ := ih
    exact ⟨_, hrun.step _ (hcall _ _ _ _ _ hP) (react_call hcur (hspares _ _ _ _ _ hP) hx hok)⟩
  | level args _ hcur _ hP hx hok ih =>
    obtain ⟨B, hrun⟩ := ih
    exact ⟨_, hrun.step _ (hcall _ _ _ _ _ hP) (react_call hcur (hspares _ _ _ _ _ hP) hx hok)⟩

/-- The conditions on the calls can be weakened. -/
theorem Schedule.mono {Q : Notes → State → ℕ → Regs → List ℕ → Prop} (h : Schedule m table idle P n d k next)
    (hQ : ∀ n k p r args, P n k p r args → Q n k p r args) : Schedule m table idle Q n d k next := by
  induction h with
  | boot mem bytes blocks => exact .boot mem bytes blocks
  | start a _ hok ih => exact ih.start a hok
  | store a b _ hok ih => exact ih.store a b hok
  | fault r _ hcur hok ih => exact ih.fault r hcur hok
  | timer r _ hok ih => exact ih.timer r hok
  | key r c _ hok ih => exact ih.key r c hok
  | call r args _ hcur hargs hP hx hok ih => exact ih.call r args hcur hargs (hQ _ _ _ _ _ hP) hx hok
  | level args _ hcur hargs hP hx hok ih => exact ih.level args hcur hargs (hQ _ _ _ _ _ hP) hx hok

theorem Schedule.good (h : Schedule m table idle Proper n d k next) : Good k.sched := by
  obtain ⟨B, hrun⟩ := h.run (Q := fun n k i => i.Fair n k) (fun _ _ _ _ _ hP => hP.2) (fun _ _ _ _ _ hP => hP.1)
    fun n k i hi => by
      cases i with
      | key => trivial
      | event ev =>
        cases ev with
        | call r args => exact absurd rfl (hi r args)
        | start | crash | store | switch => trivial
  obtain ⟨-, -, C, hwhole, -⟩ := hrun.standing fun _ _ _ h => h
  exact hwhole.good

/-! ### Along a schedule -/

theorem Honoured.fault (h : Honoured d k (.back r₀)) (hcur : k.sched.current = some p)
    (hok : handleFault idle r p k = .ok next k') (hG : Good k'.sched) : Honoured d k' next := by
  obtain ⟨_, k₁, hkill, hswitch⟩ := bind_ok hok
  obtain ⟨e, P, -, -, ho⟩ := (acts_killProcess p).ok rfl hkill
  refine switchTo_honoured hswitch hG fun q hq => ?_
  rw [switchTo_state hswitch] at hq ⊢
  have hlive₁ : k₁.outline.Live q := (live_contextSwitch k₁.sched r q).mp hq
  rw [ho] at hlive₁
  obtain ⟨hlive, hne⟩ := Outline.live_kill.mp hlive₁
  have hcur₁ : k₁.sched.current = none := by
    have := congrArg Outline.current ho
    exact this.trans (if_pos hcur)
  have hstand : standingOf (k₁.sched.procs q) = standingOf (k.sched.procs q) := by
    have := congrFun (congrArg Outline.table ho) q
    exact this.trans (Function.update_of_ne hne _ _)
  show Matches ((contextSwitch k₁.sched r).procs q) _
  rw [contextSwitch_procs, hcur₁, if_neg (by simp)]
  refine (h.saved q hlive fun _ => ?_).congr (congrArg Standing.savedRegs hstand) (congrArg Standing.inSyscall hstand)
  rw [hcur]
  exact fun he => hne (Option.some.inj he).symm

/-- Nothing has happened but that the caller's memory has changed. -/
theorem Honoured.store {a : ℕ} {b : UInt8} {input : Option ℕ} (h : Honoured d k (.back r₀))
    (hok : react m input (.event (.store a b)) k = .ok () k') : Honoured d k' (.back r₀) := by
  cases react_stirs hok with
  | stored _ _ p _ hcur hs =>
    obtain ⟨P, -, ho⟩ := hs
    have hstand : ∀ q, standingOf (k'.sched.procs q) = standingOf (k.sched.procs q) := congrFun (congrArg Outline.table ho)
    have hcur' : k'.sched.current = k.sched.current := congrArg Outline.current ho
    refine ⟨fun q hq hne => ?_, fun r' q hr' hq => ?_, fun r' hr' => by cases hr'⟩
    · have hlive : k.sched.Live q :=
        ⟨(congrArg Standing.exists_ (hstand q)).symm.trans hq.1, (congrArg Standing.exited (hstand q)).symm.trans hq.2⟩
      rw [hcur'] at hne
      exact (h.saved q hlive hne).congr (congrArg Standing.savedRegs (hstand q)) (congrArg Standing.inSyscall (hstand q))
    · rw [hcur'] at hq
      obtain ⟨hdue, hcall⟩ := h.back r' q hr' hq
      exact ⟨hdue, (congrArg Standing.inSyscall (hstand q)).trans hcall⟩

/-- **A new process.** -/
theorem Honoured.start {a : ℕ} {input : Option ℕ} (h : Honoured d k (.back r₀)) (hG : Good k.sched)
    (hok : react m input (.event (.start a)) k = .ok () k') :
    Honoured (born d k k' (initRegs PROCESS_STACK_BASE a)) k' (.back r₀) := by
  cases react_stirs hok with
  | full _ hfree =>
    have hsame : born d k k (initRegs PROCESS_STACK_BASE a) = d := by
      funext q
      exact if_neg fun hq => hq.2 hq.1
    rw [hsame]
    exact h
  | started _ pid pdir P _ hfree hP ho =>
    have hstand := congrFun (congrArg Outline.table ho)
    have hcur' : k'.sched.current = k.sched.current := congrArg Outline.current ho
    have hold : ∀ q, q ≠ pid → standingOf (k'.sched.procs q) = standingOf (k.sched.procs q) :=
      fun q hq => (hstand q).trans (Function.update_of_ne hq _ _)
    have hnew : standingOf (k'.sched.procs pid) = ⟨true, false, initRegs PROCESS_STACK_BASE a, 0⟩ :=
      (hstand pid).trans (Function.update_self _ _ _)
    have hlive : ∀ q, q ≠ pid → (k'.sched.Live q ↔ k.sched.Live q) := by
      intro q hq
      rw [Sched.Live, Sched.Live, show (k'.sched.procs q).exists_ = _ from congrArg Standing.exists_ (hold q hq),
        show (k'.sched.procs q).exited = _ from congrArg Standing.exited (hold q hq)]
      exact Iff.rfl
    have hdead : ¬ k.sched.Live pid := not_live_of_free hfree
    have hdue : ∀ q, q ≠ pid → born d k k' (initRegs PROCESS_STACK_BASE a) q = d q := by
      intro q hq
      exact if_neg fun hc => hc.2 ((hlive q hq).mp hc.1)
    refine ⟨fun q hq hne => ?_, fun r' q hr' hq => ?_, fun r' hr' => by cases hr'⟩
    · by_cases hqp : q = pid
      · subst hqp
        have hregs : (k'.sched.procs q).savedRegs = initRegs PROCESS_STACK_BASE a := congrArg Standing.savedRegs hnew
        rw [born, if_pos ⟨hq, hdead⟩, ← hregs]
        exact .frame (congrArg Standing.inSyscall hnew)
      · rw [hdue q hqp]
        rw [hcur'] at hne
        exact (h.saved q ((hlive q hqp).mp hq) hne).congr (congrArg Standing.savedRegs (hold q hqp))
          (congrArg Standing.inSyscall (hold q hqp))
    · rw [hcur'] at hq
      have hqp : q ≠ pid := by
        rintro rfl
        exact hdead (hG.current_live hq)
      rw [hdue q hqp]
      obtain ⟨hd, hcall⟩ := h.back r' q hr' hq
      exact ⟨hd, (congrArg Standing.inSyscall (hold q hqp)).trans hcall⟩

/-- **Every schedule** honours what is due. -/
theorem Schedule.honoured (h : Schedule m table idle Proper n d k next) : Honoured d k next := by
  induction h with
  | boot mem bytes blocks =>
    refine ⟨fun q hq => ?_, fun r p _ hp => ?_, fun r hr => ?_⟩
    · cases hq.1
    · cases hp
    · cases hr
  | start a h hok ih => exact ih.start h.good hok
  | store a b _ hok ih => exact ih.store hok
  | fault r h hcur hok ih => exact ih.fault hcur hok (h.fault r hcur hok).good
  | timer r h hok ih => exact ih.switched rfl hok (h.timer r hok).good
  | @key n d k k' r₀ next r c h hok ih =>
    have hgood := (h.key r c hok).good
    obtain ⟨_, k₁, htype, hswitch⟩ := bind_ok hok
    exact ih.switched ((hidden_typeKey c n.input k.outline).ok rfl htype) hswitch hgood
  | @call n d k k₁ k' r₀ p x next r args h hcur hargs hproper hx hok ih =>
    have hgood := (h.call r args hcur hargs hproper hx hok).good
    refine Honoured.executed ?_ (Function.update_self _ _ _) hcur (h.good.current_live hcur) hproper.2 hx hok hgood
    intro q hq hlive
    rw [Function.update_of_ne hq]
    refine ih.saved q hlive fun _ he => hq ?_
    exact Option.some.inj (he.symm.trans hcur)
  | @level n d k k₁ k' r p x next args h hcur hargs hproper hx hok ih =>
    have hgood := (h.level args hcur hargs hproper hx hok).good
    have hp := h.good.current_live hcur
    have hsaved : ∀ q, k.sched.Live q → Matches (k.sched.procs q) (d q) := by
      intro q hq
      refine ih.saved q hq ?_
      rintro ⟨r', hr'⟩
      cases hr'
    obtain ⟨p', hcur', hregs, hcall⟩ := ih.again r rfl
    obtain rfl : p = p' := Option.some.inj (hcur.symm.trans hcur')
    obtain ⟨hd, -⟩ := (hsaved p hp).again hcall
    rw [hregs] at hd
    exact Honoured.executed (fun q _ => hsaved q) hd hcur hp hproper.2 hx hok hgood

end AdelaideOS.Kernel
