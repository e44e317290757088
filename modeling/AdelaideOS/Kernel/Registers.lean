import AdelaideOS.Kernel.Contexts
import AdelaideOS.Kernel.Detaching
import AdelaideOS.Kernel.Zombies
import AdelaideOS.Process.Fairness

/-!
# Registers over whole schedules

* **`Run.schedule`**, **`Schedule.block`**, **`syscallAt_answered`** — schedules that go on;
* **`schedule_restart`** — a call that is about to be executed for the second time;
* **`Bereft.overwrites`** — a status that is stored into the table of processes;
* **`registers_kept`** — on every schedule of proper calls, the kernel returns to user mode with the registers that are
  due.
-/

namespace AdelaideOS.Kernel

open AdelaideOS.Buddy AdelaideOS.Lib.Bytes AdelaideOS.Lib.Triple AdelaideOS.Lib.Turns AdelaideOS.Lib.View AdelaideOS.Page
  AdelaideOS.Process

variable {m : Machine} {P : Notes → State → ℕ → Regs → List ℕ → Prop} {n : Notes} {B : Books} {d : ℕ → Due}
  {k k₂ k' : State} {idle r r₀ r' : Regs} {p q table : ℕ} {args : List ℕ} {res : ℤ} {next : Next}

/-! ### Schedules that go on -/

/-- The calls of a run whose address spaces are in order. -/
def Tame (n : Notes) (k : State) (p : ℕ) (r : Regs) (args : List ℕ) : Prop :=
  Proper n k p r args ∧ (Input.event (.call r args)).Modest

/-- Calls without an argument that needs care. -/
theorem tame_of (h : r.eax ∉ [SYSCALL_KILL, SYSCALL_SEND, SYSCALL_BRK, SYSCALL_WAITPID]) : Tame n k p r args := by
  simp only [List.mem_cons, List.not_mem_nil, or_false, not_or] at h
  obtain ⟨hkill, hsend, hbrk, hwait⟩ := h
  exact ⟨⟨fun _ _ => ⟨fun hno => absurd hno hkill, fun hno => absurd hno hsend⟩, fun hno => absurd hno hwait⟩,
    fun hno => absurd hno hbrk⟩

theorem Schedule.tame (h : Schedule m table idle Tame n d k next) :
    ∃ B, Run m (fun n k i => i.Fair n k ∧ i.Modest) n B k := by
  refine h.run (fun _ _ _ _ _ hP => hP.1.2) (fun _ _ _ _ _ hP => ⟨hP.1.1, hP.2⟩) fun n k i hi => ?_
  cases i with
  | key => exact ⟨trivial, trivial⟩
  | event ev =>
    cases ev with
    | call r args => exact absurd rfl (hi r args)
    | start | crash | store | switch => exact ⟨trivial, trivial⟩

theorem Schedule.mapped (h : Schedule m table idle Tame n d k next) : Mapped m k := by
  obtain ⟨B, hrun⟩ := h.tame
  obtain ⟨-, -, C, -, hbooks⟩ := hrun.standing fun _ _ _ h => h.1
  exact (hbooks fun _ _ _ h => h.2).1

/-- New processes, and switches between them: no call is unfinished. -/
theorem Run.schedule {Q : Notes → State → Input → Prop} (table : ℕ) (idle : Regs) (h : Run m Q n B k)
    (hQ : ∀ n k i, Q n k i → (∃ a, i = .event (.start a)) ∨ ∃ r, i = .event (.switch r)) :
    (∀ q, (k.sched.procs q).inSyscall = 0) ∧ ∃ d r, Schedule m table idle P n d k (.back r) := by
  induction h with
  | boot mem bytes blocks => exact ⟨fun _ => rfl, _, _, .boot mem bytes blocks⟩
  | @step n B k k' i _ hi hok ih =>
    obtain ⟨hidle, d, r, hsched⟩ := ih
    rcases hQ _ _ _ hi with ⟨a, rfl⟩ | ⟨r', rfl⟩
    · refine ⟨fun q => ?_, _, r, hsched.start a hok⟩
      cases react_stirs hok with
      | full => exact hidle q
      | started _ pid pdir P _ hfree hP ho =>
        have hstand := congrFun (congrArg Outline.table ho) q
        by_cases hq : q = pid
        · subst hq
          have hnew : standingOf (k'.sched.procs q) = ⟨true, false, initRegs PROCESS_STACK_BASE a, 0⟩ :=
            hstand.trans (Function.update_self _ _ _)
          exact congrArg Standing.inSyscall hnew
        · have hold : standingOf (k'.sched.procs q) = standingOf (k.sched.procs q) :=
            hstand.trans (Function.update_of_ne hq _ _)
          exact (congrArg Standing.inSyscall hold).trans (hidle q)
    · have hidle' : ∀ q, ((contextSwitch k.sched r').procs q).inSyscall = 0 := fun q => by
        rw [contextSwitch_procs]
        split_ifs <;> exact hidle q
      obtain ⟨next, hok', hnext⟩ := switchTo_eq idle r' k
      obtain rfl : k' = { k with sched := contextSwitch k.sched r' } := (EStateM.Result.ok.inj hok).2.symm
      refine ⟨hidle', ?_⟩
      rcases hnext with ⟨⟨r'', rfl⟩, -⟩ | ⟨c, -, hcall, -⟩
      · exact ⟨_, r'', hsched.timer r' hok'⟩
      · exact absurd (hidle' c) hcall

/-- **The first process** after boot. -/
theorem schedule_listening (table : ℕ) : ∃ n d k b r₀, Schedule Machine.bare table Regs.zero P n d k (.back r₀) ∧
    Listening Machine.bare n k b 0 ∧ Openable k 1 := by
  obtain ⟨n, B, k, b, hrun, hlisten, hopen, -⟩ := run_listening Machine.bare
    (P := fun _ _ i => (∃ a, i = .event (.start a)) ∨ ∃ r, i = .event (.switch r)) roomy_boot (fun n k i hi => by
      rcases hi with ⟨a, rfl⟩ | ⟨r, rfl⟩
      · exact ⟨trivial, trivial⟩
      · exact ⟨trivial, trivial⟩) (fun _ _ => Or.inl ⟨0, rfl⟩) fun _ _ => Or.inr ⟨Regs.zero, rfl⟩
  obtain ⟨-, d, r₀, h⟩ := hrun.schedule table Regs.zero fun _ _ _ hi => hi
  exact ⟨n, d, k, b, r₀, h, hlisten, hopen⟩

/-- The bytes of an argument block. -/
theorem block_byte {i j : ℕ} (hi : i < args.length) (hj : j < 4) :
    (args.flatMap wordBytes).getD (4 * i + j) 0 = (wordBytes (args.getD i 0)).getD j 0 := by
  induction args generalizing i with
  | nil => exact absurd hi (Nat.not_lt_zero i)
  | cons w args ih =>
    rw [List.flatMap_cons]
    have hlen : (wordBytes w).length = 4 := rfl
    cases i with
    | zero => rw [List.getD_append _ _ _ _ (by omega), Nat.mul_zero, Nat.zero_add, List.getD_cons_zero]
    | succ i =>
      rw [List.getD_append_right _ _ _ _ (by omega), hlen, List.getD_cons_succ, ← ih (by simpa using hi)]
      congr 1
      omega

theorem block_length (args : List ℕ) : (args.flatMap wordBytes).length = 4 * args.length := by
  induction args with
  | nil => rfl
  | cons w args ih =>
    rw [List.flatMap_cons, List.length_append, ih, List.length_cons]
    show 4 + _ = _
    omega

/-- **An argument block** is stored at the bottom of the stack. -/
theorem Schedule.block (args : List ℕ) (h : Schedule m table idle P n d k (.back r₀)) (hmap : Mapped m k)
    (hcur : k.sched.current = some p) (hlen : args.length ≤ 3) (hwords : ∀ i < args.length, args.getD i 0 < wordSize) :
    ∃ n' M, Schedule m table idle P n' d { k with pages := { k.pages with mem := M } } (.back r₀) ∧
      Mapped m { k with pages := { k.pages with mem := M } } ∧ n'.input = n.input ∧
      ∀ r : Regs, r.useresp = STACK_LOW → arity r.eax = args.length →
        Fetched { k with pages := { k.pages with mem := M } } p r args := by
  obtain ⟨forked, asp, hsafe⟩ := id hmap
  have hp := hsafe.good.current_live hcur
  obtain ⟨hregion, -⟩ := hmap.lowStack hp (show 16 ≤ MESSAGE_SIZE by decide)
  have hoff : ∀ i < 16, offset STACK_LOW i = STACK_LOW + i := fun i hi => Nat.mod_eq_of_lt (by
    simp only [STACK_LOW, PROCESS_STACK_BASE, PROCESS_STACK_SIZE, wordSize]
    omega)
  have hlow : STACK_LOW + 16 < wordSize := by decide
  have hblock := block_length args
  obtain ⟨n', M, h', hmap', hin, -, hbytes⟩ := stores_kept
    (I := fun n k => Schedule m table idle P n d k (.back r₀)) (a := STACK_LOW + 4) (args.flatMap wordBytes)
    (fun n k k' a b hs hok => hs.store a b hok) h hmap hcur (by omega) (by
      intro i hi
      have := hregion (4 + i) (by omega)
      rwa [hoff (4 + i) (by omega), ← Nat.add_assoc] at this)
  refine ⟨n', M, h', hmap', hin, fun r hr harity => ⟨harity.symm, fun i hi => ?_, fun i hi _ => ?_⟩⟩
  · obtain ⟨forked', asp', hsafe'⟩ := id hmap'
    obtain ⟨htr, -⟩ := hsafe'.user_page (a := offset r.useresp (4 + i)) hp (offset_lt _ _) (by
      rw [hr]
      exact hregion (4 + i) (by omega))
    rw [htr]
    exact Option.some_ne_none _
  · rw [harity] at hi
    have hword := userWord_of_bytes (k := { k with pages := { k.pages with mem := M } }) (p := p)
      (a := offset r.useresp (4 + 4 * i)) (w := args.getD i 0) fun j hj => by
        rw [offset_offset, hr, hoff _ (by omega), hbytes _ (by omega), if_pos (by omega),
          show STACK_LOW + (4 + 4 * i + j) - (STACK_LOW + 4) = 4 * i + j by omega]
        exact block_byte hi hj
    rw [hword, Nat.mod_eq_of_lt (hwords i hi)]

/-- **A call that returns** to its caller. -/
theorem syscallAt_answered (idle : Regs) (hcur : k.sched.current = some p) (hx : executesAt m table p r args k = .ok (res, r') k₂)
    (hres : res ≠ -ESUSPEND) (hcur₂ : k₂.sched.current = some p) : syscallAt m table idle r args k =
      .ok (.back { r' with eax := ofInt (if r.eax ≠ SYSCALL_GETERRNO ∧ res < 0 then -1 else res) })
        { k₂ with sched := leave k₂.sched p r.eax r' res } := by
  obtain ⟨next, hfinish⟩ := finish_eq idle p r.eax r' res k₂
  obtain ⟨rfl, -⟩ := finish_back hres hcur₂ hfinish
  unfold syscallAt
  rw [run_get, hcur]
  exact (run_bind hx).trans hfinish

/-! ### A call that is executed twice -/

/-- The registers of a call with an argument block at the bottom of the stack. -/
def blockCall (no : ℕ) : Regs := { Regs.zero with eax := no, useresp := STACK_LOW }

/-- A call of `read`. -/
abbrev blockRead : Regs := blockCall SYSCALL_READ

/-- Where the table of processes is, in a kernel of about 64 KB. -/
abbrev TABLE : ℕ := MB + 65536

/-- The first process waits for input, and there is no other. -/
def alone : Sched :=
  ((enter oneProcess 1 SYSCALL_READ).set 1 { (enter oneProcess 1 SYSCALL_READ).procs 1 with ready := false }
    |>.removeReady 1).addSuspended 1

/-- Its registers have been saved. -/
def asleep : Sched := contextSwitch alone blockRead

/-- It has been resumed. -/
def awake : Sched := (asleep.set 1 { asleep.procs 1 with ready := true } |>.removeSuspended 1).addReady 1

theorem suspend_alone : suspendProcess (enter oneProcess 1 SYSCALL_READ) 1 = .ok alone := rfl

theorem wake_asleep : wake asleep (some 1) = .ok awake := rfl

/-- **The first process waits for input**, gets a character, and is about to execute its call again. -/
theorem schedule_restart (table : ℕ) : ∃ n d k b pb args,
    Schedule Machine.bare table Regs.zero Tame n d k (.again blockRead) ∧ k.sched = contextSwitch awake Regs.zero ∧
      Fetched k 1 blockRead args ∧ args = [0, STACK_LOW, 1] ∧ Reads k.filedesc k.handles 1 0 b ∧ k.pipes b = some pb ∧
      pb.readpid = none ∧ pb.len = 1 ∧ 1 ≤ pb.alloc := by
  obtain ⟨n₀, d₀, k₀, b, r₀, h₀, hlisten, -⟩ := schedule_listening (P := Tame) table
  obtain ⟨n₁, M, h₁, hmap₁, hin₁, hfetched⟩ := h₀.block [0, STACK_LOW, 1] hlisten.mapped hlisten.current (by decide)
    (by decide)
  let k₁ : State := { k₀ with pages := { k₀.pages with mem := M } }
  obtain ⟨pb, hb, hlen, hnone, halloc, hw⟩ := hlisten.pipe
  have hs₁ : k₁.sched = oneProcess := hlisten.sched
  have hlive : k₁.sched.Live 1 := by
    rw [hs₁]
    exact ⟨rfl, rfl⟩
  -- the pipe is empty
  let k₂ : State := { k₁ with
    pipes := Function.update k₁.pipes b (some { pb with readpid := some 1 })
    sched := alone }
  have hread : syscallRead Machine.bare.filesystem 1 0 STACK_LOW 1 { k₁ with sched := enter k₁.sched 1 SYSCALL_READ } =
      .ok (-ESUSPEND) k₂ := by
    have hsus := syscallRead_suspends (k := { k₁ with sched := enter k₁.sched 1 SYSCALL_READ }) Machine.bare.filesystem
      hlisten.reads hb hnone hlen hw (hmap₁.lowStack hlive (show 1 ≤ MESSAGE_SIZE by decide)).2 (by
        show suspendProcess (enter k₁.sched 1 SYSCALL_READ) 1 = _
        rw [hs₁]
        exact suspend_alone)
    have hpid : ((enter k₁.sched 1 SYSCALL_READ).procs 1).pid = 1 := by
      rw [hs₁]
      rfl
    rw [hsus]
    simp only [hpid]
    rfl
  have htame : Tame n₁ k₁ 1 blockRead [0, STACK_LOW, 1] := tame_of (by decide)
  have hx : executesAt Machine.bare table 1 blockRead [0, STACK_LOW, 1] k₁ = .ok (-ESUSPEND, blockRead) k₂ :=
    (executesAt_eq htame.1.2).trans (dispatch_read rfl 0 STACK_LOW 1 hread)
  have hcur₁ : k₁.sched.current = some 1 := hlisten.current
  let k₃ : State := { k₂ with sched := asleep }
  have hcall : syscallAt Machine.bare table Regs.zero blockRead [0, STACK_LOW, 1] k₁ = .ok (.back Regs.zero) k₃ := by
    unfold syscallAt
    rw [run_get, hcur₁]
    exact (run_bind hx).trans ((finish_suspended _ _ _ _ _).trans rfl)
  have h₃ := h₁.call blockRead _ hcur₁ (hfetched blockRead rfl rfl) htame hx hcall
  -- a key is pressed
  have hb₃ : k₃.pipes b = some { pb with readpid := some 1 } := Function.update_self _ _ _
  let k₄ : State := { k₃ with
    heap := { k₃.heap with bytes := storeBytes k₃.heap.bytes (pb.data + pb.len) [97] }
    pipes := Function.update k₃.pipes b (some { pb with readpid := none, len := pb.len + 1 })
    sched := awake }
  have hwrite : writeToPipe b [(97 : UInt8)].length (pure [97]) k₃ = .ok () k₄ := by
    refine (writeToPipe_fits _ hb₃ ?_ ?_ rfl wake_asleep).trans rfl
    · show pb.len + 1 ≤ pb.alloc
      rw [hlen]
      exact Nat.le_trans (by decide) halloc
    · show pb.len + 1 < wordSize
      rw [hlen]
      decide
  have hkey : handle Machine.bare Regs.zero (n₁.next (.event (.call blockRead [0, STACK_LOW, 1])) k₁ k₃).input
      (.key Regs.zero 97) k₃ = .ok (.again blockRead) { k₄ with sched := contextSwitch awake Regs.zero } := by
    show (typeKey 97 n₁.input >>= fun _ => switchTo Regs.zero Regs.zero) k₃ = _
    rw [hin₁, hlisten.input]
    exact (run_bind hwrite).trans rfl
  have h₄ := h₃.key Regs.zero 97 hkey
  refine ⟨_, _, _, b, { pb with readpid := none, len := pb.len + 1 }, _, h₄, rfl, ?_, rfl, hlisten.reads, ?_, rfl, ?_, ?_⟩
  · obtain ⟨hsize, hpages, hwords⟩ := hfetched blockRead rfl rfl
    exact ⟨hsize, hpages, hwords⟩
  · exact Function.update_self _ _ _
  · show pb.len + 1 = 1
    rw [hlen]
  · exact Nat.le_trans (by decide) halloc

/-! ### A status that is stored into the table of processes -/

/-- Memory below 6 MB is mapped to itself. -/
theorem Mapped.identity {a : ℕ} (h : Mapped m k) (hp : k.sched.Live p) (ha : a < 6 * MB) :
    translate k.pages.mem (k.space p).pdir a = some a := by
  obtain ⟨forked, asp, hsafe⟩ := h
  have hO := hsafe.owns hp
  have hn := pageOf_lt_kernel ha
  have hword : a < wordSize := ha.trans (by decide)
  have hout : pageOf a ∉ (asp p).us := fun hu => absurd (hO.user _ hu).1 (Nat.not_le_of_lt hn)
  obtain ⟨b, hb, hkern⟩ : ∃ b, (b = 1 ∨ b = 5) ∧ (asp p).kern (pageOf a) = PAGE_SIZE * pageOf a + b := by
    rw [hsafe.kern p hp]
    by_cases hf : forked p = true
    · exact ⟨5, Or.inr rfl, by rw [if_pos hf, forkKern, if_pos hn]⟩
    · rw [if_neg hf, startKern, if_pos hn]
      by_cases hc : m.codeStart ≤ PAGE_SIZE * pageOf a ∧ PAGE_SIZE * pageOf a < m.codeEnd
      · exact ⟨5, Or.inr rfl, if_pos hc⟩
      · exact ⟨1, Or.inl rfl, if_neg hc⟩
  have hsmall : b < PAGE_SIZE := by rcases hb with rfl | rfl <;> decide
  have hmod : PAGE_SIZE * pageOf a % PAGE_SIZE = 0 := Nat.mul_mod_right _ _
  have hlt : PAGE_SIZE * pageOf a + b < wordSize := by
    simp only [PAGE_SIZE, KERNEL_PAGES, wordSize] at *
    omega
  rw [hO.translate_eq hword, Aspace.pte, if_neg hout, hkern, and_flag_add hmod hsmall (by decide),
    and_mask_add hmod hsmall hlt, if_neg (by rcases hb with rfl | rfl <;> decide)]
  exact congrArg some (Nat.div_add_mod a PAGE_SIZE)

/-- The registers of a call of `fork` at the address 1. -/
def forkAtOne : Regs := { forkRegs with eip := 1 }

/-- The processes after a fork of the first one. -/
def forkedOnce (S : Sched) (c : ℕ) : Sched :=
  leave (install (enter S 1 SYSCALL_FORK) c (forkedProc (enter S 1 SYSCALL_FORK) 1 c forkAtOne)) 1 SYSCALL_FORK forkAtOne c

/-- **The first process forks.** -/
theorem Schedule.fork {c : ℕ} (h : Schedule m table idle Tame n d k (.back r₀)) (hcur : k.sched.current = some 1)
    (hfree : getFreePid k.sched = some c) (hopen : Openable k 1) :
    ∃ n' d' k' r', Schedule m table idle Tame n' d' k' (.back r') ∧ k'.sched = forkedOnce k.sched c ∧ Openable k' 1 := by
  obtain ⟨forked, asp, hsafe⟩ := h.mapped
  obtain ⟨k₂, hdis, hs, hopen', -⟩ := dispatch_fork (r := forkAtOne) [] hsafe hcur rfl hfree hopen
  have htame : Tame n k 1 forkAtOne [] := tame_of (by decide)
  have hx : executesAt m table 1 forkAtOne [] k = _ := (executesAt_eq htame.1.2).trans hdis
  have hcur₂ : k₂.sched.current = some 1 := by
    rw [hs]
    exact hcur
  have hsus : (c : ℤ) ≠ -ESUSPEND := by
    intro he
    have hpos := Int.natCast_nonneg c
    rw [he] at hpos
    exact absurd hpos (by decide)
  have hargs : Fetched k 1 forkAtOne [] :=
    ⟨rfl, fun i hi => absurd hi (Nat.not_lt_zero i), fun i hi => absurd hi (Nat.not_lt_zero i)⟩
  have h' := h.call forkAtOne [] hcur hargs htame hx (syscallAt_answered _ hcur hx hsus hcur₂)
  refine ⟨_, _, _, _, h', ?_, hopen'⟩
  show leave k₂.sched 1 forkAtOne.eax forkAtOne c = _
  rw [hs]
  rfl

/-- What the table says when the first process has killed the third one. -/
structure Bereft (S : Sched) : Prop where
  current : S.current = some 1
  child : (S.procs 3).exists_ = true ∧ (S.procs 3).exited = true ∧ (S.procs 3).parentPid = some 1 ∧
    (S.procs 3).exitStatus = 0
  other : (S.procs 2).inSyscall = 0 ∧ (S.procs 2).savedRegs.eip = 1
  live : ∀ q, S.Live q ↔ q = 1 ∨ q = 2
  ready : (S.procs 1).ready = true ∧ (S.procs 2).ready = true

/-- The processes when the first one has forked twice. -/
def threeProcesses : Sched := forkedOnce (forkedOnce oneProcess 2) 3

theorem live_forkedOnce {S : Sched} {c : ℕ} (q : ℕ) : (forkedOnce S c).Live q ↔ q = c ∨ S.Live q := by
  refine (live_leave _ 1 SYSCALL_FORK forkAtOne c q).trans ?_
  by_cases hq : q = c
  · rw [hq, Sched.Live, install_procs, Function.update_self]
    exact ⟨fun _ => Or.inl rfl, fun _ => ⟨rfl, rfl⟩⟩
  · rw [Sched.Live, install_procs, Function.update_of_ne hq]
    exact (live_enter S 1 SYSCALL_FORK q).trans ⟨Or.inr, fun h => h.resolve_left hq⟩

theorem live_threeProcesses (q : ℕ) : threeProcesses.Live q ↔ q = 3 ∨ q = 2 ∨ q = 1 := by
  rw [threeProcesses, live_forkedOnce, live_forkedOnce, Sched.Live, oneProcess_procs]
  by_cases hq : q = 1
  · rw [hq, Function.update_self]
    exact ⟨fun _ => Or.inr (Or.inr rfl), fun _ => Or.inr (Or.inr ⟨rfl, rfl⟩)⟩
  · rw [Function.update_of_ne hq]
    refine or_congr_right (or_congr_right ⟨fun h => ?_, fun h => absurd h hq⟩)
    cases h.1

/-- Who survives keeps all but what the death of a parent or a child changes. -/
theorem Killed.survivor {o o' : Objects} {z : ℕ} (h : Killed o q o') :
    (o'.sched.procs z).savedRegs = (o.sched.procs z).savedRegs ∧
      (o'.sched.procs z).inSyscall = (o.sched.procs z).inSyscall := by
  obtain ⟨S, hwoken, hprocs, -⟩ := h.table
  obtain ⟨ready, hS⟩ := hwoken.detach_proc z
  rw [hprocs, buried, mourned, hS]
  exact ⟨rfl, rfl⟩

/-- **The first process has killed the third one.** -/
theorem bereft_of_killed {o o' : Objects} (ho : o.sched = enter threeProcesses 1 SYSCALL_KILL) (h : Killed o 3 o') :
    Bereft o'.sched := by
  have hlive : ∀ q, o.sched.Live q ↔ q = 3 ∨ q = 2 ∨ q = 1 := fun q => by
    rw [ho, live_enter]
    exact live_threeProcesses q
  have hcurrent := h.current
  rw [ho] at hcurrent
  have hzombie := h.zombie (p := 1) ((hlive 3).mpr (Or.inl rfl)) (by rw [ho]; rfl) (by decide) (by rw [ho]; rfl)
  obtain ⟨hregs, hcall⟩ := h.survivor (z := 2)
  refine ⟨hcurrent, ⟨hzombie.exists_, hzombie.exited, ?_, ?_⟩, ⟨?_, ?_⟩, fun q => ?_, h.ready ?_, h.ready ?_⟩
  · rw [hzombie.parentPid, ho]
    rfl
  · rw [hzombie.exitStatus, ho]
    rfl
  · rw [hcall, ho]
    rfl
  · rw [hregs, ho]
    rfl
  · rw [h.live, hlive]
    omega
  · rw [ho]
    rfl
  · rw [ho]
    rfl

/-- The second process is next. -/
theorem Bereft.picks {S : Sched} (h : Bereft S) (hG : Good S) : pickNext S = some 2 := by
  obtain ⟨R, U, hI⟩ := hG
  have hmem : ∀ q, q ∈ R → q = 1 ∨ q = 2 := fun q hq => (h.live q).mp ((hI.mem_ready q).mp hq).1
  have hone : 1 ∈ R := (hI.mem_ready 1).mpr ⟨(h.live 1).mpr (Or.inl rfl), h.ready.1⟩
  have htwo : 2 ∈ R := (hI.mem_ready 2).mpr ⟨(h.live 2).mpr (Or.inr rfl), h.ready.2⟩
  have hnd : R.Nodup := hI.layout.ready.nodup
  obtain ⟨l, r, rfl⟩ := List.append_of_mem hone
  rw [List.nodup_append] at hnd
  obtain ⟨-, hr, hdisj⟩ := hnd
  have hl : 1 ∉ l := fun h1 => hdisj 1 h1 1 List.mem_cons_self rfl
  have hr : 1 ∉ r := (List.nodup_cons.mp hr).1
  rw [hI.pickNext_turns, h.current, turns_split hl]
  cases r with
  | cons x r =>
    have hx := hmem x (by simp)
    have hne : x ≠ 1 := fun he => hr (he ▸ List.mem_cons_self)
    exact congrArg some (hx.resolve_left hne)
  | nil =>
    cases l with
    | nil => simp at htwo
    | cons x l =>
      have hx := hmem x (by simp)
      have hne : x ≠ 1 := fun he => hl (he ▸ List.mem_cons_self)
      exact congrArg some (hx.resolve_left hne)

/-- A call that goes back to its caller saves no registers. -/
theorem leave_regs {S : Sched} {no : ℕ} (hcur : S.current = some p) (hres : res ≠ -ESUSPEND) (q : ℕ) :
    ((leave S p no r res).procs q).savedRegs = (S.procs q).savedRegs := by
  obtain ⟨-, -, hcur', hsus⟩ := storeErrno_spec S no res
  obtain ⟨e, he⟩ := storeErrno_proc S no res q
  have hentry : ((storeErrno S no res).2.procs q).savedRegs = (S.procs q).savedRegs := by rw [he]
  unfold leave
  simp only
  rw [if_neg fun h => hres (hsus.mp h), set_current, hcur', if_pos hcur, set_procs]
  by_cases hq : q = p
  · rw [← hq, Function.update_self]
    exact hentry
  · rw [Function.update_of_ne hq]
    exact hentry

/-- The call returns to the first process. -/
theorem Bereft.leave {S : Sched} {no : ℕ} (h : Bereft S) (hres : res ≠ -ESUSPEND) : Bereft (leave S 1 no r res) := by
  have hentry := leave_proc S 1 no r res
  obtain ⟨_, _, h₁⟩ := hentry 1
  obtain ⟨_, _, h₂⟩ := hentry 2
  obtain ⟨_, _, h₃⟩ := hentry 3
  refine ⟨leave_back h.current hres, ?_, ⟨?_, ?_⟩, fun q => (live_leave S 1 no r res q).trans (h.live q), ?_, ?_⟩
  · rw [h₃]
    exact h.child
  · rw [h₂]
    exact h.other.1
  · rw [leave_regs h.current hres]
    exact h.other.2
  · rw [h₁]
    exact h.ready.1
  · rw [h₂]
    exact h.ready.2

/-- **The first process forks twice and kills its second child.** -/
theorem schedule_bereft (table : ℕ) :
    ∃ n d k r₀, Schedule Machine.bare table Regs.zero Tame n d k (.back r₀) ∧ Bereft k.sched := by
  obtain ⟨n₀, d₀, k₀, b, r₀, h₀, hlisten, hopen₀⟩ := schedule_listening (P := Tame) table
  have hs₀ : k₀.sched = oneProcess := hlisten.sched
  obtain ⟨n₁, d₁, k₁, r₁, h₁, hs₁, hopen₁⟩ := h₀.fork (c := 2) (by rw [hs₀]; rfl) (by rw [hs₀]; rfl) hopen₀
  rw [hs₀] at hs₁
  obtain ⟨n₂, d₂, k₂, r₂, h₂, hs₂, hopen₂⟩ := h₁.fork (c := 3) (by rw [hs₁]; rfl) (by rw [hs₁]; rfl) hopen₁
  replace hs₂ : k₂.sched = threeProcesses := by
    rw [hs₂, hs₁]
    rfl
  have hcur₂ : k₂.sched.current = some 1 := by
    rw [hs₂]
    rfl
  obtain ⟨n₃, M, h₃, -, -, hfetched⟩ := h₂.block [3] h₂.mapped hcur₂ (by decide) (by decide)
  obtain ⟨B, hrun₃⟩ := h₃.tame
  obtain ⟨hP, k₄, hdis, hkilled, -⟩ := hrun₃.kill_served (p := 1) (q := 3) (r := blockCall SYSCALL_KILL) hcur₂
    (by show k₂.sched.Live 3; rw [hs₂]; exact ⟨rfl, rfl⟩) (by decide)
    (by show ¬ Parked k₂.sched.procs SYSCALL_READ 3; rw [hs₂]; exact fun hp => absurd hp.call (by decide)) rfl
  have hbereft : Bereft k₄.sched := bereft_of_killed (by
    show enter k₂.sched 1 SYSCALL_KILL = _
    rw [hs₂]) hkilled
  let k₃ : State := { k₂ with pages := { k₂.pages with mem := M } }
  have htame : Tame n₃ k₃ 1 (blockCall SYSCALL_KILL) [3] := ⟨⟨hP.1, fun hno => absurd hno (by decide)⟩, hP.2⟩
  have hx : executesAt Machine.bare table 1 (blockCall SYSCALL_KILL) [3] k₃ = _ := (executesAt_eq htame.1.2).trans hdis
  have hback : Bereft (leave k₄.sched 1 (blockCall SYSCALL_KILL).eax (blockCall SYSCALL_KILL) 0) :=
    hbereft.leave (by decide)
  have hcall := syscallAt_answered (k := k₃) Regs.zero hcur₂ hx (show (0 : ℤ) ≠ -ESUSPEND by decide) hbereft.current
  exact ⟨_, _, _, _, h₃.call _ _ hcur₂ (hfetched _ rfl rfl) htame hx hcall, hback⟩

/-- `waitpid` finds the child. -/
theorem Bereft.waitpid {S : Sched} (h : Bereft S) (hpid : (S.procs 1).pid = 1) :
    Process.syscallWaitpid S 1 3 = .ok (3, some 0, reap (waitFor S 1 none) 3) := by
  have hself : ((waitFor S 1 none).procs 1).pid = 1 := by
    rw [waitFor_proc]
    exact hpid
  have hchild : (waitFor S 1 none).procs 3 = S.procs 3 := by
    rw [waitFor_proc, if_neg (by decide)]
  obtain ⟨hex, hexit, hparent, hstatus⟩ := h.child
  unfold Process.syscallWaitpid
  rw [if_neg (by decide)]
  simp only [hself, show Int.toNat 3 = 3 from rfl, hchild, hex, hexit, hparent, hstatus]
  rfl

/-- **The status is stored** where the saved `eip` of the second process is. -/
theorem Bereft.overwrites (h : Bereft k.sched) (hmap : Mapped m k) (hsmall : eipAddress table 2 < 6 * MB) :
    ∃ k', waitpidAt table 1 3 (eipAddress table 2) k = .ok 3 k' ∧ k'.sched.current = some 1 ∧
      (k'.sched.procs 2).savedRegs.eip = 0 ∧ (k'.sched.procs 2).inSyscall = (k.sched.procs 2).inSyscall ∧
      pickNext k'.sched = pickNext k.sched := by
  have hlive : k.sched.Live 1 := (h.live 1).mpr (Or.inl rfl)
  obtain ⟨forked, asp, hsafe⟩ := id hmap
  obtain ⟨R, U, hI⟩ := hsafe.good
  have hwait := h.waitpid (hI.pid_eq 1 hlive.1)
  have hstray : strayStatus k 1 (eipAddress table 2) = some (eipAddress table 2) := by
    have hne : eipAddress table 2 ≠ 0 := by
      simp only [eipAddress]
      omega
    unfold strayStatus kernelAddress
    rw [if_neg hne, hmap.identity hlive hsmall, Option.filter_some, if_pos]
    exact decide_eq_true (hsmall.trans_le (by decide))
  let S := reap (waitFor k.sched 1 none) 3
  let S' := S.set 2 { S.procs 2 with savedRegs := { (S.procs 2).savedRegs with eip := ofInt 0 } }
  have hsaved : storeSaved table (reap (waitFor k.sched 1 none) 3) (eipAddress table 2) (ofInt 0) = some S' :=
    storeSaved_eip (by decide) _
  have hentry : S.procs 2 = k.sched.procs 2 := by
    show (reap (waitFor k.sched 1 none) 3).procs 2 = _
    rw [reap_proc, waitFor_proc, if_neg (by decide), if_neg (by decide)]
  have htwo : S'.procs 2 = { S.procs 2 with savedRegs := { (S.procs 2).savedRegs with eip := ofInt 0 } } := by
    rw [set_procs, Function.update_self]
  refine ⟨{ k with
    log := (List.range 4).map (offset (eipAddress table 2)) ++ k.log
    sched := S' }, ?_, h.current, ?_, ?_, ?_⟩
  · unfold waitpidAt
    rw [run_get]
    simp only [hwait, hstray, hsaved]
    rfl
  · rw [htwo]
    rfl
  · rw [htwo, hentry]
  · refine pickNext_congr (fun q => ?_) ⟨rfl, rfl, rfl⟩ rfl
    show (S'.procs q).ready = _
    by_cases hq : q = 2
    · rw [hq, htwo, hentry]
    · rw [show S'.procs q = S.procs q from Function.update_of_ne hq _ _]
      show ((reap (waitFor k.sched 1 none) 3).procs q).ready = _
      rw [reap_proc, waitFor_proc]

theorem Bereft.enter {S : Sched} (h : Bereft S) (no : ℕ) : Bereft (enter S 1 no) := by
  have hone := enter_proc S 1 no 1
  have htwo := enter_proc S 1 no 2
  have hthree := enter_proc S 1 no 3
  rw [if_neg (by decide)] at htwo hthree
  refine ⟨h.current, ?_, ?_, fun q => (live_enter S 1 no q).trans (h.live q), ?_, ?_⟩
  · rw [hthree]
    exact h.child
  · rw [htwo]
    exact h.other
  · rw [hone]
    exact h.ready.1
  · rw [htwo]
    exact h.ready.2

/-- A switch to a process that is not inside a call. -/
theorem switchTo_back (hpick : pickNext k.sched = some q) (hcall : ((contextSwitch k.sched r).procs q).inSyscall = 0) :
    switchTo idle r k =
      .ok (.back ((contextSwitch k.sched r).procs q).savedRegs) { k with sched := contextSwitch k.sched r } := by
  have hcur : (contextSwitch k.sched r).current = some q := (contextSwitch_spec k.sched r).2.2.trans hpick
  unfold switchTo
  have hswitch : schedDo (fun S => .ok (contextSwitch S r)) k = .ok () { k with sched := contextSwitch k.sched r } := rfl
  rw [run_bind hswitch, run_get]
  simp only [hcur, if_pos hcall]
  rfl

/-! ### The result -/

/-- **Registers across traps.**  Wherever a schedule leads: the processor is in user mode with the registers that are due
to the current process, which has no call to finish; or the call that is due to the current process is about to be
executed, with its registers; and what is due to the others waits in the table. -/
theorem registers_kept (h : Schedule m table idle Proper n d k next) :
    (∀ r p, next = .back r → k.sched.current = some p → d p = .frame r ∧ (k.sched.procs p).inSyscall = 0) ∧
      (∀ r, next = .again r → ∃ p, k.sched.current = some p ∧ d p = .call r ∧ (k.sched.procs p).inSyscall = r.eax) ∧
      ∀ q, k.sched.Live q → k.sched.current ≠ some q → Matches (k.sched.procs q) (d q) := by
  have hhon := h.honoured
  refine ⟨hhon.back, fun r hr => ?_, fun q hq hne => hhon.saved q hq fun _ => hne⟩
  obtain ⟨p, hcur, hregs, hcall⟩ := hhon.again r hr
  have hsaved := hhon.saved p (h.good.current_live hcur) (by
    rintro ⟨r', hr'⟩
    rw [hr] at hr'
    cases hr')
  obtain ⟨hd, heq⟩ := hsaved.again hcall
  rw [hregs] at hd heq
  exact ⟨p, hcur, hd, heq⟩

/-- **A call that is executed twice**: the process is about to execute it again, and then goes on with one character. -/
theorem registers_of_restart : ∃ n d k n' d' k',
    (Schedule Machine.bare TABLE Regs.zero Proper n d k (.again blockRead) ∧ d 1 = .call blockRead ∧
      (k.sched.procs 1).inSyscall = SYSCALL_READ) ∧
    Schedule Machine.bare TABLE Regs.zero Proper n' d' k' (.back { blockRead with eax := 1 }) ∧
      d' 1 = .frame { blockRead with eax := 1 } ∧ (k'.sched.procs 1).inSyscall = 0 := by
  obtain ⟨n, d, k, b, pb, args, h, hs, hargs, rfl, hreads, hb, hnone, hlen, halloc⟩ := schedule_restart TABLE
  have hproper := h.mono (Q := Proper) fun _ _ _ _ _ hP => hP.1
  have hcur : k.sched.current = some 1 := by
    rw [hs]
    rfl
  have hlive : k.sched.Live 1 := by
    rw [hs]
    exact ⟨rfl, rfl⟩
  let k₁ : State := { k with sched := enter k.sched 1 SYSCALL_READ }
  have hlive₁ : k₁.sched.Live 1 := (live_enter k.sched 1 SYSCALL_READ 1).mpr hlive
  have hmap₁ : Mapped Machine.bare k₁ :=
    h.mapped.sched (hproper.good.enter 1 SYSCALL_READ) (live_enter k.sched 1 SYSCALL_READ)
  obtain ⟨hregion, hvalid⟩ := hmap₁.lowStack hlive₁ (show 1 ≤ MESSAGE_SIZE by decide)
  obtain ⟨Q, log, bytes, hread, -⟩ := syscallRead_takes (k := k₁) Machine.bare.filesystem hreads hb hnone (by omega)
    (by omega) hmap₁ hlive₁ hvalid hregion
  have htakes : toInt (takes pb 1) = 1 := by
    unfold takes
    rw [hlen]
    rfl
  rw [htakes] at hread
  have htame : Tame n k 1 blockRead [0, STACK_LOW, 1] := tame_of (by decide)
  have hx : executesAt Machine.bare TABLE 1 blockRead [0, STACK_LOW, 1] k = _ :=
    (executesAt_eq htame.1.2).trans (dispatch_read rfl 0 STACK_LOW 1 hread)
  have hdone := hproper.level _ hcur hargs htame.1 hx (syscallAt_answered _ hcur hx (by decide) hcur)
  obtain ⟨-, hagain, -⟩ := registers_kept hproper
  obtain ⟨p, hp, hd, hcall⟩ := hagain _ rfl
  obtain rfl : 1 = p := Option.some.inj (hcur.symm.trans hp)
  obtain ⟨hback, -⟩ := registers_kept hdone
  obtain ⟨hd', hcall'⟩ := hback _ 1 rfl (leave_back hcur (by decide))
  exact ⟨_, _, _, _, _, _, ⟨hproper, hd, hcall⟩, hdone, hd', hcall'⟩

/-- **A status is stored into the table of processes**: the second process goes on with another `eip`. -/
theorem registers_overwritten : ∃ n d k r p, Schedule Machine.bare TABLE Regs.zero Aimed n d k (.back r) ∧
    k.sched.current = some p ∧ d p ≠ .frame r := by
  obtain ⟨n, d, k, r₀, h, hb⟩ := schedule_bereft TABLE
  obtain ⟨n₁, M, h₁, hmap₁, -, hfetched⟩ := h.block [3, eipAddress TABLE 2, 0] h.mapped hb.current (by decide) (by decide)
  let k₁ : State := { k with pages := { k.pages with mem := M } }
  let r : Regs := blockCall SYSCALL_WAITPID
  have hb₁ : Bereft k₁.sched := hb
  have hcur₁ : k₁.sched.current = some 1 := hb.current
  have hlive₁ : k₁.sched.Live 2 := (hb.live 2).mpr (Or.inr rfl)
  have hdue : d 2 = .frame (k₁.sched.procs 2).savedRegs := by
    have hhon := (h₁.mono (Q := Proper) fun _ _ _ _ _ hP => hP.1).honoured
    refine (hhon.saved 2 hlive₁ fun _ => ?_).back hb.other.1
    rw [hcur₁]
    decide
  -- the call
  have hgood₁ : Good (enter k₁.sched 1 SYSCALL_WAITPID) := by
    obtain ⟨forked, asp, hsafe⟩ := hmap₁
    exact hsafe.good.enter 1 SYSCALL_WAITPID
  have hb₂ := hb₁.enter SYSCALL_WAITPID
  let k' : State := { k₁ with sched := enter k₁.sched 1 SYSCALL_WAITPID }
  have hbelow : eipAddress TABLE 2 < 6 * MB := by decide
  obtain ⟨k₂, hwait, hcur₂, heip, hcall, hpick⟩ := Bereft.overwrites (k := k') hb₂ (hmap₁.sched hgood₁ (live_enter _ _ _))
    hbelow
  have hx : executesAt Machine.bare TABLE 1 r [3, eipAddress TABLE 2, 0] k₁ = .ok (3, r) k₂ := by
    show dispatchAt Machine.bare TABLE 1 r SYSCALL_WAITPID _ k' = _
    unfold dispatchAt
    rw [if_pos rfl]
    exact run_bind hwait
  have haimed : Aimed n₁ k₁ 1 r [3, eipAddress TABLE 2, 0] :=
    fun _ _ => ⟨fun hno => absurd hno (by decide), fun hno => absurd hno (by decide)⟩
  have h₂ := (h₁.mono (Q := Aimed) fun _ _ _ _ _ hP => hP.1.1).call r _ hcur₁ (hfetched r rfl rfl) haimed hx
    (syscallAt_answered _ hcur₁ hx (by decide) hcur₂)
  -- the switch
  let k₃ : State := { k₂ with sched := leave k₂.sched 1 r.eax r 3 }
  have hcur₃ : k₃.sched.current = some 1 := leave_back hcur₂ (by decide)
  obtain ⟨hsame, hlists, -⟩ := leave_spec k₂.sched 1 r.eax r 3
  have hpick₃ : pickNext k₃.sched = some 2 := by
    rw [show pickNext k₃.sched = pickNext k₂.sched from
      pickNext_congr (fun q => (hsame q).1.ready) hlists (hcur₃.trans hcur₂.symm), hpick]
    exact hb₂.picks hgood₁
  have hentry : (contextSwitch k₃.sched Regs.zero).procs 2 = k₃.sched.procs 2 := by
    rw [contextSwitch_procs, if_neg (by rw [hcur₃]; decide)]
  have hcall₃ : (k₃.sched.procs 2).inSyscall = 0 := by
    rw [show (k₃.sched.procs 2).inSyscall = _ from (hsame 2).2, if_neg (by decide), hcall]
    exact hb₂.other.1
  have hregs₃ : (k₃.sched.procs 2).savedRegs = (k₂.sched.procs 2).savedRegs := leave_regs hcur₂ (by decide) 2
  have h₃ := h₂.timer Regs.zero (switchTo_back hpick₃ (by rw [hentry]; exact hcall₃))
  refine ⟨_, _, _, _, 2, h₃, (contextSwitch_spec k₃.sched Regs.zero).2.2.trans hpick₃, ?_⟩
  have hdue₃ : interrupted (dueAfter (Function.update d 1 (.call r)) k₁ k₃ 1 (3, r)) k₃.sched.current Regs.zero 2 = d 2 := by
    rw [hcur₃]
    show Function.update (dueAfter (Function.update d 1 (.call r)) k₁ k₃ 1 (3, r)) 1 _ 2 = _
    rw [Function.update_of_ne (by decide), dueAfter, Function.update_self]
    show (if k₃.sched.Live 2 ∧ ¬ k₁.sched.Live 2 then _ else Function.update (Function.update d 1 _) 1 _ 2) = _
    rw [if_neg fun h => h.2 hlive₁, Function.update_of_ne (by decide), Function.update_of_ne (by decide)]
  rw [hdue₃, hdue, hentry, hregs₃]
  intro he
  injection he with he
  have heip₁ : (k₁.sched.procs 2).savedRegs.eip = 1 := hb.other.2
  rw [he, heip] at heip₁
  exact absurd heip₁ (by decide)

end AdelaideOS.Kernel
