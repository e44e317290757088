import AdelaideOS.Kernel.Queues

/-!
# Killing a process twice

A process that has exited keeps its slot until its parent waits for it.  `kill` takes it for a process that is
alive and releases its page directory once more.

* **`releasePages_again`** — a release takes at least one frame;
* **`Whole.kill_ok`**, **`run_zombie`** — a process can be killed, so there are zombies;
* **`kill_zombie`** — killing a zombie is never harmless.
-/

namespace AdelaideOS.Kernel

open AdelaideOS.Buddy AdelaideOS.Lib.Bytes AdelaideOS.Lib.Triple AdelaideOS.Lib.View AdelaideOS.Page AdelaideOS.Process

variable {m : Machine} {n : Notes} {B : Books} {C : Contents} {k k' : State} {P P' P'' : Pages} {p q z : ℕ}

/-! ### What a release takes -/

/-- The allocator after some frames were given back: each was in use, or is now given back twice. -/
structure Released (P P' : Pages) : Prop where
  npages : P'.npages ≤ P.npages
  live : P'.live.length ≤ P.live.length
  twice : P.freedTwice = true → P'.freedTwice = true

theorem Released.refl (P : Pages) : Released P P := ⟨Nat.le_refl _, Nat.le_refl _, id⟩

theorem Released.trans (h : Released P P') (h' : Released P' P'') : Released P P'' :=
  ⟨h'.npages.trans h.npages, h'.live.trans h.live, fun ht => h'.twice (h.twice ht)⟩

/-- Storing leaves the allocator alone. -/
theorem Released.store (h : Released P P') (M : Memory) : Released P { P' with mem := M } := ⟨h.npages, h.live, h.twice⟩

/-- One frame. -/
theorem freePage_takes {page : ℕ} (h : freePage P page = .ok P') :
    Released P P' ∧ P'.npages < P.npages ∧ (P'.freedTwice = true ∨ P'.live.length < P.live.length) := by
  unfold freePage at h
  obtain ⟨_, hassert, hpure⟩ := bind_eq_ok.mp h
  have hpos : 0 < P.npages := by
    by_contra hn
    rw [assert, if_neg hn] at hassert
    cases hassert
  cases hpure
  have hlen : (P.live.erase page).length ≤ P.live.length := List.length_erase_le
  refine ⟨⟨Nat.sub_le _ _, hlen, ?_⟩, Nat.sub_lt hpos (by decide), ?_⟩
  · intro ht
    simp [ht]
  · by_cases hmem : page ∈ P.live
    · right
      show (P.live.erase page).length < P.live.length
      rw [List.length_erase_of_mem hmem]
      have := List.length_pos_of_mem hmem
      omega
    · left
      simp [hmem]

theorem released_unmap {pdir logical : ℕ} (h : unmapAndFreePage P pdir logical = .ok P') : Released P P' := by
  unfold unmapAndFreePage at h
  obtain ⟨_, -, h⟩ := bind_eq_ok.mp h
  split_ifs at h
  · cases h
    exact .refl P
  · cases h
    exact .refl P
  · obtain ⟨P₁, hfree, hpure⟩ := bind_eq_ok.mp h
    cases hpure
    exact (freePage_takes hfree).1.store _

theorem released_fold {α : Type} {f : Pages → α → Except Fault Pages} (hf : ∀ P x P', f P x = .ok P' → Released P P')
    (xs : List α) (h : xs.foldlM f P = .ok P') : Released P P' := by
  induction xs generalizing P with
  | nil =>
    cases h
    exact .refl _
  | cons x xs ih =>
    rw [List.foldlM_cons] at h
    obtain ⟨P₁, h₁, h₂⟩ := bind_eq_ok.mp h
    exact (hf P x P₁ h₁).trans (ih h₂)

theorem released_unmapRange {pdir start stop : ℕ} (h : unmapRange P pdir start stop = .ok P') : Released P P' :=
  released_fold (fun _ _ _ => released_unmap) _ h

theorem released_freeTable {pdir i : ℕ} (h : freeTable pdir P i = .ok P') : Released P P' := by
  unfold freeTable at h
  split_ifs at h
  · cases h
    exact .refl P
  · exact (freePage_takes h).1

/-- **A release** takes the page directory at least. -/
theorem releasePages_again {s : Space} (h : releasePages s P = .ok ((), P')) :
    P'.npages < P.npages ∧ (P'.freedTwice = true ∨ P'.live.length < P.live.length) := by
  unfold releasePages at h
  obtain ⟨P₁, h₁, h⟩ := bind_eq_ok.mp h
  obtain ⟨P₂, h₂, h⟩ := bind_eq_ok.mp h
  obtain ⟨P₃, h₃, h⟩ := bind_eq_ok.mp h
  obtain ⟨P₄, h₄, hpure⟩ := bind_eq_ok.mp h
  cases hpure
  unfold freePageDir at h₄
  obtain ⟨P₅, h₅, hlast⟩ := bind_eq_ok.mp h₄
  have hrest := (((released_unmapRange h₁).trans (released_unmapRange h₂)).trans (released_unmapRange h₃)).trans
    (released_fold (fun _ _ _ => released_freeTable) _ h₅)
  obtain ⟨-, hnp, hlive⟩ := freePage_takes hlast
  refine ⟨hnp.trans_le hrest.npages, ?_⟩
  rcases hlive with ht | hlt
  · exact Or.inl ht
  · exact Or.inr (hlt.trans_le hrest.live)

/-! ### A process that has exited -/

/-- **`kill_process` returns** if its descriptors and its mailbox can be given back and its parent can be told: the
frames of a process that is alive can be released. -/
theorem killProcess_returns {U V : Unit → Objects → Prop} (hmap : Mapped m k) (hq : k.sched.Live q)
    (hclose : Acts State.objects (fun _ => False) { k.objects with sched := Process.detach k.sched q }
      (closeFds q (List.range MAX_FDS)) U)
    (hfree : ∀ o, U () o → (o.sched.procs q).mailbox = (k.sched.procs q).mailbox ∧
      Acts State.objects (fun _ => False) o (freeMailbox (k.sched.procs q).mailbox) V)
    (hbury : ∀ o, V () o → ∃ S', Process.bury o.sched q = .ok S') :
    ∃ k' o S', Kernel.killProcess q k = .ok () k' ∧ V () o ∧ Process.bury o.sched q = .ok S' ∧
      k'.objects = { o with sched := S' } := by
  let k₁ : State := { k with sched := Process.detach k.sched q }
  obtain ⟨_, k₂, hok₂, hU⟩ := Acts.returns (s := k₁) hclose
  -- closing descriptors does not touch the pages
  have hout : k₂.outline = k₁.outline := (hidden_closeFds q _ _).ok rfl hok₂
  have hpages : k₂.pages = k.pages := congrArg Outline.pages hout
  have hspace : k₂.space = k.space := congrArg Outline.space hout
  obtain ⟨forked, asp, hsafe⟩ := hmap
  obtain ⟨t, d, hs⟩ := hsafe.shaped q hq
  obtain ⟨P', -, hrel, -⟩ := releasePages_spec (hsafe.owns hq) hs
  have hok₃ : onPages (releasePages (k₂.space q)) k₂ = .ok () { k₂ with pages := P' } := by
    apply onPages_ok
    rw [hspace, hpages]
    exact hrel
  obtain ⟨hmailbox, hacts⟩ := hfree k₂.objects hU
  replace hmailbox : (k₂.sched.procs q).mailbox = (k.sched.procs q).mailbox := hmailbox
  obtain ⟨_, k₄, hok₄, hV⟩ := Acts.returns (s := { k₂ with pages := P' }) hacts
  obtain ⟨S', hS'⟩ := hbury k₄.objects hV
  replace hS' : Process.bury k₄.sched q = .ok S' := hS'
  refine ⟨{ k₄ with sched := S' }, k₄.objects, S', ?_, hV, hS', rfl⟩
  unfold Kernel.killProcess
  have hok₁ : schedDo (fun S => .ok (Process.detach S q)) k = .ok () k₁ := rfl
  have hok₅ : schedDo (fun S => Process.bury S q) k₄ = .ok () { k₄ with sched := S' } := by
    unfold schedDo
    simp only [hS']
  rw [run_bind hok₁, run_bind hok₂, run_get, run_bind hok₃, hmailbox, run_bind hok₄]
  exact hok₅

/-- **A process can be killed** if it is alive and not blocked in a read. -/
theorem Whole.kill_ok (h : Whole n C k.objects) (hmap : Mapped m k) (hq : k.sched.Live q)
    (hpark : ¬ Parked k.sched.procs SYSCALL_READ q)
    (hserve : ∀ r, n.serving = some r → (k.sched.procs r).inSyscall ≠ SYSCALL_WAITPID) :
    ∃ k', Kernel.killProcess q k = .ok () k' ∧
      ∀ x, (k.sched.procs q).mailbox = some x → ∀ N, ¬ Allocated kernelRegion k'.heap x N := by
  have hsane := h.detach hq hpark
  -- what the mailbox leaves behind
  let V : Unit → Objects → Prop := fun _ o => (∃ S', Process.bury o.sched q = .ok S') ∧
    ∀ x N, (k.sched.procs q).mailbox = some x → ¬ Allocated kernelRegion o.heap x N
  obtain ⟨k', o, S', hok, ⟨-, hfreed⟩, -, hobjects⟩ : ∃ k' o S', Kernel.killProcess q k = .ok () k' ∧ V () o ∧
      Process.bury o.sched q = .ok S' ∧ k'.objects = { o with sched := S' } := by
    refine killProcess_returns hmap hq (hsane.closeFds List.nodup_range slotsBut_ne) ?_ fun o hV => hV.1
    rintro o ⟨hsane₂, hf, -⟩
    have hwoken : Woken (Process.detach k.sched q) o.sched := hf.woken
    have hmailbox : (o.sched.procs q).mailbox = (k.sched.procs q).mailbox := by
      obtain ⟨r, hr⟩ := hwoken.detach_proc q
      rw [hr]
    refine ⟨hmailbox, (hsane₂.freeMailbox (S := k.sched) hq (h.fresh q hq)).mono ?_⟩
    rintro _ _ ⟨hsane₄, h', rfl, hfreed⟩
    obtain ⟨S', hS', -⟩ := hsane₄.bury hwoken h.good hq hserve
    exact ⟨⟨S', hS'⟩, hfreed⟩
  refine ⟨k', hok, fun x hx N => ?_⟩
  have hheap : k'.heap = o.heap := congrArg Objects.heap hobjects
  rw [hheap]
  exact hfreed x N hx

/-- `kill` for another process. -/
theorem syscallKill_returns (hG : Good k.sched) (hp : k.sched.Live p) (hq : k.sched.Live q) (hne : q ≠ p)
    (hkill : Kernel.killProcess q k = .ok () k') : syscallKill p q k = .ok 0 k' := by
  obtain ⟨R, U, hinv⟩ := hG
  have hlt : q < MAX_PROCESSES := (hinv.range q hq.1).2
  unfold syscallKill
  rw [run_get, if_neg]
  · rw [Int.toNat_natCast, run_bind hkill, if_neg]
    · rfl
    · rw [hinv.pid_eq p hp.1]
      exact_mod_cast hne
  · rw [Int.toNat_natCast, hq.1]
    simp only [Bool.true_eq_false, or_false]
    omega

/-- The entry of a process after its death: the pointer to the mailbox is still there. -/
structure Zombie (v w : Proc) : Prop where
  exists_ : w.exists_ = true
  exited : w.exited = true
  mailbox : w.mailbox = v.mailbox
  mailboxSize : w.mailboxSize = v.mailboxSize
  mailboxAlloc : w.mailboxAlloc = v.mailboxAlloc
  receiveBlocked : w.receiveBlocked = v.receiveBlocked
  exitStatus : w.exitStatus = v.exitStatus
  parentPid : w.parentPid = v.parentPid

/-- The entry of a process that is killed while its parent exists. -/
theorem Killed.zombie {o o' : Objects} (h : Killed o q o') (hq : o.sched.Live q) (hpid : (o.sched.procs q).pid = q)
    (hne : q ≠ p) (hchild : (o.sched.procs q).parentPid = some p) : Zombie (o.sched.procs q) (o'.sched.procs q) := by
  obtain ⟨S, hwoken, hprocs, -⟩ := h.table
  obtain ⟨ready, hS⟩ := hwoken.detach_proc q
  have hother : (o.sched.procs q).parentPid ≠ some (o.sched.procs q).pid := by
    rw [hchild, hpid]
    exact fun h => hne (Option.some.inj h).symm
  have hparent : survivingParent S q = some p := by
    rw [survivingParent_eq, hS, if_neg]
    · exact hchild
    · exact fun h => hother h.2
  rw [hprocs]
  unfold buried mourned
  rw [hparent, hS]
  constructor
  · show (if q = q ∧ some p = none then false else (o.sched.procs q).exists_) = true
    rw [if_neg (by simp)]
    exact hq.1
  · exact if_pos rfl
  case parentPid => exact if_neg fun h => hother h.2
  all_goals rfl

/-- **A call of `kill`** for another process that is alive returns 0. -/
theorem Run.kill_served (h : Run m (fun n k i => i.Fair n k ∧ i.Modest) n B k) (hcur : k.sched.current = some p)
    (hq : k.sched.Live q) (hne : q ≠ p) (hpark : ¬ Parked k.sched.procs SYSCALL_READ q) {r : Regs}
    (hr : r.eax = SYSCALL_KILL) :
    ((Input.event (.call r [q])).Fair n k ∧ (Input.event (.call r [q])).Modest) ∧
      ∃ k', dispatch m p r r.eax [q] { k with sched := enter k.sched p r.eax } = .ok (0, r) k' ∧
        Killed { k.objects with sched := enter k.sched p r.eax } q k'.objects ∧
        ∀ x, (k.sched.procs q).mailbox = some x → ∀ N, ¬ Allocated kernelRegion k'.heap x N := by
  obtain ⟨hserve, hsteady, C, hwhole, hbooks⟩ := h.standing fun _ _ _ hP => hP.1
  obtain ⟨hmap, -⟩ := hbooks fun _ _ _ hP => hP.2
  obtain ⟨R, U, hinv⟩ := hwhole.good
  have hlt := (hinv.range q hq.1).2
  have hlt' : q < 32 := hlt
  have hint : toInt q = q := if_pos (by omega)
  have hfair : (Input.event (.call r [q])).Fair n k := by
    intro p' hp'
    refine ⟨fun _ t ht _ => ?_, fun hno => absurd (hr.symm.trans hno) (by decide)⟩
    obtain rfl : q = t := by
      rw [show toInt ([q].getD 0 0) = q from hint] at ht
      exact_mod_cast ht
    exact ⟨hq.2, hpark⟩
  refine ⟨⟨hfair, fun hno => absurd (hr.symm.trans hno) (by decide)⟩, ?_⟩
  rw [hr]
  have hserving := hwhole.enter hserve hcur hsteady SYSCALL_KILL [q]
  let k₁ : State := { k with sched := enter k.sched p SYSCALL_KILL }
  have hproc : k₁.sched.procs q = k.sched.procs q := by
    show (enter k.sched p SYSCALL_KILL).procs q = _
    exact Function.update_of_ne hne _ _
  have hmap₁ : Mapped m k₁ := hmap.sched hserving.whole.good (live_enter _ _ _)
  have hlive : k₁.sched.Live q := (live_enter _ _ _ q).mpr hq
  have hpark₁ : ¬ Parked k₁.sched.procs SYSCALL_READ q := by
    rintro ⟨h1, h2, h3, h4⟩
    rw [hproc] at h1 h2 h3 h4
    exact hpark ⟨h1, h2, h3, h4⟩
  have hcall : ∀ r, some p = some r → (k₁.sched.procs r).inSyscall ≠ SYSCALL_WAITPID := by
    rintro r ⟨⟩
    show ((enter k.sched p SYSCALL_KILL).procs p).inSyscall ≠ _
    rw [enter_proc]
    simp
  obtain ⟨k₂, hkill, hfreed⟩ := Whole.kill_ok (k := k₁) hserving.whole hmap₁ hlive hpark₁ hcall
  rw [hproc] at hfreed
  obtain ⟨hkilled, -⟩ := (Whole.killProcess (o := k₁.objects) hserving.whole hlive hpark₁ hcall).ok rfl hkill
  have hres : syscallKill p (toInt q) k₁ = .ok 0 k₂ := by
    rw [hint]
    exact syscallKill_returns hserving.whole.good hserving.live hlive hne hkill
  exact ⟨k₂, run_bind hres, hkilled, hfreed⟩

/-- **A child is killed**: it stays as a zombie, and its mailbox is not in use any more. -/
theorem Run.kill (h : Run m (fun n k i => i.Fair n k ∧ i.Modest) n B k) (hcur : k.sched.current = some p)
    (hq : k.sched.Live q) (hne : q ≠ p) (hchild : (k.sched.procs q).parentPid = some p)
    (hpark : ¬ Parked k.sched.procs SYSCALL_READ q) :
    ∃ n' B' k', Run m (fun n k i => i.Fair n k ∧ i.Modest) n' B' k' ∧ k'.sched.current = some p ∧
      Zombie (k.sched.procs q) (k'.sched.procs q) ∧
      ∀ x, (k.sched.procs q).mailbox = some x → ∀ N, ¬ Allocated kernelRegion k'.heap x N := by
  let r : Regs := { Regs.zero with eax := SYSCALL_KILL }
  obtain ⟨hP, k₂, hdis, hkilled, hfreed⟩ := h.kill_served hcur hq hne hpark (r := r) rfl
  obtain ⟨-, -, C, hwhole, -⟩ := h.standing fun _ _ _ hP => hP.1
  obtain ⟨R, U, hinv⟩ := hwhole.good
  have hproc : (enter k.sched p SYSCALL_KILL).procs q = k.sched.procs q := Function.update_of_ne hne _ _
  have hentry := hkilled.zombie (p := p) ((live_enter k.sched p SYSCALL_KILL q).mpr hq)
    ((congrArg Proc.pid hproc).trans (hinv.pid_eq q hq.1)) hne ((congrArg Proc.parentPid hproc).trans hchild)
  rw [show ({ k.objects with sched := enter k.sched p r.eax } : Objects).sched.procs q = k.sched.procs q from hproc]
    at hentry
  have hcur₂ : k₂.sched.current = some p := by
    have hkept := hkilled.current
    rw [show ({ k.objects with sched := enter k.sched p r.eax } : Objects).sched.current = some p from hcur,
      if_neg (by simpa using hne.symm)] at hkept
    exact hkept
  refine ⟨_, _, _, h.call hcur hP hdis, ?_, ?_, hfreed⟩
  · exact leave_back hcur₂ (by decide)
  · show Zombie _ ((leave k₂.sched p SYSCALL_KILL r 0).procs q)
    obtain ⟨regs, e, hleave⟩ := leave_proc k₂.sched p SYSCALL_KILL r 0 q
    rw [hleave]
    exact ⟨hentry.exists_, hentry.exited, hentry.mailbox, hentry.mailboxSize, hentry.mailboxAlloc, hentry.receiveBlocked,
      hentry.exitStatus, hentry.parentPid⟩

/-- **A zombie**: the first process has killed its child and not waited for it. -/
theorem run_zombie :
    ∃ n B k, Run Machine.bare (fun n k i => i.Fair n k ∧ i.Modest) n B k ∧ (k.sched.procs 2).exists_ = true ∧
      (k.sched.procs 2).exited = true ∧ k.sched.current = some 1 := by
  obtain ⟨n, B, k, h, -, hs, -⟩ := run_fork (P := fun n k i => i.Fair n k ∧ i.Modest) roomy_boot
    (fun _ _ => ⟨trivial, trivial⟩) (fun _ _ => ⟨trivial, trivial⟩) fair_fork
  obtain ⟨n', B', k', h', hcur, hz, -⟩ := h.kill (p := 1) (q := 2) (by rw [hs]; rfl) (by rw [hs]; exact ⟨rfl, rfl⟩)
    (by decide) (by rw [hs]; rfl) (by rw [hs]; exact fun hp => absurd hp.call (by decide))
  exact ⟨n', B', k', h', hz.exists_, hz.exited, hcur⟩

/-! ### The second kill -/

/-- What a call that is harmless for all but process `z` leaves as it was. -/
structure Harmless (z : ℕ) (k k' : State) : Prop where
  handles : k'.handles = k.handles
  npages : k'.pages.npages = k.pages.npages
  frames : k'.pages.live = k.pages.live
  once : k'.pages.freedTwice = k.pages.freedTwice
  heap : k'.heap = k.heap
  others : ∀ q, q ≠ z → k'.sched.procs q = k.sched.procs q

/-- A call of `kill` for a process that exists releases its pages. -/
theorem syscallKill_releases {res : ℤ} (hz : z < MAX_PROCESSES) (hex : (k.sched.procs z).exists_ = true)
    (hok : syscallKill p z k = .ok res k') :
    k'.pages.npages < k.pages.npages ∧
      (k'.pages.freedTwice = true ∨ k'.pages.live.length < k.pages.live.length) := by
  unfold syscallKill at hok
  rw [run_get, if_neg] at hok
  · obtain ⟨_, k₁, hkill, hpure⟩ := bind_ok hok
    cases hpure
    obtain ⟨e, P, hrel, -, hout⟩ := (acts_killProcess (o := k.outline) _).ok rfl hkill
    have hpages : k'.pages = P := congrArg Outline.pages hout
    rw [hpages]
    exact releasePages_again hrel
  · rintro (h | h | h)
    · omega
    · omega
    · rw [Int.toNat_natCast, hex] at h
      cases h

theorem syscallKill_harms (hz : z < MAX_PROCESSES) (hex : (k.sched.procs z).exists_ = true) :
    ¬ ∃ res k', syscallKill p z k = .ok res k' ∧ Harmless z k k' := by
  rintro ⟨res, k', hok, hharm⟩
  have hlt := (syscallKill_releases hz hex hok).1
  rw [hharm.npages] at hlt
  exact Nat.lt_irrefl _ hlt

/-- **Killing a zombie is never harmless**: its page directory is released once more, twice in a row or from under a
process that has got it since. -/
theorem kill_zombie (p : ℕ) (hz : z < MAX_PROCESSES) (hex : (k.sched.procs z).exists_ = true)
    (_hexited : (k.sched.procs z).exited = true) :
    (¬ ∃ res k', syscallKill p z k = .ok res k' ∧ Harmless z k k') ∧
      ∀ res k', syscallKill p z k = .ok res k' →
        k'.pages.freedTwice = true ∨ k'.pages.live.length < k.pages.live.length := by
  constructor
  · exact syscallKill_harms hz hex
  · intro res k' hok
    exact (syscallKill_releases hz hex hok).2

/-- The child that was killed is killed again. -/
theorem kill_zombie_again :
    ∃ n B k, Run Machine.bare (fun n k i => i.Fair n k ∧ i.Modest) n B k ∧ (k.sched.procs 2).exited = true ∧
      ∀ res k', syscallKill 1 2 k = .ok res k' →
        k'.pages.freedTwice = true ∨ k'.pages.live.length < k.pages.live.length := by
  obtain ⟨n, B, k, h, hex, hexited, -⟩ := run_zombie
  exact ⟨n, B, k, h, hexited, (kill_zombie 1 (by decide) hex hexited).2⟩

/-- In a reachable state a process that has exited is killed, and this is not harmless. -/
theorem kill_zombie_harms :
    ∃ n B k, Run Machine.bare (fun n k i => i.Fair n k ∧ i.Modest) n B k ∧ k.sched.current = some 1 ∧
      (k.sched.procs 2).exists_ = true ∧ (k.sched.procs 2).exited = true ∧
      ¬ ∃ res k', syscallKill 1 2 k = .ok res k' ∧ Harmless 2 k k' := by
  obtain ⟨n, B, k, h, hex, hexited, hcur⟩ := run_zombie
  exact ⟨n, B, k, h, hcur, hex, hexited, syscallKill_harms (by decide) hex⟩

/-! ### Messages to a zombie -/

theorem storeBlock_fits {block size off : ℕ} {bs : List UInt8} (h : off + bs.length ≤ size) :
    storeBlock block size off bs k =
      .ok () { k with heap := { k.heap with bytes := storeBytes k.heap.bytes (block + off) bs } } := if_pos h

/-- A message is delivered once there is a mailbox and the data has been read. -/
theorem deliver_ok (p tag data size : ℕ) {d box : ℕ} {k₁ : State} {v : Proc} {bytes : List UInt8}
    (hbox : mailboxOf d k = .ok box k₁) (hs : k₁.sched = k.sched) (hv : accept (k.sched.procs d) box = v)
    (hpos : 1 ≤ v.mailboxSize) (hroom : v.mailboxSize ≤ v.mailboxAlloc) (hawake : v.receiveBlocked = false)
    (hread : ∀ h, ∃ log, readUserBytes p data size 0 { k₁ with sched := k.sched.set d v, heap := h } =
      .ok bytes { k₁ with sched := k.sched.set d v, heap := h, log := log })
    (hlen : bytes.length ≤ MAX_MESSAGE_SIZE) :
    ∃ (header : List UInt8) (log : List ℕ), header.length = 12 ∧ deliver p d tag data size k = .ok 0 { k₁ with
      sched := k.sched.set d v
      heap := { k₁.heap with
        bytes := storeBytes (storeBytes k₁.heap.bytes (box + (v.mailboxSize - 1) * MESSAGE_SIZE) header)
          (box + ((v.mailboxSize - 1) * MESSAGE_SIZE + 12)) bytes }
      log := log } := by
  let k₂ : State := { k₁ with sched := k.sched.set d v }
  have hset : schedDo (fun S => .ok (S.set d (accept (S.procs d) box))) k₁ = .ok () k₂ := by
    unfold schedDo
    rw [hs]
    show EStateM.Result.ok () { k₁ with sched := k.sched.set d (accept (k.sched.procs d) box) } = _
    rw [hv]
  have hv₂ : k₂.sched.procs d = v := Function.update_self ..
  have hdata : (v.mailboxSize - 1) * MESSAGE_SIZE + 12 + bytes.length ≤ v.mailboxAlloc * MESSAGE_SIZE := by
    simp only [MESSAGE_SIZE, MAX_MESSAGE_SIZE] at hlen ⊢
    omega
  have hhead : (v.mailboxSize - 1) * MESSAGE_SIZE + 12 ≤ v.mailboxAlloc * MESSAGE_SIZE :=
    (Nat.le_add_right _ _).trans hdata
  let header := wordBytes (k₂.sched.procs p).pid ++ wordBytes tag ++ wordBytes size
  obtain ⟨log, hbytes⟩ := hread { k₁.heap with
    bytes := storeBytes k₁.heap.bytes (box + (v.mailboxSize - 1) * MESSAGE_SIZE) header }
  refine ⟨header, log, rfl, ?_⟩
  unfold deliver
  rw [run_bind hbox, run_bind hset, run_get]
  simp only [hv₂]
  rw [run_bind (storeBlock_fits hhead), run_bind hbytes, run_bind (storeBlock_fits hdata), hawake]
  rfl

/-- An empty message is delivered once there is a mailbox. -/
theorem deliver_empty (p tag data : ℕ) {d box : ℕ} {k₁ : State} {v : Proc} (hbox : mailboxOf d k = .ok box k₁)
    (hs : k₁.sched = k.sched) (hv : accept (k.sched.procs d) box = v) (hpos : 1 ≤ v.mailboxSize)
    (hroom : v.mailboxSize ≤ v.mailboxAlloc) (hawake : v.receiveBlocked = false) :
    ∃ bytes log, deliver p d tag data 0 k = .ok 0 { k₁ with
      sched := k.sched.set d v
      heap := { k₁.heap with bytes := bytes }
      log := log } := by
  obtain ⟨header, log, -, hok⟩ := deliver_ok p tag data 0 hbox hs hv hpos hroom hawake (fun _ => ⟨_, rfl⟩)
    (Nat.zero_le _)
  exact ⟨_, log, hok⟩

/-- A call of `send` that passes the checks. -/
theorem syscallSend_valid {tag data size : ℕ} (hlt : q < MAX_PROCESSES) (hex : (k.sched.procs q).exists_ = true)
    (hvalid : validPointer (k.space p) data size = true) (hsize : size ≤ MAX_MESSAGE_SIZE)
    (hroom : (k.sched.procs q).mailbox ≠ none → (k.sched.procs q).mailboxSize < (k.sched.procs q).mailboxAlloc) :
    syscallSend p q tag data size k = deliver p q tag data size k := by
  unfold syscallSend
  rw [run_get, if_pos, if_neg, if_neg, if_neg, Int.toNat_natCast]
  · rintro ⟨hbox, hle⟩
    rw [Int.toNat_natCast] at hbox hle
    have := hroom hbox
    omega
  · exact Nat.not_lt_of_le hsize
  · rw [Int.toNat_natCast, hex]
    simp only [Bool.true_eq_false, or_false]
    omega
  · exact hvalid

theorem syscallSend_empty {tag data : ℕ} (hlt : q < MAX_PROCESSES) (hex : (k.sched.procs q).exists_ = true)
    (hroom : (k.sched.procs q).mailbox ≠ none → (k.sched.procs q).mailboxSize < (k.sched.procs q).mailboxAlloc) :
    syscallSend p q tag data 0 k = deliver p q tag data 0 k :=
  syscallSend_valid hlt hex rfl (Nat.zero_le _) hroom

/-- **A first message**: the receiver has no mailbox yet. -/
theorem syscallSend_first {box : ℕ} {heap : Heap} (q tag a size : ℕ) (hmap : Mapped m k) (hp : k.sched.Live p)
    (hq : k.sched.Live q) (hlt : q < MAX_PROCESSES) (hnone : (k.sched.procs q).mailbox = none)
    (hawake : (k.sched.procs q).receiveBlocked = false)
    (halloc : buddyAlloc .kernel k.heap (8 * MESSAGE_SIZE) = .ok (box, heap)) (hregion : (k.space p).Region a size)
    (hvalid : validPointer (k.space p) a size = true) (hsize : size ≤ MAX_MESSAGE_SIZE) :
    ∃ log bytes, syscallSend p q tag a size { k with sched := enter k.sched p SYSCALL_SEND } = .ok 0 { k with
      sched := (enter k.sched p SYSCALL_SEND).set q (accept ((enter k.sched p SYSCALL_SEND).procs q) box)
      heap := { heap with bytes := bytes }
      log := log } ∧ ∀ x, box + 12 + size ≤ x → bytes x = heap.bytes x := by
  let k₁ : State := { k with sched := enter k.sched p SYSCALL_SEND }
  have hproc : k₁.sched.procs q =
      { k.sched.procs q with inSyscall := if q = p then SYSCALL_SEND else (k.sched.procs q).inSyscall } := enter_proc _ _ _ _
  have hnone₁ : (k₁.sched.procs q).mailbox = none := by
    rw [hproc]
    exact hnone
  have hbox : mailboxOf q k₁ = .ok box { k₁ with heap := heap } := by
    unfold mailboxOf
    rw [run_get, hnone₁]
    exact kmalloc_ok (k := k₁) halloc
  have hv : accept (k₁.sched.procs q) box =
      { k₁.sched.procs q with mailboxAlloc := 8, mailboxSize := 1, mailbox := some box } := by
    unfold accept
    rw [hnone₁]
  obtain ⟨forked, asp, hsafe⟩ := id hmap
  have hread : ∀ (S : Sched) (h : Heap), ∃ log,
      readUserBytes p a size 0 { k with sched := S, heap := h } =
        .ok (userBytes k p a size) { k with sched := S, heap := h, log := log } := by
    intro S h
    have hsound : Sound { k with sched := S, heap := h } p := by
      have := hsafe.sound hp
      exact ⟨this.text, this.text_lt, this.data, this.data_lt, this.stack, this.stack_le, this.mapped⟩
    obtain ⟨k', hk', hl⟩ := readUserBytes_ok hsound (j := 0) (a := a) (n := size) (by
      intro i hi
      rw [Nat.zero_add]
      exact hregion i hi)
    obtain ⟨as, -, rfl⟩ := hl
    refine ⟨as ++ k.log, ?_⟩
    rw [hk']
    simp only [Nat.zero_add]
    rfl
  have hcount : (accept (k₁.sched.procs q) box).mailboxSize = 1 := by rw [hv]
  have hcap : (accept (k₁.sched.procs q) box).mailboxAlloc = 8 := by rw [hv]
  have hkeep : (accept (k₁.sched.procs q) box).receiveBlocked = false := by
    rw [hv, hproc]
    exact hawake
  obtain ⟨header, log, hheader, hdel⟩ := deliver_ok p tag a size hbox rfl rfl hcount.ge
    (by rw [hcount, hcap]; decide) hkeep (hread _) ((userBytes_length _ _ _ _).trans_le hsize)
  rw [hcount, Nat.sub_self, Nat.zero_mul, Nat.zero_add, Nat.add_zero] at hdel
  refine ⟨log, _, (syscallSend_valid (k := k₁) hlt ?_ hvalid hsize fun hne => absurd hnone₁ hne).trans hdel, fun x hx => ?_⟩
  · rw [hproc]
    exact hq.1
  · have hlen := userBytes_length k p a size
    rw [storeBytes_of_outside _ (Or.inr (by omega)), storeBytes_of_outside _ (Or.inr (by omega))]

set_option maxRecDepth 10000 in
theorem allocs_mailbox : (allocs (startSizes ++ [8 * MESSAGE_SIZE]) bootHeap).isOk = true := by decide +kernel

/-- The registers of a call of `send`. -/
def sendRegs : Regs := { Regs.zero with eax := SYSCALL_SEND }

/-- A message to a live process. -/
theorem Whole.fair_send (h : Whole n C k.objects) (hq : k.sched.Live q) {args : List ℕ}
    (hdest : (toInt (args.getD 0 0)).toNat = q) :
    (Input.event (.call sendRegs args)).Fair n k ∧ (Input.event (.call sendRegs args)).Modest := by
  refine ⟨fun p _ => ⟨fun hno => absurd hno (by decide), fun _ _ => ?_⟩, fun hno => absurd hno (by decide)⟩
  rw [hdest]
  refine ⟨hq.1, h.fresh q hq, fun hexited => ?_⟩
  rw [hq.2] at hexited
  cases hexited

/-- The child and its mailbox at `box`, with one message. -/
def posted (box : ℕ) : Sched :=
  leave ((enter twoProcesses 1 SYSCALL_SEND).set 2 (accept ((enter twoProcesses 1 SYSCALL_SEND).procs 2) box)) 1
    SYSCALL_SEND sendRegs 0

/-- **A first message**: process 1 sends an empty message to its child. -/
theorem run_posted :
    ∃ n B k k₁ box, Run Machine.bare (fun n k i => i.Fair n k ∧ i.Modest) n B k ∧ k.sched = twoProcesses ∧
      syscallSend 1 2 0 0 0 { k with sched := enter k.sched 1 SYSCALL_SEND } = .ok 0 k₁ ∧
      ∃ n' B' k', Run Machine.bare (fun n k i => i.Fair n k ∧ i.Modest) n' B' k' ∧ k'.sched = posted box := by
  obtain ⟨n, B, k, h, hmap, hs, hserves⟩ := run_fork (P := fun n k i => i.Fair n k ∧ i.Modest) roomy_boot
    (fun _ _ => ⟨trivial, trivial⟩) (fun _ _ => ⟨trivial, trivial⟩) fair_fork
  obtain ⟨hserve, hsteady, C, hwhole, -⟩ := h.standing fun _ _ _ hP => hP.1
  have hcur : k.sched.current = some 1 := by
    rw [hs]
    rfl
  have hlive₁ : k.sched.Live 1 := by
    rw [hs]
    exact ⟨rfl, rfl⟩
  have hlive₂ : k.sched.Live 2 := by
    rw [hs]
    exact ⟨rfl, rfl⟩
  obtain ⟨box, heap, halloc⟩ := alloc_of_serves allocs_mailbox hserves
  obtain ⟨log, bytes, hsend, -⟩ := syscallSend_first 2 0 0 0 hmap hlive₁ hlive₂ (by decide)
    (by rw [hs]; rfl) (by rw [hs]; rfl) halloc (fun i hi => absurd hi (Nat.not_lt_zero i)) rfl (Nat.zero_le _)
  have hdis : dispatch Machine.bare 1 sendRegs sendRegs.eax [2, 0, 0, 0] { k with sched := enter k.sched 1 SYSCALL_SEND } =
      .ok (0, sendRegs) _ := run_bind hsend
  refine ⟨n, B, k, _, box, h, hs, hsend, _, _, _, h.call hcur (hwhole.fair_send hlive₂ rfl) hdis, ?_⟩
  show leave ((enter k.sched 1 SYSCALL_SEND).set 2 (accept ((enter k.sched 1 SYSCALL_SEND).procs 2) box)) 1 SYSCALL_SEND
    sendRegs 0 = _
  rw [hs]
  rfl

/-- The first message of the parent to its child. -/
theorem send_of_run_first :
    ∃ n B k k' box, Run Machine.bare (fun n k i => i.Fair n k) n B k ∧
      syscallSend 1 2 0 0 0 { k with sched := enter k.sched 1 SYSCALL_SEND } = .ok 0 k' ∧ OwnsBox n.stale k' 2 box := by
  obtain ⟨n, B, k, k', -, h, hs, hok, -⟩ := run_posted
  have hfair := h.refine (Q := fun n k i => i.Fair n k) fun _ _ _ _ _ hP => hP.1
  obtain ⟨-, -, C, hwhole, -⟩ := hfair.standing fun _ _ _ hP => hP
  have hlive : k.sched.Live 2 := by
    rw [hs]
    exact ⟨rfl, rfl⟩
  have hcur : k.sched.current = some 1 := by
    rw [hs]
    rfl
  obtain ⟨box, hbox⟩ := send_of_run [2, 0, 0, 0] hfair hcur ((hwhole.fair_send hlive rfl).1 1 hcur) hok
  exact ⟨n, B, k, k', box, hfair, hok, hbox⟩

/-- **A message to a zombie** is stored in a buffer that has been freed. -/
theorem send_to_zombie :
    ∃ n B k k' box, Run Machine.bare (fun n k i => i.Fair n k) n B k ∧ k.sched.current = some 1 ∧
      (k.sched.procs 2).exited = true ∧
      syscallSend 1 2 0 0 0 { k with sched := enter k.sched 1 SYSCALL_SEND } = .ok 0 k' ∧
      (k'.sched.procs 2).mailbox = some box ∧ ∀ N, ¬ Allocated kernelRegion k'.heap box N := by
  obtain ⟨-, -, -, -, box, -, -, -, n, B, k, h, hs⟩ := run_posted
  obtain ⟨n', B', k', h', hcur, hz, hfreed⟩ := h.kill (p := 1) (q := 2) (by rw [hs]; rfl)
    (by rw [hs]; exact ⟨rfl, rfl⟩) (by decide) (by rw [hs]; rfl)
    (by
      rw [hs]
      intro hp
      have hcall : (0 : ℕ) = SYSCALL_READ := hp.call
      exact absurd hcall (by decide))
  let k₁ : State := { k' with sched := enter k'.sched 1 SYSCALL_SEND }
  have hproc : k₁.sched.procs 2 = k'.sched.procs 2 := by
    show (enter k'.sched 1 SYSCALL_SEND).procs 2 = _
    rw [enter_proc]
    rfl
  have hbox : (k₁.sched.procs 2).mailbox = some box := by
    rw [hproc, hz.mailbox, hs]
    rfl
  have hsize : (k₁.sched.procs 2).mailboxSize = 1 := by
    rw [hproc, hz.mailboxSize, hs]
    rfl
  have halloc : (k₁.sched.procs 2).mailboxAlloc = 8 := by
    rw [hproc, hz.mailboxAlloc, hs]
    rfl
  have hawake : (k₁.sched.procs 2).receiveBlocked = false := by
    rw [hproc, hz.receiveBlocked, hs]
    rfl
  have hof : mailboxOf 2 k₁ = .ok box k₁ := by
    unfold mailboxOf
    rw [run_get, hbox]
    rfl
  have hv := accept_some hbox hsize halloc
  obtain ⟨bytes, log, hdel⟩ := deliver_empty 1 0 0 hof rfl hv (show (1 : ℕ) ≤ 2 by decide)
    (show (2 : ℕ) ≤ 8 by decide) hawake
  rw [← syscallSend_empty (p := 1) (q := 2) (by decide) (by rw [hproc]; exact hz.exists_)
    fun _ => by rw [hsize, halloc]; decide] at hdel
  apply Exists.intro n'
  apply Exists.intro B'
  apply Exists.intro k'
  apply Exists.intro
  refine ⟨box, h'.refine fun _ _ _ _ _ hP => hP.1, hcur, hz.exited, hdel, ?_, ?_⟩
  · show (Function.update k₁.sched.procs 2 _ 2).mailbox = some box
    rw [Function.update_self]
    rfl
  · intro N
    exact hfreed box (by rw [hs]; rfl) N

end AdelaideOS.Kernel
