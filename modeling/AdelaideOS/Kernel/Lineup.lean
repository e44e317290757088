import AdelaideOS.Kernel.Answers
import AdelaideOS.Kernel.Objects
import AdelaideOS.Process.Resumes

/-!
# The ready list through the handlers

What reading, receiving, waiting and dying do to the two lists, in any state whose lists are well formed and agree with
the `ready` flags.  Nothing is supposed of the processes that pipes and parents name: whoever is woken up exists and was
not marked as ready.

* **`Lined.suspend`**, **`Lined.resume`** — one process changes lists;
* **`read_rests`**, **`receive_rests`**, **`waitpid_rests`** — the calls that suspend;
* **`kill_stirs`** — the end of a process.
-/

namespace AdelaideOS.Kernel

open AdelaideOS.Lib.Bytes AdelaideOS.Lib.Triple AdelaideOS.Lib.View AdelaideOS.Process

variable {α β : Type} {k k' : State} {S S' : Sched} {R U : List ℕ} {p q : ℕ} {fs : Memory}

/-! ### Lists and flags -/

/-- The two lists are well formed and agree with the `ready` flags. -/
structure Lined (S : Sched) (R U : List ℕ) : Prop where
  layout : Layout S.links S.ready S.suspended R U
  ready : ∀ q ∈ R, (S.procs q).ready = true
  suspended : ∀ q ∈ U, (S.procs q).ready = false

theorem lined_of_inv {A : ℕ → Prop} (h : Process.Inv S A R U) : Lined S R U :=
  ⟨h.layout, fun q hq => ((h.mem_ready q).mp hq).2, fun q hq => ((h.mem_suspended q).mp hq).2⟩

theorem Lined.congr (h : Lined S R U) (hlists : SameLists S S') (hready : ∀ q, (S'.procs q).ready = (S.procs q).ready) :
    Lined S' R U := by
  obtain ⟨hL, hR, hU⟩ := hlists
  refine ⟨?_, fun q hq => (hready q).trans (h.ready q hq), fun q hq => (hready q).trans (h.suspended q hq)⟩
  rw [hL, hR, hU]
  exact h.layout

theorem Lined.set {v : Proc} (h : Lined S R U) (hv : v.ready = (S.procs p).ready) : Lined (S.set p v) R U := by
  refine h.congr ⟨rfl, rfl, rfl⟩ fun q => ?_
  by_cases hq : q = p
  · simp [hq, hv]
  · simp [hq]

/-- **A process goes to sleep.** -/
theorem Lined.suspend (h : Lined S R U) (hok : suspendProcess S p = .ok S') :
    Lined S' (R.erase p) (p :: U) ∧ (p ∉ U) := by
  obtain ⟨-, hready, rfl⟩ := suspendProcess_ok hok
  have hU : p ∉ U := fun hp => by
    have := h.suspended p hp
    rw [hready] at this
    cases this
  have hR : p ∉ R.erase p := h.layout.ready.nodup.not_mem_erase
  have hlayout := Layout.addSuspended (Layout.removeReady
    (S := S.set p { S.procs p with ready := false }) h.layout hU) hR hU
  refine ⟨⟨hlayout, fun q hq => ?_, fun q hq => ?_⟩, hU⟩
  · have hqp : q ≠ p := fun he => hR (he ▸ hq)
    show (Function.update S.procs p { S.procs p with ready := false } q).ready = true
    rw [Function.update_of_ne hqp]
    exact h.ready q (List.mem_of_mem_erase hq)
  · show (Function.update S.procs p { S.procs p with ready := false } q).ready = false
    by_cases hqp : q = p
    · rw [hqp, Function.update_self]
    · rw [Function.update_of_ne hqp]
      exact h.suspended q ((List.mem_cons.mp hq).resolve_left hqp)

/-- **A process is woken up.** -/
theorem Lined.resume (h : Lined S R U) (hok : resumeProcess S p = .ok S') :
    Lined S' (p :: R) (U.erase p) := by
  obtain ⟨-, hready, rfl⟩ := resumeProcess_ok hok
  have hR : p ∉ R := fun hp => by
    have := h.ready p hp
    rw [hready] at this
    cases this
  have hU : p ∉ U.erase p := h.layout.suspended.nodup.not_mem_erase
  have hlayout := Layout.addReady (Layout.removeSuspended
    (S := S.set p { S.procs p with ready := true }) h.layout hR) hR hU
  refine ⟨hlayout, fun q hq => ?_, fun q hq => ?_⟩
  · show (Function.update S.procs p { S.procs p with ready := true } q).ready = true
    by_cases hqp : q = p
    · rw [hqp, Function.update_self]
    · rw [Function.update_of_ne hqp]
      exact h.ready q ((List.mem_cons.mp hq).resolve_left hqp)
  · have hqp : q ≠ p := fun he => hU (he ▸ hq)
    show (Function.update S.procs p { S.procs p with ready := true } q).ready = false
    rw [Function.update_of_ne hqp]
    exact h.suspended q (List.mem_of_mem_erase hq)

/-- **A process leaves its list.** -/
theorem Lined.detach (h : Lined S R U) (p : ℕ) : Lined (Process.detach S p) (R.erase p) (U.erase p) := by
  have hlayout := detach_layout (p := p) h.layout (fun hr hp => by rw [h.ready p hp] at hr; cases hr)
    fun hr hp => by rw [h.suspended p hp] at hr; cases hr
  refine ⟨hlayout, fun q hq => ?_, fun q hq => ?_⟩
  · rw [detach_procs]
    exact h.ready q (List.mem_of_mem_erase hq)
  · rw [detach_procs]
    exact h.suspended q (List.mem_of_mem_erase hq)

theorem Lined.pickNext_mem (h : Lined S R U) (hcur : ∀ p, S.current = some p → (S.procs p).ready = true → p ∈ R)
    (hq : pickNext S = some q) : q ∈ R := by
  unfold pickNext at hq
  cases hS : S.current with
  | none =>
    rw [hS] at hq
    exact h.layout.ready.first_mem hq
  | some p =>
    rw [hS] at hq
    replace hq : (if (S.procs p).ready = true then (S.links.next p).orElse fun _ => S.ready.first else S.ready.first) =
      some q := hq
    by_cases hready : (S.procs p).ready = true
    · rw [if_pos hready] at hq
      cases hnext : S.links.next p with
      | none =>
        rw [hnext] at hq
        exact h.layout.ready.first_mem hq
      | some n =>
        rw [hnext] at hq
        obtain rfl : n = q := Option.some.inj hq
        exact h.layout.ready.next_mem (hcur p hS hready) hnext
    · rw [if_neg hready] at hq
      exact h.layout.ready.first_mem hq

/-! ### Computations that do not touch the scheduler -/

abbrev Unmoved {α : Type} (m : K α) : Prop := Still State.sched AnyFault m

theorem unmoved_of_remote {m : K α} (h : Remote m) : Unmoved m := by
  intro S
  constructor
  intro k hk
  have hrun := (h k.objects).run k rfl
  cases hm : m k with
  | error e k' => trivial
  | ok a k' =>
    rw [hm] at hrun
    show k'.sched = S
    exact (congrArg Objects.sched hrun).trans hk

theorem unmoved_lift (x : Except Fault α) : Unmoved (lift x) := by
  intro S
  constructor
  intro k hk
  unfold lift
  cases x with
  | ok a => exact hk
  | error e => trivial

theorem unmoved_onHeap (f : Buddy.Heap → Except Fault (α × Buddy.Heap)) : Unmoved (onHeap f) := by
  intro S
  constructor
  intro k hk
  unfold onHeap
  cases f k.heap with
  | ok x => exact hk
  | error e => trivial

theorem unmoved_getHandle (a : ℕ) : Unmoved (getHandle a) := by
  intro S
  constructor
  intro k hk
  unfold getHandle
  cases k.handles a with
  | some fh => exact hk
  | none => trivial

theorem unmoved_getPipe (b : ℕ) : Unmoved (getPipe b) := by
  intro S
  constructor
  intro k hk
  unfold getPipe
  cases k.pipes b with
  | some pb => exact hk
  | none => trivial

theorem unmoved_setHandle (a : ℕ) (fh : Option Filehandle) : Unmoved (setHandle a fh) := still_modify fun _ => rfl

theorem unmoved_setPipe (b : ℕ) (pb : Option PipeBuffer) : Unmoved (setPipe b pb) := still_modify fun _ => rfl

theorem unmoved_storeBlock (block size off : ℕ) (bs : List UInt8) : Unmoved (storeBlock block size off bs) := by
  intro S
  constructor
  intro k hk
  unfold storeBlock
  split
  · exact hk
  · trivial

theorem unmoved_growPipe (b count : ℕ) : Unmoved (growPipe b count) := by
  refine (unmoved_getPipe b).bind fun pb => Still.ite ?_ (still_pure pb)
  refine (unmoved_lift _).bind fun alloc => (unmoved_onHeap _).bind fun newdata => still_get fun k => ?_
  exact (unmoved_storeBlock _ _ _ _).bind fun _ => (unmoved_onHeap _).bind fun _ =>
    (unmoved_setPipe b _).bind fun _ => still_pure _

theorem Unmoved.sched {m : K α} {a : α} (h : Unmoved m) (hok : m k = .ok a k') : k'.sched = k.sched :=
  (h k.sched).ok rfl hok

/-! ### Going to sleep -/

theorem schedDo_eq {f : Sched → Except Fault Sched} {u : Unit} (hok : schedDo f k = .ok u k') :
    f k.sched = .ok k'.sched := by
  unfold schedDo at hok
  cases hf : f k.sched with
  | error e =>
    rw [hf] at hok
    cases hok
  | ok S =>
    rw [hf] at hok
    cases hok
    rfl

/-- What a call that may suspend its caller `p` does: if it answers `-ESUSPEND` then `p` changes lists, else no process
does. -/
structure Rests (p : ℕ) (res : ℤ) (S S' : Sched) : Prop where
  lists : ∀ R U, Lined S R U → ∃ U', Lined S' (if res = -ESUSPEND then R.erase p else R) U'
  asleep : res = -ESUSPEND → (S.procs p).ready = true ∧ (S'.procs p).ready = false

theorem rests_still {res : ℤ} (hres : res ≠ -ESUSPEND) (h : ∀ R U, Lined S R U → Lined S' R U) : Rests p res S S' where
  lists := fun R U hl => by
    rw [if_neg hres]
    exact ⟨U, h R U hl⟩
  asleep := fun hno => absurd hno hres

theorem rests_same {res : ℤ} (hres : res ≠ -ESUSPEND) (h : S' = S) : Rests p res S S' :=
  rests_still hres fun _ _ hl => h ▸ hl

theorem rests_asleep (v : Proc) (hv : v.ready = (S.procs p).ready) (hok : suspendProcess (S.set p v) p = .ok S') :
    Rests p (-ESUSPEND) S S' := by
  constructor
  · intro R U hl
    rw [if_pos rfl]
    exact ⟨_, ((hl.set hv).suspend hok).1⟩
  · intro _
    obtain ⟨-, hready, rfl⟩ := suspendProcess_ok hok
    rw [set_procs, Function.update_self, hv] at hready
    refine ⟨hready, ?_⟩
    show (Function.update (S.set p v).procs p { (S.set p v).procs p with ready := false } p).ready = false
    rw [Function.update_self]

theorem fileRead_rests {a buf count : ℕ} {fh : Filehandle} {res : ℤ} (hlen : ∀ n ≤ count, toInt n ≠ -ESUSPEND)
    (hok : fileRead fs p a fh buf count k = .ok res k') : Rests p res k.sched k'.sched := by
  unfold fileRead at hok
  by_cases hend : entrySize fs fh.entry ≤ fh.pos
  · replace hok := (congrFun (if_pos hend) k).symm.trans hok
    cases hok
    exact rests_same (by decide) rfl
  · replace hok := (congrFun (if_neg hend) k).symm.trans hok
    have hread : readable (entrySize fs fh.entry) fh.pos count ≤ count := by
      unfold readable
      split
      · rename_i hlt
        have := Nat.mod_le (fh.pos + count) wordSize
        omega
      · exact Nat.le_refl _
    obtain ⟨_, k₁, h₁, hok⟩ := bind_ok hok
    have hsame : k₁.sched = k.sched := (unmoved_of_remote (remote_writeUserBytes p buf _ 0)).sched h₁
    cases hok
    exact rests_same (hlen _ hread) hsame

theorem takeFromPipe_rests {b buf count : ℕ} {pb : PipeBuffer} {res : ℤ} (hlen : ∀ n ≤ count, toInt n ≠ -ESUSPEND)
    (hok : takeFromPipe p b pb buf count k = .ok res k') : Rests p res k.sched k'.sched := by
  have hmove : Unmoved (takeFromPipe p b pb buf count) :=
    still_get fun k => (unmoved_of_remote (remote_writeUserBytes p buf _ 0)).bind fun _ => still_get fun k =>
      (unmoved_storeBlock _ _ _ _).bind fun _ => (unmoved_setPipe b _).bind fun _ => still_pure _
  have hres : Yields (fun res => res ≠ -ESUSPEND) (takeFromPipe p b pb buf count) :=
    Yields.bind fun k => Yields.bind fun _ => Yields.bind fun k => Yields.bind fun _ => Yields.bind fun _ =>
      settles_code (hlen _ (by split <;> omega))
  exact rests_same (hres k res k' hok) (hmove.sched hok)

theorem pipeReaderRead_rests {buf count : ℕ} {fh : Filehandle} {res : ℤ} (hlen : ∀ n ≤ count, toInt n ≠ -ESUSPEND)
    (hok : pipeReaderRead p fh buf count k = .ok res k') : Rests p res k.sched k'.sched := by
  unfold pipeReaderRead at hok
  obtain ⟨pb, k₁, h₁, hok⟩ := bind_ok hok
  rw [← (unmoved_getPipe _).sched h₁]
  by_cases hother : pb.readpid ≠ none
  · rw [if_pos hother] at hok
    cases hok
    exact rests_same (by decide) rfl
  rw [if_neg hother] at hok
  by_cases hdata : 0 < pb.len
  · rw [if_pos hdata] at hok
    exact takeFromPipe_rests hlen hok
  rw [if_neg hdata] at hok
  by_cases hclosed : pb.writing = false
  · rw [if_pos hclosed] at hok
    cases hok
    exact rests_same (by decide) rfl
  · -- the caller is suspended
    rw [if_neg hclosed, run_get] at hok
    obtain ⟨_, k₂, h₂, hok⟩ := bind_ok hok
    obtain ⟨_, k₃, h₃, hok⟩ := bind_ok hok
    cases hok
    rw [← (unmoved_setPipe _ _).sched h₂]
    have hsame : k₂.sched.set p (k₂.sched.procs p) = k₂.sched := by
      unfold Sched.set
      rw [Function.update_eq_self]
    refine rests_asleep (k₂.sched.procs p) rfl ?_
    rw [hsame]
    exact schedDo_eq h₃

/-- **`read`.** -/
theorem read_rests {fd : ℤ} {buf count : ℕ} {res : ℤ} (hb : Bounded (k.space p)) (hcount : count < wordSize)
    (hok : syscallRead fs p fd buf count k = .ok res k') : Rests p res k.sched k'.sched := by
  unfold syscallRead at hok
  rw [run_get] at hok
  by_cases hvalid : validPointer (k.space p) buf count = true
  · rw [if_pos hvalid] at hok
    have hlen : ∀ n ≤ count, toInt n ≠ -ESUSPEND := fun n hn => hb.length_ne hcount hvalid hn
    cases hfd : lookupFd k p fd with
    | none =>
      rw [hfd] at hok
      cases hok
      exact rests_same (by decide) rfl
    | some a =>
      rw [hfd] at hok
      obtain ⟨fh, k₁, h₁, hok⟩ := bind_ok hok
      rw [← (unmoved_getHandle a).sched h₁]
      unfold readHandle at hok
      cases htype : fh.type with
      | screen =>
        rw [htype] at hok
        cases hok
        exact rests_same (by decide) rfl
      | pipeWriter =>
        rw [htype] at hok
        cases hok
        exact rests_same (by decide) rfl
      | dir =>
        rw [htype] at hok
        cases hok
        exact rests_same (by decide) rfl
      | file =>
        rw [htype] at hok
        exact fileRead_rests hlen hok
      | pipeReader =>
        rw [htype] at hok
        exact pipeReaderRead_rests hlen hok
  · rw [if_neg hvalid] at hok
    cases hok
    exact rests_same (by decide) rfl

theorem takeMessage_rests {box n msg : ℕ} {res : ℤ} (hok : takeMessage p box n msg k = .ok res k') :
    Rests p res k.sched k'.sched := by
  unfold takeMessage at hok
  rw [run_get] at hok
  obtain ⟨_, k₁, h₁, hok⟩ := bind_ok hok
  rw [run_get] at hok
  obtain ⟨_, k₂, h₂, hok⟩ := bind_ok hok
  cases hok
  rw [← (unmoved_of_remote (remote_writeUserBytes p msg _ 0)).sched h₁, ← (unmoved_storeBlock _ _ _ _).sched h₂]
  exact rests_still (by decide) fun _ _ hl => hl.set rfl

/-- **`receive`.** -/
theorem receive_rests {msg : ℕ} {block : Bool} {res : ℤ} (hok : syscallReceive p msg block k = .ok res k') :
    Rests p res k.sched k'.sched := by
  unfold syscallReceive at hok
  rw [run_get] at hok
  by_cases hvalid : validPointer (k.space p) msg MESSAGE_SIZE = true
  · rw [if_pos hvalid] at hok
    by_cases hmail : 0 < (k.sched.procs p).mailboxSize
    · rw [if_pos hmail] at hok
      cases hbox : (k.sched.procs p).mailbox with
      | none =>
        rw [hbox] at hok
        cases hok
      | some box =>
        rw [hbox] at hok
        exact takeMessage_rests hok
    · rw [if_neg hmail] at hok
      by_cases hblock : block = true
      · rw [if_pos hblock] at hok
        obtain ⟨_, k₁, h₁, hok⟩ := bind_ok hok
        cases hok
        exact rests_asleep _ (by rfl) (schedDo_eq h₁)
      · rw [if_neg hblock] at hok
        cases hok
        exact rests_same (by decide) rfl
  · rw [if_neg hvalid] at hok
    cases hok
    exact rests_same (by decide) rfl

/-- **`waitpid`.** -/
theorem waitpid_rests {pid : ℤ} {status : ℕ} {res : ℤ} (hok : syscallWaitpid p pid status k = .ok res k') :
    Rests p res k.sched k'.sched := by
  unfold Kernel.syscallWaitpid at hok
  rw [run_get] at hok
  obtain ⟨⟨res', value, S⟩, k₁, h₁, hok⟩ := bind_ok hok
  obtain ⟨_, k₂, -, hok⟩ := bind_ok hok
  cases hok
  have hS : Process.syscallWaitpid k.sched p pid = .ok (res, value, S) := by
    unfold lift at h₁
    cases hw : Process.syscallWaitpid k.sched p pid with
    | error e =>
      rw [hw] at h₁
      cases h₁
    | ok x =>
      rw [hw] at h₁
      cases h₁
      rfl
  show Rests p res k.sched S
  rcases syscallWaitpid_ok hS with ⟨rfl, -, hS' | hS'⟩ | ⟨c, -, -, -, rfl, -, hS'⟩ | ⟨c, -, -, -, rfl, -, hsus⟩
  · exact rests_same (by decide) hS'
  · exact rests_still (by decide) fun _ _ hl => hS' ▸ hl.set rfl
  · refine rests_still (natCast_ne c) fun _ _ hl => ?_
    rw [hS']
    exact Lined.set (Lined.set hl rfl) rfl
  · exact rests_asleep _ (by rfl) hsus

/-! ### Waking up readers -/

/-- A computation that does nothing to the processes but wake some of them up. -/
def Rouses (m : K α) : Prop := ∀ S, Acts State.sched AnyFault S m fun _ S' => Resumes (fun _ => True) S S'

theorem resumes_trans {S'' : Sched} (h : Resumes (fun _ => True) S S') (h' : Resumes (fun _ => True) S' S'') :
    Resumes (fun _ => True) S S'' := by
  induction h' with
  | refl => exact h
  | step _ hq hok ih => exact .step ih hq hok

theorem Unmoved.rouses {m : K α} (h : Unmoved m) : Rouses m := fun S => (h S).mono fun _ S' he => he ▸ .refl S'

theorem Rouses.bind {m : K β} {f : β → K α} (hm : Rouses m) (hf : ∀ b, Rouses (f b)) : Rouses (m >>= f) :=
  fun S => Acts.bind (hm S) fun b S' h => (hf b S').mono fun _ _ h' => resumes_trans h h'

theorem Rouses.ite {c : Prop} [Decidable c] {m m' : K α} (h : Rouses m) (h' : Rouses m') :
    Rouses (if c then m else m') := fun S => Acts.ite (fun _ => h S) fun _ => h' S

theorem rouses_get {f : State → K α} (h : ∀ k, Rouses (f k)) : Rouses (get >>= f) := fun S => Acts.get fun k _ => h k S

theorem rouses_pure (a : α) : Rouses (pure a : K α) := Unmoved.rouses (still_pure a)

theorem rouses_resume (q : ℕ) : Rouses (schedDo fun S => resumeProcess S q) := by
  intro S
  constructor
  intro k hk
  cases hok : schedDo (fun S => resumeProcess S q) k with
  | error e k' => trivial
  | ok u k' =>
    have hS := schedDo_eq hok
    rw [show k.sched = S from hk] at hS
    exact .step (.refl S) trivial hS

theorem rouses_wakeUpReader (b : ℕ) : Rouses (wakeUpReader b) := by
  refine (unmoved_getPipe b).rouses.bind fun pb => ?_
  cases pb.readpid with
  | none => exact rouses_pure ()
  | some q => exact (rouses_resume q).bind fun _ => (unmoved_setPipe b _).rouses

theorem rouses_writeToPipe (b count : ℕ) {source : K (List UInt8)} (h : Unmoved source) :
    Rouses (writeToPipe b count source) :=
  (unmoved_growPipe b count).rouses.bind fun _ => h.rouses.bind fun _ => (unmoved_storeBlock _ _ _ _).rouses.bind fun _ =>
    (unmoved_setPipe b _).rouses.bind fun _ => rouses_wakeUpReader b

theorem unmoved_kfree (a : ℕ) : Unmoved (kfree a) := unmoved_onHeap _

theorem unmoved_check (site : Site) (c : Prop) [Decidable c] : Unmoved (check site c) := unmoved_lift _

theorem unmoved_checkBufferFree (b : ℕ) : Unmoved (checkBufferFree b) := by
  refine (unmoved_getPipe b).bind fun pb => Still.ite ?_ (still_pure ())
  exact (unmoved_check _ _).bind fun _ => (unmoved_kfree _).bind fun _ => (unmoved_kfree b).bind fun _ => unmoved_setPipe b none

theorem rouses_destroy (a : ℕ) (fh : Filehandle) : Rouses (destroy a fh) := by
  have hplain : Rouses (plainDestroy a) := Unmoved.rouses ((unmoved_kfree a).bind fun _ => unmoved_setHandle a none)
  unfold destroy
  cases fh.type with
  | pipeWriter =>
    refine (unmoved_getPipe _).rouses.bind fun pb => (unmoved_check _ _).rouses.bind fun _ =>
      (unmoved_setPipe _ _).rouses.bind fun _ => (rouses_wakeUpReader _).bind fun _ => ?_
    exact (unmoved_checkBufferFree _).rouses.bind fun _ => hplain
  | pipeReader =>
    refine (unmoved_getPipe _).rouses.bind fun pb => (unmoved_check _ _).rouses.bind fun _ =>
      (unmoved_setPipe _ _).rouses.bind fun _ => ?_
    exact (unmoved_checkBufferFree _).rouses.bind fun _ => hplain
  | screen => exact hplain
  | file => exact hplain
  | dir => exact hplain

theorem rouses_closeFds (q : ℕ) (fds : List ℕ) : Rouses (closeFds q fds) := by
  induction fds with
  | nil => exact rouses_pure ()
  | cons fd fds ih =>
    refine rouses_get fun k => Rouses.bind ?_ fun _ => ih
    cases k.filedesc q fd with
    | none => exact rouses_pure ()
    | some a =>
      refine (unmoved_getHandle a).rouses.bind fun fh => (unmoved_check _ _).rouses.bind fun _ =>
        (unmoved_setHandle a _).rouses.bind fun _ => Rouses.ite (rouses_destroy a _) (rouses_pure ())

/-! ### Dying -/

/-- The process was on the ready list, or could be woken up. -/
def Rousable (S : Sched) (R : List ℕ) (q : ℕ) : Prop :=
  q ∈ R ∨ (S.procs q).exists_ = true ∧ (S.procs q).ready = false

/-- Since the state `S`, whose ready list was `R`, processes have only left the ready list or been woken up. -/
structure Stirred (S : Sched) (R : List ℕ) (S' : Sched) (R' : List ℕ) : Prop where
  rousable : ∀ q ∈ R', Rousable S R q
  ready : ∀ q, (S.procs q).ready = true → (S'.procs q).ready = true
  exists_ : ∀ q, (S'.procs q).exists_ = true → (S.procs q).exists_ = true

variable {R' U' : List ℕ} {S₁ : Sched}

theorem Stirred.refl (S : Sched) (R : List ℕ) : Stirred S R S R := ⟨fun _ hq => .inl hq, fun _ h => h, fun _ h => h⟩

theorem Stirred.resume (h : Stirred S R S' R') (hok : resumeProcess S' q = .ok S₁) : Stirred S R S₁ (q :: R') := by
  obtain ⟨hex, hready, -⟩ := resumeProcess_ok hok
  have hprocs := (resumeProcess_procs hok).1
  refine ⟨fun z hz => ?_, fun z hz => ?_, fun z hz => ?_⟩
  · rcases List.mem_cons.mp hz with rfl | hz
    · right
      refine ⟨h.exists_ z hex, ?_⟩
      by_contra hno
      rw [h.ready z (by simpa using hno)] at hready
      cases hready
    · exact h.rousable z hz
  · rw [hprocs]
    by_cases hzq : z = q
    · rw [hzq, Function.update_self]
    · rw [Function.update_of_ne hzq]
      exact h.ready z hz
  · rw [hprocs] at hz
    by_cases hzq : z = q
    · rw [hzq, Function.update_self] at hz
      exact hzq ▸ h.exists_ q hz
    · rw [Function.update_of_ne hzq] at hz
      exact h.exists_ z hz

/-- **Waking up** any number of processes.  Whoever was ready before is not woken up. -/
theorem Stirred.resumes (h : Stirred S R S' R') (hl : Lined S' R' U') (hres : Resumes (fun _ => True) S' S₁) :
    ∃ R₁ U₁, Stirred S R S₁ R₁ ∧ Lined S₁ R₁ U₁ ∧ (∀ q ∈ R', q ∈ R₁) ∧
      ∀ p, (S.procs p).ready = true → p ∉ R' → p ∉ R₁ := by
  induction hres with
  | refl => exact ⟨R', U', h, hl, fun _ hq => hq, fun _ _ hout => hout⟩
  | @step S₂ S₃ q _ _ hok ih =>
    obtain ⟨R₁, U₁, h₁, hl₁, hin₁, hout₁⟩ := ih
    refine ⟨_, _, h₁.resume hok, hl₁.resume hok, fun z hz => List.mem_cons_of_mem _ (hin₁ z hz), fun p hp hout => ?_⟩
    rw [List.mem_cons, not_or]
    refine ⟨?_, hout₁ p hp hout⟩
    rintro rfl
    obtain ⟨-, hready, -⟩ := resumeProcess_ok hok
    rw [h₁.ready p hp] at hready
    cases hready

/-- The entry of the dying process is settled, and its parent may be woken up. -/
theorem Stirred.bury (h : Stirred S R S' R') (hl : Lined S' R' U') (hp : (S.procs p).ready = true) (hout : p ∉ R')
    (hok : Process.bury S' p = .ok S₁) : ∃ R₁ U₁, Stirred S R S₁ R₁ ∧ Lined S₁ R₁ U₁ ∧ p ∉ R₁ := by
  obtain ⟨hprocs, -, hcases⟩ := bury_ok hok
  have hex : ∀ q, (S₁.procs q).exists_ = true → (S.procs q).exists_ = true := by
    intro q hq
    rw [hprocs] at hq
    apply h.exists_
    have hq' : (if q = p ∧ survivingParent S' p = none then false else (S'.procs q).exists_) = true := hq
    by_cases hc : q = p ∧ survivingParent S' p = none
    · rw [if_pos hc] at hq'
      cases hq'
    · rwa [if_neg hc] at hq'
  have hflag : ∀ q, (S₁.procs q).ready = if Wakes S' p q then true else (S'.procs q).ready := by
    intro q
    rw [hprocs]
    rfl
  have hready : ∀ q, (S.procs q).ready = true → (S₁.procs q).ready = true := by
    intro q hq
    rw [hflag, h.ready q hq]
    exact ite_self _
  rcases hcases with ⟨hno, hlists⟩ | ⟨q, hwake, hqex, hqready, hlists⟩
  · refine ⟨R', U', ⟨h.rousable, hready, hex⟩, hl.congr hlists fun z => ?_, hout⟩
    rw [hflag, if_neg (hno z)]
  · -- the parent is woken up as `resume_process` does it
    let S₂ : Sched := ((S'.set q { S'.procs q with ready := true }).removeSuspended q).addReady q
    have hres : resumeProcess S' q = .ok S₂ := by
      unfold resumeProcess
      rw [assert_pos hqex, assert_pos hqready]
      rfl
    obtain ⟨R₁, U₁, h₁, hl₁, -, hout₁⟩ := h.resumes hl (.step (.refl S') trivial hres)
    refine ⟨R₁, U₁, ⟨h₁.rousable, hready, hex⟩, hl₁.congr hlists fun z => ?_, hout₁ p hp hout⟩
    rw [hflag, (resumeProcess_procs hres).1]
    by_cases hz : z = q
    · rw [hz, if_pos hwake, Function.update_self]
    · rw [if_neg fun hw => hz (hw.unique hwake), Function.update_of_ne hz]

/-- **The death of a process.** -/
theorem kill_stirs {u : Unit} (hl : Lined k.sched R U) (hp : (k.sched.procs p).ready = true)
    (hok : killProcess p k = .ok u k') : ∃ R' U', Stirred k.sched R k'.sched R' ∧ Lined k'.sched R' U' ∧ p ∉ R' := by
  unfold Kernel.killProcess at hok
  obtain ⟨_, k₁, h₁, hok⟩ := bind_ok hok
  obtain ⟨_, k₂, h₂, hok⟩ := bind_ok hok
  rw [run_get] at hok
  obtain ⟨_, k₃, h₃, hok⟩ := bind_ok hok
  obtain ⟨_, k₄, h₄, hok⟩ := bind_ok hok
  have hdetach : k₁.sched = Process.detach k.sched p := by
    have := schedDo_eq h₁
    exact (Except.ok.inj this).symm
  have hstir : Stirred k.sched R k₁.sched (R.erase p) := by
    rw [hdetach]
    refine ⟨fun q hq => .inl (List.mem_of_mem_erase hq), fun q hq => ?_, fun q hq => ?_⟩
    · rwa [detach_procs]
    · rwa [detach_procs] at hq
  have hclosed : Resumes (fun _ => True) k₁.sched k₂.sched := (rouses_closeFds p _ k₁.sched).ok rfl h₂
  obtain ⟨R₂, U₂, hstir₂, hl₂, -, hout₂⟩ := hstir.resumes (hdetach ▸ hl.detach p) hclosed
  have h₃₂ : k₃.sched = k₂.sched := by
    unfold onPages at h₃
    split at h₃
    · cases h₃
      rfl
    · cases h₃
  have h₄₃ : k₄.sched = k₃.sched := by
    refine Unmoved.sched (m := freeMailbox _) ?_ h₄
    cases (k₂.sched.procs p).mailbox with
    | none => exact still_pure ()
    | some box => exact unmoved_kfree box
  have hbury := schedDo_eq hok
  rw [h₄₃, h₃₂] at hbury
  exact hstir₂.bury hl₂ hp (hout₂ p hp hl.layout.ready.nodup.not_mem_erase) hbury

end AdelaideOS.Kernel
