import AdelaideOS.Kernel.Closing
import AdelaideOS.Process.Resumes

/-!
# Who waits for what

A process is suspended inside `read`, `receive` or `waitpid`.  The kernel records this twice: in the table and the
lists, and with the thing that is waited for (`readpid` of a pipe, `receive_blocked`, `waiting_on`).  `Waits`
and `Entries` say that the two records agree.

`Notes` keeps what a run has to remember about the past and the kernel does not: the argument words of the last
call of each process, which pipes `start_process` made, which exited processes had a mailbox, and whose call is
being served.  Only `input` is a variable of the kernel.

`Sane` is the invariant in the middle of a system call, `Whole` the one between two.

* **`Sane.close`** — giving back a reference, with all its consequences.
-/

namespace AdelaideOS.Kernel

open AdelaideOS.Buddy AdelaideOS.Lib.View AdelaideOS.Process

structure Notes where
  args : ℕ → List ℕ
  std : ℕ → Bool
  stale : ℕ → Bool
  serving : Option ℕ
  input : Option ℕ

/-- The process is suspended inside the system call `no`. -/
structure Parked (procs : ℕ → Proc) (no q : ℕ) : Prop where
  exists_ : (procs q).exists_ = true
  alive : (procs q).exited = false
  idle : (procs q).ready = false
  call : (procs q).inSyscall = no

/-- The descriptor `fd` of process `q` reads from the pipe `b`. -/
def Reads (fds : ℕ → ℕ → Option ℕ) (H : ℕ → Option Filehandle) (q : ℕ) (fd : ℤ) (b : ℕ) : Prop :=
  0 ≤ fd ∧ fd < MAX_FDS ∧
    ∃ a fh, fds q fd.toNat = some a ∧ H a = some fh ∧ fh.type = .pipeReader ∧ fh.p = b

/-- The descriptor that the last call of process `q` named, if it was a call on a descriptor. -/
def Notes.fd (n : Notes) (q : ℕ) : ℤ := toInt ((n.args q).getD 0 0)

/-- Process `q` is suspended inside a read on the pipe `b`. -/
def SuspendedOn (n : Notes) (o : Objects) (q b : ℕ) : Prop :=
  Parked o.sched.procs SYSCALL_READ q ∧ Reads o.filedesc o.handles q (n.fd q) b

/-- The processes suspended inside a read are those that the pipes name. -/
structure Waits (n : Notes) (o : Objects) : Prop where
  reader : ∀ b pb q, o.pipes b = some pb → pb.readpid = some q →
    SuspendedOn n o q b ∧ pb.len = 0 ∧ pb.writing = true
  parked : ∀ q, Parked o.sched.procs SYSCALL_READ q → ∃ b pb, o.pipes b = some pb ∧ pb.readpid = some q

/-- The table entries agree with the mailboxes and with what is waited for. -/
structure Entries (serving : Option ℕ) (procs : ℕ → Proc) (stale : ℕ → Bool) (mail : ℕ → List Message) :
    Prop where
  fresh : ∀ p, (procs p).exists_ = true → (procs p).exited = false → stale p = false
  size : ∀ p, (procs p).exists_ = true → stale p = false → (procs p).mailboxSize = (mail p).length
  empty : ∀ p, (procs p).exists_ = true → stale p = false → (procs p).mailbox = none → mail p = []
  alloc : ∀ p, (procs p).exists_ = true → stale p = false → (procs p).mailbox ≠ none →
    (procs p).mailboxAlloc = 8
  blocked : ∀ p, (procs p).exists_ = true → (procs p).exited = false →
    ((procs p).receiveBlocked = true ↔ Parked procs SYSCALL_RECEIVE p)
  hungry : ∀ p, Parked procs SYSCALL_RECEIVE p → mail p = []
  waiting : ∀ p, some p ≠ serving → (procs p).exists_ = true → (procs p).exited = false →
    (procs p).inSyscall = SYSCALL_WAITPID → (procs p).waitingOn ≠ none → (procs p).ready = false

/-- The mailbox that a process owns; `kill_process` frees a mailbox without clearing the pointer. -/
def boxes (procs : ℕ → Proc) (stale : ℕ → Bool) (p : ℕ) : Option ℕ :=
  if (procs p).exists_ = true ∧ stale p = false then (procs p).mailbox else none

/-- The scheduler while a process is dying: it has left its list. -/
def leaving : Option ℕ → Sched → Sched
  | none, S => S
  | some q, S => detach S q

structure Sane (n : Notes) (C : Contents) (dying : Option ℕ) (D : Finset (ℕ × ℕ)) (box : ℕ → Option ℕ)
    (o : Objects) : Prop where
  tidy : Tidy n.std C box D o
  sched : ∃ S, Good S ∧ o.sched = leaving dying S
  waits : Waits n o
  entries : Entries n.serving o.sched.procs n.stale C.mail
  slots : ∀ q fd, Parked o.sched.procs SYSCALL_READ q → fd < MAX_FDS → (q, fd) ∈ D
  alive : ∀ q, Parked o.sched.procs SYSCALL_READ q → some q ≠ dying
  input : ∀ b, n.input = some b → n.std b = true

/-- The invariant between two system calls. -/
def Whole (n : Notes) (C : Contents) (o : Objects) : Prop :=
  Sane n C none (liveSlots o.sched) (boxes o.sched.procs n.stale) o

variable {n : Notes} {C : Contents} {dying : Option ℕ} {D : Finset (ℕ × ℕ)} {box : ℕ → Option ℕ}
  {o o' : Objects} {s : ℕ × ℕ} {a b p q : ℕ} {S S' : Sched} {F : Fault → Prop}

/-! ### Facts -/

theorem leaving_procs (dying : Option ℕ) (S : Sched) : (leaving dying S).procs = S.procs := by
  cases dying with
  | none => rfl
  | some q => exact detach_procs S q

/-- A process reads from one pipe at a time. -/
theorem SuspendedOn.unique {b' : ℕ} (h : SuspendedOn n o q b) (h' : SuspendedOn n o q b') : b = b' := by
  obtain ⟨-, -, -, a, fh, ha, hfh, -, rfl⟩ := h
  obtain ⟨-, -, -, a', fh', ha', hfh', -, rfl⟩ := h'
  obtain rfl : a = a' := Option.some.inj (ha.symm.trans ha')
  obtain rfl : fh = fh' := Option.some.inj (hfh.symm.trans hfh')
  rfl

theorem Waits.wakeable (h : Waits n o) : Wakeable o := by
  intro b pb q hb hr
  obtain ⟨⟨hparked, -⟩, -, hw⟩ := h.reader b pb q hb hr
  exact ⟨hparked.exists_, hparked.idle, hw⟩

/-! ### Waking up a reader -/

/-- The table after a process has been resumed. -/
theorem resumeProcess_entry (h : resumeProcess S q = .ok S') (p : ℕ) :
    S'.procs p = { S.procs p with ready := if p = q then true else (S.procs p).ready } := by
  rw [(resumeProcess_procs h).1]
  by_cases hp : p = q
  · rw [hp, Function.update_self, if_pos rfl]
  · rw [Function.update_of_ne hp, if_neg hp]

theorem parked_resume {no : ℕ} (h : resumeProcess S q = .ok S') :
    Parked S'.procs no p ↔ Parked S.procs no p ∧ p ≠ q := by
  have hp := resumeProcess_entry h p
  constructor
  · intro hpark
    have hidle := hpark.idle
    rw [hp] at hidle
    have hne : p ≠ q := by
      intro he
      rw [if_pos he] at hidle
      cases hidle
    rw [if_neg hne] at hidle
    exact ⟨⟨by rw [← hpark.exists_, hp], by rw [← hpark.alive, hp], hidle, by rw [← hpark.call, hp]⟩, hne⟩
  · rintro ⟨hpark, hne⟩
    refine ⟨by rw [hp]; exact hpark.exists_, by rw [hp]; exact hpark.alive, ?_, by rw [hp]; exact hpark.call⟩
    rw [hp]
    simp only [if_neg hne]
    exact hpark.idle

theorem Entries.resume {serving : Option ℕ} {stale : ℕ → Bool} {mail : ℕ → List Message}
    (h : Entries serving S.procs stale mail) (hq : Parked S.procs SYSCALL_READ q)
    (hok : resumeProcess S q = .ok S') : Entries serving S'.procs stale mail := by
  have hp := resumeProcess_entry hok
  -- a process inside `read` is not inside `receive`
  have hreceive : ∀ p, Parked S'.procs SYSCALL_RECEIVE p ↔ Parked S.procs SYSCALL_RECEIVE p := by
    intro p
    rw [parked_resume hok, and_iff_left_iff_imp]
    intro hpark he
    have hcall := hpark.call
    rw [he, hq.call] at hcall
    cases hcall
  refine ⟨?_, ?_, ?_, ?_, ?_, ?_, ?_⟩
  · intro p
    rw [hp]
    exact h.fresh p
  · intro p
    rw [hp]
    exact h.size p
  · intro p
    rw [hp]
    exact h.empty p
  · intro p
    rw [hp]
    exact h.alloc p
  · intro p hex hexit
    rw [hreceive p]
    rw [hp] at hex hexit ⊢
    exact h.blocked p hex hexit
  · intro p hpark
    exact h.hungry p ((hreceive p).mp hpark)
  · intro p hserve hex hexit hcall hwait
    rw [hp] at hex hexit hcall hwait ⊢
    have hne : p ≠ q := by
      intro he
      have hcall' : (S.procs p).inSyscall = SYSCALL_WAITPID := hcall
      rw [he, hq.call] at hcall'
      cases hcall'
    simp only [if_neg hne]
    exact h.waiting p hserve hex hexit hcall hwait

/-- Waking up during a death, or at any other time. -/
theorem leaving_resume (hG : Good S) (hq : S.Live q) (hne : some q ≠ dying)
    (hok : resumeProcess (leaving dying S) q = .ok S') :
    ∃ S₁, Good S₁ ∧ S' = leaving dying S₁ := by
  cases dying with
  | none => exact ⟨S', hG.resume hq hok, rfl⟩
  | some r =>
    obtain ⟨S₁, hok₁, rfl⟩ := resume_detach hG hq (fun he => hne (by rw [he])) hok
    exact ⟨S₁, hG.resume hq hok₁, rfl⟩

/-! ### Closing -/

/-- A handle that is left was there before, for the same thing. -/
theorem Closed.handle {x : ℕ} {g : Filehandle} (h : Closed o a o') (hg : o'.handles x = some g) :
    ∃ g₀, o.handles x = some g₀ ∧ g.type = g₀.type ∧ g.p = g₀.p := by
  have hdrop : ∀ {v : Option Filehandle}, Function.update o.handles a none x = v → v = some g →
      ∃ g₀, o.handles x = some g₀ ∧ g.type = g₀.type ∧ g.p = g₀.p := by
    rintro v rfl hg
    exact ⟨g, (Lib.Bytes.update_none_eq_some hg).2, rfl, rfl⟩
  cases h with
  | shared fh hfh hmore =>
    have hg' : Function.update o.handles a (some { fh with refcount := fh.refcount - 1 }) x = some g := hg
    exact handle_touched hg' hfh rfl rfl
  | plain fh h hfh hlast hty => exact hdrop rfl hg
  | reader fh pb h hfh hlast hty hb => exact hdrop rfl hg
  | writer fh pb h S hfh hlast hty hb hS => exact hdrop rfl hg

theorem Closed.filedesc (h : Closed o a o') : o'.filedesc = o.filedesc := by
  cases h <;> rfl

/-- The table changes at most by waking up a reader. -/
theorem Closed.sched (h : Closed o a o') :
    o'.sched = o.sched ∨ ∃ b pb q, o.pipes b = some pb ∧ pb.readpid = some q ∧
      resumeProcess o.sched q = .ok o'.sched := by
  cases h with
  | shared fh hfh hmore => exact Or.inl rfl
  | plain fh h hfh hlast hty => exact Or.inl rfl
  | reader fh pb h hfh hlast hty hb => exact Or.inl rfl
  | writer fh pb h S hfh hlast hty hb hS =>
    cases hr : pb.readpid with
    | none =>
      rw [hr] at hS
      cases hS
      exact Or.inl rfl
    | some q =>
      rw [hr] at hS
      exact Or.inr ⟨fh.p, pb, q, hb, hr, hS⟩

/-- Descriptors of blocked readers are left alone. -/
theorem Reads.closed {fd : ℤ} (h : Reads o.filedesc o.handles q fd b) (hcl : Closed o a o')
    (hcount : Counted o'.filedesc o'.handles D) (hslot : (q, fd.toNat) ∈ D) :
    Reads o'.filedesc o'.handles q fd b := by
  obtain ⟨h0, h1, x, fh, hx, hfh, hty, hp⟩ := h
  rw [← hcl.filedesc] at hx
  obtain ⟨g, hg⟩ := hcount.slot hslot hx
  obtain ⟨g₀, hg₀, htg, hpg⟩ := hcl.handle hg
  obtain rfl : g₀ = fh := Option.some.inj (hg₀.symm.trans hfh)
  exact ⟨h0, h1, x, g, hx, hg, htg.trans hty, hpg.trans hp⟩

theorem afterShut_reader {pb : PipeBuffer} (hw : pb.writing = true) :
    pb.afterShut .pipeReader = some (pb.shut .pipeReader) := by
  rw [PipeBuffer.afterShut, if_neg]
  rintro ⟨-, hw'⟩
  rw [show (pb.shut .pipeReader).writing = true from hw] at hw'
  cases hw'

/-- The table of those that wait after the reader of the pipe `b`, if one is blocked, has been woken up. -/
theorem Waits.wake {pb : PipeBuffer} {v : Option PipeBuffer} (h : Waits n o) (hb : o.pipes b = some pb)
    (hS : wake o.sched pb.readpid = .ok o'.sched) (hv : ∀ x, v = some x → x.readpid = none)
    (hpipes : o'.pipes = Function.update o.pipes b v)
    (hon : ∀ q c, SuspendedOn n o q c → Parked o'.sched.procs SYSCALL_READ q → SuspendedOn n o' q c) :
    Waits n o' := by
  -- the reader of this pipe, and nobody else, is woken up
  have hparked : ∀ q, Parked o'.sched.procs SYSCALL_READ q ↔
      Parked o.sched.procs SYSCALL_READ q ∧ pb.readpid ≠ some q := by
    intro q
    cases hr : pb.readpid with
    | none =>
      rw [hr] at hS
      rw [← Except.ok.inj hS]
      simp
    | some r =>
      rw [hr] at hS
      rw [parked_resume hS]
      simp only [ne_eq, Option.some.injEq]
      constructor
      · exact fun ⟨h1, h2⟩ => ⟨h1, fun he => h2 he.symm⟩
      · exact fun ⟨h1, h2⟩ => ⟨h1, fun he => h2 he.symm⟩
  refine ⟨?_, ?_⟩
  · intro c x q hc hr
    rw [hpipes] at hc
    by_cases hcb : c = b
    · rw [hcb, Function.update_self] at hc
      rw [hv x hc] at hr
      cases hr
    · rw [Function.update_of_ne hcb] at hc
      obtain ⟨hsus, hlen, hw⟩ := h.reader c x q hc hr
      refine ⟨hon q c hsus ?_, hlen, hw⟩
      refine (hparked q).mpr ⟨hsus.1, ?_⟩
      intro hr'
      exact hcb (hsus.unique (h.reader b pb q hb hr').1)
  · intro q hpark
    obtain ⟨hpark₀, hne⟩ := (hparked q).mp hpark
    obtain ⟨c, x, hc, hr⟩ := h.parked q hpark₀
    have hcb : c ≠ b := by
      intro he
      obtain rfl : x = pb := Option.some.inj (hc.symm.trans (he ▸ hb))
      exact hne hr
    refine ⟨c, x, ?_, hr⟩
    rw [hpipes, Function.update_of_ne hcb, hc]

/-- The table of those that wait after a handle has been closed. -/
theorem Waits.closed (h : Waits n o) (hcl : Closed o a o')
    (hcount : Counted o'.filedesc o'.handles D)
    (hslots : ∀ q fd, Parked o.sched.procs SYSCALL_READ q → fd < MAX_FDS → (q, fd) ∈ D) : Waits n o' := by
  have hon : ∀ q b, SuspendedOn n o q b → Parked o'.sched.procs SYSCALL_READ q →
      SuspendedOn n o' q b := by
    rintro q b ⟨hpark, hreads⟩ hpark'
    refine ⟨hpark', hreads.closed hcl hcount (hslots q _ hpark ?_)⟩
    have h0 := hreads.1
    have h1 := hreads.2.1
    omega
  -- nothing happens to pipes and table
  have hsame : o'.pipes = o.pipes → o'.sched = o.sched → Waits n o' := by
    intro hpipes hsched
    refine ⟨?_, ?_⟩
    · intro b pb q hb hr
      rw [hpipes] at hb
      obtain ⟨hsus, hlen, hw⟩ := h.reader b pb q hb hr
      exact ⟨hon q b hsus (by rw [hsched]; exact hsus.1), hlen, hw⟩
    · intro q hpark
      rw [hsched] at hpark
      obtain ⟨b, pb, hb, hr⟩ := h.parked q hpark
      exact ⟨b, pb, by rw [hpipes]; exact hb, hr⟩
  have hclosed := hcl
  cases hcl with
  | shared fh hfh hmore => exact hsame rfl rfl
  | plain fh h₁ hfh hlast hty => exact hsame rfl rfl
  | reader fh pb h₁ hfh hlast hty hb =>
    refine ⟨?_, ?_⟩
    · intro c x q hc hr
      have hc' : Function.update o.pipes fh.p (pb.afterShut .pipeReader) c = some x := hc
      by_cases hcp : c = fh.p
      · rw [hcp, Function.update_self] at hc'
        obtain ⟨rfl, -⟩ := afterShut_eq_some hc'
        obtain ⟨hsus, hlen, hw⟩ := h.reader fh.p pb q hb hr
        exact ⟨by rw [hcp]; exact hon q _ hsus hsus.1, hlen, hw⟩
      · rw [Function.update_of_ne hcp] at hc'
        obtain ⟨hsus, hlen, hw⟩ := h.reader c x q hc' hr
        exact ⟨hon q c hsus hsus.1, hlen, hw⟩
    · intro q hpark
      obtain ⟨c, x, hc, hr⟩ := h.parked q hpark
      by_cases hcp : c = fh.p
      · obtain rfl : x = pb := Option.some.inj (hc.symm.trans (hcp ▸ hb))
        have hw := (h.reader c x q hc hr).2.2
        refine ⟨fh.p, x.shut .pipeReader, ?_, hr⟩
        show Function.update o.pipes fh.p (x.afterShut .pipeReader) fh.p = _
        rw [Function.update_self, afterShut_reader hw]
      · refine ⟨c, x, ?_, hr⟩
        show Function.update o.pipes fh.p (pb.afterShut .pipeReader) c = _
        rw [Function.update_of_ne hcp, hc]
  | writer fh pb h₁ S hfh hlast hty hb hS =>
    refine h.wake hb hS ?_ rfl hon
    intro x hx
    obtain ⟨rfl, -⟩ := afterShut_eq_some hx
    rfl

/-- **Waking up** at most one reader keeps the rest of the invariant. -/
theorem Sane.wakes {C' : Contents} {D' : Finset (ℕ × ℕ)} (h : Sane n C dying D box o)
    (htidy : Tidy n.std C' box D' o') (hmail : C'.mail = C.mail) (hwaits : Waits n o')
    (hsched : o'.sched = o.sched ∨ ∃ b pb q, o.pipes b = some pb ∧ pb.readpid = some q ∧
      resumeProcess o.sched q = .ok o'.sched)
    (hslots : ∀ q fd, Parked o.sched.procs SYSCALL_READ q → fd < MAX_FDS → (q, fd) ∈ D') :
    Sane n C' dying D' box o' := by
  refine ⟨htidy, ?_, hwaits, ?_, ?_, ?_, h.input⟩
  · obtain ⟨S, hG, hS⟩ := h.sched
    rcases hsched with he | ⟨b, pb, q, hb, hr, hres⟩
    · exact ⟨S, hG, he.trans hS⟩
    · obtain ⟨hparked, -⟩ := (h.waits.reader b pb q hb hr).1
      rw [hS] at hres
      refine leaving_resume hG ?_ (h.alive q hparked) hres
      have hprocs : o.sched.procs = S.procs := by
        rw [hS, leaving_procs]
      exact ⟨by rw [← hprocs]; exact hparked.exists_, by rw [← hprocs]; exact hparked.alive⟩
  · rw [hmail]
    rcases hsched with he | ⟨b, pb, q, hb, hr, hres⟩
    · rw [he]
      exact h.entries
    · exact h.entries.resume (h.waits.reader b pb q hb hr).1.1 hres
  · intro q fd hpark hlt
    rcases hsched with he | ⟨b, pb, r, hb, hr, hres⟩
    · rw [he] at hpark
      exact hslots q fd hpark hlt
    · exact hslots q fd ((parked_resume hres).mp hpark).1 hlt
  · intro q hpark
    rcases hsched with he | ⟨b, pb, r, hb, hr, hres⟩
    · rw [he] at hpark
      exact h.alive q hpark
    · exact h.alive q ((parked_resume hres).mp hpark).1

/-- **Giving back a reference** keeps the invariant. -/
theorem Sane.close (h : Sane n C dying (insert s D) box o) (hs : s ∉ D)
    (hfd : o.filedesc s.1 s.2 = some a)
    (hslots : ∀ q fd, Parked o.sched.procs SYSCALL_READ q → fd < MAX_FDS → (q, fd) ∈ D) :
    Acts State.objects F o (closeFilehandle a) fun _ o' => Closed o a o' ∧ Sane n C dying D box o' := by
  refine (h.tidy.close hs hfd h.waits.wakeable).mono ?_
  rintro _ o' ⟨hcl, htidy⟩
  exact ⟨hcl, h.wakes htidy rfl (h.waits.closed hcl htidy.counted hslots) hcl.sched hslots⟩

end AdelaideOS.Kernel
