import AdelaideOS.Kernel.Confined

/-!
# Handlers check their pointers

A system call follows the pointers among its arguments: `pointerArgs`.  `Guards k p qs x v` says that the
computation `x` looks at the requests `qs` first: if one of them is bad it answers `v` and has no effect, else
it stays inside the ranges of the caller.

* **`dispatch_guards`** — every handler but `waitpid` guards the pointers among its arguments.
-/

namespace AdelaideOS.Kernel

open AdelaideOS.Lib.Bytes AdelaideOS.Lib.Triple AdelaideOS.Page AdelaideOS.Process

/-- What a handler expects at an address of the caller. -/
inductive Request where
  | bytes (a n : ℕ)
  | string (a : ℕ)
  | argv (a : ℕ)

/-- It is there, inside the ranges of the caller. -/
def Request.Ok (k : State) (p : ℕ) : Request → Prop
  | .bytes a n => (k.space p).Region a n
  | .string a => StringAt k p a
  | .argv a => ArgvAt k p a

/-- A pointer that may be `NULL`. -/
def unlessNull (a : ℕ) (q : Request) : List Request := if a = 0 then [] else [q]

/-- The pointers among the arguments of a system call. -/
def pointerArgs (no : ℕ) (args : List ℕ) : List Request :=
  let arg := fun i => args.getD i 0
  if no = SYSCALL_WRITE then [.bytes (arg 1) (arg 2)]
  else if no = SYSCALL_READ then [.bytes (arg 1) (arg 2)]
  else if no = SYSCALL_SEND then [.bytes (arg 2) (arg 3)]
  else if no = SYSCALL_RECEIVE then [.bytes (arg 0) MESSAGE_SIZE]
  else if no = SYSCALL_PIPE then [.bytes (arg 0) 8]
  else if no = SYSCALL_EXECVE then .string (arg 0) :: unlessNull (arg 1) (.argv (arg 1))
  else if no = SYSCALL_WAITPID then unlessNull (arg 1) (.bytes (arg 1) 4)
  else if no = SYSCALL_STAT then [.string (arg 0), .bytes (arg 1) 20]
  else if no = SYSCALL_OPEN then [.string (arg 0)]
  else if no = SYSCALL_GETDENT then [.bytes (arg 1) DIRENT_SIZE]
  else if no = SYSCALL_CHDIR then [.string (arg 0)]
  else if no = SYSCALL_GETCWD then [.bytes (arg 0) (arg 1)]
  else []

/-- The answer to a bad address: `NULL` from `getcwd`, an error from all others. -/
def refusal (no : ℕ) : ℤ := if no = SYSCALL_GETCWD then 0 else -EFAULT

variable {α β : Type} {m : Machine} {k k' : State} {p a n : ℕ} {r : Regs} {qs : List Request}

/-! ### Handlers that check their pointers -/

/-- The computation `x` checks `qs` first, and answers `v` if something is wrong. -/
structure Guards (k : State) (p : ℕ) (qs : List Request) (x : K α) (v : α) : Prop where
  good : (∀ q ∈ qs, q.Ok k p) → Ends (fun _ => LogIn (k.space p)) (LogIn (k.space p)) (x k)
  bad : (∃ q ∈ qs, ¬ q.Ok k p) → ∃ k', x k = .ok v k' ∧ Logged (k.space p) k k'

/-- What follows a computation that stayed inside the ranges. -/
theorem ends_bind {s : Space} {x : K β} {f : β → K α} (hx : Ends (fun _ => LogIn s) (LogIn s) (x k))
    (hf : ∀ v, Confined s (f v)) : Ends (fun _ => LogIn s) (LogIn s) ((x >>= f) k) := by
  have hsat : Sat (fun k₀ => k₀ = k) x (fun _ => LogIn s) (LogIn s) := by
    constructor
    intro k₀ hk₀
    rw [hk₀]
    exact hx
  exact (hsat.bind hf).run k rfl

/-- Something is read, then a confined computation goes on. -/
theorem ends_read {s : Space} {x : K β} {f : β → K α} {v : β} (hx : x k = .ok v k') (hl : Logged s k k')
    (hlog : LogIn s k) (hf : Confined s (f v)) : Ends (fun _ => LogIn s) (LogIn s) ((x >>= f) k) := by
  rw [run_bind hx]
  exact hf.run k' (hl.logIn hlog)

theorem Guards.keep {x : K ℤ} {v : ℤ} (h : Guards k p qs x v) (r : Regs) :
    Guards k p qs (keep r x) (v, r) := by
  constructor
  · intro hqs
    exact ends_bind (h.good hqs) fun res => confined_pure (res, r)
  · intro hqs
    obtain ⟨k', hk', hl⟩ := h.bad hqs
    exact ⟨k', run_bind hk', hl⟩

theorem guards_nothing {x : K α} (v : α) (hlog : LogIn (k.space p) k) (hx : Confined (k.space p) x) :
    Guards k p [] x v := by
  constructor
  · intro _
    exact hx.run k hlog
  · rintro ⟨q, hq, -⟩
    cases hq

theorem guards_one {q : Request} {x : K α} {v : α}
    (hgood : q.Ok k p → Ends (fun _ => LogIn (k.space p)) (LogIn (k.space p)) (x k))
    (hbad : ¬ q.Ok k p → ∃ k', x k = .ok v k' ∧ Logged (k.space p) k k') : Guards k p [q] x v := by
  constructor
  · intro hqs
    exact hgood (hqs q (by simp))
  · rintro ⟨q', hq', hne⟩
    rw [List.mem_singleton] at hq'
    rw [hq'] at hne
    exact hbad hne

/-- The handlers that start with `valid_pointer`. -/
theorem guards_bytes {f : State → K α} {v : α} (h : Sound k p) (hlog : LogIn (k.space p) k)
    (ha : a < wordSize) (hn : n < wordSize) (hf : (k.space p).Region a n → Confined (k.space p) (f k)) :
    Guards k p [.bytes a n]
      (get >>= fun k => if validPointer (k.space p) a n then f k else pure v) v := by
  apply guards_one
  · intro hr
    rw [run_get, if_pos ((h.validPointer_iff ha hn).mpr hr)]
    exact (hf hr).run k hlog
  · intro hr
    rw [run_get, if_neg fun hc => hr ((h.validPointer_iff ha hn).mp hc)]
    exact ⟨k, rfl, Logged.refl _ k⟩

/-- The handlers that start with `valid_string`. -/
theorem guards_string {f : K α} {v : α} (h : Sound k p) (ha : a < wordSize)
    (hf : ∀ k', Logged (k.space p) k k' → StringAt k' p a →
      Ends (fun _ => LogIn (k.space p)) (LogIn (k.space p)) (f k')) :
    Guards k p [.string a] (validString p a >>= fun valid => if valid then f else pure v) v := by
  obtain ⟨b, k', hk', hl, hb⟩ := validString_ok h ha
  apply guards_one
  · intro hstr
    rw [run_bind hk', if_pos (hb.mpr hstr)]
    exact hf k' hl (hl.stringAt.mpr hstr)
  · intro hstr
    rw [run_bind hk', if_neg fun hc => hstr (hb.mp hc)]
    exact ⟨k', rfl, hl⟩

/-- Looking up a path that was checked. -/
theorem ends_findEntry {s : Space} {fs : Memory} {f : List UInt8 × Except ℤ ℕ → K α} (hs : k.space p = s)
    (h : Sound k p) (hlog : LogIn s k) (ha : a < wordSize) (hstr : StringAt k p a)
    (hf : ∀ x, Confined s (f x)) : Ends (fun _ => LogIn s) (LogIn s) ((findEntry fs p a >>= f) k) := by
  obtain ⟨text, k', hk', hl⟩ := userString_ok h ha hstr
  rw [hs] at hl
  refine ends_bind (ends_read hk' hl hlog ?_) hf
  exact confined_get fun k => (confined_lift _).bind fun found => confined_pure _

/-! ### The handlers -/

section Handlers

variable (h : Sound k p) (hlog : LogIn (k.space p) k)

include h hlog

theorem guards_syscallWrite (fd : ℤ) (ha : a < wordSize) (hn : n < wordSize) :
    Guards k p [.bytes a n] (syscallWrite p fd a n) (-EFAULT) := by
  apply guards_bytes h hlog ha hn
  intro hr
  cases lookupFd k p fd with
  | none => exact confined_pure _
  | some fh => exact (confined_getHandle fh).bind fun x => confined_writeHandle x hr

theorem guards_syscallRead (fs : Memory) (fd : ℤ) (ha : a < wordSize) (hn : n < wordSize) :
    Guards k p [.bytes a n] (syscallRead fs p fd a n) (-EFAULT) := by
  apply guards_bytes h hlog ha hn
  intro hr
  cases lookupFd k p fd with
  | none => exact confined_pure _
  | some fh => exact (confined_getHandle fh).bind fun x => confined_readHandle fs fh x hr

theorem guards_syscallSend (dest : ℤ) (tag : ℕ) (ha : a < wordSize) (hn : n < wordSize) :
    Guards k p [.bytes a n] (syscallSend p dest tag a n) (-EFAULT) := by
  apply guards_bytes h hlog ha hn
  intro hr
  refine Confined.ite (confined_pure _) (Confined.ite (confined_pure _) ?_)
  exact Confined.ite (confined_pure _) (confined_deliver _ tag hr)

theorem guards_syscallReceive (block : Bool) (ha : a < wordSize) :
    Guards k p [.bytes a MESSAGE_SIZE] (syscallReceive p a block) (-EFAULT) := by
  apply guards_bytes h hlog ha (by decide)
  intro hr
  refine Confined.ite ?_ (Confined.ite ?_ (confined_pure _))
  · cases (k.sched.procs p).mailbox with
    | some box => exact confined_takeMessage box _ hr
    | none => exact confined_throw _
  · exact (confined_schedDo _).bind fun _ => confined_pure _

theorem guards_syscallPipe (ha : a < wordSize) : Guards k p [.bytes a 8] (syscallPipe p a) (-EFAULT) := by
  apply guards_bytes h hlog ha (by decide)
  intro hr
  split
  · exact confined_openPipe _ _ hr
  · exact confined_pure _

theorem guards_syscallGetdent (fs : Memory) (fd : ℤ) (ha : a < wordSize) :
    Guards k p [.bytes a DIRENT_SIZE] (syscallGetdent fs p fd a) (-EFAULT) := by
  apply guards_bytes h hlog ha (by decide)
  intro hr
  cases lookupFd k p fd with
  | none => exact confined_pure _
  | some fh =>
    exact (confined_getHandle fh).bind fun x => Confined.ite (confined_nextEntry fs fh x hr) (confined_pure _)

theorem guards_syscallGetcwd (ha : a < wordSize) (hn : n < wordSize) :
    Guards k p [.bytes a n] (syscallGetcwd p a n) 0 := by
  apply guards_bytes h hlog ha hn
  intro hr
  exact (confined_printUser hr _).bind fun _ => confined_pure _

theorem guards_syscallOpen (fs : Memory) (flags : ℤ) (ha : a < wordSize) :
    Guards k p [.string a] (syscallOpen fs p a flags) (-EFAULT) := by
  apply guards_string h ha
  intro k' hl hstr
  rw [run_get]
  cases freeFds k' p with
  | nil => exact hl.logIn hlog
  | cons fd fds =>
    refine ends_findEntry (by rw [hl.space]) (hl.sound h) (hl.logIn hlog) ha hstr fun x => ?_
    obtain ⟨-, found⟩ := x
    cases found with
    | error e => exact confined_pure _
    | ok entry =>
      refine Confined.ite (confined_pure _) (Confined.ite (confined_pure _) ?_)
      exact (confined_newHandle _ _ _).bind fun fh => (confined_setFd _ _ _).bind fun _ => confined_pure _

theorem guards_syscallChdir (fs : Memory) (ha : a < wordSize) :
    Guards k p [.string a] (syscallChdir fs p a) (-EFAULT) := by
  apply guards_string h ha
  intro k' hl hstr
  refine ends_findEntry (by rw [hl.space]) (hl.sound h) (hl.logIn hlog) ha hstr fun x => ?_
  obtain ⟨abs, found⟩ := x
  cases found with
  | error e => exact confined_pure _
  | ok entry =>
    refine Confined.ite (confined_pure _) ?_
    exact Confined.bind (confined_modify fun _ => rfl) fun _ => confined_pure _

theorem guards_syscallStat (fs : Memory) {b : ℕ} (ha : a < wordSize) (hb : b < wordSize) :
    Guards k p [.string a, .bytes b 20] (syscallStat fs p a b) (-EFAULT) := by
  obtain ⟨v, k', hk', hl, hv⟩ := validString_ok h ha
  have hval : validPointer (k'.space p) b 20 = true ↔ (k.space p).Region b 20 := by
    rw [hl.space]
    exact h.validPointer_iff hb (by decide)
  constructor
  · intro hqs
    have hstr : StringAt k p a := hqs (.string a) (by simp)
    have hr : (k.space p).Region b 20 := hqs (.bytes b 20) (by simp)
    unfold syscallStat
    rw [run_bind hk', run_get, if_pos ⟨hv.mpr hstr, hval.mpr hr⟩]
    refine ends_findEntry (by rw [hl.space]) (hl.sound h) (hl.logIn hlog) ha (hl.stringAt.mpr hstr)
      fun x => ?_
    obtain ⟨-, found⟩ := x
    cases found with
    | error e => exact confined_pure _
    | ok entry => exact Confined.bind (confined_writeUserBytes hr) fun _ => confined_pure _
  · rintro ⟨q, hq, hne⟩
    have hnot : ¬ (v = true ∧ validPointer (k'.space p) b 20 = true) := by
      rintro ⟨h1, h2⟩
      simp only [List.mem_cons, List.not_mem_nil, or_false] at hq
      rcases hq with rfl | rfl
      · exact hne (hv.mp h1)
      · exact hne (hval.mp h2)
    refine ⟨k', ?_, hl⟩
    unfold syscallStat
    rw [run_bind hk', run_get, if_neg hnot]
    rfl

/-- `execve` behind its checks. -/
theorem ends_execEntry (fs : Memory) {b : ℕ} (ha : a < wordSize) (hb : b < wordSize)
    (hstr : StringAt k p a) (hargv : b = 0 ∨ ArgvAt k p b) (r : Regs) :
    Ends (fun _ => LogIn (k.space p)) (LogIn (k.space p)) (execEntry fs p a b r k) := by
  obtain ⟨path, k₁, hk₁, hl₁⟩ := userString_ok h ha hstr
  unfold execEntry
  rw [run_bind hk₁]
  cases hd : getDirectoryEntry fs path with
  | error e => exact hl₁.logIn hlog
  | ok found =>
    have hlift : lift (.ok found) k₁ = .ok found k₁ := rfl
    rw [run_bind hlift]
    cases found with
    | error e => exact hl₁.logIn hlog
    | ok entry =>
      by_cases hdir : entryType fs entry = TYPE_DIR
      · simp only [if_pos hdir]
        exact hl₁.logIn hlog
      · simp only [if_neg hdir]
        obtain ⟨args, k₂, hk₂, hl₂⟩ := argStrings_ok (hl₁.sound h) hb (by rw [hl₁.argvAt]; exact hargv)
        rw [hl₁.space] at hl₂
        exact ends_read hk₂ hl₂ (hl₁.logIn hlog) (confined_execProgram fs entry args)

theorem guards_syscallExecve (fs : Memory) {b : ℕ} (ha : a < wordSize) (hb : b < wordSize) (r : Regs) :
    Guards k p (.string a :: unlessNull b (.argv b)) (syscallExecve fs p a b r) (-EFAULT, r) := by
  obtain ⟨v, k₁, hk₁, hl₁, hv⟩ := validString_ok h ha
  obtain ⟨w, k₂, hk₂, hl₂, hw⟩ := validArgv_ok (hl₁.sound h) hb
  rw [hl₁.argvAt] at hw
  rw [hl₁.space] at hl₂
  have hl := hl₁.trans hl₂
  constructor
  · intro hqs
    have hstr : StringAt k p a := hqs (.string a) (by simp)
    have hargv : b = 0 ∨ ArgvAt k p b := by
      by_cases hz : b = 0
      · exact Or.inl hz
      · exact Or.inr (hqs (.argv b) (by simp [unlessNull, hz]))
    unfold syscallExecve
    rw [run_bind hk₁, if_pos (hv.mpr hstr), run_bind hk₂, if_pos (hw.mpr hargv)]
    have hend := ends_execEntry (hl.sound h) (by rw [hl.space]; exact hl.logIn hlog) fs ha hb
      (hl.stringAt.mpr hstr) (by rw [hl.argvAt]; exact hargv) r
    rw [hl.space] at hend
    exact hend
  · rintro ⟨q, hq, hne⟩
    unfold syscallExecve
    rw [run_bind hk₁]
    by_cases hstr : StringAt k p a
    · rw [if_pos (hv.mpr hstr), run_bind hk₂, if_neg]
      · exact ⟨k₂, rfl, hl⟩
      · intro hc
        have hargv := hw.mp hc
        rcases List.mem_cons.mp hq with rfl | hq
        · exact hne hstr
        · by_cases hz : b = 0
          · simp [unlessNull, hz] at hq
          · simp only [unlessNull, if_neg hz, List.mem_singleton] at hq
            rw [hq] at hne
            exact hne (hargv.resolve_left hz)
    · rw [if_neg fun hc => hstr (hv.mp hc)]
      exact ⟨k₁, rfl, hl₁⟩

end Handlers

/-! ### All handlers -/

/-- The system calls that the kernel knows. -/
def knownCalls : List ℕ :=
  [SYSCALL_GETPID, SYSCALL_EXIT, SYSCALL_WRITE, SYSCALL_READ, SYSCALL_GETERRNO, SYSCALL_BRK, SYSCALL_SEND,
    SYSCALL_RECEIVE, SYSCALL_CLOSE, SYSCALL_PIPE, SYSCALL_DUP2, SYSCALL_FORK, SYSCALL_EXECVE,
    SYSCALL_WAITPID, SYSCALL_STAT, SYSCALL_OPEN, SYSCALL_GETDENT, SYSCALL_CHDIR, SYSCALL_GETCWD,
    SYSCALL_KILL]

theorem unknown_call {no : ℕ} (h : no ∉ knownCalls) (args : List ℕ) :
    dispatch m p r no args = keep r (unimplemented no) ∧ pointerArgs no args = [] := by
  simp only [knownCalls, List.mem_cons, List.not_mem_nil, or_false, not_or] at h
  constructor
  · simp only [dispatch, h, if_false]
  · simp only [pointerArgs, h, if_false]

/-- **The handlers**, `waitpid` excepted, guard the pointers among their arguments. -/
theorem dispatch_guards {no : ℕ} {args : List ℕ} (h : Sound k p) (hlog : LogIn (k.space p) k)
    (hargs : ∀ i, args.getD i 0 < wordSize) (hno : no ≠ SYSCALL_WAITPID) :
    Guards k p (pointerArgs no args) (dispatch m p r no args) (refusal no, r) := by
  by_cases hk : no ∈ knownCalls
  · simp only [knownCalls, List.mem_cons, List.not_mem_nil, or_false] at hk
    rcases hk with rfl | rfl | rfl | rfl | rfl | rfl | rfl | rfl | rfl | rfl | rfl | rfl | rfl | rfl | rfl |
      rfl | rfl | rfl | rfl | rfl
    · exact (guards_nothing _ hlog (confined_get fun _ => confined_pure _)).keep r
    · exact (guards_nothing _ hlog (confined_syscallExit _ _)).keep r
    · exact (guards_syscallWrite h hlog _ (hargs 1) (hargs 2)).keep r
    · exact (guards_syscallRead h hlog _ _ (hargs 1) (hargs 2)).keep r
    · exact (guards_nothing _ hlog (confined_get fun _ => confined_pure _)).keep r
    · exact (guards_nothing _ hlog (confined_syscallBrk _ _)).keep r
    · exact (guards_syscallSend h hlog _ _ (hargs 2) (hargs 3)).keep r
    · exact (guards_syscallReceive h hlog _ (hargs 0)).keep r
    · exact (guards_nothing _ hlog (confined_syscallClose _ _)).keep r
    · exact (guards_syscallPipe h hlog (hargs 0)).keep r
    · exact (guards_nothing _ hlog (confined_syscallDup2 _ _ _)).keep r
    · exact (guards_nothing _ hlog (confined_syscallFork _ _)).keep r
    · exact guards_syscallExecve h hlog _ (hargs 0) (hargs 1) r
    · exact absurd rfl hno
    · exact (guards_syscallStat h hlog _ (hargs 0) (hargs 1)).keep r
    · exact (guards_syscallOpen h hlog _ _ (hargs 0)).keep r
    · exact (guards_syscallGetdent h hlog _ _ (hargs 1)).keep r
    · exact (guards_syscallChdir h hlog _ (hargs 0)).keep r
    · exact (guards_syscallGetcwd h hlog (hargs 0) (hargs 1)).keep r
    · exact (guards_nothing _ hlog (confined_syscallKill _ _)).keep r
  · obtain ⟨hd, hq⟩ := unknown_call (m := m) (p := p) (r := r) hk args
    rw [hd, hq]
    exact (guards_nothing _ hlog (confined_unimplemented no)).keep r

end AdelaideOS.Kernel
