import AdelaideOS.Kernel.Outline
import AdelaideOS.Process.Invariant

/-!
# What the handlers answer

`syscall` takes the answer `-ESUSPEND` of a handler to mean that the caller has been suspended or killed.  Which
handlers can give that answer at all is a question about values only: `Yields P m` says that every value that `m`
returns satisfies `P`, whatever the state.

* **`answers_suspend`** — the answer `-ESUSPEND` comes from the calls that suspend or end the caller, or it is an error
  number, or a pointer, that happens to have this value.
-/

namespace AdelaideOS.Kernel

open AdelaideOS.Lib.Bytes AdelaideOS.Lib.Triple AdelaideOS.Lib.View AdelaideOS.Process

variable {α β : Type} {P : α → Prop} {k k' : State} {p : ℕ} {fs : Memory} {res : ℤ}

/-! ### Values -/

/-- Every value that `m` returns satisfies `P`. -/
def Yields (P : α → Prop) (m : K α) : Prop := ∀ k a k', m k = .ok a k' → P a

theorem yields_pure {a : α} (h : P a) : Yields P (pure a : K α) := by
  intro k b k' hok
  cases hok
  exact h

theorem Yields.bind {m : K β} {f : β → K α} (h : ∀ b, Yields P (f b)) : Yields P (m >>= f) := by
  intro k a k' hok
  obtain ⟨b, k₁, -, hf⟩ := bind_ok hok
  exact h b k₁ a k' hf

theorem Yields.bindOf {Q : β → Prop} {m : K β} {f : β → K α} (hm : Yields Q m) (h : ∀ b, Q b → Yields P (f b)) :
    Yields P (m >>= f) := by
  intro k a k' hok
  obtain ⟨b, k₁, hb, hf⟩ := bind_ok hok
  exact h b (hm k b k₁ hb) k₁ a k' hf

theorem Yields.ite {c : Prop} [Decidable c] {m m' : K α} (h : c → Yields P m) (h' : ¬ c → Yields P m') :
    Yields P (if c then m else m') := by
  by_cases hc : c
  · rw [if_pos hc]
    exact h hc
  · rw [if_neg hc]
    exact h' hc

theorem yields_lift {x : Except Fault α} (h : ∀ a, x = .ok a → P a) : Yields P (lift x) := by
  intro k a k' hok
  unfold lift at hok
  cases hx : x with
  | ok b =>
    rw [hx] at hok
    cases hok
    exact h _ hx
  | error e =>
    rw [hx] at hok
    cases hok

/-! ### Segments -/

/-- The segments of the processes lie below the end of the stack. -/
structure Bounded (s : Space) : Prop where
  text : s.textEnd ≤ PROCESS_STACK_BASE
  data : s.dataEnd ≤ PROCESS_STACK_BASE
  stack : s.stackEnd ≤ PROCESS_STACK_BASE

theorem Bounded.range {s : Space} {a n : ℕ} (h : Bounded s) (hvalid : validPointer s a n = true) :
    n = 0 ∨ a ≤ (a + n) % wordSize ∧ (a + n) % wordSize ≤ PROCESS_STACK_BASE := by
  obtain ⟨htext, hdata, hstack⟩ := h
  by_cases hn : n = 0
  · exact Or.inl hn
  · right
    unfold validPointer at hvalid
    rw [if_neg hn] at hvalid
    by_cases hlt : (a + n) % wordSize < a
    · exact absurd hvalid (by rw [if_pos hlt]; decide)
    · rw [if_neg hlt] at hvalid
      refine ⟨Nat.le_of_not_lt hlt, ?_⟩
      by_cases h1 : s.stackStart ≤ a ∧ (a + n) % wordSize ≤ s.stackEnd
      · exact h1.2.trans hstack
      · rw [if_neg h1] at hvalid
        by_cases h2 : s.dataStart ≤ a ∧ (a + n) % wordSize ≤ s.dataEnd
        · exact h2.2.trans hdata
        · rw [if_neg h2] at hvalid
          by_cases h3 : s.textStart ≤ a ∧ (a + n) % wordSize ≤ s.textEnd
          · exact h3.2.trans htext
          · rw [if_neg h3] at hvalid
            cases hvalid

/-- The word of `-ESUSPEND`. -/
abbrev SUSPEND_WORD : ℕ := 4294966296

theorem toInt_suspend {n : ℕ} (h : toInt n = -ESUSPEND) : n = SUSPEND_WORD := by
  unfold toInt at h
  simp only [ESUSPEND, SUSPEND_WORD] at *
  split at h
  · omega
  · omega

/-- No length that passes `valid_pointer` is taken for `-ESUSPEND`. -/
theorem Bounded.length_ne {s : Space} {a n n' : ℕ} (h : Bounded s) (hn : n < wordSize)
    (hvalid : validPointer s a n = true) (hle : n' ≤ n) : toInt n' ≠ -ESUSPEND := by
  intro hsus
  obtain rfl := toInt_suspend hsus
  rcases h.range hvalid with rfl | ⟨hlo, hhi⟩
  · exact absurd hle (by decide)
  · simp only [SUSPEND_WORD, PROCESS_STACK_BASE, wordSize] at *
    omega

/-- Nor is a pointer to anything. -/
theorem Bounded.pointer_ne {s : Space} {n : ℕ} (h : Bounded s) (hvalid : validPointer s SUSPEND_WORD n = true) :
    n = 0 := by
  rcases h.range hvalid with hn | ⟨hlo, hhi⟩
  · exact hn
  · simp only [SUSPEND_WORD, PROCESS_STACK_BASE] at *
    omega

/-! ### Single handlers -/

/-- The answer is not taken for `-ESUSPEND`. -/
abbrev Settles (m : K ℤ) : Prop := Yields (fun res => res ≠ -ESUSPEND) m

theorem settles_code {e : ℤ} (h : e ≠ -ESUSPEND) : Settles (return e) := yields_pure h

theorem natCast_ne (n : ℕ) : (n : ℤ) ≠ -ESUSPEND := by
  simp only [ESUSPEND]
  omega

/-- A path that leads nowhere is answered by an error number. -/
def Found (found : Except ℤ ℕ) : Prop := ∀ e, found = .error e → e = -ENOENT

theorem yields_entry (path : List UInt8) : Yields Found (lift (getDirectoryEntry fs path)) := by
  refine yields_lift fun found hok e he => ?_
  subst he
  exact walk_enoent hok

theorem yields_findEntry (path : ℕ) : Yields (fun x => Found x.2) (findEntry fs p path) := by
  refine Yields.bind fun rel => Yields.bind fun k => ?_
  exact (yields_entry _).bindOf fun found h => yields_pure h

theorem settles_getpid : Settles (syscallGetpid p) := Yields.bind fun _ => yields_pure (natCast_ne _)

theorem settles_brk (a : ℕ) : Settles (syscallBrk p a) :=
  Yields.bind fun k => Yields.ite (fun _ => settles_code (by decide)) fun _ =>
    Yields.bind fun _ => Yields.bind fun _ => settles_code (by decide)

theorem settles_deliver (d tag data size : ℕ) : Settles (deliver p d tag data size) := by
  refine Yields.bind fun box => Yields.bind fun _ => Yields.bind fun k => Yields.bind fun _ => Yields.bind fun bytes =>
    Yields.bind fun _ => Yields.ite (fun _ => ?_) fun _ => settles_code (by decide)
  exact Yields.bind fun _ => Yields.bind fun _ => settles_code (by decide)

theorem settles_send (dest : ℤ) (tag data size : ℕ) : Settles (syscallSend p dest tag data size) :=
  Yields.bind fun k => Yields.ite
    (fun _ => Yields.ite (fun _ => settles_code (by decide)) fun _ =>
      Yields.ite (fun _ => settles_code (by decide)) fun _ =>
        Yields.ite (fun _ => settles_code (by decide)) fun _ => settles_deliver _ _ _ _)
    fun _ => settles_code (by decide)

theorem settles_close (fd : ℤ) : Settles (syscallClose p fd) := by
  refine Yields.bind fun k => ?_
  cases lookupFd k p fd with
  | none => exact settles_code (by decide)
  | some a => exact Yields.bind fun _ => Yields.bind fun _ => settles_code (by decide)

theorem settles_pipe (filedes : ℕ) : Settles (syscallPipe p filedes) := by
  refine Yields.bind fun k => Yields.ite (fun _ => ?_) fun _ => settles_code (by decide)
  split
  · exact Yields.bind fun _ => Yields.bind fun _ => Yields.bind fun _ => Yields.bind fun _ => Yields.bind fun _ =>
      Yields.bind fun _ => Yields.bind fun _ => settles_code (by decide)
  · exact settles_code (by decide)

theorem settles_dup2 (oldfd newfd : ℤ) : Settles (syscallDup2 p oldfd newfd) := by
  refine Yields.bind fun k => Yields.ite (fun _ => settles_code (by decide)) fun hfd => ?_
  have hne : newfd ≠ -ESUSPEND := by
    rintro rfl
    exact hfd (Or.inl (by decide))
  cases lookupFd k p oldfd with
  | none => exact settles_code (by decide)
  | some a =>
    refine Yields.ite (fun _ => settles_code hne) fun _ => ?_
    exact Yields.bind fun k => Yields.bind fun _ => Yields.bind fun _ => Yields.bind fun _ => settles_code hne

theorem settles_fork (r : Regs) : Settles (syscallFork p r) := by
  refine Yields.bind fun k => ?_
  cases getFreePid k.sched with
  | none => exact settles_code (by decide)
  | some child => exact Yields.bind fun _ => settles_code (natCast_ne child)

theorem settles_stat (path buf : ℕ) : Settles (syscallStat fs p path buf) := by
  refine Yields.bind fun valid => Yields.bind fun k => Yields.ite (fun _ => ?_) fun _ => settles_code (by decide)
  refine (yields_findEntry path).bindOf ?_
  rintro ⟨abs, found⟩ hfound
  cases found with
  | error e => exact settles_code (by rw [hfound e rfl]; decide)
  | ok entry => exact Yields.bind fun _ => settles_code (by decide)

theorem settles_open (path : ℕ) (flags : ℤ) : Settles (syscallOpen fs p path flags) := by
  refine Yields.bind fun valid => Yields.ite (fun _ => Yields.bind fun k => ?_) fun _ => settles_code (by decide)
  cases freeFds k p with
  | nil => exact settles_code (by decide)
  | cons fd others =>
    refine (yields_findEntry path).bindOf ?_
    rintro ⟨abs, found⟩ hfound
    cases found with
    | error e => exact settles_code (by rw [hfound e rfl]; decide)
    | ok entry =>
      exact Yields.ite (fun _ => settles_code (by decide)) fun _ => Yields.ite (fun _ => settles_code (by decide))
        fun _ => Yields.bind fun _ => Yields.bind fun _ => settles_code (natCast_ne fd)

theorem settles_getdent (fd : ℤ) (entry : ℕ) : Settles (syscallGetdent fs p fd entry) := by
  refine Yields.bind fun k => Yields.ite (fun _ => ?_) fun _ => settles_code (by decide)
  cases lookupFd k p fd with
  | none => exact settles_code (by decide)
  | some a =>
    refine Yields.bind fun fh => Yields.ite (fun _ => ?_) fun _ => settles_code (by decide)
    refine Yields.ite (fun _ => settles_code (by decide)) fun _ => ?_
    exact Yields.bind fun _ => Yields.bind fun _ => Yields.bind fun _ => Yields.bind fun _ => settles_code (by decide)

theorem settles_chdir (path : ℕ) : Settles (syscallChdir fs p path) := by
  refine Yields.bind fun valid => Yields.ite (fun _ => ?_) fun _ => settles_code (by decide)
  refine (yields_findEntry path).bindOf ?_
  rintro ⟨abs, found⟩ hfound
  cases found with
  | error e => exact settles_code (by rw [hfound e rfl]; decide)
  | ok entry =>
    exact Yields.ite (fun _ => settles_code (by decide)) fun _ => Yields.bind fun _ => settles_code (by decide)

theorem settles_unimplemented (no : ℕ) : Settles (unimplemented no) := Yields.bind fun _ => settles_code (by decide)

theorem settles_execve (filename argv : ℕ) (r : Regs) :
    Yields (fun x => x.1 ≠ -ESUSPEND) (syscallExecve fs p filename argv r) := by
  have hcode : ∀ {e : ℤ} (r : Regs), e ≠ -ESUSPEND → Yields (fun x : ℤ × Regs => x.1 ≠ -ESUSPEND) (return (e, r)) :=
    fun r h => yields_pure h
  refine Yields.bind fun valid => Yields.ite (fun _ => ?_) fun _ => hcode r (by decide)
  refine Yields.bind fun ok => Yields.ite (fun _ => ?_) fun _ => hcode r (by decide)
  refine Yields.bind fun path => (yields_entry path).bindOf fun found hfound => ?_
  cases found with
  | error e => exact hcode r (by rw [hfound e rfl]; decide)
  | ok entry =>
    refine Yields.ite (fun _ => hcode r (by decide)) fun _ => Yields.bind fun args => ?_
    exact Yields.bind fun argdata => Yields.bind fun k => Yields.bind fun _ => Yields.bind fun _ => Yields.bind fun k =>
      Yields.bind fun _ => Yields.bind fun _ => hcode _ (by decide)

theorem settles_write {fd : ℤ} {buf count : ℕ} (hb : Bounded (k.space p)) (hcount : count < wordSize)
    (hok : syscallWrite p fd buf count k = .ok res k') : res ≠ -ESUSPEND := by
  unfold syscallWrite at hok
  rw [run_get] at hok
  by_cases hvalid : validPointer (k.space p) buf count = true
  · rw [if_pos hvalid] at hok
    have hlen := hb.length_ne hcount hvalid (Nat.le_refl count)
    cases hfd : lookupFd k p fd with
    | none =>
      rw [hfd] at hok
      cases hok
      decide
    | some a =>
      rw [hfd] at hok
      have hwrite : ∀ fh, Settles (writeHandle p fh buf count) := by
        intro fh
        unfold writeHandle
        cases fh.type with
        | screen => exact Yields.bind fun bs => Yields.bind fun _ => settles_code hlen
        | pipeWriter => exact Yields.bind fun _ => settles_code hlen
        | pipeReader => exact settles_code (by decide)
        | file => exact settles_code (by decide)
        | dir => exact settles_code (by decide)
      exact (Yields.bind hwrite : Settles (getHandle a >>= fun fh => writeHandle p fh buf count)) k res k' hok
  · rw [if_neg hvalid] at hok
    cases hok
    decide

/-- `getcwd` returns its pointer, which is not checked when the size is zero. -/
theorem getcwd_suspends {buf size : ℕ} (hb : Bounded (k.space p)) (hok : syscallGetcwd p buf size k = .ok (-ESUSPEND) k') :
    buf = SUSPEND_WORD ∧ size = 0 := by
  unfold syscallGetcwd at hok
  rw [run_get] at hok
  by_cases hvalid : validPointer (k.space p) buf size = true
  · rw [if_pos hvalid] at hok
    obtain ⟨_, k₁, -, hok⟩ := bind_ok hok
    have hbuf : buf = SUSPEND_WORD := toInt_suspend (EStateM.Result.ok.inj hok).1
    exact ⟨hbuf, hb.pointer_ne (hbuf ▸ hvalid)⟩
  · rw [if_neg hvalid] at hok
    cases hok

theorem yields_exit (status : ℤ) : Yields (fun res => res = -ESUSPEND) (syscallExit p status) :=
  Yields.bind fun _ => Yields.bind fun _ => yields_pure rfl

/-- What `kill` answers. -/
theorem kill_answer {pid : ℤ} (hok : syscallKill p pid k = .ok res k') :
    res = -ESRCH ∧ k' = k ∨ ∃ u, killProcess pid.toNat k = .ok u k' ∧ 0 ≤ pid ∧
      (k.sched.procs pid.toNat).exists_ = true ∧ res = if pid = (k.sched.procs p).pid then -ESUSPEND else 0 := by
  unfold Kernel.syscallKill at hok
  rw [run_get] at hok
  by_cases hc : 0 > pid ∨ (MAX_PROCESSES : ℤ) ≤ pid ∨ (k.sched.procs pid.toNat).exists_ = false
  · rw [if_pos hc] at hok
    cases hok
    exact Or.inl ⟨rfl, rfl⟩
  · rw [if_neg hc] at hok
    obtain ⟨u, k₁, h₁, hok⟩ := bind_ok hok
    cases hok
    rw [not_or, not_or] at hc
    exact Or.inr ⟨u, h₁, Int.not_lt.mp hc.1, by simpa using hc.2.2, rfl⟩

/-! ### All handlers -/

/-- The handlers that answer `-ESUSPEND` for a reason. -/
inductive Suspends (fs : Memory) (p : ℕ) (args : List ℕ) (k k' : State) : ℕ → Prop where
  | read : syscallRead fs p (toInt (args.getD 0 0)) (args.getD 1 0) (args.getD 2 0) k = .ok (-ESUSPEND) k' →
      Suspends fs p args k k' SYSCALL_READ
  | receive : syscallReceive p (args.getD 0 0) (args.getD 1 0 ≠ 0) k = .ok (-ESUSPEND) k' →
      Suspends fs p args k k' SYSCALL_RECEIVE
  | waitpid : syscallWaitpid p (toInt (args.getD 0 0)) (args.getD 1 0) k = .ok (-ESUSPEND) k' →
      Suspends fs p args k k' SYSCALL_WAITPID
  | exit : syscallExit p (toInt (args.getD 0 0)) k = .ok (-ESUSPEND) k' → Suspends fs p args k k' SYSCALL_EXIT
  | kill : syscallKill p (toInt (args.getD 0 0)) k = .ok (-ESUSPEND) k' → Suspends fs p args k k' SYSCALL_KILL

variable {m : Machine} {r r' : Regs} {no : ℕ} {args : List ℕ}

theorem keep_ok {x : K ℤ} (hok : keep r x k = .ok (res, r') k') : x k = .ok res k' ∧ r' = r := by
  obtain ⟨b, k₁, hx, hok⟩ := bind_ok hok
  cases hok
  exact ⟨hx, rfl⟩

/-- The handler of `getcwd` that returns a pointer which looks like `-ESUSPEND`. -/
def Mistaken (no : ℕ) (args : List ℕ) : Prop :=
  no = SYSCALL_GETCWD ∧ args.getD 0 0 = SUSPEND_WORD ∧ args.getD 1 0 = 0

/-- **The answer `-ESUSPEND`.** -/
theorem answers_suspend (hb : Bounded (k.space p)) (hargs : ∀ i, args.getD i 0 < wordSize)
    (herr : 0 ≤ (k.sched.procs p).lastErrno) (hno : ¬ Mistaken no args)
    (hok : dispatch m p r no args k = .ok (-ESUSPEND, r') k') :
    r' = r ∧ Suspends m.filesystem p args k k' no := by
  have hsettles : ∀ {x : K ℤ}, Settles x → keep r x k = .ok (-ESUSPEND, r') k' → r' = r ∧
      Suspends m.filesystem p args k k' no := fun hx hk => absurd rfl (hx k _ k' (keep_ok hk).1)
  by_cases hk : no ∈ knownCalls
  · simp only [knownCalls, List.mem_cons, List.not_mem_nil, or_false] at hk
    rcases hk with rfl | rfl | rfl | rfl | rfl | rfl | rfl | rfl | rfl | rfl | rfl | rfl | rfl | rfl | rfl |
      rfl | rfl | rfl | rfl | rfl
    · exact hsettles settles_getpid hok
    · exact ⟨(keep_ok hok).2, .exit (keep_ok hok).1⟩
    · exact absurd rfl (settles_write hb (hargs 2) (keep_ok hok).1)
    · exact ⟨(keep_ok hok).2, .read (keep_ok hok).1⟩
    · have herrno : (k.sched.procs p).lastErrno = -ESUSPEND := by
        obtain ⟨hx, -⟩ := keep_ok (x := syscallGeterrno p) hok
        exact (EStateM.Result.ok.inj hx).1
      rw [herrno] at herr
      exact absurd herr (by decide)
    · exact hsettles (settles_brk _) hok
    · exact hsettles (settles_send _ _ _ _) hok
    · exact ⟨(keep_ok hok).2, .receive (keep_ok hok).1⟩
    · exact hsettles (settles_close _) hok
    · exact hsettles (settles_pipe _) hok
    · exact hsettles (settles_dup2 _ _) hok
    · exact hsettles (settles_fork _) hok
    · exact absurd rfl (settles_execve _ _ r k (-ESUSPEND, r') k' hok)
    · exact ⟨(keep_ok hok).2, .waitpid (keep_ok hok).1⟩
    · exact hsettles (settles_stat _ _) hok
    · exact hsettles (settles_open _ _) hok
    · exact hsettles (settles_getdent _ _) hok
    · exact hsettles (settles_chdir _) hok
    · exact absurd ⟨rfl, getcwd_suspends hb (keep_ok hok).1⟩ hno
    · exact ⟨(keep_ok hok).2, .kill (keep_ok hok).1⟩
  · rw [(unknown_call hk args).1] at hok
    exact hsettles (settles_unimplemented no) hok

end AdelaideOS.Kernel
