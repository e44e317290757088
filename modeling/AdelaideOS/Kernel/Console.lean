import AdelaideOS.Kernel.Keyboard
import AdelaideOS.Shell.Lines

/-!
# The shell at the keyboard

The first process becomes the shell, which reads from the input pipe as much as there is, up to `BUFSIZE` bytes at a time.
How the text is cut depends on when it is typed and on everything else that happens; which commands are run does not.

* **`reads_size`** — a read from the input pipe returns something, and no more than was asked for;
* **`Console.reads`** — the reads of the shell, one after the other, are what was taken from the pipe;
* **`typed_lines`** — the lines that the shell passes to `process_line` are those that were typed.
-/

namespace AdelaideOS.Kernel

open AdelaideOS.Lib.Bytes AdelaideOS.Lib.Triple AdelaideOS.Lib.View AdelaideOS.Page AdelaideOS.Process

variable {m : Machine} {n : Notes} {B : Books} {C : Contents} {k k' : State} {b p sh : ℕ} {i : Input}
  {before codes bytes : List UInt8} {chunks : List (List UInt8)}

/-! ### Reads -/

/-- What comes out of a pipe comes out through a read. -/
theorem read_of_take {no : ℕ} {args : List ℕ} {res : ℤ} (ht : transferOf p no args k res k' = .take b bytes) :
    no = SYSCALL_READ ∧ endAt k p .pipeReader (toInt (args.getD 0 0)) = some b ∧ 0 ≤ res ∧
      bytes = userBytes k' p (args.getD 1 0) res.toNat := by
  unfold transferOf at ht
  dsimp only at ht
  by_cases hwrite : no = SYSCALL_WRITE
  · rw [if_pos hwrite] at ht
    cases hend : endAt k p .pipeWriter (toInt (args.getD 0 0)) with
    | none =>
      rw [hend] at ht
      cases ht
    | some d =>
      rw [hend] at ht
      dsimp only at ht
      split at ht <;> cases ht
  · rw [if_neg hwrite] at ht
    by_cases hread : no = SYSCALL_READ
    · rw [if_pos hread] at ht
      cases hend : endAt k p .pipeReader (toInt (args.getD 0 0)) with
      | none =>
        rw [hend] at ht
        cases ht
      | some d =>
        rw [hend] at ht
        dsimp only at ht
        split at ht
        case isTrue hres =>
          obtain ⟨rfl, hbytes⟩ := Transfer.take.inj ht
          exact ⟨hread, rfl, hres, hbytes.symm⟩
        case isFalse => cases ht
    · rw [if_neg hread] at ht
      split_ifs at ht

/-- A descriptor with an end of a pipe. -/
theorem handle_of_endAt {t : FhType} {fd : ℤ} (h : endAt k p t fd = some b) :
    ∃ a fh, lookupFd k p fd = some a ∧ k.handles a = some fh ∧ fh.type = t ∧ fh.p = b := by
  unfold endAt at h
  cases ha : lookupFd k p fd with
  | none =>
    rw [ha] at h
    cases h
  | some a =>
    cases hfh : k.handles a with
    | none =>
      rw [ha] at h
      simp [hfh] at h
    | some fh =>
      rw [ha] at h
      simp only [Option.bind_eq_bind, Option.bind_some, hfh] at h
      split at h
      case isTrue ht => exact ⟨a, fh, rfl, hfh, ht, Option.some.inj h⟩
      case isFalse => cases h

/-- **A read from a pipe with a writer** returns at least one byte, and at most as many as were asked for. -/
theorem reads_size {fs : Memory} {fd : ℤ} {buf count : ℕ} {res : ℤ} {pb : PipeBuffer}
    (hend : endAt k p .pipeReader fd = some b) (hpipe : k.pipes b = some pb) (hwriting : pb.writing = true)
    (hpos : 0 < count) (hsmall : count < 2147483648) (hok : syscallRead fs p fd buf count k = .ok res k') (hres : 0 ≤ res) :
    0 < res.toNat ∧ res.toNat ≤ count := by
  obtain ⟨a, fh, ha, hfh, htype, rfl⟩ := handle_of_endAt hend
  unfold syscallRead at hok
  rw [run_get] at hok
  by_cases hvalid : validPointer (k.space p) buf count = true
  · rw [if_pos hvalid] at hok
    rw [ha] at hok
    obtain ⟨fh', k₁, hget, hok⟩ := bind_ok hok
    have hgot : getHandle a k = .ok fh k := by
      unfold getHandle
      rw [hfh]
    rw [hgot] at hget
    cases hget
    unfold readHandle at hok
    rw [htype] at hok
    replace hok : pipeReaderRead p fh buf count k = .ok res k' := hok
    unfold pipeReaderRead at hok
    rw [run_bind (getPipe_ok hpipe)] at hok
    by_cases hreader : pb.readpid ≠ none
    · rw [if_pos hreader] at hok
      cases hok
      exact absurd hres (by decide)
    · rw [if_neg hreader] at hok
      by_cases hlen : 0 < pb.len
      · rw [if_pos hlen] at hok
        obtain ⟨_, _, -, hok⟩ := bind_ok hok
        obtain ⟨_, _, -, hok⟩ := bind_ok hok
        obtain ⟨_, _, -, hok⟩ := bind_ok hok
        obtain ⟨_, _, -, hok⟩ := bind_ok hok
        obtain ⟨_, _, -, hok⟩ := bind_ok hok
        cases hok
        have hcount : (if count < pb.len then count else pb.len) ≤ count := by
          split <;> omega
        have hsome : 0 < if count < pb.len then count else pb.len := by
          split <;> omega
        rw [toInt, if_pos (by omega), Int.toNat_natCast]
        exact ⟨hsome, hcount⟩
      · rw [if_neg hlen, if_neg (by rw [hwriting]; decide)] at hok
        obtain ⟨_, k₂, -, hok⟩ := bind_ok hok
        obtain ⟨_, k₃, -, hok⟩ := bind_ok hok
        obtain ⟨_, k₄, -, hok⟩ := bind_ok hok
        cases hok
        exact absurd hres (by decide)
  · rw [if_neg hvalid] at hok
    cases hok
    exact absurd hres (by decide)

/-! ### Histories -/

/-- What an input reads from the input pipe. -/
def Input.reads (m : Machine) (n : Notes) (i : Input) (k k' : State) : List (List UInt8) :=
  match n.input, i.transfer m n k k' with
  | some b, .take c bytes => if c = b then [bytes] else []
  | _, _ => []

/-- Only the shell reads from the input pipe, `BUFSIZE` bytes at most: `read(0,&input[pos],BUFSIZE)`. -/
def Input.ByShell (sh : ℕ) (n : Notes) (k : State) : Input → Prop
  | .event (.call r args) => ∀ p b, k.sched.current = some p → n.input = some b → r.eax = SYSCALL_READ →
      endAt k p .pipeReader (toInt (args.getD 0 0)) = some b → p = sh ∧ args.getD 2 0 = BUFSIZE
  | _ => True

/-- Histories with the scancodes of the keyboard and the reads of the shell, which is process `sh`. -/
inductive Console (m : Machine) (sh : ℕ) :
    List UInt8 → List UInt8 → List (List UInt8) → Notes → Books → State → Prop where
  | boot (mem bytes : Memory) (blocks : ℕ → Buddy.Blockinfo) :
      Console m sh [] [] [] Notes.boot Books.boot (State.boot mem bytes blocks)
  | other {before codes : List UInt8} {chunks : List (List UInt8)} {n : Notes} {B : Books} {k k' : State} (i : Input) :
      Console m sh before codes chunks n B k → (∀ r c, i ≠ .key r c) → i.Fair n k → i.Modest → i.ByShell sh n k →
      react m n.input i k = .ok () k' →
      Console m sh before codes (chunks ++ i.reads m n k k') (n.next i k k') (B.next m n i k k') k'
  | lost {before codes : List UInt8} {chunks : List (List UInt8)} {n : Notes} {B : Books} {k k' : State} (r : Regs)
      (c : UInt8) {shift : Bool} : Console m sh before codes chunks n B k → n.input = none →
      keyboardInterrupt n.input (shiftAfter false (before ++ codes)) r c k = .ok shift k' →
      Console m sh (before ++ [c]) codes chunks (n.next (scanned (shiftAfter false (before ++ codes)) r c) k k')
        (B.next m n (scanned (shiftAfter false (before ++ codes)) r c) k k') k'
  | scancode {before codes : List UInt8} {chunks : List (List UInt8)} {n : Notes} {B : Books} {k k' : State} (r : Regs)
      (c : UInt8) {shift : Bool} : Console m sh before codes chunks n B k → n.input ≠ none →
      keyboardInterrupt n.input (shiftAfter false (before ++ codes)) r c k = .ok shift k' →
      Console m sh before (codes ++ [c]) chunks (n.next (scanned (shiftAfter false (before ++ codes)) r c) k k')
        (B.next m n (scanned (shiftAfter false (before ++ codes)) r c) k k') k'

theorem Console.typing (h : Console m sh before codes chunks n B k) : Typing m before codes n B k := by
  induction h with
  | boot mem bytes blocks => exact .boot mem bytes blocks
  | other i _ hkey hfair hmodest _ hok ih => exact .other i ih hkey hfair hmodest hok
  | lost r c _ hin hok ih => exact .lost r c ih hin hok
  | scancode r c _ hin hok ih => exact .scancode r c ih hin hok

/-- A call takes from the input pipe what is counted as read. -/
theorem taken_next (h : Whole n C k.objects) (hb : n.input = some b) :
    (B.next m n i k k').taken b = B.taken b ++ (i.reads m n k k').flatten := by
  obtain ⟨pb, hpb, -⟩ := h.tidy.paired.std b (h.input b hb)
  have hkept : ¬ (k.pipes b = none ∧ k'.pipes b ≠ none) := fun hno => by
    rw [show k.pipes b = some pb from hpb] at hno
    cases hno.1
  show (if k.pipes b = none ∧ k'.pipes b ≠ none then [] else (B.record (i.transfer m n k k')).taken b) = _
  rw [if_neg hkept]
  unfold Input.reads
  rw [hb]
  cases i.transfer m n k k' with
  | take c bytes =>
    by_cases hcb : c = b
    · subst hcb
      simp [Books.record]
    · simp [Books.record, hcb, Function.update_of_ne (Ne.symm hcb)]
  | nothing | put | post | collect => exact (List.append_nil _).symm

/-- The keyboard takes nothing. -/
theorem reads_scanned (shift : Bool) (r : Regs) (c : UInt8) : (scanned shift r c).reads m n k k' = [] := by
  unfold scanned Input.reads
  cases (decode shift c).2 with
  | none => cases n.input <;> rfl
  | some ch =>
    cases hin : n.input with
    | none => rfl
    | some b => simp only [Input.transfer, hin]

/-- Before there is an input pipe nothing is read from it. -/
theorem reads_lost (hnone : n.input = none) : i.reads m n k k' = [] := by
  unfold Input.reads
  rw [hnone]

/-- What an input takes from the input pipe. -/
theorem taken_size (h : Whole n C k.objects) (hshell : i.ByShell sh n k) (hb : n.input = some b)
    (ht : i.transfer m n k k' = .take b bytes) : 0 < bytes.length ∧ bytes.length ≤ BUFSIZE := by
  cases i with
  | key r c =>
    simp only [Input.transfer, hb] at ht
    cases ht
  | event ev =>
    cases ev with
    | start | crash | store | switch => cases ht
    | call r args =>
      cases hcur : k.sched.current with
      | none =>
        simp only [Input.transfer, hcur] at ht
        cases ht
      | some p =>
        cases hans : answer m r args k with
        | none =>
          simp only [Input.transfer, hcur, hans] at ht
          cases ht
        | some res =>
          simp only [Input.transfer, hcur, hans] at ht
          obtain ⟨hno, hend, hres, rfl⟩ := read_of_take ht
          obtain ⟨-, hcount⟩ := hshell p b hcur hb hno hend
          obtain ⟨pb, hpb, hwriting⟩ := h.tidy.paired.std b (h.input b hb)
          simp only [answer, hcur, hno] at hans
          cases hdis : dispatch m p r SYSCALL_READ args { k with sched := enter k.sched p SYSCALL_READ } with
          | error e k₂ =>
            rw [hdis] at hans
            cases hans
          | ok x k₂ =>
            rw [hdis] at hans
            obtain rfl := Option.some.inj hans
            obtain ⟨res, k₃, hread, hpure⟩ := bind_ok (show (syscallRead m.filesystem p (toInt (args.getD 0 0)) (args.getD 1 0)
              (args.getD 2 0) >>= fun res => pure (res, r)) _ = _ from hdis)
            cases hpure
            rw [hcount] at hread
            rw [userBytes_length]
            exact reads_size (k := { k with sched := enter k.sched p SYSCALL_READ }) hend hpb hwriting (by decide)
              (by decide) hread hres

/-- **The size of a read.** -/
theorem chunk_size (h : Whole n C k.objects) (hshell : i.ByShell sh n k) :
    ∀ chunk ∈ i.reads m n k k', 0 < chunk.length ∧ chunk.length ≤ BUFSIZE := by
  intro chunk hchunk
  cases hb : n.input with
  | none =>
    rw [reads_lost hb] at hchunk
    cases hchunk
  | some b =>
    unfold Input.reads at hchunk
    rw [hb] at hchunk
    cases ht : i.transfer m n k k' with
    | nothing | put | post | collect =>
      rw [ht] at hchunk
      cases hchunk
    | take c bytes =>
      rw [ht] at hchunk
      dsimp only at hchunk
      by_cases hcb : c = b
      · rw [if_pos hcb, List.mem_singleton] at hchunk
        subst hcb hchunk
        exact taken_size h hshell hb ht
      · rw [if_neg hcb] at hchunk
        cases hchunk

/-- The reads so far are what was taken from the input pipe. -/
structure Tallied (chunks : List (List UInt8)) (n : Notes) (B : Books) : Prop where
  lost : n.input = none → chunks = []
  taken : ∀ b, n.input = some b → chunks.flatten = B.taken b

theorem Tallied.step (h : Tallied chunks n B) (hwhole : Whole n C k.objects) (hok : react m n.input i k = .ok () k') :
    Tallied (chunks ++ i.reads m n k k') (n.next i k k') (B.next m n i k k') := by
  cases hin : n.input with
  | none =>
    rw [h.lost hin, reads_lost hin]
    refine ⟨fun _ => rfl, fun b hb => ?_⟩
    exact (if_pos (input_fresh hwhole hin hok hb)).symm
  | some b₀ =>
    obtain ⟨hinput, -⟩ := written_next (B := B) (m := m) (i := i) (C := C) (k := k) hwhole hin
    refine ⟨fun hnone => ?_, fun b hb => ?_⟩
    · rw [hinput] at hnone
      cases hnone
    · obtain rfl := Option.some.inj (hinput.symm.trans hb)
      rw [List.flatten_append, h.taken b₀ hin]
      exact (taken_next hwhole hin).symm

/-- **The reads of the shell.** -/
theorem Console.reads (h : Console m sh before codes chunks n B k) :
    Tallied chunks n B ∧ ∀ chunk ∈ chunks, 0 < chunk.length ∧ chunk.length ≤ BUFSIZE := by
  induction h with
  | boot mem bytes blocks =>
    refine ⟨⟨fun _ => rfl, fun b hb => by cases hb⟩, fun chunk hchunk => ?_⟩
    cases hchunk
  | @other before codes chunks n B k k' i hconsole hkey hfair hmodest hshell hok ih =>
    obtain ⟨htallied, hsizes⟩ := ih
    obtain ⟨C, hwhole⟩ := hconsole.typing.keyed.whole
    refine ⟨htallied.step hwhole hok, fun chunk hchunk => ?_⟩
    rcases List.mem_append.mp hchunk with hold | hnew
    · exact hsizes chunk hold
    · exact chunk_size hwhole hshell chunk hnew
  | @lost before codes chunks n B k k' r c shift hconsole hin hok ih =>
    obtain ⟨htallied, hsizes⟩ := ih
    obtain ⟨C, hwhole⟩ := hconsole.typing.keyed.whole
    have hstep := htallied.step hwhole (react_scanned (m := m) hok).1
    rw [reads_scanned, List.append_nil] at hstep
    exact ⟨hstep, hsizes⟩
  | @scancode before codes chunks n B k k' r c shift hconsole hin hok ih =>
    obtain ⟨htallied, hsizes⟩ := ih
    obtain ⟨C, hwhole⟩ := hconsole.typing.keyed.whole
    have hstep := htallied.step hwhole (react_scanned (m := m) hok).1
    rw [reads_scanned, List.append_nil] at hstep
    exact ⟨hstep, hsizes⟩

theorem Console.scan {l : ℕ} (h : Console m sh before codes chunks n B k) (hlisten : Listening m n k b l)
    (hl : l < BUFSIZE) (c : UInt8) : ∃ n' B' k', Console m sh before (codes ++ [c]) chunks n' B' k' ∧
      Listening m n' k' b (l + (decode (shiftAfter false (before ++ codes)) c).2.toList.length) := by
  obtain ⟨k', hok, hlisten'⟩ := hlisten.scancode hl (shiftAfter false (before ++ codes)) c
  have hsome : n.input ≠ none := by
    rw [hlisten.input]
    exact Option.some_ne_none b
  exact ⟨_, _, k', h.scancode firstRegs c hsome hok, hlisten' _ scanned_input⟩

/-- The first process reads as the shell does. -/
theorem Console.read {l : ℕ} (h : Console m 1 before codes chunks n B k) (hlisten : Listening m n k b l) (hl : 0 < l) :
    ∃ chunks' n' B' k', Console m 1 before codes chunks' n' B' k' ∧ Listening m n' k' b (l - min BUFSIZE l) := by
  obtain ⟨k', hdis, hlisten'⟩ := hlisten.read (r := readRegs) rfl hl (Nat.le_refl BUFSIZE)
  obtain ⟨hfair, hmodest⟩ := fair_read n k [0, STACK_LOW, BUFSIZE]
  have hshell : (Input.event (.call readRegs [0, STACK_LOW, BUFSIZE])).ByShell 1 n k := by
    intro p b hcur _ _ _
    exact ⟨Option.some.inj (hcur.symm.trans hlisten.current), rfl⟩
  exact ⟨_, _, _, _, h.other (.event (.call readRegs [0, STACK_LOW, BUFSIZE])) nofun hfair hmodest hshell
    (react_dispatch n.input hlisten.current hdis), hlisten' _ rfl⟩

end AdelaideOS.Kernel
