import AdelaideOS.Kernel.Feeding

/-!
# The keyboard: `keyboard_handler` and the tables of `interrupts.c`

`keyboardInterrupt` is `keyboard_handler` for a scancode.  `Typing` is a history of the kernel with the scancodes of the
keyboard in it: `before` came when there was no input pipe, `codes` after it had been made.

* **`meaning_strokes`** — every text over the characters of the keyboard can be typed;
* **`put_of_transfer`** — nobody but the keyboard writes to the input pipe;
* **`typed_text`** — what was read from the input pipe and what is still in it is what was typed.
-/

namespace AdelaideOS.Kernel

open AdelaideOS.Lib.Bytes AdelaideOS.Lib.Triple AdelaideOS.Lib.View AdelaideOS.Process

/-! ### Scancodes -/

/-- `KEY_SHIFT`. -/
abbrev KEY_SHIFT : UInt8 := 42

/-- The characters of a table, which begins with a zero and ends with zeros. -/
def keys (s : String) : List UInt8 := s.toList.map char

/-- `kbdmap`. -/
def kbdmap : List UInt8 :=
  [0, 27] ++ keys "1234567890-=" ++ [8, 9] ++ keys "qwertyuiop[]\n" ++ [0] ++ keys "asdfghjkl;'`" ++ [0] ++
    keys "\\zxcvbnm,./" ++ [0] ++ keys "*" ++ [0] ++ keys " " ++ List.replicate 70 0

/-- `kbdmap_shift`. -/
def kbdmapShift : List UInt8 :=
  [0, 27] ++ keys "!@#$%^&*()_+" ++ [8, 9] ++ keys "QWERTYUIOP\x7b\x7d\n" ++ [0] ++ keys "ASDFGHJKL:\"~" ++ [0] ++
    keys "|ZXCVBNM<>?" ++ [0] ++ keys "*" ++ [0] ++ keys " " ++ List.replicate 70 0

/-- The character of a key. -/
def charOf (shift : Bool) (key : UInt8) : UInt8 := (if shift then kbdmapShift else kbdmap).getD key.toNat 0

/-- What a scancode does: whether shift is pressed from now on, and what is typed. -/
def decode (shift : Bool) (scancode : UInt8) : Bool × Option UInt8 :=
  let key := scancode &&& 0x7F
  if scancode &&& 0x80 ≠ 0 then (if KEY_SHIFT = key then false else shift, none)
  else if KEY_SHIFT = key then (true, none)
  else (shift, some (charOf shift key))

/-- `keyboard_handler`; the result is the next value of `shift_pressed`. -/
def keyboardInterrupt (input : Option ℕ) (shift : Bool) (r : Regs) (scancode : UInt8) : K Bool := do
  match decode shift scancode with
  | (shift, some c) => do
    typeKey c input
    schedDo fun S => .ok (contextSwitch S r)
    return shift
  | (shift, none) => do
    schedDo fun S => .ok (contextSwitch S r)
    return shift

/-- Whether shift is pressed after some scancodes. -/
def shiftAfter (shift : Bool) (codes : List UInt8) : Bool := codes.foldl (fun shift c => (decode shift c).1) shift

/-- What some scancodes type. -/
def meaning : Bool → List UInt8 → List UInt8
  | _, [] => []
  | shift, c :: codes => (decode shift c).2.toList ++ meaning (decode shift c).1 codes

theorem meaning_append (shift : Bool) (codes codes' : List UInt8) :
    meaning shift (codes ++ codes') = meaning shift codes ++ meaning (shiftAfter shift codes) codes' := by
  induction codes generalizing shift with
  | nil => rfl
  | cons c codes ih =>
    rw [List.cons_append, meaning, meaning, ih, List.append_assoc]
    rfl

/-! ### Typing a text -/

/-- The scancodes of a character: its key is pressed and released, with shift if it has to be. -/
def stroke (c : UInt8) : List UInt8 :=
  let key := UInt8.ofNat (kbdmap.idxOf c)
  let upper := UInt8.ofNat (kbdmapShift.idxOf c)
  if c ∈ kbdmap then [key, key ||| 0x80] else [KEY_SHIFT, upper, upper ||| 0x80, KEY_SHIFT ||| 0x80]

def strokes (text : List UInt8) : List UInt8 := text.flatMap stroke

theorem meaning_stroke {c : UInt8} (hc : c ∈ kbdmap ++ kbdmapShift) :
    meaning false (stroke c) = [c] ∧ shiftAfter false (stroke c) = false := by
  revert c
  decide +kernel

/-- **Every text** over the characters of the keyboard can be typed. -/
theorem meaning_strokes {text : List UInt8} (h : ∀ c ∈ text, c ∈ kbdmap ++ kbdmapShift) :
    meaning false (strokes text) = text := by
  induction text with
  | nil => rfl
  | cons c text ih =>
    obtain ⟨hc, hshift⟩ := meaning_stroke (h c List.mem_cons_self)
    rw [strokes, List.flatMap_cons, meaning_append, hc, hshift]
    exact congrArg (c :: ·) (ih fun d hd => h d (List.mem_cons_of_mem _ hd))

/-! ### Nobody else writes to the input pipe -/

variable {m : Machine} {n : Notes} {B : Books} {C : Contents} {k k' : State} {b p : ℕ} {i : Input}
  {before codes text : List UInt8}

/-- The standard input of a process has no writer. -/
theorem endAt_writer (h : Whole n C k.objects) (hstd : n.std b = true) (fd : ℤ) : endAt k p .pipeWriter fd ≠ some b := by
  intro hend
  unfold endAt at hend
  cases ha : lookupFd k p fd with
  | none =>
    rw [ha] at hend
    cases hend
  | some a =>
    cases hfh : k.handles a with
    | none =>
      rw [ha] at hend
      simp [hfh] at hend
    | some fh =>
      rw [← endAt, endAt_of ha hfh] at hend
      split at hend
      case isTrue htype =>
        obtain ⟨-, -, -, hno⟩ := h.tidy.paired.ends a fh hfh (by rw [htype]; rfl)
        rw [Option.some.inj hend] at hno
        rw [hno htype] at hstd
        cases hstd
      case isFalse => cases hend

/-- A call that puts bytes into a pipe goes through a writer of it. -/
theorem writer_of_put {no : ℕ} {args : List ℕ} {res : ℤ} {bytes : List UInt8}
    (hput : transferOf p no args k res k' = .put b bytes) :
    endAt k p .pipeWriter (toInt (args.getD 0 0)) = some b := by
  unfold transferOf at hput
  dsimp only at hput
  by_cases hwrite : no = SYSCALL_WRITE
  · rw [if_pos hwrite] at hput
    cases hend : endAt k p .pipeWriter (toInt (args.getD 0 0)) with
    | none =>
      rw [hend] at hput
      cases hput
    | some d =>
      rw [hend] at hput
      dsimp only at hput
      split at hput
      · rw [(Transfer.put.inj hput).1]
      · cases hput
  · rw [if_neg hwrite] at hput
    by_cases hread : no = SYSCALL_READ
    · rw [if_pos hread] at hput
      cases hend : endAt k p .pipeReader (toInt (args.getD 0 0)) with
      | none =>
        rw [hend] at hput
        cases hput
      | some d =>
        rw [hend] at hput
        dsimp only at hput
        split at hput <;> cases hput
    · rw [if_neg hread] at hput
      split_ifs at hput

/-- **Only the keyboard** puts anything into the input pipe. -/
theorem put_of_transfer (h : Whole n C k.objects) (hb : n.input = some b) {bytes : List UInt8}
    (hput : i.transfer m n k k' = .put b bytes) : ∃ r c, i = .key r c ∧ bytes = [c] := by
  cases i with
  | key r c =>
    simp only [Input.transfer, hb, Transfer.put.injEq, true_and] at hput
    exact ⟨r, c, rfl, hput.symm⟩
  | event ev =>
    exfalso
    cases ev with
    | start | crash | store | switch => cases hput
    | call r args =>
      cases hcur : k.sched.current with
      | none =>
        simp only [Input.transfer, hcur] at hput
        cases hput
      | some p =>
        cases hans : answer m r args k with
        | none =>
          simp only [Input.transfer, hcur, hans] at hput
          cases hput
        | some res =>
          simp only [Input.transfer, hcur, hans] at hput
          exact endAt_writer h (h.input b hb) _ (writer_of_put hput)

/-! ### Histories with scancodes -/

/-- What a scancode is to the rest of the kernel. -/
def scanned (shift : Bool) (r : Regs) (scancode : UInt8) : Input :=
  match (decode shift scancode).2 with
  | some c => .key r c
  | none => .event (.switch r)

theorem react_scanned {input : Option ℕ} {shift shift' : Bool} {r : Regs} {c : UInt8}
    (hok : keyboardInterrupt input shift r c k = .ok shift' k') :
    react m input (scanned shift r c) k = .ok () k' ∧ shift' = (decode shift c).1 := by
  unfold keyboardInterrupt at hok
  unfold scanned
  rcases hd : decode shift c with ⟨next, _ | ch⟩
  · rw [hd] at hok
    obtain ⟨_, k₁, h₁, hret⟩ := bind_ok hok
    cases hret
    exact ⟨h₁, rfl⟩
  · rw [hd] at hok
    obtain ⟨_, k₁, h₁, hrest⟩ := bind_ok hok
    obtain ⟨_, k₂, h₂, hret⟩ := bind_ok hrest
    cases hret
    refine ⟨?_, rfl⟩
    show keyboardHandler input r ch k = _
    unfold keyboardHandler
    rw [run_bind h₁]
    exact h₂

/-- Histories with the scancodes of the keyboard. -/
inductive Typing (m : Machine) : List UInt8 → List UInt8 → Notes → Books → State → Prop where
  | boot (mem bytes : Memory) (blocks : ℕ → Buddy.Blockinfo) :
      Typing m [] [] Notes.boot Books.boot (State.boot mem bytes blocks)
  | other {before codes : List UInt8} {n : Notes} {B : Books} {k k' : State} (i : Input) :
      Typing m before codes n B k → (∀ r c, i ≠ .key r c) → i.Fair n k → i.Modest →
      react m n.input i k = .ok () k' → Typing m before codes (n.next i k k') (B.next m n i k k') k'
  | lost {before codes : List UInt8} {n : Notes} {B : Books} {k k' : State} (r : Regs) (c : UInt8) {shift : Bool} :
      Typing m before codes n B k → n.input = none →
      keyboardInterrupt n.input (shiftAfter false (before ++ codes)) r c k = .ok shift k' →
      Typing m (before ++ [c]) codes (n.next (scanned (shiftAfter false (before ++ codes)) r c) k k')
        (B.next m n (scanned (shiftAfter false (before ++ codes)) r c) k k') k'
  | scancode {before codes : List UInt8} {n : Notes} {B : Books} {k k' : State} (r : Regs) (c : UInt8) {shift : Bool} :
      Typing m before codes n B k → n.input ≠ none →
      keyboardInterrupt n.input (shiftAfter false (before ++ codes)) r c k = .ok shift k' →
      Typing m before (codes ++ [c]) (n.next (scanned (shiftAfter false (before ++ codes)) r c) k k')
        (B.next m n (scanned (shiftAfter false (before ++ codes)) r c) k k') k'

/-- What an input types. -/
def Input.typed : Input → List UInt8
  | .key _ c => [c]
  | .event _ => []

theorem typed_scanned (shift : Bool) (r : Regs) (c : UInt8) :
    (scanned shift r c).typed = (decode shift c).2.toList := by
  unfold scanned
  cases (decode shift c).2 <;> rfl

theorem fair_scanned (shift : Bool) (r : Regs) (c : UInt8) (n : Notes) (k : State) :
    (scanned shift r c).Fair n k ∧ (scanned shift r c).Modest := by
  unfold scanned
  cases (decode shift c).2 <;> exact ⟨trivial, trivial⟩

/-- The input pipe stays what it is, and gets what is typed. -/
theorem written_next (h : Whole n C k.objects) (hb : n.input = some b) :
    (n.next i k k').input = some b ∧ (B.next m n i k k').written b = B.written b ++ i.typed := by
  obtain ⟨pb, hpb, -⟩ := h.tidy.paired.std b (h.input b hb)
  have hkept : ¬ (k.pipes b = none ∧ k'.pipes b ≠ none) := fun hno => by
    rw [show k.pipes b = some pb from hpb] at hno
    cases hno.1
  have hinput : (n.next i k k').input = some b := by
    cases i with
    | key r c => exact hb
    | event ev =>
      cases ev with
      | start startAddress =>
        show n.input.orElse _ = some b
        rw [hb]
        rfl
      | call | crash | store | switch => exact hb
  refine ⟨hinput, ?_⟩
  show (if k.pipes b = none ∧ k'.pipes b ≠ none then [] else (B.record (i.transfer m n k k')).written b) = _
  rw [if_neg hkept]
  have hother : ∀ c bytes, i.transfer m n k k' = .put c bytes → c ≠ b → i.typed = [] := by
    intro c bytes hput hne
    cases i with
    | key r ch =>
      simp only [Input.transfer, hb] at hput
      exact absurd (Transfer.put.inj hput).1.symm hne
    | event ev => rfl
  have hquiet : (∀ bytes, i.transfer m n k k' ≠ .put b bytes) → i.typed = [] := by
    intro hno
    cases i with
    | key r ch =>
      refine absurd ?_ (hno [ch])
      simp only [Input.transfer, hb]
    | event ev => rfl
  cases ht : i.transfer m n k k' with
  | put c bytes =>
    by_cases hcb : c = b
    · obtain ⟨r, ch, rfl, rfl⟩ := put_of_transfer h hb (hcb ▸ ht)
      rw [hcb]
      exact Function.update_self _ _ _
    · rw [hother c bytes ht hcb, List.append_nil]
      exact Function.update_of_ne (Ne.symm hcb) _ _
  | nothing | take | post | collect =>
    rw [hquiet (fun bytes heq => by rw [ht] at heq; cases heq), List.append_nil]
    rfl

/-- The input pipe is new when it becomes the input pipe. -/
theorem input_fresh (h : Whole n C k.objects) (hnone : n.input = none) (hok : react m n.input i k = .ok () k')
    (hb : (n.next i k k').input = some b) : k.pipes b = none ∧ k'.pipes b ≠ none := by
  cases i with
  | key r c => exact absurd (hnone.symm.trans hb) (by simp)
  | event ev =>
    cases ev with
    | call | crash | store | switch => exact absurd (hnone.symm.trans hb) (by simp)
    | start startAddress =>
      have hin : (getFreePid k.sched).bind (fun pid => endAt k' pid .pipeReader 0) = some b := by
        simpa [Notes.next, Input.input, hnone] using hb
      obtain ⟨res, k₁, hstart, hret⟩ := bind_ok (show (startProcess m startAddress >>= fun _ => pure ()) k = _ from hok)
      cases hret
      rcases (h.startProcess m startAddress).ok rfl hstart with ⟨-, hfull, -⟩ | ⟨pid, d, -, hs, -⟩
      · rw [show getFreePid k.sched = none from hfull] at hin
        cases hin
      · obtain ⟨pb, hpipes⟩ := hs.pipes
        rw [show getFreePid k.sched = some pid from hs.free, Option.bind_some, endAt_of_reads hs.reads] at hin
        obtain rfl := Option.some.inj hin
        refine ⟨hs.pipe, ?_⟩
        rw [show k'.pipes = Function.update k.pipes d (some pb) from hpipes, Function.update_self]
        exact Option.some_ne_none pb

/-- What the history of a keyboard says about the input pipe. -/
structure Keyed (m : Machine) (before codes : List UInt8) (n : Notes) (B : Books) (k : State) : Prop where
  run : Run m (fun n k i => i.Fair n k ∧ i.Modest) n B k
  lost : n.input = none → codes = []
  written : ∀ b, n.input = some b → B.written b = meaning (shiftAfter false before) codes

theorem Keyed.whole (h : Keyed m before codes n B k) : ∃ C, Whole n C k.objects := by
  obtain ⟨-, -, C, hwhole, -⟩ := h.run.standing fun _ _ _ h => h.1
  exact ⟨C, hwhole⟩

/-- One input, of the keyboard or not. -/
theorem Keyed.step (h : Keyed m before codes n B k) (hfair : i.Fair n k) (hmodest : i.Modest)
    (hok : react m n.input i k = .ok () k') :
    Run m (fun n k i => i.Fair n k ∧ i.Modest) (n.next i k k') (B.next m n i k k') k' ∧
      (n.input = none → ∀ b, (n.next i k k').input = some b → (B.next m n i k k').written b = []) ∧
      ∀ b, n.input = some b → (n.next i k k').input = some b ∧
        (B.next m n i k k').written b = meaning (shiftAfter false before) codes ++ i.typed := by
  obtain ⟨C, hwhole⟩ := h.whole
  refine ⟨h.run.step i ⟨hfair, hmodest⟩ hok, fun hnone b hb => ?_, fun b hb => ?_⟩
  · exact if_pos (input_fresh hwhole hnone hok hb)
  · obtain ⟨hinput, hwritten⟩ : (n.next i k k').input = some b ∧ (B.next m n i k k').written b = B.written b ++ i.typed :=
      written_next hwhole hb
    exact ⟨hinput, by rw [hwritten, h.written b hb]⟩

theorem shiftAfter_append (shift : Bool) (codes codes' : List UInt8) :
    shiftAfter shift (codes ++ codes') = shiftAfter (shiftAfter shift codes) codes' := List.foldl_append

theorem Typing.keyed (h : Typing m before codes n B k) : Keyed m before codes n B k := by
  induction h with
  | boot mem bytes blocks => exact ⟨.boot mem bytes blocks, fun _ => rfl, fun b hb => by cases hb⟩
  | @other before codes n B k k' i _ hkey hfair hmodest hok ih =>
    obtain ⟨hrun, hnew, hold⟩ := ih.step hfair hmodest hok
    have htyped : i.typed = [] := by
      cases i with
      | key r c => exact absurd rfl (hkey r c)
      | event ev => rfl
    cases hin : n.input with
    | none =>
      refine ⟨hrun, fun _ => ih.lost hin, fun b hb => ?_⟩
      rw [hnew hin b hb, ih.lost hin]
      rfl
    | some d =>
      obtain ⟨hd, hwritten⟩ := hold d hin
      rw [htyped, List.append_nil] at hwritten
      refine ⟨hrun, fun hno => absurd (hd.symm.trans hno) (by simp), fun b hb => ?_⟩
      obtain rfl := Option.some.inj (hd.symm.trans hb)
      exact hwritten
  | @lost before codes n B k k' r c shift _ hin hkey ih =>
    obtain ⟨hok, -⟩ := react_scanned (m := m) hkey
    obtain ⟨hfair, hmodest⟩ := fair_scanned (shiftAfter false (before ++ codes)) r c n k
    obtain ⟨hrun, hnew, -⟩ := ih.step hfair hmodest hok
    refine ⟨hrun, fun _ => ih.lost hin, fun b hb => ?_⟩
    rw [hnew hin b hb, ih.lost hin]
    rfl
  | @scancode before codes n B k k' r c shift _ hin hkey ih =>
    obtain ⟨hok, -⟩ := react_scanned (m := m) hkey
    obtain ⟨hfair, hmodest⟩ := fair_scanned (shiftAfter false (before ++ codes)) r c n k
    obtain ⟨hrun, -, hold⟩ := ih.step hfair hmodest hok
    obtain ⟨d, hd⟩ := Option.ne_none_iff_exists'.mp hin
    obtain ⟨hd', hwritten⟩ := hold d hd
    refine ⟨hrun, fun hno => absurd (hd'.symm.trans hno) (by simp), fun b hb => ?_⟩
    obtain rfl := Option.some.inj (hd'.symm.trans hb)
    rw [hwritten, typed_scanned, shiftAfter_append, meaning_append, meaning, meaning, List.append_nil]

/-- What has been read from the input pipe, and what is still in it, is what was written to it. -/
theorem Keyed.balance (h : Keyed m before codes n B k) (hb : n.input = some b) :
    ∃ C, Whole n C k.objects ∧ B.taken b ++ C.text b = B.written b := by
  obtain ⟨-, -, C, hwhole, hbooks⟩ := h.run.standing fun _ _ _ h => h.1
  obtain ⟨-, hbalanced⟩ := hbooks fun _ _ _ h => h.2
  obtain ⟨pb, hpb, -⟩ := hwhole.tidy.paired.std b (hwhole.input b hb)
  have hpipe : k.pipes b ≠ none := by
    rw [show k.pipes b = some pb from hpb]
    exact Option.some_ne_none pb
  exact ⟨C, hwhole, hbalanced.pipes b hpipe⟩

/-- **What is typed is read.**  In every history, the bytes that were read from the input pipe, and then those that are
still in it, are the characters of the scancodes since there is an input pipe. -/
theorem typed_text (h : Typing m before codes n B k) (hb : n.input = some b) :
    ∃ C, Whole n C k.objects ∧ B.taken b ++ C.text b = meaning (shiftAfter false before) codes := by
  obtain ⟨C, hwhole, hbalance⟩ := h.keyed.balance hb
  exact ⟨C, hwhole, hbalance.trans (h.keyed.written b hb)⟩

/-! ### The first process -/

theorem scanned_input {shift : Bool} {r : Regs} {c : UInt8} : (n.next (scanned shift r c) k k').input = n.input := by
  unfold scanned
  cases (decode shift c).2 <;> rfl

/-- **A scancode** while the first process runs. -/
theorem Listening.scancode {l : ℕ} (h : Listening m n k b l) (hl : l < BUFSIZE) (shift : Bool) (c : UInt8) :
    ∃ k', keyboardInterrupt n.input shift firstRegs c k = .ok (decode shift c).1 k' ∧ ∀ n' : Notes, n'.input = n.input →
      Listening m n' k' b (l + (decode shift c).2.toList.length) := by
  unfold keyboardInterrupt
  rcases decode shift c with ⟨next, _ | ch⟩
  · refine ⟨_, rfl, fun n' hn => ⟨?_, ?_, h.reads, hn.trans h.input, h.small, h.pipe⟩⟩
    · refine h.mapped.sched ?_ (live_contextSwitch k.sched firstRegs)
      rw [h.sched]
      exact good_oneProcess.contextSwitch firstRegs
    · show contextSwitch k.sched firstRegs = oneProcess
      rw [h.sched, contextSwitch_oneProcess]
  · obtain ⟨k', htype, hlisten⟩ := h.press hl ch
    exact ⟨_, run_bind htype, hlisten⟩

/-- Nothing has been typed. -/
theorem Run.typing {P : Notes → State → Input → Prop} (h : Run m P n B k)
    (hP : ∀ n k i, P n k i → (∀ r c, i ≠ .key r c) ∧ i.Fair n k ∧ i.Modest) : Typing m [] [] n B k := by
  induction h with
  | boot mem bytes blocks => exact .boot mem bytes blocks
  | step i _ hi hok ih =>
    obtain ⟨hkey, hfair, hmodest⟩ := hP _ _ _ hi
    exact ih.other i hkey hfair hmodest hok

theorem Typing.scan {l : ℕ} (h : Typing m before codes n B k) (hlisten : Listening m n k b l) (hl : l < BUFSIZE)
    (c : UInt8) : ∃ n' B' k', Typing m before (codes ++ [c]) n' B' k' ∧
      Listening m n' k' b (l + (decode (shiftAfter false (before ++ codes)) c).2.toList.length) := by
  obtain ⟨k', hok, hlisten'⟩ := hlisten.scancode hl (shiftAfter false (before ++ codes)) c
  have hsome : n.input ≠ none := by
    rw [hlisten.input]
    exact Option.some_ne_none b
  exact ⟨_, _, k', h.scancode firstRegs c hsome hok, hlisten' _ scanned_input⟩

theorem Typing.read {l count : ℕ} (h : Typing m before codes n B k) (hlisten : Listening m n k b l) (hl : 0 < l)
    (hcount : count ≤ BUFSIZE) :
    ∃ n' B' k', Typing m before codes n' B' k' ∧ Listening m n' k' b (l - min count l) := by
  obtain ⟨k', hdis, hlisten'⟩ := hlisten.read (r := readRegs) rfl hl hcount
  obtain ⟨hfair, hmodest⟩ := fair_read n k [0, STACK_LOW, count]
  exact ⟨_, _, _, h.other (.event (.call readRegs [0, STACK_LOW, count])) nofun hfair hmodest
    (react_dispatch n.input hlisten.current hdis), hlisten' _ rfl⟩

/-- **A capital letter** is typed and read. -/
theorem typed_text_capital : ∃ n B k b C, Typing Machine.bare [] [KEY_SHIFT, 30] n B k ∧ n.input = some b ∧
    Whole n C k.objects ∧ B.taken b ++ C.text b = [char 'A'] ∧ C.text b = [] := by
  obtain ⟨n, B, k, b, hrun, hlisten, -⟩ := run_listening Machine.bare
    (P := fun n k i => (∀ r c, i ≠ .key r c) ∧ i.Fair n k ∧ i.Modest) roomy_boot (fun _ _ _ h => h.2)
    (fun _ _ => ⟨nofun, trivial, trivial⟩) fun _ _ => ⟨nofun, trivial, trivial⟩
  have h := hrun.typing fun _ _ _ h => h
  obtain ⟨n₁, B₁, k₁, h₁, hlisten₁⟩ := h.scan hlisten (by decide) KEY_SHIFT
  obtain ⟨n₂, B₂, k₂, h₂, hlisten₂⟩ := h₁.scan hlisten₁ (by decide) 30
  obtain ⟨n₃, B₃, k₃, h₃, hlisten₃⟩ := h₂.read hlisten₂ (by decide) (show 1 ≤ BUFSIZE by decide)
  obtain ⟨C, hwhole, htext⟩ := typed_text h₃ hlisten₃.input
  exact ⟨n₃, B₃, k₃, b, C, h₃, hlisten₃.input, hwhole, htext, hlisten₃.text hwhole⟩

end AdelaideOS.Kernel
