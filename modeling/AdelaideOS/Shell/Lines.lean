import AdelaideOS.Shell.Words

/-!
# The lines of the input

A stream is cut into lines at its newlines.  `main` gets the stream in pieces and keeps what it has of an unfinished line;
`reports` is what it does with lists of bytes in the place of an array and three indices.

* **`linesFrom_append`** — lines may be found piece by piece;
* **`scanLoop_spec`** — what the loop over new text does;
* **`mainLoop_spec`** — `main` does what `reports` says, and stays inside `input`;
* **`lines_passed`** — the lines that are passed on are those of the stream, however it is cut.
-/

namespace AdelaideOS.Shell

open AdelaideOS.Kernel AdelaideOS.Libc AdelaideOS.Lib.Bytes

/-! ### Lines -/

/-- The lines that a text completes, when `kept` is there of the first one. -/
def linesFrom (kept : List UInt8) : List UInt8 → List (List UInt8)
  | [] => []
  | c :: text => if char '\n' = c then kept :: linesFrom [] text else linesFrom (kept ++ [c]) text

/-- What is there of a line that the text does not complete. -/
def restFrom (kept : List UInt8) : List UInt8 → List UInt8
  | [] => kept
  | c :: text => if char '\n' = c then restFrom [] text else restFrom (kept ++ [c]) text

/-- The lines of a stream that end with a newline. -/
def lines (stream : List UInt8) : List (List UInt8) := linesFrom [] stream

/-- The string that a line is: a NUL in it ends it. -/
def string (line : List UInt8) : List UInt8 := line.takeWhile (· ≠ 0)

/-- The line is the command `exit`. -/
def ExitLine (line : List UInt8) : Prop := Exits (string line)

instance (line : List UInt8) : Decidable (ExitLine line) := inferInstanceAs (Decidable (Exits _))

/-! ### What `main` does -/

inductive Report where
  | line (n : ℕ) (text : List UInt8)
  | tooLong (n : ℕ)

def number (n : ℕ) : List (List UInt8) → List Report
  | [] => []
  | text :: texts => .line n text :: number (n + 1) texts

/-- The reports for the pieces of the stream, with `n` newlines in front of them and the text `kept` of an unfinished
line. -/
def reports (n : ℕ) (kept : List UInt8) : List (List UInt8) → List Report
  | [] => []
  | chunk :: chunks =>
    let found := linesFrom kept chunk
    let rest := restFrom kept chunk
    number n found ++ (if BUFSIZE ≤ rest.length then [.tooLong (n + found.length)] else []) ++
      if ∃ line ∈ found, ExitLine line then []
      else reports (n + found.length) (if BUFSIZE ≤ rest.length then [] else rest) chunks

/-- The bytes are at `a`. -/
def BytesAt (M : Memory) : ℕ → List UInt8 → Prop
  | _, [] => True
  | a, c :: text => M a = c ∧ BytesAt M (a + 1) text

/-- The line and a NUL are at the address that is passed to `process_line`. -/
def Event.Is : Event → Report → Prop
  | .passed n M a, .line m text => n = m ∧ BytesAt M a (text ++ [0])
  | .tooLong n, .tooLong m => n = m
  | _, _ => False

/-- The indices are inside `input`. -/
def InInput (log : List ℕ) : Prop := ∀ i ∈ log, i < 2 * BUFSIZE + 1

variable {M M' : Memory} {a b n i fuel : ℕ} {kept text rest : List UInt8} {s s' : State}

theorem linesFrom_append (kept text rest : List UInt8) :
    linesFrom kept (text ++ rest) = linesFrom kept text ++ linesFrom (restFrom kept text) rest := by
  induction text generalizing kept with
  | nil => rfl
  | cons c text ih =>
    rw [List.cons_append, linesFrom, linesFrom, restFrom]
    split
    · rw [ih, List.cons_append]
    · exact ih _

/-- The lines and the rest are the text, cut at its newlines. -/
theorem linesFrom_join (kept text : List UInt8) :
    (linesFrom kept text).flatMap (· ++ [char '\n']) ++ restFrom kept text = kept ++ text := by
  induction text generalizing kept with
  | nil => rw [linesFrom, restFrom, List.flatMap_nil, List.nil_append, List.append_nil]
  | cons c text ih =>
    rw [linesFrom, restFrom]
    by_cases hc : char '\n' = c
    · rw [if_pos hc, if_pos hc, List.flatMap_cons, List.append_assoc, ih, ← hc]
      simp
    · rw [if_neg hc, if_neg hc, ih]
      simp

/-! ### Bytes in memory -/

theorem bytesAt_append : BytesAt M a (text ++ rest) ↔ BytesAt M a text ∧ BytesAt M (a + text.length) rest := by
  induction text generalizing a with
  | nil => exact (and_iff_right trivial).symm
  | cons c text ih =>
    rw [List.cons_append, BytesAt, BytesAt, ih, List.length_cons, and_assoc, Nat.add_assoc, Nat.add_comm 1]

theorem BytesAt.congr (h : BytesAt M a text) (heq : ∀ x, a ≤ x → x < a + text.length → M' x = M x) :
    BytesAt M' a text := by
  induction text generalizing a with
  | nil => trivial
  | cons c text ih =>
    rw [List.length_cons] at heq
    refine ⟨(heq a le_rfl (by omega)).trans h.1, ih h.2 fun x hx hx' => ?_⟩
    exact heq x (by omega) (by omega)

theorem bytesAt_of_get (h : ∀ i < text.length, M (a + i) = text.getD i 0) : BytesAt M a text := by
  induction text generalizing a with
  | nil => trivial
  | cons c text ih =>
    refine ⟨h 0 (by simp), ih fun i hi => ?_⟩
    have hnext := h (i + 1) (by simpa using hi)
    rw [List.getD_cons_succ] at hnext
    rw [← hnext]
    congr 1
    omega

theorem bytesAt_shift (h : BytesAt M (b + a) text) : BytesAt (fun i => M (b + i)) a text := by
  induction text generalizing a with
  | nil => trivial
  | cons c text ih => exact ⟨h.1, ih h.2⟩

/-- A line with a NUL behind it is a string. -/
theorem BytesAt.textAt (h : BytesAt M a (text ++ [0])) : TextAt M a (string text) := by
  induction text generalizing a with
  | nil => exact h.1
  | cons c text ih =>
    unfold string
    rw [List.takeWhile_cons]
    by_cases hc : c = 0
    · rw [if_neg (by simp [hc])]
      exact h.1.trans hc
    · rw [if_pos (by simp [hc])]
      exact ⟨h.1, hc, ih h.2⟩

theorem string_length (text : List UInt8) : (string text).length ≤ text.length := (List.takeWhile_prefix _).length_le

/-! ### Scanning new text -/

/-- The text `rest` is still to be scanned; `kept` is there of the current line. -/
structure Scanning (s : State) (kept rest : List UInt8) : Prop where
  pos : s.pos = s.linestart + kept.length
  bytes : BytesAt s.input s.linestart (kept ++ rest)
  room : s.pos + rest.length ≤ 2 * BUFSIZE
  log : InInput s.log

/-- What has happened between `s` and `s'`. -/
structure Scanned (s s' : State) (kept rest : List UInt8) : Prop where
  scanning : Scanning s' (restFrom kept rest) []
  newlines : s'.newlines = s.newlines + (linesFrom kept rest).length
  done : s'.done = true ↔ s.done = true ∨ ∃ line ∈ linesFrom kept rest, ExitLine line
  events : ∃ new, s'.events = s.events ++ new ∧ List.Forall₂ Event.Is new (number s.newlines (linesFrom kept rest))

/-- A character of a line. -/
theorem scanStep_char {c : UInt8} (h : Scanning s kept (c :: rest)) (hc : char '\n' ≠ c) :
    ∃ s', scanStep fuel s = .ok s' ∧ Scanning s' (kept ++ [c]) rest ∧ s'.newlines = s.newlines ∧ s'.done = s.done ∧
      s'.events = s.events := by
  obtain ⟨-, hbyte, -⟩ := bytesAt_append.mp h.bytes
  rw [← h.pos] at hbyte
  have hroom := h.room
  rw [List.length_cons] at hroom
  refine ⟨{ s with log := s.pos :: s.log, pos := s.pos + 1 }, ?_, ⟨?_, ?_, ?_, ?_⟩, rfl, rfl, rfl⟩
  · unfold scanStep
    exact if_neg (by rw [hbyte]; exact hc)
  · rw [List.length_append, List.length_singleton, ← Nat.add_assoc, ← h.pos]
  · rw [List.append_assoc]
    exact h.bytes
  · show s.pos + 1 + rest.length ≤ 2 * BUFSIZE
    omega
  · intro i hi
    rcases List.mem_cons.mp hi with rfl | hi
    · omega
    · exact h.log i hi

/-- **A newline**: the line is passed to `process_line`. -/
theorem scanStep_newline (h : Scanning s kept (char '\n' :: rest)) (hfuel : 2 * BUFSIZE < fuel) :
    ∃ s', scanStep fuel s = .ok s' ∧ Scanning s' [] rest ∧ s'.newlines = s.newlines + 1 ∧
      (s'.done = true ↔ s.done = true ∨ ExitLine kept) ∧
      ∃ e, s'.events = s.events ++ [e] ∧ e.Is (.line s.newlines kept) := by
  obtain ⟨hkept, hbyte, hrest⟩ := bytesAt_append.mp h.bytes
  rw [← h.pos] at hbyte hrest
  have hroom := h.room
  have hpos := h.pos
  rw [List.length_cons] at hroom
  -- the line with its NUL
  let input := Function.update s.input s.pos 0
  have hline : BytesAt input s.linestart (kept ++ [0]) := by
    refine bytesAt_append.mpr ⟨hkept.congr fun x _ hx => Function.update_of_ne (by omega) _ _, ?_, trivial⟩
    rw [← h.pos]
    exact Function.update_self _ _ _
  have hlen := string_length kept
  obtain ⟨r, hok, hr⟩ := processLine_spec hline.textAt (show (string kept).length < fuel by omega)
  have he : (Event.passed s.newlines input s.linestart).Is (.line s.newlines kept) := ⟨rfl, hline⟩
  refine ⟨⟨r.mem, s.pos + 1, s.pos + 1, s.done || r.command = .exit, s.newlines + 1,
    s.events ++ [.passed s.newlines input s.linestart], r.log ++ s.pos :: s.log⟩, ?_, ⟨rfl, ?_, ?_, ?_⟩, rfl, ?_, _, rfl,
    he⟩
  · have hok' : processLine (Function.update s.input s.pos 0) s.linestart fuel = .ok r := hok
    unfold scanStep
    simp only
    rw [if_pos hbyte.symm, hok']
    rfl
  · -- what follows the line is unchanged
    refine hrest.congr fun x hx _ => ?_
    have hbehind : r.mem x = input x := hr.outside x (.inr (by omega))
    exact hbehind.trans (Function.update_of_ne (by omega) _ _)
  · show s.pos + 1 + rest.length ≤ 2 * BUFSIZE
    omega
  · intro i hi
    rcases List.mem_append.mp hi with hi | hi
    · have := (hr.log i hi).2
      omega
    · rcases List.mem_cons.mp hi with rfl | hi
      · omega
      · exact h.log i hi
  · simp only [Bool.or_eq_true, decide_eq_true_eq]
    exact or_congr_right hr.exits

/-- **The loop over new text.** -/
theorem scanLoop_spec (h : Scanning s kept rest) (hfuel : 2 * BUFSIZE < fuel) :
    ∃ s', scanLoop fuel rest.length s = .ok s' ∧ Scanned s s' kept rest := by
  induction rest generalizing s kept with
  | nil => exact ⟨s, rfl, h, rfl, by simp [linesFrom], [], (List.append_nil _).symm, .nil⟩
  | cons c rest ih =>
    rw [List.length_cons, scanLoop]
    by_cases hc : char '\n' = c
    · subst hc
      obtain ⟨s₁, hok, hscan, hnew, hdone, e, hevents, he⟩ := scanStep_newline h hfuel
      obtain ⟨s', hok', hs'⟩ := ih hscan
      obtain ⟨new, hnew', hall⟩ := hs'.events
      refine ⟨s', ?_, ?_, ?_, ?_, e :: new, ?_, ?_⟩
      · rw [hok]
        exact hok'
      · rw [restFrom, if_pos rfl]
        exact hs'.scanning
      · rw [hs'.newlines, hnew, linesFrom, if_pos rfl, List.length_cons]
        omega
      · rw [hs'.done, hdone, linesFrom, if_pos rfl, or_assoc]
        simp
      · rw [hnew', hevents, List.append_assoc, List.singleton_append]
      · rw [linesFrom, if_pos rfl, number, ← hnew]
        exact .cons he hall
    · obtain ⟨s₁, hok, hscan, hnew, hdone, hevents⟩ := @scanStep_char fuel kept rest s c h hc
      obtain ⟨s', hok', hs'⟩ := ih hscan
      obtain ⟨new, hnew', hall⟩ := hs'.events
      refine ⟨s', ?_, ?_, ?_, ?_, new, ?_, ?_⟩
      · rw [hok]
        exact hok'
      · rw [restFrom, if_neg hc]
        exact hs'.scanning
      · rw [hs'.newlines, hnew, linesFrom, if_neg hc]
      · rw [hs'.done, hdone, linesFrom, if_neg hc]
      · rw [hnew', hevents]
      · rw [linesFrom, if_neg hc, ← hnew]
        exact hall

/-! ### The loop of `main` -/

/-- What is kept from one read to the next. -/
structure Ready (s : State) (n : ℕ) (kept : List UInt8) : Prop where
  pos : s.pos = kept.length
  linestart : s.linestart = 0
  bytes : BytesAt s.input 0 kept
  short : kept.length < BUFSIZE
  newlines : s.newlines = n
  log : InInput s.log

theorem Ready.scanning {chunk : List UInt8} (h : Ready s n kept) (hchunk : chunk.length ≤ BUFSIZE) :
    Scanning (readText s chunk) kept chunk := by
  have hpos := h.pos
  have hshort := h.short
  refine ⟨?_, ?_, ?_, ?_⟩
  · exact hpos.trans (by rw [show (readText s chunk).linestart = 0 from h.linestart, Nat.zero_add])
  · rw [show (readText s chunk).linestart = 0 from h.linestart]
    unfold readText
    refine bytesAt_append.mpr ⟨h.bytes.congr fun x _ hx => ?_, bytesAt_of_get fun i hi => ?_⟩
    · simp only
      rw [Function.update_of_ne (by omega), if_neg (by omega)]
    · simp only
      rw [Function.update_of_ne (by omega), if_pos (by omega), hpos, Nat.zero_add, Nat.add_sub_cancel_left]
  · show s.pos + chunk.length ≤ 2 * BUFSIZE
    omega
  · intro i hi
    rcases List.mem_append.mp hi with hi | hi
    · have := span_mem hi
      omega
    · exact h.log i hi

/-- The rest of a line is kept. -/
theorem Scanning.rest_kept (h : Scanning s rest []) : (keepRest s).pos = rest.length ∧ (keepRest s).linestart = 0 ∧
    BytesAt (keepRest s).input 0 rest ∧ InInput (keepRest s).log := by
  have hpos := h.pos
  have hroom := h.room
  rw [List.length_nil] at hroom
  have hlen : s.pos - s.linestart = rest.length := by omega
  unfold keepRest
  simp only [hlen]
  refine ⟨trivial, trivial, ?_, fun i hi => ?_⟩
  · have hbytes := (bytesAt_append.mp h.bytes).1
    have hmoved : ∀ x, 0 ≤ x → x < 0 + rest.length →
        memmove s.input 0 s.linestart rest.length x = s.input (s.linestart + x) := by
      intro x _ hx
      have hbyte := @memmove_byte s.input 0 s.linestart rest.length x (by omega)
      rw [if_neg (by omega), Nat.zero_add] at hbyte
      exact hbyte
    refine BytesAt.congr ?_ hmoved
    exact bytesAt_shift hbytes
  · simp only [List.mem_append, List.mem_map, List.mem_range] at hi
    rcases hi with (⟨x, hx, rfl⟩ | hi) | hi
    · omega
    · omega
    · exact h.log i hi

/-- **One read.** -/
theorem mainStep_spec {chunk : List UInt8} (h : Ready s n kept) (hdone : s.done = false) (hchunk : chunk.length ≤ BUFSIZE)
    (hfuel : 2 * BUFSIZE < fuel) :
    ∃ s', mainStep fuel chunk s = .ok s' ∧
      Ready s' (n + (linesFrom kept chunk).length)
        (if BUFSIZE ≤ (restFrom kept chunk).length then [] else restFrom kept chunk) ∧
      (s'.done = true ↔ ∃ line ∈ linesFrom kept chunk, ExitLine line) ∧
      ∃ new, s'.events = s.events ++ new ∧ List.Forall₂ Event.Is new (number n (linesFrom kept chunk) ++
        if BUFSIZE ≤ (restFrom kept chunk).length then [.tooLong (n + (linesFrom kept chunk).length)] else []) := by
  obtain ⟨s₁, hok, hs₁⟩ := scanLoop_spec (h.scanning hchunk) hfuel
  obtain ⟨new, hnew, hall⟩ := hs₁.events
  obtain ⟨hpos, hstart, hbytes, hlog⟩ := hs₁.scanning.rest_kept
  have hnewlines : (keepRest s₁).newlines = n + (linesFrom kept chunk).length := by
    have hold : (readText s chunk).newlines = n := h.newlines
    exact hs₁.newlines.trans (by rw [hold])
  have hdone' : (keepRest s₁).done = true ↔ ∃ line ∈ linesFrom kept chunk, ExitLine line := by
    have hold : (readText s chunk).done = false := hdone
    refine hs₁.done.trans ?_
    simp [hold]
  have hevents : (keepRest s₁).events = s.events ++ new := hnew
  have hnumber : number (readText s chunk).newlines (linesFrom kept chunk) = number n (linesFrom kept chunk) := by
    rw [show (readText s chunk).newlines = n from h.newlines]
  rw [hnumber] at hall
  refine ⟨dropLong (keepRest s₁), ?_, ?_⟩
  · unfold mainStep
    rw [hok]
    rfl
  · unfold dropLong
    rw [hpos]
    by_cases hlong : BUFSIZE ≤ (restFrom kept chunk).length
    · rw [if_pos hlong, if_pos hlong, if_pos hlong]
      refine ⟨⟨rfl, hstart, trivial, by decide, hnewlines, hlog⟩, hdone', new ++ [.tooLong (keepRest s₁).newlines], ?_, ?_⟩
      · show (keepRest s₁).events ++ _ = _
        rw [hevents, List.append_assoc]
      · refine List.rel_append hall (.cons ?_ .nil)
        exact hnewlines
    · rw [if_neg hlong, if_neg hlong, if_neg hlong]
      refine ⟨⟨hpos, hstart, hbytes, by omega, hnewlines, hlog⟩, hdone', new, hevents, ?_⟩
      rw [List.append_nil]
      exact hall

/-- **The whole run.** -/
theorem mainLoop_spec {chunks : List (List UInt8)} (h : Ready s n kept) (hdone : s.done = false)
    (hchunks : ∀ chunk ∈ chunks, 0 < chunk.length ∧ chunk.length ≤ BUFSIZE) (hfuel : 2 * BUFSIZE < fuel) :
    ∃ s', mainLoop fuel chunks s = .ok s' ∧ InInput s'.log ∧
      ∃ new, s'.events = s.events ++ new ∧ List.Forall₂ Event.Is new (reports n kept chunks) := by
  induction chunks generalizing s n kept with
  | nil => exact ⟨s, rfl, h.log, [], (List.append_nil _).symm, .nil⟩
  | cons chunk chunks ih =>
    obtain ⟨hpos, hlen⟩ := hchunks chunk (by simp)
    obtain ⟨s₁, hok, hready, hdone₁, new₁, hevents₁, hall₁⟩ := mainStep_spec h hdone hlen hfuel
    rw [mainLoop, if_pos ⟨hdone, hpos⟩, hok, reports]
    simp only [bind, Except.bind]
    by_cases hexit : ∃ line ∈ linesFrom kept chunk, ExitLine line
    · -- the loop ends here
      rw [if_pos hexit]
      have hstop : mainLoop fuel chunks s₁ = .ok s₁ := by
        have htrue := hdone₁.mpr hexit
        cases chunks with
        | nil => rfl
        | cons c cs => exact if_neg (by simp [htrue])
      refine ⟨s₁, hstop, hready.log, new₁, hevents₁, ?_⟩
      rw [List.append_nil]
      exact hall₁
    · rw [if_neg hexit]
      have hfalse : s₁.done = false := by
        rw [← Bool.not_eq_true, hdone₁]
        exact hexit
      obtain ⟨s', hok', hlog, new, hevents, hall⟩ := ih hready hfalse fun c hc => hchunks c (by simp [hc])
      refine ⟨s', hok', hlog, new₁ ++ new, ?_, ?_⟩
      · rw [hevents, hevents₁, List.append_assoc]
      · exact List.rel_append hall₁ hall

theorem start_ready (input : Memory) : Ready (start input) 0 [] :=
  ⟨rfl, rfl, trivial, by decide, rfl, by simp [InInput, start]⟩

/-- **`main`** -/
theorem main_spec {chunks : List (List UInt8)} (input : Memory)
    (hchunks : ∀ chunk ∈ chunks, 0 < chunk.length ∧ chunk.length ≤ BUFSIZE) (hfuel : 2 * BUFSIZE < fuel) :
    ∃ s, main fuel input chunks = .ok s ∧ InInput s.log ∧ List.Forall₂ Event.Is s.events (reports 0 [] chunks) := by
  obtain ⟨s, hok, hlog, new, hevents, hall⟩ := mainLoop_spec (start_ready input) rfl hchunks hfuel
  have hnew : s.events = new := hevents
  exact ⟨s, hok, hlog, hnew ▸ hall⟩

/-! ### All ways to cut a stream -/

def Event.isPassed : Event → Bool
  | .passed _ _ _ => true
  | .tooLong _ => false

/-- The line is passed to `process_line`, with a NUL behind it. -/
def Event.Passes : Event → List UInt8 → Prop
  | .passed _ M a, line => BytesAt M a (line ++ [0])
  | .tooLong _, _ => False

/-- The lines of the reports. -/
def passedLines : List Report → List (List UInt8)
  | [] => []
  | .line _ text :: rs => text :: passedLines rs
  | .tooLong _ :: rs => passedLines rs

theorem passedLines_append (rs rs' : List Report) : passedLines (rs ++ rs') = passedLines rs ++ passedLines rs' := by
  induction rs with
  | nil => rfl
  | cons r rs ih =>
    cases r with
    | line n text => rw [List.cons_append, passedLines, passedLines, ih, List.cons_append]
    | tooLong n => exact ih

theorem passedLines_number (n : ℕ) (texts : List (List UInt8)) : passedLines (number n texts) = texts := by
  induction texts generalizing n with
  | nil => rfl
  | cons text texts ih => rw [number, passedLines, ih]

theorem passes_of_is {events : List Event} {rs : List Report} (h : List.Forall₂ Event.Is events rs) :
    List.Forall₂ Event.Passes (events.filter Event.isPassed) (passedLines rs) := by
  induction h with
  | nil => exact .nil
  | @cons e r events rs he hrest ih =>
    cases e with
    | passed n M a =>
      cases r with
      | line m text => exact .cons he.2 ih
      | tooLong m => exact he.elim
    | tooLong n =>
      cases r with
      | line m text => exact he.elim
      | tooLong m => exact ih

theorem linesFrom_eq_nil (kept text : List UInt8) : linesFrom kept text = [] ↔ char '\n' ∉ text := by
  induction text generalizing kept with
  | nil => simp [linesFrom]
  | cons c text ih =>
    rw [linesFrom]
    by_cases hc : char '\n' = c
    · rw [if_pos hc]
      simp [hc]
    · rw [if_neg hc, ih]
      simp [hc]

/-- The first line begins with what is there of it. -/
theorem linesFrom_head {line : List UInt8} (h : (linesFrom kept text).head? = some line) : kept <+: line := by
  induction text generalizing kept with
  | nil => cases h
  | cons c text ih =>
    rw [linesFrom] at h
    by_cases hc : char '\n' = c
    · rw [if_pos hc] at h
      rw [Option.some.inj h]
    · rw [if_neg hc] at h
      exact (List.prefix_append kept [c]).trans (ih h)

/-- A line that is too long is never completed if all lines are short. -/
theorem linesFrom_long (hlong : BUFSIZE ≤ kept.length) (hshort : ∀ line ∈ linesFrom kept text, line.length < BUFSIZE) :
    linesFrom kept text = linesFrom [] text := by
  have hnone : linesFrom kept text = [] := by
    cases hlines : linesFrom kept text with
    | nil => rfl
    | cons line others =>
      have hle := (linesFrom_head (show (linesFrom kept text).head? = some line by rw [hlines]; rfl)).length_le
      have hlt := hshort line (by rw [hlines]; exact List.mem_cons_self)
      omega
  rw [hnone, eq_comm, linesFrom_eq_nil, ← linesFrom_eq_nil kept, hnone]

theorem passedLines_reports (n : ℕ) (kept : List UInt8) (chunks : List (List UInt8))
    (hshort : ∀ line ∈ linesFrom kept chunks.flatten, line.length < BUFSIZE)
    (hexit : ∀ line ∈ linesFrom kept chunks.flatten, ¬ ExitLine line) :
    passedLines (reports n kept chunks) = linesFrom kept chunks.flatten := by
  induction chunks generalizing n kept with
  | nil => rfl
  | cons chunk chunks ih =>
    rw [List.flatten_cons, linesFrom_append] at hshort hexit ⊢
    have hno : ¬ ∃ line ∈ linesFrom kept chunk, ExitLine line := by
      rintro ⟨line, hline, hbad⟩
      exact hexit line (List.mem_append_left _ hline) hbad
    have hshort' : ∀ line ∈ linesFrom (restFrom kept chunk) chunks.flatten, line.length < BUFSIZE :=
      fun line hline => hshort line (List.mem_append_right _ hline)
    have hexit' : ∀ line ∈ linesFrom (restFrom kept chunk) chunks.flatten, ¬ ExitLine line :=
      fun line hline => hexit line (List.mem_append_right _ hline)
    rw [reports, if_neg hno, passedLines_append, passedLines_append, passedLines_number, List.append_assoc]
    congr 1
    by_cases hlong : BUFSIZE ≤ (restFrom kept chunk).length
    · -- nothing more is passed on
      rw [if_pos hlong, if_pos hlong]
      have hsame := linesFrom_long hlong hshort'
      rw [hsame] at hshort' hexit' ⊢
      exact ih _ [] hshort' hexit'
    · rw [if_neg hlong, if_neg hlong]
      exact ih _ _ hshort' hexit'

/-- **The lines do not depend on how the stream is cut**, and `input` is not left. -/
theorem lines_passed {stream : List UInt8} {chunks : List (List UInt8)} (input : Memory) (hcut : chunks.flatten = stream)
    (hchunks : ∀ chunk ∈ chunks, 0 < chunk.length ∧ chunk.length ≤ BUFSIZE)
    (hshort : ∀ line ∈ lines stream, line.length < BUFSIZE) (hexit : ∀ line ∈ lines stream, ¬ ExitLine line)
    (hfuel : 2 * BUFSIZE < fuel) :
    ∃ s, main fuel input chunks = .ok s ∧ List.Forall₂ Event.Passes (s.events.filter Event.isPassed) (lines stream) ∧
      InInput s.log := by
  obtain ⟨s, hok, hlog, hall⟩ := main_spec input hchunks hfuel
  subst hcut
  refine ⟨s, hok, ?_, hlog⟩
  have hlines : passedLines (reports 0 [] chunks) = lines chunks.flatten :=
    passedLines_reports 0 [] chunks hshort hexit
  rw [← hlines]
  exact passes_of_is hall

/-- Two lines in three pieces. -/
theorem lines_passed_pieces :
    ∃ s, main 2049 (fun _ => 0) [[108], [115, 10, 112], [119, 100, 10]] = .ok s ∧
      List.Forall₂ Event.Passes (s.events.filter Event.isPassed) [[108, 115], [112, 119, 100]] ∧ InInput s.log :=
  @lines_passed 2049 [108, 115, 10, 112, 119, 100, 10] [[108], [115, 10, 112], [119, 100, 10]] (fun _ => 0) rfl (by decide)
    (by decide) (by decide) (by decide)

end AdelaideOS.Shell
