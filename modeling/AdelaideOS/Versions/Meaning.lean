import AdelaideOS.Versions.Model

/-!
# What the versions mean

The conditional directives of C, as far as `GenVersions` deals with them: `#if 0`, `#if 1`, `#ifdef` and `#ifndef` of
one symbol, `#else` and `#endif`.  `nest` follows them line by line, `compile` collects the other lines that the
compiler gets to see when the symbols `env` are defined.

* **`processStream_preserves`** — the output is well nested, and the compiler sees the same lines in it.
-/

namespace AdelaideOS.Versions

/-- What opens a conditional. -/
inductive Test where
  | zero
  | one
  | ifdef (name : Line)
  | ifndef (name : Line)
deriving DecidableEq

inductive Directive where
  | opens (t : Test)
  | els
  | endif
  | bad
deriving DecidableEq

/-- Characters of identifiers. -/
def isWordChar (c : Char) : Bool := c.isAlphanum || c = '_'

def isSymbol (name : Line) : Bool := !name.isEmpty && name.all isWordChar

/-- The keyword ends here. -/
def atWordEnd : Line → Bool
  | [] => true
  | c :: _ => !isWordChar c

/-- A directive whose name begins like that of a conditional one. -/
def looksConditional : Line → Bool
  | '#' :: rest =>
    let word := rest.dropWhile (· ≤ ' ')
    startsWith word ['i', 'f'] || startsWith word ['e', 'l'] || startsWith word ['e', 'n', 'd', 'i', 'f']
  | _ => false

/-- The conditional directive on a line, if any; `bad` stands for those of another form, also where a comment follows the
condition. -/
def directive (line : Line) : Option Directive :=
  let t := trim line
  if startsWith t hashIf then
    if t.drop 4 = ['0'] then some (.opens .zero)
    else if t.drop 4 = ['1'] then some (.opens .one)
    else some .bad
  else if startsWith t hashIfdef then
    if isSymbol (t.drop 7) then some (.opens (.ifdef (t.drop 7))) else some .bad
  else if startsWith t hashIfndef then
    if isSymbol (t.drop 8) then some (.opens (.ifndef (t.drop 8))) else some .bad
  else if startsWith t hashElse then if atWordEnd (t.drop 5) then some .els else some .bad
  else if startsWith t hashEndif then if atWordEnd (t.drop 6) then some .endif else some .bad
  else if looksConditional t then some .bad
  else none

/-- An open conditional. -/
structure Frame where
  test : Test
  elsed : Bool
deriving DecidableEq

/-- A symbol that is neither a `USE_` symbol nor `USERLAND`, such as that of an include guard. -/
def isGuard (name : Line) : Bool := !usesSymbol name && decide (name ≠ userland)

/-- `#ifdef` tests no guard. -/
def Test.allowed : Test → Bool
  | .ifdef name => !isGuard name
  | _ => true

/-- A guard has no `#else`. -/
def Test.mayElse : Test → Bool
  | .ifndef name => !isGuard name
  | _ => true

/-- The open conditionals after a directive. -/
def advance (frames : List Frame) : Directive → Option (List Frame)
  | .opens t => if t.allowed then some (⟨t, false⟩ :: frames) else none
  | .els =>
    match frames with
    | [] => none
    | f :: rest => if f.elsed = false ∧ f.test.mayElse = true then some ({ f with elsed := true } :: rest) else none
  | .endif =>
    match frames with
    | [] => none
    | _ :: rest => some rest
  | .bad => none

/-- The open conditionals after a text. -/
def nest (frames : List Frame) : List Line → Option (List Frame)
  | [] => some frames
  | line :: text =>
    match directive line with
    | none => nest frames text
    | some d => (advance frames d).bind fun frames' => nest frames' text

def WellNested (text : List Line) : Prop := nest [] text = some []

def Test.value (env : Line → Bool) : Test → Bool
  | .zero => false
  | .one => true
  | .ifdef name => env name
  | .ifndef name => !env name

def Frame.taken (env : Line → Bool) (f : Frame) : Bool := if f.elsed then !f.test.value env else f.test.value env

/-- The lines that the compiler sees, inside the given conditionals.  The symbols are fixed for the whole text: `#define`
and `#undef` are lines like any other, and change nothing.  A directive that is bad, such as one with a comment behind its
condition, ends the text. -/
def selected (env : Line → Bool) (frames : List Frame) : List Line → List Line
  | [] => []
  | line :: text =>
    match directive line with
    | none =>
      if frames.all (Frame.taken env) then line :: selected env frames text else selected env frames text
    | some d =>
      match advance frames d with
      | none => []
      | some frames' => selected env frames' text

/-- The lines that the compiler sees. -/
def compile (env : Line → Bool) (text : List Line) : List Line := selected env [] text

/-- A line that `GenVersions` leaves out. -/
def definesUse (line : Line) : Bool := startsWith (trim line) hashDefineUse

/-- What `GenVersions` has on its stack for an open conditional. -/
def Frame.condition (f : Frame) : Condition :=
  match f.test with
  | .zero => ⟨none, f.elsed⟩
  | .one => ⟨none, !f.elsed⟩
  | .ifdef name => ⟨some name, !f.elsed⟩
  | .ifndef name => ⟨some name, f.elsed⟩

/-- What `advance` grants of each open conditional. -/
def Frame.Regular (f : Frame) : Prop := f.test.allowed = true ∧ (f.elsed = true → f.test.mayElse = true)

/-- The conditionals that are open in the output: those of the symbols that stay, where the lines around them are
printed. -/
def kept (defines : Line → Bool) : List Frame → List Frame
  | [] => []
  | f :: rest =>
    if f.condition.stays && canPrint (rest.map Frame.condition) defines then f :: kept defines rest
    else kept defines rest

theorem Frame.condition_elsed (f : Frame) (h : f.elsed = false) :
    Frame.condition { f with elsed := true } = ⟨f.condition.name, !f.condition.set⟩ := by
  obtain ⟨t, e⟩ := f
  cases t <;> simp_all [Frame.condition]

section Frames

variable {defines env env' : Line → Bool}

theorem Frame.Regular.passes (hD : ∀ s, defines s = true → usesSymbol s = true) {f : Frame} (h : f.Regular)
    (hs : f.condition.stays = true) : f.condition.passes defines = true := by
  obtain ⟨t, e⟩ := f
  obtain ⟨hallowed, hels⟩ := h
  cases t with
  | zero => simp [Frame.condition, Condition.stays] at hs
  | one => simp [Frame.condition, Condition.stays] at hs
  | ifdef name =>
    have huse : usesSymbol name = false := by simpa [Frame.condition, Condition.stays] using hs
    have hland : name = userland := by simpa [Test.allowed, isGuard, huse] using hallowed
    simp [Frame.condition, Condition.passes, hland]
  | ifndef name =>
    have huse : usesSymbol name = false := by simpa [Frame.condition, Condition.stays] using hs
    have hundef : defines name = false := by
      by_contra hc
      have := hD name (by simpa using hc)
      simp [huse] at this
    by_cases hland : name = userland
    · simp [Frame.condition, Condition.passes, hland]
    · -- an include guard: no `#else` has been passed
      have he : e = false := by
        by_contra hc
        have := hels (by simpa using hc)
        simp [Test.mayElse, isGuard, huse, hland] at this
      simp [Frame.condition, Condition.passes, hland, hundef, he]

theorem taken_of_not_stays (henv : ∀ s, usesSymbol s = true → env s = defines s) {f : Frame}
    (hs : f.condition.stays = false) : f.taken env = f.condition.passes defines := by
  have huserland : usesSymbol userland = false := by decide
  obtain ⟨t, e⟩ := f
  cases t with
  | zero => cases e <;> rfl
  | one => cases e <;> rfl
  | ifdef name =>
    have huse : usesSymbol name = true := by simpa [Frame.condition, Condition.stays] using hs
    have hland : name ≠ userland := by
      intro hc
      rw [hc, huserland] at huse
      cases huse
    cases e <;> cases hd : defines name <;>
      simp [Frame.taken, Test.value, Frame.condition, Condition.passes, hland, henv name huse, hd]
  | ifndef name =>
    have huse : usesSymbol name = true := by simpa [Frame.condition, Condition.stays] using hs
    have hland : name ≠ userland := by
      intro hc
      rw [hc, huserland] at huse
      cases huse
    cases e <;> cases hd : defines name <;>
      simp [Frame.taken, Test.value, Frame.condition, Condition.passes, hland, henv name huse, hd]

theorem taken_of_stays (henv : ∀ s, usesSymbol s = false → env' s = env s) {f : Frame}
    (hs : f.condition.stays = true) : f.taken env' = f.taken env := by
  obtain ⟨t, e⟩ := f
  cases t with
  | zero => rfl
  | one => rfl
  | ifdef name =>
    have huse : usesSymbol name = false := by simpa [Frame.condition, Condition.stays] using hs
    simp [Frame.taken, Test.value, henv name huse]
  | ifndef name =>
    have huse : usesSymbol name = false := by simpa [Frame.condition, Condition.stays] using hs
    simp [Frame.taken, Test.value, henv name huse]

theorem canPrint_cons (c : Condition) (stack : List Condition) :
    canPrint (c :: stack) defines = (c.passes defines && canPrint stack defines) := rfl

/-- The input is compiled where the lines are printed and the conditionals left in the output select them. -/
theorem all_taken (hD : ∀ s, defines s = true → usesSymbol s = true)
    (henv : ∀ s, usesSymbol s = true → env s = defines s) (henv' : ∀ s, usesSymbol s = false → env' s = env s)
    {frames : List Frame} (hr : ∀ f ∈ frames, f.Regular) :
    frames.all (Frame.taken env) =
      (canPrint (frames.map Frame.condition) defines && (kept defines frames).all (Frame.taken env')) := by
  induction frames with
  | nil => rfl
  | cons f rest ih =>
    rw [List.all_cons, ih fun g hg => hr g (List.mem_cons_of_mem f hg), List.map_cons, canPrint_cons]
    cases hs : f.condition.stays with
    | false =>
      rw [taken_of_not_stays henv hs]
      simp [kept, hs, Bool.and_assoc]
    | true =>
      rw [(hr f List.mem_cons_self).passes hD hs, ← taken_of_stays henv' hs]
      cases hc : canPrint (rest.map Frame.condition) defines <;> simp [kept, hs, hc]

end Frames

section Lines

variable {defines : Line → Bool} {line : Line} {st : Stream}

/-- A line that is no conditional directive. -/
theorem processLine_plain (h : directive line = none) :
    processLine defines st line =
      some (if definesUse line = false ∧ canPrint st.stack defines = true then
        { st with
          printed := st.printed ++ [line]
          hasContent := st.hasContent ||
            (decide (0 < (trim line).length) && !startsWith (trim line) hashInclude) }
      else st) := by
  unfold directive at h
  simp only at h
  split_ifs at h
  cases hu : definesUse line with
  | true =>
    rw [definesUse] at hu
    simp [processLine, *]
  | false =>
    rw [definesUse] at hu
    cases hc : canPrint st.stack defines <;> simp [processLine, *]

theorem processLine_opens {t : Test} (h : directive line = some (.opens t)) :
    processLine defines st line =
      some ((st.printIf ((Frame.condition ⟨t, false⟩).stays && canPrint st.stack defines) line).push
        (Frame.condition ⟨t, false⟩)) := by
  unfold directive at h
  simp only at h
  split_ifs at h <;> cases h
  · simp [processLine, *, Frame.condition, Condition.stays, Stream.printIf]
  · simp [processLine, *, Frame.condition, Condition.stays, Stream.printIf]
  · simp [processLine, *, Frame.condition]
  · simp [processLine, *, Frame.condition]

theorem processLine_els {c : Condition} {rest : List Condition} (h : directive line = some .els)
    (hst : st.stack = c :: rest) :
    processLine defines st line =
      some (Stream.printIf { st with stack := ⟨c.name, !c.set⟩ :: rest }
        (c.stays && canPrint (⟨c.name, !c.set⟩ :: rest) defines) line) := by
  unfold directive at h
  simp only at h
  split_ifs at h <;> cases h
  simp [processLine, *]

theorem processLine_endif {c : Condition} {rest : List Condition} (h : directive line = some .endif)
    (hst : st.stack = c :: rest) :
    processLine defines st line =
      some (Stream.printIf { st with stack := rest } (c.stays && canPrint rest defines) line) := by
  unfold directive at h
  simp only at h
  split_ifs at h <;> cases h
  simp [processLine, *]

theorem advance_regular {frames frames' : List Frame} {d : Directive} (h : advance frames d = some frames')
    (hr : ∀ f ∈ frames, f.Regular) : ∀ f ∈ frames', f.Regular := by
  intro g hg
  cases d with
  | opens t =>
    rw [advance] at h
    split_ifs at h with ht
    cases h
    rcases List.mem_cons.1 hg with rfl | hg
    · exact ⟨ht, fun he => by cases he⟩
    · exact hr g hg
  | els =>
    cases frames with
    | nil => cases h
    | cons f rest =>
      rw [advance] at h
      split_ifs at h with hf
      cases h
      rcases List.mem_cons.1 hg with rfl | hg
      · exact ⟨(hr f List.mem_cons_self).1, fun _ => hf.2⟩
      · exact hr g (List.mem_cons_of_mem f hg)
  | endif =>
    cases frames with
    | nil => cases h
    | cons f rest =>
      cases h
      exact hr g (List.mem_cons_of_mem f hg)
  | bad => cases h

/-- A conditional directive: where it is printed, the conditionals of the output follow it. -/
theorem processLine_directive (hD : ∀ s, defines s = true → usesSymbol s = true) {frames frames' : List Frame}
    {d : Directive} (hd : directive line = some d) (hadv : advance frames d = some frames')
    (hr : ∀ f ∈ frames, f.Regular) (hst : st.stack = frames.map Frame.condition) :
    ∃ b : Bool, processLine defines st line =
        some (Stream.printIf { st with stack := frames'.map Frame.condition } b line) ∧
      if b then advance (kept defines frames) d = some (kept defines frames')
      else kept defines frames' = kept defines frames := by
  have hr' := advance_regular hadv hr
  cases d with
  | opens t =>
    rw [advance] at hadv
    split_ifs at hadv with ht
    cases hadv
    use (Frame.condition ⟨t, false⟩).stays && canPrint st.stack defines
    rw [processLine_opens hd, hst]
    constructor
    · simp only [Stream.printIf, Stream.push]
      split_ifs <;> simp [hst]
    · cases hb : (Frame.condition ⟨t, false⟩).stays && canPrint (frames.map Frame.condition) defines <;>
        simp [advance, kept, hb, ht]
  | els =>
    cases frames with
    | nil => cases hadv
    | cons f rest =>
      rw [advance] at hadv
      split_ifs at hadv with hf
      cases hadv
      have hc : Frame.condition { f with elsed := true } = ⟨f.condition.name, !f.condition.set⟩ :=
        f.condition_elsed hf.1
      have hs : (Frame.condition { f with elsed := true }).stays = f.condition.stays := by
        rw [hc]
        rfl
      -- the conditional itself does not keep its `#else` from being printed
      have hp : (f.condition.stays &&
            canPrint (Frame.condition { f with elsed := true } :: rest.map Frame.condition) defines) =
          (f.condition.stays && canPrint (rest.map Frame.condition) defines) := by
        cases hfs : f.condition.stays with
        | false => rfl
        | true =>
          rw [canPrint_cons, (hr' _ List.mem_cons_self).passes hD (hs.trans hfs), Bool.true_and]
      use f.condition.stays && canPrint (rest.map Frame.condition) defines
      rw [processLine_els hd hst, ← hc, hp]
      constructor
      · rfl
      · cases hb : f.condition.stays && canPrint (rest.map Frame.condition) defines <;>
          simp [advance, kept, hb, hs, hf]
  | endif =>
    cases frames with
    | nil => cases hadv
    | cons f rest =>
      have hrest : rest = frames' := Option.some.inj hadv
      rw [← hrest]
      use f.condition.stays && canPrint (rest.map Frame.condition) defines
      rw [processLine_endif hd hst]
      constructor
      · rfl
      · cases hb : f.condition.stays && canPrint (rest.map Frame.condition) defines <;>
          simp [advance, kept, hb]
  | bad => cases hadv

end Lines

/-- From any open conditionals: the lines printed nest and compile inside those the output has open. -/
theorem foldlM_preserves {defines : Line → Bool} (hD : ∀ s, defines s = true → usesSymbol s = true)
    (text : List Line) : ∀ (frames : List Frame) (st : Stream), nest frames text = some [] →
      (∀ f ∈ frames, f.Regular) → st.stack = frames.map Frame.condition →
      ∃ (st' : Stream) (out : List Line), text.foldlM (processLine defines) st = some st' ∧
        st'.printed = st.printed ++ out ∧ nest (kept defines frames) out = some [] ∧
        ∀ env env' : Line → Bool, (∀ s, usesSymbol s = true → env s = defines s) →
          (∀ s, usesSymbol s = false → env' s = env s) →
          selected env' (kept defines frames) out =
            (selected env frames text).filter fun line => !definesUse line := by
  induction text with
  | nil =>
    intro frames st hnest hr hst
    have hframes : frames = [] := by simpa [nest] using hnest
    subst hframes
    refine ⟨st, [], rfl, by simp, rfl, ?_⟩
    intro env env' _ _
    rfl
  | cons line text ih =>
    intro frames st hnest hr hst
    cases hd : directive line with
    | none =>
      simp only [nest, hd] at hnest
      simp only [List.foldlM_cons, processLine_plain hd]
      by_cases hp : definesUse line = false ∧ canPrint st.stack defines = true
      · rw [if_pos hp]
        obtain ⟨st', out, hrun, hout, hn, hsel⟩ := ih frames
          { st with
            printed := st.printed ++ [line]
            hasContent := st.hasContent ||
              (decide (0 < (trim line).length) && !startsWith (trim line) hashInclude) } hnest hr hst
        refine ⟨st', line :: out, hrun, by simp [hout], by simpa [nest, hd] using hn, ?_⟩
        intro env env' henv henv'
        have hall := all_taken hD henv henv' hr
        rw [← hst, hp.2, Bool.true_and] at hall
        simp only [selected, hd, hall]
        split_ifs with hk
        · rw [List.filter_cons_of_pos (by simp [hp.1]), hsel env env' henv henv']
        · exact hsel env env' henv henv'
      · rw [if_neg hp]
        obtain ⟨st', out, hrun, hout, hn, hsel⟩ := ih frames st hnest hr hst
        refine ⟨st', out, hrun, hout, hn, ?_⟩
        intro env env' henv henv'
        have hall := all_taken hD henv henv' hr
        rw [hsel env env' henv henv']
        simp only [selected, hd]
        split_ifs with hk
        · -- a line that is compiled and not printed is a `#define USE_` line
          have hu : definesUse line = true := by
            by_contra hc
            rw [hall, ← hst, Bool.and_eq_true] at hk
            exact hp ⟨by simpa using hc, hk.1⟩
          rw [List.filter_cons_of_neg (by simp [hu])]
        · rfl
    | some d =>
      simp only [nest, hd] at hnest
      obtain ⟨frames', hadv, hnest'⟩ := Option.bind_eq_some_iff.1 hnest
      obtain ⟨b, hline, hb⟩ := processLine_directive hD hd hadv hr hst
      have hst' : (Stream.printIf { st with stack := frames'.map Frame.condition } b line).stack =
          frames'.map Frame.condition := by
        cases b <;> rfl
      obtain ⟨st', out, hrun, hout, hn, hsel⟩ := ih frames' _ hnest' (advance_regular hadv hr) hst'
      simp only [List.foldlM_cons, hline]
      cases b with
      | false =>
        have hkept : kept defines frames' = kept defines frames := hb
        rw [hkept] at hn hsel
        refine ⟨st', out, hrun, hout, hn, ?_⟩
        intro env env' henv henv'
        rw [hsel env env' henv henv']
        simp only [selected, hd, hadv]
      | true =>
        have hkept : advance (kept defines frames) d = some (kept defines frames') := hb
        refine ⟨st', line :: out, hrun, ?_, ?_, ?_⟩
        · rw [hout]
          simp [Stream.printIf]
        · simpa [nest, hd, hkept] using hn
        · intro env env' henv henv'
          simp only [selected, hd, hkept, hadv]
          exact hsel env env' henv henv'

/-- `processStream` takes every well-nested text to a well-nested one, and the compiler selects the same lines from it
but for the definitions of `USE_` symbols: `env` has the given ones defined, and the output does not ask for them. -/
theorem processStream_preserves (defines : Line → Bool) (hD : ∀ s, defines s = true → usesSymbol s = true)
    (text : List Line) (hw : WellNested text) :
    ∃ out content, processStream defines text = some (out, content) ∧ WellNested out ∧
      ∀ env env' : Line → Bool, (∀ s, usesSymbol s = true → env s = defines s) →
        (∀ s, usesSymbol s = false → env' s = env s) →
        compile env' out = (compile env text).filter fun line => !definesUse line := by
  obtain ⟨st', out, hrun, hout, hn, hsel⟩ := foldlM_preserves hD text [] ⟨[], [], false⟩ hw
    (fun f hf => absurd hf List.not_mem_nil) rfl
  refine ⟨out, st'.hasContent, ?_, hn, hsel⟩
  have hprinted : st'.printed = out := by simpa using hout
  simp [processStream, hrun, hprinted]

/-- `#ifdef USE_A`, `#ifdef USERLAND`, `x`, `#endif`, `#else`, `y`, `#endif` with `USE_A` defined. -/
theorem processStream_preserves_nested :
    let useA : Line := ['U', 'S', 'E', '_', 'A']
    let text : List Line :=
      [hashIfdef ++ useA, hashIfdef ++ userland, ['x'], hashEndif, hashElse, ['y'], hashEndif]
    WellNested text ∧
      ∃ out content, processStream (fun s => decide (s = useA)) text = some (out, content) ∧ WellNested out ∧
        ∀ env env' : Line → Bool, (∀ s, usesSymbol s = true → env s = decide (s = useA)) →
          (∀ s, usesSymbol s = false → env' s = env s) →
          compile env' out = (compile env text).filter fun line => !definesUse line := by
  intro useA text
  have hw : WellNested text := by
    show nest [] text = some []
    decide +kernel
  refine ⟨hw, processStream_preserves _ ?_ text hw⟩
  intro s hs
  rw [of_decide_eq_true hs]
  decide

end AdelaideOS.Versions
