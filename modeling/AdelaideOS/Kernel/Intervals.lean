import AdelaideOS.Kernel.UserMemory

/-!
# The checks of pointers, for all ranges

`valid_pointer` and `valid_string` compute with 32-bit words.  Here they are compared with intervals of numbers, for
arbitrary ranges and arbitrary memory.

* **`validPointer_interval`** — `valid_pointer` is exact;
* **`exact_iff`** — so is `valid_string`, except where the length of the string wraps around.
-/

namespace AdelaideOS.Kernel

open AdelaideOS.Lib.Bytes

/-- One of the three ranges contains `[a, a + n)`. -/
def Space.Holds (s : Space) (a n : ℕ) : Prop :=
  (s.textStart ≤ a ∧ a + n ≤ s.textEnd) ∨ (s.dataStart ≤ a ∧ a + n ≤ s.dataEnd) ∨
    (s.stackStart ≤ a ∧ a + n ≤ s.stackEnd)

instance (s : Space) (a n : ℕ) : Decidable (s.Holds a n) := inferInstanceAs (Decidable (_ ∨ _))

/-- The bounds are words. -/
structure Space.Words (s : Space) : Prop where
  text : s.textEnd < wordSize
  data : s.dataEnd < wordSize
  stack : s.stackEnd < wordSize

/-- The loop of `valid_string`, over memory that is mapped everywhere; the answer comes with the addresses that were
read. -/
def scanString (s : Space) (M : Memory) (str : ℕ) : ℕ → ℕ → Except Fault (Bool × List ℕ)
  | 0, _ => .error .diverges
  | fuel + 1, len =>
    if validPointer s str ((len + 1) % wordSize) then
      if M (offset str len) = 0 then .ok (true, [offset str len])
      else do
        let (b, log) ← scanString s M str fuel ((len + 1) % wordSize)
        return (b, offset str len :: log)
    else .ok (false, [])

/-- The byte at `x` belongs to a block at `str` that `valid_pointer` accepts. -/
def AcceptedByte (s : Space) (str x : ℕ) : Prop :=
  ∃ n < wordSize, validPointer s str n = true ∧ str ≤ x ∧ x < str + n

/-- What is expected of the scan: it ends, reads accepted bytes only, and finds out whether there is a string. -/
structure ScanExact (s : Space) (M : Memory) (str : ℕ) (b : Bool) (log : List ℕ) : Prop where
  ends : ∃ N, ∀ fuel ≥ N, scanString s M str fuel 0 = .ok (b, log)
  reads : ∀ x ∈ log, AcceptedByte s str x
  answer : b = true ↔ ∃ n, s.Holds str (n + 1) ∧ M (str + n) = 0

structure Exact (s : Space) (M : Memory) (str : ℕ) : Prop where
  pointer : ∀ size < wordSize, validPointer s str size = true ↔ size = 0 ∨ s.Holds str size
  string : ∃ b log, ScanExact s M str b log

/-- The string begins at 0 and fills a range that contains all addresses but the last. -/
structure Endless (s : Space) (M : Memory) (str : ℕ) : Prop where
  start : str = 0
  range : s.Holds 0 (wordSize - 1)
  full : ∀ i < wordSize - 1, M i ≠ 0

variable {s : Space} {M : Memory} {str size n len fuel : ℕ} {b : Bool} {log : List ℕ}

theorem Space.Holds.mono {n' : ℕ} (h : s.Holds str n) (hle : n' ≤ n) : s.Holds str n' := by
  unfold Space.Holds at *
  omega

theorem Space.Holds.lt (h : s.Holds str n) (hs : s.Words) : str + n < wordSize := by
  have h1 := hs.text
  have h2 := hs.data
  have h3 := hs.stack
  unfold Space.Holds at h
  omega

/-- **`valid_pointer` is exact**, for all ranges. -/
theorem validPointer_interval (hs : s.Words) (hstr : str < wordSize) (hsize : size < wordSize) :
    validPointer s str size = true ↔ size = 0 ∨ s.Holds str size := by
  have h1 := hs.text
  have h2 := hs.data
  have h3 := hs.stack
  unfold validPointer Space.Holds
  simp only [wordSize] at *
  by_cases hwrap : str + size < 4294967296
  · rw [Nat.mod_eq_of_lt hwrap]
    split_ifs <;> simp <;> omega
  · rw [show (str + size) % 4294967296 = str + size - 4294967296 by omega]
    split_ifs <;> simp <;> omega

/-! ### The scan -/

/-- The scan from `len` on, when no NUL has been found before. -/
theorem scanString_from (hs : s.Words) (hstr : str < wordSize) (hgood : ¬ Endless s M str) (hlen : len < wordSize)
    (hheld : len = 0 ∨ s.Holds str len) (hfull : ∀ i < len, M (str + i) ≠ 0) :
    ∃ b log, (∀ fuel, wordSize - len ≤ fuel → scanString s M str fuel len = .ok (b, log)) ∧
      (∀ x ∈ log, AcceptedByte s str x) ∧ (b = true ↔ ∃ n, s.Holds str (n + 1) ∧ M (str + n) = 0) := by
  induction hk : wordSize - len generalizing len with
  | zero => omega
  | succ k ih =>
    -- the length does not wrap around
    have hnext : len + 1 < wordSize := by
      by_contra hno
      have heq : len = wordSize - 1 := by omega
      have hrange : s.Holds str (wordSize - 1) := heq ▸ hheld.resolve_left (by rw [heq]; decide)
      have hzero : str = 0 := by
        have := hrange.lt hs
        omega
      subst hzero
      refine hgood ⟨rfl, hrange, fun i hi => ?_⟩
      have := hfull i (by omega)
      rwa [Nat.zero_add] at this
    have hmod : (len + 1) % wordSize = len + 1 := Nat.mod_eq_of_lt hnext
    have hvalid := validPointer_interval hs hstr hnext
    have hstep : ∀ fuel, k + 1 ≤ fuel → ∃ f, fuel = f + 1 ∧ k ≤ f := fun fuel hf => ⟨fuel - 1, by omega, by omega⟩
    by_cases hv : s.Holds str (len + 1)
    · have hok : validPointer s str (len + 1) = true := hvalid.mpr (.inr hv)
      have haddr : offset str len = str + len := offset_of_lt (by have := hv.lt hs; omega)
      have hacc : AcceptedByte s str (str + len) := ⟨len + 1, hnext, hok, by omega, by omega⟩
      by_cases hz : M (str + len) = 0
      · refine ⟨true, [str + len], fun fuel hf => ?_, by simpa using hacc, by simpa using ⟨len, hv, hz⟩⟩
        obtain ⟨f, rfl, -⟩ := hstep fuel hf
        unfold scanString
        rw [hmod, if_pos hok, haddr, if_pos hz]
      · obtain ⟨b, log, hrun, hreads, hans⟩ := ih hnext (.inr hv) (by
          intro i hi
          rcases Nat.lt_succ_iff_lt_or_eq.mp hi with hi | rfl
          · exact hfull i hi
          · exact hz) (by omega)
        refine ⟨b, (str + len) :: log, fun fuel hf => ?_, ?_, hans⟩
        · obtain ⟨f, rfl, hle⟩ := hstep fuel hf
          unfold scanString
          rw [hmod, if_pos hok, haddr, if_neg hz, hrun f (by omega)]
          rfl
        · intro x hx
          rcases List.mem_cons.mp hx with rfl | hx
          · exact hacc
          · exact hreads x hx
    · have hno : ¬ validPointer s str (len + 1) = true := fun hc => hv ((hvalid.mp hc).resolve_left (by omega))
      refine ⟨false, [], fun fuel hf => ?_, by simp, ?_⟩
      · obtain ⟨f, rfl, -⟩ := hstep fuel hf
        unfold scanString
        rw [hmod, if_neg hno]
      · -- a string that ends behind `len` would make the block longer
        refine iff_of_false (by simp) ?_
        rintro ⟨n, hn, hz⟩
        by_cases hnl : n < len
        · exact hfull n hnl hz
        · exact hv (hn.mono (by omega))

/-- An endless string is never refused. -/
theorem Endless.scan (h : Endless s M str) (hs : s.Words) (hlen : len < wordSize)
    (hok : scanString s M str fuel len = .ok (b, log)) : b = true := by
  induction fuel generalizing len b log with
  | zero => cases hok
  | succ fuel ih =>
    have hnext : (len + 1) % wordSize < wordSize := Nat.mod_lt _ (by decide)
    have hvalid : validPointer s str ((len + 1) % wordSize) = true := by
      rw [h.start, validPointer_interval hs (by decide) hnext]
      exact .inr (h.range.mono (by omega))
    unfold scanString at hok
    rw [if_pos hvalid] at hok
    split at hok
    · exact (Prod.mk.inj (Except.ok.inj hok)).1.symm
    · obtain ⟨⟨b', log'⟩, hrest, hpure⟩ := bind_eq_ok.mp hok
      obtain ⟨rfl, -⟩ := Prod.mk.inj (Except.ok.inj hpure)
      exact ih hnext hrest

theorem Endless.not_exact (h : Endless s M str) (hs : s.Words) : ¬ ScanExact s M str b log := by
  rintro ⟨⟨N, hrun⟩, -, hans⟩
  obtain ⟨n, hn, hz⟩ := hans.mp (h.scan hs (by decide) (hrun N le_rfl))
  have hstr := h.start
  subst hstr
  have hlt := hn.lt hs
  rw [Nat.zero_add] at hz
  exact h.full n (by omega) hz

/-- **The checks are exact** unless a string fills all addresses but the last. -/
theorem exact_iff (hs : s.Words) (hstr : str < wordSize) : Exact s M str ↔ ¬ Endless s M str := by
  constructor
  · rintro ⟨-, b, log, hexact⟩ hend
    exact hend.not_exact hs hexact
  · intro hgood
    refine ⟨fun size hsize => validPointer_interval hs hstr hsize, ?_⟩
    obtain ⟨b, log, hrun, hreads, hans⟩ := scanString_from hs hstr hgood (show 0 < wordSize by decide) (.inl rfl)
      (fun i hi => absurd hi (Nat.not_lt_zero i))
    exact ⟨b, log, ⟨_, fun fuel hf => hrun fuel hf⟩, hreads, hans⟩

/-- A text range of one page, filled with a string that does not end. -/
theorem exact_page :
    Exact ⟨0, 4096, 8192, 0, 0, 0, 0⟩ (fun _ => 1) 4096 := by
  refine (exact_iff ⟨by decide, by decide, by decide⟩ (by decide)).mpr fun h => ?_
  exact absurd h.start (by decide)

/-- A text range with all addresses but the last, and no NUL in memory. -/
theorem scan_endless : ¬ Exact ⟨0, 0, 4294967295, 0, 0, 0, 0⟩ (fun _ => 1) 0 := by
  rintro ⟨-, b, log, hexact⟩
  have hend : Endless ⟨0, 0, 4294967295, 0, 0, 0, 0⟩ (fun _ => 1) 0 :=
    ⟨rfl, .inl ⟨le_rfl, by decide⟩, fun _ _ => by decide⟩
  exact hend.not_exact ⟨by decide, by decide, by decide⟩ hexact

/-! ### The checks of a process -/

variable {k k' : State} {p a : ℕ}

theorem Sound.words (h : Sound k p) : (k.space p).Words := by
  have h1 := h.text_lt
  have h2 := h.data
  have h3 := h.data_lt
  have h4 := h.stack
  have h5 := h.stack_le
  constructor <;> simp only [wordSize, PROCESS_STACK_BASE] at * <;> omega

theorem Sound.stringAt (h : Sound k p) (ha : a < wordSize) :
    StringAt k p a ↔ ∃ n, (k.space p).Holds a (n + 1) ∧ userByte k p (a + n) = 0 := by
  have hblock : ∀ n, (k.space p).Region a (n + 1) ↔ (k.space p).Holds a (n + 1) := by
    intro n
    by_cases hlt : n + 1 < wordSize
    · rw [← h.validPointer_iff ha hlt, validPointer_interval h.words ha hlt]
      simp
    · refine iff_of_false (fun hr => ?_) fun hh => ?_
      · have := h.region_le ha hr
        simp only [wordSize, PROCESS_STACK_BASE] at *
        omega
      · have := hh.lt h.words
        omega
  constructor
  · rintro ⟨n, hn, hz⟩
    have hh := (hblock n).mp hn
    refine ⟨n, hh, ?_⟩
    rw [offset_of_lt (by have := hh.lt h.words; omega)] at hz
    exact hz
  · rintro ⟨n, hh, hz⟩
    refine ⟨n, (hblock n).mpr hh, ?_⟩
    rw [offset_of_lt (by have := hh.lt h.words; omega)]
    exact hz

/-- **`valid_string` of a process** is the scan of its memory. -/
theorem validString_scans {b : Bool} (h : Sound k p) (ha : a < wordSize) (hok : validString p a k = .ok b k') :
    ∃ log, ScanExact (k.space p) (userByte k p) a b log := by
  have hgood : ¬ Endless (k.space p) (userByte k p) a := by
    intro hend
    have hr := hend.range.lt h.words
    have h1 := h.text_lt
    have h2 := h.data
    have h3 := h.data_lt
    have h4 := h.stack
    have h5 := h.stack_le
    have hrange := hend.range
    unfold Space.Holds at hrange
    simp only [wordSize, PROCESS_STACK_BASE] at *
    omega
  obtain ⟨b', log, hexact⟩ := ((exact_iff h.words ha).mpr hgood).string
  obtain ⟨b₁, k₁, hok₁, -, hb₁⟩ := validString_ok h ha
  obtain ⟨rfl, -⟩ := EStateM.Result.ok.inj (hok₁.symm.trans hok)
  have hsame : b₁ = b' := by
    rw [Bool.eq_iff_iff, hb₁, h.stringAt ha, hexact.answer]
  rw [hsame]
  exact ⟨log, hexact⟩

end AdelaideOS.Kernel
