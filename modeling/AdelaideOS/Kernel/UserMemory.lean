import AdelaideOS.Kernel.Isolation

/-!
# Reading the memory of the caller

What `valid_pointer`, `valid_string` and the loop over `argv` find out, in terms of the caller's memory: a
region of bytes, a string, an array of strings that lie in the ranges.  `Sound k p` says that the ranges of
process `p` are in order and that exactly their addresses lead to memory that is not the kernel's.

* **`Sound.validPointer_iff`**, **`validString_ok`**, **`validArgv_ok`** — the three checks;
* **`userString_ok`**, **`argStrings_ok`** — reading again what was checked stays inside the ranges.

A computation that only reads leaves the state as it was, except for the log: `Logged s k k'`.
-/

namespace AdelaideOS.Kernel

open AdelaideOS.Lib.Bytes AdelaideOS.Lib.Triple AdelaideOS.Page AdelaideOS.Process

/-- `n` bytes from `a` on lie in the ranges. -/
def Space.Region (s : Space) (a n : ℕ) : Prop := ∀ i < n, s.InRange (offset a i)

structure Sound (k : State) (p : ℕ) : Prop where
  text : (k.space p).textStart ≤ (k.space p).textEnd
  text_lt : (k.space p).textEnd < (k.space p).dataStart
  data : (k.space p).dataStart ≤ (k.space p).dataEnd
  data_lt : (k.space p).dataEnd < (k.space p).stackStart
  stack : (k.space p).stackStart ≤ (k.space p).stackEnd
  stack_le : (k.space p).stackEnd ≤ PROCESS_STACK_BASE
  mapped : ∀ a < wordSize, (k.space p).InRange a ↔ ∃ x, physical k p a = .ok x

/-- The byte at an address of process `p`. -/
def userByte (k : State) (p a : ℕ) : UInt8 :=
  match physical k p a with
  | .ok x => k.pages.mem x
  | .error _ => 0

/-- The word at an address of process `p`. -/
def userWord (k : State) (p a : ℕ) : ℕ := wordOf ((List.range 4).map fun i => userByte k p (offset a i))

/-- A string that ends inside the ranges. -/
def StringAt (k : State) (p a : ℕ) : Prop :=
  ∃ n, (k.space p).Region a (n + 1) ∧ userByte k p (offset a n) = 0

/-- An array of strings that ends with `NULL` inside the ranges. -/
def ArgvAt (k : State) (p a : ℕ) : Prop :=
  ∃ n, (k.space p).Region a (4 * (n + 1)) ∧ userWord k p (offset a (4 * n)) = 0 ∧
    ∀ i < n, userWord k p (offset a (4 * i)) ≠ 0 ∧ StringAt k p (userWord k p (offset a (4 * i)))

/-- The state `k'` is `k` with more addresses of the ranges in the log. -/
def Logged (s : Space) (k k' : State) : Prop :=
  ∃ L, (∀ a ∈ L, s.InRange a) ∧ k' = { k with log := L ++ k.log }

variable {k k' k'' : State} {s : Space} {p a n i : ℕ}

theorem Logged.refl (s : Space) (k : State) : Logged s k k :=
  ⟨[], by simp, rfl⟩

theorem Logged.trans (h : Logged s k k') (h' : Logged s k' k'') : Logged s k k'' := by
  obtain ⟨L, hL, rfl⟩ := h
  obtain ⟨L', hL', rfl⟩ := h'
  refine ⟨L' ++ L, ?_, by rw [List.append_assoc]⟩
  intro a ha
  rcases List.mem_append.mp ha with ha | ha
  · exact hL' a ha
  · exact hL a ha

theorem Logged.sound (h : Logged s k k') (hs : Sound k p) : Sound k' p := by
  obtain ⟨L, -, rfl⟩ := h
  exact ⟨hs.text, hs.text_lt, hs.data, hs.data_lt, hs.stack, hs.stack_le, hs.mapped⟩

theorem Logged.space (h : Logged s k k') : k'.space = k.space := by
  obtain ⟨L, -, rfl⟩ := h
  rfl

theorem Logged.userByte (h : Logged s k k') : userByte k' = userByte k := by
  obtain ⟨L, -, rfl⟩ := h
  rfl

theorem Logged.stringAt (h : Logged s k k') : StringAt k' p a ↔ StringAt k p a := by
  rw [StringAt, StringAt, h.space, h.userByte]

theorem Logged.argvAt (h : Logged s k k') : ArgvAt k' p a ↔ ArgvAt k p a := by
  simp only [ArgvAt, h.space, userWord, h.userByte, h.stringAt]

/-! ### Regions -/

theorem offset_offset (a i j : ℕ) : offset (offset a i) j = offset a (i + j) := by
  simp only [offset, wordSize]
  omega

theorem offset_of_lt (h : a + i < wordSize) : offset a i = a + i := Nat.mod_eq_of_lt h

theorem Space.Region.mono {n' : ℕ} (h : s.Region a n) (hle : n' ≤ n) : s.Region a n' :=
  fun i hi => h i (by omega)

/-- A later part of a region. -/
theorem Space.Region.drop {j : ℕ} (h : s.Region a (j + n)) : s.Region (offset a j) n := by
  intro i hi
  rw [offset_offset]
  exact h _ (by omega)

/-- Addresses in range are below the stack base. -/
theorem Sound.lt (h : Sound k p) (hr : (k.space p).InRange a) : a < PROCESS_STACK_BASE := by
  have h1 := h.text_lt
  have h2 := h.data
  have h3 := h.data_lt
  have h4 := h.stack
  have h5 := h.stack_le
  unfold Space.InRange at hr
  omega

/-- A region does not wrap around. -/
theorem Sound.region_lt (h : Sound k p) (ha : a < wordSize) (hn : 0 < n)
    (hr : (k.space p).Region a n) : a + n ≤ PROCESS_STACK_BASE := by
  have h0 := h.lt (hr 0 hn)
  simp only [offset, wordSize, PROCESS_STACK_BASE] at *
  by_contra hgt
  have hend := h.lt (hr (1073741824 - a) (by omega))
  simp only [offset, wordSize, PROCESS_STACK_BASE] at hend
  omega

theorem Sound.region_le (h : Sound k p) (ha : a < wordSize) (hr : (k.space p).Region a n) :
    n ≤ PROCESS_STACK_BASE := by
  rcases Nat.eq_zero_or_pos n with rfl | hn
  · exact Nat.zero_le _
  · have := h.region_lt ha hn hr
    omega

/-- **`valid_pointer`** accepts exactly the regions. -/
theorem Sound.validPointer_iff (h : Sound k p) (ha : a < wordSize) (hn : n < wordSize) :
    validPointer (k.space p) a n = true ↔ (k.space p).Region a n := by
  constructor
  · intro hv i hi
    obtain ⟨hlt, hr⟩ := validPointer_inRange ha hn hv hi
    rw [offset_of_lt (by omega)]
    exact hr
  · intro hr
    rcases Nat.eq_zero_or_pos n with rfl | hpos
    · simp [validPointer]
    · have hle := h.region_lt ha hpos hr
      have hin : ∀ i < n, (k.space p).InRange (a + i) := by
        intro i hi
        rw [← offset_of_lt (a := a) (i := i) (by simp only [wordSize, PROCESS_STACK_BASE] at *; omega)]
        exact hr i hi
      have hend : (a + n) % wordSize = a + n :=
        Nat.mod_eq_of_lt (by simp only [wordSize, PROCESS_STACK_BASE] at *; omega)
      have h1 := h.text_lt
      have h2 := h.data
      have h3 := h.data_lt
      have h4 := h.stack
      -- a region that leaves the range it starts in hits the gap behind it
      have hstep : ∀ e, a < e → e < a + n → (k.space p).InRange e := by
        intro e hlo hhi
        have := hin (e - a) (by omega)
        rwa [Nat.add_sub_cancel' hlo.le] at this
      have h0 := hin 0 hpos
      have ht := hstep (k.space p).textEnd
      have hd := hstep (k.space p).dataEnd
      have hs := hstep (k.space p).stackEnd
      unfold Space.InRange at h0 ht hd hs
      unfold validPointer
      simp only [hend]
      rw [if_neg (by omega), if_neg (by omega)]
      split
      · rfl
      · split
        · rfl
        · rw [if_pos (by omega)]

/-! ### Bytes and words -/

theorem Sound.physical_ok (h : Sound k p) (hr : (k.space p).InRange a) : ∃ x, physical k p a = .ok x := by
  have hlt := h.lt hr
  refine (h.mapped a ?_).mp hr
  simp only [wordSize, PROCESS_STACK_BASE] at *
  omega

theorem loadMapped_ok (h : Sound k p) (hr : (k.space p).InRange a) :
    loadMapped p a k = .ok (userByte k p a) k := by
  obtain ⟨x, hx⟩ := h.physical_ok hr
  unfold loadMapped userByte
  rw [hx]

theorem readUser_ok (h : Sound k p) (hr : (k.space p).InRange a) :
    ∃ k', readUser p a k = .ok (userByte k p a) k' ∧ Logged (k.space p) k k' := by
  have hl : Logged (k.space p) k { k with log := [a] ++ k.log } := ⟨[a], by simpa using hr, rfl⟩
  exact ⟨_, loadMapped_ok (hl.sound h) hr, hl⟩

theorem readUserBytes_ok (h : Sound k p) {j : ℕ} (hr : ∀ i < n, (k.space p).InRange (offset a (j + i))) :
    ∃ k', readUserBytes p a n j k = .ok ((List.range n).map fun i => userByte k p (offset a (j + i))) k' ∧
      Logged (k.space p) k k' := by
  induction n generalizing k j with
  | zero => exact ⟨k, rfl, Logged.refl _ k⟩
  | succ n ih =>
    obtain ⟨k₁, hk₁, hl₁⟩ := readUser_ok h (hr 0 (by omega))
    rw [Nat.add_zero] at hk₁
    have hr₁ : ∀ i < n, (k₁.space p).InRange (offset a (j + 1 + i)) := by
      intro i hi
      rw [hl₁.space, Nat.add_right_comm, Nat.add_assoc]
      exact hr (i + 1) (by omega)
    obtain ⟨k₂, hk₂, hl₂⟩ := ih (hl₁.sound h) hr₁
    rw [hl₁.space] at hl₂
    refine ⟨k₂, ?_, hl₁.trans hl₂⟩
    unfold readUserBytes
    rw [run_bind hk₁, run_bind hk₂, hl₁.userByte, List.range_succ_eq_map, List.map_cons, List.map_map]
    have hmap : (fun i => userByte k p (offset a (j + 1 + i))) =
        (fun i => userByte k p (offset a (j + i))) ∘ Nat.succ := by
      funext i
      rw [Function.comp_apply, Nat.succ_eq_add_one, Nat.add_right_comm, Nat.add_assoc]
    rw [hmap]
    rfl

theorem readUserWord_ok (h : Sound k p) (hr : (k.space p).Region a 4) :
    ∃ k', readUserWord p a k = .ok (userWord k p a) k' ∧ Logged (k.space p) k k' := by
  have hr' : ∀ i < 4, (k.space p).InRange (offset a (0 + i)) := by
    intro i hi
    rw [Nat.zero_add]
    exact hr i hi
  obtain ⟨k', hk', hl⟩ := readUserBytes_ok h hr'
  refine ⟨k', ?_, hl⟩
  unfold readUserWord
  rw [run_bind hk']
  simp only [Nat.zero_add]
  rfl

theorem userWord_lt (k : State) (p a : ℕ) : userWord k p a < wordSize := by
  have hb : ∀ x : UInt8, x.toNat < 256 := fun x => x.toNat_lt
  have h0 := hb (userByte k p (offset a 0))
  have h1 := hb (userByte k p (offset a 1))
  have h2 := hb (userByte k p (offset a 2))
  have h3 := hb (userByte k p (offset a 3))
  have heq : userWord k p a = (userByte k p (offset a 0)).toNat + 256 * (userByte k p (offset a 1)).toNat +
      65536 * (userByte k p (offset a 2)).toNat + 16777216 * (userByte k p (offset a 3)).toNat := rfl
  rw [heq]
  simp only [wordSize]
  omega

/-! ### Strings -/

/-- The loop of `valid_string` from `len` on, when the string has not ended before. -/
theorem validStringLoop_ok (fuel len : ℕ) (h : Sound k p) (ha : a < wordSize) (hfuel : wordSize ≤ fuel + len)
    (hr : (k.space p).Region a len) (hne : ∀ i < len, userByte k p (offset a i) ≠ 0) :
    ∃ b k', validStringLoop p a fuel len k = .ok b k' ∧ Logged (k.space p) k k' ∧
      (b = true ↔ StringAt k p a) := by
  induction fuel generalizing k len with
  | zero =>
    have hle := h.region_le ha hr
    simp only [wordSize, PROCESS_STACK_BASE] at *
    omega
  | succ fuel ih =>
    have hle := h.region_le ha hr
    have hlen : (len + 1) % wordSize = len + 1 :=
      Nat.mod_eq_of_lt (by simp only [wordSize, PROCESS_STACK_BASE] at *; omega)
    have hlt : len + 1 < wordSize := by
      rw [← hlen]
      exact Nat.mod_lt _ (by decide)
    unfold validStringLoop
    rw [run_get, hlen]
    by_cases hv : (k.space p).Region a (len + 1)
    · rw [if_pos ((h.validPointer_iff ha hlt).mpr hv)]
      obtain ⟨k₁, hk₁, hl₁⟩ := readUser_ok h (hv len (by omega))
      rw [run_bind hk₁]
      by_cases hz : userByte k p (offset a len) = 0
      · rw [if_pos hz]
        exact ⟨true, k₁, rfl, hl₁, by simpa using ⟨len, hv, hz⟩⟩
      · rw [if_neg hz]
        obtain ⟨b, k₂, hk₂, hl₂, hb⟩ := ih (len + 1) (hl₁.sound h) (by omega) (by rw [hl₁.space]; exact hv) (by
          rw [hl₁.userByte]
          intro i hi
          rcases Nat.lt_succ_iff_lt_or_eq.mp hi with hi | rfl
          · exact hne i hi
          · exact hz)
        rw [hl₁.space] at hl₂
        exact ⟨b, k₂, hk₂, hl₁.trans hl₂, hb.trans hl₁.stringAt⟩
    · rw [if_neg fun hc => hv ((h.validPointer_iff ha hlt).mp hc)]
      refine ⟨false, k, rfl, Logged.refl _ k, ?_⟩
      constructor
      · intro hf
        cases hf
      · -- a string that ends behind `len` would make the region longer
        rintro ⟨n, hn, hz⟩
        exfalso
        by_cases hnl : n < len
        · exact hne n hnl hz
        · exact hv (hn.mono (by omega))

/-- **`valid_string`** accepts exactly the strings. -/
theorem validString_ok (h : Sound k p) (ha : a < wordSize) :
    ∃ b k', validString p a k = .ok b k' ∧ Logged (k.space p) k k' ∧ (b = true ↔ StringAt k p a) :=
  validStringLoop_ok wordSize 0 h ha (Nat.le_refl _) (fun i hi => absurd hi (Nat.not_lt_zero i))
    fun i hi => absurd hi (Nat.not_lt_zero i)

theorem userStringLoop_ok (fuel len : ℕ) (h : Sound k p) (ha : a < wordSize)
    (hfuel : wordSize ≤ fuel + len) (hn : (k.space p).Region a (n + 1)) (hle : len ≤ n)
    (hz : userByte k p (offset a n) = 0) :
    ∃ text k', userStringLoop p a fuel len k = .ok text k' ∧ Logged (k.space p) k k' := by
  induction fuel generalizing k len with
  | zero =>
    have hle' := h.region_le ha hn
    simp only [wordSize, PROCESS_STACK_BASE] at *
    omega
  | succ fuel ih =>
    obtain ⟨k₁, hk₁, hl₁⟩ := readUser_ok h (hn len (by omega))
    unfold userStringLoop
    rw [run_bind hk₁]
    by_cases hc : userByte k p (offset a len) = 0
    · rw [if_pos hc]
      exact ⟨[], k₁, rfl, hl₁⟩
    · rw [if_neg hc]
      have hne : len ≠ n := by
        intro he
        rw [he] at hc
        exact hc hz
      obtain ⟨text, k₂, hk₂, hl₂⟩ := ih (len + 1) (hl₁.sound h) (by omega)
        (by rw [hl₁.space]; exact hn) (by omega)
        (by rw [hl₁.userByte]; exact hz)
      rw [hl₁.space] at hl₂
      exact ⟨_, k₂, run_bind hk₂, hl₁.trans hl₂⟩

/-- Reading a string stays inside the ranges. -/
theorem userString_ok (h : Sound k p) (ha : a < wordSize) (hstr : StringAt k p a) :
    ∃ text k', userString p a k = .ok text k' ∧ Logged (k.space p) k k' := by
  obtain ⟨n, hn, hz⟩ := hstr
  exact userStringLoop_ok wordSize 0 h ha (Nat.le_refl _) hn (Nat.zero_le n) hz

/-! ### Arrays of strings -/

theorem checkArgv_ok (fuel argno : ℕ) (h : Sound k p) (ha : a < wordSize)
    (hfuel : wordSize ≤ fuel + argno) (hr : (k.space p).Region a (4 * argno))
    (hne : ∀ i < argno, userWord k p (offset a (4 * i)) ≠ 0 ∧
      StringAt k p (userWord k p (offset a (4 * i)))) :
    ∃ b k', checkArgv p a fuel argno k = .ok b k' ∧ Logged (k.space p) k k' ∧
      (b = true ↔ ArgvAt k p a) := by
  induction fuel generalizing k argno with
  | zero =>
    have hle := h.region_le ha hr
    simp only [wordSize, PROCESS_STACK_BASE] at *
    omega
  | succ fuel ih =>
    have hle := h.region_le ha hr
    have hlen : (argno + 1) * 4 % wordSize = 4 * (argno + 1) := by
      rw [Nat.mul_comm]
      exact Nat.mod_eq_of_lt (by simp only [wordSize, PROCESS_STACK_BASE] at *; omega)
    have hlt : 4 * (argno + 1) < wordSize := by
      rw [← hlen]
      exact Nat.mod_lt _ (by decide)
    -- an array that ends elsewhere would end before `argno` or go on behind it
    have hlater : ∀ n, (k.space p).Region a (4 * (n + 1)) → userWord k p (offset a (4 * n)) = 0 →
        (∀ i < n, userWord k p (offset a (4 * i)) ≠ 0 ∧ StringAt k p (userWord k p (offset a (4 * i)))) →
        argno ≤ n := by
      intro n _ hz _
      by_contra hlt
      exact (hne n (by omega)).1 hz
    unfold checkArgv
    rw [run_get, hlen]
    by_cases hv : (k.space p).Region a (4 * (argno + 1))
    · rw [if_pos ((h.validPointer_iff ha hlt).mpr hv)]
      obtain ⟨k₁, hk₁, hl₁⟩ := readUserWord_ok h (hv.drop (j := 4 * argno))
      rw [run_bind hk₁]
      by_cases hz : userWord k p (offset a (4 * argno)) = 0
      · rw [if_pos hz]
        exact ⟨true, k₁, rfl, hl₁, by simpa using ⟨argno, hv, hz, hne⟩⟩
      · rw [if_neg hz]
        obtain ⟨b, k₂, hk₂, hl₂, hb⟩ := validString_ok (hl₁.sound h) (userWord_lt k p (offset a (4 * argno)))
        rw [hl₁.space] at hl₂
        rw [hl₁.stringAt] at hb
        rw [run_bind hk₂]
        have hl := hl₁.trans hl₂
        by_cases hstr : StringAt k p (userWord k p (offset a (4 * argno)))
        · rw [if_pos (hb.mpr hstr)]
          obtain ⟨b', k₃, hk₃, hl₃, hb'⟩ := ih (argno + 1) (hl.sound h) (by omega)
            (by rw [hl.space]; exact hv) (by
              simp only [userWord, hl.userByte, hl.stringAt]
              intro i hi
              rcases Nat.lt_succ_iff_lt_or_eq.mp hi with hi | rfl
              · exact hne i hi
              · exact ⟨hz, hstr⟩)
          rw [hl.space] at hl₃
          exact ⟨b', k₃, hk₃, hl.trans hl₃, hb'.trans hl.argvAt⟩
        · rw [if_neg fun hc => hstr (hb.mp hc)]
          refine ⟨false, k₂, rfl, hl, ?_⟩
          constructor
          · intro hf
            cases hf
          · rintro ⟨n, hn, hzn, hall⟩
            exfalso
            have hle' := hlater n hn hzn hall
            by_cases hna : argno = n
            · rw [hna] at hz
              exact hz hzn
            · exact hstr (hall argno (by omega)).2
    · rw [if_neg fun hc => hv ((h.validPointer_iff ha hlt).mp hc)]
      refine ⟨false, k, rfl, Logged.refl _ k, ?_⟩
      constructor
      · intro hf
        cases hf
      · rintro ⟨n, hn, hzn, hall⟩
        have hle' := hlater n hn hzn hall
        exact absurd (hn.mono (by omega)) hv

/-- **The loop over `argv`** accepts exactly the arrays of strings. -/
theorem validArgv_ok (h : Sound k p) (ha : a < wordSize) :
    ∃ b k', validArgv p a k = .ok b k' ∧ Logged (k.space p) k k' ∧
      (b = true ↔ a = 0 ∨ ArgvAt k p a) := by
  unfold validArgv
  by_cases hz : a = 0
  · rw [if_pos hz]
    exact ⟨true, k, rfl, Logged.refl _ k, by simp [hz]⟩
  · rw [if_neg hz]
    obtain ⟨b, k', hk', hl, hb⟩ := checkArgv_ok wordSize 0 h ha (Nat.le_refl _)
      (fun i hi => absurd hi (Nat.not_lt_zero i)) fun i hi => absurd hi (Nat.not_lt_zero i)
    exact ⟨b, k', hk', hl, by rw [hb]; simp [hz]⟩

theorem readArgv_ok (fuel argno : ℕ) (h : Sound k p) (ha : a < wordSize)
    (hfuel : wordSize ≤ fuel + argno) (hn : (k.space p).Region a (4 * (n + 1))) (hle : argno ≤ n)
    (hz : userWord k p (offset a (4 * n)) = 0)
    (hall : ∀ i < n, StringAt k p (userWord k p (offset a (4 * i)))) :
    ∃ args k', readArgv p a fuel argno k = .ok args k' ∧ Logged (k.space p) k k' := by
  induction fuel generalizing k argno with
  | zero =>
    have hle' := h.region_le ha hn
    simp only [wordSize, PROCESS_STACK_BASE] at *
    omega
  | succ fuel ih =>
    have hr : (k.space p).Region a (4 * argno + 4) := hn.mono (by omega)
    obtain ⟨k₁, hk₁, hl₁⟩ := readUserWord_ok h hr.drop
    unfold readArgv
    rw [run_bind hk₁]
    by_cases hc : userWord k p (offset a (4 * argno)) = 0
    · rw [if_pos hc]
      exact ⟨[], k₁, rfl, hl₁⟩
    · rw [if_neg hc]
      have hne : argno ≠ n := by
        intro he
        rw [he] at hc
        exact hc hz
      obtain ⟨arg, k₂, hk₂, hl₂⟩ := userString_ok (hl₁.sound h) (userWord_lt k p _)
        (hl₁.stringAt.mpr (hall argno (by omega)))
      rw [hl₁.space] at hl₂
      have hl := hl₁.trans hl₂
      obtain ⟨rest, k₃, hk₃, hl₃⟩ := ih (argno + 1) (hl.sound h) (by omega)
        (by rw [hl.space]; exact hn) (by omega) (by simp only [userWord, hl.userByte]; exact hz)
        (by simp only [userWord, hl.userByte, hl.stringAt]; exact hall)
      rw [hl.space] at hl₃
      exact ⟨_, k₃, (run_bind hk₂).trans (run_bind hk₃), hl.trans hl₃⟩

/-- Reading the arguments stays inside the ranges. -/
theorem argStrings_ok (h : Sound k p) (ha : a < wordSize) (hargv : a = 0 ∨ ArgvAt k p a) :
    ∃ args k', argStrings p a k = .ok args k' ∧ Logged (k.space p) k k' := by
  unfold argStrings
  by_cases hz : a = 0
  · rw [if_pos hz]
    exact ⟨[], k, rfl, Logged.refl _ k⟩
  · rw [if_neg hz]
    obtain ⟨n, hn, hzn, hall⟩ := hargv.resolve_left hz
    exact readArgv_ok wordSize 0 h ha (Nat.le_refl _) hn (Nat.zero_le n) hzn fun i hi => (hall i hi).2

/-! ### Processes that have not exited -/

/-- The ranges of a process that has not exited are in order. -/
theorem Safe.sound {m : Machine} {forked : ℕ → Bool} {asp : ℕ → Aspace}
    (h : Safe m forked k.sched k.pages k.space asp) (hlive : k.sched.Live p) : Sound k p := by
  obtain ⟨t, d, hs⟩ := h.shaped p hlive
  have ht := hs.text_le
  have hd := hs.data_le
  simp only [MAX_TEXT, MAX_DATA] at ht hd
  refine ⟨?_, ?_, ?_, ?_, ?_, ?_, ?_⟩
  · rw [hs.textStart, hs.textEnd]
    exact Nat.mul_le_mul_left _ (Nat.le_add_right _ _)
  · rw [hs.textEnd, hs.dataStart]
    simp only [PAGE_SIZE, TEXT_PAGE, DATA_PAGE]
    omega
  · rw [hs.dataStart, hs.dataEnd]
    exact Nat.mul_le_mul_left _ (Nat.le_add_right _ _)
  · rw [hs.dataEnd, hs.stackStart]
    simp only [PAGE_SIZE, DATA_PAGE, STACK_PAGE, STACK_PAGES]
    omega
  · rw [hs.stackStart, hs.stackEnd]
    decide
  · rw [hs.stackEnd]
    decide
  · intro a ha
    constructor
    · intro hr
      obtain ⟨htr, -, -, hfr⟩ := h.user_page hlive ha hr
      refine ⟨frameOf k p a + a % PAGE_SIZE, ?_⟩
      have hlow := hfr.facts.2.1
      unfold physical
      simp only [htr]
      rw [if_neg (by omega)]
    · rintro ⟨x, hx⟩
      obtain ⟨htr, hlow⟩ := physical_eq_ok hx
      rw [hs.inRange_iff]
      by_contra hn
      have := ((h.owns hlive).kernel_page ha hn).2.1 x htr
      omega

end AdelaideOS.Kernel
