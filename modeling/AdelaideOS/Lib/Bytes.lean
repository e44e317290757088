import Mathlib.Tactic

/-!
# Byte memory with little-endian words

A memory is a total map from addresses to bytes.  A 32-bit word at address `a` is the little-endian
reading of the four bytes at `a, a + 1, a + 2, a + 3`.  The lemmas say how word reads see word writes:

* **`readWord_writeWord`** — a word read back at the address it was written to;
* **`readWord_writeWord_of_apart`** — a word read at least four bytes away is unaffected;
* **`readWord_congr`** — a word depends on its own four bytes only;
* **`fill`** and **`copy`** — a constant range, and a range copied from another address;
* **`AgreeOn`** — two memories hold the same bytes in a range;
* **`update_eq_some`** — what there is in a table of optional entries after one has been set.

Nothing here knows what is stored in the memory.
-/

namespace AdelaideOS.Lib.Bytes

/-- Byte-addressed memory. -/
abbrev Memory := ℕ → UInt8

/-- The number of values of a 32-bit machine word. -/
abbrev wordSize : ℕ := 4294967296

/-- The little-endian word stored at `a`. -/
def readWord (M : Memory) (a : ℕ) : ℕ :=
  (M a).toNat + 256 * (M (a + 1)).toNat + 65536 * (M (a + 2)).toNat
    + 16777216 * (M (a + 3)).toNat

/-- Store the low 32 bits of `w` at `a`, least significant byte first. -/
def writeWord (M : Memory) (a w : ℕ) : Memory := fun x =>
  if x = a then UInt8.ofNat w
  else if x = a + 1 then UInt8.ofNat (w / 256)
  else if x = a + 2 then UInt8.ofNat (w / 65536)
  else if x = a + 3 then UInt8.ofNat (w / 16777216)
  else M x

/-- Set the `len` bytes from `a` on to `b`. -/
def fill (M : Memory) (a len : ℕ) (b : UInt8) : Memory := fun x =>
  if a ≤ x ∧ x < a + len then b else M x

/-- Copy `len` bytes from `src` to `dst`, where the two ranges do not overlap. -/
def copy (M : Memory) (dst src len : ℕ) : Memory := fun x =>
  if dst ≤ x ∧ x < dst + len then M (src + (x - dst)) else M x

theorem readWord_lt (M : Memory) (a : ℕ) : readWord M a < wordSize := by
  have h0 := (M a).toNat_lt
  have h1 := (M (a + 1)).toNat_lt
  have h2 := (M (a + 2)).toNat_lt
  have h3 := (M (a + 3)).toNat_lt
  simp only [readWord, wordSize]
  omega

/-- A word depends on its own four bytes only. -/
theorem readWord_congr {M M' : Memory} {a : ℕ} (h : ∀ x, a ≤ x → x < a + 4 → M' x = M x) :
    readWord M' a = readWord M a := by
  have h0 := h a (by omega) (by omega)
  have h1 := h (a + 1) (by omega) (by omega)
  have h2 := h (a + 2) (by omega) (by omega)
  have h3 := h (a + 3) (by omega) (by omega)
  simp only [readWord, h0, h1, h2, h3]

/-- **Read back.**  A word that fits 32 bits is read back where it was written. -/
theorem readWord_writeWord (M : Memory) (a w : ℕ) (hw : w < wordSize) :
    readWord (writeWord M a w) a = w := by
  simp only [wordSize] at hw
  have e1 : a + 1 ≠ a := by omega
  have e2 : a + 2 ≠ a ∧ a + 2 ≠ a + 1 := by omega
  have e3 : a + 3 ≠ a ∧ a + 3 ≠ a + 1 ∧ a + 3 ≠ a + 2 := by omega
  simp only [readWord, writeWord, if_true, if_neg e1, if_neg e2.1, if_neg e2.2, if_neg e3.1,
    if_neg e3.2.1, if_neg e3.2.2, UInt8.toNat_ofNat']
  omega

/-- A word write leaves every byte outside its four bytes alone. -/
theorem writeWord_of_outside (M : Memory) {a x : ℕ} (w : ℕ) (h : x < a ∨ a + 4 ≤ x) :
    writeWord M a w x = M x := by
  have e0 : x ≠ a := by omega
  have e1 : x ≠ a + 1 := by omega
  have e2 : x ≠ a + 2 := by omega
  have e3 : x ≠ a + 3 := by omega
  simp only [writeWord, if_neg e0, if_neg e1, if_neg e2, if_neg e3]

/-- **Frame.**  Words at least four bytes apart do not disturb each other. -/
theorem readWord_writeWord_of_apart (M : Memory) {a b : ℕ} (w : ℕ) (h : a + 4 ≤ b ∨ b + 4 ≤ a) :
    readWord (writeWord M b w) a = readWord M a :=
  readWord_congr fun _ _ _ => writeWord_of_outside M w (by omega)

theorem fill_of_outside (M : Memory) {a len x : ℕ} (b : UInt8) (h : x < a ∨ a + len ≤ x) :
    fill M a len b x = M x := by
  simp only [fill]
  rw [if_neg (by omega)]

theorem fill_of_inside (M : Memory) {a len x : ℕ} (b : UInt8) (h1 : a ≤ x) (h2 : x < a + len) :
    fill M a len b x = b := by
  simp only [fill]
  rw [if_pos ⟨h1, h2⟩]

/-- A word inside a zeroed range reads as zero. -/
theorem readWord_fill_zero (M : Memory) {a len x : ℕ} (h1 : a ≤ x) (h2 : x + 4 ≤ a + len) :
    readWord (fill M a len 0) x = 0 := by
  simp only [readWord]
  rw [fill_of_inside M 0 (by omega) (by omega), fill_of_inside M 0 (by omega) (by omega),
    fill_of_inside M 0 (by omega) (by omega), fill_of_inside M 0 (by omega) (by omega)]
  rfl

theorem copy_of_outside (M : Memory) {dst src len x : ℕ} (h : x < dst ∨ dst + len ≤ x) :
    copy M dst src len x = M x := by
  simp only [copy]
  rw [if_neg (by omega)]

/-- Both memories hold the same `len` bytes from `a` on. -/
def AgreeOn (M M' : Memory) (a len : ℕ) : Prop := ∀ x, a ≤ x → x < a + len → M' x = M x

theorem AgreeOn.refl (M : Memory) (a len : ℕ) : AgreeOn M M a len := fun _ _ _ => rfl

theorem AgreeOn.trans {M M' M'' : Memory} {a len : ℕ} (h : AgreeOn M M' a len)
    (h' : AgreeOn M' M'' a len) : AgreeOn M M'' a len := by
  intro x h1 h2
  rw [h' x h1 h2, h x h1 h2]

theorem AgreeOn.readWord {M M' : Memory} {a len x : ℕ} (h : AgreeOn M M' a len) (h1 : a ≤ x)
    (h2 : x + 4 ≤ a + len) : readWord M' x = Bytes.readWord M x :=
  readWord_congr fun y _ _ => h y (by omega) (by omega)

theorem agreeOn_writeWord (M : Memory) {a b len : ℕ} (w : ℕ) (h : a + len ≤ b ∨ b + 4 ≤ a) :
    AgreeOn M (writeWord M b w) a len := by
  intro x h1 h2
  exact writeWord_of_outside M w (by omega)

theorem agreeOn_fill (M : Memory) {a b len n : ℕ} (v : UInt8) (h : a + len ≤ b ∨ b + n ≤ a) :
    AgreeOn M (fill M b n v) a len := by
  intro x h1 h2
  exact fill_of_outside M v (by omega)

theorem agreeOn_copy (M : Memory) {a b src len n : ℕ} (h : a + len ≤ b ∨ b + n ≤ a) :
    AgreeOn M (copy M b src n) a len := by
  intro x h1 h2
  exact copy_of_outside M (by omega)

/-! ### Tables -/

/-- An entry of the table is the one that has been set, or was there before. -/
theorem update_eq_some {α β : Type} [DecidableEq α] {f : α → Option β} {i j : α} {v w : β}
    (h : Function.update f i (some v) j = some w) : (j = i ∧ w = v) ∨ (j ≠ i ∧ f j = some w) := by
  by_cases hj : j = i
  · rw [hj, Function.update_self] at h
    exact Or.inl ⟨hj, (Option.some.inj h).symm⟩
  · rw [Function.update_of_ne hj] at h
    exact Or.inr ⟨hj, h⟩

theorem update_none_eq_some {α β : Type} [DecidableEq α] {f : α → Option β} {i j : α} {w : β}
    (h : Function.update f i none j = some w) : j ≠ i ∧ f j = some w := by
  by_cases hj : j = i
  · rw [hj, Function.update_self] at h
    cases h
  · rw [Function.update_of_ne hj] at h
    exact ⟨hj, h⟩

end AdelaideOS.Lib.Bytes
