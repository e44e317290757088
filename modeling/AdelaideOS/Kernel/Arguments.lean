import AdelaideOS.Kernel.Copying
import AdelaideOS.Kernel.Paths
import AdelaideOS.Kernel.Storage

/-!
# The arguments of a new program

`execve` reads the strings of `argv` and lays them out in a buffer as they will lie on the stack of the new program:
`argc`, the address of the array, the array, and the strings, of which the first comes last.  A successful
computation is taken apart here step by step; reading changes nothing but the log.

* **`argStrings_inv`** — the strings that are read are those of the caller;
* **`packed_spec`** — where the strings and their addresses go;
* **`buildArgs_inv`** — the finished buffer.
-/

namespace AdelaideOS.Kernel

open AdelaideOS.Lib.Bytes AdelaideOS.Lib.Triple AdelaideOS.Lib.View AdelaideOS.Page AdelaideOS.Process

variable {k k' : State} {p a : ℕ} {text : List UInt8} {args : List (List UInt8)}

/-! ### Reading -/

/-- The state but for the log. -/
def State.unlogged (k : State) : State := { k with log := [] }

/-- The bytes of process `p` at `a` are a string. -/
def StringIs (k : State) (p a : ℕ) (text : List UInt8) : Prop :=
  (0 : UInt8) ∉ text ∧ ∀ j ≤ text.length, userByte k p (offset a j) = text.getD j 0

/-- The words of process `p` at `a` are the addresses of strings, and zero. -/
def ArgvIs (k : State) (p a : ℕ) (args : List (List UInt8)) : Prop :=
  (∀ i (h : i < args.length), userWord k p (offset a (4 * i)) ≠ 0 ∧
    StringIs k p (userWord k p (offset a (4 * i))) args[i]) ∧ userWord k p (offset a (4 * args.length)) = 0

/-- The arguments that `argv` passes. -/
def ArgsOf (k : State) (p argv : ℕ) (args : List (List UInt8)) : Prop :=
  if argv = 0 then args = [] else ArgvIs k p argv args

theorem userByte_unlogged (h : k'.unlogged = k.unlogged) : userByte k' = userByte k := by
  show userByte k'.unlogged = userByte k.unlogged
  rw [h]

theorem userWord_unlogged (h : k'.unlogged = k.unlogged) : userWord k' = userWord k := by
  show userWord k'.unlogged = userWord k.unlogged
  rw [h]

theorem StringIs.unlogged (h : k'.unlogged = k.unlogged) (hs : StringIs k' p a text) : StringIs k p a text := by
  unfold StringIs at *
  rw [userByte_unlogged h] at hs
  exact hs

theorem StringIs.unique {text' : List UInt8} (h : StringIs k p a text) (h' : StringIs k p a text') :
    text = text' := by
  have hle : ∀ {s t : List UInt8}, StringIs k p a s → StringIs k p a t → t.length ≤ s.length := by
    intro s t hs ht
    by_contra hlt
    have hz := hs.2 s.length (Nat.le_refl _)
    rw [ht.2 s.length (by omega), List.getD_eq_getElem _ _ (by omega), List.getD_eq_default _ _ (Nat.le_refl _)] at hz
    apply ht.1
    rw [← hz]
    exact List.getElem_mem _
  apply List.ext_getElem (Nat.le_antisymm (hle h' h) (hle h h'))
  intro i h₁ h₂
  have h1 := h.2 i (by omega)
  have h2 := h'.2 i (by omega)
  rw [List.getD_eq_getElem _ _ h₁] at h1
  rw [List.getD_eq_getElem _ _ h₂] at h2
  exact h1.symm.trans h2

theorem readUser_inv {b : UInt8} (h : readUser p a k = .ok b k') :
    b = userByte k p a ∧ k'.unlogged = k.unlogged := by
  obtain ⟨_, k₁, htouch, hload⟩ := bind_ok h
  cases htouch
  obtain ⟨rfl, rfl⟩ := loadMapped_eq hload
  exact ⟨rfl, rfl⟩

theorem readUserBytes_inv {n i : ℕ} {bs : List UInt8} (h : readUserBytes p a n i k = .ok bs k') :
    bs = userBytes k p (offset a i) n ∧ k'.unlogged = k.unlogged := by
  induction n generalizing i k bs with
  | zero =>
    cases h
    exact ⟨rfl, rfl⟩
  | succ n ih =>
    obtain ⟨b, k₁, hb, h⟩ := bind_ok h
    obtain ⟨rest, k₂, hrest, hpure⟩ := bind_ok h
    cases hpure
    obtain ⟨rfl, hl₁⟩ := readUser_inv hb
    obtain ⟨rfl, hl₂⟩ := ih hrest
    refine ⟨?_, hl₂.trans hl₁⟩
    rw [userBytes_succ]
    unfold userBytes
    rw [userByte_unlogged hl₁]

theorem readUserWord_inv {w : ℕ} (h : readUserWord p a k = .ok w k') :
    w = userWord k p a ∧ k'.unlogged = k.unlogged := by
  obtain ⟨bs, k₁, hbs, hpure⟩ := bind_ok h
  cases hpure
  obtain ⟨rfl, hl⟩ := readUserBytes_inv hbs
  refine ⟨?_, hl⟩
  rw [userBytes_offset_zero]
  rfl

theorem validStringLoop_inv {fuel len : ℕ} {b : Bool} (h : validStringLoop p a fuel len k = .ok b k') :
    k'.unlogged = k.unlogged := by
  induction fuel generalizing k len with
  | zero => cases h
  | succ fuel ih =>
    unfold validStringLoop at h
    rw [run_get] at h
    split_ifs at h
    · obtain ⟨c, k₁, hc, h⟩ := bind_ok h
      obtain ⟨-, hl₁⟩ := readUser_inv hc
      split_ifs at h
      · cases h
        exact hl₁
      · exact (ih h).trans hl₁
    · cases h
      rfl

theorem userStringLoop_inv {fuel len : ℕ} (h : userStringLoop p a fuel len k = .ok text k') :
    StringIs k p (offset a len) text ∧ k'.unlogged = k.unlogged := by
  induction fuel generalizing k len text with
  | zero => cases h
  | succ fuel ih =>
    unfold userStringLoop at h
    obtain ⟨c, k₁, hc, h⟩ := bind_ok h
    obtain ⟨rfl, hl₁⟩ := readUser_inv hc
    split_ifs at h with hz
    · cases h
      refine ⟨⟨List.not_mem_nil, ?_⟩, hl₁⟩
      intro j hj
      obtain rfl : j = 0 := Nat.le_zero.mp hj
      rw [offset_offset, Nat.add_zero, hz]
      rfl
    · obtain ⟨rest, k₂, hrest, hpure⟩ := bind_ok h
      cases hpure
      obtain ⟨hs, hl₂⟩ := ih hrest
      have hs' := hs.unlogged hl₁
      refine ⟨⟨?_, ?_⟩, hl₂.trans hl₁⟩
      · intro hmem
        rcases List.mem_cons.mp hmem with h0 | hmem
        · exact hz h0.symm
        · exact hs'.1 hmem
      · intro j hj
        cases j with
        | zero =>
          rw [offset_offset, Nat.add_zero]
          rfl
        | succ j =>
          have := hs'.2 j (by simpa using hj)
          rw [offset_offset] at this ⊢
          rw [show len + (j + 1) = len + 1 + j by omega]
          exact this

theorem userString_inv (ha : a < wordSize) (h : userString p a k = .ok text k') :
    StringIs k p a text ∧ k'.unlogged = k.unlogged := by
  obtain ⟨hs, hl⟩ := userStringLoop_inv h
  rw [show offset a 0 = a from Nat.mod_eq_of_lt ha] at hs
  exact ⟨hs, hl⟩

theorem checkArgv_inv {fuel argno : ℕ} {b : Bool} (h : checkArgv p a fuel argno k = .ok b k') :
    k'.unlogged = k.unlogged := by
  induction fuel generalizing k argno with
  | zero => cases h
  | succ fuel ih =>
    unfold checkArgv at h
    rw [run_get] at h
    split_ifs at h
    · obtain ⟨s, k₁, hs, h⟩ := bind_ok h
      obtain ⟨-, hl₁⟩ := readUserWord_inv hs
      split_ifs at h
      · cases h
        exact hl₁
      · obtain ⟨valid, k₂, hv, h⟩ := bind_ok h
        have hl₂ := validStringLoop_inv hv
        split_ifs at h
        · exact (ih h).trans (hl₂.trans hl₁)
        · cases h
          exact hl₂.trans hl₁
    · cases h
      rfl

theorem validArgv_inv {b : Bool} (h : validArgv p a k = .ok b k') : k'.unlogged = k.unlogged := by
  unfold validArgv at h
  split_ifs at h
  · cases h
    rfl
  · exact checkArgv_inv h

theorem readArgv_inv {fuel argno : ℕ} (h : readArgv p a fuel argno k = .ok args k') :
    ArgvIs k p (offset a (4 * argno)) args ∧ k'.unlogged = k.unlogged := by
  induction fuel generalizing k argno args with
  | zero => cases h
  | succ fuel ih =>
    unfold readArgv at h
    obtain ⟨s, k₁, hs, h⟩ := bind_ok h
    obtain ⟨rfl, hl₁⟩ := readUserWord_inv hs
    split_ifs at h with hz
    · cases h
      refine ⟨⟨fun i hi => absurd hi (Nat.not_lt_zero i), ?_⟩, hl₁⟩
      rw [offset_offset]
      exact hz
    · obtain ⟨arg, k₂, harg, h⟩ := bind_ok h
      obtain ⟨rest, k₃, hrest, hpure⟩ := bind_ok h
      cases hpure
      obtain ⟨hstr, hl₂⟩ := userString_inv (userWord_lt k p _) harg
      obtain ⟨hargs, hl₃⟩ := ih hrest
      have hl := hl₂.trans hl₁
      refine ⟨⟨?_, ?_⟩, hl₃.trans hl⟩
      · intro i hi
        cases i with
        | zero =>
          rw [offset_offset, Nat.mul_zero, Nat.add_zero]
          exact ⟨hz, hstr.unlogged hl₁⟩
        | succ i =>
          have := hargs.1 i (by simpa using hi)
          rw [offset_offset, userWord_unlogged hl] at this
          rw [offset_offset, show 4 * argno + 4 * (i + 1) = 4 * (argno + 1) + 4 * i by omega]
          exact ⟨this.1, this.2.unlogged hl⟩
      · have := hargs.2
        rw [offset_offset, userWord_unlogged hl] at this
        rw [offset_offset, List.length_cons,
          show 4 * argno + 4 * (rest.length + 1) = 4 * (argno + 1) + 4 * rest.length by omega]
        exact this

/-- **The arguments that are read** are those of the caller. -/
theorem argStrings_inv (ha : a < wordSize) (h : argStrings p a k = .ok args k') :
    ArgsOf k p a args ∧ k'.unlogged = k.unlogged := by
  unfold argStrings at h
  unfold ArgsOf
  split_ifs at h ⊢
  · cases h
    exact ⟨rfl, rfl⟩
  · obtain ⟨hargs, hl⟩ := readArgv_inv h
    rw [Nat.mul_zero, show offset a 0 = a from Nat.mod_eq_of_lt ha] at hargs
    exact ⟨hargs, hl⟩

theorem ArgvIs.unique {args' : List (List UInt8)} (h : ArgvIs k p a args) (h' : ArgvIs k p a args') :
    args = args' := by
  have hle : ∀ {s t : List (List UInt8)}, ArgvIs k p a s → ArgvIs k p a t → t.length ≤ s.length := by
    intro s t hs ht
    by_contra hlt
    exact (ht.1 s.length (by omega)).1 hs.2
  apply List.ext_getElem (Nat.le_antisymm (hle h' h) (hle h h'))
  intro i h₁ h₂
  exact (h.1 i h₁).2.unique (h'.1 i h₂).2

theorem ArgsOf.unique {args' : List (List UInt8)} (h : ArgsOf k p a args) (h' : ArgsOf k p a args') :
    args = args' := by
  unfold ArgsOf at h h'
  split_ifs at h h'
  · rw [h, h']
  · exact h.unique h'

/-! ### Packing -/

theorem storeBytes_of_inside (M : Memory) {b j : ℕ} {bs : List UInt8} (hj : j < bs.length) :
    storeBytes M b bs (b + j) = bs.getD j 0 := by
  unfold storeBytes
  rw [if_pos (Nat.le_add_right _ _), Nat.add_sub_cancel_left, List.getElem?_eq_getElem hj,
    List.getD_eq_getElem _ _ hj]
  rfl

/-- The bytes of a word are read back, modulo `2 ^ 32`. -/
theorem wordOf_wordBytes (w : ℕ) : wordOf (wordBytes w) = w % wordSize := by
  simp only [wordBytes, wordOf, UInt8.toNat_ofNat', wordSize]
  omega

/-- Four bytes that are those of a word are that word, modulo `2 ^ 32`. -/
theorem userWord_of_bytes {w : ℕ} (h : ∀ j < 4, userByte k p (offset a j) = (wordBytes w).getD j 0) :
    userWord k p a = w % wordSize := by
  have hbytes : (List.range 4).map (fun j => userByte k p (offset a j)) = wordBytes w := by
    apply List.ext_getElem
    · rfl
    · intro j h₁ h₂
      rw [List.getElem_map, List.getElem_range, h j (by simpa using h₁), List.getD_eq_getElem _ _ h₂]
  unfold userWord
  rw [hbytes, wordOf_wordBytes]

/-- The buffer after the loop that copies the arguments. -/
def packed (argdata size : ℕ) : List (List UInt8) → ℕ → ℕ → Memory → Memory
  | [], _, _, M => M
  | arg :: args, argno, pos, M =>
    packed argdata size args (argno + 1) (pos - (arg.length + 1))
      (storeBytes (storeBytes M (argdata + (pos - (arg.length + 1))) (arg ++ [0])) (argdata + (8 + 4 * argno))
        (wordBytes (PROCESS_STACK_BASE + wordSize - size + (pos - (arg.length + 1)))))

/-- Where the argument `i` goes, when the arguments end at `pos`. -/
def argPos (args : List (List UInt8)) (pos i : ℕ) : ℕ := pos - roomFor (args.take (i + 1))

theorem roomFor_cons (arg : List UInt8) (args : List (List UInt8)) :
    roomFor (arg :: args) = arg.length + 1 + roomFor args := by simp [roomFor]

theorem argPos_succ (arg : List UInt8) (args : List (List UInt8)) (pos i : ℕ) :
    argPos (arg :: args) pos (i + 1) = argPos args (pos - (arg.length + 1)) i := by
  unfold argPos
  rw [List.take_succ_cons, roomFor_cons]
  omega

theorem argPos_zero (arg : List UInt8) (args : List (List UInt8)) (pos : ℕ) :
    argPos (arg :: args) pos 0 = pos - (arg.length + 1) := by
  unfold argPos
  simp [roomFor]

/-- What the loop leaves alone: the words before the first address, the gap between the addresses and the strings,
and what follows the strings. -/
theorem packed_frame (argdata size : ℕ) (args : List (List UInt8)) {argno pos x : ℕ} (M : Memory)
    (hroom : 8 + 4 * (argno + args.length) + roomFor args ≤ pos)
    (hx : x < 8 + 4 * argno ∨ (8 + 4 * (argno + args.length) ≤ x ∧ x + roomFor args < pos) ∨ pos ≤ x) :
    packed argdata size args argno pos M (argdata + x) = M (argdata + x) := by
  induction args generalizing argno pos M with
  | nil => rfl
  | cons arg args ih =>
    rw [roomFor_cons, List.length_cons] at hroom hx
    unfold packed
    rw [ih _ (by omega) (by omega), storeBytes_of_outside _ (by simp [wordBytes]; omega),
      storeBytes_of_outside _ (by simp; omega)]

/-- **The strings and their addresses.** -/
theorem packed_spec (argdata size : ℕ) (args : List (List UInt8)) {argno pos : ℕ} (M : Memory)
    (hroom : 8 + 4 * (argno + args.length) + roomFor args ≤ pos) {i : ℕ} (hi : i < args.length) :
    (∀ j ≤ args[i].length,
      packed argdata size args argno pos M (argdata + (argPos args pos i + j)) = args[i].getD j 0) ∧
    ∀ j < 4, packed argdata size args argno pos M (argdata + (8 + 4 * (argno + i) + j)) =
      (wordBytes (PROCESS_STACK_BASE + wordSize - size + argPos args pos i)).getD j 0 := by
  induction args generalizing argno pos M i with
  | nil => exact absurd hi (Nat.not_lt_zero i)
  | cons arg args ih =>
    rw [roomFor_cons, List.length_cons] at hroom
    unfold packed
    cases i with
    | zero =>
      rw [argPos_zero]
      simp only [List.getElem_cons_zero]
      constructor
      · intro j hj
        -- the other strings lie before this one, and the address before them
        rw [packed_frame _ _ _ _ (by omega) (Or.inr (Or.inr (by omega))),
          storeBytes_of_outside _ (by simp [wordBytes]; omega), ← Nat.add_assoc,
          storeBytes_of_inside _ (by simp; omega)]
        by_cases hlast : j < arg.length
        · rw [List.getD_append _ _ _ _ hlast]
        · obtain rfl : j = arg.length := by omega
          rw [List.getD_append_right _ _ _ _ (Nat.le_refl _), Nat.sub_self,
            List.getD_eq_default _ _ (Nat.le_refl _)]
          rfl
      · intro j hj
        rw [packed_frame _ _ _ _ (by omega) (Or.inl (by omega)),
          show argdata + (8 + 4 * (argno + 0) + j) = argdata + (8 + 4 * argno) + j by omega,
          storeBytes_of_inside _ (by simpa [wordBytes] using hj)]
    | succ i =>
      rw [argPos_succ]
      simp only [List.getElem_cons_succ]
      have hroom' : 8 + 4 * (argno + 1 + args.length) + roomFor args ≤ pos - (arg.length + 1) := by omega
      obtain ⟨hstr, hptr⟩ := ih (storeBytes (storeBytes M (argdata + (pos - (arg.length + 1))) (arg ++ [0]))
        (argdata + (8 + 4 * argno)) (wordBytes (PROCESS_STACK_BASE + wordSize - size + (pos - (arg.length + 1)))))
        hroom' (i := i) (by simpa using hi)
      refine ⟨hstr, ?_⟩
      intro j hj
      rw [show argno + (i + 1) = argno + 1 + i by omega]
      exact hptr j hj

theorem storeBlock_inv {block size off : ℕ} {bs : List UInt8} (h : storeBlock block size off bs k = .ok () k') :
    k' = { k with heap := { k.heap with bytes := storeBytes k.heap.bytes (block + off) bs } } := by
  unfold storeBlock at h
  split_ifs at h
  · cases h
    rfl

/-- The loop of `execve` fills the buffer in this way. -/
theorem packArgs_inv {argdata size argno pos : ℕ} (hroom : roomFor args ≤ pos) (hpos : pos < wordSize)
    (h : packArgs argdata size args argno pos k = .ok () k') :
    k' = { k with heap := { k.heap with bytes := packed argdata size args argno pos k.heap.bytes } } := by
  induction args generalizing k argno pos with
  | nil =>
    cases h
    rfl
  | cons arg args ih =>
    rw [roomFor_cons] at hroom
    have hmod : (pos + wordSize - (arg.length + 1)) % wordSize = pos - (arg.length + 1) := by
      simp only [wordSize] at *
      omega
    unfold packArgs at h
    simp only [hmod] at h
    obtain ⟨_, k₁, h₁, h⟩ := bind_ok h
    obtain ⟨_, k₂, h₂, h⟩ := bind_ok h
    have hk₁ := storeBlock_inv h₁
    have hk₂ := storeBlock_inv h₂
    rw [ih (by omega) (by omega) h, hk₂, hk₁]
    rfl

/-- The size of the buffer, before it is reduced modulo `2 ^ 32`. -/
def marshalledSize (args : List (List UInt8)) : ℕ := roomFor args + 4 * args.length + 8

theorem argdataSize_eq (h : marshalledSize args < wordSize) : argdataSize args = marshalledSize args := by
  unfold argdataSize
  rw [Nat.mul_comm args.length 4]
  exact Nat.mod_eq_of_lt h

/-- What the finished buffer holds: `argc`, the address of the array, the array, and the strings. -/
structure Laid (M : Memory) (argdata : ℕ) (args : List (List UInt8)) : Prop where
  argc : ∀ j < 4, M (argdata + j) = (wordBytes args.length).getD j 0
  argv : ∀ j < 4, M (argdata + (4 + j)) =
    (wordBytes (PROCESS_STACK_BASE + wordSize - marshalledSize args + 8)).getD j 0
  pointers : ∀ i < args.length, ∀ j < 4, M (argdata + (8 + 4 * i + j)) =
    (wordBytes (PROCESS_STACK_BASE + wordSize - marshalledSize args +
      argPos args (marshalledSize args) i)).getD j 0
  strings : ∀ i (h : i < args.length), ∀ j ≤ args[i].length,
    M (argdata + (argPos args (marshalledSize args) i + j)) = args[i].getD j 0

/-- The array and the strings lie behind the first two words. -/
theorem argPos_ge (args : List (List UInt8)) {i : ℕ} (hi : i < args.length) :
    8 + 4 * args.length ≤ argPos args (marshalledSize args) i ∧
      argPos args (marshalledSize args) i + args[i].length + 1 ≤ marshalledSize args ∧
      ∀ i' (_ : i' < args.length), i' < i →
        argPos args (marshalledSize args) i + args[i].length + 1 ≤ argPos args (marshalledSize args) i' := by
  have htake : ∀ n ≤ args.length, roomFor (args.take n) ≤ roomFor args := by
    intro n _
    have := congrArg roomFor (List.take_append_drop n args)
    rw [roomFor, List.map_append, List.sum_append] at this
    unfold roomFor at *
    omega
  have hsucc : ∀ n (hn : n < args.length), roomFor (args.take (n + 1)) = roomFor (args.take n) + (args[n].length + 1) := by
    intro n hn
    rw [List.take_succ_eq_append_getElem hn, roomFor, List.map_append, List.sum_append]
    rfl
  have hmono : ∀ n n', n ≤ n' → roomFor (args.take n) ≤ roomFor (args.take n') := by
    intro n n' hle
    have := congrArg roomFor (List.take_append_drop n (args.take n'))
    rw [List.take_take, Nat.min_eq_left hle, roomFor, List.map_append, List.sum_append] at this
    unfold roomFor at *
    omega
  have hall := htake (i + 1) hi
  have hi1 := hsucc i hi
  unfold argPos marshalledSize
  refine ⟨by omega, by omega, ?_⟩
  intro i' hi' hlt
  have := hmono (i' + 1) i hlt
  omega

/-- **The finished buffer**; nothing but the heap has changed. -/
theorem buildArgs_inv {argdata : ℕ} (hsize : marshalledSize args < wordSize)
    (h : buildArgs args k = .ok argdata k') :
    (∃ heap, k' = { k with heap := heap }) ∧ Laid k'.heap.bytes argdata args := by
  unfold buildArgs at h
  simp only [argdataSize_eq hsize] at h
  obtain ⟨a, k₁, halloc, h⟩ := bind_ok h
  obtain ⟨_, k₂, hpack, h⟩ := bind_ok h
  obtain ⟨_, k₃, hargc, h⟩ := bind_ok h
  obtain ⟨_, k₄, hargv, hpure⟩ := bind_ok h
  cases hpure
  obtain ⟨heap₁, hk₁⟩ : ∃ heap, k₁ = { k with heap := heap } := by
    unfold kmalloc onHeap at halloc
    split at halloc
    · cases halloc
      exact ⟨_, rfl⟩
    · cases halloc
  have hroom : roomFor args ≤ marshalledSize args := by
    unfold marshalledSize
    omega
  have hroom' : 8 + 4 * (0 + args.length) + roomFor args ≤ marshalledSize args := by
    unfold marshalledSize
    omega
  have hk₂ := packArgs_inv hroom hsize hpack
  have hk₃ := storeBlock_inv hargc
  have hk₄ := storeBlock_inv hargv
  constructor
  · rw [hk₄, hk₃, hk₂, hk₁]
    exact ⟨_, rfl⟩
  · have hM : k'.heap.bytes = storeBytes (storeBytes
        (packed argdata (marshalledSize args) args 0 (marshalledSize args) k₁.heap.bytes) (argdata + 0) (wordBytes args.length))
        (argdata + 4) (wordBytes (PROCESS_STACK_BASE + wordSize - marshalledSize args + 8)) := by
      rw [hk₄, hk₃, hk₂]
    -- behind the first two words the loop's bytes stay
    have hrest : ∀ x, 8 ≤ x → k'.heap.bytes (argdata + x) =
        packed argdata (marshalledSize args) args 0 (marshalledSize args) k₁.heap.bytes (argdata + x) := by
      intro x hx
      rw [hM, storeBytes_of_outside _ (by simp [wordBytes]; omega),
        storeBytes_of_outside _ (by simp [wordBytes]; omega)]
    constructor
    · intro j hj
      rw [hM, storeBytes_of_outside _ (by omega), Nat.add_zero, storeBytes_of_inside _ (by simpa [wordBytes] using hj)]
    · intro j hj
      rw [hM, ← Nat.add_assoc, storeBytes_of_inside _ (by simpa [wordBytes] using hj)]
    · intro i hi j hj
      rw [hrest _ (by omega)]
      have := (packed_spec argdata (marshalledSize args) args k₁.heap.bytes hroom' hi).2 j hj
      rw [Nat.zero_add] at this
      exact this
    · intro i hi j hj
      have hpos := (argPos_ge args hi).1
      rw [hrest _ (by omega)]
      exact (packed_spec argdata (marshalledSize args) args k₁.heap.bytes hroom' hi).1 j hj

end AdelaideOS.Kernel
