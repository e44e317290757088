import AdelaideOS.Kernel.References

/-!
# What lies on the kernel heap

`Stored h T H B box C` says that the heap `h` holds the blocks of all objects, each in a piece of its own: a
handle, a pipe and its data, the mailbox of a process.  `box p` is the mailbox that process `p` owns, and `C` is
what the buffers hold: the bytes in a pipe and the messages in a mailbox.

* **`Stored.alloc`**, **`Stored.free`** — requests and releases;
* **`Stored.write`** — a store into one piece leaves the contents of the others alone.
-/

namespace AdelaideOS.Kernel

open AdelaideOS.Buddy AdelaideOS.Lib.Bytes AdelaideOS.Process

/-! ### Bytes in memory -/

theorem loadBytes_congr {M M' : Memory} {a a' n : ℕ} (h : ∀ i, i < n → M' (a' + i) = M (a + i)) :
    loadBytes M' a' n = loadBytes M a n := by
  unfold loadBytes
  apply List.map_congr_left
  intro i hi
  exact h i (List.mem_range.mp hi)

theorem loadBytes_add (M : Memory) (a m n : ℕ) :
    loadBytes M a (m + n) = loadBytes M a m ++ loadBytes M (a + m) n := by
  unfold loadBytes
  rw [List.range_add, List.map_append, List.map_map]
  congr 1
  apply List.map_congr_left
  intro i _
  rw [Function.comp_apply, Nat.add_assoc]

theorem storeBytes_of_outside (M : Memory) {a x : ℕ} {bs : List UInt8}
    (h : x < a ∨ a + bs.length ≤ x) : storeBytes M a bs x = M x := by
  unfold storeBytes
  split
  · rw [List.getElem?_eq_none (by omega), Option.getD_none]
  · rfl

/-- Bytes are read back where they were stored. -/
theorem loadBytes_storeBytes (M : Memory) (a : ℕ) (bs : List UInt8) :
    loadBytes (storeBytes M a bs) a bs.length = bs := by
  apply List.ext_getElem
  · rw [loadBytes_length]
  · intro i h₁ h₂
    simp only [loadBytes, List.getElem_map, List.getElem_range, storeBytes]
    rw [if_pos (Nat.le_add_right a i), Nat.add_sub_cancel_left, List.getElem?_eq_getElem h₂,
      Option.getD_some]

/-- A store elsewhere is not seen. -/
theorem loadBytes_storeBytes_of_apart (M : Memory) {a b n : ℕ} {bs : List UInt8}
    (h : a + n ≤ b ∨ b + bs.length ≤ a) : loadBytes (storeBytes M b bs) a n = loadBytes M a n := by
  apply loadBytes_congr
  intro i hi
  exact storeBytes_of_outside M (by omega)

/-- `memmove`: memory after the first `len` rounds of its loop. -/
def memmove (M : Memory) (dst src : ℕ) : ℕ → Memory
  | 0 => M
  | pos + 1 =>
    let M := memmove M dst src pos
    Function.update M (dst + pos) (M (src + pos))

/-- **`memmove`** copies what was there before, if it moves bytes down or the ranges do not overlap. -/
theorem memmove_eq (M : Memory) {dst src : ℕ} (len : ℕ) (h : dst ≤ src ∨ src + len ≤ dst) :
    memmove M dst src len = storeBytes M dst (loadBytes M src len) := by
  induction len with
  | zero =>
    funext x
    rw [memmove, storeBytes_of_outside M (by rw [loadBytes_length]; omega)]
  | succ pos ih =>
    rw [memmove, ih (by omega)]
    -- the byte that this round reads has not been overwritten
    have hsrc : storeBytes M dst (loadBytes M src pos) (src + pos) = M (src + pos) :=
      storeBytes_of_outside M (by rw [loadBytes_length]; omega)
    rw [hsrc]
    funext x
    by_cases hx : x = dst + pos
    · rw [hx, Function.update_self, storeBytes, if_pos (Nat.le_add_right _ _), Nat.add_sub_cancel_left,
        loadBytes, List.getElem?_map, List.getElem?_range (Nat.lt_succ_self pos)]
      rfl
    · rw [Function.update_of_ne hx]
      unfold storeBytes loadBytes
      split
      · rw [List.getElem?_map, List.getElem?_map]
        by_cases hlt : x - dst < pos
        · rw [List.getElem?_range hlt, List.getElem?_range (by omega)]
        · rw [List.getElem?_eq_none (by rw [List.length_range]; omega),
            List.getElem?_eq_none (by rw [List.length_range]; omega)]
      · rfl

/-! ### Messages -/

/-- A message as it was sent. -/
structure Message where
  sender : ℕ
  tag : ℕ
  size : ℕ
  data : List UInt8

/-- The part of a slot that `send` fills in. -/
def Message.bytes (msg : Message) : List UInt8 :=
  wordBytes msg.sender ++ wordBytes msg.tag ++ wordBytes msg.size ++ msg.data

theorem Message.bytes_length (msg : Message) : msg.bytes.length = 12 + msg.data.length := by
  simp [Message.bytes, wordBytes]
  omega

/-- The messages stand one after the other from `x` on. -/
def Mail (M : Memory) : ℕ → List Message → Prop
  | _, [] => True
  | x, msg :: msgs =>
    msg.data.length ≤ MAX_MESSAGE_SIZE ∧ loadBytes M x msg.bytes.length = msg.bytes ∧
      Mail M (x + MESSAGE_SIZE) msgs

/-- The messages are moved to another place. -/
theorem Mail.move {M M' : Memory} {x y : ℕ} {msgs : List Message} (h : Mail M x msgs)
    (hsame : ∀ i, i < msgs.length * MESSAGE_SIZE → M' (y + i) = M (x + i)) : Mail M' y msgs := by
  induction msgs generalizing x y with
  | nil => trivial
  | cons msg msgs ih =>
    obtain ⟨hlen, hload, hrest⟩ := h
    have hbytes := msg.bytes_length
    simp only [List.length_cons, MESSAGE_SIZE, MAX_MESSAGE_SIZE] at hsame hlen
    refine ⟨hlen, ?_, ih hrest ?_⟩
    · rw [← hload, loadBytes_length]
      apply loadBytes_congr
      intro i hi
      exact hsame i (by omega)
    · intro i hi
      rw [Nat.add_assoc, Nat.add_assoc]
      simp only [MESSAGE_SIZE] at hi ⊢
      exact hsame (1036 + i) (by omega)

/-- A message is put behind the others. -/
theorem Mail.snoc {M : Memory} {x : ℕ} {msgs : List Message} {msg : Message} (h : Mail M x msgs)
    (hlen : msg.data.length ≤ MAX_MESSAGE_SIZE)
    (hload : loadBytes M (x + msgs.length * MESSAGE_SIZE) msg.bytes.length = msg.bytes) :
    Mail M x (msgs ++ [msg]) := by
  induction msgs generalizing x with
  | nil =>
    rw [List.length_nil, Nat.zero_mul, Nat.add_zero] at hload
    exact ⟨hlen, hload, trivial⟩
  | cons m msgs ih =>
    obtain ⟨hlen', hload', hrest⟩ := h
    refine ⟨hlen', hload', ih hrest ?_⟩
    rw [List.length_cons] at hload
    rw [show x + MESSAGE_SIZE + msgs.length * MESSAGE_SIZE = x + (msgs.length + 1) * MESSAGE_SIZE by ring]
    exact hload

/-! ### The heap -/

/-- What a piece of the heap is used for. -/
inductive Use where
  | handle
  | pipe
  | data (b : ℕ)
  | box (p : ℕ)
  | scratch

/-- What the buffers hold. -/
structure Contents where
  text : ℕ → List UInt8
  mail : ℕ → List Message

structure Stored (h : Heap) (T : Table Use) (H : ℕ → Option Filehandle) (B : ℕ → Option PipeBuffer)
    (box : ℕ → Option ℕ) (C : Contents) : Prop where
  holds : Holds kernelRegion h T
  handle : ∀ a fh, H a = some fh → T a = some ⟨36, .handle⟩
  pipe : ∀ b pb, B b = some pb → T b = some ⟨24, .pipe⟩
  data : ∀ b pb, B b = some pb → T pb.data = some ⟨pb.alloc, .data b⟩
  fits : ∀ b pb, B b = some pb → pb.len ≤ pb.alloc
  text : ∀ b pb, B b = some pb → loadBytes h.bytes pb.data pb.len = C.text b
  owned : ∀ p x, box p = some x → T x = some ⟨8 * MESSAGE_SIZE, .box p⟩
  room : ∀ p x, box p = some x → (C.mail p).length ≤ 8
  mail : ∀ p x, box p = some x → Mail h.bytes x (C.mail p)

variable {h h' : Heap} {T : Table Use} {H : ℕ → Option Filehandle} {B : ℕ → Option PipeBuffer}
  {box : ℕ → Option ℕ} {C : Contents} {a b n : ℕ} {fh : Filehandle} {pb pb' : PipeBuffer}

/-- A piece has one use. -/
theorem sameUse {n n' : ℕ} {u u' : Use} (hu : T a = some ⟨n, u⟩) (hu' : T a = some ⟨n', u'⟩) : u = u' := by
  have he := Option.some.inj (hu.symm.trans hu')
  exact congrArg Piece.use he

/-- Every object is in a piece of the new table, with the same bytes. -/
theorem Stored.transfer {T' : Table Use} (hS : Stored h T H B box C) (hT' : Holds kernelRegion h' T')
    (hhandle : ∀ a fh, H a = some fh → T' a = T a) (hpipe : ∀ b pb, B b = some pb → T' b = T b)
    (hdata : ∀ b pb, B b = some pb → T' pb.data = T pb.data)
    (hbox : ∀ p x, box p = some x → T' x = T x)
    (hsame : ∀ a x, T a = some x → T' a = some x → ∀ i, i < x.size → h'.bytes (a + i) = h.bytes (a + i)) :
    Stored h' T' H B box C := by
  refine ⟨hT', ?_, ?_, ?_, hS.fits, ?_, ?_, hS.room, ?_⟩
  · intro a fh hfh
    rw [hhandle a fh hfh]
    exact hS.handle a fh hfh
  · intro b pb hb
    rw [hpipe b pb hb]
    exact hS.pipe b pb hb
  · intro b pb hb
    rw [hdata b pb hb]
    exact hS.data b pb hb
  · intro b pb hb
    have hpiece := hS.data b pb hb
    have hfits := hS.fits b pb hb
    rw [← hS.text b pb hb]
    apply loadBytes_congr
    intro i hi
    exact hsame pb.data _ hpiece ((hdata b pb hb).trans hpiece) i (by show i < pb.alloc; omega)
  · intro p x hx
    rw [hbox p x hx]
    exact hS.owned p x hx
  · intro p x hx
    have hpiece := hS.owned p x hx
    have hroom := hS.room p x hx
    refine (hS.mail p x hx).move ?_
    intro i hi
    refine hsame x _ hpiece ((hbox p x hx).trans hpiece) i ?_
    show i < 8 * MESSAGE_SIZE
    exact lt_of_lt_of_le hi (Nat.mul_le_mul_right _ hroom)

/-- **Requests.**  Nothing stood at the new address. -/
theorem Stored.alloc (hS : Stored h T H B box C) (hok : buddyAlloc .kernel h n = .ok (a, h')) :
    T a = none ∧ H a = none ∧ B a = none ∧
      ∀ use, Stored h' (Function.update T a (some ⟨n, use⟩)) H B box C := by
  obtain ⟨hnone, hsame, hT'⟩ := hS.holds.alloc hok
  have hne : ∀ {x y}, T x = some y → x ≠ a := by
    intro x y hy he
    rw [he, hnone] at hy
    cases hy
  refine ⟨hnone, ?_, ?_, ?_⟩
  · cases hH : H a with
    | none => rfl
    | some fh => exact absurd rfl (hne (hS.handle a fh hH))
  · cases hB : B a with
    | none => rfl
    | some pb => exact absurd rfl (hne (hS.pipe a pb hB))
  · intro use
    refine hS.transfer (hT' use) ?_ ?_ ?_ ?_ fun x y hy _ => hsame x y hy
    · exact fun x fh hfh => Function.update_of_ne (hne (hS.handle x fh hfh)) _ _
    · exact fun x pb hb => Function.update_of_ne (hne (hS.pipe x pb hb)) _ _
    · exact fun x pb hb => Function.update_of_ne (hne (hS.data x pb hb)) _ _
    · exact fun p x hx => Function.update_of_ne (hne (hS.owned p x hx)) _ _

/-- **Releases** of a piece in which no object lies any more. -/
theorem Stored.free {x : Piece Use} (hS : Stored h T H B box C) (hx : T a = some x) (hH : H a = none)
    (hB : B a = none) (hdata : ∀ b pb, B b = some pb → pb.data ≠ a) (hbox : ∀ p, box p ≠ some a) :
    ∃ h', buddyFree h a = .ok h' ∧ Stored h' (Function.update T a none) H B box C := by
  obtain ⟨h', hok, hT', hsame⟩ := hS.holds.free hx
  refine ⟨h', hok, hS.transfer hT' ?_ ?_ ?_ ?_ fun x y _ hy => hsame x y hy⟩
  · intro y fh hy
    apply Function.update_of_ne
    intro he
    rw [he, hH] at hy
    cases hy
  · intro y pb hy
    apply Function.update_of_ne
    intro he
    rw [he, hB] at hy
    cases hy
  · intro y pb hy
    exact Function.update_of_ne (hdata y pb hy) _ _
  · intro p y hy
    apply Function.update_of_ne
    intro he
    exact hbox p (by rw [hy, he])

/-- **A handle** and its memory go. -/
theorem Stored.dropHandle (hS : Stored h T H B box C) (hfh : H a = some fh) :
    ∃ h', buddyFree h a = .ok h' ∧
      Stored h' (Function.update T a none) (Function.update H a none) B box C := by
  have hT := hS.handle a fh hfh
  have hS' : Stored h T (Function.update H a none) B box C := by
    refine ⟨hS.holds, ?_, hS.pipe, hS.data, hS.fits, hS.text, hS.owned, hS.room, hS.mail⟩
    exact fun y g hg => hS.handle y g (update_none_eq_some hg).2
  refine hS'.free hT (Function.update_self _ _ _) ?_ ?_ ?_
  · cases hB : B a with
    | none => rfl
    | some pb =>
      cases sameUse hT (hS.pipe a pb hB)
  · intro c pb hc he
    cases sameUse hT (he ▸ hS.data c pb hc)
  · intro p hp
    cases sameUse hT (hS.owned p a hp)

/-- **A pipe** and its memory go. -/
theorem Stored.dropPipe (hS : Stored h T H B box C) (hb : B b = some pb) :
    ∃ h₁ h₂ T', buddyFree h pb.data = .ok h₁ ∧ buddyFree h₁ b = .ok h₂ ∧
      Stored h₂ T' H (Function.update B b none) box C := by
  have hT := hS.pipe b pb hb
  have hTd := hS.data b pb hb
  have hS' : Stored h T H (Function.update B b none) box C := by
    refine ⟨hS.holds, hS.handle, ?_, ?_, ?_, ?_, hS.owned, hS.room, hS.mail⟩
    · exact fun c x hx => hS.pipe c x (update_none_eq_some hx).2
    · exact fun c x hx => hS.data c x (update_none_eq_some hx).2
    · exact fun c x hx => hS.fits c x (update_none_eq_some hx).2
    · exact fun c x hx => hS.text c x (update_none_eq_some hx).2
  -- no object lies in a piece with another use
  have hH : ∀ {y x}, T y = some x → x.use ≠ .handle → H y = none := by
    intro y x hy huse
    cases hH : H y with
    | none => rfl
    | some fh =>
      rw [hS.handle y fh hH] at hy
      obtain rfl := Option.some.inj hy
      exact absurd rfl huse
  have hbox : ∀ {y x}, T y = some x → (∀ p, x.use ≠ .box p) → ∀ p, box p ≠ some y := by
    intro y x hy huse p hp
    rw [hS.owned p y hp] at hy
    obtain rfl := Option.some.inj hy
    exact huse p rfl
  obtain ⟨h₁, hok₁, hS₁⟩ := hS'.free hTd (hH hTd (by simp)) (by
      by_cases he : pb.data = b
      · rw [he, Function.update_self]
      · rw [Function.update_of_ne he]
        cases hB : B pb.data with
        | none => rfl
        | some x => cases sameUse hTd (hS.pipe pb.data x hB)) (by
      intro c x hx he
      obtain ⟨hc, hx'⟩ := update_none_eq_some hx
      cases sameUse hTd (he ▸ hS.data c x hx')
      exact hc rfl) (hbox hTd (by simp))
  have hne : b ≠ pb.data := by
    intro he
    rw [← he] at hTd
    cases sameUse hT hTd
  have hT₁ : Function.update T pb.data none b = some ⟨24, .pipe⟩ := by
    rw [Function.update_of_ne hne]
    exact hT
  obtain ⟨h₂, hok₂, hS₂⟩ := hS₁.free hT₁ (hH hT (by simp)) (Function.update_self _ _ _) (by
      intro c x hx he
      cases sameUse hT (he ▸ hS.data c x (update_none_eq_some hx).2)) (hbox hT (by simp))
  exact ⟨h₁, h₂, _, hok₁, hok₂, hS₂⟩

/-- **A mailbox** and its memory go. -/
theorem Stored.dropBox {p x : ℕ} (hS : Stored h T H B box C) (hx : box p = some x) :
    ∃ h' T', buddyFree h x = .ok h' ∧ Stored h' T' H B (Function.update box p none) C := by
  have hT := hS.owned p x hx
  have hS' : Stored h T H B (Function.update box p none) C :=
    ⟨hS.holds, hS.handle, hS.pipe, hS.data, hS.fits, hS.text,
      fun q y hy => hS.owned q y (update_none_eq_some hy).2, fun q y hy => hS.room q y (update_none_eq_some hy).2,
      fun q y hy => hS.mail q y (update_none_eq_some hy).2⟩
  obtain ⟨h', hok, hS''⟩ := hS'.free hT (by
      cases hH : H x with
      | none => rfl
      | some fh => cases sameUse hT (hS.handle x fh hH)) (by
      cases hB : B x with
      | none => rfl
      | some pb => cases sameUse hT (hS.pipe x pb hB)) (by
      intro c pb hc he
      cases sameUse hT (he ▸ hS.data c pb hc)) (by
      intro q hq
      obtain ⟨hne, hq'⟩ := update_none_eq_some hq
      cases sameUse hT (hS.owned q x hq')
      exact hne rfl)
  exact ⟨h', _, hok, hS''⟩

/-! ### Records -/

/-- A handle is written into its piece. -/
theorem Stored.setHandle (hS : Stored h T H B box C) (hT : T a = some ⟨36, .handle⟩) (fh : Filehandle) :
    Stored h T (Function.update H a (some fh)) B box C := by
  refine ⟨hS.holds, ?_, hS.pipe, hS.data, hS.fits, hS.text, hS.owned, hS.room, hS.mail⟩
  intro x g hg
  by_cases hx : x = a
  · rw [hx]
    exact hT
  · rw [Function.update_of_ne hx] at hg
    exact hS.handle x g hg

/-- The contents with other bytes in one pipe. -/
def Contents.setText (C : Contents) (b : ℕ) (bs : List UInt8) : Contents :=
  { C with text := Function.update C.text b bs }

/-- The contents with other messages in one mailbox. -/
def Contents.setMail (C : Contents) (p : ℕ) (msgs : List Message) : Contents :=
  { C with mail := Function.update C.mail p msgs }

@[simp] theorem Contents.text_setText (C : Contents) (b : ℕ) (bs : List UInt8) :
    (C.setText b bs).text b = bs := Function.update_self _ _ _

theorem Contents.text_setText_of_ne (C : Contents) {b c : ℕ} (bs : List UInt8) (hc : c ≠ b) :
    (C.setText b bs).text c = C.text c := Function.update_of_ne hc _ _

@[simp] theorem Contents.mail_setMail (C : Contents) (p : ℕ) (msgs : List Message) :
    (C.setMail p msgs).mail p = msgs := Function.update_self _ _ _

theorem Contents.mail_setMail_of_ne (C : Contents) {p q : ℕ} (msgs : List Message) (hq : q ≠ p) :
    (C.setMail p msgs).mail q = C.mail q := Function.update_of_ne hq _ _

theorem Contents.setText_self (C : Contents) (b : ℕ) : C.setText b (C.text b) = C := by
  rw [Contents.setText, Function.update_eq_self]

theorem Contents.setText_setText (C : Contents) (b : ℕ) (bs bs' : List UInt8) :
    (C.setText b bs).setText b bs' = C.setText b bs' := by
  simp only [Contents.setText, Function.update_idem]

/-- A pipe is written into its piece. -/
theorem Stored.setPipe (hS : Stored h T H B box C) (pb : PipeBuffer) (hT : T b = some ⟨24, .pipe⟩)
    (hd : T pb.data = some ⟨pb.alloc, .data b⟩) (hfits : pb.len ≤ pb.alloc) :
    Stored h T H (Function.update B b (some pb)) box
      (C.setText b (loadBytes h.bytes pb.data pb.len)) := by
  refine ⟨hS.holds, hS.handle, ?_, ?_, ?_, ?_, hS.owned, hS.room, hS.mail⟩
  · intro c x hx
    rcases update_eq_some hx with ⟨rfl, rfl⟩ | ⟨-, hx'⟩
    · exact hT
    · exact hS.pipe c x hx'
  · intro c x hx
    rcases update_eq_some hx with ⟨rfl, rfl⟩ | ⟨-, hx'⟩
    · exact hd
    · exact hS.data c x hx'
  · intro c x hx
    rcases update_eq_some hx with ⟨rfl, rfl⟩ | ⟨-, hx'⟩
    · exact hfits
    · exact hS.fits c x hx'
  · intro c x hx
    rcases update_eq_some hx with ⟨rfl, rfl⟩ | ⟨hc, hx'⟩
    · rw [C.text_setText]
    · rw [C.text_setText_of_ne _ hc]
      exact hS.text c x hx'

/-- The same without a change of the buffer. -/
theorem Stored.keepPipe (hS : Stored h T H B box C) (hb : B b = some pb) (hd : pb'.data = pb.data)
    (ha : pb'.alloc = pb.alloc) (hl : pb'.len = pb.len) :
    Stored h T H (Function.update B b (some pb')) box C := by
  have hS' := hS.setPipe pb' (hS.pipe b pb hb) (by rw [hd, ha]; exact hS.data b pb hb)
    (by rw [hl, ha]; exact hS.fits b pb hb)
  rw [hd, hl, hS.text b pb hb, C.setText_self] at hS'
  exact hS'

/-- A process owns fewer mailboxes. -/
theorem Stored.boxes {box' : ℕ → Option ℕ} (hS : Stored h T H B box C)
    (hbox : ∀ p x, box' p = some x → box p = some x) : Stored h T H B box' C :=
  ⟨hS.holds, hS.handle, hS.pipe, hS.data, hS.fits, hS.text,
    fun p x hx => hS.owned p x (hbox p x hx), fun p x hx => hS.room p x (hbox p x hx),
    fun p x hx => hS.mail p x (hbox p x hx)⟩

/-- A process gets a mailbox. -/
theorem Stored.setBox {p x : ℕ} (hS : Stored h T H B box C) (msgs : List Message)
    (hT : T x = some ⟨8 * MESSAGE_SIZE, .box p⟩) (hroom : msgs.length ≤ 8) (hmail : Mail h.bytes x msgs) :
    Stored h T H B (Function.update box p (some x)) (C.setMail p msgs) := by
  refine ⟨hS.holds, hS.handle, hS.pipe, hS.data, hS.fits, hS.text, ?_, ?_, ?_⟩
  · intro q y hy
    rcases update_eq_some hy with ⟨rfl, rfl⟩ | ⟨-, hy'⟩
    · exact hT
    · exact hS.owned q y hy'
  · intro q y hy
    rcases update_eq_some hy with ⟨rfl, rfl⟩ | ⟨hq, hy'⟩
    · rw [C.mail_setMail]
      exact hroom
    · rw [C.mail_setMail_of_ne _ hq]
      exact hS.room q y hy'
  · intro q y hy
    rcases update_eq_some hy with ⟨rfl, rfl⟩ | ⟨hq, hy'⟩
    · rw [C.mail_setMail]
      exact hmail
    · rw [C.mail_setMail_of_ne _ hq]
      exact hS.mail q y hy'

/-! ### Stores -/

/-- **A store** into the piece at `a`: the contents of all other buffers stay. -/
theorem Stored.write {x : Piece Use} {bytes : Memory} {C' : Contents} (hS : Stored h T H B box C)
    (hx : T a = some x) (hout : ∀ y, y < a ∨ a + x.size ≤ y → bytes y = h.bytes y)
    (htext : ∀ b pb, B b = some pb → pb.data ≠ a → C'.text b = C.text b)
    (htext' : ∀ b pb, B b = some pb → pb.data = a → C'.text b = loadBytes bytes pb.data pb.len)
    (hmail : ∀ p y, box p = some y → y ≠ a → C'.mail p = C.mail p)
    (hmail' : ∀ p, box p = some a → (C'.mail p).length ≤ 8 ∧ Mail bytes a (C'.mail p)) :
    Stored { h with bytes := bytes } T H B box C' := by
  have hapart := fun {y z} (hz : T y = some z) (hne : y ≠ a) i (hi : i < z.size) =>
    hS.holds.write_apart hx hout hz hne hi
  refine ⟨hS.holds.write hx hout, hS.handle, hS.pipe, hS.data, hS.fits, ?_, hS.owned, ?_, ?_⟩
  · intro b pb hb
    by_cases hd : pb.data = a
    · exact (htext' b pb hb hd).symm
    · have hfits := hS.fits b pb hb
      rw [htext b pb hb hd, ← hS.text b pb hb]
      apply loadBytes_congr
      intro i hi
      exact hapart (hS.data b pb hb) hd i (by show i < pb.alloc; omega)
  · intro p y hy
    by_cases he : y = a
    · exact (hmail' p (he ▸ hy)).1
    · rw [hmail p y hy he]
      exact hS.room p y hy
  · intro p y hy
    by_cases he : y = a
    · rw [he]
      exact (hmail' p (he ▸ hy)).2
    · have hroom := hS.room p y hy
      rw [hmail p y hy he]
      refine (hS.mail p y hy).move ?_
      intro i hi
      refine hapart (hS.owned p y hy) he i ?_
      show i < 8 * MESSAGE_SIZE
      exact lt_of_lt_of_le hi (Nat.mul_le_mul_right _ hroom)

/-- A store into the data of a pipe. -/
theorem Stored.writeData (hS : Stored h T H B box C) (bytes : Memory) (hb : B b = some pb)
    (hout : ∀ y, y < pb.data ∨ pb.data + pb.alloc ≤ y → bytes y = h.bytes y) :
    Stored { h with bytes := bytes } T H B box (C.setText b (loadBytes bytes pb.data pb.len)) := by
  have hT := hS.data b pb hb
  refine hS.write hT hout ?_ ?_ (fun _ _ _ _ => rfl) ?_
  · intro c x hx hne
    have hc : c ≠ b := by
      intro he
      obtain rfl : x = pb := Option.some.inj (hx.symm.trans (he ▸ hb))
      exact hne rfl
    rw [C.text_setText_of_ne _ hc]
  · intro c x hx he
    cases sameUse hT (he ▸ hS.data c x hx)
    obtain rfl : x = pb := Option.some.inj (hx.symm.trans hb)
    rw [C.text_setText]
  · intro p hp
    cases sameUse hT (hS.owned p _ hp)

/-- A store into a mailbox. -/
theorem Stored.writeBox {p x : ℕ} {msgs : List Message} {bytes : Memory} (hS : Stored h T H B box C)
    (hx : box p = some x) (hout : ∀ y, y < x ∨ x + 8 * MESSAGE_SIZE ≤ y → bytes y = h.bytes y)
    (hroom : msgs.length ≤ 8) (hmail : Mail bytes x msgs) :
    Stored { h with bytes := bytes } T H B box (C.setMail p msgs) := by
  have hT := hS.owned p x hx
  refine hS.write hT hout (fun _ _ _ _ => rfl) ?_ ?_ ?_
  · intro c y hy he
    cases sameUse hT (he ▸ hS.data c y hy)
  · intro q y hy hne
    have hq : q ≠ p := by
      intro he
      rw [he, hx] at hy
      exact hne (Option.some.inj hy).symm
    rw [C.mail_setMail_of_ne _ hq]
  · intro q hq
    cases sameUse hT (hS.owned q x hq)
    rw [C.mail_setMail]
    exact ⟨hroom, hmail⟩

/-- A store into a piece in which no buffer lies yet. -/
theorem Stored.writeFree {x : Piece Use} {bytes : Memory} (hS : Stored h T H B box C) (hx : T a = some x)
    (hout : ∀ y, y < a ∨ a + x.size ≤ y → bytes y = h.bytes y)
    (hdata : ∀ b pb, B b = some pb → pb.data ≠ a) (hbox : ∀ p, box p ≠ some a) :
    Stored { h with bytes := bytes } T H B box C :=
  hS.write hx hout (fun _ _ _ _ => rfl) (fun b pb hb he => absurd he (hdata b pb hb))
    (fun _ _ _ _ => rfl) fun p hp => absurd hp (hbox p)

end AdelaideOS.Kernel
