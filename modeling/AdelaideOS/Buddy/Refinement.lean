import AdelaideOS.Buddy.Grains

/-!
# `buddy.c` refines the lists of blocks

`Rep` ties a heap to an abstract state: its list heads and links represent `free`, its granule array
records the listed, floating and used blocks.  Every function of `buddy.c` started in a represented,
well-formed state passes all of its assertions and ends in the state that the abstract operation gives:

* **`splitLoop_spec`**, **`takeBlock_spec`**, **`buddyAlloc_spec`** for allocation;
* **`mergeLoop_spec`**, **`buddyFree_spec`** for release.

Each result carries `Keeps`: no byte of a used block, and none outside the managed memory, is written.
-/

namespace AdelaideOS.Buddy

open AdelaideOS.Lib.Bytes AdelaideOS.Lib.Links AdelaideOS.Lib.Dyadic

/-- The heap of size `2 ^ u` at address `base` represents the abstract state. -/
structure Rep (u base : ℕ) (h : Heap) (free : ℕ → List ℕ) (float used : Set Block) : Prop where
  lower_eq : h.ma.lower = 8
  upper_eq : h.ma.upper = u
  mem_eq : h.ma.mem = base
  lists : Lists h free
  grains : Grains u h.ma.blocks (freeSet free ∪ float) used

/-- No byte of a block of `used`, and no byte outside the managed memory, differs. -/
def Keeps (u base : ℕ) (used : Set Block) (h h' : Heap) : Prop :=
  ∀ a, (a < base ∨ base + 2 ^ u ≤ a ∨ ∃ p ∈ used, base ≤ a ∧ p.Has (a - base)) →
    h'.bytes a = h.bytes a

theorem Keeps.trans {u base : ℕ} {used : Set Block} {h h' h'' : Heap} (h1 : Keeps u base used h h')
    (h2 : Keeps u base used h' h'') : Keeps u base used h h'' :=
  fun a ha => (h2 a ha).trans (h1 a ha)

theorem Keeps.of_bytes_eq {u base : ℕ} {used : Set Block} {h h' : Heap} (he : h'.bytes = h.bytes) :
    Keeps u base used h h' := fun a _ => congrFun he a

variable {u base : ℕ} {h : Heap} {free : ℕ → List ℕ} {float used : Set Block} {b m : ℕ}

/-- The listed blocks of a well-formed state are separate. -/
theorem Wf.separate (hW : Wf u free float used) (hu : u ≤ 30) : Separate free := by
  have hin : ∀ k, ∀ x ∈ free k, (x, k) ∈ (freeSet free ∪ float) ∪ used :=
    fun k x hx => Or.inl (Or.inl hx)
  have hstart : ∀ k, ∀ x ∈ free k, ∀ j, ∀ y ∈ free j, x ≤ y → y < x + 256 → (x, k) = (y, j) := by
    intro k x hx j y hy hxy hyx
    refine hW.tiling.eq_of_has_start (hin k x hx) (hin j y hy) ⟨hxy, ?_⟩
    have h8 : 2 ^ 8 ≤ 2 ^ k :=
      Nat.pow_le_pow_right (by decide) (hW.tiling.lower_le _ (hin k x hx))
    show y < x + 2 ^ k
    omega
  refine ⟨hW.nodup, ?_, ?_, ?_⟩
  · intro k x hx
    have hb := hW.tiling.bounded _ (hin k x hx)
    have hp := Nat.two_pow_pos k
    have hle : 2 ^ u ≤ 2 ^ 30 := Nat.pow_le_pow_right (by decide) hu
    simp only at hb
    omega
  · intro k x hx j y hy hne
    by_contra hnot
    rcases Nat.lt_or_ge x y with hlt | hge
    · have he := hstart k x hx j y hy (by omega) (by omega)
      exact hne (congrArg Prod.fst he)
    · have he := hstart j y hy k x hx hge (by omega)
      exact hne (congrArg Prod.fst he).symm
  · intro k j x hx hy
    exact congrArg Prod.snd (hstart k x hx j x hy (le_refl x) (by omega))

/-- A floating block is apart from the listed ones. -/
theorem Wf.fresh (hW : Wf u free float used) (hu : u ≤ 30) (hb : (b, m) ∈ float) : Fresh free b := by
  have hbT : (b, m) ∈ (freeSet free ∪ float) ∪ used := Or.inl (Or.inr hb)
  have hbd := hW.tiling.bounded _ hbT
  have hp := Nat.two_pow_pos m
  have hle : 2 ^ u ≤ 2 ^ 30 := Nat.pow_le_pow_right (by decide) hu
  simp only at hbd
  refine ⟨by omega, ?_⟩
  intro k x hx
  have hxT : (x, k) ∈ (freeSet free ∪ float) ∪ used := Or.inl (Or.inl hx)
  have hbm : 2 ^ 8 ≤ 2 ^ m := Nat.pow_le_pow_right (by decide) (hW.tiling.lower_le _ hbT)
  have hxk : 2 ^ 8 ≤ 2 ^ k := Nat.pow_le_pow_right (by decide) (hW.tiling.lower_le _ hxT)
  have hne : (x, k) ≠ (b, m) := fun he => hW.float_free _ hb (he ▸ hx)
  by_contra hnot
  rcases Nat.lt_or_ge x b with hlt | hge
  · exact hne (hW.tiling.eq_of_has_start hxT hbT ⟨by show x ≤ b; omega, by show b < x + 2 ^ k; omega⟩)
  · exact hne
      (hW.tiling.eq_of_has_start hbT hxT ⟨by show b ≤ x; omega, by show x < b + 2 ^ m; omega⟩).symm

/-- Writing first words of idle blocks touches no used block and nothing outside the heap. -/
theorem ListStep.keeps {h' : Heap} {S : Set ℕ} (hW : Wf u free float used) (hmem : h.ma.mem = base)
    (hs : ListStep h h' S) (hS : ∀ x ∈ S, ∃ k, (x, k) ∈ freeSet free ∪ float) :
    Keeps u base used h h' := by
  intro a ha
  refine hs.bytes a ?_
  intro x hx
  obtain ⟨k, hk⟩ := hS x hx
  have hbd := hW.tiling.bounded _ (Or.inl hk)
  have h8 : 2 ^ 8 ≤ 2 ^ k :=
    Nat.pow_le_pow_right (by decide) (hW.tiling.lower_le _ (Or.inl hk))
  simp only at hbd
  rw [hmem]
  rcases ha with ha | ha | ⟨p, hp, hba, hpa⟩
  · left
    omega
  · right
    omega
  · by_contra hnot
    -- the address would lie both in the used block and in the idle one
    have hin : Block.Has (x, k) (a - base) := ⟨by show x ≤ _; omega, by show _ < x + 2 ^ k; omega⟩
    have he := hW.tiling.disjoint _ (Or.inr hp) _ (Or.inl hk) _ hpa hin
    exact hW.used_idle p hp (he ▸ hk)

/-! ### The list operations on represented states -/

theorem Rep.remove (hu : u ≤ 30) (hW : Wf u free float used) (hR : Rep u base h free float used)
    (hb : b ∈ free m) :
    ∃ h', removeFromFreelist h m b = .ok h' ∧
      Rep u base h' (Function.update free m ((free m).erase b)) (float ∪ {(b, m)}) used ∧
      Keeps u base used h h' := by
  obtain ⟨h', hok, hL, hs⟩ := removeFromFreelist_spec hR.lists (hW.separate hu) hb
  have hall : freeSet (Function.update free m ((free m).erase b)) ∪ (float ∪ {(b, m)})
      = freeSet free ∪ float := by
    rw [freeSet_erase hW.nodup]
    ext p
    by_cases hp : p = (b, m)
    · subst hp
      simp [mem_freeSet, hb]
    · simp [hp]
  refine ⟨h', hok, ⟨?_, ?_, ?_, hL, ?_⟩, hs.keeps hW hR.mem_eq fun x hx => ⟨m, Or.inl hx⟩⟩
  · rw [hs.lower, hR.lower_eq]
  · rw [hs.upper, hR.upper_eq]
  · rw [hs.mem, hR.mem_eq]
  · rw [hall, hs.blocks]
    exact hR.grains

theorem Rep.add (hu : u ≤ 30) (hW : Wf u free float used) (hR : Rep u base h free float used)
    (hb : (b, m) ∈ float) :
    ∃ h', addToFreelist h m b = .ok h' ∧
      Rep u base h' (Function.update free m (b :: free m)) (float \ {(b, m)}) used ∧
      Keeps u base used h h' := by
  have hbd := hW.tiling.bounded _ (Or.inl (Or.inr hb))
  obtain ⟨h', hok, hL, hs⟩ := addToFreelist_spec hR.lists (hW.separate hu) (hW.fresh hu hb)
    (by rw [hR.upper_eq]; exact hbd)
  have hall : freeSet (Function.update free m (b :: free m)) ∪ (float \ {(b, m)})
      = freeSet free ∪ float := by
    rw [freeSet_cons]
    ext p
    by_cases hp : p = (b, m)
    · subst hp
      simp [hb]
    · simp [hp]
  refine ⟨h', hok, ⟨?_, ?_, ?_, hL, ?_⟩, hs.keeps hW hR.mem_eq ?_⟩
  · rw [hs.lower, hR.lower_eq]
  · rw [hs.upper, hR.upper_eq]
  · rw [hs.mem, hR.mem_eq]
  · rw [hall, hs.blocks]
    exact hR.grains
  · intro x hx
    obtain rfl : x = b := hx
    exact ⟨m, Or.inr hb⟩

/-! ### Granule updates on represented states -/

/-- The info of an idle block, as the source reads it. -/
theorem Rep.idle_reads (hR : Rep u base h free float used) (hb : (b, m) ∈ freeSet free ∪ float) :
    isUsed h b = false ∧ getSizem h b = m := by
  have hi := hR.grains.idle_info _ hb
  simp only at hi
  rw [isUsed, getSizem, hR.lower_eq]
  show (h.ma.blocks (b / 256)).used = false ∧ (h.ma.blocks (b / 256)).sizem = m
  rw [hi]
  exact ⟨rfl, rfl⟩

/-- The info of a used block, as the source reads it. -/
theorem Rep.used_reads (hR : Rep u base h free float used) (hb : (b, m) ∈ used) :
    isUsed h b = true ∧ getSizem h b = m := by
  have hi := hR.grains.used_info _ hb
  simp only at hi
  rw [isUsed, getSizem, hR.lower_eq]
  show (h.ma.blocks (b / 256)).used = true ∧ (h.ma.blocks (b / 256)).sizem = m
  rw [hi]
  exact ⟨rfl, rfl⟩

/-- Changing granules only keeps lists and parameters. -/
theorem Rep.of_blocks {h' : Heap} {float' used' : Set Block} (hR : Rep u base h free float used)
    (hma : h'.ma = { h.ma with blocks := h'.ma.blocks }) (hbytes : h'.bytes = h.bytes)
    (hG : Grains u h'.ma.blocks (freeSet free ∪ float') used') :
    Rep u base h' free float' used' := by
  have hmem : h'.ma.mem = h.ma.mem := by rw [hma]
  have hfl : h'.ma.freelist = h.ma.freelist := by rw [hma]
  have hlink : link h' = link h := by
    funext x
    rw [link, link, hbytes, hmem]
  refine ⟨?_, ?_, hmem.trans hR.mem_eq, ?_, hG⟩
  · rw [hma]
    exact hR.lower_eq
  · rw [hma]
    exact hR.upper_eq
  · intro k
    rw [hlink, hfl]
    exact hR.lists k

/-- `set_sizem` on a granule whose block is not used. -/
theorem setSizem_blocks (hlow : h.ma.lower = 8) {s : ℕ} (hs : s < 128)
    (hi : (h.ma.blocks (b / 256)).used = false) :
    (setSizem h b s).ma.blocks = Function.update h.ma.blocks (b / 256) ⟨s, false⟩ := by
  rw [setSizem, setBlock, hlow, Nat.mod_eq_of_lt hs]
  show Function.update h.ma.blocks (b / 256) ⟨s, (h.ma.blocks (b / 256)).used⟩ = _
  rw [hi]

theorem setUsed_blocks (hlow : h.ma.lower = 8) {v : Bool} {s : ℕ}
    (hi : (h.ma.blocks (b / 256)).sizem = s) :
    (setUsed h b v).ma.blocks = Function.update h.ma.blocks (b / 256) ⟨s, v⟩ := by
  rw [setUsed, setBlock, hlow]
  show Function.update h.ma.blocks (b / 256) ⟨(h.ma.blocks (b / 256)).sizem, v⟩ = _
  rw [hi]

theorem setUsed_bytes (h : Heap) (b : ℕ) (v : Bool) : (setUsed h b v).bytes = h.bytes := rfl

/-- A granule without a block reads as unused. -/
theorem Rep.upper_unused (hW : Wf u free {(b, m + 1)} used) (hm : 8 ≤ m)
    (hR : Rep u base h free {(b, m + 1)} used) :
    (h.ma.blocks ((b + 2 ^ m) / 256)).used = false := by
  have hbT : (b, m + 1) ∈ (freeSet free ∪ {(b, m + 1)}) ∪ used := Or.inl (Or.inr rfl)
  have hbd := hW.tiling.bounded _ hbT
  have hle := hW.tiling.le_upper _ hbT
  simp only [pow_succ] at hbd hle
  have hpow : 2 ^ u = 2 ^ (u - 8) * 256 := by
    rw [show (256 : ℕ) = 2 ^ 8 from rfl, ← pow_add]
    congr 1
    omega
  have hpos := Nat.two_pow_pos m
  have hblank := hR.grains.other_info ((b + 2 ^ m) / 256) (by
      rw [Nat.div_lt_iff_lt_mul (by decide), ← hpow]
      omega) ?_
  · rw [hblank]
  · intro p hp
    by_cases hpe : p = (b, m + 1)
    · rw [hpe]
      exact (grain_half_ne hm).symm
    · exact grain_ne_upper hW.tiling hbT hm hp hpe

/-! ### Splitting -/

/-- **One split.**  The first block of order `m + 1` is halved as `splitFree` says. -/
theorem splitOnce_spec (hu : u ≤ 30) (hm : 8 ≤ m) (hW : Wf u free ∅ used)
    (hR : Rep u base h free ∅ used) {rest : List ℕ} (hb : free (m + 1) = b :: rest) :
    ∃ h', splitOnce h (m + 1) = .ok h' ∧ Rep u base h' (splitFree free m) ∅ used ∧
      Keeps u base used h h' := by
  have hmem : b ∈ free (m + 1) := by rw [hb]; exact List.mem_cons_self
  have hhead : h.ma.freelist (m + 1) = b := hR.lists.head_eq hb
  obtain ⟨hun, hsz⟩ := hR.idle_reads (b := b) (m := m + 1) (Or.inl hmem)
  -- remove the block: it floats
  obtain ⟨h₁, hok₁, hR₁, hK₁⟩ := hR.remove hu hW hmem
  have hW₁ := hW.remove hmem
  rw [Set.empty_union] at hR₁ hW₁
  have hmu : m + 1 ≤ u := hW₁.tiling.le_upper (b, m + 1) (Or.inl (Or.inr rfl))
  -- record the halves
  have hlow₁ := hR₁.lower_eq
  have hinfo := hR₁.grains.idle_info (b, m + 1) (Or.inr rfl)
  simp only at hinfo
  have hblank := hR₁.upper_unused hW₁ hm
  have hb₂ : (setSizem h₁ b m).ma.blocks = Function.update h₁.ma.blocks (b / 256) ⟨m, false⟩ :=
    setSizem_blocks hlow₁ (by omega) (by rw [hinfo])
  have hb₃ : (setSizem (setSizem h₁ b m) (b + 2 ^ m) m).ma.blocks
      = Function.update (Function.update h₁.ma.blocks (b / 256) ⟨m, false⟩)
          ((b + 2 ^ m) / 256) ⟨m, false⟩ := by
    rw [setSizem_blocks (h := setSizem h₁ b m) hlow₁ (by omega), hb₂]
    rw [hb₂, Function.update_of_ne (grain_half_ne hm)]
    exact hblank
  have hG₃ := Grains.split hW₁.tiling hR₁.grains (b := b) (m := m) (Or.inr rfl) hm
  have hset : (freeSet (Function.update free (m + 1) ((free (m + 1)).erase b)) ∪ {(b, m + 1)})
      \ {(b, m + 1)} ∪ {(b, m), (b + 2 ^ m, m)}
      = freeSet (Function.update free (m + 1) ((free (m + 1)).erase b))
        ∪ {(b, m), (b + 2 ^ m, m)} := by
    have hnot : (b, m + 1) ∉ freeSet (Function.update free (m + 1) ((free (m + 1)).erase b)) :=
      hW₁.float_free _ rfl
    rw [Set.union_sdiff_right, Set.sdiff_singleton_eq_self hnot]
  rw [hset, ← hb₃] at hG₃
  have hR₃ : Rep u base (setSizem (setSizem h₁ b m) (b + 2 ^ m) m) _
      {(b, m), (b + 2 ^ m, m)} used := hR₁.of_blocks rfl rfl hG₃
  have hW₃ := hW₁.split hm
  -- list the upper half, then the lower
  obtain ⟨h₄, hok₄, hR₄, hK₄⟩ := hR₃.add hu hW₃ (b := b + 2 ^ m) (m := m) (Or.inr rfl)
  have hW₄ := hW₃.add (b := b + 2 ^ m) (m := m) (Or.inr rfl)
  have hlow : (b, m) ∈ ({(b, m), (b + 2 ^ m, m)} : Set Block) \ {(b + 2 ^ m, m)} := by
    refine ⟨Or.inl rfl, ?_⟩
    simp
  obtain ⟨h₅, hok₅, hR₅, hK₅⟩ := hR₄.add hu hW₄ hlow
  have hfl : (({(b, m), (b + 2 ^ m, m)} : Set Block) \ {(b + 2 ^ m, m)}) \ {(b, m)} = ∅ := by
    ext p
    simp only [Set.mem_sdiff, Set.mem_insert_iff, Set.mem_singleton_iff, Set.mem_empty_iff_false,
      iff_false]
    tauto
  rw [hfl] at hR₅
  refine ⟨h₅, ?_, ?_, ?_⟩
  · have hu₁ := hR₃.idle_reads (b := b) (m := m) (Or.inr (Or.inl rfl))
    have hu₂ := hR₃.idle_reads (b := b + 2 ^ m) (m := m) (Or.inr (Or.inr rfl))
    simp only [splitOnce, hhead, Nat.add_sub_cancel, Nat.one_shiftLeft, hun, hsz, hok₁, hu₁.1, hu₂.1,
      hok₄, hok₅, assert_pos, ok_bind]
  · rw [splitFree_eq hb]
    exact hR₅
  · have hK₃ : Keeps u base used h₁ (setSizem (setSizem h₁ b m) (b + 2 ^ m) m) :=
      Keeps.of_bytes_eq rfl
    exact ((hK₁.trans hK₃).trans hK₄).trans hK₅

/-- **The splitting loop** refines `splitTo`. -/
theorem splitLoop_spec (hu : u ≤ 30) (hm : 8 ≤ m) (cm : ℕ) :
    ∀ (h : Heap) (free : ℕ → List ℕ) (rest : List ℕ), m ≤ cm → Wf u free ∅ used →
      Rep u base h free ∅ used → free cm = b :: rest →
      ∃ h', splitLoop m cm h = .ok h' ∧ Rep u base h' (splitTo m cm free) ∅ used ∧
        Keeps u base used h h' := by
  induction cm with
  | zero =>
    intro h free rest hle hW hR hb
    exact ⟨h, rfl, hR, Keeps.of_bytes_eq rfl⟩
  | succ cm ih =>
    intro h free rest hle hW hR hb
    by_cases hlt : m < cm + 1
    · obtain ⟨h₁, hok, hR₁, hK₁⟩ := splitOnce_spec hu (by omega) hW hR hb
      obtain ⟨h', hok', hR', hK'⟩ := ih h₁ (splitFree free cm) _ (by omega)
        (hW.splitFree (by omega) hb) hR₁ (splitFree_head hb)
      refine ⟨h', ?_, ?_, hK₁.trans hK'⟩
      · rw [splitLoop, if_pos hlt, hok]
        exact hok'
      · rw [splitTo, if_pos hlt]
        exact hR'
    · refine ⟨h, ?_, ?_, Keeps.of_bytes_eq rfl⟩
      · rw [splitLoop, if_neg hlt]
      · rw [splitTo, if_neg hlt]
        exact hR

/-- **Taking a block.**  The first block of list `m` is marked used and taken off its list. -/
theorem takeBlock_spec (hu : u ≤ 30) (hbase : base + 2 ^ u < wordSize) (hW : Wf u free ∅ used)
    (hR : Rep u base h free ∅ used) {rest : List ℕ} (hb : free m = b :: rest) :
    ∃ h', takeBlock h m = .ok (base + b, h') ∧
      Rep u base h' (Function.update free m rest) ∅ (used ∪ {(b, m)}) ∧ Keeps u base used h h' := by
  have hmem : b ∈ free m := by rw [hb]; exact List.mem_cons_self
  have hbT : (b, m) ∈ (freeSet free ∪ ∅) ∪ used := Or.inl (Or.inl hmem)
  have hbd := hW.tiling.bounded _ hbT
  have hpos := Nat.two_pow_pos m
  simp only at hbd
  have hhead : h.ma.freelist m = b := hR.lists.head_eq hb
  obtain ⟨hun, hsz⟩ := hR.idle_reads (b := b) (m := m) (Or.inl hmem)
  have hne : EMPTY ≠ b := (ne_EMPTY_of_lt ((hW.separate hu).bounded m b hmem)).symm
  -- the mark leaves the lists alone, so the removal still works on them
  have hL₁ : Lists (setUsed h b true) free := hR.lists
  obtain ⟨h₂, hok, hL₂, hs⟩ := removeFromFreelist_spec hL₁ (hW.separate hu) hmem
  have herase : (free m).erase b = rest := by rw [hb, List.erase_cons_head]
  have hset := freeSet_erase hW.nodup m b
  rw [herase] at hL₂ hset
  have hinfo := hR.grains.idle_info (b, m) (Or.inl hmem)
  simp only at hinfo
  have hblocks : (setUsed h b true).ma.blocks = Function.update h.ma.blocks (b / 256) ⟨m, true⟩ :=
    setUsed_blocks hR.lower_eq (by rw [hinfo])
  have hG := Grains.mark hW.tiling hR.grains (p := (b, m)) (Or.inl hmem)
  have hall : (freeSet free ∪ ∅) \ {(b, m)} = freeSet (Function.update free m rest) ∪ ∅ := by
    rw [Set.union_empty, Set.union_empty, hset]
  rw [hall, ← hblocks, ← hs.blocks] at hG
  refine ⟨h₂, ?_, ⟨?_, ?_, ?_, hL₂, hG⟩, ?_⟩
  · have hmem₂ : h₂.ma.mem = base := hs.mem.trans hR.mem_eq
    have hadd : (b + base) % wordSize = base + b := by
      rw [Nat.mod_eq_of_lt (by rw [wordSize] at *; omega), Nat.add_comm]
    simp only [takeBlock, hhead, hun, hsz, hok, assert_pos hne, assert_pos, ok_bind, hmem₂, hadd]
    rfl
  · exact hs.lower.trans hR.lower_eq
  · exact hs.upper.trans hR.upper_eq
  · exact hs.mem.trans hR.mem_eq
  · have hK : Keeps u base used (setUsed h b true) h₂ :=
      hs.keeps hW hR.mem_eq fun x hx => ⟨m, Or.inl hx⟩
    exact (Keeps.of_bytes_eq (setUsed_bytes h b true)).trans hK

/-! ### Allocation -/

/-- The doubling loop stops at the first power of two above `nbytes`. -/
theorem mforsizeLoop_spec {nbytes : ℕ} (hn : nbytes < 2 ^ 31) (fuel : ℕ) :
    ∀ k, k ≤ 31 → 31 - k < fuel → ∃ j, mforsizeLoop nbytes fuel (2 ^ k) k = .ok j ∧ k ≤ j ∧ j ≤ 31 ∧
      nbytes < 2 ^ j := by
  induction fuel with
  | zero =>
    intro k _ hf
    omega
  | succ fuel ih =>
    intro k hk hf
    rw [mforsizeLoop]
    by_cases hle : 2 ^ k ≤ nbytes
    · have hlt : k < 31 := by
        by_contra hge
        have := Nat.pow_le_pow_right (show 0 < 2 by decide) (Nat.le_of_not_lt hge)
        omega
      have hdouble : 2 ^ k * 2 % wordSize = 2 ^ (k + 1) := by
        rw [← pow_succ]
        apply Nat.mod_eq_of_lt
        exact Nat.pow_lt_pow_right (by decide) (show k + 1 < 32 by omega)
      rw [if_pos hle, hdouble]
      obtain ⟨j, hok, hkj, hj, hlj⟩ := ih (k + 1) (by omega) (by omega)
      exact ⟨j, hok, by omega, hj, hlj⟩
    · rw [if_neg hle]
      exact ⟨k, rfl, le_refl k, hk, by omega⟩

/-- **Rounding.**  A request below `2 ^ 31` gets an order that fits it. -/
theorem mforsize_spec {ma : Memarea} (hlow : ma.lower = 8) {nbytes : ℕ} (hn : nbytes < 2 ^ 31) :
    ∃ m, mforsize ma nbytes = .ok m ∧ 8 ≤ m ∧ m ≤ 31 ∧ nbytes < 2 ^ m := by
  obtain ⟨j, hok, -, hj, hlj⟩ := mforsizeLoop_spec hn 33 0 (by decide) (by decide)
  rw [pow_zero] at hok
  rw [mforsize, hok, ok_bind, hlow]
  by_cases h8 : 8 ≤ j
  · rw [if_pos h8]
    exact ⟨j, rfl, h8, hj, hlj⟩
  · rw [if_neg h8]
    refine ⟨8, rfl, le_refl 8, by decide, ?_⟩
    have hpow : 2 ^ j ≤ 2 ^ 8 := Nat.pow_le_pow_right (by decide) (by omega)
    omega

/-- The search for a larger block finds the first non-empty list, or runs past `upper`. -/
theorem findLarger_spec (ma : Memarea) (n : ℕ) :
    ∀ cm, ma.upper + 1 ≤ cm + n →
      (findLarger ma n cm ≤ ma.upper ∧ cm ≤ findLarger ma n cm ∧
        ma.freelist (findLarger ma n cm) ≠ EMPTY ∧
        ∀ k, cm ≤ k → k < findLarger ma n cm → ma.freelist k = EMPTY) ∨
      (ma.upper < findLarger ma n cm ∧
        ∀ k, cm ≤ k → k ≤ ma.upper → ma.freelist k = EMPTY) := by
  induction n with
  | zero =>
    intro cm hn
    right
    rw [findLarger]
    exact ⟨by omega, fun k h1 h2 => by omega⟩
  | succ n ih =>
    intro cm hn
    rw [findLarger]
    by_cases hcm : cm ≤ ma.upper
    · rw [if_pos hcm]
      by_cases he : ma.freelist cm ≠ EMPTY
      · rw [if_pos he]
        left
        exact ⟨hcm, le_refl cm, he, fun k h1 h2 => by omega⟩
      · rw [if_neg he]
        have hemp : ma.freelist cm = EMPTY := not_not.mp he
        have hcase : ∀ k, cm ≤ k → k = cm ∨ cm + 1 ≤ k := fun k hk => by omega
        rcases ih (cm + 1) (by omega) with ⟨h1, h2, h3, h4⟩ | ⟨h1, h2⟩
        · left
          refine ⟨h1, by omega, h3, ?_⟩
          intro k hk hlt
          rcases hcase k hk with rfl | hk'
          · exact hemp
          · exact h4 k hk' hlt
        · right
          refine ⟨h1, ?_⟩
          intro k hk hle
          rcases hcase k hk with rfl | hk'
          · exact hemp
          · exact h2 k hk' hle
    · rw [if_neg hcm]
      right
      exact ⟨by omega, fun k h1 h2 => by omega⟩

/-- The block that an allocation of order `m` is carved from: the first one of the least non-empty list
at or above `m`. -/
def Source (u : ℕ) (free : ℕ → List ℕ) (m c b : ℕ) : Prop :=
  m ≤ c ∧ c ≤ u ∧ (∃ rest, free c = b :: rest) ∧ ∀ k, m ≤ k → k < c → free k = []

/-- The lists after an allocation of order `m` carved from list `c`. -/
def allocFree (free : ℕ → List ℕ) (m c : ℕ) : ℕ → List ℕ :=
  Function.update (splitTo m c free) m (splitTo m c free m).tail

/-- Either some list at or above `m` has a block, or none has. -/
theorem source_or_exhausted (hW : Wf u free ∅ used) (m : ℕ) :
    (∃ c b, Source u free m c b) ∨ ∀ k, m ≤ k → free k = [] := by
  by_cases hex : ∃ k, m ≤ k ∧ free k ≠ []
  · left
    classical
    obtain ⟨h1, h2⟩ := Nat.find_spec hex
    obtain ⟨b, rest, hb⟩ := List.exists_cons_of_ne_nil h2
    refine ⟨Nat.find hex, b, h1, ?_, ⟨rest, hb⟩, ?_⟩
    · have hT : (b, Nat.find hex) ∈ (freeSet free ∪ ∅) ∪ used := by
        refine Or.inl (Or.inl ?_)
        rw [mem_freeSet, hb]
        exact List.mem_cons_self
      exact hW.tiling.le_upper _ hT
    · intro k hk hlt
      by_contra hne
      exact Nat.find_min hex hlt ⟨hk, hne⟩
  · right
    intro k hk
    by_contra hne
    exact hex ⟨k, hk, hne⟩

/-- An allocation that finds no block changes nothing. -/
theorem buddyAlloc_exhausted (build : Build) {nbytes : ℕ} (hR : Rep u base h free ∅ used)
    (hm : mforsize h.ma nbytes = .ok m) (hnone : ∀ k, m ≤ k → free k = []) :
    buddyAlloc build h nbytes = exhausted build h := by
  have hempty : ∀ k, m ≤ k → h.ma.freelist k = EMPTY := fun k hk =>
    (hR.lists.head_eq_EMPTY_iff k).mpr (hnone k hk)
  rw [buddyAlloc, hm, ok_bind, if_pos (hempty m (le_refl m))]
  rcases findLarger_spec h.ma (h.ma.upper + 1) (m + 1) (by omega) with ⟨-, h2, h3, -⟩ | ⟨h1, -⟩
  · exact absurd (hempty _ (by omega)) h3
  · simp only [if_pos h1]

/-- **Allocation.**  The block is the lower end of the source block, the lists are as `allocFree` says. -/
theorem buddyAlloc_spec (build : Build) {nbytes c : ℕ} (hu : u ≤ 30)
    (hbase : base + 2 ^ u < wordSize) (hW : Wf u free ∅ used) (hC : Canonical u (freeSet free))
    (hR : Rep u base h free ∅ used) (hm : mforsize h.ma nbytes = .ok m) (h8 : 8 ≤ m)
    (hs : Source u free m c b) :
    ∃ h', buddyAlloc build h nbytes = .ok (base + b, h') ∧
      Rep u base h' (allocFree free m c) ∅ (used ∪ {(b, m)}) ∧ Keeps u base used h h' := by
  obtain ⟨hmc, hcu, ⟨rest, hb⟩, hmin⟩ := hs
  -- the lists after splitting, and the block at the head of list `m`
  obtain ⟨rest', hhead, hW', -⟩ := splitTo_spec h8 c free rest hmc hW hb
    (hC.mono Set.sdiff_subset)
  obtain ⟨h₁, hok₁, hR₁, hK₁⟩ := splitLoop_spec hu h8 c h free rest hmc hW hR hb
  obtain ⟨h₂, hok₂, hR₂, hK₂⟩ := takeBlock_spec hu hbase hW' hR₁ hhead
  have htail : Function.update (splitTo m c free) m rest' = allocFree free m c := by
    rw [allocFree, hhead, List.tail_cons]
  rw [htail] at hR₂
  refine ⟨h₂, ?_, hR₂, hK₁.trans hK₂⟩
  rw [buddyAlloc, hm, ok_bind]
  rcases Nat.lt_or_ge m c with hlt | hge
  · -- the list of the wanted order is empty and the search stops at `c`
    rw [if_pos ((hR.lists.head_eq_EMPTY_iff m).mpr (hmin m (le_refl m) hlt))]
    have hne : h.ma.freelist c ≠ EMPTY := by
      rw [Ne, hR.lists.head_eq_EMPTY_iff c, hb]
      exact List.cons_ne_nil b rest
    have hfind : findLarger h.ma (h.ma.upper + 1) (m + 1) = c := by
      rcases findLarger_spec h.ma (h.ma.upper + 1) (m + 1) (by omega) with ⟨-, h2, h3, h4⟩ | ⟨-, h2⟩
      · rcases Nat.lt_trichotomy (findLarger h.ma (h.ma.upper + 1) (m + 1)) c with hf | hf | hf
        · refine absurd ?_ h3
          rw [hR.lists.head_eq_EMPTY_iff]
          exact hmin _ (by omega) hf
        · exact hf
        · exact absurd (h4 c hlt hf) hne
      · exact absurd (h2 c hlt (by rw [hR.upper_eq]; exact hcu)) hne
    simp only [hfind]
    rw [if_neg (by rw [hR.upper_eq]; omega), hok₁, ok_bind, hok₂]
  · obtain rfl : m = c := by omega
    have hh : h₁ = h := by
      cases m with
      | zero => omega
      | succ m =>
        rw [splitLoop, if_neg (lt_irrefl _)] at hok₁
        exact (Except.ok.inj hok₁).symm
    rw [if_neg, ← hh, hok₂]
    rw [hR.lists.head_eq_EMPTY_iff m, hb]
    exact List.cons_ne_nil b rest

/-- Allocation keeps the abstract state well formed and canonical. -/
theorem allocFree_spec {c : ℕ} (h8 : 8 ≤ m) (hW : Wf u free ∅ used) (hC : Canonical u (freeSet free))
    (hs : Source u free m c b) :
    Wf u (allocFree free m c) ∅ (used ∪ {(b, m)}) ∧ Canonical u (freeSet (allocFree free m c)) := by
  obtain ⟨hmc, -, ⟨rest, hb⟩, -⟩ := hs
  obtain ⟨rest', hhead, hW', hC'⟩ := splitTo_spec h8 c free rest hmc hW hb
    (hC.mono Set.sdiff_subset)
  have hmem : b ∈ splitTo m c free m := by rw [hhead]; exact List.mem_cons_self
  have htail : allocFree free m c
      = Function.update (splitTo m c free) m ((splitTo m c free m).erase b) := by
    rw [allocFree, hhead, List.tail_cons, List.erase_cons_head]
  rw [htail]
  have hW₂ := hW'.remove hmem
  rw [Set.empty_union] at hW₂
  refine ⟨hW₂.mark, ?_⟩
  rw [freeSet_erase hW'.nodup]
  exact hC'

/-! ### Release -/

/-- The buddy of a floating block below the top order lies inside the heap. -/
theorem buddyOf_bounded (hW : Wf u free {(b, m)} used) (hmu : m < u) :
    buddyOf b m + 2 ^ m ≤ 2 ^ u ∧ Block.Aligned (buddyOf b m, m) := by
  have hT : (b, m) ∈ (freeSet free ∪ {(b, m)}) ∪ used := Or.inl (Or.inr rfl)
  have hbd := hW.tiling.bounded _ hT
  have hpos := Nat.two_pow_pos m
  simp only at hbd
  rcases buddyOf_cases (hW.tiling.aligned _ hT) with ⟨hal, he⟩ | ⟨c, hc, hbc, he⟩
  · rw [he]
    have hwhole := Block.bounded_of_aligned hal (show m + 1 ≤ u from hmu) (show b < 2 ^ u by omega)
    simp only [pow_succ] at hwhole
    exact ⟨by omega, Block.aligned_upper hal⟩
  · rw [he]
    exact ⟨by omega, Block.aligned_lower hc⟩

theorem buddyOf_ne (hal : Block.Aligned (b, m)) : buddyOf b m ≠ b := by
  have hpos := Nat.two_pow_pos m
  rcases buddyOf_cases hal with ⟨-, he⟩ | ⟨c, -, hbc, he⟩
  · omega
  · omega

/-- **The merging guard.**  Below the top order the source's test of the buddy's granule is the question
whether the buddy is listed with the same order. -/
theorem merge_guard (hW : Wf u free {(b, m)} used) (hR : Rep u base h free {(b, m)} used)
    (hmu : m < u) :
    (isUsed h (buddyOf b m) = false ∧ getSizem h (buddyOf b m) = m) ↔ buddyOf b m ∈ free m := by
  have hT : (b, m) ∈ (freeSet free ∪ {(b, m)}) ∪ used := Or.inl (Or.inr rfl)
  have h8 : 8 ≤ m := hW.tiling.lower_le _ hT
  obtain ⟨hbd, hal⟩ := buddyOf_bounded hW hmu
  constructor
  · rintro ⟨hun, hsz⟩
    rw [isUsed, hR.lower_eq] at hun
    rw [getSizem, hR.lower_eq] at hsz
    have hinfo : h.ma.blocks (buddyOf b m / 256) = ⟨m, false⟩ := by
      show h.ma.blocks (buddyOf b m / 2 ^ 8) = ⟨m, false⟩
      cases hi : h.ma.blocks (buddyOf b m / 2 ^ 8) with
      | mk sizem used =>
        rw [hi] at hun hsz
        simp only at hun hsz
        rw [hun, hsz]
    have hpow : 2 ^ u = 2 ^ (u - 8) * 256 := by
      rw [show (256 : ℕ) = 2 ^ 8 from rfl, ← pow_add]
      congr 1
      omega
    have hpos := Nat.two_pow_pos m
    have hin := hR.grains.idle_of_info hW.tiling h8 (dvd_of_order hal h8) (by
      rw [Nat.div_lt_iff_lt_mul (by decide), ← hpow]
      omega) hinfo
    rcases hin with hin | hin
    · exact hin
    · exact absurd (congrArg Prod.fst hin) (buddyOf_ne (hW.tiling.aligned _ hT))
  · intro hin
    exact hR.idle_reads (Or.inl hin)

/-- **One merge.**  With the buddy listed, a round of the loop joins the two. -/
theorem mergeRound_spec (hu : u ≤ 30) (hW : Wf u free {(b, m)} used)
    (hR : Rep u base h free {(b, m)} used) (hmu : m < u) (hbud : buddyOf b m ∈ free m) :
    ∃ h₁, removeFromFreelist h m (buddyOf b m) = .ok h₁ ∧ Keeps u base used h h₁ ∧
      ∃ lo hi, lo = (if buddyOf b m < b then buddyOf b m else b) ∧
        hi = (if buddyOf b m < b then b else buddyOf b m) ∧ lo = min b (buddyOf b m) ∧
        Rep u base (setSizem (setSizem h₁ lo (m + 1)) hi 0)
          (Function.update free m ((free m).erase (buddyOf b m))) {(lo, m + 1)} used := by
  have hT : (b, m) ∈ (freeSet free ∪ {(b, m)}) ∪ used := Or.inl (Or.inr rfl)
  have h8 : 8 ≤ m := hW.tiling.lower_le _ hT
  obtain ⟨h₁, hok₁, hR₁, hK₁⟩ := hR.remove hu hW hbud
  have hW₁ := hW.remove hbud
  have hpos := Nat.two_pow_pos m
  -- with the lower block called `c`, the floating set is `{(c, m), (c + 2 ^ m, m)}`
  obtain ⟨c, hal, hlo, hhi, hmin, hfl⟩ : ∃ c, Block.Aligned (c, m + 1) ∧
      (if buddyOf b m < b then buddyOf b m else b) = c ∧
      (if buddyOf b m < b then b else buddyOf b m) = c + 2 ^ m ∧ min b (buddyOf b m) = c ∧
      ({(b, m)} ∪ {(buddyOf b m, m)} : Set Block) = {(c, m), (c + 2 ^ m, m)} := by
    rcases buddyOf_cases (hW.tiling.aligned _ hT) with ⟨hal, he⟩ | ⟨c, hc, hbc, he⟩
    · refine ⟨b, hal, ?_, ?_, ?_, ?_⟩
      · rw [he, if_neg (by omega)]
      · rw [he, if_neg (by omega)]
      · rw [he, Nat.min_eq_left (Nat.le_add_right b _)]
      · rw [he]
        rfl
    · refine ⟨c, hc, ?_, ?_, ?_, ?_⟩
      · rw [he, if_pos (by omega)]
      · rw [he, if_pos (by omega), hbc]
      · rw [he, hbc, Nat.min_eq_right (Nat.le_add_right c _)]
      · rw [he, hbc, Set.union_comm]
        rfl
  refine ⟨h₁, hok₁, hK₁, c, c + 2 ^ m, hlo.symm, hhi.symm, hmin.symm, ?_⟩
  rw [hfl] at hR₁ hW₁
  have hlow₁ := hR₁.lower_eq
  have hi₁ := hR₁.grains.idle_info (c, m) (Or.inr (Or.inl rfl))
  have hi₂ := hR₁.grains.idle_info (c + 2 ^ m, m) (Or.inr (Or.inr rfl))
  simp only at hi₁ hi₂
  have hb₂ : (setSizem h₁ c (m + 1)).ma.blocks
      = Function.update h₁.ma.blocks (c / 256) ⟨m + 1, false⟩ :=
    setSizem_blocks hlow₁ (by omega) (by rw [hi₁])
  have hb₃ : (setSizem (setSizem h₁ c (m + 1)) (c + 2 ^ m) 0).ma.blocks
      = Function.update (Function.update h₁.ma.blocks (c / 256) ⟨m + 1, false⟩)
          ((c + 2 ^ m) / 256) ⟨0, false⟩ := by
    rw [setSizem_blocks (h := setSizem h₁ c (m + 1)) hlow₁ (by omega), hb₂]
    rw [hb₂, Function.update_of_ne (grain_half_ne h8), hi₂]
  have hG := Grains.merge hW₁.tiling hR₁.grains (b := c) (m := m) (Or.inr (Or.inl rfl))
    (Or.inr (Or.inr rfl))
  have hset : (freeSet (Function.update free m ((free m).erase (buddyOf b m)))
        ∪ {(c, m), (c + 2 ^ m, m)}) \ {(c, m), (c + 2 ^ m, m)} ∪ {(c, m + 1)}
      = freeSet (Function.update free m ((free m).erase (buddyOf b m))) ∪ {(c, m + 1)} := by
    rw [Set.union_sdiff_right, sdiff_eq_left.mpr]
    rw [Set.disjoint_right]
    exact hW₁.float_free
  rw [hset, ← hb₃] at hG
  exact hR₁.of_blocks rfl rfl hG

/-- **The merging loop** refines `mergeFree`. -/
theorem mergeLoop_spec (hu : u ≤ 30) (fuel : ℕ) :
    ∀ (h : Heap) (free : ℕ → List ℕ) (m b : ℕ), u - m < fuel → Wf u free {(b, m)} used →
      Rep u base h free {(b, m)} used →
      ∃ h', mergeLoop fuel h m b (buddyOf b m) = .ok h' ∧
        Rep u base h' (mergeFree u fuel free m b) ∅ used ∧ Keeps u base used h h' := by
  induction fuel with
  | zero =>
    intro h free m b hf
    omega
  | succ fuel ih =>
    intro h free m b hf hW hR
    rw [mergeLoop, mergeFree]
    by_cases hg : m < u ∧ buddyOf b m ∈ free m
    · have hguard : m < h.ma.upper ∧ isUsed h (buddyOf b m) = false ∧ getSizem h (buddyOf b m) = m := by
        rw [hR.upper_eq]
        exact ⟨hg.1, (merge_guard hW hR hg.1).mpr hg.2⟩
      obtain ⟨h₁, hok₁, hK₁, lo, hi, hlo, hhi, hmin, hR₂⟩ := mergeRound_spec hu hW hR hg.1 hg.2
      have hW₂ := hW.join hg.1 hg.2
      rw [← hmin] at hW₂
      have hT₂ : (lo, m + 1) ∈ (freeSet (Function.update free m ((free m).erase (buddyOf b m)))
          ∪ {(lo, m + 1)}) ∪ used := Or.inl (Or.inr rfl)
      have hbd := hW₂.tiling.bounded _ hT₂
      have hle : 2 ^ u ≤ 2 ^ 30 := Nat.pow_le_pow_right (by decide) hu
      simp only at hbd
      have hget : getBuddy (setSizem (setSizem h₁ lo (m + 1)) hi 0) lo
          = .ok (buddyOf lo (m + 1)) := by
        refine getBuddy_spec hR₂.lower_eq ?_ (hW₂.tiling.lower_le _ hT₂) ?_
          (hW₂.tiling.aligned _ hT₂) ?_
        · rw [hR₂.grains.idle_info (lo, m + 1) (Or.inr rfl)]
        · rw [hR₂.upper_eq]
          exact hg.1
        · have := Nat.two_pow_pos (m + 1)
          omega
      obtain ⟨h', hok', hR', hK'⟩ := ih _ _ (m + 1) lo (by omega) hW₂ hR₂
      refine ⟨h', ?_, ?_, ?_⟩
      · rw [if_pos hguard, hok₁, ok_bind, ← hlo, ← hhi]
        simp only [hget, ok_bind]
        exact hok'
      · rw [if_pos hg, ← hmin]
        exact hR'
      · have hK₂ : Keeps u base used h₁ (setSizem (setSizem h₁ lo (m + 1)) hi 0) :=
          Keeps.of_bytes_eq rfl
        exact (hK₁.trans hK₂).trans hK'
    · have hguard : ¬ (m < h.ma.upper ∧ isUsed h (buddyOf b m) = false
          ∧ getSizem h (buddyOf b m) = m) := by
        rw [hR.upper_eq]
        rintro ⟨hmu, hrest⟩
        exact hg ⟨hmu, (merge_guard hW hR hmu).mp hrest⟩
      obtain ⟨h', hok, hR', hK⟩ := hR.add hu hW (b := b) (m := m) rfl
      rw [Set.sdiff_self] at hR'
      refine ⟨h', ?_, ?_, hK⟩
      · rw [if_neg hguard]
        exact hok
      · rw [if_neg hg]
        exact hR'

/-- **Release.**  A used block is returned and merged as `mergeFree` says. -/
theorem buddyFree_spec (hu : u ≤ 30) (hpos : 0 < base) (hbase : base + 2 ^ u < wordSize)
    (hW : Wf u free ∅ used) (hR : Rep u base h free ∅ used) (hb : (b, m) ∈ used) :
    ∃ h', buddyFree h (base + b) = .ok h' ∧
      Rep u base h' (mergeFree u (u + 1) free m b) ∅ (used \ {(b, m)}) ∧
      Keeps u base (used \ {(b, m)}) h h' := by
  have hT : (b, m) ∈ (freeSet free ∪ ∅) ∪ used := Or.inr hb
  have hbd := hW.tiling.bounded _ hT
  have h8 : 8 ≤ m := hW.tiling.lower_le _ hT
  have hmu : m ≤ u := hW.tiling.le_upper _ hT
  have hm := Nat.two_pow_pos m
  have hle : 2 ^ u ≤ 2 ^ 30 := Nat.pow_le_pow_right (by decide) hu
  simp only at hbd
  obtain ⟨hus, hsz⟩ := hR.used_reads hb
  have hinfo := hR.grains.used_info _ hb
  simp only at hinfo
  -- clearing the mark makes the block float
  have hblocks : (setUsed h b false).ma.blocks = Function.update h.ma.blocks (b / 256) ⟨m, false⟩ :=
    setUsed_blocks hR.lower_eq (by rw [hinfo])
  have hG := Grains.unmark hW.tiling hR.grains hb
  have hset : (freeSet free ∪ ∅) ∪ {(b, m)} = freeSet free ∪ {(b, m)} := by rw [Set.union_empty]
  rw [hset, ← hblocks] at hG
  have hR₁ : Rep u base (setUsed h b false) free {(b, m)} (used \ {(b, m)}) :=
    hR.of_blocks rfl rfl hG
  have hW₁ := hW.unmark hb
  have hget : getBuddy (setUsed h b false) b = .ok (buddyOf b m) := by
    refine getBuddy_spec hR₁.lower_eq ?_ h8 (by rw [hR₁.upper_eq]; exact hmu)
      (hW.tiling.aligned _ hT) (by omega)
    rw [hR₁.grains.idle_info (b, m) (Or.inr rfl)]
  obtain ⟨h', hok, hR', hK⟩ := mergeLoop_spec hu (u + 1) _ _ m b (by omega) hW₁ hR₁
  refine ⟨h', ?_, hR', ?_⟩
  · have hend : (base + 2 ^ u) % wordSize = base + 2 ^ u := Nat.mod_eq_of_lt hbase
    have hup : (setUsed h b false).ma.upper = u := hR₁.upper_eq
    rw [buddyFree, if_neg (by omega)]
    simp only [hR.mem_eq, hR.upper_eq, hR.lower_eq, Nat.one_shiftLeft, hend, Nat.add_sub_cancel_left,
      hsz, hus]
    rw [assert_pos ⟨by omega, by omega⟩, ok_bind, assert_pos ⟨h8, hmu⟩, ok_bind,
      assert_pos trivial, ok_bind, hget, ok_bind, hup]
    exact hok
  · exact (Keeps.of_bytes_eq (setUsed_bytes h b false)).trans hK

/-! ### Initialisation -/

/-- The lists of a fresh heap: one block of the top order. -/
def initFree (u : ℕ) : ℕ → List ℕ := Function.update (fun _ => []) u [0]

theorem freeSet_initFree (u : ℕ) : freeSet (initFree u) = {(0, u)} := by
  ext ⟨x, k⟩
  show x ∈ initFree u k ↔ (x, k) = (0, u)
  by_cases hk : k = u
  · subst hk
    simp [initFree]
  · simp [initFree, hk]

theorem initFree_wf (hu : 8 ≤ u) : Wf u (initFree u) ∅ ∅ := by
  refine ⟨?_, ?_, ?_, ?_⟩
  · intro k
    by_cases hk : k = u
    · subst hk
      simp [initFree]
    · simp [initFree, Function.update_of_ne hk]
  · intro p hp
    exact absurd hp (Set.notMem_empty p)
  · intro p hp
    exact absurd hp (Set.notMem_empty p)
  · rw [freeSet_initFree, Set.union_empty, Set.union_empty]
    exact Tiling.single hu

theorem initFree_canonical (u : ℕ) : Canonical u (freeSet (initFree u)) := by
  rw [freeSet_initFree]
  intro b m hm _ h1
  have := congrArg Prod.snd h1
  simp only at this
  omega

/-- **Initialisation.**  `buddyInit` represents the fresh heap, whatever the memory held before. -/
theorem buddyInit_rep (h8 : 8 ≤ u) (hu : u ≤ 30) (base : ℕ) (blocks : ℕ → Blockinfo)
    (bytes : Memory) : Rep u base (buddyInit u base blocks bytes) (initFree u) ∅ ∅ := by
  have hb0 : ∀ g, g < 2 ^ (u - 8) → g ≠ 0 →
      (buddyInit u base blocks bytes).ma.blocks g = ⟨0, false⟩ := by
    intro g hg hne
    simp only [buddyInit, Function.update_of_ne hne, Nat.one_shiftLeft, defaultLower, if_pos hg]
  have hb1 : (buddyInit u base blocks bytes).ma.blocks 0 = ⟨u, false⟩ := by
    simp only [buddyInit, Function.update_self, Nat.one_shiftLeft, defaultLower,
      if_pos (Nat.two_pow_pos (u - 8))]
    rw [Nat.mod_eq_of_lt (by omega)]
  refine ⟨rfl, rfl, rfl, ?_, ?_⟩
  · intro k
    show Chain _ EMPTY (Function.update (fun _ => EMPTY) u 0 k) (initFree u k)
    by_cases hk : k = u
    · subst hk
      rw [Function.update_self, initFree, Function.update_self]
      refine ⟨rfl, by decide, ?_⟩
      exact readWord_writeWord bytes base EMPTY EMPTY_lt
    · rw [Function.update_of_ne hk, initFree, Function.update_of_ne hk]
      exact rfl
  · rw [freeSet_initFree, Set.union_empty]
    refine ⟨?_, ?_, ?_⟩
    · intro p hp
      obtain rfl : p = (0, u) := hp
      rw [Nat.zero_div]
      exact hb1
    · intro p hp
      exact absurd hp (Set.notMem_empty p)
    · intro g hg hnone
      refine hb0 g hg ?_
      intro h0
      refine hnone (0, u) (Or.inl rfl) ?_
      rw [Nat.zero_div, h0]

end AdelaideOS.Buddy
