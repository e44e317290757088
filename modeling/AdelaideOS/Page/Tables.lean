import AdelaideOS.Page.Alloc
import Mathlib.Data.Nat.Bitwise

/-!
# Page tables as maps

`Rep M d tbl pte` says that the directory at frame `d` of memory `M` has the page tables `tbl` and that the
entry of page number `n` is `pte n`, where pages without a table count as entry 0.

* **`dirEntry_rep`**, **`tblEntry_rep`** — what the kernel and the processor read;
* **`storeEntry_rep`** — writing or clearing an entry of a table changes that entry alone;
* **`mapPage_rep`** — `map_page` changes one entry and adds at most one table.
-/

namespace AdelaideOS.Page

open AdelaideOS.Lib.Bytes AdelaideOS.Lib.Links

/-! ### Bits of an entry -/

/-- Setting flags of an aligned address adds them. -/
theorem or_flags {a b : ℕ} (ha : a % PAGE_SIZE = 0) (hb : b < PAGE_SIZE) : a ||| b = a + b := by
  obtain ⟨q, rfl⟩ : ∃ q, a = 2 ^ 12 * q := ⟨a / 4096, by simp only [PAGE_SIZE] at ha; omega⟩
  exact (Nat.two_pow_add_eq_or_of_lt (i := 12) (by simpa using hb) q).symm

/-- A flag test sees the low bits only. -/
theorem and_flag (x : ℕ) {c : ℕ} (hc : c < PAGE_SIZE) : x &&& c = x % PAGE_SIZE &&& c := by
  have h1 : c = 4095 &&& c := by
    rw [Nat.and_comm]
    have h := Nat.and_two_pow_sub_one_eq_mod c 12
    rw [show (2 : ℕ) ^ 12 - 1 = 4095 by norm_num] at h
    rw [h]
    simp only [PAGE_SIZE] at hc
    omega
  have h2 : x &&& 4095 = x % PAGE_SIZE := by
    have h := Nat.and_two_pow_sub_one_eq_mod x 12
    rw [show (2 : ℕ) ^ 12 - 1 = 4095 by norm_num] at h
    rw [h]
  calc x &&& c = x &&& (4095 &&& c) := by rw [← h1]
    _ = (x &&& 4095) &&& c := by rw [Nat.and_assoc]
    _ = x % PAGE_SIZE &&& c := by rw [h2]

theorem and_flag_add {a b c : ℕ} (ha : a % PAGE_SIZE = 0) (hb : b < PAGE_SIZE) (hc : c < PAGE_SIZE) :
    (a + b) &&& c = b &&& c := by
  rw [and_flag _ hc]
  congr 1
  simp only [PAGE_SIZE] at *
  omega

/-- The address part of an entry. -/
theorem and_mask {x : ℕ} (hx : x < wordSize) : x &&& PAGE_ADDRESS_MASK = x - x % PAGE_SIZE := by
  have hmask : PAGE_ADDRESS_MASK = 2 ^ 12 * (2 ^ 20 - 1) := by norm_num
  have hsub : x - x % PAGE_SIZE = 2 ^ 12 * (x / 2 ^ 12) := by
    simp only [PAGE_SIZE]
    omega
  rw [hmask, hsub]
  apply Nat.eq_of_testBit_eq
  intro i
  rw [Nat.testBit_and, Nat.testBit_two_pow_mul, Nat.testBit_two_pow_mul, Nat.testBit_two_pow_sub_one,
    Nat.testBit_div_two_pow]
  by_cases hi : 12 ≤ i
  · have he : i - 12 + 12 = i := by omega
    rw [he]
    by_cases hi2 : i - 12 < 20
    · simp [hi, hi2]
    · have hbit : x.testBit i = false := by
        apply Nat.testBit_lt_two_pow
        calc x < 2 ^ 32 := by simpa using hx
          _ ≤ 2 ^ i := Nat.pow_le_pow_right (by norm_num) (by omega)
      simp [hbit]
  · simp [hi]

theorem and_mask_add {a b : ℕ} (ha : a % PAGE_SIZE = 0) (hb : b < PAGE_SIZE)
    (hlt : a + b < wordSize) : (a + b) &&& PAGE_ADDRESS_MASK = a := by
  rw [and_mask hlt]
  simp only [PAGE_SIZE] at *
  omega

/-! ### Representation -/

/-- The number of pages of the address space. -/
abbrev PAGES : ℕ := 1048576

structure Rep (M : Memory) (d : ℕ) (tbl : ℕ → Option ℕ) (pte : ℕ → ℕ) : Prop where
  none_dir : ∀ i, i < 1024 → tbl i = none → readWord M (d + 4 * i) = 0
  some_dir : ∀ i, i < 1024 → ∀ T, tbl i = some T → readWord M (d + 4 * i) = T + 7
  none_tbl : ∀ n, n < PAGES → tbl (n / 1024) = none → pte n = 0
  some_tbl : ∀ n, n < PAGES → ∀ T, tbl (n / 1024) = some T →
    readWord M (T + 4 * (n % 1024)) = pte n

/-- The directory and its tables are distinct live frames. -/
structure Placed (L : List ℕ) (d : ℕ) (tbl : ℕ → Option ℕ) : Prop where
  dir : d ∈ L
  tbl_mem : ∀ i, i < 1024 → ∀ T, tbl i = some T → T ∈ L
  tbl_ne : ∀ i, i < 1024 → ∀ T, tbl i = some T → T ≠ d
  tbl_inj : ∀ i j, i < 1024 → j < 1024 → ∀ T, tbl i = some T → tbl j = some T → i = j

variable {P P' : Pages} {frees : List ℕ} {M M' : Memory} {d : ℕ} {tbl : ℕ → Option ℕ} {pte : ℕ → ℕ}

/-- Only the directory and the tables matter. -/
theorem Rep.congr (h : Rep M d tbl pte) (hd : AgreeOn M M' d PAGE_SIZE)
    (ht : ∀ i, i < 1024 → ∀ T, tbl i = some T → AgreeOn M M' T PAGE_SIZE) : Rep M' d tbl pte := by
  have hdir : ∀ i, i < 1024 → readWord M' (d + 4 * i) = readWord M (d + 4 * i) := by
    intro i hi
    exact hd.readWord (by omega) (by simp only [PAGE_SIZE]; omega)
  refine ⟨?_, ?_, h.none_tbl, ?_⟩
  · intro i hi hnone
    rw [hdir i hi]
    exact h.none_dir i hi hnone
  · intro i hi T hT
    rw [hdir i hi]
    exact h.some_dir i hi T hT
  · intro n hn T hT
    have hi : n / 1024 < 1024 := by
      simp only [PAGES] at hn
      omega
    rw [(ht _ hi T hT).readWord (by omega) (by simp only [PAGE_SIZE]; omega)]
    exact h.some_tbl n hn T hT

theorem dirIndex_page (n : ℕ) : dirIndex (PAGE_SIZE * n) = n / 1024 := by
  simp only [dirIndex, PAGE_SIZE]
  omega

theorem tblIndex_page (n : ℕ) : tblIndex (PAGE_SIZE * n) = n % 1024 := by
  simp only [tblIndex, PAGE_SIZE]
  omega

/-- Changing a live frame does not disturb the allocator. -/
theorem Alloc.setMem (h : Alloc P frees) (hM : ∀ f ∈ frees, AgreeOn P.mem M f PAGE_SIZE) :
    Alloc { P with mem := M } frees :=
  ⟨chain_congr h.chain hM, h.all, h.count, h.once⟩

theorem Alloc.free_ne_live (h : Alloc P frees) {f a : ℕ} (hf : f ∈ frees) (ha : a ∈ P.live) :
    f ≠ a := by
  intro hfa
  rw [hfa] at hf
  exact (List.nodup_append.mp h.nodup).2.2 a hf a ha rfl

/-- A word write inside a live frame. -/
theorem Alloc.storeWord (h : Alloc P frees) {a x : ℕ} (ha : a ∈ P.live) (h1 : a ≤ x)
    (h2 : x + 4 ≤ a + PAGE_SIZE) (w : ℕ) :
    Alloc { P with mem := writeWord P.mem x w } frees ∧
      ∀ f, IsFrame f → f ≠ a → AgreeOn P.mem (writeWord P.mem x w) f PAGE_SIZE := by
  have hkeep : ∀ f, IsFrame f → f ≠ a →
      AgreeOn P.mem (writeWord P.mem x w) f PAGE_SIZE := by
    intro f hf hne
    have hap := hf.apart (h.isFrame_live ha) hne
    exact agreeOn_writeWord P.mem w (by simp only [PAGE_SIZE] at *; omega)
  refine ⟨h.setMem ?_, hkeep⟩
  intro f hf
  exact hkeep f (h.isFrame (List.mem_append_left _ hf)) (h.free_ne_live hf ha)

/-! ### Reading entries -/

theorem dirEntry_rep (h : Rep M d tbl pte) {n : ℕ} (hn : n < PAGES) :
    dirEntry M d (PAGE_SIZE * n) = (match tbl (n / 1024) with | none => 0 | some T => T + 7) := by
  have hi : n / 1024 < 1024 := by
    simp only [PAGES] at hn
    omega
  rw [dirEntry, dirIndex_page]
  cases ht : tbl (n / 1024) with
  | none => exact h.none_dir _ hi ht
  | some T => exact h.some_dir _ hi T ht

/-- An aligned table address with its flags. -/
theorem table_entry {T : ℕ} (hT : IsFrame T) :
    (T + 7) &&& PAGE_PRESENT = 1 ∧ (T + 7) &&& PAGE_ADDRESS_MASK = T := by
  obtain ⟨h1, -, h3⟩ := hT.facts
  constructor
  · rw [and_flag_add h1 (by decide) (by decide)]
    rfl
  · apply and_mask_add h1 (by decide)
    simp only [PAGE_SIZE, wordSize] at *
    omega

theorem tblEntry_rep (h : Rep M d tbl pte) {n T : ℕ} (hn : n < PAGES)
    (ht : tbl (n / 1024) = some T) (hT : IsFrame T) : tblEntry M d (PAGE_SIZE * n) = pte n := by
  rw [tblEntry, dirEntry_rep h hn, ht, tblIndex_page]
  simp only
  rw [(table_entry hT).2]
  exact h.some_tbl n hn T ht

/-! ### Adding a table -/

theorem filterMap_congr {s : Multiset ℕ} {f g : ℕ → Option ℕ} (h : ∀ j ∈ s, g j = f j) :
    s.filterMap g = s.filterMap f := by
  induction s using Multiset.induction_on with
  | empty => rfl
  | cons i s ih =>
    have hs := ih fun j hj => h j (Multiset.mem_cons_of_mem hj)
    have hi := h i (Multiset.mem_cons_self i s)
    cases hf : f i with
    | none =>
      rw [Multiset.filterMap_cons_none _ _ hf, Multiset.filterMap_cons_none _ _ (hi.trans hf), hs]
    | some a =>
      rw [Multiset.filterMap_cons_some _ _ _ hf, Multiset.filterMap_cons_some _ _ _ (hi.trans hf), hs]

/-- Giving a value to one element that had none. -/
theorem filterMap_update {s : Multiset ℕ} (hs : s.Nodup) {f : ℕ → Option ℕ} {i a : ℕ} (hi : i ∈ s)
    (hnone : f i = none) :
    s.filterMap (Function.update f i (some a)) = a ::ₘ s.filterMap f := by
  obtain ⟨t, rfl⟩ := Multiset.exists_cons_of_mem hi
  have hne : ∀ j ∈ t, j ≠ i := by
    intro j hj hji
    rw [hji] at hj
    exact (Multiset.nodup_cons.mp hs).1 hj
  rw [Multiset.filterMap_cons_some _ _ _ (Function.update_self i (some a) f),
    Multiset.filterMap_cons_none _ _ hnone]
  congr 1
  apply filterMap_congr
  intro j hj
  exact Function.update_of_ne (hne j hj) _ _

/-- The page tables of a directory. -/
@[irreducible]
def tablesOf (tbl : ℕ → Option ℕ) : Multiset ℕ := (Multiset.range 1024).filterMap tbl

theorem tablesOf_coe (tbl : ℕ → Option ℕ) : tablesOf tbl = ↑((List.range 1024).filterMap tbl) := by
  unfold tablesOf
  rfl

theorem tablesOf_update {i T : ℕ} (hi : i < 1024) (hnone : tbl i = none) :
    tablesOf (Function.update tbl i (some T)) = T ::ₘ tablesOf tbl := by
  unfold tablesOf
  exact filterMap_update (Multiset.nodup_range 1024) (Multiset.mem_range.mpr hi) hnone

theorem mem_tablesOf {T : ℕ} : T ∈ tablesOf tbl ↔ ∃ i, i < 1024 ∧ tbl i = some T := by
  rw [tablesOf, Multiset.mem_filterMap]
  constructor
  · rintro ⟨i, hi, ht⟩
    exact ⟨i, Multiset.mem_range.mp hi, ht⟩
  · rintro ⟨i, hi, ht⟩
    exact ⟨i, Multiset.mem_range.mpr hi, ht⟩

/-- What `map_page` and the functions built on it leave behind for directory `d`: a representation, and new
live frames `N`, all of them tables of `d`.  Frames other than `d` and its tables keep their contents. -/
structure Mapped (P : Pages) (d : ℕ) (tbl : ℕ → Option ℕ) (P' : Pages) (tbl' : ℕ → Option ℕ)
    (N : List ℕ) : Prop where
  placed : Placed P'.live d tbl'
  live : P'.live = N ++ P.live
  tables : tablesOf tbl' = (N : Multiset ℕ) + tablesOf tbl
  keeps : ∀ f, IsFrame f → f ≠ d → f ∉ tablesOf tbl' → AgreeOn P.mem P'.mem f PAGE_SIZE

theorem ensureTable_rep (hA : Alloc P frees) (hR : Rep P.mem d tbl pte) (hP : Placed P.live d tbl)
    {n : ℕ} (hn : n < PAGES) (hroom : tbl (n / 1024) = none → P.live.length < FRAMES) :
    ∃ frees' tbl' N T, Alloc (ensureTable P d (PAGE_SIZE * n)) frees' ∧
      Rep (ensureTable P d (PAGE_SIZE * n)).mem d tbl' pte ∧ tbl' (n / 1024) = some T ∧
      N.length ≤ 1 ∧ Mapped P d tbl (ensureTable P d (PAGE_SIZE * n)) tbl' N := by
  have hi : n / 1024 < 1024 := by
    simp only [PAGES] at hn
    omega
  cases ht : tbl (n / 1024) with
  | some T =>
    have hT := hA.isFrame_live (hP.tbl_mem _ hi T ht)
    have heq : ensureTable P d (PAGE_SIZE * n) = P := by
      rw [ensureTable, dirEntry_rep hR hn, ht]
      simp only
      rw [(table_entry hT).1]
      simp
    rw [heq]
    exact ⟨frees, tbl, [], T, hA, hR, ht, by simp, hP, rfl, by simp, fun _ _ _ _ => AgreeOn.refl _ _ _⟩
  | none =>
    obtain ⟨T, P₁, frees', halloc, hA₁, hal⟩ := allocPage_spec hA (hroom ht)
    have hd : d ∈ P₁.live := by
      rw [hal.live]
      exact List.mem_cons_of_mem _ hP.dir
    have hTd : T ≠ d := by
      intro hTd
      exact hal.fresh (by rw [hTd]; exact hP.dir)
    have hTT := hal.frame.facts
    have hentry : T ||| PAGE_PRESENT ||| PAGE_USER ||| PAGE_READ_WRITE = T + 7 := by
      rw [Nat.or_assoc, Nat.or_assoc]
      exact or_flags hTT.1 (by decide)
    have heq : ensureTable P d (PAGE_SIZE * n) =
        { P₁ with mem := writeWord P₁.mem (d + 4 * (n / 1024)) (T + 7) } := by
      rw [ensureTable, dirEntry_rep hR hn, ht]
      simp [halloc, hentry, dirIndex_page]
    have hold : ∀ j, j < 1024 → ∀ T', tbl j = some T' → T' ≠ T := by
      intro j hj T' hT' hTT'
      exact hal.fresh (by rw [← hTT']; exact hP.tbl_mem j hj T' hT')
    obtain ⟨hA₂, hkeep⟩ := hA₁.storeWord hd (x := d + 4 * (n / 1024)) (by omega)
      (by simp only [PAGE_SIZE]; omega) (T + 7)
    rw [heq]
    refine ⟨frees', Function.update tbl (n / 1024) (some T), [T], T, hA₂, ?_,
      Function.update_self _ _ _, by simp, ?_, ?_, ?_, ?_⟩
    · -- the new directory entry, and a table of zeros
      have hdir : ∀ j, j < 1024 → j ≠ n / 1024 →
          readWord (writeWord P₁.mem (d + 4 * (n / 1024)) (T + 7)) (d + 4 * j) =
            readWord P.mem (d + 4 * j) := by
        intro j hj hne
        rw [readWord_writeWord_of_apart _ _ (by omega)]
        exact (hal.keeps d (hA.isFrame_live hP.dir) (Ne.symm hTd)).readWord (by omega)
          (by simp only [PAGE_SIZE]; omega)
      refine ⟨?_, ?_, ?_, ?_⟩
      · intro j hj hnone
        by_cases hjn : j = n / 1024
        · rw [hjn, Function.update_self] at hnone
          cases hnone
        · rw [Function.update_of_ne hjn] at hnone
          rw [hdir j hj hjn]
          exact hR.none_dir j hj hnone
      · intro j hj T' hT'
        rcases update_eq_some hT' with ⟨rfl, rfl⟩ | ⟨hjn, hT''⟩
        · apply readWord_writeWord
          simp only [PAGE_SIZE, wordSize] at *
          omega
        · rw [hdir j hj hjn]
          exact hR.some_dir j hj T' hT''
      · intro m hm hnone
        by_cases hmn : m / 1024 = n / 1024
        · rw [hmn, Function.update_self] at hnone
          cases hnone
        · rw [Function.update_of_ne hmn] at hnone
          exact hR.none_tbl m hm hnone
      · intro m hm T' hT'
        have hmi : m / 1024 < 1024 := by
          simp only [PAGES] at hm
          omega
        rcases update_eq_some hT' with ⟨hmn, rfl⟩ | ⟨hmn, hT''⟩
        · rw [(hkeep T' hal.frame hTd).readWord (by omega) (by simp only [PAGE_SIZE]; omega),
            hal.zero _ (by omega) (by simp only [PAGE_SIZE]; omega)]
          rw [← hmn] at ht
          exact (hR.none_tbl m hm ht).symm
        · have hfT' := hA.isFrame_live (hP.tbl_mem _ hmi T' hT'')
          have hag := (hal.keeps T' hfT' (hold _ hmi T' hT'')).trans
            (hkeep T' hfT' (hP.tbl_ne _ hmi T' hT''))
          rw [hag.readWord (by omega) (by simp only [PAGE_SIZE]; omega)]
          exact hR.some_tbl m hm T' hT''
    · refine ⟨hd, ?_, ?_, ?_⟩
      · intro j hj T' hT'
        show T' ∈ P₁.live
        rw [hal.live]
        rcases update_eq_some hT' with ⟨-, rfl⟩ | ⟨-, hT''⟩
        · exact List.mem_cons_self
        · exact List.mem_cons_of_mem _ (hP.tbl_mem j hj T' hT'')
      · intro j hj T' hT'
        rcases update_eq_some hT' with ⟨-, rfl⟩ | ⟨-, hT''⟩
        · exact hTd
        · exact hP.tbl_ne j hj T' hT''
      · intro j k hj hk T' hj' hk'
        rcases update_eq_some hj' with ⟨rfl, rfl⟩ | ⟨-, hj''⟩
        · rcases update_eq_some hk' with ⟨rfl, -⟩ | ⟨-, hk''⟩
          · rfl
          · exact absurd rfl (hold k hk T' hk'')
        · rcases update_eq_some hk' with ⟨-, rfl⟩ | ⟨-, hk''⟩
          · exact absurd rfl (hold j hj T' hj'')
          · exact hP.tbl_inj j k hj hk T' hj'' hk''
    · exact hal.live
    · rw [tablesOf_update hi ht, Multiset.coe_singleton, Multiset.singleton_add]
    · intro f hf hfd hft
      have hfT : f ≠ T := by
        intro hfT
        exact hft (mem_tablesOf.mpr ⟨n / 1024, hi, by rw [hfT, Function.update_self]⟩)
      exact (hal.keeps f hf hfT).trans (hkeep f hf hfd)

/-! ### Writing an entry -/

/-- Writing the entry of page `n` into its table. -/
theorem storeEntry_rep (hA : Alloc P frees) (hR : Rep P.mem d tbl pte) (hP : Placed P.live d tbl)
    {n T : ℕ} (hn : n < PAGES) (ht : tbl (n / 1024) = some T) {e : ℕ} (he : e < wordSize) :
    Alloc { P with mem := writeWord P.mem (T + 4 * (n % 1024)) e } frees ∧
      Rep (writeWord P.mem (T + 4 * (n % 1024)) e) d tbl (Function.update pte n e) ∧
      ∀ f, IsFrame f → f ≠ T →
        AgreeOn P.mem (writeWord P.mem (T + 4 * (n % 1024)) e) f PAGE_SIZE := by
  have hi : n / 1024 < 1024 := by
    simp only [PAGES] at hn
    omega
  have hTl := hP.tbl_mem _ hi T ht
  obtain ⟨hA', hkeep⟩ := hA.storeWord hTl (x := T + 4 * (n % 1024)) (by omega)
    (by simp only [PAGE_SIZE]; omega) e
  have hdir : ∀ j, j < 1024 →
      readWord (writeWord P.mem (T + 4 * (n % 1024)) e) (d + 4 * j) = readWord P.mem (d + 4 * j) := by
    intro j hj
    exact (hkeep d (hA.isFrame_live hP.dir) (hP.tbl_ne _ hi T ht).symm).readWord (by omega)
      (by simp only [PAGE_SIZE]; omega)
  refine ⟨hA', ⟨?_, ?_, ?_, ?_⟩, hkeep⟩
  · intro j hj hnone
    rw [hdir j hj]
    exact hR.none_dir j hj hnone
  · intro j hj T' hT'
    rw [hdir j hj]
    exact hR.some_dir j hj T' hT'
  · intro m hm hnone
    have hmn : m ≠ n := by
      intro hmn
      rw [hmn, ht] at hnone
      cases hnone
    rw [Function.update_of_ne hmn]
    exact hR.none_tbl m hm hnone
  · intro m hm T' hT'
    have hmi : m / 1024 < 1024 := by
      simp only [PAGES] at hm
      omega
    by_cases hmn : m = n
    · rw [hmn] at hT' ⊢
      obtain rfl : T = T' := Option.some.inj (ht.symm.trans hT')
      rw [readWord_writeWord _ _ _ he, Function.update_self]
    · rw [Function.update_of_ne hmn, ← hR.some_tbl m hm T' hT']
      by_cases hTT : T' = T
      · -- the same table, so another entry of it
        have hidx : m / 1024 = n / 1024 := by
          rw [hTT] at hT'
          exact hP.tbl_inj _ _ hmi hi T hT' ht
        rw [hTT]
        apply readWord_writeWord_of_apart
        omega
      · exact (hkeep T' (hA.isFrame_live (hP.tbl_mem _ hmi T' hT')) hTT).readWord (by omega)
          (by simp only [PAGE_SIZE]; omega)

/-- **`map_page`.**  One entry changes, and at most one table is added. -/
theorem mapPage_rep (hA : Alloc P frees) (hR : Rep P.mem d tbl pte) (hP : Placed P.live d tbl)
    {n phys access readwrite e : ℕ} (hn : n < PAGES) (hphys : phys % PAGE_SIZE = 0)
    (he : phys ||| PAGE_PRESENT ||| access ||| readwrite = e) (hlt : e < wordSize)
    (hroom : tbl (n / 1024) = none → P.live.length < FRAMES) :
    ∃ P' frees' tbl' N, mapPage P d (PAGE_SIZE * n) phys access readwrite = .ok P' ∧
      Alloc P' frees' ∧ Rep P'.mem d tbl' (Function.update pte n e) ∧ N.length ≤ 1 ∧
      Mapped P d tbl P' tbl' N := by
  obtain ⟨frees', tbl', N, T, hA₁, hR₁, ht, hN, hM⟩ := ensureTable_rep hA hR hP hn hroom
  have hi : n / 1024 < 1024 := by
    simp only [PAGES] at hn
    omega
  have hT := hA₁.isFrame_live (hM.placed.tbl_mem _ hi T ht)
  obtain ⟨hA₂, hR₂, hkeep⟩ := storeEntry_rep hA₁ hR₁ hM.placed hn ht hlt
  have hok : mapPage P d (PAGE_SIZE * n) phys access readwrite = .ok
      { ensureTable P d (PAGE_SIZE * n) with
        mem := writeWord (ensureTable P d (PAGE_SIZE * n)).mem (T + 4 * (n % 1024)) e } := by
    have hlog : PAGE_SIZE * n % PAGE_SIZE = 0 := Nat.mul_mod_right PAGE_SIZE n
    simp only [mapPage, assert_pos hlog, assert_pos hphys, ok_bind, dirEntry_rep hR₁ hn, ht,
      (table_entry hT).2, tblIndex_page, he]
    rfl
  refine ⟨_, frees', tbl', N, hok, hA₂, hR₂, hN, hM.placed, hM.live, hM.tables, ?_⟩
  intro f hf hfd hft
  refine (hM.keeps f hf hfd hft).trans (hkeep f hf ?_)
  intro hfT
  exact hft (mem_tablesOf.mpr ⟨_, hi, by rw [hfT]; exact ht⟩)

end AdelaideOS.Page
