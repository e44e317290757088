import AdelaideOS.Page.Clients

/-!
# Page directories as maps

A `Session` is any sequence of calls of `map_page`, `unmap_and_free_page` and `lookup_page` on any number of page
directories, with the calls of `alloc_page` that supply the directories and the frames, and with stores into
frames that are not part of the tables.  What a directory maps is said by the history alone: `latest` is the
last `map_page` for a directory and an address, unless it has been unmapped since.

`Tables` keeps the two-level structure of all directories apart from each other; `Refines` adds that each
entry says what the history says.

* **`Refines.call`** — every admitted call succeeds and keeps `Refines`;
* **`lookup_latest`** — `lookup_page` answers with the history.
-/

namespace AdelaideOS.Page

open AdelaideOS.Lib.Bytes AdelaideOS.Lib.Links

inductive Call where
  | allocDir (pdir : ℕ)
  | allocFrame (page : ℕ)
  | map (pdir logical physical access readwrite : ℕ)
  | unmap (pdir logical : ℕ)
  | lookup (pdir logical : ℕ)
  | store (address : ℕ) (byte : UInt8)

def Call.run (P : Pages) : Call → Except Fault Pages
  | .allocDir _ => .ok (allocPage P).2
  | .allocFrame _ => .ok (allocPage P).2
  | .map pdir logical physical access readwrite => mapPage P pdir logical physical access readwrite
  | .unmap pdir logical => unmapAndFreePage P pdir logical
  | .lookup pdir logical => do
    let _ ← lookupPage P pdir logical
    return P
  | .store address byte => .ok { P with mem := Function.update P.mem address byte }

/-- The page directories of a history, which has its last call first. -/
def dirsOf : List Call → List ℕ
  | [] => []
  | .allocDir pdir :: calls => pdir :: dirsOf calls
  | _ :: calls => dirsOf calls

/-- The page mapped at `logical`, as the history has it. -/
def latest (pdir logical : ℕ) : List Call → Option ℕ
  | [] => none
  | .map d l physical _ _ :: calls =>
    if d = pdir ∧ l = logical then some physical else latest pdir logical calls
  | .unmap d l :: calls => if d = pdir ∧ l = logical then none else latest pdir logical calls
  | _ :: calls => latest pdir logical calls

/-- The directory and the address whose mapping a call may change. -/
def Call.names : Call → Option (ℕ × ℕ)
  | .map pdir logical _ _ _ => some (pdir, logical)
  | .unmap pdir logical => some (pdir, logical)
  | _ => none

/-! ### The calls a client may make -/

/-- The address of a page. -/
def IsPage (a : ℕ) : Prop := a % PAGE_SIZE = 0 ∧ a < wordSize

/-- `alloc_page` has a page to give: a free one, or one that leaves `page_end` inside the address space. -/
def HasPage (P : Pages) : Prop := P.pageFree ≠ 0 ∨ P.pageEnd + PAGE_SIZE < wordSize

/-- `T` is a page table of the directory. -/
def IsTable (M : Memory) (pdir T : ℕ) : Prop :=
  ∃ i < 1024, readWord M (pdir + 4 * i) &&& PAGE_PRESENT ≠ 0 ∧
    readWord M (pdir + 4 * i) &&& PAGE_ADDRESS_MASK = T

/-- A frame in use that is neither a directory nor a table. -/
def Plain (calls : List Call) (P : Pages) (F : ℕ) : Prop :=
  F ∈ P.live ∧ F ∉ dirsOf calls ∧ ∀ pdir ∈ dirsOf calls, ¬ IsTable P.mem pdir F

def Admits (calls : List Call) (P : Pages) : Call → Prop
  | .allocDir pdir => HasPage P ∧ (allocPage P).1 = pdir
  | .allocFrame page => HasPage P ∧ (allocPage P).1 = page
  | .map pdir logical physical access readwrite =>
    pdir ∈ dirsOf calls ∧ IsPage logical ∧ IsPage physical ∧ access < PAGE_SIZE ∧ readwrite < PAGE_SIZE ∧
      (dirEntry P.mem pdir logical &&& PAGE_PRESENT = 0 → HasPage P)
  | .unmap pdir logical =>
    pdir ∈ dirsOf calls ∧ IsPage logical ∧
      ∀ F, lookupPage P pdir logical = .ok (some F) → Plain calls P F
  | .lookup pdir logical => pdir ∈ dirsOf calls ∧ IsPage logical
  | .store address _ => ∃ F, Plain calls P F ∧ F ≤ address ∧ address < F + PAGE_SIZE

inductive Session (mem : Memory) : List Call → Pages → Prop where
  | boot : Session mem [] (Pages.boot mem)
  | call {calls : List Call} {P P' : Pages} {c : Call} : Session mem calls P → Admits calls P c →
      c.run P = .ok P' → Session mem (c :: calls) P'

variable {mem : Memory} {P P' : Pages} {calls : List Call} {c : Call} {frees dirs : List ℕ}
  {tbl : ℕ → ℕ → Option ℕ} {pte : ℕ → ℕ → ℕ} {d n F : ℕ}

/-! ### The history -/

theorem latest_of_names {logical : ℕ} (h : c.names ≠ some (d, logical)) :
    latest d logical (c :: calls) = latest d logical calls := by
  cases c with
  | map e l _ _ _ =>
    have hne : ¬ (e = d ∧ l = logical) := by
      rintro ⟨rfl, rfl⟩
      exact h rfl
    rw [latest, if_neg hne]
  | unmap e l =>
    have hne : ¬ (e = d ∧ l = logical) := by
      rintro ⟨rfl, rfl⟩
      exact h rfl
    rw [latest, if_neg hne]
  | allocDir => rfl
  | allocFrame => rfl
  | lookup => rfl
  | store => rfl

theorem dirsOf_subset (c : Call) (calls : List Call) : ∀ d ∈ dirsOf calls, d ∈ dirsOf (c :: calls) := by
  intro d hd
  cases c with
  | allocDir => exact List.mem_cons_of_mem _ hd
  | _ => exact hd

/-- A call names a directory of the history only. -/
theorem Admits.dir {logical : ℕ} (h : Admits calls P c) (hc : c.names = some (d, logical)) :
    d ∈ dirsOf calls := by
  cases c with
  | map =>
    obtain ⟨rfl, -⟩ := Prod.mk.inj (Option.some.inj hc)
    exact h.1
  | unmap =>
    obtain ⟨rfl, -⟩ := Prod.mk.inj (Option.some.inj hc)
    exact h.1
  | allocDir => cases hc
  | allocFrame => cases hc
  | lookup => cases hc
  | store => cases hc

/-- Nothing is mapped by what is not a directory. -/
theorem Session.latest_none (h : Session mem calls P) (logical : ℕ) (hd : d ∉ dirsOf calls) :
    latest d logical calls = none := by
  induction h with
  | boot => rfl
  | @call calls P P' c _ hadm _ ih =>
    have hd' : d ∉ dirsOf calls := fun hmem => hd (dirsOf_subset c calls d hmem)
    rw [latest_of_names, ih hd']
    intro hc
    exact hd' (hadm.dir hc)

/-! ### All directories together -/

structure Tables (P : Pages) (dirs : List ℕ) (tbl : ℕ → ℕ → Option ℕ) (pte : ℕ → ℕ → ℕ) : Prop where
  rep : ∀ d ∈ dirs, Rep P.mem d (tbl d) (pte d)
  placed : ∀ d ∈ dirs, Placed P.live d (tbl d)
  apart : ∀ d ∈ dirs, ∀ e ∈ dirs, d ≠ e →
    e ∉ tablesOf (tbl d) ∧ ∀ T ∈ tablesOf (tbl d), T ∉ tablesOf (tbl e)

/-- The frames that the directories are made of. -/
def Part (dirs : List ℕ) (tbl : ℕ → ℕ → Option ℕ) (f : ℕ) : Prop :=
  ∃ d ∈ dirs, f = d ∨ f ∈ tablesOf (tbl d)

theorem Tables.live (h : Tables P dirs tbl pte) {f : ℕ} (hf : Part dirs tbl f) : f ∈ P.live := by
  obtain ⟨d, hd, rfl | hf⟩ := hf
  · exact (h.placed f hd).dir
  · obtain ⟨i, hi, hT⟩ := mem_tablesOf.mp hf
    exact (h.placed d hd).tbl_mem i hi f hT

/-- Directories whose frames are kept are kept. -/
theorem Tables.congr (h : Tables P dirs tbl pte)
    (hkeep : ∀ f, Part dirs tbl f → f ∈ P'.live ∧ AgreeOn P.mem P'.mem f PAGE_SIZE) :
    Tables P' dirs tbl pte := by
  refine ⟨fun d hd => ?_, fun d hd => ?_, h.apart⟩
  · apply (h.rep d hd).congr (hkeep d ⟨d, hd, Or.inl rfl⟩).2
    intro i hi T hT
    exact (hkeep T ⟨d, hd, Or.inr (mem_tablesOf.mpr ⟨i, hi, hT⟩)⟩).2
  · refine ⟨(hkeep d ⟨d, hd, Or.inl rfl⟩).1, ?_, (h.placed d hd).tbl_ne, (h.placed d hd).tbl_inj⟩
    intro i hi T hT
    exact (hkeep T ⟨d, hd, Or.inr (mem_tablesOf.mpr ⟨i, hi, hT⟩)⟩).1

/-- A table is found in its directory. -/
theorem Tables.isTable (h : Tables P dirs tbl pte) (hA : Alloc P frees) (hd : d ∈ dirs) {T : ℕ}
    (hT : T ∈ tablesOf (tbl d)) : IsTable P.mem d T := by
  obtain ⟨i, hi, hiT⟩ := mem_tablesOf.mp hT
  have hentry := table_entry (hA.isFrame_live (h.live ⟨d, hd, Or.inr hT⟩))
  refine ⟨i, hi, ?_⟩
  rw [(h.rep d hd).some_dir i hi T hiT, hentry.1]
  exact ⟨by decide, hentry.2⟩

theorem Tables.not_part (h : Tables P (dirsOf calls) tbl pte) (hA : Alloc P frees) (hF : Plain calls P F) :
    ¬ Part (dirsOf calls) tbl F := by
  rintro ⟨d, hd, rfl | hmem⟩
  · exact hF.2.1 hd
  · exact hF.2.2 d hd (h.isTable hA hd hmem)

/-- **The frame rule.**  Changes outside the directories, none of whose frames is given up. -/
theorem Tables.frame (h : Tables P dirs tbl pte) (hA : Alloc P frees) (hF : ¬ Part dirs tbl F)
    (hlive : ∀ f ∈ P.live, f ≠ F → f ∈ P'.live)
    (hkeep : ∀ f, IsFrame f → f ≠ F → AgreeOn P.mem P'.mem f PAGE_SIZE) : Tables P' dirs tbl pte := by
  apply h.congr
  intro f hf
  have hne : f ≠ F := by
    rintro rfl
    exact hF hf
  exact ⟨hlive f (h.live hf) hne, hkeep f (hA.isFrame_live (h.live hf)) hne⟩

/-- Another directory takes its place among those that exist. -/
theorem Tables.update (h : Tables P dirs tbl pte) {tbl' : ℕ → Option ℕ} {pte' : ℕ → ℕ}
    (hrep : Rep P.mem d tbl' pte') (hplaced : Placed P.live d tbl')
    (hapart : ∀ e ∈ dirs, e ≠ d → e ∉ tablesOf tbl' ∧ d ∉ tablesOf (tbl e) ∧
      ∀ T ∈ tablesOf tbl', T ∉ tablesOf (tbl e)) :
    ∀ dirs', (∀ e ∈ dirs', e = d ∨ e ∈ dirs) →
      Tables P dirs' (Function.update tbl d tbl') (Function.update pte d pte') := by
  intro dirs' hdirs
  refine ⟨fun e he => ?_, fun e he => ?_, fun e he f hf hne => ?_⟩
  · by_cases hed : e = d
    · rw [hed, Function.update_self, Function.update_self]
      exact hrep
    · rw [Function.update_of_ne hed, Function.update_of_ne hed]
      exact h.rep e ((hdirs e he).resolve_left hed)
  · by_cases hed : e = d
    · rw [hed, Function.update_self]
      exact hplaced
    · rw [Function.update_of_ne hed]
      exact h.placed e ((hdirs e he).resolve_left hed)
  · by_cases hed : e = d
    · have hfd : f ≠ d := by
        rw [← hed]
        exact Ne.symm hne
      obtain ⟨h1, -, h3⟩ := hapart f ((hdirs f hf).resolve_left hfd) hfd
      rw [hed, Function.update_self, Function.update_of_ne hfd]
      exact ⟨h1, h3⟩
    · have he' := (hdirs e he).resolve_left hed
      rw [Function.update_of_ne hed]
      by_cases hfd : f = d
      · obtain ⟨-, h2, h3⟩ := hapart e he' hed
        rw [hfd, Function.update_self]
        exact ⟨h2, fun T hT hT' => h3 T hT' hT⟩
      · rw [Function.update_of_ne hfd]
        exact h.apart e he' f ((hdirs f hf).resolve_left hfd) hne

/-! ### Entries -/

/-- The page table entry `e` says `phys`. -/
def Says (e : ℕ) : Option ℕ → Prop
  | none => e &&& PAGE_PRESENT = 0
  | some phys => e &&& PAGE_PRESENT ≠ 0 ∧ e &&& PAGE_ADDRESS_MASK = phys

/-- The entry that `map_page` writes. -/
theorem says_mapped {physical access readwrite : ℕ} (hphys : IsPage physical) (ha : access < PAGE_SIZE)
    (hrw : readwrite < PAGE_SIZE) :
    physical ||| PAGE_PRESENT ||| access ||| readwrite < wordSize ∧
      Says (physical ||| PAGE_PRESENT ||| access ||| readwrite) (some physical) := by
  obtain ⟨haligned, hlt⟩ := hphys
  have hlow : PAGE_PRESENT ||| (access ||| readwrite) < PAGE_SIZE :=
    Nat.or_lt_two_pow (n := 12) (by decide) (Nat.or_lt_two_pow (n := 12) ha hrw)
  have hentry : physical ||| PAGE_PRESENT ||| access ||| readwrite =
      physical + (PAGE_PRESENT ||| (access ||| readwrite)) := by
    rw [Nat.or_assoc, Nat.or_assoc]
    exact or_flags haligned hlow
  have hsum : physical + (PAGE_PRESENT ||| (access ||| readwrite)) < wordSize := by
    simp only [PAGE_SIZE, wordSize] at *
    omega
  rw [hentry]
  refine ⟨hsum, ?_, and_mask_add haligned hlow hsum⟩
  rw [and_flag_add haligned hlow (by decide), Nat.and_comm, Nat.and_or_distrib_left]
  intro hzero
  have := (Nat.or_eq_zero_iff.mp hzero).1
  revert this
  decide

theorem lookupPage_says (hA : Alloc P frees) (hR : Rep P.mem d (tbl d) (pte d))
    (hP : Placed P.live d (tbl d)) (hn : n < PAGES) {o : Option ℕ} (he : Says (pte d n) o) :
    lookupPage P d (PAGE_SIZE * n) = .ok o := by
  have hmod : PAGE_SIZE * n % PAGE_SIZE = 0 := Nat.mul_mod_right PAGE_SIZE n
  have hi : n / 1024 < 1024 := by
    simp only [PAGES] at hn
    omega
  cases ht : tbl d (n / 1024) with
  | none =>
    rw [hR.none_tbl n hn ht] at he
    have ho : o = none := by
      cases o with
      | none => rfl
      | some phys => exact absurd rfl he.1
    simp only [lookupPage, assert_pos hmod, ok_bind, dirEntry_rep hR hn, ht, ho]
    rfl
  | some T =>
    have hT := hA.isFrame_live (hP.tbl_mem _ hi T ht)
    have hdir : ¬ (T + 7) &&& PAGE_PRESENT = 0 := by
      rw [(table_entry hT).1]
      decide
    simp only [lookupPage, assert_pos hmod, ok_bind, dirEntry_rep hR hn, ht, tblEntry_rep hR hn ht hT,
      if_neg hdir]
    cases o with
    | none => exact if_pos he
    | some phys =>
      rw [if_neg he.1, he.2]
      rfl

/-- **Refinement.**  The directories in memory are separate, and each entry says what the history says. -/
structure Refines (P : Pages) (calls : List Call) : Prop where
  alloc : ∃ frees, Alloc P frees
  tables : ∃ tbl pte, Tables P (dirsOf calls) tbl pte ∧
    ∀ d ∈ dirsOf calls, ∀ n < PAGES, Says (pte d n) (latest d (PAGE_SIZE * n) calls)

theorem page_of {logical : ℕ} (h : IsPage logical) :
    ∃ n, n < PAGES ∧ logical = PAGE_SIZE * n := by
  refine ⟨logical / PAGE_SIZE, ?_, ?_⟩
  · have := h.2
    simp only [PAGES, PAGE_SIZE, wordSize] at *
    omega
  · have := h.1
    simp only [PAGE_SIZE] at *
    omega

theorem Refines.lookup (h : Refines P calls) (hd : d ∈ dirsOf calls) {logical : ℕ}
    (hl : IsPage logical) : lookupPage P d logical = .ok (latest d logical calls) := by
  obtain ⟨frees, hA⟩ := h.alloc
  obtain ⟨tbl, pte, hT, hsaid⟩ := h.tables
  obtain ⟨n, hn, rfl⟩ := page_of hl
  exact lookupPage_says hA (hT.rep d hd) (hT.placed d hd) hn (hsaid d hd n hn)

/-! ### The calls -/

theorem Alloc.room_of_hasPage (h : Alloc P frees) (hpage : HasPage P) : P.live.length < FRAMES := by
  obtain ⟨k, hk, hend, hperm⟩ := h.all
  have hlen := hperm.length_eq
  rw [List.length_append, List.length_map, List.length_range] at hlen
  rcases hpage with hfree | hroom
  · have hne : frees ≠ [] := fun he => hfree (h.chain.head_eq_nil_iff.mpr he)
    have := List.length_pos_of_ne_nil hne
    omega
  · rw [hend] at hroom
    simp only [frameAt, PAGE_START, PAGE_SIZE, MB, wordSize, FRAMES] at *
    omega

/-- A call that neither maps nor unmaps and leaves the directories alone. -/
theorem Refines.frame (h : Refines P calls)
    (hF : ∀ tbl pte, Tables P (dirsOf calls) tbl pte → ¬ Part (dirsOf calls) tbl F) (hA' : Alloc P' frees)
    (hdirs : dirsOf (c :: calls) = dirsOf calls) (hc : c.names = none)
    (hlive : ∀ f ∈ P.live, f ≠ F → f ∈ P'.live)
    (hkeep : ∀ f, IsFrame f → f ≠ F → AgreeOn P.mem P'.mem f PAGE_SIZE) : Refines P' (c :: calls) := by
  obtain ⟨frees₀, hA⟩ := h.alloc
  obtain ⟨tbl, pte, hT, hsaid⟩ := h.tables
  refine ⟨⟨frees, hA'⟩, tbl, pte, ?_, ?_⟩
  · rw [hdirs]
    exact hT.frame hA (hF tbl pte hT) hlive hkeep
  · intro d hd n hn
    rw [hdirs] at hd
    rw [latest_of_names (by rw [hc]; exact fun he => by cases he)]
    exact hsaid d hd n hn

theorem Tables.fresh_not_part (h : Tables P dirs tbl pte) {a : ℕ} (ha : a ∉ P.live) :
    ¬ Part dirs tbl a := by
  intro hp
  exact ha (h.live hp)

/-- **`alloc_page` for a frame.** -/
theorem Refines.allocFrame (h : Refines P calls) (hpage : HasPage P) (a : ℕ) :
    Refines (allocPage P).2 (.allocFrame a :: calls) := by
  obtain ⟨frees, hA⟩ := h.alloc
  obtain ⟨a', P', frees', hok, hA', hal⟩ := allocPage_spec hA (hA.room_of_hasPage hpage)
  rw [hok]
  refine h.frame (F := a') (fun tbl pte hT => hT.fresh_not_part hal.fresh) hA' rfl rfl ?_ hal.keeps
  intro f hf _
  rw [hal.live]
  exact List.mem_cons_of_mem _ hf

/-- A zeroed frame is a directory without tables. -/
theorem rep_zero {M : Memory} (hzero : ∀ x, d ≤ x → x + 4 ≤ d + PAGE_SIZE → readWord M x = 0) :
    Rep M d (fun _ => none) (fun _ => 0) := by
  refine ⟨?_, ?_, ?_, ?_⟩
  · intro i hi _
    exact hzero _ (by omega) (by simp only [PAGE_SIZE]; omega)
  · intro i _ T hT
    cases hT
  · intro n _ _
    rfl
  · intro n _ T hT
    cases hT

theorem not_mem_tablesOf_none {T : ℕ} : T ∉ tablesOf fun _ => none := by
  intro hT
  obtain ⟨i, -, hi⟩ := mem_tablesOf.mp hT
  cases hi

/-- **`alloc_page` for a directory.** -/
theorem Refines.allocDir (h : Refines P calls)
    (hnone : ∀ d ∉ dirsOf calls, ∀ logical, latest d logical calls = none) (hpage : HasPage P) {a : ℕ}
    (ha : (allocPage P).1 = a) : Refines (allocPage P).2 (.allocDir a :: calls) := by
  obtain ⟨frees, hA⟩ := h.alloc
  obtain ⟨tbl, pte, hT, hsaid⟩ := h.tables
  obtain ⟨a', P', frees', hok, hA', hal⟩ := allocPage_spec hA (hA.room_of_hasPage hpage)
  obtain rfl : a' = a := by rw [← ha, hok]
  rw [hok]
  have hnot := hT.fresh_not_part hal.fresh
  have hT' : Tables P' (dirsOf calls) tbl pte := by
    refine hT.frame hA hnot (fun f hf _ => ?_) hal.keeps
    rw [hal.live]
    exact List.mem_cons_of_mem _ hf
  have hplaced : Placed P'.live a' (fun _ => none) := by
    refine ⟨?_, ?_, ?_, ?_⟩
    · rw [hal.live]
      exact List.mem_cons_self
    · intro i _ T hT
      cases hT
    · intro i _ T hT
      cases hT
    · intro i j _ _ T hT
      cases hT
  refine ⟨⟨frees', hA'⟩, _, _, hT'.update (rep_zero hal.zero) hplaced ?_ (a' :: dirsOf calls) ?_, ?_⟩
  · intro e he _
    exact ⟨not_mem_tablesOf_none, fun hmem => hnot ⟨e, he, Or.inr hmem⟩,
      fun T hT => absurd hT not_mem_tablesOf_none⟩
  · intro e he
    exact List.mem_cons.mp he
  · intro d hd n hn
    rw [latest_of_names (by exact fun he => by cases he)]
    by_cases hda : d = a'
    · have hnew : a' ∉ dirsOf calls := fun hmem => hnot ⟨a', hmem, Or.inl rfl⟩
      rw [hda, Function.update_self, hnone a' hnew]
      show 0 &&& PAGE_PRESENT = 0
      rfl
    · rw [Function.update_of_ne hda]
      exact hsaid d ((List.mem_cons.mp hd).resolve_left hda) n hn

/-- One directory changes, and may get tables in new frames. -/
theorem Tables.change (h : Tables P dirs tbl pte) (hA : Alloc P frees) (hd : d ∈ dirs)
    {tbl' : ℕ → Option ℕ} {pte' : ℕ → ℕ} (hrep : Rep P'.mem d tbl' pte')
    (hplaced : Placed P'.live d tbl') (hnew : ∀ T ∈ tablesOf tbl', T ∈ tablesOf (tbl d) ∨ T ∉ P.live)
    (hlive : ∀ f ∈ P.live, f ∈ P'.live)
    (hkeep : ∀ f, IsFrame f → f ≠ d → f ∉ tablesOf tbl' → AgreeOn P.mem P'.mem f PAGE_SIZE) :
    Tables P' dirs (Function.update tbl d tbl') (Function.update pte d pte') := by
  have hothers : ∀ e ∈ dirs, e ≠ d → e ∉ tablesOf tbl' ∧ d ∉ tablesOf (tbl e) ∧
      ∀ T ∈ tablesOf tbl', T ∉ tablesOf (tbl e) := by
    intro e he hne
    refine ⟨fun hmem => ?_, (h.apart e he d hd hne).1, fun T hT hTe => ?_⟩
    · rcases hnew e hmem with hold | hfresh
      · exact (h.apart d hd e he (Ne.symm hne)).1 hold
      · exact hfresh (h.live ⟨e, he, Or.inl rfl⟩)
    · rcases hnew T hT with hold | hfresh
      · exact (h.apart d hd e he (Ne.symm hne)).2 T hold hTe
      · exact hfresh (h.live ⟨e, he, Or.inr hTe⟩)
  have hrest : Tables P (dirs.filter (· ≠ d)) tbl pte := by
    have hmem : ∀ e ∈ dirs.filter (· ≠ d), e ∈ dirs := fun e he => (List.mem_filter.mp he).1
    exact ⟨fun e he => h.rep e (hmem e he), fun e he => h.placed e (hmem e he),
      fun e he f hf => h.apart e (hmem e he) f (hmem f hf)⟩
  have hrest' : Tables P' (dirs.filter (· ≠ d)) tbl pte := by
    apply hrest.congr
    rintro f ⟨e, he, hf⟩
    obtain ⟨he, hne⟩ := List.mem_filter.mp he
    have hne : e ≠ d := by simpa using hne
    have hfl : f ∈ P.live := h.live ⟨e, he, hf⟩
    obtain ⟨h1, h2, h3⟩ := hothers e he hne
    refine ⟨hlive f hfl, hkeep f (hA.isFrame_live hfl) ?_ ?_⟩
    · rintro rfl
      rcases hf with rfl | hf
      · exact hne rfl
      · exact h2 hf
    · intro hmem
      rcases hf with rfl | hf
      · exact h1 hmem
      · exact h3 f hmem hf
  refine hrest'.update hrep hplaced ?_ dirs ?_
  · intro e he hne
    exact hothers e (List.mem_filter.mp he).1 hne
  · intro e he
    by_cases hed : e = d
    · exact Or.inl hed
    · exact Or.inr (List.mem_filter.mpr ⟨he, by simpa using hed⟩)

/-- The entries after one of them was set. -/
theorem says_update {logical : ℕ} {o : Option ℕ} {e : ℕ}
    (hsaid : ∀ d ∈ dirs, ∀ n < PAGES, Says (pte d n) (latest d (PAGE_SIZE * n) calls))
    (hlogical : logical = PAGE_SIZE * n) (hc : c.names = some (d, logical))
    (hlatest : latest d logical (c :: calls) = o) (he : Says e o) :
    ∀ d' ∈ dirs, ∀ m < PAGES,
      Says (Function.update pte d (Function.update (pte d) n e) d' m)
        (latest d' (PAGE_SIZE * m) (c :: calls)) := by
  intro d' hd' m hm
  by_cases hdd : d' = d
  · by_cases hmn : m = n
    · rw [hdd, hmn, Function.update_self, Function.update_self, ← hlogical, hlatest]
      exact he
    · rw [hdd, Function.update_self, Function.update_of_ne hmn, latest_of_names]
      · rw [hdd] at hd'
        exact hsaid d hd' m hm
      · rw [hc, hlogical]
        intro heq
        obtain ⟨-, heq⟩ := Prod.mk.inj (Option.some.inj heq)
        simp only [PAGE_SIZE] at heq
        omega
  · rw [Function.update_of_ne hdd, latest_of_names]
    · exact hsaid d' hd' m hm
    · rw [hc]
      intro heq
      exact hdd (Prod.mk.inj (Option.some.inj heq)).1.symm

/-- **`map_page`.** -/
theorem Refines.map (h : Refines P calls) {logical physical access readwrite : ℕ}
    (hadm : Admits calls P (.map d logical physical access readwrite)) :
    ∃ P', mapPage P d logical physical access readwrite = .ok P' ∧
      Refines P' (.map d logical physical access readwrite :: calls) := by
  obtain ⟨frees, hA⟩ := h.alloc
  obtain ⟨tbl, pte, hT, hsaid⟩ := h.tables
  obtain ⟨hd, hlogical, hphys, haccess, hreadwrite, hroom⟩ := hadm
  obtain ⟨n, hn, rfl⟩ := page_of hlogical
  obtain ⟨hlt, he⟩ := says_mapped hphys haccess hreadwrite
  have hroom' : tbl d (n / 1024) = none → P.live.length < FRAMES := by
    intro hnone
    refine hA.room_of_hasPage (hroom ?_)
    rw [dirEntry_rep (hT.rep d hd) hn, hnone]
    rfl
  obtain ⟨P', frees', tbl', N, hok, hA', hR', -, hM⟩ :=
    mapPage_rep hA (hT.rep d hd) (hT.placed d hd) hn hphys.1 rfl hlt hroom'
  refine ⟨P', hok, ⟨frees', hA'⟩, _, _, hT.change hA hd hR' hM.placed ?_ ?_ hM.keeps,
    says_update hsaid rfl rfl (if_pos ⟨rfl, rfl⟩) he⟩
  · intro T hTm
    rw [hM.tables, Multiset.mem_add, Multiset.mem_coe] at hTm
    rcases hTm with hTN | hold
    · right
      intro hlive
      have hnd := hA'.live_nodup
      rw [hM.live] at hnd
      exact (List.nodup_append.mp hnd).2.2 T hTN T hlive rfl
    · exact Or.inl hold
  · intro f hf
    rw [hM.live]
    exact List.mem_append_right _ hf

/-- `unmap_and_free_page` of a page that is not mapped. -/
theorem unmap_none (hA : Alloc P frees) (hR : Rep P.mem d (tbl d) (pte d))
    (hP : Placed P.live d (tbl d)) (hn : n < PAGES) (he : Says (pte d n) none) :
    unmapAndFreePage P d (PAGE_SIZE * n) = .ok P := by
  have hmod : PAGE_SIZE * n % PAGE_SIZE = 0 := Nat.mul_mod_right PAGE_SIZE n
  have hi : n / 1024 < 1024 := by
    simp only [PAGES] at hn
    omega
  cases ht : tbl d (n / 1024) with
  | none =>
    simp only [unmapAndFreePage, assert_pos hmod, ok_bind, dirEntry_rep hR hn, ht]
    rfl
  | some T =>
    have hT := hA.isFrame_live (hP.tbl_mem _ hi T ht)
    have hdir : ¬ (T + 7) &&& PAGE_PRESENT = 0 := by
      rw [(table_entry hT).1]
      decide
    simp only [unmapAndFreePage, assert_pos hmod, ok_bind, dirEntry_rep hR hn, ht,
      tblEntry_rep hR hn ht hT, if_neg hdir]
    exact if_pos he

/-- A page that is mapped: its frame is freed and its entry cleared. -/
theorem unmap_some (hA : Alloc P frees) (hR : Rep P.mem d (tbl d) (pte d))
    (hP : Placed P.live d (tbl d)) (hn : n < PAGES) (he : Says (pte d n) (some F))
    (hfree : freePage P F = .ok P') :
    ∃ T, tbl d (n / 1024) = some T ∧ unmapAndFreePage P d (PAGE_SIZE * n) =
      .ok { P' with mem := writeWord P'.mem (T + 4 * (n % 1024)) 0 } := by
  have hmod : PAGE_SIZE * n % PAGE_SIZE = 0 := Nat.mul_mod_right PAGE_SIZE n
  have hi : n / 1024 < 1024 := by
    simp only [PAGES] at hn
    omega
  cases ht : tbl d (n / 1024) with
  | none =>
    rw [hR.none_tbl n hn ht] at he
    exact absurd rfl he.1
  | some T =>
    have hT := hA.isFrame_live (hP.tbl_mem _ hi T ht)
    have hdir : ¬ (T + 7) &&& PAGE_PRESENT = 0 := by
      rw [(table_entry hT).1]
      decide
    refine ⟨T, rfl, ?_⟩
    simp only [unmapAndFreePage, assert_pos hmod, ok_bind, dirEntry_rep hR hn, ht,
      tblEntry_rep hR hn ht hT, if_neg hdir, if_neg he.1, he.2, (table_entry hT).2, tblIndex_page, hfree]
    rfl

/-- **`unmap_and_free_page`.** -/
theorem Refines.unmap (h : Refines P calls) {logical : ℕ} (hadm : Admits calls P (.unmap d logical)) :
    ∃ P', unmapAndFreePage P d logical = .ok P' ∧ Refines P' (.unmap d logical :: calls) := by
  obtain ⟨frees, hA⟩ := h.alloc
  obtain ⟨tbl, pte, hT, hsaid⟩ := h.tables
  obtain ⟨hd, hlogical, hplain⟩ := hadm
  have hlookup := h.lookup hd hlogical
  obtain ⟨n, hn, rfl⟩ := page_of hlogical
  have he := hsaid d hd n hn
  have hR := hT.rep d hd
  have hP := hT.placed d hd
  cases hlatest : latest d (PAGE_SIZE * n) calls with
  | none =>
    rw [hlatest] at he
    refine ⟨P, unmap_none hA hR hP hn he, ⟨frees, hA⟩, tbl, pte, hT, ?_⟩
    have hsame := says_update (c := .unmap d (PAGE_SIZE * n)) hsaid rfl rfl (if_pos ⟨rfl, rfl⟩) he
    rwa [Function.update_eq_self, Function.update_eq_self] at hsame
  | some F =>
    rw [hlatest] at he hlookup
    have hF := hplain F hlookup
    have hnot := hT.not_part hA hF
    obtain ⟨P₁, frees₁, hfree, hA₁, hfreed⟩ := freePage_spec hA hF.1
    obtain ⟨T, ht, hok⟩ := unmap_some hA hR hP hn he hfree
    have hlive : ∀ f ∈ P.live, f ≠ F → f ∈ P₁.live := by
      intro f hf hne
      rw [hfreed.live]
      exact (List.mem_erase_of_ne hne).mpr hf
    -- the frame is gone, and no directory has seen it go
    have hT₁ : Tables P₁ (dirsOf calls) tbl pte := hT.frame hA hnot hlive hfreed.keeps
    obtain ⟨hA₂, hR₂, hkeep⟩ :=
      storeEntry_rep hA₁ (hT₁.rep d hd) (hT₁.placed d hd) hn ht (e := 0) (by decide)
    have hi : n / 1024 < 1024 := by
      simp only [PAGES] at hn
      omega
    refine ⟨_, hok, ⟨frees₁, hA₂⟩, Function.update tbl d (tbl d), _, hT₁.change hA₁ hd hR₂ (hT₁.placed d hd)
      (fun T hTm => Or.inl hTm) (fun f hf => hf) ?_, says_update hsaid rfl rfl (if_pos ⟨rfl, rfl⟩) rfl⟩
    intro f hf _ hft
    refine hkeep f hf ?_
    rintro rfl
    exact hft (mem_tablesOf.mpr ⟨_, hi, ht⟩)

/-- **One call.** -/
theorem Refines.call (h : Refines P calls)
    (hnone : ∀ d ∉ dirsOf calls, ∀ logical, latest d logical calls = none) (hadm : Admits calls P c) :
    ∃ P', c.run P = .ok P' ∧ Refines P' (c :: calls) := by
  cases c with
  | allocDir pdir => exact ⟨_, rfl, h.allocDir hnone hadm.1 hadm.2⟩
  | allocFrame page => exact ⟨_, rfl, h.allocFrame hadm.1 page⟩
  | map pdir logical physical access readwrite => exact h.map hadm
  | unmap pdir logical => exact h.unmap hadm
  | lookup pdir logical =>
    refine ⟨P, ?_, h.alloc, h.tables⟩
    rw [Call.run, h.lookup hadm.1 hadm.2]
    rfl
  | store address byte =>
    obtain ⟨frees, hA⟩ := h.alloc
    obtain ⟨F, hF, h1, h2⟩ := hadm
    obtain ⟨hA', hkeep⟩ := hA.storeByte hF.1 h1 h2 byte
    exact ⟨_, rfl, h.frame (fun tbl pte hT => hT.not_part hA hF) hA' rfl rfl (fun f hf _ => hf) hkeep⟩

/-- **All sessions.** -/
theorem Session.refines (h : Session mem calls P) : Refines P calls := by
  induction h with
  | boot => exact ⟨⟨[], alloc_boot mem⟩, fun _ _ => none, fun _ _ => 0, ⟨by simp [dirsOf], by simp [dirsOf],
      by simp [dirsOf]⟩, by simp [dirsOf]⟩
  | call hs hadm hok ih =>
    obtain ⟨P', hok', hR⟩ := ih.call (fun d hd logical => hs.latest_none logical hd) hadm
    obtain rfl := Except.ok.inj (hok'.symm.trans hok)
    exact hR

/-- **Page tables refine a map.**  In every session each lookup answers with the latest mapping of the
address in the directory that has not been unmapped; every call that a client may make succeeds; and it
changes the lookups of the directory and the address it names only. -/
theorem lookup_latest (h : Session mem calls P) :
    (∀ pdir ∈ dirsOf calls, ∀ logical, IsPage logical →
      lookupPage P pdir logical = .ok (latest pdir logical calls)) ∧
    ∀ c, Admits calls P c → ∃ P', c.run P = .ok P' ∧
      ∀ pdir ∈ dirsOf calls, ∀ logical, IsPage logical → c.names ≠ some (pdir, logical) →
        lookupPage P' pdir logical = lookupPage P pdir logical := by
  refine ⟨fun pdir hd logical hl => h.refines.lookup hd hl, fun c hadm => ?_⟩
  obtain ⟨P', hok, hR⟩ := h.refines.call (fun d hd logical => h.latest_none logical hd) hadm
  refine ⟨P', hok, fun pdir hd logical hl hc => ?_⟩
  rw [hR.lookup (dirsOf_subset c calls pdir hd) hl, h.refines.lookup hd hl, latest_of_names hc]

/-- A directory, a frame and a mapping, from boot. -/
theorem lookup_latest_map :
    ∃ P, Session (fun _ => 0) [.map PAGE_START PROCESS_TEXT_BASE (PAGE_START + PAGE_SIZE) PAGE_USER PAGE_READ_WRITE,
        .allocFrame (PAGE_START + PAGE_SIZE), .allocDir PAGE_START] P ∧
      lookupPage P PAGE_START PROCESS_TEXT_BASE = .ok (some (PAGE_START + PAGE_SIZE)) := by
  have hdir : Session (fun _ => 0) [.allocDir PAGE_START] _ :=
    .call .boot ⟨Or.inr (by decide), rfl⟩ rfl
  have hframe : Session (fun _ => 0) [.allocFrame (PAGE_START + PAGE_SIZE), .allocDir PAGE_START] _ :=
    .call hdir ⟨Or.inr (by decide), rfl⟩ rfl
  have hadm : Admits [.allocFrame (PAGE_START + PAGE_SIZE), .allocDir PAGE_START]
      (allocPage (allocPage (Pages.boot fun _ => 0)).2).2
      (.map PAGE_START PROCESS_TEXT_BASE (PAGE_START + PAGE_SIZE) PAGE_USER PAGE_READ_WRITE) :=
    ⟨by simp [dirsOf], by constructor <;> decide, by constructor <;> decide, by decide, by decide,
      fun _ => Or.inr (by decide)⟩
  obtain ⟨P, hok, -⟩ := (lookup_latest hframe).2 _ hadm
  have hmap := hframe.call hadm hok
  refine ⟨P, hmap, ?_⟩
  rw [(lookup_latest hmap).1 PAGE_START (by simp [dirsOf]) PROCESS_TEXT_BASE (by constructor <;> decide)]
  rfl

end AdelaideOS.Page
