import AdelaideOS.Page.Tables

/-!
# Address spaces and the frames they own

An `Aspace` is what a page directory describes: its tables, the page numbers mapped for the user with the
frame of each, and the entries of the other pages, which are kernel mappings or absent.
`Owns P d A rest` says that directory `d` describes `A`, and that the live frames are those of `A` (the
directory, its tables, one frame a user page) together with `rest`.

Every operation of `page.c` has a lemma here that says how it moves frames between `A` and `rest`, and that
the contents of the frames in `rest` stay as they are; so the lemmas about one address space compose with
those about all others.
-/

namespace AdelaideOS.Page

open AdelaideOS.Lib.Bytes AdelaideOS.Lib.Links

/-- The first page number that is not identity mapped: 6 MB. -/
abbrev KERNEL_PAGES : ℕ := 1536

structure Aspace where
  tbl : ℕ → Option ℕ
  us : Finset ℕ
  fr : ℕ → ℕ
  kern : ℕ → ℕ

/-- The page table entry of page `n`. -/
def Aspace.pte (A : Aspace) (n : ℕ) : ℕ := if n ∈ A.us then A.fr n + 7 else A.kern n

/-- The frames that belong to the address space. -/
def Aspace.owned (A : Aspace) (d : ℕ) : Multiset ℕ := d ::ₘ (tablesOf A.tbl + A.us.val.map A.fr)

/-- The address space of a new page directory. -/
def Aspace.empty : Aspace := ⟨fun _ => none, ∅, fun _ => 0, fun _ => 0⟩

/-- The entry of a page that is not the user's: absent, or an identity mapping that is not writable. -/
def KernelEntry (n e : ℕ) : Prop :=
  e = 0 ∨ n < KERNEL_PAGES ∧ (e = PAGE_SIZE * n + 1 ∨ e = PAGE_SIZE * n + 5)

structure Owns (P : Pages) (d : ℕ) (A : Aspace) (rest : Multiset ℕ) : Prop where
  alloc : ∃ frees, Alloc P frees
  rep : Rep P.mem d A.tbl A.pte
  live : (P.live : Multiset ℕ) = A.owned d + rest
  user : ∀ n ∈ A.us, KERNEL_PAGES ≤ n ∧ n < PAGES
  kern : ∀ n, KernelEntry n (A.kern n)

/-- The contents of the frames `fs` are the same. -/
def Keeps (fs : Multiset ℕ) (P P' : Pages) : Prop := ∀ f ∈ fs, AgreeOn P.mem P'.mem f PAGE_SIZE

theorem Keeps.refl (fs : Multiset ℕ) (P : Pages) : Keeps fs P P := fun _ _ => AgreeOn.refl _ _ _

variable {P P' P'' : Pages} {d : ℕ} {A : Aspace} {rest fs : Multiset ℕ} {n : ℕ}

theorem Keeps.trans (h : Keeps fs P P') (h' : Keeps fs P' P'') : Keeps fs P P'' :=
  fun f hf => (h f hf).trans (h' f hf)

theorem Keeps.mono {fs' : Multiset ℕ} (h : Keeps fs P P') (hle : ∀ f ∈ fs', f ∈ fs) :
    Keeps fs' P P' :=
  fun f hf => h f (hle f hf)

theorem Keeps.left {gs : Multiset ℕ} (h : Keeps (fs + gs) P P') : Keeps fs P P' :=
  h.mono fun _ hf => Multiset.mem_add.mpr (Or.inl hf)

theorem Keeps.right {gs : Multiset ℕ} (h : Keeps (gs + fs) P P') : Keeps fs P P' :=
  h.mono fun _ hf => Multiset.mem_add.mpr (Or.inr hf)

/-! ### Consequences of ownership -/

theorem filterMap_inj {s : Multiset ℕ} {f : ℕ → Option ℕ}
    (hnd : (s.filterMap f).Nodup) {i j a : ℕ} (hi : i ∈ s) (hj : j ∈ s) (hfi : f i = some a)
    (hfj : f j = some a) : i = j := by
  by_contra hij
  obtain ⟨t, rfl⟩ := Multiset.exists_cons_of_mem hi
  have hjt : j ∈ t := by
    rcases Multiset.mem_cons.mp hj with h | h
    · exact absurd h.symm hij
    · exact h
  rw [Multiset.filterMap_cons_some _ _ _ hfi, Multiset.nodup_cons, Multiset.mem_filterMap] at hnd
  exact hnd.1 ⟨j, hjt, hfj⟩

theorem Owns.nodup (h : Owns P d A rest) : (A.owned d + rest).Nodup := by
  obtain ⟨frees, hA⟩ := h.alloc
  rw [← h.live, Multiset.coe_nodup]
  exact hA.live_nodup

theorem Owns.mem_live (h : Owns P d A rest) {f : ℕ} :
    f ∈ P.live ↔ f = d ∨ f ∈ tablesOf A.tbl ∨ (∃ n ∈ A.us, A.fr n = f) ∨ f ∈ rest := by
  rw [← Multiset.mem_coe, h.live, Aspace.owned, Multiset.mem_add, Multiset.mem_cons,
    Multiset.mem_add, Multiset.mem_map]
  simp only [Finset.mem_val, or_assoc]

theorem Owns.isFrame (h : Owns P d A rest) {f : ℕ} (hf : f ∈ P.live) : IsFrame f := by
  obtain ⟨frees, hA⟩ := h.alloc
  exact hA.isFrame_live hf

theorem Owns.placed (h : Owns P d A rest) : Placed P.live d A.tbl := by
  have hnd := h.nodup
  rw [Aspace.owned, Multiset.cons_add, Multiset.nodup_cons, Multiset.add_assoc, Multiset.mem_add] at hnd
  refine ⟨h.mem_live.mpr (Or.inl rfl), ?_, ?_, ?_⟩
  · intro i hi T hT
    exact h.mem_live.mpr (Or.inr (Or.inl (mem_tablesOf.mpr ⟨i, hi, hT⟩)))
  · intro i hi T hT hTd
    apply hnd.1
    left
    rw [← hTd]
    exact mem_tablesOf.mpr ⟨i, hi, hT⟩
  · intro i j hi hj T hTi hTj
    have htab : (tablesOf A.tbl).Nodup := Multiset.nodup_of_le (Multiset.le_add_right _ _) hnd.2
    unfold tablesOf at htab
    exact filterMap_inj htab (Multiset.mem_range.mpr hi) (Multiset.mem_range.mpr hj) hTi hTj

/-- Frames of `rest` are neither the directory nor a table nor the frame of a user page. -/
theorem Owns.rest_apart (h : Owns P d A rest) {f : ℕ} (hf : f ∈ rest) :
    f ≠ d ∧ f ∉ tablesOf A.tbl ∧ ∀ n ∈ A.us, A.fr n ≠ f := by
  have hdis := (Multiset.nodup_add.mp h.nodup).2.2
  rw [Multiset.disjoint_left] at hdis
  refine ⟨?_, ?_, ?_⟩
  · intro hfd
    exact hdis (by rw [hfd]; exact Multiset.mem_cons_self _ _) hf
  · intro hft
    exact hdis (Multiset.mem_cons_of_mem (Multiset.mem_add.mpr (Or.inl hft))) hf
  · intro n hn hfr
    refine hdis (Multiset.mem_cons_of_mem (Multiset.mem_add.mpr (Or.inr ?_))) hf
    rw [Multiset.mem_map]
    exact ⟨n, hn, hfr⟩

/-- Frames of user pages are neither the directory nor a table. -/
theorem Owns.user_apart (h : Owns P d A rest) (hn : n ∈ A.us) :
    A.fr n ≠ d ∧ A.fr n ∉ tablesOf A.tbl := by
  have hnd := h.nodup
  rw [Aspace.owned, Multiset.cons_add, Multiset.nodup_cons, Multiset.add_assoc] at hnd
  have hmem : A.fr n ∈ A.us.val.map A.fr := Multiset.mem_map.mpr ⟨n, hn, rfl⟩
  constructor
  · intro hd
    apply hnd.1
    rw [← hd]
    exact Multiset.mem_add.mpr (Or.inr (Multiset.mem_add.mpr (Or.inl hmem)))
  · intro ht
    have hdis := (Multiset.nodup_add.mp hnd.2).2.2
    rw [Multiset.disjoint_left] at hdis
    exact hdis ht (Multiset.mem_add.mpr (Or.inl hmem))

/-- Writes outside the directory and the tables keep the representation. -/
theorem Owns.rep_of_keeps (h : Owns P d A rest) {M : Memory}
    (hd : AgreeOn P.mem M d PAGE_SIZE)
    (ht : ∀ T ∈ tablesOf A.tbl, AgreeOn P.mem M T PAGE_SIZE) : Rep M d A.tbl A.pte :=
  h.rep.congr hd fun i hi T hT => ht T (mem_tablesOf.mpr ⟨i, hi, hT⟩)

/-! ### A new directory -/

/-- **New directory.** -/
theorem owns_new {frees : List ℕ} (hA : Alloc P frees) (hlive : (P.live : Multiset ℕ) = rest)
    (hroom : P.live.length < FRAMES) :
    ∃ d P', allocPage P = (d, P') ∧ Owns P' d Aspace.empty rest ∧ Keeps rest P P' ∧
      P'.live.length = P.live.length + 1 := by
  obtain ⟨d, P', frees', hok, hA', hal⟩ := allocPage_spec hA hroom
  refine ⟨d, P', hok, ⟨⟨frees', hA'⟩, ?_, ?_, ?_, ?_⟩, ?_, ?_⟩
  · refine ⟨?_, ?_, ?_, ?_⟩
    · intro i hi _
      exact hal.zero _ (by omega) (by simp only [PAGE_SIZE]; omega)
    · intro i _ T hT
      cases hT
    · intro n _ _
      simp [Aspace.pte, Aspace.empty]
    · intro n _ T hT
      cases hT
  · have hnone : tablesOf Aspace.empty.tbl = 0 := by
      rw [Multiset.eq_zero_iff_forall_notMem]
      intro T hT
      obtain ⟨i, -, hi⟩ := mem_tablesOf.mp hT
      cases hi
    rw [hal.live, Aspace.owned, hnone, ← hlive]
    simp [Aspace.empty]
  · intro n hn
    simp [Aspace.empty] at hn
  · intro n
    exact Or.inl rfl
  · intro f hf
    rw [← hlive, Multiset.mem_coe] at hf
    refine hal.keeps f (hA.isFrame_live hf) ?_
    intro hfd
    exact hal.fresh (by rw [← hfd]; exact hf)
  · rw [hal.live, List.length_cons]

/-- A new frame for whatever purpose goes to `rest`. -/
theorem Owns.allocPage (h : Owns P d A rest) (hroom : P.live.length < FRAMES) :
    ∃ F P', Page.allocPage P = (F, P') ∧ Owns P' d A (F ::ₘ rest) ∧ Keeps (P.live : Multiset ℕ) P P' ∧
      P'.live.length = P.live.length + 1 := by
  obtain ⟨frees, hA⟩ := h.alloc
  obtain ⟨F, P', frees', hok, hA', hal⟩ := allocPage_spec hA hroom
  have hkeep : Keeps (P.live : Multiset ℕ) P P' := by
    intro f hf
    rw [Multiset.mem_coe] at hf
    refine hal.keeps f (hA.isFrame_live hf) ?_
    intro hfF
    exact hal.fresh (by rw [← hfF]; exact hf)
  refine ⟨F, P', hok, ⟨⟨frees', hA'⟩, ?_, ?_, h.user, h.kern⟩, hkeep, ?_⟩
  · refine h.rep_of_keeps (hkeep d ?_) fun T hT => hkeep T ?_
    · exact Multiset.mem_coe.mpr (h.mem_live.mpr (Or.inl rfl))
    · exact Multiset.mem_coe.mpr (h.mem_live.mpr (Or.inr (Or.inl hT)))
  · rw [hal.live, ← Multiset.cons_coe, h.live, Multiset.add_cons]
  · rw [hal.live, List.length_cons]

/-! ### Mapping -/

/-- The address space with another kernel entry. -/
def Aspace.withKernel (A : Aspace) (tbl : ℕ → Option ℕ) (n e : ℕ) : Aspace :=
  { A with tbl := tbl, kern := Function.update A.kern n e }

/-- The address space with another user page. -/
def Aspace.withUser (A : Aspace) (tbl : ℕ → Option ℕ) (n F : ℕ) : Aspace :=
  { A with tbl := tbl, us := insert n A.us, fr := Function.update A.fr n F }

theorem Aspace.pte_withKernel (A : Aspace) (tbl : ℕ → Option ℕ) {e : ℕ} (hn : n ∉ A.us) :
    (A.withKernel tbl n e).pte = Function.update A.pte n e := by
  funext m
  by_cases hm : m = n
  · rw [hm, Function.update_self]
    simp [Aspace.pte, Aspace.withKernel, hn]
  · rw [Function.update_of_ne hm]
    simp [Aspace.pte, Aspace.withKernel, hm]

theorem Aspace.pte_withUser (A : Aspace) (tbl : ℕ → Option ℕ) (n F : ℕ) :
    (A.withUser tbl n F).pte = Function.update A.pte n (F + 7) := by
  funext m
  by_cases hm : m = n
  · rw [hm, Function.update_self]
    simp [Aspace.pte, Aspace.withUser]
  · rw [Function.update_of_ne hm]
    simp [Aspace.pte, Aspace.withUser, hm]

theorem Aspace.map_fr_withUser (A : Aspace) (tbl : ℕ → Option ℕ) {F : ℕ} (hn : n ∉ A.us) :
    (A.withUser tbl n F).us.val.map (A.withUser tbl n F).fr = F ::ₘ A.us.val.map A.fr := by
  have hne : ∀ m ∈ A.us.val, m ≠ n := by
    intro m hm hmn
    rw [hmn] at hm
    exact hn hm
  show (insert n A.us).val.map (Function.update A.fr n F) = _
  rw [Finset.insert_val_of_notMem hn, Multiset.map_cons, Function.update_self]
  congr 1
  apply Multiset.map_congr rfl
  intro m hm
  exact Function.update_of_ne (hne m hm) _ _

/-- The new tables belong to the address space. -/
theorem Mapped.keeps_rest {tbl' : ℕ → Option ℕ} {N : List ℕ} (h : Owns P d A rest)
    (hM : Mapped P d A.tbl P' tbl' N) (hnd : P'.live.Nodup) : Keeps (A.us.val.map A.fr + rest) P P' := by
  intro f hf
  obtain ⟨hfl, hfd, hft⟩ : f ∈ P.live ∧ f ≠ d ∧ f ∉ tablesOf A.tbl := by
    rcases Multiset.mem_add.mp hf with hf | hf
    · obtain ⟨n, hn, rfl⟩ := Multiset.mem_map.mp hf
      have hn' : n ∈ A.us := hn
      exact ⟨h.mem_live.mpr (Or.inr (Or.inr (Or.inl ⟨n, hn', rfl⟩))), (h.user_apart hn').1, (h.user_apart hn').2⟩
    · exact ⟨h.mem_live.mpr (Or.inr (Or.inr (Or.inr hf))), (h.rest_apart hf).1, (h.rest_apart hf).2.1⟩
  refine hM.keeps f (h.isFrame hfl) hfd ?_
  rw [hM.tables, Multiset.mem_add, Multiset.mem_coe]
  rintro (hN | hT)
  · rw [hM.live] at hnd
    exact (List.nodup_append.mp hnd).2.2 f hN f hfl rfl
  · exact hft hT

/-- **Kernel mapping.**  A page below 6 MB is mapped to itself. -/
theorem Owns.mapKernel (h : Owns P d A rest) (hn : n < KERNEL_PAGES) {access : ℕ}
    (hacc : access = PAGE_SUPERVISOR ∨ access = PAGE_USER) (hroom : P.live.length < FRAMES) :
    ∃ P' tbl', mapPage P d (PAGE_SIZE * n) (PAGE_SIZE * n) access PAGE_READ_ONLY = .ok P' ∧
      Owns P' d (A.withKernel tbl' n (PAGE_SIZE * n + 1 + access)) rest ∧ Keeps rest P P' ∧
      P'.live.length ≤ P.live.length + 1 := by
  obtain ⟨frees, hA⟩ := h.alloc
  have hmod : PAGE_SIZE * n % PAGE_SIZE = 0 := Nat.mul_mod_right PAGE_SIZE n
  have hentry : PAGE_SIZE * n ||| PAGE_PRESENT ||| access ||| PAGE_READ_ONLY =
      PAGE_SIZE * n + 1 + access := by
    rw [Nat.or_assoc, Nat.or_assoc]
    rcases hacc with rfl | rfl
    · exact or_flags hmod (by decide)
    · rw [or_flags hmod (by decide)]
      rfl
  have hlt : PAGE_SIZE * n + 1 + access < wordSize := by
    rcases hacc with rfl | rfl <;>
      simp only [PAGE_SIZE, wordSize, KERNEL_PAGES, PAGE_SUPERVISOR, PAGE_USER] at * <;> omega
  have hp : n < PAGES := by
    simp only [PAGES, KERNEL_PAGES] at *
    omega
  have hus : n ∉ A.us := by
    intro hmem
    have := (h.user n hmem).1
    simp only [KERNEL_PAGES] at *
    omega
  obtain ⟨P', frees', tbl', N, hok, hA', hR', hN, hM⟩ := mapPage_rep hA h.rep h.placed hp hmod
    hentry hlt fun _ => hroom
  refine ⟨P', tbl', hok, ⟨⟨frees', hA'⟩, ?_, ?_, h.user, ?_⟩, (hM.keeps_rest h hA'.live_nodup).right, ?_⟩
  · rw [Aspace.pte_withKernel A tbl' hus]
    exact hR'
  · show (P'.live : Multiset ℕ) = d ::ₘ (tablesOf tbl' + A.us.val.map A.fr) + rest
    rw [hM.live, ← Multiset.coe_add, h.live, hM.tables, Aspace.owned]
    simp only [← Multiset.singleton_add]
    abel
  · intro m
    show KernelEntry m (Function.update A.kern n (PAGE_SIZE * n + 1 + access) m)
    by_cases hm : m = n
    · rw [hm, Function.update_self]
      right
      rcases hacc with rfl | rfl
      · exact ⟨hn, Or.inl rfl⟩
      · exact ⟨hn, Or.inr rfl⟩
    · rw [Function.update_of_ne hm]
      exact h.kern m
  · rw [hM.live, List.length_append]
    omega

/-- **User mapping.**  A frame of `rest` becomes the frame of a new user page. -/
theorem Owns.mapUser {F : ℕ} (h : Owns P d A (F ::ₘ rest)) (hn : n ∉ A.us)
    (hk : KERNEL_PAGES ≤ n) (hp : n < PAGES) (hroom : P.live.length < FRAMES) :
    ∃ P' tbl', mapPage P d (PAGE_SIZE * n) F PAGE_USER PAGE_READ_WRITE = .ok P' ∧
      Owns P' d (A.withUser tbl' n F) rest ∧ Keeps (A.us.val.map A.fr + F ::ₘ rest) P P' ∧
      P'.live.length ≤ P.live.length + 1 := by
  obtain ⟨frees, hA⟩ := h.alloc
  have hF := (h.isFrame (h.mem_live.mpr (Or.inr (Or.inr (Or.inr (Multiset.mem_cons_self _ _)))))).facts
  have hentry : F ||| PAGE_PRESENT ||| PAGE_USER ||| PAGE_READ_WRITE = F + 7 := by
    rw [Nat.or_assoc, Nat.or_assoc]
    exact or_flags hF.1 (by decide)
  have hlt : F + 7 < wordSize := by
    simp only [PAGE_SIZE, wordSize] at *
    omega
  obtain ⟨P', frees', tbl', N, hok, hA', hR', hN, hM⟩ := mapPage_rep hA h.rep h.placed hp hF.1
    hentry hlt fun _ => hroom
  refine ⟨P', tbl', hok, ⟨⟨frees', hA'⟩, ?_, ?_, ?_, h.kern⟩, hM.keeps_rest h hA'.live_nodup, ?_⟩
  · rw [Aspace.pte_withUser]
    exact hR'
  · rw [Aspace.owned, Aspace.map_fr_withUser A tbl' hn]
    show (P'.live : Multiset ℕ) = d ::ₘ (tablesOf tbl' + F ::ₘ A.us.val.map A.fr) + rest
    rw [hM.live, ← Multiset.coe_add, h.live, hM.tables, Aspace.owned]
    simp only [← Multiset.singleton_add]
    abel
  · intro m hm
    rcases Finset.mem_insert.mp hm with rfl | hm
    · exact ⟨hk, hp⟩
    · exact h.user m hm
  · rw [hM.live, List.length_append]
    omega

/-! ### Looking up and unmapping -/

/-- A user page has a table. -/
theorem Owns.table_of_user (h : Owns P d A rest) (hn : n ∈ A.us) :
    ∃ T, A.tbl (n / 1024) = some T ∧ IsFrame T := by
  have hp := (h.user n hn).2
  have hi : n / 1024 < 1024 := by
    simp only [PAGES] at hp
    omega
  cases ht : A.tbl (n / 1024) with
  | none =>
    have hz := h.rep.none_tbl n hp ht
    simp only [Aspace.pte, if_pos hn] at hz
    omega
  | some T => exact ⟨T, rfl, h.isFrame (h.placed.tbl_mem _ hi T ht)⟩

/-- The entries of a user page: both present, user and writable, and the frame. -/
theorem Owns.entries_of_user (h : Owns P d A rest) (hn : n ∈ A.us) :
    ∃ T, A.tbl (n / 1024) = some T ∧ IsFrame T ∧ dirEntry P.mem d (PAGE_SIZE * n) = T + 7 ∧
      tblEntry P.mem d (PAGE_SIZE * n) = A.fr n + 7 ∧ IsFrame (A.fr n) := by
  have hp := (h.user n hn).2
  obtain ⟨T, ht, hT⟩ := h.table_of_user hn
  refine ⟨T, ht, hT, ?_, ?_, ?_⟩
  · rw [dirEntry_rep h.rep hp, ht]
  · rw [tblEntry_rep h.rep hp ht hT, Aspace.pte, if_pos hn]
  · exact h.isFrame (h.mem_live.mpr (Or.inr (Or.inr (Or.inl ⟨n, hn, rfl⟩))))

theorem Owns.lookupPage (h : Owns P d A rest) (hn : n ∈ A.us) :
    Page.lookupPage P d (PAGE_SIZE * n) = .ok (some (A.fr n)) := by
  obtain ⟨T, -, hT, hdir, htbl, hfr⟩ := h.entries_of_user hn
  have hmod : PAGE_SIZE * n % PAGE_SIZE = 0 := Nat.mul_mod_right PAGE_SIZE n
  simp only [Page.lookupPage, assert_pos hmod, ok_bind, hdir, htbl, (table_entry hT).1,
    (table_entry hfr).1, (table_entry hfr).2]
  rfl

/-- The address space without a user page. -/
def Aspace.without (A : Aspace) (n : ℕ) : Aspace := { A with us := A.us.erase n }

/-- **Unmapping.**  The frame of a user page is given back. -/
theorem Owns.unmap (h : Owns P d A rest) (hn : n ∈ A.us) :
    ∃ P', unmapAndFreePage P d (PAGE_SIZE * n) = .ok P' ∧ Owns P' d (A.without n) rest ∧
      Keeps rest P P' := by
  obtain ⟨frees, hA⟩ := h.alloc
  obtain ⟨T, ht, hT, hdir, htbl, hfr⟩ := h.entries_of_user hn
  obtain ⟨hk, hp⟩ := h.user n hn
  obtain ⟨hfd, hft⟩ := h.user_apart hn
  have hmod : PAGE_SIZE * n % PAGE_SIZE = 0 := Nat.mul_mod_right PAGE_SIZE n
  have hfl : A.fr n ∈ P.live := h.mem_live.mpr (Or.inr (Or.inr (Or.inl ⟨n, hn, rfl⟩)))
  obtain ⟨P₁, frees₁, hfree, hA₁, hF⟩ := freePage_spec hA hfl
  have hi : n / 1024 < 1024 := by
    simp only [PAGES] at hp
    omega
  -- the directory and the tables survive the release of the frame
  have hR₁ : Rep P₁.mem d A.tbl A.pte := by
    refine h.rep_of_keeps (hF.keeps d (h.isFrame h.placed.dir) (Ne.symm hfd)) fun T' hT' => ?_
    obtain ⟨i, hi', hTi⟩ := mem_tablesOf.mp hT'
    refine hF.keeps T' (h.isFrame (h.placed.tbl_mem i hi' T' hTi)) ?_
    intro he
    exact hft (by rw [← he]; exact hT')
  have hlive₁ : (P₁.live : Multiset ℕ) = (A.without n).owned d + rest := by
    rw [hF.live, ← Multiset.coe_erase, h.live, Aspace.owned, Aspace.owned]
    show (d ::ₘ (tablesOf A.tbl + A.us.val.map A.fr) + rest).erase (A.fr n) =
      d ::ₘ (tablesOf A.tbl + (A.us.erase n).val.map A.fr) + rest
    have hus : A.us.val = n ::ₘ (A.us.erase n).val := by
      rw [Finset.erase_val]
      exact (Multiset.cons_erase hn).symm
    rw [hus, Multiset.map_cons]
    have hcomm : d ::ₘ (tablesOf A.tbl + A.fr n ::ₘ Multiset.map A.fr (A.us.erase n).val) + rest =
        A.fr n ::ₘ (d ::ₘ (tablesOf A.tbl + Multiset.map A.fr (A.us.erase n).val) + rest) := by
      simp only [← Multiset.singleton_add]
      abel
    rw [hcomm, Multiset.erase_cons_head]
  have hP₁ : Placed P₁.live d A.tbl := by
    have hin : ∀ f ∈ P.live, f ≠ A.fr n → f ∈ P₁.live := by
      intro f hf hne
      rw [hF.live]
      exact (List.mem_erase_of_ne hne).mpr hf
    refine ⟨hin d h.placed.dir (Ne.symm hfd), ?_, h.placed.tbl_ne, h.placed.tbl_inj⟩
    intro i hi' T' hT'
    refine hin T' (h.placed.tbl_mem i hi' T' hT') ?_
    intro he
    exact hft (by rw [← he]; exact mem_tablesOf.mpr ⟨i, hi', hT'⟩)
  obtain ⟨hA₂, hR₂, hkeep⟩ := storeEntry_rep hA₁ hR₁ hP₁ hp ht (e := 0) (by decide)
  have hok : unmapAndFreePage P d (PAGE_SIZE * n) = .ok
      { P₁ with mem := writeWord P₁.mem (T + 4 * (n % 1024)) 0 } := by
    simp only [unmapAndFreePage, assert_pos hmod, ok_bind, hdir, htbl, (table_entry hT).1,
      (table_entry hT).2, (table_entry hfr).1, (table_entry hfr).2, tblIndex_page, hfree]
    rfl
  refine ⟨_, hok, ⟨⟨frees₁, hA₂⟩, ?_, hlive₁, ?_, h.kern⟩, ?_⟩
  · have hpte : (A.without n).pte = Function.update A.pte n 0 := by
      funext m
      by_cases hm : m = n
      · rw [hm, Function.update_self]
        have hzero : A.kern n = 0 := by
          rcases h.kern n with hz | ⟨hlt, -⟩
          · exact hz
          · omega
        simp [Aspace.pte, Aspace.without, hzero]
      · rw [Function.update_of_ne hm]
        simp [Aspace.pte, Aspace.without, hm]
    rw [hpte]
    exact hR₂
  · intro m hm
    exact h.user m (Finset.mem_of_mem_erase hm)
  · intro f hf
    have hfr' := h.isFrame (h.mem_live.mpr (Or.inr (Or.inr (Or.inr hf))))
    obtain ⟨-, hft', hfu⟩ := h.rest_apart hf
    refine (hF.keeps f hfr' (Ne.symm (hfu n hn))).trans (hkeep f hfr' ?_)
    intro he
    exact hft' (by rw [he]; exact mem_tablesOf.mpr ⟨_, hi, ht⟩)

end AdelaideOS.Page
