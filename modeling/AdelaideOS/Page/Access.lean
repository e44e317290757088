import AdelaideOS.Page.Sharing

/-!
# What an address space lets through

The processor's view of an address space that a directory describes: user pages are present and writable for
the user, kernel pages are mapped to themselves and are never writable for the user.  A store through the
directory that does not hit the memory of the kernel changes the frame of a user page, so it disturbs no other
address space.
-/

namespace AdelaideOS.Page

open AdelaideOS.Lib.Bytes

variable {P P' : Pages} {d a x : ℕ} {A : Aspace} {rest : Multiset ℕ}

/-- The page of an address. -/
def pageOf (a : ℕ) : ℕ := a / PAGE_SIZE

theorem pageOf_lt (h : a < wordSize) : pageOf a < PAGES := by
  simp only [pageOf, PAGE_SIZE, wordSize, PAGES] at *
  omega

theorem dirEntry_pageOf (M : Memory) (d a : ℕ) :
    dirEntry M d a = dirEntry M d (PAGE_SIZE * pageOf a) := by
  have h : dirIndex a = dirIndex (PAGE_SIZE * pageOf a) := by
    simp only [dirIndex, pageOf, PAGE_SIZE]
    omega
  rw [dirEntry, dirEntry, h]

theorem tblEntry_pageOf (M : Memory) (d a : ℕ) :
    tblEntry M d a = tblEntry M d (PAGE_SIZE * pageOf a) := by
  have h : tblIndex a = tblIndex (PAGE_SIZE * pageOf a) := by
    simp only [tblIndex, pageOf, PAGE_SIZE]
    omega
  rw [tblEntry, tblEntry, ← dirEntry_pageOf, h]

/-- A page without a table is absent. -/
theorem Owns.dirEntry_none (h : Owns P d A rest) (ha : a < wordSize)
    (ht : A.tbl (pageOf a / 1024) = none) : dirEntry P.mem d a = 0 := by
  rw [dirEntry_pageOf, dirEntry_rep h.rep (pageOf_lt ha), ht]

/-- The entries of a page with a table. -/
theorem Owns.entries (h : Owns P d A rest) (ha : a < wordSize) {T : ℕ}
    (ht : A.tbl (pageOf a / 1024) = some T) :
    dirEntry P.mem d a = T + 7 ∧ tblEntry P.mem d a = A.pte (pageOf a) ∧ IsFrame T := by
  have hp := pageOf_lt ha
  have hi : pageOf a / 1024 < 1024 := by
    simp only [PAGES] at hp
    omega
  have hT := h.isFrame (h.placed.tbl_mem _ hi T ht)
  refine ⟨?_, ?_, hT⟩
  · rw [dirEntry_pageOf, dirEntry_rep h.rep hp, ht]
  · rw [tblEntry_pageOf, tblEntry_rep h.rep hp ht hT]

/-- Translation reads the entry of the page. -/
theorem Owns.translate_eq (h : Owns P d A rest) (ha : a < wordSize) :
    translate P.mem d a =
      if A.pte (pageOf a) &&& PAGE_PRESENT = 0 then none
      else some ((A.pte (pageOf a) &&& PAGE_ADDRESS_MASK) + a % PAGE_SIZE) := by
  cases ht : A.tbl (pageOf a / 1024) with
  | none =>
    rw [translate, h.dirEntry_none ha ht, h.rep.none_tbl _ (pageOf_lt ha) ht]
    rfl
  | some T =>
    obtain ⟨hdir, htbl, hT⟩ := h.entries ha ht
    rw [translate, hdir, htbl, (table_entry hT).1]
    rfl

theorem Grown.refl (A : Aspace) : Grown A A [] := ⟨by simp, rfl, fun _ _ => rfl⟩

/-- New user pages leave the pages that are mapped where they are. -/
theorem Owns.translate_grown {A' : Aspace} {rest' : Multiset ℕ} {xs : List ℕ} (h : Owns P d A rest)
    (h' : Owns P' d A' rest') (hG : Grown A A' xs) (hx : ∀ n ∈ xs, KERNEL_PAGES ≤ n) (ha : a < wordSize)
    (hm : translate P.mem d a = some x) : translate P'.mem d a = some x := by
  have hpte : A'.pte (pageOf a) = A.pte (pageOf a) := by
    by_cases hn : pageOf a ∈ A.us
    · have hn' : pageOf a ∈ A'.us := by
        rw [hG.us]
        exact Finset.mem_union_left _ hn
      rw [Aspace.pte, Aspace.pte, if_pos hn, if_pos hn', hG.fr _ hn]
    · by_cases hnew : pageOf a ∈ xs
      · -- a page above the kernel that is not the user's is absent
        have hzero : A.pte (pageOf a) = 0 := by
          rw [Aspace.pte, if_neg hn]
          rcases h.kern (pageOf a) with hz | ⟨hlt, -⟩
          · exact hz
          · have := hx _ hnew
            omega
        rw [h.translate_eq ha, hzero] at hm
        cases hm
      · have hn' : pageOf a ∉ A'.us := by
          rw [hG.us]
          simp [hn, hnew]
        rw [Aspace.pte, Aspace.pte, if_neg hn, if_neg hn', hG.kern]
  rw [h'.translate_eq ha, hpte, ← h.translate_eq ha]
  exact hm

/-- **User pages** are present and writable for the user. -/
theorem Owns.user_page (h : Owns P d A rest) (ha : a < wordSize) (hn : pageOf a ∈ A.us) :
    translate P.mem d a = some (A.fr (pageOf a) + a % PAGE_SIZE) ∧ userWritable P.mem d a ∧
      IsFrame (A.fr (pageOf a)) ∧ tblEntry P.mem d a &&& PAGE_ADDRESS_MASK = A.fr (pageOf a) := by
  obtain ⟨T, ht, -⟩ := h.table_of_user hn
  obtain ⟨hdir, htbl, hT⟩ := h.entries ha ht
  have hfr : IsFrame (A.fr (pageOf a)) :=
    h.isFrame (h.mem_live.mpr (Or.inr (Or.inr (Or.inl ⟨_, hn, rfl⟩))))
  rw [Aspace.pte, if_pos hn] at htbl
  have hdp := table_entry hT
  have hfp := table_entry hfr
  have hflags : ∀ {f c : ℕ}, IsFrame f → c < PAGE_SIZE → (f + 7) &&& c = 7 &&& c :=
    fun hf hc => and_flag_add hf.facts.1 (by decide) hc
  refine ⟨?_, ⟨⟨?_, ?_, ?_, ?_⟩, ?_, ?_⟩, hfr, ?_⟩
  · rw [translate, hdir, htbl, hdp.1, hfp.1, hfp.2]
    rfl
  · rw [hdir, hdp.1]
    decide
  · rw [htbl, hfp.1]
    decide
  · rw [hdir, hflags hT (by decide)]
    decide
  · rw [htbl, hflags hfr (by decide)]
    decide
  · rw [hdir, hflags hT (by decide)]
    decide
  · rw [htbl, hflags hfr (by decide)]
    decide
  · rw [htbl, hfp.2]

/-- **Other pages** are absent or map the kernel to itself, and are not writable for the user. -/
theorem Owns.kernel_page (h : Owns P d A rest) (ha : a < wordSize) (hn : pageOf a ∉ A.us) :
    ¬ userWritable P.mem d a ∧ (∀ x, translate P.mem d a = some x → x < PAGE_START) ∧
      (userAccessible P.mem d a ↔ A.kern (pageOf a) = PAGE_SIZE * pageOf a + 5) := by
  have hp := pageOf_lt ha
  cases ht : A.tbl (pageOf a / 1024) with
  | none =>
    have hz := h.rep.none_tbl _ hp ht
    rw [Aspace.pte, if_neg hn] at hz
    have hdir := h.dirEntry_none ha ht
    refine ⟨?_, ?_, ?_⟩
    · intro hw
      exact hw.1.1 (by rw [hdir]; decide)
    · intro x hx
      rw [translate, hdir] at hx
      cases hx
    · constructor
      · intro hu
        exact absurd (by rw [hdir]; decide) hu.1
      · intro he
        rw [hz] at he
        omega
  | some T =>
    obtain ⟨hdir, htbl, hT⟩ := h.entries ha ht
    rw [Aspace.pte, if_neg hn] at htbl
    have hdp := table_entry hT
    have hk := h.kern (pageOf a)
    have hmod : PAGE_SIZE * pageOf a % PAGE_SIZE = 0 := Nat.mul_mod_right _ _
    have hpage : PAGE_SIZE * pageOf a + a % PAGE_SIZE = a := Nat.div_add_mod a PAGE_SIZE
    -- the entry with its flags, when it is present
    have key : ∀ b, b = 1 ∨ b = 5 → A.kern (pageOf a) = PAGE_SIZE * pageOf a + b →
        pageOf a < KERNEL_PAGES → ¬ userWritable P.mem d a ∧
        (∀ x, translate P.mem d a = some x → x < PAGE_START) ∧ (userAccessible P.mem d a ↔ b = 5) := by
      intro b hb he hlt
      have hb' : b < PAGE_SIZE := by rcases hb with rfl | rfl <;> decide
      rw [he] at htbl
      have hflag : ∀ c, c < PAGE_SIZE → tblEntry P.mem d a &&& c = b &&& c := by
        intro c hc
        rw [htbl]
        exact and_flag_add hmod hb' hc
      have hlt' : PAGE_SIZE * pageOf a + b < wordSize := by
        simp only [PAGE_SIZE, KERNEL_PAGES, wordSize] at *
        omega
      refine ⟨?_, ?_, ?_⟩
      · intro hw
        apply hw.2.2
        rw [hflag _ (by decide)]
        rcases hb with rfl | rfl <;> decide
      · intro x hx
        have hpres : ¬ tblEntry P.mem d a &&& PAGE_PRESENT = 0 := by
          rw [hflag _ (by decide)]
          rcases hb with rfl | rfl <;> decide
        rw [translate, hdir, hdp.1, if_neg (by decide), if_neg hpres, htbl,
          and_mask_add hmod hb' hlt', hpage] at hx
        obtain rfl := Option.some.inj hx
        simp only [pageOf, PAGE_SIZE, KERNEL_PAGES, PAGE_START, MB] at *
        omega
      · constructor
        · intro hu
          rcases hb with rfl | rfl
          · exact absurd (by rw [hflag _ (by decide)]; decide) hu.2.2.2
          · rfl
        · rintro rfl
          refine ⟨?_, ?_, ?_, ?_⟩
          · rw [hdir, hdp.1]
            decide
          · rw [hflag _ (by decide)]
            decide
          · rw [hdir, and_flag_add hT.facts.1 (by decide) (by decide)]
            decide
          · rw [hflag _ (by decide)]
            decide
    rcases hk with hz | ⟨hlt, he | he⟩
    · rw [hz] at htbl
      refine ⟨?_, ?_, ?_⟩
      · intro hw
        exact hw.1.2.1 (by rw [htbl]; decide)
      · intro x hx
        rw [translate, htbl] at hx
        split at hx <;> cases hx
      · constructor
        · intro hu
          exact absurd (by rw [htbl]; decide) hu.2.1
        · intro he
          rw [hz] at he
          omega
    · obtain ⟨h1, h2, h3⟩ := key 1 (Or.inl rfl) he hlt
      refine ⟨h1, h2, h3.trans ?_⟩
      rw [he]
      omega
    · obtain ⟨h1, h2, h3⟩ := key 5 (Or.inr rfl) he hlt
      refine ⟨h1, h2, h3.trans ?_⟩
      rw [he]
      simp

/-! ### Stores -/

/-- Stores through the directory `d` that do not hit the memory of the kernel. -/
inductive Scribbles (d : ℕ) : Pages → Pages → Prop where
  | refl (P : Pages) : Scribbles d P P
  | step {P P₁ : Pages} {a x : ℕ} (b : UInt8) : Scribbles d P P₁ → a < wordSize →
      translate P₁.mem d a = some x → PAGE_START ≤ x →
      Scribbles d P { P₁ with mem := Function.update P₁.mem x b }

theorem Scribbles.trans {d : ℕ} {P P' P'' : Pages} (h : Scribbles d P P') (h' : Scribbles d P' P'') :
    Scribbles d P P'' := by
  induction h' with
  | refl => exact h
  | step b _ ha hx hlow ih => exact .step b ih ha hx hlow

/-- **One store.** -/
theorem Owns.store (h : Owns P d A rest) (ha : a < wordSize) (hx : translate P.mem d a = some x)
    (hlow : PAGE_START ≤ x) (b : UInt8) :
    Owns { P with mem := Function.update P.mem x b } d A rest ∧
      Keeps rest P { P with mem := Function.update P.mem x b } := by
  have hn : pageOf a ∈ A.us := by
    by_contra hn
    have := (h.kernel_page ha hn).2.1 x hx
    omega
  obtain ⟨htr, -, hfr, -⟩ := h.user_page ha hn
  rw [htr] at hx
  obtain rfl := Option.some.inj hx
  refine h.fillUser hn fun f hf hne y h1 h2 => ?_
  apply Function.update_of_ne
  intro hy
  have happ := hf.apart hfr hne
  have := Nat.mod_lt a (show 0 < PAGE_SIZE by decide)
  omega

/-- **Any number of stores.** -/
theorem Owns.scribbles (h : Owns P d A rest) (hs : Scribbles d P P') :
    Owns P' d A rest ∧ Keeps rest P P' := by
  induction hs with
  | refl => exact ⟨h, Keeps.refl _ _⟩
  | step b _ ha hx hlow ih =>
    obtain ⟨hO, hK⟩ := ih
    obtain ⟨hO', hK'⟩ := hO.store ha hx hlow b
    exact ⟨hO', hK.trans hK'⟩

end AdelaideOS.Page
