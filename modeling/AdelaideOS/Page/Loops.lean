import AdelaideOS.Page.Spaces

/-!
# The loops of `page.c` and of `fork`

Each loop over a range of pages is a fold over page numbers; its lemma is an induction over that list with
the step lemma of `AdelaideOS.Page.Spaces`.  The loops that create user pages differ only in what they put
into the new frame, so they share `Owns.userLoop`.
-/

namespace AdelaideOS.Page

open AdelaideOS.Lib.Bytes AdelaideOS.Lib.Links

variable {P P' : Pages} {d : ℕ} {A : Aspace} {rest : Multiset ℕ} {n : ℕ}

/-- The addresses visited between two page boundaries. -/
theorem pagesOf_eq (a b : ℕ) :
    pagesOf (PAGE_SIZE * a) (PAGE_SIZE * b) = (List.range' a (b - a)).map (PAGE_SIZE * ·) := by
  have hlen : (PAGE_SIZE * b - PAGE_SIZE * a + (PAGE_SIZE - 1)) / PAGE_SIZE = b - a := by
    simp only [PAGE_SIZE]
    omega
  rw [pagesOf, hlen, List.range'_eq_map_range, List.map_map]
  apply List.map_congr_left
  intro i _
  simp only [Function.comp_apply, PAGE_SIZE]
  ring

/-- **Identity mapping.** -/
theorem Owns.identityLoop {access : ℕ} (hacc : access = PAGE_SUPERVISOR ∨ access = PAGE_USER)
    (xs : List ℕ) (h : Owns P d A rest) (hx : ∀ n ∈ xs, n < KERNEL_PAGES)
    (hroom : P.live.length + xs.length ≤ FRAMES) :
    ∃ P' A', xs.foldlM
        (fun P n => mapPage P d (PAGE_SIZE * n) (PAGE_SIZE * n) access PAGE_READ_ONLY) P = .ok P' ∧
      Owns P' d A' rest ∧ Keeps rest P P' ∧ A'.us = A.us ∧ A'.fr = A.fr ∧
      (∀ n, A'.kern n = if n ∈ xs then PAGE_SIZE * n + 1 + access else A.kern n) ∧
      P'.live.length ≤ P.live.length + xs.length := by
  induction xs generalizing P A with
  | nil => exact ⟨P, A, rfl, h, Keeps.refl _ _, rfl, rfl, by simp, by simp⟩
  | cons n xs ih =>
    rw [List.length_cons] at hroom
    obtain ⟨P₁, tbl₁, hok₁, hO₁, hK₁, hlen₁⟩ := h.mapKernel (hx n (by simp)) hacc (by omega)
    obtain ⟨P₂, A₂, hok₂, hO₂, hK₂, hus, hfr, hkern, hlen₂⟩ :=
      ih hO₁ (fun m hm => hx m (by simp [hm])) (by omega)
    refine ⟨P₂, A₂, ?_, hO₂, hK₁.trans hK₂, hus, hfr, ?_, by rw [List.length_cons]; omega⟩
    · rw [List.foldlM_cons, hok₁, ok_bind]
      exact hok₂
    · intro m
      rw [hkern m]
      by_cases hm : m ∈ xs
      · simp [hm]
      · by_cases hmn : m = n
        · simp [hmn, Aspace.withKernel]
        · simp [hm, hmn, Aspace.withKernel]

/-- What a loop that creates user pages `xs` does to an address space. -/
structure Grown (A A' : Aspace) (xs : List ℕ) : Prop where
  us : A'.us = A.us ∪ xs.toFinset
  kern : A'.kern = A.kern
  fr : ∀ m ∈ A.us, A'.fr m = A.fr m

/-- The user pages `xs` hold the bytes `c`. -/
def Aspace.Holds (A : Aspace) (M : Memory) (xs : List ℕ) (c : ℕ → ℕ → UInt8) : Prop :=
  ∀ n ∈ xs, ∀ i < PAGE_SIZE, M (A.fr n + i) = c n i

/-- The frames of an address space and of the others, among those that are live. -/
theorem Owns.mem_of_frame (h : Owns P d A rest) {f : ℕ} (hf : f ∈ A.us.val.map A.fr + rest) : f ∈ P.live := by
  rcases Multiset.mem_add.mp hf with hf | hf
  · obtain ⟨n, hn, hfn⟩ := Multiset.mem_map.mp hf
    exact h.mem_live.mpr (Or.inr (Or.inr (Or.inl ⟨n, hn, hfn⟩)))
  · exact h.mem_live.mpr (Or.inr (Or.inr (Or.inr hf)))

/-- **User pages.**  `step` creates one user page with the bytes `c` and leaves the other user pages and the frames
of `rest` alone. -/
theorem Owns.userLoop (step : Pages → ℕ → Except Fault Pages) (c : ℕ → ℕ → UInt8) (xs : List ℕ)
    (h : Owns P d A rest) (hnd : xs.Nodup) (hx : ∀ n ∈ xs, n ∉ A.us)
    (hroom : P.live.length + 2 * xs.length ≤ FRAMES)
    (hstep : ∀ P₁ A₁ n, n ∈ xs → n ∉ A₁.us → Owns P₁ d A₁ rest → Keeps rest P P₁ →
      P₁.live.length + 2 ≤ FRAMES →
      ∃ P₂ tbl F, step P₁ (PAGE_SIZE * n) = .ok P₂ ∧ Owns P₂ d (A₁.withUser tbl n F) rest ∧
        Keeps (A₁.us.val.map A₁.fr + rest) P₁ P₂ ∧ (∀ i < PAGE_SIZE, P₂.mem (F + i) = c n i) ∧
        P₂.live.length ≤ P₁.live.length + 2) :
    ∃ P' A', (xs.map (PAGE_SIZE * ·)).foldlM step P = .ok P' ∧ Owns P' d A' rest ∧
      Keeps (A.us.val.map A.fr + rest) P P' ∧ Grown A A' xs ∧ A'.Holds P'.mem xs c ∧
      P'.live.length ≤ P.live.length + 2 * xs.length := by
  induction xs generalizing P A with
  | nil =>
    refine ⟨P, A, rfl, h, Keeps.refl _ _, ⟨by simp, rfl, fun _ _ => rfl⟩, ?_, by simp⟩
    intro n hn
    cases hn
  | cons n xs ih =>
    rw [List.length_cons] at hroom
    rw [List.nodup_cons] at hnd
    obtain ⟨P₁, tbl₁, F, hok₁, hO₁, hK₁, hc₁, hlen₁⟩ :=
      hstep P A n (by simp) (hx n (by simp)) h (Keeps.refl _ _) (by omega)
    have hx₁ : ∀ m ∈ xs, m ∉ (A.withUser tbl₁ n F).us := by
      intro m hm hmem
      rcases Finset.mem_insert.mp hmem with rfl | hmem
      · exact hnd.1 hm
      · exact hx m (by simp [hm]) hmem
    obtain ⟨P₂, A₂, hok₂, hO₂, hK₂, hG, hc₂, hlen₂⟩ := ih hO₁ hnd.2 hx₁ (by omega)
      fun P₃ A₃ m hm hmem hO hK hr => hstep P₃ A₃ m (by simp [hm]) hmem hO (hK₁.right.trans hK) hr
    rw [Aspace.map_fr_withUser A tbl₁ (hx n (by simp))] at hK₂
    refine ⟨P₂, A₂, ?_, hO₂, hK₁.trans (hK₂.mono ?_), ⟨?_, hG.kern, ?_⟩, ?_, by rw [List.length_cons]; omega⟩
    · rw [List.map_cons, List.foldlM_cons, hok₁, ok_bind]
      exact hok₂
    · intro f hf
      rw [Multiset.cons_add]
      exact Multiset.mem_cons_of_mem hf
    · rw [hG.us]
      show insert n A.us ∪ xs.toFinset = A.us ∪ (n :: xs).toFinset
      rw [List.toFinset_cons, Finset.union_insert, Finset.insert_union]
    · intro m hm
      have hmn : m ≠ n := by
        intro hmn
        exact hx n (by simp) (by rw [← hmn]; exact hm)
      rw [hG.fr m (Finset.mem_insert_of_mem hm)]
      exact Function.update_of_ne hmn _ _
    · intro m hm i hi
      rcases List.mem_cons.mp hm with rfl | hm
      · -- the later pages leave the first one alone
        have hF : A₂.fr m = F := by
          rw [hG.fr m (Finset.mem_insert_self _ _)]
          exact Function.update_self _ _ _
        rw [hF, ← hc₁ i hi]
        exact hK₂ F (by simp) _ (by omega) (by omega)
      · exact hc₂ m hm i hi

/-- A new frame is zeroed. -/
theorem allocPage_zero {F : ℕ} (h : Page.allocPage P = (F, P')) {i : ℕ} (hi : i < PAGE_SIZE) :
    P'.mem (F + i) = 0 := by
  have hF : F = (Page.allocPage P).1 := by rw [h]
  have hP : P' = (Page.allocPage P).2 := by rw [h]
  rw [hF, hP]
  exact fill_of_inside _ _ (Nat.le_add_right _ _) (Nat.add_lt_add_left hi _)

/-- **A new zeroed user page.** -/
theorem Owns.mapNewPage (h : Owns P d A rest) (hn : n ∉ A.us) (hk : KERNEL_PAGES ≤ n)
    (hp : n < PAGES) (hroom : P.live.length + 2 ≤ FRAMES) :
    ∃ P' tbl F, Page.mapNewPage P d (PAGE_SIZE * n) = .ok P' ∧ Owns P' d (A.withUser tbl n F) rest ∧
      Keeps (A.us.val.map A.fr + rest) P P' ∧ (∀ i < PAGE_SIZE, P'.mem (F + i) = 0) ∧
      P'.live.length ≤ P.live.length + 2 := by
  obtain ⟨F, P₁, hal, hO₁, hK₁, hlen₁⟩ := h.allocPage (by omega)
  obtain ⟨P₂, tbl, hok, hO₂, hK₂, hlen₂⟩ := hO₁.mapUser hn hk hp (by omega)
  refine ⟨P₂, tbl, F, ?_, hO₂, ?_, ?_, by omega⟩
  · rw [Page.mapNewPage, hal]
    exact hok
  · have hold : Keeps (A.us.val.map A.fr + rest) P P₁ :=
      hK₁.mono fun f hf => Multiset.mem_coe.mpr (h.mem_of_frame hf)
    refine hold.trans (hK₂.mono ?_)
    intro f hf
    rw [Multiset.add_cons]
    exact Multiset.mem_cons_of_mem hf
  · intro i hi
    rw [← allocPage_zero hal hi]
    exact hK₂ F (by simp) _ (by omega) (by omega)

/-- The frame of the newest user page may be filled in any way. -/
theorem Owns.fillUser (h : Owns P d A rest) (hn : n ∈ A.us) {M : Memory}
    (hM : ∀ f, IsFrame f → f ≠ A.fr n → AgreeOn P.mem M f PAGE_SIZE) :
    Owns { P with mem := M } d A rest ∧ Keeps rest P { P with mem := M } := by
  obtain ⟨frees, hA⟩ := h.alloc
  obtain ⟨hfd, hft⟩ := h.user_apart hn
  have hfl : A.fr n ∈ P.live := h.mem_live.mpr (Or.inr (Or.inr (Or.inl ⟨n, hn, rfl⟩)))
  refine ⟨⟨⟨frees, ?_⟩, ?_, h.live, h.user, h.kern⟩, ?_⟩
  · apply hA.setMem
    intro f hf
    exact hM f (hA.isFrame (List.mem_append_left _ hf)) (hA.free_ne_live hf hfl)
  · refine h.rep_of_keeps (hM d (h.isFrame h.placed.dir) (Ne.symm hfd)) fun T hT => ?_
    obtain ⟨i, hi, hTi⟩ := mem_tablesOf.mp hT
    refine hM T (h.isFrame (h.placed.tbl_mem i hi T hTi)) ?_
    intro he
    exact hft (by rw [← he]; exact hT)
  · intro f hf
    refine hM f (h.isFrame (h.mem_live.mpr (Or.inr (Or.inr (Or.inr hf))))) ?_
    intro he
    exact (h.rest_apart hf).2.2 n hn he.symm

/-- So may a frame that is not part of the address space yet. -/
theorem Owns.fillNew {F : ℕ} (h : Owns P d A (F ::ₘ rest)) {M : Memory}
    (hM : ∀ f, IsFrame f → f ≠ F → AgreeOn P.mem M f PAGE_SIZE) :
    Owns { P with mem := M } d A (F ::ₘ rest) ∧ Keeps rest P { P with mem := M } := by
  obtain ⟨frees, hA⟩ := h.alloc
  obtain ⟨hFd, hFt, -⟩ := h.rest_apart (Multiset.mem_cons_self F rest)
  have hFl : F ∈ P.live := h.mem_live.mpr (Or.inr (Or.inr (Or.inr (Multiset.mem_cons_self _ _))))
  refine ⟨⟨⟨frees, ?_⟩, ?_, h.live, h.user, h.kern⟩, ?_⟩
  · apply hA.setMem
    intro f hf
    exact hM f (hA.isFrame (List.mem_append_left _ hf)) (hA.free_ne_live hf hFl)
  · refine h.rep_of_keeps (hM d (h.isFrame h.placed.dir) (Ne.symm hFd)) fun T hT => ?_
    obtain ⟨i, hi, hTi⟩ := mem_tablesOf.mp hT
    refine hM T (h.isFrame (h.placed.tbl_mem i hi T hTi)) ?_
    intro he
    exact hFt (by rw [← he]; exact hT)
  · intro f hf
    refine hM f (h.isFrame (h.mem_live.mpr ?_)) ?_
    · exact Or.inr (Or.inr (Or.inr (Multiset.mem_cons_of_mem hf)))
    · intro he
      have hnd := (Multiset.nodup_add.mp h.nodup).2.1
      exact (Multiset.nodup_cons.mp hnd).1 (by rw [← he]; exact hf)

theorem range'_facts (a k : ℕ) :
    (List.range' a k).Nodup ∧ ∀ n, n ∈ List.range' a k ↔ a ≤ n ∧ n < a + k := by
  refine ⟨List.nodup_range', ?_⟩
  intro n
  rw [List.mem_range'_1]

theorem foldlM_congr {α β : Type} {f g : β → α → Except Fault β} (xs : List α)
    (h : ∀ x ∈ xs, ∀ b, f b x = g b x) (b : β) : xs.foldlM f b = xs.foldlM g b := by
  induction xs generalizing b with
  | nil => rfl
  | cons x xs ih =>
    rw [List.foldlM_cons, List.foldlM_cons, h x (by simp)]
    congr 1
    funext b'
    exact ih (fun y hy => h y (by simp [hy])) b'

/-- **`map_new_pages`.**  The new pages are zero. -/
theorem Owns.mapNewPages_zero (h : Owns P d A rest) {a k : ℕ} (hk : KERNEL_PAGES ≤ a)
    (hp : a + k ≤ PAGES) (hx : ∀ n ∈ List.range' a k, n ∉ A.us)
    (hroom : P.live.length + 2 * k ≤ FRAMES) :
    ∃ P' A', Page.mapNewPages P d (PAGE_SIZE * a) k = .ok P' ∧ Owns P' d A' rest ∧
      Keeps (A.us.val.map A.fr + rest) P P' ∧ Grown A A' (List.range' a k) ∧
      A'.Holds P'.mem (List.range' a k) (fun _ _ => 0) ∧ P'.live.length ≤ P.live.length + 2 * k := by
  obtain ⟨hnd, hmem⟩ := range'_facts a k
  have hlen : (List.range' a k).length = k := List.length_range'
  obtain ⟨P', A', hok, hO, hK, hG, hc, hl⟩ :=
    h.userLoop (fun P a => Page.mapNewPage P d a) (fun _ _ => 0) (List.range' a k) hnd hx
      (by rw [hlen]; exact hroom)
      fun P₁ A₁ n hn hus hO₁ _ hr => by
        have hn' := (hmem n).mp hn
        exact hO₁.mapNewPage hus (by omega) (by omega) hr
  refine ⟨P', A', ?_, hO, hK, hG, hc, by rw [hlen] at hl; exact hl⟩
  have hmod : PAGE_SIZE * a % PAGE_SIZE = 0 := Nat.mul_mod_right PAGE_SIZE a
  rw [Page.mapNewPages, assert_pos hmod, ok_bind, ← hok, List.range'_eq_map_range, List.map_map,
    List.foldlM_map]
  apply foldlM_congr
  intro i hi P
  rw [List.mem_range] at hi
  -- the range ends below 2 ^ 32, so the address does not wrap
  have haddr : (PAGE_SIZE * a + i * PAGE_SIZE) % wordSize = PAGE_SIZE * (a + i) := by
    simp only [PAGE_SIZE, wordSize, PAGES] at *
    omega
  rw [haddr]
  rfl

/-- The same without the contents. -/
theorem Owns.mapNewPages (h : Owns P d A rest) {a k : ℕ} (hk : KERNEL_PAGES ≤ a)
    (hp : a + k ≤ PAGES) (hx : ∀ n ∈ List.range' a k, n ∉ A.us)
    (hroom : P.live.length + 2 * k ≤ FRAMES) :
    ∃ P' A', Page.mapNewPages P d (PAGE_SIZE * a) k = .ok P' ∧ Owns P' d A' rest ∧ Keeps rest P P' ∧
      Grown A A' (List.range' a k) ∧ P'.live.length ≤ P.live.length + 2 * k := by
  obtain ⟨P', A', hok, hO, hK, hG, -, hl⟩ := h.mapNewPages_zero hk hp hx hroom
  exact ⟨P', A', hok, hO, hK.right, hG, hl⟩

/-! ### Releasing -/

/-- **Unmapping a range.** -/
theorem Owns.unmapLoop (xs : List ℕ) (h : Owns P d A rest) (hnd : xs.Nodup) (hx : ∀ n ∈ xs, n ∈ A.us) :
    ∃ P', (xs.map (PAGE_SIZE * ·)).foldlM (fun P addr => unmapAndFreePage P d addr) P = .ok P' ∧
      Owns P' d { A with us := A.us \ xs.toFinset } rest ∧ Keeps rest P P' := by
  induction xs generalizing P A with
  | nil =>
    refine ⟨P, rfl, ?_, Keeps.refl _ _⟩
    rw [List.toFinset_nil, Finset.sdiff_empty]
    exact h
  | cons n xs ih =>
    rw [List.nodup_cons] at hnd
    obtain ⟨P₁, hok₁, hO₁, hK₁⟩ := h.unmap (hx n (by simp))
    have hx₁ : ∀ m ∈ xs, m ∈ (A.without n).us := by
      intro m hm
      refine Finset.mem_erase.mpr ⟨?_, hx m (by simp [hm])⟩
      intro hmn
      exact hnd.1 (by rw [← hmn]; exact hm)
    obtain ⟨P₂, hok₂, hO₂, hK₂⟩ := ih hO₁ hnd.2 hx₁
    refine ⟨P₂, ?_, ?_, hK₁.trans hK₂⟩
    · rw [List.map_cons, List.foldlM_cons, hok₁, ok_bind]
      exact hok₂
    · have hus : (A.without n).us \ xs.toFinset = A.us \ (n :: xs).toFinset := by
        ext m
        simp only [Aspace.without, Finset.mem_sdiff, Finset.mem_erase, List.mem_toFinset,
          List.mem_cons]
        tauto
      rw [hus] at hO₂
      exact hO₂

/-- **`unmapRange`.** -/
theorem Owns.unmapRange (h : Owns P d A rest) {a b : ℕ} (hx : Finset.Ico a b ⊆ A.us) :
    ∃ P', Page.unmapRange P d (PAGE_SIZE * a) (PAGE_SIZE * b) = .ok P' ∧
      Owns P' d { A with us := A.us \ Finset.Ico a b } rest ∧ Keeps rest P P' := by
  obtain ⟨hnd, hmem⟩ := range'_facts a (b - a)
  have hset : (List.range' a (b - a)).toFinset = Finset.Ico a b := by
    ext m
    rw [List.mem_toFinset, hmem, Finset.mem_Ico]
    omega
  obtain ⟨P', hok, hO, hK⟩ := h.unmapLoop (List.range' a (b - a)) hnd fun n hn => by
    apply hx
    rw [← hset, List.mem_toFinset]
    exact hn
  rw [hset] at hO
  refine ⟨P', ?_, hO, hK⟩
  rw [Page.unmapRange, pagesOf_eq]
  exact hok

/-- The tables of a directory are given back one by one. -/
theorem freeTables_spec {frees : List ℕ} (is : List ℕ) (tbl : ℕ → Option ℕ) (hA : Alloc P frees)
    (hlive : (P.live : Multiset ℕ) = d ::ₘ (↑(is.filterMap tbl) + rest))
    (hnone : ∀ i ∈ is, tbl i = none → readWord P.mem (d + 4 * i) = 0)
    (hsome : ∀ i ∈ is, ∀ T, tbl i = some T → readWord P.mem (d + 4 * i) = T + 7)
    (hi : ∀ i ∈ is, i < 1024) :
    ∃ P' frees', is.foldlM (freeTable d) P = .ok P' ∧ Alloc P' frees' ∧
      (P'.live : Multiset ℕ) = d ::ₘ rest ∧ Keeps (d ::ₘ rest) P P' := by
  induction is generalizing P frees with
  | nil =>
    refine ⟨P, frees, rfl, hA, ?_, Keeps.refl _ _⟩
    rw [hlive]
    simp
  | cons i is ih =>
    cases ht : tbl i with
    | none =>
      rw [List.filterMap_cons_none ht] at hlive
      have hskip : freeTable d P i = .ok P := by
        rw [freeTable, hnone i (by simp) ht]
        rfl
      obtain ⟨P', frees', hok, h'⟩ := ih hA hlive (fun j hj => hnone j (by simp [hj]))
        (fun j hj => hsome j (by simp [hj])) (fun j hj => hi j (by simp [hj]))
      refine ⟨P', frees', ?_, h'⟩
      rw [List.foldlM_cons, hskip, ok_bind]
      exact hok
    | some T =>
      rw [List.filterMap_cons_some ht, ← Multiset.cons_coe, Multiset.cons_add] at hlive
      have hTl : T ∈ P.live := by
        rw [← Multiset.mem_coe, hlive]
        simp
      have hdl : d ∈ P.live := by
        rw [← Multiset.mem_coe, hlive]
        simp
      have hnd : (d ::ₘ T ::ₘ (↑(is.filterMap tbl) + rest) : Multiset ℕ).Nodup := by
        rw [← hlive, Multiset.coe_nodup]
        exact hA.live_nodup
      rw [Multiset.nodup_cons, Multiset.nodup_cons] at hnd
      have hdT : d ≠ T := by
        intro he
        exact hnd.1 (by rw [he]; exact Multiset.mem_cons_self _ _)
      obtain ⟨P₁, frees₁, hfree, hA₁, hF⟩ := freePage_spec hA hTl
      have hlive₁ : (P₁.live : Multiset ℕ) = d ::ₘ (↑(is.filterMap tbl) + rest) := by
        rw [hF.live, ← Multiset.coe_erase, hlive, Multiset.erase_cons_tail _ hdT,
          Multiset.erase_cons_head]
      have hkeep := hF.keeps d (hA.isFrame_live hdl) hdT
      have hword : ∀ j ∈ is, readWord P₁.mem (d + 4 * j) = readWord P.mem (d + 4 * j) := by
        intro j hj
        have := hi j (by simp [hj])
        exact hkeep.readWord (by omega) (by simp only [PAGE_SIZE]; omega)
      obtain ⟨P', frees', hok, hA', hlive', hK⟩ := ih hA₁ hlive₁
        (fun j hj hj' => by rw [hword j hj]; exact hnone j (by simp [hj]) hj')
        (fun j hj T' hj' => by rw [hword j hj]; exact hsome j (by simp [hj]) T' hj')
        (fun j hj => hi j (by simp [hj]))
      refine ⟨P', frees', ?_, hA', hlive', Keeps.trans ?_ hK⟩
      · have hT := table_entry (hA.isFrame_live hTl)
        have hgo : freeTable d P i = .ok P₁ := by
          have hp : ¬ (T + 7) &&& PAGE_PRESENT = 0 := by
            rw [hT.1]
            decide
          rw [freeTable, hsome i (by simp) T ht, if_neg hp, hT.2]
          exact hfree
        rw [List.foldlM_cons, hgo, ok_bind]
        exact hok
      · intro f hf
        have hfl : f ∈ P.live := by
          rw [← Multiset.mem_coe, hlive]
          rcases Multiset.mem_cons.mp hf with rfl | hf
          · simp
          · simp [hf]
        refine hF.keeps f (hA.isFrame_live hfl) ?_
        intro he
        rw [he] at hf
        rcases Multiset.mem_cons.mp hf with he' | hf
        · exact hdT he'.symm
        · exact hnd.2.1 (Multiset.mem_add.mpr (Or.inr hf))

/-- **`free_page_dir`** of an address space without user pages. -/
theorem Owns.freePageDir (h : Owns P d A rest) (hus : A.us = ∅) :
    ∃ P' frees', Page.freePageDir P d = .ok P' ∧ Alloc P' frees' ∧ (P'.live : Multiset ℕ) = rest ∧
      Keeps rest P P' := by
  obtain ⟨frees, hA⟩ := h.alloc
  have hlive : (P.live : Multiset ℕ) = d ::ₘ (↑((List.range 1024).filterMap A.tbl) + rest) := by
    rw [h.live, Aspace.owned, hus, tablesOf_coe, Finset.empty_val, Multiset.map_zero, add_zero,
      Multiset.cons_add]
  obtain ⟨P₁, frees₁, hok₁, hA₁, hlive₁, hK₁⟩ := freeTables_spec (List.range 1024) A.tbl hA hlive
    (fun i hi => h.rep.none_dir i (List.mem_range.mp hi))
    (fun i hi => h.rep.some_dir i (List.mem_range.mp hi))
    (fun i hi => List.mem_range.mp hi)
  have hdl : d ∈ P₁.live := by
    rw [← Multiset.mem_coe, hlive₁]
    exact Multiset.mem_cons_self _ _
  have hdr : d ∉ rest := by
    intro hd
    exact (h.rest_apart hd).1 rfl
  obtain ⟨P₂, frees₂, hok₂, hA₂, hF⟩ := freePage_spec hA₁ hdl
  refine ⟨P₂, frees₂, ?_, hA₂, ?_, (hK₁.mono fun f hf => Multiset.mem_cons_of_mem hf).trans ?_⟩
  · rw [Page.freePageDir, hok₁, ok_bind]
    exact hok₂
  · rw [hF.live, ← Multiset.coe_erase, hlive₁, Multiset.erase_cons_head]
  · intro f hf
    have hfl : f ∈ P₁.live := by
      rw [← Multiset.mem_coe, hlive₁]
      exact Multiset.mem_cons_of_mem hf
    refine hF.keeps f (hA₁.isFrame_live hfl) ?_
    intro he
    exact hdr (by rw [← he]; exact hf)

/-- The number of live frames. -/
theorem Owns.length_live (h : Owns P d A rest) :
    P.live.length = (tablesOf A.tbl).card + A.us.card + 1 + rest.card := by
  rw [← Multiset.coe_card, h.live, Multiset.card_add, Aspace.owned, Multiset.card_cons,
    Multiset.card_add, Multiset.card_map]
  rfl

/-! ### Two address spaces -/

/-- Directory `d` describes `A`. -/
structure Describes (M : Memory) (d : ℕ) (A : Aspace) : Prop where
  rep : Rep M d A.tbl A.pte
  user : ∀ n ∈ A.us, KERNEL_PAGES ≤ n ∧ n < PAGES
  kern : ∀ n, KernelEntry n (A.kern n)

theorem Owns.describes (h : Owns P d A rest) : Describes P.mem d A := ⟨h.rep, h.user, h.kern⟩

/-- The same memory seen from another address space. -/
theorem Owns.other {s : ℕ} {B : Aspace} {r : Multiset ℕ} (h : Owns P d A (B.owned s + r))
    (hB : Describes P.mem s B) : Owns P s B (A.owned d + r) := by
  refine ⟨h.alloc, hB.rep, ?_, hB.user, hB.kern⟩
  rw [h.live, add_left_comm]

/-- A description depends on the owned frames only. -/
theorem Describes.congr {M M' : Memory} (h : Describes M d A)
    (hK : ∀ f ∈ A.owned d, AgreeOn M M' f PAGE_SIZE) : Describes M' d A := by
  refine ⟨h.rep.congr (hK d (Multiset.mem_cons_self _ _)) ?_, h.user, h.kern⟩
  intro i hi T hT
  apply hK
  exact Multiset.mem_cons_of_mem (Multiset.mem_add.mpr (Or.inl (mem_tablesOf.mpr ⟨i, hi, hT⟩)))

theorem copy_of_inside (M : Memory) {dst src len i : ℕ} (hi : i < len) :
    copy M dst src len (dst + i) = M (src + i) := by
  simp only [copy]
  rw [if_pos (by omega), Nat.add_sub_cancel_left]

/-- **One round of `map_and_copy`.** -/
theorem Owns.mapAndCopyPage {s : ℕ} {B : Aspace} {r : Multiset ℕ} (h : Owns P d A (B.owned s + r))
    (hB : Describes P.mem s B) (hn : n ∉ A.us) (hsrc : n ∈ B.us) (hroom : P.live.length + 2 ≤ FRAMES) :
    ∃ P' tbl F, Page.mapAndCopyPage s d P (PAGE_SIZE * n) = .ok P' ∧
      Owns P' d (A.withUser tbl n F) (B.owned s + r) ∧ Keeps (A.us.val.map A.fr + (B.owned s + r)) P P' ∧
      (∀ i < PAGE_SIZE, P'.mem (F + i) = P.mem (B.fr n + i)) ∧ P'.live.length ≤ P.live.length + 2 := by
  obtain ⟨hk, hp⟩ := hB.user n hsrc
  obtain ⟨F, P₁, hal, hO₁, hK₁, hlen₁⟩ := h.allocPage (by omega)
  obtain ⟨P₂, tbl, hmap, hO₂, hK₂, hlen₂⟩ := hO₁.mapUser hn hk hp (by omega)
  have hKr : Keeps (A.us.val.map A.fr + (B.owned s + r)) P P₂ := by
    refine Keeps.trans (hK₁.mono fun f hf => Multiset.mem_coe.mpr (h.mem_of_frame hf)) (hK₂.mono ?_)
    intro f hf
    rw [Multiset.add_cons]
    exact Multiset.mem_cons_of_mem hf
  have hB₂ : Describes P₂.mem s B := hB.congr fun f hf => hKr.right.left f hf
  have hlook := (hO₂.other hB₂).lookupPage hsrc
  have hnew : n ∈ (A.withUser tbl n F).us := Finset.mem_insert_self _ _
  have hF : (A.withUser tbl n F).fr n = F := Function.update_self _ _ _
  have hFframe : IsFrame F := by
    rw [← hF]
    exact hO₂.isFrame (hO₂.mem_live.mpr (Or.inr (Or.inr (Or.inl ⟨n, hnew, rfl⟩))))
  have hcopy : ∀ f, IsFrame f → f ≠ F → AgreeOn P₂.mem (copy P₂.mem F (B.fr n) PAGE_SIZE) f PAGE_SIZE := by
    intro f hf hne
    have happ := hf.apart hFframe hne
    exact agreeOn_copy _ (by omega)
  obtain ⟨hO₃, hK₃⟩ := hO₂.fillUser hnew (M := copy P₂.mem F (B.fr n) PAGE_SIZE) fun f hf hne => by
    rw [hF] at hne
    exact hcopy f hf hne
  refine ⟨_, tbl, F, ?_, hO₃, hKr.trans ?_, ?_, by show P₂.live.length ≤ _; omega⟩
  · rw [Page.mapAndCopyPage, hal]
    show (mapPage P₁ d (PAGE_SIZE * n) F PAGE_USER PAGE_READ_WRITE >>= _) = _
    rw [hmap, ok_bind, hlook, ok_bind]
    rfl
  · intro f hf
    refine hcopy f (h.isFrame (h.mem_of_frame hf)) ?_
    -- the new frame was live for nobody
    obtain ⟨-, -, hus⟩ := hO₁.rest_apart (Multiset.mem_cons_self F _)
    rintro rfl
    rcases Multiset.mem_add.mp hf with hf | hf
    · obtain ⟨m, hm, hmf⟩ := Multiset.mem_map.mp hf
      exact hus m hm hmf
    · have hnd := (Multiset.nodup_add.mp hO₁.nodup).2.1
      exact (Multiset.nodup_cons.mp hnd).1 hf
  · intro i hi
    show copy P₂.mem F (B.fr n) PAGE_SIZE (F + i) = _
    rw [copy_of_inside _ hi]
    refine hKr.right.left (B.fr n) ?_ _ (by omega) (by omega)
    exact Multiset.mem_cons_of_mem (Multiset.mem_add.mpr (Or.inr (Multiset.mem_map_of_mem B.fr hsrc)))

/-- **`map_and_copy`** of a range that the source maps. -/
theorem Owns.mapAndCopy {s : ℕ} {B : Aspace} {r : Multiset ℕ} {a b : ℕ}
    (h : Owns P d A (B.owned s + r)) (hB : Describes P.mem s B) (hsrc : Finset.Ico a b ⊆ B.us)
    (hx : ∀ n ∈ Finset.Ico a b, n ∉ A.us) (hroom : P.live.length + 2 * (b - a) ≤ FRAMES) :
    ∃ P' A', Page.mapAndCopy P s d (PAGE_SIZE * a) (PAGE_SIZE * b) = .ok P' ∧
      Owns P' d A' (B.owned s + r) ∧ Keeps (A.us.val.map A.fr + (B.owned s + r)) P P' ∧
      Grown A A' (List.range' a (b - a)) ∧
      A'.Holds P'.mem (List.range' a (b - a)) (fun n i => P.mem (B.fr n + i)) ∧
      P'.live.length ≤ P.live.length + 2 * (b - a) := by
  obtain ⟨hnd, hmem⟩ := range'_facts a (b - a)
  have hlen : (List.range' a (b - a)).length = b - a := List.length_range'
  have hico : ∀ n ∈ List.range' a (b - a), n ∈ Finset.Ico a b := by
    intro n hn
    rw [hmem] at hn
    rw [Finset.mem_Ico]
    omega
  obtain ⟨P', A', hok, hO, hK, hG, hH, hl⟩ :=
    h.userLoop (Page.mapAndCopyPage s d) (fun n i => P.mem (B.fr n + i)) (List.range' a (b - a)) hnd
      (fun n hn => hx n (hico n hn)) (by rw [hlen]; exact hroom)
      fun P₁ A₁ n hn hus hO₁ hK₁ hr => by
        have hn' := hsrc (hico n hn)
        obtain ⟨P₂, tbl, F, hok₂, hO₂, hK₂, hc₂, hlen₂⟩ :=
          hO₁.mapAndCopyPage (hB.congr fun f hf => hK₁.left f hf) hus hn' hr
        refine ⟨P₂, tbl, F, hok₂, hO₂, hK₂, ?_, hlen₂⟩
        intro i hi
        rw [hc₂ i hi]
        refine hK₁.left (B.fr n) ?_ _ (by omega) (by omega)
        exact Multiset.mem_cons_of_mem (Multiset.mem_add.mpr (Or.inr (Multiset.mem_map_of_mem B.fr hn')))
  refine ⟨P', A', ?_, hO, hK, hG, hH, by rw [hlen] at hl; exact hl⟩
  rw [Page.mapAndCopy, assert_pos (Nat.mul_mod_right PAGE_SIZE a), ok_bind,
    assert_pos (Nat.mul_mod_right PAGE_SIZE b), ok_bind, pagesOf_eq]
  exact hok

end AdelaideOS.Page
