import AdelaideOS.Kernel.Calls
import AdelaideOS.Page.Sharing

/-!
# What the kernel does to one address space

A process has a text segment of `t` pages and a data segment of `d` pages at their fixed bases, and a stack of
16 pages below its base.  `Shaped s A t d` says that the address space `A` maps these pages for the user, and
no others, and that the ranges in `s` are theirs.

The lemmas say that the page operations of `start_process`, `fork`, `brk`, `execve` and `kill_process` succeed
and what they make of an address space.
-/

namespace AdelaideOS.Kernel

open AdelaideOS.Lib.Bytes AdelaideOS.Page

/-! ### Segments -/

abbrev TEXT_PAGE : ℕ := 65536
abbrev DATA_PAGE : ℕ := 131072
abbrev STACK_PAGE : ℕ := 262144
abbrev STACK_PAGES : ℕ := 16
abbrev MAX_TEXT : ℕ := 512
abbrev MAX_DATA : ℕ := 1024

/-- The page numbers of the three segments. -/
def segPages (t d : ℕ) : Finset ℕ :=
  Finset.Ico TEXT_PAGE (TEXT_PAGE + t) ∪ Finset.Ico DATA_PAGE (DATA_PAGE + d) ∪
    Finset.Ico (STACK_PAGE - STACK_PAGES) STACK_PAGE

structure Shaped (s : Space) (A : Aspace) (t d : ℕ) : Prop where
  text_le : t ≤ MAX_TEXT
  data_le : d ≤ MAX_DATA
  textStart : s.textStart = PAGE_SIZE * TEXT_PAGE
  textEnd : s.textEnd = PAGE_SIZE * (TEXT_PAGE + t)
  dataStart : s.dataStart = PAGE_SIZE * DATA_PAGE
  dataEnd : s.dataEnd = PAGE_SIZE * (DATA_PAGE + d)
  stackStart : s.stackStart = PAGE_SIZE * (STACK_PAGE - STACK_PAGES)
  stackEnd : s.stackEnd = PAGE_SIZE * STACK_PAGE
  us : A.us = segPages t d

variable {P P' : Pages} {s : Space} {A B : Aspace} {rest r : Multiset ℕ} {t d n : ℕ}

theorem mem_segPages : n ∈ segPages t d ↔
    (TEXT_PAGE ≤ n ∧ n < TEXT_PAGE + t) ∨ (DATA_PAGE ≤ n ∧ n < DATA_PAGE + d) ∨
      (STACK_PAGE - STACK_PAGES ≤ n ∧ n < STACK_PAGE) := by
  simp only [segPages, Finset.mem_union, Finset.mem_Ico, or_assoc]

theorem card_segPages (ht : t ≤ MAX_TEXT) (hd : d ≤ MAX_DATA) : (segPages t d).card ≤ 1552 := by
  have h1 := Finset.card_union_le
    (Finset.Ico TEXT_PAGE (TEXT_PAGE + t) ∪ Finset.Ico DATA_PAGE (DATA_PAGE + d))
    (Finset.Ico (STACK_PAGE - STACK_PAGES) STACK_PAGE)
  have h2 := Finset.card_union_le (Finset.Ico TEXT_PAGE (TEXT_PAGE + t))
    (Finset.Ico DATA_PAGE (DATA_PAGE + d))
  simp only [Nat.card_Ico] at h1 h2
  rw [segPages]
  simp only [TEXT_PAGE, DATA_PAGE, STACK_PAGE, STACK_PAGES, MAX_TEXT, MAX_DATA] at *
  omega

theorem Shaped.mem_us (h : Shaped s A t d) : n ∈ A.us ↔
    (TEXT_PAGE ≤ n ∧ n < TEXT_PAGE + t) ∨ (DATA_PAGE ≤ n ∧ n < DATA_PAGE + d) ∨
      (STACK_PAGE - STACK_PAGES ≤ n ∧ n < STACK_PAGE) := by
  rw [h.us]
  exact mem_segPages

theorem Shaped.card_le (h : Shaped s A t d) : A.us.card ≤ 1552 := by
  rw [h.us]
  exact card_segPages h.text_le h.data_le

/-- The loop of `identity_map` in page numbers. -/
theorem identityMap_eq (P : Pages) (pdir a b access : ℕ) :
    identityMap P pdir (PAGE_SIZE * a) (PAGE_SIZE * b) access PAGE_READ_ONLY =
      (List.range' a (b - a)).foldlM
        (fun P n => mapPage P pdir (PAGE_SIZE * n) (PAGE_SIZE * n) access PAGE_READ_ONLY) P := by
  rw [identityMap, pagesOf_eq, List.foldlM_map]

/-! ### Kernel mappings -/

/-- The kernel entries of a process created by `start_process`. -/
def startKern (m : Machine) (n : ℕ) : ℕ :=
  if n < KERNEL_PAGES then
    if m.codeStart ≤ PAGE_SIZE * n ∧ PAGE_SIZE * n < m.codeEnd then PAGE_SIZE * n + 5
    else PAGE_SIZE * n + 1
  else 0

/-- The kernel entries of a process created by `fork`. -/
def forkKern (n : ℕ) : ℕ := if n < KERNEL_PAGES then PAGE_SIZE * n + 5 else 0

/-- **A new directory** with memory below 6 MB mapped to itself. -/
theorem newDirectory {frees : List ℕ} {access : ℕ} (hA : Alloc P frees)
    (hlive : (P.live : Multiset ℕ) = rest) (hroom : P.live.length + 1537 ≤ FRAMES)
    (hacc : access = PAGE_SUPERVISOR ∨ access = PAGE_USER) :
    ∃ pdir P₁ P' A, allocPage P = (pdir, P₁) ∧
      identityMap P₁ pdir 0 (6 * MB) access PAGE_READ_ONLY = .ok P' ∧ Owns P' pdir A rest ∧
      Keeps rest P P' ∧ A.us = ∅ ∧
      (∀ n, A.kern n = if n < KERNEL_PAGES then PAGE_SIZE * n + 1 + access else 0) ∧
      P'.live.length ≤ P.live.length + 1537 := by
  obtain ⟨pdir, P₁, hal, hO₁, hK₁, hlen₁⟩ := owns_new hA hlive (by omega)
  obtain ⟨hnd, hmem⟩ := range'_facts 0 KERNEL_PAGES
  obtain ⟨P₂, A₂, hok, hO₂, hK₂, hus, -, hkern, hlen₂⟩ :=
    hO₁.identityLoop hacc (List.range' 0 KERNEL_PAGES) (fun n hn => by
      rw [hmem] at hn
      omega) (by rw [List.length_range']; simp only [KERNEL_PAGES]; omega)
  rw [List.length_range'] at hlen₂
  refine ⟨pdir, P₁, P₂, A₂, hal, ?_, hO₂, hK₁.trans hK₂, hus, ?_, ?_⟩
  · have heq := identityMap_eq P₁ pdir 0 KERNEL_PAGES access
    exact heq.trans hok
  · intro n
    rw [hkern n]
    by_cases hn : n < KERNEL_PAGES
    · rw [if_pos hn, if_pos ((hmem n).mpr ⟨by omega, by omega⟩)]
    · rw [if_neg hn, if_neg fun h => hn (by have := (hmem n).mp h; omega)]
      rfl
  · simp only [KERNEL_PAGES] at hlen₂
    omega

/-- The segments of a new process. -/
theorem shaped_initial (pdir : ℕ) (h : A.us = segPages 0 0) : Shaped (initialSpace pdir) A 0 0 :=
  ⟨by decide, by decide, rfl, rfl, rfl, rfl, rfl, rfl, h⟩

theorem toFinset_range' (a k : ℕ) : (List.range' a k).toFinset = Finset.Ico a (a + k) := by
  ext n
  rw [List.mem_toFinset, (range'_facts a k).2, Finset.mem_Ico]

/-- **`start_process`.** -/
theorem startPages_spec {frees : List ℕ} (m : Machine) (hA : Alloc P frees)
    (hlive : (P.live : Multiset ℕ) = rest) (hroom : P.live.length + 5000 ≤ FRAMES) :
    ∃ pdir P' A, startPages m P = .ok (pdir, P') ∧ Owns P' pdir A rest ∧ Keeps rest P P' ∧
      A.us = segPages 0 0 ∧ A.kern = startKern m := by
  obtain ⟨pdir, P₁, P₂, A₂, hal, hid, hO₂, hK₂, hus₂, hkern₂, hlen₂⟩ :=
    newDirectory hA hlive (by omega) (Or.inl rfl)
  -- the code range in page numbers
  obtain ⟨a, ha⟩ : ∃ a, m.codeStart = PAGE_SIZE * a :=
    ⟨m.codeStart / PAGE_SIZE, by have := m.start_aligned; simp only [PAGE_SIZE] at *; omega⟩
  obtain ⟨b, hb⟩ : ∃ b, m.codeEnd = PAGE_SIZE * b :=
    ⟨m.codeEnd / PAGE_SIZE, by have := m.end_aligned; simp only [PAGE_SIZE] at *; omega⟩
  have hend := m.end_le
  rw [hb] at hend
  have hb512 : b ≤ 512 := by
    simp only [PAGE_SIZE, MB] at hend
    omega
  obtain ⟨hnd, hmem⟩ := range'_facts a (b - a)
  obtain ⟨P₃, A₃, hok₃, hO₃, hK₃, hus₃, -, hkern₃, hlen₃⟩ :=
    hO₂.identityLoop (Or.inr rfl) (List.range' a (b - a)) (fun n hn => by
      rw [hmem] at hn
      simp only [KERNEL_PAGES]
      omega) (by rw [List.length_range']; omega)
  rw [List.length_range'] at hlen₃
  obtain ⟨P₄, A₄, hok₄, hO₄, hK₄, hG₄, -⟩ := hO₃.mapNewPages (a := STACK_PAGE - STACK_PAGES)
    (k := STACK_PAGES) (by decide) (by decide) (fun n _ hmem' => by
      rw [hus₃, hus₂] at hmem'
      simp at hmem') (by simp only [STACK_PAGES]; omega)
  refine ⟨pdir, P₄, A₄, ?_, hO₄, (hK₂.trans hK₃).trans hK₄, ?_, ?_⟩
  · rw [startPages, hal]
    show (identityMap P₁ pdir 0 (6 * MB) PAGE_SUPERVISOR PAGE_READ_ONLY >>= _) = _
    rw [hid, ok_bind, ha, hb, identityMap_eq, hok₃, ok_bind]
    have hstack : PROCESS_STACK_BASE - PROCESS_STACK_SIZE = PAGE_SIZE * (STACK_PAGE - STACK_PAGES) := by
      decide
    have hcount : PROCESS_STACK_SIZE / PAGE_SIZE = STACK_PAGES := by decide
    rw [hstack, hcount, hok₄]
    rfl
  · rw [hG₄.us, hus₃, hus₂, toFinset_range']
    rfl
  · rw [hG₄.kern]
    funext n
    rw [hkern₃ n, hkern₂ n, startKern, ha, hb]
    have hiff : n ∈ List.range' a (b - a) ↔ PAGE_SIZE * a ≤ PAGE_SIZE * n ∧ PAGE_SIZE * n < PAGE_SIZE * b := by
      rw [hmem]
      simp only [PAGE_SIZE]
      omega
    by_cases hn : n ∈ List.range' a (b - a)
    · have hlt : n < KERNEL_PAGES := by
        have := (hmem n).mp hn
        simp only [KERNEL_PAGES]
        omega
      rw [if_pos hn, if_pos hlt, if_pos (hiff.mp hn)]
      rfl
    · rw [if_neg hn, if_neg fun h => hn (hiff.mpr h)]
      rfl

/-- **`fork`.**  The child gets pages of its own for all segments of the parent. -/
theorem forkPages_spec (hB : Owns P s.pdir B r) (hs : Shaped s B t d)
    (hroom : P.live.length + 5000 ≤ FRAMES) :
    ∃ pdir P' A, forkPages s P = .ok (pdir, P') ∧ Owns P' pdir A (B.owned s.pdir + r) ∧
      Keeps (B.owned s.pdir + r) P P' ∧ A.us = segPages t d ∧ A.kern = forkKern ∧
      ∀ n ∈ segPages t d, ∀ i < PAGE_SIZE, P'.mem (A.fr n + i) = P.mem (B.fr n + i) := by
  obtain ⟨frees, hA⟩ := hB.alloc
  have htl := hs.text_le
  have hdl := hs.data_le
  simp only [MAX_TEXT, MAX_DATA] at htl hdl
  obtain ⟨pdir, P₁, P₂, A₂, hal, hid, hO₂, hK₂, hus₂, hkern₂, hlen₂⟩ :=
    newDirectory hA hB.live (by omega) (Or.inr rfl)
  have hD : ∀ {P' : Pages}, Keeps (B.owned s.pdir + r) P P' → Describes P'.mem s.pdir B := by
    intro P' hK
    exact hB.describes.congr fun f hf => hK f (Multiset.mem_add.mpr (Or.inl hf))
  have hsub : ∀ {a b : ℕ}, (∀ n, a ≤ n → n < b → n ∈ segPages t d) → Finset.Ico a b ⊆ B.us := by
    intro a b hab n hn
    rw [Finset.mem_Ico] at hn
    rw [hs.us]
    exact hab n hn.1 hn.2
  obtain ⟨P₃, A₃, hok₃, hO₃, hK₃, hG₃, hH₃, hlen₃⟩ := hO₂.mapAndCopy (a := TEXT_PAGE) (b := TEXT_PAGE + t)
    (hD hK₂) (hsub fun n h1 h2 => mem_segPages.mpr (Or.inl ⟨h1, h2⟩))
    (fun n _ hn => by rw [hus₂] at hn; simp at hn) (by omega)
  have hus₃ : A₃.us = Finset.Ico TEXT_PAGE (TEXT_PAGE + t) := by
    rw [hG₃.us, hus₂, toFinset_range', Finset.empty_union, Nat.add_sub_cancel_left]
  obtain ⟨P₄, A₄, hok₄, hO₄, hK₄, hG₄, hH₄, hlen₄⟩ := hO₃.mapAndCopy (a := DATA_PAGE) (b := DATA_PAGE + d)
    (hD (hK₂.trans hK₃.right)) (hsub fun n h1 h2 => mem_segPages.mpr (Or.inr (Or.inl ⟨h1, h2⟩)))
    (fun n hn hn' => by
      rw [hus₃] at hn'
      simp only [Finset.mem_Ico, TEXT_PAGE, DATA_PAGE] at hn hn'
      omega) (by omega)
  have hus₄ : A₄.us = Finset.Ico TEXT_PAGE (TEXT_PAGE + t) ∪ Finset.Ico DATA_PAGE (DATA_PAGE + d) := by
    rw [hG₄.us, hus₃, toFinset_range', Nat.add_sub_cancel_left]
  obtain ⟨P₅, A₅, hok₅, hO₅, hK₅, hG₅, hH₅, -⟩ := hO₄.mapAndCopy (a := STACK_PAGE - STACK_PAGES)
    (b := STACK_PAGE) (hD ((hK₂.trans hK₃.right).trans hK₄.right))
    (hsub fun n h1 h2 => mem_segPages.mpr (Or.inr (Or.inr ⟨h1, h2⟩)))
    (fun n hn hn' => by
      rw [hus₄] at hn'
      simp only [Finset.mem_union, Finset.mem_Ico, TEXT_PAGE, DATA_PAGE, STACK_PAGE, STACK_PAGES] at hn hn'
      omega) (by simp only [STACK_PAGE, STACK_PAGES]; omega)
  refine ⟨pdir, P₅, A₅, ?_, hO₅, ((hK₂.trans hK₃.right).trans hK₄.right).trans hK₅.right, ?_, ?_, ?_⟩
  · rw [forkPages, hal]
    show (identityMap P₁ pdir 0 (6 * MB) PAGE_USER PAGE_READ_ONLY >>= _) = _
    rw [hid, ok_bind, hs.textStart, hs.textEnd, hok₃, ok_bind, hs.dataStart, hs.dataEnd, hok₄, ok_bind,
      hs.stackStart, hs.stackEnd, hok₅]
    rfl
  · rw [hG₅.us, hus₄, toFinset_range']
    rfl
  · rw [hG₅.kern, hG₄.kern, hG₃.kern]
    funext n
    rw [hkern₂ n]
    rfl
  · -- each page holds what it was given, and the pages copied later leave it alone
    have hsource : ∀ {P' : Pages}, Keeps (B.owned s.pdir + r) P P' → ∀ n ∈ segPages t d, ∀ i < PAGE_SIZE,
        P'.mem (B.fr n + i) = P.mem (B.fr n + i) := by
      intro P' hK n hn i hi
      rw [← hs.us] at hn
      refine hK.left (B.fr n) ?_ _ (by omega) (by omega)
      exact Multiset.mem_cons_of_mem (Multiset.mem_add.mpr (Or.inr (Multiset.mem_map_of_mem B.fr hn)))
    have hlater : ∀ {A : Aspace} {fs : Multiset ℕ} {P P' : Pages} {n i : ℕ}, Keeps (A.us.val.map A.fr + fs) P P' →
        n ∈ A.us → i < PAGE_SIZE → P'.mem (A.fr n + i) = P.mem (A.fr n + i) := by
      intro A fs P P' n i hK hn hi
      exact hK.left (A.fr n) (Multiset.mem_map_of_mem A.fr hn) _ (by omega) (by omega)
    have hK₃' := hK₂.trans hK₃.right
    have hK₄' := hK₃'.trans hK₄.right
    intro n hn i hi
    rcases mem_segPages.mp hn with htext | hdata | hstack
    · have hn₃ : n ∈ A₃.us := by
        rw [hus₃, Finset.mem_Ico]
        exact htext
      have hn₄ : n ∈ A₄.us := by
        rw [hus₄, Finset.mem_union, Finset.mem_Ico]
        exact Or.inl htext
      rw [hG₅.fr n hn₄, hlater hK₅ hn₄ hi, hG₄.fr n hn₃, hlater hK₄ hn₃ hi,
        hH₃ n (List.mem_range'_1.mpr (by omega)) i hi]
      exact hsource hK₂ n hn i hi
    · have hn₄ : n ∈ A₄.us := by
        rw [hus₄, Finset.mem_union, Finset.mem_Ico, Finset.mem_Ico]
        exact Or.inr hdata
      rw [hG₅.fr n hn₄, hlater hK₅ hn₄ hi, hH₄ n (List.mem_range'_1.mpr (by omega)) i hi]
      exact hsource hK₃' n hn i hi
    · rw [hH₅ n (List.mem_range'_1.mpr (by omega)) i hi]
      exact hsource hK₄' n hn i hi

/-- **`kill_process`.**  All frames are given back. -/
theorem releasePages_spec (hO : Owns P s.pdir A rest) (hs : Shaped s A t d) :
    ∃ P' frees', releasePages s P = .ok ((), P') ∧ Alloc P' frees' ∧ (P'.live : Multiset ℕ) = rest ∧
      Keeps rest P P' := by
  have htl := hs.text_le
  have hdl := hs.data_le
  simp only [MAX_TEXT, MAX_DATA] at htl hdl
  obtain ⟨P₁, hok₁, hO₁, hK₁⟩ := hO.unmapRange (a := STACK_PAGE - STACK_PAGES) (b := STACK_PAGE)
    fun n hn => hs.mem_us.mpr (Or.inr (Or.inr (Finset.mem_Ico.mp hn)))
  obtain ⟨P₂, hok₂, hO₂, hK₂⟩ := hO₁.unmapRange (a := DATA_PAGE) (b := DATA_PAGE + d) fun n hn => by
    refine Finset.mem_sdiff.mpr ⟨hs.mem_us.mpr (Or.inr (Or.inl (Finset.mem_Ico.mp hn))), ?_⟩
    simp only [Finset.mem_Ico, DATA_PAGE, STACK_PAGE, STACK_PAGES] at hn ⊢
    omega
  obtain ⟨P₃, hok₃, hO₃, hK₃⟩ := hO₂.unmapRange (a := TEXT_PAGE) (b := TEXT_PAGE + t) fun n hn => by
    refine Finset.mem_sdiff.mpr ⟨Finset.mem_sdiff.mpr ⟨hs.mem_us.mpr (Or.inl (Finset.mem_Ico.mp hn)), ?_⟩,
      ?_⟩ <;> simp only [Finset.mem_Ico, TEXT_PAGE, DATA_PAGE, STACK_PAGE, STACK_PAGES] at hn ⊢ <;> omega
  have hempty : ((A.us \ Finset.Ico (STACK_PAGE - STACK_PAGES) STACK_PAGE) \
      Finset.Ico DATA_PAGE (DATA_PAGE + d)) \ Finset.Ico TEXT_PAGE (TEXT_PAGE + t) = ∅ := by
    ext n
    simp only [Finset.mem_sdiff, hs.mem_us, Finset.mem_Ico, Finset.notMem_empty, iff_false]
    tauto
  obtain ⟨P₄, frees₄, hok₄, hA₄, hlive₄, hK₄⟩ := hO₃.freePageDir hempty
  refine ⟨P₄, frees₄, ?_, hA₄, hlive₄, ((hK₁.trans hK₂).trans hK₃).trans hK₄⟩
  rw [releasePages, hs.stackStart, hs.stackEnd, hok₁, ok_bind, hs.dataStart, hs.dataEnd, hok₂, ok_bind,
    hs.textStart, hs.textEnd, hok₃, ok_bind, hok₄]
  rfl

/-- **`brk`.**  The data segment grows to `d'` pages. -/
theorem brkPages_spec {d' : ℕ} (hO : Owns P s.pdir A rest) (hs : Shaped s A t d) (hle : d ≤ d')
    (hmax : d' ≤ MAX_DATA) (hroom : P.live.length + 5000 ≤ FRAMES) :
    ∃ P' A', mapNewPages P s.pdir s.dataEnd (d' - d) = .ok P' ∧ Owns P' s.pdir A' rest ∧
      Keeps rest P P' ∧ Shaped { s with dataEnd := PAGE_SIZE * (DATA_PAGE + d') } A' t d' ∧
      A'.kern = A.kern := by
  simp only [MAX_DATA] at hmax
  have htl := hs.text_le
  simp only [MAX_TEXT] at htl
  obtain ⟨-, hmem⟩ := range'_facts (DATA_PAGE + d) (d' - d)
  obtain ⟨P', A', hok, hO', hK, hG, -⟩ := hO.mapNewPages (a := DATA_PAGE + d) (k := d' - d)
    (by simp only [KERNEL_PAGES, DATA_PAGE]; omega) (by simp only [PAGES, DATA_PAGE]; omega)
    (fun n hn hus => by
      rw [hmem] at hn
      rw [hs.mem_us] at hus
      simp only [TEXT_PAGE, DATA_PAGE, STACK_PAGE, STACK_PAGES] at hn hus
      omega) (by omega)
  refine ⟨P', A', by rw [hs.dataEnd]; exact hok, hO', hK, ?_, hG.kern⟩
  refine ⟨hs.text_le, hmax, hs.textStart, hs.textEnd, hs.dataStart, rfl, hs.stackStart, hs.stackEnd, ?_⟩
  ext n
  rw [hG.us, Finset.mem_union, hs.mem_us, toFinset_range', Finset.mem_Ico, mem_segPages]
  omega

/-- Changing one frame leaves the others alone. -/
theorem agreeOn_storeBytes (M : Memory) {a f : ℕ} {bs : List UInt8} (hlen : bs.length ≤ PAGE_SIZE)
    (hf : f + PAGE_SIZE ≤ a ∨ a + PAGE_SIZE ≤ f) : AgreeOn M (storeBytes M a bs) f PAGE_SIZE := by
  intro x h1 h2
  unfold storeBytes
  split
  · rw [List.getElem?_eq_none (by omega)]
    rfl
  · rfl

/-- The bytes of the program, followed by zeros. -/
def programByte (fs : Memory) (entry x : ℕ) : UInt8 :=
  if x < entrySize fs entry then fs (entryLocation fs entry + x) else 0

theorem fillPage_inside {fs M : Memory} {entry page pos i : ℕ} (hi : i < PAGE_SIZE) (hz : M (page + i) = 0) :
    fillPage fs entry M page pos (page + i) = programByte fs entry (pos + i) := by
  unfold fillPage storeBytes programByte
  rw [if_pos (Nat.le_add_right _ _), Nat.add_sub_cancel_left, hz, loadBytes, List.getElem?_map]
  by_cases hx : pos + i < entrySize fs entry
  · rw [if_pos hx, List.getElem?_range (by omega)]
    show fs (entryLocation fs entry + pos + i) = _
    rw [Nat.add_assoc]
  · rw [if_neg hx, List.getElem?_eq_none (by rw [List.length_range]; omega)]
    rfl

/-- **One page of the new text segment.** -/
theorem loadPage_spec {fs : Memory} {entry pdir : ℕ} (hO : Owns P pdir A rest)
    (hn : TEXT_PAGE + n ∉ A.us) (hmax : n < MAX_TEXT) (hroom : P.live.length + 2 ≤ FRAMES) :
    ∃ P' tbl F, loadPage fs entry pdir P (PAGE_SIZE * n) = .ok P' ∧
      Owns P' pdir (A.withUser tbl (TEXT_PAGE + n) F) rest ∧ Keeps (A.us.val.map A.fr + rest) P P' ∧
      (∀ i < PAGE_SIZE, P'.mem (F + i) = programByte fs entry (PAGE_SIZE * n + i)) ∧
      P'.live.length ≤ P.live.length + 2 := by
  simp only [MAX_TEXT] at hmax
  obtain ⟨F, P₁, hal, hO₁, hK₁, hlen₁⟩ := hO.allocPage (by omega)
  have hF : IsFrame F :=
    hO₁.isFrame (hO₁.mem_live.mpr (Or.inr (Or.inr (Or.inr (Multiset.mem_cons_self _ _)))))
  -- the page is filled before it is mapped
  have hpage : ∀ f, IsFrame f → f ≠ F →
      AgreeOn P₁.mem (fillPage fs entry P₁.mem F (PAGE_SIZE * n)) f PAGE_SIZE := by
    intro f hf hne
    apply agreeOn_storeBytes
    · simp only [loadBytes, List.length_map, List.length_range]
      exact Nat.min_le_left _ _
    · have := hf.apart hF hne
      omega
  obtain ⟨hO₂, -⟩ := hO₁.fillNew hpage
  obtain ⟨P₂, tbl, hok, hO₃, hK₃, hlen₃⟩ := hO₂.mapUser hn
    (by simp only [KERNEL_PAGES, TEXT_PAGE]; omega) (by simp only [PAGES, TEXT_PAGE]; omega)
    (by show P₁.live.length < FRAMES; omega)
  have hlen : P₂.live.length ≤ P₁.live.length + 1 := hlen₃
  refine ⟨P₂, tbl, F, ?_, hO₃, ?_, ?_, by omega⟩
  · have haddr : PROCESS_TEXT_BASE + PAGE_SIZE * n = PAGE_SIZE * (TEXT_PAGE + n) := by
      simp only [PAGE_SIZE, TEXT_PAGE, PROCESS_TEXT_BASE]
      omega
    rw [loadPage, hal, haddr]
    exact hok
  · have hold : Keeps (A.us.val.map A.fr + rest) P P₁ :=
      hK₁.mono fun f hf => Multiset.mem_coe.mpr (hO.mem_of_frame hf)
    have hfill : Keeps (A.us.val.map A.fr + rest) P₁
        { P₁ with mem := fillPage fs entry P₁.mem F (PAGE_SIZE * n) } := by
      intro f hf
      apply hpage f (hO.isFrame (hO.mem_of_frame hf))
      obtain ⟨-, -, hus⟩ := hO₁.rest_apart (Multiset.mem_cons_self F _)
      rintro rfl
      rcases Multiset.mem_add.mp hf with hf | hf
      · obtain ⟨j, hj, hjf⟩ := Multiset.mem_map.mp hf
        exact hus j hj hjf
      · have hnd := (Multiset.nodup_add.mp hO₁.nodup).2.1
        exact (Multiset.nodup_cons.mp hnd).1 hf
    refine (hold.trans hfill).trans (hK₃.mono ?_)
    intro f hf
    rw [Multiset.add_cons]
    exact Multiset.mem_cons_of_mem hf
  · intro i hi
    rw [← fillPage_inside hi (allocPage_zero hal hi)]
    exact hK₃ F (by simp) _ (by omega) (by omega)

/-- The pages of a program. -/
def programPages (fs : Memory) (entry : ℕ) : ℕ := (pagesOf 0 (entrySize fs entry)).length

theorem programPages_le (m : Machine) {path : List UInt8} {entry : ℕ}
    (h : getDirectoryEntry m.filesystem path = .ok (.ok entry)) :
    programPages m.filesystem entry ≤ MAX_TEXT := by
  have hfit := m.fits path entry h
  have himage := m.image_lt
  rw [programPages, pagesOf, List.length_map, List.length_range]
  simp only [PAGE_SIZE, MB, MAX_TEXT] at *
  omega

/-- The loop that loads the program, in page numbers. -/
theorem loadLoop_eq (fs : Memory) (entry pdir : ℕ) (P : Pages) :
    (pagesOf 0 (entrySize fs entry)).foldlM (loadPage fs entry pdir) P =
      ((List.range' TEXT_PAGE (programPages fs entry)).map (PAGE_SIZE * ·)).foldlM
        (fun P addr => loadPage fs entry pdir P (addr - PROCESS_TEXT_BASE)) P := by
  have hlen : programPages fs entry =
      (entrySize fs entry - 0 + (PAGE_SIZE - 1)) / PAGE_SIZE := by
    rw [programPages, pagesOf, List.length_map, List.length_range]
  rw [pagesOf, hlen, List.range'_eq_map_range, List.map_map, List.foldlM_map, List.foldlM_map]
  apply foldlM_congr
  intro i _ P
  have haddr : PAGE_SIZE * (TEXT_PAGE + i) - PROCESS_TEXT_BASE = 0 + i * PAGE_SIZE := by
    simp only [PAGE_SIZE, TEXT_PAGE, PROCESS_TEXT_BASE]
    omega
  rw [Function.comp_apply, haddr]

/-- **`execve`.**  Text and data are replaced by the program. -/
theorem execPages_spec {fs : Memory} {entry : ℕ} (hO : Owns P s.pdir A rest) (hs : Shaped s A t d)
    (hmax : programPages fs entry ≤ MAX_TEXT) (hroom : P.live.length + 5000 ≤ FRAMES) :
    ∃ P' A', execPages fs entry s P = .ok ((), P') ∧ Owns P' s.pdir A' rest ∧ Keeps rest P P' ∧
      Shaped (execSpace fs entry s) A' (programPages fs entry) 0 ∧ A'.kern = A.kern ∧
      ∀ n < programPages fs entry, ∀ i < PAGE_SIZE,
        P'.mem (A'.fr (TEXT_PAGE + n) + i) = programByte fs entry (PAGE_SIZE * n + i) := by
  have htl := hs.text_le
  have hdl := hs.data_le
  simp only [MAX_TEXT, MAX_DATA] at htl hdl hmax
  obtain ⟨P₁, hok₁, hO₁, hK₁⟩ := hO.unmapRange (a := TEXT_PAGE) (b := TEXT_PAGE + t)
    fun n hn => hs.mem_us.mpr (Or.inl (Finset.mem_Ico.mp hn))
  obtain ⟨P₂, hok₂, hO₂, hK₂⟩ := hO₁.unmapRange (a := DATA_PAGE) (b := DATA_PAGE + d) fun n hn => by
    refine Finset.mem_sdiff.mpr ⟨hs.mem_us.mpr (Or.inr (Or.inl (Finset.mem_Ico.mp hn))), ?_⟩
    simp only [Finset.mem_Ico, TEXT_PAGE, DATA_PAGE] at hn ⊢
    omega
  have hus₂ : ∀ n, n ∈ (A.us \ Finset.Ico TEXT_PAGE (TEXT_PAGE + t)) \
      Finset.Ico DATA_PAGE (DATA_PAGE + d) ↔ STACK_PAGE - STACK_PAGES ≤ n ∧ n < STACK_PAGE := by
    intro n
    rw [Finset.mem_sdiff, Finset.mem_sdiff, hs.mem_us, Finset.mem_Ico, Finset.mem_Ico]
    simp only [TEXT_PAGE, DATA_PAGE, STACK_PAGE, STACK_PAGES]
    omega
  have hlen₂ : P₂.live.length ≤ P.live.length := by
    have hcard := Finset.card_le_card (Finset.sdiff_subset.trans Finset.sdiff_subset :
      (A.us \ Finset.Ico TEXT_PAGE (TEXT_PAGE + t)) \ Finset.Ico DATA_PAGE (DATA_PAGE + d) ⊆ A.us)
    have h₀ := hO.length_live
    have h₂ := hO₂.length_live
    simp only at h₂
    omega
  obtain ⟨hnd, hmem⟩ := range'_facts TEXT_PAGE (programPages fs entry)
  obtain ⟨P₃, A₃, hok₃, hO₃, hK₃, hG₃, hH₃, -⟩ :=
    hO₂.userLoop (fun P addr => loadPage fs entry s.pdir P (addr - PROCESS_TEXT_BASE))
      (fun n i => programByte fs entry (PAGE_SIZE * (n - TEXT_PAGE) + i))
      (List.range' TEXT_PAGE (programPages fs entry)) hnd
      (fun n hn hus => by
        rw [hmem] at hn
        have hst := (hus₂ n).mp hus
        simp only [TEXT_PAGE, STACK_PAGE, STACK_PAGES] at hn hst
        omega)
      (by rw [List.length_range']; omega)
      fun P₁ A₁ n hn hus hO₁ _ hr => by
        rw [hmem] at hn
        obtain ⟨j, rfl⟩ := Nat.exists_eq_add_of_le hn.1
        have haddr : PAGE_SIZE * (TEXT_PAGE + j) - PROCESS_TEXT_BASE = PAGE_SIZE * j := by
          simp only [PAGE_SIZE, TEXT_PAGE, PROCESS_TEXT_BASE]
          omega
        rw [haddr, Nat.add_sub_cancel_left]
        exact loadPage_spec hO₁ hus (by simp only [MAX_TEXT]; omega) hr
  refine ⟨P₃, A₃, ?_, hO₃, (hK₁.trans hK₂).trans hK₃.right, ?_, hG₃.kern, ?_⟩
  · rw [execPages, hs.textStart, hs.textEnd, hok₁, ok_bind, hs.dataStart, hs.dataEnd, hok₂, ok_bind,
      loadLoop_eq, hok₃]
    rfl
  · refine ⟨hmax, by decide, rfl, ?_, rfl, rfl, hs.stackStart, hs.stackEnd, ?_⟩
    · show PROCESS_TEXT_BASE + programPages fs entry * PAGE_SIZE = _
      simp only [PAGE_SIZE, TEXT_PAGE, PROCESS_TEXT_BASE]
      omega
    · ext n
      rw [hG₃.us, Finset.mem_union, hus₂, toFinset_range', Finset.mem_Ico, mem_segPages]
      omega
  · intro n hn i hi
    have hbytes := hH₃ (TEXT_PAGE + n) ((hmem _).mpr (by omega)) i hi
    simp only [Nat.add_sub_cancel_left] at hbytes
    exact hbytes

end AdelaideOS.Kernel
