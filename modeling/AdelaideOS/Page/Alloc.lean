import AdelaideOS.Page.Model
import AdelaideOS.Lib.Links

/-!
# The page allocator

`Alloc P frees` says that the chain from `page_free` is `frees`, that free and live frames together are
exactly the frames between `PAGE_START` and `page_end`, each once, and that `npages` counts the live ones.
`page_end` grows only when no frame is free, so as long as no more than `FRAMES` frames are live at a time it
stays at or below `PAGE_START + 4096 * FRAMES`, the last page of the 32-bit address space, and never wraps.

* **`allocPage_spec`** — a frame that was not live, zeroed, and nothing else touched;
* **`freePage_spec`** — a live frame is taken back; only its own first word changes.
-/

namespace AdelaideOS.Page

open AdelaideOS.Lib.Bytes AdelaideOS.Lib.Links

/-- The frames that can be handed out before `page_end` wraps: one fewer than the pages from `PAGE_START` on. -/
abbrev FRAMES : ℕ := 1047039

/-- The address of the `i`-th frame. -/
def frameAt (i : ℕ) : ℕ := PAGE_START + PAGE_SIZE * i

/-- A frame that the allocator can hand out. -/
def IsFrame (a : ℕ) : Prop := ∃ i, i < FRAMES ∧ a = frameAt i

theorem IsFrame.facts {a : ℕ} (h : IsFrame a) :
    a % PAGE_SIZE = 0 ∧ PAGE_START ≤ a ∧ a + PAGE_SIZE < wordSize := by
  obtain ⟨i, hi, rfl⟩ := h
  simp only [frameAt, FRAMES, PAGE_START, PAGE_SIZE, MB, wordSize] at *
  omega

/-- Two frames are equal or disjoint. -/
theorem IsFrame.apart {a b : ℕ} (ha : IsFrame a) (hb : IsFrame b) (h : a ≠ b) :
    a + PAGE_SIZE ≤ b ∨ b + PAGE_SIZE ≤ a := by
  obtain ⟨i, -, rfl⟩ := ha
  obtain ⟨j, -, rfl⟩ := hb
  have hij : i ≠ j := by
    intro hij
    exact h (by rw [hij])
  simp only [frameAt, PAGE_SIZE]
  omega

structure Alloc (P : Pages) (frees : List ℕ) : Prop where
  chain : Chain (readWord P.mem) 0 P.pageFree frees
  all : ∃ k, k ≤ FRAMES ∧ P.pageEnd = frameAt k ∧
    (frees ++ P.live).Perm ((List.range k).map frameAt)
  count : P.npages = P.live.length
  once : P.freedTwice = false

variable {P : Pages} {frees : List ℕ}

theorem Alloc.isFrame (h : Alloc P frees) {a : ℕ} (ha : a ∈ frees ++ P.live) : IsFrame a := by
  obtain ⟨k, hk, -, hperm⟩ := h.all
  rw [hperm.mem_iff, List.mem_map] at ha
  obtain ⟨i, hi, rfl⟩ := ha
  rw [List.mem_range] at hi
  exact ⟨i, by omega, rfl⟩

theorem Alloc.isFrame_live (h : Alloc P frees) {a : ℕ} (ha : a ∈ P.live) : IsFrame a :=
  h.isFrame (List.mem_append_right _ ha)

theorem frameAt_injective : Function.Injective frameAt := by
  intro i j hij
  simp only [frameAt, PAGE_SIZE] at hij
  omega

theorem Alloc.nodup (h : Alloc P frees) : (frees ++ P.live).Nodup := by
  obtain ⟨k, -, -, hperm⟩ := h.all
  rw [hperm.nodup_iff]
  exact List.nodup_range.map frameAt_injective

theorem Alloc.live_nodup (h : Alloc P frees) : P.live.Nodup :=
  (List.nodup_append.mp h.nodup).2.1

theorem alloc_boot (mem : Memory) : Alloc (Pages.boot mem) [] := by
  refine ⟨rfl, ⟨0, by decide, rfl, ?_⟩, rfl, rfl⟩
  simp [Pages.boot]

/-- The chain of free frames does not see changes inside another frame. -/
theorem chain_congr {mem mem' : Memory} {head : ℕ} {xs : List ℕ}
    (h : Chain (readWord mem) 0 head xs) (hag : ∀ x ∈ xs, AgreeOn mem mem' x PAGE_SIZE) :
    Chain (readWord mem') 0 head xs := by
  apply h.congr
  intro x hx
  exact (hag x hx).readWord (by omega) (by simp only [PAGE_SIZE]; omega)

/-- What a client sees of `alloc_page`. -/
structure Allocated (P : Pages) (a : ℕ) (P' : Pages) : Prop where
  frame : IsFrame a
  fresh : a ∉ P.live
  live : P'.live = a :: P.live
  zero : ∀ x, a ≤ x → x + 4 ≤ a + PAGE_SIZE → readWord P'.mem x = 0
  keeps : ∀ f, IsFrame f → f ≠ a → AgreeOn P.mem P'.mem f PAGE_SIZE

/-- The state after `alloc_page` handed out `a`. -/
def Pages.withNew (P : Pages) (a pageEnd pageFree : ℕ) : Pages :=
  { P with
    npages := (P.npages + 1) % wordSize
    pageEnd := pageEnd
    pageFree := pageFree
    mem := fill P.mem a PAGE_SIZE 0
    live := a :: P.live }

theorem allocated_withNew {a : ℕ} (pageEnd pageFree : ℕ) (ha : IsFrame a) (hfresh : a ∉ P.live) :
    Allocated P a (P.withNew a pageEnd pageFree) := by
  refine ⟨ha, hfresh, rfl, ?_, ?_⟩
  · intro x h1 h2
    exact readWord_fill_zero P.mem h1 h2
  · intro f hf hne
    exact agreeOn_fill P.mem 0 (hf.apart ha hne)

theorem allocPage_of_empty (h : P.pageFree = 0) :
    allocPage P = (P.pageEnd, P.withNew P.pageEnd ((P.pageEnd + PAGE_SIZE) % wordSize) 0) := by
  simp [allocPage, Pages.withNew, h]

theorem allocPage_of_free (h : P.pageFree ≠ 0) :
    allocPage P =
      (P.pageFree, P.withNew P.pageFree P.pageEnd (readWord P.mem P.pageFree)) := by
  simp [allocPage, Pages.withNew, h]

/-- The count does not overflow. -/
theorem Alloc.count_succ (h : Alloc P frees) (hroom : P.live.length < FRAMES) (a : ℕ) :
    (P.npages + 1) % wordSize = (a :: P.live).length := by
  rw [h.count, List.length_cons, Nat.mod_eq_of_lt]
  simp only [FRAMES, wordSize] at *
  omega

/-- **Allocation.** -/
theorem allocPage_spec (h : Alloc P frees) (hroom : P.live.length < FRAMES) :
    ∃ a P' frees', allocPage P = (a, P') ∧ Alloc P' frees' ∧ Allocated P a P' := by
  obtain ⟨k, hk, hend, hperm⟩ := h.all
  have hnd := h.nodup
  cases frees with
  | nil =>
    have hlen : P.live.length = k := by simpa using hperm.length_eq
    have ha : IsFrame P.pageEnd := ⟨k, by omega, hend⟩
    have hfresh : P.pageEnd ∉ P.live := by
      intro hmem
      have hmem' := hperm.mem_iff.mp (List.mem_append_right [] hmem)
      rw [List.mem_map] at hmem'
      obtain ⟨i, hi, he⟩ := hmem'
      rw [hend] at he
      rw [List.mem_range, frameAt_injective he] at hi
      omega
    refine ⟨_, _, [], allocPage_of_empty h.chain, ?_, allocated_withNew _ _ ha hfresh⟩
    refine ⟨rfl, ⟨k + 1, by omega, ?_, ?_⟩, h.count_succ hroom _, h.once⟩
    · show (P.pageEnd + PAGE_SIZE) % wordSize = frameAt (k + 1)
      rw [hend]
      simp only [frameAt, FRAMES, PAGE_START, PAGE_SIZE, MB, wordSize] at *
      omega
    · show (P.pageEnd :: P.live).Perm _
      rw [List.range_succ, List.map_append, hend]
      exact (List.Perm.cons _ hperm).trans (List.perm_append_singleton _ _).symm
  | cons f fs =>
    obtain ⟨hf, hf0, hrest⟩ := h.chain
    have hframe : IsFrame P.pageFree := h.isFrame (by simp [hf])
    have hfresh : P.pageFree ∉ P.live := by
      rw [hf]
      intro hmem
      exact (List.nodup_append.mp hnd).2.2 f (by simp) f hmem rfl
    have hfs : f ∉ fs := (List.nodup_cons.mp (List.nodup_append.mp hnd).1).1
    refine ⟨_, _, fs, allocPage_of_free (by rw [hf]; exact hf0), ?_,
      allocated_withNew _ _ hframe hfresh⟩
    refine ⟨?_, ⟨k, hk, hend, ?_⟩, h.count_succ hroom _, h.once⟩
    · show Chain (readWord (fill P.mem P.pageFree PAGE_SIZE 0)) 0 (readWord P.mem P.pageFree) fs
      rw [hf]
      apply chain_congr hrest
      intro x hx
      have hxf : x ≠ f := by
        intro hxf
        exact hfs (by rw [← hxf]; exact hx)
      rw [hf] at hframe
      exact agreeOn_fill P.mem 0 ((h.isFrame (by simp [hx])).apart hframe hxf)
    · show (fs ++ P.pageFree :: P.live).Perm _
      rw [hf]
      exact List.perm_middle.trans hperm

/-- What a client sees of `free_page`. -/
structure Freed (P : Pages) (a : ℕ) (P' : Pages) : Prop where
  live : P'.live = P.live.erase a
  keeps : ∀ f, IsFrame f → f ≠ a → AgreeOn P.mem P'.mem f PAGE_SIZE

/-- **Release.**  A live frame can be given back. -/
theorem freePage_spec (h : Alloc P frees) {a : ℕ} (ha : a ∈ P.live) :
    ∃ P' frees', freePage P a = .ok P' ∧ Alloc P' frees' ∧ Freed P a P' := by
  obtain ⟨k, hk, hend, hperm⟩ := h.all
  have hframe := h.isFrame_live ha
  have hpos : 0 < P.npages := by
    rw [h.count]
    exact List.length_pos_of_mem ha
  have hnotfree : a ∉ frees := by
    intro hmem
    exact (List.nodup_append.mp h.nodup).2.2 a hmem a ha rfl
  have hagree : ∀ f, IsFrame f → f ≠ a → AgreeOn P.mem (writeWord P.mem a P.pageFree) f PAGE_SIZE := by
    intro f hf hne
    have hap := hf.apart hframe hne
    exact agreeOn_writeWord P.mem _ (by simp only [PAGE_SIZE] at *; omega)
  have hhead : P.pageFree < wordSize := by
    cases frees with
    | nil =>
      have h0 : P.pageFree = 0 := h.chain
      simp [h0]
    | cons f fs =>
      have hff := (h.isFrame (a := f) (by simp)).facts
      rw [h.chain.1]
      simp only [wordSize, PAGE_SIZE] at *
      omega
  have hok : freePage P a = .ok
      { P with
        npages := P.npages - 1
        mem := writeWord P.mem a P.pageFree
        pageFree := a
        live := P.live.erase a
        freedTwice := P.freedTwice || !decide (a ∈ P.live) } := by
    simp [freePage, hpos]
  refine ⟨_, a :: frees, hok, ⟨?_, ⟨k, hk, hend, ?_⟩, ?_, ?_⟩, rfl, hagree⟩
  · have ha0 : a ≠ 0 := by
      have := hframe.facts
      simp only [PAGE_START, MB] at this
      omega
    apply h.chain.push ha0
    · exact readWord_writeWord P.mem a P.pageFree hhead
    · intro x hx
      have hxa : x ≠ a := by
        intro hxa
        exact hnotfree (by rw [← hxa]; exact hx)
      exact (hagree x (h.isFrame (by simp [hx])) hxa).readWord (by omega)
        (by simp only [PAGE_SIZE]; omega)
  · show (a :: frees ++ P.live.erase a).Perm _
    have hp : (a :: frees ++ P.live.erase a).Perm (frees ++ a :: P.live.erase a) :=
      List.perm_middle.symm
    exact hp.trans ((List.Perm.append_left frees (List.perm_cons_erase ha).symm).trans hperm)
  · show P.npages - 1 = (P.live.erase a).length
    rw [h.count, List.length_erase_of_mem ha]
  · simp [h.once, ha]

end AdelaideOS.Page
