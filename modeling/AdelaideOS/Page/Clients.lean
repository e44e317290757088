import AdelaideOS.Page.Loops

/-!
# The page allocator and its clients

`Uses mem handed P` says that `P` is reached from boot by any number of calls of `alloc_page` and `free_page`,
the latter on live pages only, with stores of arbitrary bytes into live pages in between; `handed` is the
set of pages that `alloc_page` has returned on the way.  The stores are what makes the allocator more than a
list: the links of the free list lie in pages that their former owners have filled with anything.

* **`Uses.alloc`** — the invariant of `AdelaideOS.Page.Alloc` along every use of the allocator;
* **`allocator_sound`** — what a client may rely on.
-/

namespace AdelaideOS.Page

open AdelaideOS.Lib.Bytes AdelaideOS.Lib.Links

inductive Uses (mem : Memory) : Finset ℕ → Pages → Prop where
  | boot : Uses mem ∅ (Pages.boot mem)
  | allocate {handed : Finset ℕ} {P P' : Pages} {a : ℕ} : Uses mem handed P → allocPage P = (a, P') →
      Uses mem (insert a handed) P'
  | free {handed : Finset ℕ} {P P' : Pages} {a : ℕ} : Uses mem handed P → a ∈ P.live →
      freePage P a = .ok P' → Uses mem handed P'
  | store {handed : Finset ℕ} {P : Pages} {a x : ℕ} (b : UInt8) : Uses mem handed P → a ∈ P.live → a ≤ x →
      x < a + PAGE_SIZE → Uses mem handed { P with mem := Function.update P.mem x b }

/-- The pages from `PAGE_START` on that a 32-bit address can name. -/
abbrev PAGES_FROM_START : ℕ := 2 ^ 20 - PAGE_START / PAGE_SIZE

variable {mem : Memory} {handed : Finset ℕ} {P P' : Pages} {frees : List ℕ} {a x : ℕ}

/-- A store into a live page is seen in no other page. -/
theorem Alloc.storeByte (h : Alloc P frees) (ha : a ∈ P.live) (h1 : a ≤ x) (h2 : x < a + PAGE_SIZE)
    (b : UInt8) :
    Alloc { P with mem := Function.update P.mem x b } frees ∧
      ∀ f, IsFrame f → f ≠ a → AgreeOn P.mem (Function.update P.mem x b) f PAGE_SIZE := by
  have hkeep : ∀ f, IsFrame f → f ≠ a → AgreeOn P.mem (Function.update P.mem x b) f PAGE_SIZE := by
    intro f hf hne y hy1 hy2
    have hap := hf.apart (h.isFrame_live ha) hne
    exact Function.update_of_ne (by omega) _ _
  refine ⟨h.setMem fun f hf => ?_, hkeep⟩
  exact hkeep f (h.isFrame (List.mem_append_left _ hf)) (h.free_ne_live hf ha)

/-- With no free page, all pages up to `page_end` are live. -/
theorem Alloc.full (h : Alloc P []) (hfull : FRAMES ≤ P.live.length) :
    P.live.length = FRAMES ∧ P.pageEnd = frameAt FRAMES := by
  obtain ⟨k, hk, hend, hperm⟩ := h.all
  have hlen : P.live.length = k := by simpa using hperm.length_eq
  have hkF : k = FRAMES := by omega
  exact ⟨by omega, by rw [hend, hkF]⟩

/-- There is a page left as long as the one handed out next is not one too many. -/
theorem Alloc.room (h : Alloc P frees) (hlive : ∀ f ∈ P.live, f ∈ handed) (hok : allocPage P = (a, P'))
    (hfew : (insert a handed).card < PAGES_FROM_START) : P.live.length < FRAMES := by
  by_contra hroom
  have hfull : FRAMES ≤ P.live.length := by omega
  have hlen : P.live.length ≤ FRAMES := by
    obtain ⟨k, hk, -, hperm⟩ := h.all
    have := hperm.length_eq
    rw [List.length_append, List.length_map, List.length_range] at this
    omega
  have hfrees : frees = [] := by
    obtain ⟨k, hk, -, hperm⟩ := h.all
    have := hperm.length_eq
    rw [List.length_append, List.length_map, List.length_range] at this
    exact List.eq_nil_of_length_eq_zero (by omega)
  subst hfrees
  obtain ⟨hcount, hend⟩ := h.full hfull
  have ha : a = frameAt FRAMES := by
    rw [allocPage_of_empty h.chain] at hok
    rw [← hend]
    exact (congrArg Prod.fst hok).symm
  -- the page at `page_end` is none of the pages below it
  have hnew : a ∉ P.live.toFinset := by
    intro hmem
    obtain ⟨i, hi, he⟩ := h.isFrame_live (List.mem_toFinset.mp hmem)
    rw [ha] at he
    have := frameAt_injective he
    omega
  have hsub : insert a P.live.toFinset ⊆ insert a handed :=
    Finset.insert_subset_insert a fun f hf => hlive f (List.mem_toFinset.mp hf)
  have hcard := Finset.card_le_card hsub
  rw [Finset.card_insert_of_notMem hnew, List.toFinset_card_of_nodup h.live_nodup, hcount] at hcard
  have hpages : PAGES_FROM_START = FRAMES + 1 := by decide
  omega

/-- **The invariant along a use.** -/
theorem Uses.alloc (h : Uses mem handed P) (hfew : handed.card < PAGES_FROM_START) :
    (∃ frees, Alloc P frees) ∧ ∀ f ∈ P.live, f ∈ handed := by
  induction h with
  | boot => exact ⟨⟨[], alloc_boot mem⟩, fun f hf => by cases hf⟩
  | @allocate handed P P' a _ hok ih =>
    have hle : handed.card ≤ (insert a handed).card := Finset.card_le_card (Finset.subset_insert a handed)
    obtain ⟨⟨frees, hA⟩, hlive⟩ := ih (by omega)
    obtain ⟨a', P'', frees', hok', hA', hal⟩ := allocPage_spec hA (hA.room hlive hok hfew)
    obtain ⟨rfl, rfl⟩ : a' = a ∧ P'' = P' := by simpa using hok'.symm.trans hok
    refine ⟨⟨frees', hA'⟩, fun f hf => ?_⟩
    rw [hal.live] at hf
    rcases List.mem_cons.mp hf with rfl | hf
    · exact Finset.mem_insert_self _ _
    · exact Finset.mem_insert_of_mem (hlive f hf)
  | free _ ha hok ih =>
    obtain ⟨⟨frees, hA⟩, hlive⟩ := ih hfew
    obtain ⟨P'', frees', hok', hA', hF⟩ := freePage_spec hA ha
    obtain rfl := Except.ok.inj (hok'.symm.trans hok)
    refine ⟨⟨frees', hA'⟩, fun f hf => hlive f ?_⟩
    rw [hF.live] at hf
    exact List.mem_of_mem_erase hf
  | store b _ ha h1 h2 ih =>
    obtain ⟨⟨frees, hA⟩, hlive⟩ := ih hfew
    exact ⟨⟨frees, (hA.storeByte ha h1 h2 b).1⟩, hlive⟩

/-- The books of the allocator: the chain from `page_free` and the live pages divide the pages between
`PAGE_START` and `page_end` among them, and `npages` counts the live ones. -/
structure Balanced (P : Pages) (frees : List ℕ) : Prop where
  chain : Chain (readWord P.mem) 0 P.pageFree frees
  nodup : (frees ++ P.live).Nodup
  pages : ∀ page, page ∈ frees ++ P.live ↔ page ∈ pagesOf PAGE_START P.pageEnd
  count : P.npages = P.live.length

theorem pagesOf_frameAt (k : ℕ) : pagesOf PAGE_START (frameAt k) = (List.range k).map frameAt := by
  have hlen : (frameAt k - PAGE_START + (PAGE_SIZE - 1)) / PAGE_SIZE = k := by
    simp only [frameAt, PAGE_SIZE]
    omega
  rw [pagesOf, hlen]
  apply List.map_congr_left
  intro i _
  simp only [frameAt, PAGE_SIZE]
  omega

theorem Alloc.balanced (h : Alloc P frees) : Balanced P frees := by
  refine ⟨h.chain, h.nodup, fun page => ?_, h.count⟩
  obtain ⟨k, -, hend, hperm⟩ := h.all
  rw [hend, pagesOf_frameAt]
  exact hperm.mem_iff

/-- What `alloc_page` promises: an aligned page that was not live, of zeros, and no other live page
touched. -/
structure Fresh (P : Pages) (a : ℕ) (P' : Pages) : Prop where
  aligned : a % PAGE_SIZE = 0
  above : PAGE_START ≤ a
  new : a ∉ P.live
  live : P'.live = a :: P.live
  zero : ∀ x, a ≤ x → x < a + PAGE_SIZE → P'.mem x = 0
  keeps : ∀ f ∈ P.live, AgreeOn P.mem P'.mem f PAGE_SIZE

/-- What `free_page` promises. -/
structure Returned (P : Pages) (a : ℕ) (P' : Pages) : Prop where
  live : P'.live = P.live.erase a
  keeps : ∀ f ∈ P.live, f ≠ a → AgreeOn P.mem P'.mem f PAGE_SIZE

theorem Alloc.fresh (h : Alloc P frees) (hroom : P.live.length < FRAMES) (hok : allocPage P = (a, P')) :
    Fresh P a P' := by
  obtain ⟨a', P'', frees', hok', -, hal⟩ := allocPage_spec h hroom
  obtain ⟨rfl, rfl⟩ : a' = a ∧ P'' = P' := by simpa using hok'.symm.trans hok
  refine ⟨hal.frame.facts.1, hal.frame.facts.2.1, hal.fresh, hal.live, ?_, ?_⟩
  · intro x h1 h2
    have hz := allocPage_zero hok (i := x - a') (by omega)
    rwa [Nat.add_sub_cancel' h1] at hz
  · intro f hf
    refine hal.keeps f (h.isFrame_live hf) ?_
    rintro rfl
    exact hal.fresh hf

/-- **Soundness of the allocator.**  In every use that has handed out fewer pages than the address space has
from `PAGE_START` on, the books are balanced; the next page handed out, if it is not one too many, is fresh;
and every live page can be given back. -/
theorem allocator_sound (h : Uses mem handed P) (hfew : handed.card < PAGES_FROM_START) :
    (∃ frees, Balanced P frees) ∧
    (∀ a P', allocPage P = (a, P') → (insert a handed).card < PAGES_FROM_START → Fresh P a P') ∧
    ∀ a ∈ P.live, ∃ P', freePage P a = .ok P' ∧ Returned P a P' := by
  obtain ⟨⟨frees, hA⟩, hlive⟩ := h.alloc hfew
  refine ⟨⟨frees, hA.balanced⟩, ?_, ?_⟩
  · intro a P' hok hfew'
    exact hA.fresh (hA.room hlive hok hfew') hok
  · intro a ha
    obtain ⟨P', frees', hok, -, hF⟩ := freePage_spec hA ha
    refine ⟨P', hok, hF.live, fun f hf hne => ?_⟩
    exact hF.keeps f (hA.isFrame_live hf) hne

/-- Two pages are handed out, one is written to and given back: it is the next one handed out, and the page that is still
live is left alone. -/
theorem allocator_sound_again : ∃ P P', Uses (fun _ => 0) {PAGE_START + PAGE_SIZE, PAGE_START} P ∧
    P.live = [PAGE_START + PAGE_SIZE] ∧ allocPage P = (PAGE_START, P') ∧ Fresh P PAGE_START P' := by
  let P₁ := (allocPage (Pages.boot fun _ => 0)).2
  let P₂ := (allocPage P₁).2
  let P₃ : Pages := { P₂ with mem := Function.update P₂.mem PAGE_START 1 }
  have h₂ : Uses (fun _ => 0) {PAGE_START + PAGE_SIZE, PAGE_START} P₂ :=
    .allocate (.allocate (P := Pages.boot fun _ => 0) .boot rfl) rfl
  have h₃ : Uses (fun _ => 0) {PAGE_START + PAGE_SIZE, PAGE_START} P₃ :=
    .store 1 h₂ (show PAGE_START ∈ [PAGE_START + PAGE_SIZE, PAGE_START] by simp) (Nat.le_refl _) (by decide)
  let P₄ : Pages := { P₃ with
    npages := 1
    mem := writeWord P₃.mem PAGE_START 0
    pageFree := PAGE_START
    live := [PAGE_START + PAGE_SIZE]
    freedTwice := false }
  have h₄ : Uses (fun _ => 0) {PAGE_START + PAGE_SIZE, PAGE_START} P₄ :=
    .free (a := PAGE_START) h₃ (show PAGE_START ∈ [PAGE_START + PAGE_SIZE, PAGE_START] by simp) rfl
  obtain ⟨-, hfresh, -⟩ := allocator_sound h₄ (by decide)
  exact ⟨P₄, (allocPage P₄).2, h₄, rfl, rfl, hfresh PAGE_START _ rfl (by decide)⟩

end AdelaideOS.Page
