import AdelaideOS.Kernel.Progress

/-!
# Address spaces are isolated

What the page directory of a process lets user code do, in every state that a run reaches.

* **`Shaped.inRange_iff`** — the ranges of a process are the pages that its directory maps for the user;
* **`isolated_of_reachable`** — exactly the ranges are writable for the user, and no frame behind them belongs
  to two processes or to the kernel;
* **`Safe.exposed`**, **`Safe.hidden`** — `fork` shows memory of the kernel to the child, `start_process` does not.
-/

namespace AdelaideOS.Kernel

open AdelaideOS.Lib.Bytes AdelaideOS.Page AdelaideOS.Process

variable {m : Machine} {forked : ℕ → Bool} {k : State} {asp : ℕ → Aspace} {p q a b : ℕ} {s : Space}
  {A : Aspace} {t d : ℕ}

/-! ### Ranges -/

theorem Shaped.inRange_iff (h : Shaped s A t d) (a : ℕ) : s.InRange a ↔ pageOf a ∈ A.us := by
  rw [h.mem_us, Space.InRange, h.textStart, h.textEnd, h.dataStart, h.dataEnd, h.stackStart, h.stackEnd]
  simp only [pageOf, PAGE_SIZE, TEXT_PAGE, DATA_PAGE, STACK_PAGE, STACK_PAGES]
  omega

/-- A pointer that `valid_pointer` accepts names addresses of one range, without wrapping around. -/
theorem validPointer_inRange {ptr size i : ℕ} (hptr : ptr < wordSize) (hsize : size < wordSize)
    (h : validPointer s ptr size = true) (hi : i < size) : ptr + size < wordSize ∧ s.InRange (ptr + i) := by
  have hpos : ¬ size = 0 := by omega
  unfold validPointer at h
  simp only [if_neg hpos] at h
  split at h
  · cases h
  · rename_i hend
    have hnowrap : ptr + size < wordSize := by
      by_contra hge
      have hmod : (ptr + size) % wordSize = ptr + size - wordSize := by
        rw [Nat.mod_eq_sub_mod (by omega), Nat.mod_eq_of_lt (by omega)]
      omega
    rw [Nat.mod_eq_of_lt hnowrap] at h hend
    refine ⟨hnowrap, ?_⟩
    unfold Space.InRange
    split at h
    · right; right; omega
    · split at h
      · right; left; omega
      · split at h
        · left; omega
        · cases h

/-! ### Isolation -/

/-- The frame behind a page. -/
def frameOf (k : State) (p a : ℕ) : ℕ := tblEntry k.pages.mem (k.space p).pdir a &&& PAGE_ADDRESS_MASK

/-- Address spaces are intact and apart. -/
structure Isolated (k : State) : Prop where
  /-- Exactly the ranges are present and writable for the user. -/
  writable : ∀ p, k.sched.Live p → ∀ a < wordSize,
    (userWritable k.pages.mem (k.space p).pdir a ↔ (k.space p).InRange a)
  /-- `valid_pointer` accepts no unmapped address. -/
  valid : ∀ p, k.sched.Live p → ∀ ptr < wordSize, ∀ size < wordSize,
    validPointer (k.space p) ptr size = true → ∀ i < size,
      ∃ x, translate k.pages.mem (k.space p).pdir (ptr + i) = some x
  /-- `map_and_copy` finds every page that it looks up. -/
  copies : ∀ p, k.sched.Live p → ∃ r, forkPages (k.space p) k.pages = .ok r
  /-- What the user can write is not memory of the kernel. -/
  low : ∀ p, k.sched.Live p → ∀ a < wordSize, userWritable k.pages.mem (k.space p).pdir a →
    PAGE_START ≤ frameOf k p a
  /-- No frame is writable for the user in two processes. -/
  apart : ∀ p q, k.sched.Live p → k.sched.Live q → p ≠ q → ∀ a < wordSize, ∀ b < wordSize,
    userWritable k.pages.mem (k.space p).pdir a → userWritable k.pages.mem (k.space q).pdir b →
      frameOf k p a ≠ frameOf k q b

theorem Safe.writable_iff (h : Safe m forked k.sched k.pages k.space asp) (hp : k.sched.Live p)
    (ha : a < wordSize) : userWritable k.pages.mem (k.space p).pdir a ↔ (k.space p).InRange a := by
  obtain ⟨t, d, hs⟩ := h.shaped p hp
  rw [hs.inRange_iff]
  constructor
  · intro hw
    by_contra hn
    exact ((h.owns hp).kernel_page ha hn).1 hw
  · intro hn
    exact ((h.owns hp).user_page ha hn).2.1

/-- The page behind an address in range. -/
theorem Safe.user_page (h : Safe m forked k.sched k.pages k.space asp) (hp : k.sched.Live p)
    (ha : a < wordSize) (hr : (k.space p).InRange a) :
    translate k.pages.mem (k.space p).pdir a = some (frameOf k p a + a % PAGE_SIZE) ∧
      pageOf a ∈ (asp p).us ∧ frameOf k p a = (asp p).fr (pageOf a) ∧ IsFrame (frameOf k p a) := by
  obtain ⟨t, d, hs⟩ := h.shaped p hp
  have hn := (hs.inRange_iff a).mp hr
  obtain ⟨htr, -, hfr, hframe⟩ := (h.owns hp).user_page ha hn
  have heq : frameOf k p a = (asp p).fr (pageOf a) := hframe
  rw [heq]
  exact ⟨htr, hn, rfl, hfr⟩

/-- The frames of two processes differ. -/
theorem Safe.apart (h : Safe m forked k.sched k.pages k.space asp) (hp : k.sched.Live p)
    (hq : k.sched.Live q) (hne : p ≠ q) {n n' : ℕ} (hn : n ∈ (asp p).us) (hn' : n' ∈ (asp q).us) :
    (asp p).fr n ≠ (asp q).fr n' := by
  apply ((h.owns hp).rest_apart ?_).2.2 n hn
  apply mem_framesOf.mpr
  refine ⟨q, Finset.mem_erase.mpr ⟨hne.symm, h.mem hq⟩, ?_⟩
  rw [Aspace.owned, Multiset.mem_cons, Multiset.mem_add, Multiset.mem_map]
  exact Or.inr (Or.inr ⟨n', hn', rfl⟩)

/-- **Address-space integrity** in every state that a run reaches. -/
theorem isolated_of_reachable (h : Reachable m k forked) : Isolated k := by
  obtain ⟨-, asp, hsafe⟩ := inv_of_reachable h
  refine ⟨?_, ?_, ?_, ?_, ?_⟩
  · intro p hp a ha
    exact hsafe.writable_iff hp ha
  · intro p hp ptr hptr size hsize hvalid i hi
    obtain ⟨hwrap, hr⟩ := validPointer_inRange hptr hsize hvalid hi
    exact ⟨_, (hsafe.user_page hp (by omega) hr).1⟩
  · intro p hp
    obtain ⟨pdir, P', A, hok, -⟩ := hsafe.forkPages_ok hp
    exact ⟨_, hok⟩
  · intro p hp a ha hw
    exact (hsafe.user_page hp ha ((hsafe.writable_iff hp ha).mp hw)).2.2.2.facts.2.1
  · intro p q hp hq hne a ha b hb hwa hwb
    obtain ⟨-, hna, hfa, -⟩ := hsafe.user_page hp ha ((hsafe.writable_iff hp ha).mp hwa)
    obtain ⟨-, hnb, hfb, -⟩ := hsafe.user_page hq hb ((hsafe.writable_iff hq hb).mp hwb)
    rw [hfa, hfb]
    exact hsafe.apart hp hq hne hna hnb

/-- A process and its child are isolated from each other. -/
theorem isolated_fork :
    ∃ k forked, Reachable Machine.bare k forked ∧ k.sched.Live 1 ∧ k.sched.Live 2 ∧ Isolated k := by
  obtain ⟨k, forked, h, h1, h2, -⟩ := reachable_fork
  exact ⟨k, forked, h, h1, h2, isolated_of_reachable h⟩

/-! ### Memory of the kernel -/

/-- Process `p` has no user-mode access to memory below 6 MB, except for the code of the kernel. -/
def Confidential (m : Machine) (k : State) (p : ℕ) : Prop :=
  ∀ a < 6 * MB, ¬ (m.codeStart ≤ a ∧ a < m.codeEnd) → ¬ userAccessible k.pages.mem (k.space p).pdir a

theorem Safe.accessible_iff (h : Safe m forked k.sched k.pages k.space asp) (hp : k.sched.Live p)
    (ha : a < 6 * MB) : userAccessible k.pages.mem (k.space p).pdir a ↔
      (asp p).kern (pageOf a) = PAGE_SIZE * pageOf a + 5 := by
  obtain ⟨t, d, hs⟩ := h.shaped p hp
  have hword : a < wordSize := by
    simp only [MB, wordSize] at *
    omega
  have hn : pageOf a ∉ (asp p).us := by
    rw [hs.mem_us]
    simp only [pageOf, PAGE_SIZE, MB, TEXT_PAGE, DATA_PAGE, STACK_PAGE, STACK_PAGES] at *
    omega
  exact ((h.owns hp).kernel_page hword hn).2.2

theorem pageOf_lt_kernel (ha : a < 6 * MB) : pageOf a < KERNEL_PAGES := by
  simp only [pageOf, PAGE_SIZE, MB, KERNEL_PAGES] at *
  omega

/-- The code range consists of whole pages. -/
theorem Machine.code_iff (m : Machine) (a : ℕ) : (m.codeStart ≤ a ∧ a < m.codeEnd) ↔
    (m.codeStart ≤ PAGE_SIZE * pageOf a ∧ PAGE_SIZE * pageOf a < m.codeEnd) := by
  have h1 := m.start_aligned
  have h2 := m.end_aligned
  simp only [pageOf, PAGE_SIZE] at *
  omega

/-- `fork` maps all of it for the user. -/
theorem Safe.exposed (h : Safe m forked k.sched k.pages k.space asp) (hp : k.sched.Live p)
    (hf : forked p = true) (ha : a < 6 * MB) : userAccessible k.pages.mem (k.space p).pdir a := by
  rw [h.accessible_iff hp ha, h.kern p hp, if_pos hf, forkKern, if_pos (pageOf_lt_kernel ha)]

/-- `start_process` maps only the code for the user. -/
theorem Safe.hidden (h : Safe m forked k.sched k.pages k.space asp) (hp : k.sched.Live p)
    (hf : forked p = false) (ha : a < 6 * MB) (hcode : ¬ (m.codeStart ≤ a ∧ a < m.codeEnd)) :
    ¬ userAccessible k.pages.mem (k.space p).pdir a := by
  rw [m.code_iff] at hcode
  rw [h.accessible_iff hp ha, h.kern p hp, hf, if_neg (by decide), startKern,
    if_pos (pageOf_lt_kernel ha), if_neg hcode]
  omega

end AdelaideOS.Kernel
