import AdelaideOS.Kernel.Advance

/-!
# The end of the data segment

`brk` maps new pages from the end of the data segment up to the requested address, rounded up modulo `2 ^ 32`.  It
does not compare the address with anything but the old end.

* **`brk_iff`** — after every run, the address space stays in order if and only if the request does not go beyond
  the start of the stack.
-/

namespace AdelaideOS.Kernel

open AdelaideOS.Buddy AdelaideOS.Lib.Bytes AdelaideOS.Lib.Triple AdelaideOS.Page AdelaideOS.Process

/-- What `brk` is to leave of the address space when process `p` asks for the address `a`. -/
structure InOrder (k k' : State) (p a : ℕ) : Prop where
  grows : (k.space p).dataEnd ≤ (k'.space p).dataEnd
  reaches : a ≤ (k'.space p).dataEnd
  text : ∀ x, (k'.space p).dataStart ≤ x → x < (k'.space p).dataEnd →
    ¬ ((k'.space p).textStart ≤ x ∧ x < (k'.space p).textEnd)
  stack : ∀ x, (k'.space p).dataStart ≤ x → x < (k'.space p).dataEnd →
    ¬ ((k'.space p).stackStart ≤ x ∧ x < (k'.space p).stackEnd)
  kernel : ∀ x, (k'.space p).dataStart ≤ x → x < (k'.space p).dataEnd → 6 * MB ≤ x
  mapped : ∀ q, k.sched.Live q → ∀ x < wordSize, ∀ y, translate k.pages.mem (k.space q).pdir x = some y →
    translate k'.pages.mem (k'.space q).pdir x = some y

variable {m : Machine} {n : Notes} {B : Books} {forked : ℕ → Bool} {k k' : State} {asp : ℕ → Aspace} {p a : ℕ}
  {res : ℤ}

theorem syscallBrk_cases (hok : syscallBrk p a k = .ok res k') :
    (a ≤ (k.space p).dataEnd ∧ k' = k) ∨
    ((k.space p).dataEnd < a ∧ ∃ P, mapNewPages k.pages (k.space p).pdir (k.space p).dataEnd
        ((roundUp a + wordSize - (k.space p).dataEnd) % wordSize / PAGE_SIZE) = .ok P ∧
      k' = { k with
        pages := P
        space := Function.update k.space p { k.space p with dataEnd := roundUp a } }) := by
  unfold syscallBrk at hok
  rw [run_get] at hok
  by_cases hle : a ≤ (k.space p).dataEnd
  · rw [if_pos hle] at hok
    cases hok
    exact Or.inl ⟨hle, rfl⟩
  · rw [if_neg hle] at hok
    right
    refine ⟨by omega, ?_⟩
    cases hP : mapNewPages k.pages (k.space p).pdir (k.space p).dataEnd
        ((roundUp a + wordSize - (k.space p).dataEnd) % wordSize / PAGE_SIZE) with
    | error e =>
      simp only [onPages, hP, bind, EStateM.bind, Except.bind] at hok
      cases hok
    | ok P =>
      simp only [onPages, hP, bind, EStateM.bind, Except.bind] at hok
      cases hok
      exact ⟨P, rfl, rfl⟩

/-- The rounded request in pages, when it does not go beyond the stack. -/
theorem roundUp_pages {d : ℕ} (hd : (k.space p).dataEnd = PAGE_SIZE * (DATA_PAGE + d))
    (hlt : (k.space p).dataEnd < a) (hle : a ≤ PAGE_SIZE * (STACK_PAGE - STACK_PAGES)) :
    ∃ d', d ≤ d' ∧ DATA_PAGE + d' ≤ STACK_PAGE - STACK_PAGES ∧ a ≤ roundUp a ∧
      roundUp a = PAGE_SIZE * (DATA_PAGE + d') ∧
      (roundUp a + wordSize - (k.space p).dataEnd) % wordSize / PAGE_SIZE = d' - d := by
  rw [hd] at hlt
  simp only [roundUp, hd, PAGE_SIZE, DATA_PAGE, STACK_PAGE, STACK_PAGES, wordSize] at *
  refine ⟨(a + 4095) / 4096 - 131072, ?_⟩
  split <;> omega

/-- The pages between the data and the stack can all be mapped, and are zero. -/
theorem Safe.mapNewPages_zero {t d d' : ℕ} (h : Safe m forked k.sched k.pages k.space asp) (hp : k.sched.Live p)
    (hs : Shaped (k.space p) (asp p) t d) (hle : DATA_PAGE + d' ≤ STACK_PAGE - STACK_PAGES) :
    ∃ P A, Page.mapNewPages k.pages (k.space p).pdir (k.space p).dataEnd (d' - d) = .ok P ∧
      Owns P (k.space p).pdir A (framesOf ((livePids k.sched).erase p) (fun q => (k.space q).pdir) asp) ∧
      Keeps ((asp p).us.val.map (asp p).fr + framesOf ((livePids k.sched).erase p) (fun q => (k.space q).pdir) asp)
        k.pages P ∧
      Grown (asp p) A (List.range' (DATA_PAGE + d) (d' - d)) ∧
      A.Holds P.mem (List.range' (DATA_PAGE + d) (d' - d)) (fun _ _ => 0) ∧ P.live.length ≤ 350000 := by
  have hlive := h.live_le
  have htl := hs.text_le
  have hdl := hs.data_le
  obtain ⟨-, hmem⟩ := range'_facts (DATA_PAGE + d) (d' - d)
  simp only [DATA_PAGE, STACK_PAGE, STACK_PAGES, MAX_TEXT, MAX_DATA] at hle htl hdl
  obtain ⟨P, A, hok, hO, hK, hG, hc, hlen⟩ := (h.owns hp).mapNewPages_zero (a := DATA_PAGE + d) (k := d' - d)
    (by simp only [KERNEL_PAGES, DATA_PAGE]; omega) (by simp only [PAGES, DATA_PAGE]; omega)
    (fun x hx hus => by
      rw [hmem] at hx
      rw [hs.mem_us] at hus
      simp only [TEXT_PAGE, DATA_PAGE, STACK_PAGE, STACK_PAGES] at hx hus
      omega)
    (by simp only [FRAMES]; omega)
  rw [← hs.dataEnd] at hok
  exact ⟨P, A, hok, hO, hK, hG, hc, by omega⟩

theorem Safe.mapNewPages {t d d' : ℕ} (h : Safe m forked k.sched k.pages k.space asp) (hp : k.sched.Live p)
    (hs : Shaped (k.space p) (asp p) t d) (hle : DATA_PAGE + d' ≤ STACK_PAGE - STACK_PAGES) :
    ∃ P A, Page.mapNewPages k.pages (k.space p).pdir (k.space p).dataEnd (d' - d) = .ok P ∧
      Owns P (k.space p).pdir A (framesOf ((livePids k.sched).erase p) (fun q => (k.space q).pdir) asp) ∧
      Keeps (framesOf ((livePids k.sched).erase p) (fun q => (k.space q).pdir) asp) k.pages P ∧
      Grown (asp p) A (List.range' (DATA_PAGE + d) (d' - d)) ∧ P.live.length ≤ 350000 := by
  obtain ⟨P, A, hok, hO, hK, hG, -, hlen⟩ := h.mapNewPages_zero hp hs hle
  exact ⟨P, A, hok, hO, hK.right, hG, hlen⟩

/-- A request up to the start of the stack. -/
theorem Safe.inOrder (h : Safe m forked k.sched k.pages k.space asp) (hp : k.sched.Live p)
    (hle : a ≤ (k.space p).stackStart) (hok : Kernel.syscallBrk p a k = .ok res k') : InOrder k k' p a := by
  obtain ⟨t, d, hs⟩ := h.shaped p hp
  have htl := hs.text_le
  have hdl := hs.data_le
  rcases syscallBrk_cases hok with ⟨hold, rfl⟩ | ⟨hlt, P, hP, rfl⟩
  · refine ⟨Nat.le_refl _, hold, ?_, ?_, ?_, fun _ _ _ _ _ hy => hy⟩ <;> intro x h1 h2 <;>
      rw [hs.dataStart] at h1 <;> rw [hs.dataEnd] at h2
    · rw [hs.textStart, hs.textEnd]
      simp only [PAGE_SIZE, TEXT_PAGE, DATA_PAGE, MAX_TEXT] at *
      omega
    · rw [hs.stackStart, hs.stackEnd]
      simp only [PAGE_SIZE, DATA_PAGE, STACK_PAGE, STACK_PAGES, MAX_DATA] at *
      omega
    · simp only [PAGE_SIZE, DATA_PAGE, MB] at *
      omega
  · rw [hs.stackStart] at hle
    obtain ⟨d', hdd', hd', hreach, hround, hcount⟩ := roundUp_pages hs.dataEnd hlt hle
    obtain ⟨P₁, A, hP₁, hO, hK, hG, -⟩ := h.mapNewPages hp hs hd'
    rw [hcount, hP₁] at hP
    cases hP
    have hspaces := h.spaces.change (h.mem hp) hO hK
    constructor
    · show (k.space p).dataEnd ≤ ((Function.update k.space p _) p).dataEnd
      rw [Function.update_self]
      exact Nat.le_trans (Nat.le_of_lt hlt) hreach
    · show a ≤ ((Function.update k.space p _) p).dataEnd
      rw [Function.update_self]
      exact hreach
    · intro x
      simp only [Function.update_self]
      rw [hs.dataStart, hround, hs.textStart, hs.textEnd]
      simp only [PAGE_SIZE, TEXT_PAGE, DATA_PAGE, MAX_TEXT] at *
      omega
    · intro x
      simp only [Function.update_self]
      rw [hs.dataStart, hround, hs.stackStart, hs.stackEnd]
      simp only [PAGE_SIZE, DATA_PAGE, STACK_PAGE, STACK_PAGES] at *
      omega
    · intro x
      simp only [Function.update_self]
      rw [hs.dataStart]
      simp only [PAGE_SIZE, DATA_PAGE, MB] at *
      omega
    · intro q hq x hx y hy
      have hO' := hspaces.owns (h.mem hq)
      by_cases hqp : q = p
      · subst hqp
        simp only [Function.update_self] at hO' ⊢
        refine (h.owns hp).translate_grown hO' hG ?_ hx hy
        intro z hz
        obtain ⟨-, hmem⟩ := range'_facts (DATA_PAGE + d) (d' - d)
        have := (hmem z).mp hz
        simp only [KERNEL_PAGES, DATA_PAGE] at *
        omega
      · simp only [Function.update_of_ne hqp] at hO' ⊢
        exact (h.owns hq).translate_grown hO' (Grown.refl _) (fun z hz => absurd hz List.not_mem_nil) hx hy

/-- A request beyond the start of the stack reaches into it, or comes out as the address 0. -/
theorem Safe.not_inOrder (h : Safe m forked k.sched k.pages k.space asp) (hp : k.sched.Live p)
    (hgt : (k.space p).stackStart < a) (hok : Kernel.syscallBrk p a k = .ok res k') :
    ¬ InOrder k k' p a := by
  obtain ⟨t, d, hs⟩ := h.shaped p hp
  have hdl := hs.data_le
  intro hkept
  have hreach := hkept.reaches
  have hstack := hkept.stack (k.space p).stackStart
  rcases syscallBrk_cases hok with ⟨hold, rfl⟩ | ⟨-, P, -, rfl⟩
  · rw [hs.stackStart] at hgt
    rw [hs.dataEnd] at hold
    simp only [PAGE_SIZE, DATA_PAGE, STACK_PAGE, STACK_PAGES, MAX_DATA] at *
    omega
  · simp only [Function.update_self] at hreach hstack
    rw [hs.stackStart] at hgt
    rw [hs.dataStart, hs.stackStart, hs.stackEnd] at hstack
    have := hstack (by simp only [PAGE_SIZE, DATA_PAGE, STACK_PAGE, STACK_PAGES]; omega) (by omega)
    simp only [PAGE_SIZE, STACK_PAGE, STACK_PAGES] at *
    omega

/-- **`brk`** leaves the address space in order if and only if it is asked for an address up to the start of the
stack.  In the run before, no process had asked for more than `PROCESS_DATA_MAX` bytes. -/
theorem brk_iff (h : Run m (fun n k i => i.Fair n k ∧ i.Modest) n B k) (hp : k.sched.Live p)
    (hok : syscallBrk p a k = .ok 0 k') : InOrder k k' p a ↔ a ≤ (k.space p).stackStart := by
  obtain ⟨-, -, C, -, hbooks⟩ := h.standing fun _ _ _ hi => hi.1
  obtain ⟨forked, asp, hsafe⟩ := (hbooks fun _ _ _ hi => hi.2).1
  constructor
  · intro hkept
    by_contra hgt
    exact hsafe.not_inOrder hp (by omega) hok hkept
  · intro hle
    exact hsafe.inOrder hp hle hok

/-! ### One page too many -/

theorem mapNewPages_succ (P : Pages) (pdir base c : ℕ) :
    mapNewPages P pdir base (c + 1) =
      mapNewPages P pdir base c >>= fun P => mapNewPage P pdir ((base + c * PAGE_SIZE) % wordSize) := by
  unfold mapNewPages
  rw [List.range_succ, List.foldlM_append]
  cases assert Site.mapNewPages (base % PAGE_SIZE = 0) with
  | error e => rfl
  | ok u => simp only [ok_bind, List.foldlM_cons, List.foldlM_nil, bind_pure]

/-- A new frame can be mapped over whatever is there. -/
theorem mapNewPage_ok {P : Pages} {pdir x : ℕ} {A : Aspace} {rest : Multiset ℕ} (h : Owns P pdir A rest)
    (hroom : P.live.length < FRAMES) (hx : x % PAGE_SIZE = 0) : ∃ P', mapNewPage P pdir x = .ok P' := by
  obtain ⟨F, P', hF, hO, -⟩ := h.allocPage hroom
  have hframe : IsFrame F := hO.isFrame (hO.mem_live.mpr (by simp))
  apply Exists.intro
  rw [mapNewPage, hF]
  simp only [mapPage, assert_pos hx, assert_pos hframe.facts.1, ok_bind]
  rfl

/-- The request for one byte of the stack is granted. -/
theorem Safe.brk_stack (h : Safe m forked k.sched k.pages k.space asp) (hp : k.sched.Live p) :
    ∃ k', Kernel.syscallBrk p ((k.space p).stackStart + 1) k = .ok 0 k' := by
  obtain ⟨t, d, hs⟩ := h.shaped p hp
  have hdl := hs.data_le
  obtain ⟨P₁, A, hP₁, hO, -, -, hlen⟩ := h.mapNewPages hp hs
    (show DATA_PAGE + 131056 ≤ STACK_PAGE - STACK_PAGES by decide)
  have hbase : ((k.space p).dataEnd + (131056 - d) * PAGE_SIZE) % wordSize % PAGE_SIZE = 0 := by
    rw [hs.dataEnd]
    simp only [PAGE_SIZE, wordSize, DATA_PAGE, MAX_DATA] at *
    omega
  obtain ⟨P₂, hP₂⟩ := mapNewPage_ok hO (x := ((k.space p).dataEnd + (131056 - d) * PAGE_SIZE) % wordSize)
    (by simp only [FRAMES]; omega) hbase
  have hcount : (roundUp ((k.space p).stackStart + 1) + wordSize - (k.space p).dataEnd) % wordSize / PAGE_SIZE =
      131056 - d + 1 := by
    rw [hs.stackStart, hs.dataEnd]
    simp only [roundUp, PAGE_SIZE, wordSize, DATA_PAGE, STACK_PAGE, STACK_PAGES, MAX_DATA] at *
    norm_num
    omega
  have hgt : ¬ (k.space p).stackStart + 1 ≤ (k.space p).dataEnd := by
    rw [hs.stackStart, hs.dataEnd]
    simp only [PAGE_SIZE, DATA_PAGE, STACK_PAGE, STACK_PAGES, MAX_DATA] at *
    omega
  apply Exists.intro
  unfold Kernel.syscallBrk
  rw [run_get, if_neg hgt, hcount]
  simp only [onPages, mapNewPages_succ, hP₁, hP₂, bind, EStateM.bind, Except.bind]
  rfl

/-- **The first process asks for one byte of its stack**, and gets it. -/
theorem brk_into_stack :
    ∃ n B k k', Run Machine.bare (fun n k i => i.Fair n k ∧ i.Modest) n B k ∧ k.sched.Live 1 ∧
      syscallBrk 1 (PROCESS_STACK_BASE - PROCESS_STACK_SIZE + 1) k = .ok 0 k' ∧
      ¬ InOrder k k' 1 (PROCESS_STACK_BASE - PROCESS_STACK_SIZE + 1) := by
  obtain ⟨n, B, k, h, ⟨forked, asp, hsafe⟩, hs, -⟩ := run_start Machine.bare (P := fun n k i => i.Fair n k ∧ i.Modest)
    roomy_boot (fun _ _ => ⟨trivial, trivial⟩) fun _ _ => ⟨trivial, trivial⟩
  have hp : k.sched.Live 1 := by
    rw [hs]
    exact ⟨rfl, rfl⟩
  obtain ⟨t, d, hshape⟩ := hsafe.shaped 1 hp
  obtain ⟨k', hk'⟩ := hsafe.brk_stack hp
  have hstart : (k.space 1).stackStart = PROCESS_STACK_BASE - PROCESS_STACK_SIZE := hshape.stackStart
  rw [hstart] at hk'
  refine ⟨n, B, k, k', h, hp, hk', hsafe.not_inOrder hp ?_ hk'⟩
  rw [hstart]
  decide

/-- A request between the end of the data segment and the start of the stack is granted. -/
theorem Safe.brk_grows (h : Safe m forked k.sched k.pages k.space asp) (hp : k.sched.Live p)
    (hgt : (k.space p).dataEnd < a) (hle : a ≤ (k.space p).stackStart) :
    ∃ k', Kernel.syscallBrk p a k = .ok 0 k' ∧ (k'.space p).dataEnd = roundUp a := by
  obtain ⟨t, d, hs⟩ := h.shaped p hp
  rw [hs.stackStart] at hle
  obtain ⟨d', -, htop, -, -, hcount⟩ := roundUp_pages hs.dataEnd hgt hle
  obtain ⟨P, A, hP, -⟩ := h.mapNewPages hp hs htop
  refine ⟨{ k with
    pages := P
    space := Function.update k.space p { k.space p with dataEnd := roundUp a } }, ?_, ?_⟩
  · unfold Kernel.syscallBrk
    rw [run_get, if_neg (Nat.not_le_of_lt hgt), hcount]
    simp only [onPages, hP, bind, EStateM.bind, Except.bind]
    rfl
  · show (Function.update k.space p _ p).dataEnd = _
    rw [Function.update_self]

/-- The first process asks for 5000 bytes, and gets two pages. -/
theorem brk_two_pages :
    ∃ n B k k', Run Machine.bare (fun n k i => i.Fair n k ∧ i.Modest) n B k ∧
      syscallBrk 1 ((k.space 1).dataEnd + 5000) k = .ok 0 k' ∧
      (k'.space 1).dataEnd = (k.space 1).dataEnd + 2 * PAGE_SIZE ∧
      (InOrder k k' 1 ((k.space 1).dataEnd + 5000) ↔ (k.space 1).dataEnd + 5000 ≤ (k.space 1).stackStart) := by
  obtain ⟨n, B, k, h, ⟨forked, asp, hsafe⟩, hs, -⟩ := run_start Machine.bare (P := fun n k i => i.Fair n k ∧ i.Modest)
    roomy_boot (fun _ _ => ⟨trivial, trivial⟩) fun _ _ => ⟨trivial, trivial⟩
  have hp : k.sched.Live 1 := by
    rw [hs]
    exact ⟨rfl, rfl⟩
  obtain ⟨t, d, hshape⟩ := hsafe.shaped 1 hp
  have hd := hshape.data_le
  have hbelow : (k.space 1).dataEnd + 5000 ≤ (k.space 1).stackStart := by
    rw [hshape.dataEnd, hshape.stackStart]
    simp only [PAGE_SIZE, DATA_PAGE, STACK_PAGE, STACK_PAGES, MAX_DATA] at *
    omega
  obtain ⟨k', hok, hend⟩ := hsafe.brk_grows hp (show (k.space 1).dataEnd < (k.space 1).dataEnd + 5000 by omega) hbelow
  refine ⟨n, B, k, k', h, hok, ?_, brk_iff h hp hok⟩
  rw [hend, hshape.dataEnd]
  simp only [PAGE_SIZE, DATA_PAGE, MAX_DATA] at *
  unfold roundUp
  rw [if_neg (by simp only [PAGE_SIZE]; omega)]
  simp only [PAGE_SIZE, wordSize]
  omega

end AdelaideOS.Kernel
