import AdelaideOS.Kernel.Progress

/-!
# Page frames are conserved

The frames of a process as one reads them off its page directory: the directory itself, the table of each
directory entry that is present, and the frame behind each page of the text, data and stack ranges.  In every
run the live frames of the allocator are exactly those of the processes that have not exited.

* **`processFrames_eq`** — they are the frames that the invariant assigns to the process;
* **`frames_conserved`** — the statement about runs.
-/

namespace AdelaideOS.Kernel

open AdelaideOS.Lib.Bytes AdelaideOS.Lib.Links AdelaideOS.Page AdelaideOS.Process

/-- The page tables of the present directory entries. -/
def tableFrames (M : Memory) (pdir : ℕ) : List ℕ :=
  (List.range 1024).filterMap fun i =>
    if readWord M (pdir + 4 * i) &&& PAGE_PRESENT = 0 then none
    else some (readWord M (pdir + 4 * i) &&& PAGE_ADDRESS_MASK)

/-- The page addresses of the text, data and stack ranges. -/
def Space.pages (s : Space) : List ℕ :=
  pagesOf s.textStart s.textEnd ++ pagesOf s.dataStart s.dataEnd ++ pagesOf s.stackStart s.stackEnd

/-- The frames behind them. -/
def pageFrames (M : Memory) (s : Space) : List ℕ :=
  s.pages.map fun a => tblEntry M s.pdir a &&& PAGE_ADDRESS_MASK

def processFrames (k : State) (p : ℕ) : List ℕ :=
  (k.space p).pdir :: (tableFrames k.pages.mem (k.space p).pdir ++ pageFrames k.pages.mem (k.space p))

/-- The frames of all processes that have not exited. -/
def allFrames (k : State) : List ℕ :=
  ((List.range MAX_PROCESSES).filter fun p => k.sched.Live p).flatMap (processFrames k)

variable {m : Machine} {forked : ℕ → Bool} {k : State} {asp : ℕ → Aspace} {p : ℕ} {P : Pages} {s : Space}
  {A : Aspace} {rest : Multiset ℕ} {t d : ℕ}

/-! ### One process -/

theorem tableFrames_eq (h : Owns P s.pdir A rest) :
    (tableFrames P.mem s.pdir : Multiset ℕ) = tablesOf A.tbl := by
  rw [tablesOf_coe, tableFrames, Multiset.coe_eq_coe]
  apply List.Perm.of_eq
  apply List.filterMap_congr
  intro i hi
  rw [List.mem_range] at hi
  cases ht : A.tbl i with
  | none =>
    rw [h.rep.none_dir i hi ht]
    rfl
  | some T =>
    have hT := table_entry (h.isFrame (h.placed.tbl_mem i hi T ht))
    rw [h.rep.some_dir i hi T ht, hT.1, hT.2]
    rfl

/-- The page numbers of the three ranges. -/
def segList (t d : ℕ) : List ℕ :=
  List.range' TEXT_PAGE t ++ List.range' DATA_PAGE d ++
    List.range' (STACK_PAGE - STACK_PAGES) STACK_PAGES

theorem mem_segList {n : ℕ} : n ∈ segList t d ↔ n ∈ segPages t d := by
  rw [segList, List.mem_append, List.mem_append, (range'_facts _ _).2, (range'_facts _ _).2,
    (range'_facts _ _).2, mem_segPages, or_assoc]
  rfl

theorem nodup_segList (ht : t ≤ MAX_TEXT) (hd : d ≤ MAX_DATA) : (segList t d).Nodup := by
  simp only [MAX_TEXT, MAX_DATA] at ht hd
  refine List.Nodup.append (List.Nodup.append List.nodup_range' List.nodup_range' ?_)
    List.nodup_range' ?_
  · intro n h1 h2
    rw [(range'_facts _ _).2] at h1 h2
    simp only [TEXT_PAGE, DATA_PAGE] at h1 h2
    omega
  · intro n h1 h2
    rw [List.mem_append, (range'_facts _ _).2, (range'_facts _ _).2] at h1
    rw [(range'_facts _ _).2] at h2
    simp only [TEXT_PAGE, DATA_PAGE, STACK_PAGE, STACK_PAGES] at h1 h2
    omega

theorem Shaped.pages_eq (h : Shaped s A t d) : s.pages = (segList t d).map (PAGE_SIZE * ·) := by
  rw [Space.pages, h.textStart, h.textEnd, h.dataStart, h.dataEnd, h.stackStart, h.stackEnd, pagesOf_eq,
    pagesOf_eq, pagesOf_eq, segList, List.map_append, List.map_append, Nat.add_sub_cancel_left,
    Nat.add_sub_cancel_left]
  rfl

theorem pageFrames_eq (h : Owns P s.pdir A rest) (hs : Shaped s A t d) :
    (pageFrames P.mem s : Multiset ℕ) = A.us.val.map A.fr := by
  have hval : A.us.val = (segList t d : Multiset ℕ) := by
    have hnd := Multiset.coe_nodup.mpr (nodup_segList hs.text_le hs.data_le)
    refine (Multiset.Nodup.ext A.us.nodup hnd).mpr ?_
    intro n
    rw [Multiset.mem_coe, mem_segList, Finset.mem_val, hs.us]
  rw [hval, Multiset.map_coe, pageFrames, hs.pages_eq, List.map_map]
  congr 1
  apply List.map_congr_left
  intro n hn
  have hus : n ∈ A.us := by
    rw [hs.us, ← mem_segList]
    exact hn
  obtain ⟨T, -, -, -, htbl, hfr⟩ := h.entries_of_user hus
  rw [Function.comp_apply, htbl, (table_entry hfr).2]

/-- **One process.** -/
theorem processFrames_eq (h : Owns k.pages (k.space p).pdir A rest) (hs : Shaped (k.space p) A t d) :
    (processFrames k p : Multiset ℕ) = A.owned (k.space p).pdir := by
  rw [processFrames, ← Multiset.cons_coe, ← Multiset.coe_add, tableFrames_eq h, pageFrames_eq h hs]
  rfl

/-! ### All processes -/

theorem coe_flatMap (l : List ℕ) (f : ℕ → List ℕ) :
    (l.flatMap f : Multiset ℕ) = (l.map fun a => (f a : Multiset ℕ)).sum := by
  induction l with
  | nil => rfl
  | cons a l ih => rw [List.flatMap_cons, ← Multiset.coe_add, ih, List.map_cons, List.sum_cons]

/-- **All processes.** -/
theorem live_eq_allFrames (h : Safe m forked k.sched k.pages k.space asp) :
    (k.pages.live : Multiset ℕ) = (allFrames k : Multiset ℕ) := by
  have hset : ((List.range MAX_PROCESSES).filter fun p => k.sched.Live p).toFinset = livePids k.sched := by
    ext p
    rw [List.mem_toFinset, List.mem_filter, List.mem_range, mem_livePids h.good, decide_eq_true_eq]
    constructor
    · exact fun hp => hp.2
    · intro hp
      obtain ⟨R, U, hI⟩ := h.good
      exact ⟨(hI.range p hp.1).2, hp⟩
  rw [h.spaces.live, framesOf, allFrames, coe_flatMap, ← hset,
    List.sum_toFinset _ (List.nodup_range.filter _)]
  congr 1
  apply List.map_congr_left
  intro p hp
  rw [List.mem_filter, decide_eq_true_eq] at hp
  obtain ⟨t, d, hs⟩ := h.shaped p hp.2
  exact (processFrames_eq (h.owns hp.2) hs).symm

/-- **Page frames are conserved.**  After any run, the live pages of the allocator are exactly the frames of
the processes that have not exited, all distinct; `npages` counts them; and no page was freed twice.  Once
every process has exited, no page is live and every frame handed out so far is on the free list. -/
theorem frames_conserved (h : Reachable m k forked) :
    k.pages.live.Perm (allFrames k) ∧ (allFrames k).Nodup ∧ k.pages.npages = (allFrames k).length ∧
      k.pages.freedTwice = false ∧
      ((∀ p, ¬ k.sched.Live p) → k.pages.npages = 0 ∧
        ∃ frees, Chain (readWord k.pages.mem) 0 k.pages.pageFree frees ∧
          frees.Perm (pagesOf PAGE_START k.pages.pageEnd)) := by
  obtain ⟨-, asp, hsafe⟩ := inv_of_reachable h
  obtain ⟨frees, hA⟩ := hsafe.spaces.alloc
  have hperm : k.pages.live.Perm (allFrames k) := Multiset.coe_eq_coe.mp (live_eq_allFrames hsafe)
  refine ⟨hperm, hperm.nodup_iff.mp hA.live_nodup, ?_, hA.once, ?_⟩
  · rw [hA.count, hperm.length_eq]
  · intro hdead
    have hnone : allFrames k = [] := by
      rw [allFrames, List.filter_eq_nil_iff.mpr fun p _ => by simpa using hdead p]
      rfl
    have hlive : k.pages.live = [] := by
      rw [hnone] at hperm
      exact hperm.eq_nil
    refine ⟨by rw [hA.count, hlive]; rfl, frees, hA.chain, ?_⟩
    obtain ⟨j, -, hend, hall⟩ := hA.all
    rw [hlive, List.append_nil] at hall
    refine hall.trans (List.Perm.of_eq ?_)
    have hlen : (frameAt j - PAGE_START + (PAGE_SIZE - 1)) / PAGE_SIZE = j := by
      simp only [frameAt, PAGE_SIZE, PAGE_START, MB]
      omega
    rw [hend, pagesOf, hlen]
    apply List.map_congr_left
    intro i _
    simp only [frameAt]
    ring

/-- With one process and its child, the live pages are the frames of both. -/
theorem frames_conserved_fork :
    ∃ k forked, Reachable Machine.bare k forked ∧ k.sched.Live 1 ∧ k.sched.Live 2 ∧
      k.pages.live.Perm (allFrames k) ∧ (allFrames k).Nodup ∧ k.pages.npages = (allFrames k).length ∧
      k.pages.freedTwice = false := by
  obtain ⟨k, forked, h, h1, h2, -⟩ := reachable_fork
  obtain ⟨hperm, hnd, hlen, honce, -⟩ := frames_conserved h
  exact ⟨k, forked, h, h1, h2, hperm, hnd, hlen, honce⟩

end AdelaideOS.Kernel
