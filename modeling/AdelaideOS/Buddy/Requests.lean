import AdelaideOS.Buddy.Blocks

/-!
# Requests to the buddy allocator

How a request is rounded, when it ends, when it is satisfied, and that releasing the block at once undoes it.

* **`mforsize_tight_iff`** — the order is the least sufficient one, except for requests of exactly a power of two;
* **`answers_iff`** — requests of `2 ^ 31` bytes and more never return;
* **`requests_of_reachable`** — a request fails exactly if there is no room, and is cut out of a least block;
* **`free_undoes_alloc`** — lists and granules after a request and its release are what they were.
-/

namespace AdelaideOS.Buddy

open AdelaideOS.Lib.Bytes AdelaideOS.Lib.Dyadic AdelaideOS.Lib.Links

variable {R : Region} {build : Build} {s : Client} {free : ℕ → List ℕ} {ma : Memarea} {b c m nbytes : ℕ}
  {rest : List ℕ}

/-! ### Rounding -/

/-- The loop of `mforsize` stops at the least power of two above `nbytes`. -/
theorem mforsizeLoop_least {j : ℕ} (hn : nbytes < 2 ^ 31) (fuel k : ℕ) (hk : k ≤ 31)
    (hok : mforsizeLoop nbytes fuel (2 ^ k) k = .ok j) (i : ℕ) (hi : k ≤ i) (hlt : nbytes < 2 ^ i) : j ≤ i := by
  induction fuel generalizing k with
  | zero => cases hok
  | succ fuel ih =>
    rw [mforsizeLoop] at hok
    by_cases hle : 2 ^ k ≤ nbytes
    · have hlt31 : 2 ^ k < 2 ^ 31 := by omega
      have hk31 : k < 31 := (Nat.pow_lt_pow_iff_right (by decide)).mp hlt31
      have hpow : 2 ^ (k + 1) ≤ 2 ^ 31 := Nat.pow_le_pow_right (by decide) hk31
      rw [if_pos hle, ← pow_succ, Nat.mod_eq_of_lt (by simp only [wordSize]; omega)] at hok
      have hki : k ≠ i := by
        rintro rfl
        omega
      exact ih (k + 1) (by omega) hok (by omega)
    · rw [if_neg hle] at hok
      obtain rfl : k = j := Except.ok.inj hok
      exact hi

/-- **The order of a request**: the least one whose blocks are larger than the request. -/
theorem mforsize_least (ma : Memarea) (hn : nbytes < 2 ^ 31) :
    ∃ m, mforsize ma nbytes = .ok m ∧ ma.lower ≤ m ∧ nbytes < 2 ^ m ∧ m ≤ max 31 ma.lower ∧
      ∀ j, ma.lower ≤ j → nbytes < 2 ^ j → m ≤ j := by
  obtain ⟨j, hok, -, hj, hlt⟩ := mforsizeLoop_spec hn 33 0 (by decide) (by decide)
  have hleast := mforsizeLoop_least hn 33 0 (by decide) hok
  rw [pow_zero] at hok
  rw [mforsize, hok, ok_bind]
  by_cases hlow : ma.lower ≤ j
  · rw [if_pos hlow]
    exact ⟨j, rfl, hlow, hlt, by omega, fun i _ hi => hleast i (Nat.zero_le i) hi⟩
  · rw [if_neg hlow]
    have hpow : 2 ^ j ≤ 2 ^ ma.lower := Nat.pow_le_pow_right (by decide) (by omega)
    exact ⟨ma.lower, rfl, le_refl _, by omega, by omega, fun i hi _ => hi⟩

/-- `2 ^ m` is the least power of two that holds `nbytes` bytes, among those from `2 ^ lower` on. -/
structure Tight (lower nbytes m : ℕ) : Prop where
  lower_le : lower ≤ m
  fits : nbytes ≤ 2 ^ m
  least : ∀ j, lower ≤ j → nbytes ≤ 2 ^ j → m ≤ j

/-- **Rounding is tight** for all requests but those of exactly `2 ^ k` bytes, which get a block of twice the size. -/
theorem mforsize_tight_iff (hn : nbytes < 2 ^ 31) :
    (∃ m, mforsize ma nbytes = .ok m ∧ Tight ma.lower nbytes m) ↔ ∀ k, ma.lower ≤ k → nbytes ≠ 2 ^ k := by
  obtain ⟨m, hok, hlow, hlt, -, hleast⟩ := mforsize_least ma hn
  constructor
  · rintro ⟨m', hok', ht⟩ k hk rfl
    rw [hok] at hok'
    cases hok'
    have hmk : m ≤ k := ht.least k hk (le_refl _)
    have hkm : k < m := (Nat.pow_lt_pow_iff_right (by decide)).mp hlt
    omega
  · intro hne
    refine ⟨m, hok, hlow, hlt.le, ?_⟩
    intro j hj hle
    have hj' := hne j hj
    exact hleast j hj (by omega)

/-- A request that is no power of two. -/
theorem mforsize_tight_thousand :
    1000 < 2 ^ 31 ∧ ∃ m, mforsize (buddyInit 22 (2 ^ 21) (fun _ => ⟨0, false⟩) fun _ => 0).ma 1000 = .ok m ∧
      Tight 8 1000 m := by
  refine ⟨by decide, (mforsize_tight_iff (by decide)).mpr ?_⟩
  intro k hk h
  have hk10 : k < 10 := by
    have hlt : 2 ^ k < 2 ^ 10 := by
      rw [← h]
      decide
    exact (Nat.pow_lt_pow_iff_right (by decide)).mp hlt
  replace hk : 8 ≤ k := hk
  interval_cases k
  · cases h
  · cases h

/-- **A pipe buffer** of 1024 bytes gets a block of 2048 bytes, and a heap of 1024 bytes cannot give its 1024 bytes
to anyone. -/
theorem pipe_buffer_doubled :
    (¬ ∃ m, mforsize (buddyInit 22 (2 ^ 21) (fun _ => ⟨0, false⟩) fun _ => 0).ma 1024 = .ok m ∧ Tight 8 1024 m) ∧
      (buddyAlloc .userland (buddyInit 10 4096 (fun _ => ⟨0, false⟩) fun _ => 0) 1024).map Prod.fst = .ok 0 := by
  constructor
  · rintro ⟨m, hok, ht⟩
    have hm : m = 11 := by
      cases hok
      rfl
    have hle := ht.least 10 (by decide) (by decide)
    omega
  · rfl

/-! ### Requests that end -/

/-- What is asked of a request, whatever its size: the loop of `mforsize` ends, its result is an index of the 32
lists, `buddy_alloc` returns, and a request for more than the heap finds it exhausted. -/
structure Answers (build : Build) (h : Heap) (nbytes : ℕ) : Prop where
  loop : ∃ rounds m, mforsizeLoop nbytes rounds 1 0 = .ok m
  index : ∃ m, mforsize h.ma nbytes = .ok m ∧ m < 32
  returns : buddyAlloc build h nbytes ≠ .error .diverges
  large : 2 ^ h.ma.upper < nbytes → buddyAlloc build h nbytes = exhausted build h

theorem exhausted_ne_diverges (build : Build) (h : Heap) : exhausted build h ≠ .error .diverges := by
  cases build with
  | userland => exact fun h => by cases h
  | kernel => exact fun h => by cases h

/-- **Requests end** exactly if they are for fewer than `2 ^ 31` bytes: from there on `pow2` wraps around to `0` before
it exceeds the request. -/
theorem answers_iff (hr : Reachable R build s) (nbytes : ℕ) : Answers build s.heap nbytes ↔ nbytes < 2 ^ 31 := by
  constructor
  · intro h
    by_contra hge
    obtain ⟨rounds, m, hok⟩ := h.loop
    have hdiv := mforsizeLoop_large (Nat.le_of_not_lt hge) 0 0 (by decide) rounds
    rw [pow_zero, hok] at hdiv
    cases hdiv
  · intro hn
    obtain ⟨free, hG⟩ := good_of_reachable hr
    obtain ⟨m, hm, h8, hlt, hcase⟩ := hG.alloc_cases build hn
    obtain ⟨j, hj, -⟩ := mforsizeLoop_spec hn 33 0 (by decide) (by decide)
    refine ⟨⟨33, j, hj⟩, ⟨m, hm, ?_⟩, ?_, ?_⟩
    · obtain ⟨m', hm', -, hle, -⟩ := mforsize_spec hG.rep.lower_eq hn
      rw [hm] at hm'
      cases hm'
      omega
    · rcases hcase with ⟨c, b, h', -, hok, -⟩ | ⟨-, hex⟩
      · rw [hok]
        exact fun habs => by cases habs
      · rw [hex]
        exact exhausted_ne_diverges build s.heap
    · intro hlarge
      rw [hG.rep.upper_eq] at hlarge
      rcases hcase with ⟨c, b, h', ⟨hmc, hcu, -⟩, -⟩ | ⟨-, hex⟩
      · -- a block of the heap is no larger than the heap
        have hpow : 2 ^ m ≤ 2 ^ R.upper := Nat.pow_le_pow_right (by decide) (hmc.trans hcu)
        omega
      · exact hex

/-- The heap of the kernel: 4 MB at 2 MB. -/
def fourMegabytes : Region where
  upper := 22
  base := 2 ^ 21
  lower_le := by decide
  upper_le := by decide
  base_pos := by decide
  base_end := by decide

theorem answers_kilobyte :
    Answers .kernel (fourMegabytes.start (fun _ => ⟨0, false⟩) fun _ => 0).heap 1024 :=
  (answers_iff ⟨_, _, Relation.ReflTransGen.refl⟩ 1024).mpr (by decide)

/-- **A request that never returns**: `2 ^ 31` bytes from the kernel's heap. -/
theorem two_gigabytes_never_return :
    ¬ Answers .kernel (fourMegabytes.start (fun _ => ⟨0, false⟩) fun _ => 0).heap (2 ^ 31) := by
  intro h
  obtain ⟨rounds, m, hok⟩ := h.loop
  have hdiv := mforsizeLoop_large (le_refl (2 ^ 31)) 0 0 (by decide) rounds
  rw [pow_zero, hok] at hdiv
  cases hdiv

/-! ### The free lists after a request -/

/-- The lists after a block of order `m` has been cut out of the block `b`, the first of order `c`: the other half
of each split is listed, and nothing else has changed. -/
def carved (free : ℕ → List ℕ) (m c b k : ℕ) : List ℕ :=
  if k = c then (free c).tail else if m ≤ k ∧ k < c then [b + 2 ^ k] else free k

theorem splitTo_apply (free : ℕ → List ℕ) (hmc : m ≤ c) (hb : free c = b :: rest) (k : ℕ) :
    splitTo m c free k =
      if c = m then free k
      else if k = c then rest
      else if k = m then b :: (b + 2 ^ m) :: free m
      else if m < k ∧ k < c then (b + 2 ^ k) :: free k
      else free k := by
  induction c generalizing free rest with
  | zero =>
    obtain rfl : m = 0 := by omega
    rw [if_pos rfl]
    rfl
  | succ c ih =>
    rw [splitTo]
    by_cases hm : m < c + 1
    · -- one split, then the rest from one order below
      have hsplit : Buddy.splitFree free c =
          Function.update (Function.update free (c + 1) rest) c (b :: (b + 2 ^ c) :: free c) := by
        rw [splitFree, hb]
      have hhead : Buddy.splitFree free c c = b :: (b + 2 ^ c) :: free c := splitFree_head hb
      have hother : ∀ j, j ≠ c → j ≠ c + 1 → Buddy.splitFree free c j = free j := by
        intro j hj hj'
        rw [hsplit, Function.update_of_ne hj, Function.update_of_ne hj']
      have hrest : Buddy.splitFree free c (c + 1) = rest := by
        rw [hsplit, Function.update_of_ne (by omega), Function.update_self]
      rw [if_pos hm, if_neg (show c + 1 ≠ m by omega), ih _ (by omega) hhead]
      by_cases hcm : c = m
      · rw [if_pos hcm]
        by_cases hk : k = c + 1
        · rw [if_pos hk, hk, hrest]
        · rw [if_neg hk]
          by_cases hkm : k = m
          · rw [if_pos hkm, hkm, ← hcm, hhead]
          · rw [if_neg hkm, if_neg (by omega), hother k (by omega) hk]
      · rw [if_neg hcm]
        by_cases hk : k = c + 1
        · rw [if_pos hk, if_neg (by omega), if_neg (by omega), if_neg (by omega), hk, hrest]
        · rw [if_neg hk]
          by_cases hkc : k = c
          · rw [if_pos hkc, if_neg (by omega), if_pos (by omega), hkc]
          · rw [if_neg hkc]
            by_cases hkm : k = m
            · rw [if_pos hkm, if_pos hkm, hother m (by omega) (by omega)]
            · rw [if_neg hkm, if_neg hkm, hother k hkc hk]
              by_cases hin : m < k ∧ k < c
              · rw [if_pos hin, if_pos (by omega)]
              · rw [if_neg hin, if_neg (by omega)]
    · rw [if_neg hm, if_pos (show c + 1 = m by omega)]

theorem allocFree_eq_carved (hs : Source R.upper free m c b) : allocFree free m c = carved free m c b := by
  obtain ⟨hmc, -, ⟨rest, hb⟩, hnone⟩ := hs
  have happly := splitTo_apply free hmc hb
  funext k
  unfold allocFree carved
  by_cases hcm : c = m
  · subst hcm
    have hsame : ∀ j, splitTo c c free j = free j := by
      intro j
      rw [happly, if_pos rfl]
    by_cases hk : k = c
    · rw [hk, Function.update_self, hsame, if_pos rfl]
    · rw [Function.update_of_ne hk, hsame, if_neg hk, if_neg (by omega)]
  · by_cases hkm : k = m
    · rw [hkm, Function.update_self, happly, if_neg hcm, if_neg (by omega), if_pos rfl, if_neg (by omega),
        if_pos (by omega), hnone m (le_refl m) (by omega)]
      rfl
    · rw [Function.update_of_ne hkm, happly, if_neg hcm]
      by_cases hk : k = c
      · rw [if_pos hk, if_pos hk, hb]
        rfl
      · rw [if_neg hk, if_neg hk, if_neg hkm]
        by_cases hin : m < k ∧ k < c
        · rw [if_pos hin, if_pos (by omega), hnone k (by omega) hin.2]
        · rw [if_neg hin, if_neg (by omega)]

/-! ### When a request is satisfied -/

/-- An aligned window of `2 ^ m` bytes of the heap that no live block meets. -/
def Room (u : ℕ) (live : List Block) (m : ℕ) : Prop :=
  ∃ b, Block.Aligned (b, m) ∧ b + 2 ^ m ≤ 2 ^ u ∧ ∀ p ∈ live, ∀ a, Block.Has (b, m) a → ¬ p.Has a

/-- A listed block of order at least `m` holds such a window. -/
theorem Good.room (hG : Good R s free) (hs : Source R.upper free m c b) : Room R.upper s.live m := by
  obtain ⟨hmc, -, ⟨rest, hb⟩, -⟩ := hs
  have hT := hG.wf.tiling
  have hbc : (b, c) ∈ (freeSet free ∪ ∅) ∪ liveSet s.live := by
    refine Or.inl (Or.inl ?_)
    rw [mem_freeSet, hb]
    exact List.mem_cons_self
  have hpow : 2 ^ m ≤ 2 ^ c := Nat.pow_le_pow_right (by decide) hmc
  have hend : b + 2 ^ c ≤ 2 ^ R.upper := hT.bounded _ hbc
  refine ⟨b, (pow_dvd_pow 2 hmc).trans (hT.aligned _ hbc), by omega, ?_⟩
  intro p hp a ha hpa
  have hin : Block.Has (b, c) a := ⟨ha.1, lt_of_lt_of_le ha.2 (by show b + 2 ^ m ≤ b + 2 ^ c; omega)⟩
  have he := hT.disjoint p (Or.inr hp) _ hbc a hpa hin
  refine hG.wf.used_idle p hp (Or.inl ?_)
  rw [he, mem_freeSet, hb]
  exact List.mem_cons_self

/-- Conversely such a window lies inside a listed block. -/
theorem Good.no_room (hG : Good R s free) (h8 : 8 ≤ m) (hnone : ∀ k, m ≤ k → free k = []) :
    ¬ Room R.upper s.live m := by
  rintro ⟨b, hal, hend, hfree⟩
  have hmu : m ≤ R.upper := by
    by_contra hlt
    have hpow : 2 ^ R.upper < 2 ^ m := Nat.pow_lt_pow_right (by decide) (by omega)
    omega
  have hT := hG.wf.tiling
  rw [Set.union_empty] at hT
  obtain ⟨p, hp, hmp, -⟩ := hT.window hG.canonical h8 hmu hal hend hfree
  replace hp : p.1 ∈ free p.2 := hp
  rw [hnone p.2 hmp] at hp
  cases hp

/-- **Requests are satisfied if there is room.**  In every reachable state a request for fewer than `2 ^ 31` bytes
finds the heap exhausted exactly if no aligned window of its block size is free of live blocks, and then nothing
changes; otherwise it gets the beginning of the first block of the least sufficient order, and the other free
blocks stay as they were. -/
theorem requests_of_reachable (hr : Reachable R build s) (hn : nbytes < 2 ^ 31) :
    ∃ m free, mforsize s.heap.ma nbytes = .ok m ∧ Lists s.heap free ∧
      (buddyAlloc build s.heap nbytes = exhausted build s.heap ↔ ¬ Room R.upper s.live m) ∧
      (Room R.upper s.live m → ∃ c b h', Source R.upper free m c b ∧
        buddyAlloc build s.heap nbytes = .ok (R.base + b, h') ∧ Lists h' (carved free m c b)) := by
  obtain ⟨free, hG⟩ := good_of_reachable hr
  obtain ⟨m, hm, h8, -, hcase⟩ := hG.alloc_cases build hn
  refine ⟨m, free, hm, hG.rep.lists, ?_⟩
  rcases hcase with ⟨c, b, h', hs, hok, hG', -⟩ | ⟨hnone, hex⟩
  · have hroom := hG.room hs
    refine ⟨⟨?_, fun hno => absurd hroom hno⟩, fun _ => ⟨c, b, h', hs, hok, ?_⟩⟩
    · intro hex
      rw [hok] at hex
      have hpos := R.base_pos
      cases build with
      | userland =>
        have hzero : R.base + b = 0 := congrArg Prod.fst (Except.ok.inj hex)
        omega
      | kernel => cases hex
    · rw [← allocFree_eq_carved hs]
      exact hG'.rep.lists
  · have hno := hG.no_room h8 hnone
    exact ⟨⟨fun _ => hno, fun _ => hex⟩, fun hroom => absurd hroom hno⟩

/-- Behind two live blocks of a kilobyte and the block of a release there is no room for 300 bytes. -/
theorem no_room_session : ¬ Room 10 [(512, 9), (256, 8)] 9 := by
  rintro ⟨b, hal, hend, hfree⟩
  obtain ⟨c, rfl⟩ : 512 ∣ b := hal
  obtain rfl | rfl : c = 0 ∨ c = 1 := by omega
  · exact hfree (256, 8) (by simp) 256 (by decide) (by decide)
  · exact hfree (512, 9) (by simp) 512 (by decide) (by decide)

/-- For 50 bytes there is. -/
theorem room_session : Room 10 [(512, 9), (256, 8)] 8 := by
  refine ⟨0, ⟨0, rfl⟩, by decide, fun p hp a ha hmeet => ?_⟩
  have hlt : a < 256 := ha.2
  rcases List.mem_pair.mp hp with rfl | rfl
  · exact absurd (show 512 ≤ a from hmeet.1) (by omega)
  · exact absurd (show 256 ≤ a from hmeet.1) (by omega)

/-- Where two blocks are live and a third was given back, 300 bytes find no room, and 50 bytes are carved from what is
free. -/
theorem requests_of_session : ∃ s, Reachable kilobyte .userland s ∧ s.live = [(512, 9), (256, 8)] ∧
    buddyAlloc .userland s.heap 300 = exhausted .userland s.heap ∧
    ∃ free c b h', Source 10 free 8 c b ∧ buddyAlloc .userland s.heap 50 = .ok (4096 + b, h') ∧
      Lists h' (carved free 8 c b) := by
  obtain ⟨s, hr, hlive, -, hsmall, hlarge⟩ := kilobyteSession_run
  obtain ⟨m, _, hm, -, hex, -⟩ := requests_of_reachable hr (show 300 < 2 ^ 31 by decide)
  obtain ⟨m', free, hm', -, -, hcarved⟩ := requests_of_reachable hr (show 50 < 2 ^ 31 by decide)
  cases hlarge.symm.trans hm
  cases hsmall.symm.trans hm'
  refine ⟨s, hr, hlive, hex.mpr ?_, free, hcarved ?_⟩
  · rw [hlive]
    exact no_room_session
  · rw [hlive]
    exact room_session

/-! ### Releasing at once -/

/-- The buddy of a listed block is not listed. -/
theorem buddy_not_free (hG : Good R s free) (hb : (b, c) ∈ freeSet free) (hcu : c < R.upper) :
    buddyOf b c ∉ free c := by
  intro hbud
  have hal := hG.wf.tiling.aligned _ (Or.inl (Or.inl hb))
  rcases buddyOf_cases hal with ⟨hal', hup⟩ | ⟨d, hal', rfl, hlow⟩
  · rw [hup] at hbud
    exact hG.canonical b c hcu hal' hb hbud
  · rw [hlow] at hbud
    exact hG.canonical d c hcu hal' hbud hb

/-- **Merging undoes carving**: the halves are joined up to the order they came from, and no further. -/
theorem mergeFree_carved {u : ℕ} (hb : free c = b :: rest) (hcu : c ≤ u) (hal : Block.Aligned (b, c))
    (hstop : c < u → buddyOf b c ∉ rest) (fuel : ℕ) (hmc : m ≤ c) (hfuel : u - m < fuel)
    (hnone : ∀ k, m ≤ k → k < c → free k = []) : mergeFree u fuel (carved free m c b) m b = free := by
  induction fuel generalizing m with
  | zero => omega
  | succ fuel ih =>
    rw [mergeFree]
    by_cases hcm : m = c
    · -- the block has its old size: its buddy is not listed
      subst hcm
      have hself : carved free m m b m = rest := by
        rw [carved, if_pos rfl, hb]
        rfl
      rw [if_neg, hself]
      · funext k
        by_cases hk : k = m
        · rw [hk, Function.update_self, hb]
        · rw [Function.update_of_ne hk, carved, if_neg hk, if_neg (by omega)]
      · rw [hself]
        exact fun hg => hstop hg.1 hg.2
    · -- the other half of the last split is the only block of its order
      have hal' : Block.Aligned (b, m + 1) := (pow_dvd_pow 2 (show m + 1 ≤ c by omega)).trans hal
      have hself : carved free m c b m = [b + 2 ^ m] := by
        rw [carved, if_neg hcm, if_pos (by omega)]
      have hnext : Function.update (carved free m c b) m [] = carved free (m + 1) c b := by
        funext k
        by_cases hk : k = m
        · rw [hk, Function.update_self, carved, if_neg hcm, if_neg (by omega), hnone m (le_refl m) (by omega)]
        · rw [Function.update_of_ne hk, carved, carved]
          by_cases hkc : k = c
          · rw [if_pos hkc, if_pos hkc]
          · rw [if_neg hkc, if_neg hkc]
            by_cases hin : m ≤ k ∧ k < c
            · rw [if_pos hin, if_pos (by omega)]
            · rw [if_neg hin, if_neg (by omega)]
      rw [buddyOf_lower hal', hself, if_pos ⟨by omega, List.mem_cons_self⟩, List.erase_cons_head, hnext,
        min_eq_left (Nat.le_add_right b _)]
      exact ih (by omega) (by omega) fun k hk hkc => hnone k (by omega) hkc

/-- Two heaps with the same lists and the same live blocks have the same heads and granules. -/
theorem Good.same {h : Heap} (hG : Good R s free) (hG' : Good R ⟨h, s.live⟩ free) :
    h.ma.freelist = s.heap.ma.freelist ∧
      ∀ g, g < 2 ^ (R.upper - 8) → h.ma.blocks g = s.heap.ma.blocks g := by
  constructor
  · funext k
    have hL := hG.rep.lists k
    have hL' := hG'.rep.lists k
    cases hk : free k with
    | nil =>
      rw [hk] at hL hL'
      exact hL'.trans hL.symm
    | cons x xs =>
      rw [hk] at hL hL'
      exact hL'.1.trans hL.1.symm
  · intro g hg
    by_cases hin : ∃ p ∈ (freeSet free ∪ ∅) ∪ liveSet s.live, p.1 / 256 = g
    · obtain ⟨p, hp, rfl⟩ := hin
      rcases hp with hp | hp
      · rw [hG'.rep.grains.idle_info p hp, hG.rep.grains.idle_info p hp]
      · rw [hG'.rep.grains.used_info p hp, hG.rep.grains.used_info p hp]
    · have hout : ∀ p ∈ (freeSet free ∪ ∅) ∪ liveSet s.live, p.1 / 256 ≠ g := fun p hp he => hin ⟨p, hp, he⟩
      rw [hG'.rep.grains.other_info g hg hout, hG.rep.grains.other_info g hg hout]

/-- **Release undoes request.**  In every reachable state, a block that is released right after it was handed out
leaves the granule array and all free lists exactly as they were. -/
theorem free_undoes_alloc {ptr : ℕ} {h₁ : Heap} (hr : Reachable R build s)
    (hok : buddyAlloc build s.heap nbytes = .ok (ptr, h₁)) (hptr : ptr ≠ 0) :
    ∃ h₂ free, buddyFree h₁ ptr = .ok h₂ ∧ h₂.ma.freelist = s.heap.ma.freelist ∧
      (∀ g, g < 2 ^ (R.upper - 8) → h₂.ma.blocks g = s.heap.ma.blocks g) ∧
      Lists s.heap free ∧ Lists h₂ free := by
  obtain ⟨free, hG⟩ := good_of_reachable hr
  have hn : nbytes < 2 ^ 31 := by
    by_contra hge
    rw [buddyAlloc_large (Nat.le_of_not_lt hge)] at hok
    cases hok
  obtain ⟨m, -, -, -, hcase⟩ := hG.alloc_cases build hn
  rcases hcase with ⟨c, b, h', hs, hok', hG', -⟩ | ⟨-, hex⟩
  · rw [hok] at hok'
    cases hok'
    obtain ⟨hmc, hcu, ⟨rest, hb⟩, hnone⟩ := hs
    have hbc : (b, c) ∈ freeSet free := by
      rw [mem_freeSet, hb]
      exact List.mem_cons_self
    have hstop : c < R.upper → buddyOf b c ∉ rest := by
      intro hlt hin
      apply buddy_not_free hG hbc hlt
      rw [hb]
      exact List.mem_cons_of_mem _ hin
    obtain ⟨h₂, hfree, hG₂, -⟩ := hG'.free_ok (p := (b, m)) List.mem_cons_self
    rw [allocFree_eq_carved ⟨hmc, hcu, ⟨rest, hb⟩, hnone⟩, List.erase_cons_head,
      mergeFree_carved hb hcu (hG.wf.tiling.aligned _ (Or.inl (Or.inl hbc))) hstop _ hmc (by omega) hnone] at hG₂
    obtain ⟨hlists, hgrains⟩ := hG.same hG₂
    exact ⟨h₂, free, hfree, hlists, hgrains, hG.rep.lists, hG₂.rep.lists⟩
  · rw [hex] at hok
    cases build with
    | userland => exact absurd (congrArg Prod.fst (Except.ok.inj hok)).symm hptr
    | kernel => cases hok

theorem free_undoes_kilobyte :
    ∃ ptr h₁ h₂, buddyAlloc .kernel (fourMegabytes.start (fun _ => ⟨0, false⟩) fun _ => 0).heap 1024 = .ok (ptr, h₁) ∧
      ptr ≠ 0 ∧ buddyFree h₁ ptr = .ok h₂ ∧
      h₂.ma.freelist = (fourMegabytes.start (fun _ => ⟨0, false⟩) fun _ => 0).heap.ma.freelist := by
  have hfst : (buddyAlloc .kernel (fourMegabytes.start (fun _ => ⟨0, false⟩) fun _ => 0).heap 1024).map Prod.fst =
      .ok (2 ^ 21) := rfl
  cases hok : buddyAlloc .kernel (fourMegabytes.start (fun _ => ⟨0, false⟩) fun _ => 0).heap 1024 with
  | error e =>
    rw [hok] at hfst
    cases hfst
  | ok x =>
    rw [hok] at hfst
    obtain ⟨ptr, h₁⟩ := x
    have hptr : ptr ≠ 0 := by
      rw [show ptr = 2 ^ 21 from Except.ok.inj hfst]
      decide
    obtain ⟨h₂, -, hfree, hlists, -⟩ := free_undoes_alloc (R := fourMegabytes) ⟨_, _, Relation.ReflTransGen.refl⟩ hok hptr
    exact ⟨ptr, h₁, h₂, rfl, hptr, hfree, hlists⟩

end AdelaideOS.Buddy
