import AdelaideOS.Buddy.Refinement
import Mathlib.Logic.Relation

/-!
# Runs of the buddy allocator

A client starts from `buddyInit` and calls `buddyAlloc` and `buddyFree` in any order, frees only blocks it
holds, and otherwise writes only into blocks it holds (memory outside the heap may change at any time).
`Client` pairs the heap with the list of live blocks, `Step` is one move, `Reachable` any number of them.

The invariant `Good` carries the abstract state of `AdelaideOS.Buddy.Spec`; from it

* **`bookkeeping_of_reachable`** — granules, lists and links agree with the live blocks, and no assertion
  of the allocator can fail;
* **`client_guarantee`** — blocks handed out are large enough, aligned, disjoint and left alone;
* **`canonical_of_reachable`** — the bookkeeping is a function of the set of live blocks.
-/

namespace AdelaideOS.Buddy

open AdelaideOS.Lib.Bytes AdelaideOS.Lib.Links AdelaideOS.Lib.Dyadic

/-- The memory an allocator is set up for: `2 ^ upper` bytes at a non-null address, wholly inside the
address space. -/
structure Region where
  upper : ℕ
  base : ℕ
  lower_le : 8 ≤ upper
  upper_le : upper ≤ 30
  base_pos : 0 < base
  base_end : base + 2 ^ upper < wordSize

/-- The allocator together with the blocks its client holds. -/
structure Client where
  heap : Heap
  live : List Block

/-- One move of the client. -/
inductive Step (build : Build) (s : Client) : Client → Prop where
  /-- A satisfied request; the client remembers the block as its offset and order. -/
  | alloc (nbytes m ptr : ℕ) (h' : Heap) :
      nbytes < 2 ^ 31 → mforsize s.heap.ma nbytes = .ok m →
      buddyAlloc build s.heap nbytes = .ok (ptr, h') → ptr ≠ 0 →
      Step build s ⟨h', (ptr - s.heap.ma.mem, m) :: s.live⟩
  /-- A request answered by `NULL`. -/
  | allocNull (nbytes : ℕ) (h' : Heap) :
      nbytes < 2 ^ 31 → buddyAlloc build s.heap nbytes = .ok (0, h') →
      Step build s ⟨h', s.live⟩
  /-- A live block is given back. -/
  | free (p : Block) (h' : Heap) :
      p ∈ s.live → buddyFree s.heap (s.heap.ma.mem + p.1) = .ok h' →
      Step build s ⟨h', s.live.erase p⟩
  /-- The client writes into its blocks; memory outside the heap is not the allocator's. -/
  | write (bytes : Memory) :
      (∀ a, a < 2 ^ s.heap.ma.upper → (∀ p ∈ s.live, ¬ p.Has a) →
        bytes (s.heap.ma.mem + a) = s.heap.bytes (s.heap.ma.mem + a)) →
      Step build s ⟨{ s.heap with bytes := bytes }, s.live⟩

/-- The client right after `buddy_init`. -/
def Region.start (R : Region) (blocks : ℕ → Blockinfo) (bytes : Memory) : Client :=
  ⟨buddyInit R.upper R.base blocks bytes, []⟩

/-- The states that runs from `buddy_init` reach. -/
def Reachable (R : Region) (build : Build) (s : Client) : Prop :=
  ∃ blocks bytes, Relation.ReflTransGen (Step build) (R.start blocks bytes) s

/-- The blocks of a list, as a set. -/
def liveSet (live : List Block) : Set Block := {p | p ∈ live}

/-- The invariant of runs: a well-formed, canonical abstract state is represented. -/
structure Good (R : Region) (s : Client) (free : ℕ → List ℕ) : Prop where
  live_nodup : s.live.Nodup
  wf : Wf R.upper free ∅ (liveSet s.live)
  canonical : Canonical R.upper (freeSet free)
  rep : Rep R.upper R.base s.heap free ∅ (liveSet s.live)

theorem liveSet_erase {live : List Block} (hnd : live.Nodup) (p : Block) :
    liveSet (live.erase p) = liveSet live \ {p} := by
  ext q
  show q ∈ live.erase p ↔ q ∈ live ∧ q ≠ p
  rw [hnd.mem_erase_iff, and_comm]

theorem liveSet_cons (live : List Block) (p : Block) :
    liveSet (p :: live) = liveSet live ∪ {p} := by
  ext q
  show q ∈ p :: live ↔ q ∈ live ∨ q = p
  rw [List.mem_cons, or_comm]

variable {R : Region} {build : Build} {s : Client} {free : ℕ → List ℕ}

/-- The start state is good. -/
theorem good_start (R : Region) (blocks : ℕ → Blockinfo) (bytes : Memory) :
    Good R (R.start blocks bytes) (initFree R.upper) := by
  have he : liveSet [] = (∅ : Set Block) := by
    ext q
    simp [liveSet]
  refine ⟨List.nodup_nil, ?_, initFree_canonical R.upper, ?_⟩
  · show Wf R.upper _ ∅ (liveSet [])
    rw [he]
    exact initFree_wf R.lower_le
  · show Rep R.upper R.base _ _ ∅ (liveSet [])
    rw [he]
    exact buddyInit_rep R.lower_le R.upper_le R.base blocks bytes

/-- **Requests.**  From a good state a request is satisfied from the least sufficient block, or there is
none and nothing changes. -/
theorem Good.alloc_cases (hG : Good R s free) (build : Build) {nbytes : ℕ} (hn : nbytes < 2 ^ 31) :
    ∃ m, mforsize s.heap.ma nbytes = .ok m ∧ 8 ≤ m ∧ nbytes < 2 ^ m ∧
      ((∃ c b h', Source R.upper free m c b ∧
          buddyAlloc build s.heap nbytes = .ok (R.base + b, h') ∧
          Good R ⟨h', (b, m) :: s.live⟩ (allocFree free m c) ∧
          (b, m) ∉ s.live ∧ Keeps R.upper R.base (liveSet s.live) s.heap h') ∨
        ((∀ k, m ≤ k → free k = []) ∧
          buddyAlloc build s.heap nbytes = exhausted build s.heap)) := by
  obtain ⟨m, hm, h8, -, hlt⟩ := mforsize_spec hG.rep.lower_eq hn
  refine ⟨m, hm, h8, hlt, ?_⟩
  rcases source_or_exhausted hG.wf m with ⟨c, b, hs⟩ | hnone
  · left
    obtain ⟨h', hok, hR', hK⟩ := buddyAlloc_spec build R.upper_le R.base_end hG.wf hG.canonical
      hG.rep hm h8 hs
    obtain ⟨hW', hC'⟩ := allocFree_spec h8 hG.wf hG.canonical hs
    -- a live block at the same place would contain the source block
    have hnew : (b, m) ∉ s.live := by
      intro hin
      obtain ⟨-, -, ⟨rest, hb⟩, -⟩ := hs
      have hbc : (b, c) ∈ freeSet free := by
        rw [mem_freeSet, hb]
        exact List.mem_cons_self
      have he := hG.wf.tiling.disjoint _ (Or.inr hin) _ (Or.inl (Or.inl hbc)) b
        (Block.has_self (b, m)) (Block.has_self (b, c))
      refine hG.wf.used_idle _ hin (Or.inl ?_)
      rw [he]
      exact hbc
    refine ⟨c, b, h', hs, hok, ⟨List.nodup_cons.mpr ⟨hnew, hG.live_nodup⟩, ?_, hC', ?_⟩, hnew, hK⟩
    · rw [liveSet_cons]
      exact hW'
    · rw [liveSet_cons]
      exact hR'
  · exact Or.inr ⟨hnone, buddyAlloc_exhausted build hG.rep hm hnone⟩

/-- **Releases.**  From a good state every live block can be given back. -/
theorem Good.free_ok (hG : Good R s free) {p : Block} (hp : p ∈ s.live) :
    ∃ h', buddyFree s.heap (R.base + p.1) = .ok h' ∧
      Good R ⟨h', s.live.erase p⟩ (mergeFree R.upper (R.upper + 1) free p.2 p.1) ∧
      Keeps R.upper R.base (liveSet (s.live.erase p)) s.heap h' := by
  obtain ⟨h', hok, hR', hK⟩ := buddyFree_spec R.upper_le R.base_pos R.base_end hG.wf hG.rep
    (b := p.1) (m := p.2) hp
  have hW₁ := hG.wf.unmark (p := p) hp
  obtain ⟨hW', hC'⟩ := mergeFree_spec (R.upper + 1) free p.2 p.1 (by omega) hW₁ hG.canonical
  have hset := liveSet_erase hG.live_nodup p
  refine ⟨h', hok, ⟨hG.live_nodup.erase p, ?_, hC', ?_⟩, ?_⟩
  · rw [hset]
    exact hW'
  · rw [hset]
    exact hR'
  · rw [hset]
    exact hK

/-- Writes into live blocks do not touch the links of the free blocks. -/
theorem Good.write (hG : Good R s free) {bytes : Memory}
    (hw : ∀ a, a < 2 ^ s.heap.ma.upper → (∀ p ∈ s.live, ¬ p.Has a) →
      bytes (s.heap.ma.mem + a) = s.heap.bytes (s.heap.ma.mem + a)) :
    Good R ⟨{ s.heap with bytes := bytes }, s.live⟩ free := by
  refine ⟨hG.live_nodup, hG.wf, hG.canonical, ⟨hG.rep.lower_eq, hG.rep.upper_eq, hG.rep.mem_eq, ?_,
    hG.rep.grains⟩⟩
  intro m
  refine (hG.rep.lists m).congr ?_
  intro x hx
  have hxT : (x, m) ∈ (freeSet free ∪ ∅) ∪ liveSet s.live := Or.inl (Or.inl hx)
  have hbd := hG.wf.tiling.bounded _ hxT
  have h8 : 2 ^ 8 ≤ 2 ^ m := Nat.pow_le_pow_right (by decide) (hG.wf.tiling.lower_le _ hxT)
  simp only at hbd
  -- the link word lies in a listed block, which no live block meets
  apply readWord_congr
  intro a ha1 ha2
  show bytes a = s.heap.bytes a
  have hlow : s.heap.ma.mem + x ≤ a := ha1
  have hhigh : a < s.heap.ma.mem + x + 4 := ha2
  have hae : a = s.heap.ma.mem + (a - s.heap.ma.mem) := by omega
  rw [hae]
  refine hw _ (by rw [hG.rep.upper_eq]; omega) ?_
  intro p hp hpa
  have hin : Block.Has (x, m) (a - s.heap.ma.mem) :=
    ⟨by show x ≤ _; omega, by show _ < x + 2 ^ m; omega⟩
  have he := hG.wf.tiling.disjoint _ (Or.inr hp) _ hxT _ hpa hin
  exact hG.wf.used_idle p hp (Or.inl (he ▸ hx))

/-- **Step.**  Every move of the client leads to a good state. -/
theorem Good.step (hG : Good R s free) {s' : Client} (hst : Step build s s') :
    ∃ free', Good R s' free' := by
  have hmem := hG.rep.mem_eq
  cases hst with
  | alloc nbytes m ptr h' hn hm hok hne =>
    obtain ⟨m', hm', -, -, hcase⟩ := hG.alloc_cases build hn
    obtain rfl : m = m' := Except.ok.inj (hm.symm.trans hm')
    rcases hcase with ⟨c, b, h'', -, hok', hG', -, -⟩ | ⟨-, hex⟩
    · have he := Except.ok.inj (hok.symm.trans hok')
      obtain ⟨rfl, rfl⟩ := Prod.mk.inj he
      rw [hmem, Nat.add_sub_cancel_left]
      exact ⟨_, hG'⟩
    · rw [hex] at hok
      cases build with
      | userland => exact absurd (congrArg Prod.fst (Except.ok.inj hok)).symm hne
      | kernel => cases hok
  | allocNull nbytes h' hn hok =>
    obtain ⟨m', -, -, -, hcase⟩ := hG.alloc_cases build hn
    rcases hcase with ⟨c, b, h'', -, hok', -, -, -⟩ | ⟨-, hex⟩
    · have he := congrArg Prod.fst (Except.ok.inj (hok.symm.trans hok'))
      have hpos := R.base_pos
      simp only at he
      omega
    · rw [hex] at hok
      cases build with
      | userland =>
        obtain rfl : s.heap = h' := congrArg Prod.snd (Except.ok.inj hok)
        exact ⟨free, hG⟩
      | kernel => cases hok
  | free p h' hp hok =>
    obtain ⟨h'', hok', hG', -⟩ := hG.free_ok hp
    rw [hmem] at hok
    have he := Except.ok.inj (hok.symm.trans hok')
    exact ⟨_, he ▸ hG'⟩
  | write bytes hw => exact ⟨free, hG.write hw⟩

/-- **Run.**  Every reachable state is good. -/
theorem good_of_reachable (hr : Reachable R build s) : ∃ free, Good R s free := by
  obtain ⟨blocks, bytes, hrun⟩ := hr
  induction hrun with
  | refl => exact ⟨_, good_start R blocks bytes⟩
  | tail _ hst ih =>
    obtain ⟨free, hG⟩ := ih
    exact hG.step hst

/-! ### The bookkeeping -/

/-- The granule array, the list heads and the links describe the live blocks and the listed free blocks,
which together tile the heap of size `2 ^ u`. -/
structure Bookkeeping (u : ℕ) (h : Heap) (live : List Block) (free : ℕ → List ℕ) : Prop where
  /-- Live and free blocks tile `[0, 2 ^ u)`; each starts at a multiple of its size. -/
  tiling : Tiling 8 u (freeSet free ∪ liveSet live)
  live_nodup : live.Nodup
  live_not_free : ∀ p ∈ live, p ∉ freeSet free
  /-- The first granule of a block records its order, and whether it is live. -/
  info : ∀ p ∈ freeSet free ∪ liveSet live, h.ma.blocks (p.1 / 256) = ⟨p.2, decide (p ∈ live)⟩
  /-- Every other granule is blank. -/
  blank : ∀ g, g < 2 ^ (u - 8) → (∀ p ∈ freeSet free ∪ liveSet live, p.1 / 256 ≠ g) →
    h.ma.blocks g = ⟨0, false⟩
  /-- The chain from `freelist[m]` lists the free blocks of order `m` and ends in `EMPTY`. -/
  chain : ∀ m, Chain (link h) EMPTY (h.ma.freelist m) (free m)
  chain_nodup : ∀ m, (free m).Nodup

theorem Good.bookkeeping (hG : Good R s free) : Bookkeeping R.upper s.heap s.live free := by
  have hset : freeSet free ∪ liveSet s.live = (freeSet free ∪ ∅) ∪ liveSet s.live := by
    rw [Set.union_empty]
  have hnot : ∀ p ∈ s.live, p ∉ freeSet free := fun p hp hin => hG.wf.used_idle p hp (Or.inl hin)
  refine ⟨hset ▸ hG.wf.tiling, hG.live_nodup, hnot, ?_, ?_, hG.rep.lists, hG.wf.nodup⟩
  · intro p hp
    rcases hp with hp | hp
    · have hl : p ∉ s.live := fun h => hnot p h hp
      rw [hG.rep.grains.idle_info p (Or.inl hp), decide_eq_false hl]
    · rw [hG.rep.grains.used_info p hp, decide_eq_true (show p ∈ s.live from hp)]
  · intro g hg hnone
    refine hG.rep.grains.other_info g hg ?_
    rw [← hset]
    exact hnone

/-- **Representation invariant.**  In every reachable state the granule array, the free lists and the
links stored in the heap describe one tiling by live and free blocks; so every request is answered, by a
block or by exhaustion, and every live block can be freed, without a failing assertion. -/
theorem bookkeeping_of_reachable (R : Region) (build : Build) (s : Client)
    (hr : Reachable R build s) :
    (∃ free, Bookkeeping R.upper s.heap s.live free) ∧
    (∀ nbytes, nbytes < 2 ^ 31 →
      (∃ ptr h', buddyAlloc build s.heap nbytes = .ok (ptr, h')) ∨
        (build = .kernel ∧ buddyAlloc build s.heap nbytes = .error .memoryExhausted)) ∧
    (∀ p ∈ s.live, ∃ h', buddyFree s.heap (s.heap.ma.mem + p.1) = .ok h') := by
  obtain ⟨free, hG⟩ := good_of_reachable hr
  refine ⟨⟨free, hG.bookkeeping⟩, ?_, ?_⟩
  · intro nbytes hn
    obtain ⟨m, -, -, -, hcase⟩ := hG.alloc_cases build hn
    rcases hcase with ⟨c, b, h', -, hok, -, -, -⟩ | ⟨-, hex⟩
    · exact Or.inl ⟨_, _, hok⟩
    · rw [hex]
      cases build with
      | userland => exact Or.inl ⟨_, _, rfl⟩
      | kernel => exact Or.inr ⟨rfl, rfl⟩
  · intro p hp
    obtain ⟨h', hok, -, -⟩ := hG.free_ok hp
    rw [hG.rep.mem_eq]
    exact ⟨h', hok⟩

/-- A kilobyte at address 4096. -/
def kilobyte : Region := ⟨10, 4096, by decide, by decide, by decide, by decide⟩

/-- The fresh kilobyte, over zeroed memory. -/
def kilobyteStart : Client := kilobyte.start (fun _ => ⟨0, false⟩) (fun _ => 0)

theorem Reachable.step {R : Region} {build : Build} {s s' : Client} (h : Reachable R build s) (hs : Step build s s') :
    Reachable R build s' := by
  obtain ⟨blocks, bytes, hrun⟩ := h
  exact ⟨blocks, bytes, hrun.tail hs⟩

/-- A request of the client. -/
def Client.request (build : Build) (s : Client) (nbytes : ℕ) : Except Fault Client := do
  let m ← mforsize s.heap.ma nbytes
  let (ptr, h) ← buddyAlloc build s.heap nbytes
  return ⟨h, if ptr = 0 then s.live else (ptr - s.heap.ma.mem, m) :: s.live⟩

/-- The client gives the block `p` back. -/
def Client.release (s : Client) (p : Block) : Except Fault Client := do
  let h ← buddyFree s.heap (s.heap.ma.mem + p.1)
  return ⟨h, s.live.erase p⟩

theorem Client.request_step {s' : Client} {build : Build} {nbytes : ℕ} (hn : nbytes < 2 ^ 31)
    (hok : s.request build nbytes = .ok s') : Step build s s' := by
  obtain ⟨m, hm, hok⟩ := bind_eq_ok.mp hok
  obtain ⟨⟨ptr, h'⟩, halloc, hpure⟩ := bind_eq_ok.mp hok
  cases hpure
  by_cases hnull : ptr = 0
  · rw [if_pos hnull]
    exact .allocNull nbytes h' hn (hnull ▸ halloc)
  · rw [if_neg hnull]
    exact .alloc nbytes m ptr h' hn hm halloc hnull

theorem Client.release_step {s' : Client} {build : Build} {p : Block} (hp : p ∈ s.live) (hok : s.release p = .ok s') :
    Step build s s' := by
  obtain ⟨h', hfree, hpure⟩ := bind_eq_ok.mp hok
  cases hpure
  exact .free p h' hp hfree

/-- Requests for 100, 200 and 300 bytes. -/
def kilobyteFull : Except Fault Client := do
  let s ← kilobyteStart.request .userland 100
  let s ← s.request .userland 200
  s.request .userland 300

/-- The first of the three blocks is given back. -/
def kilobyteSession : Except Fault Client := do
  let s ← kilobyteFull
  s.release (0, 8)

/-- Two blocks are live.  There is room for 50 bytes at the start, and none for 300. -/
theorem kilobyteSession_run : ∃ s, Reachable kilobyte .userland s ∧ s.live = [(512, 9), (256, 8)] ∧
    (buddyAlloc .userland s.heap 50).map Prod.fst = .ok 4096 ∧ mforsize s.heap.ma 50 = .ok 8 ∧
    mforsize s.heap.ma 300 = .ok 9 := by
  have hfull : kilobyteFull.map Client.live = .ok [(512, 9), (256, 8), (0, 8)] := by decide +kernel
  have hend : kilobyteSession.map (fun s => (s.live, (buddyAlloc .userland s.heap 50).map Prod.fst,
      mforsize s.heap.ma 50, mforsize s.heap.ma 300)) = .ok ([(512, 9), (256, 8)], .ok 4096, .ok 8, .ok 9) := by
    decide +kernel
  obtain ⟨s, hs, hvalues⟩ := map_eq_ok.mp hend
  simp only [Prod.mk.injEq] at hvalues
  obtain ⟨hlive, hvalues⟩ := hvalues
  obtain ⟨s₃, h₃, hrelease⟩ := bind_eq_ok.mp hs
  obtain ⟨s₁, h₁, hrest⟩ := bind_eq_ok.mp h₃
  obtain ⟨s₂, h₂, hlast⟩ := bind_eq_ok.mp hrest
  have hlive₃ : s₃.live = [(512, 9), (256, 8), (0, 8)] := by
    rw [h₃] at hfull
    exact Except.ok.inj hfull
  have hrun : Reachable kilobyte .userland kilobyteStart := ⟨_, _, Relation.ReflTransGen.refl⟩
  have hrun₁ := hrun.step (Client.request_step (by decide) h₁)
  have hrun₂ := hrun₁.step (Client.request_step (by decide) h₂)
  have hrun₃ := hrun₂.step (Client.request_step (by decide) hlast)
  exact ⟨s, hrun₃.step (Client.release_step (by rw [hlive₃]; simp) hrelease), hlive, hvalues⟩

/-- The invariant applied to two live blocks, after a release. -/
theorem bookkeeping_of_kilobyte : ∃ h' : Heap,
    ∃ free, Bookkeeping 10 h' [(512, 9), (256, 8)] free := by
  obtain ⟨⟨h', _⟩, hr, rfl, -⟩ := kilobyteSession_run
  exact ⟨h', (bookkeeping_of_reachable kilobyte .userland _ hr).1⟩

/-! ### What the client may rely on -/

/-- **Client guarantee.**  A block handed out has at least the requested size, lies inside the heap at a
multiple of its size and meets no other live block; and neither requests nor releases of other blocks
change a byte of a live block. -/
theorem client_guarantee (R : Region) (build : Build) (s : Client) (hr : Reachable R build s) :
    (∀ nbytes ptr h', nbytes < 2 ^ 31 → buddyAlloc build s.heap nbytes = .ok (ptr, h') → ptr ≠ 0 →
      ∃ m, mforsize s.heap.ma nbytes = .ok m ∧ nbytes ≤ 2 ^ m ∧
        R.base ≤ ptr ∧ ptr + 2 ^ m ≤ R.base + 2 ^ R.upper ∧ 2 ^ m ∣ ptr - R.base ∧
        ∀ q ∈ s.live, ∀ a, q.Has a → ¬ Block.Has (ptr - R.base, m) a) ∧
    (∀ nbytes ptr h', nbytes < 2 ^ 31 → buddyAlloc build s.heap nbytes = .ok (ptr, h') →
      ∀ q ∈ s.live, ∀ a, q.Has a → h'.bytes (R.base + a) = s.heap.bytes (R.base + a)) ∧
    (∀ p ∈ s.live, ∀ h', buddyFree s.heap (R.base + p.1) = .ok h' →
      ∀ q ∈ s.live, q ≠ p → ∀ a, q.Has a →
        h'.bytes (R.base + a) = s.heap.bytes (R.base + a)) := by
  obtain ⟨free, hG⟩ := good_of_reachable hr
  have hpos := R.base_pos
  refine ⟨?_, ?_, ?_⟩
  · intro nbytes ptr h' hn hok hne
    obtain ⟨m, hm, -, hlt, hcase⟩ := hG.alloc_cases build hn
    rcases hcase with ⟨c, b, h'', -, hok', hG', hnew, -⟩ | ⟨-, hex⟩
    · obtain ⟨rfl, rfl⟩ := Prod.mk.inj (Except.ok.inj (hok.symm.trans hok'))
      have hT : (b, m) ∈ (freeSet (allocFree free m c) ∪ ∅) ∪ liveSet ((b, m) :: s.live) :=
        Or.inr List.mem_cons_self
      have hbd := hG'.wf.tiling.bounded _ hT
      have hal : 2 ^ m ∣ b := hG'.wf.tiling.aligned _ hT
      simp only at hbd
      rw [Nat.add_sub_cancel_left]
      refine ⟨m, hm, by omega, by omega, by omega, hal, ?_⟩
      intro q hq a hqa hba
      have he := hG'.wf.tiling.disjoint q (Or.inr (List.mem_cons_of_mem _ hq)) _ hT a hqa hba
      exact hnew (he ▸ hq)
    · rw [hex] at hok
      cases build with
      | userland => exact absurd (congrArg Prod.fst (Except.ok.inj hok)).symm hne
      | kernel => cases hok
  · intro nbytes ptr h' hn hok q hq a hqa
    obtain ⟨m, -, -, -, hcase⟩ := hG.alloc_cases build hn
    rcases hcase with ⟨c, b, h'', -, hok', -, -, hK⟩ | ⟨-, hex⟩
    · obtain ⟨-, rfl⟩ := Prod.mk.inj (Except.ok.inj (hok.symm.trans hok'))
      refine hK _ (Or.inr (Or.inr ⟨q, hq, by omega, ?_⟩))
      rw [Nat.add_sub_cancel_left]
      exact hqa
    · rw [hex] at hok
      cases build with
      | userland =>
        obtain rfl : s.heap = h' := congrArg Prod.snd (Except.ok.inj hok)
        rfl
      | kernel => cases hok
  · intro p hp h' hok q hq hne a hqa
    obtain ⟨h'', hok', -, hK⟩ := hG.free_ok hp
    obtain rfl : h' = h'' := Except.ok.inj (hok.symm.trans hok')
    refine hK _ (Or.inr (Or.inr ⟨q, ?_, by omega, ?_⟩))
    · rw [liveSet_erase hG.live_nodup]
      exact ⟨hq, hne⟩
    · rw [Nat.add_sub_cancel_left]
      exact hqa

/-- The guarantee applied to two live blocks: 50 bytes more are at the start of the kilobyte, meet neither of them, and
leave their bytes alone. -/
theorem client_guarantee_session : ∃ s h', Reachable kilobyte .userland s ∧ s.live = [(512, 9), (256, 8)] ∧
    buddyAlloc .userland s.heap 50 = .ok (4096, h') ∧
    (∃ m, 50 ≤ 2 ^ m ∧ 4096 + 2 ^ m ≤ 4096 + 2 ^ 10 ∧ ∀ q ∈ s.live, ∀ a, q.Has a → ¬ Block.Has (0, m) a) ∧
    (∀ q ∈ s.live, ∀ a, q.Has a → h'.bytes (4096 + a) = s.heap.bytes (4096 + a)) := by
  obtain ⟨s, hr, hlive, hfst, -⟩ := kilobyteSession_run
  obtain ⟨⟨ptr, h'⟩, hok, rfl⟩ := map_eq_ok.mp hfst
  obtain ⟨hroom, hkept, -⟩ := client_guarantee kilobyte .userland s hr
  obtain ⟨m, -, hsize, -, hin, -, happart⟩ := hroom 50 _ h' (by decide) hok (by decide)
  exact ⟨s, h', hr, hlive, hok, ⟨m, hsize, hin, happart⟩, hkept 50 _ h' (by decide) hok⟩

/-! ### The canonical form -/

/-- Two good states with the same live blocks have the same free blocks. -/
theorem Good.freeSet_eq {R' : Region} {s' : Client} {free' : ℕ → List ℕ} (hG : Good R s free)
    (hG' : Good R' s' free') (hu : R.upper = R'.upper) (hl : liveSet s.live = liveSet s'.live) :
    freeSet free = freeSet free' := by
  have hT := hG.wf.tiling
  have hT' := hG'.wf.tiling
  rw [Set.union_empty] at hT hT'
  rw [← hu, ← hl] at hT'
  refine hT.free_unique hT' ?_ ?_ hG.canonical ?_
  · rw [Set.disjoint_left]
    intro p hf hin
    exact hG.wf.used_idle p hin (Or.inl hf)
  · rw [Set.disjoint_left]
    intro p hf hin
    exact hG'.wf.used_idle p (hl ▸ hin) (Or.inl hf)
  · rw [hu]
    exact hG'.canonical

/-- Equal sets of blocks are recorded by equal granules. -/
theorem Grains.unique {u : ℕ} {blocks blocks' : ℕ → Blockinfo} {idle used : Set Block}
    (h : Grains u blocks idle used) (h' : Grains u blocks' idle used) {g : ℕ}
    (hg : g < 2 ^ (u - 8)) : blocks g = blocks' g := by
  by_cases hex : ∃ p ∈ idle ∪ used, p.1 / 256 = g
  · obtain ⟨p, hp, rfl⟩ := hex
    rcases hp with hp | hp
    · rw [h.idle_info p hp, h'.idle_info p hp]
    · rw [h.used_info p hp, h'.used_info p hp]
  · have hnone : ∀ p ∈ idle ∪ used, p.1 / 256 ≠ g := fun p hp he => hex ⟨p, hp, he⟩
    rw [h.other_info g hg hnone, h'.other_info g hg hnone]

/-- **Canonical form.**  No free list below the top order holds a block together with its buddy; runs that
end with the same live blocks end with equal granule arrays and the same blocks on every list; and with no
live block left the lists are those of `buddyInit`. -/
theorem canonical_of_reachable (R R' : Region) (build build' : Build) (s s' : Client)
    (hr : Reachable R build s) (hr' : Reachable R' build' s') (hu : R.upper = R'.upper) :
    (∀ m xs b, m < R.upper → Chain (link s.heap) EMPTY (s.heap.ma.freelist m) xs → b ∈ xs →
      ∃ c, getBuddy s.heap b = .ok c ∧ c ∉ xs) ∧
    ((∀ p, p ∈ s.live ↔ p ∈ s'.live) →
      (∀ g, g < buddyNblocks R.upper → s.heap.ma.blocks g = s'.heap.ma.blocks g) ∧
      ∀ m xs ys, Chain (link s.heap) EMPTY (s.heap.ma.freelist m) xs →
        Chain (link s'.heap) EMPTY (s'.heap.ma.freelist m) ys → ∀ b, b ∈ xs ↔ b ∈ ys) ∧
    (s.live = [] →
      (∀ m, Chain (link s.heap) EMPTY (s.heap.ma.freelist m) (initFree R.upper m)) ∧
      ∀ g, g < buddyNblocks R.upper →
        s.heap.ma.blocks g = if g = 0 then ⟨R.upper, false⟩ else ⟨0, false⟩) := by
  obtain ⟨free, hG⟩ := good_of_reachable hr
  obtain ⟨free', hG'⟩ := good_of_reachable hr'
  refine ⟨?_, ?_, ?_⟩
  · intro m xs b hm hxs hb
    obtain rfl : xs = free m := hxs.unique (hG.rep.lists m)
    have hT : (b, m) ∈ (freeSet free ∪ ∅) ∪ liveSet s.live := Or.inl (Or.inl hb)
    have hal := hG.wf.tiling.aligned _ hT
    have hbd := (hG.wf.separate R.upper_le).bounded m b hb
    have hget := getBuddy_spec (h := s.heap) (b := b) (m := m) hG.rep.lower_eq
      (by rw [hG.rep.grains.idle_info (b, m) (Or.inl hb)]) (hG.wf.tiling.lower_le _ hT)
      (by rw [hG.rep.upper_eq]; omega) hal (by omega)
    refine ⟨buddyOf b m, hget, ?_⟩
    intro hcx
    rcases buddyOf_cases hal with ⟨hlow, he⟩ | ⟨d, hd, hbd', he⟩
    · rw [he] at hcx
      exact hG.canonical b m hm hlow hb hcx
    · rw [he] at hcx
      subst hbd'
      exact hG.canonical d m hm hd hcx hb
  · intro hlive
    have hl : liveSet s.live = liveSet s'.live := Set.ext hlive
    have hfree := hG.freeSet_eq hG' hu hl
    refine ⟨?_, ?_⟩
    · intro g hg
      rw [buddyNblocks, Nat.one_shiftLeft, defaultLower] at hg
      have hgr := hG'.rep.grains
      rw [← hfree, ← hl, ← hu] at hgr
      exact hG.rep.grains.unique hgr hg
    · intro m xs ys hxs hys b
      rw [hxs.unique (hG.rep.lists m), hys.unique (hG'.rep.lists m)]
      exact Set.ext_iff.mp hfree (b, m)
  · intro hnil
    have hstart := good_start R (fun _ => ⟨0, false⟩) (fun _ => 0)
    have hset : freeSet free = {(0, R.upper)} := by
      rw [← freeSet_initFree]
      refine hG.freeSet_eq hstart rfl ?_
      rw [hnil]
      rfl
    refine ⟨?_, ?_⟩
    swap
    · intro g hg
      rw [buddyNblocks, Nat.one_shiftLeft, defaultLower] at hg
      have hbook := hG.bookkeeping
      by_cases h0 : g = 0
      · subst h0
        rw [if_pos rfl]
        have hinfo := hbook.info (0, R.upper) (Or.inl (by rw [hset]; rfl))
        rw [hnil, Nat.zero_div] at hinfo
        exact hinfo
      · rw [if_neg h0]
        refine hbook.blank g hg ?_
        intro p hp
        rw [hset, hnil] at hp
        rcases hp with hp | hp
        · obtain rfl : p = (0, R.upper) := hp
          rw [Nat.zero_div]
          exact Ne.symm h0
        · exact absurd hp (List.not_mem_nil)
    intro m
    -- a duplicate-free list is determined by a set with at most one element
    have hlist : free m = initFree R.upper m := by
      have hmem : ∀ x, x ∈ free m ↔ (x, m) = (0, R.upper) := fun x => Set.ext_iff.mp hset (x, m)
      by_cases hm : m = R.upper
      · subst hm
        rw [initFree, Function.update_self]
        have hperm : (free R.upper).Perm [0] := by
          rw [List.perm_ext_iff_of_nodup (hG.wf.nodup _) (List.nodup_singleton 0)]
          intro x
          rw [hmem x]
          simp
        exact List.perm_singleton.mp hperm
      · rw [initFree, Function.update_of_ne hm, List.eq_nil_iff_forall_not_mem]
        intro x hx
        exact hm (congrArg Prod.snd ((hmem x).mp hx))
    rw [← hlist]
    exact hG.rep.lists m

/-- The canonical form applied to two live blocks, after a release: the lists hold no two buddies. -/
theorem canonical_of_kilobyte : ∃ h' : Heap, ∀ m xs b, m < 10 →
    Chain (link h') EMPTY (h'.ma.freelist m) xs → b ∈ xs → ∃ c, getBuddy h' b = .ok c ∧ c ∉ xs := by
  obtain ⟨⟨h', _⟩, hr, -⟩ := kilobyteSession_run
  exact ⟨h', (canonical_of_reachable kilobyte kilobyte .userland .userland _ _ hr hr rfl).1⟩

end AdelaideOS.Buddy
