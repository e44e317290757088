import AdelaideOS.Page.Loops

/-!
# All address spaces together

`Spaces P ps dir asp` says that the live frames are divided among the address spaces `asp p` of the processes
`p` in `ps`, each described by its directory `dir p`.  An operation on one address space is lifted to all of
them by taking the frames of the others as the `rest` of `Owns`.
-/

namespace AdelaideOS.Page

open AdelaideOS.Lib.Bytes

/-- The frames of the processes `ps`. -/
def framesOf (ps : Finset ℕ) (dir : ℕ → ℕ) (asp : ℕ → Aspace) : Multiset ℕ :=
  ∑ p ∈ ps, (asp p).owned (dir p)

structure Spaces (P : Pages) (ps : Finset ℕ) (dir : ℕ → ℕ) (asp : ℕ → Aspace) : Prop where
  alloc : ∃ frees, Alloc P frees
  live : (P.live : Multiset ℕ) = framesOf ps dir asp
  describes : ∀ p ∈ ps, Describes P.mem (dir p) (asp p)

variable {P P' : Pages} {ps : Finset ℕ} {dir dir' : ℕ → ℕ} {asp asp' : ℕ → Aspace} {p q d : ℕ} {A : Aspace}

theorem framesOf_erase (hp : p ∈ ps) (dir : ℕ → ℕ) (asp : ℕ → Aspace) :
    framesOf ps dir asp = (asp p).owned (dir p) + framesOf (ps.erase p) dir asp :=
  (Finset.add_sum_erase ps (fun q => (asp q).owned (dir q)) hp).symm

theorem framesOf_insert (hp : p ∉ ps) (dir : ℕ → ℕ) (asp : ℕ → Aspace) :
    framesOf (insert p ps) dir asp = (asp p).owned (dir p) + framesOf ps dir asp :=
  Finset.sum_insert hp

theorem framesOf_congr (hd : ∀ q ∈ ps, dir' q = dir q) (ha : ∀ q ∈ ps, asp' q = asp q) :
    framesOf ps dir' asp' = framesOf ps dir asp := by
  apply Finset.sum_congr rfl
  intro q hq
  rw [hd q hq, ha q hq]

theorem mem_framesOf {f : ℕ} : f ∈ framesOf ps dir asp ↔ ∃ p ∈ ps, f ∈ (asp p).owned (dir p) := by
  unfold framesOf
  induction ps using Finset.induction_on with
  | empty => simp
  | insert p ps hp ih =>
    rw [Finset.sum_insert hp, Multiset.mem_add, ih]
    simp

/-- One address space and the frames of the others. -/
theorem Spaces.owns (h : Spaces P ps dir asp) (hp : p ∈ ps) :
    Owns P (dir p) (asp p) (framesOf (ps.erase p) dir asp) := by
  have hD := h.describes p hp
  refine ⟨h.alloc, hD.rep, ?_, hD.user, hD.kern⟩
  rw [h.live, framesOf_erase hp]

/-- The other address spaces are the same while their frames are. -/
theorem Spaces.describes_of_keeps (h : Spaces P ps dir asp) {qs : Finset ℕ} (hqs : qs ⊆ ps)
    (hK : Keeps (framesOf qs dir asp) P P') (hq : q ∈ qs) : Describes P'.mem (dir q) (asp q) := by
  refine (h.describes q (hqs hq)).congr ?_
  intro f hf
  exact hK f (mem_framesOf.mpr ⟨q, hq, hf⟩)

/-- **One address space changes.** -/
theorem Spaces.change (h : Spaces P ps dir asp) (hp : p ∈ ps)
    (hO : Owns P' d A (framesOf (ps.erase p) dir asp))
    (hK : Keeps (framesOf (ps.erase p) dir asp) P P') :
    Spaces P' ps (Function.update dir p d) (Function.update asp p A) := by
  have hd : ∀ q ∈ ps.erase p, Function.update dir p d q = dir q :=
    fun q hq => Function.update_of_ne (Finset.ne_of_mem_erase hq) _ _
  have ha : ∀ q ∈ ps.erase p, Function.update asp p A q = asp q :=
    fun q hq => Function.update_of_ne (Finset.ne_of_mem_erase hq) _ _
  refine ⟨hO.alloc, ?_, ?_⟩
  · rw [hO.live, framesOf_erase hp, framesOf_congr hd ha, Function.update_self, Function.update_self]
  · intro q hq
    by_cases hqp : q = p
    · rw [hqp, Function.update_self, Function.update_self]
      exact hO.describes
    · have hq' : q ∈ ps.erase p := Finset.mem_erase.mpr ⟨hqp, hq⟩
      rw [hd q hq', ha q hq']
      exact h.describes_of_keeps (Finset.erase_subset _ _) hK hq'

/-- **A new address space.** -/
theorem Spaces.add (h : Spaces P ps dir asp) (hp : p ∉ ps) (hO : Owns P' d A (framesOf ps dir asp))
    (hK : Keeps (framesOf ps dir asp) P P') :
    Spaces P' (insert p ps) (Function.update dir p d) (Function.update asp p A) := by
  have hne : ∀ q ∈ ps, q ≠ p := by
    intro q hq hqp
    rw [hqp] at hq
    exact hp hq
  have hd : ∀ q ∈ ps, Function.update dir p d q = dir q :=
    fun q hq => Function.update_of_ne (hne q hq) _ _
  have ha : ∀ q ∈ ps, Function.update asp p A q = asp q :=
    fun q hq => Function.update_of_ne (hne q hq) _ _
  refine ⟨hO.alloc, ?_, ?_⟩
  · rw [hO.live, framesOf_insert hp, framesOf_congr hd ha, Function.update_self, Function.update_self]
  · intro q hq
    rcases Finset.mem_insert.mp hq with rfl | hq
    · rw [Function.update_self, Function.update_self]
      exact hO.describes
    · rw [hd q hq, ha q hq]
      exact h.describes_of_keeps Finset.Subset.rfl hK hq

/-- **An address space is given up.** -/
theorem Spaces.remove {frees : List ℕ} (h : Spaces P ps dir asp) (hA : Alloc P' frees)
    (hlive : (P'.live : Multiset ℕ) = framesOf (ps.erase p) dir asp)
    (hK : Keeps (framesOf (ps.erase p) dir asp) P P') : Spaces P' (ps.erase p) dir asp :=
  ⟨⟨frees, hA⟩, hlive, fun _ hq => h.describes_of_keeps (Finset.erase_subset _ _) hK hq⟩

/-- Only the processes in `ps` matter. -/
theorem Spaces.congr (h : Spaces P ps dir asp) (hd : ∀ q ∈ ps, dir' q = dir q)
    (ha : ∀ q ∈ ps, asp' q = asp q) : Spaces P ps dir' asp' := by
  refine ⟨h.alloc, ?_, ?_⟩
  · rw [h.live, framesOf_congr hd ha]
  · intro q hq
    rw [hd q hq, ha q hq]
    exact h.describes q hq

/-! ### How many frames there are -/

theorem card_tablesOf (tbl : ℕ → Option ℕ) : (tablesOf tbl).card ≤ 1024 := by
  rw [tablesOf_coe, Multiset.coe_card]
  calc ((List.range 1024).filterMap tbl).length ≤ (List.range 1024).length :=
        List.length_filterMap_le _ _
    _ = 1024 := List.length_range

theorem card_owned (A : Aspace) (d : ℕ) : (A.owned d).card ≤ 1025 + A.us.card := by
  have h := card_tablesOf A.tbl
  rw [Aspace.owned, Multiset.card_cons, Multiset.card_add, Multiset.card_map]
  show (tablesOf A.tbl).card + A.us.card + 1 ≤ _
  omega

/-- The live frames are bounded by the number of processes. -/
theorem Spaces.live_length (h : Spaces P ps dir asp) {u : ℕ} (hu : ∀ p ∈ ps, (asp p).us.card ≤ u) :
    P.live.length ≤ ps.card * (1025 + u) := by
  have hlen : P.live.length = ∑ p ∈ ps, ((asp p).owned (dir p)).card := by
    rw [← Multiset.coe_card, h.live]
    exact map_sum Multiset.cardHom (fun p => (asp p).owned (dir p)) ps
  rw [hlen, ← smul_eq_mul]
  apply Finset.sum_le_card_nsmul
  intro p hp
  have := hu p hp
  have := card_owned (asp p) (dir p)
  omega

end AdelaideOS.Page
