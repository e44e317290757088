import AdelaideOS.Kernel.Outline

/-!
# Copying between user memory and the kernel

Bytes that the kernel reads from the memory of a process are those that the process sees there, and bytes that
the kernel writes are seen by the process afterwards.  The second is true only if no two user pages share a frame
and no page table lies in one, which `Mapped` says.

* **`acts_readUserBytes`** — what is read;
* **`Mapped.seesBytes`** — what is seen after writing.
-/

namespace AdelaideOS.Kernel

open AdelaideOS.Lib.Bytes AdelaideOS.Lib.Triple AdelaideOS.Lib.View AdelaideOS.Page AdelaideOS.Process

/-- The bytes of process `p` from `a` on. -/
def userBytes (k : State) (p a n : ℕ) : List UInt8 := (List.range n).map fun i => userByte k p (offset a i)

/-- The live processes own disjoint address spaces of the usual shape. -/
def Mapped (m : Machine) (k : State) : Prop := ∃ forked asp, Safe m forked k.sched k.pages k.space asp

variable {m : Machine} {k k' : State} {p a x : ℕ} {bs : List UInt8}

/-! ### Reading -/

/-- The bytes of a process are those of its frames. -/
theorem userByte_eq {A : Aspace} {rest : Multiset ℕ} (h : Owns k.pages (k.space p).pdir A rest)
    (ha : a < wordSize) :
    userByte k p a = if pageOf a ∈ A.us then k.pages.mem (A.fr (pageOf a) + a % PAGE_SIZE) else 0 := by
  unfold userByte physical
  by_cases hn : pageOf a ∈ A.us
  · obtain ⟨htr, -, hfr, -⟩ := h.user_page ha hn
    have hlow : ¬ A.fr (pageOf a) + a % PAGE_SIZE < PAGE_START := by
      have := hfr.facts.2.1
      omega
    rw [htr, if_pos hn]
    simp only [if_neg hlow]
  · obtain ⟨-, hlow, -⟩ := h.kernel_page ha hn
    rw [if_neg hn]
    cases htr : translate k.pages.mem (k.space p).pdir a with
    | none => rfl
    | some x => simp only [if_pos (hlow x htr)]

theorem userByte_congr (h : k'.outline = k.outline) (p a : ℕ) : userByte k' p a = userByte k p a := by
  have hpages : k'.pages = k.pages := congrArg Outline.pages h
  have hspace : k'.space = k.space := congrArg Outline.space h
  unfold userByte physical
  rw [hpages, hspace]

theorem userBytes_congr (h : k'.outline = k.outline) (p a n : ℕ) : userBytes k' p a n = userBytes k p a n := by
  unfold userBytes
  apply List.map_congr_left
  intro i _
  exact userByte_congr h p _

theorem userBytes_length (k : State) (p a n : ℕ) : (userBytes k p a n).length = n := by
  rw [userBytes, List.length_map, List.length_range]

theorem userBytes_offset_zero (k : State) (p a n : ℕ) : userBytes k p (offset a 0) n = userBytes k p a n := by
  unfold userBytes
  apply List.map_congr_left
  intro i _
  rw [offset_offset, Nat.zero_add]

theorem userBytes_succ (k : State) (p a n i : ℕ) :
    userBytes k p (offset a i) (n + 1) = userByte k p (offset a i) :: userBytes k p (offset a (i + 1)) n := by
  unfold userBytes
  rw [List.range_succ_eq_map, List.map_cons, List.map_map]
  congr 1
  · rw [offset_offset, Nat.add_zero]
  · apply List.map_congr_left
    intro j _
    show userByte k p (offset (offset a i) (j + 1)) = userByte k p (offset (offset a (i + 1)) j)
    rw [offset_offset, offset_offset]
    congr 2
    omega

theorem loadMapped_eq {b : UInt8} (h : loadMapped p a k = .ok b k') : b = userByte k p a ∧ k' = k := by
  unfold loadMapped at h
  unfold userByte
  cases hx : physical k p a with
  | ok x =>
    rw [hx] at h
    cases h
    exact ⟨rfl, rfl⟩
  | error e =>
    rw [hx] at h
    cases h

theorem acts_readUser (k : State) (p a : ℕ) :
    Acts State.outline AnyFault k.outline (readUser p a) fun b o' => b = userByte k p a ∧ o' = k.outline := by
  refine (hidden_touch [a]).andThen fun _ => ⟨fun k₁ hk₁ => ?_⟩
  cases hm : loadMapped p a k₁ with
  | error e k₂ => exact trivial
  | ok b k₂ =>
    obtain ⟨rfl, rfl⟩ := loadMapped_eq hm
    exact ⟨userByte_congr hk₁ p a, hk₁⟩

/-- **What is read.** -/
theorem acts_readUserBytes (k : State) (p a n i : ℕ) :
    Acts State.outline AnyFault k.outline (readUserBytes p a n i)
      fun bs o' => bs = userBytes k p (offset a i) n ∧ o' = k.outline := by
  induction n generalizing i with
  | zero => exact Acts.pure ⟨rfl, rfl⟩
  | succ n ih =>
    refine Acts.bind (acts_readUser k p (offset a i)) ?_
    rintro b _ ⟨rfl, rfl⟩
    refine Acts.bind (ih (i + 1)) ?_
    rintro bs _ ⟨rfl, rfl⟩
    exact Acts.pure ⟨(userBytes_succ k p a n i).symm, rfl⟩

/-! ### Writing -/

/-- The frames of different user pages are different. -/
theorem Safe.fr_inj {forked : ℕ → Bool} {asp : ℕ → Aspace} (h : Safe m forked k.sched k.pages k.space asp)
    (hp : k.sched.Live p) {n n' : ℕ} (hn : n ∈ (asp p).us) (hn' : n' ∈ (asp p).us)
    (he : (asp p).fr n = (asp p).fr n') : n = n' := by
  have hnd := (h.owns hp).nodup
  rw [Aspace.owned, Multiset.cons_add, Multiset.nodup_cons] at hnd
  have hmap : ((asp p).us.val.map (asp p).fr).Nodup :=
    (Multiset.nodup_add.mp (Multiset.nodup_add.mp hnd.2).1).2.1
  exact Multiset.inj_on_of_nodup_map hmap n hn n' hn' he

/-- What an address of a live process leads to. -/
theorem Safe.physical_cases {forked : ℕ → Bool} {asp : ℕ → Aspace}
    (h : Safe m forked k.sched k.pages k.space asp) (hp : k.sched.Live p) (ha : a < wordSize) :
    (pageOf a ∈ (asp p).us ∧ physical k p a = .ok ((asp p).fr (pageOf a) + a % PAGE_SIZE)) ∨
      (pageOf a ∉ (asp p).us ∧ ∃ e, physical k p a = .error e) := by
  by_cases hn : pageOf a ∈ (asp p).us
  · obtain ⟨htr, -, hfr, -⟩ := (h.owns hp).user_page ha hn
    have hlow := hfr.facts.2.1
    refine Or.inl ⟨hn, ?_⟩
    unfold physical
    rw [htr]
    exact if_neg (by omega)
  · refine Or.inr ⟨hn, ?_⟩
    cases hx : physical k p a with
    | error e => exact ⟨e, rfl⟩
    | ok x =>
      obtain ⟨htr, hlow⟩ := physical_eq_ok hx
      have := ((h.owns hp).kernel_page ha hn).2.1 x htr
      omega

/-- **One byte** is seen where it was written, and nowhere else. -/
theorem Mapped.sees (h : Mapped m k) (hp : k.sched.Live p) (ha : a < wordSize) {b : UInt8}
    (hok : writeUser p a b k = .ok () k') :
    Mapped m k' ∧ k'.sched = k.sched ∧
      ∀ y < wordSize, userByte k' p y = if y = a then b else userByte k p y := by
  obtain ⟨forked, asp, hsafe⟩ := h
  -- the store itself
  obtain ⟨x, hx, rfl⟩ : ∃ x, physical k p a = .ok x ∧
      k' = { k.storeAt x b with log := a :: k.log } := by
    have hrun : storeMapped p a b { k with log := a :: k.log } = .ok () k' := hok
    have hphys : physical { k with log := a :: k.log } p a = physical k p a := rfl
    unfold storeMapped at hrun
    rw [hphys] at hrun
    cases hx : physical k p a with
    | error e =>
      rw [hx] at hrun
      cases hrun
    | ok x =>
      rw [hx] at hrun
      cases hrun
      exact ⟨x, rfl, rfl⟩
  obtain ⟨htr, hlow⟩ := physical_eq_ok hx
  have hsc : Scribbles (k.space p).pdir k.pages { k.pages with mem := Function.update k.pages.mem x b } :=
    .step b (.refl _) ha htr hlow
  have hsafe' := hsafe.scribbles hp hsc
  refine ⟨⟨forked, asp, hsafe'⟩, rfl, ?_⟩
  intro y hy
  have hcases := hsafe.physical_cases hp hy
  have hcases' := Safe.physical_cases (k := { k.storeAt x b with log := a :: k.log }) hsafe' hp hy
  rcases hcases with ⟨hn, hphys⟩ | ⟨hn, e, hphys⟩
  · have hphys' := (hcases'.resolve_right fun hc => hc.1 hn).2
    unfold userByte
    rw [hphys, hphys']
    show Function.update k.pages.mem x b _ = _
    rcases hsafe.physical_cases hp ha with ⟨hna, hpa⟩ | ⟨-, e, hpa⟩
    · obtain rfl := Except.ok.inj (hpa.symm.trans hx)
      have hfa := ((hsafe.owns hp).user_page ha hna).2.2.1.facts
      have hfy := ((hsafe.owns hp).user_page hy hn).2.2.1.facts
      by_cases hya : y = a
      · rw [if_pos hya, hya, Function.update_self]
      · rw [if_neg hya, Function.update_of_ne]
        intro he
        -- equal physical addresses: the same frame, hence the same page
        have hmod : ∀ z, z % PAGE_SIZE < PAGE_SIZE := fun z => Nat.mod_lt z (by decide)
        have h1 := hmod y
        have h2 := hmod a
        have hfr : (asp p).fr (pageOf y) = (asp p).fr (pageOf a) := by
          simp only [PAGE_SIZE] at *
          omega
        have hpage := hsafe.fr_inj hp hn hna hfr
        apply hya
        rw [hfr] at he
        have hdy := Nat.div_add_mod y PAGE_SIZE
        have hda := Nat.div_add_mod a PAGE_SIZE
        rw [show y / PAGE_SIZE = pageOf a from hpage] at hdy
        rw [show a / PAGE_SIZE = pageOf a from rfl] at hda
        omega
    · rw [hx] at hpa
      cases hpa
  · obtain ⟨-, e', hphys'⟩ := hcases'.resolve_left fun hc => hn hc.1
    have hya : y ≠ a := by
      rintro rfl
      rw [hx] at hphys
      cases hphys
    unfold userByte
    rw [hphys, hphys', if_neg hya]

/-- The same for a store by the process itself. -/
theorem Mapped.seesStored (h : Mapped m k) (hp : k.sched.Live p) (ha : a < wordSize) {b : UInt8}
    (hok : storeMapped p a b k = .ok () k') :
    Mapped m k' ∧ k'.sched = k.sched ∧
      ∀ y < wordSize, userByte k' p y = if y = a then b else userByte k p y := by
  have hwrite : writeUser p a b k = .ok () { k' with log := a :: k.log } := by
    have hphys : physical { k with log := a :: k.log } p a = physical k p a := rfl
    show storeMapped p a b { k with log := a :: k.log } = _
    unfold storeMapped at hok ⊢
    rw [hphys]
    cases hx : physical k p a with
    | error e =>
      rw [hx] at hok
      cases hok
    | ok x =>
      rw [hx] at hok
      cases hok
      rfl
  obtain ⟨hmap, hs, hbytes⟩ := h.sees hp ha hwrite
  exact ⟨hmap, hs, hbytes⟩

/-- Bytes behind those that are written stay, and those that are written are seen. -/
theorem Mapped.seesBytes_at (h : Mapped m k) (hp : k.sched.Live p) (i : ℕ) (hlen : i + bs.length ≤ wordSize)
    (hok : writeUserBytes p a bs i k = .ok () k') :
    (∀ j < i, userByte k' p (offset a j) = userByte k p (offset a j)) ∧
      userBytes k' p (offset a i) bs.length = bs := by
  induction bs generalizing k i with
  | nil =>
    cases hok
    exact ⟨fun _ _ => rfl, rfl⟩
  | cons b bs ih =>
    rw [List.length_cons] at hlen
    -- the first byte
    obtain ⟨_, k₁, h₁, hrest⟩ := bind_ok hok
    obtain ⟨hmap, hsched, hbyte⟩ := h.sees hp (offset_lt a i) h₁
    obtain ⟨hbefore, hafter⟩ := ih hmap (by rw [hsched]; exact hp) (i + 1) (by omega) hrest
    constructor
    · intro j hj
      rw [hbefore j (by omega), hbyte _ (offset_lt a j), if_neg]
      simp only [offset, wordSize] at *
      omega
    · rw [List.length_cons, userBytes_succ, hafter, hbefore i (by omega), hbyte _ (offset_lt a i), if_pos rfl]

/-- Writing keeps the address spaces apart. -/
theorem Mapped.writes (h : Mapped m k) (hp : k.sched.Live p) {i : ℕ} (hok : writeUserBytes p a bs i k = .ok () k') :
    Mapped m k' ∧ k'.sched = k.sched := by
  induction bs generalizing k i with
  | nil =>
    cases hok
    exact ⟨h, rfl⟩
  | cons b bs ih =>
    obtain ⟨_, k₁, h₁, hrest⟩ := bind_ok hok
    obtain ⟨hmap, hsched, -⟩ := h.sees hp (offset_lt a i) h₁
    obtain ⟨hmap', hsched'⟩ := ih hmap (by rw [hsched]; exact hp) hrest
    exact ⟨hmap', hsched'.trans hsched⟩

/-- **What is seen after writing.** -/
theorem Mapped.seesBytes (h : Mapped m k) (hp : k.sched.Live p) (hlen : bs.length ≤ wordSize)
    (hok : writeUserBytes p a bs 0 k = .ok () k') : userBytes k' p a bs.length = bs := by
  rw [← userBytes_offset_zero]
  exact (h.seesBytes_at hp 0 (by omega) hok).2

/-- Bytes are written where the caller may write. -/
theorem writeUserBytes_ok (a : ℕ) (bs : List UInt8) (i : ℕ) (h : Mapped m k) (hp : k.sched.Live p)
    (hr : ∀ j < bs.length, (k.space p).InRange (offset a (i + j))) :
    ∃ P log, writeUserBytes p a bs i k = .ok () { k with pages := P, log := log } := by
  induction bs generalizing k i with
  | nil => exact ⟨k.pages, k.log, rfl⟩
  | cons b bs ih =>
    obtain ⟨forked, asp, hsafe⟩ := id h
    obtain ⟨x, hx⟩ := (hsafe.sound hp).physical_ok (hr 0 (by simp))
    rw [Nat.add_zero] at hx
    let k₁ : State := { k with log := [offset a i] ++ k.log }
    have hstore : storeMapped p (offset a i) b k₁ = .ok () (k₁.storeAt x b) := by
      unfold storeMapped
      rw [show physical k₁ p (offset a i) = .ok x from hx]
    have hok : writeUser p (offset a i) b k = .ok () (k₁.storeAt x b) := hstore
    obtain ⟨hmap, hs, -⟩ := h.sees hp (offset_lt a i) hok
    obtain ⟨P, log, hok'⟩ := ih (k := k₁.storeAt x b) (i + 1) hmap hp (by
      intro j hj
      have := hr (j + 1) (by simpa using hj)
      rw [show i + 1 + j = i + (j + 1) by omega]
      exact this)
    refine ⟨P, log, ?_⟩
    unfold writeUserBytes
    rw [run_bind hok]
    exact hok'

end AdelaideOS.Kernel
