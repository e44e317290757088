import AdelaideOS.Kernel.Invariant
import AdelaideOS.Kernel.Objects

/-!
# References to file handles, and the two ends of a pipe

`refs fds D a` counts the descriptors among the slots `D` that refer to the handle at `a`.  `Counted` says that
the reference count of every handle is this number and that an address without a handle is referred to by none.
`D` is a parameter because `kill_process` gives the references of a process back one by one; between system calls
it is `liveSlots`, the descriptors of all processes that have not exited.

`Paired` ties handles and pipes together: a pipe is open for reading, or writing, as long as there is a handle
for that end, and only one.  The pipes made by `start_process` have no writer; `std` records them.
-/

namespace AdelaideOS.Kernel

open AdelaideOS.Lib.Bytes AdelaideOS.Process

/-! ### Counting -/

def refs (fds : ℕ → ℕ → Option ℕ) (D : Finset (ℕ × ℕ)) (a : ℕ) : ℕ :=
  (D.filter fun s => fds s.1 s.2 = some a).card

/-- The descriptors of the processes that have not exited. -/
def liveSlots (S : Sched) : Finset (ℕ × ℕ) := livePids S ×ˢ Finset.range MAX_FDS

/-- The reference count of a handle; no handle counts as none. -/
def holders : Option Filehandle → ℕ
  | none => 0
  | some fh => fh.refcount

structure Counted (fds : ℕ → ℕ → Option ℕ) (H : ℕ → Option Filehandle) (D : Finset (ℕ × ℕ)) : Prop where
  count : ∀ a, holders (H a) = refs fds D a
  pos : ∀ a fh, H a = some fh → 0 < fh.refcount

variable {fds fds' : ℕ → ℕ → Option ℕ} {H : ℕ → Option Filehandle} {D D' : Finset (ℕ × ℕ)} {a p fd : ℕ}
  {s : ℕ × ℕ} {fh : Filehandle}

theorem refs_pos : 0 < refs fds D a ↔ ∃ s ∈ D, fds s.1 s.2 = some a := by
  rw [refs, Finset.card_pos]
  constructor
  · rintro ⟨s, hs⟩
    rw [Finset.mem_filter] at hs
    exact ⟨s, hs⟩
  · rintro ⟨s, hs⟩
    exact ⟨s, Finset.mem_filter.mpr hs⟩

/-- **A handle that is not shared** is in one slot. -/
theorem Counted.sole (h : Counted fds H D) (s s' : ℕ × ℕ) (hH : H a = some fh) (hone : fh.refcount = 1) (hs : s ∈ D)
    (hs' : s' ∈ D) (ha : fds s.1 s.2 = some a) (ha' : fds s'.1 s'.2 = some a) : s = s' := by
  have hcount : refs fds D a = 1 := by
    rw [← h.count a, hH]
    exact hone
  exact Finset.card_le_one.mp (le_of_eq hcount) s (Finset.mem_filter.mpr ⟨hs, ha⟩) s' (Finset.mem_filter.mpr ⟨hs', ha'⟩)

/-- One more slot. -/
theorem refs_insert (fds : ℕ → ℕ → Option ℕ) (hs : s ∉ D) (a : ℕ) :
    refs fds (insert s D) a = refs fds D a + if fds s.1 s.2 = some a then 1 else 0 := by
  rw [refs, refs, Finset.filter_insert]
  split
  · rw [Finset.card_insert_of_notMem]
    intro hmem
    exact hs (Finset.mem_filter.mp hmem).1
  · rfl

/-- Slots that are not counted may be changed. -/
theorem refs_congr (h : ∀ s ∈ D, fds' s.1 s.2 = fds s.1 s.2) (a : ℕ) : refs fds' D a = refs fds D a := by
  unfold refs
  congr 1
  apply Finset.filter_congr
  intro s hs
  rw [h s hs]

theorem refs_putFd {v : Option ℕ} (hs : (p, fd) ∉ D) (a : ℕ) :
    refs (putFd fds p fd v) D a = refs fds D a := by
  apply refs_congr
  intro s hmem
  apply putFd_of_ne
  intro he
  exact hs (he ▸ hmem)

/-- A slot that refers to a handle finds it. -/
theorem Counted.slot (h : Counted fds H D) (hs : s ∈ D) (ha : fds s.1 s.2 = some a) :
    ∃ fh, H a = some fh := by
  have hpos : 0 < refs fds D a := refs_pos.mpr ⟨s, hs, ha⟩
  rw [← h.count a] at hpos
  cases hH : H a with
  | none =>
    rw [hH] at hpos
    exact absurd hpos (lt_irrefl 0)
  | some fh => exact ⟨fh, rfl⟩

/-- **One handle** changes, along with the references to it. -/
theorem Counted.update {v : Option Filehandle} (h : Counted fds H D)
    (hother : ∀ a', a' ≠ a → refs fds' D' a' = refs fds D a') (hv : holders v = refs fds' D' a)
    (hpos : ∀ fh, v = some fh → 0 < fh.refcount) : Counted fds' (Function.update H a v) D' := by
  constructor
  · intro a'
    by_cases ha : a' = a
    · rw [ha, Function.update_self]
      exact hv
    · rw [Function.update_of_ne ha, h.count, hother a' ha]
  · intro a' fh hfh
    by_cases ha : a' = a
    · rw [ha, Function.update_self] at hfh
      exact hpos fh hfh
    · rw [Function.update_of_ne ha] at hfh
      exact h.pos a' fh hfh

/-- No reference changes. -/
theorem Counted.congr (h : Counted fds H D) (hrefs : ∀ a, refs fds' D' a = refs fds D a) :
    Counted fds' H D' :=
  ⟨fun a => (h.count a).trans (hrefs a).symm, h.pos⟩

/-- Fields other than the reference count change. -/
theorem Counted.touch {fh' : Filehandle} (h : Counted fds H D) (hfh : H a = some fh)
    (hr : fh'.refcount = fh.refcount) : Counted fds (Function.update H a (some fh')) D := by
  have hcount := h.count a
  rw [hfh] at hcount
  refine h.update (fun _ _ => rfl) (hr.trans hcount) ?_
  intro fh₁ h₁
  obtain rfl := Option.some.inj h₁
  rw [hr]
  exact h.pos a fh hfh

/-- A closed slot need not be counted. -/
theorem Counted.closed (h : Counted fds H (insert s D)) (hs : s ∉ D) (hfd : fds s.1 s.2 = none) :
    Counted fds H D := by
  refine h.congr fun a => ?_
  rw [refs_insert fds hs, hfd, if_neg (by simp), Nat.add_zero]

theorem Counted.opened (h : Counted fds H D) (hs : s ∉ D) (hfd : fds s.1 s.2 = none) :
    Counted fds H (insert s D) := by
  refine h.congr fun a => ?_
  rw [refs_insert fds hs, hfd, if_neg (by simp), Nat.add_zero]

/-- **Giving back** one reference of several. -/
theorem Counted.release (h : Counted fds H (insert s D)) (hs : s ∉ D) (hfd : fds s.1 s.2 = some a)
    (hfh : H a = some fh) (hmore : fh.refcount - 1 ≠ 0) :
    Counted fds (Function.update H a (some { fh with refcount := fh.refcount - 1 })) D := by
  have hcount := h.count a
  rw [hfh, refs_insert fds hs, hfd, if_pos rfl] at hcount
  refine h.update ?_ ?_ ?_
  · intro a' ha'
    rw [refs_insert fds hs, hfd, if_neg (fun he => ha' (Option.some.inj he).symm), Nat.add_zero]
  · show fh.refcount - 1 = _
    have hval : fh.refcount = refs fds D a + 1 := hcount
    omega
  · intro fh₁ h₁
    obtain rfl := Option.some.inj h₁
    show 0 < fh.refcount - 1
    omega

/-- **Giving back** the last reference. -/
theorem Counted.last (h : Counted fds H (insert s D)) (hs : s ∉ D) (hfd : fds s.1 s.2 = some a)
    (hfh : H a = some fh) (hlast : fh.refcount - 1 = 0) : Counted fds (Function.update H a none) D := by
  have hcount := h.count a
  rw [hfh, refs_insert fds hs, hfd, if_pos rfl] at hcount
  refine h.update ?_ ?_ ?_
  · intro a' ha'
    rw [refs_insert fds hs, hfd, if_neg (fun he => ha' (Option.some.inj he).symm), Nat.add_zero]
  · show 0 = _
    have hval : fh.refcount = refs fds D a + 1 := hcount
    omega
  · intro fh₁ h₁
    cases h₁

/-- **One more reference**, from a slot that was not counted. -/
theorem Counted.share (h : Counted fds H D) (hs : (p, fd) ∉ D) (hfh : H a = some fh) :
    Counted (putFd fds p fd (some a))
      (Function.update H a (some { fh with refcount := fh.refcount + 1 })) (insert (p, fd) D) := by
  have hcount := h.count a
  rw [hfh] at hcount
  refine h.update ?_ ?_ ?_
  · intro a' ha'
    rw [refs_insert _ hs, putFd_self, if_neg (fun he => ha' (Option.some.inj he).symm), Nat.add_zero,
      refs_putFd hs]
  · rw [refs_insert _ hs, putFd_self, if_pos rfl, refs_putFd hs, ← hcount]
    rfl
  · intro fh₁ h₁
    obtain rfl := Option.some.inj h₁
    exact Nat.succ_pos _

/-- **A new handle** with one reference. -/
theorem Counted.create (h : Counted fds H D) (hs : (p, fd) ∉ D) (ha : H a = none) (hone : fh.refcount = 1) :
    Counted (putFd fds p fd (some a)) (Function.update H a (some fh)) (insert (p, fd) D) := by
  have hcount := h.count a
  rw [ha] at hcount
  refine h.update ?_ ?_ ?_
  · intro a' ha'
    rw [refs_insert _ hs, putFd_self, if_neg (fun he => ha' (Option.some.inj he).symm), Nat.add_zero,
      refs_putFd hs]
  · rw [refs_insert _ hs, putFd_self, if_pos rfl, refs_putFd hs, ← hcount]
    exact hone
  · intro fh₁ h₁
    obtain rfl := Option.some.inj h₁
    rw [hone]
    exact Nat.one_pos

/-! ### Live slots -/

theorem mem_liveSlots {S : Sched} (hG : Good S) : s ∈ liveSlots S ↔ S.Live s.1 ∧ s.2 < MAX_FDS := by
  rw [liveSlots, Finset.mem_product, mem_livePids hG, Finset.mem_range]

/-! ### Ends of pipes -/

def FhType.isPipe : FhType → Bool
  | .pipeReader => true
  | .pipeWriter => true
  | _ => false

/-- The end of the pipe that handles of type `t` are for is open. -/
def PipeBuffer.isOpen (pb : PipeBuffer) : FhType → Bool
  | .pipeReader => pb.reading
  | .pipeWriter => pb.writing
  | _ => false

structure Paired (std : ℕ → Bool) (H : ℕ → Option Filehandle) (B : ℕ → Option PipeBuffer) : Prop where
  ends : ∀ a fh, H a = some fh → fh.type.isPipe = true → ∃ pb, B fh.p = some pb ∧
    pb.isOpen fh.type = true ∧ (fh.type = .pipeWriter → std fh.p = false)
  inj : ∀ a a' fh fh', H a = some fh → H a' = some fh' → fh.type.isPipe = true → fh'.type = fh.type →
    fh'.p = fh.p → a' = a
  held : ∀ b pb t, B b = some pb → pb.isOpen t = true →
    (∃ a fh, H a = some fh ∧ fh.type = t ∧ fh.p = b) ∨ (t = .pipeWriter ∧ std b = true)
  opened : ∀ b pb, B b = some pb → pb.reading = true ∨ pb.writing = true
  std : ∀ b, std b = true → ∃ pb, B b = some pb ∧ pb.writing = true

variable {std : ℕ → Bool} {B : ℕ → Option PipeBuffer} {b : ℕ} {pb pb' : PipeBuffer} {t : FhType}

theorem isOpen_isPipe (h : pb.isOpen t = true) : t.isPipe = true := by
  cases t with
  | pipeReader => rfl
  | pipeWriter => rfl
  | screen => cases h
  | file => cases h
  | dir => cases h

/-- Where a handle has been touched, each was there before, for the same thing. -/
theorem handle_touched {fh' g : Filehandle} {x : ℕ} (hg : Function.update H a (some fh') x = some g) (hfh : H a = some fh)
    (ht : fh'.type = fh.type) (hp : fh'.p = fh.p) : ∃ g₀, H x = some g₀ ∧ g.type = g₀.type ∧ g.p = g₀.p := by
  rcases update_eq_some hg with ⟨rfl, rfl⟩ | ⟨-, hg⟩
  · exact ⟨fh, hfh, ht, hp⟩
  · exact ⟨g, hg, rfl, rfl⟩

/-- A handle changes in fields other than its type and pipe. -/
theorem Paired.touch {fh' : Filehandle} (h : Paired std H B) (hfh : H a = some fh)
    (ht : fh'.type = fh.type) (hp : fh'.p = fh.p) : Paired std (Function.update H a (some fh')) B := by
  refine ⟨?_, ?_, ?_, h.opened, h.std⟩
  · intro a' g hg hpipe
    obtain ⟨g₀, hg₀, ht₀, hp₀⟩ := handle_touched hg hfh ht hp
    rw [ht₀, hp₀]
    rw [ht₀] at hpipe
    exact h.ends a' g₀ hg₀ hpipe
  · intro a₁ a₂ g₁ g₂ h₁ h₂ hpipe htt hpp
    obtain ⟨k₁, hk₁, ht₁, hp₁⟩ := handle_touched h₁ hfh ht hp
    obtain ⟨k₂, hk₂, ht₂, hp₂⟩ := handle_touched h₂ hfh ht hp
    refine h.inj a₁ a₂ k₁ k₂ hk₁ hk₂ (ht₁ ▸ hpipe) ?_ ?_
    · rw [← ht₁, ← ht₂, htt]
    · rw [← hp₁, ← hp₂, hpp]
  · intro b pb t hb hopen
    rcases h.held b pb t hb hopen with ⟨a', g, hg, htg, hpg⟩ | hstd
    · left
      by_cases ha : a' = a
      · obtain rfl : g = fh := Option.some.inj (hg.symm.trans (ha ▸ hfh))
        exact ⟨a, fh', Function.update_self _ _ _, ht.trans htg, hp.trans hpg⟩
      · exact ⟨a', g, (Function.update_of_ne ha _ _).trans hg, htg, hpg⟩
    · exact Or.inr hstd

/-- A pipe changes without closing an end. -/
theorem Paired.setPipe (h : Paired std H B) (hb : B b = some pb) (hr : pb'.reading = pb.reading)
    (hw : pb'.writing = pb.writing) : Paired std H (Function.update B b (some pb')) := by
  have hopen : ∀ t, pb'.isOpen t = pb.isOpen t := by
    intro t
    cases t with
    | pipeReader => exact hr
    | pipeWriter => exact hw
    | screen => rfl
    | file => rfl
    | dir => rfl
  have hold : ∀ c x, Function.update B b (some pb') c = some x →
      ∃ x₀, B c = some x₀ ∧ (∀ t, x.isOpen t = x₀.isOpen t) := by
    intro c x hx
    rcases update_eq_some hx with ⟨rfl, rfl⟩ | ⟨-, hx⟩
    · exact ⟨pb, hb, hopen⟩
    · exact ⟨x, hx, fun _ => rfl⟩
  have hnew : ∀ c x, B c = some x →
      ∃ x', Function.update B b (some pb') c = some x' ∧ ∀ t, x'.isOpen t = x.isOpen t := by
    intro c x hx
    by_cases hc : c = b
    · obtain rfl : x = pb := Option.some.inj (hx.symm.trans (hc ▸ hb))
      exact ⟨pb', by rw [hc, Function.update_self], hopen⟩
    · exact ⟨x, by rw [Function.update_of_ne hc, hx], fun _ => rfl⟩
  refine ⟨?_, h.inj, ?_, ?_, ?_⟩
  · intro a fh hfh hpipe
    obtain ⟨x, hx, ho, hs⟩ := h.ends a fh hfh hpipe
    obtain ⟨x', hx', ho'⟩ := hnew _ x hx
    exact ⟨x', hx', (ho' _).trans ho, hs⟩
  · intro c x t hx hopen'
    obtain ⟨x₀, hx₀, ho⟩ := hold c x hx
    exact h.held c x₀ t hx₀ ((ho t).symm.trans hopen')
  · intro c x hx
    obtain ⟨x₀, hx₀, ho⟩ := hold c x hx
    have hr₀ : x.reading = x₀.reading := ho .pipeReader
    have hw₀ : x.writing = x₀.writing := ho .pipeWriter
    rw [hr₀, hw₀]
    exact h.opened c x₀ hx₀
  · intro c hc
    obtain ⟨x, hx, hw₀⟩ := h.std c hc
    obtain ⟨x', hx', ho⟩ := hnew c x hx
    exact ⟨x', hx', (ho .pipeWriter).trans hw₀⟩

/-- A handle that is not for a pipe appears. -/
theorem Paired.addPlain (h : Paired std H B) (ha : H a = none) (ht : fh.type.isPipe = false) :
    Paired std (Function.update H a (some fh)) B := by
  have hold : ∀ a' g, Function.update H a (some fh) a' = some g → g.type.isPipe = true →
      H a' = some g := by
    intro a' g hg hpipe
    rcases update_eq_some hg with ⟨-, rfl⟩ | ⟨-, hg⟩
    · rw [ht] at hpipe
      cases hpipe
    · exact hg
  refine ⟨?_, ?_, ?_, h.opened, h.std⟩
  · intro a' g hg hpipe
    exact h.ends a' g (hold a' g hg hpipe) hpipe
  · intro a₁ a₂ g₁ g₂ h₁ h₂ hpipe htt hpp
    exact h.inj a₁ a₂ g₁ g₂ (hold a₁ g₁ h₁ hpipe) (hold a₂ g₂ h₂ (htt ▸ hpipe)) hpipe htt hpp
  · intro b pb t hb hopen
    rcases h.held b pb t hb hopen with ⟨a', g, hg, htg, hpg⟩ | hstd
    · left
      have hne : a' ≠ a := by
        intro he
        rw [he, ha] at hg
        cases hg
      exact ⟨a', g, (Function.update_of_ne hne _ _).trans hg, htg, hpg⟩
    · exact Or.inr hstd

/-- A handle that is not for a pipe goes. -/
theorem Paired.dropPlain (h : Paired std H B) (hfh : H a = some fh) (ht : fh.type.isPipe = false) :
    Paired std (Function.update H a none) B := by
  have hold : ∀ a' g, Function.update H a none a' = some g → H a' = some g :=
    fun _ _ hg => (update_none_eq_some hg).2
  refine ⟨fun a' g hg => h.ends a' g (hold a' g hg), ?_, ?_, h.opened, h.std⟩
  · intro a₁ a₂ g₁ g₂ h₁ h₂
    exact h.inj a₁ a₂ g₁ g₂ (hold a₁ g₁ h₁) (hold a₂ g₂ h₂)
  · intro b pb t hb hopen
    rcases h.held b pb t hb hopen with ⟨a', g, hg, htg, hpg⟩ | hstd
    · left
      have hne : a' ≠ a := by
        intro he
        obtain rfl : g = fh := Option.some.inj (hg.symm.trans (he ▸ hfh))
        have hpipe := isOpen_isPipe hopen
        rw [← htg, ht] at hpipe
        cases hpipe
      exact ⟨a', g, (Function.update_of_ne hne _ _).trans hg, htg, hpg⟩
    · exact Or.inr hstd

/-- The pipe with one end closed.  Closing the writer sends the blocked reader away. -/
def PipeBuffer.shut (pb : PipeBuffer) : FhType → PipeBuffer
  | .pipeReader => { pb with reading := false }
  | .pipeWriter => { pb with writing := false, readpid := none }
  | _ => pb

/-- What is left of it: nothing if both ends are closed. -/
def PipeBuffer.afterShut (pb : PipeBuffer) (t : FhType) : Option PipeBuffer :=
  if (pb.shut t).reading = false ∧ (pb.shut t).writing = false then none else some (pb.shut t)

theorem isOpen_shut_self (pb : PipeBuffer) (t : FhType) : (pb.shut t).isOpen t = false := by
  cases t <;> rfl

theorem isOpen_shut_of_ne {t' : FhType} (h : t' ≠ t) : (pb.shut t).isOpen t' = pb.isOpen t' := by
  cases t <;> cases t' <;> first | rfl | exact absurd rfl h

theorem afterShut_eq_some {x : PipeBuffer} (h : pb.afterShut t = some x) :
    x = pb.shut t ∧ (x.reading = true ∨ x.writing = true) := by
  unfold PipeBuffer.afterShut at h
  split at h
  · cases h
  · rename_i hne
    obtain rfl := Option.some.inj h
    refine ⟨rfl, ?_⟩
    rw [not_and_or, Bool.not_eq_false, Bool.not_eq_false] at hne
    exact hne

/-- **Closing an end** together with its handle. -/
theorem Paired.dropEnd (h : Paired std H B) (hfh : H a = some fh) (ht : fh.type.isPipe = true)
    (hb : B fh.p = some pb) :
    Paired std (Function.update H a none) (Function.update B fh.p (pb.afterShut fh.type)) := by
  have hwriter : fh.type = .pipeWriter → std fh.p = false := by
    obtain ⟨x, -, -, hs⟩ := h.ends a fh hfh ht
    exact hs
  refine ⟨?_, ?_, ?_, ?_, ?_⟩
  · intro a' g hg hpipe
    obtain ⟨hne, hg'⟩ := update_none_eq_some hg
    obtain ⟨x, hx, hopen, hs⟩ := h.ends a' g hg' hpipe
    by_cases hp : g.p = fh.p
    · -- the other end of the same pipe stays open
      have htype : g.type ≠ fh.type := fun he => hne (h.inj a a' fh g hfh hg' ht he hp)
      obtain rfl : x = pb := Option.some.inj (hx.symm.trans (hp ▸ hb))
      have hopen' : (x.shut fh.type).isOpen g.type = true :=
        (isOpen_shut_of_ne htype).trans hopen
      have hsome : x.afterShut fh.type = some (x.shut fh.type) := by
        unfold PipeBuffer.afterShut
        rw [if_neg]
        rintro ⟨hr, hw⟩
        cases hgt : g.type with
        | pipeReader =>
          rw [hgt] at hopen'
          rw [show (x.shut fh.type).reading = true from hopen'] at hr
          cases hr
        | pipeWriter =>
          rw [hgt] at hopen'
          rw [show (x.shut fh.type).writing = true from hopen'] at hw
          cases hw
        | screen =>
          rw [hgt] at hpipe
          cases hpipe
        | file =>
          rw [hgt] at hpipe
          cases hpipe
        | dir =>
          rw [hgt] at hpipe
          cases hpipe
      exact ⟨_, by rw [hp, Function.update_self, hsome], hopen', hs⟩
    · exact ⟨x, by rw [Function.update_of_ne hp, hx], hopen, hs⟩
  · intro a₁ a₂ g₁ g₂ h₁ h₂
    exact h.inj a₁ a₂ g₁ g₂ (update_none_eq_some h₁).2 (update_none_eq_some h₂).2
  · intro c x t hx hopen
    by_cases hc : c = fh.p
    · rw [hc, Function.update_self] at hx
      obtain ⟨rfl, -⟩ := afterShut_eq_some hx
      have htne : t ≠ fh.type := by
        intro he
        rw [he, isOpen_shut_self] at hopen
        cases hopen
      rw [isOpen_shut_of_ne htne] at hopen
      rcases h.held fh.p pb t hb hopen with ⟨a', g, hg, htg, hpg⟩ | hstd
      · left
        have hne : a' ≠ a := by
          intro he
          obtain rfl : g = fh := Option.some.inj (hg.symm.trans (he ▸ hfh))
          exact htne htg.symm
        exact ⟨a', g, (Function.update_of_ne hne _ _).trans hg, htg, hpg.trans hc.symm⟩
      · exact Or.inr (hc ▸ hstd)
    · rw [Function.update_of_ne hc] at hx
      rcases h.held c x t hx hopen with ⟨a', g, hg, htg, hpg⟩ | hstd
      · left
        have hne : a' ≠ a := by
          intro he
          obtain rfl : g = fh := Option.some.inj (hg.symm.trans (he ▸ hfh))
          exact hc hpg.symm
        exact ⟨a', g, (Function.update_of_ne hne _ _).trans hg, htg, hpg⟩
      · exact Or.inr hstd
  · intro c x hx
    by_cases hc : c = fh.p
    · rw [hc, Function.update_self] at hx
      exact (afterShut_eq_some hx).2
    · rw [Function.update_of_ne hc] at hx
      exact h.opened c x hx
  · intro c hc
    obtain ⟨x, hx, hw⟩ := h.std c hc
    by_cases hcp : c = fh.p
    · -- a pipe of `start_process` has no writer, so its reader goes
      have hreader : fh.type = .pipeReader := by
        cases hty : fh.type with
        | pipeReader => rfl
        | pipeWriter =>
          rw [hcp, hwriter hty] at hc
          cases hc
        | screen =>
          rw [hty] at ht
          cases ht
        | file =>
          rw [hty] at ht
          cases ht
        | dir =>
          rw [hty] at ht
          cases ht
      obtain rfl : x = pb := Option.some.inj (hx.symm.trans (hcp ▸ hb))
      refine ⟨x.shut fh.type, ?_, ?_⟩
      · rw [hcp, Function.update_self, hreader]
        unfold PipeBuffer.afterShut
        rw [if_neg]
        rintro ⟨-, hw'⟩
        rw [show (x.shut .pipeReader).writing = true from hw] at hw'
        cases hw'
      · rw [hreader]
        exact hw
    · exact ⟨x, by rw [Function.update_of_ne hcp, hx], hw⟩

/-- **A new pipe** with a reader, as `start_process` makes it. -/
theorem Paired.addStd (h : Paired std H B) (hb : B b = none) (ha : H a = none) (hr : pb.reading = true)
    (hw : pb.writing = true) (ht : fh.type = .pipeReader) (hp : fh.p = b) :
    Paired (Function.update std b true) (Function.update H a (some fh))
      (Function.update B b (some pb)) := by
  have hne : ∀ {c x}, B c = some x → c ≠ b := by
    intro c x hx he
    rw [he, hb] at hx
    cases hx
  refine ⟨?_, ?_, ?_, ?_, ?_⟩
  · intro a' g hg hpipe
    rcases update_eq_some hg with ⟨-, rfl⟩ | ⟨-, hg'⟩
    · refine ⟨pb, by rw [hp, Function.update_self], by rw [ht]; exact hr, ?_⟩
      intro hty
      rw [ht] at hty
      cases hty
    · obtain ⟨x, hx, hopen, hs⟩ := h.ends a' g hg' hpipe
      refine ⟨x, by rw [Function.update_of_ne (hne hx), hx], hopen, ?_⟩
      rw [Function.update_of_ne (hne hx)]
      exact hs
  · -- an old handle is for a pipe that was there before
    have hfresh : ∀ a' g, H a' = some g → g.type.isPipe = true → g.p ≠ b := by
      intro a' g hg hpipe
      obtain ⟨x, hx, -⟩ := h.ends a' g hg hpipe
      exact hne hx
    intro a₁ a₂ g₁ g₂ h₁ h₂ hpipe htt hpp
    rcases update_eq_some h₁ with ⟨rfl, rfl⟩ | ⟨-, h₁'⟩
    · rcases update_eq_some h₂ with ⟨rfl, -⟩ | ⟨-, h₂'⟩
      · rfl
      · exact absurd (hpp.trans hp) (hfresh a₂ g₂ h₂' (htt ▸ hpipe))
    · rcases update_eq_some h₂ with ⟨-, rfl⟩ | ⟨-, h₂'⟩
      · exact absurd (hpp.symm.trans hp) (hfresh a₁ g₁ h₁' hpipe)
      · exact h.inj a₁ a₂ g₁ g₂ h₁' h₂' hpipe htt hpp
  · intro c x t hx hopen
    by_cases hc : c = b
    · cases t with
      | pipeReader => exact Or.inl ⟨a, fh, Function.update_self _ _ _, ht, hp.trans hc.symm⟩
      | pipeWriter => exact Or.inr ⟨rfl, by rw [hc, Function.update_self]⟩
      | screen => cases hopen
      | file => cases hopen
      | dir => cases hopen
    · rw [Function.update_of_ne hc] at hx ⊢
      rcases h.held c x t hx hopen with ⟨a', g, hg, htg, hpg⟩ | hstd
      · left
        have haa : a' ≠ a := by
          intro he
          rw [he, ha] at hg
          cases hg
        exact ⟨a', g, (Function.update_of_ne haa _ _).trans hg, htg, hpg⟩
      · exact Or.inr hstd
  · intro c x hx
    rcases update_eq_some hx with ⟨-, rfl⟩ | ⟨-, hx⟩
    · exact Or.inl hr
    · exact h.opened c x hx
  · intro c hc
    by_cases hcb : c = b
    · exact ⟨pb, by rw [hcb, Function.update_self], hw⟩
    · rw [Function.update_of_ne hcb] at hc ⊢
      exact h.std c hc

/-- **A writer** for a pipe that has none, as `pipe` adds it. -/
theorem Paired.addWriter (h : Paired std H B) (hstd : std b = true) (ha : H a = none)
    (ht : fh.type = .pipeWriter) (hp : fh.p = b) :
    Paired (Function.update std b false) (Function.update H a (some fh)) B := by
  obtain ⟨pb, hb, hw⟩ := h.std b hstd
  have hfalse : ∀ c, std c = false → Function.update std b false c = false := by
    intro c hc
    by_cases hcb : c = b
    · rw [hcb, Function.update_self]
    · rw [Function.update_of_ne hcb, hc]
  -- no old handle is a writer of this pipe
  have hfresh : ∀ a' g, H a' = some g → g.type = .pipeWriter → g.p ≠ b := by
    intro a' g hg hty hpb
    obtain ⟨x, -, -, hs⟩ := h.ends a' g hg (by rw [hty]; rfl)
    rw [hpb, hstd] at hs
    cases hs hty
  refine ⟨?_, ?_, ?_, h.opened, ?_⟩
  · intro a' g hg hpipe
    rcases update_eq_some hg with ⟨-, rfl⟩ | ⟨-, hg'⟩
    · refine ⟨pb, by rw [hp, hb], by rw [ht]; exact hw, ?_⟩
      intro _
      rw [hp, Function.update_self]
    · obtain ⟨x, hx, hopen, hs⟩ := h.ends a' g hg' hpipe
      exact ⟨x, hx, hopen, fun hty => hfalse _ (hs hty)⟩
  · intro a₁ a₂ g₁ g₂ h₁ h₂ hpipe htt hpp
    rcases update_eq_some h₁ with ⟨rfl, rfl⟩ | ⟨-, h₁'⟩
    · rcases update_eq_some h₂ with ⟨rfl, -⟩ | ⟨-, h₂'⟩
      · rfl
      · exact absurd (hpp.trans hp) (hfresh a₂ g₂ h₂' (htt.trans ht))
    · rcases update_eq_some h₂ with ⟨-, rfl⟩ | ⟨-, h₂'⟩
      · exact absurd (hpp.symm.trans hp) (hfresh a₁ g₁ h₁' (htt.symm.trans ht))
      · exact h.inj a₁ a₂ g₁ g₂ h₁' h₂' hpipe htt hpp
  · intro c x t hx hopen
    rcases h.held c x t hx hopen with ⟨a', g, hg, htg, hpg⟩ | ⟨rfl, hc⟩
    · left
      have haa : a' ≠ a := by
        intro he
        rw [he, ha] at hg
        cases hg
      exact ⟨a', g, (Function.update_of_ne haa _ _).trans hg, htg, hpg⟩
    · by_cases hcb : c = b
      · exact Or.inl ⟨a, fh, Function.update_self _ _ _, ht, hp.trans hcb.symm⟩
      · exact Or.inr ⟨rfl, by rw [Function.update_of_ne hcb, hc]⟩
  · intro c hc
    by_cases hcb : c = b
    · rw [hcb, Function.update_self] at hc
      cases hc
    · rw [Function.update_of_ne hcb] at hc
      exact h.std c hc

end AdelaideOS.Kernel
