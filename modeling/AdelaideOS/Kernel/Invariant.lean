import AdelaideOS.Kernel.Lifecycle
import AdelaideOS.Kernel.Segments
import AdelaideOS.Process.Invariant

/-!
# The invariant of processes and their memory

`Safe m forked S P sp asp` ties the scheduler `S`, the pages `P` and the ranges `sp` together: the live frames
are divided among the address spaces `asp p` of the processes that have not exited, each of them maps exactly the
three segments of its process for the user, and its kernel mappings are those that `start_process` or `fork`
makes, as `forked` tells.

Each operation has one lemma that says how it carries the invariant along; that the operation succeeds on the
pages is part of the proof, not of the hypotheses.
-/

namespace AdelaideOS.Kernel

open AdelaideOS.Lib.Bytes AdelaideOS.Lib.Triple AdelaideOS.Page AdelaideOS.Process

/-- The processes that have not exited. -/
def livePids (S : Sched) : Finset ℕ := (Finset.Ico 1 MAX_PROCESSES).filter S.Live

structure Safe (m : Machine) (forked : ℕ → Bool) (S : Sched) (P : Pages) (sp : ℕ → Space)
    (asp : ℕ → Aspace) : Prop where
  good : Good S
  spaces : Spaces P (livePids S) (fun p => (sp p).pdir) asp
  shaped : ∀ p, S.Live p → ∃ t d, Shaped (sp p) (asp p) t d
  kern : ∀ p, S.Live p → (asp p).kern = if forked p then forkKern else startKern m

variable {m : Machine} {forked : ℕ → Bool} {S S' : Sched} {P P' : Pages} {sp : ℕ → Space}
  {asp : ℕ → Aspace} {p q : ℕ}

theorem mem_livePids (h : Good S) : p ∈ livePids S ↔ S.Live p := by
  obtain ⟨R, U, hI⟩ := h
  rw [livePids, Finset.mem_filter, Finset.mem_Ico]
  constructor
  · exact fun hp => hp.2
  · exact fun hp => ⟨hI.range p hp.1, hp⟩

theorem card_livePids (S : Sched) : (livePids S).card ≤ 31 :=
  (Finset.card_filter_le _ _).trans (by simp [Nat.card_Ico])

theorem Safe.mem (h : Safe m forked S P sp asp) (hp : S.Live p) : p ∈ livePids S :=
  (mem_livePids h.good).mpr hp

/-- The frames of one process and those of the others. -/
theorem Safe.owns (h : Safe m forked S P sp asp) (hp : S.Live p) :
    Owns P (sp p).pdir (asp p)
      (framesOf ((livePids S).erase p) (fun q => (sp q).pdir) asp) :=
  h.spaces.owns (h.mem hp)

/-- The frames in use. -/
theorem Safe.live_le (h : Safe m forked S P sp asp) : P.live.length ≤ 79887 := by
  have hlen := h.spaces.live_length (u := 1552) fun p hp => by
    obtain ⟨t, d, hs⟩ := h.shaped p ((mem_livePids h.good).mp hp)
    exact hs.card_le
  have hcard := card_livePids S
  have hmul : (livePids S).card * (1025 + 1552) ≤ 31 * (1025 + 1552) := Nat.mul_le_mul_right _ hcard
  omega

/-- There is always room for another process. -/
theorem Safe.room (h : Safe m forked S P sp asp) : P.live.length + 5000 ≤ FRAMES := by
  have hlen := h.live_le
  simp only [FRAMES]
  omega

/-! ### Operations of the scheduler -/

theorem livePids_congr (h : ∀ q, S'.Live q ↔ S.Live q) : livePids S' = livePids S := by
  ext q
  rw [livePids, livePids, Finset.mem_filter, Finset.mem_filter, h q]

/-- No process is created or ended. -/
theorem Safe.sched (h : Safe m forked S P sp asp) (hG : Good S') (hlive : ∀ q, S'.Live q ↔ S.Live q) :
    Safe m forked S' P sp asp := by
  refine ⟨hG, ?_, ?_, ?_⟩
  · rw [livePids_congr hlive]
    exact h.spaces
  · intro q hq
    exact h.shaped q ((hlive q).mp hq)
  · intro q hq
    exact h.kern q ((hlive q).mp hq)

theorem live_install {v : Proc} (hex : v.exists_ = true) (hexit : v.exited = false) (q : ℕ) :
    (install S p v).Live q ↔ q = p ∨ S.Live q := by
  by_cases hq : q = p
  · simp [Sched.Live, hq, hex, hexit]
  · simp [Sched.Live, hq]

theorem not_live_of_free (h : getFreePid S = some p) : ¬ S.Live p := by
  intro hlive
  have hfree := (getFreePid_spec h).2.2
  rw [hlive.1] at hfree
  cases hfree

theorem livePids_install {v : Proc} (hp : getFreePid S = some p) (hex : v.exists_ = true)
    (hexit : v.exited = false) : livePids (install S p v) = insert p (livePids S) := by
  obtain ⟨h1, h32, -⟩ := getFreePid_spec hp
  ext q
  rw [livePids, Finset.mem_filter, live_install hex hexit, Finset.mem_insert, livePids,
    Finset.mem_filter, Finset.mem_Ico]
  constructor
  · rintro ⟨hq, rfl | hlive⟩
    · exact Or.inl rfl
    · exact Or.inr ⟨hq, hlive⟩
  · rintro (rfl | ⟨hq, hlive⟩)
    · exact ⟨⟨h1, h32⟩, Or.inl rfl⟩
    · exact ⟨hq, Or.inr hlive⟩

/-- A new process with its own address space. -/
theorem Safe.install {v : Proc} {s : Space} {A : Aspace} {t d : ℕ} (b : Bool)
    (h : Safe m forked S P sp asp) (hp : getFreePid S = some p) (hG : Good (install S p v))
    (hex : v.exists_ = true) (hexit : v.exited = false)
    (hO : Owns P' s.pdir A (framesOf (livePids S) (fun q => (sp q).pdir) asp))
    (hK : Keeps (framesOf (livePids S) (fun q => (sp q).pdir) asp) P P')
    (hs : Shaped s A t d) (hkern : A.kern = if b then forkKern else startKern m) :
    Safe m (Function.update forked p b) (Process.install S p v) P' (Function.update sp p s)
      (Function.update asp p A) := by
  have hdead := not_live_of_free hp
  have hne : ∀ {q}, S.Live q → q ≠ p := by
    intro q hq hqp
    rw [hqp] at hq
    exact hdead hq
  have hadd := h.spaces.add (fun hmem => hdead ((mem_livePids h.good).mp hmem)) hO hK
  refine ⟨hG, ?_, ?_, ?_⟩
  · rw [livePids_install hp hex hexit]
    refine hadd.congr ?_ fun _ _ => rfl
    intro q _
    by_cases hqp : q = p
    · rw [hqp]
      simp
    · simp [hqp]
  · intro q hq
    by_cases hqp : q = p
    · rw [hqp, Function.update_self, Function.update_self]
      exact ⟨t, d, hs⟩
    · rw [Function.update_of_ne hqp, Function.update_of_ne hqp]
      exact h.shaped q (((live_install hex hexit q).mp hq).resolve_left hqp)
  · intro q hq
    by_cases hqp : q = p
    · rw [hqp, Function.update_self, Function.update_self]
      exact hkern
    · rw [Function.update_of_ne hqp, Function.update_of_ne hqp]
      exact h.kern q (((live_install hex hexit q).mp hq).resolve_left hqp)

/-- **`start_process`.** -/
theorem Safe.start {pdir startAddress : ℕ} (h : Safe m forked S P sp asp)
    (hp : getFreePid S = some p) (hok : startPages m P = .ok (pdir, P')) :
    ∃ asp', Safe m (Function.update forked p false)
      (Process.install S p (startedProc p startAddress)) P'
      (Function.update sp p (initialSpace pdir)) asp' := by
  obtain ⟨frees, hA⟩ := h.spaces.alloc
  obtain ⟨pdir', P₁, A, hok', hO, hK, hus, hkern⟩ := startPages_spec m hA h.spaces.live h.room
  rw [hok] at hok'
  cases hok'
  have hG : Good (Process.install S p (startedProc p startAddress)) := by
    refine h.good.install hp rfl rfl rfl ?_
    intro q hq
    cases hq
  exact ⟨_, h.install (s := initialSpace pdir) false hp hG rfl rfl hO hK (shaped_initial pdir hus) hkern⟩

/-- The copy that `fork` makes succeeds. -/
theorem Safe.forkPages_ok (h : Safe m forked S P sp asp) (hlive : S.Live p) :
    ∃ pdir P' A, forkPages (sp p) P = .ok (pdir, P') ∧
      Owns P' pdir A (framesOf (livePids S) (fun q => (sp q).pdir) asp) ∧
      Keeps (framesOf (livePids S) (fun q => (sp q).pdir) asp) P P' ∧ A.us = (asp p).us ∧
      A.kern = forkKern ∧ ∀ n ∈ (asp p).us, ∀ i < PAGE_SIZE, P'.mem (A.fr n + i) = P.mem ((asp p).fr n + i) := by
  obtain ⟨t, d, hs⟩ := h.shaped p hlive
  obtain ⟨pdir, P', A, hok, hO, hK, hus, hkern, hbytes⟩ := forkPages_spec (h.owns hlive) hs h.room
  have hall := framesOf_erase (h.mem hlive) (fun q => (sp q).pdir) asp
  rw [← hall] at hO hK
  rw [← hs.us] at hus hbytes
  exact ⟨pdir, P', A, hok, hO, hK, hus, hkern, hbytes⟩

/-- **`fork`.** -/
theorem Safe.fork {pdir child : ℕ} {r : Regs} (h : Safe m forked S P sp asp) (hlive : S.Live p)
    (hc : getFreePid S = some child) (hok : forkPages (sp p) P = .ok (pdir, P')) :
    ∃ asp', Safe m (Function.update forked child true)
      (Process.install S child (forkedProc S p child r)) P'
      (Function.update sp child { sp p with pdir := pdir }) asp' := by
  obtain ⟨t, d, hs⟩ := h.shaped p hlive
  obtain ⟨pdir', P₁, A, hok', hO, hK, hus, hkern, -⟩ := h.forkPages_ok hlive
  rw [hok] at hok'
  cases hok'
  have hG : Good (Process.install S child (forkedProc S p child r)) := by
    have hfork : Process.syscallFork S p r =
        .ok ((child : ℤ), Process.install S child (forkedProc S p child r)) := by
      unfold Process.syscallFork
      rw [hc]
    exact h.good.fork hlive hfork
  have hs' : Shaped { sp p with pdir := pdir } A t d :=
    ⟨hs.text_le, hs.data_le, hs.textStart, hs.textEnd, hs.dataStart, hs.dataEnd, hs.stackStart,
      hs.stackEnd, by rw [hus, hs.us]⟩
  exact ⟨_, h.install (s := { sp p with pdir := pdir }) true hc hG rfl rfl hO hK hs' hkern⟩

/-- One process is gone, and its frames are given back. -/
theorem Safe.remove (h : Safe m forked S P sp asp) (hlive : S.Live q) (hG : Good S')
    (hlive' : ∀ c, S'.Live c ↔ S.Live c ∧ c ≠ q) (hP : releasePages (sp q) P = .ok ((), P')) :
    Safe m forked S' P' sp asp := by
  obtain ⟨t, d, hs⟩ := h.shaped q hlive
  obtain ⟨P₁, frees, hok, hA, hl, hK⟩ := releasePages_spec (h.owns hlive) hs
  rw [hP] at hok
  cases hok
  have hpids : livePids S' = (livePids S).erase q := by
    ext c
    rw [Finset.mem_erase, livePids, Finset.mem_filter, livePids, Finset.mem_filter, hlive' c]
    tauto
  refine ⟨hG, ?_, ?_, ?_⟩
  · rw [hpids]
    exact h.spaces.remove hA hl hK
  · intro c hc
    exact h.shaped c ((hlive' c).mp hc).1
  · intro c hc
    exact h.kern c ((hlive' c).mp hc).1

/-- **`kill_process`.** -/
theorem Safe.kill (h : Safe m forked S P sp asp) (hlive : S.Live q)
    (hS : Process.killProcess S q = .ok S') (hP : releasePages (sp q) P = .ok ((), P')) :
    Safe m forked S' P' sp asp :=
  h.remove hlive (h.good.kill hlive.1 hS) (live_of_buried (killProcess_ok hS).1) hP

/-- One address space changes. -/
theorem Safe.change {s : Space} {A : Aspace} {t d : ℕ} (h : Safe m forked S P sp asp) (hlive : S.Live p)
    (hO : Owns P' s.pdir A (framesOf ((livePids S).erase p) (fun q => (sp q).pdir) asp))
    (hK : Keeps (framesOf ((livePids S).erase p) (fun q => (sp q).pdir) asp) P P')
    (hs : Shaped s A t d) (hkern : A.kern = (asp p).kern) :
    Safe m forked S P' (Function.update sp p s) (Function.update asp p A) := by
  have hchange := h.spaces.change (h.mem hlive) hO hK
  refine ⟨h.good, hchange.congr ?_ fun _ _ => rfl, ?_, ?_⟩
  · intro q _
    by_cases hqp : q = p
    · rw [hqp]
      simp
    · simp [hqp]
  · intro q hq
    by_cases hqp : q = p
    · rw [hqp, Function.update_self, Function.update_self]
      exact ⟨t, d, hs⟩
    · rw [Function.update_of_ne hqp, Function.update_of_ne hqp]
      exact h.shaped q hq
  · intro q hq
    by_cases hqp : q = p
    · rw [hqp, Function.update_self, hkern]
      exact h.kern p hlive
    · rw [Function.update_of_ne hqp]
      exact h.kern q hq

/-- **Stores** into the memory of one process. -/
theorem Safe.scribbles (h : Safe m forked S P sp asp) (hlive : S.Live p)
    (hsc : Scribbles (sp p).pdir P P') : Safe m forked S P' sp asp := by
  obtain ⟨t, d, hs⟩ := h.shaped p hlive
  obtain ⟨hO, hK⟩ := (h.owns hlive).scribbles hsc
  have hchange := h.change (s := sp p) hlive hO hK hs rfl
  rw [Function.update_eq_self, Function.update_eq_self] at hchange
  exact hchange

/-- **`brk`.** -/
theorem Safe.brk {a : ℕ} (h : Safe m forked S P sp asp) (hlive : S.Live p)
    (hmax : a ≤ PROCESS_DATA_BASE + PROCESS_DATA_MAX) (hlt : (sp p).dataEnd < a)
    (hok : mapNewPages P (sp p).pdir (sp p).dataEnd
      ((roundUp a + wordSize - (sp p).dataEnd) % wordSize / PAGE_SIZE) = .ok P') :
    ∃ asp', Safe m forked S P' (Function.update sp p { sp p with dataEnd := roundUp a }) asp' := by
  obtain ⟨t, d, hs⟩ := h.shaped p hlive
  have hd := hs.dataEnd
  -- the new end in pages
  obtain ⟨d', hle, hle', hround, hcount⟩ : ∃ d', d ≤ d' ∧ d' ≤ MAX_DATA ∧
      roundUp a = PAGE_SIZE * (DATA_PAGE + d') ∧
      (roundUp a + wordSize - (sp p).dataEnd) % wordSize / PAGE_SIZE = d' - d := by
    refine ⟨(a + 4095) / PAGE_SIZE - DATA_PAGE, ?_, ?_, ?_, ?_⟩ <;>
      rw [hd] at hlt <;>
      simp only [roundUp, hd, PAGE_SIZE, DATA_PAGE, MAX_DATA, PROCESS_DATA_BASE, PROCESS_DATA_MAX, MB,
        wordSize] at * <;>
      try split
    all_goals omega
  obtain ⟨P₁, A, hok', hO, hK, hs', hkern⟩ := brkPages_spec (h.owns hlive) hs hle hle' h.room
  rw [hcount, hok'] at hok
  cases hok
  rw [hround]
  exact ⟨_, h.change (s := { sp p with dataEnd := PAGE_SIZE * (DATA_PAGE + d') }) hlive hO hK hs' hkern⟩

/-- **`execve`.** -/
theorem Safe.exec {path : List UInt8} {entry : ℕ} (h : Safe m forked S P sp asp) (hlive : S.Live p)
    (hentry : getDirectoryEntry m.filesystem path = .ok (.ok entry))
    (hok : execPages m.filesystem entry (sp p) P = .ok ((), P')) :
    ∃ asp', Safe m forked S P' (Function.update sp p (execSpace m.filesystem entry (sp p))) asp' := by
  obtain ⟨t, d, hs⟩ := h.shaped p hlive
  obtain ⟨P₁, A, hok', hO, hK, hs', hkern, -⟩ := execPages_spec (h.owns hlive) hs
    (programPages_le m hentry) h.room
  rw [hok'] at hok
  cases hok
  exact ⟨_, h.change (s := execSpace m.filesystem entry (sp p)) hlive hO hK hs' hkern⟩

end AdelaideOS.Kernel
