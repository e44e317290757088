import AdelaideOS.Kernel.Atomic
import AdelaideOS.Kernel.Buffers
import AdelaideOS.Kernel.Zombies

/-!
# Calls that can fail for lack of memory only

`Whole` has excluded the failed assertions about lists, descriptors, pipes and heap blocks.  What is left are the faults of
`Benign`: wild pointers, page faults, endless loops, assertions about page tables, and the lack of memory.
`Endures x k` says that of these only the last can occur.

* **`Endures.bind`** — one computation after the other;
* **`endures_growPipe`** — a pipe grows by doubling, which ends;
* **`Active.write`**, **`Active.read`** — the two calls that move bytes.
-/

namespace AdelaideOS.Kernel

open AdelaideOS.Buddy AdelaideOS.Lib.Bytes AdelaideOS.Lib.Triple AdelaideOS.Lib.View AdelaideOS.Page AdelaideOS.Process

/-- Of the faults in `Benign`, only the lack of memory can occur. -/
def Endures {α : Type} (x : K α) (k : State) : Prop := ∀ e k', x k = .error e k' → Benign e → e = .memoryExhausted

variable {α β : Type} {m : Machine} {n : Notes} {B : Books} {C : Contents} {k k' : State} {p q a b count size : ℕ}
  {T : Table Use} {pb : PipeBuffer} {fh : Filehandle} {x : K α}

/-! ### Rules -/

theorem endures_of_ok {v : α} (h : x k = .ok v k') : Endures x k := by
  intro e k₁ he
  rw [h] at he
  cases he

theorem endures_pure (v : α) : Endures (pure v) k := endures_of_ok rfl

theorem endures_of_acts {ω : Type} {v : State → ω} {o : ω} {R : α → ω → Prop} (ho : v k = o)
    (h : Acts v (fun _ => False) o x R) : Endures x k :=
  fun _ _ he _ => (h.error ho he).elim

theorem Endures.bind {f : α → K β} (hx : Endures x k) (hf : ∀ v k', x k = .ok v k' → Endures (f v) k') :
    Endures (x >>= f) k := by
  intro e k₁ he hben
  cases hrun : x k with
  | ok v k₂ =>
    rw [run_bind hrun] at he
    exact hf v k₂ hrun e k₁ he hben
  | error e' k₂ =>
    rw [run_bind_error hrun] at he
    cases he
    exact hx e k₁ hrun hben

/-- A first part that is known to succeed. -/
theorem endures_after {f : α → K β} {v : α} (hx : x k = .ok v k') (hf : Endures (f v) k') : Endures (x >>= f) k := by
  intro e k₁ he
  rw [run_bind hx] at he
  exact hf e k₁ he

theorem endures_get {f : State → K α} (hf : Endures (f k) k) : Endures (get >>= f) k := hf

theorem Endures.ite {c : Prop} [Decidable c] {y : K α} (hx : c → Endures x k) (hy : ¬ c → Endures y k) :
    Endures (if c then x else y) k := by
  by_cases hc : c
  · rw [if_pos hc]
    exact hx hc
  · rw [if_neg hc]
    exact hy hc

theorem Endures.keep {x : K ℤ} (h : Endures x k) (r : Regs) : Endures (keep r x) k :=
  h.bind fun _ _ _ => endures_pure _

/-! ### The lists of processes -/

/-- No fault of `Benign`. -/
def Blunt (y : Except Fault α) : Prop := ∀ e, y = .error e → ¬ Benign e

theorem blunt_ok (v : α) : Blunt (.ok v : Except Fault α) := fun _ he => by cases he

theorem blunt_assert {site : Site} {c : Prop} [Decidable c] (h : site ∉ otherSites) : Blunt (assert site c) := by
  intro e he hben
  unfold assert at he
  split at he
  · cases he
  · cases he
    exact h (hben site rfl)

theorem Blunt.bind {y : Except Fault α} {f : α → Except Fault β} (hy : Blunt y) (hf : ∀ v, Blunt (f v)) :
    Blunt (y >>= f) := by
  intro e he
  cases hv : y with
  | error e' =>
    rw [hv] at he
    cases he
    exact hy e hv
  | ok v =>
    rw [hv] at he
    exact hf v e he

theorem blunt_suspend (S : Sched) (p : ℕ) : Blunt (suspendProcess S p) :=
  (blunt_assert (by decide)).bind fun _ => (blunt_assert (by decide)).bind fun _ => blunt_ok _

theorem blunt_resume (S : Sched) (p : ℕ) : Blunt (resumeProcess S p) :=
  (blunt_assert (by decide)).bind fun _ => (blunt_assert (by decide)).bind fun _ => blunt_ok _

theorem blunt_waitpid (S : Sched) (p : ℕ) (pid : ℤ) : Blunt (Process.syscallWaitpid S p pid) := by
  unfold Process.syscallWaitpid
  split
  · exact blunt_ok _
  · dsimp only
    split
    · exact blunt_ok _
    · split
      · exact blunt_ok _
      · exact (blunt_suspend _ p).bind fun _ => blunt_ok _

theorem endures_lift {y : Except Fault α} (hy : Blunt y) : Endures (lift y) k := by
  intro e k' he hben
  unfold lift at he
  cases hv : y with
  | ok v =>
    rw [hv] at he
    cases he
  | error e' =>
    rw [hv] at he
    cases he
    exact absurd hben (hy e hv)

theorem endures_schedDo {f : Sched → Except Fault Sched} (hf : ∀ S, Blunt (f S)) : Endures (schedDo f) k := by
  intro e k' he hben
  unfold schedDo at he
  cases hok : f k.sched with
  | ok S =>
    simp only [hok] at he
    cases he
  | error e' =>
    simp only [hok] at he
    cases he
    exact absurd hben (hf _ e hok)

/-! ### The heap -/

/-- The kernel heap holds some pieces. -/
def Heaped (k : State) : Prop := ∃ T : Table Use, Holds kernelRegion k.heap T

theorem Whole.heaped (h : Whole n C k.objects) : Heaped k := by
  obtain ⟨T, hS⟩ := h.tidy.stored
  exact ⟨T, hS.holds⟩

/-- A request of less than 2 GB is served or the machine stops for lack of memory. -/
theorem endures_kmalloc (h : Heaped k) (hsize : size < 2 ^ 31) : Endures (kmalloc size) k := by
  obtain ⟨T, hT⟩ := h
  intro e k' he _
  unfold kmalloc onHeap at he
  cases hok : buddyAlloc .kernel k.heap size with
  | ok r =>
    simp only [hok] at he
    cases he
  | error e' =>
    simp only [hok] at he
    cases he
    rcases hT.alloc_error hok with rfl | rfl
    · rfl
    · obtain ⟨live, free, hG, -⟩ := hT
      obtain ⟨j, -, -, -, hcase⟩ := hG.alloc_cases .kernel hsize
      rcases hcase with ⟨c, b, h', -, hok', -⟩ | ⟨-, hex⟩
      · rw [hok] at hok'
        cases hok'
      · rw [hok] at hex
        cases hex

theorem kmalloc_inv (hok : kmalloc size k = .ok a k') :
    ∃ h, buddyAlloc .kernel k.heap size = .ok (a, h) ∧ k' = { k with heap := h } := by
  unfold kmalloc onHeap at hok
  cases hrun : buddyAlloc .kernel k.heap size with
  | error e =>
    simp only [hrun] at hok
    cases hok
  | ok r =>
    simp only [hrun] at hok
    cases hok
    exact ⟨_, rfl, rfl⟩

theorem Heaped.kmalloc (h : Heaped k) (hok : Kernel.kmalloc size k = .ok a k') : Heaped k' := by
  obtain ⟨T, hT⟩ := h
  obtain ⟨heap, hrun, rfl⟩ := kmalloc_inv hok
  exact ⟨_, (hT.alloc hrun).2.2 .scratch⟩

/-! ### The memory of the caller -/

theorem Mapped.sound (h : Mapped m k) (hp : k.sched.Live p) : Sound k p := by
  obtain ⟨forked, asp, hsafe⟩ := h
  exact hsafe.sound hp

theorem endures_readUserBytes (h : Sound k p) (hr : (k.space p).Region a count) : Endures (readUserBytes p a count 0) k := by
  obtain ⟨k', hok, -⟩ := readUserBytes_ok (j := 0) (n := count) (a := a) h fun i hi => by
    rw [Nat.zero_add]
    exact hr i hi
  exact endures_of_ok hok

theorem endures_writeUserBytes (h : Mapped m k) (hp : k.sched.Live p) {bs : List UInt8}
    (hr : (k.space p).Region a bs.length) : Endures (writeUserBytes p a bs 0) k := by
  obtain ⟨P, log, hok⟩ := writeUserBytes_ok a bs 0 h hp fun i hi => by
    rw [Nat.zero_add]
    exact hr i hi
  exact endures_of_ok hok

/-- A range of the caller is small. -/
theorem Mapped.region_small (h : Mapped m k) (hp : k.sched.Live p) (ha : a < wordSize) (hc : count < wordSize)
    (hv : validPointer (k.space p) a count = true) : count ≤ PROCESS_DATA_MAX := by
  obtain ⟨forked, asp, hsafe⟩ := h
  obtain ⟨t, d, hs⟩ := hsafe.shaped p hp
  have htext := hs.text_le
  have hdata := hs.data_le
  rcases Nat.eq_zero_or_pos count with rfl | hpos
  · exact Nat.zero_le _
  have hend := (validPointer_inRange ha hc hv (i := 0) hpos).1
  unfold validPointer at hv
  rw [if_neg (by omega), Nat.mod_eq_of_lt hend, if_neg (by omega), hs.stackStart, hs.stackEnd, hs.dataStart, hs.dataEnd,
    hs.textStart, hs.textEnd] at hv
  simp only [PAGE_SIZE, MAX_TEXT, MAX_DATA, TEXT_PAGE, DATA_PAGE, STACK_PAGE, STACK_PAGES, PROCESS_DATA_MAX, MB] at *
  split_ifs at hv <;> omega

/-! ### Pipes -/

theorem run_lift {y : Except Fault α} {v : α} (hy : y = .ok v) : lift y k = .ok v k := by
  unfold lift
  rw [hy]

theorem endures_wakeUpReader (hb : k.pipes b = some pb) : Endures (wakeUpReader b) k := by
  refine endures_after (getPipe_ok hb) ?_
  cases pb.readpid with
  | none => exact endures_pure ()
  | some q => exact (endures_schedDo fun S => blunt_resume S q).bind fun _ k₁ _ => endures_of_ok rfl

/-- What a pipe holds is small. -/
theorem Whole.len_small (h : Whole n C k.objects) (hb : k.pipes b = some pb) : pb.len < 2 ^ 23 := by
  obtain ⟨T, hS⟩ := h.tidy.stored
  have hend : pb.data + pb.alloc ≤ kernelRegion.base + 2 ^ kernelRegion.upper := hS.holds.end_le (hS.data b pb hb)
  have hfits := hS.fits b pb hb
  have hlt : kernelRegion.base + 2 ^ kernelRegion.upper < 2 ^ 23 := by decide
  omega

/-- **Room in a pipe** for some more bytes. -/
theorem endures_growPipe (h : Whole n C k.objects) (hb : k.pipes b = some pb) (hample : Ample k.pipes)
    (hcount : count ≤ PROCESS_DATA_MAX) : Endures (growPipe b count) k := by
  obtain ⟨T, hS⟩ := h.tidy.stored
  have hlen := h.len_small hb
  have hpos := (hample b pb hb).pos
  simp only [BUFSIZE, PROCESS_DATA_MAX, MB] at hpos hcount
  unfold growPipe
  refine endures_after (getPipe_ok hb) ?_
  have hmod : (pb.len + count) % wordSize = pb.len + count := Nat.mod_eq_of_lt (by simp only [wordSize]; omega)
  rw [hmod]
  refine Endures.ite (fun hlt => ?_) fun _ => endures_pure pb
  obtain ⟨alloc, hgrow, hres⟩ : ∃ res, growLoop (pb.len + count) 33 pb.alloc = .ok res ∧
      (res = pb.alloc ∨ res < 2 * (pb.len + count)) := growLoop_ok (by omega) (by omega) (by omega)
  have hle := growLoop_room hgrow
  refine endures_after (run_lift hgrow) ((endures_kmalloc ⟨T, hS.holds⟩ (by omega)).bind fun data k₁ hok => ?_)
  obtain ⟨h₁, hrun, rfl⟩ := kmalloc_inv hok
  obtain ⟨h₂, T', hfree, -⟩ := hS.grow hb hrun (show pb.len ≤ alloc by omega)
  refine endures_get (endures_after (storeBlock_fits ?_) ?_)
  · rw [loadBytes_length]
    omega
  · exact endures_after (kfree_ok hfree) (endures_of_ok rfl)

theorem growPipe_room {pb' : PipeBuffer} (hb : k.pipes b = some pb) (hsmall : pb.len + count < wordSize)
    (hok : growPipe b count k = .ok pb' k') : pb'.len + count ≤ pb'.alloc := by
  unfold growPipe at hok
  rw [run_bind (getPipe_ok hb), Nat.mod_eq_of_lt hsmall] at hok
  split at hok
  · obtain ⟨alloc, k₁, hgrow, hok⟩ := bind_ok hok
    obtain ⟨data, k₂, -, hok⟩ := bind_ok hok
    rw [run_get] at hok
    obtain ⟨_, k₃, -, hok⟩ := bind_ok hok
    obtain ⟨_, k₄, -, hok⟩ := bind_ok hok
    obtain ⟨_, k₅, -, hok⟩ := bind_ok hok
    cases hok
    have hgrow' : growLoop (pb.len + count) 33 pb.alloc = .ok alloc := by
      unfold lift at hgrow
      split at hgrow
      · cases hgrow
        assumption
      · cases hgrow
    exact growLoop_room hgrow'
  · cases hok
    omega

/-- **`write_to_pipe`** of bytes that can be fetched. -/
theorem endures_writeToPipe {source : K (List UInt8)} (h : Whole n C k.objects) (hb : k.pipes b = some pb)
    (hample : Ample k.pipes) (hcount : count ≤ PROCESS_DATA_MAX)
    (hsource : ∀ k₁, k₁.outline = k.outline → Endures source k₁ ∧
      ∀ bs k₂, source k₁ = .ok bs k₂ → bs.length = count ∧ k₂.objects = k₁.objects) :
    Endures (writeToPipe b count source) k := by
  have hlen := h.len_small hb
  unfold writeToPipe
  refine (endures_growPipe h hb hample hcount).bind fun pb' k₁ hgrow => ?_
  have hroom := growPipe_room hb (show pb.len + count < wordSize by
    simp only [PROCESS_DATA_MAX, MB, wordSize] at *
    omega) hgrow
  have hout : k₁.outline = k.outline := (hidden_growPipe b count _).ok rfl hgrow
  obtain ⟨hfetch, hbytes⟩ := hsource k₁ hout
  refine hfetch.bind fun bs k₂ hok => ?_
  obtain ⟨hbs, -⟩ := hbytes bs k₂ hok
  refine endures_after (storeBlock_fits ?_) (endures_after (v := ()) rfl ?_)
  · rw [hbs]
    exact hroom
  · exact endures_wakeUpReader (Function.update_self _ _ _)

/-! ### Reading and writing -/

/-- A process whose call is being served. -/
structure Active (m : Machine) (n : Notes) (C : Contents) (p : ℕ) (k : State) : Prop where
  serving : Serving n C p k.objects
  mapped : Mapped m k
  ample : Ample k.pipes

theorem Active.live (h : Active m n C p k) : k.sched.Live p := h.serving.live

theorem Active.sound (h : Active m n C p k) : Sound k p := h.mapped.sound h.live

/-- A descriptor that is open has a handle. -/
theorem Active.handle {fd : ℤ} (h : Active m n C p k) (hl : lookupFd k p fd = some a) : ∃ fh, k.handles a = some fh := by
  obtain ⟨hlt, ha, -⟩ := lookupFd_eq_some hl
  exact h.serving.whole.tidy.counted.slot (s := (p, fd.toNat)) (h.serving.whole.mem_slots.mpr ⟨h.live, hlt⟩) ha

/-- Whether the ranges of a process are in order depends on pages and ranges only. -/
theorem Sound.elsewhere (h : Sound k p) (hpages : k'.pages = k.pages) (hspace : k'.space = k.space) : Sound k' p := by
  refine ⟨?_, ?_, ?_, ?_, ?_, ?_, ?_⟩ <;> rw [hspace]
  · exact h.text
  · exact h.text_lt
  · exact h.data
  · exact h.data_lt
  · exact h.stack
  · exact h.stack_le
  · intro x hx
    rw [h.mapped x hx]
    unfold physical
    rw [hpages, hspace]

theorem Active.write (h : Active m n C p k) (fd : ℤ) (ha : a < wordSize) (hc : count < wordSize) :
    Endures (syscallWrite p fd a count) k := by
  refine endures_get (Endures.ite (fun hv => ?_) fun _ => endures_pure _)
  have hr := (h.sound.validPointer_iff ha hc).mp hv
  cases hl : lookupFd k p fd with
  | none => exact endures_pure _
  | some c =>
    obtain ⟨fh, hfh⟩ := h.handle hl
    refine endures_after (getHandle_ok hfh) ?_
    unfold writeHandle
    cases hty : fh.type with
    | pipeReader => exact endures_pure _
    | file => exact endures_pure _
    | dir => exact endures_pure _
    | screen => exact (endures_readUserBytes h.sound hr).bind fun _ _ _ => endures_of_ok rfl
    | pipeWriter =>
      obtain ⟨pb, hpb⟩ := h.serving.whole.pipe_of hfh (by rw [hty]; rfl)
      have hsmall := h.mapped.region_small h.live ha hc hv
      refine (endures_writeToPipe h.serving.whole hpb h.ample hsmall fun k₁ hout => ⟨?_, fun bs k₂ hok => ?_⟩).bind
        fun _ _ _ => endures_pure _
      · apply endures_readUserBytes (h.sound.elsewhere (congrArg Outline.pages hout) (congrArg Outline.space hout))
        rw [show k₁.space = k.space from congrArg Outline.space hout]
        exact hr
      · obtain ⟨ho, hlen⟩ := (does_readUserBytes p a 0 k₁.objects).ok rfl hok
        exact ⟨hlen, ho⟩

theorem Active.takeFromPipe (h : Active m n C p k) (hb : k.pipes b = some pb) (hr : (k.space p).Region a count) :
    Endures (takeFromPipe p b pb a count) k := by
  obtain ⟨T, hS⟩ := h.serving.whole.tidy.stored
  have hfits := hS.fits b pb hb
  refine endures_get ((endures_writeUserBytes h.mapped h.live ?_).bind fun _ k₁ _ => endures_get ?_)
  · rw [loadBytes_length]
    exact hr.mono (by split <;> omega)
  · refine endures_after (storeBlock_fits ?_) (endures_of_ok rfl)
    rw [loadBytes_length, Nat.zero_add]
    exact (Nat.sub_le _ _).trans hfits

theorem Active.read (h : Active m n C p k) (fs : Memory) (fd : ℤ) (ha : a < wordSize) (hc : count < wordSize) :
    Endures (syscallRead fs p fd a count) k := by
  refine endures_get (Endures.ite (fun hv => ?_) fun _ => endures_pure _)
  have hr := (h.sound.validPointer_iff ha hc).mp hv
  cases hl : lookupFd k p fd with
  | none => exact endures_pure _
  | some c =>
    obtain ⟨fh, hfh⟩ := h.handle hl
    refine endures_after (getHandle_ok hfh) ?_
    unfold readHandle
    cases hty : fh.type with
    | screen => exact endures_pure _
    | pipeWriter => exact endures_pure _
    | dir => exact endures_pure _
    | pipeReader =>
      obtain ⟨pb, hpb⟩ := h.serving.whole.pipe_of hfh (by rw [hty]; rfl)
      refine endures_after (getPipe_ok hpb) (Endures.ite (fun _ => endures_pure _) fun _ => ?_)
      refine Endures.ite (fun _ => h.takeFromPipe hpb hr) fun _ => Endures.ite (fun _ => endures_pure _) fun _ => ?_
      refine endures_get (endures_after (v := ()) rfl ?_)
      exact (endures_schedDo fun S => blunt_suspend S p).bind fun _ _ _ => endures_pure _
    | file =>
      refine Endures.ite (fun _ => endures_pure _) fun hlt => ?_
      refine (endures_writeUserBytes h.mapped h.live ?_).bind fun _ _ _ => endures_of_ok rfl
      rw [loadBytes_length]
      exact hr.mono (readable_le (by omega))

end AdelaideOS.Kernel
