import AdelaideOS.Buddy.Blocks
import AdelaideOS.Kernel.Calls
import AdelaideOS.Lib.View

/-!
# The objects of the kernel

`Objects` is the part of the state that decides which processes wait for what: the scheduler, the descriptors,
file handles and pipes, and the heap they live on.  `Does o m R` says what the computation `m` makes of the
objects `o`, and that it stops for no other reason than those of `Benign`: the paging code, exhausted memory, or
an address of the caller.

`Remote` computations do not touch the objects at all: they read and write user memory, or show text.
-/

namespace AdelaideOS.Kernel

open AdelaideOS.Lib.Bytes AdelaideOS.Lib.View AdelaideOS.Page AdelaideOS.Process

structure Objects where
  sched : Sched
  filedesc : ℕ → ℕ → Option ℕ
  handles : ℕ → Option Filehandle
  pipes : ℕ → Option PipeBuffer
  heap : Buddy.Heap

def State.objects (k : State) : Objects := ⟨k.sched, k.filedesc, k.handles, k.pipes, k.heap⟩

/-- The assertions of `page.c` and `unixproc.c` about page tables, and the one that a process is running. -/
def otherSites : List Site :=
  [.freePage, .mapPage, .lookupPage, .unmapAndFreePage, .mapNewPages, .mapAndCopy, .syscall]

/-- No assertion about lists, descriptors, pipes or heap blocks. -/
def Benign (e : Fault) : Prop := ∀ site, e = .assertion site → site ∈ otherSites

abbrev Does {α : Type} (o : Objects) (m : K α) (R : α → Objects → Prop) : Prop :=
  Acts State.objects Benign o m R

abbrev Remote {α : Type} (m : K α) : Prop := Still State.objects Benign m

variable {α : Type} {o : Objects} {R : α → Objects → Prop} {U : Unit → Objects → Prop} {F : Fault → Prop}

/-! ### Faults -/

theorem benign_memoryExhausted : Benign .memoryExhausted := fun _ h => by cases h

theorem benign_diverges : Benign .diverges := fun _ h => by cases h

theorem benign_pageFault (a : ℕ) : Benign (.pageFault a) := fun _ h => by cases h

theorem benign_wildPointer : Benign .wildPointer := fun _ h => by cases h

theorem benign_assertion {site : Site} (h : site ∈ otherSites) : Benign (.assertion site) := by
  intro s hs
  cases hs
  exact h

/-- Every error of the computation is benign. -/
def Mild (x : Except Fault α) : Prop := ∀ e, x = .error e → Benign e

theorem mild_ok (a : α) : Mild (.ok a : Except Fault α) := fun _ h => by cases h

theorem mild_error {e : Fault} (h : Benign e) : Mild (.error e : Except Fault α) := by
  intro e' he
  cases he
  exact h

theorem Mild.bind {β : Type} {x : Except Fault β} {f : β → Except Fault α} (hx : Mild x)
    (hf : ∀ b, Mild (f b)) : Mild (x >>= f) := by
  cases x with
  | error e => exact mild_error (hx e rfl)
  | ok b => exact hf b

theorem mild_assert {site : Site} {c : Prop} [Decidable c] (h : site ∈ otherSites) :
    Mild (assert site c) := by
  by_cases hc : c
  · rw [assert, if_pos hc]
    exact mild_ok ()
  · rw [assert, if_neg hc]
    exact mild_error (benign_assertion h)

theorem mild_foldlM {β : Type} {f : α → β → Except Fault α} (hf : ∀ a b, Mild (f a b)) (l : List β)
    (a : α) : Mild (l.foldlM f a) := by
  induction l generalizing a with
  | nil => exact mild_ok a
  | cons b l ih => exact (hf a b).bind fun a' => ih a'

/-! ### Assignments -/

theorem does_throw {e : Fault} (h : Benign e) : Does o (throw e : K α) R := ⟨fun _ _ => h⟩

theorem does_lift {x : Except Fault α} (hx : Mild x) (hR : ∀ a, x = .ok a → R a o) : Does o (lift x) R := by
  constructor
  intro k hk
  cases x with
  | ok a =>
    show R a k.objects
    rw [hk]
    exact hR a rfl
  | error e => exact hx e rfl

theorem does_check {site : Site} {c : Prop} [Decidable c] (hc : c) (hR : U () o) :
    Acts State.objects F o (check site c) U := by
  unfold check
  rw [assert_pos hc]
  constructor
  intro k hk
  show U () k.objects
  rw [hk]
  exact hR

theorem does_schedDo {f : Sched → Except Fault Sched} {S : Sched} (hf : f o.sched = .ok S)
    (hR : U () { o with sched := S }) : Acts State.objects F o (schedDo f) U := by
  constructor
  intro k hk
  obtain rfl := hk
  have hf' : f k.sched = .ok S := hf
  unfold schedDo
  rw [hf']
  exact hR

theorem does_onPages {f : Pages → Except Fault (α × Pages)} (hf : ∀ P, Mild (f P)) (hR : ∀ a, R a o) :
    Does o (onPages f) R := by
  constructor
  intro k hk
  unfold onPages
  cases hP : f k.pages with
  | ok r =>
    show R r.1 k.objects
    rw [hk]
    exact hR r.1
  | error e => exact hf _ e hP

theorem does_getHandle {a : ℕ} {R : Filehandle → Objects → Prop}
    (hR : ∀ fh, o.handles a = some fh → R fh o) : Does o (getHandle a) R := by
  constructor
  intro k hk
  obtain rfl := hk
  unfold getHandle
  cases hfh : k.handles a with
  | some fh => exact hR fh hfh
  | none => exact benign_wildPointer

/-- The handle is known to be there. -/
theorem does_foundHandle {a : ℕ} {fh : Filehandle} {R : Filehandle → Objects → Prop}
    (hfh : o.handles a = some fh) (hR : R fh o) : Acts State.objects F o (getHandle a) R := by
  constructor
  intro k hk
  obtain rfl := hk
  have hfh' : k.handles a = some fh := hfh
  unfold getHandle
  rw [hfh']
  exact hR

theorem does_setHandle {a : ℕ} {fh : Option Filehandle}
    (hR : U () { o with handles := Function.update o.handles a fh }) : Acts State.objects F o (setHandle a fh) U := by
  apply Acts.modify
  intro k hk
  obtain rfl := hk
  exact hR

theorem does_getPipe {b : ℕ} {R : PipeBuffer → Objects → Prop}
    (hR : ∀ pb, o.pipes b = some pb → R pb o) : Does o (getPipe b) R := by
  constructor
  intro k hk
  obtain rfl := hk
  unfold getPipe
  cases hpb : k.pipes b with
  | some pb => exact hR pb hpb
  | none => exact benign_wildPointer

/-- The pipe is known to be there. -/
theorem does_foundPipe {b : ℕ} {pb : PipeBuffer} {R : PipeBuffer → Objects → Prop}
    (hb : o.pipes b = some pb) (hR : R pb o) : Acts State.objects F o (getPipe b) R := by
  constructor
  intro k hk
  obtain rfl := hk
  have hb' : k.pipes b = some pb := hb
  unfold getPipe
  rw [hb']
  exact hR

theorem does_setPipe {b : ℕ} {pb : Option PipeBuffer}
    (hR : U () { o with pipes := Function.update o.pipes b pb }) : Acts State.objects F o (setPipe b pb) U := by
  apply Acts.modify
  intro k hk
  obtain rfl := hk
  exact hR

/-- The descriptors with `fd` of process `p` set to `fh`. -/
def putFd (fds : ℕ → ℕ → Option ℕ) (p fd : ℕ) (fh : Option ℕ) : ℕ → ℕ → Option ℕ :=
  Function.update fds p (Function.update (fds p) fd fh)

theorem putFd_self (fds : ℕ → ℕ → Option ℕ) (p fd : ℕ) (fh : Option ℕ) : putFd fds p fd fh p fd = fh := by
  rw [putFd, Function.update_self, Function.update_self]

theorem putFd_of_ne {fds : ℕ → ℕ → Option ℕ} {p fd : ℕ} {fh : Option ℕ} {q e : ℕ}
    (h : (q, e) ≠ (p, fd)) : putFd fds p fd fh q e = fds q e := by
  unfold putFd
  by_cases hq : q = p
  · have he : e ≠ fd := by
      intro he
      exact h (by rw [hq, he])
    rw [hq, Function.update_self, Function.update_of_ne he]
  · rw [Function.update_of_ne hq]

theorem does_setFd {p fd : ℕ} {fh : Option ℕ}
    (hR : U () { o with filedesc := putFd o.filedesc p fd fh }) : Acts State.objects F o (setFd p fd fh) U := by
  apply Acts.modify
  intro k hk
  obtain rfl := hk
  exact hR

theorem does_clearFds {p : ℕ}
    (hR : U () { o with filedesc := Function.update o.filedesc p fun _ => none }) :
    Acts State.objects F o (clearFds p) U := by
  apply Acts.modify
  intro k hk
  obtain rfl := hk
  exact hR

/-! ### The heap -/

/-- The memory of `kmalloc`. -/
def kernelRegion : Buddy.Region where
  upper := KERNEL_MEM_SIZEPOW2
  base := KERNEL_MEM_BASE
  lower_le := by decide
  upper_le := by decide
  base_pos := by decide
  base_end := by decide

theorem does_kmalloc {τ : Type} {T : Buddy.Table τ} {n : ℕ} {R : ℕ → Objects → Prop}
    (hT : Buddy.Holds kernelRegion o.heap T)
    (hR : ∀ a h, Buddy.buddyAlloc .kernel o.heap n = .ok (a, h) → R a { o with heap := h }) :
    Does o (kmalloc n) R := by
  constructor
  intro k hk
  obtain rfl := hk
  unfold kmalloc onHeap
  beta_reduce
  cases hok : Buddy.buddyAlloc .kernel k.heap n with
  | ok r => exact hR r.1 r.2 hok
  | error e =>
    rcases hT.alloc_error hok with rfl | rfl
    · exact benign_memoryExhausted
    · exact benign_diverges

theorem does_kfree {a : ℕ} {h : Buddy.Heap} (hok : Buddy.buddyFree o.heap a = .ok h)
    (hR : U () { o with heap := h }) : Acts State.objects F o (kfree a) U := by
  constructor
  intro k hk
  obtain rfl := hk
  have hok' : Buddy.buddyFree k.heap a = .ok h := hok
  unfold kfree onHeap
  simp only [hok']
  exact hR

theorem does_storeBlock {block size off : ℕ} {bs : List UInt8}
    (hR : off + bs.length ≤ size →
      U () { o with heap := { o.heap with bytes := storeBytes o.heap.bytes (block + off) bs } }) :
    Does o (storeBlock block size off bs) U := by
  constructor
  intro k hk
  obtain rfl := hk
  unfold storeBlock
  by_cases h : off + bs.length ≤ size
  · rw [if_pos h]
    exact hR h
  · rw [if_neg h]
    exact benign_wildPointer

/-! ### User memory -/

theorem remote_throw {e : Fault} (h : Benign e) : Remote (throw e : K α) := fun _ => does_throw h

theorem remote_lift {x : Except Fault α} (hx : Mild x) : Remote (lift x) :=
  fun _ => does_lift hx fun _ _ => rfl

theorem remote_onPages {f : Pages → Except Fault (α × Pages)} (hf : ∀ P, Mild (f P)) :
    Remote (onPages f) :=
  fun _ => does_onPages hf fun _ => rfl

theorem remote_setSpace (p : ℕ) (s : Space) : Remote (setSpace p s) := still_modify fun _ => rfl

theorem remote_setCwd (p : ℕ) (path : List UInt8) : Remote (setCwd p path) := still_modify fun _ => rfl

theorem remote_touch (as : List ℕ) : Remote (touch as) := fun _ => ⟨fun _ hk => hk⟩

theorem benign_physical {k : State} {p a : ℕ} {e : Fault} (h : physical k p a = .error e) : Benign e := by
  unfold physical at h
  split at h
  · cases h
    exact benign_pageFault a
  · split at h
    · cases h
      exact benign_wildPointer
    · cases h

theorem remote_loadMapped (p a : ℕ) : Remote (loadMapped p a) := by
  intro o
  constructor
  intro k hk
  unfold loadMapped
  cases hx : physical k p a with
  | ok x => exact hk
  | error e => exact benign_physical hx

theorem remote_storeMapped (p a : ℕ) (b : UInt8) : Remote (storeMapped p a b) := by
  intro o
  constructor
  intro k hk
  unfold storeMapped
  cases hx : physical k p a with
  | ok x => exact hk
  | error e => exact benign_physical hx

theorem remote_readUser (p a : ℕ) : Remote (readUser p a) :=
  (remote_touch [a]).bind fun _ => remote_loadMapped p a

theorem remote_writeUser (p a : ℕ) (b : UInt8) : Remote (writeUser p a b) :=
  (remote_touch [a]).bind fun _ => remote_storeMapped p a b

theorem remote_readUserBytes (p a n i : ℕ) : Remote (readUserBytes p a n i) := by
  induction n generalizing i with
  | zero => exact still_pure []
  | succ n ih =>
    exact (remote_readUser p _).bind fun b => (ih (i + 1)).bind fun bs => still_pure (b :: bs)

theorem remote_writeUserBytes (p a : ℕ) (bs : List UInt8) (i : ℕ) : Remote (writeUserBytes p a bs i) := by
  induction bs generalizing i with
  | nil => exact still_pure ()
  | cons b bs ih => exact (remote_writeUser p _ b).bind fun _ => ih (i + 1)

theorem remote_storeMappedBytes (p a : ℕ) (bs : List UInt8) (i : ℕ) :
    Remote (storeMappedBytes p a bs i) := by
  induction bs generalizing i with
  | nil => exact still_pure ()
  | cons b bs ih => exact (remote_storeMapped p _ b).bind fun _ => ih (i + 1)

theorem remote_readUserWord (p a : ℕ) : Remote (readUserWord p a) :=
  (remote_readUserBytes p a 4 0).bind fun bs => still_pure (wordOf bs)

theorem remote_validString (p str : ℕ) : Remote (validString p str) := by
  unfold validString
  generalize wordSize = fuel
  suffices h : ∀ len, Remote (validStringLoop p str fuel len) from h 0
  induction fuel with
  | zero => exact fun _ => remote_throw benign_diverges
  | succ fuel ih =>
    intro len
    refine still_get fun k => Still.ite ?_ (still_pure false)
    exact (remote_readUser p _).bind fun c => Still.ite (still_pure true) (ih (len + 1))

theorem remote_userString (p str : ℕ) : Remote (userString p str) := by
  unfold userString
  generalize wordSize = fuel
  suffices h : ∀ len, Remote (userStringLoop p str fuel len) from h 0
  induction fuel with
  | zero => exact fun _ => remote_throw benign_diverges
  | succ fuel ih =>
    intro len
    refine (remote_readUser p _).bind fun c => Still.ite (still_pure []) ?_
    exact (ih (len + 1)).bind fun rest => still_pure (c :: rest)

theorem remote_printUser (p str size : ℕ) (text : List UInt8) : Remote (printUser p str size text) :=
  (remote_writeUserBytes p str _ 0).bind fun _ => Still.ite (remote_writeUser p _ 0) (still_pure ())

theorem remote_writeToScreen (bs : List UInt8) : Remote (writeToScreen bs) := still_modify fun _ => rfl

theorem remote_screenWrite (p buf count : ℕ) : Remote (screenWrite p buf count) :=
  (remote_readUserBytes p buf count 0).bind fun bs => (remote_writeToScreen bs).bind fun _ =>
    still_pure (toInt count)

/-! ### Files -/

theorem mild_cstring (M : Memory) (a : ℕ) : Mild (cstring M a) := by
  unfold cstring
  generalize wordSize = fuel
  induction fuel generalizing a with
  | zero => exact mild_error benign_diverges
  | succ fuel ih =>
    unfold cstringLoop
    split
    · exact mild_ok []
    · exact (ih (a + 1)).bind fun rest => mild_ok (M a :: rest)

theorem mild_lookup (fs : Memory) (dir : ℕ) (name : List UInt8) : Mild (lookup fs dir name) := by
  unfold lookup
  generalize dirCount fs dir = n
  suffices h : ∀ i, Mild (lookupLoop fs dir name n i) from h 0
  induction n with
  | zero => exact fun _ => mild_ok none
  | succ n ih =>
    intro i
    refine (mild_cstring fs _).bind fun s => ?_
    split
    · exact mild_ok _
    · exact ih (i + 1)

theorem mild_getDirectoryEntry (fs : Memory) (path : List UInt8) : Mild (getDirectoryEntry fs path) := by
  unfold getDirectoryEntry
  generalize decide (path.getLast? = some (char '/')) = slash
  generalize components path = cs
  generalize entryLocation fs 0 = dir
  generalize 0 = entry
  induction cs generalizing entry dir with
  | nil => exact mild_ok _
  | cons c cs ih =>
    refine (mild_lookup fs dir c).bind fun found => ?_
    cases found with
    | none => exact mild_ok _
    | some entry =>
      simp only
      split
      · exact ih _ _
      · split
        · exact mild_ok _
        · exact mild_ok _

theorem mild_format (M : Memory) (a : ℕ) : Mild (format M a) := by
  have hwidth : ∀ fuel a pad, Mild (widthLoop M fuel a pad) := by
    intro fuel
    induction fuel with
    | zero => exact fun _ _ => mild_error benign_diverges
    | succ fuel ih =>
      intro a pad
      unfold widthLoop
      split
      · exact ih _ _
      · exact mild_ok _
  unfold format
  generalize hfuel : wordSize = fuel
  clear hfuel
  induction fuel generalizing a with
  | zero => exact mild_error benign_diverges
  | succ fuel ih =>
    unfold formatLoop
    split
    · exact mild_ok []
    · split
      · exact (ih (a + 1)).bind fun rest => mild_ok (M a :: rest)
      · refine (hwidth _ _ _).bind fun w => ?_
        obtain ⟨pad, b⟩ := w
        simp only
        split
        · exact mild_error benign_wildPointer
        · exact (ih _).bind fun rest => mild_ok _

theorem remote_findEntry (fs : Memory) (p path : ℕ) : Remote (findEntry fs p path) :=
  (remote_userString p path).bind fun _ => still_get fun _ =>
    (remote_lift (mild_getDirectoryEntry fs _)).bind fun found => still_pure (_, found)

theorem remote_syscallStat (fs : Memory) (p path buf : ℕ) : Remote (syscallStat fs p path buf) := by
  refine (remote_validString p path).bind fun valid => still_get fun k => Still.ite ?_ (still_pure _)
  refine (remote_findEntry fs p path).bind fun x => ?_
  obtain ⟨abs, found⟩ := x
  cases found with
  | error e => exact still_pure e
  | ok entry => exact (remote_writeUserBytes p buf _ 0).bind fun _ => still_pure 0

theorem remote_syscallChdir (fs : Memory) (p path : ℕ) : Remote (syscallChdir fs p path) := by
  refine (remote_validString p path).bind fun valid => Still.ite ?_ (still_pure _)
  refine (remote_findEntry fs p path).bind fun x => ?_
  obtain ⟨abs, found⟩ := x
  cases found with
  | error e => exact still_pure e
  | ok entry =>
    refine Still.ite (still_pure _) ?_
    exact Still.bind (still_modify fun _ => rfl) fun _ => still_pure 0

theorem remote_syscallGetcwd (p buf size : ℕ) : Remote (syscallGetcwd p buf size) :=
  still_get fun _ => Still.ite ((remote_printUser p buf size _).bind fun _ => still_pure _)
    (still_pure 0)

theorem remote_storeStatus (p status : ℕ) (value : Option ℤ) : Remote (storeStatus p status value) := by
  cases value with
  | none => exact still_pure ()
  | some v => exact Still.ite (still_pure ()) (remote_writeUserBytes p status _ 0)

/-! ### Page tables -/

theorem mild_mapPage (P : Pages) (pdir logical physical access readwrite : ℕ) :
    Mild (mapPage P pdir logical physical access readwrite) :=
  (mild_assert (by decide)).bind fun _ => (mild_assert (by decide)).bind fun _ => mild_ok _

theorem mild_freePage (P : Pages) (page : ℕ) : Mild (freePage P page) :=
  (mild_assert (by decide)).bind fun _ => mild_ok _

theorem mild_unmapRange (P : Pages) (pdir start stop : ℕ) : Mild (unmapRange P pdir start stop) := by
  apply mild_foldlM
  intro P a
  refine (mild_assert (by decide)).bind fun _ => ?_
  split
  · exact mild_ok _
  · split
    · exact mild_ok _
    · exact (mild_freePage P _).bind fun _ => mild_ok _

theorem mild_freePageDir (P : Pages) (pdir : ℕ) : Mild (freePageDir P pdir) := by
  refine Mild.bind (mild_foldlM ?_ _ P) fun P' => mild_freePage P' pdir
  intro P i
  unfold freeTable
  split
  · exact mild_ok P
  · exact mild_freePage P _

theorem mild_identityMap (P : Pages) (pdir start stop access readwrite : ℕ) :
    Mild (identityMap P pdir start stop access readwrite) :=
  mild_foldlM (fun P _ => mild_mapPage P _ _ _ _ _) _ P

theorem mild_mapNewPages (P : Pages) (pdir base n : ℕ) : Mild (mapNewPages P pdir base n) :=
  (mild_assert (by decide)).bind fun _ => mild_foldlM (fun _ _ => mild_mapPage _ _ _ _ _ _) _ P

theorem mild_mapAndCopy (P : Pages) (srcDir destDir start stop : ℕ) :
    Mild (mapAndCopy P srcDir destDir start stop) := by
  refine (mild_assert (by decide)).bind fun _ => (mild_assert (by decide)).bind fun _ => ?_
  refine mild_foldlM (fun P a => ?_) _ P
  refine (mild_mapPage _ _ _ _ _ _).bind fun P' => ?_
  have hlookup : Mild (lookupPage P' srcDir a) := by
    refine (mild_assert (by decide)).bind fun _ => ?_
    split
    · exact mild_ok _
    · split
      · exact mild_ok _
      · exact mild_ok _
  refine hlookup.bind fun found => ?_
  cases found with
  | none => exact mild_error (benign_assertion (by decide))
  | some srcPhys => exact mild_ok _

theorem mild_startPages (m : Machine) (P : Pages) : Mild (startPages m P) :=
  (mild_identityMap _ _ _ _ _ _).bind fun P₁ => (mild_identityMap P₁ _ _ _ _ _).bind fun P₂ =>
    (mild_mapNewPages P₂ _ _ _).bind fun _ => mild_ok _

theorem mild_forkPages (s : Space) (P : Pages) : Mild (forkPages s P) :=
  (mild_identityMap _ _ _ _ _ _).bind fun P₁ => (mild_mapAndCopy P₁ _ _ _ _).bind fun P₂ =>
    (mild_mapAndCopy P₂ _ _ _ _).bind fun P₃ => (mild_mapAndCopy P₃ _ _ _ _).bind fun _ => mild_ok _

theorem mild_releasePages (s : Space) (P : Pages) : Mild (releasePages s P) :=
  (mild_unmapRange P _ _ _).bind fun P₁ => (mild_unmapRange P₁ _ _ _).bind fun P₂ =>
    (mild_unmapRange P₂ _ _ _).bind fun P₃ => (mild_freePageDir P₃ _).bind fun _ => mild_ok _

theorem mild_execPages (fs : Memory) (entry : ℕ) (s : Space) (P : Pages) :
    Mild (execPages fs entry s P) :=
  (mild_unmapRange P _ _ _).bind fun P₁ => (mild_unmapRange P₁ _ _ _).bind fun P₂ =>
    (mild_foldlM (fun _ _ => mild_mapPage _ _ _ _ _ _) _ P₂).bind fun _ => mild_ok _

theorem remote_syscallBrk (p endDataSegment : ℕ) : Remote (syscallBrk p endDataSegment) := by
  refine still_get fun k => Still.ite (still_pure 0) ?_
  refine (remote_onPages fun P => (mild_mapNewPages P _ _ _).bind fun P' => mild_ok _).bind fun _ => ?_
  exact (remote_setSpace p _).bind fun _ => still_pure 0

/-! ### Arguments -/

theorem remote_validArgv (p argv : ℕ) : Remote (validArgv p argv) := by
  refine Still.ite (still_pure true) ?_
  generalize wordSize = fuel
  suffices h : ∀ argno, Remote (checkArgv p argv fuel argno) from h 0
  induction fuel with
  | zero => exact fun _ => remote_throw benign_diverges
  | succ fuel ih =>
    intro argno
    refine still_get fun k => Still.ite ?_ (still_pure false)
    refine (remote_readUserWord p _).bind fun s => Still.ite (still_pure true) ?_
    exact (remote_validString p s).bind fun valid => Still.ite (ih (argno + 1)) (still_pure false)

theorem remote_argStrings (p argv : ℕ) : Remote (argStrings p argv) := by
  refine Still.ite (still_pure []) ?_
  generalize wordSize = fuel
  suffices h : ∀ argno, Remote (readArgv p argv fuel argno) from h 0
  induction fuel with
  | zero => exact fun _ => remote_throw benign_diverges
  | succ fuel ih =>
    intro argno
    refine (remote_readUserWord p _).bind fun s => Still.ite (still_pure []) ?_
    refine (remote_userString p s).bind fun arg => ?_
    exact (ih (argno + 1)).bind fun rest => still_pure (arg :: rest)

end AdelaideOS.Kernel
