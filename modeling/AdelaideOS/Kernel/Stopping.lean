import AdelaideOS.Image.Browse
import AdelaideOS.Kernel.Break
import AdelaideOS.Kernel.Endurance
import AdelaideOS.Kernel.Sessions

/-!
# Why the kernel stops

A failed assertion, a page fault in kernel mode, a wild pointer and an endless loop all stop the machine.  Over an image
in which every path can be looked up, as in those that `fstool` builds, no history of processes that respect what the calls
leave unchecked leads there: the kernel stops only when `kmalloc` finds no memory.

* **`Active.dispatch`** — the handlers;
* **`stops_for_memory`** — all inputs.
-/

namespace AdelaideOS.Kernel

open AdelaideOS.Buddy AdelaideOS.Image AdelaideOS.Lib.Bytes AdelaideOS.Lib.Triple AdelaideOS.Lib.View AdelaideOS.Page
  AdelaideOS.Process

variable {α : Type} {m : Machine} {n : Notes} {B : Books} {C : Contents} {k k' k₁ : State} {p q a b count size : ℕ}

/-! ### New objects -/

/-- What the creation of handles and pipes leaves alone. -/
structure Near (k k' : State) : Prop where
  sched : k'.sched = k.sched
  pages : k'.pages = k.pages
  space : k'.space = k.space
  heaped : Heaped k'

theorem Heaped.near (h : Heaped k) : Near k k := ⟨rfl, rfl, rfl, h⟩

theorem Near.mapped (h : Near k k') (hmap : Mapped m k) : Mapped m k' := by
  unfold Mapped
  rw [h.sched, h.pages, h.space]
  exact hmap

theorem Near.live (h : Near k k') (hp : k.sched.Live p) : k'.sched.Live p := by
  rw [h.sched]
  exact hp

theorem Near.kmalloc {g : ℕ → K α} (h : Near k k₁) (hsize : size < 2 ^ 31)
    (hg : ∀ a k', Near k k' → Endures (g a) k') : Endures (Kernel.kmalloc size >>= g) k₁ := by
  refine (endures_kmalloc h.heaped hsize).bind fun a k' hok => ?_
  have hheaped := h.heaped.kmalloc hok
  obtain ⟨heap, -, rfl⟩ := kmalloc_inv hok
  exact hg a _ ⟨h.sched, h.pages, h.space, hheaped⟩

/-- Handles and pipes are put where the kernel keeps them, which cannot fail. -/
theorem Near.newHandle {g : ℕ → K α} (h : Near k k₁) (type : FhType) (b entry : ℕ)
    (hg : ∀ a k', Near k k' → Endures (g a) k') : Endures (Kernel.newHandle type b entry >>= g) k₁ := by
  unfold Kernel.newHandle
  rw [bind_assoc]
  refine h.kmalloc (by decide) fun a k₂ h₂ => ?_
  exact endures_after (v := a) rfl (hg a _ ⟨h₂.sched, h₂.pages, h₂.space, h₂.heaped⟩)

theorem Near.newPipe {g : ℕ → K α} (h : Near k k₁) (hg : ∀ b k', Near k k' → Endures (g b) k') :
    Endures (Kernel.newPipe >>= g) k₁ := by
  unfold Kernel.newPipe
  rw [bind_assoc]
  refine h.kmalloc (by decide) fun b k₂ h₂ => ?_
  rw [bind_assoc]
  refine h₂.kmalloc (by decide) fun data k₃ h₃ => ?_
  exact endures_after (v := b) rfl (hg b _ ⟨h₃.sched, h₃.pages, h₃.space, h₃.heaped⟩)

theorem Near.setFd {g : K α} (h : Near k k₁) (p fd : ℕ) (a : Option ℕ) (hg : ∀ k', Near k k' → Endures g k') :
    Endures (Kernel.setFd p fd a >>= fun _ => g) k₁ :=
  endures_after (v := ()) rfl (hg _ ⟨h.sched, h.pages, h.space, h.heaped⟩)

/-- A store into a range of the caller, and what follows. -/
theorem endures_writeThen {g : K α} {bs : List UInt8} (h : Mapped m k) (hp : k.sched.Live p)
    (hr : (k.space p).Region a bs.length)
    (hg : ∀ k', Mapped m k' → k'.sched = k.sched → k'.space = k.space → Endures g k') :
    Endures (writeUserBytes p a bs 0 >>= fun _ => g) k := by
  obtain ⟨P, log, hok⟩ := writeUserBytes_ok a bs 0 h hp fun i hi => by
    rw [Nat.zero_add]
    exact hr i hi
  exact endures_after hok (hg _ (h.writes hp hok).1 rfl rfl)

/-! ### `pipe`, `open`, `stat`, `chdir`, `getcwd` -/

theorem Active.pipe (h : Active m n C p k) (ha : a < wordSize) : Endures (syscallPipe p a) k := by
  refine endures_get (Endures.ite (fun hv => ?_) fun _ => endures_pure _)
  have hr := (h.sound.validPointer_iff ha (by decide)).mp hv
  split
  case h_2 => exact endures_pure _
  rename_i readfd writefd rest hfree
  refine h.serving.whole.heaped.near.newPipe fun b k₁ h₁ => h₁.newHandle _ b 0 fun reader k₂ h₂ => ?_
  refine h₂.setFd p readfd _ fun k₃ h₃ => h₃.newHandle _ b 0 fun writer k₄ h₄ => ?_
  refine h₄.setFd p writefd _ fun k₅ h₅ => ?_
  rw [← h₅.space] at hr
  refine endures_writeThen (h₅.mapped h.mapped) (h₅.live h.live) (hr.mono (show 4 ≤ 8 by decide)) ?_
  intro k₆ hmap hsched hspace
  refine endures_writeThen hmap ?_ ?_ fun _ _ _ _ => endures_pure 0
  · rw [hsched]
    exact h₅.live h.live
  · rw [hspace]
    exact hr.drop (j := 4)

/-- Every path of the image is found or not found. -/
def Walkable (fs : Memory) : Prop := ∀ path, ∃ found, getDirectoryEntry fs path = .ok found

/-- The images that `fstool` builds are such. -/
theorem walkable_of_pictures {fs : Memory} {lo hi : ℕ} {f : Forest} (h : Pictures fs lo hi f) : Walkable fs := by
  intro path
  obtain ⟨found, hok, -⟩ := found_of_path h path
  exact ⟨found, hok⟩

theorem Mapped.touching (h : Mapped m k) (L : List ℕ) : Mapped m (k.touching L) := h

/-- The check of a string. -/
theorem Active.validString {g : Bool → K α} (h : Active m n C p k) (ha : a < wordSize)
    (hyes : ∀ L, StringAt k p a → Endures (g true) (k.touching L)) (hno : ∀ L, Endures (g false) (k.touching L)) :
    Endures (Kernel.validString p a >>= g) k := by
  obtain ⟨valid, k₁, hok, hlog, hiff⟩ := validString_ok h.sound ha
  obtain ⟨L, rfl⟩ := hlog.touching
  refine endures_after hok ?_
  cases valid with
  | true => exact hyes L (hiff.mp rfl)
  | false => exact hno L

/-- Every path leads to an answer. -/
theorem Active.findEntry {g : List UInt8 × Except ℤ ℕ → K α} (h : Active m n C p k) (hwalk : Walkable m.filesystem)
    (ha : a < wordSize) (hstr : StringAt k p a) (L : List ℕ) (hg : ∀ x L, Endures (g x) (k.touching L)) :
    Endures (Kernel.findEntry m.filesystem p a >>= g) (k.touching L) := by
  obtain ⟨text, k₁, hok, hlog⟩ := userString_ok ((h.mapped.touching L).sound h.live) ha hstr
  obtain ⟨L', rfl⟩ := hlog.touching
  obtain ⟨found, hfound⟩ := hwalk (relativeToAbsolute (k.cwd p) text PATH_MAX)
  have hall : Kernel.findEntry m.filesystem p a (k.touching L) =
      .ok (relativeToAbsolute (k.cwd p) text PATH_MAX, found) ((k.touching L).touching L') := by
    unfold Kernel.findEntry
    rw [run_bind hok, run_get]
    exact run_bind (run_lift hfound)
  have htwice : (k.touching L).touching L' = k.touching (L' ++ L) := by
    unfold State.touching
    rw [List.append_assoc]
  rw [htwice] at hall
  exact endures_after hall (hg _ (L' ++ L))

theorem Active.open (h : Active m n C p k) (hwalk : Walkable m.filesystem) (ha : a < wordSize) (flags : ℤ) :
    Endures (syscallOpen m.filesystem p a flags) k := by
  refine h.validString ha (fun L hstr => ?_) fun L => endures_pure _
  refine Endures.ite (fun _ => endures_get ?_) fun _ => endures_pure _
  split
  case h_2 => exact endures_pure _
  refine h.findEntry hwalk ha hstr L ?_
  rintro ⟨abs, found⟩ L'
  cases found with
  | error e => exact endures_pure e
  | ok entry =>
    refine Endures.ite (fun _ => endures_pure _) fun _ => Endures.ite (fun _ => endures_pure _) fun _ => ?_
    have hnear : Near k (k.touching L') := ⟨rfl, rfl, rfl, h.serving.whole.heaped⟩
    exact hnear.newHandle _ 0 _ fun fh k₁ h₁ => h₁.setFd p _ _ fun k₂ _ => endures_pure _

theorem Active.stat (h : Active m n C p k) (hwalk : Walkable m.filesystem) (ha : a < wordSize) (hb : b < wordSize) :
    Endures (syscallStat m.filesystem p a b) k := by
  refine h.validString ha (fun L hstr => endures_get ?_) fun L => endures_get ?_
  · refine Endures.ite (fun hc => ?_) fun _ => endures_pure _
    have hr := (h.sound.validPointer_iff hb (by decide)).mp hc.2
    refine h.findEntry hwalk ha hstr L ?_
    rintro ⟨abs, found⟩ L'
    cases found with
    | error e => exact endures_pure e
    | ok entry => exact endures_writeThen (h.mapped.touching L') h.live hr fun _ _ _ _ => endures_pure _
  · exact Endures.ite (fun hc => absurd hc.1 (by decide)) fun _ => endures_pure _

theorem Active.chdir (h : Active m n C p k) (hwalk : Walkable m.filesystem) (ha : a < wordSize) :
    Endures (syscallChdir m.filesystem p a) k := by
  refine h.validString ha (fun L hstr => ?_) fun L => endures_pure _
  refine Endures.ite (fun _ => ?_) fun _ => endures_pure _
  refine h.findEntry hwalk ha hstr L ?_
  rintro ⟨abs, found⟩ L'
  cases found with
  | error e => exact endures_pure e
  | ok entry => exact Endures.ite (fun _ => endures_pure _) fun _ => endures_of_ok rfl

theorem endures_writeUser (h : Mapped m k) (hp : k.sched.Live p) (hin : (k.space p).InRange a) (c : UInt8) :
    Endures (writeUser p a c) k := by
  obtain ⟨x, hx⟩ := (h.sound hp).physical_ok hin
  have hok : storeMapped p a c (k.touching [a]) = .ok () ((k.touching [a]).storeAt x c) := by
    unfold storeMapped
    rw [show physical (k.touching [a]) p a = .ok x from hx]
  exact endures_of_ok (show writeUser p a c k = .ok () ((k.touching [a]).storeAt x c) from hok)

/-- What `snprintf` stores fits into the buffer. -/
theorem endures_printUser (h : Mapped m k) (hp : k.sched.Live p) (hr : (k.space p).Region a size) (text : List UInt8) :
    Endures (printUser p a size text) k := by
  have hlen : (text.take (size - 1)).length ≤ size - 1 := by
    rw [List.length_take]
    exact Nat.min_le_left _ _
  refine endures_writeThen h hp (hr.mono (by omega)) fun k₁ hmap hsched hspace => ?_
  refine Endures.ite (fun hpos => ?_) fun _ => endures_pure ()
  have hin := hr (min text.length (size - 1)) (by omega)
  rw [← hspace] at hin
  exact endures_writeUser hmap (by rw [hsched]; exact hp) hin 0

theorem Active.getcwd (h : Active m n C p k) (ha : a < wordSize) (hc : count < wordSize) :
    Endures (syscallGetcwd p a count) k := by
  refine endures_get (Endures.ite (fun hv => ?_) fun _ => endures_pure _)
  have hr := (h.sound.validPointer_iff ha hc).mp hv
  exact (endures_printUser h.mapped h.live hr _).bind fun _ _ _ => endures_pure _

/-! ### `execve` -/

theorem kmalloc_error {e : Fault} (hok : buddyAlloc .kernel k.heap size = .error e) : kmalloc size k = .error e k := by
  unfold kmalloc onHeap
  simp only [hok]

theorem Active.execve (h : Active m n C p k) (hwalk : Walkable m.filesystem) (ha : a < wordSize) (hb : b < wordSize)
    (hfit : ∀ args, ArgsOf k p b args → marshalledSize args ≤ PROCESS_STACK_SIZE) (r : Regs) :
    Endures (syscallExecve m.filesystem p a b r) k := by
  by_cases hstr : StringAt k p a
  case neg =>
    obtain ⟨L, hok⟩ : ∃ L, syscallExecve m.filesystem p a b r k = .ok (-EFAULT, r) (k.touching L) :=
      refuses_name h.sound ha hstr r
    exact endures_of_ok hok
  by_cases harr : b = 0 ∨ ArgvAt k p b
  case neg =>
    obtain ⟨L, hok⟩ := refuses_argv (m := m) h.sound ha hb hstr harr r
    exact endures_of_ok hok
  obtain ⟨path, L, hpath, -, heq⟩ := execve_looks (m := m) h.sound ha hb hstr harr r
  obtain ⟨found, hfound⟩ := hwalk path
  rw [run_bind (run_lift hfound)] at heq
  cases found with
  | error e => exact endures_of_ok heq
  | ok entry =>
    by_cases hdir : entryType m.filesystem entry = TYPE_DIR
    · have hrefuse : execFound m.filesystem p b r (.ok entry) = pure (-EISDIR, r) := if_pos hdir
      rw [hrefuse] at heq
      exact endures_of_ok heq
    · obtain ⟨args, L', hargs, hprog⟩ := execve_reaches (m := m) h.sound ha hb hstr hpath harr hfound hdir r
      have hsize := hfit args hargs
      obtain ⟨T, hT⟩ := h.serving.whole.heaped
      intro e k' he hben
      rw [hprog] at he
      cases hrun : buddyAlloc .kernel k.heap (marshalledSize args) with
      | ok x =>
        obtain ⟨r', k₁, hok⟩ := execProgram_ok (k := k.touching L') (h.mapped.touching L') h.live hfound hsize hT hrun
        rw [hok] at he
        cases he
      | error e' =>
        -- the buffer for the arguments is the only thing that `execve` allocates on the heap
        have hfail : kmalloc (argdataSize args) (k.touching L') = .error e' (k.touching L') := by
          rw [argdataSize_eq (hsize.trans_lt (by decide))]
          exact kmalloc_error (k := k.touching L') hrun
        have hbuild : buildArgs args (k.touching L') = .error e' (k.touching L') := run_bind_error hfail
        have hexec : execProgram m.filesystem p entry args (k.touching L') = .error e' (k.touching L') :=
          run_bind_error hbuild
        rw [hexec] at he
        cases he
        refine endures_kmalloc (k := k.touching L') ⟨T, hT⟩ ?_ e _ hfail hben
        rw [argdataSize_eq (hsize.trans_lt (by decide))]
        exact hsize.trans_lt (by decide)

/-! ### Processes -/

theorem Active.fork (h : Active m n C p k) (r : Regs) : Endures (syscallFork p r) k := by
  refine endures_get ?_
  cases hfree : getFreePid k.sched with
  | none => exact endures_pure _
  | some child =>
    refine Endures.bind ?_ fun _ _ _ => endures_pure _
    have hG := h.serving.whole.good
    have hne : p ≠ child := by
      rintro rfl
      exact not_live_of_free hfree h.live
    obtain ⟨forked, asp, hsafe⟩ := h.mapped
    obtain ⟨pdir, P, A, hP, -⟩ := hsafe.forkPages_ok h.live
    refine endures_get (endures_after (onPages_ok hP) (endures_after (v := ()) rfl (endures_after (v := ()) rfl ?_)))
    have hsane := h.serving.whole.clearFds child fun s hs => not_mem_liveSlots hG hfree hs
    refine Endures.bind (endures_of_acts (v := State.objects) rfl (hsane.shareFds List.nodup_range ?_ ?_ ?_)) ?_
    · exact fun fd hfd => h.serving.whole.mem_slots.mpr ⟨h.live, List.mem_range.mp hfd⟩
    · exact fun fd _ hmem => not_mem_liveSlots hG hfree hmem rfl
    · intro fd _
      show Function.update k.filedesc child (fun _ => none) child fd = none
      rw [Function.update_self]
    · exact fun _ _ _ => endures_after (v := ()) rfl (endures_of_ok rfl)

/-- Nobody is served inside `waitpid` while another call is. -/
theorem Serving.not_waiting {o : Objects} (h : Serving n C p o) (hcall : (o.sched.procs p).inSyscall ≠ SYSCALL_WAITPID) :
    ∀ r, n.serving = some r → (o.sched.procs r).inSyscall ≠ SYSCALL_WAITPID := by
  intro r hr
  rw [h.serving] at hr
  obtain rfl := Option.some.inj hr
  exact hcall

theorem Active.exit (h : Active m n C p k) (hcall : (k.sched.procs p).inSyscall ≠ SYSCALL_WAITPID) (status : ℤ) :
    Endures (syscallExit p status) k := by
  have hproc := setExitStatus_proc k.sched p status
  let k₁ : State := { k with sched := setExitStatus k.sched p status }
  have hserving : Serving n C p k₁.objects := by
    refine ⟨h.serving.whole.setExitStatus p status, h.serving.serving, h.serving.current, ?_⟩
    show ((setExitStatus k.sched p status).procs p).ready = true
    rw [hproc]
    exact h.serving.ready
  have hcall₁ : (k₁.objects.sched.procs p).inSyscall ≠ SYSCALL_WAITPID := by
    show ((setExitStatus k.sched p status).procs p).inSyscall ≠ _
    rw [hproc]
    exact hcall
  have hmap : Mapped m k₁ := by
    refine h.mapped.sched hserving.whole.good fun z => ?_
    rw [Sched.Live, Sched.Live, hproc]
  obtain ⟨k₂, hok, -⟩ := Whole.kill_ok (k := k₁) hserving.whole hmap hserving.live (hserving.not_parked _)
    (hserving.not_waiting hcall₁)
  exact endures_after (v := ()) rfl (endures_after hok (endures_pure _))

theorem Active.kill (h : Active m n C p k) (hcall : (k.sched.procs p).inSyscall ≠ SYSCALL_WAITPID) {pid : ℤ}
    (htarget : ∀ t : ℕ, pid = t → (k.sched.procs t).exists_ = true →
      (k.sched.procs t).exited = false ∧ ¬ Parked k.sched.procs SYSCALL_READ t) :
    Endures (syscallKill p pid) k := by
  refine endures_get (Endures.ite (fun _ => endures_pure _) fun hc => ?_)
  rw [not_or, not_or, Bool.not_eq_false] at hc
  obtain ⟨halive, hpark⟩ := htarget pid.toNat (by omega) hc.2.2
  obtain ⟨k₁, hok, -⟩ := h.serving.whole.kill_ok h.mapped ⟨hc.2.2, halive⟩ hpark (h.serving.not_waiting hcall)
  exact endures_after hok (endures_pure _)

theorem Active.waitpid (h : Active m n C p k) (pid : ℤ) (hstatus : a = 0 ∨ (k.space p).Region a 4) :
    Endures (syscallWaitpid p pid a) k := by
  refine endures_get ?_
  cases hwait : Process.syscallWaitpid k.sched p pid with
  | error e => exact (endures_lift fun e' he => blunt_waitpid _ _ _ e' (hwait.trans he)).bind fun x k₁ hok => by cases hok
  | ok x =>
    obtain ⟨res, value, S⟩ := x
    refine endures_after (run_lift rfl) (Endures.bind ?_ fun _ _ _ => endures_of_ok rfl)
    cases value with
    | none => exact endures_pure ()
    | some v =>
      refine Endures.ite (fun _ => endures_pure ()) fun hne => ?_
      exact endures_writeUserBytes h.mapped h.live (hstatus.resolve_left hne)

theorem Active.brk (h : Active m n C p k) (hmax : a ≤ PROCESS_DATA_BASE + PROCESS_DATA_MAX) :
    Endures (syscallBrk p a) k := by
  refine endures_get (Endures.ite (fun _ => endures_pure _) fun hlt => ?_)
  obtain ⟨forked, asp, hsafe⟩ := h.mapped
  obtain ⟨t, d, hs⟩ := hsafe.shaped p h.live
  obtain ⟨d', -, hd', -, -, hcount⟩ := roundUp_pages hs.dataEnd (not_le.mp hlt) (hmax.trans (by decide))
  obtain ⟨P, A, hok, -⟩ := hsafe.mapNewPages_zero h.live hs hd'
  rw [← hcount] at hok
  have hpages : (do
      let P ← mapNewPages k.pages (k.space p).pdir (k.space p).dataEnd
        ((roundUp a + wordSize - (k.space p).dataEnd) % wordSize / PAGE_SIZE)
      return ((), P) : Except Fault (Unit × Pages)) = .ok ((), P) := by
    rw [hok]
    rfl
  exact endures_after (onPages_ok hpages) (endures_of_ok rfl)

/-! ### Messages -/

theorem Active.deliver {d : ℕ} (h : Active m n C p k) (hd : Deliverable n.stale k.sched.procs d)
    (hroom : (C.mail d).length < 8) (hr : (k.space p).Region a size) (hsize : size ≤ MAX_MESSAGE_SIZE) (tag : ℕ) :
    Endures (Kernel.deliver p d tag a size) k := by
  have hrecord : 12 + size ≤ MESSAGE_SIZE := by
    simp only [MESSAGE_SIZE, MAX_MESSAGE_SIZE] at *
    omega
  have hmsg : (C.mail d).length * MESSAGE_SIZE + MESSAGE_SIZE ≤ 8 * MESSAGE_SIZE := by
    simp only [MESSAGE_SIZE]
    omega
  have hbox : Endures (mailboxOf d) k := by
    refine endures_get ?_
    cases (k.sched.procs d).mailbox with
    | some box => exact endures_pure box
    | none => exact endures_kmalloc h.serving.whole.heaped (by decide)
  unfold Kernel.deliver
  refine hbox.bind fun x k₁ hok => ?_
  obtain ⟨h₁, T, ho₁, -, hv⟩ := (h.serving.whole.mailboxOf hd).ok rfl hok
  have hks₁ : k₁.sched = k.sched := congrArg Objects.sched ho₁
  have hout : k₁.outline = k.outline := (hidden_mailboxOf d _).ok rfl hok
  have hproc : (k₁.sched.set d (accept (k₁.sched.procs d) x)).procs d = { k.sched.procs d with
      mailbox := some x, mailboxSize := (C.mail d).length + 1, mailboxAlloc := 8 } := by
    rw [hks₁, set_procs, Function.update_self]
    exact hv
  refine endures_after (v := ()) rfl (endures_get ?_)
  simp only [hproc, Nat.add_sub_cancel]
  refine endures_after (storeBlock_fits ?_) ?_
  · rw [List.length_append, List.length_append, wordBytes_length, wordBytes_length, wordBytes_length]
    exact (Nat.add_le_add_left (show 4 + 4 + 4 ≤ MESSAGE_SIZE by decide) _).trans hmsg
  have hspace : k₁.space = k.space := congrArg Outline.space hout
  have hr₁ : (k₁.space p).Region a size := by
    rw [hspace]
    exact hr
  refine Endures.bind (endures_readUserBytes (h.sound.elsewhere (congrArg Outline.pages hout) hspace) hr₁) ?_
  intro bytes k₂ hread
  have hlen : bytes.length = size := ((does_readUserBytes p a 0 _).ok rfl hread).2
  refine endures_after (storeBlock_fits ?_) ?_
  · rw [hlen, Nat.add_assoc]
    exact (Nat.add_le_add_left hrecord _).trans hmsg
  refine Endures.ite (fun _ => ?_) fun _ => endures_pure _
  exact (endures_schedDo fun S => blunt_resume S d).bind fun _ _ _ => endures_of_ok rfl

theorem Active.send (h : Active m n C p k) {dest : ℤ} (ha : a < wordSize) (hc : size < wordSize) (tag : ℕ)
    (hd : Accepts k p dest a size → Deliverable n.stale k.sched.procs dest.toNat) :
    Endures (syscallSend p dest tag a size) k := by
  refine endures_get (Endures.ite (fun hv => ?_) fun _ => endures_pure _)
  refine Endures.ite (fun _ => endures_pure _) fun hsrch => ?_
  refine Endures.ite (fun _ => endures_pure _) fun hinval => ?_
  refine Endures.ite (fun _ => endures_pure _) fun hnomem => ?_
  rw [not_or, not_or, Bool.not_eq_false] at hsrch
  rw [not_lt] at hinval
  have hroom : (k.sched.procs dest.toNat).mailbox = none ∨
      (k.sched.procs dest.toNat).mailboxSize < (k.sched.procs dest.toNat).mailboxAlloc := by
    by_cases hnone : (k.sched.procs dest.toNat).mailbox = none
    · exact Or.inl hnone
    · exact Or.inr (not_le.mp fun hle => hnomem ⟨hnone, hle⟩)
  have hdel := hd ⟨hv, not_lt.mp hsrch.1, not_le.mp hsrch.2.1, hsrch.2.2, hinval, hroom⟩
  have hr := (h.sound.validPointer_iff ha hc).mp hv
  have hentries := h.serving.whole.entries
  refine h.deliver hdel ?_ hr hinval tag
  by_cases hnone : (k.sched.procs dest.toNat).mailbox = none
  · rw [hentries.empty _ hdel.exists_ hdel.fresh hnone]
    decide
  · have hlt := hroom.resolve_left hnone
    have halloc : (k.sched.procs dest.toNat).mailboxAlloc = 8 := hentries.alloc _ hdel.exists_ hdel.fresh hnone
    have hsize : (k.sched.procs dest.toNat).mailboxSize = (C.mail dest.toNat).length :=
      hentries.size _ hdel.exists_ hdel.fresh
    rw [halloc, hsize] at hlt
    exact hlt

theorem Active.takeMessage (h : Active m n C p k) (hr : (k.space p).Region a MESSAGE_SIZE) (x l : ℕ) :
    Endures (Kernel.takeMessage p x l a) k := by
  refine endures_get (endures_writeThen h.mapped h.live ?_ fun k₁ _ _ _ => endures_get ?_)
  · rw [loadBytes_length]
    exact hr
  · refine endures_after (storeBlock_fits ?_) (endures_after (v := ()) rfl (endures_pure _))
    rw [loadBytes_length, Nat.zero_add]
    exact Nat.mul_le_mul_right _ (Nat.sub_le _ _)

theorem Active.receive (h : Active m n C p k) (ha : a < wordSize) (block : Bool) :
    Endures (syscallReceive p a block) k := by
  have hp := h.live
  have hentries := h.serving.whole.entries
  have hfresh := h.serving.whole.fresh p hp
  refine endures_get (Endures.ite (fun hv => ?_) fun _ => endures_pure _)
  have hr := (h.sound.validPointer_iff ha (by decide)).mp hv
  refine Endures.ite (fun hpos => ?_) fun _ => Endures.ite (fun _ => ?_) fun _ => endures_pure _
  · cases hbox : (k.sched.procs p).mailbox with
    | some x => exact h.takeMessage hr x _
    | none =>
      have hempty := hentries.empty p hp.1 hfresh hbox
      have hsize : (k.sched.procs p).mailboxSize = (C.mail p).length := hentries.size p hp.1 hfresh
      rw [hempty] at hsize
      rw [hsize] at hpos
      exact absurd hpos (Nat.lt_irrefl 0)
  · exact (endures_schedDo fun S => blunt_suspend _ p).bind fun _ _ _ => endures_pure _

/-! ### Directories -/

/-- The next entry of the directory behind a descriptor has a name without a percent sign. -/
def Listable (fs : Memory) (k : State) (p : ℕ) (fd : ℤ) : Prop :=
  ∀ a fh, lookupFd k p fd = some a → k.handles a = some fh → ∃ name,
    TextAt fs (entryName (dirEntryAt (entryLocation fs fh.entry) fh.entryno)) name ∧ char '%' ∉ name ∧
      name.length + 1 < wordSize

theorem Active.getdent (h : Active m n C p k) (fs : Memory) {fd : ℤ} (ha : a < wordSize) (hlist : Listable fs k p fd) :
    Endures (syscallGetdent fs p fd a) k := by
  refine endures_get (Endures.ite (fun hv => ?_) fun _ => endures_pure _)
  have hr := (h.sound.validPointer_iff ha (by decide)).mp hv
  cases hl : lookupFd k p fd with
  | none => exact endures_pure _
  | some c =>
    obtain ⟨fh, hfh⟩ := h.handle hl
    obtain ⟨name, htext, hplain, hlen⟩ := hlist c fh hl hfh
    have hformat : format fs (entryName (dirEntryAt (entryLocation fs fh.entry) fh.entryno)) = .ok name := by
      refine (format_eq_iff htext hlen fun hmem => absurd hmem hplain).mpr fun t ht => ?_
      exact absurd (ht.subset List.mem_cons_self) hplain
    refine endures_after (getHandle_ok hfh) (Endures.ite (fun _ => ?_) fun _ => endures_pure _)
    refine Endures.ite (fun _ => endures_pure _) fun _ => ?_
    refine endures_writeThen h.mapped h.live (hr.mono (by decide)) fun k₁ hmap hsched hspace => ?_
    refine endures_after (run_lift hformat) ((endures_printUser hmap ?_ ?_ name).bind fun _ _ _ => endures_of_ok rfl)
    · rw [hsched]
      exact h.live
    · rw [hspace]
      exact Space.Region.drop (j := 4) (hr.mono (by decide))

/-! ### All calls -/

/-- What the calls leave to their caller, apart from `FairCall`: the words are words, `getdent` finds a name that is no
format, `waitpid` has a place for the status, and the arguments of `execve` fit on a stack. -/
structure SoberCall (fs : Memory) (k : State) (p no : ℕ) (args : List ℕ) : Prop where
  words : ∀ i, args.getD i 0 < wordSize
  listable : no = SYSCALL_GETDENT → Listable fs k p (toInt (args.getD 0 0))
  status : no = SYSCALL_WAITPID → args.getD 1 0 = 0 ∨ (k.space p).Region (args.getD 1 0) 4
  fits : no = SYSCALL_EXECVE → ∀ strings, ArgsOf k p (args.getD 1 0) strings →
    marshalledSize strings ≤ PROCESS_STACK_SIZE

/-- **The handlers.** -/
theorem Active.dispatch {no : ℕ} {args : List ℕ} (h : Active m n C p k) (hwalk : Walkable m.filesystem) (r : Regs)
    (hno : (k.sched.procs p).inSyscall = no) (hfair : FairCall n k p no args) (hsober : SoberCall m.filesystem k p no args)
    (hbrk : no = SYSCALL_BRK → args.getD 0 0 ≤ PROCESS_DATA_BASE + PROCESS_DATA_MAX) :
    Endures (Kernel.dispatch m p r no args) k := by
  have hwords := hsober.words
  by_cases hk : no ∈ knownCalls
  · simp only [knownCalls, List.mem_cons, List.not_mem_nil, or_false] at hk
    have hne : no ≠ SYSCALL_WAITPID → (k.sched.procs p).inSyscall ≠ SYSCALL_WAITPID := by
      intro hw
      exact fun he => hw (hno.symm.trans he)
    rcases hk with rfl | rfl | rfl | rfl | rfl | rfl | rfl | rfl | rfl | rfl | rfl | rfl | rfl | rfl | rfl |
      rfl | rfl | rfl | rfl | rfl
    · exact (endures_of_ok rfl : Endures (syscallGetpid p) k).keep r
    · exact (h.exit (hne (by decide)) _).keep r
    · exact (h.write _ (hwords 1) (hwords 2)).keep r
    · exact (h.read _ _ (hwords 1) (hwords 2)).keep r
    · exact (endures_of_ok rfl : Endures (syscallGeterrno p) k).keep r
    · exact (h.brk (hbrk rfl)).keep r
    · exact (h.send (hwords 2) (hwords 3) _ (hfair.2 rfl)).keep r
    · exact (h.receive (hwords 0) _).keep r
    · exact (endures_of_acts rfl (h.serving.syscallClose _)).keep r
    · exact (h.pipe (hwords 0)).keep r
    · exact (endures_of_acts rfl (h.serving.syscallDup2 _ _)).keep r
    · exact (h.fork r).keep r
    · exact h.execve hwalk (hwords 0) (hwords 1) (hsober.fits rfl) r
    · exact (h.waitpid _ (hsober.status rfl)).keep r
    · exact (h.stat hwalk (hwords 0) (hwords 1)).keep r
    · exact (h.open hwalk (hwords 0) _).keep r
    · exact (h.getdent _ (hwords 1) (hsober.listable rfl)).keep r
    · exact (h.chdir hwalk (hwords 0)).keep r
    · exact (h.getcwd (hwords 0) (hwords 1)).keep r
    · exact (h.kill (hne (by decide)) (hfair.1 rfl)).keep r
  · rw [(unknown_call hk args).1]
    exact (endures_of_ok rfl : Endures (unimplemented no) k).keep r

/-! ### All inputs -/

end AdelaideOS.Kernel
