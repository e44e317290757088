import AdelaideOS.Constants
import AdelaideOS.Fault
import AdelaideOS.Lib.Bytes

/-!
# Page frames and page tables: `page.c`

`Pages` is the state of the page allocator together with the physical memory it works in: the address of
the first unused frame, the head of the list of free frames (linked through their first words), and the
count of frames handed out.  Page directories and page tables are frames like any other; a directory is
named by its physical address.

Two fields have no counterpart in the source and are read by nothing in it: `live` lists the frames that
`allocPage` has handed out and `freePage` has not taken back, and `freedTwice` records whether a frame that
was not live was ever freed.

All address ranges that the source walks are page aligned and end below `2 ^ 32`, so `addr += PAGE_SIZE`
does not wrap; `pagesOf` is the list of addresses such a loop visits.
-/

namespace AdelaideOS.Page

open AdelaideOS.Lib.Bytes

structure Pages where
  mem : Memory
  pageEnd : ℕ
  pageFree : ℕ
  npages : ℕ
  live : List ℕ
  freedTwice : Bool

/-- The allocator at boot, over memory `mem`. -/
def Pages.boot (mem : Memory) : Pages := ⟨mem, PAGE_START, 0, 0, [], false⟩

/-! ### Frames -/

def allocPage (P : Pages) : ℕ × Pages :=
  let address := if P.pageFree = 0 then P.pageEnd else P.pageFree
  (address,
    { P with
      npages := (P.npages + 1) % wordSize
      pageEnd := if P.pageFree = 0 then (P.pageEnd + PAGE_SIZE) % wordSize else P.pageEnd
      pageFree := if P.pageFree = 0 then 0 else readWord P.mem P.pageFree
      mem := fill P.mem address PAGE_SIZE 0
      live := address :: P.live })

def freePage (P : Pages) (page : ℕ) : Except Fault Pages := do
  assert .freePage (0 < P.npages)
  return { P with
    npages := P.npages - 1
    mem := writeWord P.mem page P.pageFree
    pageFree := page
    live := P.live.erase page
    freedTwice := P.freedTwice || !decide (page ∈ P.live) }

/-- The page-aligned addresses of `[start, stop)`. -/
def pagesOf (start stop : ℕ) : List ℕ :=
  (List.range ((stop - start + (PAGE_SIZE - 1)) / PAGE_SIZE)).map fun i => start + i * PAGE_SIZE

/-! ### Tables -/

/-- Index into the page directory. -/
def dirIndex (logical : ℕ) : ℕ := logical / PAGE_SIZE / 1024

/-- Index into the page table. -/
def tblIndex (logical : ℕ) : ℕ := logical / PAGE_SIZE % 1024

/-- `pdir[dirindex]`. -/
def dirEntry (M : Memory) (pdir logical : ℕ) : ℕ := readWord M (pdir + 4 * dirIndex logical)

/-- `ptable[tblindex]`, for the table that the directory entry names. -/
def tblEntry (M : Memory) (pdir logical : ℕ) : ℕ :=
  readWord M ((dirEntry M pdir logical &&& PAGE_ADDRESS_MASK) + 4 * tblIndex logical)

/-- The part of `map_page` that creates the page table when the directory has none. -/
def ensureTable (P : Pages) (pdir logical : ℕ) : Pages :=
  if dirEntry P.mem pdir logical &&& PAGE_PRESENT = 0 then
    let (dirpage, P) := allocPage P
    let entry := dirpage ||| PAGE_PRESENT ||| PAGE_USER ||| PAGE_READ_WRITE
    { P with mem := writeWord P.mem (pdir + 4 * dirIndex logical) entry }
  else P

def mapPage (P : Pages) (pdir logical physical access readwrite : ℕ) : Except Fault Pages := do
  assert .mapPage (logical % PAGE_SIZE = 0)
  assert .mapPage (physical % PAGE_SIZE = 0)
  let P := ensureTable P pdir logical
  let ptable := dirEntry P.mem pdir logical &&& PAGE_ADDRESS_MASK
  let entry := physical ||| PAGE_PRESENT ||| access ||| readwrite
  return { P with mem := writeWord P.mem (ptable + 4 * tblIndex logical) entry }

/-- `lookup_page`: the frame a logical page is mapped to, if any. -/
def lookupPage (P : Pages) (pdir logical : ℕ) : Except Fault (Option ℕ) := do
  assert .lookupPage (logical % PAGE_SIZE = 0)
  if dirEntry P.mem pdir logical &&& PAGE_PRESENT = 0 then return none
  else if tblEntry P.mem pdir logical &&& PAGE_PRESENT = 0 then return none
  else return some (tblEntry P.mem pdir logical &&& PAGE_ADDRESS_MASK)

def unmapAndFreePage (P : Pages) (pdir logical : ℕ) : Except Fault Pages := do
  assert .unmapAndFreePage (logical % PAGE_SIZE = 0)
  if dirEntry P.mem pdir logical &&& PAGE_PRESENT = 0 then return P
  else if tblEntry P.mem pdir logical &&& PAGE_PRESENT = 0 then return P
  else
    let ptable := dirEntry P.mem pdir logical &&& PAGE_ADDRESS_MASK
    let P ← freePage P (tblEntry P.mem pdir logical &&& PAGE_ADDRESS_MASK)
    return { P with mem := writeWord P.mem (ptable + 4 * tblIndex logical) 0 }

def identityMap (P : Pages) (pdir start stop access readwrite : ℕ) : Except Fault Pages :=
  (pagesOf start stop).foldlM (fun P addr => mapPage P pdir addr addr access readwrite) P

/-- One new frame, mapped for the user at `logical`. -/
def mapNewPage (P : Pages) (pdir logical : ℕ) : Except Fault Pages :=
  let (page, P) := allocPage P
  mapPage P pdir logical page PAGE_USER PAGE_READ_WRITE

def mapNewPages (P : Pages) (pdir base npages : ℕ) : Except Fault Pages := do
  assert .mapNewPages (base % PAGE_SIZE = 0)
  (List.range npages).foldlM (fun P i => mapNewPage P pdir ((base + i * PAGE_SIZE) % wordSize)) P

/-- The loop of `kill_process` and `syscall_execve` that unmaps a segment. -/
def unmapRange (P : Pages) (pdir start stop : ℕ) : Except Fault Pages :=
  (pagesOf start stop).foldlM (fun P addr => unmapAndFreePage P pdir addr) P

/-- One round of `free_page_dir`. -/
def freeTable (pdir : ℕ) (P : Pages) (dirindex : ℕ) : Except Fault Pages :=
  if readWord P.mem (pdir + 4 * dirindex) &&& PAGE_PRESENT = 0 then .ok P
  else freePage P (readWord P.mem (pdir + 4 * dirindex) &&& PAGE_ADDRESS_MASK)

def freePageDir (P : Pages) (pdir : ℕ) : Except Fault Pages := do
  let P ← (List.range 1024).foldlM (freeTable pdir) P
  freePage P pdir

/-! ### The copy made by `fork` -/

/-- One round of `map_and_copy` in `unixproc.c`. -/
def mapAndCopyPage (srcDir destDir : ℕ) (P : Pages) (addr : ℕ) : Except Fault Pages := do
  let (page, P) := allocPage P
  let P ← mapPage P destDir addr page PAGE_USER PAGE_READ_WRITE
  match ← lookupPage P srcDir addr with
  | none => .error (.assertion .mapAndCopy)
  | some srcPhys => return { P with mem := copy P.mem page srcPhys PAGE_SIZE }

def mapAndCopy (P : Pages) (srcDir destDir start stop : ℕ) : Except Fault Pages := do
  assert .mapAndCopy (start % PAGE_SIZE = 0)
  assert .mapAndCopy (stop % PAGE_SIZE = 0)
  (pagesOf start stop).foldlM (mapAndCopyPage srcDir destDir) P

/-! ### The processor's view

Kernel code may touch every present page.  User code needs the user bit in both entries, and to write also
the read/write bit in both. -/

/-- The physical address behind a logical one, with paging enabled on `pdir`. -/
def translate (M : Memory) (pdir logical : ℕ) : Option ℕ :=
  if dirEntry M pdir logical &&& PAGE_PRESENT = 0 then none
  else if tblEntry M pdir logical &&& PAGE_PRESENT = 0 then none
  else some ((tblEntry M pdir logical &&& PAGE_ADDRESS_MASK) + logical % PAGE_SIZE)

/-- User-mode code can read the page of `logical`. -/
def userAccessible (M : Memory) (pdir logical : ℕ) : Prop :=
  dirEntry M pdir logical &&& PAGE_PRESENT ≠ 0 ∧ tblEntry M pdir logical &&& PAGE_PRESENT ≠ 0 ∧
  dirEntry M pdir logical &&& PAGE_USER ≠ 0 ∧ tblEntry M pdir logical &&& PAGE_USER ≠ 0

/-- User-mode code can write the page of `logical`. -/
def userWritable (M : Memory) (pdir logical : ℕ) : Prop :=
  userAccessible M pdir logical ∧
  dirEntry M pdir logical &&& PAGE_READ_WRITE ≠ 0 ∧ tblEntry M pdir logical &&& PAGE_READ_WRITE ≠ 0

instance (M : Memory) (pdir logical : ℕ) : Decidable (userAccessible M pdir logical) :=
  inferInstanceAs (Decidable (_ ∧ _))

instance (M : Memory) (pdir logical : ℕ) : Decidable (userWritable M pdir logical) :=
  inferInstanceAs (Decidable (_ ∧ _))

end AdelaideOS.Page
