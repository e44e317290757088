import AdelaideOS.Fault
import AdelaideOS.Lib.Bytes

/-!
# The buddy allocator of `buddy.c`

A `Memarea` is the bookkeeping record: the range of block orders, the address of the managed memory, one
`Blockinfo` per 256-byte granule, and 32 list heads.  The links of the free lists are the first words of
the free blocks themselves, so the allocator's state is the record together with the bytes it manages
(`Heap`).  Offsets into the managed memory are `unsigned int` values; `EMPTY` ends a list.

The two loops without a bound of their own take fuel.  `mforsize` doubles a 32-bit `pow2`: after 32 rounds
it is `0` and stays `0`, so a run that is not over by then never ends.  `removeFromFreelist` follows links
through memory it does not change: a walk of more than `2 ^ 32` steps has repeated an address and never
ends either.
-/

namespace AdelaideOS.Buddy

open AdelaideOS.Lib.Bytes

/-- The list terminator of `buddy.h`. -/
def EMPTY : ℕ := 0xFFFFFFFF

/-- The least block order: 256 bytes. -/
def defaultLower : ℕ := 8

/-- One entry of the granule array: 7 bits of size, 1 bit of use. -/
structure Blockinfo where
  sizem : ℕ
  used : Bool
  deriving DecidableEq, Repr

structure Memarea where
  lower : ℕ
  upper : ℕ
  mem : ℕ
  blocks : ℕ → Blockinfo
  freelist : ℕ → ℕ

/-- The bookkeeping record and the memory it manages. -/
structure Heap where
  ma : Memarea
  bytes : Memory

/-- Which of the two builds of `buddy.c` runs: `testbuddy` or the kernel. -/
inductive Build where
  | userland
  | kernel
  deriving DecidableEq, Repr

/-! ### Field access -/

def getSizem (h : Heap) (b : ℕ) : ℕ := (h.ma.blocks (b / 2 ^ h.ma.lower)).sizem

def isUsed (h : Heap) (b : ℕ) : Bool := (h.ma.blocks (b / 2 ^ h.ma.lower)).used

/-- Store one granule entry. -/
def setBlock (h : Heap) (b : ℕ) (i : Blockinfo) : Heap :=
  { h with ma := { h.ma with blocks := Function.update h.ma.blocks (b / 2 ^ h.ma.lower) i } }

/-- `set_sizem`: the field has 7 bits. -/
def setSizem (h : Heap) (b s : ℕ) : Heap :=
  setBlock h b { h.ma.blocks (b / 2 ^ h.ma.lower) with sizem := s % 128 }

def setUsed (h : Heap) (b : ℕ) (u : Bool) : Heap :=
  setBlock h b { h.ma.blocks (b / 2 ^ h.ma.lower) with used := u }

/-- The link word of the free block at offset `b`. -/
def link (h : Heap) (b : ℕ) : ℕ := readWord h.bytes (h.ma.mem + b)

def setLink (h : Heap) (b w : ℕ) : Heap :=
  { h with bytes := writeWord h.bytes (h.ma.mem + b) w }

def setHead (h : Heap) (m w : ℕ) : Heap :=
  { h with ma := { h.ma with freelist := Function.update h.ma.freelist m w } }

/-! ### Sizes and buddies -/

/-- The loop `for (pow2 = 1; pow2 <= nbytes; pow2 *= 2) m++`. -/
def mforsizeLoop (nbytes : ℕ) : ℕ → ℕ → ℕ → Except Fault ℕ
  | 0, _, _ => .error .diverges
  | fuel + 1, pow2, m =>
    if pow2 ≤ nbytes then mforsizeLoop nbytes fuel (pow2 * 2 % wordSize) (m + 1) else .ok m

def mforsize (ma : Memarea) (nbytes : ℕ) : Except Fault ℕ := do
  let m ← mforsizeLoop nbytes 33 1 0
  return if ma.lower ≤ m then m else ma.lower

def getBuddy (h : Heap) (block : ℕ) : Except Fault ℕ := do
  let m := getSizem h block
  assert .getBuddy (h.ma.lower ≤ m ∧ m ≤ h.ma.upper)
  return if block &&& 1 <<< m ≠ 0 then block &&& (0xFFFFFFFF ^^^ 1 <<< m) else block ||| 1 <<< m

/-! ### Free lists -/

def addToFreelist (h : Heap) (m block : ℕ) : Except Fault Heap := do
  assert .addToFreelist (block + 1 <<< m ≤ 1 <<< h.ma.upper)
  return setHead (setLink h block (h.ma.freelist m)) m block

/-- What the pointer `ptr` of `remove_from_freelist` can point at: the list head, or the link word of a
block. -/
inductive Ptr where
  | head
  | link (block : ℕ)

def Ptr.read (h : Heap) (m : ℕ) : Ptr → ℕ
  | .head => h.ma.freelist m
  | .link b => Buddy.link h b

def Ptr.write (h : Heap) (m : ℕ) (w : ℕ) : Ptr → Heap
  | .head => setHead h m w
  | .link b => setLink h b w

/-- The `while` loop.  Reaching `EMPTY` leaves `found` at 0, which the assertion after it rejects. -/
def removeLoop (h : Heap) (m block : ℕ) : ℕ → Ptr → Except Fault Heap
  | 0, _ => .error .diverges
  | fuel + 1, ptr =>
    if ptr.read h m = EMPTY then .error (.assertion .removeFromFreelist)
    else if ptr.read h m = block then .ok (ptr.write h m (link h (ptr.read h m)))
    else removeLoop h m block fuel (.link (ptr.read h m))

def removeFromFreelist (h : Heap) (m block : ℕ) : Except Fault Heap :=
  removeLoop h m block (wordSize + 1) .head

/-! ### Allocation -/

/-- `for (cm = m+1; cm <= upper; cm++)` up to the first non-empty list; the first argument bounds the
rounds. -/
def findLarger (ma : Memarea) : ℕ → ℕ → ℕ
  | 0, cm => cm
  | n + 1, cm =>
    if cm ≤ ma.upper then
      if ma.freelist cm ≠ EMPTY then cm else findLarger ma n (cm + 1)
    else cm

/-- One round of the splitting loop: the first block of list `cm` becomes two blocks of list `cm - 1`. -/
def splitOnce (h : Heap) (cm : ℕ) : Except Fault Heap := do
  let block := h.ma.freelist cm
  assert .buddyAlloc (isUsed h block = false)
  assert .buddyAlloc (getSizem h block = cm)
  let h ← removeFromFreelist h cm block
  let half1 := block
  let half2 := block + 1 <<< (cm - 1)
  let h := setSizem h half1 (cm - 1)
  let h := setSizem h half2 (cm - 1)
  assert .buddyAlloc (isUsed h half1 = false)
  assert .buddyAlloc (isUsed h half2 = false)
  let h ← addToFreelist h (cm - 1) half2
  addToFreelist h (cm - 1) half1

/-- `for (; cm > m; cm--)`. -/
def splitLoop (m : ℕ) : ℕ → Heap → Except Fault Heap
  | 0, h => .ok h
  | cm + 1, h =>
    if m < cm + 1 then do
      let h ← splitOnce h (cm + 1)
      splitLoop m cm h
    else .ok h

/-- The last part of `buddy_alloc`: take the first block of list `m`. -/
def takeBlock (h : Heap) (m : ℕ) : Except Fault (ℕ × Heap) := do
  let block := h.ma.freelist m
  assert .buddyAlloc (EMPTY ≠ block)
  assert .buddyAlloc (isUsed h block = false)
  assert .buddyAlloc (getSizem h block = m)
  let h := setUsed h block true
  let h ← removeFromFreelist h m block
  return ((block + h.ma.mem) % wordSize, h)

/-- No block is large enough: `testbuddy` gets `NULL`, the kernel fails an assertion. -/
def exhausted : Build → Heap → Except Fault (ℕ × Heap)
  | .userland, h => .ok (0, h)
  | .kernel, _ => .error .memoryExhausted

/-- `buddy_alloc`; the returned address is `0` for `NULL`. -/
def buddyAlloc (build : Build) (h : Heap) (nbytes : ℕ) : Except Fault (ℕ × Heap) := do
  let m ← mforsize h.ma nbytes
  if h.ma.freelist m = EMPTY then
    let cm := findLarger h.ma (h.ma.upper + 1) (m + 1)
    if h.ma.upper < cm then exhausted build h
    else splitLoop m cm h >>= fun h => takeBlock h m
  else takeBlock h m

/-! ### Release -/

/-- The merging loop; `m` grows in every round and stays below `upper`, so `upper + 1` rounds suffice. -/
def mergeLoop : ℕ → Heap → ℕ → ℕ → ℕ → Except Fault Heap
  | 0, _, _, _, _ => .error .diverges
  | fuel + 1, h, m, block, buddy =>
    if m < h.ma.upper ∧ isUsed h buddy = false ∧ getSizem h buddy = m then do
      let h ← removeFromFreelist h m buddy
      let lo := if buddy < block then buddy else block
      let hi := if buddy < block then block else buddy
      let h := setSizem h lo (m + 1)
      let h := setSizem h hi 0
      let buddy ← getBuddy h lo
      mergeLoop fuel h (m + 1) lo buddy
    else addToFreelist h m block

def buddyFree (h : Heap) (ptr : ℕ) : Except Fault Heap :=
  if ptr = 0 then .ok h
  else do
    assert .buddyFree (h.ma.mem ≤ ptr ∧ ptr < (h.ma.mem + 1 <<< h.ma.upper) % wordSize)
    let block := ptr - h.ma.mem
    let m := getSizem h block
    assert .buddyFree (h.ma.lower ≤ m ∧ m ≤ h.ma.upper)
    assert .buddyFree (isUsed h block = true)
    let h := setUsed h block false
    let buddy ← getBuddy h block
    mergeLoop (h.ma.upper + 1) h m block buddy

/-! ### Initialisation -/

def buddyNblocks (sizepow2 : ℕ) : ℕ := 1 <<< (sizepow2 - defaultLower)

/-- `buddy_init` over memory `bytes` and a granule array that still holds `blocks`. -/
def buddyInit (sizepow2 membase : ℕ) (blocks : ℕ → Blockinfo) (bytes : Memory) : Heap :=
  let nblocks := 1 <<< (sizepow2 - defaultLower)
  let cleared : ℕ → Blockinfo := fun g => if g < nblocks then ⟨0, false⟩ else blocks g
  { ma :=
      { lower := defaultLower
        upper := sizepow2
        mem := membase
        blocks := Function.update cleared 0 { cleared 0 with sizem := sizepow2 % 128 }
        freelist := Function.update (fun _ => EMPTY) sizepow2 0 }
    bytes := writeWord bytes membase EMPTY }

end AdelaideOS.Buddy
