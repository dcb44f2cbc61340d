import Mathlib.Data.BitVec
import Mathlib.Logic.Function.Basic

/-!
The allocator of `tlsf.c`, for one thread. Memory consists of words of eight bytes at addresses that
are multiples of eight; a block has its header at `b` and `b + 8` and its contents from `b + 16` on,
where a free block keeps the links of its free list. `SIZE_ALIGN` and `ROUNDUP(sizeof(hdr_t))` are
16, `SMALL_BLOCK` is 128, `MAX_LOG2_SLI` is 5, `FLI_OFFSET` is 6, `REAL_FLI` is 24 and `MAX_SLI` is
32; the two lowest bits of a length are `THIS_FREE` and `PREV_FREE`.
-/

set_option autoImplicit false
set_option relaxedAutoImplicit false

namespace Emu68.Tlsf

/-- Why a call does not return: an access behind `slbitmap` or `matrix`, or the endless loop behind
an error message. -/
inductive Stop
  | outOfBounds
  | halted

/-- `tlsf_t` without lock and flags, and the memory. The null pointer is `0`. -/
structure Heap where
  memoryArea : ℕ
  totalSize : ℕ
  freeSize : ℕ
  flbitmap : BitVec 32
  slbitmap : ℕ → BitVec 32
  matrix : ℕ × ℕ → ℕ
  mem : ℕ → ℕ

def Heap.write (h : Heap) (a v : ℕ) : Heap := { h with mem := Function.update h.mem a v }

/-! ### Sizes and classes -/

def roundup (x : ℕ) : ℕ := (x + 15) % 2 ^ 64 / 16 * 16

def rounddown (x : ℕ) : ℕ := x / 16 * 16

/-- The difference of two `uintptr_t`. -/
def sub64 (x y : ℕ) : ℕ := (x + 2 ^ 64 - y) % 2 ^ 64

/-- `MS`, of a number that is not zero. -/
def ms (i : ℕ) : ℕ := i.log2

/-- `LS`; there is no answer for zero. -/
def ls (bits : BitVec 32) : Option ℕ := (List.range 32).find? fun i ↦ bits.getLsbD i

def mappingInsert (r : ℕ) : ℤ × ℤ :=
  if r < 128 then (0, (r / 4 : ℕ)) else ((ms r : ℤ) - 6, ((r >>> (ms r - 5) : ℕ) : ℤ) - 32)

/-- The request, rounded up, and its class. A shift by a negative distance goes together with a first
index below zero. -/
def mappingSearch (r : ℕ) : ℕ × ℤ × ℤ :=
  if r < 128 then (r, 0, (r / 4 : ℕ))
  else
    let tmp := 2 ^ (ms r - 5) - 1
    let tr := (r + tmp) % 2 ^ 64
    (tr / 2 ^ (ms r - 5) * 2 ^ (ms r - 5), (ms tr : ℤ) - 6, ((tr >>> (ms tr - 5) : ℕ) : ℤ) - 32)

/-- The indices of an access to `slbitmap` and `matrix`. -/
def slot (fl sl : ℤ) : Except Stop (ℕ × ℕ) :=
  if 0 ≤ fl ∧ fl < 24 ∧ 0 ≤ sl ∧ sl < 32 then .ok (fl.toNat, sl.toNat) else .error .outOfBounds

/-- The first block of a list at or above a class, and its class; null if there is none. -/
def findSuitableBlock (h : Heap) (fl sl : ℤ) : Except Stop (ℕ × ℕ × ℕ) := do
  let (fl, sl) ← slot fl sl
  match ls (h.slbitmap fl &&& BitVec.allOnes 32 <<< sl) with
  | some sl => return (h.matrix (fl, sl), fl, sl)
  | none =>
    match ls (h.flbitmap &&& BitVec.allOnes 32 <<< (fl + 1)) with
    | none => return (0, fl, sl)
    | some fl =>
      match ls (h.slbitmap fl) with
      | none => .error .outOfBounds
      | some sl =>
        let (fl, sl) ← slot fl sl
        return (h.matrix (fl, sl), fl, sl)

/-! ### Block headers -/

def getSize (h : Heap) (b : ℕ) : Except Stop ℕ :=
  let size := h.mem (b + 8) / 4 * 4
  if 0xffffffff < size then .error .halted else .ok size

def getFlags (h : Heap) (b : ℕ) : ℕ := h.mem (b + 8) % 4

def setSize (h : Heap) (b size : ℕ) : Except Stop Heap :=
  if 0xffffffff < size then .error .halted else .ok (h.write (b + 8) (getFlags h b ||| size))

def setSizeAndFlags (h : Heap) (b size flags : ℕ) : Except Stop Heap :=
  if 0xffffffff < size then .error .halted else .ok (h.write (b + 8) (size ||| flags))

def freeBlock (h : Heap) (b : ℕ) : Bool := h.mem (b + 8) % 2 = 1

def setFreeBlock (h : Heap) (b : ℕ) : Heap := h.write (b + 8) (h.mem (b + 8) / 2 * 2 + 1)

def setBusyBlock (h : Heap) (b : ℕ) : Heap := h.write (b + 8) (h.mem (b + 8) / 2 * 2)

def setFreePrevBlock (h : Heap) (b : ℕ) : Heap :=
  h.write (b + 8) (h.mem (b + 8) / 4 * 4 + 2 + h.mem (b + 8) % 2)

def setBusyPrevBlock (h : Heap) (b : ℕ) : Heap :=
  h.write (b + 8) (h.mem (b + 8) / 4 * 4 + h.mem (b + 8) % 2)

def freePrevBlock (h : Heap) (b : ℕ) : Bool := h.mem (b + 8) / 2 % 2 = 1

def getNextBhdr (hdr size : ℕ) : ℕ := hdr + 16 + size

def memToBhdr (ptr : ℕ) : ℕ := ptr - 16

/-! ### Free lists -/

/-- The neighbours of a node point at each other. -/
def unlinkNode (h : Heap) (b : ℕ) : Heap :=
  let h := if h.mem (b + 24) ≠ 0 then h.write (h.mem (b + 24) + 16) (h.mem (b + 16)) else h
  if h.mem (b + 16) ≠ 0 then h.write (h.mem (b + 16) + 24) (h.mem (b + 24)) else h

/-- An empty list loses its bit. -/
def clearSl (h : Heap) (fl sl : ℕ) : Heap :=
  if h.matrix (fl, sl) = 0 then
    { h with slbitmap := Function.update h.slbitmap fl (h.slbitmap fl &&& ~~~(1#32 <<< sl)) }
  else h

def clearFl (h : Heap) (fl : ℕ) : Heap :=
  if h.slbitmap fl = 0 then { h with flbitmap := h.flbitmap &&& ~~~(1#32 <<< fl) } else h

/-- A list whose first node was `b` begins with the next one. -/
def dropFirst (h : Heap) (b fl sl : ℕ) : Heap :=
  if h.matrix (fl, sl) = b then
    let h := { h with matrix := Function.update h.matrix (fl, sl) (h.mem (b + 24)) }
    clearFl (clearSl h fl sl) fl
  else h

def removeHeader (h : Heap) (b : ℕ) (fl sl : ℤ) : Except Stop Heap := do
  let size ← getSize h b
  if size = 0 then return h
  else
    let (fl, sl) ← slot fl sl
    let h := unlinkNode h b
    return dropFirst { h with freeSize := h.freeSize - size } b fl sl

/-- The block becomes the first node of the list. -/
def linkFirst (h : Heap) (b fl sl : ℕ) : Heap :=
  let h := (h.write (b + 16) 0).write (b + 24) (h.matrix (fl, sl))
  let h := if h.matrix (fl, sl) ≠ 0 then h.write (h.matrix (fl, sl) + 16) b else h
  { h with
    matrix := Function.update h.matrix (fl, sl) b
    flbitmap := h.flbitmap ||| 1#32 <<< fl
    slbitmap := Function.update h.slbitmap fl (h.slbitmap fl ||| 1#32 <<< sl) }

def insertFreeBlock (h : Heap) (b : ℕ) : Except Stop Heap := do
  let size ← getSize h b
  if size = 0 then return h
  else
    let (fl, sl) ← slot (mappingInsert size).1 (mappingInsert size).2
    return linkFirst { h with freeSize := h.freeSize + size } b fl sl

/-! ### Allocation -/

/-- The block is split if what remains has room for a header and more. -/
def splitBlock (h : Heap) (b size next : ℕ) : Except Stop Heap := do
  let bsize ← getSize h b
  if size + 16 < bsize then
    let sb := getNextBhdr b size
    let h := h.write sb b
    let h ← setSizeAndFlags h sb (bsize - size - 16) 1
    let h := h.write next sb
    let h := setFreePrevBlock h next
    let h ← setSize h b size
    insertFreeBlock h sb
  else return setBusyPrevBlock h next

def tlsfInternMalloc (h : Heap) (size : ℕ) : Except Stop (Heap × ℕ) := do
  let (size, fl, sl) := mappingSearch size
  let (b, fl, sl) ← findSuitableBlock h fl sl
  if b = 0 then return (h, 0)
  else
    let bsize ← getSize h b
    let next := getNextBhdr b bsize
    let h ← removeHeader h b fl sl
    let h ← splitBlock h b size next
    let h := setBusyBlock h b
    return ((h.write (b + 24) 0).write (b + 16) 0, b)

def tlsfMalloc (h : Heap) (size : ℕ) : Except Stop (Heap × ℕ) :=
  let size := roundup size
  if size = 0 then .ok (h, 0)
  else do
    let (h, b) ← tlsfInternMalloc h size
    return (h, if b = 0 then 0 else b + 16)

def merge (h : Heap) (b1 b2 : ℕ) : Except Stop Heap := do
  let size1 ← getSize h b1
  let size2 ← getSize h b2
  if 0xffffffff < size1 + size2 + 16 then .error .halted
  else setSize h b1 (size1 + size2 + 16)

def mergePrev (h : Heap) (block : ℕ) : Except Stop (Heap × ℕ) :=
  if freePrevBlock h block then do
    let prev := h.mem block
    let size ← getSize h prev
    let h ← removeHeader h prev (mappingInsert size).1 (mappingInsert size).2
    let h ← merge h prev block
    return (h, prev)
  else .ok (h, block)

def mergeNext (h : Heap) (block : ℕ) : Except Stop Heap := do
  let size ← getSize h block
  let next := getNextBhdr block size
  if freeBlock h next then
    let nextSize ← getSize h next
    let h ← removeHeader h next (mappingInsert nextSize).1 (mappingInsert nextSize).2
    merge h block next
  else return h

/-- The block behind a block that has become free, which goes into its list. -/
def announceFree (h : Heap) (b : ℕ) : Except Stop Heap := do
  let size ← getSize h b
  let next := getNextBhdr b size
  insertFreeBlock (setFreePrevBlock (h.write next b) next) b

/-- The space in front of the aligned block, if there is any. -/
def freeFront (h : Heap) (b alignedBhdr : ℕ) : Except Stop Heap :=
  if alignedBhdr ≠ b ∧ 16 ≤ alignedBhdr - b then do
    let h ← setSize h b (alignedBhdr - b - 16)
    let h := h.write alignedBhdr b
    let h := setFreePrevBlock h alignedBhdr
    let h := setFreeBlock h b
    let (h, b) ← mergePrev h b
    insertFreeBlock h b
  else .ok h

/-- The space behind the aligned block. -/
def freeBack (h : Heap) (alignedBhdr diffEnd : ℕ) : Except Stop Heap :=
  if 16 ≤ diffEnd then do
    let size ← getSize h alignedBhdr
    let b1 := getNextBhdr alignedBhdr size
    let h := h.write b1 alignedBhdr
    let h ← setSize h b1 (diffEnd - 16)
    let h := setBusyPrevBlock h b1
    let h := setFreeBlock h b1
    let h ← mergeNext h b1
    announceFree h b1
  else .ok h

/-- The part of `tlsf_malloc_aligned` that places a block of `size` bytes in the block `b`. -/
def carveAligned (h : Heap) (b size align : ℕ) : Except Stop (Heap × ℕ) := do
  let ptr := b + 16
  let alignedPtr := (ptr + align - 1) / align * align
  let alignedBhdr := memToBhdr alignedPtr
  let bsize ← getSize h b
  let diffEnd := sub64 (getNextBhdr b bsize) (getNextBhdr alignedBhdr size)
  let h ← setSize h alignedBhdr size
  let h := setBusyBlock h alignedBhdr
  let h ← freeFront h b alignedBhdr
  let h ← freeBack h alignedBhdr diffEnd
  return (h, alignedPtr)

/-- `align`, between `SIZE_ALIGN` and `MAX_ALIGNMENT`, down to a power of two. -/
def effectiveAlign (align : ℕ) : ℕ := 2 ^ ms (min (max align 16) 0x200000)

def tlsfMallocAligned (h : Heap) (size align : ℕ) : Except Stop (Heap × ℕ) :=
  let size := roundup size
  let align := effectiveAlign align
  if size = 0 ∨ 2 ^ 64 - 1 - align < size then .ok (h, 0)
  else do
    let (h, b) ← tlsfInternMalloc h (size + align)
    if b = 0 then return (h, 0)
    else if 16 < align then carveAligned h b size align
    else return (h, b + 16)

/-! ### Deallocation -/

def tlsfFree (h : Heap) (ptr : ℕ) : Except Stop Heap :=
  if ptr = 0 then .ok h
  else
    let fb := memToBhdr ptr
    if freeBlock h fb then .error .halted
    else do
      let (h, fb) ← mergePrev (setFreeBlock h fb) fb
      let h ← mergeNext h fb
      announceFree h fb

/-! ### Reallocation -/

/-- The end of a block becomes free. -/
def shrinkBlock (h : Heap) (b newSize : ℕ) : Except Stop Heap := do
  let size ← getSize h b
  let b1 := getNextBhdr b newSize
  let h := h.write b1 b
  let h ← setSizeAndFlags h b1 (sub64 (sub64 size newSize) 16) 1
  let h ← setSize h b newSize
  let h ← mergeNext h b1
  announceFree h b1

/-- A block takes the free block behind it, or the front of it. -/
def growBlock (h : Heap) (b newSize : ℕ) : Except Stop Heap := do
  let size ← getSize h b
  let bnext := getNextBhdr b size
  let nextSize ← getSize h bnext
  let h ← removeHeader h bnext (mappingInsert nextSize).1 (mappingInsert nextSize).2
  let totalSize := size + nextSize + 16
  if 16 ≤ totalSize - newSize then
    let h ← setSize h b newSize
    let b1 := getNextBhdr b newSize
    let h := h.write b1 b
    let h ← setSizeAndFlags h b1 (totalSize - newSize - 16) 1
    announceFree h b1
  else
    let h ← setSize h b totalSize
    let bnext := getNextBhdr b totalSize
    return setBusyPrevBlock (h.write bnext b) bnext

def memcpy (h : Heap) (dst src n : ℕ) : Heap :=
  { h with mem := fun a ↦ if dst ≤ a ∧ a < dst + n then h.mem (src + (a - dst)) else h.mem a }

/-- A new block takes over the contents. -/
def moveBlock (h : Heap) (ptr oldSize newSize : ℕ) : Except Stop (Heap × ℕ) := do
  let (h, p) ← tlsfMalloc h newSize
  if p = 0 then return (h, 0)
  else
    let h ← tlsfFree (memcpy h p ptr (min oldSize newSize)) ptr
    return (h, p)

def tlsfRealloc (h : Heap) (ptr newSize : ℕ) : Except Stop (Heap × ℕ) :=
  if ptr = 0 then tlsfMalloc h newSize
  else if newSize = 0 then (tlsfFree h ptr).map (·, 0)
  else
    let newSize := roundup newSize
    let b := memToBhdr ptr
    do
      let size ← getSize h b
      let bnext := getNextBhdr b size
      if newSize = size then return (h, ptr)
      else if newSize ≤ sub64 size 16 then (shrinkBlock h b newSize).map (·, ptr)
      else if freeBlock h bnext then
        let nextSize ← getSize h bnext
        if newSize ≤ size + nextSize + 16 then (growBlock h b newSize).map (·, ptr)
        else moveBlock h ptr size newSize
      else moveBlock h ptr size newSize

/-! ### Memory areas -/

/-- The headers of a new area: one in front of `tlsf_area_t`, one for a busy block, and one at the
end. The result is the address of `tlsf_area_t`. -/
def initMemoryArea (h : Heap) (memory size : ℕ) : Except Stop (Heap × ℕ) := do
  let size := rounddown size
  let h := (h.write (memory + 8) 16).write memory 0
  let b := getNextBhdr memory 16
  let h := (h.write b memory).write (b + 8) (size - 64)
  let bsize ← getSize h b
  let bend := getNextBhdr b bsize
  let h := (h.write (bend + 8) 0).write bend b
  return (h.write (memory + 24) bend, memory + 16)

def tlsfAddMemory (h : Heap) (memory size : ℕ) : Except Stop Heap :=
  if memory = 0 ∨ size ≤ 64 then .ok h
  else do
    let (h, area) ← initMemoryArea h memory size
    let h := { h.write area h.memoryArea with memoryArea := area, totalSize := h.totalSize + size }
    let hsize ← getSize h (memToBhdr area)
    tlsfFree h (getNextBhdr (memToBhdr area) hsize + 16)

/-- `tlsf_init`, over a memory with any contents. -/
def tlsfInit (mem : ℕ → ℕ) : Heap := ⟨0, 0, 0, 0, fun _ ↦ 0, fun _ ↦ 0, mem⟩

/-- The first 8192 bytes hold `tlsf_t`. -/
def tlsfInitWithMemory (mem : ℕ → ℕ) (memory size : ℕ) : Except Stop Heap :=
  tlsfAddMemory (tlsfInit mem) (memory + 8192) (sub64 size 8192)

end Emu68.Tlsf
