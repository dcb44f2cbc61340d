import Emu68.Lib.ByteMemory
import Mathlib.Logic.Function.Basic

/-!
The software cache of `cache.c`: 128 sets of 8 ways, lines of 16 bytes with a dirty bit for each
32-bit word. The line, tag and flag arrays of `struct Cache` are indexed alike, so a way is one
record here. The host is big-endian. The masks of `GET_SET` and `GET_TAG` are powers of two and are
written as remainders.
-/

set_option autoImplicit false
set_option relaxedAutoImplicit false

namespace Emu68.SoftCache

open Lib

def cacheSetCount : ℕ := 128

def cacheWayCount : ℕ := 8

/-- Reads from here on bypass the cache. -/
def cacheLimit : ℕ := 0x01000000

abbrev Flags := BitVec 8

def fValid : Flags := 0x80

/-- `F_DIRTY0` to `F_DIRTY3`. -/
def fDirty : ℕ → Flags
  | 0 => 0x01
  | 1 => 0x02
  | 2 => 0x04
  | _ => 0x08

def isValid (flags : Flags) : Bool := flags &&& fValid != 0#8

def isDirty (flags : Flags) (word : ℕ) : Bool := flags &&& fDirty word != 0#8

def getSet (x : ℕ) : ℕ := x / 16 % cacheSetCount

def getTag (x : ℕ) : ℕ := x - x % (cacheSetCount * 16)

/-- A cache line with its tag and flags; the line is the first 16 bytes of `line`. -/
structure Way where
  line : Bytes
  tag : ℕ
  flags : Flags

structure Cache where
  ways : ℕ → ℕ → Way
  cWaySelect : ℕ → ℕ

/-- The cache that the type argument of an access selects, and the memory behind it. -/
structure CacheState where
  cache : Cache
  memory : Bytes

inductive CacheType where
  | icache
  | dcache
deriving DecidableEq

def Cache.setWay (c : Cache) (set way : ℕ) (content : Way) : Cache :=
  { c with ways := Function.update c.ways set (Function.update (c.ways set) way content) }

def cacheMarkHit (c : Cache) (set way : ℕ) : Cache :=
  let marked := c.cWaySelect set ||| 1 <<< way
  let all := 0xffffffff >>> (32 - cacheWayCount)
  { c with
    cWaySelect := Function.update c.cWaySelect set (if marked = all then 1 <<< way else marked) }

/-- `__builtin_ffs`: the position of the lowest set bit, counted from one. -/
def builtinFfs (x : ℕ) : ℕ :=
  match (List.range 32).find? x.testBit with
  | some i => i + 1
  | none => 0

def cacheGetWay (c : Cache) (set : ℕ) : ℕ :=
  builtinFfs (0xffffffff ^^^ c.cWaySelect set) - 1

def cacheInvalidateAll (s : CacheState) : CacheState :=
  { s with cache :=
      { ways := fun set way ↦
          if set < cacheSetCount ∧ way < cacheWayCount then { s.cache.ways set way with flags := 0 }
          else s.cache.ways set way
        cWaySelect := fun set ↦ if set < cacheSetCount then 0 else s.cache.cWaySelect set } }

/-- The way that holds the line, as the search loop of every access finds it. -/
def findWay (c : Cache) (set tag : ℕ) : Option ℕ :=
  (List.range cacheWayCount).find? fun i ↦
    (c.ways set i).tag = tag ∧ isValid (c.ways set i).flags = true

/-! ### Writing a line back -/

def writeBackWord (way : Way) (lineAddress : ℕ) (memory : Bytes) (word : ℕ) : Bytes :=
  if isDirty way.flags word then
    storeBytes memory (lineAddress + 4 * word) 4 fun i ↦ way.line (4 * word + i)
  else memory

/-- The four conditional stores of a flush or an eviction. -/
def writeBack (way : Way) (lineAddress : ℕ) (memory : Bytes) : Bytes :=
  [0, 1, 2, 3].foldl (writeBackWord way lineAddress) memory

def flushWay (set : ℕ) (s : CacheState) (way : ℕ) : CacheState :=
  let old := s.cache.ways set way
  let memory :=
    if isValid old.flags = true ∧
        old.flags &&& (fDirty 0 ||| fDirty 1 ||| fDirty 2 ||| fDirty 3) ≠ 0#8 then
      writeBack old (old.tag + set * 16) s.memory
    else s.memory
  ⟨s.cache.setWay set way { old with flags := 0 }, memory⟩

def flushSet (s : CacheState) (set : ℕ) : CacheState :=
  let cache := { s.cache with cWaySelect := Function.update s.cache.cWaySelect set 0 }
  (List.range cacheWayCount).foldl (flushWay set) { s with cache }

def cacheFlushAll (type : CacheType) (s : CacheState) : CacheState :=
  let s := if type = .icache then cacheInvalidateAll s else s
  (List.range cacheSetCount).foldl flushSet s

def clearWay (c : Cache) (set way : ℕ) : Cache :=
  let c := c.setWay set way { c.ways set way with flags := 0 }
  let kept := c.cWaySelect set &&& (0xffffffff ^^^ 1 <<< way)
  { c with cWaySelect := Function.update c.cWaySelect set kept }

def invalidateLineWay (address : ℕ) (s : CacheState) (way : ℕ) : CacheState :=
  let old := s.cache.ways (getSet address) way
  if old.tag = getTag address ∧ isValid old.flags = true then
    { s with cache := clearWay s.cache (getSet address) way }
  else s

def cacheInvalidateLine (s : CacheState) (address : ℕ) : CacheState :=
  (List.range cacheWayCount).foldl (invalidateLineWay address) s

def flushLineWay (address : ℕ) (s : CacheState) (way : ℕ) : CacheState :=
  let old := s.cache.ways (getSet address) way
  if old.tag = getTag address ∧ isValid old.flags = true then
    ⟨clearWay s.cache (getSet address) way,
      writeBack old (old.tag + getSet address * 16) s.memory⟩
  else s

def cacheFlushLine (type : CacheType) (s : CacheState) (address : ℕ) : CacheState :=
  let s := if type = .icache then cacheInvalidateLine s address else s
  (List.range cacheWayCount).foldl (flushLineWay address) s

/-! ### Accesses inside one line -/

/-- The miss path: the way to replace is written back, and the line is loaded unless the access
overwrites all of it. -/
def allocateWay (fill : Bool) (s : CacheState) (address : ℕ) : CacheState × ℕ :=
  let set := getSet address
  let way := cacheGetWay s.cache set
  let old := s.cache.ways set way
  let memory :=
    if isValid old.flags then writeBack old (old.tag + set * 16) s.memory else s.memory
  let line := if fill then fun i ↦ memory (address - address % 16 + i) else old.line
  (⟨s.cache.setWay set way ⟨line, getTag address, fValid⟩, memory⟩, way)

def selectWay (fill : Bool) (s : CacheState) (address : ℕ) : CacheState × ℕ :=
  match findWay s.cache (getSet address) (getTag address) with
  | some way => (s, way)
  | none => allocateWay fill s address

/-- The common body of the reads: `n` bytes that lie inside one line. -/
def readLine (n : ℕ) (s : CacheState) (address : ℕ) : CacheState × ℕ :=
  let (s, way) := selectWay true s address
  let cache := cacheMarkHit s.cache (getSet address) way
  ({ s with cache }, loadValue (cache.ways (getSet address) way).line (address % 16) n)

/-- The common body of the writes. A write-through miss returns 0 and stores nothing. -/
def writeLine (n : ℕ) (fill : Bool) (dirty : Flags) (s : CacheState) (address data : ℕ)
    (wb : UInt8) : CacheState × ℕ :=
  if findWay s.cache (getSet address) (getTag address) = none ∧ wb = 0 then (s, 0)
  else
    let (s, way) := selectWay fill s address
    let cache := cacheMarkHit s.cache (getSet address) way
    let old := cache.ways (getSet address) way
    let line := storeBytes old.line (address % 16) n (byteOf n data)
    if wb ≠ 0 then
      (⟨cache.setWay (getSet address) way { old with line, flags := old.flags ||| dirty },
        s.memory⟩, 1)
    else
      (⟨cache.setWay (getSet address) way { old with line },
        storeBytes s.memory address n (byteOf n data)⟩, 1)

/-! ### The reads

A read that crosses a line is put together from reads that do not; those recursive calls are
`readSpan`. -/

def readSpan (n : ℕ) (s : CacheState) (address : ℕ) : CacheState × ℕ :=
  if cacheLimit ≤ address then (s, loadValue s.memory address n) else readLine n s address

/-- Two consecutive reads, and the value that `join` makes of theirs. -/
def readBoth (first second : CacheState → CacheState × ℕ) (join : ℕ → ℕ → ℕ) (s : CacheState) :
    CacheState × ℕ :=
  let (s, x) := first s
  let (s, y) := second s
  (s, join x y)

def cacheRead8 (s : CacheState) (address : ℕ) : CacheState × ℕ :=
  readSpan 1 s address

def cacheRead16 (s : CacheState) (address : ℕ) : CacheState × ℕ :=
  if cacheLimit ≤ address then (s, loadValue s.memory address 2)
  else if address % 16 > 14 then
    readBoth (readSpan 1 · address) (readSpan 1 · (address + 1)) (fun x y ↦ x <<< 8 ||| y) s
  else readLine 2 s address

def cacheRead32 (s : CacheState) (address : ℕ) : CacheState × ℕ :=
  if cacheLimit ≤ address then (s, loadValue s.memory address 4)
  else if address % 16 > 12 then
    match address % 16 with
    | 13 => readBoth (readSpan 4 · (address - 1)) (readSpan 1 · (address + 3))
        (fun x y ↦ (x <<< 8) % 2 ^ 32 ||| y) s
    | 14 => readBoth (readSpan 2 · address) (readSpan 2 · (address + 2))
        (fun x y ↦ x <<< 16 ||| y) s
    | _ => readBoth (readSpan 1 · address) (readSpan 4 · (address + 1))
        (fun x y ↦ x <<< 24 ||| y >>> 8) s
  else readLine 4 s address

def cacheRead64 (s : CacheState) (address : ℕ) : CacheState × ℕ :=
  if cacheLimit ≤ address then (s, loadValue s.memory address 8)
  else if address % 16 > 8 then
    match address % 16 with
    | 9 => readBoth (readSpan 8 · (address - 1)) (readSpan 1 · (address + 7))
        (fun x y ↦ (x <<< 8) % 2 ^ 64 ||| y) s
    | 10 => readBoth (readSpan 8 · (address - 2)) (readSpan 2 · (address + 6))
        (fun x y ↦ (x <<< 16) % 2 ^ 64 ||| y) s
    | 11 => readBoth (readSpan 8 · (address - 3)) (readSpan 4 · (address + 5))
        (fun x y ↦ (x <<< 24) % 2 ^ 64 ||| y >>> 8) s
    | 12 => readBoth (readSpan 4 · address) (readSpan 4 · (address + 4))
        (fun x y ↦ x <<< 32 ||| y) s
    -- the source shifts the two bytes at offsets 13 and 14 by 40 and leaves the one at 15 out
    | 13 => readBoth (readSpan 2 · address) (readSpan 8 · (address + 3))
        (fun x y ↦ x <<< 40 ||| y >>> 24) s
    | 14 => readBoth (readSpan 2 · address) (readSpan 8 · (address + 2))
        (fun x y ↦ x <<< 48 ||| y >>> 16) s
    | _ => readBoth (readSpan 1 · address) (readSpan 8 · (address + 1))
        (fun x y ↦ x <<< 56 ||| y >>> 8) s
  else readLine 8 s address

def cacheRead128 (s : CacheState) (address : ℕ) : CacheState × ℕ :=
  if cacheLimit ≤ address then (s, loadValue s.memory address 16)
  else if address % 16 ≠ 0 then
    readBoth (cacheRead64 · address) (cacheRead64 · (address + 8)) (fun hi lo ↦ hi <<< 64 ||| lo) s
  else readLine 16 s address

/-! ### The writes -/

/-- The dirty bits of a write of at most four bytes, the last at `address + last`. -/
def dirtySpan (last address : ℕ) : Flags :=
  match address / 4 % 4 with
  | 0 => fDirty 0 ||| if (address + last) / 4 % 4 = 1 then fDirty 1 else 0
  | 1 => fDirty 1 ||| if (address + last) / 4 % 4 = 2 then fDirty 2 else 0
  | 2 => fDirty 2 ||| if (address + last) / 4 % 4 = 3 then fDirty 3 else 0
  | _ => fDirty 3

/-- The dirty bits of a write of eight bytes. -/
def dirtySpan64 (address : ℕ) : Flags :=
  match address / 4 % 4 with
  | 0 => fDirty 0 ||| fDirty 1 ||| if (address + 7) / 4 % 4 = 2 then fDirty 2 else 0
  | 1 => fDirty 1 ||| fDirty 2 ||| if (address + 7) / 4 % 4 = 3 then fDirty 3 else 0
  | 2 => fDirty 2 ||| fDirty 3
  | _ => 0

def cacheWrite128 (s : CacheState) (address data : ℕ) (wb : UInt8) : CacheState × ℕ :=
  if address % 16 ≠ 0 then (s, 0)
  else writeLine 16 false (fDirty 0 ||| fDirty 1 ||| fDirty 2 ||| fDirty 3) s address data wb

def cacheWrite64 (s : CacheState) (address data : ℕ) (wb : UInt8) : CacheState × ℕ :=
  if address % 16 > 8 then (s, 0)
  else writeLine 8 true (dirtySpan64 address) s address data wb

def cacheWrite32 (s : CacheState) (address data : ℕ) (wb : UInt8) : CacheState × ℕ :=
  if address % 16 > 12 then (s, 0)
  else writeLine 4 true (dirtySpan 3 address) s address data wb

def cacheWrite16 (s : CacheState) (address data : ℕ) (wb : UInt8) : CacheState × ℕ :=
  if address % 16 > 14 then (s, 0)
  else writeLine 2 true (dirtySpan 1 address) s address data wb

def cacheWrite8 (s : CacheState) (address data : ℕ) (wb : UInt8) : CacheState × ℕ :=
  writeLine 1 true (dirtySpan 0 address) s address data wb

/-! ### The operations as steps -/

inductive Width where
  | w8
  | w16
  | w32
  | w64
  | w128

def Width.bytes : Width → ℕ
  | .w8 => 1
  | .w16 => 2
  | .w32 => 4
  | .w64 => 8
  | .w128 => 16

def cacheRead : Width → CacheState → ℕ → CacheState × ℕ
  | .w8 => cacheRead8
  | .w16 => cacheRead16
  | .w32 => cacheRead32
  | .w64 => cacheRead64
  | .w128 => cacheRead128

def cacheWrite : Width → CacheState → ℕ → ℕ → UInt8 → CacheState × ℕ
  | .w8 => cacheWrite8
  | .w16 => cacheWrite16
  | .w32 => cacheWrite32
  | .w64 => cacheWrite64
  | .w128 => cacheWrite128

/-- An operation on the data cache. -/
inductive CacheOp where
  | read (width : Width) (address : ℕ)
  | write (width : Width) (address data : ℕ) (wb : UInt8)
  | flushLine (address : ℕ)
  | flushAll

/-- The state after an operation, and the value it returns. -/
def cacheStep (s : CacheState) : CacheOp → CacheState × ℕ
  | .read width address => cacheRead width s address
  | .write width address data wb => cacheWrite width s address data wb
  | .flushLine address => (cacheFlushLine .dcache s address, 0)
  | .flushAll => (cacheFlushAll .dcache s, 0)

end Emu68.SoftCache
