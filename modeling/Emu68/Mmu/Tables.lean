import Mathlib.Data.BitVec
import Mathlib.Logic.Function.Basic
import Mathlib.Tactic.Common

/-!
The translation tables of `mmu.c`: 39-bit address spaces with a table for the lower and one for the
upper half, 1 GiB and 2 MiB blocks, and 4 KiB pages. Tables are reached at `PHYS_VIRT_OFFSET` plus
their physical address; the model keeps them by physical address. The pool of free pages is the list
that `mp_next` links.
-/

set_option autoImplicit false
set_option relaxedAutoImplicit false

namespace Emu68.Mmu

abbrev Address := BitVec 64

abbrev Entry := BitVec 64

/-- The 512 entries of a table. -/
abbrev Page := ℕ → Entry

structure State where
  pages : Address → Page
  freePages : List Address
  ttbr0 : Address
  ttbr1 : Address

variable (s : State)

def State.setEntry (table : Address) (idx : ℕ) (entry : Entry) : State :=
  { s with pages := Function.update s.pages table (Function.update (s.pages table) idx entry) }

def State.fill (table : Address) (entries : Page) : State :=
  { s with pages := Function.update s.pages table entries }

/-- `get_4k_page`; without a free page it does not return. -/
def get4kPage : Option (Address × State) :=
  match s.freePages with
  | [] => none
  | p :: rest => some (p, { s with freePages := rest })

def free4kPage (page : Address) : State := { s with freePages := page :: s.freePages }

def isKernel (addr : Address) : Prop := addr &&& 0xffff000000000000 ≠ 0

instance (addr : Address) : Decidable (isKernel addr) := inferInstanceAs (Decidable (_ ≠ _))

/-- The table of the half that the address lies in. -/
def rootOf (addr : Address) : Address := if isKernel addr then s.ttbr1 else s.ttbr0

def idxL1 (addr : Address) : ℕ := (addr >>> 30 &&& 0x1ff).toNat

def idxL2 (addr : Address) : ℕ := (addr >>> 21 &&& 0x1ff).toNat

def idxL3 (addr : Address) : ℕ := (addr >>> 12 &&& 0x1ff).toNat

/-! ### Translation -/

def mmuVirt2phys (addr : Address) : Address :=
  let tmp := s.pages (rootOf s addr) (idxL1 addr)
  if tmp &&& 1 ≠ 0 then
    if tmp &&& 2 ≠ 0 then
      let tmp := s.pages (tmp &&& 0x0000fffffffff000) (idxL2 addr)
      if tmp &&& 1 ≠ 0 then
        if tmp &&& 2 ≠ 0 then
          let tmp := s.pages (tmp &&& 0x0000fffffffff000) (idxL3 addr)
          if tmp &&& 3 = 3 then (tmp &&& 0xfffffffff000) + (addr &&& 0xfff) else -1
        else (tmp &&& 0xffffffe00000) + (addr &&& 0x1fffff)
      else -1
    else (tmp &&& 0xffffc0000000) + (addr &&& 0x3fffffff)
  else -1

/-- The leaf that the hardware takes the attributes from. -/
def leafEntry (addr : Address) : Option Entry :=
  let tmp := s.pages (rootOf s addr) (idxL1 addr)
  if tmp &&& 1 ≠ 0 then
    if tmp &&& 2 ≠ 0 then
      let tmp := s.pages (tmp &&& 0x0000fffffffff000) (idxL2 addr)
      if tmp &&& 1 ≠ 0 then
        if tmp &&& 2 ≠ 0 then
          let tmp := s.pages (tmp &&& 0x0000fffffffff000) (idxL3 addr)
          if tmp &&& 3 = 3 then some tmp else none
        else some tmp
      else none
    else some tmp
  else none

/-! ### Mapping -/

/-- For the lowest 4 GiB: the shadows above them and at the top of the upper half. -/
def mirrorPage (virt : Address) : State :=
  if ¬isKernel virt ∧ idxL1 virt < 4 then
    let s := s.setEntry s.ttbr0 (idxL1 virt + 4) (s.pages s.ttbr0 (idxL1 virt))
    s.setEntry s.ttbr1 (508 + idxL1 virt) (s.pages s.ttbr0 (idxL1 virt))
  else s

/-- The directory for an address, which is created or split off where there is none: the common
front of `put_2m_page` and `put_4k_page`. -/
def directory (virt : Address) : Option (Address × State) :=
  let tbl := rootOf s virt
  let tbl2 := s.pages tbl (idxL1 virt)
  if tbl2 &&& 3 = 0 then do
    let (p, s) ← get4kPage s
    let s := s.fill p fun _ ↦ 0
    some (p, mirrorPage (s.setEntry tbl (idxL1 virt) (3 ||| p)) virt)
  else if tbl2 &&& 3 = 1 then do
    let (p, s) ← get4kPage s
    let s := s.fill p fun i ↦ (tbl2 &&& 0x7fc0000fff#64) + BitVec.ofNat 64 (i <<< 21)
    some (p, mirrorPage (s.setEntry tbl (idxL1 virt) (3 ||| p)) virt)
  else some (tbl2 &&& 0x7ffffff000, s)

def mmuPage : BitVec 32 := 0x001

def put2mPage (phys virt : Address) (attrLow attrHigh : BitVec 32) : Option State := do
  let (p, s) ← directory s virt
  let s := if s.pages p (idxL2 virt) &&& 3 = 3 then
      free4kPage s (s.pages p (idxL2 virt) &&& 0x7ffffff000)
    else s
  let entry := phys &&& 0x0000ffffffe00000#64 ||| (attrLow ||| mmuPage).setWidth 64 |||
    attrHigh.setWidth 64 <<< 52
  some (s.setEntry p (idxL2 virt) entry)

/-- The table of pages for an address in a directory. -/
def pageTable (tbl virt : Address) : Option (Address × State) :=
  let tbl3 := s.pages tbl (idxL2 virt)
  if tbl3 &&& 3 = 0 then do
    let (p, s) ← get4kPage s
    let s := s.fill p fun _ ↦ 0
    some (p, s.setEntry tbl (idxL2 virt) (3 ||| p))
  else if tbl3 &&& 3 = 1 then do
    let (p, s) ← get4kPage s
    let s := s.fill p fun i ↦ 3#64 ||| ((tbl3 &&& 0x7fffe00fff#64) + BitVec.ofNat 64 (i <<< 12))
    some (p, s.setEntry tbl (idxL2 virt) (3 ||| p))
  else some (tbl3 &&& 0x7ffffff000, s)

def put4kPage (phys virt : Address) (attrLow attrHigh : BitVec 32) : Option State := do
  let (tbl, s) ← directory s virt
  let (p, s) ← pageTable s tbl virt
  let entry := phys &&& 0x0000fffffffff000#64 ||| (attrLow ||| 3).setWidth 64 |||
    attrHigh.setWidth 64 <<< 48
  some (s.setEntry p (idxL3 virt) entry)

/-- Where a loop of `mmu_map` stands. -/
structure Cursor where
  phys : Address
  virt : Address
  length : Address

def Cursor.advance (c : Cursor) (size : Address) : Cursor :=
  ⟨c.phys + size, c.virt + size, c.length - size⟩

/-- A loop of `mmu_map`: as long as the test holds, a page is put and the cursor advances by its
size. A round takes at least `size` from the length, which bounds the number of rounds. -/
def mapLoop (test : Cursor → Bool) (size : Address)
    (put : State → Address → Address → Option State) : ℕ → State → Cursor → Option (State × Cursor)
  | 0, s, c => some (s, c)
  | n + 1, s, c =>
    if test c then do
      let s ← put s c.phys c.virt
      mapLoop test size put n s (c.advance size)
    else some (s, c)

/-- The second loop of `mmu_map`, which needs the physical address to be a multiple of 2 MiB. -/
def mapBlocks (put : State → Address → Address → Option State) (c : Cursor) :
    Option (State × Cursor) :=
  if c.phys &&& 0x1fffff = 0 then
    mapLoop (fun c ↦ 0x200000 ≤ c.length) 0x200000 put (c.length.toNat / 0x200000) s c
  else some (s, c)

def mmuMap (phys virt length : Address) (attrLow attrHigh : BitVec 32) : Option State := do
  let put4k := fun s phys virt ↦ put4kPage s phys virt attrLow attrHigh
  let put2m := fun s phys virt ↦ put2mPage s phys virt attrLow attrHigh
  let (s, c) ← mapLoop (fun c ↦ c.virt &&& 0x1fffff ≠ 0 ∧ 4096 ≤ c.length) 4096 put4k
    (length.toNat / 4096) s ⟨phys, virt, length⟩
  let (s, c) ← mapBlocks s put2m c
  let (s, _) ← mapLoop (fun c ↦ 4096 ≤ c.length) 4096 put4k (c.length.toNat / 4096) s c
  some s

/-! ### The boot tables -/

def kernelSysPages : ℕ := 16

/-- `MMU_ISHARE | MMU_ACCESS | MMU_ATTR_CACHED | MMU_PAGE`. -/
def bootAttributes : Entry := 0x705

/-- Where the loader puts the tables, the kernel and the pool. -/
structure Placement where
  userL1 : Address
  kernelL1 : Address
  kernelL2 : Address
  kernelBase : Address
  pool : List Address
  distinct : (userL1 :: kernelL1 :: kernelL2 :: pool).Nodup
  aligned : ∀ p ∈ userL1 :: kernelL1 :: kernelL2 :: pool, p &&& 0x7ffffff000 = p
  /-- The tables are reached through the 320 GiB that the upper half starts with. -/
  reached : ∀ p ∈ userL1 :: kernelL1 :: kernelL2 :: pool, p < 0x5000000000

def Placement.tables (place : Placement) : List Address :=
  place.userL1 :: place.kernelL1 :: place.kernelL2 :: place.pool

def physVirtOffset : Address := 0xffffff9000000000

/-- After `_start` and `mmu_init`, which clears the lowest four entries again. `rest` is what the
pages of the pool hold. -/
def bootTables (place : Placement) (rest : Address → Page) : State where
  pages := fun p ↦
    if p = place.userL1 then fun _ ↦ 0
    else if p = place.kernelL1 then fun i ↦
      if i = 0 then place.kernelL2 ||| 3
      else if 64 ≤ i ∧ i < 64 + 320 then bootAttributes + BitVec.ofNat 64 (i - 64) <<< 30
      else 0
    else if p = place.kernelL2 then fun i ↦
      if i < kernelSysPages then
        (place.kernelBase &&& 0xffffffffffe00000#64 ||| bootAttributes) + BitVec.ofNat 64 i <<< 21
      else 0
    else rest p
  freePages := place.pool
  ttbr0 := place.userL1
  ttbr1 := place.kernelL1

end Emu68.Mmu
