import Emu68.Lib.Transition
import Emu68.Ppc.BranchCode

/-!
The translation units of the PPC emulation and the cache `LRUCache` of their entry points. A unit is
named by the address that `jit_ppc` gave it. The main loop looks up the program counter, verifies a
unit that is older than the last flush, and creates a unit if there is none. Between its rounds
translated code runs, and may flush with `icbi`. A result `none` means that the source reads through
a null pointer or writes past the array of entries.
-/

set_option autoImplicit false
set_option relaxedAutoImplicit false

namespace Emu68.Ppc

abbrev UnitAddr := ℕ

/-- The address of `ptu_ARMCode[0]` in the executable alias of the arena. -/
def codeStart (u : UnitAddr) : ℕ := 0xfffffff000000000 + 64 * u + 128

/-- `PPCTranslationUnit`, without the list nodes, the statistics and the code itself. -/
structure TranslationUnit where
  ptuEpoch : Word
  ptuPPCAddress : Word
  ptuARMEntryPoint : ℕ
  ptuCRC32 : Word
  ptuFingerprint : Word
  ptuPPCLow : Word
  ptuPPCHigh : Word

/-- `Entry` of `LRUCache`; `none` is the null pointer. -/
structure CacheEntry where
  ppc : BitVec 64
  arm : Option ℕ
deriving DecidableEq

/-- Where the main loop is: code runs, or the program counter was not found, or no unit for it is
left. -/
inductive Phase where
  | running
  | missed (pc : Word)
  | absent (pc : Word)

/-- The state: what `jit_ppc` has handed out, the lists `LRU` and `ICache[hash]` from their heads
on, the arrays of `LRUCache`, the epoch and the last program counter. -/
structure CacheState where
  unit : UnitAddr → Option TranslationUnit
  lru : List UnitAddr
  iCache : Word → List UnitAddr
  cache : ℕ → CacheEntry
  alloc : ℕ → Word
  epoch : Word
  lastPC : Word
  phase : Phase

/-- What the memory holds at the moment of a call. -/
structure CodeView where
  cacheRead32 : Word → Word
  calcCRC32 : Word → Word → Word

/-! ### The entries -/

def wayCount : ℕ := 4

def setCount : ℕ := 128

def addressToSet (address : Word) : ℕ := (address >>> 2).toNat % setCount

/-- The bit of a way. -/
def wayMask (way : ℕ) : Word := 0x80000000 >>> way

/-- A way is marked as used; all ways are free again when the shifted bits are zero. -/
def touchWay (current : Word) (way : ℕ) : Word :=
  let current := current &&& ~~~wayMask way
  if current >>> wayCount = 0 then ~~~wayMask way else current

/-- `__builtin_clz`. -/
def clz (x : Word) : ℕ := if x = 0 then 32 else 31 - x.toNat.log2

/-- The way in which the search finds the address. -/
def findWay (s : CacheState) (address : Word) : Option ℕ :=
  (List.range wayCount).find? fun i ↦
    (s.cache (addressToSet address * wayCount + i)).ppc = address.setWidth 64

def findBlock (s : CacheState) (address : Word) : CacheState × Option ℕ :=
  let set := addressToSet address
  match findWay s address with
  | some i =>
    ({ s with alloc := Function.update s.alloc set (touchWay (s.alloc set) i) },
      (s.cache (set * wayCount + i)).arm)
  | none => (s, none)

/-- The index at which an entry for the address is inserted. -/
def insertIndex (s : CacheState) (address : Word) : ℕ :=
  addressToSet address * wayCount + clz (s.alloc (addressToSet address))

/-- A write past the array is not defined. -/
def insertBlock (s : CacheState) (address : Word) (entryPoint : ℕ) : Option CacheState :=
  let set := addressToSet address
  if insertIndex s address < setCount * wayCount then
    some { s with
      cache := Function.update s.cache (insertIndex s address)
        ⟨address.setWidth 64, some entryPoint⟩
      alloc := Function.update s.alloc set (touchWay (s.alloc set) (clz (s.alloc set))) }
  else none

/-- All entries and all ways, with the value that marks an entry as empty. -/
def clearCache (s : CacheState) (empty : BitVec 64) : CacheState :=
  { s with
    cache := fun i ↦ if i < setCount * wayCount then ⟨empty, none⟩ else s.cache i
    alloc := fun i ↦ if i < setCount then 0xffffffff else s.alloc i }

def invalidateAll (s : CacheState) : CacheState := clearCache s 0xffffffff

/-- The code of `icbi`. Its fill value has 64 bits. -/
def icbi (s : CacheState) : CacheState :=
  { clearCache s (BitVec.allOnes 64) with lastPC := 0xffffffff, epoch := s.epoch + 1 }

/-! ### The units -/

/-- The bucket of an address, `(pc >> EMU68_HASHSHIFT) & EMU68_HASHMASK`. -/
def hashOf (pc : Word) : Word := (pc >>> 2) &&& 0xffff

/-- `unit->remove()`, `unit->ptu_LRU.remove()` and `jit_ppc.free(unit)`. -/
def discardUnit (s : CacheState) (u : UnitAddr) (t : TranslationUnit) : CacheState :=
  { s with
    unit := Function.update s.unit u none
    lru := s.lru.erase u
    iCache := Function.update s.iCache (hashOf t.ptuPPCAddress)
      ((s.iCache (hashOf t.ptuPPCAddress)).erase u) }

/-- The epoch of a unit that is valid, and its place in the LRU list. -/
def touchUnit (s : CacheState) (u : UnitAddr) (t : TranslationUnit) : CacheState :=
  { s with
    unit := Function.update s.unit u (some { t with ptuEpoch := s.epoch })
    lru := u :: s.lru.erase u }

def fingerprint (view : CodeView) (address : Word) : Word :=
  view.cacheRead32 address ^^^ view.cacheRead32 (address + 4)

/-- The checks of `ppcVerifyUnit`: the ROM is always valid. -/
def unitValid (t : TranslationUnit) (view : CodeView) : Bool :=
  decide (0xfff00000 ≤ t.ptuPPCAddress ∧ t.ptuPPCAddress < 0xffff0000) ||
    (fingerprint view t.ptuPPCAddress = t.ptuFingerprint &&
      view.calcCRC32 t.ptuPPCLow t.ptuPPCHigh = t.ptuCRC32)

/-- The state, and whether the unit is still there. -/
def ppcVerifyUnit (s : CacheState) (u : UnitAddr) (view : CodeView) : Option (CacheState × Bool) :=
  (s.unit u).map fun t ↦
    if unitValid t view then (touchUnit s u t, true) else (discardUnit s u t, false)

/-- The eviction loop, for a number of rounds. The tail of an empty list is null. -/
def evict : ℕ → CacheState → Option CacheState
  | 0, s => some s
  | rounds + 1, s => do
    let u ← s.lru.getLast?
    let t ← s.unit u
    evict rounds (discardUnit s u t)

/-- The allocation loop: `jit_ppc` fails a number of times, and eight units are evicted each
time. -/
def makeRoom : ℕ → CacheState → Option CacheState
  | 0, s => some s
  | failures + 1, s => do
    let s ← evict 8 s
    makeRoom failures { s with lastPC := 0xffffffff }

/-- The unit that `PPC_GetTranslationUnit` makes of a translation with the given bounds. -/
def newUnit (s : CacheState) (pc : Word) (u : UnitAddr) (bounds : Word × Word) (view : CodeView) :
    TranslationUnit where
  ptuEpoch := s.epoch
  ptuPPCAddress := pc
  ptuARMEntryPoint := codeStart u
  ptuCRC32 := view.calcCRC32 bounds.1 bounds.2
  ptuFingerprint := fingerprint view pc
  ptuPPCLow := bounds.1
  ptuPPCHigh := bounds.2

/-- `jit_ppc` answers `u` after the failures. -/
def ppcGetTranslationUnit (s : CacheState) (pc : Word) (failures : ℕ) (u : UnitAddr)
    (bounds : Word × Word) (view : CodeView) : Option CacheState :=
  (makeRoom failures s).map fun s ↦
    { s with
      unit := Function.update s.unit u (some (newUnit s pc u bounds view))
      lru := u :: s.lru
      iCache := Function.update s.iCache (hashOf pc) (u :: s.iCache (hashOf pc)) }

/-! ### The main loop -/

/-- The first unit in the bucket of an address that satisfies a test. -/
def findUnit (s : CacheState) (pc : Word) (test : TranslationUnit → Bool) : Option UnitAddr :=
  (s.iCache (hashOf pc)).find? fun u ↦ (s.unit u).any test

def findUnitQuick (s : CacheState) (pc : Word) : Option (CacheState × Option ℕ) :=
  let (s, code) := findBlock s pc
  match code with
  | some code => some (s, some code)
  | none =>
    match findUnit s pc fun t ↦ t.ptuEpoch = s.epoch ∧ t.ptuPPCAddress = pc with
    | some u => do
      let t ← s.unit u
      let s ← insertBlock s t.ptuPPCAddress t.ptuARMEntryPoint
      some (s, some t.ptuARMEntryPoint)
    | none => some (s, none)

/-- A unit that was verified or created is inserted and entered. -/
def enterUnit (s : CacheState) (u : UnitAddr) : Option CacheState := do
  let t ← s.unit u
  let s ← insertBlock s t.ptuPPCAddress t.ptuARMEntryPoint
  some { s with lastPC := t.ptuPPCAddress, phase := .running }

/-- What can happen: the main loop looks up a program counter; it looks for an older unit; it
creates one; translated code flushes. The short way, which enters the same code again, looks nothing
up. -/
inductive CacheOp where
  | look (pc : Word)
  | verify (view : CodeView)
  | create (failures : ℕ) (u : UnitAddr) (bounds : Word × Word) (view : CodeView)
  | icbi

/-- Whether it is the turn of an operation. -/
def enabled (s : CacheState) (op : CacheOp) : Bool :=
  match op, s.phase with
  | .look _, .running | .icbi, .running => true
  | .verify _, .missed _ => true
  | .create _ _ _ _, .absent _ => true
  | _, _ => false

def cacheStep (s : CacheState) : CacheOp → Option CacheState
  | .look pc =>
    (findUnitQuick s pc).map fun (s, code) ↦
      if code.isSome then { s with lastPC := pc } else { s with phase := .missed pc }
  | .verify view =>
    match s.phase with
    | .missed pc =>
      match findUnit s pc fun t ↦ t.ptuPPCAddress = pc with
      | some u => do
        let (s, valid) ← ppcVerifyUnit s u view
        if valid then enterUnit s u else some { s with phase := .absent pc }
      | none => some { s with phase := .absent pc }
    | _ => none
  | .create failures u bounds view =>
    match s.phase with
    | .absent pc => (ppcGetTranslationUnit s pc failures u bounds view).bind (enterUnit · u)
    | _ => none
  | .icbi => some (icbi s)

/-- The state in which the main loop starts, whatever the memory held before. -/
def mainLoopStart (memory : CacheState) : CacheState :=
  invalidateAll { memory with
    unit := fun _ ↦ none
    lru := []
    iCache := fun _ ↦ []
    epoch := 0
    phase := .running }

/-- The main loop takes its turns, and `jit_ppc` never hands out an allocated unit. -/
structure Admissible (s : CacheState) (op : CacheOp) : Prop where
  turn : enabled s op = true
  fresh : ∀ failures u bounds view s', op = .create failures u bounds view →
    makeRoom failures s = some s' → s'.unit u = none

end Emu68.Ppc
