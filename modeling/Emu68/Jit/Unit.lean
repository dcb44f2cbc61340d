import Emu68.Exec.Lists
import Mathlib.Algebra.Ring.Nat

/-!
The data model of the m68k translation cache: translation units (`struct M68KTranslationUnit`),
the two kinds of list node embedded in each of them, the bucket and LRU list headers, the entries
of the set-associative look-up cache, and the part of the emulator state these functions read and
write.

Units are allocated from `jit_tlsf` with 64-byte alignment out of a pool of
`(KERNEL_JIT_PAGES / 2) << 21` bytes, so a unit is named by the 64-byte granule it starts in.
-/

set_option autoImplicit false
set_option relaxedAutoImplicit false

namespace Emu68.Jit

open Lib Exec

/-- The 64-byte granules of the JIT pool, `((KERNEL_JIT_PAGES / 2) << 21) / 64`. -/
abbrev jitGranules : ℕ := 2 ^ 20

abbrev UnitAddr := Fin jitGranules

/-- An index into `ICache[EMU68_HASHSIZE]`. -/
abbrev Hash := Fin 65536

/-- The list nodes of the translation cache: the sentinels of `LRU` and of each `ICache` bucket,
and the `mt_LRUNode` and `mt_HashNode` of the unit at an address. -/
inductive NodeAddr
  | lruHead
  | lruTail
  | bucketHead (hash : Hash)
  | bucketTail (hash : Hash)
  | lruNode (unit : UnitAddr)
  | hashNode (unit : UnitAddr)
  deriving DecidableEq

/-- `struct List LRU`. -/
def lru : ListHeader NodeAddr := ⟨.lruHead, .lruTail⟩

/-- `struct List ICache[hash]`. -/
def icache (hash : Hash) : ListHeader NodeAddr := ⟨.bucketHead hash, .bucketTail hash⟩

/-- `(address >> EMU68_HASHSHIFT) & EMU68_HASHMASK`. -/
def bucketOf (address : UInt32) : Hash :=
  Fin.ofNat 65536 ((address >>> 2) &&& 0xffff).toNat

/-- A non-null value of a pointer that is called as ARM code: an address in the executable alias
of the JIT pool, or the address of a list node mistaken for one. -/
inductive ArmPtr
  | code (address : ℕ)
  | node (node : NodeAddr)
  deriving DecidableEq

/-- The address of `mt_ARMCode[0]` in the executable alias of the pool. -/
def codeStart (u : UnitAddr) : ℕ := 0xfffffff000000000 + 64 * u.val + 128

/-- `struct M68KTranslationUnit`, without the list nodes, the statistics and the code itself. -/
structure M68KTranslationUnit where
  mtEpoch : UInt32
  mtM68kAddress : UInt32
  mtARMEntryPoint : ArmPtr
  mtCRC32 : UInt32
  mtFingerprint : UInt32
  mtM68kLow : UInt32
  mtM68kHigh : UInt32
  mtJITControl : UInt32
  mtJITControl2 : UInt32
  mtARMInsnCnt : ℕ
  deriving DecidableEq

/-- `struct Entry` of `LRU_cache`; `none` is the null pointer. -/
structure Entry where
  m68k : UInt32
  arm : Option ArmPtr
  deriving DecidableEq

/-- The state of the translation cache. `unit` gives the blocks that `jit_tlsf` has handed out and
not taken back, with their contents, and `unitSize` the lengths in their block headers. -/
structure JitState where
  links : Links NodeAddr
  unit : UnitAddr → Option M68KTranslationUnit
  unitSize : UnitAddr → ℕ
  jitUnitCount : UInt32
  jitControl : UInt32
  jitControl2 : UInt32
  epoch : UInt32
  oldCacr : UInt32
  lastPC : UInt32
  lruCache : ℕ → Entry
  lruAlloc : ℕ → UInt32

/-- What the m68k memory holds at the moment of a call: `cache_read_32(ICACHE, ·)` and
`CalcCRC32(low, high)`. -/
structure CodeView where
  cacheRead32 : UInt32 → UInt32
  calcCRC32 : UInt32 → UInt32 → UInt32

/-- The part of a unit that a bucket scan reads through a node pointer. -/
structure UnitHead where
  mtEpoch : UInt32
  mtM68kAddress : UInt32
  mtARMEntryPoint : Option ArmPtr
  deriving DecidableEq

/-- The conversion `conv.n = n; conv.u` followed by reads of the unit's first fields. On the
bucket's own head sentinel the same offsets hold `lh_Tail.ln_Next`, which is null, and
`lh_Tail.ln_Prev`. Reading a freed unit, or any other node, is not defined. -/
def readUnit (s : JitState) : NodeAddr → Option UnitHead
  | .hashNode u => (s.unit u).map fun t ↦ ⟨t.mtEpoch, t.mtM68kAddress, some t.mtARMEntryPoint⟩
  | .bucketHead hash =>
    match s.links.next (.bucketTail hash) with
    | none => some ⟨0, 0, (s.links.prev (.bucketTail hash)).map .node⟩
    | some _ => none
  | _ => none

/-- Enough fuel to walk any list of the translation cache. -/
def walkFuel : ℕ := jitGranules + 2

/-- The first node of a bucket scan that satisfies `found`, with what was read there. -/
def scanBucket (s : JitState) (found : UnitHead → Bool) :
    List NodeAddr → Option (Option (NodeAddr × UnitHead))
  | [] => some none
  | n :: rest =>
    match readUnit s n with
    | none => none
    | some unit => if found unit then some (some (n, unit)) else scanBucket s found rest

/-- `(char *)n - offsetof(struct M68KTranslationUnit, mt_LRUNode)`. -/
def unitOfLRUNode : NodeAddr → Option UnitAddr
  | .lruNode u => some u
  | _ => none

end Emu68.Jit
