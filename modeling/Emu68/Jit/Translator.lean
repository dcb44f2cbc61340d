import Emu68.Jit.Unit

/-!
The functions of `M68k_Translator.c` and `M68k_LINE4.c` that create, verify and discard
translation units. The translation itself (`M68K_Translate`) and the answers of `jit_tlsf` enter
as arguments: what a translation leaves behind, and the list of results of the successive
`tlsf_malloc_aligned` calls. A result `none` of a function means that the source does not return,
because it reads through a null pointer, frees a block twice, or stops in its own endless loop.
-/

set_option autoImplicit false
set_option relaxedAutoImplicit false

namespace Emu68.Jit

open Lib Exec

/-- `tlsf_free(jit_tlsf, unit)`: a block that is not allocated stops the allocator. -/
def tlsfFree (s : JitState) (u : UnitAddr) : Option JitState :=
  match s.unit u with
  | none => none
  | some _ => some { s with unit := Function.update s.unit u none }

/-- The sequence that removes a unit: `REMOVE` of both nodes, `tlsf_free`, and the counter. -/
def discardUnit (s : JitState) (u : UnitAddr) : Option JitState := do
  let links ← remove s.links (.lruNode u)
  let links ← remove links (.hashNode u)
  let s ← tlsfFree { s with links := links } u
  some { s with jitUnitCount := s.jitUnitCount - 1 }

/-- `unit->mt_Epoch = EPOCH`. -/
def touchEpoch (s : JitState) (u : UnitAddr) (t : M68KTranslationUnit) : JitState :=
  { s with unit := Function.update s.unit u (some { t with mtEpoch := s.epoch }) }

/-- `REMOVE(&unit->mt_LRUNode); ADDHEAD(&LRU, &unit->mt_LRUNode)`. -/
def moveToLRUHead (s : JitState) (u : UnitAddr) : Option JitState := do
  let links ← remove s.links (.lruNode u)
  let links ← addHead links lru (.lruNode u)
  some { s with links := links }

/-- `REMOVE(&unit->mt_HashNode); ADDHEAD(&ICache[hash], &unit->mt_HashNode)`. -/
def moveToBucketHead (s : JitState) (u : UnitAddr) (hash : Hash) : Option JitState := do
  let links ← remove s.links (.hashNode u)
  let links ← addHead links (icache hash) (.hashNode u)
  some { s with links := links }

/-- `cache_read_32(ICACHE, address) ^ cache_read_32(ICACHE, address + 4)`. -/
def fingerprint (view : CodeView) (address : UInt32) : UInt32 :=
  view.cacheRead32 address ^^^ view.cacheRead32 (address + 4)

def m68kVerifyUnit (s : JitState) (unit : Option UnitAddr) (view : CodeView) :
    Option (JitState × Option UnitAddr) :=
  match unit with
  | none => some (s, none)
  | some u => do
    let t ← s.unit u
    if t.mtJITControl ≠ s.jitControl ∨ t.mtJITControl2 ≠ s.jitControl2 then
      let s ← discardUnit s u
      return (s, none)
    if 0xf80000 ≤ t.mtM68kAddress ∧ t.mtM68kAddress < 0x1000000 then
      let s ← moveToLRUHead (touchEpoch s u t) u
      return (s, some u)
    let fp := if t.mtM68kHigh - t.mtM68kLow > 8 then fingerprint view t.mtM68kAddress
      else t.mtFingerprint
    let crc := if fp = t.mtFingerprint then view.calcCRC32 t.mtM68kLow t.mtM68kHigh else 0
    if fp ≠ t.mtFingerprint ∨ crc ≠ t.mtCRC32 then
      let s ← discardUnit s u
      return (s, none)
    else
      let s ← moveToLRUHead (touchEpoch s u t) u
      let s ← moveToBucketHead s u (bucketOf t.mtM68kAddress)
      return (s, some u)

def m68kVerifyUnitCRC32 (s : JitState) (unit : Option UnitAddr) (view : CodeView) :
    Option (JitState × Option UnitAddr) :=
  match unit with
  | none => some (s, none)
  | some u => do
    let t ← s.unit u
    if view.calcCRC32 t.mtM68kLow t.mtM68kHigh ≠ t.mtCRC32 then
      let s ← discardUnit s u
      return (s, none)
    else
      return (s, some u)

/-- The eviction loop of `M68K_GetTranslationUnit`, for the given number of rounds. -/
def evictTails : ℕ → JitState → Option JitState
  | 0, s => some s
  | rounds + 1, s => do
    let (links, n) ← remTail s.links lru
    match n with
    | none => some s
    | some n =>
      let u ← unitOfLRUNode n
      let links ← remove links (.hashNode u)
      let s ← tlsfFree { s with links := links } u
      evictTails rounds { s with jitUnitCount := s.jitUnitCount - 1 }

/-- The loop that allocates a unit. `answers` are the results of the successive calls of
`tlsf_malloc_aligned`; after each null result up to 64 units are evicted. Without a non-null
result the loop does not end. -/
def allocateUnit : List (Option UnitAddr) → JitState → Option (JitState × UnitAddr)
  | [], _ => none
  | some u :: _, s => some (s, u)
  | none :: rest, s => do
    let s ← evictTails 64 s
    allocateUnit rest { s with lastPC := 0xffffffff }

/-- What `M68K_Translate` leaves: its result in bytes, and `m68k_low`, `m68k_high`. -/
structure Translation where
  lineLength : ℕ
  m68kLow : UInt32
  m68kHigh : UInt32

/-- `icnt + 1`, with `icnt` the `uint8_t` value of the depth field minus one. -/
def insnDepth (jitControl : UInt32) : ℕ :=
  (((jitControl >>> 24) &&& 0xff) - 1).toUInt8.toNat + 1

/-- `sizeof(struct M68KTranslationUnit) + ((uint32_t)icnt + 1) * 256`. -/
def initialAlloc (jitControl : UInt32) : ℕ := 128 + insnDepth jitControl * 256

/-- `(line_length + 63 + sizeof(struct M68KTranslationUnit)) & ~63`. -/
def unitLength (lineLength : ℕ) : ℕ := (lineLength + 63 + 128) / 64 * 64

/-- A unit longer than its allocation stops the emulator; otherwise `tlsf_realloc` trims the block
in place. -/
def m68kGetTranslationUnit (s : JitState) (m68kcodeptr : UInt32) (answers : List (Option UnitAddr))
    (translation : Translation) (view : CodeView) : Option (JitState × UnitAddr) := do
  let hash := bucketOf m68kcodeptr
  let (s, u) ← allocateUnit answers s
  if initialAlloc s.jitControl < unitLength translation.lineLength then
    none
  let t : M68KTranslationUnit := {
    mtEpoch := s.epoch
    mtM68kAddress := m68kcodeptr
    mtARMEntryPoint := .code (codeStart u)
    mtCRC32 := view.calcCRC32 translation.m68kLow translation.m68kHigh
    mtFingerprint := fingerprint view m68kcodeptr
    mtM68kLow := translation.m68kLow
    mtM68kHigh := translation.m68kHigh
    mtJITControl := s.jitControl
    mtJITControl2 := s.jitControl2
    mtARMInsnCnt := translation.lineLength / 4 - 1 }
  let links ← addHead s.links lru (.lruNode u)
  let links ← addHead links (icache hash) (.hashNode u)
  return ({ s with
    links := links
    unit := Function.update s.unit u (some t)
    unitSize := Function.update s.unitSize u (unitLength translation.lineLength)
    jitUnitCount := s.jitUnitCount + 1 }, u)

/-- `M68K_InitializeCache`: the list headers. -/
def m68kInitializeCache (links : Links NodeAddr) : Links NodeAddr :=
  (List.finRange 65536).foldl (fun links i ↦ newList links (icache i)) (newList links lru)

/-- The loop of `check_cacr`: every unit but the one that holds the return address is discarded.
The last argument is `keep`. -/
def flushUnits (returnAddress : ℕ) : ℕ → JitState → Option UnitAddr →
    Option (JitState × Option UnitAddr)
  | 0, _, _ => none
  | fuel + 1, s, keep => do
    let (links, n) ← remTail s.links lru
    match n with
    | none => some (s, keep)
    | some n =>
      let u ← unitOfLRUNode n
      let t ← s.unit u
      let start := match t.mtARMEntryPoint with
        | .code address => address
        | .node _ => 0
      if start ≤ returnAddress ∧ returnAddress < start + 4 * t.mtARMInsnCnt then
        flushUnits returnAddress fuel { s with links := links } (some u)
      else
        let s ← discardUnit { s with links := links } u
        flushUnits returnAddress fuel s keep

end Emu68.Jit
