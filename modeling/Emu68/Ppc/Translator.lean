import Emu68.Ppc.Decoders
import Emu68.Exec.Checksum
import Emu68.Lib.Transition

/-!
`PPC_Translate` follows the code from an entry point, one instruction after the other, and records
the bounds of the addresses that it sees. `PPC_GetTranslationUnit` keeps the bounds in the unit with
a checksum over them, and `ppcVerifyUnit` computes the checksum again from the bounds in the unit.
-/

set_option autoImplicit false
set_option relaxedAutoImplicit false

namespace Emu68.Ppc

open Exec (crcInput)

/-! ### Markers -/

/-- The markers at the end of the stream, taken from the end on. -/
def processMarkers : List Op → Bool × Bool × List Op
  | [] => (false, false, [])
  | .stop :: rest =>
    let (_, softBreak, code) := processMarkers rest
    (true, softBreak, code)
  | .softBreak :: rest =>
    let (stop, _, code) := processMarkers rest
    (stop, true, code)
  | .exitBlock :: rest => processMarkers rest
  | op :: rest => (false, false, op :: rest)

/-! ### The loop -/

/-- The variables of `PPC_Translate`. `left` says that a `break` was executed. `words` is no
variable of the program: it lists the addresses of the instruction words that were translated. -/
structure Translation where
  tc : Context
  localState : ℕ → CodePtr
  ppcLow : CodePtr
  ppcHigh : CodePtr
  lastRevJump : CodePtr
  maxRevJumps : ℤ
  breakLoop : Bool
  softBreak : Bool
  innerLoop : Bool
  innerLoopLength : ℕ
  innerLoopLimit : ℤ
  left : Bool
  words : List Word

/-- The start of a translation. The array of local states is not cleared. -/
def startTranslation (localState : ℕ → CodePtr) (entry : CodePtr) : Translation where
  tc := ⟨entry, 0, 0, false, .reset, []⟩
  localState := localState
  ppcLow := entry
  ppcHigh := entry + 16
  lastRevJump := 0xffffffff
  maxRevJumps := 0
  breakLoop := false
  softBreak := false
  innerLoop := false
  innerLoopLength := 0
  innerLoopLimit := 0
  left := false
  words := []

variable (env : Environment)

/-- The loop goes on. -/
def Translation.goesOn (t : Translation) : Bool :=
  !t.left && !t.breakLoop && !t.softBreak && decide (t.tc.insnCount < insnDepth env.control)

/-- The last local state before `n` for a code pointer. -/
def findLocalState (localState : ℕ → CodePtr) (pc : CodePtr) : ℕ → Option ℕ
  | 0 => none
  | i + 1 => if localState i = pc then some i else findLocalState localState pc i

/-- A jump back into the unit is not followed if the loop does not fit in a second time. -/
def Translation.loopTooLong (t : Translation) : Bool :=
  if t.tc.insnCount ≠ 0 ∧ t.tc.codePtr < t.localState (t.tc.insnCount - 1) then
    match findLocalState t.localState t.tc.codePtr t.tc.insnCount with
    | some found =>
      0 < found && decide (insnDepth env.control - t.tc.insnCount < t.tc.insnCount - found - 1)
    | none => false
  else false

/-- The addresses of the words of an instruction. -/
def wordsAt (pc : CodePtr) (count : ℕ) : List Word :=
  (List.range count).map fun k ↦ (pc + BitVec.ofNat 64 (4 * k)).setWidth 32

/-- The bounds after an instruction. -/
def Translation.extendBounds (t : Translation) : Translation where
  __ := t
  ppcLow := if t.tc.codePtr < t.ppcLow then t.tc.codePtr else t.ppcLow
  ppcHigh := if t.ppcHigh < t.tc.codePtr + 16 then t.tc.codePtr + 16 else t.ppcHigh

/-- The markers of an instruction. -/
def Translation.takeMarkers (t : Translation) : Translation :=
  let (stop, softBreak, code) := processMarkers t.tc.code.reverse
  { t with
    tc := { t.tc with code := code.reverse }
    breakLoop := t.breakLoop || stop
    softBreak := t.softBreak || softBreak }

/-- Jumps back to the same address are counted. -/
def Translation.countRevJump (t : Translation) (inCode : CodePtr) : Translation :=
  if t.tc.codePtr ≤ inCode then
    if t.lastRevJump = t.tc.codePtr then
      { t with maxRevJumps := t.maxRevJumps - 1, left := decide (t.maxRevJumps - 1 = 0) }
    else { t with lastRevJump := t.tc.codePtr, maxRevJumps := maxLoopCount env.control }
  else t

/-- A unit that jumps back to its entry point is unrolled as often as it fits. -/
def Translation.countInnerLoop (t : Translation) (entry : CodePtr) : Translation :=
  if t.left ∨ t.breakLoop ∨ t.tc.codePtr ≠ entry then t
  else
    let t := { t with innerLoop := true }
    let t :=
      if t.innerLoopLength = 0 then
        let capacity := min (insnDepth env.control / t.tc.insnCount) (maxLoopCount env.control)
        if capacity ≤ 1 then { t with innerLoopLength := t.tc.insnCount, left := true }
        else { t with innerLoopLength := t.tc.insnCount, innerLoopLimit := capacity - 1 }
      else { t with innerLoopLimit := t.innerLoopLimit - 1, left := decide (t.innerLoopLimit - 1 = 0) }
    { t with left := t.left || t.softBreak }

/-- The state after an instruction, its bounds and its markers. -/
def Translation.afterInstruction (t : Translation) (tc : Context) (consumed : ℕ) : Translation :=
  let t' : Translation :=
    { t with
      localState := Function.update t.localState t.tc.insnCount t.tc.codePtr
      tc := tc
      words := t.words ++ wordsAt t.tc.codePtr consumed }.extendBounds
  { t' with tc := { t'.tc with insnCount := t'.tc.insnCount + consumed } }.takeMarkers

/-- One round of the loop. -/
def translateStep (entry : CodePtr) (t : Translation) (regs : Allocation) : Option Translation :=
  if !t.goesOn env then none
  else if t.loopTooLong env then some { t with left := true }
  else
    (emitINSN env regs t.tc).map fun (tc, consumed) ↦
      ((t.afterInstruction tc consumed).countRevJump env t.tc.codePtr).countInnerLoop env entry

/-- The states of a translation, for all answers of the register allocator. -/
def Translating (localState : ℕ → CodePtr) (entry : CodePtr)
    (ok : Translation → Allocation → Prop) : Translation → Prop :=
  Lib.Reachable (translateStep env entry) ok (startTranslation localState entry)

/-! ### What a round changes -/

variable {env} {regs : Allocation} {entry : CodePtr} {t t' : Translation}

/-- The states differ in the counters of loops at most. -/
structure SameCode (t t' : Translation) : Prop where
  tc : t'.tc = t.tc
  low : t'.ppcLow = t.ppcLow
  high : t'.ppcHigh = t.ppcHigh
  words : t'.words = t.words
  breakLoop : t'.breakLoop = t.breakLoop

theorem SameCode.trans {t₁ t₂ t₃ : Translation} (h : SameCode t₁ t₂) (h' : SameCode t₂ t₃) :
    SameCode t₁ t₃ :=
  ⟨h'.tc.trans h.tc, h'.low.trans h.low, h'.high.trans h.high, h'.words.trans h.words,
    h'.breakLoop.trans h.breakLoop⟩

theorem sameCode_countRevJump (t : Translation) (inCode : CodePtr) :
    SameCode t (t.countRevJump env inCode) := by
  unfold Translation.countRevJump
  split_ifs <;> exact ⟨rfl, rfl, rfl, rfl, rfl⟩

theorem sameCode_countInnerLoop (t : Translation) (entry : CodePtr) :
    SameCode t (t.countInnerLoop env entry) := by
  unfold Translation.countInnerLoop
  dsimp only
  split_ifs <;> exact ⟨rfl, rfl, rfl, rfl, rfl⟩

/-- A round leaves the loop, or translates the instruction at the code pointer. -/
theorem translateStep_cases (h : translateStep env entry t regs = some t') :
    t.goesOn env = true ∧ (SameCode t t' ∨ ∃ tc n, emitINSN env regs t.tc = some (tc, n) ∧
      SameCode (t.afterInstruction tc n) t') := by
  unfold translateStep at h
  split_ifs at h with hgoes
  · cases h
    exact ⟨by simpa using hgoes, .inl ⟨rfl, rfl, rfl, rfl, rfl⟩⟩
  · obtain ⟨⟨tc, n⟩, hemit, rfl⟩ := Option.map_eq_some_iff.mp h
    exact ⟨by simpa using hgoes, .inr ⟨tc, n, hemit,
      (sameCode_countRevJump _ _).trans (sameCode_countInnerLoop _ _)⟩⟩

/-! ### The unit -/

/-- The fields of `PPCTranslationUnit` that bound the code it was made from. -/
structure PPCTranslationUnit where
  ptuPPCAddress : Word
  ptuPPCLow : Word
  ptuPPCHigh : Word

def Translation.unit (t : Translation) (entry : CodePtr) : PPCTranslationUnit where
  ptuPPCAddress := entry.setWidth 32
  ptuPPCLow := t.ppcLow.setWidth 32
  ptuPPCHigh := t.ppcHigh.setWidth 32

/-- The bytes of the first checksum, which is computed from the pointers. -/
def Translation.checksummed (t : Translation) : List ℤ := crcInput t.ppcLow.toInt t.ppcHigh.toInt

/-- The bytes of which `ppcVerifyUnit` computes the checksum. -/
def PPCTranslationUnit.verified (unit : PPCTranslationUnit) : List ℤ :=
  crcInput unit.ptuPPCLow.toNat unit.ptuPPCHigh.toNat

end Emu68.Ppc
