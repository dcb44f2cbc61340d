import Emu68.Exec.Checksum
import Emu68.Lib.Transition
import Emu68.M68k.Decoders

/-!
`M68K_Translate` follows the code from an entry point and records the lowest and the highest value
that the code pointer had behind an instruction. `M68K_GetTranslationUnit` keeps these bounds in the
unit with a checksum over them, and `M68K_VerifyUnit` computes the checksum again from the bounds in
the unit.
-/

set_option autoImplicit false
set_option relaxedAutoImplicit false

namespace Emu68.M68k

open Exec (crcInput)

/-- The variables of `M68K_Translate`. `left` says that a `break` was executed. `words` is no
variable of the program: it lists the addresses of the words that the decoders have consumed. -/
structure Translation where
  ctx : Context
  insnCount : ℕ
  localState : ℕ → CodePtr
  m68kLow : CodePtr
  m68kHigh : CodePtr
  lastRevJump : CodePtr
  maxRevJumps : ℤ
  breakLoop : Bool
  softBreak : Bool
  innerLoop : Bool
  innerLoopLength : ℕ
  innerLoopLimit : ℤ
  left : Bool
  words : List Address

/-- The start of a translation. The array of local states is not cleared. -/
def startTranslation (localState : ℕ → CodePtr) (entry : CodePtr) : Translation where
  ctx := ⟨entry, entry, .reset⟩
  insnCount := 0
  localState := localState
  m68kLow := entry
  m68kHigh := entry + 4
  lastRevJump := 0xffffffff
  maxRevJumps := 0
  breakLoop := false
  softBreak := false
  innerLoop := false
  innerLoopLength := 0
  innerLoopLimit := 0
  left := false
  words := []

variable (env : Environment)

/-- The loop goes on. -/
def Translation.goesOn (t : Translation) : Bool :=
  !t.left && !t.breakLoop && !t.softBreak && decide (t.insnCount < insnDepth env.control)

/-- The last local state before `n` for a code pointer. -/
def findLocalState (localState : ℕ → CodePtr) (pc : CodePtr) : ℕ → Option ℕ
  | 0 => none
  | i + 1 => if localState i = pc then some i else findLocalState localState pc i

/-- A jump back into the unit is not followed if the loop does not fit in a second time. -/
def Translation.loopTooLong (t : Translation) : Bool :=
  if t.insnCount ≠ 0 ∧ t.ctx.codePtr < t.localState (t.insnCount - 1) then
    match findLocalState t.localState t.ctx.codePtr t.insnCount with
    | some found =>
      0 < found && decide (insnDepth env.control - t.insnCount < t.insnCount - found - 1)
    | none => false
  else false

/-- The addresses of the words of an instruction. -/
def wordsAt (pc : CodePtr) (count : ℕ) : List Address :=
  (List.range count).map fun k ↦ (pc + BitVec.ofNat 64 (2 * k)).setWidth 32

/-- The state after an instruction: the bounds, the count and the markers. -/
def Translation.afterInstruction (t : Translation) (d : Decoded) : Translation :=
  let ctx := t.ctx.after d
  { t with
    ctx := ctx
    localState := Function.update t.localState t.insnCount t.ctx.codePtr
    m68kLow := if ctx.codePtr < t.m68kLow then ctx.codePtr else t.m68kLow
    m68kHigh := if t.m68kHigh < ctx.codePtr then ctx.codePtr else t.m68kHigh
    insnCount := t.insnCount + d.insns
    breakLoop := t.breakLoop || d.stop
    softBreak := t.softBreak || d.softBreak
    words := t.words ++ wordsAt t.ctx.codePtr d.consumed }

/-- Jumps back to the same address are counted. -/
def Translation.countRevJump (t : Translation) (inCode : CodePtr) : Translation :=
  if t.ctx.codePtr < inCode then
    if t.lastRevJump = t.ctx.codePtr then
      { t with maxRevJumps := t.maxRevJumps - 1, left := decide (t.maxRevJumps - 1 = 0) }
    else
      { t with lastRevJump := t.ctx.codePtr, maxRevJumps := maxLoopCount env.control - 1 }
  else t

/-- A unit that jumps back to its entry point is unrolled as often as it fits. -/
def Translation.countInnerLoop (t : Translation) (entry : CodePtr) : Translation :=
  if t.left ∨ t.breakLoop ∨ entry ≠ t.ctx.codePtr then t
  else
    let t := { t with innerLoop := true }
    let t :=
      if t.innerLoopLength = 0 then
        let capacity := min (insnDepth env.control / t.insnCount) (maxLoopCount env.control)
        if capacity ≤ 1 then { t with innerLoopLength := t.insnCount, left := true }
        else { t with innerLoopLength := t.insnCount, innerLoopLimit := capacity - 1 }
      else { t with innerLoopLimit := t.innerLoopLimit - 1, left := decide (t.innerLoopLimit - 1 = 0) }
    { t with left := t.left || t.softBreak }

/-- One round of the loop; `others` is what the decoder does if it is not modelled. -/
def translateStep (entry : CodePtr) (t : Translation) (others : Straight) : Option Translation :=
  if !t.goesOn env then none
  else if t.loopTooLong env then some { t with left := true }
  else
    some (((t.afterInstruction (emitINSN env others t.ctx)).countRevJump env t.ctx.codePtr
      ).countInnerLoop env entry)

/-- The states of a translation, for all other decoders. -/
def Translating (localState : ℕ → CodePtr) (entry : CodePtr)
    (ok : Translation → Straight → Prop) : Translation → Prop :=
  Lib.Reachable (translateStep env entry) ok (startTranslation localState entry)

/-! ### What a round changes -/

variable {env} {others : Straight} {entry : CodePtr} {t t' : Translation}

/-- The states differ in the counters of loops at most. -/
structure SameCode (t t' : Translation) : Prop where
  ctx : t'.ctx = t.ctx
  low : t'.m68kLow = t.m68kLow
  high : t'.m68kHigh = t.m68kHigh
  words : t'.words = t.words

theorem SameCode.trans {t₁ t₂ t₃ : Translation} (h : SameCode t₁ t₂) (h' : SameCode t₂ t₃) :
    SameCode t₁ t₃ :=
  ⟨h'.ctx.trans h.ctx, h'.low.trans h.low, h'.high.trans h.high, h'.words.trans h.words⟩

theorem sameCode_countRevJump (t : Translation) (inCode : CodePtr) :
    SameCode t (t.countRevJump env inCode) := by
  unfold Translation.countRevJump
  split_ifs <;> exact ⟨rfl, rfl, rfl, rfl⟩

theorem sameCode_countInnerLoop (t : Translation) (entry : CodePtr) :
    SameCode t (t.countInnerLoop env entry) := by
  unfold Translation.countInnerLoop
  dsimp only
  split_ifs <;> exact ⟨rfl, rfl, rfl, rfl⟩

/-- A round leaves the loop, or translates the instruction at the code pointer. -/
theorem translateStep_cases (h : translateStep env entry t others = some t') :
    SameCode t t' ∨ t.loopTooLong env = false ∧
      SameCode (t.afterInstruction (emitINSN env others t.ctx)) t' := by
  unfold translateStep at h
  split_ifs at h with hgoes hlong
  · cases h
    exact .inl ⟨rfl, rfl, rfl, rfl⟩
  · cases h
    exact .inr ⟨Bool.eq_false_of_not_eq_true hlong,
      (sameCode_countRevJump _ _).trans (sameCode_countInnerLoop _ _)⟩

/-! ### The unit -/

/-- The fields of `M68KTranslationUnit` that bound the code it was made from. -/
structure UnitBounds where
  mtM68kLow : Address
  mtM68kHigh : Address

def Translation.unit (t : Translation) : UnitBounds where
  mtM68kLow := t.m68kLow.setWidth 32
  mtM68kHigh := t.m68kHigh.setWidth 32

/-- The bytes of the first checksum, which is computed from the pointers. -/
def Translation.checksummed (t : Translation) : List ℤ := crcInput t.m68kLow.toInt t.m68kHigh.toInt

/-- The bytes of which `M68K_VerifyUnit` and `M68K_VerifyUnitCRC32` compute the checksum. -/
def UnitBounds.verified (unit : UnitBounds) : List ℤ :=
  crcInput unit.mtM68kLow.toNat unit.mtM68kHigh.toNat

end Emu68.M68k
