import Emu68.A64.LoadImmediate
import Emu68.Ppc.ReturnStack

/-!
The code that the PPC translator emits, as far as it concerns the program counter and the link
register, which have host registers of their own. Decoders that are not modelled emit code that
leaves these two alone.
-/

set_option autoImplicit false
set_option relaxedAutoImplicit false

namespace Emu68.Ppc

open A64 (Reg Cpu Cond)

/-- A PPC instruction word, or an address. -/
abbrev Word := BitVec 32

def regPC : Reg := 18
def regLR : Reg := 28
def regCTR : Reg := 29

/-- An item of the code stream. `leave` is the conditional jump to an exit block and the exit block
is behind it, at the end of what its decoder emits; `body` is code of a decoder that is not
modelled. The last two items are markers. -/
inductive Op where
  | insn (op : A64.Op)
  | addImmedLsl12 (rd rn : Reg) (imm12 : ℕ)
  | subImmedLsl12 (rd rn : Reg) (imm12 : ℕ)
  | subReg (rd rn rm : Reg)
  | loadOffset (rd : Reg)
  | bCc (cond : Cond)
  | tbz (rt : Reg) (bit : ℕ)
  | tbnz (rt : Reg) (bit : ℕ)
  | body
  | exitBlock
  | stop
  | softBreak

/-- Whether an item can take the machine from one state to the next without a jump out. A marker
that is left in the stream is no instruction. -/
def Op.Goes (op : Op) (s s' : Cpu) : Prop :=
  match op with
  | .insn op => s' = A64.step s op
  | .addImmedLsl12 rd rn imm12 =>
    s' = s.put rd (s.get rn + BitVec.ofNat 32 (imm12 % 4096 * 4096))
  | .subImmedLsl12 rd rn imm12 =>
    s' = s.put rd (s.get rn - BitVec.ofNat 32 (imm12 % 4096 * 4096))
  | .subReg rd rn rm => s' = s.put rd (s.get rn - s.get rm)
  | .loadOffset rd => ∃ value, s' = s.put rd value
  | .bCc cond => cond.holds s.flags = false ∧ s' = s
  | .tbz rt bit => (s.get rt).getLsbD bit = true ∧ s' = s
  | .tbnz rt bit => (s.get rt).getLsbD bit = false ∧ s' = s
  | .body => s'.get regPC = s.get regPC ∧ s'.get regLR = s.get regLR
  | .exitBlock | .stop | .softBreak => False

/-- The executions of code from its first item to its last one. -/
def Runs : List Op → Cpu → Cpu → Prop
  | [], s, s' => s' = s
  | op :: rest, s, s'' => ∃ s', op.Goes s s' ∧ Runs rest s' s''

theorem runs_append {first second : List Op} {s s'' : Cpu} :
    Runs (first ++ second) s s'' ↔ ∃ s', Runs first s s' ∧ Runs second s' s'' := by
  induction first generalizing s with
  | nil => simp [Runs]
  | cons op rest ih =>
    simp only [List.cons_append, Runs, ih]
    exact ⟨fun ⟨m, hop, m', hrest, h⟩ ↦ ⟨m', ⟨m, hop, hrest⟩, h⟩,
      fun ⟨m', ⟨m, hop, hrest⟩, h⟩ ↦ ⟨m, hop, m', hrest, h⟩⟩

theorem runs_insns {ops : List A64.Op} {s s' : Cpu} :
    Runs (ops.map .insn) s s' ↔ s' = A64.exec ops s := by
  induction ops generalizing s with
  | nil => exact Iff.rfl
  | cons op rest ih =>
    simp only [List.map_cons, Runs, Op.Goes, exists_eq_left, ih]
    exact Iff.rfl

end Emu68.Ppc
