import Emu68.Alu.MoveMultiple
import Emu68.Arithmetic.Correctness
import Emu68.Logical.Correctness
import Emu68.M68k.FlagLiveness

/-!
Straight code of logical and arithmetic instructions. Each instruction updates the flags that
`M68K_GetSRMask` finds, the condition codes are loaded by the first one that updates some, and stay
in their register. What the code leaves is what the instructions leave, but for flags that are
overwritten on every path behind it before they are read.
-/

set_option autoImplicit false
set_option relaxedAutoImplicit false

namespace Emu68.StraightCode

open A64 Alu Lib MulDiv M68k.Liveness

/-! ### Instructions -/

/-- An instruction with the registers of its code. Of a logical one not just V and C are
requested. -/
inductive Insn where
  | logical (e : Emission Logical.LogicReg) (insn : Logical.Insn e)
      (notVC : Logical.updateMask e ≠ srVC)
  | arithmetic (size : Size) (e : Emission Arithmetic.ArithReg) (insn : Arithmetic.Insn e size)

namespace Insn

def ccLoaded : Insn → Bool
  | logical e _ _ => e.ccLoaded
  | arithmetic _ e _ => e.ccLoaded

def cc : Insn → Reg
  | logical e _ _ => e.cc
  | arithmetic _ e _ => e.cc

def needed : Insn → Mask
  | logical e _ _ => e.needed
  | arithmetic _ e _ => e.needed

def sets : Insn → Mask
  | logical _ _ _ => srNZVC
  | arithmetic _ _ insn => insn.sets

def emitted : Insn → List WideOp
  | logical _ insn _ => insn.code
  | arithmetic _ _ insn => insn.emit

/-- What the instruction leaves of the machine, but for the program counter and the flags. -/
def after (s : WideCpu) : Insn → Machine
  | logical _ insn _ => (insn.outcome s).2
  | arithmetic _ _ insn => insn.after s

def flags (s : WideCpu) : Insn → Flag → FlagValue
  | logical _ insn _ => productFlags (insn.outcome s).1 false
  | arithmetic _ _ insn => insn.flags s

def updateMask (insn : Insn) : Mask := insn.needed &&& insn.sets

/-- The condition codes are loaded behind the code. -/
def loadedBehind (insn : Insn) : Bool := insn.ccLoaded || insn.updateMask != 0

def before (insn : Insn) (s : WideCpu) : Machine := view insn.ccLoaded insn.cc s

def behind (insn : Insn) (s : WideCpu) : Machine := view insn.loadedBehind insn.cc s

theorem after_ccr (insn : Insn) (s : WideCpu) : (insn.after s).ccr = (insn.before s).ccr := by
  cases insn with
  | logical e insn notVC => exact insn.outcome_ccr s
  | arithmetic size e insn =>
    cases insn with
    | intoRegister op i operand => exact Alu.after_ccr operand s
    | intoMemory op j target held => exact target_ccr target s
    | compare i operand => exact Alu.after_ccr operand s

theorem right (insn : Insn) (s : WideCpu) :
    (∃ pc ccr, insn.behind (s.run insn.emitted) = { insn.after s with pc := pc, ccr := ccr }) ∧
      CcrCorrect insn.updateMask (insn.flags s) (insn.before s).ccr
        (insn.behind (s.run insn.emitted)).ccr := by
  rw [← insn.after_ccr]
  cases insn with
  | logical e insn notVC =>
    obtain ⟨hmachine, hccr⟩ := insn.right_of_notVC notVC s
    exact ⟨hmachine, hccr⟩
  | arithmetic size e insn =>
    have hright : Arithmetic.ArithRight e insn.sets (insn.flags s) (insn.after s)
        (s.run insn.emit) := by
      cases insn with
      | intoRegister op i operand => exact Arithmetic.emitIntoRegister_right op i operand s
      | intoMemory op j target held => exact Arithmetic.emitIntoMemory_right op j target held s
      | compare i operand => exact Arithmetic.emitCMP_right i operand s
    exact ⟨hright.machine, hright.ccr⟩

end Insn

def bitOf : FlagValue → Bool
  | .set value => value
  | _ => false

/-- The flags that an instruction sets have values, and the others stay. -/
theorem flags_eq (insn : Insn) (s : WideCpu) (flag : Flag) :
    insn.flags s flag = if insn.sets.getLsbD (maskBit flag) then .set (bitOf (insn.flags s flag))
      else .unaffected := by
  have hnzvc : ∀ flag : Flag, srNZVC.getLsbD (maskBit flag) = decide (flag ≠ .x) := by decide
  have hccr : ∀ flag : Flag, Arithmetic.srCCR.getLsbD (maskBit flag) = true := by decide
  have hleft : ∀ (values : Flag → FlagValue), values .x = .unaffected →
      (∀ flag ≠ .x, values flag = .set (bitOf (values flag))) →
      values flag = if srNZVC.getLsbD (maskBit flag) then .set (bitOf (values flag))
        else .unaffected := by
    intro values hx hset
    rw [hnzvc]
    by_cases hflag : flag = .x
    · rw [if_neg (by simpa using hflag), hflag, hx]
    · rw [if_pos (by simpa using hflag), ← hset flag hflag]
  have hall : ∀ (values : Flag → FlagValue), (∀ flag, values flag = .set (bitOf (values flag))) →
      values flag = if Arithmetic.srCCR.getLsbD (maskBit flag) then .set (bitOf (values flag))
        else .unaffected := by
    intro values hset
    rw [if_pos (hccr flag), ← hset flag]
  cases insn with
  | logical e insn notVC =>
    refine hleft _ rfl fun flag hflag ↦ ?_
    cases flag <;> first | rfl | exact absurd rfl hflag
  | arithmetic size e insn =>
    cases insn with
    | intoRegister op i operand => exact hall _ fun flag ↦ by cases flag <;> rfl
    | intoMemory op j target held => exact hall _ fun flag ↦ by cases flag <;> rfl
    | compare i operand =>
      refine hleft _ rfl fun flag hflag ↦ ?_
      cases flag <;> first | rfl | exact absurd rfl hflag

/-! ### The instructions on the machine alone -/

/-- The registers and the memory. -/
structure Core where
  d : Fin 8 → BitVec 32
  a : Fin 8 → BitVec 32
  memory : Bytes

def Core.of (m : Machine) : Core := ⟨m.d, m.a, m.memory⟩

/-- An instruction of straight code, as the translator meets it, and what it does: the registers,
the memory, and the flags that it sets. -/
structure CodeInsn where
  insn : Insn
  effect : Core → Core × (Flag → Bool)
  means : ∀ s, effect (Core.of (insn.before s)) =
    (Core.of (insn.after s), fun flag ↦ bitOf (insn.flags s flag))

/-- The flags behind an instruction. -/
def flagsAfter (sets : Mask) (value flags : Flag → Bool) (flag : Flag) : Bool :=
  if sets.getLsbD (maskBit flag) then value flag else flags flag

/-- Straight code. The tables have the flags that the instructions set. -/
structure Block (code : Code) (maxScanDepth : ℕ) where
  insnAt : Address → Option CodeInsn
  straight : ∀ a i, insnAt a = some i → code.isBranch a = false
  sets : ∀ a i, insnAt a = some i → code.tmpSets a = i.insn.sets
  mask : ∀ a i, insnAt a = some i → i.insn.needed = code.getSRMask maxScanDepth a
  /-- The condition codes stay in their register once they are loaded. -/
  threaded : ∀ a i j, insnAt a = some i → insnAt (Code.plus a (code.insnLength a)) = some j →
    j.insn.ccLoaded = i.insn.loadedBehind ∧ (j.insn.ccLoaded = true → j.insn.cc = i.insn.cc)

variable {code : Code} {maxScanDepth : ℕ}

namespace Block

/-- The instructions as a program with its accesses to the flags. -/
def program (block : Block code maxScanDepth) : Program code.accesses Core Bool where
  step a core flags := (block.insnAt a).map fun i ↦
    (Code.plus a (code.insnLength a), (i.effect core).1,
      flagsAfter i.insn.sets (i.effect core).2 flags)
  next := fun {a r values b r' values'} h ↦ by
    obtain ⟨i, hi, heq⟩ := Option.map_eq_some_iff.mp h
    show if code.isBranch a then _ else _
    rw [block.straight a i hi, if_neg Bool.false_ne_true]
    exact (congrArg Prod.fst heq).symm
  kept := fun {a r values b r' values'} h flag hflag ↦ by
    obtain ⟨i, hi, heq⟩ := Option.map_eq_some_iff.mp h
    have hsets : ¬ i.insn.sets.getLsbD (maskBit flag) = true := block.sets a i hi ▸ hflag
    obtain ⟨-, hrest⟩ := Prod.mk.inj heq
    obtain ⟨-, rfl⟩ := Prod.mk.inj hrest
    exact if_neg hsets
  same := fun {a r values values₁ b r' values'} _ h ↦ by
    obtain ⟨i, hi, heq⟩ := Option.map_eq_some_iff.mp h
    obtain ⟨rfl, hrest⟩ := Prod.mk.inj heq
    obtain ⟨rfl, rfl⟩ := Prod.mk.inj hrest
    refine ⟨flagsAfter i.insn.sets (i.effect r).2 values₁, by rw [hi]; rfl, fun flag hflag ↦ ?_⟩
    have hsets : i.insn.sets.getLsbD (maskBit flag) = true := block.sets a i hi ▸ hflag
    unfold flagsAfter
    rw [if_pos hsets, if_pos hsets]

/-- The host running the code, with the place of the condition codes. -/
def hostRun (block : Block code maxScanDepth) :
    ℕ → Address → Bool → Reg → WideCpu → Option (Address × Bool × Reg × WideCpu)
  | 0, a, loaded, cc, s => some (a, loaded, cc, s)
  | n + 1, a, _, _, s =>
    (block.insnAt a).bind fun i ↦ block.hostRun n (Code.plus a (code.insnLength a))
      i.insn.loadedBehind i.insn.cc (s.run i.insn.emitted)

/-- The translator knows where the condition codes are. -/
def Knows (block : Block code maxScanDepth) (a : Address) (loaded : Bool) (cc : Reg) : Prop :=
  ∀ i, block.insnAt a = some i → i.insn.ccLoaded = loaded ∧ (loaded = true → i.insn.cc = cc)

end Block

def flagsOf (m : Machine) (flag : Flag) : Bool := m.ccr.getLsbD flag.bit

theorem requested_iff : ∀ (mask : Mask) (flag : Flag),
    requested mask flag = mask.getLsbD (maskBit flag) := by
  decide +kernel

theorem before_known {block : Block code maxScanDepth} {a : Address} {loaded : Bool} {cc : Reg}
    (h : block.Knows a loaded cc) {i : CodeInsn} (hi : block.insnAt a = some i) (s : WideCpu) :
    i.insn.before s = view loaded cc s := by
  obtain ⟨hloaded, hcc⟩ := h i hi
  unfold Insn.before
  rw [hloaded]
  cases loaded with
  | true => rw [hcc rfl]
  | false => rfl

/-- The code of one instruction, as a step of the program that updates the flags it has to. -/
theorem lazy_step {block : Block code maxScanDepth} {a : Address} {loaded : Bool} {cc : Reg}
    (hknows : block.Knows a loaded cc) {i : CodeInsn} (hi : block.insnAt a = some i)
    (s : WideCpu) :
    ∃ full, block.program.step a (Core.of (view loaded cc s)) (flagsOf (view loaded cc s)) =
        some (Code.plus a (code.insnLength a),
          Core.of (i.insn.behind (s.run i.insn.emitted)), full) ∧
      ∀ flag, ¬ code.accesses.sets a flag ∨
          (code.getSRMask maxScanDepth a).getLsbD (maskBit flag) = true →
        flagsOf (i.insn.behind (s.run i.insn.emitted)) flag = full flag := by
  have hview := before_known hknows hi s
  have hmeans := i.means s
  obtain ⟨⟨pc, ccr, hmachine⟩, hccr⟩ := i.insn.right s
  have hcore : Core.of (i.insn.behind (s.run i.insn.emitted)) = Core.of (i.insn.after s) := by
    rw [hmachine]
    rfl
  rw [hview] at hmeans hccr
  refine ⟨flagsAfter i.insn.sets (fun flag ↦ bitOf (i.insn.flags s flag))
    (flagsOf (view loaded cc s)), ?_, fun flag hflag ↦ ?_⟩
  · show (block.insnAt a).map _ = _
    rw [hi, Option.map_some, hmeans, hcore]
  · have hadmits := hccr.flags flag
    rw [flags_eq, requested_iff, Insn.updateMask, BitVec.getLsbD_and] at hadmits
    unfold flagsAfter
    by_cases hsets : i.insn.sets.getLsbD (maskBit flag) = true
    · have hin : (code.getSRMask maxScanDepth a).getLsbD (maskBit flag) = true := by
        refine hflag.resolve_left fun hnot ↦ hnot ?_
        show (code.tmpSets a).getLsbD (maskBit flag) = true
        rw [block.sets a i hi, hsets]
      rw [if_pos hsets, block.mask a i hi, hin, hsets] at hadmits
      rw [if_pos hsets]
      exact hadmits rfl
    · rw [if_neg hsets] at hadmits ⊢
      exact hadmits

/-- The host runs the code with the updates that the masks ask for. -/
theorem hostRun_lazy {block : Block code maxScanDepth} {n : ℕ} {a b : Address}
    {loaded loaded' : Bool} {cc cc' : Reg} {s s' : WideCpu} (hknows : block.Knows a loaded cc)
    (h : block.hostRun n a loaded cc s = some (b, loaded', cc', s')) :
    block.program.LazyRun
      (fun a flag ↦ (code.getSRMask maxScanDepth a).getLsbD (maskBit flag) = true) n a
      (Core.of (view loaded cc s)) (flagsOf (view loaded cc s)) b
      (Core.of (view loaded' cc' s')) (flagsOf (view loaded' cc' s')) := by
  induction n generalizing a loaded cc s with
  | zero =>
    obtain ⟨rfl, rfl, rfl, rfl⟩ : a = b ∧ loaded = loaded' ∧ cc = cc' ∧ s = s' := by
      simpa [Block.hostRun] using h
    exact .refl _ _ _
  | succ n ih =>
    obtain ⟨i, hi, hrest⟩ := Option.bind_eq_some_iff.mp h
    obtain ⟨full, htaken, hupdated⟩ := lazy_step hknows hi s
    refine .step htaken hupdated (ih (fun j hj ↦ ?_) hrest)
    obtain ⟨hloaded, hcc⟩ := block.threaded a i j hi hj
    exact ⟨hloaded, fun htrue ↦ hcc (hloaded.trans htrue)⟩

def addOwn : Alloc Arithmetic.ArithReg where
  reg := fun
    | .src => 9
    | .tmp => 10
    | .ea => 11
  lower := fun x ↦ by cases x <;> decide
  upper := fun x ↦ by cases x <;> decide
  inj := fun x y h ↦ by cases x <;> cases y <;> first | rfl | exact absurd h (by decide)

def addEmission : Emission Arithmetic.ArithReg where
  ccLoaded := false
  pcRel := 4
  extWords := 2
  address := 0
  pcRel_ge := by decide
  pcRel_le := by decide
  extWords_le := by decide
  own := addOwn
  flag := pairFlagAlloc
  needed := srX
  apart := fun h ↦ Bool.noConfusion h

/-- ADD.L D7,D7 for X alone. -/
def addInsn : CodeInsn where
  insn := .arithmetic .long addEmission (.intoRegister .add (Fin.last 7) (.data (Fin.last 7)))
  effect core :=
    let x := core.d (Fin.last 7)
    ({ core with d := Function.update core.d (Fin.last 7) (x + x) },
      fun flag ↦ bitOf (Arithmetic.arithFlags .add x x flag))
  means := fun s ↦ by
    have hwhole : ∀ x, x = s.get (dn (Fin.last 7)) →
        (Core.mk (Function.update (addEmission.view s).d (Fin.last 7)
            (s.get (dn (Fin.last 7)) + s.get (dn (Fin.last 7)))) (addEmission.view s).a s.memory,
          fun flag ↦ bitOf (Arithmetic.arithFlags .add (s.get (dn (Fin.last 7)))
            (s.get (dn (Fin.last 7))) flag)) =
        (Core.mk (Function.update (addEmission.view s).d (Fin.last 7)
            (replaceLow (s.get (dn (Fin.last 7))) (x + x))) (addEmission.view s).a s.memory,
          fun flag ↦ bitOf (Arithmetic.arithFlags .add x x flag)) := by
      rintro _ rfl
      rw [replaceLow_all]
    exact hwhole _ (BitVec.setWidth_eq _)

def eorOwn : Alloc Logical.LogicReg where
  reg := fun
    | .src => 9
    | .tmp => 10
    | .ea => 11
  lower := fun x ↦ by cases x <;> decide
  upper := fun x ↦ by cases x <;> decide
  inj := fun x y h ↦ by cases x <;> cases y <;> first | rfl | exact absurd h (by decide)

def eorEmission : Emission Logical.LogicReg where
  ccLoaded := true
  pcRel := 4
  extWords := 2
  address := 0
  pcRel_ge := by decide
  pcRel_le := by decide
  extWords_le := by decide
  own := eorOwn
  flag := pairFlagAlloc
  needed := srNZVC
  apart := fun _ x ↦ by cases x <;> decide

/-- EOR.L D7,D7, with the condition codes in their register. -/
def eorInsn : CodeInsn where
  insn := .logical eorEmission (.eor .long (Fin.last 7) (Fin.last 7)) (by decide)
  effect core :=
    let x := core.d (Fin.last 7)
    ({ core with d := Function.update core.d (Fin.last 7) (x ^^^ x) },
      fun flag ↦ bitOf (productFlags (x ^^^ x) false flag))
  means := fun s ↦ by
    have hwhole : ∀ x, x = s.get (dn (Fin.last 7)) →
        (Core.mk (Function.update (eorEmission.view s).d (Fin.last 7)
            (s.get (dn (Fin.last 7)) ^^^ s.get (dn (Fin.last 7)))) (eorEmission.view s).a s.memory,
          fun flag ↦ bitOf (productFlags
            (s.get (dn (Fin.last 7)) ^^^ s.get (dn (Fin.last 7))) false flag)) =
        (Core.mk (Function.update (eorEmission.view s).d (Fin.last 7)
            (replaceLow (s.get (dn (Fin.last 7))) (x ^^^ x))) (eorEmission.view s).a s.memory,
          fun flag ↦ bitOf (productFlags (x ^^^ x) false flag)) := by
      rintro _ rfl
      rw [replaceLow_all]
    exact hwhole _ (BitVec.setWidth_eq _)

/-- ADD.L D7,D7, EOR.L D7,D7 and RTS. -/
def twoCode : Code where
  read16 a := if a = 0 then 0xde87 else if a = 2 then 0xbf87 else 0x4e75
  srCheck opcode :=
    if opcode &&& 0xf000 = 0xb000 then 0xf else if opcode &&& 0xf000 = 0xd000 then 0x1f else 0
  insnLength _ := 1

def twoInsnAt (a : Address) : Option CodeInsn :=
  if a = 0 then some addInsn else if a = 2 then some eorInsn else none

theorem of_twoInsnAt {a : Address} {i : CodeInsn} (h : twoInsnAt a = some i) :
    a = 0 ∧ i = addInsn ∨ a = 2 ∧ i = eorInsn := by
  unfold twoInsnAt at h
  split_ifs at h with h0 h2
  · exact .inl ⟨h0, (Option.some.inj h).symm⟩
  · exact .inr ⟨h2, (Option.some.inj h).symm⟩

/-- The first one updates X, the second one the other flags. -/
def twoBlock : Block twoCode 20 where
  insnAt := twoInsnAt
  straight := fun a i h ↦ by
    rcases of_twoInsnAt h with ⟨rfl, -⟩ | ⟨rfl, -⟩ <;> decide
  sets := fun a i h ↦ by
    rcases of_twoInsnAt h with ⟨rfl, rfl⟩ | ⟨rfl, rfl⟩ <;> decide
  mask := fun a i h ↦ by
    rcases of_twoInsnAt h with ⟨rfl, rfl⟩ | ⟨rfl, rfl⟩ <;> decide
  threaded := fun a i j h hj ↦ by
    rcases of_twoInsnAt h with ⟨rfl, rfl⟩ | ⟨rfl, -⟩
    · rcases of_twoInsnAt hj with ⟨hnot, -⟩ | ⟨-, rfl⟩
      · exact absurd hnot (by decide)
      · exact ⟨by decide, fun _ ↦ rfl⟩
    · rcases of_twoInsnAt hj with ⟨hnot, -⟩ | ⟨hnot, -⟩ <;> exact absurd hnot (by decide)

end Emu68.StraightCode
