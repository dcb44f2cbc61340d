import Emu68.Ppc.Sync

/-!
A return is followed to the address on the top of the return stack. That address is in the link
register if the last call or return of the unit is the call that pushed it. After a return the next
entry is on the top, but the link register still holds the address of the inner call.
-/

set_option autoImplicit false
set_option relaxedAutoImplicit false

namespace Emu68.Ppc

open A64 (Reg Cpu)

/-! ### Calls and returns -/

def isReturn (opcode : Word) : Bool :=
  (opcode >>> 26).toNat = 0b010011 && ((opcode >>> 1) &&& 0x3ff).toNat = 0b0000010000

/-- The return is unconditional, or predicted to be taken. -/
def predictsReturn (opcode : Word) : Bool :=
  fieldBO opcode &&& 0b10100 = 0b10100 || fieldBO opcode &&& 1 ≠ 0

/-- The address at which the translation goes on after a return. -/
def followedReturn (opcode : Word) (tc : Context) : Option CodePtr :=
  if isReturn opcode && opcode &&& 0x0000f800 = 0 && predictsReturn opcode then
    tc.returnStack.pop.1
  else none

/-- The last call or return so far is a call, given whether it was one before the instruction. -/
def nextFresh (fresh : Bool) (opcode : Word) : Bool :=
  match (opcode >>> 26).toNat with
  | 0b010000 | 0b010010 => fresh || opcode &&& 1 ≠ 0
  | _ => if isReturn opcode then opcode &&& 1 ≠ 0 && predictsReturn opcode else fresh

variable {env : Environment} {control : Word} {regs : Allocation} {opcode : Word}
  {fresh fresh' fresh'' : Bool} {tc tc' tc'' : Context}

/-! ### Branches -/

theorem getOffsetPC_placed (h : Placed tc) : tc.getOffsetPC 4 = (tc, tc.pcRel + 4) := by
  have hnonneg := h.rel_nonneg
  have hle := h.rel_le
  unfold Context.getOffsetPC
  rw [if_neg (by omega)]

theorem natAbs_offset (h : Placed tc) : (tc.pcRel + 4).natAbs < 4096 := by
  have hnonneg := h.rel_nonneg
  have hle := h.rel_le
  omega

/-- The address behind the instruction. -/
theorem next_target {pc : Word} (h : pc + BitVec.ofInt 32 tc.pcRel = tc.codePtr.setWidth 32) :
    pc + BitVec.ofInt 32 (tc.pcRel + 4) = (tc.codePtr + 4).setWidth 32 := by
  rw [BitVec.ofInt_add, ← BitVec.add_assoc, h]
  exact (setWidth_add_ofNat tc.codePtr 4).symm

theorem aligned_next (h : Placed tc) : AlignedPtr (tc.codePtr + 4) := aligned_add h.aligned rfl

theorem aligned_push (h : Placed tc) : ∀ retAddr ∈ (tc.returnStack.push (tc.codePtr + 4)).entries,
    AlignedPtr retAddr := by
  intro retAddr hmem
  rcases List.mem_cons.mp (List.mem_of_mem_take hmem) with rfl | hold
  · exact aligned_next h
  · exact h.stack retAddr hold

/-- The start of a branch: a call pushes its return address and puts it into the link register. -/
def linked (opcode : Word) (tc : Context) : Context :=
  if opcode &&& 1 ≠ 0 then (tc.push (tc.codePtr + 4)).emit (emitLink (tc.pcRel + 4)) else tc

theorem clean_emitLink (offset : ℤ) : ∀ op ∈ emitLink offset, op.isMarker = false := by
  unfold emitLink Context.addSmall
  split <;> simp [Op.isMarker]

theorem clean_loadImmediate (rd : Reg) (value : Word) :
    ∀ op ∈ loadImmediate rd value, op.isMarker = false := by
  intro op hop
  obtain ⟨insn, -, rfl⟩ := List.mem_map.mp hop
  rfl

theorem clean_append {first second : List Op} (h : ∀ op ∈ first, op.isMarker = false)
    (h' : ∀ op ∈ second, op.isMarker = false) : ∀ op ∈ first ++ second, op.isMarker = false :=
  fun op hop ↦ (List.mem_append.mp hop).elim (h op) (h' op)

theorem clean_addImmediate (rd tmp : Reg) (delta : ℤ) :
    ∀ op ∈ addImmediate rd tmp delta, op.isMarker = false := by
  unfold addImmediate
  dsimp only
  split_ifs
  all_goals first
    | exact clean_append (clean_loadImmediate _ _) (by simp [Op.isMarker])
    | simp [Op.isMarker]

/-- A branch: the link part, and code that takes the program counter to the target. -/
theorem leads_jump (h : Placed tc) (opcode : Word) {code : List Op} {f : Word × Word → Word × Word}
    {target : CodePtr} (hclean : ∀ op ∈ code, op.isMarker = false) (heffect : Effect code f)
    (htarget : AlignedPtr target)
    (hf : ∀ v : Word × Word, v.1 + BitVec.ofInt 32 tc.pcRel = tc.codePtr.setWidth 32 →
      f v = (target.setWidth 32, v.2)) :
    Leads fresh tc (fresh || opcode &&& 1 ≠ 0)
      (((linked opcode tc).resetOffsetPC.setPC target).emit code) := by
  unfold linked
  split
  case isTrue hlink =>
    refine ⟨emitLink (tc.pcRel + 4) ++ code, List.append_assoc _ _ _,
      clean_append (clean_emitLink _) hclean,
      ⟨le_rfl, Int.le.intro 120 rfl, htarget, aligned_push h⟩, fun s s'' hstep hruns ↦ ?_⟩
    have hview := (effect_emitLink (natAbs_offset h)).append heffect s s'' hruns
    have hjump := hf ((view s).1, (view s).1 + BitVec.ofInt 32 (tc.pcRel + 4)) hstep.pc
    rw [hview.trans hjump]
    refine ⟨BitVec.add_zero _, fun _ top htop ↦ ?_⟩
    obtain rfl := Option.some.inj htop
    exact next_target hstep.pc
  case isFalse hlink =>
    rw [decide_eq_false hlink, Bool.or_false]
    refine ⟨code, rfl, hclean, ⟨le_rfl, Int.le.intro 120 rfl, htarget, h.stack⟩,
      fun s s' hstep hruns ↦ ?_⟩
    rw [heffect s s' hruns, hf _ hstep.pc]
    exact ⟨BitVec.add_zero _, hstep.lr⟩

/-! ### Targets -/

theorem setWidth_signExtend {k : ℕ} (hk : k ≤ 32) (x : Word) :
    (x.signExtend 64).setWidth k = x.setWidth k := by
  refine BitVec.eq_of_getLsbD_eq fun i hi ↦ ?_
  rw [BitVec.getLsbD_setWidth, BitVec.getLsbD_signExtend, BitVec.getLsbD_setWidth,
    decide_eq_true (show i < 64 by omega), if_pos (show i < 32 by omega), Bool.true_and]

/-- A relative target: the code adds the offset to the program counter. -/
theorem relative_target (offset : Word) {pc : Word} (h : pc + BitVec.ofInt 32 tc.pcRel =
    tc.codePtr.setWidth 32) :
    pc + BitVec.ofInt 32 (tc.pcRel + 4 + offset.toInt - 4) =
      (tc.codePtr + offset.signExtend 64).setWidth 32 := by
  rw [show tc.pcRel + 4 + offset.toInt - 4 = tc.pcRel + offset.toInt by ring, BitVec.ofInt_add,
    ← BitVec.add_assoc, h, BitVec.ofInt_toInt, BitVec.setWidth_add _ _ (by decide),
    setWidth_signExtend le_rfl, BitVec.setWidth_eq]

theorem aligned_relative (h : Placed tc) {offset : Word} (hoffset : offset.setWidth 2 = 0#2) :
    AlignedPtr (tc.codePtr + offset.signExtend 64) :=
  aligned_add h.aligned ((setWidth_signExtend (by decide) offset).trans hoffset)

theorem aligned_absolute {offset : Word} (hoffset : offset.setWidth 2 = 0#2) :
    AlignedPtr (offset.setWidth 64) := by
  unfold AlignedPtr
  rw [BitVec.setWidth_setWidth_of_le _ (by decide), hoffset]

theorem masked_aligned (x mask high : Word) (hmask : mask.setWidth 2 = 0#2)
    (hhigh : high.setWidth 2 = 0#2) (p : Prop) [Decidable p] :
    (if p then x &&& mask ||| high else x &&& mask).setWidth 2 = 0#2 := by
  split
  · rw [BitVec.setWidth_or, BitVec.setWidth_and, hmask, hhigh]
    simp
  · rw [BitVec.setWidth_and, hmask]
    exact BitVec.and_zero

/-! ### `b` and `bc` -/

theorem processMarkers_stop : ∀ {markers : List Op}, (∀ m ∈ markers, m.isMarker = true) →
    ∀ rest, (processMarkers (markers ++ Op.stop :: rest)).1 = true
  | [], _, _ => rfl
  | m :: markers, h, rest => by
    have ih := processMarkers_stop (fun m' hm' ↦ h m' (List.mem_cons_of_mem _ hm')) rest
    have hm := h m List.mem_cons_self
    cases m <;> first | exact ih | rfl | exact absurd hm Bool.false_ne_true

/-- A unit ends with a stop, behind which there may be more markers. -/
theorem decoded_stop {code markers : List Op} (hmarkers : ∀ m ∈ markers, m.isMarker = true)
    (hcode : tc'.code = tc.code ++ (code ++ .stop :: markers)) : Decoded fresh tc fresh' tc' := by
  refine .stops _ hcode ?_
  unfold stops
  rw [List.reverse_append, List.reverse_cons, List.append_assoc]
  exact processMarkers_stop (fun m hm ↦ hmarkers m (List.mem_reverse.mp hm)) _

theorem Leads.emitStop (h : Leads fresh tc fresh' tc') (markers : List Op) :
    Decoded fresh tc fresh' (tc'.emit markers).emitStop := by
  obtain ⟨code, hcode, -⟩ := h
  refine .stops (code ++ markers ++ [Op.stop]) ?_ ?_
  · show tc'.code ++ markers ++ [Op.stop] = _
    rw [hcode]
    simp only [List.append_assoc]
  · unfold stops
    rw [List.reverse_append]
    rfl

theorem stopIfFar_eq (control : Word) (oldPc : CodePtr) (tc : Context) :
    stopIfFar control oldPc tc = tc ∨
      stopIfFar control oldPc tc = tc.emitStop ∧ branchDistance oldPc tc ≠ 0 := by
  have hrange : 0 ≤ inlineRange control := Int.natCast_nonneg _
  unfold stopIfFar
  dsimp only
  split
  · exact .inr ⟨rfl, by omega⟩
  · exact .inl rfl

theorem emit_nil (tc : Context) : tc.emit [] = tc := by
  simp only [Context.emit, List.append_nil]

/-- Behind a branch the unit may end. -/
theorem Leads.stopIfFar (h : Leads fresh tc fresh' tc') {markers : List Op}
    (hmarkers : ∀ m ∈ markers, m.isMarker = true) (control : Word) (oldPc : CodePtr) :
    Decoded fresh tc fresh' (Ppc.stopIfFar control oldPc (tc'.emit markers)) := by
  rcases stopIfFar_eq control oldPc (tc'.emit markers) with hnear | ⟨hfar, -⟩
  · rw [hnear]
    exact h.decoded hmarkers rfl rfl
  · rw [hfar]
    exact h.emitStop markers

theorem effect_nop : Effect [.insn .nop] id := .insn fun _ ↦ rfl

theorem decoded_bx (h : Placed tc) :
    Decoded fresh tc (fresh || opcode &&& 1 ≠ 0) (emitBx control regs opcode tc) := by
  unfold emitBx
  rw [getOffsetPC_placed h]
  dsimp only
  set offset : Word :=
    if (opcode &&& 0x03fffffc) &&& 0x02000000 ≠ 0 then (opcode &&& 0x03fffffc) ||| 0xfc000000
    else opcode &&& 0x03fffffc
  have hoffset : offset.setWidth 2 = 0#2 := masked_aligned _ _ _ rfl rfl _
  set tc₁ : Context :=
    if opcode &&& 2 ≠ 0 then
      ((linked opcode tc).resetOffsetPC.setPC (offset.setWidth 64)).emit
        (loadImmediate regPC offset)
    else
      ((linked opcode tc).resetOffsetPC.setPC
        ((linked opcode tc).resetOffsetPC.codePtr + offset.signExtend 64)).emit
        (addImmediate regPC regs.tmp (tc.pcRel + 4 + offset.toInt - 4)) with htc₁
  have hptr : (linked opcode tc).resetOffsetPC.codePtr = tc.codePtr := by
    unfold linked
    split <;> rfl
  have hleads : Leads fresh tc (fresh || opcode &&& 1 ≠ 0) tc₁ := by
    rw [htc₁, hptr]
    split
    · refine leads_jump h opcode (clean_loadImmediate _ _) (effect_loadImmediate_pc offset)
        (aligned_absolute hoffset) fun v hv ↦ ?_
      rw [BitVec.setWidth_setWidth_of_le _ (by decide), BitVec.setWidth_eq]
    · refine leads_jump h opcode (clean_addImmediate _ _ _) (effect_addImmediate regs.tmp _)
        (aligned_relative h hoffset) fun v hv ↦ ?_
      rw [relative_target offset hv]
  show Decoded fresh tc _ (if branchDistance tc.codePtr tc₁ = 0 then
    (stopIfFar control tc.codePtr tc₁).emit [.insn .nop, .softBreak]
    else stopIfFar control tc.codePtr tc₁)
  rcases stopIfFar_eq control tc.codePtr tc₁ with hnear | ⟨hfar, hdistance⟩
  · rw [hnear]
    split
    · have hnop := hleads.trans (leads_emit hleads.placed (by simp [Op.isMarker]) effect_nop)
      have hbreak : ∀ m ∈ [Op.softBreak], m.isMarker = true := by simp [Op.isMarker]
      exact hnop.decoded hbreak (List.append_assoc tc₁.code [.insn .nop] [.softBreak]).symm rfl
    · exact hleads.decoded_self
  · rw [if_neg hdistance, hfar]
    have hstop := hleads.emitStop []
    rwa [emit_nil] at hstop

theorem linked_codePtr (opcode : Word) (tc : Context) : (linked opcode tc).codePtr = tc.codePtr := by
  unfold linked
  split <;> rfl

theorem clean_testBranch (regs : Allocation) (bo bi : Word) :
    ∀ op ∈ (testBranch regs bo bi).1, op.isMarker = false := by
  unfold testBranch
  dsimp only
  split_ifs <;> simp [Op.isMarker]

/-- The predicted path of a conditional branch: the test, the jump out and the jump to the target. -/
theorem decoded_conditional (h : Placed tc) (opcode : Word) {test leave jump : List Op}
    {f : Word × Word → Word × Word} {target : CodePtr} (htest : ∀ op ∈ test, op.isMarker = false)
    (htestEffect : Effect test id) (hleave : ∀ op ∈ leave, op.isMarker = false)
    (hleaveEffect : Effect leave id) (hjump : ∀ op ∈ jump, op.isMarker = false)
    (hjumpEffect : Effect jump f) (htarget : AlignedPtr target)
    (hf : ∀ v : Word × Word, v.1 + BitVec.ofInt 32 tc.pcRel = tc.codePtr.setWidth 32 →
      f v = (target.setWidth 32, v.2)) :
    Decoded fresh tc (fresh || opcode &&& 1 ≠ 0) (Ppc.stopIfFar control tc.codePtr
      ((((((linked opcode tc).resetOffsetPC.emit test).setPC target).emit leave).emit jump).emit
        [.exitBlock])) := by
  have hleads : Leads fresh tc (fresh || opcode &&& 1 ≠ 0)
      (((linked opcode tc).resetOffsetPC.setPC target).emit (test ++ (leave ++ jump))) :=
    leads_jump h opcode (clean_append htest (clean_append hleave hjump))
      (htestEffect.append (hleaveEffect.append hjumpEffect)) htarget hf
  have heq : ((((linked opcode tc).resetOffsetPC.emit test).setPC target).emit leave).emit jump =
      ((linked opcode tc).resetOffsetPC.setPC target).emit (test ++ (leave ++ jump)) := by
    simp only [Context.emit, Context.setPC, List.append_assoc]
  rw [heq]
  exact hleads.stopIfFar (by simp [Op.isMarker]) control tc.codePtr

/-- The jump of a conditional branch, to an absolute or to a relative target. -/
theorem effect_jump (tmp : Fin 12) (offset : Word) (delta : ℤ) (p : Prop) [Decidable p] :
    Effect (if p then loadImmediate regPC offset else addImmediate regPC tmp delta) fun v ↦
      (if p then offset else v.1 + BitVec.ofInt 32 delta, v.2) := by
  split
  · exact effect_loadImmediate_pc offset
  · exact effect_addImmediate tmp delta

theorem aligned_setWidth {pc : CodePtr} (h : AlignedPtr pc) : (pc.setWidth 32).setWidth 2 = 0#2 := by
  rw [BitVec.setWidth_setWidth_of_le _ (by decide)]
  exact h

theorem decoded_bcx (h : Placed tc) :
    Decoded fresh tc (fresh || opcode &&& 1 ≠ 0) (emitBcx control regs opcode tc) := by
  unfold emitBcx
  rw [getOffsetPC_placed h]
  dsimp only
  rw [show (if opcode &&& 1 ≠ 0 then (tc.push (tc.codePtr + 4)).emit (emitLink (tc.pcRel + 4))
    else tc) = linked opcode tc from rfl,
    show (linked opcode tc).resetOffsetPC.codePtr = tc.codePtr from linked_codePtr opcode tc]
  set sign := opcode &&& 0x8000 ≠ 0
  set offset : Word :=
    if sign then (opcode &&& 0x0000fffc) ||| 0xffff0000 else opcode &&& 0x0000fffc
  have hoffset : offset.setWidth 2 = 0#2 := masked_aligned _ _ _ rfl rfl _
  set takeBranch := (fieldBO opcode &&& 1 = 0 ∧ sign) ∨ (fieldBO opcode &&& 1 ≠ 0 ∧ ¬ sign)
  set jump := if opcode &&& 2 ≠ 0 then loadImmediate regPC offset
    else addImmediate regPC regs.tmp₂ (tc.pcRel + 4 + offset.toInt - 4) with hjump
  have hclean : ∀ op ∈ jump, op.isMarker = false := by
    rw [hjump]
    split
    · exact clean_loadImmediate _ _
    · exact clean_addImmediate _ _ _
  have heffect := effect_jump regs.tmp₂ offset (tc.pcRel + 4 + offset.toInt - 4) (opcode &&& 2 ≠ 0)
  rw [← hjump] at heffect
  split
  case isTrue halways =>
    have htarget : AlignedPtr (if opcode &&& 2 ≠ 0 then offset.setWidth 64
        else tc.codePtr + offset.signExtend 64) := by
      split
      · exact aligned_absolute hoffset
      · exact aligned_relative h hoffset
    have hleads : Leads fresh tc (fresh || opcode &&& 1 ≠ 0)
        (((linked opcode tc).resetOffsetPC.setPC (if opcode &&& 2 ≠ 0 then offset.setWidth 64
          else tc.codePtr + offset.signExtend 64)).emit jump) := by
      refine leads_jump h opcode hclean heffect htarget fun v hv ↦ ?_
      split
      · rw [BitVec.setWidth_setWidth_of_le _ (by decide), BitVec.setWidth_eq]
      · rw [relative_target offset hv]
    have hdecoded := hleads.stopIfFar (fun _ hm ↦ absurd hm List.not_mem_nil) control tc.codePtr
    rwa [emit_nil] at hdecoded
  case isFalse hcond =>
    have htestClean := clean_testBranch regs (fieldBO opcode) (fieldBI opcode)
    have htestEffect := effect_testBranch regs (fieldBO opcode) (fieldBI opcode)
    rcases htest : testBranch regs (fieldBO opcode) (fieldBI opcode) with ⟨test, success⟩
    rw [htest] at htestClean htestEffect
    dsimp only
    set leave := if fieldBO opcode &&& 4 ≠ 0 then
      [Op.body, (if (if takeBranch then success ^^^ 1 else success) = A64.ccEQ then Op.tbz
        else Op.tbnz) regs.cr (31 - (fieldBI opcode).toNat)]
      else [.bCc (if takeBranch then success ^^^ 1 else success)] with hleave
    have hleaveClean : ∀ op ∈ leave, op.isMarker = false := by
      rw [hleave]
      split_ifs <;> simp [Op.isMarker]
    have hleaveEffect : Effect leave id := by
      rw [hleave]
      split
      · refine Effect.body.append (.leave ?_)
        split_ifs <;> rfl
      · exact .leave rfl
    clear_value leave jump offset
    split
    case isTrue htake =>
      refine decoded_conditional h opcode htestClean htestEffect hleaveClean hleaveEffect hclean
        heffect (aligned_absolute ?_) fun v hv ↦ ?_
      · split
        · exact hoffset
        · rw [BitVec.setWidth_add _ _ (by decide), aligned_setWidth h.aligned, hoffset]
          rfl
      · rw [BitVec.setWidth_setWidth_of_le _ (by decide), BitVec.setWidth_eq]
        split
        · rfl
        · rw [relative_target offset hv, BitVec.setWidth_add _ _ (by decide),
            setWidth_signExtend le_rfl, BitVec.setWidth_eq]
    case isFalse hnot =>
      refine decoded_conditional h opcode htestClean htestEffect hleaveClean hleaveEffect
        (clean_addImmediate _ _ _) (effect_addImmediate regs.tmp₂ (tc.pcRel + 4)) (aligned_next h)
        fun v hv ↦ ?_
      rw [next_target hv]

/-! ### `bclr` -/

theorem wordAligned_of_aligned {pc : CodePtr} (h : AlignedPtr pc) :
    wordAligned (pc.setWidth 32) = pc.setWidth 32 := by
  refine BitVec.eq_of_getLsbD_eq fun i hi ↦ ?_
  have hmask : ∀ j < 32, (0xfffffffc : Word).getLsbD j = decide (2 ≤ j) := by decide
  rw [wordAligned, BitVec.getLsbD_and, hmask i hi]
  by_cases hlow : 2 ≤ i
  · rw [decide_eq_true hlow, Bool.and_true]
  · have hbit : ((pc.setWidth 32).setWidth 2).getLsbD i = false := by
      rw [aligned_setWidth h]
      exact BitVec.getLsbD_zero
    rw [BitVec.getLsbD_setWidth, decide_eq_true (show i < 2 by omega), Bool.true_and] at hbit
    rw [hbit, Bool.false_and]

theorem clean_emitReturn (regs : Allocation) (opcode : Word) (offset : ℤ) :
    ∀ op ∈ emitReturn regs opcode offset, op.isMarker = false := by
  unfold emitReturn
  split
  · exact clean_append (fun op hop ↦ (List.mem_cons.mp hop).elim (· ▸ rfl) (clean_emitLink _ op))
      (by simp [Op.isMarker])
  · simp [Op.isMarker]

/-- The stack behind a return that is followed. -/
def returnedStack (opcode : Word) (tc : Context) (stack : ReturnStack) : ReturnStack :=
  if opcode &&& 1 ≠ 0 then stack.push (tc.codePtr + 4) else stack

theorem aligned_pop (h : Placed tc) {retAddr : CodePtr} (hpop : tc.returnStack.pop.1 = some retAddr) :
    AlignedPtr retAddr := by
  refine h.stack retAddr ?_
  rcases hentries : tc.returnStack with ⟨_ | ⟨top, rest⟩, _⟩
  · rw [hentries] at hpop
    cases hpop
  · rw [hentries] at hpop
    cases hpop
    exact List.mem_cons_self

/-- A return that is followed to the address in the link register. -/
theorem leads_return (h : Placed tc) (hfresh : fresh = true) {retAddr : CodePtr}
    {stack : ReturnStack} {test : List Op}
    (hpop : tc.returnStack.pop.1 = some retAddr)
    (hstack : ∀ a ∈ stack.entries, AlignedPtr a) (htest : ∀ op ∈ test, op.isMarker = false)
    (htestEffect : Effect test id)
    (hcode : tc'.code = tc.code ++ (test ++ emitReturn regs opcode (tc.pcRel + 4)))
    (hptr : tc'.codePtr = retAddr) (hrel : tc'.pcRel = 0)
    (hreturned : tc'.returnStack = returnedStack opcode tc stack) :
    Leads fresh tc (opcode &&& 1 ≠ 0) tc' := by
  have hretAddr : AlignedPtr retAddr := aligned_pop h hpop
  refine ⟨_, hcode, clean_append htest (clean_emitReturn _ _ _), ⟨hrel.ge, by omega, hptr ▸ hretAddr,
    fun a ha ↦ ?_⟩, fun s s' hstep hruns ↦ ?_⟩
  · rw [hreturned, returnedStack] at ha
    split at ha
    · rcases List.mem_cons.mp (List.mem_of_mem_take ha) with rfl | hold
      · exact aligned_next h
      · exact hstack a hold
    · exact hstack a ha
  · have hlr := hstep.lr hfresh retAddr hpop
    rw [htestEffect.append (effect_emitReturn regs opcode (natAbs_offset h)) s s' hruns]
    refine ⟨?_, fun hlink top htop ↦ ?_⟩
    · show wordAligned (view s).2 + BitVec.ofInt 32 tc'.pcRel = _
      rw [hlr, wordAligned_of_aligned hretAddr, hrel, hptr]
      exact BitVec.add_zero _
    · have hset : opcode &&& 1 ≠ 0 := of_decide_eq_true hlink
      rw [hreturned, returnedStack, if_pos hset] at htop
      obtain rfl := Option.some.inj htop
      show (if opcode &&& 1 ≠ 0 then _ else _) = _
      rw [if_pos hset]
      exact next_target hstep.pc

theorem pop_stack (h : Placed tc) : ∀ a ∈ tc.returnStack.pop.2.entries, AlignedPtr a := by
  intro a ha
  refine h.stack a ?_
  rcases hentries : tc.returnStack with ⟨_ | ⟨top, rest⟩, _⟩
  · rw [hentries] at ha
    exact absurd ha List.not_mem_nil
  · rw [hentries] at ha
    exact List.mem_cons_of_mem _ ha

theorem followedReturn_eq (hreturn : isReturn opcode = true) (hvalid : ¬ opcode &&& 0x0000f800 ≠ 0)
    (hpredicts : predictsReturn opcode = true) :
    followedReturn opcode tc = tc.returnStack.pop.1 := by
  unfold followedReturn
  rw [hreturn, hpredicts, decide_eq_true (not_not.mp hvalid)]
  rfl

/-- The return without a condition. -/
theorem decoded_return (h : Placed tc) (regs : Allocation) {lastPc : Option CodePtr} {stack : ReturnStack}
    (hpop : tc.returnStack.pop = (lastPc, stack)) (hfollow : lastPc ≠ none → fresh = true)
    (hcode : tc'.code = tc.code ++ emitReturn regs opcode (tc.pcRel + 4))
    (hreturned : tc'.returnStack = returnedStack opcode tc stack) :
    Decoded fresh tc (opcode &&& 1 ≠ 0) (followReturn lastPc tc').resetOffsetPC := by
  cases lastPc with
  | none =>
    have hstop : (followReturn none tc').resetOffsetPC.code =
        tc.code ++ (emitReturn regs opcode (tc.pcRel + 4) ++ [Op.stop]) := by
      show tc'.code ++ [Op.stop] = _
      rw [hcode, List.append_assoc]
    exact decoded_stop (fun _ hm ↦ absurd hm List.not_mem_nil) hstop
  | some retAddr =>
    have hleads : Leads fresh tc (opcode &&& 1 ≠ 0) (tc'.setPC retAddr).resetOffsetPC :=
      leads_return h (hfollow (by simp)) (congrArg Prod.fst hpop)
        (fun a ha ↦ pop_stack h a (hpop ▸ ha)) (fun _ hm ↦ absurd hm List.not_mem_nil) .nil hcode
        rfl rfl hreturned
    exact hleads.decoded_self

theorem decoded_bclrx (h : Placed tc) (hreturn : isReturn opcode = true)
    (hfollow : followedReturn opcode tc ≠ none → fresh = true)
    (hemit : emitBclrx regs opcode tc = some tc') :
    Decoded fresh tc (opcode &&& 1 ≠ 0 && predictsReturn opcode) tc' := by
  unfold emitBclrx at hemit
  split at hemit
  · cases hemit
  rename_i hvalid
  rcases hpop : tc.returnStack.pop with ⟨lastPc, stack⟩
  have hfollow' (hpredicts : predictsReturn opcode = true) (hsome : lastPc ≠ none) :
      fresh = true := by
    refine hfollow ?_
    rwa [followedReturn_eq hreturn hvalid hpredicts, hpop]
  rw [hpop] at hemit
  dsimp only at hemit
  have hoffset : (tc.setReturnStack stack).getOffsetPC 4 = (tc.setReturnStack stack, tc.pcRel + 4) :=
    getOffsetPC_placed ⟨h.1, h.2, h.3, fun a ha ↦ pop_stack h a (hpop ▸ ha)⟩
  have hoffset' : ((tc.setReturnStack stack).setReturnStack .reset).getOffsetPC 4 =
      ((tc.setReturnStack stack).setReturnStack .reset, tc.pcRel + 4) :=
    getOffsetPC_placed ⟨h.1, h.2, h.3, fun a ha ↦ absurd ha List.not_mem_nil⟩
  rw [hoffset, hoffset'] at hemit
  split at hemit
  case isTrue halways =>
    have hpredicts : predictsReturn opcode = true := by
      rw [predictsReturn, decide_eq_true halways, Bool.true_or]
    rw [hpredicts, Bool.and_true]
    cases hemit
    by_cases hlink : opcode &&& 1 ≠ 0
    · simp only [if_pos hlink]
      exact decoded_return h regs hpop (hfollow' hpredicts) rfl (if_pos hlink).symm
    · simp only [if_neg hlink]
      refine decoded_return h regs hpop (hfollow' hpredicts) ?_ (if_neg hlink).symm
      show _ ++ emitReturn regs opcode 4 = _
      rw [emitReturn, emitReturn, if_neg hlink, if_neg hlink]
      rfl
  case isFalse hcond =>
    have htestClean := clean_testBranch regs (fieldBO opcode) (fieldBI opcode)
    have htestEffect := effect_testBranch regs (fieldBO opcode) (fieldBI opcode)
    rcases htest : testBranch regs (fieldBO opcode) (fieldBI opcode) with ⟨test, success⟩
    rw [htest] at hemit htestClean htestEffect
    dsimp only at hemit htestClean htestEffect
    set test' := (if fieldBO opcode &&& 4 ≠ 0 then
      [Op.body, .insn (A64.tstImmed regs.cr 1 (((1 + fieldBI opcode) &&& 31).setWidth 8))] else test) ++
      [Op.bCc (if fieldBO opcode &&& 1 ≠ 0 then success ^^^ 1 else success)] with htest'
    have hclean : ∀ op ∈ test', op.isMarker = false := by
      refine clean_append ?_ (by simp [Op.isMarker])
      split
      · simp [Op.isMarker]
      · exact htestClean
    have heffect : Effect test' id := by
      refine Effect.append ?_ (.leave rfl)
      split
      · exact Effect.body.append (effect_tst _ _)
      · exact htestEffect
    clear_value test'
    have hexit : ∀ m ∈ [Op.exitBlock], m.isMarker = true := by simp [Op.isMarker]
    split at hemit
    case isTrue htake =>
      have hpredicts : predictsReturn opcode = true := by
        rw [predictsReturn, decide_eq_true htake, Bool.or_true]
      rw [hpredicts, Bool.and_true]
      cases hemit
      set tc₁ : Context :=
        if opcode &&& 1 ≠ 0 then
          ((((tc.setReturnStack stack).setReturnStack .reset).resetOffsetPC.emit test').push
            (tc.codePtr + 4))
        else ((tc.setReturnStack stack).setReturnStack .reset).resetOffsetPC.emit test' with htc₁
      have hcode : (tc₁.emit (emitReturn regs opcode (tc.pcRel + 4))).code =
          tc.code ++ (test' ++ emitReturn regs opcode (tc.pcRel + 4)) := by
        rw [← List.append_assoc, htc₁]
        split <;> rfl
      cases lastPc with
      | none =>
        have hstop : (tc₁.emit (emitReturn regs opcode (tc.pcRel + 4))).code ++ [Op.stop] ++
            [Op.exitBlock] = tc.code ++
              ((test' ++ emitReturn regs opcode (tc.pcRel + 4)) ++ Op.stop :: [Op.exitBlock]) := by
          rw [hcode]
          simp only [List.append_assoc, List.cons_append, List.nil_append]
        exact decoded_stop hexit hstop
      | some retAddr =>
        have hleads : Leads fresh tc (opcode &&& 1 ≠ 0)
            ((tc₁.emit (emitReturn regs opcode (tc.pcRel + 4))).setPC retAddr) := by
          have hreset : ∀ a ∈ ReturnStack.reset.entries, AlignedPtr a :=
            fun a ha ↦ absurd ha List.not_mem_nil
          refine leads_return h (hfollow' hpredicts (by simp)) (congrArg Prod.fst hpop)
            hreset hclean heffect hcode rfl ?_ ?_
          · show tc₁.pcRel = 0
            rw [htc₁]
            split <;> rfl
          · show tc₁.returnStack = _
            rw [htc₁, returnedStack]
            split <;> rfl
        exact hleads.decoded hexit rfl rfl
    case isFalse hnot =>
      have hpredicts : predictsReturn opcode = false := by
        rw [predictsReturn, decide_eq_false hcond, decide_eq_false hnot]
        rfl
      rw [hpredicts, Bool.and_false]
      cases hemit
      set tc₁ : Context :=
        if opcode &&& 1 ≠ 0 then
          (((((tc.setReturnStack stack).setReturnStack .reset).resetOffsetPC.emit test').emit
            (addImmediate regPC regs.tmp (tc.pcRel + 4))).setPC (tc.codePtr + 4)).push
            (tc.codePtr + 4 + 4)
        else (((((tc.setReturnStack stack).setReturnStack .reset).resetOffsetPC.emit test').emit
            (addImmediate regPC regs.tmp (tc.pcRel + 4))).setPC (tc.codePtr + 4)) with htc₁
      have hcode : tc₁.code = tc.code ++ (test' ++ addImmediate regPC regs.tmp (tc.pcRel + 4)) := by
        rw [← List.append_assoc, htc₁]
        split <;> rfl
      have hrel : tc₁.pcRel = 0 := by
        rw [htc₁]
        split <;> rfl
      have hptr : tc₁.codePtr = tc.codePtr + 4 := by
        rw [htc₁]
        split <;> rfl
      have hstack : ∀ a ∈ tc₁.returnStack.entries, AlignedPtr a := by
        intro a ha
        rw [htc₁] at ha
        split at ha
        · obtain rfl : a = tc.codePtr + 4 + 4 := List.mem_singleton.mp ha
          exact aligned_add (aligned_next h) rfl
        · exact absurd ha List.not_mem_nil
      have hleads : Leads fresh tc false tc₁ := by
        refine ⟨_, hcode, clean_append hclean (clean_addImmediate _ _ _),
          ⟨hrel.ge, by omega, hptr ▸ aligned_next h, hstack⟩, fun s s' hstep hruns ↦ ⟨?_, ?_⟩⟩
        · rw [heffect.append (effect_addImmediate regs.tmp _) s s' hruns, hrel, hptr]
          show (view s).1 + BitVec.ofInt 32 (tc.pcRel + 4) + 0 = _
          rw [next_target hstep.pc]
          exact BitVec.add_zero _
        · exact fun hfresh ↦ absurd hfresh Bool.false_ne_true
      exact hleads.decoded hexit rfl rfl

/-! ### The other decoders -/

theorem leads_plain (h : Placed tc) : Leads fresh tc fresh ((tc.emit [.body]).advancePC 4) := by
  have hbody : Leads fresh tc fresh (tc.emit [.body]) := leads_body h
  exact hbody.trans (leads_advancePC hbody.placed (.inl rfl))

theorem decoded_supervised (h : Placed tc) {tmp : Reg} {rest : Context → Context}
    (hrest : ∀ tc, Placed tc → Leads fresh tc fresh (rest tc)) :
    Decoded fresh tc fresh (withSupervisorCheck tc tmp rest) := by
  unfold withSupervisorCheck
  split
  · exact (hrest tc h).decoded_self
  · have hflush : Leads fresh tc fresh tc.flushPC := leads_flushPC h
    have hcheck : Leads fresh tc fresh (tc.flushPC.emit [.body, .tbnz tmp 14]) :=
      hflush.trans (leads_emit hflush.placed (by simp [Op.isMarker]) (Effect.body.append (.leave rfl)))
    have hmarked : Leads fresh tc fresh
        { tc.flushPC.emit [.body, .tbnz tmp 14] with supervisorChecked := true } := by
      obtain ⟨code, hcode, hclean, hplaced, hkeeps⟩ := hcheck
      exact ⟨code, hcode, hclean, ⟨hplaced.1, hplaced.2, hplaced.3, hplaced.4⟩, fun s s' hstep hruns ↦
        ⟨(hkeeps s s' hstep hruns).1, (hkeeps s s' hstep hruns).2⟩⟩
    exact (hmarked.trans (hrest _ hmarked.placed)).decoded (by simp [Op.isMarker]) rfl rfl

theorem decoded_supervised_stop {tmp : Reg} {rest : Context → Context}
    (hrest : ∀ tc, ∃ code, (rest tc).code = tc.code ++ (code ++ [Op.stop])) :
    Decoded fresh tc fresh' (withSupervisorCheck tc tmp rest) := by
  unfold withSupervisorCheck
  split
  · obtain ⟨code, hcode⟩ := hrest tc
    exact decoded_stop (fun _ hm ↦ absurd hm List.not_mem_nil) hcode
  · obtain ⟨code, hcode⟩ := hrest
      { tc.flushPC.emit [.body, .tbnz tmp 14] with supervisorChecked := true }
    obtain ⟨flushed, hflushed⟩ : ∃ code, tc.flushPC.code = tc.code ++ code := ⟨_, rfl⟩
    have hexit : ∀ m ∈ [Op.exitBlock], m.isMarker = true := by simp [Op.isMarker]
    have hstop : tc.flushPC.code ++ [Op.body, .tbnz tmp 14] ++ (code ++ [Op.stop]) ++
        [Op.exitBlock] = tc.code ++
          ((flushed ++ [Op.body, .tbnz tmp 14] ++ code) ++ Op.stop :: [Op.exitBlock]) := by
      rw [hflushed]
      simp only [List.append_assoc, List.cons_append, List.nil_append]
    refine decoded_stop hexit (.trans ?_ hstop)
    show (rest _).code ++ [Op.exitBlock] = _
    rw [hcode]
    rfl

/-- What `advancePC` emits comes behind what is there. -/
theorem advancePC_emit (tc : Context) (n : ℕ) : ∃ code : List Op,
    (code = [] ∨ ∃ rel, code = Context.adjustPC rel) ∧ ∀ first, (tc.emit first).advancePC n =
      { tc.advancePC n with code := tc.code ++ (first ++ code) } := by
  by_cases hfar : 120 < (tc.pcRel + n).natAbs
  · have hadvance (first : List Op) : (tc.emit first).advancePC n = _ := if_pos hfar
    have hself : tc.advancePC n = _ := if_pos hfar
    refine ⟨Context.adjustPC (tc.pcRel + n), .inr ⟨_, rfl⟩, fun first ↦ ?_⟩
    rw [hadvance, hself, ← List.append_assoc]
    rfl
  · have hadvance (first : List Op) : (tc.emit first).advancePC n = _ := if_neg hfar
    have hself : tc.advancePC n = _ := if_neg hfar
    refine ⟨[], .inl rfl, fun first ↦ ?_⟩
    rw [hadvance, hself, List.append_nil]
    rfl

theorem advancePC_flushed (h : tc.pcRel = 0) :
    tc.advancePC 4 = { tc with codePtr := tc.codePtr + 4, pcRel := 4 } := by
  unfold Context.advancePC
  simp only [h]
  rfl

theorem clean_trapCases (TO : Word) : ∀ op ∈ trapCases TO, op.isLeave = true := by
  unfold trapCases
  intro op hop
  simp only [List.mem_append] at hop
  rcases hop with (((hop | hop) | hop) | hop) | hop <;> split at hop <;>
    first
    | obtain rfl := List.mem_singleton.mp hop
      rfl
    | exact absurd hop List.not_mem_nil

theorem isMarker_of_isLeave {op : Op} (h : op.isLeave = true) : op.isMarker = false := by
  cases op <;> first | rfl | exact absurd h Bool.false_ne_true

theorem decoded_trap (h : Placed tc) : Decoded fresh tc fresh (emitTrap opcode tc) := by
  unfold emitTrap
  dsimp only
  split
  · have hnop : Leads fresh tc fresh (tc.emit [.insn .nop]) :=
      leads_emit h (by simp [Op.isMarker]) effect_nop
    exact (hnop.trans (leads_advancePC hnop.placed (.inl rfl))).decoded_self
  split
  · have hflush : Leads fresh tc fresh tc.flushPC := leads_flushPC h
    exact hflush.emitStop (emitException 0x700)
  · have hflush : Leads fresh tc fresh tc.flushPC := leads_flushPC h
    have hbody := hflush.trans (leads_body hflush.placed)
    have hcases := hbody.trans (leads_emit hbody.placed
      (fun op hop ↦ isMarker_of_isLeave (clean_trapCases ((opcode >>> 21) &&& 31) op hop))
      (.leaves (clean_trapCases _)))
    have hnext := hcases.trans (leads_advancePC hcases.placed (.inl rfl))
    have hexit : ∀ m ∈ [Op.exitBlock], m.isMarker = true := by simp [Op.isMarker]
    refine hnext.decoded hexit ?_ ?_
    · rw [advancePC_flushed rfl, advancePC_flushed rfl]
      rfl
    · rw [advancePC_flushed rfl, advancePC_flushed rfl]
      rfl

theorem Decoded.after (h' : Decoded fresh' tc' fresh'' tc'') (h : Leads fresh tc fresh' tc') :
    Decoded fresh tc fresh'' tc'' := by
  obtain ⟨code, hcode, hclean, -, hkeeps⟩ := h
  cases h' with
  | stops code' emitted ends =>
    exact .stops (code ++ code') (by rw [emitted, hcode, List.append_assoc]) (stops_append ends)
  | goes code' emitted placed keeps =>
    refine .goes (code ++ code') (by rw [emitted, hcode, List.append_assoc]) placed
      fun s s'' hstep hruns ↦ ?_
    rw [visible_append (visible_of_clean hclean)] at hruns
    obtain ⟨s', hfirst, hsecond⟩ := runs_append.mp hruns
    exact keeps s' s'' (hkeeps s s' hstep hfirst) hsecond

/-- `mtlr` forgets the return stack. -/
theorem leads_mtlr (h : Placed tc) (source : Reg) :
    Leads fresh tc fresh
      ((tc.emit [.insn (A64.movReg regLR source)]).setReturnStack .reset) := by
  refine ⟨_, rfl, by simp [Op.isMarker], ⟨h.1, h.2, h.3, fun a ha ↦ absurd ha List.not_mem_nil⟩, ?_⟩
  rintro s _ hstep ⟨_, rfl, rfl⟩
  refine ⟨?_, fun _ top htop ↦ absurd htop (by simp [Context.setReturnStack])⟩
  have hview := view_put_lr s (s.get 31 ||| (A64.Shift.LSL).apply (s.get source) 0)
  exact (congrArg (·.1 + BitVec.ofInt 32 tc.pcRel) hview).trans hstep.pc

theorem decoded_mtspr (h : Placed tc) (hemit : emitMtspr regs opcode tc = some tc') :
    Decoded fresh tc fresh tc' := by
  have hbody : Leads fresh tc fresh (tc.emit [.body]) := leads_body h
  unfold emitMtspr at hemit
  dsimp only at hemit
  split at hemit
  · cases hemit
  split at hemit
  · cases hemit
    exact (decoded_supervised hbody.placed fun _ ↦ leads_plain).after hbody
  split at hemit
  · cases hemit
    have hmtlr := hbody.trans (leads_mtlr hbody.placed regs.source)
    exact (hmtlr.trans (leads_advancePC hmtlr.placed (.inl rfl))).decoded_self
  split at hemit
  · cases hemit
    exact (hbody.trans (leads_plain hbody.placed)).decoded_self
  · cases hemit

theorem decoded_mfspr (h : Placed tc) (hemit : emitMfspr regs opcode tc = some tc') :
    Decoded fresh tc fresh tc' := by
  unfold emitMfspr at hemit
  dsimp only at hemit
  split at hemit
  · cases hemit
  split at hemit
  · cases hemit
    exact decoded_supervised h fun _ ↦ leads_plain
  split at hemit
  · cases hemit
    exact (leads_plain h).decoded_self
  · cases hemit

theorem decoded_mfmsr (h : Placed tc) (hemit : emitMfmsr regs opcode tc = some tc') :
    Decoded fresh tc fresh tc' := by
  unfold emitMfmsr at hemit
  split at hemit
  · cases hemit
  · cases hemit
    exact decoded_supervised h fun _ ↦ leads_plain

theorem decoded_dcbi (h : Placed tc) (hemit : emitDcbi regs opcode tc = some tc') :
    Decoded fresh tc fresh tc' := by
  unfold emitDcbi at hemit
  split at hemit
  · cases hemit
  · cases hemit
    exact decoded_supervised h fun _ ↦ leads_plain

theorem decoded_mtmsr (hemit : emitMtmsr regs opcode tc = some tc') :
    Decoded fresh tc fresh' tc' := by
  unfold emitMtmsr at hemit
  split at hemit
  · cases hemit
  · cases hemit
    refine decoded_supervised_stop fun tc ↦ ?_
    obtain ⟨code, -, hcode⟩ := advancePC_emit tc 4
    refine ⟨[Op.body] ++ code, ?_⟩
    show ((tc.emit [Op.body]).advancePC 4).code ++ [Op.stop] = _
    rw [hcode, List.append_assoc]

theorem decoded_rfi (hemit : emitRfi regs opcode tc = some tc') :
    Decoded fresh tc fresh' tc' := by
  unfold emitRfi at hemit
  split at hemit
  · cases hemit
  · cases hemit
    exact decoded_supervised_stop fun tc ↦
      ⟨[.body, .loadOffset regPC, .insn (A64.bicImmed regPC regPC 2 0)], List.append_assoc _ _ _⟩

theorem decoded_sc (h : Placed tc) (hemit : emitSc opcode tc = some tc') :
    Decoded fresh tc fresh tc' := by
  unfold emitSc at hemit
  split at hemit
  · cases hemit
  · cases hemit
    have hadvance : Leads fresh tc fresh (tc.advancePC 4) := leads_advancePC h (.inl rfl)
    exact (hadvance.trans (leads_flushPC hadvance.placed)).emitStop (emitException 0xc00)

theorem decoded_bcctrx (h : Placed tc) (hemit : emitBcctrx opcode tc = some tc') :
    Decoded fresh tc fresh' tc' := by
  unfold emitBcctrx at hemit
  rw [getOffsetPC_placed h] at hemit
  split at hemit
  · cases hemit
  split at hemit
  · by_cases hlink : opcode &&& 1 ≠ 0
    · simp only [if_pos hlink] at hemit
      cases hemit
      have hstop : tc.code ++ emitLink (tc.pcRel + 4) ++
          [Op.insn (A64.bicImmed regPC regCTR 2 0)] ++ [Op.stop] =
            tc.code ++ ((emitLink (tc.pcRel + 4) ++ [Op.insn (A64.bicImmed regPC regCTR 2 0)]) ++
              [Op.stop]) := by
        simp only [List.append_assoc]
      exact decoded_stop (fun _ hm ↦ absurd hm List.not_mem_nil) hstop
    · simp only [if_neg hlink] at hemit
      cases hemit
      exact decoded_stop (fun _ hm ↦ absurd hm List.not_mem_nil) (List.append_assoc _ _ _)
  · cases hemit

theorem decoded_isync (h : Placed tc) (hemit : emitIsync opcode tc = some tc') :
    Decoded fresh tc fresh tc' := by
  unfold emitIsync at hemit
  split at hemit
  · cases hemit
  · cases hemit
    have hadvance : Leads fresh tc fresh (tc.advancePC 4) := leads_advancePC h (.inl rfl)
    obtain ⟨code, hone, hcode⟩ := advancePC_emit tc 4
    rw [hcode]
    rcases hone with rfl | ⟨rel, rfl⟩
    · have hstop : (tc.emit [Op.body, .stop]).code = tc.code ++ ([Op.body] ++ [Op.stop]) := rfl
      exact decoded_stop (fun _ hm ↦ absurd hm List.not_mem_nil) hstop
    · -- The marker is not at the end, so it stays in the code, and no execution gets past it.
      have hplaced := hadvance.placed
      refine .goes _ rfl ⟨hplaced.1, hplaced.2, hplaced.3, hplaced.4⟩ fun s s' _ hruns ↦ ?_
      unfold Context.adjustPC at hruns
      split at hruns <;> obtain ⟨_, -, _, hstop, -⟩ := hruns <;> exact hstop.elim

theorem decoded_addis (h : Placed tc) (opcode₂ : Word) :
    Decoded fresh tc fresh (emitAddis opcode opcode₂ tc).1 := by
  have hbody : Leads fresh tc fresh (tc.emit [.body]) := leads_body h
  unfold emitAddis
  split
  · exact (hbody.trans (leads_advancePC hbody.placed (.inr rfl))).decoded_self
  · exact (leads_plain h).decoded_self

theorem decoded_other {others : Others} (h : Placed tc)
    (hemit : emitOther others opcode tc = some tc') : Decoded fresh tc fresh tc' := by
  unfold emitOther at hemit
  split at hemit
  · cases hemit
    exact (leads_plain h).decoded_self
  · cases hemit

/-! ### All instructions -/

theorem nextFresh_branch (h : (opcode >>> 26).toNat = 16 ∨ (opcode >>> 26).toNat = 18) :
    nextFresh fresh opcode = (fresh || opcode &&& 1 ≠ 0) := by
  unfold nextFresh
  rcases h with h | h <;> simp only [h]

theorem nextFresh_return (h : isReturn opcode = true) :
    nextFresh fresh opcode = (opcode &&& 1 ≠ 0 && predictsReturn opcode) := by
  have hgroup : (opcode >>> 26).toNat = 19 := by
    rw [isReturn, Bool.and_eq_true] at h
    exact of_decide_eq_true h.1
  unfold nextFresh
  rw [hgroup, h]
  rfl

theorem nextFresh_other (h₁ : (opcode >>> 26).toNat ≠ 16) (h₂ : (opcode >>> 26).toNat ≠ 18)
    (h : isReturn opcode = false) : nextFresh fresh opcode = fresh := by
  unfold nextFresh
  split
  · contradiction
  · contradiction
  · rw [h]
    rfl

theorem isReturn_of_group (h : (opcode >>> 26).toNat ≠ 19) : isReturn opcode = false := by
  rw [isReturn, decide_eq_false h, Bool.false_and]

theorem decoded_group19 {others : Others} (h : Placed tc) (hgroup : (opcode >>> 26).toNat = 19)
    (hfollow : followedReturn opcode tc ≠ none → fresh = true)
    (hemit : emitGroup19 others regs opcode tc = some tc') :
    Decoded fresh tc (nextFresh fresh opcode) tc' := by
  by_cases hsecondary : ((opcode >>> 1) &&& 0x3ff).toNat = 16
  · have hreturn : isReturn opcode = true := by
      rw [isReturn, decide_eq_true hgroup, decide_eq_true hsecondary, Bool.and_true]
    rw [nextFresh_return hreturn]
    unfold emitGroup19 at hemit
    rw [hsecondary] at hemit
    exact decoded_bclrx h hreturn hfollow hemit
  · have hreturn : isReturn opcode = false := by
      rw [isReturn, decide_eq_false hsecondary, Bool.and_false]
    rw [nextFresh_other (by omega) (by omega) hreturn]
    unfold emitGroup19 at hemit
    split at hemit
    · contradiction
    · exact decoded_rfi hemit
    · exact decoded_isync h hemit
    · exact decoded_bcctrx h hemit
    · exact decoded_other h hemit

theorem decoded_group31 {others : Others} (h : Placed tc)
    (hemit : emitGroup31 others regs opcode tc = some tc') : Decoded fresh tc fresh tc' := by
  unfold emitGroup31 at hemit
  split at hemit
  · unfold emitTw at hemit
    split at hemit <;> cases hemit
    exact decoded_trap h
  · exact decoded_mfmsr h hemit
  · exact decoded_mtmsr hemit
  · exact decoded_mfspr h hemit
  · exact decoded_mtspr h hemit
  · exact decoded_dcbi h hemit
  · exact decoded_other h hemit

theorem wordsAt_one (pc : CodePtr) : wordsAt pc 1 = [pc.setWidth 32] := by
  simp [wordsAt]

theorem wordsAt_two (pc : CodePtr) : wordsAt pc 2 = [pc.setWidth 32, (pc + 4).setWidth 32] := by
  simp [wordsAt, List.range_succ]

/-- The second word of a constant is no branch. -/
theorem group_of_fusesAddis {opcode₂ : Word} (h : fusesAddis opcode opcode₂ = true) :
    (opcode₂ >>> 26).toNat = 24 ∨ (opcode₂ >>> 26).toNat = 14 := by
  have hrd : (opcode >>> 21) &&& 31 = (opcode.extractLsb' 21 5).setWidth 32 := by
    apply BitVec.eq_of_toNat_eq
    simp only [BitVec.toNat_and, BitVec.toNat_ushiftRight, BitVec.toNat_setWidth,
      BitVec.extractLsb'_toNat]
    show _ &&& (2 ^ 5 - 1) = _
    rw [Nat.and_two_pow_sub_one_eq_mod]
    omega
  have hshift (mask : Word) (hmask : mask >>> 26 = 0x3f) :
      (opcode₂ &&& mask) >>> 26 = opcode₂ >>> 26 := by
    apply BitVec.eq_of_toNat_eq
    rw [BitVec.ushiftRight_and_distrib, hmask, BitVec.toNat_and]
    show _ &&& (2 ^ 6 - 1) = _
    rw [Nat.and_two_pow_sub_one_eq_mod, BitVec.toNat_ushiftRight, Nat.shiftRight_eq_div_pow]
    omega
  have htable : ∀ rd : BitVec 5,
      ((rd.setWidth 32 <<< 21 ||| rd.setWidth 32 <<< 16 ||| (24 : Word) <<< 26) >>> 26).toNat = 24 ∧
      ((rd.setWidth 32 <<< 21 ||| rd.setWidth 32 <<< 16 ||| (14 : Word) <<< 26) >>> 26).toNat = 14 := by
    decide +kernel
  simp only [fusesAddis, hrd, Bool.or_eq_true, decide_eq_true_eq] at h
  rcases h with h | h
  · rw [← hshift 0xffff0000 rfl, h]
    exact .inl (htable _).1
  · rw [← hshift 0xffff8000 rfl, h]
    exact .inr (htable _).2

theorem decoded_emitINSN (h : Placed tc)
    (hfollow : followedReturn (env.image (tc.codePtr.setWidth 32)) tc ≠ none → fresh = true) {n : ℕ}
    (hemit : emitINSN env regs tc = some (tc', n)) :
    Decoded fresh tc (((wordsAt tc.codePtr n).map env.image).foldl nextFresh fresh) tc' := by
  unfold emitINSN at hemit
  dsimp only at hemit
  set opcode := env.image (tc.codePtr.setWidth 32)
  have hone {next : Bool} (hnext : nextFresh fresh opcode = next) (hn : n = 1)
      (hdecoded : Decoded fresh tc next tc') :
      Decoded fresh tc (((wordsAt tc.codePtr n).map env.image).foldl nextFresh fresh) tc' := by
    rw [hn, wordsAt_one]
    show Decoded fresh tc (nextFresh fresh opcode) tc'
    rwa [hnext]
  split at hemit
  case h_1 hgroup =>
    obtain ⟨tc', htrap, heq⟩ := Option.map_eq_some_iff.mp hemit
    cases heq
    cases htrap
    exact hone (nextFresh_other (by omega) (by omega) (isReturn_of_group (by omega))) rfl
      (decoded_trap h)
  case h_2 hgroup =>
    have hfirst (fresh : Bool) : nextFresh fresh opcode = fresh :=
      nextFresh_other (by omega) (by omega) (isReturn_of_group (by omega))
    set opcode₂ := env.image ((tc.codePtr + 4).setWidth 32)
    have hemit' := Option.some.inj hemit
    have haddis : Decoded fresh tc fresh tc' := by
      have hdecoded : Decoded fresh tc fresh (emitAddis opcode opcode₂ tc).1 := decoded_addis h opcode₂
      rwa [hemit'] at hdecoded
    unfold emitAddis at hemit'
    split at hemit'
    case isTrue hfuses =>
      obtain rfl : 2 = n := congrArg Prod.snd hemit'
      have hsecond : nextFresh fresh opcode₂ = fresh := by
        have hgroup₂ := group_of_fusesAddis hfuses.2
        exact nextFresh_other (by omega) (by omega) (isReturn_of_group (by omega))
      rw [wordsAt_two]
      show Decoded fresh tc (nextFresh (nextFresh fresh opcode) opcode₂) tc'
      rwa [hfirst, hsecond]
    case isFalse =>
      exact hone (hfirst fresh) (congrArg Prod.snd hemit').symm haddis
  case h_3 hgroup =>
    cases hemit
    exact hone (nextFresh_branch (.inl hgroup)) rfl (decoded_bcx h)
  case h_4 hgroup =>
    obtain ⟨tc', hsc, heq⟩ := Option.map_eq_some_iff.mp hemit
    cases heq
    exact hone (nextFresh_other (by omega) (by omega) (isReturn_of_group (by omega))) rfl
      (decoded_sc h hsc)
  case h_5 hgroup =>
    cases hemit
    exact hone (nextFresh_branch (.inr hgroup)) rfl (decoded_bx h)
  case h_6 hgroup =>
    obtain ⟨tc', hgroup19, heq⟩ := Option.map_eq_some_iff.mp hemit
    cases heq
    exact hone rfl rfl (decoded_group19 h hgroup hfollow hgroup19)
  case h_7 hgroup =>
    obtain ⟨tc', hgroup31, heq⟩ := Option.map_eq_some_iff.mp hemit
    cases heq
    exact hone (nextFresh_other (by omega) (by omega) (isReturn_of_group (by omega))) rfl
      (decoded_group31 h hgroup31)
  case h_8 hne₁ hne₂ hne₃ hne₄ hne₅ hne₆ hne₇ =>
    obtain ⟨tc', hother, heq⟩ := Option.map_eq_some_iff.mp hemit
    cases heq
    exact hone (nextFresh_other hne₃ hne₅ (isReturn_of_group hne₆)) rfl (decoded_other h hother)

/-! ### Whole translations -/

variable {localState : ℕ → CodePtr} {entry : CodePtr} {t t' : Translation}

/-- The last call or return of the unit so far is a call. -/
def freshAfter (env : Environment) (words : List Word) : Bool :=
  (words.map env.image).foldl nextFresh false

/-- The instruction at the code pointer. -/
def nextOpcode (env : Environment) (t : Translation) : Word :=
  env.image (t.tc.codePtr.setWidth 32)

/-- A return is only followed behind a call, without another return between them. -/
def ReturnsFresh (env : Environment) (t : Translation) (_ : Allocation) : Prop :=
  followedReturn (nextOpcode env t) t.tc ≠ none → freshAfter env t.words = true

/-- If the translation goes on at an address behind a return, every execution that is there has that
address in the link register. -/
def ReturnSound (env : Environment) (entry : CodePtr) (t : Translation) : Prop :=
  ∀ retAddr, followedReturn (nextOpcode env t) t.tc = some retAddr →
    ∀ s₀ s : Cpu, s₀.get regPC = entry.setWidth 32 → Runs t.tc.code s₀ s →
      wordAligned (s.get regLR) = retAddr.setWidth 32

/-- The invariant of a translation that goes on. -/
structure Tracked (env : Environment) (entry : CodePtr) (t : Translation) : Prop where
  clean : visible t.tc.code = t.tc.code
  placed : t.breakLoop = false → Placed t.tc
  inStep : t.breakLoop = false → ∀ s₀ s : Cpu, s₀.get regPC = entry.setWidth 32 →
    Runs t.tc.code s₀ s → InStep (freshAfter env t.words) t.tc (view s)

theorem Tracked.start (hentry : AlignedPtr entry) :
    Tracked env entry (startTranslation localState entry) where
  clean := rfl
  placed _ := ⟨le_rfl, Int.le.intro 120 rfl, hentry, fun _ ha ↦ absurd ha List.not_mem_nil⟩
  inStep _ := by
    rintro _ s hpc rfl
    refine ⟨?_, fun hfresh ↦ absurd hfresh Bool.false_ne_true⟩
    exact (BitVec.add_zero _).trans hpc

theorem Tracked.same (h : Tracked env entry t) (hsame : SameCode t t') : Tracked env entry t' := by
  obtain ⟨htc, -, -, hwords, hbreak⟩ := hsame
  exact ⟨htc ▸ h.clean, htc ▸ hbreak ▸ h.placed, htc ▸ hbreak ▸ hwords ▸ h.inStep⟩

theorem Tracked.after (h : Tracked env entry t) (hgoes : t.breakLoop = false) {n : ℕ}
    (hdecoded : Decoded (freshAfter env t.words) t.tc
      (((wordsAt t.tc.codePtr n).map env.image).foldl nextFresh (freshAfter env t.words)) tc) :
    Tracked env entry (t.afterInstruction tc n) := by
  have hclean : visible (t.afterInstruction tc n).tc.code = (t.afterInstruction tc n).tc.code :=
    visible_visible tc.code
  cases hdecoded with
  | stops code emitted ends =>
    have hbreak : (t.afterInstruction tc n).breakLoop = true := by
      show (t.breakLoop || stops tc.code) = true
      rw [emitted, stops_append ends, Bool.or_true]
    exact ⟨hclean, fun hno ↦ absurd (hbreak.symm.trans hno) Bool.true_eq_false.mp,
      fun hno ↦ absurd (hbreak.symm.trans hno) Bool.true_eq_false.mp⟩
  | goes code emitted placed keeps =>
    refine ⟨hclean, fun _ ↦ ⟨placed.1, placed.2, placed.3, placed.4⟩, fun _ s₀ s hpc hruns ↦ ?_⟩
    have hcode : (t.afterInstruction tc n).tc.code = t.tc.code ++ visible code := by
      show visible tc.code = _
      rw [emitted, visible_append h.clean]
    rw [hcode] at hruns
    obtain ⟨s₁, hfirst, hsecond⟩ := runs_append.mp hruns
    have hnext := keeps s₁ s (h.inStep hgoes s₀ s₁ hpc hfirst) hsecond
    have hwords : freshAfter env (t.afterInstruction tc n).words =
        ((wordsAt t.tc.codePtr n).map env.image).foldl nextFresh (freshAfter env t.words) := by
      show freshAfter env (t.words ++ wordsAt t.tc.codePtr n) = _
      rw [freshAfter, List.map_append, List.foldl_append]
      rfl
    rw [hwords]
    exact ⟨hnext.1, hnext.2⟩

theorem goesOn_breakLoop (h : t.goesOn env = true) : t.breakLoop = false := by
  simp only [Translation.goesOn, Bool.and_eq_true, Bool.not_eq_true'] at h
  exact h.1.1.2

theorem Tracked.step (h : Tracked env entry t) (hok : ReturnsFresh env t regs)
    (hstep : translateStep env entry t regs = some t') : Tracked env entry t' := by
  obtain ⟨hgoes, hsame | ⟨tc, n, hemit, hsame⟩⟩ := translateStep_cases hstep
  · exact h.same hsame
  · have hbreak := goesOn_breakLoop hgoes
    exact (h.after hbreak (decoded_emitINSN (h.placed hbreak) hok hemit)).same hsame

theorem Tracked.returnSound (h : Tracked env entry t) (hgoes : t.goesOn env = true)
    (hok : ReturnsFresh env t regs) : ReturnSound env entry t := by
  intro retAddr hfollow s₀ s hpc hruns
  have hbreak := goesOn_breakLoop hgoes
  have hfresh := hok (by rw [hfollow]; exact Option.some_ne_none retAddr)
  have hpop : t.tc.returnStack.pop.1 = some retAddr := by
    unfold followedReturn at hfollow
    split at hfollow
    · exact hfollow
    · cases hfollow
  have hretAddr : AlignedPtr retAddr := aligned_pop (h.placed hbreak) hpop
  exact (congrArg wordAligned ((h.inStep hbreak s₀ s hpc hruns).lr hfresh retAddr hpop)).trans
    (wordAligned_of_aligned hretAddr)

/-- Every return that is followed in a translation whose returns are fresh is sound. -/
theorem translating_returnSound (hentry : AlignedPtr entry)
    (h : Translating env localState entry (ReturnsFresh env) t) (hgoes : t.goesOn env = true)
    (hok : ReturnsFresh env t regs) : ReturnSound env entry t :=
  (Lib.Reachable.invariant (Tracked env entry) (Tracked.start hentry)
    (fun _ _ _ htracked hok hstep ↦ htracked.step hok hstep) h).returnSound hgoes hok

/-! ### A function that calls another one -/

/-- At `0x1000` and `0x1008` there is a call of the address two words further, elsewhere `blr`. -/
def nestedCalls : Environment where
  image a := if a = 0x1000 ∨ a = 0x1008 then 0x48000009 else 0x4e800020
  control := 0x001fff80
  others := ⟨fun _ ↦ false⟩

/-- The return of the inner function is followed to the address behind the inner call. -/
theorem translating_returnSound_inner :
    AlignedPtr 0x1000 ∧ ∃ t, Translating nestedCalls (fun _ ↦ 0) 0x1000 (ReturnsFresh nestedCalls) t ∧
      t.goesOn nestedCalls = true ∧ ReturnsFresh nestedCalls t firstRegs ∧
      followedReturn (nextOpcode nestedCalls t) t.tc = some 0x100c ∧
      ReturnSound nestedCalls 0x1000 t := by
  have haligned : AlignedPtr 0x1000 := by unfold AlignedPtr; decide
  have hcall (t : Translation) (hnone : followedReturn (nextOpcode nestedCalls t) t.tc = none) :
      ReturnsFresh nestedCalls t firstRegs := fun hsome ↦ absurd hnone hsome
  obtain ⟨t, htranslating, hgoes, hfresh, hfollow⟩ : ∃ t,
      Translating nestedCalls (fun _ ↦ 0) 0x1000 (ReturnsFresh nestedCalls) t ∧
      t.goesOn nestedCalls = true ∧ freshAfter nestedCalls t.words = true ∧
      followedReturn (nextOpcode nestedCalls t) t.tc = some 0x100c :=
    ⟨_, .tail firstRegs (.tail firstRegs .refl (hcall _ (by decide +kernel)) rfl)
      (hcall _ (by decide +kernel)) rfl, by decide +kernel, by decide +kernel, by decide +kernel⟩
  have hok : ReturnsFresh nestedCalls t firstRegs := fun _ ↦ hfresh
  exact ⟨haligned, t, htranslating, hgoes, hok, hfollow,
    translating_returnSound haligned htranslating hgoes hok⟩

def idleCpu : Cpu := ⟨fun _ ↦ 0x1000, ⟨false, false, false, false⟩, fun _ ↦ 0, fun _ ↦ 0⟩

/-- The return of the outer function is followed too, but it returns behind the inner call again. -/
theorem returnSound_outer : ¬ ∀ (env : Environment) (localState : ℕ → CodePtr) (entry : CodePtr)
    (t : Translation), AlignedPtr entry → Translating env localState entry (fun _ _ ↦ True) t →
      t.goesOn env = true → ReturnSound env entry t := by
  intro hall
  have haligned : AlignedPtr 0x1000 := by unfold AlignedPtr; decide
  obtain ⟨t, htranslating, hgoes, hfollow, hcode⟩ : ∃ t,
      Translating nestedCalls (fun _ ↦ 0) 0x1000 (fun _ _ ↦ True) t ∧
      t.goesOn nestedCalls = true ∧
      followedReturn (nextOpcode nestedCalls t) t.tc = some 0x1004 ∧
      t.tc.code = ([.addImmed 28 18 4, .addImmed 18 18 8, .addImmed 28 18 4, .addImmed 18 18 8,
        A64.bicImmed 18 28 2 0] : List A64.Op).map .insn :=
    ⟨_, .tail firstRegs (.tail firstRegs (.tail firstRegs .refl trivial rfl) trivial rfl) trivial rfl,
      by decide +kernel, by decide +kernel, rfl⟩
  have hsound := hall nestedCalls (fun _ ↦ 0) 0x1000 t haligned htranslating hgoes 0x1004 hfollow
    idleCpu _ rfl (hcode ▸ runs_insns.mpr rfl)
  exact absurd hsound (by decide +kernel)

end Emu68.Ppc
