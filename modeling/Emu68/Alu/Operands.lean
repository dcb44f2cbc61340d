import Emu68.Alu.Trapping

/-!
The m68k registers, memory and condition codes that a state of the host stands for, and the operands
of an instruction (`EMIT_LoadFromEffectiveAddress` of `M68k_EA.c`). Loading an operand changes an
address register at most, which the mode (An)+ or -(An) moves.
-/

set_option autoImplicit false
set_option relaxedAutoImplicit false

namespace Emu68.Alu

open A64 Lib

/-! ### The state that the programmer sees -/

structure Machine where
  d : Fin 8 → BitVec 32
  a : Fin 8 → BitVec 32
  pc : BitVec 32
  memory : Bytes
  ccr : BitVec 32

namespace Machine

def setD (m : Machine) (i : Fin 8) (value : BitVec 32) : Machine :=
  { m with d := Function.update m.d i value }

def setA (m : Machine) (i : Fin 8) (value : BitVec 32) : Machine :=
  { m with a := Function.update m.a i value }

def setMemory (m : Machine) (memory : Bytes) : Machine := { m with memory := memory }

end Machine

/-- The state behind the host's. The program counter is that of the host, without the offset that
is still pending. -/
def view (loaded : Bool) (cc : Reg) (s : WideCpu) : Machine :=
  ⟨fun i ↦ s.get (dn i), fun i ↦ s.get (an i), s.get Branch.regPC, s.memory, oldCcr loaded cc s⟩

inductive FlagReg where
  | cc
  | tmp
  | tmp2
deriving DecidableEq

/-- The registers that an instruction's code allocates. Those of the flag code are allocated behind
the others and may be the same, but that the condition codes keep theirs if they are loaded. `needed`
are the flags that are read before they are set again. -/
structure Emission (ρ : Type) extends Translation where
  own : Alloc ρ
  flag : Alloc FlagReg
  needed : Mask
  apart : ccLoaded = true → ∀ x, flag.reg .cc ≠ own.reg x

namespace Emission

variable {ρ : Type} (e : Emission ρ)

def cc : Reg := e.flag.reg .cc

/-- The flags to update, of those that the instruction sets (`M68K_GetSRMask`). -/
def mask (sets : Mask) : Mask := e.needed &&& sets

def view (s : WideCpu) : Machine := Alu.view e.ccLoaded e.cc s

end Emission

section View

variable {ρ : Type} {e : Emission ρ} {loaded : Bool} {cc : Reg} {s : WideCpu} {i : Fin 8}

theorem view_setFlags (flags : Nzcv) : view loaded cc (s.setFlags flags) = view loaded cc s := rfl

theorem oldCcr_put_unloaded {rd : Reg} (h : loaded = true → cc ≠ rd) (value : BitVec 64) :
    oldCcr loaded cc (s.put64 rd value) = oldCcr loaded cc s := by
  cases loaded with
  | true => exact oldCcr_put (h rfl) true value s
  | false =>
    show (s.put64 rd value).simd .sr = s.simd .sr
    unfold WideCpu.put64
    split_ifs <;> rfl

/-- A write of a register that stands for none of the m68k. -/
theorem view_put {rd : Reg} (hdn : ∀ i, dn i ≠ rd) (han : ∀ i, an i ≠ rd) (hpc : Branch.regPC ≠ rd)
    (hcc : loaded = true → cc ≠ rd) (value : BitVec 64) :
    view loaded cc (s.put64 rd value) = view loaded cc s := by
  have hget : ∀ r, r ≠ rd → (s.put64 rd value).get r = s.get r := fun r hr ↦ by
    rw [WideCpu.get, WideCpu.get64_put64_of_ne hr, ← WideCpu.get]
  unfold view
  rw [oldCcr_put_unloaded hcc, hget _ hpc, WideCpu.memory_put64]
  congr 1
  · funext i
    exact hget _ (hdn i)
  · funext i
    exact hget _ (han i)

theorem view_put_dn (hcc : cc ≠ dn i) (value : BitVec 64) :
    view loaded cc (s.put64 (dn i) value) = (view loaded cc s).setD i (value.setWidth 32) := by
  unfold view Machine.setD
  rw [oldCcr_put hcc, WideCpu.memory_put64, WideCpu.get_put64_ite dn_ne_zero, if_neg pc_ne_dn]
  congr 1
  · funext j
    rw [WideCpu.get_put64_ite dn_ne_zero, Function.update_apply]
    simp only [dn_inj]
  · funext j
    rw [WideCpu.get_put64_ite dn_ne_zero, if_neg an_ne_dn]

theorem view_put_an (hcc : cc ≠ an i) (value : BitVec 64) :
    view loaded cc (s.put64 (an i) value) = (view loaded cc s).setA i (value.setWidth 32) := by
  unfold view Machine.setA
  rw [oldCcr_put hcc, WideCpu.memory_put64, WideCpu.get_put64_ite an_ne_zero,
    if_neg fun h ↦ an_ne_pc h.symm]
  congr 1
  · funext j
    rw [WideCpu.get_put64_ite an_ne_zero, if_neg dn_ne_an]
  · funext j
    rw [WideCpu.get_put64_ite an_ne_zero, Function.update_apply]
    simp only [an_inj]

namespace Emission

theorem view_setFlags (flags : Nzcv) : e.view (s.setFlags flags) = e.view s := rfl

theorem view_put_own (x : ρ) (value : BitVec 64) : e.view (s.put64 (e.own.reg x) value) = e.view s :=
  view_put (fun _ ↦ dn_ne_reg) (fun _ ↦ an_ne_reg) pc_ne_reg (fun h ↦ e.apart h x) value

theorem view_put32_own (x : ρ) (value : BitVec 32) : e.view (s.put (e.own.reg x) value) = e.view s :=
  e.view_put_own x _

theorem view_put_dn (i : Fin 8) (value : BitVec 64) :
    e.view (s.put64 (dn i) value) = (e.view s).setD i (value.setWidth 32) :=
  Alu.view_put_dn reg_ne_dn value

theorem view_put_an (i : Fin 8) (value : BitVec 64) :
    e.view (s.put64 (an i) value) = (e.view s).setA i (value.setWidth 32) :=
  Alu.view_put_an reg_ne_an value

theorem view_memory (memory : Bytes) :
    e.view { s with memory := memory } = (e.view s).setMemory memory := rfl

end Emission

end View

/-! ### Operands that are read -/

/-- How far (An)+ and -(An) move the register: the stack pointer stays even. -/
def Size.step (size : Size) (i : Fin 8) : ℕ := if size = .byte ∧ i = 7 then 2 else size.bytes

/-- An operand in a register of 32 bits. -/
def Size.extend (size : Size) (signed : Bool) (x : BitVec size.bits) : BitVec 32 :=
  if signed then x.signExtend 32 else x.setWidth 32

/-- `sxtb` and `sxth`. -/
def sxt (size : Size) (rd rn : Reg) : WideOp := .sbfm rd rn 0 (size.bits - 1)

section Operands

variable {ρ : Type} (e : Emission ρ) (x : ρ) (size : Size) (signed : Bool)

/-- What the code does for an operand at a computed address, or for an immediate one. The program
counter may have been advanced by it. -/
structure Fetches (run : WideCpu → WideCpu) (value : WideCpu → BitVec size.bits) : Prop where
  operand : ∀ s, (run s).get (e.own.reg x) = size.extend signed (value s)
  view : ∀ s, e.view (run s) = { e.view s with pc := (run s).get Branch.regPC }

inductive Source where
  | data (i : Fin 8)
  | address (i : Fin 8)
  | indirect (i : Fin 8)
  | postIncrement (i : Fin 8)
  | preDecrement (i : Fin 8)
  | fetched (run : WideCpu → WideCpu) (value : WideCpu → BitVec size.bits)
      (fetches : Fetches e x size signed run value)

variable {e x size signed}

namespace Source

/-- The code, and the register that the operand is in. -/
def load (readOnly : Bool) : Source e x size signed → List WideOp × Reg
  | .data i =>
    if signed then ([sxt size (e.own.reg x) (dn i)], e.own.reg x)
    else if readOnly then ([], dn i)
    else ([.insn (movReg (e.own.reg x) (dn i))], e.own.reg x)
  | .address i =>
    if signed then ([sxt size (e.own.reg x) (an i)], e.own.reg x)
    else if readOnly then ([], an i)
    else ([.insn (movReg (e.own.reg x) (an i))], e.own.reg x)
  | .indirect i => ([.ldr size.bytes signed .offset (an i) (e.own.reg x) 0], e.own.reg x)
  | .postIncrement i =>
    ([.ldr size.bytes signed .postindex (an i) (e.own.reg x) (size.step i)], e.own.reg x)
  | .preDecrement i =>
    ([.ldr size.bytes signed .preindex (an i) (e.own.reg x) (-size.step i)], e.own.reg x)
  | .fetched run _ _ => ([.operand run], e.own.reg x)

def value (s : WideCpu) : Source e x size signed → BitVec size.bits
  | .data i => (s.get (dn i)).setWidth _
  | .address i => (s.get (an i)).setWidth _
  | .indirect i => BitVec.ofNat _ (Lib.load s.memory (s.get (an i)) size.bytes)
  | .postIncrement i => BitVec.ofNat _ (Lib.load s.memory (s.get (an i)) size.bytes)
  | .preDecrement i =>
    BitVec.ofNat _ (Lib.load s.memory (s.get (an i) - BitVec.ofNat 32 (size.step i)) size.bytes)
  | .fetched _ value _ => value s

/-- What the mode leaves of the machine. -/
def after (s : WideCpu) : Source e x size signed → Machine
  | .postIncrement i => (e.view s).setA i (s.get (an i) + BitVec.ofNat 32 (size.step i))
  | .preDecrement i => (e.view s).setA i (s.get (an i) - BitVec.ofNat 32 (size.step i))
  | .fetched run _ _ => { e.view s with pc := (run s).get Branch.regPC }
  | _ => e.view s

def isRegister : Source e x size signed → Bool
  | .data _ => true
  | .address _ => true
  | _ => false

end Source

end Operands

/-! ### The code of an operand that is read -/

theorem setWidth_ofInt (z : ℤ) : (BitVec.ofInt 64 z).setWidth 32 = BitVec.ofInt 32 z := by
  refine BitVec.eq_of_toNat_eq ?_
  rw [BitVec.toNat_setWidth, BitVec.toNat_ofInt, BitVec.toNat_ofInt]
  omega

theorem access_add (rn : Reg) (n : ℕ) (s : WideCpu) :
    (s.get64 rn + BitVec.ofInt 64 n).setWidth 32 = s.get rn + BitVec.ofNat 32 n := by
  rw [WideCpu.access_low, setWidth_ofInt, BitVec.ofInt_natCast]

theorem access_sub (rn : Reg) (n : ℕ) (s : WideCpu) :
    (s.get64 rn + BitVec.ofInt 64 (-n)).setWidth 32 = s.get rn - BitVec.ofNat 32 n := by
  rw [WideCpu.access_low, setWidth_ofInt, BitVec.ofInt_neg, BitVec.ofInt_natCast,
    BitVec.sub_eq_add_neg]

theorem Size.bits_range (size : Size) : 8 ≤ size.bits ∧ size.bits ≤ 32 := by
  cases size <;> decide

theorem Size.setWidth_extend (size : Size) (signed : Bool) (x : BitVec size.bits) :
    (size.extend signed x).setWidth size.bits = x := by
  have hbits := size.bits_range.2
  cases signed with
  | false =>
    show (x.setWidth 32).setWidth size.bits = x
    rw [BitVec.setWidth_setWidth_of_le _ hbits, BitVec.setWidth_eq]
  | true =>
    show (x.signExtend 32).setWidth size.bits = x
    ext i hi
    simp only [BitVec.getElem_setWidth, BitVec.getLsbD_signExtend]
    grind

theorem Size.loaded (size : Size) (signed : Bool) (s : WideCpu) (address : BitVec 32) :
    (s.loaded address size.bytes signed).setWidth 32 =
      size.extend signed (BitVec.ofNat _ (Lib.load s.memory address size.bytes)) := by
  have hbits := size.bits_range.2
  have hlt := load_lt s.memory address size.bytes
  unfold WideCpu.loaded Size.extend
  cases signed with
  | false =>
    have hpow : 2 ^ (8 * size.bytes) ≤ 2 ^ 32 := Nat.pow_le_pow_right (by decide) hbits
    refine BitVec.eq_of_toNat_eq ?_
    rw [if_neg Bool.false_ne_true, if_neg Bool.false_ne_true, BitVec.toNat_setWidth,
      BitVec.toNat_ofNat, BitVec.toNat_setWidth, BitVec.toNat_ofNat, Size.bits,
      Nat.mod_eq_of_lt hlt, Nat.mod_eq_of_lt (a := Lib.load _ _ _) (by omega)]
  | true =>
    rw [if_pos rfl, if_pos rfl, BitVec.setWidth_setWidth_of_le _ (by decide), BitVec.setWidth_eq]
    rfl

section Source

variable {ρ : Type} {e : Emission ρ} {x : ρ} {size : Size} {signed : Bool}

/-- What is known of an operand in its register. -/
structure Loaded (operand : Source e x size signed) (readOnly : Bool) (reg : Reg) (s s' : WideCpu) :
    Prop where
  value : (s'.get reg).setWidth size.bits = operand.value s
  extended : operand.isRegister = false ∨ signed = true →
    s'.get reg = size.extend signed (operand.value s)
  view : e.view s' = operand.after s
  apart : ∀ y, y ≠ x → reg ≠ e.own.reg y
  own : readOnly = false → reg = e.own.reg x

theorem run_load (operand : Source e x size signed) (readOnly : Bool) (s : WideCpu) :
    ∃ s', runForward WideOp.effect 0 (operand.load readOnly).1 s = (s', 0) ∧
      Loaded operand readOnly (operand.load readOnly).2 s s' := by
  have hown : ∀ y, y ≠ x → e.own.reg x ≠ e.own.reg y := fun y hy h ↦ hy (reg_inj.mp h).symm
  have hregister : ∀ rn : Reg, (∀ y, rn ≠ e.own.reg y) →
      ∀ operand : Source e x size signed, operand.isRegister = true →
        operand.value s = (s.get rn).setWidth _ → operand.after s = e.view s →
        operand.load readOnly = (if signed then ([sxt size (e.own.reg x) rn], e.own.reg x)
          else if readOnly then ([], rn) else ([.insn (movReg (e.own.reg x) rn)], e.own.reg x)) →
        ∃ s', runForward WideOp.effect 0 (operand.load readOnly).1 s = (s', 0) ∧
          Loaded operand readOnly (operand.load readOnly).2 s s' := by
    intro rn hrn operand hoperand hvalue hafter hload
    rw [hload]
    split_ifs with hsigned hread
    · have hresult : (s.put (e.own.reg x) (signedField (s.get rn) 0 (size.bits - 1))).get
          (e.own.reg x) = size.extend signed (operand.value s) := by
        have hbits := size.bits_range
        rw [WideCpu.get_put reg_ne_zero, signedField_low _ (by omega) (by omega), hvalue,
          Size.extend, if_pos hsigned]
      refine ⟨_, rfl, ?_, fun _ ↦ hresult, (e.view_put32_own x _).trans hafter.symm, hown,
        fun _ ↦ rfl⟩
      exact (congrArg _ hresult).trans (size.setWidth_extend signed _)
    · refine ⟨s, rfl, hvalue.symm, fun h ↦ ?_, hafter.symm, fun y _ ↦ hrn y, fun h ↦ ?_⟩
      · rw [hoperand] at h
        exact absurd h (by simp [hsigned])
      · exact absurd (hread.symm.trans h) (by decide)
    · refine ⟨_, rfl, ?_, fun h ↦ ?_, ?_, hown, fun _ ↦ rfl⟩
      · show ((s.insn (movReg _ _)).get _).setWidth _ = _
        rw [WideCpu.insn_movReg, WideCpu.get_put reg_ne_zero, hvalue]
      · rw [hoperand] at h
        exact absurd h (by simp [hsigned])
      · show e.view (s.insn (movReg _ _)) = _
        rw [WideCpu.insn_movReg, e.view_put32_own, hafter]
  -- a load behind a step of the address register, or before it
  have hmemory : ∀ (t : WideCpu) (address : BitVec 32),
      ((t.put64 (e.own.reg x) (s.loaded address size.bytes signed)).get (e.own.reg x)) =
        size.extend signed (BitVec.ofNat _ (Lib.load s.memory address size.bytes)) := by
    intro t address
    rw [WideCpu.get_put64_ite reg_ne_zero, if_pos rfl, size.loaded]
  have hresult : ∀ (operand : Source e x size signed) (t : WideCpu) (address : BitVec 32),
      operand.value s = BitVec.ofNat _ (Lib.load s.memory address size.bytes) →
      e.view t = operand.after s →
      Loaded operand readOnly (e.own.reg x) s
        (t.put64 (e.own.reg x) (s.loaded address size.bytes signed)) := by
    intro operand t address hvalue hview
    refine ⟨?_, fun _ ↦ ?_, (e.view_put_own x _).trans hview, hown, fun _ ↦ rfl⟩
    · rw [hmemory, size.setWidth_extend, hvalue]
    · rw [hmemory, hvalue]
  cases operand with
  | data i => exact hregister (dn i) (fun _ ↦ dn_ne_reg) (.data i) rfl rfl rfl rfl
  | address i => exact hregister (an i) (fun _ ↦ an_ne_reg) (.address i) rfl rfl rfl rfl
  | indirect i =>
    refine ⟨_, Prod.ext rfl rfl, hresult _ _ _ ?_ ?_⟩
    · show _ = BitVec.ofNat _ (Lib.load s.memory ((s.get64 (an i) + BitVec.ofInt 64 0).setWidth 32) _)
      rw [WideCpu.access_low, setWidth_ofInt]
      exact congrArg (fun address ↦ BitVec.ofNat _ (Lib.load s.memory address _))
        (BitVec.add_zero _).symm
    · show e.view (s.put64 (an i) (s.get64 (an i))) = e.view s
      rw [WideCpu.put64_get64]
  | postIncrement i =>
    refine ⟨_, Prod.ext rfl rfl, hresult _ _ _ rfl ?_⟩
    exact (e.view_put_an i _).trans (congrArg _ (access_add (an i) _ s))
  | preDecrement i =>
    refine ⟨_, Prod.ext rfl rfl, hresult _ _ _ ?_ ?_⟩
    · show _ = BitVec.ofNat _ (Lib.load s.memory
        ((s.get64 (an i) + BitVec.ofInt 64 (-(size.step i : ℤ))).setWidth 32) _)
      rw [access_sub]
      rfl
    · exact (e.view_put_an i _).trans (congrArg _ (access_sub (an i) _ s))
  | fetched run value fetches =>
    refine ⟨run s, rfl, ?_, fun _ ↦ fetches.operand s, fetches.view s, hown, fun _ ↦ rfl⟩
    exact (congrArg _ (fetches.operand s)).trans (size.setWidth_extend signed _)

end Source

/-! ### Operands that are written -/

/-- What the code of `EMIT_LoadFromEffectiveAddress` does for the address of an operand. -/
structure Locates (ea cc : Reg) (run : WideCpu → WideCpu) (address : WideCpu → BitVec 32) :
    Prop where
  address : ∀ s, (run s).get ea = address s
  dn : ∀ s i, (run s).get64 (dn i) = s.get64 (dn i)
  an : ∀ s i, (run s).get64 (an i) = s.get64 (an i)
  memory : ∀ s, (run s).memory = s.memory
  cc : ∀ s loaded, oldCcr loaded cc (run s) = oldCcr loaded cc s

/-- The place of an operand: an address register points to it, or its address is computed. -/
inductive Place (ea cc : Reg) where
  | indirect (i : Fin 8)
  | computed (run : WideCpu → WideCpu) (address : WideCpu → BitVec 32)
      (locates : Locates ea cc run address)

namespace Place

variable {ea cc : Reg}

def address (s : WideCpu) : Place ea cc → BitVec 32
  | .indirect i => s.get (an i)
  | .computed _ address _ => address s

/-- The code, and the register that the address is in. -/
def locate : Place ea cc → List WideOp × Reg
  | .indirect i => ([], an i)
  | .computed run _ _ => ([.operand run], ea)

/-- The state behind the code. -/
def after (s : WideCpu) : Place ea cc → WideCpu
  | .indirect _ => s
  | .computed run _ _ => run s

end Place

/-- A place that is read and then written, or an address register that moves on the way. -/
inductive Target (ea cc : Reg) where
  | fixed (place : Place ea cc)
  | postIncrement (i : Fin 8)
  | preDecrement (i : Fin 8)

namespace Target

variable {ρ : Type} {e : Emission ρ} {ea : Reg} (size : Size)

/-- The code for the address, and the register that it is in. -/
def locate : Target ea e.cc → List WideOp × Reg
  | .fixed place => place.locate
  | .postIncrement i => ([], an i)
  | .preDecrement i => ([], an i)

/-- The operand is read into the register `rt`. -/
def fetch (rt : Reg) (target : Target ea e.cc) : WideOp :=
  match target with
  | .preDecrement i => .ldr size.bytes false .preindex target.locate.2 rt (-size.step i)
  | _ => .ldr size.bytes false .offset target.locate.2 rt 0

/-- The result is written back. -/
def writeBack (rt : Reg) (target : Target ea e.cc) : WideOp :=
  match target with
  | .postIncrement i => .str size.bytes .postindex target.locate.2 rt (size.step i)
  | _ => .str size.bytes .offset target.locate.2 rt 0

def address (s : WideCpu) : Target ea e.cc → BitVec 32
  | .fixed place => place.address s
  | .postIncrement i => s.get (an i)
  | .preDecrement i => s.get (an i) - BitVec.ofNat 32 (size.step i)

/-- What the mode leaves of the machine. -/
def after (s : WideCpu) : Target ea e.cc → Machine
  | .fixed place => { e.view s with pc := (place.after s).get Branch.regPC }
  | .postIncrement i => (e.view s).setA i (s.get (an i) + BitVec.ofNat 32 (size.step i))
  | .preDecrement i => (e.view s).setA i (s.get (an i) - BitVec.ofNat 32 (size.step i))

def value (s : WideCpu) (target : Target ea e.cc) : BitVec size.bits :=
  BitVec.ofNat _ (Lib.load s.memory (target.address size s) size.bytes)

end Target

/-! ### The code of an operand that is written -/

/-- Only these registers and the flags change. -/
structure Changes (rs : List Reg) (s s' : WideCpu) : Prop where
  get64 : ∀ r ∉ rs, s'.get64 r = s.get64 r
  memory : s'.memory = s.memory
  simd : s'.simd = s.simd

section Target

variable {ρ : Type} {e : Emission ρ} {x y : ρ} {size : Size} {s s' : WideCpu} {ys : List ρ}

theorem Changes.refl (rs : List Reg) (s : WideCpu) : Changes rs s s :=
  ⟨fun _ _ ↦ rfl, rfl, rfl⟩

theorem Changes.trans {rs : List Reg} {s'' : WideCpu} (h : Changes rs s s')
    (h' : Changes rs s' s'') : Changes rs s s'' :=
  ⟨fun r hr ↦ (h'.get64 r hr).trans (h.get64 r hr), h'.memory.trans h.memory, h'.simd.trans h.simd⟩

theorem Changes.get {rs : List Reg} {r : Reg} (h : Changes rs s s') (hr : r ∉ rs) :
    s'.get r = s.get r := by
  rw [WideCpu.get, h.get64 r hr, ← WideCpu.get]

/-- The registers that the code allocates stand for none of the m68k. -/
theorem Changes.view (h : Changes (ys.map e.own.reg) s s') : e.view s' = e.view s := by
  have hdn : ∀ i, dn i ∉ ys.map e.own.reg := fun i hmem ↦ by
    obtain ⟨y, -, hy⟩ := List.mem_map.mp hmem
    exact reg_ne_dn hy
  have han : ∀ i, an i ∉ ys.map e.own.reg := fun i hmem ↦ by
    obtain ⟨y, -, hy⟩ := List.mem_map.mp hmem
    exact reg_ne_an hy
  have hpc : Branch.regPC ∉ ys.map e.own.reg := fun hmem ↦ by
    obtain ⟨y, -, hy⟩ := List.mem_map.mp hmem
    exact reg_ne_pc hy
  have hcc : oldCcr e.ccLoaded e.cc s' = oldCcr e.ccLoaded e.cc s := by
    unfold oldCcr
    split_ifs with hloaded
    · refine h.get fun hmem ↦ ?_
      obtain ⟨y, -, hy⟩ := List.mem_map.mp hmem
      exact e.apart hloaded y hy.symm
    · rw [h.simd]
  unfold Emission.view Alu.view
  rw [hcc, h.get hpc, h.memory]
  congr 1
  · funext i
    exact h.get (hdn i)
  · funext i
    exact h.get (han i)

theorem Locates.view {ea : Reg} {run : WideCpu → WideCpu} {address : WideCpu → BitVec 32}
    (h : Locates ea e.cc run address) (s : WideCpu) :
    e.view (run s) = { e.view s with pc := (run s).get Branch.regPC } := by
  unfold Emission.view Alu.view
  rw [h.memory, h.cc]
  congr 1
  · funext i
    rw [WideCpu.get, h.dn, ← WideCpu.get]
  · funext i
    rw [WideCpu.get, h.an, ← WideCpu.get]

/-- The code that reads a place, computes in the register `y`, and writes the result back. -/
def modify (size : Size) (y : ρ) (target : Target (e.own.reg x) e.cc) (compute : List WideOp) : List WideOp :=
  target.locate.1 ++ [target.fetch size (e.own.reg y)] ++ compute ++
    [target.writeBack size (e.own.reg y)]

/-- The place before the step of (An)+ that comes with the write. -/
def Target.before (size : Size) (s : WideCpu) : Target (e.own.reg x) e.cc → Machine
  | .postIncrement _ => e.view s
  | target => target.after size s

theorem run_fetch (size : Size) (target : Target (e.own.reg x) e.cc) (hy : y ≠ x) (s : WideCpu) :
    ∃ t, runForward WideOp.effect 0 (target.locate.1 ++ [target.fetch size (e.own.reg y)]) s =
        (t, 0) ∧ t.get (e.own.reg y) = (target.value size s).setWidth 32 ∧
      t.get target.locate.2 = target.address size s ∧ e.view t = target.before size s := by
  have hload : ∀ (u t : WideCpu) (address : BitVec 32), u.memory = s.memory →
      (t.put64 (e.own.reg y) (u.loaded address size.bytes false)).get (e.own.reg y) =
        (BitVec.ofNat size.bits (Lib.load s.memory address size.bytes)).setWidth 32 := by
    intro u t address hu
    rw [WideCpu.get_put64_ite reg_ne_zero, if_pos rfl, size.loaded, hu]
    rfl
  have hkeep : ∀ (t : WideCpu) (rn : Reg) (value : BitVec 64), rn ≠ e.own.reg y →
      (t.put64 (e.own.reg y) value).get rn = t.get rn := fun t rn value hrn ↦ by
    rw [WideCpu.get_put64_ite reg_ne_zero, if_neg hrn]
  have hplain : ∀ (u : WideCpu) (rn : Reg), rn ≠ e.own.reg y → u.memory = s.memory →
      ∃ t, WideOp.effect (.ldr size.bytes false .offset rn (e.own.reg y) 0) u = (t, 0) ∧
        t.get (e.own.reg y) =
          (BitVec.ofNat size.bits (Lib.load s.memory (u.get rn) size.bytes)).setWidth 32 ∧
        t.get rn = u.get rn ∧ e.view t = e.view u := by
    intro u rn hrn hu
    refine ⟨_, WideCpu.effect_ldr _ _ _ _ _ _, ?_, hkeep _ _ _ hrn, e.view_put_own y _⟩
    rw [hload _ _ _ hu, WideCpu.access_low, setWidth_ofInt]
    exact congrArg (fun address ↦ (BitVec.ofNat _ (Lib.load s.memory address _)).setWidth 32)
      (BitVec.add_zero _)
  cases target with
  | fixed place =>
    cases place with
    | indirect i =>
      obtain ⟨t, hrun, hvalue, haddress, hview⟩ := hplain s (an i) an_ne_reg rfl
      exact ⟨t, runForward_step hrun, hvalue, haddress, hview⟩
    | computed run address locates =>
      have hne : e.own.reg x ≠ e.own.reg y := fun h ↦ hy (reg_inj.mp h).symm
      obtain ⟨t, hrun, hvalue, haddress, hview⟩ :=
        hplain (run s) (e.own.reg x) hne (locates.memory s)
      rw [locates.address] at hvalue haddress
      exact ⟨t, runForward_step hrun, hvalue, haddress, hview.trans (locates.view s)⟩
  | postIncrement i =>
    obtain ⟨t, hrun, hvalue, haddress, hview⟩ := hplain s (an i) an_ne_reg rfl
    exact ⟨t, runForward_step hrun, hvalue, haddress, hview⟩
  | preDecrement i =>
    have hmoved := access_sub (an i) (size.step i) s
    refine ⟨_, rfl, ?_, ?_, ?_⟩
    · exact (hload s _ _ rfl).trans (congrArg (fun address ↦
        (BitVec.ofNat size.bits (Lib.load s.memory address size.bytes)).setWidth 32) hmoved)
    · refine (hkeep _ _ _ an_ne_reg).trans ?_
      exact (WideCpu.get_put64_ite an_ne_zero _).trans ((if_pos rfl).trans hmoved)
    · exact (e.view_put_own y _).trans ((e.view_put_an i _).trans (congrArg _ hmoved))

theorem run_writeBack (target : Target (e.own.reg x) e.cc) {result : BitVec size.bits} {t : WideCpu}
    (hresult : (t.get (e.own.reg y)).setWidth size.bits = result)
    (haddress : t.get target.locate.2 = target.address size s)
    (hview : e.view t = target.before size s) :
    ∃ s', (target.writeBack size (e.own.reg y)).effect t = (s', 0) ∧
      e.view s' = (target.after size s).setMemory
        (Lib.store s.memory (target.address size s) size.bytes result.toNat) ∧
      s'.flags = t.flags ∧ s'.get (e.own.reg y) = t.get (e.own.reg y) := by
  have hbits := size.bits_range.2
  have hdata : (t.get64 (e.own.reg y)).toNat % 256 ^ size.bytes = result.toNat % 256 ^ size.bytes := by
    have hpow : 256 ^ size.bytes = 2 ^ size.bits := by
      rw [Size.bits, pow_mul]
      rfl
    rw [← hresult, WideCpu.get, BitVec.toNat_setWidth, BitVec.toNat_setWidth, hpow, Nat.mod_mod,
      Nat.mod_mod_of_dvd _ (pow_dvd_pow 2 hbits)]
  have hmemory : t.memory = s.memory := by
    have hmem : (e.view t).memory = s.memory := by
      rw [hview]
      cases target <;> rfl
    exact hmem
  have hstore : ∀ address : BitVec 32, address = target.address size s →
      Lib.store t.memory address size.bytes (t.get64 (e.own.reg y)).toNat =
        Lib.store s.memory (target.address size s) size.bytes result.toNat := by
    rintro address rfl
    rw [hmemory]
    exact store_congr hdata
  have hplain : target.before size s = target.after size s →
      ∃ s', (WideOp.str size.bytes .offset target.locate.2 (e.own.reg y) 0).effect t = (s', 0) ∧
        e.view s' = (target.after size s).setMemory
          (Lib.store s.memory (target.address size s) size.bytes result.toNat) ∧
        s'.flags = t.flags ∧ s'.get (e.own.reg y) = t.get (e.own.reg y) := by
    intro hsame
    have hbase : (t.get64 target.locate.2 + BitVec.ofInt 64 0).setWidth 32 =
        target.address size s := by
      rw [WideCpu.access_low, setWidth_ofInt]
      exact (BitVec.add_zero _).trans haddress
    refine ⟨_, rfl, ?_, ?_, ?_⟩
    · show e.view { (t.put64 target.locate.2 (t.get64 target.locate.2)) with memory := _ } = _
      rw [WideCpu.put64_get64, e.view_memory, hview, hsame]
      exact congrArg _ (hstore _ hbase)
    · exact WideCpu.flags_put64 _
    · show (t.put64 _ (t.get64 _)).get _ = _
      rw [WideCpu.put64_get64]
  cases target with
  | fixed place => exact hplain rfl
  | preDecrement i => exact hplain rfl
  | postIncrement i =>
    refine ⟨_, rfl, ?_, WideCpu.flags_put64 _, ?_⟩
    · show e.view { (t.put64 (an i) (t.get64 (an i) + BitVec.ofInt 64 (size.step i : ℤ))) with
        memory := _ } = _
      rw [e.view_memory, e.view_put_an, access_add, hview]
      refine congrArg₂ Machine.setMemory ?_ (hstore _ haddress)
      exact congrArg ((e.view s).setA i) (congrArg (· + _) haddress)
    · exact (WideCpu.get_put64_ite an_ne_zero _).trans (if_neg reg_ne_an)

/-- The place is read, `compute` changes some of its registers, and the result is written back.
What holds of the flags and of the register `y` then does not depend on the way. -/
theorem run_modify (target : Target (e.own.reg x) e.cc) (hy : y ≠ x) (hx : x ∉ ys)
    {compute : List WideOp} {result : BitVec size.bits} {P : Nzcv → BitVec 32 → Prop}
    (hcompute : ∀ t : WideCpu, t.get (e.own.reg y) = (target.value size s).setWidth 32 →
      (∀ i, t.get (dn i) = s.get (dn i)) →
      ∃ t', runForward WideOp.effect 0 compute t = (t', 0) ∧ Changes (ys.map e.own.reg) t t' ∧
        (t'.get (e.own.reg y)).setWidth size.bits = result ∧ P t'.flags (t'.get (e.own.reg y))) :
    ∃ s', runForward WideOp.effect 0 (modify size y target compute) s = (s', 0) ∧
      e.view s' = (target.after size s).setMemory
        (Lib.store s.memory (target.address size s) size.bytes result.toNat) ∧
      P s'.flags (s'.get (e.own.reg y)) := by
  obtain ⟨t, hfetch, hvalue, haddress, hview⟩ := run_fetch size target hy s
  have hdata : ∀ i, t.get (dn i) = s.get (dn i) := fun i ↦ by
    have hd : (e.view t).d i = (e.view s).d i := by
      rw [hview]
      cases target <;> rfl
    exact hd
  obtain ⟨t', hrun, hchanges, hresult, hP⟩ := hcompute t hvalue hdata
  have hlocate : target.locate.2 ∉ ys.map e.own.reg := by
    intro hmem
    obtain ⟨z, hz, hreg⟩ := List.mem_map.mp hmem
    cases target with
    | fixed place =>
      cases place with
      | indirect i => exact reg_ne_an hreg
      | computed _ _ _ => exact hx (reg_inj.mp hreg ▸ hz)
    | postIncrement i => exact reg_ne_an hreg
    | preDecrement i => exact reg_ne_an hreg
  obtain ⟨s', hwrite, hview', hflags, hget⟩ := run_writeBack target hresult
    ((hchanges.get hlocate).trans haddress) (hchanges.view.trans hview)
  refine ⟨s', ?_, hview', ?_⟩
  · rw [modify, List.append_assoc, runForward_piece hfetch, runForward_piece hrun,
      runForward_step hwrite]
    rfl
  · rw [hflags, hget]
    exact hP

end Target

end Emu68.Alu
