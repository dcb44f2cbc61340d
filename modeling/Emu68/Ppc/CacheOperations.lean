import Emu68.Lib.BitFields
import Mathlib.Data.BitVec

/-!
The data cache instructions of the PowerPC (`PPC_SystemInstructions.cpp`: `dcbst`, `dcbtst`, `dcbt`,
`dcbf`, `dcbz`, `dcba` and `dcbi`). The register cache is a parameter: `gpr` gives the host registers
that `mapGPRForRead` returns.
-/

set_option autoImplicit false
set_option relaxedAutoImplicit false

namespace Emu68.Ppc.Cache

/-! ### The host -/

inductive CacheOp where
  | dcCvac
  | dcCivac
  | dcIvac
  | dcZva
  | prfmPst
  | prfmPld
deriving DecidableEq

/-- The instructions of the emitted code. `supervisorCheck` leaves it for the program exception in
problem state. -/
inductive Insn where
  | supervisorCheck
  | dsbSy
  | addReg (rd rn rm : ℕ)
  | cache (op : CacheOp) (rn : ℕ)
deriving DecidableEq

structure Host where
  regs : ℕ → BitVec 32
  problemState : Bool

/-- A register of an address; 31 is zero. -/
def Host.get (s : Host) (r : ℕ) : BitVec 32 := if r = 31 then 0 else s.regs r

/-- The cache operations that are applied, with their addresses. -/
def run : List Insn → Host → List (CacheOp × BitVec 32)
  | [], _ => []
  | .supervisorCheck :: code, s => if s.problemState then [] else run code s
  | .dsbSy :: code, s => run code s
  | .addReg rd rn rm :: code, s =>
    run code { s with regs := Function.update s.regs rd (s.get rn + s.get rm) }
  | .cache op rn :: code, s => (op, s.get rn) :: run code s

/-! ### The emitters -/

def field (opcode : BitVec 32) (lsb : ℕ) : BitVec 32 := (opcode >>> lsb) &&& 31

/-- `GPR base` and the code that puts the sum there. -/
def baseFor (gpr : BitVec 32 → ℕ) (base : ℕ) (opcode : BitVec 32) : ℕ × List Insn :=
  let ra := field opcode 21
  let rb := field opcode 16
  if ra = 0 then (gpr rb, []) else (base, [.addReg base (gpr ra) (gpr rb)])

/-- The instructions that test no privilege, from the code around their cache operation. -/
def dataCache (around : List Insn) (op : CacheOp) (gpr : BitVec 32 → ℕ) (base : ℕ)
    (opcode : BitVec 32) : Option (List Insn) :=
  if opcode &&& 0x03e00001 ≠ 0 then none
  else
    let (base, code) := baseFor gpr base opcode
    some (code ++ around ++ [.cache op base] ++ around)

def dcbtst := dataCache [] .prfmPst

def dcbt := dataCache [] .prfmPld

def dcbf := dataCache [.dsbSy] .dcCivac

def dcbz := dataCache [.dsbSy] .dcZva

def dcba := dataCache [] .prfmPst

/-- The register of the sum hides the outer `base`, which stays invalid; its number is encoded as
31. -/
def dcbst (gpr : BitVec 32 → ℕ) (base : ℕ) (opcode : BitVec 32) : Option (List Insn) :=
  if opcode &&& 0x03e00001 ≠ 0 then none
  else
    let ra := field opcode 21
    let rb := field opcode 16
    let (outer, code) := if ra = 0 then (gpr rb, [])
      else (0xff % 32, [.addReg base (gpr ra) (gpr rb)])
    some (code ++ [.dsbSy, .cache .dcCvac outer, .dsbSy])

/-- The check is left out if the unit has made it before. -/
def dcbi (checked : Bool) (gpr : BitVec 32 → ℕ) (base : ℕ) (opcode : BitVec 32) :
    Option (List Insn) :=
  if opcode &&& 0x03e00001 ≠ 0 then none
  else
    let (base, code) := baseFor gpr base opcode
    some ((if checked then [] else [.supervisorCheck]) ++ code ++ [.cache .dcIvac base])

/-! ### The architecture -/

inductive Kind where
  | dcbst
  | dcbf
  | dcbz
  | dcbi
  | dcbt
  | dcbtst
  | dcba
deriving DecidableEq

def Kind.xo : Kind → ℕ
  | .dcbst => 54
  | .dcbf => 86
  | .dcbz => 1014
  | .dcbi => 470
  | .dcbt => 278
  | .dcbtst => 246
  | .dcba => 758

def Kind.op : Kind → CacheOp
  | .dcbst => .dcCvac
  | .dcbf => .dcCivac
  | .dcbz => .dcZva
  | .dcbi => .dcIvac
  | .dcbt => .prfmPld
  | .dcbtst => .prfmPst
  | .dcba => .prfmPst

def Kind.emit (checked : Bool) : Kind → (BitVec 32 → ℕ) → ℕ → BitVec 32 → Option (List Insn)
  | .dcbst => Cache.dcbst
  | .dcbf => Cache.dcbf
  | .dcbz => Cache.dcbz
  | .dcbi => Cache.dcbi checked
  | .dcbt => Cache.dcbt
  | .dcbtst => Cache.dcbtst
  | .dcba => Cache.dcba

/-- The word with rA in bits 11 to 15 and rB in bits 16 to 20. -/
def Kind.word (k : Kind) (rA rB : BitVec 5) : BitVec 32 :=
  BitVec.ofNat 32 (31 * 2 ^ 26 + rA.toNat * 2 ^ 16 + rB.toNat * 2 ^ 11 + k.xo * 2)

/-- (rA|0) + rB. -/
def effectiveAddress (guest : BitVec 5 → BitVec 32) (rA rB : BitVec 5) : BitVec 32 :=
  (if rA = 0 then 0 else guest rA) + guest rB

/-- A block of 32 bytes is zeroed by `dc zva`. -/
def zeroBlocks (memory : ℕ → BitVec 8) (ops : List (CacheOp × BitVec 32)) : ℕ → BitVec 8 := fun x ↦
  if ∃ a, (CacheOp.dcZva, a) ∈ ops ∧ a.toNat / 32 = x / 32 then 0 else memory x

/-- The word is accepted, and its code applies the operation to the effective address. `dcbz` zeroes
the block there. A privileged instruction does nothing in problem state. -/
def Right (k : Kind) (checked : Bool) (gpr : BitVec 32 → ℕ) (base : ℕ) (s : Host)
    (guest : BitVec 5 → BitVec 32) (rA rB : BitVec 5) : Prop :=
  ∃ code, k.emit checked gpr base (k.word rA rB) = some code ∧
    run code s = (if k = .dcbi ∧ checked = false ∧ s.problemState = true then []
      else [(k.op, effectiveAddress guest rA rB)]) ∧
    (k = .dcbz → ∀ (memory : ℕ → BitVec 8) (x : ℕ), zeroBlocks memory (run code s) x =
      if (effectiveAddress guest rA rB).toNat / 32 = x / 32 then 0 else memory x)

variable {gpr : BitVec 32 → ℕ} {base : ℕ} {checked : Bool} {s : Host} {guest : BitVec 5 → BitVec 32}

/-! ### The fields that the code takes -/

theorem Kind.toNat_word (k : Kind) (rA rB : BitVec 5) :
    (k.word rA rB).toNat = 31 * 2 ^ 26 + rA.toNat * 2 ^ 16 + rB.toNat * 2 ^ 11 + k.xo * 2 := by
  have hA := rA.isLt
  have hB := rB.isLt
  have hxo : k.xo < 1024 := by cases k <;> decide
  rw [Kind.word, BitVec.toNat_ofNat, Nat.mod_eq_of_lt (by omega)]

theorem toNat_field (opcode : BitVec 32) (lsb : ℕ) :
    (field opcode lsb).toNat = opcode.toNat / 2 ^ lsb % 2 ^ 5 := by
  rw [field, Lib.toNat_and_field 0 5 (by decide), Lib.field, BitVec.toNat_ushiftRight,
    Nat.shiftRight_eq_div_pow, pow_zero, Nat.div_one, Nat.mul_one]

/-- What the code takes for rA is zero in all defined words. -/
theorem field_21 (k : Kind) (rA rB : BitVec 5) : field (k.word rA rB) 21 = 0 := by
  have hA := rA.isLt
  have hB := rB.isLt
  have hxo : k.xo < 1024 := by cases k <;> decide
  refine BitVec.eq_of_toNat_eq ?_
  rw [toNat_field, k.toNat_word]
  show _ = 0
  omega

/-- What it takes for rB is rA. -/
theorem field_16 (k : Kind) (rA rB : BitVec 5) : field (k.word rA rB) 16 = rA.setWidth 32 := by
  have hA := rA.isLt
  have hB := rB.isLt
  have hxo : k.xo < 1024 := by cases k <;> decide
  refine BitVec.eq_of_toNat_eq ?_
  rw [toNat_field, k.toNat_word, BitVec.toNat_setWidth]
  omega

theorem accepted (k : Kind) (rA rB : BitVec 5) : ¬ k.word rA rB &&& 0x03e00001 ≠ 0 := by
  have hA := rA.isLt
  have hB := rB.isLt
  have hxo : k.xo < 1024 := by cases k <;> decide
  rw [not_not]
  refine BitVec.eq_of_toNat_eq ?_
  rw [Lib.toNat_and_fields 21 5 0 1 (by decide) (by decide), k.toNat_word]
  show _ = 0
  unfold Lib.field
  omega

/-! ### The address -/

variable (gpr base checked) in
/-- The code applies its operation to the register of rA. -/
theorem run_emitted (k : Kind) (rA rB : BitVec 5) (s : Host) :
    ∃ code, k.emit checked gpr base (k.word rA rB) = some code ∧
      run code s = if k = .dcbi ∧ checked = false ∧ s.problemState = true then []
        else [(k.op, s.get (gpr (rA.setWidth 32)))] := by
  have hbase : baseFor gpr base (k.word rA rB) = (gpr (rA.setWidth 32), []) := by
    unfold baseFor
    rw [field_21, field_16]
    exact if_pos rfl
  have hfamily : ∀ (around : List Insn) (op : CacheOp), dataCache around op gpr base (k.word rA rB) =
      some (around ++ [.cache op (gpr (rA.setWidth 32))] ++ around) := by
    intro around op
    unfold dataCache
    rw [if_neg (accepted k rA rB), hbase]
    rfl
  cases k with
  | dcbf => exact ⟨_, hfamily _ _, rfl⟩
  | dcbz => exact ⟨_, hfamily _ _, rfl⟩
  | dcbt => exact ⟨_, hfamily _ _, rfl⟩
  | dcbtst => exact ⟨_, hfamily _ _, rfl⟩
  | dcba => exact ⟨_, hfamily _ _, rfl⟩
  | dcbst =>
    refine ⟨[.dsbSy, .cache .dcCvac (gpr (rA.setWidth 32)), .dsbSy], ?_, rfl⟩
    show dcbst gpr base _ = _
    unfold dcbst
    rw [if_neg (accepted .dcbst rA rB), field_21, field_16]
    rfl
  | dcbi =>
    refine ⟨(if checked then [] else [.supervisorCheck]) ++ [.cache .dcIvac (gpr (rA.setWidth 32))],
      ?_, ?_⟩
    · show dcbi checked gpr base _ = _
      unfold dcbi
      rw [if_neg (accepted .dcbi rA rB), hbase]
      simp only [List.append_nil]
    · cases checked with
      | true => rfl
      | false =>
        show (if s.problemState then [] else _) = _
        cases s.problemState <;> rfl

/-- The operation is right when the register of rA happens to hold the effective address. -/
theorem cacheOperation_right_iff (k : Kind) (rA rB : BitVec 5)
    (hregs : ∀ i : BitVec 5, s.get (gpr (i.setWidth 32)) = guest i) :
    Right k checked gpr base s guest rA rB ↔
      (k = .dcbi ∧ checked = false ∧ s.problemState = true) ∨
        if rA = 0 then guest 0 = guest rB else guest rB = 0 := by
  obtain ⟨code, hcode, hrun⟩ := run_emitted gpr base checked k rA rB s
  have haddress : (guest rA = effectiveAddress guest rA rB) ↔
      if rA = 0 then guest 0 = guest rB else guest rB = 0 := by
    unfold effectiveAddress
    split_ifs with hzero
    · rw [hzero, zero_add]
    · exact ⟨fun heq ↦ left_eq_add.mp heq, fun heq ↦ by rw [heq, add_zero]⟩
  rw [hregs] at hrun
  rw [← haddress]
  constructor
  · rintro ⟨code', hcode', hright, -⟩
    obtain rfl := Option.some.inj (hcode.symm.trans hcode')
    rw [hrun] at hright
    split_ifs at hright with hprivileged
    · exact .inl hprivileged
    · exact .inr (Prod.mk.inj (List.cons.inj hright).1).2
  · intro h
    refine ⟨code, hcode, ?_, fun hkind memory x ↦ ?_⟩
    · rw [hrun]
      split_ifs with hprivileged
      · rfl
      · rw [h.resolve_left hprivileged]
    · have hnot : ¬ (k = .dcbi ∧ checked = false ∧ s.problemState = true) := fun hi ↦ by
        rw [hkind] at hi
        cases hi.1
      rw [hrun, if_neg hnot, h.resolve_left hnot, hkind]
      unfold zeroBlocks
      simp [Kind.op]

/-- Registers r1 and r2 that hold 0x100 and 0x20. -/
def sampleHost : Host := ⟨fun r ↦ if r = 1 then 0x100 else if r = 2 then 0x20 else 0, false⟩

/-- `dcbz r1, r2` zeroes the block at r1. -/
theorem dcbz_zeroes_other_block : ¬ Right .dcbz false BitVec.toNat 40 sampleHost
    (fun i ↦ sampleHost.get i.toNat) 1 2 := by
  rintro ⟨code, hcode, hrun, -⟩
  have hemit : Kind.dcbz.emit false BitVec.toNat 40 (Kind.dcbz.word 1 2) =
      some [.dsbSy, .cache .dcZva 1, .dsbSy] := by decide
  obtain rfl := Option.some.inj (hemit.symm.trans hcode)
  exact absurd hrun (by decide)

/-- `dcbz r1, r3` is right, since r3 is zero. -/
theorem dcbz_right_at_zero : Right .dcbz false BitVec.toNat 40 sampleHost
    (fun i ↦ sampleHost.get i.toNat) 1 3 :=
  (cacheOperation_right_iff .dcbz 1 3 fun i ↦ by
    rw [BitVec.toNat_setWidth_of_le (by decide)]).mpr (.inr (by decide))

end Emu68.Ppc.Cache
