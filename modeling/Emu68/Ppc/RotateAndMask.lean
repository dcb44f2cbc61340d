import Emu68.Ppc.HostCode

/-!
The rotate-and-mask instructions of the PowerPC (`PPC_Arithmetic.cpp`: `rlwimix`, `rlwinmx` and
`rlwnmx`) with `setCRnLogic`, where `PPC_SO_PROPAGATION` is 0. The host registers that the register
cache gives are parameters; a register that is mapped for writing need not hold the guest's value
before.
-/

set_option autoImplicit false
set_option relaxedAutoImplicit false

namespace Emu68.Ppc.Rotate

open A64 hiding bfi step
open HostCode

/-! ### The emitters -/

structure Registers where
  rs : Reg
  rb : Reg
  ra : Reg
  tmp : Reg
  cr : Reg
  crTmp : Reg
  zeroCase : Reg
  minusCase : Reg

structure Fields where
  sh : ℕ
  mb : ℕ
  me : ℕ
  updateCr : Bool

/-- The fields of an instruction word. -/
def fieldsOf (opcode : BitVec 32) : Fields :=
  ⟨opcode.toNat / 2 ^ 11 % 2 ^ 5, opcode.toNat / 2 ^ 6 % 2 ^ 5, opcode.toNat / 2 ^ 1 % 2 ^ 5,
    opcode.getLsbD 0⟩

variable (r : Registers) (f : Fields)

/-- `setCRnLogic` for field 0. -/
def setCRnLogic : List Insn :=
  [.op (.movImmedU16 r.zeroCase 2 0), .op (.movImmedU16 r.minusCase 8 0),
    .op (.movImmedU16 r.crTmp 4 0), .op (.csel r.crTmp r.zeroCase r.crTmp ccEQ),
    .op (.csel r.crTmp r.minusCase r.crTmp ccMI), HostCode.bfi r.cr r.crTmp 28 4]

/-- `((me - mb) & 31) != 31` fails. -/
def Fields.full : Bool := (f.me + 32 - f.mb) % 32 = 31

/-- Width and rotation of the emitted mask. -/
def Fields.width : BitVec 8 :=
  if f.mb ≤ f.me then BitVec.ofNat 8 (1 + f.me - f.mb) else BitVec.ofNat 8 (f.mb - f.me - 1)

def Fields.rotation : BitVec 8 :=
  if f.mb ≤ f.me then BitVec.ofNat 8 ((f.me + 1) % 32) else BitVec.ofNat 8 (f.me + 1)

def updateCr : List Insn := if f.updateCr then setCRnLogic r else []

def rlwimix : List Insn :=
  (if f.sh ≠ 0 then [Insn.op (ror r.tmp r.rs ((32 - f.sh) % 32))] else []) ++
    (if f.full = false then
      [Insn.op (bicImmed r.ra r.ra f.width f.rotation),
        .op (.andImmed r.tmp r.tmp f.width f.rotation), .op (.orrReg r.ra r.ra r.tmp .LSL 0)]
    else if f.updateCr then
      (if f.sh = 0 then [Insn.addsImmed r.ra r.rs 0] else [Insn.addsImmed r.ra r.tmp 0])
    else []) ++
    updateCr r f

/-- The mask of `rlwinmx` and `rlwnmx`. -/
def andMask (rd rn : Reg) : Insn :=
  if f.updateCr then .op (.andsImmed rd rn f.width f.rotation)
  else .op (.andImmed rd rn f.width f.rotation)

def rlwinmx : List Insn :=
  (if f.mb = 0 ∧ f.me = 31 - f.sh then [HostCode.lsl r.ra r.rs f.sh]
  else if f.me = 31 ∧ f.sh = 32 - f.mb then [HostCode.lsr r.ra r.rs (32 - f.sh)]
  else
    (if f.sh ≠ 0 then [.op (ror r.ra r.rs ((32 - f.sh) % 32))] else []) ++
      (if f.full = false then [andMask f r.ra (if f.sh ≠ 0 then r.ra else r.rs)]
      else if f.updateCr then
        (if f.sh = 0 then [.addsImmed r.ra r.rs 0] else [.op (tstImmed r.ra 32 0)])
      else [])) ++
    updateCr r f

def rlwnmx : List Insn :=
  [.negReg r.ra r.rb .LSL 0, .rorv r.ra r.rs r.ra] ++
    (if f.full = false then [andMask f r.ra r.ra]
    else if f.updateCr then [.op (.subsImmed 31 r.ra 0)]
    else []) ++
    updateCr r f

inductive Kind where
  | rlwimi
  | rlwinm
  | rlwnm
deriving DecidableEq

def Kind.code : Kind → List Insn
  | .rlwimi => rlwimix r f
  | .rlwinm => rlwinmx r f
  | .rlwnm => rlwnmx r f

/-- A logical immediate of all ones has no encoding. -/
def definedImmed (width : BitVec 8) : Bool :=
  let imms := ((width - 1) &&& 0x3f).toNat
  imms % elementSize imms ≠ elementSize imms - 1

def Defined : Insn → Bool
  | .op (.andImmed _ _ width _) => definedImmed width
  | .op (.andsImmed _ _ width _) => definedImmed width
  | _ => true

/-! ### The architecture -/

/-- MASK(MB, ME): bits MB to ME, around the end if ME is before MB. -/
def Fields.mask : BitVec 32 :=
  (BitVec.ofBoolListLE ((List.range 32).map fun i ↦
    if f.mb ≤ f.me then decide (f.mb ≤ 31 - i ∧ 31 - i ≤ f.me)
    else decide (f.mb ≤ 31 - i ∨ 31 - i ≤ f.me))).setWidth 32

/-- The rotated source. -/
def Kind.rotated (k : Kind) (s : Cpu) : BitVec 32 :=
  match k with
  | .rlwnm => (s.get r.rs).rotateLeft ((s.get r.rb).toNat % 32)
  | _ => (s.get r.rs).rotateLeft f.sh

/-- rA after the instruction; `old` is what the guest had in it. -/
def Kind.result (k : Kind) (s : Cpu) (old : BitVec 32) : BitVec 32 :=
  match k with
  | .rlwimi => (old &&& ~~~f.mask) ||| (k.rotated r f s &&& f.mask)
  | _ => k.rotated r f s &&& f.mask

/-- CR0 reflects the result: less, greater or equal to zero. The other fields are as before. -/
structure Reflects (cr old result : BitVec 32) : Prop where
  lt : cr.getMsbD 0 = result.msb
  gt : cr.getMsbD 1 = (!result.msb && result != 0)
  eq : cr.getMsbD 2 = (result == 0)
  rest : ∀ i < 32, 4 ≤ i → cr.getMsbD i = old.getMsbD i

structure Right (k : Kind) (s : Cpu) (old : BitVec 32) : Prop where
  defined : ∀ i ∈ k.code r f, Defined i = true
  value : (run (k.code r f) s).get r.ra = k.result r f s old
  cr : if f.updateCr then
      Reflects ((run (k.code r f) s).get r.cr) (s.get r.cr) (k.result r f s old)
    else (run (k.code r f) s).get r.cr = s.get r.cr

/-! ### When the code is right -/

/-- The mask that is emitted. Around the end it has the width of the gap. -/
def Fields.emitted : BitVec 32 := if f.full then f.mask else bitmask f.width f.rotation

/-- The flags from before, where no instruction sets them. -/
def FlagsMatch (flags : Nzcv) (result : BitVec 32) : Prop :=
  flags.n = result.msb ∧ (result.msb = false → flags.z = (result == 0))

/-- The negated count, rotated by itself: `rlwnmx` overwrites the source where rA is rS. -/
def countRotated (s : Cpu) : BitVec 32 :=
  (0 - s.get r.rb).rotateRight ((0 - s.get r.rb).toNat % 32)

/-- What `rlwimix` merges. For a shift of 0 nothing puts the source into the temporary register. -/
def merged (s : Cpu) : BitVec 32 :=
  if f.sh = 0 then s.get r.tmp else Kind.rlwimi.rotated r f s

/-- Outside of both masks the host has rA, in both `merged` is the source, and where the masks differ
the values do not. -/
structure MergeFits (s : Cpu) (old : BitVec 32) : Prop where
  outside : (s.get r.ra ^^^ old) &&& ~~~(f.emitted ||| f.mask) = 0
  inside : (merged r f s ^^^ Kind.rlwimi.rotated r f s) &&& (f.emitted &&& f.mask) = 0
  emittedOnly : (merged r f s ^^^ old) &&& (f.emitted &&& ~~~f.mask) = 0
  maskOnly : (s.get r.ra ^^^ Kind.rlwimi.rotated r f s) &&& (f.mask &&& ~~~f.emitted) = 0

def Kind.Works (k : Kind) (s : Cpu) (old : BitVec 32) : Prop :=
  let rotated := k.rotated r f s
  match k with
  | .rlwimi =>
    if f.full then f.updateCr = false → s.get r.ra = rotated
    else MergeFits r f s old ∧ (f.updateCr = true → FlagsMatch s.flags (k.result r f s old))
  | .rlwinm =>
    if f.mb = 0 ∧ f.me = 31 - f.sh ∨ f.me = 31 ∧ f.sh = 32 - f.mb then
      f.updateCr = true → FlagsMatch s.flags (k.result r f s old)
    else if f.full then (if f.updateCr then f.sh = 0 else f.sh ≠ 0 ∨ s.get r.ra = rotated)
    else rotated &&& (f.emitted ^^^ f.mask) = 0
  | .rlwnm =>
    if r.ra = r.rs then countRotated r s &&& f.emitted = rotated &&& f.mask
    else rotated &&& (f.emitted ^^^ f.mask) = 0

/-- The host registers that are different. rA and rS may be one. -/
structure Registers.Apart : Prop where
  nodup : [r.ra, r.tmp, r.cr, r.crTmp, r.zeroCase, r.minusCase, 31].Nodup
  source : r.rs ≠ r.tmp

structure Fields.Small : Prop where
  sh : f.sh < 32
  mb : f.mb < 32
  me : f.me < 32

variable {r} {f} {s : Cpu} {k : Kind} {old : BitVec 32}

theorem fieldsOf_small (opcode : BitVec 32) : (fieldsOf opcode).Small :=
  ⟨Nat.mod_lt _ (by decide), Nat.mod_lt _ (by decide), Nat.mod_lt _ (by decide)⟩

/-! ### Masks -/

theorem getLsbD_mask {i : ℕ} (hi : i < 32) :
    f.mask.getLsbD i =
      if f.mb ≤ f.me then decide (f.mb ≤ 31 - i ∧ 31 - i ≤ f.me)
      else decide (f.mb ≤ 31 - i ∨ 31 - i ≤ f.me) := by
  unfold Fields.mask
  rw [BitVec.getLsbD_setWidth, decide_eq_true hi, Bool.true_and, BitVec.getLsbD_ofBoolListLE,
    List.getD_eq_getElem _ _ (by simpa using hi), List.getElem_map, List.getElem_range]

theorem imms_eq : ∀ w < 32, 0 < w → ((BitVec.ofNat 8 w - 1) &&& 0x3f).toNat = w - 1 := by
  decide

theorem definedImmed_ofNat : ∀ w < 32, 0 < w → definedImmed (BitVec.ofNat 8 w) = true := by
  decide

/-- The bits of a logical immediate of one run in 32 bits. -/
theorem getLsbD_bitmask_ofNat {w i : ℕ} (hw : w < 32) (hpos : 0 < w) (rotation : BitVec 8)
    (hi : i < 32) :
    (bitmask (BitVec.ofNat 8 w) rotation).getLsbD i =
      decide ((i + rotation.toNat % 64) % 32 < w) := by
  have hrotation : (rotation &&& 0x3f).toNat = rotation.toNat % 64 := by
    rw [BitVec.toNat_and]
    exact Nat.and_two_pow_sub_one_eq_mod _ 6
  rw [getLsbD_bitmask _ _ hi, imms_eq w hw hpos, elementSize, if_pos (by omega), hrotation,
    Nat.mod_eq_of_lt (show w - 1 < 32 by omega)]
  exact decide_eq_decide.mpr (by omega)

/-- The width and the rotation as numbers. -/
theorem Fields.Small.numbers (hf : f.Small) (hfull : f.full = false) :
    ∃ w < 32, 0 < w ∧ f.width = BitVec.ofNat 8 w ∧ ∃ n < 32, f.rotation = BitVec.ofNat 8 n ∧
      n = (f.me + 1) % 32 ∧ (f.mb ≤ f.me → w = 1 + f.me - f.mb) := by
  have hmb := hf.mb
  have hme := hf.me
  have hgap : ¬ (f.me + 32 - f.mb) % 32 = 31 := of_decide_eq_false hfull
  unfold Fields.width Fields.rotation
  split_ifs with hle
  · exact ⟨1 + f.me - f.mb, by omega, by omega, rfl, (f.me + 1) % 32, by omega, rfl, rfl, fun _ ↦ rfl⟩
  · exact ⟨f.mb - f.me - 1, by omega, by omega, rfl, f.me + 1, by omega, rfl, by omega,
      fun h ↦ absurd h hle⟩

/-- The widths that are encoded are defined, and `bic_immed` keeps the complement. -/
theorem Fields.Small.encoded (hf : f.Small) (hfull : f.full = false) :
    definedImmed f.width = true ∧ definedImmed (32 - f.width) = true ∧
      bitmask (32 - f.width) (f.rotation - f.width) = ~~~f.emitted := by
  obtain ⟨w, hw, hpos, hwidth, n, hn, hrotation, -, -⟩ := hf.numbers hfull
  have hrest : 32 - BitVec.ofNat 8 w = BitVec.ofNat 8 (32 - w) := by
    refine BitVec.eq_of_toNat_eq ?_
    rw [BitVec.toNat_sub, BitVec.toNat_ofNat, BitVec.toNat_ofNat]
    show (2 ^ 8 - w % 2 ^ 8 + 32) % 2 ^ 8 = _
    omega
  rw [Fields.emitted, if_neg (by simp [hfull]), hwidth, hrotation, hrest]
  refine ⟨definedImmed_ofNat w hw hpos, definedImmed_ofNat _ (by omega) (by omega), ?_⟩
  refine BitVec.eq_of_getLsbD_eq fun i hi ↦ ?_
  rw [BitVec.getLsbD_not, decide_eq_true hi, Bool.true_and, getLsbD_bitmask_ofNat hw hpos _ hi,
    getLsbD_bitmask_ofNat (by omega) (by omega) _ hi, ← decide_not, BitVec.toNat_sub,
    BitVec.toNat_ofNat, BitVec.toNat_ofNat]
  exact decide_eq_decide.mpr (by omega)

/-- The emitted mask is the right one where it does not go around the end. -/
theorem emitted_eq_mask (hf : f.Small) (hle : f.mb ≤ f.me) : f.emitted = f.mask := by
  have hme := hf.me
  unfold Fields.emitted
  split_ifs with hfull
  · rfl
  · obtain ⟨w, hw, hpos, hwidth, n, hn, hrotation, hnumber, hwide⟩ :=
      hf.numbers (Bool.eq_false_of_not_eq_true hfull)
    have hw' := hwide hle
    refine BitVec.eq_of_getLsbD_eq fun i hi ↦ ?_
    rw [hwidth, hrotation, getLsbD_bitmask_ofNat hw hpos _ hi, getLsbD_mask hi, if_pos hle,
      BitVec.toNat_ofNat]
    exact decide_eq_decide.mpr (by omega)

theorem mask_full (hf : f.Small) (hfull : f.full = true) : f.mask = BitVec.allOnes 32 := by
  have hmb := hf.mb
  have hme := hf.me
  have hgap : (f.me + 32 - f.mb) % 32 = 31 := of_decide_eq_true hfull
  refine BitVec.eq_of_getLsbD_eq fun i hi ↦ ?_
  rw [getLsbD_mask hi, BitVec.getLsbD_allOnes, decide_eq_true hi]
  split_ifs with hle
  · exact decide_eq_true (by omega)
  · exact decide_eq_true (by omega)

theorem and_full (hf : f.Small) (hfull : f.full = true) (x : BitVec 32) :
    x &&& f.mask = x ∧ x &&& f.emitted = x := by
  have hones : x &&& f.mask = x := by rw [mask_full hf hfull, BitVec.and_allOnes]
  refine ⟨hones, ?_⟩
  rw [Fields.emitted, if_pos hfull, hones]

theorem eq_iff_bits (u v : BitVec 32) : u = v ↔ ∀ i < 32, u.getLsbD i = v.getLsbD i :=
  ⟨fun h _ _ ↦ h ▸ rfl, BitVec.eq_of_getLsbD_eq⟩

/-- Two masks select the same of a value that has no bit where they differ. -/
theorem and_eq_and_iff (x e m : BitVec 32) : x &&& e = x &&& m ↔ x &&& (e ^^^ m) = 0 := by
  rw [eq_iff_bits, eq_iff_bits]
  refine forall₂_congr fun i _ ↦ ?_
  rw [BitVec.getLsbD_and, BitVec.getLsbD_and, BitVec.getLsbD_and, BitVec.getLsbD_xor]
  cases x.getLsbD i <;> cases e.getLsbD i <;> cases m.getLsbD i <;> simp

theorem merge_bit : ∀ a o x y e m : Bool, ((a && !e) || (x && e)) = ((o && !m) || (y && m)) ↔
    ((a ^^ o) && !(e || m)) = false ∧ ((x ^^ y) && (e && m)) = false ∧
      ((x ^^ o) && (e && !m)) = false ∧ ((a ^^ y) && (m && !e)) = false := by
  decide

/-- Two merges are equal where the values agree for each kind of bit. -/
theorem merge_eq_iff (a o x y e m : BitVec 32) :
    (a &&& ~~~e) ||| (x &&& e) = (o &&& ~~~m) ||| (y &&& m) ↔
      (a ^^^ o) &&& ~~~(e ||| m) = 0 ∧ (x ^^^ y) &&& (e &&& m) = 0 ∧
        (x ^^^ o) &&& (e &&& ~~~m) = 0 ∧ (a ^^^ y) &&& (m &&& ~~~e) = 0 := by
  have hbit := fun i ↦ merge_bit (a.getLsbD i) (o.getLsbD i) (x.getLsbD i) (y.getLsbD i) (e.getLsbD i)
    (m.getLsbD i)
  rw [eq_iff_bits, eq_iff_bits, eq_iff_bits, eq_iff_bits, eq_iff_bits, ← forall₂_and, ← forall₂_and,
    ← forall₂_and]
  refine forall₂_congr fun i hi ↦ ?_
  simpa [hi] using hbit i

/-! ### Rotations -/

theorem rotateLeft_of_ror (x : BitVec 32) {sh : ℕ} (hsh : sh < 32) (hne : sh ≠ 0) :
    x >>> ((32 - sh) % 32) ||| x <<< (32 - (32 - sh) % 32) = x.rotateLeft sh := by
  rw [BitVec.rotateLeft_def, Nat.mod_eq_of_lt hsh, Nat.mod_eq_of_lt (by omega), BitVec.or_comm,
    show 32 - (32 - sh) = sh by omega]

theorem rotateLeft_zero (x : BitVec 32) : x.rotateLeft 0 = x := by
  rw [BitVec.rotateLeft_def, Nat.zero_mod, BitVec.shiftLeft_zero, Nat.sub_zero,
    BitVec.ushiftRight_eq_zero (le_refl 32), BitVec.or_zero]

theorem rotateRight_neg (x c : BitVec 32) :
    x.rotateRight ((0 - c).toNat % 32) = x.rotateLeft (c.toNat % 32) := by
  have hc := c.isLt
  have hcount : (0 - c).toNat % 32 = (32 - c.toNat % 32) % 32 := by
    rw [BitVec.toNat_sub]
    show (2 ^ 32 - c.toNat + 0) % 2 ^ 32 % 32 = _
    omega
  rw [hcount, BitVec.rotateRight_def, Nat.mod_mod]
  by_cases hzero : c.toNat % 32 = 0
  · rw [hzero, rotateLeft_zero, show (32 - 0) % 32 = 0 from rfl, BitVec.ushiftRight_zero, Nat.sub_zero,
      BitVec.shiftLeft_eq_zero (le_refl 32), BitVec.or_zero]
  · rw [← rotateLeft_of_ror x (Nat.mod_lt _ (by decide)) hzero]

theorem getLsbD_rotateLeft_lt (x : BitVec 32) {sh i : ℕ} (hsh : sh < 32) (hi : i < 32) :
    (x.rotateLeft sh).getLsbD i =
      if i < sh then x.getLsbD (32 - sh + i) else x.getLsbD (i - sh) := by
  rw [BitVec.getLsbD_rotateLeft_of_le hsh, Bool.cond_decide, decide_eq_true hi, Bool.true_and]

/-- `lsl` is the rotation with the mask that ends at bit 31 - SH. -/
theorem shiftLeft_eq (hf : f.Small) (h : f.mb = 0 ∧ f.me = 31 - f.sh) (x : BitVec 32) :
    x <<< f.sh = x.rotateLeft f.sh &&& f.mask := by
  have hsh := hf.sh
  have hle : f.mb ≤ f.me := by omega
  refine BitVec.eq_of_getLsbD_eq fun i hi ↦ ?_
  rw [BitVec.getLsbD_and, getLsbD_mask hi, getLsbD_rotateLeft_lt x hsh hi, BitVec.getLsbD_shiftLeft,
    decide_eq_true hi, Bool.true_and, if_pos hle]
  by_cases hlt : i < f.sh
  · rw [decide_eq_true hlt, decide_eq_false (by omega), Bool.and_false]
    rfl
  · rw [decide_eq_false hlt, decide_eq_true (by omega), if_neg hlt, Bool.and_true]
    rfl

/-- `lsr` is the rotation with the mask that begins at bit 32 - SH. -/
theorem shiftRight_eq (hf : f.Small) (h : f.me = 31 ∧ f.sh = 32 - f.mb) (x : BitVec 32) :
    x >>> (32 - f.sh) = x.rotateLeft f.sh &&& f.mask := by
  have hsh := hf.sh
  have hmb := hf.mb
  have hle : f.mb ≤ f.me := by omega
  refine BitVec.eq_of_getLsbD_eq fun i hi ↦ ?_
  rw [BitVec.getLsbD_and, getLsbD_mask hi, getLsbD_rotateLeft_lt x hsh hi, BitVec.getLsbD_ushiftRight,
    if_pos hle]
  by_cases hlt : i < f.sh
  · rw [if_pos hlt, decide_eq_true (by omega), Bool.and_true]
  · rw [decide_eq_false (by omega), Bool.and_false, BitVec.getLsbD_of_ge _ _ (by omega)]

/-! ### CR0 -/

/-- The bits of a nibble that `setCRnLogic` chooses. -/
def nibble (flags : Nzcv) : BitVec 32 := if flags.n then 8 else if flags.z then 2 else 4

theorem flags_of_put (s : Cpu) (rd : Reg) (x : BitVec 32) : (s.put rd x).flags = s.flags := by
  unfold Cpu.put
  split_ifs <;> rfl

theorem get_setCRnLogic (hr : r.Apart) (s : Cpu) :
    (run (setCRnLogic r) s).get r.cr = insertBits (s.get r.cr) (nibble s.flags) 28 4 ∧
      (run (setCRnLogic r) s).get r.ra = s.get r.ra := by
  have h := hr.nodup
  simp only [List.nodup_cons, List.mem_cons, List.not_mem_nil, not_or, or_false] at h
  obtain ⟨⟨-, haCr, haTmp, haZero, haMinus, -⟩, -, ⟨hcTmp, hcZero, hcMinus, hc⟩,
    ⟨htZero, htMinus, ht⟩, ⟨hzMinus, hz⟩, hm, -⟩ := h
  have hbfi : ∀ t : Cpu, step t (HostCode.bfi r.cr r.crTmp 28 4) =
      t.put r.cr (insertBits (t.get r.cr) (t.get r.crTmp) 28 4) :=
    fun t ↦ step_bfi (by decide) (by decide)
  simp only [setCRnLogic, run, List.foldl_cons, List.foldl_nil, hbfi]
  simp only [step, A64.step, flags_of_put, Cpu.get_put _ hc, Cpu.get_put _ ht, Cpu.get_put _ hz,
    Cpu.get_put _ hm, Cpu.get_put_of_ne _ haCr, Cpu.get_put_of_ne _ haTmp, Cpu.get_put_of_ne _ haZero,
    Cpu.get_put_of_ne _ haMinus, Cpu.get_put_of_ne _ hcTmp, Cpu.get_put_of_ne _ hcZero,
    Cpu.get_put_of_ne _ hcMinus, Cpu.get_put_of_ne _ (Ne.symm htZero),
    Cpu.get_put_of_ne _ (Ne.symm htMinus), Cpu.get_put_of_ne _ hzMinus]
  exact ⟨rfl, trivial⟩

theorem reflects_iff (cr result : BitVec 32) (flags : Nzcv) :
    Reflects (insertBits cr (nibble flags) 28 4) cr result ↔ FlagsMatch flags result := by
  have hbit : ∀ i < 32, (insertBits cr (nibble flags) 28 4).getMsbD i =
      if i < 4 then (nibble flags).getLsbD (3 - i) else cr.getMsbD i := by
    intro i hi
    rw [BitVec.getMsbD, BitVec.getMsbD, decide_eq_true hi, Bool.true_and, Bool.true_and,
      getLsbD_insertBits _ _ (by omega)]
    by_cases hlt : i < 4
    · rw [if_pos (by omega), if_pos hlt, show 32 - 1 - i - 28 = 3 - i by omega]
    · rw [if_neg (by omega), if_neg hlt]
  have hzero : result.msb = true → (result == 0) = false := by
    intro hmsb
    rw [beq_eq_false_iff_ne]
    rintro rfl
    exact absurd hmsb (by decide)
  have hnibble : (nibble flags).getLsbD 3 = flags.n ∧
      (nibble flags).getLsbD 2 = (!flags.n && !flags.z) ∧
        (nibble flags).getLsbD 1 = (!flags.n && flags.z) := by
    unfold nibble
    cases flags.n <;> cases flags.z <;> decide
  constructor
  · intro h
    have hlt := h.lt
    have heq := h.eq
    rw [hbit 0 (by decide), if_pos (by decide)] at hlt
    rw [hbit 2 (by decide), if_pos (by decide)] at heq
    refine ⟨hnibble.1.symm.trans hlt, fun hmsb ↦ ?_⟩
    rw [← heq, hnibble.2.2, hnibble.1.symm.trans hlt, hmsb]
    rfl
  · rintro ⟨hn, hz⟩
    refine ⟨?_, ?_, ?_, fun i hi hge ↦ by rw [hbit i hi, if_neg (by omega)]⟩
    · rw [hbit 0 (by decide), if_pos (by decide), hnibble.1, hn]
    · rw [hbit 1 (by decide), if_pos (by decide), hnibble.2.1, hn]
      cases hmsb : result.msb with
      | true => rfl
      | false => rw [hz hmsb]; rfl
    · rw [hbit 2 (by decide), if_pos (by decide), hnibble.2.2, hn]
      cases hmsb : result.msb with
      | true => exact (hzero hmsb).symm
      | false => rw [hz hmsb]; rfl

theorem setCRnLogic_defined : ∀ i ∈ setCRnLogic r, Defined i = true := by
  simp only [setCRnLogic, List.forall_mem_cons]
  exact ⟨rfl, rfl, rfl, rfl, rfl, rfl, List.forall_mem_nil _⟩

/-- All code ends with the update of CR. -/
theorem right_iff_body {body : List Insn} (hr : r.Apart) (hcode : k.code r f = body ++ updateCr r f)
    (hcr : (run body s).get r.cr = s.get r.cr) :
    Right r f k s old ↔ (∀ i ∈ body, Defined i = true) ∧
      (run body s).get r.ra = k.result r f s old ∧
        (f.updateCr = true → FlagsMatch (run body s).flags (k.result r f s old)) := by
  have hgets := get_setCRnLogic hr (run body s)
  rw [← run_append, hcr] at hgets
  by_cases hrc : f.updateCr = true
  · have hcode' : k.code r f = body ++ setCRnLogic r := by rw [hcode, updateCr, if_pos hrc]
    constructor
    · rintro ⟨hdefined, hvalue, hreflects⟩
      rw [if_pos hrc, hcode', hgets.1, reflects_iff] at hreflects
      rw [hcode', hgets.2] at hvalue
      refine ⟨fun i hi ↦ hdefined i ?_, hvalue, fun _ ↦ hreflects⟩
      rw [hcode']
      exact List.mem_append_left _ hi
    · rintro ⟨hdefined, hvalue, hflags⟩
      refine ⟨?_, by rw [hcode', hgets.2, hvalue], ?_⟩
      · intro i hi
        rw [hcode'] at hi
        rcases List.mem_append.mp hi with hbody | hlogic
        · exact hdefined i hbody
        · exact setCRnLogic_defined i hlogic
      · rw [if_pos hrc, hcode', hgets.1, reflects_iff]
        exact hflags hrc
  · have hcode' : k.code r f = body := by rw [hcode, updateCr, if_neg hrc, List.append_nil]
    constructor
    · rintro ⟨hdefined, hvalue, -⟩
      rw [hcode'] at hdefined hvalue
      exact ⟨hdefined, hvalue, fun h ↦ absurd h hrc⟩
    · rintro ⟨hdefined, hvalue, -⟩
      refine ⟨by rw [hcode']; exact hdefined, by rw [hcode']; exact hvalue, ?_⟩
      rw [if_neg hrc, hcode', hcr]

/-- Code that sets the flags from its result. -/
theorem right_iff_value (body : List Insn) {value : BitVec 32} (hr : r.Apart)
    (hcode : k.code r f = body ++ updateCr r f) (hdefined : ∀ i ∈ body, Defined i = true)
    (hcr : (run body s).get r.cr = s.get r.cr) (hvalue : (run body s).get r.ra = value)
    (hflags : f.updateCr = true → FlagsMatch (run body s).flags value) :
    Right r f k s old ↔ value = k.result r f s old := by
  rw [right_iff_body hr hcode hcr, hvalue]
  constructor
  · exact fun h ↦ h.2.1
  · intro h
    exact ⟨hdefined, h, fun hrc ↦ h ▸ hflags hrc⟩

/-- Code that leaves the flags as they were. -/
theorem right_iff_stale (body : List Insn) {value : BitVec 32} (hr : r.Apart)
    (hcode : k.code r f = body ++ updateCr r f) (hdefined : ∀ i ∈ body, Defined i = true)
    (hcr : (run body s).get r.cr = s.get r.cr) (hvalue : (run body s).get r.ra = value)
    (hflags : (run body s).flags = s.flags) :
    Right r f k s old ↔ value = k.result r f s old ∧
      (f.updateCr = true → FlagsMatch s.flags (k.result r f s old)) := by
  rw [right_iff_body hr hcode hcr, hvalue, hflags]
  exact and_iff_right hdefined

/-! ### The emitters one by one -/

theorem Registers.Apart.written (hr : r.Apart) :
    r.ra ≠ 31 ∧ r.tmp ≠ 31 ∧ r.cr ≠ r.ra ∧ r.cr ≠ r.tmp ∧ r.ra ≠ r.tmp := by
  have h := hr.nodup
  simp only [List.nodup_cons, List.mem_cons, List.not_mem_nil, not_or, or_false] at h
  exact ⟨h.1.2.2.2.2.2, h.2.1.2.2.2.2, Ne.symm h.1.2.1, Ne.symm h.2.1.1, h.1.1⟩

/-- What an arithmetic instruction with 0 or a mask sets matches its result. -/
theorem flagsMatch_of_value (x : BitVec 32) :
    FlagsMatch (logicFlags x) x ∧ FlagsMatch (HostCode.addFlags x 0) x ∧
      FlagsMatch (subFlags x 0) x := by
  have hadd : x + 0 = x := BitVec.add_zero x
  have hsub : x - 0 = x := BitVec.sub_zero x
  refine ⟨⟨rfl, fun _ ↦ rfl⟩, ⟨?_, fun _ ↦ ?_⟩, ⟨?_, fun _ ↦ rfl⟩⟩
  · rw [HostCode.addFlags, hadd]
  · rw [HostCode.addFlags, hadd]
  · rw [subFlags, hsub]

/-- The masking instruction. -/
theorem step_andMask (hr : r.Apart) (hf : f.Small) (hfull : f.full = false) (t : Cpu) (rn : Reg) :
    Defined (andMask f r.ra rn) = true ∧ (step t (andMask f r.ra rn)).get r.cr = t.get r.cr ∧
      (step t (andMask f r.ra rn)).get r.ra = t.get rn &&& f.emitted ∧
        (f.updateCr = true →
          FlagsMatch (step t (andMask f r.ra rn)).flags (t.get rn &&& f.emitted)) := by
  obtain ⟨ha, -, hca, -, -⟩ := hr.written
  have hemitted : f.emitted = bitmask f.width f.rotation := if_neg (by simp [hfull])
  rw [hemitted]
  unfold andMask
  split_ifs with hrc
  · exact ⟨(hf.encoded hfull).1, Cpu.get_put_of_ne t hca _, Cpu.get_put t ha _,
      fun _ ↦ (flagsMatch_of_value _).1⟩
  · exact ⟨(hf.encoded hfull).1, Cpu.get_put_of_ne t hca _, Cpu.get_put t ha _,
      fun h ↦ absurd h hrc⟩

/-- Rotation by an immediate, or nothing for 0. -/
theorem run_ror (hf : f.Small) (rd : Reg) (s : Cpu) (hne : f.sh ≠ 0) :
    run [.op (ror rd r.rs ((32 - f.sh) % 32))] s = s.put rd ((s.get r.rs).rotateLeft f.sh) := by
  rw [← rotateLeft_of_ror _ hf.sh hne]
  rfl

theorem rlwnm_right_iff (hr : r.Apart) (hf : f.Small) :
    Right r f .rlwnm s old ↔ Kind.rlwnm.Works r f s old := by
  obtain ⟨ha, -, hca, -, -⟩ := hr.written
  set t := run [.negReg r.ra r.rb .LSL 0, .rorv r.ra r.rs r.ra] s with ht
  have htcr : t.get r.cr = s.get r.cr := by
    rw [ht]
    show ((s.put r.ra _).put r.ra _).get r.cr = _
    rw [Cpu.get_put_of_ne _ hca, Cpu.get_put_of_ne _ hca]
  set value := if r.ra = r.rs then countRotated r s else Kind.rlwnm.rotated r f s with hdef
  have htra : t.get r.ra = value := by
    have hzero : (s.get r.rb) <<< 0 = s.get r.rb := BitVec.shiftLeft_zero _
    let u := s.put r.ra (0 - s.get r.rb)
    have hcount : u.get r.ra = 0 - s.get r.rb := Cpu.get_put s ha _
    have hrun : t = u.put r.ra ((u.get r.rs).rotateRight ((u.get r.ra).toNat % 32)) := by
      rw [ht, run_cons, step, Shift.apply, hzero]
      rfl
    rw [hrun, Cpu.get_put _ ha, hcount, hdef]
    split_ifs with hsame
    · rw [← hsame, hcount, countRotated]
    · rw [rotateRight_neg, show u.get r.rs = s.get r.rs from Cpu.get_put_of_ne s (Ne.symm hsame) _]
      rfl
  have hworks : Kind.rlwnm.Works r f s old ↔
      value &&& f.emitted = Kind.rlwnm.rotated r f s &&& f.mask := by
    unfold Kind.Works
    dsimp only
    rw [hdef]
    split_ifs with hsame
    · exact Iff.rfl
    · exact (and_eq_and_iff _ _ _).symm
  rw [hworks]
  have hfront : ∀ i ∈ [Insn.negReg r.ra r.rb .LSL 0, .rorv r.ra r.rs r.ra], Defined i = true :=
    List.forall_mem_cons.mpr ⟨rfl, List.forall_mem_singleton.mpr rfl⟩
  cases hfull : f.full with
  | false =>
    obtain ⟨hdefined, hcr, hvalue, hflags⟩ := step_andMask hr hf hfull t r.ra
    rw [htra] at hvalue hflags
    refine right_iff_value
      ([.negReg r.ra r.rb .LSL 0, .rorv r.ra r.rs r.ra] ++ [andMask f r.ra r.ra]) hr
      (by rw [Kind.code, rlwnmx, if_pos hfull]) ?_ ?_ ?_ ?_
    · exact List.forall_mem_append.mpr ⟨hfront, List.forall_mem_singleton.mpr hdefined⟩
    · rw [run_append, ← ht]
      exact hcr.trans htcr
    · rw [run_append, ← ht]
      exact hvalue
    · rw [run_append, ← ht]
      exact hflags
  | true =>
    have hones := (and_full hf hfull value).2
    have hzr : ∀ q : Reg, q ≠ 31 → ∀ x, (t.put 31 x).get q = t.get q :=
      fun q hq x ↦ Cpu.get_put_of_ne t hq x
    rw [hones]
    by_cases hrc : f.updateCr = true
    · refine right_iff_value
        ([.negReg r.ra r.rb .LSL 0, .rorv r.ra r.rs r.ra] ++ [.op (.subsImmed 31 r.ra 0)]) hr
        (by rw [Kind.code, rlwnmx, if_neg (by simp [hfull]), if_pos hrc]) ?_ ?_ ?_ ?_
      · exact List.forall_mem_append.mpr ⟨hfront, List.forall_mem_singleton.mpr rfl⟩
      · rw [run_append, ← ht]
        exact htcr
      · rw [run_append, ← ht]
        exact htra
      · intro _
        rw [run_append, ← ht]
        show FlagsMatch (subFlags (t.get r.ra) 0) _
        rw [htra]
        exact (flagsMatch_of_value _).2.2
    · refine right_iff_value [.negReg r.ra r.rb .LSL 0, .rorv r.ra r.rs r.ra] hr
        (by rw [Kind.code, rlwnmx, if_neg (by simp [hfull]), if_neg hrc, List.append_nil])
        hfront (by rw [← ht]; exact htcr) (by rw [← ht]; exact htra) (fun h ↦ absurd h hrc)

/-- What the shifts of `rlwinmx` leave. -/
theorem shortcut_right_iff (insn : Insn) (hr : r.Apart)
    (hcode : rlwinmx r f = [insn] ++ updateCr r f) (hdefined : Defined insn = true)
    (hstep : step s insn = s.put r.ra (Kind.rlwinm.result r f s old)) :
    Right r f .rlwinm s old ↔
      (f.updateCr = true → FlagsMatch s.flags (Kind.rlwinm.result r f s old)) := by
  obtain ⟨ha, -, hca, -, -⟩ := hr.written
  have hvalue : (run [insn] s).get r.ra = Kind.rlwinm.result r f s old := by
    rw [run_cons, hstep]
    exact Cpu.get_put s ha _
  rw [right_iff_stale (k := .rlwinm) [insn] hr hcode (List.forall_mem_singleton.mpr hdefined)
    (by rw [run_cons, hstep]; exact Cpu.get_put_of_ne s hca _) hvalue
    (by rw [run_cons, hstep]; exact flags_of_put s _ _)]
  exact and_iff_right rfl

/-- Where no shift does it, the source is rotated and then masked. -/
theorem rotateAndMask_right_iff (hr : r.Apart) (hf : f.Small)
    (hleft : ¬ (f.mb = 0 ∧ f.me = 31 - f.sh)) (hright : ¬ (f.me = 31 ∧ f.sh = 32 - f.mb)) :
    Right r f .rlwinm s old ↔
      if f.full then
        (if f.updateCr then f.sh = 0 else f.sh ≠ 0 ∨ s.get r.ra = Kind.rlwinm.rotated r f s)
      else Kind.rlwinm.rotated r f s &&& (f.emitted ^^^ f.mask) = 0 := by
  obtain ⟨ha, -, hca, -, -⟩ := hr.written
  set rotated := Kind.rlwinm.rotated r f s with hrotated
  have hresult : Kind.rlwinm.result r f s old = rotated &&& f.mask := rfl
  set front : List Insn :=
    if f.sh ≠ 0 then [.op (ror r.ra r.rs ((32 - f.sh) % 32))] else [] with hfront
  have hcode : ∀ tail, (if f.full = false then [andMask f r.ra (if f.sh ≠ 0 then r.ra else r.rs)]
      else if f.updateCr then
        (if f.sh = 0 then [.addsImmed r.ra r.rs 0] else [.op (tstImmed r.ra 32 0)])
      else []) = tail → rlwinmx r f = front ++ tail ++ updateCr r f := by
    rintro tail rfl
    rw [rlwinmx, if_neg hleft, if_neg hright]
  have hdefined : ∀ i ∈ front, Defined i = true := by
    rw [hfront]
    split_ifs
    · exact List.forall_mem_singleton.mpr rfl
    · exact List.forall_mem_nil _
  have hrun : (run front s).get r.cr = s.get r.cr ∧
      (run front s).get (if f.sh ≠ 0 then r.ra else r.rs) = rotated := by
    rw [hfront]
    split_ifs with hsh
    · rw [run_ror hf r.ra s hsh]
      exact ⟨Cpu.get_put_of_ne s hca _, Cpu.get_put s ha _⟩
    · refine ⟨rfl, ?_⟩
      show s.get r.rs = (s.get r.rs).rotateLeft f.sh
      rw [not_not.mp hsh, rotateLeft_zero]
  cases hfull : f.full with
  | false =>
    obtain ⟨hmask, hcr, hvalue, hflags⟩ := step_andMask hr hf hfull (run front s)
      (if f.sh ≠ 0 then r.ra else r.rs)
    rw [hrun.2] at hvalue hflags
    rw [if_neg (by decide), ← and_eq_and_iff]
    refine right_iff_value (front ++ [andMask f r.ra (if f.sh ≠ 0 then r.ra else r.rs)]) hr
      (hcode _ (if_pos hfull)) ?_ ?_ ?_ ?_
    · exact List.forall_mem_append.mpr ⟨hdefined, List.forall_mem_singleton.mpr hmask⟩
    · rw [run_append]
      exact hcr.trans hrun.1
    · rw [run_append]
      exact hvalue
    · rw [run_append]
      exact hflags
  | true =>
    rw [if_pos rfl]
    have hones := (and_full hf hfull rotated).1
    by_cases hrc : f.updateCr = true
    · rw [if_pos hrc]
      by_cases hsh : f.sh = 0
      · refine iff_of_true ?_ hsh
        have hempty : front = [] := if_neg (not_not.mpr hsh)
        rw [if_neg (not_not.mpr hsh), hempty] at hrun
        have hsource : s.get r.rs + 0 = rotated := (BitVec.add_zero _).trans hrun.2
        refine (right_iff_value [.addsImmed r.ra r.rs 0] hr ?_ (List.forall_mem_singleton.mpr rfl)
          (Cpu.get_put_of_ne s hca _) (Cpu.get_put s ha _) ?_).mpr (hsource.trans hones.symm)
        · have h := hcode _ rfl
          rw [hempty, if_neg (by simp [hfull]), if_pos hrc, if_pos hsh] at h
          exact h
        · intro _
          show FlagsMatch (HostCode.addFlags (s.get r.rs) 0) (s.get r.rs + 0)
          rw [show s.get r.rs + 0 = s.get r.rs from BitVec.add_zero _]
          exact (flagsMatch_of_value _).2.1
      · refine iff_of_false (fun h ↦ ?_) hsh
        -- The test of all ones is not encodable.
        have hall := hcode _ rfl
        rw [if_neg (by simp [hfull]), if_pos hrc, if_neg hsh] at hall
        have htest := h.defined (.op (tstImmed r.ra 32 0)) (by
          show _ ∈ rlwinmx r f
          rw [hall]
          simp)
        exact absurd (show definedImmed 32 = true from htest) (by decide)
    · rw [if_neg hrc]
      have hnil : rlwinmx r f = front ++ updateCr r f := by
        have h := hcode _ rfl
        rwa [if_neg (by simp [hfull]), if_neg hrc, List.append_nil] at h
      by_cases hsh : f.sh = 0
      · have hempty : front = [] := if_neg (not_not.mpr hsh)
        rw [hempty] at hnil
        rw [right_iff_value (k := .rlwinm) [] hr hnil (List.forall_mem_nil _) rfl rfl
          fun h ↦ absurd h hrc, hresult, hones]
        exact (or_iff_right (not_not.mpr hsh)).symm
      · rw [if_pos hsh] at hrun
        refine iff_of_true ?_ (Or.inl hsh)
        exact (right_iff_value (k := .rlwinm) front hr hnil hdefined hrun.1 hrun.2
          fun h ↦ absurd h hrc).mpr hones.symm

theorem rlwinm_right_iff (hr : r.Apart) (hf : f.Small) :
    Right r f .rlwinm s old ↔ Kind.rlwinm.Works r f s old := by
  unfold Kind.Works
  dsimp only
  by_cases hleft : f.mb = 0 ∧ f.me = 31 - f.sh
  · rw [if_pos (Or.inl hleft)]
    refine shortcut_right_iff (HostCode.lsl r.ra r.rs f.sh) hr (by rw [rlwinmx, if_pos hleft]) rfl ?_
    rw [step_lsl hf.sh, shiftLeft_eq hf hleft]
    rfl
  · by_cases hright : f.me = 31 ∧ f.sh = 32 - f.mb
    · have hsh := hf.sh
      have hmb := hf.mb
      rw [if_pos (Or.inr hright)]
      refine shortcut_right_iff (HostCode.lsr r.ra r.rs (32 - f.sh)) hr
        (by rw [rlwinmx, if_neg hleft, if_pos hright]) rfl ?_
      rw [step_lsr (by omega), shiftRight_eq hf hright]
      rfl
    · rw [if_neg (not_or.mpr ⟨hleft, hright⟩)]
      exact rotateAndMask_right_iff hr hf hleft hright

/-- The merge of `rlwimix`. It sets no flags. -/
theorem run_merge (hr : r.Apart) (hf : f.Small) (hfull : f.full = false) (t : Cpu) :
    let merge : List Insn := [.op (bicImmed r.ra r.ra f.width f.rotation),
      .op (.andImmed r.tmp r.tmp f.width f.rotation), .op (.orrReg r.ra r.ra r.tmp .LSL 0)]
    (∀ i ∈ merge, Defined i = true) ∧ (run merge t).get r.cr = t.get r.cr ∧
      (run merge t).get r.ra = (t.get r.ra &&& ~~~f.emitted) ||| (t.get r.tmp &&& f.emitted) ∧
        (run merge t).flags = t.flags := by
  obtain ⟨ha, ht, hca, hct, hat⟩ := hr.written
  obtain ⟨hwidth, hrest, hcomplement⟩ := hf.encoded hfull
  have hemitted : f.emitted = bitmask f.width f.rotation := if_neg (by simp [hfull])
  have hlsl : ∀ x : BitVec 32, Shift.apply x 0 .LSL = x := fun x ↦ BitVec.shiftLeft_zero x
  refine ⟨?_, ?_, ?_, ?_⟩
  · simp only [List.forall_mem_cons]
    exact ⟨hrest, hwidth, rfl, List.forall_mem_nil _⟩
  · simp only [run, List.foldl_cons, List.foldl_nil, step, bicImmed, A64.step,
      Cpu.get_put_of_ne _ hca, Cpu.get_put_of_ne _ hct]
  · simp only [run, List.foldl_cons, List.foldl_nil, step, bicImmed, A64.step, Cpu.get_put _ ha,
      Cpu.get_put _ ht, Cpu.get_put_of_ne _ hat, Cpu.get_put_of_ne _ (Ne.symm hat), hlsl, hcomplement,
      hemitted]
  · simp only [run, List.foldl_cons, List.foldl_nil, step, bicImmed, A64.step, flags_of_put]

theorem rlwimi_right_iff (hr : r.Apart) (hf : f.Small) :
    Right r f .rlwimi s old ↔ Kind.rlwimi.Works r f s old := by
  obtain ⟨ha, ht, hca, hct, hat⟩ := hr.written
  unfold Kind.Works
  dsimp only
  set rotated := Kind.rlwimi.rotated r f s with hrotated
  have hresult : Kind.rlwimi.result r f s old = (old &&& ~~~f.mask) ||| (rotated &&& f.mask) := rfl
  set front : List Insn :=
    if f.sh ≠ 0 then [.op (ror r.tmp r.rs ((32 - f.sh) % 32))] else [] with hfront
  have hdefined : ∀ i ∈ front, Defined i = true := by
    rw [hfront]
    split_ifs
    · exact List.forall_mem_singleton.mpr rfl
    · exact List.forall_mem_nil _
  have hrun : (run front s).get r.cr = s.get r.cr ∧ (run front s).get r.ra = s.get r.ra ∧
      (run front s).get r.tmp = merged r f s ∧
        (run front s).flags = s.flags ∧
          (f.sh = 0 → (run front s).get r.rs = rotated) := by
    rw [hfront]
    by_cases hsh : f.sh = 0
    · rw [if_neg (not_not.mpr hsh), merged, if_pos hsh]
      refine ⟨rfl, rfl, rfl, rfl, fun _ ↦ ?_⟩
      show s.get r.rs = (s.get r.rs).rotateLeft f.sh
      rw [hsh, rotateLeft_zero]
    · rw [if_pos hsh, merged, if_neg hsh, run_ror hf r.tmp s hsh]
      exact ⟨Cpu.get_put_of_ne s hct _, Cpu.get_put_of_ne s hat _, Cpu.get_put s ht _,
        flags_of_put s _ _, fun h ↦ absurd h hsh⟩
  obtain ⟨hcr, hra, htmp, hflags, hrs⟩ := hrun
  cases hfull : f.full with
  | false =>
    obtain ⟨hmerge, hmergeCr, hmergeRa, hmergeFlags⟩ := run_merge hr hf hfull (run front s)
    have hmerge_iff : MergeFits r f s old ↔
        (s.get r.ra &&& ~~~f.emitted) ||| (merged r f s &&& f.emitted) =
          Kind.rlwimi.result r f s old := by
      rw [hresult, merge_eq_iff]
      exact ⟨fun h ↦ ⟨h.outside, h.inside, h.emittedOnly, h.maskOnly⟩,
        fun h ↦ ⟨h.1, h.2.1, h.2.2.1, h.2.2.2⟩⟩
    rw [if_neg (by decide), hmerge_iff]
    refine right_iff_stale (k := .rlwimi) (front ++ [.op (bicImmed r.ra r.ra f.width f.rotation),
      .op (.andImmed r.tmp r.tmp f.width f.rotation), .op (.orrReg r.ra r.ra r.tmp .LSL 0)]) hr ?_
      (List.forall_mem_append.mpr ⟨hdefined, hmerge⟩) ?_ ?_ ?_
    · rw [Kind.code, rlwimix, if_pos hfull]
    · rw [run_append]
      exact hmergeCr.trans hcr
    · rw [run_append, hmergeRa, hra, htmp]
    · rw [run_append]
      exact hmergeFlags.trans hflags
  | true =>
    have hones : (old &&& ~~~f.mask) ||| (rotated &&& f.mask) = rotated := by
      rw [(and_full hf hfull rotated).1, mask_full hf hfull, BitVec.not_allOnes, BitVec.and_zero,
        BitVec.zero_or]
    rw [if_pos rfl]
    by_cases hrc : f.updateCr = true
    · refine iff_of_true ?_ (fun h ↦ absurd (h.symm.trans hrc) (by decide))
      let source := if f.sh = 0 then r.rs else r.tmp
      have hsource : (run front s).get source = rotated := by
        show (run front s).get (if f.sh = 0 then r.rs else r.tmp) = rotated
        by_cases hsh : f.sh = 0
        · rw [if_pos hsh, hrs hsh]
        · rw [if_neg hsh, htmp, merged, if_neg hsh]
      have hadd : (run front s).get source + 0 = rotated := (BitVec.add_zero _).trans hsource
      refine (right_iff_value (k := .rlwimi) (front ++ [.addsImmed r.ra source 0]) hr ?_
        (List.forall_mem_append.mpr ⟨hdefined, List.forall_mem_singleton.mpr rfl⟩) ?_ ?_ ?_).mpr
        (hones.symm : rotated = _)
      · have hadds : (if f.sh = 0 then [Insn.addsImmed r.ra r.rs 0] else [.addsImmed r.ra r.tmp 0]) =
            [.addsImmed r.ra source 0] := by
          show _ = [Insn.addsImmed r.ra (if f.sh = 0 then r.rs else r.tmp) 0]
          split_ifs <;> rfl
        rw [Kind.code, rlwimix, if_neg (show ¬ f.full = false by simp [hfull]), if_pos hrc, hadds]
      · rw [run_append]
        exact (Cpu.get_put_of_ne _ hca _).trans hcr
      · rw [run_append]
        exact (Cpu.get_put _ ha _).trans hadd
      · intro _
        rw [run_append]
        show FlagsMatch (HostCode.addFlags ((run front s).get source) 0) rotated
        rw [hsource]
        exact (flagsMatch_of_value _).2.1
    · have hcode : Kind.rlwimi.code r f = front ++ updateCr r f := by
        rw [Kind.code, rlwimix, if_neg (show ¬ f.full = false by simp [hfull]), if_neg hrc,
          List.append_nil]
      rw [right_iff_value front hr hcode hdefined hcr hra fun h ↦ absurd h hrc, hresult, hones]
      exact (imp_iff_right (Bool.eq_false_of_not_eq_true hrc)).symm

/-! ### All instruction words -/

/-- For every instruction word and every content of the registers. -/
theorem rotateAndMask_correct_iff (hr : r.Apart) (opcode : BitVec 32) (k : Kind) (s : Cpu)
    (old : BitVec 32) :
    Right r (fieldsOf opcode) k s old ↔ k.Works r (fieldsOf opcode) s old := by
  have hf := fieldsOf_small opcode
  cases k with
  | rlwimi => exact rlwimi_right_iff hr hf
  | rlwinm => exact rlwinm_right_iff hr hf
  | rlwnm => exact rlwnm_right_iff hr hf

/-- Registers as the allocator gives them: rS, rB and rA in 13 to 15, the others after them. -/
def allocated : Registers := ⟨13, 14, 15, 16, 17, 18, 19, 20⟩

def sample : Cpu := ⟨fun _ ↦ 0x12345678, ⟨false, false, false, false⟩, fun _ ↦ 0, fun _ ↦ 0⟩

/-- `rlwinm rA,rS,8,0,15`. -/
theorem rlwinm_right_word : Right allocated (fieldsOf 0x5400401e) .rlwinm sample 0 :=
  (rotateAndMask_correct_iff ⟨by decide, by decide⟩ 0x5400401e .rlwinm sample 0).mpr (by
    unfold Kind.Works
    dsimp only
    rw [if_neg (by decide), if_neg (by decide)]
    decide +kernel)

/-- `rlwinm rA,rS,0,31,0` keeps 30 bits instead of two. -/
theorem rlwinm_wrapped_wrong :
    ¬ ∀ (opcode : BitVec 32) (k : Kind) (s : Cpu) (old : BitVec 32),
      Right allocated (fieldsOf opcode) k s old := by
  intro h
  have hvalue := (h 0x540007c0 .rlwinm sample 0).value
  revert hvalue
  decide +kernel

end Emu68.Ppc.Rotate
