import Emu68.DataAbort.Bus
import Emu68.DataAbort.Decoding

/-!
An access of a pair of registers is emulated as the host would do it. Two registers of 32 bits are
one access of 64 bits to the bus.
-/

set_option autoImplicit false
set_option relaxedAutoImplicit false

namespace Emu68.DataAbort

open A64 Lib

variable {bus : Bus} {plain : BitVec 64 → ℕ → Prop} {kind : PairKind} {mode : PairMode}
  {rn rt1 rt2 : Reg} {imm : BitVec 16} {c : Context}

/-! ### Words -/

def PairKind.base : PairKind → PairMode → Word
  | .ldp, .offset => 0x29400000
  | .ldp, .postindex => 0x28c00000
  | .ldp, .preindex => 0x29c00000
  | .ldp64, .offset => 0xa9400000
  | .ldp64, .postindex => 0xa8c00000
  | .ldp64, .preindex => 0xa9c00000
  | .ldpsw, .offset => 0x69400000
  | .ldpsw, .postindex => 0x68c00000
  | .ldpsw, .preindex => 0x69c00000
  | .stp, .offset => 0x29000000
  | .stp, .postindex => 0x28800000
  | .stp, .preindex => 0x29800000
  | .stp64, .offset => 0xa9000000
  | .stp64, .postindex => 0xa8800000
  | .stp64, .preindex => 0xa9800000

def pairOpcode (kind : PairKind) (mode : PairMode) (rn rt1 rt2 : Reg) (imm : BitVec 16) : Word :=
  kind.base mode ||| (place 0 rt1 ||| place 10 rt2 ||| place 5 rn |||
    place 15 ((imm.sdiv (BitVec.ofNat 16 kind.bytes)).setWidth 7))

theorem pairKind_code :
    I32 (kind.code rn rt1 rt2 imm mode) = pairOpcode kind mode rn rt1 rt2 imm := by
  cases kind <;> cases mode <;> exact I32_I32 _

theorem within_pairBase (kind : PairKind) (mode : PairMode) :
    Within 0xffc00000 (kind.base mode) := by
  cases kind <;> cases mode <;> exact rfl

theorem pair_rt1 : regNr (pairOpcode kind mode rn rt1 rt2 imm) 0 = rt1 := by
  rw [regNr_eq]
  unfold pairOpcode
  simp (disch := decide) only [extract_or, (within_pairBase _ _).extract (q := 0) (k := 5) rfl,
    extract_place, extract_place_apart, BitVec.zero_or, BitVec.or_zero]

theorem pair_rn : regNr (pairOpcode kind mode rn rt1 rt2 imm) 5 = rn := by
  rw [regNr_eq]
  unfold pairOpcode
  simp (disch := decide) only [extract_or, (within_pairBase _ _).extract (q := 5) (k := 5) rfl,
    extract_place, extract_place_apart, BitVec.zero_or, BitVec.or_zero]

theorem pair_rt2 : regNr (pairOpcode kind mode rn rt1 rt2 imm) 10 = rt2 := by
  rw [regNr_eq]
  unfold pairOpcode
  simp (disch := decide) only [extract_or, (within_pairBase _ _).extract (q := 10) (k := 5) rfl,
    extract_place, extract_place_apart, BitVec.zero_or, BitVec.or_zero]

theorem scaled_pair (log : ℕ) (hlog : log = 2 ∨ log = 3) (x : BitVec 7) :
    (x.signExtend 16 * BitVec.ofNat 16 (2 ^ log)).signExtend 64 = x.signExtend 64 <<< log := by
  rcases hlog with rfl | rfl <;> revert x <;> decide +kernel

theorem offset7_opcode : (offset7 (pairOpcode kind mode rn rt1 rt2 imm) kind.bytes).signExtend 64 =
    kind.offset imm := by
  have hfield : (pairOpcode kind mode rn rt1 rt2 imm).extractLsb' 15 7 =
      (imm.sdiv (BitVec.ofNat 16 kind.bytes)).setWidth 7 := by
    unfold pairOpcode
    simp (disch := decide) only [extract_or, (within_pairBase _ _).extract (q := 15) (k := 7) rfl,
      extract_place, extract_place_apart, BitVec.zero_or]
  rw [offset7_eq, hfield]
  exact scaled_pair kind.log (by cases kind <;> decide) _

theorem within_pairFields : Within (0x003fffff : Word) (place 0 rt1 ||| place 10 rt2 |||
    place 5 rn ||| place 15 ((imm.sdiv (BitVec.ofNat 16 kind.bytes)).setWidth 7)) := by
  refine Within.or (Within.or (Within.or ?_ ?_) ?_) ?_ <;> exact within_place _ rfl

theorem test_pair (mask : Word) (hmask : mask &&& 0x003fffff = 0) :
    pairOpcode kind mode rn rt1 rt2 imm &&& mask = kind.base mode &&& mask :=
  within_pairFields.test hmask

theorem test_pair_ne (mask value : Word)
    (hfails : kind.base mode &&& mask &&& ~~~0x003fffff ≠ value &&& ~~~0x003fffff) :
    pairOpcode kind mode rn rt1 rt2 imm &&& mask ≠ value :=
  within_pairFields.test_ne hfails

theorem stored_pair1 (c : Context) :
    stored (pairOpcode kind mode rn rt1 rt2 imm) 0 c = c.get rt1 := by
  have hzero := and_31_eq (pairOpcode kind mode rn rt1 rt2 imm) 0
  rw [← regNr_eq, pair_rt1] at hzero
  unfold stored Context.get
  rw [pair_rt1]
  simp only [hzero]

theorem stored_pair2 (c : Context) :
    stored (pairOpcode kind mode rn rt1 rt2 imm) 10 c = c.get rt2 := by
  have hzero := and_31_eq (pairOpcode kind mode rn rt1 rt2 imm) 10
  rw [← regNr_eq, pair_rt2] at hzero
  unfold stored Context.get
  rw [pair_rt2]
  simp only [hzero]

theorem pairSize_opcode : pairSize (pairOpcode kind mode rn rt1 rt2 imm) = kind.bytes := by
  unfold pairSize
  rw [test_pair _ (by decide)]
  cases kind <;> cases mode <;> decide

/-! ### Transfers -/

theorem toNat_halves (x y : BitVec 64) : (x <<< 32 ||| y &&& 0xffffffff).toNat =
    x.toNat % 256 ^ 4 * 256 ^ 4 + y.toNat % 256 ^ 4 := by
  have hlow : (y &&& 0xffffffff).toNat = y.toNat % 2 ^ 32 := by
    rw [and_low, BitVec.toNat_setWidth, BitVec.toNat_setWidth]
    omega
  have hhigh : (x <<< 32).toNat = (x.toNat % 2 ^ 32) <<< 32 := by
    rw [BitVec.toNat_shiftLeft, Nat.shiftLeft_eq, Nat.shiftLeft_eq]
    omega
  rw [BitVec.toNat_or, hlow, hhigh, ← Nat.shiftLeft_add_eq_or_of_lt (Nat.mod_lt _ (by decide)),
    Nat.shiftLeft_eq]
  rfl

theorem halves_ofNat {high low : ℕ} (hhigh : high < 256 ^ 4) (hlow : low < 256 ^ 4) :
    BitVec.ofNat 64 (high * 256 ^ 4 + low) >>> 32 = BitVec.ofNat 64 high ∧
      BitVec.ofNat 64 (high * 256 ^ 4 + low) &&& 0xffffffff = BitVec.ofNat 64 low := by
  constructor
  · refine BitVec.eq_of_toNat_eq ?_
    rw [BitVec.toNat_ushiftRight, BitVec.toNat_ofNat, BitVec.toNat_ofNat, Nat.shiftRight_eq_div_pow]
    omega
  · refine BitVec.eq_of_toNat_eq ?_
    rw [and_low, BitVec.toNat_setWidth, BitVec.toNat_setWidth, BitVec.toNat_ofNat,
      BitVec.toNat_ofNat]
    omega

theorem writePair_opcode (hbus : bus.Transfers plain) {address : BitVec 64}
    (hplain : plain address (2 * kind.bytes)) (c : Context) :
    writePair bus (pairOpcode kind mode rn rt1 rt2 imm) address c =
      (true, { c with
        memory := store (store c.memory address kind.bytes (c.get rt1).toNat)
          (address + BitVec.ofNat 64 kind.bytes) kind.bytes (c.get rt2).toNat }) := by
  have hsecond : (if pairOpcode kind mode rn rt1 rt2 imm >>> 10 &&& 31 ≠ 31 then
      c.get rt1 <<< 32 ||| c.regs rt2 &&& 0xffffffff else c.get rt1 <<< 32) =
      (c.get rt1 <<< 32 ||| c.get rt2 &&& 0xffffffff) := by
    have hzero := and_31_eq (pairOpcode kind mode rn rt1 rt2 imm) 10
    rw [← regNr_eq, pair_rt2] at hzero
    unfold Context.get
    simp only [hzero, ne_eq, ite_not]
    split_ifs <;> simp
  have hbytes : kind.bytes = 4 ∨ kind.bytes = 8 := by cases kind <;> decide
  have hhalves : ∀ x y : BitVec 64,
      store c.memory address (4 + 4) (x <<< 32 ||| y &&& 0xffffffff).toNat =
        store (store c.memory address 4 x.toNat) (address + BitVec.ofNat 64 4) 4 y.toNat := by
    intro x y
    have hx : (x.toNat % 256 ^ 4 * 256 ^ 4 + y.toNat % 256 ^ 4) / 256 ^ 4 % 256 ^ 4 =
        x.toNat % 256 ^ 4 := by omega
    have hy : (x.toNat % 256 ^ 4 * 256 ^ 4 + y.toNat % 256 ^ 4) % 256 ^ 4 = y.toNat % 256 ^ 4 := by
      omega
    rw [toNat_halves, store_append _ _ _ (by decide), store_congr hx, store_congr hy]
  have hwrite : plain address 8 → ∀ value, write bus value 0 8 address c =
      (true, { c with memory := store c.memory address 8 value.toNat }) := by
    intro height value
    have hvalue := hbus.write 3 (by decide) address height value 0 c.memory
    unfold write
    rw [show (8 : ℕ) = 2 ^ 3 from rfl, hvalue]
  unfold writePair
  rw [pairSize_opcode, stored_pair1, stored_pair2, pair_rt2]
  rcases hbytes with hfour | height
  · rw [hfour] at hplain
    rw [hfour, if_pos rfl, hwrite hplain]
    simp only [hsecond]
    rw [show 8 = 4 + 4 from rfl, hhalves]
  · rw [height] at hplain
    unfold write
    rw [height, if_neg (by decide), hbus.writePair _ hplain]
    rfl

theorem readPair_opcode (hbus : bus.Transfers plain) {address : BitVec 64}
    (hplain : plain address (2 * kind.bytes)) (c : Context) :
    readPair bus (pairOpcode kind mode rn rt1 rt2 imm) address c =
      (true, (c.put rt1 (BitVec.ofNat 64 (load c.memory address kind.bytes))).put rt2
        (BitVec.ofNat 64 (load c.memory (address + BitVec.ofNat 64 kind.bytes) kind.bytes))) := by
  have hbytes : kind.bytes = 4 ∨ kind.bytes = 8 := by cases kind <;> decide
  unfold readPair read
  rw [pairSize_opcode, pair_rt1, pair_rt2]
  rcases hbytes with hfour | height
  · rw [hfour] at hplain
    obtain ⟨value2, hread⟩ := hbus.read 3 (by decide) address hplain c.memory
    obtain ⟨hhigh, hlow⟩ := halves_ofNat (load_lt c.memory address 4)
      (load_lt c.memory (address + BitVec.ofNat 64 4) 4)
    rw [← load_append] at hhigh hlow
    rw [hfour, if_pos rfl, show (8 : ℕ) = 2 ^ 3 from rfl, hread]
    dsimp only
    rw [show 2 ^ 3 = 4 + 4 from rfl, hhigh, hlow]
  · rw [height] at hplain
    rw [height, if_neg (by decide), hbus.readPair _ hplain]
    rfl

/-- LDPSW extends both words with their signs. -/
theorem readSigned_opcode (hbus : bus.Transfers plain) {address : BitVec 64}
    (hplain : plain address 8) (c : Context) :
    readSigned bus (pairOpcode .ldpsw mode rn rt1 rt2 imm) address c =
      (true, (c.put rt1 (PairKind.value .ldpsw (load c.memory address 4))).put rt2
        (PairKind.value .ldpsw (load c.memory (address + BitVec.ofNat 64 4) 4))) := by
  have hextended : ∀ data < 256 ^ 4, (if BitVec.ofNat 64 data &&& 0x80000000 ≠ 0 then
      BitVec.ofNat 64 data ||| 0xffffffff00000000 else BitVec.ofNat 64 data) =
        PairKind.value .ldpsw data := by
    intro data hdata
    have hwide : BitVec.ofNat 64 data = (BitVec.ofNat 32 data).setWidth 64 := by
      refine BitVec.eq_of_toNat_eq ?_
      rw [BitVec.toNat_setWidth, BitVec.toNat_ofNat, BitVec.toNat_ofNat,
        Nat.mod_eq_of_lt (show data < 2 ^ 32 from hdata)]
    have hfill := fill_signExtend (BitVec.ofNat 32 data) 64 0xffffffff00000000 (by decide)
      (by decide)
    have hsign : (BitVec.ofNat 32 data).setWidth 64 &&& 0x80000000 ≠ 0 ↔ _ :=
      and_sign (BitVec.ofNat 32 data) (by decide)
    rw [hwide]
    simp only [hsign]
    rw [hfill, BitVec.setWidth_eq]
    rfl
  obtain ⟨value2, hread⟩ := hbus.read 3 (by decide) address hplain c.memory
  have hlt := load_lt c.memory address 4
  have hlt' := load_lt c.memory (address + BitVec.ofNat 64 4) 4
  obtain ⟨hhigh, hlow⟩ := halves_ofNat hlt hlt'
  rw [← load_append] at hhigh hlow
  unfold readSigned read
  rw [pair_rt1, pair_rt2, show (8 : ℕ) = 2 ^ 3 from rfl, hread]
  dsimp only
  rw [show 2 ^ 3 = 4 + 4 from rfl, hhigh, hlow, hextended _ hlt, hextended _ hlt']

/-! ### The handlers -/

theorem write_pair (hbus : bus.Transfers plain) (hstore : kind.isStore = true)
    (hplain : plain (mode.address rn (kind.offset imm) c) (2 * kind.bytes)) :
    sysPageFaultWriteHandler bus (kind.code rn rt1 rt2 imm mode) c =
      some (true, kind.exec mode rn rt1 rt2 imm c) := by
  unfold sysPageFaultWriteHandler
  rw [pairKind_code]
  cases kind <;> cases mode <;> simp only [PairMode.address] at hplain <;> first
    | exact absurd hstore (by decide)
    | simp +decide (disch := decide) only [StoresFloat, test_pair, test_pair_ne, pairSize_opcode,
        offset7_opcode, pair_rn, writePair_opcode hbus hplain, thenPut, or_self, if_false, if_true]
      rfl

/-- LDP is of the first chain. -/
theorem loadPair_ldp (hbus : bus.Transfers plain) (hstore : kind.isStore = false)
    (hkind : kind ≠ .ldpsw) {c : Context}
    (hplain : plain (mode.address rn (kind.offset imm) c) (2 * kind.bytes)) :
    ∃ accessed, loadPair bus (pairOpcode kind mode rn rt1 rt2 imm) c =
      (true, accessed) ∧ accessed.next = kind.exec mode rn rt1 rt2 imm c := by
  unfold loadPair
  cases kind <;> cases mode <;> simp only [PairMode.address] at hplain <;> first
    | exact absurd hstore (by decide)
    | exact absurd rfl hkind
    | simp +decide (disch := decide) only [test_pair, pairSize_opcode, offset7_opcode,
        pair_rn, readPair_opcode hbus hplain, thenPut, if_false, if_true]
      exact ⟨_, rfl, rfl⟩

/-- The second chain has no test for it. -/
theorem loadSingle_ldp (hstore : kind.isStore = false) (hkind : kind ≠ .ldpsw) (far : BitVec 64)
    (handled : Bool) (c : Context) :
    loadSingle bus (pairOpcode kind mode rn rt1 rt2 imm) far handled c = (handled, c) := by
  unfold loadSingle
  cases kind <;> cases mode <;> first
    | exact absurd hstore (by decide)
    | exact absurd rfl hkind
    | simp +decide (disch := decide) only [test_pair, test_pair_ne, or_self, if_false]

/-- LDPSW is of the second chain. -/
theorem loadSingle_ldpsw (hbus : bus.Transfers plain) (far : BitVec 64) (handled : Bool)
    {c : Context} (hplain : plain (mode.address rn (PairKind.offset imm .ldpsw) c) 8) :
    ∃ accessed, loadSingle bus (pairOpcode .ldpsw mode rn rt1 rt2 imm) far handled c =
      (true, accessed) ∧ accessed.next = PairKind.exec .ldpsw mode rn rt1 rt2 imm c := by
  have hoffset := @offset7_opcode .ldpsw mode rn rt1 rt2 imm
  rw [show PairKind.bytes .ldpsw = 4 from rfl] at hoffset
  unfold loadSingle
  cases mode <;> simp only [PairMode.address] at hplain <;>
    simp +decide (disch := decide) only [test_pair, hoffset, pair_rn,
      readSigned_opcode hbus hplain, thenPut, if_false, if_true] <;>
    exact ⟨_, rfl, rfl⟩

theorem loadPair_ldpsw (c : Context) :
    loadPair bus (pairOpcode .ldpsw mode rn rt1 rt2 imm) c = (false, c) := by
  unfold loadPair
  cases mode <;> simp +decide (disch := decide) only [test_pair, if_false]

theorem not_loadsFloat (kind : PairKind) (mode : PairMode) (rn rt1 rt2 : Reg) (imm : BitVec 16) :
    ¬ LoadsFloat (pairOpcode kind mode rn rt1 rt2 imm) := by
  unfold LoadsFloat
  cases kind <;> cases mode <;>
    simp +decide (disch := decide) only [test_pair, test_pair_ne, or_self, not_false_eq_true]

theorem read_pair (hbus : bus.Transfers plain) (hstore : kind.isStore = false)
    (hplain : plain (mode.address rn (kind.offset imm) c) (2 * kind.bytes)) (far : BitVec 64) :
    sysPageFaultReadHandler bus (kind.code rn rt1 rt2 imm mode) far c =
      some (true, kind.exec mode rn rt1 rt2 imm c) := by
  unfold sysPageFaultReadHandler
  dsimp only
  rw [pairKind_code, if_neg (not_loadsFloat _ _ _ _ _ _)]
  by_cases hkind : kind = .ldpsw
  · subst hkind
    obtain ⟨accessed, hload, hexec⟩ := loadSingle_ldpsw hbus far false hplain
    rw [loadPair_ldpsw, hload, hexec]
  · obtain ⟨accessed, hload, hexec⟩ := loadPair_ldp hbus hstore hkind hplain
    rw [hload, loadSingle_ldp hstore hkind, hexec]

end Emu68.DataAbort
