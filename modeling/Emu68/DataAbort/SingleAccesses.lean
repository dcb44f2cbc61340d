import Emu68.DataAbort.Words

/-!
An access of one register is emulated as the host would do it.
-/

set_option autoImplicit false
set_option relaxedAutoImplicit false

namespace Emu68.DataAbort

open A64 Lib

variable {bus : Bus} {plain : BitVec 64 → ℕ → Prop} {kind : Kind} {mode : Mode} {rn rt rm : Reg}
  {c : Context}

/-! ### Addresses -/

theorem stored_opcode (c : Context) : stored (opcode kind mode rn rt) 0 c = c.get rt := by
  have hzero := and_31_eq (opcode kind mode rn rt) 0
  rw [← regNr_eq, regNr_rt] at hzero
  unfold stored Context.get
  rw [regNr_rt]
  simp only [hzero]

theorem signExtend_twice (x : BitVec 9) : (x.signExtend 16).signExtend 64 = x.signExtend 64 := by
  refine BitVec.eq_of_toInt_eq ?_
  rw [BitVec.toInt_signExtend_of_le (by decide), BitVec.toInt_signExtend_of_le (by decide),
    BitVec.toInt_signExtend_of_le (by decide)]

/-- The offset in bytes. -/
theorem offset9_opcode {offset : BitVec 16}
    (hrest : mode.rest kind.log = place 12 (offset.setWidth 9)) :
    (offset9 (opcode kind mode rn rt)).signExtend 64 = (offset.setWidth 9).signExtend 64 := by
  have hbase : (mode.form.base kind.direction).extractLsb' 12 9 = 0#9 := by
    cases mode.form <;> cases kind.direction <;> rfl
  rw [offset9_eq, extract_opcode (by decide) (by decide) hbase, hrest, extract_place _ (by decide),
    signExtend_twice]

/-- The offset in units of the access. -/
theorem offset12_opcode (offset : BitVec 16) : offset12 (opcode kind (.scaled offset) rn rt) =
    ((offset >>> kind.log).setWidth 12).setWidth 32 := by
  have hbase : (Form.base kind.direction .scaled).extractLsb' 10 12 = 0#12 := by
    cases kind.direction <;> rfl
  rw [offset12_eq, extract_opcode (by decide) (by decide) hbase]
  exact congrArg (BitVec.setWidth 32) (extract_place _ (by decide))

theorem scaled_eq {log : ℕ} (hlog : log ≤ 3) (x : BitVec 12) :
    ((x.setWidth 32 * BitVec.ofNat 32 (2 ^ log)).setWidth 16).setWidth 64 =
        x.setWidth 64 <<< log ∧
      (x.setWidth 32 * BitVec.ofNat 32 (2 ^ log)).setWidth 64 = x.setWidth 64 <<< log ∧
      (x.setWidth 32).setWidth 64 * BitVec.ofNat 64 (2 ^ log) = x.setWidth 64 <<< log := by
  have hx := x.isLt
  have hpow : 2 ^ log ≤ 8 := Nat.pow_le_pow_right (by decide) hlog
  have hprod : x.toNat * 2 ^ log < 2 ^ 12 * 8 := Nat.mul_lt_mul_of_lt_of_le hx hpow (by decide)
  have hwide : ∀ {n : ℕ}, 15 ≤ n →
      (x.setWidth n * BitVec.ofNat n (2 ^ log)).toNat = x.toNat * 2 ^ log := by
    intro n hn
    have hle : 2 ^ 15 ≤ 2 ^ n := Nat.pow_le_pow_right (by decide) hn
    rw [BitVec.toNat_mul, BitVec.toNat_setWidth, BitVec.toNat_ofNat,
      Nat.mod_eq_of_lt (b := 2 ^ n) (show x.toNat < _ by omega),
      Nat.mod_eq_of_lt (b := 2 ^ n) (show 2 ^ log < _ by omega), Nat.mod_eq_of_lt (by omega)]
  have hshift : (x.setWidth 64 <<< log).toNat = x.toNat * 2 ^ log := by
    rw [BitVec.toNat_shiftLeft, BitVec.toNat_setWidth, Nat.shiftLeft_eq,
      Nat.mod_eq_of_lt (b := 2 ^ 64) (show x.toNat < _ by omega), Nat.mod_eq_of_lt (by omega)]
  refine ⟨BitVec.eq_of_toNat_eq ?_, BitVec.eq_of_toNat_eq ?_, BitVec.eq_of_toNat_eq ?_⟩
  · rw [hshift, BitVec.toNat_setWidth, BitVec.toNat_setWidth, hwide (by decide),
      Nat.mod_eq_of_lt (b := 2 ^ 16) (by omega), Nat.mod_eq_of_lt (by omega)]
  · rw [hshift, BitVec.toNat_setWidth, hwide (by decide), Nat.mod_eq_of_lt (by omega)]
  · have hagain : (x.setWidth 32).setWidth 64 = x.setWidth 64 := by
      refine BitVec.eq_of_toNat_eq ?_
      rw [BitVec.toNat_setWidth, BitVec.toNat_setWidth, BitVec.toNat_setWidth,
        Nat.mod_eq_of_lt (b := 2 ^ 32) (by omega)]
    rw [hagain, hwide (by decide), hshift]

/-- The index register, extended and shifted. -/
theorem index_opcode {ext : Extend} {lsl : Bool} (hrm : rm ≠ 31) (c : Context) :
    index (opcode kind (.regoffset rm ext lsl) rn rt) kind.bytes c =
      Mode.offset kind.log c (.regoffset rm ext lsl) := by
  have hbase : ∀ q k, (Form.base kind.direction .regoffset).extractLsb' q k = 0#k → 10 ≤ q →
      q + k ≤ 22 → (opcode kind (.regoffset rm ext lsl) rn rt).extractLsb' q k =
        (Mode.rest kind.log (.regoffset rm ext lsl)).extractLsb' q k :=
    fun q k hzero hq hk ↦ extract_opcode hq hk hzero
  have hregister : regNr (opcode kind (.regoffset rm ext lsl) rn rt) 16 = rm := by
    rw [regNr_eq, hbase 16 5 (by cases kind.direction <;> rfl) (by decide) (by decide)]
    unfold Mode.rest
    simp (disch := decide) only [extract_or, extract_place, extract_place_apart, BitVec.or_zero]
  have hoption : opcode kind (.regoffset rm ext lsl) rn rt >>> 13 &&& 7 = ext.code.setWidth 32 := by
    rw [option_eq, hbase 13 3 (by cases kind.direction <;> rfl) (by decide) (by decide)]
    unfold Mode.rest
    simp (disch := decide) only [extract_or, extract_place, extract_place_apart, BitVec.zero_or]
  have hshift : opcode kind (.regoffset rm ext lsl) rn rt &&& 0x1000 = 0 ↔
      (if kind.log = 0 then false else lsl) = false := by
    rw [show (0x1000 : Word) = place 12 1#1 from rfl, and_bit _ (by decide)]
    have hbit := getLsbD_eq_extract (opcode kind (.regoffset rm ext lsl) rn rt) 12
    rw [hbase 12 1 (by cases kind.direction <;> rfl) (by decide) (by decide)] at hbit
    unfold Mode.rest at hbit
    simp (disch := decide) only [extract_or, extract_place, extract_place_apart, BitVec.zero_or,
      BitVec.or_zero] at hbit
    replace hbit := congrArg (BitVec.getLsbD · 0) hbit
    simp only [BitVec.getLsbD_ofBool, decide_true, Bool.true_and] at hbit
    rw [hbit]
  have hext : ∀ x : BitVec 64, (if (ext.code.setWidth 32 : Word) = 0b010 then x &&& 0xffffffff
      else if (ext.code.setWidth 32 : Word) = 0b110 then
        if x &&& 0x80000000 ≠ 0 then x ||| 0xffffffff00000000 else x &&& 0x00000000ffffffff
      else x) = ext.apply x := by
    intro x
    cases ext with
    | uxtw => exact (if_pos (by decide)).trans (and_low x)
    | sxtw => exact (if_neg (by decide)).trans ((if_pos (by decide)).trans (sxtw_eq x))
    | _ => exact (if_neg (by decide)).trans (if_neg (by decide))
  unfold index Mode.offset Context.get
  simp only [hregister, hoption, if_neg hrm, hext, ne_eq, hshift]
  cases lsl <;> cases kind <;> simp [Kind.bytes, Kind.log]

/-! ### Accesses -/

theorem Kind.log_le (kind : Kind) : kind.log ≤ 3 := by
  cases kind <;> decide

theorem write_store (hbus : bus.Transfers plain) {address : BitVec 64}
    (hplain : plain address kind.bytes) (value : BitVec 64) :
    write bus value 0 kind.bytes address c =
      (true, { c with memory := store c.memory address kind.bytes value.toNat }) := by
  unfold write Kind.bytes
  rw [hbus.write _ kind.log_le _ hplain]

theorem read_load (hbus : bus.Transfers plain) {address : BitVec 64}
    (hplain : plain address kind.bytes) (use : BitVec 64 → Context) :
    read bus kind.bytes address c use =
      (true, use (BitVec.ofNat 64 (load c.memory address kind.bytes))) := by
  obtain ⟨value2, hread⟩ := hbus.read _ kind.log_le address hplain c.memory
  unfold read Kind.bytes
  rw [hread]

/-- A value that has been read is extended as the kind says. -/
theorem signExtended_value (h : kind.direction = .signed) (address : BitVec 64) :
    signExtended kind.bytes (!decide (kind.signed = some 32))
        (BitVec.ofNat 64 (load c.memory address kind.bytes)) =
      kind.value (load c.memory address kind.bytes) := by
  have hwidth : ∀ n, ∀ data < 2 ^ n,
      BitVec.ofNat 64 data = (BitVec.ofNat n data).setWidth 64 := by
    intro n data hdata
    refine BitVec.eq_of_toNat_eq ?_
    rw [BitVec.toNat_setWidth, BitVec.toNat_ofNat, BitVec.toNat_ofNat, Nat.mod_eq_of_lt hdata]
  have hlt := load_lt c.memory address kind.bytes
  generalize load c.memory address kind.bytes = data at hlt ⊢
  cases kind with
  | ldrsb => rw [hwidth 8 data hlt]; exact signExtended_byte false _
  | ldrsb64 => rw [hwidth 8 data hlt]; exact signExtended_byte true _
  | ldrsh => rw [hwidth 16 data hlt]; exact signExtended_half false _
  | ldrsh64 => rw [hwidth 16 data hlt]; exact signExtended_half true _
  | ldrsw => rw [hwidth 32 data hlt]; exact signExtended_word true _
  | _ => exact absurd h (by decide)

/-! ### The handlers -/

/-- The tests of the handler, one form after the other. -/
theorem write_single (hbus : bus.Transfers plain) (hstore : kind.isStore = true)
    (hplain : plain (mode.address kind.log rn c) kind.bytes)
    (hrm : ∀ rm ext lsl, mode = .regoffset rm ext lsl → rm ≠ 31) :
    sysPageFaultWriteHandler bus (kind.code rn rt mode) c =
      some (true, kind.exec mode rn rt c) := by
  have hdir : kind.direction = .store := if_pos hstore
  unfold sysPageFaultWriteHandler Kind.exec
  rw [kind_code, hstore]
  cases mode with
  | scaled offset =>
    change plain (c.regs rn + ((offset >>> kind.log).setWidth 12).setWidth 64 <<< kind.log)
      kind.bytes at hplain
    have hscaled := (scaled_eq kind.log_le ((offset >>> kind.log).setWidth 12)).1
    rw [← Kind.bytes] at hscaled
    have htest := @test_opcode kind (.scaled offset) rn rt .scaled rfl .store hdir
    have hfails := @test_opcode_ne kind (.scaled offset) rn rt .scaled rfl .store hdir
    simp (disch := decide) only [StoresFloat, htest 0x3fc00000 0x39000000 (by decide) (by decide),
      hfails, stored_opcode, regNr_rn, getOPsize_opcode, offset12_opcode, hscaled,
      write_store hbus hplain, or_self, if_false, if_true]
    rfl
  | unscaled offset =>
    change plain (c.regs rn + (offset.setWidth 9).signExtend 64) kind.bytes at hplain
    have hoffset := @offset9_opcode kind (.unscaled offset) rn rt offset rfl
    have htest := @test_opcode kind (.unscaled offset) rn rt .unscaled rfl .store hdir
    have hfails := @test_opcode_ne kind (.unscaled offset) rn rt .unscaled rfl .store hdir
    simp (disch := decide) only [StoresFloat, htest 0x3fe00c00 0x38000000 (by decide) (by decide),
      hfails, stored_opcode, regNr_rn, getOPsize_opcode, hoffset, write_store hbus hplain, or_self,
      if_false, if_true]
    rfl
  | postindex offset =>
    change plain (c.regs rn) kind.bytes at hplain
    have hoffset := @offset9_opcode kind (.postindex offset) rn rt offset rfl
    have htest := @test_opcode kind (.postindex offset) rn rt .postindex rfl .store hdir
    have hfails := @test_opcode_ne kind (.postindex offset) rn rt .postindex rfl .store hdir
    simp (disch := decide) only [StoresFloat, htest 0x3fe00400 0x38000400 (by decide) (by decide),
      htest 0x800 0 (by decide) (by decide), hfails, stored_opcode, regNr_rn, ne_eq,
      not_true_eq_false, getOPsize_opcode, hoffset, write_store hbus hplain, thenPut, or_self,
      if_false, if_true]
    rfl
  | preindex offset =>
    change plain (c.regs rn + (offset.setWidth 9).signExtend 64) kind.bytes at hplain
    have hoffset := @offset9_opcode kind (.preindex offset) rn rt offset rfl
    have htest := @test_opcode kind (.preindex offset) rn rt .preindex rfl .store hdir
    have hfails := @test_opcode_ne kind (.preindex offset) rn rt .preindex rfl .store hdir
    simp (disch := decide) only [StoresFloat, htest 0x3fe00400 0x38000400 (by decide) (by decide),
      hfails, stored_opcode, regNr_rn, ne_eq, not_false_eq_true, getOPsize_opcode, hoffset,
      write_store hbus hplain, thenPut, or_self, if_false, if_true]
    rfl
  | regoffset rm ext lsl =>
    change plain (c.regs rn + Mode.offset kind.log c (.regoffset rm ext lsl)) kind.bytes at hplain
    have htest := @test_opcode kind (.regoffset rm ext lsl) rn rt .regoffset rfl .store hdir
    have hfails := @test_opcode_ne kind (.regoffset rm ext lsl) rn rt .regoffset rfl .store hdir
    simp (disch := decide) only [StoresFloat, htest 0x3fe00c00 0x38200800 (by decide) (by decide),
      hfails, stored_opcode, regNr_rn, getOPsize_opcode, index_opcode (hrm rm ext lsl rfl),
      write_store hbus hplain, or_self, if_false, if_true]
    rfl

theorem value_load (h : kind.direction = .load) (address : BitVec 64) :
    BitVec.ofNat 64 (load c.memory address kind.bytes) =
      kind.value (load c.memory address kind.bytes) := by
  cases kind <;> first | rfl | exact absurd h (by decide)

theorem read_plain (hbus : bus.Transfers plain) (hdir : kind.direction = .load)
    (hplain : plain (mode.address kind.log rn c) kind.bytes)
    (hrm : ∀ rm ext lsl, mode = .regoffset rm ext lsl → rm ≠ 31) (far : BitVec 64) :
    sysPageFaultReadHandler bus (kind.code rn rt mode) far c =
      some (true, kind.exec mode rn rt c) := by
  have hstore : kind.isStore = false := by
    cases kind <;> first | rfl | exact absurd hdir (by decide)
  unfold sysPageFaultReadHandler loadPair loadSingle Kind.exec
  rw [kind_code, hstore]
  cases mode with
  | scaled offset =>
    change plain (c.regs rn + ((offset >>> kind.log).setWidth 12).setWidth 64 <<< kind.log)
      kind.bytes at hplain
    have hscaled := (scaled_eq kind.log_le ((offset >>> kind.log).setWidth 12)).2.2
    rw [← Kind.bytes] at hscaled
    have htest := @test_opcode kind (.scaled offset) rn rt .scaled rfl .load hdir
    have hfails := @test_opcode_ne kind (.scaled offset) rn rt .scaled rfl .load hdir
    simp (disch := decide) only [LoadsFloat, htest 0x3fc00000 0x39400000 (by decide) (by decide),
      hfails, regNr_rn, regNr_rt, getOPsize_opcode, offset12_opcode, hscaled, read_load hbus hplain,
      value_load hdir, or_self, if_false, if_true]
    rfl
  | unscaled offset =>
    change plain (c.regs rn + (offset.setWidth 9).signExtend 64) kind.bytes at hplain
    have hoffset := @offset9_opcode kind (.unscaled offset) rn rt offset rfl
    have htest := @test_opcode kind (.unscaled offset) rn rt .unscaled rfl .load hdir
    have hfails := @test_opcode_ne kind (.unscaled offset) rn rt .unscaled rfl .load hdir
    simp (disch := decide) only [LoadsFloat, htest 0x3fe00c00 0x38400000 (by decide) (by decide),
      hfails, regNr_rn, regNr_rt, getOPsize_opcode, hoffset, read_load hbus hplain, value_load hdir,
      or_self, if_false, if_true]
    rfl
  | postindex offset =>
    change plain (c.regs rn) kind.bytes at hplain
    have hoffset := @offset9_opcode kind (.postindex offset) rn rt offset rfl
    have htest := @test_opcode kind (.postindex offset) rn rt .postindex rfl .load hdir
    have hfails := @test_opcode_ne kind (.postindex offset) rn rt .postindex rfl .load hdir
    simp (disch := decide) only [LoadsFloat, htest 0x3fe00400 0x38400400 (by decide) (by decide),
      htest 0x800 0 (by decide) (by decide), hfails, regNr_rn, regNr_rt, getOPsize_opcode, hoffset,
      read_load hbus hplain, value_load hdir, ne_eq, not_true_eq_false, or_self, if_false, if_true]
    rfl
  | preindex offset =>
    change plain (c.regs rn + (offset.setWidth 9).signExtend 64) kind.bytes at hplain
    have hoffset := @offset9_opcode kind (.preindex offset) rn rt offset rfl
    have htest := @test_opcode kind (.preindex offset) rn rt .preindex rfl .load hdir
    have hfails := @test_opcode_ne kind (.preindex offset) rn rt .preindex rfl .load hdir
    simp (disch := decide) only [LoadsFloat, htest 0x3fe00400 0x38400400 (by decide) (by decide),
      hfails, regNr_rn, regNr_rt, getOPsize_opcode, hoffset, read_load hbus hplain, value_load hdir,
      ne_eq, not_false_eq_true, or_self, if_false, if_true]
    rfl
  | regoffset rm ext lsl =>
    change plain (c.regs rn + Mode.offset kind.log c (.regoffset rm ext lsl)) kind.bytes at hplain
    have htest := @test_opcode kind (.regoffset rm ext lsl) rn rt .regoffset rfl .load hdir
    have hfails := @test_opcode_ne kind (.regoffset rm ext lsl) rn rt .regoffset rfl .load hdir
    simp (disch := decide) only [LoadsFloat, htest 0x3fe00c00 0x38600800 (by decide) (by decide),
      hfails, regNr_rn, regNr_rt, getOPsize_opcode, index_opcode (hrm rm ext lsl rfl),
      read_load hbus hplain, value_load hdir, or_self, if_false, if_true]
    rfl

theorem read_signed (hbus : bus.Transfers plain) (hdir : kind.direction = .signed)
    (hplain : plain (mode.address kind.log rn c) kind.bytes)
    (hrm : ∀ rm ext lsl, mode = .regoffset rm ext lsl → rm ≠ 31) (far : BitVec 64) :
    sysPageFaultReadHandler bus (kind.code rn rt mode) far c =
      some (true, kind.exec mode rn rt c) := by
  have hstore : kind.isStore = false := by
    cases kind <;> first | rfl | exact absurd hdir (by decide)
  unfold sysPageFaultReadHandler loadPair loadSingle Kind.exec
  rw [kind_code, hstore]
  cases mode with
  | scaled offset =>
    change plain (c.regs rn + ((offset >>> kind.log).setWidth 12).setWidth 64 <<< kind.log)
      kind.bytes at hplain
    have hscaled := (scaled_eq kind.log_le ((offset >>> kind.log).setWidth 12)).2.1
    rw [← Kind.bytes] at hscaled
    have htest := @test_opcode kind (.scaled offset) rn rt .scaled rfl .signed hdir
    have hfails := @test_opcode_ne kind (.scaled offset) rn rt .scaled rfl .signed hdir
    simp (disch := decide) only [LoadsFloat, htest 0x3f800000 0x39800000 (by decide) (by decide),
      hfails, regNr_rn, regNr_rt, getOPsize_opcode, offset12_opcode, hscaled, read_load hbus hplain,
      sext64_opcode hdir, signExtended_value hdir, or_self, if_false, if_true]
    rfl
  | unscaled offset =>
    change plain (c.regs rn + (offset.setWidth 9).signExtend 64) kind.bytes at hplain
    have hoffset := @offset9_opcode kind (.unscaled offset) rn rt offset rfl
    have htest := @test_opcode kind (.unscaled offset) rn rt .unscaled rfl .signed hdir
    have hfails := @test_opcode_ne kind (.unscaled offset) rn rt .unscaled rfl .signed hdir
    simp (disch := decide) only [LoadsFloat, htest 0x3fa00c00 0x38800000 (by decide) (by decide),
      hfails, regNr_rn, regNr_rt, getOPsize_opcode, hoffset, read_load hbus hplain,
      sext64_opcode hdir, signExtended_value hdir, or_self, if_false, if_true]
    rfl
  | postindex offset =>
    change plain (c.regs rn) kind.bytes at hplain
    have hoffset := @offset9_opcode kind (.postindex offset) rn rt offset rfl
    have htest := @test_opcode kind (.postindex offset) rn rt .postindex rfl .signed hdir
    have hfails := @test_opcode_ne kind (.postindex offset) rn rt .postindex rfl .signed hdir
    simp (disch := decide) only [LoadsFloat, htest 0x3fa00400 0x38800400 (by decide) (by decide),
      htest 0x800 0 (by decide) (by decide), hfails, regNr_rn, regNr_rt, getOPsize_opcode, hoffset,
      read_load hbus hplain, sext64_opcode hdir, signExtended_value hdir, ne_eq, not_true_eq_false,
      or_self, if_false, if_true]
    rfl
  | preindex offset =>
    change plain (c.regs rn + (offset.setWidth 9).signExtend 64) kind.bytes at hplain
    have hoffset := @offset9_opcode kind (.preindex offset) rn rt offset rfl
    have htest := @test_opcode kind (.preindex offset) rn rt .preindex rfl .signed hdir
    have hfails := @test_opcode_ne kind (.preindex offset) rn rt .preindex rfl .signed hdir
    simp (disch := decide) only [LoadsFloat, htest 0x3fa00400 0x38800400 (by decide) (by decide),
      hfails, regNr_rn, regNr_rt, getOPsize_opcode, hoffset, read_load hbus hplain,
      sext64_opcode hdir, signExtended_value hdir, ne_eq, not_false_eq_true, or_self, if_false,
      if_true]
    rfl
  | regoffset rm ext lsl =>
    change plain (c.regs rn + Mode.offset kind.log c (.regoffset rm ext lsl)) kind.bytes at hplain
    have htest := @test_opcode kind (.regoffset rm ext lsl) rn rt .regoffset rfl .signed hdir
    have hfails := @test_opcode_ne kind (.regoffset rm ext lsl) rn rt .regoffset rfl .signed hdir
    simp (disch := decide) only [LoadsFloat, htest 0x3fa00c00 0x38a00800 (by decide) (by decide),
      hfails, regNr_rn, regNr_rt, getOPsize_opcode, index_opcode (hrm rm ext lsl rfl),
      read_load hbus hplain, sext64_opcode hdir, signExtended_value hdir, or_self, if_false,
      if_true]
    rfl

end Emu68.DataAbort
