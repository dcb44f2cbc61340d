import Emu68.DataAbort.Bus
import Emu68.DataAbort.Decoding

/-!
The word of an instruction: the bits that its handler tests, and its fields.
-/

set_option autoImplicit false
set_option relaxedAutoImplicit false

namespace Emu68.DataAbort

open A64 Lib

inductive Direction where
  | store
  | load
  | signed
deriving DecidableEq

def Kind.direction (kind : Kind) : Direction :=
  if kind.isStore then .store else if kind.signed.isSome then .signed else .load

/-- The form of the address. -/
inductive Form where
  | scaled
  | unscaled
  | postindex
  | preindex
  | regoffset
deriving DecidableEq

def Mode.form : Mode → Form
  | .scaled _ => .scaled
  | .unscaled _ => .unscaled
  | .postindex _ => .postindex
  | .preindex _ => .preindex
  | .regoffset _ _ _ => .regoffset

/-- The bits that the form and the direction have. -/
def Form.base : Direction → Form → Word
  | .store, .scaled => 0x39000000
  | .load, .scaled => 0x39400000
  | .signed, .scaled => 0x39800000
  | .store, .unscaled => 0x38000000
  | .load, .unscaled => 0x38400000
  | .signed, .unscaled => 0x38800000
  | .store, .postindex => 0x38000400
  | .load, .postindex => 0x38400400
  | .signed, .postindex => 0x38800400
  | .store, .preindex => 0x38000c00
  | .load, .preindex => 0x38400c00
  | .signed, .preindex => 0x38800c00
  | .store, .regoffset => 0x38200800
  | .load, .regoffset => 0x38600800
  | .signed, .regoffset => 0x38a00800

/-- The width of the access and of the register. -/
def Kind.top (kind : Kind) : Word :=
  place 30 (BitVec.ofNat 2 kind.log) ||| place 22 (BitVec.ofBool (kind.signed = some 32))

def Mode.rest (log : ℕ) : Mode → Word
  | .scaled offset => place 10 ((offset >>> log).setWidth 12)
  | .unscaled offset9 | .postindex offset9 | .preindex offset9 => place 12 (offset9.setWidth 9)
  | .regoffset rm ext lsl =>
    place 16 rm ||| place 12 (BitVec.ofBool (if log = 0 then false else lsl)) ||| place 13 ext.code

variable {kind : Kind} {mode : Mode} {rn rt : Reg}

/-- The opcode of an access of one register. -/
def opcode (kind : Kind) (mode : Mode) (rn rt : Reg) : Word :=
  mode.form.base kind.direction |||
    (kind.top ||| (place 0 rt ||| place 5 rn ||| mode.rest kind.log))

theorem or_split {insn base top x : Word} (h : insn = base ||| top) :
    insn ||| x = base ||| (top ||| x) := by
  rw [h, BitVec.or_assoc]

theorem kind_code (kind : Kind) (mode : Mode) (rn rt : Reg) :
    I32 (kind.code rn rt mode) = opcode kind mode rn rt := by
  cases mode with
  | scaled offset =>
    cases kind <;> exact (I32_I32 _).trans
      (or_split (show _ = Form.base (Kind.direction _) .scaled ||| Kind.top _ by decide))
  | unscaled offset9 =>
    cases kind <;> exact (I32_I32 _).trans
      (or_split (show _ = Form.base (Kind.direction _) .unscaled ||| Kind.top _ by decide))
  | postindex offset9 =>
    cases kind <;> exact (I32_I32 _).trans
      (or_split (show _ = Form.base (Kind.direction _) .postindex ||| Kind.top _ by decide))
  | preindex offset9 =>
    cases kind <;> exact (I32_I32 _).trans
      (or_split (show _ = Form.base (Kind.direction _) .preindex ||| Kind.top _ by decide))
  | regoffset rm ext lsl =>
    cases kind <;> exact (I32_I32 _).trans
      (or_split (show _ = Form.base (Kind.direction _) .regoffset ||| Kind.top _ by decide))

theorem within_base (direction : Direction) (form : Form) :
    Within 0x3ffffc00 (form.base direction) := by
  cases direction <;> cases form <;> exact rfl

theorem within_rest (log : ℕ) (mode : Mode) : Within 0x3ffc00 (mode.rest log) := by
  cases mode with
  | scaled offset => exact within_place _ rfl
  | regoffset rm ext lsl =>
    refine Within.or (Within.or ?_ ?_) ?_ <;> exact within_place _ rfl
  | _ => exact within_place _ rfl

theorem extract_place_top {q k : ℕ} (h : 31 ≥ q + k) (hq : q + k ≤ 22 ∨ 23 ≤ q ∧ q + k ≤ 30) :
    kind.top.extractLsb' q k = 0#k := by
  unfold Kind.top
  rw [extract_or, extract_place_apart _ (by omega) (by omega),
    extract_place_apart _ (by omega) (by omega), BitVec.or_zero]

/-- The registers. -/
theorem regNr_rt : regNr (opcode kind mode rn rt) 0 = rt := by
  rw [regNr_eq]
  unfold opcode
  rw [extract_or, extract_or, extract_or, extract_or, (within_base _ _).extract rfl,
    extract_place_top (by decide) (by decide), extract_place rt (by decide),
    extract_place_apart rn (by decide) (by decide), (within_rest _ _).extract rfl]
  simp only [BitVec.zero_or, BitVec.or_zero]

theorem regNr_rn : regNr (opcode kind mode rn rt) 5 = rn := by
  rw [regNr_eq]
  unfold opcode
  rw [extract_or, extract_or, extract_or, extract_or, (within_base _ _).extract rfl,
    extract_place_top (by decide) (by decide), extract_place rn (by decide),
    extract_place_apart rt (by decide) (by decide), (within_rest _ _).extract rfl]
  simp only [BitVec.zero_or, BitVec.or_zero]

theorem getOPsize_opcode : getOPsize (opcode kind mode rn rt) = kind.bytes := by
  rw [getOPsize_eq]
  unfold opcode Kind.top
  rw [extract_or, extract_or, extract_or, extract_or, extract_or, (within_base _ _).extract rfl,
    extract_place _ (by decide), extract_place_apart _ (by decide) (by decide),
    extract_place_apart rt (by decide) (by decide), extract_place_apart rn (by decide) (by decide),
    (within_rest _ _).extract rfl]
  simp only [BitVec.zero_or, BitVec.or_zero]
  cases kind <;> rfl

/-- The fields of the form. -/
theorem extract_opcode {q k : ℕ} (hq : 10 ≤ q) (hk : q + k ≤ 22)
    (hbase : (mode.form.base kind.direction).extractLsb' q k = 0#k) :
    (opcode kind mode rn rt).extractLsb' q k = (mode.rest kind.log).extractLsb' q k := by
  unfold opcode
  rw [extract_or, extract_or, extract_or, extract_or, hbase, extract_place_top (by omega) (.inl hk),
    extract_place_apart rt (.inl (by omega)) (by omega),
    extract_place_apart rn (.inl (by omega)) (by omega)]
  simp only [BitVec.zero_or]

/-- The sign is extended to 64 bits unless bit 22 is set. -/
theorem sext64_opcode (h : kind.direction = .signed) :
    (opcode kind mode rn rt &&& 0x400000 == 0) = !decide (kind.signed = some 32) := by
  have hextract : (opcode kind mode rn rt).extractLsb' 22 1 =
      BitVec.ofBool (kind.signed = some 32) := by
    have hbase : (mode.form.base .signed).extractLsb' 22 1 = 0#1 := by
      cases mode.form <;> rfl
    unfold opcode Kind.top
    rw [extract_or, extract_or, extract_or, extract_or, extract_or, h, hbase,
      extract_place_apart _ (by decide) (by decide), extract_place _ (by decide),
      extract_place_apart rt (by decide) (by decide),
      extract_place_apart rn (by decide) (by decide),
      (within_rest _ _).extract rfl]
    simp only [BitVec.zero_or, BitVec.or_zero]
  rw [← getLsbD_eq_extract] at hextract
  replace hextract := congrArg (BitVec.getLsbD · 0) hextract
  simp only [BitVec.getLsbD_ofBool, decide_true, Bool.true_and] at hextract
  have hbit : opcode kind mode rn rt &&& 0x400000 = 0 ↔
      (opcode kind mode rn rt).getLsbD 22 = false := and_bit _ (by decide : 22 < 32)
  rw [← hextract]
  cases hset : (opcode kind mode rn rt).getLsbD 22 with
  | true => exact beq_false_of_ne fun heq ↦ Bool.false_ne_true ((hbit.mp heq).symm.trans hset)
  | false => exact beq_iff_eq.mpr (hbit.mpr hset)

/-- The bits that a form leaves to the fields. -/
def Form.fields : Direction → Form → Word
  | .signed, .scaled => 0xc07fffff
  | _, .scaled => 0xc03fffff
  | .signed, _ => 0xc05ff3ff
  | _, _ => 0xc01ff3ff

theorem within_fields : Within (mode.form.fields kind.direction)
    (kind.top ||| (place 0 rt ||| place 5 rn ||| mode.rest kind.log)) := by
  have htop : ∀ form : Form, Within (form.fields kind.direction) kind.top := by
    unfold Within
    cases kind <;> intro form <;> cases form <;> decide
  have hregisters : ∀ (form : Form) (direction : Direction),
      Within (form.fields direction) (place 0 rt ||| place 5 rn) := by
    intro form direction
    cases form <;> cases direction <;> refine Within.or ?_ ?_ <;> exact within_place _ rfl
  refine (htop _).or ((hregisters _ _).or ?_)
  cases mode with
  | scaled offset =>
    show Within (Form.fields _ .scaled) _
    cases kind.direction <;> exact within_place _ rfl
  | regoffset rm ext lsl =>
    show Within (Form.fields _ .regoffset) _
    cases kind.direction <;> refine Within.or (Within.or ?_ ?_) ?_ <;> exact within_place _ rfl
  | unscaled offset9 =>
    show Within (Form.fields _ .unscaled) _
    cases kind.direction <;> exact within_place _ rfl
  | postindex offset9 =>
    show Within (Form.fields _ .postindex) _
    cases kind.direction <;> exact within_place _ rfl
  | preindex offset9 =>
    show Within (Form.fields _ .preindex) _
    cases kind.direction <;> exact within_place _ rfl

/-- The tests of the opcode that no field takes part in. -/
theorem test_opcode {form : Form} (hform : mode.form = form) {direction : Direction}
    (hdir : kind.direction = direction) (mask value : Word)
    (hmask : mask &&& form.fields direction = 0) (hbase : form.base direction &&& mask = value) :
    opcode kind mode rn rt &&& mask = value := by
  subst hform hdir hbase
  exact within_fields.test hmask

theorem test_opcode_ne {form : Form} (hform : mode.form = form) {direction : Direction}
    (hdir : kind.direction = direction) (mask value : Word)
    (hfails : form.base direction &&& mask &&& ~~~form.fields direction ≠
      value &&& ~~~form.fields direction) : opcode kind mode rn rt &&& mask ≠ value := by
  subst hform hdir
  exact within_fields.test_ne hfails

end Emu68.DataAbort
