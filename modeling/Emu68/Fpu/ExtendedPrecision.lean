import Emu68.Lib.AddressSpace
import Emu68.Lib.BitFields

/-!
Doubles in the extended format of the 68881 (`math/96bit.c`): `Load96bit` and `Store96bit`. The
numbers of both formats are counted in units of 2 ^ -16446, the least positive extended number.
-/

set_option autoImplicit false
set_option relaxedAutoImplicit false

namespace Emu68.Fpu

open Lib

/-! ### The code -/

def load96bit (m : Bytes) (base : BitVec 64) : BitVec 64 :=
  let exp := BitVec.ofNat 16 (load m base 2)
  let mant := BitVec.ofNat 64 (load m (base + 4) 8)
  if exp &&& 0x7fff = 0 ∧ mant = 0 then exp.setWidth 64 <<< 48
  else if exp &&& 0x7fff = 0x7fff ∧ mant &&& 0x7fffffffffffffff = 0 then
    (exp.setWidth 64 <<< 48) &&& 0xfff0000000000000
  else if exp &&& 0x7fff = 0x7fff ∧ mant ≠ 0 then (exp.setWidth 64 <<< 48) ||| 0xffffffffffff
  else
    let ret : BitVec 64 := if exp &&& 0x8000 ≠ 0 then 0x8000000000000000 else 0
    let exp := ((exp &&& 0x7fff) - 0x3fff + 0x3ff) &&& 0x7ff
    ret ||| (exp.setWidth 64 <<< 52) ||| ((mant >>> 11) &&& 0xfffffffffffff)

def store96bit (m : Bytes) (value base : BitVec 64) : Bytes :=
  let exp : BitVec 32 := ((value &&& 0x8000000000000000) >>> 32).setWidth 32
  let mant : BitVec 64 := 0x8000000000000000
  if value &&& 0x7fffffffffffffff = 0 then
    store (store m base 8 value.toNat) (base + 8) 4 0
  else if value &&& 0x7fffffffffffffff = 0x7ff0000000000000 then
    store (store m base 8 (value ||| 0x000f000000000000).toNat) (base + 8) 4 0
  else if value &&& 0x7ff0000000000000 = 0x7ff0000000000000 ∧ value &&& 0x000fffffffffffff ≠ 0 then
    store (store m base 4 ((((value >>> 32) ||| 0x000f0000) &&& 0xffff0000).setWidth 32).toNat)
      (base + 4) 8 0xffffffffffffffff
  else
    let exp := exp ||| ((((value >>> 52) &&& 0x7ff) - 0x3ff + 0x3fff) <<< 16).setWidth 32
    let mant := mant ||| ((value &&& 0x000fffffffffffff) <<< 11)
    store (store m base 4 exp.toNat) (base + 4) 8 mant.toNat

/-! ### Doubles -/

def expo (v : BitVec 64) : ℕ := v.toNat / 2 ^ 52 % 2 ^ 11

def frac (v : BitVec 64) : ℕ := v.toNat % 2 ^ 52

def IsNaN (v : BitVec 64) : Prop := expo v = 2047 ∧ frac v ≠ 0

def IsInfinite (v : BitVec 64) : Prop := expo v = 2047 ∧ frac v = 0

def IsSubnormal (v : BitVec 64) : Prop := expo v = 0 ∧ frac v ≠ 0

/-- The absolute value of a finite double. -/
def magnitude (v : BitVec 64) : ℕ :=
  if expo v = 0 then frac v * 2 ^ 15372 else (2 ^ 52 + frac v) * 2 ^ (expo v + 15371)

/-- The greatest finite double and the least normal one. -/
def greatest : ℕ := (2 ^ 53 - 1) * 2 ^ 17417

def leastNormal : ℕ := 2 ^ 15424

/-! ### Extended numbers -/

structure Extended where
  word : BitVec 16
  mant : BitVec 64
deriving DecidableEq

namespace Extended

variable (x : Extended)

def exponent : ℕ := x.word.toNat % 2 ^ 15

def IsNaN : Prop := x.exponent = 0x7fff ∧ x.mant.toNat % 2 ^ 63 ≠ 0

def IsInfinite : Prop := x.exponent = 0x7fff ∧ x.mant.toNat % 2 ^ 63 = 0

def IsFinite : Prop := x.exponent < 0x7fff

/-- The absolute value of a finite number. Its integer bit may be clear. -/
def magnitude : ℕ := x.mant.toNat * 2 ^ x.exponent

/-- The same number as a double. -/
structure Denotes (v : BitVec 64) : Prop where
  sign : x.word.msb = v.msb
  infinite : x.IsInfinite ↔ Fpu.IsInfinite v
  finite : x.IsFinite ↔ expo v < 2047
  magnitude : x.IsFinite → x.magnitude = Fpu.magnitude v

/-- A double on the correct side of a finite number. -/
structure RoundsTo (v : BitVec 64) : Prop where
  sign : v.msb = x.word.msb
  above : greatest < x.magnitude → Fpu.IsInfinite v ∨ expo v = 2046 ∧ frac v = 2 ^ 52 - 1
  below : x.magnitude < leastNormal → expo v = 0
  inside : leastNormal ≤ x.magnitude → x.magnitude ≤ greatest →
    1 ≤ expo v ∧ expo v ≤ 2046 ∧ (2 ^ 52 + frac v) * 2 ^ (expo v + 15371) ≤ x.magnitude ∧
      x.magnitude < (2 ^ 52 + frac v + 1) * 2 ^ (expo v + 15371)

/-- When the masks and shifts are right: a number that is out of range happens to become what it
should, and one in the range has its integer bit set. -/
structure Loadable : Prop where
  above : greatest < x.magnitude →
    x.exponent % 2048 = 0x3ff ∧ x.mant.toNat % 2 ^ 63 / 2 ^ 11 = 0 ∨
      x.exponent % 2048 = 0x3fe ∧ x.mant.toNat % 2 ^ 63 / 2 ^ 11 = 2 ^ 52 - 1
  below : x.magnitude < leastNormal →
    x.exponent % 2048 = 0x400 ∨ x.exponent = 0 ∧ x.mant.toNat = 0
  inside : leastNormal ≤ x.magnitude → x.magnitude ≤ greatest → 2 ^ 63 ≤ x.mant.toNat

end Extended

/-- The number in the 12 bytes at an address. -/
def extendedAt (m : Bytes) (base : BitVec 64) : Extended :=
  ⟨BitVec.ofNat 16 (load m base 2), BitVec.ofNat 64 (load m (base + 4) 8)⟩

/-- Both conversions do what they are for. -/
structure ConversionsRight (m : Bytes) (base v : BitVec 64) : Prop where
  roundTrip : ¬ IsNaN v → load96bit (store96bit m v base) base = v
  denotes : ¬ IsNaN v → (extendedAt (store96bit m v base) base).Denotes v
  storeNaN : IsNaN v → (extendedAt (store96bit m v base) base).IsNaN ∧
    (extendedAt (store96bit m v base) base).word.msb = v.msb
  loadNaN : (extendedAt m base).IsNaN → IsNaN (load96bit m base) ∧
    (load96bit m base).msb = (extendedAt m base).word.msb
  load : (extendedAt m base).IsFinite → (extendedAt m base).RoundsTo (load96bit m base)

variable {m : Bytes} {base v : BitVec 64} {x : Extended}

/-! ### The fields of a loaded double -/

theorem msb_iff_word (y : BitVec 16) : y.msb = true ↔ 2 ^ 15 ≤ y.toNat := by
  rw [BitVec.msb_eq_decide, decide_eq_true_iff]

theorem msb_iff (v : BitVec 64) : v.msb = true ↔ 2 ^ 63 ≤ v.toNat := by
  rw [BitVec.msb_eq_decide, decide_eq_true_iff]

theorem toNat_eq (v : BitVec 64) :
    v.toNat = (if v.msb then 2 ^ 63 else 0) + expo v * 2 ^ 52 + frac v := by
  have hv := v.isLt
  have hmsb := msb_iff v
  unfold expo frac
  split_ifs with h
  · have := hmsb.mp h
    omega
  · have := mt hmsb.mpr h
    omega

theorem eq_of_fields {v v' : BitVec 64} (hsign : v.msb = v'.msb) (hexpo : expo v = expo v')
    (hfrac : frac v = frac v') : v = v' := by
  refine BitVec.eq_of_toNat_eq ?_
  rw [toNat_eq v, toNat_eq v', hsign, hexpo, hfrac]

/-- The fields of a double that is put together from them. -/
theorem fields_of_toNat {s : Bool} {e f : ℕ}
    (hv : v.toNat = (if s then 2 ^ 63 else 0) + e * 2 ^ 52 + f) (he : e < 2048) (hf : f < 2 ^ 52) :
    v.msb = s ∧ expo v = e ∧ frac v = f := by
  have hmsb := msb_iff v
  refine ⟨?_, ?_, ?_⟩
  · cases s with
    | true => exact hmsb.mpr (by rw [hv, if_pos rfl]; omega)
    | false =>
      refine Bool.eq_false_iff.mpr fun htrue ↦ ?_
      have hle := hmsb.mp htrue
      rw [hv, if_neg (by decide)] at hle
      omega
  · unfold expo
    rw [hv]
    split_ifs <;> omega
  · unfold frac
    rw [hv]
    split_ifs <;> omega

theorem and_exponent (y : BitVec 16) : (y &&& 0x7fff).toNat = y.toNat % 2 ^ 15 := by
  rw [toNat_and_field 0 15 (by decide), field]
  omega

theorem and_sign (y : BitVec 16) : y &&& 0x8000 ≠ 0 ↔ y.msb = true := by
  have hand : (y &&& 0x8000).toNat = y.toNat / 2 ^ 15 % 2 ^ 1 * 2 ^ 15 :=
    toNat_and_field 15 1 (by decide) y
  have hy := y.isLt
  rw [msb_iff_word, Ne, ← BitVec.toNat_inj, hand]
  show ¬ _ = 0 ↔ _
  omega

/-- The exponent is taken modulo 2048. -/
theorem rebiased (y : BitVec 16) :
    (((y &&& 0x7fff) - 0x3fff + 0x3ff) &&& 0x7ff).toNat = (y.toNat % 2 ^ 15 + 0x400) % 2048 := by
  have hbias : (0x3fff : BitVec 16).toNat = 0x3fff := rfl
  have hbias' : (0x3ff : BitVec 16).toNat = 0x3ff := rfl
  rw [toNat_and_field 0 11 (by decide), field, BitVec.toNat_add, BitVec.toNat_sub, and_exponent,
    hbias, hbias']
  omega

/-- What `load96bit` makes of a number that is neither zero nor infinite. -/
theorem toNat_loaded (y : BitVec 16) (mant : BitVec 64) :
    (((if y &&& 0x8000 ≠ 0 then (0x8000000000000000 : BitVec 64) else 0) |||
        (((((y &&& 0x7fff) - 0x3fff + 0x3ff) &&& 0x7ff).setWidth 64) <<< 52)) |||
        ((mant >>> 11) &&& 0xfffffffffffff)).toNat =
      (if y.msb then 2 ^ 63 else 0) + (y.toNat % 2 ^ 15 + 0x400) % 2048 * 2 ^ 52 +
        mant.toNat / 2 ^ 11 % 2 ^ 52 := by
  have hexp : (((((y &&& 0x7fff) - 0x3fff + 0x3ff) &&& 0x7ff).setWidth 64) <<< 52 :
      BitVec 64).toNat = (y.toNat % 2 ^ 15 + 0x400) % 2048 * 2 ^ 52 := by
    rw [BitVec.toNat_shiftLeft, BitVec.toNat_setWidth, rebiased, Nat.shiftLeft_eq]
    omega
  have hmant : ((mant >>> 11) &&& 0xfffffffffffff).toNat = mant.toNat / 2 ^ 11 % 2 ^ 52 := by
    rw [toNat_and_field 0 52 (by decide), field, BitVec.toNat_ushiftRight,
      Nat.shiftRight_eq_div_pow, pow_zero, Nat.div_one, Nat.mul_one]
  have hsign : (if y &&& 0x8000 ≠ 0 then (0x8000000000000000 : BitVec 64) else 0).toNat =
      if y.msb then 2 ^ 63 else 0 := by
    split_ifs with hand hmsb hmsb
    · rfl
    · exact absurd ((and_sign y).mp hand) hmsb
    · exact absurd ((and_sign y).mpr hmsb) hand
    · rfl
  have hupper : ((if y &&& 0x8000 ≠ 0 then (0x8000000000000000 : BitVec 64) else 0) |||
      (((((y &&& 0x7fff) - 0x3fff + 0x3ff) &&& 0x7ff).setWidth 64) <<< 52)).toNat =
      (if y.msb then 2 ^ 63 else 0) + (y.toNat % 2 ^ 15 + 0x400) % 2048 * 2 ^ 52 := by
    have hdvd : 2 ^ 63 ∣ if y.msb then 2 ^ 63 else 0 := by
      split_ifs
      · exact dvd_rfl
      · exact dvd_zero _
    rw [toNat_or_eq_add (k := 63) (by rwa [hsign]) (by rw [hexp]; omega), hsign, hexp]
  rw [toNat_or_eq_add (k := 52) (by rw [hupper]; split_ifs <;> omega) (by rw [hmant]; omega),
    hupper, hmant]

theorem exponent_eq (x : Extended) (k : BitVec 16) :
    x.word &&& 0x7fff = k ↔ x.exponent = k.toNat := by
  rw [← BitVec.toNat_inj, and_exponent]
  rfl

theorem mant_eq_zero (mant : BitVec 64) :
    mant &&& 0x7fffffffffffffff = 0 ↔ mant.toNat % 2 ^ 63 = 0 := by
  rw [← BitVec.toNat_inj, toNat_and_field 0 63 (by decide), field, pow_zero, Nat.div_one,
    Nat.mul_one]
  rfl

/-- The sign and the exponent of all ones, with a fraction. -/
theorem fields_special (y : BitVec 16) (hy : y.toNat % 2 ^ 15 = 0x7fff) :
    (y.setWidth 64 <<< 48 : BitVec 64).toNat =
      (if y.msb then 2 ^ 63 else 0) + 2047 * 2 ^ 52 + 15 * 2 ^ 48 := by
  have hmsb := msb_iff_word y
  have hlt := y.isLt
  rw [BitVec.toNat_shiftLeft, BitVec.toNat_setWidth, Nat.shiftLeft_eq]
  split_ifs with h
  · have := hmsb.mp h
    omega
  · have := mt hmsb.mpr h
    omega

theorem load96bit_finite (hx : extendedAt m base = x) (hfinite : x.IsFinite) :
    (load96bit m base).msb = x.word.msb ∧
      (x.exponent = 0 ∧ x.mant.toNat = 0 ∧ expo (load96bit m base) = 0 ∧
          frac (load96bit m base) = 0 ∨
        ¬ (x.exponent = 0 ∧ x.mant.toNat = 0) ∧
          expo (load96bit m base) = (x.exponent + 0x400) % 2048 ∧
          frac (load96bit m base) = x.mant.toNat / 2 ^ 11 % 2 ^ 52) := by
  subst hx
  set x := extendedAt m base with hx
  have hne : ¬ x.word &&& 0x7fff = 0x7fff := fun heq ↦ by
    have hexp : x.exponent = 0x7fff := (exponent_eq x _).mp heq
    exact absurd hexp (Nat.ne_of_lt hfinite)
  by_cases hzero : x.word &&& 0x7fff = 0 ∧ x.mant = 0
  · have hexp : x.exponent = 0 := (exponent_eq x 0).mp hzero.1
    have hmant : x.mant.toNat = 0 := congrArg BitVec.toNat hzero.2
    have hload : load96bit m base = x.word.setWidth 64 <<< 48 := if_pos hzero
    have hnat : (load96bit m base).toNat = (if x.word.msb then 2 ^ 63 else 0) + 0 * 2 ^ 52 + 0 := by
      have hmsb := msb_iff_word x.word
      have hlt := x.word.isLt
      have hlow : x.word.toNat % 2 ^ 15 = 0 := hexp
      rw [hload, BitVec.toNat_shiftLeft, BitVec.toNat_setWidth, Nat.shiftLeft_eq]
      split_ifs with h
      · have := hmsb.mp h
        omega
      · have := mt hmsb.mpr h
        omega
    obtain ⟨hsign, hexpo, hfrac⟩ := fields_of_toNat hnat (by decide) (by decide)
    exact ⟨hsign, .inl ⟨hexp, hmant, hexpo, hfrac⟩⟩
  · have hload : load96bit m base = _ :=
      (if_neg hzero).trans ((if_neg fun h ↦ hne h.1).trans (if_neg fun h ↦ hne h.1))
    have hnat := (congrArg BitVec.toNat hload).trans (toNat_loaded x.word x.mant)
    obtain ⟨hsign, hexpo, hfrac⟩ := fields_of_toNat hnat (by omega) (by omega)
    refine ⟨hsign, .inr ⟨fun ⟨hexp, hmant⟩ ↦ hzero ⟨(exponent_eq x 0).mpr hexp, ?_⟩, hexpo, hfrac⟩⟩
    exact BitVec.eq_of_toNat_eq hmant

theorem load96bit_infinite (hx : extendedAt m base = x) (hinfinite : x.IsInfinite) :
    (load96bit m base).msb = x.word.msb ∧ IsInfinite (load96bit m base) := by
  subst hx
  set x := extendedAt m base with hx
  have hexp : x.word &&& 0x7fff = 0x7fff := (exponent_eq x _).mpr hinfinite.1
  have hne : ¬ x.word &&& 0x7fff = 0 := fun heq ↦ by rw [hexp] at heq; cases heq
  have hload : load96bit m base = (x.word.setWidth 64 <<< 48) &&& 0xfff0000000000000 :=
    (if_neg fun h ↦ hne h.1).trans (if_pos ⟨hexp, (mant_eq_zero _).mpr hinfinite.2⟩)
  have hnat : (load96bit m base).toNat =
      (if x.word.msb then 2 ^ 63 else 0) + 2047 * 2 ^ 52 + 0 := by
    rw [hload, toNat_and_field 52 12 (by decide), fields_special x.word hinfinite.1, field]
    split_ifs <;> omega
  obtain ⟨hsign, hexpo, hfrac⟩ := fields_of_toNat hnat (by decide) (by decide)
  exact ⟨hsign, hexpo, hfrac⟩

theorem load96bit_nan (hx : extendedAt m base = x) (hnan : x.IsNaN) :
    (load96bit m base).msb = x.word.msb ∧ IsNaN (load96bit m base) := by
  subst hx
  set x := extendedAt m base with hx
  have hexp : x.word &&& 0x7fff = 0x7fff := (exponent_eq x _).mpr hnan.1
  have hne : ¬ x.word &&& 0x7fff = 0 := fun heq ↦ by rw [hexp] at heq; cases heq
  have hmant : ¬ x.mant &&& 0x7fffffffffffffff = 0 := mt (mant_eq_zero _).mp hnan.2
  have hmant' : x.mant ≠ 0 := fun hzero ↦ hmant (by rw [hzero]; decide)
  have hload : load96bit m base = (x.word.setWidth 64 <<< 48) ||| 0xffffffffffff :=
    (if_neg fun h ↦ hne h.1).trans ((if_neg fun h ↦ hmant h.2).trans (if_pos ⟨hexp, hmant'⟩))
  have hnat : (load96bit m base).toNat =
      (if x.word.msb then 2 ^ 63 else 0) + 2047 * 2 ^ 52 + (2 ^ 52 - 1) := by
    rw [hload, toNat_or_eq_add (k := 48) (by rw [fields_special x.word hnan.1]; split_ifs <;> omega)
      (by decide), fields_special x.word hnan.1]
    have hlow : (0xffffffffffff : BitVec 64).toNat = 2 ^ 48 - 1 := rfl
    rw [hlow]
    omega
  obtain ⟨hsign, hexpo, hfrac⟩ := fields_of_toNat hnat (by decide) (by decide)
  exact ⟨hsign, hexpo, by rw [hfrac]; decide⟩

/-! ### Numbers in and out of range -/

theorem leastNormal_pos : 0 < leastNormal := by
  exact Nat.two_pow_pos _

theorem mul_two_pow_le {a b j k : ℕ} (hle : a * 2 ^ j ≤ b * 2 ^ k) (hjk : k ≤ j) :
    a * 2 ^ (j - k) ≤ b := by
  have hsplit : a * 2 ^ j = a * 2 ^ (j - k) * 2 ^ k := by
    rw [Nat.mul_assoc, ← pow_add, Nat.sub_add_cancel hjk]
  rw [hsplit] at hle
  exact Nat.le_of_mul_le_mul_right hle (Nat.two_pow_pos k)

/-- The exponent of a number in the range of the doubles. -/
theorem exponent_of_inside (hlow : leastNormal ≤ x.magnitude) (hhigh : x.magnitude ≤ greatest) :
    15361 ≤ x.exponent ∧ x.exponent < 17470 ∧
      (2 ^ 63 ≤ x.mant.toNat → x.exponent ≤ 17406) := by
  have hmant := x.mant.isLt
  have hlow' : 1 * 2 ^ 15424 ≤ x.mant.toNat * 2 ^ x.exponent := by
    rw [Nat.one_mul]
    exact hlow
  have hpos : 0 < x.mant.toNat := by
    refine Nat.pos_of_ne_zero fun hzero ↦ ?_
    rw [Extended.magnitude, hzero, Nat.zero_mul] at hlow
    exact absurd hlow (Nat.not_le.mpr leastNormal_pos)
  have hhigh' : x.mant.toNat * 2 ^ x.exponent ≤ (2 ^ 53 - 1) * 2 ^ 17417 := hhigh
  refine ⟨?_, ?_, fun hbit ↦ ?_⟩
  · by_contra hlt
    have hsmall := mul_two_pow_le hlow' (by omega)
    have hmono : 2 ^ 64 ≤ 2 ^ (15424 - x.exponent) := Nat.pow_le_pow_right (by decide) (by omega)
    omega
  · by_contra hge
    have hlarge := mul_two_pow_le hhigh' (by omega)
    have hmono : 2 ^ 53 ≤ 2 ^ (x.exponent - 17417) := Nat.pow_le_pow_right (by decide) (by omega)
    have hle : 1 * 2 ^ (x.exponent - 17417) ≤ x.mant.toNat * 2 ^ (x.exponent - 17417) :=
      Nat.mul_le_mul_right _ hpos
    omega
  · by_contra hge
    have hpow : 2 ^ 17417 ≤ 2 ^ (10 + x.exponent) :=
      Nat.pow_le_pow_right (by decide) (by omega)
    rw [pow_add] at hpow
    have hle : 2 ^ 63 * 2 ^ x.exponent ≤ x.mant.toNat * 2 ^ x.exponent :=
      Nat.mul_le_mul_right _ hbit
    have hmax : (2 ^ 53 - 1) * 2 ^ 17417 ≤ (2 ^ 53 - 1) * (2 ^ 10 * 2 ^ x.exponent) :=
      Nat.mul_le_mul_left _ hpow
    have hpos := Nat.two_pow_pos x.exponent
    generalize 2 ^ 17417 = k at hhigh' hmax
    generalize 2 ^ x.exponent = l at hle hmax hpos hhigh'
    omega

/-- With its integer bit a number is cut to 53 bits. -/
theorem truncated {e f : ℕ} (hbit : 2 ^ 63 ≤ x.mant.toNat) (he : e + 15360 = x.exponent)
    (hf : f = x.mant.toNat / 2 ^ 11 % 2 ^ 52) :
    (2 ^ 52 + f) * 2 ^ (e + 15371) ≤ x.magnitude ∧
      x.magnitude < (2 ^ 52 + f + 1) * 2 ^ (e + 15371) := by
  have hmant := x.mant.isLt
  have hpow : 2 ^ (e + 15371) = 2 ^ 11 * 2 ^ x.exponent := by
    rw [← he, ← pow_add]
    exact congrArg (2 ^ ·) (by omega)
  rw [hpow, ← Nat.mul_assoc, ← Nat.mul_assoc]
  exact ⟨Nat.mul_le_mul_right _ (by omega),
    Nat.mul_lt_mul_of_pos_right (by omega) (Nat.two_pow_pos _)⟩

/-- Without it the result is another number, since the exponent is not that of the first digit. -/
theorem not_truncated {e f : ℕ} (hbit : x.mant.toNat < 2 ^ 63)
    (hlow : leastNormal ≤ x.magnitude) (hhigh : x.magnitude ≤ greatest)
    (he : e = (x.exponent + 0x400) % 2048) :
    ¬ ((2 ^ 52 + f) * 2 ^ (e + 15371) ≤ x.magnitude ∧
      x.magnitude < (2 ^ 52 + f + 1) * 2 ^ (e + 15371) ∧ f < 2 ^ 52) := by
  obtain ⟨hexp, hexp', -⟩ := exponent_of_inside hlow hhigh
  have hright : x.exponent < 15360 + 2048 → e + 15371 = 11 + x.exponent := by omega
  have hwrapped : 15360 + 2048 ≤ x.exponent → 53 + (e + 15371) ≤ x.exponent := by omega
  rintro ⟨hle, hlt, hf⟩
  rcases Nat.lt_or_ge x.exponent (15360 + 2048) with hsmall | hlarge
  · -- the exponent is the right one for a number whose integer bit is set
    rw [hright hsmall, pow_add, ← Nat.mul_assoc] at hle
    have hle' := Nat.le_of_mul_le_mul_right hle (Nat.two_pow_pos x.exponent)
    omega
  · -- it is 2048 too small
    have hpow : 2 ^ 53 * 2 ^ (e + 15371) ≤ 2 ^ x.exponent := by
      rw [← pow_add]
      exact Nat.pow_le_pow_right (by decide) (hwrapped hlarge)
    have hpos : 0 < x.mant.toNat := by
      refine Nat.pos_of_ne_zero fun hzero ↦ ?_
      rw [Extended.magnitude, hzero, Nat.zero_mul] at hlow
      exact absurd hlow (Nat.not_le.mpr leastNormal_pos)
    have hbelow : (2 ^ 52 + f + 1) * 2 ^ (e + 15371) ≤ 2 ^ 53 * 2 ^ (e + 15371) :=
      Nat.mul_le_mul_right _ (by omega)
    have habove : 2 ^ x.exponent ≤ x.magnitude := Nat.le_mul_of_pos_left _ hpos
    exact absurd (hlt.trans_le ((hbelow.trans hpow).trans habove)) (lt_irrefl _)

theorem roundsTo_iff (hx : extendedAt m base = x) (hfinite : x.IsFinite) :
    x.RoundsTo (load96bit m base) ↔ x.Loadable := by
  obtain ⟨hsign, hfields⟩ := load96bit_finite hx hfinite
  set v := load96bit m base
  have hfrac : frac v < 2 ^ 52 := Nat.mod_lt _ (Nat.two_pow_pos _)
  rcases hfields with ⟨hexp, hmant, he, hf⟩ | ⟨hne, he, hf⟩
  · -- zero is below the range
    have hzero : x.magnitude = 0 := by rw [Extended.magnitude, hmant, Nat.zero_mul]
    have habove : ¬ greatest < x.magnitude := by rw [hzero]; exact Nat.not_lt_zero _
    have hinside : ¬ leastNormal ≤ x.magnitude := by
      rw [hzero]
      exact Nat.not_le.mpr leastNormal_pos
    exact ⟨fun _ ↦ ⟨fun h ↦ absurd h habove, fun _ ↦ .inr ⟨hexp, hmant⟩, fun h ↦ absurd h hinside⟩,
      fun _ ↦ ⟨hsign, fun h ↦ absurd h habove, fun _ ↦ he, fun h ↦ absurd h hinside⟩⟩
  · have hmod : x.mant.toNat % 2 ^ 63 / 2 ^ 11 = frac v := by omega
    constructor
    · rintro ⟨-, habove, hbelow, hinside⟩
      refine ⟨fun h ↦ ?_, fun h ↦ ?_, fun hlow hhigh ↦ ?_⟩
      · rw [hmod]
        rcases habove h with ⟨he', hf'⟩ | ⟨he', hf'⟩
        · exact .inl ⟨by omega, hf'⟩
        · exact .inr ⟨by omega, hf'⟩
      · have hzero := hbelow h
        exact .inl (by omega)
      · obtain ⟨-, -, hle, hlt⟩ := hinside hlow hhigh
        by_contra hbit
        exact not_truncated (Nat.lt_of_not_le hbit) hlow hhigh he ⟨hle, hlt, hfrac⟩
    · rintro ⟨habove, hbelow, hinside⟩
      refine ⟨hsign, fun h ↦ ?_, fun h ↦ ?_, fun hlow hhigh ↦ ?_⟩
      · have hcases := habove h
        rw [hmod] at hcases
        rcases hcases with ⟨he', hf'⟩ | ⟨he', hf'⟩
        · exact .inl ⟨by omega, hf'⟩
        · exact .inr ⟨by omega, hf'⟩
      · rcases hbelow h with he' | hzero
        · omega
        · exact absurd hzero hne
      · have hbit := hinside hlow hhigh
        obtain ⟨hexp, -, hexp'⟩ := exponent_of_inside hlow hhigh
        have hle := hexp' hbit
        have heq : expo v + 15360 = x.exponent := by omega
        exact ⟨by omega, by omega, truncated hbit heq hf⟩

/-! ### The fields of a stored number -/

theorem toNat_sub_four (base : BitVec 64) : (base - (base + 4)).toNat = 2 ^ 64 - 4 := by
  have hdiff : base - (base + 4) = -4 := by rw [sub_add_eq_sub_sub, sub_self, zero_sub]
  rw [hdiff]
  rfl

theorem toNat_sub_eight (base : BitVec 64) : (base - (base + 8)).toNat = 2 ^ 64 - 8 := by
  have hdiff : base - (base + 8) = -8 := by rw [sub_add_eq_sub_sub, sub_self, zero_sub]
  rw [hdiff]
  rfl

/-- A word with the sign and the exponent, and the mantissa. -/
theorem extendedAt_word (m : Bytes) (base : BitVec 64) (e : BitVec 32) (mant : BitVec 64) :
    (extendedAt (store (store m base 4 e.toNat) (base + 4) 8 mant.toNat) base).word.toNat =
        e.toNat / 2 ^ 16 ∧
      (extendedAt (store (store m base 4 e.toNat) (base + 4) 8 mant.toNat) base).mant = mant := by
  set m' := store (store m base 4 e.toNat) (base + 4) 8 mant.toNat with hm'
  have he := e.isLt
  have hword : load m' base 4 = e.toNat := by
    rw [hm', load_store_of_outside (outside_of_apart (by rw [toNat_sub_four]; decide)
      (by rw [toNat_sub_four]; decide)), load_store _ _ _ (by decide)]
    exact Nat.mod_eq_of_lt he
  have hsplit : load m' base 4 = _ := load_append m' base 2 2
  have hlow := load_lt m' (base + BitVec.ofNat 64 2) 2
  have hhigh := load_lt m' base 2
  refine ⟨?_, ?_⟩
  · show load m' base 2 % 2 ^ 16 = _
    rw [Nat.mod_eq_of_lt hhigh]
    omega
  · refine BitVec.eq_of_toNat_eq ?_
    show load m' (base + 4) 8 % 2 ^ 64 = _
    rw [hm', load_store _ _ _ (by decide), Nat.mod_mod_of_dvd _ (by decide),
      Nat.mod_eq_of_lt mant.isLt]

/-- A value that is all in its upper 16 bits. -/
theorem extendedAt_quad (m : Bytes) (base v : BitVec 64) (hv : v.toNat % 2 ^ 48 = 0) :
    (extendedAt (store (store m base 8 v.toNat) (base + 8) 4 0) base).word.toNat =
        v.toNat / 2 ^ 48 ∧
      (extendedAt (store (store m base 8 v.toNat) (base + 8) 4 0) base).mant = 0 := by
  set m' := store (store m base 8 v.toNat) (base + 8) 4 0 with hm'
  have hlt := v.isLt
  have hquad : load m' base 8 = v.toNat := by
    rw [hm', load_store_of_outside (outside_of_apart (by rw [toNat_sub_eight]; decide)
      (by rw [toNat_sub_eight]; decide)), load_store _ _ _ (by decide)]
    exact Nat.mod_eq_of_lt hlt
  have hsplit : load m' base 8 = _ := load_append m' base 2 6
  have hlow := load_lt m' (base + BitVec.ofNat 64 2) 6
  have hhigh := load_lt m' base 2
  refine ⟨?_, ?_⟩
  · show load m' base 2 % 2 ^ 16 = _
    rw [Nat.mod_eq_of_lt hhigh]
    omega
  · have hsplit' : load m' base 8 = _ := load_append m' base 4 4
    have hmant : load m' (base + 4) 8 = _ := load_append m' (base + 4) 4 4
    have hlow' := load_lt m' (base + 4) 4
    have hlast : load m' (base + 4 + BitVec.ofNat 64 4) 4 = 0 := by
      rw [BitVec.add_assoc]
      show load m' (base + 8) 4 = 0
      rw [hm', load_store _ _ _ (by decide), Nat.zero_mod]
    have hmiddle : load m' (base + 4) 4 = 0 := by
      have heq : load m' (base + BitVec.ofNat 64 4) 4 = load m' (base + 4) 4 := rfl
      omega
    refine BitVec.eq_of_toNat_eq ?_
    show load m' (base + 4) 8 % 2 ^ 64 = 0
    rw [hmant, hmiddle, hlast, Nat.zero_mul, Nat.zero_add, Nat.zero_mod]

theorem masked (v : BitVec 64) :
    (v &&& 0x7fffffffffffffff).toNat = expo v * 2 ^ 52 + frac v ∧
      (v &&& 0x7ff0000000000000).toNat = expo v * 2 ^ 52 ∧
      (v &&& 0x000fffffffffffff).toNat = frac v ∧
      (v &&& 0x8000000000000000).toNat = if v.msb then 2 ^ 63 else 0 := by
  have hv := toNat_eq v
  have hfrac : frac v < 2 ^ 52 := Nat.mod_lt _ (Nat.two_pow_pos _)
  have hexpo : expo v < 2 ^ 11 := Nat.mod_lt _ (Nat.two_pow_pos _)
  refine ⟨?_, ?_, ?_, ?_⟩
  · rw [toNat_and_field 0 63 (by decide), field, hv]
    split_ifs <;> omega
  · rw [toNat_and_field 52 11 (by decide), field, hv]
    split_ifs <;> omega
  · rw [toNat_and_field 0 52 (by decide), field, hv]
    split_ifs <;> omega
  · rw [toNat_and_field 63 1 (by decide), field, hv]
    split_ifs <;> omega

/-- The word of a NaN gets all exponent bits. -/
theorem toNat_nanWord (v : BitVec 64) :
    ((((v >>> 32) ||| 0x000f0000) &&& 0xffff0000).setWidth 32).toNat =
      (v.toNat / 2 ^ 52 * 16 + 15) * 2 ^ 16 := by
  have hlt := v.isLt
  have hlow : ∀ t < 2 ^ 4, t ||| 15 = 15 := by decide
  have hor : (v.toNat >>> 32 ||| 0x000f0000) / 2 ^ 16 = v.toNat / 2 ^ 52 * 16 + 15 := by
    have hsplit : v.toNat >>> 32 >>> 16 =
        2 ^ 4 * (v.toNat / 2 ^ 52) ||| v.toNat / 2 ^ 48 % 2 ^ 4 := by
      rw [or_eq_add (k := 4) (Nat.dvd_mul_right _ _) (Nat.mod_lt _ (by decide)),
        Nat.shiftRight_eq_div_pow, Nat.shiftRight_eq_div_pow]
      omega
    rw [← Nat.shiftRight_eq_div_pow, Nat.shiftRight_or_distrib, hsplit]
    show _ ||| 15 = _
    rw [Nat.or_assoc, hlow _ (Nat.mod_lt _ (by decide)),
      or_eq_add (k := 4) (Nat.dvd_mul_right _ _) (by decide), Nat.mul_comm]
    rfl
  rw [BitVec.toNat_setWidth, toNat_and_field 16 16 (by decide), field, BitVec.toNat_or,
    BitVec.toNat_ushiftRight]
  show (v.toNat >>> 32 ||| 0x000f0000) / 2 ^ 16 % 2 ^ 16 * 2 ^ 16 % 2 ^ 32 = _
  rw [hor]
  omega

/-- The word of another number: its exponent is biased anew. -/
theorem toNat_finiteWord (v : BitVec 64) :
    (((v &&& 0x8000000000000000) >>> 32).setWidth 32 |||
        ((((v >>> 52) &&& 0x7ff) - 0x3ff + 0x3fff) <<< 16).setWidth 32 : BitVec 32).toNat =
      (if v.msb then 2 ^ 31 else 0) + (expo v + 0x3c00) * 2 ^ 16 := by
  have hexpo : expo v < 2 ^ 11 := Nat.mod_lt _ (Nat.two_pow_pos _)
  have hsign : (((v &&& 0x8000000000000000) >>> 32).setWidth 32 : BitVec 32).toNat =
      if v.msb then 2 ^ 31 else 0 := by
    rw [BitVec.toNat_setWidth, BitVec.toNat_ushiftRight, (masked v).2.2.2,
      Nat.shiftRight_eq_div_pow]
    split_ifs <;> rfl
  have hfield : ((v >>> 52) &&& 0x7ff).toNat = expo v := by
    rw [toNat_and_field 0 11 (by decide), field, BitVec.toNat_ushiftRight,
      Nat.shiftRight_eq_div_pow, pow_zero, Nat.div_one, Nat.mul_one]
    rfl
  have hbias : (0x3ff : BitVec 64).toNat = 0x3ff := rfl
  have hbias' : (0x3fff : BitVec 64).toNat = 0x3fff := rfl
  have hexp : (((((v >>> 52) &&& 0x7ff) - 0x3ff + 0x3fff) <<< 16).setWidth 32 : BitVec 32).toNat =
      (expo v + 0x3c00) * 2 ^ 16 := by
    rw [BitVec.toNat_setWidth, BitVec.toNat_shiftLeft, BitVec.toNat_add, BitVec.toNat_sub, hfield,
      hbias, hbias', Nat.shiftLeft_eq]
    omega
  have hdvd : 2 ^ 31 ∣ if v.msb then 2 ^ 31 else 0 := by
    split_ifs
    · exact dvd_rfl
    · exact dvd_zero _
  rw [toNat_or_eq_add (k := 31) (by rwa [hsign]) (by rw [hexp]; omega), hsign, hexp]

theorem toNat_mantissa (v : BitVec 64) :
    ((0x8000000000000000 : BitVec 64) ||| ((v &&& 0x000fffffffffffff) <<< 11)).toNat =
      2 ^ 63 + frac v * 2 ^ 11 := by
  have hfrac : frac v < 2 ^ 52 := Nat.mod_lt _ (Nat.two_pow_pos _)
  have hshift : ((v &&& 0x000fffffffffffff) <<< 11).toNat = frac v * 2 ^ 11 := by
    rw [BitVec.toNat_shiftLeft, (masked v).2.2.1, Nat.shiftLeft_eq]
    omega
  rw [toNat_or_eq_add (k := 63) dvd_rfl (by rw [hshift]; omega), hshift]
  rfl

/-- What is stored for a double, by its kind. -/
theorem stored_fields (m : Bytes) (v base : BitVec 64) (hx : extendedAt (store96bit m v base) base = x) :
    x.word.msb = v.msb ∧
      (expo v = 0 ∧ frac v = 0 ∧ x.exponent = 0 ∧ x.mant.toNat = 0 ∨
        expo v = 2047 ∧ frac v = 0 ∧ x.exponent = 0x7fff ∧ x.mant.toNat = 0 ∨
        IsNaN v ∧ x.exponent = 0x7fff ∧ x.mant.toNat = 2 ^ 64 - 1 ∨
        expo v < 2047 ∧ ¬ (expo v = 0 ∧ frac v = 0) ∧ x.exponent = expo v + 0x3c00 ∧
          x.mant.toNat = 2 ^ 63 + frac v * 2 ^ 11) := by
  subst hx
  obtain ⟨hall, hexp, hlow, hsign⟩ := masked v
  have hv := toNat_eq v
  have hfrac : frac v < 2 ^ 52 := Nat.mod_lt _ (Nat.two_pow_pos _)
  have hexpo : expo v < 2 ^ 11 := Nat.mod_lt _ (Nat.two_pow_pos _)
  have hword := msb_iff_word (extendedAt (store96bit m v base) base).word
  have hmsb : ∀ y : BitVec 16, (y.toNat / 2 ^ 15 = if v.msb then 1 else 0) → y.msb = v.msb := by
    intro y hy
    refine Bool.eq_iff_iff.mpr ((msb_iff_word y).trans ?_)
    have hlt := y.isLt
    split_ifs at hy with h
    · exact ⟨fun _ ↦ h, fun _ ↦ by omega⟩
    · exact ⟨fun _ ↦ by omega, fun h' ↦ absurd h' h⟩
  by_cases hzero : v &&& 0x7fffffffffffffff = 0
  · have hnat : expo v * 2 ^ 52 + frac v = 0 := hall.symm.trans (congrArg BitVec.toNat hzero)
    have hstore : store96bit m v base = store (store m base 8 v.toNat) (base + 8) 4 0 := if_pos hzero
    obtain ⟨hw, hm⟩ := extendedAt_quad m base v (by rw [hv]; split_ifs <;> omega)
    rw [hstore]
    refine ⟨hmsb _ ?_, .inl ⟨by omega, by omega, ?_, ?_⟩⟩
    · rw [hw, hv]
      split_ifs <;> omega
    · rw [Extended.exponent, hw, hv]
      split_ifs <;> omega
    · rw [hm]
      rfl
  · have hne : ¬ (expo v = 0 ∧ frac v = 0) := fun ⟨he, hf⟩ ↦ hzero (BitVec.eq_of_toNat_eq (by
      rw [hall, he, hf]
      rfl))
    by_cases hinf : v &&& 0x7fffffffffffffff = 0x7ff0000000000000
    · have hnat : expo v * 2 ^ 52 + frac v = 2047 * 2 ^ 52 :=
        hall.symm.trans (congrArg BitVec.toNat hinf)
      have hor : (v ||| 0x000f000000000000).toNat = v.toNat + 15 * 2 ^ 48 :=
        toNat_or_eq_add (k := 52) (by rw [hv]; split_ifs <;> omega) (by decide)
      have hstore : store96bit m v base =
          store (store m base 8 (v ||| 0x000f000000000000).toNat) (base + 8) 4 0 :=
        (if_neg hzero).trans (if_pos hinf)
      obtain ⟨hw, hm⟩ := extendedAt_quad m base (v ||| 0x000f000000000000)
        (by rw [hor, hv]; split_ifs <;> omega)
      rw [hstore]
      refine ⟨hmsb _ ?_, .inr (.inl ⟨by omega, by omega, ?_, ?_⟩)⟩
      · rw [hw, hor, hv]
        split_ifs <;> omega
      · rw [Extended.exponent, hw, hor, hv]
        split_ifs <;> omega
      · rw [hm]
        rfl
    · have hnotinf : ¬ (expo v = 2047 ∧ frac v = 0) := fun ⟨he, hf⟩ ↦
        hinf (BitVec.eq_of_toNat_eq (by
          rw [hall, he, hf]
          rfl))
      by_cases hnan : v &&& 0x7ff0000000000000 = 0x7ff0000000000000 ∧ v &&& 0x000fffffffffffff ≠ 0
      · have he : expo v * 2 ^ 52 = 2047 * 2 ^ 52 :=
          hexp.symm.trans (congrArg BitVec.toNat hnan.1)
        have hstore : store96bit m v base = store (store m base 4
            ((((v >>> 32) ||| 0x000f0000) &&& 0xffff0000).setWidth 32).toNat) (base + 4) 8
            (0xffffffffffffffff : BitVec 64).toNat :=
          (if_neg hzero).trans ((if_neg hinf).trans (if_pos hnan))
        obtain ⟨hw, hm⟩ := extendedAt_word m base
          ((((v >>> 32) ||| 0x000f0000) &&& 0xffff0000).setWidth 32) 0xffffffffffffffff
        rw [hstore]
        refine ⟨hmsb _ ?_, .inr (.inr (.inl ⟨⟨by omega, fun hf ↦ hnotinf ⟨by omega, hf⟩⟩, ?_, ?_⟩))⟩
        · rw [hw, toNat_nanWord, hv]
          split_ifs <;> omega
        · rw [Extended.exponent, hw, toNat_nanWord, hv]
          split_ifs <;> omega
        · rw [hm]
          rfl
      · have hlt : expo v ≠ 2047 := fun he ↦ hnan ⟨BitVec.eq_of_toNat_eq (by rw [hexp, he]; rfl),
          fun hf ↦ hnotinf ⟨he, hlow.symm.trans (congrArg BitVec.toNat hf)⟩⟩
        have hstore : store96bit m v base = store (store m base 4
            (((v &&& 0x8000000000000000) >>> 32).setWidth 32 |||
              ((((v >>> 52) &&& 0x7ff) - 0x3ff + 0x3fff) <<< 16).setWidth 32 : BitVec 32).toNat)
            (base + 4) 8
            ((0x8000000000000000 : BitVec 64) ||| ((v &&& 0x000fffffffffffff) <<< 11)).toNat :=
          (if_neg hzero).trans ((if_neg hinf).trans (if_neg hnan))
        obtain ⟨hw, hm⟩ := extendedAt_word m base
          (((v &&& 0x8000000000000000) >>> 32).setWidth 32 |||
            ((((v >>> 52) &&& 0x7ff) - 0x3ff + 0x3fff) <<< 16).setWidth 32)
          ((0x8000000000000000 : BitVec 64) ||| ((v &&& 0x000fffffffffffff) <<< 11))
        rw [hstore]
        refine ⟨hmsb _ ?_, .inr (.inr (.inr ⟨by omega, hne, ?_, ?_⟩))⟩
        · rw [hw, toNat_finiteWord]
          split_ifs <;> omega
        · rw [Extended.exponent, hw, toNat_finiteWord]
          split_ifs <;> omega
        · rw [hm, toNat_mantissa]

/-! ### Both conversions -/

/-- Storing and loading gives the same double, subnormal or not. -/
theorem load_stored (m : Bytes) (base : BitVec 64) (hv : ¬ IsNaN v) :
    load96bit (store96bit m v base) base = v := by
  obtain ⟨hsign, hkind⟩ := stored_fields m v base rfl
  set x := extendedAt (store96bit m v base) base with hx
  have hfrac : frac v < 2 ^ 52 := Nat.mod_lt _ (Nat.two_pow_pos _)
  rcases hkind with ⟨he, hf, hexp, hmant⟩ | ⟨he, hf, hexp, hmant⟩ | ⟨hnan, -⟩ |
    ⟨he, hne, hexp, hmant⟩
  · obtain ⟨hmsb, ⟨-, -, he', hf'⟩ | ⟨hne, -⟩⟩ :=
      load96bit_finite hx.symm (show x.exponent < 0x7fff by omega)
    · exact eq_of_fields (hmsb.trans hsign) (he'.trans he.symm) (hf'.trans hf.symm)
    · exact absurd ⟨hexp, hmant⟩ hne
  · obtain ⟨hmsb, he', hf'⟩ := load96bit_infinite hx.symm ⟨hexp, by rw [hmant]; rfl⟩
    exact eq_of_fields (hmsb.trans hsign) (he'.trans he.symm) (hf'.trans hf.symm)
  · exact absurd hnan hv
  · obtain ⟨hmsb, ⟨-, hzero, -⟩ | ⟨-, he', hf'⟩⟩ :=
      load96bit_finite hx.symm (show x.exponent < 0x7fff by omega)
    · omega
    · exact eq_of_fields (hmsb.trans hsign) (by omega) (by omega)

theorem denotes_stored_iff (m : Bytes) (base : BitVec 64) (hv : ¬ IsNaN v) :
    (extendedAt (store96bit m v base) base).Denotes v ↔ ¬ IsSubnormal v := by
  obtain ⟨hsign, hkind⟩ := stored_fields m v base rfl
  set x := extendedAt (store96bit m v base) base with hx
  rcases hkind with ⟨he, hf, hexp, hmant⟩ | ⟨he, hf, hexp, hmant⟩ | ⟨hnan, -⟩ |
    ⟨he, hne, hexp, hmant⟩
  · refine iff_of_true ⟨hsign, ⟨fun h ↦ ?_, fun h ↦ ?_⟩, ⟨fun _ ↦ by omega, fun _ ↦ ?_⟩,
      fun _ ↦ ?_⟩ fun h ↦ h.2 hf
    · exact absurd (hexp.symm.trans h.1) (by decide)
    · exact absurd (he.symm.trans h.1) (by decide)
    · exact show x.exponent < 0x7fff by omega
    · rw [Extended.magnitude, hmant, magnitude, if_pos he, hf, Nat.zero_mul, Nat.zero_mul]
  · refine iff_of_true ⟨hsign, ⟨fun _ ↦ ⟨he, hf⟩, fun _ ↦ ⟨hexp, by rw [hmant]; rfl⟩⟩,
      ⟨fun h ↦ ?_, fun h ↦ ?_⟩, fun h ↦ ?_⟩ fun h ↦ ?_
    · exact absurd hexp (Nat.ne_of_lt h)
    · exact absurd he (Nat.ne_of_lt h)
    · exact absurd hexp (Nat.ne_of_lt h)
    · exact absurd (he.symm.trans h.1) (by decide)
  · exact absurd hnan hv
  · have hfinite : x.exponent < 0x7fff := by omega
    have hfields : x.Denotes v ↔ x.magnitude = magnitude v := by
      refine ⟨fun h ↦ h.magnitude hfinite, fun h ↦ ⟨hsign, ⟨fun hinf ↦ ?_, fun hinf ↦ ?_⟩,
        ⟨fun _ ↦ he, fun _ ↦ hfinite⟩, fun _ ↦ h⟩⟩
      · exact absurd hinf.1 (Nat.ne_of_lt hfinite)
      · exact absurd hinf.1 (Nat.ne_of_lt he)
    have hmagnitude : x.magnitude = (2 ^ 52 + frac v) * 2 ^ 11 * 2 ^ (expo v + 0x3c00) := by
      rw [Extended.magnitude, hmant, hexp]
      congr 1
      ring
    rw [hfields, hmagnitude, magnitude, Nat.mul_assoc, ← pow_add]
    split_ifs with hzero
    · -- the integer bit stands where a subnormal number has none
      refine iff_of_false (fun heq ↦ ?_) (fun hnot ↦ hnot ⟨hzero, fun hf ↦ hne ⟨hzero, hf⟩⟩)
      have hfrac : frac v < 2 ^ 52 := Nat.mod_lt _ (Nat.two_pow_pos _)
      have hpow : (2 ^ 15372 : ℕ) = 2 ^ 1 * 2 ^ (11 + (expo v + 0x3c00)) := by
        rw [← pow_add]
        exact congrArg (2 ^ ·) (by omega)
      rw [hpow, ← Nat.mul_assoc] at heq
      have hcancel := Nat.eq_of_mul_eq_mul_right (Nat.two_pow_pos _) heq
      omega
    · refine iff_of_true ?_ fun h ↦ hzero h.1
      exact congrArg _ (congrArg (2 ^ ·) (by omega))

/-- The conversions are right for all doubles that are not subnormal, and for all finite extended
numbers that the masks do not spoil. -/
theorem conversionsRight_iff (m : Bytes) (base v : BitVec 64) :
    ConversionsRight m base v ↔
      ¬ IsSubnormal v ∧ ((extendedAt m base).IsFinite → (extendedAt m base).Loadable) := by
  constructor
  · intro h
    refine ⟨fun hsub ↦ ?_, fun hfinite ↦ (roundsTo_iff rfl hfinite).mp (h.load hfinite)⟩
    have hnan : ¬ IsNaN v := fun hnan ↦ absurd (hsub.1.symm.trans hnan.1) (by decide)
    exact (denotes_stored_iff m base hnan).mp (h.denotes hnan) hsub
  · rintro ⟨hsub, hload⟩
    refine ⟨load_stored m base, fun hnan ↦ (denotes_stored_iff m base hnan).mpr hsub, fun hnan ↦ ?_,
      fun hnan ↦ (load96bit_nan rfl hnan).symm, fun hfinite ↦
      (roundsTo_iff rfl hfinite).mpr (hload hfinite)⟩
    obtain ⟨hsign, hkind⟩ := stored_fields m v base rfl
    rcases hkind with ⟨he, -⟩ | ⟨-, hf, -⟩ | ⟨-, hexp, hmant⟩ | ⟨he, -⟩
    · exact absurd (he.symm.trans hnan.1) (by decide)
    · exact absurd hf hnan.2
    · exact ⟨⟨hexp, by rw [hmant]; decide⟩, hsign⟩
    · exact absurd hnan.1 (Nat.ne_of_lt he)

/-- The least subnormal double is stored as another number. -/
theorem least_subnormal_stored : ¬ ConversionsRight (fun _ ↦ 0) 0 1 := by
  intro h
  have hnan : ¬ IsNaN 1 := fun hnan ↦ absurd hnan.1 (by decide)
  exact (denotes_stored_iff _ 0 hnan).mp (h.denotes hnan) ⟨by decide, by decide⟩

end Emu68.Fpu
