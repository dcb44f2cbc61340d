import Mathlib.Data.BitVec
import Mathlib.Tactic.Common

/-!
Words that are put together from fields. A field is read back from its place, and a test of bits
that no field has depends on the rest of the word only.
-/

set_option autoImplicit false
set_option relaxedAutoImplicit false

namespace Emu68.Lib

variable {n w k p q i : ℕ}

/-- A field at its place in a word. -/
def place (p : ℕ) (x : BitVec w) : BitVec n := x.setWidth n <<< p

theorem getLsbD_place (x : BitVec w) (hi : i < n) :
    (place p x : BitVec n).getLsbD i = (decide (p ≤ i) && x.getLsbD (i - p)) := by
  unfold place
  rw [BitVec.getLsbD_shiftLeft, BitVec.getLsbD_setWidth, decide_eq_true hi,
    decide_eq_true (Nat.lt_of_le_of_lt (Nat.sub_le i p) hi), Bool.true_and, Bool.true_and,
    ← decide_not]
  simp only [Nat.not_lt]

theorem extract_or (x y : BitVec n) (q k : ℕ) :
    (x ||| y).extractLsb' q k = x.extractLsb' q k ||| y.extractLsb' q k := by
  refine BitVec.eq_of_getLsbD_eq fun i _ ↦ ?_
  simp only [BitVec.getLsbD_extractLsb', BitVec.getLsbD_or, Bool.and_or_distrib_left]

/-- A field is read from its place. -/
theorem extract_place (x : BitVec w) (h : p + w ≤ n) :
    (place p x : BitVec n).extractLsb' p w = x := by
  refine BitVec.eq_of_getLsbD_eq fun i hi ↦ ?_
  rw [BitVec.getLsbD_extractLsb', decide_eq_true hi, getLsbD_place x (by omega),
    decide_eq_true (Nat.le_add_right p i), Nat.add_sub_cancel_left, Bool.true_and, Bool.true_and]

/-- Nothing of it is read from another place. -/
theorem extract_place_apart (x : BitVec w) (h : p + w ≤ q ∨ q + k ≤ p) (hn : q + k ≤ n) :
    (place p x : BitVec n).extractLsb' q k = 0#k := by
  refine BitVec.eq_of_getLsbD_eq fun i hi ↦ ?_
  rw [BitVec.getLsbD_extractLsb', decide_eq_true hi, getLsbD_place x (by omega), Bool.true_and,
    BitVec.getLsbD_zero]
  rcases h with hbehind | hbefore
  · rw [BitVec.getLsbD_of_ge x _ (by omega), Bool.and_false]
  · rw [decide_eq_false (by omega), Bool.false_and]

/-! ### Tests of the rest -/

/-- The word has bits of the fields only. -/
def Within (fields x : BitVec n) : Prop := x &&& ~~~fields = 0#n

variable {fields x y base mask value : BitVec n}

theorem Within.or (hx : Within fields x) (hy : Within fields y) : Within fields (x ||| y) := by
  refine BitVec.eq_of_getLsbD_eq fun i hi ↦ ?_
  have hxi := congrArg (BitVec.getLsbD · i) hx
  have hyi := congrArg (BitVec.getLsbD · i) hy
  simp only [BitVec.getLsbD_and, BitVec.getLsbD_or, BitVec.getLsbD_zero] at hxi hyi ⊢
  rw [Bool.and_or_distrib_right, hxi, hyi, Bool.or_false]

theorem within_place (z : BitVec w) (h : Within fields (place p (BitVec.allOnes w))) :
    Within fields (place p z) := by
  refine BitVec.eq_of_getLsbD_eq fun i hi ↦ ?_
  have hones := congrArg (BitVec.getLsbD · i) h
  simp only [BitVec.getLsbD_and, getLsbD_place _ hi, BitVec.getLsbD_allOnes,
    BitVec.getLsbD_zero] at hones ⊢
  cases hz : z.getLsbD (i - p) with
  | false => simp
  | true =>
    rw [decide_eq_true (BitVec.lt_of_getLsbD hz)] at hones
    exact hones

/-- Nothing is read from between the fields. -/
theorem Within.extract (h : Within fields x) (hfields : fields.extractLsb' q k = 0#k) :
    x.extractLsb' q k = 0#k := by
  refine BitVec.eq_of_getLsbD_eq fun i hi ↦ ?_
  have hx := congrArg (BitVec.getLsbD · (q + i)) h
  have hf := congrArg (BitVec.getLsbD · i) hfields
  rw [BitVec.getLsbD_extractLsb', decide_eq_true hi, Bool.true_and, BitVec.getLsbD_zero] at hf ⊢
  by_cases hn : q + i < n
  · simp only [BitVec.getLsbD_and, BitVec.getLsbD_not, hf, hn, decide_true, Bool.not_false,
      Bool.and_true, BitVec.getLsbD_zero] at hx
    exact hx
  · exact BitVec.getLsbD_of_ge x _ (Nat.le_of_not_lt hn)

/-- A test that no field takes part in is one of the rest of the word. -/
theorem Within.test (h : Within fields x) (hmask : mask &&& fields = 0#n) :
    (base ||| x) &&& mask = base &&& mask := by
  have hnone : x &&& mask = 0#n := by
    refine BitVec.eq_of_getLsbD_eq fun i hi ↦ ?_
    have hxi := congrArg (BitVec.getLsbD · i) h
    have hmi := congrArg (BitVec.getLsbD · i) hmask
    simp only [BitVec.getLsbD_and, BitVec.getLsbD_not, BitVec.getLsbD_zero, hi, decide_true,
      Bool.true_and] at hxi hmi ⊢
    cases hf : fields.getLsbD i <;> simp_all
  rw [BitVec.and_or_distrib_right, hnone, BitVec.or_zero]

/-- A test that the rest of the word fails is failed. -/
theorem Within.test_ne (h : Within fields x)
    (hfails : base &&& mask &&& ~~~fields ≠ value &&& ~~~fields) :
    (base ||| x) &&& mask ≠ value := by
  intro heq
  refine hfails ?_
  rw [← heq]
  refine BitVec.eq_of_getLsbD_eq fun i hi ↦ ?_
  have hxi := congrArg (BitVec.getLsbD · i) h
  simp only [BitVec.getLsbD_and, BitVec.getLsbD_or, BitVec.getLsbD_not, BitVec.getLsbD_zero, hi,
    decide_true, Bool.true_and] at hxi ⊢
  cases hf : fields.getLsbD i <;> simp_all

end Emu68.Lib
