import Emu68.Tlsf.Allocator
import Mathlib.Data.Nat.Log
import Mathlib.Tactic.Ring

/-!
The size classes. Sizes from 128 on are written as `q * 2 ^ k` and a remainder, with `q` between 32
and 63: their class is `k - 1` and `q - 32`. A request is rounded up to the least size of its class,
so that every block of a class at or above that one is large enough.
-/

set_option autoImplicit false
set_option relaxedAutoImplicit false

namespace Emu68.Tlsf

/-- The class of a size. -/
def classOf (r : ℕ) : ℕ × ℕ :=
  if r < 128 then (0, r / 4) else (ms r - 6, r >>> (ms r - 5) - 32)

/-- The least size of a class. -/
def lowest (c : ℕ × ℕ) : ℕ := if c.1 = 0 then 4 * c.2 else (32 + c.2) * 2 ^ (c.1 + 1)

/-- The order of the classes. -/
def AtOrAbove (c c' : ℕ × ℕ) : Prop := c.1 < c'.1 ∨ c.1 = c'.1 ∧ c.2 ≤ c'.2

/-- The indices of `slbitmap` and `matrix`. -/
def InRange (c : ℕ × ℕ) : Prop := c.1 < 24 ∧ c.2 < 32

/-- The largest request for which `MAPPING_SEARCH` gives indices in range. -/
def largestRequest : ℕ := 2 ^ 30 - 2 ^ 24

variable {r s k q : ℕ} {c c' : ℕ × ℕ}

theorem ms_eq (hq : 32 ≤ q) (hq' : q < 64) (hlow : q * 2 ^ k ≤ r) (hhigh : r < (q + 1) * 2 ^ k) :
    ms r = k + 5 := by
  have hpos : 0 < 2 ^ k := Nat.two_pow_pos k
  have hr : r ≠ 0 := by
    have := Nat.mul_le_mul_right (2 ^ k) hq
    omega
  rw [ms, Nat.log2_eq_iff hr]
  have hfive : 2 ^ (k + 5) = 32 * 2 ^ k := by ring
  have hsix : 2 ^ (k + 5 + 1) = 64 * 2 ^ k := by ring
  have hlow' := Nat.mul_le_mul_right (2 ^ k) hq
  have hhigh' := Nat.mul_le_mul_right (2 ^ k) hq'
  rw [hfive, hsix]
  exact ⟨hlow'.trans hlow, hhigh.trans_le hhigh'⟩

/-- Every size from 128 on has such a form. -/
theorem exists_form (h : 128 ≤ r) : ∃ k q, 2 ≤ k ∧ 32 ≤ q ∧ q < 64 ∧ q * 2 ^ k ≤ r ∧
    r < (q + 1) * 2 ^ k := by
  have hr : r ≠ 0 := by omega
  obtain ⟨hlow, hhigh⟩ := (Nat.log2_eq_iff hr).mp rfl
  have hlog : 7 ≤ r.log2 := (Nat.le_log2 hr).mpr h
  obtain ⟨k, hk⟩ : ∃ k, r.log2 = k + 5 := ⟨r.log2 - 5, by omega⟩
  rw [hk] at hlow hhigh
  have hpos : 0 < 2 ^ k := Nat.two_pow_pos k
  refine ⟨k, r / 2 ^ k, by omega, ?_, ?_, Nat.div_mul_le_self r _, ?_⟩
  · rw [Nat.le_div_iff_mul_le hpos]
    exact le_of_eq_of_le (by ring) hlow
  · rw [Nat.div_lt_iff_lt_mul hpos]
    exact lt_of_lt_of_eq hhigh (by ring)
  · rw [Nat.mul_comm]
    exact Nat.lt_mul_div_succ r hpos

theorem classOf_eq (hk : 2 ≤ k) (hq : 32 ≤ q) (hq' : q < 64) (hlow : q * 2 ^ k ≤ r)
    (hhigh : r < (q + 1) * 2 ^ k) : classOf r = (k - 1, q - 32) := by
  have hlarge : ¬ r < 128 := by
    have hfour : 4 ≤ 2 ^ k := Nat.pow_le_pow_right Nat.two_pos hk
    have := Nat.mul_le_mul hq hfour
    omega
  have hdiv : r / 2 ^ k = q := Nat.div_eq_of_lt_le hlow hhigh
  rw [classOf, if_neg hlarge, ms_eq hq hq' hlow hhigh, Nat.add_sub_cancel, Nat.shiftRight_eq_div_pow,
    hdiv]
  rfl

theorem lowest_le (r : ℕ) : lowest (classOf r) ≤ r := by
  by_cases hsmall : r < 128
  · rw [classOf, if_pos hsmall, lowest, if_pos rfl]
    exact Nat.mul_div_le r 4
  · obtain ⟨k, q, hk, hq, hq', hlow, hhigh⟩ := exists_form (Nat.le_of_not_lt hsmall)
    rw [classOf_eq hk hq hq' hlow hhigh, lowest]
    have hne : ¬ k - 1 = 0 := by omega
    rw [if_neg hne, Nat.sub_add_cancel (by omega), Nat.add_sub_cancel' hq]
    exact hlow

theorem classOf_inRange (h : r < 2 ^ 30) : InRange (classOf r) := by
  by_cases hsmall : r < 128
  · rw [classOf, if_pos hsmall]
    exact ⟨Nat.zero_lt_succ _, show r / 4 < 32 by omega⟩
  · obtain ⟨k, q, hk, hq, hq', hlow, hhigh⟩ := exists_form (Nat.le_of_not_lt hsmall)
    rw [classOf_eq hk hq hq' hlow hhigh]
    refine ⟨?_, show q - 32 < 32 by omega⟩
    by_contra hlarge
    have hk' : 25 ≤ k := by
      change ¬ k - 1 < 24 at hlarge
      omega
    have := Nat.mul_le_mul hq (Nat.pow_le_pow_right Nat.two_pos hk')
    omega

theorem AtOrAbove.lowest_le (h : AtOrAbove c c') (hc : c.2 < 32) : lowest c ≤ lowest c' := by
  unfold lowest
  rcases h with hlt | ⟨heq, hle⟩
  · have hne : ¬ c'.1 = 0 := by omega
    rw [if_neg hne]
    have hpow : 2 ^ (c.1 + 1) * 2 ≤ 2 ^ (c'.1 + 1) := by
      rw [← pow_succ]
      exact Nat.pow_le_pow_right Nat.two_pos (by omega)
    have hpos : 0 < 2 ^ (c.1 + 1) := Nat.two_pow_pos _
    have hhigh : 32 * 2 ^ (c'.1 + 1) ≤ (32 + c'.2) * 2 ^ (c'.1 + 1) :=
      Nat.mul_le_mul_right _ (Nat.le_add_right 32 _)
    split_ifs with hzero
    · omega
    · have := Nat.mul_le_mul_right (2 ^ (c.1 + 1)) (show 32 + c.2 ≤ 64 by omega)
      omega
  · rw [heq]
    split_ifs with hzero
    · exact Nat.mul_le_mul_left 4 hle
    · exact Nat.mul_le_mul_right _ (Nat.add_le_add_left hle 32)

theorem classOf_mono (h : r ≤ s) : AtOrAbove (classOf r) (classOf s) := by
  by_cases hsmall : r < 128
  · rw [classOf, if_pos hsmall]
    by_cases hsmall' : s < 128
    · rw [classOf, if_pos hsmall']
      exact .inr ⟨rfl, Nat.div_le_div_right h⟩
    · obtain ⟨k, q, hk, hq, hq', hlow, hhigh⟩ := exists_form (Nat.le_of_not_lt hsmall')
      rw [classOf_eq hk hq hq' hlow hhigh]
      exact .inl (show 0 < k - 1 by omega)
  · obtain ⟨k, q, hk, hq, hq', hlow, hhigh⟩ := exists_form (Nat.le_of_not_lt hsmall)
    obtain ⟨k', q', hk', hq₁, hq₁', hlow', hhigh'⟩ := exists_form (r := s) (by omega)
    rw [classOf_eq hk hq hq' hlow hhigh, classOf_eq hk' hq₁ hq₁' hlow' hhigh']
    rcases Nat.lt_trichotomy k k' with hlt | rfl | hgt
    · exact .inl (show k - 1 < k' - 1 by omega)
    · refine .inr ⟨rfl, show q - 32 ≤ q' - 32 from Nat.sub_le_sub_right ?_ 32⟩
      have hmul : q * 2 ^ k < (q' + 1) * 2 ^ k := by omega
      exact Nat.lt_succ_iff.mp (Nat.lt_of_mul_lt_mul_right hmul)
    · have hpow : 2 ^ k' * 2 ≤ 2 ^ k := by
        rw [← pow_succ]
        exact Nat.pow_le_pow_right Nat.two_pos hgt
      have hfirst : (q' + 1) * 2 ^ k' ≤ 64 * 2 ^ k' := Nat.mul_le_mul_right _ hq₁'
      have hsecond : 32 * 2 ^ k ≤ q * 2 ^ k := Nat.mul_le_mul_right _ hq
      omega

/-! ### The two mappings -/

theorem slot_ok (h : InRange c) : slot c.1 c.2 = .ok c := by
  obtain ⟨hfl, hsl⟩ := h
  rw [slot, if_pos ⟨by omega, by omega, by omega, by omega⟩]
  rfl

theorem mappingInsert_eq (r : ℕ) :
    mappingInsert r = (((classOf r).1 : ℤ), ((classOf r).2 : ℤ)) := by
  by_cases hsmall : r < 128
  · rw [mappingInsert, classOf, if_pos hsmall, if_pos hsmall]
    rfl
  · obtain ⟨k, q, hk, hq, hq', hlow, hhigh⟩ := exists_form (Nat.le_of_not_lt hsmall)
    have hdiv : r / 2 ^ k = q := Nat.div_eq_of_lt_le hlow hhigh
    rw [classOf_eq hk hq hq' hlow hhigh, mappingInsert, if_neg hsmall, ms_eq hq hq' hlow hhigh,
      Nat.add_sub_cancel, Nat.shiftRight_eq_div_pow, hdiv]
    ext <;> dsimp only <;> omega

theorem slot_mappingInsert (h : r < 2 ^ 30) :
    slot (mappingInsert r).1 (mappingInsert r).2 = .ok (classOf r) := by
  rw [mappingInsert_eq]
  exact slot_ok (classOf_inRange h)

theorem lowest_eq (hk : 2 ≤ k) (hq : 32 ≤ q) (hq' : q < 64) :
    lowest (classOf (q * 2 ^ k)) = q * 2 ^ k := by
  have hpos : 0 < 2 ^ k := Nat.two_pow_pos k
  have hhigh : q * 2 ^ k < (q + 1) * 2 ^ k := Nat.mul_lt_mul_of_pos_right (Nat.lt_succ_self q) hpos
  have hne : ¬ k - 1 = 0 := by omega
  rw [classOf_eq hk hq hq' le_rfl hhigh, lowest]
  dsimp only
  rw [if_neg hne, Nat.sub_add_cancel (by omega), Nat.add_sub_cancel' hq]

/-- Rounding up to a multiple of `2 ^ k` may lead to the next power of two. -/
theorem rounded_class (hk : 2 ≤ k) (hq : 32 ≤ q) (hq' : q ≤ 64) (hlow : q * 2 ^ k ≤ r)
    (hhigh : r < (q + 1) * 2 ^ k) :
    classOf r = classOf (q * 2 ^ k) ∧ lowest (classOf (q * 2 ^ k)) = q * 2 ^ k := by
  have hpos : 0 < 2 ^ k := Nat.two_pow_pos k
  rcases Nat.lt_or_eq_of_le hq' with hlt | rfl
  · have hnext : q * 2 ^ k < (q + 1) * 2 ^ k := Nat.mul_lt_mul_of_pos_right (Nat.lt_succ_self q) hpos
    exact ⟨by rw [classOf_eq hk hq hlt hlow hhigh, classOf_eq hk hq hlt le_rfl hnext],
      lowest_eq hk hq hlt⟩
  · have hdouble : 64 * 2 ^ k = 32 * 2 ^ (k + 1) := by ring
    have hnext : (32 + 1) * 2 ^ (k + 1) = 66 * 2 ^ k := by ring
    rw [hdouble] at hlow ⊢
    have hwithin : r < (32 + 1) * 2 ^ (k + 1) := by omega
    have hself : 32 * 2 ^ (k + 1) < (32 + 1) * 2 ^ (k + 1) := by omega
    have hclass := classOf_eq (r := r) (by omega) le_rfl (by omega) hlow hwithin
    have hlowest := classOf_eq (by omega) le_rfl (by omega) le_rfl hself
    exact ⟨hclass.trans hlowest.symm, lowest_eq (by omega) le_rfl (by omega)⟩

theorem mappingSearch_large (h : ¬ r < 128) {tr : ℕ}
    (htr : tr = (r + (2 ^ (ms r - 5) - 1)) % 2 ^ 64) (hlarge : ¬ tr < 128) :
    mappingSearch r = (tr / 2 ^ (ms r - 5) * 2 ^ (ms r - 5), mappingInsert tr) := by
  rw [mappingSearch, if_neg h, mappingInsert, if_neg hlarge, htr]

/-- A request within the limit is rounded up to the least size of a class in range. -/
theorem mappingSearch_spec (hsize : r % 16 = 0) (hlimit : r ≤ largestRequest) :
    ∃ r', mappingSearch r = (r', ((classOf r').1 : ℤ), ((classOf r').2 : ℤ)) ∧ r ≤ r' ∧
      r' % 16 = 0 ∧ r' < 2 ^ 30 ∧ lowest (classOf r') = r' := by
  rw [largestRequest] at hlimit
  by_cases hsmall : r < 128
  · refine ⟨r, ?_, le_rfl, hsize, by omega, ?_⟩
    · rw [mappingSearch, classOf, if_pos hsmall, if_pos hsmall]
      rfl
    · rw [classOf, if_pos hsmall, lowest, if_pos rfl]
      omega
  · obtain ⟨k, q, hk, hq, hq', hlow, hhigh⟩ := exists_form (Nat.le_of_not_lt hsmall)
    have hpos : 0 < 2 ^ k := Nat.two_pow_pos k
    have hk' : 2 ^ k ≤ 2 ^ 24 := by
      refine Nat.pow_le_pow_right Nat.two_pos (Nat.le_of_not_lt fun hlarge ↦ ?_)
      have := Nat.mul_le_mul hq (Nat.pow_le_pow_right Nat.two_pos hlarge)
      omega
    have hms : ms r - 5 = k := by rw [ms_eq hq hq' hlow hhigh, Nat.add_sub_cancel]
    set tr := r + (2 ^ k - 1) with htr
    have htr' : tr = (r + (2 ^ (ms r - 5) - 1)) % 2 ^ 64 := by
      rw [hms, Nat.mod_eq_of_lt (by omega)]
    have hsum : tr < 2 ^ 30 := by omega
    set p := tr / 2 ^ k with hp
    have hplow : p * 2 ^ k ≤ tr := Nat.div_mul_le_self tr _
    have hphigh : tr < (p + 1) * 2 ^ k := by
      rw [Nat.mul_comm]
      exact Nat.lt_mul_div_succ tr hpos
    have hqp : q ≤ p := (Nat.le_div_iff_mul_le hpos).mpr (by omega)
    have hpq : p < 65 := by
      rw [hp, Nat.div_lt_iff_lt_mul hpos]
      have hnext : (q + 1) * 2 ^ k ≤ 64 * 2 ^ k := Nat.mul_le_mul_right _ hq'
      have hsplit : 65 * 2 ^ k = 64 * 2 ^ k + 2 ^ k := by ring
      omega
    obtain ⟨hclass, hlowest⟩ := rounded_class hk (hq.trans hqp) (Nat.lt_succ_iff.mp hpq) hplow hphigh
    refine ⟨p * 2 ^ k, ?_, ?_, ?_, by omega, hlowest⟩
    · rw [mappingSearch_large hsmall htr' (by omega), mappingInsert_eq, hms, hclass]
    · have hceil : r + (2 ^ k - 1) < p * 2 ^ k + 2 ^ k := by
        rw [← Nat.add_one_mul]
        exact hphigh
      omega
    · -- the rounding changes nothing below 16
      rcases Nat.lt_or_ge k 4 with hfine | hcoarse
      · have hdvd : 2 ^ k ∣ r :=
          (Nat.pow_dvd_pow 2 hfine.le).trans (Nat.dvd_of_mod_eq_zero hsize)
        obtain ⟨d, hd⟩ := hdvd
        have hpd : p = d := by
          rw [hp, htr, hd, Nat.mul_add_div hpos, Nat.div_eq_of_lt (by omega), Nat.add_zero]
        rw [hpd, Nat.mul_comm, ← hd]
        exact hsize
      · have hdvd : 2 ^ 4 ∣ 2 ^ k := Nat.pow_dvd_pow 2 hcoarse
        exact Nat.mod_eq_zero_of_dvd (hdvd.mul_left p)

end Emu68.Tlsf
