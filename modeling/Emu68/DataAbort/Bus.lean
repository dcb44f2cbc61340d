import Emu68.DataAbort.Handlers

/-!
A bus that transfers bytes, and accesses to two places one behind the other.
-/

set_option autoImplicit false
set_option relaxedAutoImplicit false

namespace Emu68.DataAbort

open A64 Lib

/-! ### The bus -/

/-- The bus transfers the bytes of a plain access; a value is read with zeros above it. -/
structure Bus.Transfers (bus : Bus) (plain : BitVec 64 → ℕ → Prop) : Prop where
  write : ∀ log ≤ 3, ∀ far, plain far (2 ^ log) → ∀ value value2 m,
    bus.sysWriteValToAddr value value2 (2 ^ log) far m = (store m far (2 ^ log) value.toNat, true)
  writePair : ∀ far, plain far 16 → ∀ value value2 m, bus.sysWriteValToAddr value value2 16 far m =
    (store (store m far 8 value.toNat) (far + 8) 8 value2.toNat, true)
  read : ∀ log ≤ 3, ∀ far, plain far (2 ^ log) → ∀ m, ∃ value2,
    bus.sysReadValFromAddr (2 ^ log) far m = some (BitVec.ofNat 64 (load m far (2 ^ log)), value2)
  readPair : ∀ far, plain far 16 → ∀ m, bus.sysReadValFromAddr 16 far m =
    some (BitVec.ofNat 64 (load m far 8), BitVec.ofNat 64 (load m (far + 8) 8))

/-- The window does so but for the console. -/
theorem windowBus_transfers :
    windowBus.Transfers fun far size ↦ ¬ (far = 0xdeadbeef ∧ size = 1) where
  write := by
    intro log hlog far hplain value value2 m
    interval_cases log <;> exact if_neg hplain
  writePair := fun far hplain value value2 m ↦ if_neg hplain
  read := by
    intro log hlog far hplain m
    interval_cases log <;> exact ⟨0, rfl⟩
  readPair := fun far hplain m ↦ rfl

section Pairs

variable {w : ℕ} {a x : BitVec w} {m : Bytes}

/-- A store is one of its upper bytes and one of its lower bytes behind them. -/
theorem store_append (m : Bytes) (a : BitVec w) {n k : ℕ} (data : ℕ) (h : n + k ≤ 2 ^ w) :
    store m a (n + k) data =
      store (store m a n (data / 256 ^ k)) (a + BitVec.ofNat w n) k data := by
  funext i
  by_cases hi : i < 2 ^ w
  · obtain ⟨x, rfl⟩ : ∃ x : BitVec w, i = x.toNat := ⟨BitVec.ofNat w i, by
      rw [BitVec.toNat_ofNat, Nat.mod_eq_of_lt hi]⟩
    have hlt := (x - a).isLt
    have hbehind : (x - (a + BitVec.ofNat w n)).toNat =
        if n ≤ (x - a).toNat then (x - a).toNat - n else (x - a).toNat + 2 ^ w - n := by
      have hsplit : x - (a + BitVec.ofNat w n) = x - a - BitVec.ofNat w n := by
        rw [BitVec.sub_eq_add_neg, BitVec.sub_eq_add_neg, BitVec.sub_eq_add_neg, BitVec.neg_add,
          BitVec.sub_eq_add_neg, BitVec.add_assoc]
      have hn : n % 2 ^ w = n ∨ n = 2 ^ w := by
        rcases Nat.lt_or_ge n (2 ^ w) with hlt' | hge
        · exact .inl (Nat.mod_eq_of_lt hlt')
        · exact .inr (by omega)
      rw [hsplit, BitVec.toNat_sub, BitVec.toNat_ofNat]
      rcases hn with hn | hn
      · rw [hn]
        split_ifs with hle
        · rw [show 2 ^ w - n + (x - a).toNat = (x - a).toNat - n + 2 ^ w by omega, Nat.add_mod_right,
            Nat.mod_eq_of_lt (by omega)]
        · rw [Nat.mod_eq_of_lt (by omega)]
          omega
      · rw [hn, Nat.mod_self, Nat.sub_zero, Nat.add_mod_left, Nat.mod_eq_of_lt hlt,
          if_neg (by omega), Nat.add_sub_cancel]
    by_cases hfront : (x - a).toNat < n
    · rw [store_inside (by omega), store_outside, store_inside hfront]
      · unfold byteOf
        rw [Nat.div_div_eq_div_mul, ← pow_add]
        congr 3
        omega
      · unfold Outside
        rw [hbehind, if_neg (by omega)]
        omega
    · by_cases hback : (x - a).toNat < n + k
      · rw [store_inside hback, store_inside (by rw [hbehind, if_pos (by omega)]; omega), hbehind,
          if_pos (by omega)]
        unfold byteOf
        congr 3
        omega
      · rw [store_outside (by unfold Outside; omega), store_outside, store_outside]
        · unfold Outside
          omega
        · unfold Outside
          rw [hbehind, if_pos (by omega)]
          omega
  · unfold store
    rw [if_neg fun h ↦ hi h.1, if_neg fun h ↦ hi h.1, if_neg fun h ↦ hi h.1]

end Pairs

end Emu68.DataAbort
