import Mathlib.Algebra.Ring.Nat
import Mathlib.Tactic.Common
import Mathlib.Tactic.Ring

/-!
Byte-addressed memory. A store replaces the bytes of an interval; a load reads an interval as one
big-endian number. The same operations serve a memory and a buffer of bytes.
-/

set_option autoImplicit false
set_option relaxedAutoImplicit false

namespace Emu68.Lib

/-- A memory, or a buffer of which only the first bytes are used. -/
abbrev Bytes := ℕ → UInt8

/-- The memory after `n` bytes are stored from address `a` on. -/
def storeBytes (m : Bytes) (a n : ℕ) (bytes : Bytes) : Bytes :=
  fun x ↦ if a ≤ x ∧ x < a + n then bytes (x - a) else m x

/-- The big-endian number in the `n` bytes from address `a` on. -/
def loadValue (m : Bytes) (a : ℕ) : ℕ → ℕ
  | 0 => 0
  | n + 1 => loadValue m a n * 256 + (m (a + n)).toNat

/-- The bytes of an `n`-byte big-endian number. -/
def byteOf (n data : ℕ) : Bytes :=
  fun i ↦ UInt8.ofNat (data / 256 ^ (n - 1 - i))

variable {m m' : Bytes} {a n x : ℕ} {bytes : Bytes}

theorem storeBytes_inside (h₁ : a ≤ x) (h₂ : x < a + n) :
    storeBytes m a n bytes x = bytes (x - a) :=
  if_pos ⟨h₁, h₂⟩

theorem storeBytes_outside (h : x < a ∨ a + n ≤ x) : storeBytes m a n bytes x = m x :=
  if_neg fun hx ↦ by omega

/-- A load depends on the bytes of its interval only, wherever they lie. -/
theorem loadValue_congr {b : ℕ} (h : ∀ i < n, m (a + i) = m' (b + i)) :
    loadValue m a n = loadValue m' b n := by
  induction n with
  | zero => rfl
  | succ n ih =>
    rw [loadValue, loadValue, ih fun i hi ↦ h i (Nat.lt_succ_of_lt hi), h n (Nat.lt_succ_self n)]

/-- What has been stored can be loaded. -/
theorem loadValue_storeBytes (m : Bytes) (a n data : ℕ) :
    loadValue (storeBytes m a n (byteOf n data)) a n = data % 256 ^ n := by
  have hsome : ∀ k ≤ n, loadValue (storeBytes m a n (byteOf n data)) a k =
      data / 256 ^ (n - k) % 256 ^ k := by
    intro k
    induction k with
    | zero =>
      intro _
      rw [pow_zero, Nat.mod_one]
      rfl
    | succ k ih =>
      intro hk
      have hbyte : (storeBytes m a n (byteOf n data) (a + k)).toNat =
          data / 256 ^ (n - (k + 1)) % 256 := by
        rw [storeBytes_inside (by omega) (by omega), Nat.add_sub_cancel_left, byteOf,
          UInt8.toNat_ofNat', show n - 1 - k = n - (k + 1) by omega]
      rw [loadValue, ih (by omega), hbyte, show n - k = n - (k + 1) + 1 by omega, pow_succ,
        ← Nat.div_div_eq_div_mul, pow_succ', Nat.mod_mul]
      ring
  rw [hsome n le_rfl, Nat.sub_self, pow_zero, Nat.div_one]

/-! ### Parts of a load -/

theorem loadValue_lt (m : Bytes) (a n : ℕ) : loadValue m a n < 256 ^ n := by
  induction n with
  | zero => exact Nat.one_pos
  | succ n ih =>
    have hbyte := (m (a + n)).toNat_lt
    rw [loadValue, pow_succ]
    omega

/-- Equal values are loaded from equal bytes only. -/
theorem loadValue_inj (h : loadValue m a n = loadValue m' a n) : ∀ i < n, m (a + i) = m' (a + i) := by
  induction n with
  | zero => exact fun i hi ↦ absurd hi (Nat.not_lt_zero i)
  | succ n ih =>
    have hm := (m (a + n)).toNat_lt
    have hm' := (m' (a + n)).toNat_lt
    rw [loadValue, loadValue] at h
    have hlast : m (a + n) = m' (a + n) := UInt8.toNat_inj.mp (by omega)
    intro i hi
    rcases Nat.lt_succ_iff_lt_or_eq.mp hi with hlt | rfl
    · exact ih (by omega) i hlt
    · exact hlast

/-- Consecutive intervals are loaded one after the other. -/
theorem loadValue_append (m : Bytes) (a n k : ℕ) :
    loadValue m a (n + k) = loadValue m a n * 256 ^ k + loadValue m (a + n) k := by
  induction k with
  | zero => rw [pow_zero, Nat.mul_one, Nat.add_zero, loadValue, Nat.add_zero]
  | succ k ih =>
    rw [← Nat.add_assoc, loadValue, ih, loadValue, ← Nat.add_assoc a n k, pow_succ]
    ring

/-- The high bytes of a load are those of the first addresses. -/
theorem loadValue_shiftRight (m : Bytes) (a n k : ℕ) :
    loadValue m a (n + k) >>> (8 * k) = loadValue m a n := by
  have hlow := loadValue_lt m (a + n) k
  rw [loadValue_append, Nat.shiftRight_eq_div_pow, pow_mul, show 2 ^ 8 = 256 by rfl, mul_comm,
    Nat.mul_add_div (Nat.pow_pos (by decide)), Nat.div_eq_of_lt hlow, Nat.add_zero]

/-- A shift inside a word of `n` bytes moves the bytes at the first addresses out. -/
theorem loadValue_shiftLeft_mod (m : Bytes) (a j n k : ℕ) :
    loadValue m a (j + n) <<< (8 * k) % 2 ^ (8 * (n + k)) = loadValue m (a + j) n <<< (8 * k) := by
  have hlow : loadValue m (a + j) n * 256 ^ k < 256 ^ (n + k) := by
    rw [pow_add]
    exact Nat.mul_lt_mul_of_pos_right (loadValue_lt m (a + j) n) (Nat.pow_pos (by decide))
  rw [Nat.shiftLeft_eq, Nat.shiftLeft_eq, pow_mul, pow_mul, show 2 ^ 8 = 256 by rfl,
    loadValue_append, Nat.add_mul, mul_assoc, ← pow_add, Nat.mul_comm (loadValue m a j),
    Nat.mul_add_mod, Nat.mod_eq_of_lt hlow]

/-- Two loads that follow each other make one. -/
theorem loadValue_shiftLeft_or (m : Bytes) (a n k : ℕ) :
    loadValue m a n <<< (8 * k) ||| loadValue m (a + n) k = loadValue m a (n + k) := by
  have hlow : loadValue m (a + n) k < 2 ^ (8 * k) := by
    rw [pow_mul]
    exact loadValue_lt m (a + n) k
  rw [← Nat.shiftLeft_add_eq_or_of_lt hlow, loadValue_append, Nat.shiftLeft_eq, pow_mul]
  rfl

end Emu68.Lib
