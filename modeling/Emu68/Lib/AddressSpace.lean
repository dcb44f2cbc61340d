import Emu68.Lib.ByteMemory
import Mathlib.Data.BitVec

/-!
Loads and stores at machine addresses. The bytes of an access have consecutive addresses, and the
address after the last one is zero. Within the memory an address is a number.
-/

set_option autoImplicit false
set_option relaxedAutoImplicit false

namespace Emu68.Lib

variable {w : ℕ}

/-- The big-endian number in the `n` bytes from address `a` on. -/
def load (m : Bytes) (a : BitVec w) (n : ℕ) : ℕ :=
  loadValue (fun i ↦ m (a + BitVec.ofNat w i).toNat) 0 n

/-- The memory after an `n`-byte big-endian number is stored at address `a`. -/
def store (m : Bytes) (a : BitVec w) (n data : ℕ) : Bytes := fun x ↦
  if x < 2 ^ w ∧ (BitVec.ofNat w x - a).toNat < n then byteOf n data (BitVec.ofNat w x - a).toNat
  else m x

/-- The address is not among the `n` addresses from `a` on. -/
def Outside (a : BitVec w) (n : ℕ) (x : BitVec w) : Prop := n ≤ (x - a).toNat

variable {m : Bytes} {a b x : BitVec w} {n k data : ℕ}

theorem store_inside (h : (x - a).toNat < n) :
    store m a n data x.toNat = byteOf n data (x - a).toNat := by
  have hx : BitVec.ofNat w x.toNat = x := by rw [BitVec.ofNat_toNat, BitVec.setWidth_eq]
  simp only [store, hx]
  exact if_pos ⟨x.isLt, h⟩

theorem store_outside (h : Outside a n x) : store m a n data x.toNat = m x.toNat := by
  have hx : BitVec.ofNat w x.toNat = x := by rw [BitVec.ofNat_toNat, BitVec.setWidth_eq]
  simp only [store, hx]
  exact if_neg fun hin ↦ absurd h (Nat.not_le.mpr hin.2)

theorem add_sub_toNat (a : BitVec w) {i : ℕ} (hi : i < 2 ^ w) :
    (a + BitVec.ofNat w i - a).toNat = i := by
  rw [BitVec.add_comm, BitVec.add_sub_cancel, BitVec.toNat_ofNat, Nat.mod_eq_of_lt hi]

/-- A load depends on its bytes only. -/
theorem load_congr {m' : Bytes} (h : ∀ i < n, m (a + BitVec.ofNat w i).toNat =
    m' (a + BitVec.ofNat w i).toNat) : load m a n = load m' a n :=
  loadValue_congr fun i hi ↦ by simpa using h i hi

theorem load_lt (m : Bytes) (a : BitVec w) (n : ℕ) : load m a n < 2 ^ (8 * n) := by
  rw [pow_mul]
  exact loadValue_lt _ 0 n

/-- A store takes the lowest bytes of its number. -/
theorem store_congr {data' : ℕ} (h : data % 256 ^ n = data' % 256 ^ n) :
    store m a n data = store m a n data' := by
  funext x
  unfold store
  split_ifs with hx
  · obtain ⟨-, hlt⟩ := hx
    refine UInt8.toNat_inj.mp ?_
    have hsplit : ∀ y k : ℕ, y / 256 ^ k % 256 = y % 256 ^ (k + 1) / 256 ^ k := fun y k ↦ by
      rw [pow_succ, Nat.mod_mul_right_div_self]
    have hlow : ∀ k : ℕ, data % 256 ^ (n - 1 - k + 1) = data' % 256 ^ (n - 1 - k + 1) := by
      intro k
      have hdvd : 256 ^ (n - 1 - k + 1) ∣ 256 ^ n := pow_dvd_pow 256 (by omega)
      rw [← Nat.mod_mod_of_dvd data hdvd, h, Nat.mod_mod_of_dvd data' hdvd]
    rw [byteOf, byteOf, UInt8.toNat_ofNat', UInt8.toNat_ofNat']
    show _ % 256 = _ % 256
    rw [hsplit, hsplit, hlow]
  · rfl

/-- What has been stored can be loaded. -/
theorem load_store (m : Bytes) (a : BitVec w) (data : ℕ) (hn : n ≤ 2 ^ w) :
    load (store m a n data) a n = data % 256 ^ n := by
  rw [← loadValue_storeBytes (fun _ ↦ 0) 0 n data]
  refine loadValue_congr fun i hi ↦ ?_
  have hoff := add_sub_toNat a (Nat.lt_of_lt_of_le hi hn)
  simp only [Nat.zero_add]
  rw [store_inside (by rwa [hoff]), hoff, storeBytes_inside (Nat.zero_le i) (by omega), Nat.sub_zero]

/-- Consecutive addresses are loaded one after the other. -/
theorem load_append (m : Bytes) (a : BitVec w) (n k : ℕ) :
    load m a (n + k) = load m a n * 256 ^ k + load m (a + BitVec.ofNat w n) k := by
  have hrest : loadValue (fun i ↦ m (a + BitVec.ofNat w i).toNat) (0 + n) k =
      load m (a + BitVec.ofNat w n) k :=
    loadValue_congr fun i _ ↦ by
      rw [Nat.zero_add, Nat.zero_add, BitVec.ofNat_add, BitVec.add_assoc]
  rw [load, loadValue_append, hrest]
  rfl

/-- A store elsewhere does not change what is loaded. -/
theorem load_store_of_outside (h : ∀ i < k, Outside a n (b + BitVec.ofNat w i)) :
    load (store m a n data) b k = load m b k :=
  load_congr fun i hi ↦ store_outside (h i hi)

/-- Two intervals of addresses do not meet if neither start is in the other one. -/
theorem outside_of_apart (hb : n ≤ (b - a).toNat) (ha : (b - a).toNat + k ≤ 2 ^ w) :
    ∀ i < k, Outside a n (b + BitVec.ofNat w i) := by
  intro i hi
  have hsum : b + BitVec.ofNat w i - a = b - a + BitVec.ofNat w i := by
    rw [BitVec.sub_eq_add_neg, BitVec.sub_eq_add_neg, BitVec.add_assoc, BitVec.add_comm (.ofNat w i),
      ← BitVec.add_assoc]
  unfold Outside
  rw [hsum, BitVec.toNat_add, BitVec.toNat_ofNat, Nat.mod_eq_of_lt (a := i) (by omega),
    Nat.mod_eq_of_lt (by omega)]
  omega

end Emu68.Lib
