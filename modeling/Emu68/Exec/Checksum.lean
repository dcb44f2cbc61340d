import Mathlib.Data.List.Basic
import Mathlib.Data.Int.Basic
import Mathlib.Tactic.SplitIfs

/-!
Which bytes `CalcCRC32` reads. Both translators keep the checksum of the code that a unit was made
from, and compute it again to see whether the code has changed.
-/

set_option autoImplicit false
set_option relaxedAutoImplicit false

namespace Emu68.Exec

def bytesAt (s : ℤ) (n : ℕ) : List ℤ := (List.range n).map fun k : ℕ ↦ s + k

/-- The reads of the given sizes that fit, and one of a byte if the end is not reached then. -/
def crcTail : List ℕ → ℤ → ℤ → List ℤ
  | [], s, e => if e ≠ s then [s] else []
  | size :: sizes, s, e =>
    if size ≤ e - s then bytesAt s size ++ crcTail sizes (s + size) e else crcTail sizes s e

/-- The addresses of the bytes that `CalcCRC32` reads. -/
def crcInput (s e : ℤ) : List ℤ :=
  if 16 ≤ e - s then bytesAt s 16 ++ crcInput (s + 16) e else crcTail [8, 4, 2] s e
termination_by (e - s).toNat

theorem mem_bytesAt {s b : ℤ} {n : ℕ} : b ∈ bytesAt s n ↔ s ≤ b ∧ b < s + n := by
  simp only [bytesAt, List.mem_map, List.mem_range]
  constructor
  · rintro ⟨k, hk, rfl⟩
    omega
  · rintro ⟨hle, hlt⟩
    exact ⟨(b - s).toNat, by omega, by omega⟩

theorem mem_crcTail {s e b : ℤ} (hfew : e - s < 16) (hs : s ≤ b) (he : b < e) :
    b ∈ crcTail [8, 4, 2] s e := by
  simp only [crcTail]
  split_ifs <;> simp only [List.mem_append, mem_bytesAt, List.mem_singleton,
    List.not_mem_nil] <;> omega

/-- The checksum depends on every byte of the interval. -/
theorem mem_crcInput {s e b : ℤ} (hs : s ≤ b) (he : b < e) : b ∈ crcInput s e := by
  fun_induction crcInput s e with
  | case1 s hmany ih =>
    rw [List.mem_append, mem_bytesAt]
    by_cases hblock : b < s + 16
    · exact .inl ⟨hs, hblock⟩
    · exact .inr (ih (by omega))
  | case2 s hfew => exact mem_crcTail (by omega) hs he

end Emu68.Exec
