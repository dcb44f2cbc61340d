import Emu68.SoftCache.Runs

/-!
Accesses that cross a line. A read is put together from two reads inside lines, and is the number in
its bytes, but for one offset: `cache_read_64` at offset 13 shifts the first two bytes to the wrong
place. A write is refused.
-/

set_option autoImplicit false
set_option relaxedAutoImplicit false

namespace Emu68.SoftCache

open Lib

variable {s : CacheState} {a n k x y : ℕ} {width : Width}

/-! ### Reads that are put together -/

/-- A read that returns a value, and leaves the logical memory as it is. -/
structure Reads (s : CacheState) (result : CacheState × ℕ) (value : ℕ) : Prop where
  coherent : Coherent result.1
  view_eq : view result.1 = view s
  value_eq : result.2 = value

theorem reads_line (h : Coherent s) (hin : a % 16 + n ≤ 16) :
    Reads s (readLine n s a) (loadValue (view s) a n) := by
  obtain ⟨hcoherent, hview, hvalue⟩ := readLine_spec h hin
  exact ⟨hcoherent, hview, hvalue⟩

theorem reads_span (h : Coherent s) (hlow : a < cacheLimit) (hin : a % 16 + n ≤ 16) :
    Reads s (readSpan n s a) (loadValue (view s) a n) := by
  rw [readSpan, if_neg (Nat.not_le_of_lt hlow)]
  exact reads_line h hin

/-- The second read finds the logical memory that the first one left. -/
theorem Reads.both {first second : CacheState → CacheState × ℕ} (hfirst : Reads s (first s) x)
    (hsecond : ∀ s', Coherent s' → view s' = view s → Reads s' (second s') y)
    (join : ℕ → ℕ → ℕ) : Reads s (readBoth first second join s) (join x y) := by
  have hnext := hsecond _ hfirst.coherent hfirst.view_eq
  refine ⟨hnext.coherent, hnext.view_eq.trans hfirst.view_eq, ?_⟩
  show join (first s).2 (second (first s).1).2 = join x y
  rw [hfirst.value_eq, hnext.value_eq]

theorem reads_both {a₁ a₂ n₁ n₂ : ℕ} (h : Coherent s) (hlow₁ : a₁ < cacheLimit)
    (hin₁ : a₁ % 16 + n₁ ≤ 16) (hlow₂ : a₂ < cacheLimit) (hin₂ : a₂ % 16 + n₂ ≤ 16)
    (join : ℕ → ℕ → ℕ) :
    Reads s (readBoth (readSpan n₁ · a₁) (readSpan n₂ · a₂) join s)
      (join (loadValue (view s) a₁ n₁) (loadValue (view s) a₂ n₂)) := by
  refine (reads_span h hlow₁ hin₁).both (fun s' hs' hview ↦ ?_) join
  rw [← hview]
  exact reads_span hs' hlow₂ hin₂

/-- The second part is the front of a longer read. -/
theorem join_front (m : Bytes) (a n k r : ℕ) :
    loadValue m a n <<< (8 * k) ||| loadValue m (a + n) (k + r) >>> (8 * r) =
      loadValue m a (n + k) := by
  rw [loadValue_shiftRight, loadValue_shiftLeft_or]

/-- The first part is the back of a longer read. -/
theorem join_back (m : Bytes) (a j n k : ℕ) :
    loadValue m a (j + n) <<< (8 * k) % 2 ^ (8 * (n + k)) ||| loadValue m (a + j + n) k =
      loadValue m (a + j) (n + k) := by
  rw [loadValue_shiftLeft_mod, loadValue_shiftLeft_or]

theorem join_back_front (m : Bytes) (a j n k r : ℕ) :
    loadValue m a (j + n) <<< (8 * k) % 2 ^ (8 * (n + k)) |||
        loadValue m (a + j + n) (k + r) >>> (8 * r) = loadValue m (a + j) (n + k) := by
  rw [loadValue_shiftLeft_mod, join_front]

/-! ### The routines -/

theorem reads_16 (h : Coherent s) (hlimit : a + 2 ≤ cacheLimit) :
    Reads s (cacheRead16 s a) (loadValue (view s) a 2) := by
  rw [cacheRead16, if_neg (by omega)]
  split
  · rw [← loadValue_shiftLeft_or (view s) a 1 1]
    exact reads_both h (by omega) (by omega) (by omega) (by omega) _
  · exact reads_line h (by omega)

theorem reads_32 (h : Coherent s) (hlimit : a + 4 ≤ cacheLimit) :
    Reads s (cacheRead32 s a) (loadValue (view s) a 4) := by
  rw [cacheRead32, if_neg (by omega)]
  split
  · have hoffset : a % 16 = 13 ∨ a % 16 = 14 ∨ a % 16 = 15 := by omega
    rcases hoffset with hoffset | hoffset | hoffset
    · rw [hoffset]
      obtain ⟨b, rfl⟩ : ∃ b, a = b + 1 := ⟨a - 1, by omega⟩
      rw [← join_back (view s) b 1 3 1]
      exact reads_both h (by omega) (by omega) (by omega) (by omega) _
    · rw [hoffset, ← loadValue_shiftLeft_or (view s) a 2 2]
      exact reads_both h (by omega) (by omega) (by omega) (by omega) _
    · rw [hoffset, ← join_front (view s) a 1 3 1]
      exact reads_both h (by omega) (by omega) (by omega) (by omega) _
  · exact reads_line h (by omega)

theorem reads_64 (h : Coherent s) (hlimit : a + 8 ≤ cacheLimit) (hne : a % 16 ≠ 13) :
    Reads s (cacheRead64 s a) (loadValue (view s) a 8) := by
  rw [cacheRead64, if_neg (by omega)]
  split
  · have hoffset : a % 16 = 9 ∨ a % 16 = 10 ∨ a % 16 = 11 ∨ a % 16 = 12 ∨ a % 16 = 14 ∨
        a % 16 = 15 := by omega
    rcases hoffset with hoffset | hoffset | hoffset | hoffset | hoffset | hoffset
    · rw [hoffset]
      obtain ⟨b, rfl⟩ : ∃ b, a = b + 1 := ⟨a - 1, by omega⟩
      rw [← join_back (view s) b 1 7 1]
      exact reads_both h (by omega) (by omega) (by omega) (by omega) _
    · rw [hoffset]
      obtain ⟨b, rfl⟩ : ∃ b, a = b + 2 := ⟨a - 2, by omega⟩
      rw [← join_back (view s) b 2 6 2]
      exact reads_both h (by omega) (by omega) (by omega) (by omega) _
    · rw [hoffset]
      obtain ⟨b, rfl⟩ : ∃ b, a = b + 3 := ⟨a - 3, by omega⟩
      rw [← join_back_front (view s) b 3 5 3 1]
      exact reads_both h (by omega) (by omega) (by omega) (by omega) _
    · rw [hoffset, ← loadValue_shiftLeft_or (view s) a 4 4]
      exact reads_both h (by omega) (by omega) (by omega) (by omega) _
    · rw [hoffset, ← join_front (view s) a 2 6 2]
      exact reads_both h (by omega) (by omega) (by omega) (by omega) _
    · rw [hoffset, ← join_front (view s) a 1 7 1]
      exact reads_both h (by omega) (by omega) (by omega) (by omega) _
  · exact reads_line h (by omega)

theorem reads_128 (h : Coherent s) (hlimit : a + 16 ≤ cacheLimit) (hne : a % 8 ≠ 5) :
    Reads s (cacheRead128 s a) (loadValue (view s) a 16) := by
  rw [cacheRead128, if_neg (by omega)]
  split
  · rw [← loadValue_shiftLeft_or (view s) a 8 8]
    refine (reads_64 h (by omega) (by omega)).both (fun s' hs' hview ↦ ?_) _
    rw [← hview]
    exact reads_64 hs' (by omega) (by omega)
  · exact reads_line h (by omega)

/-- The reads that come to `cache_read_64` at offset 13. -/
def ReadsAt13 : Width → ℕ → Prop
  | .w64, address => address % 16 = 13
  | .w128, address => address % 8 = 5
  | _, _ => False

theorem reads_width (h : Coherent s) (hlimit : a + width.bytes ≤ cacheLimit)
    (hne : ¬ReadsAt13 width a) : Reads s (cacheRead width s a) (loadValue (view s) a width.bytes) := by
  cases width with
  | w8 => exact reads_span h hlimit (by omega)
  | w16 => exact reads_16 h hlimit
  | w32 => exact reads_32 h hlimit
  | w64 => exact reads_64 h hlimit hne
  | w128 => exact reads_128 h hlimit hne

/-! ### Accesses that cross a line -/

def Spans (width : Width) (address : ℕ) : Prop := 16 < address % 16 + width.bytes

/-- What `cache_read_8` would return at each address. -/
def bytesRead (s : CacheState) : Bytes := fun x ↦ UInt8.ofNat (cacheRead8 s x).2

theorem bytesRead_eq (h : Coherent s) (hx : x < cacheLimit) : bytesRead s x = view s x := by
  have hread := (reads_span h hx (n := 1) (by omega)).value_eq
  rw [bytesRead, cacheRead8, hread, loadValue, loadValue, Nat.zero_mul, Nat.zero_add, Nat.add_zero,
    UInt8.ofNat_toNat]

theorem write_refused (hspan : Spans width a) (data : ℕ) (wb : UInt8) :
    cacheWrite width s a data wb = (s, 0) := by
  unfold Spans at hspan
  cases width <;> simp only [Width.bytes] at hspan
  · omega
  · exact if_pos (by omega)
  · exact if_pos (by omega)
  · exact if_pos (by omega)
  · exact if_pos (by omega)

/-- A write that is accepted stores its bytes, as `cache_read_8` returns them. -/
theorem bytesRead_write (h : Coherent s) {data : ℕ} {wb : UInt8}
    (haccepted : (cacheWrite width s a data wb).2 ≠ 0) (hx : x < cacheLimit) :
    bytesRead (cacheWrite width s a data wb).1 x =
      storeBytes (bytesRead s) a width.bytes (byteOf width.bytes data) x := by
  have hin : a % 16 + width.bytes ≤ 16 := by
    by_contra hspan
    rw [write_refused (Nat.lt_of_not_le hspan)] at haccepted
    exact haccepted rfl
  obtain ⟨hcoherent, hrefused | ⟨-, hview⟩⟩ := cacheWrite_spec h hin data wb
  · rw [hrefused] at haccepted
    exact absurd rfl haccepted
  · rw [bytesRead_eq hcoherent hx, hview, storeBytes, storeBytes, bytesRead_eq h hx]

/-- The accesses of a width at an address: a read across a line that does not come to
`cache_read_64` at offset 13, a write across a line, and a write that is accepted. -/
structure CrossingAccess (s : CacheState) (width : Width) (address : ℕ) : Prop where
  read : Spans width address → ¬ReadsAt13 width address →
    (cacheRead width s address).2 = loadValue (bytesRead s) address width.bytes
  refused : Spans width address → ∀ data wb, cacheWrite width s address data wb = (s, 0)
  stored : ∀ data wb, (cacheWrite width s address data wb).2 ≠ 0 → ∀ x < cacheLimit,
    bytesRead (cacheWrite width s address data wb).1 x =
      storeBytes (bytesRead s) address width.bytes (byteOf width.bytes data) x

theorem crossingAccess (h : Coherent s) (hlimit : a + width.bytes ≤ cacheLimit) :
    CrossingAccess s width a where
  read _ hne := by
    rw [(reads_width h hlimit hne).value_eq]
    exact loadValue_congr fun i hi ↦ (bytesRead_eq h (by omega)).symm
  refused hspan data wb := write_refused hspan data wb
  stored _ _ haccepted _ hx := bytesRead_write h haccepted hx

/-- An empty cache in front of a memory that holds the low byte of each address. -/
def counting : CacheState := cacheInvalidateAll { blank with memory := fun x ↦ UInt8.ofNat x }

theorem crossingAccess_counting : CrossingAccess counting .w32 0x1d :=
  crossingAccess (coherent_invalidated _).1 (by decide)

/-- Reads at offset 13 are wrong, and a write across a line is not stored. -/
theorem not_crossing_access :
    (¬∀ s width address, Coherent s → address + width.bytes ≤ cacheLimit → Spans width address →
      (cacheRead width s address).2 = loadValue (bytesRead s) address width.bytes) ∧
    ¬∀ s width address data wb, Coherent s → address + width.bytes ≤ cacheLimit →
      Spans width address → ∀ x < cacheLimit,
        bytesRead (cacheWrite width s address data wb).1 x =
          storeBytes (bytesRead s) address width.bytes (byteOf width.bytes data) x := by
  have hcoherent : Coherent counting := (coherent_invalidated _).1
  constructor
  · intro hall
    have hread := hall counting .w64 13 hcoherent (by decide) (by unfold Spans; decide)
    exact absurd hread (by decide +kernel)
  · intro hall
    have hwrite := hall counting .w16 15 0xaaaa 1 hcoherent (by decide) (by unfold Spans; decide)
      15 (by decide)
    exact absurd hwrite (by decide +kernel)

end Emu68.SoftCache
