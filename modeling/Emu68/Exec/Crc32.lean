import Emu68.Lib.ByteMemory
import Mathlib.Data.BitVec
import Mathlib.Logic.Function.Iterate

/-!
The value of `CalcCRC32`. The loads are those of the instruction fetch, big-endian, and the
checksum instructions take the bytes of a value from its low end.
-/

set_option autoImplicit false
set_option relaxedAutoImplicit false

namespace Emu68.Exec

open Lib (Bytes loadValue)

/-- One bit of the checksum. -/
def crcRound (c : BitVec 32) : BitVec 32 :=
  if c.getLsbD 0 then (c >>> 1) ^^^ 0xedb88320#32 else c >>> 1

/-- `crc32b`. -/
def crc32b (crc : BitVec 32) (val : ℕ) : BitVec 32 :=
  crcRound^[8] (crc ^^^ BitVec.ofNat 32 (val % 256))

/-- `crc32h`, `crc32w` and `crc32x`, for a value of `n` bytes. -/
def crc32 : ℕ → BitVec 32 → ℕ → BitVec 32
  | 0, crc, _ => crc
  | n + 1, crc, val => crc32 n (crc32b crc val) (val / 256)

/-- What the reads of the instruction cache give, or the loads above it. The read of eight bytes at
offset 13 of a cache line leaves out the third one. -/
def fetchValue (m : Bytes) (a n : ℕ) : ℕ :=
  if n = 8 ∧ a ≤ 0x01000000 ∧ a % 16 = 13 then loadValue m a 2 <<< 40 ||| loadValue m (a + 3) 5
  else loadValue m a n

/-- Checksum and address, after the next `n` bytes. -/
def feed (m : Bytes) (n : ℕ) (c : BitVec 32 × ℕ) : BitVec 32 × ℕ :=
  (crc32 n c.1 (fetchValue m c.2 n), c.2 + n)

def feedIf (m : Bytes) (e n : ℕ) (c : BitVec 32 × ℕ) : BitVec 32 × ℕ :=
  if c.2 + n ≤ e then feed m n c else c

def feedBlocks (m : Bytes) (e : ℕ) (c : BitVec 32 × ℕ) : BitVec 32 × ℕ :=
  if c.2 + 16 ≤ e then feedBlocks m e (feed m 8 (feed m 8 c)) else c
termination_by e - c.2
decreasing_by
  simp only [feed]
  omega

/-- All but the last byte, if their number is odd. -/
def feedPairs (m : Bytes) (s e : ℕ) : BitVec 32 × ℕ :=
  feedIf m e 2 (feedIf m e 4 (feedIf m e 8 (feedBlocks m e (0xffffffff, s))))

/-- Above the first 16 MiB a last byte is read as a half-word, of which the checksum takes the
second byte. -/
def calcCRC32 (m : Bytes) (s e : ℕ) : BitVec 32 :=
  let c := feedPairs m s e
  if e ≠ c.2 then crc32 1 c.1 (loadValue m c.2 (if 0x01000000 < c.2 then 2 else 1)) else c.1

variable {m m' : Bytes} {s e n : ℕ} {c : BitVec 32 × ℕ}

/-! ### What the checksum depends on -/

/-- The memories agree up to `e`. -/
def SameBelow (m m' : Bytes) (s e : ℕ) : Prop := ∀ x, s ≤ x → x < e → m x = m' x

theorem fetchValue_congr {a : ℕ} (h : ∀ i < n, m (a + i) = m' (a + i)) :
    fetchValue m a n = fetchValue m' a n := by
  unfold fetchValue
  split_ifs with hbroken
  · have hlast : loadValue m (a + 3) 5 = loadValue m' (a + 3) 5 :=
      Lib.loadValue_congr fun i hi ↦ by
        rw [Nat.add_assoc]
        exact h (3 + i) (by omega)
    rw [Lib.loadValue_congr fun i hi ↦ h i (by omega), hlast]
  · exact Lib.loadValue_congr h

theorem SameBelow.feed (h : SameBelow m m' s e) (hs : s ≤ c.2) (he : c.2 + n ≤ e) :
    feed m n c = Exec.feed m' n c := by
  unfold Exec.feed
  rw [fetchValue_congr fun i hi ↦ h _ (by omega) (by omega)]

theorem SameBelow.feedIf (h : SameBelow m m' s e) (hs : s ≤ c.2) :
    feedIf m e n c = Exec.feedIf m' e n c := by
  unfold Exec.feedIf
  split_ifs with hle
  · exact h.feed hs hle
  · rfl

theorem SameBelow.feedBlocks (h : SameBelow m m' s e) (hs : s ≤ c.2) :
    feedBlocks m e c = Exec.feedBlocks m' e c := by
  fun_induction Exec.feedBlocks m e c with
  | case1 c hle ih =>
    rw [Exec.feedBlocks.eq_1 m' e c, if_pos hle]
    have hfirst : Exec.feed m 8 c = Exec.feed m' 8 c := h.feed hs (by omega)
    have hsecond : Exec.feed m 8 (Exec.feed m' 8 c) = Exec.feed m' 8 (Exec.feed m' 8 c) :=
      h.feed (hs.trans (Nat.le_add_right _ 8)) hle
    rw [hfirst, hsecond] at ih ⊢
    exact ih (hs.trans ((Nat.le_add_right _ 8).trans (Nat.le_add_right _ 8)))
  | case2 c hlt => rw [Exec.feedBlocks, if_neg hlt]

/-- The address moves on inside the interval, by as many steps as there are pairs. -/
structure Advances (c c' : BitVec 32 × ℕ) (e : ℕ) : Prop where
  le : c.2 ≤ c'.2
  limit : c.2 ≤ e → c'.2 ≤ e
  parity : c'.2 % 2 = c.2 % 2

theorem Advances.refl : Advances c c e := ⟨le_rfl, id, rfl⟩

theorem Advances.trans {c₁ c₂ c₃ : BitVec 32 × ℕ} (h : Advances c₁ c₂ e) (h' : Advances c₂ c₃ e) :
    Advances c₁ c₃ e :=
  ⟨h.le.trans h'.le, fun hle ↦ h'.limit (h.limit hle), h'.parity.trans h.parity⟩

theorem advances_feedIf (hn : n % 2 = 0) : Advances c (feedIf m e n c) e := by
  unfold feedIf
  split_ifs with hle
  · refine ⟨Nat.le_add_right _ _, fun _ ↦ hle, ?_⟩
    show (c.2 + n) % 2 = c.2 % 2
    omega
  · exact .refl

theorem advances_feedBlocks : Advances c (feedBlocks m e c) e := by
  fun_induction feedBlocks m e c with
  | case1 c hle ih =>
    refine Advances.trans ⟨?_, fun _ ↦ ?_, ?_⟩ ih
    · show c.2 ≤ c.2 + 8 + 8
      omega
    · show c.2 + 8 + 8 ≤ e
      omega
    · show (c.2 + 8 + 8) % 2 = c.2 % 2
      omega
  | case2 c hlt => exact .refl

theorem feedBlocks_end (h : c.2 ≤ e) : e < (feedBlocks m e c).2 + 16 := by
  fun_induction feedBlocks m e c with
  | case1 c hle ih => exact ih (show c.2 + 8 + 8 ≤ e by omega)
  | case2 c hlt => omega

theorem feedIf_end (h : e < c.2 + 2 * n) : e < (feedIf m e n c).2 + n := by
  unfold feedIf
  split_ifs with hle
  · show e < c.2 + n + n
    omega
  · omega

theorem feedPairs_snd (h : s ≤ e) : (feedPairs m s e).2 = e - (e - s) % 2 := by
  set c₁ := feedBlocks m e (0xffffffff, s) with hc₁
  set c₂ := feedIf m e 8 c₁ with hc₂
  set c₃ := feedIf m e 4 c₂ with hc₃
  have h₁ : e < c₁.2 + 16 := feedBlocks_end h
  have h₂ : e < c₂.2 + 8 := feedIf_end h₁
  have h₃ : e < c₃.2 + 4 := feedIf_end h₂
  have h₄ : e < (feedIf m e 2 c₃).2 + 2 := feedIf_end h₃
  have hadvances : Advances (0xffffffff, s) (feedIf m e 2 c₃) e :=
    ((advances_feedBlocks.trans (advances_feedIf rfl)).trans (advances_feedIf rfl)).trans
      (advances_feedIf rfl)
  have hlimit := hadvances.limit h
  have hparity : (feedIf m e 2 c₃).2 % 2 = s % 2 := hadvances.parity
  show (feedIf m e 2 c₃).2 = _
  omega

theorem feedPairs_of_lt (h : e < s) : feedPairs m s e = (0xffffffff, s) := by
  have hblocks : feedBlocks m e (0xffffffff, s) = (0xffffffff, s) := by
    rw [feedBlocks, if_neg (show ¬ s + 16 ≤ e by omega)]
  have hif : ∀ n, feedIf m e n (0xffffffff, s) = (0xffffffff, s) := fun n ↦
    if_neg (show ¬ s + n ≤ e by omega)
  rw [feedPairs, hblocks, hif, hif, hif]

theorem SameBelow.feedPairs (h : SameBelow m m' s e) : feedPairs m s e = Exec.feedPairs m' s e := by
  have hblocks := h.feedBlocks (c := (0xffffffff, s)) le_rfl
  unfold Exec.feedPairs
  rw [hblocks]
  have h₁ : s ≤ (Exec.feedBlocks m' e (0xffffffff, s)).2 :=
    (advances_feedBlocks (c := (0xffffffff, s))).le
  rw [h.feedIf h₁]
  have h₂ := h₁.trans (advances_feedIf (m := m') (e := e) (n := 8) rfl).le
  rw [h.feedIf h₂]
  have h₃ := h₂.trans (advances_feedIf (m := m') (e := e) (n := 4) rfl).le
  rw [h.feedIf h₃]

/-- The checksum reads no byte outside the interval. -/
def ReadsInside (s e : ℕ) : Prop := s ≤ e ∧ ((e - s) % 2 = 0 ∨ e ≤ 0x01000001)

instance (s e : ℕ) : Decidable (ReadsInside s e) := inferInstanceAs (Decidable (_ ∧ _))

theorem SameBelow.calcCRC32 (h : SameBelow m m' s e) (hreads : ReadsInside s e) :
    calcCRC32 m s e = Exec.calcCRC32 m' s e := by
  obtain ⟨hle, hlast⟩ := hreads
  unfold Exec.calcCRC32
  dsimp only
  rw [h.feedPairs]
  have hsnd := feedPairs_snd (m := m') hle
  split_ifs with hmore hhigh
  · omega
  · rw [Lib.loadValue_congr fun i hi ↦ h _ (by omega) (by omega)]
  · rfl

/-! ### A byte outside the interval -/

theorem crcRound_injective : Function.Injective crcRound := by
  intro c d h
  -- the highest bit tells whether the lowest one was set
  have htop : ∀ c : BitVec 32, (crcRound c).getLsbD 31 = c.getLsbD 0 := by
    intro c
    unfold crcRound
    split_ifs with hlow
    · rw [hlow]
      simp
    · rw [Bool.eq_false_of_not_eq_true hlow]
      simp
  have hlow : c.getLsbD 0 = d.getLsbD 0 := by
    rw [← htop c, ← htop d, h]
  have hshift : c >>> 1 = d >>> 1 := by
    unfold crcRound at h
    rw [hlow] at h
    split_ifs at h with hd
    · exact BitVec.xor_left_inj _ |>.mp h
    · exact h
  refine BitVec.eq_of_getLsbD_eq fun i hi ↦ ?_
  rcases Nat.eq_zero_or_pos i with rfl | hpos
  · exact hlow
  · have hbit := congrArg (BitVec.getLsbD · (i - 1)) hshift
    simpa [Nat.add_sub_cancel' hpos] using hbit

theorem crc32_one_ne {crc : BitVec 32} {v v' : ℕ} (h : v % 256 ≠ v' % 256) :
    crc32 1 crc v ≠ crc32 1 crc v' := by
  intro heq
  have hxor : crc ^^^ BitVec.ofNat 32 (v % 256) = crc ^^^ BitVec.ofNat 32 (v' % 256) :=
    crcRound_injective.iterate 8 heq
  have hbytes := congrArg BitVec.toNat ((BitVec.xor_right_inj crc).mp hxor)
  rw [BitVec.toNat_ofNat, BitVec.toNat_ofNat] at hbytes
  omega

theorem calcCRC32_of_ne (h : e ≠ (feedPairs m s e).2) :
    calcCRC32 m s e = crc32 1 (feedPairs m s e).1
      (loadValue m (feedPairs m s e).2 (if 0x01000000 < (feedPairs m s e).2 then 2 else 1)) :=
  if_pos h

/-- Otherwise its last byte is outside, and every change of that byte shows. -/
theorem exists_outside (h : ¬ ReadsInside s e) :
    ∃ y, ¬ (s ≤ y ∧ y < e) ∧ ∀ m m', (∀ x, x ≠ y → m x = m' x) → m y ≠ m' y →
      calcCRC32 m s e ≠ calcCRC32 m' s e := by
  have hlast : ∀ (a : ℕ) (m m' : Bytes) (crc : BitVec 32),
      m (if 0x01000000 < a then a + 1 else a) ≠ m' (if 0x01000000 < a then a + 1 else a) →
      crc32 1 crc (loadValue m a (if 0x01000000 < a then 2 else 1)) ≠
        crc32 1 crc (loadValue m' a (if 0x01000000 < a then 2 else 1)) := by
    intro a m m' crc hne
    refine crc32_one_ne fun heq ↦ hne (UInt8.toNat_inj.mp ?_)
    split_ifs at heq ⊢
    · have hm := (m (a + 1)).toNat_lt
      have hm' := (m' (a + 1)).toNat_lt
      simp only [loadValue, Nat.zero_mul, Nat.zero_add] at heq
      omega
    · have hm := (m a).toNat_lt
      have hm' := (m' a).toNat_lt
      simp only [loadValue, Nat.zero_mul, Nat.zero_add, Nat.add_zero] at heq
      omega
  by_cases hle : s ≤ e
  · have hodd : (e - s) % 2 ≠ 0 ∧ 0x01000001 < e := by
      unfold ReadsInside at h
      omega
    refine ⟨e, by omega, fun m m' hsame hne ↦ ?_⟩
    have hpairs : feedPairs m s e = feedPairs m' s e :=
      SameBelow.feedPairs fun x _ hx ↦ hsame x (by omega)
    have hsnd : (feedPairs m' s e).2 = e - 1 := by
      rw [feedPairs_snd hle]
      omega
    have hmore : e ≠ (feedPairs m' s e).2 := by omega
    rw [calcCRC32_of_ne hmore, calcCRC32_of_ne (hpairs ▸ hmore), hpairs, hsnd]
    refine hlast (e - 1) m m' _ ?_
    rw [if_pos (show 0x01000000 < e - 1 by omega), Nat.sub_add_cancel (show 1 ≤ e by omega)]
    exact hne
  · refine ⟨if 0x01000000 < s then s + 1 else s, ?_, fun m m' _ hne ↦ ?_⟩
    · split_ifs <;> omega
    · have hpairs : ∀ m, feedPairs m s e = (0xffffffff, s) := fun m ↦
        feedPairs_of_lt (Nat.lt_of_not_le hle)
      have hmore : ∀ m, e ≠ (feedPairs m s e).2 := by
        intro m
        rw [hpairs]
        exact Nat.ne_of_lt (Nat.lt_of_not_le hle)
      rw [calcCRC32_of_ne (hmore m), calcCRC32_of_ne (hmore m'), hpairs, hpairs]
      exact hlast s m m' _ hne

end Emu68.Exec
