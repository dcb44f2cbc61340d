import Mathlib
import Emu68.A64.FlagHelpers

/-!
`EMIT_LoadImmediate` of `support.c` puts a constant into a register, as a logical immediate where
`number_to_mask` finds one. A constant that the search accepts is a run of ones in an element of
2, 4, 8, 16 or 32 bits that repeats, and the search returns the size, the length of the run and the
rotation that bring it back.
-/

set_option autoImplicit false
set_option relaxedAutoImplicit false

namespace Emu68.A64

/-- All parts of `len` bits are the given one. -/
def isRepeating (value chunk : BitVec 32) (len : ℕ) : Bool :=
  (List.range (32 / len)).all fun k ↦ (value >>> (k * len)) &&& lowMask len == chunk

/-- The shortest part that repeats, among the lengths that are left to try. -/
def findPattern (value : BitVec 32) : List ℕ → BitVec 32 × ℕ → BitVec 32 × ℕ
  | [], found => found
  | len :: rest, (pattern, patternLen) =>
    let chunk := pattern &&& lowMask len
    if isRepeating value chunk len then findPattern value rest (chunk, len)
    else (pattern, patternLen)

/-- The rotation at which the pattern starts with its run of ones, or none if there are several
runs. The pattern is rotated left once more in every round. -/
def findRotation (onesCount patternLen : ℕ) : ℕ → ℕ → BitVec 32 → Option ℕ
  | 0, _, _ => some 0
  | rounds + 1, r, temp =>
    if temp.getLsbD 0 ∧ ¬ temp.getLsbD (patternLen - 1) then
      let firstOne := temp.ctz.toNat
      let lastOne := 31 - temp.clz.toNat
      if 1 + lastOne - firstOne = onesCount then some r else none
    else
      findRotation onesCount patternLen rounds (r + 1)
        (((temp <<< 1) ||| (temp >>> (patternLen - 1))) &&& lowMask patternLen)

def patternPrefix (patternLen : ℕ) : ℕ :=
  match patternLen with
  | 32 => 0x00
  | 16 => 0x20
  | 8 => 0x30
  | 4 => 0x38
  | _ => 0x3c

/-- Width and rotation in one word, or zero if the value is no logical immediate. -/
def numberToMask (value : BitVec 32) : BitVec 32 :=
  if value = 0 ∨ value = 0xffffffff then 0
  else
    let (pattern, patternLen) := findPattern value [16, 8, 4, 2] (value, 32)
    let onesCount := popcount pattern
    if onesCount = 0 ∨ onesCount = patternLen then 0
    else
      match findRotation onesCount patternLen patternLen 0 pattern with
      | none => 0
      | some rotation =>
        (BitVec.ofNat 32 (patternPrefix patternLen ||| onesCount) <<< 16) |||
          BitVec.ofNat 32 rotation

def emitLoadImmediate (rd : Reg) (immed : BitVec 32) : List Op :=
  if immed = 0 then [movReg rd 31]
  else if immed = 0xffffffff then [mvnReg rd 31 .LSL 0]
  else
    let mask := numberToMask immed
    if mask ≠ 0 then
      [.orrImmed rd 31 (((mask >>> 16) &&& 0x3f).setWidth 8) ((mask &&& 0x3f).setWidth 8)]
    else if immed &&& 0xffff = 0 then
      [.movImmedU16 rd ((immed >>> 16).setWidth 16) 1]
    else if immed &&& 0xffff = 0xffff then
      [.movnImmedU16 rd ((~~~immed >>> 16).setWidth 16) 1]
    else if immed &&& 0xffff0000 = 0 then
      [.movImmedU16 rd (immed.setWidth 16) 0]
    else if immed &&& 0xffff0000 = 0xffff0000 then
      [.movnImmedU16 rd ((~~~immed).setWidth 16) 0]
    else
      [.movImmedU16 rd (immed.setWidth 16) 0, .movkImmedU16 rd ((immed >>> 16).setWidth 16) 1]

/-! ### The search for a logical immediate -/

/-- The value consists of copies of the first `len` bits of the pattern, which has no others. -/
structure Repeats (value pattern : BitVec 32) (len : ℕ) : Prop where
  len_mem : len ∈ [32, 16, 8, 4, 2]
  value_bit : ∀ i < 32, value.getLsbD i = pattern.getLsbD (i % len)
  pattern_bit : ∀ i, len ≤ i → pattern.getLsbD i = false

variable {value pattern temp : BitVec 32} {len r ones : ℕ}

theorem Repeats.len_pos (h : Repeats value pattern len) : 0 < len := by
  have hmem := h.len_mem
  simp only [List.mem_cons, List.not_mem_nil, or_false] at hmem
  omega

theorem Repeats.len_le (h : Repeats value pattern len) : len ≤ 32 := by
  have hmem := h.len_mem
  simp only [List.mem_cons, List.not_mem_nil, or_false] at hmem
  omega

theorem repeats_self : Repeats value value 32 where
  len_mem := by decide
  value_bit i hi := by rw [Nat.mod_eq_of_lt hi]
  pattern_bit i hi := BitVec.getLsbD_of_ge _ _ hi

theorem repeats_of_isRepeating (hlen : len ∈ [32, 16, 8, 4, 2])
    (h : isRepeating value (pattern &&& lowMask len) len = true) :
    Repeats value (pattern &&& lowMask len) len where
  len_mem := hlen
  value_bit i hi := by
    have hpos : 0 < len ∧ 32 / len * len = 32 := by
      simp only [List.mem_cons, List.not_mem_nil, or_false] at hlen
      rcases hlen with rfl | rfl | rfl | rfl | rfl <;> decide
    have hchunk := List.all_eq_true.mp h (i / len)
      (List.mem_range.mpr (by
        rw [Nat.div_lt_iff_lt_mul hpos.1, hpos.2]
        exact hi))
    have hbit := congrArg (BitVec.getLsbD · (i % len)) (eq_of_beq hchunk)
    have hlow : (lowMask len).getLsbD (i % len) = true := by
      rw [getLsbD_lowMask]
      have := Nat.mod_lt i hpos.1
      have := Nat.mod_le i len
      simp only [decide_eq_true_eq]
      omega
    simp only [BitVec.getLsbD_and, hlow, Bool.and_true, BitVec.getLsbD_ushiftRight] at hbit ⊢
    rw [← hbit, Nat.div_add_mod' i len]
  pattern_bit i hi := by
    rw [BitVec.getLsbD_and, getLsbD_lowMask, decide_eq_false (by omega), Bool.and_false]

theorem findPattern_repeats : ∀ (lens : List ℕ), (∀ l ∈ lens, l ∈ [32, 16, 8, 4, 2]) →
    ∀ (pattern : BitVec 32) (len : ℕ), Repeats value pattern len →
    Repeats value (findPattern value lens (pattern, len)).1
      (findPattern value lens (pattern, len)).2
  | [], _, _, _, h => h
  | l :: rest, hlens, pattern, len, h => by
    unfold findPattern
    dsimp only
    split
    case isTrue hrepeating =>
      exact findPattern_repeats rest (fun l' hl' ↦ hlens l' (List.mem_cons_of_mem _ hl')) _ _
        (repeats_of_isRepeating (hlens l List.mem_cons_self) hrepeating)
    case isFalse => exact h

/-- The pattern after some rounds. -/
def RotatedLeft (pattern temp : BitVec 32) (len r : ℕ) : Prop :=
  ∀ i, temp.getLsbD i = (decide (i < len) && pattern.getLsbD ((i + (len - r)) % len))

theorem rotatedLeft_zero (h : Repeats value pattern len) : RotatedLeft pattern pattern len 0 := by
  intro i
  by_cases hi : i < len
  · rw [Nat.sub_zero, Nat.add_mod_right, Nat.mod_eq_of_lt hi, decide_eq_true hi, Bool.true_and]
  · rw [decide_eq_false hi, Bool.false_and, h.pattern_bit i (by omega)]

theorem RotatedLeft.succ (hlen : 2 ≤ len) (hle : len ≤ 32) (hr : r < len)
    (h : RotatedLeft pattern temp len r) :
    RotatedLeft pattern (((temp <<< 1) ||| (temp >>> (len - 1))) &&& lowMask len) len (r + 1) := by
  intro i
  rw [BitVec.getLsbD_and, BitVec.getLsbD_or, getLsbD_lowMask, BitVec.getLsbD_shiftLeft,
    BitVec.getLsbD_ushiftRight, h, h]
  by_cases hi : i < len
  · rw [decide_eq_true (show i < 32 by omega), decide_eq_true hi,
      decide_eq_true (show i < 32 ∧ i < len by omega)]
    rcases Nat.eq_zero_or_pos i with rfl | hpos
    · have hsum : len - 1 + 0 + (len - r) = 0 + (len - (r + 1)) + len := by omega
      rw [decide_eq_true (show 0 < 1 by omega), decide_eq_true (show len - 1 + 0 < len by omega),
        hsum, Nat.add_mod_right]
      simp
    · have hsum : i - 1 + (len - r) = i + (len - (r + 1)) := by omega
      rw [decide_eq_false (show ¬ i < 1 by omega), decide_eq_true (show i - 1 < len by omega),
        decide_eq_false (show ¬ len - 1 + i < len by omega), hsum]
      simp
  · rw [decide_eq_false hi, decide_eq_false (show ¬ (i < 32 ∧ i < len) by omega)]
    simp

/-! ### Counting the bits of a pattern -/

theorem popcount_eq_count {w : ℕ} (x : BitVec w) :
    popcount x = Nat.count (fun i ↦ x.getLsbD i = true) w := by
  have hrange : ∀ n, (List.range n).countP x.getLsbD =
      Nat.count (fun i ↦ x.getLsbD i = true) n := by
    intro n
    induction n with
    | zero => rfl
    | succ n ih =>
      rw [List.range_succ, List.countP_append, ih, Nat.count_succ, List.countP_singleton]
  exact hrange w

theorem count_congr {p q : ℕ → Prop} [DecidablePred p] [DecidablePred q] {n : ℕ}
    (h : ∀ k < n, p k ↔ q k) : Nat.count p n = Nat.count q n := by
  rw [Nat.count_eq_card_filter_range, Nat.count_eq_card_filter_range,
    Finset.filter_congr fun k hk ↦ h k (Finset.mem_range.mp hk)]

theorem count_rotate {q : ℕ → Prop} [DecidablePred q] (hq : ∀ k, q (len + k) ↔ q k) (n : ℕ) :
    Nat.count (fun i ↦ q (n + i)) len = Nat.count q len := by
  have hleft := Nat.count_add q n len
  have hright := Nat.count_add q len n
  have hperiod : Nat.count (fun k ↦ q (len + k)) n = Nat.count q n :=
    count_congr fun k _ ↦ hq k
  rw [Nat.add_comm len n] at hright
  omega

theorem count_of_bound {q : ℕ → Prop} [DecidablePred q] {n m : ℕ} (hn : n ≤ m)
    (hq : ∀ i, n ≤ i → ¬ q i) : Nat.count q m = Nat.count q n := by
  have hsplit := Nat.count_add q n (m - n)
  have hzero : Nat.count (fun k ↦ q (n + k)) (m - n) = 0 :=
    Nat.count_iff_forall_not.mpr fun k _ ↦ hq (n + k) (by omega)
  rw [Nat.add_sub_cancel' hn] at hsplit
  omega

theorem RotatedLeft.popcount_eq (hle : len ≤ 32)
    (hpattern : ∀ i, len ≤ i → pattern.getLsbD i = false) (h : RotatedLeft pattern temp len r) :
    popcount temp = popcount pattern := by
  have htemp : ∀ i, len ≤ i → ¬ temp.getLsbD i = true := by
    intro i hi
    rw [h, decide_eq_false (by omega), Bool.false_and]
    exact Bool.false_ne_true
  have hpattern' : ∀ i, len ≤ i → ¬ pattern.getLsbD i = true := by
    intro i hi
    rw [hpattern i hi]
    exact Bool.false_ne_true
  rw [popcount_eq_count, popcount_eq_count, count_of_bound hle htemp, count_of_bound hle hpattern']
  calc Nat.count (fun i ↦ temp.getLsbD i = true) len
      = Nat.count (fun i ↦ pattern.getLsbD ((len - r + i) % len) = true) len := by
        refine count_congr fun i hi ↦ ?_
        rw [h, decide_eq_true hi, Bool.true_and, Nat.add_comm i]
    _ = Nat.count (fun i ↦ pattern.getLsbD (i % len) = true) len := by
        refine count_rotate (q := fun i ↦ pattern.getLsbD (i % len) = true) (fun k ↦ ?_) (len - r)
        rw [Nat.add_mod_left]
    _ = Nat.count (fun i ↦ pattern.getLsbD i = true) len := by
        refine count_congr fun i hi ↦ ?_
        rw [Nat.mod_eq_of_lt hi]

/-- A run of ones at the low end is as long as its bits are many. -/
theorem bit_of_count {q : ℕ → Prop} [DecidablePred q] (hones : ones ≤ 32)
    (hcount : Nat.count q 32 = ones) (hq : ∀ i, ones ≤ i → ¬ q i) (i : ℕ) : q i ↔ i < ones := by
  rw [count_of_bound hones hq] at hcount
  constructor
  · intro hi
    by_contra hge
    exact hq i (by omega) hi
  · intro hi
    exact Nat.count_iff_forall.mp hcount i hi

theorem findRotation_spec (hlen : 2 ≤ len) (hle : len ≤ 32)
    (hpattern : ∀ i, len ≤ i → pattern.getLsbD i = false) (hones : popcount pattern = ones) :
    ∀ (rounds r : ℕ) (temp : BitVec 32), r + rounds = len → RotatedLeft pattern temp len r →
    ∀ rotation, findRotation ones len rounds r temp = some rotation →
      (∀ k, r ≤ k → k < len → pattern.getLsbD ((len - k) % len) = true →
        pattern.getLsbD ((2 * len - 1 - k) % len) = true) ∨
      rotation < len ∧ ∀ i < len, pattern.getLsbD i = decide ((i + rotation) % len < ones) := by
  intro rounds
  induction rounds with
  | zero =>
    intro r temp hr _ _ _
    exact .inl fun k hk hlt ↦ by omega
  | succ rounds ih =>
    intro r temp hr h rotation hfound
    unfold findRotation at hfound
    split at hfound
    case isTrue hstart =>
      right
      dsimp only at hfound
      split at hfound
      case isFalse => simp at hfound
      case isTrue hwidth =>
        obtain rfl : r = rotation := Option.some.inj hfound
        refine ⟨by omega, ?_⟩
        have hbits : ∀ i, temp.getLsbD i = true ↔ i < ones := by
          have hne : temp ≠ 0#32 := by
            rintro rfl
            simp at hstart
          have hfirst : temp.ctz.toNat = 0 := by
            by_contra hpos
            have hlow := BitVec.getLsbD_false_of_lt_ctz (x := temp) (i := 0) (by omega)
            exact absurd (hlow.symm.trans hstart.1) Bool.false_ne_true
          have hlast := BitVec.toNat_lt_two_pow_sub_clz (x := temp)
          have hclz : temp.clz.toNat < 32 := by
            have := BitVec.clz_lt_iff_ne_zero.mpr hne
            simpa [BitVec.lt_def] using this
          rw [hfirst] at hwidth
          have hcount := h.popcount_eq hle hpattern
          rw [hones, popcount_eq_count] at hcount
          refine bit_of_count (by omega) hcount fun i hi hbit ↦ ?_
          have hge := Nat.ge_two_pow_of_testBit (x := temp.toNat) (i := i) hbit
          have hmono : 2 ^ (32 - temp.clz.toNat) ≤ 2 ^ i :=
            Nat.pow_le_pow_right (by decide) (by omega)
          omega
        intro j hj
        have hbit := hbits ((j + r) % len)
        have hmod : ((j + r) % len + (len - r)) % len = j := by
          rw [Nat.mod_add_mod, show j + r + (len - r) = j + len by omega, Nat.add_mod_right,
            Nat.mod_eq_of_lt hj]
        rw [h, hmod, decide_eq_true (Nat.mod_lt _ (by omega)), Bool.true_and] at hbit
        by_cases hrun : (j + r) % len < ones
        · rw [decide_eq_true hrun, hbit.mpr hrun]
        · rw [decide_eq_false hrun]
          exact Bool.eq_false_iff.mpr fun htrue ↦ hrun (hbit.mp htrue)
    case isFalse hstart =>
      have hnext := h.succ hlen hle (by omega)
      rcases ih (r + 1) _ (by omega) hnext rotation hfound with hall | hrotation
      · left
        intro k hk hlt hbit
        rcases Nat.eq_or_lt_of_le hk with rfl | hlt'
        · by_contra htop
          refine hstart ⟨?_, ?_⟩
          · rw [h, decide_eq_true (by omega), Nat.zero_add, hbit, Bool.and_true]
          · rw [h, decide_eq_true (by omega), Bool.true_and,
              show len - 1 + (len - r) = 2 * len - 1 - r by omega]
            exact htop
        · exact hall k hlt' hlt hbit
      · exact .inr hrotation

/-- A pattern without a start of a run is all ones. -/
theorem all_of_no_start {q : ℕ → Prop} (hlen : 0 < len)
    (hq : ∀ k < len, q ((len - k) % len) → q ((2 * len - 1 - k) % len)) {j : ℕ} (hj : j < len)
    (hqj : q j) : ∀ i < len, q i := by
  have hdown : ∀ i, i + 1 < len → q (i + 1) → q i := by
    intro i hi hqi
    have hstep := hq (len - (i + 1)) (by omega)
    rw [show len - (len - (i + 1)) = i + 1 by omega, Nat.mod_eq_of_lt hi,
      show 2 * len - 1 - (len - (i + 1)) = i + len by omega, Nat.add_mod_right,
      Nat.mod_eq_of_lt (by omega)] at hstep
    exact hstep hqi
  have hbelow : ∀ d i, i + d < len → q (i + d) → q i := by
    intro d
    induction d with
    | zero => exact fun i _ hqi ↦ hqi
    | succ d ih => exact fun i hi hqi ↦ ih i (by omega) (hdown (i + d) hi hqi)
  have hwrap : q 0 → q (len - 1) := by
    intro hq0
    have hstep := hq 0 hlen
    rw [Nat.sub_zero, Nat.mod_self, show 2 * len - 1 - 0 = len - 1 + len by omega,
      Nat.add_mod_right, Nat.mod_eq_of_lt (by omega)] at hstep
    exact hstep hq0
  intro i hi
  have hq0 : q 0 := hbelow j 0 (by omega) (by rwa [Nat.zero_add])
  refine hbelow (len - 1 - i) i (by omega) ?_
  rw [show i + (len - 1 - i) = len - 1 by omega]
  exact hwrap hq0

/-- The run that the search returns. -/
theorem rotation_of_findRotation (h : Repeats value pattern len) (hzero : popcount pattern ≠ 0)
    (hall : popcount pattern ≠ len) {rotation : ℕ}
    (hfound : findRotation (popcount pattern) len len 0 pattern = some rotation) :
    rotation < len ∧ popcount pattern < len ∧
      ∀ i < len, pattern.getLsbD i = decide ((i + rotation) % len < popcount pattern) := by
  have hlen : 2 ≤ len := by
    have hmem := h.len_mem
    simp only [List.mem_cons, List.not_mem_nil, or_false] at hmem
    omega
  have hbound : ∀ i, len ≤ i → ¬ pattern.getLsbD i = true := by
    intro i hi
    rw [h.pattern_bit i hi]
    exact Bool.false_ne_true
  have hcount : popcount pattern = Nat.count (fun i ↦ pattern.getLsbD i = true) len :=
    (popcount_eq_count pattern).trans (count_of_bound h.len_le hbound)
  have hlt : popcount pattern < len := by
    have hle := Nat.count_le (p := fun i ↦ pattern.getLsbD i = true) (n := len)
    omega
  rcases findRotation_spec hlen h.len_le h.pattern_bit rfl len 0 pattern (Nat.zero_add len)
    (rotatedLeft_zero h) rotation hfound with hno | hspec
  · rw [hcount] at hzero
    obtain ⟨j, hj, hbit⟩ := Nat.count_ne_iff_exists.mp hzero
    have hones := all_of_no_start (q := fun i ↦ pattern.getLsbD i = true) h.len_pos
      (fun k hk ↦ hno k (Nat.zero_le k) hk) hj hbit
    exact absurd (hcount.trans (Nat.count_iff_forall.mpr hones)) hall
  · exact ⟨hspec.1, hlt, hspec.2⟩

/-! ### The value comes back -/

theorem getLsbD_bitmask (width ror : BitVec 8) {i : ℕ} (hi : i < 32) :
    (bitmask width ror).getLsbD i =
      decide ((i + (ror &&& 0x3f).toNat) % elementSize ((width - 1) &&& 0x3f).toNat ≤
        ((width - 1) &&& 0x3f).toNat % elementSize ((width - 1) &&& 0x3f).toNat) := by
  unfold bitmask
  rw [BitVec.getLsbD_setWidth, decide_eq_true hi, Bool.true_and, BitVec.getLsbD_ofBoolListLE,
    List.getD_eq_getElem _ _ (by simpa using hi), List.getElem_map, List.getElem_range]

/-- What `EMIT_LoadImmediate` takes out of the packed word. -/
theorem unpack_mask : ∀ k < 64, ∀ rotation < 32,
    ((BitVec.ofNat 32 k <<< 16 ||| BitVec.ofNat 32 rotation) >>> 16 &&& 0x3f).setWidth 8 =
        BitVec.ofNat 8 k ∧
      ((BitVec.ofNat 32 k <<< 16 ||| BitVec.ofNat 32 rotation) &&& 0x3f).setWidth 8 =
        BitVec.ofNat 8 rotation := by
  decide +kernel

/-- Size and length of the run are told from the field. -/
theorem patternPrefix_spec : ∀ len ∈ [32, 16, 8, 4, 2], ∀ ones < len, ones ≠ 0 →
    patternPrefix len ||| ones < 64 ∧
      elementSize ((BitVec.ofNat 8 (patternPrefix len ||| ones) - 1) &&& 0x3f).toNat = len ∧
      ((BitVec.ofNat 8 (patternPrefix len ||| ones) - 1) &&& 0x3f).toNat % len = ones - 1 := by
  decide +kernel

theorem bitmask_numberToMask (h : numberToMask value ≠ 0) :
    bitmask (((numberToMask value >>> 16) &&& 0x3f).setWidth 8)
      ((numberToMask value &&& 0x3f).setWidth 8) = value := by
  unfold numberToMask at h ⊢
  split at h
  case isTrue => exact absurd rfl h
  case isFalse hspecial =>
    have hrepeats := findPattern_repeats [16, 8, 4, 2] (by decide) value 32
      repeats_self
    rw [if_neg hspecial]
    rcases hpattern : findPattern value [16, 8, 4, 2] (value, 32) with ⟨pattern, len⟩
    rw [hpattern] at hrepeats h
    dsimp only at hrepeats h ⊢
    split at h
    case isTrue => exact absurd rfl h
    case isFalse hcount =>
      rw [if_neg hcount]
      push Not at hcount
      cases hfound : findRotation (popcount pattern) len len 0 pattern with
      | none =>
        rw [hfound] at h
        exact absurd rfl h
      | some rotation =>
        obtain ⟨hrotation, hlt, hbits⟩ :=
          rotation_of_findRotation hrepeats hcount.1 hcount.2 hfound
        have hle := hrepeats.len_le
        obtain ⟨hk, hsize, hrun⟩ :=
          patternPrefix_spec len hrepeats.len_mem (popcount pattern) hlt hcount.1
        obtain ⟨hwidth, hror⟩ := unpack_mask _ hk rotation (by omega)
        have hrotation' : (BitVec.ofNat 8 rotation &&& 0x3f).toNat = rotation := by
          have hsmall : ∀ k < 32, (BitVec.ofNat 8 k &&& 0x3f).toNat = k := by decide +kernel
          exact hsmall rotation (by omega)
        dsimp only
        rw [hwidth, hror]
        apply BitVec.eq_of_getLsbD_eq
        intro i hi
        rw [getLsbD_bitmask _ _ hi, hsize, hrun, hrotation', hrepeats.value_bit i hi,
          hbits _ (Nat.mod_lt i hrepeats.len_pos), Nat.mod_add_mod]
        congr 1
        have := hcount.1
        apply propext
        omega

/-- The two halves of a word, as the moves of 16 bits place them. -/
theorem getLsbD_highHalf (x : BitVec 32) {i : ℕ} (hi : i < 32) :
    (((x >>> 16).setWidth 16).zeroExtend 32 <<< (16 * 1)).getLsbD i =
      (decide (16 ≤ i) && x.getLsbD i) := by
  by_cases hlow : i < 16
  · simp [hlow, show ¬ 16 ≤ i by omega]
  · simp [hlow, hi, show 16 ≤ i by omega, show i - 16 < 32 by omega, show i - 16 < 16 by omega]

theorem getLsbD_lowHalf (x : BitVec 32) {i : ℕ} (hi : i < 32) :
    ((x.setWidth 16).zeroExtend 32 <<< (16 * 0)).getLsbD i =
      (decide (i < 16) && x.getLsbD i) := by
  simp [hi]

theorem getLsbD_halfMask : ∀ i < 32,
    (0xffff : BitVec 32).getLsbD i = decide (i < 16) ∧
      (0xffff0000 : BitVec 32).getLsbD i = decide (16 ≤ i) := by
  decide +kernel

theorem bit_of_low {x c : BitVec 32} (h : x &&& 0xffff = c) {i : ℕ} (hi : i < 16) :
    x.getLsbD i = c.getLsbD i := by
  rw [← h, BitVec.getLsbD_and, (getLsbD_halfMask i (by omega)).1, decide_eq_true hi, Bool.and_true]

theorem bit_of_high {x c : BitVec 32} (h : x &&& 0xffff0000 = c) {i : ℕ} (hi : i < 32)
    (hhigh : 16 ≤ i) : x.getLsbD i = c.getLsbD i := by
  rw [← h, BitVec.getLsbD_and, (getLsbD_halfMask i hi).2, decide_eq_true hhigh, Bool.and_true]

theorem exec_emitLoadImmediate {rd : Reg} (h : rd ≠ 31) (immed : BitVec 32) (s : Cpu) :
    exec (emitLoadImmediate rd immed) s = s.put rd immed := by
  unfold emitLoadImmediate
  split
  case isTrue hzero =>
    subst hzero
    exact congrArg (s.put rd) (by rw [Cpu.get_zero]; decide)
  split
  case isTrue hones =>
    subst hones
    exact congrArg (s.put rd) (by rw [Cpu.get_zero]; decide)
  dsimp only
  split
  case isTrue hmask =>
    refine congrArg (s.put rd) ?_
    rw [bitmask_numberToMask hmask]
    exact BitVec.zero_or
  split
  case isTrue hlow =>
    refine congrArg (s.put rd) (BitVec.eq_of_getLsbD_eq fun i hi ↦ ?_)
    rw [getLsbD_highHalf _ hi]
    by_cases h16 : 16 ≤ i
    · rw [decide_eq_true h16, Bool.true_and]
    · rw [decide_eq_false h16, bit_of_low hlow (by omega)]
      simp
  split
  case isTrue hlow =>
    refine congrArg (s.put rd) (BitVec.eq_of_getLsbD_eq fun i hi ↦ ?_)
    rw [BitVec.getLsbD_not, getLsbD_highHalf _ hi, BitVec.getLsbD_not, decide_eq_true hi]
    by_cases h16 : 16 ≤ i
    · simp [h16]
    · rw [bit_of_low hlow (by omega), (getLsbD_halfMask i hi).1]
      simp [h16, show i < 16 by omega]
  split
  case isTrue hhigh =>
    refine congrArg (s.put rd) (BitVec.eq_of_getLsbD_eq fun i hi ↦ ?_)
    rw [getLsbD_lowHalf _ hi]
    by_cases h16 : i < 16
    · rw [decide_eq_true h16, Bool.true_and]
    · rw [decide_eq_false h16, bit_of_high hhigh hi (by omega)]
      simp
  split
  case isTrue hhigh =>
    refine congrArg (s.put rd) (BitVec.eq_of_getLsbD_eq fun i hi ↦ ?_)
    rw [BitVec.getLsbD_not, getLsbD_lowHalf _ hi, BitVec.getLsbD_not, decide_eq_true hi]
    by_cases h16 : i < 16
    · simp [h16]
    · rw [bit_of_high hhigh hi (by omega), (getLsbD_halfMask i hi).2]
      simp [h16, show 16 ≤ i by omega]
  case isFalse =>
    simp only [exec, List.foldl_cons, List.foldl_nil, step, Cpu.get_put s h, Cpu.put_put]
    refine congrArg (s.put rd) (BitVec.eq_of_getLsbD_eq fun i hi ↦ ?_)
    rw [insertBits, BitVec.getLsbD_or, BitVec.getLsbD_and, getLsbD_lowHalf _ hi, BitVec.getLsbD_not,
      BitVec.getLsbD_shiftLeft, BitVec.getLsbD_shiftLeft, BitVec.getLsbD_and, getLsbD_lowMask]
    by_cases h16 : i < 16
    · simp [h16, hi]
    · simp [h16, hi, show i - 16 < 16 by omega, show i - 16 < 32 by omega,
        show 16 + (i - 16) = i by omega]

end Emu68.A64
