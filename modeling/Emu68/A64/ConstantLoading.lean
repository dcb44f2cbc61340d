import Emu68.A64.Encoding
import Emu68.A64.LoadImmediate
import Emu68.A64.WideMachine

/-!
`number_to_mask` and the logical immediates of the architecture. The encodings of `A64.h` are read
back by `DecodeBitMasks`; the search finds an encoding of every value that has one.
-/

set_option autoImplicit false
set_option relaxedAutoImplicit false

namespace Emu68.A64

/-! ### Logical immediates -/

/-- The common part of the encodings. -/
def logicalImmed (insn : Word) (rd rn width ror : BitVec 8) : Word :=
  I32 (insn ||| (rd.zeroExtend 32 &&& 31#32) ||| ((rn.zeroExtend 32 &&& 31#32) <<< 5) |||
    (((width - 1).zeroExtend 32 &&& 0x3f#32) <<< 10) ||| ((ror.zeroExtend 32 &&& 0x3f#32) <<< 16))

def andImmed : BitVec 8 → BitVec 8 → BitVec 8 → BitVec 8 → Word := logicalImmed 0x12000000

def orrImmed : BitVec 8 → BitVec 8 → BitVec 8 → BitVec 8 → Word := logicalImmed 0x32000000

def eorImmed : BitVec 8 → BitVec 8 → BitVec 8 → BitVec 8 → Word := logicalImmed 0x52000000

def fieldN (insn : Word) : Bool := insn.getLsbD 22

def fieldImmr (insn : Word) : BitVec 6 := insn.extractLsb' 16 6

def fieldImms (insn : Word) : BitVec 6 := insn.extractLsb' 10 6

/-- `DecodeBitMasks` for an operation of 32 bits: a run of ones in an element, rotated right and
replicated. Elements of 64 bits are not defined there, and neither is an element of ones only. -/
def decodeBitMasks (n : Bool) (imms immr : BitVec 6) : Option (BitVec 32) :=
  let len := (BitVec.ofBool n ++ ~~~imms).toNat.log2
  if len = 0 ∨ 5 < len then none
  else
    let s := imms.toNat % 2 ^ len
    let r := immr.toNat % 2 ^ len
    if s = 2 ^ len - 1 then none
    else
      let welem := BitVec.ofNat (2 ^ len) (2 ^ (s + 1) - 1)
      some ((BitVec.replicate (32 / 2 ^ len) (welem.rotateRight r)).setWidth 32)

/-- A run of `s + 1` ones in elements of `size` bits, rotated right by `r`. -/
def IsRun (value : BitVec 32) (size s r : ℕ) : Prop :=
  ∀ i < 32, value.getLsbD i = decide ((i + r) % size ≤ s)

variable {value : BitVec 32} {size s r : ℕ}

theorem getLsbD_replicateRun {len : ℕ} (hlen : len ≤ 5) (hs : s + 1 ≤ 2 ^ len) (hr : r < 2 ^ len) :
    IsRun ((BitVec.replicate (32 / 2 ^ len)
      ((BitVec.ofNat (2 ^ len) (2 ^ (s + 1) - 1)).rotateRight r)).setWidth 32) (2 ^ len) s r := by
  intro i hi
  have hpow : 2 ^ len * (32 / 2 ^ len) = 32 := by
    interval_cases len <;> rfl
  have hpos : 0 < 2 ^ len := Nat.pow_pos (by decide)
  have hmod : i % 2 ^ len < 2 ^ len := Nat.mod_lt _ hpos
  rw [BitVec.getLsbD_setWidth, decide_eq_true hi, Bool.true_and, BitVec.getLsbD_replicate, hpow,
    decide_eq_true hi, Bool.true_and, BitVec.getLsbD_rotateRight, Nat.mod_eq_of_lt hr]
  have hsum : (i + r) % 2 ^ len = (i % 2 ^ len + r) % 2 ^ len := (Nat.mod_add_mod _ _ _).symm
  rw [hsum]
  by_cases hwrap : i % 2 ^ len < 2 ^ len - r
  · have hsmall : (i % 2 ^ len + r) % 2 ^ len = r + i % 2 ^ len := by
      rw [Nat.add_comm, Nat.mod_eq_of_lt (by omega)]
    rw [hsmall, decide_eq_true hwrap, cond_true, BitVec.getLsbD_ofNat, Nat.testBit_two_pow_sub_one,
      decide_eq_true (show r + i % 2 ^ len < 2 ^ len by omega), Bool.true_and]
    exact decide_eq_decide.mpr (by omega)
  · have hlarge : (i % 2 ^ len + r) % 2 ^ len = i % 2 ^ len - (2 ^ len - r) := by
      rw [show i % 2 ^ len + r = i % 2 ^ len - (2 ^ len - r) + 2 ^ len by omega, Nat.add_mod_right,
        Nat.mod_eq_of_lt (by omega)]
    rw [hlarge, decide_eq_false hwrap, cond_false, decide_eq_true hmod, Bool.true_and,
      BitVec.getLsbD_ofNat, Nat.testBit_two_pow_sub_one,
      decide_eq_true (show i % 2 ^ len - (2 ^ len - r) < 2 ^ len by omega), Bool.true_and]
    exact decide_eq_decide.mpr (by omega)

/-- What decodes is a run of ones that does not fill its element. -/
theorem isRun_of_decodeBitMasks {n : Bool} {imms immr : BitVec 6}
    (h : decodeBitMasks n imms immr = some value) :
    ∃ size ∈ [32, 16, 8, 4, 2], ∃ s r, s + 1 < size ∧ IsRun value size s r := by
  unfold decodeBitMasks at h
  dsimp only at h
  split_ifs at h with hlen hs
  generalize (BitVec.ofBool n ++ ~~~imms).toNat.log2 = len at h hlen hs
  obtain rfl := Option.some.inj h
  have hpos : 0 < 2 ^ len := Nat.pow_pos (by decide)
  have hslt : imms.toNat % 2 ^ len < 2 ^ len := Nat.mod_lt _ hpos
  have hmem : ∀ len < 6, len ≠ 0 → 2 ^ len ∈ [32, 16, 8, 4, 2] := by decide
  exact ⟨2 ^ len, hmem len (by omega) (by omega), _, _, by omega,
    getLsbD_replicateRun (by omega) (by omega) (Nat.mod_lt _ hpos)⟩

theorem IsRun.eq {other : BitVec 32} (h : IsRun value size s r) (h' : IsRun other size s r) :
    value = other :=
  BitVec.eq_of_getLsbD_eq fun i hi ↦ (h i hi).trans (h' i hi).symm

/-! ### Reading an encoding back -/

theorem getLsbD_field (x : BitVec 8) (lsb n : ℕ) {i : ℕ} (hi : i < 32) :
    ((x.zeroExtend 32 &&& lowMask n) <<< lsb).getLsbD i =
      (decide (lsb ≤ i ∧ i < lsb + n) && x.getLsbD (i - lsb)) := by
  rw [BitVec.getLsbD_shiftLeft, BitVec.getLsbD_and, getLsbD_lowMask, BitVec.getLsbD_setWidth,
    decide_eq_true hi, decide_eq_true (show i - lsb < 32 by omega), Bool.true_and, Bool.true_and]
  by_cases hlow : i < lsb
  · rw [decide_eq_true hlow, decide_eq_false (show ¬ (lsb ≤ i ∧ i < lsb + n) by omega)]
    rfl
  · rw [decide_eq_false hlow, Bool.not_false, Bool.true_and, Bool.and_comm,
      decide_eq_decide.mpr (show i - lsb < 32 ∧ i - lsb < n ↔ lsb ≤ i ∧ i < lsb + n by omega)]

variable {rd rn width ror : BitVec 8}

theorem getLsbD_logicalImmed {insn : Word} (hinsn : ∀ i < 13, insn.getLsbD (10 + i) = false) {i : ℕ}
    (hi : i < 13) :
    (I32 (logicalImmed insn rd rn width ror)).getLsbD (10 + i) =
      (decide (i < 6) && (width - 1).getLsbD i ||
        decide (6 ≤ i ∧ i < 12) && ror.getLsbD (i - 6)) := by
  have hrd : (rd.zeroExtend 32 &&& 31#32).getLsbD (10 + i) = false := by
    have hfield := getLsbD_field rd 0 5 (show 10 + i < 32 by omega)
    rw [decide_eq_false (show ¬ (0 ≤ 10 + i ∧ 10 + i < 0 + 5) by omega)] at hfield
    rwa [BitVec.shiftLeft_zero] at hfield
  have hrn : ((rn.zeroExtend 32 &&& 31#32) <<< 5).getLsbD (10 + i) = false := by
    rw [show 31#32 = lowMask 5 from rfl, getLsbD_field _ _ _ (by omega),
      decide_eq_false (by omega), Bool.false_and]
  rw [logicalImmed, I32_I32]
  simp only [BitVec.getLsbD_or, hinsn i hi, hrd, hrn, Bool.false_or,
    show 0x3f#32 = lowMask 6 from rfl]
  rw [getLsbD_field _ _ _ (by omega), getLsbD_field _ _ _ (by omega),
    decide_eq_decide.mpr (show 10 ≤ 10 + i ∧ 10 + i < 10 + 6 ↔ i < 6 by omega),
    decide_eq_decide.mpr (show 16 ≤ 10 + i ∧ 10 + i < 16 + 6 ↔ 6 ≤ i ∧ i < 12 by omega),
    show 10 + i - 10 = i by omega, show 10 + i - 16 = i - 6 by omega]

theorem fields_logicalImmed {insn : Word} (hinsn : ∀ i < 13, insn.getLsbD (10 + i) = false) :
    fieldN (I32 (logicalImmed insn rd rn width ror)) = false ∧
      fieldImms (I32 (logicalImmed insn rd rn width ror)) = (width - 1).setWidth 6 ∧
      fieldImmr (I32 (logicalImmed insn rd rn width ror)) = ror.setWidth 6 := by
  refine ⟨?_, BitVec.eq_of_getLsbD_eq fun i hi ↦ ?_, BitVec.eq_of_getLsbD_eq fun i hi ↦ ?_⟩
  · exact getLsbD_logicalImmed hinsn (show 12 < 13 by omega)
  · rw [fieldImms, BitVec.getLsbD_extractLsb', getLsbD_logicalImmed hinsn (by omega),
      BitVec.getLsbD_setWidth, decide_eq_true hi, decide_eq_false (show ¬ (6 ≤ i ∧ i < 12) by omega)]
    simp
  · rw [fieldImmr, BitVec.getLsbD_extractLsb', show 16 + i = 10 + (6 + i) by omega,
      getLsbD_logicalImmed hinsn (by omega), BitVec.getLsbD_setWidth, decide_eq_true hi,
      decide_eq_false (show ¬ 6 + i < 6 by omega),
      decide_eq_true (show 6 ≤ 6 + i ∧ 6 + i < 12 by omega), show 6 + i - 6 = i by omega]
    simp

/-! ### What the search returns -/

/-- The fields of a constant: the length of the run with the prefix of its element, and the
rotation. -/
theorem numberToMask_fields (h : numberToMask value ≠ 0) :
    ∃ len ∈ [32, 16, 8, 4, 2], ∃ ones, ones ≠ 0 ∧ ones < len ∧ ∃ rotation < len,
      numberToMask value =
        BitVec.ofNat 32 (patternPrefix len ||| ones) <<< 16 ||| BitVec.ofNat 32 rotation := by
  unfold numberToMask at h ⊢
  split at h
  case isTrue => exact absurd rfl h
  case isFalse hspecial =>
    have hrepeats := findPattern_repeats [16, 8, 4, 2] (by decide) value 32 repeats_self
    rw [if_neg hspecial]
    rcases hpattern : findPattern value [16, 8, 4, 2] (value, 32) with ⟨pattern, len⟩
    rw [hpattern] at hrepeats h
    dsimp only at hrepeats h ⊢
    split at h
    case isTrue => exact absurd rfl h
    case isFalse hcount =>
      rw [if_neg hcount]
      push Not at hcount
      cases hfound : findRotation (popcount pattern) len len 0 pattern with
      | none =>
        rw [hfound] at h
        exact absurd rfl h
      | some rotation =>
        obtain ⟨hrotation, hlt, -⟩ := rotation_of_findRotation hrepeats hcount.1 hcount.2 hfound
        exact ⟨len, hrepeats.len_mem, popcount pattern, hcount.1, hlt, rotation, hrotation, rfl⟩

/-- The prefix selects the element, and the run does not fill it. -/
theorem patternPrefix_decodes : ∀ len ∈ [32, 16, 8, 4, 2], ∀ ones < len, ones ≠ 0 →
    let imms := (BitVec.ofNat 8 (patternPrefix len ||| ones) - 1).setWidth 6
    let log := (BitVec.ofBool false ++ ~~~imms).toNat.log2
    log ≠ 0 ∧ log ≤ 5 ∧ 2 ^ log = len ∧ imms.toNat % len = ones - 1 := by
  decide +kernel

theorem decodeBitMasks_numberToMask (h : numberToMask value ≠ 0) :
    decodeBitMasks false
      ((((numberToMask value >>> 16) &&& 0x3f).setWidth 8 - 1).setWidth 6)
      (((numberToMask value &&& 0x3f).setWidth 8).setWidth 6) = some value := by
  obtain ⟨len, hlen, ones, hones, hlt, rotation, hrotation, hmask⟩ := numberToMask_fields h
  have hvalue := bitmask_numberToMask h
  have hle : len ≤ 32 := by
    simp only [List.mem_cons, List.not_mem_nil, or_false] at hlen
    omega
  obtain ⟨hk, hsize, hrun⟩ := patternPrefix_spec len hlen ones hlt hones
  obtain ⟨hwidth, hror⟩ := unpack_mask _ hk rotation (by omega)
  obtain ⟨hlog, hlog5, hpow, himms⟩ := patternPrefix_decodes len hlen ones hlt hones
  rw [hmask, hwidth, hror] at hvalue ⊢
  have hsmall : ∀ k < 32, (BitVec.ofNat 8 k &&& 0x3f).toNat = k ∧
      ((BitVec.ofNat 8 k).setWidth 6).toNat = k := by decide +kernel
  have hbits : IsRun value len (ones - 1) rotation := by
    intro i hi
    rw [← hvalue, getLsbD_bitmask _ _ hi, hsize, hrun, (hsmall rotation (by omega)).1]
  unfold decodeBitMasks
  dsimp only
  rw [if_neg (by omega), hpow, himms, if_neg (by omega), (hsmall rotation (by omega)).2,
    Nat.mod_eq_of_lt hrotation]
  refine congrArg some (IsRun.eq ?_ hbits)
  rw [← hpow]
  exact getLsbD_replicateRun hlog5 (by omega) (by omega)

/-! ### The search finds every run -/

variable {pattern temp : BitVec 32} {len : ℕ}

theorem size_dvd : ∀ size ∈ [32, 16, 8, 4, 2], ∀ len ∈ [32, 16, 8, 4, 2], size ≤ len → size ∣ len := by
  decide

/-- The position at which the element of a run is `c` bits behind its start. -/
theorem exists_position (hsize : size ∈ [32, 16, 8, 4, 2]) (r : ℕ) {c : ℕ} (hc : c < size) :
    (c + (size - r % size)) % size < 32 ∧ ((c + (size - r % size)) % size + r) % size = c := by
  have hle : size ≤ 32 := by
    simp only [List.mem_cons, List.not_mem_nil, or_false] at hsize
    omega
  have hlt : (c + (size - r % size)) % size < size := Nat.mod_lt _ (by omega)
  have hr : r % size < size := Nat.mod_lt _ (by omega)
  refine ⟨by omega, ?_⟩
  rw [Nat.mod_add_mod, ← Nat.add_mod_mod, show c + (size - r % size) + r % size = c + size by omega,
    Nat.add_mod_right, Nat.mod_eq_of_lt hc]

/-- A run has no shorter period than its element. -/
theorem IsRun.size_le (h : IsRun value size s r) (hs : s + 1 < size)
    (hsize : size ∈ [32, 16, 8, 4, 2]) (hlen : len ∈ [32, 16, 8, 4, 2])
    (hperiod : ∀ i < 32, value.getLsbD i = value.getLsbD (i % len)) : size ≤ len := by
  by_contra hlt
  have hdvd := size_dvd len hlen size hsize (by omega)
  have hpos : 0 < len := by
    simp only [List.mem_cons, List.not_mem_nil, or_false] at hlen
    omega
  have htwice : 2 * len ≤ size := by
    obtain ⟨k, hk⟩ := hdvd
    have : k ≠ 0 ∧ k ≠ 1 := by
      constructor
      · rintro rfl
        omega
      · rintro rfl
        omega
    rw [hk, Nat.mul_comm]
    exact Nat.mul_le_mul_left len (by omega)
  -- bits whose places in the element are `len` apart are equal
  have hshift : ∀ c < size, c ≤ s ↔ (c + len) % size ≤ s := by
    intro c hc
    obtain ⟨hi, hplace⟩ := exists_position hsize r hc
    obtain ⟨hi', hplace'⟩ := exists_position hsize r
      (show (c + len) % size < size from Nat.mod_lt _ (by omega))
    have hbit := h _ hi
    have hbit' := h _ hi'
    rw [hplace, hperiod _ hi, Nat.mod_mod_of_dvd _ hdvd] at hbit
    rw [hplace', hperiod _ hi', Nat.mod_add_mod] at hbit'
    have hsame : (c + len + (size - r % size)) % size % len = (c + (size - r % size)) % len := by
      rw [Nat.mod_mod_of_dvd _ hdvd, show c + len + (size - r % size) =
        c + (size - r % size) + len by omega, Nat.add_mod_right]
    rw [hsame] at hbit'
    exact decide_eq_decide.mp (hbit.symm.trans hbit')
  have hlast := hshift (size - len) (by omega)
  rw [Nat.sub_add_cancel (by omega), Nat.mod_self] at hlast
  have hnext := hshift (s + 1 - len) (by omega)
  rw [Nat.sub_add_cancel (by omega), Nat.mod_eq_of_lt hs] at hnext
  omega

theorem Repeats.period (h : Repeats value pattern len) {i : ℕ} (hi : i < 32) :
    value.getLsbD i = value.getLsbD (i % len) := by
  have hmod : i % len < 32 := lt_of_le_of_lt (Nat.mod_le i len) hi
  rw [h.value_bit i hi, h.value_bit _ hmod, Nat.mod_mod]

theorem IsRun.isRepeating {l : ℕ} (h : IsRun value size s r) (hpattern : Repeats value pattern len)
    (hl : l ≤ len) (hdvd : size ∣ l) (hl32 : 32 / l * l = 32) :
    isRepeating value (pattern &&& lowMask l) l = true := by
  unfold A64.isRepeating
  rw [List.all_eq_true]
  intro k hk
  rw [List.mem_range] at hk
  rw [beq_iff_eq]
  refine BitVec.eq_of_getLsbD_eq fun j hj ↦ ?_
  rw [BitVec.getLsbD_and, BitVec.getLsbD_and, BitVec.getLsbD_ushiftRight, getLsbD_lowMask]
  by_cases hlow : j < l
  · have hplace : k * l + j < 32 := by
      have hle : (k + 1) * l ≤ 32 / l * l := Nat.mul_le_mul_right l hk
      rw [Nat.add_mul, Nat.one_mul] at hle
      omega
    have hvalue := hpattern.value_bit j hj
    rw [Nat.mod_eq_of_lt (by omega)] at hvalue
    have hk0 : k * l % size = 0 := Nat.mod_eq_zero_of_dvd (Dvd.dvd.mul_left hdvd k)
    rw [← hvalue, h _ hplace, h _ hj, show k * l + j + r = j + r + k * l by omega, Nat.add_mod, hk0,
      Nat.add_zero, Nat.mod_mod]
  · rw [decide_eq_false (by omega), Bool.and_false, Bool.and_false]

/-- The search ends at the element of the run. -/
theorem IsRun.findPattern_snd (h : IsRun value size s r) (hs : s + 1 < size)
    (hsize : size ∈ [32, 16, 8, 4, 2]) :
    ∀ (lens : List ℕ) (pattern : BitVec 32) (len : ℕ), (∀ l ∈ lens, l ∈ [32, 16, 8, 4, 2]) →
      (len :: lens).Pairwise (· > ·) → size ∈ len :: lens → Repeats value pattern len →
      (findPattern value lens (pattern, len)).2 = size := by
  intro lens
  induction lens with
  | nil =>
    intro pattern len _ _ hmem _
    rw [List.mem_singleton] at hmem
    exact hmem.symm
  | cons l lens ih =>
    intro pattern len hlens hdesc hmem hrepeats
    have hlmem := hlens l List.mem_cons_self
    have hl : l < len := (List.pairwise_cons.mp hdesc).1 l List.mem_cons_self
    have hrest := (List.pairwise_cons.mp hdesc).2
    unfold findPattern
    dsimp only
    by_cases heq : size = len
    · have hnot : ¬ A64.isRepeating value (pattern &&& lowMask l) l = true := by
        intro hrepeating
        have hle := h.size_le hs hsize hlmem
          fun i hi ↦ (repeats_of_isRepeating hlmem hrepeating).period hi
        omega
      rw [if_neg hnot, heq]
    · have hmem' : size ∈ l :: lens := (List.mem_cons.mp hmem).resolve_left heq
      have hle : size ≤ l := by
        rcases List.mem_cons.mp hmem' with rfl | htail
        · exact le_rfl
        · exact Nat.le_of_lt ((List.pairwise_cons.mp hrest).1 size htail)
      have hl32 : ∀ l ∈ [32, 16, 8, 4, 2], 32 / l * l = 32 := by decide
      have hrepeating := h.isRepeating hrepeats (Nat.le_of_lt hl) (size_dvd size hsize l hlmem hle)
        (hl32 l hlmem)
      rw [if_pos hrepeating]
      exact ih _ _ (fun l' hl' ↦ hlens l' (List.mem_cons_of_mem _ hl')) hrest hmem'
        (repeats_of_isRepeating hlmem hrepeating)

/-- The first bit of a run that follows a zero brings the run to the low end. -/
theorem findRotation_isSome (hlen : 2 ≤ len) (hle : len ≤ 32) (hs : s + 1 < len)
    (hpattern : ∀ i, len ≤ i → pattern.getLsbD i = false)
    (hrun : ∀ i < len, pattern.getLsbD i = decide ((i + r) % len ≤ s)) :
    ∀ (rounds k : ℕ) (temp : BitVec 32), k + rounds = len → RotatedLeft pattern temp len k →
      findRotation (popcount pattern) len rounds k temp ≠ none := by
  intro rounds
  induction rounds with
  | zero => exact fun k temp _ _ ↦ Option.some_ne_none 0
  | succ rounds ih =>
    intro k temp hk h
    have hbit : ∀ i < len, temp.getLsbD i = decide ((i + (len - k + r)) % len ≤ s) := by
      intro i hi
      rw [h, decide_eq_true hi, Bool.true_and, hrun _ (Nat.mod_lt _ (by omega)), Nat.mod_add_mod,
        Nat.add_assoc]
    unfold findRotation
    split
    case isFalse => exact ih (k + 1) _ (by omega) (h.succ hlen hle (by omega))
    case isTrue hstart =>
      rw [hbit 0 (by omega), hbit (len - 1) (by omega), decide_eq_true_eq, decide_eq_true_eq,
        Nat.zero_add] at hstart
      generalize len - k + r = c at hbit hstart
      obtain ⟨hfirst, hbefore⟩ := hstart
      have hc : c % len = 0 := by
        by_contra hne
        have hclt : c % len < len := Nat.mod_lt _ (by omega)
        rw [← Nat.add_mod_mod, show len - 1 + c % len = c % len - 1 + len by omega,
          Nat.add_mod_right, Nat.mod_eq_of_lt (show c % len - 1 < len by omega)] at hbefore
        omega
      have htemp : temp = lowMask (s + 1) := by
        refine BitVec.eq_of_getLsbD_eq fun i hi ↦ ?_
        rw [getLsbD_lowMask]
        by_cases hlow : i < len
        · rw [hbit i hlow, ← Nat.add_mod_mod, hc, Nat.add_zero, Nat.mod_eq_of_lt hlow]
          exact decide_eq_decide.mpr (by omega)
        · rw [h, decide_eq_false hlow, Bool.false_and, decide_eq_false (by omega)]
      have hwidth : ∀ s < 31, 1 + (31 - (lowMask (s + 1)).clz.toNat) -
          (lowMask (s + 1)).ctz.toNat = popcount (lowMask (s + 1)) := by decide +kernel
      rw [← h.popcount_eq hle hpattern, htemp]
      dsimp only
      rw [if_pos (hwidth s (by omega))]
      exact Option.some_ne_none k

theorem popcount_run (hle : len ≤ 32) (hpattern : ∀ i, len ≤ i → pattern.getLsbD i = false)
    {i j : ℕ} (hi : i < len) (hone : pattern.getLsbD i = true) (hj : j < len)
    (hzero : pattern.getLsbD j = false) : popcount pattern ≠ 0 ∧ popcount pattern ≠ len := by
  have hbound : ∀ i, len ≤ i → ¬ pattern.getLsbD i = true := by
    intro i hi
    rw [hpattern i hi]
    exact Bool.false_ne_true
  rw [popcount_eq_count, count_of_bound hle hbound]
  refine ⟨Nat.count_ne_iff_exists.mpr ⟨i, hi, hone⟩, fun hall ↦ ?_⟩
  have hset := Nat.count_iff_forall.mp hall j hj
  rw [hzero] at hset
  exact Bool.false_ne_true hset

theorem IsRun.numberToMask_ne_zero (h : IsRun value size s r) (hs : s + 1 < size)
    (hsize : size ∈ [32, 16, 8, 4, 2]) : numberToMask value ≠ 0 := by
  obtain ⟨hi, hone⟩ := exists_position hsize r (show 0 < size by omega)
  obtain ⟨hj, hnone⟩ := exists_position hsize r hs
  have hilt : (0 + (size - r % size)) % size < size := Nat.mod_lt _ (by omega)
  have hjlt : (s + 1 + (size - r % size)) % size < size := Nat.mod_lt _ (by omega)
  have htrue := h _ hi
  have hfalse := h _ hj
  rw [hone, decide_eq_true (Nat.zero_le s)] at htrue
  rw [hnone, decide_eq_false (by omega)] at hfalse
  have hspecial : ¬ (value = 0 ∨ value = 0xffffffff) := by
    rintro (rfl | rfl)
    · rw [show (0 : BitVec 32) = 0#32 from rfl, BitVec.getLsbD_zero] at htrue
      exact Bool.false_ne_true htrue
    · rw [show (0xffffffff : BitVec 32) = BitVec.allOnes 32 from rfl, BitVec.getLsbD_allOnes,
        decide_eq_true hj] at hfalse
      exact Bool.false_ne_true hfalse.symm
  have hrepeats := findPattern_repeats [16, 8, 4, 2] (by decide) value 32 repeats_self
  have hlen := h.findPattern_snd hs hsize [16, 8, 4, 2] value 32 (by decide) (by decide) hsize
    repeats_self
  unfold numberToMask
  rw [if_neg hspecial]
  rcases hpattern : findPattern value [16, 8, 4, 2] (value, 32) with ⟨pattern, len⟩
  rw [hpattern] at hrepeats hlen
  dsimp only at hrepeats hlen ⊢
  subst hlen
  have hrun : ∀ i < len, pattern.getLsbD i = decide ((i + r) % len ≤ s) := by
    intro i hi
    have hbit := hrepeats.value_bit i (lt_of_lt_of_le hi hrepeats.len_le)
    rw [Nat.mod_eq_of_lt hi] at hbit
    rw [← hbit, h i (lt_of_lt_of_le hi hrepeats.len_le)]
  rw [hrepeats.value_bit _ hi, Nat.mod_mod] at htrue
  rw [hrepeats.value_bit _ hj, Nat.mod_mod] at hfalse
  obtain ⟨hzero, hall⟩ :=
    popcount_run hrepeats.len_le hrepeats.pattern_bit hilt htrue hjlt hfalse
  rw [if_neg (by omega)]
  have hsome := findRotation_isSome (by omega) hrepeats.len_le hs hrepeats.pattern_bit hrun len 0
    pattern (Nat.zero_add len) (rotatedLeft_zero hrepeats)
  cases hfound : findRotation (popcount pattern) len len 0 pattern with
  | none => exact absurd hfound hsome
  | some rotation =>
    obtain ⟨hrotation, hlt, -⟩ := rotation_of_findRotation hrepeats hzero hall hfound
    have hle := hrepeats.len_le
    obtain ⟨hk, hsize', -⟩ := patternPrefix_spec len hsize (popcount pattern) hlt hzero
    have hwidth := (unpack_mask _ hk rotation (by omega)).1
    have hne : ∀ len ∈ [32, 16, 8, 4, 2], ∀ ones < len, ones ≠ 0 →
        BitVec.ofNat 8 (patternPrefix len ||| ones) ≠ 0#8 := by decide
    intro hmask
    dsimp only at hmask
    rw [hmask] at hwidth
    exact hne len hsize _ hlt hzero hwidth.symm

/-! ### Loading -/

theorem insn_of_dest {op : Op} {rd : Reg} (h : op.dest = some rd) (s : WideCpu) :
    s.insn op = { s.put rd ((step s.low op).get rd) with
      flags := (step s.low op).flags
      memory := (step s.low op).memory
      simd := (step s.low op).simd } := by
  unfold WideCpu.insn
  rw [h]

/-- Code that writes one register only leaves its last value there. -/
theorem execInsns_of_dest {rd : Reg} (hrd : rd ≠ 31) : ∀ (code : List Op), code ≠ [] →
    (∀ op ∈ code, op.dest = some rd) → ∀ s : WideCpu,
    execInsns code s = { s.put rd ((exec code s.low).get rd) with
      flags := (exec code s.low).flags
      memory := (exec code s.low).memory
      simd := (exec code s.low).simd }
  | [op], _, hdest, s => insn_of_dest (hdest op List.mem_cons_self) s
  | op :: op' :: code, _, hdest, s => by
    show execInsns (op' :: code) (s.insn op) = _
    rw [execInsns_of_dest hrd (op' :: code) (List.cons_ne_nil _ _)
      (fun o ho ↦ hdest o (List.mem_cons_of_mem _ ho)), low_insn,
      insn_of_dest (hdest op List.mem_cons_self)]
    simp only [WideCpu.put, WideCpu.put64, if_neg hrd, Function.update_idem]
    rfl

theorem emitLoadImmediate_ne_nil (rd : Reg) (immed : BitVec 32) : emitLoadImmediate rd immed ≠ [] := by
  unfold emitLoadImmediate
  dsimp only
  split_ifs <;> exact List.cons_ne_nil _ _

theorem dest_emitLoadImmediate (rd : Reg) (immed : BitVec 32) :
    ∀ op ∈ emitLoadImmediate rd immed, op.dest = some rd := by
  unfold emitLoadImmediate
  dsimp only
  split_ifs <;> simp [movReg, mvnReg, Op.dest]

theorem execInsns_emitLoadImmediate {rd : Reg} (h : rd ≠ 31) (immed : BitVec 32) (s : WideCpu) :
    execInsns (emitLoadImmediate rd immed) s = s.put rd immed := by
  rw [execInsns_of_dest h _ (emitLoadImmediate_ne_nil rd immed) (dest_emitLoadImmediate rd immed),
    exec_emitLoadImmediate h, Cpu.get_put _ h]
  simp only [WideCpu.put, WideCpu.put64, Cpu.put, if_neg h]
  rfl

/-- The loader leaves the constant, the encodings of a constant decode to it, and only a value
without an encoding is turned down. -/
theorem constantLoading (value : BitVec 32) :
    (∀ rd < 31, ∀ s : WideCpu, execInsns (emitLoadImmediate rd value) s =
      s.put64 rd (value.setWidth 64)) ∧
    (numberToMask value ≠ 0 → ∀ encode ∈ [andImmed, orrImmed, eorImmed], ∀ rd rn,
      let insn := I32 (encode rd rn (((numberToMask value >>> 16) &&& 0x3f).setWidth 8)
        ((numberToMask value &&& 0x3f).setWidth 8))
      decodeBitMasks (fieldN insn) (fieldImms insn) (fieldImmr insn) = some value) ∧
    (numberToMask value = 0 → ∀ n imms immr, decodeBitMasks n imms immr ≠ some value) := by
  refine ⟨fun rd hrd s ↦ execInsns_emitLoadImmediate (Nat.ne_of_lt hrd) value s, ?_, ?_⟩
  · intro hmask encode hencode rd rn
    have hdecode := decodeBitMasks_numberToMask hmask
    simp only [List.mem_cons, List.not_mem_nil, or_false] at hencode
    rcases hencode with rfl | rfl | rfl
    · obtain ⟨hn, himms, himmr⟩ := fields_logicalImmed
        (show ∀ i < 13, (0x12000000 : Word).getLsbD (10 + i) = false by decide)
      dsimp only [andImmed]
      rwa [hn, himms, himmr]
    · obtain ⟨hn, himms, himmr⟩ := fields_logicalImmed
        (show ∀ i < 13, (0x32000000 : Word).getLsbD (10 + i) = false by decide)
      dsimp only [orrImmed]
      rwa [hn, himms, himmr]
    · obtain ⟨hn, himms, himmr⟩ := fields_logicalImmed
        (show ∀ i < 13, (0x52000000 : Word).getLsbD (10 + i) = false by decide)
      dsimp only [eorImmed]
      rwa [hn, himms, himmr]
  · intro hzero n imms immr hdecode
    obtain ⟨size, hsize, s, r, hs, hrun⟩ := isRun_of_decodeBitMasks hdecode
    exact hrun.numberToMask_ne_zero hs hsize hzero

theorem constantLoading_nibbles :
    (let mask := numberToMask 0x0f0f0f0f
    let insn := I32 (orrImmed 4 31 (((mask >>> 16) &&& 0x3f).setWidth 8) ((mask &&& 0x3f).setWidth 8))
    decodeBitMasks (fieldN insn) (fieldImms insn) (fieldImmr insn) = some 0x0f0f0f0f) ∧
    decodeBitMasks true 0 0 ≠ some 0x12345678 :=
  ⟨(constantLoading 0x0f0f0f0f).2.1 (by decide +kernel) orrImmed (by simp) 4 31,
    (constantLoading 0x12345678).2.2 (by decide +kernel) true 0 0⟩

end Emu68.A64
