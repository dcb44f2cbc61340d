import Emu68.SoftCache.Coherence

/-!
`cache_invalidate_range` and `cache_setup`. The range is rounded to lines with 32-bit arithmetic,
and the loop over the lines runs with 64-bit arithmetic. Which lines it invalidates is compared with
the lines that hold an address of the range, where the addresses wrap at the end of the 32-bit
space.
-/

set_option autoImplicit false
set_option relaxedAutoImplicit false

namespace Emu68.SoftCache

/-! ### The functions -/

/-- The loop of `cache_invalidate_range`; no result when the fuel does not suffice. -/
def invalidateFrom : ℕ → ℕ → ℕ → CacheState → Option CacheState
  | 0, _, _, _ => none
  | fuel + 1, addr, last, s =>
    if addr ≤ last then
      invalidateFrom fuel ((addr + 16) % 2 ^ 64) last (cacheInvalidateLine s (addr % 2 ^ 32))
    else some s

def cacheInvalidateRange (fuel : ℕ) (s : CacheState) (address len : BitVec 32) :
    Option CacheState :=
  let start := address &&& 0xfffffff0#32
  let last := (address + len - 1) &&& 0xfffffff0#32
  invalidateFrom fuel start.toNat last.toNat s

/-- The two caches, `IC` and `DC`. -/
structure Caches where
  ic : Cache
  dc : Cache

/-- `cache_setup`, from the pointers that are set already and the contents of the memory that
`tlsf_malloc` returns. -/
def cacheSetup (current : Option Caches) (heap : Caches) : Caches :=
  match current with
  | some caches =>
    { ic := (cacheInvalidateAll ⟨caches.ic, fun _ ↦ 0⟩).cache
      dc := (cacheInvalidateAll ⟨caches.dc, fun _ ↦ 0⟩).cache }
  | none =>
    { ic :=
        { ways := fun set way ↦
            if set < cacheSetCount ∧ way < cacheWayCount then
              { heap.ic.ways set way with flags := 0, tag := 0 }
            else heap.ic.ways set way
          cWaySelect := fun set ↦ if set < cacheSetCount then 0 else heap.ic.cWaySelect set }
      -- the flags and the tags of the data cache are not initialised
      dc :=
        { heap.dc with
          cWaySelect := fun set ↦ if set < cacheSetCount then 0 else heap.dc.cWaySelect set } }

/-! ### Which lines are invalidated -/

/-- The line of the set and the tag holds one of the addresses. -/
def Meets (addresses : ℕ → Prop) (set tag : ℕ) : Prop :=
  ∃ x, addresses x ∧ getSet x = set ∧ getTag x = tag

/-- The valid lines that meet the addresses have lost their flags; everything else is kept. -/
structure Invalidates (addresses : ℕ → Prop) (s s' : CacheState) : Prop where
  hit : ∀ set < cacheSetCount, ∀ way < cacheWayCount,
    isValid (s.cache.ways set way).flags = true → Meets addresses set (s.cache.ways set way).tag →
    s'.cache.ways set way = { s.cache.ways set way with flags := 0 }
  kept : ∀ set < cacheSetCount, ∀ way < cacheWayCount,
    ¬ (isValid (s.cache.ways set way).flags = true ∧
      Meets addresses set (s.cache.ways set way).tag) →
    s'.cache.ways set way = s.cache.ways set way
  memory : s'.memory = s.memory

variable {s s' s'' : CacheState} {set way tag x a start last : ℕ}

theorem same_line_iff (x y : ℕ) :
    getSet x = getSet y ∧ getTag x = getTag y ↔ x / 16 = y / 16 := by
  simp only [getSet, getTag, cacheSetCount]
  omega

/-- What is invalidated depends on the lines of the addresses only. -/
theorem Invalidates.of_lines {first second : ℕ → Prop} (h : Invalidates first s s')
    (hfirst : ∀ x, first x → ∃ y, second y ∧ y / 16 = x / 16)
    (hsecond : ∀ y, second y → ∃ x, first x ∧ x / 16 = y / 16) : Invalidates second s s' := by
  have hmeets : ∀ set tag, Meets first set tag ↔ Meets second set tag := by
    intro set tag
    constructor
    · rintro ⟨x, hx, rfl, rfl⟩
      obtain ⟨y, hy, hline⟩ := hfirst x hx
      exact ⟨y, hy, (same_line_iff y x).mpr hline⟩
    · rintro ⟨y, hy, rfl, rfl⟩
      obtain ⟨x, hx, hline⟩ := hsecond y hy
      exact ⟨x, hx, (same_line_iff x y).mpr hline⟩
  constructor
  · intro set hset way hway hvalid hmeet
    exact h.hit set hset way hway hvalid ((hmeets _ _).mpr hmeet)
  · intro set hset way hway hnot
    refine h.kept set hset way hway ?_
    rwa [hmeets]
  · exact h.memory

theorem Invalidates.none {addresses : ℕ → Prop} (h : ∀ x, ¬ addresses x) :
    Invalidates addresses s s where
  hit := fun _ _ _ _ _ hmeet ↦ absurd hmeet.choose_spec.1 (h _)
  kept := fun _ _ _ _ _ ↦ rfl
  memory := rfl

theorem isValid_cleared : isValid 0 = false := by decide

/-- Two invalidations one after the other. -/
theorem Invalidates.trans {first second both : ℕ → Prop} (h₁ : Invalidates first s s')
    (h₂ : Invalidates second s' s'') (hboth : ∀ x, both x ↔ first x ∨ second x) :
    Invalidates both s s'' := by
  have hmeets : ∀ set tag, Meets both set tag ↔ Meets first set tag ∨ Meets second set tag := by
    intro set tag
    simp only [Meets, hboth, or_and_right, exists_or]
  constructor
  · intro set hset way hway hvalid hmeet
    rw [hmeets] at hmeet
    by_cases hfirst : Meets first set (s.cache.ways set way).tag
    · have hcleared := h₁.hit set hset way hway hvalid hfirst
      rw [h₂.kept set hset way hway, hcleared]
      rw [hcleared]
      rintro ⟨hvalid', -⟩
      exact Bool.false_ne_true (isValid_cleared.symm.trans hvalid')
    · have hkept := h₁.kept set hset way hway fun hboth ↦ hfirst hboth.2
      rw [h₂.hit set hset way hway, hkept]
      · rwa [hkept]
      · rw [hkept]
        exact hmeet.resolve_left hfirst
  · intro set hset way hway hnot
    rw [hmeets] at hnot
    have hkept := h₁.kept set hset way hway fun hboth ↦ hnot ⟨hboth.1, .inl hboth.2⟩
    rw [h₂.kept set hset way hway, hkept]
    rw [hkept]
    exact fun hboth ↦ hnot ⟨hboth.1, .inr hboth.2⟩
  · exact h₂.memory.trans h₁.memory

/-- The first `k` ways of the set are searched for the line. -/
theorem invalidateWays_spec (s : CacheState) (a k : ℕ) :
    (∀ set way, ((List.range k).foldl (invalidateLineWay a) s).cache.ways set way =
      if set = getSet a ∧ way < k ∧ (s.cache.ways set way).tag = getTag a ∧
          isValid (s.cache.ways set way).flags = true then
        { s.cache.ways set way with flags := 0 }
      else s.cache.ways set way) ∧
    ((List.range k).foldl (invalidateLineWay a) s).memory = s.memory := by
  induction k with
  | zero => exact ⟨fun set way ↦ (if_neg fun h ↦ Nat.not_lt_zero _ h.2.1).symm, rfl⟩
  | succ k ih =>
    obtain ⟨hways, hmemory⟩ := ih
    rw [List.range_succ, List.foldl_append, List.foldl_cons, List.foldl_nil]
    generalize (List.range k).foldl (invalidateLineWay a) s = t at hways hmemory
    have hold : t.cache.ways (getSet a) k = s.cache.ways (getSet a) k := by
      rw [hways, if_neg fun h ↦ Nat.lt_irrefl _ h.2.1]
    unfold invalidateLineWay
    rw [hold]
    by_cases hhit : (s.cache.ways (getSet a) k).tag = getTag a ∧
        isValid (s.cache.ways (getSet a) k).flags = true
    · rw [if_pos hhit]
      refine ⟨fun set way ↦ ?_, hmemory⟩
      show (t.cache.setWay _ _ _).ways set way = _
      by_cases hat : set = getSet a ∧ way = k
      · obtain ⟨rfl, rfl⟩ := hat
        rw [setWay_self, hold, if_pos ⟨rfl, Nat.lt_succ_self _, hhit⟩]
      · rw [setWay_other _ _ hat, hways]
        refine if_congr ⟨?_, ?_⟩ rfl rfl
        · rintro ⟨hset, hway, hrest⟩
          exact ⟨hset, Nat.lt_succ_of_lt hway, hrest⟩
        · rintro ⟨hset, hway, hrest⟩
          exact ⟨hset, by omega, hrest⟩
    · rw [if_neg hhit]
      refine ⟨fun set way ↦ ?_, hmemory⟩
      rw [hways]
      refine if_congr ⟨?_, ?_⟩ rfl rfl
      · rintro ⟨hset, hway, hrest⟩
        exact ⟨hset, Nat.lt_succ_of_lt hway, hrest⟩
      · rintro ⟨hset, hway, hrest⟩
        refine ⟨hset, ?_, hrest⟩
        have hne : way ≠ k := by
          rintro rfl
          rw [hset] at hrest
          exact hhit hrest
        omega

/-- `cache_invalidate_line` invalidates the line of its address. -/
theorem cacheInvalidateLine_spec (s : CacheState) (a : ℕ) :
    Invalidates (fun x ↦ x / 16 = a / 16) s (cacheInvalidateLine s a) := by
  have hways : ∀ set way, (cacheInvalidateLine s a).cache.ways set way =
      if set = getSet a ∧ way < cacheWayCount ∧ (s.cache.ways set way).tag = getTag a ∧
          isValid (s.cache.ways set way).flags = true then
        { s.cache.ways set way with flags := 0 }
      else s.cache.ways set way := by
    rw [cacheInvalidateLine]
    exact (invalidateWays_spec s a cacheWayCount).1
  have hmeets : ∀ set tag, Meets (fun x ↦ x / 16 = a / 16) set tag ↔
      set = getSet a ∧ tag = getTag a := by
    intro set tag
    constructor
    · rintro ⟨x, hx, rfl, rfl⟩
      exact (same_line_iff x a).mpr hx
    · rintro ⟨rfl, rfl⟩
      exact ⟨a, rfl, rfl, rfl⟩
  constructor
  · intro set hset way hway hvalid hmeet
    rw [hmeets] at hmeet
    rw [hways, if_pos ⟨hmeet.1, hway, hmeet.2, hvalid⟩]
  · intro set hset way hway hnot
    rw [hmeets] at hnot
    rw [hways, if_neg fun h ↦ hnot ⟨h.2.2.2, h.1, h.2.2.1⟩]
  · rw [cacheInvalidateLine]
    exact (invalidateWays_spec s a cacheWayCount).2

/-- The loop ends, and it invalidates the lines from the first to the last one. -/
theorem invalidateFrom_spec (n : ℕ) (s : CacheState) (start last : ℕ) (hstart : start % 16 = 0)
    (hlast : last % 16 = 0) (hlt : last < 2 ^ 32) (hn : last + 16 ≤ start + 16 * n) :
    ∃ s', invalidateFrom (n + 1) start last s = some s' ∧
      Invalidates (fun x ↦ start ≤ x ∧ x < last + 16) s s' := by
  induction n generalizing start s with
  | zero =>
    refine ⟨s, if_neg (by omega), .none fun x hx ↦ ?_⟩
    omega
  | succ n ih =>
    rw [invalidateFrom]
    by_cases hle : start ≤ last
    · rw [if_pos hle, Nat.mod_eq_of_lt (show start + 16 < 2 ^ 64 by omega),
        Nat.mod_eq_of_lt (show start < 2 ^ 32 by omega)]
      obtain ⟨s', hrun, hrest⟩ :=
        ih (cacheInvalidateLine s start) (start + 16) (show (start + 16) % 16 = 0 by omega) (by omega)
      refine ⟨s', hrun, (cacheInvalidateLine_spec s start).trans hrest fun x ↦ ?_⟩
      omega
    · rw [if_neg hle]
      refine ⟨s, rfl, .none fun x hx ↦ ?_⟩
      omega

/-! ### The range of the argument -/

/-- The addresses from `address` on, `len` of them, modulo `2 ^ 32`. -/
def InRange (address len : BitVec 32) (x : ℕ) : Prop :=
  ∃ i < len.toNat, x = (address.toNat + i) % 2 ^ 32

/-- For every state of the cache, the call returns and invalidates exactly the lines that hold an
address of the range. -/
def RangeInvalidated (address len : BitVec 32) : Prop :=
  ∀ s : CacheState, ∃ fuel s', cacheInvalidateRange fuel s address len = some s' ∧
    Invalidates (InRange address len) s s'

/-- An empty range starts with a line other than the first one, and no range wraps. -/
def RangeFits (address len : BitVec 32) : Prop :=
  (len = 0 → address ≠ 0 ∧ address.toNat % 16 = 0) ∧ address.toNat + len.toNat ≤ 2 ^ 32

theorem toNat_roundDown (x : BitVec 32) : (x &&& 0xfffffff0#32).toNat = x.toNat / 16 * 16 := by
  have hmask : (0xfffffff0#32) = BitVec.allOnes 32 <<< 4 := by decide
  have hshift : x &&& 0xfffffff0#32 = (x >>> 4) <<< 4 := by
    rw [hmask]
    ext i hi
    simp only [BitVec.getElem_and, BitVec.getElem_shiftLeft, BitVec.getElem_allOnes]
    by_cases h4 : i < 4
    · simp [h4]
    · simp [h4, Nat.add_sub_cancel' (Nat.le_of_not_lt h4), hi]
  rw [hshift, BitVec.toNat_shiftLeft, BitVec.toNat_ushiftRight, Nat.shiftLeft_eq,
    Nat.shiftRight_eq_div_pow]
  have := x.isLt
  omega

/-- The last address of the range, as the function computes it. -/
def lastAddress (address len : BitVec 32) : ℕ :=
  (address.toNat + len.toNat + (2 ^ 32 - 1)) % 2 ^ 32

theorem toNat_last (address len : BitVec 32) :
    (address + len - 1).toNat = lastAddress address len := by
  have hone : (1 : BitVec 32).toNat = 1 := rfl
  rw [BitVec.toNat_sub, BitVec.toNat_add, hone, lastAddress]
  omega

/-- The call returns, and it invalidates the lines from that of the first address to that of the
computed last one. -/
theorem cacheInvalidateRange_spec (s : CacheState) (address len : BitVec 32) :
    ∃ fuel s', cacheInvalidateRange fuel s address len = some s' ∧
      Invalidates (fun x ↦ address.toNat / 16 ≤ x / 16 ∧ x / 16 ≤ lastAddress address len / 16)
        s s' := by
  have hlt : lastAddress address len < 2 ^ 32 := Nat.mod_lt _ (Nat.two_pow_pos _)
  obtain ⟨s', hrun, hspec⟩ := invalidateFrom_spec (2 ^ 28) s
    (address.toNat / 16 * 16) (lastAddress address len / 16 * 16)
    (Nat.mul_mod_left _ _) (Nat.mul_mod_left _ _) (by omega) (by omega)
  refine ⟨2 ^ 28 + 1, s', ?_, hspec.of_lines ?_ ?_⟩
  · unfold cacheInvalidateRange
    dsimp only
    rw [toNat_roundDown, toNat_roundDown, toNat_last]
    exact hrun
  · intro x hx
    exact ⟨x, by omega, rfl⟩
  · intro y hy
    exact ⟨y, by omega, rfl⟩

/-- Two fuels give the same result. -/
theorem invalidateFrom_det {fuel fuel' : ℕ} (h : invalidateFrom fuel start last s = some s')
    (h' : invalidateFrom fuel' start last s = some s'') : s' = s'' := by
  induction fuel generalizing fuel' start s with
  | zero => exact absurd h (by simp [invalidateFrom])
  | succ fuel ih =>
    cases fuel' with
    | zero => exact absurd h' (by simp [invalidateFrom])
    | succ fuel' =>
      rw [invalidateFrom] at h h'
      split_ifs at h h' with hle
      · exact ih h h'
      · exact Option.some.inj (h.symm.trans h')

/-! ### When the range is invalidated -/

/-- A state whose cache holds the line of one address only. -/
def holding (x : ℕ) : CacheState :=
  ⟨⟨fun set way ↦ ⟨fun _ ↦ 0, getTag x, if set = getSet x ∧ way = 0 then fValid else 0⟩, fun _ ↦ 0⟩,
    fun _ ↦ 0⟩

/-- Two sets of addresses whose invalidations agree contain the lines of the same addresses. -/
theorem Invalidates.lines_eq {first second : ℕ → Prop} {x : ℕ}
    (h : Invalidates first (holding x) s') (h' : Invalidates second (holding x) s')
    (hx : first x) : ∃ y, second y ∧ y / 16 = x / 16 := by
  have hset := getSet_lt x
  have hflags : ((holding x).cache.ways (getSet x) 0).flags = fValid := if_pos ⟨rfl, rfl⟩
  have hvalid : isValid ((holding x).cache.ways (getSet x) 0).flags = true := by
    rw [hflags]
    decide
  by_contra hnone
  have hhit := h.hit _ hset 0 (by decide) hvalid ⟨x, hx, rfl, rfl⟩
  have hkept := h'.kept _ hset 0 (by decide) fun hboth ↦ by
    obtain ⟨y, hy, hys, hyt⟩ := hboth.2
    exact hnone ⟨y, hy, (same_line_iff y x).mp ⟨hys, hyt⟩⟩
  rw [hkept] at hhit
  have hzero : fValid = 0 := hflags.symm.trans (congrArg Way.flags hhit)
  exact absurd hzero (by decide)

/-- The call invalidates the range exactly when the lines between the first and the computed last
one are those of the range. -/
theorem rangeInvalidated_iff_lines (address len : BitVec 32) :
    RangeInvalidated address len ↔
      (∀ x, InRange address len x →
        address.toNat / 16 ≤ x / 16 ∧ x / 16 ≤ lastAddress address len / 16) ∧
      ∀ x, address.toNat / 16 ≤ x / 16 ∧ x / 16 ≤ lastAddress address len / 16 →
        ∃ y, InRange address len y ∧ y / 16 = x / 16 := by
  constructor
  · intro h
    have hboth : ∀ x, ∃ s', Invalidates (InRange address len) (holding x) s' ∧
        Invalidates
          (fun x ↦ address.toNat / 16 ≤ x / 16 ∧ x / 16 ≤ lastAddress address len / 16)
          (holding x) s' := by
      intro x
      obtain ⟨fuel, s', hrun, hrange⟩ := h (holding x)
      obtain ⟨fuel', s'', hrun', hspec⟩ := cacheInvalidateRange_spec (holding x) address len
      obtain rfl := invalidateFrom_det hrun hrun'
      exact ⟨s', hrange, hspec⟩
    constructor
    · intro x hx
      obtain ⟨s', hrange, hspec⟩ := hboth x
      obtain ⟨y, hy, hline⟩ := hrange.lines_eq hspec hx
      rwa [hline] at hy
    · intro x hx
      obtain ⟨s', hrange, hspec⟩ := hboth x
      exact hspec.lines_eq hrange hx
  · rintro ⟨hwithin, hcovered⟩ s
    obtain ⟨fuel, s', hrun, hspec⟩ := cacheInvalidateRange_spec s address len
    exact ⟨fuel, s', hrun, hspec.of_lines hcovered fun y hy ↦ ⟨y, hwithin y hy, rfl⟩⟩

theorem rangeInvalidated_iff (address len : BitVec 32) :
    RangeInvalidated address len ↔ RangeFits address len := by
  have haddress := address.isLt
  have hlen := len.isLt
  have hzero : ∀ x : BitVec 32, x = 0 ↔ x.toNat = 0 := fun x ↦ by
    rw [← BitVec.toNat_inj]
    rfl
  have hnonzero : ∀ x : BitVec 32, x ≠ 0 ↔ x.toNat ≠ 0 := fun x ↦ (hzero x).not
  rw [rangeInvalidated_iff_lines, RangeFits, hzero, hnonzero]
  unfold InRange lastAddress
  generalize address.toNat = a at *
  generalize len.toNat = n at *
  constructor
  · rintro ⟨hwithin, hcovered⟩
    constructor
    · rintro rfl
      by_contra hnot
      obtain ⟨y, ⟨i, hi, -⟩, -⟩ := hcovered a (by omega)
      exact absurd hi (Nat.not_lt_zero i)
    · by_contra hwrap
      -- the line of the first address, and the one behind it
      obtain ⟨hfirst, hlast⟩ := hwithin a ⟨0, by omega, by omega⟩
      have hnext := hwithin ((a + (16 - a % 16)) % 2 ^ 32) ⟨16 - a % 16, by omega, rfl⟩
      omega
  · rintro ⟨hempty, hend⟩
    constructor
    · rintro x ⟨i, hi, rfl⟩
      omega
    · intro x hx
      by_cases hstart : x / 16 = a / 16
      · exact ⟨a, ⟨0, by omega, by omega⟩, hstart.symm⟩
      · exact ⟨x / 16 * 16, ⟨x / 16 * 16 - a, by omega, by omega⟩, by omega⟩

/-! ### The first call of the setup -/

def NoValidLine (c : Cache) : Prop :=
  ∀ set < cacheSetCount, ∀ way < cacheWayCount, isValid (c.ways set way).flags = false

/-- The first call leaves no valid line. -/
def SetUp (heap : Caches) : Prop :=
  NoValidLine (cacheSetup none heap).ic ∧ NoValidLine (cacheSetup none heap).dc

theorem setUp_iff (heap : Caches) : SetUp heap ↔ NoValidLine heap.dc := by
  constructor
  · rintro ⟨-, hdc⟩
    exact hdc
  · intro hdc
    refine ⟨?_, hdc⟩
    intro set hset way hway
    simp only [cacheSetup, if_pos (And.intro hset hway), isValid_cleared]

/-- The range is invalidated exactly when it neither wraps nor is empty at a place where the
rounded last line is not below the first one, and the setup succeeds exactly when the memory of the
data cache holds no valid flag already. -/
theorem cacheMaintenance_iff (address len : BitVec 32) (heap : Caches) :
    (RangeInvalidated address len ↔ RangeFits address len) ∧ (SetUp heap ↔ NoValidLine heap.dc) :=
  ⟨rangeInvalidated_iff address len, setUp_iff heap⟩

/-- The empty range at address 0 invalidates every line, a range that wraps none, and the data
cache starts with the flags of the memory it is given. -/
theorem not_cacheMaintenance :
    ¬ RangeInvalidated 0 0 ∧ ¬ RangeInvalidated 0xfffffff0 0x20 ∧
    ¬ SetUp ⟨(holding 0).cache, (holding 0).cache⟩ := by
  refine ⟨?_, ?_, ?_⟩
  · rw [rangeInvalidated_iff]
    rintro ⟨hempty, -⟩
    exact (hempty rfl).1 rfl
  · rw [rangeInvalidated_iff]
    rintro ⟨-, hend⟩
    exact absurd hend (by decide)
  · rw [setUp_iff]
    intro h
    exact absurd (h 0 (by decide) 0 (by decide)) (by decide)

end Emu68.SoftCache
