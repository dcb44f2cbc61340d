import Emu68.SoftCache.Operations

/-!
Coherence of the software cache. The logical memory of a state is the memory overlaid with the
valid lines (`view`). An eviction or a flush leaves it as it is, a read returns what it holds, and
a write that the cache accepts changes it in the written bytes only. Every access comes down to
two facts about one way: writing it back (`Coherent.writeBack`), and putting a new line into it
(`Coherent.replace`).
-/

set_option autoImplicit false
set_option relaxedAutoImplicit false

namespace Emu68.SoftCache

open Lib

/-- Way `way` of the set holds the line of the tag. -/
def Holds (c : Cache) (set way tag : ℕ) : Prop :=
  way < cacheWayCount ∧ isValid (c.ways set way).flags = true ∧ (c.ways set way).tag = tag

/-- The logical memory: a cached line hides the memory behind it. -/
def view (s : CacheState) : Bytes := fun x ↦
  match findWay s.cache (getSet x) (getTag x) with
  | some way => (s.cache.ways (getSet x) way).line (x % 16)
  | none => s.memory x

/-- Byte `i` of the way equals memory unless its word is dirty. -/
def CleanAt (content : Way) (set : ℕ) (memory : Bytes) (i : ℕ) : Prop :=
  isDirty content.flags (i / 4) = false → content.line i = memory (content.tag + set * 16 + i)

structure Coherent (s : CacheState) : Prop where
  /-- At most one way of a set holds a line. -/
  unique : ∀ set < cacheSetCount, ∀ tag way way',
    Holds s.cache set way tag → Holds s.cache set way' tag → way = way'
  clean : ∀ set < cacheSetCount, ∀ way tag, Holds s.cache set way tag →
    ∀ i < 16, CleanAt (s.cache.ways set way) set s.memory i
  aligned : ∀ set < cacheSetCount, ∀ way tag, Holds s.cache set way tag →
    tag % (cacheSetCount * 16) = 0
  /-- Some way of the set is not marked, and no bit beyond the ways is. -/
  unmarked : ∀ set < cacheSetCount, s.cache.cWaySelect set < 255

variable {s : CacheState} {set way tag x a n : ℕ}

/-! ### Addresses, flags and marks -/

theorem getSet_lt (x : ℕ) : getSet x < cacheSetCount :=
  Nat.mod_lt _ (by decide)

theorem getTag_aligned (x : ℕ) : getTag x % (cacheSetCount * 16) = 0 := by
  simp only [getTag, cacheSetCount]
  omega

/-- An address is its tag, its set and its offset in the line. -/
theorem address_eq (x : ℕ) : getTag x + getSet x * 16 + x % 16 = x := by
  simp only [getTag, getSet, cacheSetCount]
  omega

/-- The addresses of the line that a set and a tag stand for. -/
theorem mem_line_iff (hset : set < cacheSetCount) (htag : tag % (cacheSetCount * 16) = 0) :
    (getSet x = set ∧ getTag x = tag) ↔ tag + set * 16 ≤ x ∧ x < tag + set * 16 + 16 := by
  simp only [getTag, getSet, cacheSetCount] at *
  omega

theorem isValid_or {flags dirty : Flags} (h : isValid flags = true) :
    isValid (flags ||| dirty) = true := by
  simp only [isValid, bne_iff_ne, ne_eq, BitVec.and_or_distrib_right, BitVec.or_eq_zero_iff] at *
  exact fun hzero ↦ h hzero.1

theorem isDirty_or {flags dirty : Flags} {word : ℕ} :
    isDirty (flags ||| dirty) word = false ↔
      isDirty flags word = false ∧ isDirty dirty word = false := by
  simp only [isDirty, bne_eq_false_iff_eq, BitVec.and_or_distrib_right, BitVec.or_eq_zero_iff]

theorem cacheMarkHit_unmarked {c : Cache} (hway : way < cacheWayCount)
    (h : ∀ set < cacheSetCount, c.cWaySelect set < 255) :
    ∀ set' < cacheSetCount, (cacheMarkHit c set way).cWaySelect set' < 255 := by
  intro set' hset'
  by_cases heq : set' = set
  · subst heq
    have hshift : 1 <<< way ≤ 128 := by
      rw [Nat.one_shiftLeft]
      exact Nat.pow_le_pow_right (n := 2) (by decide) (Nat.le_of_lt_succ hway)
    have hor : c.cWaySelect set' ||| 1 <<< way < 2 ^ 8 :=
      Nat.or_lt_two_pow (Nat.lt_succ_of_lt (h set' hset')) (by omega)
    have hall : 0xffffffff >>> (32 - cacheWayCount) = 255 := by decide
    simp only [cacheMarkHit, Function.update_self, hall]
    split_ifs <;> omega
  · simp only [cacheMarkHit, Function.update_of_ne heq]
    exact h set' hset'

/-- The way to replace exists, because not all ways are marked. -/
theorem cacheGetWay_lt {c : Cache} (h : c.cWaySelect set < 255) :
    cacheGetWay c set < cacheWayCount := by
  have hall : ∀ mark < 255, builtinFfs (0xffffffff ^^^ mark) - 1 < 8 := by decide +kernel
  exact hall _ h

/-! ### Finding a line -/

theorem holds_of_findWay {c : Cache} (h : findWay c set tag = some way) : Holds c set way tag := by
  have hfound := List.find?_some h
  simp only [decide_eq_true_eq] at hfound
  exact ⟨List.mem_range.mp (List.mem_of_find?_eq_some h), hfound.2, hfound.1⟩

theorem not_holds_of_findWay {c : Cache} (h : findWay c set tag = none) :
    ¬ Holds c set way tag := by
  rintro ⟨hway, hvalid, htag⟩
  have hnone := List.find?_eq_none.mp h way (List.mem_range.mpr hway)
  exact hnone (decide_eq_true ⟨htag, hvalid⟩)

theorem Coherent.view_of_holds (h : Coherent s) (hold : Holds s.cache (getSet x) way (getTag x)) :
    view s x = (s.cache.ways (getSet x) way).line (x % 16) := by
  unfold view
  split
  · rename_i way' hfound
    rw [h.unique _ (getSet_lt x) _ _ _ (holds_of_findWay hfound) hold]
  · rename_i hfound
    exact absurd hold (not_holds_of_findWay hfound)

theorem view_of_not_holds (h : ∀ way, ¬ Holds s.cache (getSet x) way (getTag x)) :
    view s x = s.memory x := by
  unfold view
  split
  · rename_i way' hfound
    exact absurd (holds_of_findWay hfound) (h way')
  · rfl

/-! ### Writing a way back -/

theorem writeBackWord_apply (content : Way) (base : ℕ) (memory : Bytes) (word i : ℕ) :
    writeBackWord content base memory word (base + i) =
      if i / 4 = word ∧ isDirty content.flags word = true then content.line i
      else memory (base + i) := by
  unfold writeBackWord
  by_cases hdirty : isDirty content.flags word = true
  · rw [if_pos hdirty]
    by_cases hi : i / 4 = word
    · rw [if_pos ⟨hi, hdirty⟩, storeBytes_inside (by omega) (by omega)]
      congr 1
      omega
    · rw [if_neg fun h ↦ hi h.1, storeBytes_outside (by omega)]
  · rw [if_neg hdirty, if_neg fun h ↦ hdirty h.2]

theorem writeBackWord_below (content : Way) {base : ℕ} (memory : Bytes) (word : ℕ)
    (hx : x < base) : writeBackWord content base memory word x = memory x := by
  unfold writeBackWord
  split
  · exact storeBytes_outside (by omega)
  · rfl

/-- Writing back stores the dirty words of the line and nothing else. -/
theorem writeBack_apply (content : Way) (base : ℕ) (memory : Bytes) {i : ℕ} (hi : i < 16) :
    writeBack content base memory (base + i) =
      if isDirty content.flags (i / 4) = true then content.line i else memory (base + i) := by
  have hword : i / 4 = 0 ∨ i / 4 = 1 ∨ i / 4 = 2 ∨ i / 4 = 3 := by omega
  simp only [writeBack, List.foldl_cons, List.foldl_nil, writeBackWord_apply]
  rcases hword with h | h | h | h <;> simp [h]

theorem writeBack_outside (content : Way) {base : ℕ} (memory : Bytes)
    (hx : ¬ (base ≤ x ∧ x < base + 16)) : writeBack content base memory x = memory x := by
  simp only [writeBack, List.foldl_cons, List.foldl_nil]
  by_cases hlow : x < base
  · simp only [writeBackWord_below content _ _ hlow]
  · obtain ⟨i, rfl⟩ := Nat.exists_eq_add_of_le (Nat.le_of_not_lt hlow)
    have hword : ¬ i / 4 = 0 ∧ ¬ i / 4 = 1 ∧ ¬ i / 4 = 2 ∧ ¬ i / 4 = 3 := by omega
    simp only [writeBackWord_apply, hword, false_and, if_false]

/-- The bytes of a way are in memory, so that nothing is lost when it is replaced. -/
def Settled (s : CacheState) (set way : ℕ) : Prop :=
  ∀ tag, Holds s.cache set way tag →
    ∀ i < 16, (s.cache.ways set way).line i = s.memory (tag + set * 16 + i)

/-- The memory after the line of a way is written back. -/
def written (s : CacheState) (set way : ℕ) : CacheState :=
  let content := s.cache.ways set way
  { s with memory := writeBack content (content.tag + set * 16) s.memory }

theorem Coherent.written_outside (h : Coherent s) (hset : set < cacheSetCount)
    (hold : Holds s.cache set way tag) (hx : ¬ (getSet x = set ∧ getTag x = tag)) :
    (written s set way).memory x = s.memory x := by
  refine writeBack_outside _ _ ?_
  rw [hold.2.2]
  exact fun hin ↦ hx ((mem_line_iff hset (h.aligned _ hset _ _ hold)).mpr hin)

theorem Coherent.written_inside (h : Coherent s) (hset : set < cacheSetCount)
    (hold : Holds s.cache set way tag) {i : ℕ} (hi : i < 16) :
    (written s set way).memory (tag + set * 16 + i) = (s.cache.ways set way).line i := by
  have hclean := h.clean _ hset _ _ hold i hi
  unfold CleanAt at hclean
  rw [hold.2.2] at hclean
  change writeBack _ _ _ _ = _
  rw [hold.2.2, writeBack_apply _ _ _ hi]
  split
  · rfl
  · rename_i hdirty
    exact (hclean (by simpa using hdirty)).symm

/-- Writing a way back changes no logical byte and settles the way. -/
theorem Coherent.writeBack (h : Coherent s) (hset : set < cacheSetCount)
    (hold : Holds s.cache set way tag) :
    Coherent (written s set way) ∧ view (written s set way) = view s ∧
      Settled (written s set way) set way := by
  have hsettled : Settled (written s set way) set way := by
    intro tag' hold' i hi
    obtain rfl : tag = tag' := hold.2.2.symm.trans hold'.2.2
    exact (h.written_inside hset hold hi).symm
  have hcoherent : Coherent (written s set way) := by
    refine ⟨h.unique, ?_, h.aligned, h.unmarked⟩
    intro set' hset' way' tag' hold' i hi hdirty
    change Holds s.cache set' way' tag' at hold'
    change (s.cache.ways set' way').line i =
      (written s set way).memory ((s.cache.ways set' way').tag + set' * 16 + i)
    rw [hold'.2.2]
    by_cases hline : set' = set ∧ tag' = tag
    · obtain ⟨rfl, rfl⟩ := hline
      obtain rfl := h.unique _ hset _ _ _ hold hold'
      exact hsettled _ hold i hi
    · have haligned := h.aligned _ hset' _ _ hold'
      obtain ⟨hgs, hgt⟩ : getSet (tag' + set' * 16 + i) = set' ∧
          getTag (tag' + set' * 16 + i) = tag' :=
        (mem_line_iff hset' haligned).mpr (by omega)
      rw [h.written_outside hset hold fun hx ↦ hline ⟨hgs ▸ hx.1, hgt ▸ hx.2⟩]
      have hclean := h.clean _ hset' _ _ hold' i hi hdirty
      rwa [hold'.2.2] at hclean
  refine ⟨hcoherent, ?_, hsettled⟩
  funext x
  by_cases hheld : ∃ way', Holds s.cache (getSet x) way' (getTag x)
  · obtain ⟨way', hold'⟩ := hheld
    rw [h.view_of_holds hold', hcoherent.view_of_holds hold']
    rfl
  · have hfree : ∀ way', ¬ Holds s.cache (getSet x) way' (getTag x) :=
      fun way' hold' ↦ hheld ⟨way', hold'⟩
    have hmemory : view (written s set way) x = (written s set way).memory x :=
      view_of_not_holds hfree
    rw [view_of_not_holds hfree, hmemory]
    refine h.written_outside hset hold ?_
    rintro ⟨rfl, rfl⟩
    exact hfree way hold

/-! ### Putting a line into a way -/

theorem setWay_self (c : Cache) (set way : ℕ) (content : Way) :
    (c.setWay set way content).ways set way = content := by
  simp only [Cache.setWay, Function.update_self]

theorem setWay_other (c : Cache) {set way set' way' : ℕ} (content : Way)
    (h : ¬ (set' = set ∧ way' = way)) :
    (c.setWay set way content).ways set' way' = c.ways set' way' := by
  by_cases hset : set' = set
  · subst hset
    have hway : way' ≠ way := fun hway ↦ h ⟨rfl, hway⟩
    simp only [Cache.setWay, Function.update_self, Function.update_of_ne hway]
  · simp only [Cache.setWay, Function.update_of_ne hset]

theorem holds_setWay_self {c : Cache} {content : Way} :
    Holds (c.setWay set way content) set way tag ↔
      way < cacheWayCount ∧ isValid content.flags = true ∧ content.tag = tag := by
  rw [Holds, setWay_self]

theorem holds_setWay_other {c : Cache} {content : Way} {set' way' : ℕ}
    (h : ¬ (set' = set ∧ way' = way)) :
    Holds (c.setWay set way content) set' way' tag ↔ Holds c set' way' tag := by
  rw [Holds, setWay_other c content h, Holds]

/-- The state with a new line in one way, new marks and a new memory. -/
def placed (s : CacheState) (set way : ℕ) (content : Way) (marks : ℕ → ℕ) (memory : Bytes) :
    CacheState :=
  ⟨{ s.cache.setWay set way content with cWaySelect := marks }, memory⟩

/-- What an access may put into a way: the line is in no other way, the line that it replaces is
settled or the same, memory changes behind the new line only, and the clean words of the new line
are in memory. -/
structure Fits (s : CacheState) (set way : ℕ) (content : Way) (memory : Bytes) : Prop where
  set_lt : set < cacheSetCount
  way_lt : way < cacheWayCount
  valid : isValid content.flags = true
  aligned : content.tag % (cacheSetCount * 16) = 0
  sole : ∀ way', Holds s.cache set way' content.tag → way' = way
  settled : Holds s.cache set way content.tag ∨ Settled s set way
  outside : ∀ x, ¬ (getSet x = set ∧ getTag x = content.tag) → memory x = s.memory x
  clean : ∀ i < 16, CleanAt content set memory i

variable {content : Way} {marks : ℕ → ℕ} {memory : Bytes}

theorem Fits.holds (h : Fits s set way content memory) :
    Holds (placed s set way content marks memory).cache set way content.tag :=
  holds_setWay_self.mpr ⟨h.way_lt, h.valid, rfl⟩

/-- In the new state the line is in the new way, and the other ways hold what they held. -/
theorem Fits.holds_iff (h : Fits s set way content memory) {set' way' tag' : ℕ} :
    Holds (placed s set way content marks memory).cache set' way' tag' ↔
      if set' = set ∧ way' = way then tag' = content.tag else Holds s.cache set' way' tag' := by
  split
  · rename_i heq
    obtain ⟨rfl, rfl⟩ := heq
    refine holds_setWay_self.trans ⟨fun hold ↦ hold.2.2.symm, ?_⟩
    rintro rfl
    exact ⟨h.way_lt, h.valid, rfl⟩
  · rename_i hne
    exact holds_setWay_other hne

theorem Coherent.place (hs : Coherent s) (h : Fits s set way content memory)
    (hmarks : ∀ set < cacheSetCount, marks set < 255) :
    Coherent (placed s set way content marks memory) := by
  -- a way other than the new one never holds the new line
  have hother : ∀ set' way' tag', ¬ (set' = set ∧ way' = way) → Holds s.cache set' way' tag' →
      ¬ (set' = set ∧ tag' = content.tag) := by
    rintro set' way' tag' hne hold ⟨rfl, rfl⟩
    exact hne ⟨rfl, h.sole _ hold⟩
  refine ⟨?_, ?_, ?_, hmarks⟩
  · intro set' hset' tag' way₁ way₂ hold₁ hold₂
    rw [h.holds_iff] at hold₁ hold₂
    split_ifs at hold₁ hold₂ with heq₁ heq₂ heq₂
    · exact heq₁.2.trans heq₂.2.symm
    · exact absurd ⟨heq₁.1, hold₁⟩ (hother _ _ _ heq₂ hold₂)
    · exact absurd ⟨heq₂.1, hold₂⟩ (hother _ _ _ heq₁ hold₁)
    · exact hs.unique _ hset' _ _ _ hold₁ hold₂
  · intro set' hset' way' tag' hold' i hi
    by_cases heq : set' = set ∧ way' = way
    · obtain ⟨rfl, rfl⟩ := heq
      have hway : (placed s set' way' content marks memory).cache.ways set' way' =
          content := setWay_self _ _ _ _
      rw [hway]
      exact h.clean i hi
    · have hway : (placed s set way content marks memory).cache.ways set' way' =
          s.cache.ways set' way' := setWay_other _ _ heq
      rw [h.holds_iff, if_neg heq] at hold'
      rw [hway]
      intro hdirty
      have hsame := hs.clean _ hset' _ _ hold' i hi hdirty
      rw [hold'.2.2] at hsame ⊢
      rw [hsame]
      refine (h.outside _ fun hx ↦ ?_).symm
      have hline : getSet (tag' + set' * 16 + i) = set' ∧ getTag (tag' + set' * 16 + i) = tag' :=
        (mem_line_iff hset' (hs.aligned _ hset' _ _ hold')).mpr (by omega)
      exact hother _ _ _ heq hold' ⟨hline.1 ▸ hx.1, hline.2 ▸ hx.2⟩
  · intro set' hset' way' tag' hold'
    rw [h.holds_iff] at hold'
    split_ifs at hold'
    · rw [hold']
      exact h.aligned
    · exact hs.aligned _ hset' _ _ hold'

/-- The logical memory changes to the new line where that line lies, and nowhere else. -/
theorem Coherent.view_placed (hs : Coherent s) (h : Fits s set way content memory)
    (hmarks : ∀ set < cacheSetCount, marks set < 255) (x : ℕ) :
    view (placed s set way content marks memory) x =
      if getSet x = set ∧ getTag x = content.tag then content.line (x % 16) else view s x := by
  have hs' := hs.place h hmarks
  split
  · rename_i hx
    obtain ⟨rfl, hx⟩ := hx
    have hold : Holds (placed s (getSet x) way content marks memory).cache (getSet x) way
        content.tag := h.holds
    rw [← hx] at hold
    rw [hs'.view_of_holds hold]
    exact congrArg (fun w : Way ↦ w.line (x % 16)) (setWay_self _ _ _ _)
  · rename_i hx
    by_cases hheld : ∃ way', ¬ (getSet x = set ∧ way' = way) ∧
        Holds s.cache (getSet x) way' (getTag x)
    · obtain ⟨way', hne, hold⟩ := hheld
      have hold' : Holds (placed s set way content marks memory).cache
          (getSet x) way' (getTag x) := by
        rwa [h.holds_iff, if_neg hne]
      rw [hs'.view_of_holds hold', hs.view_of_holds hold]
      exact congrArg (fun w : Way ↦ w.line (x % 16)) (setWay_other _ _ hne)
    · have hfree : ∀ way', ¬ Holds (placed s set way content marks memory).cache
          (getSet x) way' (getTag x) := by
        intro way' hold'
        rw [h.holds_iff] at hold'
        split_ifs at hold' with heq
        · exact hx ⟨heq.1, hold'⟩
        · exact hheld ⟨way', heq, hold'⟩
      rw [view_of_not_holds hfree]
      refine (h.outside x hx).trans ?_
      -- the line that was in the way, if it was another one, is settled
      by_cases hold : Holds s.cache (getSet x) way (getTag x)
      · have hsame : getSet x = set := by
          by_contra hne
          exact hheld ⟨way, fun heq ↦ hne heq.1, hold⟩
        subst hsame
        rcases h.settled with hcontent | hsettled
        · exact absurd ⟨rfl, hold.2.2.symm.trans hcontent.2.2⟩ hx
        · have hbyte := hsettled _ hold (x % 16) (Nat.mod_lt _ (by decide))
          rw [address_eq] at hbyte
          rw [hs.view_of_holds hold, hbyte]
      · refine (view_of_not_holds fun way' hold' ↦ ?_).symm
        refine hheld ⟨way', ?_, hold'⟩
        rintro ⟨-, rfl⟩
        exact hold hold'

end Emu68.SoftCache
