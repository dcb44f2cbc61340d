import Emu68.SoftCache.Coherence

/-!
What an access and a flush do to a coherent cache. An access first selects a way
(`selectWay_spec`); the line that it then puts there fits, whether it was read, written through or
written back. A flush drops ways that are settled, one by one (`Drops`).
-/

set_option autoImplicit false
set_option relaxedAutoImplicit false

namespace Emu68.SoftCache

open Lib

variable {s s₁ : CacheState} {set way tag x a n data : ℕ} {content final : Way} {marks : ℕ → ℕ}
  {memory : Bytes} {fill : Bool}

/-! ### The accesses -/

theorem setWay_same (c : Cache) (set way : ℕ) : c.setWay set way (c.ways set way) = c := by
  simp only [Cache.setWay, Function.update_eq_self]

/-- What is known when an access has its way: up to a write-back, the state is the one before the
access, with the line in its place. Only a write of a whole line skips the fill. -/
structure Selected (fill : Bool) (s s₁ : CacheState) (a way : ℕ) (content : Way) : Prop where
  coherent : Coherent s₁
  view_eq : view s₁ = view s
  way_lt : way < cacheWayCount
  valid : isValid content.flags = true
  tag_eq : content.tag = getTag a
  sole : ∀ way', Holds s₁.cache (getSet a) way' (getTag a) → way' = way
  settled : Holds s₁.cache (getSet a) way (getTag a) ∨ Settled s₁ (getSet a) way
  filled : (fill = true ∨ findWay s.cache (getSet a) (getTag a) ≠ none) →
    (∀ i < 16, CleanAt content (getSet a) s₁.memory i) ∧
      ∀ i < 16, content.line i = view s (getTag a + getSet a * 16 + i)

theorem line_address {i : ℕ} (a : ℕ) (hi : i < 16) :
    getSet (getTag a + getSet a * 16 + i) = getSet a ∧
      getTag (getTag a + getSet a * 16 + i) = getTag a ∧
      (getTag a + getSet a * 16 + i) % 16 = i := by
  simp only [getTag, getSet, cacheSetCount]
  omega

theorem selectWay_spec (fill : Bool) (h : Coherent s) (a : ℕ) :
    ∃ s₁ way content, selectWay fill s a =
        (⟨s₁.cache.setWay (getSet a) way content, s₁.memory⟩, way) ∧
      Selected fill s s₁ a way content := by
  have hset := getSet_lt a
  unfold selectWay
  split
  · rename_i way hfound
    have hold := holds_of_findWay hfound
    refine ⟨s, way, s.cache.ways (getSet a) way, by rw [setWay_same], h, rfl, hold.1, hold.2.1,
      hold.2.2, fun way' hold' ↦ h.unique _ hset _ _ _ hold' hold, .inl hold, fun _ ↦ ⟨?_, ?_⟩⟩
    · exact h.clean _ hset _ _ hold
    · intro i hi
      obtain ⟨hgs, hgt, hoff⟩ := line_address a hi
      have hold' : Holds s.cache (getSet (getTag a + getSet a * 16 + i)) way
          (getTag (getTag a + getSet a * 16 + i)) := by rwa [hgs, hgt]
      rw [h.view_of_holds hold', hgs, hoff]
  · rename_i hmiss
    have hfree : ∀ way', ¬ Holds s.cache (getSet a) way' (getTag a) :=
      fun way' ↦ not_holds_of_findWay hmiss
    have hway : cacheGetWay s.cache (getSet a) < cacheWayCount :=
      cacheGetWay_lt (h.unmarked _ hset)
    -- the state with the victim written back
    obtain ⟨s₁, hs₁, hcache, hmemory⟩ : ∃ s₁, (Coherent s₁ ∧ view s₁ = view s ∧
        Settled s₁ (getSet a) (cacheGetWay s.cache (getSet a))) ∧ s₁.cache = s.cache ∧
        (allocateWay fill s a).1.memory = s₁.memory := by
      by_cases hvalid : isValid
          (s.cache.ways (getSet a) (cacheGetWay s.cache (getSet a))).flags = true
      · exact ⟨_, h.writeBack hset ⟨hway, hvalid, rfl⟩, rfl, if_pos hvalid⟩
      · exact ⟨s, ⟨h, rfl, fun tag hold ↦ absurd hold.2.1 hvalid⟩, rfl, if_neg hvalid⟩
    have hbase : a - a % 16 = getTag a + getSet a * 16 := by
      have := address_eq a
      omega
    refine ⟨s₁, cacheGetWay s.cache (getSet a),
      (allocateWay fill s a).1.cache.ways (getSet a) (cacheGetWay s.cache (getSet a)), ?_,
      hs₁.1, hs₁.2.1, hway, ?_, ?_, ?_, .inr hs₁.2.2, ?_⟩
    · rw [hcache, ← hmemory]
      simp only [allocateWay, setWay_self]
    · simp only [allocateWay, setWay_self]
      decide
    · simp only [allocateWay, setWay_self]
    · intro way' hold
      rw [hcache] at hold
      exact absurd hold (hfree way')
    · rintro (rfl | hhit)
      · have hline : ∀ i, ((allocateWay true s a).1.cache.ways (getSet a)
            (cacheGetWay s.cache (getSet a))).line i =
              s₁.memory (getTag a + getSet a * 16 + i) := by
          intro i
          rw [← hmemory, ← hbase]
          simp only [allocateWay, setWay_self, if_true]
        refine ⟨fun i _ _ ↦ ?_, fun i hi ↦ ?_⟩
        · rw [hline]
          simp only [allocateWay, setWay_self]
        · obtain ⟨hgs, hgt, -⟩ := line_address a hi
          rw [hline, ← hs₁.2.1, view_of_not_holds]
          intro way' hold
          rw [hgs, hgt, hcache] at hold
          exact hfree way' hold
      · exact absurd hmiss hhit

theorem cacheMarkHit_setWay (c : Cache) (set way : ℕ) (first second : Way) :
    (cacheMarkHit (c.setWay set way first) set way).setWay set way second =
      { c.setWay set way second with
        cWaySelect := (cacheMarkHit (c.setWay set way first) set way).cWaySelect } := by
  simp only [cacheMarkHit, Cache.setWay, Function.update_self, Function.update_idem]

/-- The marks that an access leaves. -/
def marksAfter (s₁ : CacheState) (a way : ℕ) (content : Way) : ℕ → ℕ :=
  (cacheMarkHit (s₁.cache.setWay (getSet a) way content) (getSet a) way).cWaySelect

theorem Selected.unmarked (h : Selected fill s s₁ a way content) :
    ∀ set' < cacheSetCount, marksAfter s₁ a way content set' < 255 :=
  cacheMarkHit_unmarked h.way_lt h.coherent.unmarked

theorem Selected.fits (h : Selected fill s s₁ a way content) (htag : final.tag = content.tag)
    (hvalid : isValid final.flags = true)
    (houtside : ∀ x, ¬ (getSet x = getSet a ∧ getTag x = getTag a) → memory x = s₁.memory x)
    (hclean : ∀ i < 16, CleanAt final (getSet a) memory i) :
    Fits s₁ (getSet a) way final memory where
  set_lt := getSet_lt a
  way_lt := h.way_lt
  valid := hvalid
  aligned := by
    rw [htag, h.tag_eq]
    exact getTag_aligned a
  sole := by
    rw [htag, h.tag_eq]
    exact h.sole
  settled := by
    rw [htag, h.tag_eq]
    exact h.settled
  outside := by
    rw [htag, h.tag_eq]
    exact houtside
  clean := hclean

/-- A read inside a line returns what the logical memory holds, and does not change it. -/
theorem readLine_spec (h : Coherent s) (hin : a % 16 + n ≤ 16) :
    Coherent (readLine n s a).1 ∧ view (readLine n s a).1 = view s ∧
      (readLine n s a).2 = loadValue (view s) a n := by
  obtain ⟨s₁, way, content, hselect, hsel⟩ := selectWay_spec true h a
  obtain ⟨hclean, hline⟩ := hsel.filled (.inl rfl)
  have hfits : Fits s₁ (getSet a) way content s₁.memory :=
    hsel.fits rfl hsel.valid (fun _ _ ↦ rfl) hclean
  have hstate : (readLine n s a).1 =
      placed s₁ (getSet a) way content (marksAfter s₁ a way content) s₁.memory := by
    simp only [readLine, hselect]
    rfl
  have hvalue : (readLine n s a).2 = loadValue content.line (a % 16) n := by
    simp only [readLine, hselect]
    change loadValue ((s₁.cache.setWay (getSet a) way content).ways (getSet a) way).line _ _ = _
    rw [setWay_self]
  refine ⟨?_, ?_, ?_⟩
  · rw [hstate]
    exact hsel.coherent.place hfits hsel.unmarked
  · funext x
    rw [hstate, hsel.coherent.view_placed hfits hsel.unmarked, hsel.view_eq, hsel.tag_eq]
    split
    · rename_i hx
      rw [hline _ (Nat.mod_lt _ (by decide)), ← hx.1, ← hx.2, address_eq]
    · rfl
  · rw [hvalue]
    refine loadValue_congr fun i hi ↦ ?_
    have haddress := address_eq a
    rw [hline _ (by omega)]
    congr 1
    omega

/-- The line after the store agrees with the logical memory after the store. -/
theorem Selected.line_stored (h : Selected fill s s₁ a way content) (hin : a % 16 + n ≤ 16)
    (hfill : fill = true ∨ n = 16) (hset : getSet x = getSet a) (htag : getTag x = getTag a) :
    storeBytes content.line (a % 16) n (byteOf n data) (x % 16) =
      storeBytes (view s) a n (byteOf n data) x := by
  have hx := address_eq x
  have ha := address_eq a
  rw [hset, htag] at hx
  by_cases hinside : a ≤ x ∧ x < a + n
  · rw [storeBytes_inside hinside.1 hinside.2, storeBytes_inside (by omega) (by omega)]
    congr 1
    omega
  · have hfilled : fill = true := by
      rcases hfill with hfill | hfull
      · exact hfill
      · omega
    rw [storeBytes_outside (by omega), storeBytes_outside (by omega),
      (h.filled (.inl hfilled)).2 _ (Nat.mod_lt _ (by decide)), hx]

theorem outside_line (hin : a % 16 + n ≤ 16) (hx : ¬ (getSet x = getSet a ∧ getTag x = getTag a)) :
    x < a ∨ a + n ≤ x := by
  by_contra hinside
  refine hx ?_
  simp only [getTag, getSet, cacheSetCount]
  omega

theorem Selected.view_stored (h : Selected fill s s₁ a way content) (hin : a % 16 + n ≤ 16)
    (hfill : fill = true ∨ n = 16)
    (hline : final.line = storeBytes content.line (a % 16) n (byteOf n data))
    (htag : final.tag = content.tag) (hfits : Fits s₁ (getSet a) way final memory) :
    view (placed s₁ (getSet a) way final (marksAfter s₁ a way content) memory) =
      storeBytes (view s) a n (byteOf n data) := by
  funext x
  rw [h.coherent.view_placed hfits h.unmarked, hline, htag, h.tag_eq]
  split
  · rename_i hx
    exact h.line_stored hin hfill hx.1 hx.2
  · rename_i hx
    rw [h.view_eq, storeBytes_outside (outside_line hin hx)]

/-- Write-through: the line is in the cache, and memory changes with it. -/
theorem Selected.fits_writeThrough (h : Selected fill s s₁ a way content)
    (hin : a % 16 + n ≤ 16) (hhit : findWay s.cache (getSet a) (getTag a) ≠ none) (data : ℕ) :
    Fits s₁ (getSet a) way
      { content with line := storeBytes content.line (a % 16) n (byteOf n data) }
      (storeBytes s₁.memory a n (byteOf n data)) := by
  have hclean := (h.filled (.inr hhit)).1
  refine h.fits rfl h.valid (fun x hx ↦ storeBytes_outside (outside_line hin hx)) ?_
  intro i hi hnot
  have ha := address_eq a
  simp only [h.tag_eq]
  by_cases hinside : a % 16 ≤ i ∧ i < a % 16 + n
  · rw [storeBytes_inside hinside.1 hinside.2, storeBytes_inside (by omega) (by omega)]
    congr 1
    omega
  · rw [storeBytes_outside (by omega), storeBytes_outside (by omega), hclean i hi hnot, h.tag_eq]

/-- Write-back: the words that are written become dirty. -/
theorem Selected.fits_writeBack {dirty : Flags} (h : Selected fill s s₁ a way content)
    (hdirty : ∀ i < n, isDirty dirty ((a % 16 + i) / 4) = true) (hin : a % 16 + n ≤ 16)
    (hfill : fill = true ∨ n = 16) (data : ℕ) :
    Fits s₁ (getSet a) way
      { content with
        line := storeBytes content.line (a % 16) n (byteOf n data)
        flags := content.flags ||| dirty } s₁.memory := by
  refine h.fits rfl (isValid_or h.valid) (fun _ _ ↦ rfl) ?_
  intro i hi hnot
  obtain ⟨hold, hnew⟩ := isDirty_or.mp hnot
  have houtside : ¬ (a % 16 ≤ i ∧ i < a % 16 + n) := by
    rintro ⟨hlow, hhigh⟩
    have hword := hdirty (i - a % 16) (by omega)
    rw [Nat.add_sub_cancel' hlow, hnew] at hword
    exact Bool.noConfusion hword
  have hfilled : fill = true := by
    rcases hfill with hfill | hfull
    · exact hfill
    · omega
  change storeBytes content.line (a % 16) n (byteOf n data) i = _
  rw [storeBytes_outside (by omega)]
  exact (h.filled (.inl hfilled)).1 i hi hold

/-- A write inside a line updates the logical memory, or is refused and changes nothing. -/
theorem writeLine_spec {dirty : Flags} (h : Coherent s) (hin : a % 16 + n ≤ 16)
    (hdirty : ∀ i < n, isDirty dirty ((a % 16 + i) / 4) = true) (hfill : fill = true ∨ n = 16)
    (data : ℕ) (wb : UInt8) :
    Coherent (writeLine n fill dirty s a data wb).1 ∧
      (writeLine n fill dirty s a data wb = (s, 0) ∨
        (writeLine n fill dirty s a data wb).2 = 1 ∧
          view (writeLine n fill dirty s a data wb).1 =
            storeBytes (view s) a n (byteOf n data)) := by
  by_cases hrefused : findWay s.cache (getSet a) (getTag a) = none ∧ wb = 0
  · have hresult : writeLine n fill dirty s a data wb = (s, 0) := if_pos hrefused
    exact ⟨by rwa [hresult], .inl hresult⟩
  obtain ⟨s₁, way, content, hselect, hsel⟩ := selectWay_spec fill h a
  have hways : (cacheMarkHit (s₁.cache.setWay (getSet a) way content) (getSet a) way).ways
      (getSet a) way = content := setWay_self _ _ _ _
  by_cases hwb : wb = 0
  · have hhit : findWay s.cache (getSet a) (getTag a) ≠ none := fun hmiss ↦ hrefused ⟨hmiss, hwb⟩
    have hfits := hsel.fits_writeThrough hin hhit data
    have hresult : writeLine n fill dirty s a data wb =
        (placed s₁ (getSet a) way
          { content with line := storeBytes content.line (a % 16) n (byteOf n data) }
          (marksAfter s₁ a way content) (storeBytes s₁.memory a n (byteOf n data)), 1) := by
      rw [writeLine, if_neg hrefused, hselect]
      simp only [hwb, ne_eq, not_true_eq_false, if_false, hways, cacheMarkHit_setWay]
      rfl
    rw [hresult]
    exact ⟨hsel.coherent.place hfits hsel.unmarked,
      .inr ⟨rfl, hsel.view_stored hin hfill rfl rfl hfits⟩⟩
  · have hfits := hsel.fits_writeBack hdirty hin hfill data
    have hresult : writeLine n fill dirty s a data wb =
        (placed s₁ (getSet a) way
          { content with
            line := storeBytes content.line (a % 16) n (byteOf n data)
            flags := content.flags ||| dirty }
          (marksAfter s₁ a way content) s₁.memory, 1) := by
      rw [writeLine, if_neg hrefused, hselect]
      simp only [hwb, ne_eq, not_false_eq_true, if_true, hways, cacheMarkHit_setWay]
      rfl
    rw [hresult]
    exact ⟨hsel.coherent.place hfits hsel.unmarked,
      .inr ⟨rfl, hsel.view_stored hin hfill rfl rfl hfits⟩⟩

/-! ### The flushes -/

/-- A step of a flush: the logical memory stays, and no way comes to hold a line. -/
structure Drops (s s' : CacheState) : Prop where
  coherent : Coherent s'
  view_eq : view s' = view s
  holds : ∀ set < cacheSetCount, ∀ way tag, Holds s'.cache set way tag → Holds s.cache set way tag

theorem Drops.refl (h : Coherent s) : Drops s s :=
  ⟨h, rfl, fun _ _ _ _ hold ↦ hold⟩

theorem Drops.trans {s₂ : CacheState} (h₁ : Drops s s₁) (h₂ : Drops s₁ s₂) : Drops s s₂ :=
  ⟨h₂.coherent, h₂.view_eq.trans h₁.view_eq,
    fun set hset way tag hold ↦ h₁.holds set hset way tag (h₂.holds set hset way tag hold)⟩

theorem isValid_zero : isValid 0 = false := by decide

/-- Dropping a settled way loses nothing. -/
theorem Coherent.drop (h : Coherent s) (hset : set < cacheSetCount) (hsettled : Settled s set way)
    (hinvalid : isValid content.flags = false)
    (hmarks : ∀ set < cacheSetCount, marks set < 255) :
    Drops s (placed s set way content marks s.memory) := by
  have hholds : ∀ set' way' tag',
      Holds (placed s set way content marks s.memory).cache set' way' tag' →
        ¬ (set' = set ∧ way' = way) ∧ Holds s.cache set' way' tag' := by
    intro set' way' tag' hold
    by_cases heq : set' = set ∧ way' = way
    · obtain ⟨rfl, rfl⟩ := heq
      have hvalid := (holds_setWay_self.mp hold).2.1
      rw [hinvalid] at hvalid
      exact Bool.noConfusion hvalid
    · exact ⟨heq, (holds_setWay_other heq).mp hold⟩
  have hways : ∀ set' way' tag',
      Holds (placed s set way content marks s.memory).cache set' way' tag' →
        (placed s set way content marks s.memory).cache.ways set' way' =
          s.cache.ways set' way' :=
    fun set' way' tag' hold ↦ setWay_other _ _ (hholds _ _ _ hold).1
  have hcoherent : Coherent (placed s set way content marks s.memory) := by
    refine ⟨?_, ?_, ?_, hmarks⟩
    · intro set' hset' tag' way₁ way₂ hold₁ hold₂
      exact h.unique _ hset' _ _ _ (hholds _ _ _ hold₁).2 (hholds _ _ _ hold₂).2
    · intro set' hset' way' tag' hold
      rw [hways _ _ _ hold]
      exact h.clean _ hset' _ _ (hholds _ _ _ hold).2
    · intro set' hset' way' tag' hold
      exact h.aligned _ hset' _ _ (hholds _ _ _ hold).2
  refine ⟨hcoherent, ?_, fun set' _ way' tag' hold ↦ (hholds _ _ _ hold).2⟩
  funext x
  by_cases hheld : ∃ way', Holds (placed s set way content marks s.memory).cache
      (getSet x) way' (getTag x)
  · obtain ⟨way', hold⟩ := hheld
    rw [hcoherent.view_of_holds hold, hways _ _ _ hold,
      h.view_of_holds (hholds _ _ _ hold).2]
  · rw [view_of_not_holds fun way' hold ↦ hheld ⟨way', hold⟩]
    change s.memory x = _
    by_cases hold : Holds s.cache (getSet x) way (getTag x) ∧ getSet x = set
    · -- the dropped way held the line
      obtain ⟨hold, rfl⟩ := hold
      have hbyte := hsettled _ hold (x % 16) (Nat.mod_lt _ (by decide))
      rw [address_eq] at hbyte
      rw [h.view_of_holds hold, hbyte]
    · refine (view_of_not_holds fun way' hold' ↦ hheld ⟨way', ?_⟩).symm
      refine (holds_setWay_other ?_).mpr hold'
      rintro ⟨hgs, rfl⟩
      exact hold ⟨hold', hgs⟩

theorem Coherent.drop_written (h : Coherent s) (hset : set < cacheSetCount)
    (hold : Holds s.cache set way tag) (hinvalid : isValid content.flags = false)
    (hmarks : ∀ set < cacheSetCount, marks set < 255) :
    Drops s (placed s set way content marks (written s set way).memory) := by
  obtain ⟨hcoherent, hview, hsettled⟩ := h.writeBack hset hold
  have hdrop := hcoherent.drop hset hsettled hinvalid hmarks
  exact ⟨hdrop.coherent, hdrop.view_eq.trans hview, hdrop.holds⟩

/-- A way without dirty words is settled. -/
theorem Coherent.settled_of_clean (h : Coherent s) (hset : set < cacheSetCount)
    (hclean : (s.cache.ways set way).flags &&&
      (fDirty 0 ||| fDirty 1 ||| fDirty 2 ||| fDirty 3) = 0#8) : Settled s set way := by
  intro tag hold i hi
  have hword : i / 4 = 0 ∨ i / 4 = 1 ∨ i / 4 = 2 ∨ i / 4 = 3 := by omega
  have hnot : isDirty (s.cache.ways set way).flags (i / 4) = false := by
    simp only [BitVec.and_or_distrib_left, BitVec.or_eq_zero_iff] at hclean
    obtain ⟨⟨⟨h0, h1⟩, h2⟩, h3⟩ := hclean
    rw [isDirty, bne_eq_false_iff_eq]
    rcases hword with heq | heq | heq | heq <;> rw [heq] <;> assumption
  have hbyte := h.clean _ hset _ _ hold i hi hnot
  rwa [hold.2.2] at hbyte

theorem flushWay_spec (h : Coherent s) (hset : set < cacheSetCount) (hway : way < cacheWayCount) :
    Drops s (flushWay set s way) ∧ ∀ tag, ¬ Holds (flushWay set s way).cache set way tag := by
  refine ⟨?_, fun tag hold ↦ ?_⟩
  · unfold flushWay
    dsimp only
    split
    · rename_i hdirty
      exact h.drop_written hset ⟨hway, hdirty.1, rfl⟩ isValid_zero h.unmarked
    · rename_i hnot
      refine h.drop hset ?_ isValid_zero h.unmarked
      by_cases hvalid : isValid (s.cache.ways set way).flags = true
      · exact h.settled_of_clean hset (not_not.mp fun hd ↦ hnot ⟨hvalid, hd⟩)
      · exact fun tag hold ↦ absurd hold.2.1 hvalid
  · exact Bool.false_ne_true (isValid_zero.symm.trans (holds_setWay_self.mp hold).2.1)

theorem flushSet_spec (h : Coherent s) (hset : set < cacheSetCount) :
    Drops s (flushSet s set) ∧ ∀ way tag, ¬ Holds (flushSet s set).cache set way tag := by
  have hstart : Drops s
      { s with cache := { s.cache with
                          cWaySelect := Function.update s.cache.cWaySelect set 0 } } := by
    refine ⟨⟨h.unique, h.clean, h.aligned, fun set' hset' ↦ ?_⟩, rfl, fun _ _ _ _ hold ↦ hold⟩
    by_cases heq : set' = set
    · subst heq
      simp only [Function.update_self]
      decide
    · simp only [Function.update_of_ne heq]
      exact h.unmarked _ hset'
  -- after a prefix of the ways, those ways hold nothing
  have hfold : ∀ (ways : List ℕ) (s₁ : CacheState), Coherent s₁ → (∀ way ∈ ways, way < 8) →
      Drops s₁ (ways.foldl (flushWay set) s₁) ∧
        ∀ way ∈ ways, ∀ tag, ¬ Holds (ways.foldl (flushWay set) s₁).cache set way tag := by
    intro ways
    induction ways with
    | nil => exact fun s₁ h₁ _ ↦ ⟨.refl h₁, by simp⟩
    | cons way rest ih =>
      intro s₁ h₁ hlt
      obtain ⟨hdrop, hgone⟩ := flushWay_spec h₁ hset (hlt way (by simp))
      obtain ⟨hrest, hnone⟩ := ih _ hdrop.coherent fun w hw ↦ hlt w (by simp [hw])
      refine ⟨hdrop.trans hrest, fun w hw tag hold ↦ ?_⟩
      rcases List.mem_cons.mp hw with rfl | hw
      · exact hgone tag (hrest.holds _ hset _ _ hold)
      · exact hnone w hw tag hold
  obtain ⟨hdrop, hgone⟩ := hfold (List.range cacheWayCount) _ hstart.coherent
    fun way hway ↦ List.mem_range.mp hway
  exact ⟨hstart.trans hdrop, fun way tag hold ↦ hgone way (List.mem_range.mpr hold.1) tag hold⟩

theorem cacheFlushAll_spec (h : Coherent s) :
    Drops s (cacheFlushAll .dcache s) ∧ (cacheFlushAll .dcache s).memory = view s := by
  have hfold : ∀ (sets : List ℕ) (s₁ : CacheState), Coherent s₁ →
      (∀ set ∈ sets, set < cacheSetCount) → Drops s₁ (sets.foldl flushSet s₁) ∧
        ∀ set ∈ sets, ∀ way tag, ¬ Holds (sets.foldl flushSet s₁).cache set way tag := by
    intro sets
    induction sets with
    | nil => exact fun s₁ h₁ _ ↦ ⟨.refl h₁, by simp⟩
    | cons set rest ih =>
      intro s₁ h₁ hlt
      have hset := hlt set (by simp)
      obtain ⟨hdrop, hgone⟩ := flushSet_spec h₁ hset
      obtain ⟨hrest, hnone⟩ := ih _ hdrop.coherent fun w hw ↦ hlt w (by simp [hw])
      refine ⟨hdrop.trans hrest, fun set' hset' way tag hold ↦ ?_⟩
      rcases List.mem_cons.mp hset' with rfl | hset'
      · exact hgone way tag (hrest.holds _ hset _ _ hold)
      · exact hnone set' hset' way tag hold
  have hsets : cacheFlushAll .dcache s = (List.range cacheSetCount).foldl flushSet s := by
    simp only [cacheFlushAll, reduceCtorEq, if_false]
  rw [hsets]
  obtain ⟨hdrop, hgone⟩ := hfold (List.range cacheSetCount) s h
    fun set hset ↦ List.mem_range.mp hset
  refine ⟨hdrop, ?_⟩
  rw [← hdrop.view_eq]
  funext x
  exact (view_of_not_holds fun way ↦
    hgone _ (List.mem_range.mpr (getSet_lt x)) way _).symm

theorem flushLineWay_spec (h : Coherent s) (a : ℕ) (hway : way < cacheWayCount) :
    Drops s (flushLineWay a s way) := by
  unfold flushLineWay
  dsimp only
  split
  · rename_i hfound
    refine h.drop_written (getSet_lt a) ⟨hway, hfound.2, hfound.1⟩ isValid_zero fun set' hset' ↦ ?_
    by_cases heq : set' = getSet a
    · subst heq
      simp only [Function.update_self]
      exact lt_of_le_of_lt Nat.and_le_left (h.unmarked _ hset')
    · simp only [Function.update_of_ne heq]
      exact h.unmarked _ hset'
  · exact .refl h

theorem cacheFlushLine_spec (h : Coherent s) (a : ℕ) : Drops s (cacheFlushLine .dcache s a) := by
  have hfold : ∀ (ways : List ℕ) (s₁ : CacheState), Coherent s₁ → (∀ way ∈ ways, way < 8) →
      Drops s₁ (ways.foldl (flushLineWay a) s₁) := by
    intro ways
    induction ways with
    | nil => exact fun s₁ h₁ _ ↦ .refl h₁
    | cons way rest ih =>
      intro s₁ h₁ hlt
      have hdrop := flushLineWay_spec h₁ a (hlt way (by simp))
      exact hdrop.trans (ih _ hdrop.coherent fun w hw ↦ hlt w (by simp [hw]))
  exact hfold _ _ h fun way hway ↦ List.mem_range.mp hway

end Emu68.SoftCache
