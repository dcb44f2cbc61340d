import Emu68.Jit.ExecutionLoop
import Mathlib.Data.Fintype.Card

/-!
What the two lists of the translation cache say, and what each list operation does to it.
`Indexed s order loose bucket` reads the state abstractly: the LRU list holds the units `order`
from most to least recently used, each bucket `hash` holds `bucket hash`, and `loose` are the
units that are allocated but at this point in no LRU list (none of them between calls). Each lemma
gives the abstract effect of one step of the source, together with the fact that the step does not
read through a null pointer.
-/

set_option autoImplicit false
set_option relaxedAutoImplicit false

namespace Emu68.Jit

open Lib Exec

/-- The state's lists, allocated blocks and counter agree with an abstract index. -/
structure Indexed (s : JitState) (order loose : List UnitAddr) (bucket : Hash → List UnitAddr) :
    Prop where
  order_linked : Linked s.links lru (order.map .lruNode)
  bucket_linked : ∀ hash, Linked s.links (icache hash) ((bucket hash).map .hashNode)
  nodup : (order ++ loose).Nodup
  allocated : ∀ u, (s.unit u).isSome ↔ u ∈ order ++ loose
  mem_bucket : ∀ hash u, u ∈ bucket hash ↔
    ∃ t, s.unit u = some t ∧ bucketOf t.mtM68kAddress = hash
  count : s.jitUnitCount.toNat = (order ++ loose).length

variable {s : JitState} {order loose before after : List UnitAddr} {bucket : Hash → List UnitAddr}
  {u : UnitAddr} {t : M68KTranslationUnit}

theorem Indexed.length_le (h : Indexed s order loose bucket) :
    (order ++ loose).length ≤ jitGranules := by
  simpa using h.nodup.length_le_card

/-- Only the lists, the allocated blocks and the counter matter. -/
theorem Indexed.congr {s' : JitState} (h : Indexed s order loose bucket)
    (hlinks : s'.links = s.links) (hunit : s'.unit = s.unit)
    (hcount : s'.jitUnitCount = s.jitUnitCount) : Indexed s' order loose bucket where
  order_linked := hlinks ▸ h.order_linked
  bucket_linked := hlinks ▸ h.bucket_linked
  nodup := h.nodup
  allocated := hunit ▸ h.allocated
  mem_bucket := hunit ▸ h.mem_bucket
  count := hcount ▸ h.count

theorem Indexed.allocated_of_some (h : Indexed s order loose bucket) (hu : s.unit u = some t) :
    u ∈ order ++ loose :=
  (h.allocated u).mp (by rw [hu]; rfl)

/-! ### Frames -/

/-- Writes to links of the LRU list leave every bucket alone. -/
theorem bucket_frame {links links' : Links NodeAddr} {nodes : List NodeAddr}
    (hframe : FrameOutside links links' nodes)
    (hnodes : ∀ n ∈ nodes, n = .lruHead ∨ n = .lruTail ∨ ∃ u, n = .lruNode u) {hash : Hash}
    {units : List UnitAddr} (h : Linked links (icache hash) (units.map .hashNode)) :
    Linked links' (icache hash) (units.map .hashNode) := by
  refine h.frame hframe fun n hn hmem ↦ ?_
  simp only [icache, List.mem_cons, List.mem_append, List.mem_map, List.not_mem_nil,
    or_false] at hn
  rcases hnodes n hmem with rfl | rfl | ⟨u, rfl⟩ <;> simp at hn

/-- Writes to links of one bucket leave the LRU list alone. -/
theorem order_frame {links links' : Links NodeAddr} {nodes : List NodeAddr}
    (hframe : FrameOutside links links' nodes)
    (hnodes : ∀ n ∈ nodes, n ≠ .lruHead ∧ n ≠ .lruTail ∧ ∀ u, n ≠ .lruNode u)
    (h : Linked links lru (order.map .lruNode)) : Linked links' lru (order.map .lruNode) := by
  refine h.frame hframe fun n hn hmem ↦ ?_
  obtain ⟨hhead, htail, hnode⟩ := hnodes n hmem
  simp only [lru, List.mem_cons, List.mem_append, List.mem_map, List.not_mem_nil, or_false] at hn
  rcases hn with rfl | ⟨u, -, rfl⟩ | rfl
  · exact hhead rfl
  · exact hnode u rfl
  · exact htail rfl

/-- Writes to links of one bucket leave the other buckets alone. -/
theorem bucket_frame_other {links links' : Links NodeAddr} {hash other : Hash}
    {touched units : List UnitAddr} (hne : other ≠ hash)
    (hframe : FrameOutside links links'
      ((icache hash).lhHead :: (touched.map .hashNode ++ [(icache hash).lhTail])))
    (hdisjoint : ∀ u ∈ units, u ∉ touched)
    (h : Linked links (icache other) (units.map .hashNode)) :
    Linked links' (icache other) (units.map .hashNode) := by
  refine h.frame hframe fun n hn hmem ↦ ?_
  simp only [icache, List.mem_cons, List.mem_append, List.mem_map, List.not_mem_nil,
    or_false] at hn hmem
  rcases hn with rfl | ⟨u, hu, rfl⟩ | rfl
  · simp [hne] at hmem
  · simp only [NodeAddr.hashNode.injEq, exists_eq_right, reduceCtorEq, false_or, or_false] at hmem
    exact hdisjoint u hu hmem
  · simp [hne] at hmem

theorem lruNodes_of_order (units : List UnitAddr) :
    ∀ n ∈ lru.lhHead :: (units.map NodeAddr.lruNode ++ [lru.lhTail]),
      n = .lruHead ∨ n = .lruTail ∨ ∃ u, n = .lruNode u := by
  intro n hn
  simp only [lru, List.mem_cons, List.mem_append, List.mem_map, List.not_mem_nil, or_false] at hn
  rcases hn with rfl | ⟨u, -, rfl⟩ | rfl
  · exact Or.inl rfl
  · exact Or.inr (Or.inr ⟨u, rfl⟩)
  · exact Or.inr (Or.inl rfl)

theorem not_lruNodes_of_bucket (hash : Hash) (units : List UnitAddr) :
    ∀ n ∈ (icache hash).lhHead :: (units.map NodeAddr.hashNode ++ [(icache hash).lhTail]),
      n ≠ .lruHead ∧ n ≠ .lruTail ∧ ∀ u, n ≠ .lruNode u := by
  intro n hn
  simp only [icache, List.mem_cons, List.mem_append, List.mem_map, List.not_mem_nil,
    or_false] at hn
  rcases hn with rfl | ⟨u, -, rfl⟩ | rfl <;> simp

/-- A unit outside the LRU list has a node outside it. -/
theorem lruNode_notMem {units : List UnitAddr} (hu : u ∉ units) :
    NodeAddr.lruNode u ∉ lru.lhHead :: (units.map NodeAddr.lruNode ++ [lru.lhTail]) := by
  simpa [lru] using hu

theorem hashNode_notMem {units : List UnitAddr} {hash : Hash} (hu : u ∉ units) :
    NodeAddr.hashNode u ∉
      (icache hash).lhHead :: (units.map NodeAddr.hashNode ++ [(icache hash).lhTail]) := by
  simpa [icache] using hu

/-! ### The LRU list -/

/-- Moving a unit between the LRU list and the loose units keeps the units. -/
theorem perm_loosen (before after loose : List UnitAddr) (u : UnitAddr) :
    (before ++ u :: after ++ loose).Perm (before ++ after ++ u :: loose) := by
  rw [List.perm_iff_count]
  intro v
  simp only [List.count_append, List.count_cons]
  omega

/-- `REMOVE(&unit->mt_LRUNode)` makes a unit loose. -/
theorem Indexed.removeLRU (h : Indexed s (before ++ u :: after) loose bucket) :
    ∃ links', remove s.links (.lruNode u) = some links' ∧
      Indexed { s with links := links' } (before ++ after) (u :: loose) bucket ∧
      remove links' (.lruNode u) = some links' := by
  have horder := h.order_linked
  rw [List.map_append, List.map_cons] at horder
  obtain ⟨links', hremove, hlinked, hframe, hagain⟩ := remove_linked horder
  rw [← List.map_append] at hlinked hframe
  have hperm := perm_loosen before after loose u
  refine ⟨links', hremove, ?_, hagain⟩
  exact
    { order_linked := hlinked
      bucket_linked := fun hash ↦
        bucket_frame hframe (lruNodes_of_order _) (h.bucket_linked hash)
      nodup := hperm.nodup_iff.mp h.nodup
      allocated := fun v ↦ (h.allocated v).trans hperm.mem_iff
      mem_bucket := h.mem_bucket
      count := h.count.trans hperm.length_eq }

/-- `REMTAIL(&LRU)` makes the least recently used unit loose. -/
theorem Indexed.remTailLRU (h : Indexed s (before ++ [u]) loose bucket) :
    ∃ links', remTail s.links lru = some (links', some (.lruNode u)) ∧
      Indexed { s with links := links' } before (u :: loose) bucket ∧
      remove links' (.lruNode u) = some links' := by
  have horder := h.order_linked
  rw [List.map_append, List.map_cons, List.map_nil] at horder
  obtain ⟨links', hremove, hlinked, hframe, hagain⟩ := remTail_concat horder
  have hperm := perm_loosen before [] loose u
  rw [List.append_nil] at hperm
  refine ⟨links', hremove, ?_, hagain⟩
  exact
    { order_linked := hlinked
      bucket_linked := fun hash ↦
        bucket_frame hframe (lruNodes_of_order _) (h.bucket_linked hash)
      nodup := hperm.nodup_iff.mp h.nodup
      allocated := fun v ↦ (h.allocated v).trans hperm.mem_iff
      mem_bucket := h.mem_bucket
      count := h.count.trans hperm.length_eq }

/-- `REMTAIL(&LRU)` finds nothing in an empty list. -/
theorem Indexed.remTailLRU_nil (h : Indexed s [] loose bucket) :
    remTail s.links lru = some (s.links, none) :=
  remTail_nil h.order_linked

theorem Indexed.notMem_of_loose (h : Indexed s order (u :: loose) bucket) : u ∉ order := by
  have hnodup := h.nodup
  rw [List.nodup_middle, List.nodup_cons] at hnodup
  exact fun hu ↦ hnodup.1 (List.mem_append_left _ hu)

/-- `ADDHEAD(&LRU, &unit->mt_LRUNode)` puts a loose unit in front. -/
theorem Indexed.addHeadLRU (h : Indexed s order (u :: loose) bucket) :
    ∃ links', addHead s.links lru (.lruNode u) = some links' ∧
      Indexed { s with links := links' } (u :: order) loose bucket := by
  obtain ⟨links', hadd, hlinked, hframe⟩ :=
    addHead_linked h.order_linked (lruNode_notMem h.notMem_of_loose)
  have hperm : (order ++ u :: loose).Perm (u :: order ++ loose) := List.perm_middle
  refine ⟨links', hadd, ?_⟩
  exact
    { order_linked := hlinked
      bucket_linked := fun hash ↦
        bucket_frame hframe (lruNodes_of_order (u :: order)) (h.bucket_linked hash)
      nodup := hperm.nodup_iff.mp h.nodup
      allocated := fun v ↦ (h.allocated v).trans hperm.mem_iff
      mem_bucket := h.mem_bucket
      count := h.count.trans hperm.length_eq }

/-- `ADDTAIL(&LRU, &unit->mt_LRUNode)` puts a loose unit at the end. -/
theorem Indexed.addTailLRU (h : Indexed s order (u :: loose) bucket) :
    ∃ links', addTail s.links lru (.lruNode u) = some links' ∧
      Indexed { s with links := links' } (order ++ [u]) loose bucket := by
  obtain ⟨links', hadd, hlinked, hframe⟩ :=
    addTail_linked h.order_linked (lruNode_notMem h.notMem_of_loose)
  have hperm : (order ++ u :: loose).Perm (order ++ [u] ++ loose) := by simp
  have hmap : order.map NodeAddr.lruNode ++ [.lruNode u] = (order ++ [u]).map .lruNode := by simp
  rw [hmap] at hlinked hframe
  refine ⟨links', hadd, ?_⟩
  exact
    { order_linked := hlinked
      bucket_linked := fun hash ↦
        bucket_frame hframe (lruNodes_of_order (order ++ [u])) (h.bucket_linked hash)
      nodup := hperm.nodup_iff.mp h.nodup
      allocated := fun v ↦ (h.allocated v).trans hperm.mem_iff
      mem_bucket := h.mem_bucket
      count := h.count.trans hperm.length_eq }

/-! ### The buckets -/

/-- Units in different buckets are different. -/
theorem Indexed.bucket_disjoint (h : Indexed s order loose bucket) {hash other : Hash}
    (hne : other ≠ hash) : ∀ v ∈ bucket other, v ∉ bucket hash := by
  intro v hv hv'
  obtain ⟨t, ht, hhash⟩ := (h.mem_bucket other v).mp hv
  obtain ⟨t', ht', hhash'⟩ := (h.mem_bucket hash v).mp hv'
  rw [ht] at ht'
  cases ht'
  exact hne (hhash.symm.trans hhash')

/-- `REMOVE` and `ADDHEAD` of a hash node move the unit to the front of its bucket. -/
theorem Indexed.moveToBucketHead (h : Indexed s order loose bucket) (hu : s.unit u = some t) :
    ∃ links' bucket', moveToBucketHead s u (bucketOf t.mtM68kAddress) =
        some { s with links := links' } ∧
      Indexed { s with links := links' } order loose bucket' := by
  have hmem : u ∈ bucket (bucketOf t.mtM68kAddress) := (h.mem_bucket _ u).mpr ⟨t, hu, rfl⟩
  obtain ⟨cs, ds, hsplit⟩ := List.append_of_mem hmem
  have hbucket := h.bucket_linked (bucketOf t.mtM68kAddress)
  rw [hsplit, List.map_append, List.map_cons] at hbucket
  obtain ⟨links₁, hremove, hlinked₁, hframe₁, -⟩ := remove_linked hbucket
  rw [← List.map_append] at hlinked₁ hframe₁
  have hnodup : u ∉ cs ++ ds := by
    have hall := hbucket.nodup
    rw [← List.map_cons, ← List.map_append] at hall
    have hunits : (cs ++ u :: ds).Nodup :=
      ((List.nodup_append.mp (List.nodup_cons.mp hall).2).1).of_map _
    rw [List.nodup_middle, List.nodup_cons] at hunits
    exact hunits.1
  obtain ⟨links₂, hadd, hlinked₂, hframe₂⟩ := addHead_linked hlinked₁ (hashNode_notMem hnodup)
  rw [← List.map_cons] at hlinked₂ hframe₂
  refine ⟨links₂, Function.update bucket (bucketOf t.mtM68kAddress) (u :: (cs ++ ds)), ?_, ?_⟩
  · simp only [Jit.moveToBucketHead, hremove, Option.bind_eq_bind, Option.bind_some, hadd]
  · exact
      { order_linked := order_frame hframe₂ (not_lruNodes_of_bucket _ _)
          (order_frame hframe₁ (not_lruNodes_of_bucket _ _) h.order_linked)
        bucket_linked := by
          intro hash
          by_cases hhash : hash = bucketOf t.mtM68kAddress
          · subst hhash
            rw [Function.update_self]
            exact hlinked₂
          · rw [Function.update_of_ne hhash]
            have hdisjoint := h.bucket_disjoint hhash
            rw [hsplit] at hdisjoint
            refine bucket_frame_other hhash hframe₂ (fun v hv hmem ↦ hdisjoint v hv ?_)
              (bucket_frame_other hhash hframe₁ (fun v hv hmem ↦ hdisjoint v hv ?_)
                (h.bucket_linked hash))
            · simp only [List.mem_cons, List.mem_append] at hmem ⊢
              tauto
            · simp only [List.mem_cons, List.mem_append] at hmem ⊢
              tauto
        nodup := h.nodup
        allocated := h.allocated
        mem_bucket := by
          intro hash v
          rw [← h.mem_bucket hash v]
          by_cases hhash : hash = bucketOf t.mtM68kAddress
          · subst hhash
            rw [Function.update_self, hsplit]
            simp only [List.mem_cons, List.mem_append]
            tauto
          · rw [Function.update_of_ne hhash]
        count := h.count }

/-! ### The blocks -/

theorem toNat_sub_one {c : UInt32} (hc : c.toNat ≠ 0) : (c - 1).toNat = c.toNat - 1 := by
  have hle : (1 : UInt32) ≤ c := by
    rw [UInt32.le_iff_toNat_le]
    exact Nat.one_le_iff_ne_zero.mpr hc
  rw [UInt32.toNat_sub_of_le _ _ hle]
  rfl

/-- `REMOVE(&unit->mt_HashNode)`, `tlsf_free` and the counter give up a loose unit. -/
theorem Indexed.release (h : Indexed s order (u :: loose) bucket) :
    ∃ links' bucket', remove s.links (.hashNode u) = some links' ∧
      tlsfFree { s with links := links' } u =
        some { s with links := links', unit := Function.update s.unit u none } ∧
      Indexed { s with links := links', unit := Function.update s.unit u none,
                       jitUnitCount := s.jitUnitCount - 1 } order loose bucket' := by
  obtain ⟨t, hu⟩ : ∃ t, s.unit u = some t :=
    Option.isSome_iff_exists.mp ((h.allocated u).mpr (by simp))
  have hmem : u ∈ bucket (bucketOf t.mtM68kAddress) := (h.mem_bucket _ u).mpr ⟨t, hu, rfl⟩
  obtain ⟨cs, ds, hsplit⟩ := List.append_of_mem hmem
  have hbucket := h.bucket_linked (bucketOf t.mtM68kAddress)
  rw [hsplit, List.map_append, List.map_cons] at hbucket
  obtain ⟨links', hremove, hlinked, hframe, -⟩ := remove_linked hbucket
  rw [← List.map_append] at hlinked hframe
  have hnodup := h.nodup
  rw [List.nodup_middle, List.nodup_cons] at hnodup
  have hunits : u ∉ cs ++ ds := by
    have hall := hbucket.nodup
    rw [← List.map_cons, ← List.map_append] at hall
    have hcds : (cs ++ u :: ds).Nodup :=
      ((List.nodup_append.mp (List.nodup_cons.mp hall).2).1).of_map _
    rw [List.nodup_middle, List.nodup_cons] at hcds
    exact hcds.1
  refine ⟨links', Function.update bucket (bucketOf t.mtM68kAddress) (cs ++ ds), hremove, ?_, ?_⟩
  · simp [tlsfFree, hu]
  · exact
      { order_linked := order_frame hframe (not_lruNodes_of_bucket _ _) h.order_linked
        bucket_linked := by
          intro hash
          by_cases hhash : hash = bucketOf t.mtM68kAddress
          · subst hhash
            rw [Function.update_self]
            exact hlinked
          · rw [Function.update_of_ne hhash]
            have hdisjoint := h.bucket_disjoint hhash
            rw [hsplit] at hdisjoint
            refine bucket_frame_other hhash hframe (fun v hv hmem ↦ hdisjoint v hv ?_)
              (h.bucket_linked hash)
            simp only [List.mem_cons, List.mem_append] at hmem ⊢
            tauto
        nodup := hnodup.2
        allocated := by
          intro v
          change (Function.update s.unit u none v).isSome = true ↔ _
          by_cases hv : v = u
          · subst v
            simpa using hnodup.1
          · rw [Function.update_of_ne hv, h.allocated v]
            simp [hv]
        mem_bucket := by
          intro hash v
          change _ ↔ ∃ t', Function.update s.unit u none v = some t' ∧ _
          by_cases hv : v = u
          · subst v
            simp only [Function.update_self, reduceCtorEq, false_and, exists_false, iff_false]
            by_cases hhash : hash = bucketOf t.mtM68kAddress
            · subst hhash
              rw [Function.update_self]
              exact hunits
            · rw [Function.update_of_ne hhash]
              exact fun hin ↦ h.bucket_disjoint hhash u hin hmem
          · rw [Function.update_of_ne hv, ← h.mem_bucket hash v]
            by_cases hhash : hash = bucketOf t.mtM68kAddress
            · subst hhash
              rw [Function.update_self, hsplit]
              simp [hv]
            · rw [Function.update_of_ne hhash]
        count := by
          have hcount := h.count
          have hlength : (order ++ u :: loose).length = (order ++ loose).length + 1 := by
            simp [Nat.add_assoc]
          change (s.jitUnitCount - 1).toNat = _
          rw [toNat_sub_one (by omega)]
          omega }

/-- Writing a unit's fields, its address apart, keeps the index. -/
theorem Indexed.writeUnit (h : Indexed s order loose bucket) (hu : s.unit u = some t)
    {t' : M68KTranslationUnit} (haddress : t'.mtM68kAddress = t.mtM68kAddress) :
    Indexed { s with unit := Function.update s.unit u (some t') } order loose bucket where
  order_linked := h.order_linked
  bucket_linked := h.bucket_linked
  nodup := h.nodup
  allocated := by
    intro v
    change (Function.update s.unit u (some t') v).isSome = true ↔ _
    by_cases hv : v = u
    · subst v
      simpa [hu] using h.allocated u
    · rw [Function.update_of_ne hv]
      exact h.allocated v
  mem_bucket := by
    intro hash v
    change _ ↔ ∃ t₁, Function.update s.unit u (some t') v = some t₁ ∧ _
    by_cases hv : v = u
    · subst v
      rw [h.mem_bucket, Function.update_self]
      simp [hu, haddress]
    · rw [Function.update_of_ne hv]
      exact h.mem_bucket hash v
  count := h.count

/-- Linking a fresh block as a unit: both `ADDHEAD`s, its fields and the counter. -/
theorem Indexed.addUnit (h : Indexed s order [] bucket) (hu : s.unit u = none)
    (t : M68KTranslationUnit) (unitSize : UnitAddr → ℕ) :
    ∃ links₁ links₂ bucket', addHead s.links lru (.lruNode u) = some links₁ ∧
      addHead links₁ (icache (bucketOf t.mtM68kAddress)) (.hashNode u) = some links₂ ∧
      Indexed { s with links := links₂, unit := Function.update s.unit u (some t),
                       unitSize := unitSize, jitUnitCount := s.jitUnitCount + 1 }
        (u :: order) [] bucket' := by
  have hfresh : u ∉ order := by
    intro hin
    have hsome := (h.allocated u).mpr (by simpa using hin)
    simp [hu] at hsome
  have hbucket : ∀ hash, u ∉ bucket hash := by
    intro hash hin
    obtain ⟨t', ht', -⟩ := (h.mem_bucket hash u).mp hin
    simp [hu] at ht'
  obtain ⟨links₁, hadd₁, hlinked₁, hframe₁⟩ :=
    addHead_linked h.order_linked (lruNode_notMem hfresh)
  rw [← List.map_cons] at hlinked₁ hframe₁
  have hbuckets : ∀ hash, Linked links₁ (icache hash) ((bucket hash).map .hashNode) :=
    fun hash ↦ bucket_frame hframe₁ (lruNodes_of_order _) (h.bucket_linked hash)
  obtain ⟨links₂, hadd₂, hlinked₂, hframe₂⟩ :=
    addHead_linked (hbuckets (bucketOf t.mtM68kAddress)) (hashNode_notMem (hbucket _))
  rw [← List.map_cons] at hlinked₂ hframe₂
  have hlength : order.length < jitGranules := by
    have hnodup : (u :: order).Nodup := List.nodup_cons.mpr ⟨hfresh, by simpa using h.nodup⟩
    have hle := hnodup.length_le_card
    rwa [List.length_cons, Fintype.card_fin] at hle
  refine ⟨links₁, links₂, Function.update bucket (bucketOf t.mtM68kAddress)
    (u :: bucket (bucketOf t.mtM68kAddress)), hadd₁, hadd₂, ?_⟩
  exact
    { order_linked := order_frame hframe₂ (not_lruNodes_of_bucket _ _) hlinked₁
      bucket_linked := by
        intro hash
        by_cases hhash : hash = bucketOf t.mtM68kAddress
        · subst hhash
          rw [Function.update_self]
          exact hlinked₂
        · rw [Function.update_of_ne hhash]
          refine bucket_frame_other hhash hframe₂ (fun v hv hmem ↦ ?_) (hbuckets hash)
          rcases List.mem_cons.mp hmem with rfl | hmem
          · exact hbucket hash hv
          · exact h.bucket_disjoint hhash v hv hmem
      nodup := by
        rw [List.append_nil, List.nodup_cons]
        exact ⟨hfresh, by simpa using h.nodup⟩
      allocated := by
        intro v
        change (Function.update s.unit u (some t) v).isSome = true ↔ _
        by_cases hv : v = u
        · subst v
          simp
        · rw [Function.update_of_ne hv, h.allocated v]
          simp [hv]
      mem_bucket := by
        intro hash v
        change _ ↔ ∃ t₁, Function.update s.unit u (some t) v = some t₁ ∧ _
        by_cases hv : v = u
        · subst v
          rw [Function.update_self]
          by_cases hhash : hash = bucketOf t.mtM68kAddress
          · subst hhash
            simp
          · rw [Function.update_of_ne hhash]
            simp [hbucket hash, Ne.symm hhash]
        · rw [Function.update_of_ne hv, ← h.mem_bucket hash v]
          by_cases hhash : hash = bucketOf t.mtM68kAddress
          · subst hhash
            simp [hv]
          · rw [Function.update_of_ne hhash]
      count := by
        have hcount := h.count
        simp only [List.append_nil] at hcount
        change (s.jitUnitCount + 1).toNat = _
        rw [UInt32.toNat_add, hcount, List.append_nil, List.length_cons]
        refine Nat.mod_eq_of_lt ?_
        have hone : (1 : UInt32).toNat = 1 := rfl
        simp only [jitGranules] at hlength
        omega }

end Emu68.Jit
