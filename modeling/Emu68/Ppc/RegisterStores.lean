import Emu68.Ppc.RegisterCache
import Mathlib.Tactic.IntervalCases

/-!
The stores of the registers that were changed. They are collected by lane, sorted and emitted in
passes, so that two stores into one vector register are apart. Whatever the order, every lane that
was marked is stored once.
-/

set_option autoImplicit false
set_option relaxedAutoImplicit false

namespace Emu68.Ppc.RegisterCache

open A64

/-! ### The passes -/

theorem head_afterPass_perm (groups : List (List FlushItem)) :
    (groups.filterMap List.head? ++ (afterPass groups).flatten).Perm groups.flatten := by
  induction groups with
  | nil => exact List.Perm.refl _
  | cons items groups ih =>
    cases items with
    | nil => exact ih
    | cons item items =>
      refine List.Perm.cons item ?_
      refine (List.perm_append_comm_assoc _ items _).trans ?_
      exact ih.append_left items

/-- The passes store every item once. -/
theorem storePasses_perm (groups : List (List FlushItem)) :
    (storePasses groups).Perm groups.flatten := by
  induction groups using storePasses.induct with
  | case1 groups hempty =>
    rw [storePasses, dif_pos hempty]
    have hnil : groups.flatten = [] := by
      rw [List.flatten_eq_nil_iff]
      exact fun items hitems ↦ List.isEmpty_iff.mp (List.all_eq_true.mp hempty items hitems)
    rw [hnil]
  | case2 groups hempty ih =>
    rw [storePasses, dif_neg hempty]
    exact (ih.append_left _).trans (head_afterPass_perm groups)

/-- A group of four lanes at most has its place among the sorted ones. -/
theorem sortedByUsage_perm {groups : List (List FlushItem)}
    (h : ∀ items ∈ groups, items.length ≤ 4) :
    (sortedByUsage groups).flatten.Perm groups.flatten := by
  induction groups with
  | nil => exact List.Perm.refl _
  | cons items groups ih =>
    have hlength := h items List.mem_cons_self
    have hrest := ih fun items' hitems ↦ h items' (List.mem_cons_of_mem _ hitems)
    rw [List.perm_iff_count] at hrest ⊢
    intro item
    have hcount := hrest item
    rw [List.flatten_cons, List.count_append, ← hcount]
    unfold sortedByUsage
    simp only [List.flatMap_cons, List.flatMap_nil, List.append_nil, List.flatten_append,
      List.count_append, List.filter_cons, decide_eq_true_eq]
    by_cases hzero : items.length = 0
    · rw [List.length_eq_zero_iff.mp hzero]
      simp
    · obtain h4 | h3 | h2 | h1 : items.length = 4 ∨ items.length = 3 ∨ items.length = 2 ∨
          items.length = 1 := by omega
      all_goals simp [*]
      all_goals omega

/-- Every lane that is marked is stored once. -/
theorem purgeFlushStore_perm (store : FlushStore) :
    (purgeFlushStore store).Perm (((List.range 20).map store).filter fun item ↦ item.vn ≠ 0) := by
  have hsmall : ∀ items ∈ (List.range 5).map (laneItems store), items.length ≤ 4 := by
    intro items hitems
    obtain ⟨i, -, rfl⟩ := List.mem_map.mp hitems
    refine (List.length_filter_le _ _).trans ?_
    rw [List.length_map, List.length_range]
  refine (storePasses_perm _).trans ((sortedByUsage_perm hsmall).trans ?_)
  have hsplit : (List.range 20).map store =
      (List.range 5).flatMap fun i ↦ (List.range 4).map fun j ↦ store (4 * i + j) := rfl
  rw [hsplit, List.filter_flatMap]
  exact List.Perm.refl _

/-! ### The items of the nodes -/

def RegisterNode.item (rn : RegisterNode) : Option FlushItem :=
  if rn.dirty then (simdLane rn.regNum).map fun lane ↦ ⟨lane.1, lane.2, rn.arm⟩ else none

/-- The place of an item in `flush_store`. -/
def FlushItem.slot (item : FlushItem) : ℕ := item.pos + (item.vn - 22) * 4

theorem simdLane_range : ∀ reg : Gpr, reg ≠ FPSCRn → ∀ lane ∈ simdLane reg,
    22 ≤ lane.1 ∧ lane.1 ≤ 26 ∧ lane.2 < 4 := by
  decide

theorem simdLane_injective : ∀ reg reg' : Gpr, (simdLane reg).isSome = true →
    simdLane reg = simdLane reg' → reg = reg' := by
  decide

variable {rn rn' : RegisterNode} {item : FlushItem} {lru : List RegisterNode}
  {acc : FlushStore × List FlushItem}

theorem item_eq (h : rn.item = some item) :
    rn.dirty = true ∧ simdLane rn.regNum = some (item.vn, item.pos) ∧ item.arm = rn.arm := by
  unfold RegisterNode.item at h
  split_ifs at h with hdirty
  obtain ⟨lane, hlane, rfl⟩ := Option.map_eq_some_iff.mp h
  exact ⟨hdirty, hlane, rfl⟩

theorem item_vn_ne_zero (h : rn.item = some item) (hreg : rn.regNum ≠ FPSCRn) : item.vn ≠ 0 := by
  have := (simdLane_range _ hreg _ (item_eq h).2.1).1
  exact Nat.ne_of_gt (Nat.lt_of_lt_of_le (by decide) this)

theorem slot_lt (h : rn.item = some item) (hreg : rn.regNum ≠ FPSCRn) : item.slot < 20 := by
  obtain ⟨hlow, hhigh, hpos⟩ := simdLane_range _ hreg _ (item_eq h).2.1
  unfold FlushItem.slot
  omega

/-- Two registers with one place are the same. -/
theorem regNum_of_slot {item' : FlushItem} (h : rn.item = some item) (h' : rn'.item = some item')
    (hreg : rn.regNum ≠ FPSCRn) (hreg' : rn'.regNum ≠ FPSCRn) (hslot : item.slot = item'.slot) :
    rn.regNum = rn'.regNum := by
  obtain ⟨hlow, -, hpos⟩ := simdLane_range _ hreg _ (item_eq h).2.1
  obtain ⟨hlow', -, hpos'⟩ := simdLane_range _ hreg' _ (item_eq h').2.1
  have hlane := (item_eq h).2.1
  have hlane' := (item_eq h').2.1
  unfold FlushItem.slot at hslot
  have hvn : item.vn = item'.vn := by omega
  have hpos : item.pos = item'.pos := by omega
  refine simdLane_injective _ _ (hlane ▸ rfl) ?_
  rw [hlane, hlane', hvn, hpos]

namespace Context

theorem flushNode_none (h : rn.item = none) : flushNode acc rn = acc := by
  unfold RegisterNode.item at h
  unfold flushNode
  by_cases hdirty : rn.dirty = true
  · rw [if_pos hdirty] at h ⊢
    rw [Option.map_eq_none_iff.mp h]
  · rw [if_neg hdirty]

theorem flushNode_fpscr (h : rn.item = some item) (hreg : rn.regNum = FPSCRn) :
    flushNode acc rn = (acc.1, acc.2 ++ [item]) := by
  obtain ⟨hdirty, hlane, harm⟩ := item_eq h
  unfold flushNode
  rw [if_pos hdirty, hlane]
  dsimp only
  rw [if_pos hreg, ← harm]

theorem flushNode_mark (h : rn.item = some item) (hreg : rn.regNum ≠ FPSCRn) :
    flushNode acc rn = (Function.update acc.1 item.slot item, acc.2) := by
  obtain ⟨hdirty, hlane, harm⟩ := item_eq h
  unfold flushNode
  rw [if_pos hdirty, hlane]
  dsimp only
  rw [if_neg hreg, ← harm]
  rfl

/-- What is emitted at once. -/
theorem mem_flushNode_emitted : item ∈ (lru.foldl flushNode acc).2 ↔
    item ∈ acc.2 ∨ ∃ rn ∈ lru, rn.item = some item ∧ rn.regNum = FPSCRn := by
  induction lru generalizing acc with
  | nil => simp
  | cons rn lru ih =>
    rw [List.foldl_cons, ih, List.exists_mem_cons_iff]
    cases hitem : rn.item with
    | none => simp [flushNode_none hitem]
    | some item' =>
      by_cases hreg : rn.regNum = FPSCRn
      · rw [flushNode_fpscr hitem hreg]
        simp only [List.mem_append, List.mem_singleton, hreg, and_true, Option.some.injEq, or_assoc]
        rw [eq_comm]
      · rw [flushNode_mark hitem hreg]
        simp [hreg]

/-- What is marked comes from a node. -/
theorem flushNode_origin (lru : List RegisterNode) (acc : FlushStore × List FlushItem) (k : ℕ) :
    (lru.foldl flushNode acc).1 k = acc.1 k ∨
    ∃ rn ∈ lru, rn.item = some ((lru.foldl flushNode acc).1 k) ∧ rn.regNum ≠ FPSCRn := by
  induction lru generalizing acc with
  | nil => exact .inl rfl
  | cons rn lru ih =>
    rw [List.foldl_cons]
    rcases ih (flushNode acc rn) with hkept | ⟨rn', hmem, hnode⟩
    · rw [hkept]
      cases hitem : rn.item with
      | none =>
        rw [flushNode_none hitem]
        exact .inl rfl
      | some item' =>
        by_cases hreg : rn.regNum = FPSCRn
        · rw [flushNode_fpscr hitem hreg]
          exact .inl rfl
        · rw [flushNode_mark hitem hreg]
          by_cases hslot : k = item'.slot
          · refine .inr ⟨rn, List.mem_cons_self, hitem.trans (congrArg some ?_), hreg⟩
            rw [hslot]
            exact (Function.update_self item'.slot item' acc.1).symm
          · exact .inl (Function.update_of_ne hslot _ _)
    · exact .inr ⟨rn', List.mem_cons_of_mem _ hmem, hnode⟩

/-- The mark of a register stays, as no other register has its place. -/
theorem flushNode_keeps {rn : RegisterNode} (hitem : rn.item = some item)
    (hreg : rn.regNum ≠ FPSCRn) (hmark : acc.1 item.slot = item)
    (hother : rn.regNum ∉ lru.map RegisterNode.regNum) :
    (lru.foldl flushNode acc).1 item.slot = item := by
  induction lru generalizing acc with
  | nil => exact hmark
  | cons rn' lru ih =>
    rw [List.map_cons, List.mem_cons, not_or] at hother
    refine ih ?_ hother.2
    cases hitem' : rn'.item with
    | none => rwa [flushNode_none hitem']
    | some item' =>
      by_cases hreg' : rn'.regNum = FPSCRn
      · rwa [flushNode_fpscr hitem' hreg']
      · rw [flushNode_mark hitem' hreg']
        have hslot : item.slot ≠ item'.slot :=
          fun h ↦ hother.1 (regNum_of_slot hitem hitem' hreg hreg' h)
        exact (Function.update_of_ne hslot _ _).trans hmark

theorem flushNode_marks (hnodup : (lru.map RegisterNode.regNum).Nodup) (hmem : rn ∈ lru)
    (hitem : rn.item = some item) (hreg : rn.regNum ≠ FPSCRn) :
    (lru.foldl flushNode acc).1 item.slot = item := by
  induction lru generalizing acc with
  | nil => exact absurd hmem List.not_mem_nil
  | cons rn' lru ih =>
    rw [List.map_cons, List.nodup_cons] at hnodup
    rcases List.mem_cons.mp hmem with rfl | hrest
    · rw [List.foldl_cons]
      refine flushNode_keeps hitem hreg ?_ hnodup.1
      rw [flushNode_mark hitem hreg]
      exact Function.update_self ..
    · exact ih hnodup.2 hrest

/-- The items that are stored are those of the nodes. -/
theorem mem_dirtyItems (hnodup : (lru.map RegisterNode.regNum).Nodup) :
    item ∈ dirtyItems lru ↔ ∃ rn ∈ lru, rn.item = some item := by
  unfold dirtyItems
  rw [List.mem_append, mem_flushNode_emitted, (purgeFlushStore_perm _).mem_iff, List.mem_filter,
    List.mem_map]
  constructor
  · rintro ((hnil | ⟨rn, hmem, hitem, -⟩) | ⟨⟨k, -, hk⟩, hused⟩)
    · exact absurd hnil List.not_mem_nil
    · exact ⟨rn, hmem, hitem⟩
    · rcases flushNode_origin lru (FlushStore.cleared, []) k with
        hkept | ⟨rn, hmem, hitem, -⟩
      · rw [← hk, hkept] at hused
        exact absurd rfl (of_decide_eq_true hused)
      · exact ⟨rn, hmem, hitem.trans (congrArg some hk)⟩
  · rintro ⟨rn, hmem, hitem⟩
    by_cases hreg : rn.regNum = FPSCRn
    · exact .inl (.inr ⟨rn, hmem, hitem, hreg⟩)
    · refine .inr ⟨⟨item.slot, List.mem_range.mpr (slot_lt hitem hreg), ?_⟩, ?_⟩
      · exact flushNode_marks hnodup hmem hitem hreg
      · exact decide_eq_true (item_vn_ne_zero hitem hreg)

end Context

/-! ### Running the stores -/

variable {items : List FlushItem} {s : Host} {lane : ℕ × ℕ}

theorem exec_items (items : List FlushItem) (s : Host) :
    ((Host.exec (items.map FlushItem.move) s).regs = s.regs) ∧
      (Host.exec (items.map FlushItem.move) s).context = s.context := by
  induction items generalizing s with
  | nil => exact ⟨rfl, rfl⟩
  | cons item items ih => exact ih (s.step item.move)

theorem exec_items_other (h : ∀ item ∈ items, (item.vn, item.pos) ≠ lane) :
    (Host.exec (items.map FlushItem.move) s).simd lane = s.simd lane := by
  induction items generalizing s with
  | nil => rfl
  | cons item items ih =>
    refine (ih fun item' hitem ↦ h item' (List.mem_cons_of_mem _ hitem)).trans ?_
    exact Function.update_of_ne (h item List.mem_cons_self).symm _ _

theorem exec_items_mem {arm : Reg} (hmem : ∃ item ∈ items, (item.vn, item.pos) = lane)
    (hsame : ∀ item ∈ items, (item.vn, item.pos) = lane → item.arm = arm) :
    (Host.exec (items.map FlushItem.move) s).simd lane = (s.regs arm).setWidth 32 := by
  induction items generalizing s with
  | nil => exact absurd hmem (by simp)
  | cons item items ih =>
    by_cases hlater : ∃ item ∈ items, (item.vn, item.pos) = lane
    · exact ih hlater fun item' hitem ↦ hsame item' (List.mem_cons_of_mem _ hitem)
    · obtain ⟨item', hitem', hlane⟩ := hmem
      rcases List.mem_cons.mp hitem' with rfl | hrest
      · refine (exec_items_other fun item hitem h ↦ hlater ⟨item, hitem, h⟩).trans ?_
        rw [← hsame item' List.mem_cons_self hlane, ← hlane]
        exact Function.update_self ..
      · exact absurd ⟨item', hrest, hlane⟩ hlater

namespace Context

variable {c : Context}

/-- The lane of a changed register has its value. -/
theorem storeDirty_lane (hnodup : (c.gprLru.map RegisterNode.regNum).Nodup) (hmem : rn ∈ c.gprLru)
    (hdirty : rn.dirty = true) (hlane : simdLane rn.regNum = some lane) :
    (s.exec c.storeDirtyGPRs).simd lane = (s.regs rn.arm).setWidth 32 := by
  have hitem : rn.item = some ⟨lane.1, lane.2, rn.arm⟩ := by
    unfold RegisterNode.item
    rw [if_pos hdirty, hlane]
    rfl
  refine exec_items_mem ⟨_, (mem_dirtyItems hnodup).mpr ⟨rn, hmem, hitem⟩, rfl⟩ ?_
  intro item hitem' heq
  obtain ⟨rn', hmem', hnode⟩ := (mem_dirtyItems hnodup).mp hitem'
  obtain ⟨-, hlane', harm⟩ := item_eq hnode
  rw [heq, ← hlane] at hlane'
  have hreg := simdLane_injective _ _ (by rw [hlane', hlane]; rfl) hlane'
  rw [harm, List.inj_on_of_nodup_map hnodup hmem' hmem hreg]

/-- The other lanes are left alone. -/
theorem storeDirty_other (hnodup : (c.gprLru.map RegisterNode.regNum).Nodup)
    (h : ∀ rn ∈ c.gprLru, rn.dirty = true → simdLane rn.regNum ≠ some lane) :
    (s.exec c.storeDirtyGPRs).simd lane = s.simd lane := by
  refine exec_items_other fun item hitem heq ↦ ?_
  obtain ⟨rn, hmem, hnode⟩ := (mem_dirtyItems hnodup).mp hitem
  obtain ⟨hdirty, hlane, -⟩ := item_eq hnode
  exact h rn hmem hdirty (hlane.trans (congrArg some heq))

end Context

end Emu68.Ppc.RegisterCache
