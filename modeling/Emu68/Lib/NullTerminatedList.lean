import Mathlib.Data.List.Chain
import Mathlib.Data.List.Nodup

/-!
Doubly linked lists threaded through their nodes, that end in null on both sides and have no
sentinels. A list is found by a pointer to its first node, `nodes.headD null`. The lemmas give the
effect of putting a node in front and of taking out any node.
-/

set_option autoImplicit false
set_option relaxedAutoImplicit false

namespace Emu68.Lib

variable {N : Type*} {null b : N} {next prev next' prev' : N → N} {nodes before after : List N}

/-- `x` comes before `y`; null has no links. -/
def Follows (null : N) (next prev : N → N) (x y : N) : Prop :=
  (x ≠ null → next x = y) ∧ (y ≠ null → prev y = x)

/-- The links form the list `nodes`. -/
structure NullList (null : N) (next prev : N → N) (nodes : List N) : Prop where
  chain : (null :: (nodes ++ [null])).IsChain (Follows null next prev)
  nodup : nodes.Nodup
  null_notMem : null ∉ nodes

namespace NullList

theorem nil : NullList null next prev [] :=
  ⟨by simp [Follows], List.nodup_nil, List.not_mem_nil⟩

theorem mem_of_ne {x : N} (hx : x ∈ null :: (nodes ++ [null])) (hne : x ≠ null) : x ∈ nodes := by
  simpa [hne] using hx

/-- The links of other nodes do not matter. -/
theorem congr (h : NullList null next prev nodes) (hnext : ∀ y ∈ nodes, next' y = next y)
    (hprev : ∀ y ∈ nodes, prev' y = prev y) : NullList null next' prev' nodes := by
  refine ⟨h.chain.imp_of_mem_imp fun a c ha hc hfollows ↦ ⟨fun hne ↦ ?_, fun hne ↦ ?_⟩, h.nodup,
    h.null_notMem⟩
  · rw [hnext a (mem_of_ne ha hne)]
    exact hfollows.1 hne
  · rw [hprev c (mem_of_ne hc hne)]
    exact hfollows.2 hne

/-- A node put in front: it points at the first node, and that points back. -/
theorem push [DecidableEq N] (h : NullList null next prev nodes) (hb : b ∉ nodes) (hnull : b ≠ null)
    (hnext_b : next' b = nodes.headD null) (hprev_b : prev' b = null)
    (hnext : ∀ y ∈ nodes, next' y = next y)
    (hprev : ∀ y ∈ nodes, prev' y = if y = nodes.headD null then b else prev y) :
    NullList null next' prev' (b :: nodes) := by
  refine ⟨?_, List.nodup_cons.mpr ⟨hb, h.nodup⟩, ?_⟩
  · rw [List.cons_append, List.isChain_cons_cons]
    refine ⟨⟨fun hne ↦ absurd rfl hne, fun _ ↦ hprev_b⟩, ?_⟩
    cases nodes with
    | nil => exact List.isChain_pair.mpr ⟨fun _ ↦ hnext_b, fun hne ↦ absurd rfl hne⟩
    | cons x rest =>
      rw [List.cons_append, List.isChain_cons_cons]
      refine ⟨⟨fun _ ↦ hnext_b, fun _ ↦ ?_⟩, ?_⟩
      · rw [hprev x List.mem_cons_self]
        exact if_pos rfl
      · have hrest := h.chain.tail
        rw [List.tail_cons, List.cons_append] at hrest
        have hmem {y : N} (hy : y ∈ x :: (rest ++ [null])) (hne : y ≠ null) : y ∈ x :: rest :=
          mem_of_ne (List.mem_cons_of_mem null hy) hne
        refine hrest.imp_of_mem_tail_imp fun a c ha hc hfollows ↦ ⟨fun hne ↦ ?_, fun hne ↦ ?_⟩
        · rw [hnext a (hmem ha hne)]
          exact hfollows.1 hne
        · have hcrest : c ∈ rest := by simpa [hne] using hc
          have hcx : c ≠ x := by
            rintro rfl
            exact (List.nodup_cons.mp h.nodup).1 hcrest
          rw [hprev c (List.mem_cons_of_mem x hcrest), List.headD_cons, if_neg hcx]
          exact hfollows.2 hne
  · rw [List.mem_cons, not_or]
    exact ⟨hnull.symm, h.null_notMem⟩

/-- The neighbours of a node, which may be null. -/
theorem exists_neighbours (h : NullList null next prev (before ++ b :: after)) :
    ∃ front back, null :: before = front ++ [prev b] ∧ after ++ [null] = next b :: back ∧
      (front ++ [prev b]).IsChain (Follows null next prev) ∧
      Follows null next prev (prev b) b ∧ Follows null next prev b (next b) ∧
      (next b :: back).IsChain (Follows null next prev) := by
  have hb : b ≠ null := fun heq ↦ h.null_notMem (heq ▸ by simp)
  obtain ⟨front, p, hfront⟩ : ∃ front p, null :: before = front ++ [p] := by
    rcases List.eq_nil_or_concat (null :: before) with hnil | ⟨front, p, hconcat⟩
    · exact absurd hnil (List.cons_ne_nil _ _)
    · exact ⟨front, p, by rw [hconcat, List.concat_eq_append]⟩
  obtain ⟨n, back, hback⟩ : ∃ n back, after ++ [null] = n :: back :=
    List.exists_cons_of_ne_nil (by simp)
  have hchain := h.chain
  have hall : null :: ((before ++ b :: after) ++ [null]) = front ++ p :: b :: n :: back := by
    rw [List.append_assoc, List.cons_append, hback, ← List.cons_append, hfront, List.append_assoc]
    rfl
  rw [hall, List.isChain_append_cons_cons, List.isChain_cons_cons] at hchain
  obtain ⟨hleft, hpb, hbn, hright⟩ := hchain
  rw [hpb.2 hb, hbn.1 hb]
  exact ⟨front, back, hfront, hback, hleft, hpb, hbn, hright⟩

theorem next_eq (h : NullList null next prev (before ++ b :: after)) :
    next b = after.headD null := by
  obtain ⟨front, back, -, hback, -⟩ := h.exists_neighbours
  cases after with
  | nil => exact (List.cons.inj hback).1.symm
  | cons x rest => exact (List.cons.inj hback).1.symm

/-- A node taken out: its neighbours point at each other. -/
theorem unlink [DecidableEq N] (h : NullList null next prev (before ++ b :: after))
    (hnext : ∀ y ∈ before ++ after, next' y = if y = prev b then next b else next y)
    (hprev : ∀ y ∈ before ++ after, prev' y = if y = next b then prev b else prev y) :
    NullList null next' prev' (before ++ after) := by
  obtain ⟨front, back, hfront, hback, hleft, hpb, hbn, hright⟩ := h.exists_neighbours
  have hnodup := h.nodup
  rw [List.nodup_middle, List.nodup_cons] at hnodup
  obtain ⟨hb, hnodup⟩ := hnodup
  have hdisjoint := (List.nodup_append.mp hnodup).2.2
  have hnull : null ∉ before ++ after := fun hmem ↦ h.null_notMem (by
    rw [List.mem_append] at hmem ⊢
    exact hmem.imp_right (List.mem_cons_of_mem b))
  have hbefore {y : N} (hy : y ∈ front ++ [prev b]) (hne : y ≠ null) : y ∈ before := by
    rw [← hfront] at hy
    exact (List.mem_cons.mp hy).resolve_left hne
  have hafter {y : N} (hy : y ∈ next b :: back) (hne : y ≠ null) : y ∈ after := by
    rw [← hback] at hy
    simpa [hne] using hy
  refine ⟨?_, hnodup, hnull⟩
  have hall : null :: ((before ++ after) ++ [null]) = front ++ prev b :: next b :: back := by
    rw [List.append_assoc, hback, ← List.cons_append, hfront, List.append_assoc]
    rfl
  rw [hall, List.isChain_append_cons_cons]
  refine ⟨?_, ⟨fun hne ↦ ?_, fun hne ↦ ?_⟩, ?_⟩
  · refine hleft.imp_of_mem_tail_imp fun a c ha hc hfollows ↦ ⟨fun hne ↦ ?_, fun hne ↦ ?_⟩
    · have hamem := hbefore ha hne
      have hap : a ≠ prev b := by
        rintro rfl
        have hcb : c = b := (hfollows.1 hne).symm.trans (hpb.1 hne)
        have hcmem : c ∈ front ++ [prev b] := List.mem_of_mem_tail hc
        have hbnull : b ≠ null := fun heq ↦ h.null_notMem (heq ▸ by simp)
        exact hb (List.mem_append_left _ (hcb ▸ hbefore hcmem (hcb ▸ hbnull)))
      rw [hnext a (List.mem_append_left _ hamem), if_neg hap]
      exact hfollows.1 hne
    · have hcmem := hbefore (List.mem_of_mem_tail hc) hne
      have hcn : c ≠ next b := by
        rintro rfl
        exact hdisjoint _ hcmem _ (hafter List.mem_cons_self hne) rfl
      rw [hprev c (List.mem_append_left _ hcmem), if_neg hcn]
      exact hfollows.2 hne
  · rw [hnext _ (List.mem_append_left _ (hbefore (by simp) hne)), if_pos rfl]
  · rw [hprev _ (List.mem_append_right _ (hafter List.mem_cons_self hne)), if_pos rfl]
  · refine hright.imp_of_mem_tail_imp fun a c ha hc hfollows ↦ ⟨fun hne ↦ ?_, fun hne ↦ ?_⟩
    · have hamem := hafter ha hne
      have hap : a ≠ prev b := by
        rintro rfl
        exact hdisjoint _ (hbefore (by simp) hne) _ hamem rfl
      rw [hnext a (List.mem_append_right _ hamem), if_neg hap]
      exact hfollows.1 hne
    · have hcmem := hafter (List.mem_of_mem_tail hc) hne
      have hcn : c ≠ next b := by
        rintro rfl
        have hab : a = b := (hfollows.2 hne).symm.trans (hbn.2 hne)
        have hbnull : b ≠ null := fun heq ↦ h.null_notMem (heq ▸ by simp)
        exact hb (List.mem_append_right _ (hab ▸ hafter ha (hab ▸ hbnull)))
      rw [hprev c (List.mem_append_right _ hcmem), if_neg hcn]
      exact hfollows.2 hne

end NullList

end Emu68.Lib
