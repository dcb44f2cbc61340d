import Emu68.Mmu.Walk

/-!
Every table has one owner: a half, a slot of the top level, or an entry of a directory. The three
slots that `mirror_page` keeps alike count as one. So a table that is written lies on no path but
those that the write is meant for. Each operation keeps the ownership and, away from the page it
puts, what is seen at an address.
-/

set_option autoImplicit false
set_option relaxedAutoImplicit false

namespace Emu68.Mmu

/-- An entry of the top level: whether it is of the upper half, and its index. -/
abbrev Slot := Bool × ℕ

/-- The slot that a slot is a mirror of. -/
def canon : Slot → Slot
  | (false, i) => if 4 ≤ i ∧ i < 8 then (false, i - 4) else (false, i)
  | (true, i) => if 508 ≤ i then (false, i - 508) else (true, i)

inductive Owner where
  | root (kernel : Bool)
  | dir (slot : Slot)
  | leaves (slot : Slot) (i : ℕ)
  | pool
deriving DecidableEq

variable {s s' s₁ : State} {own own' : Address → Owner} {a p t virt : Address} {e : Entry}
  {x v : Slot} {i j : ℕ} {o : Owner}

def slotOf (a : Address) : Slot := (decide (isKernel a), idxL1 a)

def State.root (s : State) (kernel : Bool) : Address := if kernel then s.ttbr1 else s.ttbr0

def State.slotEntry (s : State) (x : Slot) : Entry := s.pages (s.root x.1) x.2

theorem entry1_eq : entry1 s a = s.slotEntry (slotOf a) := by
  have hroot : rootOf s a = s.root (slotOf a).1 := by
    unfold rootOf State.root slotOf
    by_cases hkernel : isKernel a <;> simp [hkernel]
  rw [entry1, hroot]
  rfl

theorem idxL1_lt : idxL1 a < 512 := by
  rw [idxL1_eq]
  exact Nat.mod_lt _ (by decide)

theorem idxL2_lt : idxL2 a < 512 := by
  rw [idxL2_eq]
  exact Nat.mod_lt _ (by decide)

theorem idxL3_lt : idxL3 a < 512 := by
  rw [idxL3_eq]
  exact Nat.mod_lt _ (by decide)

theorem canon_lt (h : x.2 < 512) : (canon x).2 < 512 := by
  obtain ⟨kernel, i⟩ := x
  have hi : i < 512 := h
  cases kernel
  · simp only [canon]
    split
    · exact Nat.lt_of_le_of_lt (Nat.sub_le _ _) hi
    · exact hi
  · simp only [canon]
    split
    · exact Nat.lt_of_le_of_lt (Nat.sub_le _ _) hi
    · exact hi

theorem canon_canon (h : x.2 < 512) : canon (canon x) = canon x := by
  obtain ⟨kernel, i⟩ := x
  have hi : i < 512 := h
  cases kernel
  · by_cases hwindow : 4 ≤ i ∧ i < 8
    · have hlow : ¬(4 ≤ i - 4 ∧ i - 4 < 8) := by omega
      simp only [canon, if_pos hwindow, if_neg hlow]
    · simp only [canon, if_neg hwindow]
  · by_cases hwindow : 508 ≤ i
    · have hlow : ¬(4 ≤ i - 508 ∧ i - 508 < 8) := by omega
      simp only [canon, if_pos hwindow, if_neg hlow]
    · simp only [canon, if_neg hwindow]

/-! ### The invariant -/

/-- An entry that points to a table points to one of its own. -/
def Linked (own : Address → Owner) (e : Entry) (o : Owner) : Prop :=
  Empty e ∨ Block e ∨ ∃ p, e = 3 ||| p ∧ Aligned p ∧ own p = o

structure Owned (s : State) (own : Address → Owner) : Prop where
  roots : ∀ kernel, own (s.root kernel) = .root kernel
  mirrored : ∀ x : Slot, x.2 < 512 → s.slotEntry x = s.slotEntry (canon x)
  slots : ∀ x : Slot, x.2 < 512 → Linked own (s.slotEntry x) (.dir (canon x))
  dirs : ∀ p x, own p = .dir x → ∀ j < 512, Linked own (s.pages p j) (.leaves x j)
  /-- A slot has one directory. -/
  hung : ∀ p x, own p = .dir x → x.2 < 512 ∧ s.slotEntry x = 3 ||| p ∧ Aligned p
  free : ∀ p ∈ s.freePages, own p = .pool ∧ Aligned p
  nodup : s.freePages.Nodup

theorem Linked.kind (h : Linked own e o) : Kind e := by
  rcases h with hempty | hblock | ⟨p, rfl, hp, -⟩
  · exact .inl hempty
  · exact .inr (.inl hblock)
  · exact .inr (.inr hp.table)

theorem Linked.table (h : Linked own e o) (htable : Table e) :
    ∃ p, e = 3 ||| p ∧ Aligned p ∧ own p = o := by
  rcases h with hempty | hblock | hlink
  · exact absurd htable (not_table_of_empty hempty)
  · exact absurd hblock (not_block htable)
  · exact hlink

/-- Giving a page that belongs to nobody an owner changes no link. -/
theorem Linked.update (h : Linked own e o) (hp : own p = .pool) (ho : o ≠ .pool) {o' : Owner} :
    Linked (Function.update own p o') e o := by
  rcases h with hempty | hblock | ⟨q, rfl, hq, hown⟩
  · exact .inl hempty
  · exact .inr (.inl hblock)
  · refine .inr (.inr ⟨q, rfl, hq, ?_⟩)
    rw [Function.update_of_ne ?_ _ _]
    · exact hown
    · rintro rfl
      exact ho (hown.symm.trans hp)

theorem Owned.slot (h : Owned s own) (a : Address) :
    Linked own (entry1 s a) (.dir (canon (slotOf a))) := by
  rw [entry1_eq]
  exact h.slots _ idxL1_lt

/-- The directory on the path of an address belongs to its slot. -/
theorem Owned.dir (h : Owned s own) (htable : Table (entry1 s a)) :
    ∃ p, entry1 s a = 3 ||| p ∧ own p = .dir (canon (slotOf a)) ∧
      (∀ s' : State, entry1 s' a = 3 ||| p → entry2 s' a = s'.pages p (idxL2 a)) := by
  obtain ⟨p, heq, hp, hown⟩ := (h.slot a).table htable
  refine ⟨p, heq, hown, fun s' hs' ↦ ?_⟩
  rw [entry2, hs', hp.link.1]

theorem Owned.kind₂ (h : Owned s own) (htable : Table (entry1 s a)) :
    Linked own (entry2 s a) (.leaves (canon (slotOf a)) (idxL2 a)) := by
  obtain ⟨p, heq, hown, hentry⟩ := h.dir htable
  rw [hentry s heq]
  exact h.dirs _ _ hown _ idxL2_lt

/-! ### What is kept at an address -/

def Block1 (s : State) (a : Address) (e : Entry) : Prop := entry1 s a = e ∧ Block e

def Block2 (s : State) (a : Address) (e : Entry) : Prop :=
  Table (entry1 s a) ∧ entry2 s a = e ∧ Block e

/-- The address is seen as before, and its blocks are those of before or clean. -/
structure Kept (s s' : State) (a : Address) : Prop where
  view_eq : view s' a = view s a
  block1 : ∀ e, Block1 s' a e → Block1 s a e
  block2 : ∀ e, Block2 s' a e → Clean e ∨ Block2 s a e

theorem Kept.refl (s : State) (a : Address) : Kept s s a := ⟨rfl, fun _ h ↦ h, fun _ h ↦ .inr h⟩

theorem Kept.trans (h₁ : Kept s s₁ a) (h₂ : Kept s₁ s' a) : Kept s s' a := by
  refine ⟨h₂.view_eq.trans h₁.view_eq, fun e h ↦ h₁.block1 e (h₂.block1 e h), fun e h ↦ ?_⟩
  rcases h₂.block2 e h with hclean | h
  · exact .inl hclean
  · exact h₁.block2 e h

/-- An address whose path is not written is kept. -/
theorem Owned.kept (h : Owned s own) (h₁ : entry1 s' a = entry1 s a)
    (h₂ : ∀ q, own q = .dir (canon (slotOf a)) → s'.pages q (idxL2 a) = s.pages q (idxL2 a))
    (h₃ : ∀ q, own q = .leaves (canon (slotOf a)) (idxL2 a) →
      s'.pages q (idxL3 a) = s.pages q (idxL3 a)) : Kept s s' a := by
  have hentry2 : Table (entry1 s a) → entry2 s' a = entry2 s a := by
    intro htable
    obtain ⟨p, heq, hown, hentry⟩ := h.dir htable
    rw [hentry s heq, hentry s' (h₁.trans heq), h₂ p hown]
  refine ⟨view_congr h₁ hentry2 ?_ (h.slot a).kind fun htable ↦ (h.kind₂ htable).kind, ?_, ?_⟩
  · intro htable htable₂
    obtain ⟨q, heq, hq, hown⟩ := (h.kind₂ htable).table htable₂
    rw [entry3, entry3, hentry2 htable, heq, hq.link.1, h₃ q hown]
  · rintro e ⟨heq, hblock⟩
    exact ⟨h₁.symm.trans heq, hblock⟩
  · rintro e ⟨htable, heq, hblock⟩
    rw [h₁] at htable
    exact .inr ⟨htable, (hentry2 htable).symm.trans heq, hblock⟩

end Emu68.Mmu
