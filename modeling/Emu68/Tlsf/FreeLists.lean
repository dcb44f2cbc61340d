import Emu68.Lib.NullTerminatedList
import Emu68.Tlsf.Classes
import Mathlib.Algebra.BigOperators.Group.List.Basic
import Mathlib.Data.List.Perm.Basic

/-!
The free lists, apart from where the blocks lie. `Listed` says that exactly the blocks `free`, given
by address and size, are in the lists of their classes, and that the bitmaps and the counter agree.
Taking a block out of its list and putting one in changes no words but the links of listed blocks.
-/

set_option autoImplicit false
set_option relaxedAutoImplicit false

namespace Emu68.Tlsf

open Lib (NullList)

variable {h : Heap} {c c' : ℕ × ℕ} {b s : ℕ} {chain : ℕ × ℕ → List ℕ} {free free' : List (ℕ × ℕ)}

/-! ### Bitmaps -/

theorem getLsbD_setBit (x : BitVec 32) {n : ℕ} (hn : n < 32) (i : ℕ) :
    (x ||| 1#32 <<< n).getLsbD i = (x.getLsbD i || decide (i = n)) := by
  rw [BitVec.getLsbD_or, BitVec.getLsbD_shiftLeft, BitVec.getLsbD_one]
  congr 1
  by_cases hi : i = n
  · subst hi
    simp [hn]
  · by_cases hlt : i < n
    · simp [hi, hlt]
    · have hsub : i - n ≠ 0 := by omega
      simp [hi, hsub]

theorem getLsbD_clrBit (x : BitVec 32) {n : ℕ} (hn : n < 32) (i : ℕ) :
    (x &&& ~~~(1#32 <<< n)).getLsbD i = (x.getLsbD i && !decide (i = n)) := by
  by_cases hi : i < 32
  · have hbit := getLsbD_setBit 0#32 hn i
    rw [BitVec.zero_or, BitVec.getLsbD_zero, Bool.false_or] at hbit
    rw [BitVec.getLsbD_and, BitVec.getLsbD_not, hbit, decide_eq_true hi, Bool.true_and]
  · rw [BitVec.getLsbD_of_ge _ _ (Nat.le_of_not_lt hi), BitVec.getLsbD_of_ge x _ (Nat.le_of_not_lt hi),
      Bool.false_and]

theorem getLsbD_masked (x : BitVec 32) (n i : ℕ) :
    (x &&& BitVec.allOnes 32 <<< n).getLsbD i = (x.getLsbD i && decide (n ≤ i)) := by
  by_cases hi : i < 32
  · have hsub : i - n < 32 := by omega
    rw [BitVec.getLsbD_and, BitVec.getLsbD_shiftLeft, BitVec.getLsbD_allOnes, decide_eq_true hi,
      decide_eq_true hsub, Bool.true_and, Bool.and_true]
    congr 1
    rw [← decide_not]
    exact decide_eq_decide.mpr Nat.not_lt
  · rw [BitVec.getLsbD_of_ge _ _ (Nat.le_of_not_lt hi), BitVec.getLsbD_of_ge x _ (Nat.le_of_not_lt hi),
      Bool.false_and]

theorem ls_some {bits : BitVec 32} {i : ℕ} (hi : ls bits = some i) :
    bits.getLsbD i = true ∧ i < 32 ∧ ∀ j < i, bits.getLsbD j = false := by
  rw [ls, List.find?_range_eq_some] at hi
  exact ⟨hi.1, List.mem_range.mp hi.2.1, fun j hj ↦ by simpa using hi.2.2 j hj⟩

theorem ls_none {bits : BitVec 32} (hnone : ls bits = none) (i : ℕ) : bits.getLsbD i = false := by
  rw [ls, List.find?_range_eq_none] at hnone
  by_cases hi : i < 32
  · simpa using hnone i hi
  · exact BitVec.getLsbD_of_ge bits i (Nat.le_of_not_lt hi)

theorem eq_zero_iff (bits : BitVec 32) : bits = 0 ↔ ∀ i < 32, bits.getLsbD i = false := by
  constructor
  · rintro rfl i -
    exact BitVec.getLsbD_zero
  · intro hbits
    refine BitVec.eq_of_getLsbD_eq fun i hi ↦ ?_
    rw [hbits i hi]
    exact BitVec.getLsbD_zero.symm

/-! ### The blocks in the lists -/

/-- Exactly the blocks `free` are listed, the list of a class being `chain`. -/
structure Listed (h : Heap) (chain : ℕ × ℕ → List ℕ) (free : List (ℕ × ℕ)) : Prop where
  linked : ∀ c, InRange c → NullList 0 (fun x ↦ h.mem (x + 24)) (fun x ↦ h.mem (x + 16)) (chain c)
  first : ∀ c, InRange c → h.matrix c = (chain c).headD 0
  mem_iff : ∀ c, InRange c → ∀ x, x ∈ chain c ↔ ∃ s, (x, s) ∈ free ∧ classOf s = c
  slbitmap : ∀ c, InRange c → ((h.slbitmap c.1).getLsbD c.2 = true ↔ chain c ≠ [])
  flbitmap : ∀ fl, h.flbitmap.getLsbD fl = true ↔ ∃ sl, InRange (fl, sl) ∧ chain (fl, sl) ≠ []
  nodup : (free.map Prod.fst).Nodup
  sized : ∀ p ∈ free, p.1 % 16 = 0 ∧ 0 < p.1 ∧ 0 < p.2 ∧ p.2 < 2 ^ 30
  total : h.freeSize = (free.map Prod.snd).sum

/-- The memories differ at most in the links of listed blocks. -/
def LinksOnly (free : List (ℕ × ℕ)) (m m' : ℕ → ℕ) : Prop :=
  ∀ z, (∀ p ∈ free, z ≠ p.1 + 16 ∧ z ≠ p.1 + 24) → m' z = m z

theorem Listed.perm (hl : Listed h chain free) (hperm : free.Perm free') :
    Listed h chain free' where
  linked := hl.linked
  first := hl.first
  mem_iff c hc x := by
    rw [hl.mem_iff c hc x]
    exact exists_congr fun s ↦ and_congr_left fun _ ↦ hperm.mem_iff
  slbitmap := hl.slbitmap
  flbitmap := hl.flbitmap
  nodup := (hperm.map Prod.fst).nodup_iff.mp hl.nodup
  sized p hp := hl.sized p (hperm.mem_iff.mpr hp)
  total := hl.total.trans (hperm.map Prod.snd).sum_eq

/-- Only the links of listed blocks matter. -/
theorem Listed.congr {h' : Heap} (hl : Listed h chain free)
    (hmem : ∀ p ∈ free, h'.mem (p.1 + 16) = h.mem (p.1 + 16) ∧ h'.mem (p.1 + 24) = h.mem (p.1 + 24))
    (hmatrix : h'.matrix = h.matrix) (hsl : h'.slbitmap = h.slbitmap)
    (hfl : h'.flbitmap = h.flbitmap) (hsize : h'.freeSize = h.freeSize) : Listed h' chain free where
  linked c hc := by
    refine (hl.linked c hc).congr ?_ ?_ <;> intro y hy <;>
      obtain ⟨s, hs, -⟩ := (hl.mem_iff c hc y).mp hy
    · exact (hmem _ hs).2
    · exact (hmem _ hs).1
  first c hc := by rw [hmatrix, hl.first c hc]
  mem_iff := hl.mem_iff
  slbitmap c hc := by rw [hsl, hl.slbitmap c hc]
  flbitmap fl := by rw [hfl, hl.flbitmap fl]
  nodup := hl.nodup
  sized := hl.sized
  total := hsize.trans hl.total

theorem Listed.inRange (hl : Listed h chain free) (hb : (b, s) ∈ free) : InRange (classOf s) :=
  classOf_inRange (hl.sized _ hb).2.2.2

/-- A listed block has one size. -/
theorem Listed.size_unique (hl : Listed h chain free) {s' : ℕ} (hb : (b, s) ∈ free)
    (hb' : (b, s') ∈ free) : s = s' := by
  have hpair : ((b, s) : ℕ × ℕ) = (b, s') :=
    List.inj_on_of_nodup_map hl.nodup hb hb' rfl
  exact (Prod.mk.inj hpair).2

/-- The null pointer and the listed blocks lie at multiples of 16. -/
theorem Listed.aligned (hl : Listed h chain free) (hc : InRange c) {y : ℕ}
    (hy : y = 0 ∨ y ∈ chain c) : y % 16 = 0 := by
  rcases hy with rfl | hy
  · rfl
  · obtain ⟨s, hs, -⟩ := (hl.mem_iff c hc y).mp hy
    exact (hl.sized _ hs).1

/-! ### Looking for a block -/

/-- `c'` is the first class at or above `c` whose list is not empty. -/
structure FirstFrom (chain : ℕ × ℕ → List ℕ) (c c' : ℕ × ℕ) : Prop where
  inRange : InRange c'
  above : AtOrAbove c c'
  nonempty : chain c' ≠ []
  minimal : ∀ d, InRange d → AtOrAbove c d → chain d ≠ [] → AtOrAbove c' d

/-- The search finds the first block of the first list at or above the class that is not empty. -/
theorem Listed.find (hl : Listed h chain free) (hc : InRange c) :
    (findSuitableBlock h c.1 c.2 = .ok (0, c) ∧
      ∀ d, InRange d → AtOrAbove c d → chain d = []) ∨
    ∃ c', findSuitableBlock h c.1 c.2 = .ok (h.matrix c', c') ∧ FirstFrom chain c c' := by
  have hslot := slot_ok hc
  unfold findSuitableBlock
  rw [hslot]
  show (_ = _ ∧ _) ∨ ∃ c', _ = _ ∧ _
  simp only [bind, Except.bind]
  cases hsame : ls (h.slbitmap c.1 &&& BitVec.allOnes 32 <<< c.2) with
  | some i =>
    obtain ⟨hbit, hi, hlow⟩ := ls_some hsame
    rw [getLsbD_masked, Bool.and_eq_true, decide_eq_true_iff] at hbit
    have hrange : InRange (c.1, i) := ⟨hc.1, hi⟩
    refine .inr ⟨(c.1, i), rfl, hrange, .inr ⟨rfl, hbit.2⟩, (hl.slbitmap _ hrange).mp hbit.1, ?_⟩
    intro d hd habove hne
    rcases habove with hlt | ⟨heq, hle⟩
    · exact .inl hlt
    · refine .inr ⟨heq, Nat.le_of_not_lt fun hdi ↦ ?_⟩
      have hset := (hl.slbitmap d hd).mpr hne
      have hclear := hlow d.2 hdi
      rw [getLsbD_masked, heq, hset, decide_eq_true hle] at hclear
      exact Bool.noConfusion hclear
  | none =>
    have hempty : ∀ d, InRange d → c.1 = d.1 → c.2 ≤ d.2 → chain d = [] := by
      intro d hd heq hle
      by_contra hne
      have hset := (hl.slbitmap d hd).mpr hne
      have hclear := ls_none hsame d.2
      rw [getLsbD_masked, heq, hset, decide_eq_true hle] at hclear
      exact Bool.noConfusion hclear
    cases hnext : ls (h.flbitmap &&& BitVec.allOnes 32 <<< (c.1 + 1)) with
    | none =>
      refine .inl ⟨rfl, fun d hd habove ↦ ?_⟩
      rcases habove with hlt | ⟨heq, hle⟩
      · by_contra hne
        have hset := (hl.flbitmap d.1).mpr ⟨d.2, hd, hne⟩
        have hclear := ls_none hnext d.1
        rw [getLsbD_masked, hset, decide_eq_true (Nat.succ_le_of_lt hlt)] at hclear
        exact Bool.noConfusion hclear
      · exact hempty d hd heq hle
    | some f =>
      obtain ⟨hbit, -, hlow⟩ := ls_some hnext
      rw [getLsbD_masked, Bool.and_eq_true, decide_eq_true_iff] at hbit
      obtain ⟨sl, hsl, hne⟩ := (hl.flbitmap f).mp hbit.1
      dsimp only
      cases hfirst : ls (h.slbitmap f) with
      | none =>
        have hset := (hl.slbitmap _ hsl).mpr hne
        rw [ls_none hfirst sl] at hset
        exact Bool.noConfusion hset
      | some i =>
        obtain ⟨hset, hi, hleast⟩ := ls_some hfirst
        have hrange : InRange (f, i) := ⟨hsl.1, hi⟩
        have hslot' := slot_ok hrange
        dsimp only at hslot' ⊢
        rw [hslot']
        refine .inr ⟨(f, i), rfl, hrange, .inl hbit.2, (hl.slbitmap _ hrange).mp hset, ?_⟩
        intro d hd habove hdne
        have hcd : c.1 < d.1 := by
          rcases habove with hlt | ⟨heq, hle⟩
          · exact hlt
          · exact absurd (hempty d hd heq hle) hdne
        have hdset := (hl.flbitmap d.1).mpr ⟨d.2, hd, hdne⟩
        have hfd : f ≤ d.1 := by
          refine Nat.le_of_not_lt fun hdf ↦ ?_
          have hclear := hlow d.1 hdf
          rw [getLsbD_masked, hdset, decide_eq_true (Nat.succ_le_of_lt hcd)] at hclear
          exact Bool.noConfusion hclear
        rcases Nat.lt_or_eq_of_le hfd with hlt | heq
        · exact .inl hlt
        · refine .inr ⟨heq, Nat.le_of_not_lt fun hdi ↦ ?_⟩
          have hdbit := (hl.slbitmap d hd).mpr hdne
          rw [← heq, hleast d.2 hdi] at hdbit
          exact Bool.noConfusion hdbit

/-! ### Taking a block out of its list -/

theorem unlinkNode_mem (hb : b % 16 = 0) (hnext : h.mem (b + 24) % 16 = 0) (z : ℕ) :
    (unlinkNode h b).mem z =
      if h.mem (b + 16) ≠ 0 ∧ z = h.mem (b + 16) + 24 then h.mem (b + 24)
      else if h.mem (b + 24) ≠ 0 ∧ z = h.mem (b + 24) + 16 then h.mem (b + 16) else h.mem z := by
  have h₂ : b + 24 ≠ h.mem (b + 24) + 16 := by omega
  unfold unlinkNode Heap.write
  by_cases hn : h.mem (b + 24) = 0 <;> by_cases hp : h.mem (b + 16) = 0 <;>
    simp [hn, hp, Function.update_apply, h₂]

theorem unlinkNode_fields : (unlinkNode h b).matrix = h.matrix ∧
    (unlinkNode h b).slbitmap = h.slbitmap ∧ (unlinkNode h b).flbitmap = h.flbitmap ∧
    (unlinkNode h b).freeSize = h.freeSize := by
  unfold unlinkNode Heap.write
  dsimp only
  split_ifs <;> exact ⟨rfl, rfl, rfl, rfl⟩

variable {fl sl : ℕ}

theorem clearSl_fields : (clearSl h fl sl).mem = h.mem ∧ (clearSl h fl sl).matrix = h.matrix ∧
    (clearSl h fl sl).flbitmap = h.flbitmap ∧ (clearSl h fl sl).freeSize = h.freeSize := by
  unfold clearSl
  split_ifs <;> exact ⟨rfl, rfl, rfl, rfl⟩

theorem clearFl_fields : (clearFl h fl).mem = h.mem ∧ (clearFl h fl).matrix = h.matrix ∧
    (clearFl h fl).slbitmap = h.slbitmap ∧ (clearFl h fl).freeSize = h.freeSize := by
  unfold clearFl
  split_ifs <;> exact ⟨rfl, rfl, rfl, rfl⟩

theorem clearSl_slbitmap (hsl : sl < 32) (f i : ℕ) :
    ((clearSl h fl sl).slbitmap f).getLsbD i = true ↔ (h.slbitmap f).getLsbD i = true ∧
      ¬ (h.matrix (fl, sl) = 0 ∧ f = fl ∧ i = sl) := by
  unfold clearSl
  split_ifs with hempty
  · by_cases hf : f = fl
    · subst hf
      dsimp only
      rw [Function.update_self, getLsbD_clrBit _ hsl]
      simp [hempty]
    · dsimp only
      rw [Function.update_of_ne hf]
      simp [hf]
  · simp [hempty]

theorem clearFl_flbitmap (hfl : fl < 32) (f : ℕ) :
    (clearFl h fl).flbitmap.getLsbD f = true ↔ h.flbitmap.getLsbD f = true ∧
      ¬ (h.slbitmap fl = 0 ∧ f = fl) := by
  unfold clearFl
  split_ifs with hempty
  · dsimp only
    rw [getLsbD_clrBit _ hfl]
    simp [hempty]
  · exact ⟨fun hbit ↦ ⟨hbit, fun hall ↦ hempty hall.1⟩, fun hall ↦ hall.1⟩

theorem dropFirst_of_ne (hfirst : h.matrix (fl, sl) ≠ b) : dropFirst h b fl sl = h :=
  if_neg hfirst

theorem dropFirst_mem : (dropFirst h b fl sl).mem = h.mem ∧
    (dropFirst h b fl sl).freeSize = h.freeSize := by
  unfold dropFirst
  dsimp only
  split_ifs
  · exact ⟨clearFl_fields.1.trans clearSl_fields.1,
      clearFl_fields.2.2.2.trans clearSl_fields.2.2.2⟩
  · exact ⟨rfl, rfl⟩

/-- After a first block is gone, its list begins with the next one, and the bits tell which lists
are not empty. -/
structure Dropped (h h' : Heap) (fl sl next : ℕ) : Prop where
  matrix : h'.matrix = Function.update h.matrix (fl, sl) next
  slbitmap : ∀ f i, (h'.slbitmap f).getLsbD i = true ↔ (h.slbitmap f).getLsbD i = true ∧
    ¬ (next = 0 ∧ f = fl ∧ i = sl)
  flbitmap : ∀ f, h'.flbitmap.getLsbD f = true ↔ h.flbitmap.getLsbD f = true ∧
    ¬ (h'.slbitmap fl = 0 ∧ f = fl)

theorem dropFirst_dropped (hfl : fl < 32) (hsl : sl < 32) (hfirst : h.matrix (fl, sl) = b) :
    Dropped h (dropFirst h b fl sl) fl sl (h.mem (b + 24)) := by
  unfold dropFirst
  rw [if_pos hfirst]
  dsimp only
  set g : Heap := { h with matrix := Function.update h.matrix (fl, sl) (h.mem (b + 24)) } with hg
  have hnext : g.matrix (fl, sl) = h.mem (b + 24) := Function.update_self ..
  refine ⟨clearFl_fields.2.1.trans clearSl_fields.2.1, fun f i ↦ ?_, fun f ↦ ?_⟩
  · rw [clearFl_fields.2.2.1, clearSl_slbitmap hsl, hnext]
  · rw [clearFl_flbitmap hfl, clearSl_fields.2.2.1, clearFl_fields.2.2.1]

/-- The lists without `b`. -/
theorem Listed.mem_unlinked (hl : Listed h chain ((b, s) :: free)) {before after : List ℕ}
    (hchain : chain (classOf s) = before ++ b :: after) (hc : InRange c) (x : ℕ) :
    x ∈ Function.update chain (classOf s) (before ++ after) c ↔
      ∃ s', (x, s') ∈ free ∧ classOf s' = c := by
  have hold := hl.mem_iff c hc x
  have hb : b ∉ free.map Prod.fst := (List.nodup_cons.mp hl.nodup).1
  by_cases hcs : c = classOf s
  · subst hcs
    have hnodup := (hl.linked _ hc).nodup
    rw [hchain, List.nodup_middle, List.nodup_cons] at hnodup
    rw [Function.update_self]
    rw [hchain] at hold
    constructor
    · intro hx
      have hmem : x ∈ before ++ b :: after := by
        rw [List.mem_append] at hx ⊢
        exact hx.imp_right (List.mem_cons_of_mem b)
      obtain ⟨s', hs', hclass⟩ := hold.mp hmem
      refine ⟨s', (List.mem_cons.mp hs').resolve_left fun heq ↦ ?_, hclass⟩
      rw [(Prod.mk.inj heq).1] at hx
      exact hnodup.1 hx
    · rintro ⟨s', hs', hclass⟩
      have hx : x ≠ b := by
        rintro rfl
        exact hb (List.mem_map.mpr ⟨_, hs', rfl⟩)
      have hmem := hold.mpr ⟨s', List.mem_cons_of_mem _ hs', hclass⟩
      simpa [hx] using hmem
  · rw [Function.update_of_ne hcs, hold]
    refine exists_congr fun s' ↦ and_congr_left fun hclass ↦ ?_
    rw [List.mem_cons]
    refine or_iff_right fun heq ↦ hcs ?_
    rw [← hclass, (Prod.mk.inj heq).2]

/-- What the unlinking of a node does to the links of another node. -/
theorem unlinkNode_links (hb : b % 16 = 0) (hnext : h.mem (b + 24) % 16 = 0)
    (hprev : h.mem (b + 16) % 16 = 0) {y : ℕ} (hy : y % 16 = 0) (hpos : y ≠ 0) :
    (unlinkNode h b).mem (y + 24) =
        (if y = h.mem (b + 16) then h.mem (b + 24) else h.mem (y + 24)) ∧
      (unlinkNode h b).mem (y + 16) =
        if y = h.mem (b + 24) then h.mem (b + 16) else h.mem (y + 16) := by
  rw [unlinkNode_mem hb hnext, unlinkNode_mem hb hnext]
  constructor
  · have hother : ¬ (h.mem (b + 24) ≠ 0 ∧ y + 24 = h.mem (b + 24) + 16) := by omega
    rw [if_neg hother]
    refine if_congr ⟨fun hz ↦ by omega, fun hz ↦ ⟨by omega, by omega⟩⟩ rfl rfl
  · have hother : ¬ (h.mem (b + 16) ≠ 0 ∧ y + 16 = h.mem (b + 16) + 24) := by omega
    rw [if_neg hother]
    refine if_congr ⟨fun hz ↦ by omega, fun hz ↦ ⟨by omega, by omega⟩⟩ rfl rfl

theorem Listed.linked_unlinked (hl : Listed h chain ((b, s) :: free)) {before after : List ℕ}
    (hchain : chain (classOf s) = before ++ b :: after) (hc : InRange c)
    (hnext : h.mem (b + 24) = 0 ∨ h.mem (b + 24) ∈ chain (classOf s))
    (hprev : h.mem (b + 16) = 0 ∨ h.mem (b + 16) ∈ chain (classOf s)) :
    NullList 0 (fun x ↦ (unlinkNode h b).mem (x + 24)) (fun x ↦ (unlinkNode h b).mem (x + 16))
      (Function.update chain (classOf s) (before ++ after) c) := by
  have hrange := hl.inRange List.mem_cons_self
  have hb16 := (hl.sized _ List.mem_cons_self).1
  have hlinks {c : ℕ × ℕ} (hc : InRange c) {y : ℕ} (hy : y ∈ chain c) :=
    unlinkNode_links hb16 (hl.aligned hrange hnext) (hl.aligned hrange hprev)
      (hl.aligned hc (.inr hy)) fun hzero ↦ (hl.linked c hc).null_notMem (hzero ▸ hy)
  by_cases hcs : c = classOf s
  · subst hcs
    rw [Function.update_self]
    have hin {y : ℕ} (hy : y ∈ before ++ after) : y ∈ chain (classOf s) := by
      rw [hchain]
      rw [List.mem_append] at hy ⊢
      exact hy.imp_right (List.mem_cons_of_mem b)
    have hlist := hl.linked _ hc
    rw [hchain] at hlist
    exact hlist.unlink (fun y hy ↦ (hlinks hc (hin hy)).1) fun y hy ↦ (hlinks hc (hin hy)).2
  · -- the neighbours of `b` are not in another list
    have hother {y x : ℕ} (hy : y ∈ chain c) (hx : x = 0 ∨ x ∈ chain (classOf s)) : y ≠ x := by
      rintro rfl
      rcases hx with rfl | hx
      · exact (hl.linked c hc).null_notMem hy
      · obtain ⟨s₁, hs₁, hclass₁⟩ := (hl.mem_iff c hc y).mp hy
        obtain ⟨s₂, hs₂, hclass₂⟩ := (hl.mem_iff _ hrange y).mp hx
        rw [hl.size_unique hs₁ hs₂] at hclass₁
        exact hcs (hclass₁.symm.trans hclass₂)
    rw [Function.update_of_ne hcs]
    refine (hl.linked c hc).congr (fun y hy ↦ ?_) fun y hy ↦ ?_
    · rw [(hlinks hc hy).1, if_neg (hother hy hprev)]
    · rw [(hlinks hc hy).2, if_neg (hother hy hnext)]

/-- The bits after the first block of a list is gone. -/
theorem Dropped.bits {g : Heap} {next : ℕ} {chain' : ℕ × ℕ → List ℕ} (hd : Dropped h g c.1 c.2 next)
    (hc : InRange c)
    (hsl : ∀ d, InRange d → ((h.slbitmap d.1).getLsbD d.2 = true ↔ chain d ≠ []))
    (hfl : ∀ fl, h.flbitmap.getLsbD fl = true ↔ ∃ sl, InRange (fl, sl) ∧ chain (fl, sl) ≠ [])
    (hsame : ∀ d, d ≠ c → chain' d = chain d) (hlist : chain c ≠ [])
    (hempty : next = 0 ↔ chain' c = []) :
    (∀ d, InRange d → ((g.slbitmap d.1).getLsbD d.2 = true ↔ chain' d ≠ [])) ∧
      ∀ fl, g.flbitmap.getLsbD fl = true ↔ ∃ sl, InRange (fl, sl) ∧ chain' (fl, sl) ≠ [] := by
  have hslbits : ∀ d, InRange d → ((g.slbitmap d.1).getLsbD d.2 = true ↔ chain' d ≠ []) := by
    intro d hdrange
    rw [hd.slbitmap, hsl d hdrange]
    by_cases hdc : d = c
    · subst hdc
      simp [hlist, hempty]
    · have hne : ¬ (next = 0 ∧ d.1 = c.1 ∧ d.2 = c.2) := fun hall ↦ hdc (Prod.ext hall.2.1 hall.2.2)
      rw [hsame d hdc]
      exact ⟨fun hall ↦ hall.1, fun hall ↦ ⟨hall, hne⟩⟩
  refine ⟨hslbits, fun fl ↦ ?_⟩
  rw [hd.flbitmap, hfl]
  constructor
  · rintro ⟨⟨sl, hrange, hne⟩, hkept⟩
    by_cases hflc : fl = c.1
    · have hbits : ¬ g.slbitmap c.1 = 0 := fun hzero ↦ hkept ⟨hzero, hflc⟩
      rw [eq_zero_iff] at hbits
      push Not at hbits
      obtain ⟨i, hi, hbit⟩ := hbits
      have hirange : InRange (c.1, i) := ⟨hc.1, hi⟩
      rw [hflc]
      exact ⟨i, hirange, (hslbits _ hirange).mp (Bool.eq_true_of_not_eq_false hbit)⟩
    · refine ⟨sl, hrange, ?_⟩
      rw [hsame _ fun heq ↦ hflc (congrArg Prod.fst heq)]
      exact hne
  · rintro ⟨sl, hrange, hne⟩
    refine ⟨?_, fun hcleared ↦ ?_⟩
    · by_cases hflc : (fl, sl) = c
      · exact ⟨sl, hrange, hflc ▸ hlist⟩
      · exact ⟨sl, hrange, hsame _ hflc ▸ hne⟩
    · have hbit := (hslbits _ hrange).mpr hne
      obtain ⟨hzero, rfl⟩ := hcleared
      rw [(eq_zero_iff _).mp hzero sl hrange.2] at hbit
      exact Bool.noConfusion hbit

/-- A block taken out of its list. -/
theorem Listed.remove (hl : Listed h chain ((b, s) :: free)) (hsize : getSize h b = .ok s)
    {fl sl : ℤ} (hslot : slot fl sl = .ok (classOf s)) :
    ∃ h' chain', removeHeader h b fl sl = .ok h' ∧ Listed h' chain' free ∧
      LinksOnly free h.mem h'.mem := by
  obtain ⟨hb16, hbpos, hspos, hslt⟩ := hl.sized _ List.mem_cons_self
  have hrange : InRange (classOf s) := classOf_inRange hslt
  have hbmem : b ∈ chain (classOf s) := (hl.mem_iff _ hrange b).mpr ⟨s, List.mem_cons_self, rfl⟩
  obtain ⟨before, after, hchain⟩ := List.append_of_mem hbmem
  have hlist := hl.linked _ hrange
  rw [hchain] at hlist
  obtain ⟨front, back, hfront, hback, -⟩ := hlist.exists_neighbours
  have hnextAfter : h.mem (b + 24) = 0 ∨ h.mem (b + 24) ∈ before ++ after := by
    have hmem : h.mem (b + 24) ∈ after ++ [0] := by rw [hback]; exact List.mem_cons_self
    rw [List.mem_append, List.mem_singleton, or_comm] at hmem
    exact hmem.imp_right (List.mem_append_right before)
  have hprevBefore : h.mem (b + 16) = 0 ∨ h.mem (b + 16) ∈ before ++ after := by
    have hmem : h.mem (b + 16) ∈ 0 :: before := by rw [hfront]; simp
    exact (List.mem_cons.mp hmem).imp_right (List.mem_append_left after)
  have hin {y : ℕ} (hy : y ∈ before ++ after) : y ∈ chain (classOf s) := by
    rw [hchain]
    rw [List.mem_append] at hy ⊢
    exact hy.imp_right (List.mem_cons_of_mem b)
  have hnext := hnextAfter.imp_right hin
  have hprev := hprevBefore.imp_right hin
  have hlinks {y : ℕ} (hy : y % 16 = 0) (hpos : y ≠ 0) :=
    unlinkNode_links hb16 (hl.aligned hrange hnext) (hl.aligned hrange hprev) hy hpos
  have hkept : (unlinkNode h b).mem (b + 24) = h.mem (b + 24) := by
    rw [(hlinks hb16 hbpos.ne').1, ite_self]
  obtain ⟨hmatrix, hslbitmap, hflbitmap, hfreeSize⟩ := unlinkNode_fields (h := h) (b := b)
  set g : Heap := { unlinkNode h b with freeSize := (unlinkNode h b).freeSize - s } with hg
  have hresult : removeHeader h b fl sl = .ok (dropFirst g b (classOf s).1 (classOf s).2) := by
    simp only [removeHeader, hsize, hslot, bind, Except.bind, if_neg hspos.ne', pure, Except.pure, hg]
  set chain' := Function.update chain (classOf s) (before ++ after) with hchain'
  have hself : chain' (classOf s) = before ++ after := Function.update_self ..
  have hother : ∀ d, d ≠ classOf s → chain' d = chain d := fun d hd ↦ Function.update_of_ne hd ..
  have hlinked : ∀ c, InRange c → NullList 0
      (fun x ↦ (dropFirst g b (classOf s).1 (classOf s).2).mem (x + 24))
      (fun x ↦ (dropFirst g b (classOf s).1 (classOf s).2).mem (x + 16)) (chain' c) := by
    rw [dropFirst_mem.1]
    exact fun c hc ↦ hl.linked_unlinked hchain hc hnext hprev
  have htotal : (dropFirst g b (classOf s).1 (classOf s).2).freeSize = (free.map Prod.snd).sum := by
    rw [dropFirst_mem.2]
    show (unlinkNode h b).freeSize - s = _
    rw [hfreeSize, hl.total, List.map_cons, List.sum_cons, Nat.add_sub_cancel_left]
  have hmemIff : ∀ c, InRange c → ∀ x, x ∈ chain' c ↔ ∃ s, (x, s) ∈ free ∧ classOf s = c :=
    fun c hc x ↦ hl.mem_unlinked hchain hc x
  have hnodup := (List.nodup_cons.mp hl.nodup).2
  have hsized : ∀ p ∈ free, p.1 % 16 = 0 ∧ 0 < p.1 ∧ 0 < p.2 ∧ p.2 < 2 ^ 30 :=
    fun p hp ↦ hl.sized p (List.mem_cons_of_mem _ hp)
  refine ⟨_, chain', hresult, ?_, ?_⟩
  · have hlistNe : chain (classOf s) ≠ [] := by
      rw [hchain]
      simp
    cases before with
    | nil =>
      have hfirst : g.matrix (classOf s) = b := by
        show (unlinkNode h b).matrix _ = b
        rw [hmatrix, hl.first _ hrange, hchain]
        rfl
      have hfl : (classOf s).1 < 32 := hrange.1.trans (by omega)
      have hdropped := dropFirst_dropped hfl hrange.2 hfirst
      have hgnext : g.mem (b + 24) = after.headD 0 := hkept.trans hlist.next_eq
      rw [hgnext] at hdropped
      have hempty : after.headD 0 = 0 ↔ chain' (classOf s) = [] := by
        rw [hself, List.nil_append]
        cases after with
        | nil => simp
        | cons x rest =>
          have hx : x ≠ 0 := fun hzero ↦ hlist.null_notMem (by simp [hzero])
          simp [hx]
      obtain ⟨hslbits, hflbits⟩ := hdropped.bits hrange
        (fun d hd ↦ hslbitmap ▸ hl.slbitmap d hd) (fun fl ↦ hflbitmap ▸ hl.flbitmap fl) hother hlistNe
        hempty
      refine ⟨hlinked, fun d hd ↦ ?_, hmemIff, hslbits, hflbits, hnodup, hsized, htotal⟩
      rw [hdropped.matrix]
      by_cases hds : d = classOf s
      · rw [hds, hself]
        exact Function.update_self ..
      · rw [hother d hds, ← hl.first d hd, ← hmatrix]
        exact Function.update_of_ne hds ..
    | cons x rest =>
      have hfirst : g.matrix (classOf s) ≠ b := by
        show (unlinkNode h b).matrix _ ≠ b
        rw [hmatrix, hl.first _ hrange, hchain]
        intro hx
        have hxb : x = b := hx
        have hnodup := hlist.nodup
        rw [List.cons_append, List.nodup_cons, hxb] at hnodup
        exact hnodup.1 (by simp)
      have hsame : dropFirst g b (classOf s).1 (classOf s).2 = g := dropFirst_of_ne hfirst
      have hheads : ∀ d, (chain' d).headD 0 = (chain d).headD 0 ∧ (chain' d ≠ [] ↔ chain d ≠ []) := by
        intro d
        by_cases hds : d = classOf s
        · rw [hds, hself, hchain]
          simp
        · rw [hother d hds]
          exact ⟨rfl, Iff.rfl⟩
      rw [hsame] at hlinked htotal ⊢
      refine ⟨hlinked, fun d hd ↦ ?_, hmemIff, fun d hd ↦ ?_, fun fl ↦ ?_, hnodup, hsized, htotal⟩
      · exact (congrFun hmatrix d).trans ((hl.first d hd).trans (hheads d).1.symm)
      · rw [(hheads d).2, ← hl.slbitmap d hd, ← hslbitmap]
      · rw [show g.flbitmap = h.flbitmap from hflbitmap, hl.flbitmap fl]
        exact exists_congr fun sl ↦ and_congr_right fun _ ↦ ((hheads _).2).symm
  · intro z hz
    have hnot {y : ℕ} (hy : y = 0 ∨ y ∈ before ++ after) (hpos : y ≠ 0) : z ≠ y + 16 ∧ z ≠ y + 24 := by
      have hmem : y ∈ chain' (classOf s) := hself ▸ hy.resolve_left hpos
      obtain ⟨s', hs', -⟩ := (hmemIff _ hrange y).mp hmem
      exact hz _ hs'
    rw [dropFirst_mem.1]
    show (unlinkNode h b).mem z = h.mem z
    rw [unlinkNode_mem hb16 (hl.aligned hrange hnext),
      if_neg fun hall ↦ (hnot hprevBefore hall.1).2 hall.2,
      if_neg fun hall ↦ (hnot hnextAfter hall.1).1 hall.2]

/-! ### Putting a block into its list -/

theorem linkFirst_mem (fl sl z : ℕ) : (linkFirst h b fl sl).mem z =
    if h.matrix (fl, sl) ≠ 0 ∧ z = h.matrix (fl, sl) + 16 then b
    else if z = b + 24 then h.matrix (fl, sl) else if z = b + 16 then 0 else h.mem z := by
  unfold linkFirst Heap.write
  by_cases hempty : h.matrix (fl, sl) = 0 <;> simp [hempty, Function.update_apply]

theorem linkFirst_fields (h : Heap) (b fl sl : ℕ) :
    (linkFirst h b fl sl).matrix = Function.update h.matrix (fl, sl) b ∧
    (linkFirst h b fl sl).flbitmap = h.flbitmap ||| 1#32 <<< fl ∧
    (linkFirst h b fl sl).slbitmap =
      Function.update h.slbitmap fl (h.slbitmap fl ||| 1#32 <<< sl) ∧
    (linkFirst h b fl sl).freeSize = h.freeSize := by
  unfold linkFirst Heap.write
  dsimp only
  split_ifs <;> exact ⟨rfl, rfl, rfl, rfl⟩

theorem Listed.linked_pushed (hl : Listed h chain free) (hb : b % 16 = 0) (hbpos : 0 < b)
    (hnew : b ∉ free.map Prod.fst) (hrange : InRange c) {d : ℕ × ℕ} (hd : InRange d) :
    NullList 0 (fun x ↦ (linkFirst h b c.1 c.2).mem (x + 24))
      (fun x ↦ (linkFirst h b c.1 c.2).mem (x + 16)) (Function.update chain c (b :: chain c) d) := by
  have hheadMem : h.matrix c = 0 ∨ h.matrix c ∈ chain c := by
    rw [hl.first _ hrange]
    cases chain c with
    | nil => exact .inl rfl
    | cons x rest => exact .inr (by simp)
  have hhead16 := hl.aligned hrange hheadMem
  have hnotIn {d : ℕ × ℕ} (hd : InRange d) : b ∉ chain d := by
    intro hmem
    obtain ⟨s', hs', -⟩ := (hl.mem_iff d hd b).mp hmem
    exact hnew (List.mem_map.mpr ⟨_, hs', rfl⟩)
  have hheadNe : h.matrix c ≠ b := by
    intro heq
    rcases hheadMem with hzero | hmem
    · exact hbpos.ne' (heq.symm.trans hzero)
    · exact hnotIn hrange (heq ▸ hmem)
  have hmem (z : ℕ) := linkFirst_mem (h := h) (b := b) c.1 c.2 z
  simp only [Prod.mk.eta] at hmem
  have hnextOf {d : ℕ × ℕ} (hd : InRange d) {y : ℕ} (hy : y ∈ chain d) :
      (linkFirst h b c.1 c.2).mem (y + 24) = h.mem (y + 24) := by
    have hy16 := hl.aligned hd (.inr hy)
    have hyb : y ≠ b := fun heq ↦ hnotIn hd (heq ▸ hy)
    rw [hmem, if_neg (by omega), if_neg (by omega), if_neg (by omega)]
  have hprevOf {d : ℕ × ℕ} (hd : InRange d) {y : ℕ} (hy : y ∈ chain d) :
      (linkFirst h b c.1 c.2).mem (y + 16) = if y = h.matrix c then b else h.mem (y + 16) := by
    have hy16 := hl.aligned hd (.inr hy)
    have hyb : y ≠ b := fun heq ↦ hnotIn hd (heq ▸ hy)
    have hy0 : y ≠ 0 := fun hzero ↦ (hl.linked d hd).null_notMem (hzero ▸ hy)
    rw [hmem, if_neg (show ¬ y + 16 = b + 24 by omega), if_neg (show ¬ y + 16 = b + 16 by omega)]
    exact if_congr ⟨fun hz ↦ by omega, fun hz ↦ ⟨by omega, by omega⟩⟩ rfl rfl
  by_cases hdc : d = c
  · subst hdc
    rw [Function.update_self]
    refine (hl.linked d hd).push (hnotIn hd) hbpos.ne' ?_ ?_ (fun y hy ↦ hnextOf hd hy) fun y hy ↦ ?_
    · rw [hmem, if_neg (by omega), if_pos rfl, hl.first d hd]
    · rw [hmem, if_neg (by omega), if_neg (by omega), if_pos rfl]
    · rw [hprevOf hd hy, hl.first d hd]
  · rw [Function.update_of_ne hdc]
    refine (hl.linked d hd).congr (fun y hy ↦ hnextOf hd hy) fun y hy ↦ ?_
    rw [hprevOf hd hy, if_neg]
    rintro rfl
    have hin := hheadMem.resolve_left fun hzero ↦ (hl.linked d hd).null_notMem (hzero ▸ hy)
    obtain ⟨s₁, hs₁, hclass₁⟩ := (hl.mem_iff d hd _).mp hy
    obtain ⟨s₂, hs₂, hclass₂⟩ := (hl.mem_iff c hrange _).mp hin
    rw [hl.size_unique hs₁ hs₂] at hclass₁
    exact hdc (hclass₁.symm.trans hclass₂)

/-- A block put into its list. -/
theorem Listed.insert (hl : Listed h chain free) (hsize : getSize h b = .ok s) (hb : b % 16 = 0)
    (hbpos : 0 < b) (hspos : 0 < s) (hs : s < 2 ^ 30) (hnew : b ∉ free.map Prod.fst) :
    ∃ h' chain', insertFreeBlock h b = .ok h' ∧ Listed h' chain' ((b, s) :: free) ∧
      LinksOnly ((b, s) :: free) h.mem h'.mem := by
  have hrange : InRange (classOf s) := classOf_inRange hs
  set g : Heap := { h with freeSize := h.freeSize + s } with hg
  have hresult : insertFreeBlock h b = .ok (linkFirst g b (classOf s).1 (classOf s).2) := by
    simp only [insertFreeBlock, hsize, slot_mappingInsert hs, bind, Except.bind, if_neg hspos.ne', pure,
      Except.pure, hg]
  obtain ⟨hmatrix, hflbitmap, hslbitmap, hfreeSize⟩ :=
    linkFirst_fields g b (classOf s).1 (classOf s).2
  set chain' := Function.update chain (classOf s) (b :: chain (classOf s)) with hchain'
  have hself : chain' (classOf s) = b :: chain (classOf s) := Function.update_self ..
  have hother : ∀ d, d ≠ classOf s → chain' d = chain d := fun d hd ↦ Function.update_of_ne hd ..
  have hheadMem : h.matrix (classOf s) = 0 ∨ ∃ p ∈ free, p.1 = h.matrix (classOf s) := by
    rw [hl.first _ hrange]
    cases hlist : chain (classOf s) with
    | nil => exact .inl rfl
    | cons x rest =>
      obtain ⟨s', hs', -⟩ := (hl.mem_iff _ hrange x).mp (hlist ▸ List.mem_cons_self)
      exact .inr ⟨_, hs', rfl⟩
  refine ⟨_, chain', hresult, ?_, fun z hz ↦ ?_⟩
  · refine ⟨fun d hd ↦ ?_, fun d hd ↦ ?_, fun d hd x ↦ ?_, fun d hd ↦ ?_, fun f ↦ ?_, ?_, ?_, ?_⟩
    · have hsame : (linkFirst g b (classOf s).1 (classOf s).2).mem =
          (linkFirst h b (classOf s).1 (classOf s).2).mem := by
        funext z
        rw [linkFirst_mem, linkFirst_mem]
      rw [hsame]
      exact hl.linked_pushed hb hbpos hnew hrange hd
    · rw [hmatrix]
      by_cases hds : d = classOf s
      · rw [hds, hself]
        exact Function.update_self ..
      · rw [hother d hds, ← hl.first d hd]
        exact Function.update_of_ne hds ..
    · by_cases hds : d = classOf s
      · rw [hds, hself, List.mem_cons, hl.mem_iff _ hrange x]
        constructor
        · rintro (rfl | ⟨s', hs', hclass⟩)
          · exact ⟨s, List.mem_cons_self, rfl⟩
          · exact ⟨s', List.mem_cons_of_mem _ hs', hclass⟩
        · rintro ⟨s', hs', hclass⟩
          rcases List.mem_cons.mp hs' with heq | hold
          · exact .inl (Prod.mk.inj heq).1
          · exact .inr ⟨s', hold, hclass⟩
      · rw [hother d hds, hl.mem_iff d hd x]
        refine exists_congr fun s' ↦ and_congr_left fun hclass ↦ ?_
        rw [List.mem_cons]
        refine (or_iff_right fun heq ↦ hds ?_).symm
        rw [← hclass, (Prod.mk.inj heq).2]
    · rw [hslbitmap]
      by_cases hds : d = classOf s
      · rw [hds, hself, Function.update_self, getLsbD_setBit _ hrange.2]
        simp
      · rw [hother d hds, ← hl.slbitmap d hd]
        by_cases hfl : d.1 = (classOf s).1
        · have hsl : d.2 ≠ (classOf s).2 := fun heq ↦ hds (Prod.ext hfl heq)
          rw [hfl, Function.update_self, getLsbD_setBit _ hrange.2, decide_eq_false hsl, Bool.or_false]
        · rw [Function.update_of_ne hfl]
    · rw [hflbitmap, getLsbD_setBit _ (hrange.1.trans (by omega)), Bool.or_eq_true, decide_eq_true_iff]
      show h.flbitmap.getLsbD f = true ∨ _ ↔ _
      rw [hl.flbitmap f]
      constructor
      · rintro (⟨sl, hsl, hne⟩ | rfl)
        · refine ⟨sl, hsl, ?_⟩
          by_cases hds : (f, sl) = classOf s
          · rw [hds, hself]
            exact List.cons_ne_nil _ _
          · rw [hother _ hds]
            exact hne
        · exact ⟨(classOf s).2, hrange, hself ▸ List.cons_ne_nil _ _⟩
      · rintro ⟨sl, hsl, hne⟩
        by_cases hds : (f, sl) = classOf s
        · exact .inr (congrArg Prod.fst hds)
        · exact .inl ⟨sl, hsl, hother _ hds ▸ hne⟩
    · rw [List.map_cons, List.nodup_cons]
      exact ⟨hnew, hl.nodup⟩
    · rintro p hp
      rcases List.mem_cons.mp hp with rfl | hp
      · exact ⟨hb, hbpos, hspos, hs⟩
      · exact hl.sized p hp
    · rw [hfreeSize, List.map_cons, List.sum_cons, ← hl.total, Nat.add_comm]
  · rw [linkFirst_mem]
    have hself := hz _ List.mem_cons_self
    have hhead : ¬ (h.matrix (classOf s) ≠ 0 ∧ z = h.matrix (classOf s) + 16) := by
      rintro ⟨hne, rfl⟩
      obtain ⟨p, hp, heq⟩ := hheadMem.resolve_left hne
      exact (hz p (List.mem_cons_of_mem _ hp)).1 (by rw [heq])
    rw [if_neg hhead, if_neg hself.2, if_neg hself.1]

end Emu68.Tlsf
