import Emu68.Lib.BitFields
import Emu68.Mmu.Tables

/-!
What a translation depends on: the entries on its path, one for each level, and of these the address
field and the attributes.
-/

set_option autoImplicit false
set_option relaxedAutoImplicit false

namespace Emu68.Mmu

open Lib (field fieldMask toNat_and_field toNat_and_fields)

variable {s s' : State} {a : Address} {e : Entry} {p : Address}

/-! ### Addresses -/

/-- An address of one of the two 39-bit spaces. -/
def Valid (a : Address) : Prop := a.toNat < 2 ^ 39 ∨ 2 ^ 64 - 2 ^ 39 ≤ a.toNat

theorem isKernel_iff : isKernel a ↔ 2 ^ 48 ≤ a.toNat := by
  have hfield := toNat_and_field 48 16 (m := (0xffff000000000000 : Address)) (by decide) a
  have hlt := a.isLt
  unfold isKernel field at *
  rw [ne_eq, ← BitVec.toNat_inj, hfield]
  show ¬_ = 0 ↔ _
  omega

theorem idxL1_eq : idxL1 a = a.toNat / 2 ^ 30 % 512 := by
  rw [idxL1, toNat_and_field 0 9 (by decide), BitVec.toNat_ushiftRight,
    Nat.shiftRight_eq_div_pow]
  simp [field]

theorem idxL2_eq : idxL2 a = a.toNat / 2 ^ 21 % 512 := by
  rw [idxL2, toNat_and_field 0 9 (by decide), BitVec.toNat_ushiftRight,
    Nat.shiftRight_eq_div_pow]
  simp [field]

theorem idxL3_eq : idxL3 a = a.toNat / 2 ^ 12 % 512 := by
  rw [idxL3, toNat_and_field 0 9 (by decide), BitVec.toNat_ushiftRight,
    Nat.shiftRight_eq_div_pow]
  simp [field]

/-! ### Entries -/

abbrev Empty (e : Entry) : Prop := e &&& 3 = 0

abbrev Block (e : Entry) : Prop := e &&& 3 = 1

abbrev Table (e : Entry) : Prop := e &&& 3 = 3

/-- A block whose split keeps all of it: no upper attribute, and an address below 512 GiB. -/
def Clean (e : Entry) : Prop := e.toNat < 2 ^ 39

/-- A page that a table entry can point to. -/
def Aligned (p : Address) : Prop := p &&& 0x7ffffff000 = p

theorem toNat_kind : (e &&& 3).toNat = e.toNat % 4 := by
  rw [toNat_and_field 0 2 (by decide)]
  simp [field]

theorem toNat_bit0 : (e &&& 1).toNat = e.toNat % 2 := by
  rw [toNat_and_field 0 1 (by decide)]
  simp [field]

theorem toNat_bit1 : (e &&& 2).toNat = e.toNat / 2 % 2 * 2 := by
  rw [toNat_and_field 1 1 (by decide)]
  simp [field]

theorem empty_iff : Empty e ↔ e.toNat % 4 = 0 := by
  rw [Empty, ← BitVec.toNat_inj, toNat_kind]
  rfl

theorem block_iff : Block e ↔ e.toNat % 4 = 1 := by
  rw [Block, ← BitVec.toNat_inj, toNat_kind]
  rfl

theorem table_iff : Table e ↔ e.toNat % 4 = 3 := by
  rw [Table, ← BitVec.toNat_inj, toNat_kind]
  rfl

theorem not_block (h : Table e) : ¬Block e := by
  intro hblock
  rw [Block, h] at hblock
  cases hblock

theorem not_table_of_empty (h : Empty e) : ¬Table e := by
  intro htable
  rw [Table, h] at htable
  cases htable

theorem not_block_of_empty (h : Empty e) : ¬Block e := by
  intro hblock
  rw [Block, h] at hblock
  cases hblock

theorem bit0_iff : e &&& 1 ≠ 0 ↔ e.toNat % 2 = 1 := by
  rw [ne_eq, ← BitVec.toNat_inj, toNat_bit0]
  show ¬_ = 0 ↔ _
  omega

theorem bit1_iff : e &&& 2 ≠ 0 ↔ e.toNat / 2 % 2 = 1 := by
  rw [ne_eq, ← BitVec.toNat_inj, toNat_bit1]
  show ¬_ = 0 ↔ _
  omega

theorem Aligned.toNat (h : Aligned p) : p.toNat % 2 ^ 12 = 0 ∧ p.toNat < 2 ^ 39 := by
  have hfield := toNat_and_field 12 27 (m := (0x7ffffff000 : Address)) (by decide) p
  have heq : p &&& 0x7ffffff000 = p := h
  rw [heq, field] at hfield
  omega

theorem Aligned.table (h : Aligned p) : Table (3 ||| p) := by
  obtain ⟨hlow, -⟩ := h.toNat
  rw [table_iff, BitVec.or_comm, Lib.toNat_or_eq_add (k := 2) (by omega) (by decide)]
  show (p.toNat + 3) % 4 = 3
  omega

/-- Both masks give the page back. -/
theorem Aligned.link (h : Aligned p) :
    (3 ||| p) &&& 0x0000fffffffff000 = p ∧ (3 ||| p) &&& 0x7ffffff000 = p := by
  obtain ⟨hlow, hlt⟩ := h.toNat
  have hsum : (3 ||| p).toNat = p.toNat + 3 := by
    rw [BitVec.or_comm, Lib.toNat_or_eq_add (k := 2) (by omega) (by decide)]
    rfl
  constructor
  · rw [← BitVec.toNat_inj, toNat_and_field 12 36 (by decide), hsum, field]
    omega
  · rw [← BitVec.toNat_inj, toNat_and_field 12 27 (by decide), hsum, field]
    omega

/-! ### What is seen at an address -/

/-- All bits that are neither the address nor the type. -/
def attributes (e : Entry) : Entry := e &&& 0xffff000000000ffc

theorem toNat_attributes :
    (attributes e).toNat = e.toNat / 2 ^ 48 * 2 ^ 48 + e.toNat % 2 ^ 12 / 4 * 4 := by
  have hlt := e.isLt
  rw [attributes, toNat_and_fields 48 16 2 10 (by decide)
    (by decide), field, field]
  omega

/-- The translation, and the attributes of the leaf. -/
def view (s : State) (a : Address) : Address × Option Entry :=
  (mmuVirt2phys s a, (leafEntry s a).map attributes)

def entry1 (s : State) (a : Address) : Entry := s.pages (rootOf s a) (idxL1 a)

def entry2 (s : State) (a : Address) : Entry :=
  s.pages (entry1 s a &&& 0x0000fffffffff000) (idxL2 a)

def entry3 (s : State) (a : Address) : Entry :=
  s.pages (entry2 s a &&& 0x0000fffffffff000) (idxL3 a)

theorem view_empty (h : Empty (entry1 s a)) : view s a = (-1, none) := by
  have hbit : ¬(entry1 s a &&& 1 ≠ 0) := by
    rw [bit0_iff]
    rw [empty_iff] at h
    omega
  simp only [entry1] at hbit
  simp only [view, mmuVirt2phys, leafEntry, hbit, if_false, Option.map_none]

theorem view_block (h : Block (entry1 s a)) :
    view s a = ((entry1 s a &&& 0xffffc0000000) + (a &&& 0x3fffffff),
      some (attributes (entry1 s a))) := by
  rw [block_iff] at h
  have hbit0 : entry1 s a &&& 1 ≠ 0 := by
    rw [bit0_iff]
    omega
  have hbit1 : ¬(entry1 s a &&& 2 ≠ 0) := by
    rw [bit1_iff]
    omega
  simp only [entry1] at hbit0 hbit1
  simp only [view, mmuVirt2phys, leafEntry, hbit0, hbit1, if_true, if_false, Option.map_some,
    ne_eq, not_false_eq_true, entry1]

theorem table_bits (h : Table e) : e &&& 1 ≠ 0 ∧ e &&& 2 ≠ 0 := by
  rw [table_iff] at h
  rw [bit0_iff, bit1_iff]
  omega

theorem view_empty2 (h : Table (entry1 s a)) (h₂ : Empty (entry2 s a)) :
    view s a = (-1, none) := by
  obtain ⟨hbit0, hbit1⟩ := table_bits h
  have hbit : ¬(entry2 s a &&& 1 ≠ 0) := by
    rw [bit0_iff]
    rw [empty_iff] at h₂
    omega
  simp only [entry2, entry1] at hbit0 hbit1 hbit
  simp only [view, mmuVirt2phys, leafEntry, hbit0, hbit1, hbit, if_true, if_false, Option.map_none,
    ne_eq, not_false_eq_true]

theorem view_block2 (h : Table (entry1 s a)) (h₂ : Block (entry2 s a)) :
    view s a = ((entry2 s a &&& 0xffffffe00000) + (a &&& 0x1fffff),
      some (attributes (entry2 s a))) := by
  obtain ⟨hbit0, hbit1⟩ := table_bits h
  rw [block_iff] at h₂
  have hbit0' : entry2 s a &&& 1 ≠ 0 := by
    rw [bit0_iff]
    omega
  have hbit1' : ¬(entry2 s a &&& 2 ≠ 0) := by
    rw [bit1_iff]
    omega
  simp only [entry2, entry1] at hbit0 hbit1 hbit0' hbit1'
  simp only [view, mmuVirt2phys, leafEntry, hbit0, hbit1, hbit0', hbit1', if_true, if_false,
    Option.map_some, ne_eq, not_false_eq_true, entry2, entry1]

theorem view_page (h : Table (entry1 s a)) (h₂ : Table (entry2 s a)) (h₃ : Table (entry3 s a)) :
    view s a = ((entry3 s a &&& 0xfffffffff000) + (a &&& 0xfff),
      some (attributes (entry3 s a))) := by
  obtain ⟨hbit0, hbit1⟩ := table_bits h
  obtain ⟨hbit0', hbit1'⟩ := table_bits h₂
  simp only [Table, entry3, entry2, entry1] at hbit0 hbit1 hbit0' hbit1' h₃
  simp only [view, mmuVirt2phys, leafEntry, hbit0, hbit1, hbit0', hbit1', h₃, if_true, ne_eq,
    not_false_eq_true, Option.map_some, entry3, entry2, entry1]

theorem view_no_page (h : Table (entry1 s a)) (h₂ : Table (entry2 s a))
    (h₃ : ¬Table (entry3 s a)) : view s a = (-1, none) := by
  obtain ⟨hbit0, hbit1⟩ := table_bits h
  obtain ⟨hbit0', hbit1'⟩ := table_bits h₂
  simp only [Table, entry3, entry2, entry1] at hbit0 hbit1 hbit0' hbit1' h₃
  simp only [view, mmuVirt2phys, leafEntry, hbit0, hbit1, hbit0', hbit1', h₃, if_true, if_false,
    ne_eq, not_false_eq_true, Option.map_none]

/-- What the code writes into tables that have tables below them. -/
def Kind (e : Entry) : Prop := Empty e ∨ Block e ∨ Table e

/-- The view depends on the entries of the path only. -/
theorem view_congr (h₁ : entry1 s' a = entry1 s a)
    (h₂ : Table (entry1 s a) → entry2 s' a = entry2 s a)
    (h₃ : Table (entry1 s a) → Table (entry2 s a) → entry3 s' a = entry3 s a)
    (hkind : Kind (entry1 s a)) (hkind₂ : Table (entry1 s a) → Kind (entry2 s a)) :
    view s' a = view s a := by
  rcases hkind with hempty | hblock | htable
  · rw [view_empty hempty, view_empty (h₁ ▸ hempty)]
  · rw [view_block hblock, view_block (h₁ ▸ hblock), h₁]
  · have htable' : Table (entry1 s' a) := h₁ ▸ htable
    have heq₂ := h₂ htable
    rcases hkind₂ htable with hempty | hblock | htable₂
    · rw [view_empty2 htable hempty, view_empty2 htable' (heq₂ ▸ hempty)]
    · rw [view_block2 htable hblock, view_block2 htable' (heq₂ ▸ hblock), heq₂]
    · have htable₂' : Table (entry2 s' a) := heq₂ ▸ htable₂
      have heq₃ := h₃ htable htable₂
      by_cases hpage : Table (entry3 s a)
      · rw [view_page htable htable₂ hpage, view_page htable' htable₂' (heq₃ ▸ hpage), heq₃]
      · rw [view_no_page htable htable₂ hpage, view_no_page htable' htable₂' (heq₃ ▸ hpage)]

/-! ### Splitting a block -/

/-- An entry of the directory that replaces a 1 GiB block. -/
def splitEntry (e : Entry) (i : ℕ) : Entry := (e &&& 0x7fc0000fff#64) + BitVec.ofNat 64 (i <<< 21)

/-- An entry of the page table that replaces a 2 MiB block. -/
def splitPage (e : Entry) (i : ℕ) : Entry :=
  3#64 ||| ((e &&& 0x7fffe00fff#64) + BitVec.ofNat 64 (i <<< 12))

theorem toNat_splitEntry {i : ℕ} (hi : i < 512) :
    (splitEntry e i).toNat = e.toNat / 2 ^ 30 % 2 ^ 9 * 2 ^ 30 + i * 2 ^ 21 + e.toNat % 2 ^ 12 := by
  rw [splitEntry, BitVec.toNat_add, toNat_and_fields 30 9 0 12 (by decide) (by decide),
    BitVec.toNat_ofNat, Nat.shiftLeft_eq, field, field]
  omega

theorem or_three (x : ℕ) : 3 ||| x = x / 4 * 4 + 3 := by
  have hparts : x / 4 * 4 ||| x % 4 = x := by
    have hadd : x / 4 * 4 ||| x % 4 = x / 4 * 4 + x % 4 :=
      Lib.or_eq_add (k := 2) (Nat.dvd_mul_left _ _) (Nat.mod_lt _ (by decide))
    omega
  have hlow : ∀ y < 4, y ||| 3 = 3 := by decide
  rw [Nat.or_comm]
  conv_lhs => rw [← hparts]
  rw [Nat.or_assoc, hlow _ (Nat.mod_lt _ (by decide)), Lib.or_eq_add (k := 2)]
  · exact Nat.dvd_mul_left _ _
  · decide

theorem toNat_splitPage {i : ℕ} (hi : i < 512) :
    (splitPage e i).toNat =
      e.toNat / 2 ^ 21 % 2 ^ 18 * 2 ^ 21 + i * 2 ^ 12 + e.toNat % 2 ^ 12 / 4 * 4 + 3 := by
  have hthree : (3#64).toNat = 3 := rfl
  rw [splitPage, BitVec.toNat_or, hthree, or_three, BitVec.toNat_add,
    toNat_and_fields 21 18 0 12 (by decide) (by decide), BitVec.toNat_ofNat, Nat.shiftLeft_eq,
    field, field]
  omega

theorem block_splitEntry {i : ℕ} (hi : i < 512) (h : Block e) : Block (splitEntry e i) := by
  rw [block_iff] at *
  rw [toNat_splitEntry hi]
  omega

theorem clean_splitEntry {i : ℕ} (hi : i < 512) : Clean (splitEntry e i) := by
  rw [Clean, toNat_splitEntry hi]
  omega

theorem table_splitPage {i : ℕ} (hi : i < 512) : Table (splitPage e i) := by
  rw [table_iff, toNat_splitPage hi]
  omega

/-- A clean 1 GiB block and its pieces are seen alike. -/
theorem seen_splitEntry (h : Clean e) (a : Address) :
    (splitEntry e (idxL2 a) &&& 0xffffffe00000) + (a &&& 0x1fffff) =
        (e &&& 0xffffc0000000) + (a &&& 0x3fffffff) ∧
      attributes (splitEntry e (idxL2 a)) = attributes e := by
  have hi : idxL2 a < 512 := by
    rw [idxL2_eq]
    exact Nat.mod_lt _ (by decide)
  unfold Clean at h
  constructor
  · rw [← BitVec.toNat_inj, BitVec.toNat_add, BitVec.toNat_add,
      toNat_and_field 21 27 (by decide), toNat_and_field 0 21 (by decide),
      toNat_and_field 30 18 (by decide), toNat_and_field 0 30 (by decide), toNat_splitEntry hi,
      idxL2_eq, field, field, field, field]
    omega
  · rw [← BitVec.toNat_inj, toNat_attributes, toNat_attributes, toNat_splitEntry hi]
    omega

theorem seen_splitPage (h : Clean e) (a : Address) :
    (splitPage e (idxL3 a) &&& 0xfffffffff000) + (a &&& 0xfff) =
        (e &&& 0xffffffe00000) + (a &&& 0x1fffff) ∧
      attributes (splitPage e (idxL3 a)) = attributes e := by
  have hi : idxL3 a < 512 := by
    rw [idxL3_eq]
    exact Nat.mod_lt _ (by decide)
  unfold Clean at h
  constructor
  · rw [← BitVec.toNat_inj, BitVec.toNat_add, BitVec.toNat_add,
      toNat_and_field 12 36 (by decide), toNat_and_field 0 12 (by decide),
      toNat_and_field 21 27 (by decide), toNat_and_field 0 21 (by decide), toNat_splitPage hi,
      idxL3_eq, field, field, field, field]
    omega
  · rw [← BitVec.toNat_inj, toNat_attributes, toNat_attributes, toNat_splitPage hi]
    omega

end Emu68.Mmu
