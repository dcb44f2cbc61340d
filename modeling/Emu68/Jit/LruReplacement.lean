import Emu68.Jit.IndexInvariant
import Emu68.Lib.Transition
import Mathlib.Tactic.IntervalCases

/-!
The replacement of entries in `LRU_cache`. The highest bits of `LRU_alloc[set]`, one for each way,
mark the ways that may be replaced; a way that is hit or filled loses its mark, and when no mark is
left all other ways get theirs back. The functions run in any order, and a run keeps record of the
way of each set that was hit or filled last.
-/

set_option autoImplicit false
set_option relaxedAutoImplicit false

namespace Emu68.Jit

open Lib

/-! ### Invalidation of single entries -/

/-- `LRU_InvalidateByARMAddress`: the first entry of the code. -/
def lruInvalidateByARMAddress (s : JitState) (addr : Option ArmPtr) : JitState :=
  match (List.range (lruSetCount * lruWayCount)).find? fun i ↦ (s.lruCache i).arm = addr with
  | some i => { s with lruCache := Function.update s.lruCache i ⟨0xffffffff, none⟩ }
  | none => s

/-- `LRU_InvalidateByM68kAddress`: the first entry of the address in its set. -/
def lruInvalidateByM68kAddress (s : JitState) (addr : UInt32) : JitState :=
  let set := addr2Set addr
  match findWay s addr with
  | some i =>
    { s with
      lruCache := Function.update s.lruCache (set * lruWayCount + i) ⟨0xffffffff, none⟩
      lruAlloc := Function.update s.lruAlloc set (s.lruAlloc set ||| wayMask i) }
  | none => s

/-! ### Runs -/

/-- The state of the program, and for each set the way that was hit or filled last. -/
structure LruRun where
  jit : JitState
  last : ℕ → Option ℕ

inductive LruOp where
  | insertBlock (unit : UnitHead)
  | findBlock (address : UInt32)
  | invalidateAll
  | invalidateByARMAddress (addr : Option ArmPtr)
  | invalidateByM68kAddress (addr : UInt32)

def lruStep (r : LruRun) : LruOp → Option LruRun
  | .insertBlock unit =>
    let set := addr2Set unit.mtM68kAddress
    (lruInsertBlock r.jit unit).map fun s ↦
      ⟨s, Function.update r.last set (some (clz (r.jit.lruAlloc set)))⟩
  | .findBlock address =>
    match findWay r.jit address with
    | some i =>
      some ⟨(lruFindBlock r.jit address).1, Function.update r.last (addr2Set address) (some i)⟩
    | none => some r
  | .invalidateAll => some { r with jit := lruInvalidateAll r.jit }
  | .invalidateByARMAddress addr =>
    some { r with jit := lruInvalidateByARMAddress r.jit addr }
  | .invalidateByM68kAddress addr =>
    some { r with jit := lruInvalidateByM68kAddress r.jit addr }

/-- What the callers look up is inserted only after the look-up has failed. -/
def LruOp.AfterMiss (r : LruRun) : LruOp → Prop
  | .insertBlock unit => findWay r.jit unit.mtM68kAddress = none
  | _ => True

/-- The main loop starts with `LRU_InvalidateAll`. -/
def lruStart (s : JitState) : LruRun := ⟨lruInvalidateAll s, fun _ ↦ none⟩

/-- Entry `way` of the set. -/
def JitState.entry (s : JitState) (set way : ℕ) : Entry := s.lruCache (set * lruWayCount + way)

def Entry.Valid (e : Entry) : Prop := e.m68k ≠ 0xffffffff

/-- What the look-up relies on. The units are those that may be inserted. -/
structure Replaces (r : LruRun) (insertable : UnitHead → Prop) : Prop where
  /-- No set holds an address twice. -/
  distinct : ∀ set < lruSetCount, ∀ way < lruWayCount, ∀ way' < lruWayCount,
    (r.jit.entry set way).Valid → (r.jit.entry set way).m68k = (r.jit.entry set way').m68k →
    way = way'
  /-- The index of the way to be replaced is in range. -/
  victim : ∀ set < lruSetCount, clz (r.jit.lruAlloc set) < lruWayCount
  /-- A unit is found right after it is inserted. -/
  found : ∀ unit, insertable unit → ∃ s', lruInsertBlock r.jit unit = some s' ∧
    (lruFindBlock s' unit.mtM68kAddress).2 = unit.mtARMEntryPoint
  /-- The entry that was hit or filled last is not the next one to be evicted. -/
  spared : ∀ set < lruSetCount, ∀ way, r.last set = some way → (r.jit.entry set way).Valid →
    clz (r.jit.lruAlloc set) ≠ way

/-! ### The age word -/

/-- The mark of a way. -/
def marked (x : UInt32) (way : ℕ) : Bool := x.toNat.testBit (31 - way)

/-- Some way is marked. -/
def HasVictim (x : UInt32) : Prop := x >>> 28 ≠ 0

variable {x : UInt32} {way way' : ℕ}

theorem shiftRight_toNat (x : UInt32) : (x >>> 28).toNat = x.toNat / 2 ^ 28 := by
  rw [UInt32.toNat_shiftRight, Nat.shiftRight_eq_div_pow]
  rfl

theorem hasVictim_iff : HasVictim x ↔ 2 ^ 28 ≤ x.toNat := by
  have hlt := x.toNat_lt
  rw [HasVictim, ne_eq, ← UInt32.toNat_inj, shiftRight_toNat]
  have hzero : (0 : UInt32).toNat = 0 := rfl
  omega

/-- The way that is replaced is the first one with a mark. -/
theorem HasVictim.clz (h : HasVictim x) :
    Jit.clz x < lruWayCount ∧ marked x (Jit.clz x) = true := by
  rw [hasVictim_iff] at h
  have hne : x.toNat ≠ 0 := by omega
  have hx : x ≠ 0 := by
    rintro rfl
    exact hne rfl
  have hlow : 28 ≤ x.toNat.log2 := (Nat.le_log2 hne).mpr h
  have hhigh : x.toNat.log2 < 32 := (Nat.log2_lt hne).mpr x.toNat_lt
  rw [marked, Jit.clz, if_neg hx, lruWayCount]
  refine ⟨by omega, ?_⟩
  rw [show 31 - (31 - x.toNat.log2) = x.toNat.log2 by omega]
  exact Nat.testBit_log2 hne

theorem hasVictim_of_marked (hway : way < lruWayCount) (h : marked x way = true) :
    HasVictim x := by
  rw [hasVictim_iff]
  have hge := Nat.ge_two_pow_of_testBit h
  refine le_trans (Nat.pow_le_pow_right (by decide) ?_) hge
  rw [lruWayCount] at hway
  omega

theorem marked_wayMask (hway : way < lruWayCount) (hway' : way' < lruWayCount) :
    marked (wayMask way) way' = decide (way' = way) := by
  rw [lruWayCount] at hway hway'
  interval_cases way <;> interval_cases way' <;> rfl

theorem marked_or (x y : UInt32) : marked (x ||| y) way = (marked x way || marked y way) := by
  rw [marked, UInt32.toNat_or, Nat.testBit_or, marked, marked]

theorem marked_and (x y : UInt32) : marked (x &&& y) way = (marked x way && marked y way) := by
  rw [marked, UInt32.toNat_and, Nat.testBit_and, marked, marked]

theorem marked_compl (hway : way < lruWayCount) (hway' : way' < lruWayCount) :
    marked (~~~wayMask way) way' = !decide (way' = way) := by
  rw [lruWayCount] at hway hway'
  interval_cases way <;> interval_cases way' <;> rfl

/-- A way that is touched loses its mark, and some way keeps one. -/
theorem touchWay_spec (x : UInt32) (hway : way < lruWayCount) :
    HasVictim (touchWay x way) ∧ marked (touchWay x way) way = false := by
  unfold touchWay
  dsimp only
  split_ifs with hnone
  · refine ⟨?_, by rw [marked_compl hway hway, decide_eq_true rfl, Bool.not_true]⟩
    -- another way than the touched one
    obtain ⟨other, hother, hne⟩ : ∃ other < lruWayCount, other ≠ way := by
      by_cases h0 : way = 0
      · exact ⟨1, by decide, by omega⟩
      · exact ⟨0, by decide, fun h ↦ h0 h.symm⟩
    refine hasVictim_of_marked hother ?_
    rw [marked_compl hway hother, decide_eq_false hne, Bool.not_false]
  · refine ⟨hnone, ?_⟩
    rw [marked_and, marked_compl hway hway, decide_eq_true rfl, Bool.not_true, Bool.and_false]

/-! ### The invariant -/

structure LruInv (r : LruRun) : Prop where
  victim : ∀ set < lruSetCount, HasVictim (r.jit.lruAlloc set)
  distinct : ∀ set < lruSetCount, ∀ way < lruWayCount, ∀ way' < lruWayCount,
    (r.jit.entry set way).Valid → (r.jit.entry set way).m68k = (r.jit.entry set way').m68k →
    way = way'
  last : ∀ set < lruSetCount, ∀ way, r.last set = some way → way < lruWayCount ∧
    (marked (r.jit.lruAlloc set) way = false ∨ ¬ (r.jit.entry set way).Valid)

variable {s s' : JitState} {set set' : ℕ} {r r' : LruRun}

theorem entry_ne (hway : way < lruWayCount) (hway' : way' < lruWayCount)
    (h : ¬ (set' = set ∧ way' = way)) : set' * lruWayCount + way' ≠ set * lruWayCount + way := by
  rw [lruWayCount] at *
  omega

/-- The ways of the set are searched from the first one on. -/
theorem findWay_some {address : UInt32} (h : findWay s address = some way) :
    way < lruWayCount ∧ (s.entry (addr2Set address) way).m68k = address ∧
      ∀ way' < way, (s.entry (addr2Set address) way').m68k ≠ address := by
  obtain ⟨hfound, hmem, hfirst⟩ := List.find?_range_eq_some.mp h
  rw [List.mem_range] at hmem
  refine ⟨hmem, of_decide_eq_true hfound, fun way' hway' ↦ ?_⟩
  have hnot := hfirst way' hway'
  rw [Bool.not_eq_true', decide_eq_false_iff_not] at hnot
  exact hnot

theorem findWay_none {address : UInt32} (h : findWay s address = none) (hway : way < lruWayCount) :
    (s.entry (addr2Set address) way).m68k ≠ address := by
  have hnot := List.find?_eq_none.mp h way (List.mem_range.mpr hway)
  exact fun heq ↦ hnot (decide_eq_true heq)

theorem lruStart_inv (s : JitState) : LruInv (lruStart s) where
  victim := fun set hset ↦ by
    have halloc : (lruStart s).jit.lruAlloc set = 0xffffffff := if_pos hset
    rw [halloc, hasVictim_iff]
    decide
  distinct := fun set hset way hway way' _ hvalid _ ↦ by
    have hentry : (lruStart s).jit.entry set way = ⟨0xffffffff, none⟩ := by
      refine if_pos ?_
      rw [lruWayCount, lruSetCount] at *
      omega
    rw [hentry] at hvalid
    exact absurd rfl hvalid
  last := fun _ _ _ hlast ↦ absurd hlast (Option.some_ne_none _).symm

/-- Entries are kept or invalidated, and a way loses its mark or keeps what it has, unless it is
invalidated. -/
theorem LruInv.weaken (h : LruInv r) (hlast : r'.last = r.last)
    (hentry : ∀ set < lruSetCount, ∀ way < lruWayCount,
      r'.jit.entry set way = r.jit.entry set way ∨ ¬ (r'.jit.entry set way).Valid)
    (hvictim : ∀ set < lruSetCount, HasVictim (r'.jit.lruAlloc set))
    (hmark : ∀ set < lruSetCount, ∀ way < lruWayCount, (r'.jit.entry set way).Valid →
      marked (r.jit.lruAlloc set) way = false → marked (r'.jit.lruAlloc set) way = false) :
    LruInv r' := by
  have hsame : ∀ set < lruSetCount, ∀ way < lruWayCount, (r'.jit.entry set way).Valid →
      r'.jit.entry set way = r.jit.entry set way :=
    fun set hset way hway hvalid ↦ (hentry set hset way hway).resolve_right (not_not_intro hvalid)
  refine ⟨hvictim, ?_, ?_⟩
  · intro set hset way hway way' hway' hvalid heq
    have hvalid' : (r'.jit.entry set way').Valid := by
      rw [Entry.Valid, ← heq]
      exact hvalid
    have hold := hsame set hset way hway hvalid
    have hold' := hsame set hset way' hway' hvalid'
    rw [hold] at hvalid
    rw [hold, hold'] at heq
    exact h.distinct set hset way hway way' hway' hvalid heq
  · intro set hset way hway
    rw [hlast] at hway
    obtain ⟨hlt, hcase⟩ := h.last set hset way hway
    refine ⟨hlt, ?_⟩
    by_cases hvalid : (r'.jit.entry set way).Valid
    · left
      refine hmark set hset way hlt hvalid (hcase.resolve_right (not_not_intro ?_))
      rw [← hsame set hset way hlt hvalid]
      exact hvalid
    · exact .inr hvalid

/-- A hit touches its way. -/
theorem LruInv.find (h : LruInv r) (address : UInt32)
    (hstep : lruStep r (.findBlock address) = some r') : LruInv r' := by
  unfold lruStep at hstep
  dsimp only at hstep
  cases hfind : findWay r.jit address with
  | none =>
    rw [hfind] at hstep
    cases hstep
    exact h
  | some i =>
    rw [hfind] at hstep
    obtain rfl := Option.some.inj hstep
    obtain ⟨hi, -, -⟩ := findWay_some hfind
    have htouch := touchWay_spec (r.jit.lruAlloc (addr2Set address)) hi
    have hjit : (lruFindBlock r.jit address).1 =
        { r.jit with
          lruAlloc := Function.update r.jit.lruAlloc (addr2Set address)
            (touchWay (r.jit.lruAlloc (addr2Set address)) i) } := by
      rw [lruFindBlock, hfind]
    rw [hjit]
    refine ⟨?_, h.distinct, ?_⟩
    · intro set hset
      dsimp only
      by_cases heq : set = addr2Set address
      · rw [heq, Function.update_self]
        exact htouch.1
      · rw [Function.update_of_ne heq]
        exact h.victim set hset
    · intro set hset way hlast
      dsimp only at hlast ⊢
      by_cases heq : set = addr2Set address
      · rw [heq, Function.update_self] at hlast
        obtain rfl := Option.some.inj hlast
        rw [heq, Function.update_self]
        exact ⟨hi, .inl htouch.2⟩
      · rw [Function.update_of_ne heq] at hlast ⊢
        exact h.last set hset way hlast

/-- What an insertion does: it fills the way that `clz` selects. -/
theorem lruInsertBlock_eq (h : LruInv r) (unit : UnitHead) :
    lruInsertBlock r.jit unit = some { r.jit with
      lruCache := Function.update r.jit.lruCache
        (addr2Set unit.mtM68kAddress * lruWayCount +
          clz (r.jit.lruAlloc (addr2Set unit.mtM68kAddress)))
        ⟨unit.mtM68kAddress, unit.mtARMEntryPoint⟩
      lruAlloc := Function.update r.jit.lruAlloc (addr2Set unit.mtM68kAddress)
        (touchWay (r.jit.lruAlloc (addr2Set unit.mtM68kAddress))
          (clz (r.jit.lruAlloc (addr2Set unit.mtM68kAddress)))) } := by
  have hset := addr2Set_lt unit.mtM68kAddress
  have hloc := (h.victim _ hset).clz.1
  rw [lruInsertBlock]
  refine if_pos ?_
  rw [lruWayCount] at *
  rw [lruSetCount] at *
  omega

/-- The entries after one of them is replaced. -/
theorem entry_update {e : Entry}
    (hcache : s'.lruCache = Function.update s.lruCache (set * lruWayCount + way) e)
    (hway : way < lruWayCount) (hway' : way' < lruWayCount) :
    s'.entry set' way' = if set' = set ∧ way' = way then e else s.entry set' way' := by
  rw [JitState.entry, hcache]
  split_ifs with hat
  · rw [hat.1, hat.2, Function.update_self]
  · rw [Function.update_of_ne (entry_ne hway hway' hat), JitState.entry]

theorem LruInv.insert (h : LruInv r) {unit : UnitHead}
    (hmiss : findWay r.jit unit.mtM68kAddress = none)
    (hstep : lruStep r (.insertBlock unit) = some r') : LruInv r' := by
  unfold lruStep at hstep
  dsimp only at hstep
  rw [lruInsertBlock_eq h unit, Option.map_some] at hstep
  have hset := addr2Set_lt unit.mtM68kAddress
  have habsent : ∀ way < lruWayCount,
      (r.jit.entry (addr2Set unit.mtM68kAddress) way).m68k ≠ unit.mtM68kAddress :=
    fun way hway ↦ findWay_none hmiss hway
  generalize addr2Set unit.mtM68kAddress = place at *
  obtain ⟨hloc, -⟩ := (h.victim place hset).clz
  have htouch := touchWay_spec (r.jit.lruAlloc place) hloc
  generalize clz (r.jit.lruAlloc place) = loc at *
  obtain rfl := Option.some.inj hstep
  have hentry : ∀ set way, way < lruWayCount → JitState.entry { r.jit with
      lruCache := Function.update r.jit.lruCache (place * lruWayCount + loc)
        ⟨unit.mtM68kAddress, unit.mtARMEntryPoint⟩
      lruAlloc := Function.update r.jit.lruAlloc place (touchWay (r.jit.lruAlloc place) loc) } set way =
      if set = place ∧ way = loc then ⟨unit.mtM68kAddress, unit.mtARMEntryPoint⟩
      else r.jit.entry set way := fun set way hway ↦ entry_update rfl hloc hway
  refine ⟨?_, ?_, ?_⟩
  · intro set hlt
    dsimp only
    by_cases heq : set = place
    · rw [heq, Function.update_self]
      exact htouch.1
    · rw [Function.update_of_ne heq]
      exact h.victim set hlt
  · intro set hlt way hway way' hway' hvalid heq
    rw [hentry set way hway] at hvalid heq
    rw [hentry set way' hway'] at heq
    split_ifs at hvalid heq with hat hat' hat'
    · exact hat.2.trans hat'.2.symm
    · rw [hat.1] at heq
      exact absurd heq.symm (habsent way' hway')
    · rw [hat'.1] at heq
      exact absurd heq (habsent way hway)
    · exact h.distinct set hlt way hway way' hway' hvalid heq
  · intro set hlt way hlast
    dsimp only at hlast
    by_cases heq : set = place
    · rw [heq, Function.update_self] at hlast
      obtain rfl := Option.some.inj hlast
      dsimp only
      rw [heq, Function.update_self]
      exact ⟨hloc, .inl htouch.2⟩
    · rw [Function.update_of_ne heq] at hlast
      obtain ⟨hway, hcase⟩ := h.last set hlt way hlast
      rw [hentry set way hway, if_neg fun hat ↦ heq hat.1]
      dsimp only
      rw [Function.update_of_ne heq]
      exact ⟨hway, hcase⟩

theorem LruInv.invalidateByARMAddress (h : LruInv r) (addr : Option ArmPtr) :
    LruInv { r with jit := lruInvalidateByARMAddress r.jit addr } := by
  unfold lruInvalidateByARMAddress
  split
  case h_1 i hfind =>
    refine h.weaken rfl ?_ h.victim fun set hset way hway _ hmark ↦ hmark
    intro set hset way hway
    by_cases hat : set * lruWayCount + way = i
    · right
      have hentry : JitState.entry { r.jit with
          lruCache := Function.update r.jit.lruCache i ⟨0xffffffff, none⟩ } set way =
          ⟨0xffffffff, none⟩ := by
        rw [JitState.entry, hat]
        exact Function.update_self _ _ _
      rw [hentry]
      exact not_not_intro rfl
    · exact .inl (Function.update_of_ne hat _ _)
  case h_2 => exact h

theorem LruInv.invalidateByM68kAddress (h : LruInv r) (addr : UInt32) :
    LruInv { r with jit := lruInvalidateByM68kAddress r.jit addr } := by
  unfold lruInvalidateByM68kAddress
  dsimp only
  split
  case h_1 i hfind =>
    obtain ⟨hi, -, -⟩ := findWay_some hfind
    have hset := addr2Set_lt addr
    generalize addr2Set addr = place at *
    have hentry : ∀ set way, way < lruWayCount → JitState.entry { r.jit with
        lruCache := Function.update r.jit.lruCache (place * lruWayCount + i) ⟨0xffffffff, none⟩
        lruAlloc := Function.update r.jit.lruAlloc place (r.jit.lruAlloc place ||| wayMask i) } set way =
        if set = place ∧ way = i then ⟨0xffffffff, none⟩ else r.jit.entry set way :=
      fun set way hway ↦ entry_update rfl hi hway
    refine h.weaken rfl ?_ ?_ ?_
    · intro set _ way hway
      dsimp only
      rw [hentry set way hway]
      split_ifs
      · exact .inr (not_not_intro rfl)
      · exact .inl rfl
    · intro set hlt
      dsimp only
      by_cases heq : set = place
      · rw [heq, Function.update_self]
        refine hasVictim_of_marked hi ?_
        rw [marked_or, marked_wayMask hi hi, decide_eq_true rfl, Bool.or_true]
      · rw [Function.update_of_ne heq]
        exact h.victim set hlt
    · intro set hlt way hway hvalid hmark
      dsimp only at hvalid ⊢
      rw [hentry set way hway] at hvalid
      by_cases heq : set = place
      · have hne : way ≠ i := by
          intro hway'
          rw [if_pos ⟨heq, hway'⟩] at hvalid
          exact hvalid rfl
        rw [heq] at hmark
        rw [heq, Function.update_self, marked_or, hmark, marked_wayMask hi hway,
          decide_eq_false hne, Bool.or_false]
      · rw [Function.update_of_ne heq]
        exact hmark
  case h_2 => exact h

theorem LruInv.invalidateAll (h : LruInv r) :
    LruInv { r with jit := lruInvalidateAll r.jit } := by
  have hstart := lruStart_inv r.jit
  refine ⟨hstart.victim, hstart.distinct, fun set hset way hlast ↦ ?_⟩
  obtain ⟨hway, -⟩ := h.last set hset way hlast
  refine ⟨hway, .inr (not_not_intro ?_)⟩
  have hentry : (lruInvalidateAll r.jit).entry set way = ⟨0xffffffff, none⟩ := by
    refine if_pos ?_
    rw [lruWayCount, lruSetCount] at *
    omega
  dsimp only
  rw [hentry]

theorem lruStep_inv (h : LruInv r) {op : LruOp} (hop : op.AfterMiss r)
    (hstep : lruStep r op = some r') : LruInv r' := by
  cases op with
  | insertBlock unit => exact h.insert hop hstep
  | findBlock address => exact h.find address hstep
  | invalidateAll =>
    obtain rfl := Option.some.inj hstep
    exact h.invalidateAll
  | invalidateByARMAddress addr =>
    obtain rfl := Option.some.inj hstep
    exact h.invalidateByARMAddress addr
  | invalidateByM68kAddress addr =>
    obtain rfl := Option.some.inj hstep
    exact h.invalidateByM68kAddress addr

/-! ### What every run relies on -/

/-- A unit that was looked up in vain is found right after it is inserted. -/
theorem LruInv.found (h : LruInv r) {unit : UnitHead}
    (hmiss : findWay r.jit unit.mtM68kAddress = none) :
    ∃ s', lruInsertBlock r.jit unit = some s' ∧
      (lruFindBlock s' unit.mtM68kAddress).2 = unit.mtARMEntryPoint := by
  refine ⟨_, lruInsertBlock_eq h unit, ?_⟩
  have habsent : ∀ way < lruWayCount,
      (r.jit.entry (addr2Set unit.mtM68kAddress) way).m68k ≠ unit.mtM68kAddress :=
    fun way hway ↦ findWay_none hmiss hway
  obtain ⟨hloc, -⟩ := (h.victim _ (addr2Set_lt unit.mtM68kAddress)).clz
  generalize hs' : ({ r.jit with lruCache := _, lruAlloc := _ } : JitState) = s'
  have hcache : s'.lruCache = Function.update r.jit.lruCache
      (addr2Set unit.mtM68kAddress * lruWayCount +
        clz (r.jit.lruAlloc (addr2Set unit.mtM68kAddress)))
      ⟨unit.mtM68kAddress, unit.mtARMEntryPoint⟩ := by rw [← hs']
  generalize clz (r.jit.lruAlloc (addr2Set unit.mtM68kAddress)) = loc at *
  have hentry : ∀ way < lruWayCount, s'.entry (addr2Set unit.mtM68kAddress) way =
      if addr2Set unit.mtM68kAddress = addr2Set unit.mtM68kAddress ∧ way = loc then
        ⟨unit.mtM68kAddress, unit.mtARMEntryPoint⟩
      else r.jit.entry (addr2Set unit.mtM68kAddress) way :=
    fun way hway ↦ entry_update hcache hloc hway
  have hhit : (s'.entry (addr2Set unit.mtM68kAddress) loc).m68k = unit.mtM68kAddress := by
    rw [hentry loc hloc, if_pos ⟨rfl, rfl⟩]
  cases hfind : findWay s' unit.mtM68kAddress with
  | none => exact absurd hhit (findWay_none hfind hloc)
  | some i =>
    obtain ⟨hi, hm68k, -⟩ := findWay_some hfind
    have hsame : i = loc := by
      by_contra hne
      rw [hentry i hi, if_neg fun hat ↦ hne hat.2] at hm68k
      exact habsent i hi hm68k
    have harm : (s'.entry (addr2Set unit.mtM68kAddress) loc).arm = unit.mtARMEntryPoint := by
      rw [hentry loc hloc, if_pos ⟨rfl, rfl⟩]
    rw [lruFindBlock, hfind, hsame]
    exact harm

theorem LruInv.replaces (h : LruInv r) :
    Replaces r fun unit ↦ findWay r.jit unit.mtM68kAddress = none where
  distinct := h.distinct
  victim := fun set hset ↦ (h.victim set hset).clz.1
  found := fun _ hmiss ↦ h.found hmiss
  spared := fun set hset way hlast hvalid hclz ↦ by
    obtain ⟨-, hcase⟩ := h.last set hset way hlast
    have hmarked := (h.victim set hset).clz.2
    rw [hclz, hcase.resolve_right (not_not_intro hvalid)] at hmarked
    exact Bool.false_ne_true hmarked

/-- In every run that inserts units only after their look-up has failed, no set holds an address
twice, a way can be replaced, what is inserted is found, and the way used last is spared. -/
theorem lru_replaces (s : JitState) (r : LruRun)
    (h : Reachable lruStep (fun r op ↦ op.AfterMiss r) (lruStart s) r) :
    Replaces r fun unit ↦ findWay r.jit unit.mtM68kAddress = none :=
  (h.invariant LruInv (lruStart_inv s) fun _ _ _ hinv hop hstep ↦ lruStep_inv hinv hop hstep).replaces

theorem lru_replaces_insert :
    ∃ r, lruStep (lruStart zeroMemory) (.insertBlock ⟨0, 0x1000, some (.code 64)⟩) = some r ∧
      Replaces r fun unit ↦ findWay r.jit unit.mtM68kAddress = none :=
  ⟨_, rfl, lru_replaces zeroMemory _ (.tail (.insertBlock ⟨0, 0x1000, some (.code 64)⟩) .refl
    (by unfold LruOp.AfterMiss; decide) rfl)⟩

/-- Inserting two units of one address, with no look-up before, puts the address into two ways of
its set. -/
theorem not_lru_replaces :
    ¬ ∀ s r, Reachable lruStep (fun _ _ ↦ True) (lruStart s) r → Replaces r fun _ ↦ True := by
  intro h
  have hreplaces := h zeroMemory _
    (.tail (.insertBlock ⟨0, 0x1000, some (.code 128)⟩)
      (.tail (.insertBlock ⟨0, 0x1000, some (.code 64)⟩) .refl trivial rfl) trivial rfl)
  have hvalid : (0x1000 : UInt32) ≠ 0xffffffff := by decide
  exact absurd (hreplaces.distinct 0 (by decide) 0 (by decide) 1 (by decide) hvalid rfl) (by decide)

end Emu68.Jit
