import Emu68.Lib.Transition
import Emu68.SoftCache.Accesses

/-!
Runs of the software cache. Beside the cache goes the memory that its user has in mind; every
reachable cache serves that memory. A write that the cache refuses (a write-through miss returns
0) is not part of it: its caller has to store the value.
-/

set_option autoImplicit false
set_option relaxedAutoImplicit false

namespace Emu68.SoftCache

open Lib

variable {s : CacheState} {set way tag a n : ℕ}

/-! ### The routines at accesses that do not cross a line -/

/-- An access below the cached range's end that stays inside a line. -/
def InLine (width : Width) (address : ℕ) : Prop :=
  address < cacheLimit ∧ address % 16 + width.bytes ≤ 16

theorem cacheRead_inLine {width : Width} (h : InLine width a) :
    cacheRead width s a = readLine width.bytes s a := by
  obtain ⟨hlimit, hin⟩ := h
  have hlow : ¬ cacheLimit ≤ a := Nat.not_le_of_lt hlimit
  cases width <;> simp only [Width.bytes] at hin
  · exact if_neg hlow
  · exact (if_neg hlow).trans (if_neg (by omega))
  · exact (if_neg hlow).trans (if_neg (by omega))
  · exact (if_neg hlow).trans (if_neg (by omega))
  · exact (if_neg hlow).trans (if_neg (by omega))

theorem dirtySpan_mod (last a : ℕ) : dirtySpan last a = dirtySpan last (a % 16) := by
  have hword : a / 4 % 4 = a % 16 / 4 % 4 := by omega
  have hlast : (a + last) / 4 % 4 = (a % 16 + last) / 4 % 4 := by omega
  rw [dirtySpan, dirtySpan, hword, hlast]

theorem dirtySpan64_mod (a : ℕ) : dirtySpan64 a = dirtySpan64 (a % 16) := by
  have hword : a / 4 % 4 = a % 16 / 4 % 4 := by omega
  have hlast : (a + 7) / 4 % 4 = (a % 16 + 7) / 4 % 4 := by omega
  rw [dirtySpan64, dirtySpan64, hword, hlast]

/-- The dirty bits of a write cover every word that it touches. -/
theorem dirtySpan_covers (hin : a % 16 + n ≤ 16) (hn : n ≤ 4) :
    ∀ i < n, isDirty (dirtySpan (n - 1) a) ((a % 16 + i) / 4) = true := by
  have hall : ∀ n ≤ 4, ∀ offset < 16, offset + n ≤ 16 → ∀ i < n,
      isDirty (dirtySpan (n - 1) offset) ((offset + i) / 4) = true := by decide +kernel
  rw [dirtySpan_mod]
  exact hall n hn _ (Nat.mod_lt _ (by decide)) hin

theorem dirtySpan64_covers (hin : a % 16 + 8 ≤ 16) :
    ∀ i < 8, isDirty (dirtySpan64 a) ((a % 16 + i) / 4) = true := by
  have hall : ∀ offset < 16, offset + 8 ≤ 16 → ∀ i < 8,
      isDirty (dirtySpan64 offset) ((offset + i) / 4) = true := by decide +kernel
  rw [dirtySpan64_mod]
  exact hall _ (Nat.mod_lt _ (by decide)) hin

theorem dirtyAll_covers (hin : a % 16 + 16 ≤ 16) :
    ∀ i < 16, isDirty (fDirty 0 ||| fDirty 1 ||| fDirty 2 ||| fDirty 3) ((a % 16 + i) / 4) =
      true := by
  have hall : ∀ i < 16, isDirty (fDirty 0 ||| fDirty 1 ||| fDirty 2 ||| fDirty 3) (i / 4) =
      true := by decide
  have hoffset : a % 16 = 0 := by omega
  simpa only [hoffset, Nat.zero_add] using hall

theorem cacheWrite_spec {width : Width} (h : Coherent s) (hin : a % 16 + width.bytes ≤ 16)
    (data : ℕ) (wb : UInt8) :
    Coherent (cacheWrite width s a data wb).1 ∧
      (cacheWrite width s a data wb = (s, 0) ∨ (cacheWrite width s a data wb).2 = 1 ∧
        view (cacheWrite width s a data wb).1 =
          storeBytes (view s) a width.bytes (byteOf width.bytes data)) := by
  cases width <;> simp only [Width.bytes] at hin
  · exact writeLine_spec h hin (dirtySpan_covers hin (by decide)) (.inl rfl) data wb
  · have hbody : cacheWrite .w16 s a data wb = writeLine 2 true (dirtySpan 1 a) s a data wb :=
      if_neg (by omega)
    rw [hbody]
    exact writeLine_spec h hin (dirtySpan_covers hin (by decide)) (.inl rfl) data wb
  · have hbody : cacheWrite .w32 s a data wb = writeLine 4 true (dirtySpan 3 a) s a data wb :=
      if_neg (by omega)
    rw [hbody]
    exact writeLine_spec h hin (dirtySpan_covers hin (by decide)) (.inl rfl) data wb
  · have hbody : cacheWrite .w64 s a data wb = writeLine 8 true (dirtySpan64 a) s a data wb :=
      if_neg (by omega)
    rw [hbody]
    exact writeLine_spec h hin (dirtySpan64_covers hin) (.inl rfl) data wb
  · have hbody : cacheWrite .w128 s a data wb = writeLine 16 false
        (fDirty 0 ||| fDirty 1 ||| fDirty 2 ||| fDirty 3) s a data wb :=
      if_neg (by omega)
    rw [hbody]
    exact writeLine_spec h hin (dirtyAll_covers hin) (.inr rfl) data wb

/-! ### Runs -/

def CacheOp.Admissible : CacheOp → Prop
  | .read width address => InLine width address
  | .write width address _ _ => InLine width address
  | .flushLine address => address < cacheLimit
  | .flushAll => True

/-- The bytes most recently written, where a write counts when the cache accepted it. -/
def acceptedWrites (logical : Bytes) (op : CacheOp) (result : ℕ) : Bytes :=
  match op with
  | .write width address data _ =>
    if result = 0 then logical
    else storeBytes logical address width.bytes (byteOf width.bytes data)
  | _ => logical

/-- The bytes most recently written, where every write counts. -/
def allWrites (logical : Bytes) (op : CacheOp) (_ : ℕ) : Bytes :=
  match op with
  | .write width address data _ =>
    storeBytes logical address width.bytes (byteOf width.bytes data)
  | _ => logical

/-- A step of the cache beside the memory that its user has in mind. -/
def observedStep (record : Bytes → CacheOp → ℕ → Bytes) (o : CacheState × Bytes) (op : CacheOp) :
    Option (CacheState × Bytes) :=
  let (s, result) := cacheStep o.1 op
  some (s, record o.2 op result)

/-- The cache serves the memory that its user has in mind. -/
structure Serves (s : CacheState) (logical : Bytes) : Prop where
  reads : ∀ width address, InLine width address →
    (cacheRead width s address).2 = loadValue logical address width.bytes
  unique : ∀ set < cacheSetCount, ∀ tag way way',
    Holds s.cache set way tag → Holds s.cache set way' tag → way = way'
  clean : ∀ set < cacheSetCount, ∀ way tag, Holds s.cache set way tag →
    ∀ word < 4, isDirty (s.cache.ways set way).flags word = false → ∀ i < 4,
      (s.cache.ways set way).line (4 * word + i) = s.memory (tag + set * 16 + (4 * word + i))
  flushed : (cacheFlushAll .dcache s).memory = logical

theorem Coherent.serves (h : Coherent s) : Serves s (view s) where
  reads width address hin := by
    rw [cacheRead_inLine hin]
    exact (readLine_spec h hin.2).2.2
  unique := h.unique
  clean set hset way tag hold word hword hnot i hi := by
    have hword' : (4 * word + i) / 4 = word := by omega
    have hbyte := h.clean set hset way tag hold (4 * word + i) (by omega)
    rw [CleanAt, hword', hold.2.2] at hbyte
    exact hbyte hnot
  flushed := (cacheFlushAll_spec h).2

theorem not_holds_invalidated (s : CacheState) (hset : set < cacheSetCount) :
    ¬ Holds (cacheInvalidateAll s).cache set way tag := by
  rintro ⟨hway, hvalid, -⟩
  simp only [cacheInvalidateAll, hset, hway, and_self, if_true] at hvalid
  exact Bool.false_ne_true (isValid_zero.symm.trans hvalid)

theorem coherent_invalidated (s : CacheState) :
    Coherent (cacheInvalidateAll s) ∧ view (cacheInvalidateAll s) = s.memory := by
  refine ⟨⟨?_, ?_, ?_, ?_⟩, ?_⟩
  · exact fun set hset tag way _ hold ↦ absurd hold (not_holds_invalidated s hset)
  · exact fun set hset way tag hold ↦ absurd hold (not_holds_invalidated s hset)
  · exact fun set hset way tag hold ↦ absurd hold (not_holds_invalidated s hset)
  · intro set hset
    simp only [cacheInvalidateAll, hset, if_true]
    decide
  · funext x
    exact view_of_not_holds fun way ↦ not_holds_invalidated s (getSet_lt x)

/-- One operation keeps the cache coherent and moves the logical memory as its user expects. -/
theorem cacheStep_spec {op : CacheOp} (h : Coherent s) (hop : op.Admissible) :
    Coherent (cacheStep s op).1 ∧
      view (cacheStep s op).1 = acceptedWrites (view s) op (cacheStep s op).2 := by
  cases op with
  | read width address =>
    have hread := readLine_spec h hop.2
    rw [cacheStep, cacheRead_inLine hop]
    exact ⟨hread.1, hread.2.1⟩
  | write width address data wb =>
    obtain ⟨hcoherent, hwrite⟩ := cacheWrite_spec h hop.2 data wb
    refine ⟨hcoherent, ?_⟩
    rcases hwrite with hrefused | ⟨haccepted, hview⟩
    · simp only [cacheStep, hrefused, acceptedWrites, if_true]
    · simp only [cacheStep, haccepted, hview, acceptedWrites, Nat.one_ne_zero, if_false]
  | flushLine address =>
    have hdrop := cacheFlushLine_spec h address
    dsimp only [cacheStep, acceptedWrites]
    exact ⟨hdrop.coherent, hdrop.view_eq⟩
  | flushAll =>
    have hdrop := (cacheFlushAll_spec h).1
    dsimp only [cacheStep, acceptedWrites]
    exact ⟨hdrop.coherent, hdrop.view_eq⟩

/-- The cache and memory with which the examples start. -/
def blank : CacheState := ⟨⟨fun _ _ ↦ ⟨fun _ ↦ 0, 0, 0⟩, fun _ ↦ 0⟩, fun _ ↦ 0⟩

end Emu68.SoftCache
