import Emu68.Jit.Effects

/-!
The index invariant of the translation cache. In every state that the calls of the emulator reach
from `M68K_InitializeCache`, the global LRU list and the hash buckets are well-formed doubly
linked lists, each live unit is in the LRU list once and once in the bucket of its address, no
freed unit is in either, and `JIT_UNIT_COUNT` is the number of live units. The calls that unlink
and relink units never read through a null pointer.
-/

set_option autoImplicit false
set_option relaxedAutoImplicit false

namespace Emu68.Jit

open Lib Exec

/-- A live unit is an allocated one. -/
def liveUnits (s : JitState) : Finset UnitAddr :=
  Finset.univ.filter fun u ↦ (s.unit u).isSome

/-- Both list structures are well formed, every live unit is in each exactly once, in the bucket
of its address, nothing else is, and the counter counts the live units. -/
def IndexInvariant (s : JitState) : Prop :=
  ∃ (order : List UnitAddr) (bucket : Hash → List UnitAddr),
    Linked s.links lru (order.map .lruNode) ∧
    (∀ hash, Linked s.links (icache hash) ((bucket hash).map .hashNode)) ∧
    (∀ u, order.count u = if (s.unit u).isSome then 1 else 0) ∧
    (∀ hash u, (bucket hash).count u =
      if (s.unit u).any fun t ↦ bucketOf t.mtM68kAddress = hash then 1 else 0) ∧
    s.jitUnitCount.toNat = (liveUnits s).card

/-- Every verification of a unit, every creation that the allocator and the size of the
translation permit, and every call of `check_cacr` returns. -/
def CallsReturn (s : JitState) : Prop :=
  (∀ unit view, NamesUnit s unit →
    (m68kVerifyUnit s unit view).isSome ∧ (m68kVerifyUnitCRC32 s unit view).isSome) ∧
  (∀ pc answers translation view s' u, allocateUnit answers s = some (s', u) →
    s'.unit u = none → unitLength translation.lineLength ≤ initialAlloc s'.jitControl →
      (m68kGetTranslationUnit s pc answers translation view).isSome) ∧
  (∀ answers u, some u ∈ answers → (allocateUnit answers s).isSome) ∧
  ∀ cacr returnAddress, (checkCacr s cacr returnAddress).isSome

variable {s s' : JitState} {order : List UnitAddr} {bucket : Hash → List UnitAddr}

theorem Indexed.nodup_bucket {loose : List UnitAddr} (h : Indexed s order loose bucket)
    (hash : Hash) : (bucket hash).Nodup :=
  ((List.nodup_append.mp (List.nodup_cons.mp (h.bucket_linked hash).nodup).2).1).of_map _

theorem Indexed.indexInvariant (h : Indexed s order [] bucket) : IndexInvariant s := by
  have hnodup : order.Nodup := by simpa using h.nodup
  have hmem : ∀ u, (s.unit u).isSome ↔ u ∈ order := fun u ↦ by simpa using h.allocated u
  refine ⟨order, bucket, h.order_linked, h.bucket_linked, ?_, ?_, ?_⟩
  · intro u
    rw [hnodup.count]
    simp only [hmem]
  · intro hash u
    rw [(h.nodup_bucket hash).count]
    simp only [h.mem_bucket, Option.any_eq_true, decide_eq_true_eq]
  · have hlive : liveUnits s = order.toFinset := by
      ext u
      simp [liveUnits, hmem]
    rw [hlive, List.toFinset_card_of_nodup hnodup, h.count, List.append_nil]

theorem Indexed.callsReturn (h : Indexed s order [] bucket) (hplaced : Placed s) :
    CallsReturn s := by
  refine ⟨?_, ?_, ?_, ?_⟩
  · intro unit view hunit
    cases unit with
    | none => exact ⟨rfl, rfl⟩
    | some u =>
      obtain ⟨t, ht⟩ := Option.isSome_iff_exists.mp (hunit u rfl)
      obtain ⟨s₁, kept₁, -, -, hverify, -⟩ := m68kVerifyUnit_indexed h ht view
      obtain ⟨s₂, kept₂, -, -, hcrc, -⟩ := m68kVerifyUnitCRC32_indexed h ht view
      exact ⟨by rw [hverify]; rfl, by rw [hcrc]; rfl⟩
  · intro pc answers translation view s₁ u hallocate hfree hlength
    obtain ⟨s₂, -, -, -, hget, -⟩ := 
      m68kGetTranslationUnit_indexed pc translation view h hallocate hfree hlength
    rw [hget]
    rfl
  · intro answers u hu
    obtain ⟨s₁, v, -, hallocate, -⟩ := allocateUnit_indexed answers ⟨u, hu⟩ h
    rw [hallocate]
    rfl
  · intro cacr returnAddress
    obtain ⟨s₁, -, -, hcheck, -⟩ := checkCacr_indexed h hplaced cacr returnAddress
    rw [hcheck]
    rfl

/-! ### The look-ups do not touch the index -/

/-- Everything but the look-up cache, the epoch and the control registers is as before. -/
structure SameIndex (s s' : JitState) : Prop where
  links : s'.links = s.links
  unit : s'.unit = s.unit
  unitSize : s'.unitSize = s.unitSize
  jitUnitCount : s'.jitUnitCount = s.jitUnitCount

theorem SameIndex.refl (s : JitState) : SameIndex s s := ⟨rfl, rfl, rfl, rfl⟩

theorem SameIndex.indexed (h : SameIndex s s') (hindexed : Indexed s order [] bucket) :
    Indexed s' order [] bucket :=
  hindexed.congr h.links h.unit h.jitUnitCount

theorem SameIndex.placed (h : SameIndex s s') (hplaced : Placed s) : Placed s' where
  entry := h.unit ▸ hplaced.entry
  fits := by
    rw [h.unit, h.unitSize]
    exact hplaced.fits
  apart := by
    rw [h.unit, h.unitSize]
    exact hplaced.apart

theorem lruFindBlock_sameIndex (s : JitState) (address : UInt32) :
    SameIndex s (lruFindBlock s address).1 := by
  unfold lruFindBlock
  dsimp only
  split
  · exact ⟨rfl, rfl, rfl, rfl⟩
  · exact SameIndex.refl s

theorem lruFindBlock_epoch (s : JitState) (address : UInt32) :
    (lruFindBlock s address).1.epoch = s.epoch := by
  unfold lruFindBlock
  dsimp only
  split <;> rfl

theorem lruFindBlock_lruCache (s : JitState) (address : UInt32) :
    (lruFindBlock s address).1.lruCache = s.lruCache := by
  unfold lruFindBlock
  dsimp only
  split <;> rfl

theorem lruInsertBlock_sameIndex {unit : UnitHead} (h : lruInsertBlock s unit = some s') :
    SameIndex s s' := by
  unfold lruInsertBlock at h
  dsimp only at h
  split at h
  · cases h
    exact ⟨rfl, rfl, rfl, rfl⟩
  · cases h

/-- What `FindUnitQuick` does: it returns what the look-up cache holds, or scans the bucket and
enters the unit it finds. -/
theorem findUnitQuick_cases {pc : UInt32} {code : Option ArmPtr}
    (h : findUnitQuick s pc = some (s', code)) :
    s' = (lruFindBlock s pc).1 ∨
      (lruFindBlock s pc).2 = none ∧ ∃ n unit,
        findInBucket (lruFindBlock s pc).1 pc (matchesKey s.epoch pc) = some (some (n, unit)) ∧
        lruInsertBlock (lruFindBlock s pc).1 unit = some s' := by
  unfold findUnitQuick at h
  dsimp only at h
  rw [lruFindBlock_epoch] at h
  split at h
  · cases h
    exact Or.inl rfl
  · rename_i hmiss
    rw [Option.not_isSome_iff_eq_none] at hmiss
    cases hscan : findInBucket (lruFindBlock s pc).1 pc (matchesKey s.epoch pc) with
    | none => simp [hscan] at h
    | some found =>
      simp only [hscan, Option.bind_eq_bind, Option.bind_some] at h
      cases found with
      | none =>
        cases h
        exact Or.inl rfl
      | some pair =>
        obtain ⟨n, unit⟩ := pair
        simp only [Option.bind_eq_some_iff] at h
        obtain ⟨s₁, hinsert, heq⟩ := h
        cases heq
        exact Or.inr ⟨hmiss, n, unit, rfl, hinsert⟩

theorem findUnit_cases {pc : UInt32} {result : Option NodeAddr}
    (h : findUnit s pc = some (s', result)) :
    s' = s ∨ ∃ n unit,
      findInBucket s pc (matchesAddress pc) = some (some (n, unit)) ∧
      lruInsertBlock s unit = some s' := by
  unfold findUnit at h
  cases hscan : findInBucket s pc (matchesAddress pc) with
  | none => simp [hscan] at h
  | some found =>
    simp only [hscan, Option.bind_eq_bind, Option.bind_some] at h
    cases found with
    | none =>
      cases h
      exact Or.inl rfl
    | some pair =>
      obtain ⟨n, unit⟩ := pair
      simp only [Option.bind_eq_some_iff] at h
      obtain ⟨s₁, hinsert, heq⟩ := h
      cases heq
      exact Or.inr ⟨n, unit, rfl, hinsert⟩

/-! ### Steps and runs -/

/-- A creation that returns allocated a free block in which the translation fits. -/
theorem exists_allocation {answers : List (Option UnitAddr)} {pc : UInt32}
    {translation : Translation} {view : CodeView} {r : JitState × UnitAddr}
    (hget : m68kGetTranslationUnit s pc answers translation view = some r)
    (hadmissible : Admissible s (.getTranslationUnit pc answers translation view)) :
    ∃ s₁ u, allocateUnit answers s = some (s₁, u) ∧ FreeBlock s₁ u (initialAlloc s₁.jitControl) ∧
      unitLength translation.lineLength ≤ initialAlloc s₁.jitControl := by
  unfold m68kGetTranslationUnit at hget
  simp only [Option.bind_eq_bind, Option.bind_eq_some_iff] at hget
  obtain ⟨⟨s₁, u⟩, hallocate, hrest⟩ := hget
  refine ⟨s₁, u, hallocate, hadmissible s₁ u hallocate, ?_⟩
  by_contra hlong
  rw [if_pos (Nat.not_le.mp hlong)] at hrest
  simp at hrest

/-- One admissible call keeps the index and the layout of the blocks. -/
theorem step_indexed (h : Indexed s order [] bucket) (hplaced : Placed s) {op : JitOp}
    (hadmissible : Admissible s op) (hstep : step s op = some s') :
    (∃ order' bucket', Indexed s' order' [] bucket') ∧ Placed s' := by
  have hsame : SameIndex s s' → (∃ order' bucket', Indexed s' order' [] bucket') ∧ Placed s' :=
    fun hs ↦ ⟨⟨order, bucket, hs.indexed h⟩, hs.placed hplaced⟩
  cases op with
  | lruFindBlock address =>
    cases hstep
    exact hsame (lruFindBlock_sameIndex s address)
  | lruInsertBlock u =>
    obtain ⟨unit, -, hinsert⟩ := Option.bind_eq_some_iff.mp hstep
    exact hsame (lruInsertBlock_sameIndex hinsert)
  | findUnitQuick pc =>
    obtain ⟨⟨s₁, code⟩, hfind, rfl⟩ := Option.map_eq_some_iff.mp hstep
    have hfirst := lruFindBlock_sameIndex s pc
    rcases findUnitQuick_cases hfind with rfl | ⟨-, n, unit, -, hinsert⟩
    · exact hsame hfirst
    · have hsecond := lruInsertBlock_sameIndex hinsert
      exact hsame ⟨hsecond.links.trans hfirst.links, hsecond.unit.trans hfirst.unit,
        hsecond.unitSize.trans hfirst.unitSize, hsecond.jitUnitCount.trans hfirst.jitUnitCount⟩
  | findUnit pc =>
    obtain ⟨⟨s₁, result⟩, hfind, rfl⟩ := Option.map_eq_some_iff.mp hstep
    rcases findUnit_cases hfind with rfl | ⟨n, unit, -, hinsert⟩
    · exact hsame (SameIndex.refl _)
    · exact hsame (lruInsertBlock_sameIndex hinsert)
  | findUnitNoLRU pc =>
    obtain ⟨result, -, rfl⟩ := Option.map_eq_some_iff.mp hstep
    exact hsame (SameIndex.refl _)
  | getTranslationUnit pc answers translation view =>
    obtain ⟨⟨s₂, u₂⟩, hget, rfl⟩ := Option.map_eq_some_iff.mp hstep
    obtain ⟨s₁, u, hallocate, hfree, hlength⟩ := exists_allocation hget hadmissible
    obtain ⟨s₃, u₃, bucket₃, hallocate₃, -, hprune⟩ :=
      allocateUnit_indexed answers (exists_of_allocateUnit hallocate) h
    rw [hallocate] at hallocate₃
    cases hallocate₃
    obtain ⟨s₄, order₄, bucket₄, t, hget₄, h₄, haddress, hentry, hfits, hunit, hsize, -, -⟩ :=
      m68kGetTranslationUnit_indexed pc translation view h hallocate hfree.unallocated hlength
    rw [hget] at hget₄
    cases hget₄
    exact ⟨⟨order₄, bucket₄, h₄⟩,
      (hprune.placed hplaced).addUnit hfree hlength hentry hfits hunit hsize⟩
  | verifyUnit unit view =>
    obtain ⟨⟨s₁, kept⟩, hverify, rfl⟩ := Option.map_eq_some_iff.mp hstep
    cases unit with
    | none =>
      cases hverify
      exact hsame (SameIndex.refl _)
    | some u =>
      obtain ⟨t, ht⟩ := Option.isSome_iff_exists.mp (hadmissible u rfl)
      obtain ⟨s₂, kept₂, order₂, bucket₂, hverify₂, h₂, heffect⟩ := m68kVerifyUnit_indexed h ht view
      rw [hverify] at hverify₂
      cases hverify₂
      refine ⟨⟨order₂, bucket₂, h₂⟩, ?_⟩
      rcases heffect with ⟨-, hprune⟩ | ⟨-, -, hprune⟩ <;> exact hprune.placed hplaced
  | verifyUnitCRC32 unit view =>
    obtain ⟨⟨s₁, kept⟩, hverify, rfl⟩ := Option.map_eq_some_iff.mp hstep
    cases unit with
    | none =>
      cases hverify
      exact hsame (SameIndex.refl _)
    | some u =>
      obtain ⟨t, ht⟩ := Option.isSome_iff_exists.mp (hadmissible u rfl)
      obtain ⟨s₂, kept₂, order₂, bucket₂, hverify₂, h₂, heffect⟩ :=
        m68kVerifyUnitCRC32_indexed h ht view
      rw [hverify] at hverify₂
      cases hverify₂
      refine ⟨⟨order₂, bucket₂, h₂⟩, ?_⟩
      rcases heffect with ⟨-, hprune⟩ | ⟨-, -, hprune⟩ <;> exact hprune.placed hplaced
  | invalidateInstructionCache =>
    cases hstep
    exact hsame ⟨rfl, rfl, rfl, rfl⟩
  | checkCacr cacr returnAddress =>
    obtain ⟨s₁, order₁, bucket₁, hcheck, h₁, hplaced₁, -⟩ :=
      checkCacr_indexed h hplaced cacr returnAddress
    have hcheck' : checkCacr s cacr returnAddress = some s' := hstep
    rw [hcheck] at hcheck'
    cases hcheck'
    exact ⟨⟨order₁, bucket₁, h₁⟩, hplaced₁⟩
  | writeJitControl control control2 =>
    cases hstep
    exact hsame ⟨rfl, rfl, rfl, rfl⟩

/-- Every state reached from the start of `MainLoop` by admissible calls has an index. -/
theorem reachable_indexed {memory : JitState}
    (h : Reachable step Admissible (mainLoopStart memory) s) :
    (∃ order bucket, Indexed s order [] bucket) ∧ Placed s := by
  refine h.invariant (fun s ↦ (∃ order bucket, Indexed s order [] bucket) ∧ Placed s) ?_ ?_
  · exact ⟨⟨[], fun _ ↦ [], mainLoopStart_indexed memory⟩, mainLoopStart_placed memory⟩
  · intro s op s' hinv hadmissible hstep
    obtain ⟨⟨order, bucket, hindexed⟩, hplaced⟩ := hinv
    exact step_indexed hindexed hplaced hadmissible hstep

/-- A creation whose allocation succeeds on a free block of sufficient size is an admissible step. -/
theorem exists_create {answers : List (Option UnitAddr)} {s₁ : JitState} {u : UnitAddr}
    (h : Indexed s order [] bucket) (pc : UInt32) (translation : Translation) (view : CodeView)
    (hallocate : allocateUnit answers s = some (s₁, u))
    (hfree : FreeBlock s₁ u (initialAlloc s₁.jitControl))
    (hlength : unitLength translation.lineLength ≤ initialAlloc s₁.jitControl) :
    Admissible s (.getTranslationUnit pc answers translation view) ∧
      ∃ s' t, step s (.getTranslationUnit pc answers translation view) = some s' ∧
        s'.unit = Function.update s₁.unit u (some t) ∧ t.mtM68kAddress = pc ∧
        t.mtARMEntryPoint = .code (codeStart u) ∧ s'.lruCache = s₁.lruCache ∧
        s'.lruAlloc = s₁.lruAlloc := by
  constructor
  · intro s₂ v hallocate₂
    rw [hallocate] at hallocate₂
    cases hallocate₂
    exact hfree
  · obtain ⟨s', -, -, t, hget, -, haddress, hentry, -, hunit, -, hcache, halloc⟩ :=
      m68kGetTranslationUnit_indexed pc translation view h hallocate hfree.unallocated hlength
    refine ⟨s', t, ?_, hunit, haddress, hentry, hcache, halloc⟩
    simp only [step, hget, Option.map_some]

/-- A block is free while nothing is allocated. -/
theorem freeBlock_of_empty (hempty : ∀ v, s.unit v = none) (u : UnitAddr) (size : ℕ) :
    FreeBlock s u size where
  unallocated := hempty u
  apart := fun v hv ↦ by simp [hempty v] at hv

/-- A memory before the boot in which every word is zero. -/
def zeroMemory : JitState where
  links := ⟨fun _ ↦ none, fun _ ↦ none⟩
  unit := fun _ ↦ none
  unitSize := fun _ ↦ 0
  jitUnitCount := 0
  jitControl := 0
  jitControl2 := 0
  epoch := 0
  oldCacr := 0
  lastPC := 0
  lruCache := fun _ ↦ ⟨0, none⟩
  lruAlloc := fun _ ↦ 0

/-- The creation of a unit for `pc` out of a translation of two words, at `0x1000`. -/
def createAt (pc : UInt32) (answers : List (Option UnitAddr)) : JitOp :=
  .getTranslationUnit pc answers ⟨8, 0x1000, 0x1004⟩ ⟨fun _ ↦ 0, fun _ _ ↦ 0⟩

theorem shortTranslation_fits (jitControl : UInt32) : unitLength 8 ≤ initialAlloc jitControl := by
  simp only [unitLength, initialAlloc, insnDepth]
  omega

/-- After a boot with zero memory, `MainLoop` can create its first unit. -/
theorem exists_firstUnit (pc : UInt32) (u : UnitAddr) :
    ∃ s t, Reachable step Admissible (mainLoopStart zeroMemory) s ∧
      step (mainLoopStart zeroMemory) (createAt pc [some u]) = some s ∧
      Admissible (mainLoopStart zeroMemory) (createAt pc [some u]) ∧
      s.unit = Function.update (fun _ ↦ none) u (some t) ∧ t.mtM68kAddress = pc ∧
      t.mtARMEntryPoint = .code (codeStart u) ∧
      s.lruCache = (mainLoopStart zeroMemory).lruCache ∧
      s.lruAlloc = (mainLoopStart zeroMemory).lruAlloc := by
  have hempty : ∀ v, (mainLoopStart zeroMemory).unit v = none := fun _ ↦ rfl
  have hallocate : allocateUnit [some u] (mainLoopStart zeroMemory) =
    some (mainLoopStart zeroMemory, u) := rfl
  obtain ⟨hadmissible, s, t, hstep, hunit, haddress, hentry, hcache, halloc⟩ :=
    exists_create (mainLoopStart_indexed zeroMemory) pc ⟨8, 0x1000, 0x1004⟩
      ⟨fun _ ↦ 0, fun _ _ ↦ 0⟩ hallocate (freeBlock_of_empty hempty u _) (shortTranslation_fits _)
  exact ⟨s, t, .tail _ .refl hadmissible hstep, hstep, hadmissible, hunit, haddress, hentry,
    hcache, halloc⟩

/-- The index invariant holds in every reachable state, and there every call that links or unlinks
units returns. -/
theorem jitIndex_invariant (memory : JitState) (s : JitState)
    (h : Reachable step Admissible (mainLoopStart memory) s) :
    IndexInvariant s ∧ CallsReturn s := by
  obtain ⟨⟨order, bucket, hindexed⟩, hplaced⟩ := reachable_indexed h
  exact ⟨hindexed.indexInvariant, hindexed.callsReturn hplaced⟩

/-- The invariant in the state with one unit. -/
theorem jitIndex_invariant_oneUnit :
    ∃ s, (s.unit 7).isSome ∧ IndexInvariant s ∧ CallsReturn s := by
  obtain ⟨s, t, hreachable, -, -, hunit, -⟩ := exists_firstUnit 0x1000 7
  refine ⟨s, ?_, jitIndex_invariant zeroMemory s hreachable⟩
  rw [hunit, Function.update_self]
  rfl

end Emu68.Jit
