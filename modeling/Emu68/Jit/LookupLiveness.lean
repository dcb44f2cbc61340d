import Emu68.Jit.IndexInvariant

/-!
Liveness of the look-up cache. An entry of `LRU_cache` keeps a raw code pointer to a unit. Units
are freed without looking at that cache: by the eviction loop of `M68K_GetTranslationUnit`, and by
the verification functions. So the entries stay live in exactly the runs in which no unit that has
an entry is freed, and in which no look-up of address 0 takes the bucket header for a unit; a
flush (`check_cacr`, `invalidate_instruction_cache`) empties the cache and needs no condition.
-/

set_option autoImplicit false
set_option relaxedAutoImplicit false

namespace Emu68.Jit

open Lib Exec

/-- The unit `u` is allocated, linked in the bucket of `address`, holds the code of `address`, and
`arm` is its entry point. -/
def Serves (s : JitState) (u : UnitAddr) (address : UInt32) (arm : Option ArmPtr) : Prop :=
  ∃ t nodes, s.unit u = some t ∧ t.mtM68kAddress = address ∧ arm = some t.mtARMEntryPoint ∧
    Linked s.links (icache (bucketOf address)) nodes ∧ .hashNode u ∈ nodes

/-- Every entry that is in use holds the entry point of a live unit for its address, and
`LRU_FindBlock` returns only such entry points. -/
def LookupLiveness (s : JitState) : Prop :=
  (∀ i < lruSetCount * lruWayCount, (s.lruCache i).m68k ≠ 0xffffffff →
    ∃ u, Serves s u (s.lruCache i).m68k (s.lruCache i).arm) ∧
  ∀ pc code, (lruFindBlock s pc).2 = some code → ∃ u, Serves s u pc (some code)

/-- The units of the LRU list, from most to least recently used. -/
def lruOrder (s : JitState) : List UnitAddr :=
  ((forEachNode walkFuel s.links lru).getD []).filterMap unitOfLRUNode

/-- The last `n` units of the LRU list. -/
def leastRecent (s : JitState) (n : ℕ) : List UnitAddr :=
  (lruOrder s).drop ((lruOrder s).length - n)

/-- No entry of the look-up cache points at the code of `u`. -/
def NotCached (s : JitState) (u : UnitAddr) : Prop :=
  ∀ i < lruSetCount * lruWayCount, (s.lruCache i).arm ≠ some (.code (codeStart u))

/-- The units that a call is about to free have no entry in the look-up cache, and no look-up of
address 0 reaches a bucket header with a matching key. -/
def SparesCached (s : JitState) : JitOp → Prop
  | .getTranslationUnit _ answers _ _ =>
    ∀ u ∈ leastRecent s (64 * failedAnswers answers), NotCached s u
  | .verifyUnit unit view =>
    ∀ u t, unit = some u → s.unit u = some t → unitChanged s t view → NotCached s u
  | .verifyUnitCRC32 unit view =>
    ∀ u t, unit = some u → s.unit u = some t →
      view.calcCRC32 t.mtM68kLow t.mtM68kHigh ≠ t.mtCRC32 → NotCached s u
  | .findUnitQuick pc => pc ≠ 0 ∨ s.epoch ≠ 0 ∨ (lruFindBlock s pc).2 ≠ none
  | .findUnit pc => pc ≠ 0
  | _ => True

/-- Each entry is unused or belongs to an allocated unit. -/
def EntriesLive (s : JitState) : Prop :=
  ∀ i < lruSetCount * lruWayCount, s.lruCache i = ⟨0xffffffff, none⟩ ∨
    ∃ u t, s.unit u = some t ∧ s.lruCache i = ⟨t.mtM68kAddress, some t.mtARMEntryPoint⟩

variable {s s' : JitState} {order gone : List UnitAddr} {bucket : Hash → List UnitAddr}
  {u : UnitAddr} {t : M68KTranslationUnit}

theorem Indexed.lruOrder_eq (h : Indexed s order [] bucket) : lruOrder s = order := by
  have hlength := h.length_le
  rw [List.append_nil] at hlength
  have hwalk : forEachNode walkFuel s.links lru = some (lru.lhHead :: order.map .lruNode) :=
    forEachNode_linked h.order_linked (by simp only [List.length_map, walkFuel]; omega)
  have hunits : ∀ units : List UnitAddr,
      (units.map NodeAddr.lruNode).filterMap unitOfLRUNode = units := by
    intro units
    induction units with
    | nil => rfl
    | cons v rest ih => rw [List.map_cons, List.filterMap_cons, unitOfLRUNode, ih]
  rw [lruOrder, hwalk, Option.getD_some, List.filterMap_cons, hunits]
  rfl

/-! ### The entries -/

theorem findWay_spec {address : UInt32} {i : ℕ} (h : findWay s address = some i) :
    i < lruWayCount ∧ (s.lruCache (addr2Set address * lruWayCount + i)).m68k = address := by
  have hmem := List.mem_of_find?_eq_some h
  have hfound := List.find?_some h
  exact ⟨List.mem_range.mp hmem, by simpa using hfound⟩

/-- What `LRU_FindBlock` returns is the code of an entry for the address. -/
theorem lruFindBlock_entry {pc : UInt32} {code : ArmPtr} (h : (lruFindBlock s pc).2 = some code) :
    ∃ i < lruSetCount * lruWayCount, s.lruCache i = ⟨pc, some code⟩ := by
  unfold lruFindBlock at h
  dsimp only at h
  split at h
  · rename_i i hi
    obtain ⟨hway, haddress⟩ := findWay_spec hi
    have hset : addr2Set pc < lruSetCount := Nat.mod_lt _ (by decide)
    have hindex : addr2Set pc * lruWayCount + i < lruSetCount * lruWayCount := by
      simp only [lruWayCount, lruSetCount] at *
      omega
    refine ⟨_, hindex, ?_⟩
    cases hentry : s.lruCache (addr2Set pc * lruWayCount + i) with
    | mk m68k arm =>
      rw [hentry] at haddress h
      simp only at haddress h
      rw [haddress, h]
  · cases h

theorem Indexed.serves (h : Indexed s order [] bucket) (hu : s.unit u = some t) :
    Serves s u t.mtM68kAddress (some t.mtARMEntryPoint) := by
  have hmem : u ∈ bucket (bucketOf t.mtM68kAddress) := (h.mem_bucket _ u).mpr ⟨t, hu, rfl⟩
  exact ⟨t, _, hu, rfl, rfl, h.bucket_linked _, List.mem_map_of_mem hmem⟩

/-- Live entries are all that the claim about the look-up cache needs. -/
theorem EntriesLive.lookupLiveness (hlive : EntriesLive s) (h : Indexed s order [] bucket) :
    LookupLiveness s := by
  constructor
  · intro i hi hused
    rcases hlive i hi with hentry | ⟨u, t, hu, hentry⟩
    · rw [hentry] at hused
      exact absurd rfl hused
    · rw [hentry]
      exact ⟨u, h.serves hu⟩
  · intro pc code hfind
    obtain ⟨i, hi, hentry⟩ := lruFindBlock_entry hfind
    rcases hlive i hi with hunused | ⟨u, t, hu, hused⟩
    · rw [hentry] at hunused
      cases hunused
    · rw [hentry] at hused
      cases hused
      exact ⟨u, h.serves hu⟩

theorem EntriesLive.congr (hlive : EntriesLive s) (hunit : s'.unit = s.unit)
    (hcache : s'.lruCache = s.lruCache) : EntriesLive s' := by
  intro i hi
  rw [hunit, hcache]
  exact hlive i hi

/-- Freeing units without entries keeps the entries live. -/
theorem EntriesLive.prunes (hlive : EntriesLive s) (hplaced : Placed s) (h : Prunes s s' gone)
    (hgone : ∀ u ∈ gone, NotCached s u) : EntriesLive s' := by
  intro i hi
  rw [h.lruCache]
  rcases hlive i hi with hunused | ⟨u, t, hu, hentry⟩
  · exact Or.inl hunused
  · have hkept : u ∉ gone := by
      intro hmem
      refine hgone u hmem i hi ?_
      rw [hentry, hplaced.entry u t hu]
    obtain ⟨t', ht', haddress, harm, -⟩ := h.kept u t hu hkept
    exact Or.inr ⟨u, t', ht', by rw [hentry, haddress, harm]⟩

/-- A unit in a fresh block disturbs no entry. -/
theorem EntriesLive.addUnit (hlive : EntriesLive s) (hfree : s.unit u = none)
    (hunit : s'.unit = Function.update s.unit u (some t)) (hcache : s'.lruCache = s.lruCache) :
    EntriesLive s' := by
  intro i hi
  rw [hunit, hcache]
  rcases hlive i hi with hunused | ⟨v, t', hv, hentry⟩
  · exact Or.inl hunused
  · have hne : v ≠ u := by
      rintro rfl
      rw [hfree] at hv
      cases hv
    exact Or.inr ⟨v, t', by rwa [Function.update_of_ne hne], hentry⟩

/-- `LRU_InsertBlock` overwrites one entry. -/
theorem lruInsertBlock_spec {unit : UnitHead} (h : lruInsertBlock s unit = some s') :
    s'.unit = s.unit ∧ s'.lruCache = Function.update s.lruCache
      (addr2Set unit.mtM68kAddress * lruWayCount + clz (s.lruAlloc (addr2Set unit.mtM68kAddress)))
      ⟨unit.mtM68kAddress, unit.mtARMEntryPoint⟩ := by
  unfold lruInsertBlock at h
  dsimp only at h
  split at h
  · cases h
    exact ⟨rfl, rfl⟩
  · cases h

/-- Entering an allocated unit keeps the entries live. -/
theorem EntriesLive.insert {unit : UnitHead} (hlive : EntriesLive s)
    (hread : readUnit s (.hashNode u) = some unit) (h : lruInsertBlock s unit = some s') :
    EntriesLive s' := by
  obtain ⟨t, ht, rfl⟩ := Option.map_eq_some_iff.mp hread
  obtain ⟨hunit, hcache⟩ := lruInsertBlock_spec h
  intro i hi
  rw [hunit, hcache, Function.update_apply]
  split
  · exact Or.inr ⟨u, t, ht, rfl⟩
  · exact hlive i hi

theorem lruInvalidateAll_entriesLive (s : JitState) : EntriesLive (lruInvalidateAll s) := by
  intro i hi
  exact Or.inl (if_pos hi)

/-! ### The scans -/

theorem scanBucket_spec {found : UnitHead → Bool} {nodes : List NodeAddr} {n : NodeAddr}
    {unit : UnitHead} (h : scanBucket s found nodes = some (some (n, unit))) :
    n ∈ nodes ∧ readUnit s n = some unit ∧ found unit = true := by
  induction nodes with
  | nil => cases h
  | cons first rest ih =>
    rw [scanBucket] at h
    cases hread : readUnit s first with
    | none =>
      rw [hread] at h
      cases h
    | some head =>
      rw [hread] at h
      dsimp only at h
      split at h
      · rename_i hfound
        cases h
        exact ⟨List.mem_cons_self, hread, hfound⟩
      · obtain ⟨hmem, hrest⟩ := ih h
        exact ⟨List.mem_cons_of_mem _ hmem, hrest⟩

/-- A scan that finds a unit for a key other than zero found a unit of the bucket, not its
header. -/
theorem Indexed.findInBucket_unit (h : Indexed s order [] bucket) {pc : UInt32}
    {found : UnitHead → Bool} {n : NodeAddr} {unit : UnitHead}
    (hheader : ∀ arm, found ⟨0, 0, arm⟩ = false)
    (hscan : findInBucket s pc found = some (some (n, unit))) :
    ∃ u, readUnit s (.hashNode u) = some unit := by
  have hlength : (bucket (bucketOf pc)).length ≤ jitGranules := by
    simpa using (h.nodup_bucket (bucketOf pc)).length_le_card
  have hwalk : forEachNode walkFuel s.links (icache (bucketOf pc)) = some _ :=
    forEachNode_linked (h.bucket_linked (bucketOf pc))
      (by simp only [List.length_map, walkFuel]; omega)
  rw [findInBucket, hwalk] at hscan
  obtain ⟨hmem, hread, hfound⟩ := scanBucket_spec hscan
  rcases List.mem_cons.mp hmem with rfl | hmem
  · have htail : s.links.next (.bucketTail (bucketOf pc)) = none :=
      (h.bucket_linked (bucketOf pc)).tail_next
    rw [icache, readUnit, htail] at hread
    cases hread
    rw [hheader] at hfound
    cases hfound
  · obtain ⟨u, -, rfl⟩ := List.mem_map.mp hmem
    exact ⟨u, hread⟩

/-! ### Steps and runs -/

/-- A call that frees no unit with an entry keeps the entries live. -/
theorem step_entriesLive (hlive : EntriesLive s) (h : Indexed s order [] bucket)
    (hplaced : Placed s) {op : JitOp} (hadmissible : Admissible s op) (hspares : SparesCached s op)
    (hstep : step s op = some s') : EntriesLive s' := by
  cases op with
  | lruFindBlock address =>
    cases hstep
    exact hlive.congr (lruFindBlock_sameIndex s address).unit (lruFindBlock_lruCache s address)
  | lruInsertBlock u =>
    obtain ⟨unit, hread, hinsert⟩ := Option.bind_eq_some_iff.mp hstep
    exact hlive.insert hread hinsert
  | findUnitQuick pc =>
    obtain ⟨⟨s₁, code⟩, hfind, rfl⟩ := Option.map_eq_some_iff.mp hstep
    have hfirst := lruFindBlock_sameIndex s pc
    have hlive₁ := hlive.congr hfirst.unit (lruFindBlock_lruCache s pc)
    rcases findUnitQuick_cases hfind with rfl | ⟨hmiss, n, unit, hscan, hinsert⟩
    · exact hlive₁
    · have hheader : ∀ arm, matchesKey s.epoch pc ⟨0, 0, arm⟩ = false := by
        intro arm
        rcases hspares with hpc | hepoch | hhit
        · simp [matchesKey, Ne.symm hpc]
        · simp [matchesKey, Ne.symm hepoch]
        · exact absurd hmiss hhit
      obtain ⟨u, hread⟩ := (hfirst.indexed h).findInBucket_unit hheader hscan
      exact hlive₁.insert hread hinsert
  | findUnit pc =>
    obtain ⟨⟨s₁, result⟩, hfind, rfl⟩ := Option.map_eq_some_iff.mp hstep
    rcases findUnit_cases hfind with rfl | ⟨n, unit, hscan, hinsert⟩
    · exact hlive
    · have hpc : pc ≠ 0 := hspares
      have hheader : ∀ arm, matchesAddress pc ⟨0, 0, arm⟩ = false := fun arm ↦ by
        simp [matchesAddress, Ne.symm hpc]
      obtain ⟨u, hread⟩ := h.findInBucket_unit hheader hscan
      exact hlive.insert hread hinsert
  | findUnitNoLRU pc =>
    obtain ⟨result, -, rfl⟩ := Option.map_eq_some_iff.mp hstep
    exact hlive
  | getTranslationUnit pc answers translation view =>
    obtain ⟨⟨s₂, u₂⟩, hget, rfl⟩ := Option.map_eq_some_iff.mp hstep
    obtain ⟨s₁, u, hallocate, hfree, hlength⟩ := exists_allocation hget hadmissible
    obtain ⟨s₃, u₃, bucket₃, hallocate₃, -, hprune⟩ :=
      allocateUnit_indexed answers (exists_of_allocateUnit hallocate) h
    rw [hallocate] at hallocate₃
    cases hallocate₃
    obtain ⟨s₄, order₄, bucket₄, t, hget₄, -, -, -, -, hunit, -, hcache, -⟩ :=
      m68kGetTranslationUnit_indexed pc translation view h hallocate hfree.unallocated hlength
    rw [hget] at hget₄
    cases hget₄
    refine (hlive.prunes hplaced hprune fun v hv ↦ hspares v ?_).addUnit hfree.unallocated hunit
      hcache
    rw [leastRecent, h.lruOrder_eq]
    exact hv
  | verifyUnit unit view =>
    obtain ⟨⟨s₁, kept⟩, hverify, rfl⟩ := Option.map_eq_some_iff.mp hstep
    cases unit with
    | none =>
      cases hverify
      exact hlive
    | some u =>
      obtain ⟨t, ht⟩ := Option.isSome_iff_exists.mp (hadmissible u rfl)
      obtain ⟨s₂, kept₂, order₂, bucket₂, hverify₂, h₂, heffect⟩ := m68kVerifyUnit_indexed h ht view
      rw [hverify] at hverify₂
      cases hverify₂
      rcases heffect with ⟨-, hprune⟩ | ⟨-, hchanged, hprune⟩
      · exact hlive.prunes hplaced hprune fun v hv ↦ absurd hv List.not_mem_nil
      · refine hlive.prunes hplaced hprune fun v hv ↦ ?_
        rw [List.mem_singleton.mp hv]
        exact hspares u t rfl ht hchanged
  | verifyUnitCRC32 unit view =>
    obtain ⟨⟨s₁, kept⟩, hverify, rfl⟩ := Option.map_eq_some_iff.mp hstep
    cases unit with
    | none =>
      cases hverify
      exact hlive
    | some u =>
      obtain ⟨t, ht⟩ := Option.isSome_iff_exists.mp (hadmissible u rfl)
      obtain ⟨s₂, kept₂, order₂, bucket₂, hverify₂, h₂, heffect⟩ :=
        m68kVerifyUnitCRC32_indexed h ht view
      rw [hverify] at hverify₂
      cases hverify₂
      rcases heffect with ⟨-, hprune⟩ | ⟨-, hchanged, hprune⟩
      · exact hlive.prunes hplaced hprune fun v hv ↦ absurd hv List.not_mem_nil
      · refine hlive.prunes hplaced hprune fun v hv ↦ ?_
        rw [List.mem_singleton.mp hv]
        exact hspares u t rfl ht hchanged
  | invalidateInstructionCache =>
    cases hstep
    exact (lruInvalidateAll_entriesLive s).congr rfl rfl
  | checkCacr cacr returnAddress =>
    obtain ⟨s₁, order₁, bucket₁, hcheck, h₁, -, heffect⟩ :=
      checkCacr_indexed h hplaced cacr returnAddress
    have hcheck' : checkCacr s cacr returnAddress = some s' := hstep
    rw [hcheck] at hcheck'
    cases hcheck'
    rcases heffect with rfl | ⟨hcache, -⟩
    · exact hlive.congr rfl rfl
    · intro i hi
      rw [hcache]
      exact Or.inl (if_pos hi)
  | writeJitControl control control2 =>
    cases hstep
    exact hlive.congr rfl rfl

theorem lruFindBlock_congr (hcache : s'.lruCache = s.lruCache) (pc : UInt32) :
    (lruFindBlock s' pc).2 = (lruFindBlock s pc).2 := by
  have hway : findWay s' pc = findWay s pc := by rw [findWay, findWay, hcache]
  simp only [lruFindBlock, hway]
  cases findWay s pc with
  | none => rfl
  | some i => simp only [hcache]

/-- After a boot with zero memory, a first unit can be created and entered, and is then found. -/
theorem exists_cachedUnit (pc : UInt32) (u : UnitAddr) :
    ∃ s t, Reachable step (fun s op ↦ Admissible s op ∧ SparesCached s op)
        (mainLoopStart zeroMemory) s ∧
      s.unit = Function.update (fun _ ↦ none) u (some t) ∧
      (lruFindBlock s pc).2 = some (.code (codeStart u)) := by
  obtain ⟨s₁, t, -, hcreate, hadmissible, hunit, haddress, hentry, hcache, halloc⟩ :=
    exists_firstUnit pc u
  have hspares : SparesCached (mainLoopStart zeroMemory) (createAt pc [some u]) := by
    intro v hv
    rw [leastRecent, (mainLoopStart_indexed zeroMemory).lruOrder_eq] at hv
    simp at hv
  have hread : readUnit s₁ (.hashNode u) = some ⟨t.mtEpoch, pc, some (.code (codeStart u))⟩ := by
    simp only [readUnit, hunit, Function.update_self, Option.map_some, haddress, hentry]
  have hset : addr2Set pc < lruSetCount := Nat.mod_lt _ (by decide)
  have hway : s₁.lruAlloc (addr2Set pc) = 0xffffffff := by
    rw [halloc]
    exact if_pos hset
  have hfirst : clz 0xffffffff = 0 := by decide
  obtain ⟨s₂, hinsert⟩ : ∃ s₂, lruInsertBlock s₁ ⟨t.mtEpoch, pc, some (.code (codeStart u))⟩ =
      some s₂ := by
    refine ⟨_, if_pos ?_⟩
    dsimp only
    rw [hway, hfirst]
    simp only [lruWayCount, lruSetCount] at *
    omega
  obtain ⟨hunit₂, hcache₂⟩ := lruInsertBlock_spec hinsert
  have hstep : step s₁ (.lruInsertBlock u) = some s₂ := by
    simp only [step, hread, Option.bind_some, hinsert]
  refine ⟨s₂, t, .tail (.lruInsertBlock u) (.tail _ .refl ⟨hadmissible, hspares⟩ hcreate)
    ⟨?_, trivial⟩ hstep, hunit₂.trans hunit, ?_⟩
  · change (s₁.unit u).isSome
    rw [hunit, Function.update_self]
    rfl
  · dsimp only at hcache₂
    rw [hway, hfirst] at hcache₂
    have hslot : s₂.lruCache (addr2Set pc * lruWayCount + 0) =
        ⟨pc, some (.code (codeStart u))⟩ := by
      rw [hcache₂, Function.update_self]
    have hfound : findWay s₂ pc = some 0 := by
      have hrange : List.range lruWayCount = [0, 1, 2, 3] := rfl
      rw [findWay, hrange, List.find?_cons_of_pos]
      rw [hslot]
      exact decide_eq_true rfl
    simp only [lruFindBlock, hfound, hslot]

/-- In every run whose calls free no unit with an entry in the look-up cache and take no bucket
header for a unit, the look-up cache is live in every state reached. -/
theorem lookup_liveness (memory : JitState) (s : JitState)
    (h : Reachable step (fun s op ↦ Admissible s op ∧ SparesCached s op) (mainLoopStart memory) s) :
    LookupLiveness s := by
  have hinv : ((∃ order bucket, Indexed s order [] bucket) ∧ Placed s) ∧ EntriesLive s := by
    refine h.invariant (fun s ↦
      ((∃ order bucket, Indexed s order [] bucket) ∧ Placed s) ∧ EntriesLive s) ?_ ?_
    · exact ⟨⟨⟨[], fun _ ↦ [], mainLoopStart_indexed memory⟩, mainLoopStart_placed memory⟩,
        lruInvalidateAll_entriesLive _⟩
    · rintro s op s' ⟨⟨⟨order, bucket, hindexed⟩, hplaced⟩, hlive⟩ ⟨hadmissible, hspares⟩ hstep
      exact ⟨step_indexed hindexed hplaced hadmissible hstep,
        step_entriesLive hlive hindexed hplaced hadmissible hspares hstep⟩
  obtain ⟨⟨⟨order, bucket, hindexed⟩, -⟩, hlive⟩ := hinv
  exact hlive.lookupLiveness hindexed

/-- The look-up of a unit that was created and entered. -/
theorem lookup_liveness_cached :
    ∃ s, (lruFindBlock s 0x1000).2 = some (.code (codeStart 7)) ∧ LookupLiveness s := by
  obtain ⟨s, t, hreachable, -, hfind⟩ := exists_cachedUnit 0x1000 7
  exact ⟨s, hfind, lookup_liveness zeroMemory s hreachable⟩

/-- A unit for `0x1000` is created and entered in the look-up cache. Creating a second unit, for
`0x2000`, finds the pool full and evicts the first. `LRU_FindBlock(0x1000)` then returns the code
of the freed unit. -/
theorem lookup_liveness_evicted :
    ∃ s, Reachable step Admissible (mainLoopStart zeroMemory) s ∧
      (lruFindBlock s 0x1000).2 = some (.code (codeStart 0)) ∧ s.unit 0 = none ∧
      ¬LookupLiveness s := by
  obtain ⟨s, t, hreachable, hunit, hfind⟩ := exists_cachedUnit 0x1000 0
  have hreachable' : Reachable step Admissible (mainLoopStart zeroMemory) s :=
    hreachable.mono fun _ _ hok ↦ hok.1
  obtain ⟨⟨order, bucket, hindexed⟩, hplaced⟩ := reachable_indexed hreachable'
  have horder : order = [0] := by
    refine List.perm_singleton.mp ((List.perm_ext_iff_of_nodup (by simpa using hindexed.nodup)
      (List.nodup_singleton 0)).mpr fun v ↦ ?_)
    have hallocated := hindexed.allocated v
    rw [List.append_nil, hunit, Function.update_apply] at hallocated
    rw [← hallocated, List.mem_singleton]
    split <;> simp_all
  subst horder
  obtain ⟨s₁, bucket₁, hevict, -, hprune⟩ := evictTails_indexed 64 hindexed
  have hempty : ∀ v, ({ s₁ with lastPC := 0xffffffff } : JitState).unit v = none := by
    intro v
    change s₁.unit v = none
    rw [Option.eq_none_iff_forall_ne_some]
    intro t' ht'
    obtain ⟨hgone, t'', ht'', -⟩ := hprune.old v t' ht'
    rw [hunit, Function.update_apply] at ht''
    split at ht''
    · rename_i hv
      simp [hv] at hgone
    · cases ht''
  have hallocate : allocateUnit [none, some 1] s = some ({ s₁ with lastPC := 0xffffffff }, 1) := by
    simp only [allocateUnit, hevict, Option.bind_eq_bind, Option.bind_some]
  obtain ⟨hadmissible, s₂, t₂, hstep, hunit₂, -, -, hcache, -⟩ :=
    exists_create hindexed 0x2000 ⟨8, 0x1000, 0x1004⟩ ⟨fun _ ↦ 0, fun _ _ ↦ 0⟩ hallocate
      (freeBlock_of_empty hempty 1 _) (shortTranslation_fits _)
  have hfreed : s₂.unit 0 = none := by
    rw [hunit₂, Function.update_of_ne (by decide)]
    exact hempty 0
  have hstale : (lruFindBlock s₂ 0x1000).2 = some (.code (codeStart 0)) := by
    rw [lruFindBlock_congr (hcache.trans hprune.lruCache), hfind]
  refine ⟨s₂, .tail _ hreachable' hadmissible hstep, hstale, hfreed, fun hlive ↦ ?_⟩
  obtain ⟨u, t', nodes, ht', -, harm, -⟩ := hlive.2 _ _ hstale
  obtain ⟨-, hplaced₂⟩ := step_indexed hindexed hplaced hadmissible hstep
  rw [hplaced₂.entry u t' ht', Option.some_inj, ArmPtr.code.injEq] at harm
  have hzero : u = 0 := by
    simp only [codeStart, Fin.val_zero] at harm
    exact Fin.ext (by simp only [Fin.val_zero]; omega)
  rw [hzero, hfreed] at ht'
  cases ht'

end Emu68.Jit
