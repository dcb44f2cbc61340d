import Emu68.Jit.LookupLiveness

/-!
Soundness of the bucket scans. `ForeachNode` begins with the head sentinel of the bucket, which is
read as if it were a unit. Its fields are the tail sentinel's: the epoch and the address are the
null pointer `lh_Tail.ln_Next`. So a scan takes the header for a unit exactly where it looks for
the address 0, and, if it compares the epoch as well, where the epoch is 0. All other scans return
nothing, or a live unit of the bucket for the address.
-/

set_option autoImplicit false
set_option relaxedAutoImplicit false

namespace Emu68.Jit

open Lib Exec

/-! ### What the scans return -/

/-- The search of `MainLoop`, which does not test the epoch. Its result goes to `M68K_VerifyUnit`. -/
def mainLoopScan (s : JitState) (copyPC : UInt32) : Option (Option NodeAddr) :=
  (findInBucket s copyPC (matchesAddress copyPC)).map (·.map Prod.fst)

/-- The unit `u`, with contents `t`, is linked in the bucket of `pc` and has the code of `pc`. -/
structure UnitFor (s : JitState) (pc : UInt32) (u : UnitAddr) (t : M68KTranslationUnit) : Prop where
  live : s.unit u = some t
  address : t.mtM68kAddress = pc
  linked : ∃ nodes, Linked s.links (icache (bucketOf pc)) nodes ∧ .hashNode u ∈ nodes

/-- No node, or the node of a unit for `pc`. -/
def NodeFor (s : JitState) (pc : UInt32) (node : Option NodeAddr) : Prop :=
  ∀ n, node = some n → ∃ u t, n = .hashNode u ∧ UnitFor s pc u t

/-- No code, or the entry point of a unit for `pc`. -/
def CodeFor (s : JitState) (pc : UInt32) (code : Option ArmPtr) : Prop :=
  ∀ arm, code = some arm → ∃ u t, arm = t.mtARMEntryPoint ∧ UnitFor s pc u t

/-- `FindUnitQuick` returns, and what it returns from the bucket is sound. -/
def FindUnitQuickSound (s : JitState) (pc : UInt32) : Prop :=
  ∃ s' code, findUnitQuick s pc = some (s', code) ∧
    ((lruFindBlock s pc).2 = none → CodeFor s pc code)

def FindUnitSound (s : JitState) (pc : UInt32) : Prop :=
  ∃ s' node, findUnit s pc = some (s', node) ∧ NodeFor s pc node

def FindUnitNoLRUSound (s : JitState) (pc : UInt32) : Prop :=
  ∃ node, findUnitNoLRU s pc = some node ∧ NodeFor s pc node

def MainLoopSound (s : JitState) (pc : UInt32) : Prop :=
  ∃ node, mainLoopScan s pc = some node ∧ NodeFor s pc node

variable {s s' : JitState} {order : List UnitAddr} {bucket : Hash → List UnitAddr}
  {pc : UInt32} {found : UnitHead → Bool}

/-! ### Ways -/

/-- Every set of the look-up cache has a way that `LRU_InsertBlock` can take. -/
def WaysReady (s : JitState) : Prop := ∀ set < lruSetCount, s.lruAlloc set >>> 28 ≠ 0

theorem touchWay_ready (current : UInt32) {way : ℕ} (h : way < lruWayCount) :
    touchWay current way >>> 28 ≠ 0 := by
  have hothers : ∀ way < lruWayCount, ~~~wayMask way >>> 28 ≠ 0 := by decide
  unfold touchWay
  dsimp only
  split
  · exact hothers way h
  · assumption

theorem clz_lt {x : UInt32} (h : x >>> 28 ≠ 0) : clz x < lruWayCount := by
  have hne : x ≠ 0 := by
    rintro rfl
    exact h (by decide)
  have hge : 2 ^ 28 ≤ x.toNat := by
    by_contra hlt
    refine h (UInt32.toNat_inj.mp ?_)
    rw [UInt32.toNat_shiftRight, Nat.shiftRight_eq_div_pow]
    exact Nat.div_eq_of_lt (not_le.mp hlt)
  have hlog : 28 ≤ x.toNat.log2 := (Nat.le_log2 (by omega)).mpr hge
  rw [clz, if_neg hne]
  simp only [lruWayCount]
  omega

theorem WaysReady.congr (h : WaysReady s) (halloc : s'.lruAlloc = s.lruAlloc) : WaysReady s' :=
  fun set hset ↦ halloc ▸ h set hset

theorem WaysReady.touch (h : WaysReady s) {set way : ℕ} (hway : way < lruWayCount)
    (halloc : s'.lruAlloc =
      Function.update s.lruAlloc set (touchWay (s.lruAlloc set) way)) : WaysReady s' := by
  intro set' hset'
  rw [halloc, Function.update_apply]
  split
  · exact touchWay_ready _ hway
  · exact h set' hset'

theorem WaysReady.findBlock (h : WaysReady s) (address : UInt32) :
    WaysReady (lruFindBlock s address).1 := by
  unfold lruFindBlock
  dsimp only
  split
  · rename_i i hi
    exact h.touch (findWay_spec hi).1 rfl
  · exact h

/-- `LRU_InsertBlock` stays within its set. -/
theorem WaysReady.insert (h : WaysReady s) (unit : UnitHead) :
    ∃ s', lruInsertBlock s unit = some s' ∧ WaysReady s' := by
  have hset := addr2Set_lt unit.mtM68kAddress
  have hway := clz_lt (h _ hset)
  unfold lruInsertBlock
  dsimp only
  rw [if_pos (by simp only [lruSetCount, lruWayCount] at *; omega)]
  exact ⟨_, rfl, h.touch hway rfl⟩

theorem WaysReady.of_insert (h : WaysReady s) {unit : UnitHead}
    (hinsert : lruInsertBlock s unit = some s') : WaysReady s' := by
  obtain ⟨s₁, hinsert₁, hready⟩ := h.insert unit
  rw [hinsert] at hinsert₁
  cases hinsert₁
  exact hready

theorem WaysReady.of_invalidateAll (s : JitState) : WaysReady (lruInvalidateAll s) := by
  intro set hset
  simp only [lruInvalidateAll, if_pos hset]
  decide

theorem step_waysReady (h : WaysReady s) (hindexed : Indexed s order [] bucket)
    (hplaced : Placed s) {op : JitOp} (hadmissible : Admissible s op)
    (hstep : step s op = some s') : WaysReady s' := by
  cases op with
  | lruFindBlock address =>
    cases hstep
    exact h.findBlock address
  | lruInsertBlock u =>
    obtain ⟨unit, -, hinsert⟩ := Option.bind_eq_some_iff.mp hstep
    exact h.of_insert hinsert
  | findUnitQuick pc =>
    obtain ⟨⟨s₁, code⟩, hfind, rfl⟩ := Option.map_eq_some_iff.mp hstep
    rcases findUnitQuick_cases hfind with rfl | ⟨-, n, unit, -, hinsert⟩
    · exact h.findBlock pc
    · exact (h.findBlock pc).of_insert hinsert
  | findUnit pc =>
    obtain ⟨⟨s₁, result⟩, hfind, rfl⟩ := Option.map_eq_some_iff.mp hstep
    rcases findUnit_cases hfind with rfl | ⟨n, unit, -, hinsert⟩
    · exact h
    · exact h.of_insert hinsert
  | findUnitNoLRU pc =>
    obtain ⟨result, -, rfl⟩ := Option.map_eq_some_iff.mp hstep
    exact h
  | getTranslationUnit pc answers translation view =>
    obtain ⟨⟨s₂, u₂⟩, hget, rfl⟩ := Option.map_eq_some_iff.mp hstep
    obtain ⟨s₁, u, hallocate, hfree, hlength⟩ := exists_allocation hget hadmissible
    obtain ⟨s₃, u₃, bucket₃, hallocate₃, -, hprune⟩ :=
      allocateUnit_indexed answers (exists_of_allocateUnit hallocate) hindexed
    rw [hallocate] at hallocate₃
    cases hallocate₃
    obtain ⟨s₄, order₄, bucket₄, t, hget₄, -, -, -, -, -, -, -, halloc⟩ :=
      m68kGetTranslationUnit_indexed pc translation view hindexed hallocate hfree.unallocated
        hlength
    rw [hget] at hget₄
    cases hget₄
    exact h.congr (halloc.trans hprune.lruAlloc)
  | verifyUnit unit view =>
    obtain ⟨⟨s₁, kept⟩, hverify, rfl⟩ := Option.map_eq_some_iff.mp hstep
    cases unit with
    | none =>
      cases hverify
      exact h
    | some u =>
      obtain ⟨t, ht⟩ := Option.isSome_iff_exists.mp (hadmissible u rfl)
      obtain ⟨s₂, kept₂, order₂, bucket₂, hverify₂, -, heffect⟩ :=
        m68kVerifyUnit_indexed hindexed ht view
      rw [hverify] at hverify₂
      cases hverify₂
      rcases heffect with ⟨-, hprune⟩ | ⟨-, -, hprune⟩ <;> exact h.congr hprune.lruAlloc
  | verifyUnitCRC32 unit view =>
    obtain ⟨⟨s₁, kept⟩, hverify, rfl⟩ := Option.map_eq_some_iff.mp hstep
    cases unit with
    | none =>
      cases hverify
      exact h
    | some u =>
      obtain ⟨t, ht⟩ := Option.isSome_iff_exists.mp (hadmissible u rfl)
      obtain ⟨s₂, kept₂, order₂, bucket₂, hverify₂, -, heffect⟩ :=
        m68kVerifyUnitCRC32_indexed hindexed ht view
      rw [hverify] at hverify₂
      cases hverify₂
      rcases heffect with ⟨-, hprune⟩ | ⟨-, -, hprune⟩ <;> exact h.congr hprune.lruAlloc
  | invalidateInstructionCache =>
    cases hstep
    exact (WaysReady.of_invalidateAll { s with lastPC := 0xffffffff }).congr rfl
  | checkCacr cacr returnAddress =>
    obtain ⟨s₁, order₁, bucket₁, hcheck, -, -, heffect⟩ :=
      checkCacr_indexed hindexed hplaced cacr returnAddress
    have hcheck' : checkCacr s cacr returnAddress = some s' := hstep
    rw [hcheck] at hcheck'
    cases hcheck'
    rcases heffect with rfl | ⟨-, halloc⟩
    · exact h.congr rfl
    · exact (WaysReady.of_invalidateAll s).congr halloc
  | writeJitControl control control2 =>
    cases hstep
    exact h.congr rfl

/-- What holds in every state that is reached from the start of `MainLoop`. -/
theorem reachable_ready {memory : JitState}
    (h : Reachable step Admissible (mainLoopStart memory) s) :
    (∃ order bucket, Indexed s order [] bucket) ∧ Placed s ∧ WaysReady s := by
  refine h.invariant
    (fun s ↦ (∃ order bucket, Indexed s order [] bucket) ∧ Placed s ∧ WaysReady s) ?_ ?_
  · exact ⟨⟨[], fun _ ↦ [], mainLoopStart_indexed memory⟩, mainLoopStart_placed memory,
      (WaysReady.of_invalidateAll _).congr rfl⟩
  · intro s op s' hinv hadmissible hstep
    obtain ⟨⟨order, bucket, hindexed⟩, hplaced, hready⟩ := hinv
    obtain ⟨hindexed', hplaced'⟩ := step_indexed hindexed hplaced hadmissible hstep
    exact ⟨hindexed', hplaced', step_waysReady hready hindexed hplaced hadmissible hstep⟩

/-! ### The scans -/

/-- A scan of live units ends, and what it finds is one of them. -/
theorem scanBucket_units (found : UnitHead → Bool) {units : List UnitAddr}
    (hlive : ∀ u ∈ units, (s.unit u).isSome) :
    ∃ result, scanBucket s found (units.map .hashNode) = some result ∧
      ∀ n unit, result = some (n, unit) → ∃ u ∈ units, ∃ t, n = .hashNode u ∧ s.unit u = some t ∧
        unit = ⟨t.mtEpoch, t.mtM68kAddress, some t.mtARMEntryPoint⟩ ∧ found unit = true := by
  induction units with
  | nil => exact ⟨none, rfl, by simp⟩
  | cons u rest ih =>
    obtain ⟨t, ht⟩ := Option.isSome_iff_exists.mp (hlive u List.mem_cons_self)
    have hread : readUnit s (.hashNode u) =
        some ⟨t.mtEpoch, t.mtM68kAddress, some t.mtARMEntryPoint⟩ := by
      rw [readUnit, ht, Option.map_some]
    rw [List.map_cons, scanBucket, hread]
    by_cases hfound : found ⟨t.mtEpoch, t.mtM68kAddress, some t.mtARMEntryPoint⟩ = true
    · simp only [hfound, if_true]
      refine ⟨_, rfl, fun n unit h ↦ ?_⟩
      cases h
      exact ⟨u, List.mem_cons_self, t, rfl, ht, rfl, hfound⟩
    · simp only [hfound, if_false, Bool.false_eq_true]
      obtain ⟨result, hscan, hresult⟩ := ih fun v hv ↦ hlive v (List.mem_cons_of_mem _ hv)
      refine ⟨result, hscan, fun n unit h ↦ ?_⟩
      obtain ⟨v, hv, hrest⟩ := hresult n unit h
      exact ⟨v, List.mem_cons_of_mem _ hv, hrest⟩

/-- The header read as a unit. -/
theorem Indexed.readUnit_header (h : Indexed s order [] bucket) (hash : Hash) :
    ∃ last, readUnit s (.bucketHead hash) = some ⟨0, 0, some (.node last)⟩ := by
  have hnext : s.links.next (.bucketTail hash) = none := (h.bucket_linked hash).tail_next
  have hprev : s.links.prev (.bucketTail hash) =
      some (((bucket hash).map NodeAddr.hashNode).getLastD (.bucketHead hash)) :=
    (h.bucket_linked hash).tail_prev
  refine ⟨((bucket hash).map NodeAddr.hashNode).getLastD (.bucketHead hash), ?_⟩
  rw [readUnit, hnext]
  simp only [hprev, Option.map_some]

theorem Indexed.findInBucket_eq (h : Indexed s order [] bucket) (pc : UInt32)
    (found : UnitHead → Bool) :
    findInBucket s pc found = scanBucket s found
      (.bucketHead (bucketOf pc) :: (bucket (bucketOf pc)).map .hashNode) := by
  have hlength : (bucket (bucketOf pc)).length ≤ jitGranules := by
    simpa using (h.nodup_bucket (bucketOf pc)).length_le_card
  have hwalk : forEachNode walkFuel s.links (icache (bucketOf pc)) = some _ :=
    forEachNode_linked (h.bucket_linked (bucketOf pc))
      (by simp only [List.length_map, walkFuel]; omega)
  rw [findInBucket, hwalk]
  rfl

/-- A scan that does not match the header finds nothing or a unit for the address. -/
theorem Indexed.findInBucket_sound (h : Indexed s order [] bucket) (found : UnitHead → Bool)
    (haddress : ∀ unit, found unit = true → unit.mtM68kAddress = pc)
    (hheader : ∀ arm, found ⟨0, 0, arm⟩ = false) :
    ∃ result, findInBucket s pc found = some result ∧
      ∀ n unit, result = some (n, unit) →
        ∃ u t, n = .hashNode u ∧ unit.mtARMEntryPoint = some t.mtARMEntryPoint ∧
          UnitFor s pc u t := by
  obtain ⟨last, hread⟩ := h.readUnit_header (bucketOf pc)
  have hlive : ∀ u ∈ bucket (bucketOf pc), (s.unit u).isSome := by
    intro u hu
    obtain ⟨t, ht, -⟩ := (h.mem_bucket _ u).mp hu
    rw [ht]
    rfl
  obtain ⟨result, hscan, hresult⟩ := scanBucket_units found hlive
  refine ⟨result, ?_, fun n unit hfind ↦ ?_⟩
  · rw [h.findInBucket_eq, scanBucket, hread]
    simp only [hheader, Bool.false_eq_true, if_false]
    exact hscan
  · obtain ⟨u, hu, t, hn, ht, rfl, hfound⟩ := hresult n unit hfind
    exact ⟨u, t, hn, rfl, ht, haddress _ hfound, _, h.bucket_linked _, List.mem_map_of_mem hu⟩

/-- A scan that matches the header returns it. -/
theorem Indexed.findInBucket_header (h : Indexed s order [] bucket) (pc : UInt32)
    (hheader : ∀ arm, found ⟨0, 0, arm⟩ = true) :
    ∃ last, findInBucket s pc found =
      some (some (.bucketHead (bucketOf pc), ⟨0, 0, some (.node last)⟩)) := by
  obtain ⟨last, hread⟩ := h.readUnit_header (bucketOf pc)
  refine ⟨last, ?_⟩
  rw [h.findInBucket_eq, scanBucket, hread]
  simp only [hheader, if_true]

/-! ### The look-ups -/

theorem matchesAddress_header (pc : UInt32) (arm : Option ArmPtr) :
    matchesAddress pc ⟨0, 0, arm⟩ = decide (pc = 0) := by
  simp [matchesAddress, eq_comm]

theorem matchesKey_header (epoch pc : UInt32) (arm : Option ArmPtr) :
    matchesKey epoch pc ⟨0, 0, arm⟩ = decide (pc = 0 ∧ epoch = 0) := by
  simp [matchesKey, eq_comm, and_comm]

/-- The node of a header is not that of a unit. -/
theorem not_nodeFor_header (hash : Hash) : ¬ NodeFor s pc (some (.bucketHead hash)) := by
  intro h
  obtain ⟨u, t, hn, -⟩ := h _ rfl
  cases hn

/-- A scan for an address, with its result as a node. -/
theorem Indexed.nodeScan_iff (h : Indexed s order [] bucket) (pc : UInt32) :
    (∃ node, (findInBucket s pc (matchesAddress pc)).map (·.map Prod.fst) = some node ∧
      NodeFor s pc node) ↔ pc ≠ 0 := by
  constructor
  · rintro ⟨node, hscan, hnode⟩ rfl
    obtain ⟨last, hheader⟩ := h.findInBucket_header 0 fun arm ↦ matchesAddress_header 0 arm
    rw [hheader] at hscan
    cases hscan
    exact not_nodeFor_header _ hnode
  · intro hpc
    obtain ⟨result, hscan, hresult⟩ := h.findInBucket_sound (matchesAddress pc)
      (fun unit hfound ↦ of_decide_eq_true hfound)
      (fun arm ↦ (matchesAddress_header pc arm).trans (decide_eq_false hpc))
    refine ⟨result.map Prod.fst, by rw [hscan]; rfl, fun n hn ↦ ?_⟩
    obtain ⟨⟨n', unit⟩, hresult', rfl⟩ := Option.map_eq_some_iff.mp hn
    obtain ⟨u, t, hn', -, hunit⟩ := hresult n' unit hresult'
    exact ⟨u, t, hn', hunit⟩

theorem Indexed.findUnit_iff (h : Indexed s order [] bucket) (hready : WaysReady s)
    (pc : UInt32) : FindUnitSound s pc ↔ pc ≠ 0 := by
  rw [← h.nodeScan_iff pc]
  unfold FindUnitSound findUnit
  cases hscan : findInBucket s pc (matchesAddress pc) with
  | none => simp
  | some result =>
    cases result with
    | none => simp
    | some found =>
      obtain ⟨s', hinsert, -⟩ := hready.insert found.2
      simp [hinsert]

/-- The entry points of units are code, and those of headers are not. -/
theorem not_codeFor_header (hplaced : Placed s) (n : NodeAddr) :
    ¬ CodeFor s pc (some (.node n)) := by
  intro h
  obtain ⟨u, t, harm, hunit⟩ := h _ rfl
  rw [hplaced.entry u t hunit.live] at harm
  cases harm

theorem UnitFor.congr {u : UnitAddr} {t : M68KTranslationUnit} (hsame : SameIndex s s')
    (h : UnitFor s' pc u t) : UnitFor s pc u t where
  live := hsame.unit ▸ h.live
  address := h.address
  linked := hsame.links ▸ h.linked

theorem Indexed.findUnitQuick_iff (h : Indexed s order [] bucket) (hplaced : Placed s)
    (hready : WaysReady s) (pc : UInt32) :
    FindUnitQuickSound s pc ↔ ¬ (pc = 0 ∧ s.epoch = 0 ∧ (lruFindBlock s pc).2 = none) := by
  have hsame := lruFindBlock_sameIndex s pc
  have h₁ := hsame.indexed h
  have hready₁ := hready.findBlock pc
  unfold FindUnitQuickSound findUnitQuick
  dsimp only
  rw [lruFindBlock_epoch]
  cases hhit : (lruFindBlock s pc).2 with
  | some code => simp
  | none =>
    simp only [Option.isSome_none, Bool.false_eq_true, if_false, forall_const, and_true]
    constructor
    · rintro ⟨s', code, hfind, hcode⟩ ⟨rfl, hepoch⟩
      obtain ⟨last, hheader⟩ := h₁.findInBucket_header 0 fun arm ↦
        (matchesKey_header s.epoch 0 arm).trans (decide_eq_true ⟨rfl, hepoch⟩)
      obtain ⟨s₂, hinsert, -⟩ := hready₁.insert ⟨0, 0, some (.node last)⟩
      simp only [hheader, hinsert, Option.bind_eq_bind, Option.bind_some] at hfind
      cases hfind
      exact not_codeFor_header hplaced last hcode
    · intro hkey
      obtain ⟨result, hscan, hresult⟩ := h₁.findInBucket_sound (matchesKey s.epoch pc)
        (fun unit hfound ↦ (of_decide_eq_true hfound).2)
        (fun arm ↦ (matchesKey_header s.epoch pc arm).trans (decide_eq_false hkey))
      cases result with
      | none => exact ⟨_, none, by simp only [hscan]; rfl, fun arm harm ↦ by cases harm⟩
      | some found =>
        obtain ⟨s₂, hinsert, -⟩ := hready₁.insert found.2
        refine ⟨s₂, found.2.mtARMEntryPoint, by simp [hscan, hinsert], fun arm harm ↦ ?_⟩
        obtain ⟨u, t, -, hentry, hunit⟩ := hresult found.1 found.2 rfl
        rw [hentry] at harm
        cases harm
        exact ⟨u, t, rfl, hunit.congr hsame⟩

/-- The scans for an address are sound for every address but 0, and the scan for a key is sound
for every key but 0. -/
theorem bucketScans_sound_iff (memory s : JitState)
    (h : Reachable step Admissible (mainLoopStart memory) s) (pc : UInt32) :
    (FindUnitQuickSound s pc ↔ ¬ (pc = 0 ∧ s.epoch = 0 ∧ (lruFindBlock s pc).2 = none)) ∧
      (FindUnitSound s pc ↔ pc ≠ 0) ∧ (FindUnitNoLRUSound s pc ↔ pc ≠ 0) ∧
      (MainLoopSound s pc ↔ pc ≠ 0) := by
  obtain ⟨⟨order, bucket, hindexed⟩, hplaced, hready⟩ := reachable_ready h
  exact ⟨hindexed.findUnitQuick_iff hplaced hready pc, hindexed.findUnit_iff hready pc,
    hindexed.nodeScan_iff pc, hindexed.nodeScan_iff pc⟩

/-- With a unit for `0x1000` in the cache. -/
theorem bucketScans_sound_iff_oneUnit :
    ∃ s, (s.unit 7).isSome ∧ FindUnitSound s 0x1000 ∧ FindUnitNoLRUSound s 0x1000 ∧
      MainLoopSound s 0x1000 ∧ FindUnitQuickSound s 0x1000 := by
  obtain ⟨s, t, hreachable, -, -, hunit, -⟩ := exists_firstUnit 0x1000 7
  obtain ⟨hquick, hfind, hnoLRU, hmain⟩ :=
    bucketScans_sound_iff zeroMemory s hreachable 0x1000
  refine ⟨s, ?_, hfind.mpr (by decide), hnoLRU.mpr (by decide), hmain.mpr (by decide),
    hquick.mpr fun h ↦ absurd h.1 (by decide)⟩
  rw [hunit, Function.update_self]
  rfl

/-- After the boot, a look-up of address 0 returns the bucket header. -/
theorem bucketScans_header : ¬ ∀ (memory s : JitState),
    Reachable step Admissible (mainLoopStart memory) s → ∀ pc : UInt32,
      FindUnitQuickSound s pc ∧ FindUnitSound s pc ∧ FindUnitNoLRUSound s pc ∧
        MainLoopSound s pc := by
  intro hall
  obtain ⟨-, -, hnoLRU, -⟩ := hall zeroMemory _ .refl 0
  exact ((mainLoopStart_indexed zeroMemory).nodeScan_iff 0).mp hnoLRU rfl

/-- What the scan of `MainLoop` hands to `M68K_VerifyUnit` may be handed to it. -/
theorem mainLoopScan_admissible {n : NodeAddr} (h : MainLoopSound s pc)
    (hscan : mainLoopScan s pc = some (some n)) (view : CodeView) :
    ∃ u, n = .hashNode u ∧ Admissible s (.verifyUnit (some u) view) := by
  obtain ⟨node, hscan', hnode⟩ := h
  rw [hscan] at hscan'
  cases hscan'
  obtain ⟨u, t, rfl, hunit⟩ := hnode n rfl
  refine ⟨u, rfl, fun v hv ↦ ?_⟩
  cases hv
  rw [hunit.live]
  rfl

end Emu68.Jit
