import Emu68.Exec.Crc32
import Emu68.Jit.IndexInvariant
import Emu68.M68k.Coverage
import Emu68.SoftCache.LineCrossing

/-!
Does `M68K_VerifyUnit` keep a unit whose code has not changed? The checksum is taken of the bytes
between the bounds of the unit, but the fingerprint is taken of the eight bytes at the entry point.
These lie behind the upper bound if the translation went back from the entry point and did not come
up again.
-/

set_option autoImplicit false
set_option relaxedAutoImplicit false

namespace Emu68.Jit

open Lib (Bytes Reachable loadValue)
open Exec (ReadsInside)

/-! ### The bytes of the code -/

/-- What the verification reads of the bytes that an instruction fetch sees. -/
def codeView (fetch : Bytes) : CodeView where
  cacheRead32 address := UInt32.ofNat (loadValue fetch address.toNat 4)
  calcCRC32 low high := UInt32.ofBitVec (Exec.calcCRC32 fetch low.toNat high.toNat)

/-- The bytes that a fetch sees: the instruction cache, and the memory above it. -/
def fetched (s : SoftCache.CacheState) : Bytes :=
  fun x ↦ if x < SoftCache.cacheLimit then SoftCache.view s x else s.memory x

theorem cacheRead32_fetched {s : SoftCache.CacheState} (h : SoftCache.Coherent s) {a : ℕ}
    (hside : a + 4 ≤ SoftCache.cacheLimit ∨ SoftCache.cacheLimit ≤ a) :
    (SoftCache.cacheRead32 s a).2 = loadValue (fetched s) a 4 := by
  rcases hside with hlow | hhigh
  · rw [(SoftCache.reads_32 h hlow).value_eq]
    exact Lib.loadValue_congr fun i hi ↦ (if_pos (show a + i < SoftCache.cacheLimit by omega)).symm
  · rw [SoftCache.cacheRead32, if_pos hhigh]
    exact Lib.loadValue_congr fun i hi ↦
      (if_neg (show ¬ a + i < SoftCache.cacheLimit by omega)).symm

/-- Fingerprint and checksum of the unit are those of its code. -/
def MadeFrom (t : M68KTranslationUnit) (fetch : Bytes) : Prop :=
  t.mtFingerprint = fingerprint (codeView fetch) t.mtM68kAddress ∧
    t.mtCRC32 = (codeView fetch).calcCRC32 t.mtM68kLow t.mtM68kHigh

/-- The bytes between the bounds of the unit are the same. -/
def SameBytes (t : M68KTranslationUnit) (fetch fetch' : Bytes) : Prop :=
  ∀ x, t.mtM68kLow.toNat ≤ x → x < t.mtM68kHigh.toNat → fetch' x = fetch x

/-- The bytes of the fingerprint lie between the bounds. -/
def FingerprintInside (t : M68KTranslationUnit) : Prop :=
  ∀ i < 4, (t.mtM68kLow.toNat ≤ t.mtM68kAddress.toNat + i ∧
      t.mtM68kAddress.toNat + i < t.mtM68kHigh.toNat) ∧
    t.mtM68kLow.toNat ≤ (t.mtM68kAddress + 4).toNat + i ∧
      (t.mtM68kAddress + 4).toNat + i < t.mtM68kHigh.toNat

/-- A verification of the unit looks at nothing but the bytes between its bounds. -/
def LooksInside (t : M68KTranslationUnit) : Prop :=
  (0xf80000 ≤ t.mtM68kAddress ∧ t.mtM68kAddress < 0x1000000) ∨
    (¬ t.mtM68kHigh - t.mtM68kLow > 8 ∨ FingerprintInside t) ∧
      ReadsInside t.mtM68kLow.toNat t.mtM68kHigh.toNat

instance (t : M68KTranslationUnit) : Decidable (FingerprintInside t) :=
  inferInstanceAs (Decidable (∀ i < 4, _))

instance (t : M68KTranslationUnit) : Decidable (LooksInside t) :=
  inferInstanceAs (Decidable ((_ ∧ _) ∨ (_ ∨ _) ∧ _))

/-! ### A unit keeps what it was made with -/

variable {s s' s'' : JitState} {order : List UnitAddr} {bucket : Hash → List UnitAddr}
  {u : UnitAddr} {t t' : M68KTranslationUnit} {fetch fetch' : Bytes}

/-- The units of the later state were there before, with the same contents apart from the epoch. -/
def Carries (s s' : JitState) : Prop :=
  ∀ v t', s'.unit v = some t' → ∃ t, s.unit v = some t ∧ t' = { t with mtEpoch := t'.mtEpoch }

theorem Carries.of_unit_eq (h : s'.unit = s.unit) : Carries s s' :=
  fun _ t' ht' ↦ ⟨t', h ▸ ht', rfl⟩

theorem Carries.trans (h : Carries s s') (h' : Carries s' s'') : Carries s s'' := by
  intro v t'' ht''
  obtain ⟨t', ht', hsame'⟩ := h' v t'' ht''
  obtain ⟨t, ht, hsame⟩ := h v t' ht'
  refine ⟨t, ht, ?_⟩
  rw [hsame', hsame]

/-- Freeing one unit. -/
theorem carries_free (hunit : s'.unit = Function.update s.unit u none) : Carries s s' := by
  intro v t' ht'
  rw [hunit] at ht'
  by_cases hv : v = u
  · subst hv
    rw [Function.update_self] at ht'
    cases ht'
  · rw [Function.update_of_ne hv] at ht'
    exact ⟨t', ht', rfl⟩

theorem unit_tlsfFree (h : tlsfFree s u = some s') :
    s'.unit = Function.update s.unit u none := by
  unfold tlsfFree at h
  split at h
  · cases h
  · cases h
    rfl

theorem carries_discardUnit (h : discardUnit s u = some s') : Carries s s' := by
  simp only [discardUnit, Option.bind_eq_bind, Option.bind_eq_some_iff] at h
  obtain ⟨links₁, -, links₂, -, s₁, hfree, heq⟩ := h
  cases heq
  have hfreed := unit_tlsfFree hfree
  exact carries_free hfreed

theorem carries_touchEpoch (hu : s.unit u = some t) : Carries s (touchEpoch s u t) := by
  intro v t' ht'
  rw [touchEpoch_unit] at ht'
  by_cases hv : v = u
  · subst hv
    rw [Function.update_self] at ht'
    cases ht'
    exact ⟨t, hu, rfl⟩
  · rw [Function.update_of_ne hv] at ht'
    exact ⟨t', ht', rfl⟩

theorem unit_moveToLRUHead (h : moveToLRUHead s u = some s') : s'.unit = s.unit := by
  simp only [moveToLRUHead, Option.bind_eq_bind, Option.bind_eq_some_iff] at h
  obtain ⟨links₁, -, links₂, -, heq⟩ := h
  cases heq
  rfl

theorem unit_moveToBucketHead {hash : Hash} (h : moveToBucketHead s u hash = some s') :
    s'.unit = s.unit := by
  simp only [moveToBucketHead, Option.bind_eq_bind, Option.bind_eq_some_iff] at h
  obtain ⟨links₁, -, links₂, -, heq⟩ := h
  cases heq
  rfl

theorem carries_evictTails : ∀ (rounds : ℕ) (s : JitState),
    evictTails rounds s = some s' → Carries s s'
  | 0, s, h => by
    cases h
    exact .of_unit_eq rfl
  | rounds + 1, s, h => by
    simp only [evictTails, Option.bind_eq_bind, Option.bind_eq_some_iff] at h
    obtain ⟨⟨links, n⟩, -, h⟩ := h
    cases n with
    | none =>
      cases h
      exact .of_unit_eq rfl
    | some n =>
      simp only [Option.bind_eq_some_iff] at h
      obtain ⟨v, -, links', -, s₁, hfree, hrest⟩ := h
      have hfreed := unit_tlsfFree hfree
      have hfirst : Carries s { s₁ with jitUnitCount := s₁.jitUnitCount - 1 } := carries_free hfreed
      exact hfirst.trans (carries_evictTails rounds _ hrest)

theorem carries_allocateUnit : ∀ (answers : List (Option UnitAddr)) (s : JitState),
    allocateUnit answers s = some (s', u) → Carries s s'
  | some v :: rest, s, h => by
    cases h
    exact .of_unit_eq rfl
  | none :: rest, s, h => by
    simp only [allocateUnit, Option.bind_eq_bind, Option.bind_eq_some_iff] at h
    obtain ⟨s₁, hevict, hrest⟩ := h
    have hfirst : Carries s { s₁ with lastPC := 0xffffffff } :=
      (carries_evictTails 64 s hevict).trans (.of_unit_eq rfl)
    exact hfirst.trans (carries_allocateUnit rest _ hrest)

theorem carries_flushUnits (returnAddress : ℕ) : ∀ (fuel : ℕ) (s : JitState)
    (keep : Option UnitAddr) {kept : Option UnitAddr},
    flushUnits returnAddress fuel s keep = some (s', kept) → Carries s s'
  | fuel + 1, s, keep, kept, h => by
    simp only [flushUnits, Option.bind_eq_bind, Option.bind_eq_some_iff] at h
    obtain ⟨⟨links, n⟩, -, h⟩ := h
    have hlinks : Carries s { s with links := links } := .of_unit_eq rfl
    cases n with
    | none =>
      cases h
      exact .of_unit_eq rfl
    | some n =>
      simp only [Option.bind_eq_some_iff] at h
      obtain ⟨v, -, t, -, h⟩ := h
      split_ifs at h
      · exact hlinks.trans (carries_flushUnits returnAddress fuel _ _ h)
      · obtain ⟨s₁, hdiscard, hrest⟩ := Option.bind_eq_some_iff.mp h
        exact hlinks.trans ((carries_discardUnit hdiscard).trans
          (carries_flushUnits returnAddress fuel _ _ hrest))

theorem Carries.keep {s₁ : JitState} (hu : s.unit u = some t)
    (hmove : moveToLRUHead (touchEpoch s u t) u = some s₁) (hunit : s'.unit = s₁.unit) :
    Carries s s' :=
  (carries_touchEpoch hu).trans (.of_unit_eq (hunit.trans (unit_moveToLRUHead hmove)))

theorem carries_verifyUnit {unit kept : Option UnitAddr} {view : CodeView}
    (h : m68kVerifyUnit s unit view = some (s', kept)) : Carries s s' := by
  cases unit with
  | none =>
    cases h
    exact .of_unit_eq rfl
  | some u =>
    simp only [m68kVerifyUnit, Option.bind_eq_bind, Option.bind_eq_some_iff] at h
    obtain ⟨t, ht, h⟩ := h
    generalize (if t.mtM68kHigh - t.mtM68kLow > 8 then fingerprint view t.mtM68kAddress
      else t.mtFingerprint) = fp at h
    generalize (if fp = t.mtFingerprint then view.calcCRC32 t.mtM68kLow t.mtM68kHigh
      else 0) = crc at h
    split_ifs at h
    · obtain ⟨s₁, hdiscard, heq⟩ := Option.bind_eq_some_iff.mp h
      cases heq
      exact carries_discardUnit hdiscard
    · obtain ⟨s₁, hmove, heq⟩ := Option.bind_eq_some_iff.mp h
      cases heq
      exact .keep ht hmove rfl
    · obtain ⟨s₁, hdiscard, heq⟩ := Option.bind_eq_some_iff.mp h
      cases heq
      exact carries_discardUnit hdiscard
    · obtain ⟨s₁, hmove, h⟩ := Option.bind_eq_some_iff.mp h
      obtain ⟨s₂, hbucket, heq⟩ := Option.bind_eq_some_iff.mp h
      cases heq
      exact .keep ht hmove (unit_moveToBucketHead hbucket)

theorem carries_verifyUnitCRC32 {unit kept : Option UnitAddr} {view : CodeView}
    (h : m68kVerifyUnitCRC32 s unit view = some (s', kept)) : Carries s s' := by
  cases unit with
  | none =>
    cases h
    exact .of_unit_eq rfl
  | some u =>
    simp only [m68kVerifyUnitCRC32, Option.bind_eq_bind, Option.bind_eq_some_iff] at h
    obtain ⟨t, ht, h⟩ := h
    split_ifs at h
    · obtain ⟨s₁, hdiscard, heq⟩ := Option.bind_eq_some_iff.mp h
      cases heq
      exact carries_discardUnit hdiscard
    · cases h
      exact .of_unit_eq rfl

theorem carries_checkCacr {cacr : UInt32} {returnAddress : ℕ}
    (h : checkCacr s cacr returnAddress = some s') : Carries s s' := by
  simp only [checkCacr, Option.bind_eq_bind] at h
  split_ifs at h
  · obtain ⟨⟨s₁, kept⟩, hflush, h⟩ := Option.bind_eq_some_iff.mp h
    have hcacr : Carries s { s with oldCacr := cacr } := .of_unit_eq rfl
    have hflushed := hcacr.trans (carries_flushUnits returnAddress walkFuel _ none hflush)
    cases kept with
    | none =>
      cases h
      exact hflushed.trans (.of_unit_eq rfl)
    | some u =>
      obtain ⟨links, -, heq⟩ := Option.bind_eq_some_iff.mp h
      cases heq
      exact hflushed.trans (.of_unit_eq rfl)
  · cases h
    exact .of_unit_eq rfl

/-- A call that creates no unit. -/
theorem carries_step {op : JitOp}
    (hold : ∀ pc answers translation view, op ≠ .getTranslationUnit pc answers translation view)
    (h : step s op = some s') : Carries s s' := by
  cases op with
  | lruFindBlock address =>
    cases h
    exact .of_unit_eq (lruFindBlock_sameIndex s address).unit
  | lruInsertBlock u =>
    obtain ⟨unit, -, hinsert⟩ := Option.bind_eq_some_iff.mp h
    exact .of_unit_eq (lruInsertBlock_sameIndex hinsert).unit
  | findUnitQuick pc =>
    obtain ⟨⟨s₁, code⟩, hfind, rfl⟩ := Option.map_eq_some_iff.mp h
    have hfirst := (lruFindBlock_sameIndex s pc).unit
    rcases findUnitQuick_cases hfind with rfl | ⟨-, n, unit, -, hinsert⟩
    · exact .of_unit_eq hfirst
    · exact .of_unit_eq ((lruInsertBlock_sameIndex hinsert).unit.trans hfirst)
  | findUnit pc =>
    obtain ⟨⟨s₁, result⟩, hfind, rfl⟩ := Option.map_eq_some_iff.mp h
    rcases findUnit_cases hfind with rfl | ⟨n, unit, -, hinsert⟩
    · exact .of_unit_eq rfl
    · exact .of_unit_eq (lruInsertBlock_sameIndex hinsert).unit
  | findUnitNoLRU pc =>
    obtain ⟨result, -, rfl⟩ := Option.map_eq_some_iff.mp h
    exact .of_unit_eq rfl
  | getTranslationUnit pc answers translation view => exact absurd rfl (hold _ _ _ _)
  | verifyUnit unit view =>
    obtain ⟨⟨s₁, kept⟩, hverify, rfl⟩ := Option.map_eq_some_iff.mp h
    exact carries_verifyUnit hverify
  | verifyUnitCRC32 unit view =>
    obtain ⟨⟨s₁, kept⟩, hverify, rfl⟩ := Option.map_eq_some_iff.mp h
    exact carries_verifyUnitCRC32 hverify
  | invalidateInstructionCache =>
    cases h
    exact .of_unit_eq rfl
  | checkCacr cacr returnAddress => exact carries_checkCacr h
  | writeJitControl control control2 =>
    cases h
    exact .of_unit_eq rfl

/-! ### The bytes that a unit was made from -/

/-- A call, and the bytes that a fetch sees during it. -/
structure Call where
  op : JitOp
  fetch : Bytes

/-- The translation cache, and the bytes at the creation of the unit that a block holds. -/
structure History where
  jit : JitState
  born : UnitAddr → Bytes

def History.step (x : History) (c : Call) : Option History :=
  match c.op with
  | .getTranslationUnit pc answers translation view =>
    (m68kGetTranslationUnit x.jit pc answers translation view).map fun r ↦
      ⟨r.1, Function.update x.born r.2 c.fetch⟩
  | op => (Jit.step x.jit op).map fun s ↦ ⟨s, x.born⟩

/-- The call reads the code from the bytes that a fetch sees. -/
def Call.Reads (c : Call) : Prop :=
  match c.op with
  | .getTranslationUnit _ _ _ view => view = codeView c.fetch
  | .verifyUnit _ view => view = codeView c.fetch
  | .verifyUnitCRC32 _ view => view = codeView c.fetch
  | _ => True

def Legal (x : History) (c : Call) : Prop := Admissible x.jit c.op ∧ c.Reads

/-- Every unit was made from the bytes at its creation. -/
def History.Made (x : History) : Prop := ∀ u t, x.jit.unit u = some t → MadeFrom t (x.born u)

variable {x x' : History} {c : Call}

theorem History.step_cases (h : x.step c = some x') :
    (∃ pc answers translation view u, c.op = .getTranslationUnit pc answers translation view ∧
      m68kGetTranslationUnit x.jit pc answers translation view = some (x'.jit, u) ∧
      x'.born = Function.update x.born u c.fetch) ∨
    Jit.step x.jit c.op = some x'.jit ∧ Carries x.jit x'.jit ∧ x'.born = x.born := by
  obtain ⟨op, fetch⟩ := c
  by_cases hop : ∃ pc answers translation view, op = .getTranslationUnit pc answers translation view
  · obtain ⟨pc, answers, translation, view, rfl⟩ := hop
    obtain ⟨⟨s, u⟩, hget, rfl⟩ := Option.map_eq_some_iff.mp h
    exact .inl ⟨pc, answers, translation, view, u, rfl, hget, rfl⟩
  · have hold : x.step ⟨op, fetch⟩ = (Jit.step x.jit op).map fun s ↦ ⟨s, x.born⟩ := by
      cases op <;> first | rfl | exact absurd ⟨_, _, _, _, rfl⟩ hop
    rw [hold] at h
    obtain ⟨s, hstep, rfl⟩ := Option.map_eq_some_iff.mp h
    refine .inr ⟨hstep, carries_step (fun pc answers translation view heq ↦ ?_) hstep, rfl⟩
    exact hop ⟨pc, answers, translation, view, heq⟩

theorem History.jit_step (h : x.step c = some x') : Jit.step x.jit c.op = some x'.jit := by
  rcases History.step_cases h with ⟨pc, answers, translation, view, u, hop, hget, -⟩ | ⟨hstep, -⟩
  · rw [hop, Jit.step, hget]
    rfl
  · exact hstep

theorem MadeFrom.epoch {epoch : UInt32} (h : MadeFrom t fetch) :
    MadeFrom { t with mtEpoch := epoch } fetch := h

theorem m68kGetTranslationUnit_made {pc : UInt32} {answers : List (Option UnitAddr)}
    {translation : Translation} {view : CodeView}
    (h : m68kGetTranslationUnit s pc answers translation view = some (s', u)) :
    ∃ s₁ t, Carries s s₁ ∧ s'.unit = Function.update s₁.unit u (some t) ∧
      t.mtFingerprint = fingerprint view t.mtM68kAddress ∧
      t.mtCRC32 = view.calcCRC32 t.mtM68kLow t.mtM68kHigh ∧
      t.mtM68kAddress = pc ∧ t.mtM68kLow = translation.m68kLow ∧
      t.mtM68kHigh = translation.m68kHigh ∧ t.mtJITControl = s'.jitControl ∧
      t.mtJITControl2 = s'.jitControl2 := by
  simp only [m68kGetTranslationUnit, Option.bind_eq_bind, Option.bind_eq_some_iff] at h
  obtain ⟨⟨s₁, u₁⟩, hallocate, h⟩ := h
  split_ifs at h
  · cases h
  · obtain ⟨links₁, -, h⟩ := Option.bind_eq_some_iff.mp h
    obtain ⟨links₂, -, heq⟩ := Option.bind_eq_some_iff.mp h
    cases heq
    exact ⟨s₁, _, carries_allocateUnit answers s hallocate, rfl, rfl, rfl, rfl, rfl, rfl, rfl, rfl⟩

theorem History.Made.step (h : x.Made) (hlegal : Legal x c) (hstep : x.step c = some x') :
    x'.Made := by
  intro v t' ht'
  rcases History.step_cases hstep with
    ⟨pc, answers, translation, view, u, hop, hget, hborn⟩ | ⟨-, hcarries, hborn⟩
  · have hview : view = codeView c.fetch := by
      have hreads := hlegal.2
      rw [Call.Reads, hop] at hreads
      exact hreads
    obtain ⟨s₁, t, hcarries, hunit, hfingerprint, hcrc, -⟩ := m68kGetTranslationUnit_made hget
    rw [hunit] at ht'
    rw [hborn]
    by_cases hv : v = u
    · subst hv
      rw [Function.update_self] at ht' ⊢
      cases ht'
      exact ⟨hview ▸ hfingerprint, hview ▸ hcrc⟩
    · rw [Function.update_of_ne hv] at ht' ⊢
      obtain ⟨t₀, ht₀, hsame⟩ := hcarries v t' ht'
      rw [hsame]
      exact (h v t₀ ht₀).epoch
  · rw [hborn]
    obtain ⟨t₀, ht₀, hsame⟩ := hcarries v t' ht'
    rw [hsame]
    exact (h v t₀ ht₀).epoch

/-! ### What a verification looks at -/

theorem fingerprint_congr (h : SameBytes t fetch fetch') (hinside : FingerprintInside t) :
    fingerprint (codeView fetch') t.mtM68kAddress = fingerprint (codeView fetch) t.mtM68kAddress := by
  have hfirst : loadValue fetch' t.mtM68kAddress.toNat 4 = loadValue fetch t.mtM68kAddress.toNat 4 :=
    Lib.loadValue_congr fun i hi ↦ h _ (hinside i hi).1.1 (hinside i hi).1.2
  have hsecond : loadValue fetch' (t.mtM68kAddress + 4).toNat 4 =
      loadValue fetch (t.mtM68kAddress + 4).toNat 4 :=
    Lib.loadValue_congr fun i hi ↦ h _ (hinside i hi).2.1 (hinside i hi).2.2
  simp only [fingerprint, codeView, hfirst, hsecond]

theorem LooksInside.unchanged (h : LooksInside t) (hmade : MadeFrom t fetch)
    (hcontrol : t.mtJITControl = s.jitControl) (hcontrol2 : t.mtJITControl2 = s.jitControl2)
    (hsame : SameBytes t fetch fetch') : ¬ unitChanged s t (codeView fetch') := by
  rintro (hsettings | ⟨hrom, hcode⟩)
  · exact hsettings.elim (absurd hcontrol) (absurd hcontrol2)
  obtain ⟨hfingerprint, hreads⟩ := h.resolve_left hrom
  rcases hcode with ⟨hlong, hne⟩ | hne
  · refine hne ?_
    rw [fingerprint_congr hsame (hfingerprint.resolve_left (not_not.mpr hlong)), hmade.1]
  · refine hne ?_
    rw [hmade.2]
    have hbelow : Exec.SameBelow fetch' fetch t.mtM68kLow.toNat t.mtM68kHigh.toNat := hsame
    simp only [codeView, hbelow.calcCRC32 hreads]

/-- The memory with one byte changed. -/
def touched (fetch : Bytes) (y : ℕ) : Bytes := Function.update fetch y (fetch y + 1)

theorem touched_ne (fetch : Bytes) (y : ℕ) : touched fetch y y ≠ fetch y := by
  rw [touched, Function.update_self]
  intro h
  have hvalue := congrArg UInt8.toNat h
  have hone : (1 : UInt8).toNat = 1 := rfl
  have hbyte := (fetch y).toNat_lt
  rw [UInt8.toNat_add, hone] at hvalue
  omega

theorem touched_of_ne {y x : ℕ} (h : x ≠ y) : touched fetch y x = fetch x :=
  Function.update_of_ne h ..

theorem sameBytes_touched {y : ℕ} (h : ¬ (t.mtM68kLow.toNat ≤ y ∧ y < t.mtM68kHigh.toNat)) :
    SameBytes t fetch (touched fetch y) :=
  fun _ hlow hhigh ↦ touched_of_ne fun heq ↦ h (heq ▸ ⟨hlow, hhigh⟩)

theorem loadValue_touched_ne (fetch : Bytes) (a : ℕ) {i : ℕ} (hi : i < 4) :
    loadValue (touched fetch (a + i)) a 4 ≠ loadValue fetch a 4 :=
  fun h ↦ touched_ne fetch (a + i) (Lib.loadValue_inj h i hi)

theorem loadValue_touched_eq {a y : ℕ} (h : y < a ∨ a + 4 ≤ y) :
    loadValue (touched fetch y) a 4 = loadValue fetch a 4 :=
  Lib.loadValue_congr fun i hi ↦ touched_of_ne (by omega)

/-- The two words of a fingerprint do not overlap. -/
theorem add_four_apart (address : UInt32) :
    (address + 4).toNat = address.toNat + 4 ∨ (address + 4).toNat + 4 ≤ address.toNat := by
  rw [UInt32.toNat_add]
  have := address.toNat_lt
  have h4 : (4 : UInt32).toNat = 4 := rfl
  omega

theorem cacheRead32_ne {address : UInt32}
    (h : loadValue fetch' address.toNat 4 ≠ loadValue fetch address.toNat 4) :
    (codeView fetch').cacheRead32 address ≠ (codeView fetch).cacheRead32 address := by
  intro heq
  have hvalue := congrArg UInt32.toNat heq
  have hlt := Lib.loadValue_lt fetch address.toNat 4
  have hlt' := Lib.loadValue_lt fetch' address.toNat 4
  simp only [codeView, UInt32.toNat_ofNat'] at hvalue
  omega

/-- A change of one byte of the fingerprint shows, since its two words do not overlap. -/
theorem fingerprint_touched_ne {address : UInt32} {i : ℕ} (hi : i < 4) {a : UInt32}
    (ha : a = address ∨ a = address + 4) :
    fingerprint (codeView (touched fetch (a.toNat + i))) address ≠
      fingerprint (codeView fetch) address := by
  have hapart := add_four_apart address
  have hchanged := cacheRead32_ne (loadValue_touched_ne fetch a.toNat hi)
  rcases ha with rfl | rfl
  · have hother : loadValue (touched fetch (a.toNat + i)) (a + 4).toNat 4 =
        loadValue fetch (a + 4).toNat 4 := loadValue_touched_eq (by omega)
    intro heq
    simp only [fingerprint, codeView, hother] at heq hchanged
    exact hchanged ((UInt32.xor_left_inj _).mp heq)
  · have hother : loadValue (touched fetch ((address + 4).toNat + i)) address.toNat 4 =
        loadValue fetch address.toNat 4 := loadValue_touched_eq (by omega)
    intro heq
    simp only [fingerprint, codeView, hother] at heq hchanged
    exact hchanged ((UInt32.xor_right_inj _).mp heq)

/-- Some byte outside the unit can be changed so that the unit counts as changed. -/
theorem exists_changed (h : ¬ LooksInside t) (hmade : MadeFrom t fetch) (s : JitState) :
    ∃ fetch', SameBytes t fetch fetch' ∧ unitChanged s t (codeView fetch') := by
  unfold LooksInside at h
  rw [not_or] at h
  obtain ⟨hrom, hinside⟩ := h
  by_cases hreads : ReadsInside t.mtM68kLow.toNat t.mtM68kHigh.toNat
  · have hfingerprint : ¬ (¬ t.mtM68kHigh - t.mtM68kLow > 8 ∨ FingerprintInside t) :=
      fun hf ↦ hinside ⟨hf, hreads⟩
    rw [not_or, not_not] at hfingerprint
    obtain ⟨hlong, hout⟩ := hfingerprint
    obtain ⟨a, i, hi, ha, hyout⟩ : ∃ a i, i < 4 ∧
        (a = t.mtM68kAddress ∨ a = t.mtM68kAddress + 4) ∧
        ¬ (t.mtM68kLow.toNat ≤ a.toNat + i ∧ a.toNat + i < t.mtM68kHigh.toNat) := by
      by_contra hnone
      refine hout fun i hi ↦ ⟨?_, ?_⟩
      · by_contra hy
        exact hnone ⟨_, i, hi, .inl rfl, hy⟩
      · by_contra hy
        exact hnone ⟨_, i, hi, .inr rfl, hy⟩
    refine ⟨touched fetch (a.toNat + i), sameBytes_touched hyout, .inr ⟨hrom, .inl ⟨hlong, ?_⟩⟩⟩
    rw [hmade.1]
    exact fingerprint_touched_ne hi ha
  · obtain ⟨y, hyout, hchanges⟩ := Exec.exists_outside hreads
    refine ⟨touched fetch y, sameBytes_touched hyout, .inr ⟨hrom, .inr ?_⟩⟩
    rw [hmade.2]
    intro heq
    refine hchanges _ _ (fun x hx ↦ touched_of_ne hx) (touched_ne fetch y) ?_
    simpa [codeView] using heq

/-! ### Verifying an unchanged unit -/

theorem m68kVerifyUnit_kept {view : CodeView} (hu : s.unit u = some t)
    (h : m68kVerifyUnit s (some u) view = some (s', some u)) : ¬ unitChanged s t view := by
  simp only [m68kVerifyUnit, hu, Option.bind_eq_bind, Option.bind_some] at h
  have hdiscarded : (discardUnit s u).bind (fun s ↦ pure (s, none)) ≠ some (s', some u) := by
    intro hdiscard
    obtain ⟨s₁, -, heq⟩ := Option.bind_eq_some_iff.mp hdiscard
    cases heq
  by_cases hsettings : t.mtJITControl ≠ s.jitControl ∨ t.mtJITControl2 ≠ s.jitControl2
  · rw [if_pos hsettings] at h
    exact absurd h hdiscarded
  rw [if_neg hsettings] at h
  rintro (hsettings' | ⟨hrom, hcode⟩)
  · exact hsettings hsettings'
  rw [if_neg hrom] at h
  -- only an unchanged unit is kept
  split_ifs at h <;> first | exact hdiscarded h | tauto

theorem m68kVerifyUnit_keeps_iff (h : Indexed s order [] bucket) (hu : s.unit u = some t)
    (view : CodeView) :
    (∃ s', m68kVerifyUnit s (some u) view = some (s', some u)) ↔ ¬ unitChanged s t view := by
  constructor
  · rintro ⟨s', hverify⟩
    exact m68kVerifyUnit_kept hu hverify
  · intro hsame
    obtain ⟨s', kept, -, -, hverify, -, heffect⟩ := m68kVerifyUnit_indexed h hu view
    rcases heffect with ⟨rfl, -⟩ | ⟨-, hchanged, -⟩
    · exact ⟨s', hverify⟩
    · exact absurd hchanged hsame

theorem Legal.indexed {born : UnitAddr → Bytes} {memory : JitState}
    (h : Lib.Reachable History.step Legal ⟨mainLoopStart memory, born⟩ x) :
    ((∃ order bucket, Indexed x.jit order [] bucket) ∧ Placed x.jit) ∧ x.Made := by
  refine h.invariant (fun x ↦ ((∃ order bucket, Indexed x.jit order [] bucket) ∧ Placed x.jit) ∧
    x.Made) ⟨⟨⟨[], fun _ ↦ [], mainLoopStart_indexed memory⟩, mainLoopStart_placed memory⟩, ?_⟩ ?_
  · intro u t hu
    cases hu
  · rintro x c x' ⟨⟨⟨order, bucket, hindexed⟩, hplaced⟩, hmade⟩ hlegal hstep
    exact ⟨step_indexed hindexed hplaced hlegal.1 (History.jit_step hstep), hmade.step hlegal hstep⟩

/-- Whatever happens to the bytes outside its bounds, the unit is kept as long as the bytes between
them are those it was made from. -/
def KeptUnchanged (x : History) (u : UnitAddr) (t : M68KTranslationUnit) : Prop :=
  ∀ fetch, SameBytes t (x.born u) fetch →
    ∃ s', m68kVerifyUnit x.jit (some u) (codeView fetch) = some (s', some u)

theorem not_keptUnchanged (hindexed : Indexed x.jit order [] bucket) (hmade : x.Made)
    (hu : x.jit.unit u = some t) (hlooks : ¬ LooksInside t) : ¬ KeptUnchanged x u t := by
  intro hkept
  obtain ⟨fetch', hsame, hchanged⟩ := exists_changed hlooks (hmade u t hu) x.jit
  exact (m68kVerifyUnit_keeps_iff hindexed hu _).mp (hkept fetch' hsame) hchanged

/-- A unit is made while there is no other. -/
theorem exists_createdUnit (h : Indexed s order [] bucket) (hempty : ∀ v, s.unit v = none)
    (born : UnitAddr → Bytes) (pc : UInt32) (u : UnitAddr) (translation : Translation) (fetch : Bytes)
    (hlength : unitLength translation.lineLength ≤ initialAlloc s.jitControl) :
    ∃ x t, Legal ⟨s, born⟩
        ⟨.getTranslationUnit pc [some u] translation (codeView fetch), fetch⟩ ∧
      History.step ⟨s, born⟩
        ⟨.getTranslationUnit pc [some u] translation (codeView fetch), fetch⟩ = some x ∧
      x.jit.unit u = some t ∧ t.mtM68kAddress = pc ∧ t.mtM68kLow = translation.m68kLow ∧
      t.mtM68kHigh = translation.m68kHigh ∧ t.mtJITControl = x.jit.jitControl ∧
      t.mtJITControl2 = x.jit.jitControl2 := by
  have hallocate : allocateUnit [some u] s = some (s, u) := rfl
  have hfree := freeBlock_of_empty hempty u (initialAlloc s.jitControl)
  obtain ⟨s', -, -, -, hget, -⟩ := m68kGetTranslationUnit_indexed pc translation (codeView fetch)
    h hallocate hfree.unallocated hlength
  obtain ⟨s₁, t, -, hunit, -, -, haddress, hlow, hhigh, hcontrol, hcontrol2⟩ :=
    m68kGetTranslationUnit_made hget
  refine ⟨⟨s', Function.update born u fetch⟩, t, ⟨?_, rfl⟩, ?_, ?_, haddress, hlow, hhigh, hcontrol,
    hcontrol2⟩
  · intro s₂ v hallocate₂
    rw [hallocate] at hallocate₂
    cases hallocate₂
    exact hfree
  · simp only [History.step, hget, Option.map_some]
  · rw [hunit, Function.update_self]

/-- In every state that is reached, a unit whose code and settings are unchanged is always kept if
and only if a verification looks at no byte outside its bounds. -/
theorem verifyUnit_complete_iff (memory : JitState) (born : UnitAddr → Bytes) (x : History)
    (h : Reachable History.step Legal ⟨mainLoopStart memory, born⟩ x) (u : UnitAddr)
    (t : M68KTranslationUnit) (hu : x.jit.unit u = some t)
    (hcontrol : t.mtJITControl = x.jit.jitControl)
    (hcontrol2 : t.mtJITControl2 = x.jit.jitControl2) :
    KeptUnchanged x u t ↔ LooksInside t := by
  obtain ⟨⟨⟨order, bucket, hindexed⟩, -⟩, hmade⟩ := Legal.indexed h
  constructor
  · intro hkept
    by_contra hlooks
    exact not_keptUnchanged hindexed hmade hu hlooks hkept
  · intro hlooks fetch' hsame
    exact (m68kVerifyUnit_keeps_iff hindexed hu _).mpr
      (hlooks.unchanged (hmade u t hu) hcontrol hcontrol2 hsame)

/-- A unit of two instructions at `0x1000`. -/
theorem verifyUnit_complete_short : ∃ (x : History) (t : M68KTranslationUnit),
    x.jit.unit 7 = some t ∧ t.mtM68kAddress = 0x1000 ∧ (KeptUnchanged x 7 t ↔ LooksInside t) := by
  obtain ⟨x, t, hlegal, hstep, hu, haddress, -, -, hcontrol, hcontrol2⟩ :=
    exists_createdUnit (mainLoopStart_indexed zeroMemory) (fun _ ↦ rfl) (fun _ _ ↦ 0) 0x1000 7
      ⟨8, 0x1000, 0x1004⟩ (fun _ ↦ 0) (shortTranslation_fits _)
  exact ⟨x, t, hu, haddress, verifyUnit_complete_iff zeroMemory _ x (.tail _ .refl hlegal hstep) 7 t
    hu hcontrol hcontrol2⟩

/-! ### A branch backwards at the entry point -/

/-- The code as the translator reads it. -/
def environment (fetch : Bytes) (control : UInt32) (disableFPU : Bool) : M68k.Environment where
  image a := BitVec.ofNat 16 (loadValue fetch a.toNat 2)
  control := control.toBitVec
  disableFPU := disableFPU

/-- The bounds of a new unit come from a translation of the code at its entry point. -/
def Call.Translates (x : History) (c : Call) : Prop :=
  match c.op with
  | .getTranslationUnit pc _ translation _ => ∃ disableFPU localState final,
      M68k.Translating (environment c.fetch x.jit.jitControl disableFPU) localState
        (pc.toBitVec.setWidth 64) (fun _ others ↦ others.consumed ≤ others.advance) final ∧
      final.goesOn (environment c.fetch x.jit.jitControl disableFPU) = false ∧
      translation.m68kLow.toBitVec = final.unit.mtM68kLow ∧
      translation.m68kHigh.toBitVec = final.unit.mtM68kHigh
  | _ => True

/-- At `0x1000` there is a branch back to `0xfee`, elsewhere `nop`. -/
def branchesBack : Bytes := fun x ↦
  if x = 0x1000 then 0x66 else if x = 0x1001 then 0xec else if x % 2 = 0 then 0x4e else 0x71

/-- A unit has four instructions. -/
def shortUnits : JitState := { zeroMemory with jitControl := 0x041fff80 }

theorem exists_backwards :
    ∃ final, M68k.Translating (environment branchesBack 0x041fff80 false) (fun _ ↦ 0) 0x1000
        (fun _ others ↦ others.consumed ≤ others.advance) final ∧
      final.goesOn (environment branchesBack 0x041fff80 false) = false ∧
      final.unit.mtM68kLow = 0xfee ∧ final.unit.mtM68kHigh = 0x1004 :=
  ⟨_, .tail M68k.nop (.tail M68k.nop (.tail M68k.nop (.tail M68k.nop .refl
    le_rfl rfl) le_rfl rfl) le_rfl rfl) le_rfl rfl, by decide +kernel, by decide +kernel,
    by decide +kernel⟩

/-- A unit of this translation looks at the word behind its upper bound. -/
theorem not_looksInside (haddress : t.mtM68kAddress = 0x1000) (hlow : t.mtM68kLow = 0xfee)
    (hhigh : t.mtM68kHigh = 0x1004) : ¬ LooksInside t := by
  unfold LooksInside FingerprintInside
  rw [haddress, hlow, hhigh]
  decide

theorem not_verifyUnit_complete : ¬ ∀ (memory : JitState) (born : UnitAddr → Bytes) (x : History),
    Reachable History.step (fun x c ↦ Legal x c ∧ c.Translates x) ⟨mainLoopStart memory, born⟩ x →
      ∀ u t, x.jit.unit u = some t → t.mtJITControl = x.jit.jitControl →
        t.mtJITControl2 = x.jit.jitControl2 → KeptUnchanged x u t := by
  intro hall
  obtain ⟨x, t, hlegal, hstep, hu, haddress, hlow, hhigh, hcontrol, hcontrol2⟩ :=
    exists_createdUnit (mainLoopStart_indexed shortUnits) (fun _ ↦ rfl) (fun _ ↦ branchesBack) 0x1000
      7 ⟨8, 0xfee, 0x1004⟩ branchesBack (shortTranslation_fits _)
  obtain ⟨final, htranslating, hend, hfinal⟩ := exists_backwards
  have hreach : Reachable History.step (fun x c ↦ Legal x c ∧ c.Translates x)
      ⟨mainLoopStart shortUnits, fun _ ↦ branchesBack⟩ x := by
    refine .tail _ .refl ⟨hlegal, false, fun _ ↦ 0, final, ?_, ?_, hfinal.1.symm, hfinal.2.symm⟩ hstep
    · exact htranslating
    · exact hend
  obtain ⟨⟨⟨order, bucket, hindexed⟩, -⟩, hmade⟩ :=
    Legal.indexed (hreach.mono fun _ _ hok ↦ hok.1)
  exact not_keptUnchanged hindexed hmade hu (not_looksInside haddress hlow hhigh)
    (hall shortUnits _ x hreach 7 t hu hcontrol hcontrol2)

end Emu68.Jit
