import Emu68.Jit.Index
import Emu68.Jit.System

/-!
The abstract effect of each function of the translation cache. A function that discards units
relates the state before to the state after by `Prunes`: the units in `gone` are freed, the others
keep their address, code and size, and the look-up cache is left as it is. Every function returns
on an indexed state, so no call reads through a null pointer or frees a block twice.
-/

set_option autoImplicit false
set_option relaxedAutoImplicit false

namespace Emu68.Jit

open Lib Exec

/-- The fields of a unit that say which m68k code it is and where its ARM code lies. -/
def SameCode (t t' : M68KTranslationUnit) : Prop :=
  t'.mtM68kAddress = t.mtM68kAddress ∧ t'.mtARMEntryPoint = t.mtARMEntryPoint ∧
    t'.mtARMInsnCnt = t.mtARMInsnCnt

/-- The units `gone` are freed; everything else stays as it is, apart from the order of the lists
and the epochs of units. -/
structure Prunes (s s' : JitState) (gone : List UnitAddr) : Prop where
  old : ∀ v t', s'.unit v = some t' → v ∉ gone ∧ ∃ t, s.unit v = some t ∧ SameCode t t'
  kept : ∀ v t, s.unit v = some t → v ∉ gone → ∃ t', s'.unit v = some t' ∧ SameCode t t'
  unitSize : s'.unitSize = s.unitSize
  lruCache : s'.lruCache = s.lruCache
  lruAlloc : s'.lruAlloc = s.lruAlloc
  epoch : s'.epoch = s.epoch
  jitControl : s'.jitControl = s.jitControl

/-- The blocks of the units: the entry point lies at the start of a unit's code, the code fits its
block, and blocks do not overlap. -/
structure Placed (s : JitState) : Prop where
  entry : ∀ u t, s.unit u = some t → t.mtARMEntryPoint = .code (codeStart u)
  fits : ∀ u t, s.unit u = some t → 128 + 4 * t.mtARMInsnCnt ≤ s.unitSize u
  apart : ∀ u v, u ≠ v → (s.unit u).isSome → (s.unit v).isSome →
    64 * u.val + s.unitSize u ≤ 64 * v.val ∨ 64 * v.val + s.unitSize v ≤ 64 * u.val

variable {s s' s'' : JitState} {order loose gone gone' : List UnitAddr}
  {bucket : Hash → List UnitAddr} {u : UnitAddr} {t : M68KTranslationUnit}

theorem SameCode.refl (t : M68KTranslationUnit) : SameCode t t := ⟨rfl, rfl, rfl⟩

theorem SameCode.trans {t t' t'' : M68KTranslationUnit} (h : SameCode t t') (h' : SameCode t' t'') :
    SameCode t t'' :=
  ⟨h'.1.trans h.1, h'.2.1.trans h.2.1, h'.2.2.trans h.2.2⟩

theorem Prunes.trans (h : Prunes s s' gone) (h' : Prunes s' s'' gone') :
    Prunes s s'' (gone ++ gone') where
  old := by
    intro v t'' ht''
    obtain ⟨hv', t', ht', hsame'⟩ := h'.old v t'' ht''
    obtain ⟨hv, t, ht, hsame⟩ := h.old v t' ht'
    exact ⟨fun hmem ↦ (List.mem_append.mp hmem).elim hv hv', t, ht, hsame.trans hsame'⟩
  kept := by
    intro v t ht hv
    rw [List.mem_append, not_or] at hv
    obtain ⟨t', ht', hsame⟩ := h.kept v t ht hv.1
    obtain ⟨t'', ht'', hsame'⟩ := h'.kept v t' ht' hv.2
    exact ⟨t'', ht'', hsame.trans hsame'⟩
  unitSize := h'.unitSize.trans h.unitSize
  lruCache := h'.lruCache.trans h.lruCache
  lruAlloc := h'.lruAlloc.trans h.lruAlloc
  epoch := h'.epoch.trans h.epoch
  jitControl := h'.jitControl.trans h.jitControl

/-- Changing only the lists, the counter and the last PC frees nothing. -/
theorem Prunes.of_eq (hunit : s'.unit = s.unit) (hsize : s'.unitSize = s.unitSize)
    (hcache : s'.lruCache = s.lruCache) (halloc : s'.lruAlloc = s.lruAlloc)
    (hepoch : s'.epoch = s.epoch) (hcontrol : s'.jitControl = s.jitControl) : Prunes s s' [] where
  old := fun _ t' ht' ↦ ⟨List.not_mem_nil, t', hunit ▸ ht', SameCode.refl t'⟩
  kept := fun _ t ht _ ↦ ⟨t, hunit ▸ ht, SameCode.refl t⟩
  unitSize := hsize
  lruCache := hcache
  lruAlloc := halloc
  epoch := hepoch
  jitControl := hcontrol

/-- Only the set of freed units matters. -/
theorem Prunes.congr (h : Prunes s s' gone) (hgone : ∀ v, v ∈ gone ↔ v ∈ gone') :
    Prunes s s' gone' where
  old := by
    intro v t' ht'
    obtain ⟨hv, hold⟩ := h.old v t' ht'
    exact ⟨fun hmem ↦ hv ((hgone v).mpr hmem), hold⟩
  kept := fun v t ht hv ↦ h.kept v t ht fun hmem ↦ hv ((hgone v).mp hmem)
  unitSize := h.unitSize
  lruCache := h.lruCache
  lruAlloc := h.lruAlloc
  epoch := h.epoch
  jitControl := h.jitControl

theorem Prunes.placed (h : Prunes s s' gone) (hplaced : Placed s) : Placed s' where
  entry := by
    intro v t' ht'
    obtain ⟨-, t, ht, hsame⟩ := h.old v t' ht'
    exact hsame.2.1.trans (hplaced.entry v t ht)
  fits := by
    intro v t' ht'
    obtain ⟨-, t, ht, hsame⟩ := h.old v t' ht'
    rw [hsame.2.2, h.unitSize]
    exact hplaced.fits v t ht
  apart := by
    have hold : ∀ v, (s'.unit v).isSome → (s.unit v).isSome := by
      intro v hv
      obtain ⟨t', ht'⟩ := Option.isSome_iff_exists.mp hv
      obtain ⟨-, t, ht, -⟩ := h.old v t' ht'
      rw [ht]
      rfl
    intro v w hne hv hw
    rw [h.unitSize]
    exact hplaced.apart v w hne (hold v hv) (hold w hw)

/-! ### Discarding one unit -/

/-- Freeing one block. -/
theorem Prunes.free {links : Links NodeAddr} {c : UInt32} :
    Prunes s { s with links := links, unit := Function.update s.unit u none, jitUnitCount := c }
      [u] where
  old := by
    intro v t' ht'
    have hv : v ≠ u := by
      rintro rfl
      simp at ht'
    refine ⟨by simpa using hv, t', ?_, SameCode.refl t'⟩
    rwa [← Function.update_of_ne hv none s.unit]
  kept := by
    intro v t ht hv
    have hne : v ≠ u := by simpa using hv
    refine ⟨t, ?_, SameCode.refl t⟩
    rw [← ht]
    exact Function.update_of_ne hne none s.unit
  unitSize := rfl
  lruCache := rfl
  lruAlloc := rfl
  epoch := rfl
  jitControl := rfl

/-- Discarding a unit that is in the LRU list. -/
theorem discardUnit_indexed (h : Indexed s order loose bucket) (hu : u ∈ order) :
    ∃ s' order' bucket', discardUnit s u = some s' ∧ Indexed s' order' loose bucket' ∧
      Prunes s s' [u] := by
  obtain ⟨before, after, rfl⟩ := List.append_of_mem hu
  obtain ⟨links₁, hremove₁, h₁, -⟩ := h.removeLRU
  obtain ⟨links₂, bucket', hremove₂, hfree, h₂⟩ := h₁.release
  refine ⟨_, _, _, ?_, h₂, Prunes.free⟩
  simp only [discardUnit, hremove₁, hremove₂, Option.bind_eq_bind, Option.bind_some]
  simp only at hfree
  rw [hfree]
  rfl

/-- Discarding a unit already taken out of the LRU list: the second `REMOVE` changes nothing. -/
theorem discardUnit_loose (h : Indexed s order (u :: loose) bucket)
    (hagain : remove s.links (.lruNode u) = some s.links) :
    ∃ s' bucket', discardUnit s u = some s' ∧ Indexed s' order loose bucket' ∧
      Prunes s s' [u] := by
  obtain ⟨links', bucket', hremove, hfree, h'⟩ := h.release
  refine ⟨_, _, ?_, h', Prunes.free⟩
  simp only [discardUnit, hagain, hremove, Option.bind_eq_bind, Option.bind_some, hfree]

/-! ### Verification -/

theorem touchEpoch_unit : (touchEpoch s u t).unit =
    Function.update s.unit u (some { t with mtEpoch := s.epoch }) := rfl

/-- Setting the epoch of a unit. -/
theorem touchEpoch_indexed (h : Indexed s order loose bucket) (hu : s.unit u = some t) :
    Indexed (touchEpoch s u t) order loose bucket ∧ Prunes s (touchEpoch s u t) [] ∧
      (touchEpoch s u t).unit u = some { t with mtEpoch := s.epoch } := by
  refine ⟨h.writeUnit hu rfl, ⟨?_, ?_, rfl, rfl, rfl, rfl, rfl⟩, Function.update_self ..⟩
  · intro v t' ht'
    by_cases hv : v = u
    · subst v
      rw [touchEpoch_unit, Function.update_self] at ht'
      cases ht'
      exact ⟨List.not_mem_nil, t, hu, rfl, rfl, rfl⟩
    · rw [touchEpoch_unit, Function.update_of_ne hv] at ht'
      exact ⟨List.not_mem_nil, t', ht', SameCode.refl t'⟩
  · intro v t₁ ht₁ _
    by_cases hv : v = u
    · subst v
      rw [hu] at ht₁
      cases ht₁
      exact ⟨_, Function.update_self .., rfl, rfl, rfl⟩
    · refine ⟨t₁, ?_, SameCode.refl t₁⟩
      rwa [touchEpoch_unit, Function.update_of_ne hv]

theorem moveToLRUHead_indexed (h : Indexed s order [] bucket) (hu : s.unit u = some t) :
    ∃ s' order', moveToLRUHead s u = some s' ∧ Indexed s' order' [] bucket ∧ Prunes s s' [] ∧
      s'.unit = s.unit := by
  have hmem : u ∈ order := by simpa using h.allocated_of_some hu
  obtain ⟨before, after, rfl⟩ := List.append_of_mem hmem
  obtain ⟨links₁, hremove, h₁, -⟩ := h.removeLRU
  obtain ⟨links₂, hadd, h₂⟩ := h₁.addHeadLRU
  refine ⟨_, _, ?_, h₂, Prunes.of_eq rfl rfl rfl rfl rfl rfl, rfl⟩
  simp only at hadd
  simp only [moveToLRUHead, hremove, hadd, Option.bind_eq_bind, Option.bind_some]

/-- `M68K_VerifyUnit` finds that a unit no longer fits the control registers or the m68k code. A
unit in ROM is not compared with the code. -/
def unitChanged (s : JitState) (t : M68KTranslationUnit) (view : CodeView) : Prop :=
  (t.mtJITControl ≠ s.jitControl ∨ t.mtJITControl2 ≠ s.jitControl2) ∨
    ¬(0xf80000 ≤ t.mtM68kAddress ∧ t.mtM68kAddress < 0x1000000) ∧
      ((t.mtM68kHigh - t.mtM68kLow > 8 ∧ fingerprint view t.mtM68kAddress ≠ t.mtFingerprint) ∨
        view.calcCRC32 t.mtM68kLow t.mtM68kHigh ≠ t.mtCRC32)

/-- `M68K_VerifyUnit` keeps an unchanged unit, and discards a changed one and returns null. -/
theorem m68kVerifyUnit_indexed (h : Indexed s order [] bucket) (hu : s.unit u = some t)
    (view : CodeView) :
    ∃ s' kept order' bucket', m68kVerifyUnit s (some u) view = some (s', kept) ∧
      Indexed s' order' [] bucket' ∧
      (kept = some u ∧ Prunes s s' [] ∨
        kept = none ∧ unitChanged s t view ∧ Prunes s s' [u]) := by
  have hmem : u ∈ order := by simpa using h.allocated_of_some hu
  obtain ⟨sd, orderd, bucketd, hdiscard, hd, hpruned⟩ := discardUnit_indexed h hmem
  obtain ⟨ht, hprunet, hut⟩ := touchEpoch_indexed h hu
  obtain ⟨sl, orderl, hlru, hl, hprunel, hunitl⟩ := moveToLRUHead_indexed ht hut
  have hkeep := hprunet.trans hprunel
  simp only [m68kVerifyUnit, hu, Option.bind_eq_bind, Option.bind_some]
  by_cases hcontrol : t.mtJITControl ≠ s.jitControl ∨ t.mtJITControl2 ≠ s.jitControl2
  · rw [if_pos hcontrol, hdiscard]
    exact ⟨sd, none, orderd, bucketd, rfl, hd, Or.inr ⟨rfl, Or.inl hcontrol, hpruned⟩⟩
  rw [if_neg hcontrol]
  by_cases hrom : 0xf80000 ≤ t.mtM68kAddress ∧ t.mtM68kAddress < 0x1000000
  · rw [if_pos hrom, hlru]
    exact ⟨sl, some u, orderl, bucket, rfl, hl, Or.inl ⟨rfl, hkeep⟩⟩
  rw [if_neg hrom]
  generalize hfp : (if t.mtM68kHigh - t.mtM68kLow > 8 then fingerprint view t.mtM68kAddress
    else t.mtFingerprint) = fp
  generalize hcrc : (if fp = t.mtFingerprint then view.calcCRC32 t.mtM68kLow t.mtM68kHigh
    else 0) = crc
  by_cases hchanged : fp ≠ t.mtFingerprint ∨ crc ≠ t.mtCRC32
  · have hcode : (t.mtM68kHigh - t.mtM68kLow > 8 ∧
        fingerprint view t.mtM68kAddress ≠ t.mtFingerprint) ∨
        view.calcCRC32 t.mtM68kLow t.mtM68kHigh ≠ t.mtCRC32 := by
      by_cases hsame : fp = t.mtFingerprint
      · rw [if_pos hsame] at hcrc
        exact Or.inr (hcrc ▸ hchanged.resolve_left (not_not.mpr hsame))
      · refine Or.inl ?_
        by_cases hlong : t.mtM68kHigh - t.mtM68kLow > 8
        · rw [if_pos hlong] at hfp
          exact ⟨hlong, hfp ▸ hsame⟩
        · rw [if_neg hlong] at hfp
          exact absurd hfp.symm hsame
    rw [if_pos hchanged, hdiscard]
    exact ⟨sd, none, orderd, bucketd, rfl, hd, Or.inr ⟨rfl, Or.inr ⟨hrom, hcode⟩, hpruned⟩⟩
  · rw [if_neg hchanged]
    obtain ⟨links', bucket', hbucket, hb⟩ := hl.moveToBucketHead (hunitl ▸ hut)
    simp only at hbucket
    rw [hlru, Option.bind_some, hbucket]
    refine ⟨_, some u, orderl, bucket', rfl, hb, Or.inl ⟨rfl, ?_⟩⟩
    exact hkeep.trans (Prunes.of_eq rfl rfl rfl rfl rfl rfl)

/-- `M68K_VerifyUnitCRC32` leaves the state alone when the checksum matches, and discards the unit
otherwise. -/
theorem m68kVerifyUnitCRC32_indexed (h : Indexed s order [] bucket) (hu : s.unit u = some t)
    (view : CodeView) :
    ∃ s' kept order' bucket', m68kVerifyUnitCRC32 s (some u) view = some (s', kept) ∧
      Indexed s' order' [] bucket' ∧
      (kept = some u ∧ Prunes s s' [] ∨ kept = none ∧
        view.calcCRC32 t.mtM68kLow t.mtM68kHigh ≠ t.mtCRC32 ∧ Prunes s s' [u]) := by
  have hmem : u ∈ order := by simpa using h.allocated_of_some hu
  obtain ⟨sd, orderd, bucketd, hdiscard, hd, hpruned⟩ := discardUnit_indexed h hmem
  simp only [m68kVerifyUnitCRC32, hu, Option.bind_eq_bind, Option.bind_some]
  by_cases hchanged : view.calcCRC32 t.mtM68kLow t.mtM68kHigh ≠ t.mtCRC32
  · rw [if_pos hchanged, hdiscard]
    exact ⟨sd, none, orderd, bucketd, rfl, hd, Or.inr ⟨rfl, hchanged, hpruned⟩⟩
  · rw [if_neg hchanged]
    exact ⟨s, some u, order, bucket, rfl, h, Or.inl ⟨rfl, Prunes.of_eq rfl rfl rfl rfl rfl rfl⟩⟩

/-! ### Eviction and creation -/

/-- The eviction loop frees the least recently used units, as many as there are rounds. -/
theorem evictTails_indexed (rounds : ℕ) (h : Indexed s order [] bucket) :
    ∃ s' bucket', evictTails rounds s = some s' ∧
      Indexed s' (order.take (order.length - rounds)) [] bucket' ∧
      Prunes s s' (order.drop (order.length - rounds)) := by
  induction rounds generalizing s order bucket with
  | zero =>
    refine ⟨s, bucket, rfl, by simpa using h, ?_⟩
    simpa using Prunes.of_eq (s := s) rfl rfl rfl rfl rfl rfl
  | succ rounds ih =>
    rcases List.eq_nil_or_concat order with rfl | ⟨front, last, rfl⟩
    · refine ⟨s, bucket, ?_, by simpa using h, ?_⟩
      · simp only [evictTails, h.remTailLRU_nil, Option.bind_eq_bind, Option.bind_some]
      · simpa using Prunes.of_eq (s := s) rfl rfl rfl rfl rfl rfl
    · rw [List.concat_eq_append] at h ⊢
      obtain ⟨links₁, htail, h₁, -⟩ := h.remTailLRU
      obtain ⟨links₂, bucket₂, hremove, hfree, h₂⟩ := h₁.release
      obtain ⟨s', bucket', hrest, h', hprune⟩ := ih h₂
      have hlength : (front ++ [last]).length - (rounds + 1) = front.length - rounds := by
        rw [List.length_append, List.length_singleton]
        omega
      have htake : (front ++ [last]).take (front.length - rounds) =
          front.take (front.length - rounds) := by
        rw [List.take_append_of_le_length (Nat.sub_le _ _)]
      have hdrop : (front ++ [last]).drop (front.length - rounds) =
          front.drop (front.length - rounds) ++ [last] := by
        rw [List.drop_append_of_le_length (Nat.sub_le _ _)]
      refine ⟨s', bucket', ?_, by rw [hlength, htake]; exact h', ?_⟩
      · simp only at hremove hfree
        simp only [evictTails, htail, unitOfLRUNode, hremove, hfree, Option.bind_eq_bind,
          Option.bind_some]
        exact hrest
      · rw [hlength, hdrop]
        have hboth := (Prunes.free (s := s) (u := last)).trans hprune
        exact hboth.congr fun v ↦ by simp [or_comm]

/-- The number of `tlsf_malloc_aligned` calls that fail before one succeeds. -/
def failedAnswers (answers : List (Option UnitAddr)) : ℕ :=
  (answers.takeWhile Option.isNone).length

theorem failedAnswers_none (answers : List (Option UnitAddr)) :
    failedAnswers (none :: answers) = failedAnswers answers + 1 := by
  simp [failedAnswers]

/-- Evicting the last `b` entries and then `a` of the rest evicts the last `a + b`. -/
theorem take_take_sub (xs : List UnitAddr) (a b : ℕ) :
    (xs.take (xs.length - b)).take ((xs.take (xs.length - b)).length - a) =
      xs.take (xs.length - (a + b)) := by
  rw [List.take_take, List.length_take]
  congr 1
  omega

theorem mem_drop_sub (xs : List UnitAddr) (a b : ℕ) (v : UnitAddr) :
    v ∈ xs.drop (xs.length - b) ++
        (xs.take (xs.length - b)).drop ((xs.take (xs.length - b)).length - a) ↔
      v ∈ xs.drop (xs.length - (a + b)) := by
  have hle : xs.length - (a + b) ≤ xs.length - b := by omega
  have hlength : (xs.take (xs.length - b)).length - a = xs.length - (a + b) := by
    rw [List.length_take]
    omega
  have hsplit : (xs.take (xs.length - b) ++ xs.drop (xs.length - b)).drop (xs.length - (a + b)) =
      (xs.take (xs.length - b)).drop (xs.length - (a + b)) ++ xs.drop (xs.length - b) :=
    List.drop_append_of_le_length (by rw [List.length_take]; omega)
  rw [List.take_append_drop] at hsplit
  rw [hlength, hsplit, List.mem_append, List.mem_append, or_comm]

/-- The allocation loop evicts 64 units for every failed answer. -/
theorem allocateUnit_indexed (answers : List (Option UnitAddr)) (hanswers : ∃ v, some v ∈ answers)
    (h : Indexed s order [] bucket) :
    ∃ s' u bucket', allocateUnit answers s = some (s', u) ∧
      Indexed s' (order.take (order.length - 64 * failedAnswers answers)) [] bucket' ∧
      Prunes s s' (order.drop (order.length - 64 * failedAnswers answers)) := by
  induction answers generalizing s order bucket with
  | nil => simp at hanswers
  | cons answer rest ih =>
    cases answer with
    | some u =>
      refine ⟨s, u, bucket, rfl, by simpa [failedAnswers] using h, ?_⟩
      simpa [failedAnswers] using Prunes.of_eq (s := s) rfl rfl rfl rfl rfl rfl
    | none =>
      have hrest : ∃ v, some v ∈ rest := by simpa using hanswers
      obtain ⟨s₁, bucket₁, hevict, h₁, hprune₁⟩ := evictTails_indexed 64 h
      have h₂ : Indexed { s₁ with lastPC := 0xffffffff } (order.take (order.length - 64)) []
        bucket₁ := h₁.congr rfl rfl rfl
      obtain ⟨s', u, bucket', hallocate, h', hprune⟩ := ih hrest h₂
      have hcount : 64 * failedAnswers (none :: rest) = 64 * failedAnswers rest + 64 := by
        rw [failedAnswers_none]
        omega
      refine ⟨s', u, bucket', ?_, ?_, ?_⟩
      · simp only [allocateUnit, hevict, Option.bind_eq_bind, Option.bind_some]
        exact hallocate
      · rw [hcount, ← take_take_sub]
        exact h'
      · rw [hcount]
        have hclear : Prunes s₁ { s₁ with lastPC := 0xffffffff } [] :=
          Prunes.of_eq rfl rfl rfl rfl rfl rfl
        exact ((hprune₁.trans hclear).trans hprune).congr fun v ↦ by
          rw [List.append_nil]
          exact mem_drop_sub order _ 64 v

theorem exists_of_allocateUnit {answers : List (Option UnitAddr)} {r : JitState × UnitAddr}
    (hresult : allocateUnit answers s = some r) : ∃ v, some v ∈ answers := by
  induction answers generalizing s with
  | nil => simp [allocateUnit] at hresult
  | cons answer rest ih =>
    cases answer with
    | some u => exact ⟨u, by simp⟩
    | none =>
      simp only [allocateUnit, Option.bind_eq_bind, Option.bind_eq_some_iff] at hresult
      obtain ⟨s₁, -, hrest⟩ := hresult
      obtain ⟨v, hv⟩ := ih hrest
      exact ⟨v, List.mem_cons_of_mem _ hv⟩

/-- The state and the unit that `M68K_GetTranslationUnit` makes out of the block it allocated. -/
theorem m68kGetTranslationUnit_indexed {answers : List (Option UnitAddr)} (pc : UInt32)
    (translation : Translation) (view : CodeView) (h : Indexed s order [] bucket)
    (hallocate : allocateUnit answers s = some (s', u)) (hfree : s'.unit u = none)
    (hlength : unitLength translation.lineLength ≤ initialAlloc s'.jitControl) :
    ∃ s'' order' bucket' t, m68kGetTranslationUnit s pc answers translation view = some (s'', u) ∧
      Indexed s'' order' [] bucket' ∧
      t.mtM68kAddress = pc ∧ t.mtARMEntryPoint = .code (codeStart u) ∧
      128 + 4 * t.mtARMInsnCnt ≤ unitLength translation.lineLength ∧
      s''.unit = Function.update s'.unit u (some t) ∧
      s''.unitSize = Function.update s'.unitSize u (unitLength translation.lineLength) ∧
      s''.lruCache = s'.lruCache ∧ s''.lruAlloc = s'.lruAlloc := by
  obtain ⟨s₁, u₁, bucket₁, hallocate₁, h₁, -⟩ :=
    allocateUnit_indexed answers (exists_of_allocateUnit hallocate) h
  rw [hallocate] at hallocate₁
  cases hallocate₁
  obtain ⟨links₁, links₂, bucket₂, hadd₁, hadd₂, h₂⟩ := h₁.addUnit hfree
    { mtEpoch := s'.epoch
      mtM68kAddress := pc
      mtARMEntryPoint := .code (codeStart u)
      mtCRC32 := view.calcCRC32 translation.m68kLow translation.m68kHigh
      mtFingerprint := fingerprint view pc
      mtM68kLow := translation.m68kLow
      mtM68kHigh := translation.m68kHigh
      mtJITControl := s'.jitControl
      mtJITControl2 := s'.jitControl2
      mtARMInsnCnt := translation.lineLength / 4 - 1 }
    (Function.update s'.unitSize u (unitLength translation.lineLength))
  refine ⟨_, _, bucket₂, _, ?_, h₂, rfl, rfl, ?_, rfl, rfl, rfl, rfl⟩
  · simp only [m68kGetTranslationUnit, hallocate, Option.bind_eq_bind, Option.bind_some]
    rw [if_neg (Nat.not_lt.mpr hlength), hadd₁, Option.bind_some, hadd₂]
    rfl
  · simp only [unitLength]
    omega

/-- A unit in a free block keeps the blocks apart. -/
theorem Placed.addUnit (h : Placed s) {size length : ℕ} (hfree : FreeBlock s u size)
    (hlength : length ≤ size) (hentry : t.mtARMEntryPoint = .code (codeStart u))
    (hfits : 128 + 4 * t.mtARMInsnCnt ≤ length)
    (hunit : s'.unit = Function.update s.unit u (some t))
    (hsize : s'.unitSize = Function.update s.unitSize u length) : Placed s' where
  entry := by
    intro v t' ht'
    rw [hunit] at ht'
    by_cases hv : v = u
    · subst v
      rw [Function.update_self] at ht'
      cases ht'
      exact hentry
    · rw [Function.update_of_ne hv] at ht'
      exact h.entry v t' ht'
  fits := by
    intro v t' ht'
    rw [hunit] at ht'
    rw [hsize]
    by_cases hv : v = u
    · subst v
      rw [Function.update_self] at ht' ⊢
      cases ht'
      exact hfits
    · rw [Function.update_of_ne hv] at ht' ⊢
      exact h.fits v t' ht'
  apart := by
    intro v w hne hv hw
    rw [hunit] at hv hw
    rw [hsize]
    by_cases hvu : v = u
    · subst v
      rw [Function.update_of_ne hne.symm] at hw ⊢
      rw [Function.update_self]
      rcases hfree.apart w hw with hlow | hhigh
      · exact Or.inl (by omega)
      · exact Or.inr hhigh
    · rw [Function.update_of_ne hvu] at hv ⊢
      by_cases hwu : w = u
      · subst w
        rw [Function.update_self]
        rcases hfree.apart v hv with hlow | hhigh
        · exact Or.inr (by omega)
        · exact Or.inl hhigh
      · rw [Function.update_of_ne hwu] at hw ⊢
        exact h.apart v w hne hv hw

/-! ### Flushing -/

/-- The return address lies in the code of at most one unit. -/
theorem Placed.code_unique (h : Placed s) {v : UnitAddr} {t' : M68KTranslationUnit} {address : ℕ}
    (hu : s.unit u = some t) (hv : s.unit v = some t')
    (hin : codeStart u ≤ address ∧ address < codeStart u + 4 * t.mtARMInsnCnt)
    (hin' : codeStart v ≤ address ∧ address < codeStart v + 4 * t'.mtARMInsnCnt) : u = v := by
  by_contra hne
  have hfits := h.fits u t hu
  have hfits' := h.fits v t' hv
  have hapart := h.apart u v hne (by rw [hu]; rfl) (by rw [hv]; rfl)
  simp only [codeStart] at hin hin'
  omega

/-- The loop of `check_cacr` takes every unit out of the LRU list and discards it, except for the
unit that holds the return address. -/
theorem flushUnits_indexed (returnAddress fuel : ℕ) (keep : Option UnitAddr)
    (h : Indexed s order keep.toList bucket) (hfuel : order.length < fuel) (hplaced : Placed s)
    (hkeep : ∀ v, keep = some v → ∃ t, s.unit v = some t ∧ codeStart v ≤ returnAddress ∧
      returnAddress < codeStart v + 4 * t.mtARMInsnCnt) :
    ∃ s' keep' bucket' gone, flushUnits returnAddress fuel s keep = some (s', keep') ∧
      Indexed s' [] keep'.toList bucket' ∧ Prunes s s' gone := by
  induction fuel generalizing s order keep bucket with
  | zero => omega
  | succ fuel ih =>
    rcases List.eq_nil_or_concat order with rfl | ⟨front, last, rfl⟩
    · refine ⟨s, keep, bucket, [], ?_, h, Prunes.of_eq rfl rfl rfl rfl rfl rfl⟩
      simp only [flushUnits, h.remTailLRU_nil, Option.bind_eq_bind, Option.bind_some]
    · rw [List.concat_eq_append] at h hfuel
      rw [List.length_append, List.length_singleton] at hfuel
      obtain ⟨links₁, htail, h₁, hagain⟩ := h.remTailLRU
      obtain ⟨t, ht⟩ : ∃ t, s.unit last = some t :=
        Option.isSome_iff_exists.mp ((h.allocated last).mpr (by simp))
      have hclear : Prunes s { s with links := links₁ } [] :=
        Prunes.of_eq rfl rfl rfl rfl rfl rfl
      simp only [flushUnits, htail, unitOfLRUNode, ht, hplaced.entry last t ht,
        Option.bind_eq_bind, Option.bind_some]
      by_cases hin : codeStart last ≤ returnAddress ∧
          returnAddress < codeStart last + 4 * t.mtARMInsnCnt
      · rw [if_pos hin]
        cases keep with
        | some v =>
          -- Only one unit holds the return address, and `v` is no longer in the list.
          obtain ⟨t', ht', hin'⟩ := hkeep v rfl
          have heq := hplaced.code_unique ht ht' hin hin'
          subst heq
          have hnodup : (last :: [last]).Nodup := h₁.nodup.of_append_right
          exact absurd hnodup (by simp)
        | none =>
          obtain ⟨s', keep', bucket', gone, hflush, h', hprune⟩ :=
            ih (some last) h₁ (by omega) (hclear.placed hplaced)
              (fun v hv ↦ ⟨t, by cases hv; exact ht, by cases hv; exact hin⟩)
          exact ⟨s', keep', bucket', _, hflush, h', hclear.trans hprune⟩
      · rw [if_neg hin]
        obtain ⟨s₂, bucket₂, hdiscard, h₂, hprune₂⟩ := discardUnit_loose h₁ hagain
        have hkeep₂ : ∀ v, keep = some v → ∃ t, s₂.unit v = some t ∧
            codeStart v ≤ returnAddress ∧ returnAddress < codeStart v + 4 * t.mtARMInsnCnt := by
          intro v hv
          obtain ⟨t', ht', hin'⟩ := hkeep v hv
          have hne : v ∉ [last] := by
            intro hmem
            rw [List.mem_singleton] at hmem
            subst hmem hv
            have hnodup : (v :: [v]).Nodup := h₁.nodup.of_append_right
            exact absurd hnodup (by simp)
          obtain ⟨t'', ht'', hsame⟩ := hprune₂.kept v t' ht' hne
          exact ⟨t'', ht'', by rw [hsame.2.2]; exact hin'⟩
        obtain ⟨s', keep', bucket', gone, hflush, h', hprune⟩ :=
          ih keep h₂ (by omega) (hprune₂.placed (hclear.placed hplaced)) hkeep₂
        rw [hdiscard, Option.bind_some]
        exact ⟨s', keep', bucket', _, hflush, h', (hclear.trans hprune₂).trans hprune⟩

/-- `check_cacr` leaves an index behind; it either changes nothing but `old_cacr`, or empties the
look-up cache. -/
theorem checkCacr_indexed (h : Indexed s order [] bucket) (hplaced : Placed s) (cacr : UInt32)
    (returnAddress : ℕ) :
    ∃ s' order' bucket', checkCacr s cacr returnAddress = some s' ∧ Indexed s' order' [] bucket' ∧
      Placed s' ∧ (s' = { s with oldCacr := cacr } ∨
        s'.lruCache = (lruInvalidateAll s).lruCache ∧
          s'.lruAlloc = (lruInvalidateAll s).lruAlloc) := by
  have h₀ : Indexed { s with oldCacr := cacr } order [] bucket := h.congr rfl rfl rfl
  have hclear : Prunes s { s with oldCacr := cacr } [] := Prunes.of_eq rfl rfl rfl rfl rfl rfl
  simp only [checkCacr]
  split
  · have hlength := h.length_le
    rw [List.append_nil] at hlength
    obtain ⟨s₁, keep, bucket₁, gone, hflush, h₁, hprune⟩ :=
      flushUnits_indexed returnAddress walkFuel none h₀ (by simp only [walkFuel]; omega)
        (hclear.placed hplaced) (by simp)
    have hplaced₁ := hprune.placed (hclear.placed hplaced)
    simp only [hflush, Option.bind_eq_bind, Option.bind_some]
    cases keep with
    | none =>
      refine ⟨_, [], bucket₁, rfl, h₁.congr rfl rfl rfl,
        ⟨hplaced₁.entry, hplaced₁.fits, hplaced₁.apart⟩, Or.inr ⟨?_, ?_⟩⟩
      · simp only [lruInvalidateAll, hprune.lruCache]
      · simp only [lruInvalidateAll, hprune.lruAlloc]
    | some u =>
      obtain ⟨links', hadd, h₂⟩ := Indexed.addTailLRU h₁
      have hadd' : addTail (lruInvalidateAll { s₁ with lastPC := 0xffffffff }).links lru
        (.lruNode u) = some links' := hadd
      simp only [hadd', Option.bind_some]
      refine ⟨_, [u], bucket₁, rfl, h₂.congr rfl rfl rfl,
        ⟨hplaced₁.entry, hplaced₁.fits, hplaced₁.apart⟩, Or.inr ⟨?_, ?_⟩⟩
      · simp only [lruInvalidateAll, hprune.lruCache]
      · simp only [lruInvalidateAll, hprune.lruAlloc]
  · exact ⟨_, order, bucket, rfl, h₀, hclear.placed hplaced, Or.inl rfl⟩

/-! ### The start -/

theorem newList_frame (links : Links NodeAddr) (l : ListHeader NodeAddr) :
    FrameOutside links (newList links l) [l.lhHead, l.lhTail] := by
  intro a ha
  simp only [List.mem_cons, List.not_mem_nil, or_false, not_or] at ha
  simp [newList, Function.update_of_ne ha.1, Function.update_of_ne ha.2]

/-- Initialising buckets one after the other keeps the lists that are already empty. -/
theorem initializeBuckets_linked (hashes : List Hash) (links : Links NodeAddr)
    (hnodup : hashes.Nodup) (hlru : Linked links lru []) :
    Linked (hashes.foldl (fun links i ↦ newList links (icache i)) links) lru [] ∧
      ∀ hash, hash ∈ hashes ∨ Linked links (icache hash) [] →
        Linked (hashes.foldl (fun links i ↦ newList links (icache i)) links) (icache hash) [] := by
  induction hashes generalizing links with
  | nil => exact ⟨hlru, fun hash hmem ↦ hmem.resolve_left List.not_mem_nil⟩
  | cons first rest ih =>
    rw [List.nodup_cons] at hnodup
    have hframe := newList_frame links (icache first)
    have hlru' : Linked (newList links (icache first)) lru [] := by
      refine hlru.frame hframe fun a ha hmem ↦ ?_
      simp only [lru, icache, List.nil_append, List.mem_cons, List.not_mem_nil, or_false] at ha hmem
      rcases ha with rfl | rfl <;> simp at hmem
    obtain ⟨hrest, hbuckets⟩ := ih (newList links (icache first)) hnodup.2 hlru'
    refine ⟨hrest, fun hash hmem ↦ hbuckets hash ?_⟩
    by_cases hhash : hash = first
    · subst hash
      exact Or.inr (newList_linked (by simp [icache]))
    · rcases hmem with hmem | hlinked
      · exact Or.inl ((List.mem_cons.mp hmem).resolve_left hhash)
      · refine Or.inr (hlinked.frame hframe fun a ha hmem ↦ ?_)
        simp only [icache, List.nil_append, List.mem_cons, List.not_mem_nil, or_false] at ha hmem
        rcases ha with rfl | rfl <;> simp [hhash] at hmem

/-- `M68K_InitializeCache` makes every list empty. -/
theorem m68kInitializeCache_linked (links : Links NodeAddr) :
    Linked (m68kInitializeCache links) lru [] ∧
      ∀ hash, Linked (m68kInitializeCache links) (icache hash) [] := by
  have hlru : Linked (newList links lru) lru [] := newList_linked (by simp [lru])
  obtain ⟨horder, hbuckets⟩ :=
    initializeBuckets_linked (List.finRange 65536) _ (List.nodup_finRange _) hlru
  unfold m68kInitializeCache
  exact ⟨horder, fun hash ↦ hbuckets hash (Or.inl (List.mem_finRange hash))⟩

/-- `MainLoop` starts with an empty index. -/
theorem mainLoopStart_indexed (memory : JitState) :
    Indexed (mainLoopStart memory) [] [] (fun _ ↦ []) := by
  have hlists := m68kInitializeCache_linked memory.links
  unfold mainLoopStart lruInvalidateAll
  generalize m68kInitializeCache memory.links = links at hlists
  exact
    { order_linked := hlists.1
      bucket_linked := hlists.2
      nodup := List.nodup_nil
      allocated := by simp
      mem_bucket := by simp
      count := rfl }

theorem mainLoopStart_placed (memory : JitState) : Placed (mainLoopStart memory) where
  entry := fun u t ht ↦ by simp [mainLoopStart, lruInvalidateAll] at ht
  fits := fun u t ht ↦ by simp [mainLoopStart, lruInvalidateAll] at ht
  apart := fun u v _ hu ↦ by simp [mainLoopStart, lruInvalidateAll] at hu

end Emu68.Jit
