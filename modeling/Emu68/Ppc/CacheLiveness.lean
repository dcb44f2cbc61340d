import Emu68.Ppc.TranslationCache

/-!
Every entry of the look-up cache belongs to a unit of the current epoch. So a unit that is verified
because its epoch is old has no entry, and may be discarded. A unit that is evicted can have one.
-/

set_option autoImplicit false
set_option relaxedAutoImplicit false

namespace Emu68.Ppc

variable {s s' : CacheState} {u v : UnitAddr} {t : TranslationUnit} {pc : Word}

/-! ### What the look-up relies on -/

/-- The unit is allocated and in both lists. -/
structure Linked (s : CacheState) (u : UnitAddr) (t : TranslationUnit) : Prop where
  unit : s.unit u = some t
  lru : u ∈ s.lru
  bucket : u ∈ s.iCache (hashOf t.ptuPPCAddress)

/-- Entries that are not empty belong to linked units, and so does what the look-up finds. -/
def CacheLive (s : CacheState) : Prop :=
  (∀ i < setCount * wayCount, (s.cache i).ppc.setWidth 32 ≠ 0xffffffff →
    ∃ u t, Linked s u t ∧ s.cache i = ⟨t.ptuPPCAddress.setWidth 64, some t.ptuARMEntryPoint⟩) ∧
  ∀ pc code, (findBlock s pc).2 = some code →
    ∃ u t, Linked s u t ∧ t.ptuPPCAddress = pc ∧ t.ptuARMEntryPoint = code

/-- No entry is that of the unit. -/
def NotCached (s : CacheState) (u : UnitAddr) : Prop :=
  ∀ t, s.unit u = some t → ∀ i < setCount * wayCount,
    s.cache i ≠ ⟨t.ptuPPCAddress.setWidth 64, some t.ptuARMEntryPoint⟩

/-- The units that the failures evict. -/
def evicted (s : CacheState) (failures : ℕ) : List UnitAddr :=
  s.lru.drop (s.lru.length - 8 * failures)

/-- An operation that evicts units evicts none with an entry and no more than there are. An
operation that inserts an entry inserts it into the array. -/
def Spares (s : CacheState) : CacheOp → Prop
  | .look pc => (findBlock s pc).2 = none → insertIndex (findBlock s pc).1 pc < setCount * wayCount
  | .verify _ => ∀ pc, s.phase = .missed pc → insertIndex s pc < setCount * wayCount
  | .create failures _ _ _ =>
    (8 * failures ≤ s.lru.length ∧ ∀ u ∈ evicted s failures, NotCached s u) ∧
      ∀ pc, s.phase = .absent pc → insertIndex s pc < setCount * wayCount
  | .icbi => True

/-! ### The invariant -/

/-- An entry is empty, or belongs to a unit of the current epoch. -/
def EntryKept (s : CacheState) (e : CacheEntry) : Prop :=
  e.arm = none ∧ e.ppc.setWidth 32 = (0xffffffff : Word) ∨
    ∃ u t, s.unit u = some t ∧ e = ⟨t.ptuPPCAddress.setWidth 64, some t.ptuARMEntryPoint⟩ ∧
      t.ptuEpoch = s.epoch

structure Kept (s : CacheState) : Prop where
  lru_nodup : s.lru.Nodup
  bucket_nodup : ∀ hash, (s.iCache hash).Nodup
  mem_lru : ∀ u, u ∈ s.lru ↔ (s.unit u).isSome
  mem_bucket : ∀ hash u, u ∈ s.iCache hash ↔
    ∃ t, s.unit u = some t ∧ hashOf t.ptuPPCAddress = hash
  placed : ∀ u t, s.unit u = some t → t.ptuARMEntryPoint = codeStart u
  entries : ∀ i < setCount * wayCount, EntryKept s (s.cache i)

/-- What is known while the main loop looks for a unit that `FindUnitQuick` did not find. -/
def MissedOld (s : CacheState) : Prop :=
  ∀ pc, s.phase = .missed pc → ∀ u t, s.unit u = some t → t.ptuPPCAddress = pc → t.ptuEpoch ≠ s.epoch

theorem Kept.linked (h : Kept s) (hu : s.unit u = some t) : Linked s u t where
  unit := hu
  lru := (h.mem_lru u).mpr (by rw [hu]; rfl)
  bucket := (h.mem_bucket _ u).mpr ⟨t, hu, rfl⟩

theorem findWay_spec {i : ℕ} (h : findWay s pc = some i) :
    i < wayCount ∧ (s.cache (addressToSet pc * wayCount + i)).ppc = pc.setWidth 64 := by
  have hmem := List.mem_of_find?_eq_some h
  have htest := List.find?_some h
  exact ⟨List.mem_range.mp hmem, of_decide_eq_true htest⟩

theorem addressToSet_lt (pc : Word) : addressToSet pc < setCount := Nat.mod_lt _ (by decide)

theorem way_lt (pc : Word) {i : ℕ} (hi : i < wayCount) :
    addressToSet pc * wayCount + i < setCount * wayCount := by
  have hset := addressToSet_lt pc
  simp only [wayCount, setCount] at *
  omega

theorem setWidth_inj {x y : Word} (h : x.setWidth 64 = y.setWidth 64) : x = y := by
  have hback := congrArg (BitVec.setWidth 32) h
  rwa [BitVec.setWidth_setWidth_of_le _ (by decide), BitVec.setWidth_setWidth_of_le _ (by decide),
    BitVec.setWidth_eq, BitVec.setWidth_eq] at hback

/-- What the look-up finds is the entry point of a unit for the address. -/
theorem Kept.findBlock_unit (h : Kept s) {code : ℕ} (hfind : (findBlock s pc).2 = some code) :
    ∃ u t, Linked s u t ∧ t.ptuPPCAddress = pc ∧ t.ptuARMEntryPoint = code := by
  unfold findBlock at hfind
  cases hway : findWay s pc with
  | none =>
    rw [hway] at hfind
    cases hfind
  | some i =>
    rw [hway] at hfind
    replace hfind : (s.cache (addressToSet pc * wayCount + i)).arm = some code := hfind
    obtain ⟨hlt, hppc⟩ := findWay_spec hway
    rcases h.entries _ (way_lt pc hlt) with ⟨hempty, -⟩ | ⟨u, t, hunit, hentry, -⟩
    · rw [hempty] at hfind
      cases hfind
    · rw [hentry] at hfind hppc
      exact ⟨u, t, h.linked hunit, setWidth_inj hppc, Option.some.inj hfind⟩

theorem Kept.live (h : Kept s) : CacheLive s := by
  refine ⟨fun i hi hused ↦ ?_, fun pc code hfind ↦ h.findBlock_unit hfind⟩
  rcases h.entries i hi with ⟨-, hempty⟩ | ⟨u, t, hunit, hentry, -⟩
  · exact absurd hempty hused
  · exact ⟨u, t, h.linked hunit, hentry⟩

/-! ### Frames -/

theorem EntryKept.congr {e : CacheEntry} (h : EntryKept s e) (hunit : s'.unit = s.unit)
    (hepoch : s'.epoch = s.epoch) : EntryKept s' e := by
  unfold EntryKept
  rwa [hunit, hepoch]

/-- Only the units, the lists, the entries and the epoch matter. -/
theorem Kept.congr (h : Kept s) (hunit : s'.unit = s.unit) (hlru : s'.lru = s.lru)
    (hbucket : s'.iCache = s.iCache) (hcache : s'.cache = s.cache) (hepoch : s'.epoch = s.epoch) :
    Kept s' where
  lru_nodup := hlru ▸ h.lru_nodup
  bucket_nodup := hbucket ▸ h.bucket_nodup
  mem_lru := hlru ▸ hunit ▸ h.mem_lru
  mem_bucket := hbucket ▸ hunit ▸ h.mem_bucket
  placed := hunit ▸ h.placed
  entries i hi := (hcache ▸ h.entries i hi).congr hunit hepoch

theorem findBlock_kept (h : Kept s) (pc : Word) : Kept (findBlock s pc).1 := by
  unfold findBlock
  split
  · exact h.congr rfl rfl rfl rfl rfl
  · exact h

/-- Clearing the entries keeps everything, whatever the epoch. -/
theorem Kept.clear (h : Kept s) (empty : BitVec 64) (hempty : empty.setWidth 32 = (0xffffffff : Word))
    (hunit : s'.unit = s.unit) (hlru : s'.lru = s.lru) (hbucket : s'.iCache = s.iCache)
    (hcache : s'.cache = (clearCache s empty).cache) : Kept s' where
  lru_nodup := hlru ▸ h.lru_nodup
  bucket_nodup := hbucket ▸ h.bucket_nodup
  mem_lru := hlru ▸ hunit ▸ h.mem_lru
  mem_bucket := hbucket ▸ hunit ▸ h.mem_bucket
  placed := hunit ▸ h.placed
  entries i hi := by
    refine .inl ?_
    rw [hcache, clearCache]
    simp only [if_pos hi, hempty, and_self]

/-! ### Units -/

/-- A unit without an entry can be discarded. -/
theorem Kept.discard (h : Kept s) (hu : s.unit u = some t) (hspare : NotCached s u) :
    Kept (discardUnit s u t) where
  lru_nodup := h.lru_nodup.erase u
  bucket_nodup hash := by
    show (Function.update s.iCache _ _ hash).Nodup
    by_cases hhash : hash = hashOf t.ptuPPCAddress
    · subst hhash
      rw [Function.update_self]
      exact (h.bucket_nodup _).erase u
    · rw [Function.update_of_ne hhash]
      exact h.bucket_nodup hash
  mem_lru v := by
    show v ∈ s.lru.erase u ↔ (Function.update s.unit u none v).isSome
    rw [h.lru_nodup.mem_erase_iff, h.mem_lru]
    by_cases hv : v = u
    · subst hv
      simp
    · rw [Function.update_of_ne hv]
      exact and_iff_right hv
  mem_bucket hash v := by
    show v ∈ Function.update s.iCache _ _ hash ↔ ∃ t', Function.update s.unit u none v = some t' ∧ _
    by_cases hv : v = u
    · subst hv
      rw [Function.update_self]
      refine iff_of_false (fun hmem ↦ ?_) (fun ⟨t', ht', _⟩ ↦ by cases ht')
      by_cases hhash : hash = hashOf t.ptuPPCAddress
      · subst hhash
        rw [Function.update_self, (h.bucket_nodup _).mem_erase_iff] at hmem
        exact hmem.1 rfl
      · rw [Function.update_of_ne hhash] at hmem
        obtain ⟨t', ht', hhash'⟩ := (h.mem_bucket hash v).mp hmem
        obtain rfl : t = t' := Option.some.inj (hu.symm.trans ht')
        exact hhash hhash'.symm
    · rw [Function.update_of_ne hv, ← h.mem_bucket]
      by_cases hhash : hash = hashOf t.ptuPPCAddress
      · subst hhash
        rw [Function.update_self, (h.bucket_nodup _).mem_erase_iff]
        exact and_iff_right hv
      · rw [Function.update_of_ne hhash]
  placed v t' hv := by
    replace hv : Function.update s.unit u none v = some t' := hv
    by_cases hne : v = u
    · rw [hne, Function.update_self] at hv
      cases hv
    · exact h.placed v t' ((Function.update_of_ne hne _ _).symm.trans hv)
  entries i hi := by
    rcases h.entries i hi with hempty | ⟨v, t', hv, hentry, hepoch⟩
    · exact .inl hempty
    · have hne : v ≠ u := by
        rintro rfl
        exact hspare t' hv i hi hentry
      exact .inr ⟨v, t', (Function.update_of_ne hne _ _).trans hv, hentry, hepoch⟩

/-- A valid unit goes to the head of the list and into the current epoch. -/
theorem Kept.touch (h : Kept s) (hu : s.unit u = some t) : Kept (touchUnit s u t) where
  lru_nodup := List.nodup_cons.mpr
    ⟨fun hmem ↦ (h.lru_nodup.mem_erase_iff.mp hmem).1 rfl, h.lru_nodup.erase u⟩
  bucket_nodup := h.bucket_nodup
  mem_lru v := by
    show v ∈ u :: s.lru.erase u ↔ (Function.update s.unit u _ v).isSome
    rw [List.mem_cons, h.lru_nodup.mem_erase_iff, h.mem_lru]
    by_cases hv : v = u
    · subst hv
      simp
    · rw [Function.update_of_ne hv]
      simp [hv]
  mem_bucket hash v := by
    show v ∈ s.iCache hash ↔ ∃ t', Function.update s.unit u _ v = some t' ∧ _
    rw [h.mem_bucket]
    by_cases hv : v = u
    · subst hv
      rw [Function.update_self, hu]
      simp
    · rw [Function.update_of_ne hv]
  placed v t' hv := by
    by_cases hne : v = u
    · subst hne
      cases (Function.update_self v _ s.unit).symm.trans hv
      exact h.placed v t hu
    · exact h.placed v t' ((Function.update_of_ne hne _ _).symm.trans hv)
  entries i hi := by
    rcases h.entries i hi with hempty | ⟨v, t', hv, hentry, hepoch⟩
    · exact .inl hempty
    · by_cases hne : v = u
      · subst hne
        obtain rfl : t = t' := Option.some.inj (hu.symm.trans hv)
        exact .inr ⟨v, _, Function.update_self .., hentry, rfl⟩
      · exact .inr ⟨v, t', (Function.update_of_ne hne _ _).trans hv, hentry, hepoch⟩

/-- An entry for a unit of the current epoch can be inserted. -/
theorem Kept.insert (h : Kept s) (hu : s.unit u = some t) (hepoch : t.ptuEpoch = s.epoch)
    (hinsert : insertBlock s t.ptuPPCAddress t.ptuARMEntryPoint = some s') : Kept s' := by
  unfold insertBlock at hinsert
  dsimp only at hinsert
  split_ifs at hinsert
  cases hinsert
  refine ⟨h.lru_nodup, h.bucket_nodup, h.mem_lru, h.mem_bucket, h.placed, fun i hi ↦ ?_⟩
  show EntryKept _ (Function.update s.cache _ _ i)
  by_cases hslot : i = insertIndex s t.ptuPPCAddress
  · rw [hslot, Function.update_self]
    exact .inr ⟨u, t, hu, rfl, hepoch⟩
  · rw [Function.update_of_ne hslot]
    exact (h.entries i hi).congr rfl rfl

/-- A unit is created at an address that is not allocated. -/
theorem Kept.create (h : Kept s) (hfresh : s.unit u = none)
    (hplaced : t.ptuARMEntryPoint = codeStart u) :
    Kept { s with
      unit := Function.update s.unit u (some t)
      lru := u :: s.lru
      iCache := Function.update s.iCache (hashOf t.ptuPPCAddress)
        (u :: s.iCache (hashOf t.ptuPPCAddress)) } where
  lru_nodup := List.nodup_cons.mpr
    ⟨fun hmem ↦ by simpa [hfresh] using (h.mem_lru u).mp hmem, h.lru_nodup⟩
  bucket_nodup hash := by
    show (Function.update s.iCache _ _ hash).Nodup
    by_cases hhash : hash = hashOf t.ptuPPCAddress
    · subst hhash
      rw [Function.update_self]
      refine List.nodup_cons.mpr ⟨fun hmem ↦ ?_, h.bucket_nodup _⟩
      obtain ⟨t', ht', -⟩ := (h.mem_bucket _ u).mp hmem
      rw [hfresh] at ht'
      cases ht'
    · rw [Function.update_of_ne hhash]
      exact h.bucket_nodup hash
  mem_lru v := by
    show v ∈ u :: s.lru ↔ (Function.update s.unit u _ v).isSome
    rw [List.mem_cons, h.mem_lru]
    by_cases hv : v = u
    · subst hv
      simp
    · rw [Function.update_of_ne hv]
      simp [hv]
  mem_bucket hash v := by
    show v ∈ Function.update s.iCache _ _ hash ↔ ∃ t', Function.update s.unit u _ v = some t' ∧ _
    have hold := h.mem_bucket hash v
    by_cases hv : v = u
    · subst hv
      rw [Function.update_self]
      by_cases hhash : hash = hashOf t.ptuPPCAddress
      · subst hhash
        rw [Function.update_self]
        exact iff_of_true List.mem_cons_self ⟨t, rfl, rfl⟩
      · rw [Function.update_of_ne hhash, hold, hfresh]
        refine iff_of_false (fun ⟨t', ht', _⟩ ↦ by cases ht') (fun ⟨t', ht', hhash'⟩ ↦ ?_)
        cases ht'
        exact hhash hhash'.symm
    · rw [Function.update_of_ne hv, ← hold]
      by_cases hhash : hash = hashOf t.ptuPPCAddress
      · subst hhash
        rw [Function.update_self, List.mem_cons]
        exact or_iff_right hv
      · rw [Function.update_of_ne hhash]
  placed v t' hv := by
    by_cases hne : v = u
    · subst hne
      cases (Function.update_self v _ s.unit).symm.trans hv
      exact hplaced
    · exact h.placed v t' ((Function.update_of_ne hne _ _).symm.trans hv)
  entries i hi := by
    rcases h.entries i hi with hempty | ⟨v, t', hv, hentry, hepoch⟩
    · exact .inl hempty
    · have hne : v ≠ u := by
        rintro rfl
        rw [hfresh] at hv
        cases hv
      exact .inr ⟨v, t', (Function.update_of_ne hne _ _).trans hv, hentry, hepoch⟩

/-! ### Eviction -/

/-- Units are gone, and the entries are as before. -/
structure Pruned (s s' : CacheState) : Prop where
  unit : ∀ u t, s'.unit u = some t → s.unit u = some t
  cache : s'.cache = s.cache
  alloc : s'.alloc = s.alloc
  epoch : s'.epoch = s.epoch
  phase : s'.phase = s.phase

theorem Pruned.refl (s : CacheState) : Pruned s s := ⟨fun _ _ h ↦ h, rfl, rfl, rfl, rfl⟩

theorem Pruned.trans {s'' : CacheState} (h : Pruned s s') (h' : Pruned s' s'') : Pruned s s'' :=
  ⟨fun u t hu ↦ h.unit u t (h'.unit u t hu), h'.cache.trans h.cache, h'.alloc.trans h.alloc,
    h'.epoch.trans h.epoch, h'.phase.trans h.phase⟩

theorem Pruned.notCached (h : Pruned s s') (hspare : NotCached s u) : NotCached s' u := by
  intro t hu i hi
  rw [h.cache]
  exact hspare t (h.unit u t hu) i hi

theorem pruned_discard (s : CacheState) (u : UnitAddr) (t : TranslationUnit) :
    Pruned s (discardUnit s u t) := by
  refine ⟨fun v t' hv ↦ ?_, rfl, rfl, rfl, rfl⟩
  replace hv : Function.update s.unit u none v = some t' := hv
  by_cases hne : v = u
  · rw [hne, Function.update_self] at hv
    cases hv
  · rwa [Function.update_of_ne hne] at hv

/-- The eviction loop takes the units from the end of the list. -/
theorem Kept.evict (h : Kept s) {keep gone : List UnitAddr} (hlru : s.lru = keep ++ gone)
    (hspare : ∀ u ∈ gone, NotCached s u) :
    ∃ s', Ppc.evict gone.length s = some s' ∧ Kept s' ∧ Pruned s s' ∧ s'.lru = keep := by
  induction gone using List.reverseRecOn generalizing s with
  | nil => exact ⟨s, rfl, h, .refl s, hlru.trans (List.append_nil keep)⟩
  | append_singleton gone u ih =>
    have hlast : s.lru.getLast? = some u := by
      rw [hlru, ← List.append_assoc, List.getLast?_concat]
    have hmem : u ∈ s.lru := List.mem_of_getLast? hlast
    obtain ⟨t, hu⟩ := Option.isSome_iff_exists.mp ((h.mem_lru u).mp hmem)
    have hkept := h.discard hu (hspare u (List.mem_append_right _ (List.mem_singleton_self u)))
    have hpruned := pruned_discard s u t
    have hnotMem : u ∉ keep ++ gone := by
      have hnodup := h.lru_nodup
      rw [hlru, ← List.append_assoc] at hnodup
      exact fun hin ↦ (List.nodup_append.mp hnodup).2.2 u hin u (List.mem_singleton_self u) rfl
    have herase : (discardUnit s u t).lru = keep ++ gone := by
      show s.lru.erase u = _
      rw [hlru, ← List.append_assoc, List.erase_append_right _ hnotMem, List.erase_cons_head,
        List.append_nil]
    obtain ⟨s', hevict, hkept', hpruned', hlru'⟩ := ih hkept herase fun v hv ↦
      hpruned.notCached (hspare v (List.mem_append_left _ hv))
    refine ⟨s', ?_, hkept', hpruned.trans hpruned', hlru'⟩
    rw [List.length_append, List.length_singleton, Ppc.evict, hlast]
    simp only [Option.bind_eq_bind, Option.bind_some, hu, hevict]

theorem Kept.makeRoom (h : Kept s) {failures : ℕ} {keep gone : List UnitAddr}
    (hlru : s.lru = keep ++ gone) (hlength : gone.length = 8 * failures)
    (hspare : ∀ u ∈ gone, NotCached s u) :
    ∃ s', Ppc.makeRoom failures s = some s' ∧ Kept s' ∧ Pruned s s' := by
  induction failures generalizing s gone with
  | zero => exact ⟨s, rfl, h, .refl s⟩
  | succ failures ih =>
    have hsplit := List.take_append_drop (8 * failures) gone
    have hlast : (gone.drop (8 * failures)).length = 8 := by
      rw [List.length_drop, hlength]
      omega
    have hlru' : s.lru = (keep ++ gone.take (8 * failures)) ++ gone.drop (8 * failures) := by
      rw [List.append_assoc, hsplit, hlru]
    obtain ⟨s₁, hevict, hkept₁, hpruned₁, hlru₁⟩ := h.evict hlru' fun u hu ↦
      hspare u (List.mem_of_mem_drop hu)
    rw [hlast] at hevict
    have hreset : Kept { s₁ with lastPC := 0xffffffff } := hkept₁.congr rfl rfl rfl rfl rfl
    have hfirst : (gone.take (8 * failures)).length = 8 * failures := by
      rw [List.length_take, hlength]
      omega
    obtain ⟨s₂, hroom, hkept₂, hpruned₂⟩ := ih hreset hlru₁ hfirst fun u hu ↦
      hpruned₁.notCached (hspare u (List.mem_of_mem_take hu))
    refine ⟨s₂, ?_, hkept₂, hpruned₁.trans ⟨hpruned₂.1, hpruned₂.2, hpruned₂.3, hpruned₂.4, hpruned₂.5⟩⟩
    rw [Ppc.makeRoom, hevict]
    exact hroom

/-! ### Operations -/

theorem find_spec {test : TranslationUnit → Bool} (hfind : findUnit s pc test = some u) :
    ∃ t, s.unit u = some t ∧ test t = true := by
  have htest := List.find?_some hfind
  cases hu : s.unit u with
  | none =>
    rw [hu] at htest
    cases htest
  | some t =>
    rw [hu] at htest
    exact ⟨t, rfl, htest⟩

/-- A search that fails has no unit for it in the bucket. -/
theorem find_none (h : Kept s) {test : TranslationUnit → Bool} (hfind : findUnit s pc test = none)
    (hu : s.unit u = some t) (hpc : t.ptuPPCAddress = pc) : test t = false := by
  have hmem : u ∈ s.iCache (hashOf pc) := (h.mem_bucket _ u).mpr ⟨t, hu, congrArg hashOf hpc⟩
  have hall := List.find?_eq_none.mp hfind u hmem
  rw [hu] at hall
  exact Bool.eq_false_of_not_eq_true hall

theorem codeStart_inj (h : codeStart u = codeStart v) : u = v :=
  Nat.eq_of_mul_eq_mul_left (by decide : 0 < 64) (Nat.add_left_cancel (Nat.add_right_cancel h))

/-- A unit of an old epoch has no entry. -/
theorem Kept.notCached_old (h : Kept s) (hu : s.unit u = some t) (hold : t.ptuEpoch ≠ s.epoch) :
    NotCached s u := by
  intro t₁ ht₁ i hi hentry
  obtain rfl : t = t₁ := Option.some.inj (hu.symm.trans ht₁)
  rcases h.entries i hi with ⟨hempty, -⟩ | ⟨v, t', hv, hentry', hepoch⟩
  · rw [hentry] at hempty
    cases hempty
  · have harm : some t.ptuARMEntryPoint = some t'.ptuARMEntryPoint :=
      congrArg CacheEntry.arm (hentry.symm.trans hentry')
    obtain rfl : u = v := codeStart_inj ((h.placed u t hu).symm.trans
      ((Option.some.inj harm).trans (h.placed v t' hv)))
    obtain rfl : t = t' := Option.some.inj (hu.symm.trans hv)
    exact hold hepoch

/-- A unit of the current epoch can be entered. -/
theorem Kept.enter (h : Kept s) (hu : s.unit u = some t) (hepoch : t.ptuEpoch = s.epoch)
    (hfits : insertIndex s t.ptuPPCAddress < setCount * wayCount) :
    ∃ s', enterUnit s u = some s' ∧ Kept s' ∧ MissedOld s' := by
  obtain ⟨s₁, hinsert⟩ : ∃ s₁, insertBlock s t.ptuPPCAddress t.ptuARMEntryPoint = some s₁ :=
    ⟨_, if_pos hfits⟩
  have hkept := h.insert hu hepoch hinsert
  refine ⟨{ s₁ with lastPC := t.ptuPPCAddress, phase := .running }, ?_,
    hkept.congr rfl rfl rfl rfl rfl, fun pc hphase ↦ by cases hphase⟩
  simp only [enterUnit, hu, Option.bind_eq_bind, Option.bind_some, hinsert]

theorem notMissed_of_running (h : s.phase = .running) : MissedOld s := by
  intro pc hphase
  rw [h] at hphase
  cases hphase

theorem notMissed_of_absent (h : s.phase = .absent pc) : MissedOld s := by
  intro pc' hphase
  rw [h] at hphase
  cases hphase

theorem findBlock_phase (s : CacheState) (pc : Word) : (findBlock s pc).1.phase = s.phase := by
  unfold findBlock
  split <;> rfl

theorem Kept.look (h : Kept s) (hrunning : s.phase = .running) (hspares : Spares s (.look pc)) :
    ∃ s', cacheStep s (.look pc) = some s' ∧ Kept s' ∧ MissedOld s' := by
  have hkept := findBlock_kept h pc
  have hphase := (findBlock_phase s pc).trans hrunning
  replace hspares : (findBlock s pc).2 = none →
    insertIndex (findBlock s pc).1 pc < setCount * wayCount := hspares
  simp only [cacheStep, findUnitQuick]
  cases hcode : (findBlock s pc).2 with
  | some code =>
    exact ⟨_, rfl, hkept.congr rfl rfl rfl rfl rfl, notMissed_of_running hphase⟩
  | none =>
    have hfits := hspares hcode
    cases hfind : findUnit (findBlock s pc).1 pc
        fun t ↦ t.ptuEpoch = (findBlock s pc).1.epoch ∧ t.ptuPPCAddress = pc with
    | some u =>
      obtain ⟨t, hu, htest⟩ := find_spec hfind
      obtain ⟨hepoch, rfl⟩ := of_decide_eq_true htest
      obtain ⟨s₁, hinsert⟩ : ∃ s₁, insertBlock (findBlock s t.ptuPPCAddress).1 t.ptuPPCAddress
          t.ptuARMEntryPoint = some s₁ := ⟨_, if_pos hfits⟩
      have hkept₁ := hkept.insert hu hepoch hinsert
      have hphase₁ : s₁.phase = .running := by
        unfold insertBlock at hinsert
        rw [if_pos hfits] at hinsert
        cases hinsert
        exact hphase
      simp only [hu, Option.bind_eq_bind, Option.bind_some, hinsert, Option.map_some]
      exact ⟨_, rfl, hkept₁.congr rfl rfl rfl rfl rfl, notMissed_of_running hphase₁⟩
    | none =>
      refine ⟨_, rfl, hkept.congr rfl rfl rfl rfl rfl, ?_⟩
      intro pc' hmissed u t hu hpc hepoch
      cases hmissed
      have htest := find_none hkept hfind hu hpc
      exact of_decide_eq_false htest ⟨hepoch, hpc⟩

theorem Kept.verify {view : CodeView} (h : Kept s) (hmissed : MissedOld s)
    (hphase : s.phase = .missed pc) (hspares : Spares s (.verify view)) :
    ∃ s', cacheStep s (.verify view) = some s' ∧ Kept s' ∧ MissedOld s' := by
  have hfits := hspares pc hphase
  simp only [cacheStep, hphase]
  cases hfind : findUnit s pc fun t ↦ t.ptuPPCAddress = pc with
  | none => exact ⟨_, rfl, h.congr rfl rfl rfl rfl rfl, notMissed_of_absent rfl⟩
  | some u =>
    obtain ⟨t, hu, hpc⟩ := find_spec hfind
    obtain rfl : t.ptuPPCAddress = pc := of_decide_eq_true hpc
    have hold := hmissed _ hphase u t hu rfl
    simp only [ppcVerifyUnit, hu, Option.map_some, Option.bind_eq_bind, Option.bind_some]
    by_cases hvalid : unitValid t view = true
    · simp only [if_pos hvalid]
      exact (h.touch hu).enter (Function.update_self ..) rfl hfits
    · simp only [if_neg hvalid]
      exact ⟨_, rfl, (h.discard hu (h.notCached_old hu hold)).congr rfl rfl rfl rfl rfl,
        notMissed_of_absent rfl⟩

theorem Kept.get {failures : ℕ} {bounds : Word × Word} {view : CodeView} (h : Kept s)
    (hphase : s.phase = .absent pc) (hok : Admissible s (.create failures u bounds view))
    (hspares : Spares s (.create failures u bounds view)) :
    ∃ s', cacheStep s (.create failures u bounds view) = some s' ∧ Kept s' ∧ MissedOld s' := by
  obtain ⟨⟨hlength, hspare⟩, hfits⟩ := hspares
  have hgone : (evicted s failures).length = 8 * failures := by
    rw [evicted, List.length_drop]
    omega
  obtain ⟨s₁, hroom, hkept, hpruned⟩ :=
    h.makeRoom (List.take_append_drop _ s.lru).symm hgone hspare
  have hfresh := hok.fresh failures u bounds view s₁ rfl hroom
  have hplaced : (newUnit s₁ pc u bounds view).ptuARMEntryPoint = codeStart u := rfl
  have hcreate := hkept.create hfresh hplaced
  have hfits₁ : insertIndex s₁ pc < setCount * wayCount := by
    rw [insertIndex, hpruned.alloc]
    exact hfits pc hphase
  simp only [cacheStep, hphase, ppcGetTranslationUnit, hroom, Option.map_some, Option.bind_some]
  exact hcreate.enter (Function.update_self ..) rfl hfits₁

/-- Every operation that is admissible and spares the entries returns, and keeps the invariant. -/
theorem step_kept {op : CacheOp} (h : Kept s) (hmissed : MissedOld s) (hok : Admissible s op)
    (hspares : Spares s op) : ∃ s', cacheStep s op = some s' ∧ Kept s' ∧ MissedOld s' := by
  have hturn := hok.turn
  unfold enabled at hturn
  cases op with
  | look pc =>
    cases hphase : s.phase with
    | running => exact h.look hphase hspares
    | missed pc => simp [hphase] at hturn
    | absent pc => simp [hphase] at hturn
  | verify view =>
    cases hphase : s.phase with
    | running => simp [hphase] at hturn
    | missed pc => exact h.verify hmissed hphase hspares
    | absent pc => simp [hphase] at hturn
  | create failures u bounds view =>
    cases hphase : s.phase with
    | running => simp [hphase] at hturn
    | missed pc => simp [hphase] at hturn
    | absent pc => exact h.get hphase hok hspares
  | icbi =>
    cases hphase : s.phase with
    | running =>
      refine ⟨_, rfl, h.clear (BitVec.allOnes 64) (by decide) rfl rfl rfl rfl, ?_⟩
      exact notMissed_of_running hphase
    | missed pc => simp [hphase] at hturn
    | absent pc => simp [hphase] at hturn

theorem Kept.start (memory : CacheState) : Kept (mainLoopStart memory) where
  lru_nodup := List.nodup_nil
  bucket_nodup _ := List.nodup_nil
  mem_lru _ := by simp [mainLoopStart, invalidateAll, clearCache]
  mem_bucket _ _ := by simp [mainLoopStart, invalidateAll, clearCache]
  placed _ _ hu := by cases hu
  entries i hi := by
    refine .inl ?_
    show (if i < setCount * wayCount then _ else _ : CacheEntry).arm = none ∧
      (if i < setCount * wayCount then _ else _ : CacheEntry).ppc.setWidth 32 = _
    rw [if_pos hi]
    exact ⟨rfl, by decide⟩

/-- The look-up is live, and the operations that meet the condition return: in particular no unit is
taken from an empty list. -/
structure LookupSafe (s : CacheState) : Prop where
  live : CacheLive s
  returns : ∀ op, Admissible s op → Spares s op → (cacheStep s op).isSome

/-- In every run that evicts no unit with an entry, takes none from an empty list, and inserts no
entry past the array, the look-up is safe. -/
theorem cacheLive_run {memory : CacheState}
    (h : Lib.Reachable cacheStep (fun s op ↦ Admissible s op ∧ Spares s op) (mainLoopStart memory) s) :
    LookupSafe s := by
  have hinv : Kept s ∧ MissedOld s := by
    refine h.invariant (fun s ↦ Kept s ∧ MissedOld s)
      ⟨Kept.start memory, notMissed_of_running rfl⟩ ?_
    rintro s op s' ⟨hkept, hmissed⟩ ⟨hok, hspares⟩ hstep
    obtain ⟨s₁, hstep₁, hkept₁, hmissed₁⟩ := step_kept hkept hmissed hok hspares
    cases hstep.symm.trans hstep₁
    exact ⟨hkept₁, hmissed₁⟩
  obtain ⟨hkept, hmissed⟩ := hinv
  refine ⟨hkept.live, fun op hok hspares ↦ ?_⟩
  obtain ⟨s₁, hstep, -⟩ := step_kept hkept hmissed hok hspares
  rw [hstep]
  rfl

/-! ### Units that come and go -/

/-- A memory of zeros. -/
def zeroMemory : CacheState :=
  ⟨fun _ ↦ none, [], fun _ ↦ [], fun _ ↦ ⟨0, none⟩, fun _ ↦ 0, 0, 0, .running⟩

def zeroView : CodeView := ⟨fun _ ↦ 0, fun _ _ ↦ 0⟩

/-- A test for admissible operations. -/
def admits (s : CacheState) (op : CacheOp) : Bool :=
  enabled s op &&
    match op with
    | .create failures u _ _ => (makeRoom failures s).all fun s' ↦ (s'.unit u).isNone
    | _ => true

theorem admissible_of_admits {op : CacheOp} (h : admits s op = true) : Admissible s op := by
  obtain ⟨hturn, hfresh⟩ := Bool.and_eq_true_iff.mp h
  refine ⟨hturn, ?_⟩
  rintro failures u bounds view s' rfl hroom
  replace hfresh : ((makeRoom failures s).all fun s' ↦ (s'.unit u).isNone) = true := hfresh
  rw [hroom] at hfresh
  exact Option.isNone_iff_eq_none.mp hfresh

/-- A test for operations that free nothing and insert into the array. -/
def fits (s : CacheState) (op : CacheOp) : Bool :=
  match op, s.phase with
  | .look pc, _ => decide (insertIndex (findBlock s pc).1 pc < setCount * wayCount)
  | .verify _, .missed pc | .create 0 _ _ _, .absent pc =>
    decide (insertIndex s pc < setCount * wayCount)
  | .icbi, _ => true
  | _, _ => false

theorem spares_of_fits {op : CacheOp} (h : fits s op = true) : Spares s op := by
  cases op with
  | look pc => exact fun _ ↦ of_decide_eq_true h
  | verify view =>
    cases hphase : s.phase with
    | missed pc =>
      simp only [fits, hphase, decide_eq_true_eq] at h
      intro pc' hpc'
      cases hphase.symm.trans hpc'
      exact h
    | running => simp [fits, hphase] at h
    | absent pc => simp [fits, hphase] at h
  | create failures u bounds view =>
    cases hphase : s.phase with
    | absent pc =>
      cases failures with
      | zero =>
        simp only [fits, hphase, decide_eq_true_eq] at h
        refine ⟨⟨Nat.zero_le _, ?_⟩, ?_⟩
        · intro u hu
          simp [evicted] at hu
        · intro pc' hpc'
          cases hphase.symm.trans hpc'
          exact h
      | succ failures => simp [fits, hphase] at h
    | running => simp [fits, hphase] at h
    | missed pc => simp [fits, hphase] at h
  | icbi => trivial

/-- The unit for an address is created and found. -/
def createAt (pc : Word) (failures : ℕ) (u : UnitAddr) : List CacheOp :=
  [.look pc, .verify zeroView, .create failures u (pc, pc + 4) zeroView]

theorem cacheLive_run_created : ∃ s,
    Lib.Reachable cacheStep (fun s op ↦ Admissible s op ∧ Spares s op) (mainLoopStart zeroMemory) s ∧
      (findBlock s 0x1000).2 = some (codeStart 0) ∧ LookupSafe s := by
  obtain ⟨s, hrun, hfind⟩ : ∃ s, Lib.runOps cacheStep (fun s op ↦ admits s op && fits s op)
      (mainLoopStart zeroMemory) (createAt 0x1000 0 0) = some s ∧
      (findBlock s 0x1000).2 = some (codeStart 0) := ⟨_, rfl, by decide +kernel⟩
  have hreachable : Lib.Reachable cacheStep (fun s op ↦ Admissible s op ∧ Spares s op)
      (mainLoopStart zeroMemory) s := by
    refine .of_runOps (fun s op htest ↦ ?_) .refl hrun
    obtain ⟨hadmits, hfits⟩ := Bool.and_eq_true_iff.mp htest
    exact ⟨admissible_of_admits hadmits, spares_of_fits hfits⟩
  exact ⟨s, hreachable, hfind, cacheLive_run hreachable⟩

/-- Eight units are created, and freed for a ninth one. The entry of the first one is still
found. -/
def fillAndEvict : List CacheOp :=
  ((List.range 8).flatMap fun i ↦ createAt (BitVec.ofNat 32 (0x1000 + 4 * i)) 0 i) ++
    createAt 0x2000 1 8

theorem cacheLive_evicted : ¬ ∀ (memory s : CacheState),
    Lib.Reachable cacheStep Admissible (mainLoopStart memory) s → CacheLive s := by
  intro hall
  obtain ⟨s, hrun, hfind, hempty⟩ : ∃ s, Lib.runOps cacheStep admits
      (mainLoopStart zeroMemory) fillAndEvict = some s ∧
      (findBlock s 0x1000).2 = some (codeStart 0) ∧ s.iCache (hashOf 0x1000) = [] :=
    ⟨_, rfl, by decide +kernel, by decide +kernel⟩
  have hlive := hall zeroMemory s (.of_runOps (fun _ _ ↦ admissible_of_admits) .refl hrun)
  obtain ⟨u, t, hlinked, hpc, -⟩ := hlive.2 _ _ hfind
  have hmem := hlinked.bucket
  rw [hpc, hempty] at hmem
  exact List.not_mem_nil hmem

end Emu68.Ppc
