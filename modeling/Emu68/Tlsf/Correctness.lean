import Emu68.Tlsf.Runs

/-!
What the allocator promises in every reachable state: the heap is valid, no access leaves the tables,
memory is given out where nothing else is, and `tlsf_realloc` keeps the contents. The promises hold for
requests up to the largest one that `MAPPING_SEARCH` has a class for; beyond it the search leaves the
tables or wraps, and a new size that is rounded up to zero shrinks a block to nothing.
-/

set_option autoImplicit false
set_option relaxedAutoImplicit false

namespace Emu68.Tlsf

open Lib (Reachable)

variable {mem : ℕ → ℕ} {st : State} {areas : List Area}

/-! ### The invariant of the heap -/

/-- In runs of limited requests the heap is valid, and no operation stops. -/
theorem valid_of_reachable
    (h : Reachable step (fun st op ↦ Proper st op ∧ Limited op) (start mem) st) :
    (∃ areas, extents areas = st.regions ∧ Valid st.heap areas) ∧
      ∀ op, Proper st op → Limited op → ∃ st' p, call st op = .ok (st', p) := by
  obtain ⟨areas, hs⟩ := sound_of_reachable (h.mono fun _ _ hop ↦ ⟨hop.1, hop.2.fits⟩)
  refine ⟨⟨areas, hs.regions, hs.valid⟩, fun op hp hl ↦ ?_⟩
  obtain ⟨st', p, areas', hcall, -⟩ := hs.step hp hl.fits
  exact ⟨st', p, hcall⟩

theorem step_of_call {op : Op} {st' : State} {p : ℕ} (hcall : call st op = .ok (st', p)) :
    step st op = some st' := by
  rw [step, hcall]
  rfl

theorem proper_first : Proper (start mem) (.addMemory 4096 4096) :=
  ⟨rfl, by decide, by decide, fun r hr ↦ absurd hr List.not_mem_nil⟩

/-- The state with one area of 4096 bytes. -/
theorem exists_first : ∃ st₁, step (start fun _ ↦ 0) (.addMemory 4096 4096) = some st₁ := by
  obtain ⟨st₁, p, areas, hcall, -⟩ := (sound_start fun _ ↦ 0).addMemory proper_first
  exact ⟨st₁, step_of_call hcall⟩

theorem reachable_first {st₁ : State}
    (hst : step (start fun _ ↦ 0) (.addMemory 4096 4096) = some st₁) :
    Reachable step (fun st op ↦ Proper st op ∧ Fits st op) (start fun _ ↦ 0) st₁ :=
  .tail _ .refl ⟨proper_first, (show Limited (.addMemory 4096 4096) from trivial).fits⟩ hst

theorem eq_ok_of_toOption {α : Type} {x : Except Stop α} {v : α} (hx : x.toOption = some v) :
    x = .ok v := by
  cases x with
  | error e => cases hx
  | ok w => exact congrArg _ (Option.some.inj hx)

/-- What is computed of the state with one area. -/
theorem eq_of_first {α : Type} {st₁ : State} (f : State → α) (v : α)
    (hst : step (start fun _ ↦ 0) (.addMemory 4096 4096) = some st₁)
    (hrun : (step (start fun _ ↦ 0) (.addMemory 4096 4096)).map f = some v) : f st₁ = v := by
  rw [hst] at hrun
  exact Option.some.inj hrun

/-- With one area and a block of 100 bytes. -/
theorem valid_of_reachable_malloc : ∃ (st : State) (areas : List Area), st.live = [(4144, 100)] ∧
    extents areas = st.regions ∧ Valid st.heap areas := by
  obtain ⟨st₁, hst₁⟩ := exists_first
  have h₁ : Reachable step (fun st op ↦ Proper st op ∧ Limited op) (start fun _ ↦ 0) st₁ :=
    .tail _ .refl ⟨proper_first, trivial⟩ hst₁
  have hproper : Proper st₁ (.malloc 100) ∧ Limited (.malloc 100) :=
    ⟨show 100 < 2 ^ 64 by decide, show 100 ≤ 2 ^ 29 by decide⟩
  obtain ⟨st₂, p₂, hcall₂⟩ := (valid_of_reachable h₁).2 _ hproper.1 hproper.2
  obtain ⟨areas, hregions, hvalid⟩ :=
    (valid_of_reachable (h₁.tail _ hproper (step_of_call hcall₂))).1
  have hlive := eq_of_first (fun st ↦ (step st (.malloc 100)).map State.live) (some [(4144, 100)]) hst₁
    (by decide +kernel)
  rw [step_of_call hcall₂] at hlive
  exact ⟨st₂, areas, Option.some.inj hlive, hregions, hvalid⟩

/-! ### The indices -/

/-- The indices of an access to `slbitmap` and `matrix` are in range. -/
def InBounds (c : ℤ × ℤ) : Prop := 0 ≤ c.1 ∧ c.1 < 24 ∧ 0 ≤ c.2 ∧ c.2 < 32

theorem InRange.inBounds {c : ℕ × ℕ} (hc : InRange c) : InBounds ((c.1 : ℤ), (c.2 : ℤ)) := by
  obtain ⟨hfl, hsl⟩ := hc
  exact ⟨by omega, by omega, by omega, by omega⟩

/-- What is searched for is a multiple of 16. -/
theorem Searches.size_mod {op : Op} {r : ℕ} (hr : Searches st op r) : r % 16 = 0 := by
  cases op with
  | malloc size => exact hr.2 ▸ roundup_mod size
  | mallocAligned size align =>
    have hmod := roundup_mod size
    have halign := (effectiveAlign_spec align).2.1
    have heq := hr.2.2
    omega
  | realloc ptr size => exact hr.2.1 ▸ roundup_mod size
  | _ => exact hr.elim

/-- A request that nothing has room for is refused. -/
theorem Sound.refuses {op : Op} {r : ℕ} (hs : Sound st areas) (hp : Proper st op) (hf : Fits st op)
    (hr : Searches st op r) (hnone : ¬ HasRoom areas r) : call st op = .ok (st, 0) := by
  have hsize {size : ℕ} (hne : roundup size ≠ 0) : size ≠ 0 := by
    rintro rfl
    exact hne rfl
  have hmalloc {size : ℕ} (hp : Proper st (.malloc size)) (hr : Searches st (.malloc size) r)
      (hf : Fits st (.malloc size)) : call st (.malloc size) = .ok (st, 0) := by
    obtain ⟨st', p, areas', hcall, -, hgranted, hroom⟩ := hs.malloc hp hf
    have hzero : p = 0 := by
      by_contra hne
      exact hnone (hr.2 ▸ hroom hne)
    rw [hcall, hzero, hgranted.refused hzero (hsize hr.1)]
  cases op with
  | malloc size => exact hmalloc hp hr hf
  | mallocAligned size align =>
    obtain ⟨st', p, areas', hcall, -, hgranted, -, hroom⟩ := hs.mallocAligned hp hf
    have hzero : p = 0 := by
      by_contra hne
      exact hnone (hr.2.2 ▸ hroom hne)
    rw [hcall, hzero, hgranted.refused hzero (hsize hr.1)]
  | realloc ptr size =>
    rcases hp.1 with rfl | hptr
    · rw [hs.realloc_null]
      exact hmalloc hp.2 ⟨hr.1, hr.2.1⟩ ⟨fun r' hr' ↦ hf.searches r' ⟨hr'.1, hr'.2, .inl rfl⟩, trivial⟩
    · obtain ⟨⟨ptr, s⟩, he, rfl⟩ := List.mem_map.mp hptr
      obtain ⟨st', p, areas', hcall, -, hgranted, -, hroom, -⟩ := hs.realloc he hp hf
      have hplace := hr.2.2.resolve_left (hs.ptr_ne_zero he)
      have hzero : p = 0 := by
        by_contra hne
        exact hnone (hr.2.1 ▸ (hroom hne).resolve_left hplace)
      rw [hcall, hzero, hgranted.refused hzero (hsize hr.1)]
  | _ => exact hr.elim

/-- The indices that are computed in a reachable state are in range, no operation stops, and a request
that no free block has room for returns null. -/
theorem indices_inBounds
    (h : Reachable step (fun st op ↦ Proper st op ∧ Fits st op) (start mem) st) :
    ∃ areas, Valid st.heap areas ∧ (∀ q ∈ allBlocks areas, InBounds (mappingInsert q.size)) ∧
      ∀ op, Proper st op → Fits st op →
        (∀ r, Searches st op r → InBounds (mappingSearch r).2) ∧
        (∃ st' p, call st op = .ok (st', p)) ∧
        ∀ r, Searches st op r → (∀ q ∈ allBlocks areas, q.free = true → q.size < r) →
          call st op = .ok (st, 0) := by
  obtain ⟨areas, hs⟩ := sound_of_reachable h
  refine ⟨areas, hs.valid, fun q hq ↦ ?_, fun op hp hf ↦ ⟨fun r hr ↦ ?_, ?_, fun r hr hnone ↦ ?_⟩⟩
  · rw [mappingInsert_eq]
    exact (classOf_inRange (hs.valid.laid.size_lt hq)).inBounds
  · obtain ⟨r', hsearch, -, -, hlt, -⟩ := mappingSearch_spec hr.size_mod (hf.searches r hr)
    rw [hsearch]
    exact (classOf_inRange hlt).inBounds
  · obtain ⟨st', p, areas', hcall, -⟩ := hs.step hp hf
    exact ⟨st', p, hcall⟩
  · refine hs.refuses hp hf hr ?_
    rintro ⟨q, hq, hfree, hle⟩
    exact absurd (hnone q hq hfree) (Nat.not_lt.mpr hle)

/-- A request of 100 bytes, with one area. -/
theorem indices_inBounds_malloc : ∃ st : State, st.regions = [(4096, 8192)] ∧
    InBounds (mappingSearch 112).2 ∧ ∃ st' p, call st (.malloc 100) = .ok (st', p) := by
  obtain ⟨st₁, hst₁⟩ := exists_first
  have hregions := eq_of_first State.regions [(4096, 8192)] hst₁ (by decide +kernel)
  have hfits (st : State) : Fits st (.malloc 100) := Limited.fits (show 100 ≤ 2 ^ 29 by decide)
  obtain ⟨areas, -, -, hcalls⟩ := indices_inBounds (reachable_first hst₁)
  obtain ⟨hindices, hcall, -⟩ := hcalls (.malloc 100) (show 100 < 2 ^ 64 by decide) (hfits st₁)
  exact ⟨st₁, hregions, hindices 112 ⟨by decide, rfl⟩, hcall⟩

/-- A request of 1 GiB leaves the tables. -/
theorem not_indices_inBounds : ¬ ∀ mem st, Reachable step Proper (start mem) st → ∀ op, Proper st op →
    (∀ r, Searches st op r → InBounds (mappingSearch r).2) ∧ call st op ≠ .error .outOfBounds := by
  intro hall
  obtain ⟨st₁, hst₁⟩ := exists_first
  obtain ⟨hindices, -⟩ := hall _ st₁ (.tail _ .refl proper_first hst₁) (.malloc (2 ^ 30))
    (show 2 ^ 30 < 2 ^ 64 by decide)
  have hbounds := hindices (2 ^ 30) ⟨by decide, by decide⟩
  exact absurd hbounds.2.1 (by decide)

/-! ### The block that is taken -/

/-- The block taken for a request is the first of the first list at or above its class that is not
empty; null is returned only if no free block is as large as the class. -/
theorem malloc_goodFit {size : ℕ}
    (h : Reachable step (fun st op ↦ Proper st op ∧ Fits st op) (start mem) st) (hpos : 0 < size)
    (hle : size ≤ 2 ^ 29) :
    ∃ areas r' c, Valid st.heap areas ∧
      mappingSearch (roundup size) = (r', (((c : ℕ × ℕ).1 : ℤ), (c.2 : ℤ))) ∧ size ≤ r' ∧
      ((call st (.malloc size) = .ok (st, 0) ∧ ∀ q ∈ allBlocks areas, q.free = true → q.size < r') ∨
        ∃ st' q c', call st (.malloc size) = .ok (st', q.addr + 16) ∧ q ∈ allBlocks areas ∧
          q.free = true ∧ FirstList st.heap c c' ∧ st.heap.matrix c' = q.addr ∧ r' ≤ q.size) := by
  obtain ⟨areas, hs⟩ := sound_of_reachable h
  have hround := roundup_eq (x := size) (by omega)
  have hmod := roundup_mod size
  have hlimit : roundup size ≤ largestRequest := by
    rw [largestRequest]
    omega
  obtain ⟨r', hsearch, hr', -⟩ := mappingSearch_spec hmod hlimit
  obtain ⟨h', areas', p, hresult, houtcome⟩ :=
    tlsfInternMalloc_outcome hs.valid hmod (by omega) hlimit
  have hmalloc := tlsfMalloc_eq (by omega) hresult
  rw [hsearch] at houtcome
  refine ⟨areas, r', classOf r', hs.valid, hsearch, hround.1.trans hr', ?_⟩
  cases houtcome with
  | refused hnone =>
    refine .inl ⟨?_, hnone⟩
    simp only [call, hmalloc, bind, Except.bind]
    rfl
  | allotted h' areas' taken b c' hfirst htaken hroom hallotted =>
    have hne := hallotted.effect.valid.laid.addr_pos hallotted.inner.mem
    rw [if_neg hne, hallotted.addr] at hmalloc
    refine .inr ⟨⟨h', st.regions, record st.live (taken.addr + 16) size⟩, taken, c', ?_, hallotted.taken_mem, hallotted.taken_free,
      hfirst, htaken, hroom⟩
    simp only [call, hmalloc, bind, Except.bind]
    rfl

/-- A request of 100 bytes, with one area. -/
theorem malloc_goodFit_first : ∃ (st : State) (areas : List Area) (c : ℕ × ℕ),
    st.regions = [(4096, 8192)] ∧ Valid st.heap areas ∧ mappingSearch 112 = (112, ((c.1 : ℤ), (c.2 : ℤ))) := by
  obtain ⟨st₁, hst₁⟩ := exists_first
  have hregions := eq_of_first State.regions [(4096, 8192)] hst₁ (by decide +kernel)
  obtain ⟨areas, r', c, hvalid, hsearch, -⟩ := malloc_goodFit (reachable_first hst₁)
    (show 0 < 100 by decide) (by decide)
  have hcomputed : mappingSearch (roundup 100) = (112, 0, 28) := by decide
  have hr' : r' = 112 := congrArg Prod.fst (hsearch.symm.trans hcomputed)
  subst hr'
  exact ⟨st₁, areas, c, hregions, hvalid, hsearch⟩

/-- A request of no bytes returns null although there is a free block. -/
theorem not_malloc_goodFit : ¬ ∀ mem st size, Reachable step Proper (start mem) st → size ≤ 2 ^ 29 →
    ∀ areas, Valid st.heap areas → call st (.malloc size) = .ok (st, 0) →
      ∀ q ∈ allBlocks areas, q.free = true → q.size < (mappingSearch (roundup size)).1 := by
  intro hall
  obtain ⟨st₁, hst₁⟩ := exists_first
  have hfree := eq_of_first (fun st ↦ st.heap.freeSize) 4032 hst₁ (by decide +kernel)
  obtain ⟨areas, hs⟩ := sound_of_reachable (reachable_first hst₁)
  obtain ⟨chain, hlisted⟩ := hs.valid.listed
  have htotal := hlisted.total
  rw [hfree] at htotal
  cases hlist : listedBlocks (allBlocks areas) with
  | nil =>
    rw [hlist] at htotal
    exact absurd htotal (by decide)
  | cons e rest =>
    have hmem : (e.1, e.2) ∈ listedBlocks (allBlocks areas) := hlist ▸ List.mem_cons_self
    have hlt := hall _ st₁ 0 (.tail _ .refl proper_first hst₁) (Nat.zero_le _) areas hs.valid ?_ _
      (mem_listedBlocks.mp hmem).1 rfl
    · exact absurd hlt (Nat.not_lt_zero _)
    · simp only [call, tlsfMalloc_zero (show roundup 0 = 0 from rfl), bind, Except.bind]
      rfl

/-! ### Where memory is given out -/

/-- The pointer to be replaced, and the size asked for. -/
def Op.request : Op → Option (ℕ × ℕ)
  | .malloc size => some (0, size)
  | .mallocAligned size _ => some (0, size)
  | .realloc ptr size => some (ptr, size)
  | _ => none

/-- The alignment asked for, a power of two up to 2 MiB. -/
def Op.Aligned : Op → ℕ → Prop
  | .mallocAligned _ align, p => ∀ k ≤ 21, align = 2 ^ k → p % 2 ^ k = 0
  | _, _ => True

/-- The bytes from `p` on lie in one area, apart from the other live allocations and from all headers. -/
structure Placed (st : State) (p size : ℕ) : Prop where
  aligned : p % 16 = 0
  inside : ∃ r ∈ st.regions, r.1 ≤ p ∧ p + size ≤ r.2
  apart : ∀ e ∈ st.live, e.1 ≠ p → e.1 + e.2 ≤ p ∨ p + size ≤ e.1
  headers : ∃ areas, Valid st.heap areas ∧ extents areas = st.regions ∧
    ∀ q ∈ allBlocks areas, q.addr + 16 ≤ p ∨ p + size ≤ q.addr

theorem Sound.placed {p size : ℕ} (hs : Sound st areas) (he : (p, size) ∈ st.live) :
    Placed st p size := by
  obtain ⟨b, hb⟩ := hs.live _ he
  have hptr : p = b.addr + 16 := hb.ptr
  have hroom : size ≤ b.size := hb.room
  have hmod := hs.valid.laid.addr_mod hb.inner.mem
  obtain ⟨x, hx, hbx⟩ := List.mem_flatMap.mp hb.inner.mem
  have hwithin := (hs.valid.laid.tiled x hx).within hbx
  simp only [Block.stop] at hwithin
  refine ⟨by omega, ⟨(x.start, x.stop), ?_, ?_, ?_⟩, fun e he' hne ↦ ?_, areas, hs.valid, hs.regions,
    fun q hq ↦ ?_⟩
  · rw [← hs.regions]
    exact List.mem_map_of_mem hx
  · dsimp only
    omega
  · dsimp only
    omega
  · obtain ⟨q, hq⟩ := hs.live e he'
    have hqptr := hq.ptr
    have hqroom := hq.room
    have hseparate := hs.valid.laid.separate hq.inner.mem hb.inner.mem
    simp only [Block.stop] at hseparate
    rcases hseparate with rfl | hseparate <;> omega
  · have hseparate := hs.valid.laid.separate hq hb.inner.mem
    simp only [Block.stop] at hseparate
    rcases hseparate with rfl | hseparate <;> omega

/-- The alignment in use is a multiple of a power of two that is asked for. -/
theorem dvd_effectiveAlign {k : ℕ} (hk : k ≤ 21) : 2 ^ k ∣ effectiveAlign (2 ^ k) := by
  have hpow : 2 ^ k ≤ 2 ^ 21 := Nat.pow_le_pow_right Nat.two_pos hk
  have hle : 2 ^ k ≤ min (max (2 ^ k) 16) 0x200000 := le_min (le_max_left _ _) hpow
  have hne : min (max (2 ^ k) 16) 0x200000 ≠ 0 := by omega
  exact Nat.pow_dvd_pow 2 ((Nat.le_log2 hne).mpr hle)

/-- A request is answered with null or with memory that is placed well and aligned, and no other live
allocation changes. -/
theorem request_placed {op : Op} {old size : ℕ}
    (h : Reachable step (fun st op ↦ Proper st op ∧ Fits st op) (start mem) st) (hp : Proper st op)
    (hf : Fits st op) (hreq : op.request = some (old, size)) :
    ∃ st' p, call st op = .ok (st', p) ∧ (p ≠ 0 → Placed st' p size ∧ op.Aligned p) ∧
      ∀ e ∈ st.live, e.1 ≠ old →
        e ∈ st'.live ∧ ∀ z, e.1 ≤ z → z < e.1 + e.2 → st'.heap.mem z = st.heap.mem z := by
  obtain ⟨areas, hs⟩ := sound_of_reachable h
  cases op with
  | malloc s =>
    cases hreq
    obtain ⟨st', p, areas', hcall, hsound, hgranted, -⟩ := hs.malloc hp hf
    exact ⟨st', p, hcall, fun hne ↦ ⟨hsound.placed (hgranted.live hne), trivial⟩, hgranted.others⟩
  | mallocAligned s align =>
    cases hreq
    obtain ⟨st', p, areas', hcall, hsound, hgranted, hmod, -⟩ := hs.mallocAligned hp hf
    refine ⟨st', p, hcall, fun hne ↦ ⟨hsound.placed (hgranted.live hne), fun k hk halign ↦ ?_⟩,
      hgranted.others⟩
    rw [halign] at hmod
    exact Nat.mod_eq_zero_of_dvd ((dvd_effectiveAlign hk).trans (Nat.dvd_of_mod_eq_zero hmod))
  | realloc ptr s =>
    cases hreq
    rcases hp.1 with rfl | hptr
    · obtain ⟨st', p, areas', hcall, hsound, hgranted, -⟩ := hs.malloc (show Proper st (.malloc size) from hp.2)
        ⟨fun r hr ↦ hf.searches r ⟨hr.1, hr.2, .inl rfl⟩, trivial⟩
      rw [hs.realloc_null]
      exact ⟨st', p, hcall, fun hne ↦ ⟨hsound.placed (hgranted.live hne), trivial⟩, hgranted.others⟩
    · obtain ⟨⟨ptr, s⟩, he, rfl⟩ := List.mem_map.mp hptr
      obtain ⟨st', p, areas', hcall, hsound, hgranted, -⟩ := hs.realloc he hp hf
      exact ⟨st', p, hcall, fun hne ↦ ⟨hsound.placed (hgranted.live hne), trivial⟩, hgranted.others⟩
  | _ => cases hreq

/-- A request of 100 bytes, with one area. -/
theorem request_placed_malloc : ∃ (st st' : State) (p : ℕ), st.regions = [(4096, 8192)] ∧
    call st (.malloc 100) = .ok (st', p) ∧ (p ≠ 0 → Placed st' p 100) := by
  obtain ⟨st₁, hst₁⟩ := exists_first
  have hregions := eq_of_first State.regions [(4096, 8192)] hst₁ (by decide +kernel)
  obtain ⟨st', p, hcall, hplaced, -⟩ := request_placed (reachable_first hst₁)
    (show Proper st₁ (.malloc 100) from (by decide : 100 < 2 ^ 64)) (Limited.fits (show 100 ≤ 2 ^ 29 by decide)) rfl
  exact ⟨st₁, st', p, hregions, hcall, fun hne ↦ (hplaced hne).1⟩

/-- Just under the end of the address range rounding up to a class wraps, and a block is given out. -/
theorem not_request_placed : ¬ ∀ mem st op old size, Reachable step Proper (start mem) st → Proper st op →
    op.request = some (old, size) → ∀ st' p, call st op = .ok (st', p) → p ≠ 0 → Placed st' p size := by
  intro hall
  obtain ⟨st₁, hst₁⟩ := exists_first
  have hresult := eq_of_first (fun st ↦ (call st (.malloc (2 ^ 64 - 2 ^ 58 + 80))).toOption.map
    fun x ↦ (x.1.regions, x.2)) (some ([(4096, 8192)], 4144)) hst₁ (by decide +kernel)
  cases hcall : call st₁ (.malloc (2 ^ 64 - 2 ^ 58 + 80)) with
  | error e =>
    rw [hcall] at hresult
    cases hresult
  | ok x =>
    rw [hcall] at hresult
    obtain ⟨st₂, p⟩ := x
    have hpair := Option.some.inj hresult
    have hregions : st₂.regions = [(4096, 8192)] := congrArg Prod.fst hpair
    have hptr : p = 4144 := congrArg Prod.snd hpair
    have hplaced := hall _ st₁ (.malloc (2 ^ 64 - 2 ^ 58 + 80)) _ _ (.tail _ .refl proper_first hst₁)
      (show 2 ^ 64 - 2 ^ 58 + 80 < 2 ^ 64 by decide) rfl st₂ p hcall (by omega)
    obtain ⟨r, hr, -, hle⟩ := hplaced.inside
    rw [hregions, List.mem_singleton] at hr
    subst hr
    dsimp only at hle
    omega

/-! ### Reallocation -/

/-- The block at `p` has at least `n` bytes. -/
def HasBytes (h : Heap) (p n : ℕ) : Prop := ∃ s, getSize h (memToBhdr p) = .ok s ∧ n ≤ s

theorem Sound.hasBytes {p size : ℕ} (hs : Sound st areas) (he : (p, size) ∈ st.live) :
    HasBytes st.heap p size := by
  obtain ⟨b, hb⟩ := hs.live _ he
  have hptr : p = b.addr + 16 := hb.ptr
  obtain ⟨f, hheader⟩ := hs.valid.header hb.inner
  have hhdr : memToBhdr p = b.addr := by
    rw [hptr]
    exact Nat.add_sub_cancel ..
  refine ⟨b.size, ?_, hb.room⟩
  rw [hhdr]
  exact hheader.getSize

/-- The outcomes of a reallocation of a block of `s` bytes: the memory is freed if no bytes are asked
for; otherwise the contents are at the new pointer, or all is as it was. -/
inductive Reallocated (st : State) (ptr s size : ℕ) : State → ℕ → Prop
  | freed (st' : State) (hzero : size = 0) : Reallocated st ptr s size st' 0
  | refused (hne : size ≠ 0) : Reallocated st ptr s size st 0
  | moved (st' : State) (p : ℕ) (hne : p ≠ 0) (hlive : (p, size) ∈ st'.live)
      (hbytes : HasBytes st'.heap p size)
      (hcontents : ∀ k < min s size, st'.heap.mem (p + k) = st.heap.mem (ptr + k)) :
      Reallocated st ptr s size st' p

theorem realloc_reallocated {ptr n size : ℕ}
    (h : Reachable step (fun st op ↦ Proper st op ∧ Fits st op) (start mem) st)
    (he : (ptr, n) ∈ st.live) (hsize : size < 2 ^ 64) (hf : Fits st (.realloc ptr size)) :
    ∃ s st' p, getSize st.heap (memToBhdr ptr) = .ok s ∧ n ≤ s ∧
      call st (.realloc ptr size) = .ok (st', p) ∧ Reallocated st ptr s size st' p := by
  obtain ⟨areas, hs⟩ := sound_of_reachable h
  have hp : Proper st (.realloc ptr size) := ⟨.inr (List.mem_map.mpr ⟨_, he, rfl⟩), hsize⟩
  obtain ⟨st', p, areas', hcall, hsound, hgranted, hzero, -, b, hb, hcontents⟩ := hs.realloc he hp hf
  have hptr : ptr = b.addr + 16 := hb.ptr
  have hhdr : memToBhdr ptr = b.addr := by
    rw [hptr]
    exact Nat.add_sub_cancel ..
  obtain ⟨f, hheader⟩ := hs.valid.header hb.inner
  refine ⟨b.size, st', p, hhdr ▸ hheader.getSize, hb.room, hcall, ?_⟩
  by_cases hnull : p = 0
  · subst hnull
    by_cases hnone : size = 0
    · exact .freed st' hnone
    · rw [hgranted.refused rfl hnone]
      exact .refused hnone
  · exact .moved st' p hnull (hgranted.live hnull) (hsound.hasBytes (hgranted.live hnull)) (hcontents hnull)

/-- A block of 100 bytes, with 2000 bytes asked for. -/
theorem realloc_reallocated_grown : ∃ (st st' : State) (s p : ℕ), st.live = [(4144, 100)] ∧
    call st (.realloc 4144 2000) = .ok (st', p) ∧ Reallocated st 4144 s 2000 st' p := by
  obtain ⟨st₁, hst₁⟩ := exists_first
  have h₁ : Reachable step (fun st op ↦ Proper st op ∧ Fits st op) (start fun _ ↦ 0) st₁ :=
    reachable_first hst₁
  have hlive := eq_of_first (fun st ↦ (step st (.malloc 100)).map State.live) (some [(4144, 100)]) hst₁
    (by decide +kernel)
  obtain ⟨st₂, hst₂, hlive₂⟩ := Option.map_eq_some_iff.mp hlive
  have hproper : Proper st₁ (.malloc 100) := show 100 < 2 ^ 64 by decide
  have h₂ := h₁.tail _ ⟨hproper, Limited.fits (show 100 ≤ 2 ^ 29 by decide)⟩ hst₂
  have hmem : (4144, 100) ∈ st₂.live := by
    rw [hlive₂]
    exact List.mem_cons_self
  obtain ⟨s, st', p, -, -, hcall, hreallocated⟩ := realloc_reallocated h₂ hmem
    (show 2000 < 2 ^ 64 by decide) (Limited.fits (show 2000 ≤ 2 ^ 29 by decide))
  exact ⟨st₂, st', s, p, hlive₂, hcall, hreallocated⟩

/-- A size just under the end of the address range is rounded up to zero, and the block shrinks. -/
theorem not_realloc_reallocated : ¬ ∀ mem st ptr n size s st' p, Reachable step Proper (start mem) st →
    (ptr, n) ∈ st.live → size < 2 ^ 64 → getSize st.heap (memToBhdr ptr) = .ok s →
      call st (.realloc ptr size) = .ok (st', p) → Reallocated st ptr s size st' p := by
  intro hall
  obtain ⟨st₁, hst₁⟩ := exists_first
  have hlive := eq_of_first (fun st ↦ (step st (.malloc 100)).map State.live) (some [(4144, 100)]) hst₁
    (by decide +kernel)
  obtain ⟨st₂, hst₂, hlive₂⟩ := Option.map_eq_some_iff.mp hlive
  have hsize := eq_of_first (fun st ↦ (step st (.malloc 100)).bind fun st ↦
    (getSize st.heap 4128).toOption) (some 112) hst₁ (by decide +kernel)
  have hresult := eq_of_first (fun st ↦ (step st (.malloc 100)).bind fun st ↦
    (call st (.realloc 4144 (2 ^ 64 - 8))).toOption.map fun x ↦
      ((getSize x.1.heap 4128).toOption, x.2)) (some (some 0, 4144)) hst₁ (by decide +kernel)
  rw [hst₂] at hsize hresult
  obtain ⟨⟨st₃, p⟩, hcall, hpair⟩ := Option.map_eq_some_iff.mp hresult
  have hproper : Proper st₁ (.malloc 100) := show 100 < 2 ^ 64 by decide
  have hrun : Reachable step Proper (start fun _ ↦ 0) st₂ :=
    (Reachable.tail _ .refl proper_first hst₁).tail _ hproper hst₂
  have hmem : (4144, 100) ∈ st₂.live := by
    rw [hlive₂]
    exact List.mem_cons_self
  have hptr : p = 4144 := congrArg Prod.snd hpair
  have hshrunk : getSize st₃.heap 4128 = .ok 0 := eq_ok_of_toOption (congrArg Prod.fst hpair)
  have houtcome := hall _ st₂ 4144 100 (2 ^ 64 - 8) 112 st₃ p hrun hmem (by decide)
    (eq_ok_of_toOption hsize) (eq_ok_of_toOption hcall)
  subst hptr
  cases houtcome with
  | moved st₃ p hne hmem hbytes hcontents =>
    obtain ⟨s, hs, hle⟩ := hbytes
    have hzero : getSize st₃.heap (memToBhdr 4144) = .ok 0 := hshrunk
    rw [hzero] at hs
    cases hs
    exact absurd hle (by decide)

end Emu68.Tlsf
