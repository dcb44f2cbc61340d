import Emu68.Lib.Transition
import Emu68.Tlsf.Calls

/-!
Runs of the allocator. The state is the heap, the memory given to it, and the pointers that have been
returned and not freed, each with the size asked for. Between calls the contents of these allocations
are written. What the calls keep is `Sound`: the heap is valid, and each live pointer is the one of a
busy block with room for its size.
-/

set_option autoImplicit false
set_option relaxedAutoImplicit false

namespace Emu68.Tlsf

open Lib (Reachable)

structure State where
  heap : Heap
  regions : List (ℕ × ℕ)
  live : List (ℕ × ℕ)

inductive Op
  | addMemory (memory size : ℕ)
  | malloc (size : ℕ)
  | mallocAligned (size align : ℕ)
  | realloc (ptr size : ℕ)
  | free (ptr : ℕ)
  | store (address value : ℕ)

def start (mem : ℕ → ℕ) : State := ⟨tlsfInit mem, [], []⟩

def forget (live : List (ℕ × ℕ)) (ptr : ℕ) : List (ℕ × ℕ) := live.filter fun e ↦ e.1 ≠ ptr

def record (live : List (ℕ × ℕ)) (ptr size : ℕ) : List (ℕ × ℕ) :=
  if ptr = 0 then live else (ptr, size) :: live

/-- The state after an operation, and the pointer that a call returns. -/
def call (st : State) : Op → Except Stop (State × ℕ)
  | .addMemory memory size => do
    let h ← tlsfAddMemory st.heap memory size
    let regions := if memory = 0 ∨ size ≤ 64 then st.regions
      else (memory, memory + rounddown size) :: st.regions
    return ({ st with heap := h, regions := regions }, 0)
  | .malloc size => do
    let (h, p) ← tlsfMalloc st.heap size
    return ({ st with heap := h, live := record st.live p size }, p)
  | .mallocAligned size align => do
    let (h, p) ← tlsfMallocAligned st.heap size align
    return ({ st with heap := h, live := record st.live p size }, p)
  | .realloc ptr size => do
    let (h, p) ← tlsfRealloc st.heap ptr size
    let live := if p = 0 ∧ size ≠ 0 then st.live else record (forget st.live ptr) p size
    return ({ st with heap := h, live := live }, p)
  | .free ptr => do
    let h ← tlsfFree st.heap ptr
    return ({ st with heap := h, live := forget st.live ptr }, 0)
  | .store address value => .ok ({ st with heap := st.heap.write address value }, 0)

def step (st : State) (op : Op) : Option State := (call st op).toOption.map Prod.fst

/-- What callers keep to: areas are below 1 GiB and lie apart, pointers are live ones or null, and only
live allocations are written. -/
def Proper (st : State) : Op → Prop
  | .addMemory memory size => memory % 16 = 0 ∧ size < 2 ^ 30 ∧ memory + size ≤ 2 ^ 64 ∧
      ∀ r ∈ st.regions, r.2 ≤ memory ∨ memory + size ≤ r.1
  | .malloc size => size < 2 ^ 64
  | .mallocAligned size align => size < 2 ^ 64 ∧ align < 2 ^ 64
  | .realloc ptr size => (ptr = 0 ∨ ptr ∈ st.live.map Prod.fst) ∧ size < 2 ^ 64
  | .free ptr => ptr = 0 ∨ ptr ∈ st.live.map Prod.fst
  | .store address _ => ∃ e ∈ st.live, e.1 ≤ address ∧ address < e.1 + e.2

/-- The request that an operation looks for a block with. -/
def Searches (st : State) : Op → ℕ → Prop
  | .malloc size, r => roundup size ≠ 0 ∧ r = roundup size
  | .mallocAligned size align, r => roundup size ≠ 0 ∧ ¬ 2 ^ 64 - 1 - effectiveAlign align < roundup size ∧
      r = roundup size + effectiveAlign align
  | .realloc ptr size, r => roundup size ≠ 0 ∧ r = roundup size ∧
      (ptr = 0 ∨ ¬ ServedInPlace st.heap (memToBhdr ptr) (roundup size))
  | _, _ => False

/-- Rounding up the new size of a block does not wrap. -/
def NoWrap : Op → Prop
  | .realloc ptr size => ptr = 0 ∨ size ≤ 2 ^ 64 - 16
  | _ => True

/-- The search is for at most the largest request, and rounding does not wrap. -/
structure Fits (st : State) (op : Op) : Prop where
  searches : ∀ r, Searches st op r → r ≤ largestRequest
  noWrap : NoWrap op

/-- The size plus the alignment is at most 512 MiB. -/
def Limited : Op → Prop
  | .malloc size => size ≤ 2 ^ 29
  | .mallocAligned size align => size + align ≤ 2 ^ 29
  | .realloc _ size => size ≤ 2 ^ 29
  | _ => True

theorem Limited.fits {st : State} {op : Op} (hl : Limited op) : Fits st op := by
  have hround {x : ℕ} (hx : x ≤ 2 ^ 29) : roundup x ≤ 2 ^ 29 := by
    have hlt := (roundup_eq (x := x) (by omega)).2
    have hmod := roundup_mod x
    omega
  constructor
  · intro r hr
    rw [largestRequest]
    cases op with
    | malloc size =>
      have hle := hround hl
      have heq := hr.2
      omega
    | mallocAligned size align =>
      have hsum : size + align ≤ 2 ^ 29 := hl
      have hlt := (roundup_eq (x := size) (by omega)).2
      have halign := (effectiveAlign_spec align).2.2.1
      have heq := hr.2.2
      omega
    | realloc ptr size =>
      have hle := hround hl
      have heq := hr.2.1
      omega
    | _ => exact hr.elim
  · cases op with
    | realloc ptr size =>
      have hle : size ≤ 2 ^ 29 := hl
      exact .inr (by omega)
    | _ => trivial

/-! ### The invariant -/

def extents (areas : List Area) : List (ℕ × ℕ) := areas.map fun x ↦ (x.start, x.stop)

/-- The block `b` holds the live allocation `e`. -/
structure Holds (areas : List Area) (e : ℕ × ℕ) (b : Block) : Prop where
  inner : Inner areas b
  busy : b.free = false
  ptr : e.1 = b.addr + 16
  room : e.2 ≤ b.size
  pos : 0 < b.size

structure Sound (st : State) (areas : List Area) : Prop where
  valid : Valid st.heap areas
  regions : extents areas = st.regions
  live : ∀ e ∈ st.live, ∃ b, Holds areas e b
  distinct : (st.live.map Prod.fst).Nodup

variable {st : State} {areas areas' : List Area} {h' : Heap} {gone : List Block}
  {live : List (ℕ × ℕ)} {b : Block}

theorem sound_start (mem : ℕ → ℕ) : Sound (start mem) [] := by
  have hlisted : Listed (tlsfInit mem) (fun _ ↦ []) [] := by
    refine ⟨fun c _ ↦ .nil, fun _ _ ↦ rfl, fun _ _ x ↦ ⟨fun hx ↦ absurd hx List.not_mem_nil, ?_⟩,
      fun c _ ↦ ?_, fun fl ↦ ?_, List.nodup_nil, fun e he ↦ absurd he List.not_mem_nil, rfl⟩
    · rintro ⟨s, hs, -⟩
      exact absurd hs List.not_mem_nil
    · simp [tlsfInit]
    · simp [tlsfInit]
  have hvalid : Valid (tlsfInit mem) [] :=
    ⟨⟨fun x hx ↦ absurd hx List.not_mem_nil, List.Pairwise.nil⟩, _, hlisted⟩
  exact ⟨hvalid, rfl, fun e he ↦ absurd he List.not_mem_nil, List.nodup_nil⟩

/-- The live allocations of other blocks than `gone` stay. -/
theorem Sound.effect (hs : Sound st areas) (he : Effect st.heap h' areas areas' gone)
    (hsub : live.Sublist st.live) (hgone : ∀ e ∈ live, ∀ b ∈ gone, e.1 ≠ b.addr + 16) :
    Sound ⟨h', st.regions, live⟩ areas' ∧
      ∀ e ∈ live, ∀ z, e.1 ≤ z → z < e.1 + e.2 → h'.mem z = st.heap.mem z := by
  have hnot {e : ℕ × ℕ} (he : e ∈ live) {b : Block} (hb : Holds areas e b) : b ∉ gone :=
    fun hmem ↦ hgone e he b hmem hb.ptr
  refine ⟨⟨he.valid, he.extents.trans hs.regions, fun e hmem ↦ ?_, hs.distinct.sublist (hsub.map _)⟩,
    fun e hmem z hz hz' ↦ ?_⟩
  · obtain ⟨b, hb⟩ := hs.live e (hsub.subset hmem)
    exact ⟨b, he.kept b hb.inner hb.busy (hnot hmem hb), hb.busy, hb.ptr, hb.room, hb.pos⟩
  · obtain ⟨b, hb⟩ := hs.live e (hsub.subset hmem)
    have hptr := hb.ptr
    have hroom := hb.room
    exact he.contents b hb.inner hb.busy (hnot hmem hb) z (by omega)
      (by simp only [Block.stop]; omega)

/-- A new block becomes a live allocation. -/
theorem Sound.served {n size : ℕ} (hs : Sound st areas)
    (ha : Served st.heap h' areas areas' gone b n) (hsub : live.Sublist st.live)
    (hgone : ∀ e ∈ live, ∀ b ∈ gone, e.1 ≠ b.addr + 16) (hle : size ≤ n) :
    Sound ⟨h', st.regions, (b.addr + 16, size) :: live⟩ areas' := by
  obtain ⟨hsound, -⟩ := hs.effect ha.effect hsub hgone
  refine ⟨hsound.valid, hsound.regions, fun e he ↦ ?_, List.nodup_cons.mpr ⟨fun hmem ↦ ?_, hsound.distinct⟩⟩
  · rcases List.mem_cons.mp he with rfl | he
    · exact ⟨b, ha.inner, ha.busy, rfl, hle.trans ha.room, ha.pos⟩
    · exact hsound.live e he
  · obtain ⟨e, he, heq⟩ := List.mem_map.mp hmem
    obtain ⟨q, hq⟩ := hs.live e (hsub.subset he)
    have hptr := hq.ptr
    have hnot : q ∉ gone := fun hmem ↦ hgone e he q hmem hptr
    refine ha.fresh q hq.inner hq.busy hnot ?_
    dsimp only at heq
    omega

/-! ### Requests -/

/-- What a request for `size` bytes did, with `old` as the pointer to be replaced: it was refused, and
everything is as it was, or there is a new live pointer; the other allocations keep their contents. -/
structure Granted (st st' : State) (old size p : ℕ) : Prop where
  refused : p = 0 → size ≠ 0 → st' = st
  live : p ≠ 0 → (p, size) ∈ st'.live
  others : ∀ e ∈ st.live, e.1 ≠ old →
    e ∈ st'.live ∧ ∀ z, e.1 ≤ z → z < e.1 + e.2 → st'.heap.mem z = st.heap.mem z

theorem Sound.ptr_ne_zero (hs : Sound st areas) {e : ℕ × ℕ} (he : e ∈ st.live) : e.1 ≠ 0 := by
  obtain ⟨b, hb⟩ := hs.live e he
  rw [hb.ptr]
  exact Nat.succ_ne_zero _

/-- A request that replaces no pointer. -/
theorem Sound.answer {n size p : ℕ} (hs : Sound st areas) (ha : Answer st.heap areas [] n h' p)
    (hle : p ≠ 0 → size ≤ n) : ∃ areas', Sound ⟨h', st.regions, record st.live p size⟩ areas' ∧
      Granted st ⟨h', st.regions, record st.live p size⟩ 0 size p := by
  cases ha with
  | refused =>
    exact ⟨areas, hs, fun _ _ ↦ rfl, fun hne ↦ absurd rfl hne, fun e he _ ↦ ⟨he, fun _ _ _ ↦ rfl⟩⟩
  | served h' areas' b hserved =>
    have hnone : ∀ e ∈ st.live, ∀ b ∈ ([] : List Block), e.1 ≠ b.addr + 16 :=
      fun _ _ _ hb ↦ absurd hb List.not_mem_nil
    have hrecord : record st.live (b.addr + 16) size = (b.addr + 16, size) :: st.live :=
      if_neg (Nat.succ_ne_zero _)
    rw [hrecord]
    obtain ⟨-, hcontents⟩ := hs.effect hserved.effect (List.Sublist.refl _) hnone
    exact ⟨areas', hs.served hserved (List.Sublist.refl _) hnone (hle (Nat.succ_ne_zero _)), fun hzero ↦ absurd hzero
      (Nat.succ_ne_zero _), fun _ ↦ List.mem_cons_self, fun e he _ ↦
      ⟨List.mem_cons_of_mem _ he, hcontents e he⟩⟩

theorem Sound.malloc {size : ℕ} (hs : Sound st areas) (hp : Proper st (.malloc size))
    (hf : Fits st (.malloc size)) :
    ∃ st' p areas', call st (.malloc size) = .ok (st', p) ∧ Sound st' areas' ∧ Granted st st' 0 size p ∧
      (p ≠ 0 → HasRoom areas (roundup size)) := by
  have hlimit : roundup size ≤ largestRequest := by
    by_cases hzero : roundup size = 0
    · rw [hzero]
      exact Nat.zero_le _
    · exact hf.searches _ ⟨hzero, rfl⟩
  obtain ⟨h', p, hresult, hanswer, hasRoom⟩ := tlsfMalloc_answer hs.valid hlimit
  have hle (hne : p ≠ 0) : size ≤ roundup size := by
    refine (roundup_zero_or hp).resolve_left fun hzero ↦ hne ?_
    rw [tlsfMalloc_zero hzero] at hresult
    cases hresult
    rfl
  obtain ⟨areas', hsound, hgranted⟩ := hs.answer hanswer hle
  refine ⟨_, p, areas', ?_, hsound, hgranted, hasRoom⟩
  simp only [call, hresult, bind, Except.bind]
  rfl

theorem Sound.mallocAligned {size align : ℕ} (hs : Sound st areas) (hp : Proper st (.mallocAligned size align))
    (hf : Fits st (.mallocAligned size align)) :
    ∃ st' p areas', call st (.mallocAligned size align) = .ok (st', p) ∧ Sound st' areas' ∧
      Granted st st' 0 size p ∧ p % effectiveAlign align = 0 ∧
      (p ≠ 0 → HasRoom areas (roundup size + effectiveAlign align)) := by
  have hlimit : roundup size = 0 ∨ 2 ^ 64 - 1 - effectiveAlign align < roundup size ∨
      roundup size + effectiveAlign align ≤ largestRequest := by
    by_cases hzero : roundup size = 0
    · exact .inl hzero
    · by_cases hlarge : 2 ^ 64 - 1 - effectiveAlign align < roundup size
      · exact .inr (.inl hlarge)
      · exact .inr (.inr (hf.searches _ ⟨hzero, hlarge, rfl⟩))
  obtain ⟨h', p, hresult, hanswer, halign, hasRoom⟩ := tlsfMallocAligned_answer hs.valid hlimit
  have hle (hne : p ≠ 0) : size ≤ roundup size := by
    refine (roundup_zero_or hp.1).resolve_left fun hzero ↦ hne ?_
    rw [tlsfMallocAligned_refused (.inl hzero)] at hresult
    cases hresult
    rfl
  obtain ⟨areas', hsound, hgranted⟩ := hs.answer hanswer hle
  refine ⟨_, p, areas', ?_, hsound, hgranted, halign, hasRoom⟩
  simp only [call, hresult, bind, Except.bind]
  rfl

/-! ### Replacing and freeing -/

theorem forget_of_forall {ptr : ℕ} (hne : ∀ e ∈ live, e.1 ≠ ptr) : forget live ptr = live :=
  List.filter_eq_self.mpr fun e he ↦ decide_eq_true (hne e he)

theorem mem_forget {ptr : ℕ} {e : ℕ × ℕ} : e ∈ forget live ptr ↔ e ∈ live ∧ e.1 ≠ ptr := by
  rw [forget, List.mem_filter, decide_eq_true_eq]

theorem forget_gone (live : List (ℕ × ℕ)) (b : Block) :
    ∀ e ∈ forget live (b.addr + 16), ∀ q ∈ [b], e.1 ≠ q.addr + 16 := by
  intro e he q hq
  rw [List.mem_singleton.mp hq]
  exact (mem_forget.mp he).2

theorem tlsfRealloc_null (h : Heap) (size : ℕ) : tlsfRealloc h 0 size = tlsfMalloc h size := if_pos rfl

theorem tlsfRealloc_zero {ptr : ℕ} (h : Heap) (hne : ptr ≠ 0) :
    tlsfRealloc h ptr 0 = (tlsfFree h ptr).map (·, 0) := by
  rw [tlsfRealloc, if_neg hne, if_pos rfl]

/-- Reallocation of a live pointer. -/
theorem Sound.realloc {ptr s size : ℕ} (hs : Sound st areas) (he : (ptr, s) ∈ st.live)
    (hp : Proper st (.realloc ptr size)) (hf : Fits st (.realloc ptr size)) :
    ∃ st' p areas', call st (.realloc ptr size) = .ok (st', p) ∧ Sound st' areas' ∧
      Granted st st' ptr size p ∧ (size = 0 → p = 0) ∧
      (p ≠ 0 → ServedInPlace st.heap (memToBhdr ptr) (roundup size) ∨ HasRoom areas (roundup size)) ∧
      ∃ b, Holds areas (ptr, s) b ∧
        (p ≠ 0 → ∀ k < min b.size size, st'.heap.mem (p + k) = st.heap.mem (ptr + k)) := by
  obtain ⟨b, hb⟩ := hs.live _ he
  have hptr : ptr = b.addr + 16 := hb.ptr
  subst hptr
  have hsub : (forget st.live (b.addr + 16)).Sublist st.live := List.filter_sublist
  by_cases hzero : size = 0
  · subst hzero
    obtain ⟨h', areas', hfree, heffect⟩ := tlsfFree_effect hs.valid hb.inner hb.busy
    obtain ⟨hsound, hcontents⟩ := hs.effect heffect hsub (forget_gone st.live b)
    have hresult : tlsfRealloc st.heap (b.addr + 16) 0 = .ok (h', 0) := by
      rw [tlsfRealloc_zero _ (Nat.succ_ne_zero _), hfree]
      rfl
    refine ⟨_, 0, areas', ?_, hsound, ⟨fun _ hne ↦ absurd rfl hne, fun hne ↦ absurd rfl hne,
      fun e he' hne ↦ ⟨mem_forget.mpr ⟨he', hne⟩, hcontents e (mem_forget.mpr ⟨he', hne⟩)⟩⟩, fun _ ↦ rfl,
      fun hne ↦ absurd rfl hne, b, hb, fun hne ↦ absurd rfl hne⟩
    simp only [call, hresult, bind, Except.bind]
    rfl
  · have hle : size ≤ 2 ^ 64 - 16 := hf.noWrap.resolve_left (Nat.succ_ne_zero _)
    have hhdr : memToBhdr (b.addr + 16) = b.addr := Nat.add_sub_cancel ..
    have hround := (roundup_eq hle).1
    have hfits : ServedInPlace st.heap b.addr (roundup size) ∨ roundup size ≤ largestRequest := by
      by_cases hplace : ServedInPlace st.heap b.addr (roundup size)
      · exact .inl hplace
      · refine .inr (hf.searches _ ⟨by omega, rfl, .inr ?_⟩)
        rw [hhdr]
        exact hplace
    obtain ⟨h', p, hresult, hanswer, hcarried, hroom⟩ :=
      tlsfRealloc_answer hs.valid hb.inner hb.busy hb.pos hzero hle hfits
    rw [hhdr]
    have hcontents (hne : p ≠ 0) : ∀ k < min b.size size, h'.mem (p + k) =
        st.heap.mem (b.addr + 16 + k) := fun k hk ↦ hcarried hne k (by omega)
    cases hanswer with
    | refused =>
      refine ⟨st, 0, areas, ?_, hs, ⟨fun _ _ ↦ rfl, fun hne ↦ absurd rfl hne,
        fun e he' _ ↦ ⟨he', fun _ _ _ ↦ rfl⟩⟩, fun _ ↦ rfl, hroom, b, hb, hcontents⟩
      simp only [call, hresult, bind, Except.bind]
      rw [if_pos ⟨trivial, hzero⟩]
      rfl
    | served h' areas' b' hserved =>
      obtain ⟨-, hkept⟩ := hs.effect hserved.effect hsub (forget_gone st.live b)
      have hnull : b'.addr + 16 ≠ 0 := Nat.succ_ne_zero _
      refine ⟨⟨h', st.regions, (b'.addr + 16, size) :: forget st.live (b.addr + 16)⟩, b'.addr + 16,
        areas', ?_, hs.served hserved hsub (forget_gone st.live b) hround,
        ⟨fun hnone ↦ absurd hnone hnull, fun _ ↦ List.mem_cons_self, fun e he' hne ↦ ?_⟩,
        fun hnone ↦ absurd hnone hzero, hroom, b, hb, hcontents⟩
      · simp only [call, hresult, bind, Except.bind, record]
        rw [if_neg fun hnone ↦ hnull hnone.1, if_neg hnull]
        rfl
      · have hmem := mem_forget.mpr ⟨he', hne⟩
        exact ⟨List.mem_cons_of_mem _ hmem, hkept e hmem⟩

/-- Reallocation of the null pointer is allocation. -/
theorem Sound.realloc_null {size : ℕ} (hs : Sound st areas) :
    call st (.realloc 0 size) = call st (.malloc size) := by
  have hforget : forget st.live 0 = st.live := forget_of_forall fun e he ↦ hs.ptr_ne_zero he
  simp only [call, tlsfRealloc_null, hforget]
  congr 1
  funext x
  by_cases hp : x.2 = 0
  · by_cases hsize : size = 0 <;> simp [record, hp, hsize]
  · simp [record, hp]

theorem Sound.free {ptr : ℕ} (hs : Sound st areas) (hp : Proper st (.free ptr)) :
    ∃ st' p areas', call st (.free ptr) = .ok (st', p) ∧ Sound st' areas' := by
  rcases hp with rfl | hp
  · have hforget : forget st.live 0 = st.live := forget_of_forall fun e he ↦ hs.ptr_ne_zero he
    refine ⟨st, 0, areas, ?_, hs⟩
    simp only [call, hforget]
    rfl
  · obtain ⟨e, he, rfl⟩ := List.mem_map.mp hp
    obtain ⟨b, hb⟩ := hs.live e he
    obtain ⟨h', areas', hfree, heffect⟩ := tlsfFree_effect hs.valid hb.inner hb.busy
    have hsub : (forget st.live (b.addr + 16)).Sublist st.live := List.filter_sublist
    refine ⟨_, 0, areas', ?_, (hs.effect heffect hsub (forget_gone st.live b)).1⟩
    rw [hb.ptr]
    simp only [call, hfree, bind, Except.bind]
    rfl

theorem Sound.addMemory {memory size : ℕ} (hs : Sound st areas) (hp : Proper st (.addMemory memory size)) :
    ∃ st' p areas', call st (.addMemory memory size) = .ok (st', p) ∧ Sound st' areas' := by
  obtain ⟨hmod, hlt, -, hapart⟩ := hp
  by_cases hnone : memory = 0 ∨ size ≤ 64
  · have hresult : tlsfAddMemory st.heap memory size = .ok st.heap := if_pos hnone
    refine ⟨st, 0, areas, ?_, hs⟩
    simp only [call, hresult, bind, Except.bind]
    rw [if_pos hnone]
    rfl
  · rw [not_or, not_le] at hnone
    have haway : ∀ x ∈ areas, x.stop ≤ memory ∨ memory + size ≤ x.start := by
      intro x hx
      refine hapart (x.start, x.stop) ?_
      rw [← hs.regions]
      exact List.mem_map_of_mem hx
    obtain ⟨h', areas', hresult, hvalid, hkept, hextents⟩ :=
      tlsfAddMemory_added hs.valid hmod hnone.1 hnone.2 hlt haway
    refine ⟨⟨h', (memory, memory + rounddown size) :: st.regions, st.live⟩, 0, areas', ?_, hvalid, ?_,
      fun e he ↦ ?_, hs.distinct⟩
    · simp only [call, hresult, bind, Except.bind]
      rw [if_neg (by omega)]
      rfl
    · rw [extents, hextents, ← hs.regions]
      rfl
    · obtain ⟨b, hb⟩ := hs.live e he
      exact ⟨b, (hkept b hb.inner hb.busy).1, hb.busy, hb.ptr, hb.room, hb.pos⟩

theorem Sound.store {address value : ℕ} (hs : Sound st areas) (hp : Proper st (.store address value)) :
    ∃ st' p areas', call st (.store address value) = .ok (st', p) ∧ Sound st' areas' := by
  obtain ⟨e, he, hlow, hhigh⟩ := hp
  obtain ⟨b, hb⟩ := hs.live e he
  have hptr := hb.ptr
  have hroom := hb.room
  have heffect := hs.valid.overwrite hb.inner.mem hb.busy (m := (st.heap.write address value).mem)
    fun z hz ↦ Heap.write_mem_of_ne (by simp only [Block.stop] at hz; omega)
  refine ⟨_, 0, areas, rfl, heffect.valid, hs.regions, hs.live, hs.distinct⟩

/-- Every admissible operation returns, and the state is sound again. -/
theorem Sound.step {op : Op} (hs : Sound st areas) (hp : Proper st op) (hf : Fits st op) :
    ∃ st' p areas', call st op = .ok (st', p) ∧ Sound st' areas' := by
  cases op with
  | addMemory memory size => exact hs.addMemory hp
  | malloc size =>
    obtain ⟨st', p, areas', hcall, hsound, -⟩ := hs.malloc hp hf
    exact ⟨st', p, areas', hcall, hsound⟩
  | mallocAligned size align =>
    obtain ⟨st', p, areas', hcall, hsound, -⟩ := hs.mallocAligned hp hf
    exact ⟨st', p, areas', hcall, hsound⟩
  | realloc ptr size =>
    rcases hp.1 with rfl | hptr
    · rw [hs.realloc_null]
      obtain ⟨st', p, areas', hcall, hsound, -⟩ := hs.malloc (show Proper st (.malloc size) from hp.2)
        ⟨fun r hr ↦ hf.searches r ⟨hr.1, hr.2, .inl rfl⟩, trivial⟩
      exact ⟨st', p, areas', hcall, hsound⟩
    · obtain ⟨⟨ptr, s⟩, he, rfl⟩ := List.mem_map.mp hptr
      obtain ⟨st', p, areas', hcall, hsound, -⟩ := hs.realloc he hp hf
      exact ⟨st', p, areas', hcall, hsound⟩
  | free ptr => exact hs.free hp
  | store address value => exact hs.store hp

/-- Runs whose searches are for at most the largest request. -/
theorem sound_of_reachable {mem : ℕ → ℕ}
    (h : Reachable step (fun st op ↦ Proper st op ∧ Fits st op) (start mem) st) :
    ∃ areas, Sound st areas := by
  refine h.invariant (fun st ↦ ∃ areas, Sound st areas) ⟨[], sound_start mem⟩ ?_
  rintro s op s' ⟨areas, hs⟩ ⟨hp, hf⟩ hstep
  obtain ⟨st', p, areas', hcall, hsound⟩ := hs.step hp hf
  rw [Tlsf.step, hcall] at hstep
  cases hstep
  exact ⟨areas', hsound⟩

end Emu68.Tlsf
