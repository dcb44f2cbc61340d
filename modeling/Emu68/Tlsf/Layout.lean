import Emu68.Tlsf.FreeLists

/-!
The blocks in memory. The blocks of an area follow one another from its first header to the one at
its end; a header tells whether the block and the one before are free, and where a free one before
begins. A `Hole` is a place between two blocks of an area; what an operation does is to exchange the
blocks in a hole. Nothing outside the hole changes but links of free blocks.
-/

set_option autoImplicit false
set_option relaxedAutoImplicit false

namespace Emu68.Tlsf

structure Block where
  addr : ℕ
  size : ℕ
  free : Bool
  deriving DecidableEq

def Block.stop (b : Block) : ℕ := b.addr + 16 + b.size

/-- `q` follows `p`, and its header says what `p` is. -/
structure Behind (m : ℕ → ℕ) (p q : Block) : Prop where
  addr : q.addr = p.stop
  coalesced : ¬ (p.free = true ∧ q.free = true)
  length : m (q.addr + 8) = q.size + q.free.toNat + 2 * p.free.toNat
  prev : p.free = true → m q.addr = p.addr

structure Area where
  start : ℕ
  stop : ℕ
  blocks : List Block

/-- The blocks of an area, from the one that holds `tlsf_area_t` to the header at the end. -/
structure Tiled (m : ℕ → ℕ) (area : Area) : Prop where
  first : area.blocks.head? = some ⟨area.start, 16, false⟩
  last : area.blocks.getLast? = some ⟨area.stop - 16, 0, false⟩
  first_length : m (area.start + 8) = 16
  chain : area.blocks.IsChain (Behind m)
  size_mod : ∀ b ∈ area.blocks, b.size % 16 = 0
  start_mod : area.start % 16 = 0
  start_pos : 0 < area.start
  stop_le : area.start + 32 ≤ area.stop
  short : area.stop < area.start + 2 ^ 30

structure Laid (m : ℕ → ℕ) (areas : List Area) : Prop where
  tiled : ∀ area ∈ areas, Tiled m area
  apart : areas.Pairwise fun x y ↦ x.stop ≤ y.start ∨ y.stop ≤ x.start

def allBlocks (areas : List Area) : List Block := areas.flatMap Area.blocks

/-- The free blocks with room for links. -/
def listedBlocks (blocks : List Block) : List (ℕ × ℕ) :=
  (blocks.filter fun b ↦ b.free && decide (b.size ≠ 0)).map fun b ↦ (b.addr, b.size)

/-- The state of the allocator agrees with the blocks in memory. -/
structure Valid (h : Heap) (areas : List Area) : Prop where
  laid : Laid h.mem areas
  listed : ∃ chain, Listed h chain (listedBlocks (allBlocks areas))

variable {m m' : ℕ → ℕ} {area : Area} {areas : List Area} {p q b : Block} {blocks : List Block}

theorem mem_listedBlocks {a s : ℕ} : (a, s) ∈ listedBlocks blocks ↔ ⟨a, s, true⟩ ∈ blocks ∧ s ≠ 0 := by
  simp only [listedBlocks, List.mem_map, List.mem_filter, Bool.and_eq_true, decide_eq_true_eq,
    Prod.mk.injEq]
  constructor
  · rintro ⟨⟨addr, size, free⟩, ⟨hmem, rfl, hne⟩, rfl, rfl⟩
    exact ⟨hmem, hne⟩
  · rintro ⟨hmem, hne⟩
    exact ⟨_, ⟨hmem, rfl, hne⟩, rfl, rfl⟩

theorem listedBlocks_append (xs ys : List Block) :
    listedBlocks (xs ++ ys) = listedBlocks xs ++ listedBlocks ys := by
  rw [listedBlocks, List.filter_append, List.map_append]
  rfl

/-! ### The order of the blocks -/

theorem Tiled.pairwise (h : Tiled m area) :
    area.blocks.Pairwise fun p q ↦ p.stop ≤ q.addr := by
  have htrans : Trans (fun p q : Block ↦ p.stop ≤ q.addr) (fun p q : Block ↦ p.stop ≤ q.addr)
      (fun p q : Block ↦ p.stop ≤ q.addr) := by
    refine ⟨fun {p q r} hpq hqr ↦ hpq.trans (le_trans ?_ hqr)⟩
    show q.addr ≤ q.addr + 16 + q.size
    omega
  exact (h.chain.imp fun p q hbehind ↦ hbehind.addr.ge).pairwise

/-- Two blocks of an area are the same or do not overlap. -/
theorem Tiled.separate (h : Tiled m area) (hp : p ∈ area.blocks) (hq : q ∈ area.blocks) :
    p = q ∨ p.stop ≤ q.addr ∨ q.stop ≤ p.addr := by
  by_contra hnone
  rw [not_or] at hnone
  have hpair : area.blocks.Pairwise fun p q ↦ p.stop ≤ q.addr ∨ q.stop ≤ p.addr :=
    h.pairwise.imp fun hle ↦ .inl hle
  have hsym : Std.Symm fun p q : Block ↦ p.stop ≤ q.addr ∨ q.stop ≤ p.addr :=
    ⟨fun _ _ hle ↦ hle.symm⟩
  exact hnone.2 (hpair.forall hp hq hnone.1)

theorem Tiled.within (h : Tiled m area) (hb : b ∈ area.blocks) :
    area.start ≤ b.addr ∧ b.stop ≤ area.stop := by
  have hpair := h.pairwise
  have hstop := h.stop_le
  constructor
  · obtain ⟨rest, hrest⟩ := List.head?_eq_some_iff.mp h.first
    rw [hrest] at hb hpair
    rcases List.mem_cons.mp hb with rfl | hb
    · exact le_rfl
    · have hle := (List.pairwise_cons.mp hpair).1 b hb
      simp only [Block.stop] at hle
      omega
  · obtain ⟨front, hfront⟩ := List.getLast?_eq_some_iff.mp h.last
    rw [hfront] at hb hpair
    rcases List.mem_append.mp hb with hb | hb
    · have hle := (List.pairwise_append.mp hpair).2.2 b hb _ (List.mem_singleton_self _)
      dsimp only at hle
      omega
    · rw [List.mem_singleton] at hb
      subst hb
      show area.stop - 16 + 16 + 0 ≤ area.stop
      omega

theorem Laid.separate (h : Laid m areas) (hp : p ∈ allBlocks areas) (hq : q ∈ allBlocks areas) :
    p = q ∨ p.stop ≤ q.addr ∨ q.stop ≤ p.addr := by
  obtain ⟨x, hx, hpx⟩ := List.mem_flatMap.mp hp
  obtain ⟨y, hy, hqy⟩ := List.mem_flatMap.mp hq
  by_cases hxy : x = y
  · subst hxy
    exact (h.tiled x hx).separate hpx hqy
  · have hsym : Std.Symm fun x y : Area ↦ x.stop ≤ y.start ∨ y.stop ≤ x.start :=
      ⟨fun _ _ hle ↦ hle.symm⟩
    have hapart := h.apart.forall hx hy hxy
    have hpin := (h.tiled x hx).within hpx
    have hqin := (h.tiled y hy).within hqy
    omega

theorem Tiled.addr_mod (h : Tiled m area) (hb : b ∈ area.blocks) : b.addr % 16 = 0 := by
  have hchain := List.IsChain.iff_mem.mp h.chain
  refine hchain.induction (fun b ↦ b.addr % 16 = 0) _ ?_ ?_ b hb
  · rintro x y ⟨hx, -, hbehind⟩ hmod
    have hsize := h.size_mod x hx
    rw [hbehind.addr, Block.stop]
    omega
  · intro hne
    have hhead := h.first
    rw [List.head?_eq_some_head hne] at hhead
    rw [Option.some.inj hhead]
    exact h.start_mod

/-! ### Holes -/

/-- A place between two blocks of an area. -/
structure Hole where
  areasBefore : List Area
  areasBehind : List Area
  start : ℕ
  stop : ℕ
  front : List Block
  before : Block
  behind : Block
  rest : List Block

namespace Hole

variable {g : Hole} {mid new : List Block}

def filled (g : Hole) (mid : List Block) : Area :=
  ⟨g.start, g.stop, g.front ++ g.before :: (mid ++ g.behind :: g.rest)⟩

theorem filled_blocks (g : Hole) (mid : List Block) :
    (g.filled mid).blocks = (g.front ++ [g.before]) ++ (mid ++ g.behind :: g.rest) :=
  List.append_cons ..

def fill (g : Hole) (mid : List Block) : List Area :=
  g.areasBefore ++ g.filled mid :: g.areasBehind

/-- The blocks outside the hole. -/
def others (g : Hole) : List Block :=
  allBlocks g.areasBefore ++ (g.front ++ g.before :: g.behind :: g.rest) ++ allBlocks g.areasBehind

theorem allBlocks_fill (g : Hole) (mid : List Block) :
    (allBlocks (g.fill mid)).Perm (mid ++ g.others) := by
  have hfill : allBlocks (g.fill mid) = (allBlocks g.areasBefore ++ g.front ++ [g.before]) ++ mid ++
      (g.behind :: g.rest ++ allBlocks g.areasBehind) := by
    rw [fill, allBlocks, List.flatMap_append, List.flatMap_cons]
    simp [filled, allBlocks]
  have hothers : g.others = (allBlocks g.areasBefore ++ g.front ++ [g.before]) ++
      (g.behind :: g.rest ++ allBlocks g.areasBehind) := by
    simp [others]
  rw [hfill, hothers, ← List.append_assoc mid]
  exact List.perm_append_comm.append_right _

theorem mem_fill : b ∈ allBlocks (g.fill mid) ↔ b ∈ mid ∨ b ∈ g.others := by
  rw [(g.allBlocks_fill mid).mem_iff, List.mem_append]

theorem listedBlocks_fill (g : Hole) (mid : List Block) :
    (listedBlocks (allBlocks (g.fill mid))).Perm (listedBlocks mid ++ listedBlocks g.others) := by
  rw [← listedBlocks_append]
  exact ((g.allBlocks_fill mid).filter _).map _

end Hole

/-- No link of these blocks. -/
def Clear (free : List (ℕ × ℕ)) (z : ℕ) : Prop := ∀ p ∈ free, z ≠ p.1 + 16 ∧ z ≠ p.1 + 24

variable {g : Hole} {mid new : List Block} {z : ℕ}

theorem Laid.size_mod (h : Laid m areas) (hb : b ∈ allBlocks areas) : b.size % 16 = 0 := by
  obtain ⟨x, hx, hbx⟩ := List.mem_flatMap.mp hb
  exact (h.tiled x hx).size_mod b hbx

theorem Laid.addr_mod (h : Laid m areas) (hb : b ∈ allBlocks areas) : b.addr % 16 = 0 := by
  obtain ⟨x, hx, hbx⟩ := List.mem_flatMap.mp hb
  exact (h.tiled x hx).addr_mod hbx

/-- The links of a listed block lie in its contents. -/
theorem Laid.clear (h : Laid m areas) {l : List Block} (hl : ∀ b ∈ l, b ∈ allBlocks areas)
    (hz : ∀ b ∈ l, b.free = true → z < b.addr + 16 ∨ b.stop ≤ z) : Clear (listedBlocks l) z := by
  rintro ⟨a, s⟩ hmem
  obtain ⟨hmem, hs⟩ := mem_listedBlocks.mp hmem
  have hmod : s % 16 = 0 := h.size_mod (hl _ hmem)
  have hside : z < a + 16 ∨ a + 16 + s ≤ z := hz _ hmem rfl
  dsimp only
  omega

/-- Headers hold no links. -/
theorem Laid.clear_header (h : Laid m areas) {l : List Block} (hl : ∀ b ∈ l, b ∈ allBlocks areas)
    (hq : q ∈ allBlocks areas) (hz : q.addr ≤ z) (hz' : z < q.addr + 16) :
    Clear (listedBlocks l) z := by
  refine h.clear hl fun b hb _ ↦ ?_
  have hseparate := h.separate hq (hl b hb)
  simp only [Block.stop] at hseparate ⊢
  rcases hseparate with rfl | hseparate
  · exact .inl hz'
  · omega

/-- The contents of a busy block hold no links. -/
theorem Laid.clear_contents (h : Laid m areas) {l : List Block} (hl : ∀ b ∈ l, b ∈ allBlocks areas)
    (hq : q ∈ allBlocks areas) (hbusy : q.free = false) (hz : q.addr ≤ z) (hz' : z < q.stop) :
    Clear (listedBlocks l) z := by
  refine h.clear hl fun b hb hfree ↦ ?_
  have hseparate := h.separate hq (hl b hb)
  rcases hseparate with rfl | hseparate
  · rw [hbusy] at hfree
    exact Bool.noConfusion hfree
  · simp only [Block.stop] at hseparate hz' ⊢
    omega

namespace Hole

theorem before_mem : g.before ∈ g.others := by simp [others]

theorem behind_mem : g.behind ∈ g.others := by simp [others]

/-- The blocks outside lie on either side. -/
theorem others_apart (h : Laid m (g.fill mid)) (hb : b ∈ g.others) :
    b.stop ≤ g.before.stop ∨ g.behind.addr ≤ b.addr := by
  have hmem : g.filled mid ∈ g.fill mid := by simp [fill]
  have htiled := h.tiled _ hmem
  have hpair := htiled.pairwise
  have hbefore := htiled.within (b := g.before) (by simp [filled])
  have hbehind := htiled.within (b := g.behind) (by simp [filled])
  have hoff {x : Area} (hx : x ∈ g.areasBefore ∨ x ∈ g.areasBehind) (hbx : b ∈ x.blocks) :
      b.stop ≤ g.before.stop ∨ g.behind.addr ≤ b.addr := by
    have hxin : x ∈ g.fill mid := by
      rw [fill, List.mem_append, List.mem_cons]
      exact hx.imp_right .inr
    have hwithin := (h.tiled x hxin).within hbx
    have hsides : x.stop ≤ (g.filled mid).start ∨ (g.filled mid).stop ≤ x.start := by
      have hareas := h.apart
      rw [fill, List.pairwise_append, List.pairwise_cons] at hareas
      rcases hx with hx | hx
      · exact hareas.2.2 x hx _ List.mem_cons_self
      · exact (hareas.2.1.1 x hx).symm
    simp only [Block.stop] at hbefore hbehind hwithin ⊢
    omega
  rw [others, List.mem_append, List.mem_append] at hb
  rcases hb with (hb | hb) | hb
  · obtain ⟨x, hx, hbx⟩ := List.mem_flatMap.mp hb
    exact hoff (.inl hx) hbx
  · rw [filled, List.pairwise_append, List.pairwise_cons] at hpair
    rw [List.mem_append, List.mem_cons, List.mem_cons] at hb
    rcases hb with hb | rfl | rfl | hb
    · have hle := hpair.2.2 b hb _ List.mem_cons_self
      refine .inl (hle.trans ?_)
      show g.before.addr ≤ g.before.addr + 16 + g.before.size
      omega
    · exact .inl le_rfl
    · exact .inr le_rfl
    · have hle := hpair.2.1.2
      rw [List.pairwise_append, List.pairwise_cons] at hle
      have hrest := hle.2.1.1 b hb
      simp only [Block.stop] at hrest
      omega
  · obtain ⟨x, hx, hbx⟩ := List.mem_flatMap.mp hb
    exact hoff (.inr hx) hbx

theorem others_subset (hb : b ∈ g.others) : b ∈ allBlocks (g.fill mid) := mem_fill.mpr (.inr hb)

/-- No link of the blocks outside is in the hole or in the header behind it. -/
theorem clear_inside (h : Laid m (g.fill mid)) (hz : g.before.stop ≤ z)
    (hz' : z < g.behind.addr + 16) : Clear (listedBlocks g.others) z := by
  refine h.clear (fun b hb ↦ others_subset hb) fun b hb _ ↦ ?_
  have hapart := others_apart h hb
  omega

end Hole

/-! ### Exchanging the blocks in a hole -/

/-- Only the headers matter. -/
theorem isChain_behind_congr (h : blocks.IsChain (Behind m))
    (hheader : ∀ q ∈ blocks.tail, m' q.addr = m q.addr ∧ m' (q.addr + 8) = m (q.addr + 8)) :
    blocks.IsChain (Behind m') := by
  refine h.imp_of_mem_tail_imp fun p q _ hq hbehind ↦ ?_
  obtain ⟨hprev, hlength⟩ := hheader q hq
  exact ⟨hbehind.addr, hbehind.coalesced, hlength.trans hbehind.length,
    fun hfree ↦ hprev.trans (hbehind.prev hfree)⟩

theorem Tiled.congr {ar : Area} (h : Tiled m ar)
    (hheader : ∀ q ∈ ar.blocks, m' q.addr = m q.addr ∧ m' (q.addr + 8) = m (q.addr + 8)) :
    Tiled m' ar where
  first := h.first
  last := h.last
  first_length := by
    have hmem : (⟨ar.start, 16, false⟩ : Block) ∈ ar.blocks := List.mem_of_head? h.first
    exact (hheader _ hmem).2.trans h.first_length
  chain := isChain_behind_congr h.chain fun q hq ↦ hheader q (List.mem_of_mem_tail hq)
  size_mod := h.size_mod
  start_mod := h.start_mod
  start_pos := h.start_pos
  stop_le := h.stop_le
  short := h.short

/-- Outside the hole and the header behind it, only links of the blocks outside change. -/
def KeepsOutside (g : Hole) (m m' : ℕ → ℕ) : Prop :=
  ∀ z, (z < g.before.stop ∨ g.behind.addr + 16 ≤ z) → Clear (listedBlocks g.others) z → m' z = m z

/-- The headers of the blocks outside stay, except for the one behind the hole. -/
theorem KeepsOutside.header (hkeeps : KeepsOutside g m m') (h : Laid m (g.fill mid))
    (hq : q ∈ g.others) (hne : q ≠ g.behind) :
    m' q.addr = m q.addr ∧ m' (q.addr + 8) = m (q.addr + 8) := by
  have hapart := Hole.others_apart h hq
  have hseparate := h.separate (Hole.others_subset hq) (Hole.others_subset Hole.behind_mem)
  have hclear {z : ℕ} (hz : q.addr ≤ z) (hz' : z < q.addr + 16) :=
    h.clear_header (fun b hb ↦ Hole.others_subset hb) (Hole.others_subset hq) hz hz'
  have hside : q.stop ≤ g.before.stop ∨ g.behind.stop ≤ q.addr := by
    rcases hseparate with heq | hseparate
    · exact absurd heq hne
    · simp only [Block.stop] at hapart hseparate ⊢
      omega
  simp only [Block.stop] at hside
  constructor
  · refine hkeeps _ ?_ (hclear le_rfl (by omega))
    simp only [Block.stop]
    omega
  · refine hkeeps _ ?_ (hclear (by omega) (by omega))
    simp only [Block.stop]
    omega

/-- The contents of the busy blocks outside stay. -/
theorem KeepsOutside.contents (hkeeps : KeepsOutside g m m') (h : Laid m (g.fill mid))
    (hq : q ∈ g.others) (hbusy : q.free = false) (hz : q.addr + 16 ≤ z) (hz' : z < q.stop) :
    m' z = m z := by
  have hapart := Hole.others_apart h hq
  refine hkeeps z (by omega) ?_
  exact h.clear_contents (fun b hb ↦ Hole.others_subset hb) (Hole.others_subset hq) hbusy (by omega) hz'

/-- A block of another area is outside, and not the one behind the hole. -/
theorem Hole.off_area {x : Area} (h : Laid m (g.fill mid)) (hx : x ∈ g.areasBefore ∨ x ∈ g.areasBehind)
    (hq : q ∈ x.blocks) : q ∈ g.others ∧ q ≠ g.behind := by
  have hxin : x ∈ g.fill mid := by
    rw [Hole.fill, List.mem_append, List.mem_cons]
    exact hx.imp_right .inr
  have hsides : x.stop ≤ (g.filled mid).start ∨ (g.filled mid).stop ≤ x.start := by
    have hareas := h.apart
    rw [Hole.fill, List.pairwise_append, List.pairwise_cons] at hareas
    rcases hx with hx | hx
    · exact hareas.2.2 x hx _ List.mem_cons_self
    · exact (hareas.2.1.1 x hx).symm
  constructor
  · rw [Hole.others, List.mem_append, List.mem_append]
    rcases hx with hx | hx
    · exact .inl (.inl (List.mem_flatMap.mpr ⟨x, hx, hq⟩))
    · exact .inr (List.mem_flatMap.mpr ⟨x, hx, hq⟩)
  · rintro rfl
    have hwithin := (h.tiled x hxin).within hq
    have hbehind := (h.tiled (g.filled mid) (by simp [Hole.fill])).within (b := g.behind)
      (by simp [Hole.filled])
    simp only [Block.stop] at hwithin hbehind
    omega

/-- The other blocks of the area are not the one behind the hole. -/
theorem Hole.ne_behind (h : Tiled m (g.filled mid)) (hq : q ∈ g.front ++ [g.before] ∨ q ∈ g.rest) :
    q ∈ g.others ∧ q ≠ g.behind := by
  have hpair := h.pairwise
  rw [filled_blocks, List.pairwise_append] at hpair
  obtain ⟨-, hright, hcross⟩ := hpair
  have hside : q.stop ≤ g.behind.addr ∨ g.behind.stop ≤ q.addr := by
    rcases hq with hq | hq
    · exact .inl (hcross q hq g.behind (by simp))
    · rw [List.pairwise_append, List.pairwise_cons] at hright
      exact .inr (hright.2.1.1 q hq)
  constructor
  · rw [others, List.mem_append, List.mem_append]
    refine .inl (.inr ?_)
    rw [List.mem_append, List.mem_singleton] at hq
    rw [List.mem_append, List.mem_cons, List.mem_cons]
    rcases hq with (hq | hq) | hq
    · exact .inl hq
    · exact .inr (.inl hq)
    · exact .inr (.inr (.inr hq))
  · rintro rfl
    simp only [Block.stop] at hside
    omega

theorem Tiled.refill (htiled : Tiled m (g.filled mid)) (h : Laid m (g.fill mid))
    (hkeeps : KeepsOutside g m m') (hnew : (g.before :: (new ++ [g.behind])).IsChain (Behind m'))
    (hsize : ∀ b ∈ new, b.size % 16 = 0) : Tiled m' (g.filled new) := by
  have hheader {q : Block} (hq : q ∈ g.front ++ [g.before] ∨ q ∈ g.rest) :
      m' q.addr = m q.addr ∧ m' (q.addr + 8) = m (q.addr + 8) := by
    obtain ⟨hothers, hne⟩ := Hole.ne_behind htiled hq
    exact hkeeps.header h hothers hne
  have hfirst := htiled.first
  rw [Hole.filled_blocks, List.head?_append_of_ne_nil _ (by simp)] at hfirst
  have hlast := htiled.last
  rw [Hole.filled_blocks, ← List.append_assoc,
    List.getLast?_append_of_ne_nil _ (List.cons_ne_nil _ _)] at hlast
  have hchain := htiled.chain
  rw [Hole.filled, List.isChain_split, List.isChain_cons_split] at hchain
  obtain ⟨hfront, -, hrest⟩ := hchain
  refine ⟨?_, ?_, ?_, ?_, ?_, htiled.start_mod, htiled.start_pos, htiled.stop_le, htiled.short⟩
  · rw [Hole.filled_blocks, List.head?_append_of_ne_nil _ (by simp)]
    exact hfirst
  · rw [Hole.filled_blocks, ← List.append_assoc,
      List.getLast?_append_of_ne_nil _ (List.cons_ne_nil _ _)]
    exact hlast
  · exact (hheader (.inl (List.mem_of_head? hfirst))).2.trans htiled.first_length
  · rw [Hole.filled, List.isChain_split, List.isChain_cons_split]
    refine ⟨isChain_behind_congr hfront fun q hq ↦ hheader (.inl (List.mem_of_mem_tail hq)), hnew,
      isChain_behind_congr hrest fun q hq ↦ hheader (.inr hq)⟩
  · intro b hb
    rw [Hole.filled, List.mem_append, List.mem_cons, List.mem_append] at hb
    have hold : b ∈ g.front ∨ b = g.before ∨ b ∈ mid ∨ b ∈ g.behind :: g.rest → b.size % 16 = 0 := by
      intro hb
      refine htiled.size_mod b ?_
      rw [Hole.filled, List.mem_append, List.mem_cons, List.mem_append]
      exact hb
    rcases hb with hb | hb | hb | hb
    · exact hold (.inl hb)
    · exact hold (.inr (.inl hb))
    · exact hsize b hb
    · exact hold (.inr (.inr (.inr hb)))

theorem Laid.refill (h : Laid m (g.fill mid)) (hkeeps : KeepsOutside g m m')
    (hnew : (g.before :: (new ++ [g.behind])).IsChain (Behind m'))
    (hsize : ∀ b ∈ new, b.size % 16 = 0) : Laid m' (g.fill new) := by
  have hmem : g.filled mid ∈ g.fill mid := by simp [Hole.fill]
  have htiled := h.tiled _ hmem
  have hareas := h.apart
  have hother {x : Area} (hx : x ∈ g.areasBefore ∨ x ∈ g.areasBehind) : Tiled m' x := by
    have hxin : x ∈ g.fill mid := by
      rw [Hole.fill, List.mem_append, List.mem_cons]
      exact hx.imp_right .inr
    refine (h.tiled x hxin).congr fun q hq ↦ ?_
    obtain ⟨hothers, hne⟩ := Hole.off_area h hx hq
    exact hkeeps.header h hothers hne
  refine ⟨fun x hx ↦ ?_, ?_⟩
  · rw [Hole.fill, List.mem_append, List.mem_cons] at hx
    rcases hx with hx | rfl | hx
    · exact hother (.inl hx)
    · exact htiled.refill h hkeeps hnew hsize
    · exact hother (.inr hx)
  · rw [Hole.fill, List.pairwise_append, List.pairwise_cons] at hareas ⊢
    refine ⟨hareas.1, ⟨fun x hx ↦ hareas.2.1.1 x hx, hareas.2.1.2⟩, fun x hx y hy ↦ ?_⟩
    rcases List.mem_cons.mp hy with rfl | hy
    · exact hareas.2.2 x hx (g.filled mid) List.mem_cons_self
    · exact hareas.2.2 x hx y (List.mem_cons_of_mem _ hy)

/-! ### Inner blocks -/

/-- A block that is neither the first nor the last of an area. -/
structure Inner (areas : List Area) (b : Block) : Prop where
  mem : b ∈ allBlocks areas
  addr_ne : ∀ area ∈ areas, b.addr ≠ area.start
  stop_ne : ∀ area ∈ areas, b.stop ≠ area.stop

theorem Laid.inner_of_free (h : Laid m areas) (hb : b ∈ allBlocks areas) (hfree : b.free = true) :
    Inner areas b where
  mem := hb
  addr_ne x hx heq := by
    have hfirst := List.mem_of_head? (h.tiled x hx).first
    have hseparate := h.separate hb (List.mem_flatMap.mpr ⟨x, hx, hfirst⟩)
    simp only [Block.stop] at hseparate
    rcases hseparate with rfl | hseparate
    · exact Bool.noConfusion hfree
    · omega
  stop_ne x hx heq := by
    have hlast := List.mem_of_getLast? (h.tiled x hx).last
    have hle := (h.tiled x hx).stop_le
    have hseparate := h.separate hb (List.mem_flatMap.mpr ⟨x, hx, hlast⟩)
    simp only [Block.stop] at hseparate heq
    rcases hseparate with rfl | hseparate
    · exact Bool.noConfusion hfree
    · omega

/-- An inner block lies in a hole of its size. -/
theorem Laid.exists_hole (h : Laid m areas) (hb : Inner areas b) : ∃ g : Hole, areas = g.fill [b] := by
  obtain ⟨x, hx, hbx⟩ := List.mem_flatMap.mp hb.mem
  obtain ⟨areasBefore, areasBehind, hareas⟩ := List.append_of_mem hx
  obtain ⟨front, rest, hblocks⟩ := List.append_of_mem hbx
  have hfirst := (h.tiled x hx).first
  have hlast := (h.tiled x hx).last
  rw [hblocks] at hfirst hlast
  rcases List.eq_nil_or_concat front with rfl | ⟨front, before, rfl⟩
  · exact absurd (congrArg Block.addr (Option.some.inj hfirst)) (hb.addr_ne x hx)
  · cases rest with
    | nil =>
      rw [List.getLast?_append_of_ne_nil _ (List.cons_ne_nil _ _)] at hlast
      have hstop := (h.tiled x hx).stop_le
      have heq : b = ⟨x.stop - 16, 0, false⟩ := Option.some.inj hlast
      refine absurd ?_ (hb.stop_ne x hx)
      rw [heq]
      show x.stop - 16 + 16 + 0 = x.stop
      omega
    | cons behind rest =>
      refine ⟨⟨areasBefore, areasBehind, x.start, x.stop, front, before, behind, rest⟩, ?_⟩
      rw [hareas, Hole.fill, Hole.filled]
      rw [List.concat_eq_append, ← List.append_cons] at hblocks
      congr 2
      cases x
      exact congrArg _ hblocks

/-- The blocks around and in a hole follow one another. -/
theorem Laid.hole_chain (h : Laid m (g.fill mid)) :
    (g.before :: (mid ++ [g.behind])).IsChain (Behind m) := by
  have hchain := (h.tiled (g.filled mid) (by simp [Hole.fill])).chain
  rw [Hole.filled, List.isChain_split, List.isChain_cons_split] at hchain
  exact hchain.2.1

/-- A free block behind a hole can be taken into it. -/
theorem Laid.widen_behind (h : Laid m (g.fill mid)) : ∃ (g' : Hole) (tail : List Block),
    g'.fill (mid ++ tail) = g.fill mid ∧ g'.before = g.before ∧ g'.behind.free = false ∧
      (tail = [] ∨ ∃ n, tail = [n] ∧ n.free = true) := by
  cases hfree : g.behind.free with
  | false => exact ⟨g, [], by rw [List.append_nil], rfl, hfree, .inl rfl⟩
  | true =>
    have htiled := h.tiled (g.filled mid) (by simp [Hole.fill])
    have hlast := htiled.last
    rw [Hole.filled_blocks, ← List.append_assoc,
      List.getLast?_append_of_ne_nil _ (List.cons_ne_nil _ _)] at hlast
    have hchain := htiled.chain
    rw [Hole.filled_blocks, ← List.append_assoc] at hchain
    obtain ⟨areasBefore, areasBehind, start, stop, front, before, behind, rest⟩ := g
    cases rest with
    | nil =>
      have hbusy := congrArg Block.free (Option.some.inj hlast)
      exact Bool.noConfusion (hfree.symm.trans hbusy)
    | cons next rest =>
      refine ⟨⟨areasBefore, areasBehind, start, stop, front, before, next, rest⟩, [behind], ?_, rfl, ?_,
        .inr ⟨behind, rfl, hfree⟩⟩
      · simp [Hole.fill, Hole.filled]
      · have hbehind : Behind m behind next := (List.isChain_append_cons_cons.mp hchain).2.1
        exact Bool.eq_false_of_not_eq_true fun hnext ↦ hbehind.coalesced ⟨hfree, hnext⟩

theorem Laid.widen_before (h : Laid m (g.fill mid)) : ∃ (g' : Hole) (lead : List Block),
    g'.fill (lead ++ mid) = g.fill mid ∧ g'.behind = g.behind ∧ g'.before.free = false ∧
      (lead = [] ∨ ∃ p, lead = [p] ∧ p.free = true) := by
  cases hfree : g.before.free with
  | false => exact ⟨g, [], rfl, rfl, hfree, .inl rfl⟩
  | true =>
    have htiled := h.tiled (g.filled mid) (by simp [Hole.fill])
    have hfirst := htiled.first
    have hchain := htiled.chain
    obtain ⟨areasBefore, areasBehind, start, stop, front, before, behind, rest⟩ := g
    rcases List.eq_nil_or_concat front with rfl | ⟨front, previous, rfl⟩
    · have hbusy := congrArg Block.free (Option.some.inj hfirst)
      exact Bool.noConfusion (hfree.symm.trans hbusy)
    · refine ⟨⟨areasBefore, areasBehind, start, stop, front, previous, behind, rest⟩, [before], ?_, rfl,
        ?_, .inr ⟨before, rfl, hfree⟩⟩
      · simp [Hole.fill, Hole.filled]
      · have hbehind : Behind m previous before := by
          have hblocks : (front.concat previous ++ before :: (mid ++ behind :: rest)).IsChain (Behind m) :=
            hchain
          rw [List.concat_eq_append, ← List.append_cons] at hblocks
          exact (List.isChain_append_cons_cons.mp hblocks).2.1
        exact Bool.eq_false_of_not_eq_true fun hprevious ↦ hbehind.coalesced ⟨hprevious, hfree⟩

theorem Laid.mid_within (h : Laid m (g.fill mid)) (hb : b ∈ mid) :
    g.before.stop ≤ b.addr ∧ b.stop ≤ g.behind.addr := by
  have hpair := (h.tiled (g.filled mid) (by simp [Hole.fill])).pairwise
  rw [Hole.filled, List.pairwise_append, List.pairwise_cons, List.pairwise_append] at hpair
  exact ⟨hpair.2.1.1 _ (List.mem_append_left _ hb), hpair.2.1.2.2.2 _ hb _ List.mem_cons_self⟩

theorem Laid.inner_mid (h : Laid m (g.fill mid)) (hb : b ∈ mid) : Inner (g.fill mid) b := by
  have htiled := h.tiled (g.filled mid) (by simp [Hole.fill])
  have hbefore := htiled.within (b := g.before) (by simp [Hole.filled])
  have hbehind := htiled.within (b := g.behind) (by simp [Hole.filled])
  obtain ⟨hlow, hhigh⟩ := h.mid_within hb
  have hside {x : Area} (hx : x ∈ g.fill mid) : x = g.filled mid ∨
      x.stop ≤ (g.filled mid).start ∨ (g.filled mid).stop ≤ x.start := by
    have hareas := h.apart
    rw [Hole.fill, List.pairwise_append, List.pairwise_cons] at hareas
    rw [Hole.fill, List.mem_append, List.mem_cons] at hx
    rcases hx with hx | rfl | hx
    · exact .inr (hareas.2.2 x hx _ List.mem_cons_self)
    · exact .inl rfl
    · exact .inr (hareas.2.1.1 x hx).symm
  simp only [Block.stop] at hbefore hbehind hlow hhigh
  refine ⟨Hole.mem_fill.mpr (.inl hb), fun x hx heq ↦ ?_, fun x hx heq ↦ ?_⟩
  · have hle := (h.tiled x hx).stop_le
    rcases hside hx with rfl | hx <;> omega
  · have hle := (h.tiled x hx).stop_le
    simp only [Block.stop] at heq
    rcases hside hx with rfl | hx <;> omega

/-- Inner blocks outside a hole stay inner blocks when the hole is filled in another way. -/
theorem Inner.refill (hb : Inner (g.fill mid) b) (hothers : b ∈ g.others) :
    Inner (g.fill new) b where
  mem := Hole.mem_fill.mpr (.inr hothers)
  addr_ne x hx := by
    rw [Hole.fill, List.mem_append, List.mem_cons] at hx
    rcases hx with hx | rfl | hx
    · exact hb.addr_ne x (by simp [Hole.fill, hx])
    · exact hb.addr_ne (g.filled mid) (by simp [Hole.fill])
    · exact hb.addr_ne x (by simp [Hole.fill, hx])
  stop_ne x hx := by
    rw [Hole.fill, List.mem_append, List.mem_cons] at hx
    rcases hx with hx | rfl | hx
    · exact hb.stop_ne x (by simp [Hole.fill, hx])
    · exact hb.stop_ne (g.filled mid) (by simp [Hole.fill])
    · exact hb.stop_ne x (by simp [Hole.fill, hx])

end Emu68.Tlsf
