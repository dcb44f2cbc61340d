import Emu68.Tlsf.Allocation
import Emu68.Tlsf.Release

/-!
The calls of the allocator. A call that gives out memory makes a busy block that no other busy block
shares its place with; all other busy blocks stay, with their contents.
-/

set_option autoImplicit false
set_option relaxedAutoImplicit false

namespace Emu68.Tlsf

variable {h : Heap} {areas : List Area} {b : Block} {n : ℕ}

/-! ### Sizes -/

theorem roundup_mod (x : ℕ) : roundup x % 16 = 0 := Nat.mul_mod_left _ _

theorem roundup_eq {x : ℕ} (hx : x ≤ 2 ^ 64 - 16) : x ≤ roundup x ∧ roundup x < x + 16 := by
  have hlt : (x + 15) % 2 ^ 64 = x + 15 := Nat.mod_eq_of_lt (by omega)
  rw [roundup, hlt]
  omega

/-- A size is rounded up, or to zero. -/
theorem roundup_zero_or {x : ℕ} (hx : x < 2 ^ 64) : roundup x = 0 ∨ x ≤ roundup x := by
  by_cases hle : x ≤ 2 ^ 64 - 16
  · exact .inr (roundup_eq hle).1
  · have hmod : (x + 15) % 2 ^ 64 = x + 15 - 2 ^ 64 := by
      rw [Nat.mod_eq_sub_mod (by omega)]
      exact Nat.mod_eq_of_lt (by omega)
    rw [roundup, hmod]
    omega

theorem roundup_roundup {x : ℕ} (hx : roundup x ≤ 2 ^ 64 - 16) : roundup (roundup x) = roundup x := by
  have hmod := roundup_mod x
  obtain ⟨hle, hlt⟩ := roundup_eq hx
  have hmod' := roundup_mod (roundup x)
  omega

theorem effectiveAlign_spec (align : ℕ) : 16 ≤ effectiveAlign align ∧ effectiveAlign align % 16 = 0 ∧
    effectiveAlign align ≤ max align 16 ∧ effectiveAlign align ≤ 2 ^ 21 := by
  have hne : min (max align 16) 0x200000 ≠ 0 := by omega
  have hlog := Nat.log2_self_le hne
  have hfour : 4 ≤ (min (max align 16) 0x200000).log2 := (Nat.le_log2 hne).mpr (by omega)
  have hdvd : 2 ^ 4 ∣ 2 ^ (min (max align 16) 0x200000).log2 := Nat.pow_dvd_pow 2 hfour
  have hle := Nat.le_of_dvd (Nat.two_pow_pos _) hdvd
  rw [effectiveAlign, ms]
  refine ⟨hle, Nat.mod_eq_zero_of_dvd hdvd, hlog.trans (min_le_left _ _), hlog.trans (min_le_right _ _)⟩

/-! ### Allocation -/

/-- The block `b` has been made for a request of `n` bytes. -/
structure Served (h h' : Heap) (areas areas' : List Area) (gone : List Block) (b : Block) (n : ℕ) :
    Prop where
  effect : Effect h h' areas areas' gone
  inner : Inner areas' b
  busy : b.free = false
  room : n ≤ b.size
  pos : 0 < b.size
  fresh : ∀ q, Inner areas q → q.free = false → q ∉ gone → q.addr ≠ b.addr

/-- Two blocks at one place are the same. -/
theorem Laid.eq_of_addr {m : ℕ → ℕ} {p q : Block} (hl : Laid m areas) (hp : p ∈ allBlocks areas)
    (hq : q ∈ allBlocks areas) (heq : p.addr = q.addr) : p = q := by
  refine (hl.separate hp hq).resolve_right fun hside ↦ ?_
  simp only [Block.stop] at hside
  omega

theorem Allotted.fresh {h' : Heap} {areas' : List Area} {taken q : Block} (hl : Laid h.mem areas)
    (ha : Allotted h h' areas areas' taken b n) (hq : Inner areas q) (hbusy : q.free = false) :
    q.addr ≠ b.addr := by
  intro heq
  rw [ha.addr] at heq
  have hsame := hl.eq_of_addr hq.mem ha.taken_mem heq
  rw [hsame, ha.taken_free] at hbusy
  exact Bool.noConfusion hbusy

theorem Allotted.served {h' : Heap} {areas' : List Area} {taken : Block} (hl : Laid h.mem areas)
    (ha : Allotted h h' areas areas' taken b n) (hpos : 0 < n) : Served h h' areas areas' [] b n :=
  ⟨ha.effect, ha.inner, ha.busy, ha.room, hpos.trans_le ha.room, fun _ hq hbusy _ ↦ ha.fresh hl hq hbusy⟩

/-- The answer to a request: refused, with everything as it was, or a pointer to the contents of a
new block. -/
inductive Answer (h : Heap) (areas : List Area) (gone : List Block) (n : ℕ) : Heap → ℕ → Prop
  | refused : Answer h areas gone n h 0
  | served (h' : Heap) (areas' : List Area) (b : Block) (hserved : Served h h' areas areas' gone b n) :
      Answer h areas gone n h' (b.addr + 16)

theorem tlsfMalloc_zero {size : ℕ} (hzero : roundup size = 0) : tlsfMalloc h size = .ok (h, 0) :=
  if_pos hzero

theorem tlsfMalloc_eq {h' : Heap} {size b : ℕ} (hne : roundup size ≠ 0)
    (hresult : tlsfInternMalloc h (roundup size) = .ok (h', b)) :
    tlsfMalloc h size = .ok (h', if b = 0 then 0 else b + 16) := by
  unfold tlsfMalloc
  dsimp only
  rw [if_neg hne, hresult]
  rfl

/-- Blocks do not lie at the null pointer. -/
theorem Laid.addr_pos {m : ℕ → ℕ} (hl : Laid m areas) (hb : b ∈ allBlocks areas) : b.addr ≠ 0 := by
  obtain ⟨x, hx, hbx⟩ := List.mem_flatMap.mp hb
  have hwithin := (hl.tiled x hx).within hbx
  have hpos := (hl.tiled x hx).start_pos
  omega

/-- A free block has room for `n` bytes. -/
def HasRoom (areas : List Area) (n : ℕ) : Prop := ∃ q ∈ allBlocks areas, q.free = true ∧ n ≤ q.size

theorem mappingSearch_ge {r : ℕ} (hr : r % 16 = 0) (hlimit : r ≤ largestRequest) :
    r ≤ (mappingSearch r).1 := by
  obtain ⟨r', hsearch, hle, -⟩ := mappingSearch_spec hr hlimit
  rw [hsearch]
  exact hle

theorem tlsfMalloc_answer {size : ℕ} (hv : Valid h areas) (hlimit : roundup size ≤ largestRequest) :
    ∃ h' p, tlsfMalloc h size = .ok (h', p) ∧ Answer h areas [] (roundup size) h' p ∧
      (p ≠ 0 → HasRoom areas (roundup size)) := by
  by_cases hzero : roundup size = 0
  · exact ⟨h, 0, tlsfMalloc_zero hzero, .refused, fun hne ↦ absurd rfl hne⟩
  · obtain ⟨h', areas', p, hresult, houtcome⟩ :=
      tlsfInternMalloc_outcome hv (roundup_mod size) (Nat.pos_of_ne_zero hzero) hlimit
    refine ⟨h', _, tlsfMalloc_eq hzero hresult, ?_⟩
    cases houtcome with
    | refused hnone => exact ⟨.refused, fun hne ↦ absurd rfl hne⟩
    | allotted h' areas' taken b c' hfirst htaken hroom hallotted =>
      rw [if_neg (hallotted.effect.valid.laid.addr_pos hallotted.inner.mem)]
      exact ⟨.served h' areas' b (hallotted.served hv.laid (Nat.pos_of_ne_zero hzero)), fun _ ↦
        ⟨taken, hallotted.taken_mem, hallotted.taken_free,
          (mappingSearch_ge (roundup_mod size) hlimit).trans hroom⟩⟩

theorem tlsfMallocAligned_refused {size align : ℕ}
    (hrefused : roundup size = 0 ∨ 2 ^ 64 - 1 - effectiveAlign align < roundup size) :
    tlsfMallocAligned h size align = .ok (h, 0) :=
  if_pos hrefused

theorem tlsfMallocAligned_eq {h' : Heap} {size align b : ℕ}
    (hok : ¬ (roundup size = 0 ∨ 2 ^ 64 - 1 - effectiveAlign align < roundup size))
    (hresult : tlsfInternMalloc h (roundup size + effectiveAlign align) = .ok (h', b)) :
    tlsfMallocAligned h size align = if b = 0 then .ok (h', 0)
      else if 16 < effectiveAlign align then carveAligned h' b (roundup size) (effectiveAlign align)
      else .ok (h', b + 16) := by
  unfold tlsfMallocAligned
  dsimp only
  rw [if_neg hok, hresult, ok_bind]
  rfl

/-- An aligned block is a block whose contents begin at a multiple of the alignment. -/
theorem tlsfMallocAligned_answer {size align : ℕ} (hv : Valid h areas)
    (hlimit : roundup size = 0 ∨ 2 ^ 64 - 1 - effectiveAlign align < roundup size ∨
      roundup size + effectiveAlign align ≤ largestRequest) :
    ∃ h' p, tlsfMallocAligned h size align = .ok (h', p) ∧ Answer h areas [] (roundup size) h' p ∧
      p % effectiveAlign align = 0 ∧
      (p ≠ 0 → HasRoom areas (roundup size + effectiveAlign align)) := by
  by_cases hrefused : roundup size = 0 ∨ 2 ^ 64 - 1 - effectiveAlign align < roundup size
  · exact ⟨h, 0, tlsfMallocAligned_refused hrefused, .refused, Nat.zero_mod _, fun hne ↦ absurd rfl hne⟩
  · have hle : roundup size + effectiveAlign align ≤ largestRequest :=
      (hlimit.resolve_left fun hzero ↦ hrefused (.inl hzero)).resolve_left
        fun hlarge ↦ hrefused (.inr hlarge)
    have hpos : 0 < roundup size := Nat.pos_of_ne_zero fun hzero ↦ hrefused (.inl hzero)
    obtain ⟨hsixteen, hamod, -, -⟩ := effectiveAlign_spec align
    have hmod := roundup_mod size
    obtain ⟨h₁, areas₁, p, hresult, houtcome⟩ :=
      tlsfInternMalloc_outcome (r := roundup size + effectiveAlign align) hv (by omega) (by omega) hle
    rw [tlsfMallocAligned_eq hrefused hresult]
    cases houtcome with
    | refused hnone => exact ⟨h, 0, rfl, .refused, Nat.zero_mod _, fun hne ↦ absurd rfl hne⟩
    | allotted h₁ areas₁ taken b c' hfirst htaken hroom hallotted =>
      have hasRoom : HasRoom areas (roundup size + effectiveAlign align) :=
        ⟨taken, hallotted.taken_mem, hallotted.taken_free,
          (mappingSearch_ge (by omega) hle).trans hroom⟩
      rw [if_neg (hallotted.effect.valid.laid.addr_pos hallotted.inner.mem)]
      by_cases haligned : 16 < effectiveAlign align
      · rw [if_pos haligned]
        obtain ⟨h', areas', x, hcarve, hpmod, hlow, hhigh, heffect, hinner⟩ :=
          carveAligned_effect hallotted.effect.valid hallotted.inner hallotted.busy hallotted.header hmod
            hamod (by omega) hallotted.room
        have hnot {q : Block} (hq : Inner areas q) (hbusy : q.free = false) : q ∉ [b] := by
          rw [List.mem_singleton]
          rintro rfl
          exact hallotted.fresh hv.laid hq hbusy rfl
        refine ⟨h', x + 16, hcarve, .served h' areas' ⟨x, roundup size, false⟩ ⟨?_, hinner, rfl, le_rfl,
          hpos, fun q hq hbusy hgone ↦ ?_⟩, hpmod, fun _ ↦ hasRoom⟩
        · exact hallotted.effect.trans heffect fun q hq hbusy _ ↦ hnot hq hbusy
        · have hkept := hallotted.effect.kept q hq hbusy hgone
          have hseparate := hallotted.effect.valid.laid.separate hkept.mem hallotted.inner.mem
          intro heq
          dsimp only at heq
          rcases hseparate with rfl | hseparate
          · exact hnot hq hbusy (List.mem_singleton_self _)
          · simp only [Block.stop] at hseparate hhigh
            omega
      · rw [if_neg haligned]
        have hsame : effectiveAlign align = 16 := by omega
        have hserved := hallotted.served hv.laid (by omega)
        refine ⟨h₁, b.addr + 16, rfl, .served h₁ areas₁ b { hserved with room := ?_ }, ?_,
          fun _ ↦ hasRoom⟩
        · exact (Nat.le_add_right _ _).trans hserved.room
        · have hbmod := hserved.effect.valid.laid.addr_mod hserved.inner.mem
          rw [hsame]
          omega

/-! ### Contents -/

/-- The contents of a busy block can be anything. -/
theorem Valid.overwrite {m : ℕ → ℕ} (hv : Valid h areas) (hb : b ∈ allBlocks areas)
    (hbusy : b.free = false) (hmem : ∀ z, z < b.addr + 16 ∨ b.stop ≤ z → m z = h.mem z) :
    Effect h { h with mem := m } areas areas [b] := by
  obtain ⟨chain, hlisted⟩ := hv.listed
  have houtside {q : Block} (hq : q ∈ allBlocks areas) {z : ℕ} (hz : q.addr ≤ z)
      (hside : z < q.addr + 16 ∨ q ≠ b ∧ z < q.stop) : m z = h.mem z := by
    refine hmem z ?_
    have hseparate := hv.laid.separate hq hb
    simp only [Block.stop] at hseparate hside ⊢
    rcases hseparate with rfl | hseparate
    · rcases hside with hside | hside
      · exact .inl hside
      · exact absurd rfl hside.1
    · omega
  have hheader {q : Block} (hq : q ∈ allBlocks areas) :
      m q.addr = h.mem q.addr ∧ m (q.addr + 8) = h.mem (q.addr + 8) :=
    ⟨houtside hq le_rfl (.inl (by omega)), houtside hq (by omega) (.inl (by omega))⟩
  have hlinks {e : ℕ × ℕ} (he : e ∈ listedBlocks (allBlocks areas)) :
      m (e.1 + 16) = h.mem (e.1 + 16) ∧ m (e.1 + 24) = h.mem (e.1 + 24) := by
    have hclear {z : ℕ} (hz : z = e.1 + 16 ∨ z = e.1 + 24) : z < b.addr + 16 ∨ b.stop ≤ z := by
      by_contra hinside
      have hnone := hv.laid.clear_contents (fun q hq ↦ hq) hb hbusy (z := z) (by omega) (by omega) e he
      omega
    exact ⟨hmem _ (hclear (.inl rfl)), hmem _ (hclear (.inr rfl))⟩
  refine ⟨⟨⟨fun x hx ↦ ?_, hv.laid.apart⟩, chain, hlisted.congr (fun e he ↦ hlinks he) rfl rfl rfl rfl⟩,
    fun _ hq _ _ ↦ hq, fun q hq _ hgone z hz hz' ↦ ?_, rfl⟩
  · exact (hv.laid.tiled x hx).congr fun q hq ↦ hheader (List.mem_flatMap.mpr ⟨x, hx, hq⟩)
  · exact houtside hq.mem (by omega) (.inr ⟨fun heq ↦ hgone (List.mem_singleton.mpr heq), hz'⟩)

/-! ### Reallocation -/

theorem Valid.header (hv : Valid h areas) (hb : Inner areas b) :
    ∃ p, Header h b.addr b.size b.free p := by
  obtain ⟨g, rfl⟩ := hv.laid.exists_hole hb
  have hfirst : Behind h.mem g.before b := (List.isChain_cons_cons.mp hv.laid.hole_chain).1
  exact ⟨g.before.free, hfirst.header (hv.laid.size_mod hb.mem) (hv.laid.size_lt hb.mem)⟩

theorem Resized.served {h' : Heap} {areas' : List Area} {size k : ℕ} (hl : Laid h.mem areas)
    (hb : Inner areas b) (hr : Resized h h' areas areas' b size k) (hle : n ≤ size) (hpos : 0 < size) :
    Served h h' areas areas' [b] ⟨b.addr, size, false⟩ n :=
  ⟨hr.effect, hr.inner, rfl, hle, hpos, fun _ hq _ hgone heq ↦
    hgone (List.mem_singleton.mpr (hl.eq_of_addr hq.mem hb.mem heq))⟩

/-- The contents of a block up to `n` bytes are at `p`. -/
def Carried (h h' : Heap) (b : Block) (n p : ℕ) : Prop :=
  ∀ k < min b.size n, h'.mem (p + k) = h.mem (b.addr + 16 + k)

theorem moveBlock_refused {ptr size : ℕ} (hresult : tlsfMalloc h n = .ok (h, 0)) :
    moveBlock h ptr size n = .ok (h, 0) := by
  rw [moveBlock, hresult]
  rfl

theorem moveBlock_eq {h₁ h' : Heap} {ptr size p : ℕ} (hresult : tlsfMalloc h n = .ok (h₁, p)) (hp : p ≠ 0)
    (hfree : tlsfFree (memcpy h₁ p ptr (min size n)) ptr = .ok h') :
    moveBlock h ptr size n = .ok (h', p) := by
  rw [moveBlock, hresult, ok_bind]
  dsimp only
  rw [if_neg hp, hfree]
  rfl

theorem moveBlock_answer (hv : Valid h areas) (hb : Inner areas b) (hbusy : b.free = false)
    (hn : roundup n = n) (hlimit : n ≤ largestRequest) :
    ∃ h' p, moveBlock h (b.addr + 16) b.size n = .ok (h', p) ∧ Answer h areas [b] n h' p ∧
      (p ≠ 0 → Carried h h' b n p) ∧ (p ≠ 0 → HasRoom areas n) := by
  rw [← hn] at hlimit
  obtain ⟨h₁, p, hresult, hanswer, hasRoom⟩ := tlsfMalloc_answer hv hlimit
  rw [hn] at hanswer hasRoom
  cases hanswer with
  | refused =>
    exact ⟨h, 0, moveBlock_refused hresult, .refused, fun hne ↦ absurd rfl hne,
      fun hne ↦ absurd rfl hne⟩
  | served h₁ areas₁ b' hserved =>
    have hkept := hserved.effect.kept b hb hbusy List.not_mem_nil
    have hne : b ≠ b' := by
      rintro rfl
      exact hserved.fresh b hb hbusy List.not_mem_nil rfl
    have hroom := hserved.room
    have hmove := hserved.effect.valid.overwrite (b := b') hserved.inner.mem hserved.busy
      (m := (memcpy h₁ (b'.addr + 16) (b.addr + 16) (min b.size n)).mem) fun z hz ↦ by
        simp only [Block.stop] at hz
        exact if_neg (by omega)
    obtain ⟨h', areas', hfree, heffect⟩ := tlsfFree_effect hmove.valid hkept hbusy
    have hinner := heffect.kept b' hserved.inner hserved.busy
      fun hmem ↦ hne (List.mem_singleton.mp hmem).symm
    refine ⟨h', b'.addr + 16, moveBlock_eq hresult (Nat.succ_ne_zero _) hfree,
      .served h' areas' b' ⟨?_, hinner, hserved.busy, hserved.room, hserved.pos, ?_⟩, fun _ k hk ↦ ?_,
      hasRoom⟩
    · have hmoved := hserved.effect.trans hmove fun q hq hqbusy _ hmem ↦
        hserved.fresh q hq hqbusy List.not_mem_nil (congrArg Block.addr (List.mem_singleton.mp hmem))
      exact (hmoved.mono (List.nil_subset [b])).trans heffect fun q _ _ hgone ↦ hgone
    · exact fun q hq hqbusy _ ↦ hserved.fresh q hq hqbusy List.not_mem_nil
    · have hin : b'.addr + 16 ≤ b'.addr + 16 + k ∧ b'.addr + 16 + k < b'.addr + 16 + min b.size n := by
        omega
      rw [heffect.contents b' hserved.inner hserved.busy
        (fun hmem ↦ hne (List.mem_singleton.mp hmem).symm) _ hin.1 (by simp only [Block.stop]; omega)]
      refine (if_pos hin).trans ?_
      rw [Nat.add_sub_cancel_left]
      exact hserved.effect.contents b hb hbusy List.not_mem_nil _ (by omega)
        (by simp only [Block.stop]; omega)

theorem tlsfRealloc_eq {a size : ℕ} (hn : n ≠ 0) (hsize : getSize h a = .ok size) :
    tlsfRealloc h (a + 16) n = if roundup n = size then .ok (h, a + 16)
      else if roundup n ≤ sub64 size 16 then (shrinkBlock h a (roundup n)).map (·, a + 16)
      else if freeBlock h (a + 16 + size) then do
        let nextSize ← getSize h (a + 16 + size)
        if roundup n ≤ size + nextSize + 16 then (growBlock h a (roundup n)).map (·, a + 16)
        else moveBlock h (a + 16) size (roundup n)
      else moveBlock h (a + 16) size (roundup n) := by
  have hhdr : memToBhdr (a + 16) = a := Nat.add_sub_cancel ..
  have hnext : getNextBhdr a size = a + 16 + size := rfl
  unfold tlsfRealloc
  dsimp only
  rw [if_neg (Nat.succ_ne_zero _), if_neg hn, hhdr, hsize, ok_bind, hnext]
  rfl

/-- The block has room for `n` bytes, or will have together with the free block behind it. -/
def ServedInPlace (h : Heap) (b n : ℕ) : Prop :=
  ∃ size, getSize h b = .ok size ∧ (n ≤ size ∨ freeBlock h (b + 16 + size) = true ∧
    ∃ nextSize, getSize h (b + 16 + size) = .ok nextSize ∧ n ≤ size + nextSize + 16)

theorem tlsfRealloc_answer {size : ℕ} (hv : Valid h areas) (hb : Inner areas b) (hbusy : b.free = false)
    (hpos : 0 < b.size) (hne : size ≠ 0) (hle : size ≤ 2 ^ 64 - 16)
    (hfits : ServedInPlace h b.addr (roundup size) ∨ roundup size ≤ largestRequest) :
    ∃ h' p, tlsfRealloc h (b.addr + 16) size = .ok (h', p) ∧ Answer h areas [b] (roundup size) h' p ∧
      (p ≠ 0 → Carried h h' b (roundup size) p) ∧
      (p ≠ 0 → ServedInPlace h b.addr (roundup size) ∨ HasRoom areas (roundup size)) := by
  obtain ⟨hge, hlt⟩ := roundup_eq hle
  have hmod := roundup_mod size
  have hbmod := hv.laid.size_mod hb.mem
  have hblt := hv.laid.size_lt hb.mem
  obtain ⟨pb, hheader⟩ := hv.header hb
  rw [hbusy] at hheader
  rw [tlsfRealloc_eq hne hheader.getSize, sub64_eq (x := b.size) (y := 16) (by omega) (by omega)]
  set n := roundup size with hn
  have hround : roundup n = n := roundup_roundup (by omega)
  have hplace (hroom : n ≤ b.size) : ServedInPlace h b.addr n := ⟨b.size, hheader.getSize, .inl hroom⟩
  by_cases hsame : n = b.size
  · rw [if_pos hsame]
    refine ⟨h, b.addr + 16, rfl, .served h areas b ⟨.refl hv, hb, hbusy, hsame.le, hpos, ?_⟩,
      fun _ k _ ↦ rfl, fun _ ↦ .inl (hplace hsame.le)⟩
    exact fun q hq _ hgone heq ↦ hgone (List.mem_singleton.mpr (hv.laid.eq_of_addr hq.mem hb.mem heq))
  · rw [if_neg hsame]
    by_cases hshrink : n ≤ b.size - 16
    · rw [if_pos hshrink]
      obtain ⟨h', areas', hresult, hresized⟩ := shrinkBlock_resized hv hb hbusy hmod (by omega)
      rw [hresult]
      refine ⟨h', b.addr + 16, rfl, .served h' areas' ⟨b.addr, n, false⟩
        (hresized.served hv.laid hb le_rfl (by omega)), fun _ k hk ↦ ?_, fun _ ↦ .inl (hplace (by omega))⟩
      exact hresized.contents _ (by omega) (by omega)
    · rw [if_neg hshrink]
      have hmove (hnot : ¬ ServedInPlace h b.addr n) : ∃ h' p,
          moveBlock h (b.addr + 16) b.size n = .ok (h', p) ∧ Answer h areas [b] n h' p ∧
            (p ≠ 0 → Carried h h' b n p) ∧ (p ≠ 0 → ServedInPlace h b.addr n ∨ HasRoom areas n) := by
        obtain ⟨h', p, hresult, hanswer, hcarried, hasRoom⟩ :=
          moveBlock_answer hv hb hbusy hround (hfits.resolve_left hnot)
        exact ⟨h', p, hresult, hanswer, hcarried, fun hp ↦ .inr (hasRoom hp)⟩
      obtain ⟨g, tail, rfl, hbehind, htail⟩ := hv.laid.exists_tail hb
      have hends : g.Ends h tail (b.addr + 16 + b.size) := hv.laid.ends [] hbehind htail
      have hgt : b.size < n := by omega
      obtain ⟨-, ⟨p', hr⟩, htail⟩ := hends
      rcases htail with ⟨rfl, hstop⟩ | ⟨q, p'', rfl, hqfree, hqaddr, -, hq⟩
      · have hnone : freeBlock h (b.addr + 16 + b.size) = false := by
          rw [hstop]
          exact hr.freeBlock
        rw [if_neg (by rw [hnone]; exact Bool.false_ne_true)]
        refine hmove ?_
        rintro ⟨s, hs, hroom⟩
        rw [hheader.getSize] at hs
        cases hs
        rcases hroom with hroom | ⟨hfree, -⟩
        · omega
        · rw [hnone] at hfree
          exact Bool.noConfusion hfree
      · rw [hqaddr] at hq
        rw [if_pos hq.freeBlock, hq.getSize, ok_bind]
        by_cases hroom : n ≤ b.size + q.size + 16
        · rw [if_pos hroom]
          obtain ⟨h', areas', s, hresult, hns, hresized⟩ :=
            growBlock_resized hv hbusy hqfree hbehind hmod hgt hroom
          rw [hresult]
          refine ⟨h', b.addr + 16, rfl, .served h' areas' ⟨b.addr, s, false⟩
            (hresized.served hv.laid hb hns (by omega)), fun _ k hk ↦ ?_, fun _ ↦ .inl ?_⟩
          · exact hresized.contents _ (by omega) (by omega)
          · exact ⟨b.size, hheader.getSize, .inr ⟨hq.freeBlock, q.size, hq.getSize, hroom⟩⟩
        · rw [if_neg hroom]
          refine hmove ?_
          rintro ⟨s, hs, hlarge⟩
          rw [hheader.getSize] at hs
          cases hs
          rcases hlarge with hlarge | ⟨-, t, ht, hlarge⟩
          · omega
          · rw [hq.getSize] at ht
            cases ht
            exact hroom hlarge

/-! ### Memory areas -/

/-- A new area without free blocks, where nothing else is. -/
theorem Valid.addArea {h' : Heap} {area : Area} (hv : Valid h areas) (ha : Tiled h'.mem area)
    (hbusy : ∀ q ∈ area.blocks, q.free = false)
    (hapart : ∀ x ∈ areas, x.stop ≤ area.start ∨ area.stop ≤ x.start)
    (hmem : ∀ z, z < area.start ∨ area.stop ≤ z → h'.mem z = h.mem z) (hmatrix : h'.matrix = h.matrix)
    (hsl : h'.slbitmap = h.slbitmap) (hfl : h'.flbitmap = h.flbitmap)
    (hsize : h'.freeSize = h.freeSize) : Valid h' (area :: areas) := by
  have hold {q : Block} (hq : q ∈ allBlocks areas) {z : ℕ} (hz : q.addr ≤ z) (hz' : z < q.addr + 16) :
      h'.mem z = h.mem z := by
    obtain ⟨x, hx, hqx⟩ := List.mem_flatMap.mp hq
    have hwithin := (hv.laid.tiled x hx).within hqx
    have hside := hapart x hx
    have hle := ha.stop_le
    refine hmem z ?_
    simp only [Block.stop] at hwithin
    omega
  have hlist : listedBlocks (allBlocks (area :: areas)) = listedBlocks (allBlocks areas) := by
    have hnone : listedBlocks area.blocks = [] := by
      refine List.eq_nil_iff_forall_not_mem.mpr fun e he ↦ ?_
      exact Bool.noConfusion (hbusy _ (mem_listedBlocks.mp he).1)
    have hall : allBlocks (area :: areas) = area.blocks ++ allBlocks areas := List.flatMap_cons
    rw [hall, listedBlocks_append, hnone, List.nil_append]
  refine ⟨⟨fun x hx ↦ ?_, List.pairwise_cons.mpr ⟨fun x hx ↦ (hapart x hx).symm, hv.laid.apart⟩⟩, ?_⟩
  · rcases List.mem_cons.mp hx with rfl | hx
    · exact ha
    · refine (hv.laid.tiled x hx).congr fun q hq ↦ ?_
      have hqmem : q ∈ allBlocks areas := List.mem_flatMap.mpr ⟨x, hx, hq⟩
      exact ⟨hold hqmem le_rfl (by omega), hold hqmem (by omega) (by omega)⟩
  · rw [hlist]
    refine hv.listed.imp fun chain hlisted ↦ hlisted.congr (fun e he ↦ ?_) hmatrix hsl hfl hsize
    obtain ⟨hmemq, hne⟩ := mem_listedBlocks.mp he
    obtain ⟨x, hx, hqx⟩ := List.mem_flatMap.mp hmemq
    have hwithin := (hv.laid.tiled x hx).within hqx
    have hmod := hv.laid.size_mod hmemq
    have hside := hapart x hx
    simp only [Block.stop] at hwithin hmod
    exact ⟨hmem _ (by omega), hmem _ (by omega)⟩

/-- The headers of a new area of `size` bytes, a multiple of 16. -/
def withHeaders (h : Heap) (memory size : ℕ) : Heap :=
  let bend := memory + 48 + (size - 64)
  ((((((h.write (memory + 8) 16).write memory 0).write (memory + 32) memory).write (memory + 40)
    (size - 64)).write (bend + 8) 0).write bend (memory + 32)).write (memory + 24) bend

/-- The new area is the first one. -/
def linkArea (h : Heap) (memory size : ℕ) : Heap :=
  { h.write (memory + 16) h.memoryArea with
    memoryArea := memory + 16
    totalSize := h.totalSize + size }

variable {memory size : ℕ}

theorem rounddown_spec (hsize : 64 < size) :
    64 ≤ rounddown size ∧ rounddown size ≤ size ∧ rounddown size % 16 = 0 := by
  rw [rounddown]
  omega

theorem initMemoryArea_eq (h : Heap) (memory : ℕ) (hsize : 64 < size) (hlt : size < 2 ^ 30) :
    initMemoryArea h memory size = .ok (withHeaders h memory (rounddown size), memory + 16) := by
  obtain ⟨hge, hle, hmod⟩ := rounddown_spec hsize
  have hb : Header ((((h.write (memory + 8) 16).write memory 0).write (memory + 16 + 16) memory).write
      (memory + 16 + 16 + 8) (rounddown size - 64)) (memory + 16 + 16) (rounddown size - 64) false
      false := ⟨Heap.write_mem_self _, by omega, by omega⟩
  unfold initMemoryArea
  dsimp only [getNextBhdr]
  rw [hb.getSize, ok_bind]
  rfl

theorem tlsfAddMemory_eq {g : Heap} (hmem : memory ≠ 0) (hsize : 64 < size)
    (hinit : initMemoryArea h memory size = .ok (g, memory + 16))
    (hfirst : getSize (linkArea g memory size) memory = .ok 16) :
    tlsfAddMemory h memory size = tlsfFree (linkArea g memory size) (memory + 48) := by
  have hnone : ¬ (memory = 0 ∨ size ≤ 64) := by omega
  have hhdr : memToBhdr (memory + 16) = memory := Nat.add_sub_cancel ..
  have hnext : getNextBhdr memory 16 = memory + 32 := rfl
  rw [linkArea] at hfirst
  unfold tlsfAddMemory
  rw [if_neg hnone, hinit, ok_bind]
  dsimp only
  rw [hhdr, hfirst, ok_bind, hnext]
  rfl

theorem linkArea_mem (h : Heap) (memory size : ℕ) {s : ℕ} (hs : 64 ≤ s) :
    (linkArea (withHeaders h memory s) memory size).mem (memory + 8) = 16 ∧
      (linkArea (withHeaders h memory s) memory size).mem (memory + 40) = s - 64 ∧
      (linkArea (withHeaders h memory s) memory size).mem (memory + 48 + (s - 64) + 8) = 0 ∧
      ∀ z, z < memory ∨ memory + s ≤ z →
        (linkArea (withHeaders h memory s) memory size).mem z = h.mem z := by
  have hmem : (linkArea (withHeaders h memory s) memory size).mem =
      ((withHeaders h memory s).write (memory + 16) (withHeaders h memory s).memoryArea).mem := rfl
  rw [hmem]
  unfold withHeaders
  dsimp only
  refine ⟨?_, ?_, ?_, fun z hz ↦ ?_⟩
  · iterate 7 rw [Heap.write_mem_of_ne (by omega)]
    exact Heap.write_mem_self _
  · iterate 4 rw [Heap.write_mem_of_ne (by omega)]
    exact Heap.write_mem_self _
  · iterate 3 rw [Heap.write_mem_of_ne (by omega)]
    exact Heap.write_mem_self _
  · iterate 8 rw [Heap.write_mem_of_ne (by omega)]

theorem linkArea_fields (h : Heap) (memory size s : ℕ) :
    (linkArea (withHeaders h memory s) memory size).matrix = h.matrix ∧
      (linkArea (withHeaders h memory s) memory size).slbitmap = h.slbitmap ∧
      (linkArea (withHeaders h memory s) memory size).flbitmap = h.flbitmap ∧
      (linkArea (withHeaders h memory s) memory size).freeSize = h.freeSize := by
  simp [linkArea, withHeaders]

/-- The new area, with one busy block. -/
def newArea (memory size : ℕ) : Area :=
  ⟨memory, memory + size, [⟨memory, 16, false⟩, ⟨memory + 32, size - 64, false⟩,
    ⟨memory + size - 16, 0, false⟩]⟩

theorem newArea_tiled (h : Heap) (size : ℕ) {s : ℕ} (hmod : memory % 16 = 0) (hpos : memory ≠ 0) (hs : 64 ≤ s)
    (hsmod : s % 16 = 0) (hlt : s < 2 ^ 30) :
    Tiled (linkArea (withHeaders h memory s) memory size).mem (newArea memory s) := by
  obtain ⟨hfirst, hblock, hlast, -⟩ := linkArea_mem h memory size hs
  have hend : memory + 48 + (s - 64) = memory + s - 16 := by omega
  rw [hend] at hlast
  refine ⟨rfl, rfl, hfirst, ?_, ?_, hmod, Nat.pos_of_ne_zero hpos, ?_, ?_⟩
  · refine List.isChain_cons_cons.mpr ⟨⟨rfl, fun hfree ↦ Bool.noConfusion hfree.1, hblock,
      fun hfree ↦ Bool.noConfusion hfree⟩, List.isChain_pair.mpr ⟨?_,
      fun hfree ↦ Bool.noConfusion hfree.1, hlast, fun hfree ↦ Bool.noConfusion hfree⟩⟩
    show memory + s - 16 = memory + 32 + 16 + (s - 64)
    omega
  · intro q hq
    rw [newArea, List.mem_cons, List.mem_pair] at hq
    rcases hq with rfl | rfl | rfl
    · exact Nat.mod_self 16
    · show (s - 64) % 16 = 0
      omega
    · exact Nat.zero_mod 16
  · show memory + 32 ≤ memory + s
    omega
  · show memory + s < memory + 2 ^ 30
    omega

/-- The block of a new area is an inner block, and so are those of the other areas. -/
theorem inner_newArea {m : ℕ → ℕ} {s : ℕ} (hl : Laid m (newArea memory s :: areas)) (hs : 64 ≤ s) :
    Inner (newArea memory s :: areas) ⟨memory + 32, s - 64, false⟩ ∧
      ∀ q, Inner areas q → Inner (newArea memory s :: areas) q := by
  have haway {x : Area} (hx : x ∈ areas) : x.stop ≤ memory ∨ memory + s ≤ x.start :=
    ((List.pairwise_cons.mp hl.apart).1 x hx).symm
  have hall : allBlocks (newArea memory s :: areas) = (newArea memory s).blocks ++ allBlocks areas :=
    List.flatMap_cons
  constructor
  · refine ⟨?_, fun x hx heq ↦ ?_, fun x hx heq ↦ ?_⟩
    · rw [hall]
      exact List.mem_append_left _ (List.mem_cons_of_mem _ List.mem_cons_self)
    · dsimp only at heq
      rcases List.mem_cons.mp hx with rfl | hx
      · simp only [newArea] at heq
        omega
      · have hside := haway hx
        have hle := (hl.tiled x (List.mem_cons_of_mem _ hx)).stop_le
        omega
    · simp only [Block.stop] at heq
      rcases List.mem_cons.mp hx with rfl | hx
      · simp only [newArea] at heq
        omega
      · have hside := haway hx
        have hle := (hl.tiled x (List.mem_cons_of_mem _ hx)).stop_le
        omega
  · intro q hq
    obtain ⟨y, hy, hqy⟩ := List.mem_flatMap.mp hq.mem
    have hwithin := (hl.tiled y (List.mem_cons_of_mem _ hy)).within hqy
    have hside := haway hy
    refine ⟨?_, fun x hx heq ↦ ?_, fun x hx heq ↦ ?_⟩
    · rw [hall]
      exact List.mem_append_right _ hq.mem
    · rcases List.mem_cons.mp hx with rfl | hx
      · simp only [newArea, Block.stop] at heq hwithin
        omega
      · exact hq.addr_ne x hx heq
    · rcases List.mem_cons.mp hx with rfl | hx
      · simp only [newArea, Block.stop] at heq hwithin
        omega
      · exact hq.stop_ne x hx heq

theorem tlsfAddMemory_added (hv : Valid h areas) (hmod : memory % 16 = 0) (hpos : memory ≠ 0)
    (hsize : 64 < size) (hlt : size < 2 ^ 30)
    (hapart : ∀ x ∈ areas, x.stop ≤ memory ∨ memory + size ≤ x.start) :
    ∃ h' areas', tlsfAddMemory h memory size = .ok h' ∧ Valid h' areas' ∧
      (∀ q, Inner areas q → q.free = false → Inner areas' q ∧
        ∀ z, q.addr + 16 ≤ z → z < q.stop → h'.mem z = h.mem z) ∧
      areas'.map (fun x ↦ (x.start, x.stop)) =
        (memory, memory + rounddown size) :: areas.map fun x ↦ (x.start, x.stop) := by
  obtain ⟨hge, hle, hsmod⟩ := rounddown_spec hsize
  have hinit := initMemoryArea_eq h memory hsize hlt
  generalize rounddown size = s at *
  obtain ⟨hfirst, -, -, hmem⟩ := linkArea_mem h memory size hge
  obtain ⟨hmatrix, hsl, hfl, hfree⟩ := linkArea_fields h memory size s
  have htiled := newArea_tiled h size hmod hpos hge hsmod (by omega)
  have hheader : Header (linkArea (withHeaders h memory s) memory size) memory 16 false false :=
    ⟨hfirst, Nat.mod_self 16, by omega⟩
  have hresult := tlsfAddMemory_eq hpos hsize hinit hheader.getSize
  generalize linkArea (withHeaders h memory s) memory size = h₁ at *
  have hbusy : ∀ q ∈ (newArea memory s).blocks, q.free = false := by
    intro q hq
    rw [newArea, List.mem_cons, List.mem_pair] at hq
    rcases hq with rfl | rfl | rfl <;> rfl
  have haway : ∀ x ∈ areas, x.stop ≤ (newArea memory s).start ∨ (newArea memory s).stop ≤ x.start := by
    intro x hx
    have hside := hapart x hx
    show x.stop ≤ memory ∨ memory + s ≤ x.start
    omega
  have hv₁ : Valid h₁ (newArea memory s :: areas) :=
    hv.addArea htiled hbusy haway hmem hmatrix hsl hfl hfree
  obtain ⟨hinner, hrest⟩ := inner_newArea hv₁.laid hge
  obtain ⟨h', areas', hfreed, heffect⟩ := tlsfFree_effect hv₁ hinner rfl
  refine ⟨h', areas', hresult.trans hfreed, heffect.valid, fun q hq hqbusy ↦ ?_, heffect.extents⟩
  obtain ⟨y, hy, hqy⟩ := List.mem_flatMap.mp hq.mem
  have hwithin := (hv.laid.tiled y hy).within hqy
  have hside := hapart y hy
  have hne : q ∉ [(⟨memory + 32, s - 64, false⟩ : Block)] := by
    rw [List.mem_singleton]
    rintro rfl
    simp only [Block.stop] at hwithin
    omega
  refine ⟨heffect.kept q (hrest q hq) hqbusy hne, fun z hz hz' ↦ ?_⟩
  rw [heffect.contents q (hrest q hq) hqbusy hne z hz hz']
  exact hmem z (by omega)

end Emu68.Tlsf
