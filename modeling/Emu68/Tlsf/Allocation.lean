import Emu68.Tlsf.Merging

/-!
Taking a block. The search gives a free block with room for the request; it is split if the rest has
room for a header and more. For an aligned block the space in front and behind is given back.
-/

set_option autoImplicit false
set_option relaxedAutoImplicit false

namespace Emu68.Tlsf

variable {h : Heap} {areas : List Area} {g : Hole} {mid : List Block} {m : ℕ → ℕ} {b n s r : ℕ}

/-! ### Splitting -/

theorem splitBlock_split {h₁ h₂ h₃ h' : Heap} {x y : ℕ} (hsize : getSize h b = .ok s)
    (hroom : n + 16 < s) (hx : x = b + 16 + n)
    (hset : setSizeAndFlags (h.write x b) x (s - n - 16) 1 = .ok h₁)
    (hnext : setFreePrevBlock (h₁.write y x) y = h₂) (hshrunk : setSize h₂ b n = .ok h₃)
    (hinsert : insertFreeBlock h₃ x = .ok h') : splitBlock h b n y = .ok h' := by
  have hbehind : getNextBhdr b n = x := hx.symm
  rw [splitBlock, hsize, ok_bind, if_pos hroom, hbehind]
  dsimp only
  rw [hset, ok_bind, hnext, hshrunk, ok_bind, hinsert]

/-- What splitting leaves in the hole: a block with room for the request, and `rest`. -/
structure Split (g : Hole) (mid : List Block) (m : ℕ → ℕ) (h : Heap) (b n size : ℕ)
    (rest : List Block) : Prop where
  working : Working g mid m h (listedBlocks rest)
  header : Header h b size true false
  room : n ≤ size
  size_mod : ∀ q ∈ rest, q.size % 16 = 0
  chain : (⟨b, size, false⟩ :: (rest ++ [g.behind])).IsChain (Behind h.mem)
  addr_le : ∀ q ∈ rest ++ [g.behind], b + 16 + size ≤ q.addr

theorem Working.splitBlock (w : Working g mid m h []) (hb : Header h b s true false)
    (hlow : b = g.before.stop) (hmod : b % 16 = 0) (hstop : b + 16 + s = g.behind.addr)
    (hbusy : g.behind.free = false) (hnext : Header h g.behind.addr g.behind.size false true)
    (hn : n % 16 = 0) (hle : n ≤ s) :
    ∃ h' size rest, splitBlock h b n g.behind.addr = .ok h' ∧ Split g mid m h' b n size rest := by
  have hs := hb.size_mod
  have hlt := hb.size_lt
  have hin {z : ℕ} (hz : b ≤ z) (hz' : z < g.behind.addr + 16) : g.Within z := ⟨by omega, hz'⟩
  by_cases hroom : n + 16 < s
  · set x := b + 16 + n with hx
    set y := g.behind.addr with hy
    set rest := s - n - 16 with hrest
    have hset := setSizeAndFlags_eq (h.write x b) x (s := rest) (by omega) (by omega)
    have w₁ := (w.write (z := x) (v := b) (hin (by omega) (by omega)) clear_nil).write
      (z := x + 8) (v := headerWord rest true false) (hin (by omega) (by omega)) clear_nil
    set h₁ := (h.write x b).write (x + 8) (headerWord rest true false) with hh₁
    have w₂ := (w₁.write (z := y) (v := x) (hin (by omega) (by omega)) clear_nil).write
      (z := y + 8) (v := headerWord g.behind.size false true) (hin (by omega) (by omega)) clear_nil
    have hset₂ := (((hnext.write (a := x) (v := b) (by omega)).write (a := x + 8)
      (v := headerWord rest true false) (by omega)).write (a := y) (v := x) (by omega)).setFreePrevBlock
    set h₂ := (h₁.write y x).write (y + 8) (headerWord g.behind.size false true) with hh₂
    have hb₂ : Header h₂ b s true false := (((hb.write (by omega)).write (by omega)).write
      (by omega)).write (by omega)
    have w₃ := w₂.write (z := b + 8) (v := headerWord n true false) (hin (by omega) (by omega)) clear_nil
    have hset₃ := hb₂.setSize hn (by omega)
    set h₃ := h₂.write (b + 8) (headerWord n true false) with hh₃
    have hx₃ : Header h₃ x rest true false := (((Header.written (h.write x b) x (by omega)
      (by omega)).write (by omega)).write (by omega)).write (by omega)
    obtain ⟨h', hinsert, w', hkeep⟩ := w₃.put hx₃ (by omega) (by omega) (by omega) List.not_mem_nil
    have hkept {z : ℕ} (hz : g.Within z) (hside : z < x + 16 ∨ y ≤ z) : h'.mem z = h₃.mem z :=
      hkeep z hz ((clear_entry (by omega) hx₃.size_mod).append clear_nil)
    rw [show entry x rest ++ [] = listedBlocks [⟨x, rest, true⟩] from (listedBlocks_free x rest []).symm]
      at w'
    refine ⟨h', n, [⟨x, rest, true⟩], splitBlock_split hb.getSize hroom hx hset hset₂ hset₃ hinsert, w',
      ?_, le_rfl, ?_, ?_, ?_⟩
    · refine (Header.written h₂ b hn (by omega)).congr ?_
      exact hkept (hin (by omega) (by omega)) (.inl (by omega))
    · intro q hq
      rw [List.mem_singleton.mp hq]
      exact hx₃.size_mod
    · refine List.isChain_cons_cons.mpr ⟨⟨rfl, fun hfree ↦ Bool.noConfusion hfree.1, ?_,
        fun hfree ↦ Bool.noConfusion hfree⟩, List.isChain_pair.mpr ⟨?_, ?_, ?_, fun _ ↦ ?_⟩⟩
      · show h'.mem (x + 8) = headerWord rest true false
        exact (hkept (hin (by omega) (by omega)) (.inl (by omega))).trans hx₃.word
      · show y = x + 16 + rest
        omega
      · rw [hbusy]
        exact fun hfree ↦ Bool.noConfusion hfree.2
      · rw [hbusy, ← hy, hkept (hin (by omega) (by omega)) (.inr (by omega)), hh₃,
          Heap.write_mem_of_ne (by omega), hh₂, Heap.write_mem_self]
        rfl
      · rw [← hy, hkept (hin (by omega) (by omega)) (.inr le_rfl), hh₃,
          Heap.write_mem_of_ne (by omega), hh₂, Heap.write_mem_of_ne (by omega), Heap.write_mem_self]
    · intro q hq
      rw [List.singleton_append, List.mem_pair] at hq
      rcases hq with rfl | rfl
      · exact hx.ge
      · omega
  · have hset := hnext.setBusyPrevBlock
    have w₁ := w.write (z := g.behind.addr + 8) (v := headerWord g.behind.size false false)
      (hin (by omega) (by omega)) clear_nil
    refine ⟨_, s, [], ?_, w₁, hb.write (by omega), hle, fun q hq ↦ absurd hq List.not_mem_nil, ?_, ?_⟩
    · rw [Tlsf.splitBlock, hb.getSize, ok_bind, if_neg hroom, hset]
      rfl
    · refine List.isChain_pair.mpr ⟨hstop.symm, fun hfree ↦ Bool.noConfusion hfree.1, ?_,
        fun hfree ↦ Bool.noConfusion hfree⟩
      rw [Heap.write_mem_self, hbusy]
      rfl
    · intro q hq
      rw [List.nil_append, List.mem_singleton] at hq
      rw [hq]
      exact hstop.le

/-! ### The first block with room -/

/-- The class `c'` is the first one at or above `c` whose list is not empty. -/
structure FirstList (h : Heap) (c c' : ℕ × ℕ) : Prop where
  inRange : InRange c'
  above : AtOrAbove c c'
  nonempty : h.matrix c' ≠ 0
  minimal : ∀ d, InRange d → AtOrAbove c d → h.matrix d ≠ 0 → AtOrAbove c' d

variable {chain : ℕ × ℕ → List ℕ} {free : List (ℕ × ℕ)} {c c' : ℕ × ℕ}

/-- The lists that are not empty are those with a first block. -/
theorem Listed.matrix_ne (hl : Listed h chain free) (hc : InRange c) :
    h.matrix c ≠ 0 ↔ chain c ≠ [] := by
  rw [hl.first c hc]
  have hnull := (hl.linked c hc).null_notMem
  cases hlist : chain c with
  | nil => exact ⟨fun hne ↦ absurd rfl hne, fun hne ↦ absurd rfl hne⟩
  | cons x rest =>
    rw [hlist] at hnull
    exact ⟨fun _ ↦ List.cons_ne_nil _ _, fun _ hzero ↦ hnull (hzero ▸ List.mem_cons_self)⟩

/-- The first block of the first list has room for the least size of the class. -/
theorem FirstFrom.exists_block (hl : Listed h chain free) (hc : InRange c) (hf : FirstFrom chain c c') :
    FirstList h c c' ∧ ∃ s, (h.matrix c', s) ∈ free ∧ classOf s = c' ∧ lowest c ≤ s := by
  refine ⟨⟨hf.inRange, hf.above, (hl.matrix_ne hf.inRange).mpr hf.nonempty, fun d hd habove hne ↦
    hf.minimal d hd habove ((hl.matrix_ne hd).mp hne)⟩, ?_⟩
  have hmem : h.matrix c' ∈ chain c' := by
    rw [hl.first c' hf.inRange]
    cases hlist : chain c' with
    | nil => exact absurd hlist hf.nonempty
    | cons x rest => exact List.mem_cons_self
  obtain ⟨s, hs, hclass⟩ := (hl.mem_iff c' hf.inRange _).mp hmem
  refine ⟨s, hs, hclass, (hf.above.lowest_le hc.2).trans ?_⟩
  rw [← hclass]
  exact lowest_le s

/-! ### Allocation without alignment -/

/-- A busy block has been made where `taken` was, with room for the request. -/
structure Allotted (h h' : Heap) (areas areas' : List Area) (taken b : Block) (n : ℕ) : Prop where
  effect : Effect h h' areas areas' []
  taken_mem : taken ∈ allBlocks areas
  taken_free : taken.free = true
  addr : b.addr = taken.addr
  inner : Inner areas' b
  busy : b.free = false
  room : n ≤ b.size
  header : Header h' b.addr b.size false false

theorem tlsfInternMalloc_eq {h₁ h₂ : Heap} {r' : ℕ} (hsearch : mappingSearch r = (r', (c.1 : ℤ), (c.2 : ℤ)))
    (hfind : findSuitableBlock h c.1 c.2 = .ok (b, c')) (hb : b ≠ 0) (hsize : getSize h b = .ok s)
    (hremove : removeHeader h b c'.1 c'.2 = .ok h₁)
    (hsplit : splitBlock h₁ b r' (b + 16 + s) = .ok h₂) :
    tlsfInternMalloc h r = .ok (((setBusyBlock h₂ b).write (b + 24) 0).write (b + 16) 0, b) := by
  have hnext : getNextBhdr b s = b + 16 + s := rfl
  rw [tlsfInternMalloc, hsearch]
  dsimp only
  rw [hfind, ok_bind]
  dsimp only
  rw [if_neg hb, hsize, ok_bind, hremove, ok_bind, hnext, hsplit]
  rfl

theorem tlsfInternMalloc_none {r' b' : ℕ} (hsearch : mappingSearch r = (r', (c.1 : ℤ), (c.2 : ℤ)))
    (hfind : findSuitableBlock h c.1 c.2 = .ok (0, b', n)) : tlsfInternMalloc h r = .ok (h, 0) := by
  rw [tlsfInternMalloc, hsearch]
  dsimp only
  rw [hfind, ok_bind]
  rfl

/-- The split block becomes busy, and its links are erased. -/
theorem Split.allot {block : Block} {h' : Heap} {size : ℕ} {rest : List Block} (hbusy : g.before.free = false)
    (hfree : block.free = true) (haddr : block.addr = g.before.stop)
    (hs : Split g [block] h.mem h' block.addr n size rest) (hpos : 0 < n) :
    ∃ areas', Allotted h (((setBusyBlock h' block.addr).write (block.addr + 24) 0).write
      (block.addr + 16) 0) (g.fill [block]) areas' block ⟨block.addr, size, false⟩ n := by
  set b := block.addr with hb
  have hmod := hs.header.size_mod
  have hroom := hs.room
  have hlast := hs.addr_le g.behind (List.mem_append_right _ (List.mem_singleton_self _))
  have hclear {z : ℕ} (hz : z < b + 32) : Clear (listedBlocks rest) z := by
    rintro ⟨a, t⟩ he
    have hle := hs.addr_le _ (List.mem_append_left _ (mem_listedBlocks.mp he).1)
    dsimp only at hle ⊢
    omega
  have hin {z : ℕ} (hz : b ≤ z) (hz' : z < b + 32) : g.Within z := ⟨by omega, by omega⟩
  have w := ((hs.working.write (z := b + 8) (v := headerWord size false false)
    (hin (by omega) (by omega)) (hclear (by omega))).write (z := b + 24) (v := 0)
    (hin (by omega) (by omega)) (hclear (by omega))).write (z := b + 16) (v := 0)
    (hin (by omega) (by omega)) (hclear (by omega))
  have hset := hs.header.setBusyBlock
  rw [hset]
  set h₃ := ((h'.write (b + 8) (headerWord size false false)).write (b + 24) 0).write (b + 16) 0 with hh₃
  have hold {z : ℕ} (hz : b + 32 ≤ z) : h₃.mem z = h'.mem z := by
    rw [hh₃, Heap.write_mem_of_ne (by omega), Heap.write_mem_of_ne (by omega),
      Heap.write_mem_of_ne (by omega)]
  have hheader : Header h₃ b size false false :=
    ((Header.written h' b hmod hs.header.size_lt).write (by omega)).write (by omega)
  have hchain : (⟨b, size, false⟩ :: (rest ++ [g.behind])).IsChain (Behind h₃.mem) := by
    refine isChain_behind_congr hs.chain fun q hq ↦ ?_
    have hle := hs.addr_le q hq
    exact ⟨hold (by omega), hold (by omega)⟩
  rw [← listedBlocks_busy b size rest] at w
  have heffect := w.effect [] rfl (List.isChain_cons_cons.mpr ⟨⟨haddr, fun hfree ↦
    Bool.noConfusion hfree.2, by rw [hbusy]; exact hheader.word, fun hfree ↦ by
      rw [hbusy] at hfree
      exact Bool.noConfusion hfree⟩, hchain⟩) (List.forall_mem_cons.mpr ⟨hmod, hs.size_mod⟩) ?_
  · exact ⟨_, heffect, Hole.mem_fill.mpr (.inl (List.mem_singleton_self _)), hfree, rfl,
      heffect.valid.laid.inner_mid List.mem_cons_self, rfl, hroom, hheader⟩
  · intro q hq hqbusy
    rw [List.mem_singleton.mp hq, hfree] at hqbusy
    exact Bool.noConfusion hqbusy

/-- A listed block is taken out of its list, split, and becomes busy. -/
theorem Valid.allot (hv : Valid h areas) {block : Block} (hmem : block ∈ allBlocks areas)
    (hfree : block.free = true) (hn : n % 16 = 0) (hpos : 0 < n) (hle : n ≤ block.size) {fl sl : ℤ}
    (hslot : slot fl sl = .ok (classOf block.size)) :
    ∃ h₁ h₂ areas' b, getSize h block.addr = .ok block.size ∧
      removeHeader h block.addr fl sl = .ok h₁ ∧
      splitBlock h₁ block.addr n (block.addr + 16 + block.size) = .ok h₂ ∧
      Allotted h (((setBusyBlock h₂ block.addr).write (block.addr + 24) 0).write (block.addr + 16) 0) areas
        areas' block b n := by
  obtain ⟨g, rfl⟩ := hv.laid.exists_hole (hv.laid.inner_of_free hmem hfree)
  obtain ⟨hfirst, hchain⟩ := List.isChain_cons_cons.mp hv.laid.hole_chain
  have hlast : Behind h.mem block g.behind := (List.isChain_cons_cons.mp hchain).1
  have hbefore : g.before.free = false :=
    Bool.eq_false_of_not_eq_true fun hbefore ↦ hfirst.coalesced ⟨hbefore, hfree⟩
  have hbehind : g.behind.free = false :=
    Bool.eq_false_of_not_eq_true fun hbehind ↦ hlast.coalesced ⟨hfree, hbehind⟩
  have hrmem : g.behind ∈ allBlocks (g.fill [block]) := Hole.others_subset Hole.behind_mem
  have hb₀ := hfirst.header (hv.laid.size_mod hmem) (hv.laid.size_lt hmem)
  have hr₀ := hlast.header (hv.laid.size_mod hrmem) (hv.laid.size_lt hrmem)
  rw [hfree, hbefore] at hb₀
  rw [hfree, hbehind] at hr₀
  have hmod := hv.laid.addr_mod hmem
  have hlow : block.addr = g.before.stop := hfirst.addr
  have hstop : block.addr + 16 + block.size = g.behind.addr := hlast.addr.symm
  have hw := hv.working rfl
  have hlist : listedBlocks [block] = entry block.addr block.size ++ [] := by
    obtain ⟨addr, size, free⟩ := block
    dsimp only at hfree
    subst hfree
    exact listedBlocks_free ..
  rw [hlist] at hw
  obtain ⟨h₁, hremove, w₁, hkeep₁⟩ := hw.take hb₀ fun _ ↦ hslot
  have hold {z : ℕ} (hz : block.addr ≤ z) (hz' : z < g.behind.addr + 16) : h₁.mem z = h.mem z :=
    hkeep₁ z ⟨hlow ▸ hz, hz'⟩ clear_nil
  obtain ⟨h₂, size, rest, hsplit, hs⟩ := w₁.splitBlock (hb₀.congr (hold (by omega) (by omega))) hlow hmod
    hstop hbehind (hr₀.congr (hold (by omega) (by omega))) hn hle
  obtain ⟨areas', hallotted⟩ := hs.allot hbefore hfree hlow hpos
  exact ⟨h₁, h₂, areas', _, hb₀.getSize, hremove, hstop ▸ hsplit, hallotted⟩

/-- The outcome of a request: no free block has room for the request rounded up to `r'`, or the block is
taken from the first list that is not empty. -/
inductive Outcome (h : Heap) (areas : List Area) (r r' : ℕ) : Heap → List Area → ℕ → Prop
  | refused (hnone : ∀ q ∈ allBlocks areas, q.free = true → q.size < r') :
      Outcome h areas r r' h areas 0
  | allotted (h' : Heap) (areas' : List Area) (taken b : Block) (c' : ℕ × ℕ)
      (hfirst : FirstList h (classOf r') c') (htaken : h.matrix c' = taken.addr)
      (hroom : r' ≤ taken.size) (hallotted : Allotted h h' areas areas' taken b r) :
      Outcome h areas r r' h' areas' b.addr

/-- A request within the limit is served as `Outcome` says. -/
theorem tlsfInternMalloc_outcome (hv : Valid h areas) (hr : r % 16 = 0) (hpos : 0 < r)
    (hlimit : r ≤ largestRequest) :
    ∃ h' areas' p, tlsfInternMalloc h r = .ok (h', p) ∧
      Outcome h areas r (mappingSearch r).1 h' areas' p := by
  obtain ⟨r', hsearch, hle, hr', hlt, hlowest⟩ := mappingSearch_spec hr hlimit
  have hfst : (mappingSearch r).1 = r' := by rw [hsearch]
  rw [hfst]
  have hrange : InRange (classOf r') := classOf_inRange hlt
  obtain ⟨chain, hlisted⟩ := hv.listed
  rcases hlisted.find hrange with ⟨hfind, hempty⟩ | ⟨c', hfind, hfirst⟩
  · refine ⟨h, areas, 0, tlsfInternMalloc_none hsearch hfind, .refused fun q hq hfree ↦ ?_⟩
    by_contra hlarge
    have hne : q.size ≠ 0 := by omega
    have hqmem : (q.addr, q.size) ∈ listedBlocks (allBlocks areas) := by
      refine mem_listedBlocks.mpr ⟨?_, hne⟩
      rw [← hfree]
      exact hq
    have hqrange := hlisted.inRange hqmem
    have hmem := (hlisted.mem_iff _ hqrange q.addr).mpr ⟨q.size, hqmem, rfl⟩
    rw [hempty _ hqrange (classOf_mono (Nat.le_of_not_lt hlarge))] at hmem
    exact List.not_mem_nil hmem
  · obtain ⟨hfirstList, s, hs, hclass, hroom⟩ := hfirst.exists_block hlisted hrange
    rw [hlowest] at hroom
    obtain ⟨hblock, -⟩ := mem_listedBlocks.mp hs
    have hslot : slot c'.1 c'.2 = .ok (classOf s) := by
      rw [hclass]
      exact slot_ok hfirst.inRange
    obtain ⟨h₁, h₂, areas', b, hsize, hremove, hsplit, hallotted⟩ :=
      hv.allot hblock rfl hr' (by omega) hroom hslot
    refine ⟨_, areas', b.addr, ?_, .allotted _ areas' _ b c' hfirstList rfl hroom
      { hallotted with room := hle.trans hallotted.room }⟩
    rw [hallotted.addr]
    exact tlsfInternMalloc_eq hsearch hfind hfirstList.nonempty hsize hremove hsplit

/-! ### Aligned blocks -/

/-- The space in front of an aligned block is free, if there is any. -/
structure Front (g : Hole) (mid : List Block) (m : ℕ → ℕ) (h : Heap) (x size : ℕ) (front : List Block)
    (free : List (ℕ × ℕ)) : Prop where
  working : Working g mid m h (listedBlocks front ++ free)
  chain : (g.before :: (front ++ [⟨x, size, false⟩])).IsChain (Behind h.mem)
  blocks : ∀ q ∈ front, q = ⟨g.before.stop, x - g.before.stop - 16, true⟩ ∧ g.before.stop + 16 ≤ x

theorem freeFront_eq {h₁ h₂ h₃ h' : Heap} {x : ℕ} (hne : x ≠ b) (hle : 16 ≤ x - b)
    (hset : setSize h b (x - b - 16) = .ok h₁) (hprev : setFreePrevBlock (h₁.write x b) x = h₂)
    (hfree : setFreeBlock h₂ b = h₃) (hmerge : mergePrev h₃ b = .ok (h₃, b))
    (hinsert : insertFreeBlock h₃ b = .ok h') : freeFront h b x = .ok h' := by
  rw [freeFront, if_pos ⟨hne, hle⟩, hset, ok_bind]
  dsimp only
  rw [hprev, hfree, hmerge, ok_bind]
  exact hinsert

theorem Working.freeFront {x size bsize : ℕ} {p : Bool} (w : Working g mid m h free)
    (hb : x ≠ b → Header h b bsize false false) (hx : Header h x size false p) (hp : x = b → p = false)
    (hlow : b = g.before.stop) (hbusy : g.before.free = false) (hbx : b ≤ x) (hbmod : b % 16 = 0)
    (hxmod : x % 16 = 0) (hhigh : x + 16 + size ≤ g.behind.addr) (hshort : x < b + 2 ^ 30)
    (hclear : ∀ z, z < x + 16 → Clear free z) :
    ∃ h' front, freeFront h b x = .ok h' ∧ Front g mid m h' x size front free ∧
      ∀ z, x + 16 ≤ z → z < g.behind.addr + 16 → Clear free z → h'.mem z = h.mem z := by
  by_cases hxb : x = b
  · have hword := hx.word
    rw [hp hxb] at hword
    subst hxb
    refine ⟨h, [], ?_, ⟨w, ?_, fun q hq ↦ absurd hq List.not_mem_nil⟩, fun z _ _ _ ↦ rfl⟩
    · exact if_neg fun hne ↦ hne.1 rfl
    · refine List.isChain_pair.mpr ⟨hlow, fun hfree ↦ Bool.noConfusion hfree.2, ?_, fun hfree ↦ ?_⟩
      · rw [hbusy]
        exact hword
      · rw [hbusy] at hfree
        exact Bool.noConfusion hfree
  · have hin {z : ℕ} (hz : b ≤ z) (hz' : z < x + 16) : g.Within z := ⟨by omega, by omega⟩
    have hb₀ := hb hxb
    have hset := hb₀.setSize (t := x - b - 16) (by omega) (by omega)
    have w₁ := w.write (z := b + 8) (v := headerWord (x - b - 16) false false) (hin (by omega) (by omega))
      (hclear _ (by omega))
    set h₁ := h.write (b + 8) (headerWord (x - b - 16) false false) with hh₁
    have hb₁ : Header h₁ b (x - b - 16) false false := Header.written h b (by omega) (by omega)
    have w₂ := (w₁.write (z := x) (v := b) (hin (by omega) (by omega)) (hclear _ (by omega))).write
      (z := x + 8) (v := headerWord size false true) (hin (by omega) (by omega)) (hclear _ (by omega))
    have hx₁ : Header (h₁.write x b) x size false p := (hx.write (by omega)).write (by omega)
    have hprev := hx₁.setFreePrevBlock
    set h₂ := (h₁.write x b).write (x + 8) (headerWord size false true) with hh₂
    have hb₂ : Header h₂ b (x - b - 16) false false := (hb₁.write (by omega)).write (by omega)
    have w₃ := w₂.write (z := b + 8) (v := headerWord (x - b - 16) true false) (hin (by omega) (by omega))
      (hclear _ (by omega))
    have hfree := hb₂.setFreeBlock
    set h₃ := h₂.write (b + 8) (headerWord (x - b - 16) true false) with hh₃
    have hb₃ : Header h₃ b (x - b - 16) true false := Header.written h₂ b (by omega) (by omega)
    have hnew : b ∉ free.map Prod.fst := by
      intro hmem
      obtain ⟨e, he, rfl⟩ := List.mem_map.mp hmem
      exact (hclear (e.1 + 16) (by omega) e he).1 rfl
    obtain ⟨h', hinsert, w', hkeep⟩ := w₃.put hb₃ hbmod (by omega) (by omega) hnew
    have hkept {z : ℕ} (hz : b ≤ z) (hz' : z < g.behind.addr + 16) (hside : z < b + 16 ∨ x ≤ z)
        (hfree : Clear free z) : h'.mem z = h₃.mem z :=
      hkeep z ⟨by omega, hz'⟩ ((clear_entry (by omega) hb₃.size_mod).append hfree)
    refine ⟨h', [⟨b, x - b - 16, true⟩], freeFront_eq hxb (by omega) hset hprev hfree (mergePrev_busy hb₃)
      hinsert, ⟨?_, ?_, ?_⟩, fun z hz hz' hfree ↦ ?_⟩
    · rw [listedBlocks_free, List.append_assoc]
      exact w'
    · refine List.isChain_cons_cons.mpr ⟨⟨hlow, ?_, ?_, ?_⟩, List.isChain_pair.mpr ⟨?_, ?_, ?_, fun _ ↦ ?_⟩⟩
      · rw [hbusy]
        exact fun hfree ↦ Bool.noConfusion hfree.1
      · rw [hbusy]
        show h'.mem (b + 8) = headerWord (x - b - 16) true false
        exact (hkept (by omega) (by omega) (.inl (by omega)) (hclear _ (by omega))).trans hb₃.word
      · rw [hbusy]
        exact fun hfree ↦ Bool.noConfusion hfree
      · show x = b + 16 + (x - b - 16)
        omega
      · exact fun hfree ↦ Bool.noConfusion hfree.2
      · show h'.mem (x + 8) = headerWord size false true
        rw [hkept (by omega) (by omega) (.inr (by omega)) (hclear _ (by omega)), hh₃,
          Heap.write_mem_of_ne (by omega), hh₂, Heap.write_mem_self]
      · show h'.mem x = b
        rw [hkept (by omega) (by omega) (.inr le_rfl) (hclear _ (by omega)), hh₃,
          Heap.write_mem_of_ne (by omega), hh₂, Heap.write_mem_of_ne (by omega), Heap.write_mem_self]
    · intro q hq
      rw [List.mem_singleton.mp hq, ← hlow]
      exact ⟨rfl, by omega⟩
    · rw [hkept (by omega) hz' (.inr (by omega)) hfree, hh₃, Heap.write_mem_of_ne (by omega), hh₂,
        Heap.write_mem_of_ne (by omega), Heap.write_mem_of_ne (by omega), hh₁,
        Heap.write_mem_of_ne (by omega)]

theorem freeBack_eq {h₁ h₂ h₃ h₄ h' : Heap} {x y size diff : ℕ} (hle : 16 ≤ diff)
    (hsize : getSize h x = .ok size) (hy : y = x + 16 + size)
    (hset : setSize (h.write y x) y (diff - 16) = .ok h₁) (hprev : setBusyPrevBlock h₁ y = h₂)
    (hfree : setFreeBlock h₂ y = h₃) (hmerge : mergeNext h₃ y = .ok h₄)
    (hannounce : announceFree h₄ y = .ok h') : freeBack h x diff = .ok h' := by
  have hbehind : getNextBhdr x size = y := hy.symm
  rw [freeBack, if_pos hle, hsize, ok_bind, hbehind]
  dsimp only
  rw [hset, ok_bind, hprev, hfree, hmerge, ok_bind, hannounce]

/-- The space behind an aligned block becomes free, and the hole is in order again. -/
theorem Front.freeBack {h' : Heap} {x size diff : ℕ} {front tail : List Block} {block : Block}
    (hf : Front g (block :: tail) h.mem h' x size front (listedBlocks tail))
    (htail : tail = [] ∨ ∃ n, tail = [n] ∧ n.free = true) (hlow : g.before.stop ≤ x)
    (hmod : x % 16 = 0) (hsize : size % 16 = 0) (hdiff : 16 ≤ diff) (hdmod : diff % 16 = 0)
    (hends : g.Ends h' tail (x + 16 + size + diff)) (hle : x + 16 + size + diff ≤ g.behind.addr)
    (hlt : g.behind.addr < x + 2 ^ 30) :
    ∃ h'' areas', freeBack h' x diff = .ok h'' ∧
      Effect h h'' (g.fill (block :: tail)) areas' [block] ∧ Inner areas' ⟨x, size, false⟩ := by
  have hchain := hf.chain
  obtain ⟨p, hx⟩ : ∃ p, Header h' x size false p := by
    rcases List.eq_nil_or_concat front with rfl | ⟨init, q, rfl⟩
    · exact ⟨g.before.free, (List.isChain_pair.mp hchain).length, hsize, by omega⟩
    · rw [List.concat_eq_append, List.append_assoc, ← List.cons_append] at hchain
      exact ⟨q.free, (List.isChain_append_cons_cons.mp hchain).2.1.length, hsize, by omega⟩
  have hbmod : g.before.stop % 16 = 0 := by
    have haddr := hf.working.laid.addr_mod (Hole.others_subset (g := g) Hole.before_mem)
    have hbsize := hf.working.laid.size_mod (Hole.others_subset (g := g) Hole.before_mem)
    rw [Block.stop]
    omega
  have hclear {z : ℕ} (hz : x ≤ z) : Clear (listedBlocks front) z := by
    rintro ⟨a, s⟩ he
    obtain ⟨hmem, hne⟩ := mem_listedBlocks.mp he
    obtain ⟨heq, hroom⟩ := hf.blocks _ hmem
    have haddr : a = g.before.stop := congrArg Block.addr heq
    have hs : s = x - g.before.stop - 16 := congrArg Block.size heq
    dsimp only
    omega
  have hin {z : ℕ} (hz : x ≤ z) (hz' : z < g.behind.addr + 16) : g.Within z := ⟨by omega, hz'⟩
  set y := x + 16 + size with hy
  have hall {z : ℕ} (hz : x ≤ z) (hz' : z < y + diff + 16) :
      Clear (listedBlocks tail ++ listedBlocks front) z := (hends.clear hz').append (hclear hz)
  have w := hf.working.perm List.perm_append_comm
  obtain ⟨f₁, p₁, hset⟩ := setSize_garbage (h'.write y x) y (s := diff - 16) (by omega) (by omega)
  have w₁ := (w.write (z := y) (v := x) (hin (by omega) (by omega)) (hall (by omega) (by omega))).write
    (z := y + 8) (v := headerWord (diff - 16) f₁ p₁) (hin (by omega) (by omega))
    (hall (by omega) (by omega))
  set h₁ := (h'.write y x).write (y + 8) (headerWord (diff - 16) f₁ p₁) with hh₁
  have hy₁ : Header h₁ y (diff - 16) f₁ p₁ := Header.written _ y (by omega) (by omega)
  have w₂ := w₁.write (z := y + 8) (v := headerWord (diff - 16) f₁ false) (hin (by omega) (by omega))
    (hall (by omega) (by omega))
  have hprev := hy₁.setBusyPrevBlock
  set h₂ := h₁.write (y + 8) (headerWord (diff - 16) f₁ false) with hh₂
  have hy₂ : Header h₂ y (diff - 16) f₁ false := Header.written _ y (by omega) (by omega)
  have w₃ := w₂.write (z := y + 8) (v := headerWord (diff - 16) true false) (hin (by omega) (by omega))
    (hall (by omega) (by omega))
  have hfree := hy₂.setFreeBlock
  set h₃ := h₂.write (y + 8) (headerWord (diff - 16) true false) with hh₃
  have hy₃ : Header h₃ y (diff - 16) true false := Header.written _ y (by omega) (by omega)
  have hold {z : ℕ} (hz : z ≠ y) (hz' : z ≠ y + 8) : h₃.mem z = h'.mem z := by
    rw [hh₃, Heap.write_mem_of_ne hz', hh₂, Heap.write_mem_of_ne hz', hh₁, Heap.write_mem_of_ne hz',
      Heap.write_mem_of_ne hz]
  have hends₃ : g.Ends h₃ tail (y + 16 + (diff - 16)) := by
    have hstop : y + 16 + (diff - 16) = y + diff := by omega
    rw [hstop]
    exact hends.congr fun z hz _ _ ↦ hold (by omega) (by omega)
  obtain ⟨h₄, h'', s', hmerge, hannounce, w', -, hmod', hword, hlast, hkeep⟩ :=
    w₃.release hy₃ (by omega) (by omega) hends₃ (by omega) fun z hz ↦ hclear (by omega)
  have hkept {z : ℕ} (hz : g.before.stop ≤ z) (hz' : z < y) (hfree : Clear (listedBlocks front) z) :
      h''.mem z = h'.mem z :=
    (hkeep z ⟨hz, by omega⟩ (by omega) (by omega) hfree).trans (hold (by omega) (by omega))
  have hlist : (entry y s' ++ listedBlocks front).Perm
      (listedBlocks (front ++ [⟨x, size, false⟩, ⟨y, s', true⟩])) := by
    rw [listedBlocks_append, listedBlocks_busy, listedBlocks_free]
    exact List.perm_append_comm.trans (List.Perm.append_left _ (by rw [listedBlocks]; simp))
  have hresult := freeBack_eq hdiff hx.getSize hy hset hprev hfree hmerge hannounce
  have heffect := (w'.perm hlist).effect [block] rfl ?_ ?_ (gone_surrounding (.inl rfl) htail)
  · refine ⟨h'', _, hresult, heffect, heffect.valid.laid.inner_mid ?_⟩
    exact List.mem_append_right _ List.mem_cons_self
  · rw [List.append_assoc, List.cons_append, List.isChain_cons_split]
    refine ⟨isChain_behind_congr hchain fun q hq ↦ ?_, List.isChain_cons_cons.mpr ⟨⟨rfl,
      fun hfree ↦ Bool.noConfusion hfree.1, hword, fun hfree ↦ Bool.noConfusion hfree⟩,
      List.isChain_pair.mpr hlast⟩⟩
    rw [List.tail_cons, List.mem_append, List.mem_singleton] at hq
    rcases hq with hq | rfl
    · obtain ⟨rfl, hroom⟩ := hf.blocks q hq
      have hheader {z : ℕ} (hz : z < g.before.stop + 16) : Clear (listedBlocks front) z := by
        rintro ⟨a, s⟩ he
        have haddr : a = g.before.stop := congrArg Block.addr (hf.blocks _ (mem_listedBlocks.mp he).1).1
        dsimp only
        omega
      dsimp only
      exact ⟨hkept le_rfl (by omega) (hheader (by omega)),
        hkept (by omega) (by omega) (hheader (by omega))⟩
    · dsimp only
      exact ⟨hkept hlow (by omega) (hclear le_rfl), hkept (by omega) (by omega) (hclear (by omega))⟩
  · intro q hq
    rw [List.mem_append, List.mem_pair] at hq
    rcases hq with hq | rfl | rfl
    · obtain ⟨rfl, hroom⟩ := hf.blocks q hq
      show (x - g.before.stop - 16) % 16 = 0
      omega
    · exact hsize
    · exact hmod'

theorem carveAligned_eq {h₁ h₂ h₃ h' : Heap} {x size align bsize diff ptr : ℕ}
    (hptr : (b + 16 + align - 1) / align * align = ptr) (hx : memToBhdr ptr = x)
    (hsize : getSize h b = .ok bsize) (hdiff : sub64 (b + 16 + bsize) (x + 16 + size) = diff)
    (hset : setSize h x size = .ok h₁) (hbusy : setBusyBlock h₁ x = h₂)
    (hfront : freeFront h₂ b x = .ok h₃) (hback : freeBack h₃ x diff = .ok h') :
    carveAligned h b size align = .ok (h', ptr) := by
  have hnext (a s : ℕ) : getNextBhdr a s = a + 16 + s := rfl
  rw [carveAligned, hptr]
  dsimp only
  rw [hx, hsize, ok_bind, hset, ok_bind, hbusy, hfront, ok_bind, hnext, hnext, hdiff, hback]
  rfl

/-- The first multiple of the alignment behind the header. -/
theorem alignedPtr_spec {align ptr : ℕ} (halign : align % 16 = 0) (hpos : 0 < align)
    (hptr : ptr % 16 = 0) :
    (ptr + align - 1) / align * align % align = 0 ∧ ptr ≤ (ptr + align - 1) / align * align ∧
      (ptr + align - 1) / align * align + 16 ≤ ptr + align ∧
      (ptr + align - 1) / align * align % 16 = 0 := by
  have hmod := Nat.mod_lt (ptr + align - 1) hpos
  have hdiv := Nat.div_add_mod' (ptr + align - 1) align
  have hsixteen : (ptr + align - 1) / align * align % 16 = 0 := by
    rw [Nat.mul_mod, halign, Nat.mul_zero, Nat.zero_mod]
  exact ⟨Nat.mul_mod_left _ _, by omega, by omega, hsixteen⟩

/-- A block that the predecessor does not say to be free has no free block before it. -/
theorem lead_eq_nil {block : Block} {lead tail : List Block}
    (hl : Laid h.mem (g.fill (lead ++ block :: tail)))
    (hheader : Header h block.addr block.size false false) (hbusy : block.free = false)
    (hlead : lead = [] ∨ ∃ p, lead = [p] ∧ p.free = true) : lead = [] := by
  refine hlead.resolve_right ?_
  rintro ⟨p, rfl, hfree⟩
  obtain ⟨-, hchain⟩ := List.isChain_cons_cons.mp hl.hole_chain
  have hlength := (List.isChain_cons_cons.mp hchain).1.length
  rw [hheader.word, headerWord, hbusy, hfree] at hlength
  simp at hlength

theorem carveAligned_effect {block : Block} {size align : ℕ} (hv : Valid h areas)
    (hblock : Inner areas block) (hbusy : block.free = false)
    (hheader : Header h block.addr block.size false false) (hsize : size % 16 = 0)
    (halign : align % 16 = 0) (hpos : 0 < align) (hroom : size + align ≤ block.size) :
    ∃ h' areas' x, carveAligned h block.addr size align = .ok (h', x + 16) ∧ (x + 16) % align = 0 ∧
      block.addr ≤ x ∧ x + 16 + size ≤ block.stop ∧ Effect h h' areas areas' [block] ∧
      Inner areas' ⟨x, size, false⟩ := by
  obtain ⟨g, lead, tail, rfl, hbefore, hbehind, hlead, htail⟩ := hv.laid.exists_surrounding hblock
  have hnil := lead_eq_nil hv.laid hheader hbusy hlead
  subst hnil
  have hends := hv.laid.ends [] hbehind htail
  have hfirst : Behind h.mem g.before block := (List.isChain_cons_cons.mp hv.laid.hole_chain).1
  obtain ⟨-, hhigh⟩ := hv.laid.mid_within (List.mem_cons_self (a := block) (l := tail))
  have hshort := hv.laid.hole_short
  have hlow : block.addr = g.before.stop := hfirst.addr
  have hbmod := hv.laid.addr_mod mem_surrounding
  have hbsize := hheader.size_mod
  have hlt := hheader.size_lt
  set b := block.addr with hb
  have hptrmod : (b + 16) % 16 = 0 := by omega
  obtain ⟨hpalign, hple, hpge, hp16⟩ := alignedPtr_spec halign hpos hptrmod
  obtain ⟨x, hx⟩ : ∃ x, x + 16 = (b + 16 + align - 1) / align * align :=
    ⟨(b + 16 + align - 1) / align * align - 16, by omega⟩
  rw [← hx] at hpalign hple hpge hp16
  have hstop : block.stop = b + 16 + block.size := rfl
  rw [hstop] at hends hhigh
  simp only [Block.stop] at hshort
  simp only [Block.stop] at hlow
  have hw := hv.working rfl
  have hlist : listedBlocks (block :: tail) = listedBlocks tail :=
    listedBlocks_surrounding [] _ hbusy
  rw [List.nil_append, hlist] at hw
  obtain ⟨f, p, hset, hp⟩ : ∃ f p, setSize h x size = .ok (h.write (x + 8) (headerWord size f p)) ∧
      (x = b → p = false) := by
    by_cases hxb : x = b
    · rw [hxb]
      exact ⟨false, false, hheader.setSize hsize (by omega), fun _ ↦ rfl⟩
    · obtain ⟨f, p, hset⟩ := setSize_garbage h x hsize (by omega)
      exact ⟨f, p, hset, fun heq ↦ absurd heq hxb⟩
  have hin {z : ℕ} (hz : b ≤ z) (hz' : z < b + 16 + block.size) : g.Within z :=
    ⟨by simp only [Block.stop]; omega, by omega⟩
  have w₁ := hw.write (z := x + 8) (v := headerWord size f p) (hin (by omega) (by omega))
    (hends.clear (by omega))
  set h₁ := h.write (x + 8) (headerWord size f p) with hh₁
  have hx₁ : Header h₁ x size f p := Header.written h x hsize (by omega)
  have w₂ := w₁.write (z := x + 8) (v := headerWord size false p) (hin (by omega) (by omega))
    (hends.clear (by omega))
  have hset₂ := hx₁.setBusyBlock
  set h₂ := h₁.write (x + 8) (headerWord size false p) with hh₂
  have hx₂ : Header h₂ x size false p := Header.written h₁ x hsize (by omega)
  have hb₂ (hxb : x ≠ b) : Header h₂ b block.size false false := (hheader.write (by omega)).write (by omega)
  have hends₂ : g.Ends h₂ tail (b + 16 + block.size) := hends.congr fun y hy _ _ ↦ by
    rw [hh₂, Heap.write_mem_of_ne (by omega), hh₁, Heap.write_mem_of_ne (by omega)]
  obtain ⟨h₃, front, hfront, hf, hkeep⟩ := w₂.freeFront hb₂ hx₂ hp hlow hbefore (by omega) hbmod
    (by omega) (by omega) (by omega) fun z hz ↦ hends₂.clear (by omega)
  have hdiff : b + 16 + block.size = x + 16 + size + (b + block.size - x - size) := by omega
  have hends₃ : g.Ends h₃ tail (x + 16 + size + (b + block.size - x - size)) := by
    rw [← hdiff]
    exact hends₂.congr fun y hy hy' hclear ↦ hkeep y (by omega) hy' hclear
  obtain ⟨h', areas', hback, heffect, hinner⟩ := hf.freeBack htail (by simp only [Block.stop]; omega)
    (by omega) hsize (by omega) (by omega) hends₃ (by omega) (by omega)
  refine ⟨h', areas', x, ?_, hpalign, by omega, by omega, heffect, hinner⟩
  refine carveAligned_eq hx.symm (Nat.add_sub_cancel ..) hheader.getSize ?_ hset hset₂ hfront hback
  rw [sub64_eq (x := b + 16 + block.size) (y := x + 16 + size) (by omega) (by omega)]
  omega

end Emu68.Tlsf
