import Emu68.Tlsf.Headers

/-!
Joining a block with its free neighbours. What an operation has done to the blocks of a hole is an
`Effect`: the heap is valid again, and the other busy blocks are where they were, with their contents.
-/

set_option autoImplicit false
set_option relaxedAutoImplicit false

namespace Emu68.Tlsf

variable {h h' h'' : Heap} {a b s t x z : ℕ} {f p p' : Bool} {g : Hole} {mid new : List Block}
  {m : ℕ → ℕ} {free : List (ℕ × ℕ)} {areas areas' areas'' : List Area}

theorem slot_of_header (hh : Header h a s f p) :
    s ≠ 0 → slot (mappingInsert s).1 (mappingInsert s).2 = .ok (classOf s) :=
  fun _ ↦ slot_mappingInsert hh.size_lt

theorem mergePrev_busy (hh : Header h b s f false) : mergePrev h b = .ok (h, b) := by
  rw [mergePrev, hh.freePrevBlock]
  rfl

theorem mergeNext_busy (hh : Header h b s f p) (hnext : Header h (b + 16 + s) t false p') :
    mergeNext h b = .ok h := by
  have hbusy : freeBlock h (getNextBhdr b s) = false := hnext.freeBlock
  simp only [mergeNext, hh.getSize, bind, Except.bind, hbusy, Bool.false_eq_true, if_false]
  rfl

namespace Working

/-- A block joins the free block before. -/
theorem mergePrev_free (w : Working g mid m h (entry a s ++ free)) (ha : Header h a s true p)
    (hb : Header h b t f true) (hprev : h.mem b = a) (hstop : b = a + 16 + s)
    (hlow : g.before.stop ≤ a) (hhigh : b + 16 + t ≤ g.behind.addr) (hlt : s + t + 16 < 2 ^ 30)
    (hclear : ∀ z, a ≤ z → z < b + 16 → Clear free z) :
    ∃ h', mergePrev h b = .ok (h', a) ∧ Working g mid m h' free ∧ Header h' a (s + t + 16) true p ∧
      ∀ z, g.Within z → z ≠ a + 8 → Clear free z → h'.mem z = h.mem z := by
  obtain ⟨h₁, htake, w₁, hkeep⟩ := w.take ha (slot_of_header ha)
  have hin {z : ℕ} (hz : a ≤ z) (hz' : z < b + 16) : g.Within z := ⟨by omega, by omega⟩
  have ha₁ := ha.congr (hkeep (a + 8) (hin (by omega) (by omega)) (hclear _ (by omega) (by omega)))
  have hb₁ := hb.congr (hkeep (b + 8) (hin (by omega) (by omega)) (hclear _ (by omega) (by omega)))
  have hmod : (s + t + 16) % 16 = 0 := by
    have hs := ha.size_mod
    have ht := hb.size_mod
    omega
  refine ⟨_, ?_, w₁.write (hin (by omega) (by omega)) (hclear _ (by omega) (by omega)),
    Header.written h₁ a hmod hlt, fun z hz hne hfree ↦ ?_⟩
  · simp only [mergePrev, hb.freePrevBlock, if_true, hprev, ha.getSize, bind, Except.bind, htake,
      ha₁.merge hb₁ hlt]
    rfl
  · exact (Heap.write_mem_of_ne hne).trans (hkeep z hz hfree)

/-- A block joins the free block behind. -/
theorem mergeNext_free (w : Working g mid m h (entry a s ++ free)) (hx : Header h x t f p)
    (ha : Header h a s true p') (hstop : a = x + 16 + t) (hlow : g.before.stop ≤ x)
    (hhigh : a + 16 + s ≤ g.behind.addr) (hlt : t + s + 16 < 2 ^ 30)
    (hclear : ∀ z, x ≤ z → Clear free z) :
    ∃ h', mergeNext h x = .ok h' ∧ Working g mid m h' free ∧ Header h' x (t + s + 16) f p ∧
      ∀ z, g.Within z → z ≠ x + 8 → Clear free z → h'.mem z = h.mem z := by
  obtain ⟨h₁, htake, w₁, hkeep⟩ := w.take ha (slot_of_header ha)
  have hin {z : ℕ} (hz : x ≤ z) (hz' : z < a + 16) : g.Within z := ⟨by omega, by omega⟩
  have hx₁ := hx.congr (hkeep (x + 8) (hin (by omega) (by omega)) (hclear _ (by omega)))
  have ha₁ := ha.congr (hkeep (a + 8) (hin (by omega) (by omega)) (hclear _ (by omega)))
  have hmod : (t + s + 16) % 16 = 0 := by
    have hs := ha.size_mod
    have ht := hx.size_mod
    omega
  refine ⟨_, ?_, w₁.write (hin (by omega) (by omega)) (hclear _ (by omega)),
    Header.written h₁ x hmod hlt, fun z hz hne hfree ↦ ?_⟩
  · have hnext : getNextBhdr x t = a := hstop.symm
    simp only [mergeNext, hx.getSize, bind, Except.bind, hnext, ha.freeBlock, if_true, ha.getSize, htake,
      hx₁.merge ha₁ hlt]
  · exact (Heap.write_mem_of_ne hne).trans (hkeep z hz hfree)

/-- The block at the end of a hole is announced as free. -/
theorem announce (w : Working g mid m h free) (hx : Header h x s true p) (hmod : x % 16 = 0)
    (hlow : g.before.stop ≤ x) (hstop : x + 16 + s = g.behind.addr) (hbusy : g.behind.free = false)
    (hbehind : Header h g.behind.addr g.behind.size false p') (hclear : ∀ z, x ≤ z → Clear free z) :
    ∃ h', announceFree h x = .ok h' ∧ Working g mid m h' (entry x s ++ free) ∧
      Behind h'.mem ⟨x, s, true⟩ g.behind ∧
      ∀ z, g.Within z → z < x + 16 → Clear free z → h'.mem z = h.mem z := by
  set y := g.behind.addr with hy
  have hin {z : ℕ} (hz : x ≤ z) (hz' : z < y + 16) : g.Within z := ⟨by omega, hz'⟩
  have w₁ := (w.write (z := y) (hin (by omega) (by omega)) (hclear _ (by omega)) (v := x)).write
    (v := headerWord g.behind.size false true) (hin (z := y + 8) (by omega) (by omega))
    (hclear _ (by omega))
  set h₁ := (h.write y x).write (y + 8) (headerWord g.behind.size false true) with hh₁
  have hset : setFreePrevBlock (h.write y x) y = h₁ :=
    (hbehind.write (by omega)).setFreePrevBlock
  have hold {z : ℕ} (hz : z < y) : h₁.mem z = h.mem z := by
    rw [hh₁, Heap.write_mem_of_ne (by omega), Heap.write_mem_of_ne (by omega)]
  have hx₁ : Header h₁ x s true p := hx.congr (hold (by omega))
  have hnew : x ∉ free.map Prod.fst := by
    intro hmem
    obtain ⟨e, he, rfl⟩ := List.mem_map.mp hmem
    exact (hclear (e.1 + 16) (by omega) e he).1 rfl
  obtain ⟨h₂, hput, w₂, hkeep⟩ := w₁.put hx₁ hmod hlow hstop.le hnew
  have hlast {z : ℕ} (hz : y ≤ z) (hz' : z < y + 16) : h₂.mem z = h₁.mem z := by
    refine hkeep z (hin (by omega) hz') ((clear_entry ?_ hx.size_mod).append (hclear z (by omega)))
    omega
  refine ⟨h₂, ?_, w₂, ⟨hstop.symm, ?_, ?_, fun _ ↦ ?_⟩, fun z hz hlt hfree ↦ ?_⟩
  · have hnext : getNextBhdr x s = y := hstop
    simp only [announceFree, hx.getSize, bind, Except.bind, hnext, hset]
    exact hput
  · rw [hbusy]
    exact fun hfree ↦ Bool.noConfusion hfree.2
  · rw [hlast (by omega) (by omega), hh₁, Heap.write_mem_self, hbusy]
    rfl
  · rw [hlast le_rfl (by omega), hh₁, Heap.write_mem_of_ne (by omega), Heap.write_mem_self]
  · exact (hkeep z hz ((clear_entry (by omega) hx.size_mod).append hfree)).trans (hold (by omega))

end Working

/-- From `y` on there is at most a free block in the hole, and then the busy block behind it. -/
structure Hole.Ends (g : Hole) (h : Heap) (tail : List Block) (y : ℕ) : Prop where
  busy : g.behind.free = false
  behind : ∃ p, Header h g.behind.addr g.behind.size false p
  tail : tail = [] ∧ y = g.behind.addr ∨ ∃ n p, tail = [n] ∧ n.free = true ∧ n.addr = y ∧
    n.stop = g.behind.addr ∧ Header h n.addr n.size true p

theorem Hole.Ends.clear {tail : List Block} {y : ℕ} (he : g.Ends h tail y) (hz : z < y + 16) :
    Clear (listedBlocks tail) z := by
  rcases he.tail with ⟨rfl, -⟩ | ⟨⟨addr, size, nfree⟩, p, rfl, hfree, haddr, -, hn⟩
  · exact clear_nil
  · dsimp only at hfree haddr hn
    subst hfree haddr
    rw [listedBlocks_free]
    exact (clear_entry (.inl hz) hn.size_mod).append clear_nil

theorem Hole.Ends.congr {tail : List Block} (he : g.Ends h tail z)
    (hkeep : ∀ y, z ≤ y → y < g.behind.addr + 16 → Clear (listedBlocks tail) y → h'.mem y = h.mem y) :
    g.Ends h' tail z := by
  obtain ⟨hbusy, ⟨p, hbehind⟩, htail⟩ := he
  rcases htail with ⟨rfl, hstop⟩ | ⟨n, p', rfl, hfree, haddr, hstop, hn⟩
  · exact ⟨hbusy, ⟨p, hbehind.congr (hkeep _ (by omega) (by omega) clear_nil)⟩, .inl ⟨rfl, hstop⟩⟩
  · obtain ⟨addr, size, nfree⟩ := n
    dsimp only at hfree haddr hn
    subst hfree
    have hlist : listedBlocks [⟨addr, size, true⟩] = entry addr size := by
      rw [listedBlocks_free]
      exact List.append_nil _
    simp only [Block.stop] at hstop
    rw [hlist] at hkeep
    refine ⟨hbusy, ⟨p, hbehind.congr (hkeep _ (by omega) (by omega) (clear_entry (by omega) hn.size_mod))⟩,
      .inr ⟨_, p', rfl, rfl, haddr, hstop, ?_⟩⟩
    exact hn.congr (hkeep _ (by omega) (by omega) (clear_entry (by omega) hn.size_mod))

/-- A free block at the end of a hole joins the free block behind it, if there is one, and is announced.
-/
theorem Working.release {tail : List Block} (w : Working g mid m h (listedBlocks tail ++ free))
    (hx : Header h x s true p) (hmod : x % 16 = 0) (hlow : g.before.stop ≤ x)
    (hends : g.Ends h tail (x + 16 + s)) (hlt : g.behind.addr < x + 2 ^ 30)
    (hclear : ∀ z, x ≤ z → Clear free z) :
    ∃ h₁ h' s', mergeNext h x = .ok h₁ ∧ announceFree h₁ x = .ok h' ∧
      Working g mid m h' (entry x s' ++ free) ∧ x + 16 + s' = g.behind.addr ∧ s' % 16 = 0 ∧
      h'.mem (x + 8) = headerWord s' true p ∧ Behind h'.mem ⟨x, s', true⟩ g.behind ∧
      ∀ z, g.Within z → z < x + 16 → z ≠ x + 8 → Clear free z → h'.mem z = h.mem z := by
  obtain ⟨hbusy, ⟨p', hbehind⟩, htail⟩ := hends
  rcases htail with ⟨rfl, hstop⟩ | ⟨n, p'', rfl, hnfree, hnaddr, hnstop, hn⟩
  · have hnext : Header h (x + 16 + s) g.behind.size false p' := hstop ▸ hbehind
    obtain ⟨h', hannounce, w', hlast, hkeep⟩ := w.announce hx hmod hlow hstop hbusy hbehind hclear
    refine ⟨h, h', s, mergeNext_busy hx hnext, hannounce, w', hstop, hx.size_mod, ?_, hlast,
      fun z hz hzx _ hfree ↦ hkeep z hz hzx hfree⟩
    exact (hkeep _ ⟨by omega, by omega⟩ (by omega) (hclear _ (by omega))).trans hx.word
  · obtain ⟨addr, size, nfree⟩ := n
    dsimp only at hnfree hnaddr hn
    subst hnfree
    simp only [Block.stop] at hnstop
    rw [listedBlocks_free, List.append_assoc] at w
    have hsum : x + 16 + (s + size + 16) = g.behind.addr := by omega
    obtain ⟨h₁, hmerge, w₁, hx₁, hkeep₁⟩ :=
      w.mergeNext_free hx hn hnaddr hlow hnstop.le (by omega) hclear
    have hbehind₁ := hbehind.congr
      (hkeep₁ (g.behind.addr + 8) ⟨by omega, by omega⟩ (by omega) (hclear _ (by omega)))
    obtain ⟨h', hannounce, w', hlast, hkeep⟩ :=
      w₁.announce hx₁ hmod hlow hsum hbusy hbehind₁ hclear
    refine ⟨h₁, h', s + size + 16, hmerge, hannounce, w', hsum, hx₁.size_mod, ?_, hlast,
      fun z hz hzx hne hfree ↦ (hkeep z hz hzx hfree).trans (hkeep₁ z hz hne hfree)⟩
    exact (hkeep _ ⟨by omega, by omega⟩ (by omega) (hclear _ (by omega))).trans hx₁.word

/-! ### Effects -/

/-- The busy blocks but `gone` are where they were, with their contents. -/
structure Effect (h h' : Heap) (areas areas' : List Area) (gone : List Block) : Prop where
  valid : Valid h' areas'
  kept : ∀ q, Inner areas q → q.free = false → q ∉ gone → Inner areas' q
  contents : ∀ q, Inner areas q → q.free = false → q ∉ gone →
    ∀ z, q.addr + 16 ≤ z → z < q.stop → h'.mem z = h.mem z
  extents : areas'.map (fun x ↦ (x.start, x.stop)) = areas.map fun x ↦ (x.start, x.stop)

variable {gone gone' : List Block}

theorem Effect.refl (hv : Valid h areas) : Effect h h areas areas gone :=
  ⟨hv, fun _ hq _ _ ↦ hq, fun _ _ _ _ _ _ _ ↦ rfl, rfl⟩

theorem Effect.mono (he : Effect h h' areas areas' gone) (hsub : gone ⊆ gone') :
    Effect h h' areas areas' gone' :=
  ⟨he.valid, fun q hq hbusy hnot ↦ he.kept q hq hbusy fun hmem ↦ hnot (hsub hmem),
    fun q hq hbusy hnot ↦ he.contents q hq hbusy fun hmem ↦ hnot (hsub hmem), he.extents⟩

theorem Effect.trans (he : Effect h h' areas areas' gone) (he' : Effect h' h'' areas' areas'' gone')
    (hgone : ∀ q, Inner areas q → q.free = false → q ∉ gone → q ∉ gone') :
    Effect h h'' areas areas'' gone where
  valid := he'.valid
  kept q hq hbusy hnot := he'.kept q (he.kept q hq hbusy hnot) hbusy (hgone q hq hbusy hnot)
  contents q hq hbusy hnot z hz hz' :=
    (he'.contents q (he.kept q hq hbusy hnot) hbusy (hgone q hq hbusy hnot) z hz hz').trans
      (he.contents q hq hbusy hnot z hz hz')
  extents := he'.extents.trans he.extents

/-- The work in a hole is done. -/
theorem Working.effect (gone : List Block) (w : Working g mid m h' (listedBlocks new)) (hm : m = h.mem)
    (hchain : (g.before :: (new ++ [g.behind])).IsChain (Behind h'.mem))
    (hsize : ∀ b ∈ new, b.size % 16 = 0) (hgone : ∀ b ∈ mid, b.free = false → b ∈ gone) :
    Effect h h' (g.fill mid) (g.fill new) gone := by
  subst hm
  have hothers {q : Block} (hq : Inner (g.fill mid) q) (hbusy : q.free = false) (hnot : q ∉ gone) :
      q ∈ g.others :=
    (Hole.mem_fill.mp hq.mem).resolve_left fun hmid ↦ hnot (hgone q hmid hbusy)
  refine ⟨w.finish hchain hsize, fun q hq hbusy hnot ↦ hq.refill (hothers hq hbusy hnot),
    fun q hq hbusy hnot z hz hz' ↦ w.keeps.contents w.laid (hothers hq hbusy hnot) hbusy hz hz', ?_⟩
  simp [Hole.fill, Hole.filled]

/-! ### Blocks of a valid heap -/

theorem Laid.size_lt {b : Block} (hl : Laid m areas) (hb : b ∈ allBlocks areas) : b.size < 2 ^ 30 := by
  obtain ⟨x, hx, hbx⟩ := List.mem_flatMap.mp hb
  have hwithin := (hl.tiled x hx).within hbx
  have hshort := (hl.tiled x hx).short
  simp only [Block.stop] at hwithin
  omega

theorem Laid.hole_short (hl : Laid m (g.fill mid)) : g.behind.stop < g.before.addr + 2 ^ 30 := by
  have htiled := hl.tiled (g.filled mid) (by simp [Hole.fill])
  have hbefore := htiled.within (b := g.before) (by simp [Hole.filled])
  have hbehind := htiled.within (b := g.behind) (by simp [Hole.filled])
  have hshort := htiled.short
  omega

/-- The header of a block behind another one. -/
theorem Behind.header {q r : Block} (hb : Behind h.mem q r) (hmod : r.size % 16 = 0)
    (hlt : r.size < 2 ^ 30) : Header h r.addr r.size r.free q.free :=
  ⟨hb.length, hmod, hlt⟩

/-- The end of a hole in a valid heap. -/
theorem Laid.ends {b : Block} {tail : List Block} (lead : List Block)
    (hl : Laid h.mem (g.fill (lead ++ b :: tail)))
    (hbusy : g.behind.free = false) (htail : tail = [] ∨ ∃ n, tail = [n] ∧ n.free = true) :
    g.Ends h tail b.stop := by
  have hmem {q : Block} (hq : q = g.behind ∨ q ∈ tail) : q ∈ allBlocks (g.fill (lead ++ b :: tail)) := by
    refine Hole.mem_fill.mpr ?_
    rcases hq with rfl | hq
    · exact .inr Hole.behind_mem
    · exact .inl (List.mem_append_right _ (List.mem_cons_of_mem _ hq))
  have hchain := hl.hole_chain
  rw [List.append_assoc, List.cons_append, List.isChain_cons_split] at hchain
  have hend := hchain.2
  rcases htail with rfl | ⟨n, rfl, hfree⟩
  · have hlast : Behind h.mem b g.behind := (List.isChain_cons_cons.mp hend).1
    refine ⟨hbusy, ⟨b.free, ?_⟩, .inl ⟨rfl, hlast.addr.symm⟩⟩
    rw [← hbusy]
    exact hlast.header (hl.size_mod (hmem (.inl rfl))) (hl.size_lt (hmem (.inl rfl)))
  · obtain ⟨hfirst, hend⟩ := List.isChain_cons_cons.mp hend
    have hlast : Behind h.mem n g.behind := (List.isChain_cons_cons.mp hend).1
    have hn : n ∈ [n] := List.mem_singleton_self n
    refine ⟨hbusy, ⟨n.free, ?_⟩, .inr ⟨n, b.free, rfl, hfree, hfirst.addr, hlast.addr.symm, ?_⟩⟩
    · rw [← hbusy]
      exact hlast.header (hl.size_mod (hmem (.inl rfl))) (hl.size_lt (hmem (.inl rfl)))
    · rw [← hfree]
      exact hfirst.header (hl.size_mod (hmem (.inr hn))) (hl.size_lt (hmem (.inr hn)))

/-- The whole hole becomes one free block. -/
theorem Working.freed {tail : List Block} (w : Working g mid h.mem h' (listedBlocks tail))
    (hx : Header h' x s true false) (hfirst : x = g.before.stop) (hbefore : g.before.free = false)
    (hends : g.Ends h' tail (x + 16 + s)) (hgone : ∀ b ∈ mid, b.free = false → b ∈ gone) :
    ∃ h₁ h₂ s', mergeNext h' x = .ok h₁ ∧ announceFree h₁ x = .ok h₂ ∧
      Effect h h₂ (g.fill mid) (g.fill [⟨x, s', true⟩]) gone := by
  have hmod : x % 16 = 0 := by
    have haddr := w.laid.addr_mod (Hole.others_subset Hole.before_mem)
    have hsize := w.laid.size_mod (Hole.others_subset Hole.before_mem)
    rw [hfirst, Block.stop]
    omega
  have hshort := w.laid.hole_short
  have hlt : g.behind.addr < x + 2 ^ 30 := by
    simp only [Block.stop] at hshort hfirst
    omega
  have w' := w
  rw [← List.append_nil (listedBlocks tail)] at w'
  obtain ⟨h₁, h₂, s', hmerge, hannounce, w₂, -, hmod', hword, hlast, -⟩ :=
    w'.release hx hmod hfirst.ge hends hlt fun _ _ ↦ clear_nil
  rw [show entry x s' ++ [] = listedBlocks [⟨x, s', true⟩] from (listedBlocks_free x s' []).symm] at w₂
  refine ⟨h₁, h₂, s', hmerge, hannounce, w₂.effect gone rfl ?_ ?_ hgone⟩
  · refine List.isChain_cons_cons.mpr ⟨⟨hfirst, ?_, ?_, ?_⟩, List.isChain_pair.mpr hlast⟩
    · rw [hbefore]
      exact fun hfree ↦ Bool.noConfusion hfree.1
    · rw [hbefore]
      exact hword
    · rw [hbefore]
      exact fun hfree ↦ Bool.noConfusion hfree
  · intro b hb
    rw [List.mem_singleton.mp hb]
    exact hmod'

/-! ### A block and its neighbours -/

variable {b : Block}

/-- The hole with a block and the free block behind it. -/
theorem Laid.exists_tail (hl : Laid m areas) (hb : Inner areas b) :
    ∃ (g : Hole) (tail : List Block), areas = g.fill (b :: tail) ∧ g.behind.free = false ∧
      (tail = [] ∨ ∃ n, tail = [n] ∧ n.free = true) := by
  obtain ⟨g₀, rfl⟩ := hl.exists_hole hb
  obtain ⟨g, tail, hareas, -, hbehind, htail⟩ := hl.widen_behind
  exact ⟨g, tail, hareas.symm, hbehind, htail⟩

/-- The hole with a block and its free neighbours. -/
theorem Laid.exists_surrounding (hl : Laid m areas) (hb : Inner areas b) :
    ∃ (g : Hole) (lead tail : List Block), areas = g.fill (lead ++ b :: tail) ∧
      g.before.free = false ∧ g.behind.free = false ∧ (lead = [] ∨ ∃ p, lead = [p] ∧ p.free = true) ∧
      (tail = [] ∨ ∃ n, tail = [n] ∧ n.free = true) := by
  obtain ⟨g₀, tail, rfl, hbehind, htail⟩ := hl.exists_tail hb
  obtain ⟨g, lead, hareas, hsame, hbefore, hlead⟩ := hl.widen_before
  exact ⟨g, lead, tail, hareas.symm, hbefore, hsame.symm ▸ hbehind, hlead, htail⟩

theorem mem_surrounding {lead tail : List Block} :
    b ∈ allBlocks (g.fill (lead ++ b :: tail)) :=
  Hole.mem_fill.mpr (.inl (List.mem_append_right _ List.mem_cons_self))

theorem listedBlocks_surrounding (lead tail : List Block) (hbusy : b.free = false) :
    listedBlocks (lead ++ b :: tail) = listedBlocks lead ++ listedBlocks tail := by
  obtain ⟨addr, size, free⟩ := b
  dsimp only at hbusy
  subst hbusy
  rw [listedBlocks_append, listedBlocks_busy]

/-- The busy blocks among a block and its free neighbours. -/
theorem gone_surrounding {lead tail : List Block} (hlead : lead = [] ∨ ∃ p, lead = [p] ∧ p.free = true)
    (htail : tail = [] ∨ ∃ n, tail = [n] ∧ n.free = true) :
    ∀ q ∈ lead ++ b :: tail, q.free = false → q ∈ [b] := by
  intro q hq hbusy
  rw [List.mem_append, List.mem_cons] at hq
  rw [List.mem_singleton]
  have hfree {l : List Block} (hl : l = [] ∨ ∃ p, l = [p] ∧ p.free = true) (hq : q ∈ l) : False := by
    rcases hl with rfl | ⟨p, rfl, hp⟩
    · exact List.not_mem_nil hq
    · rw [List.mem_singleton.mp hq, hp] at hbusy
      exact Bool.noConfusion hbusy
  rcases hq with hq | hq | hq
  · exact (hfree hlead hq).elim
  · exact hq
  · exact (hfree htail hq).elim

end Emu68.Tlsf
