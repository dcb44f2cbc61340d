import Emu68.Tlsf.Layout

/-!
Work in a hole. An operation writes headers between the block before the hole and the header behind
it, takes blocks of the hole out of their lists and puts others in. `Working` is what holds in between,
and `Working.finish` what is left of it when the headers in the hole agree again.
-/

set_option autoImplicit false
set_option relaxedAutoImplicit false

namespace Emu68.Tlsf

variable {h : Heap} {a b s t x z : ℕ} {f p : Bool}

theorem ok_bind {α β : Type} (v : α) (k : α → Except Stop β) : (Except.ok v >>= k) = k v := rfl

theorem sub64_eq {y : ℕ} (hle : y ≤ x) (hlt : x - y < 2 ^ 64) : sub64 x y = x - y := by
  have hsum : x + 2 ^ 64 - y = x - y + 2 ^ 64 := Nat.sub_add_comm hle
  rw [sub64, hsum, Nat.add_mod_right]
  exact Nat.mod_eq_of_lt hlt

/-! ### Words of a header -/

def headerWord (size : ℕ) (free prevFree : Bool) : ℕ := size + free.toNat + 2 * prevFree.toNat

/-- What the length at `b` says. -/
structure Header (h : Heap) (b size : ℕ) (free prevFree : Bool) : Prop where
  word : h.mem (b + 8) = headerWord size free prevFree
  size_mod : size % 16 = 0
  size_lt : size < 2 ^ 30

@[simp]
theorem Heap.write_mem_self (v : ℕ) : (h.write a v).mem a = v := Function.update_self ..

@[simp]
theorem Heap.write_matrix (h : Heap) (a v : ℕ) : (h.write a v).matrix = h.matrix := rfl

@[simp]
theorem Heap.write_slbitmap (h : Heap) (a v : ℕ) : (h.write a v).slbitmap = h.slbitmap := rfl

@[simp]
theorem Heap.write_flbitmap (h : Heap) (a v : ℕ) : (h.write a v).flbitmap = h.flbitmap := rfl

@[simp]
theorem Heap.write_freeSize (h : Heap) (a v : ℕ) : (h.write a v).freeSize = h.freeSize := rfl

theorem Heap.write_mem_of_ne {v : ℕ} (hz : z ≠ a) : (h.write a v).mem z = h.mem z :=
  Function.update_of_ne hz ..

theorem headerWord_div (hs : s % 16 = 0) : headerWord s f p / 4 * 4 = s := by
  cases f <;> cases p <;> simp [headerWord] <;> omega

theorem headerWord_mod (hs : s % 16 = 0) : headerWord s f p % 4 = f.toNat + 2 * p.toNat := by
  cases f <;> cases p <;> simp [headerWord] <;> omega

namespace Header

theorem write (hh : Header h b s f p) {v : ℕ} (hne : b + 8 ≠ a) : Header (h.write a v) b s f p :=
  ⟨(Heap.write_mem_of_ne hne).trans hh.word, hh.size_mod, hh.size_lt⟩

theorem congr {h' : Heap} (hh : Header h b s f p) (hword : h'.mem (b + 8) = h.mem (b + 8)) :
    Header h' b s f p :=
  ⟨hword.trans hh.word, hh.size_mod, hh.size_lt⟩

theorem written (h : Heap) (b : ℕ) (hs : s % 16 = 0) (hlt : s < 2 ^ 30) :
    Header (h.write (b + 8) (headerWord s f p)) b s f p :=
  ⟨Heap.write_mem_self _, hs, hlt⟩

theorem getSize (hh : Header h b s f p) : getSize h b = .ok s := by
  have hlt := hh.size_lt
  rw [Tlsf.getSize, hh.word, headerWord_div hh.size_mod]
  exact if_neg (by omega)

theorem setSize (hh : Header h b s f p) (ht : t % 16 = 0) (hlt : t < 2 ^ 30) :
    setSize h b t = .ok (h.write (b + 8) (headerWord t f p)) := by
  have hflags : f.toNat + 2 * p.toNat < 2 ^ 2 := by cases f <;> cases p <;> decide
  have hlength : (f.toNat + 2 * p.toNat) ||| t = headerWord t f p := by
    have hor := Nat.two_pow_add_eq_or_of_lt hflags (t / 4)
    have hfour : 2 ^ 2 * (t / 4) = t := by omega
    rw [hfour] at hor
    rw [Nat.or_comm, ← hor, headerWord, Nat.add_assoc]
  rw [Tlsf.setSize, if_neg (by omega), getFlags, hh.word, headerWord_mod hh.size_mod, hlength]

theorem freeBlock (hh : Header h b s f p) : freeBlock h b = f := by
  have hmod := hh.size_mod
  rw [Tlsf.freeBlock, hh.word, headerWord]
  cases f <;> cases p <;> simp <;> omega

theorem freePrevBlock (hh : Header h b s f p) : freePrevBlock h b = p := by
  have hmod := hh.size_mod
  rw [Tlsf.freePrevBlock, hh.word, headerWord]
  cases f <;> cases p <;> simp <;> omega

theorem setFreeBlock (hh : Header h b s f p) :
    setFreeBlock h b = h.write (b + 8) (headerWord s true p) := by
  have hmod := hh.size_mod
  have hword : headerWord s f p / 2 * 2 + 1 = headerWord s true p := by
    cases f <;> cases p <;> simp [headerWord] <;> omega
  rw [Tlsf.setFreeBlock, hh.word, hword]

theorem setBusyBlock (hh : Header h b s f p) :
    setBusyBlock h b = h.write (b + 8) (headerWord s false p) := by
  have hmod := hh.size_mod
  have hword : headerWord s f p / 2 * 2 = headerWord s false p := by
    cases f <;> cases p <;> simp [headerWord] <;> omega
  rw [Tlsf.setBusyBlock, hh.word, hword]

theorem setFreePrevBlock (hh : Header h b s f p) :
    setFreePrevBlock h b = h.write (b + 8) (headerWord s f true) := by
  have hmod := hh.size_mod
  have hword : headerWord s f p / 4 * 4 + 2 + headerWord s f p % 2 = headerWord s f true := by
    cases f <;> cases p <;> simp [headerWord] <;> omega
  rw [Tlsf.setFreePrevBlock, hh.word, hword]

theorem setBusyPrevBlock (hh : Header h b s f p) :
    setBusyPrevBlock h b = h.write (b + 8) (headerWord s f false) := by
  have hmod := hh.size_mod
  have hword : headerWord s f p / 4 * 4 + headerWord s f p % 2 = headerWord s f false := by
    cases f <;> cases p <;> simp [headerWord] <;> omega
  rw [Tlsf.setBusyPrevBlock, hh.word, hword]

theorem merge {f' p' : Bool} (ha : Header h a s f p) (hb : Header h b t f' p')
    (hlt : s + t + 16 < 2 ^ 30) :
    merge h a b = .ok (h.write (a + 8) (headerWord (s + t + 16) f p)) := by
  have hmod : (s + t + 16) % 16 = 0 := by
    have hs := ha.size_mod
    have ht := hb.size_mod
    omega
  simp only [Tlsf.merge, ha.getSize, hb.getSize, bind, Except.bind]
  rw [if_neg (by omega)]
  exact ha.setSize hmod hlt

end Header

/-- Whatever the flags were, they stay. -/
theorem setSize_garbage (h : Heap) (b : ℕ) (hs : s % 16 = 0) (hlt : s < 2 ^ 30) :
    ∃ f p, setSize h b s = .ok (h.write (b + 8) (headerWord s f p)) := by
  have hflags : getFlags h b < 2 ^ 2 := Nat.mod_lt _ (by decide)
  have hor := Nat.two_pow_add_eq_or_of_lt hflags (s / 4)
  have hfour : 2 ^ 2 * (s / 4) = s := by omega
  rw [hfour] at hor
  obtain ⟨f, p, hfp⟩ : ∃ f p : Bool, getFlags h b = f.toNat + 2 * p.toNat := by
    have hcases : getFlags h b = 0 ∨ getFlags h b = 1 ∨ getFlags h b = 2 ∨ getFlags h b = 3 := by omega
    rcases hcases with hflag | hflag | hflag | hflag
    · exact ⟨false, false, hflag⟩
    · exact ⟨true, false, hflag⟩
    · exact ⟨false, true, hflag⟩
    · exact ⟨true, true, hflag⟩
  refine ⟨f, p, ?_⟩
  rw [setSize, if_neg (by omega), Nat.or_comm, ← hor, hfp, headerWord, Nat.add_assoc]

theorem setSizeAndFlags_eq (h : Heap) (b : ℕ) (hs : s % 16 = 0) (hlt : s < 2 ^ 30) :
    setSizeAndFlags h b s 1 = .ok (h.write (b + 8) (headerWord s true false)) := by
  have hword : s ||| 1 = headerWord s true false := by
    have hor := Nat.two_pow_add_eq_or_of_lt (show 1 < 2 ^ 2 by decide) (s / 4)
    have hfour : 2 ^ 2 * (s / 4) = s := by omega
    rw [hfour] at hor
    exact hor.symm
  rw [setSizeAndFlags, if_neg (by omega), hword]

/-! ### Work in a hole -/

/-- Blocks without contents are in no list. -/
def entry (a s : ℕ) : List (ℕ × ℕ) := if s = 0 then [] else [(a, s)]

theorem mem_entry {e : ℕ × ℕ} : e ∈ entry a s ↔ e = (a, s) ∧ s ≠ 0 := by
  unfold entry
  split_ifs with hs <;> simp [hs]

theorem clear_entry (hside : z < a + 16 ∨ a + 16 + s ≤ z) (hs : s % 16 = 0) :
    Clear (entry a s) z := by
  intro e he
  obtain ⟨rfl, hne⟩ := mem_entry.mp he
  dsimp only
  omega

theorem Clear.append {free free' : List (ℕ × ℕ)} (hl : Clear free z) (hr : Clear free' z) :
    Clear (free ++ free') z := fun e he ↦ (List.mem_append.mp he).elim (hl e) (hr e)

theorem clear_nil : Clear [] z := fun _ he ↦ absurd he List.not_mem_nil

theorem listedBlocks_free (a s : ℕ) (blocks : List Block) :
    listedBlocks (⟨a, s, true⟩ :: blocks) = entry a s ++ listedBlocks blocks := by
  by_cases hs : s = 0 <;> simp [listedBlocks, entry, hs]

theorem listedBlocks_busy (a s : ℕ) (blocks : List Block) :
    listedBlocks (⟨a, s, false⟩ :: blocks) = listedBlocks blocks := by
  simp [listedBlocks]

/-- In the middle of an operation on a hole that held `mid`, `free` are the listed blocks in it. -/
structure Working (g : Hole) (mid : List Block) (m : ℕ → ℕ) (h : Heap) (free : List (ℕ × ℕ)) :
    Prop where
  laid : Laid m (g.fill mid)
  keeps : KeepsOutside g m h.mem
  listed : ∃ chain, Listed h chain (free ++ listedBlocks g.others)
  inside : ∀ e ∈ free, g.before.stop ≤ e.1 ∧ e.1 + 16 + e.2 ≤ g.behind.addr

/-- A word in the hole or of the header behind it. -/
def Hole.Within (g : Hole) (z : ℕ) : Prop := g.before.stop ≤ z ∧ z < g.behind.addr + 16

variable {g : Hole} {mid new : List Block} {m : ℕ → ℕ} {free free' : List (ℕ × ℕ)}

theorem Valid.working {areas : List Area} (hv : Valid h areas) (hareas : areas = g.fill mid) :
    Working g mid h.mem h (listedBlocks mid) := by
  subst hareas
  obtain ⟨chain, hlisted⟩ := hv.listed
  refine ⟨hv.laid, fun z _ _ ↦ rfl, ⟨chain, hlisted.perm (g.listedBlocks_fill mid)⟩, fun e he ↦ ?_⟩
  exact hv.laid.mid_within (mem_listedBlocks.mp he).1

namespace Working

theorem perm (w : Working g mid m h free) (hperm : free.Perm free') : Working g mid m h free' where
  laid := w.laid
  keeps := w.keeps
  listed := w.listed.imp fun _ hlisted ↦ hlisted.perm (hperm.append_right _)
  inside e he := w.inside e (hperm.mem_iff.mpr he)

theorem write (w : Working g mid m h free) {v : ℕ} (hz : g.Within z) (hclear : Clear free z) :
    Working g mid m (h.write z v) free where
  laid := w.laid
  keeps y hy hothers := by
    have hne : y ≠ z := by
      have hlow := hz.1
      have hhigh := hz.2
      omega
    exact (Heap.write_mem_of_ne hne).trans (w.keeps y hy hothers)
  listed := by
    obtain ⟨chain, hlisted⟩ := w.listed
    have hall := hclear.append (Hole.clear_inside w.laid hz.1 hz.2)
    refine ⟨chain, hlisted.congr (fun e he ↦ ?_) rfl rfl rfl rfl⟩
    exact ⟨Heap.write_mem_of_ne (hall e he).1.symm, Heap.write_mem_of_ne (hall e he).2.symm⟩
  inside := w.inside

/-- The links of listed blocks in the hole are in the hole. -/
theorem clear_outside (w : Working g mid m h free)
    (hz : z < g.before.stop ∨ g.behind.addr + 16 ≤ z) : Clear free z := by
  intro e he
  obtain ⟨chain, hlisted⟩ := w.listed
  have hinside := w.inside e he
  have hsized := hlisted.sized e (List.mem_append_left _ he)
  omega

/-- A block in the hole is taken out of its list. -/
theorem take (w : Working g mid m h (entry a s ++ free)) (hh : Header h a s f p) {fl sl : ℤ}
    (hslot : s ≠ 0 → slot fl sl = .ok (classOf s)) :
    ∃ h', removeHeader h a fl sl = .ok h' ∧ Working g mid m h' free ∧
      ∀ z, g.Within z → Clear free z → h'.mem z = h.mem z := by
  by_cases hs : s = 0
  · subst hs
    refine ⟨h, ?_, w, fun z _ _ ↦ rfl⟩
    simp only [removeHeader, hh.getSize, bind, Except.bind, if_true]
    rfl
  · rw [entry, if_neg hs] at w
    obtain ⟨chain, hlisted⟩ := w.listed
    obtain ⟨h', chain', hresult, hlisted', hlinks⟩ := hlisted.remove hh.getSize (hslot hs)
    have hinside : ∀ e ∈ free, g.before.stop ≤ e.1 ∧ e.1 + 16 + e.2 ≤ g.behind.addr :=
      fun e he ↦ w.inside e (List.mem_cons_of_mem _ he)
    refine ⟨h', hresult, ⟨w.laid, fun z hz hothers ↦ ?_, ⟨chain', hlisted'⟩, hinside⟩, fun z hz hfree ↦ ?_⟩
    · have hclear : Clear free z := fun e he ↦ w.clear_outside hz e (List.mem_cons_of_mem _ he)
      exact (hlinks z (hclear.append hothers)).trans (w.keeps z hz hothers)
    · exact hlinks z (hfree.append (Hole.clear_inside w.laid hz.1 hz.2))

/-- A block in the hole is put into its list. -/
theorem put (w : Working g mid m h free) (hh : Header h a s f p) (hmod : a % 16 = 0)
    (hlow : g.before.stop ≤ a) (hhigh : a + 16 + s ≤ g.behind.addr) (hnew : a ∉ free.map Prod.fst) :
    ∃ h', insertFreeBlock h a = .ok h' ∧ Working g mid m h' (entry a s ++ free) ∧
      ∀ z, g.Within z → Clear (entry a s ++ free) z → h'.mem z = h.mem z := by
  by_cases hs : s = 0
  · subst hs
    refine ⟨h, ?_, w, fun z _ _ ↦ rfl⟩
    simp only [insertFreeBlock, hh.getSize, bind, Except.bind, if_true]
    rfl
  · obtain ⟨chain, hlisted⟩ := w.listed
    have hnotin : a ∉ (free ++ listedBlocks g.others).map Prod.fst := by
      rw [List.map_append, List.mem_append, not_or]
      refine ⟨hnew, fun hothers ↦ ?_⟩
      obtain ⟨e, he, rfl⟩ := List.mem_map.mp hothers
      have hapart := Hole.others_apart w.laid (mem_listedBlocks.mp he).1
      simp only [Block.stop] at hapart hlow
      omega
    have hpos : 0 < a := by
      simp only [Block.stop] at hlow
      omega
    obtain ⟨h', chain', hresult, hlisted', hlinks⟩ :=
      hlisted.insert hh.getSize hmod hpos (Nat.pos_of_ne_zero hs) hh.size_lt hnotin
    have hentry : entry a s = [(a, s)] := if_neg hs
    have hinside : ∀ e ∈ entry a s ++ free, g.before.stop ≤ e.1 ∧ e.1 + 16 + e.2 ≤ g.behind.addr := by
      intro e he
      rw [hentry, List.singleton_append, List.mem_cons] at he
      rcases he with rfl | he
      · exact ⟨hlow, hhigh⟩
      · exact w.inside e he
    rw [hentry] at hinside ⊢
    refine ⟨h', hresult, ⟨w.laid, fun z hz hothers ↦ ?_, ⟨chain', hlisted'⟩, hinside⟩, fun z hz hfree ↦ ?_⟩
    · have hclear : Clear [(a, s)] z := by
        rw [← hentry]
        refine clear_entry ?_ hh.size_mod
        simp only [Block.stop] at hz hlow
        omega
      exact (hlinks z (hclear.append ((w.clear_outside hz).append hothers))).trans (w.keeps z hz hothers)
    · exact hlinks z (hfree.append (Hole.clear_inside w.laid hz.1 hz.2))

/-- The headers in the hole agree with the blocks it now holds. -/
theorem finish (w : Working g mid m h (listedBlocks new))
    (hchain : (g.before :: (new ++ [g.behind])).IsChain (Behind h.mem))
    (hsize : ∀ b ∈ new, b.size % 16 = 0) : Valid h (g.fill new) where
  laid := w.laid.refill w.keeps hchain hsize
  listed := w.listed.imp fun _ hlisted ↦ hlisted.perm (g.listedBlocks_fill new).symm

end Working

end Emu68.Tlsf
