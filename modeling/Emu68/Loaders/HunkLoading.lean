import Emu68.Loaders.HunkLoader

/-!
The loader of load files puts a file in memory as it means. A hunk's blocks change its own data
only; so the headers and the links stay, and the hunks can be taken one by one.
-/

set_option autoImplicit false
set_option relaxedAutoImplicit false

namespace Emu68.Hunk

open Lib (Bytes storeBytes)

variable {f : File} {file : HunkFile} {p virt : ℕ}

/-! ### Longs in memory -/

variable {m m' m'' : Bytes} {a b x v i w : ℕ}

theorem load32_congr (h : ∀ k < 4, m (a + k) = m' (b + k)) : load32 m a = load32 m' b :=
  Lib.loadValue_congr h

theorem load32_store32 (m : Bytes) (a v : ℕ) : load32 (store32 m a v) a = v % 2 ^ 32 :=
  Lib.loadValue_storeBytes m a 4 v

theorem store32_outside (h : x < a ∨ a + 4 ≤ x) : store32 m a v x = m x :=
  Lib.storeBytes_outside h

theorem load32_of_apart (h : a + 4 ≤ b ∨ b + 4 ≤ a) : load32 (store32 m b v) a = load32 m a :=
  load32_congr fun k hk ↦ store32_outside (by omega)

/-! ### The layout -/

theorem le_roundUp (n : ℕ) : n ≤ roundUp n := by
  unfold roundUp
  omega

theorem roundUp_mono {n k : ℕ} (h : n ≤ k) : roundUp n ≤ roundUp k := by
  unfold roundUp
  omega

theorem size_lt (file : HunkFile) (i : ℕ) : file.size i < 2 ^ 32 := by
  unfold HunkFile.size
  omega

theorem addr_room (file : HunkFile) (p i : ℕ) :
    file.addr p i + 8 + file.size i ≤ file.addr p (i + 1) := by
  have h := le_roundUp (file.size i + 8)
  rw [HunkFile.addr]
  omega

theorem addr_mono {j : ℕ} (h : i ≤ j) : file.addr p i ≤ file.addr p j := by
  induction j, h using Nat.le_induction with
  | base => exact le_rfl
  | succ j _ ih => exact ih.trans (by have := addr_room file p j; omega)

/-- Hunks do not meet. -/
theorem addr_apart (file : HunkFile) (p : ℕ) {j : ℕ} (h : i < j) :
    file.addr p i + 8 + file.size i ≤ file.addr p j :=
  (addr_room file p i).trans (addr_mono h)

theorem le_addr : p ≤ file.addr p i := addr_mono (i := 0) (Nat.zero_le i)

theorem addr_le_total (file : HunkFile) (p : ℕ) :
    file.addr p file.sizes.length ≤ p + file.total := by
  have h : ∀ n, file.addr p n ≤
      p + ((List.range n).map fun i ↦ roundUp (file.size i + 24)).sum := by
    intro n
    induction n with
    | zero => exact le_rfl
    | succ n ih =>
      have hround := roundUp_mono (show file.size n + 8 ≤ file.size n + 24 by omega)
      rw [HunkFile.addr, List.range_succ, List.map_append, List.sum_append, List.map_singleton,
        List.sum_singleton]
      omega
  exact h _

/-! ### Allocation -/

/-- The hunks before `i` are allocated. `base` is the virtual base. -/
structure Allocated (file : HunkFile) (p base : ℕ) (m : Bytes) (i : ℕ) (s : Pool) : Prop where
  pool : s.pool = file.addr p i
  hunks : s.hunks = if i = 0 then none else some p
  prev : s.prevhunk = if i = 0 then none else some (file.addr p (i - 1) + 4)
  size : ∀ j < i, load32 s.m (file.addr p j) = file.size j
  link : ∀ j < i, load32 s.m (file.addr p j + 4) =
    if j + 1 < i then file.addr p (j + 1) + 4 - p + base else 0
  zero : ∀ j < i, ∀ k < file.size j, s.m (file.addr p j + 8 + k) = 0
  elsewhere : ∀ x, (∀ j < i, x < file.addr p j ∨ file.addr p j + 8 + file.size j ≤ x) → s.m x = m x

theorem allocated_step {base : ℕ} {s : Pool} (h : Allocated file p base m i s)
    (hsize : hunkSize f i = file.size i) (hbase : file.addr p i + 4 - p + base < 2 ^ 32) :
    Allocated file p base m (i + 1) (allocate f p base s i) := by
  have hroom := addr_room file p i
  have hlt := size_lt file i
  set h₀ := file.addr p i with hh₀
  set m₁ := store32 (store32 (storeBytes s.m h₀ (file.size i + 8) fun _ ↦ 0) (h₀ + 4) 0) h₀
    (file.size i) with hm₁
  have houtside : ∀ x, x < h₀ ∨ h₀ + 8 + file.size i ≤ x → m₁ x = s.m x := by
    intro x hx
    rw [hm₁, store32_outside (by omega), store32_outside (by omega),
      Lib.storeBytes_outside (by omega)]
  have hzero : ∀ k < file.size i, m₁ (h₀ + 8 + k) = 0 := by
    intro k hk
    rw [hm₁, store32_outside (by omega), store32_outside (by omega),
      Lib.storeBytes_inside (by omega) (by omega)]
  have hsizeAt : load32 m₁ h₀ = file.size i := by
    rw [hm₁, load32_store32, Nat.mod_eq_of_lt hlt]
  have hlinkAt : load32 m₁ (h₀ + 4) = 0 := by
    rw [hm₁, load32_of_apart (by omega), load32_store32, Nat.zero_mod]
  have hstep : allocate f p base s i =
      ⟨s.prevhunk.elim m₁ fun prev ↦ store32 m₁ prev (h₀ + 4 - p + base),
        h₀ + roundUp (file.size i + 8), some (s.hunks.getD h₀), some (h₀ + 4)⟩ := by
    unfold allocate
    rw [hsize, h.pool]
    cases s.prevhunk <;> rfl
  rw [hstep]
  cases i with
  | zero =>
    have hprev : s.prevhunk = none := h.prev
    have hhunks : s.hunks = none := h.hunks
    rw [hprev, hhunks, Option.elim_none]
    have hj : ∀ j < 0 + 1, j = 0 := fun j hj ↦ by omega
    have hp : h₀ = p := rfl
    refine ⟨rfl, rfl, rfl, fun j hlt ↦ ?_, fun j hlt ↦ ?_, fun j hlt ↦ ?_, fun x hx ↦ ?_⟩
    · rw [hj j hlt]
      exact hsizeAt
    · rw [hj j hlt, if_neg (by omega)]
      exact hlinkAt
    · rw [hj j hlt]
      exact hzero
    · exact (houtside x (hx 0 Nat.zero_lt_one)).trans (h.elsewhere x fun j hj ↦ by omega)
  | succ n =>
    have hprev : s.prevhunk = some (file.addr p n + 4) := h.prev
    have hhunks : s.hunks = some p := h.hunks
    rw [hprev, hhunks, Option.elim_some]
    have hbefore : ∀ j ≤ n, file.addr p j + 8 + file.size j ≤ h₀ :=
      fun j hj ↦ addr_apart file p (Nat.lt_succ_of_le hj)
    have hlast := hbefore n le_rfl
    have hstart : p ≤ file.addr p n := le_addr
    -- The link of the hunk before is the only other change.
    have hkeep : ∀ a, a + 4 ≤ file.addr p n + 4 ∨ file.addr p n + 8 ≤ a →
        load32 (store32 m₁ (file.addr p n + 4) (h₀ + 4 - p + base)) a = load32 m₁ a :=
      fun a ha ↦ load32_of_apart (by omega)
    have hold : ∀ a, a + 4 ≤ h₀ → load32 m₁ a = load32 s.m a :=
      fun a ha ↦ load32_congr fun k hk ↦ houtside _ (by omega)
    refine ⟨rfl, rfl, rfl, fun j hlt ↦ ?_, fun j hlt ↦ ?_, fun j hlt k hk ↦ ?_, fun x hx ↦ ?_⟩
    · rcases Nat.lt_succ_iff_lt_or_eq.mp hlt with hj | rfl
      · have hroom := hbefore j (by omega)
        rw [hkeep _ ?_, hold _ (by omega), h.size j hj]
        rcases Nat.lt_succ_iff_lt_or_eq.mp hj with hj' | rfl
        · have hapart := addr_apart file p hj'
          omega
        · omega
      · rw [hkeep _ (by omega), hsizeAt]
    · rcases Nat.lt_succ_iff_lt_or_eq.mp hlt with hj | rfl
      · rcases Nat.lt_succ_iff_lt_or_eq.mp hj with hj' | rfl
        · have hapart := addr_apart file p hj'
          have hroom := hbefore j (by omega)
          rw [hkeep _ (by omega), hold _ (by omega), h.link j hj, if_pos (by omega),
            if_pos (by omega)]
        · rw [load32_store32, Nat.mod_eq_of_lt hbase, if_pos (by omega)]
      · rw [hkeep _ (by omega), hlinkAt, if_neg (by omega)]
    · rcases Nat.lt_succ_iff_lt_or_eq.mp hlt with hj | rfl
      · have hroom := hbefore j (by omega)
        have hapart : file.addr p j + 8 + k < file.addr p n + 4 ∨
            file.addr p n + 4 + 4 ≤ file.addr p j + 8 + k := by
          rcases Nat.lt_succ_iff_lt_or_eq.mp hj with hj' | rfl
          · have hapart := addr_apart file p hj'
            omega
          · omega
        exact (store32_outside hapart).trans ((houtside _ (by omega)).trans (h.zero j hj k hk))
      · exact (store32_outside (by omega)).trans (hzero k hk)
    · have hn := hx n (by omega)
      exact (store32_outside (by omega)).trans ((houtside x (hx (n + 1) (by omega))).trans
        (h.elsewhere x fun j hj ↦ hx j (by omega)))

theorem allocated_all {base n : ℕ} (m : Bytes) (hsize : ∀ j < n, hunkSize f j = file.size j)
    (hbase : ∀ j < n, file.addr p j + 4 - p + base < 2 ^ 32) :
    Allocated file p base m n (allocateAll f m p base n) := by
  induction n with
  | zero =>
    have hnone : ∀ {j : ℕ} {P : Prop}, j < 0 → P := fun hj ↦ absurd hj (Nat.not_lt_zero _)
    exact ⟨rfl, rfl, rfl, fun j hj ↦ hnone hj, fun j hj ↦ hnone hj, fun j hj ↦ hnone hj,
      fun _ _ ↦ rfl⟩
  | succ n ih =>
    unfold allocateAll at ih ⊢
    rw [List.range_succ, List.foldl_append]
    exact allocated_step (ih (fun j hj ↦ hsize j (by omega)) fun j hj ↦ hbase j (by omega))
      (hsize n (by omega)) (hbase n (by omega))

/-! ### Changes within one hunk -/

/-- Only the data of hunk `i` changes, in the given way. -/
structure Moves (file : HunkFile) (p i : ℕ) (m m' : Bytes) (g : Bytes → Bytes) : Prop where
  outside : ∀ x, x < file.addr p i + 8 ∨ file.addr p i + 8 + file.size i ≤ x → m' x = m x
  inside : (fun k ↦ m' (file.addr p i + 8 + k)) = g fun k ↦ m (file.addr p i + 8 + k)

theorem Moves.refl (m : Bytes) : Moves file p i m m id := ⟨fun _ _ ↦ rfl, rfl⟩

theorem Moves.trans {g g' : Bytes → Bytes} (h : Moves file p i m m' g)
    (h' : Moves file p i m' m'' g') : Moves file p i m m'' (g' ∘ g) :=
  ⟨fun x hx ↦ (h'.outside x hx).trans (h.outside x hx), by rw [h'.inside, h.inside]; rfl⟩

theorem moves_store32 (off : ℕ) (hoff : off + 4 ≤ file.size i) (v : ℕ) :
    Moves file p i m (store32 m (file.addr p i + 8 + off) v) fun c ↦ store32 c off v := by
  refine ⟨fun x hx ↦ store32_outside (by omega), funext fun k ↦ ?_⟩
  unfold store32 storeBytes
  by_cases hk : off ≤ k ∧ k < off + 4
  · have hsub : file.addr p i + 8 + k - (file.addr p i + 8 + off) = k - off := by omega
    rw [if_pos (by omega), if_pos hk, hsub]
  · rw [if_neg (by omega), if_neg hk]

theorem at_append {first second : List ℕ} :
    At f w (first ++ second) ↔ At f w first ∧ At f (w + first.length) second := by
  induction first generalizing w with
  | nil => simp [At]
  | cons x rest ih =>
    rw [List.cons_append, At, At, ih, List.length_cons, and_assoc,
      show w + 1 + rest.length = w + (rest.length + 1) by omega]

theorem moves_copyWords {content : List ℕ} (off : ℕ) {src : ℕ} (hwords : At f src content)
    (hoff : off + 4 * content.length ≤ file.size i) :
    Moves file p i m (copyWords f m (file.addr p i + 8 + off) src content.length)
      fun c ↦ putLongs c off content := by
  induction content generalizing m off src with
  | nil => exact .refl m
  | cons x rest ih =>
    obtain ⟨hx, hrest⟩ := hwords
    rw [List.length_cons] at hoff
    rw [List.length_cons, copyWords, hx]
    exact (moves_store32 off (by omega) x).trans (ih (off + 4) hrest (by omega))

theorem moves_relocateOffsets {offsets : List ℕ} (ref : ℤ) (hwords : At f w offsets)
    (hoff : ∀ off ∈ offsets, off + 4 ≤ file.size i) :
    Moves file p i m (relocateOffsets f (file.addr p i + 8) ref offsets.length w m)
      fun c ↦ offsets.foldl (addLong ref) c := by
  induction offsets generalizing m w with
  | nil => exact .refl m
  | cons off rest ih =>
    obtain ⟨hx, hrest⟩ := hwords
    rw [List.length_cons, relocateOffsets, hx]
    have hload : load32 m (file.addr p i + 8 + off) =
        load32 (fun k ↦ m (file.addr p i + 8 + k)) off :=
      load32_congr fun k _ ↦ by rw [Nat.add_assoc (file.addr p i + 8)]
    have hfirst := moves_store32 (m := m) (p := p) off (hoff off List.mem_cons_self)
      (((load32 m (file.addr p i + 8 + off) : ℤ) + ref) % 2 ^ 32).toNat
    have hfirst' : Moves file p i m (store32 m (file.addr p i + 8 + off)
        (((load32 m (file.addr p i + 8 + off) : ℤ) + ref) % 2 ^ 32).toNat)
        fun c ↦ addLong ref c off := by
      refine ⟨hfirst.outside, hfirst.inside.trans ?_⟩
      rw [hload]
      rfl
    exact hfirst'.trans (ih hrest fun off' hoff' ↦ hoff off' (List.mem_cons_of_mem _ hoff'))

/-! ### The links -/

/-- The links from hunk to hunk. -/
def Chain (file : HunkFile) (p base : ℕ) (m : Bytes) : Prop :=
  ∀ j, j + 1 < file.sizes.length → load32 m (file.addr p j + 4) = file.addr p (j + 1) + 4 - p + base

theorem Moves.load32 {g : Bytes → Bytes} (h : Moves file p i m m' g)
    (ha : a + 4 ≤ file.addr p i + 8 ∨ file.addr p i + 8 + file.size i ≤ a) :
    Hunk.load32 m' a = Hunk.load32 m a :=
  load32_congr fun k hk ↦ h.outside _ (by omega)

/-- The header of every hunk stays. -/
theorem Moves.header {g : Bytes → Bytes} (h : Moves file p i m m' g) (j : ℕ) :
    Hunk.load32 m' (file.addr p j) = Hunk.load32 m (file.addr p j) ∧
      Hunk.load32 m' (file.addr p j + 4) = Hunk.load32 m (file.addr p j + 4) := by
  rcases Nat.lt_trichotomy j i with hj | rfl | hj
  · have hapart := addr_apart file p hj
    exact ⟨h.load32 (by omega), h.load32 (by omega)⟩
  · exact ⟨h.load32 (by omega), h.load32 (by omega)⟩
  · have hapart := addr_apart file p hj
    exact ⟨h.load32 (by omega), h.load32 (by omega)⟩

theorem Chain.moves {base : ℕ} {g : Bytes → Bytes} (hc : Chain file p base m)
    (h : Moves file p i m m' g) : Chain file p base m' :=
  fun j hj ↦ (h.header j).2.trans (hc j hj)

/-- The links are followed with one base, or not at all. -/
theorem segment_eq {base t : ℕ} (hc : Chain file p base m)
    (hbase : base = p ∨ file.sizes.length = 1) (ht : t < file.sizes.length) :
    segment m p t = file.addr p t + 4 := by
  induction t with
  | zero => rfl
  | succ t ih =>
    rcases hbase with rfl | hone
    · have hstart : base ≤ file.addr base (t + 1) := le_addr
      rw [segment, ih (by omega), hc t ht]
      omega
    · omega

/-! ### One block -/

theorem word_lt (f : File) (w : ℕ) : word f w < 2 ^ 32 := (f w).isLt

theorem duffCount_eq {count : ℕ} (hpos : 0 < count) (hlt : count < 2 ^ 30) :
    duffCount count = count := by
  unfold duffCount
  have hmod : (count + 7) % 2 ^ 32 = count + 7 := Nat.mod_eq_of_lt (by omega)
  rw [hmod]
  dsimp only
  rw [if_neg (by omega)]
  omega

theorem relocate_spec {groups : List Group} (pcRelative : Bool)
    (hbase : virtualBase p virt = p ∨ file.sizes.length = 1)
    (hc : Chain file p (virtualBase p virt) m) (hwords : At f w (groups.flatMap Group.encode ++ [0]))
    (hfits : ∀ g ∈ groups, g.offsets ≠ [] ∧ g.target < file.sizes.length ∧
      ∀ off ∈ g.offsets, off + 4 ≤ file.size i) :
    ∃ m', (∀ fuel > groups.length, relocate f pcRelative false p (virtualBase p virt) p
        (file.addr p i + 8) fuel w m = some (w + (groups.flatMap Group.encode ++ [0]).length, m')) ∧
      Moves file p i m m'
        fun c ↦ (Block.reloc pcRelative groups).apply (file.dataAddr p virt) i c := by
  induction groups generalizing m w with
  | nil =>
    refine ⟨m, fun fuel hfuel ↦ ?_, .refl m⟩
    obtain ⟨fuel, rfl⟩ := Nat.exists_eq_add_of_le' hfuel
    exact if_pos hwords.1
  | cons g rest ih =>
    obtain ⟨hoffsets, htarget, hoff⟩ := hfits g List.mem_cons_self
    rw [List.flatMap_cons, List.append_assoc, at_append] at hwords
    obtain ⟨⟨hcount, hrefcnt, hlongs⟩, hrest⟩ := hwords
    have hlength : g.encode.length = 2 + g.offsets.length := by
      rw [Group.encode, List.length_cons, List.length_cons]
      omega
    rw [hlength, ← Nat.add_assoc] at hrest
    have hpos : 0 < g.offsets.length := List.length_pos_iff.mpr hoffsets
    set ref : ℤ := file.dataAddr p virt g.target - if pcRelative then file.dataAddr p virt i else 0
      with href
    have hfirst := moves_relocateOffsets (p := p) (m := m) ref hlongs hoff
    obtain ⟨m', hrun, hmoves⟩ := ih (hc.moves hfirst) hrest
      fun g' hg' ↦ hfits g' (List.mem_cons_of_mem _ hg')
    refine ⟨m', fun fuel hfuel ↦ ?_, hfirst.trans hmoves⟩
    rw [List.length_cons] at hfuel
    obtain ⟨fuel, rfl⟩ := Nat.exists_eq_add_of_le' (show 1 ≤ fuel by omega)
    have hsegment := segment_eq hc hbase htarget
    have hrefBase : (if pcRelative then ((segment m p g.target : ℤ) + 4 - (file.addr p i + 8 : ℕ))
        else (segment m p g.target : ℤ) + 4 + virtualBase p virt - p) = ref := by
      rw [hsegment, href]
      unfold HunkFile.dataAddr
      cases pcRelative <;> push_cast <;> simp <;> ring
    have hne : ¬ word f w = 0 := by rw [hcount]; omega
    rw [relocate, if_neg hne]
    simp only [if_false, Bool.false_eq_true, hcount, hrefcnt, hrefBase]
    rw [hrun fuel (by omega)]
    simp only [List.flatMap_cons, List.length_append, hlength, Nat.add_assoc]

theorem length_flatMap_encode (groups : List Group) :
    groups.length ≤ (groups.flatMap Group.encode).length := by
  induction groups with
  | nil => exact le_rfl
  | cons g rest ih =>
    rw [List.flatMap_cons, List.length_append, Group.encode, List.length_cons, List.length_cons,
      List.length_cons]
    omega

def symbolWords (e : List ℕ × ℕ) : List ℕ := e.1.length :: (e.1 ++ [e.2])

theorem skipSymbols_spec {entries : List (List ℕ × ℕ)}
    (hwords : At f w (entries.flatMap symbolWords ++ [0]))
    (hfits : ∀ e ∈ entries, e.1 ≠ [] ∧ e.1.length < 2 ^ 24) :
    ∀ fuel > (entries.flatMap symbolWords).length,
      skipSymbols f fuel w = some (w + (entries.flatMap symbolWords ++ [0]).length) := by
  induction entries generalizing w with
  | nil =>
    intro fuel hfuel
    obtain ⟨fuel, rfl⟩ := Nat.exists_eq_add_of_le' hfuel
    exact if_pos hwords.1
  | cons e rest ih =>
    intro fuel hfuel
    obtain ⟨hname, hshort⟩ := hfits e List.mem_cons_self
    have hpos : 0 < e.1.length := List.length_pos_iff.mpr hname
    rw [List.flatMap_cons, List.append_assoc, at_append] at hwords
    obtain ⟨⟨hcount, -⟩, hrest⟩ := hwords
    have hlength : (symbolWords e).length = e.1.length + 2 := by
      rw [symbolWords, List.length_cons, List.length_append, List.length_singleton]
    rw [List.flatMap_cons, List.length_append, hlength] at hfuel
    rw [hlength] at hrest
    obtain ⟨fuel, rfl⟩ := Nat.exists_eq_add_of_le' (show 1 ≤ fuel by omega)
    rw [skipSymbols, if_neg (by omega), hcount, Nat.mod_eq_of_lt (by omega),
      ih hrest (fun e' he' ↦ hfits e' (List.mem_cons_of_mem _ he')) fuel (by omega)]
    simp only [List.flatMap_cons, List.length_append, hlength, Nat.add_assoc]

theorem readBlock_spec {b : Block} (hfirst : firstToLoad f = 0)
    (hbase : virtualBase p virt = p ∨ file.sizes.length = 1)
    (hc : Chain file p (virtualBase p virt) m) (hwords : At f w b.encode)
    (hfits : b.Fits (file.size i) file.sizes.length) (hcopies : b.Copies) :
    ∃ m', (∀ fuel > b.encode.length, readBlock f p (virtualBase p virt) p fuel
        ⟨m, w, file.addr p i, i⟩ = some ⟨m', w + b.encode.length, file.addr p i, i⟩) ∧
      Moves file p i m m' fun c ↦ Block.apply (file.dataAddr p virt) i c b := by
  have hskip : decide (i < firstToLoad f) = false := by
    rw [hfirst]
    exact decide_eq_false i.not_lt_zero
  have hsize := size_lt file i
  cases b with
  | data isCode content =>
    obtain ⟨hkind, hcount, hcontent⟩ := hwords
    have hpos : 0 < content.length := List.length_pos_iff.mpr hcopies
    have hlong : 4 * content.length ≤ file.size i := hfits
    refine ⟨_, fun fuel _ ↦ ?_, moves_copyWords (m := m) (p := p) 0 hcontent (by omega)⟩
    have hlength : (Block.data isCode content).encode.length = 2 + content.length := by
      rw [Block.encode, List.length_cons, List.length_cons]
      omega
    have hduff := duffCount_eq hpos (show content.length < 2 ^ 30 by omega)
    have hmod : (2 + content.length) % 2 ^ 32 = 2 + content.length := Nat.mod_eq_of_lt (by omega)
    unfold readBlock
    dsimp only
    rw [hkind, hcount, hskip, hlength, hduff, hmod]
    cases isCode <;> rfl
  | bss words =>
    obtain ⟨hkind, -⟩ := hwords
    refine ⟨m, fun fuel _ ↦ ?_, .refl m⟩
    unfold readBlock
    dsimp only
    rw [hkind]
    rfl
  | reloc pcRelative groups =>
    obtain ⟨hkind, hgroups⟩ := hwords
    obtain ⟨m', hrun, hmoves⟩ := relocate_spec pcRelative hbase hc hgroups hfits
    refine ⟨m', fun fuel hfuel ↦ ?_, hmoves⟩
    have hlength : (Block.reloc pcRelative groups).encode.length =
        1 + (groups.flatMap Group.encode ++ [0]).length := by
      rw [Block.encode, List.length_cons, Nat.add_comm]
    have hgroupsLength := length_flatMap_encode groups
    have hlong : (groups.flatMap Group.encode ++ [0]).length =
        (groups.flatMap Group.encode).length + 1 := List.length_append
    have hrun' := hrun fuel (by omega)
    unfold readBlock
    dsimp only
    rw [hkind, hskip, hlength]
    cases pcRelative <;> simp [hrun', Nat.add_assoc]
  | symbols entries =>
    obtain ⟨hkind, hentries⟩ := hwords
    have hlength : (Block.symbols entries).encode.length =
        1 + (entries.flatMap symbolWords ++ [0]).length := by
      rw [Block.encode, List.length_cons, Nat.add_comm]
      rfl
    refine ⟨m, fun fuel hfuel ↦ ?_, .refl m⟩
    have hlong : (entries.flatMap symbolWords ++ [0]).length =
        (entries.flatMap symbolWords).length + 1 := List.length_append
    have hrun := skipSymbols_spec hentries hfits fuel (by omega)
    unfold readBlock
    dsimp only
    rw [hkind, hlength]
    simp [hrun, Nat.add_assoc]

/-! ### One hunk -/

theorem loadLoop_blocks {blocks : List Block} (hfirst : firstToLoad f = 0)
    (hlast : i ≤ lastToLoad f) (hbase : virtualBase p virt = p ∨ file.sizes.length = 1)
    (hc : Chain file p (virtualBase p virt) m) (hwords : At f w (blocks.flatMap Block.encode))
    (hfits : ∀ b ∈ blocks, b.Fits (file.size i) file.sizes.length ∧ b.Copies) :
    ∃ m', (∀ fuel > (blocks.flatMap Block.encode).length,
        loadLoop f p (virtualBase p virt) p (fuel + blocks.length) ⟨m, w, file.addr p i, i⟩ =
          loadLoop f p (virtualBase p virt) p fuel
            ⟨m', w + (blocks.flatMap Block.encode).length, file.addr p i, i⟩) ∧
      Moves file p i m m' fun c ↦ blocks.foldl (Block.apply (file.dataAddr p virt) i) c := by
  induction blocks generalizing m w with
  | nil => exact ⟨m, fun fuel _ ↦ rfl, .refl m⟩
  | cons b rest ih =>
    rw [List.flatMap_cons, at_append] at hwords
    obtain ⟨hb, hrest⟩ := hwords
    obtain ⟨hfit, hcopies⟩ := hfits b List.mem_cons_self
    obtain ⟨m₁, hread, hfirstMoves⟩ := readBlock_spec hfirst hbase hc hb hfit hcopies
    obtain ⟨m', hrun, hmoves⟩ := ih (hc.moves hfirstMoves) hrest
      fun b' hb' ↦ hfits b' (List.mem_cons_of_mem _ hb')
    refine ⟨m', fun fuel hfuel ↦ ?_, hfirstMoves.trans hmoves⟩
    rw [List.flatMap_cons, List.length_append] at hfuel ⊢
    rw [List.length_cons, ← Nat.add_assoc, loadLoop, hread _ (by omega), Option.bind_some]
    dsimp only
    rw [if_pos hlast, hrun fuel (by omega), Nat.add_assoc w]

/-- A hunk: its blocks, and the step to the next one. -/
theorem loadLoop_hunk {blocks : List Block} (hfirst : firstToLoad f = 0)
    (hlast : i ≤ lastToLoad f) (hbase : virtualBase p virt = p ∨ file.sizes.length = 1)
    (hc : Chain file p (virtualBase p virt) m) (hwords : At f w (encodeHunk blocks))
    (hfits : ∀ b ∈ blocks, b.Fits (file.size i) file.sizes.length ∧ b.Copies) :
    ∃ m', (∀ fuel > (encodeHunk blocks).length,
        loadLoop f p (virtualBase p virt) p (fuel + blocks.length + 1) ⟨m, w, file.addr p i, i⟩ =
          let s : Loading := ⟨m', w + (encodeHunk blocks).length,
            (load32 m' (file.addr p i + 4) + 2 ^ 64 - 4) % 2 ^ 64, (i + 1) % 2 ^ 32⟩
          if (i + 1) % 2 ^ 32 ≤ lastToLoad f then loadLoop f p (virtualBase p virt) p fuel s
          else some s) ∧
      Moves file p i m m' fun c ↦ blocks.foldl (Block.apply (file.dataAddr p virt) i) c := by
  unfold encodeHunk at hwords ⊢
  rw [at_append] at hwords
  obtain ⟨hblocks, hend, -⟩ := hwords
  obtain ⟨m', hrun, hmoves⟩ := loadLoop_blocks hfirst hlast hbase hc hblocks hfits
  refine ⟨m', fun fuel hfuel ↦ ?_, hmoves⟩
  rw [List.length_append, List.length_singleton] at hfuel ⊢
  rw [Nat.add_right_comm, hrun (fuel + 1) (by omega), loadLoop]
  have hread : readBlock f p (virtualBase p virt) p fuel
      ⟨m', w + (blocks.flatMap Block.encode).length, file.addr p i, i⟩ =
      some ⟨m', w + (blocks.flatMap Block.encode).length + 1,
        (load32 m' (file.addr p i + 4) + 2 ^ 64 - 4) % 2 ^ 64, (i + 1) % 2 ^ 32⟩ := by
    unfold readBlock
    dsimp only
    rw [hend]
    rfl
  rw [hread]
  rfl

/-! ### All hunks -/

/-- The hunks from `i` on have got their blocks. -/
structure Filled (file : HunkFile) (p virt i : ℕ) (m m' : Bytes) : Prop where
  header : ∀ j, load32 m' (file.addr p j) = load32 m (file.addr p j) ∧
    load32 m' (file.addr p j + 4) = load32 m (file.addr p j + 4)
  data : ∀ j, i ≤ j → j < file.sizes.length → ∀ k < file.size j, m' (file.addr p j + 8 + k) =
    (file.hunks.getD j []).foldl (Block.apply (file.dataAddr p virt) j)
      (fun k ↦ m (file.addr p j + 8 + k)) k
  elsewhere : ∀ x, (∀ j, i ≤ j → j < file.sizes.length → x < file.addr p j + 8 ∨
    file.addr p j + 8 + file.size j ≤ x) → m' x = m x

theorem loadLoop_hunks {rest : List (List Block)} (hne : rest ≠ []) (hfirst : firstToLoad f = 0)
    (hcount : i + rest.length = file.sizes.length)
    (hrest : ∀ j < rest.length, rest.getD j [] = file.hunks.getD (i + j) [])
    (hlast : lastToLoad f = file.sizes.length - 1) (hshort : file.sizes.length < 2 ^ 32)
    (hplace : file.addr p file.sizes.length ≤ 2 ^ 32 ∨ file.sizes.length = 1)
    (hbase : virtualBase p virt = p ∨ file.sizes.length = 1)
    (hc : Chain file p (virtualBase p virt) m) (hwords : At f w (rest.flatMap encodeHunk))
    (hfits : ∀ j < rest.length, ∀ b ∈ rest.getD j [],
      b.Fits (file.size (i + j)) file.sizes.length ∧ b.Copies) :
    ∃ m' fuel₀, (∀ fuel ≥ fuel₀, ∃ s, loadLoop f p (virtualBase p virt) p fuel
        ⟨m, w, file.addr p i, i⟩ = some s ∧ s.m = m') ∧ Filled file p virt i m m' := by
  induction rest generalizing i m w with
  | nil => exact absurd rfl hne
  | cons blocks rest ih =>
    rw [List.length_cons] at hcount
    rw [List.flatMap_cons, at_append] at hwords
    obtain ⟨hhunk, hwords⟩ := hwords
    have hblocks : blocks = file.hunks.getD i [] := hrest 0 (Nat.succ_pos _)
    obtain ⟨m₁, hrun, hmoves⟩ := loadLoop_hunk hfirst (show i ≤ lastToLoad f by omega) hbase hc
      hhunk (hfits 0 (Nat.succ_pos _))
    have hmod : (i + 1) % 2 ^ 32 = i + 1 := by omega
    rw [hmod] at hrun
    have hself : ∀ k, m₁ (file.addr p i + 8 + k) = (file.hunks.getD i []).foldl
        (Block.apply (file.dataAddr p virt) i) (fun k ↦ m (file.addr p i + 8 + k)) k := by
      rw [← hblocks]
      exact congrFun hmoves.inside
    rcases eq_or_ne rest [] with rfl | hrestNe
    · rw [List.length_nil] at hcount
      refine ⟨m₁, (encodeHunk blocks).length + 1 + blocks.length + 1, fun fuel hfuel ↦ ?_,
        ⟨hmoves.header, fun j hij hj k _ ↦ ?_,
          fun x hx ↦ hmoves.outside x (hx i le_rfl (by omega))⟩⟩
      · obtain ⟨more, rfl⟩ := Nat.exists_eq_add_of_le' hfuel
        have hend := hrun (more + ((encodeHunk blocks).length + 1)) (by omega)
        dsimp only at hend
        rw [if_neg (by omega), Nat.add_assoc more, Nat.add_assoc more] at hend
        exact ⟨_, hend, rfl⟩
      · obtain rfl : j = i := by omega
        exact hself k
    · have hpos : 0 < rest.length := List.length_pos_iff.mpr hrestNe
      have hbase' : virtualBase p virt = p := hbase.resolve_right (by omega)
      have hnext : (load32 m₁ (file.addr p i + 4) + 2 ^ 64 - 4) % 2 ^ 64 = file.addr p (i + 1) := by
        have hstart : p ≤ file.addr p (i + 1) := le_addr
        have hin : file.addr p (i + 1) ≤ file.addr p file.sizes.length := addr_mono (by omega)
        have hplace' := hplace.resolve_right (by omega)
        rw [(hmoves.header i).2, hc i (by omega), hbase']
        omega
      have hstep : ∀ j < rest.length, rest.getD j [] = file.hunks.getD (i + 1 + j) [] := by
        intro j hj
        rw [show i + 1 + j = i + (j + 1) by omega]
        exact hrest (j + 1) (by rw [List.length_cons]; omega)
      obtain ⟨m', fuel₀, hloop, hfilled⟩ := ih hrestNe (by omega) hstep (hc.moves hmoves) hwords
        fun j hj b hb ↦ by
          rw [show i + 1 + j = i + (j + 1) by omega]
          exact hfits (j + 1) (by rw [List.length_cons]; omega) b hb
      rw [hnext] at hrun
      refine ⟨m', fuel₀ + (encodeHunk blocks).length + 1 + blocks.length + 1, fun fuel hfuel ↦ ?_,
        ⟨fun j ↦ ⟨(hfilled.header j).1.trans (hmoves.header j).1,
          (hfilled.header j).2.trans (hmoves.header j).2⟩, fun j hij hj k hk ↦ ?_, fun x hx ↦ ?_⟩⟩
      · obtain ⟨more, rfl⟩ := Nat.exists_eq_add_of_le' hfuel
        have hend := hrun (more + (fuel₀ + (encodeHunk blocks).length + 1)) (by omega)
        dsimp only at hend
        rw [if_pos (by omega), Nat.add_assoc more, Nat.add_assoc more] at hend
        rw [hend]
        exact hloop _ (by omega)
      · rcases Nat.eq_or_lt_of_le hij with rfl | hlt
        · rw [hfilled.elsewhere _ fun l hl hl' ↦ ?_, hself]
          have hapart := addr_apart file p (show i < l by omega)
          omega
        · rw [hfilled.data j hlt hj k hk]
          have hapart := addr_apart file p hlt
          have hsame : (fun k ↦ m₁ (file.addr p j + 8 + k)) = fun k ↦ m (file.addr p j + 8 + k) :=
            funext fun k ↦ hmoves.outside _ (by omega)
          rw [hsame]
      · rw [hfilled.elsewhere x fun l hl hl' ↦ hx l (by omega) hl']
        exact hmoves.outside x (hx i le_rfl (by omega))

/-! ### The data from zeros -/

/-- The first bytes agree. -/
def Agree (n : ℕ) (c c' : Bytes) : Prop := ∀ k < n, c k = c' k

variable {n : ℕ} {c c' : Bytes}

theorem Agree.store32 (h : Agree n c c') (off v : ℕ) :
    Agree n (store32 c off v) (store32 c' off v) := by
  intro k hk
  unfold Hunk.store32 storeBytes
  rw [h k hk]

theorem Agree.addLong {off : ℕ} (h : Agree n c c') (hoff : off + 4 ≤ n) (ref : ℤ) :
    Agree n (addLong ref c off) (addLong ref c' off) := by
  have hload : load32 c off = load32 c' off := load32_congr fun k hk ↦ h _ (by omega)
  unfold Hunk.addLong
  rw [hload]
  exact h.store32 off _

theorem Agree.putLongs {content : List ℕ} (h : Agree n c c') (off : ℕ) :
    Agree n (putLongs c off content) (putLongs c' off content) := by
  induction content generalizing c c' off with
  | nil => exact h
  | cons x rest ih => exact ih (h.store32 off x) (off + 4)

theorem Agree.foldl {α : Type} {F : Bytes → α → Bytes} {l : List α} (h : Agree n c c')
    (hF : ∀ x ∈ l, ∀ c c', Agree n c c' → Agree n (F c x) (F c' x)) :
    Agree n (l.foldl F c) (l.foldl F c') := by
  induction l generalizing c c' with
  | nil => exact h
  | cons x rest ih =>
    exact ih (hF x List.mem_cons_self c c' h) fun y hy ↦ hF y (List.mem_cons_of_mem _ hy)

theorem Agree.apply {dataAddr : ℕ → ℤ} {count : ℕ} {b : Block} (h : Agree n c c')
    (hfits : b.Fits n count) : Agree n (b.apply dataAddr i c) (b.apply dataAddr i c') := by
  cases b with
  | data isCode content => exact h.putLongs 0
  | bss words => exact h
  | symbols entries => exact h
  | reloc pcRelative groups =>
    exact h.foldl fun g hg c c' hc ↦ hc.foldl fun off hoff c c' hc ↦
      hc.addLong ((hfits g hg).2.2 off hoff) _

/-! ### The header -/

theorem at_getD {l : List ℕ} (h : At f w l) {j : ℕ} (hj : j < l.length) :
    word f (w + j) = l.getD j 0 := by
  induction l generalizing w j with
  | nil => exact absurd hj (Nat.not_lt_zero j)
  | cons x rest ih =>
    cases j with
    | zero => exact h.1
    | succ j =>
      rw [show w + (j + 1) = w + 1 + j by omega]
      exact ih h.2 (Nat.lt_of_succ_lt_succ hj)

theorem le_addr_mul (file : HunkFile) (p n : ℕ) : p + 8 * n ≤ file.addr p n := by
  induction n with
  | zero => exact le_rfl
  | succ n ih =>
    have hroom := addr_room file p n
    omega

/-- The header says how many hunks there are, and how large they are. -/
structure HeaderRead (f : File) (file : HunkFile) : Prop where
  valid : headerValid f = true
  first : firstToLoad f = file.first
  last : lastToLoad f = file.first + file.sizes.length - 1
  count : loadCount f = file.sizes.length
  size : ∀ j < file.sizes.length, hunkSize f j = file.size j

theorem WellFormed.short (hf : WellFormed f file p virt) : file.sizes.length < 2 ^ 32 := by
  have hplace := addr_le_total file p
  have hmul := le_addr_mul file p file.sizes.length
  have htotal := hf.total
  omega

theorem WellFormed.headerRead (hf : WellFormed f file p virt) : HeaderRead f file := by
  have hpos : 0 < file.sizes.length := List.length_pos_iff.mpr hf.some_hunk
  have hshort := hf.short
  obtain ⟨hmagic, hnames, -⟩ := hf.magic
  obtain ⟨hfirst, hlast, -⟩ := hf.range
  have hfirst' : firstToLoad f = file.first := hfirst
  have hlast' : lastToLoad f = file.first + file.sizes.length - 1 := hlast
  have hlastLt : lastToLoad f < 2 ^ 32 := word_lt f 4
  refine ⟨?_, hfirst', hlast', ?_, fun j hj ↦ ?_⟩
  · unfold headerValid
    rw [hmagic, show word f 1 = 0 from hnames]
    rfl
  · unfold loadCount
    omega
  · unfold hunkSize HunkFile.size
    rw [at_getD (at_append.mp hf.content).1 hj]

theorem WellFormed.getHunkFileSize (hf : WellFormed f file p virt) :
    Hunk.getHunkFileSize f = file.total := by
  have hread := hf.headerRead
  have hsum : ∀ n ≤ file.sizes.length,
      ((List.range n).map fun i ↦ roundUp (file.size i + 24)).sum < 2 ^ 32 →
      (List.range n).foldl (fun total i ↦
        (total + ((hunkSize f i + 8 + 16) % 2 ^ 32 + 31) % 2 ^ 32 / 32 * 32) % 2 ^ 32) 0 =
      ((List.range n).map fun i ↦ roundUp (file.size i + 24)).sum := by
    intro n hn
    induction n with
    | zero => exact fun _ ↦ rfl
    | succ n ih =>
      rw [List.range_succ, List.map_append, List.sum_append, List.map_singleton,
        List.sum_singleton, List.foldl_append]
      intro hlt
      rw [ih (by omega) (by omega), List.foldl_cons, List.foldl_nil, hread.size n (by omega)]
      unfold roundUp at hlt ⊢
      omega
  unfold Hunk.getHunkFileSize
  rw [if_pos hread.valid, hread.count]
  exact hsum _ le_rfl hf.total

/-! ### Loading -/

theorem loadHunkFile_right (hf : WellFormed f file p virt) (hl : Loadable file p virt) :
    LoadsRight f file p virt := by
  have hread := hf.headerRead
  have hshort := hf.short
  have htotal := addr_le_total file p
  have haddresses := hf.addresses
  have hpos : 0 < file.sizes.length := List.length_pos_iff.mpr hf.some_hunk
  have hcount : file.hunks.length = file.sizes.length := by
    rw [hf.hunks, hl.first, Nat.zero_add]
  refine ⟨fun i j hij ↦ addr_apart file p hij, by rw [hf.getHunkFileSize]; exact htotal, fun m ↦ ?_⟩
  obtain ⟨hsizes, hblocks⟩ := at_append.mp hf.content
  have hroom : ∀ j < file.sizes.length,
      file.addr p j + 4 - p + virtualBase p virt < 2 ^ 32 := by
    intro j hj
    have hnext := addr_room file p j
    have hin : file.addr p (j + 1) ≤ file.addr p file.sizes.length := addr_mono hj
    have hstart : p ≤ file.addr p j := le_addr
    omega
  have hpool := allocated_all m hread.size hroom
  set s := allocateAll f m p (virtualBase p virt) file.sizes.length with hs
  have hc : Chain file p (virtualBase p virt) s.m := fun j hj ↦ by
    rw [hpool.link j (by omega), if_pos hj]
  have hplace : file.addr p file.sizes.length ≤ 2 ^ 32 ∨ file.sizes.length = 1 :=
    hl.base.imp_left fun h ↦ by omega
  have hfits : ∀ j < file.hunks.length, ∀ b ∈ file.hunks.getD j [],
      b.Fits (file.size (0 + j)) file.sizes.length ∧ b.Copies := by
    intro j hj b hb
    have hfit := hf.fits j (by omega) b
    rw [hl.first, Nat.zero_add] at hfit
    rw [Nat.zero_add]
    have hmem : file.hunks.getD j [] ∈ file.hunks := by
      rw [List.getD_eq_getElem?_getD, List.getElem?_eq_getElem hj]
      exact List.getElem_mem hj
    exact ⟨hfit hb, hl.copies _ hmem b hb⟩
  obtain ⟨m', fuel₀, hrun, hfilled⟩ := loadLoop_hunks (i := 0) (m := s.m)
    (List.ne_nil_of_length_pos (by omega)) (hread.first.trans hl.first) (by omega)
    (fun j _ ↦ by rw [Nat.zero_add]) (by rw [hread.last, hl.first, Nat.zero_add]) hshort hplace
    hl.base hc hblocks hfits
  refine ⟨m', ⟨fun i hi ↦ ?_, fun i hi ↦ ?_, fun i hi k hk ↦ ?_, fun x hx ↦ ?_⟩, fuel₀,
    fun fuel hfuel ↦ ?_⟩
  · rw [(hfilled.header i).1, hpool.size i hi]
  · rw [(hfilled.header i).2, hpool.link i hi]
    have hstart : p ≤ file.addr p (i + 1) := le_addr
    unfold HunkFile.dataAddr
    split_ifs
    · omega
    · rfl
  · have hzero : Agree (file.size i) (fun k ↦ s.m (file.addr p i + 8 + k)) fun _ ↦ 0 :=
      fun k hk ↦ hpool.zero i hi k hk
    have hfit := hf.fits i hi
    rw [hl.first, Nat.zero_add] at hfit
    have happly : ∀ b ∈ file.hunks.getD i [], ∀ c c', Agree (file.size i) c c' →
        Agree (file.size i) (Block.apply (file.dataAddr p virt) i c b)
          (Block.apply (file.dataAddr p virt) i c' b) :=
      fun b hb c c' h ↦ Agree.apply h (hfit b hb)
    unfold HunkFile.contents
    rw [hl.first, Nat.zero_add, hfilled.data i (Nat.zero_le i) hi k hk]
    exact hzero.foldl happly k hk
  · rw [hfilled.elsewhere x fun j _ hj ↦ (hx j hj).imp_left fun h ↦ by omega]
    exact hpool.elsewhere x hx
  · obtain ⟨final, hfinal, hmemory⟩ := hrun fuel hfuel
    have hhunks : s.hunks = some p := by rw [hpool.hunks, if_neg (by omega)]
    unfold loadHunkFile
    dsimp only
    rw [if_pos hread.valid, hread.count, ← hs, hhunks, Option.getD_some]
    have hfinal' : loadLoop f p (virtualBase p virt) p fuel
        ⟨s.m, 5 + file.sizes.length, p, 0⟩ = some final := hfinal
    rw [hfinal', Option.map_some, hmemory]

/-- A code hunk with the address of a data hunk, and the data hunk. -/
def sampleFile : HunkFile where
  first := 0
  sizes := [2, 1]
  hunks := [[.data true [0x4e71, 4], .reloc false [⟨1, [4]⟩], .symbols [([0x61], 0)]],
    [.data false [0x12345678]]]

theorem sampleFile_wellFormed (virt : ℕ) (h : virt ≤ 0x2000) :
    WellFormed sampleFile.words sampleFile 0x1000 virt where
  some_hunk := by decide
  hunks := by decide
  magic := by decide
  range := by decide
  content := by decide
  fits := by decide
  total := by decide
  addresses := by
    have htotal : sampleFile.total = 64 := by decide
    rw [htotal]
    unfold virtualBase
    split_ifs <;> omega

theorem sampleFile_loads : LoadsRight sampleFile.words sampleFile 0x1000 0x1000 :=
  loadHunkFile_right (sampleFile_wellFormed 0x1000 (by decide)) ⟨by decide, by decide, by decide⟩

/-! ### More steps change nothing -/

theorem relocate_mono {pcRelative skip : Bool} {hunks base fuel : ℕ} {r : ℕ × Bytes}
    (h : relocate f pcRelative skip p virt hunks base fuel w m = some r) :
    relocate f pcRelative skip p virt hunks base (fuel + 1) w m = some r := by
  induction fuel generalizing w m with
  | zero => exact absurd h (by simp [relocate])
  | succ fuel ih =>
    rw [relocate] at h ⊢
    split_ifs at h ⊢
    · exact h
    all_goals exact ih h

theorem skipSymbols_mono {fuel r : ℕ} (h : skipSymbols f fuel w = some r) :
    skipSymbols f (fuel + 1) w = some r := by
  induction fuel generalizing w with
  | zero => exact absurd h (by simp [skipSymbols])
  | succ fuel ih =>
    rw [skipSymbols] at h ⊢
    split_ifs at h ⊢
    · exact h
    · exact ih h

theorem readBlock_mono {hunks fuel : ℕ} {s r : Loading}
    (h : readBlock f p virt hunks fuel s = some r) :
    readBlock f p virt hunks (fuel + 1) s = some r := by
  unfold readBlock at h ⊢
  dsimp only at h ⊢
  split_ifs at h ⊢
  all_goals try exact h
  · obtain ⟨x, hx, rfl⟩ := Option.map_eq_some_iff.mp h
    rw [relocate_mono hx]
    rfl
  · obtain ⟨x, hx, rfl⟩ := Option.map_eq_some_iff.mp h
    rw [relocate_mono hx]
    rfl
  · obtain ⟨x, hx, rfl⟩ := Option.map_eq_some_iff.mp h
    rw [skipSymbols_mono hx]
    rfl

theorem loadLoop_mono {hunks fuel : ℕ} {s r : Loading}
    (h : loadLoop f p virt hunks fuel s = some r) :
    loadLoop f p virt hunks (fuel + 1) s = some r := by
  induction fuel generalizing s with
  | zero => exact absurd h (by simp [loadLoop])
  | succ fuel ih =>
    rw [loadLoop] at h ⊢
    obtain ⟨x, hx, hrest⟩ := Option.bind_eq_some_iff.mp h
    rw [readBlock_mono hx, Option.bind_some]
    split_ifs at hrest ⊢
    · exact ih hrest
    · exact hrest

theorem loadHunkFile_mono {fuel : ℕ} {r : Bytes × ℕ}
    (h : loadHunkFile f fuel m p virt = some r) (more : ℕ) :
    loadHunkFile f (fuel + more) m p virt = some r := by
  induction more with
  | zero => exact h
  | succ more ih =>
    unfold loadHunkFile at ih ⊢
    dsimp only at ih ⊢
    split_ifs at ih ⊢
    · obtain ⟨x, hx, rfl⟩ := Option.map_eq_some_iff.mp ih
      rw [← Nat.add_assoc, loadLoop_mono hx]
      rfl
    · exact ih

/-- With another virtual base the loader takes links for its own addresses. -/
theorem sampleFile_apart : WellFormed sampleFile.words sampleFile 0x1000 0x2000 ∧
    ¬ LoadsRight sampleFile.words sampleFile 0x1000 0x2000 := by
  refine ⟨sampleFile_wellFormed 0x2000 le_rfl, ?_⟩
  rintro ⟨-, -, hload⟩
  obtain ⟨m', hloaded, fuel₀, hrun⟩ := hload fun _ ↦ 0
  have hdata := hloaded.data 0 (by decide) 6 (by decide)
  have hwrong : ((loadHunkFile sampleFile.words 20 (fun _ ↦ 0) 0x1000 0x2000).map fun r ↦
      r.1 (sampleFile.addr 0x1000 0 + 8 + 6)) ≠
      some (sampleFile.contents 0x1000 0x2000 0 6) := by decide +kernel
  obtain ⟨r, hr⟩ : ∃ r, loadHunkFile sampleFile.words 20 (fun _ ↦ 0) 0x1000 0x2000 = some r :=
    Option.isSome_iff_exists.mp (by decide +kernel)
  have hsame := (loadHunkFile_mono hr fuel₀).symm.trans (hrun (20 + fuel₀) (by omega))
  obtain rfl : r = (m', 0x1004) := Option.some.inj hsame
  rw [hr] at hwrong
  exact hwrong (congrArg some hdata)

end Emu68.Hunk
