import Emu68.Jit.ExitBlocks
import Mathlib.Data.List.Basic
import Mathlib.Data.List.Nodup

/-!
Where the exit blocks of a unit end up. The extraction keeps the main path and collects the blocks
in order (`foldl_translateInsn`); the placement appends their code and touches the branches of the
main path only (`foldl_placeExit`). Everything is then as intended except the reach of the branches:
a `tbz` holds a signed 14-bit distance, and the source masks the distance without looking at it.
-/

set_option autoImplicit false
set_option relaxedAutoImplicit false

namespace Emu68.Jit

open A64

/-! ### The layout that is intended -/

/-- A branch of the main path, and the exit code that it should lead to. -/
structure Placement where
  location : ℕ
  kind : FixupKind
  target : ℕ
  body : List Word

/-- The branches of the instructions from `position` on, whose exits go to `target` on. -/
def placements : ℕ → ℕ → List Insn → List Placement
  | _, _, [] => []
  | position, target, insn :: rest =>
    insn.fixups.map (fun fixup ↦ ⟨position + fixup.1, fixup.2, target, insn.body⟩) ++
      placements (position + insn.main.length) (target + insn.body.length) rest

def mainPath (prologue : List Word) (insns : List Insn) (epilogue : List Word) : List Word :=
  prologue ++ insns.flatMap Insn.main ++ epilogue

def unitPlacements (prologue : List Word) (insns : List Insn) (epilogue : List Word) :
    List Placement :=
  placements prologue.length (mainPath prologue insns epilogue).length insns

/-- The offset field of a branch. -/
def FixupKind.mask : FixupKind → Word
  | .bcc => 0x7ffff
  | .tbz => 0x3fff

/-- The finished unit is the main path, but for the offsets of the recorded branches, and the exit
blocks; each recorded branch leads to the copy of its own block. -/
structure ExitsPlaced (path : List Word) (branches : List Placement) (out : List Word) : Prop where
  targets : ∀ p ∈ branches, ∃ before after, path[p.location]? = some before ∧
    out[p.location]? = some after ∧ SameBut p.kind.mask (I32 before) (I32 after) ∧
    branchTarget after p.location = some (p.target : ℤ)
  others : ∀ j < path.length, (∀ p ∈ branches, p.location ≠ j) → out[j]? = path[j]?
  copies : ∀ p ∈ branches, (out.drop p.target).take p.body.length = p.body ∧
    p.body.getLast? = some bxLr

/-- The `tbz` and `tbnz` branches are fewer than 8192 words before their exit blocks. -/
def WithinReach (branches : List Placement) : Prop :=
  ∀ p ∈ branches, p.kind = .tbz → p.target - p.location < 8192

/-! ### Taking the blocks out -/

theorem I32_injective {first second : Word} (h : I32 first = I32 second) : first = second := by
  rw [← I32_I32 first, h, I32_I32]

theorem endsWith_concat (code : List Word) (found marker : Word) :
    EndsWith (code ++ [I32 found]) marker ↔ found = marker := by
  rw [EndsWith, List.getLast?_concat, Option.some.injEq]
  exact ⟨I32_injective, congrArg I32⟩

theorem not_endsWith_of_isCode {code : List Word} {marker : Word}
    (h : ∀ word ∈ code.getLast?, IsCode word) (hmarker : marker.extractLsb' 16 16 = 0xffff#16) :
    ¬ EndsWith code marker := by
  intro hend
  refine h _ hend ?_
  rw [I32_I32]
  exact hmarker

theorem not_endsWith_markIf {code : List Word} {marker other : Word} (present : Bool)
    (hcode : ¬ EndsWith code marker) (hne : other ≠ marker) :
    ¬ EndsWith (code ++ markIf present other) marker := by
  cases present
  · rwa [markIf, if_neg (by decide), List.append_nil]
  · rw [markIf, if_pos rfl, endsWith_concat]
    exact hne

theorem takeMarker_spec {marker : Word} (note : TranslatorState → TranslatorState)
    {s : TranslatorState} {code : List Word} {present : Bool}
    (hnote : ∀ s, (note s).code = s.code ∧ (note s).exitList = s.exitList)
    (hs : s.code = code ++ markIf present marker) (hcode : ¬ EndsWith code marker) :
    (takeMarker marker note s).code = code ∧ (takeMarker marker note s).exitList = s.exitList := by
  cases present
  · rw [markIf, if_neg (by decide), List.append_nil] at hs
    rw [takeMarker, if_neg (by rwa [hs])]
    exact ⟨hs, rfl⟩
  · rw [markIf, if_pos rfl] at hs
    rw [takeMarker, if_pos (by rw [hs, endsWith_concat])]
    refine ⟨(hnote _).1.trans ?_, (hnote _).2⟩
    rw [hs, List.dropLast_concat]

/-- The markers are stripped from code that ends in none of them. -/
theorem takeMarkers_spec {s : TranslatorState} {code : List Word} (marks : Marks)
    (hs : s.code = code ++ marks.words) (hsaved : ¬ EndsWith code markerSavedLR)
    (hstop : ¬ EndsWith code markerStop) (hbreak : ¬ EndsWith code markerBreak) :
    (takeMarkers s).code = code ∧ (takeMarkers s).exitList = s.exitList := by
  rw [Marks.words, ← List.append_assoc, ← List.append_assoc] at hs
  have hsoft := not_endsWith_markIf marks.softBreak hsaved
    (show markerBreak ≠ markerSavedLR by decide)
  have h₁ := takeMarker_spec (fun s ↦ { s with lrIsSaved := true }) (fun _ ↦ ⟨rfl, rfl⟩) hs
    (not_endsWith_markIf marks.breakLoop hsoft (by decide))
  have h₂ := takeMarker_spec (fun s ↦ { s with breakLoop := true }) (fun _ ↦ ⟨rfl, rfl⟩)
    h₁.1 (not_endsWith_markIf marks.softBreak hstop (by decide))
  have h₃ := takeMarker_spec (fun s ↦ { s with softBreak := true }) (fun _ ↦ ⟨rfl, rfl⟩)
    h₂.1 hbreak
  exact ⟨h₃.1, h₃.2.trans (h₂.2.trans h₁.2)⟩

theorem getD_append_add (front back : List Word) (i : ℕ) :
    (front ++ back).getD (front.length + i) 0 = back.getD i 0 := by
  rw [List.getD_eq_getElem?_getD, List.getD_eq_getElem?_getD,
    List.getElem?_append_right (Nat.le_add_right _ _), Nat.add_sub_cancel_left]

/-- A record at the end gives back the code in front of it. -/
theorem takeExitBlock_record {s : TranslatorState} {front body : List Word} {target kind : Word}
    (hs : s.code = front ++ body ++
      [target, kind, BitVec.ofNat 32 body.length, I32 markerExitBlock])
    (hlength : body.length < 2 ^ 32) :
    takeExitBlock s = { s with
      code := front
      exitList := s.exitList ++
        [.exitBlock kind (front.length + body.length - target.toNat) body] } := by
  have hend : EndsWith s.code markerExitBlock := by
    rw [EndsWith, hs, List.getLast?_append]
    rfl
  have hptr : s.code.length - 4 = (front ++ body).length := by
    rw [hs, List.length_append]
    rfl
  have hcount : (s.code.getD ((front ++ body).length + 2) 0).toNat = body.length := by
    rw [hs, getD_append_add]
    exact Nat.mod_eq_of_lt hlength
  have htarget : s.code.getD (front ++ body).length 0 = target := by
    rw [hs]
    exact getD_append_add _ _ 0
  have hkind : s.code.getD ((front ++ body).length + 1) 0 = kind := by
    rw [hs, getD_append_add]
    rfl
  have hstart : (front ++ body).length - body.length = front.length := by
    rw [List.length_append, Nat.add_sub_cancel]
  rw [takeExitBlock, if_pos hend]
  simp only [hptr, hcount, htarget, hkind, hstart]
  rw [hs, List.append_assoc, List.drop_left, List.take_left, List.take_left, List.length_append]

theorem takeDoubleExit_record {s : TranslatorState} {front body : List Word}
    {target1 kind1 target2 kind2 : Word}
    (hs : s.code = front ++ body ++ [target1, kind1, target2, kind2,
      BitVec.ofNat 32 body.length, I32 markerDoubleExit])
    (hlength : body.length < 2 ^ 32) :
    takeDoubleExit s = { s with
      code := front
      exitList := s.exitList ++ [.doubleExitBlock
        kind1 (front.length + body.length - target1.toNat)
        kind2 (front.length + body.length - target2.toNat) body] } := by
  have hend : EndsWith s.code markerDoubleExit := by
    rw [EndsWith, hs, List.getLast?_append]
    rfl
  have hptr : s.code.length - 6 = (front ++ body).length := by
    rw [hs, List.length_append]
    rfl
  have hcount : (s.code.getD ((front ++ body).length + 4) 0).toNat = body.length := by
    rw [hs, getD_append_add]
    exact Nat.mod_eq_of_lt hlength
  have htarget1 : s.code.getD (front ++ body).length 0 = target1 := by
    rw [hs]
    exact getD_append_add _ _ 0
  have hkind1 : s.code.getD ((front ++ body).length + 1) 0 = kind1 := by
    rw [hs, getD_append_add]
    rfl
  have htarget2 : s.code.getD ((front ++ body).length + 2) 0 = target2 := by
    rw [hs, getD_append_add]
    rfl
  have hkind2 : s.code.getD ((front ++ body).length + 3) 0 = kind2 := by
    rw [hs, getD_append_add]
    rfl
  have hstart : (front ++ body).length - body.length = front.length := by
    rw [List.length_append, Nat.add_sub_cancel]
  rw [takeDoubleExit, if_pos hend]
  simp only [hptr, hcount, htarget1, hkind1, htarget2, hkind2, hstart]
  rw [hs, List.append_assoc, List.drop_left, List.take_left, List.take_left, List.length_append]

/-- The block that an instruction at `position` puts on the exit list. -/
def Insn.blocks (position : ℕ) : Insn → List ExitBlock
  | .plain _ => []
  | .exit _ branch kind code => [.exitBlock kind.code (position + branch) (exitCode code)]
  | .doubleExit _ branch1 kind1 branch2 kind2 code =>
    [.doubleExitBlock kind1.code (position + branch1) kind2.code (position + branch2)
      (exitCode code)]

variable {insn : Insn} {s : TranslatorState}

theorem Insn.WellFormed.branch_lt (h : insn.WellFormed) {fixup : ℕ × FixupKind}
    (hfixup : fixup ∈ insn.fixups) : fixup.1 < insn.main.length := by
  obtain ⟨word, hword, -⟩ := h.branches fixup hfixup
  exact (List.getElem?_eq_some_iff.mp hword).1

/-- The recorded distance leads back from the end of the exit code to the branch. -/
theorem location_eq {position main body branch : ℕ} (hbranch : branch < main)
    (hsize : main + body < 2 ^ 32) :
    position + main + body - (BitVec.ofNat 32 (main + body - branch)).toNat =
      position + branch := by
  have hmod : (BitVec.ofNat 32 (main + body - branch)).toNat = main + body - branch :=
    Nat.mod_eq_of_lt (by omega)
  rw [hmod]
  omega

/-- Code that ends in an instruction ends in none of the markers. -/
def EndsInCode (code : List Word) : Prop := ∀ word ∈ code.getLast?, IsCode word

theorem EndsInCode.append {front back : List Word} (hfront : EndsInCode front)
    (hback : EndsInCode back) : EndsInCode (front ++ back) := by
  intro word hword
  rw [List.getLast?_append] at hword
  cases hlast : back.getLast? with
  | none =>
    rw [hlast] at hword
    exact hfront word hword
  | some last =>
    rw [hlast] at hword
    exact hback word (by rw [hlast]; exact hword)

theorem Insn.WellFormed.not_endsWith (h : insn.WellFormed) {front : List Word}
    (hfront : EndsInCode front) {marker : Word} (hmarker : marker.extractLsb' 16 16 = 0xffff#16)
    (hexit : markerExitBlock ≠ marker) (hdouble : markerDoubleExit ≠ marker) :
    ¬ EndsWith (front ++ insn.main ++ insn.body ++ insn.record) marker := by
  cases insn with
  | plain main =>
    rw [Insn.body, Insn.record, List.append_nil, List.append_nil]
    exact not_endsWith_of_isCode (hfront.append h.code) hmarker
  | exit main branch kind code =>
    rw [Insn.record, EndsWith, List.getLast?_append]
    exact fun hend ↦ hexit (I32_injective (Option.some.inj hend))
  | doubleExit main branch1 kind1 branch2 kind2 code =>
    rw [Insn.record, EndsWith, List.getLast?_append]
    exact fun hend ↦ hdouble (I32_injective (Option.some.inj hend))

/-- One turn of the loop adds the instruction's code to the main path and its block to the list. -/
theorem translateInsn_spec (marks : Marks) (h : insn.WellFormed) (hs : EndsInCode s.code)
    (hsize : insn.main.length + insn.body.length < 2 ^ 32) :
    (translateInsn s (insn.words marks)).code = s.code ++ insn.main ∧
      (translateInsn s (insn.words marks)).exitList =
        s.exitList ++ insn.blocks s.code.length := by
  have hcode : EndsInCode (s.code ++ insn.main) := hs.append h.code
  obtain ⟨t, ht⟩ : ∃ t, t = takeMarkers { s with code := s.code ++ insn.words marks } := ⟨_, rfl⟩
  obtain ⟨htcode, htlist⟩ : t.code = s.code ++ insn.main ++ insn.body ++ insn.record ∧
      t.exitList = s.exitList := by
    rw [ht]
    refine takeMarkers_spec marks ?_ (h.not_endsWith hs (by decide) (by decide)
      (by decide)) (h.not_endsWith hs (by decide) (by decide) (by decide))
      (h.not_endsWith hs (by decide) (by decide) (by decide))
    simp only [Insn.words, List.append_assoc]
  have hturn : translateInsn s (insn.words marks) = takeDoubleExit (takeExitBlock t) := by
    rw [ht, translateInsn]
  rw [hturn]
  cases insn with
  | plain main =>
    simp only [Insn.main, Insn.body, Insn.record, List.append_nil] at htcode hcode
    have hexit : ¬ EndsWith t.code markerExitBlock := by
      rw [htcode]
      exact not_endsWith_of_isCode hcode (by decide)
    have hdouble : ¬ EndsWith t.code markerDoubleExit := by
      rw [htcode]
      exact not_endsWith_of_isCode hcode (by decide)
    rw [takeExitBlock, if_neg hexit, takeDoubleExit, if_neg hdouble, htcode, htlist, Insn.blocks,
      List.append_nil]
    exact ⟨rfl, rfl⟩
  | exit main branch kind code =>
    simp only [Insn.main, Insn.body, Insn.record, Nat.add_sub_cancel_left] at htcode hcode hsize
    have hbranch : branch < main.length := h.branch_lt (List.mem_singleton.mpr rfl)
    have hexit := takeExitBlock_record htcode (by omega)
    have hdouble : ¬ EndsWith (takeExitBlock t).code markerDoubleExit := by
      rw [hexit]
      exact not_endsWith_of_isCode hcode (by decide)
    rw [takeDoubleExit, if_neg hdouble, hexit, htlist, List.length_append,
      location_eq hbranch hsize]
    exact ⟨rfl, rfl⟩
  | doubleExit main branch1 kind1 branch2 kind2 code =>
    simp only [Insn.main, Insn.body, Insn.record, Nat.add_sub_cancel_left] at htcode hcode hsize
    have hbranch1 : branch1 < main.length := by
      have hmem : (branch1, kind1) ∈
          (Insn.doubleExit main branch1 kind1 branch2 kind2 code).fixups := List.mem_cons_self
      exact h.branch_lt hmem
    have hbranch2 : branch2 < main.length := by
      have hmem : (branch2, kind2) ∈
          (Insn.doubleExit main branch1 kind1 branch2 kind2 code).fixups :=
        List.mem_cons_of_mem _ (List.mem_singleton.mpr rfl)
      exact h.branch_lt hmem
    have hexit : ¬ EndsWith t.code markerExitBlock := by
      rw [htcode, EndsWith, List.getLast?_append]
      exact fun hend ↦ absurd (I32_injective (Option.some.inj hend)) (by decide)
    rw [takeExitBlock, if_neg hexit, takeDoubleExit_record htcode (by omega), htlist,
      List.length_append, location_eq hbranch1 hsize, location_eq hbranch2 hsize]
    exact ⟨rfl, rfl⟩

/-- The exit list after the instructions from `position` on. -/
def blocksFrom : ℕ → List Insn → List ExitBlock
  | _, [] => []
  | position, insn :: rest => insn.blocks position ++ blocksFrom (position + insn.main.length) rest

/-- The loop leaves the main path in the buffer and the blocks, in order, on the list. -/
theorem foldl_translateInsn (insns : List (Insn × Marks))
    (h : ∀ p ∈ insns, p.1.WellFormed ∧ p.1.main.length + p.1.body.length < 2 ^ 32) :
    ∀ s : TranslatorState, EndsInCode s.code →
      let s' := (insns.map fun p ↦ p.1.words p.2).foldl translateInsn s
      s'.code = s.code ++ (insns.map Prod.fst).flatMap Insn.main ∧
        s'.exitList = s.exitList ++ blocksFrom s.code.length (insns.map Prod.fst) := by
  induction insns with
  | nil => exact fun s _ ↦ ⟨by simp, by simp [blocksFrom]⟩
  | cons p rest ih =>
    intro s hs
    obtain ⟨hwf, hsize⟩ := h p List.mem_cons_self
    obtain ⟨hcode, hlist⟩ := translateInsn_spec p.2 hwf hs hsize
    obtain ⟨hcode', hlist'⟩ := ih (fun q hq ↦ h q (List.mem_cons_of_mem _ hq))
      (translateInsn s (p.1.words p.2)) (by rw [hcode]; exact hs.append hwf.code)
    refine ⟨?_, ?_⟩
    · rw [List.map_cons, List.foldl_cons, hcode', hcode, List.map_cons, List.flatMap_cons,
        List.append_assoc]
    · rw [List.map_cons, List.foldl_cons, hlist', hlist, hcode, List.map_cons, blocksFrom,
        List.append_assoc, List.length_append]

/-! ### Placing the blocks -/

/-- The word of a patched branch. -/
def FixupKind.patched (kind : FixupKind) (word : Word) (distance : ℕ) : Word :=
  I32 (setOffset kind.mask (I32 word) (BitVec.ofNat 32 distance))

theorem patchFixup_code (code : List Word) (kind : FixupKind) (location oldEnd : ℕ) :
    patchFixup code kind.code location oldEnd =
      code.set location (kind.patched (code.getD location 0) (oldEnd - location)) := by
  cases kind
  · rfl
  · rw [patchFixup, if_neg (by decide), if_pos (by rfl)]
    rfl

/-- A patch of the main path leaves what follows it alone. -/
theorem patchFixup_append {front : List Word} (back : List Word) (kind : FixupKind)
    {location : ℕ} (oldEnd : ℕ) (h : location < front.length) :
    patchFixup (front ++ back) kind.code location oldEnd =
      patchFixup front kind.code location oldEnd ++ back := by
  rw [patchFixup_code, patchFixup_code, List.getD_eq_getElem?_getD, List.getElem?_append_left h,
    ← List.getD_eq_getElem?_getD, List.set_append_left _ _ h]

theorem length_patchFixup (code : List Word) (kind : FixupKind) (location oldEnd : ℕ) :
    (patchFixup code kind.code location oldEnd).length = code.length := by
  rw [patchFixup_code, List.length_set]

/-- The patches of a list of branches. -/
def patchAll (path : List Word) (branches : List Placement) : List Word :=
  branches.foldl (fun code p ↦ patchFixup code p.kind.code p.location p.target) path

theorem length_patchAll (branches : List Placement) (path : List Word) :
    (patchAll path branches).length = path.length := by
  induction branches generalizing path with
  | nil => rfl
  | cons p rest ih =>
    rw [patchAll, List.foldl_cons]
    exact (ih _).trans (length_patchFixup _ _ _ _)

/-- The exit blocks are appended, and only the main path is patched. -/
theorem foldl_placeExit (insns : List Insn) (h : ∀ insn ∈ insns, insn.WellFormed) :
    ∀ (position : ℕ) (path back : List Word),
      position + (insns.flatMap Insn.main).length ≤ path.length →
      (blocksFrom position insns).foldl placeExit (path ++ back) =
        patchAll path (placements position (path ++ back).length insns) ++
          (back ++ insns.flatMap Insn.body) := by
  induction insns with
  | nil => exact fun position path back _ ↦ by simp [blocksFrom, placements, patchAll]
  | cons insn rest ih =>
    intro position path back hfits
    rw [List.flatMap_cons, List.length_append] at hfits
    have hbranch : ∀ fixup ∈ insn.fixups, position + fixup.1 < path.length := by
      intro fixup hfixup
      have := (h insn List.mem_cons_self).branch_lt hfixup
      omega
    -- the block of the first instruction is appended and its branches are patched
    have hfirst : (insn.blocks position).foldl placeExit (path ++ back) =
        patchAll path (insn.fixups.map fun fixup ↦
          ⟨position + fixup.1, fixup.2, (path ++ back).length, insn.body⟩) ++
          (back ++ insn.body) := by
      cases insn with
      | plain main => simp [Insn.blocks, Insn.fixups, Insn.body, patchAll]
      | exit main branch kind code =>
        have hlt := hbranch (branch, kind) (List.mem_singleton.mpr rfl)
        simp only [Insn.blocks, Insn.fixups, Insn.body, patchAll, List.foldl_cons, List.foldl_nil,
          List.map_cons, List.map_nil, placeExit]
        rw [List.append_assoc, patchFixup_append _ _ _ hlt]
      | doubleExit main branch1 kind1 branch2 kind2 code =>
        have hlt1 := hbranch (branch1, kind1) List.mem_cons_self
        have hlt2 := hbranch (branch2, kind2) (List.mem_cons_of_mem _ (List.mem_singleton.mpr rfl))
        simp only [Insn.blocks, Insn.fixups, Insn.body, patchAll, List.foldl_cons, List.foldl_nil,
          List.map_cons, List.map_nil, placeExit]
        rw [List.append_assoc, patchFixup_append _ _ _ hlt1,
          patchFixup_append _ _ _ (by rw [length_patchFixup]; exact hlt2)]
    have hlength : (path ++ back).length + insn.body.length =
        (patchAll path (insn.fixups.map fun fixup ↦
          ⟨position + fixup.1, fixup.2, (path ++ back).length, insn.body⟩) ++
          (back ++ insn.body)).length := by
      simp only [List.length_append, length_patchAll]
      omega
    rw [blocksFrom, List.foldl_append, hfirst,
      ih (fun i hi ↦ h i (List.mem_cons_of_mem _ hi)) _ _ _ (by rw [length_patchAll]; omega),
      ← hlength, placements, List.flatMap_cons, List.append_assoc]
    congr 1
    simp only [patchAll, List.foldl_append]

/-- A patch changes no word but the branch itself. -/
theorem patchAll_other (branches : List Placement) {j : ℕ} (h : ∀ p ∈ branches, p.location ≠ j)
    (path : List Word) : (patchAll path branches)[j]? = path[j]? := by
  induction branches generalizing path with
  | nil => rfl
  | cons p rest ih =>
    rw [patchAll, List.foldl_cons]
    refine (ih (fun q hq ↦ h q (List.mem_cons_of_mem _ hq)) _).trans ?_
    rw [patchFixup_code, List.getElem?_set_ne (h p List.mem_cons_self)]

theorem patchAll_branch (branches : List Placement)
    (hnodup : (branches.map Placement.location).Nodup) {p : Placement} (hp : p ∈ branches)
    {word : Word} (path : List Word) (hword : path[p.location]? = some word) :
    (patchAll path branches)[p.location]? =
      some (p.kind.patched word (p.target - p.location)) := by
  induction branches generalizing path with
  | nil => exact absurd hp List.not_mem_nil
  | cons q rest ih =>
    rw [List.map_cons, List.nodup_cons] at hnodup
    rw [patchAll, List.foldl_cons]
    rcases List.mem_cons.mp hp with rfl | hp
    · have hother : ∀ r ∈ rest, r.location ≠ p.location :=
        fun r hr heq ↦ hnodup.1 (List.mem_map.mpr ⟨r, hr, heq⟩)
      refine (patchAll_other rest hother _).trans ?_
      have hlt := (List.getElem?_eq_some_iff.mp hword).1
      rw [patchFixup_code, List.getElem?_set_self hlt, List.getD_eq_getElem?_getD, hword,
        Option.getD_some]
    · have hne : q.location ≠ p.location :=
        fun heq ↦ hnodup.1 (List.mem_map.mpr ⟨p, hp, heq.symm⟩)
      refine ih hnodup.2 hp _ ?_
      rw [patchFixup_code, List.getElem?_set_ne hne, hword]

/-- A branch of the instructions from `position` on, with exits from `target` on. -/
structure Placement.Belongs (p : Placement) (position target : ℕ) (insns : List Insn) : Prop where
  le_location : position ≤ p.location
  branch : ∃ word, (insns.flatMap Insn.main)[p.location - position]? = some word ∧
    p.kind.Matches word
  le_target : target ≤ p.target
  target_le : p.target - target + p.body.length ≤ (insns.flatMap Insn.body).length
  copy : ((insns.flatMap Insn.body).drop (p.target - target)).take p.body.length = p.body
  ends : p.body.getLast? = some bxLr

theorem Insn.body_ends (insn : Insn) (h : insn.fixups ≠ []) : insn.body.getLast? = some bxLr := by
  cases insn with
  | plain main => exact absurd rfl h
  | exit main branch kind code => exact List.getLast?_concat
  | doubleExit main branch1 kind1 branch2 kind2 code => exact List.getLast?_concat

theorem belongs_of_mem (insns : List Insn) (h : ∀ insn ∈ insns, insn.WellFormed) :
    ∀ position target, ∀ p ∈ placements position target insns,
      p.Belongs position target insns := by
  induction insns with
  | nil => exact fun position target p hp ↦ absurd hp List.not_mem_nil
  | cons insn rest ih =>
    intro position target p hp
    rcases List.mem_append.mp hp with hp | hp
    · obtain ⟨fixup, hfixup, rfl⟩ := List.mem_map.mp hp
      obtain ⟨word, hword, hmatches⟩ := (h insn List.mem_cons_self).branches fixup hfixup
      refine ⟨Nat.le_add_right _ _, ⟨word, ?_, hmatches⟩, le_rfl, ?_, ?_,
        insn.body_ends (List.ne_nil_of_mem hfixup)⟩
      · have hlt := (List.getElem?_eq_some_iff.mp hword).1
        rw [Nat.add_sub_cancel_left, List.flatMap_cons, List.getElem?_append_left hlt, hword]
      · rw [Nat.sub_self, Nat.zero_add, List.flatMap_cons, List.length_append]
        exact Nat.le_add_right _ _
      · rw [Nat.sub_self, List.drop_zero, List.flatMap_cons, List.take_left]
    · obtain ⟨hlow, ⟨word, hword, hmatches⟩, htarget, hle, hcopy, hends⟩ :=
        ih (fun i hi ↦ h i (List.mem_cons_of_mem _ hi)) _ _ p hp
      refine ⟨by omega, ⟨word, ?_, hmatches⟩, by omega, ?_, ?_, hends⟩
      · rw [List.flatMap_cons, List.getElem?_append_right (by omega), ← hword]
        congr 1
        omega
      · rw [List.flatMap_cons, List.length_append]
        omega
      · have hsplit : p.target - target =
            insn.body.length + (p.target - (target + insn.body.length)) := by omega
        rw [List.flatMap_cons, hsplit, ← List.drop_drop, List.drop_left, hcopy]

theorem nodup_locations (insns : List Insn) (h : ∀ insn ∈ insns, insn.WellFormed) :
    ∀ position target, ((placements position target insns).map Placement.location).Nodup := by
  induction insns with
  | nil => exact fun position target ↦ List.nodup_nil
  | cons insn rest ih =>
    intro position target
    have hwf := h insn List.mem_cons_self
    have hrest : ∀ i ∈ rest, i.WellFormed := fun i hi ↦ h i (List.mem_cons_of_mem _ hi)
    rw [placements, List.map_append, List.nodup_append']
    refine ⟨?_, ih hrest _ _, ?_⟩
    · rw [List.map_map]
      have hmap : (Placement.location ∘ fun fixup : ℕ × FixupKind ↦
          (⟨position + fixup.1, fixup.2, target, insn.body⟩ : Placement)) =
            (fun branch ↦ position + branch) ∘ Prod.fst := rfl
      rw [hmap, ← List.map_map]
      exact hwf.distinct.map fun a b hab ↦ Nat.add_left_cancel hab
    · -- the branches of later instructions come later
      intro location hfirst hlater
      obtain ⟨p, hp, rfl⟩ := List.mem_map.mp hfirst
      obtain ⟨q, hq, hsame⟩ := List.mem_map.mp hlater
      obtain ⟨fixup, hfixup, rfl⟩ := List.mem_map.mp hp
      have hlt := hwf.branch_lt hfixup
      have hlow := (belongs_of_mem rest hrest _ _ q hq).le_location
      simp only at hsame
      omega

/-! ### The finished unit -/

/-- The words that a unit takes, with the marker at its end. -/
def unitSize (prologue : List Word) (insns : List Insn) (epilogue : List Word) : ℕ :=
  (mainPath prologue insns epilogue).length + (insns.flatMap Insn.body).length + 1

/-- The words that `M68K_GetTranslationUnit` allocates for a unit. -/
def armCodeCapacity (icnt : UInt8) : ℕ := (icnt.toNat + 1) * 64

theorem armCodeCapacity_le (icnt : UInt8) : armCodeCapacity icnt ≤ 16384 := by
  have hlt := icnt.toNat_lt
  rw [armCodeCapacity]
  omega

variable {prologue epilogue : List Word} {insns : List (Insn × Marks)}

theorem m68kTranslate_eq (hprologue : EndsInCode prologue) (hwf : ∀ p ∈ insns, p.1.WellFormed)
    (hfits : unitSize prologue (insns.map Prod.fst) epilogue ≤ 16384) :
    m68kTranslate prologue (insns.map fun p ↦ p.1.words p.2) epilogue =
      patchAll (mainPath prologue (insns.map Prod.fst) epilogue)
        (unitPlacements prologue (insns.map Prod.fst) epilogue) ++
        ((insns.map Prod.fst).flatMap Insn.body ++ [0xffffffff]) := by
  rw [unitSize, mainPath, List.length_append, List.length_append] at hfits
  have hsize : ∀ p ∈ insns, p.1.WellFormed ∧ p.1.main.length + p.1.body.length < 2 ^ 32 := by
    intro p hp
    have hmem : p.1 ∈ insns.map Prod.fst := List.mem_map_of_mem hp
    have hmain :=
      (List.sublist_flatten_of_mem (List.mem_map_of_mem (f := Insn.main) hmem)).length_le
    have hbody :=
      (List.sublist_flatten_of_mem (List.mem_map_of_mem (f := Insn.body) hmem)).length_le
    rw [← List.flatMap_def] at hmain hbody
    exact ⟨hwf p hp, by omega⟩
  obtain ⟨hcode, hlist⟩ := foldl_translateInsn insns hsize ⟨prologue, [], false, false, false⟩
    hprologue
  have hwf' : ∀ insn ∈ insns.map Prod.fst, insn.WellFormed := by
    intro insn hinsn
    obtain ⟨p, hp, rfl⟩ := List.mem_map.mp hinsn
    exact hwf p hp
  have hplaced := foldl_placeExit (insns.map Prod.fst) hwf' prologue.length
    (mainPath prologue (insns.map Prod.fst) epilogue) []
    (by rw [mainPath, List.length_append, List.length_append]; omega)
  rw [List.append_nil, List.nil_append] at hplaced
  rw [m68kTranslate]
  simp only [hcode, hlist, List.nil_append]
  rw [← List.append_assoc, unitPlacements, ← hplaced, mainPath]

theorem wellFormed_map (hwf : ∀ p ∈ insns, p.1.WellFormed) :
    ∀ insn ∈ insns.map Prod.fst, insn.WellFormed := by
  intro insn hinsn
  obtain ⟨p, hp, rfl⟩ := List.mem_map.mp hinsn
  exact hwf p hp

/-- What stands at the location of a branch before and after the placement. -/
theorem finished_branch (hprologue : EndsInCode prologue) (hwf : ∀ p ∈ insns, p.1.WellFormed)
    (hfits : unitSize prologue (insns.map Prod.fst) epilogue ≤ 16384) {p : Placement}
    (hp : p ∈ unitPlacements prologue (insns.map Prod.fst) epilogue) :
    p.location < p.target ∧ p.target < 16384 ∧
      ∃ word, (mainPath prologue (insns.map Prod.fst) epilogue)[p.location]? = some word ∧
        p.kind.Matches word ∧
        (m68kTranslate prologue (insns.map fun p ↦ p.1.words p.2) epilogue)[p.location]? =
          some (p.kind.patched word (p.target - p.location)) := by
  have hb := belongs_of_mem _ (wellFormed_map hwf) _ _ p hp
  obtain ⟨word, hword, hmatches⟩ := hb.branch
  have hlow := hb.le_location
  have hhigh := hb.le_target
  have hend := hb.target_le
  have hbody : 0 < p.body.length := by
    refine List.length_pos_iff.mpr fun hnil ↦ ?_
    have hends := hb.ends
    rw [hnil] at hends
    cases hends
  have hbefore : (mainPath prologue (insns.map Prod.fst) epilogue)[p.location]? = some word := by
    have hlt := (List.getElem?_eq_some_iff.mp hword).1
    rw [mainPath, List.append_assoc, List.getElem?_append_right hlow,
      List.getElem?_append_left hlt, hword]
  have hlt := (List.getElem?_eq_some_iff.mp hbefore).1
  rw [unitSize] at hfits
  refine ⟨by omega, by omega, word, hbefore, hmatches, ?_⟩
  rw [m68kTranslate_eq hprologue hwf hfits,
    List.getElem?_append_left (by rw [length_patchAll]; exact hlt)]
  exact patchAll_branch _ (nodup_locations _ (wellFormed_map hwf) _ _) hp _ hbefore

theorem withinReach_of_exitsPlaced (hprologue : EndsInCode prologue)
    (hwf : ∀ p ∈ insns, p.1.WellFormed)
    (hfits : unitSize prologue (insns.map Prod.fst) epilogue ≤ 16384)
    (h : ExitsPlaced (mainPath prologue (insns.map Prod.fst) epilogue)
      (unitPlacements prologue (insns.map Prod.fst) epilogue)
      (m68kTranslate prologue (insns.map fun p ↦ p.1.words p.2) epilogue)) :
    WithinReach (unitPlacements prologue (insns.map Prod.fst) epilogue) := by
  intro p hp htbz
  obtain ⟨hlow, hhigh, word, -, hmatches, hat⟩ := finished_branch hprologue hwf hfits hp
  obtain ⟨_, after, -, hafter, -, htarget⟩ := h.targets p hp
  obtain rfl : p.kind.patched word (p.target - p.location) = after :=
    Option.some.inj (hat.symm.trans hafter)
  rw [htbz] at hmatches htarget
  refine (branchTarget_tbz hmatches (by omega) p.location).mp ?_
  rw [Nat.add_sub_cancel' (Nat.le_of_lt hlow)]
  exact htarget

theorem exitsPlaced_of_withinReach (hprologue : EndsInCode prologue)
    (hwf : ∀ p ∈ insns, p.1.WellFormed)
    (hfits : unitSize prologue (insns.map Prod.fst) epilogue ≤ 16384)
    (hreach : WithinReach (unitPlacements prologue (insns.map Prod.fst) epilogue)) :
    ExitsPlaced (mainPath prologue (insns.map Prod.fst) epilogue)
      (unitPlacements prologue (insns.map Prod.fst) epilogue)
      (m68kTranslate prologue (insns.map fun p ↦ p.1.words p.2) epilogue) where
  targets p hp := by
    obtain ⟨hlow, hhigh, word, hbefore, hmatches, hafter⟩ := finished_branch hprologue hwf hfits hp
    have hsum : p.location + (p.target - p.location) = p.target := by omega
    refine ⟨word, _, hbefore, hafter, ?_, ?_⟩
    · rw [FixupKind.patched, I32_I32]
      exact sameBut_setOffset
    · cases hkind : p.kind with
      | bcc =>
        rw [hkind] at hmatches
        exact (branchTarget_bCc hmatches (by omega) p.location).trans (by rw [hsum])
      | tbz =>
        rw [hkind] at hmatches
        have hnear := hreach p hp hkind
        exact ((branchTarget_tbz hmatches (by omega) p.location).mpr hnear).trans (by rw [hsum])
  others j hj hother := by
    rw [m68kTranslate_eq hprologue hwf hfits,
      List.getElem?_append_left (by rw [length_patchAll]; exact hj)]
    exact patchAll_other _ hother _
  copies p hp := by
    have hb := belongs_of_mem _ (wellFormed_map hwf) _ _ p hp
    have hend := hb.target_le
    refine ⟨?_, hb.ends⟩
    have hsplit : p.target = (patchAll (mainPath prologue (insns.map Prod.fst) epilogue)
        (unitPlacements prologue (insns.map Prod.fst) epilogue)).length +
          (p.target - (mainPath prologue (insns.map Prod.fst) epilogue).length) := by
      have := hb.le_target
      rw [length_patchAll]
      omega
    rw [m68kTranslate_eq hprologue hwf hfits, hsplit, ← List.drop_drop, List.drop_left,
      List.drop_append_of_le_length (by omega),
      List.take_append_of_le_length (by rw [List.length_drop]; omega), hb.copy]

/-- The exit blocks of a unit that fits its buffer are placed as intended exactly if its `tbz`
branches reach them. -/
theorem exitsPlaced_iff (prologue : List Word) (insns : List (Insn × Marks))
    (epilogue : List Word) (icnt : UInt8) (hprologue : EndsInCode prologue)
    (hwf : ∀ p ∈ insns, p.1.WellFormed)
    (hfits : unitSize prologue (insns.map Prod.fst) epilogue ≤ armCodeCapacity icnt) :
    ExitsPlaced (mainPath prologue (insns.map Prod.fst) epilogue)
        (unitPlacements prologue (insns.map Prod.fst) epilogue)
        (m68kTranslate prologue (insns.map fun p ↦ p.1.words p.2) epilogue) ↔
      WithinReach (unitPlacements prologue (insns.map Prod.fst) epilogue) :=
  have hsize := hfits.trans (armCodeCapacity_le icnt)
  ⟨withinReach_of_exitsPlaced hprologue hwf hsize, exitsPlaced_of_withinReach hprologue hwf hsize⟩

/-- A conditional branch whose flag is tested in the status register, with its exit. -/
def testedBranch : Insn := .exit [tbz 9 2 0] 0 .tbz []

theorem testedBranch_wellFormed : testedBranch.WellFormed where
  code := by
    intro word hword
    obtain rfl := Option.some.inj hword
    unfold IsCode
    decide
  branches := by
    intro fixup hfixup
    obtain rfl := List.mem_singleton.mp hfixup
    refine ⟨_, rfl, ?_⟩
    change IsTbz _
    decide
  distinct := List.nodup_singleton _

/-- An instruction of 33 words of code. -/
def longInsn : Insn := .plain (List.replicate 33 (I32 0xd503201f))

theorem longInsn_wellFormed : longInsn.WellFormed where
  code := by
    intro word hword
    obtain rfl := Option.some.inj hword
    unfold IsCode
    decide
  branches := fun _ hfixup ↦ absurd hfixup List.not_mem_nil
  distinct := List.nodup_nil

def noMarks : Marks := ⟨false, false, false⟩

theorem exitsPlaced_iff_near :
    ExitsPlaced (mainPath [] [testedBranch, longInsn] [bxLr])
        (unitPlacements [] [testedBranch, longInsn] [bxLr])
        (m68kTranslate [] [testedBranch.words noMarks, longInsn.words noMarks] [bxLr]) ↔
      WithinReach (unitPlacements [] [testedBranch, longInsn] [bxLr]) :=
  exitsPlaced_iff [] [(testedBranch, noMarks), (longInsn, noMarks)] [bxLr] 31
    (fun _ hword ↦ by cases hword)
    (fun p hp ↦ by
      rcases List.mem_cons.mp hp with rfl | hp
      · exact testedBranch_wellFormed
      · obtain rfl := List.mem_singleton.mp hp
        exact longInsn_wellFormed)
    (by decide)

/-- A branch on a flag, and 255 long instructions: a unit of half the buffer. -/
def farUnit : List Insn := testedBranch :: List.replicate 255 longInsn

theorem length_farPath : (mainPath [] farUnit [bxLr]).length = 8417 := by
  have hlong : (List.replicate 255 longInsn).flatMap Insn.main =
      List.replicate (255 * 33) (I32 0xd503201f) := by
    rw [List.flatMap_replicate, longInsn, Insn.main, List.flatten_replicate_replicate]
  rw [mainPath, farUnit, List.flatMap_cons, hlong]
  simp only [testedBranch, Insn.main, List.length_append, List.length_replicate, List.length_cons,
    List.length_nil]

/-- The unit fits its buffer, but its first branch misses its exit block. -/
theorem tbz_out_of_reach :
    unitSize [] farUnit [bxLr] ≤ armCodeCapacity 255 ∧ (∀ insn ∈ farUnit, insn.WellFormed) ∧
      ¬ ExitsPlaced (mainPath [] farUnit [bxLr]) (unitPlacements [] farUnit [bxLr])
        (m68kTranslate [] (farUnit.map fun insn ↦ insn.words noMarks) [bxLr]) := by
  have hbodies : (farUnit.flatMap Insn.body).length = 1 := by
    have hlong : (List.replicate 255 longInsn).flatMap Insn.body = [] := by
      rw [List.flatMap_replicate]
      exact List.flatten_replicate_nil
    rw [farUnit, List.flatMap_cons, hlong]
    rfl
  have hsize : unitSize [] farUnit [bxLr] ≤ armCodeCapacity 255 := by
    rw [unitSize, length_farPath, hbodies]
    decide
  have hwf : ∀ insn ∈ farUnit, insn.WellFormed := by
    intro insn hinsn
    rcases List.mem_cons.mp hinsn with rfl | hinsn
    · exact testedBranch_wellFormed
    · rw [List.eq_of_mem_replicate hinsn]
      exact longInsn_wellFormed
  refine ⟨hsize, hwf, fun hplaced ↦ ?_⟩
  obtain ⟨insns, hinsns⟩ : ∃ insns : List (Insn × Marks),
      insns = farUnit.map fun insn ↦ (insn, noMarks) := ⟨_, rfl⟩
  have hfst : insns.map Prod.fst = farUnit := by
    rw [hinsns, List.map_map]
    exact List.map_id _
  have hwords : (insns.map fun p ↦ p.1.words p.2) =
      farUnit.map fun insn ↦ insn.words noMarks := by
    rw [hinsns, List.map_map]
    rfl
  have hwf' : ∀ p ∈ insns, p.1.WellFormed := fun p hp ↦
    hwf p.1 (hfst ▸ List.mem_map_of_mem hp)
  rw [← hwords] at hplaced
  rw [← hfst] at hplaced hsize
  have hreach := withinReach_of_exitsPlaced (fun _ hword ↦ by cases hword) hwf'
    (hsize.trans (armCodeCapacity_le 255)) hplaced
  rw [hfst] at hreach
  rw [unitPlacements, length_farPath] at hreach
  have hmem : (⟨0, .tbz, 8417, exitCode []⟩ : Placement) ∈ placements 0 8417 farUnit :=
    List.mem_append_left _ List.mem_cons_self
  exact absurd (hreach _ hmem rfl) (by decide)

end Emu68.Jit
