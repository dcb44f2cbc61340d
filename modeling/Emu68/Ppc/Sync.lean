import Emu68.Ppc.CodeEffects
import Emu68.Ppc.Translator

/-!
While a unit is translated, the program counter of an execution that is still in the unit lags
behind the code pointer by the offset that the translator remembers. If the last call or return was
a call, the link register holds the address on the top of the return stack.
-/

set_option autoImplicit false
set_option relaxedAutoImplicit false

namespace Emu68.Ppc

open A64 (Reg Cpu)

/-! ### The stream without markers -/

def Op.isMarker : Op → Bool
  | .exitBlock | .stop | .softBreak => true
  | _ => false

/-- The code that stays in the stream. -/
def visible (code : List Op) : List Op := (processMarkers code.reverse).2.2.reverse

/-- The markers at the end of the code end the unit. -/
def stops (code : List Op) : Bool := (processMarkers code.reverse).1

theorem processMarkers_op {op : Op} (h : op.isMarker = false) (rest : List Op) :
    processMarkers (op :: rest) = (false, false, op :: rest) := by
  cases op <;> first | rfl | exact absurd h Bool.true_eq_false.mp

theorem visible_of_clean {code : List Op} (h : ∀ op ∈ code, op.isMarker = false) :
    visible code = code := by
  unfold visible
  cases hcode : code.reverse with
  | nil => exact (List.reverse_eq_nil_iff.mp hcode).symm
  | cons op rest =>
    have hop : op ∈ code := List.mem_reverse.mp (hcode ▸ List.mem_cons_self)
    rw [processMarkers_op (h op hop), ← hcode, List.reverse_reverse]

theorem processMarkers_markers : ∀ {markers : List Op}, (∀ m ∈ markers, m.isMarker = true) →
    ∀ rest, (processMarkers (markers ++ rest)).2.2 = (processMarkers rest).2.2
  | [], _, _ => rfl
  | m :: markers, h, rest => by
    have ih := processMarkers_markers (fun m' hm' ↦ h m' (List.mem_cons_of_mem _ hm')) rest
    have hm := h m List.mem_cons_self
    cases m <;> first | exact ih | exact absurd hm Bool.false_ne_true

theorem visible_markers {code markers : List Op} (h : ∀ m ∈ markers, m.isMarker = true) :
    visible (code ++ markers) = visible code := by
  unfold visible
  rw [List.reverse_append, processMarkers_markers fun m hm ↦ h m (List.mem_reverse.mp hm)]

theorem processMarkers_append (rest : List Op) (hrest : (processMarkers rest).2.2 = rest) :
    ∀ code, (processMarkers (code ++ rest)).2.2 = (processMarkers code).2.2 ++ rest
  | [] => hrest
  | op :: code => by
    have ih := processMarkers_append rest hrest code
    cases op <;> first | exact ih | rfl

theorem visible_append {code : List Op} (h : visible code = code) (added : List Op) :
    visible (code ++ added) = code ++ visible added := by
  have hrest : (processMarkers code.reverse).2.2 = code.reverse := by
    rw [← List.reverse_reverse (processMarkers code.reverse).2.2]
    exact congrArg List.reverse h
  unfold visible
  rw [List.reverse_append, processMarkers_append _ hrest, List.reverse_append, List.reverse_reverse]

theorem processMarkers_idem : ∀ code,
    (processMarkers (processMarkers code).2.2).2.2 = (processMarkers code).2.2
  | [] => rfl
  | op :: code => by
    have ih := processMarkers_idem code
    cases op <;> first | exact ih | rfl

theorem visible_visible (code : List Op) : visible (visible code) = visible code := by
  unfold visible
  rw [List.reverse_reverse, processMarkers_idem]

theorem processMarkers_stops (rest : List Op) : ∀ code, (processMarkers code).1 = true →
    (processMarkers (code ++ rest)).1 = true
  | [], h => absurd h Bool.false_ne_true
  | op :: code, h => by
    have ih := processMarkers_stops rest code
    cases op <;> first | exact ih h | rfl | exact absurd h Bool.false_ne_true

theorem stops_append {code added : List Op} (h : stops added = true) :
    stops (code ++ added) = true := by
  unfold stops
  rw [List.reverse_append]
  exact processMarkers_stops _ _ h

/-! ### The program counter in step -/

/-- A word address. -/
def AlignedPtr (pc : CodePtr) : Prop := pc.setWidth 2 = 0#2

/-- What holds of the translator's own state while it goes on. -/
structure Placed (tc : Context) : Prop where
  rel_nonneg : 0 ≤ tc.pcRel
  rel_le : tc.pcRel ≤ 120
  aligned : AlignedPtr tc.codePtr
  stack : ∀ retAddr ∈ tc.returnStack.entries, AlignedPtr retAddr

/-- What holds of an execution. `fresh` says that the top of the stack belongs to the last call. -/
structure InStep (fresh : Bool) (tc : Context) (v : Word × Word) : Prop where
  pc : v.1 + BitVec.ofInt 32 tc.pcRel = tc.codePtr.setWidth 32
  lr : fresh = true → ∀ top, tc.returnStack.pop.1 = some top → v.2 = top.setWidth 32

/-- The code that a decoder has emitted keeps an execution in step. -/
def Leads (fresh : Bool) (tc : Context) (fresh' : Bool) (tc' : Context) : Prop :=
  ∃ code, tc'.code = tc.code ++ code ∧ (∀ op ∈ code, op.isMarker = false) ∧ Placed tc' ∧
    ∀ s s', InStep fresh tc (view s) → Runs code s s' → InStep fresh' tc' (view s')

/-- The same for all that a decoder emits, its markers included, unless it ends the unit. -/
inductive Decoded (fresh : Bool) (tc : Context) (fresh' : Bool) (tc' : Context) : Prop
  | stops (code : List Op) (emitted : tc'.code = tc.code ++ code) (ends : Ppc.stops code = true)
  | goes (code : List Op) (emitted : tc'.code = tc.code ++ code) (placed : Placed tc')
    (keeps : ∀ s s', InStep fresh tc (view s) → Runs (visible code) s s' →
      InStep fresh' tc' (view s'))

variable {fresh fresh' fresh'' : Bool} {tc tc' tc'' : Context}

theorem Leads.refl (h : Placed tc) : Leads fresh tc fresh tc :=
  ⟨[], (List.append_nil _).symm, fun _ hop ↦ absurd hop List.not_mem_nil, h, by
    rintro _ s hstep rfl
    exact hstep⟩

theorem Leads.placed (h : Leads fresh tc fresh' tc') : Placed tc' := by
  obtain ⟨_, _, _, hplaced, _⟩ := h
  exact hplaced

theorem Leads.trans (h : Leads fresh tc fresh' tc') (h' : Leads fresh' tc' fresh'' tc'') :
    Leads fresh tc fresh'' tc'' := by
  obtain ⟨code, hcode, hclean, -, hkeeps⟩ := h
  obtain ⟨code', hcode', hclean', hplaced', hkeeps'⟩ := h'
  refine ⟨code ++ code', by rw [hcode', hcode, List.append_assoc], fun op hop ↦ ?_, hplaced',
    fun s s'' hstep hruns ↦ ?_⟩
  · exact (List.mem_append.mp hop).elim (hclean op) (hclean' op)
  · obtain ⟨s', hfirst, hsecond⟩ := runs_append.mp hruns
    exact hkeeps' s' s'' (hkeeps s s' hstep hfirst) hsecond

/-- Behind the code of a decoder there may be markers. -/
theorem Leads.decoded (h : Leads fresh tc fresh' tc') {markers : List Op}
    (hmarkers : ∀ m ∈ markers, m.isMarker = true) (hcode : tc''.code = tc'.code ++ markers)
    (hsame : tc'' = { tc' with code := tc''.code }) : Decoded fresh tc fresh' tc'' := by
  obtain ⟨code, hcode', hclean, hplaced, hkeeps⟩ := h
  have hplaced' : Placed tc'' := by
    rw [hsame]
    exact ⟨hplaced.1, hplaced.2, hplaced.3, hplaced.4⟩
  refine .goes (code ++ markers) (by rw [hcode, hcode', List.append_assoc]) hplaced'
    fun s s' hstep hruns ↦ ?_
  rw [visible_markers hmarkers, visible_of_clean hclean] at hruns
  have hnext := hkeeps s s' hstep hruns
  rw [hsame]
  exact ⟨hnext.1, hnext.2⟩

theorem Leads.decoded_self (h : Leads fresh tc fresh' tc') : Decoded fresh tc fresh' tc' :=
  h.decoded (fun _ hm ↦ absurd hm List.not_mem_nil) (List.append_nil _).symm rfl

/-- Code that leaves the two registers alone. -/
theorem leads_emit (h : Placed tc) {code : List Op} (hclean : ∀ op ∈ code, op.isMarker = false)
    (heffect : Effect code id) : Leads fresh tc fresh (tc.emit code) := by
  refine ⟨code, rfl, hclean, ⟨h.1, h.2, h.3, h.4⟩, fun s s' hstep hruns ↦ ?_⟩
  rw [heffect s s' hruns]
  exact ⟨hstep.1, hstep.2⟩

theorem leads_body (h : Placed tc) : Leads fresh tc fresh (tc.emit [.body]) :=
  leads_emit h (by simp [Op.isMarker]) .body

theorem aligned_add {pc offset : CodePtr} (h : AlignedPtr pc) (hoffset : AlignedPtr offset) :
    AlignedPtr (pc + offset) := by
  unfold AlignedPtr at *
  rw [BitVec.setWidth_add _ _ (by decide), h, hoffset]
  rfl

theorem setWidth_add_ofNat (pc : CodePtr) (n : ℕ) :
    (pc + BitVec.ofNat 64 n).setWidth 32 = pc.setWidth 32 + BitVec.ofInt 32 n := by
  rw [BitVec.setWidth_add _ _ (by decide), BitVec.ofInt_natCast]
  congr 1
  apply BitVec.eq_of_toNat_eq
  simp

/-- The program counter is brought forward, and the offset starts again. -/
theorem effect_adjustPC {rel : ℤ} (hpos : 0 < rel) (hsmall : rel < 4096) :
    Effect (Context.adjustPC rel) fun v ↦ (v.1 + BitVec.ofInt 32 rel, v.2) := by
  have hlt : rel.natAbs < 4096 := by omega
  have heffect := effect_addPC hlt
  rw [Context.addSmall, if_pos hpos.le] at heffect
  rwa [Context.adjustPC, if_pos hpos]

theorem clean_adjustPC (rel : ℤ) : ∀ op ∈ Context.adjustPC rel, op.isMarker = false := by
  unfold Context.adjustPC
  split <;> simp [Op.isMarker]

theorem leads_advancePC (h : Placed tc) {n : ℕ} (hn : n = 4 ∨ n = 8) :
    Leads fresh tc fresh (tc.advancePC n) := by
  have hnonneg := h.rel_nonneg
  have hle := h.rel_le
  have haligned : AlignedPtr (tc.codePtr + BitVec.ofNat 64 n) :=
    aligned_add h.aligned (by rcases hn with rfl | rfl <;> rfl)
  have hptr := setWidth_add_ofNat tc.codePtr n
  unfold Context.advancePC
  dsimp only
  split
  case isTrue hfar =>
    refine ⟨_, rfl, clean_adjustPC _, ⟨le_rfl, Int.le.intro 120 rfl, haligned, h.stack⟩,
      fun s s' hstep hruns ↦ ?_⟩
    rw [effect_adjustPC (by omega) (by omega) s s' hruns]
    refine ⟨?_, hstep.lr⟩
    show (view s).1 + BitVec.ofInt 32 (tc.pcRel + n) + BitVec.ofInt 32 0 =
      (tc.codePtr + BitVec.ofNat 64 n).setWidth 32
    rw [hptr, ← hstep.pc, BitVec.ofInt_add, ← BitVec.add_assoc]
    exact BitVec.add_zero _
  case isFalse hnear =>
    refine ⟨[], (List.append_nil _).symm, fun _ hop ↦ absurd hop List.not_mem_nil,
      ⟨?_, ?_, haligned, h.stack⟩, ?_⟩
    · show 0 ≤ tc.pcRel + n
      omega
    · show tc.pcRel + n ≤ 120
      omega
    rintro _ s hstep rfl
    refine ⟨?_, hstep.lr⟩
    show (view s).1 + BitVec.ofInt 32 (tc.pcRel + n) = (tc.codePtr + BitVec.ofNat 64 n).setWidth 32
    rw [hptr, ← hstep.pc, BitVec.ofInt_add, ← BitVec.add_assoc]

theorem leads_flushPC (h : Placed tc) : Leads fresh tc fresh tc.flushPC := by
  have hnonneg := h.rel_nonneg
  have hle := h.rel_le
  have hplaced : Placed tc.flushPC := ⟨le_rfl, Int.le.intro 120 rfl, h.aligned, h.stack⟩
  by_cases hrel : tc.pcRel = 0
  · refine ⟨[], by rw [Context.flushPC, if_pos hrel]; rfl, fun _ hop ↦ absurd hop List.not_mem_nil,
      hplaced, ?_⟩
    rintro _ s hstep rfl
    refine ⟨?_, hstep.lr⟩
    have hpc := hstep.pc
    rwa [hrel] at hpc
  · refine ⟨_, by rw [Context.flushPC, if_neg hrel]; rfl, clean_adjustPC _, hplaced,
      fun s s' hstep hruns ↦ ?_⟩
    rw [effect_adjustPC (by omega) (by omega) s s' hruns]
    refine ⟨?_, hstep.lr⟩
    show (view s).1 + BitVec.ofInt 32 tc.pcRel + BitVec.ofInt 32 0 = tc.codePtr.setWidth 32
    rw [← hstep.pc]
    exact BitVec.add_zero _

end Emu68.Ppc
