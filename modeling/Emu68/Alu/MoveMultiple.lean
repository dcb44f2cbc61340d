import Emu68.Alu.RegisterLists

/-!
The code of MOVEM does what the instruction does, but for one list: where An is one of two long
registers that come from (An)+, the pair that would have moved An is never loaded, and An stays.
-/

set_option autoImplicit false
set_option relaxedAutoImplicit false

namespace Emu68.Alu

open A64 Lib

variable {e : Emission MovemReg}

/-- The emitted code does what the instruction does; the program counter may still have an offset.
The operand is located behind the first step of the program counter. -/
def MovesRight (e : Emission MovemReg) (long : Bool) (mask : BitVec 16) (operand : Movem e)
    (s : WideCpu) : Prop :=
  ∃ pc, e.view (execMovem (emitMOVEM e long mask operand) s) =
    { movem long mask operand.mode (operand.address (execInsns (listAdvance e).1 s))
      (e.view s) with pc := pc }

/-- Two long registers come from (An)+, and An is one of them. -/
def LoadsBaseInPair (long : Bool) (mask : BitVec 16) : Movem e → Prop
  | .loadPostIncrement i =>
    long = true ∧ (registers mask false).length = 2 ∧ .address i ∈ registers mask false
  | _ => False

/-! ### The code between the steps of the program counter -/

/-- Equal but for the program counter. -/
def SameButPc (m m' : Machine) : Prop := ∃ pc, m = { m' with pc := pc }

theorem SameButPc.refl (m : Machine) : SameButPc m m := ⟨m.pc, rfl⟩

theorem SameButPc.trans {m₁ m₂ m₃ : Machine} (h : SameButPc m₁ m₂) (h' : SameButPc m₂ m₃) :
    SameButPc m₁ m₃ := by
  obtain ⟨pc, rfl⟩ := h
  obtain ⟨_, rfl⟩ := h'
  exact ⟨pc, rfl⟩

theorem loadList_pc (long : Bool) (stepped : Option M68kReg) (rs : List M68kReg)
    (address pc : BitVec 32) (m : Machine) :
    loadList long stepped rs address { m with pc := pc } =
      { loadList long stepped rs address m with pc := pc } := by
  induction rs generalizing address m with
  | nil => rfl
  | cons r rs ih =>
    rw [loadList_cons, loadList_cons, ← ih]
    split_ifs
    · rfl
    · cases r <;> rfl

/-- The instruction does not look at the program counter. -/
theorem SameButPc.movem {m m' : Machine} (h : SameButPc m m') (long : Bool) (mask : BitVec 16)
    (mode : MovemMode) (address : BitVec 32) :
    SameButPc (movem long mask mode address m) (movem long mask mode address m') := by
  obtain ⟨pc, rfl⟩ := h
  refine ⟨pc, ?_⟩
  cases mode with
  | store => rfl
  | storePreDecrement i => rfl
  | load => exact loadList_pc _ _ _ _ _ _
  | loadPostIncrement i => exact congrArg (Machine.setA · i _) (loadList_pc _ _ _ _ _ _)

theorem reg_view (s : WideCpu) (r : M68kReg) : (e.view s).reg r = s.get r.host := by
  cases r <;> rfl

theorem run_movemBase (base : MovemBase e) (s : WideCpu) :
    ∃ s', MovemOp.effect (.wide base.locate) s = (s', 0) ∧
      s'.get (e.own.reg .base) = base.address s ∧ SameButPc (e.view s') (e.view s) := by
  cases base with
  | indirect i =>
    refine ⟨s.insn (movReg _ _), rfl, ?_, ?_⟩
    · rw [WideCpu.insn_movReg, WideCpu.get_put reg_ne_zero]
      rfl
    · rw [WideCpu.insn_movReg, e.view_put32_own]
      exact .refl _
  | computed run address locates =>
    exact ⟨run s, rfl, locates.address s, _, locates.view s⟩

section Code

variable {long : Bool} {mask : BitVec 16} {s s' : WideCpu} {start : BitVec 32} {memory : Bytes}

theorem Stored.view_own {x : MovemReg} (h : Stored (e.own.reg x) start memory s s') :
    e.view s' = (e.view s).setMemory memory := by
  obtain ⟨value, -, rfl⟩ := h
  rw [e.view_memory, e.view_put_own]

theorem Stored.view_an {i : Fin 8} (h : Stored (an i) start memory s s') :
    e.view s' = ((e.view s).setMemory memory).setA i start := by
  obtain ⟨value, rfl, rfl⟩ := h
  rw [e.view_memory, e.view_put_an]
  rfl

/-- What the code between the steps of the program counter does, if it does the right thing. -/
def CodeRight (long : Bool) (mask : BitVec 16) (operand : Movem e) (s : WideCpu) : Prop :=
  ∃ s', runForward MovemOp.effect 0 (operand.code long mask) s = (s', 0) ∧
    SameButPc (e.view s') (movem long mask operand.mode (operand.address s) (e.view s))

theorem code_store (long : Bool) (mask : BitVec 16) (base : MovemBase e) (s : WideCpu) :
    CodeRight long mask (.store base) s := by
  obtain ⟨s₁, heffect, haddress, hsame⟩ := run_movemBase base s
  have hs : s₁.get (e.own.reg .base) = if 0 = 0 then base.address s else base.address s := by
    rw [haddress, ite_self]
  have hregs : ∀ reg ∈ (registers mask false).map M68kReg.host, reg ≠ e.own.reg .base := by
    intro reg hreg
    obtain ⟨r, -, rfl⟩ := List.mem_map.mp hreg
    exact r.host_ne_reg
  obtain ⟨s', hrun, hstored⟩ := run_storeLoop (indexOffset_indexes (base.address s)) reg_ne_zero
    long _ none 0 hregs (fun r hr ↦ absurd hr (by simp)) (fun _ _ _ ↦ rfl) hs
  refine ⟨s', (runForward_step heffect).trans hrun, ?_⟩
  have hvalues : ((registers mask false).map M68kReg.host).map s₁.get =
      (registers mask false).map (e.view s₁).reg := by
    rw [List.map_map]
    exact List.map_congr_left fun r _ ↦ (reg_view s₁ r).symm
  rw [Option.toList_none, List.nil_append, hvalues, BitVec.add_zero] at hstored
  rw [hstored.view_own]
  exact hsame.movem long mask .store (base.address s)

theorem code_storePreDecrement (long : Bool) (mask : BitVec 16) (i : Fin 8) (s : WideCpu) :
    CodeRight (e := e) long mask (.storePreDecrement i) s := by
  have hhost : ∀ r : M68kReg, r ≠ .address i → r.host ≠ an i := fun r hr h ↦
    hr (M68kReg.host_inj.mp (h.trans rfl))
  -- An as it is stored
  obtain ⟨s₁, hsave, hview, hvalues⟩ : ∃ s₁, runForward MovemOp.effect 0
      (if .address i ∈ registers mask true then
        [MovemOp.wide (.insn (.subImmed (e.own.reg .tmp) (an i) (regBytes long)))] else []) s =
        (s₁, 0) ∧ e.view s₁ = e.view s ∧
      ((registers mask true).map (storedReg e i)).map s₁.get =
        (registers mask true).map fun r ↦
          if r = .address i then (e.view s).a i - BitVec.ofNat 32 (regBytes long)
          else (e.view s).reg r := by
    split_ifs with hlisted
    · have hmod : regBytes long % 4096 = regBytes long := by cases long <;> rfl
      have hput : s.insn (.subImmed (e.own.reg .tmp) (an i) (regBytes long)) =
          s.put (e.own.reg .tmp) (s.get (an i) - BitVec.ofNat 32 (regBytes long)) := by
        rw [WideCpu.insn_subImmed, hmod]
      refine ⟨s.insn (.subImmed _ _ _), rfl, ?_, ?_⟩
      · rw [hput, e.view_put32_own]
      · rw [hput, List.map_map]
        refine List.map_congr_left fun r _ ↦ ?_
        rw [Function.comp_apply, storedReg]
        split_ifs
        · rw [WideCpu.get_put reg_ne_zero]
          rfl
        · rw [WideCpu.get_put_ite reg_ne_zero, if_neg r.host_ne_reg, reg_view]
    · refine ⟨s, rfl, rfl, ?_⟩
      rw [List.map_map]
      refine List.map_congr_left fun r hr ↦ ?_
      have hne : r ≠ .address i := fun h ↦ hlisted (h ▸ hr)
      rw [Function.comp_apply, storedReg, if_neg hne, if_neg hne, reg_view]
  have hfirst : s₁.get (an i) = s.get (an i) := congrArg (fun m : Machine ↦ m.a i) hview
  have hregs : ∀ reg ∈ (registers mask true).map (storedReg e i), reg ≠ an i := by
    intro reg hreg
    obtain ⟨r, -, rfl⟩ := List.mem_map.mp hreg
    unfold storedReg
    split_ifs with hr
    · exact reg_ne_an
    · exact hhost r hr
  obtain ⟨s', hrun, hstored⟩ := run_storeLoop
    (indexPreDecrement_indexes (regBytes long * (registers mask true).length) (s.get (an i)))
    an_ne_zero long _ none 0 hregs (fun r hr ↦ absurd hr (by simp))
    (fun _ _ hnil ↦ by
      rw [List.map_eq_nil_iff.mp hnil]
      exact (BitVec.sub_zero _).symm)
    (hfirst.trans (if_pos rfl).symm)
  refine ⟨s', (runForward_piece hsave).trans hrun, ?_⟩
  rw [Option.toList_none, List.nil_append, hvalues, BitVec.add_zero] at hstored
  have hmemory : s₁.memory = s.memory := congrArg Machine.memory hview
  rw [hstored.view_an, hview, hmemory]
  exact .refl _

theorem code_load (long : Bool) (mask : BitVec 16) (base : MovemBase e) (s : WideCpu) :
    CodeRight long mask (.load base) s := by
  obtain ⟨s₁, heffect, haddress, hsame⟩ := run_movemBase base s
  obtain ⟨s', hrun, hloading⟩ := run_loadLoop long (regBytes long * (registers mask false).length)
    none (registers mask false) none 0 (fun r _ ↦ r.host_ne_reg)
    (fun _ h ↦ absurd h.2 (by simp)) (fun r hr ↦ absurd hr (by simp))
    (Loading.mk (e := e) rfl haddress)
  refine ⟨s', (runForward_step heffect).trans hrun, ?_⟩
  rw [hloading.view, BitVec.add_zero]
  exact hsame.movem long mask .load (base.address s)

/-- A list of long registers has two of them. -/
def IsPair (long : Bool) (rs : List M68kReg) : Prop := regBytes long * rs.length = 8 ∧ long = true

theorem IsPair.cases {rs : List M68kReg} (h : IsPair long rs) :
    long = true ∧ ∃ r₁ r₂, rs = [r₁, r₂] := by
  obtain ⟨hsize, rfl⟩ := h
  have hlength : rs.length = 2 := by
    have hfour : 4 * rs.length = 8 := hsize
    omega
  exact ⟨rfl, List.length_eq_two.mp hlength⟩

theorem setReg_setA {i : Fin 8} {r : M68kReg} (hr : r ≠ .address i) (m : Machine)
    (value value' : BitVec 32) :
    (m.setA i value).setReg r value' = (m.setReg r value').setA i value := by
  cases r with
  | data j => rfl
  | address j =>
    have hne : j ≠ i := fun h ↦ hr (congrArg M68kReg.address h)
    unfold Machine.setReg Machine.setA
    dsimp only
    rw [Function.update_comm hne]

/-- The load of a pair that moves An. -/
theorem effect_ldpPostindex {i : Fin 8} {r₁ r₂ : M68kReg} (hr₁ : r₁ ≠ .address i)
    (hr₂ : r₂ ≠ .address i) (s : WideCpu) :
    ∃ s', MovemOp.effect (.ldpPostindex (an i) r₁.host r₂.host 8) s = (s', 0) ∧
      e.view s' = (loadList true (some (.address i)) [r₁, r₂] (s.get (an i)) (e.view s)).setA i
        (s.get (an i) + BitVec.ofNat 32 8) := by
  have heffect : MovemOp.effect (.ldpPostindex (an i) r₁.host r₂.host 8) s =
      (((s.put64 (an i) (s.get64 (an i) + BitVec.ofInt 64 8)).put64 r₁.host
        (s.loaded (s.get (an i)) 4 false)).put64 r₂.host (s.loaded (s.get (an i) + 4) 4 false), 0) :=
    rfl
  have hload : ∀ address, (s.loaded address 4 false).setWidth 32 =
      element true (e.view s).memory address := fun address ↦ element_loaded true s address
  have hbase : (s.get64 (an i) + BitVec.ofInt 64 8).setWidth 32 = s.get (an i) + BitVec.ofNat 32 8 :=
    access_add (an i) 8 s
  have hsome : ∀ r, r ≠ .address i → some (M68kReg.address i) ≠ some r :=
    fun r hr h ↦ hr (Option.some.inj h).symm
  refine ⟨_, heffect, ?_⟩
  rw [view_put_host, view_put_host, e.view_put_an, hbase, hload, hload, setReg_setA hr₁,
    setReg_setA hr₂, loadList_pair (hsome r₁ hr₁), if_neg (hsome r₂ hr₂)]
  rfl

theorem regBytes_le (long : Bool) : regBytes long ≤ 4 := by cases long <;> decide

theorem registers_length_le (mask : BitVec 16) (reversed : Bool) :
    (registers mask reversed).length ≤ 16 := List.length_filter_le _ _

theorem code_loadPostIncrement {i : Fin 8}
    (hright : ¬ LoadsBaseInPair (e := e) long mask (.loadPostIncrement i)) (s : WideCpu) :
    CodeRight (e := e) long mask (.loadPostIncrement i) s := by
  have hrun : ∀ s', runForward MovemOp.effect 0 (loadLoop long (an i)
      (regBytes long * (registers mask false).length) (some (.address i)) none 0 (registers mask false) ++
      if regBytes long * (registers mask false).length = 8 ∧ long then [] else
        [.wide (.insn (.addImmed (an i) (an i) (regBytes long * (registers mask false).length)))]) s =
        (s', 0) →
      e.view s' = (loadList long (some (.address i)) (registers mask false) (s.get (an i))
        (e.view s)).setA i
          (s.get (an i) + BitVec.ofNat 32 (regBytes long * (registers mask false).length)) →
      CodeRight (e := e) long mask (.loadPostIncrement i) s :=
    fun s' hcode hview ↦ ⟨s', hcode, hview ▸ .refl _⟩
  by_cases hpair : IsPair long (registers mask false)
  · obtain ⟨rfl, r₁, r₂, hlist⟩ := hpair.cases
    have hne : ∀ r ∈ registers mask false, r ≠ .address i := fun r hr heq ↦
      hright ⟨rfl, by rw [hlist]; rfl, heq ▸ hr⟩
    rw [hlist] at hrun hne
    have hr₁ : r₁ ≠ .address i := hne r₁ (by simp)
    have hr₂ : r₂ ≠ .address i := hne r₂ (by simp)
    obtain ⟨s', heffect, hview⟩ := effect_ldpPostindex (e := e) hr₁ hr₂ s
    have hstep : runForward MovemOp.effect 0 [.ldpPostindex (an i) r₁.host r₂.host 8] s = (s', 0) :=
      runForward_step heffect
    refine hrun s' ?_ hview
    simpa [loadLoop, loadPair, regBytes, hr₁.symm, hr₂.symm] using hstep
  · have hbase : ∀ r, some (M68kReg.address i) ≠ some r → r.host ≠ an i := fun r hr h ↦
      hr (congrArg some (M68kReg.host_inj.mp (h.trans rfl)).symm)
    have hstart : Loading e (an i) (s.get (an i)) (e.view s) s := ⟨rfl, rfl⟩
    obtain ⟨s₁, hloop, hloading⟩ := run_loadLoop long
      (regBytes long * (registers mask false).length) (some (.address i)) (registers mask false)
      none 0 hbase (fun hlong h ↦ hpair ⟨h.1, hlong⟩) (fun r hr ↦ absurd hr (by simp)) hstart
    have hsize : regBytes long * (registers mask false).length % 4096 =
        regBytes long * (registers mask false).length := by
      have hlength := registers_length_le mask false
      have hle : regBytes long * (registers mask false).length ≤ 4 * 16 :=
        Nat.mul_le_mul (regBytes_le long) hlength
      exact Nat.mod_eq_of_lt (by omega)
    refine hrun (s₁.insn (.addImmed (an i) (an i) (regBytes long * (registers mask false).length)))
      ((runForward_piece hloop).trans ?_) ?_
    · have hadd : ¬ (regBytes long * (registers mask false).length = 8 ∧ long = true) := hpair
      rw [if_neg hadd]
      rfl
    · rw [BitVec.add_zero] at hloading
      show e.view (s₁.insn (.addImmed _ _ _)) = _
      rw [WideCpu.insn_addImmed, hsize, hloading.base]
      refine (e.view_put_an i _).trans ?_
      rw [hloading.view, BitVec.setWidth_setWidth_of_le _ (by decide), BitVec.setWidth_eq]
      rfl

/-- The pair that An is one of leaves An as it was. -/
theorem code_pairWithBase {i : Fin 8}
    (hpair : LoadsBaseInPair (e := e) long mask (.loadPostIncrement i)) (s : WideCpu) :
    ∃ s', runForward MovemOp.effect 0 ((Movem.loadPostIncrement (e := e) i).code long mask) s =
      (s', 0) ∧ s'.get (an i) = s.get (an i) := by
  obtain ⟨rfl, hlength, hmem⟩ := hpair
  obtain ⟨r₁, r₂, hlist⟩ := List.length_eq_two.mp hlength
  have hnodup : (registers mask false).Nodup := by
    refine List.Nodup.filter _ ?_
    decide
  have hcode : ∀ s', runForward MovemOp.effect 0
      (loadLoop true (an i) 8 (some (.address i)) none 0 [r₁, r₂]) s = (s', 0) →
      s'.get (an i) = s.get (an i) →
      ∃ s', runForward MovemOp.effect 0 ((Movem.loadPostIncrement (e := e) i).code true mask) s =
        (s', 0) ∧ s'.get (an i) = s.get (an i) := by
    intro s' hrun hget
    refine ⟨s', ?_, hget⟩
    simpa [Movem.code, hlist, regBytes] using hrun
  have hloading : Loading e (an i) (s.get (an i)) (e.view s) s := ⟨rfl, rfl⟩
  rw [hlist] at hmem hnodup
  have hdistinct : r₁ ≠ r₂ := by simpa using hnodup
  rcases List.mem_pair.mp hmem with rfl | rfl
  · -- the first register is passed over, and the second one is alone
    obtain ⟨s', heffect, hloading'⟩ := effect_ldr_element hloading true (r := r₂)
      (fun h ↦ hdistinct (M68kReg.host_inj.mp (h.trans rfl)).symm) 4
    have hstep : runForward MovemOp.effect 0
        [.wide (.ldr (regBytes true) (!true) .offset (an i) r₂.host (4 : ℕ))] s = (s', 0) :=
      runForward_step heffect
    refine hcode s' ?_ hloading'.base
    simpa [loadLoop, regBytes, hdistinct] using hstep
  · obtain ⟨s', heffect, hloading'⟩ := effect_ldr_element hloading true (r := r₁)
      (fun h ↦ hdistinct (M68kReg.host_inj.mp (h.trans rfl))) 0
    have hstep : runForward MovemOp.effect 0
        [.wide (.ldr (regBytes true) (!true) .offset (an i) r₁.host (0 : ℕ))] s = (s', 0) :=
      runForward_step heffect
    refine hcode s' ?_ hloading'.base
    simpa [loadLoop, regBytes, hdistinct.symm] using hstep

end Code

/-! ### The emitted code -/

theorem run_wideInsns (code : List Op) (s : WideCpu) :
    runForward MovemOp.effect 0 (wideInsns code) s = (execInsns code s, 0) := by
  induction code generalizing s with
  | nil => rfl
  | cons op code ih => exact ih (s.insn op)

/-- Code that writes the program counter only. -/
theorem view_quiet {code : List Op} (h : Quiet [Branch.regPC] code) (s : WideCpu) :
    SameButPc (e.view (execInsns code s)) (e.view s) := by
  have hget : ∀ r, r ≠ Branch.regPC → (execInsns code s).get r = s.get r := fun r hr ↦ by
    rw [WideCpu.get, h.get64 (by simpa using hr), ← WideCpu.get]
  refine ⟨(execInsns code s).get Branch.regPC, ?_⟩
  unfold Emission.view Alu.view
  rw [(h.execInsns s).1, oldCcr_execInsns h (by simp [Emission.cc])]
  congr 1
  · funext i
    exact hget _ dn_ne_pc
  · funext i
    exact hget _ an_ne_pc

theorem exec_emitMOVEM {long : Bool} {mask : BitVec 16} {operand : Movem e} {s s' : WideCpu}
    (hrun : runForward MovemOp.effect 0 (operand.code long mask) (execInsns (listAdvance e).1 s) =
      (s', 0)) :
    SameButPc (e.view (execMovem (emitMOVEM e long mask operand) s)) (e.view s') := by
  unfold emitMOVEM execMovem
  dsimp only
  split_ifs with hempty
  · obtain ⟨hfront, -⟩ := List.append_eq_nil_iff.mp (List.isEmpty_iff.mp hempty)
    obtain ⟨hfirst, hcode⟩ := List.append_eq_nil_iff.mp hfront
    rw [hcode, List.map_eq_nil_iff.mp hfirst] at hrun
    obtain rfl : s = s' := congrArg Prod.fst hrun
    rw [run_wideInsns]
    exact view_quiet (quiet_flushPC _) s
  · rw [List.append_assoc, runForward_piece (run_wideInsns _ s), runForward_piece hrun, run_wideInsns]
    exact view_quiet (quiet_advancePC _ _) s'

theorem view_listAdvance (s : WideCpu) :
    SameButPc (e.view (execInsns (listAdvance e).1 s)) (e.view s) :=
  view_quiet (quiet_advancePC _ _) s

theorem movesRight_of_code {long : Bool} {mask : BitVec 16} {operand : Movem e} {s : WideCpu}
    (h : CodeRight long mask operand (execInsns (listAdvance e).1 s)) :
    MovesRight e long mask operand s := by
  obtain ⟨s', hrun, hview⟩ := h
  exact ((exec_emitMOVEM hrun).trans hview).trans
    ((view_listAdvance s).movem long mask operand.mode _)

theorem not_movesRight {long : Bool} {mask : BitVec 16} {operand : Movem e}
    (h : LoadsBaseInPair long mask operand) (s : WideCpu) : ¬ MovesRight e long mask operand s := by
  cases operand with
  | loadPostIncrement i =>
    obtain ⟨s', hrun, hbase⟩ := code_pairWithBase h (execInsns (listAdvance e).1 s)
    obtain ⟨pc, hexec⟩ := exec_emitMOVEM hrun
    rintro ⟨pc', hright⟩
    obtain ⟨rfl, hlength, -⟩ := h
    have hleft : (e.view (execMovem (emitMOVEM e true mask (.loadPostIncrement i)) s)).a i =
        (execInsns (listAdvance e).1 s).get (an i) := by
      rw [hexec]
      exact hbase
    rw [hright] at hleft
    have hnew : (movem true mask (.loadPostIncrement i) ((execInsns (listAdvance e).1 s).get (an i))
        (e.view s)).a i = (execInsns (listAdvance e).1 s).get (an i) +
          BitVec.ofNat 32 (regBytes true * (registers mask false).length) :=
      Function.update_self ..
    have hstep := hnew.symm.trans hleft
    rw [hlength, BitVec.add_right_eq_self] at hstep
    exact absurd hstep (by decide)
  | _ => exact h.elim

/-- MOVEM is right but for a pair of long registers from (An)+ that An is one of. -/
theorem movesRight_iff (e : Emission MovemReg) (long : Bool) (mask : BitVec 16) (operand : Movem e)
    (s : WideCpu) : MovesRight e long mask operand s ↔ ¬ LoadsBaseInPair long mask operand := by
  refine ⟨fun hright hpair ↦ not_movesRight hpair s hright, fun hpair ↦ movesRight_of_code ?_⟩
  cases operand with
  | store base => exact code_store long mask base _
  | storePreDecrement i => exact code_storePreDecrement long mask i _
  | load base => exact code_load long mask base _
  | loadPostIncrement i => exact code_loadPostIncrement hpair _

/-! ### The pair of D0 and A0 -/

def pairAlloc : Alloc MovemReg where
  reg := fun
    | .base => 4
    | .tmp => 5
  lower := fun x ↦ by cases x <;> decide
  upper := fun x ↦ by cases x <;> decide
  inj := fun x y h ↦ by cases x <;> cases y <;> first | rfl | exact absurd h (by decide)

def pairFlagAlloc : Alloc FlagReg where
  reg := fun
    | .cc => 6
    | .tmp => 7
    | .tmp2 => 8
  lower := fun x ↦ by cases x <;> decide
  upper := fun x ↦ by cases x <;> decide
  inj := fun x y h ↦ by cases x <;> cases y <;> first | rfl | exact absurd h (by decide)

def pairEmission : Emission MovemReg where
  ccLoaded := false
  pcRel := 2
  extWords := 0
  address := 0
  pcRel_ge := by decide
  pcRel_le := by decide
  extWords_le := Nat.le_add_left 0 10
  own := pairAlloc
  flag := pairFlagAlloc
  needed := 0
  apart := fun h ↦ absurd h (by decide)

/-- The registers and the memory are zero. -/
def pairCpu : WideCpu where
  regs := fun _ ↦ 0
  flags := ⟨false, false, false, false⟩
  memory := fun _ ↦ 0
  simd := fun _ ↦ 0

/-- MOVEM.L (A0)+,D0/A0 does not move A0. -/
theorem pair_not_movesRight :
    ¬ MovesRight pairEmission true 0x0101 (.loadPostIncrement 0) pairCpu := by
  have hpair : LoadsBaseInPair (e := pairEmission) true 0x0101 (.loadPostIncrement 0) :=
    ⟨rfl, by decide, by decide⟩
  exact not_movesRight hpair pairCpu

end Emu68.Alu
