import Emu68.PiStorm.Accesses

/-!
The two-slot protocol over whole runs. Whatever the accesses are and whenever the FPGA executes
what it has been given: no register is written while its slot runs, software and FPGA agree on the
slot that is next, every transfer that is asked for is started once and in order, and every read
returns the answer of the device after the transfers before it.
-/

set_option autoImplicit false
set_option relaxedAutoImplicit false

namespace Emu68.PiStorm

open Lib

variable {σ : Type*} {d : Device σ} {m₀ : σ} {log : List Txn} {words : List (BitVec 16)}
  {results : List (BitVec 128)} {t : Txn}

/-! ### The values of reads -/

theorem assemble_size (size : Size) (x : BitVec 32) :
    assemble (.bits size) (lowHigh size x) =
      (usedData (size.code.setWidth 2) x).setWidth 128 := by
  apply BitVec.eq_of_toNat_eq
  cases size with
  | byte =>
    show ((((x.setWidth 16).setWidth 8).setWidth 128 : BitVec 128)).toNat =
      (((x.setWidth 8).setWidth 32).setWidth 128 : BitVec 128).toNat
    simp only [BitVec.toNat_setWidth]
    omega
  | word =>
    show (((x.setWidth 16).setWidth 128 : BitVec 128)).toNat =
      (((x.setWidth 16).setWidth 32).setWidth 128 : BitVec 128).toNat
    simp only [BitVec.toNat_setWidth]
    omega
  | long =>
    show (((x.extractLsb' 16 16 ++ x.setWidth 16).setWidth 128 : BitVec 128)).toNat =
      ((x.setWidth 128 : BitVec 128)).toNat
    rw [extract_append]

theorem assemble_64 (x y : BitVec 32) :
    assemble .bits64 (highLow x ++ highLow y) = (x ++ y).setWidth 128 := by
  show ((x.extractLsb' 16 16 ++ x.setWidth 16 ++ y.extractLsb' 16 16 ++ y.setWidth 16).setWidth
    128 : BitVec 128) = _
  apply BitVec.eq_of_toNat_eq
  simp only [BitVec.toNat_setWidth, toNat_append, toNat_high]
  omega

theorem assemble_128 (x₃ x₂ x₁ x₀ : BitVec 32) :
    assemble .bits128 (highLow x₃ ++ highLow x₂ ++ highLow x₁ ++ highLow x₀) =
      x₃ ++ x₂ ++ x₁ ++ x₀ := by
  show (x₃.extractLsb' 16 16 ++ x₃.setWidth 16 ++ x₂.extractLsb' 16 16 ++ x₂.setWidth 16 ++
    x₁.extractLsb' 16 16 ++ x₁.setWidth 16 ++ x₀.extractLsb' 16 16 ++ x₀.setWidth 16 :
      BitVec 128) = _
  apply BitVec.eq_of_toNat_eq
  simp only [BitVec.toNat_setWidth, toNat_append, toNat_high]
  omega

/-! ### Wide accesses -/

theorem doReadAccess64_outline (address : BitVec 32) :
    (protocol d).Outline Permitted (Idle d m₀ log [] results) (doReadAccess64 address)
      (Quiet d m₀ (log ++ [.readAt address .long])
        (highLow (answer d m₀ log address .long) ++
          highLow (answer d m₀ (log ++ [.readAt address .long]) (address + 4) .long))
        results (.readAt (address + 4) .long)) := by
  have hfirst : (protocol d).Outline Permitted (Idle d m₀ log [] results) _ _ :=
    (takeSlot_outline.append (readPart_outline address)).append selectSlot_outline
  have hsecond := (hfirst.append (startRead_outline (address + 4) .long)).append
    (.then waitTxn_outline (Ended.release_outline.append
      (.then (Quiet.readReg_outline rfl (.inr rfl)) (Quiet.readReg_outline rfl (.inl rfl)))))
  rw [List.nil_append, List.append_assoc (highLow _)] at hsecond
  exact hsecond

theorem doReadAccess128_outline (address : BitVec 32) :
    let t₃ := Txn.readAt address .long
    let t₂ := Txn.readAt (address + 4) .long
    let t₁ := Txn.readAt (address + 4 + 4) .long
    (protocol d).Outline Permitted (Idle d m₀ log [] results) (doReadAccess128 address)
      (Quiet d m₀ (log ++ [t₃] ++ [t₂] ++ [t₁])
        (highLow (answer d m₀ log address .long) ++
          highLow (answer d m₀ (log ++ [t₃]) (address + 4) .long) ++
          highLow (answer d m₀ (log ++ [t₃] ++ [t₂]) (address + 4 + 4) .long) ++
          highLow (answer d m₀ (log ++ [t₃] ++ [t₂] ++ [t₁]) (address + 4 + 4 + 4) .long))
        results (.readAt (address + 4 + 4 + 4) .long)) := by
  have h₃ : (protocol d).Outline Permitted (Idle d m₀ log [] results) _ _ :=
    (takeSlot_outline.append (readPart_outline address)).append selectSlot_outline
  have h₂ := (h₃.append (readPart_outline (address + 4))).append selectSlot_outline
  have h₁ := (h₂.append (readPart_outline (address + 4 + 4))).append selectSlot_outline
  have h₀ := h₁.append (readPart_outline (address + 4 + 4 + 4))
  rw [List.nil_append] at h₀
  exact h₀

theorem doWriteAccess64_outline (address : BitVec 32) (data : BitVec 64) :
    (protocol d).Outline Permitted (Idle d m₀ log [] results) (doWriteAccess64 address data)
      (Idle d m₀ (log ++ (Access.write64 address data).transfers) [] results) := by
  have hfirst : (protocol d).Outline Permitted (Idle d m₀ log [] results) _ _ :=
    (writePart_outline address (data.extractLsb' 32 32)).append Begun.release_outline
  have hsecond := (hfirst.append (writePart_outline (address + 4) (data.setWidth 32))).append
    (endWrite_outline (address + 4))
  simp only [List.append_assoc, List.cons_append, List.nil_append] at hsecond
  exact hsecond

theorem doWriteAccess128_outline (address : BitVec 32) (hi lo : BitVec 64) :
    (protocol d).Outline Permitted (Idle d m₀ log [] results) (doWriteAccess128 address hi lo)
      (Idle d m₀ (log ++ (Access.write128 address hi lo).transfers) [] results) := by
  have h₃ : (protocol d).Outline Permitted (Idle d m₀ log [] results) _ _ :=
    (writePart_outline address (hi.extractLsb' 32 32)).append Begun.release_outline
  have h₂ := (h₃.append (writePart_outline (address + 4) (hi.setWidth 32))).append
    Begun.release_outline
  have h₁ := (h₂.append (writePart_outline (address + 4 + 4) (lo.extractLsb' 32 32))).append
    Begun.release_outline
  have h₀ := (h₁.append (writePart_outline (address + 4 + 4 + 4) (lo.setWidth 32))).append
    (endWrite_outline (address + 4 + 4 + 4))
  simp only [List.append_assoc, List.cons_append, List.nil_append] at h₀
  exact h₀

/-! ### Sequences of accesses -/

theorem Access.outline (a : Access) :
    (protocol d).Outline Permitted (Idle d m₀ log [] results) a.program
      (Idle d m₀ (log ++ a.transfers) []
        (results ++ a.value (d.answers (d.run m₀ log) a.transfers))) := by
  cases a with
  | read address size =>
    have houtline : (protocol d).Outline Permitted (Idle d m₀ log [] results) _ _ :=
      (doReadAccess_outline address size).append (result_outline (.bits size))
    rw [assemble_size] at houtline
    exact houtline
  | read64 address =>
    have houtline : (protocol d).Outline Permitted (Idle d m₀ log [] results) _ _ :=
      (doReadAccess64_outline address).append (result_outline .bits64)
    rw [assemble_64, List.append_assoc log] at houtline
    simp only [answer, Device.run_append] at houtline
    exact houtline
  | read128 address =>
    have houtline : (protocol d).Outline Permitted (Idle d m₀ log [] results) _ _ :=
      (doReadAccess128_outline address).append (result_outline .bits128)
    rw [assemble_128] at houtline
    simp only [answer, Device.run_append, List.append_assoc, List.cons_append,
      List.nil_append] at houtline
    exact houtline
  | write address data size =>
    have houtline : (protocol d).Outline Permitted (Idle d m₀ log [] results) _ _ :=
      doWriteAccess_outline address data size
    have hvalue : ∀ answers, (Access.write address data size).value answers = [] := fun _ ↦ rfl
    rw [hvalue, List.append_nil]
    rw [List.append_assoc] at houtline
    exact houtline
  | write64 address data =>
    have hvalue : ∀ answers, (Access.write64 address data).value answers = [] := fun _ ↦ rfl
    rw [hvalue, List.append_nil]
    exact doWriteAccess64_outline address data
  | write128 address hi lo =>
    have hvalue : ∀ answers, (Access.write128 address hi lo).value answers = [] := fun _ ↦ rfl
    rw [hvalue, List.append_nil]
    exact doWriteAccess128_outline address hi lo

/-- The transfers that a sequence of accesses asks for. -/
def transfers (accesses : List Access) : List Txn := accesses.flatMap Access.transfers

/-- The values of the reads, if each transfer is executed before the next one is asked for. -/
def readValues (d : Device σ) (m : σ) : List Access → List (BitVec 128)
  | [] => []
  | a :: rest => a.value (d.answers m a.transfers) ++ readValues d (d.run m a.transfers) rest

theorem program_outline (accesses : List Access) :
    (protocol d).Outline Permitted (Idle d m₀ log [] results) (program accesses)
      (Idle d m₀ (log ++ transfers accesses) []
        (results ++ readValues d (d.run m₀ log) accesses)) := by
  induction accesses generalizing log results with
  | nil =>
    simp only [program, transfers, readValues, List.flatMap_nil, List.append_nil]
    exact .done Idle.stable
  | cons a rest ih =>
    have htail : (protocol d).Outline Permitted (Idle d m₀ (log ++ a.transfers) []
        (results ++ a.value (d.answers (d.run m₀ log) a.transfers))) _ _ := ih
    have houtline := a.outline.append htail
    rw [Device.run_append, List.append_assoc, List.append_assoc] at houtline
    exact houtline

/-! ### Runs -/

/-- The configurations that a sequence of accesses reaches after a reset. -/
def Reached (d : Device σ) (device : σ) (accesses : List Access)
    (c : Thread.Config Instr (State σ)) : Prop :=
  ∃ regSlot regs, Relation.ReflTransGen (protocol d).Step
    ⟨program accesses, resetState device regSlot regs⟩ c

theorem idle_reset (device : σ) (regSlot : Slot) (regs : Slot → SlotRegs) :
    Idle d device [] [] [] (resetState device regSlot regs) where
  hardware := ⟨0, rfl, le_rfl, Nat.zero_le _, rfl, rfl,
    fun slot ↦ iff_of_false Bool.false_ne_true fun ⟨_, _, hlt, _⟩ ↦ absurd hlt (Nat.not_lt_zero _),
    fun _ hk _ ↦ absurd hk (Nat.not_lt_zero _),
    fun _ front t hlog ↦ absurd hlog.symm (List.append_ne_nil_of_right_ne_nil front (by simp))⟩
  active _ hrun := absurd hrun Bool.false_ne_true
  nextSlot := rfl
  words := rfl
  results := rfl

theorem Reached.covered {device : σ} {accesses : List Access}
    {c : Thread.Config Instr (State σ)} (h : Reached d device accesses c) :
    (protocol d).Covered Permitted
      (Idle d device (transfers accesses) [] (readValues d device accesses)) c := by
  obtain ⟨regSlot, regs, hrun⟩ := h
  have houtline : (protocol d).Outline Permitted (Idle d device [] [] []) _ _ :=
    program_outline accesses
  exact Thread.Covered.run ⟨_, houtline, idle_reset device regSlot regs⟩ hrun

/-- The history only grows. -/
theorem step_history {c c' : Thread.Config Instr (State σ)} (h : (protocol d).Step c c') :
    c.state.started <+: c'.state.started ∧ c.state.results <+: c'.state.results := by
  cases h with
  | own i rest s =>
    cases i with
    | start value => exact ⟨List.prefix_append _ _, List.prefix_rfl⟩
    | result width => exact ⟨List.prefix_rfl, List.prefix_append _ _⟩
    | _ => exact ⟨List.prefix_rfl, List.prefix_rfl⟩
  | other rest s s' env =>
    have hframe := Fpga.frame env
    exact ⟨hframe.started ▸ List.prefix_rfl, hframe.results ▸ List.prefix_rfl⟩

theorem run_history {c c' : Thread.Config Instr (State σ)}
    (h : Relation.ReflTransGen (protocol d).Step c c') :
    c.state.started <+: c'.state.started ∧ c.state.results <+: c'.state.results := by
  induction h with
  | refl => exact ⟨List.prefix_rfl, List.prefix_rfl⟩
  | tail _ hstep ih =>
    obtain ⟨hstarted, hresults⟩ := step_history hstep
    exact ⟨ih.1.trans hstarted, ih.2.trans hresults⟩

/-- What has been started is a part of what was asked for, and what has been read is a part of what
the reads return; at the end it is all of it. -/
theorem Reached.history {device : σ} {accesses : List Access}
    {c : Thread.Config Instr (State σ)} (h : Reached d device accesses c) :
    c.state.started <+: transfers accesses ∧ c.state.results <+: readValues d device accesses := by
  obtain ⟨s, hrun, hidle⟩ := h.covered.completes work fun s s' henv ↦ Fpga.work_lt henv
  obtain ⟨done, hhardware⟩ := hidle.hardware
  have hhistory := run_history hrun
  rwa [hhardware.started, hidle.results] at hhistory

end Emu68.PiStorm
