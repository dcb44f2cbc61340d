import Emu68.DataAbort.PairAccesses
import Emu68.DataAbort.SingleAccesses

/-!
Runs in which accesses fault. Whichever of them do, the registers and the memory are those of the
run in which none does.
-/

set_option autoImplicit false
set_option relaxedAutoImplicit false

namespace Emu68.DataAbort

open A64 Lib

/-- What the host reports of an exception. -/
structure Fault where
  vector : Word
  esr : BitVec 64
  far : BitVec 64

/-- A data abort of the instruction, from the level that the emitted code runs at. -/
def Fault.Reports (insn : Insn) (fault : Fault) : Prop :=
  fault.vector &&& 0x1ff = 0 ∧ fault.esr &&& 0xf8000000 = 0x90000000 ∧
    (fault.esr &&& 0x40 ≠ 0 ↔ insn.isStore = true)

/-- An instruction, and the exception that it raises instead of being executed. -/
structure Event where
  insn : Insn
  fault : Option Fault

section Runs

variable (bus : Bus)

/-- The context after the event; `none` is an exception that is not handled. -/
def Event.step (c : Context) (event : Event) : Option Context :=
  match event.fault with
  | none => some (event.insn.exec c)
  | some fault =>
    match sysHandler bus fault.vector fault.esr fault.far event.insn.code c with
    | some (true, c') => some c'
    | _ => none

variable (plain : BitVec 64 → ℕ → Prop)

/-- The instruction is one of the emitted code, and its access is plain if it faults. -/
def Event.Emulable (c : Context) (event : Event) : Prop :=
  event.insn.Defined ∧ ∀ fault, event.fault = some fault →
    fault.Reports event.insn ∧ plain (event.insn.place c).1 (event.insn.place c).2

/-- Every event of the run is so where it comes. -/
def Emulable : List Event → Context → Prop
  | [], _ => True
  | event :: events, c => event.Emulable plain c ∧ Emulable events (event.insn.exec c)

end Runs

variable {bus : Bus} {plain : BitVec 64 → ℕ → Prop}

/-- The handler that the syndrome selects does what the instruction does. -/
theorem sysHandler_eq (hbus : bus.Transfers plain) {insn : Insn} {fault : Fault} {c : Context}
    (hdefined : insn.Defined) (hreports : fault.Reports insn)
    (hplain : plain (insn.place c).1 (insn.place c).2) :
    sysHandler bus fault.vector fault.esr fault.far insn.code c = some (true, insn.exec c) := by
  obtain ⟨hvector, hclass, hwrite⟩ := hreports
  unfold sysHandler
  rw [if_pos ⟨hvector, hclass⟩]
  dsimp only
  cases hstore : insn.isStore with
  | true =>
    rw [if_pos (hwrite.mpr hstore)]
    cases insn with
    | single kind mode rn rt => exact write_single hbus hstore hplain hdefined.2.2.2
    | pair kind mode rn rt1 rt2 imm => exact write_pair hbus hstore hplain
  | false =>
    rw [if_neg fun h ↦ Bool.false_ne_true (hstore.symm.trans (hwrite.mp h))]
    cases insn with
    | single kind mode rn rt =>
      have hdirection : kind.direction = .load ∨ kind.direction = .signed := by
        have hload : kind.isStore = false := hstore
        unfold Kind.direction
        rw [hload]
        cases kind.signed.isSome with
        | true => exact .inr rfl
        | false => exact .inl rfl
      rcases hdirection with hload | hsigned
      · exact read_plain hbus hload hplain hdefined.2.2.2 _
      · exact read_signed hbus hsigned hplain hdefined.2.2.2 _
    | pair kind mode rn rt1 rt2 imm => exact read_pair hbus hstore hplain _

theorem Event.step_eq (hbus : bus.Transfers plain) {event : Event} {c : Context}
    (h : event.Emulable plain c) : event.step bus c = some (event.insn.exec c) := by
  obtain ⟨hdefined, hfault⟩ := h
  unfold Event.step
  cases hevent : event.fault with
  | none => rfl
  | some fault =>
    obtain ⟨hreports, hplain⟩ := hfault fault hevent
    dsimp only
    rw [sysHandler_eq hbus hdefined hreports hplain]

/-- A store of two registers that faults, a load that does not, and one that does. -/
def faultingRun : List Event :=
  [⟨.pair .stp .postindex 1 2 3 8, some ⟨0, 0x92000040, 0⟩⟩, ⟨.single .ldr (.unscaled 4) 1 4, none⟩,
    ⟨.single .ldrsh (.preindex 6) 1 5, some ⟨0, 0x92000000, 0⟩⟩]

def faultingStart : Context where
  regs := fun _ ↦ 0x1000
  memory := fun _ ↦ 0
  elr := 0

end Emu68.DataAbort
