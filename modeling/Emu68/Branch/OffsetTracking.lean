import Mathlib
import Emu68.Branch.FloatBranch

/-!
The pending offset of the program counter (`M68k_Translator.c`). `REG_PC` may lag behind the m68k
program by `_pc_rel`, and three functions make up for it in part, in whole, or in an offset that the
next instruction encodes. A run of the emitted code is followed from place to place, with what the
code has added to `REG_PC` and how far the program has advanced.
-/

set_option autoImplicit false
set_option relaxedAutoImplicit false

namespace Emu68.Branch

open A64 M68k

/-! ### The functions

Each gives the emitted code and the new `_pc_rel`. -/

/-- `EMIT_AdvancePC`. -/
def emitAdvancePC (pcRel : ℤ) (offset : BitVec 8) : List Op × ℤ := advancePC pcRel offset.toNat

/-- `EMIT_FlushPC`. -/
def emitFlushPC (pcRel : ℤ) : List Op × ℤ := (flushPC pcRel, 0)

/-- `EMIT_GetOffsetPC`, with what it leaves in `*offset`. -/
def emitGetOffsetPC (pcRel : ℤ) (offset : BitVec 8) : (List Op × ℤ) × BitVec 8 :=
  let newOffset := pcRel + offset.toInt
  if newOffset > 127 ∨ newOffset < -127 then
    ((if pcRel > 0 then [.addImmed regPC regPC pcRel.toNat]
      else [.subImmed regPC regPC (-pcRel).toNat], 0), offset)
  else (([], pcRel), BitVec.ofInt 8 newOffset)

/-- `EMIT_ResetOffsetPC`. -/
def emitResetOffsetPC : ℤ := 0

/-- What an instruction of these functions adds to `REG_PC`. -/
def adjustment : Op → ℤ
  | .addImmed rd rn immed => if rd = regPC ∧ rn = regPC then immed else 0
  | .subImmed rd rn immed => if rd = regPC ∧ rn = regPC then -immed else 0
  | _ => 0

def adjustments (code : List Op) : ℤ := (code.map adjustment).sum

/-! ### Runs of the emitted code -/

/-- A place in the emitted code, as a run of it gets there. -/
structure Place where
  cpu : A64.Cpu
  /-- `_pc_rel` when the translator was here. -/
  pcRel : ℤ
  /-- `REG_PC` when it was last loaded. -/
  base : BitVec 32
  /-- What the code has added to it since. -/
  adjusted : ℤ
  /-- How far the m68k program has advanced since. -/
  advanced : ℤ

namespace Place

/-- Nothing is pending where `REG_PC` has been loaded. -/
def loaded (cpu : A64.Cpu) : Place := ⟨cpu, emitResetOffsetPC, cpu.get regPC, 0, 0⟩

/-- The address that the m68k program has reached. -/
def address (p : Place) : BitVec 32 := p.base + BitVec.ofInt 32 p.advanced

/-- Behind code of the functions above. -/
def emit (p : Place) (emitted : List Op × ℤ) : Place :=
  { p with
    cpu := exec emitted.1 p.cpu
    pcRel := emitted.2
    adjusted := p.adjusted + adjustments emitted.1 }

/-- Behind other code, which adds a distance. -/
def adjust (p : Place) (cpu : A64.Cpu) (distance : ℤ) : Place :=
  { p with cpu := cpu, adjusted := p.adjusted + distance }

def advance (p : Place) (distance : ℤ) : Place := { p with advanced := p.advanced + distance }

def reset (p : Place) : Place := { p with pcRel := emitResetOffsetPC }

end Place

/-- The code of an emitter moves `REG_PC` by a distance. -/
def Moves (s s' : A64.Cpu) (distance : ℤ) : Prop :=
  s'.get regPC = s.get regPC + BitVec.ofInt 32 distance

/-- What the emitters do. The words of an instruction make an even number of bytes. BRA, Bcc, DBcc
and FBcc ask for an offset, forget what is pending and add the offset themselves. The emitters that
forget it otherwise load `REG_PC`. A local exit comes where nothing is pending any more. -/
inductive Step : Place → Place → Prop
  | advancePC (p : Place) (offset : BitVec 8) (heven : 2 ∣ offset.toNat) :
    Step p ((p.emit (emitAdvancePC p.pcRel offset)).advance offset.toNat)
  | getOffsetPC (p : Place) (offset : BitVec 8) :
    Step p (p.emit (emitGetOffsetPC p.pcRel offset).1)
  | flushPC (p : Place) : Step p (p.emit (emitFlushPC p.pcRel))
  | branch (p : Place) (offset : BitVec 8) (cpu : A64.Cpu) (distance : ℤ)
    (hmoves : Moves (p.emit (emitGetOffsetPC p.pcRel offset).1).cpu cpu
      ((emitGetOffsetPC p.pcRel offset).2.toInt + distance)) :
    Step p (((p.emit (emitGetOffsetPC p.pcRel offset).1).adjust cpu
      ((emitGetOffsetPC p.pcRel offset).2.toInt + distance)).advance
        (offset.toInt + distance)).reset
  | other (p : Place) (cpu : A64.Cpu) (distance : ℤ) (hmoves : Moves p.cpu cpu distance) :
    Step p ((p.adjust cpu distance).advance distance)
  | load (p : Place) (cpu : A64.Cpu) : Step p (.loaded cpu)

/-- What the emitted code added and what is pending make up what the program advanced. -/
structure Tracked (p : Place) : Prop where
  sum : p.adjusted + p.pcRel = p.advanced
  pc : p.cpu.get regPC = p.base + BitVec.ofInt 32 p.adjusted
  nonneg : 0 ≤ p.pcRel
  le : p.pcRel ≤ 120
  even : 2 ∣ p.pcRel

variable {p p' : Place} {pcRel : ℤ} {offset : BitVec 8} {code : List Op} {s s' s'' : A64.Cpu}
  {distance distance' : ℤ}

/-! ### What the functions emit -/

/-- The code adds what its instructions say. -/
def Adjusts (code : List Op) : Prop := ∀ s : A64.Cpu, Moves s (exec code s) (adjustments code)

theorem Moves.refl (s : A64.Cpu) : Moves s s 0 := (add_zero _).symm

theorem Moves.trans (h : Moves s s' distance) (h' : Moves s' s'' distance') :
    Moves s s'' (distance + distance') := by
  unfold Moves at *
  rw [h', h, BitVec.ofInt_add, BitVec.add_assoc]

theorem Moved.moves (h : Moved s s' (BitVec.ofInt 32 distance)) : Moves s s' distance := by
  unfold Moves
  rw [Cpu.get_of_ne (by decide), Cpu.get_of_ne (by decide)]
  exact h.pc

theorem adjusts_nil : Adjusts [] := Moves.refl

theorem adjustments_addImmed (hpos : 0 < pcRel) :
    adjustments [.addImmed regPC regPC pcRel.toNat] = pcRel := by
  simp only [adjustments, adjustment, List.map_cons, List.map_nil, List.sum_cons, List.sum_nil,
    and_self, if_true]
  omega

theorem adjusts_addImmed (hpos : 0 < pcRel) (hlt : pcRel < 4096) :
    Adjusts [.addImmed regPC regPC pcRel.toNat] := by
  intro s
  rw [adjustments_addImmed hpos]
  exact (moved_addImmed hpos hlt s).moves

/-- `sub_immed` only ever gets nothing to subtract. -/
theorem adjusts_subImmed : Adjusts [.subImmed regPC regPC 0] := by
  intro s
  have hput : exec [.subImmed regPC regPC 0] s =
      s.put regPC (s.regs regPC + BitVec.ofInt 32 0) := by
    simp [exec, step, Cpu.get_of_ne (show regPC ≠ 31 by decide)]
  rw [hput]
  exact (moved_pc s _).moves

/-- What is due is either added or pending. -/
structure Delivers (emitted : List Op × ℤ) (due : ℤ) : Prop where
  adjusts : Adjusts emitted.1
  sum : adjustments emitted.1 + emitted.2 = due
  nonneg : 0 ≤ emitted.2
  le : emitted.2 ≤ 120
  even : 2 ∣ due → 2 ∣ emitted.2

theorem delivers_nil (hnonneg : 0 ≤ pcRel) (hle : pcRel ≤ 120) : Delivers ([], pcRel) pcRel :=
  ⟨adjusts_nil, zero_add pcRel, hnonneg, hle, id⟩

theorem delivers_adjustment (hnonneg : 0 ≤ pcRel) (hlt : pcRel < 4096) :
    Delivers (if pcRel > 0 then [.addImmed regPC regPC pcRel.toNat]
      else [.subImmed regPC regPC (-pcRel).toNat], 0) pcRel := by
  by_cases hpos : pcRel > 0
  · rw [if_pos hpos]
    exact ⟨adjusts_addImmed hpos hlt, by rw [adjustments_addImmed hpos, add_zero], le_rfl,
      Int.zero_le_ofNat 120, fun _ ↦ dvd_zero 2⟩
  · obtain rfl : pcRel = 0 := by omega
    exact ⟨adjusts_subImmed, rfl, le_rfl, by decide, fun _ ↦ dvd_zero 2⟩

theorem emitAdvancePC_delivers (hnonneg : 0 ≤ pcRel) (hle : pcRel ≤ 120) :
    Delivers (emitAdvancePC pcRel offset) (pcRel + offset.toNat) := by
  have hoffset := offset.isLt
  unfold emitAdvancePC Branch.advancePC
  dsimp only
  split
  case isTrue => exact delivers_adjustment (by omega) (by omega)
  case isFalse => exact delivers_nil (by omega) (by omega)

theorem emitFlushPC_delivers (hnonneg : 0 ≤ pcRel) (hle : pcRel ≤ 120) :
    Delivers (emitFlushPC pcRel) pcRel := by
  unfold emitFlushPC Branch.flushPC
  split
  case isTrue hpos =>
    have hdelivers := delivers_adjustment hnonneg (show pcRel < 4096 by omega)
    rwa [if_pos hpos] at hdelivers
  case isFalse =>
    obtain rfl : pcRel = 0 := by omega
    exact delivers_nil le_rfl (by decide)

theorem emitGetOffsetPC_delivers (hnonneg : 0 ≤ pcRel) (hle : pcRel ≤ 120) :
    Delivers (emitGetOffsetPC pcRel offset).1 pcRel := by
  unfold emitGetOffsetPC
  dsimp only
  split
  case isTrue => exact delivers_adjustment hnonneg (by omega)
  case isFalse => exact delivers_nil hnonneg hle

/-- The offset in `*offset` makes up for what stays pending. -/
theorem emitGetOffsetPC_stored (pcRel : ℤ) (offset : BitVec 8) :
    (emitGetOffsetPC pcRel offset).2.toInt = (emitGetOffsetPC pcRel offset).1.2 + offset.toInt := by
  unfold emitGetOffsetPC
  dsimp only
  split
  case isTrue => exact (zero_add _).symm
  case isFalse hfits =>
    rw [BitVec.toInt_ofInt]
    exact Int.bmod_eq_of_le (by omega) (by omega)

/-- The branches ask for their offset here. -/
theorem getOffsetPC_eq_emit (pcRel : ℤ) (offset : BitVec 8) :
    getOffsetPC pcRel offset.toInt =
      ((emitGetOffsetPC pcRel offset).1.1, (emitGetOffsetPC pcRel offset).2.toInt) := by
  rw [emitGetOffsetPC_stored]
  unfold getOffsetPC emitGetOffsetPC
  dsimp only
  split
  case isTrue => exact Prod.ext rfl (zero_add _).symm
  case isFalse => rfl

/-! ### What the callers encode -/

/-- The field of `ldur_offset`, `ldurh_offset`, `flds` and `fldd` for a signed offset. -/
def offset9 (offset : BitVec 8) : BitVec 9 := (offset.signExtend 16).setWidth 9

/-- The field of `ldrsh_offset`, in units of two bytes. -/
def offset13 (offset : BitVec 8) : BitVec 12 := (offset.signExtend 16 >>> 1).setWidth 12

/-- The field of `ldr_offset`, in units of four bytes, for offsets whose bit 1 is clear. -/
def offset14 (offset : BitVec 8) : BitVec 12 := (offset.signExtend 16 >>> 2).setWidth 12

theorem offset9_toInt : ∀ offset : BitVec 8, (offset9 offset).toInt = offset.toInt := by
  decide +kernel

theorem offset13_toNat : ∀ offset : BitVec 8, 0 ≤ offset.toInt → 2 ∣ offset.toInt →
    2 * ((offset13 offset).toNat : ℤ) = offset.toInt := by
  decide +kernel

theorem offset14_toNat : ∀ offset : BitVec 8, 0 ≤ offset.toInt → 2 ∣ offset.toInt →
    offset &&& 2 = 0 → 4 * ((offset14 offset).toNat : ℤ) = offset.toInt := by
  decide +kernel

/-- The request for an address and what the caller gets for it. -/
structure Fits (offset stored : BitVec 8) : Prop where
  signed : (offset9 stored).toInt = stored.toInt
  halves : 0 ≤ offset.toInt → 2 ∣ offset.toInt → 2 * ((offset13 stored).toNat : ℤ) = stored.toInt
  words : 0 ≤ offset.toInt → 2 ∣ offset.toInt → stored &&& 2 = 0 →
    4 * ((offset14 stored).toNat : ℤ) = stored.toInt

/-! ### What a step preserves -/

theorem tracked_loaded (cpu : A64.Cpu) : Tracked (.loaded cpu) :=
  ⟨rfl, (add_zero _).symm, le_rfl, Int.zero_le_ofNat 120, dvd_zero 2⟩

theorem Tracked.emit {emitted : List Op × ℤ} {due : ℤ} (hp : Tracked p)
    (h : Delivers emitted (p.pcRel + due)) (heven : 2 ∣ due) :
    Tracked ((p.emit emitted).advance due) where
  sum := by
    have hsum := hp.sum
    have hdue := h.sum
    show p.adjusted + adjustments emitted.1 + emitted.2 = p.advanced + due
    omega
  pc := by
    have hmoves : Moves p.cpu (exec emitted.1 p.cpu) (adjustments emitted.1) := h.adjusts p.cpu
    show (exec emitted.1 p.cpu).get regPC =
      p.base + BitVec.ofInt 32 (p.adjusted + adjustments emitted.1)
    rw [hmoves, hp.pc, BitVec.ofInt_add, BitVec.add_assoc]
  nonneg := h.nonneg
  le := h.le
  even := h.even (dvd_add hp.even heven)

/-- Code that does not advance the program. -/
theorem Tracked.emit_same {emitted : List Op × ℤ} (hp : Tracked p) (h : Delivers emitted p.pcRel) :
    Tracked (p.emit emitted) := by
  have hzero : (p.emit emitted).advance 0 = p.emit emitted := by
    rw [Place.advance, add_zero]
  rw [← hzero]
  exact hp.emit ((add_zero p.pcRel).symm ▸ h) (dvd_zero 2)

theorem Tracked.adjust {cpu : A64.Cpu} (hp : Tracked p) (h : Moves p.cpu cpu distance) :
    Tracked ((p.adjust cpu distance).advance distance) where
  sum := by
    have hsum := hp.sum
    show p.adjusted + distance + p.pcRel = p.advanced + distance
    omega
  pc := by
    show cpu.get regPC = p.base + BitVec.ofInt 32 (p.adjusted + distance)
    rw [h, hp.pc, BitVec.ofInt_add, BitVec.add_assoc]
  nonneg := hp.nonneg
  le := hp.le
  even := hp.even

/-- What is pending may be forgotten where the code adds it itself. -/
theorem Tracked.reset {cpu : A64.Cpu} (hp : Tracked p)
    (h : Moves p.cpu cpu (p.pcRel + distance)) :
    Tracked ((p.adjust cpu (p.pcRel + distance)).advance distance).reset where
  sum := by
    have hsum := hp.sum
    show p.adjusted + (p.pcRel + distance) + 0 = p.advanced + distance
    omega
  pc := by
    show cpu.get regPC = p.base + BitVec.ofInt 32 (p.adjusted + (p.pcRel + distance))
    rw [h, hp.pc, BitVec.add_assoc, ← BitVec.ofInt_add]
  nonneg := le_rfl
  le := Int.zero_le_ofNat 120
  even := dvd_zero 2

theorem Tracked.getOffset (hp : Tracked p) (offset : BitVec 8) :
    Tracked (p.emit (emitGetOffsetPC p.pcRel offset).1) :=
  hp.emit_same (emitGetOffsetPC_delivers hp.nonneg hp.le)

theorem Tracked.flush (hp : Tracked p) : Tracked (p.emit (emitFlushPC p.pcRel)) :=
  hp.emit_same (emitFlushPC_delivers hp.nonneg hp.le)

theorem Tracked.step (hp : Tracked p) (h : Step p p') : Tracked p' := by
  cases h with
  | advancePC offset heven =>
    exact hp.emit (emitAdvancePC_delivers hp.nonneg hp.le) (Int.natCast_dvd_natCast.mpr heven)
  | getOffsetPC offset => exact hp.getOffset offset
  | flushPC => exact hp.flush
  | branch offset cpu distance hmoves =>
    rw [emitGetOffsetPC_stored, add_assoc] at hmoves ⊢
    exact (hp.getOffset offset).reset hmoves
  | other cpu distance hmoves => exact hp.adjust hmoves
  | load cpu => exact tracked_loaded cpu

theorem Tracked.run (hp : Tracked p) (h : Relation.ReflTransGen Step p p') : Tracked p' := by
  induction h with
  | refl => exact hp
  | tail _ hstep ih => exact ih.step hstep

/-! ### What holds at every place -/

/-- `REG_PC` lags behind by what is pending. -/
theorem Tracked.address (hp : Tracked p) :
    p.cpu.get regPC + BitVec.ofInt 32 p.pcRel = p.address := by
  rw [hp.pc, BitVec.add_assoc, ← BitVec.ofInt_add, hp.sum]
  rfl

theorem Tracked.fits (hp : Tracked p) (offset : BitVec 8) :
    Fits offset (emitGetOffsetPC p.pcRel offset).2 := by
  have hstored := emitGetOffsetPC_stored p.pcRel offset
  have hafter := hp.getOffset offset
  have hnonneg : 0 ≤ (emitGetOffsetPC p.pcRel offset).1.2 := hafter.nonneg
  have heven : 2 ∣ (emitGetOffsetPC p.pcRel offset).1.2 := hafter.even
  refine ⟨offset9_toInt _, fun hpos htwo ↦ offset13_toNat _ ?_ ?_,
    fun hpos htwo ↦ offset14_toNat _ ?_ ?_⟩
  · omega
  · exact hstored ▸ dvd_add heven htwo
  · omega
  · exact hstored ▸ dvd_add heven htwo

/-- The offset that `EMIT_GetOffsetPC` leaves leads from `REG_PC` to the requested address. -/
theorem Tracked.getOffset_address (hp : Tracked p) (offset : BitVec 8) :
    (exec (emitGetOffsetPC p.pcRel offset).1.1 p.cpu).get regPC +
        BitVec.ofInt 32 (emitGetOffsetPC p.pcRel offset).2.toInt =
      p.address + BitVec.ofInt 32 offset.toInt := by
  have haddress := (hp.getOffset offset).address
  have hsame : (p.emit (emitGetOffsetPC p.pcRel offset).1).address = p.address := rfl
  rw [hsame] at haddress
  rw [emitGetOffsetPC_stored, BitVec.ofInt_add, ← BitVec.add_assoc]
  exact congrArg (· + BitVec.ofInt 32 offset.toInt) haddress

/-- After a flush `REG_PC` is at the address itself. -/
theorem Tracked.flush_address (hp : Tracked p) :
    (exec (emitFlushPC p.pcRel).1 p.cpu).get regPC = p.address := by
  have haddress := hp.flush.address
  exact (add_zero _).symm.trans haddress

/-- The pending offset can be relied on at a place. -/
structure Reliable (p : Place) : Prop where
  sum : p.adjusted + p.pcRel = p.advanced
  /-- What the code is said to have added is what `REG_PC` has moved by. -/
  pc : p.cpu.get regPC = p.base + BitVec.ofInt 32 p.adjusted
  getOffset : ∀ offset : BitVec 8,
    (exec (emitGetOffsetPC p.pcRel offset).1.1 p.cpu).get regPC +
        BitVec.ofInt 32 (emitGetOffsetPC p.pcRel offset).2.toInt =
      p.address + BitVec.ofInt 32 offset.toInt ∧ Fits offset (emitGetOffsetPC p.pcRel offset).2
  flush : (emitFlushPC p.pcRel).2 = 0 ∧
    (exec (emitFlushPC p.pcRel).1 p.cpu).get regPC = p.address

theorem offset_tracking {cpu : A64.Cpu} (h : Relation.ReflTransGen Step (.loaded cpu) p) :
    Reliable p := by
  have hp := (tracked_loaded cpu).run h
  exact ⟨hp.sum, hp.pc, fun offset ↦ ⟨hp.getOffset_address offset, hp.fits offset⟩, rfl,
    hp.flush_address⟩

/-- A request that would reach too far behind 118 bytes. -/
theorem far_request_reliable : Reliable ((((Place.loaded armStart).emit
    (emitAdvancePC 0 118)).advance 118).emit (emitGetOffsetPC 118 12).1) := by
  have hadvance := Step.advancePC (.loaded armStart) 118 (by decide)
  exact offset_tracking (.tail (.single hadvance) (.getOffsetPC _ 12))

example : emitGetOffsetPC 118 12 = (([.addImmed regPC regPC 118], 0), 12) := rfl

/-! ### The branches -/

variable {memory : CodeMemory} {opcode : BitVec 16} {branch : M68k.Branch} {size : Size}
  {m : M68k.Cpu} {ctx : Context} {e : Emission} {exits : Bool}

/-- A translated branch is a step, to either of its ends, and the program goes on where that of the
68040 does. -/
theorem Ends.step (h : Ends e memory opcode branch size m p.cpu exits s') (hat : At ctx m p.cpu)
    (hp : Tracked p) (hpcRel : p.pcRel = ctx.pcRel) (hend : exits = true ∨ e.pcRel = 0)
    (offset : BitVec 8) :
    ∃ p', Step p p' ∧ p'.cpu = s' ∧ p'.pcRel = 0 ∧
      p'.address = continueAt memory opcode m branch size := by
  have hzero : (if exits then (0 : ℤ) else e.pcRel) = 0 := by
    rcases hend with rfl | hzero
    · rfl
    · rw [hzero, ite_self]
  have hafter : s'.get regPC = continueAt memory opcode m branch size := by
    rw [Cpu.get_of_ne (by decide), ← h.pc, hzero]
    exact (add_zero _).symm
  have hbefore := (hp.getOffset offset).address
  set distance := (continueAt memory opcode m branch size - m.pc).toInt - offset.toInt
  have hmoves : Moves (p.emit (emitGetOffsetPC p.pcRel offset).1).cpu s'
      ((emitGetOffsetPC p.pcRel offset).2.toInt + distance) := by
    have haddress : p.address = m.pc := by
      rw [← hp.address, hpcRel, Cpu.get_of_ne (by decide)]
      exact hat.pc
    have hsame : (p.emit (emitGetOffsetPC p.pcRel offset).1).address = m.pc := haddress
    rw [hsame] at hbefore
    unfold Moves
    rw [hafter, emitGetOffsetPC_stored, add_assoc, add_sub_cancel, BitVec.ofInt_add,
      ← BitVec.add_assoc, BitVec.ofInt_toInt]
    change (exec (emitGetOffsetPC p.pcRel offset).1.1 p.cpu).get regPC +
      BitVec.ofInt 32 (emitGetOffsetPC p.pcRel offset).1.2 = m.pc at hbefore
    show _ = (exec (emitGetOffsetPC p.pcRel offset).1.1 p.cpu).get regPC +
      BitVec.ofInt 32 (emitGetOffsetPC p.pcRel offset).1.2 + _
    rw [hbefore, BitVec.add_comm, BitVec.sub_add_cancel]
  have hstep := Step.branch p offset s' distance hmoves
  have haddress := (hp.step hstep).address
  refine ⟨_, hstep, rfl, rfl, haddress.symm.trans ?_⟩
  exact (add_zero _).trans hafter

end Emu68.Branch
