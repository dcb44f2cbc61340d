import Emu68.PiStorm.Handover
import Mathlib.Tactic.Ring

/-!
The outlines of the six accesses. Each access starts the transfers that it asks for, one after the
other and in the slots in which the FPGA expects them, and a read ends with the value of the
device's answers.
-/

set_option autoImplicit false
set_option relaxedAutoImplicit false

namespace Emu68.PiStorm

open Lib

variable {σ : Type*}

/-! ### What an access asks for -/

def Txn.readAt (address : BitVec 32) (size : Size) : Txn where
  read := true
  fc := gFc.setWidth 5
  size := size.code.setWidth 2
  address := address.setWidth 24
  data := 0

def Txn.writeAt (address data : BitVec 32) (size : Size) : Txn where
  read := false
  fc := gFc.setWidth 5
  size := size.code.setWidth 2
  address := address.setWidth 24
  data := usedData (size.code.setWidth 2) data

/-- The read that follows a write to a custom register. -/
def customRead (address : BitVec 32) : List Txn :=
  if isCustom address then [.readAt 0x00f80000 .long] else []

/-- The transfers of an access, a wide one from the most significant long word on. -/
def Access.transfers : Access → List Txn
  | .read address size => [.readAt address size]
  | .read64 address => [.readAt address .long, .readAt (address + 4) .long]
  | .read128 address => [.readAt address .long, .readAt (address + 4) .long,
      .readAt (address + 4 + 4) .long, .readAt (address + 4 + 4 + 4) .long]
  | .write address data size => .writeAt address data size :: customRead address
  | .write64 address data => [.writeAt address (data.extractLsb' 32 32) .long,
      .writeAt (address + 4) (data.setWidth 32) .long] ++ customRead (address + 4)
  | .write128 address hi lo => [.writeAt address (hi.extractLsb' 32 32) .long,
      .writeAt (address + 4) (hi.setWidth 32) .long,
      .writeAt (address + 4 + 4) (lo.extractLsb' 32 32) .long,
      .writeAt (address + 4 + 4 + 4) (lo.setWidth 32) .long] ++ customRead (address + 4 + 4 + 4)

/-- The value that an access returns, if any, from the answers to its transfers. -/
def Access.value : Access → List (BitVec 32) → List (BitVec 128)
  | .read _ size, [x] => [(usedData (size.code.setWidth 2) x).setWidth 128]
  | .read64 _, [x₁, x₀] => [(x₁ ++ x₀).setWidth 128]
  | .read128 _, [x₃, x₂, x₁, x₀] => [x₃ ++ x₂ ++ x₁ ++ x₀]
  | _, _ => []

/-! ### Registers -/

theorem addrHi_bits (txn : BitVec 16) (htxn : txn = txnRead ∨ txn = txnWrite)
    (address : BitVec 32) (size : Size) :
    (addrHi txn address size).getLsbD 10 = txn.getLsbD 10 ∧
      (addrHi txn address size).extractLsb' 8 2 = size.code.setWidth 2 ∧
      (addrHi txn address size).extractLsb' 11 5 = gFc.setWidth 5 ∧
      (addrHi txn address size).setWidth 8 = address.extractLsb' 16 8 := by
  have hbyte : ((address >>> 16) &&& 0xff).setWidth 16 = (address.extractLsb' 16 8).setWidth 16 := by
    apply BitVec.eq_of_toNat_eq
    simp only [BitVec.toNat_setWidth, BitVec.toNat_and, BitVec.toNat_ushiftRight,
      BitVec.extractLsb'_toNat]
    show (address.toNat >>> 16 &&& (2 ^ 8 - 1)) % 2 ^ 16 = _
    rw [Nat.and_two_pow_sub_one_eq_mod]
  have hall : ∀ (b : BitVec 8) (txn : BitVec 16), txn = txnRead ∨ txn = txnWrite → ∀ code : BitVec 16,
      code = 0 ∨ code = 1 ∨ code = 3 →
      let v := txn ||| gFc <<< txnFcShift ||| code <<< txnSizeShift ||| b.setWidth 16
      v.getLsbD 10 = txn.getLsbD 10 ∧ v.extractLsb' 8 2 = code.setWidth 2 ∧
        v.extractLsb' 11 5 = gFc.setWidth 5 ∧ v.setWidth 8 = b := by
    rintro b txn (rfl | rfl) code (rfl | rfl | rfl)
    all_goals
      revert b
      decide +kernel
  unfold addrHi
  rw [hbyte]
  refine hall _ txn htxn size.code ?_
  cases size <;> decide

theorem toNat_append {m n : ℕ} (hi : BitVec m) (lo : BitVec n) :
    (hi ++ lo).toNat = hi.toNat * 2 ^ n + lo.toNat := by
  rw [BitVec.toNat_append, ← Nat.shiftLeft_add_eq_or_of_lt lo.isLt, Nat.shiftLeft_eq]

theorem toNat_high (x : BitVec 32) : (x.extractLsb' 16 16).toNat = x.toNat / 2 ^ 16 := by
  have hlt := x.isLt
  rw [BitVec.extractLsb'_toNat, Nat.shiftRight_eq_div_pow]
  omega

theorem extract_append (x : BitVec 32) : x.extractLsb' 16 16 ++ x.setWidth 16 = x := by
  apply BitVec.eq_of_toNat_eq
  rw [toNat_append, toNat_high, BitVec.toNat_setWidth]
  omega

theorem address_append (address : BitVec 32) :
    address.extractLsb' 16 8 ++ address.setWidth 16 = address.setWidth 24 := by
  apply BitVec.eq_of_toNat_eq
  rw [toNat_append, BitVec.extractLsb'_toNat, Nat.shiftRight_eq_div_pow, BitVec.toNat_setWidth,
    BitVec.toNat_setWidth]
  omega

theorem txn_read (r : SlotRegs) (address : BitVec 32) (size : Size) :
    { r.write (address.setWidth 16) .addrLo with addrHi := addrHi txnRead address size }.txn =
      .readAt address size := by
  obtain ⟨hread, hsize, hfc, haddress⟩ := addrHi_bits txnRead (.inl rfl) address size
  unfold SlotRegs.txn Txn.readAt
  dsimp only [SlotRegs.write]
  rw [hread, hsize, hfc, haddress, address_append]
  rfl

/-- The data registers hold what a write of a size uses. -/
def HoldsData (data : BitVec 32) (size : Size) (r : SlotRegs) : Prop :=
  r.dataLo = data.setWidth 16 ∧ (size = .long → r.dataHi = data.extractLsb' 16 16)

theorem usedData_regs {data : BitVec 32} {size : Size} {r : SlotRegs} (h : HoldsData data size r) :
    usedData (size.code.setWidth 2) (r.dataHi ++ r.dataLo) =
      usedData (size.code.setWidth 2) data := by
  obtain ⟨hlo, hhi⟩ := h
  rw [hlo]
  have hlow : ∀ (hi : BitVec 16) (n : ℕ), n ≤ 16 →
      (hi ++ data.setWidth 16 : BitVec 32).setWidth n = data.setWidth n := by
    intro hi n hn
    apply BitVec.eq_of_toNat_eq
    have hdvd : 2 ^ n ∣ 2 ^ 16 := Nat.pow_dvd_pow 2 hn
    rw [BitVec.toNat_setWidth, toNat_append, BitVec.toNat_setWidth, BitVec.toNat_setWidth,
      Nat.add_mod, Nat.mod_eq_zero_of_dvd (hdvd.mul_left hi.toNat), Nat.mod_mod_of_dvd _ hdvd,
      zero_add, Nat.mod_mod]
  cases size with
  | byte => exact congrArg (BitVec.setWidth 32) (hlow r.dataHi 8 (by decide))
  | word => exact congrArg (BitVec.setWidth 32) (hlow r.dataHi 16 (by decide))
  | long =>
    rw [hhi rfl, extract_append]

theorem txn_write {r : SlotRegs} (address : BitVec 32) {data : BitVec 32} {size : Size}
    (h : HoldsData data size r) :
    { r.write (address.setWidth 16) .addrLo with addrHi := addrHi txnWrite address size }.txn =
      .writeAt address data size := by
  obtain ⟨hread, hsize, hfc, haddress⟩ := addrHi_bits txnWrite (.inr rfl) address size
  unfold SlotRegs.txn Txn.writeAt
  dsimp only [SlotRegs.write]
  rw [hread, hsize, hfc, haddress, address_append, usedData_regs h]
  rfl

/-! ### The parts of an access -/

variable {d : Device σ} {m₀ : σ} {log : List Txn} {words : List (BitVec 16)}
  {results : List (BitVec 128)} {R : SlotRegs → Prop} {t : Txn}

theorem startRead_outline (address : BitVec 32) (size : Size) :
    (protocol d).Outline Permitted (Free d m₀ log words results R) (startAt txnRead address size)
      (Begun d m₀ log words results (.readAt address size)) := by
  refine .then (Q := Free d m₀ log words results fun r ↦ ∃ r₀ : SlotRegs, r = r₀.write _ .addrLo)
    (writeReg_outline fun r _ ↦ ⟨r, rfl⟩) (start_outline ?_)
  rintro _ ⟨r, rfl⟩
  exact txn_read r address size

theorem startWrite_outline (address : BitVec 32) {data : BitVec 32} {size : Size} :
    (protocol d).Outline Permitted (Free d m₀ log words results (HoldsData data size))
      (startAt txnWrite address size)
      (Begun d m₀ log words results (.writeAt address data size)) := by
  refine .then (Q := Free d m₀ log words results fun r ↦
      ∃ r₀ : SlotRegs, HoldsData data size r₀ ∧ r = r₀.write _ .addrLo)
    (writeReg_outline fun r h ↦ ⟨r, h, rfl⟩) (start_outline ?_)
  rintro _ ⟨r, h, rfl⟩
  exact txn_write address h

/-- The answer to a read after some transfers, as high and low word. -/
def answer (d : Device σ) (m₀ : σ) (log : List Txn) (address : BitVec 32) (size : Size) : BitVec 32 :=
  (d.transfer (d.run m₀ log) (.readAt address size)).2

def highLow (x : BitVec 32) : List (BitVec 16) := [x.extractLsb' 16 16, x.setWidth 16]

theorem readPart_outline (address : BitVec 32) :
    (protocol d).Outline Permitted (Free d m₀ log words results R) (readPart address)
      (Quiet d m₀ log (words ++ highLow (answer d m₀ log address .long)) results
        (.readAt address .long)) := by
  have houtline : (protocol d).Outline Permitted (Free d m₀ log words results R) _ _ :=
    (startRead_outline address .long).append
      (.then waitTxn_outline (.then (Ended.readReg_outline rfl (.inr rfl))
        (.then (Ended.readReg_outline rfl (.inl rfl)) Ended.release_outline)))
  rw [List.append_assoc] at houtline
  exact houtline

/-- The words that a read of one transfer sees. -/
def lowHigh (size : Size) (x : BitVec 32) : List (BitVec 16) :=
  if size = .long then [x.setWidth 16, x.extractLsb' 16 16] else [x.setWidth 16]

theorem doReadAccess_outline (address : BitVec 32) (size : Size) :
    (protocol d).Outline Permitted (Idle d m₀ log [] results) (doReadAccess address size)
      (Quiet d m₀ log (lowHigh size (answer d m₀ log address size)) results
        (.readAt address size)) := by
  refine .append (.append (.append (.append takeSlot_outline (startRead_outline address size))
    (.then waitTxn_outline (Ended.readReg_outline rfl (.inl rfl)))) ?_) Ended.release_outline
  unfold lowHigh
  split
  · exact Ended.readReg_outline rfl (.inr rfl)
  · exact .done Ended.stable

/-- The words become the value of a read. -/
theorem result_outline (width : Width) :
    (protocol d).Outline Permitted (Quiet d m₀ log words results t) [.result width]
      (Idle d m₀ (log ++ [t]) [] (results ++ [assemble width words])) := by
  refine .single Quiet.stable Idle.stable (fun s h ↦ trivial) (fun s h ↦ trivial) (fun s h ↦ ?_)
  have hidle := h.idle
  obtain ⟨done, hhardware⟩ := hidle.hardware
  refine ⟨⟨done, hhardware.same rfl rfl rfl rfl rfl⟩, hidle.active, hidle.nextSlot, rfl, ?_⟩
  show s.results ++ [assemble width s.words] = _
  rw [h.results, h.words]

theorem discard_outline :
    (protocol d).Outline Permitted (Quiet d m₀ log words results t) [.discard]
      (Idle d m₀ (log ++ [t]) [] results) := by
  refine .single Quiet.stable Idle.stable (fun s h ↦ trivial) (fun s h ↦ trivial) (fun s h ↦ ?_)
  have hidle := h.idle
  obtain ⟨done, hhardware⟩ := hidle.hardware
  exact ⟨⟨done, hhardware.same rfl rfl rfl rfl rfl⟩, hidle.active, hidle.nextSlot, rfl, h.results⟩

theorem endWrite_outline (address : BitVec 32) :
    (protocol d).Outline Permitted (Begun d m₀ log [] results t) (endWrite address)
      (Idle d m₀ (log ++ [t] ++ customRead address) [] results) := by
  have hend : (protocol d).Outline Permitted (Begun d m₀ log [] results t)
      ((if isChipset address then [.waitTxn, .setActive false] else [.setActive true]) ++
        [.toggle]) (Idle d m₀ (log ++ [t]) [] results) := by
    split
    · exact (Thread.Outline.then waitTxn_outline Ended.release_outline).conclude
        fun s h ↦ h.idle
    · exact Begun.release_outline
  refine .append hend ?_
  unfold customRead
  split
  · exact .append (doReadAccess_outline 0x00f80000 .long) discard_outline
  · rw [List.append_nil]
    exact .done Idle.stable

theorem writeData_outline (data : BitVec 32) :
    (protocol d).Outline Permitted (Free d m₀ log words results R)
      [.writeReg .dataLo (data.setWidth 16)]
      (Free d m₀ log words results fun r ↦ r.dataLo = data.setWidth 16) :=
  writeReg_outline fun _ _ ↦ rfl

theorem writePart_outline (address data : BitVec 32) :
    (protocol d).Outline Permitted (Idle d m₀ log [] results) (writePart address data)
      (Begun d m₀ log [] results (.writeAt address data .long)) := by
  refine .append (.append takeSlot_outline (.then (writeData_outline data)
    (writeReg_outline fun r h ↦ ⟨h, fun _ ↦ rfl⟩))) (startWrite_outline address)

theorem doWriteAccess_outline (address data : BitVec 32) (size : Size) :
    (protocol d).Outline Permitted (Idle d m₀ log [] results) (doWriteAccess address data size)
      (Idle d m₀ (log ++ [.writeAt address data size] ++ customRead address) [] results) := by
  refine .append (.append (.append (.append takeSlot_outline (writeData_outline data)) ?_)
    (startWrite_outline address)) (endWrite_outline address)
  split
  · exact writeReg_outline fun r h ↦ ⟨h, fun _ ↦ rfl⟩
  · rename_i hsize
    exact (Thread.Outline.done Free.stable).conclude
      fun s h ↦ ⟨h.toIdle, h.regSlot, h.rests, h.regs, fun hlong ↦ absurd hlong hsize⟩

end Emu68.PiStorm
