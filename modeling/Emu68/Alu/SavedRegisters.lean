import Emu68.Alu.MoveMultiple

/-!
Registers that MOVEM saves with -(An) and loads again with (An)+. The code in between may use the
registers and the rest of the memory as it likes, as long as An points to the saved values again.
-/

set_option autoImplicit false
set_option relaxedAutoImplicit false

namespace Emu68.Alu

open A64 Lib

/-! ### Values in consecutive places -/

section Places

variable {bytes : ℕ} {values : List (BitVec 32)} {address x : BitVec 32} {memory memory' : Bytes}

/-- Beyond its interval a list changes nothing. -/
theorem storeList_outside (h : bytes * values.length ≤ (x - address).toNat) :
    storeList bytes values address memory x.toNat = memory x.toNat := by
  induction values generalizing address memory with
  | nil => rfl
  | cons value values ih =>
    rw [List.length_cons, Nat.mul_succ] at h
    have hnext : (x - (address + BitVec.ofNat 32 bytes)).toNat = (x - address).toNat - bytes := by
      have hlt := (x - address).isLt
      have hsplit : x - (address + BitVec.ofNat 32 bytes) = x - address - BitVec.ofNat 32 bytes := by
        rw [BitVec.sub_eq_add_neg, BitVec.sub_eq_add_neg, BitVec.sub_eq_add_neg, BitVec.neg_add,
          BitVec.sub_eq_add_neg, BitVec.add_assoc]
      rw [hsplit, BitVec.toNat_sub, BitVec.toNat_ofNat, Nat.mod_eq_of_lt (a := bytes) (by omega)]
      omega
    rw [storeList, ih (by omega)]
    exact store_outside (show bytes ≤ (x - address).toNat by omega)

/-- Each value can be loaded from its place. -/
theorem load_storeList (hsize : bytes * values.length ≤ 2 ^ 32) {k : ℕ} (hk : k < values.length) :
    Lib.load (storeList bytes values address memory) (address + BitVec.ofNat 32 (bytes * k)) bytes =
      values[k].toNat % 256 ^ bytes := by
  induction values generalizing address memory k with
  | nil => exact absurd hk (Nat.not_lt_zero k)
  | cons value values ih =>
    rw [List.length_cons, Nat.mul_succ] at hsize
    cases k with
    | zero =>
      rw [Nat.mul_zero, BitVec.add_zero, storeList, List.getElem_cons_zero]
      refine Eq.trans (load_congr fun i hi ↦ ?_) (load_store memory address value.toNat (by omega))
      -- the rest of the list lies behind
      refine storeList_outside ?_
      rcases Nat.eq_zero_or_pos values.length with hnil | hpos
      · rw [hnil, Nat.mul_zero]
        exact Nat.zero_le _
      · have hbytes : bytes ≤ bytes * values.length := Nat.le_mul_of_pos_right bytes hpos
        have hsplit : address + BitVec.ofNat 32 i - (address + BitVec.ofNat 32 bytes) =
            BitVec.ofNat 32 i - BitVec.ofNat 32 bytes := by
          rw [BitVec.sub_eq_add_neg, BitVec.sub_eq_add_neg, BitVec.neg_add, BitVec.sub_eq_add_neg,
            BitVec.add_comm address, BitVec.add_assoc, ← BitVec.add_assoc address,
            ← BitVec.sub_eq_add_neg address, BitVec.sub_self, BitVec.zero_add]
        rw [hsplit, BitVec.toNat_sub, BitVec.toNat_ofNat, BitVec.toNat_ofNat,
          Nat.mod_eq_of_lt (a := bytes) (by omega), Nat.mod_eq_of_lt (a := i) (by omega)]
        omega
    | succ k =>
      have hplace : address + BitVec.ofNat 32 (bytes * (k + 1)) =
          address + BitVec.ofNat 32 bytes + BitVec.ofNat 32 (bytes * k) := by
        rw [BitVec.add_assoc, ← BitVec.ofNat_add, Nat.mul_succ, Nat.add_comm]
      rw [hplace, storeList, ih (by omega) (by simpa using hk), List.getElem_cons_succ]

end Places

/-! ### Registers that come from them -/

section Loads

variable {long : Bool} {stepped : Option M68kReg} {rs : List M68kReg} {r : M68kReg}
  {address : BitVec 32} {m : Machine}

theorem loadList_memory (rs : List M68kReg) (address : BitVec 32) (m : Machine) :
    (loadList long stepped rs address m).memory = m.memory := by
  induction rs generalizing address m with
  | nil => rfl
  | cons r rs ih =>
    rw [loadList_cons, ih]
    split_ifs
    · rfl
    · exact memory_setReg m r _

theorem reg_setReg (m : Machine) (r r' : M68kReg) (value : BitVec 32) :
    (m.setReg r value).reg r' = if r' = r then value else m.reg r' := by
  cases r with
  | data i =>
    cases r' with
    | data j =>
      show Function.update m.d i value j = _
      rw [Function.update_apply]
      simp [Machine.reg]
    | address j => rfl
  | address i =>
    cases r' with
    | data j => rfl
    | address j =>
      show Function.update m.a i value j = _
      rw [Function.update_apply]
      simp [Machine.reg]

theorem loadList_other (h : r ∉ rs) :
    (loadList long stepped rs address m).reg r = m.reg r := by
  induction rs generalizing address m with
  | nil => rfl
  | cons r' rs ih =>
    rw [List.mem_cons, not_or] at h
    rw [loadList_cons, ih h.2]
    split_ifs
    · rfl
    · rw [reg_setReg, if_neg h.1]

/-- A register of the list has what its place holds. -/
theorem loadList_getElem (hnodup : rs.Nodup) {k : ℕ} (hk : k < rs.length)
    (hstepped : stepped ≠ some rs[k]) :
    (loadList long stepped rs address m).reg rs[k] =
      element long m.memory (address + BitVec.ofNat 32 (regBytes long * k)) := by
  induction rs generalizing address m k with
  | nil => exact absurd hk (Nat.not_lt_zero k)
  | cons r' rs ih =>
    obtain ⟨hnot, hrest⟩ := List.nodup_cons.mp hnodup
    rw [loadList_cons]
    cases k with
    | zero =>
      rw [List.getElem_cons_zero] at hstepped ⊢
      rw [loadList_other hnot, if_neg hstepped, reg_setReg, if_pos rfl, Nat.mul_zero,
        BitVec.add_zero]
    | succ k =>
      rw [List.getElem_cons_succ] at hstepped ⊢
      have hplace : address + BitVec.ofNat 32 (regBytes long * (k + 1)) =
          address + BitVec.ofNat 32 (regBytes long) + BitVec.ofNat 32 (regBytes long * k) := by
        rw [BitVec.add_assoc, ← BitVec.ofNat_add, Nat.mul_succ, Nat.add_comm]
      rw [ih hrest (by simpa using hk) hstepped, hplace]
      congr 1
      split_ifs
      · rfl
      · exact memory_setReg m r' _

end Loads

/-! ### Saved and loaded again -/

theorem registers_nodup (mask : BitVec 16) (reversed : Bool) : (registers mask reversed).Nodup :=
  List.Nodup.filter _ (by decide)

/-- The list of (An)+ is that of -(An) in reverse. -/
theorem registers_reverse (mask : BitVec 16) :
    registers mask.reverse false = registers mask true := by
  unfold registers
  refine List.filter_congr fun r hr ↦ ?_
  have hnumber : r.number < 16 := by
    cases r <;> simp [M68kReg.number] <;> omega
  rw [if_neg Bool.false_ne_true, if_pos rfl, BitVec.getLsbD_reverse, BitVec.getMsbD,
    decide_eq_true hnumber, Bool.true_and, show 16 - 1 - r.number = 15 - r.number by omega]

/-- What is left of a register that is saved. -/
def kept (long : Bool) (value : BitVec 32) : BitVec 32 :=
  if long then value else (value.setWidth 16).signExtend 32

theorem element_of_load {long : Bool} {memory : Bytes} {address value : BitVec 32}
    (h : Lib.load memory address (regBytes long) = value.toNat % 256 ^ regBytes long) :
    element long memory address = kept long value := by
  unfold element kept
  cases long with
  | true =>
    rw [if_pos rfl, if_pos rfl, show Lib.load memory address 4 = value.toNat % 256 ^ 4 from h]
    refine BitVec.eq_of_toNat_eq ?_
    rw [BitVec.toNat_ofNat]
    have hlt := value.isLt
    omega
  | false =>
    rw [if_neg Bool.false_ne_true, if_neg Bool.false_ne_true,
      show Lib.load memory address 2 = value.toNat % 256 ^ 2 from h]
    congr 1
    refine BitVec.eq_of_toNat_eq ?_
    rw [BitVec.toNat_ofNat, BitVec.toNat_setWidth]
    omega

variable {e e' : Emission MovemReg}

/-- The code that saves the registers, as the instruction on the machine. -/
theorem view_saved (long : Bool) (mask : BitVec 16) (i : Fin 8) (s : WideCpu) :
    SameButPc (e.view (execMovem (emitMOVEM e long mask (.storePreDecrement i)) s))
      (movem long mask (.storePreDecrement i) (s.get (an i)) (e.view s)) := by
  obtain ⟨pc, hview⟩ := view_listAdvance (e := e) s
  have haddress : (execInsns (listAdvance e).1 s).get (an i) = s.get (an i) :=
    congrArg (fun m : Machine ↦ m.a i) hview
  have hright := movesRight_of_code
    (code_storePreDecrement (e := e) long mask i (execInsns (listAdvance e).1 s))
  rw [← haddress]
  exact hright

/-- The code that loads them again. -/
theorem view_restored {long : Bool} {mask : BitVec 16} {i : Fin 8}
    (hpair : ¬ LoadsBaseInPair (e := e) long mask (.loadPostIncrement i)) (s : WideCpu) :
    SameButPc (e.view (execMovem (emitMOVEM e long mask (.loadPostIncrement i)) s))
      (movem long mask (.loadPostIncrement i) (s.get (an i)) (e.view s)) := by
  obtain ⟨pc, hview⟩ := view_listAdvance (e := e) s
  have haddress : (execInsns (listAdvance e).1 s).get (an i) = s.get (an i) :=
    congrArg (fun m : Machine ↦ m.a i) hview
  have hright := movesRight_of_code (code_loadPostIncrement hpair (execInsns (listAdvance e).1 s))
  rw [← haddress]
  exact hright

/-- Where the registers are saved, and what An is then. -/
theorem saved_values (long : Bool) (mask : BitVec 16) (i : Fin 8) (s : WideCpu) :
    let s' := execMovem (emitMOVEM e long mask (.storePreDecrement i)) s
    s'.get (an i) = s.get (an i) - BitVec.ofNat 32 (regBytes long * (registers mask true).length) ∧
    ∀ k (hk : k < (registers mask true).length), (registers mask true)[k] ≠ .address i →
      Lib.load s'.memory (s'.get (an i) + BitVec.ofNat 32 (regBytes long * k)) (regBytes long) =
        ((e.view s).reg (registers mask true)[k]).toNat % 256 ^ regBytes long := by
  obtain ⟨pc, hview⟩ := view_saved (e := e) long mask i s
  have hbase : (execMovem (emitMOVEM e long mask (.storePreDecrement i)) s).get (an i) =
      s.get (an i) - BitVec.ofNat 32 (regBytes long * (registers mask true).length) :=
    (congrArg (fun m : Machine ↦ m.a i) hview).trans (Function.update_self ..)
  have hmemory := congrArg Machine.memory hview
  refine ⟨hbase, fun k hk hne ↦ ?_⟩
  have hsize : regBytes long * (registers mask true).length ≤ 4 * 16 :=
    Nat.mul_le_mul (regBytes_le long) (registers_length_le mask true)
  rw [hbase]
  change (execMovem (emitMOVEM e long mask (.storePreDecrement i)) s).memory = _ at hmemory
  rw [hmemory]
  refine (load_storeList (by rw [List.length_map]; omega) (by rwa [List.length_map])).trans ?_
  rw [List.getElem_map, if_neg hne]

/-- The state behind the code that loads the registers is that of the code in between, but the
listed registers are as they were when they were saved, and An is. -/
theorem saved_restored {long : Bool} {mask : BitVec 16} {i : Fin 8} {s t : WideCpu}
    (hpair : ¬ LoadsBaseInPair (e := e') long mask.reverse (.loadPostIncrement i))
    (hbase : t.get (an i) = (execMovem (emitMOVEM e long mask (.storePreDecrement i)) s).get (an i))
    (hmemory : ∀ k < regBytes long * (registers mask true).length,
      t.memory (t.get (an i) + BitVec.ofNat 32 k).toNat =
        (execMovem (emitMOVEM e long mask (.storePreDecrement i)) s).memory
          (t.get (an i) + BitVec.ofNat 32 k).toNat) :
    (∀ r ∈ registers mask true, r ≠ .address i →
      (e'.view (execMovem (emitMOVEM e' long mask.reverse (.loadPostIncrement i)) t)).reg r =
        kept long ((e.view s).reg r)) ∧
    (∀ r ∉ registers mask true, r ≠ .address i →
      (e'.view (execMovem (emitMOVEM e' long mask.reverse (.loadPostIncrement i)) t)).reg r =
        (e'.view t).reg r) ∧
    (e'.view (execMovem (emitMOVEM e' long mask.reverse (.loadPostIncrement i)) t)).a i =
      (e.view s).a i ∧
    (e'.view (execMovem (emitMOVEM e' long mask.reverse (.loadPostIncrement i)) t)).memory =
      t.memory := by
  obtain ⟨hsaved, hvalues⟩ := saved_values (e := e) long mask i s
  obtain ⟨pc, hview⟩ := view_restored hpair t
  rw [hview]
  have hreg : ∀ r ≠ M68kReg.address i,
      (movem long mask.reverse (.loadPostIncrement i) (t.get (an i)) (e'.view t)).reg r =
        (loadList long (some (.address i)) (registers mask true) (t.get (an i))
          (e'.view t)).reg r := by
    intro r hr
    rw [← registers_reverse]
    exact (reg_setReg _ (.address i) r _).trans (if_neg hr)
  refine ⟨fun r hr hne ↦ ?_, fun r hr hne ↦ ?_, ?_, ?_⟩
  · obtain ⟨k, hk, rfl⟩ := List.getElem_of_mem hr
    refine (hreg _ hne).trans ?_
    rw [loadList_getElem (registers_nodup mask true) hk fun h ↦ hne (Option.some.inj h).symm]
    refine element_of_load ((load_congr fun j hj ↦ ?_).trans (hbase ▸ hvalues k hk hne))
    rw [BitVec.add_assoc, ← BitVec.ofNat_add]
    refine hmemory _ ?_
    calc regBytes long * k + j < regBytes long * k + regBytes long := by omega
      _ = regBytes long * (k + 1) := (Nat.mul_succ _ _).symm
      _ ≤ regBytes long * (registers mask true).length := Nat.mul_le_mul_left _ hk
  · exact (hreg _ hne).trans (loadList_other hr)
  · refine (Function.update_self ..).trans ?_
    rw [registers_reverse, hbase, hsaved, BitVec.sub_add_cancel]
    rfl
  · exact loadList_memory _ _ _

/-- D0, D1 and D2 saved on the stack and loaded at once. -/
theorem savedOnStack_restored :
    let saved := execMovem (emitMOVEM pairEmission true 0xE000 (.storePreDecrement 7)) pairCpu
    let loaded := execMovem (emitMOVEM pairEmission true (BitVec.reverse 0xE000)
      (.loadPostIncrement 7)) saved
    (∀ r ∈ registers 0xE000 true, r ≠ .address 7 →
      (pairEmission.view loaded).reg r = kept true ((pairEmission.view pairCpu).reg r)) ∧
    (pairEmission.view loaded).a 7 = (pairEmission.view pairCpu).a 7 := by
  have hpair : ¬ LoadsBaseInPair (e := pairEmission) true (BitVec.reverse 0xE000)
      (.loadPostIncrement 7) := by
    rintro ⟨-, hlength, -⟩
    revert hlength
    decide
  obtain ⟨hlisted, -, hbase, -⟩ := saved_restored (e := pairEmission) hpair rfl fun _ _ ↦ rfl
  exact ⟨hlisted, hbase⟩

end Emu68.Alu
