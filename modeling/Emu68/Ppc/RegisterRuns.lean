import Emu68.Ppc.RegisterStores
import Emu68.A64.AllocatorRuns
import Mathlib.Data.Finset.Card
import Mathlib.Data.Finset.Range
import Mathlib.Data.Finset.Dedup

/-!
Runs of the register cache. The emitters of the PowerPC instructions call its functions and put
instructions between the calls, which write to registers they have allocated or to the register that
stands for a PowerPC register. `save` and `restore` enclose the code of an exit, which is run
instead of the code that follows: what was known before the exit holds again behind it.
-/

set_option autoImplicit false
set_option relaxedAutoImplicit false

namespace Emu68.Ppc.RegisterCache

open A64 Lib

/-- One path through the emitted code. -/
structure Frame where
  ctx : Context
  host : Host
  /-- The registers that were allocated and not freed. -/
  temps : Reg → Bool
  /-- The PowerPC registers, as the instructions have left them. -/
  ppc : Gpr → BitVec 32
  /-- The registers that an emitter was given for a value it has not written yet. -/
  pending : Gpr → Bool
  /-- The A64 registers that an emitter was given for its operands. -/
  handle : Gpr → Option Reg
  /-- The number of operands it has asked for. -/
  recent : ℕ

structure Session where
  frame : Frame
  snapshots : List Frame

inductive GprCall where
  | alloc
  | free (armReg : Reg)
  /-- `mapGPRForRead`, `mapGPRForReadAndWrite` and `mapGPRForWrite`. -/
  | map (reg : Gpr) (load setDirty : Bool)
  | setDirty (reg : Gpr)
  /-- An instruction of the emitter that gives a PowerPC register its value. -/
  | write (reg : Gpr) (value : BitVec 32)
  /-- An instruction of the emitter that writes a register it has allocated. -/
  | compute (armReg : Reg) (value : BitVec 64)
  | getCTX
  | flushCTX
  /-- The emitter is done, and uses the registers it was given no longer. -/
  | finish
  | storeDirtyGPRs
  | flushAllGPRs
  | save
  | restore

namespace Frame

/-- The context goes on to another state, and the code it emits is run. -/
def emit (f : Frame) (c : Context) (code : List Move) : Frame :=
  { f with ctx := c, host := f.host.exec code }

def grant (f : Frame) (armReg : Reg) : Frame :=
  { f with temps := Function.update f.temps armReg true }

def writeReg (f : Frame) (armReg : Reg) (value : BitVec 64) : Frame :=
  { f with host := { f.host with regs := Function.update f.host.regs armReg value } }

def call (f : Frame) : GprCall → Option Frame
  | .alloc => f.ctx.allocARMRegister.map fun (c, code, armReg) ↦ (f.emit c code).grant armReg
  | .free armReg =>
    some { f with
      ctx := f.ctx.freeARMRegister armReg
      temps := Function.update f.temps armReg false }
  | .map reg load setDirty =>
    (f.ctx.intMapGPR reg load setDirty).map fun (c, code, armReg) ↦
      { f.emit c code with
        pending := if load then f.pending else Function.update f.pending reg true
        handle := Function.update f.handle reg (some armReg)
        recent := f.recent + 1 }
  | .setDirty reg => some { f with ctx := f.ctx.setDirtyGPR reg }
  | .write reg value =>
    (f.handle reg).map fun armReg ↦
      { f.writeReg armReg (value.setWidth 64) with
        ppc := Function.update f.ppc reg value
        pending := Function.update f.pending reg false }
  | .compute armReg value => some (f.writeReg armReg value)
  | .getCTX => f.ctx.getCTX.map fun (c, code, _) ↦ f.emit c code
  | .flushCTX => some { f with ctx := f.ctx.flushCTX }
  | .finish => some { f with handle := fun _ ↦ none, recent := 0 }
  | .storeDirtyGPRs => some (f.emit f.ctx f.ctx.storeDirtyGPRs)
  | .flushAllGPRs =>
    let (c, code) := f.ctx.flushAllGPRs
    some { f.emit c code with handle := fun _ ↦ none }
  | .save | .restore => some f

end Frame

/-- `restore` goes back to the snapshot, but for the static variable. -/
def Session.call (s : Session) : GprCall → Option Session
  | .save => some { s with snapshots := s.frame :: s.snapshots }
  | .restore =>
    match s.snapshots with
    | [] => none
    | f :: rest =>
      some ⟨{ f with ctx := { f.ctx with lastAllocated := s.frame.ctx.lastAllocated } }, rest⟩
  | op => (s.frame.call op).map fun f ↦ { s with frame := f }

namespace Frame

/-- The value that the host has for a PowerPC register. -/
def read (f : Frame) (reg : Gpr) : BitVec 32 :=
  if f.ctx.tryGetGPR reg ≠ noReg then (f.host.regs (f.ctx.tryGetGPR reg)).setWidth 32
  else ((simdLane reg).map f.host.simd).getD 0

/-- The registers that make room for no one. -/
def owned (f : Frame) : Finset Reg :=
  (Finset.range 12).filter fun x ↦ f.temps x = true ∨ f.ctx.regCtx = x

/-- There is room for one more register besides those an emitter was given. -/
def Roomy (f : Frame) : Prop := f.recent + f.owned.card ≤ 11

instance (f : Frame) : Decidable f.Roomy := inferInstanceAs (Decidable (_ ≤ 11))

/-- Every value an emitter was going to write is written. -/
def Settled (f : Frame) : Prop := ∀ reg, f.pending reg = false

instance (f : Frame) : Decidable f.Settled := inferInstanceAs (Decidable (∀ _ : Gpr, _ = _))

/-- A register that may be written: it has an A64 register for good, or will be stored. -/
def Writable (f : Frame) (reg : Gpr) : Prop :=
  intRegMapping reg ≠ noReg ∨ ∃ rn ∈ f.ctx.gprLru, rn.regNum = reg ∧ rn.dirty = true

instance (f : Frame) (reg : Gpr) : Decidable (f.Writable reg) :=
  inferInstanceAs (Decidable (_ ∨ ∃ rn ∈ f.ctx.gprLru, _))

end Frame

/-- The emitters free what they have allocated, write what they may write, write what they were
going to write before they are done, and ask for no more registers than there are. -/
def WellUsed (s : Session) : GprCall → Prop
  | .alloc => s.frame.Roomy
  | .map _ load setDirty => (load = true ∨ setDirty = true) ∧ s.frame.Roomy
  | .getCTX => s.frame.ctx.regCtx = noReg → s.frame.Roomy
  | .free armReg | .compute armReg _ => s.frame.temps armReg = true
  | .write reg _ => s.frame.Writable reg
  | .finish | .storeDirtyGPRs | .flushAllGPRs => s.frame.Settled
  | _ => True

instance (s : Session) (op : GprCall) : Decidable (WellUsed s op) := by
  cases op <;> unfold WellUsed <;> infer_instance

/-- A context that has nothing in use. -/
def Context.initial (lastAllocated : ℕ) : Context := ⟨noReg, fun _ ↦ false, lastAllocated, 64, []⟩

/-- Before the first call the PowerPC registers are where they belong. -/
def start (host : Host) (lastAllocated : ℕ) : Session where
  frame :=
    { ctx := Context.initial lastAllocated
      host := host
      temps := fun _ ↦ false
      ppc := fun reg ↦
        if intRegMapping reg ≠ noReg then (host.regs (intRegMapping reg)).setWidth 32
        else ((simdLane reg).map host.simd).getD 0
      pending := fun _ ↦ false
      handle := fun _ ↦ none
      recent := 0 }
  snapshots := []

/-- What the emitters rely on. -/
structure Safe (f : Frame) : Prop where
  /-- The host has the value of every PowerPC register, be it in use or not. -/
  value : ∀ reg, f.pending reg = false → f.read reg = f.ppc reg
  /-- What an emitter was given stands for its operand still. -/
  handle : ∀ reg armReg, f.handle reg = some armReg → f.ctx.tryGetGPR reg = armReg
  /-- The context pointer is where `getCTX` says. -/
  context : f.ctx.regCtx ≠ noReg → f.host.regs f.ctx.regCtx = f.host.context
  /-- An allocation succeeds, and nobody uses the register. -/
  fresh : f.Roomy → ∃ c code armReg, f.ctx.allocARMRegister = some (c, code, armReg) ∧
    armReg < 12 ∧ f.temps armReg = false ∧ c.regCtx ≠ armReg ∧
    (∀ reg, f.handle reg ≠ some armReg) ∧ ∀ reg, c.tryGetGPR reg ≠ armReg
  mapped : f.Roomy → ∀ reg load setDirty, (f.ctx.intMapGPR reg load setDirty).isSome = true
  /-- When the registers are stored, their lanes have their values. -/
  stored : f.Settled → ∀ reg lane, simdLane reg = some lane →
    (f.host.exec f.ctx.storeDirtyGPRs).simd lane = f.ppc reg
  /-- When they are flushed, only the emitters' registers are in use. -/
  flushed : ∀ armReg, f.ctx.flushAllGPRs.1.gprTmpPool armReg = true ↔
    f.temps armReg = true ∨ f.ctx.regCtx = armReg ∧ armReg ≠ noReg


/-! ### The invariant -/

def RegisterNode.key (rn : RegisterNode) : Gpr × Reg := (rn.regNum, rn.arm)

structure Tidy (f : Frame) : Prop where
  low : ∀ x, f.ctx.gprTmpPool x = true → x < 12
  pool : ∀ x, f.ctx.gprTmpPool x = true ↔
    f.temps x = true ∨ (f.ctx.regCtx = x ∧ x ≠ noReg) ∨ ∃ rn ∈ f.ctx.gprLru, rn.arm = x
  temps : ∀ x, f.temps x = true → f.ctx.regCtx ≠ x ∧ ∀ rn ∈ f.ctx.gprLru, rn.arm ≠ x
  ctxApart : ∀ rn ∈ f.ctx.gprLru, rn.arm ≠ f.ctx.regCtx
  regs : (f.ctx.gprLru.map RegisterNode.regNum).Nodup
  arms : (f.ctx.gprLru.map RegisterNode.arm).Nodup
  dynamic : ∀ rn ∈ f.ctx.gprLru, intRegMapping rn.regNum = noReg
  nodes : f.ctx.freePool + f.ctx.gprLru.length = 64
  fixed : ∀ reg, intRegMapping reg ≠ noReg → f.pending reg = false →
    (f.host.regs (intRegMapping reg)).setWidth 32 = f.ppc reg
  value : ∀ rn ∈ f.ctx.gprLru, f.pending rn.regNum = false →
    (f.host.regs rn.arm).setWidth 32 = f.ppc rn.regNum
  lane : ∀ reg lane, simdLane reg = some lane → f.pending reg = false →
    (∀ rn ∈ f.ctx.gprLru, rn.regNum = reg → rn.dirty = false) → f.host.simd lane = f.ppc reg
  handle : ∀ reg x, f.handle reg = some x →
    (intRegMapping reg ≠ noReg ∧ intRegMapping reg = x) ∨
      ∃ rn ∈ f.ctx.gprLru.take f.recent, rn.regNum = reg ∧ rn.arm = x
  pending : ∀ reg, f.pending reg = true → (f.handle reg).isSome = true
  context : f.ctx.regCtx ≠ noReg → f.host.regs f.ctx.regCtx = f.host.context

/-! ### Fixed registers and lanes -/

theorem intRegMapping_range : ∀ reg : Gpr, intRegMapping reg ≠ noReg →
    12 < intRegMapping reg ∧ intRegMapping reg < 30 := by
  decide

theorem intRegMapping_injective : ∀ reg reg' : Gpr, intRegMapping reg ≠ noReg →
    intRegMapping reg = intRegMapping reg' → reg = reg' := by
  decide

/-- A register has a lane if it has no A64 register for good. -/
theorem simdLane_isSome_iff : ∀ reg : Gpr,
    (simdLane reg).isSome = true ↔ intRegMapping reg = noReg := by
  decide

variable {f : Frame} {c : Context} {x armReg : Reg} {reg : Gpr} {rn : RegisterNode}

theorem Tidy.arm_lt (h : Tidy f) (hrn : rn ∈ f.ctx.gprLru) : rn.arm < 12 :=
  h.low _ ((h.pool _).mpr (.inr (.inr ⟨rn, hrn, rfl⟩)))

theorem Tidy.temp_lt (h : Tidy f) (hx : f.temps x = true) : x < 12 :=
  h.low _ ((h.pool _).mpr (.inl hx))

theorem ne_noReg_of_lt (h : x < 12) : x ≠ noReg := by
  rintro rfl
  exact absurd h (by decide)

theorem fixed_ne_of_lt (hreg : intRegMapping reg ≠ noReg) (h : x < 12) : intRegMapping reg ≠ x :=
  fun heq ↦ Nat.lt_asymm h (heq ▸ (intRegMapping_range reg hreg).1)

/-- A register in use is found under its number. -/
theorem Tidy.find (h : Tidy f) (hrn : rn ∈ f.ctx.gprLru) :
    f.ctx.tryGetGPR rn.regNum = rn.arm := by
  have hfind : f.ctx.gprLru.find? (fun rn' ↦ rn'.regNum = rn.regNum) = some rn := by
    cases hfound : f.ctx.gprLru.find? (fun rn' ↦ rn'.regNum = rn.regNum) with
    | none => exact absurd (decide_eq_true rfl) (List.find?_eq_none.mp hfound rn hrn)
    | some rn' =>
      have heq : rn'.regNum = rn.regNum := by simpa using List.find?_some hfound
      exact congrArg some
        (List.inj_on_of_nodup_map h.regs (List.mem_of_find?_eq_some hfound) hrn heq)
  unfold Context.tryGetGPR
  rw [if_neg (not_not.mpr (h.dynamic rn hrn)), hfind]
  rfl

theorem tryGetGPR_fixed (hreg : intRegMapping reg ≠ noReg) :
    c.tryGetGPR reg = intRegMapping reg :=
  if_pos hreg

/-- What `tryGetGPR` finds is a fixed register or one in use. -/
theorem tryGetGPR_cases (c : Context) (reg : Gpr) :
    (intRegMapping reg ≠ noReg ∧ c.tryGetGPR reg = intRegMapping reg) ∨
    (∃ rn ∈ c.gprLru, rn.regNum = reg ∧ c.tryGetGPR reg = rn.arm) ∨
    (intRegMapping reg = noReg ∧ (∀ rn ∈ c.gprLru, rn.regNum ≠ reg) ∧ c.tryGetGPR reg = noReg) := by
  by_cases hfixed : intRegMapping reg = noReg
  · refine .inr ?_
    unfold Context.tryGetGPR
    rw [if_neg (not_not.mpr hfixed)]
    cases hfound : c.gprLru.find? (fun rn ↦ rn.regNum = reg) with
    | none =>
      exact .inr ⟨hfixed, fun rn hrn ↦ by simpa using List.find?_eq_none.mp hfound rn hrn, rfl⟩
    | some rn =>
      exact .inl ⟨rn, List.mem_of_find?_eq_some hfound, by simpa using List.find?_some hfound, rfl⟩
  · exact .inl ⟨hfixed, tryGetGPR_fixed hfixed⟩

theorem Tidy.read (h : Tidy f) (hreg : f.pending reg = false) : f.read reg = f.ppc reg := by
  unfold Frame.read
  rcases tryGetGPR_cases f.ctx reg with ⟨hfixed, hget⟩ | ⟨rn, hrn, rfl, hget⟩ | ⟨hdyn, hnone, hget⟩
  · rw [hget, if_pos hfixed]
    exact h.fixed reg hfixed hreg
  · rw [hget, if_pos (ne_noReg_of_lt (h.arm_lt hrn))]
    exact h.value rn hrn hreg
  · rw [hget, if_neg (not_not.mpr rfl)]
    obtain ⟨lane, hlane⟩ := Option.isSome_iff_exists.mp ((simdLane_isSome_iff reg).mpr hdyn)
    rw [hlane]
    exact h.lane reg lane hlane hreg fun rn hrn heq ↦ absurd heq (hnone rn hrn)

theorem Tidy.handle_eq (h : Tidy f) (hreg : f.handle reg = some x) : f.ctx.tryGetGPR reg = x := by
  rcases h.handle reg x hreg with ⟨hfixed, rfl⟩ | ⟨rn, hrn, rfl, rfl⟩
  · exact tryGetGPR_fixed hfixed
  · exact h.find (List.mem_of_mem_take hrn)

/-- A register that an emitter has allocated stands for no PowerPC register. -/
theorem Tidy.tryGetGPR_ne (h : Tidy f) (hx : f.temps x = true) (reg : Gpr) :
    f.ctx.tryGetGPR reg ≠ x := by
  have hlt := h.temp_lt hx
  rcases tryGetGPR_cases f.ctx reg with ⟨hfixed, hget⟩ | ⟨rn, hrn, -, hget⟩ | ⟨-, -, hget⟩
  · rw [hget]
    exact fixed_ne_of_lt hfixed hlt
  · rw [hget]
    exact (h.temps x hx).2 rn hrn
  · rw [hget]
    exact (ne_noReg_of_lt hlt).symm

/-! ### One register -/

theorem findFree_some (h : c.findFree = some x) : x < 12 ∧ c.gprTmpPool x = false := by
  have hmem := List.mem_of_find?_eq_some h
  obtain ⟨i, -, rfl⟩ := List.mem_map.mp hmem
  exact ⟨Nat.mod_lt _ (by decide), by simpa using List.find?_some h⟩

/-- The search reaches every number below 12. -/
theorem findFree_none (h : c.findFree = none) (hx : x < 12) : c.gprTmpPool x = true := by
  have hmem : x ∈ (List.range' 1 12).map fun i ↦ (c.lastAllocated + i) % 12 := by
    refine List.mem_map.mpr ⟨(x + 11 - c.lastAllocated % 12) % 12 + 1, ?_,
      A64.Session.search_reaches c.lastAllocated x hx⟩
    rw [List.mem_range'_1]
    omega
  simpa using List.find?_eq_none.mp h x hmem

/-- When no register is free, the last one in use is behind those an emitter was given. -/
theorem Tidy.crowded (h : Tidy f) (hroom : f.Roomy) (hfull : f.ctx.findFree = none) :
    f.recent < f.ctx.gprLru.length := by
  have hsubset : Finset.range 12 ⊆ f.owned ∪ (f.ctx.gprLru.map RegisterNode.arm).toFinset := by
    intro x hx
    have hlt := Finset.mem_range.mp hx
    rw [Finset.mem_union, Frame.owned, Finset.mem_filter, List.mem_toFinset, List.mem_map]
    rcases (h.pool x).mp (findFree_none hfull hlt) with htemp | ⟨hctx, -⟩ | hnode
    · exact .inl ⟨hx, .inl htemp⟩
    · exact .inl ⟨hx, .inr hctx⟩
    · exact .inr hnode
  have hcard := (Finset.card_le_card hsubset).trans (Finset.card_union_le _ _)
  have hlist := List.toFinset_card_le (f.ctx.gprLru.map RegisterNode.arm)
  rw [List.length_map] at hlist
  rw [Finset.card_range] at hcard
  unfold Frame.Roomy at hroom
  omega


theorem of_update {owned : Reg → Bool} {y : Reg} {b : Bool} (hne : y ≠ x)
    (h : Function.update owned x b y = true) : owned y = true := by
  rwa [Function.update_of_ne hne] at h

/-- Allocating a register keeps the invariant, and the register belongs to the emitter. -/
theorem Tidy.alloc (h : Tidy f) (hroom : f.Roomy) :
    ∃ c code armReg, f.ctx.allocARMRegister = some (c, code, armReg) ∧ armReg < 12 ∧
      f.temps armReg = false ∧ c.regCtx = f.ctx.regCtx ∧ c.gprLru.Sublist f.ctx.gprLru ∧
      Tidy ((f.emit c code).grant armReg) := by
  unfold Context.allocARMRegister
  cases hfree : f.ctx.findFree with
  | some x =>
    obtain ⟨hlt, hunused⟩ := findFree_some hfree
    have hnone : ¬ (f.temps x = true ∨ (f.ctx.regCtx = x ∧ x ≠ noReg) ∨
        ∃ rn ∈ f.ctx.gprLru, rn.arm = x) := by
      rw [← h.pool x, hunused]
      exact Bool.false_ne_true
    rw [not_or, not_or] at hnone
    obtain ⟨htemp, hctx, hnode⟩ := hnone
    refine ⟨_, _, x, rfl, hlt, Bool.eq_false_iff.mpr htemp, rfl, List.Sublist.refl _, ?_⟩
    refine { h with low := fun y hy ↦ ?_, pool := fun y ↦ ?_, temps := fun y hy ↦ ?_ }
    · by_cases hyx : y = x
      · exact hyx ▸ hlt
      · exact h.low y (of_update hyx hy)
    · by_cases hyx : y = x
      · rw [hyx]
        exact iff_of_true (Function.update_self ..) (.inl (Function.update_self ..))
      · have hpool := h.pool y
        rw [← Function.update_of_ne hyx true f.ctx.gprTmpPool,
          ← Function.update_of_ne hyx true f.temps] at hpool
        exact hpool
    · by_cases hyx : y = x
      · rw [hyx]
        exact ⟨fun heq ↦ hctx ⟨heq, ne_noReg_of_lt hlt⟩, fun rn hrn heq ↦ hnode ⟨rn, hrn, heq⟩⟩
      · exact h.temps y (of_update hyx hy)
  | none =>
    -- the last register in use makes room
    have hlong := h.crowded hroom hfree
    obtain ⟨front, last, hlru⟩ : ∃ front last, f.ctx.gprLru = front ++ [last] :=
      ⟨_, _, (List.dropLast_append_getLast (List.ne_nil_of_length_pos (by omega))).symm⟩
    have hlast : last ∈ f.ctx.gprLru := by
      rw [hlru]
      exact List.mem_append_right _ List.mem_cons_self
    have hfront : ∀ rn ∈ front, rn ∈ f.ctx.gprLru := fun rn hrn ↦ by
      rw [hlru]
      exact List.mem_append_left _ hrn
    have hregs := h.regs
    have harms := h.arms
    rw [hlru, List.map_append, List.nodup_append] at hregs harms
    have hother : ∀ rn ∈ front, rn.arm ≠ last.arm ∧ rn.regNum ≠ last.regNum := fun rn hrn ↦
      ⟨harms.2.2 _ (List.mem_map_of_mem hrn) _ List.mem_cons_self,
        hregs.2.2 _ (List.mem_map_of_mem hrn) _ List.mem_cons_self⟩
    have htake : f.ctx.gprLru.take f.recent = front.take f.recent := by
      rw [hlru, List.length_append, List.length_singleton] at hlong
      rw [hlru, List.take_append_of_le_length (by omega)]
    have hsettled : f.pending last.regNum = false := by
      by_contra hpending
      obtain ⟨x, hx⟩ := Option.isSome_iff_exists.mp (h.pending _ (Bool.not_eq_false _ ▸ hpending))
      rcases h.handle _ x hx with ⟨hfixed, -⟩ | ⟨rn, hrn, hreg, -⟩
      · exact hfixed (h.dynamic last hlast)
      · rw [htake] at hrn
        exact (hother rn (List.mem_of_mem_take hrn)).2 hreg
    have hlt := h.arm_lt hlast
    have hpool := (h.pool last.arm).mpr (.inr (.inr ⟨last, hlast, rfl⟩))
    have htemp : f.temps last.arm = false := by
      by_contra htemp
      exact (h.temps _ (Bool.not_eq_false _ ▸ htemp)).2 last hlast rfl
    have hregsHost : (f.host.exec (Context.writeBack last)).regs = f.host.regs ∧
        (f.host.exec (Context.writeBack last)).context = f.host.context := by
      unfold Context.writeBack
      split
      · split <;> exact ⟨rfl, rfl⟩
      · exact ⟨rfl, rfl⟩
    obtain ⟨lane, hlane⟩ :=
      Option.isSome_iff_exists.mp ((simdLane_isSome_iff _).mpr (h.dynamic last hlast))
    have hsimd : ∀ lane', lane' ≠ lane →
        (f.host.exec (Context.writeBack last)).simd lane' = f.host.simd lane' := by
      intro lane' hne
      unfold Context.writeBack
      split
      · rw [hlane]
        exact Function.update_of_ne hne _ _
      · rfl
    have hstored : (f.host.exec (Context.writeBack last)).simd lane = f.ppc last.regNum := by
      unfold Context.writeBack
      by_cases hdirty : last.dirty = true
      · rw [if_pos hdirty, hlane]
        exact (Function.update_self ..).trans (h.value last hlast hsettled)
      · rw [if_neg hdirty]
        refine h.lane _ lane hlane hsettled fun rn hrn hreg ↦ ?_
        rw [List.inj_on_of_nodup_map h.regs hrn hlast hreg]
        exact Bool.eq_false_iff.mpr hdirty
    rw [hlru, List.getLast?_concat, List.dropLast_concat]
    refine ⟨_, _, _, rfl, hlt, htemp, rfl, List.sublist_append_left front [last], ?_⟩
    refine ⟨h.low, fun y ↦ ?_, fun y hy ↦ ?_, fun rn hrn ↦ h.ctxApart rn (hfront rn hrn), hregs.1,
      harms.1, fun rn hrn ↦ h.dynamic rn (hfront rn hrn), ?_, fun reg hfixed hreg ↦ ?_,
      fun rn hrn hreg ↦ ?_, fun reg lane' hlane' hreg hclean ↦ ?_, fun reg x hx ↦ ?_, h.pending,
      fun hctx ↦ ?_⟩
    · by_cases hy : y = last.arm
      · rw [hy]
        exact iff_of_true hpool (.inl (Function.update_self ..))
      · refine (h.pool y).trans ?_
        have hupdate : Function.update f.temps last.arm true y = f.temps y :=
          Function.update_of_ne hy _ _
        show _ ↔ Function.update f.temps last.arm true y = true ∨ _ ∨ ∃ rn ∈ front, rn.arm = y
        rw [hupdate, hlru]
        refine or_congr_right (or_congr_right ⟨?_, ?_⟩)
        · rintro ⟨rn, hrn, rfl⟩
          rcases List.mem_append.mp hrn with hrn | hrn
          · exact ⟨rn, hrn, rfl⟩
          · exact absurd (congrArg _ (List.mem_singleton.mp hrn)) hy
        · rintro ⟨rn, hrn, rfl⟩
          exact ⟨rn, List.mem_append_left _ hrn, rfl⟩
    · by_cases hyx : y = last.arm
      · rw [hyx]
        exact ⟨(h.ctxApart last hlast).symm, fun rn hrn ↦ (hother rn hrn).1⟩
      · have := h.temps y (of_update hyx hy)
        exact ⟨this.1, fun rn hrn ↦ this.2 rn (hfront rn hrn)⟩
    · have := h.nodes
      rw [hlru, List.length_append, List.length_singleton] at this
      show f.ctx.freePool + 1 + front.length = 64
      omega
    · refine Eq.trans ?_ (h.fixed reg hfixed hreg)
      exact congrArg (fun regs ↦ (regs (intRegMapping reg)).setWidth 32) hregsHost.1
    · refine Eq.trans ?_ (h.value rn (hfront rn hrn) hreg)
      exact congrArg (fun regs ↦ (regs rn.arm).setWidth 32) hregsHost.1
    · by_cases heq : reg = last.regNum
      · rw [heq] at hlane' ⊢
        rw [hlane] at hlane'
        rw [← Option.some.inj hlane']
        exact hstored
      · have hne : lane' ≠ lane := by
          rintro rfl
          exact heq (simdLane_injective reg last.regNum (hlane' ▸ rfl) (hlane'.trans hlane.symm))
        refine (hsimd lane' hne).trans (h.lane reg lane' hlane' hreg fun rn hrn hrnreg ↦ ?_)
        rw [hlru] at hrn
        rcases List.mem_append.mp hrn with hrn | hrn
        · exact hclean rn hrn hrnreg
        · exact absurd (hrnreg.symm.trans (congrArg _ (List.mem_singleton.mp hrn))) heq
    · rcases h.handle reg x hx with hfixed | hnode
      · exact .inl hfixed
      · rw [htake] at hnode
        exact .inr hnode
    · refine Eq.trans ?_ ((h.context hctx).trans hregsHost.2.symm)
      exact congrFun hregsHost.1 _

end Emu68.Ppc.RegisterCache
