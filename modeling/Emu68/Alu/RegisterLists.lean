import Emu68.Alu.Operands

/-!
MOVEM (`EMIT_MOVEM` of `M68k_LINE4.c`), and its loops over the register list. The registers go to
consecutive addresses or come from them, the long ones in pairs. The first store of -(An) moves An,
and the pair of a list of two does with (An)+; behind any other list An is moved on its own.
-/

set_option autoImplicit false
set_option relaxedAutoImplicit false

namespace Emu68.Alu

open A64 Lib

/-! ### The registers of a list -/

inductive M68kReg where
  | data (i : Fin 8)
  | address (i : Fin 8)
deriving DecidableEq

namespace M68kReg

def number : M68kReg → ℕ
  | .data i => i
  | .address i => 8 + i

/-- `RA_MapM68kRegister`. -/
def host : M68kReg → Reg
  | .data i => dn i
  | .address i => an i

def all : List M68kReg := (List.finRange 8).map .data ++ (List.finRange 8).map .address

end M68kReg

/-- The registers of a list, from D0 to A7. The list of -(An) has its bits in reverse. -/
def registers (mask : BitVec 16) (reversed : Bool) : List M68kReg :=
  M68kReg.all.filter fun r ↦ mask.getLsbD (if reversed then 15 - r.number else r.number)

namespace Machine

def reg (m : Machine) : M68kReg → BitVec 32
  | .data i => m.d i
  | .address i => m.a i

def setReg (m : Machine) (r : M68kReg) (value : BitVec 32) : Machine :=
  match r with
  | .data i => m.setD i value
  | .address i => m.setA i value

end Machine

/-! ### The instruction -/

/-- The bytes of a register. -/
def regBytes (long : Bool) : ℕ := if long then 4 else 2

/-- Values go to consecutive addresses. -/
def storeList (bytes : ℕ) : List (BitVec 32) → BitVec 32 → Bytes → Bytes
  | [], _, memory => memory
  | value :: values, address, memory =>
    storeList bytes values (address + BitVec.ofNat 32 bytes)
      (store memory address bytes value.toNat)

/-- What a register is loaded with. -/
def element (long : Bool) (memory : Bytes) (address : BitVec 32) : BitVec 32 :=
  if long then BitVec.ofNat 32 (load memory address 4)
  else (BitVec.ofNat 16 (load memory address 2)).signExtend 32

/-- Registers come from consecutive addresses. The value for the register of (An)+ is discarded. -/
def loadList (long : Bool) (stepped : Option M68kReg) :
    List M68kReg → BitVec 32 → Machine → Machine
  | [], _, m => m
  | r :: rs, address, m =>
    loadList long stepped rs (address + BitVec.ofNat 32 (regBytes long))
      (if stepped = some r then m else m.setReg r (element long m.memory address))

/-- The directions and modes. All modes but (An)+ and -(An) give the address of an operand. -/
inductive MovemMode where
  | store
  | storePreDecrement (i : Fin 8)
  | load
  | loadPostIncrement (i : Fin 8)

/-- What the instruction makes of the registers and the memory. `address` is that of the operand,
or the old value of An. With -(An), An itself is stored as it was less the size of one register. -/
def movem (long : Bool) (mask : BitVec 16) (mode : MovemMode) (address : BitVec 32)
    (m : Machine) : Machine :=
  let bytes := regBytes long
  match mode with
  | .store => m.setMemory (storeList bytes ((registers mask false).map m.reg) address m.memory)
  | .storePreDecrement i =>
    let rs := registers mask true
    let start := address - BitVec.ofNat 32 (bytes * rs.length)
    let values := rs.map fun r ↦
      if r = .address i then m.a i - BitVec.ofNat 32 bytes else m.reg r
    (m.setMemory (storeList bytes values start m.memory)).setA i start
  | .load => loadList long none (registers mask false) address m
  | .loadPostIncrement i =>
    let rs := registers mask false
    (loadList long (some (.address i)) rs address m).setA i
      (address + BitVec.ofNat 32 (bytes * rs.length))

/-! ### The emitter -/

/-- `ldp_postindex`, `stp` and `stp_preindex` are beside the other instructions. -/
inductive MovemOp where
  | wide (op : WideOp)
  | stp (mode : Indexing) (rn rt1 rt2 : Reg) (imm : ℤ)
  | ldpPostindex (rn rt1 rt2 : Reg) (imm : ℤ)

def MovemOp.effect (op : MovemOp) (s : WideCpu) : WideCpu × ℕ :=
  match op with
  | .wide op => op.effect s
  | .stp mode rn rt1 rt2 imm =>
    let (address, base) := s.access mode rn imm
    let first := Lib.store s.memory address 4 (s.get64 rt1).toNat
    ({ s.put64 rn base with memory := Lib.store first (address + 4) 4 (s.get64 rt2).toNat }, 0)
  | .ldpPostindex rn rt1 rt2 imm =>
    let (address, base) := s.access .postindex rn imm
    let first := (s.put64 rn base).put64 rt1 (s.loaded address 4 false)
    (first.put64 rt2 (s.loaded (address + 4) 4 false), 0)

inductive MovemReg where
  | base
  | tmp
deriving DecidableEq

variable {e : Emission MovemReg}

/-- How the address gets into its register: a copy of An, or the code of another mode. -/
inductive MovemBase (e : Emission MovemReg) where
  | indirect (i : Fin 8)
  | computed (run : WideCpu → WideCpu) (address : WideCpu → BitVec 32)
      (locates : Locates (e.own.reg .base) e.cc run address)

namespace MovemBase

def locate : MovemBase e → WideOp
  | .indirect i => .insn (movReg (e.own.reg .base) (an i))
  | .computed run _ _ => .operand run

def address (s : WideCpu) : MovemBase e → BitVec 32
  | .indirect i => s.get (an i)
  | .computed _ address _ => address s

end MovemBase

/-- The mode of an access, and its offset. -/
def indexOffset (offset : ℕ) : Indexing × ℤ := (.offset, offset)

/-- The first access of -(An) moves the register. -/
def indexPreDecrement (blockSize offset : ℕ) : Indexing × ℤ :=
  if offset = 0 then (.preindex, -blockSize) else (.offset, offset)

/-- The loop of the stores. The first register of a pair is kept until the second one comes. -/
def storeLoop (long : Bool) (base : Reg) (index : ℕ → Indexing × ℤ) :
    Option Reg → ℕ → List Reg → List MovemOp
  | none, _, [] => []
  | some rt1, offset, [] => [.wide (.str 4 (index offset).1 base rt1 (index offset).2)]
  | none, offset, reg :: regs =>
    if long then storeLoop long base index (some reg) offset regs
    else .wide (.str 2 (index offset).1 base reg (index offset).2) ::
      storeLoop long base index none (offset + 2) regs
  | some rt1, offset, reg :: regs =>
    .stp (index offset).1 base rt1 reg (index offset).2 ::
      storeLoop long base index none (offset + 8) regs

/-- The load of a pair. With (An)+ it moves An if there are no other registers. -/
def loadPair (base : Reg) (blockSize : ℕ) (stepped : Option M68kReg) (rt1 reg : Reg) (offset : ℕ) :
    MovemOp :=
  if blockSize = 8 ∧ stepped.isSome then .ldpPostindex base rt1 reg 8
  else .wide (.ldp base rt1 reg offset)

/-- The loop of the loads, which passes over the register of (An)+. -/
def loadLoop (long : Bool) (base : Reg) (blockSize : ℕ) (stepped : Option M68kReg) :
    Option M68kReg → ℕ → List M68kReg → List MovemOp
  | none, _, [] => []
  | some rt1, offset, [] => [.wide (.ldr 4 false .offset base rt1.host offset)]
  | none, offset, r :: rs =>
    if long then
      if stepped = some r then loadLoop long base blockSize stepped none (offset + 4) rs
      else loadLoop long base blockSize stepped (some r) offset rs
    else (if stepped = some r then [] else [.wide (.ldr 2 true .offset base r.host offset)]) ++
      loadLoop long base blockSize stepped none (offset + 2) rs
  | some rt1, offset, r :: rs =>
    if stepped = some r then
      .wide (.ldr 4 false .offset base rt1.host offset) ::
        loadLoop long base blockSize stepped none (offset + 8) rs
    else loadPair base blockSize stepped rt1.host r.host offset ::
      loadLoop long base blockSize stepped none (offset + 8) rs

/-- The direction and mode with what they need of the operand. -/
inductive Movem (e : Emission MovemReg) where
  | store (base : MovemBase e)
  | storePreDecrement (i : Fin 8)
  | load (base : MovemBase e)
  | loadPostIncrement (i : Fin 8)

/-- The register that is stored for one of the list of -(An). -/
def storedReg (e : Emission MovemReg) (i : Fin 8) (r : M68kReg) : Reg :=
  if r = .address i then e.own.reg .tmp else r.host

namespace Movem

def mode : Movem e → MovemMode
  | .store _ => .store
  | .storePreDecrement i => .storePreDecrement i
  | .load _ => .load
  | .loadPostIncrement i => .loadPostIncrement i

/-- The address of the operand, or the old value of An. -/
def address (s : WideCpu) : Movem e → BitVec 32
  | .store base => base.address s
  | .storePreDecrement i => s.get (an i)
  | .load base => base.address s
  | .loadPostIncrement i => s.get (an i)

/-- The code between the two steps of the program counter. -/
def code (long : Bool) (mask : BitVec 16) : Movem e → List MovemOp
  | .store base =>
    .wide base.locate ::
      storeLoop long (e.own.reg .base) indexOffset none 0 ((registers mask false).map M68kReg.host)
  | .storePreDecrement i =>
    let rs := registers mask true
    let regs := rs.map (storedReg e i)
    (if .address i ∈ rs then [.wide (.insn (.subImmed (e.own.reg .tmp) (an i) (regBytes long)))]
      else []) ++
      storeLoop long (an i) (indexPreDecrement (regBytes long * rs.length)) none 0 regs
  | .load base =>
    let rs := registers mask false
    .wide base.locate ::
      loadLoop long (e.own.reg .base) (regBytes long * rs.length) none none 0 rs
  | .loadPostIncrement i =>
    let rs := registers mask false
    let blockSize := regBytes long * rs.length
    loadLoop long (an i) blockSize (some (.address i)) none 0 rs ++
      if blockSize = 8 ∧ long then [] else [.wide (.insn (.addImmed (an i) (an i) blockSize))]

end Movem

def wideInsns (code : List Op) : List MovemOp := code.map fun op ↦ .wide (.insn op)

/-- The step of the program counter over the register list, in front of the operand. -/
def listAdvance (e : Emission MovemReg) : List Op × ℤ := Branch.advancePC e.pcRel 2

def emitMOVEM (e : Emission MovemReg) (long : Bool) (mask : BitVec 16) (operand : Movem e) :
    List MovemOp :=
  let (first, pcRel) := listAdvance e
  let (last, pcRel) := Branch.advancePC pcRel (2 * (e.extWords + 1))
  let code := wideInsns first ++ operand.code long mask ++ wideInsns last
  -- a list without registers may leave no code
  if code.isEmpty then wideInsns (Branch.flushPC pcRel) else code

def execMovem (code : List MovemOp) (s : WideCpu) : WideCpu :=
  (runForward MovemOp.effect 0 code s).1

/-! ### Stores -/

theorem store_get {r : Reg} {n : ℕ} (hn : n ≤ 4) (memory : Bytes) (address : BitVec 32)
    (s : WideCpu) :
    store memory address n (s.get64 r).toNat = store memory address n (s.get r).toNat := by
  refine store_congr ?_
  have hdvd : 256 ^ n ∣ 2 ^ 32 := pow_dvd_pow (256 : ℕ) hn
  rw [WideCpu.get, BitVec.toNat_setWidth, Nat.mod_mod_of_dvd _ hdvd]

/-- The memory has been replaced, and the base register points to the first address. -/
def Stored (base : Reg) (start : BitVec 32) (memory : Bytes) (s s' : WideCpu) : Prop :=
  ∃ value : BitVec 64, value.setWidth 32 = start ∧
    s' = { s.put64 base value with memory := memory }

namespace Stored

variable {base r : Reg} {start : BitVec 32} {memory memory' : Bytes} {s s' s'' : WideCpu}

theorem refl (hbase : s.get base = start) : Stored base start s.memory s s :=
  ⟨s.get64 base, hbase, by rw [WideCpu.put64_get64]⟩

theorem memory_eq (h : Stored base start memory s s') : s'.memory = memory := by
  obtain ⟨value, -, rfl⟩ := h
  rfl

theorem get_base (h : Stored base start memory s s') (hbase : base ≠ 31) : s'.get base = start := by
  obtain ⟨value, hvalue, rfl⟩ := h
  exact (WideCpu.get_put64_ite hbase value).trans ((if_pos rfl).trans hvalue)

theorem get (h : Stored base start memory s s') (hr : r ≠ base) : s'.get r = s.get r := by
  obtain ⟨value, -, rfl⟩ := h
  exact congrArg (BitVec.setWidth 32) (WideCpu.get64_put64_of_ne hr value)

theorem trans (h : Stored base start memory s s') (h' : Stored base start memory' s' s'') :
    Stored base start memory' s s'' := by
  obtain ⟨value, -, rfl⟩ := h
  obtain ⟨value', hvalue', rfl⟩ := h'
  refine ⟨value', hvalue', ?_⟩
  unfold WideCpu.put64
  split_ifs <;> simp

end Stored

/-- Where the base register points before an access, and what the access makes of it. -/
structure Indexes (index : ℕ → Indexing × ℤ) (first start : BitVec 32) : Prop where
  access : ∀ (s : WideCpu) (base : Reg) (offset : ℕ),
    s.get base = (if offset = 0 then first else start) →
      (s.access (index offset).1 base (index offset).2).1 = start + BitVec.ofNat 32 offset ∧
      (s.access (index offset).1 base (index offset).2).2.setWidth 32 = start

theorem indexOffset_indexes (start : BitVec 32) : Indexes indexOffset start start := by
  refine ⟨fun s base offset hbase ↦ ?_⟩
  rw [ite_self] at hbase
  exact ⟨(access_add base offset s).trans (congrArg (· + _) hbase), hbase⟩

theorem indexPreDecrement_indexes (blockSize : ℕ) (first : BitVec 32) :
    Indexes (indexPreDecrement blockSize) first (first - BitVec.ofNat 32 blockSize) := by
  refine ⟨fun s base offset hbase ↦ ?_⟩
  unfold indexPreDecrement
  split_ifs at hbase ⊢ with hoffset
  · have hmoved := (access_sub base blockSize s).trans (congrArg (· - _) hbase)
    refine ⟨hmoved.trans ?_, hmoved⟩
    rw [hoffset]
    exact (BitVec.add_zero _).symm
  · exact ⟨(access_add base offset s).trans (congrArg (· + _) hbase), hbase⟩

section StoreLoop

variable {base : Reg} {index : ℕ → Indexing × ℤ} {first start : BitVec 32} {offset : ℕ}
  {s : WideCpu}

theorem effect_str (hindex : Indexes index first start) {n : ℕ} (hn : n ≤ 4) (rt : Reg)
    (hs : s.get base = if offset = 0 then first else start) :
    ∃ s', MovemOp.effect (.wide (.str n (index offset).1 base rt (index offset).2)) s = (s', 0) ∧
      Stored base start
        (store s.memory (start + BitVec.ofNat 32 offset) n (s.get rt).toNat) s s' := by
  obtain ⟨haddress, hbase⟩ := hindex.access s base offset hs
  have heffect : MovemOp.effect (.wide (.str n (index offset).1 base rt (index offset).2)) s =
      ({ s.put64 base (s.access (index offset).1 base (index offset).2).2 with
        memory := store s.memory (s.access (index offset).1 base (index offset).2).1 n
          (s.get64 rt).toNat }, 0) := rfl
  rw [haddress, store_get hn] at heffect
  exact ⟨_, heffect, _, hbase, rfl⟩

theorem effect_stp (hindex : Indexes index first start) (rt1 rt2 : Reg)
    (hs : s.get base = if offset = 0 then first else start) :
    ∃ s', MovemOp.effect (.stp (index offset).1 base rt1 rt2 (index offset).2) s = (s', 0) ∧
      Stored base start (storeList 4 [s.get rt1, s.get rt2] (start + BitVec.ofNat 32 offset)
        s.memory) s s' := by
  obtain ⟨haddress, hbase⟩ := hindex.access s base offset hs
  have heffect : MovemOp.effect (.stp (index offset).1 base rt1 rt2 (index offset).2) s =
      ({ s.put64 base (s.access (index offset).1 base (index offset).2).2 with
        memory := store (store s.memory (s.access (index offset).1 base (index offset).2).1 4
          (s.get64 rt1).toNat) ((s.access (index offset).1 base (index offset).2).1 + 4) 4
          (s.get64 rt2).toNat }, 0) := rfl
  rw [haddress, store_get le_rfl, store_get le_rfl] at heffect
  exact ⟨_, heffect, _, hbase, rfl⟩

/-- From the pending register on, the loop stores what the list has. -/
theorem run_storeLoop (hindex : Indexes index first start) (hbase : base ≠ 31) (long : Bool)
    (regs : List Reg) (pending : Option Reg) (offset : ℕ) (hregs : ∀ r ∈ regs, r ≠ base)
    (hpending : ∀ r ∈ pending, r ≠ base ∧ long = true)
    (hempty : offset = 0 → pending = none → regs = [] → first = start)
    (hs : s.get base = if offset = 0 then first else start) :
    ∃ s', runForward MovemOp.effect 0 (storeLoop long base index pending offset regs) s = (s', 0) ∧
      Stored base start (storeList (regBytes long) ((pending.toList ++ regs).map s.get)
        (start + BitVec.ofNat 32 offset) s.memory) s s' := by
  induction regs generalizing pending offset s with
  | nil =>
    cases pending with
    | none =>
      refine ⟨s, rfl, Stored.refl ?_⟩
      rw [hs]
      split_ifs with hoffset
      · exact hempty hoffset rfl rfl
      · rfl
    | some rt1 =>
      obtain ⟨-, rfl⟩ := hpending rt1 rfl
      obtain ⟨s', heffect, hstored⟩ := effect_str hindex (n := 4) le_rfl rt1 hs
      exact ⟨s', runForward_step heffect, hstored⟩
  | cons reg regs ih =>
    have hreg := hregs reg List.mem_cons_self
    have hrest : ∀ r ∈ regs, r ≠ base := fun r hr ↦ hregs r (List.mem_cons_of_mem _ hr)
    -- what is left when the registers in front have been stored
    have hnext : ∀ (n : ℕ) (memory : Bytes) (s₁ : WideCpu), 0 < n → Stored base start memory s s₁ →
        ∃ s', runForward MovemOp.effect 0 (storeLoop long base index none (offset + n) regs) s₁ =
          (s', 0) ∧ Stored base start (storeList (regBytes long) (regs.map s.get)
            (start + BitVec.ofNat 32 (offset + n)) memory) s s' := by
      intro n memory s₁ hn hstored
      have hheld : s₁.get base = if offset + n = 0 then first else start := by
        rw [if_neg (by omega), hstored.get_base hbase]
      obtain ⟨s', hrun, hstored'⟩ := ih none (offset + n) hrest (fun r hr ↦ by simp at hr)
        (fun h ↦ absurd h (by omega)) hheld
      refine ⟨s', hrun, ?_⟩
      have hvalues : regs.map s₁.get = regs.map s.get :=
        List.map_congr_left fun r hr ↦ hstored.get (hrest r hr)
      rw [Option.toList_none, List.nil_append, hvalues, hstored.memory_eq] at hstored'
      exact hstored.trans hstored'
    cases pending with
    | some rt1 =>
      obtain ⟨-, rfl⟩ := hpending rt1 rfl
      obtain ⟨s₁, heffect, hstored⟩ := effect_stp hindex rt1 reg hs
      obtain ⟨s', hrun, hstored'⟩ := hnext 8 _ s₁ (by decide) hstored
      refine ⟨s', (runForward_step heffect).trans hrun, ?_⟩
      rw [BitVec.ofNat_add, ← BitVec.add_assoc] at hstored'
      simpa [storeList, regBytes, BitVec.add_assoc] using hstored'
    | none =>
      cases long with
      | true =>
        have hrun := ih (some reg) offset hrest (fun r hr ↦ by
          obtain rfl := Option.mem_some.mp hr
          exact ⟨hreg, rfl⟩) (fun _ h ↦ by simp at h) hs
        exact hrun
      | false =>
        obtain ⟨s₁, heffect, hstored⟩ := effect_str hindex (n := 2) (by decide) reg hs
        obtain ⟨s', hrun, hstored'⟩ := hnext 2 _ s₁ (by decide) hstored
        refine ⟨s', (runForward_step heffect).trans hrun, ?_⟩
        rw [BitVec.ofNat_add, ← BitVec.add_assoc] at hstored'
        exact hstored'

end StoreLoop

/-! ### Loads -/

namespace M68kReg

@[simp] theorem host_ne_zero (r : M68kReg) : r.host ≠ 31 := by
  cases r <;> simp [host]

@[simp] theorem host_ne_reg {ρ : Type} {a : Alloc ρ} {x : ρ} (r : M68kReg) : r.host ≠ a.reg x := by
  cases r <;> simp [host]

theorem host_inj {r r' : M68kReg} : r.host = r'.host ↔ r = r' := by
  cases r <;> cases r' <;> simp [host]

end M68kReg

section LoadLoop

variable {base : Reg} {start : BitVec 32} {offset blockSize : ℕ} {s : WideCpu} {long : Bool}
  {stepped : Option M68kReg}

theorem view_put_host (r : M68kReg) (value : BitVec 64) :
    e.view (s.put64 r.host value) = (e.view s).setReg r (value.setWidth 32) := by
  cases r with
  | data i => exact e.view_put_dn i value
  | address i => exact e.view_put_an i value

theorem element_loaded (long : Bool) (s : WideCpu) (address : BitVec 32) :
    (s.loaded address (regBytes long) !long).setWidth 32 = element long s.memory address := by
  cases long with
  | true => exact (Size.loaded .long false s address).trans (BitVec.setWidth_eq _)
  | false => exact Size.loaded .word true s address

@[simp] theorem memory_setReg (m : Machine) (r : M68kReg) (value : BitVec 32) :
    (m.setReg r value).memory = m.memory := by
  cases r <;> rfl

/-- What is known of a state on the way: the machine, and where the base register points. -/
structure Loading (e : Emission MovemReg) (base : Reg) (start : BitVec 32) (m : Machine)
    (s : WideCpu) : Prop where
  view : e.view s = m
  base : s.get base = start

theorem Loading.put {m : Machine} (h : Loading e base start m s) {r : M68kReg} (hr : r.host ≠ base)
    {value : BitVec 64} {word : BitVec 32} (hvalue : value.setWidth 32 = word) :
    Loading e base start (m.setReg r word) (s.put64 r.host value) where
  view := by rw [view_put_host, h.view, hvalue]
  base := (WideCpu.get_put64_ite r.host_ne_zero value).trans ((if_neg hr.symm).trans h.base)

theorem effect_ldr_element {m : Machine} (h : Loading e base start m s) (long : Bool) {r : M68kReg}
    (hr : r.host ≠ base) (offset : ℕ) :
    ∃ s', MovemOp.effect (.wide (.ldr (regBytes long) (!long) .offset base r.host offset)) s =
        (s', 0) ∧
      Loading e base start
        (m.setReg r (element long m.memory (start + BitVec.ofNat 32 offset))) s' := by
  refine ⟨_, WideCpu.effect_ldr _ _ _ _ _ _, h.put hr ?_⟩
  rw [element_loaded, access_add, h.base, ← h.view]
  rfl

theorem effect_ldp_elements {m : Machine} (h : Loading e base start m s) {r₁ r₂ : M68kReg}
    (hr₁ : r₁.host ≠ base) (hr₂ : r₂.host ≠ base) (offset : ℕ) :
    ∃ s', MovemOp.effect (.wide (.ldp base r₁.host r₂.host offset)) s = (s', 0) ∧
      Loading e base start
        ((m.setReg r₁ (element true m.memory (start + BitVec.ofNat 32 offset))).setReg r₂
          (element true m.memory (start + BitVec.ofNat 32 offset + 4))) s' := by
  have heffect : MovemOp.effect (.wide (.ldp base r₁.host r₂.host offset)) s =
      ((s.put64 r₁.host
          (s.loaded ((s.get64 base + BitVec.ofInt 64 offset).setWidth 32) 4 false)).put64 r₂.host
        (s.loaded ((s.get64 base + BitVec.ofInt 64 offset).setWidth 32 + 4) 4 false), 0) := rfl
  rw [access_add, h.base] at heffect
  have hload : ∀ address, (s.loaded address 4 false).setWidth 32 = element true m.memory address :=
    fun address ↦ by
      rw [← h.view]
      exact element_loaded true s address
  exact ⟨_, heffect, (h.put hr₁ (hload _)).put hr₂ (hload _)⟩

theorem loadList_cons (long : Bool) (stepped : Option M68kReg) (r : M68kReg) (rs : List M68kReg)
    (address : BitVec 32) (m : Machine) :
    loadList long stepped (r :: rs) address m =
      loadList long stepped rs (address + BitVec.ofNat 32 (regBytes long))
        (if stepped = some r then m else m.setReg r (element long m.memory address)) := rfl

/-- Two registers of a list of long ones. -/
theorem loadList_pair {r₁ r₂ : M68kReg} (hr₁ : stepped ≠ some r₁) (rs : List M68kReg)
    (address : BitVec 32) (m : Machine) :
    loadList true stepped (r₁ :: r₂ :: rs) address m =
      loadList true stepped rs (address + BitVec.ofNat 32 8)
        (if stepped = some r₂ then m.setReg r₁ (element true m.memory address)
          else (m.setReg r₁ (element true m.memory address)).setReg r₂
            (element true m.memory (address + 4))) := by
  have hmoved : BitVec.ofNat 32 (regBytes true) = 4 := rfl
  have hnext : address + 4 + 4 = address + BitVec.ofNat 32 8 := by
    rw [BitVec.add_assoc]
    rfl
  rw [loadList_cons, loadList_cons, if_neg hr₁, memory_setReg, hmoved, hnext]

/-- From the pending register on, the loop loads what the list has. -/
theorem run_loadLoop (long : Bool) (blockSize : ℕ) (stepped : Option M68kReg) (rs : List M68kReg)
    (pending : Option M68kReg) (offset : ℕ) {m : Machine}
    (hbase : ∀ r, stepped ≠ some r → r.host ≠ base)
    (hpair : long = true → ¬ (blockSize = 8 ∧ stepped.isSome))
    (hpending : ∀ r ∈ pending, stepped ≠ some r ∧ long = true) (h : Loading e base start m s) :
    ∃ s', runForward MovemOp.effect 0 (loadLoop long base blockSize stepped pending offset rs) s =
        (s', 0) ∧
      Loading e base start
        (loadList long stepped (pending.toList ++ rs) (start + BitVec.ofNat 32 offset) m) s' := by
  have hnone : ∀ r ∈ (none : Option M68kReg), stepped ≠ some r ∧ long = true :=
    fun r hr ↦ absurd hr (by simp)
  have hadd : ∀ n k : ℕ, start + BitVec.ofNat 32 n + BitVec.ofNat 32 k =
      start + BitVec.ofNat 32 (n + k) := fun n k ↦ by rw [BitVec.ofNat_add, BitVec.add_assoc]
  induction rs generalizing pending offset s m with
  | nil =>
    cases pending with
    | none => exact ⟨s, rfl, h⟩
    | some rt1 =>
      obtain ⟨hne, rfl⟩ := hpending rt1 rfl
      obtain ⟨s', heffect, hloading⟩ := effect_ldr_element h true (hbase rt1 hne) offset
      have hstep : runForward MovemOp.effect 0
          [.wide (.ldr (regBytes true) (!true) .offset base rt1.host offset)] s = (s', 0) :=
        runForward_step heffect
      refine ⟨s', by simpa [loadLoop, regBytes] using hstep, ?_⟩
      simpa [loadList, hne] using hloading
  | cons r rs ih =>
    cases pending with
    | none =>
      cases long with
      | true =>
        by_cases hr : stepped = some r
        · obtain ⟨s', hrun, hloading⟩ := ih none (offset + 4) hnone h
          refine ⟨s', by simpa [loadLoop, hr] using hrun, ?_⟩
          simpa [loadList, hr, regBytes, hadd] using hloading
        · obtain ⟨s', hrun, hloading⟩ := ih (some r) offset
            (fun r' hr' ↦ by
              obtain rfl := Option.mem_some.mp hr'
              exact ⟨hr, rfl⟩) h
          exact ⟨s', by simpa [loadLoop, hr] using hrun, hloading⟩
      | false =>
        by_cases hr : stepped = some r
        · obtain ⟨s', hrun, hloading⟩ := ih none (offset + 2) hnone h
          refine ⟨s', by simpa [loadLoop, hr] using hrun, ?_⟩
          simpa [loadList, hr, regBytes, hadd] using hloading
        · obtain ⟨s₁, heffect, hloading₁⟩ := effect_ldr_element h false (hbase r hr) offset
          obtain ⟨s', hrun, hloading⟩ := ih none (offset + 2) hnone hloading₁
          have hstep := (runForward_step heffect).trans hrun
          refine ⟨s', by simpa [loadLoop, hr, regBytes] using hstep, ?_⟩
          simpa [loadList, hr, regBytes, hadd] using hloading
    | some rt1 =>
      obtain ⟨hne, rfl⟩ := hpending rt1 rfl
      by_cases hr : stepped = some r
      · obtain ⟨s₁, heffect, hloading₁⟩ := effect_ldr_element h true (hbase rt1 hne) offset
        obtain ⟨s', hrun, hloading⟩ := ih none (offset + 8) hnone hloading₁
        have hstep := (runForward_step heffect).trans hrun
        refine ⟨s', by simpa [loadLoop, hr, regBytes] using hstep, ?_⟩
        rw [← hadd] at hloading
        rw [Option.toList_some, List.singleton_append, loadList_pair hne, if_pos hr]
        exact hloading
      · obtain ⟨s₁, heffect, hloading₁⟩ :=
          effect_ldp_elements h (hbase rt1 hne) (hbase r hr) offset
        obtain ⟨s', hrun, hloading⟩ := ih none (offset + 8) hnone hloading₁
        have hstep := (runForward_step heffect).trans hrun
        refine ⟨s', by simpa [loadLoop, hr, loadPair, hpair rfl] using hstep, ?_⟩
        rw [← hadd] at hloading
        rw [Option.toList_some, List.singleton_append, loadList_pair hne, if_neg hr]
        exact hloading

end LoadLoop

end Emu68.Alu
