import Emu68.A64.RegisterAllocator
import Emu68.Lib.Transition
import Mathlib.Tactic.Common

/-!
Runs of the register allocator. The emitters call its functions in any order and put instructions of
their own between the calls, which write to registers they have allocated, or to the register that
`RA_ModifyCC` or one of its siblings returned. A session records what the emitters hold and which
values they have written.
-/

set_option autoImplicit false
set_option relaxedAutoImplicit false

namespace Emu68.A64

open Lib RegAlloc

structure Session where
  alloc : RegAlloc
  host : Host
  /-- The registers that were allocated and not freed. -/
  temps : Reg → Bool
  /-- The registers that an emitter modifies the state in. -/
  handle : Home → Option Reg
  /-- The values that were written last. -/
  latest : (h : Home) → BitVec h.width
  /-- Whether there was a call for modification. -/
  modified : Home → Bool
  fpuTemps : ℕ → Bool

inductive RaCall where
  | alloc
  | copyFromM68k (m68kReg : ℕ)
  | free (armReg : Reg)
  | get (h : Home)
  | modify (h : Home)
  | store (h : Home)
  | flush (h : Home)
  /-- An instruction of the emitter that writes the state it modifies. -/
  | write (h : Home) (value : BitVec 64)
  /-- An instruction of the emitter that writes a register it has allocated. -/
  | compute (armReg : Reg) (value : BitVec 64)
  /-- The emitter is done, and uses the registers it was given no longer. -/
  | finish
  | allocFPU
  | freeFPU (armReg : ℕ)

namespace Session

/-- The allocator goes on to another state, and the code it emits is run. -/
def emit (s : Session) (a : RegAlloc) (code : List Move) : Session :=
  { s with alloc := a, host := s.host.exec code }

def own (s : Session) (reg : Reg) : Session :=
  if reg = noReg then s else { s with temps := Function.update s.temps reg true }

def writeReg (s : Session) (reg : Reg) (value : BitVec 64) : Session :=
  { s with host := { s.host with regs := Function.update s.host.regs reg value } }

def call (s : Session) : RaCall → Option Session
  | .alloc =>
    let (a, code, reg) := s.alloc.allocARMRegister
    some ((s.emit a code).own reg)
  | .copyFromM68k m68kReg =>
    let (a, code, reg) := s.alloc.copyFromM68kRegister m68kReg
    some ((s.emit a code).own reg)
  | .free armReg =>
    some { s with
      alloc := s.alloc.freeARMRegister armReg
      temps := Function.update s.temps armReg false }
  | .get h =>
    let (a, code, _) := s.alloc.get h
    some (s.emit a code)
  | .modify h =>
    let (a, code, reg) := s.alloc.modify h
    some { s.emit a code with
      handle := Function.update s.handle h (some reg)
      modified := Function.update s.modified h true }
  | .store h => some (s.emit s.alloc (s.alloc.store h))
  | .flush h =>
    let (a, code) := s.alloc.flush h
    some { s.emit a code with handle := Function.update s.handle h none }
  | .write h value =>
    (s.handle h).map fun reg ↦
      { s.writeReg reg value with
        latest := Function.update s.latest h (value.setWidth h.width) }
  | .compute armReg value => some (s.writeReg armReg value)
  | .finish => some { s with handle := fun _ ↦ none }
  | .allocFPU =>
    let (a, reg) := s.alloc.allocFPURegister
    some { s with
      alloc := a
      fpuTemps := if reg = noReg then s.fpuTemps else Function.update s.fpuTemps reg true }
  | .freeFPU armReg =>
    some { s with
      alloc := s.alloc.freeFPURegister armReg
      fpuTemps := Function.update s.fpuTemps armReg false }

/-- Before the first call nothing is allocated. -/
def start (host : Host) (lastAllocated : ℕ) : Session where
  alloc := ⟨fun _ ↦ false, lastAllocated, fun _ ↦ noReg, fun _ ↦ false, fun _ ↦ false⟩
  host := host
  temps := fun _ ↦ false
  handle := fun _ ↦ none
  latest := host.lane
  modified := fun _ ↦ false
  fpuTemps := fun _ ↦ false

/-- The emitters write what they may write, and free no register of the allocator's own. The
context pointer is never modified. -/
def WellUsed (s : Session) : RaCall → Prop
  | .free armReg => ∀ h, s.alloc.reg h ≠ noReg → s.alloc.reg h ≠ armReg
  | .modify h | .store h => h ≠ .ctx
  | .compute armReg _ => s.temps armReg = true
  | _ => True

/-- The state that an allocation would flush: the first one that is loaded, when no register is
left. -/
def flushed (a : RegAlloc) : Option Home :=
  if a.intArmAllocReg.isSome then none
  else [Home.fpcr, .fpsr, .cc].find? fun h ↦ a.reg h ≠ noReg

/-- An allocation does not flush what the emitter is modifying. -/
def Spares (s : Session) : Prop := ∀ h, flushed s.alloc = some h → s.handle h = none

/-- An allocation finds a register. -/
def Available (a : RegAlloc) : Prop := a.intArmAllocReg.isSome = true ∨ (flushed a).isSome = true

/-- The condition of the calls that allocate. -/
def Roomy (s : Session) : RaCall → Prop
  | .alloc | .copyFromM68k _ => s.Spares
  | .get h | .modify h => s.alloc.reg h = noReg → s.Spares ∧ Available s.alloc
  | _ => True

/-- What the emitters rely on, where `ok` says whether an allocation may be requested. -/
structure Safe (host : Host) (s : Session) (ok : RaCall → Prop) : Prop where
  /-- A register that is allocated is one for temporary values, and not in use. -/
  fresh : ok .alloc → ∀ reg, s.alloc.allocARMRegister.2.2 = reg → reg ≠ noReg →
    s.temps reg = false ∧ (∀ h, s.handle h ≠ some reg) ∧
      (∀ h, s.alloc.allocARMRegister.1.reg h ≠ reg) ∧
      (∀ m68kReg, mapM68kRegister m68kReg ≠ reg) ∧ reg ≠ Branch.regPC
  /-- Freeing a register that is mapped for good changes nothing. -/
  mapped : ∀ m68kReg, s.alloc.freeARMRegister (mapM68kRegister m68kReg) = s.alloc
  /-- A store leaves the value that was written last in its lane, and the other lanes alone. -/
  stored : ∀ h, h ≠ .ctx → (s.host.exec (s.alloc.store h)).lane h = s.latest h ∧
    ∀ h', h' ≠ h → (s.host.exec (s.alloc.store h)).lane h' = s.host.lane h'
  /-- What was not modified is not written. -/
  unmodified : ∀ h, s.modified h = false → s.alloc.store h = [] ∧ s.host.lane h = host.lane h
  /-- A floating-point register that is allocated is not in use, and not mapped. -/
  freshFPU : s.alloc.allocFPURegister.2 ≠ noReg →
    s.fpuTemps s.alloc.allocFPURegister.2 = false ∧
      ∀ fpuReg, mapFPURegister fpuReg ≠ s.alloc.allocFPURegister.2

/-! ### The invariant -/

structure Tidy (host : Host) (s : Session) : Prop where
  pool : ∀ r, s.alloc.registerPool r = true → 4 ≤ r ∧ r ≤ 11
  temps : ∀ r, s.temps r = true → s.alloc.registerPool r = true
  held : ∀ h, s.alloc.reg h ≠ noReg →
    s.alloc.registerPool (s.alloc.reg h) = true ∧ s.temps (s.alloc.reg h) = false
  apart : ∀ h h', s.alloc.reg h ≠ noReg → s.alloc.reg h = s.alloc.reg h' → h = h'
  value : ∀ h, s.alloc.reg h ≠ noReg → (s.host.regs (s.alloc.reg h)).setWidth h.width = s.latest h
  lane : ∀ h, s.host.lane h = s.latest h ∨ s.alloc.reg h ≠ noReg ∧ s.alloc.mod h = true
  handle : ∀ h r, s.handle h = some r → s.alloc.reg h = r ∧ r ≠ noReg ∧ s.alloc.mod h = true
  unmodified : ∀ h, s.modified h = false →
    s.alloc.mod h = false ∧ s.latest h = host.lane h ∧ s.handle h = none
  fpu : ∀ r, s.fpuTemps r = true → s.alloc.fpuAllocstate r = true

variable {host : Host} {s : Session} {a : RegAlloc} {h : Home} {r : Reg}

theorem tidy_start (host : Host) (lastAllocated : ℕ) : Tidy host (start host lastAllocated) where
  pool := fun _ hr ↦ absurd hr Bool.false_ne_true
  temps := fun _ hr ↦ absurd hr Bool.false_ne_true
  held := fun _ hh ↦ absurd rfl hh
  apart := fun _ _ hh ↦ absurd rfl hh
  value := fun _ hh ↦ absurd rfl hh
  lane := fun _ ↦ .inl rfl
  handle := fun _ _ hh ↦ absurd hh.symm (Option.some_ne_none _)
  unmodified := fun _ _ ↦ ⟨rfl, rfl, rfl⟩
  fpu := fun _ hr ↦ absurd hr Bool.false_ne_true

/-! ### One register -/

theorem intArmAllocReg_some {a' : RegAlloc} (hfound : a.intArmAllocReg = some (a', r)) :
    (4 ≤ r ∧ r ≤ 11) ∧ a.registerPool r = false ∧
      a' = { a with registerPool := Function.update a.registerPool r true, lastAllocated := r } := by
  unfold intArmAllocReg at hfound
  obtain ⟨reg, hreg, heq⟩ := Option.map_eq_some_iff.mp hfound
  obtain ⟨rfl, rfl⟩ := Prod.mk.inj heq
  have hmem := List.mem_of_find?_eq_some hreg
  have hfree := List.find?_some hreg
  obtain ⟨i, -, hi⟩ := List.mem_map.mp hmem
  rw [Bool.and_eq_true, decide_eq_true_eq, Bool.not_eq_true'] at hfree
  have hlt : reg < 12 := hi ▸ Nat.mod_lt _ (by decide)
  exact ⟨⟨hfree.1, Nat.le_of_lt_succ hlt⟩, hfree.2, rfl⟩

/-- The search reaches every number below 12. -/
theorem search_reaches (last n : ℕ) (hn : n < 12) :
    (last + ((n + 11 - last % 12) % 12 + 1)) % 12 = n := by
  omega

/-- A free register is found. -/
theorem intArmAllocReg_isSome (hlow : 4 ≤ r) (hhigh : r ≤ 11) (hfree : a.registerPool r = false) :
    a.intArmAllocReg.isSome = true := by
  unfold intArmAllocReg
  rw [Option.isSome_map, List.find?_isSome]
  refine ⟨r, List.mem_map.mpr ⟨(r + 11 - a.lastAllocated % 12) % 12 + 1, ?_, ?_⟩, ?_⟩
  · rw [List.mem_range'_1]
    omega
  · exact search_reaches a.lastAllocated r (Nat.lt_succ_of_le hhigh)
  · rw [hfree, decide_eq_true hlow]
    rfl

/-- What is allocated is in no one's possession. -/
theorem Tidy.found {a' : RegAlloc} (hs : Tidy host s)
    (hfound : s.alloc.intArmAllocReg = some (a', r)) :
    Tidy host (s.emit a' []) ∧ a'.registerPool r = true ∧ s.temps r = false ∧
      (∀ h, a'.reg h ≠ r) ∧ 4 ≤ r ∧ r ≤ 11 := by
  obtain ⟨hrange, hfree, rfl⟩ := intArmAllocReg_some hfound
  have hpool : ∀ x, s.alloc.registerPool x = true →
      Function.update s.alloc.registerPool r true x = true := by
    intro x hx
    by_cases hxr : x = r
    · rw [hxr, Function.update_self]
    · rwa [Function.update_of_ne hxr]
  refine ⟨⟨?_, fun x hx ↦ hpool x (hs.temps x hx), fun h hh ↦ ?_, hs.apart, hs.value, hs.lane,
    hs.handle, hs.unmodified, hs.fpu⟩, Function.update_self _ _ _, ?_, ?_, hrange⟩
  · intro x hx
    by_cases hxr : x = r
    · exact hxr ▸ hrange
    · refine hs.pool x ?_
      rw [← hx]
      exact (Function.update_of_ne hxr _ _).symm
  · exact ⟨hpool _ (hs.held h hh).1, (hs.held h hh).2⟩
  · by_contra htemp
    have := hs.temps r (Bool.not_eq_false _ ▸ htemp)
    rw [hfree] at this
    exact Bool.false_ne_true this
  · intro h hreg
    have heq : s.alloc.reg h = r := hreg
    have hloaded : s.alloc.reg h ≠ noReg := by
      rw [heq]
      rintro rfl
      exact absurd hrange.2 (by decide)
    have hheld := (hs.held h hloaded).1
    rw [heq, hfree] at hheld
    exact Bool.false_ne_true hheld

/-- What a store does: the lane gets the value that was written last. -/
theorem Tidy.store (hs : Tidy host s) (h : Home) :
    s.host.exec (s.alloc.store h) =
      { s.host with lane := Function.update s.host.lane h (s.latest h) } := by
  unfold RegAlloc.store
  split_ifs with hmod
  · show ({ s.host with lane := Function.update s.host.lane h _ } : Host) = _
    rw [hs.value h hmod.1]
  · rw [← (hs.lane h).resolve_right hmod, Function.update_eq_self]
    rfl

/-- What a flush does to the pool. -/
theorem Tidy.flush_pool (hs : Tidy host s) (h : Home) (x : Reg) :
    (s.alloc.flush h).1.registerPool x = true ↔
      s.alloc.registerPool x = true ∧ (s.alloc.reg h ≠ noReg → x ≠ s.alloc.reg h) := by
  unfold RegAlloc.flush
  dsimp only
  by_cases hreg : s.alloc.reg h = noReg
  · rw [if_neg (not_not_intro hreg)]
    exact ⟨fun hx ↦ ⟨hx, fun hne ↦ absurd hreg hne⟩, And.left⟩
  · have hle := (hs.pool _ (hs.held h hreg).1).2
    rw [if_pos hreg, freeARMRegister, if_neg (Nat.not_lt.mpr hle)]
    dsimp only
    by_cases hx : x = s.alloc.reg h
    · rw [hx, Function.update_self]
      exact ⟨fun hfalse ↦ absurd hfalse Bool.false_ne_true, fun hboth ↦ absurd rfl (hboth.2 hreg)⟩
    · rw [Function.update_of_ne hx]
      exact ⟨fun hpool ↦ ⟨hpool, fun _ ↦ hx⟩, And.left⟩

theorem flush_reg (a : RegAlloc) (h : Home) :
    (a.flush h).1.reg = Function.update a.reg h noReg ∧
      (a.flush h).1.mod = Function.update a.mod h false ∧
      (a.flush h).1.lastAllocated = a.lastAllocated ∧
      (a.flush h).1.fpuAllocstate = a.fpuAllocstate := by
  unfold RegAlloc.flush freeARMRegister
  dsimp only
  split_ifs <;> exact ⟨rfl, rfl, rfl, rfl⟩

/-- Writing a state back and giving up its register, when no emitter is modifying it. -/
theorem Tidy.flush (hs : Tidy host s) (hhandle : s.handle h = none) :
    Tidy host (s.emit (s.alloc.flush h).1 (s.alloc.flush h).2) := by
  have hpool := hs.flush_pool h
  obtain ⟨hreg, hmod, -, hfpu⟩ := flush_reg s.alloc h
  have hexec : s.host.exec (s.alloc.flush h).2 =
      { s.host with lane := Function.update s.host.lane h (s.latest h) } := hs.store h
  -- the states other than the flushed one keep their registers
  have hkeep : ∀ h', (s.alloc.flush h).1.reg h' ≠ noReg → h' ≠ h ∧
      (s.alloc.flush h).1.reg h' = s.alloc.reg h' ∧ s.alloc.reg h' ≠ noReg := by
    intro h' hh'
    rw [hreg] at hh' ⊢
    have hne : h' ≠ h := by
      rintro rfl
      rw [Function.update_self] at hh'
      exact hh' rfl
    rw [Function.update_of_ne hne] at hh' ⊢
    exact ⟨hne, rfl, hh'⟩
  have hown : ∀ h', h' ≠ h → s.alloc.reg h' ≠ noReg → s.alloc.reg h ≠ noReg →
      s.alloc.reg h' ≠ s.alloc.reg h :=
    fun h' hne hh' _ heq ↦ hne (hs.apart h' h hh' heq)
  refine ⟨?_, ?_, ?_, ?_, ?_, ?_, ?_, ?_, ?_⟩
  · exact fun r hr ↦ hs.pool r ((hpool r).mp hr).1
  · intro r hr
    refine (hpool r).mpr ⟨hs.temps r hr, fun hh heq ↦ ?_⟩
    have htemp := (hs.held h hh).2
    rw [← heq] at htemp
    exact Bool.false_ne_true (htemp.symm.trans hr)
  · intro h' hh'
    obtain ⟨hne, heq, hold⟩ := hkeep h' hh'
    simp only [emit, heq]
    exact ⟨(hpool _).mpr ⟨(hs.held h' hold).1, hown h' hne hold⟩, (hs.held h' hold).2⟩
  · intro h' h'' hh' heq
    obtain ⟨-, heq', hold'⟩ := hkeep h' hh'
    obtain ⟨-, heq'', -⟩ := hkeep h'' (fun hnone ↦ hh' (heq.trans hnone))
    exact hs.apart h' h'' hold' (heq'.symm.trans (heq.trans heq''))
  · intro h' hh'
    obtain ⟨-, heq, hold⟩ := hkeep h' hh'
    simp only [emit, heq, hexec]
    exact hs.value h' hold
  · intro h'
    simp only [emit, hexec, hreg, hmod]
    by_cases hne : h' = h
    · subst hne
      rw [Function.update_self]
      exact .inl rfl
    · rw [Function.update_of_ne hne, Function.update_of_ne hne, Function.update_of_ne hne]
      exact hs.lane h'
  · intro h' r hr
    have hne : h' ≠ h := by
      rintro rfl
      exact Option.some_ne_none r (hr.symm.trans hhandle)
    simp only [emit, hreg, hmod, Function.update_of_ne hne]
    exact hs.handle h' r hr
  · intro h' hh'
    obtain ⟨hfalse, hlatest, hnone⟩ := hs.unmodified h' hh'
    refine ⟨?_, hlatest, hnone⟩
    simp only [emit, hmod]
    by_cases hne : h' = h
    · rw [hne, Function.update_self]
    · rw [Function.update_of_ne hne]
      exact hfalse
  · intro r hr
    simp only [emit, hfpu]
    exact hs.fpu r hr

/-! ### An allocation -/

theorem emit_emit (s : Session) (a a' : RegAlloc) (first second : List Move) :
    (s.emit a first).emit a' second = s.emit a' (first ++ second) := by
  simp only [emit, Host.exec_append]

/-- The first of the states that is loaded. -/
def firstLoaded (a : RegAlloc) (rest : List Home) : Option Home := rest.find? fun h ↦ a.reg h ≠ noReg

/-- An allocation leaves no one with a register of another, and what it returns is free to use. -/
structure Allocates (host : Host) (s : Session) (result : RegAlloc × List Move × Reg) : Prop where
  tidy : Tidy host (s.emit result.1 result.2.1)
  fresh : result.2.2 ≠ noReg → result.1.registerPool result.2.2 = true ∧
    s.temps result.2.2 = false ∧ (∀ h, result.1.reg h ≠ result.2.2) ∧
    4 ≤ result.2.2 ∧ result.2.2 ≤ 11
  unloaded : ∀ h, s.alloc.reg h = noReg → result.1.reg h = noReg

theorem allocAfter_found (hs : Tidy host s) (rest : List Home) {a' : RegAlloc}
    (hfound : s.alloc.intArmAllocReg = some (a', r)) :
    s.alloc.allocAfter rest = (a', [], r) ∧ Allocates host s (a', [], r) := by
  obtain ⟨htidy, hpool, htemps, hreg, hrange⟩ := hs.found hfound
  have hsame : a'.reg = s.alloc.reg := by
    obtain ⟨-, -, rfl⟩ := intArmAllocReg_some hfound
    rfl
  refine ⟨?_, htidy, fun _ ↦ ⟨hpool, htemps, hreg, hrange⟩, fun h hh ↦ by rw [hsame, hh]⟩
  cases rest with
  | nil => rw [allocAfter, hfound]
  | cons h rest => rw [allocAfter, hfound]

theorem allocAfter_spec (rest : List Home) (hs : Tidy host s)
    (hspare : s.alloc.intArmAllocReg = none →
      ∀ h, firstLoaded s.alloc rest = some h → s.handle h = none) :
    Allocates host s (s.alloc.allocAfter rest) ∧
      (s.alloc.intArmAllocReg.isSome = true ∨ (firstLoaded s.alloc rest).isSome = true →
        (s.alloc.allocAfter rest).2.2 ≠ noReg) := by
  have hsome : ∀ {s : Session} (rest : List Home), Tidy host s →
      s.alloc.intArmAllocReg.isSome = true → Allocates host s (s.alloc.allocAfter rest) ∧
        (s.alloc.allocAfter rest).2.2 ≠ noReg := by
    intro s rest hs hfound
    obtain ⟨⟨a', r⟩, hfound⟩ := Option.isSome_iff_exists.mp hfound
    obtain ⟨heq, hresult⟩ := allocAfter_found hs rest hfound
    rw [heq]
    refine ⟨hresult, ?_⟩
    rintro rfl
    exact absurd (hs.found hfound).2.2.2.2.2 (by decide)
  induction rest generalizing s with
  | nil =>
    cases hfound : s.alloc.intArmAllocReg with
    | some found =>
      have hboth := hsome [] hs (by rw [hfound]; rfl)
      exact ⟨hboth.1, fun _ ↦ hboth.2⟩
    | none =>
      rw [allocAfter, hfound]
      refine ⟨⟨hs, fun hne ↦ absurd rfl hne, fun _ hh ↦ hh⟩, ?_⟩
      rintro (hfalse | hfalse)
      · exact absurd hfalse Bool.false_ne_true
      · exact absurd hfalse Bool.false_ne_true
  | cons h rest ih =>
    cases hfound : s.alloc.intArmAllocReg with
    | some found =>
      have hboth := hsome (h :: rest) hs (by rw [hfound]; rfl)
      exact ⟨hboth.1, fun _ ↦ hboth.2⟩
    | none =>
      obtain ⟨hreg, -, hlast, -⟩ := flush_reg s.alloc h
      have hhandle : s.handle h = none := by
        cases hheld : s.handle h with
        | none => rfl
        | some r =>
          obtain ⟨heq, hne, -⟩ := hs.handle h r hheld
          have hfirst : firstLoaded s.alloc (h :: rest) = some h :=
            List.find?_cons_of_pos (decide_eq_true (heq ▸ hne))
          exact absurd (hspare hfound h hfirst) (by rw [hheld]; exact Option.some_ne_none r)
      have hflushed := hs.flush hhandle
      -- behind the flush there is a register, or nothing has changed
      have hcases : ((s.alloc.flush h).1.intArmAllocReg.isSome = true ∧ s.alloc.reg h ≠ noReg) ∨
          ((s.alloc.flush h).1.intArmAllocReg = none ∧
            firstLoaded (s.alloc.flush h).1 rest = firstLoaded s.alloc (h :: rest)) := by
        by_cases hloaded : s.alloc.reg h = noReg
        · right
          have hsame : (s.alloc.flush h).1.reg = s.alloc.reg := by
            rw [hreg, ← hloaded, Function.update_eq_self]
          have hpool : (s.alloc.flush h).1.registerPool = s.alloc.registerPool := by
            funext x
            rw [Bool.eq_iff_iff, hs.flush_pool h]
            exact ⟨And.left, fun hx ↦ ⟨hx, fun hne ↦ absurd hloaded hne⟩⟩
          refine ⟨?_, ?_⟩
          · rw [intArmAllocReg, Option.map_eq_none_iff] at hfound ⊢
            rw [hlast, hpool]
            exact hfound
          · rw [firstLoaded, firstLoaded, hsame]
            exact (List.find?_cons_of_neg (by simp [hloaded])).symm
        · left
          have hrange := hs.pool _ (hs.held h hloaded).1
          refine ⟨intArmAllocReg_isSome hrange.1 hrange.2 ?_, hloaded⟩
          rw [Bool.eq_false_iff, ne_eq, hs.flush_pool h]
          exact fun hboth ↦ hboth.2 hloaded rfl
      have hspare' : (s.alloc.flush h).1.intArmAllocReg = none →
          ∀ h', firstLoaded (s.alloc.flush h).1 rest = some h' → s.handle h' = none := by
        intro hnone h' hfirst
        rcases hcases with ⟨hsome', -⟩ | ⟨-, heq⟩
        · rw [hnone] at hsome'
          exact absurd hsome' Bool.false_ne_true
        · exact hspare hfound h' (heq ▸ hfirst)
      obtain ⟨hresult, hne⟩ := ih hflushed hspare'
      have hunfold : s.alloc.allocAfter (h :: rest) =
          (((s.alloc.flush h).1.allocAfter rest).1,
            (s.alloc.flush h).2 ++ ((s.alloc.flush h).1.allocAfter rest).2.1,
            ((s.alloc.flush h).1.allocAfter rest).2.2) := by
        rw [allocAfter, hfound]
      rw [hunfold]
      refine ⟨⟨?_, hresult.fresh, fun h' hh' ↦ hresult.unloaded h' ?_⟩, ?_⟩
      · have htidy := hresult.tidy
        rw [emit_emit] at htidy
        exact htidy
      · show (s.alloc.flush h).1.reg h' = noReg
        rw [hreg]
        by_cases heq : h' = h
        · rw [heq, Function.update_self]
        · rw [Function.update_of_ne heq, hh']
      · rintro (hfalse | hfirst)
        · exact absurd hfalse Bool.false_ne_true
        · refine hne ?_
          rcases hcases with ⟨hsome', -⟩ | ⟨-, heq⟩
          · exact .inl hsome'
          · exact .inr (heq ▸ hfirst)

theorem Tidy.alloc (hs : Tidy host s) (hspare : s.Spares) :
    Allocates host s s.alloc.allocARMRegister ∧
      (Available s.alloc → s.alloc.allocARMRegister.2.2 ≠ noReg) := by
  have hflushed : s.alloc.intArmAllocReg.isSome = false →
      flushed s.alloc = firstLoaded s.alloc [.fpcr, .fpsr, .cc] := by
    intro hnone
    rw [flushed, hnone]
    rfl
  obtain ⟨hresult, hne⟩ := allocAfter_spec [.fpcr, .fpsr, .cc] hs fun hnone h hfirst ↦
    hspare h ((hflushed (by rw [hnone]; rfl)).trans hfirst)
  refine ⟨hresult, fun havailable ↦ hne ?_⟩
  cases hfound : s.alloc.intArmAllocReg.isSome with
  | true => exact .inl rfl
  | false =>
    rw [Available, hfound, hflushed hfound] at havailable
    exact havailable.imp_left fun hfalse ↦ absurd hfalse Bool.false_ne_true

/-! ### The calls -/

/-- An instruction that writes none of the allocator's own registers. -/
theorem Tidy.writeReg (hs : Tidy host s) (hr : ∀ h, s.alloc.reg h ≠ noReg → s.alloc.reg h ≠ r)
    (value : BitVec 64) : Tidy host (s.writeReg r value) where
  pool := hs.pool
  temps := hs.temps
  held := hs.held
  apart := hs.apart
  value := fun h hh ↦ by
    show (Function.update s.host.regs r value (s.alloc.reg h)).setWidth h.width = s.latest h
    rw [Function.update_of_ne (hr h hh)]
    exact hs.value h hh
  lane := hs.lane
  handle := hs.handle
  unmodified := hs.unmodified
  fpu := hs.fpu

theorem Tidy.own (hs : Tidy host s) (hfresh : r ≠ noReg → s.alloc.registerPool r = true ∧
    ∀ h, s.alloc.reg h ≠ r) : Tidy host (s.own r) := by
  unfold Session.own
  split_ifs with hr
  · exact hs
  · obtain ⟨hpool, hreg⟩ := hfresh hr
    refine ⟨hs.pool, fun x hx ↦ ?_, fun h hh ↦ ⟨(hs.held h hh).1, ?_⟩, hs.apart, hs.value, hs.lane,
      hs.handle, hs.unmodified, hs.fpu⟩
    · by_cases hxr : x = r
      · exact hxr ▸ hpool
      · dsimp only at hx
        rw [Function.update_of_ne hxr] at hx
        exact hs.temps x hx
    · dsimp only
      rw [Function.update_of_ne (hreg h)]
      exact (hs.held h hh).2

/-- A state is loaded into a fresh register. -/
theorem Tidy.load (hs : Tidy host s) (hh : s.alloc.reg h = noReg)
    (hpool : s.alloc.registerPool r = true) (htemps : s.temps r = false)
    (hreg : ∀ h, s.alloc.reg h ≠ r) :
    Tidy host (s.emit { s.alloc with
      reg := Function.update s.alloc.reg h r, mod := Function.update s.alloc.mod h false }
      [.movSimdToReg r h]) := by
  have hlane : s.host.lane h = s.latest h := (hs.lane h).resolve_right fun hboth ↦ hboth.1 hh
  have hcases : ∀ h', h' ≠ h → Function.update s.alloc.reg h r h' = s.alloc.reg h' :=
    fun h' hne ↦ Function.update_of_ne hne _ _
  have hself : Function.update s.alloc.reg h r h = r := Function.update_self _ _ _
  refine ⟨hs.pool, hs.temps, ?_, ?_, ?_, ?_, ?_, ?_, hs.fpu⟩
  · intro h' hh'
    simp only [emit] at hh' ⊢
    by_cases hne : h' = h
    · rw [hne, hself]
      exact ⟨hpool, htemps⟩
    · rw [hcases h' hne] at hh' ⊢
      exact hs.held h' hh'
  · intro h' h'' hh' heq
    simp only [emit] at hh' heq
    by_cases hne' : h' = h
    · by_cases hne'' : h'' = h
      · exact hne'.trans hne''.symm
      · rw [hne', hself, hcases h'' hne''] at heq
        exact absurd heq.symm (hreg h'')
    · rw [hcases h' hne'] at hh' heq
      by_cases hne'' : h'' = h
      · rw [hne'', hself] at heq
        exact absurd heq (hreg h')
      · rw [hcases h'' hne''] at heq
        exact hs.apart h' h'' hh' heq
  · intro h' hh'
    simp only [emit] at hh' ⊢
    show (Function.update s.host.regs r ((s.host.lane h).setWidth 64) _).setWidth h'.width = _
    by_cases hne : h' = h
    · subst hne
      rw [hself, Function.update_self, hlane]
      refine BitVec.setWidth_setWidth_of_le _ ?_ |>.trans (BitVec.setWidth_eq _)
      cases h' <;> decide
    · rw [hcases h' hne] at hh' ⊢
      rw [Function.update_of_ne (hreg h')]
      exact hs.value h' hh'
  · intro h'
    simp only [emit]
    by_cases hne : h' = h
    · subst hne
      exact .inl hlane
    · rw [hcases h' hne, Function.update_of_ne hne]
      exact hs.lane h'
  · intro h' r' hr'
    simp only [emit] at hr' ⊢
    have hne : h' ≠ h := by
      rintro rfl
      obtain ⟨heq, hloaded, -⟩ := hs.handle h' r' hr'
      exact hloaded (heq.symm.trans hh)
    rw [hcases h' hne, Function.update_of_ne hne]
    exact hs.handle h' r' hr'
  · intro h' hh'
    obtain ⟨hfalse, hlatest, hnone⟩ := hs.unmodified h' hh'
    refine ⟨?_, hlatest, hnone⟩
    simp only [emit]
    by_cases hne : h' = h
    · rw [hne, Function.update_self]
    · rw [Function.update_of_ne hne]
      exact hfalse

/-- What `RA_GetCC` and its siblings leave: the state is in the register that is returned. -/
theorem Tidy.get (hs : Tidy host s)
    (hroom : s.alloc.reg h = noReg → s.Spares ∧ Available s.alloc) :
    Tidy host (s.emit (s.alloc.get h).1 (s.alloc.get h).2.1) ∧
      (s.alloc.get h).1.reg h = (s.alloc.get h).2.2 ∧ (s.alloc.get h).2.2 ≠ noReg := by
  unfold RegAlloc.get
  split_ifs with hh
  · obtain ⟨hspare, havailable⟩ := hroom hh
    obtain ⟨hresult, hne⟩ := hs.alloc hspare
    obtain ⟨hpool, htemps, hreg, -⟩ := hresult.fresh (hne havailable)
    have hload := hresult.tidy.load (hresult.unloaded h hh) hpool htemps hreg
    rw [emit_emit] at hload
    exact ⟨hload, Function.update_self _ _ _, hne havailable⟩
  · exact ⟨hs, rfl, hh⟩

theorem Tidy.modify (hs : Tidy host s)
    (hroom : s.alloc.reg h = noReg → s.Spares ∧ Available s.alloc) :
    Tidy host { s.emit (s.alloc.modify h).1 (s.alloc.modify h).2.1 with
      handle := Function.update s.handle h (some (s.alloc.modify h).2.2)
      modified := Function.update s.modified h true } := by
  obtain ⟨htidy, hreg, hne⟩ := hs.get (h := h) hroom
  refine ⟨htidy.pool, htidy.temps, htidy.held, htidy.apart, htidy.value, ?_, ?_, ?_, htidy.fpu⟩
  · intro h'
    rcases htidy.lane h' with hlane | ⟨hloaded, hmod⟩
    · exact .inl hlane
    · refine .inr ⟨hloaded, ?_⟩
      show Function.update (s.alloc.get h).1.mod h true h' = true
      by_cases heq : h' = h
      · rw [heq, Function.update_self]
      · rw [Function.update_of_ne heq]
        exact hmod
  · intro h' r' hr'
    dsimp only at hr'
    by_cases heq : h' = h
    · subst heq
      rw [Function.update_self] at hr'
      obtain rfl := Option.some.inj hr'
      exact ⟨hreg, hne, Function.update_self _ _ _⟩
    · rw [Function.update_of_ne heq] at hr'
      obtain ⟨hreg', hne', hmod'⟩ := htidy.handle h' r' hr'
      exact ⟨hreg', hne', (Function.update_of_ne heq _ _).trans hmod'⟩
  · intro h' hh'
    dsimp only at hh' ⊢
    have heq : h' ≠ h := by
      rintro rfl
      rw [Function.update_self] at hh'
      exact Bool.false_ne_true hh'.symm
    rw [Function.update_of_ne heq] at hh' ⊢
    obtain ⟨hfalse, hlatest, hnone⟩ := htidy.unmodified h' hh'
    exact ⟨(Function.update_of_ne heq _ _).trans hfalse, hlatest, hnone⟩

/-! ### Every call -/

theorem Tidy.release (hs : Tidy host s) (h : Home) :
    Tidy host { s with handle := Function.update s.handle h none } where
  pool := hs.pool
  temps := hs.temps
  held := hs.held
  apart := hs.apart
  value := hs.value
  lane := hs.lane
  handle := fun h' r hr ↦ by
    by_cases heq : h' = h
    · subst heq
      exact absurd ((Function.update_self h' none s.handle).symm.trans hr).symm
        (Option.some_ne_none r)
    · exact hs.handle h' r ((Function.update_of_ne heq none s.handle).symm.trans hr)
  unmodified := fun h' hh' ↦ by
    obtain ⟨hfalse, hlatest, hnone⟩ := hs.unmodified h' hh'
    refine ⟨hfalse, hlatest, ?_⟩
    by_cases heq : h' = h
    · rw [heq]
      exact Function.update_self h none s.handle
    · exact (Function.update_of_ne heq none s.handle).trans hnone
  fpu := hs.fpu

/-- An emitter is given a register. -/
theorem Allocates.owned {result : RegAlloc × List Move × Reg}
    (hresult : Allocates host s result) :
    Tidy host ((s.emit result.1 result.2.1).own result.2.2) :=
  hresult.tidy.own fun hr ↦
    let hfresh := hresult.fresh hr
    ⟨hfresh.1, hfresh.2.2.1⟩

theorem Tidy.copy (hs : Tidy host s) (hspare : s.Spares) (m68kReg : ℕ) :
    Tidy host ((s.emit (s.alloc.copyFromM68kRegister m68kReg).1
      (s.alloc.copyFromM68kRegister m68kReg).2.1).own
        (s.alloc.copyFromM68kRegister m68kReg).2.2) := by
  obtain ⟨hresult, -⟩ := hs.alloc hspare
  unfold copyFromM68kRegister
  dsimp only
  rw [← emit_emit s s.alloc.allocARMRegister.1]
  refine (hresult.tidy.writeReg (fun h hloaded ↦ ?_) _).own fun hr ↦ ?_
  · by_cases hr : s.alloc.allocARMRegister.2.2 = noReg
    · rw [hr]
      exact hloaded
    · exact (hresult.fresh hr).2.2.1 h
  · exact ⟨(hresult.fresh hr).1, (hresult.fresh hr).2.2.1⟩

theorem Tidy.free (hs : Tidy host s) (hfree : ∀ h, s.alloc.reg h ≠ noReg → s.alloc.reg h ≠ r) :
    Tidy host { s with
      alloc := s.alloc.freeARMRegister r
      temps := Function.update s.temps r false } := by
  have hkept : ∀ x, Function.update s.temps r false x = true → x ≠ r ∧ s.temps x = true := by
    intro x hx
    by_cases heq : x = r
    · rw [heq, Function.update_self] at hx
      exact absurd hx Bool.false_ne_true
    · exact ⟨heq, (Function.update_of_ne heq _ _).symm.trans hx⟩
  by_cases hhigh : 11 < r
  · have hsame : s.alloc.freeARMRegister r = s.alloc := if_pos hhigh
    rw [hsame]
    refine ⟨hs.pool, fun x hx ↦ hs.temps x (hkept x hx).2, fun h hh ↦ ⟨(hs.held h hh).1, ?_⟩,
      hs.apart, hs.value, hs.lane, hs.handle, hs.unmodified, hs.fpu⟩
    exact (Function.update_of_ne (hfree h hh) _ _).trans (hs.held h hh).2
  · have hpool : s.alloc.freeARMRegister r =
        { s.alloc with registerPool := Function.update s.alloc.registerPool r false } :=
      if_neg hhigh
    rw [hpool]
    refine ⟨fun x hx ↦ ?_, fun x hx ↦ ?_, fun h hh ↦ ⟨?_, ?_⟩,
      hs.apart, hs.value, hs.lane, hs.handle, hs.unmodified, hs.fpu⟩
    · by_cases heq : x = r
      · dsimp only at hx
        rw [heq, Function.update_self] at hx
        exact absurd hx Bool.false_ne_true
      · exact hs.pool x ((Function.update_of_ne heq _ _).symm.trans hx)
    · obtain ⟨hne, htemp⟩ := hkept x hx
      exact (Function.update_of_ne hne _ _).trans (hs.temps x htemp)
    · exact (Function.update_of_ne (hfree h hh) _ _).trans (hs.held h hh).1
    · exact (Function.update_of_ne (hfree h hh) _ _).trans (hs.held h hh).2

theorem Tidy.stored (hs : Tidy host s) (h : Home) :
    Tidy host (s.emit s.alloc (s.alloc.store h)) := by
  have hexec := hs.store h
  refine ⟨hs.pool, hs.temps, hs.held, hs.apart, fun h' hh' ↦ ?_, fun h' ↦ ?_, hs.handle,
    hs.unmodified, hs.fpu⟩
  · simp only [emit, hexec]
    exact hs.value h' hh'
  · simp only [emit, hexec]
    by_cases heq : h' = h
    · subst heq
      rw [Function.update_self]
      exact .inl rfl
    · rw [Function.update_of_ne heq]
      exact hs.lane h'

/-- An instruction writes the state in the register that was returned for it. -/
theorem Tidy.write (hs : Tidy host s) (hhandle : s.handle h = some r) (value : BitVec 64) :
    Tidy host { s.writeReg r value with
      latest := Function.update s.latest h (value.setWidth h.width) } := by
  obtain ⟨hreg, hne, hmod⟩ := hs.handle h r hhandle
  refine ⟨hs.pool, hs.temps, hs.held, hs.apart, fun h' hh' ↦ ?_, fun h' ↦ ?_, hs.handle,
    fun h' hh' ↦ ?_, hs.fpu⟩
  · show (Function.update s.host.regs r value (s.alloc.reg h')).setWidth h'.width =
      Function.update s.latest h (value.setWidth h.width) h'
    by_cases heq : h' = h
    · subst heq
      rw [hreg, Function.update_self, Function.update_self]
    · have hother : s.alloc.reg h' ≠ r := fun heq' ↦
        heq (hs.apart h' h hh' (heq'.trans hreg.symm))
      rw [Function.update_of_ne hother, Function.update_of_ne heq]
      exact hs.value h' hh'
  · show s.host.lane h' = Function.update s.latest h (value.setWidth h.width) h' ∨ _
    by_cases heq : h' = h
    · subst heq
      exact .inr ⟨hreg ▸ hne, hmod⟩
    · rw [Function.update_of_ne heq]
      exact hs.lane h'
  · obtain ⟨hfalse, hlatest, hnone⟩ := hs.unmodified h' hh'
    have heq : h' ≠ h := by
      rintro rfl
      exact Option.some_ne_none r (hhandle.symm.trans hnone)
    exact ⟨hfalse, (Function.update_of_ne heq _ _).trans hlatest, hnone⟩

theorem Tidy.allocFPU (hs : Tidy host s) :
    Tidy host { s with
      alloc := s.alloc.allocFPURegister.1
      fpuTemps := if s.alloc.allocFPURegister.2 = noReg then s.fpuTemps
        else Function.update s.fpuTemps s.alloc.allocFPURegister.2 true } := by
  unfold allocFPURegister
  cases hfound : (List.range' 2 6).find? fun i ↦ !s.alloc.fpuAllocstate i with
  | none =>
    dsimp only
    rw [if_pos rfl]
    exact hs
  | some i =>
    have hlow : i < 8 := by
      have hmem := List.mem_of_find?_eq_some hfound
      rw [List.mem_range'_1] at hmem
      exact hmem.2
    have hne : i ≠ noReg := by
      rintro rfl
      exact absurd hlow (by decide)
    dsimp only
    rw [if_neg hne]
    refine ⟨hs.pool, hs.temps, hs.held, hs.apart, hs.value, hs.lane, hs.handle, hs.unmodified,
      fun r hr ↦ ?_⟩
    dsimp only at hr ⊢
    by_cases heq : r = i
    · rw [heq, Function.update_self]
    · rw [Function.update_of_ne heq] at hr ⊢
      exact hs.fpu r hr

theorem Tidy.freeFPU (hs : Tidy host s) (armReg : ℕ) :
    Tidy host { s with
      alloc := s.alloc.freeFPURegister armReg
      fpuTemps := Function.update s.fpuTemps armReg false } := by
  have hkept : ∀ x, Function.update s.fpuTemps armReg false x = true →
      x ≠ armReg ∧ s.fpuTemps x = true := by
    intro x hx
    by_cases heq : x = armReg
    · rw [heq, Function.update_self] at hx
      exact absurd hx Bool.false_ne_true
    · exact ⟨heq, (Function.update_of_ne heq _ _).symm.trans hx⟩
  unfold freeFPURegister
  split_ifs with hlow
  · refine ⟨hs.pool, hs.temps, hs.held, hs.apart, hs.value, hs.lane, hs.handle, hs.unmodified,
      fun r hr ↦ ?_⟩
    obtain ⟨hne, htemp⟩ := hkept r hr
    exact (Function.update_of_ne hne _ _).trans (hs.fpu r htemp)
  · exact ⟨hs.pool, hs.temps, hs.held, hs.apart, hs.value, hs.lane, hs.handle, hs.unmodified,
      fun r hr ↦ hs.fpu r (hkept r hr).2⟩

theorem call_tidy {s' : Session} (op : RaCall) (hs : Tidy host s)
    (hok : WellUsed s op ∧ Roomy s op) (hcall : call s op = some s') : Tidy host s' := by
  obtain ⟨hused, hroom⟩ := hok
  cases op with
  | alloc =>
    obtain rfl := Option.some.inj hcall
    exact (hs.alloc hroom).1.owned
  | copyFromM68k m68kReg =>
    obtain rfl := Option.some.inj hcall
    exact hs.copy hroom m68kReg
  | free armReg =>
    obtain rfl := Option.some.inj hcall
    exact hs.free hused
  | get h =>
    obtain rfl := Option.some.inj hcall
    exact (hs.get hroom).1
  | modify h =>
    obtain rfl := Option.some.inj hcall
    exact hs.modify hroom
  | store h =>
    obtain rfl := Option.some.inj hcall
    exact hs.stored h
  | flush h =>
    obtain rfl := Option.some.inj hcall
    exact (hs.release h).flush (Function.update_self h none s.handle)
  | write h value =>
    obtain ⟨r, hhandle, rfl⟩ := Option.map_eq_some_iff.mp hcall
    exact hs.write hhandle value
  | compute armReg value =>
    obtain rfl := Option.some.inj hcall
    refine hs.writeReg (fun h hh heq ↦ ?_) value
    have htemp := (hs.held h hh).2
    rw [heq, hused] at htemp
    exact Bool.false_ne_true htemp.symm
  | finish =>
    obtain rfl := Option.some.inj hcall
    exact ⟨hs.pool, hs.temps, hs.held, hs.apart, hs.value, hs.lane,
      fun _ _ hr ↦ absurd hr.symm (Option.some_ne_none _),
      fun h hh ↦ ⟨(hs.unmodified h hh).1, (hs.unmodified h hh).2.1, rfl⟩, hs.fpu⟩
  | allocFPU =>
    obtain rfl := Option.some.inj hcall
    exact hs.allocFPU
  | freeFPU armReg =>
    obtain rfl := Option.some.inj hcall
    exact hs.freeFPU armReg

/-! ### What the emitters rely on -/

theorem mapM68kRegister_high (m68kReg : ℕ) : 11 < mapM68kRegister m68kReg := by
  have hall : ∀ i < 16, 11 < Branch.regMap.getD i 0 := by decide
  exact hall (m68kReg % 16) (Nat.mod_lt _ (by decide))

theorem Tidy.safe {ok : RaCall → Prop} (hs : Tidy host s) (hok : ok .alloc → s.Spares) :
    Safe host s ok where
  fresh := fun hmay reg hreg hne ↦ by
    obtain ⟨hresult, -⟩ := hs.alloc (hok hmay)
    subst hreg
    obtain ⟨-, htemps, hloaded, -, hhigh⟩ := hresult.fresh hne
    refine ⟨htemps, fun h hheld ↦ ?_, hloaded, fun m68kReg heq ↦ ?_, fun heq ↦ ?_⟩
    · exact hloaded h (hresult.tidy.handle h _ hheld).1
    · exact absurd hhigh (Nat.not_le.mpr (heq ▸ mapM68kRegister_high m68kReg))
    · rw [heq] at hhigh
      exact absurd hhigh (by decide)
  mapped := fun m68kReg ↦ if_pos (mapM68kRegister_high m68kReg)
  stored := fun h _ ↦ by
    rw [hs.store h]
    exact ⟨Function.update_self _ _ _, fun h' hne ↦ Function.update_of_ne hne _ _⟩
  unmodified := fun h hh ↦ by
    obtain ⟨hfalse, hlatest, -⟩ := hs.unmodified h hh
    refine ⟨if_neg fun hboth ↦ ?_, ?_⟩
    · rw [hfalse] at hboth
      exact Bool.false_ne_true hboth.2
    · rcases hs.lane h with hlane | ⟨-, hmod⟩
      · exact hlane.trans hlatest
      · rw [hfalse] at hmod
        exact absurd hmod Bool.false_ne_true
  freshFPU := fun hne ↦ by
    unfold allocFPURegister at hne ⊢
    cases hfound : (List.range' 2 6).find? fun i ↦ !s.alloc.fpuAllocstate i with
    | none =>
      rw [hfound] at hne
      exact absurd rfl hne
    | some i =>
      have hmem := List.mem_of_find?_eq_some hfound
      rw [List.mem_range'_1] at hmem
      have hfree := List.find?_some hfound
      dsimp only
      refine ⟨?_, fun fpuReg heq ↦ ?_⟩
      · by_contra htemp
        rw [hs.fpu i (Bool.not_eq_false _ ▸ htemp)] at hfree
        exact Bool.false_ne_true hfree
      · have hhigh : 8 ≤ mapFPURegister fpuReg := Nat.le_add_left 8 _
        omega

/-- In every sequence of calls the allocator keeps its registers apart and the states' values, as
long as no state that is being modified is flushed to make room. -/
theorem allocator_safe (host : Host) (lastAllocated : ℕ) (s : Session)
    (hrun : Reachable call (fun s op ↦ WellUsed s op ∧ Roomy s op) (start host lastAllocated) s) :
    Safe host s fun op ↦ WellUsed s op ∧ Roomy s op :=
  (hrun.invariant (Tidy host) (tidy_start host lastAllocated) fun _ op _ hs hok hcall ↦
    call_tidy op hs hok hcall).safe And.right

/-- The condition codes are modified, and stored. -/
def modifiedAndStored : List RaCall := [.modify .cc, .write .cc 4, .store .cc]

/-- Modifies only when a register is free. -/
def modifiesFree (s : Session) : RaCall → Bool
  | .modify .cc => s.alloc.intArmAllocReg.isSome
  | .write .cc _ | .store .cc => true
  | _ => false

theorem modifiesFree_ok (s : Session) (op : RaCall) (hop : modifiesFree s op = true) :
    WellUsed s op ∧ Roomy s op := by
  match op, hop with
  | .modify .cc, hfree =>
    have hnone : flushed s.alloc = none := if_pos hfree
    refine And.intro Home.noConfusion fun _ ↦ ⟨fun h hh ↦ ?_, .inl hfree⟩
    exact absurd (hnone.symm.trans hh).symm (Option.some_ne_none h)
  | .write .cc _, _ => exact And.intro trivial trivial
  | .store .cc, _ => exact And.intro Home.noConfusion trivial

theorem allocator_safe_stored : ∃ s, Safe ⟨fun _ ↦ 0, fun _ ↦ 0⟩ s
    (fun op ↦ WellUsed s op ∧ Roomy s op) ∧ s.host.lane .cc = 4 := by
  have hended : (runOps call modifiesFree (start ⟨fun _ ↦ 0, fun _ ↦ 0⟩ 3)
      modifiedAndStored).map (fun s ↦ s.host.lane .cc) = some 4 := by
    decide +kernel
  obtain ⟨s, hrun, hlane⟩ := Option.map_eq_some_iff.mp hended
  exact ⟨s, allocator_safe _ 3 s (Reachable.of_runOps modifiesFree_ok .refl hrun), hlane⟩

/-- With the condition codes being modified and seven registers allocated, the next allocation
returns the register of the condition codes. -/
def pressed : List RaCall := .modify .cc :: List.replicate 7 .alloc

def isModifyOrAlloc : RaCall → Bool
  | .alloc | .modify .cc => true
  | _ => false

theorem not_allocator_safe : ¬ ∀ (host : Host) (lastAllocated : ℕ) (s : Session),
    Reachable call WellUsed (start host lastAllocated) s → Safe host s (WellUsed s) := by
  intro hsafe
  have hended : (runOps call (fun _ op ↦ isModifyOrAlloc op) (start ⟨fun _ ↦ 0, fun _ ↦ 0⟩ 3)
      pressed).map (fun s ↦ (s.handle .cc, s.alloc.allocARMRegister.2.2)) = some (some 4, 4) := by
    decide +kernel
  obtain ⟨s, hrun, hresult⟩ := Option.map_eq_some_iff.mp hended
  obtain ⟨hhandle, hreg⟩ := Prod.mk.inj hresult
  have htest : ∀ (s : Session) (op : RaCall), isModifyOrAlloc op = true → WellUsed s op := by
    intro s op hop
    match op, hop with
    | .alloc, _ => trivial
    | .modify .cc, _ => exact Home.noConfusion
  have hfresh := (hsafe _ 3 s (Reachable.of_runOps htest .refl hrun)).fresh trivial 4 hreg
    (by decide)
  exact hfresh.2.1 .cc hhandle

end Session

end Emu68.A64
