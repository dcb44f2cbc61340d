import Mathlib
import Emu68.A64.FlagHelpers

/-!
What the flag code does to the condition codes. None of the emitted instructions changes the host
flags, and each piece of code keeps some bits of the condition codes and sets others
(`FlagUpdate`), depending on the host flags only. Updates compose, so the effect of a helper and of
its caller's rest is the composition of those of their pieces; for a given caller, mask and host
flags it is a pair of words that can be compared with what the m68k asks for.
-/

set_option autoImplicit false
set_option relaxedAutoImplicit false

namespace Emu68.A64

/-- The bits outside `keep` are replaced by those of `set`. -/
structure FlagUpdate where
  keep : BitVec 32
  set : BitVec 32
deriving DecidableEq

def FlagUpdate.apply (u : FlagUpdate) (x : BitVec 32) : BitVec 32 := (x &&& u.keep) ||| u.set

def FlagUpdate.id : FlagUpdate := ⟨BitVec.allOnes 32, 0#32⟩

def FlagUpdate.andThen (u v : FlagUpdate) : FlagUpdate :=
  ⟨u.keep &&& v.keep, (u.set &&& v.keep) ||| v.set⟩

theorem FlagUpdate.apply_id (x : BitVec 32) : FlagUpdate.id.apply x = x := by
  rw [FlagUpdate.apply, FlagUpdate.id, BitVec.and_allOnes, BitVec.or_zero]

theorem FlagUpdate.apply_andThen (u v : FlagUpdate) (x : BitVec 32) :
    (u.andThen v).apply x = v.apply (u.apply x) := by
  simp only [FlagUpdate.apply, FlagUpdate.andThen, BitVec.and_or_distrib_right, BitVec.and_assoc,
    BitVec.or_assoc]

/-- The code keeps the host flags and updates the condition codes. -/
def Computes (cc : Reg) (code : List Op) (u : Nzcv → FlagUpdate) : Prop :=
  ∀ s : Cpu, (exec code s).flags = s.flags ∧
    (exec code s).regs cc = (u s.flags).apply (s.regs cc)

variable {cc tmp tmp2 : Reg} {first second : List Op} {u v : Nzcv → FlagUpdate}

theorem Computes.nil : Computes cc [] fun _ ↦ .id := by
  intro s
  exact ⟨rfl, (FlagUpdate.apply_id _).symm⟩

theorem Computes.append (h₁ : Computes cc first u) (h₂ : Computes cc second v) :
    Computes cc (first ++ second) fun f ↦ (u f).andThen (v f) := by
  intro s
  obtain ⟨hflags, hcc⟩ := h₁ s
  obtain ⟨hflags', hcc'⟩ := h₂ (exec first s)
  rw [exec_append]
  refine ⟨hflags'.trans hflags, ?_⟩
  rw [hcc', hcc, hflags, FlagUpdate.apply_andThen]

theorem Computes.setIf {condition : Prop} [Decidable condition] (h : Computes cc first u) :
    Computes cc (setIf condition first) fun f ↦ if condition then u f else .id := by
  unfold A64.setIf
  split
  · exact h
  · exact .nil

/-- The registers that the source allocates differ from the condition codes, and none of them is
the zero register. -/
structure Allocated (cc tmp : Reg) : Prop where
  cc_ne : cc ≠ 31
  tmp_ne : tmp ≠ 31
  ne : tmp ≠ cc

/-! ### The pieces -/

def word (mask : Mask) : BitVec 32 := mask.zeroExtend 32

def clearU (flags : Mask) : FlagUpdate := ⟨~~~word flags, 0#32⟩

def setU (flags : Mask) (condition : Bool) : FlagUpdate :=
  ⟨BitVec.allOnes 32, if condition then word flags else 0#32⟩

/-- What `bfm` does with the value of its source. -/
def insertU (source : BitVec 32) (immr imms : ℕ) : FlagUpdate :=
  if immr ≤ imms then
    ⟨~~~(lowMask (imms - immr + 1) <<< 0), ((source >>> immr) &&& lowMask (imms - immr + 1)) <<< 0⟩
  else ⟨~~~(lowMask (imms + 1) <<< (32 - immr)), (source &&& lowMask (imms + 1)) <<< (32 - immr)⟩

theorem setU_apply (flags : Mask) (condition : Bool) (x : BitVec 32) :
    (setU flags condition).apply x = if condition then x ||| word flags else x := by
  cases condition
  · exact FlagUpdate.apply_id x
  · simp only [setU, FlagUpdate.apply, BitVec.and_allOnes, if_true]

/-- The runs of the table are the flags they stand for. -/
theorem flagRun_spec {flags : Mask} {width ror : BitVec 8} (h : flagRun flags = some (width, ror)) :
    bitmask width ror = word flags ∧ bitmask (32 - width) (ror - width) = ~~~word flags := by
  have hall : ∀ flags : Mask, (flagRun flags).all (fun run ↦ decide (bitmask run.1 run.2 =
      word flags ∧ bitmask (32 - run.1) (run.2 - run.1) = ~~~word flags)) = true := by
    decide +kernel
  have hflags := hall flags
  rw [h] at hflags
  exact of_decide_eq_true hflags

/-- The code puts a value that depends on the host flags only in its temporary register. -/
def Prepares (cc tmp : Reg) (code : List Op) (value : Nzcv → BitVec 32) : Prop :=
  ∀ s : Cpu, (exec code s).flags = s.flags ∧ (exec code s).regs cc = s.regs cc ∧
    (exec code s).regs tmp = value s.flags

variable {code : List Op} {value : Nzcv → BitVec 32}

/-- One more instruction, which writes the temporary register. -/
theorem Prepares.next (h : Allocated cc tmp) (hcode : Prepares cc tmp code value) {op : Op}
    {value' : Nzcv → BitVec 32}
    (hop : ∀ s : Cpu, s.regs tmp = value s.flags → step s op = s.put tmp (value' s.flags)) :
    Prepares cc tmp (code ++ [op]) value' := by
  intro s
  obtain ⟨hflags, hcc, htmp⟩ := hcode s
  rw [exec_append]
  have hstep := hop (exec code s) (htmp.trans (by rw [hflags]))
  rw [show exec [op] (exec code s) = step (exec code s) op from rfl, hstep, Cpu.put_of_ne h.tmp_ne]
  refine ⟨hflags, ?_, ?_⟩
  · exact (Function.update_of_ne h.ne.symm _ _).trans hcc
  · exact (Function.update_self _ _ _).trans (by rw [hflags])

theorem Prepares.one (h : Allocated cc tmp) {op : Op}
    (hop : ∀ s : Cpu, step s op = s.put tmp (value s.flags)) :
    Prepares cc tmp [op] value := by
  intro s
  rw [show exec [op] s = step s op from rfl, hop, Cpu.put_of_ne h.tmp_ne]
  exact ⟨rfl, Function.update_of_ne h.ne.symm _ _, Function.update_self _ _ _⟩

/-- The last instruction, which combines the prepared value with the condition codes. -/
theorem Prepares.computes (h : Allocated cc tmp) (hcode : Prepares cc tmp code value) {op : Op}
    {u : Nzcv → FlagUpdate}
    (hop : ∀ s : Cpu, s.regs tmp = value s.flags →
      step s op = s.put cc ((u s.flags).apply (s.regs cc))) :
    Computes cc (code ++ [op]) u := by
  intro s
  obtain ⟨hflags, hcc, htmp⟩ := hcode s
  rw [exec_append]
  have hstep := hop (exec code s) (htmp.trans (by rw [hflags]))
  rw [show exec [op] (exec code s) = step (exec code s) op from rfl, hstep, Cpu.put_of_ne h.cc_ne]
  refine ⟨hflags, (Function.update_self _ _ _).trans ?_⟩
  rw [hflags, hcc]

theorem insert_computes (h : Allocated cc tmp) (hcode : Prepares cc tmp code value)
    (immr imms : ℕ) :
    Computes cc (code ++ [Op.bfm cc tmp immr imms]) fun f ↦ insertU (value f) immr imms := by
  refine hcode.computes h fun s htmp ↦ ?_
  simp only [step, Cpu.get_of_ne h.cc_ne, Cpu.get_of_ne h.tmp_ne, htmp, insertU, insertBits]
  split <;> rfl

theorem bicImmed_computes (h : cc ≠ 31) {width ror : BitVec 8} {flags : Mask}
    (hmask : bitmask (32 - width) (ror - width) = ~~~word flags) :
    Computes cc [bicImmed cc cc width ror] fun _ ↦ clearU flags := by
  intro s
  simp only [exec, List.foldl_cons, List.foldl_nil, step, bicImmed, Cpu.put_of_ne h,
    Cpu.get_of_ne h, Function.update_self, hmask]
  exact ⟨trivial, by simp [clearU, FlagUpdate.apply]⟩

theorem orrCsel_computes (h : Allocated cc tmp) {width ror : BitVec 8} {flags : Mask} {cond : Cond}
    (hmask : bitmask width ror = word flags) :
    Computes cc [.orrImmed tmp cc width ror, .csel cc tmp cc cond]
      fun f ↦ setU flags (cond.holds f) := by
  intro s
  simp only [exec, List.foldl_cons, List.foldl_nil, step, Cpu.put_of_ne h.cc_ne,
    Cpu.put_of_ne h.tmp_ne, Cpu.get_of_ne h.cc_ne, Cpu.get_of_ne h.tmp_ne, Function.update_self,
    Function.update_of_ne h.ne.symm, hmask]
  exact ⟨trivial, (setU_apply flags _ _).symm⟩

theorem movWord_prepares (h : Allocated cc tmp) (flags : Mask) :
    Prepares cc tmp [.movImmedU16 tmp (flags.zeroExtend 16) 0] fun _ ↦ word flags := by
  refine .one h fun s ↦ congrArg (s.put tmp) ?_
  revert flags
  decide +kernel

theorem emitClearFlags_computes (h : Allocated cc tmp) (flags : Mask) :
    Computes cc (emitClearFlags cc tmp flags) fun _ ↦ clearU flags := by
  unfold emitClearFlags
  split
  case isTrue h0 =>
    subst h0
    exact .nil
  case isFalse =>
    split
    case h_1 width ror hrun =>
      exact bicImmed_computes h.cc_ne (flagRun_spec hrun).2
    case h_2 =>
      refine (movWord_prepares h flags).computes h fun s htmp ↦ ?_
      simp only [step, Cpu.get_of_ne h.cc_ne, Cpu.get_of_ne h.tmp_ne, htmp]
      simp [Shift.apply, clearU, FlagUpdate.apply]

theorem emitSetFlagsConditional_computes (h : Allocated cc tmp) {flags : Mask} (hne : flags ≠ 31)
    (cond : Cond) :
    Computes cc (emitSetFlagsConditional cc tmp flags cond)
      fun f ↦ setU flags (cond.holds f) := by
  unfold emitSetFlagsConditional
  rw [if_neg hne]
  split
  case isTrue h0 =>
    subst h0
    intro s
    refine ⟨rfl, ?_⟩
    rw [setU_apply]
    simp [word, exec]
  case isFalse =>
    split
    case h_1 width ror hrun =>
      exact orrCsel_computes h (flagRun_spec hrun).1
    case h_2 =>
      have hselect : Prepares cc tmp
          ([.movImmedU16 tmp (flags.zeroExtend 16) 0] ++ [.csel tmp tmp 31 cond])
          fun f ↦ if cond.holds f then word flags else 0#32 :=
        (movWord_prepares h flags).next h fun s htmp ↦ by
          simp only [step, Cpu.get_of_ne h.tmp_ne, Cpu.get_zero, htmp]
      refine hselect.computes h fun s htmp ↦ ?_
      simp only [step, Cpu.get_of_ne h.cc_ne, Cpu.get_of_ne h.tmp_ne, htmp, setU, FlagUpdate.apply,
        BitVec.and_allOnes]
      simp [Shift.apply]

def oneIf (condition : Bool) : BitVec 32 := if condition then 1#32 else 0#32

theorem holds_invert : ∀ cond : Cond, cond.toNat < 14 → ∀ n z c v : Bool,
    Cond.holds (cond ^^^ 1) ⟨n, z, c, v⟩ = !Cond.holds cond ⟨n, z, c, v⟩ := by
  decide +kernel

def copyU (condition : Bool) (lsb : ℕ) : FlagUpdate := insertU (oneIf condition) ((32 - lsb) % 32) 0

theorem copyCond_computes (h : Allocated cc tmp) {cond : Cond} (hcond : cond.toNat < 14)
    (lsb : ℕ) : Computes cc (copyCond cc tmp cond lsb) fun f ↦ copyU (cond.holds f) lsb := by
  have hset : Prepares cc tmp [cset tmp cond] fun f ↦ oneIf (cond.holds f) :=
    .one h fun s ↦ by
      simp only [cset, step, Cpu.get_zero, holds_invert cond hcond s.flags.n s.flags.z s.flags.c
        s.flags.v]
      cases cond.holds s.flags <;> rfl
  exact insert_computes h hset _ _

def nzU (f : Nzcv) : FlagUpdate := insertU (oneIf (ccLE.holds f) + oneIf (ccMI.holds f)) 30 1

theorem copyNZ_computes (h : Allocated cc tmp) : Computes cc (copyNZ cc tmp) nzU := by
  have hle : Prepares cc tmp [cinc tmp 31 ccLE] fun f ↦ oneIf (ccLE.holds f) :=
    .one h fun s ↦ by
      simp only [cinc, step, Cpu.get_zero, holds_invert ccLE (by decide) s.flags.n s.flags.z
        s.flags.c s.flags.v]
      cases ccLE.holds s.flags <;> rfl
  have hmi : Prepares cc tmp ([cinc tmp 31 ccLE] ++ [cinc tmp tmp ccMI])
      fun f ↦ oneIf (ccLE.holds f) + oneIf (ccMI.holds f) :=
    hle.next h fun s htmp ↦ by
      simp only [cinc, step, Cpu.get_of_ne h.tmp_ne, htmp, holds_invert ccMI (by decide) s.flags.n
        s.flags.z s.flags.c s.flags.v]
      cases ccMI.holds s.flags <;> simp [oneIf]
  exact insert_computes h hmi _ _

/-- All four host flags at once, where the carry may be inverted. -/
def nibbleU (invert : Bool) (f : Nzcv) : FlagUpdate :=
  insertU (nzcvWord { f with c := f.c ^^ invert }) 28 31

theorem nibble_computes (h : Allocated cc tmp) :
    Computes cc [.getNzcv tmp, bfxil cc tmp 28 4] (nibbleU false) := by
  have hget : Prepares cc tmp [.getNzcv tmp] fun f ↦ nzcvWord { f with c := f.c ^^ false } :=
    .one h fun s ↦ by
      rw [Bool.xor_false]
      rfl
  exact insert_computes h hget _ _

theorem nibble_invert_computes (h : Allocated cc tmp) (condition : Prop) [Decidable condition] :
    Computes cc ([Op.getNzcv tmp] ++ (if condition then [Op.eorImmed tmp tmp 1 3] else []) ++
      [bfxil cc tmp 28 4]) (nibbleU (decide condition)) := by
  have hget : Prepares cc tmp [.getNzcv tmp] nzcvWord := .one h fun s ↦ rfl
  by_cases hinvert : condition
  · rw [if_pos hinvert, decide_eq_true hinvert]
    refine insert_computes h (hget.next h fun s htmp ↦ ?_) _ _
    simp only [step, Cpu.get_of_ne h.tmp_ne, htmp]
    have hxor : ∀ n z c v : Bool,
        nzcvWord ⟨n, z, c, v⟩ ^^^ bitmask 1 3 = nzcvWord ⟨n, z, c ^^ true, v⟩ := by
      decide +kernel
    exact congrArg (s.put tmp) (hxor _ _ _ _)
  · rw [if_neg hinvert, decide_eq_false hinvert, List.append_nil]
    exact nibble_computes h

end Emu68.A64
