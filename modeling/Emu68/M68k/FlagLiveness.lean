import Emu68.A64.FlagTransfer
import Emu68.Lib.Liveness

/-!
The flags that an instruction has to update, as `M68K_GetSRMask` of `M68k_SR.c` finds them. It scans
the code behind the instruction up to a depth, follows branches whose targets are in the code, and
takes both ways of the first conditional branch. The tables of `GetSR_Line0` and its siblings are
given, as is the length of an instruction.
-/

set_option autoImplicit false
set_option relaxedAutoImplicit false

namespace Emu68.M68k.Liveness

open A64 Lib

abbrev Address := BitVec 32

/-- The code as `cache_read_16` reads it, with `SRCheck` and `M68K_GetINSNLength`, which is in
words. -/
structure Code where
  read16 : Address → BitVec 16
  srCheck : BitVec 16 → BitVec 32
  insnLength : Address → ℕ

/-- `M68K_IsBranch`. -/
def isBranchOpcode (opcode : BitVec 16) : Bool :=
  opcode == 0x007c ||
  opcode == 0x027c ||
  opcode == 0x0a7c ||
  opcode &&& 0xffc0 == 0x40c0 ||
  opcode &&& 0xffc0 == 0x46c0 ||
  opcode &&& 0xfff8 == 0x4848 ||
  opcode == 0x4afc ||
  opcode &&& 0xfff0 == 0x4e40 ||
  opcode &&& 0xfff0 == 0x4e60 ||
  opcode == 0x4e70 ||
  opcode == 0x4e72 ||
  opcode == 0x4e73 ||
  opcode == 0x4e74 ||
  opcode == 0x4e75 ||
  opcode == 0x4e76 ||
  opcode == 0x4e77 ||
  opcode &&& 0xfffe == 0x4e7a ||
  opcode &&& 0xff80 == 0x4e80 ||
  opcode &&& 0xf0f8 == 0x50c8 ||
  opcode &&& 0xf000 == 0x6000

/-- The place of a flag in a mask. -/
def maskBit : Flag → ℕ
  | .x => 4
  | .n => 3
  | .z => 2
  | .v => 1
  | .c => 0

namespace Code

variable (code : Code)

def isBranch (a : Address) : Bool := isBranchOpcode (code.read16 a)

def tmpSets (a : Address) : Mask := (code.srCheck (code.read16 a) &&& 0x1f).setWidth 8

def tmpNeeds (a : Address) : Mask := (code.srCheck (code.read16 a) >>> 16 &&& 0x1f).setWidth 8

/-- The place behind `n` words. -/
def plus (a : Address) (n : ℕ) : Address := a + BitVec.ofNat 32 (2 * n)

/-- The two words behind the opcode. -/
def long (a : Address) : BitVec 32 := code.read16 (plus a 1) ++ code.read16 (plus a 2)

/-- The displacement of BRA, BSR and Bcc. -/
def branchOffset (a : Address) : BitVec 32 :=
  let opcode := code.read16 a
  if opcode &&& 0xff = 0 then (code.read16 (plus a 1)).signExtend 32
  else if opcode &&& 0xff = 0xff then code.long a
  else (opcode.setWidth 8).signExtend 32

/-- `insn_stream + 1 + (branch_offset >> 1)`. -/
def branchTarget (a : Address) (offset : BitVec 32) : Address :=
  plus a 1 + (offset.sshiftRight 1) <<< 1

/-- Where the scan goes at a branch. `split` has the target and the instruction behind. -/
inductive Follow where
  | jump (target : Address)
  | split (target behind : Address)
  | unknown

def follow (a : Address) : Follow :=
  let opcode := code.read16 a
  if opcode &&& 0xfe00 = 0x6000 then .jump (branchTarget a (code.branchOffset a))
  else if opcode &&& 0xffbe = 0x4eb8 then
    .jump (if opcode.getLsbD 0 then code.long a else (code.read16 (plus a 1)).setWidth 32)
  else if opcode &&& 0xf000 = 0x6000 then
    .split (branchTarget a (code.branchOffset a))
      (plus a (if opcode &&& 0xff = 0 then 2 else if opcode &&& 0xff = 0xff then 3 else 1))
  else if opcode &&& 0xf0f8 = 0x50c8 then
    .split (branchTarget a ((code.read16 (plus a 1)).signExtend 32)) (plus a 2)
  else .unknown

/-- The scan of one of two ways, up to the next branch. The first argument is the depth that is
left. -/
def scanWay : ℕ → Address → Mask → Mask → Mask
  | 0, _, mask, needed => mask ||| needed
  | depth + 1, a, mask, needed =>
    if mask = 0 then mask ||| needed
    else if code.isBranch a then mask ||| needed
    else
      let needed := needed ||| mask &&& code.tmpNeeds a
      let mask := mask &&& ~~~code.tmpSets a
      if mask &&& code.tmpNeeds a = mask then mask ||| needed
      else scanWay depth (plus a (code.insnLength a)) mask needed

/-- The loop, at an instruction that is dealt with. -/
def scan : ℕ → Address → Mask → Mask → Mask
  | 0, _, mask, needed => mask ||| needed
  | depth + 1, a, mask, needed =>
    -- the next instruction is dealt with
    let visit := fun b ↦
      let needed := needed ||| mask &&& code.tmpNeeds b
      let mask := mask &&& ~~~code.tmpSets b
      if mask &&& code.tmpNeeds b = mask then mask ||| needed
      else scan depth b mask needed
    if mask = 0 then mask ||| needed
    else if code.isBranch a then
      match code.follow a with
      | .jump target => visit target
      | .split target behind =>
        let needed := needed ||| mask &&& (code.srCheck (code.read16 a) >>> 16).setWidth 8
        code.scanWay depth target mask needed ||| code.scanWay depth behind mask needed
      | .unknown => mask ||| needed
    else visit (plus a (code.insnLength a))

def getSRMask (maxScanDepth : ℕ) (a : Address) : Mask := code.scan maxScanDepth a (code.tmpSets a) 0

/-! ### The paths -/

/-- The successors of an instruction; after a branch that is not followed it can be any. -/
def Next (a b : Address) : Prop :=
  if code.isBranch a then
    match code.follow a with
    | .jump target => b = target
    | .split target behind => b = target ∨ b = behind
    | .unknown => True
  else b = plus a (code.insnLength a)

/-- The flags that the tables say are read and set. -/
def accesses : Accesses Address Flag where
  next := code.Next
  reads a flag := (code.tmpNeeds a).getLsbD (maskBit flag) = true
  sets a flag := (code.tmpSets a).getLsbD (maskBit flag) = true

variable {code} {a : Address} {mask needed : Mask} {i depth : ℕ} {flag : Flag}

theorem getLsbD_or_left {x y : Mask} (h : x.getLsbD i = true) : (x ||| y).getLsbD i = true := by
  rw [BitVec.getLsbD_or, h, Bool.true_or]

theorem getLsbD_or_right {x y : Mask} (h : y.getLsbD i = true) : (x ||| y).getLsbD i = true := by
  rw [BitVec.getLsbD_or, h, Bool.or_true]

/-- What is needed is in the result. -/
theorem scanWay_needed (h : needed.getLsbD i = true) :
    (code.scanWay depth a mask needed).getLsbD i = true := by
  induction depth generalizing a mask needed with
  | zero => exact getLsbD_or_right h
  | succ depth ih =>
    unfold scanWay
    dsimp only
    split_ifs
    · exact getLsbD_or_right h
    · exact getLsbD_or_right h
    · exact getLsbD_or_right (getLsbD_or_left h)
    · exact ih (getLsbD_or_left h)

theorem scan_needed (h : needed.getLsbD i = true) :
    (code.scan depth a mask needed).getLsbD i = true := by
  induction depth generalizing a mask needed with
  | zero => exact getLsbD_or_right h
  | succ depth ih =>
    have hvisit : ∀ b, (if (mask &&& ~~~code.tmpSets b) &&& code.tmpNeeds b =
        mask &&& ~~~code.tmpSets b then
          mask &&& ~~~code.tmpSets b ||| (needed ||| mask &&& code.tmpNeeds b)
        else code.scan depth b (mask &&& ~~~code.tmpSets b)
          (needed ||| mask &&& code.tmpNeeds b)).getLsbD i = true := by
      intro b
      split_ifs
      · exact getLsbD_or_right (getLsbD_or_left h)
      · exact ih (getLsbD_or_left h)
    unfold scan
    dsimp only
    by_cases hzero : mask = 0
    · rw [if_pos hzero]
      exact getLsbD_or_right h
    · rw [if_neg hzero]
      by_cases hbranch : code.isBranch a = true
      · rw [if_pos hbranch]
        cases code.follow a with
        | jump target => exact hvisit target
        | split target behind => exact getLsbD_or_left (scanWay_needed (getLsbD_or_left h))
        | unknown => exact getLsbD_or_right h
      · rw [if_neg hbranch]
        exact hvisit _

/-- An instruction that is dealt with: the flag is set there, or it is still looked for. -/
theorem overwritten_of_visit {b : Address} (result : Mask → Mask → Mask)
    (hmask : mask.getLsbD (maskBit flag) = true)
    (hneeded : ∀ {mask needed : Mask}, needed.getLsbD (maskBit flag) = true →
      (result mask needed).getLsbD (maskBit flag) = true)
    (hresult : (if (mask &&& ~~~code.tmpSets b) &&& code.tmpNeeds b = mask &&& ~~~code.tmpSets b
      then mask &&& ~~~code.tmpSets b ||| (needed ||| mask &&& code.tmpNeeds b)
      else result (mask &&& ~~~code.tmpSets b)
        (needed ||| mask &&& code.tmpNeeds b)).getLsbD (maskBit flag) = false)
    (hlater : ∀ mask needed : Mask, mask.getLsbD (maskBit flag) = true →
      (result mask needed).getLsbD (maskBit flag) = false →
      ∀ c, code.Next b c → Overwritten code.accesses flag c) :
    Overwritten code.accesses flag b := by
  have hlow : maskBit flag < 8 := BitVec.lt_of_getLsbD hmask
  have hunread : ¬ (code.tmpNeeds b).getLsbD (maskBit flag) = true := by
    intro hneeds
    have hin : (needed ||| mask &&& code.tmpNeeds b).getLsbD (maskBit flag) = true := by
      refine getLsbD_or_right ?_
      rw [BitVec.getLsbD_and, hmask, hneeds, Bool.true_and]
    split_ifs at hresult
    · exact Bool.false_ne_true (hresult.symm.trans (getLsbD_or_right hin))
    · exact Bool.false_ne_true (hresult.symm.trans (hneeded hin))
  by_cases hsets : (code.tmpSets b).getLsbD (maskBit flag) = true
  · exact .set hunread hsets
  · have hstill : (mask &&& ~~~code.tmpSets b).getLsbD (maskBit flag) = true := by
      rw [BitVec.getLsbD_and, hmask, BitVec.getLsbD_not, Bool.eq_false_iff.mpr hsets,
        decide_eq_true hlow]
      rfl
    refine .later hunread ?_
    split_ifs at hresult
    · exact absurd (hresult.symm.trans (getLsbD_or_left hstill)) Bool.false_ne_true
    · exact hlater _ _ hstill hresult

/-- A flag that the scan of one way leaves out is overwritten. -/
theorem scanWay_sound (hmask : mask.getLsbD (maskBit flag) = true)
    (h : (code.scanWay depth a mask needed).getLsbD (maskBit flag) = false) :
    Overwritten code.accesses flag a := by
  induction depth generalizing a mask needed with
  | zero => exact absurd (h.symm.trans (getLsbD_or_left hmask)) Bool.false_ne_true
  | succ depth ih =>
    unfold scanWay at h
    dsimp only at h
    by_cases hzero : mask = 0
    · rw [hzero] at hmask
      exact absurd (BitVec.getLsbD_zero.symm.trans hmask) Bool.false_ne_true
    · rw [if_neg hzero] at h
      by_cases hbranch : code.isBranch a = true
      · rw [if_pos hbranch] at h
        exact absurd (h.symm.trans (getLsbD_or_left hmask)) Bool.false_ne_true
      · rw [if_neg hbranch] at h
        refine overwritten_of_visit (code.scanWay depth (plus a (code.insnLength a))) hmask
          (fun hin ↦ scanWay_needed hin) h ?_
        intro mask needed hstill hresult c hnext
        unfold Next at hnext
        rw [if_neg hbranch] at hnext
        rw [hnext]
        exact ih hstill hresult

/-- A flag that the scan leaves out is overwritten from every next instruction on. -/
theorem scan_sound (hmask : mask.getLsbD (maskBit flag) = true)
    (h : (code.scan depth a mask needed).getLsbD (maskBit flag) = false) :
    ∀ b, code.Next a b → Overwritten code.accesses flag b := by
  induction depth generalizing a mask needed with
  | zero => exact absurd (h.symm.trans (getLsbD_or_left hmask)) Bool.false_ne_true
  | succ depth ih =>
    unfold scan at h
    dsimp only at h
    have hvisit : ∀ b, (if (mask &&& ~~~code.tmpSets b) &&& code.tmpNeeds b =
        mask &&& ~~~code.tmpSets b then
          mask &&& ~~~code.tmpSets b ||| (needed ||| mask &&& code.tmpNeeds b)
        else code.scan depth b (mask &&& ~~~code.tmpSets b)
          (needed ||| mask &&& code.tmpNeeds b)).getLsbD (maskBit flag) = false →
        Overwritten code.accesses flag b := fun b hresult ↦
      overwritten_of_visit (code.scan depth b) hmask (fun hin ↦ scan_needed hin) hresult
        fun _ _ hstill hrest ↦ ih hstill hrest
    intro b hnext
    unfold Next at hnext
    by_cases hzero : mask = 0
    · rw [hzero] at hmask
      exact absurd (BitVec.getLsbD_zero.symm.trans hmask) Bool.false_ne_true
    · rw [if_neg hzero] at h
      by_cases hbranch : code.isBranch a = true
      · rw [if_pos hbranch] at h hnext
        cases hfollow : code.follow a with
        | jump target =>
          rw [hfollow] at h hnext
          rw [show b = target from hnext]
          exact hvisit target h
        | split target behind =>
          rw [hfollow] at h hnext
          rw [BitVec.getLsbD_or, Bool.or_eq_false_iff] at h
          rcases hnext with rfl | rfl
          · exact scanWay_sound hmask h.1
          · exact scanWay_sound hmask h.2
        | unknown =>
          rw [hfollow] at h
          exact absurd (h.symm.trans (getLsbD_or_left hmask)) Bool.false_ne_true
      · rw [if_neg hbranch] at h hnext
        rw [hnext]
        exact hvisit _ h

end Code

end Emu68.M68k.Liveness
