import Mathlib
import Emu68.A64.FlagUpdates

/-!
Which flags arrive. Every helper has an effect, an update and the flags that it leaves to its
caller, and with the caller's rest this is the update of the whole flag code. It is compared with
the values that the m68k gives the requested flags.
-/

set_option autoImplicit false
set_option relaxedAutoImplicit false

namespace Emu68.A64

variable {cc tmp tmp2 : Reg} {t : Transfer}

/-! ### The effect of a helper -/

structure Effect where
  update : Nzcv → FlagUpdate
  notDone : Mask

structure Transfer.Has (cc : Reg) (t : Transfer) (e : Effect) : Prop where
  computes : Computes cc t.code e.update
  notDone_eq : t.notDone = e.notDone

/-- A helper that emits nothing. -/
def Effect.skip (mask : Mask) : Effect := ⟨fun _ ↦ .id, mask⟩

def Effect.copy (cond : Cond) (lsb : ℕ) : Effect := ⟨fun f ↦ copyU (cond.holds f) lsb, 0⟩

def Effect.clearRest (e : Effect) : Effect :=
  ⟨fun f ↦ (e.update f).andThen (if e.notDone ≠ 0 then clearU (swapVC e.notDone) else .id),
    e.notDone⟩

theorem has_skip (mask hostFlags : Mask) : Transfer.Has cc ⟨[], mask, hostFlags⟩ (.skip mask) :=
  ⟨.nil, rfl⟩

theorem has_copy (h : Allocated cc tmp) {cond : Cond} (hcond : cond.toNat < 14) (lsb : ℕ)
    (hostFlags : Mask) :
    Transfer.Has cc ⟨copyCond cc tmp cond lsb, 0, hostFlags⟩ (.copy cond lsb) :=
  ⟨copyCond_computes h hcond lsb, rfl⟩

theorem ne_of_toNat {mask other : Mask} (h : mask.toNat = other.toNat → False) : mask ≠ other :=
  fun heq ↦ h (congrArg BitVec.toNat heq)

theorem eq_lt : ccEQ.toNat < 14 := by decide

theorem mi_lt : ccMI.toNat < 14 := by decide

theorem vs_lt : ccVS.toNat < 14 := by decide

theorem Transfer.Has.clearRest {e : Effect} (h2 : Allocated cc tmp2) (h : t.Has cc e) :
    (t.clearRest cc tmp2).Has cc e.clearRest := by
  obtain ⟨hcode, hrest⟩ := h
  refine ⟨hcode.append ?_, hrest⟩
  rw [hrest]
  split
  · exact emitClearFlags_computes h2 _
  · exact .nil

def nz00 (mask : Mask) : Effect :=
  if mask = 0 then .skip mask
  else if popcount mask = 1 then
    if mask = srC then ⟨fun _ ↦ clearU srCalt, 0⟩
    else if mask = srV then ⟨fun _ ↦ clearU srValt, 0⟩
    else if mask = srZ then .copy ccEQ 2
    else if mask = srN then .copy ccMI 3
    else .skip mask
  else if mask &&& srNZ = srNZ then
    ⟨fun f ↦ (if mask &&& srVC ≠ 0 then clearU srNZVC else .id).andThen (nzU f), mask &&& srX⟩
  else if mask &&& srNZ = srZ then
    ⟨fun f ↦ (clearU srNZVC).andThen (setU srZ (ccEQ.holds f)), mask &&& srX⟩
  else if mask &&& srNZ = srN then
    ⟨fun f ↦ (clearU srNZVC).andThen (setU srN (ccMI.holds f)), mask &&& srX⟩
  else .skip (mask &&& srX)

theorem emitGetNZ00_has (h : Allocated cc tmp) (mask : Mask) :
    (emitGetNZ00 cc tmp mask).Has cc (nz00 mask) := by
  have hclear : Computes cc [bicImmed cc cc 4 0] fun _ ↦ clearU srNZVC :=
    bicImmed_computes h.cc_ne (by decide)
  unfold emitGetNZ00 nz00
  dsimp only
  split
  case isTrue => exact has_skip _ _
  split
  case isTrue =>
    split
    case h_1 hmask =>
      obtain rfl : mask = srC := BitVec.eq_of_toNat_eq hmask
      exact ⟨bicImmed_computes h.cc_ne (by decide), rfl⟩
    case h_2 hmask =>
      obtain rfl : mask = srV := BitVec.eq_of_toNat_eq hmask
      exact ⟨bicImmed_computes h.cc_ne (by decide), rfl⟩
    case h_3 hmask =>
      obtain rfl : mask = srZ := BitVec.eq_of_toNat_eq hmask
      exact has_copy h eq_lt 2 _
    case h_4 hmask =>
      obtain rfl : mask = srN := BitVec.eq_of_toNat_eq hmask
      exact has_copy h mi_lt 3 _
    case h_5 hc hv hz hn =>
      rw [if_neg (ne_of_toNat hc), if_neg (ne_of_toNat hv), if_neg (ne_of_toNat hz),
        if_neg (ne_of_toNat hn)]
      exact has_skip _ _
  split
  case isTrue =>
    refine ⟨Computes.append ?_ (copyNZ_computes h), rfl⟩
    split
    · exact hclear
    · exact .nil
  split
  case isTrue => exact ⟨hclear.append (orrCsel_computes h (by decide)), rfl⟩
  split
  case isTrue => exact ⟨hclear.append (orrCsel_computes h (by decide)), rfl⟩
  case isFalse => exact has_skip _ _

def nzxx (mask : Mask) : Effect :=
  if mask = 0 then .skip mask
  else if popcount mask = 1 then
    if mask = srZ then .copy ccEQ 2
    else if mask = srN then .copy ccMI 3
    else .skip mask
  else ⟨nzU, mask &&& 0x13⟩

theorem emitGetNZxx_has (h : Allocated cc tmp) (mask : Mask) :
    (emitGetNZxx cc tmp mask).Has cc (nzxx mask) := by
  unfold emitGetNZxx nzxx
  dsimp only
  split
  case isTrue => exact has_skip _ _
  split
  case isTrue =>
    split
    case h_1 hmask =>
      obtain rfl : mask = srZ := BitVec.eq_of_toNat_eq hmask
      exact has_copy h eq_lt 2 _
    case h_2 hmask =>
      obtain rfl : mask = srN := BitVec.eq_of_toNat_eq hmask
      exact has_copy h mi_lt 3 _
    case h_3 hz hn =>
      rw [if_neg (ne_of_toNat hz), if_neg (ne_of_toNat hn)]
      exact has_skip _ _
  case isFalse => exact ⟨copyNZ_computes h, rfl⟩

def one (carry : Cond) (withX : Bool) (mask : Mask) : Effect :=
  if mask = srC then .copy carry 1
  else if mask = srV then .copy ccVS 0
  else if mask = srZ then .copy ccEQ 2
  else if mask = srN then .copy ccMI 3
  else if mask = srX ∧ withX = true then .copy carry 4
  else .skip mask

theorem copyOne_has (h : Allocated cc tmp) {carry : Cond} (hcarry : carry.toNat < 14)
    (withX : Bool) (mask hostFlags : Mask) :
    (copyOne cc tmp carry withX mask hostFlags).Has cc (one carry withX mask) := by
  unfold copyOne one
  split
  case h_1 hmask =>
    obtain rfl : mask = srC := BitVec.eq_of_toNat_eq hmask
    exact has_copy h hcarry 1 _
  case h_2 hmask =>
    obtain rfl : mask = srV := BitVec.eq_of_toNat_eq hmask
    exact has_copy h vs_lt 0 _
  case h_3 hmask =>
    obtain rfl : mask = srZ := BitVec.eq_of_toNat_eq hmask
    exact has_copy h eq_lt 2 _
  case h_4 hmask =>
    obtain rfl : mask = srN := BitVec.eq_of_toNat_eq hmask
    exact has_copy h mi_lt 3 _
  case h_5 hmask =>
    obtain rfl : mask = srX := BitVec.eq_of_toNat_eq hmask
    cases withX with
    | true => exact has_copy h hcarry 4 _
    | false => exact has_skip _ _
  case h_6 hc hv hz hn hx =>
    rw [if_neg (ne_of_toNat hc), if_neg (ne_of_toNat hv), if_neg (ne_of_toNat hz),
      if_neg (ne_of_toNat hn), if_neg fun hmask ↦ ne_of_toNat hx hmask.1]
    exact has_skip _ _

/-- The helpers without X. -/
def nzcv (carry : Cond) (inverted : Bool) (mask : Mask) : Effect :=
  if mask = 0 then .skip mask
  else if popcount mask = 1 then (one carry false mask).clearRest
  else Effect.clearRest ⟨nibbleU (inverted && decide (mask &&& srC ≠ 0)), mask &&& srX⟩

/-- The helpers with X. -/
def nzcvx (carry : Cond) (inverted : Bool) (mask : Mask) : Effect :=
  if mask = 0 then .skip mask
  else if popcount mask = 1 then (one carry true mask).clearRest
  else if popcount mask > 2 then
    Effect.clearRest
      ⟨fun f ↦ (nibbleU (inverted && decide (mask &&& srXC ≠ 0)) f).andThen
        (if mask &&& srX ≠ 0 then copyU (carry.holds f) 4 else .id), 0⟩
  else Effect.clearRest (.skip mask)

theorem emitGetNZCV_has (h : Allocated cc tmp) (h2 : Allocated cc tmp2) (mask : Mask) :
    (emitGetNZCV cc tmp tmp2 mask).Has cc (nzcv ccCS false mask) := by
  unfold emitGetNZCV nzcv
  split
  · exact has_skip _ _
  split
  · exact (copyOne_has h (by decide) false mask _).clearRest h2
  · exact Transfer.Has.clearRest h2 ⟨nibble_computes h, rfl⟩

theorem emitGetNZnCV_has (h : Allocated cc tmp) (h2 : Allocated cc tmp2) (mask : Mask) :
    (emitGetNZnCV cc tmp tmp2 mask).Has cc (nzcv ccCC true mask) := by
  unfold emitGetNZnCV nzcv
  split
  · exact has_skip _ _
  split
  · exact (copyOne_has h (by decide) false mask _).clearRest h2
  · exact Transfer.Has.clearRest h2 ⟨nibble_invert_computes h _, rfl⟩

theorem copyX_computes (h : Allocated cc tmp) {carry : Cond} (hcarry : carry.toNat < 14)
    (condition : Prop) [Decidable condition] :
    Computes cc (if condition then copyCond cc tmp carry 4 else [])
      fun f ↦ if condition then copyU (carry.holds f) 4 else .id := by
  split
  · exact copyCond_computes h hcarry 4
  · exact .nil

theorem emitGetNZCVX_has (h : Allocated cc tmp) (h2 : Allocated cc tmp2) (mask : Mask) :
    (emitGetNZCVX cc tmp tmp2 mask).Has cc (nzcvx ccCS false mask) := by
  unfold emitGetNZCVX nzcvx
  split
  · exact has_skip _ _
  split
  · exact (copyOne_has h (by decide) true mask _).clearRest h2
  split
  · exact Transfer.Has.clearRest h2
      ⟨(nibble_computes h).append (copyX_computes h (by decide) _), rfl⟩
  · exact (has_skip _ _).clearRest h2

theorem emitGetNZnCVX_has (h : Allocated cc tmp) (h2 : Allocated cc tmp2) (mask : Mask) :
    (emitGetNZnCVX cc tmp tmp2 mask).Has cc (nzcvx ccCC true mask) := by
  unfold emitGetNZnCVX nzcvx
  split
  · exact has_skip _ _
  split
  · exact (copyOne_has h (by decide) true mask _).clearRest h2
  split
  · exact Transfer.Has.clearRest h2
      ⟨(nibble_invert_computes h _).append (copyX_computes h (by decide) _), rfl⟩
  · exact (has_skip _ _).clearRest h2

/-! ### The effect of a caller's flag code -/

def setIfU (condition : Prop) [Decidable condition] (u : FlagUpdate) : FlagUpdate :=
  if condition then u else .id

def restNZU (rest : Mask) (f : Nzcv) : FlagUpdate :=
  (setIfU (rest &&& srZ ≠ 0) (setU srZ (ccEQ.holds f))).andThen
    (setIfU (rest &&& srN ≠ 0) (setU srN (ccMI.holds f)))

def restXNZVCU (carry : Cond) (rest : Mask) (f : Nzcv) : FlagUpdate :=
  ((restNZU rest f).andThen (setIfU (rest &&& srV ≠ 0) (setU srValt (ccVS.holds f)))).andThen
    (setIfU (rest &&& srXC ≠ 0)
      (setU (if rest &&& srXC = srX then srX else if rest &&& srXC = srC then srCalt
        else srCalt ||| srX) (carry.holds f)))

theorem restNZ_computes (h : Allocated cc tmp) (rest : Mask) :
    Computes cc (restNZ cc tmp rest) (restNZU rest) :=
  (emitSetFlagsConditional_computes h (by decide) ccEQ).setIf.append
    (emitSetFlagsConditional_computes h (by decide) ccMI).setIf

theorem restXNZVC_computes (h : Allocated cc tmp) (carry : Cond) (rest : Mask) :
    Computes cc (restXNZVC cc tmp carry rest) (restXNZVCU carry rest) := by
  refine ((restNZ_computes h rest).append
    (emitSetFlagsConditional_computes h (by decide) ccVS).setIf).append (.setIf ?_)
  split
  · exact emitSetFlagsConditional_computes h (by decide) carry
  split
  · exact emitSetFlagsConditional_computes h (by decide) carry
  · exact emitSetFlagsConditional_computes h (by decide) carry

/-- The update of the whole flag code. -/
def Caller.update (mask : Mask) (f : Nzcv) : Caller → FlagUpdate
  | .logic => ((nz00 mask).update f).andThen (restNZU (nz00 mask).notDone f)
  | .divide => ((nzxx mask).update f).andThen (restNZU (nzxx mask).notDone f)
  | .add =>
    let e := if mask &&& srX ≠ 0 then nzcvx ccCS false mask else nzcv ccCS false mask
    (e.update f).andThen (restXNZVCU ccCS e.notDone f)
  | .sub =>
    let e := if mask &&& srX ≠ 0 then nzcvx ccCC true mask else nzcv ccCC true mask
    (e.update f).andThen (restXNZVCU ccCC e.notDone f)
  | .neg =>
    let e := if mask &&& srX ≠ 0 then nzcvx ccCC true mask else nzcv ccCC true mask
    (e.update f).andThen (restXNZVCU ccNE e.notDone f)
  | .cmp =>
    let e := nzcv ccCC true mask
    (((e.update f).andThen (restNZU e.notDone f)).andThen
      (setIfU (e.notDone &&& srV ≠ 0) (setU srValt (ccVS.holds f)))).andThen
      (setIfU (e.notDone &&& srC ≠ 0) (setU srCalt (ccCC.holds f)))

theorem getInverted_has (h : Allocated cc tmp) (h2 : Allocated cc tmp2) (mask : Mask) :
    Transfer.Has cc
      (if mask &&& srX ≠ 0 then emitGetNZnCVX cc tmp tmp2 mask else emitGetNZnCV cc tmp tmp2 mask)
      (if mask &&& srX ≠ 0 then nzcvx ccCC true mask else nzcv ccCC true mask) := by
  split
  · exact emitGetNZnCVX_has h h2 mask
  · exact emitGetNZnCV_has h h2 mask

theorem emitFlags_computes (h : Allocated cc tmp) (h2 : Allocated cc tmp2) (mask : Mask)
    (caller : Caller) :
    Computes cc (caller.emitFlags cc tmp tmp2 mask) fun f ↦ caller.update mask f := by
  cases caller with
  | logic =>
    obtain ⟨hcode, hrest⟩ := emitGetNZ00_has h mask
    dsimp only [Caller.emitFlags, Caller.update]
    rw [hrest]
    exact hcode.append (restNZ_computes h _)
  | divide =>
    obtain ⟨hcode, hrest⟩ := emitGetNZxx_has h mask
    dsimp only [Caller.emitFlags, Caller.update]
    rw [hrest]
    exact hcode.append (restNZ_computes h _)
  | add =>
    have hhas : Transfer.Has cc
        (if mask &&& srX ≠ 0 then emitGetNZCVX cc tmp tmp2 mask else emitGetNZCV cc tmp tmp2 mask)
        (if mask &&& srX ≠ 0 then nzcvx ccCS false mask else nzcv ccCS false mask) := by
      split
      · exact emitGetNZCVX_has h h2 mask
      · exact emitGetNZCV_has h h2 mask
    dsimp only [Caller.emitFlags, Caller.update]
    rw [hhas.notDone_eq]
    exact hhas.computes.append (restXNZVC_computes h _ _)
  | sub =>
    have hhas := getInverted_has h h2 mask
    dsimp only [Caller.emitFlags, Caller.update]
    rw [hhas.notDone_eq]
    exact hhas.computes.append (restXNZVC_computes h _ _)
  | neg =>
    have hhas := getInverted_has h h2 mask
    dsimp only [Caller.emitFlags, Caller.update]
    rw [hhas.notDone_eq]
    exact hhas.computes.append (restXNZVC_computes h _ _)
  | cmp =>
    obtain ⟨hcode, hrest⟩ := emitGetNZnCV_has h h2 mask
    dsimp only [Caller.emitFlags, Caller.update]
    rw [hrest]
    exact ((hcode.append (restNZ_computes h _)).append
      (emitSetFlagsConditional_computes h (by decide) ccVS).setIf).append
      (emitSetFlagsConditional_computes h (by decide) ccCC).setIf

/-! ### The requested flags -/

inductive Flag where
  | x
  | n
  | z
  | v
  | c
deriving DecidableEq

instance : Fintype Flag where
  elems := {.x, .n, .z, .v, .c}
  complete flag := by cases flag <;> decide

/-- The flag in an update mask. -/
def Flag.mask : Flag → Mask
  | .x => srX
  | .n => srN
  | .z => srZ
  | .v => srV
  | .c => srC

/-- The place of the flag in the condition codes. -/
def Flag.bit : Flag → ℕ
  | .x => 4
  | .n => 3
  | .z => 2
  | .v => 0
  | .c => 1

/-- What the m68k instruction makes of a flag, from the flags that the host instruction left. -/
def Caller.value (f : Nzcv) (caller : Caller) : Flag → Bool
  | .n => f.n
  | .z => f.z
  | .v => match caller with
    | .logic | .divide => false
    | _ => f.v
  | .c | .x => match caller with
    | .logic | .divide => false
    | .add => f.c
    | _ => !f.c

/-- The flags that are this code's business: the logical instructions leave X alone, and the
divisions have their V and C from elsewhere. -/
def Caller.requested (mask : Mask) : Caller → Mask
  | .logic => mask &&& srNZVC
  | .divide => mask &&& srNZ
  | _ => mask

/-- The masks that reach the helpers. -/
def Caller.passes (mask : Mask) : Caller → Bool
  | .logic => mask ≠ 0 && mask.toNat < 32 && (mask &&& srX = 0 || mask &&& srNZ ≠ 0)
  | .divide => mask &&& srNZ ≠ 0 && mask.toNat < 16
  | .cmp => mask ≠ 0 && mask.toNat < 16
  | _ => mask ≠ 0 && mask.toNat < 32

structure TransferCorrect (caller : Caller) (mask : Mask) (f : Nzcv) (old new : BitVec 32) :
    Prop where
  requested : ∀ flag : Flag, flag.mask &&& caller.requested mask ≠ 0 →
    new.getLsbD flag.bit = caller.value f flag
  rest : ∀ i, 5 ≤ i → new.getLsbD i = old.getLsbD i

/-- The sum of LE and MI tells Z and N apart only for these flags. -/
def nzFits (f : Nzcv) : Bool := if f.n then !f.z && !f.v else f.z || !f.v

/-- The host flags for which the code is right, unless just V and C are asked for. -/
def Caller.fits (mask : Mask) (f : Nzcv) : Caller → Bool
  | .logic => mask &&& srNZ ≠ srNZ || nzFits f
  | .divide => popcount mask < 2 ||
    (mask &&& srZ = 0 || nzFits f) && (mask &&& srN = 0 || !f.n || f.z || !f.v)
  | .neg => mask &&& srX = 0 || popcount mask ≠ 2 || f.z == f.c
  | _ => true

/-- The helper for V and C alone emits nothing. -/
def Caller.dropsVC (caller : Caller) (mask : Mask) : Bool := caller = .logic && mask = srVC

theorem update_rest (caller : Caller) : ∀ mask, caller.passes mask = true → ∀ n z c v : Bool,
    (caller.update mask ⟨n, z, c, v⟩).keep ||| 0x1f#32 = BitVec.allOnes 32 ∧
      (caller.update mask ⟨n, z, c, v⟩).set &&& ~~~0x1f#32 = 0 := by
  cases caller <;> decide +kernel

theorem update_requested (caller : Caller) : ∀ mask, caller.passes mask = true →
    caller.dropsVC mask = false → ∀ n z c v : Bool,
    (∀ flag : Flag, flag.mask &&& caller.requested mask ≠ 0 →
      (caller.update mask ⟨n, z, c, v⟩).keep.getLsbD flag.bit = false) ∧
    ((∀ flag : Flag, flag.mask &&& caller.requested mask ≠ 0 →
      (caller.update mask ⟨n, z, c, v⟩).set.getLsbD flag.bit =
        caller.value ⟨n, z, c, v⟩ flag) ↔ caller.fits mask ⟨n, z, c, v⟩ = true) := by
  cases caller <;> decide +kernel

theorem FlagUpdate.apply_bit (u : FlagUpdate) (x : BitVec 32) (i : ℕ) :
    (u.apply x).getLsbD i = (x.getLsbD i && u.keep.getLsbD i || u.set.getLsbD i) := by
  rw [FlagUpdate.apply, BitVec.getLsbD_or, BitVec.getLsbD_and]

/-- Beyond the five flags everything is kept. -/
theorem apply_rest {u : FlagUpdate} (hkeep : u.keep ||| 0x1f#32 = BitVec.allOnes 32)
    (hset : u.set &&& ~~~0x1f#32 = 0) (x : BitVec 32) {i : ℕ} (hi : 5 ≤ i) :
    (u.apply x).getLsbD i = x.getLsbD i := by
  rw [FlagUpdate.apply_bit]
  rcases Nat.lt_or_ge i 32 with hlt | hge
  · have hlow : (0x1f#32).getLsbD i = false := by
      interval_cases i <;> rfl
    have hk := congrArg (BitVec.getLsbD · i) hkeep
    have hs := congrArg (BitVec.getLsbD · i) hset
    simp only [BitVec.getLsbD_or, BitVec.getLsbD_and, BitVec.getLsbD_not, BitVec.getLsbD_allOnes,
      hlow, hlt, decide_true, Bool.or_false, Bool.not_false, Bool.and_true] at hk hs
    rw [hk, hs, Bool.and_true]
    simp
  · simp only [BitVec.getLsbD_of_ge _ _ hge, Bool.false_and, Bool.or_false]

theorem dropsVC_update {caller : Caller} {mask : Mask} (h : caller.dropsVC mask = true)
    (f : Nzcv) (x : BitVec 32) : (caller.update mask f).apply x = x := by
  obtain ⟨rfl, rfl⟩ : caller = .logic ∧ mask = srVC := by simpa [Caller.dropsVC] using h
  have hid : ∀ n z c v : Bool, Caller.update srVC ⟨n, z, c, v⟩ .logic = FlagUpdate.id := by
    decide +kernel
  rw [hid f.n f.z f.c f.v, FlagUpdate.apply_id]

theorem transferCorrect_iff {caller : Caller} {mask : Mask} (hmask : caller.passes mask = true)
    (f : Nzcv) (x : BitVec 32) :
    TransferCorrect caller mask f x ((caller.update mask f).apply x) ↔
      if caller.dropsVC mask then x.getLsbD Flag.v.bit = false ∧ x.getLsbD Flag.c.bit = false
      else caller.fits mask f = true := by
  obtain ⟨hkeep, hset⟩ := update_rest caller mask hmask f.n f.z f.c f.v
  have hrest : ∀ i, 5 ≤ i → ((caller.update mask f).apply x).getLsbD i = x.getLsbD i :=
    fun i hi ↦ apply_rest hkeep hset x hi
  cases hdrops : caller.dropsVC mask with
  | true =>
    have hid := dropsVC_update hdrops f x
    obtain ⟨rfl, rfl⟩ : caller = .logic ∧ mask = srVC := by
      simpa [Caller.dropsVC] using hdrops
    rw [if_pos rfl, hid]
    constructor
    · rintro ⟨hrequested, -⟩
      exact ⟨hrequested .v (by decide), hrequested .c (by decide)⟩
    · rintro ⟨hv, hc⟩
      refine ⟨fun flag hflag ↦ ?_, fun _ _ ↦ rfl⟩
      cases flag with
      | v => exact hv
      | c => exact hc
      | x => exact absurd rfl hflag
      | n => exact absurd rfl hflag
      | z => exact absurd rfl hflag
  | false =>
    obtain ⟨hcleared, hfits⟩ := update_requested caller mask hmask hdrops f.n f.z f.c f.v
    rw [if_neg Bool.false_ne_true, ← hfits]
    have hbit : ∀ flag : Flag, flag.mask &&& caller.requested mask ≠ 0 →
        ((caller.update mask f).apply x).getLsbD flag.bit =
          (caller.update mask f).set.getLsbD flag.bit := by
      intro flag hflag
      rw [FlagUpdate.apply_bit, show (caller.update mask f).keep.getLsbD flag.bit = false from
        hcleared flag hflag, Bool.and_false, Bool.false_or]
    constructor
    · rintro ⟨hrequested, -⟩ flag hflag
      exact (hbit flag hflag).symm.trans (hrequested flag hflag)
    · intro hvalues
      exact ⟨fun flag hflag ↦ (hbit flag hflag).trans (hvalues flag hflag), hrest⟩

/-- A machine with the condition codes in register 0. -/
def ccCpu (cc : BitVec 32) (f : Nzcv) : Cpu :=
  ⟨Function.update (fun _ ↦ 0) 0 cc, f, fun _ ↦ 0, fun _ ↦ 0⟩

/-- The host flags that the instructions before the flag code leave: a logical operation or a
comparison with zero has no overflow, the remainder of a division likewise, and a number that is
subtracted from zero borrows unless it is zero. -/
def Caller.hostFlags (f : Nzcv) : Caller → Prop
  | .logic | .divide => f.v = false ∧ (f.n && f.z) = false
  | .neg => f.z = f.c
  | _ => True

/-- With the flags of its own host instruction every caller fits. -/
theorem fits_of_hostFlags {caller : Caller} {f : Nzcv} (h : caller.hostFlags f) (mask : Mask) :
    caller.fits mask f = true := by
  obtain ⟨n, z, c, v⟩ := f
  cases caller with
  | logic =>
    obtain ⟨rfl, hnz⟩ := h
    cases n <;> cases z <;> simp_all [Caller.fits, nzFits]
  | divide =>
    obtain ⟨rfl, hnz⟩ := h
    cases n <;> cases z <;> simp_all [Caller.fits, nzFits]
  | neg =>
    obtain rfl : z = c := h
    simp [Caller.fits]
  | add => rfl
  | sub => rfl
  | cmp => rfl

end Emu68.A64
