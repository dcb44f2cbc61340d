import Emu68.Lib.RecentEntries
import Emu68.Ppc.ReturnStack
import Mathlib.Logic.Function.Basic

/-!
The return stack of `M68k_Translator.c`: the array `ReturnStack` with the number of its entries.
An access outside the array has no result. What the array holds is a list of at most 32 entries,
the most recent ones of an unlimited stack.
-/

set_option autoImplicit false
set_option relaxedAutoImplicit false

namespace Emu68.M68k

open Lib
open Ppc (rtstackSize)

/-- `EMU68_USE_RETURN_STACK`. -/
def emu68UseReturnStack : Bool := true

structure ReturnArray where
  returnStack : ℕ → Ppc.CodePtr
  returnStackDepth : BitVec 16

/-- What `M68K_PopReturnAddress` returns, and what it stores through its argument. -/
structure Popped where
  ptr : Ppc.CodePtr
  success : Bool
deriving DecidableEq

namespace ReturnArray

def read (s : ReturnArray) (i : ℕ) : Option Ppc.CodePtr :=
  if i < rtstackSize then some (s.returnStack i) else none

def write (s : ReturnArray) (i : ℕ) (ptr : Ppc.CodePtr) : Option ReturnArray :=
  if i < rtstackSize then some { s with returnStack := Function.update s.returnStack i ptr }
  else none

/-- `ReturnStack[i-1] = ReturnStack[i]`. -/
def moveDown (s : ReturnArray) (i : ℕ) : Option ReturnArray :=
  (s.read i).bind fun ptr ↦ s.write (i - 1) ptr

/-- A full array loses its oldest entry. -/
def makeRoom (s : ReturnArray) : Option ReturnArray :=
  if rtstackSize ≤ s.returnStackDepth.toNat then
    ((List.range' 1 (rtstackSize - 1)).foldlM moveDown s).map fun s ↦
      { s with returnStackDepth := s.returnStackDepth - 1 }
  else some s

def m68kPushReturnAddress (s : ReturnArray) (retAddr : Ppc.CodePtr) : Option ReturnArray :=
  s.makeRoom.bind fun s ↦
    (s.write s.returnStackDepth.toNat retAddr).map fun s ↦
      { s with returnStackDepth := s.returnStackDepth + 1 }

def m68kPopReturnAddress (s : ReturnArray) : Option (ReturnArray × Popped) :=
  if emu68UseReturnStack = true ∧ 0 < s.returnStackDepth then
    let s := { s with returnStackDepth := s.returnStackDepth - 1 }
    (s.read s.returnStackDepth.toNat).map fun ptr ↦ (s, ⟨ptr, true⟩)
  else some (s, ⟨0xffffffff, false⟩)

def m68kResetReturnStack (s : ReturnArray) : ReturnArray := { s with returnStackDepth := 0 }

/-! ### The array and the list of its entries -/

/-- The entries, from the top on, are those below the depth. -/
structure Holds (s : ReturnArray) (entries : List Ppc.CodePtr) : Prop where
  depth : s.returnStackDepth.toNat = entries.length
  fits : entries.length ≤ rtstackSize
  entry : ∀ i < entries.length, entries.reverse[i]? = some (s.returnStack i)

theorem holds_reset (s : ReturnArray) : s.m68kResetReturnStack.Holds [] where
  depth := rfl
  fits := Nat.zero_le _
  entry := fun _ hi ↦ absurd hi (Nat.not_lt_zero _)

/-- The loop has moved the entries below `k` down by one. -/
theorem moveDown_run (s : ReturnArray) {k : ℕ} (hk : k < rtstackSize) :
    (List.range' 1 k).foldlM moveDown s = some
      { s with returnStack := fun i ↦ if i < k then s.returnStack (i + 1) else s.returnStack i } := by
  induction k with
  | zero => rfl
  | succ k ih =>
    rw [List.range'_1_concat, List.foldlM_append, ih (by omega)]
    have hmove : moveDown { s with returnStack := fun i ↦
        if i < k then s.returnStack (i + 1) else s.returnStack i } (1 + k) = some
        { s with returnStack := fun i ↦
          if i < k + 1 then s.returnStack (i + 1) else s.returnStack i } := by
      unfold moveDown read write
      rw [if_pos (by omega), Option.bind_some, Nat.add_sub_cancel_left, if_pos (by omega)]
      congr 2
      funext i
      dsimp only
      by_cases hi : i = k
      · subst hi
        rw [Function.update_self, if_neg (by omega), if_pos (Nat.lt_succ_self _), Nat.add_comm]
      · rw [Function.update_of_ne hi]
        by_cases hlt : i < k
        · rw [if_pos hlt, if_pos (by omega)]
        · rw [if_neg hlt, if_neg (by omega)]
    rw [Option.bind_eq_bind, Option.bind_some, List.foldlM_cons, hmove]
    rfl

/-- After making room the entries are those that fit below one more. -/
theorem makeRoom_holds {s : ReturnArray} {entries : List Ppc.CodePtr} (h : s.Holds entries) :
    ∃ s', s.makeRoom = some s' ∧ s'.Holds (entries.take (rtstackSize - 1)) := by
  obtain ⟨hdepth, hfits, hentry⟩ := h
  unfold makeRoom
  by_cases hfull : rtstackSize ≤ s.returnStackDepth.toNat
  · have hlength : entries.length = rtstackSize := by omega
    have htake : (entries.take (rtstackSize - 1)).length = rtstackSize - 1 := by
      rw [List.length_take]
      omega
    rw [if_pos hfull, moveDown_run s (by decide), Option.map_some]
    refine ⟨_, rfl, ?_, by omega, ?_⟩
    · have hone : (1 : BitVec 16).toNat ≤ s.returnStackDepth.toNat := by
        have hsize : (1 : BitVec 16).toNat ≤ rtstackSize := by decide
        omega
      rw [BitVec.toNat_sub_of_le hone, htake]
      have : (1 : BitVec 16).toNat = 1 := rfl
      omega
    · intro i hi
      rw [htake] at hi
      dsimp only
      rw [if_pos hi, ← hentry (i + 1) (by omega), List.reverse_take,
        List.getElem?_drop]
      congr 1
      omega
  · have hshort : entries.take (rtstackSize - 1) = entries := List.take_of_length_le (by omega)
    rw [if_neg hfull, hshort]
    exact ⟨s, rfl, hdepth, hfits, hentry⟩

/-- Pushing on the array is pushing on the list. -/
theorem push_holds {s : ReturnArray} {entries : List Ppc.CodePtr} (h : s.Holds entries)
    (retAddr : Ppc.CodePtr) :
    ∃ s', s.m68kPushReturnAddress retAddr = some s' ∧
      s'.Holds ((retAddr :: entries).take rtstackSize) := by
  obtain ⟨room, hroom, hdepth, hfits, hentry⟩ := makeRoom_holds h
  have hlength : (entries.take (rtstackSize - 1)).length ≤ rtstackSize - 1 := List.length_take_le _ _
  have hlt : room.returnStackDepth.toNat < rtstackSize := by
    have : 0 < rtstackSize := by decide
    omega
  have htake : (retAddr :: entries).take rtstackSize =
      retAddr :: entries.take (rtstackSize - 1) := rfl
  unfold m68kPushReturnAddress
  rw [hroom, Option.bind_some, write, if_pos hlt, Option.map_some, htake]
  refine ⟨_, rfl, ?_, ?_, ?_⟩
  · show (room.returnStackDepth + 1).toNat = _
    have hsize : rtstackSize = 32 := rfl
    rw [BitVec.toNat_add, List.length_cons, ← hdepth]
    exact Nat.mod_eq_of_lt (by
      have : (1 : BitVec 16).toNat = 1 := rfl
      omega)
  · rw [List.length_cons]
    omega
  · intro i hi
    rw [List.length_cons] at hi
    dsimp only
    rw [List.reverse_cons]
    by_cases hlast : i = room.returnStackDepth.toNat
    · rw [hlast, Function.update_self, List.getElem?_append_right (by
        rw [List.length_reverse, hdepth]), List.length_reverse, hdepth, Nat.sub_self]
      rfl
    · rw [Function.update_of_ne hlast, List.getElem?_append_left (by
        rw [List.length_reverse]
        omega)]
      exact hentry i (by omega)

/-- What a pop answers when the entry on the top is known. -/
def answer : Option Ppc.CodePtr → Popped
  | some ptr => ⟨ptr, true⟩
  | none => ⟨0xffffffff, false⟩

/-- Popping from the array is popping from the list. -/
theorem pop_holds {s : ReturnArray} {entries : List Ppc.CodePtr} (h : s.Holds entries) :
    ∃ s', s.m68kPopReturnAddress = some (s', answer entries.head?) ∧ s'.Holds entries.tail := by
  obtain ⟨hdepth, hfits, hentry⟩ := h
  unfold m68kPopReturnAddress
  cases entries with
  | nil =>
    have hzero : ¬ (emu68UseReturnStack = true ∧ 0 < s.returnStackDepth) := by
      rintro ⟨-, hpos⟩
      rw [BitVec.lt_def, hdepth] at hpos
      exact absurd hpos (Nat.lt_irrefl _)
    rw [if_neg hzero]
    exact ⟨s, rfl, hdepth, hfits, hentry⟩
  | cons top rest =>
    rw [List.length_cons] at hdepth hfits hentry
    have hpos : 0 < s.returnStackDepth := by
      rw [BitVec.lt_def, hdepth]
      exact Nat.succ_pos _
    have hpopped : (s.returnStackDepth - 1).toNat = rest.length := by
      have hone : (1 : BitVec 16).toNat ≤ s.returnStackDepth.toNat := by
        have : (1 : BitVec 16).toNat = 1 := rfl
        omega
      rw [BitVec.toNat_sub_of_le hone, hdepth]
      rfl
    have htop := hentry rest.length (Nat.lt_succ_self _)
    rw [List.reverse_cons, List.getElem?_append_right (by rw [List.length_reverse]),
      List.length_reverse, Nat.sub_self, List.getElem?_cons_zero, Option.some_inj] at htop
    rw [if_pos ⟨rfl, hpos⟩]
    dsimp only
    rw [read, hpopped, if_pos (by omega), Option.map_some, ← htop]
    refine ⟨_, rfl, hpopped, Nat.le_of_succ_le hfits, ?_⟩
    intro i hi
    rw [List.tail_cons] at hi ⊢
    dsimp only
    rw [← hentry i (by omega), List.reverse_cons, List.getElem?_append_left (by
      rw [List.length_reverse]
      exact hi)]

/-! ### Runs -/

inductive Call where
  | pushReturnAddress (retAddr : Ppc.CodePtr)
  | popReturnAddress
  | resetReturnStack

/-- The answers of the pops in a run of calls; no result after an access outside the array. -/
def run (s : ReturnArray) : List Call → Option (List Popped)
  | [] => some []
  | .pushReturnAddress retAddr :: calls => (s.m68kPushReturnAddress retAddr).bind fun s ↦ s.run calls
  | .popReturnAddress :: calls =>
    s.m68kPopReturnAddress.bind fun r ↦ (r.1.run calls).map fun answers ↦ r.2 :: answers
  | .resetReturnStack :: calls => s.m68kResetReturnStack.run calls

/-- The answers of an unlimited stack whose 32 most recent entries are retained. -/
def predictions (s : RecentEntries Ppc.CodePtr) : List Call → List Popped
  | [] => []
  | .pushReturnAddress retAddr :: calls => predictions (s.push rtstackSize retAddr) calls
  | .popReturnAddress :: calls => answer s.pop.1 :: predictions s.pop.2 calls
  | .resetReturnStack :: calls => predictions .reset calls

theorem run_of_holds (calls : List Call) {s : ReturnArray} {ideal : RecentEntries Ppc.CodePtr}
    (h : s.Holds ideal.contents) : s.run calls = some (predictions ideal calls) := by
  induction calls generalizing s ideal with
  | nil => rfl
  | cons call calls ih =>
    cases call with
    | pushReturnAddress retAddr =>
      obtain ⟨s', hpush, hs'⟩ := push_holds h retAddr
      rw [← RecentEntries.contents_push (by decide)] at hs'
      unfold run predictions
      rw [hpush, Option.bind_some]
      exact ih hs'
    | popReturnAddress =>
      obtain ⟨s', hpop, hs'⟩ := pop_holds h
      rw [← RecentEntries.contents_pop] at hs'
      unfold run predictions
      rw [hpop, Option.bind_some, ih hs', Option.map_some, RecentEntries.pop_fst]
    | resetReturnStack => exact ih (holds_reset s)

/-- Every run on an empty array answers as the unlimited stack does, and stays in the array. -/
theorem run_eq_predictions (returnStack : ℕ → Ppc.CodePtr) (calls : List Call) :
    run ⟨returnStack, 0⟩ calls = some (predictions .reset calls) :=
  run_of_holds calls (holds_reset ⟨returnStack, 0⟩)

/-- The oldest of 33 entries is forgotten, and its pop has no answer. -/
example : (predictions .reset ((List.range 33).map (fun i ↦ .pushReturnAddress (BitVec.ofNat 64 i)) ++
    List.replicate 33 .popReturnAddress)).getLast? = some (answer none) := by
  decide +kernel

end ReturnArray

end Emu68.M68k
