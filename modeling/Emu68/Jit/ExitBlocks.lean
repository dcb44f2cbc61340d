import Emu68.A64.Encoding

/-!
Exit blocks of `M68K_Translate`. An emitter leaves the code of a rare path behind the code of its
instruction, followed by a record of raw words and a marker. The translation loop takes such a
block out of the stream; after the epilogue the blocks are appended in order, and the branches that
lead to them are patched. The code buffer is the list of words from `tc_CodeStart` to `tc_CodePtr`,
and code pointers are indices into it.
-/

set_option autoImplicit false
set_option relaxedAutoImplicit false

namespace Emu68.Jit

open A64

def fixupBCC : Word := 0x00000bcc

def fixupTBZ : Word := 0x00000036

def markerExitBlock : Word := 0xffffaa55

def markerDoubleExit : Word := 0xffffaa56

def markerStop : Word := 0xffffffff

def markerBreak : Word := 0xfffffff1

/-- The unnamed marker of code that has saved the link register. -/
def markerSavedLR : Word := 0xfffffff0

inductive ExitBlock where
  | exitBlock (ebFixupType : Word) (ebFixupLocation : ℕ) (ebARMCode : List Word)
  | doubleExitBlock (ebFixup1Type : Word) (ebFixup1Location : ℕ) (ebFixup2Type : Word)
      (ebFixup2Location : ℕ) (ebARMCode : List Word)
deriving DecidableEq

structure TranslatorState where
  code : List Word
  exitList : List ExitBlock
  lrIsSaved : Bool
  breakLoop : Bool
  softBreak : Bool
deriving DecidableEq

/-! ### Taking the blocks out -/

/-- `tc_CodePtr[-1]` is the marker. -/
def EndsWith (code : List Word) (marker : Word) : Prop := code.getLast? = some (I32 marker)

instance (code : List Word) (marker : Word) : Decidable (EndsWith code marker) :=
  inferInstanceAs (Decidable (_ = _))

/-- A marker at the end is removed and noted. -/
def takeMarker (marker : Word) (note : TranslatorState → TranslatorState) (s : TranslatorState) :
    TranslatorState :=
  if EndsWith s.code marker then note { s with code := s.code.dropLast } else s

def takeMarkers (s : TranslatorState) : TranslatorState :=
  let s := takeMarker markerSavedLR (fun s ↦ { s with lrIsSaved := true }) s
  let s := takeMarker markerStop (fun s ↦ { s with breakLoop := true }) s
  takeMarker markerBreak (fun s ↦ { s with softBreak := true }) s

def takeExitBlock (s : TranslatorState) : TranslatorState :=
  if EndsWith s.code markerExitBlock then
    let ptr := s.code.length - 4
    let insnCount := (s.code.getD (ptr + 2) 0).toNat
    let fixupType := s.code.getD (ptr + 1) 0
    let fixupTarget := (s.code.getD ptr 0).toNat
    let block := .exitBlock fixupType (ptr - fixupTarget)
      ((s.code.drop (ptr - insnCount)).take insnCount)
    { s with code := s.code.take (ptr - insnCount), exitList := s.exitList ++ [block] }
  else s

def takeDoubleExit (s : TranslatorState) : TranslatorState :=
  if EndsWith s.code markerDoubleExit then
    let ptr := s.code.length - 6
    let insnCount := (s.code.getD (ptr + 4) 0).toNat
    let fixup2Type := s.code.getD (ptr + 3) 0
    let fixup2Target := (s.code.getD (ptr + 2) 0).toNat
    let fixup1Type := s.code.getD (ptr + 1) 0
    let fixup1Target := (s.code.getD ptr 0).toNat
    let block := .doubleExitBlock fixup1Type (ptr - fixup1Target) fixup2Type (ptr - fixup2Target)
      ((s.code.drop (ptr - insnCount)).take insnCount)
    { s with code := s.code.take (ptr - insnCount), exitList := s.exitList ++ [block] }
  else s

/-- One turn of the translation loop, for the words that `EmitINSN` appends. -/
def translateInsn (s : TranslatorState) (emitted : List Word) : TranslatorState :=
  takeDoubleExit (takeExitBlock (takeMarkers { s with code := s.code ++ emitted }))

/-! ### Placing them -/

/-- The branch at `location` is patched to lead to `oldEnd`. An unknown type is reported only. -/
def patchFixup (code : List Word) (fixupType : Word) (location oldEnd : ℕ) : List Word :=
  if fixupType = fixupBCC then
    code.set location
      (I32 (setOffset 0x7ffff (I32 (code.getD location 0)) (BitVec.ofNat 32 (oldEnd - location))))
  else if fixupType = fixupTBZ then
    code.set location
      (I32 (setOffset 0x3fff (I32 (code.getD location 0)) (BitVec.ofNat 32 (oldEnd - location))))
  else code

def placeExit (code : List Word) : ExitBlock → List Word
  | .exitBlock fixupType location body =>
    patchFixup (code ++ body) fixupType location code.length
  | .doubleExitBlock type1 location1 type2 location2 body =>
    patchFixup (patchFixup (code ++ body) type1 location1 code.length) type2 location2 code.length

/-- The words of a finished unit: what the prologue, the instructions and the epilogue emit, the
exit blocks, and the end marker. -/
def m68kTranslate (prologue : List Word) (insns : List (List Word)) (epilogue : List Word) :
    List Word :=
  let s := insns.foldl translateInsn ⟨prologue, [], false, false, false⟩
  s.exitList.foldl placeExit (s.code ++ epilogue) ++ [0xffffffff]

/-! ### What an instruction emits -/

inductive FixupKind where
  | bcc
  | tbz
deriving DecidableEq

def FixupKind.code : FixupKind → Word
  | .bcc => fixupBCC
  | .tbz => fixupTBZ

/-- The instruction word is a branch of the kind. -/
def FixupKind.Matches : FixupKind → Word → Prop
  | .bcc, word => IsBCc (I32 word)
  | .tbz, word => IsTbz (I32 word)

/-- The code of an exit: the given words and then the return of `EMIT_LocalExit`. -/
def exitCode (code : List Word) : List Word := code ++ [bxLr]

/-- The code that `EmitINSN` leaves for one instruction, with the code of its exit. A branch is
given by its index in `main`. -/
inductive Insn where
  | plain (main : List Word)
  | exit (main : List Word) (branch : ℕ) (kind : FixupKind) (code : List Word)
  | doubleExit (main : List Word) (branch1 : ℕ) (kind1 : FixupKind) (branch2 : ℕ)
      (kind2 : FixupKind) (code : List Word)

def Insn.main : Insn → List Word
  | .plain main => main
  | .exit main _ _ _ => main
  | .doubleExit main _ _ _ _ _ => main

def Insn.body : Insn → List Word
  | .plain _ => []
  | .exit _ _ _ code => exitCode code
  | .doubleExit _ _ _ _ _ code => exitCode code

def Insn.fixups : Insn → List (ℕ × FixupKind)
  | .plain _ => []
  | .exit _ branch kind _ => [(branch, kind)]
  | .doubleExit _ branch1 kind1 branch2 kind2 _ => [(branch1, kind1), (branch2, kind2)]

/-- The record behind the exit code: the distance from each branch to the end of the exit code,
the kind of each branch and the length of the exit code. -/
def Insn.record : Insn → List Word
  | .plain _ => []
  | .exit main branch kind code =>
    let exitCodeEnd := main.length + (exitCode code).length
    [BitVec.ofNat 32 (exitCodeEnd - branch), kind.code,
      BitVec.ofNat 32 (exitCodeEnd - main.length), I32 markerExitBlock]
  | .doubleExit main branch1 kind1 branch2 kind2 code =>
    let exitCodeEnd := main.length + (exitCode code).length
    [BitVec.ofNat 32 (exitCodeEnd - branch1), kind1.code,
      BitVec.ofNat 32 (exitCodeEnd - branch2), kind2.code,
      BitVec.ofNat 32 (exitCodeEnd - main.length), I32 markerDoubleExit]

/-- The markers behind the code and the record, in the order in which the loop expects them. -/
structure Marks where
  softBreak : Bool
  breakLoop : Bool
  savedLR : Bool

def markIf (present : Bool) (marker : Word) : List Word :=
  if present then [I32 marker] else []

def Marks.words (m : Marks) : List Word :=
  markIf m.softBreak markerBreak ++ markIf m.breakLoop markerStop ++
    markIf m.savedLR markerSavedLR

/-- All that `EmitINSN` appends for an instruction. -/
def Insn.words (insn : Insn) (marks : Marks) : List Word :=
  insn.main ++ insn.body ++ insn.record ++ marks.words

/-- No instruction has the ones of a marker in its upper half. -/
def IsCode (word : Word) : Prop := (I32 word).extractLsb' 16 16 ≠ 0xffff#16

/-- The main path ends in an instruction, and each branch of the record is on it and of the kind
that the record says. -/
structure Insn.WellFormed (insn : Insn) : Prop where
  code : ∀ word ∈ insn.main.getLast?, IsCode word
  branches : ∀ fixup ∈ insn.fixups,
    ∃ word, insn.main[fixup.1]? = some word ∧ fixup.2.Matches word
  distinct : (insn.fixups.map Prod.fst).Nodup

end Emu68.Jit
