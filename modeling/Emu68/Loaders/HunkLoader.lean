import Emu68.Lib.ByteMemory

/-!
The loader for AmigaOS load files (`HunkLoader.c`). A file is a list of words, read as big-endian
numbers. The memory is written big-endian too, as `EMU68_HOST_BIG_ENDIAN` has it, and host addresses
are numbers.
-/

set_option autoImplicit false
set_option relaxedAutoImplicit false

namespace Emu68.Hunk

open Lib (Bytes loadValue storeBytes byteOf)

abbrev File := ℕ → BitVec 32

variable (f : File)

/-- `BE32(words[w])`. -/
def word (w : ℕ) : ℕ := (f w).toNat

def load32 (m : Bytes) (a : ℕ) : ℕ := loadValue m a 4

def store32 (m : Bytes) (a value : ℕ) : Bytes := storeBytes m a 4 (byteOf 4 value)

def roundUp (n : ℕ) : ℕ := (n + 31) / 32 * 32

/-! ### The memory for the hunks -/

def firstToLoad : ℕ := word f 3

def lastToLoad : ℕ := word f 4

/-- `last_to_load - first_to_load + 1`. -/
def loadCount : ℕ := (lastToLoad f + 2 ^ 32 - firstToLoad f + 1) % 2 ^ 32

def headerValid : Bool := word f 0 = 0x3f3 && word f 1 = 0

/-- The bytes of a hunk's data, from its size without the memory flags. -/
def hunkSize (i : ℕ) : ℕ := 4 * (word f (5 + i) % 2 ^ 30)

def getHunkFileSize : ℕ :=
  if headerValid f then
    (List.range (loadCount f)).foldl (fun total i ↦
      (total + ((hunkSize f i + 8 + 16) % 2 ^ 32 + 31) % 2 ^ 32 / 32 * 32) % 2 ^ 32) 0
  else 0

/-- The memory and the variables while the hunks are allocated. -/
structure Pool where
  m : Bytes
  pool : ℕ
  hunks : Option ℕ
  prevhunk : Option ℕ

/-- One hunk: its `SegList` is cleared, gets its size, and the hunk before is linked to it. -/
def allocate (p virt : ℕ) (s : Pool) (i : ℕ) : Pool :=
  let size := hunkSize f i
  let h := s.pool
  let m := storeBytes s.m h (size + 8) fun _ ↦ 0
  let m := store32 (store32 m (h + 4) 0) h size
  { m := match s.prevhunk with
      | some prev => store32 m prev (h + 4 - p + virt)
      | none => m
    pool := h + roundUp (size + 8)
    hunks := some (s.hunks.getD h)
    prevhunk := some (h + 4) }

def allocateAll (m : Bytes) (p virt n : ℕ) : Pool :=
  (List.range n).foldl (allocate f p virt) ⟨m, p, none, none⟩

/-! ### The blocks -/

def copyWords (m : Bytes) (dst src : ℕ) : ℕ → Bytes
  | 0 => m
  | n + 1 => copyWords (store32 m dst (word f src)) (dst + 4) (src + 1) n

/-- The words that `DuffCopy` copies: its loop counts to zero from a number of rounds that is zero
for an empty copy. -/
def duffCount (count : ℕ) : ℕ :=
  let n := (count + 7) % 2 ^ 32 / 8
  8 * (if n = 0 then 2 ^ 32 else n) - (8 - count % 8) % 8

/-- The segments from the first one on, by their links. -/
def segment (m : Bytes) (hunks : ℕ) : ℕ → ℕ
  | 0 => hunks + 4
  | refcnt + 1 => load32 m (segment m hunks refcnt)

def relocateOffsets (base : ℕ) (refBase : ℤ) : ℕ → ℕ → Bytes → Bytes
  | 0, _, m => m
  | count + 1, w, m =>
    relocateOffsets base refBase count (w + 1) (store32 m (base + word f w)
      (((load32 m (base + word f w) : ℤ) + refBase) % 2 ^ 32).toNat)

/-- The loop over the groups of a relocation block, up to the word behind it. -/
def relocate (pcRelative skip : Bool) (p virt hunks base : ℕ) :
    ℕ → ℕ → Bytes → Option (ℕ × Bytes)
  | 0, _, _ => none
  | fuel + 1, w, m =>
    if word f w = 0 then some (w + 1, m)
    else
      let count := word f w
      if skip then relocate pcRelative skip p virt hunks base fuel (w + (2 + count) % 2 ^ 32) m
      else
        let segments : ℤ := segment m hunks (word f (w + 1))
        let refBase := if pcRelative then segments + 4 - base else segments + 4 + virt - p
        relocate pcRelative skip p virt hunks base fuel (w + 2 + count)
          (relocateOffsets f base refBase count (w + 2) m)

def skipSymbols : ℕ → ℕ → Option ℕ
  | 0, _ => none
  | fuel + 1, w =>
    if word f w = 0 then some (w + 1) else skipSymbols fuel (w + (word f w + 2) % 2 ^ 32)

structure Loading where
  m : Bytes
  w : ℕ
  h : ℕ
  currentBlock : ℕ

/-- One round of the loop over the blocks. -/
def readBlock (p virt hunks fuel : ℕ) (s : Loading) : Option Loading :=
  let skip : Bool := s.currentBlock < firstToLoad f
  let copied : Loading := { s with
    m := if skip then s.m else copyWords f s.m (s.h + 8) (s.w + 2) (duffCount (word f (s.w + 1)))
    w := s.w + (2 + word f (s.w + 1)) % 2 ^ 32 }
  if word f s.w = 0x3e9 then some copied
  else if word f s.w = 0x3ea then some copied
  else if word f s.w = 0x3eb then some { s with w := s.w + 2 }
  else if word f s.w = 0x3ec then
    (relocate f false skip p virt hunks (s.h + 8) fuel (s.w + 1) s.m).map fun (w, m) ↦
      { s with w := w, m := m }
  else if word f s.w = 0x3fd then
    (relocate f true skip p virt hunks (s.h + 8) fuel (s.w + 1) s.m).map fun (w, m) ↦
      { s with w := w, m := m }
  else if word f s.w = 0x3f0 then (skipSymbols f fuel (s.w + 1)).map fun w ↦ { s with w := w }
  else if word f s.w = 0x3f2 then
    some { s with
      w := s.w + 1
      currentBlock := (s.currentBlock + 1) % 2 ^ 32
      h := (load32 s.m (s.h + 4) + 2 ^ 64 - 4) % 2 ^ 64 }
  else some { s with w := s.w + (2 + word f (s.w + 1)) % 2 ^ 32 }

def loadLoop (p virt hunks : ℕ) : ℕ → Loading → Option Loading
  | 0, _ => none
  | fuel + 1, s => (readBlock f p virt hunks fuel s).bind fun s ↦
      if s.currentBlock ≤ lastToLoad f then loadLoop p virt hunks fuel s else some s

/-- `if (virt == NULL) virt = p`. -/
def virtualBase (p virt : ℕ) : ℕ := if virt = 0 then p else virt

/-- The memory after the file is loaded, and the first segment. -/
def loadHunkFile (fuel : ℕ) (m : Bytes) (p virt : ℕ) : Option (Bytes × ℕ) :=
  let virt := virtualBase p virt
  if headerValid f then
    let pool := allocateAll f m p virt (loadCount f)
    let hunks := pool.hunks.getD 0
    (loadLoop f p virt hunks fuel ⟨pool.m, 5 + loadCount f, hunks, 0⟩).map fun s ↦ (s.m, hunks + 4)
  else some (m, 0)

/-! ### Well-formed files -/

/-- The longs of one block that get the address of the same hunk. -/
structure Group where
  target : ℕ
  offsets : List ℕ

/-- The blocks; code and data blocks differ in their first word. -/
inductive Block where
  | data (isCode : Bool) (content : List ℕ)
  | bss (words : ℕ)
  | reloc (pcRelative : Bool) (groups : List Group)
  | symbols (entries : List (List ℕ × ℕ))

def Group.encode (g : Group) : List ℕ := g.offsets.length :: g.target :: g.offsets

def Block.encode : Block → List ℕ
  | .data isCode content => (if isCode then 0x3e9 else 0x3ea) :: content.length :: content
  | .bss words => [0x3eb, words]
  | .reloc pcRelative groups =>
    (if pcRelative then 0x3fd else 0x3ec) :: (groups.flatMap Group.encode ++ [0])
  | .symbols entries =>
    0x3f0 :: (entries.flatMap (fun e ↦ e.1.length :: (e.1 ++ [e.2])) ++ [0])

def encodeHunk (blocks : List Block) : List ℕ := blocks.flatMap Block.encode ++ [0x3f2]

/-- A load file: the sizes of the hunks that are loaded, and the blocks of all hunks. -/
structure HunkFile where
  first : ℕ
  sizes : List ℕ
  hunks : List (List Block)

def HunkFile.encode (file : HunkFile) : List ℕ :=
  [0x3f3, 0, file.first + file.sizes.length, file.first, file.first + file.sizes.length - 1] ++
    (file.sizes ++ file.hunks.flatMap encodeHunk)

def HunkFile.words (file : HunkFile) : File := fun w ↦ BitVec.ofNat 32 (file.encode.getD w 0)

/-- The words from `w` on are those of the list. -/
def At : ℕ → List ℕ → Prop
  | _, [] => True
  | w, x :: rest => word f w = x ∧ At (w + 1) rest

/-- A block stays within the data of its hunk and refers to hunks of the file. A group is not empty,
and neither is a symbol's name. -/
def Block.Fits (size count : ℕ) : Block → Prop
  | .data _ content => 4 * content.length ≤ size
  | .bss _ => True
  | .reloc _ groups =>
    ∀ g ∈ groups, g.offsets ≠ [] ∧ g.target < count ∧ ∀ off ∈ g.offsets, off + 4 ≤ size
  | .symbols entries => ∀ e ∈ entries, e.1 ≠ [] ∧ e.1.length < 2 ^ 24

instance : ∀ w words, Decidable (At f w words)
  | _, [] => inferInstanceAs (Decidable True)
  | w, x :: rest =>
    have := instDecidableAt (w + 1) rest
    inferInstanceAs (Decidable (word f w = x ∧ At f (w + 1) rest))

instance (size count : ℕ) : DecidablePred (Block.Fits size count)
  | .data _ content => inferInstanceAs (Decidable (4 * content.length ≤ size))
  | .bss _ => inferInstanceAs (Decidable True)
  | .reloc _ groups => inferInstanceAs (Decidable (∀ g ∈ groups, g.offsets ≠ [] ∧
      g.target < count ∧ ∀ off ∈ g.offsets, off + 4 ≤ size))
  | .symbols entries =>
    inferInstanceAs (Decidable (∀ e ∈ entries, e.1 ≠ [] ∧ e.1.length < 2 ^ 24))

variable (file : HunkFile) (p virt : ℕ)

def HunkFile.size (i : ℕ) : ℕ := 4 * (file.sizes.getD i 0 % 2 ^ 30)

/-- Where the hunks are. -/
def HunkFile.addr : ℕ → ℕ
  | 0 => p
  | i + 1 => HunkFile.addr i + roundUp (file.size i + 8)

/-- The bytes that the file may take. -/
def HunkFile.total : ℕ :=
  ((List.range file.sizes.length).map fun i ↦ roundUp (file.size i + 24)).sum

/-- The words are a load file, and there are virtual addresses for it. -/
structure WellFormed : Prop where
  some_hunk : file.sizes ≠ []
  hunks : file.hunks.length = file.first + file.sizes.length
  magic : At f 0 [0x3f3, 0]
  range : At f 3 [file.first, file.first + file.sizes.length - 1]
  content : At f 5 (file.sizes ++ file.hunks.flatMap encodeHunk)
  fits : ∀ i < file.sizes.length, ∀ b ∈ file.hunks.getD (file.first + i) [],
    b.Fits (file.size i) file.sizes.length
  total : file.total < 2 ^ 32
  addresses : virtualBase p virt + file.total ≤ 2 ^ 32

/-! ### What a load file means -/

/-- The virtual address of a hunk's first data word. -/
def HunkFile.dataAddr (i : ℕ) : ℤ := virtualBase p virt + (file.addr p i - p : ℤ) + 8

/-- A long is increased. -/
def addLong (ref : ℤ) (c : Bytes) (off : ℕ) : Bytes :=
  store32 c off (((load32 c off : ℤ) + ref) % 2 ^ 32).toNat

def putLongs (c : Bytes) : ℕ → List ℕ → Bytes
  | _, [] => c
  | off, x :: rest => putLongs (store32 c off x) (off + 4) rest

/-- What a block does to the data of hunk `i`. -/
def Block.apply (dataAddr : ℕ → ℤ) (i : ℕ) (c : Bytes) : Block → Bytes
  | .data _ content => putLongs c 0 content
  | .reloc pcRelative groups => groups.foldl (fun c g ↦
      g.offsets.foldl (addLong (dataAddr g.target - if pcRelative then dataAddr i else 0)) c) c
  | _ => c

/-- The data of hunk `i`: its blocks applied to zeros. -/
def HunkFile.contents (i : ℕ) : Bytes :=
  (file.hunks.getD (file.first + i) []).foldl (Block.apply (file.dataAddr p virt) i) fun _ ↦ 0

/-- The memory `m'` has the file, and is as `m` elsewhere. -/
structure Loaded (m m' : Bytes) : Prop where
  size : ∀ i < file.sizes.length, load32 m' (file.addr p i) = file.size i
  link : ∀ i < file.sizes.length, (load32 m' (file.addr p i + 4) : ℤ) =
    if i + 1 < file.sizes.length then file.dataAddr p virt (i + 1) - 4 else 0
  data : ∀ i < file.sizes.length, ∀ k < file.size i,
    m' (file.addr p i + 8 + k) = file.contents p virt i k
  elsewhere : ∀ x, (∀ i < file.sizes.length, x < file.addr p i ∨
    file.addr p i + 8 + file.size i ≤ x) → m' x = m x

/-! ### What loading comes to -/

/-- A code or data block is not empty. -/
def Block.Copies : Block → Prop
  | .data _ content => content ≠ []
  | _ => True

instance : DecidablePred Block.Copies
  | .data _ content => inferInstanceAs (Decidable (content ≠ []))
  | .bss _ | .reloc _ _ | .symbols _ => inferInstanceAs (Decidable True)

/-- What loading a file comes to: the hunks are apart and within the size that was asked for, and
the loader ends with the file in memory. -/
def LoadsRight (f : File) (file : HunkFile) (p virt : ℕ) : Prop :=
  (∀ i j, i < j → file.addr p i + 8 + file.size i ≤ file.addr p j) ∧
  file.addr p file.sizes.length ≤ p + getHunkFileSize f ∧
  ∀ m, ∃ m', Loaded file p virt m m' ∧ ∃ fuel₀, ∀ fuel ≥ fuel₀,
    loadHunkFile f fuel m p virt = some (m', p + 4)

/-- All hunks are loaded, no code or data block is empty, and the links hold the addresses that the
loader itself uses, or there are none. -/
structure Loadable (file : HunkFile) (p virt : ℕ) : Prop where
  first : file.first = 0
  copies : ∀ blocks ∈ file.hunks, ∀ b ∈ blocks, b.Copies
  base : virtualBase p virt = p ∨ file.sizes.length = 1

end Emu68.Hunk
