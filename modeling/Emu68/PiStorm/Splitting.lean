import Emu68.Lib.BitFields
import Emu68.PiStorm.Correctness

/-!
The accesses of the PiStorm16 (`pistorm/ps_protocol.c`): how one of 8 to 128 bits is split into bus
cycles of a byte, a word or a long. `ps16_read_access` and `ps16_write_access` are parameters, since
what they do is behind the bus; the cycles are recorded. The operands of one expression are read in
the order in which they are written.
-/

set_option autoImplicit false
set_option relaxedAutoImplicit false

namespace Emu68.PiStorm.Split

/-! ### The bus -/

structure Cycle where
  write : Bool
  address : BitVec 32
  size : Size
deriving DecidableEq

/-- `ps16_read_access`, which returns the data register, and `ps16_write_access`, without the cycle
that follows a write to the custom chips. -/
structure Ports (σ : Type*) where
  read : σ → BitVec 32 → Size → BitVec 32 × σ
  write : σ → BitVec 32 → BitVec 32 → Size → σ

structure Session (σ : Type*) where
  device : σ
  cycles : List Cycle

variable {σ : Type*} (p : Ports σ)

def ps16ReadAccess (address : BitVec 32) (size : Size) (s : Session σ) : BitVec 32 × Session σ :=
  let (data, device) := p.read s.device address size
  (data, ⟨device, s.cycles ++ [⟨false, address, size⟩]⟩)

def ps16WriteAccess (address data : BitVec 32) (size : Size) (s : Session σ) : Session σ :=
  let s : Session σ := ⟨p.write s.device address data size, s.cycles ++ [⟨true, address, size⟩]⟩
  if isCustom address then (ps16ReadAccess p 0x00f80000 .word s).2 else s

/-- Unaligned, as the source tests it. -/
def odd (address : BitVec 32) : Bool := address.getLsbD 0

/-! ### Reads -/

def ps16Read8 (address : BitVec 32) (s : Session σ) : BitVec 32 × Session σ :=
  let (data, s) := ps16ReadAccess p address .byte s
  (if odd address then data &&& 0xff else data >>> 8, s)

def ps16Read16 (address : BitVec 32) (s : Session σ) : BitVec 32 × Session σ :=
  if odd address then
    let (hi, s) := ps16Read8 p address s
    let (lo, s) := ps16Read8 p (address + 1) s
    ((hi <<< 8) ||| lo, s)
  else ps16ReadAccess p address .word s

def ps16Read32 (address : BitVec 32) (s : Session σ) : BitVec 32 × Session σ :=
  if odd address then
    let (d₀, s) := ps16Read8 p address s
    let (d₁, s) := ps16Read16 p (address + 1) s
    let (d₂, s) := ps16Read8 p (address + 3) s
    (((d₀ <<< 24) ||| (d₁ <<< 8)) ||| d₂, s)
  else ps16ReadAccess p address .long s

def ps16Read64 (address : BitVec 32) (s : Session σ) : BitVec 64 × Session σ :=
  if odd address then
    let (d₀, s) := ps16Read8 p address s
    let (d₁, s) := ps16Read32 p (address + 1) s
    let (d₂, s) := ps16Read16 p (address + 5) s
    let (d₃, s) := ps16Read8 p (address + 7) s
    ((((d₀.setWidth 64 <<< 56) ||| (d₁.setWidth 64 <<< 24)) ||| (d₂ <<< 8).setWidth 64) |||
      d₃.setWidth 64, s)
  else
    let (d₀, s) := ps16Read32 p address s
    let (d₁, s) := ps16Read32 p (address + 4) s
    ((d₀.setWidth 64 <<< 32) ||| d₁.setWidth 64, s)

/-- The upper and the lower half. -/
def ps16Read128 (address : BitVec 32) (s : Session σ) : BitVec 64 × BitVec 64 × Session σ :=
  if odd address then
    let (d₀, s) := ps16Read8 p address s
    let (d₁, s) := ps16Read16 p (address + 1) s
    let (d₂, s) := ps16Read16 p (address + 3) s
    let (d₃, s) := ps16Read16 p (address + 5) s
    let (d₄, s) := ps16Read16 p (address + 7) s
    let d := d₄.setWidth 16
    let hi := ((((d₀.setWidth 64 <<< 56) ||| (d₁.setWidth 64 <<< 40)) ||| (d₂.setWidth 64 <<< 24)) |||
      (d₃ <<< 8).setWidth 64) ||| (d >>> 8).setWidth 64
    let (d₅, s) := ps16Read16 p (address + 9) s
    let (d₆, s) := ps16Read16 p (address + 11) s
    let (d₇, s) := ps16Read16 p (address + 13) s
    let (d₈, s) := ps16Read8 p (address + 15) s
    let lo := ((((d.setWidth 64 <<< 56) ||| (d₅.setWidth 64 <<< 40)) ||| (d₆.setWidth 64 <<< 24)) |||
      (d₇ <<< 8).setWidth 64) ||| d₈.setWidth 64
    (hi, lo, s)
  else
    let (hi, s) := ps16Read64 p address s
    let (lo, s) := ps16Read64 p (address + 8) s
    (hi, lo, s)

/-! ### Writes -/

def ps16Write8Int (address data : BitVec 32) (s : Session σ) : Session σ :=
  let d : BitVec 16 := (data &&& 0xff).setWidth 16
  ps16WriteAccess p address ((d ||| (d <<< 8)).setWidth 32) .byte s

def ps16Write16Int (address data : BitVec 32) (s : Session σ) : Session σ :=
  if odd address then ps16Write8Int p (address + 1) data (ps16Write8Int p address (data >>> 8) s)
  else ps16WriteAccess p address data .word s

def ps16Write32Int (address data : BitVec 32) (s : Session σ) : Session σ :=
  if odd address then
    ps16Write8Int p (address + 3) data (ps16Write16Int p (address + 1) (data >>> 8)
      (ps16Write8Int p address (data >>> 24) s))
  else ps16WriteAccess p address data .long s

def ps16Write64Int (address : BitVec 32) (data : BitVec 64) (s : Session σ) : Session σ :=
  if odd address then
    let s := ps16Write8Int p address ((data >>> 56).setWidth 32) s
    let s := ps16Write32Int p (address + 1) ((data >>> 24).setWidth 32) s
    let s := ps16Write16Int p (address + 5) ((data >>> 8).setWidth 32) s
    ps16Write8Int p (address + 7) (data.setWidth 32) s
  else
    let s := ps16Write32Int p address ((data >>> 32).setWidth 32) s
    ps16Write32Int p (address + 4) (data.setWidth 32) s

def ps16Write128Int (address : BitVec 32) (hi lo : BitVec 64) (s : Session σ) : Session σ :=
  if odd address then
    let s := ps16Write8Int p address ((hi >>> 56).setWidth 32) s
    let s := ps16Write32Int p (address + 1) ((hi >>> 24).setWidth 32) s
    let s := ps16Write16Int p (address + 5) ((hi >>> 8).setWidth 32) s
    let s := ps16Write16Int p (address + 7) (((hi <<< 8) ||| (lo >>> 56)).setWidth 32) s
    let s := ps16Write32Int p (address + 9) ((lo >>> 24).setWidth 32) s
    let s := ps16Write16Int p (address + 13) ((lo >>> 8).setWidth 32) s
    ps16Write8Int p (address + 15) (lo.setWidth 32) s
  else
    let s := ps16Write64Int p address hi s
    ps16Write64Int p (address + 8) lo s

/-! ### What surrounds a write -/

/-- `check_blit_active`: where the blitter's registers are written and `JC2F_BLITWAIT` is set, the
status is polled until the blitter is done, with dummy reads between, which takes as many rounds as
the hardware needs. -/
def checkBlitActive (blitWait : Bool) (rounds : ℕ) (address : BitVec 32) (size : ℕ) (s : Session σ) :
    Session σ :=
  if !blitWait || 0xdff076#32 ≤ address || address + BitVec.ofNat 32 size ≤ 0xdff040#32 then s
  else
    let s := Nat.iterate (fun s ↦
      (ps16Read8 p 0x00f00000 (ps16Read8 p 0x00f00000 (ps16Read16 p 0xdff002 s).2).2).2) rounds s
    (ps16Read16 p 0xdff002 s).2

/-- `SLOW_IO`: one more read behind the write. -/
def slowIo (address : BitVec 32) (s : Session σ) : Session σ :=
  if 0xdff09a#32 ≤ address ∧ address < 0xdff09e#32 then
    (ps16ReadAccess p 0x00f00000 .byte s).2
  else s

def ps16Write8 (address data : BitVec 32) (s : Session σ) : Session σ :=
  slowIo p address (ps16Write8Int p address data s)

def ps16Write16 (blitWait : Bool) (rounds : ℕ) (address data : BitVec 32) (s : Session σ) :
    Session σ :=
  slowIo p address (ps16Write16Int p address data (checkBlitActive p blitWait rounds address 2 s))

def ps16Write32 (blitWait : Bool) (rounds : ℕ) (address data : BitVec 32) (s : Session σ) :
    Session σ :=
  slowIo p address (ps16Write32Int p address data (checkBlitActive p blitWait rounds address 4 s))

def ps16Write64 (blitWait : Bool) (rounds : ℕ) (address : BitVec 32) (data : BitVec 64)
    (s : Session σ) : Session σ :=
  slowIo p address (ps16Write64Int p address data (checkBlitActive p blitWait rounds address 8 s))

def ps16Write128 (blitWait : Bool) (rounds : ℕ) (address : BitVec 32) (hi lo : BitVec 64)
    (s : Session σ) : Session σ :=
  slowIo p address
    (ps16Write128Int p address hi lo (checkBlitActive p blitWait rounds address 16 s))

/-! ### What an access does -/

/-- `n` addresses from `a` on. -/
def addresses (a : BitVec 32) (n : ℕ) : List (BitVec 32) :=
  (List.range n).map fun i ↦ a + BitVec.ofNat 32 i

def Cycle.bytes (c : Cycle) : List (BitVec 32) := addresses c.address c.size.bytes

/-- What a single cycle transfers. A byte is on the lane that A0 selects. -/
structure Ports.IsMemory (p : Ports σ) (view : σ → BusMemory) : Prop where
  byte : ∀ m address, ∃ other : BitVec 8, (p.read m address .byte).1 =
    (if odd address then other ++ view m (address.setWidth 24)
      else view m (address.setWidth 24) ++ other).setWidth 32
  word : ∀ m address, odd address = false →
    (p.read m address .word).1.toNat = loadBytes (view m) (address.setWidth 24) 2
  long : ∀ m address, odd address = false →
    (p.read m address .long).1.toNat = loadBytes (view m) (address.setWidth 24) 4
  read : ∀ m address size, (size ≠ .byte → odd address = false) →
    view (p.read m address size).2 = view m
  writeByte : ∀ m address (x : BitVec 8), view (p.write m address ((x ++ x).setWidth 32) .byte) =
    storeBytes (view m) (address.setWidth 24) 1 x.toNat
  writeWord : ∀ m address data, odd address = false → view (p.write m address data .word) =
    storeBytes (view m) (address.setWidth 24) 2 (data.toNat % 256 ^ 2)
  writeLong : ∀ m address data, odd address = false → view (p.write m address data .long) =
    storeBytes (view m) (address.setWidth 24) 4 data.toNat

/-- Cycles of one kind that go through `n` bytes in ascending order. -/
structure Ascending (write : Bool) (a : BitVec 32) (n : ℕ) (cycles : List Cycle) : Prop where
  kind : ∀ c ∈ cycles, c.write = write
  bytes : cycles.flatMap Cycle.bytes = addresses a n
  aligned : ∀ c ∈ cycles, c.size ≠ .byte → odd c.address = false

variable {p} {view : σ → BusMemory} {a : BitVec 32} {n k : ℕ} {s s' s'' : Session σ} {write : Bool}
  {first second : List Cycle}

theorem addresses_add (a : BitVec 32) (n k : ℕ) :
    addresses a (n + k) = addresses a n ++ addresses (a + BitVec.ofNat 32 n) k := by
  unfold addresses
  rw [List.range_add, List.map_append, List.map_map]
  refine congrArg (_ ++ ·) (List.map_congr_left fun i _ ↦ ?_)
  rw [Function.comp_apply, BitVec.ofNat_add, BitVec.add_assoc]

theorem Ascending.append (h₁ : Ascending write a n first)
    (h₂ : Ascending write (a + BitVec.ofNat 32 n) k second) :
    Ascending write a (n + k) (first ++ second) where
  kind := fun c hc ↦ (List.mem_append.mp hc).elim (h₁.kind c) (h₂.kind c)
  bytes := by rw [List.flatMap_append, h₁.bytes, h₂.bytes, addresses_add]
  aligned := fun c hc ↦ (List.mem_append.mp hc).elim (h₁.aligned c) (h₂.aligned c)

theorem ascending_one (c : Cycle) (h : c.size ≠ .byte → odd c.address = false) :
    Ascending c.write c.address c.size.bytes [c] where
  kind := fun c' hc' ↦ by rw [List.mem_singleton.mp hc']
  bytes := List.flatMap_singleton ..
  aligned := fun c' hc' ↦ by rwa [List.mem_singleton.mp hc']

theorem setWidth_add_ofNat (a : BitVec 32) (n : ℕ) :
    (a + BitVec.ofNat 32 n).setWidth 24 = a.setWidth 24 + BitVec.ofNat 24 n := by
  refine BitVec.eq_of_toNat_eq ?_
  rw [BitVec.toNat_setWidth, BitVec.toNat_add, BitVec.toNat_add, BitVec.toNat_ofNat,
    BitVec.toNat_ofNat, BitVec.toNat_setWidth]
  omega

/-! ### Reads of all widths -/

/-- `n` bytes are read, and nothing else happens. -/
structure Reads (view : σ → BusMemory) (a : BitVec 32) (n : ℕ) (s s' : Session σ) (value : ℕ) :
    Prop where
  value : value = loadBytes (view s.device) (a.setWidth 24) n
  memory : view s'.device = view s.device
  cycles : ∃ new, s'.cycles = s.cycles ++ new ∧ Ascending false a n new

theorem Reads.append {x y : ℕ} (h₁ : Reads view a n s s' x)
    (h₂ : Reads view (a + BitVec.ofNat 32 n) k s' s'' y) :
    Reads view a (n + k) s s'' (x * 256 ^ k + y) := by
  obtain ⟨new₁, hnew₁, hasc₁⟩ := h₁.cycles
  obtain ⟨new₂, hnew₂, hasc₂⟩ := h₂.cycles
  refine ⟨?_, h₂.memory.trans h₁.memory, new₁ ++ new₂, ?_, hasc₁.append hasc₂⟩
  · rw [h₁.value, h₂.value, h₁.memory, setWidth_add_ofNat, loadBytes_add]
  · rw [hnew₂, hnew₁, List.append_assoc]

theorem Reads.lt {x : ℕ} (h : Reads view a n s s' x) : x < 256 ^ n := by
  rw [h.value]
  exact loadBytes_lt ..

theorem reads_access (h : p.IsMemory view) (address : BitVec 32) (size : Size) (s : Session σ)
    (haligned : size ≠ .byte → odd address = false) {value : ℕ}
    (hvalue : value = loadBytes (view s.device) (address.setWidth 24) size.bytes) :
    Reads view address size.bytes s (ps16ReadAccess p address size s).2 value :=
  ⟨hvalue, h.read _ _ _ haligned, _, rfl, ascending_one ⟨false, address, size⟩ haligned⟩

theorem reads_8 (h : p.IsMemory view) (address : BitVec 32) (s : Session σ) :
    Reads view address 1 s (ps16Read8 p address s).2 (ps16Read8 p address s).1.toNat := by
  refine reads_access h address .byte s (fun hne ↦ absurd rfl hne) ?_
  obtain ⟨other, hother⟩ := h.byte s.device address
  show (if odd address then (p.read s.device address .byte).1 &&& 0xff
    else (p.read s.device address .byte).1 >>> 8).toNat = _
  rw [hother, show Size.byte.bytes = 1 from rfl, loadBytes, loadBytes, BitVec.ofNat_eq_ofNat,
    BitVec.add_zero, Nat.zero_mul, Nat.zero_add]
  have hx := (view s.device (address.setWidth 24)).isLt
  have hother' := other.isLt
  split_ifs with hodd
  · rw [BitVec.toNat_and, BitVec.toNat_setWidth, toNat_append]
    show _ &&& (2 ^ 8 - 1) = _
    rw [Nat.and_two_pow_sub_one_eq_mod]
    omega
  · rw [BitVec.toNat_ushiftRight, BitVec.toNat_setWidth, toNat_append, Nat.shiftRight_eq_div_pow]
    omega

/-- The parts of a value are put above each other. -/
theorem toNat_or_shift {w : ℕ} {acc y : BitVec w} {i v : ℕ} (m j : ℕ)
    (hacc : acc.toNat = i * 2 ^ (m + j)) (hy : y.toNat = v * 2 ^ m) (hv : v < 2 ^ j) :
    (acc ||| y).toNat = (i * 2 ^ j + v) * 2 ^ m := by
  have hlt : y.toNat < 2 ^ (m + j) := by
    rw [hy, Nat.add_comm, pow_add]
    exact Nat.mul_lt_mul_of_pos_right hv (Nat.two_pow_pos m)
  rw [Lib.toNat_or_eq_add (by rw [hacc]; exact Nat.dvd_mul_left _ _) hlt, hacc, hy, pow_add]
  ring

/-- The lowest part. -/
theorem toNat_or_low {w : ℕ} {acc y : BitVec w} {i v : ℕ} (j : ℕ) (hacc : acc.toNat = i * 2 ^ j)
    (hy : y.toNat = v) (hv : v < 2 ^ j) : (acc ||| y).toNat = i * 2 ^ j + v := by
  have hor := toNat_or_shift 0 j (by rwa [Nat.zero_add]) (hy.trans (Nat.mul_one v).symm) hv
  rwa [pow_zero, Nat.mul_one] at hor

theorem toNat_widen (x : BitVec 32) : (x.setWidth 64).toNat = x.toNat :=
  BitVec.toNat_setWidth_of_le (by decide)

theorem toNat_shiftLeft_of_lt {w : ℕ} (x : BitVec w) (m : ℕ) (hlt : x.toNat * 2 ^ m < 2 ^ w) :
    (x <<< m).toNat = x.toNat * 2 ^ m := by
  rw [BitVec.toNat_shiftLeft, Nat.shiftLeft_eq, Nat.mod_eq_of_lt hlt]

/-- A part of a 64-bit value. -/
theorem toNat_widen_shift {x : BitVec 32} {m : ℕ} (hlt : x.toNat * 2 ^ m < 2 ^ 64) :
    (x.setWidth 64 <<< m).toNat = x.toNat * 2 ^ m := by
  rw [toNat_shiftLeft_of_lt _ _ (by rwa [toNat_widen]), toNat_widen]

theorem join_32 {d₀ d₁ d₂ : BitVec 32} (h₀ : d₀.toNat < 256 ^ 1) (h₁ : d₁.toNat < 256 ^ 2)
    (h₂ : d₂.toNat < 256 ^ 1) :
    (((d₀ <<< 24) ||| (d₁ <<< 8)) ||| d₂).toNat =
      (d₀.toNat * 256 ^ 2 + d₁.toNat) * 256 ^ 1 + d₂.toNat := by
  have htop := toNat_shiftLeft_of_lt d₀ 24 (by omega)
  have hmiddle := toNat_or_shift 8 16 htop (toNat_shiftLeft_of_lt d₁ 8 (by omega)) (by omega)
  exact toNat_or_low 8 hmiddle rfl (by omega)

theorem join_64 {d₀ d₁ d₂ d₃ : BitVec 32} (h₀ : d₀.toNat < 256 ^ 1) (h₁ : d₁.toNat < 256 ^ 4)
    (h₂ : d₂.toNat < 256 ^ 2) (h₃ : d₃.toNat < 256 ^ 1) :
    ((((d₀.setWidth 64 <<< 56) ||| (d₁.setWidth 64 <<< 24)) ||| (d₂ <<< 8).setWidth 64) |||
        d₃.setWidth 64).toNat =
      ((d₀.toNat * 256 ^ 4 + d₁.toNat) * 256 ^ 2 + d₂.toNat) * 256 ^ 1 + d₃.toNat := by
  have htop : (d₀.setWidth 64 <<< 56).toNat = d₀.toNat * 2 ^ 56 := toNat_widen_shift (by omega)
  have hnext := toNat_or_shift 24 32 htop (toNat_widen_shift (x := d₁) (by omega)) h₁
  have hmiddle := toNat_or_shift 8 16 hnext
    ((toNat_widen _).trans (toNat_shiftLeft_of_lt d₂ 8 (by omega))) h₂
  exact toNat_or_low 8 hmiddle (toNat_widen _) h₃

/-- The halves of a 128-bit value at an odd address. The word in the middle has a byte in each. -/
theorem join_half {w : ℕ} {d₁ d₂ d₃ : BitVec 32} {top : BitVec 64} (low : BitVec w) {i : ℕ}
    (hw : w ≤ 64) (htop : top.toNat = i * 2 ^ 56) (h₁ : d₁.toNat < 256 ^ 2) (h₂ : d₂.toNat < 256 ^ 2)
    (h₃ : d₃.toNat < 256 ^ 2) (hlow : low.toNat < 256 ^ 1) :
    ((((top ||| (d₁.setWidth 64 <<< 40)) ||| (d₂.setWidth 64 <<< 24)) ||| (d₃ <<< 8).setWidth 64) |||
        low.setWidth 64).toNat =
      (((i * 256 ^ 2 + d₁.toNat) * 256 ^ 2 + d₂.toNat) * 256 ^ 2 + d₃.toNat) * 256 ^ 1 +
        low.toNat := by
  have hfirst := toNat_or_shift 40 16 htop (toNat_widen_shift (x := d₁) (by omega)) h₁
  have hsecond := toNat_or_shift 24 16 hfirst (toNat_widen_shift (x := d₂) (by omega)) h₂
  have hthird := toNat_or_shift 8 16 hsecond
    ((toNat_widen _).trans (toNat_shiftLeft_of_lt d₃ 8 (by omega))) h₃
  exact toNat_or_low 8 hthird (BitVec.toNat_setWidth_of_le hw) hlow

theorem reads_16 (h : p.IsMemory view) (address : BitVec 32) (s : Session σ) :
    Reads view address 2 s (ps16Read16 p address s).2 (ps16Read16 p address s).1.toNat := by
  unfold ps16Read16
  split_ifs with hodd
  · have h₀ := reads_8 h address s
    have h₁ := reads_8 h (address + 1) (ps16Read8 p address s).2
    have hlt := h₀.lt
    refine (congrArg (Reads view address 2 s _) ?_).mp (h₀.append h₁)
    exact (toNat_or_low 8 (toNat_shiftLeft_of_lt _ 8 (by omega)) rfl h₁.lt).symm
  · exact reads_access h address .word s (fun _ ↦ by simpa using hodd)
      (h.word _ _ (by simpa using hodd))

theorem reads_32 (h : p.IsMemory view) (address : BitVec 32) (s : Session σ) :
    Reads view address 4 s (ps16Read32 p address s).2 (ps16Read32 p address s).1.toNat := by
  unfold ps16Read32
  split_ifs with hodd
  · have h₀ := reads_8 h address s
    have h₁ := reads_16 h (address + 1) (ps16Read8 p address s).2
    have h₂ := reads_8 h (address + 3) (ps16Read16 p (address + 1) (ps16Read8 p address s).2).2
    refine (congrArg (Reads view address 4 s _) ?_).mp ((h₀.append h₁).append h₂)
    exact (join_32 h₀.lt h₁.lt h₂.lt).symm
  · exact reads_access h address .long s (fun _ ↦ by simpa using hodd)
      (h.long _ _ (by simpa using hodd))

theorem reads_64 (h : p.IsMemory view) (address : BitVec 32) (s : Session σ) :
    Reads view address 8 s (ps16Read64 p address s).2 (ps16Read64 p address s).1.toNat := by
  unfold ps16Read64
  split_ifs with hodd
  · have h₀ := reads_8 h address s
    have h₁ := reads_32 h (address + 1) (ps16Read8 p address s).2
    have h₂ := reads_16 h (address + 5) (ps16Read32 p (address + 1) (ps16Read8 p address s).2).2
    have h₃ := reads_8 h (address + 7)
      (ps16Read16 p (address + 5) (ps16Read32 p (address + 1) (ps16Read8 p address s).2).2).2
    refine (congrArg (Reads view address 8 s _) ?_).mp (((h₀.append h₁).append h₂).append h₃)
    exact (join_64 h₀.lt h₁.lt h₂.lt h₃.lt).symm
  · have h₀ := reads_32 h address s
    have h₁ := reads_32 h (address + 4) (ps16Read32 p address s).2
    have hlt := h₀.lt
    refine (congrArg (Reads view address 8 s _) ?_).mp (h₀.append h₁)
    exact (toNat_or_low 32 (toNat_widen_shift (by omega)) (toNat_widen _) h₁.lt).symm

/-- The upper byte of the word in the middle. -/
theorem toNat_high (x : BitVec 32) :
    ((x.setWidth 16) >>> 8).toNat = x.toNat % 256 ^ 2 / 256 := by
  rw [BitVec.toNat_ushiftRight, BitVec.toNat_setWidth, Nat.shiftRight_eq_div_pow]
  rfl

/-- Its lower byte is the top of the lower half. -/
theorem toNat_middle_shift (x : BitVec 32) :
    ((x.setWidth 16).setWidth 64 <<< 56).toNat = x.toNat % 256 * 2 ^ 56 := by
  rw [BitVec.toNat_shiftLeft, BitVec.toNat_setWidth, BitVec.toNat_setWidth, Nat.shiftLeft_eq]
  omega

/-- Both halves of a value of 128 bits. -/
theorem reads_128 (h : p.IsMemory view) (address : BitVec 32) (s : Session σ) :
    Reads view address 16 s (ps16Read128 p address s).2.2
      ((ps16Read128 p address s).1.toNat * 2 ^ 64 + (ps16Read128 p address s).2.1.toNat) := by
  unfold ps16Read128
  split_ifs with hodd
  · have h₀ := reads_8 h address s
    set s₀ := (ps16Read8 p address s).2
    have h₁ := reads_16 h (address + 1) s₀
    set s₁ := (ps16Read16 p (address + 1) s₀).2
    have h₂ := reads_16 h (address + 3) s₁
    set s₂ := (ps16Read16 p (address + 3) s₁).2
    have h₃ := reads_16 h (address + 5) s₂
    set s₃ := (ps16Read16 p (address + 5) s₂).2
    have h₄ := reads_16 h (address + 7) s₃
    set s₄ := (ps16Read16 p (address + 7) s₃).2
    have h₅ := reads_16 h (address + 9) s₄
    set s₅ := (ps16Read16 p (address + 9) s₄).2
    have h₆ := reads_16 h (address + 11) s₅
    set s₆ := (ps16Read16 p (address + 11) s₅).2
    have h₇ := reads_16 h (address + 13) s₆
    set s₇ := (ps16Read16 p (address + 13) s₆).2
    have h₈ := reads_8 h (address + 15) s₇
    have hall := (((((((h₀.append h₁).append h₂).append h₃).append h₄).append h₅).append h₆).append
      h₇).append h₈
    refine (congrArg (Reads view address 16 s _) ?_).mp hall
    have hhi := join_half (((ps16Read16 p (address + 7) s₃).1.setWidth 16) >>> 8) (by decide)
      (toNat_widen_shift (x := (ps16Read8 p address s).1) (m := 56) (by have := h₀.lt; omega))
      h₁.lt h₂.lt h₃.lt (by have := h₄.lt; rw [toNat_high]; omega)
    have hlo := join_half ((ps16Read8 p (address + 15) s₇).1) (by decide)
      (toNat_middle_shift (ps16Read16 p (address + 7) s₃).1) h₅.lt h₆.lt h₇.lt h₈.lt
    have hmiddle := h₄.lt
    rw [toNat_high] at hhi
    rw [hhi, hlo, Nat.mod_eq_of_lt hmiddle]
    omega
  · have h₀ := reads_64 h address s
    have h₁ := reads_64 h (address + 8) (ps16Read64 p address s).2
    exact h₀.append h₁

/-! ### Writes of all widths -/

/-- `n` bytes are written. Apart from the cycles that do so, there may be reads behind a write to
the custom chips. -/
structure WritesInt (view : σ → BusMemory) (a : BitVec 32) (n : ℕ) (s s' : Session σ) (value : ℕ) :
    Prop where
  memory : view s'.device = storeBytes (view s.device) (a.setWidth 24) n value
  cycles : ∃ new, s'.cycles = s.cycles ++ new ∧ Ascending true a n (new.filter (·.write)) ∧
    ∀ c ∈ new, c.write = false →
      c = ⟨false, 0x00f80000, .word⟩ ∧ ∃ b ∈ addresses a n, isCustom b = true

theorem mem_addresses {b : BitVec 32} :
    b ∈ addresses a n ↔ ∃ i < n, b = a + BitVec.ofNat 32 i := by
  unfold addresses
  rw [List.mem_map]
  constructor
  · rintro ⟨i, hi, rfl⟩
    exact ⟨i, List.mem_range.mp hi, rfl⟩
  · rintro ⟨i, hi, rfl⟩
    exact ⟨i, List.mem_range.mpr hi, rfl⟩

theorem WritesInt.append {x y : ℕ} (h₁ : WritesInt view a n s s' x)
    (h₂ : WritesInt view (a + BitVec.ofNat 32 n) k s' s'' y) (hk : 0 < k) (hle : n + k ≤ 2 ^ 24)
    (hy : y < 256 ^ k) : WritesInt view a (n + k) s s'' (x * 256 ^ k + y) := by
  obtain ⟨new₁, hnew₁, hasc₁, hother₁⟩ := h₁.cycles
  obtain ⟨new₂, hnew₂, hasc₂, hother₂⟩ := h₂.cycles
  refine ⟨?_, new₁ ++ new₂, ?_, ?_, fun c hc hread ↦ ?_⟩
  · rw [h₂.memory, h₁.memory, setWidth_add_ofNat, storeBytes_storeBytes _ _ hk hle hy]
  · rw [hnew₂, hnew₁, List.append_assoc]
  · rw [List.filter_append]
    exact hasc₁.append hasc₂
  · rw [addresses_add]
    rcases List.mem_append.mp hc with hc | hc
    · obtain ⟨heq, b, hb, hcustom⟩ := hother₁ c hc hread
      exact ⟨heq, b, List.mem_append_left _ hb, hcustom⟩
    · obtain ⟨heq, b, hb, hcustom⟩ := hother₂ c hc hread
      exact ⟨heq, b, List.mem_append_right _ hb, hcustom⟩

theorem writes_access (h : p.IsMemory view) (address data : BitVec 32) (size : Size) (s : Session σ)
    (haligned : size ≠ .byte → odd address = false) {value : ℕ}
    (hvalue : view (p.write s.device address data size) =
      storeBytes (view s.device) (address.setWidth 24) size.bytes value) :
    WritesInt view address size.bytes s (ps16WriteAccess p address data size s) value := by
  have hasc := ascending_one ⟨true, address, size⟩ haligned
  unfold ps16WriteAccess
  split_ifs with hcustom
  · have hsame : view (p.read (p.write s.device address data size) 0x00f80000 .word).2 =
        view (p.write s.device address data size) := h.read _ _ _ fun _ ↦ by decide
    have hfirst : address ∈ addresses address size.bytes :=
      mem_addresses.mpr ⟨0, by cases size <;> decide, (BitVec.add_zero _).symm⟩
    refine ⟨hsame.trans hvalue, [⟨true, address, size⟩, ⟨false, 0x00f80000, .word⟩],
      List.append_assoc .., hasc, fun c hc hread ↦ ?_⟩
    rcases List.mem_cons.mp hc with rfl | hc
    · cases hread
    · exact ⟨List.mem_singleton.mp hc, address, hfirst, hcustom⟩
  · refine ⟨hvalue, [⟨true, address, size⟩], rfl, hasc, fun c hc hread ↦ ?_⟩
    rw [List.mem_singleton.mp hc] at hread
    cases hread

theorem writes_8_int (h : p.IsMemory view) (address data : BitVec 32) (s : Session σ) :
    WritesInt view address 1 s (ps16Write8Int p address data s) (data.toNat % 256) := by
  have hreplicated : ∀ d : BitVec 8, d.setWidth 16 ||| d.setWidth 16 <<< 8 = d ++ d := by
    decide +kernel
  have hdata : (data &&& 0xff).setWidth 16 = (data.setWidth 8).setWidth 16 := by
    refine BitVec.eq_of_toNat_eq ?_
    rw [BitVec.toNat_setWidth, BitVec.toNat_setWidth, BitVec.toNat_setWidth, BitVec.toNat_and]
    show (data.toNat &&& (2 ^ 8 - 1)) % 2 ^ 16 = _
    rw [Nat.and_two_pow_sub_one_eq_mod]
  refine writes_access h address _ .byte s (fun hne ↦ absurd rfl hne) ?_
  rw [hdata, hreplicated, h.writeByte, BitVec.toNat_setWidth]
  rfl

theorem writes_16_int (h : p.IsMemory view) (address data : BitVec 32) (s : Session σ) :
    WritesInt view address 2 s (ps16Write16Int p address data s) (data.toNat % 256 ^ 2) := by
  unfold ps16Write16Int
  split_ifs with hodd
  · have h₀ := writes_8_int h address (data >>> 8) s
    have h₁ := writes_8_int h (address + 1) data (ps16Write8Int p address (data >>> 8) s)
    refine (congrArg (WritesInt view address 2 s _) ?_).mp
      (h₀.append h₁ (by decide) (by decide) (by omega))
    rw [BitVec.toNat_ushiftRight, Nat.shiftRight_eq_div_pow]
    omega
  · exact writes_access h address data .word s (fun _ ↦ by simpa using hodd)
      (h.writeWord _ _ _ (by simpa using hodd))

theorem writes_32_int (h : p.IsMemory view) (address data : BitVec 32) (s : Session σ) :
    WritesInt view address 4 s (ps16Write32Int p address data s) data.toNat := by
  unfold ps16Write32Int
  split_ifs with hodd
  · have h₀ := writes_8_int h address (data >>> 24) s
    set s₀ := ps16Write8Int p address (data >>> 24) s
    have h₁ := writes_16_int h (address + 1) (data >>> 8) s₀
    have h₂ := writes_8_int h (address + 3) data (ps16Write16Int p (address + 1) (data >>> 8) s₀)
    refine (congrArg (WritesInt view address 4 s _) ?_).mp
      ((h₀.append h₁ (by decide) (by decide) (by omega)).append h₂ (by decide) (by decide)
        (by omega))
    have hlt := data.isLt
    rw [BitVec.toNat_ushiftRight, BitVec.toNat_ushiftRight, Nat.shiftRight_eq_div_pow,
      Nat.shiftRight_eq_div_pow]
    omega
  · exact writes_access h address data .long s (fun _ ↦ by simpa using hodd)
      (h.writeLong _ _ _ (by simpa using hodd))

/-- A part of a 64-bit value, as it is handed on. -/
theorem toNat_part (data : BitVec 64) (m : ℕ) :
    ((data >>> m).setWidth 32).toNat = data.toNat / 2 ^ m % 2 ^ 32 := by
  rw [BitVec.toNat_setWidth, BitVec.toNat_ushiftRight, Nat.shiftRight_eq_div_pow]

theorem writes_64_int (h : p.IsMemory view) (address : BitVec 32) (data : BitVec 64)
    (s : Session σ) :
    WritesInt view address 8 s (ps16Write64Int p address data s) data.toNat := by
  have hlt := data.isLt
  unfold ps16Write64Int
  split_ifs with hodd
  · have h₀ := writes_8_int h address ((data >>> 56).setWidth 32) s
    set s₀ := ps16Write8Int p address ((data >>> 56).setWidth 32) s
    have h₁ := writes_32_int h (address + 1) ((data >>> 24).setWidth 32) s₀
    set s₁ := ps16Write32Int p (address + 1) ((data >>> 24).setWidth 32) s₀
    have h₂ := writes_16_int h (address + 5) ((data >>> 8).setWidth 32) s₁
    have h₃ := writes_8_int h (address + 7) (data.setWidth 32)
      (ps16Write16Int p (address + 5) ((data >>> 8).setWidth 32) s₁)
    refine (congrArg (WritesInt view address 8 s _) ?_).mp
      (((h₀.append h₁ (by decide) (by decide) (BitVec.isLt _)).append h₂ (by decide) (by decide)
        (by omega)).append h₃ (by decide) (by decide) (by omega))
    rw [toNat_part, toNat_part, toNat_part, BitVec.toNat_setWidth]
    omega
  · have h₀ := writes_32_int h address ((data >>> 32).setWidth 32) s
    have h₁ := writes_32_int h (address + 4) (data.setWidth 32)
      (ps16Write32Int p address ((data >>> 32).setWidth 32) s)
    refine (congrArg (WritesInt view address 8 s _) ?_).mp
      (h₀.append h₁ (by decide) (by decide) (BitVec.isLt _))
    rw [toNat_part, BitVec.toNat_setWidth]
    omega

/-- The word in the middle has a byte of each half. -/
theorem toNat_middle (hi lo : BitVec 64) :
    (((hi <<< 8) ||| (lo >>> 56)).setWidth 32).toNat % 256 ^ 2 =
      hi.toNat % 256 * 256 + lo.toNat / 2 ^ 56 := by
  have hlo := lo.isLt
  have hlow : (lo >>> 56).toNat = lo.toNat / 2 ^ 56 := by
    rw [BitVec.toNat_ushiftRight, Nat.shiftRight_eq_div_pow]
  have hhigh : (hi <<< 8).toNat = hi.toNat % 2 ^ 56 * 2 ^ 8 := by
    rw [BitVec.toNat_shiftLeft, Nat.shiftLeft_eq]
    omega
  rw [BitVec.toNat_setWidth, toNat_or_low 8 hhigh hlow (by omega)]
  omega

theorem writes_128_int (h : p.IsMemory view) (address : BitVec 32) (hi lo : BitVec 64)
    (s : Session σ) :
    WritesInt view address 16 s (ps16Write128Int p address hi lo s)
      (hi.toNat * 2 ^ 64 + lo.toNat) := by
  have hlo := lo.isLt
  unfold ps16Write128Int
  split_ifs with hodd
  · have h₀ := writes_8_int h address ((hi >>> 56).setWidth 32) s
    set s₀ := ps16Write8Int p address ((hi >>> 56).setWidth 32) s
    have h₁ := writes_32_int h (address + 1) ((hi >>> 24).setWidth 32) s₀
    set s₁ := ps16Write32Int p (address + 1) ((hi >>> 24).setWidth 32) s₀
    have h₂ := writes_16_int h (address + 5) ((hi >>> 8).setWidth 32) s₁
    set s₂ := ps16Write16Int p (address + 5) ((hi >>> 8).setWidth 32) s₁
    have h₃ := writes_16_int h (address + 7) (((hi <<< 8) ||| (lo >>> 56)).setWidth 32) s₂
    set s₃ := ps16Write16Int p (address + 7) (((hi <<< 8) ||| (lo >>> 56)).setWidth 32) s₂
    have h₄ := writes_32_int h (address + 9) ((lo >>> 24).setWidth 32) s₃
    set s₄ := ps16Write32Int p (address + 9) ((lo >>> 24).setWidth 32) s₃
    have h₅ := writes_16_int h (address + 13) ((lo >>> 8).setWidth 32) s₄
    have h₆ := writes_8_int h (address + 15) (lo.setWidth 32)
      (ps16Write16Int p (address + 13) ((lo >>> 8).setWidth 32) s₄)
    have hupper := (h₀.append h₁ (by decide) (by decide) (BitVec.isLt _)).append h₂ (by decide)
      (by decide) (by omega)
    have hmiddle := (hupper.append h₃ (by decide) (by decide) (by omega)).append h₄ (by decide)
      (by decide) (BitVec.isLt _)
    have hall := (hmiddle.append h₅ (by decide) (by decide) (by omega)).append h₆ (by decide)
      (by decide) (by omega)
    refine (congrArg (WritesInt view address 16 s _) ?_).mp hall
    have hhi := hi.isLt
    rw [toNat_middle, toNat_part, toNat_part, toNat_part, toNat_part, toNat_part,
      BitVec.toNat_setWidth]
    omega
  · exact (writes_64_int h address hi s).append
      (writes_64_int h (address + 8) lo (ps16Write64Int p address hi s)) (by decide) (by decide) hlo

/-! ### Cycles elsewhere -/

/-- Nothing but reads outside the `n` bytes. -/
structure Aside (view : σ → BusMemory) (a : BitVec 32) (n : ℕ) (s s' : Session σ) : Prop where
  memory : view s'.device = view s.device
  cycles : ∃ new, s'.cycles = s.cycles ++ new ∧ ∀ c ∈ new, c.write = false ∧
    (c.size ≠ .byte → odd c.address = false) ∧ List.Disjoint c.bytes (addresses a n)

theorem aside_refl (s : Session σ) : Aside view a n s s :=
  ⟨rfl, [], (List.append_nil _).symm, fun _ hc ↦ absurd hc List.not_mem_nil⟩

theorem Aside.trans (h₁ : Aside view a n s s') (h₂ : Aside view a n s' s'') :
    Aside view a n s s'' := by
  obtain ⟨new₁, hnew₁, hall₁⟩ := h₁.cycles
  obtain ⟨new₂, hnew₂, hall₂⟩ := h₂.cycles
  refine ⟨h₂.memory.trans h₁.memory, new₁ ++ new₂, ?_, fun c hc ↦ ?_⟩
  · rw [hnew₂, hnew₁, List.append_assoc]
  · exact (List.mem_append.mp hc).elim (hall₁ c) (hall₂ c)

theorem disjoint_addresses {b : BitVec 32} (hbelow : n ≤ (b - a).toNat)
    (habove : (b - a).toNat + k ≤ 2 ^ 32) : List.Disjoint (addresses b k) (addresses a n) := by
  rintro x hx hx'
  obtain ⟨j, hj, rfl⟩ := mem_addresses.mp hx
  obtain ⟨i, hi, heq⟩ := mem_addresses.mp hx'
  have hdiff : b - a + BitVec.ofNat 32 j = BitVec.ofNat 32 i := by
    rw [sub_add_eq_add_sub, heq, add_sub_cancel_left]
  have hnat := congrArg BitVec.toNat hdiff
  rw [BitVec.toNat_add, BitVec.toNat_ofNat, BitVec.toNat_ofNat] at hnat
  omega

theorem aside_read (h : p.IsMemory view) (address : BitVec 32) (size : Size) (s : Session σ)
    (haligned : size ≠ .byte → odd address = false) (hbelow : n ≤ (address - a).toNat)
    (habove : (address - a).toNat + size.bytes ≤ 2 ^ 32) :
    Aside view a n s (ps16ReadAccess p address size s).2 := by
  refine ⟨h.read _ _ _ haligned, [⟨false, address, size⟩], rfl, fun c hc ↦ ?_⟩
  rw [List.mem_singleton.mp hc]
  exact ⟨rfl, haligned, disjoint_addresses hbelow habove⟩

theorem aside_slowIo (h : p.IsMemory view) (address : BitVec 32) (s : Session σ) (hn : n ≤ 16) :
    Aside view address n s (slowIo p address s) := by
  unfold slowIo
  split_ifs with hrange
  · obtain ⟨hlow, hhigh⟩ := hrange
    exact aside_read h _ .byte s (fun hne ↦ absurd rfl hne) (by bv_omega)
      (by rw [show Size.byte.bytes = 1 from rfl]; bv_omega)
  · exact aside_refl s

theorem aside_checkBlitActive (h : p.IsMemory view) (blitWait : Bool) (rounds : ℕ)
    (address : BitVec 32) (s : Session σ) (hn : n ≤ 16) :
    Aside view address n s (checkBlitActive p blitWait rounds address n s) := by
  unfold checkBlitActive
  split_ifs with hskip
  · exact aside_refl s
  · simp only [Bool.or_eq_true, decide_eq_true_eq, not_or, BitVec.not_le] at hskip
    obtain ⟨⟨-, hhigh⟩, hlow⟩ := hskip
    have hstatus : ∀ s : Session σ, Aside view address n s (ps16Read16 p 0xdff002 s).2 := fun s ↦
      aside_read h 0xdff002 .word s (fun _ ↦ by decide) (by bv_omega)
        (by rw [show Size.word.bytes = 2 from rfl]; bv_omega)
    have hdummy : ∀ s : Session σ, Aside view address n s (ps16Read8 p 0x00f00000 s).2 := fun s ↦
      aside_read h 0x00f00000 .byte s (fun hne ↦ absurd rfl hne) (by bv_omega)
        (by rw [show Size.byte.bytes = 1 from rfl]; bv_omega)
    refine Aside.trans ?_ (hstatus _)
    induction rounds generalizing s with
    | zero => exact aside_refl s
    | succ rounds ih =>
      exact (((hstatus s).trans (hdummy _)).trans (hdummy _)).trans (ih _)

/-- `n` bytes are written, each once and in ascending order. All other cycles are reads elsewhere. -/
structure Writes (view : σ → BusMemory) (a : BitVec 32) (n : ℕ) (s s' : Session σ) (value : ℕ) :
    Prop where
  memory : view s'.device = storeBytes (view s.device) (a.setWidth 24) n value
  cycles : ∃ new, s'.cycles = s.cycles ++ new ∧ Ascending true a n (new.filter (·.write)) ∧
    ∀ c ∈ new, c.write = false →
      (c.size ≠ .byte → odd c.address = false) ∧ List.Disjoint c.bytes (addresses a n)

/-- The read behind a write to the custom chips is elsewhere. -/
theorem custom_disjoint (hn : n ≤ 16) {b : BitVec 32} (hb : b ∈ addresses a n)
    (hcustom : isCustom b = true) :
    List.Disjoint (Cycle.bytes ⟨false, 0x00f80000, .word⟩) (addresses a n) := by
  obtain ⟨i, hi, rfl⟩ := mem_addresses.mp hb
  simp only [isCustom, decide_eq_true_eq] at hcustom
  obtain ⟨hlow, hhigh⟩ := hcustom
  exact disjoint_addresses (by bv_omega) (by rw [show Size.word.bytes = 2 from rfl]; bv_omega)

theorem WritesInt.surrounded {value : ℕ} {s₀ s₁ : Session σ} (h : WritesInt view a n s s' value)
    (hbefore : Aside view a n s₀ s) (hafter : Aside view a n s' s₁) (hn : n ≤ 16) :
    Writes view a n s₀ s₁ value := by
  obtain ⟨before, hbefore', hbeforeAll⟩ := hbefore.cycles
  obtain ⟨new, hnew, hasc, hother⟩ := h.cycles
  obtain ⟨after, hafter', hafterAll⟩ := hafter.cycles
  have hreads : ∀ cycles : List Cycle, (∀ c ∈ cycles, c.write = false ∧
      (c.size ≠ .byte → odd c.address = false) ∧ List.Disjoint c.bytes (addresses a n)) →
      cycles.filter (·.write) = [] := fun cycles hall ↦
    List.filter_eq_nil_iff.mpr fun c hc ↦ by rw [(hall c hc).1]; decide
  refine ⟨?_, before ++ (new ++ after), ?_, ?_, fun c hc hread ↦ ?_⟩
  · rw [hafter.memory, h.memory, hbefore.memory]
  · rw [hafter', hnew, hbefore', List.append_assoc, List.append_assoc]
  · rw [List.filter_append, List.filter_append, hreads _ hbeforeAll, hreads _ hafterAll,
      List.nil_append, List.append_nil]
    exact hasc
  · rcases List.mem_append.mp hc with hc | hc
    · exact (hbeforeAll c hc).2
    · rcases List.mem_append.mp hc with hc | hc
      · obtain ⟨rfl, b, hb, hcustom⟩ := hother c hc hread
        exact ⟨fun _ ↦ by decide, custom_disjoint hn hb hcustom⟩
      · exact (hafterAll c hc).2

/-- The bytes an access of any width reads or writes. -/
theorem ps16_accesses_transfer (h : p.IsMemory view) (address : BitVec 32) (s : Session σ) :
    Reads view address 1 s (ps16Read8 p address s).2 (ps16Read8 p address s).1.toNat ∧
    Reads view address 2 s (ps16Read16 p address s).2 (ps16Read16 p address s).1.toNat ∧
    Reads view address 4 s (ps16Read32 p address s).2 (ps16Read32 p address s).1.toNat ∧
    Reads view address 8 s (ps16Read64 p address s).2 (ps16Read64 p address s).1.toNat ∧
    Reads view address 16 s (ps16Read128 p address s).2.2
      ((ps16Read128 p address s).1.toNat * 2 ^ 64 + (ps16Read128 p address s).2.1.toNat) ∧
    (∀ data, Writes view address 1 s (ps16Write8 p address data s) (data.toNat % 2 ^ 8)) ∧
    ∀ blitWait rounds,
      (∀ data, Writes view address 2 s (ps16Write16 p blitWait rounds address data s)
        (data.toNat % 2 ^ 16)) ∧
      (∀ data, Writes view address 4 s (ps16Write32 p blitWait rounds address data s) data.toNat) ∧
      (∀ data, Writes view address 8 s (ps16Write64 p blitWait rounds address data s) data.toNat) ∧
      ∀ hi lo, Writes view address 16 s (ps16Write128 p blitWait rounds address hi lo s)
        (hi.toNat * 2 ^ 64 + lo.toNat) := by
  refine ⟨reads_8 h address s, reads_16 h address s, reads_32 h address s, reads_64 h address s,
    reads_128 h address s, fun data ↦ ?_, fun blitWait rounds ↦ ⟨fun data ↦ ?_, fun data ↦ ?_,
    fun data ↦ ?_, fun hi lo ↦ ?_⟩⟩
  · exact (writes_8_int h address data s).surrounded (aside_refl s)
      (aside_slowIo h address _ (by decide)) (by decide)
  · exact (writes_16_int h address data _).surrounded
      (aside_checkBlitActive h blitWait rounds address s (by decide))
      (aside_slowIo h address _ (by decide)) (by decide)
  · exact (writes_32_int h address data _).surrounded
      (aside_checkBlitActive h blitWait rounds address s (by decide))
      (aside_slowIo h address _ (by decide)) (by decide)
  · exact (writes_64_int h address data _).surrounded
      (aside_checkBlitActive h blitWait rounds address s (by decide))
      (aside_slowIo h address _ (by decide)) (by decide)
  · exact (writes_128_int h address hi lo _).surrounded
      (aside_checkBlitActive h blitWait rounds address s (by decide))
      (aside_slowIo h address _ (by decide)) (by decide)

/-- A memory behind the bus. -/
def memoryPorts : Ports BusMemory where
  read m address size := (match size with
    | .byte => (m (address.setWidth 24) ++ m (address.setWidth 24)).setWidth 32
    | size => BitVec.ofNat 32 (loadBytes m (address.setWidth 24) size.bytes), m)
  write m address data size := storeBytes m (address.setWidth 24) size.bytes data.toNat

theorem memoryPorts_isMemory : memoryPorts.IsMemory id where
  byte := fun m address ↦ ⟨m (address.setWidth 24), by
    show _ = (ite _ (m (address.setWidth 24) ++ m (address.setWidth 24)) _).setWidth 32
    rw [id, ite_self]
    rfl⟩
  word := fun m address _ ↦ Nat.mod_eq_of_lt ((loadBytes_lt m _ 2).trans (by decide))
  long := fun m address _ ↦ Nat.mod_eq_of_lt (loadBytes_lt m _ 4)
  read := fun _ _ _ _ ↦ rfl
  writeByte := fun m address x ↦ by
    show storeBytes m _ 1 ((x ++ x).setWidth 32).toNat = _
    rw [← storeBytes_mod, BitVec.toNat_setWidth, toNat_append, id]
    congr 1
    have hx := x.isLt
    omega
  writeWord := fun m address data _ ↦ (storeBytes_mod m _ 2 data.toNat).symm
  writeLong := fun _ _ _ _ ↦ rfl

/-- A long write at an odd address. -/
theorem ps16_accesses_transfer_odd :
    Writes id 0x1001 4 ⟨fun _ ↦ 0, []⟩ (ps16Write32 memoryPorts true 0 0x1001 0x12345678
      ⟨fun _ ↦ 0, []⟩) 0x12345678 :=
  ((ps16_accesses_transfer memoryPorts_isMemory 0x1001 ⟨fun _ ↦ 0, []⟩).2.2.2.2.2.2 true 0).2.1
    0x12345678

end Emu68.PiStorm.Split
