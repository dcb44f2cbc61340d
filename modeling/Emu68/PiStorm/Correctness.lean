import Emu68.PiStorm.TwoSlot

/-!
Bytes behind the bus, and the theorem about the two-slot protocol. If the device behaves as a memory
of bytes, the reads of all widths return the bytes, most significant first, that the writes before
them have stored.
-/

set_option autoImplicit false
set_option relaxedAutoImplicit false

namespace Emu68.PiStorm

open Lib

/-! ### Byte memory -/

abbrev BusMemory := BitVec 24 → BitVec 8

/-- The value of `n` bytes, the most significant one first. -/
def loadBytes (m : BusMemory) (a : BitVec 24) : ℕ → ℕ
  | 0 => 0
  | n + 1 => loadBytes m a n * 256 + (m (a + BitVec.ofNat 24 n)).toNat

def storeBytes (m : BusMemory) (a : BitVec 24) (n value : ℕ) : BusMemory := fun b ↦
  if (b - a).toNat < n then BitVec.ofNat 8 (value / 256 ^ (n - 1 - (b - a).toNat)) else m b

theorem loadBytes_add (m : BusMemory) (a : BitVec 24) (n k : ℕ) :
    loadBytes m a (n + k) =
      loadBytes m a n * 256 ^ k + loadBytes m (a + BitVec.ofNat 24 n) k := by
  induction k with
  | zero => rw [Nat.add_zero, pow_zero, mul_one, loadBytes, Nat.add_zero]
  | succ k ih =>
    have haddress : a + BitVec.ofNat 24 (n + k) =
        a + BitVec.ofNat 24 n + BitVec.ofNat 24 k := by
      rw [BitVec.add_assoc, BitVec.ofNat_add]
    rw [← Nat.add_assoc, loadBytes, ih, loadBytes, haddress, pow_succ]
    ring

theorem toNat_sub_add (a b : BitVec 24) {n : ℕ} (hn : n < 2 ^ 24) :
    (b - (a + BitVec.ofNat 24 n)).toNat =
      if n ≤ (b - a).toNat then (b - a).toNat - n else (b - a).toNat + 2 ^ 24 - n := by
  have hsub : b - (a + BitVec.ofNat 24 n) = b - a - BitVec.ofNat 24 n := sub_add_eq_sub_sub _ _ _
  have hlt := (b - a).isLt
  rw [hsub, BitVec.toNat_sub, BitVec.toNat_ofNat, Nat.mod_eq_of_lt hn]
  split <;> omega

/-- Two stores next to each other. -/
theorem storeBytes_storeBytes (m : BusMemory) (a : BitVec 24) {n k hi lo : ℕ} (hk : 0 < k)
    (hle : n + k ≤ 2 ^ 24) (hlo : lo < 256 ^ k) :
    storeBytes (storeBytes m a n hi) (a + BitVec.ofNat 24 n) k lo =
      storeBytes m a (n + k) (hi * 256 ^ k + lo) := by
  funext b
  have hpos : ∀ e, 0 < 256 ^ e := fun e ↦ Nat.pow_pos (by decide)
  unfold storeBytes
  rw [toNat_sub_add a b (show n < 2 ^ 24 by omega)]
  set x := (b - a).toNat with hx
  by_cases hlow : x < n
  · -- the byte is in the first store
    rw [if_neg (not_le.mpr hlow), if_neg (by omega), if_pos hlow, if_pos (by omega),
      show n + k - 1 - x = k + (n - 1 - x) by omega, pow_add, ← Nat.div_div_eq_div_mul,
      Nat.mul_comm hi, Nat.mul_add_div (hpos k), Nat.div_eq_of_lt hlo, Nat.add_zero]
  · rw [if_pos (not_lt.mp hlow)]
    by_cases hhigh : x - n < k
    · -- the byte is in the second store
      obtain ⟨e, he, hke⟩ : ∃ e, k - 1 - (x - n) = e ∧ k = e + 1 + (x - n) := ⟨_, rfl, by omega⟩
      rw [if_pos hhigh, if_pos (by omega), show n + k - 1 - x = e by omega, he]
      apply BitVec.eq_of_toNat_eq
      rw [BitVec.toNat_ofNat, BitVec.toNat_ofNat, hke,
        show hi * 256 ^ (e + 1 + (x - n)) + lo = 256 ^ e * (256 * (hi * 256 ^ (x - n))) + lo by
          ring, Nat.mul_add_div (hpos e), show 2 ^ 8 = 256 by rfl, Nat.mul_add_mod]
    · rw [if_neg hhigh, if_neg hlow, if_neg (by omega)]

/-! ### A device that is a memory -/

def Size.bytes : Size → ℕ
  | .byte => 1
  | .word => 2
  | .long => 4

/-- The device stores bytes, which `view` shows. -/
structure Device.IsMemory {σ : Type*} (d : Device σ) (view : σ → BusMemory) : Prop where
  write : ∀ m address data size, view (d.transfer m (.writeAt address data size)).1 =
    storeBytes (view m) (address.setWidth 24) size.bytes data.toNat
  read : ∀ m address size, view (d.transfer m (.readAt address size)).1 = view m
  value : ∀ m address size,
    (usedData (size.code.setWidth 2) (d.transfer m (.readAt address size)).2).toNat =
      loadBytes (view m) (address.setWidth 24) size.bytes

/-- The bytes after an access. -/
def Access.store (m : BusMemory) : Access → BusMemory
  | .write address data size => storeBytes m (address.setWidth 24) size.bytes data.toNat
  | .write64 address data => storeBytes m (address.setWidth 24) 8 data.toNat
  | .write128 address hi lo => storeBytes m (address.setWidth 24) 16 (hi ++ lo).toNat
  | _ => m

/-- The bytes that an access reads. -/
def Access.load (m : BusMemory) : Access → List (BitVec 128)
  | .read address size => [BitVec.ofNat 128 (loadBytes m (address.setWidth 24) size.bytes)]
  | .read64 address => [BitVec.ofNat 128 (loadBytes m (address.setWidth 24) 8)]
  | .read128 address => [BitVec.ofNat 128 (loadBytes m (address.setWidth 24) 16)]
  | _ => []

/-- Each read returns the bytes that the accesses before it have left. -/
def readBytes (m : BusMemory) : List Access → List (BitVec 128)
  | [] => []
  | a :: rest => a.load m ++ readBytes (a.store m) rest

variable {σ : Type*} {d : Device σ} {view : σ → BusMemory}

theorem setWidth_add_four (address : BitVec 32) :
    (address + 4).setWidth 24 = address.setWidth 24 + BitVec.ofNat 24 4 :=
  BitVec.setWidth_add _ _ (by decide)

theorem setWidth_add_eight (address : BitVec 32) :
    (address + 4 + 4).setWidth 24 = address.setWidth 24 + BitVec.ofNat 24 8 := by
  rw [setWidth_add_four, setWidth_add_four, BitVec.add_assoc]
  rfl

theorem setWidth_add_twelve (address : BitVec 32) :
    (address + 4 + 4 + 4).setWidth 24 = address.setWidth 24 + BitVec.ofNat 24 12 := by
  rw [setWidth_add_four, setWidth_add_eight, BitVec.add_assoc]
  rfl

theorem Device.IsMemory.run_customRead (h : d.IsMemory view) (m : σ) (address : BitVec 32) :
    view (d.run m (customRead address)) = view m := by
  unfold customRead
  split
  · exact h.read m _ _
  · rfl

theorem toNat_quad (data : BitVec 64) :
    (data.extractLsb' 32 32).toNat * 256 ^ 4 + (data.setWidth 32).toNat = data.toNat := by
  have hlt := data.isLt
  rw [BitVec.extractLsb'_toNat, Nat.shiftRight_eq_div_pow, BitVec.toNat_setWidth]
  omega

theorem toNat_lt_pow (data : BitVec 32) : data.toNat < 256 ^ 4 := data.isLt

theorem Device.IsMemory.store (h : d.IsMemory view) (m : σ) (a : Access) :
    view (d.run m a.transfers) = a.store (view m) := by
  cases a with
  | read address size => exact h.read m address size
  | read64 address => exact (h.read _ _ _).trans (h.read m _ _)
  | read128 address =>
    exact (h.read _ _ _).trans ((h.read _ _ _).trans ((h.read _ _ _).trans (h.read m _ _)))
  | write address data size => exact (h.run_customRead _ _).trans (h.write m address data size)
  | write64 address data =>
    refine (h.run_customRead _ _).trans ?_
    rw [h.write, h.write, setWidth_add_four, Access.store]
    simp only [Size.bytes]
    rw [storeBytes_storeBytes _ _ (by decide) (by decide) (toNat_lt_pow _), toNat_quad]
  | write128 address hi lo =>
    refine (h.run_customRead _ _).trans ?_
    rw [h.write, h.write, h.write, h.write, setWidth_add_twelve, setWidth_add_eight,
      setWidth_add_four, Access.store]
    simp only [Size.bytes]
    rw [storeBytes_storeBytes _ _ (by decide) (by decide) (toNat_lt_pow _), toNat_quad,
      storeBytes_storeBytes _ _ (by decide) (by decide) (toNat_lt_pow _),
      storeBytes_storeBytes _ _ (by decide) (by decide) (toNat_lt_pow _)]
    congr 1
    rw [toNat_append, ← toNat_quad lo]
    ring

theorem loadBytes_lt (m : BusMemory) (a : BitVec 24) (n : ℕ) : loadBytes m a n < 256 ^ n := by
  induction n with
  | zero => exact Nat.one_pos
  | succ n ih =>
    have hbyte := (m (a + BitVec.ofNat 24 n)).isLt
    rw [loadBytes, pow_succ]
    omega

/-- The answer to a long read. -/
theorem Device.IsMemory.long (h : d.IsMemory view) (m : σ) (address : BitVec 32) :
    (d.transfer m (.readAt address .long)).2.toNat =
      loadBytes (view m) (address.setWidth 24) 4 :=
  h.value m address .long

theorem loadBytes_add_four (m : BusMemory) (a : BitVec 24) (n : ℕ) :
    loadBytes m a (n + 4) =
      loadBytes m a n * 2 ^ 32 + loadBytes m (a + BitVec.ofNat 24 n) 4 :=
  loadBytes_add m a n 4

theorem Device.IsMemory.load (h : d.IsMemory view) (m : σ) (a : Access) :
    a.value (d.answers m a.transfers) = a.load (view m) := by
  cases a with
  | read address size =>
    refine congrArg (fun x ↦ [x]) ?_
    apply BitVec.eq_of_toNat_eq
    rw [BitVec.toNat_setWidth, h.value, BitVec.toNat_ofNat]
  | read64 address =>
    refine congrArg (fun x ↦ [x]) ?_
    apply BitVec.eq_of_toNat_eq
    rw [BitVec.toNat_setWidth, BitVec.toNat_ofNat, toNat_append, h.long, h.long, h.read,
      setWidth_add_four, ← loadBytes_add_four _ _ 4]
  | read128 address =>
    refine congrArg (fun x ↦ [x]) ?_
    have hlt : loadBytes (view m) (address.setWidth 24) 16 < 2 ^ (32 + 32 + 32 + 32) :=
      loadBytes_lt (view m) (address.setWidth 24) 16
    apply BitVec.eq_of_toNat_eq
    rw [BitVec.toNat_ofNat, Nat.mod_eq_of_lt hlt, loadBytes_add_four _ _ 12,
      loadBytes_add_four _ _ 8, loadBytes_add_four _ _ 4, toNat_append, toNat_append, toNat_append, h.long, h.long, h.long,
      h.long, setWidth_add_twelve, setWidth_add_eight, setWidth_add_four]
    simp only [h.read]
  | write address data size => rfl
  | write64 address data => rfl
  | write128 address hi lo => rfl

theorem Device.IsMemory.readValues_eq (h : d.IsMemory view) (m : σ) (accesses : List Access) :
    readValues d m accesses = readBytes (view m) accesses := by
  induction accesses generalizing m with
  | nil => rfl
  | cons a rest ih => rw [readValues, readBytes, h.load, ih, h.store]

/-! ### The protocol -/

/-- What holds in a configuration that `accesses` have reached. -/
structure Correct (d : Device σ) (device : σ) (accesses : List Access)
    (c : Thread.Config Instr (State σ)) : Prop where
  /-- Registers are written only while their slot rests, and the slots agree. -/
  permitted : ∀ i rest, c.rest = i :: rest → Permitted i c.state
  started : c.state.started <+: transfers accesses
  results : c.state.results <+: readValues d device accesses
  bytes : ∀ view, d.IsMemory view → c.state.results <+: readBytes (view device) accesses
  progress : c.rest = [] ∨ ∃ c', (protocol d).Step c c'
  /-- There is no run without an end. -/
  ends : Acc (fun c₂ c₁ ↦ (protocol d).Step c₁ c₂) c
  /-- At the end everything has been started, once, and read. -/
  finished : c.rest = [] → c.state.started = transfers accesses ∧
    c.state.results = readValues d device accesses ∧ c.state.nextSlot = fpgaNext c.state

/-- The two-slot protocol is correct for every sequence of accesses, every device, and every order
in which software and FPGA take their steps. -/
theorem twoSlot_correct (d : Device σ) (device : σ) (accesses : List Access)
    (c : Thread.Config Instr (State σ)) (h : Reached d device accesses c) :
    Correct d device accesses c := by
  have hcovered := h.covered
  obtain ⟨hstarted, hresults⟩ := h.history
  refine ⟨fun i rest hrest ↦ ?_, hstarted, hresults, fun view hview ↦ ?_, hcovered.progress,
    (Thread.step_wellFounded (protocol d) work fun s s' henv ↦ Fpga.work_lt henv).apply c,
    fun hrest ↦ ?_⟩
  · obtain ⟨rest', s⟩ := c
    obtain rfl : rest' = i :: rest := hrest
    exact hcovered.permits
  · rw [← hview.readValues_eq]
    exact hresults
  · obtain ⟨rest, s⟩ := c
    obtain rfl : rest = [] := hrest
    have hidle := hcovered.final
    obtain ⟨done, hhardware⟩ := hidle.hardware
    exact ⟨hhardware.started, hidle.results, hidle.agree⟩

/-- A memory behind the FPGA. -/
def memoryDevice : Device BusMemory where
  transfer m t :=
    let n := if t.size = 0 then 1 else if t.size = 1 then 2 else 4
    if t.read then (m, BitVec.ofNat 32 (loadBytes m t.address n))
    else (storeBytes m t.address n t.data.toNat, 0)

/-- A store uses as many bytes of its value as it stores. -/
theorem storeBytes_mod (m : BusMemory) (a : BitVec 24) (n value : ℕ) :
    storeBytes m a n (value % 256 ^ n) = storeBytes m a n value := by
  funext b
  unfold storeBytes
  split
  · rename_i hlt
    obtain ⟨e, he, hn⟩ : ∃ e, n - 1 - (b - a).toNat = e ∧ n = e + 1 + (b - a).toNat :=
      ⟨_, rfl, by omega⟩
    apply BitVec.eq_of_toNat_eq
    rw [BitVec.toNat_ofNat, BitVec.toNat_ofNat, he]
    have hsplit := Nat.div_add_mod value (256 ^ n)
    conv_rhs => rw [← hsplit]
    rw [hn, show 256 ^ (e + 1 + (b - a).toNat) * (value / 256 ^ (e + 1 + (b - a).toNat)) =
      256 ^ e * (256 * (256 ^ (b - a).toNat * (value / 256 ^ (e + 1 + (b - a).toNat)))) by ring,
      Nat.mul_add_div (Nat.pow_pos (by decide)), show 2 ^ 8 = 256 by rfl, Nat.mul_add_mod]
  · rfl

theorem memoryDevice_isMemory : memoryDevice.IsMemory id where
  write m address data size := by
    cases size with
    | byte =>
      refine (congrArg (storeBytes m (address.setWidth 24) 1) ?_).trans
        (storeBytes_mod m (address.setWidth 24) 1 data.toNat)
      show (((data.setWidth 8).setWidth 32 : BitVec 32)).toNat = _
      simp only [BitVec.toNat_setWidth]
      omega
    | word =>
      refine (congrArg (storeBytes m (address.setWidth 24) 2) ?_).trans
        (storeBytes_mod m (address.setWidth 24) 2 data.toNat)
      show (((data.setWidth 16).setWidth 32 : BitVec 32)).toNat = _
      simp only [BitVec.toNat_setWidth]
      omega
    | long => rfl
  read m address size := rfl
  value m address size := by
    cases size with
    | byte =>
      have hlt := loadBytes_lt m (address.setWidth 24) 1
      show (((BitVec.ofNat 32 (loadBytes m (address.setWidth 24) 1)).setWidth 8).setWidth 32
        : BitVec 32).toNat = _
      simp only [BitVec.toNat_setWidth, BitVec.toNat_ofNat]
      show _ = loadBytes m (address.setWidth 24) 1
      omega
    | word =>
      have hlt := loadBytes_lt m (address.setWidth 24) 2
      show (((BitVec.ofNat 32 (loadBytes m (address.setWidth 24) 2)).setWidth 16).setWidth 32
        : BitVec 32).toNat = _
      simp only [BitVec.toNat_setWidth, BitVec.toNat_ofNat]
      show _ = loadBytes m (address.setWidth 24) 2
      omega
    | long =>
      have hlt := loadBytes_lt m (address.setWidth 24) 4
      show (BitVec.ofNat 32 (loadBytes m (address.setWidth 24) 4)).toNat = _
      rw [BitVec.toNat_ofNat]
      exact Nat.mod_eq_of_lt hlt

/-- A word written to the chip memory, and the long word around it read back. -/
def writeThenRead : List Access :=
  [.write64 0x1000 0x1122334455667788, .write 0x1002 0xabcd .word, .read64 0x1000]

theorem twoSlot_correct_writeThenRead :
    ∃ c, Reached memoryDevice (fun _ ↦ 0) writeThenRead c ∧ c.rest = [] ∧
      c.state.started.length = 5 ∧ c.state.results = [0x1122abcd55667788] := by
  have hstart : Reached memoryDevice (fun _ ↦ 0) writeThenRead
      ⟨program writeThenRead, resetState (fun _ ↦ 0) false fun _ ↦ ⟨0, 0, 0, 0⟩⟩ :=
    ⟨_, _, .refl⟩
  obtain ⟨s, hrun, -⟩ := hstart.covered.completes work fun s s' henv ↦ Fpga.work_lt henv
  have hend : Reached memoryDevice (fun _ ↦ 0) writeThenRead ⟨[], s⟩ := ⟨_, _, hrun⟩
  obtain ⟨hstarted, hresults, -⟩ :=
    (twoSlot_correct memoryDevice (fun _ ↦ 0) writeThenRead ⟨[], s⟩ hend).finished rfl
  rw [memoryDevice_isMemory.readValues_eq] at hresults
  refine ⟨⟨[], s⟩, hend, rfl, ?_, ?_⟩
  · rw [hstarted]
    decide
  · rw [hresults]
    decide

end Emu68.PiStorm
