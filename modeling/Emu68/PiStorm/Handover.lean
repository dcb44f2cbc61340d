import Emu68.PiStorm.Hardware

/-!
The hand-over of a slot, step by step. The assertions below hold between the register operations of
an access: `Idle` between two transactions, `Free` when a slot has been taken, `Begun` when its
transaction has been started, `Ended` when the transaction has been waited for, and `Quiet` when
the software has gone on to the other slot after that. The FPGA keeps all of them.
-/

set_option autoImplicit false
set_option relaxedAutoImplicit false

namespace Emu68.PiStorm

open Lib

variable {σ : Type*}

/-! ### Assertions -/

variable (d : Device σ) (m₀ : σ) (log : List Txn) (words : List (BitVec 16))
  (results : List (BitVec 128))

/-- The software is between two transactions. A slot that runs is marked as active. -/
structure Idle (s : State σ) : Prop where
  hardware : ∃ done, Hardware d m₀ log done s
  active : ∀ slot, s.running slot = true → s.slotActive slot = true
  nextSlot : s.nextSlot = slotOf log.length
  words : s.words = words
  results : s.results = results

/-- The next slot is selected and does not run, and its registers are as `R` says. -/
structure Free (R : SlotRegs → Prop) (s : State σ) : Prop
    extends Idle d m₀ log words results s where
  regSlot : s.regSlot = slotOf log.length
  rests : s.running (slotOf log.length) = false
  regs : R (s.regs (slotOf log.length))

/-- The transaction `t` has been started in the next slot. -/
structure Begun (t : Txn) (s : State σ) : Prop where
  hardware : ∃ done, Hardware d m₀ (log ++ [t]) done s
  active : ∀ slot, slot ≠ slotOf log.length → s.running slot = true → s.slotActive slot = true
  nextSlot : s.nextSlot = slotOf log.length
  regSlot : s.regSlot = slotOf log.length
  words : s.words = words
  results : s.results = results

/-- The transaction `t` has been started in the next slot, and everything is executed. -/
structure Ended (t : Txn) (s : State σ) : Prop where
  hardware : Hardware d m₀ (log ++ [t]) (log ++ [t]).length s
  nextSlot : s.nextSlot = slotOf log.length
  regSlot : s.regSlot = slotOf log.length
  words : s.words = words
  results : s.results = results

/-- The software has turned to the other slot, and everything is executed. -/
structure Quiet (t : Txn) (s : State σ) : Prop where
  hardware : Hardware d m₀ (log ++ [t]) (log ++ [t]).length s
  nextSlot : s.nextSlot = slotOf (log ++ [t]).length
  regSlot : s.regSlot = slotOf log.length
  words : s.words = words
  results : s.results = results

/-- What must hold where an instruction is executed: a register is written only while its slot does
not run, and `next_slot` is the slot that the FPGA comes to next, except between the start of a
transaction and the change of `next_slot`. -/
def Permitted (i : Instr) (s : State σ) : Prop :=
  match i with
  | .selectSlot => s.nextSlot = fpgaNext s
  | .writeReg _ _ | .start _ =>
    s.running s.regSlot = false ∧ s.regSlot = s.nextSlot ∧ s.nextSlot = fpgaNext s
  | .toggle => s.nextSlot ≠ fpgaNext s
  | _ => True

variable {d : Device σ} {m₀ : σ} {log : List Txn} {words : List (BitVec 16)}
  {results : List (BitVec 128)} {R R' : SlotRegs → Prop} {t : Txn} {s s' : State σ}

/-! ### The assertions are stable -/

theorem Idle.fpga (h : Idle d m₀ log words results s) (hstep : Fpga d s s') :
    Idle d m₀ log words results s' := by
  obtain ⟨done, hhardware⟩ := h.hardware
  have hframe := hstep.frame
  refine ⟨⟨done + 1, hhardware.fpga hstep⟩, fun slot hrun ↦ ?_, hframe.nextSlot.trans h.nextSlot,
    hframe.words.trans h.words, hframe.results.trans h.results⟩
  rw [hframe.slotActive]
  exact h.active slot (hframe.running slot hrun)

theorem Idle.stable : (protocol d).Stable (Idle d m₀ log words results) :=
  fun _ _ h hstep ↦ h.fpga hstep

theorem Free.stable : (protocol d).Stable (Free d m₀ log words results R) := by
  intro s s' h hstep
  have hframe := hstep.frame
  refine ⟨h.toIdle.fpga hstep, hframe.regSlot.trans h.regSlot, ?_, ?_⟩
  · rw [← Bool.not_eq_true]
    intro hrun
    exact absurd h.rests (by rw [hframe.running _ hrun]; decide)
  · rw [hframe.regs _ h.rests]
    exact h.regs

theorem Begun.stable : (protocol d).Stable (Begun d m₀ log words results t) := by
  intro s s' h hstep
  obtain ⟨done, hhardware⟩ := h.hardware
  have hframe := hstep.frame
  refine ⟨⟨done + 1, hhardware.fpga hstep⟩, fun slot hne hrun ↦ ?_,
    hframe.nextSlot.trans h.nextSlot, hframe.regSlot.trans h.regSlot, hframe.words.trans h.words,
    hframe.results.trans h.results⟩
  rw [hframe.slotActive]
  exact h.active slot hne (hframe.running slot hrun)

/-- When everything is executed, the FPGA does nothing. -/
theorem Hardware.rests (h : Hardware d m₀ log log.length s) : ¬ Fpga d s s' := by
  rintro ⟨due⟩
  rw [h.idle] at due
  exact Bool.false_ne_true due

theorem Ended.stable : (protocol d).Stable (Ended d m₀ log words results t) :=
  fun _ _ h hstep ↦ absurd hstep h.hardware.rests

theorem Quiet.stable : (protocol d).Stable (Quiet d m₀ log words results t) :=
  fun _ _ h hstep ↦ absurd hstep h.hardware.rests

/-! ### The steps -/

theorem Idle.agree (h : Idle d m₀ log words results s) : s.nextSlot = fpgaNext s := by
  obtain ⟨done, hhardware⟩ := h.hardware
  rw [h.nextSlot, hhardware.fpgaNext_eq]

/-- Registers that are written while their slot rests do not matter to the FPGA. -/
theorem Hardware.congr {done : ℕ} (h : Hardware d m₀ log done s) (hstarted : s'.started = s.started)
    (hdevice : s'.device = s.device) (hexec : s'.execSlot = s.execSlot)
    (hrunning : s'.running = s.running)
    (hregs : ∀ slot, slot ≠ slotOf log.length → s'.regs slot = s.regs slot)
    (hrests : s.running (slotOf log.length) = false) : Hardware d m₀ log done s' where
  started := hstarted.trans h.started
  done_le := h.done_le
  length_le := h.length_le
  device := hdevice.trans h.device
  execSlot := hexec.trans h.execSlot
  running := hrunning ▸ h.running
  held k hk hge := by
    rw [hregs _ ((h.not_running _).mp hrests k hge hk)]
    exact h.held k hk hge
  answer hdone front t hlog hread := by
    have hne : slotOf front.length ≠ slotOf log.length := by
      rw [hlog, List.length_append, List.length_singleton]
      exact (slotOf_ne _).symm
    rw [hregs _ hne]
    exact h.answer hdone front t hlog hread

/-- Nothing of the FPGA changes. -/
theorem Hardware.same {done : ℕ} (h : Hardware d m₀ log done s) (hstarted : s'.started = s.started)
    (hdevice : s'.device = s.device) (hexec : s'.execSlot = s.execSlot)
    (hrunning : s'.running = s.running) (hregs : s'.regs = s.regs) :
    Hardware d m₀ log done s' where
  started := hstarted.trans h.started
  done_le := h.done_le
  length_le := h.length_le
  device := hdevice.trans h.device
  execSlot := hexec.trans h.execSlot
  running := hrunning ▸ h.running
  held := hregs ▸ h.held
  answer := hregs ▸ h.answer

/-- The slot that is due for the next transaction, taken and waited for. -/
theorem takeSlot_outline :
    (protocol d).Outline Permitted (Idle d m₀ log words results) takeSlot
      (Free d m₀ log words results fun _ ↦ True) := by
  let Q : State σ → Prop := fun s ↦ Idle d m₀ log words results s ∧ s.regSlot = slotOf log.length
  refine .cons _ Q _ _ _ Idle.stable (fun s h ↦ h.agree) (fun s h ↦ .inl trivial) ?_
    (.cons Q _ _ _ _ ?_ (fun s h ↦ trivial) ?_ ?_ (.done Free.stable))
  · intro s h _
    obtain ⟨done, hhardware⟩ := h.hardware
    exact ⟨⟨⟨done, hhardware.same rfl rfl rfl rfl rfl⟩, h.active, h.nextSlot, h.words, h.results⟩,
      h.nextSlot⟩
  · intro s s' h hstep
    exact ⟨h.1.fpga hstep, hstep.frame.regSlot.trans h.2⟩
  · rintro s ⟨h, hregSlot⟩
    by_cases hrun : s.running s.regSlot = true
    · obtain ⟨done, hhardware⟩ := h.hardware
      exact .inr (hhardware.canStep hrun)
    · exact .inl fun _ ↦ Bool.eq_false_iff.mpr hrun
  · rintro s ⟨h, hregSlot⟩ henabled
    refine ⟨h, hregSlot, ?_, trivial⟩
    -- a slot that is not active does not run, and an active one has been waited for
    by_cases hactive : s.slotActive s.nextSlot = true
    · rw [← hregSlot]
      exact henabled hactive
    · rw [← h.nextSlot, ← Bool.not_eq_true]
      exact fun hrun ↦ hactive (h.active _ hrun)

/-- Where everything is executed, a slot can be taken without a look at it. -/
theorem selectSlot_outline :
    (protocol d).Outline Permitted (Quiet d m₀ log words results t) [.selectSlot]
      (Free d m₀ (log ++ [t]) words results fun _ ↦ True) := by
  refine .single Quiet.stable Free.stable (fun s h ↦ ?_) (fun s h ↦ trivial) (fun s h ↦ ?_)
  · show s.nextSlot = fpgaNext s
    rw [h.nextSlot, h.hardware.fpgaNext_eq]
  · exact ⟨⟨⟨_, h.hardware.same rfl rfl rfl rfl rfl⟩, fun slot hrun ↦ absurd (h.hardware.idle slot)
      (by rw [show s.running slot = true from hrun]; decide), h.nextSlot, h.words, h.results⟩,
      h.nextSlot, h.hardware.idle _, trivial⟩

theorem Free.permits (h : Free d m₀ log words results R s) :
    s.running s.regSlot = false ∧ s.regSlot = s.nextSlot ∧ s.nextSlot = fpgaNext s := by
  refine ⟨?_, h.regSlot.trans h.nextSlot.symm, h.agree⟩
  rw [h.regSlot]
  exact h.rests

theorem writeReg_outline {reg : DataReg} {value : BitVec 16}
    (hregs : ∀ r, R r → R' (r.write value reg)) :
    (protocol d).Outline Permitted (Free d m₀ log words results R) [.writeReg reg value]
      (Free d m₀ log words results R') := by
  refine .single Free.stable Free.stable (fun s h ↦ h.permits) (fun s h ↦ trivial) (fun s h ↦ ?_)
  obtain ⟨done, hhardware⟩ := h.hardware
  refine ⟨⟨⟨done, hhardware.congr rfl rfl rfl rfl ?_ h.rests⟩, h.active, h.nextSlot, h.words,
    h.results⟩, h.regSlot, h.rests, ?_⟩
  · intro slot hne
    show Function.update s.regs s.regSlot _ slot = _
    rw [Function.update_of_ne (by rwa [h.regSlot])]
  · show R' (Function.update s.regs s.regSlot _ (slotOf log.length))
    rw [h.regSlot, Function.update_self]
    exact hregs _ h.regs

/-- The FPGA gets a transaction. -/
theorem Hardware.start {done : ℕ} (h : Hardware d m₀ log done s)
    (hrests : s.running (slotOf log.length) = false) (hstarted : s'.started = log ++ [t])
    (hdevice : s'.device = s.device) (hexec : s'.execSlot = s.execSlot)
    (hrunning : s'.running = Function.update s.running (slotOf log.length) true)
    (hregs : ∀ slot, slot ≠ slotOf log.length → s'.regs slot = s.regs slot)
    (htxn : (s'.regs (slotOf log.length)).txn = t) : Hardware d m₀ (log ++ [t]) done s' := by
  have hfree := (h.not_running _).mp hrests
  have hdone := h.done_le
  have hlength := h.length_le
  refine ⟨hstarted, ?_, ?_, ?_, hexec.trans h.execSlot, fun slot ↦ ?_, fun k hk hge ↦ ?_,
    fun hlast ↦ ?_⟩
  · simp only [List.length_append, List.length_singleton]
    omega
  · -- two transactions that run would be in both slots
    have hne : log.length ≠ done + 2 := by
      intro heq
      exact hfree done le_rfl (by omega) (by rw [heq, slotOf_add_two])
    simp only [List.length_append, List.length_singleton]
    omega
  · rw [hdevice, h.device, List.take_append_of_le_length hdone]
  · rw [hrunning, Function.update_apply]
    simp only [List.length_append, List.length_singleton]
    by_cases hslot : slot = slotOf log.length
    · rw [if_pos hslot]
      exact iff_of_true rfl ⟨log.length, hdone, Nat.lt_succ_self _, hslot.symm⟩
    · rw [if_neg hslot, h.running]
      constructor
      · rintro ⟨k, hge, hlt, hk⟩
        exact ⟨k, hge, by omega, hk⟩
      · rintro ⟨k, hge, hlt, rfl⟩
        refine ⟨k, hge, ?_, rfl⟩
        rcases Nat.lt_succ_iff_lt_or_eq.mp hlt with hlt | rfl
        · exact hlt
        · exact absurd rfl hslot
  · simp only [List.length_append, List.length_singleton] at hk
    rcases Nat.lt_succ_iff_lt_or_eq.mp hk with hlt | rfl
    · rw [hregs _ (hfree k hge hlt), h.held k hlt hge, List.getElem_append_left]
    · rw [htxn, List.getElem_append_right le_rfl]
      simp
  · simp only [List.length_append, List.length_singleton] at hlast
    omega

theorem start_outline {value : BitVec 16} (htxn : ∀ r, R r → { r with addrHi := value }.txn = t) :
    (protocol d).Outline Permitted (Free d m₀ log words results R) [.start value]
      (Begun d m₀ log words results t) := by
  refine .single Free.stable Begun.stable (fun s h ↦ h.permits) (fun s h ↦ trivial) (fun s h ↦ ?_)
  obtain ⟨done, hhardware⟩ := h.hardware
  have hregSlot := h.regSlot
  refine ⟨⟨done, hhardware.start h.rests ?_ rfl rfl ?_ ?_ ?_⟩, fun slot hne hrun ↦ ?_,
    h.nextSlot, h.regSlot, h.words, h.results⟩
  · show s.started ++ [{ s.regs s.regSlot with addrHi := value }.txn] = _
    rw [hhardware.started, htxn _ (by rw [hregSlot]; exact h.regs)]
  · show Function.update s.running s.regSlot true = _
    rw [hregSlot]
  · intro slot hne
    show Function.update s.regs s.regSlot _ slot = _
    rw [Function.update_of_ne (by rwa [hregSlot])]
  · show (Function.update s.regs s.regSlot _ (slotOf log.length)).txn = _
    rw [hregSlot, Function.update_self]
    exact htxn _ h.regs
  · refine h.active slot ?_
    have hrun' : Function.update s.running s.regSlot true slot = true := hrun
    rwa [Function.update_of_ne (by rwa [hregSlot])] at hrun'

/-- `wait_txn` after the start waits for everything that was started. -/
theorem waitTxn_outline :
    (protocol d).Outline Permitted (Begun d m₀ log words results t) [.waitTxn]
      (Ended d m₀ log words results t) := by
  refine .cons _ _ _ _ _ Begun.stable (fun s h ↦ trivial) (fun s h ↦ ?_) (fun s h henabled ↦ ?_)
    (.done Ended.stable)
  · obtain ⟨done, hhardware⟩ := h.hardware
    by_cases hrun : s.running s.regSlot = true
    · exact .inr (hhardware.canStep hrun)
    · exact .inl (Bool.eq_false_iff.mpr hrun)
  · obtain ⟨done, hhardware⟩ := h.hardware
    have hrests : s.running (slotOf log.length) = false := h.regSlot ▸ henabled
    have hdone : done = (log ++ [t]).length := by
      have hle := hhardware.done_le
      have hfree := (hhardware.not_running _).mp hrests log.length
      simp only [List.length_append, List.length_singleton] at hle hfree ⊢
      by_contra hne
      exact hfree (by omega) (by omega) rfl
    exact ⟨hdone ▸ hhardware, h.nextSlot, h.regSlot, h.words, h.results⟩

/-- The registers of a slot keep the value of the last read. -/
def answerReg (value : BitVec 32) : DataReg → BitVec 16
  | .dataHi => value.extractLsb' 16 16
  | _ => value.setWidth 16

theorem Hardware.read_eq (h : Hardware d m₀ (log ++ [t]) (log ++ [t]).length s)
    (hread : t.read = true) {reg : DataReg} (hreg : reg = .dataLo ∨ reg = .dataHi) :
    (s.regs (slotOf log.length)).read reg =
      answerReg (d.transfer (d.run m₀ log) t).2 reg := by
  obtain ⟨hlo, hhi⟩ := h.answer rfl log t rfl hread
  rcases hreg with rfl | rfl
  · exact hlo
  · exact hhi

theorem Ended.readReg_outline (hread : t.read = true) {reg : DataReg}
    (hreg : reg = .dataLo ∨ reg = .dataHi) :
    (protocol d).Outline Permitted (Ended d m₀ log words results t) [.readReg reg]
      (Ended d m₀ log (words ++ [answerReg (d.transfer (d.run m₀ log) t).2 reg]) results t) := by
  refine .single Ended.stable Ended.stable (fun s h ↦ trivial) (fun s h ↦ trivial) (fun s h ↦ ?_)
  refine ⟨h.hardware.same rfl rfl rfl rfl rfl, h.nextSlot, h.regSlot, ?_, h.results⟩
  show s.words ++ [(s.regs s.regSlot).read reg] = _
  rw [h.words, h.regSlot, h.hardware.read_eq hread hreg]

theorem Quiet.readReg_outline (hread : t.read = true) {reg : DataReg}
    (hreg : reg = .dataLo ∨ reg = .dataHi) :
    (protocol d).Outline Permitted (Quiet d m₀ log words results t) [.readReg reg]
      (Quiet d m₀ log (words ++ [answerReg (d.transfer (d.run m₀ log) t).2 reg]) results t) := by
  refine .single Quiet.stable Quiet.stable (fun s h ↦ trivial) (fun s h ↦ trivial) (fun s h ↦ ?_)
  refine ⟨h.hardware.same rfl rfl rfl rfl rfl, h.nextSlot, h.regSlot, ?_, h.results⟩
  show s.words ++ [(s.regs s.regSlot).read reg] = _
  rw [h.words, h.regSlot, h.hardware.read_eq hread hreg]

/-- A slot that has been waited for is given up. -/
theorem Ended.release_outline :
    (protocol d).Outline Permitted (Ended d m₀ log words results t) [.setActive false, .toggle]
      (Quiet d m₀ log words results t) := by
  refine .then (.single Ended.stable Ended.stable (fun s h ↦ trivial) (fun s h ↦ trivial)
    fun s h ↦ ⟨h.hardware.same rfl rfl rfl rfl rfl, h.nextSlot, h.regSlot, h.words, h.results⟩)
    (.single Ended.stable Quiet.stable (fun s h ↦ ?_) (fun s h ↦ trivial) fun s h ↦ ?_)
  · show s.nextSlot ≠ fpgaNext s
    rw [h.nextSlot, h.hardware.fpgaNext_eq, List.length_append, List.length_singleton]
    exact (slotOf_ne _).symm
  · refine ⟨h.hardware.same rfl rfl rfl rfl rfl, ?_, h.regSlot, h.words, h.results⟩
    show (!s.nextSlot) = _
    rw [h.nextSlot, List.length_append, List.length_singleton, slotOf_succ]

/-- A slot that may still run is marked as active and left. -/
theorem Begun.release_outline :
    (protocol d).Outline Permitted (Begun d m₀ log words results t) [.setActive true, .toggle]
      (Idle d m₀ (log ++ [t]) words results) := by
  let Q : State σ → Prop := fun s ↦ Begun d m₀ log words results t s ∧
    ∀ slot, s.running slot = true → s.slotActive slot = true
  have hQ : (protocol d).Stable Q := by
    intro s s' h hstep
    refine ⟨Begun.stable s s' h.1 hstep, fun slot hrun ↦ ?_⟩
    rw [hstep.frame.slotActive]
    exact h.2 slot (hstep.frame.running slot hrun)
  refine .then (.single Begun.stable hQ (fun s h ↦ trivial) (fun s h ↦ trivial) fun s h ↦ ?_)
    (.single hQ Idle.stable (fun s h ↦ ?_) (fun s h ↦ trivial) fun s h ↦ ?_)
  · obtain ⟨done, hhardware⟩ := h.hardware
    have hactive : ∀ slot, s.running slot = true →
        Function.update s.slotActive s.nextSlot true slot = true := by
      intro slot hrun
      rw [Function.update_apply, h.nextSlot]
      split
      · rfl
      · rename_i hne
        exact h.active slot hne hrun
    exact ⟨⟨⟨done, hhardware.same rfl rfl rfl rfl rfl⟩, fun slot _ ↦ hactive slot, h.nextSlot,
      h.regSlot, h.words, h.results⟩, hactive⟩
  · obtain ⟨done, hhardware⟩ := h.1.hardware
    show s.nextSlot ≠ fpgaNext s
    rw [h.1.nextSlot, hhardware.fpgaNext_eq, List.length_append, List.length_singleton]
    exact (slotOf_ne _).symm
  · obtain ⟨done, hhardware⟩ := h.1.hardware
    refine ⟨⟨done, hhardware.same rfl rfl rfl rfl rfl⟩, h.2, ?_, h.1.words, h.1.results⟩
    show (!s.nextSlot) = _
    rw [h.1.nextSlot, List.length_append, List.length_singleton, slotOf_succ]

theorem Quiet.idle (h : Quiet d m₀ log words results t s) :
    Idle d m₀ (log ++ [t]) words results s where
  hardware := ⟨_, h.hardware⟩
  active slot hrun := absurd (h.hardware.idle slot) (by rw [hrun]; decide)
  nextSlot := h.nextSlot
  words := h.words
  results := h.results

end Emu68.PiStorm
