import Emu68.PiStorm.WriteBuffer

/-!
The write buffer is a bounded queue. Whatever the interleaving, the writes reach the bus once and in
order, and none is overwritten while it is queued. The test of `wb_push` compares a wrapped sum: it
is right as long as the sum does not wrap, and from then on it never lets a write through.
-/

set_option autoImplicit false
set_option relaxedAutoImplicit false

namespace Emu68.WriteBuffer

open Lib (Ring Reachable)

variable {s s' : State} {req : WriteRequest} {l : List WriteRequest}

/-! ### The queue -/

def State.queue (s : State) : List WriteRequest := s.ring.contents writeBufferSize

/-- The write that has been issued and is not queued yet. -/
def Producer.pending : Producer → List WriteRequest
  | .test req | .storeAddr req | .storeValue req | .storeSize req | .advance req => [req]
  | _ => []

/-- How many of the queued writes have been performed. -/
def Consumer.ahead : Consumer → ℕ
  | .release _ | .pop | .popAdvance => 1
  | _ => 0

/-- What is issued is done, queued or about to be queued, in this order; and what is performed is
what is done, with the oldest of the queue while it is not taken out. -/
def InOrder (s : State) : Prop :=
  ∃ done, s.issued = done ++ s.queue ++ s.producer.pending ∧
    s.performed = done ++ s.queue.take s.consumer.ahead

/-- The claim about the buffer. -/
structure BoundedFifo (s : State) : Prop where
  order : InOrder s
  bounded : s.queue.length ≤ writeBufferSize
  waits : ∀ n ∈ s.waits, n = writeBufferSize
  reads : s.producer = .reading → s.performed = s.issued
  returns : ∀ req, s.producer = .returning req → s.performed = s.issued

/-- The sum in the test of `wb_push` does not wrap. -/
def SumFits (s : State) : Prop := s.ring.tail.toNat + writeBufferSize < 2 ^ 32

/-! ### The invariant -/

/-- What is in the slot of the head, and that there is room for it; behind `wb_waitfree` the queue is
empty. -/
def Producer.Holds (s : State) : Producer → Prop
  | .storeAddr _ => s.ring.count < writeBufferSize
  | .storeValue req =>
    s.ring.count < writeBufferSize ∧ (s.ring.slots s.headSlot).wrAddr = req.wrAddr
  | .storeSize req =>
    s.ring.count < writeBufferSize ∧ (s.ring.slots s.headSlot).wrAddr = req.wrAddr ∧
      (s.ring.slots s.headSlot).wrValue = req.wrValue
  | .advance req => s.ring.count < writeBufferSize ∧ s.ring.slots s.headSlot = req
  | .reading | .returning _ => s.queue = []
  | _ => True

/-- What has been copied is the oldest of the queue. -/
def Consumer.Holds (queue : List WriteRequest) : Consumer → Prop
  | .peek => True
  | .copyValue addr => ∃ req rest, queue = req :: rest ∧ req.wrAddr = addr
  | .copySize addr value =>
    ∃ req rest, queue = req :: rest ∧ req.wrAddr = addr ∧ req.wrValue = value
  | .lock req | .blit req | .perform req | .release req => ∃ rest, queue = req :: rest
  | .copyAddr | .pop | .popAdvance => ∃ req rest, queue = req :: rest

structure Inv (s : State) : Prop where
  order : InOrder s
  bounded : s.ring.count ≤ writeBufferSize
  producer : s.producer.Holds s
  consumer : s.consumer.Holds s.queue
  sizes : ∀ req ∈ s.issued, performs req = true

theorem Consumer.Holds.append {c : Consumer} (h : c.Holds l) (x : WriteRequest) :
    c.Holds (l ++ [x]) := by
  cases c with
  | peek => trivial
  | copyAddr =>
    obtain ⟨req, rest, rfl⟩ := h
    exact ⟨req, rest ++ [x], rfl⟩
  | copyValue addr =>
    obtain ⟨req, rest, rfl, hreq⟩ := h
    exact ⟨req, rest ++ [x], rfl, hreq⟩
  | copySize addr value =>
    obtain ⟨req, rest, rfl, hreq⟩ := h
    exact ⟨req, rest ++ [x], rfl, hreq⟩
  | lock req | blit req | perform req | release req =>
    obtain ⟨rest, rfl⟩ := h
    exact ⟨rest ++ [x], rfl⟩
  | pop | popAdvance =>
    obtain ⟨req, rest, rfl⟩ := h
    exact ⟨req, rest ++ [x], rfl⟩

/-- Writes are performed one at a time, so at most the oldest of the queue is ahead. -/
theorem Consumer.ahead_le {c : Consumer} (h : c.Holds l) : c.ahead ≤ l.length := by
  cases c with
  | release req =>
    obtain ⟨rest, rfl⟩ := h
    exact Nat.le_add_left 1 _
  | pop | popAdvance =>
    obtain ⟨req, rest, rfl⟩ := h
    exact Nat.le_add_left 1 _
  | peek | copyAddr | copyValue | copySize | lock | blit | perform => exact Nat.zero_le _

theorem queue_eq_nil : s.queue = [] ↔ s.ring.tail = s.ring.head := by
  rw [← List.length_eq_zero_iff, State.queue, Ring.length_contents, Ring.count_eq_zero]

/-! ### The steps of the processor core -/

theorem dvd_words : writeBufferSize ∣ 2 ^ 32 := by decide

/-- A store to the slot of the head leaves the queue alone. -/
theorem queue_storeHead (f : WriteRequest → WriteRequest) (next : Producer)
    (hroom : s.ring.count < writeBufferSize) : (s.storeHead f next).queue = s.queue :=
  Ring.contents_update dvd_words hroom

theorem Inv.storeHead {f : WriteRequest → WriteRequest} {next : Producer} (h : Inv s)
    (hroom : s.ring.count < writeBufferSize) (hpending : next.pending = s.producer.pending)
    (hnext : next.Holds (s.storeHead f next)) : Inv (s.storeHead f next) := by
  have hqueue := queue_storeHead f next hroom
  refine ⟨?_, h.bounded, hnext, ?_, h.sizes⟩
  · obtain ⟨done, hissued, hperformed⟩ := h.order
    refine ⟨done, ?_, ?_⟩
    · rw [hqueue]
      show s.issued = done ++ s.queue ++ next.pending
      rw [hpending, hissued]
    · rw [hqueue]
      exact hperformed
  · rw [hqueue]
    exact h.consumer

/-- The test lets a write through only if there is room. -/
theorem room_of_not_full (hbounded : s.ring.count ≤ writeBufferSize) (h : s.full = false) :
    s.ring.count < writeBufferSize := by
  have hlt : ¬s.ring.tail + BitVec.ofNat 32 writeBufferSize ≤ s.ring.head := of_decide_eq_false h
  simp only [Ring.count, writeBufferSize] at *
  bv_omega

/-- While the sum does not wrap, the test holds a write back only if there is no room. -/
theorem count_of_full (hbounded : s.ring.count ≤ writeBufferSize) (hfits : SumFits s)
    (h : s.full = true) : s.ring.count = writeBufferSize := by
  have hle : s.ring.tail + BitVec.ofNat 32 writeBufferSize ≤ s.ring.head := of_decide_eq_true h
  simp only [Ring.count, writeBufferSize, SumFits] at *
  bv_omega

/-- The head advances, and what was about to be queued is queued. -/
theorem Inv.advance (h : Inv s) (hphase : s.producer = .advance req) {next : Producer}
    (hpending : next.pending = []) (hnext : ∀ s, next.Holds s) :
    Inv { s with ring := { s.ring with head := s.ring.head + 1 }, producer := next } := by
  have hholds := h.producer
  rw [hphase] at hholds
  obtain ⟨hroom, hslot⟩ := hholds
  have hcount : s.ring.count + 1 < 2 ^ 32 := by
    simp only [writeBufferSize] at hroom
    omega
  have hqueue : ({ s.ring with head := s.ring.head + 1 } : Ring 32 WriteRequest).contents
      writeBufferSize = s.queue ++ [req] := by
    rw [Ring.contents_advance hcount]
    exact congrArg (s.queue ++ [·]) hslot
  refine ⟨?_, ?_, hnext _, ?_, h.sizes⟩
  · obtain ⟨done, hissued, hperformed⟩ := h.order
    refine ⟨done, ?_, ?_⟩
    · show s.issued = done ++ Ring.contents _ _ ++ next.pending
      rw [hqueue, hpending, hissued, hphase]
      simp [Producer.pending]
    · show s.performed = done ++ (Ring.contents _ _).take _
      rw [hqueue, List.take_append_of_le_length (Consumer.ahead_le h.consumer)]
      exact hperformed
  · have hlength := congrArg List.length hqueue
    rw [Ring.length_contents, List.length_append, List.length_singleton, State.queue,
      Ring.length_contents] at hlength
    exact hlength.trans_le hroom
  · show Consumer.Holds (Ring.contents _ _) _
    rw [hqueue]
    exact h.consumer.append req

/-- A step that changes nothing but the phase of the processor core and the record of waits. -/
theorem Inv.goto {next : Producer} (waits : List ℕ) (h : Inv s)
    (hpending : next.pending = s.producer.pending)
    (hnext : next.Holds { s with producer := next, waits := waits }) :
    Inv { s with producer := next, waits := waits } := by
  refine ⟨?_, h.bounded, hnext, h.consumer, h.sizes⟩
  obtain ⟨done, hissued, hperformed⟩ := h.order
  refine ⟨done, ?_, hperformed⟩
  show s.issued = done ++ s.queue ++ next.pending
  rw [hpending, hissued]

theorem slot_storeHead (s : State) (f : WriteRequest → WriteRequest) (next : Producer) :
    (s.storeHead f next).ring.slots (s.storeHead f next).headSlot = f (s.ring.slots s.headSlot) :=
  Function.update_self (f := s.ring.slots) _ _

theorem Inv.producerStep (h : Inv s) (hstep : producerStep s = some s') : Inv s' := by
  have hholds := h.producer
  unfold WriteBuffer.producerStep at hstep
  cases hphase : s.producer with
  | idle => simp [hphase] at hstep
  | holding => simp [hphase] at hstep
  | test req =>
    simp only [hphase, Option.some.injEq] at hstep
    subst hstep
    cases hfull : s.full with
    | true =>
      rw [if_pos rfl]
      exact h.goto _ (by rw [hphase]) trivial
    | false =>
      rw [if_neg Bool.false_ne_true]
      exact h.goto s.waits (by rw [hphase]; rfl) (room_of_not_full h.bounded hfull)
  | storeAddr req =>
    simp only [hphase, Option.some.injEq] at hstep
    subst hstep
    rw [hphase] at hholds
    refine h.storeHead hholds (by rw [hphase]; rfl) ⟨hholds, ?_⟩
    rw [slot_storeHead]
  | storeValue req =>
    simp only [hphase, Option.some.injEq] at hstep
    subst hstep
    rw [hphase] at hholds
    obtain ⟨hroom, haddr⟩ := hholds
    refine h.storeHead hroom (by rw [hphase]; rfl) ⟨hroom, ?_, ?_⟩
    · rw [slot_storeHead]
      exact haddr
    · rw [slot_storeHead]
  | storeSize req =>
    simp only [hphase, Option.some.injEq] at hstep
    subst hstep
    rw [hphase] at hholds
    obtain ⟨hroom, haddr, hvalue⟩ := hholds
    refine h.storeHead hroom (by rw [hphase]; rfl) ⟨hroom, ?_⟩
    rw [slot_storeHead, haddr, hvalue]
  | advance req =>
    simp only [hphase, Option.some.injEq] at hstep
    subst hstep
    split
    · exact h.advance hphase rfl fun _ ↦ trivial
    · exact h.advance hphase rfl fun _ ↦ trivial
  | waitFree after =>
    simp only [hphase, Option.some.injEq] at hstep
    subst hstep
    split
    · exact h
    · next hempty =>
      have hqueue : s.queue = [] := queue_eq_nil.mpr (not_not.mp hempty)
      cases after with
      | write req => exact h.goto s.waits (by rw [hphase]; rfl) hqueue
      | read => exact h.goto s.waits (by rw [hphase]; rfl) hqueue
  | reading =>
    simp only [hphase, Option.some.injEq] at hstep
    subst hstep
    exact h.goto s.waits (by rw [hphase]; rfl) trivial
  | returning req =>
    simp only [hphase, Option.some.injEq] at hstep
    subst hstep
    exact h.goto s.waits (by rw [hphase]; rfl) trivial

/-! ### The steps of `wb_task` -/

/-- A step that changes neither the buffer nor what is performed. -/
theorem Inv.work {next : Consumer} (h : Inv s) (lock : Bool)
    (hahead : next.ahead = s.consumer.ahead) (hnext : next.Holds s.queue) :
    Inv { s with consumer := next, busLock := lock } := by
  refine ⟨?_, h.bounded, ?_, hnext, h.sizes⟩
  · obtain ⟨done, hissued, hperformed⟩ := h.order
    refine ⟨done, hissued, ?_⟩
    show s.performed = done ++ s.queue.take next.ahead
    rw [hahead, hperformed]
  · have hholds := h.producer
    show s.producer.Holds _
    cases hphase : s.producer <;> rw [hphase] at hholds <;> exact hholds

/-- The oldest of the queue is in the slot of the tail, and is taken out when the tail advances. -/
theorem queue_cons (h : s.ring.tail ≠ s.ring.head) :
    ∃ rest, s.queue = s.ring.slots s.tailSlot :: rest ∧
      ({ s.ring with tail := s.ring.tail + 1 } : Ring 32 WriteRequest).contents writeBufferSize =
        rest :=
  Ring.contents_head h

theorem tail_ne_head (h : s.queue = req :: l) : s.ring.tail ≠ s.ring.head := by
  intro hempty
  rw [queue_eq_nil.mpr hempty] at h
  cases h

theorem slot_of_queue (h : s.queue = req :: l) : s.ring.slots s.tailSlot = req := by
  obtain ⟨rest, hqueue, -⟩ := queue_cons (tail_ne_head h)
  exact (List.cons.inj (hqueue.symm.trans h)).1

/-- The access is performed: its request is the oldest of the queue, and it has a size. -/
theorem Inv.perform (h : Inv s) (hphase : s.consumer = .perform req) :
    Inv { s with performed := s.performed ++ [req], consumer := .release req } := by
  have hholds := h.consumer
  rw [hphase] at hholds
  obtain ⟨rest, hqueue⟩ := hholds
  refine ⟨?_, h.bounded, ?_, ⟨rest, hqueue⟩, h.sizes⟩
  · obtain ⟨done, hissued, hperformed⟩ := h.order
    refine ⟨done, hissued, ?_⟩
    show s.performed ++ [req] = done ++ s.queue.take 1
    rw [hperformed, hphase, hqueue]
    simp [Consumer.ahead]
  · have hproducer := h.producer
    show s.producer.Holds _
    cases hphase : s.producer <;> rw [hphase] at hproducer <;> exact hproducer

/-- The tail advances, and the oldest of the queue is done. -/
theorem Inv.popAdvance (h : Inv s) (hphase : s.consumer = .popAdvance) :
    Inv { s with ring := { s.ring with tail := s.ring.tail + 1 }, consumer := .peek } := by
  have hholds := h.consumer
  rw [hphase] at hholds
  obtain ⟨req, rest, hqueue⟩ := hholds
  obtain ⟨rest', hcons, hrest⟩ := queue_cons (tail_ne_head hqueue)
  have hlength := congrArg List.length hcons
  rw [State.queue, Ring.length_contents, List.length_cons] at hlength
  have hcount : ({ s.ring with tail := s.ring.tail + 1 } : Ring 32 WriteRequest).count + 1 =
      s.ring.count := by
    rw [← Ring.length_contents (r := { s.ring with tail := s.ring.tail + 1 }), hrest, hlength]
  refine ⟨?_, ?_, ?_, trivial, h.sizes⟩
  · obtain ⟨done, hissued, hperformed⟩ := h.order
    refine ⟨done ++ [s.ring.slots s.tailSlot], ?_, ?_⟩
    · show s.issued = _ ++ Ring.contents _ _ ++ s.producer.pending
      rw [hrest, hissued, hcons]
      simp
    · show s.performed = _
      rw [hperformed, hphase, hcons]
      simp [Consumer.ahead]
  · exact (Nat.le.intro hcount).trans h.bounded
  · have hproducer := h.producer
    have hless : ({ s.ring with tail := s.ring.tail + 1 } : Ring 32 WriteRequest).count <
        s.ring.count := Nat.lt_of_succ_le hcount.le
    show s.producer.Holds _
    cases hphase' : s.producer with
    | idle | test | waitFree | holding => trivial
    | storeAddr req' =>
      rw [hphase'] at hproducer
      exact hless.trans hproducer
    | storeValue req' =>
      rw [hphase'] at hproducer
      exact ⟨hless.trans hproducer.1, hproducer.2⟩
    | storeSize req' =>
      rw [hphase'] at hproducer
      exact ⟨hless.trans hproducer.1, hproducer.2⟩
    | advance req' =>
      rw [hphase'] at hproducer
      exact ⟨hless.trans hproducer.1, hproducer.2⟩
    | reading | returning req' =>
      rw [hphase'] at hproducer
      have hnil : s.queue = [] := hproducer
      rw [hnil] at hqueue
      cases hqueue

theorem Inv.consumerStep (h : Inv s) : Inv (consumerStep s) := by
  have hholds := h.consumer
  unfold WriteBuffer.consumerStep
  cases hphase : s.consumer with
  | peek =>
    simp only []
    split
    · exact h
    · next hne =>
      obtain ⟨rest, hqueue, -⟩ := queue_cons hne
      exact h.work _ (by rw [hphase]; rfl) ⟨_, rest, hqueue⟩
  | copyAddr =>
    rw [hphase] at hholds
    obtain ⟨req, rest, hqueue⟩ := hholds
    exact h.work _ (by rw [hphase]; rfl) ⟨req, rest, hqueue, by rw [slot_of_queue hqueue]⟩
  | copyValue addr =>
    rw [hphase] at hholds
    obtain ⟨req, rest, hqueue, haddr⟩ := hholds
    exact h.work _ (by rw [hphase]; rfl) ⟨req, rest, hqueue, haddr, by rw [slot_of_queue hqueue]⟩
  | copySize addr value =>
    rw [hphase] at hholds
    obtain ⟨req, rest, hqueue, haddr, hvalue⟩ := hholds
    refine h.work _ (by rw [hphase]; rfl) ⟨rest, ?_⟩
    rw [slot_of_queue hqueue, hqueue, ← haddr, ← hvalue]
  | lock req =>
    rw [hphase] at hholds
    simp only []
    split
    · exact h
    · exact h.work _ (by rw [hphase]; rfl) hholds
  | blit req =>
    rw [hphase] at hholds
    exact h.work _ (by rw [hphase]; rfl) hholds
  | perform req =>
    rw [hphase] at hholds
    obtain ⟨rest, hqueue⟩ := hholds
    have hissued : req ∈ s.issued := by
      obtain ⟨done, hissued, -⟩ := h.order
      rw [hissued, hqueue]
      simp
    simp only [h.sizes req hissued, if_true]
    exact h.perform hphase
  | release req =>
    rw [hphase] at hholds
    obtain ⟨rest, hqueue⟩ := hholds
    exact h.work _ (by rw [hphase]; rfl) ⟨req, rest, hqueue⟩
  | pop =>
    rw [hphase] at hholds
    simp only []
    split
    · exact h
    · exact h.work _ (by rw [hphase]; rfl) hholds
  | popAdvance => exact h.popAdvance hphase

/-! ### Runs -/

theorem Inv.write (h : Inv s) (hphase : s.producer = .idle) {address data : BitVec 32}
    {width : Width} :
    Inv { s with
      producer := .test ⟨address, data, width.size⟩
      issued := s.issued ++ [⟨address, data, width.size⟩] } := by
  refine ⟨?_, h.bounded, trivial, h.consumer, ?_⟩
  · obtain ⟨done, hissued, hperformed⟩ := h.order
    refine ⟨done, ?_, hperformed⟩
    show s.issued ++ _ = done ++ s.queue ++ _
    rw [hissued, hphase]
    simp [Producer.pending]
  · intro req hreq
    rcases List.mem_append.mp hreq with hreq | hreq
    · exact h.sizes req hreq
    · rw [List.mem_singleton.mp hreq]
      cases width <;> rfl

theorem Inv.step {a : Action} (h : Inv s) (hstep : step s a = some s') : Inv s' := by
  cases a with
  | write address data width =>
    cases hphase : s.producer <;> simp only [WriteBuffer.step, hphase, reduceCtorEq] at hstep
    cases hstep
    exact h.write hphase
  | read =>
    cases hphase : s.producer <;> simp only [WriteBuffer.step, hphase, reduceCtorEq] at hstep
    cases hstep
    exact h.goto s.waits (by rw [hphase]; rfl) trivial
  | lockBus =>
    cases hphase : s.producer <;> cases hlock : s.busLock <;>
      simp only [WriteBuffer.step, hphase, hlock, reduceCtorEq] at hstep
    cases hstep
    exact (h.work true rfl h.consumer).goto s.waits (by rw [hphase]; rfl) trivial
  | unlockBus =>
    cases hphase : s.producer <;> simp only [WriteBuffer.step, hphase, reduceCtorEq] at hstep
    cases hstep
    exact (h.work false rfl h.consumer).goto s.waits (by rw [hphase]; rfl) trivial
  | producer => exact h.producerStep hstep
  | consumer =>
    cases hstep
    exact h.consumerStep
  | poll =>
    cases hphase : s.consumer <;> simp only [WriteBuffer.step, hphase, reduceCtorEq] at hstep
    cases hstep
    exact h

theorem inv_wbInit (slots : ℕ → WriteRequest) : Inv (wbInit slots) where
  order := by
    have hqueue : (wbInit slots).queue = [] := queue_eq_nil.mpr rfl
    refine ⟨[], ?_, ?_⟩ <;> rw [hqueue] <;> rfl
  bounded := by
    show (0#32 - 0#32).toNat ≤ 32
    decide
  producer := trivial
  consumer := trivial
  sizes _ h := by cases h

/-- Behind `wb_waitfree` everything has been performed. -/
theorem Inv.performed_eq (h : Inv s) (hqueue : s.queue = []) (hpending : s.producer.pending = []) :
    s.performed = s.issued := by
  obtain ⟨done, hissued, hperformed⟩ := h.order
  rw [hqueue, List.take_nil, List.append_nil] at hperformed
  rw [hqueue, hpending, List.append_nil, List.append_nil] at hissued
  rw [hissued, hperformed]

/-- All but the waits holds in every run. -/
theorem Inv.boundedFifo (h : Inv s) (hwaits : ∀ n ∈ s.waits, n = writeBufferSize) :
    BoundedFifo s where
  order := h.order
  bounded := Ring.length_contents.trans_le h.bounded
  waits := hwaits
  reads hphase := by
    have hholds := h.producer
    rw [hphase] at hholds
    exact h.performed_eq hholds (by rw [hphase]; rfl)
  returns req hphase := by
    have hholds := h.producer
    rw [hphase] at hholds
    exact h.performed_eq hholds (by rw [hphase]; rfl)

/-- The tests of `wb_push` are made while the sum does not wrap. -/
def Fits (s : State) (a : Action) : Prop := a = .producer → ∀ req, s.producer = .test req → SumFits s

/-- The record of the waits grows with a test that fails, by what is queued. -/
theorem waits_step {a : Action} (hstep : step s a = some s') :
    s'.waits = s.waits ∨
      (a = .producer ∧ (∃ req, s.producer = .test req) ∧ s.full = true ∧
        s'.waits = s.waits ++ [s.ring.count]) := by
  cases a with
  | write address data width | read | unlockBus =>
    cases hphase : s.producer <;> simp only [step, hphase, reduceCtorEq] at hstep
    cases hstep
    exact .inl rfl
  | lockBus =>
    cases hphase : s.producer <;> cases hlock : s.busLock <;>
      simp only [step, hphase, hlock, reduceCtorEq] at hstep
    cases hstep
    exact .inl rfl
  | poll =>
    cases hphase : s.consumer <;> simp only [step, hphase, reduceCtorEq] at hstep
    cases hstep
    exact .inl rfl
  | consumer =>
    cases hstep
    refine .inl ?_
    unfold consumerStep
    cases s.consumer <;> first | rfl | (dsimp only; split <;> rfl)
  | producer =>
    replace hstep : producerStep s = some s' := hstep
    unfold producerStep at hstep
    cases hphase : s.producer with
    | idle | holding => simp [hphase] at hstep
    | test req =>
      simp only [hphase, Option.some.injEq] at hstep
      subst hstep
      cases hfull : s.full with
      | true => exact .inr ⟨rfl, ⟨req, rfl⟩, rfl, rfl⟩
      | false => exact .inl rfl
    | waitFree after =>
      simp only [hphase, Option.some.injEq] at hstep
      subst hstep
      refine .inl ?_
      split <;> rfl
    | storeAddr req | storeValue req | storeSize req | advance req | reading | returning req =>
      simp only [hphase, Option.some.injEq] at hstep
      subst hstep
      exact .inl rfl

theorem boundedFifo_run {slots : ℕ → WriteRequest} (h : Reachable step Fits (wbInit slots) s) :
    BoundedFifo s := by
  have hinv : Inv s ∧ ∀ n ∈ s.waits, n = writeBufferSize := by
    refine h.invariant (fun s ↦ Inv s ∧ ∀ n ∈ s.waits, n = writeBufferSize)
      ⟨inv_wbInit slots, fun _ hn ↦ by cases hn⟩ ?_
    rintro s a s' ⟨hinv, hwaits⟩ hfits hstep
    refine ⟨hinv.step hstep, fun n hn ↦ ?_⟩
    rcases waits_step hstep with heq | ⟨ha, ⟨req, hphase⟩, hfull, heq⟩
    · rw [heq] at hn
      exact hwaits n hn
    · rw [heq, List.mem_append, List.mem_singleton] at hn
      rcases hn with hn | rfl
      · exact hwaits n hn
      · exact count_of_full hinv.bounded (hfits ha req hphase) hfull
  exact hinv.1.boundedFifo hinv.2

/-- Two writes are queued and the first one is performed. -/
theorem boundedFifo_run_performed :
    ∃ s, Reachable step Fits (wbInit fun _ ↦ ⟨0, 0, 0⟩) s ∧
      (s.issued.length, s.queue.length, s.performed.length) = (2, 2, 1) ∧ BoundedFifo s := by
  have hrun : ∃ final, Lib.runOps step (fun s _ ↦ decide (s.ring.tail = 0))
      (wbInit fun _ ↦ ⟨0, 0, 0⟩)
      ([.write 0x1000 7 .byte] ++ List.replicate 5 .producer ++ [.write 0x1002 8 .word] ++
        List.replicate 5 .producer ++ List.replicate 7 .consumer) = some final ∧
      (final.issued.length, final.queue.length, final.performed.length) = (2, 2, 1) :=
    ⟨_, rfl, rfl⟩
  obtain ⟨final, hrun, hcounts⟩ := hrun
  have hreach : Reachable step Fits (wbInit fun _ ↦ ⟨0, 0, 0⟩) final := by
    refine Reachable.refl.of_runOps (fun s op htail _ req _ ↦ ?_) hrun
    show s.ring.tail.toNat + writeBufferSize < 2 ^ 32
    rw [of_decide_eq_true htail]
    decide
  exact ⟨final, hreach, hcounts, boundedFifo_run hreach⟩

/-! ### The sum wraps -/

/-- Nothing is queued, and both cores are idle. -/
def drained (slots : ℕ → WriteRequest) (counter : BitVec 32) (issued performed : List WriteRequest) :
    State :=
  ⟨⟨slots, counter, counter⟩, false, .idle, .peek, issued, performed, []⟩

def anyOp (_ : State) (_ : Action) : Prop := True

/-- The processor core queues a write, and is idle again. -/
theorem queue_write {start : State} (slots : ℕ → WriteRequest) {counter : BitVec 32}
    (issued performed : List WriteRequest) (hfits : counter.toNat + writeBufferSize < 2 ^ 32)
    (h : Reachable step anyOp start (drained slots counter issued performed)) :
    ∃ slots' issued', Reachable step anyOp start
      ⟨⟨slots', counter + 1, counter⟩, false, .idle, .peek, issued', performed, []⟩ := by
  have hroom : ¬counter + BitVec.ofNat 32 writeBufferSize ≤ counter := by
    simp only [writeBufferSize] at *
    bv_omega
  have hrun : ∃ slots' issued',
      Lib.runOps step (fun _ _ ↦ true) (drained slots counter issued performed)
        ([.write 0 0 .byte] ++ List.replicate 5 .producer) =
        some ⟨⟨slots', counter + 1, counter⟩, false, .idle, .peek, issued', performed, []⟩ := by
    simp [Lib.runOps, List.replicate, step, producerStep, drained, State.full, hroom,
      State.storeHead]
  obtain ⟨slots', issued', hrun⟩ := hrun
  exact ⟨slots', issued', h.of_runOps (fun _ _ _ ↦ trivial) hrun⟩

/-- `wb_task` takes it out, and looks for the next one. -/
theorem drain_write {start : State} (slots : ℕ → WriteRequest) {counter : BitVec 32}
    (issued performed : List WriteRequest)
    (h : Reachable step anyOp start
      ⟨⟨slots, counter + 1, counter⟩, false, .idle, .peek, issued, performed, []⟩) :
    ∃ performed', Reachable step anyOp start (drained slots (counter + 1) issued performed') := by
  have hrun : ∃ performed',
      Lib.runOps step (fun _ _ ↦ true)
        ⟨⟨slots, counter + 1, counter⟩, false, .idle, .peek, issued, performed, []⟩
        (List.replicate 10 .consumer) = some (drained slots (counter + 1) issued performed') := by
    simp [Lib.runOps, List.replicate, step, consumerStep, drained]
  obtain ⟨performed', hrun⟩ := hrun
  exact ⟨performed', h.of_runOps (fun _ _ _ ↦ trivial) hrun⟩

/-- Every counter up to the last one whose sum does not wrap is reached, and one more. -/
theorem reachable_drained (slots : ℕ → WriteRequest) {n : ℕ} (hn : n ≤ 2 ^ 32 - writeBufferSize) :
    ∃ slots' issued performed, Reachable step anyOp (wbInit slots)
      (drained slots' (BitVec.ofNat 32 n) issued performed) := by
  induction n with
  | zero => exact ⟨slots, [], [], .refl⟩
  | succ n ih =>
    obtain ⟨slots', issued, performed, hreach⟩ := ih (by omega)
    have hfits : (BitVec.ofNat 32 n).toNat + writeBufferSize < 2 ^ 32 := by
      rw [BitVec.toNat_ofNat, Nat.mod_eq_of_lt (by omega)]
      simp only [writeBufferSize] at *
      omega
    obtain ⟨slots', issued, hreach⟩ := queue_write slots' issued performed hfits hreach
    obtain ⟨performed, hreach⟩ := drain_write slots' issued performed hreach
    rw [BitVec.ofNat_add]
    exact ⟨slots', issued, performed, hreach⟩

/-- After 2^32 - 32 writes have been taken out, the next one waits though nothing is queued. -/
theorem not_boundedFifo_run :
    ¬∀ slots s, Reachable step anyOp (wbInit slots) s → BoundedFifo s := by
  intro hall
  obtain ⟨slots, issued, performed, hreach⟩ := reachable_drained (fun _ ↦ ⟨0, 0, 0⟩) le_rfl
  have hrun : ∃ final, Lib.runOps step (fun _ _ ↦ true)
      (drained slots (BitVec.ofNat 32 (2 ^ 32 - writeBufferSize)) issued performed)
      [.write 0 0 .byte, .producer] = some final ∧ final.waits = [0] := by
    simp [Lib.runOps, step, producerStep, drained, State.full, writeBufferSize, Ring.count]
  obtain ⟨final, hrun, hwaits⟩ := hrun
  have hfifo := hall _ final (hreach.of_runOps (fun _ _ _ ↦ trivial) hrun)
  have hzero := hfifo.waits 0 (by rw [hwaits]; exact List.mem_singleton.mpr rfl)
  cases hzero

end Emu68.WriteBuffer
