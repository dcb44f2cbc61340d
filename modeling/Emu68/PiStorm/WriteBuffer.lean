import Emu68.Lib.RingBuffer
import Emu68.Lib.Transition

/-!
The write buffer of the classic PiStorm (`ps_classic_protocol.c`): the processor core calls
`ps_write_8/16/32` and `ps_read_8/16/32`, and the second core runs `wb_task`. Every access to
`wr_buffer`, `wr_head`, `wr_tail` and `bus_lock` is a step of its own, and the steps of the two cores
interleave in any way. What was issued, what was performed, and how much was queued when `wb_push` had
to wait is recorded.
-/

set_option autoImplicit false
set_option relaxedAutoImplicit false

namespace Emu68.WriteBuffer

structure WriteRequest where
  wrAddr : BitVec 32
  wrValue : BitVec 32
  wrSize : BitVec 8
deriving DecidableEq

/-- `PISTORM_WRITE_BUFFER_SIZE`. -/
def writeBufferSize : ℕ := 32

inductive Width where
  | byte
  | word
  | long

def Width.size : Width → BitVec 8
  | .byte => 1
  | .word => 2
  | .long => 4

/-- What follows `wb_waitfree`. -/
inductive After where
  | write (req : WriteRequest)
  | read

/-- Where the processor core is: in the loop of `wb_push`, at one of its stores, at the increment of
`wr_head`, in the loop of `wb_waitfree`, behind it, or in `MainLoop` with the bus lock. -/
inductive Producer where
  | idle
  | test (req : WriteRequest)
  | storeAddr (req : WriteRequest)
  | storeValue (req : WriteRequest)
  | storeSize (req : WriteRequest)
  | advance (req : WriteRequest)
  | waitFree (after : After)
  | reading
  | returning (req : WriteRequest)
  | holding

/-- Where `wb_task` is: in the loop of `wb_peek`, at its copy, before the lock, in
`check_blit_active`, before and behind the access, and in `wb_pop`, whose own copy is not used. -/
inductive Consumer where
  | peek
  | copyAddr
  | copyValue (addr : BitVec 32)
  | copySize (addr value : BitVec 32)
  | lock (req : WriteRequest)
  | blit (req : WriteRequest)
  | perform (req : WriteRequest)
  | release (req : WriteRequest)
  | pop
  | popAdvance

structure State where
  ring : Lib.Ring 32 WriteRequest
  busLock : Bool
  producer : Producer
  consumer : Consumer
  issued : List WriteRequest
  performed : List WriteRequest
  waits : List ℕ

/-- `wr_buffer[wr_head & (WRITEBUFFER_SIZE - 1)]`. -/
def State.headSlot (s : State) : ℕ := s.ring.head.toNat % writeBufferSize

def State.tailSlot (s : State) : ℕ := s.ring.tail.toNat % writeBufferSize

/-- `wr_tail + WRITEBUFFER_SIZE <= wr_head`. -/
def State.full (s : State) : Bool :=
  decide (s.ring.tail + BitVec.ofNat 32 writeBufferSize ≤ s.ring.head)

/-- A store to the slot of the head. -/
def State.storeHead (s : State) (f : WriteRequest → WriteRequest) (next : Producer) : State :=
  { s with
    ring := { s.ring with
      slots := Function.update s.ring.slots s.headSlot (f (s.ring.slots s.headSlot)) }
    producer := next }

/-- A step of the processor core in the code of the buffer. A loop that goes on leaves everything as
it is. -/
def producerStep (s : State) : Option State :=
  match s.producer with
  | .test req =>
    some (if s.full then { s with waits := s.waits ++ [s.ring.count] }
      else { s with producer := .storeAddr req })
  | .storeAddr req => some (s.storeHead (fun slot ↦ { slot with wrAddr := req.wrAddr }) (.storeValue req))
  | .storeValue req =>
    some (s.storeHead (fun slot ↦ { slot with wrValue := req.wrValue }) (.storeSize req))
  | .storeSize req => some (s.storeHead (fun slot ↦ { slot with wrSize := req.wrSize }) (.advance req))
  | .advance req =>
    some { s with
      ring := { s.ring with head := s.ring.head + 1 }
      producer := if req.wrAddr < 0xa00000 then .idle else .waitFree (.write req) }
  | .waitFree after =>
    some (if s.ring.tail ≠ s.ring.head then s
      else { s with producer := match after with
        | .write req => .returning req
        | .read => .reading })
  | .reading | .returning _ => some { s with producer := .idle }
  | .idle | .holding => none

/-- The access that the size selects; no other size has one. -/
def performs (req : WriteRequest) : Bool := req.wrSize = 1 ∨ req.wrSize = 2 ∨ req.wrSize = 4

def consumerStep (s : State) : State :=
  match s.consumer with
  | .peek => if s.ring.tail = s.ring.head then s else { s with consumer := .copyAddr }
  | .copyAddr => { s with consumer := .copyValue (s.ring.slots s.tailSlot).wrAddr }
  | .copyValue addr => { s with consumer := .copySize addr (s.ring.slots s.tailSlot).wrValue }
  | .copySize addr value =>
    { s with consumer := .lock ⟨addr, value, (s.ring.slots s.tailSlot).wrSize⟩ }
  | .lock req => if s.busLock then s else { s with busLock := true, consumer := .blit req }
  | .blit req => { s with consumer := .perform req }
  | .perform req =>
    { s with
      performed := if performs req then s.performed ++ [req] else s.performed
      consumer := .release req }
  | .release _ => { s with busLock := false, consumer := .pop }
  | .pop => if s.ring.tail = s.ring.head then s else { s with consumer := .popAdvance }
  | .popAdvance => { s with ring := { s.ring with tail := s.ring.tail + 1 }, consumer := .peek }

/-- The calls of the processor core, and the steps. `poll` is a round of the loop of
`check_blit_active`; `lockBus` and `unlockBus` are those of `MainLoop`. -/
inductive Action where
  | write (address data : BitVec 32) (width : Width)
  | read
  | lockBus
  | unlockBus
  | producer
  | consumer
  | poll

def step (s : State) : Action → Option State
  | .write address data width =>
    match s.producer with
    | .idle =>
      some { s with
        producer := .test ⟨address, data, width.size⟩
        issued := s.issued ++ [⟨address, data, width.size⟩] }
    | _ => none
  | .read =>
    match s.producer with
    | .idle => some { s with producer := .waitFree .read }
    | _ => none
  | .lockBus =>
    match s.producer, s.busLock with
    | .idle, false => some { s with busLock := true, producer := .holding }
    | _, _ => none
  | .unlockBus =>
    match s.producer with
    | .holding => some { s with busLock := false, producer := .idle }
    | _ => none
  | .producer => producerStep s
  | .consumer => some (consumerStep s)
  | .poll =>
    match s.consumer with
    | .blit _ => some s
    | _ => none

/-- After `wb_init`, whatever the allocated memory holds. -/
def wbInit (slots : ℕ → WriteRequest) : State where
  ring := ⟨slots, 0, 0⟩
  busLock := false
  producer := .idle
  consumer := .peek
  issued := []
  performed := []
  waits := []

end Emu68.WriteBuffer
