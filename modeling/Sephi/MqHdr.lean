import Sephi.Ranges

/-!
The control block of a message queue and its index of the preallocated messages, as the
vendored `message_queue_mod.hpp` has them: the circular index, and the plain one that it
falls back to.
-/

set_option autoImplicit false

namespace Sephi.Ipc

/-- Whether `BOOST_INTERPROCESS_MSG_QUEUE_CIRCULAR_INDEX` is defined. -/
inductive IndexKind where
  | circular | plain
  deriving DecidableEq, Repr

structure MsgHdr where
  len : Nat
  priority : UInt32
  data : List UInt8
  deriving DecidableEq, Repr

/-- `mq_hdr_t`. The pointers of `mp_index` are the numbers of the messages they point to. -/
structure MqHdr where
  index : Nat → Nat
  messages : Nat → MsgHdr
  maxNumMsg : Nat
  maxMsgSize : Nat
  curNumMsg : Nat
  -- with a circular index only
  curFirstMsg : Nat
  blockedSenders : Nat
  blockedReceivers : Nat

namespace MqHdr

def isFull (h : MqHdr) : Bool := h.curNumMsg == h.maxNumMsg

def isEmpty (h : MqHdr) : Bool := h.curNumMsg == 0

def freeTopMsg (h : MqHdr) : MqHdr := { h with curNumMsg := h.curNumMsg - 1 }

def endPos (h : MqHdr) : Nat :=
  let spaceUntilBufend := h.maxNumMsg - h.curFirstMsg
  if spaceUntilBufend > h.curNumMsg then h.curFirstMsg + h.curNumMsg
  else h.curNumMsg - spaceUntilBufend

def topMsg (h : MqHdr) : IndexKind → Nat
  | .circular => h.index (if h.endPos ≠ 0 then h.endPos - 1 else h.maxNumMsg - 1)
  | .plain => h.index (h.curNumMsg - 1)

def insertedPtrBegin (h : MqHdr) : IndexKind → Nat
  | .circular => h.curFirstMsg
  | .plain => 0

def insertedPtrEnd (h : MqHdr) : IndexKind → Nat
  | .circular => h.endPos
  | .plain => h.curNumMsg

def bottomMsg (h : MqHdr) (kind : IndexKind) : Nat := h.index (h.insertedPtrBegin kind)

def less (h : MqHdr) (priority : UInt32) (pos : Nat) : Bool :=
  (h.messages (h.index pos)).priority < priority

def lowerBound (h : MqHdr) (kind : IndexKind) (priority : UInt32) : Nat :=
  let first := h.insertedPtrBegin kind
  let last := h.insertedPtrEnd kind
  match kind with
  | .circular =>
    if last < first then
      let ret := Ranges.lowerBound (h.less priority) first h.maxNumMsg
      if h.maxNumMsg = ret then Ranges.lowerBound (h.less priority) 0 last else ret
    else Ranges.lowerBound (h.less priority) first last
  | .plain => Ranges.lowerBound (h.less priority) first last

def prevFirstMsg (h : MqHdr) : Nat :=
  (if h.curFirstMsg ≠ 0 then h.curFirstMsg else h.maxNumMsg) - 1

/-- The branch of `insert_at` that moves the messages before `place` back. -/
def moveBack (h : MqHdr) (place : Nat) : Nat × MqHdr :=
  let pos := if place = 0 then h.maxNumMsg else place
  let place := if place = 0 then h.maxNumMsg - 1 else place - 1
  let uniqueSegment := h.curFirstMsg ≠ 0 ∧ h.curFirstMsg ≤ pos
  let firstSegmentBeg := if uniqueSegment then h.curFirstMsg else 1
  let firstSegmentEnd := pos
  let secondSegmentBeg :=
    if uniqueSegment ∨ h.curFirstMsg = 0 then h.maxNumMsg else h.curFirstMsg
  let secondSegmentEnd := h.maxNumMsg
  let backup := h.index ((if uniqueSegment then firstSegmentBeg else secondSegmentBeg) - 1)
  let index :=
    if ¬ uniqueSegment then
      let index := Ranges.copy h.index secondSegmentBeg secondSegmentEnd (secondSegmentBeg - 1)
      Function.update index (h.maxNumMsg - 1) (index 0)
    else h.index
  let index := Ranges.copy index firstSegmentBeg firstSegmentEnd (firstSegmentBeg - 1)
  let index := Function.update index place backup
  (index place,
    { h with index := index, curFirstMsg := h.prevFirstMsg, curNumMsg := h.curNumMsg + 1 })

/-- The branch of `insert_at` that moves the messages from `place` on. -/
def moveOn (h : MqHdr) (place : Nat) : Nat × MqHdr :=
  let posEnd := h.endPos
  let uniqueSegment := place < posEnd
  let firstSegmentBeg := place
  let firstSegmentEnd := if uniqueSegment then posEnd else h.maxNumMsg - 1
  let secondSegmentBeg := 0
  let secondSegmentEnd := if uniqueSegment then 0 else posEnd
  let backup := h.index h.endPos
  let index :=
    if ¬ uniqueSegment then
      let index :=
        Ranges.copyBackward h.index secondSegmentBeg secondSegmentEnd (secondSegmentEnd + 1)
      Function.update index 0 (index (h.maxNumMsg - 1))
    else h.index
  let index := Ranges.copyBackward index firstSegmentBeg firstSegmentEnd (firstSegmentEnd + 1)
  let index := Function.update index place backup
  (index place, { h with index := index, curNumMsg := h.curNumMsg + 1 })

/-- The last branch of `insert_at`, between the first and the last of the messages. -/
def insertBetween (h : MqHdr) (place : Nat) : Nat × MqHdr :=
  let circPos :=
    if place ≥ h.curFirstMsg then place - h.curFirstMsg
    else place + (h.maxNumMsg - h.curFirstMsg)
  if circPos < h.curNumMsg / 2 then h.moveBack place else h.moveOn place

def insertAt (h : MqHdr) (kind : IndexKind) (place : Nat) : Nat × MqHdr :=
  let last := h.insertedPtrEnd kind
  let first := h.insertedPtrBegin kind
  match kind with
  | .circular =>
    if place = first then
      (h.index h.prevFirstMsg,
        { h with curFirstMsg := h.prevFirstMsg, curNumMsg := h.curNumMsg + 1 })
    else if place = last then (h.index last, { h with curNumMsg := h.curNumMsg + 1 })
    else h.insertBetween place
  | .plain =>
    let backup := h.index last
    let index := Ranges.copyBackward h.index place last (last + 1)
    let index := Function.update index place backup
    (index place, { h with index := index, curNumMsg := h.curNumMsg + 1 })

def queueFreeMsg (h : MqHdr) (kind : IndexKind) (priority : UInt32) : Nat × MqHdr :=
  let place :=
    if h.curNumMsg ≠ 0 ∧ priority > (h.messages (h.bottomMsg kind)).priority then
      if priority > (h.messages (h.topMsg kind)).priority then h.insertedPtrEnd kind
      else h.lowerBound kind priority
    else h.insertedPtrBegin kind
  h.insertAt kind place

/-- `mq_hdr_t` as its constructor and `initialize_memory` leave it. The messages are not
written to: they are zero, as new shared memory is. -/
def make (maxNumMsg maxMsgSize : Nat) : MqHdr where
  index := id
  messages := fun _ => ⟨0, 0, List.replicate maxMsgSize 0⟩
  maxNumMsg := maxNumMsg
  maxMsgSize := maxMsgSize
  curNumMsg := 0
  curFirstMsg := 0
  blockedSenders := 0
  blockedReceivers := 0

end MqHdr

end Sephi.Ipc
