import Sephi.MqMessages
import Sephi.Transition
import Sephi.Waiting

/-!
A message queue that any number of threads send to and receive from. One step is what
`do_send` or `do_receive` does in one piece under the lock, a wakeup, or the `notify_one`
that follows outside of the lock.
-/

set_option autoImplicit false

namespace Sephi.Ipc
open Transition Waiting PriorityQueue

/-- `block_t` -/
inductive Block where
  | blocking | timed | nonBlocking
  deriving DecidableEq, Repr

structure SendCall (τ : Type) where
  thread : τ
  block : Block
  message : Message
  deriving DecidableEq, Repr

structure ReceiveCall (τ : Type) where
  thread : τ
  block : Block
  bufferSize : Nat
  deriving DecidableEq, Repr

def SendCall.CanWait {τ : Type} (call : SendCall τ) (maxMsgSize : Nat) : Prop :=
  call.message.payload.length ≤ maxMsgSize ∧ call.block ≠ .nonBlocking

def ReceiveCall.CanWait {τ : Type} (call : ReceiveCall τ) (maxMsgSize : Nat) : Prop :=
  maxMsgSize ≤ call.bufferSize ∧ call.block ≠ .nonBlocking

/-- The calls that are over: with `interprocess_exception(size_error)`, or with what they
returned. -/
inductive Outcome (τ : Type) where
  | sendSizeError (call : SendCall τ)
  | sent (call : SendCall τ) (ok : Bool)
  | receiveSizeError (call : ReceiveCall τ)
  | received (call : ReceiveCall τ) (m : Option Message)
  deriving DecidableEq, Repr

structure MessageQueue (τ : Type) where
  hdr : MqHdr
  condSend : Condition (SendCall τ) (ReceiveCall τ × Message)
  condRecv : Condition (ReceiveCall τ) (SendCall τ)
  -- the record of the run
  history : List (Op Message)
  outcomes : List (Outcome τ)

/-- `sendAgain` and `receiveAgain` have the mutex back from `wait` or `timed_wait`. A wakeup
without a notification is a spurious one, or the time is over. -/
inductive MqEvent (τ : Type) where
  | send (call : SendCall τ)
  | receive (call : ReceiveCall τ)
  | wakeSender (call : SendCall τ)
  | wakeReceiver (call : ReceiveCall τ)
  | sendAgain (call : SendCall τ) (timedOut : Bool)
  | receiveAgain (call : ReceiveCall τ) (timedOut : Bool)
  | notifySender (call : ReceiveCall τ) (m : Message) (woke : Option (SendCall τ))
  | notifyReceiver (call : SendCall τ) (woke : Option (ReceiveCall τ))
  deriving DecidableEq, Repr

-- only the circular index comes with the counts of those that are blocked
def IndexKind.increment : IndexKind → Nat → Nat
  | .circular, n => n + 1
  | .plain, n => n

def IndexKind.decrement : IndexKind → Nat → Nat
  | .circular, n => n - 1
  | .plain, n => n

/-- `notify_blocked_receivers` and `notify_blocked_senders` -/
def IndexKind.notifies : IndexKind → Nat → Bool
  | .circular, n => n != 0
  | .plain, _ => true

namespace MqHdr

def senderBlocks (h : MqHdr) (kind : IndexKind) : MqHdr :=
  { h with blockedSenders := kind.increment h.blockedSenders }

def senderUnblocks (h : MqHdr) (kind : IndexKind) : MqHdr :=
  { h with blockedSenders := kind.decrement h.blockedSenders }

def receiverBlocks (h : MqHdr) (kind : IndexKind) : MqHdr :=
  { h with blockedReceivers := kind.increment h.blockedReceivers }

def receiverUnblocks (h : MqHdr) (kind : IndexKind) : MqHdr :=
  { h with blockedReceivers := kind.decrement h.blockedReceivers }

@[simp] theorem senderUnblocks_senderBlocks (h : MqHdr) (kind : IndexKind) :
    (h.senderBlocks kind).senderUnblocks kind = h := by cases kind <;> rfl

@[simp] theorem receiverUnblocks_receiverBlocks (h : MqHdr) (kind : IndexKind) :
    (h.receiverBlocks kind).receiverUnblocks kind = h := by cases kind <;> rfl

end MqHdr

namespace MessageQueue

variable {τ : Type}

def returns (s : MessageQueue τ) (o : Outcome τ) : MessageQueue τ :=
  { s with outcomes := s.outcomes ++ [o] }

/-- `do_send` once the queue is not full -/
def putMessage (s : MessageQueue τ) (kind : IndexKind) (call : SendCall τ) : MessageQueue τ :=
  let notifyBlockedReceivers := kind.notifies s.hdr.blockedReceivers
  let s := { s with
    hdr := s.hdr.put kind call.message
    history := s.history ++ [Op.put call.message] }
  if notifyBlockedReceivers then { s with condRecv := s.condRecv.owe call }
  else s.returns (.sent call true)

/-- `do_receive` once the queue is not empty -/
def takeMessage (s : MessageQueue τ) (kind : IndexKind) (call : ReceiveCall τ) :
    MessageQueue τ :=
  let notifyBlockedSenders := kind.notifies s.hdr.blockedSenders
  let (m, hdr) := s.hdr.take kind
  let s := { s with hdr := hdr, history := s.history ++ [Op.take m] }
  if notifyBlockedSenders then { s with condSend := s.condSend.owe (call, m) }
  else s.returns (.received call (some m))

def blockSender (s : MessageQueue τ) (call : SendCall τ) : MessageQueue τ :=
  { s with condSend := s.condSend.block call }

def blockReceiver (s : MessageQueue τ) (call : ReceiveCall τ) : MessageQueue τ :=
  { s with condRecv := s.condRecv.block call }

def unblockSender (s : MessageQueue τ) (kind : IndexKind) : MessageQueue τ :=
  { s with hdr := s.hdr.senderUnblocks kind }

def unblockReceiver (s : MessageQueue τ) (kind : IndexKind) : MessageQueue τ :=
  { s with hdr := s.hdr.receiverUnblocks kind }

def doSend (s : MessageQueue τ) (kind : IndexKind) (call : SendCall τ) : MessageQueue τ :=
  if call.message.payload.length > s.hdr.maxMsgSize then s.returns (.sendSizeError call)
  else if s.hdr.isFull then
    let s := { s with hdr := s.hdr.senderBlocks kind }
    match call.block with
    | .nonBlocking => (s.unblockSender kind).returns (.sent call false)
    | .blocking => s.blockSender call
    | .timed => s.blockSender call
  else s.putMessage kind call

def doReceive (s : MessageQueue τ) (kind : IndexKind) (call : ReceiveCall τ) :
    MessageQueue τ :=
  if call.bufferSize < s.hdr.maxMsgSize then s.returns (.receiveSizeError call)
  else if s.hdr.isEmpty then
    let s := { s with hdr := s.hdr.receiverBlocks kind }
    match call.block with
    | .nonBlocking => (s.unblockReceiver kind).returns (.received call none)
    | .blocking => s.blockReceiver call
    | .timed => s.blockReceiver call
  else s.takeMessage kind call

inductive RefusesSend (s : MessageQueue τ) (call : SendCall τ) : Outcome τ → Prop where
  | size (h : call.message.payload.length > s.hdr.maxMsgSize) :
      RefusesSend s call (.sendSizeError call)
  | full (fits : call.message.payload.length ≤ s.hdr.maxMsgSize)
      (full : s.hdr.curNumMsg = s.hdr.maxNumMsg) (h : call.block = .nonBlocking) :
      RefusesSend s call (.sent call false)

inductive RefusesReceive (s : MessageQueue τ) (call : ReceiveCall τ) : Outcome τ → Prop where
  | size (h : call.bufferSize < s.hdr.maxMsgSize) :
      RefusesReceive s call (.receiveSizeError call)
  | empty (enough : s.hdr.maxMsgSize ≤ call.bufferSize) (empty : s.hdr.curNumMsg = 0)
      (h : call.block = .nonBlocking) : RefusesReceive s call (.received call none)

theorem doSend_cases (s : MessageQueue τ) (kind : IndexKind) (call : SendCall τ) :
    (∃ o, s.RefusesSend call o ∧ s.doSend kind call = s.returns o) ∨
    (call.CanWait s.hdr.maxMsgSize ∧ s.hdr.curNumMsg = s.hdr.maxNumMsg ∧
      s.doSend kind call = { s with hdr := s.hdr.senderBlocks kind }.blockSender call) ∨
    (call.message.payload.length ≤ s.hdr.maxMsgSize ∧ s.hdr.curNumMsg ≠ s.hdr.maxNumMsg ∧
      s.doSend kind call = s.putMessage kind call) := by
  by_cases hsize : call.message.payload.length > s.hdr.maxMsgSize
  · exact .inl ⟨_, .size hsize, if_pos hsize⟩
  · have hfits := Nat.le_of_not_lt hsize
    by_cases hfull : s.hdr.curNumMsg = s.hdr.maxNumMsg
    · cases hb : call.block with
      | nonBlocking =>
        refine .inl ⟨_, .full hfits hfull hb, ?_⟩
        simp [doSend, hsize, hfull, hb, MqHdr.isFull, unblockSender]
      | blocking =>
        refine .inr (.inl ⟨⟨hfits, by simp [hb]⟩, hfull, ?_⟩)
        simp [doSend, hsize, hfull, hb, MqHdr.isFull]
      | timed =>
        refine .inr (.inl ⟨⟨hfits, by simp [hb]⟩, hfull, ?_⟩)
        simp [doSend, hsize, hfull, hb, MqHdr.isFull]
    · refine .inr (.inr ⟨hfits, hfull, ?_⟩)
      simp [doSend, hsize, hfull, MqHdr.isFull]

theorem doReceive_cases (s : MessageQueue τ) (kind : IndexKind) (call : ReceiveCall τ) :
    (∃ o, s.RefusesReceive call o ∧ s.doReceive kind call = s.returns o) ∨
    (call.CanWait s.hdr.maxMsgSize ∧ s.hdr.curNumMsg = 0 ∧
      s.doReceive kind call = { s with hdr := s.hdr.receiverBlocks kind }.blockReceiver call) ∨
    (s.hdr.maxMsgSize ≤ call.bufferSize ∧ s.hdr.curNumMsg ≠ 0 ∧
      s.doReceive kind call = s.takeMessage kind call) := by
  by_cases hsize : call.bufferSize < s.hdr.maxMsgSize
  · exact .inl ⟨_, .size hsize, if_pos hsize⟩
  · have henough := Nat.le_of_not_lt hsize
    by_cases hempty : s.hdr.curNumMsg = 0
    · cases hb : call.block with
      | nonBlocking =>
        refine .inl ⟨_, .empty henough hempty hb, ?_⟩
        simp [doReceive, hsize, hempty, hb, MqHdr.isEmpty, unblockReceiver]
      | blocking =>
        refine .inr (.inl ⟨⟨henough, by simp [hb]⟩, hempty, ?_⟩)
        simp [doReceive, hsize, hempty, hb, MqHdr.isEmpty]
      | timed =>
        refine .inr (.inl ⟨⟨henough, by simp [hb]⟩, hempty, ?_⟩)
        simp [doReceive, hsize, hempty, hb, MqHdr.isEmpty]
    · refine .inr (.inr ⟨henough, hempty, ?_⟩)
      simp [doReceive, hsize, hempty, MqHdr.isEmpty]

variable [DecidableEq τ]

def resumeSender (s : MessageQueue τ) (call : SendCall τ) : MessageQueue τ :=
  { s with condSend := s.condSend.resume call }

def resumeReceiver (s : MessageQueue τ) (call : ReceiveCall τ) : MessageQueue τ :=
  { s with condRecv := s.condRecv.resume call }

/-- `do_send` with the mutex back; `timedOut` is what `timed_wait` returned. -/
def doSendAgain (s : MessageQueue τ) (kind : IndexKind) (call : SendCall τ)
    (timedOut : Bool) : MessageQueue τ :=
  let s := s.resumeSender call
  if s.hdr.isFull then
    if timedOut then (s.unblockSender kind).returns (.sent call false)
    else s.blockSender call
  else (s.unblockSender kind).putMessage kind call

def doReceiveAgain (s : MessageQueue τ) (kind : IndexKind) (call : ReceiveCall τ)
    (timedOut : Bool) : MessageQueue τ :=
  let s := s.resumeReceiver call
  if s.hdr.isEmpty then
    if timedOut then (s.unblockReceiver kind).returns (.received call none)
    else s.blockReceiver call
  else (s.unblockReceiver kind).takeMessage kind call

def busy (s : MessageQueue τ) : List τ :=
  (s.condSend.blocked ++ s.condSend.woken ++ s.condRecv.notifying).map SendCall.thread ++
    (s.condRecv.blocked ++ s.condRecv.woken ++ s.condSend.notifying.map Prod.fst).map
      ReceiveCall.thread

/-- Whether the event can occur. A thread makes one call at a time; only `timed_wait` can
time out. -/
def Enabled (s : MessageQueue τ) : MqEvent τ → Prop
  | .send call => call.thread ∉ s.busy
  | .receive call => call.thread ∉ s.busy
  | .wakeSender call => call ∈ s.condSend.blocked
  | .wakeReceiver call => call ∈ s.condRecv.blocked
  | .sendAgain call timedOut =>
    call ∈ s.condSend.woken ∧ (timedOut = true → call.block = .timed)
  | .receiveAgain call timedOut =>
    call ∈ s.condRecv.woken ∧ (timedOut = true → call.block = .timed)
  | .notifySender call m woke =>
    (call, m) ∈ s.condSend.notifying ∧ s.condSend.CanWake woke
  | .notifyReceiver call woke => call ∈ s.condRecv.notifying ∧ s.condRecv.CanWake woke

instance (s : MessageQueue τ) : (e : MqEvent τ) → Decidable (s.Enabled e)
  | .send call => inferInstanceAs (Decidable (call.thread ∉ s.busy))
  | .receive call => inferInstanceAs (Decidable (call.thread ∉ s.busy))
  | .wakeSender call => inferInstanceAs (Decidable (call ∈ s.condSend.blocked))
  | .wakeReceiver call => inferInstanceAs (Decidable (call ∈ s.condRecv.blocked))
  | .sendAgain call timedOut => inferInstanceAs (Decidable
    (call ∈ s.condSend.woken ∧ (timedOut = true → call.block = .timed)))
  | .receiveAgain call timedOut => inferInstanceAs (Decidable
    (call ∈ s.condRecv.woken ∧ (timedOut = true → call.block = .timed)))
  | .notifySender call m woke => inferInstanceAs (Decidable
    ((call, m) ∈ s.condSend.notifying ∧ s.condSend.CanWake woke))
  | .notifyReceiver call woke => inferInstanceAs (Decidable
    (call ∈ s.condRecv.notifying ∧ s.condRecv.CanWake woke))

def after (s : MessageQueue τ) (kind : IndexKind) : MqEvent τ → MessageQueue τ
  | .send call => s.doSend kind call
  | .receive call => s.doReceive kind call
  | .wakeSender call => { s with condSend := s.condSend.wake call }
  | .wakeReceiver call => { s with condRecv := s.condRecv.wake call }
  | .sendAgain call timedOut => s.doSendAgain kind call timedOut
  | .receiveAgain call timedOut => s.doReceiveAgain kind call timedOut
  | .notifySender call m woke =>
    { s with condSend := s.condSend.notify (call, m) woke }.returns (.received call (some m))
  | .notifyReceiver call woke =>
    { s with condRecv := s.condRecv.notify call woke }.returns (.sent call true)

def step (kind : IndexKind) (s : MessageQueue τ) (e : MqEvent τ) : Option (MessageQueue τ) :=
  if s.Enabled e then some (s.after kind e) else none

def make (maxNumMsg maxMsgSize : Nat) : MessageQueue τ :=
  ⟨MqHdr.make maxNumMsg maxMsgSize, .idle, .idle, [], []⟩

def machine (kind : IndexKind) (maxNumMsg maxMsgSize : Nat) (τ : Type) [DecidableEq τ] :
    Machine (MessageQueue τ) (MqEvent τ) where
  start := make maxNumMsg maxMsgSize
  step := step kind

inductive Move (kind : IndexKind) (s : MessageQueue τ) : MqEvent τ → MessageQueue τ → Prop where
  | sendRefused (call : SendCall τ) (o : Outcome τ) (ho : s.RefusesSend call o) :
      Move kind s (.send call) (s.returns o)
  | sendBlocks (call : SendCall τ) (waits : call.CanWait s.hdr.maxMsgSize)
      (full : s.hdr.curNumMsg = s.hdr.maxNumMsg) :
      Move kind s (.send call)
        ({ s with hdr := s.hdr.senderBlocks kind }.blockSender call)
  | sendPuts (call : SendCall τ) (fits : call.message.payload.length ≤ s.hdr.maxMsgSize)
      (room : s.hdr.curNumMsg ≠ s.hdr.maxNumMsg) :
      Move kind s (.send call) (s.putMessage kind call)
  | receiveRefused (call : ReceiveCall τ) (o : Outcome τ) (ho : s.RefusesReceive call o) :
      Move kind s (.receive call) (s.returns o)
  | receiveBlocks (call : ReceiveCall τ) (waits : call.CanWait s.hdr.maxMsgSize)
      (empty : s.hdr.curNumMsg = 0) :
      Move kind s (.receive call)
        ({ s with hdr := s.hdr.receiverBlocks kind }.blockReceiver call)
  | receiveTakes (call : ReceiveCall τ) (enough : s.hdr.maxMsgSize ≤ call.bufferSize)
      (some : s.hdr.curNumMsg ≠ 0) :
      Move kind s (.receive call) (s.takeMessage kind call)
  | wakeSender (call : SendCall τ) (h : call ∈ s.condSend.blocked) :
      Move kind s (.wakeSender call) { s with condSend := s.condSend.wake call }
  | wakeReceiver (call : ReceiveCall τ) (h : call ∈ s.condRecv.blocked) :
      Move kind s (.wakeReceiver call) { s with condRecv := s.condRecv.wake call }
  | sendTimesOut (call : SendCall τ) (h : call ∈ s.condSend.woken) (timed : call.block = .timed)
      (full : s.hdr.curNumMsg = s.hdr.maxNumMsg) :
      Move kind s (.sendAgain call true)
        (((s.resumeSender call).unblockSender kind).returns (.sent call false))
  | sendBlocksAgain (call : SendCall τ) (h : call ∈ s.condSend.woken)
      (full : s.hdr.curNumMsg = s.hdr.maxNumMsg) :
      Move kind s (.sendAgain call false) ((s.resumeSender call).blockSender call)
  | sendPutsAgain (call : SendCall τ) (timedOut : Bool) (h : call ∈ s.condSend.woken)
      (room : s.hdr.curNumMsg ≠ s.hdr.maxNumMsg) :
      Move kind s (.sendAgain call timedOut)
        (((s.resumeSender call).unblockSender kind).putMessage kind call)
  | receiveTimesOut (call : ReceiveCall τ) (h : call ∈ s.condRecv.woken)
      (timed : call.block = .timed) (empty : s.hdr.curNumMsg = 0) :
      Move kind s (.receiveAgain call true)
        (((s.resumeReceiver call).unblockReceiver kind).returns (.received call none))
  | receiveBlocksAgain (call : ReceiveCall τ) (h : call ∈ s.condRecv.woken)
      (empty : s.hdr.curNumMsg = 0) :
      Move kind s (.receiveAgain call false) ((s.resumeReceiver call).blockReceiver call)
  | receiveTakesAgain (call : ReceiveCall τ) (timedOut : Bool) (h : call ∈ s.condRecv.woken)
      (some : s.hdr.curNumMsg ≠ 0) :
      Move kind s (.receiveAgain call timedOut)
        (((s.resumeReceiver call).unblockReceiver kind).takeMessage kind call)
  | notifySender (call : ReceiveCall τ) (m : Message) (woke : Option (SendCall τ))
      (h : (call, m) ∈ s.condSend.notifying) (hw : s.condSend.CanWake woke) :
      Move kind s (.notifySender call m woke)
        ({ s with condSend := s.condSend.notify (call, m) woke }.returns
          (.received call (some m)))
  | notifyReceiver (call : SendCall τ) (woke : Option (ReceiveCall τ))
      (h : call ∈ s.condRecv.notifying) (hw : s.condRecv.CanWake woke) :
      Move kind s (.notifyReceiver call woke)
        ({ s with condRecv := s.condRecv.notify call woke }.returns (.sent call true))

variable {kind : IndexKind} {s t : MessageQueue τ}

theorem step_eq {e : MqEvent τ} : step kind s e = some t ↔ s.Enabled e ∧ s.after kind e = t := by
  rw [step, Option.ite_none_right_eq_some, Option.some.injEq]

theorem step_move {e : MqEvent τ} (h : step kind s e = some t) : Move kind s e t := by
  obtain ⟨he, rfl⟩ := step_eq.mp h
  cases e with
  | send call =>
    rw [after]
    rcases doSend_cases s kind call with
      ⟨o, ho, heq⟩ | ⟨hwaits, hfull, heq⟩ | ⟨hfits, hroom, heq⟩
    · exact heq ▸ .sendRefused call o ho
    · exact heq ▸ .sendBlocks call hwaits hfull
    · exact heq ▸ .sendPuts call hfits hroom
  | receive call =>
    rw [after]
    rcases doReceive_cases s kind call with
      ⟨o, ho, heq⟩ | ⟨hwaits, hempty, heq⟩ | ⟨henough, hsome, heq⟩
    · exact heq ▸ .receiveRefused call o ho
    · exact heq ▸ .receiveBlocks call hwaits hempty
    · exact heq ▸ .receiveTakes call henough hsome
  | wakeSender call => exact .wakeSender call he
  | wakeReceiver call => exact .wakeReceiver call he
  | sendAgain call timedOut =>
    obtain ⟨hw, htimed⟩ := he
    rw [after]
    by_cases hfull : s.hdr.curNumMsg = s.hdr.maxNumMsg
    · have hisFull : (s.resumeSender call).hdr.isFull = true := beq_iff_eq.mpr hfull
      cases timedOut with
      | true => simpa [doSendAgain, hisFull] using Move.sendTimesOut call hw (htimed rfl) hfull
      | false => simpa [doSendAgain, hisFull] using Move.sendBlocksAgain call hw hfull
    · have hnotFull : (s.resumeSender call).hdr.isFull = false := beq_eq_false_iff_ne.mpr hfull
      simpa [doSendAgain, hnotFull] using Move.sendPutsAgain call timedOut hw hfull
  | receiveAgain call timedOut =>
    obtain ⟨hw, htimed⟩ := he
    rw [after]
    by_cases hempty : s.hdr.curNumMsg = 0
    · have hisEmpty : (s.resumeReceiver call).hdr.isEmpty = true := beq_iff_eq.mpr hempty
      cases timedOut with
      | true =>
        simpa [doReceiveAgain, hisEmpty] using Move.receiveTimesOut call hw (htimed rfl) hempty
      | false => simpa [doReceiveAgain, hisEmpty] using Move.receiveBlocksAgain call hw hempty
    · have hnotEmpty : (s.resumeReceiver call).hdr.isEmpty = false :=
        beq_eq_false_iff_ne.mpr hempty
      simpa [doReceiveAgain, hnotEmpty] using Move.receiveTakesAgain call timedOut hw hempty
  | notifySender call m woke => exact .notifySender call m woke he.1 he.2
  | notifyReceiver call woke => exact .notifyReceiver call woke he.1 he.2

end MessageQueue

end Sephi.Ipc
