import Mathlib.Algebra.GroupWithZero.Nat
import Sephi.NetTypes
import Sephi.Transition

/-!
The reading side of `sephi::net::udp::Udp`: it waits until its socket is readable, and
then takes datagrams off the receive queue by the count of bytes that are available.
Datagrams arrive at any moment, also while the loop runs.
-/

set_option autoImplicit false

namespace Sephi.Net.Udp
open Transition

structure Endpoint where
  address : UInt32
  port : UInt16
  deriving DecidableEq, Repr

def Endpoint.addressToString (ep : Endpoint) : String :=
  ".".intercalate (([24, 16, 8, 0] : List UInt32).map fun bits =>
    toString ((ep.address >>> bits) &&& 255))

def toRemote (ep : Endpoint) : Remote := ⟨ep.addressToString, ep.port⟩

structure Datagram where
  sender : Endpoint
  payload : Chunk
  deriving DecidableEq, Repr

def Datagram.size (d : Datagram) : Nat := d.payload.length

def Datagram.message (d : Datagram) : Remote × Chunk := (toRemote d.sender, d.payload)

/-- What `available()` means: the size of the first datagram of the queue (Linux), or of
all of them together (Windows). -/
inductive Available where
  | first | total
  deriving DecidableEq, Repr

def Available.bytes (queue : List Datagram) : Available → Nat
  | .first => (queue.head?.map Datagram.size).getD 0
  | .total => (queue.map Datagram.size).sum

def subtract (available read : Nat) : Nat :=
  if read ≤ available then available - read else available + 2 ^ 64 - read

structure Round where
  found : Nat
  taken : Nat
  deriving DecidableEq, Repr

/-- A `handle_read` inside its loop: `available` is what the last test left. -/
structure Reading where
  available : Nat
  round : Round
  deriving DecidableEq, Repr

end Udp

open Udp in
structure Udp where
  -- the socket's receive queue
  queue : List Datagram
  senderEp : Endpoint
  -- `none` while the wait for readability is outstanding
  reading : Option Reading
  -- the record of the run; no function of the class reads it
  arrived : List Datagram
  messages : List (Remote × Chunk)
  errors : List (Remote × ErrorCode)
  rounds : List Round
  deriving DecidableEq, Repr

namespace Udp
open Transition

def doRead (c : Udp) : Udp := { c with reading := none }

/-- The test `available -= read`; where it fails, `handle_read` ends. -/
def loop (c : Udp) (r : Reading) (read : Nat) : Udp :=
  let available := subtract r.available read
  if available ≠ 0 then { c with reading := some { r with available := available } }
  else doRead { c with rounds := c.rounds ++ [r.round] }

/-- `handle_read` without an error, up to the first test of its loop. -/
def handleRead (meaning : Available) (c : Udp) : Udp :=
  c.loop ⟨meaning.bytes c.queue, c.queue.length, 0⟩ 0

def handleReadError (c : Udp) (ec : ErrorCode) : Udp :=
  doRead { c with errors := c.errors ++ [(toRemote c.senderEp, ec)] }

/-- The body of the loop: `receive_from` takes the first datagram off the queue and fills
the buffer with as much of it as fits. -/
def receive (c : Udp) (r : Reading) (d : Datagram) (rest : List Datagram) : Udp :=
  let read := min d.size r.available
  let c := { c with queue := rest, senderEp := d.sender }
  let c := { c with messages := c.messages ++ [(toRemote c.senderEp, d.payload.take read)] }
  c.loop { r with round := { r.round with taken := r.round.taken + 1 } } read

inductive Event where
  | arrive (d : Datagram)
  | readable
  | failed (ec : ErrorCode)
  | receive
  deriving DecidableEq, Repr

/-- `receive_from` on an empty queue blocks until a datagram arrives. -/
def step (meaning : Available) (c : Udp) : Event → Option Udp
  | .arrive d => some { c with queue := c.queue ++ [d], arrived := c.arrived ++ [d] }
  | .readable =>
    match c.reading with
    | none => some (c.handleRead meaning)
    | some _ => none
  | .failed ec =>
    match c.reading with
    | none => some (c.handleReadError ec)
    | some _ => none
  | .receive =>
    match c.reading, c.queue with
    | some r, d :: rest => some (c.receive r d rest)
    | _, _ => none

def start : Udp where
  queue := []
  senderEp := ⟨0, 0⟩
  reading := none
  arrived := []
  messages := []
  errors := []
  rounds := []

def machine (meaning : Available) : Machine Udp Event := ⟨start, step meaning⟩

@[simp] theorem loop_queue (c : Udp) (r : Reading) (read : Nat) :
    (c.loop r read).queue = c.queue := by
  simp only [loop]
  split <;> rfl

@[simp] theorem loop_messages (c : Udp) (r : Reading) (read : Nat) :
    (c.loop r read).messages = c.messages := by
  simp only [loop]
  split <;> rfl

inductive Move (meaning : Available) (c : Udp) : Event → Udp → Prop where
  | arrive (d : Datagram) :
      Move meaning c (.arrive d)
        { c with queue := c.queue ++ [d], arrived := c.arrived ++ [d] }
  | readable (hr : c.reading = none) : Move meaning c .readable (c.handleRead meaning)
  | failed (ec : ErrorCode) (hr : c.reading = none) :
      Move meaning c (.failed ec) (c.handleReadError ec)
  | receive (r : Reading) (d : Datagram) (rest : List Datagram) (hr : c.reading = some r)
      (hq : c.queue = d :: rest) : Move meaning c .receive (c.receive r d rest)

theorem step_move {meaning : Available} {c t : Udp} {e : Event}
    (h : c.step meaning e = some t) : c.Move meaning e t := by
  cases e with
  | arrive d =>
    simp only [step, Option.some.injEq] at h
    subst h
    exact .arrive d
  | readable =>
    cases hr : c.reading with
    | none =>
      simp only [step, hr, Option.some.injEq] at h
      subst h
      exact .readable hr
    | some r => simp [step, hr] at h
  | failed ec =>
    cases hr : c.reading with
    | none =>
      simp only [step, hr, Option.some.injEq] at h
      subst h
      exact .failed ec hr
    | some r => simp [step, hr] at h
  | receive =>
    cases hr : c.reading with
    | none => simp [step, hr] at h
    | some r =>
      cases hq : c.queue with
      | nil => simp [step, hr, hq] at h
      | cons d rest =>
        simp only [step, hr, hq, Option.some.injEq] at h
        subst h
        exact .receive r d rest hr hq

end Udp

end Sephi.Net
