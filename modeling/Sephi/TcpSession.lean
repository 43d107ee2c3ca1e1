import Sephi.NetTypes

set_option autoImplicit false

namespace Sephi.Net.Tcp

abbrev SessionId := UInt64

/-- A `received` read has put `size` bytes into `received_packet_`, and its handler is
queued. -/
inductive Session.Op where
  | read
  | received (size : Nat)
  | write (chunk : Chunk)
  deriving DecidableEq, Repr

def Session.Op.Yields (ec : ErrorCode) : Session.Op → Prop
  | .read => ec ≠ 0
  | .received _ => ec = 0
  | .write _ => True

instance Session.Op.decidableYields (ec : ErrorCode) (op : Session.Op) :
    Decidable (op.Yields ec) := by
  cases op <;> unfold Session.Op.Yields <;> infer_instance

structure Session where
  address : SessionId
  receivedPacket : PacketBuffer
  sendingMessages : List Chunk
  ops : List Session.Op
  -- what the socket has received and nobody has read
  unread : Chunk
  -- the record of the run; no function of the class reads it
  arrived : Chunk
  sent : List Chunk

def Session.make (address : SessionId) : Session where
  address := address
  receivedPacket := .zero
  sendingMessages := []
  ops := []
  unread := []
  arrived := []
  sent := []

def Session.doRead (x : Session) : Session := { x with ops := x.ops ++ [.read] }

def Session.start (x : Session) : Session := x.doRead

def Session.doWrite (x : Session) : Session :=
  match x.sendingMessages with
  | [] => x
  | message :: _ => { x with ops := x.ops ++ [.write message] }

def Session.write (x : Session) (chunk : Chunk) : Session :=
  let writeInProgress := !x.sendingMessages.isEmpty
  let x := { x with sendingMessages := x.sendingMessages ++ [chunk] }
  if !writeInProgress then x.doWrite else x

/-- The part of `handle_write` after its check of the error code. -/
def Session.written (x : Session) (chunk : Chunk) : Session :=
  let x := { x with sendingMessages := x.sendingMessages.tail, sent := x.sent ++ [chunk] }
  if !x.sendingMessages.isEmpty then x.doWrite else x

def Session.begin (x : Session) (op : Session.Op) : Session :=
  { x with ops := x.ops.erase op }

def Session.arrive (x : Session) (bytes : Chunk) : Session :=
  { x with unread := x.unread ++ bytes, arrived := x.arrived ++ bytes }

def Session.perform (x : Session) (packet : Packet) : Session :=
  { x with
    receivedPacket := x.receivedPacket.fill packet
    unread := x.unread.drop packet.bytes.length
    ops := x.ops.erase .read ++ [.received packet.bytes.length] }

@[simp] theorem Session.doWrite_address (x : Session) : x.doWrite.address = x.address := by
  cases hm : x.sendingMessages <;> simp [Session.doWrite, hm]

@[simp] theorem Session.write_address (x : Session) (chunk : Chunk) :
    (x.write chunk).address = x.address := by
  simp only [Session.write]
  split
  · exact Session.doWrite_address _
  · rfl

@[simp] theorem Session.doWrite_sendingMessages (x : Session) :
    x.doWrite.sendingMessages = x.sendingMessages := by
  cases hm : x.sendingMessages <;> simp [Session.doWrite, hm]

@[simp] theorem Session.write_sendingMessages (x : Session) (chunk : Chunk) :
    (x.write chunk).sendingMessages = x.sendingMessages ++ [chunk] := by
  simp only [Session.write]
  split
  · exact Session.doWrite_sendingMessages _
  · rfl

@[simp] theorem Session.written_address (x : Session) (chunk : Chunk) :
    (x.written chunk).address = x.address := by
  simp only [Session.written]
  split
  · exact Session.doWrite_address _
  · rfl

end Sephi.Net.Tcp
