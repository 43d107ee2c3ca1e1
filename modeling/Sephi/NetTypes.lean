import Mathlib.Data.List.Basic

set_option autoImplicit false

namespace Sephi.Net

abbrev Chunk := List UInt8

def maxBufferSize : Nat := 4096

/-- The value of a `std::error_code`; zero means success. -/
abbrev ErrorCode := Int

structure Remote where
  address : String
  port : UInt16
  deriving DecidableEq, Repr

inductive ConnectionState where
  | disconnected | connected
  deriving DecidableEq, Repr

structure PacketBuffer where
  data : List UInt8
  length_eq : data.length = maxBufferSize

/-- What one `async_read_some` into a `PacketBuffer` can get. -/
structure Packet where
  bytes : Chunk
  nonempty : bytes ≠ []
  fits : bytes.length ≤ maxBufferSize

def Packet.cons (b : UInt8) (rest : Chunk) (h : rest.length < maxBufferSize) : Packet :=
  ⟨b :: rest, List.cons_ne_nil b rest, h⟩

def Packet.byte (b : UInt8) : Packet := .cons b [] (by decide)

def PacketBuffer.zero : PacketBuffer := ⟨List.replicate maxBufferSize 0, by simp⟩

def PacketBuffer.fill (b : PacketBuffer) (p : Packet) : PacketBuffer :=
  ⟨p.bytes ++ b.data.drop p.bytes.length, by
    have hf := p.fits
    have hl := b.length_eq
    simp; omega⟩

def PacketBuffer.view (b : PacketBuffer) (size : Nat) : Chunk := b.data.take size

@[simp] theorem PacketBuffer.view_fill (b : PacketBuffer) (p : Packet) :
    (b.fill p).view p.bytes.length = p.bytes := by
  simp [PacketBuffer.view, PacketBuffer.fill]

end Sephi.Net
