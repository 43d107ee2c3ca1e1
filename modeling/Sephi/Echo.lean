import Sephi.ClientReading
import Sephi.ClientSending
import Sephi.SessionReading

/-!
Any number of clients of one server whose packet handler writes each packet back to the
session it came from. The clients only write, nothing fails, and nobody closes or
reconnects. Each event is one step of a client, of the server, or of a connection.
-/

set_option autoImplicit false

namespace Sephi.Net.Tcp
open Transition

def Client.writing (c : Client) : Chunk := (c.ops.filterMap Client.Op.chunk?).flatten

def Session.writing (x : Session) : Chunk := (x.ops.filterMap Session.Op.chunk?).flatten

/-- A client, the session that the server has made for it, and the bytes under way on
their connection. `put` counts the bytes of the client's outstanding `async_write` that
have left it, and `putBack` those of the session's. -/
structure Peer where
  client : Client
  session : Option Nat
  up : Chunk
  down : Chunk
  put : Nat
  putBack : Nat

structure Echo (ι : Type) where
  server : Server
  peer : ι → Peer

variable {ι : Type} [DecidableEq ι]

/-- `inside` are the chunks that the client's application writes in its handler. -/
inductive Echo.Event (ι : Type) where
  | write (i : ι) (chunk : Chunk)
  | task (i : ι)
  | connected (i : ι) (inside : List Chunk)
  | put (i : ι) (n : Nat)
  | written (i : ι) (chunk : Chunk)
  | accept (i : ι) (address : SessionId)
  | arrive (i : ι) (n : Nat)
  | read (i : ι) (packet : Packet)
  | echo (i : ι) (size : Nat)
  | putBack (i : ι) (n : Nat)
  | writtenBack (i : ι) (chunk : Chunk)
  | arriveBack (i : ι) (n : Nat)
  | readBack (i : ι) (packet : Packet)
  | packet (i : ι) (size : Nat) (inside : List Chunk)

def Echo.setPeer (c : Echo ι) (i : ι) (p : Peer) : Echo ι :=
  { c with peer := Function.update c.peer i p }

def Echo.clientStep (c : Echo ι) (i : ι) (e : Client.Event) (f : Peer → Peer) :
    Option (Echo ι) :=
  ((c.peer i).client.step e).map fun d => c.setPeer i (f { c.peer i with client := d })

def Echo.serverStep (c : Echo ι) (i : ι) (e : Server.Event) (f : Peer → Peer) :
    Option (Echo ι) :=
  (c.server.step e).map fun d => Echo.setPeer { c with server := d } i (f (c.peer i))

def Echo.sessionStep (c : Echo ι) (i : ι) (e : Nat → Server.Event) (f : Peer → Peer) :
    Option (Echo ι) :=
  match (c.peer i).session with
  | none => none
  | some s => c.serverStep i (e s) f

/-- The packet handler of the server: `write_to(id, Chunk{packet, next(packet, size)})` -/
def Server.echoes (c : Server) (s size : Nat) : List Server.Call :=
  [.write (.writeTo (c.sessionPtrToId s) ((c.session s).receivedPacket.view size))]

def Echo.step (c : Echo ι) : Echo.Event ι → Option (Echo ι)
  | .write i chunk => c.clientStep i (.call (.write chunk)) id
  | .task i => c.clientStep i (.task 0) id
  | .connected i inside =>
    c.clientStep i (.complete (.connect 1) 0 (inside.map .write)) id
  | .put i n =>
    let p := c.peer i
    if p.put + n ≤ p.client.writing.length then
      some (c.setPeer i { p with
        up := p.up ++ (p.client.writing.drop p.put).take n, put := p.put + n })
    else none
  | .written i chunk =>
    if (c.peer i).put = chunk.length then
      c.clientStep i (.complete (.write 1 chunk) 0 []) fun p => { p with put := 0 }
    else none
  | .accept i address =>
    if (c.peer i).session = none then
      c.serverStep i (.accept 0 address []) fun p =>
        { p with session := some c.server.made }
    else none
  | .arrive i n =>
    c.sessionStep i (fun s => .arrive s ((c.peer i).up.take n)) fun p =>
      { p with up := p.up.drop n }
  | .read i packet => c.sessionStep i (fun s => .perform s packet) id
  | .echo i size =>
    c.sessionStep i
      (fun s => .complete s (.received size) 0 (c.server.echoes s size)) id
  | .putBack i n =>
    let p := c.peer i
    match p.session with
    | none => none
    | some s =>
      if p.putBack + n ≤ (c.server.session s).writing.length then
        some (c.setPeer i { p with
          down := p.down ++ ((c.server.session s).writing.drop p.putBack).take n
          putBack := p.putBack + n })
      else none
  | .writtenBack i chunk =>
    if (c.peer i).putBack = chunk.length then
      c.sessionStep i (fun s => .complete s (.write chunk) 0 []) fun p =>
        { p with putBack := 0 }
    else none
  | .arriveBack i n =>
    c.clientStep i (.arrive 1 ((c.peer i).down.take n)) fun p =>
      { p with down := p.down.drop n }
  | .readBack i packet => c.clientStep i (.perform 1 packet) id
  | .packet i size inside =>
    c.clientStep i (.complete (.received 1 size) 0 (inside.map .write)) id

def Echo.start : Echo ι where
  server := Server.start
  peer := fun _ =>
    { client := Client.start, session := none, up := [], down := [], put := 0, putBack := 0 }

def Echo.machine (ι : Type) [DecidableEq ι] : Machine (Echo ι) (Echo.Event ι) :=
  ⟨Echo.start, Echo.step⟩

def Client.given (c : Client) : Chunk := c.reports.flatMap fun r => r.callback.bytes

/-- Of the bytes of client `i` none waits anywhere: in a posted task, in a queue, on the
way, in a socket, or in a `received_packet_` whose handler has not run. -/
def Echo.Quiet (c : Echo ι) (i : ι) : Prop :=
  (c.peer i).client.tasks = [] ∧ (c.peer i).client.sendingMessages = [] ∧
  (c.peer i).up = [] ∧ (c.peer i).down = [] ∧ (c.peer i).client.unread 1 = [] ∧
  (∀ k size, .received k size ∉ (c.peer i).client.ops) ∧
  ∀ s, (c.peer i).session = some s →
    (c.server.session s).sendingMessages = [] ∧ (c.server.session s).unread = [] ∧
    ∀ size, .received size ∉ (c.server.session s).ops

end Sephi.Net.Tcp
