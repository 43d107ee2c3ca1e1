import Mathlib.Logic.Function.Basic
import Sephi.EventLoop
import Sephi.NetTypes

/-!
`sephi::net::tcp::Client` on its `io_context_`. One step is one call of the application,
one posted task, or one completion handler together with the calls that the
application's own handler makes inside it. What the kernel and the peer do (bytes that
arrive, a read that is performed, the error code of a completion) is part of the event.
-/

set_option autoImplicit false

namespace Sephi.Net.Tcp
open Transition EventLoop

/-- The lambdas that `write` and `close` post. The one of `close` captures only `this`;
`calledOn` records which socket `close` was called on. -/
inductive Client.Task where
  | write (chunk : Chunk)
  | shutdown (calledOn : Nat)
  deriving DecidableEq, Repr

/-- Started operations whose handler has not run. Sockets are named by the number of
the `do_connect` that made them. A `received` read has put `size` bytes into
`received_packet_`, and its handler is queued. -/
inductive Client.Op where
  | connect (socket : Nat)
  | read (socket : Nat)
  | received (socket size : Nat)
  | write (socket : Nat) (chunk : Chunk)
  deriving DecidableEq, Repr

def Client.Op.socket : Client.Op → Nat
  | .connect k | .read k | .received k _ | .write k _ => k

def Client.Op.Yields (ec : ErrorCode) : Client.Op → Prop
  | .read _ => ec ≠ 0
  | .received _ _ => ec = 0
  | .connect _ | .write _ _ => True

instance (ec : ErrorCode) (op : Client.Op) : Decidable (op.Yields ec) := by
  cases op <;> unfold Client.Op.Yields <;> infer_instance

inductive Client.Call where
  | write (chunk : Chunk)
  | close
  | reconnect
  deriving DecidableEq, Repr

inductive Client.Callback where
  | connection (state : ConnectionState) (ec : ErrorCode)
  | packet (data : Chunk)
  deriving DecidableEq, Repr

/-- A call of `connection_handler_` or `packet_handler_`: how often `do_connect` had run,
and the socket of the operation whose completion led to it. -/
structure Client.Report where
  attempt : Nat
  cause : Nat
  callback : Client.Callback
  deriving DecidableEq, Repr

/-- A completion whose handler has started, and the number of `socket_` at that time. -/
structure Client.Completion where
  attempt : Nat
  op : Client.Op
  ec : ErrorCode
  deriving DecidableEq, Repr

structure Client where
  connectionState : ConnectionState
  socket : Nat
  receivedPacket : PacketBuffer
  sendingMessages : List Chunk
  -- io_context_ and runner_
  tasks : List Client.Task
  ops : List Client.Op
  runner : Runner
  -- what each socket has received and nobody has read
  unread : Nat → Chunk
  -- the record of the run; no function of the class reads it
  arrived : Nat → Chunk
  accepted : List Chunk
  sent : List Chunk
  handled : List Client.Completion
  reports : List Client.Report
  shutdowns : List (Nat × Nat)

def Client.isConnected (c : Client) : Bool := c.connectionState == .connected

def Client.areAllMessagesSent (c : Client) : Bool := c.sendingMessages.isEmpty

def Client.doConnect (c : Client) : Client :=
  { c with
    connectionState := .disconnected
    socket := c.socket + 1
    ops := c.ops ++ [.connect (c.socket + 1)] }

/-- `socket_->close()` makes what is pending on the old socket complete. No read can be
performed on it any more, but a completion with success may be queued already. -/
def Client.reconnect (c : Client) : Client := c.doConnect

def Client.close (c : Client) : Client :=
  if c.isConnected then
    { c with
      connectionState := .disconnected
      tasks := c.tasks ++ [.shutdown c.socket] }
  else c

def Client.write (c : Client) (chunk : Chunk) : Client × Bool :=
  if !c.isConnected then (c, false)
  else ({ c with tasks := c.tasks ++ [.write chunk] }, true)

def Client.call (c : Client) : Client.Call → Client
  | .write chunk =>
    let r := c.write chunk
    if r.2 then { r.1 with accepted := r.1.accepted ++ [chunk] } else r.1
  | .close => c.close
  | .reconnect => c.reconnect

def Client.calls (c : Client) (inside : List Client.Call) : Client :=
  inside.foldl Client.call c

def Client.callBackConnectionHandler (c : Client) (cause : Nat) (state : ConnectionState)
    (ec : ErrorCode) (inside : List Client.Call) : Client :=
  Client.calls { c with
    connectionState := state
    reports := c.reports ++ [⟨c.socket, cause, .connection state ec⟩] } inside

def Client.callPacketHandler (c : Client) (cause size : Nat)
    (inside : List Client.Call) : Client :=
  Client.calls { c with
    reports := c.reports ++ [⟨c.socket, cause, .packet (c.receivedPacket.view size)⟩] }
    inside

def Client.doRead (c : Client) : Client := { c with ops := c.ops ++ [.read c.socket] }

def Client.handleConnect (c : Client) (k : Nat) (ec : ErrorCode)
    (inside : List Client.Call) : Client :=
  if ec ≠ 0 then c.callBackConnectionHandler k .disconnected ec inside
  else (c.callBackConnectionHandler k .connected ec inside).doRead

def Client.handleRead (c : Client) (k : Nat) (ec : ErrorCode) (size : Nat)
    (inside : List Client.Call) : Client :=
  if ec ≠ 0 then c.callBackConnectionHandler k .disconnected ec inside
  else (c.callPacketHandler k size inside).doRead

def Client.doWrite (c : Client) : Client :=
  match c.sendingMessages with
  | [] => c
  | message :: _ => { c with ops := c.ops ++ [.write c.socket message] }

/-- The lambda that `write` posts. -/
def Client.writeTask (c : Client) (chunk : Chunk) : Client :=
  let writeInProgress := !c.sendingMessages.isEmpty
  let c := { c with sendingMessages := c.sendingMessages ++ [chunk] }
  if !writeInProgress then c.doWrite else c

def Client.handleWrite (c : Client) (k : Nat) (chunk : Chunk) (ec : ErrorCode)
    (inside : List Client.Call) : Client :=
  if ec ≠ 0 then c.callBackConnectionHandler k .disconnected ec inside
  else
    let c := { c with
      sendingMessages := c.sendingMessages.tail
      sent := c.sent ++ [chunk] }
    if !c.sendingMessages.isEmpty then c.doWrite else c

/-- `ec` is what `shutdown` reports; it throws when that is an error, and nothing on
the runner's stack catches it. -/
def Client.runTask (c : Client) (ec : ErrorCode) : Client.Task → Client
  | .write chunk => c.writeTask chunk
  | .shutdown calledOn =>
    let c := { c with shutdowns := c.shutdowns ++ [(calledOn, c.socket)] }
    if ec ≠ 0 then { c with runner := .terminated } else c

def Client.handle (c : Client) (ec : ErrorCode) (inside : List Client.Call) :
    Client.Op → Client
  | .connect k => c.handleConnect k ec inside
  | .read k => c.handleRead k ec 0 inside
  | .received k size => c.handleRead k ec size inside
  | .write k chunk => c.handleWrite k chunk ec inside

/-- `run()` returns as soon as nothing is posted and nothing is outstanding. -/
def Client.settle (c : Client) : Client :=
  if c.runner = .running ∧ c.tasks = [] ∧ c.ops = [] then { c with runner := .returned }
  else c

def Client.begin (c : Client) (op : Client.Op) (ec : ErrorCode) : Client :=
  { c with ops := c.ops.erase op, handled := c.handled ++ [⟨c.socket, op, ec⟩] }

def Client.arrive (c : Client) (k : Nat) (bytes : Chunk) : Client :=
  { c with
    unread := Function.update c.unread k (c.unread k ++ bytes)
    arrived := Function.update c.arrived k (c.arrived k ++ bytes) }

def Client.perform (c : Client) (k : Nat) (packet : Packet) : Client :=
  { c with
    receivedPacket := c.receivedPacket.fill packet
    unread := Function.update c.unread k ((c.unread k).drop packet.bytes.length)
    ops := c.ops.erase (.read k) ++ [.received k packet.bytes.length] }

inductive Client.Event where
  | call (call : Client.Call)
  | task (ec : ErrorCode)
  | arrive (socket : Nat) (bytes : Chunk)
  | perform (socket : Nat) (packet : Packet)
  | complete (op : Client.Op) (ec : ErrorCode) (inside : List Client.Call)

def Client.act (c : Client) : Client.Event → Option Client
  | .call x => if c.runner ≠ .terminated then some (c.call x) else none
  | .task ec =>
    match c.tasks with
    | [] => none
    | t :: rest =>
      if c.runner = .running then some (Client.runTask { c with tasks := rest } ec t)
      else none
  | .arrive k bytes => some (c.arrive k bytes)
  | .perform k packet =>
    if c.runner = .running ∧ .read k ∈ c.ops ∧ k = c.socket ∧
        packet.bytes <+: c.unread k then
      some (c.perform k packet)
    else none
  | .complete op ec inside =>
    if c.runner = .running ∧ op ∈ c.ops ∧ op.Yields ec then
      some ((c.begin op ec).handle ec inside op)
    else none

def Client.step (c : Client) (e : Client.Event) : Option Client :=
  (c.act e).map Client.settle

def Client.start : Client :=
  Client.doConnect {
    connectionState := .disconnected, socket := 0, receivedPacket := .zero
    sendingMessages := [], tasks := [], ops := [], runner := .running
    unread := fun _ => [], arrived := fun _ => [], accepted := [], sent := []
    handled := [], reports := [], shutdowns := [] }

def Client.machine : Machine Client Client.Event := ⟨Client.start, Client.step⟩

@[simp] theorem Client.settle_isConnected (c : Client) :
    c.settle.isConnected = c.isConnected := by
  unfold Client.settle
  split <;> rfl

@[simp] theorem Client.doRead_isConnected (c : Client) :
    c.doRead.isConnected = c.isConnected := rfl

@[simp] theorem Client.doWrite_isConnected (c : Client) :
    c.doWrite.isConnected = c.isConnected := by
  cases h : c.sendingMessages <;> simp [Client.doWrite, Client.isConnected, h]

@[simp] theorem Client.writeTask_isConnected (c : Client) (chunk : Chunk) :
    (c.writeTask chunk).isConnected = c.isConnected := by
  simp only [Client.writeTask]
  split
  · exact Client.doWrite_isConnected _
  · rfl

def Client.Task.chunk? : Client.Task → Option Chunk
  | .write chunk => some chunk
  | .shutdown _ => none

def Client.connects (k n : Nat) : List Client.Op :=
  (List.range n).map fun i => .connect (k + 1 + i)

@[simp] theorem Client.connects_zero (k : Nat) : Client.connects k 0 = [] := rfl

@[simp] theorem Client.connects_one (k : Nat) :
    Client.connects k 1 = [.connect (k + 1)] := rfl

theorem Client.connects_add (k m n : Nat) :
    Client.connects k (m + n) = Client.connects k m ++ Client.connects (k + m) n := by
  simp [Client.connects, List.range_add, Nat.add_assoc, Nat.add_comm, Nat.add_left_comm]

theorem Client.mem_connects {k n : Nat} {op : Client.Op} :
    op ∈ Client.connects k n ↔ ∃ i, i < n ∧ op = .connect (k + 1 + i) := by
  simp [Client.connects, eq_comm]

theorem Client.call_spec (c : Client) (x : Client.Call) :
    ∃ st n ts, c.call x = { c with
        connectionState := st
        socket := c.socket + n
        tasks := c.tasks ++ ts
        ops := c.ops ++ Client.connects c.socket n
        accepted := c.accepted ++ ts.filterMap Client.Task.chunk? } ∧
      (st = c.connectionState ∨ st = .disconnected) ∧ (n = 0 ∨ st = .disconnected) := by
  cases x with
  | write chunk =>
    cases hc : c.isConnected with
    | true =>
      exact ⟨c.connectionState, 0, [.write chunk],
        by simp [Client.call, Client.write, hc, Client.Task.chunk?], by simp, by simp⟩
    | false =>
      exact ⟨c.connectionState, 0, [], by simp [Client.call, Client.write, hc], by simp,
        by simp⟩
  | close =>
    cases hc : c.isConnected with
    | true =>
      exact ⟨.disconnected, 0, [.shutdown c.socket],
        by simp [Client.call, Client.close, hc, Client.Task.chunk?], by simp, by simp⟩
    | false =>
      exact ⟨c.connectionState, 0, [], by simp [Client.call, Client.close, hc], by simp,
        by simp⟩
  | reconnect =>
    exact ⟨.disconnected, 1, [], by simp [Client.call, Client.reconnect, Client.doConnect],
      by simp, by simp⟩

theorem Client.calls_spec (c : Client) (inside : List Client.Call) :
    ∃ st n ts, c.calls inside = { c with
        connectionState := st
        socket := c.socket + n
        tasks := c.tasks ++ ts
        ops := c.ops ++ Client.connects c.socket n
        accepted := c.accepted ++ ts.filterMap Client.Task.chunk? } ∧
      (st = c.connectionState ∨ st = .disconnected) ∧ (n = 0 ∨ st = .disconnected) := by
  induction inside generalizing c with
  | nil => exact ⟨c.connectionState, 0, [], by simp [Client.calls], by simp, by simp⟩
  | cons x inside ih =>
    obtain ⟨st, n, ts, hx, hst, hn⟩ := c.call_spec x
    obtain ⟨st', n', ts', hxs, hst', hn'⟩ := ih (c.call x)
    have he : c.calls (x :: inside) = (c.call x).calls inside := rfl
    rw [hx] at hxs hst'
    refine ⟨st', n + n', ts ++ ts', ?_, ?_, ?_⟩
    · rw [he, hx, hxs]
      simp [Client.connects_add, Nat.add_assoc]
    · rcases hst' with rfl | rfl
      · exact hst
      · exact .inr rfl
    · rcases hn' with rfl | rfl
      · rcases hst' with rfl | rfl
        · simpa using hn
        · exact .inr rfl
      · exact .inr rfl

def Client.Call.isWrite : Client.Call → Bool
  | .write _ => true
  | .close | .reconnect => false

theorem Client.call_isConnected (c : Client) (x : Client.Call) :
    (c.call x).isConnected = (c.isConnected && x.isWrite) := by
  cases x with
  | write chunk =>
    cases hc : c.isConnected <;>
      simp_all [Client.call, Client.write, Client.isConnected, Client.Call.isWrite]
  | close =>
    cases hc : c.isConnected <;>
      simp_all [Client.call, Client.close, Client.isConnected, Client.Call.isWrite]
  | reconnect => simp [Client.call, Client.reconnect, Client.doConnect, Client.isConnected,
      Client.Call.isWrite]

theorem Client.calls_isConnected (c : Client) (inside : List Client.Call) :
    (c.calls inside).isConnected = (c.isConnected && inside.all Client.Call.isWrite) := by
  induction inside generalizing c with
  | nil => simp [Client.calls]
  | cons x inside ih =>
    have h := ih (c.call x)
    rw [Client.call_isConnected] at h
    simpa [Client.calls, Bool.and_assoc] using h

theorem Client.callBackConnectionHandler_isConnected (c : Client) (cause : Nat)
    (state : ConnectionState) (ec : ErrorCode) (inside : List Client.Call) :
    (c.callBackConnectionHandler cause state ec inside).isConnected =
      (state == .connected && inside.all Client.Call.isWrite) :=
  Client.calls_isConnected _ inside

theorem Client.handleWrite_isConnected (c : Client) (k : Nat) (chunk : Chunk)
    (inside : List Client.Call) :
    (c.handleWrite k chunk 0 inside).isConnected = c.isConnected := by
  simp only [Client.handleWrite, ne_eq, not_true_eq_false, if_false]
  split
  · exact Client.doWrite_isConnected _
  · rfl

theorem Client.handle_error {ec : ErrorCode} (hec : ec ≠ 0) (c : Client)
    (inside : List Client.Call) (op : Client.Op) :
    c.handle ec inside op =
      c.callBackConnectionHandler op.socket .disconnected ec inside := by
  cases op <;> simp [Client.handle, Client.handleConnect, Client.handleRead,
    Client.handleWrite, Client.Op.socket, hec]

inductive Client.Move (c : Client) : Client.Event → Client → Prop where
  | call (x : Client.Call) (hr : c.runner ≠ .terminated) : Move c (.call x) (c.call x)
  | queued (chunk : Chunk) (rest : List Client.Task) (ec : ErrorCode)
      (hr : c.runner = .running) (ht : c.tasks = .write chunk :: rest) :
      Move c (.task ec) (Client.writeTask { c with tasks := rest } chunk)
  | shutdown (k : Nat) (rest : List Client.Task) (ec : ErrorCode)
      (hr : c.runner = .running) (ht : c.tasks = .shutdown k :: rest) :
      Move c (.task ec) (Client.runTask { c with tasks := rest } ec (.shutdown k))
  | arrive (k : Nat) (bytes : Chunk) : Move c (.arrive k bytes) (c.arrive k bytes)
  | perform (k : Nat) (packet : Packet) (hr : c.runner = .running)
      (hop : .read k ∈ c.ops) (hk : k = c.socket) (hp : packet.bytes <+: c.unread k) :
      Move c (.perform k packet) (c.perform k packet)
  | failed (op : Client.Op) (ec : ErrorCode) (inside : List Client.Call)
      (hr : c.runner = .running) (hop : op ∈ c.ops) (hec : ec ≠ 0) (hy : op.Yields ec) :
      Move c (.complete op ec inside)
        ((c.begin op ec).callBackConnectionHandler op.socket .disconnected ec inside)
  | opened (k : Nat) (inside : List Client.Call)
      (hr : c.runner = .running) (hop : .connect k ∈ c.ops) :
      Move c (.complete (.connect k) 0 inside)
        ((c.begin (.connect k) 0).callBackConnectionHandler k .connected 0 inside).doRead
  | packet (k size : Nat) (inside : List Client.Call)
      (hr : c.runner = .running) (hop : .received k size ∈ c.ops) :
      Move c (.complete (.received k size) 0 inside)
        ((c.begin (.received k size) 0).callPacketHandler k size inside).doRead
  | written (k : Nat) (chunk : Chunk) (inside : List Client.Call)
      (hr : c.runner = .running) (hop : .write k chunk ∈ c.ops) :
      Move c (.complete (.write k chunk) 0 inside)
        ((c.begin (.write k chunk) 0).handleWrite k chunk 0 inside)

theorem Client.act_move {c d : Client} {e : Client.Event} (h : c.act e = some d) :
    c.Move e d := by
  cases e with
  | call x =>
    simp only [Client.act, Option.ite_none_right_eq_some, Option.some.injEq] at h
    obtain ⟨hr, rfl⟩ := h
    exact .call x hr
  | task ec =>
    simp only [Client.act] at h
    split at h
    · contradiction
    · rename_i t rest ht
      simp only [Option.ite_none_right_eq_some, Option.some.injEq] at h
      obtain ⟨hr, rfl⟩ := h
      cases t with
      | write chunk => exact .queued chunk rest ec hr ht
      | shutdown k => exact .shutdown k rest ec hr ht
  | arrive k bytes =>
    simp only [Client.act, Option.some.injEq] at h
    obtain rfl := h
    exact .arrive k bytes
  | perform k packet =>
    simp only [Client.act, Option.ite_none_right_eq_some, Option.some.injEq] at h
    obtain ⟨⟨hr, hop, hk, hp⟩, rfl⟩ := h
    exact .perform k packet hr hop hk hp
  | complete op ec inside =>
    simp only [Client.act, Option.ite_none_right_eq_some, Option.some.injEq] at h
    obtain ⟨⟨hr, hop, hy⟩, rfl⟩ := h
    by_cases hec : ec = 0
    · subst hec
      cases op with
      | connect k => exact .opened k inside hr hop
      | read k => exact absurd rfl hy
      | received k size => exact .packet k size inside hr hop
      | write k chunk => exact .written k chunk inside hr hop
    · rw [Client.handle_error hec]
      exact .failed op ec inside hr hop hec hy

theorem Client.step_move {c d : Client} {e : Client.Event} (h : c.step e = some d) :
    ∃ d', c.Move e d' ∧ d = d'.settle := by
  obtain ⟨d', hact, rfl⟩ := Option.map_eq_some_iff.mp h
  exact ⟨d', Client.act_move hact, rfl⟩

def Client.within (c : Client) : Client.Event → Option Client
  | .complete op ec inside =>
    if ec ≠ 0 then
      some ((c.begin op ec).callBackConnectionHandler op.socket .disconnected ec inside)
    else match op with
      | .connect k => some ((c.begin op ec).callBackConnectionHandler k .connected ec inside)
      | .received k size => some ((c.begin op ec).callPacketHandler k size inside)
      | .read _ | .write _ _ => none
  | .call _ | .task _ | .arrive _ _ | .perform _ _ => none

/-- The states in which the application can call the client: those between two steps,
and those inside its own handlers. -/
inductive Client.Asked : Client → Prop where
  | between (c : Client) (h : Client.machine.Reachable c) : Asked c
  | inside (c t d : Client) (e : Client.Event) (h : Client.machine.Reachable c)
      (ht : c.step e = some t) (hd : c.within e = some d) : Asked d

end Sephi.Net.Tcp
