import Mathlib.Logic.Function.Basic
import Sephi.EventLoop
import Sephi.NetTypes

/-!
`sephi::net::serial::Serial` on its `io_context_`, in the manner of the TCP client. The
port is opened by a posted task, which also runs `handle_open`.
-/

set_option autoImplicit false

namespace Sephi.Net.Serial
open Transition EventLoop

inductive BaudRate where
  | br1200 | br2400 | br4800 | br9600 | br14400 | br19200 | br38400 | br57600 | br115200
  deriving DecidableEq, Repr

inductive CharacterSize where
  | cs5 | cs6 | cs7 | cs8 | cs9
  deriving DecidableEq, Repr

inductive Parity where
  | none | odd | even
  deriving DecidableEq, Repr

inductive StopBits where
  | one | onepointfive | two
  deriving DecidableEq, Repr

inductive FlowControl where
  | none | software | hardware
  deriving DecidableEq, Repr

structure SerialParams where
  baudRate : BaudRate
  characterSize : CharacterSize
  parity : Parity
  stopBits : StopBits
  flowControl : FlowControl
  deriving DecidableEq, Repr

def serialParams8N1 (baudRate : BaudRate) (characterSize : CharacterSize := .cs8)
    (parity : Parity := .none) (stopBits : StopBits := .one)
    (flowControl : FlowControl := .none) : SerialParams :=
  ⟨baudRate, characterSize, parity, stopBits, flowControl⟩

inductive PortOption where
  | baudRate (v : BaudRate)
  | characterSize (v : CharacterSize)
  | stopBits (v : StopBits)
  | parity (v : Parity)
  | flowControl (v : FlowControl)
  deriving DecidableEq, Repr

/-- The calls of `set_option` that `handle_open` makes, in its order. -/
def SerialParams.options (p : SerialParams) : List PortOption :=
  [.baudRate p.baudRate, .characterSize p.characterSize, .stopBits p.stopBits,
    .parity p.parity, .flowControl p.flowControl]

/-- The lambdas that `write`, `close` and `do_open` post. -/
inductive Task where
  | write (chunk : Chunk)
  | closePort
  | openPort
  deriving DecidableEq, Repr

/-- Started operations whose handler has not run. Ports are named by the number of the
`do_open` that made them. -/
inductive Op where
  | read (port : Nat)
  | received (port size : Nat)
  | write (port : Nat) (chunk : Chunk)
  deriving DecidableEq, Repr

def Op.port : Op → Nat
  | .read k | .received k _ | .write k _ => k

def Op.Yields (ec : ErrorCode) : Op → Prop
  | .read _ => ec ≠ 0
  | .received _ _ => ec = 0
  | .write _ _ => True

instance (ec : ErrorCode) (op : Op) : Decidable (op.Yields ec) := by
  cases op <;> unfold Op.Yields <;> infer_instance

/-- A `flush` that fails changes nothing, and is no call here. -/
inductive Call where
  | write (chunk : Chunk)
  | close
  | reopen
  | flush
  deriving DecidableEq, Repr

inductive Callback where
  | connection (state : ConnectionState) (ec : ErrorCode)
  | data (data : Chunk)
  deriving DecidableEq, Repr

/-- A call of `connection_handler_` or `data_handler_`: how often `do_open` had run, and
the port that led to it. -/
structure Report where
  attempt : Nat
  cause : Nat
  callback : Callback
  deriving DecidableEq, Repr

/-- What the device answers while a posted task runs: the error code of `open` or
`close`, of each `set_option`, and of the flush. -/
structure Device where
  ec : ErrorCode
  optionEc : PortOption → ErrorCode
  flushEc : ErrorCode

def Device.steady (ec : ErrorCode) : Device := ⟨ec, fun _ => 0, 0⟩

end Serial

open Serial EventLoop in
structure Serial where
  params : SerialParams
  connectionState : ConnectionState
  port : Nat
  portOpen : Bool
  receivedData : PacketBuffer
  sendingMessages : List Chunk
  -- io_context_ and runner_
  tasks : List Task
  ops : List Op
  runner : Runner
  -- what each port has received and nobody has read
  unread : Nat → Chunk
  -- the record of the run; no function of the class reads it. What a flush has discarded
  -- is not kept
  kept : Nat → Chunk
  accepted : List Chunk
  sent : List Chunk
  reports : List Report

namespace Serial
open Transition EventLoop

def isOpened (c : Serial) : Bool := c.connectionState == .connected

def areAllMessagesSent (c : Serial) : Bool := c.sendingMessages.isEmpty

/-- The new port is not open yet, and what was pending on the old one completes. -/
def doOpen (c : Serial) : Serial :=
  { c with
    connectionState := .disconnected
    port := c.port + 1
    portOpen := false
    tasks := c.tasks ++ [.openPort] }

def close (c : Serial) : Serial :=
  { c with
    connectionState := .disconnected
    tasks := c.tasks ++ [.closePort] }

def reopen (c : Serial) : Serial := c.close.doOpen

def write (c : Serial) (chunk : Chunk) : Serial × Bool :=
  if !c.isOpened then (c, false)
  else ({ c with tasks := c.tasks ++ [.write chunk] }, true)

/-- `TCIOFLUSH` takes what the port has received and nobody has read. On a port that is not
open it fails. -/
def flush (c : Serial) : Serial :=
  if c.portOpen then
    { c with
      unread := Function.update c.unread c.port []
      kept := Function.update c.kept c.port
        ((c.kept c.port).take ((c.kept c.port).length - (c.unread c.port).length)) }
  else c

def call (c : Serial) : Call → Serial
  | .write chunk =>
    let r := c.write chunk
    if r.2 then { r.1 with accepted := r.1.accepted ++ [chunk] } else r.1
  | .close => c.close
  | .reopen => c.reopen
  | .flush => c.flush

def calls (c : Serial) (inside : List Call) : Serial := inside.foldl call c

def callBackConnectionHandler (c : Serial) (cause : Nat) (state : ConnectionState)
    (ec : ErrorCode) (inside : List Call) : Serial :=
  calls { c with
    connectionState := state
    reports := c.reports ++ [⟨c.port, cause, .connection state ec⟩] } inside

def callDataHandler (c : Serial) (cause size : Nat) (inside : List Call) : Serial :=
  calls { c with
    reports := c.reports ++ [⟨c.port, cause, .data (c.receivedData.view size)⟩] } inside

def doRead (c : Serial) : Serial := { c with ops := c.ops ++ [.read c.port] }

/-- A `set_option` that fails throws, and nothing on the runner's stack catches it. -/
def handleOpen (c : Serial) (ec : ErrorCode) (optionEc : PortOption → ErrorCode)
    (flushEc : ErrorCode) (inside : List Call) : Serial :=
  if ec ≠ 0 then c.callBackConnectionHandler c.port .disconnected ec inside
  else if c.params.options.any fun o => optionEc o != 0 then
    { c with runner := .terminated }
  else if flushEc ≠ 0 then
    c.callBackConnectionHandler c.port .disconnected flushEc inside
  else (c.flush.callBackConnectionHandler c.port .connected flushEc inside).doRead

def handleRead (c : Serial) (k : Nat) (ec : ErrorCode) (size : Nat)
    (inside : List Call) : Serial :=
  if ec ≠ 0 then c.callBackConnectionHandler k .disconnected ec inside
  else (c.callDataHandler k size inside).doRead

def doWrite (c : Serial) : Serial :=
  match c.sendingMessages with
  | [] => c
  | message :: _ => { c with ops := c.ops ++ [.write c.port message] }

/-- The lambda that `write` posts. -/
def writeTask (c : Serial) (chunk : Chunk) : Serial :=
  let writeInProgress := !c.sendingMessages.isEmpty
  let c := { c with sendingMessages := c.sendingMessages ++ [chunk] }
  if !writeInProgress then c.doWrite else c

def handleWrite (c : Serial) (k : Nat) (chunk : Chunk) (ec : ErrorCode)
    (inside : List Call) : Serial :=
  if ec ≠ 0 then c.callBackConnectionHandler k .disconnected ec inside
  else
    let c := { c with
      sendingMessages := c.sendingMessages.tail
      sent := c.sent ++ [chunk] }
    if !c.sendingMessages.isEmpty then c.doWrite else c

/-- `port_->open` reports its error code, `port_->close` throws it. Both act on the
port that exists when the task runs. -/
def runTask (c : Serial) (device : Device) (inside : List Call) : Task → Serial
  | .write chunk => c.writeTask chunk
  | .closePort =>
    if device.ec ≠ 0 then { c with runner := .terminated } else { c with portOpen := false }
  | .openPort =>
    handleOpen { c with portOpen := c.portOpen || device.ec == 0 }
      device.ec device.optionEc device.flushEc inside

def handle (c : Serial) (ec : ErrorCode) (inside : List Call) : Op → Serial
  | .read k => c.handleRead k ec 0 inside
  | .received k size => c.handleRead k ec size inside
  | .write k chunk => c.handleWrite k chunk ec inside

/-- `run()` returns as soon as nothing is posted and nothing is outstanding. -/
def settle (c : Serial) : Serial :=
  if c.runner = .running ∧ c.tasks = [] ∧ c.ops = [] then { c with runner := .returned }
  else c

def begin (c : Serial) (op : Op) : Serial := { c with ops := c.ops.erase op }

def arrive (c : Serial) (k : Nat) (bytes : Chunk) : Serial :=
  { c with
    unread := Function.update c.unread k (c.unread k ++ bytes)
    kept := Function.update c.kept k (c.kept k ++ bytes) }

def perform (c : Serial) (k : Nat) (packet : Packet) : Serial :=
  { c with
    receivedData := c.receivedData.fill packet
    unread := Function.update c.unread k ((c.unread k).drop packet.bytes.length)
    ops := c.ops.erase (.read k) ++ [.received k packet.bytes.length] }

inductive Event where
  | call (call : Call)
  | task (device : Device) (inside : List Call)
  | arrive (port : Nat) (bytes : Chunk)
  | perform (port : Nat) (packet : Packet)
  | complete (op : Op) (ec : ErrorCode) (inside : List Call)

def act (c : Serial) : Event → Option Serial
  | .call x => if c.runner ≠ .terminated then some (c.call x) else none
  | .task device inside =>
    match c.tasks with
    | [] => none
    | t :: rest =>
      if c.runner = .running then some (runTask { c with tasks := rest } device inside t)
      else none
  | .arrive k bytes => some (c.arrive k bytes)
  | .perform k packet =>
    if c.runner = .running ∧ .read k ∈ c.ops ∧ k = c.port ∧
        packet.bytes <+: c.unread k then
      some (c.perform k packet)
    else none
  | .complete op ec inside =>
    if c.runner = .running ∧ op ∈ c.ops ∧ op.Yields ec then
      some ((c.begin op).handle ec inside op)
    else none

def step (c : Serial) (e : Event) : Option Serial := (c.act e).map settle

def start (params : SerialParams) : Serial :=
  doOpen {
    params := params, connectionState := .disconnected, port := 0, portOpen := false
    receivedData := .zero, sendingMessages := [], tasks := [], ops := []
    runner := .running, unread := fun _ => [], kept := fun _ => [], accepted := []
    sent := [], reports := [] }

def machine (params : SerialParams) : Machine Serial Event := ⟨start params, step⟩

@[simp] theorem settle_isOpened (c : Serial) : c.settle.isOpened = c.isOpened := by
  unfold settle
  split <;> rfl

theorem flush_eq (c : Serial) : ∃ u k, c.flush = { c with unread := u, kept := k } := by
  unfold flush
  split
  · exact ⟨_, _, rfl⟩
  · exact ⟨c.unread, c.kept, rfl⟩

@[simp] theorem flush_isOpened (c : Serial) : c.flush.isOpened = c.isOpened := by
  obtain ⟨u, k, h⟩ := c.flush_eq
  rw [h]
  rfl

@[simp] theorem flush_port (c : Serial) : c.flush.port = c.port := by
  obtain ⟨u, k, h⟩ := c.flush_eq
  rw [h]

@[simp] theorem flush_portOpen (c : Serial) : c.flush.portOpen = c.portOpen := by
  obtain ⟨u, k, h⟩ := c.flush_eq
  rw [h]

@[simp] theorem flush_runner (c : Serial) : c.flush.runner = c.runner := by
  obtain ⟨u, k, h⟩ := c.flush_eq
  rw [h]

@[simp] theorem doRead_isOpened (c : Serial) : c.doRead.isOpened = c.isOpened := rfl

@[simp] theorem doWrite_isOpened (c : Serial) : c.doWrite.isOpened = c.isOpened := by
  cases h : c.sendingMessages <;> simp [doWrite, isOpened, h]

@[simp] theorem writeTask_isOpened (c : Serial) (chunk : Chunk) :
    (c.writeTask chunk).isOpened = c.isOpened := by
  simp only [writeTask]
  split
  · exact doWrite_isOpened _
  · rfl

def Call.leavesOpened : Call → Bool
  | .write _ | .flush => true
  | .close | .reopen => false

theorem call_isOpened (c : Serial) (x : Call) :
    (c.call x).isOpened = (c.isOpened && x.leavesOpened) := by
  cases x with
  | write chunk =>
    cases hc : c.isOpened <;> simp_all [call, write, isOpened, Call.leavesOpened]
  | close => simp [call, close, isOpened, Call.leavesOpened]
  | reopen => simp [call, reopen, close, doOpen, isOpened, Call.leavesOpened]
  | flush => simp [call, Call.leavesOpened]

theorem calls_isOpened (c : Serial) (inside : List Call) :
    (c.calls inside).isOpened = (c.isOpened && inside.all Call.leavesOpened) := by
  induction inside generalizing c with
  | nil => simp [calls]
  | cons x inside ih =>
    have h := ih (c.call x)
    rw [call_isOpened] at h
    simpa [calls, Bool.and_assoc] using h

theorem callBackConnectionHandler_isOpened (c : Serial) (cause : Nat)
    (state : ConnectionState) (ec : ErrorCode) (inside : List Call) :
    (c.callBackConnectionHandler cause state ec inside).isOpened =
      (state == .connected && inside.all Call.leavesOpened) :=
  calls_isOpened _ inside

theorem handleWrite_isOpened (c : Serial) (k : Nat) (chunk : Chunk) (inside : List Call) :
    (c.handleWrite k chunk 0 inside).isOpened = c.isOpened := by
  simp only [handleWrite, ne_eq, not_true_eq_false, if_false]
  split
  · exact doWrite_isOpened _
  · rfl

def Task.chunk? : Task → Option Chunk
  | .write chunk => some chunk
  | .closePort | .openPort => none

theorem call_spec (c : Serial) (x : Call) :
    ∃ st n p ts u k, c.call x = { c with
        connectionState := st
        port := c.port + n
        portOpen := p
        tasks := c.tasks ++ ts
        unread := u
        kept := k
        accepted := c.accepted ++ ts.filterMap Task.chunk? } ∧
      (st = c.connectionState ∨ st = .disconnected) := by
  cases x with
  | write chunk =>
    cases hc : c.isOpened with
    | true =>
      exact ⟨c.connectionState, 0, c.portOpen, [.write chunk], c.unread, c.kept,
        by simp [call, write, hc, Task.chunk?], by simp⟩
    | false =>
      exact ⟨c.connectionState, 0, c.portOpen, [], c.unread, c.kept,
        by simp [call, write, hc], by simp⟩
  | close =>
    exact ⟨.disconnected, 0, c.portOpen, [.closePort], c.unread, c.kept,
      by simp [call, close, Task.chunk?], by simp⟩
  | reopen =>
    exact ⟨.disconnected, 1, false, [.closePort, .openPort], c.unread, c.kept,
      by simp [call, reopen, close, doOpen, Task.chunk?], by simp⟩
  | flush =>
    obtain ⟨u, k, h⟩ := c.flush_eq
    exact ⟨c.connectionState, 0, c.portOpen, [], u, k, by simp [call, h], by simp⟩

theorem calls_spec (c : Serial) (inside : List Call) :
    ∃ st n p ts u k, c.calls inside = { c with
        connectionState := st
        port := c.port + n
        portOpen := p
        tasks := c.tasks ++ ts
        unread := u
        kept := k
        accepted := c.accepted ++ ts.filterMap Task.chunk? } ∧
      (st = c.connectionState ∨ st = .disconnected) := by
  induction inside generalizing c with
  | nil =>
    exact ⟨c.connectionState, 0, c.portOpen, [], c.unread, c.kept, by simp [calls], by simp⟩
  | cons x inside ih =>
    obtain ⟨st, n, p, ts, u, k, hx, hst⟩ := c.call_spec x
    obtain ⟨st', n', p', ts', u', k', hxs, hst'⟩ := ih (c.call x)
    have he : c.calls (x :: inside) = (c.call x).calls inside := rfl
    rw [hx] at hxs hst'
    refine ⟨st', n + n', p', ts ++ ts', u', k', ?_, ?_⟩
    · rw [he, hx, hxs]
      simp [Nat.add_assoc]
    · rcases hst' with rfl | rfl
      · exact hst
      · exact .inr rfl

theorem handle_error {ec : ErrorCode} (hec : ec ≠ 0) (c : Serial) (inside : List Call)
    (op : Op) :
    c.handle ec inside op =
      c.callBackConnectionHandler op.port .disconnected ec inside := by
  cases op <;> simp [handle, handleRead, handleWrite, Op.port, hec]

def Device.Opens (device : Device) (c : Serial) : Prop :=
  device.ec = 0 ∧ (∀ o ∈ c.params.options, device.optionEc o = 0) ∧ device.flushEc = 0

inductive Move (c : Serial) : Event → Serial → Prop where
  | call (x : Call) (hr : c.runner ≠ .terminated) : Move c (.call x) (c.call x)
  | queued (chunk : Chunk) (rest : List Task) (device : Device) (inside : List Call)
      (hr : c.runner = .running) (ht : c.tasks = .write chunk :: rest) :
      Move c (.task device inside) (writeTask { c with tasks := rest } chunk)
  | closed (rest : List Task) (device : Device) (inside : List Call)
      (hr : c.runner = .running) (ht : c.tasks = .closePort :: rest) (hec : device.ec = 0) :
      Move c (.task device inside) { c with tasks := rest, portOpen := false }
  | thrown (t : Task) (rest : List Task) (p : Bool) (device : Device) (inside : List Call)
      (hr : c.runner = .running) (ht : c.tasks = t :: rest) (hn : t.chunk? = none)
      (ho : ¬ device.Opens c) :
      Move c (.task device inside)
        { c with tasks := rest, portOpen := p, runner := .terminated }
  | opened (rest : List Task) (device : Device) (inside : List Call)
      (hr : c.runner = .running) (ht : c.tasks = .openPort :: rest)
      (ho : device.Opens c) :
      Move c (.task device inside)
        ((flush { c with tasks := rest, portOpen := true }).callBackConnectionHandler
          c.port .connected 0 inside).doRead
  | refused (rest : List Task) (p : Bool) (ec : ErrorCode) (device : Device)
      (inside : List Call)
      (hr : c.runner = .running) (ht : c.tasks = .openPort :: rest) (hec : ec ≠ 0)
      (ho : ¬ device.Opens c) :
      Move c (.task device inside)
        (callBackConnectionHandler { c with tasks := rest, portOpen := p }
          c.port .disconnected ec inside)
  | arrive (k : Nat) (bytes : Chunk) : Move c (.arrive k bytes) (c.arrive k bytes)
  | perform (k : Nat) (packet : Packet) (hr : c.runner = .running)
      (hop : .read k ∈ c.ops) (hk : k = c.port) (hp : packet.bytes <+: c.unread k) :
      Move c (.perform k packet) (c.perform k packet)
  | failed (op : Op) (ec : ErrorCode) (inside : List Call)
      (hr : c.runner = .running) (hop : op ∈ c.ops) (hec : ec ≠ 0) (hy : op.Yields ec) :
      Move c (.complete op ec inside)
        ((c.begin op).callBackConnectionHandler op.port .disconnected ec inside)
  | data (k size : Nat) (inside : List Call)
      (hr : c.runner = .running) (hop : .received k size ∈ c.ops) :
      Move c (.complete (.received k size) 0 inside)
        ((c.begin (.received k size)).callDataHandler k size inside).doRead
  | written (k : Nat) (chunk : Chunk) (inside : List Call)
      (hr : c.runner = .running) (hop : .write k chunk ∈ c.ops) :
      Move c (.complete (.write k chunk) 0 inside)
        ((c.begin (.write k chunk)).handleWrite k chunk 0 inside)

theorem openPort_move {c : Serial} {rest : List Task} (device : Device)
    (inside : List Call) (hr : c.runner = .running) (ht : c.tasks = .openPort :: rest) :
    Move c (.task device inside)
      (runTask { c with tasks := rest } device inside .openPort) := by
  simp only [runTask, handleOpen]
  by_cases hec : device.ec = 0
  · by_cases hopt : (c.params.options.any fun o => device.optionEc o != 0) = true
    · simp only [hec, hopt, ne_eq, not_true_eq_false, if_false, if_true]
      exact .thrown .openPort rest _ device inside hr ht rfl fun ho => by
        obtain ⟨o, hmem, hne⟩ := List.any_eq_true.mp hopt
        simp [ho.2.1 o hmem] at hne
    · by_cases hfl : device.flushEc = 0
      · have ho : device.Opens c := ⟨hec, by simpa using hopt, hfl⟩
        simp only [hec, hopt, hfl, ne_eq, not_true_eq_false, if_false, beq_self_eq_true,
          Bool.or_true]
        exact .opened rest device inside hr ht ho
      · simp only [hec, hopt, hfl, ne_eq, not_true_eq_false, not_false_eq_true, if_false,
          if_true]
        exact .refused rest _ _ device inside hr ht hfl fun ho => hfl ho.2.2
  · simp only [hec, ne_eq, not_false_eq_true, if_true]
    exact .refused rest _ _ device inside hr ht hec fun ho => hec ho.1

theorem act_move {c d : Serial} {e : Event} (h : c.act e = some d) : c.Move e d := by
  cases e with
  | call x =>
    simp only [act, Option.ite_none_right_eq_some, Option.some.injEq] at h
    obtain ⟨hr, rfl⟩ := h
    exact .call x hr
  | task device inside =>
    simp only [act] at h
    split at h
    · contradiction
    · rename_i t rest ht
      simp only [Option.ite_none_right_eq_some, Option.some.injEq] at h
      obtain ⟨hr, rfl⟩ := h
      cases t with
      | write chunk => exact .queued chunk rest device inside hr ht
      | closePort =>
        simp only [runTask]
        split
        · rename_i hec
          exact .thrown .closePort rest c.portOpen device inside hr ht rfl fun ho => hec ho.1
        · rename_i hec
          exact .closed rest device inside hr ht (not_not.mp hec)
      | openPort => exact openPort_move device inside hr ht
  | arrive k bytes =>
    simp only [act, Option.some.injEq] at h
    obtain rfl := h
    exact .arrive k bytes
  | perform k packet =>
    simp only [act, Option.ite_none_right_eq_some, Option.some.injEq] at h
    obtain ⟨⟨hr, hop, hk, hp⟩, rfl⟩ := h
    exact .perform k packet hr hop hk hp
  | complete op ec inside =>
    simp only [act, Option.ite_none_right_eq_some, Option.some.injEq] at h
    obtain ⟨⟨hr, hop, hy⟩, rfl⟩ := h
    by_cases hec : ec = 0
    · subst hec
      cases op with
      | read k => exact absurd rfl hy
      | received k size => exact .data k size inside hr hop
      | write k chunk => exact .written k chunk inside hr hop
    · rw [handle_error hec]
      exact .failed op ec inside hr hop hec hy

theorem step_move {c d : Serial} {e : Event} (h : c.step e = some d) :
    ∃ d', c.Move e d' ∧ d = d'.settle := by
  obtain ⟨d', hact, rfl⟩ := Option.map_eq_some_iff.mp h
  exact ⟨d', act_move hact, rfl⟩

def within (c : Serial) : Event → Option Serial
  | .task device inside =>
    match c.tasks with
    | .openPort :: rest =>
      let opened := { c with tasks := rest, portOpen := c.portOpen || device.ec == 0 }
      if device.ec ≠ 0 then
        some (opened.callBackConnectionHandler c.port .disconnected device.ec inside)
      else if c.params.options.any fun o => device.optionEc o != 0 then none
      else if device.flushEc ≠ 0 then
        some (opened.callBackConnectionHandler c.port .disconnected device.flushEc inside)
      else
        some (opened.flush.callBackConnectionHandler c.port .connected device.flushEc inside)
    | _ => none
  | .complete op ec inside =>
    if ec ≠ 0 then
      some ((c.begin op).callBackConnectionHandler op.port .disconnected ec inside)
    else match op with
      | .received k size => some ((c.begin op).callDataHandler k size inside)
      | .read _ | .write _ _ => none
  | .call _ | .arrive _ _ | .perform _ _ => none

inductive Asked (params : SerialParams) : Serial → Prop where
  | between (c : Serial) (h : (machine params).Reachable c) : Asked params c
  | inside (c t d : Serial) (e : Event) (h : (machine params).Reachable c)
      (ht : c.step e = some t) (hd : c.within e = some d) : Asked params d

end Serial

end Sephi.Net
