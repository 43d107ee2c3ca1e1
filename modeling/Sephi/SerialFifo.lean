import Sephi.Serial

/-!
A serial port whose `io_context_` runs posted tasks and the handlers of operations that
have ended in the order in which they were queued, on a device that never fails by itself:
operations fail only because the port is closed, replaced or not open.
-/

set_option autoImplicit false

namespace Sephi.Net.Serial
open Transition EventLoop

/-- What is queued in `io_context_`: a posted task, or the handler of an operation that
has ended. -/
inductive Ready where
  | task (t : Task)
  | done (op : Op) (ec : ErrorCode)
  deriving DecidableEq, Repr

def Ready.task? : Ready → Option Task
  | .task t => some t
  | .done _ _ => none

def Ready.op? : Ready → Option Op
  | .task _ => none
  | .done op _ => some op

/-- `asio::error::operation_aborted` -/
def aborted : ErrorCode := 125

/-- `asio::error::bad_descriptor` -/
def badDescriptor : ErrorCode := 9

/-- `asio::error::already_open` -/
def alreadyOpen : ErrorCode := 1

end Serial

open Serial in
structure FifoSerial where
  serial : Serial
  ready : List Ready
  -- the operations on the open port that have not ended
  pending : List Op
  -- the record of the run: whether the last of the calls of `close` and `reopen` was a
  -- `reopen`, and what was queued behind the last open task when it ran
  reopening : Bool
  behind : List Ready

namespace FifoSerial
open Transition EventLoop Serial

/-- A started operation is pending on an open port and ends at once on one that is not
open. Writing nothing succeeds at once. -/
def launch (c : FifoSerial) (op : Op) : FifoSerial :=
  if op = .write op.port [] then { c with ready := c.ready ++ [.done op 0] }
  else if c.serial.portOpen then { c with pending := c.pending ++ [op] }
  else { c with ready := c.ready ++ [.done op badDescriptor] }

def abort (c : FifoSerial) : FifoSerial :=
  { c with ready := c.ready ++ c.pending.map (.done · aborted), pending := [] }

def post (c : FifoSerial) (t : Task) : FifoSerial := { c with ready := c.ready ++ [.task t] }

def close (c : FifoSerial) : FifoSerial :=
  post { c with serial := c.serial.close, reopening := false } .closePort

def doOpen (c : FifoSerial) : FifoSerial :=
  let c := { c with serial := c.serial.doOpen }.abort
  c.post .openPort

def reopen (c : FifoSerial) : FifoSerial := { c.close.doOpen with reopening := true }

def write (c : FifoSerial) (chunk : Chunk) : FifoSerial :=
  if c.serial.isOpened then
    post { c with serial := c.serial.call (.write chunk) } (.write chunk)
  else c

def flush (c : FifoSerial) : FifoSerial := { c with serial := c.serial.flush }

def call (c : FifoSerial) : Call → FifoSerial
  | .write chunk => c.write chunk
  | .close => c.close
  | .reopen => c.reopen
  | .flush => c.flush

def calls (c : FifoSerial) (inside : List Call) : FifoSerial := inside.foldl call c

def callBackConnectionHandler (c : FifoSerial) (cause : Nat) (state : ConnectionState)
    (ec : ErrorCode) (inside : List Call) : FifoSerial :=
  calls { c with serial := c.serial.callBackConnectionHandler cause state ec [] } inside

def callDataHandler (c : FifoSerial) (cause size : Nat) (inside : List Call) : FifoSerial :=
  calls { c with serial := c.serial.callDataHandler cause size [] } inside

def doRead (c : FifoSerial) : FifoSerial :=
  launch { c with serial := c.serial.doRead } (.read c.serial.port)

def doWrite (c : FifoSerial) : FifoSerial :=
  match c.serial.sendingMessages with
  | [] => c
  | message :: _ => launch { c with serial := c.serial.doWrite } (.write c.serial.port message)

def writeTask (c : FifoSerial) (chunk : Chunk) : FifoSerial :=
  let writeInProgress := !c.serial.sendingMessages.isEmpty
  let c := { c with serial := { c.serial with
    sendingMessages := c.serial.sendingMessages ++ [chunk] } }
  if !writeInProgress then c.doWrite else c

/-- The part of `handle_write` after its check of the error code. -/
def written (c : FifoSerial) (chunk : Chunk) : FifoSerial :=
  let c := { c with serial := { c.serial with
    sendingMessages := c.serial.sendingMessages.tail, sent := c.serial.sent ++ [chunk] } }
  if !c.serial.sendingMessages.isEmpty then c.doWrite else c

/-- `open` fails on a port that is open. -/
def openPort (c : FifoSerial) (inside : List Call) : FifoSerial :=
  let c := { c with behind := c.ready }
  if c.serial.portOpen then
    c.callBackConnectionHandler c.serial.port .disconnected alreadyOpen inside
  else
    let c := flush { c with serial := { c.serial with portOpen := true } }
    (c.callBackConnectionHandler c.serial.port .connected 0 inside).doRead

def runTask (c : FifoSerial) (inside : List Call) : Task → FifoSerial
  | .write chunk => c.writeTask chunk
  | .closePort => abort { c with serial := { c.serial with portOpen := false } }
  | .openPort => c.openPort inside

def handle (c : FifoSerial) (ec : ErrorCode) (inside : List Call) (op : Op) : FifoSerial :=
  if ec ≠ 0 then c.callBackConnectionHandler op.port .disconnected ec inside
  else match op with
    | .read k => (c.callDataHandler k 0 inside).doRead
    | .received k size => (c.callDataHandler k size inside).doRead
    | .write _ chunk => c.written chunk

def settle (c : FifoSerial) : FifoSerial := { c with serial := c.serial.settle }

inductive Event where
  | call (call : Call)
  | next (inside : List Call)
  | arrive (port : Nat) (bytes : Chunk)
  | perform (port : Nat) (packet : Packet)
  | finish (port : Nat) (chunk : Chunk)

def act (c : FifoSerial) : Event → Option FifoSerial
  | .call x => if c.serial.runner ≠ .terminated then some (c.call x) else none
  | .next inside =>
    if c.serial.runner = .running then
      match c.ready with
      | [] => none
      | .task t :: rest =>
        let serial := { c.serial with tasks := c.serial.tasks.tail }
        some (runTask { c with serial := serial, ready := rest } inside t)
      | .done op ec :: rest =>
        some (handle { c with serial := c.serial.begin op, ready := rest } ec inside op)
    else none
  | .arrive k bytes => some { c with serial := c.serial.arrive k bytes }
  | .perform k packet =>
    if c.serial.runner = .running ∧ .read k ∈ c.pending ∧ k = c.serial.port ∧
        packet.bytes <+: c.serial.unread k then
      some { c with
        serial := c.serial.perform k packet
        ready := c.ready ++ [.done (.received k packet.bytes.length) 0]
        pending := c.pending.erase (.read k) }
    else none
  | .finish k chunk =>
    if c.serial.runner = .running ∧ .write k chunk ∈ c.pending then
      some { c with
        ready := c.ready ++ [.done (.write k chunk) 0]
        pending := c.pending.erase (.write k chunk) }
    else none

def step (c : FifoSerial) (e : Event) : Option FifoSerial := (c.act e).map settle

def start (params : SerialParams) : FifoSerial where
  serial := Serial.start params
  ready := [.task .openPort]
  pending := []
  reopening := false
  behind := []

def machine (params : SerialParams) : Machine FifoSerial Event := ⟨start params, step⟩

inductive Move (c : FifoSerial) : Event → FifoSerial → Prop where
  | call (x : Call) (hr : c.serial.runner ≠ .terminated) : Move c (.call x) (c.call x)
  | task (t : Task) (rest : List Ready) (inside : List Call)
      (hr : c.serial.runner = .running) (hq : c.ready = .task t :: rest) :
      Move c (.next inside) (runTask { c with
        serial := { c.serial with tasks := c.serial.tasks.tail }, ready := rest } inside t)
  | done (op : Op) (ec : ErrorCode) (rest : List Ready) (inside : List Call)
      (hr : c.serial.runner = .running) (hq : c.ready = .done op ec :: rest) :
      Move c (.next inside)
        (handle { c with serial := c.serial.begin op, ready := rest } ec inside op)
  | arrive (k : Nat) (bytes : Chunk) :
      Move c (.arrive k bytes) { c with serial := c.serial.arrive k bytes }
  | perform (k : Nat) (packet : Packet) (hr : c.serial.runner = .running)
      (hop : .read k ∈ c.pending) (hk : k = c.serial.port)
      (hp : packet.bytes <+: c.serial.unread k) :
      Move c (.perform k packet) { c with
        serial := c.serial.perform k packet
        ready := c.ready ++ [.done (.received k packet.bytes.length) 0]
        pending := c.pending.erase (.read k) }
  | finish (k : Nat) (chunk : Chunk) (hr : c.serial.runner = .running)
      (hop : .write k chunk ∈ c.pending) :
      Move c (.finish k chunk) { c with
        ready := c.ready ++ [.done (.write k chunk) 0]
        pending := c.pending.erase (.write k chunk) }

theorem act_move {c d : FifoSerial} {e : Event} (h : c.act e = some d) : c.Move e d := by
  cases e with
  | call x =>
    simp only [act, Option.ite_none_right_eq_some, Option.some.injEq] at h
    obtain ⟨hr, rfl⟩ := h
    exact .call x hr
  | next inside =>
    simp only [act, Option.ite_none_right_eq_some] at h
    obtain ⟨hr, h⟩ := h
    cases hq : c.ready with
    | nil => simp [hq] at h
    | cons item rest =>
      cases item with
      | task t =>
        simp only [hq, Option.some.injEq] at h
        subst h
        exact .task t rest inside hr hq
      | done op ec =>
        simp only [hq, Option.some.injEq] at h
        subst h
        exact .done op ec rest inside hr hq
  | arrive k bytes =>
    simp only [act, Option.some.injEq] at h
    subst h
    exact .arrive k bytes
  | perform k packet =>
    simp only [act, Option.ite_none_right_eq_some, Option.some.injEq] at h
    obtain ⟨⟨hr, hop, hk, hp⟩, rfl⟩ := h
    exact .perform k packet hr hop hk hp
  | finish k chunk =>
    simp only [act, Option.ite_none_right_eq_some, Option.some.injEq] at h
    obtain ⟨⟨hr, hop⟩, rfl⟩ := h
    exact .finish k chunk hr hop

theorem step_move {c d : FifoSerial} {e : Event} (h : c.step e = some d) :
    ∃ d', c.Move e d' ∧ d = d'.settle := by
  obtain ⟨d', hact, rfl⟩ := Option.map_eq_some_iff.mp h
  exact ⟨d', act_move hact, rfl⟩

@[simp] theorem launch_serial (c : FifoSerial) (op : Op) : (c.launch op).serial = c.serial := by
  unfold launch
  split
  · rfl
  · split <;> rfl

theorem call_serial (c : FifoSerial) (x : Call) : (c.call x).serial = c.serial.call x := by
  cases x with
  | write chunk =>
    cases hc : c.serial.isOpened <;> simp [call, write, post, Serial.call, Serial.write, hc]
  | close | reopen | flush => rfl

theorem calls_serial (c : FifoSerial) (inside : List Call) :
    (c.calls inside).serial = c.serial.calls inside := by
  induction inside generalizing c with
  | nil => rfl
  | cons x inside ih =>
    have h := ih (c.call x)
    rwa [call_serial] at h

theorem callBackConnectionHandler_serial (c : FifoSerial) (cause : Nat)
    (state : ConnectionState) (ec : ErrorCode) (inside : List Call) :
    (c.callBackConnectionHandler cause state ec inside).serial =
      c.serial.callBackConnectionHandler cause state ec inside :=
  calls_serial _ inside

theorem callDataHandler_serial (c : FifoSerial) (cause size : Nat) (inside : List Call) :
    (c.callDataHandler cause size inside).serial = c.serial.callDataHandler cause size inside :=
  calls_serial _ inside

theorem doRead_serial (c : FifoSerial) : c.doRead.serial = c.serial.doRead :=
  launch_serial _ _

theorem doWrite_serial (c : FifoSerial) : c.doWrite.serial = c.serial.doWrite := by
  unfold doWrite
  split
  · rename_i h
    simp [Serial.doWrite, h]
  · rw [launch_serial]

theorem writeTask_serial (c : FifoSerial) (chunk : Chunk) :
    (c.writeTask chunk).serial = c.serial.writeTask chunk := by
  simp only [writeTask, Serial.writeTask]
  split
  · rw [doWrite_serial]
  · rfl

theorem written_serial (c : FifoSerial) (k : Nat) (chunk : Chunk) (inside : List Call) :
    (c.written chunk).serial = c.serial.handleWrite k chunk 0 inside := by
  simp only [written, Serial.handleWrite, ne_eq, not_true_eq_false, if_false]
  split
  · rw [doWrite_serial]
  · rfl

theorem handle_serial (c : FifoSerial) (ec : ErrorCode) (inside : List Call) (op : Op) :
    (c.handle ec inside op).serial = c.serial.handle ec inside op := by
  by_cases hec : ec = 0
  · subst hec
    cases op with
    | read k | received k size =>
      simp [handle, Serial.handle, Serial.handleRead, doRead_serial, callDataHandler_serial]
    | write k chunk =>
      simp [handle, Serial.handle, written_serial c k chunk inside]
  · have hfails : c.handle ec inside op =
        c.callBackConnectionHandler op.port .disconnected ec inside := if_pos hec
    rw [Serial.handle_error hec, hfails, callBackConnectionHandler_serial]

def device (c : FifoSerial) : Task → Device
  | .openPort => .steady (if c.serial.portOpen then alreadyOpen else 0)
  | .write _ | .closePort => .steady 0

theorem runTask_serial (c : FifoSerial) (inside : List Call) (t : Task) :
    (c.runTask inside t).serial = c.serial.runTask (c.device t) inside t := by
  cases t with
  | write chunk => exact c.writeTask_serial chunk
  | closePort => rfl
  | openPort =>
    simp only [runTask, openPort, Serial.runTask, device, Device.steady]
    cases hp : c.serial.portOpen with
    | true =>
      have hsame : { c.serial with portOpen := true } = c.serial := by rw [← hp]
      rw [if_pos rfl, callBackConnectionHandler_serial, Bool.true_or, hsame]
      simp [Serial.handleOpen, alreadyOpen]
    | false =>
      rw [if_neg Bool.false_ne_true, doRead_serial, callBackConnectionHandler_serial]
      simp [Serial.handleOpen, flush]

structure Matches (c : FifoSerial) : Prop where
  tasks : c.serial.tasks = c.ready.filterMap Ready.task?
  ops : ∀ op, c.serial.ops.count op =
    c.pending.count op + (c.ready.filterMap Ready.op?).count op
  yields : ∀ op ec, .done op ec ∈ c.ready → op.Yields ec
  performed : ∀ k size, .received k size ∉ c.pending

theorem Matches.congr {c : FifoSerial} (h : c.Matches) {s : Serial}
    (ht : s.tasks = c.serial.tasks) (ho : s.ops = c.serial.ops) :
    Matches { c with serial := s } :=
  ⟨ht.trans h.tasks, fun op => ho ▸ h.ops op, h.yields, h.performed⟩

theorem Matches.launch {c : FifoSerial} (h : c.Matches) {op : Op}
    (hop : ∀ k size, op ≠ .received k size) :
    Matches (launch { c with serial := { c.serial with ops := c.serial.ops ++ [op] } } op) := by
  have hdone : ∀ ec, op.Yields ec → Matches { c with
      serial := { c.serial with ops := c.serial.ops ++ [op] }
      ready := c.ready ++ [.done op ec] } := by
    intro ec hy
    refine ⟨?_, fun op' => ?_, fun op' ec' hmem => ?_, h.performed⟩
    · simpa [List.filterMap_cons, Ready.task?] using h.tasks
    · have ho := h.ops op'
      simp only [List.filterMap_append, List.filterMap_cons, List.filterMap_nil, Ready.op?,
        List.count_append]
      omega
    · rcases List.mem_append.mp hmem with hmem | hmem
      · exact h.yields op' ec' hmem
      · obtain ⟨rfl, rfl⟩ : op' = op ∧ ec' = ec := by simpa using hmem
        exact hy
  unfold FifoSerial.launch
  split
  · rename_i hw
    exact hdone 0 (by rw [hw]; trivial)
  · split
    · refine ⟨h.tasks, fun op' => ?_, h.yields, fun k size hmem => ?_⟩
      · have ho := h.ops op'
        simp only [List.count_append]
        omega
      · rcases List.mem_append.mp hmem with hmem | hmem
        · exact h.performed k size hmem
        · exact hop k size (List.mem_singleton.mp hmem).symm
    · refine hdone badDescriptor ?_
      cases op with
      | read k => exact (by decide : badDescriptor ≠ 0)
      | received k size => exact absurd rfl (hop k size)
      | write k chunk => trivial

theorem Matches.post {c : FifoSerial} (h : c.Matches) {d : FifoSerial} {t : Task}
    (hready : d.ready = c.ready) (hpending : d.pending = c.pending)
    (ht : d.serial.tasks = c.serial.tasks ++ [t]) (ho : d.serial.ops = c.serial.ops) :
    (d.post t).Matches := by
  refine ⟨?_, fun op => ?_, fun op ec hmem => ?_, ?_⟩
  · simp [FifoSerial.post, hready, ht, h.tasks, Ready.task?]
  · simpa [FifoSerial.post, hready, hpending, ho, List.filterMap_cons, Ready.op?] using h.ops op
  · rcases List.mem_append.mp hmem with hmem | hmem
    · exact h.yields op ec (hready ▸ hmem)
    · exact nomatch List.mem_singleton.mp hmem
  · exact hpending ▸ h.performed

theorem Matches.abort {c : FifoSerial} (h : c.Matches) : c.abort.Matches := by
  have hops : (c.pending.map (Ready.done · aborted)).filterMap Ready.op? = c.pending := by
    simp [List.filterMap_map, Function.comp_def, Ready.op?]
  have htasks : (c.pending.map (Ready.done · aborted)).filterMap Ready.task? = [] := by
    simp [List.filterMap_map, Function.comp_def, Ready.task?]
  refine ⟨?_, fun op => ?_, fun op ec hmem => ?_, fun k size hmem => ?_⟩
  · simp [FifoSerial.abort, h.tasks, htasks]
  · have ho := h.ops op
    simp only [FifoSerial.abort, List.filterMap_append, hops, List.count_append,
      List.count_nil]
    omega
  · rcases List.mem_append.mp hmem with hmem | hmem
    · exact h.yields op ec hmem
    · obtain ⟨op', hop', heq⟩ := List.mem_map.mp hmem
      obtain ⟨rfl, rfl⟩ := Ready.done.inj heq
      cases op' with
      | read k => exact (by decide : aborted ≠ 0)
      | received k size => exact absurd hop' (h.performed k size)
      | write k chunk => trivial
  · exact nomatch hmem

theorem Matches.flush {c : FifoSerial} (h : c.Matches) : c.flush.Matches := by
  obtain ⟨u, k, hflush⟩ := c.serial.flush_eq
  exact h.congr (by rw [hflush]) (by rw [hflush])

theorem Matches.call {c : FifoSerial} (h : c.Matches) (x : Call) : (c.call x).Matches := by
  cases x with
  | write chunk =>
    cases hc : c.serial.isOpened with
    | true =>
      simp only [FifoSerial.call, FifoSerial.write, hc, if_true]
      exact h.post rfl rfl (by simp [Serial.call, Serial.write, hc])
        (by simp [Serial.call, Serial.write, hc])
    | false => simpa [FifoSerial.call, FifoSerial.write, hc] using h
  | close => exact h.post rfl rfl rfl rfl
  | reopen =>
    have hclosed : c.close.Matches := h.post rfl rfl rfl rfl
    have hopening := hclosed.abort.post (t := .openPort)
      (d := { c.close with serial := c.close.serial.doOpen }.abort) rfl rfl rfl rfl
    exact ⟨hopening.tasks, hopening.ops, hopening.yields, hopening.performed⟩
  | flush => exact h.flush

theorem Matches.calls {c : FifoSerial} (h : c.Matches) (inside : List Call) :
    (c.calls inside).Matches := by
  induction inside generalizing c with
  | nil => exact h
  | cons x inside ih => exact ih (h.call x)

theorem Matches.callBackConnectionHandler {c : FifoSerial} (h : c.Matches) (cause : Nat)
    (state : ConnectionState) (ec : ErrorCode) (inside : List Call) :
    (c.callBackConnectionHandler cause state ec inside).Matches :=
  Matches.calls
    (h.congr (s := c.serial.callBackConnectionHandler cause state ec []) rfl rfl) inside

theorem Matches.callDataHandler {c : FifoSerial} (h : c.Matches) (cause size : Nat)
    (inside : List Call) : (c.callDataHandler cause size inside).Matches :=
  Matches.calls (h.congr (s := c.serial.callDataHandler cause size []) rfl rfl) inside

theorem Matches.doRead {c : FifoSerial} (h : c.Matches) : c.doRead.Matches :=
  h.launch (by simp)

theorem Matches.doWrite {c : FifoSerial} (h : c.Matches) : c.doWrite.Matches := by
  unfold FifoSerial.doWrite
  split
  · exact h
  · rename_i message rest hq
    have hserial : c.serial.doWrite =
        { c.serial with ops := c.serial.ops ++ [.write c.serial.port message] } := by
      simp [Serial.doWrite, hq]
    rw [hserial]
    exact h.launch (by simp)

theorem Matches.writeTask {c : FifoSerial} (h : c.Matches) (chunk : Chunk) :
    (c.writeTask chunk).Matches := by
  simp only [FifoSerial.writeTask]
  split
  · exact Matches.doWrite (h.congr rfl rfl)
  · exact h.congr rfl rfl

theorem Matches.written {c : FifoSerial} (h : c.Matches) (chunk : Chunk) :
    (c.written chunk).Matches := by
  simp only [FifoSerial.written]
  split
  · exact Matches.doWrite (h.congr rfl rfl)
  · exact h.congr rfl rfl

theorem Matches.runTask {c : FifoSerial} (h : c.Matches) (inside : List Call) (t : Task) :
    (c.runTask inside t).Matches := by
  cases t with
  | write chunk => exact h.writeTask chunk
  | closePort => exact Matches.abort (h.congr rfl rfl)
  | openPort =>
    have hbehind : Matches { c with behind := c.ready } :=
      ⟨h.tasks, h.ops, h.yields, h.performed⟩
    simp only [FifoSerial.runTask, FifoSerial.openPort]
    split
    · exact hbehind.callBackConnectionHandler _ _ _ inside
    · have hopen := hbehind.congr (s := { c.serial with portOpen := true }) rfl rfl
      exact (hopen.flush.callBackConnectionHandler _ _ _ inside).doRead

theorem Matches.handle {c : FifoSerial} (h : c.Matches) (ec : ErrorCode) (inside : List Call)
    (op : Op) : (c.handle ec inside op).Matches := by
  unfold FifoSerial.handle
  split
  · exact h.callBackConnectionHandler _ _ _ inside
  · cases op with
    | read k => exact (h.callDataHandler k 0 inside).doRead
    | received k size => exact (h.callDataHandler k size inside).doRead
    | write k chunk => exact h.written chunk

theorem Matches.taken {c : FifoSerial} (h : c.Matches) {t : Task} {rest : List Ready}
    (hq : c.ready = .task t :: rest) :
    c.serial.tasks = t :: rest.filterMap Ready.task? ∧ Matches { c with
      serial := { c.serial with tasks := c.serial.tasks.tail }, ready := rest } := by
  have ht : c.serial.tasks = t :: rest.filterMap Ready.task? := by
    simp [h.tasks, hq, Ready.task?]
  refine ⟨ht, by simp [ht], fun op => ?_, fun op ec hmem => ?_, h.performed⟩
  · simpa [hq, List.filterMap_cons, Ready.op?] using h.ops op
  · exact h.yields op ec (hq ▸ List.mem_cons_of_mem _ hmem)

theorem Matches.ended {c : FifoSerial} (h : c.Matches) {op : Op} {ec : ErrorCode}
    {rest : List Ready} (hq : c.ready = .done op ec :: rest) :
    op ∈ c.serial.ops ∧ op.Yields ec ∧
      Matches { c with serial := c.serial.begin op, ready := rest } := by
  have hcount := h.ops op
  simp only [hq, List.filterMap_cons, Ready.op?, List.count_cons_self] at hcount
  refine ⟨List.count_pos_iff.mp (by omega), h.yields op ec (hq ▸ List.mem_cons_self), ?_,
    fun op' => ?_, fun op' ec' hmem => ?_, h.performed⟩
  · simpa [hq, List.filterMap_cons, Ready.task?, Serial.begin] using h.tasks
  · have ho := h.ops op'
    simp only [hq, List.filterMap_cons, Ready.op?, List.count_cons] at ho
    simp only [Serial.begin, List.count_erase]
    omega
  · exact h.yields op' ec' (hq ▸ List.mem_cons_of_mem _ hmem)

theorem Matches.finished {c : FifoSerial} (h : c.Matches) {s : Serial} {op op' : Op}
    {ec : ErrorCode} (ht : s.tasks = c.serial.tasks) (hop : op ∈ c.pending)
    (ho : ∀ o, s.ops.count o + [op].count o = c.serial.ops.count o + [op'].count o)
    (hy : op'.Yields ec) :
    Matches { c with
      serial := s
      ready := c.ready ++ [.done op' ec]
      pending := c.pending.erase op } := by
  refine ⟨?_, fun o => ?_, fun o ec' hmem => ?_, fun k size hmem => ?_⟩
  · simpa [ht, List.filterMap_cons, Ready.task?] using h.tasks
  · have hserial := ho o
    have hc := h.ops o
    have hpos : 0 < c.pending.count op := List.count_pos_iff.mpr hop
    simp only [List.filterMap_append, List.filterMap_cons, List.filterMap_nil, Ready.op?,
      List.count_append, List.count_erase]
    by_cases heq : op = o
    · subst heq
      simp only [List.count_cons_self, List.count_nil, BEq.rfl, if_true] at hserial ⊢
      omega
    · simp only [List.count_singleton, beq_iff_eq, heq, if_false] at hserial ⊢
      omega
  · rcases List.mem_append.mp hmem with hmem | hmem
    · exact h.yields o ec' hmem
    · obtain ⟨rfl, rfl⟩ := Ready.done.inj (List.mem_singleton.mp hmem)
      exact hy
  · exact h.performed k size (List.mem_of_mem_erase hmem)

theorem Matches.start (params : SerialParams) : (FifoSerial.start params).Matches :=
  ⟨rfl, fun _ => rfl, fun _ _ hmem => (nomatch List.mem_singleton.mp hmem),
    fun _ _ hmem => (nomatch hmem)⟩

theorem Matches.pending_mem {c : FifoSerial} (h : c.Matches) {op : Op}
    (hop : op ∈ c.pending) : op ∈ c.serial.ops := by
  have hpos : 0 < c.pending.count op := List.count_pos_iff.mpr hop
  have ho := h.ops op
  exact List.count_pos_iff.mp (by omega)

/-- The port of the queue takes the step that the queue takes, or none. -/
theorem Move.refines {c d : FifoSerial} {e : Event} (h : c.Matches) (hm : c.Move e d) :
    d.Matches ∧ ((d.serial = c.serial ∧ c.serial.ops ≠ []) ∨
      ∃ e', c.serial.act e' = some d.serial) := by
  cases hm with
  | call x hr =>
    refine ⟨h.call x, .inr ⟨.call x, ?_⟩⟩
    rw [call_serial]
    exact if_pos hr
  | task t rest inside hr hq =>
    obtain ⟨htasks, htaken⟩ := h.taken hq
    refine ⟨htaken.runTask inside t, .inr ⟨.task (c.device t) inside, ?_⟩⟩
    rw [runTask_serial]
    simp only [Serial.act, htasks, hr, if_true, List.tail_cons]
    cases t <;> rfl
  | done op ec rest inside hr hq =>
    obtain ⟨hop, hy, hended⟩ := h.ended hq
    refine ⟨hended.handle ec inside op, .inr ⟨.complete op ec inside, ?_⟩⟩
    rw [handle_serial]
    exact if_pos ⟨hr, hop, hy⟩
  | arrive k bytes => exact ⟨h.congr rfl rfl, .inr ⟨.arrive k bytes, rfl⟩⟩
  | perform k packet hr hop hk hp =>
    have hread := h.pending_mem hop
    refine ⟨h.finished rfl hop (fun o => ?_) rfl,
      .inr ⟨.perform k packet, if_pos ⟨hr, hread, hk, hp⟩⟩⟩
    have hpos : 0 < c.serial.ops.count (.read k) := List.count_pos_iff.mpr hread
    by_cases heq : .read k = o
    · subst heq
      simp only [Serial.perform, List.count_append, List.count_erase_self,
        List.count_cons_self, List.count_nil]
      omega
    · simp only [Serial.perform, List.count_append, List.count_singleton, beq_iff_eq, heq,
        List.count_erase_of_ne (Ne.symm heq), if_false]
      omega
  | finish k chunk hr hop =>
    have hops : c.serial.ops ≠ [] := List.ne_nil_of_mem (h.pending_mem hop)
    exact ⟨h.finished rfl hop (fun _ => rfl) trivial, .inl ⟨rfl, hops⟩⟩

theorem Matches.settle {c : FifoSerial} (h : c.Matches) : c.settle.Matches := by
  unfold FifoSerial.settle
  refine h.congr ?_ ?_
  · unfold Serial.settle
    split <;> rfl
  · unfold Serial.settle
    split <;> rfl

/-- Every run of the queue is a run of the serial port. -/
theorem reachable_serial {params : SerialParams} {c : FifoSerial}
    (h : (machine params).Reachable c) :
    c.Matches ∧ (Serial.machine params).Reachable c.serial := by
  refine Machine.Reachable.invariant
    (I := fun c => c.Matches ∧ (Serial.machine params).Reachable c.serial)
    ⟨Matches.start params, .start⟩ (fun c e d hc hstep => ?_) h
  obtain ⟨d', hm, rfl⟩ := step_move hstep
  obtain ⟨hmatches, hserial⟩ := hm.refines hc.1
  refine ⟨hmatches.settle, ?_⟩
  rcases hserial with ⟨hsame, hops⟩ | ⟨e', hact⟩
  · have hidle : d'.serial.settle = d'.serial := if_neg fun hn => hops (hsame ▸ hn.2.2)
    have hserial : d'.settle.serial = c.serial := hidle.trans hsame
    rw [hserial]
    exact hc.2
  · exact hc.2.step (e := e') (by simp [Serial.machine, Serial.step, hact, FifoSerial.settle])

end FifoSerial

end Sephi.Net
