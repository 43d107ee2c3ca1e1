import Sephi.Outbox
import Sephi.TcpClient

set_option autoImplicit false

namespace Sephi.Net.Tcp
open Transition Outbox

def Client.Op.chunk? : Client.Op → Option Chunk
  | .write _ chunk => some chunk
  | .connect _ | .read _ | .received _ _ => none

def Client.pump (c : Client) : Pump Chunk where
  waiting := c.tasks.filterMap Client.Task.chunk?
  queue := c.sendingMessages
  outstanding := c.ops.filterMap Client.Op.chunk?
  completed := c.sent
  accepted := c.accepted

def Client.Event.WriteFails : Client.Event → Prop
  | .complete (.write _ _) ec _ => ec ≠ 0
  | _ => False

@[simp] theorem Client.settle_pump (c : Client) : c.settle.pump = c.pump := by
  unfold Client.settle
  split <;> rfl

@[simp] theorem Client.filterMap_connects (k n : Nat) :
    (Client.connects k n).filterMap Client.Op.chunk? = [] := by
  rw [List.filterMap_eq_nil_iff]
  intro op hop
  obtain ⟨i, _, rfl⟩ := Client.mem_connects.mp hop
  rfl

theorem Client.calls_pump (c : Client) (inside : List Client.Call) :
    Pump.Advances c.pump (c.calls inside).pump := by
  obtain ⟨st, n, ts, hc, _, _⟩ := c.calls_spec inside
  have h := Pump.accept_all c.pump (ts.filterMap Client.Task.chunk?)
  simpa [hc, Client.pump] using h

@[simp] theorem Client.doRead_pump (c : Client) : c.doRead.pump = c.pump := by
  simp [Client.doRead, Client.pump, Client.Op.chunk?]

theorem Client.writeTask_pump (c : Client) (chunk : Chunk) (rest : List Client.Task) :
    (Client.writeTask { c with tasks := rest } chunk).pump =
      c.pump.enter chunk (rest.filterMap Client.Task.chunk?) := by
  cases h : c.sendingMessages <;>
    simp [Client.writeTask, Client.doWrite, Client.pump, Pump.enter, Pump.start,
      Client.Op.chunk?, h]

theorem Client.shutdown_pump {c : Client} {k : Nat} {rest : List Client.Task}
    (ht : c.tasks = .shutdown k :: rest) {ec : ErrorCode} :
    (Client.runTask { c with tasks := rest } ec (.shutdown k)).pump = c.pump := by
  have hw : c.tasks.filterMap Client.Task.chunk? = rest.filterMap Client.Task.chunk? := by
    rw [ht]
    rfl
  simp only [Client.runTask]
  split <;> simp [Client.pump, hw]

theorem Client.begin_pump {c : Client} {op : Client.Op} (hop : op ∈ c.ops)
    (hn : op.chunk? = none) (ec : ErrorCode) : (c.begin op ec).pump = c.pump := by
  simp [Client.begin, Client.pump, filterMap_erase_none hop hn]

theorem Client.begin_write_pump {c : Client} {k : Nat} {chunk : Chunk}
    (hop : .write k chunk ∈ c.ops) (ec : ErrorCode) :
    ∃ l r, c.pump.outstanding = l ++ chunk :: r ∧
      (c.begin (.write k chunk) ec).pump = { c.pump with outstanding := l ++ r } := by
  obtain ⟨l, r, ho, he⟩ := filterMap_erase_some (f := Client.Op.chunk?) hop rfl
  exact ⟨l, r, ho, by simp [Client.begin, Client.pump, he]⟩

theorem Client.callBackConnectionHandler_pump (c : Client) (cause : Nat)
    (state : ConnectionState) (ec : ErrorCode) (inside : List Client.Call) :
    Pump.Advances c.pump (c.callBackConnectionHandler cause state ec inside).pump :=
  Client.calls_pump { c with
    connectionState := state
    reports := c.reports ++ [⟨c.socket, cause, .connection state ec⟩] } inside

theorem Client.callPacketHandler_pump (c : Client) (cause size : Nat)
    (inside : List Client.Call) :
    Pump.Advances c.pump (c.callPacketHandler cause size inside).pump :=
  Client.calls_pump { c with
    reports := c.reports ++ [⟨c.socket, cause, .packet (c.receivedPacket.view size)⟩] }
    inside

theorem Client.handleWrite_finish (c : Client) (k : Nat) (chunk : Chunk)
    (inside : List Client.Call) {p : Pump Chunk} {l : List Chunk}
    (hc : c.pump = { p with outstanding := l }) :
    (c.handleWrite k chunk 0 inside).pump = p.finish chunk l := by
  simp only [Client.pump, Pump.mk.injEq] at hc
  obtain ⟨hw, hq, hout, hs, ha⟩ := hc
  cases ht : p.queue.tail with
  | nil =>
    simp [Client.handleWrite, Pump.finish, Pump.start, Client.pump, hw, hq, hout, hs, ha, ht]
  | cons a rest =>
    simp [Client.handleWrite, Client.doWrite, Pump.finish, Pump.start, Client.pump, hw, hq,
      hout, hs, ha, ht, Client.Op.chunk?]

theorem Client.handleWrite_pump (c : Client) (k : Nat) (chunk : Chunk)
    (inside : List Client.Call) {p : Pump Chunk} {l r : List Chunk}
    (ho : p.outstanding = l ++ chunk :: r) (hc : c.pump = { p with outstanding := l ++ r }) :
    Pump.Advance p (c.handleWrite k chunk 0 inside).pump := by
  rw [Client.handleWrite_finish c k chunk inside hc]
  exact .finish p chunk l r ho

theorem Client.perform_pump {c : Client} {k : Nat} (packet : Packet)
    (hop : .read k ∈ c.ops) : (c.perform k packet).pump = c.pump := by
  have he := filterMap_erase_none (f := Client.Op.chunk?) hop rfl
  simp [Client.perform, Client.pump, he, Client.Op.chunk?]

theorem Client.Move.pump_advances {c d : Client} {e : Client.Event} (h : c.Move e d)
    (he : ¬ e.WriteFails) : Pump.Advances c.pump d.pump := by
  cases h with
  | call x => exact Client.calls_pump c [x]
  | queued chunk rest ec _ ht =>
    rw [Client.writeTask_pump]
    exact .single (.enter c.pump chunk _ (by simp [Client.pump, ht, Client.Task.chunk?]))
  | shutdown k rest ec _ ht =>
    rw [Client.shutdown_pump ht]
  | arrive k bytes => exact .refl
  | perform k packet _ hop _ _ => rw [Client.perform_pump packet hop]
  | failed op ec inside _ hop hec =>
    cases hn : op.chunk? with
    | none =>
      rw [← Client.begin_pump hop hn ec]
      exact Client.callBackConnectionHandler_pump _ _ _ _ _
    | some chunk =>
      cases op with
      | write k chunk => exact absurd hec he
      | connect k | read k | received k size => simp [Client.Op.chunk?] at hn
  | opened k inside _ hop =>
    rw [Client.doRead_pump, ← Client.begin_pump hop rfl 0]
    exact Client.callBackConnectionHandler_pump _ _ _ _ _
  | packet k size inside _ hop =>
    rw [Client.doRead_pump, ← Client.begin_pump hop rfl 0]
    exact Client.callPacketHandler_pump _ _ _ _
  | written k chunk inside _ hop =>
    obtain ⟨l, r, ho, hb⟩ := Client.begin_write_pump hop 0
    exact .single (Client.handleWrite_pump _ k chunk inside ho hb)

theorem Client.Move.pump_fails {c d : Client} {e : Client.Event} (h : c.Move e d)
    (he : e.WriteFails) : ∃ p, Pump.Fails c.pump p ∧ Pump.Advances p d.pump := by
  cases h with
  | failed op ec inside _ hop hec =>
    cases op with
    | write k chunk =>
      obtain ⟨l, r, ho, hb⟩ := Client.begin_write_pump hop ec
      refine ⟨_, .fail c.pump chunk l r ho, ?_⟩
      rw [Pump.fail, ← hb]
      exact Client.callBackConnectionHandler_pump _ _ _ _ _
    | connect k | read k | received k size => exact absurd he id
  | written k chunk inside _ hop => exact absurd rfl he
  | call | queued | shutdown | arrive | perform | opened | packet => exact absurd he id

theorem Client.drives : Drives Client.machine Client.pump Client.Event.WriteFails where
  start := rfl
  advances := by
    intro s e t h he
    obtain ⟨d, hm, rfl⟩ := Client.step_move h
    rw [Client.settle_pump]
    exact hm.pump_advances he
  failed := by
    intro s e t h he
    obtain ⟨d, hm, rfl⟩ := Client.step_move h
    rw [Client.settle_pump]
    exact hm.pump_fails he

@[simp] theorem Client.calls_sendingMessages (c : Client) (inside : List Client.Call) :
    (c.calls inside).sendingMessages = c.sendingMessages := by
  obtain ⟨st, n, ts, hc, _, _⟩ := c.calls_spec inside
  simp [hc]

@[simp] theorem Client.calls_sent (c : Client) (inside : List Client.Call) :
    (c.calls inside).sent = c.sent := by
  obtain ⟨st, n, ts, hc, _, _⟩ := c.calls_spec inside
  simp [hc]

theorem Client.Move.accepts_or_sends {c d : Client} {e : Client.Event} (h : c.Move e d) :
    d.accepted = c.accepted ∨
      (d.sendingMessages = c.sendingMessages ∧ d.sent = c.sent) := by
  cases h with
  | call x =>
    exact .inr ⟨Client.calls_sendingMessages c [x], Client.calls_sent c [x]⟩
  | queued chunk rest ec =>
    refine .inl ?_
    rw [show Client.accepted _ = Pump.accepted (Client.pump _) from rfl, Client.writeTask_pump]
    unfold Pump.enter
    split <;> rfl
  | shutdown k rest ec =>
    refine .inl ?_
    simp only [Client.runTask]
    split <;> rfl
  | arrive k bytes => exact .inl rfl
  | perform k packet => exact .inl rfl
  | failed op ec inside =>
    exact .inr ⟨Client.calls_sendingMessages _ inside, Client.calls_sent _ inside⟩
  | opened k inside =>
    exact .inr ⟨Client.calls_sendingMessages _ inside, Client.calls_sent _ inside⟩
  | packet k size inside =>
    exact .inr ⟨Client.calls_sendingMessages _ inside, Client.calls_sent _ inside⟩
  | written k chunk inside =>
    refine .inl ?_
    rw [show Client.accepted _ = Pump.accepted (Client.pump _) from rfl,
      Client.handleWrite_finish (p := (c.begin (.write k chunk) 0).pump) _ k chunk inside rfl]
    rfl

theorem Client.within_pump {c d t : Client} {e : Client.Event} (hd : c.within e = some d)
    (ht : c.step e = some t) : t.pump = d.pump := by
  obtain ⟨u, hm, rfl⟩ := Client.step_move ht
  rw [Client.settle_pump]
  cases hm with
  | failed op ec inside _ _ hec =>
    simp only [Client.within, if_pos hec, Option.some.injEq] at hd
    rw [hd]
  | opened k inside | packet k size inside =>
    simp only [Client.within, ne_eq, not_true_eq_false, if_false, Option.some.injEq] at hd
    rw [Client.doRead_pump, hd]
  | call | queued | shutdown | arrive | perform | written => simp [Client.within] at hd

theorem Client.Asked.sound {c : Client} (h : c.Asked) : c.pump.Sound := by
  cases h with
  | between _ h =>
    obtain ⟨es, hes⟩ := h
    exact Client.drives.sound hes
  | inside b t _ e h ht hd =>
    obtain ⟨es, hes⟩ := Machine.Reachable.step h ht
    exact Client.within_pump hd ht ▸ Client.drives.sound hes

/-- A successful connect in whose report the application calls neither `close` nor
`reconnect`. -/
def Client.Opens (_ : Client) : Client.Event → Prop
  | .complete (.connect _) ec inside => ec = 0 ∧ inside.all Client.Call.isWrite
  | _ => False

theorem Client.Move.isConnected {c d : Client} {e : Client.Event} (h : c.Move e d)
    (hd : d.isConnected = true) : c.Opens e ∨ c.isConnected = true := by
  cases h with
  | call x =>
    rw [Client.call_isConnected] at hd
    simp_all
  | queued chunk rest ec =>
    rw [Client.writeTask_isConnected] at hd
    exact .inr hd
  | shutdown k rest ec =>
    simp only [Client.runTask] at hd
    split at hd <;> exact .inr hd
  | arrive k bytes => exact .inr hd
  | perform k packet => exact .inr hd
  | failed op ec inside =>
    simp [Client.callBackConnectionHandler_isConnected] at hd
  | opened k inside =>
    rw [Client.doRead_isConnected, Client.callBackConnectionHandler_isConnected] at hd
    exact .inl ⟨rfl, by simpa using hd⟩
  | packet k size inside =>
    rw [Client.doRead_isConnected, Client.callPacketHandler, Client.calls_isConnected] at hd
    simp only [Bool.and_eq_true] at hd
    exact .inr hd.1
  | written k chunk inside =>
    rw [Client.handleWrite_isConnected] at hd
    exact .inr hd

theorem Client.Move.connected_of_opens {c d : Client} {e : Client.Event} (h : c.Move e d)
    (he : c.Opens e) : d.isConnected = true := by
  cases h with
  | opened k inside =>
    rw [Client.doRead_isConnected, Client.callBackConnectionHandler_isConnected]
    simpa using he.2
  | failed op ec inside _ _ hec =>
    cases op with
    | connect k => exact absurd he.1 hec
    | read k | received k size | write k chunk => exact he.elim
  | call | queued | shutdown | arrive | perform | packet | written => exact he.elim

theorem Client.Move.not_connected_of_fails {c d : Client} {e : Client.Event}
    (h : c.Move e d) (he : e.WriteFails) : d.isConnected = false := by
  cases h with
  | failed op ec inside => simp [Client.callBackConnectionHandler_isConnected]
  | written k chunk inside => exact absurd rfl he
  | call | queued | shutdown | arrive | perform | opened | packet => exact he.elim

theorem Client.connectsPump : Connects Client.machine Client.Event.WriteFails Client.Opens
    (fun c => c.isConnected = true) where
  start := by simp [Client.machine, Client.start, Client.doConnect, Client.isConnected]
  opened := by
    intro s e t h he
    obtain ⟨d, hm, rfl⟩ := Client.step_move h
    simpa using hm.connected_of_opens he
  kept := by
    intro s e t h ht
    obtain ⟨d, hm, rfl⟩ := Client.step_move h
    exact hm.isConnected (by simpa using ht)
  dropped := by
    intro s e t h he
    obtain ⟨d, hm, rfl⟩ := Client.step_move h
    simp [hm.not_connected_of_fails he]

/-- At most one `async_write` is outstanding, its chunk is the front of the queue, and no
accepted chunk is lost, repeated or reordered. -/
def Client.SendsInOrder (c : Client) : Prop :=
  (c.ops.filterMap Client.Op.chunk?).length ≤ 1 ∧
  (∀ k chunk, .write k chunk ∈ c.ops → c.sendingMessages.head? = some chunk) ∧
  c.sent ++ c.sendingMessages ++ c.tasks.filterMap Client.Task.chunk? = c.accepted

/-- While the client is connected, the front of its queue is being sent. -/
def Client.FrontIsSent (c : Client) : Prop :=
  c.isConnected = true → ∀ message, c.sendingMessages.head? = some message →
    ∃ k, .write k message ∈ c.ops

def Client.TellsAllSent (c : Client) : Prop := c.areAllMessagesSent = true → c.sent = c.accepted

/-- A posted write has a queued chunk ahead of it. -/
def Client.QueuedAhead (c : Client) : Prop :=
  ∀ chunk, .write chunk ∈ c.tasks → c.sendingMessages ≠ []

theorem Client.tellsAllSent_iff_trusted {c : Client} : c.TellsAllSent ↔ c.pump.Trusted := by
  rw [Client.TellsAllSent, Client.areAllMessagesSent, List.isEmpty_iff]
  rfl

theorem Client.Asked.tellsAllSent_iff {c : Client} (h : c.Asked) :
    c.TellsAllSent ↔ c.QueuedAhead := by
  rw [Client.tellsAllSent_iff_trusted, h.sound.trusted_iff]
  constructor
  · intro hp chunk hchunk
    have hmem : chunk ∈ c.pump.waiting := List.mem_filterMap.mpr ⟨_, hchunk, rfl⟩
    exact hp (List.ne_nil_of_mem hmem)
  · intro hq hw
    obtain ⟨chunk, hmem⟩ := List.exists_mem_of_ne_nil _ hw
    obtain ⟨task, htask, hchunk⟩ := List.mem_filterMap.mp hmem
    cases task with
    | write chunk' => exact hq chunk' htask
    | shutdown k => simp [Client.Task.chunk?] at hchunk

theorem Client.tellsAllSent_throughout_iff {es : List Client.Event} {c : Client}
    (h : Client.machine.run es = some c) :
    Client.machine.Throughout Client.TellsAllSent es ↔ c.accepted = [] := by
  rw [Machine.throughout_congr fun _ _ _ => Client.tellsAllSent_iff_trusted]
  refine Client.drives.trusted_iff (fun hstep => ?_) h
  obtain ⟨d, hm, rfl⟩ := Client.step_move hstep
  rw [Client.settle_pump]
  exact hm.accepts_or_sends

theorem Client.mem_outstanding {c : Client} {chunk : Chunk} :
    chunk ∈ c.pump.outstanding ↔ ∃ k, .write k chunk ∈ c.ops := by
  simp only [Client.pump, List.mem_filterMap]
  constructor
  · rintro ⟨op, hop, hc⟩
    cases op with
    | write k chunk' =>
      obtain rfl : chunk' = chunk := by simpa [Client.Op.chunk?] using hc
      exact ⟨k, hop⟩
    | connect k | read k | received k size => simp [Client.Op.chunk?] at hc
  · rintro ⟨k, hk⟩
    exact ⟨_, hk, rfl⟩

theorem Client.sendsInOrder_of_sound {c : Client} (h : c.pump.Sound) : c.SendsInOrder :=
  ⟨h.single, fun k _ hk => h.head (Client.mem_outstanding.mpr ⟨k, hk⟩), h.conserved⟩

theorem Client.frontIsSent_iff {c : Client} (h : c.pump.Sound) :
    c.FrontIsSent ↔ (c.isConnected = true → ¬ c.pump.Stalled) := by
  refine imp_congr_right fun _ => ?_
  simp only [← Client.mem_outstanding]
  exact h.front_outstanding_iff

end Sephi.Net.Tcp
