import Sephi.ClientSending
import Sephi.SerialSending

set_option autoImplicit false

namespace Sephi.Net
open Transition Outbox
open Tcp (Client)

theorem sends_exactly_once_in_order :
    (∀ c, Client.machine.Reachable c → c.SendsInOrder) ∧
    (∀ params c, (Serial.machine params).Reachable c → c.SendsInOrder) := by
  constructor
  · rintro c ⟨es, hes⟩
    exact Client.sendsInOrder_of_sound (Client.drives.sound hes)
  · rintro params c ⟨es, hes⟩
    exact Serial.sendsInOrder_of_sound ((Serial.drives params).sound hes)

def twoWrites : List Client.Event :=
  [.complete (.connect 1) 0 [.write [1]], .task 0, .call (.write [2]), .task 0,
    .complete (.write 1 [1]) 0 []]

def twoWritesToPort : List Serial.Event :=
  [.task (.steady 0) [.write [1]], .task (.steady 0) [], .call (.write [2]),
    .task (.steady 0) [], .complete (.write 1 [1]) 0 []]

theorem sends_exactly_once_in_order_twoWrites :
    (∃ c, Client.machine.run twoWrites = some c ∧ c.SendsInOrder ∧ c.sent = [[1]] ∧
      c.sendingMessages = [[2]]) ∧
    (∃ c, (Serial.machine (Serial.serialParams8N1 .br9600)).run twoWritesToPort = some c ∧
      c.SendsInOrder ∧ c.sent = [[1]] ∧ c.sendingMessages = [[2]]) := by
  obtain ⟨c, hc, hclient⟩ : ∃ c, Client.machine.run twoWrites = some c ∧ c.sent = [[1]] ∧
      c.sendingMessages = [[2]] := ⟨_, rfl, rfl, rfl⟩
  obtain ⟨d, hd, hserial⟩ : ∃ d,
      (Serial.machine (Serial.serialParams8N1 .br9600)).run twoWritesToPort = some d ∧
        d.sent = [[1]] ∧ d.sendingMessages = [[2]] := ⟨_, rfl, rfl, rfl⟩
  exact ⟨⟨c, hc, sends_exactly_once_in_order.1 c ⟨twoWrites, hc⟩, hclient⟩,
    ⟨d, hd, sends_exactly_once_in_order.2 _ d ⟨twoWritesToPort, hd⟩, hserial⟩⟩

/-- A connected client, or an opened port, has the front of its queue outstanding at
every moment of a run exactly when the run has no successful connect, or open, after an
`async_write` has failed. -/
theorem front_is_sent_iff_no_open_after_failed_write (es : List Client.Event) (c : Client)
    (hc : Client.machine.run es = some c) (params : Serial.SerialParams) (fs : List Serial.Event)
    (d : Serial) (hd : (Serial.machine params).run fs = some d) :
    (Client.machine.Throughout Client.FrontIsSent es ↔
      ∀ pre e s, pre ++ [e] <+: es → Client.machine.run pre = some s → s.Opens e →
        ∀ f ∈ pre, ¬ f.WriteFails) ∧
    ((Serial.machine params).Throughout Serial.FrontIsSent fs ↔
      ∀ pre e s, pre ++ [e] <+: fs → (Serial.machine params).run pre = some s →
        s.Opens e → ∀ f ∈ pre, ¬ f.WriteFails) := by
  constructor
  · rw [Machine.throughout_congr fun pre s hs =>
      Client.frontIsSent_iff (Client.drives.sound hs)]
    exact Client.connectsPump.never_stalled_iff Client.drives hc
  · rw [Machine.throughout_congr fun pre s hs =>
      Serial.frontIsSent_iff ((Serial.drives params).sound hs)]
    exact (Serial.connectsPump params).never_stalled_iff (Serial.drives params) hd

/-- The application reconnects while a write is outstanding that has succeeded, and writes
on the new connection. -/
def reconnectWhileSending : List Client.Event :=
  [.complete (.connect 1) 0 [.write [1]], .task 0, .call .reconnect,
    .complete (.write 1 [1]) 0 [], .complete (.read 1) 125 [],
    .complete (.connect 2) 0 [.write [2]], .task 0]

def reopenWhileSending : List Serial.Event :=
  [.task (.steady 0) [.write [1]], .task (.steady 0) [], .call .reopen,
    .complete (.write 1 [1]) 0 [], .complete (.read 1) 125 [], .task (.steady 0) [],
    .task (.steady 0) [.write [2]], .task (.steady 0) []]

theorem front_is_sent_reconnectWhileSending :
    (∃ c, Client.machine.run reconnectWhileSending = some c ∧ c.isConnected = true ∧
      c.sendingMessages = [[2]] ∧ c.ops = [.read 2, .write 2 [2]] ∧
      Client.machine.Throughout Client.FrontIsSent reconnectWhileSending) ∧
    (∃ c, (Serial.machine (Serial.serialParams8N1 .br9600)).run reopenWhileSending = some c ∧
      c.isOpened = true ∧ c.sendingMessages = [[2]] ∧ c.ops = [.read 2, .write 2 [2]] ∧
      (Serial.machine (Serial.serialParams8N1 .br9600)).Throughout Serial.FrontIsSent
        reopenWhileSending) := by
  obtain ⟨hclient, hserial⟩ := front_is_sent_iff_no_open_after_failed_write
    reconnectWhileSending _ rfl (Serial.serialParams8N1 .br9600) reopenWhileSending _ rfl
  have hsent : ∀ f ∈ reconnectWhileSending, ¬ f.WriteFails := by
    simp [reconnectWhileSending, Client.Event.WriteFails]
  have hsent' : ∀ f ∈ reopenWhileSending, ¬ f.WriteFails := by
    simp [reopenWhileSending, Serial.Event.WriteFails]
  refine ⟨⟨_, rfl, rfl, rfl, rfl, hclient.mpr ?_⟩, ⟨_, rfl, rfl, rfl, rfl, hserial.mpr ?_⟩⟩
  · intro pre e s hpre _ _ f hf
    exact hsent f (hpre.subset (List.mem_append_left [e] hf))
  · intro pre e s hpre _ _ f hf
    exact hsent' f (hpre.subset (List.mem_append_left [e] hf))

/-- The write of the first chunk fails with `EPIPE`, the application reconnects, and the
read of the closed socket ends with `ECANCELED`. On the new connection the first chunk
stays in front, so a later one is never sent. -/
def failedWriteThenReconnect : List Client.Event :=
  [.complete (.connect 1) 0 [], .call (.write [7]), .task 0,
    .complete (.write 1 [7]) 32 [.reconnect], .complete (.read 1) 125 [],
    .complete (.connect 2) 0 [], .call (.write [8]), .task 0]

theorem front_not_sent_after_reconnect :
    ∃ c, Client.machine.run failedWriteThenReconnect = some c ∧
      c.sendingMessages = [[7], [8]] ∧ c.ops = [.read 2] ∧ c.tasks = [] ∧
      ¬ c.FrontIsSent := by
  obtain ⟨c, hrun, hq, hops, ht, hc⟩ : ∃ c,
      Client.machine.run failedWriteThenReconnect = some c ∧
        c.sendingMessages = [[7], [8]] ∧ c.ops = [.read 2] ∧ c.tasks = [] ∧
        c.isConnected = true := ⟨_, rfl, rfl, rfl, rfl, rfl⟩
  refine ⟨c, hrun, hq, hops, ht, fun h => ?_⟩
  obtain ⟨k, hk⟩ := h hc [7] (by simp [hq])
  simp [hops] at hk

/-- Whenever the application asks, `are_all_messages_sent` tells the truth exactly if no
write is posted while the queue is empty. Asked at every moment of a run, it tells the
truth exactly if the run accepts nothing. -/
theorem all_sent_is_true_iff_queued_ahead (es : List Client.Event) (c : Client)
    (hc : Client.machine.run es = some c) (params : Serial.SerialParams)
    (fs : List Serial.Event) (d : Serial) (hd : (Serial.machine params).run fs = some d) :
    ((∀ a : Client, a.Asked → (a.TellsAllSent ↔ a.QueuedAhead)) ∧
      (Client.machine.Throughout Client.TellsAllSent es ↔ c.accepted = [])) ∧
    ((∀ a, Serial.Asked params a → (a.TellsAllSent ↔ a.QueuedAhead)) ∧
      ((Serial.machine params).Throughout Serial.TellsAllSent fs ↔ d.accepted = [])) :=
  ⟨⟨fun _ ha => ha.tellsAllSent_iff, Client.tellsAllSent_throughout_iff hc⟩,
    fun _ ha => ha.tellsAllSent_iff, Serial.tellsAllSent_throughout_iff hd⟩

def bothWritesSent : List Client.Event := twoWrites ++ [.complete (.write 1 [2]) 0 []]

def bothWritesSentToPort : List Serial.Event :=
  twoWritesToPort ++ [.complete (.write 1 [2]) 0 []]

theorem all_sent_is_true_bothWritesSent :
    (∃ c, Client.machine.run bothWritesSent = some c ∧ c.accepted = [[1], [2]] ∧
      c.areAllMessagesSent = true ∧ c.TellsAllSent ∧
      ¬ Client.machine.Throughout Client.TellsAllSent bothWritesSent) ∧
    (∃ c, (Serial.machine (Serial.serialParams8N1 .br9600)).run bothWritesSentToPort = some c ∧
      c.accepted = [[1], [2]] ∧ c.areAllMessagesSent = true ∧ c.TellsAllSent ∧
      ¬ (Serial.machine (Serial.serialParams8N1 .br9600)).Throughout Serial.TellsAllSent
        bothWritesSentToPort) := by
  obtain ⟨c, hrun, haccepted, hall, htasks⟩ : ∃ c, Client.machine.run bothWritesSent = some c ∧
      c.accepted = [[1], [2]] ∧ c.areAllMessagesSent = true ∧ c.tasks = [] :=
    ⟨_, rfl, rfl, rfl, rfl⟩
  obtain ⟨d, hrun', haccepted', hall', htasks'⟩ : ∃ d,
      (Serial.machine (Serial.serialParams8N1 .br9600)).run bothWritesSentToPort = some d ∧
        d.accepted = [[1], [2]] ∧ d.areAllMessagesSent = true ∧ d.tasks = [] :=
    ⟨_, rfl, rfl, rfl, rfl⟩
  obtain ⟨⟨hclient, hclientRun⟩, hserial, hserialRun⟩ :=
    all_sent_is_true_iff_queued_ahead bothWritesSent c hrun _ bothWritesSentToPort d hrun'
  have hahead : c.QueuedAhead := by simp [Client.QueuedAhead, htasks]
  have hahead' : d.QueuedAhead := by simp [Serial.QueuedAhead, htasks']
  refine ⟨⟨c, hrun, haccepted, hall, (hclient c (.between c ⟨_, hrun⟩)).mpr hahead, ?_⟩,
    ⟨d, hrun', haccepted', hall', (hserial d (.between d ⟨_, hrun'⟩)).mpr hahead', ?_⟩⟩
  · rw [hclientRun, haccepted]
    simp
  · rw [hserialRun, haccepted']
    simp

theorem all_sent_said_of_posted_write :
    ∃ c, Client.machine.run [.complete (.connect 1) 0 [], .call (.write [1])] = some c ∧
      c.areAllMessagesSent = true ∧ c.accepted = [[1]] ∧ c.sent = [] ∧ ¬ c.TellsAllSent := by
  obtain ⟨c, hrun, hq, ha, hs⟩ : ∃ c,
      Client.machine.run [.complete (.connect 1) 0 [], .call (.write [1])] = some c ∧
        c.areAllMessagesSent = true ∧ c.accepted = [[1]] ∧ c.sent = [] :=
    ⟨_, rfl, rfl, rfl, rfl⟩
  refine ⟨c, hrun, hq, ha, hs, fun h => ?_⟩
  have heq := h hq
  simp [hs, ha] at heq

end Sephi.Net
