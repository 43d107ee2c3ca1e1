import Sephi.RunLoops

set_option autoImplicit false

namespace Sephi.Net
open Transition Serial

namespace Tcp

def Client.ReadsCurrent (c : Client) : Prop :=
  ∃ op ∈ c.ops, op.isRead = true ∧ op.socket = c.socket

theorem Client.doRead_readsCurrent (c : Client) : c.doRead.ReadsCurrent :=
  ⟨.read c.socket, List.mem_append_right _ (List.mem_singleton.mpr rfl), rfl, rfl⟩

theorem Client.ReadsCurrent.mono {c d : Client} (h : c.ReadsCurrent)
    (hs : d.socket = c.socket) (hops : ∀ op ∈ c.ops, op.isRead = true → op ∈ d.ops) :
    d.ReadsCurrent := by
  obtain ⟨op, hop, hr, hsocket⟩ := h
  exact ⟨op, hops op hop hr, hr, hsocket.trans hs.symm⟩

theorem Client.doWrite_socket (c : Client) : c.doWrite.socket = c.socket := by
  cases hm : c.sendingMessages <;> simp [Client.doWrite, hm]

theorem Client.call_readsCurrent {c : Client} (h : c.ReadsCurrent) (x : Client.Call)
    (hx : (c.call x).isConnected = true) : (c.call x).ReadsCurrent := by
  obtain ⟨st, n, ts, hcall, _, hn⟩ := c.call_spec x
  rw [hcall] at hx ⊢
  rcases hn with rfl | rfl
  · exact h.mono rfl fun op hop _ => List.mem_append_left _ hop
  · exact absurd hx Bool.false_ne_true

theorem Client.Move.readsCurrent {c d : Client} {e : Client.Event} (h : c.Move e d)
    (hc : c.isConnected = true → c.ReadsCurrent) (hd : d.isConnected = true) :
    d.ReadsCurrent := by
  cases h with
  | call x =>
    have hbefore := hd
    rw [Client.call_isConnected, Bool.and_eq_true] at hbefore
    exact Client.call_readsCurrent (hc hbefore.1) x hd
  | queued chunk rest ec =>
    rw [Client.writeTask_isConnected] at hd
    refine (hc hd).mono ?_ fun op hop _ => Client.writeTask_ops _ chunk hop
    simp only [Client.writeTask]
    split
    · exact Client.doWrite_socket _
    · rfl
  | shutdown k rest ec =>
    simp only [Client.runTask] at hd ⊢
    by_cases hec : ec ≠ 0
    · rw [if_pos hec] at hd ⊢
      exact hc hd
    · rw [if_neg hec] at hd ⊢
      exact hc hd
  | arrive k bytes => exact hc hd
  | perform k packet _ _ hk =>
    exact ⟨.received k packet.bytes.length,
      List.mem_append_right _ (List.mem_singleton.mpr rfl), rfl, hk⟩
  | failed op ec inside =>
    rw [Client.callBackConnectionHandler_isConnected] at hd
    exact absurd (Bool.and_eq_true_iff.mp hd).1 Bool.false_ne_true
  | opened k inside => exact Client.doRead_readsCurrent _
  | packet k size inside => exact Client.doRead_readsCurrent _
  | written k chunk inside =>
    rw [Client.handleWrite_isConnected] at hd
    refine (hc hd).mono ?_ fun op hop hr => Client.handleWrite_ops _ k chunk inside ?_
    · simp only [Client.handleWrite, ne_eq, not_true_eq_false, if_false]
      split
      · exact Client.doWrite_socket _
      · rfl
    · refine (List.mem_erase_of_ne ?_).mpr hop
      rintro rfl
      exact absurd hr Bool.false_ne_true

theorem Client.settle_readsCurrent (c : Client) : c.settle.ReadsCurrent ↔ c.ReadsCurrent := by
  unfold Client.settle
  split <;> rfl

theorem Client.reads_current {c : Client} (h : Client.machine.Reachable c)
    (hc : c.isConnected = true) : c.ReadsCurrent := by
  refine h.invariant (I := fun c => c.isConnected = true → c.ReadsCurrent)
    (fun hstart => absurd hstart Bool.false_ne_true) (fun c e d hc hstep hd => ?_) hc
  obtain ⟨d', hm, rfl⟩ := Client.step_move hstep
  rw [Client.settle_isConnected] at hd
  exact (Client.settle_readsCurrent d').mpr (hm.readsCurrent hc hd)

end Tcp

namespace Serial

def ReadsCurrent (c : Serial) : Prop :=
  ∃ op ∈ c.ops, op.isRead = true ∧ op.port = c.port

theorem doRead_readsCurrent (c : Serial) : c.doRead.ReadsCurrent :=
  ⟨.read c.port, List.mem_append_right _ (List.mem_singleton.mpr rfl), rfl, rfl⟩

theorem ReadsCurrent.mono {c d : Serial} (h : c.ReadsCurrent) (hs : d.port = c.port)
    (hops : ∀ op ∈ c.ops, op.isRead = true → op ∈ d.ops) : d.ReadsCurrent := by
  obtain ⟨op, hop, hr, hport⟩ := h
  exact ⟨op, hops op hop hr, hr, hport.trans hs.symm⟩

theorem doWrite_port (c : Serial) : c.doWrite.port = c.port := by
  cases hm : c.sendingMessages <;> simp [doWrite, hm]

theorem call_readsCurrent {c : Serial} (h : c.ReadsCurrent) {x : Call}
    (hx : x.leavesOpened = true) : (c.call x).ReadsCurrent := by
  cases x with
  | write chunk =>
    cases hc : c.isOpened with
    | true =>
      simp only [call, write, hc]
      exact h
    | false =>
      simp only [call, write, hc]
      exact h
  | close | reopen => exact absurd hx Bool.false_ne_true
  | flush =>
    obtain ⟨u, k, hflush⟩ := c.flush_eq
    rw [call, hflush]
    exact h

theorem Move.readsCurrent {c d : Serial} {e : Event} (h : c.Move e d)
    (hc : c.isOpened = true → c.ReadsCurrent) (hd : d.isOpened = true) : d.ReadsCurrent := by
  cases h with
  | call x =>
    rw [call_isOpened, Bool.and_eq_true] at hd
    exact call_readsCurrent (hc hd.1) hd.2
  | queued chunk rest device inside =>
    rw [writeTask_isOpened] at hd
    refine (hc hd).mono ?_ fun op hop _ => writeTask_ops _ chunk hop
    simp only [writeTask]
    split
    · exact doWrite_port _
    · rfl
  | closed | thrown | arrive => exact hc hd
  | perform k packet _ _ hk =>
    exact ⟨.received k packet.bytes.length,
      List.mem_append_right _ (List.mem_singleton.mpr rfl), rfl, hk⟩
  | refused | failed =>
    rw [callBackConnectionHandler_isOpened] at hd
    exact absurd (Bool.and_eq_true_iff.mp hd).1 Bool.false_ne_true
  | opened | data => exact doRead_readsCurrent _
  | written k chunk inside =>
    rw [handleWrite_isOpened] at hd
    refine (hc hd).mono ?_ fun op hop hr => handleWrite_ops _ k chunk inside ?_
    · simp only [handleWrite, ne_eq, not_true_eq_false, if_false]
      split
      · exact doWrite_port _
      · rfl
    · refine (List.mem_erase_of_ne ?_).mpr hop
      rintro rfl
      exact absurd hr Bool.false_ne_true

theorem settle_readsCurrent (c : Serial) : c.settle.ReadsCurrent ↔ c.ReadsCurrent := by
  unfold settle
  split <;> rfl

theorem reads_current {params : SerialParams} {c : Serial} (h : (machine params).Reachable c)
    (hc : c.isOpened = true) : c.ReadsCurrent := by
  refine h.invariant (I := fun c => c.isOpened = true → c.ReadsCurrent)
    (fun hstart => absurd hstart Bool.false_ne_true) (fun c e d hc hstep hd => ?_) hc
  obtain ⟨d', hm, rfl⟩ := step_move hstep
  rw [settle_isOpened] at hd
  exact (settle_readsCurrent d').mpr (hm.readsCurrent hc hd)

end Serial

/-- In whatever order calls and completions come, a client that says it is connected has a
read outstanding on its current socket, and a port that says it is opened on its current
port: the end of what they would write to cannot go unnoticed. -/
theorem connected_is_read :
    (∀ c, Tcp.Client.machine.Reachable c → c.isConnected = true → c.ReadsCurrent) ∧
    (∀ params c, (Serial.machine params).Reachable c → c.isOpened = true → c.ReadsCurrent) :=
  ⟨fun _ => Tcp.Client.reads_current, fun _ _ => Serial.reads_current⟩

/-- The application reconnects inside its packet handler. -/
def connectedAgain : List Tcp.Client.Event :=
  [.complete (.connect 1) 0 [], .arrive 1 [9], .perform 1 (.byte 9),
    .complete (.received 1 1) 0 [.reconnect], .complete (.connect 2) 0 []]

theorem connected_is_read_connectedAgain :
    (∃ c, Tcp.Client.machine.run connectedAgain = some c ∧ c.socket = 2 ∧ c.ReadsCurrent) ∧
    (∃ c, (Serial.machine (serialParams8N1 .br9600)).run [.task (.steady 0) []] = some c ∧
      c.port = 1 ∧ c.ReadsCurrent) := by
  have hclient : Tcp.Client.machine.run connectedAgain = some _ := rfl
  have hserial : (Serial.machine (serialParams8N1 .br9600)).run
      [.task (.steady 0) []] = some _ := rfl
  obtain ⟨hconnected, hopened⟩ := connected_is_read
  exact ⟨⟨_, hclient, rfl, hconnected _ ⟨connectedAgain, hclient⟩ rfl⟩,
    ⟨_, hserial, rfl, hopened _ _ ⟨_, hserial⟩ rfl⟩⟩

end Sephi.Net
