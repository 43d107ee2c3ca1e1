import Sephi.Lifecycle
import Sephi.TcpClient

set_option autoImplicit false

namespace Sephi.Net.Tcp
open Transition Lifecycle

def Client.Callback.mark : Client.Callback → Mark Chunk
  | .connection .connected _ => .opened
  | .connection .disconnected _ => .closed
  | .packet data => .item data

/-- The calls of the application's handlers after the `k`-th `do_connect` and before the
next one. -/
def Client.reportsOf (c : Client) (k : Nat) : List (Mark Chunk) :=
  (c.reports.filter fun r => r.attempt == k).map fun r => r.callback.mark

/-- Each attempt is reported as a single disconnected, or as connected, packets,
disconnected, as far as the reports go; and no completion of a replaced socket is
reported. -/
def Client.ReportsLawfully (c : Client) : Prop :=
  (∀ k, Lawful true (c.reportsOf k)) ∧ ∀ r ∈ c.reports, r.cause = r.attempt

def Client.failed (c : Client) : Bool :=
  c.handled.any fun h => h.attempt == c.socket && h.ec != 0

def Client.Op.isConnect : Client.Op → Bool
  | .connect _ => true
  | .read _ | .received _ _ | .write _ _ => false

def Client.established (c : Client) : Bool :=
  c.handled.any fun h => h.attempt == c.socket && h.op.isConnect && h.ec == 0

/-- A connect or read completion, or a failed write completion, is handled only for the
socket of the last `do_connect`, before any other failure since then, and data only after
the connect. -/
def Client.Timely (c : Client) : Client.Event → Prop
  | .complete (.write k _) ec _ => ec ≠ 0 → k = c.socket ∧ c.failed = false
  | .complete (.connect k) _ _ | .complete (.read k) _ _ => k = c.socket ∧ c.failed = false
  | .complete (.received k _) _ _ =>
    k = c.socket ∧ c.failed = false ∧ c.established = true
  | _ => True

def Client.phase (c : Client) : Phase :=
  if c.failed then .ended else if c.established then .running else .fresh

structure Client.Orderly (c : Client) : Prop where
  caused : ∀ r ∈ c.reports, r.cause = r.attempt
  reports_le : ∀ r ∈ c.reports, r.attempt ≤ c.socket
  handled_le : ∀ h ∈ c.handled, h.attempt ≤ c.socket
  connect_le : ∀ k, .connect k ∈ c.ops → k ≤ c.socket
  connect_once : ∀ k, c.ops.count (.connect k) ≤ 1
  connecting : .connect c.socket ∈ c.ops → c.established = false
  lawful : ∀ k, Lawful true (c.reportsOf k)
  current : Lifecycle.phase true (c.reportsOf c.socket) = some c.phase

theorem Client.reportsOf_eq_nil {c : Client} {k : Nat} (h : ∀ r ∈ c.reports, r.attempt < k) :
    c.reportsOf k = [] := by
  simp only [Client.reportsOf, List.map_eq_nil_iff, List.filter_eq_nil_iff, beq_iff_eq]
  intro r hr heq
  have hlt := h r hr
  omega

theorem Client.Orderly.frame {c d : Client} (h : c.Orderly) (hs : d.socket = c.socket)
    (ho : ∀ k, d.ops.count (.connect k) = c.ops.count (.connect k))
    (hh : ∀ g ∈ d.handled, g.attempt ≤ c.socket) (hf : d.failed = c.failed)
    (hest : d.established = c.established) (hr : d.reports = c.reports) : d.Orderly := by
  have hmem : ∀ k, .connect k ∈ d.ops → .connect k ∈ c.ops := by
    intro k hk
    rw [← List.count_pos_iff] at hk ⊢
    rwa [← ho k]
  have hrep : d.reportsOf = c.reportsOf := by
    funext k
    simp [Client.reportsOf, hr]
  have hph : d.phase = c.phase := by simp [Client.phase, hf, hest]
  refine ⟨?_, ?_, ?_, ?_, ?_, ?_, ?_, ?_⟩
  · exact hr ▸ h.caused
  · exact hs ▸ hr ▸ h.reports_le
  · exact hs ▸ hh
  · exact fun k hk => hs ▸ h.connect_le k (hmem k hk)
  · exact fun k => ho k ▸ h.connect_once k
  · rw [hs, hest]
    exact fun hk => h.connecting (hmem c.socket hk)
  · exact fun k => hrep ▸ h.lawful k
  · rw [hrep, hs, hph]
    exact h.current

theorem Client.Orderly.doConnect {c : Client} (h : c.Orderly) : c.doConnect.Orderly := by
  have hnil : c.doConnect.reportsOf (c.socket + 1) = [] :=
    Client.reportsOf_eq_nil fun r hr => Nat.lt_succ_of_le (h.reports_le r hr)
  have hold : ∀ g ∈ c.handled, g.attempt ≠ c.socket + 1 := by
    intro g hg heq
    have hle := h.handled_le g hg
    omega
  have hest : c.doConnect.established = false := by
    simp only [Client.established, Client.doConnect, List.any_eq_false]
    intro g hg
    simp [hold g hg]
  have hfail : c.doConnect.failed = false := by
    simp only [Client.failed, Client.doConnect, List.any_eq_false]
    intro g hg
    simp [hold g hg]
  have hnew : .connect (c.socket + 1) ∉ c.ops := by
    intro hk
    have hle := h.connect_le _ hk
    omega
  refine ⟨h.caused, ?_, ?_, ?_, ?_, fun _ => hest, h.lawful, ?_⟩
  · exact fun r hr => Nat.le_succ_of_le (h.reports_le r hr)
  · exact fun g hg => Nat.le_succ_of_le (h.handled_le g hg)
  · intro k hk
    simp only [Client.doConnect, List.mem_append, List.mem_singleton,
      Client.Op.connect.injEq] at hk
    rcases hk with hk | rfl
    · exact Nat.le_succ_of_le (h.connect_le k hk)
    · exact Nat.le_refl _
  · intro k
    simp only [Client.doConnect, List.count_append, List.count_singleton]
    by_cases hk : k = c.socket + 1
    · subst hk
      simp [List.count_eq_zero.mpr hnew]
    · have hne : (Client.Op.connect (c.socket + 1) == .connect k) = false := by
        simpa using Ne.symm hk
      simpa [hne] using h.connect_once k
  · have hph : c.doConnect.phase = .fresh := by simp [Client.phase, hfail, hest]
    rw [hph]
    exact congrArg (Lifecycle.phase true) hnil

theorem Client.Orderly.call {c : Client} (h : c.Orderly) (x : Client.Call) :
    (c.call x).Orderly := by
  cases x with
  | write chunk =>
    simp only [Client.call, Client.write]
    split
    · split
      · exact h.frame rfl (fun _ => rfl) h.handled_le rfl rfl rfl
      · exact h.frame rfl (fun _ => rfl) h.handled_le rfl rfl rfl
    · split
      · exact h.frame rfl (fun _ => rfl) h.handled_le rfl rfl rfl
      · exact h.frame rfl (fun _ => rfl) h.handled_le rfl rfl rfl
  | close =>
    simp only [Client.call, Client.close]
    split
    · exact h.frame rfl (fun _ => rfl) h.handled_le rfl rfl rfl
    · exact h
  | reconnect => exact h.doConnect

theorem Client.Orderly.calls {c : Client} (h : c.Orderly) (inside : List Client.Call) :
    (c.calls inside).Orderly := by
  induction inside generalizing c with
  | nil => exact h
  | cons x inside ih => exact ih (h.call x)

def Client.reported (c : Client) (op : Client.Op) (ec : ErrorCode) (st : ConnectionState)
    (callback : Client.Callback) : Client :=
  { c.begin op ec with
    connectionState := st
    reports := c.reports ++ [⟨c.socket, op.socket, callback⟩] }

theorem Client.reported_failed (c : Client) (op : Client.Op) (ec : ErrorCode)
    (st : ConnectionState) (callback : Client.Callback) :
    (c.reported op ec st callback).failed = (c.failed || ec != 0) := by
  simp [Client.reported, Client.begin, Client.failed, List.any_append]

theorem Client.reported_established (c : Client) (op : Client.Op) (ec : ErrorCode)
    (st : ConnectionState) (callback : Client.Callback) :
    (c.reported op ec st callback).established =
      (c.established || (op.isConnect && ec == 0)) := by
  simp [Client.reported, Client.begin, Client.established, List.any_append]

theorem Client.reported_reportsOf (c : Client) (op : Client.Op) (ec : ErrorCode)
    (st : ConnectionState) (callback : Client.Callback) (k : Nat) :
    (c.reported op ec st callback).reportsOf k =
      c.reportsOf k ++ if k = c.socket then [callback.mark] else [] := by
  by_cases hk : k = c.socket
  · simp [Client.reported, Client.reportsOf, List.filter_append, hk]
  · simp [Client.reported, Client.reportsOf, List.filter_append, hk, Ne.symm hk]

theorem Client.Orderly.reported {c : Client} (h : c.Orderly) {op : Client.Op}
    (hop : op ∈ c.ops) (hsocket : op.socket = c.socket) {ec : ErrorCode}
    {st : ConnectionState} {callback : Client.Callback}
    (hnext : c.phase.next true callback.mark =
      some (c.reported op ec st callback).phase) :
    (c.reported op ec st callback).Orderly := by
  have hcur : Lifecycle.phase true ((c.reported op ec st callback).reportsOf c.socket) =
      some (c.reported op ec st callback).phase := by
    rw [Client.reported_reportsOf, if_pos rfl, phase_snoc, h.current]
    exact hnext
  refine ⟨?_, ?_, ?_, ?_, ?_, ?_, ?_, hcur⟩
  · intro r hr
    rcases List.mem_append.mp hr with hr | hr
    · exact h.caused r hr
    · obtain rfl := List.mem_singleton.mp hr
      exact hsocket
  · intro r hr
    rcases List.mem_append.mp hr with hr | hr
    · exact h.reports_le r hr
    · obtain rfl := List.mem_singleton.mp hr
      exact Nat.le_refl _
  · intro g hg
    rcases List.mem_append.mp hg with hg | hg
    · exact h.handled_le g hg
    · obtain rfl := List.mem_singleton.mp hg
      exact Nat.le_refl _
  · exact fun k hk => h.connect_le k (List.mem_of_mem_erase hk)
  · exact fun k => Nat.le_trans (List.erase_sublist.count_le _) (h.connect_once k)
  · intro hk
    rw [Client.reported_established]
    cases hc : op.isConnect with
    | false => simpa using h.connecting (List.mem_of_mem_erase hk)
    | true =>
      -- the connect of the current socket was outstanding once, and has been taken off
      obtain rfl : op = .connect c.socket := by
        cases op <;> simp_all [Client.Op.isConnect, Client.Op.socket]
      have hcount := h.connect_once c.socket
      have hpos := List.count_pos_iff.mpr hk
      have herase := List.count_erase_self (a := Client.Op.connect c.socket) (l := c.ops)
      simp only [Client.reported, Client.begin] at hpos
      omega
  · intro k
    by_cases hk : k = c.socket
    · subst hk
      rw [lawful_iff_phase, hcur]
      exact Option.some_ne_none _
    · rw [Client.reported_reportsOf, if_neg hk, List.append_nil]
      exact h.lawful k

theorem Client.phase_next_closed {c : Client} (hf : c.failed = false) :
    c.phase.next true (.closed : Mark Chunk) = some .ended := by
  simp only [Client.phase, hf]
  cases c.established <;> rfl

theorem Client.Orderly.doWrite {c : Client} (h : c.Orderly) : c.doWrite.Orderly := by
  cases hm : c.sendingMessages with
  | nil => simpa [Client.doWrite, hm] using h
  | cons message rest =>
    simp only [Client.doWrite, hm]
    exact h.frame rfl (fun k => by simp) h.handled_le rfl rfl rfl

theorem Client.Orderly.doRead {c : Client} (h : c.Orderly) : c.doRead.Orderly :=
  h.frame rfl (fun k => by simp [Client.doRead]) h.handled_le rfl rfl rfl

theorem Client.Orderly.writeTask {c : Client} (h : c.Orderly) (chunk : Chunk) :
    (c.writeTask chunk).Orderly := by
  have hq : Client.Orderly { c with sendingMessages := c.sendingMessages ++ [chunk] } :=
    h.frame rfl (fun _ => rfl) h.handled_le rfl rfl rfl
  simp only [Client.writeTask]
  split
  · exact hq.doWrite
  · exact hq

theorem Client.Orderly.written {c : Client} (h : c.Orderly) (k : Nat) (chunk : Chunk)
    (inside : List Client.Call) :
    ((c.begin (.write k chunk) 0).handleWrite k chunk 0 inside).Orderly := by
  have hb : Client.Orderly { c.begin (.write k chunk) 0 with
      sendingMessages := c.sendingMessages.tail, sent := c.sent ++ [chunk] } := by
    refine h.frame rfl (fun j => ?_) ?_ ?_ ?_ rfl
    · exact List.count_erase_of_ne (by simp)
    · intro g hg
      rcases List.mem_append.mp hg with hg | hg
      · exact h.handled_le g hg
      · obtain rfl := List.mem_singleton.mp hg
        exact Nat.le_refl _
    · simp [Client.failed, Client.begin]
    · simp [Client.established, Client.begin, Client.Op.isConnect]
  simp only [Client.handleWrite, ne_eq, not_true_eq_false, if_false]
  split
  · exact hb.doWrite
  · exact hb

theorem Client.Orderly.perform {c : Client} (h : c.Orderly) (k : Nat) (packet : Packet) :
    (c.perform k packet).Orderly := by
  refine h.frame rfl (fun j => ?_) h.handled_le rfl rfl rfl
  simp [Client.perform, List.count_append, List.count_erase_of_ne]

theorem Client.callBackConnectionHandler_begin (c : Client) (op : Client.Op)
    (ec ec' : ErrorCode) (st : ConnectionState) (inside : List Client.Call) :
    (c.begin op ec).callBackConnectionHandler op.socket st ec' inside =
      (c.reported op ec st (.connection st ec')).calls inside := rfl

theorem Client.callPacketHandler_begin (c : Client) (k size : Nat)
    (inside : List Client.Call) :
    (c.begin (.received k size) 0).callPacketHandler k size inside =
      (c.reported (.received k size) 0 c.connectionState
        (.packet (c.receivedPacket.view size))).calls inside := rfl

theorem Client.Move.orderly {c d : Client} {e : Client.Event} (h : c.Move e d)
    (hc : c.Orderly) (he : c.Timely e) : d.Orderly := by
  cases h with
  | call x => exact hc.call x
  | queued chunk rest ec _ ht =>
    have hq : Client.Orderly { c with tasks := rest } :=
      hc.frame rfl (fun _ => rfl) hc.handled_le rfl rfl rfl
    exact hq.writeTask chunk
  | shutdown k rest ec =>
    simp only [Client.runTask]
    split
    · exact hc.frame rfl (fun _ => rfl) hc.handled_le rfl rfl rfl
    · exact hc.frame rfl (fun _ => rfl) hc.handled_le rfl rfl rfl
  | arrive k bytes => exact hc.frame rfl (fun _ => rfl) hc.handled_le rfl rfl rfl
  | perform k packet => exact hc.perform k packet
  | failed op ec inside _ hop hec =>
    obtain ⟨hk, hf⟩ : op.socket = c.socket ∧ c.failed = false := by
      cases op with
      | connect k | read k => exact he
      | received k size => exact ⟨he.1, he.2.1⟩
      | write k chunk => exact he hec
    rw [Client.callBackConnectionHandler_begin]
    refine (hc.reported hop hk ?_).calls inside
    rw [Client.Callback.mark, Client.phase_next_closed hf]
    simp [Client.phase, Client.reported_failed, hec]
  | opened k inside _ hop =>
    obtain ⟨rfl, hf⟩ := he
    have hest := hc.connecting hop
    refine ((hc.reported hop rfl ?_).calls inside).doRead
    simp [Client.phase, Client.reported_failed, Client.reported_established, hf, hest,
      Client.Callback.mark, Client.Op.isConnect, Phase.next]
  | packet k size inside _ hop =>
    obtain ⟨rfl, hf, hest⟩ := he
    rw [Client.callPacketHandler_begin]
    refine ((hc.reported hop rfl ?_).calls inside).doRead
    simp [Client.phase, Client.reported_failed, Client.reported_established, hf, hest,
      Client.Callback.mark, Phase.next]
  | written k chunk inside => exact hc.written k chunk inside

theorem Client.calls_reports (c : Client) (inside : List Client.Call) :
    (c.calls inside).reports = c.reports := by
  obtain ⟨st, n, ts, hc, _, _⟩ := c.calls_spec inside
  rw [hc]

theorem Client.not_lawful_of_reported {c d : Client} (op : Client.Op) (h : c.Orderly)
    {callback : Client.Callback}
    (hd : d.reports = c.reports ++ [⟨c.socket, op.socket, callback⟩])
    (hbad : op.socket ≠ c.socket ∨ c.phase.next true callback.mark = none) :
    ¬ d.ReportsLawfully := by
  rintro ⟨hlawful, hcaused⟩
  rcases hbad with hsocket | hnext
  · exact hsocket (hcaused ⟨c.socket, op.socket, callback⟩ (by simp [hd]))
  · have hrep : d.reportsOf c.socket = c.reportsOf c.socket ++ [callback.mark] := by
      simp [Client.reportsOf, hd, List.filter_append]
    have hl := hlawful c.socket
    rw [hrep, lawful_iff_phase, phase_snoc, h.current] at hl
    exact hl hnext

theorem Client.phase_next_of_failed {c : Client} (hf : c.failed = true)
    (a : Mark Chunk) : c.phase.next true a = none := by
  cases a <;> simp [Client.phase, hf, Phase.next]

theorem Client.Move.breaks {c d : Client} {e : Client.Event} (h : c.Move e d)
    (hc : c.Orderly) (he : ¬ c.Timely e) : ¬ d.ReportsLawfully := by
  cases h with
  | failed op ec inside _ hop hec hy =>
    have hd : (Client.calls (c.reported op ec .disconnected (.connection .disconnected ec))
        inside).reports = c.reports ++ [⟨c.socket, op.socket, .connection .disconnected ec⟩] :=
      Client.calls_reports _ inside
    refine Client.not_lawful_of_reported op hc hd ?_
    by_cases hk : op.socket = c.socket
    · have hf : c.failed = true := by
        by_contra hf
        have hf : c.failed = false := by simpa using hf
        cases op with
        | connect k | read k => exact he ⟨hk, hf⟩
        | received k size => exact hec hy
        | write k chunk => exact he fun _ => ⟨hk, hf⟩
      exact .inr (Client.phase_next_of_failed hf _)
    · exact .inl hk
  | opened k inside _ hop =>
    have hd : (Client.calls (c.reported (.connect k) 0 .connected (.connection .connected 0))
        inside).doRead.reports =
          c.reports ++ [⟨c.socket, k, .connection .connected 0⟩] :=
      Client.calls_reports _ inside
    refine Client.not_lawful_of_reported (.connect k) hc hd ?_
    by_cases hk : k = c.socket
    · have hf : c.failed = true := by
        by_contra hf
        exact he ⟨hk, by simpa using hf⟩
      exact .inr (Client.phase_next_of_failed hf _)
    · exact .inl hk
  | packet k size inside _ hop =>
    have hd : (Client.calls (c.reported (.received k size) 0 c.connectionState
        (.packet (c.receivedPacket.view size))) inside).doRead.reports =
          c.reports ++ [⟨c.socket, k, .packet (c.receivedPacket.view size)⟩] :=
      Client.calls_reports _ inside
    refine Client.not_lawful_of_reported (.received k size) hc hd ?_
    by_cases hk : k = c.socket
    · right
      cases hf : c.failed with
      | true => exact Client.phase_next_of_failed hf _
      | false =>
        -- data ahead of the connect
        have hest : c.established = false := by
          by_contra hest
          exact he ⟨hk, hf, by simpa using hest⟩
        simp [Client.phase, hf, hest, Client.Callback.mark, Phase.next]
    · exact .inl hk
  | written k chunk inside => exact absurd (fun hec => absurd rfl hec) he
  | call | queued | shutdown | arrive | perform => exact absurd trivial he

theorem Client.Orderly.reportsLawfully {c : Client} (h : c.Orderly) : c.ReportsLawfully :=
  ⟨h.lawful, h.caused⟩

theorem Client.orderly_start : Client.machine.start.Orderly := by
  refine ⟨by simp [Client.machine, Client.start, Client.doConnect],
    by simp [Client.machine, Client.start, Client.doConnect],
    by simp [Client.machine, Client.start, Client.doConnect], ?_, ?_, fun _ => rfl,
    fun _ => .inr ⟨[], List.nil_prefix⟩, rfl⟩
  · intro k hk
    have hk : k = 1 := by simpa [Client.machine, Client.start, Client.doConnect] using hk
    simp [Client.machine, Client.start, Client.doConnect, hk]
  · intro k
    by_cases hk : 1 = k <;>
      simp [Client.machine, Client.start, Client.doConnect, hk]

theorem Client.settle_reports (c : Client) : c.settle.reports = c.reports := by
  unfold Client.settle
  split <;> rfl

theorem Client.Orderly.settle {c : Client} (h : c.Orderly) : c.settle.Orderly := by
  unfold Client.settle
  split
  · exact h.frame rfl (fun _ => rfl) h.handled_le rfl rfl rfl
  · exact h

/-- The reports follow the protocol of an attempt in every state of a run exactly when
every reporting completion of the run is handled in time. -/
theorem Client.reports_lawful_iff_timely (es : List Client.Event) (c : Client)
    (hrun : Client.machine.run es = some c) :
    Client.machine.Throughout Client.ReportsLawfully es ↔
      Client.machine.EachStep Client.Timely es := by
  refine Machine.throughout_iff_eachStep (I := Client.Orderly) Client.orderly_start
    (fun c hc => hc.reportsLawfully) ?_ ?_ hrun
  · intro c e d hc he hstep
    obtain ⟨d', hm, rfl⟩ := Client.step_move hstep
    exact (hm.orderly hc he).settle
  · intro c e d hc he hstep hd
    obtain ⟨d', hm, rfl⟩ := Client.step_move hstep
    refine hm.breaks hc he ⟨fun k => ?_, ?_⟩
    · have hk := hd.1 k
      simpa only [Client.reportsOf, Client.settle_reports] using hk
    · simpa only [Client.settle_reports] using hd.2

def oneLostConnection : List Client.Event :=
  [.complete (.connect 1) 0 [], .arrive 1 [7], .perform 1 (.byte 7),
    .complete (.received 1 1) 0 [], .complete (.read 1) 104 [.reconnect]]

theorem Client.reports_lawful_oneLostConnection :
    Client.machine.Throughout Client.ReportsLawfully oneLostConnection := by
  refine (Client.reports_lawful_iff_timely oneLostConnection _ rfl).mpr ?_
  refine (Machine.eachStep_snoc (oneLostConnection.take 4) rfl).mpr
    ⟨?_, ⟨rfl, rfl⟩⟩
  refine (Machine.eachStep_snoc (oneLostConnection.take 3) rfl).mpr
    ⟨?_, ⟨rfl, rfl, rfl⟩⟩
  refine (Machine.eachStep_snoc (oneLostConnection.take 2) rfl).mpr ⟨?_, trivial⟩
  refine (Machine.eachStep_snoc (oneLostConnection.take 1) rfl).mpr ⟨?_, trivial⟩
  exact (Machine.eachStep_snoc [] rfl).mpr ⟨Machine.eachStep_nil _, ⟨rfl, rfl⟩⟩

/-- One connection is lost with a read and a write outstanding. -/
def lostOnceReportedTwice : List Client.Event :=
  [.complete (.connect 1) 0 [], .call (.write [7]), .task 0,
    .complete (.read 1) 104 [], .complete (.write 1 [7]) 104 []]

/-- The same under a handler that calls `reconnect` on every disconnected report: the
write of the replaced socket is reported to the second attempt, which is thrown away. -/
def lostOnceReconnectedTwice : List Client.Event :=
  [.complete (.connect 1) 0 [], .call (.write [7]), .task 0,
    .complete (.read 1) 104 [.reconnect], .complete (.write 1 [7]) 125 [.reconnect]]

theorem Client.lost_connection_reported_twice :
    (∃ c, Client.machine.run lostOnceReportedTwice = some c ∧
      c.reportsOf 1 = [.opened, .closed, .closed] ∧ ¬ c.ReportsLawfully) ∧
    (∃ c, Client.machine.run lostOnceReconnectedTwice = some c ∧ c.socket = 3 ∧
      c.reportsOf 2 = [.closed] ∧ ¬ c.ReportsLawfully) := by
  constructor
  · obtain ⟨c, hrun, hr⟩ : ∃ c, Client.machine.run lostOnceReportedTwice = some c ∧
        c.reportsOf 1 = [.opened, .closed, .closed] := ⟨_, rfl, rfl⟩
    refine ⟨c, hrun, hr, fun h => ?_⟩
    have hl := h.1 1
    rw [hr, lawful_iff_phase] at hl
    exact hl rfl
  · obtain ⟨c, hrun, hs, hr, hmem⟩ : ∃ c,
        Client.machine.run lostOnceReconnectedTwice = some c ∧ c.socket = 3 ∧
          c.reportsOf 2 = [.closed] ∧ c.reports.map (fun r => (r.attempt, r.cause)) =
            [(1, 1), (1, 1), (2, 1)] := ⟨_, rfl, rfl, rfl, rfl⟩
    refine ⟨c, hrun, hs, hr, fun h => ?_⟩
    have hlate : ((2, 1) : Nat × Nat) ∈ c.reports.map (fun r => (r.attempt, r.cause)) := by
      simp [hmem]
    obtain ⟨r, hrc, hr2⟩ := List.mem_map.mp hlate
    have hcause := h.2 r hrc
    simp only [Prod.mk.injEq] at hr2
    omega

end Sephi.Net.Tcp
