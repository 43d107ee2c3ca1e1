import Sephi.Serial
import Sephi.TcpClient

set_option autoImplicit false

namespace Sephi.Net
open Transition EventLoop

namespace Tcp

def Client.Op.isRead : Client.Op → Bool
  | .read _ | .received _ _ => true
  | .connect _ | .write _ _ => false

def Client.Pending (c : Client) : Prop := c.tasks ≠ [] ∨ c.ops ≠ []

/-- Once `run()` has returned, nothing is posted and nothing is outstanding. -/
def Client.LoopOutlivesWork (c : Client) : Prop := c.runner = .returned → ¬ c.Pending

def Client.Reads (c : Client) : Prop := c.isConnected = true → ∃ op ∈ c.ops, op.isRead = true

theorem Client.Reads.pending {c : Client} (h : c.Reads) (hc : c.isConnected = true) :
    c.Pending := by
  obtain ⟨op, hop, _⟩ := h hc
  exact .inr (List.ne_nil_of_mem hop)

theorem Client.doRead_reads (c : Client) : c.doRead.Reads :=
  fun _ => ⟨.read c.socket, by simp [Client.doRead], rfl⟩

theorem Client.doWrite_ops (c : Client) {op : Client.Op} (h : op ∈ c.ops) :
    op ∈ c.doWrite.ops := by
  cases hm : c.sendingMessages <;> simp [Client.doWrite, hm, h]

theorem Client.writeTask_ops (c : Client) (chunk : Chunk) {op : Client.Op}
    (h : op ∈ c.ops) : op ∈ (c.writeTask chunk).ops := by
  simp only [Client.writeTask]
  split
  · exact Client.doWrite_ops _ h
  · exact h

theorem Client.handleWrite_ops (c : Client) (k : Nat) (chunk : Chunk)
    (inside : List Client.Call) {op : Client.Op} (h : op ∈ c.ops) :
    op ∈ (c.handleWrite k chunk 0 inside).ops := by
  simp only [Client.handleWrite, ne_eq, not_true_eq_false, if_false]
  split
  · exact Client.doWrite_ops _ h
  · exact h

theorem Client.Move.reads {c d : Client} {e : Client.Event} (h : c.Move e d)
    (hc : c.Reads) : d.Reads := by
  cases h with
  | call x =>
    intro hd
    rw [Client.call_isConnected, Bool.and_eq_true] at hd
    obtain ⟨op, hop, hr⟩ := hc hd.1
    obtain ⟨st, n, ts, hx, _, _⟩ := c.call_spec x
    exact ⟨op, by simp [hx, hop], hr⟩
  | queued chunk rest ec =>
    intro hd
    rw [Client.writeTask_isConnected] at hd
    obtain ⟨op, hop, hr⟩ := hc hd
    exact ⟨op, Client.writeTask_ops _ chunk hop, hr⟩
  | shutdown k rest ec =>
    simp only [Client.runTask]
    split <;> exact hc
  | arrive k bytes => exact hc
  | perform k packet =>
    intro _
    exact ⟨.received k packet.bytes.length, by simp [Client.perform], rfl⟩
  | failed op ec inside =>
    intro hd
    rw [Client.callBackConnectionHandler, Client.calls_isConnected] at hd
    simp [Client.isConnected] at hd
  | opened k inside => exact Client.doRead_reads _
  | packet k size inside => exact Client.doRead_reads _
  | written k chunk inside =>
    intro hd
    rw [Client.handleWrite_isConnected] at hd
    obtain ⟨op, hop, hr⟩ := hc hd
    refine ⟨op, Client.handleWrite_ops _ k chunk inside ?_, hr⟩
    refine (List.mem_erase_of_ne ?_).mpr hop
    rintro rfl
    simp [Client.Op.isRead] at hr

theorem Client.calls_runner (c : Client) (inside : List Client.Call) :
    (c.calls inside).runner = c.runner := by
  obtain ⟨st, n, ts, hc, _, _⟩ := c.calls_spec inside
  rw [hc]

theorem Client.doWrite_runner (c : Client) : c.doWrite.runner = c.runner := by
  cases hm : c.sendingMessages <;> simp [Client.doWrite, hm]

theorem Client.Move.runner_returned {c d : Client} {e : Client.Event} (h : c.Move e d)
    (hd : d.runner = .returned) : c.runner = .returned := by
  cases h with
  | call x => exact (Client.calls_runner c [x]) ▸ hd
  | queued chunk rest ec hr =>
    simp only [Client.writeTask] at hd
    split at hd
    · simp [Client.doWrite_runner, hr] at hd
    · simp [hr] at hd
  | shutdown k rest ec hr =>
    simp only [Client.runTask] at hd
    split at hd <;> simp [hr] at hd
  | arrive k bytes => exact hd
  | perform k packet hr => simp [Client.perform, hr] at hd
  | failed op ec inside hr =>
    simp [Client.callBackConnectionHandler, Client.calls_runner, Client.begin, hr] at hd
  | opened k inside hr =>
    simp [Client.doRead, Client.callBackConnectionHandler, Client.calls_runner, Client.begin,
      hr] at hd
  | packet k size inside hr =>
    simp [Client.doRead, Client.callPacketHandler, Client.calls_runner, Client.begin,
      hr] at hd
  | written k chunk inside hr =>
    simp only [Client.handleWrite, ne_eq, not_true_eq_false, if_false] at hd
    split at hd
    · simp [Client.doWrite_runner, Client.begin, hr] at hd
    · simp [Client.begin, hr] at hd

theorem Client.settle_running {c : Client} (h : c.settle.runner = .running) :
    c.settle.Pending := by
  unfold Client.settle at h ⊢
  split at h
  · simp at h
  · rename_i hn
    rw [if_neg hn]
    by_cases ht : c.tasks = []
    · exact .inr fun ho => hn ⟨h, ht, ho⟩
    · exact .inl ht

theorem Client.settle_returned {c : Client} (h : c.settle.runner = .returned) :
    ¬ c.settle.Pending ∨ c.runner = .returned := by
  unfold Client.settle at h ⊢
  split at h
  · rename_i hn
    rw [if_pos hn]
    exact .inl fun hp => hp.elim (· hn.2.1) (· hn.2.2)
  · exact .inr h

theorem Client.settle_eq {c : Client} (h : c.runner ≠ .running) : c.settle = c :=
  if_neg fun hn => h hn.1

@[simp] theorem Client.settle_reads (c : Client) : c.settle.Reads ↔ c.Reads := by
  unfold Client.settle
  split <;> rfl

theorem Client.call_idle {c : Client} (hr : c.Reads) (hp : ¬ c.Pending)
    {x : Client.Call} (hx : x ≠ .reconnect) : c.call x = c := by
  have hc : c.isConnected = false := by
    by_contra hc
    exact hp (hr.pending (by simpa using hc))
  cases x with
  | write chunk => simp [Client.call, Client.write, hc]
  | close => simp [Client.call, Client.close, hc]
  | reconnect => exact absurd rfl hx

def Client.Event.Reconnects (e : Client.Event) : Prop := e = .call .reconnect

theorem Client.Move.late {c d : Client} {e : Client.Event} (h : c.Move e d)
    (hc : c.Reads) (hr : c.runner = .returned) (hp : ¬ c.Pending) :
    d.runner = .returned ∧ (d.Pending ↔ e.Reconnects) := by
  cases h with
  | call x =>
    refine ⟨(Client.calls_runner c [x]).trans hr, ?_⟩
    by_cases hx : x = .reconnect
    · subst hx
      simp [Client.Event.Reconnects, Client.Pending, Client.call, Client.reconnect,
        Client.doConnect]
    · rw [Client.call_idle hc hp hx]
      simpa [Client.Event.Reconnects, hx] using hp
  | arrive k bytes =>
    have hp' : ¬ (c.arrive k bytes).Pending := hp
    exact ⟨hr, by simpa [Client.Event.Reconnects] using hp'⟩
  | queued _ _ _ h | shutdown _ _ _ h | perform _ _ h | failed _ _ _ h | opened _ _ h
  | packet _ _ _ h | written _ _ _ h => simp [hr] at h

theorem Client.Move.gone {c d : Client} {e : Client.Event} (h : c.Move e d)
    (hr : c.runner = .terminated) : d.runner = .terminated ∧ ¬ e.Reconnects := by
  cases h with
  | call x h => exact absurd hr h
  | arrive k bytes => exact ⟨hr, by simp [Client.Event.Reconnects]⟩
  | queued _ _ _ h | shutdown _ _ _ h | perform _ _ h | failed _ _ _ h | opened _ _ h
  | packet _ _ _ h | written _ _ _ h => simp [hr] at h

theorem Client.works :
    Works Client.machine Client.runner Client.Pending Client.Reads
      Client.Event.Reconnects where
  inv_start := by
    intro h
    simp [Client.machine, Client.start, Client.doConnect, Client.isConnected] at h
  inv_step := by
    intro s e t hs hstep
    obtain ⟨d, hm, rfl⟩ := Client.step_move hstep
    rw [Client.settle_reads]
    exact hm.reads hs
  start := ⟨rfl, .inr (by simp [Client.machine, Client.start, Client.doConnect])⟩
  busy := by
    intro s e t hstep ht
    obtain ⟨d, hm, rfl⟩ := Client.step_move hstep
    exact Client.settle_running ht
  drained := by
    intro s e t hstep hs ht
    obtain ⟨d, hm, rfl⟩ := Client.step_move hstep
    rcases Client.settle_returned ht with hp | hd
    · exact hp
    · simp [hm.runner_returned hd] at hs
  late := by
    intro s e t hs hr hp hstep
    obtain ⟨d, hm, rfl⟩ := Client.step_move hstep
    have hd := hm.late hs hr hp
    rwa [Client.settle_eq (by simp [hd.1])]
  gone := by
    intro s e t hr hstep
    obtain ⟨d, hm, rfl⟩ := Client.step_move hstep
    have hd := hm.gone hr
    rwa [Client.settle_eq (by simp [hd.1])]

end Tcp

namespace Serial

def Op.isRead : Op → Bool
  | .read _ | .received _ _ => true
  | .write _ _ => false

def Pending (c : Serial) : Prop := c.tasks ≠ [] ∨ c.ops ≠ []

def LoopOutlivesWork (c : Serial) : Prop := c.runner = .returned → ¬ c.Pending

def Reads (c : Serial) : Prop := c.isOpened = true → ∃ op ∈ c.ops, op.isRead = true

theorem Reads.pending {c : Serial} (h : c.Reads) (hc : c.isOpened = true) : c.Pending := by
  obtain ⟨op, hop, _⟩ := h hc
  exact .inr (List.ne_nil_of_mem hop)

theorem doRead_reads (c : Serial) : c.doRead.Reads :=
  fun _ => ⟨.read c.port, by simp [doRead], rfl⟩

theorem doWrite_ops (c : Serial) {op : Op} (h : op ∈ c.ops) : op ∈ c.doWrite.ops := by
  cases hm : c.sendingMessages <;> simp [doWrite, hm, h]

theorem writeTask_ops (c : Serial) (chunk : Chunk) {op : Op} (h : op ∈ c.ops) :
    op ∈ (c.writeTask chunk).ops := by
  simp only [writeTask]
  split
  · exact doWrite_ops _ h
  · exact h

theorem handleWrite_ops (c : Serial) (k : Nat) (chunk : Chunk) (inside : List Call)
    {op : Op} (h : op ∈ c.ops) : op ∈ (c.handleWrite k chunk 0 inside).ops := by
  simp only [handleWrite, ne_eq, not_true_eq_false, if_false]
  split
  · exact doWrite_ops _ h
  · exact h

theorem Move.reads {c d : Serial} {e : Event} (h : c.Move e d) (hc : c.Reads) :
    d.Reads := by
  cases h with
  | call x =>
    intro hd
    rw [call_isOpened, Bool.and_eq_true] at hd
    obtain ⟨op, hop, hr⟩ := hc hd.1
    obtain ⟨st, n, p, ts, u, k, hx, _⟩ := c.call_spec x
    exact ⟨op, by simp [hx, hop], hr⟩
  | queued chunk rest device inside =>
    intro hd
    rw [writeTask_isOpened] at hd
    obtain ⟨op, hop, hr⟩ := hc hd
    exact ⟨op, writeTask_ops _ chunk hop, hr⟩
  | closed | thrown | arrive => exact hc
  | perform k packet =>
    intro _
    exact ⟨.received k packet.bytes.length, by simp [Serial.perform], rfl⟩
  | refused | failed =>
    intro hd
    simp [callBackConnectionHandler_isOpened] at hd
  | opened | data => exact doRead_reads _
  | written k chunk inside =>
    intro hd
    rw [handleWrite_isOpened] at hd
    obtain ⟨op, hop, hr⟩ := hc hd
    refine ⟨op, handleWrite_ops _ k chunk inside ?_, hr⟩
    refine (List.mem_erase_of_ne ?_).mpr hop
    rintro rfl
    simp [Op.isRead] at hr

theorem calls_runner (c : Serial) (inside : List Call) :
    (c.calls inside).runner = c.runner := by
  obtain ⟨st, n, p, ts, u, k, hc, _⟩ := c.calls_spec inside
  rw [hc]

theorem doWrite_runner (c : Serial) : c.doWrite.runner = c.runner := by
  cases hm : c.sendingMessages <;> simp [doWrite, hm]

theorem Move.runner_returned {c d : Serial} {e : Event} (h : c.Move e d)
    (hd : d.runner = .returned) : c.runner = .returned := by
  cases h with
  | call x => exact (calls_runner c [x]) ▸ hd
  | queued chunk rest device inside hr =>
    simp only [writeTask] at hd
    split at hd
    · simp [doWrite_runner, hr] at hd
    · simp [hr] at hd
  | closed _ _ _ hr => simp [hr] at hd
  | thrown => simp at hd
  | opened rest device inside hr =>
    simp [doRead, callBackConnectionHandler, calls_runner, hr] at hd
  | refused rest p ec device inside hr =>
    simp [callBackConnectionHandler, calls_runner, hr] at hd
  | arrive k bytes => exact hd
  | perform k packet hr => simp [Serial.perform, hr] at hd
  | failed op ec inside hr =>
    simp [callBackConnectionHandler, calls_runner, begin, hr] at hd
  | data k size inside hr =>
    simp [doRead, callDataHandler, calls_runner, begin, hr] at hd
  | written k chunk inside hr =>
    simp only [handleWrite, ne_eq, not_true_eq_false, if_false] at hd
    split at hd
    · simp [doWrite_runner, begin, hr] at hd
    · simp [begin, hr] at hd

theorem settle_running {c : Serial} (h : c.settle.runner = .running) :
    c.settle.Pending := by
  unfold settle at h ⊢
  split at h
  · simp at h
  · rename_i hn
    rw [if_neg hn]
    by_cases ht : c.tasks = []
    · exact .inr fun ho => hn ⟨h, ht, ho⟩
    · exact .inl ht

theorem settle_returned {c : Serial} (h : c.settle.runner = .returned) :
    ¬ c.settle.Pending ∨ c.runner = .returned := by
  unfold settle at h ⊢
  split at h
  · rename_i hn
    rw [if_pos hn]
    exact .inl fun hp => hp.elim (· hn.2.1) (· hn.2.2)
  · exact .inr h

theorem settle_eq {c : Serial} (h : c.runner ≠ .running) : c.settle = c :=
  if_neg fun hn => h hn.1

@[simp] theorem settle_reads (c : Serial) : c.settle.Reads ↔ c.Reads := by
  unfold settle
  split <;> rfl

/-- The application's calls between handlers that post something whatever the state. -/
def Event.Reopens (e : Event) : Prop := e = .call .reopen ∨ e = .call .close

theorem write_idle {c : Serial} (hr : c.Reads) (hp : ¬ c.Pending) (chunk : Chunk) :
    c.call (.write chunk) = c := by
  have hc : c.isOpened = false := by
    by_contra hc
    exact hp (hr.pending (by simpa using hc))
  simp [call, write, hc]

theorem Move.late {c d : Serial} {e : Event} (h : c.Move e d) (hc : c.Reads)
    (hr : c.runner = .returned) (hp : ¬ c.Pending) :
    d.runner = .returned ∧ (d.Pending ↔ e.Reopens) := by
  cases h with
  | call x =>
    refine ⟨(calls_runner c [x]).trans hr, ?_⟩
    cases x with
    | write chunk =>
      rw [write_idle hc hp]
      simpa [Event.Reopens] using hp
    | close => simp [Event.Reopens, Pending, Serial.call, close]
    | reopen => simp [Event.Reopens, Pending, Serial.call, reopen, close, doOpen]
    | flush =>
      obtain ⟨u, k, hflush⟩ := c.flush_eq
      have hp' : ¬ (c.call .flush).Pending := by
        rw [Serial.call, hflush]
        exact hp
      simpa [Event.Reopens] using hp'
  | arrive k bytes =>
    have hp' : ¬ (c.arrive k bytes).Pending := hp
    exact ⟨hr, by simpa [Event.Reopens] using hp'⟩
  | queued _ _ _ _ h | closed _ _ _ h | thrown _ _ _ _ _ h | opened _ _ _ h
  | refused _ _ _ _ _ h | perform _ _ h | failed _ _ _ h | data _ _ _ h
  | written _ _ _ h => simp [hr] at h

theorem Move.gone {c d : Serial} {e : Event} (h : c.Move e d)
    (hr : c.runner = .terminated) : d.runner = .terminated ∧ ¬ e.Reopens := by
  cases h with
  | call x h => exact absurd hr h
  | arrive k bytes => exact ⟨hr, by simp [Event.Reopens]⟩
  | queued _ _ _ _ h | closed _ _ _ h | thrown _ _ _ _ _ h | opened _ _ _ h
  | refused _ _ _ _ _ h | perform _ _ h | failed _ _ _ h | data _ _ _ h
  | written _ _ _ h => simp [hr] at h

theorem works (params : Serial.SerialParams) :
    Works (machine params) runner Pending Reads Event.Reopens where
  inv_start := by
    intro h
    simp [machine, start, doOpen, isOpened] at h
  inv_step := by
    intro s e t hs hstep
    obtain ⟨d, hm, rfl⟩ := step_move hstep
    rw [settle_reads]
    exact hm.reads hs
  start := ⟨rfl, .inl (by simp [machine, start, doOpen])⟩
  busy := by
    intro s e t hstep ht
    obtain ⟨d, hm, rfl⟩ := step_move hstep
    exact settle_running ht
  drained := by
    intro s e t hstep hs ht
    obtain ⟨d, hm, rfl⟩ := step_move hstep
    rcases settle_returned ht with hp | hd
    · exact hp
    · simp [hm.runner_returned hd] at hs
  late := by
    intro s e t hs hr hp hstep
    obtain ⟨d, hm, rfl⟩ := step_move hstep
    have hd := hm.late hs hr hp
    rwa [settle_eq (by simp [hd.1])]
  gone := by
    intro s e t hr hstep
    obtain ⟨d, hm, rfl⟩ := step_move hstep
    have hd := hm.gone hr
    rwa [settle_eq (by simp [hd.1])]

end Serial

open Tcp

/-- `run()` never returns ahead of work exactly in the runs where the application does not
call `reconnect`, or `reopen` or `close` of a serial port, between handlers at a moment
when nothing is posted and nothing is outstanding. -/
theorem loop_outlives_work_iff_no_late_call (es : List Client.Event) (c : Client)
    (hc : Client.machine.run es = some c) (params : Serial.SerialParams) (fs : List Serial.Event)
    (d : Serial) (hd : (Serial.machine params).run fs = some d) :
    (Client.machine.Throughout Client.LoopOutlivesWork es ↔
      Client.machine.EachStep (fun c e => e.Reconnects → c.Pending) es) ∧
    ((Serial.machine params).Throughout Serial.LoopOutlivesWork fs ↔
      (Serial.machine params).EachStep (fun c e => e.Reopens → c.Pending) fs) :=
  ⟨Client.works.outlives_iff hc, (Serial.works params).outlives_iff hd⟩

/-- The connect is refused, the application's handler only notes it, and a moment later
the application calls `reconnect`. -/
def reconnectAfterRefusal : List Client.Event :=
  [.complete (.connect 1) 111 [], .call .reconnect]

theorem loop_returns_before_reconnect :
    ∃ c, Client.machine.run reconnectAfterRefusal = some c ∧ c.runner = .returned ∧
      c.ops = [.connect 2] ∧ ¬ c.LoopOutlivesWork := by
  obtain ⟨c, hrun, hr, hops⟩ : ∃ c, Client.machine.run reconnectAfterRefusal = some c ∧
      c.runner = .returned ∧ c.ops = [.connect 2] := ⟨_, rfl, rfl, rfl⟩
  exact ⟨c, hrun, hr, hops, fun h => h hr (.inr (by simp [hops]))⟩

/-- The same with the call made inside the handler, as a handler that always reconnects
makes it. -/
def reconnectInsideRefusal : List Client.Event :=
  [.complete (.connect 1) 111 [.reconnect], .complete (.connect 2) 0 []]

def reopenInsideRefusal : List Serial.Event :=
  [.task (.steady 2) [.reopen], .task (.steady 0) [], .task (.steady 0) [.write [1]],
    .task (.steady 0) [], .call (.write [2]), .complete (.write 2 [1]) 0 []]

theorem loop_outlives_reconnectInsideRefusal :
    Client.machine.Throughout Client.LoopOutlivesWork reconnectInsideRefusal ∧
    (Serial.machine (Serial.serialParams8N1 .br9600)).Throughout
      Serial.LoopOutlivesWork reopenInsideRefusal := by
  obtain ⟨hclient, hserial⟩ := loop_outlives_work_iff_no_late_call reconnectInsideRefusal _
    rfl (Serial.serialParams8N1 .br9600) reopenInsideRefusal _ rfl
  have hnone : ∀ e ∈ reconnectInsideRefusal, ¬ e.Reconnects := by
    simp [reconnectInsideRefusal, Client.Event.Reconnects]
  have hnone' : ∀ e ∈ reopenInsideRefusal, ¬ e.Reopens := by
    simp [reopenInsideRefusal, Serial.Event.Reopens]
  refine ⟨hclient.mpr ?_, hserial.mpr ?_⟩
  · intro pre e s hpre _ he
    exact absurd he (hnone e (hpre.subset (by simp)))
  · intro pre e s hpre _ he
    exact absurd he (hnone' e (hpre.subset (by simp)))

end Sephi.Net
