import Sephi.Inbox
import Sephi.Outbox
import Sephi.TcpClient

set_option autoImplicit false

namespace Sephi.Net.Tcp
open Transition Inbox

def Client.Op.reading? : Client.Op → Option (Nat × Option Nat)
  | .read k => some (k, none)
  | .received k size => some (k, some size)
  | .connect _ | .write _ _ => none

def Client.Callback.bytes : Client.Callback → Chunk
  | .packet data => data
  | .connection _ _ => []

def Client.delivered (c : Client) (k : Nat) : Chunk :=
  c.reports.flatMap fun r => if r.cause = k then r.callback.bytes else []

def Client.inbox (c : Client) : Reader Nat UInt8 where
  reads := c.ops.filterMap Client.Op.reading?
  buffer := c.receivedPacket.data
  unread := c.unread
  arrived := c.arrived
  delivered := c.delivered

/-- At most one `async_read_some` into `received_packet_` is outstanding, and what was
delivered of each connection is a prefix of what the peer sent on it. -/
def Client.ReadsAlone (c : Client) : Prop :=
  (c.ops.filterMap Client.Op.reading?).length ≤ 1 ∧
    ∀ k, c.delivered k <+: c.arrived k

/-- A successful connect is handled only when no read is outstanding. -/
def Client.OpensAlone (c : Client) : Client.Event → Prop
  | .complete (.connect _) ec _ => ec = 0 → c.ops.filterMap Client.Op.reading? = []
  | _ => True

@[simp] theorem Client.settle_inbox (c : Client) : c.settle.inbox = c.inbox := by
  unfold Client.settle
  split <;> rfl

@[simp] theorem Client.filterMap_reading_connects (k n : Nat) :
    (Client.connects k n).filterMap Client.Op.reading? = [] := by
  rw [List.filterMap_eq_nil_iff]
  intro op hop
  obtain ⟨i, _, rfl⟩ := Client.mem_connects.mp hop
  rfl

theorem Client.delivered_eq {c d : Client} (h : d.reports = c.reports) :
    d.delivered = c.delivered := by
  funext k
  simp [Client.delivered, h]

@[simp] theorem Client.calls_inbox (c : Client) (inside : List Client.Call) :
    (c.calls inside).inbox = c.inbox := by
  obtain ⟨st, n, ts, hc, _, _⟩ := c.calls_spec inside
  rw [hc]
  simp only [Client.inbox, List.filterMap_append, Client.filterMap_reading_connects,
    List.append_nil, Reader.mk.injEq, true_and]
  exact Client.delivered_eq rfl

theorem Client.doRead_inbox (c : Client) :
    c.doRead.inbox = { c.inbox with reads := c.inbox.reads ++ [(c.socket, none)] } := by
  simp only [Client.doRead, Client.inbox, List.filterMap_append, Reader.mk.injEq, true_and]
  exact ⟨rfl, Client.delivered_eq rfl⟩

@[simp] theorem Client.doWrite_inbox (c : Client) : c.doWrite.inbox = c.inbox := by
  cases hm : c.sendingMessages with
  | nil => simp [Client.doWrite, hm]
  | cons message rest =>
    simp only [Client.doWrite, hm, Client.inbox, List.filterMap_append, Reader.mk.injEq,
      true_and]
    exact ⟨by simp [Client.Op.reading?], Client.delivered_eq rfl⟩

@[simp] theorem Client.writeTask_inbox (c : Client) (chunk : Chunk) :
    (c.writeTask chunk).inbox = c.inbox := by
  simp only [Client.writeTask]
  split
  · exact Client.doWrite_inbox _
  · rfl

theorem Client.callBackConnectionHandler_inbox (c : Client) (cause : Nat)
    (state : ConnectionState) (ec : ErrorCode) (inside : List Client.Call) :
    (c.callBackConnectionHandler cause state ec inside).inbox = c.inbox := by
  rw [Client.callBackConnectionHandler, Client.calls_inbox]
  simp only [Client.inbox, Reader.mk.injEq, true_and]
  funext k
  simp [Client.delivered, Client.Callback.bytes]

theorem Client.callPacketHandler_inbox (c : Client) (k size : Nat)
    (inside : List Client.Call) :
    (c.callPacketHandler k size inside).inbox =
      { c.inbox with
        delivered := Function.update c.delivered k
          (c.delivered k ++ c.inbox.buffer.take size) } := by
  rw [Client.callPacketHandler, Client.calls_inbox]
  simp only [Client.inbox, Reader.mk.injEq, true_and]
  funext j
  by_cases hj : j = k
  · subst hj
    simp [Client.delivered, Client.Callback.bytes, PacketBuffer.view]
  · simp [Client.delivered, Function.update_of_ne hj, Ne.symm hj]

theorem Client.begin_inbox {c : Client} {op : Client.Op} (hop : op ∈ c.ops)
    (hn : op.reading? = none) (ec : ErrorCode) : (c.begin op ec).inbox = c.inbox := by
  simp only [Client.begin, Client.inbox, Reader.mk.injEq, true_and]
  exact ⟨Outbox.filterMap_erase_none hop hn, Client.delivered_eq rfl⟩

theorem Client.begin_read_inbox {c : Client} {op : Client.Op} {a : Nat × Option Nat}
    (hop : op ∈ c.ops) (ha : op.reading? = some a) (ec : ErrorCode) :
    ∃ l r, c.inbox.reads = l ++ a :: r ∧
      (c.begin op ec).inbox = { c.inbox with reads := l ++ r } := by
  obtain ⟨l, r, ho, he⟩ := Outbox.filterMap_erase_some (f := Client.Op.reading?) hop ha
  refine ⟨l, r, ho, ?_⟩
  simp only [Client.begin, Client.inbox, Reader.mk.injEq, true_and]
  exact ⟨he, Client.delivered_eq rfl⟩

theorem Client.perform_inbox {c : Client} {k : Nat} {packet : Packet}
    (hop : .read k ∈ c.ops) (hp : packet.bytes <+: c.unread k) :
    Reader.Step c.inbox (c.perform k packet).inbox := by
  obtain ⟨l, r, ho, he⟩ :=
    Outbox.filterMap_erase_some (f := Client.Op.reading?) hop rfl
  obtain ⟨rest, hrest⟩ := hp
  have hdrop : (c.unread k).drop packet.bytes.length = rest := by
    rw [← hrest, List.drop_left]
  have hinbox : (c.perform k packet).inbox = { c.inbox with
      reads := l ++ r ++ [(k, some packet.bytes.length)]
      buffer := (c.receivedPacket.fill packet).data
      unread := Function.update c.unread k rest } := by
    simp only [Client.perform, Client.inbox, List.filterMap_append, he, hdrop,
      Reader.mk.injEq, true_and]
    exact ⟨rfl, Client.delivered_eq rfl⟩
  rw [hinbox]
  exact .perform c.inbox k l r packet.bytes rest _ ho hrest.symm
    (PacketBuffer.view_fill c.receivedPacket packet)

theorem Client.perform_inbox_sound {c : Client} {k : Nat} {packet : Packet}
    (hc : c.inbox.Sound) (hop : .read k ∈ c.ops) (hp : packet.bytes <+: c.unread k) :
    (c.perform k packet).inbox.Sound := by
  refine (Client.perform_inbox hop hp).sound hc ?_
  obtain ⟨l, r, ho, hl⟩ :=
    Outbox.filterMap_erase_some (f := Client.Op.reading?) hop rfl
  have hone := hc.single
  simp only [Client.inbox] at hone
  rw [ho] at hone
  simp only [Client.perform, Client.inbox, List.filterMap_append, hl]
  simp [Client.Op.reading?] at hone ⊢
  omega

theorem Client.begin_failed_inbox_sound {c : Client} {op : Client.Op} {ec : ErrorCode}
    (hc : c.inbox.Sound) (hop : op ∈ c.ops) (hec : ec ≠ 0) (hy : op.Yields ec) :
    (c.begin op ec).inbox.Sound := by
  cases hr : op.reading? with
  | none => exact (Client.begin_inbox hop hr ec).symm ▸ hc
  | some a =>
    obtain ⟨l, r, ho, hb⟩ := Client.begin_read_inbox hop hr ec
    obtain ⟨rfl, rfl⟩ := hc.only ho
    rw [hb]
    cases op with
    | read k =>
      cases hr
      exact (Reader.Step.fail c.inbox k [] [] ho).sound hc (by simp)
    | received k size => exact absurd hy hec
    | connect k | write k chunk => simp [Client.Op.reading?] at hr

theorem Client.Move.inbox_sound {c d : Client} {e : Client.Event} (h : c.Move e d)
    (hc : c.inbox.Sound) (he : c.OpensAlone e) : d.inbox.Sound := by
  cases h with
  | call x => simpa [Client.calls] using (c.calls_inbox [x]).symm ▸ hc
  | queued chunk rest ec _ ht =>
    rw [Client.writeTask_inbox]
    exact hc
  | shutdown k rest ec =>
    simp only [Client.runTask]
    split
    · exact hc
    · exact hc
  | arrive k bytes => exact (Reader.Step.arrive c.inbox k bytes).sound hc hc.single
  | perform k packet _ hop _ hp => exact Client.perform_inbox_sound hc hop hp
  | failed op ec inside _ hop hec hy =>
    rw [Client.callBackConnectionHandler_inbox]
    exact Client.begin_failed_inbox_sound hc hop hec hy
  | opened k inside _ hop =>
    have hnone : c.inbox.reads = [] := he rfl
    rw [Client.doRead_inbox, Client.callBackConnectionHandler_inbox,
      Client.begin_inbox hop rfl]
    exact (Reader.Step.start c.inbox _).sound hc (by simp [hnone])
  | packet k size inside _ hop =>
    obtain ⟨l, r, ho, hb⟩ := Client.begin_read_inbox hop rfl 0
    obtain ⟨rfl, rfl⟩ := hc.only ho
    rw [Client.doRead_inbox, Client.callPacketHandler_inbox, hb]
    have hgiven := (Reader.Step.deliver c.inbox k size [] [] ho).sound hc (by simp)
    exact (Reader.Step.start _ _).sound hgiven (by simp)
  | written k chunk inside _ hop =>
    have hb := Client.begin_inbox hop rfl 0
    simp only [Client.handleWrite, ne_eq, not_true_eq_false, if_false]
    split
    · rw [Client.doWrite_inbox]
      exact hb.symm ▸ hc
    · exact hb.symm ▸ hc

theorem Client.Move.second_read {c d : Client} {e : Client.Event} (h : c.Move e d)
    (he : ¬ c.OpensAlone e) : 1 < d.inbox.reads.length := by
  cases h with
  | opened k inside _ hop =>
    have hsome : c.inbox.reads ≠ [] := fun hnone => he fun _ => hnone
    rw [Client.doRead_inbox, Client.callBackConnectionHandler_inbox,
      Client.begin_inbox hop rfl]
    have hpos := List.length_pos_iff.mpr hsome
    simpa using hpos
  | failed op ec inside _ _ hec =>
    cases op with
    | connect k => exact absurd (fun h0 => absurd h0 hec) he
    | read k | received k size | write k chunk => exact absurd trivial he
  | call | queued | shutdown | arrive | perform | packet | written =>
    exact absurd trivial he

theorem Client.inbox_sound_start : Client.machine.start.inbox.Sound :=
  ⟨Nat.zero_le 1, fun _ => rfl⟩

theorem Client.readsAlone_of_sound {c : Client} (h : c.inbox.Sound) : c.ReadsAlone :=
  ⟨h.single, h.delivered_initial⟩

/-- `received_packet_` has one reader in every state of a run exactly when no successful
connect of the run is handled while a read is outstanding. -/
theorem Client.reads_alone_iff_opens_alone (es : List Client.Event) (c : Client)
    (hrun : Client.machine.run es = some c) :
    Client.machine.Throughout Client.ReadsAlone es ↔
      Client.machine.EachStep Client.OpensAlone es := by
  refine Machine.throughout_iff_eachStep (I := fun c => c.inbox.Sound)
    Client.inbox_sound_start (fun _ hc => Client.readsAlone_of_sound hc) ?_ ?_ hrun
  · intro c e d hc he hstep
    obtain ⟨d', hm, rfl⟩ := Client.step_move hstep
    rw [Client.settle_inbox]
    exact hm.inbox_sound hc he
  · intro c e d _ he hstep hd
    obtain ⟨d', hm, rfl⟩ := Client.step_move hstep
    have htwo := hm.second_read he
    rw [← Client.settle_inbox] at htwo
    exact absurd hd.1 (Nat.not_le.mpr htwo)

def readAbortedFirst : List Client.Event :=
  [.complete (.connect 1) 0 [], .call .reconnect, .complete (.read 1) 125 [],
    .complete (.connect 2) 0 []]

theorem Client.reads_alone_readAbortedFirst :
    Client.machine.Throughout Client.ReadsAlone readAbortedFirst := by
  refine (Client.reads_alone_iff_opens_alone readAbortedFirst _ rfl).mpr ?_
  refine (Machine.eachStep_snoc (readAbortedFirst.take 3) rfl).mpr
    ⟨?_, fun _ => rfl⟩
  refine (Machine.eachStep_snoc (readAbortedFirst.take 2) rfl).mpr ⟨?_, trivial⟩
  refine (Machine.eachStep_snoc (readAbortedFirst.take 1) rfl).mpr ⟨?_, trivial⟩
  exact (Machine.eachStep_snoc [] rfl).mpr ⟨Machine.eachStep_nil _, fun _ => rfl⟩

/-- The packet handler reconnects, and `handle_read` goes on to read from the socket that
is still connecting. The connect starts a second read, which takes the second byte while
the first is still in `received_packet_`. -/
def reconnectInPacketHandler : List Client.Event :=
  [.complete (.connect 1) 0 [], .arrive 1 [9], .perform 1 (.byte 9),
    .complete (.received 1 1) 0 [.reconnect], .complete (.connect 2) 0 [],
    .arrive 2 [1, 2], .perform 2 (.byte 1),
    .perform 2 (.byte 2), .complete (.received 2 1) 0 []]

theorem Client.byte_overwritten_after_reconnect :
    (∃ c, Client.machine.run (reconnectInPacketHandler.take 5) = some c ∧
      c.ops = [.read 2, .read 2] ∧ ¬ c.ReadsAlone) ∧
    (∃ c, Client.machine.run reconnectInPacketHandler = some c ∧ c.arrived 2 = [1, 2] ∧
      c.delivered 2 = [2] ∧ ¬ c.delivered 2 <+: c.arrived 2) := by
  constructor
  · obtain ⟨c, hrun, hops⟩ : ∃ c,
        Client.machine.run (reconnectInPacketHandler.take 5) = some c ∧
          c.ops = [.read 2, .read 2] := ⟨_, rfl, rfl⟩
    refine ⟨c, hrun, hops, fun h => ?_⟩
    have hone := h.1
    simp [hops, Client.Op.reading?] at hone
  · obtain ⟨c, hrun, ha, hd⟩ : ∃ c, Client.machine.run reconnectInPacketHandler = some c ∧
        c.arrived 2 = [1, 2] ∧ c.delivered 2 = [2] := ⟨_, rfl, rfl, rfl⟩
    refine ⟨c, hrun, ha, hd, ?_⟩
    rw [ha, hd]
    decide

end Sephi.Net.Tcp
