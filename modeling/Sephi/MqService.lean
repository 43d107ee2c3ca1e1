import Sephi.MessageQueue

set_option autoImplicit false

namespace Sephi.Ipc
open Transition Waiting PriorityQueue

variable {τ : Type} {kind : IndexKind}

/-- One side of the queue: the count of its blocked threads is exact, `P` holds of all that
wait, and those on their way are enough for `n`. -/
structure Waits {α β : Type} (c : Condition α β) (kind : IndexKind) (blocked : Nat)
    (P : α → Prop) (n : Nat) : Prop where
  counted : kind = .circular → blocked = c.waiting.length
  each : ∀ a ∈ c.waiting, P a
  attended : c.Attended n

namespace Waits

variable {α β : Type} {c : Condition α β} {a : α} {b : β} {blocked n : Nat} {P : α → Prop}

theorem mono {m : Nat} (hw : Waits c kind blocked P n) (hm : m ≤ n) : Waits c kind blocked P m :=
  { hw with attended := hw.attended.mono hm }

theorem block (hw : Waits c kind blocked P n) (ha : P a) :
    Waits (c.block a) kind (kind.increment blocked) P 0 := by
  have hperm := c.waiting_block a
  refine ⟨?_, fun x hx => ?_, Condition.attended_zero _⟩
  · rintro rfl
    exact (congrArg (· + 1) (hw.counted rfl)).trans hperm.length_eq.symm
  · rcases List.mem_cons.mp (hperm.mem_iff.mp hx) with rfl | hold
    · exact ha
    · exact hw.each x hold

/-- What `notify_blocked_receivers` and `notify_blocked_senders` are kept for: nobody who is
blocked is passed by. -/
theorem unheard (hw : Waits c kind blocked P n) (hn : kind.notifies blocked = false) :
    c.blocked = [] := by
  cases kind with
  | circular =>
    refine Condition.blocked_of_waiting ((hw.counted rfl).symm.trans ?_)
    simpa [IndexKind.notifies] using hn
  | plain => simp [IndexKind.notifies] at hn

theorem heed (hw : Waits c kind blocked P n) (hn : kind.notifies blocked = false) :
    Waits c kind blocked P (n + 1) :=
  { hw with attended := .inl (hw.unheard hn) }

theorem owe (hw : Waits c kind blocked P n) (b : β) : Waits (c.owe b) kind blocked P (n + 1) :=
  ⟨hw.counted, hw.each, hw.attended.owe b⟩

variable [DecidableEq α]

theorem leave (hw : Waits c kind blocked P n) (ha : a ∈ c.woken) :
    Waits (c.resume a) kind (kind.decrement blocked) P (n - 1) := by
  have hperm := Condition.waiting_resume ha
  refine ⟨?_, fun x hx => hw.each x ?_, hw.attended.resume ha⟩
  · rintro rfl
    exact congrArg (· - 1) ((hw.counted rfl).trans hperm.length_eq)
  · exact hperm.mem_iff.mpr (List.mem_cons_of_mem a hx)

theorem blockAgain (hw : Waits c kind blocked P n) (ha : a ∈ c.woken) :
    Waits ((c.resume a).block a) kind blocked P 0 := by
  have hperm := ((c.resume a).waiting_block a).trans (Condition.waiting_resume ha).symm
  exact ⟨fun hk => (hw.counted hk).trans hperm.length_eq.symm,
    fun x hx => hw.each x (hperm.mem_iff.mp hx), Condition.attended_zero _⟩

theorem wake (hw : Waits c kind blocked P n) (ha : a ∈ c.blocked) :
    Waits (c.wake a) kind blocked P n := by
  have hperm : (c.wake a).waiting.Perm c.waiting := Condition.waiting_wake ha
  exact ⟨fun hk => (hw.counted hk).trans hperm.length_eq.symm,
    fun x hx => hw.each x (hperm.mem_iff.mp hx), hw.attended.wake ha⟩

theorem notify [DecidableEq β] (hw : Waits c kind blocked P n) (hb : b ∈ c.notifying)
    {woke : Option α} (hwoke : c.CanWake woke) : Waits (c.notify b woke) kind blocked P n := by
  have hperm : (c.notify b woke).waiting.Perm c.waiting := Condition.waiting_notify hwoke
  exact ⟨fun hk => (hw.counted hk).trans hperm.length_eq.symm,
    fun x hx => hw.each x (hperm.mem_iff.mp hx), hw.attended.notify hb hwoke⟩

end Waits

theorem MqHdr.Sound.counts {h : MqHdr} (hs : h.Sound kind) (senders receivers : Nat) :
    { h with blockedSenders := senders, blockedReceivers := receivers }.Sound kind where
  placed := ⟨hs.placed.num, hs.placed.first, hs.placed.plain⟩
  distinct := hs.distinct
  exist := hs.exist
  clean := hs.clean
  ordered := hs.ordered
  len := hs.len
  data := hs.data

namespace MessageQueue

/-- The threads on their way are enough for `room` more messages to be sent and for `num`
to be received. -/
structure Sound (s : MessageQueue τ) (kind : IndexKind) (room num : Nat) : Prop where
  hdr : s.hdr.Sound kind
  top : TakesTop Message.rank s.history
  stored : contents Message.rank s.history = s.hdr.stored
  senders : Waits s.condSend kind s.hdr.blockedSenders (·.CanWait s.hdr.maxMsgSize) room
  receivers : Waits s.condRecv kind s.hdr.blockedReceivers (·.CanWait s.hdr.maxMsgSize) num

variable {s t : MessageQueue τ} {room num : Nat}

theorem Sound.returns (hs : s.Sound kind room num) (o : Outcome τ) :
    (s.returns o).Sound kind room num :=
  ⟨hs.hdr, hs.top, hs.stored, hs.senders, hs.receivers⟩

theorem Sound.mono {room' num' : Nat} (hs : s.Sound kind room num) (hr : room' ≤ room)
    (hn : num' ≤ num) : s.Sound kind room' num' :=
  { hs with senders := hs.senders.mono hr, receivers := hs.receivers.mono hn }

theorem Sound.putMessage (hs : s.Sound kind room num) (hroom : s.hdr.curNumMsg < s.hdr.maxNumMsg)
    {call : SendCall τ} (hfits : call.message.payload.length ≤ s.hdr.maxMsgSize) :
    (s.putMessage kind call).Sound kind room (num + 1) := by
  obtain ⟨_, hsize, _, hsenders, hreceivers⟩ := s.hdr.put_frame kind call.message
  have hput : Sound { s with
      hdr := s.hdr.put kind call.message
      history := s.history ++ [Op.put call.message] } kind room num := by
    refine ⟨hs.hdr.put hroom hfits, takesTop_put hs.top, ?_, ?_, ?_⟩
    · rw [contents_snoc, hs.stored]
      exact (hs.hdr.put_stored hroom call.message).symm
    · simpa only [hsenders, hsize] using hs.senders
    · simpa only [hreceivers, hsize] using hs.receivers
  cases hn : kind.notifies s.hdr.blockedReceivers with
  | true =>
    simp only [MessageQueue.putMessage, hn, if_true]
    exact { hput with receivers := hput.receivers.owe call }
  | false =>
    have hheed := hput.receivers.heed (hreceivers.symm ▸ hn)
    simp only [MessageQueue.putMessage, hn]
    exact Sound.returns { hput with receivers := hheed } _

theorem Sound.takeMessage (hs : s.Sound kind room num) (hnum : 0 < s.hdr.curNumMsg)
    (call : ReceiveCall τ) : (s.takeMessage kind call).Sound kind (room + 1) num := by
  obtain ⟨htop, hrest⟩ := hs.hdr.take_stored hnum
  have htake : Sound { s with
      hdr := (s.hdr.take kind).2
      history := s.history ++ [Op.take (s.hdr.take kind).1] } kind room num := by
    refine ⟨hs.hdr.take hnum, takesTop_take.mpr ⟨hs.top, ?_⟩, ?_, hs.senders, hs.receivers⟩
    · rw [hs.stored]
      exact htop
    · rw [contents_snoc, hs.stored]
      exact hrest.symm
  cases hn : kind.notifies s.hdr.blockedSenders with
  | true =>
    simp only [MessageQueue.takeMessage, hn, if_true]
    exact { htake with senders := htake.senders.owe _ }
  | false =>
    have hheed := htake.senders.heed hn
    simp only [MessageQueue.takeMessage, hn]
    exact Sound.returns { htake with senders := hheed } _

def Serving (s : MessageQueue τ) (kind : IndexKind) : Prop :=
  s.Sound kind (s.hdr.maxNumMsg - s.hdr.curNumMsg) s.hdr.curNumMsg

theorem Sound.putMessage_serving {call : SendCall τ} (hroom : s.hdr.curNumMsg < s.hdr.maxNumMsg)
    (hs : s.Sound kind (s.hdr.maxNumMsg - s.hdr.curNumMsg - 1) s.hdr.curNumMsg)
    (hfits : call.message.payload.length ≤ s.hdr.maxMsgSize) :
    (s.putMessage kind call).Serving kind := by
  obtain ⟨hmax, _, hcur, _, _⟩ := s.hdr.put_frame kind call.message
  have hhdr : (s.putMessage kind call).hdr = s.hdr.put kind call.message := by
    simp only [MessageQueue.putMessage]
    split_ifs <;> rfl
  rw [Serving, hhdr, hmax, hcur, Nat.sub_add_eq]
  exact hs.putMessage hroom hfits

theorem Sound.takeMessage_serving (call : ReceiveCall τ) (hnum : 0 < s.hdr.curNumMsg)
    (hs : s.Sound kind (s.hdr.maxNumMsg - s.hdr.curNumMsg) (s.hdr.curNumMsg - 1)) :
    (s.takeMessage kind call).Serving kind := by
  have hle := hs.hdr.placed.num
  have hhdr : (s.takeMessage kind call).hdr = (s.hdr.take kind).2 := by
    simp only [MessageQueue.takeMessage]
    split_ifs <;> rfl
  have hroom : (s.hdr.take kind).2.maxNumMsg - (s.hdr.take kind).2.curNumMsg =
      s.hdr.maxNumMsg - s.hdr.curNumMsg + 1 := by
    have hcur : (s.hdr.take kind).2.curNumMsg = s.hdr.curNumMsg - 1 := rfl
    have hmax : (s.hdr.take kind).2.maxNumMsg = s.hdr.maxNumMsg := rfl
    omega
  rw [Serving, hhdr, hroom]
  exact hs.takeMessage hnum call

variable [DecidableEq τ]

theorem Sound.leaveSender (hs : s.Sound kind room num) {call : SendCall τ}
    (hc : call ∈ s.condSend.woken) :
    Sound ((s.resumeSender call).unblockSender kind) kind (room - 1) num :=
  ⟨hs.hdr.counts _ _, hs.top, hs.stored, hs.senders.leave hc, hs.receivers⟩

theorem Sound.leaveReceiver (hs : s.Sound kind room num) {call : ReceiveCall τ}
    (hc : call ∈ s.condRecv.woken) :
    Sound ((s.resumeReceiver call).unblockReceiver kind) kind room (num - 1) :=
  ⟨hs.hdr.counts _ _, hs.top, hs.stored, hs.senders, hs.receivers.leave hc⟩

theorem Serving.move {e : MqEvent τ} (hs : s.Serving kind) (h : Move kind s e t) :
    t.Serving kind := by
  have hle := hs.hdr.placed.num
  have hnone (hfull : s.hdr.curNumMsg = s.hdr.maxNumMsg) :
      s.hdr.maxNumMsg - s.hdr.curNumMsg = 0 := by rw [hfull, Nat.sub_self]
  cases h with
  | sendRefused call o => exact hs.returns o
  | sendBlocks call hwaits hfull =>
    have hblock := hs.senders.block hwaits
    rw [← hnone hfull] at hblock
    exact ⟨hs.hdr.counts _ _, hs.top, hs.stored, hblock, hs.receivers⟩
  | sendPuts call hfits hroom =>
    exact Sound.putMessage_serving (Nat.lt_of_le_of_ne hle hroom)
      (Sound.mono hs (Nat.sub_le _ 1) (Nat.le_refl _)) hfits
  | receiveRefused call o => exact hs.returns o
  | receiveBlocks call hwaits hempty =>
    have hblock := hs.receivers.block hwaits
    rw [← hempty] at hblock
    exact ⟨hs.hdr.counts _ _, hs.top, hs.stored, hs.senders, hblock⟩
  | receiveTakes call henough hsome =>
    exact Sound.takeMessage_serving call (Nat.pos_of_ne_zero hsome)
      (Sound.mono hs (Nat.le_refl _) (Nat.sub_le _ 1))
  | wakeSender call hc => exact { hs with senders := hs.senders.wake hc }
  | wakeReceiver call hc => exact { hs with receivers := hs.receivers.wake hc }
  | sendTimesOut call hc htimed hfull =>
    have hleave := (Sound.leaveSender hs hc).returns (.sent call false)
    rwa [hnone hfull, Nat.zero_sub, ← hnone hfull] at hleave
  | sendBlocksAgain call hc hfull =>
    have hblock := hs.senders.blockAgain hc
    rw [← hnone hfull] at hblock
    exact { hs with senders := hblock }
  | sendPutsAgain call timedOut hc hroom =>
    have hwaits := hs.senders.each call (List.mem_append_right _ hc)
    exact Sound.putMessage_serving (Nat.lt_of_le_of_ne hle hroom) (Sound.leaveSender hs hc)
      hwaits.1
  | receiveTimesOut call hc htimed hempty =>
    have hleave := (Sound.leaveReceiver hs hc).returns (.received call none)
    rwa [hempty, Nat.zero_sub, ← hempty] at hleave
  | receiveBlocksAgain call hc hempty =>
    have hblock := hs.receivers.blockAgain hc
    rw [← hempty] at hblock
    exact { hs with receivers := hblock }
  | receiveTakesAgain call timedOut hc hsome =>
    exact Sound.takeMessage_serving call (Nat.pos_of_ne_zero hsome) (Sound.leaveReceiver hs hc)
  | notifySender call m woke hc hw =>
    exact ⟨hs.hdr, hs.top, hs.stored, hs.senders.notify hc hw, hs.receivers⟩
  | notifyReceiver call woke hc hw =>
    exact ⟨hs.hdr, hs.top, hs.stored, hs.senders, hs.receivers.notify hc hw⟩

variable {maxNumMsg maxMsgSize : Nat}

theorem serving_of_reachable (h : (machine kind maxNumMsg maxMsgSize τ).Reachable s) :
    s.Serving kind := by
  refine h.invariant (I := fun s => s.Serving kind) ?_ fun s e t hs ht => hs.move (step_move ht)
  exact ⟨MqHdr.make_sound _ _ kind, takesTop_nil, rfl,
    ⟨fun _ => rfl, fun _ hc => (nomatch hc), .inl rfl⟩,
    ⟨fun _ => rfl, fun _ hc => (nomatch hc), .inl rfl⟩⟩

/-- However sends and receives of any threads are interleaved, on both indexes, what was
received and what is stored is what was sent, each message that is received is of the
highest priority there is, and messages of one priority are received in the order in which
they were sent. -/
theorem messages_served_by_priority (kind : IndexKind) (maxNumMsg maxMsgSize : Nat) (τ : Type)
    [DecidableEq τ] (s : MessageQueue τ)
    (h : (machine kind maxNumMsg maxMsgSize τ).Reachable s) :
    Served Message.rank s.history s.hdr.stored := by
  have hserving := serving_of_reachable h
  exact hserving.stored ▸ hserving.top.served

def urgentBetween : List (MqEvent Nat) :=
  [.send ⟨1, .blocking, ⟨3, [10]⟩⟩, .send ⟨1, .blocking, ⟨5, [11]⟩⟩,
    .send ⟨1, .blocking, ⟨3, [12]⟩⟩, .receive ⟨2, .blocking, 4⟩, .receive ⟨2, .blocking, 4⟩]

theorem messages_served_by_priority_urgentBetween :
    ∃ s, (machine .circular 3 4 Nat).run urgentBetween = some s ∧
      takes s.history = [⟨5, [11]⟩, ⟨3, [10]⟩] ∧ s.hdr.stored = [⟨3, [12]⟩] ∧
      Served Message.rank s.history s.hdr.stored :=
  ⟨_, rfl, rfl, rfl, messages_served_by_priority .circular 3 4 Nat _ ⟨urgentBetween, rfl⟩⟩

end MessageQueue

end Sephi.Ipc
