import Sephi.MqCalls

set_option autoImplicit false

namespace Sephi.Ipc
open Transition Waiting PriorityQueue

variable {τ : Type}

theorem MqHdr.pos_of_isEmpty {h : MqHdr} (hn : ¬ h.isEmpty = true) : 0 < h.curNumMsg :=
  Nat.pos_of_ne_zero fun h0 => hn (beq_iff_eq.mpr h0)

namespace MessageQueue

/-- The queue `t`, with a plain index, is where `s`, with a circular one, is, but for the
notifications `xr` and `xs` that only `t` has to make. -/
structure Lags (s t : MessageQueue τ) (xr : List (SendCall τ))
    (xs : List (ReceiveCall τ × Message)) : Prop where
  sizes : t.hdr.maxNumMsg = s.hdr.maxNumMsg ∧ t.hdr.maxMsgSize = s.hdr.maxMsgSize
  history : t.history = s.history
  senders : Condition.Told s.condSend t.condSend xs
  receivers : Condition.Told s.condRecv t.condRecv xr
  answers : t.answers.Perm s.answers

variable {s t : MessageQueue τ} {xr : List (SendCall τ)} {xs : List (ReceiveCall τ × Message)}
  {room num room' num' : Nat}

theorem Lags.stored (h : Lags s t xr xs) (hs : s.Sound .circular room num)
    (ht : t.Sound .plain room' num') : t.hdr.stored = s.hdr.stored := by
  rw [← hs.stored, ← ht.stored, h.history]

theorem Lags.curNumMsg (h : Lags s t xr xs) (hs : s.Sound .circular room num)
    (ht : t.Sound .plain room' num') : t.hdr.curNumMsg = s.hdr.curNumMsg := by
  rw [← MqHdr.stored_length, ← MqHdr.stored_length, h.stored hs ht]

theorem Lags.isFull (h : Lags s t xr xs) (hs : s.Sound .circular room num)
    (ht : t.Sound .plain room' num') : t.hdr.isFull = s.hdr.isFull := by
  rw [MqHdr.isFull, MqHdr.isFull, h.curNumMsg hs ht, h.sizes.1]

theorem Lags.isEmpty (h : Lags s t xr xs) (hs : s.Sound .circular room num)
    (ht : t.Sound .plain room' num') : t.hdr.isEmpty = s.hdr.isEmpty := by
  rw [MqHdr.isEmpty, MqHdr.isEmpty, h.curNumMsg hs ht]

theorem Lags.returns (h : Lags s t xr xs) (o : Outcome τ) :
    Lags (s.returns o) (t.returns o) xr xs :=
  ⟨h.sizes, h.history, h.senders, h.receivers,
    (answers_returns t o).trans ((h.answers.cons o).trans (answers_returns s o).symm)⟩

theorem sizes_putMessage (s : MessageQueue τ) (kind : IndexKind) (call : SendCall τ) :
    (s.putMessage kind call).hdr.maxNumMsg = s.hdr.maxNumMsg ∧
      (s.putMessage kind call).hdr.maxMsgSize = s.hdr.maxMsgSize := by
  obtain ⟨hmax, hsize, _⟩ := s.hdr.put_frame kind call.message
  simp only [putMessage]
  split_ifs <;> exact ⟨hmax, hsize⟩

theorem sizes_takeMessage (s : MessageQueue τ) (kind : IndexKind) (call : ReceiveCall τ) :
    (s.takeMessage kind call).hdr.maxNumMsg = s.hdr.maxNumMsg ∧
      (s.takeMessage kind call).hdr.maxMsgSize = s.hdr.maxMsgSize := by
  simp only [takeMessage]
  split_ifs <;> exact ⟨rfl, rfl⟩

theorem Lags.putMessage (h : Lags s t xr xs) (hs : s.Sound .circular room num)
    (call : SendCall τ) :
    Lags (s.putMessage .circular call) (t.putMessage .plain call) xr xs ∨
      (s.putMessage .circular call).condRecv.blocked = [] ∧
        Lags (s.putMessage .circular call) (t.putMessage .plain call) (xr ++ [call]) xs := by
  have hsizes : (t.putMessage .plain call).hdr.maxNumMsg =
        (s.putMessage .circular call).hdr.maxNumMsg ∧
      (t.putMessage .plain call).hdr.maxMsgSize =
        (s.putMessage .circular call).hdr.maxMsgSize := by
    rw [(sizes_putMessage _ _ _).1, (sizes_putMessage _ _ _).2, (sizes_putMessage _ _ _).1,
      (sizes_putMessage _ _ _).2]
    exact h.sizes
  have hhistory : (t.putMessage .plain call).history = (s.putMessage .circular call).history := by
    rw [history_putMessage, history_putMessage, h.history]
  have hanswers := (answers_putMessage t .plain call).trans
    ((h.answers.cons _).trans (answers_putMessage s .circular call).symm)
  cases hn : IndexKind.circular.notifies s.hdr.blockedReceivers with
  | true =>
    refine .inl ⟨hsizes, hhistory, ?_, ?_, hanswers⟩
    · simp only [MessageQueue.putMessage, hn, if_true]
      exact h.senders
    · simp only [MessageQueue.putMessage, hn, if_true]
      exact h.receivers.owe call
  | false =>
    have hblocked := hs.receivers.unheard hn
    refine .inr ⟨?_, hsizes, hhistory, ?_, ?_, hanswers⟩
    · simp only [MessageQueue.putMessage, hn]
      exact hblocked
    · simp only [MessageQueue.putMessage, hn]
      exact h.senders
    · simp only [MessageQueue.putMessage, hn]
      exact h.receivers.oweMore call

theorem Lags.takeMessage (h : Lags s t xr xs) (hs : s.Sound .circular room num)
    (ht : t.Sound .plain room' num') (hn : 0 < s.hdr.curNumMsg) (call : ReceiveCall τ) :
    Lags (s.takeMessage .circular call) (t.takeMessage .plain call) xr xs ∨
      ∃ m, (s.takeMessage .circular call).condSend.blocked = [] ∧
        Lags (s.takeMessage .circular call) (t.takeMessage .plain call) xr
          (xs ++ [(call, m)]) := by
  have hsame : (t.hdr.take .plain).1 = (s.hdr.take .circular).1 := by
    have htop := (ht.hdr.take_stored (h.curNumMsg hs ht ▸ hn)).1
    rw [h.stored hs ht, (hs.hdr.take_stored hn).1] at htop
    exact (Option.some.inj htop).symm
  have hsizes : (t.takeMessage .plain call).hdr.maxNumMsg =
        (s.takeMessage .circular call).hdr.maxNumMsg ∧
      (t.takeMessage .plain call).hdr.maxMsgSize =
        (s.takeMessage .circular call).hdr.maxMsgSize := by
    rw [(sizes_takeMessage _ _ _).1, (sizes_takeMessage _ _ _).2, (sizes_takeMessage _ _ _).1,
      (sizes_takeMessage _ _ _).2]
    exact h.sizes
  have hhistory : (t.takeMessage .plain call).history =
      (s.takeMessage .circular call).history := by
    rw [history_takeMessage, history_takeMessage, h.history, hsame]
  have hanswers : (t.takeMessage .plain call).answers.Perm
      (s.takeMessage .circular call).answers := by
    have ht := answers_takeMessage t .plain call
    rw [hsame] at ht
    exact ht.trans ((h.answers.cons _).trans (answers_takeMessage s .circular call).symm)
  cases hb : IndexKind.circular.notifies s.hdr.blockedSenders with
  | true =>
    refine .inl ⟨hsizes, hhistory, ?_, ?_, hanswers⟩
    · simp only [MessageQueue.takeMessage, hb, if_true, ← hsame]
      exact h.senders.owe _
    · simp only [MessageQueue.takeMessage, hb, if_true]
      exact h.receivers
  | false =>
    have hblocked := hs.senders.unheard hb
    refine .inr ⟨(t.hdr.take .plain).1, ?_, hsizes, hhistory, ?_, ?_, hanswers⟩
    · simp only [MessageQueue.takeMessage, hb]
      exact hblocked
    · simp only [MessageQueue.takeMessage, hb]
      exact h.senders.oweMore _
    · simp only [MessageQueue.takeMessage, hb]
      exact h.receivers

/-- What `t` may have to make up for after a step: one notification that nobody hears. -/
def Follows (s t : MessageQueue τ) (xr : List (SendCall τ))
    (xs : List (ReceiveCall τ × Message)) : Prop :=
  Lags s t xr xs ∨
    (∃ call, s.condRecv.blocked = [] ∧ Lags s t (xr ++ [call]) xs) ∨
    ∃ c, s.condSend.blocked = [] ∧ Lags s t xr (xs ++ [c])

theorem Lags.put_follows (h : Lags s t xr xs) (hs : s.Sound .circular room num)
    (call : SendCall τ) :
    Follows (s.putMessage .circular call) (t.putMessage .plain call) xr xs :=
  (h.putMessage hs call).imp_right fun hmore => .inl ⟨call, hmore⟩

theorem Lags.take_follows (h : Lags s t xr xs) (hs : s.Sound .circular room num)
    (ht : t.Sound .plain room' num') (hn : 0 < s.hdr.curNumMsg) (call : ReceiveCall τ) :
    Follows (s.takeMessage .circular call) (t.takeMessage .plain call) xr xs :=
  (h.takeMessage hs ht hn call).imp_right fun ⟨m, hmore⟩ => .inr ⟨(call, m), hmore⟩

theorem Lags.doSend (h : Lags s t xr xs) (hs : s.Serving .circular) (ht : t.Serving .plain)
    (call : SendCall τ) : Follows (s.doSend .circular call) (t.doSend .plain call) xr xs := by
  simp only [MessageQueue.doSend, h.isFull hs ht, h.sizes.2]
  split_ifs
  · exact .inl (h.returns _)
  · cases call.block with
    | nonBlocking =>
      exact .inl (Lags.returns ⟨h.sizes, h.history, h.senders, h.receivers, h.answers⟩ _)
    | blocking =>
      exact .inl ⟨h.sizes, h.history, h.senders.block call, h.receivers, h.answers⟩
    | timed =>
      exact .inl ⟨h.sizes, h.history, h.senders.block call, h.receivers, h.answers⟩
  · exact h.put_follows hs call

theorem Lags.doReceive (h : Lags s t xr xs) (hs : s.Serving .circular) (ht : t.Serving .plain)
    (call : ReceiveCall τ) :
    Follows (s.doReceive .circular call) (t.doReceive .plain call) xr xs := by
  simp only [MessageQueue.doReceive, h.isEmpty hs ht, h.sizes.2]
  split_ifs with hbuffer hempty
  · exact .inl (h.returns _)
  · cases call.block with
    | nonBlocking =>
      exact .inl (Lags.returns ⟨h.sizes, h.history, h.senders, h.receivers, h.answers⟩ _)
    | blocking =>
      exact .inl ⟨h.sizes, h.history, h.senders, h.receivers.block call, h.answers⟩
    | timed =>
      exact .inl ⟨h.sizes, h.history, h.senders, h.receivers.block call, h.answers⟩
  · exact h.take_follows hs ht (MqHdr.pos_of_isEmpty hempty) call

variable [DecidableEq τ]

theorem Lags.doSendAgain (h : Lags s t xr xs) (hs : s.Serving .circular) (ht : t.Serving .plain)
    {call : SendCall τ} (hc : call ∈ s.condSend.woken) (timedOut : Bool) :
    Follows (s.doSendAgain .circular call timedOut) (t.doSendAgain .plain call timedOut)
      xr xs := by
  have hfull : (t.resumeSender call).hdr.isFull = (s.resumeSender call).hdr.isFull :=
    h.isFull hs ht
  have hleave : Lags ((s.resumeSender call).unblockSender .circular)
      ((t.resumeSender call).unblockSender .plain) xr xs :=
    ⟨h.sizes, h.history, h.senders.resume call, h.receivers, h.answers⟩
  simp only [MessageQueue.doSendAgain, hfull]
  split_ifs
  · exact .inl (hleave.returns _)
  · exact .inl ⟨h.sizes, h.history, (h.senders.resume call).block call, h.receivers, h.answers⟩
  · exact hleave.put_follows (Sound.leaveSender hs hc) call

theorem Lags.doReceiveAgain (h : Lags s t xr xs) (hs : s.Serving .circular)
    (ht : t.Serving .plain) {call : ReceiveCall τ} (hc : call ∈ s.condRecv.woken)
    (timedOut : Bool) :
    Follows (s.doReceiveAgain .circular call timedOut) (t.doReceiveAgain .plain call timedOut)
      xr xs := by
  have hnone : (t.resumeReceiver call).hdr.isEmpty = (s.resumeReceiver call).hdr.isEmpty :=
    h.isEmpty hs ht
  have hleave : Lags ((s.resumeReceiver call).unblockReceiver .circular)
      ((t.resumeReceiver call).unblockReceiver .plain) xr xs :=
    ⟨h.sizes, h.history, h.senders, h.receivers.resume call, h.answers⟩
  have hct : call ∈ t.condRecv.woken := h.receivers.woken.symm ▸ hc
  simp only [MessageQueue.doReceiveAgain, hnone]
  split_ifs with hempty
  · exact .inl (hleave.returns _)
  · exact .inl ⟨h.sizes, h.history, h.senders, (h.receivers.resume call).block call, h.answers⟩
  · exact hleave.take_follows (Sound.leaveReceiver hs hc) (Sound.leaveReceiver ht hct)
      (MqHdr.pos_of_isEmpty hempty) call

theorem Lags.after (h : Lags s t xr xs) (hs : s.Serving .circular) (ht : t.Serving .plain)
    {e : MqEvent τ} (he : s.Enabled e) :
    Follows (s.after .circular e) (t.after .plain e) xr xs := by
  cases e with
  | send call => exact h.doSend hs ht call
  | receive call => exact h.doReceive hs ht call
  | wakeSender call =>
    exact .inl ⟨h.sizes, h.history, h.senders.wake call, h.receivers, h.answers⟩
  | wakeReceiver call =>
    exact .inl ⟨h.sizes, h.history, h.senders, h.receivers.wake call, h.answers⟩
  | sendAgain call timedOut => exact h.doSendAgain hs ht he.1 timedOut
  | receiveAgain call timedOut => exact h.doReceiveAgain hs ht he.1 timedOut
  | notifySender call m woke =>
    have hc : (call, m) ∈ t.condSend.notifying :=
      h.senders.notifying.mem_iff.mpr (List.mem_append_left _ he.1)
    refine .inl ⟨h.sizes, h.history, h.senders.notify he.1 woke, h.receivers, ?_⟩
    exact (answers_notifySender hc woke).trans
      (h.answers.trans (answers_notifySender he.1 woke).symm)
  | notifyReceiver call woke =>
    have hc : call ∈ t.condRecv.notifying :=
      h.receivers.notifying.mem_iff.mpr (List.mem_append_left _ he.1)
    refine .inl ⟨h.sizes, h.history, h.senders, h.receivers.notify he.1 woke, ?_⟩
    exact (answers_notifyReceiver hc woke).trans
      (h.answers.trans (answers_notifyReceiver he.1 woke).symm)

omit [DecidableEq τ] in
theorem Lags.busy (h : Lags s t xr xs) (x : τ) :
    x ∈ t.busy ↔ x ∈ s.busy ∨ x ∈ xr.map SendCall.thread ∨
      x ∈ (xs.map Prod.fst).map ReceiveCall.thread := by
  have hr := (h.receivers.notifying.map SendCall.thread).mem_iff (a := x)
  have hs := ((h.senders.notifying.map Prod.fst).map ReceiveCall.thread).mem_iff (a := x)
  simp only [List.map_append, List.mem_append] at hr hs
  simp only [MessageQueue.busy, List.map_append, List.mem_append, h.senders.blocked,
    h.senders.woken, h.receivers.blocked, h.receivers.woken, hr, hs]
  exact (or_congr or_assoc.symm or_assoc.symm).trans or_or_or_comm

/-- Two queues that a program cannot tell apart by what it has sent and received, by who is
waiting, or by what is left in them. -/
structure Alike (s t : MessageQueue τ) : Prop where
  history : t.history = s.history
  stored : t.hdr.stored = s.hdr.stored
  answers : t.answers.Perm s.answers
  blocked : t.condSend.blocked = s.condSend.blocked ∧ t.condRecv.blocked = s.condRecv.blocked
  woken : t.condSend.woken = s.condSend.woken ∧ t.condRecv.woken = s.condRecv.woken

omit [DecidableEq τ] in
theorem Lags.alike (h : Lags s t xr xs) (hs : s.Serving .circular) (ht : t.Serving .plain) :
    Alike s t :=
  ⟨h.history, h.stored hs ht, h.answers, ⟨h.senders.blocked, h.receivers.blocked⟩,
    ⟨h.senders.woken, h.receivers.woken⟩⟩

variable {maxNumMsg maxMsgSize : Nat}

end MessageQueue

end Sephi.Ipc
