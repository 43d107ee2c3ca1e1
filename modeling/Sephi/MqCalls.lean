import Sephi.MqBlock

set_option autoImplicit false

namespace Sephi.Ipc
open Transition Waiting PriorityQueue

variable {τ : Type} {kind : IndexKind}

theorem filterMap_cons_toList {α β : Type} (f : α → Option β) (a : α) (l : List α) :
    (a :: l).filterMap f = (f a).toList ++ l.filterMap f := by
  rw [List.filterMap_cons]
  cases f a <;> rfl

def MqEvent.call? : MqEvent τ → Option (SendCall τ ⊕ ReceiveCall τ)
  | .send call => some (.inl call)
  | .receive call => some (.inr call)
  | _ => none

namespace Outcome

def call : Outcome τ → SendCall τ ⊕ ReceiveCall τ
  | .sendSizeError call => .inl call
  | .sent call _ => .inl call
  | .receiveSizeError call => .inr call
  | .received call _ => .inr call

def op? : Outcome τ → Option (Op Message)
  | .sent call true => some (.put call.message)
  | .received _ (some m) => some (.take m)
  | _ => none

/-- A size error is for a message that is too long, or for a buffer that is too small for
the longest. Blocking calls do not fail. -/
def Right (maxMsgSize : Nat) : Outcome τ → Prop
  | .sendSizeError call => call.message.payload.length > maxMsgSize
  | .sent call ok =>
    call.message.payload.length ≤ maxMsgSize ∧ (ok = false → call.block ≠ .blocking)
  | .receiveSizeError call => call.bufferSize < maxMsgSize
  | .received call none => maxMsgSize ≤ call.bufferSize ∧ call.block ≠ .blocking
  | .received call (some m) => m.payload.length ≤ maxMsgSize ∧ maxMsgSize ≤ call.bufferSize

end Outcome

namespace MessageQueue

variable {s t : MessageQueue τ}

/-- The outcomes of the calls that have left the lock for good. Those that have their
notification still to make come last. -/
def answers (s : MessageQueue τ) : List (Outcome τ) :=
  s.outcomes ++ (s.condRecv.notifying.map (Outcome.sent · true) ++
    s.condSend.notifying.map fun c => Outcome.received c.1 (some c.2))

def waitingCalls (s : MessageQueue τ) : List (SendCall τ ⊕ ReceiveCall τ) :=
  s.condSend.waiting.map Sum.inl ++ s.condRecv.waiting.map Sum.inr

theorem answers_returns (s : MessageQueue τ) (o : Outcome τ) :
    (s.returns o).answers.Perm (o :: s.answers) := by
  simp only [answers, returns, List.append_assoc, List.singleton_append]
  exact List.perm_middle

theorem answers_putMessage (s : MessageQueue τ) (kind : IndexKind) (call : SendCall τ) :
    (s.putMessage kind call).answers.Perm (.sent call true :: s.answers) := by
  simp only [putMessage]
  split
  · simp only [answers, Condition.owe, List.map_append, List.map_singleton, List.append_assoc,
      List.singleton_append]
    exact (List.perm_middle.append_left s.outcomes).trans List.perm_middle
  · exact answers_returns _ _

theorem answers_takeMessage (s : MessageQueue τ) (kind : IndexKind) (call : ReceiveCall τ) :
    (s.takeMessage kind call).answers.Perm
      (.received call (some (s.hdr.take kind).1) :: s.answers) := by
  simp only [takeMessage]
  split
  · simp only [answers, Condition.owe, List.map_append, List.map_singleton, ← List.append_assoc]
    exact List.perm_append_singleton _ _
  · exact answers_returns _ _

theorem history_putMessage (s : MessageQueue τ) (kind : IndexKind) (call : SendCall τ) :
    (s.putMessage kind call).history = s.history ++ [.put call.message] := by
  simp only [putMessage]
  split <;> rfl

theorem history_takeMessage (s : MessageQueue τ) (kind : IndexKind) (call : ReceiveCall τ) :
    (s.takeMessage kind call).history = s.history ++ [.take (s.hdr.take kind).1] := by
  simp only [takeMessage]
  split <;> rfl

theorem waitingCalls_putMessage (s : MessageQueue τ) (kind : IndexKind) (call : SendCall τ) :
    (s.putMessage kind call).waitingCalls = s.waitingCalls := by
  simp only [putMessage]
  split <;> rfl

theorem waitingCalls_takeMessage (s : MessageQueue τ) (kind : IndexKind)
    (call : ReceiveCall τ) : (s.takeMessage kind call).waitingCalls = s.waitingCalls := by
  simp only [takeMessage]
  split <;> rfl

theorem Sound.message_le {room num : Nat} (hs : s.Sound kind room num) (hn : 0 < s.hdr.curNumMsg) :
    (s.hdr.take kind).1.payload.length ≤ s.hdr.maxMsgSize := by
  have htop : s.hdr.topMsg kind ∈ s.hdr.inserted := by
    rw [(MqHdr.take_split hs.hdr.placed hn).1]
    exact List.mem_append_right _ (List.mem_singleton_self _)
  exact Nat.le_trans (List.length_take_le _ _) (hs.hdr.len _ htop)

variable [DecidableEq τ]

theorem waitingCalls_resumeSender (kind : IndexKind) {call : SendCall τ}
    (hc : call ∈ s.condSend.woken) :
    s.waitingCalls.Perm (.inl call :: ((s.resumeSender call).unblockSender kind).waitingCalls) :=
  ((Condition.waiting_resume hc).map _).append_right _

theorem waitingCalls_resumeReceiver (kind : IndexKind) {call : ReceiveCall τ}
    (hc : call ∈ s.condRecv.woken) :
    s.waitingCalls.Perm
      (.inr call :: ((s.resumeReceiver call).unblockReceiver kind).waitingCalls) :=
  (((Condition.waiting_resume hc).map _).append_left _).trans List.perm_middle

theorem answers_notifySender {c : ReceiveCall τ × Message} (hc : c ∈ s.condSend.notifying)
    (woke : Option (SendCall τ)) :
    ({ s with condSend := s.condSend.notify c woke }.returns
      (.received c.1 (some c.2))).answers.Perm s.answers := by
  have hpending := (Condition.notifying_notify hc woke).map
    fun c => Outcome.received c.1 (some c.2)
  refine (answers_returns _ _).trans (List.Perm.trans ?_ (.append_left _ (.append_left _
    hpending.symm)))
  exact List.perm_middle.symm.trans (List.perm_middle.symm.append_left _)

theorem answers_notifyReceiver {c : SendCall τ} (hc : c ∈ s.condRecv.notifying)
    (woke : Option (ReceiveCall τ)) :
    ({ s with condRecv := s.condRecv.notify c woke }.returns
      (.sent c true)).answers.Perm s.answers := by
  have hpending := (Condition.notifying_notify hc woke).map (Outcome.sent · true)
  refine (answers_returns _ _).trans (List.Perm.trans ?_ (.append_left _ (.append_right _
    hpending.symm)))
  exact List.perm_middle.symm

inductive Answers (s : MessageQueue τ) (e : MqEvent τ) (t : MessageQueue τ) : Prop where
  | none (answers : t.answers.Perm s.answers) (history : t.history = s.history)
      (calls : t.waitingCalls.Perm (e.call?.toList ++ s.waitingCalls)) : Answers s e t
  | one (o : Outcome τ) (answers : t.answers.Perm (o :: s.answers))
      (right : o.Right s.hdr.maxMsgSize) (history : t.history = s.history ++ o.op?.toList)
      (calls : (o.call :: t.waitingCalls).Perm (e.call?.toList ++ s.waitingCalls)) : Answers s e t

theorem Serving.answers {e : MqEvent τ} (hs : s.Serving kind) (h : Move kind s e t) :
    Answers s e t := by
  cases h with
  | sendRefused call o ho =>
    refine .one o (answers_returns s o) ?_ ?_ ?_
    · cases ho with
      | size h => exact h
      | full fits full h => exact ⟨fits, fun _ => by simp [h]⟩
    · cases ho <;> exact (List.append_nil _).symm
    · cases ho <;> exact .refl _
  | receiveRefused call o ho =>
    refine .one o (answers_returns s o) ?_ ?_ ?_
    · cases ho with
      | size h => exact h
      | empty enough empty h => exact ⟨enough, by simp [h]⟩
    · cases ho <;> exact (List.append_nil _).symm
    · cases ho <;> exact .refl _
  | sendBlocks call =>
    refine .none (.refl _) rfl ?_
    exact ((s.condSend.waiting_block call).map _).append_right _
  | receiveBlocks call =>
    refine .none (.refl _) rfl ?_
    exact (((s.condRecv.waiting_block call).map _).append_left _).trans List.perm_middle
  | sendPuts call hfits =>
    refine .one _ (answers_putMessage s kind call) ⟨hfits, fun h => nomatch h⟩
      (history_putMessage s kind call) ?_
    rw [waitingCalls_putMessage]
    exact .refl _
  | receiveTakes call henough hsome =>
    refine .one _ (answers_takeMessage s kind call)
      ⟨hs.message_le (Nat.pos_of_ne_zero hsome), henough⟩ (history_takeMessage s kind call) ?_
    rw [waitingCalls_takeMessage]
    exact .refl _
  | wakeSender call hc =>
    exact .none (.refl _) rfl (((Condition.waiting_wake hc).map _).append_right _)
  | wakeReceiver call hc =>
    exact .none (.refl _) rfl (((Condition.waiting_wake hc).map _).append_left _)
  | sendTimesOut call hc htimed =>
    have hwaits := hs.senders.each call (List.mem_append_right _ hc)
    exact .one _ (answers_returns _ _) ⟨hwaits.1, fun _ => by simp [htimed]⟩
      (List.append_nil _).symm (waitingCalls_resumeSender kind hc).symm
  | receiveTimesOut call hc htimed =>
    have hwaits := hs.receivers.each call (List.mem_append_right _ hc)
    exact .one _ (answers_returns _ _) ⟨hwaits.1, by simp [htimed]⟩
      (List.append_nil _).symm (waitingCalls_resumeReceiver kind hc).symm
  | sendBlocksAgain call hc =>
    have hperm := ((s.condSend.resume call).waiting_block call).trans
      (Condition.waiting_resume hc).symm
    exact .none (.refl _) rfl ((hperm.map _).append_right _)
  | receiveBlocksAgain call hc =>
    have hperm := ((s.condRecv.resume call).waiting_block call).trans
      (Condition.waiting_resume hc).symm
    exact .none (.refl _) rfl ((hperm.map _).append_left _)
  | sendPutsAgain call timedOut hc =>
    have hwaits := hs.senders.each call (List.mem_append_right _ hc)
    refine .one _ (answers_putMessage _ kind call) ⟨hwaits.1, fun h => nomatch h⟩
      (history_putMessage _ kind call) ?_
    rw [waitingCalls_putMessage]
    exact (waitingCalls_resumeSender kind hc).symm
  | receiveTakesAgain call timedOut hc hsome =>
    have hwaits := hs.receivers.each call (List.mem_append_right _ hc)
    have hleave := Sound.leaveReceiver hs hc
    refine .one _ (answers_takeMessage _ kind call)
      ⟨hleave.message_le (Nat.pos_of_ne_zero hsome), hwaits.1⟩ (history_takeMessage _ kind call) ?_
    rw [waitingCalls_takeMessage]
    exact (waitingCalls_resumeReceiver kind hc).symm
  | notifySender call m woke hc hw =>
    exact .none (answers_notifySender hc woke) rfl
      (((Condition.waiting_notify hw).map _).append_right _)
  | notifyReceiver call woke hc hw =>
    exact .none (answers_notifyReceiver hc woke) rfl
      (((Condition.waiting_notify hw).map _).append_left _)

/-- Each call that was made has one outcome, or waits; the outcomes are right for the sizes
and the ways to block, and what was done to the queue is what they say. -/
theorem every_call_answered_once (kind : IndexKind) (maxNumMsg maxMsgSize : Nat) (τ : Type)
    [DecidableEq τ] (es : List (MqEvent τ)) (s : MessageQueue τ)
    (h : (machine kind maxNumMsg maxMsgSize τ).run es = some s) :
    (s.answers.map Outcome.call ++ s.waitingCalls).Perm (es.filterMap MqEvent.call?) ∧
    s.history.Perm (s.answers.filterMap Outcome.op?) ∧
    ∀ o ∈ s.answers, o.Right maxMsgSize := by
  refine Machine.run_induction (m := machine kind maxNumMsg maxMsgSize τ) (motive := fun es s =>
    (s.answers.map Outcome.call ++ s.waitingCalls).Perm (es.filterMap MqEvent.call?) ∧
    s.history.Perm (s.answers.filterMap Outcome.op?) ∧
    ∀ o ∈ s.answers, o.Right maxMsgSize) ?_ ?_ h
  · exact ⟨.refl _, .refl _, fun o ho => nomatch ho⟩
  · intro es s e t hrun ⟨hcalls, hops, hright⟩ hstep
    have hreach : (machine kind maxNumMsg maxMsgSize τ).Reachable s := ⟨es, hrun⟩
    have hsize : s.hdr.maxMsgSize = maxMsgSize := (confined_of_reachable hreach).sizes.2
    have hlast : ((es ++ [e]).filterMap MqEvent.call?).Perm
        (e.call?.toList ++ (s.answers.map Outcome.call ++ s.waitingCalls)) := by
      rw [List.filterMap_append, filterMap_cons_toList, List.filterMap_nil, List.append_nil]
      exact (hcalls.symm.append_right _).trans List.perm_append_comm
    cases (serving_of_reachable hreach).answers (step_move hstep) with
    | none hanswers hhistory hwaiting =>
      refine ⟨?_, ?_, fun o ho => hright o (hanswers.mem_iff.mp ho)⟩
      · refine ((hanswers.map _).append hwaiting).trans (List.Perm.trans ?_ hlast.symm)
        exact List.perm_append_comm_assoc _ _ _
      · rw [hhistory]
        exact hops.trans (hanswers.filterMap _).symm
    | one o hanswers hr hhistory hwaiting =>
      refine ⟨?_, ?_, fun p hp => ?_⟩
      · refine ((hanswers.map _).append_right _).trans (List.Perm.trans ?_ hlast.symm)
        refine List.Perm.trans ?_ (List.perm_append_comm_assoc _ _ _)
        exact List.perm_middle.symm.trans (hwaiting.append_left _)
      · rw [hhistory]
        refine List.Perm.trans ?_ (hanswers.filterMap _).symm
        rw [filterMap_cons_toList]
        exact (hops.append_right _).trans List.perm_append_comm
      · rcases List.mem_cons.mp (hanswers.mem_iff.mp hp) with rfl | hold
        · exact hsize ▸ hr
        · exact hright p hold

def threeSends : List (MqEvent Nat) :=
  [.send ⟨1, .blocking, ⟨2, [10]⟩⟩, .send ⟨2, .nonBlocking, ⟨9, [11]⟩⟩,
    .send ⟨3, .timed, ⟨5, [12]⟩⟩, .receive ⟨4, .blocking, 1⟩]

theorem every_call_answered_once_threeSends :
    ∃ s, (machine .plain 1 4 Nat).run threeSends = some s ∧
      s.outcomes = [.sent ⟨2, .nonBlocking, ⟨9, [11]⟩⟩ false, .receiveSizeError ⟨4, .blocking, 1⟩] ∧
      s.waitingCalls = [.inl ⟨3, .timed, ⟨5, [12]⟩⟩] ∧
      s.history.Perm (s.answers.filterMap Outcome.op?) :=
  ⟨_, rfl, rfl, rfl, (every_call_answered_once .plain 1 4 Nat threeSends _ rfl).2.1⟩

end MessageQueue

end Sephi.Ipc
