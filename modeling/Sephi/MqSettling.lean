import Sephi.MqService

set_option autoImplicit false

namespace Sephi.Ipc
open Transition Waiting

variable {τ : Type} {kind : IndexKind}

/-- A thread inside of a call gets on with it; a wakeup without a notification is none of
these. -/
def MqEvent.Onward : MqEvent τ → Prop
  | .sendAgain _ _ => True
  | .receiveAgain _ _ => True
  | .notifySender _ _ _ => True
  | .notifyReceiver _ _ => True
  | .send _ => False
  | .receive _ => False
  | .wakeSender _ => False
  | .wakeReceiver _ => False

namespace MessageQueue

variable {s t : MessageQueue τ}

def work (s : MessageQueue τ) : Nat := s.condSend.work + s.condRecv.work

def Quiet (s : MessageQueue τ) : Prop := s.condSend.Quiet ∧ s.condRecv.Quiet

theorem work_putMessage (kind : IndexKind) (s : MessageQueue τ) (call : SendCall τ) :
    (s.putMessage kind call).work ≤ s.work + 2 := by
  simp only [putMessage, work]
  split
  · rw [Condition.work_owe, Nat.add_assoc]
  · exact Nat.le_add_right _ _

theorem work_takeMessage (kind : IndexKind) (s : MessageQueue τ) (call : ReceiveCall τ) :
    (s.takeMessage kind call).work ≤ s.work + 2 := by
  simp only [takeMessage, work]
  split
  · rw [Condition.work_owe]
    exact Nat.le_of_eq (Nat.add_right_comm _ _ _)
  · exact Nat.le_add_right _ _

theorem quiet_of_stuck (hstuck : ∀ e, e.Onward → ¬ s.Enabled e) : s.Quiet := by
  have hnone {α : Type} (l : List α) (hl : ∀ a ∈ l, False) : l = [] :=
    List.eq_nil_iff_forall_not_mem.mpr hl
  refine ⟨⟨hnone _ fun call hc => ?_, hnone _ fun c hc => ?_⟩,
    ⟨hnone _ fun call hc => ?_, hnone _ fun call hc => ?_⟩⟩
  · exact hstuck (.sendAgain call false) trivial ⟨hc, fun h => nomatch h⟩
  · obtain ⟨woke, hw⟩ := s.condSend.exists_canWake
    exact hstuck (.notifySender c.1 c.2 woke) trivial ⟨hc, hw⟩
  · exact hstuck (.receiveAgain call false) trivial ⟨hc, fun h => nomatch h⟩
  · obtain ⟨woke, hw⟩ := s.condRecv.exists_canWake
    exact hstuck (.notifyReceiver call woke) trivial ⟨hc, hw⟩

variable [DecidableEq τ]

theorem work_resumeSender (kind : IndexKind) {call : SendCall τ}
    (hc : call ∈ s.condSend.woken) :
    ((s.resumeSender call).unblockSender kind).work + 4 = s.work := by
  have hwork := Condition.work_resume hc
  simp only [work, unblockSender, resumeSender]
  omega

theorem work_resumeReceiver (kind : IndexKind) {call : ReceiveCall τ}
    (hc : call ∈ s.condRecv.woken) :
    ((s.resumeReceiver call).unblockReceiver kind).work + 4 = s.work := by
  have hwork := Condition.work_resume hc
  simp only [work, unblockReceiver, resumeReceiver]
  omega

theorem Move.work_lt {e : MqEvent τ} (h : Move kind s e t) (he : e.Onward) : t.work < s.work := by
  cases h with
  | sendRefused | sendBlocks | sendPuts => exact he.elim
  | receiveRefused | receiveBlocks | receiveTakes => exact he.elim
  | wakeSender | wakeReceiver => exact he.elim
  | sendTimesOut call hc =>
    have hwork := work_resumeSender kind hc
    exact Nat.lt_of_lt_of_eq (Nat.lt_add_of_pos_right (by decide : 0 < 4)) hwork
  | sendBlocksAgain call hc =>
    have hwork := work_resumeSender kind hc
    have hblock := (s.condSend.resume call).work_block call
    simp only [work, blockSender, resumeSender, unblockSender] at hwork ⊢
    omega
  | sendPutsAgain call timedOut hc =>
    have hwork := work_resumeSender kind hc
    have hput := work_putMessage kind ((s.resumeSender call).unblockSender kind) call
    omega
  | receiveTimesOut call hc =>
    have hwork := work_resumeReceiver kind hc
    exact Nat.lt_of_lt_of_eq (Nat.lt_add_of_pos_right (by decide : 0 < 4)) hwork
  | receiveBlocksAgain call hc =>
    have hwork := work_resumeReceiver kind hc
    have hblock := (s.condRecv.resume call).work_block call
    simp only [work, blockReceiver, resumeReceiver, unblockReceiver] at hwork ⊢
    omega
  | receiveTakesAgain call timedOut hc =>
    have hwork := work_resumeReceiver kind hc
    have htake :=
      work_takeMessage kind ((s.resumeReceiver call).unblockReceiver kind) call
    omega
  | notifySender call m woke hc hw =>
    exact Nat.add_lt_add_right (Condition.work_notify hc hw) _
  | notifyReceiver call woke hc hw =>
    exact Nat.add_lt_add_left (Condition.work_notify hc hw) _

/-- When no calls are made and nobody wakes up unasked, the threads that are inside come to
rest, and at rest a send waits only if the queue is full and a receive only if it is
empty. -/
theorem threads_come_to_rest (kind : IndexKind) (maxNumMsg maxMsgSize : Nat) (τ : Type)
    [DecidableEq τ] (s t : MessageQueue τ) (es : List (MqEvent τ))
    (h : (machine kind maxNumMsg maxMsgSize τ).Reachable s)
    (hes : ∀ e ∈ es, e.Onward)
    (hrun : (machine kind maxNumMsg maxMsgSize τ).exec s es = some t) :
    es.length ≤ s.work ∧
      ((∀ e, e.Onward → ¬ t.Enabled e) →
        (t.condSend.waiting ≠ [] → t.hdr.curNumMsg = t.hdr.maxNumMsg) ∧
        (t.condRecv.waiting ≠ [] → t.hdr.curNumMsg = 0)) := by
  have hlen := Machine.exec_length_le (m := machine kind maxNumMsg maxMsgSize τ) (μ := work)
    (fun _ _ _ he hs => (step_move hs).work_lt he) hes hrun
  refine ⟨Nat.le_trans (Nat.le_add_right _ _) hlen, fun hstuck => ?_⟩
  have hserving := serving_of_reachable (h.exec hrun)
  obtain ⟨hsend, hrecv⟩ := quiet_of_stuck hstuck
  refine ⟨fun hw => ?_, fun hw => hrecv.blocked hserving.receivers.attended hw⟩
  have hroom := hsend.blocked hserving.senders.attended hw
  exact Nat.le_antisymm hserving.hdr.placed.num (Nat.le_of_sub_eq_zero hroom)

def sentToWaiter : List (MqEvent Nat) :=
  [.receive ⟨1, .blocking, 4⟩, .send ⟨2, .nonBlocking, ⟨0, [7]⟩⟩]

def waiterGetsOn : List (MqEvent Nat) :=
  [.notifyReceiver ⟨2, .nonBlocking, ⟨0, [7]⟩⟩ (some ⟨1, .blocking, 4⟩),
    .receiveAgain ⟨1, .blocking, 4⟩ false]

theorem threads_come_to_rest_waiterGetsOn :
    ∃ s t, (machine .circular 1 4 Nat).run sentToWaiter = some s ∧
      (machine .circular 1 4 Nat).exec s waiterGetsOn = some t ∧ t.condRecv.waiting = [] ∧
      waiterGetsOn.length ≤ s.work := by
  refine ⟨_, _, rfl, rfl, rfl, ?_⟩
  refine (threads_come_to_rest .circular 1 4 Nat _ _ waiterGetsOn ⟨sentToWaiter, rfl⟩ ?_ rfl).1
  intro e he
  rcases List.mem_pair.mp he with rfl | rfl
  · trivial
  · trivial

end MessageQueue

end Sephi.Ipc
