import Mathlib.Algebra.GroupWithZero.Nat
import Sephi.CurrentReads
import Sephi.SerialReading
import Sephi.SerialSending

set_option autoImplicit false

namespace Sephi.Net
open Transition EventLoop

namespace Serial

def Ready.work : Ready → Nat
  | .task (.write _) => 6
  | .task .openPort => 3
  | .task .closePort => 1
  | .done op ec => if ec = 0 ∧ op.isRead = true then 3 else 1

def backlog (c : Serial) : Nat :=
  3 * c.sendingMessages.length + 2 * (c.unread c.port).length

end Serial

namespace FifoSerial
open Serial

/-- The port gets on with what it has, and its handlers make no calls. -/
def Event.Onward : Event → Prop
  | .next inside => inside = []
  | .perform _ _ => True
  | .finish _ _ => True
  | .call _ => False
  | .arrive _ _ => False

def work (c : FifoSerial) : Nat :=
  (c.ready.map Ready.work).sum + 2 * c.pending.length + c.serial.backlog

def Stuck (c : FifoSerial) : Prop := ∀ e : Event, e.Onward → c.step e = none

@[simp] theorem settle_work (c : FifoSerial) : c.settle.work = c.work := by
  unfold settle Serial.settle
  split
  · rfl
  · rfl

theorem work_taken {c : FifoSerial} {item : Ready} {rest : List Ready}
    (hq : c.ready = item :: rest) {s : Serial} (hs : s.backlog = c.serial.backlog) :
    c.work = item.work + work { c with serial := s, ready := rest } := by
  simp only [work, hq, hs, List.map_cons, List.sum_cons]
  omega

theorem launch_work (c : FifoSerial) (op : Op) : (c.launch op).work ≤ c.work + 2 := by
  unfold launch
  split
  · rename_i hw
    have hitem : Ready.work (.done op 0) = 1 := by
      rw [hw]
      rfl
    simp only [work, List.map_append, List.map_cons, List.map_nil, List.sum_append,
      List.sum_cons, List.sum_nil, hitem]
    omega
  · split
    · simp only [work, List.length_append, List.length_cons, List.length_nil]
      omega
    · have hitem : Ready.work (.done op badDescriptor) = 1 := rfl
      simp only [work, List.map_append, List.map_cons, List.map_nil, List.sum_append,
        List.sum_cons, List.sum_nil, hitem]
      omega

theorem doRead_work (c : FifoSerial) : c.doRead.work ≤ c.work + 2 :=
  launch_work { c with serial := c.serial.doRead } (.read c.serial.port)

theorem doWrite_work (c : FifoSerial) : c.doWrite.work ≤ c.work + 2 := by
  unfold doWrite
  split
  · exact Nat.le_add_right _ _
  · rename_i message rest hq
    have hserial : c.serial.doWrite =
        { c.serial with ops := c.serial.ops ++ [.write c.serial.port message] } := by
      simp [Serial.doWrite, hq]
    rw [hserial]
    exact launch_work { c with serial := _ } (.write c.serial.port message)

theorem writeTask_work (c : FifoSerial) (chunk : Chunk) :
    (c.writeTask chunk).work ≤ c.work + 5 := by
  have hqueued : work { c with serial := { c.serial with
      sendingMessages := c.serial.sendingMessages ++ [chunk] } } = c.work + 3 := by
    simp only [work, backlog, List.length_append, List.length_cons, List.length_nil]
    omega
  simp only [writeTask]
  split
  · exact (doWrite_work _).trans (Nat.add_le_add_right (Nat.le_of_eq hqueued) 2)
  · exact (Nat.le_of_eq hqueued).trans (Nat.le_add_right _ 2)

theorem written_work (c : FifoSerial) (chunk : Chunk) : (c.written chunk).work ≤ c.work := by
  cases hq : c.serial.sendingMessages with
  | nil =>
    have hidle : c.written chunk = { c with serial := { c.serial with
        sendingMessages := [], sent := c.serial.sent ++ [chunk] } } := by
      simp [written, hq]
    rw [hidle]
    exact Nat.le_of_eq (by simp only [work, backlog, hq])
  | cons message rest =>
    have hpopped : work { c with serial := { c.serial with
        sendingMessages := rest, sent := c.serial.sent ++ [chunk] } } + 3 = c.work := by
      simp only [work, backlog, hq, List.length_cons]
      omega
    simp only [written, hq, List.tail_cons]
    split
    · exact (doWrite_work _).trans ((Nat.le_succ _).trans_eq hpopped)
    · exact (Nat.le_add_right _ 3).trans_eq hpopped

theorem flush_work (c : FifoSerial) : c.flush.work ≤ c.work := by
  unfold flush Serial.flush
  split
  · simp only [work, backlog, Function.update_self, List.length_nil]
    omega
  · exact Nat.le_refl _

theorem openPort_work (c : FifoSerial) : (c.openPort []).work ≤ c.work + 2 := by
  simp only [openPort]
  split
  · exact Nat.le_add_right _ _
  · have hflush := flush_work { c with
      serial := { c.serial with portOpen := true }, behind := c.ready }
    exact (doRead_work _).trans (Nat.add_le_add_right hflush 2)

theorem abort_work (c : FifoSerial) : c.abort.work ≤ c.work := by
  have hone : Ready.work ∘ (Ready.done · aborted) = fun _ => 1 := rfl
  have hitems : ((c.pending.map (Ready.done · aborted)).map Ready.work).sum =
      c.pending.length := by
    rw [List.map_map, hone, List.map_const', List.sum_replicate_nat, Nat.mul_one]
  simp only [work, abort, List.map_append, List.sum_append, hitems, List.length_nil]
  omega

theorem handle_work (c : FifoSerial) (ec : ErrorCode) (op : Op) :
    (c.handle ec [] op).work < c.work + Ready.work (.done op ec) := by
  unfold handle
  split
  · rename_i hec
    have hitem : Ready.work (.done op ec) = 1 := if_neg fun h => hec h.1
    rw [hitem]
    exact Nat.lt_succ_self c.work
  · rename_i hec
    obtain rfl : ec = 0 := not_not.mp hec
    cases op with
    | read k => exact Nat.lt_succ_of_le (doRead_work _)
    | received k size => exact Nat.lt_succ_of_le (doRead_work _)
    | write k chunk => exact Nat.lt_succ_of_le (c.written_work chunk)

theorem Move.work_lt {c d : FifoSerial} {e : Event} (h : c.Move e d) (he : e.Onward) :
    d.work < c.work := by
  cases h with
  | call | arrive => exact he.elim
  | task t rest inside hr hq =>
    obtain rfl : inside = [] := he
    have hwork := work_taken hq (s := { c.serial with tasks := c.serial.tasks.tail }) rfl
    rw [hwork, Nat.add_comm]
    cases t with
    | write chunk => exact Nat.lt_succ_of_le (writeTask_work _ chunk)
    | openPort => exact Nat.lt_succ_of_le (openPort_work _)
    | closePort => exact Nat.lt_succ_of_le (abort_work _)
  | done op ec rest inside hr hq =>
    obtain rfl : inside = [] := he
    rw [work_taken hq (s := c.serial.begin op) rfl, Nat.add_comm]
    exact handle_work _ ec op
  | perform k packet hr hop hk hp =>
    subst hk
    have hpending := List.length_erase_add_one hop
    have hbytes := List.length_pos_iff.mpr packet.nonempty
    have hfits := hp.length_le
    have hitem : Ready.work (.done (.received c.serial.port packet.bytes.length) 0) = 3 := rfl
    simp only [work, backlog, Serial.perform, Function.update_self, List.length_drop,
      List.map_append, List.map_cons, List.map_nil, List.sum_append, List.sum_cons,
      List.sum_nil, hitem]
    omega
  | finish k chunk hr hop =>
    have hpending := List.length_erase_add_one hop
    have hitem : Ready.work (.done (.write k chunk) 0) = 1 := rfl
    simp only [work, List.map_append, List.map_cons, List.map_nil, List.sum_append,
      List.sum_cons, List.sum_nil, hitem]
    omega

theorem call_runner (c : FifoSerial) (x : Call) :
    (c.call x).serial.runner = c.serial.runner := by
  rw [call_serial]
  exact calls_runner c.serial [x]

theorem callBackConnectionHandler_runner (c : FifoSerial) (cause : Nat)
    (state : ConnectionState) (ec : ErrorCode) (inside : List Call) :
    (c.callBackConnectionHandler cause state ec inside).serial.runner = c.serial.runner := by
  rw [callBackConnectionHandler_serial]
  exact calls_runner _ inside

theorem callDataHandler_runner (c : FifoSerial) (cause size : Nat) (inside : List Call) :
    (c.callDataHandler cause size inside).serial.runner = c.serial.runner := by
  rw [callDataHandler_serial]
  exact calls_runner _ inside

theorem doRead_runner (c : FifoSerial) : c.doRead.serial.runner = c.serial.runner := by
  rw [doRead_serial]
  rfl

theorem doWrite_runner (c : FifoSerial) : c.doWrite.serial.runner = c.serial.runner := by
  rw [doWrite_serial]
  exact Serial.doWrite_runner c.serial

theorem Move.runner_eq {c d : FifoSerial} {e : Event} (h : c.Move e d) :
    d.serial.runner = c.serial.runner := by
  cases h with
  | call x => exact c.call_runner x
  | task t rest inside =>
    cases t with
    | write chunk =>
      simp only [runTask, writeTask]
      split
      · exact doWrite_runner _
      · rfl
    | closePort => rfl
    | openPort =>
      simp only [runTask, openPort]
      split
      · exact callBackConnectionHandler_runner _ _ _ _ inside
      · exact (doRead_runner _).trans (callBackConnectionHandler_runner _ _ _ _ inside)
  | done op ec rest inside =>
    unfold handle
    split
    · exact callBackConnectionHandler_runner _ _ _ _ inside
    · cases op with
      | read k => exact (doRead_runner _).trans (callDataHandler_runner _ _ _ inside)
      | received k size => exact (doRead_runner _).trans (callDataHandler_runner _ _ _ inside)
      | write k chunk =>
        simp only [written]
        split
        · exact doWrite_runner _
        · rfl
  | arrive | perform | finish => rfl

/-- `run()` has not returned while the port is opened, since a read of it is outstanding. -/
theorem running_of_isOpened {params : SerialParams} {es : List Event} {c : FifoSerial}
    (hrun : (machine params).run es = some c) (hc : c.serial.isOpened = true) :
    c.serial.runner = .running := by
  refine Machine.run_induction (motive := fun _ c =>
    c.serial.isOpened = true → c.serial.runner = .running)
    (fun hstart => absurd hstart Bool.false_ne_true) (fun es c e d hes ih hstep hd => ?_) hrun hc
  have hreach : (machine params).Reachable d :=
    Machine.Reachable.step ⟨es, hes⟩ hstep
  obtain ⟨op, hop, _⟩ := Serial.reads_current (reachable_serial hreach).2 hd
  obtain ⟨d', hmove, rfl⟩ := step_move hstep
  have hidle : d'.serial.settle = d'.serial := by
    unfold Serial.settle
    refine if_neg fun hn => ?_
    have hnone : d'.settle.serial.ops = [] := by
      simp only [settle, Serial.settle, hn, and_self, if_true]
    rw [hnone] at hop
    exact absurd hop List.not_mem_nil
  have hserial : d'.settle.serial = d'.serial := hidle
  rw [hserial] at hd ⊢
  rw [hmove.runner_eq]
  cases hmove with
  | call x =>
    rw [call_serial, call_isOpened, Bool.and_eq_true] at hd
    exact ih hd.1
  | arrive => exact ih hd
  | task _ _ _ hr | done _ _ _ _ hr | perform _ _ hr | finish _ _ hr => exact hr

theorem act_eq_none {c : FifoSerial} (h : c.Stuck) {e : Event} (he : e.Onward) :
    c.act e = none :=
  Option.map_eq_none_iff.mp (h e he)

theorem Stuck.rest {c : FifoSerial} (h : c.Stuck) (hm : c.Matches) (hord : c.Ordered 0)
    (hr : c.serial.runner = .running) :
    c.ready = [] ∧ ∀ op ∈ c.serial.ops, op = .read c.serial.port ∧
      c.serial.unread c.serial.port = [] := by
  have hready : c.ready = [] := by
    have hnext := act_eq_none h (e := .next []) rfl
    cases hq : c.ready with
    | nil => rfl
    | cons item rest => cases item <;> simp [act, hr, hq] at hnext
  refine ⟨hready, fun op hop => ?_⟩
  have hmem : op ∈ c.pending := by
    have hcount := hm.ops op
    rw [hready, List.filterMap_nil, List.count_nil, Nat.add_zero] at hcount
    exact List.count_pos_iff.mp (hcount ▸ List.count_pos_iff.mpr hop)
  have hport := hord.current op hmem
  cases op with
  | write k chunk =>
    have hfinish := act_eq_none h (e := .finish k chunk) trivial
    simp [act, hr, hmem] at hfinish
  | received k size => exact absurd hmem (hm.performed k size)
  | read k =>
    obtain rfl : k = c.serial.port := hport
    refine ⟨rfl, ?_⟩
    cases hu : c.serial.unread c.serial.port with
    | nil => rfl
    | cons b rest =>
      have hperform := act_eq_none h (e := .perform c.serial.port (.byte b)) trivial
      simp [act, hr, hmem, hu, Packet.byte, Packet.cons] at hperform

theorem stuck_of_rest {c : FifoSerial} (hready : c.ready = [])
    (hpending : ∀ op ∈ c.pending, op.isRead = true)
    (hunread : c.serial.unread c.serial.port = []) : c.Stuck := by
  intro e he
  refine Option.map_eq_none_iff.mpr ?_
  cases e with
  | call | arrive => exact he.elim
  | next inside => simp [act, hready]
  | perform k packet =>
    refine if_neg ?_
    rintro ⟨_, _, rfl, hp⟩
    rw [hunread] at hp
    exact packet.nonempty (List.prefix_nil.mp hp)
  | finish k chunk =>
    exact if_neg fun h => Bool.false_ne_true (hpending (.write k chunk) h.2)

theorem Stuck.delivered {c : FifoSerial} (h : c.Stuck) (hm : c.Matches) (hord : c.Ordered 0)
    (hr : c.serial.runner = .running) (hread : c.serial.ReadsCurrent) (hc : c.inbox.Sound) :
    c.serial.delivered c.serial.port = c.serial.kept c.serial.port := by
  obtain ⟨hready, hops⟩ := h.rest hm hord hr
  obtain ⟨op, hop, _⟩ := hread
  have hunread : c.inbox.unread c.serial.port = [] := (hops op hop).2
  have hlive : c.inbox.reads = c.pending.filterMap Op.reading? := by
    rw [inbox, liveReads, queuedReads, hready]
    exact List.append_nil _
  have hnone : c.inbox.pending c.serial.port = [] := by
    refine List.flatMap_eq_nil_iff.mpr fun r hr => ?_
    rw [hlive] at hr
    obtain ⟨op', hop', hreading⟩ := List.mem_filterMap.mp hr
    rw [(hops op' (hm.pending_mem hop')).1] at hreading
    obtain rfl := Option.some.inj hreading
    exact if_pos rfl
  have hconserved := hc.conserved c.serial.port
  rwa [hnone, hunread, List.append_nil, List.append_nil] at hconserved

/-- The port is opened while nothing is left to be sent. -/
def OpensEmpty (c : FifoSerial) : Event → Prop
  | .next _ => c.ready.head? = some (.task .openPort) → c.serial.sendingMessages = []
  | _ => True

instance (c : FifoSerial) : (e : Event) → Decidable (c.OpensEmpty e)
  | .next _ => inferInstanceAs (Decidable (_ → _))
  | .call _ | .arrive _ _ | .perform _ _ | .finish _ _ => .isTrue trivial

theorem Move.opens {c d : FifoSerial} {e : Event} (h : c.Move e d)
    (hc : c.serial.isOpened = false) (hd : d.serial.isOpened = true) :
    ∃ inside, e = .next inside ∧ c.ready.head? = some (.task .openPort) := by
  have hnot {s : Serial} (hs : s.isOpened = c.serial.isOpened) (b : Bool) :
      (s.isOpened && b) ≠ true := by
    rw [hs, hc]
    exact Bool.false_ne_true
  cases h with
  | call x =>
    rw [call_serial, call_isOpened] at hd
    exact absurd hd (hnot rfl _)
  | task t rest inside hr hq =>
    cases t with
    | write chunk =>
      rw [runTask, writeTask_serial, writeTask_isOpened] at hd
      exact absurd (hc.symm.trans hd) Bool.false_ne_true
    | closePort => exact absurd (hc.symm.trans hd) Bool.false_ne_true
    | openPort => exact ⟨inside, rfl, by rw [hq]; rfl⟩
  | done op ec rest inside =>
    rw [handle_serial] at hd
    by_cases hec : ec = 0
    · subst hec
      cases op with
      | read k | received k size =>
        simp only [Serial.handle, Serial.handleRead, ne_eq, not_true_eq_false, if_false,
          doRead_isOpened, Serial.callDataHandler, calls_isOpened] at hd
        exact absurd hd (hnot rfl _)
      | write k chunk =>
        rw [Serial.handle, handleWrite_isOpened] at hd
        exact absurd (hc.symm.trans hd) Bool.false_ne_true
    · rw [handle_error hec, callBackConnectionHandler_isOpened] at hd
      exact absurd (Bool.and_eq_true_iff.mp hd).1 Bool.false_ne_true
  | arrive | perform | finish => exact absurd (hc.symm.trans hd) Bool.false_ne_true

theorem Move.not_stalled {c d : FifoSerial} {e : Event} (hm : c.Matches) (h : c.Move e d)
    (hc : c.serial.pump.Sound) (hnot : ¬ c.serial.pump.Stalled)
    (hd : d.serial.isOpened = true) : ¬ d.serial.pump.Stalled := by
  rcases (h.refines hm).2 with ⟨hsame, _⟩ | ⟨e', hact⟩
  · rwa [hsame]
  · have hmove := Serial.act_move hact
    have hfails : ¬ e'.WriteFails := fun hfails => by
      rw [hmove.not_opened_of_fails hfails] at hd
      exact Bool.false_ne_true hd
    rwa [Outbox.Pump.Advances.stalled_iff (hmove.pump_advances hfails) hc]

theorem not_stalled_of_opensEmpty {params : SerialParams} {es : List Event} {c : FifoSerial}
    (hrun : (machine params).run es = some c)
    (hempty : (machine params).EachStep OpensEmpty es) (hc : c.serial.isOpened = true) :
    ¬ c.serial.pump.Stalled := by
  refine Machine.run_induction (motive := fun es c => (machine params).EachStep OpensEmpty es →
    c.serial.isOpened = true → ¬ c.serial.pump.Stalled)
    (fun _ hstart => absurd hstart Bool.false_ne_true) ?_ hrun hempty hc
  intro es c e d hes ih hstep heach hd
  obtain ⟨hbefore, he⟩ := (Machine.eachStep_snoc es hes).mp heach
  obtain ⟨hm, gs, hgs⟩ := reachable_serial ⟨es, hes⟩
  obtain ⟨d', hmove, rfl⟩ := step_move hstep
  have hpump : d'.settle.serial.pump = d'.serial.pump := Serial.settle_pump d'.serial
  have hopened : d'.settle.serial.isOpened = d'.serial.isOpened :=
    Serial.settle_isOpened d'.serial
  rw [hpump]
  rw [hopened] at hd
  refine hmove.not_stalled hm ((Serial.drives params).sound hgs) ?_ hd
  cases hc : c.serial.isOpened with
  | true => exact ih hbefore hc
  | false =>
    obtain ⟨inside, rfl, hhead⟩ := hmove.opens hc hd
    exact fun hstalled => hstalled.2 (he hhead)

theorem Stuck.sent {c : FifoSerial} (h : c.Stuck) (hm : c.Matches) (hord : c.Ordered 0)
    (hr : c.serial.runner = .running) (hc : c.serial.pump.Sound)
    (hnot : ¬ c.serial.pump.Stalled) : c.serial.sent = c.serial.accepted := by
  obtain ⟨hready, hops⟩ := h.rest hm hord hr
  have hwaiting : c.serial.pump.waiting = [] := by
    simp [pump, hm.tasks, hready]
  have houtstanding : c.serial.pump.outstanding = [] := by
    refine List.filterMap_eq_nil_iff.mpr fun op hop => ?_
    rw [(hops op hop).1]
    rfl
  have hqueue : c.serial.pump.queue = [] := not_not.mp fun hne => hnot ⟨houtstanding, hne⟩
  have hconserved := hc.conserved
  rwa [hqueue, hwaiting, List.append_nil, List.append_nil] at hconserved

theorem Event.Onward.patient {e : Event} (he : e.Onward) (c : FifoSerial) : c.Patient e := by
  cases e with
  | call | arrive => exact he.elim
  | next inside =>
    obtain rfl : inside = [] := he
    exact ⟨Nat.zero_le 1, fun hin => absurd hin List.not_mem_nil⟩
  | perform | finish => trivial

/-- When nobody calls the port and nothing more arrives, it comes to rest after a bounded
number of steps. If it is opened where it rests, then all that its current port has
received and no flush has discarded has been delivered, provided that it was replaced in
good time, and all that was accepted has been sent, provided that it was opened only while
nothing was left to be sent. -/
theorem quiet_port_comes_to_rest (params : SerialParams) (es fs : List Event)
    (c d : FifoSerial) (hrun : (machine params).run es = some c)
    (hquiet : ∀ e ∈ fs, e.Onward) (hexec : (machine params).exec c fs = some d) :
    fs.length + d.work ≤ c.work ∧
      (d.Stuck → d.serial.isOpened = true →
        ((machine params).EachStep Patient es →
          d.serial.delivered d.serial.port = d.serial.kept d.serial.port) ∧
        ((machine params).EachStep OpensEmpty (es ++ fs) →
          d.serial.sent = d.serial.accepted)) := by
  have hd : (machine params).run (es ++ fs) = some d := by
    rw [Machine.run_append, hrun]
    exact hexec
  obtain ⟨hm, hord⟩ := reachable_ordered ⟨_, hd⟩
  have hserial := (reachable_serial ⟨_, hd⟩).2
  refine ⟨?_, fun hstuck hopened => ?_⟩
  · refine Machine.exec_length_le (P := Event.Onward) (fun c e d he hstep => ?_) hquiet hexec
    obtain ⟨d', hmove, rfl⟩ := step_move hstep
    rw [settle_work]
    exact hmove.work_lt he
  · have hr := running_of_isOpened hd hopened
    refine ⟨fun hpatient => ?_, fun hempty => ?_⟩
    · have hsound := patient_inbox_sound hd
        (hpatient.append fun s e he => (hquiet e he).patient s)
      exact hstuck.delivered hm hord hr (Serial.reads_current hserial hopened) hsound
    · obtain ⟨gs, hgs⟩ := hserial
      exact hstuck.sent hm hord hr ((Serial.drives params).sound hgs)
        (not_stalled_of_opensEmpty hd hempty hopened)

/-- A byte is discarded as the port opens. Then a chunk is accepted and two bytes arrive. -/
def toldAndAsked : List Event :=
  [.arrive 1 [6], .next [], .call (.write [5]), .arrive 1 [7, 8]]

def leftAlone : List Event :=
  [.next [], .perform 1 (.cons 7 [8] (by decide)), .finish 1 [5], .next [], .next []]

theorem quiet_port_comes_to_rest_leftAlone :
    ∃ c d, (machine (serialParams8N1 .br9600)).run toldAndAsked = some c ∧
      (machine (serialParams8N1 .br9600)).exec c leftAlone = some d ∧
      leftAlone.length + d.work ≤ c.work ∧ d.serial.kept 1 = [7, 8] ∧
      d.serial.delivered 1 = d.serial.kept 1 ∧ d.serial.accepted = [[5]] ∧
      d.serial.sent = d.serial.accepted := by
  have hrun : (machine (serialParams8N1 .br9600)).run toldAndAsked =
      some (((machine (serialParams8N1 .br9600)).run toldAndAsked).get rfl) := rfl
  have hexec : (machine (serialParams8N1 .br9600)).exec
      (((machine (serialParams8N1 .br9600)).run toldAndAsked).get rfl) leftAlone = some _ := rfl
  have hquiet : ∀ e ∈ leftAlone, e.Onward := by simp [leftAlone, Event.Onward]
  obtain ⟨hbound, hrest⟩ :=
    quiet_port_comes_to_rest _ toldAndAsked leftAlone _ _ hrun hquiet hexec
  obtain ⟨hdelivered, hsent⟩ := hrest (stuck_of_rest rfl (by decide) rfl) rfl
  exact ⟨_, _, hrun, hexec, hbound, rfl,
    hdelivered (Machine.eachStep_of_checks (by decide)), rfl,
    hsent (Machine.eachStep_of_checks (by decide))⟩

end FifoSerial

end Sephi.Net
