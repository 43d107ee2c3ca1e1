import Sephi.Inbox
import Sephi.Outbox
import Sephi.SerialReopening

set_option autoImplicit false

namespace Sephi.Net
open Transition Inbox

namespace Serial

def Op.reading? : Op → Option (Nat × Option Nat)
  | .read k => some (k, none)
  | .received k size => some (k, some size)
  | .write _ _ => none

/-- A handler that is given an error does not look at `received_data_`. -/
def Ready.reading? : Ready → Option (Nat × Option Nat)
  | .task _ => none
  | .done op ec => if ec = 0 then op.reading? else none

def Ready.Inert (item : Ready) : Prop := item ≠ .task .openPort ∧ item.reading? = none

def Callback.bytes : Callback → Chunk
  | .data bytes => bytes
  | .connection _ _ => []

def delivered (c : Serial) (k : Nat) : Chunk :=
  c.reports.flatMap fun r => if r.cause = k then r.callback.bytes else []

theorem delivered_eq {c d : Serial} (h : d.reports = c.reports) : d.delivered = c.delivered := by
  funext k
  simp [delivered, h]

end Serial

namespace FifoSerial
open Serial

def queuedReads (c : FifoSerial) : List (Nat × Option Nat) := c.ready.filterMap Ready.reading?

def liveReads (c : FifoSerial) : List (Nat × Option Nat) :=
  c.pending.filterMap Op.reading? ++ c.queuedReads

/-- The port's receiving side as a reader of all the ports that it has had. -/
def inbox (c : FifoSerial) : Reader Nat UInt8 where
  reads := c.liveReads
  buffer := c.serial.receivedData.data
  unread := c.serial.unread
  arrived := c.serial.kept
  delivered := c.serial.delivered

/-- The port is opened while no read of the port before it is outstanding, unless the
connection handler replaces it at once. -/
def OpensAlone (c : FifoSerial) : Event → Prop
  | .next inside => c.ready.head? = some (.task .openPort) → .reopen ∉ inside → c.liveReads = []
  | _ => True

instance (c : FifoSerial) (e : Event) : Decidable (c.OpensAlone e) := by
  cases e <;> unfold OpensAlone <;> infer_instance

@[simp] theorem settle_inbox (c : FifoSerial) : c.settle.inbox = c.inbox := by
  unfold settle Serial.settle
  split <;> rfl

theorem launch_write_inbox (c : FifoSerial) (k : Nat) (chunk : Chunk) :
    (c.launch (.write k chunk)).inbox = c.inbox := by
  unfold launch
  split_ifs <;> simp [inbox, liveReads, queuedReads, Ready.reading?, Op.reading?]

theorem doRead_inbox {c : FifoSerial} (ho : c.serial.portOpen = true) :
    c.doRead.inbox = { c.inbox with
      reads := c.pending.filterMap Op.reading? ++ (c.serial.port, none) :: c.queuedReads } := by
  have hd : Serial.delivered c.serial.doRead = c.serial.delivered := delivered_eq rfl
  have hlaunch : c.doRead =
      { c with serial := c.serial.doRead, pending := c.pending ++ [.read c.serial.port] } := by
    simp [doRead, launch, Serial.doRead, ho]
  rw [hlaunch]
  simp only [inbox, liveReads, queuedReads, List.filterMap_append, List.append_assoc, hd]
  rfl

theorem doRead_length {c : FifoSerial} (ho : c.serial.portOpen = true) :
    c.doRead.inbox.reads.length = c.liveReads.length + 1 := by
  rw [doRead_inbox ho]
  simp only [liveReads, List.length_append, List.length_cons]
  rfl

theorem doRead_inbox_closed {c : FifoSerial} (ho : c.serial.portOpen = false) :
    c.doRead.inbox = c.inbox := by
  have hd : Serial.delivered c.serial.doRead = c.serial.delivered := delivered_eq rfl
  have hfails : Ready.reading? (.done (.read c.serial.port) badDescriptor) = none := rfl
  have hlaunch : c.doRead = { c with
      serial := c.serial.doRead
      ready := c.ready ++ [.done (.read c.serial.port) badDescriptor] } := by
    simp [doRead, launch, Serial.doRead, ho]
  rw [hlaunch]
  simp only [inbox, liveReads, queuedReads, List.filterMap_append, hd]
  rw [List.filterMap_cons_none hfails, List.filterMap_nil, List.append_nil]
  rfl

theorem doRead_inbox_sound {c : FifoSerial} (hc : c.inbox.Sound)
    (hnone : c.serial.portOpen = true → c.liveReads = []) : c.doRead.inbox.Sound := by
  cases ho : c.serial.portOpen with
  | false => exact (doRead_inbox_closed ho).symm ▸ hc
  | true =>
    obtain ⟨hpending, hqueued⟩ := List.append_eq_nil_iff.mp (hnone ho)
    have hstart := (Reader.Step.start c.inbox c.serial.port).sound hc
      (by simp [inbox, hnone ho])
    rw [doRead_inbox ho, hpending, hqueued]
    simpa only [inbox, hnone ho] using hstart

@[simp] theorem doWrite_inbox (c : FifoSerial) : c.doWrite.inbox = c.inbox := by
  unfold doWrite
  split
  · rfl
  · rename_i message rest hq
    have hserial : c.serial.doWrite =
        { c.serial with ops := c.serial.ops ++ [.write c.serial.port message] } := by
      simp [Serial.doWrite, hq]
    rw [launch_write_inbox, hserial]
    rfl

theorem writeTask_inbox (c : FifoSerial) (chunk : Chunk) :
    (c.writeTask chunk).inbox = c.inbox := by
  simp only [writeTask]
  split
  · exact doWrite_inbox _
  · rfl

theorem written_inbox (c : FifoSerial) (chunk : Chunk) :
    (c.written chunk).inbox = c.inbox := by
  simp only [written]
  split
  · exact doWrite_inbox _
  · rfl

theorem abort_queuedReads (c : FifoSerial) : c.abort.queuedReads = c.queuedReads := by
  have haborted : (c.pending.map (Ready.done · aborted)).filterMap Ready.reading? = [] := by
    rw [List.filterMap_map]
    exact List.filterMap_eq_nil_iff.mpr fun op _ => rfl
  simp [queuedReads, abort, haborted]

theorem abort_inbox (c : FifoSerial) :
    c.abort.inbox = { c.inbox with reads := c.queuedReads } := by
  have hlive : c.abort.liveReads = c.queuedReads := c.abort_queuedReads
  rw [inbox, hlive]
  rfl

@[simp] theorem post_queuedReads (c : FifoSerial) (t : Task) :
    (c.post t).queuedReads = c.queuedReads := by
  simp [queuedReads, post, Ready.reading?]

@[simp] theorem post_inbox (c : FifoSerial) (t : Task) : (c.post t).inbox = c.inbox := by
  have hreads := c.post_queuedReads t
  simp only [inbox, liveReads, hreads]
  rfl

theorem flush_liveReads (c : FifoSerial) : c.flush.liveReads = c.liveReads := rfl

theorem flush_inbox_sound {c : FifoSerial} (hc : c.inbox.Sound) : c.flush.inbox.Sound := by
  cases ho : c.serial.portOpen with
  | false =>
    have hsame : c.flush = c := by simp [flush, Serial.flush, ho]
    rwa [hsame]
  | true =>
    have hflush : c.flush.serial = { c.serial with
        unread := Function.update c.serial.unread c.serial.port []
        kept := Function.update c.serial.kept c.serial.port
          ((c.serial.kept c.serial.port).take
            ((c.serial.kept c.serial.port).length -
              (c.serial.unread c.serial.port).length)) } := by
      simp [flush, Serial.flush, ho]
    have hdiscard := (Reader.Step.discard c.inbox c.serial.port).sound hc hc.single
    rw [inbox, hflush, flush_liveReads]
    exact hdiscard

theorem call_reads (c : FifoSerial) (x : Call) :
    (c.call x).queuedReads = c.queuedReads ∧
      (c.call x).liveReads = if x = .reopen then c.queuedReads else c.liveReads := by
  cases x with
  | write chunk =>
    simp only [call, write, reduceCtorEq, if_false]
    split
    · exact ⟨post_queuedReads _ _, congrArg Reader.reads (post_inbox _ _)⟩
    · exact ⟨rfl, rfl⟩
  | close =>
    exact ⟨c.post_queuedReads .closePort, congrArg Reader.reads (c.post_inbox .closePort)⟩
  | reopen =>
    have habort := abort_queuedReads { c.close with serial := c.close.serial.doOpen }
    have hreads : c.reopen.queuedReads = c.queuedReads :=
      (post_queuedReads _ _).trans (habort.trans (c.post_queuedReads .closePort))
    exact ⟨hreads, hreads⟩
  | flush => exact ⟨rfl, rfl⟩

theorem calls_reads (c : FifoSerial) (inside : List Call) :
    (c.calls inside).queuedReads = c.queuedReads ∧
      (c.calls inside).liveReads =
        if .reopen ∈ inside then c.queuedReads else c.liveReads := by
  induction inside generalizing c with
  | nil => exact ⟨rfl, rfl⟩
  | cons x inside ih =>
    obtain ⟨hqueued, hlive⟩ := c.call_reads x
    obtain ⟨hqueued', hlive'⟩ := ih (c.call x)
    refine ⟨hqueued'.trans hqueued, ?_⟩
    change ((c.call x).calls inside).liveReads = _
    rw [hlive', hqueued, hlive]
    by_cases hin : .reopen ∈ inside
    · rw [if_pos hin, if_pos (List.mem_cons_of_mem x hin)]
    · rw [if_neg hin]
      exact if_congr (by simp [hin, eq_comm]) rfl rfl

theorem calls_liveReads (c : FifoSerial) (inside : List Call) :
    (c.calls inside).liveReads = if .reopen ∈ inside then c.queuedReads else c.liveReads :=
  (c.calls_reads inside).2

theorem calls_portOpen (c : FifoSerial) (inside : List Call) :
    (c.calls inside).serial.portOpen =
      if .reopen ∈ inside then false else c.serial.portOpen := by
  induction inside generalizing c with
  | nil => rfl
  | cons x inside ih =>
    change ((c.call x).calls inside).serial.portOpen = _
    rw [ih, call_serial]
    cases x with
    | write chunk =>
      cases hc : c.serial.isOpened <;> simp [Serial.call, Serial.write, hc]
    | close => simp [Serial.call, Serial.close]
    | reopen => simp [Serial.call, Serial.reopen, Serial.close, Serial.doOpen]
    | flush => simp [Serial.call]

theorem forget_sound {c : FifoSerial} (hm : c.Matches) (hc : c.inbox.Sound) :
    { c.inbox with reads := c.queuedReads }.Sound := by
  refine hc.forget (l := c.pending.filterMap Op.reading?) rfl fun a ha => ?_
  obtain ⟨op, hop, hread⟩ := List.mem_filterMap.mp ha
  cases op with
  | read k =>
    cases hread
    rfl
  | received k size => exact absurd hop (hm.performed k size)
  | write k chunk => exact nomatch hread

theorem call_inbox_sound {c : FifoSerial} (hm : c.Matches) (hc : c.inbox.Sound) (x : Call) :
    (c.call x).inbox.Sound := by
  cases x with
  | write chunk =>
    simp only [call, write]
    split
    · rename_i hopened
      have hcall : c.serial.call (.write chunk) = { c.serial with
          tasks := c.serial.tasks ++ [.write chunk]
          accepted := c.serial.accepted ++ [chunk] } := by
        simp [Serial.call, Serial.write, hopened]
      rw [post_inbox, hcall]
      exact hc
    · exact hc
  | close =>
    rw [call, close, post_inbox]
    exact hc
  | reopen =>
    have hreplaced : c.reopen.inbox = { c.inbox with reads := c.queuedReads } := by
      rw [inbox, show c.reopen.liveReads = c.queuedReads from (c.call_reads .reopen).2]
      rfl
    rw [call, hreplaced]
    exact forget_sound hm hc
  | flush => exact flush_inbox_sound hc

theorem calls_inbox_sound {c : FifoSerial} (hm : c.Matches) (hc : c.inbox.Sound)
    (inside : List Call) : (c.calls inside).inbox.Sound := by
  induction inside generalizing c with
  | nil => exact hc
  | cons x inside ih => exact ih (hm.call x) (call_inbox_sound hm hc x)

theorem report_inbox (c : FifoSerial) (cause : Nat) (state : ConnectionState)
    (ec : ErrorCode) :
    inbox { c with serial := c.serial.callBackConnectionHandler cause state ec [] } =
      c.inbox := by
  simp only [inbox, Reader.mk.injEq]
  refine ⟨rfl, rfl, rfl, rfl, ?_⟩
  funext k
  simp [Serial.callBackConnectionHandler, Serial.calls, Serial.delivered, Callback.bytes]

theorem give_inbox (c : FifoSerial) (k size : Nat) :
    inbox { c with serial := c.serial.callDataHandler k size [] } = { c.inbox with
      delivered := Function.update c.inbox.delivered k
        (c.inbox.delivered k ++ c.inbox.buffer.take size) } := by
  simp only [inbox, Reader.mk.injEq]
  refine ⟨rfl, rfl, rfl, rfl, ?_⟩
  funext j
  by_cases hj : j = k
  · subst hj
    simp [Serial.callDataHandler, Serial.calls, Serial.delivered, Callback.bytes,
      PacketBuffer.view]
  · simp [Serial.callDataHandler, Serial.calls, Serial.delivered, Function.update_of_ne hj,
      Ne.symm hj]

theorem callBackConnectionHandler_inbox_sound {c : FifoSerial} (hm : c.Matches)
    (hc : c.inbox.Sound) (cause : Nat) (state : ConnectionState) (ec : ErrorCode)
    (inside : List Call) : (c.callBackConnectionHandler cause state ec inside).inbox.Sound := by
  have hreport : Matches { c with
      serial := c.serial.callBackConnectionHandler cause state ec [] } := hm.congr rfl rfl
  refine calls_inbox_sound hreport ?_ inside
  rw [report_inbox]
  exact hc

theorem taken_inbox {c : FifoSerial} {item : Ready} {rest : List Ready} {s : Serial}
    (hq : c.ready = item :: rest) (hn : item.reading? = none)
    (hs : inbox { c with serial := s } = c.inbox) :
    inbox { c with serial := s, ready := rest } = c.inbox := by
  have hreads : ({ c with serial := s, ready := rest } : FifoSerial).liveReads =
      c.liveReads := by
    simp only [liveReads, queuedReads, hq, List.filterMap_cons_none hn]
  rw [← hs, inbox, hreads]
  rfl

theorem openPort_inbox_sound {c : FifoSerial} {inside : List Call} (hm : c.Matches)
    (hc : c.inbox.Sound) (hclosed : c.serial.portOpen = false)
    (hnone : .reopen ∉ inside → c.liveReads = []) : (c.openPort inside).inbox.Sound := by
  have hopened : Matches { c with
      behind := c.ready, serial := { c.serial with portOpen := true } } :=
    ⟨hm.tasks, hm.ops, hm.yields, hm.performed⟩
  have hflushed := flush_inbox_sound (c := { c with
    behind := c.ready, serial := { c.serial with portOpen := true } }) hc
  simp only [openPort, hclosed, Bool.false_eq_true, if_false]
  refine doRead_inbox_sound
    (callBackConnectionHandler_inbox_sound hopened.flush hflushed _ _ _ inside) fun ho => ?_
  rw [callBackConnectionHandler, calls_portOpen] at ho
  rw [callBackConnectionHandler, calls_liveReads]
  by_cases hin : .reopen ∈ inside
  · rw [if_pos hin] at ho
    exact absurd ho Bool.false_ne_true
  · rw [if_neg hin]
    exact hnone hin

theorem received_inbox_sound {c : FifoSerial} {k size : Nat} {rest : List Ready}
    (hm : c.Matches) (hc : c.inbox.Sound) (hq : c.ready = .done (.received k size) 0 :: rest)
    (inside : List Call) :
    (doRead (callDataHandler
      { c with serial := c.serial.begin (.received k size), ready := rest }
      k size inside)).inbox.Sound := by
  have hreads : c.inbox.reads =
      c.pending.filterMap Op.reading? ++ (k, some size) :: rest.filterMap Ready.reading? := by
    simp only [inbox, liveReads, queuedReads, hq]
    rfl
  obtain ⟨hpending, hqueued⟩ := hc.only hreads
  have hended := (hm.ended hq).2.2
  have hgiven := hended.congr
    (s := Serial.callDataHandler (c.serial.begin (.received k size)) k size []) rfl rfl
  have hdeliver := (Reader.Step.deliver c.inbox k size _ _ hreads).sound hc
    (by simp [hpending, hqueued])
  have hinbox : inbox { c with
      serial := Serial.callDataHandler (c.serial.begin (.received k size)) k size []
      ready := rest } = _ :=
    give_inbox { c with serial := c.serial.begin (.received k size), ready := rest } k size
  refine doRead_inbox_sound (calls_inbox_sound hgiven ?_ inside) fun _ => ?_
  · rw [hinbox]
    exact hdeliver
  · rw [callDataHandler, calls_liveReads]
    split
    · exact hqueued
    · exact List.append_eq_nil_iff.mpr ⟨hpending, hqueued⟩

theorem perform_inbox_sound {c : FifoSerial} {k : Nat} {packet : Packet} (hc : c.inbox.Sound)
    (hop : .read k ∈ c.pending) (hp : packet.bytes <+: c.serial.unread k) :
    inbox { c with
      serial := c.serial.perform k packet
      ready := c.ready ++ [.done (.received k packet.bytes.length) 0]
      pending := c.pending.erase (.read k) } |>.Sound := by
  obtain ⟨l, r, hl, he⟩ := Outbox.filterMap_erase_some (f := Op.reading?) hop rfl
  obtain ⟨rest, hrest⟩ := hp
  have hdrop : (c.serial.unread k).drop packet.bytes.length = rest := by
    rw [← hrest, List.drop_left]
  have hreads : c.inbox.reads = l ++ (k, none) :: (r ++ c.queuedReads) := by
    simp only [inbox, liveReads, hl, List.append_assoc, List.cons_append]
  obtain ⟨rfl, hr⟩ := hc.only hreads
  have hperform := (Reader.Step.perform c.inbox k [] _ packet.bytes rest
    (c.serial.receivedData.fill packet).data hreads hrest.symm
    (PacketBuffer.view_fill c.serial.receivedData packet)).sound hc (by simp [hr])
  have hinbox : inbox { c with
      serial := c.serial.perform k packet
      ready := c.ready ++ [.done (.received k packet.bytes.length) 0]
      pending := c.pending.erase (.read k) } = { c.inbox with
        reads := [] ++ (r ++ c.queuedReads) ++ [(k, some packet.bytes.length)]
        buffer := (c.serial.receivedData.fill packet).data
        unread := Function.update c.serial.unread k rest } := by
    simp only [inbox, liveReads, queuedReads, he, List.filterMap_append, hdrop, Serial.perform,
      Reader.mk.injEq, List.nil_append, List.append_assoc, true_and]
    exact ⟨rfl, delivered_eq rfl⟩
  rw [hinbox]
  exact hperform

theorem Move.inbox_sound {c d : FifoSerial} {e : Event} (hm : c.Matches) (hord : c.Ordered 0)
    (hc : c.inbox.Sound) (he : c.OpensAlone e) (h : c.Move e d) : d.inbox.Sound := by
  cases h with
  | call x hr => exact calls_inbox_sound hm hc [x]
  | task t rest inside hr hq =>
    obtain ⟨ht, htaken⟩ := hm.taken hq
    have hinbox : inbox { c with
        serial := { c.serial with tasks := c.serial.tasks.tail }, ready := rest } = c.inbox :=
      taken_inbox hq rfl rfl
    cases t with
    | write chunk =>
      rw [runTask, writeTask_inbox, hinbox]
      exact hc
    | closePort =>
      have hclosed := htaken.congr
        (s := { c.serial with tasks := c.serial.tasks.tail, portOpen := false }) rfl rfl
      rw [runTask, abort_inbox]
      exact forget_sound hclosed (hinbox ▸ hc)
    | openPort =>
      have htail : c.serial.tasks = .openPort :: c.serial.tasks.tail := by
        rw [ht, List.tail_cons]
      refine openPort_inbox_sound htaken (hinbox ▸ hc) (hord.not_open htail) fun hin => ?_
      have hnone : c.liveReads = [] := he (by rw [hq]; rfl) hin
      exact (congrArg Reader.reads hinbox).trans hnone
  | done op ec rest inside hr hq =>
    obtain ⟨_, hy, hended⟩ := hm.ended hq
    unfold handle
    split
    · rename_i hec
      have hinbox : inbox { c with serial := c.serial.begin op, ready := rest } = c.inbox :=
        taken_inbox hq (if_neg hec) rfl
      exact callBackConnectionHandler_inbox_sound hended (hinbox ▸ hc) _ _ _ inside
    · rename_i hec
      obtain rfl : ec = 0 := not_not.mp hec
      cases op with
      | read k => exact absurd rfl hy
      | received k size => exact received_inbox_sound hm hc hq inside
      | write k chunk =>
        have hinbox : inbox { c with
            serial := c.serial.begin (.write k chunk), ready := rest } = c.inbox :=
          taken_inbox hq rfl rfl
        rw [written_inbox, hinbox]
        exact hc
  | arrive k bytes => exact (Reader.Step.arrive c.inbox k bytes).sound hc hc.single
  | perform k packet hr hop hk hp => exact perform_inbox_sound hc hop hp
  | finish k chunk hr hop =>
    have hinbox : inbox { c with
        ready := c.ready ++ [.done (.write k chunk) 0]
        pending := c.pending.erase (.write k chunk) } = c.inbox := by
      have hpending := Outbox.filterMap_erase_none (f := Op.reading?) hop rfl
      have hqueued : Ready.reading? (.done (.write k chunk) 0) = none := rfl
      simp only [inbox, liveReads, queuedReads, List.filterMap_append, hpending,
        List.filterMap_cons_none hqueued, List.filterMap_nil, List.append_nil]
    rw [hinbox]
    exact hc

theorem openPort_second_read {c : FifoSerial} {inside : List Call}
    (hclosed : c.serial.portOpen = false) (hin : .reopen ∉ inside) (hlive : c.liveReads ≠ []) :
    1 < (c.openPort inside).inbox.reads.length := by
  have hpos := List.length_pos_iff.mpr hlive
  simp only [openPort, hclosed, Bool.false_eq_true, if_false]
  rw [doRead_length]
  · rw [callBackConnectionHandler, calls_liveReads, if_neg hin]
    exact Nat.succ_lt_succ hpos
  · rw [callBackConnectionHandler, calls_portOpen, if_neg hin]
    rfl

theorem Move.second_read {c d : FifoSerial} {e : Event} (hm : c.Matches) (hord : c.Ordered 0)
    (he : ¬ c.OpensAlone e) (h : c.Move e d) : 1 < d.inbox.reads.length := by
  cases h with
  | call | arrive | perform | finish => exact absurd trivial he
  | done op ec rest inside hr hq =>
    refine absurd (fun hhead => ?_) he
    rw [hq] at hhead
    exact nomatch Option.some.inj hhead
  | task t rest inside hr hq =>
    obtain ⟨hhead, hin, hlive⟩ : c.ready.head? = some (.task .openPort) ∧
        .reopen ∉ inside ∧ c.liveReads ≠ [] := by
      simpa only [OpensAlone, Classical.not_imp] using he
    obtain rfl : t = .openPort := by
      rw [hq] at hhead
      exact Ready.task.inj (Option.some.inj hhead)
    have ht : c.serial.tasks = .openPort :: c.serial.tasks.tail := by
      rw [(hm.taken hq).1, List.tail_cons]
    have hinbox : inbox { c with
        serial := { c.serial with tasks := c.serial.tasks.tail }, ready := rest } = c.inbox :=
      taken_inbox hq rfl rfl
    refine openPort_second_read (hord.not_open ht) hin fun hnone => hlive ?_
    exact (congrArg Reader.reads hinbox).symm.trans hnone

theorem inbox_sound_start (params : SerialParams) : (start params).inbox.Sound :=
  ⟨Nat.zero_le 1, fun _ => rfl⟩

/-- `received_data_` has one reader throughout a run, and of what each port has received and
no flush has discarded, `data_handler_` is given what was read, in order, exactly when no
port is opened while a read of the port before it is outstanding. -/
theorem reads_once_iff_opens_alone (params : SerialParams) (es : List Event) (c : FifoSerial)
    (hrun : (machine params).run es = some c) :
    (machine params).Throughout (fun c => c.inbox.Sound) es ↔
      (machine params).EachStep OpensAlone es := by
  refine Machine.throughout_iff_eachStep
    (I := fun c => c.inbox.Sound ∧ c.Matches ∧ c.Ordered 0)
    ⟨inbox_sound_start params, .start params, .start params⟩ (fun _ hc => hc.1) ?_ ?_ hrun
  · intro c e d ⟨hc, hm, hord⟩ he hstep
    obtain ⟨d', hmove, rfl⟩ := step_move hstep
    refine ⟨?_, (hmove.refines hm).1.settle, (hmove.ordered hm hord).settle⟩
    rw [settle_inbox]
    exact hmove.inbox_sound hm hord hc he
  · intro c e d ⟨_, hm, hord⟩ he hstep hd
    obtain ⟨d', hmove, rfl⟩ := step_move hstep
    rw [settle_inbox] at hd
    exact absurd hd.single (Nat.not_le.mpr (hmove.second_read hm hord he))

/-- A port that is read, and the port that takes its place and is flushed while a byte of it
is read and another is not. -/
def readTwice : List Event :=
  [.next [], .arrive 1 [7], .perform 1 (.byte 7), .next [], .call .reopen, .next [], .next [],
    .next [], .arrive 2 [8, 9], .perform 2 (.byte 8), .call .flush, .next []]

theorem reads_once_readTwice :
    (machine (serialParams8N1 .br9600)).Throughout (fun c => c.inbox.Sound) readTwice :=
  (reads_once_iff_opens_alone _ readTwice _ rfl).mpr (Machine.eachStep_of_checks (by decide))

/-- The port is replaced only when no open task is queued. -/
def Patient (c : FifoSerial) : Event → Prop
  | .call x => x = .reopen → .task .openPort ∉ c.ready
  | .next inside =>
    inside.count .reopen ≤ 1 ∧ (.reopen ∈ inside → .task .openPort ∉ c.ready.tail)
  | _ => True

instance (c : FifoSerial) (e : Event) : Decidable (c.Patient e) := by
  cases e <;> unfold Patient <;> infer_instance

/-- At most one open task is queued, and while it is, nobody reads the port that it will
open. -/
def Calm (c : FifoSerial) : Prop :=
  ∀ l r, c.ready = l ++ .task .openPort :: r →
    c.serial.portOpen = false ∧ .task .openPort ∉ r ∧ r.filterMap Ready.reading? = []

theorem Calm.queue {c d : FifoSerial} (h : c.Calm) (items : List Ready)
    (hready : d.ready = c.ready ++ items) (hopen : d.serial.portOpen = c.serial.portOpen)
    (hitems : ∀ item ∈ items, item ≠ .task .openPort ∧
      (c.serial.portOpen = false → item.reading? = none)) : d.Calm := by
  intro l r hd
  rw [hready] at hd
  rcases List.append_eq_append_iff.mp hd with ⟨m, hl, hr⟩ | ⟨m, hl, hr⟩
  · have hmem : Ready.task .openPort ∈ items := hr ▸ by simp
    exact absurd rfl (hitems _ hmem).1
  · cases m with
    | nil =>
      have hmem : Ready.task .openPort ∈ items := by
        rw [List.nil_append] at hr
        exact hr ▸ List.mem_cons_self
      exact absurd rfl (hitems _ hmem).1
    | cons item m =>
      rw [List.cons_append] at hr
      obtain ⟨rfl, rfl⟩ := List.cons.inj hr
      obtain ⟨hclosed, hnot, hreads⟩ := h l m hl
      refine ⟨hopen.trans hclosed, fun hmem => ?_, ?_⟩
      · rcases List.mem_append.mp hmem with hmem | hmem
        · exact hnot hmem
        · exact (hitems _ hmem).1 rfl
      · rw [List.filterMap_append, hreads, List.nil_append]
        exact List.filterMap_eq_nil_iff.mpr fun item hmem => (hitems item hmem).2 hclosed

theorem Calm.taken {c d : FifoSerial} {item : Ready} (h : c.Calm)
    (hready : c.ready = item :: d.ready) (hopen : d.serial.portOpen = c.serial.portOpen) :
    d.Calm := by
  intro l r hd
  have hsplit := h (item :: l) r (by rw [hready, hd]; rfl)
  rw [hopen]
  exact hsplit

theorem calm_of_not_mem {c : FifoSerial} (h : .task .openPort ∉ c.ready) : c.Calm := by
  intro l r hd
  exact absurd (hd ▸ by simp) h

theorem calm_of_last {c : FifoSerial} (items : List Ready)
    (hready : c.ready = items ++ [.task .openPort]) (hnot : .task .openPort ∉ items)
    (hclosed : c.serial.portOpen = false) : c.Calm := by
  intro l r hd
  rw [hready] at hd
  rcases List.append_eq_append_iff.mp hd with ⟨m, rfl, hr⟩ | ⟨m, hl, hr⟩
  · cases m with
    | nil =>
      obtain ⟨_, rfl⟩ := List.cons.inj hr
      exact ⟨hclosed, List.not_mem_nil, rfl⟩
    | cons item m => simp at hr
  · cases m with
    | nil =>
      obtain ⟨_, rfl⟩ := List.cons.inj hr
      exact ⟨hclosed, List.not_mem_nil, rfl⟩
    | cons item m =>
      rw [List.cons_append] at hr
      obtain ⟨rfl, _⟩ := List.cons.inj hr
      exact absurd (hl ▸ by simp) hnot

theorem Calm.inert {c d : FifoSerial} (h : c.Calm) (items : List Ready)
    (hready : d.ready = c.ready ++ items) (hopen : d.serial.portOpen = c.serial.portOpen)
    (hitems : ∀ item ∈ items, item.Inert) : d.Calm :=
  h.queue items hready hopen fun item hmem => ⟨(hitems item hmem).1, fun _ => (hitems item hmem).2⟩

theorem Calm.flush {c : FifoSerial} (h : c.Calm) : c.flush.Calm :=
  h.inert [] (List.append_nil _).symm (flush_portOpen c.serial)
    fun _ hitem => absurd hitem List.not_mem_nil

theorem aborted_inert (ops : List Op) :
    ∀ item ∈ ops.map (Ready.done · aborted), item.Inert := by
  intro item hitem
  obtain ⟨op, _, rfl⟩ := List.mem_map.mp hitem
  exact ⟨by simp, rfl⟩

theorem not_mem_inert {items : List Ready} (hitems : ∀ item ∈ items, item.Inert) :
    .task .openPort ∉ items :=
  fun hmem => (hitems _ hmem).1 rfl

theorem call_queue (c : FifoSerial) {x : Call} (hx : x ≠ .reopen) :
    (c.call x).serial.portOpen = c.serial.portOpen ∧
      ∃ items, (c.call x).ready = c.ready ++ items ∧ ∀ item ∈ items, item.Inert := by
  cases x with
  | write chunk =>
    cases hc : c.serial.isOpened with
    | true =>
      refine ⟨by simp [call_serial, Serial.call, Serial.write, hc], [.task (.write chunk)],
        by simp [call, write, hc, post], fun item hitem => ?_⟩
      rw [List.mem_singleton.mp hitem]
      exact ⟨by simp, rfl⟩
    | false => exact ⟨by simp [call, write, hc], [], by simp [call, write, hc], by simp⟩
  | close =>
    refine ⟨rfl, [.task .closePort], rfl, fun item hitem => ?_⟩
    rw [List.mem_singleton.mp hitem]
    exact ⟨by simp, rfl⟩
  | reopen => exact absurd rfl hx
  | flush => exact ⟨flush_portOpen c.serial, [], (List.append_nil _).symm, by simp⟩

theorem reopen_calm {c : FifoSerial} (hnot : .task .openPort ∉ c.ready) :
    c.reopen.Calm := by
  refine calm_of_last
    (c.ready ++ [.task .closePort] ++ c.pending.map (.done · aborted)) rfl ?_ rfl
  simp [hnot]

theorem Calm.calls {c : FifoSerial} (h : c.Calm) (inside : List Call)
    (hone : inside.count .reopen ≤ 1)
    (hnot : .reopen ∈ inside → .task .openPort ∉ c.ready) : (c.calls inside).Calm := by
  induction inside generalizing c with
  | nil => exact h
  | cons x inside ih =>
    change ((c.call x).calls inside).Calm
    by_cases hx : x = .reopen
    · subst hx
      rw [List.count_cons_self] at hone
      refine ih (reopen_calm (hnot List.mem_cons_self)) (by omega) fun hin => ?_
      have hpos := List.count_pos_iff.mpr hin
      omega
    · obtain ⟨hopen, items, hready, hitems⟩ := c.call_queue hx
      refine ih (h.inert items hready hopen hitems) ?_ fun hin => ?_
      · rwa [List.count_cons_of_ne hx] at hone
      · rw [hready]
        exact List.not_mem_append (hnot (List.mem_cons_of_mem x hin)) (not_mem_inert hitems)

theorem Calm.callBackConnectionHandler {c : FifoSerial} (h : c.Calm) {inside : List Call}
    (hone : inside.count .reopen ≤ 1) (hnot : .reopen ∈ inside → .task .openPort ∉ c.ready)
    (cause : Nat) (state : ConnectionState) (ec : ErrorCode) :
    (c.callBackConnectionHandler cause state ec inside).Calm :=
  Calm.calls (c := { c with
    serial := c.serial.callBackConnectionHandler cause state ec [] }) h inside hone hnot

theorem Calm.callDataHandler {c : FifoSerial} (h : c.Calm) {inside : List Call}
    (hone : inside.count .reopen ≤ 1) (hnot : .reopen ∈ inside → .task .openPort ∉ c.ready)
    (cause size : Nat) : (c.callDataHandler cause size inside).Calm :=
  Calm.calls (c := { c with serial := c.serial.callDataHandler cause size [] }) h inside hone hnot

theorem Calm.launch {c : FifoSerial} (h : c.Calm) (op : Op) : (c.launch op).Calm := by
  unfold FifoSerial.launch
  split
  · rename_i hw
    refine h.inert [.done op 0] rfl rfl fun item hitem => ?_
    rw [List.mem_singleton.mp hitem, hw]
    exact ⟨by simp, rfl⟩
  · split
    · exact h
    · refine h.inert [.done op badDescriptor] rfl rfl fun item hitem => ?_
      rw [List.mem_singleton.mp hitem]
      exact ⟨by simp, rfl⟩

theorem Calm.doRead {c : FifoSerial} (h : c.Calm) : c.doRead.Calm :=
  Calm.launch (c := { c with serial := c.serial.doRead }) h _

theorem Calm.doWrite {c : FifoSerial} (h : c.Calm) : c.doWrite.Calm := by
  unfold FifoSerial.doWrite
  split
  · exact h
  · rename_i message rest hq
    have hopen : c.serial.doWrite.portOpen = c.serial.portOpen := by simp [Serial.doWrite, hq]
    refine Calm.launch ?_ _
    exact h.inert [] (List.append_nil _).symm hopen fun _ hitem => absurd hitem List.not_mem_nil

theorem Calm.writeTask {c : FifoSerial} (h : c.Calm) (chunk : Chunk) :
    (c.writeTask chunk).Calm := by
  simp only [FifoSerial.writeTask]
  split
  · exact Calm.doWrite h
  · exact h

theorem Calm.written {c : FifoSerial} (h : c.Calm) (chunk : Chunk) :
    (c.written chunk).Calm := by
  simp only [FifoSerial.written]
  split
  · exact Calm.doWrite h
  · exact h

theorem Calm.ended {c d : FifoSerial} (h : c.Calm) {op : Op}
    (hopen : c.serial.portOpen = true) (hready : d.ready = c.ready ++ [.done op 0])
    (hsame : d.serial.portOpen = c.serial.portOpen) : d.Calm := by
  refine h.queue [.done op 0] hready hsame fun item hitem => ?_
  rw [List.mem_singleton.mp hitem]
  exact ⟨by simp, fun hclosed => absurd hopen (by simp [hclosed])⟩

theorem Move.calm {c d : FifoSerial} {e : Event} (hord : c.Ordered 0) (hc : c.Calm)
    (he : c.Patient e) (h : c.Move e d) : d.Calm := by
  have hpending : ∀ op ∈ c.pending, c.serial.portOpen = true := by
    intro op hop
    cases ho : c.serial.portOpen with
    | true => rfl
    | false =>
      rw [hord.idle ho] at hop
      exact absurd hop List.not_mem_nil
  cases h with
  | call x hr =>
    refine hc.calls [x] List.count_le_length fun hin => he ?_
    exact (List.mem_singleton.mp hin).symm
  | task t rest inside hr hq =>
    have htaken : Calm { c with
        serial := { c.serial with tasks := c.serial.tasks.tail }, ready := rest } :=
      hc.taken hq rfl
    cases t with
    | write chunk => exact htaken.writeTask chunk
    | closePort =>
      have hclosed : Calm { c with
          serial := { c.serial with tasks := c.serial.tasks.tail, portOpen := false }
          ready := rest } := fun l r hsplit => ⟨rfl, (htaken l r hsplit).2⟩
      exact hclosed.inert _ rfl rfl (aborted_inert c.pending)
    | openPort =>
      obtain ⟨hclosed, hnot, _⟩ := hc [] rest hq
      have hopened : Calm { c with
          serial := { c.serial with tasks := c.serial.tasks.tail, portOpen := true }
          ready := rest
          behind := rest } := calm_of_not_mem hnot
      simp only [runTask, openPort, hclosed, Bool.false_eq_true, if_false]
      exact (hopened.flush.callBackConnectionHandler he.1 (fun _ => hnot) _ _ _).doRead
  | done op ec rest inside hr hq =>
    have htaken : Calm { c with serial := c.serial.begin op, ready := rest } :=
      hc.taken hq rfl
    have hnot : .reopen ∈ inside → .task .openPort ∉ rest := fun hin => by
      have htail := he.2 hin
      rwa [hq] at htail
    unfold handle
    split
    · exact htaken.callBackConnectionHandler he.1 hnot _ _ _
    · cases op with
      | read k | received k size => exact (htaken.callDataHandler he.1 hnot k _).doRead
      | write k chunk => exact htaken.written chunk
  | arrive k bytes => exact hc
  | perform k packet hr hop hk hp => exact hc.ended (hpending _ hop) rfl rfl
  | finish k chunk hr hop => exact hc.ended (hpending _ hop) rfl rfl

theorem Calm.opensAlone {c : FifoSerial} (hord : c.Ordered 0) (h : c.Calm) (e : Event) :
    c.OpensAlone e := by
  cases e with
  | call | arrive | perform | finish => trivial
  | next inside =>
    intro hhead _
    obtain ⟨rest, hq⟩ : ∃ rest, c.ready = .task .openPort :: rest :=
      List.head?_eq_some_iff.mp hhead
    obtain ⟨hclosed, _, hreads⟩ := h [] rest hq
    have hqueued : c.queuedReads = rest.filterMap Ready.reading? := by
      rw [queuedReads, hq]
      rfl
    rw [liveReads, hord.idle hclosed, hqueued, hreads]
    rfl

theorem Calm.settle {c : FifoSerial} (h : c.Calm) : c.settle.Calm := by
  refine h.inert [] (List.append_nil _).symm ?_ fun _ hitem => absurd hitem List.not_mem_nil
  unfold FifoSerial.settle Serial.settle
  split
  · rfl
  · rfl

theorem calm_start (params : SerialParams) : (start params).Calm :=
  calm_of_last [] rfl List.not_mem_nil rfl

theorem patient_inbox_sound {params : SerialParams} {es : List Event} {c : FifoSerial}
    (hrun : (machine params).run es = some c)
    (hpatient : (machine params).EachStep Patient es) : c.inbox.Sound := by
  have hstart : (start params).inbox.Sound ∧ (start params).Matches ∧
      (start params).Ordered 0 ∧ (start params).Calm :=
    ⟨inbox_sound_start params, .start params, .start params, calm_start params⟩
  refine (hpatient.invariant (I := fun c =>
    c.inbox.Sound ∧ c.Matches ∧ c.Ordered 0 ∧ c.Calm) hstart ?_ hrun).1
  rintro c e d ⟨hc, hm, hord, hcalm⟩ he hstep
  obtain ⟨d', hmove, rfl⟩ := step_move hstep
  refine ⟨?_, (hmove.refines hm).1.settle, (hmove.ordered hm hord).settle,
    (hmove.calm hord hcalm he).settle⟩
  rw [settle_inbox]
  exact hmove.inbox_sound hm hord hc (hcalm.opensAlone hord e)

end FifoSerial

end Sephi.Net
