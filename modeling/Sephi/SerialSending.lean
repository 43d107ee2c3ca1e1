import Sephi.Outbox
import Sephi.Serial

set_option autoImplicit false

namespace Sephi.Net.Serial
open Transition EventLoop Outbox

def Op.chunk? : Op → Option Chunk
  | .write _ chunk => some chunk
  | .read _ | .received _ _ => none

def pump (c : Serial) : Pump Chunk where
  waiting := c.tasks.filterMap Task.chunk?
  queue := c.sendingMessages
  outstanding := c.ops.filterMap Op.chunk?
  completed := c.sent
  accepted := c.accepted

def Event.WriteFails : Event → Prop
  | .complete (.write _ _) ec _ => ec ≠ 0
  | _ => False

@[simp] theorem settle_pump (c : Serial) : c.settle.pump = c.pump := by
  unfold settle
  split <;> rfl

theorem calls_pump (c : Serial) (inside : List Call) :
    Pump.Advances c.pump (c.calls inside).pump := by
  obtain ⟨st, n, p, ts, u, k, hc, _⟩ := c.calls_spec inside
  have h := Pump.accept_all c.pump (ts.filterMap Task.chunk?)
  simpa [hc, pump] using h

theorem callBackConnectionHandler_pump (c : Serial) (cause : Nat)
    (state : ConnectionState) (ec : ErrorCode) (inside : List Call) :
    Pump.Advances c.pump (c.callBackConnectionHandler cause state ec inside).pump :=
  calls_pump { c with
    connectionState := state
    reports := c.reports ++ [⟨c.port, cause, .connection state ec⟩] } inside

theorem callDataHandler_pump (c : Serial) (cause size : Nat) (inside : List Call) :
    Pump.Advances c.pump (c.callDataHandler cause size inside).pump :=
  calls_pump { c with
    reports := c.reports ++ [⟨c.port, cause, .data (c.receivedData.view size)⟩] } inside

@[simp] theorem flush_pump (c : Serial) : c.flush.pump = c.pump := by
  obtain ⟨u, k, h⟩ := c.flush_eq
  rw [h]
  rfl

@[simp] theorem doRead_pump (c : Serial) : c.doRead.pump = c.pump := by
  simp [doRead, pump, Op.chunk?]

theorem writeTask_pump (c : Serial) (chunk : Chunk) (rest : List Task) :
    (writeTask { c with tasks := rest } chunk).pump =
      c.pump.enter chunk (rest.filterMap Task.chunk?) := by
  cases h : c.sendingMessages <;>
    simp [writeTask, doWrite, pump, Pump.enter, Pump.start, Op.chunk?, h]

theorem task_pump {c : Serial} {t : Task} {rest : List Task} (ht : c.tasks = t :: rest)
    (hn : t.chunk? = none) (p : Bool) (r : Runner) :
    pump { c with tasks := rest, portOpen := p, runner := r } = c.pump := by
  simp [pump, ht, hn]

theorem begin_pump {c : Serial} {op : Op} (hop : op ∈ c.ops) (hn : op.chunk? = none) :
    (c.begin op).pump = c.pump := by
  simp [begin, pump, filterMap_erase_none hop hn]

theorem begin_write_pump {c : Serial} {k : Nat} {chunk : Chunk}
    (hop : .write k chunk ∈ c.ops) :
    ∃ l r, c.pump.outstanding = l ++ chunk :: r ∧
      (c.begin (.write k chunk)).pump = { c.pump with outstanding := l ++ r } := by
  obtain ⟨l, r, ho, he⟩ := filterMap_erase_some (f := Op.chunk?) hop rfl
  exact ⟨l, r, ho, by simp [begin, pump, he]⟩

theorem handleWrite_finish (c : Serial) (k : Nat) (chunk : Chunk) (inside : List Call)
    {p : Pump Chunk} {l : List Chunk} (hc : c.pump = { p with outstanding := l }) :
    (c.handleWrite k chunk 0 inside).pump = p.finish chunk l := by
  simp only [pump, Pump.mk.injEq] at hc
  obtain ⟨hw, hq, hout, hs, ha⟩ := hc
  cases ht : p.queue.tail with
  | nil => simp [handleWrite, Pump.finish, Pump.start, pump, hw, hq, hout, hs, ha, ht]
  | cons a rest =>
    simp [handleWrite, doWrite, Pump.finish, Pump.start, pump, hw, hq, hout, hs, ha, ht,
      Op.chunk?]

theorem handleWrite_pump (c : Serial) (k : Nat) (chunk : Chunk) (inside : List Call)
    {p : Pump Chunk} {l r : List Chunk} (ho : p.outstanding = l ++ chunk :: r)
    (hc : c.pump = { p with outstanding := l ++ r }) :
    Pump.Advance p (c.handleWrite k chunk 0 inside).pump := by
  rw [handleWrite_finish c k chunk inside hc]
  exact .finish p chunk l r ho

theorem perform_pump {c : Serial} {k : Nat} (packet : Packet) (hop : .read k ∈ c.ops) :
    (c.perform k packet).pump = c.pump := by
  have he := filterMap_erase_none (f := Op.chunk?) hop rfl
  simp [perform, pump, he, Op.chunk?]

theorem Move.pump_advances {c d : Serial} {e : Event} (h : c.Move e d)
    (he : ¬ e.WriteFails) : Pump.Advances c.pump d.pump := by
  cases h with
  | call x => exact calls_pump c [x]
  | queued chunk rest device inside _ ht =>
    rw [writeTask_pump]
    exact .single (.enter c.pump chunk _ (by simp [pump, ht, Task.chunk?]))
  | closed rest device inside _ ht => rw [task_pump ht rfl false c.runner]
  | thrown t rest p device inside _ ht hn => rw [task_pump ht hn p .terminated]
  | opened rest device inside _ ht =>
    rw [doRead_pump, ← task_pump ht rfl true c.runner, ← flush_pump]
    exact callBackConnectionHandler_pump _ _ _ _ _
  | refused rest p ec device inside _ ht =>
    rw [← task_pump ht rfl p c.runner]
    exact callBackConnectionHandler_pump _ _ _ _ _
  | arrive k bytes => exact .refl
  | perform k packet _ hop => rw [perform_pump packet hop]
  | failed op ec inside _ hop hec =>
    cases hn : op.chunk? with
    | none =>
      rw [← begin_pump hop hn]
      exact callBackConnectionHandler_pump _ _ _ _ _
    | some chunk =>
      cases op with
      | write k chunk => exact absurd hec he
      | read k | received k size => simp [Op.chunk?] at hn
  | data k size inside _ hop =>
    rw [doRead_pump, ← begin_pump hop rfl]
    exact callDataHandler_pump _ _ _ _
  | written k chunk inside _ hop =>
    obtain ⟨l, r, ho, hb⟩ := begin_write_pump hop
    exact .single (handleWrite_pump _ k chunk inside ho hb)

theorem Move.pump_fails {c d : Serial} {e : Event} (h : c.Move e d)
    (he : e.WriteFails) : ∃ p, Pump.Fails c.pump p ∧ Pump.Advances p d.pump := by
  cases h with
  | failed op ec inside _ hop hec =>
    cases op with
    | write k chunk =>
      obtain ⟨l, r, ho, hb⟩ := begin_write_pump hop
      refine ⟨_, .fail c.pump chunk l r ho, ?_⟩
      rw [Pump.fail, ← hb]
      exact callBackConnectionHandler_pump _ _ _ _ _
    | read k | received k size => exact absurd he id
  | written k chunk inside _ hop => exact absurd rfl he
  | call | queued | closed | thrown | opened | refused | arrive | perform | data =>
    exact absurd he id

theorem drives (params : SerialParams) : Drives (machine params) pump Event.WriteFails where
  start := rfl
  advances := by
    intro s e t h he
    obtain ⟨d, hm, rfl⟩ := step_move h
    rw [settle_pump]
    exact hm.pump_advances he
  failed := by
    intro s e t h he
    obtain ⟨d, hm, rfl⟩ := step_move h
    rw [settle_pump]
    exact hm.pump_fails he

@[simp] theorem calls_sendingMessages (c : Serial) (inside : List Call) :
    (c.calls inside).sendingMessages = c.sendingMessages := by
  obtain ⟨st, n, p, ts, u, k, hc, _⟩ := c.calls_spec inside
  simp [hc]

@[simp] theorem calls_sent (c : Serial) (inside : List Call) :
    (c.calls inside).sent = c.sent := by
  obtain ⟨st, n, p, ts, u, k, hc, _⟩ := c.calls_spec inside
  simp [hc]

theorem Move.accepts_or_sends {c d : Serial} {e : Event} (h : c.Move e d) :
    d.accepted = c.accepted ∨
      (d.sendingMessages = c.sendingMessages ∧ d.sent = c.sent) := by
  cases h with
  | call x => exact .inr ⟨calls_sendingMessages c [x], calls_sent c [x]⟩
  | queued chunk rest device inside =>
    refine .inl ?_
    rw [show accepted _ = Pump.accepted (pump _) from rfl, writeTask_pump]
    unfold Pump.enter
    split <;> rfl
  | closed | thrown | arrive | perform => exact .inl rfl
  | opened rest device inside =>
    exact .inr ⟨calls_sendingMessages _ inside, calls_sent _ inside⟩
  | refused rest p ec device inside =>
    exact .inr ⟨calls_sendingMessages _ inside, calls_sent _ inside⟩
  | failed op ec inside => exact .inr ⟨calls_sendingMessages _ inside, calls_sent _ inside⟩
  | data k size inside => exact .inr ⟨calls_sendingMessages _ inside, calls_sent _ inside⟩
  | written k chunk inside =>
    refine .inl ?_
    rw [show accepted _ = Pump.accepted (pump _) from rfl,
      handleWrite_finish (p := (c.begin (.write k chunk)).pump) _ k chunk inside rfl]
    rfl

theorem within_pump {c d t : Serial} {e : Event} (hd : c.within e = some d)
    (ht : c.step e = some t) : t.pump = d.pump := by
  obtain ⟨u, hact, rfl⟩ := Option.map_eq_some_iff.mp ht
  rw [settle_pump]
  cases e with
  | task device inside =>
    simp only [within] at hd
    split at hd
    · rename_i rest htasks
      simp only [act, htasks, Option.ite_none_right_eq_some, Option.some.injEq] at hact
      obtain ⟨_, rfl⟩ := hact
      simp only [runTask, handleOpen]
      split at hd
      · rename_i hec
        rw [if_pos hec, Option.some.inj hd]
      · rename_i hec
        rw [if_neg hec]
        split at hd
        · contradiction
        · rename_i hopt
          rw [if_neg hopt]
          split at hd
          · rename_i hflush
            rw [if_pos hflush, Option.some.inj hd]
          · rename_i hflush
            rw [if_neg hflush, doRead_pump, Option.some.inj hd]
    · contradiction
  | complete op ec inside =>
    simp only [act, Option.ite_none_right_eq_some, Option.some.injEq] at hact
    obtain ⟨⟨_, _, hy⟩, rfl⟩ := hact
    by_cases hec : ec = 0
    · subst hec
      cases op with
      | received k size =>
        simp only [within, ne_eq, not_true_eq_false, if_false, Option.some.injEq] at hd
        simp only [handle, handleRead, ne_eq, not_true_eq_false, if_false, doRead_pump, hd]
      | read k | write k chunk => simp [within] at hd
    · simp only [within, ne_eq, hec, not_false_eq_true, if_true, Option.some.injEq] at hd
      rw [handle_error hec, hd]
  | call | arrive | perform => simp [within] at hd

theorem Asked.sound {params : SerialParams} {c : Serial} (h : Asked params c) :
    c.pump.Sound := by
  cases h with
  | between _ h =>
    obtain ⟨es, hes⟩ := h
    exact (drives params).sound hes
  | inside b t _ e h ht hd =>
    obtain ⟨es, hes⟩ := Machine.Reachable.step h ht
    exact within_pump hd ht ▸ (drives params).sound hes

/-- An open task that succeeds and in whose report the application calls neither
`close` nor `reopen`. -/
def Opens (c : Serial) : Event → Prop
  | .task device inside =>
    c.tasks.head? = some .openPort ∧ device.Opens c ∧ inside.all Call.leavesOpened
  | _ => False

theorem Move.isOpened {c d : Serial} {e : Event} (h : c.Move e d)
    (hd : d.isOpened = true) : c.Opens e ∨ c.isOpened = true := by
  cases h with
  | call x =>
    rw [call_isOpened] at hd
    simp_all
  | queued chunk rest device inside =>
    rw [writeTask_isOpened] at hd
    exact .inr hd
  | closed | thrown | arrive | perform => exact .inr hd
  | opened rest device inside _ ht ho =>
    rw [doRead_isOpened, callBackConnectionHandler_isOpened] at hd
    exact .inl ⟨by simp [ht], ho, by simpa using hd⟩
  | refused rest p ec device inside => simp [callBackConnectionHandler_isOpened] at hd
  | failed op ec inside => simp [callBackConnectionHandler_isOpened] at hd
  | data k size inside =>
    rw [doRead_isOpened, callDataHandler, calls_isOpened] at hd
    simp only [Bool.and_eq_true] at hd
    exact .inr hd.1
  | written k chunk inside =>
    rw [handleWrite_isOpened] at hd
    exact .inr hd

theorem Move.opened_of_opens {c d : Serial} {e : Event} (h : c.Move e d)
    (he : c.Opens e) : d.isOpened = true := by
  cases h with
  | opened rest device inside =>
    rw [doRead_isOpened, callBackConnectionHandler_isOpened]
    simpa using he.2.2
  | queued chunk rest device inside _ ht => simp [Opens, ht] at he
  | closed rest device inside _ ht => simp [Opens, ht] at he
  | thrown t rest p device inside _ _ _ ho => exact absurd he.2.1 ho
  | refused rest p ec device inside _ _ _ ho => exact absurd he.2.1 ho
  | call | arrive | perform | failed | data | written => exact he.elim

theorem Move.not_opened_of_fails {c d : Serial} {e : Event} (h : c.Move e d)
    (he : e.WriteFails) : d.isOpened = false := by
  cases h with
  | failed op ec inside => simp [callBackConnectionHandler_isOpened]
  | written k chunk inside => exact absurd rfl he
  | call | queued | closed | thrown | opened | refused | arrive | perform | data =>
    exact he.elim

theorem connectsPump (params : SerialParams) :
    Connects (machine params) Event.WriteFails Opens (fun c => c.isOpened = true) where
  start := by simp [machine, start, doOpen, isOpened]
  opened := by
    intro s e t h he
    obtain ⟨d, hm, rfl⟩ := step_move h
    simpa using hm.opened_of_opens he
  kept := by
    intro s e t h ht
    obtain ⟨d, hm, rfl⟩ := step_move h
    exact hm.isOpened (by simpa using ht)
  dropped := by
    intro s e t h he
    obtain ⟨d, hm, rfl⟩ := step_move h
    simp [hm.not_opened_of_fails he]

/-- At most one `async_write` is outstanding, its chunk is the front of the queue, and no
accepted chunk is lost, repeated or reordered. -/
def SendsInOrder (c : Serial) : Prop :=
  (c.ops.filterMap Op.chunk?).length ≤ 1 ∧
  (∀ k chunk, .write k chunk ∈ c.ops → c.sendingMessages.head? = some chunk) ∧
  c.sent ++ c.sendingMessages ++ c.tasks.filterMap Task.chunk? = c.accepted

def FrontIsSent (c : Serial) : Prop :=
  c.isOpened = true → ∀ message, c.sendingMessages.head? = some message →
    ∃ k, .write k message ∈ c.ops

def TellsAllSent (c : Serial) : Prop := c.areAllMessagesSent = true → c.sent = c.accepted

def QueuedAhead (c : Serial) : Prop :=
  ∀ chunk, .write chunk ∈ c.tasks → c.sendingMessages ≠ []

theorem tellsAllSent_iff_trusted {c : Serial} : c.TellsAllSent ↔ c.pump.Trusted := by
  rw [TellsAllSent, areAllMessagesSent, List.isEmpty_iff]
  rfl

theorem Asked.tellsAllSent_iff {params : SerialParams} {c : Serial} (h : Asked params c) :
    c.TellsAllSent ↔ c.QueuedAhead := by
  rw [tellsAllSent_iff_trusted, h.sound.trusted_iff]
  constructor
  · intro hp chunk hchunk
    have hmem : chunk ∈ c.pump.waiting := List.mem_filterMap.mpr ⟨_, hchunk, rfl⟩
    exact hp (List.ne_nil_of_mem hmem)
  · intro hq hw
    obtain ⟨chunk, hmem⟩ := List.exists_mem_of_ne_nil _ hw
    obtain ⟨task, htask, hchunk⟩ := List.mem_filterMap.mp hmem
    cases task with
    | write chunk' => exact hq chunk' htask
    | closePort | openPort => simp [Task.chunk?] at hchunk

theorem tellsAllSent_throughout_iff {params : SerialParams} {es : List Event} {c : Serial}
    (h : (machine params).run es = some c) :
    (machine params).Throughout TellsAllSent es ↔ c.accepted = [] := by
  rw [Machine.throughout_congr fun _ _ _ => tellsAllSent_iff_trusted]
  refine (drives params).trusted_iff (fun hstep => ?_) h
  obtain ⟨d, hm, rfl⟩ := step_move hstep
  rw [settle_pump]
  exact hm.accepts_or_sends

theorem mem_outstanding {c : Serial} {chunk : Chunk} :
    chunk ∈ c.pump.outstanding ↔ ∃ k, .write k chunk ∈ c.ops := by
  simp only [pump, List.mem_filterMap]
  constructor
  · rintro ⟨op, hop, hc⟩
    cases op with
    | write k chunk' =>
      obtain rfl : chunk' = chunk := by simpa [Op.chunk?] using hc
      exact ⟨k, hop⟩
    | read k | received k size => simp [Op.chunk?] at hc
  · rintro ⟨k, hk⟩
    exact ⟨_, hk, rfl⟩

theorem sendsInOrder_of_sound {c : Serial} (h : c.pump.Sound) : c.SendsInOrder :=
  ⟨h.single, fun k _ hk => h.head (mem_outstanding.mpr ⟨k, hk⟩), h.conserved⟩

theorem frontIsSent_iff {c : Serial} (h : c.pump.Sound) :
    c.FrontIsSent ↔ (c.isOpened = true → ¬ c.pump.Stalled) := by
  refine imp_congr_right fun _ => ?_
  simp only [← mem_outstanding]
  exact h.front_outstanding_iff

end Sephi.Net.Serial
