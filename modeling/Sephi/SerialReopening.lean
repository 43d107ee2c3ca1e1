import Mathlib.Data.List.Chain
import Sephi.RunLoops
import Sephi.SerialFifo

set_option autoImplicit false

namespace Sephi.Net
open Transition EventLoop

namespace Serial

/-- The port is open, exactly one `async_read_some` is outstanding on it, and
`is_opened()` is true. -/
def Usable (c : Serial) : Prop :=
  c.portOpen = true ∧ c.ops.count (.read c.port) = 1 ∧ c.isOpened = true

/-- Neither the handler of a failed operation nor that of a read. -/
def Ready.Harmless : Ready → Prop
  | .task _ => True
  | .done op ec => ec = 0 ∧ op.isRead = false

instance (item : Ready) : Decidable item.Harmless := by
  cases item <;> unfold Ready.Harmless <;> infer_instance

def Ready.fails : Ready → Bool
  | .task _ => false
  | .done _ ec => ec != 0

def Ready.reads : Ready → Bool
  | .task _ => false
  | .done op ec => op.isRead && ec == 0

theorem Ready.harmless_iff (item : Ready) :
    item.Harmless ↔ item.fails = false ∧ item.reads = false := by
  cases item with
  | task t => simp [Ready.Harmless, Ready.fails, Ready.reads]
  | done op ec =>
    by_cases hec : ec = 0 <;> simp [Ready.Harmless, Ready.fails, Ready.reads, hec]

def Task.turn? : Task → Option Bool
  | .write _ => none
  | .closePort => some false
  | .openPort => some true

def turns (c : Serial) : List Bool := c.tasks.filterMap Task.turn?

end Serial

namespace FifoSerial
open Serial

def failing (c : FifoSerial) : Bool := c.ready.any Ready.fails

def readers (c : FifoSerial) : Nat :=
  c.pending.countP Op.isRead + c.ready.countP Ready.reads

/-- Nothing that is queued will report a failure, and one more start of `owed` reads makes
it exactly one read. -/
def Alive (c : FifoSerial) (owed : Nat) : Prop :=
  c.serial.isOpened = true ∧ c.failing = false ∧ c.readers + owed = 1

/-- The last open task has run, and what was queued behind it decides what comes of it. -/
structure Settled (c : FifoSerial) (owed : Nat) : Prop where
  portOpen : c.serial.portOpen = true
  alive_iff : c.Alive owed ↔ ∀ item ∈ c.behind, item.Harmless

/-- No open task finds an open port, and the last of the tasks that `reopen` has posted
opens it. -/
structure Ordered (c : FifoSerial) (owed : Nat) : Prop where
  chain : List.IsChain (fun a b => (a && b) = false) (c.serial.portOpen :: c.serial.turns)
  idle : c.serial.portOpen = false → c.pending = []
  current : ∀ op ∈ c.pending, op.port = c.serial.port
  reopening : c.reopening = true →
    c.serial.turns.getLast? = some true ∨ (c.serial.turns = [] ∧ c.Settled owed)

theorem Ordered.keeps {c d : FifoSerial} {owed owed' : Nat} (h : c.Ordered owed)
    (hopen : d.serial.portOpen = c.serial.portOpen) (hturns : d.serial.turns = c.serial.turns)
    (hport : d.serial.port = c.serial.port)
    (hpending : ∀ op ∈ d.pending,
      op ∈ c.pending ∨ (c.serial.portOpen = true ∧ op.port = c.serial.port))
    (hreopening : d.reopening = c.reopening) (hbehind : d.behind = c.behind)
    (halive : c.serial.portOpen = true → (d.Alive owed' ↔ c.Alive owed)) :
    d.Ordered owed' := by
  refine ⟨?_, fun hd => ?_, fun op hop => ?_, fun hr => ?_⟩
  · rw [hopen, hturns]
    exact h.chain
  · have hc : c.serial.portOpen = false := hopen ▸ hd
    refine List.eq_nil_iff_forall_not_mem.mpr fun op hop => ?_
    rcases hpending op hop with hmem | ⟨ho, _⟩
    · simp [h.idle hc] at hmem
    · simp [hc] at ho
  · rw [hport]
    rcases hpending op hop with hmem | ⟨_, ho⟩
    · exact h.current op hmem
    · exact ho
  · rw [hturns]
    rcases h.reopening (hreopening ▸ hr) with hlast | ⟨hnone, hs⟩
    · exact .inl hlast
    · refine .inr ⟨hnone, hopen.trans hs.portOpen, ?_⟩
      rw [halive hs.portOpen, hbehind]
      exact hs.alive_iff

theorem turns_post (c : Serial) (ts : List Task) :
    turns { c with tasks := c.tasks ++ ts } = c.turns ++ ts.filterMap Task.turn? :=
  List.filterMap_append

theorem chain_close {p : Bool} {ts : List Bool}
    (h : List.IsChain (fun a b => (a && b) = false) (p :: ts)) :
    List.IsChain (fun a b => (a && b) = false) (p :: (ts ++ [false])) := by
  rw [← List.cons_append]
  exact h.append (List.isChain_singleton _) fun a _ b hb => by
    obtain rfl : false = b := by simpa using hb
    simp

theorem chain_closed {p : Bool} {ts : List Bool}
    (h : List.IsChain (fun a b => (a && b) = false) (p :: ts)) :
    List.IsChain (fun a b => (a && b) = false) (false :: ts) :=
  List.isChain_cons.mpr ⟨fun _ _ => rfl, h.tail⟩

theorem Ordered.close {c : FifoSerial} {owed : Nat} (h : c.Ordered owed) :
    c.close.Ordered owed := by
  refine ⟨?_, h.idle, h.current, fun hr => (nomatch hr)⟩
  have ht : c.close.serial.turns = c.serial.turns ++ [false] := turns_post c.serial [.closePort]
  rw [ht]
  exact chain_close h.chain

theorem Ordered.reopen {c : FifoSerial} {owed : Nat} (h : c.Ordered owed) :
    c.reopen.Ordered owed := by
  have ht : c.reopen.serial.turns = c.serial.turns ++ [false] ++ [true] := by
    simp [FifoSerial.reopen, FifoSerial.doOpen, FifoSerial.close, FifoSerial.post,
      FifoSerial.abort, Serial.close, Serial.doOpen, turns, Task.turn?]
  refine ⟨?_, fun _ => rfl, fun _ hop => absurd hop List.not_mem_nil, fun _ => .inl ?_⟩
  · rw [ht, ← List.cons_append]
    have hclosed := chain_closed (chain_close h.chain)
    refine List.IsChain.append hclosed (List.isChain_singleton _) fun a ha b _ => ?_
    rw [← List.cons_append, List.getLast?_concat] at ha
    obtain rfl : false = a := Option.some.inj ha
    rfl
  · rw [ht]
    exact List.getLast?_concat

theorem Ordered.flush {c : FifoSerial} {owed : Nat} (h : c.Ordered owed) :
    c.flush.Ordered owed := by
  obtain ⟨u, k, hflush⟩ := c.serial.flush_eq
  rw [FifoSerial.flush, hflush]
  exact h.keeps rfl rfl rfl (fun _ hop => .inl hop) rfl rfl fun _ => Iff.rfl

theorem Ordered.call {c : FifoSerial} {owed : Nat} (h : c.Ordered owed) (x : Call) :
    (c.call x).Ordered owed := by
  cases x with
  | write chunk =>
    cases hc : c.serial.isOpened with
    | true =>
      have hcall : c.serial.call (.write chunk) = { c.serial with
          tasks := c.serial.tasks ++ [.write chunk]
          accepted := c.serial.accepted ++ [chunk] } := by
        simp [Serial.call, Serial.write, hc]
      simp only [FifoSerial.call, FifoSerial.write, hc, if_true, hcall]
      refine h.keeps rfl (by simp [FifoSerial.post, turns, Task.turn?]) rfl
        (fun _ hop => .inl hop) rfl rfl fun _ => ?_
      simp [Alive, FifoSerial.post, failing, readers, Serial.isOpened, Ready.fails, Ready.reads]
    | false => simpa [FifoSerial.call, FifoSerial.write, hc] using h
  | close => exact h.close
  | reopen => exact h.reopen
  | flush => exact h.flush

theorem Ordered.calls {c : FifoSerial} {owed : Nat} (h : c.Ordered owed)
    (inside : List Call) : (c.calls inside).Ordered owed := by
  induction inside generalizing c with
  | nil => exact h
  | cons x inside ih => exact ih (h.call x)

theorem Ordered.launch {c : FifoSerial} (op : Op) {owed : Nat}
    (h : c.Ordered (owed + [op].countP Op.isRead)) (hport : op.port = c.serial.port)
    (ops : List Op) :
    (launch { c with serial := { c.serial with ops := ops } } op).Ordered owed := by
  unfold FifoSerial.launch
  split
  · rename_i hw
    refine h.keeps rfl rfl rfl (fun _ hop => .inl hop) rfl rfl fun _ => ?_
    rw [hw]
    simp [Alive, failing, readers, Serial.isOpened, Ready.fails, Ready.reads, Op.isRead]
  · split
    · rename_i hopen
      refine h.keeps rfl rfl rfl (fun op' hop => ?_) rfl rfl fun _ => ?_
      · rcases List.mem_append.mp hop with hop | hop
        · exact .inl hop
        · obtain rfl : op' = op := List.mem_singleton.mp hop
          exact .inr ⟨hopen, hport⟩
      · simp only [Alive, failing, readers, Serial.isOpened, List.countP_append]
        refine and_congr_right fun _ => and_congr_right fun _ => ?_
        omega
    · rename_i hclosed
      exact h.keeps rfl rfl rfl (fun _ hop => .inl hop) rfl rfl fun hopen =>
        absurd hopen hclosed

theorem Ordered.doRead {c : FifoSerial} (h : c.Ordered 1) : c.doRead.Ordered 0 :=
  Ordered.launch (.read c.serial.port) h rfl _

theorem Ordered.doWrite {c : FifoSerial} (h : c.Ordered 0) : c.doWrite.Ordered 0 := by
  unfold FifoSerial.doWrite
  split
  · exact h
  · rename_i message rest hq
    have hserial : c.serial.doWrite =
        { c.serial with ops := c.serial.ops ++ [.write c.serial.port message] } := by
      simp [Serial.doWrite, hq]
    rw [hserial]
    exact Ordered.launch (.write c.serial.port message) h rfl _

theorem Ordered.taken {c : FifoSerial} {t : Task} {rest : List Ready} (h : c.Ordered 0)
    (hq : c.ready = .task t :: rest) (ht : c.serial.tasks = t :: c.serial.tasks.tail)
    (hn : t.turn? = none) :
    Ordered { c with
      serial := { c.serial with tasks := c.serial.tasks.tail }, ready := rest } 0 := by
  refine h.keeps rfl ?_ rfl (fun _ hop => .inl hop) rfl rfl fun _ => ?_
  · rw [turns, turns, ht, List.filterMap_cons_none hn]
    rfl
  · simp [Alive, failing, readers, hq, Serial.isOpened, Ready.fails, Ready.reads]

theorem Ordered.writeTask {c : FifoSerial} (h : c.Ordered 0) (chunk : Chunk) :
    (c.writeTask chunk).Ordered 0 := by
  have hqueued : Ordered { c with serial := { c.serial with
      sendingMessages := c.serial.sendingMessages ++ [chunk] } } 0 :=
    h.keeps rfl rfl rfl (fun _ hop => .inl hop) rfl rfl fun _ => Iff.rfl
  simp only [FifoSerial.writeTask]
  split
  · exact hqueued.doWrite
  · exact hqueued

theorem Ordered.written {c : FifoSerial} (h : c.Ordered 0) (chunk : Chunk) :
    (c.written chunk).Ordered 0 := by
  have hpopped : Ordered { c with serial := { c.serial with
      sendingMessages := c.serial.sendingMessages.tail
      sent := c.serial.sent ++ [chunk] } } 0 :=
    h.keeps rfl rfl rfl (fun _ hop => .inl hop) rfl rfl fun _ => Iff.rfl
  simp only [FifoSerial.written]
  split
  · exact hpopped.doWrite
  · exact hpopped

theorem Ordered.closePort {c : FifoSerial} {rest : List Ready} (h : c.Ordered 0)
    (ht : c.serial.tasks = .closePort :: c.serial.tasks.tail) :
    Ordered (abort { c with
      serial := { c.serial with tasks := c.serial.tasks.tail, portOpen := false }
      ready := rest }) 0 := by
  have hturns : c.serial.turns =
      false :: turns { c.serial with tasks := c.serial.tasks.tail } := by
    rw [turns, ht]
    rfl
  refine ⟨?_, fun _ => rfl, fun op hop => (nomatch hop), fun hr => .inl ?_⟩
  · have hchain := h.chain
    rw [hturns] at hchain
    exact hchain.tail
  · rcases h.reopening hr with hlast | ⟨hnone, _⟩
    · rw [hturns] at hlast
      change (turns { c.serial with tasks := c.serial.tasks.tail }).getLast? = some true
      cases hrest : turns { c.serial with tasks := c.serial.tasks.tail } with
      | nil => simp [hrest] at hlast
      | cons b bs => simpa [hrest] using hlast
    · simp [hturns] at hnone

theorem Ordered.not_open {c : FifoSerial} (h : c.Ordered 0)
    (ht : c.serial.tasks = .openPort :: c.serial.tasks.tail) : c.serial.portOpen = false := by
  have hturns : c.serial.turns =
      true :: turns { c.serial with tasks := c.serial.tasks.tail } := by
    rw [turns, ht]
    rfl
  have hchain := h.chain
  rw [hturns, List.isChain_cons_cons, Bool.and_true] at hchain
  exact hchain.1

theorem Ordered.opened {c : FifoSerial} (h : c.Ordered 0) (rest : List Ready)
    (ht : c.serial.tasks = .openPort :: c.serial.tasks.tail) (reports : List Report)
    (u k : Nat → Chunk) :
    Ordered { c with
      serial := { c.serial with
        tasks := c.serial.tasks.tail
        portOpen := true
        unread := u
        kept := k
        connectionState := .connected
        reports := reports }
      ready := rest
      behind := rest } 1 := by
  have hturns : c.serial.turns =
      true :: turns { c.serial with tasks := c.serial.tasks.tail } := by
    rw [turns, ht]
    rfl
  have hchain := h.chain
  rw [hturns] at hchain
  have hpending : c.pending = [] := h.idle (h.not_open ht)
  refine ⟨hchain.tail, fun hopen => (nomatch hopen), fun op hop => ?_, fun hr => ?_⟩
  · rw [hpending] at hop
    nomatch hop
  · rcases h.reopening hr with hlast | ⟨hnone, _⟩
    · rw [hturns] at hlast
      change (turns { c.serial with tasks := c.serial.tasks.tail }).getLast? = some true ∨
        (turns { c.serial with tasks := c.serial.tasks.tail } = [] ∧ _)
      cases hrest : turns { c.serial with tasks := c.serial.tasks.tail } with
      | nil =>
        refine .inr ⟨rfl, rfl, ?_⟩
        simp [Alive, failing, readers, hpending, Serial.isOpened, Ready.harmless_iff,
          List.countP_eq_zero, forall_and]
      | cons b bs =>
        rw [hrest, List.getLast?_cons_cons] at hlast
        exact .inl hlast
    · simp [hturns] at hnone

theorem Ordered.runTask {c : FifoSerial} {t : Task} {rest : List Ready} (h : c.Ordered 0)
    (hq : c.ready = .task t :: rest) (ht : c.serial.tasks = t :: c.serial.tasks.tail)
    (inside : List Call) :
    (FifoSerial.runTask { c with
      serial := { c.serial with tasks := c.serial.tasks.tail }, ready := rest }
      inside t).Ordered 0 := by
  cases t with
  | write chunk => exact (h.taken hq ht rfl).writeTask chunk
  | closePort => exact h.closePort ht
  | openPort =>
    obtain ⟨u, k, hflush⟩ := Serial.flush_eq
      { c.serial with tasks := c.serial.tasks.tail, portOpen := true }
    have hopened := h.opened rest ht (c.serial.reports ++
      [⟨c.serial.port, c.serial.port, .connection .connected 0⟩]) u k
    simp only [FifoSerial.runTask, FifoSerial.openPort, h.not_open ht, Bool.false_eq_true, if_false,
      FifoSerial.flush, hflush]
    exact (hopened.calls inside).doRead

theorem Ordered.failed {c : FifoSerial} {op : Op} {ec : ErrorCode} {rest : List Ready}
    (h : c.Ordered 0) (hq : c.ready = .done op ec :: rest) (hec : ec ≠ 0)
    (reports : List Report) :
    Ordered { c with
      serial := { c.serial.begin op with
        connectionState := .disconnected
        reports := reports }
      ready := rest } 0 := by
  refine h.keeps rfl rfl rfl (fun _ hop => .inl hop) rfl rfl fun _ => ?_
  simp [Alive, failing, hq, Serial.isOpened, Ready.fails, hec]

theorem Ordered.succeeded {c : FifoSerial} {op : Op} {rest : List Ready} (h : c.Ordered 0)
    (hq : c.ready = .done op 0 :: rest) (reports : List Report) :
    Ordered { c with
      serial := { c.serial.begin op with reports := reports }
      ready := rest } ([op].countP Op.isRead) := by
  refine h.keeps rfl rfl rfl (fun _ hop => .inl hop) rfl rfl fun _ => ?_
  cases hread : op.isRead <;>
    simp [Alive, failing, readers, hq, Serial.isOpened, Serial.begin, Ready.fails, Ready.reads,
      hread, Nat.add_assoc]

theorem Ordered.handle {c : FifoSerial} {op : Op} {ec : ErrorCode} {rest : List Ready}
    (h : c.Ordered 0) (hq : c.ready = .done op ec :: rest) (inside : List Call) :
    (FifoSerial.handle { c with serial := c.serial.begin op, ready := rest }
      ec inside op).Ordered 0 := by
  unfold FifoSerial.handle
  split
  · rename_i hec
    exact (h.failed hq hec _).calls inside
  · rename_i hec
    rw [not_not.mp hec] at hq
    cases op with
    | read k | received k size => exact ((h.succeeded hq _).calls inside).doRead
    | write k chunk => exact Ordered.written (h.succeeded hq c.serial.reports) chunk

theorem Ordered.finished {c : FifoSerial} {op op' : Op} (h : c.Ordered 0)
    (hop : op ∈ c.pending) (hread : op'.isRead = op.isRead) {s : Serial}
    (hs : s.portOpen = c.serial.portOpen ∧ s.tasks = c.serial.tasks ∧
      s.port = c.serial.port ∧ s.connectionState = c.serial.connectionState) :
    Ordered { c with
      serial := s
      ready := c.ready ++ [.done op' 0]
      pending := c.pending.erase op } 0 := by
  obtain ⟨hopen, htasks, hport, hstate⟩ := hs
  refine h.keeps hopen (by rw [turns, turns, htasks]) hport
    (fun o ho => .inl (List.mem_of_mem_erase ho)) rfl rfl fun _ => ?_
  have hcount := (List.perm_cons_erase hop).countP_eq Op.isRead
  rw [List.countP_cons] at hcount
  simp only [Alive, failing, readers, Serial.isOpened, hstate, List.any_append, Ready.fails,
    List.countP_append, List.countP_singleton, Ready.reads, hread, List.any_cons, List.any_nil,
    BEq.rfl, bne_self_eq_false, Bool.or_false, Bool.and_true, hcount]
  refine and_congr_right fun _ => and_congr_right fun _ => ?_
  omega

theorem Move.ordered {c d : FifoSerial} {e : Event} (hc : c.Matches) (h : c.Ordered 0)
    (hm : c.Move e d) : d.Ordered 0 := by
  cases hm with
  | call x hr => exact h.call x
  | task t rest inside hr hq =>
    have ht : c.serial.tasks = t :: c.serial.tasks.tail := by
      rw [(hc.taken hq).1, List.tail_cons]
    exact h.runTask hq ht inside
  | done op ec rest inside hr hq => exact h.handle hq inside
  | arrive k bytes =>
    exact h.keeps rfl rfl rfl (fun _ hop => .inl hop) rfl rfl fun _ => Iff.rfl
  | perform k packet hr hop hk hp =>
    have hread : (Op.received k packet.bytes.length).isRead = (Op.read k).isRead := rfl
    exact h.finished hop hread ⟨rfl, rfl, rfl, rfl⟩
  | finish k chunk hr hop => exact h.finished hop rfl ⟨rfl, rfl, rfl, rfl⟩

theorem Ordered.settle {c : FifoSerial} (h : c.Ordered 0) : c.settle.Ordered 0 := by
  unfold FifoSerial.settle Serial.settle
  split
  · exact h.keeps rfl rfl rfl (fun _ hop => .inl hop) rfl rfl fun _ => Iff.rfl
  · exact h

theorem Ordered.start (params : SerialParams) : (FifoSerial.start params).Ordered 0 :=
  ⟨List.isChain_cons.mpr ⟨fun _ _ => rfl, List.isChain_singleton _⟩, fun _ => rfl,
    fun _ hop => (nomatch hop), fun hr => (nomatch hr)⟩

theorem reachable_ordered {params : SerialParams} {c : FifoSerial}
    (h : (machine params).Reachable c) : c.Matches ∧ c.Ordered 0 := by
  refine Machine.Reachable.invariant (I := fun c => c.Matches ∧ c.Ordered 0)
    ⟨.start params, .start params⟩ (fun c e d hc hstep => ?_) h
  obtain ⟨d', hm, rfl⟩ := step_move hstep
  exact ⟨(hm.refines hc.1).1.settle, (hm.ordered hc.1 hc.2).settle⟩

theorem Settled.usable_iff {c : FifoSerial} (hm : c.Matches) (ho : c.Ordered 0)
    (hq : c.ready = []) (hs : c.Settled 0) : c.serial.Usable ↔ c.Alive 0 := by
  have hops : c.serial.ops.count (.read c.serial.port) =
      c.pending.count (.read c.serial.port) := by
    simpa [hq] using hm.ops (.read c.serial.port)
  have hreads : c.pending.count (.read c.serial.port) = c.pending.countP Op.isRead := by
    rw [List.count]
    refine List.countP_congr fun op hop => ?_
    cases op with
    | read k =>
      have hk : k = c.serial.port := ho.current _ hop
      simp [Op.isRead, hk]
    | received k size => exact absurd hop (hm.performed k size)
    | write k chunk => simp [Op.isRead]
  simp [Usable, Alive, failing, readers, hq, hs.portOpen, hops, hreads, and_comm]

/-- In a run whose last call of `close` and `reopen` was a `reopen`, and with nothing left
to be run, the port is usable exactly when nothing queued behind its last open task was
the handler of a read or of a failed operation. -/
theorem reopened_usable_iff {params : SerialParams} {es : List Event} {c : FifoSerial}
    (h : (machine params).run es = some c) (hr : c.reopening = true) (hq : c.ready = []) :
    c.serial.Usable ↔ ∀ item ∈ c.behind, item.Harmless := by
  obtain ⟨hm, ho⟩ := reachable_ordered ⟨es, h⟩
  have hturns : c.serial.turns = [] := by
    rw [turns, hm.tasks, hq]
    rfl
  rcases ho.reopening hr with hlast | ⟨_, hs⟩
  · simp [hturns] at hlast
  · rw [hs.usable_iff hm ho hq]
    exact hs.alive_iff

def reopenedOnce : List Event := [.next [], .call .reopen, .next [], .next [], .next []]

theorem reopened_usable_reopenedOnce :
    ∃ c, (machine (serialParams8N1 .br9600)).run reopenedOnce = some c ∧ c.serial.Usable := by
  have hrun : (machine (serialParams8N1 .br9600)).run reopenedOnce = some _ := rfl
  refine ⟨_, hrun, (reopened_usable_iff hrun rfl rfl).mpr ?_⟩
  exact fun item hitem => (nomatch hitem)

/-- `reopen` straight after the constructor: the task that it posted first opens the new
port, the next one closes it, and the handler of the read that this cancels is run last. -/
theorem reopened_before_open_unusable :
    ∃ c, (machine (serialParams8N1 .br9600)).run
        [.call .reopen, .next [], .next [], .next [], .next []] = some c ∧
      c.reopening = true ∧ c.ready = [] ∧ c.serial.portOpen = true ∧
      c.serial.isOpened = false ∧ ¬ c.serial.Usable := by
  refine ⟨_, rfl, rfl, rfl, rfl, rfl, fun h => ?_⟩
  exact Bool.false_ne_true h.2.2

end FifoSerial

end Sephi.Net
