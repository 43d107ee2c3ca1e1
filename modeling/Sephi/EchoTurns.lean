import Sephi.EchoDelivery
import Sephi.RunLoops
import Sephi.SessionListening

set_option autoImplicit false

namespace Sephi.Net.Tcp
open Transition EventLoop Outbox Pipeline

variable {ι : Type}

def Echo.Event.peer : Echo.Event ι → ι
  | .write i _ | .task i | .connected i _ | .put i _ | .written i _ => i
  | .accept i _ | .arrive i _ | .read i _ | .echo i _ | .putBack i _ => i
  | .writtenBack i _ | .arriveBack i _ | .readBack i _ | .packet i _ _ => i

/-- The step that the client takes alone, where nothing leaves it and nothing arrives. -/
def Echo.Event.alone : Echo.Event ι → Option Client.Event
  | .write _ chunk => some (.call (.write chunk))
  | .task _ => some (.task 0)
  | .connected _ inside => some (.complete (.connect 1) 0 (inside.map .write))
  | .readBack _ p => some (.perform 1 p)
  | .packet _ size inside => some (.complete (.received 1 size) 0 (inside.map .write))
  | .put _ _ | .written _ _ | .accept _ _ | .arrive _ _ | .read _ _ | .echo _ _ => none
  | .putBack _ _ | .writtenBack _ _ | .arriveBack _ _ => none

def Server.Line.echoed (x : Server.Line) (size : Nat) (data : Chunk) : Server.Line :=
  ⟨((x.session.begin (.received size)).write data).doRead, x.addressed ++ [data],
    x.delivered ++ data⟩

/-- What happens to a client, its connection and its session in one step of theirs. -/
inductive Peer.Turn (p : Peer) (x : Server.Line) :
    Echo.Event ι → Peer → Server.Line → Prop where
  | alone (e : Echo.Event ι) (e' : Client.Event) (k : Client) (he : e.alone = some e')
      (hm : p.client.Move e' k) : Turn p x e { p with client := k.settle } x
  | put (i : ι) (n : Nat) (hn : p.put + n ≤ p.client.writing.length) :
      Turn p x (.put i n) { p with
        up := p.up ++ (p.client.writing.drop p.put).take n, put := p.put + n } x
  | written (i : ι) (chunk : Chunk) (k : Client) (hput : p.put = chunk.length)
      (hm : p.client.Move (.complete (.write 1 chunk) 0 []) k) :
      Turn p x (.written i chunk) { p with client := k.settle, put := 0 } x
  | accept (i : ι) (address : SessionId) (s : Nat) (hnone : p.session = none) :
      Turn p x (.accept i address) { p with session := some s }
        ⟨(Session.make address).start, [], []⟩
  | arrive (i : ι) (n : Nat) :
      Turn p x (.arrive i n) { p with up := p.up.drop n }
        { x with session := x.session.arrive (p.up.take n) }
  | read (i : ι) (packet : Packet) (hop : .read ∈ x.session.ops)
      (hp : packet.bytes <+: x.session.unread) :
      Turn p x (.read i packet) p { x with session := x.session.perform packet }
  | echo (i : ι) (size : Nat) (data : Chunk) (hop : .received size ∈ x.session.ops) :
      Turn p x (.echo i size) p (x.echoed size data)
  | putBack (i : ι) (n : Nat) (hn : p.putBack + n ≤ x.session.writing.length) :
      Turn p x (.putBack i n) { p with
        down := p.down ++ (x.session.writing.drop p.putBack).take n
        putBack := p.putBack + n } x
  | writtenBack (i : ι) (chunk : Chunk) (hput : p.putBack = chunk.length)
      (hop : .write chunk ∈ x.session.ops) :
      Turn p x (.writtenBack i chunk) { p with putBack := 0 }
        { x with session := (x.session.begin (.write chunk)).written chunk }
  | arriveBack (i : ι) (n : Nat) (k : Client)
      (hm : p.client.Move (.arrive 1 (p.down.take n)) k) :
      Turn p x (.arriveBack i n) { p with client := k.settle, down := p.down.drop n } x

def Echo.line (c : Echo ι) (i : ι) : Server.Line := c.server.line (c.peer i).session

theorem Echo.line_session {c : Echo ι} {i : ι} {s : Nat}
    (hsession : (c.peer i).session = some s) : (c.line i).session = c.server.session s := by
  rw [Echo.line, hsession]
  rfl

theorem Echo.touches_line {c : Echo ι} {i : ι} {s : Nat}
    (hsession : (c.peer i).session = some s) (f : Session → Session) :
    c.server.Touches s { c.line i with session := f (c.line i).session }
      (c.server.modify s f) := by
  rw [Echo.line, hsession]
  exact c.server.touches_modify s f

structure Echo.Turned (c d : Echo ι) (i : ι) (p : Peer) (x : Server.Line) : Prop where
  peer : d.peer i = p
  line : d.line i = x
  other : ∀ j, j ≠ i → d.peer j = c.peer j ∧ d.line j = c.line j

variable [DecidableEq ι]

theorem Echo.setPeer_turned (c : Echo ι) {i : ι} {p : Peer}
    (hp : p.session = (c.peer i).session) : c.Turned (c.setPeer i p) i p (c.line i) := by
  have hself : (c.setPeer i p).peer i = p := Function.update_self _ _ _
  have hother : ∀ j, j ≠ i → (c.setPeer i p).peer j = c.peer j :=
    fun j hj => Function.update_of_ne hj _ _
  refine ⟨hself, ?_, fun j hj => ⟨hother j hj, ?_⟩⟩
  · rw [Echo.line, hself, hp]
    rfl
  · rw [Echo.line, hother j hj]
    rfl

theorem Echo.clientStep_turned {c d : Echo ι} {i : ι} {e : Client.Event} {f : Peer → Peer}
    (hs : c.clientStep i e f = some d) (hf : ∀ p, (f p).session = p.session) :
    ∃ k, (c.peer i).client.Move e k ∧
      c.Turned d i (f { c.peer i with client := k.settle }) (c.line i) := by
  obtain ⟨k, hk, rfl⟩ := Option.map_eq_some_iff.mp hs
  obtain ⟨k, hm, rfl⟩ := Client.step_move hk
  exact ⟨k, hm, c.setPeer_turned (hf _)⟩

theorem Echo.Sound.serverStep_turned {c d : Echo ι} {i : ι} {e : Server.Event}
    {f : Peer → Peer} (hs : c.serverStep i e f = some d) {s : Nat}
    (hsession : (f (c.peer i)).session = some s)
    (hother : ∀ j, (c.peer j).session = some s → j = i) :
    ∃ k, c.server.Move e k ∧ ∀ x, c.server.Touches s x k →
      c.Turned d i (f (c.peer i)) x := by
  obtain ⟨k, hk, rfl⟩ := Option.map_eq_some_iff.mp hs
  refine ⟨k, Server.step_move hk, fun x ht => ?_⟩
  have hself : (Echo.setPeer { c with server := k } i (f (c.peer i))).peer i = f (c.peer i) :=
    Function.update_self _ _ _
  have hrest : ∀ j, j ≠ i →
      (Echo.setPeer { c with server := k } i (f (c.peer i))).peer j = c.peer j :=
    fun j hj => Function.update_of_ne hj _ _
  refine ⟨hself, ?_, fun j hj => ⟨hrest j hj, ?_⟩⟩
  · rw [Echo.line, hself, hsession]
    exact ht.self
  · rw [Echo.line, hrest j hj]
    exact ht.other _ fun hjs => hj (hother j hjs)

theorem Echo.Sound.sessionStep_turned {c d : Echo ι} (h : c.Sound) {i : ι}
    {e : Nat → Server.Event} {f : Peer → Peer} (hs : c.sessionStep i e f = some d)
    (hf : ∀ p, (f p).session = p.session) :
    ∃ s k, (c.peer i).session = some s ∧ c.server.Move (e s) k ∧
      ∀ x, c.server.Touches s x k → c.Turned d i (f (c.peer i)) x := by
  cases hsession : (c.peer i).session with
  | none => simp [Echo.sessionStep, hsession] at hs
  | some s =>
    simp only [Echo.sessionStep, hsession] at hs
    obtain ⟨k, hm, hturned⟩ := Echo.Sound.serverStep_turned hs ((hf _).trans hsession)
      fun j hj => h.distinct j i s hj hsession
    exact ⟨s, k, rfl, hm, hturned⟩

theorem Echo.Sound.turn {c d : Echo ι} {e : Echo.Event ι} (h : c.Sound)
    (hs : c.step e = some d) :
    ∃ p x, Peer.Turn (c.peer e.peer) (c.line e.peer) e p x ∧ c.Turned d e.peer p x := by
  have halone {e' : Client.Event} (he : e.alone = some e')
      (hs : c.clientStep e.peer e' id = some d) :
      ∃ p x, Peer.Turn (c.peer e.peer) (c.line e.peer) e p x ∧ c.Turned d e.peer p x := by
    obtain ⟨k, hm, ht⟩ := Echo.clientStep_turned hs fun _ => rfl
    exact ⟨_, _, .alone e e' k he hm, ht⟩
  cases e with
  | write i chunk => exact halone rfl hs
  | task i => exact halone rfl hs
  | connected i inside => exact halone rfl hs
  | readBack i packet => exact halone rfl hs
  | packet i size inside => exact halone rfl hs
  | put i n =>
    simp only [Echo.step, Option.ite_none_right_eq_some, Option.some.injEq] at hs
    obtain ⟨hn, rfl⟩ := hs
    exact ⟨_, _, .put i n hn, c.setPeer_turned rfl⟩
  | written i chunk =>
    simp only [Echo.step, Option.ite_none_right_eq_some] at hs
    obtain ⟨hput, hs⟩ := hs
    obtain ⟨k, hm, ht⟩ := Echo.clientStep_turned hs fun _ => rfl
    exact ⟨_, _, .written i chunk k hput hm, ht⟩
  | accept i address =>
    simp only [Echo.step, Option.ite_none_right_eq_some] at hs
    obtain ⟨hnone, hs⟩ := hs
    have hnew : ∀ j, (c.peer j).session = some c.server.made → j = i := by
      intro j hj
      have hlt := (Server.integrity_of_reachable h.server).made _
        (.inl (h.registered j _ hj))
      exact absurd hlt (Nat.lt_irrefl _)
    obtain ⟨k, hm, hturned⟩ := Echo.Sound.serverStep_turned hs rfl hnew
    exact ⟨_, _, .accept i address _ hnone, hturned _ (Server.touches_accept h.server hm).1⟩
  | arrive i n =>
    obtain ⟨s, k, hsession, hm, hturned⟩ := h.sessionStep_turned hs fun _ => rfl
    cases hm with
    | arrive =>
      exact ⟨_, _, .arrive i n, hturned _ (Echo.touches_line hsession
        (·.arrive ((c.peer i).up.take n)))⟩
  | read i packet =>
    obtain ⟨s, k, hsession, hm, hturned⟩ := h.sessionStep_turned hs fun _ => rfl
    cases hm with
    | perform _ _ hop hp =>
      rw [← Echo.line_session hsession] at hop hp
      exact ⟨_, _, .read i packet hop hp, hturned _ (Echo.touches_line hsession
        (·.perform packet))⟩
  | echo i size =>
    obtain ⟨s, k, hsession, hm, hturned⟩ := h.sessionStep_turned hs fun _ => rfl
    obtain ⟨data, ht⟩ := Server.touches_echo (Server.integrity_of_reachable h.server)
      (h.registered i s hsession) hm
    have hline : c.line i = c.server.line (some s) := congrArg _ hsession
    have hop : .received size ∈ (c.line i).session.ops := by
      rw [Echo.line_session hsession]
      cases hm with
      | failed _ _ _ _ _ hec => exact absurd rfl hec
      | packet _ _ _ hop => exact hop
    have hturn := Peer.Turn.echo (p := c.peer i) (x := c.line i) i size data hop
    rw [hline] at hturn
    exact ⟨_, _, hline ▸ hturn, hturned _ ht⟩
  | putBack i n =>
    unfold Echo.step at hs
    dsimp only at hs
    split at hs
    · contradiction
    · rename_i s hsession
      rw [← Echo.line_session hsession] at hs
      simp only [Option.ite_none_right_eq_some, Option.some.injEq] at hs
      obtain ⟨hn, rfl⟩ := hs
      exact ⟨_, _, .putBack i n hn, c.setPeer_turned rfl⟩
  | writtenBack i chunk =>
    simp only [Echo.step, Option.ite_none_right_eq_some] at hs
    obtain ⟨hput, hs⟩ := hs
    obtain ⟨s, k, hsession, hm, hturned⟩ := h.sessionStep_turned hs fun _ => rfl
    cases hm with
    | failed _ _ _ _ _ hec => exact absurd rfl hec
    | written _ _ _ hop =>
      rw [← Echo.line_session hsession] at hop
      rw [Server.modify_modify] at hturned
      exact ⟨_, _, .writtenBack i chunk hput hop, hturned _ (Echo.touches_line hsession
        fun x => (x.begin (.write chunk)).written chunk)⟩
  | arriveBack i n =>
    have hs : c.clientStep i (.arrive 1 ((c.peer i).down.take n))
      (fun p => { p with down := p.down.drop n }) = some d := hs
    obtain ⟨k, hm, ht⟩ := Echo.clientStep_turned hs fun _ => rfl
    exact ⟨_, _, .arriveBack i n k hm, ht⟩

section Liveliness

/-- What keeps a client going: its thread runs, it connects or reads, and it sends the
front of its queue. -/
structure Client.Lively (c : Client) : Prop where
  running : c.runner = .running
  listens : ∃ op ∈ c.ops, op.listens = true
  flows : ¬ c.pump.Stalled

theorem Client.Lively.settle {c : Client} (h : c.Lively) : c.settle = c := by
  obtain ⟨op, hop, _⟩ := h.listens
  exact if_neg fun hidle => List.ne_nil_of_mem hop hidle.2.2

/-- What the client does by itself, or with its connection, while nothing fails. -/
def Client.Event.Steadily : Client.Event → Prop
  | .task ec => ec = 0
  | e => e.Smooth

theorem Client.Event.Steadily.smooth {e : Client.Event} (h : e.Steadily) : e.Smooth := by
  cases e with
  | task => trivial
  | call | arrive | perform | complete => exact h

theorem Client.Move.runner_eq {c d : Client} {e : Client.Event} (h : c.Move e d)
    (he : e.Steadily) : d.runner = c.runner := by
  cases h with
  | call x => exact Client.calls_runner c [x]
  | queued chunk rest ec =>
    simp only [Client.writeTask]
    split
    · exact Client.doWrite_runner _
    · rfl
  | shutdown k rest ec =>
    obtain rfl : ec = 0 := he
    rfl
  | arrive | perform => rfl
  | failed op ec inside _ _ hec => exact absurd he.1 hec
  | opened k inside => exact Client.calls_runner _ inside
  | packet k size inside => exact Client.calls_runner _ inside
  | written k chunk inside =>
    simp only [Client.handleWrite, ne_eq, not_true_eq_false, if_false]
    split
    · exact Client.doWrite_runner _
    · rfl

theorem Client.Move.listens {c d : Client} {e : Client.Event} (h : c.Move e d)
    (he : e.Steadily) (hc : ∃ op ∈ c.ops, op.listens = true) :
    ∃ op ∈ d.ops, op.listens = true := by
  have hread (c : Client) : ∃ op ∈ c.doRead.ops, op.listens = true :=
    ⟨.read c.socket, List.mem_append_right _ (List.mem_singleton.mpr rfl), rfl⟩
  obtain ⟨op, hop, hl⟩ := hc
  cases h with
  | call x =>
    have hw : [x].all Client.Call.isWrite = true := by
      simpa [Client.Event.Steadily, Client.Event.Smooth] using he
    obtain ⟨l, hcalls⟩ := c.calls_writes hw
    have hops : (c.calls [x]).ops = c.ops := by rw [hcalls]
    exact ⟨op, hops.symm ▸ hop, hl⟩
  | queued chunk rest ec => exact ⟨op, Client.writeTask_ops _ chunk hop, hl⟩
  | shutdown k rest ec =>
    obtain rfl : ec = 0 := he
    exact ⟨op, hop, hl⟩
  | arrive => exact ⟨op, hop, hl⟩
  | perform k packet =>
    exact ⟨.received k packet.bytes.length,
      List.mem_append_right _ (List.mem_singleton.mpr rfl), rfl⟩
  | failed op ec inside _ _ hec => exact absurd he.1 hec
  | opened k inside => exact hread _
  | packet k size inside => exact hread _
  | written k chunk inside =>
    refine ⟨op, Client.handleWrite_ops _ k chunk inside ?_, hl⟩
    refine (List.mem_erase_of_ne ?_).mpr hop
    rintro rfl
    exact absurd hl Bool.false_ne_true

theorem Client.Event.Smooth.not_writeFails {e : Client.Event} (h : e.Smooth) :
    ¬ e.WriteFails := by
  cases e with
  | call | task | arrive | perform => exact id
  | complete op ec inside =>
    cases op with
    | write k chunk => exact fun hec => hec h.1
    | connect | read | received => exact id

theorem Client.Move.lively {c d : Client} {e : Client.Event} (h : c.Move e d)
    (he : e.Steadily) (hs : c.pump.Sound) (hc : c.Lively) : d.Lively where
  running := (h.runner_eq he).trans hc.running
  listens := h.listens he hc.listens
  flows := by
    rw [Pump.Advances.stalled_iff (h.pump_advances he.smooth.not_writeFails) hs]
    exact hc.flows

theorem Client.lively_start : Client.start.Lively :=
  ⟨rfl, ⟨.connect 1, List.mem_singleton.mpr rfl, rfl⟩, fun h => h.2 rfl⟩

structure Peer.Lively (p : Peer) (x : Server.Line) : Prop where
  client : p.client.Lively
  reads : p.session ≠ none → (x.session.inbox x.delivered).reads ≠ []

structure Peer.Sound (p : Peer) (x : Server.Line) : Prop where
  steady : p.client.Steady
  pump : p.client.pump.Sound
  inbox : (x.session.inbox x.delivered).Sound
  pumpBack : x.pump.Sound
  linked : p.Linked x

omit [DecidableEq ι] in
theorem Echo.Event.alone_steadily {e : Echo.Event ι} {e' : Client.Event}
    (he : e.alone = some e') : e'.Steadily := by
  cases e with
  | write => exact Option.some.inj he ▸ rfl
  | task => exact Option.some.inj he ▸ rfl
  | readBack => exact Option.some.inj he ▸ trivial
  | connected _ inside => exact Option.some.inj he ▸ ⟨rfl, all_isWrite inside⟩
  | packet _ _ inside => exact Option.some.inj he ▸ ⟨rfl, all_isWrite inside⟩
  | put | written | accept | arrive | read | echo => exact nomatch he
  | putBack | writtenBack | arriveBack => exact nomatch he

omit [DecidableEq ι] in
theorem Peer.Turn.lively {p q : Peer} {x y : Server.Line} {e : Echo.Event ι}
    (h : Peer.Turn p x e q y) (hs : p.Sound x) (hp : p.Lively x) : q.Lively y := by
  have hclient {e' : Client.Event} {k : Client} (hm : p.client.Move e' k)
      (he : e'.Steadily) : k.settle.Lively := by
    have hk := hm.lively he hs.pump hp.client
    exact hk.settle.symm ▸ hk
  cases h with
  | alone e e' k he hm => exact ⟨hclient hm (Echo.Event.alone_steadily he), hp.reads⟩
  | put => exact ⟨hp.client, hp.reads⟩
  | written i chunk k hput hm => exact ⟨hclient hm ⟨rfl, rfl⟩, hp.reads⟩
  | accept i address s => exact ⟨hp.client, fun _ => List.cons_ne_nil _ _⟩
  | arrive => exact ⟨hp.client, hp.reads⟩
  | read i packet => exact ⟨hp.client, fun _ => Session.perform_reads _ packet _⟩
  | echo i size data =>
    refine ⟨hp.client, fun _ => ?_⟩
    simp [Server.Line.echoed, Session.doRead, Session.inbox, Session.Op.reading?]
  | putBack => exact ⟨hp.client, hp.reads⟩
  | writtenBack i chunk hput hop =>
    refine ⟨hp.client, fun hsession => ?_⟩
    rw [Session.written_inbox, Session.begin_inbox hop rfl]
    exact hp.reads hsession
  | arriveBack i n k hm => exact ⟨hclient hm trivial, hp.reads⟩

omit [DecidableEq ι] in
theorem Echo.Sound.peer {c : Echo ι} (h : c.Sound) (i : ι) : (c.peer i).Sound (c.line i) where
  steady := h.steady i
  pump := Client.pump_sound (h.client i)
  inbox := Server.line_inbox_sound h.server _
  pumpBack := Server.line_pump_sound h.server _
  linked := h.linked i

structure Echo.Going (c : Echo ι) : Prop where
  sound : c.Sound
  lively : ∀ i, (c.peer i).Lively (c.line i)

omit [DecidableEq ι] in
theorem Echo.going_start : (Echo.start : Echo ι).Going :=
  ⟨Echo.sound_start, fun _ => ⟨Client.lively_start, fun h => absurd rfl h⟩⟩

theorem Echo.Going.step {c d : Echo ι} {e : Echo.Event ι} (h : c.Going)
    (hs : c.step e = some d) : d.Going := by
  obtain ⟨p, x, hturn, hturned⟩ := h.sound.turn hs
  refine ⟨h.sound.step hs, fun i => ?_⟩
  by_cases hi : i = e.peer
  · rw [hi, hturned.peer, hturned.line]
    exact hturn.lively (h.sound.peer _) (h.lively _)
  · rw [(hturned.other i hi).1, (hturned.other i hi).2]
    exact h.lively i

theorem Echo.going_of_run {es : List (Echo.Event ι)} {c : Echo ι}
    (h : (Echo.machine ι).run es = some c) : c.Going :=
  Machine.run_invariant (m := Echo.machine ι) Echo.going_start (fun _ _ _ h hs => h.step hs) h

end Liveliness

end Sephi.Net.Tcp
