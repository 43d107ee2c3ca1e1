import Sephi.ClientSteady
import Sephi.Echo
import Sephi.Pipeline

set_option autoImplicit false

namespace Sephi.Net.Tcp
open Transition Outbox Pipeline

section Lines

/-- A session with the chunks that were addressed to it and the bytes that its packet
handler was given. -/
structure Server.Line where
  session : Session
  addressed : List Chunk
  delivered : Chunk

def Server.line (c : Server) : Option Nat → Server.Line
  | none => ⟨Session.make 0, [], []⟩
  | some s => ⟨c.session s, c.addressed s, c.delivered s⟩

def Server.Line.pump (x : Server.Line) : Pump Chunk := x.session.pump x.addressed

theorem Server.line_pump_sound {c : Server} (h : Server.machine.Reachable c)
    (o : Option Nat) : (c.line o).pump.Sound := by
  cases o with
  | none => exact Pump.sound_empty
  | some s => exact (Server.sending_of_reachable h).sound s

theorem Server.line_inbox_sound {c : Server} (h : Server.machine.Reachable c)
    (o : Option Nat) : ((c.line o).session.inbox (c.line o).delivered).Sound := by
  cases o with
  | none => exact ⟨Nat.zero_le 1, fun _ => rfl⟩
  | some s => exact (Server.reading_of_reachable h).sound s

theorem Server.modify_line_of_ne (c : Server) {s t : Nat} (h : t ≠ s)
    (f : Session → Session) : (c.modify s f).line (some t) = c.line (some t) := by
  simp [Server.modify, Server.line, Server.addressed, Server.delivered,
    Function.update_of_ne h]

theorem Server.modify_line_self (c : Server) (s : Nat) (f : Session → Session) :
    (c.modify s f).line (some s) = { c.line (some s) with session := f (c.session s) } := by
  simp [Server.modify, Server.line, Server.addressed, Server.delivered]

/-- How the bytes on a connection relate its two ends: what has left the one end has
arrived at the other or is on the way, and what the server was given it has addressed
back. -/
structure Peer.Linked (p : Peer) (x : Server.Line) : Prop where
  put : Within p.client.pump p.put
  up : transmitted p.client.pump p.put = x.session.arrived ++ p.up
  echoed : x.delivered = x.addressed.flatten
  putBack : Within x.pump p.putBack
  down : transmitted x.pump p.putBack = p.client.arrived 1 ++ p.down

theorem Peer.linked_start :
    Peer.Linked ⟨Client.start, none, [], [], 0, 0⟩ (Server.start.line none) :=
  ⟨Nat.le_refl 0, rfl, rfl, Nat.le_refl 0, rfl⟩

theorem Peer.Linked.client {p : Peer} {x : Server.Line} (h : p.Linked x) {d : Client}
    {n : Nat} (hn : Within d.pump n)
    (hup : transmitted d.pump n = transmitted p.client.pump p.put)
    (ha : d.arrived = p.client.arrived) :
    Peer.Linked { p with client := d, put := n } x :=
  ⟨hn, hup.trans h.up, h.echoed, h.putBack, ha ▸ h.down⟩

theorem Peer.Linked.line {p : Peer} {x y : Server.Line} (h : p.Linked x) {o : Option Nat}
    {n : Nat} (ha : y.session.arrived = x.session.arrived)
    (he : y.delivered = y.addressed.flatten) (hn : Within y.pump n)
    (hdown : transmitted y.pump n = transmitted x.pump p.putBack) :
    Peer.Linked { p with session := o, putBack := n } y :=
  ⟨h.put, ha ▸ h.up, he, hn, hdown.trans h.down⟩

theorem Peer.Linked.leave {p : Peer} {x : Server.Line} (h : p.Linked x)
    (hs : p.client.pump.Sound) {n : Nat} (hn : p.put + n ≤ p.client.writing.length) :
    Peer.Linked { p with
      up := p.up ++ (p.client.writing.drop p.put).take n, put := p.put + n } x := by
  refine ⟨hn, ?_, h.echoed, h.putBack, h.down⟩
  rw [transmitted_add hs hn, h.up, List.append_assoc]
  rfl

theorem Peer.Linked.leaveBack {p : Peer} {x : Server.Line} (h : p.Linked x)
    (hs : x.pump.Sound) {o : Option Nat} {n : Nat}
    (hn : p.putBack + n ≤ x.session.writing.length) :
    Peer.Linked { p with
      session := o
      down := p.down ++ (x.session.writing.drop p.putBack).take n
      putBack := p.putBack + n } x := by
  refine ⟨h.put, h.up, h.echoed, hn, ?_⟩
  rw [transmitted_add hs hn, h.down, List.append_assoc]
  rfl

end Lines

section Steps

/-- A step that neither puts anything on the connection nor takes anything off it. -/
structure Client.Keeps (c d : Client) : Prop where
  sent : d.sent = c.sent
  queue : d.sendingMessages = c.sendingMessages
  writing : d.ops.filterMap Client.Op.chunk? = c.ops.filterMap Client.Op.chunk?
  arrived : d.arrived = c.arrived

theorem Peer.Linked.keeps {p : Peer} {x : Server.Line} (h : p.Linked x) {d : Client}
    (hd : p.client.Keeps d) : Peer.Linked { p with client := d } x := by
  refine h.client ?_ ?_ hd.arrived
  · have hput := h.put
    simpa [Within, Client.pump, hd.writing] using hput
  · simp [transmitted, Client.pump, hd.sent, hd.queue]

theorem Client.Keeps.calls {c : Client} {inside : List Client.Call}
    (hw : inside.all Client.Call.isWrite = true) : c.Keeps (c.calls inside) := by
  obtain ⟨l, hl⟩ := c.calls_writes hw
  rw [hl]
  exact ⟨rfl, rfl, rfl, rfl⟩

theorem Client.Keeps.trans {b c d : Client} (h : b.Keeps c) (h' : c.Keeps d) : b.Keeps d :=
  ⟨h'.sent.trans h.sent, h'.queue.trans h.queue, h'.writing.trans h.writing,
    h'.arrived.trans h.arrived⟩

theorem Client.Keeps.doRead (c : Client) : c.Keeps c.doRead :=
  ⟨rfl, rfl, by simp [Client.doRead, Client.Op.chunk?], rfl⟩

theorem Client.Keeps.settle (c : Client) : c.Keeps c.settle := by
  unfold Client.settle
  split <;> exact ⟨rfl, rfl, rfl, rfl⟩

theorem Client.Keeps.reported {c : Client} {op : Client.Op} (hop : op ∈ c.ops)
    (hn : op.chunk? = none) (st : ConnectionState) (hs : List Client.Completion)
    (rs : List Client.Report) :
    c.Keeps { c with
      connectionState := st, ops := c.ops.erase op, handled := hs, reports := rs } :=
  ⟨rfl, rfl, filterMap_erase_none hop hn, rfl⟩

def Client.Event.Local : Client.Event → Prop
  | .arrive _ _ | .complete (.write _ _) _ _ => False
  | _ => True

theorem Client.Move.linked {p : Peer} {x : Server.Line} {d : Client} {e : Client.Event}
    (hm : p.client.Move e d) (h : p.Linked x) (hs : p.client.pump.Sound) (he : e.Smooth)
    (hl : e.Local) : Peer.Linked { p with client := d } x := by
  cases hm with
  | call y =>
    have hw : [y].all Client.Call.isWrite = true := by
      simpa [Client.Event.Smooth] using he
    exact h.keeps (Client.Keeps.calls hw)
  | queued chunk rest ec _ ht =>
    have hp := Client.writeTask_pump p.client chunk rest
    refine h.client ?_ ?_ ?_
    · rw [hp]
      exact h.put.enter chunk _
    · rw [hp]
      exact enter_transmitted hs h.put chunk _
    · simp only [Client.writeTask]
      split
      · cases hq : p.client.sendingMessages <;> simp [Client.doWrite]
      · rfl
  | shutdown k rest ec =>
    refine h.keeps ?_
    simp only [Client.runTask]
    split <;> exact ⟨rfl, rfl, rfl, rfl⟩
  | arrive k bytes => exact hl.elim
  | perform k packet _ hop =>
    have hw := filterMap_erase_none (f := Client.Op.chunk?) hop rfl
    exact h.keeps ⟨rfl, rfl, by simp [Client.perform, hw, Client.Op.chunk?], rfl⟩
  | failed op ec inside _ _ hec => exact absurd he.1 hec
  | opened k inside _ hop =>
    exact h.keeps ((Client.Keeps.reported hop rfl _ _ _).trans
      ((Client.Keeps.calls he.2).trans (Client.Keeps.doRead _)))
  | packet k size inside _ hop =>
    exact h.keeps ((Client.Keeps.reported hop rfl _ _ _).trans
      ((Client.Keeps.calls he.2).trans (Client.Keeps.doRead _)))
  | written k chunk inside => exact hl.elim

theorem Client.Move.linked_written {p : Peer} {x : Server.Line} {d : Client} {k : Nat}
    {chunk : Chunk} {inside : List Client.Call}
    (hm : p.client.Move (.complete (.write k chunk) 0 inside) d) (h : p.Linked x)
    (hs : p.client.pump.Sound) (hput : p.put = chunk.length) :
    Peer.Linked { p with client := d, put := 0 } x := by
  cases hm with
  | failed _ _ _ _ _ hec => exact absurd rfl hec
  | written _ _ _ _ hop =>
    obtain ⟨l, r, ho, hb⟩ := Client.begin_write_pump hop 0
    have hd : ((p.client.begin (.write k chunk) 0).handleWrite k chunk 0 inside).pump =
        p.client.pump.finish chunk (l ++ r) := Client.handleWrite_finish _ k chunk inside hb
    refine h.client (Nat.zero_le _) ?_ ?_
    · rw [hd, hput]
      exact finish_transmitted hs ho
    · simp only [Client.handleWrite, ne_eq, not_true_eq_false, if_false]
      split
      · cases hq : p.client.sendingMessages.tail <;> simp [Client.doWrite, Client.begin, hq]
      · rfl

theorem Client.Move.linked_arrive {p : Peer} {x : Server.Line} {d : Client} {n : Nat}
    (hm : p.client.Move (.arrive 1 (p.down.take n)) d) (h : p.Linked x) :
    Peer.Linked { p with client := d, down := p.down.drop n } x := by
  cases hm with
  | arrive =>
    refine ⟨h.put, h.up, h.echoed, h.putBack, h.down.trans ?_⟩
    simp [Client.arrive]

theorem Server.writeTo_line {c : Server} {id : SessionId} {s : Nat}
    (hid : c.sessions.lookup id = some s) (chunk : Chunk) :
    (c.write (.writeTo id chunk)).line (some s) =
        ⟨(c.session s).write chunk, c.addressed s ++ [chunk], c.delivered s⟩ ∧
      ∀ t, t ≠ s → (c.write (.writeTo id chunk)).line (some t) = c.line (some t) := by
  have htargets : (Server.WriteCall.writeTo id chunk).targets c.sessions = [s] := by
    simp [Server.WriteCall.targets, hid]
  have hdelivered : ∀ t, (c.write (.writeTo id chunk)).delivered t = c.delivered t := by
    intro t
    simp [Server.write_eq, Server.delivered, Server.Entry.bytesOf]
  have hchunk : ∀ t, (c.write (.writeTo id chunk)).addressed t =
      c.addressed t ++ if t = s then [chunk] else [] := by
    intro t
    have hiff := Server.addressed_iff (c := c) (w := .writeTo id chunk) (s := t)
    rw [htargets, List.mem_singleton] at hiff
    by_cases hts : t = s
    · subst hts
      simp [Server.write_eq, Server.addressed, Server.Entry.chunkFor, hiff.mpr rfl,
        Server.WriteCall.chunk]
    · have hno := mt hiff.mp hts
      simp [Server.write_eq, Server.addressed, Server.Entry.chunkFor, hno, hts]
  have hsession : ∀ t, (c.write (.writeTo id chunk)).session t =
      if t = s then (c.session s).write chunk else c.session t := by
    intro t
    by_cases hts : t = s
    · simp [Server.write_eq, htargets, hts, Server.WriteCall.chunk]
    · simp [Server.write_eq, htargets, hts, List.count_cons_of_ne (Ne.symm hts)]
  constructor
  · simp [Server.line, hsession, hchunk, hdelivered]
  · intro t hts
    simp [Server.line, hsession, hchunk, hdelivered, hts]

/-- What the step of a session does to the lines, and that it takes nobody off the map. -/
structure Server.Touches (s : Nat) (x : Server.Line) (c d : Server) : Prop where
  self : d.line (some s) = x
  other : ∀ o, o ≠ some s → d.line o = c.line o
  registered : ∀ t, c.Registered t → d.Registered t

theorem Server.touches_modify (c : Server) (s : Nat) (f : Session → Session) :
    c.Touches s { c.line (some s) with session := f (c.session s) } (c.modify s f) := by
  refine ⟨c.modify_line_self s f, fun o ho => ?_, fun _ ht => ht⟩
  cases o with
  | none => rfl
  | some t => exact c.modify_line_of_ne (fun hts => ho (congrArg some hts)) f

theorem Server.Touches.trans {s : Nat} {x y : Server.Line} {b c d : Server}
    (h : b.Touches s x c) (h' : c.Touches s y d) : b.Touches s y d :=
  ⟨h'.self, fun o ho => (h'.other o ho).trans (h.other o ho),
    fun t ht => h'.registered t (h.registered t ht)⟩

theorem Server.touches_packet (c : Server) (s : Nat) (id : SessionId) (data : Chunk) :
    c.Touches s { c.line (some s) with delivered := c.delivered s ++ data }
      (c.callBack s (.packet id data)) := by
  refine ⟨?_, fun o ho => ?_, fun _ ht => ht⟩
  · simp [Server.callBack, Server.record, Server.line, Server.addressed, Server.delivered,
      Server.Entry.chunkFor, Server.Entry.bytesOf]
  · cases o with
    | none => rfl
    | some t =>
      have hst : s ≠ t := fun hst => ho (congrArg some hst.symm)
      simp [Server.callBack, Server.record, Server.line, Server.addressed, Server.delivered,
        Server.Entry.chunkFor, Server.Entry.bytesOf, hst]

theorem Server.touches_writeTo {c : Server} {id : SessionId} {s : Nat}
    (hid : c.sessions.lookup id = some s) (chunk : Chunk) :
    c.Touches s ⟨(c.session s).write chunk, c.addressed s ++ [chunk], c.delivered s⟩
      (c.write (.writeTo id chunk)) := by
  obtain ⟨hself, hother⟩ := Server.writeTo_line hid chunk
  refine ⟨hself, fun o ho => ?_, fun t ht => ?_⟩
  · cases o with
    | none => rfl
    | some t => exact hother t fun hts => ho (congrArg some hts)
  · simpa [Server.Registered, Server.write_sessions] using ht

theorem Server.touches_echo {c d : Server} (hi : c.Integrity []) {s size : Nat}
    (hr : c.Registered s)
    (hm : c.Move (.complete s (.received size) 0 (c.echoes s size)) d) :
    ∃ data, c.Touches s ⟨(((c.session s).begin (.received size)).write data).doRead,
      c.addressed s ++ [data], c.delivered s ++ data⟩ d := by
  cases hm with
  | failed _ _ _ _ _ hec => exact absurd rfl hec
  | packet _ _ _ hop =>
    refine ⟨(c.session s).receivedPacket.view size, ?_⟩
    rw [Server.handleRead_begin]
    have hbegun := c.touches_modify s (·.begin (.received size))
    have hgiven := Server.touches_packet (c.modify s (·.begin (.received size))) s
      (c.sessionPtrToId s) ((c.session s).receivedPacket.view size)
    have hid : ((c.modify s (·.begin (.received size))).callBack s
        (.packet (c.sessionPtrToId s)
          ((c.session s).receivedPacket.view size))).sessions.lookup (c.sessionPtrToId s) =
        some s := hi.lookup_registered hr
    have hwritten := Server.touches_writeTo hid ((c.session s).receivedPacket.view size)
    have hread := Server.touches_modify (Server.calls ((c.modify s
      (·.begin (.received size))).callBack s (.packet (c.sessionPtrToId s)
        ((c.session s).receivedPacket.view size))) (c.echoes s size)) s Session.doRead
    have hall := ((hbegun.trans hgiven).trans hwritten).trans hread
    refine ⟨hall.self.trans ?_, hall.other, hall.registered⟩
    have hline := hwritten.self
    simp only [Server.line, Server.Line.mk.injEq] at hline
    obtain ⟨hsession, haddressed, hdelivered⟩ := hline
    have hb := hgiven.self
    simp only [Server.line, Server.Line.mk.injEq] at hb
    simp only [Server.calls, Server.echoes, List.foldl_cons, List.foldl_nil, Server.call,
      Server.line, hsession, haddressed, hdelivered, Server.Line.mk.injEq]
    refine ⟨?_, ?_, hb.2.2⟩
    · rw [hb.1]
      simp [Server.modify]
    · rw [hb.2.1]
      rfl

theorem Server.touches_announce {c : Server} (hs : c.Sending []) (hr : c.Reading [])
    (address : SessionId) :
    c.Touches c.made ⟨Session.make address, [], []⟩ (c.announce address) := by
  refine ⟨?_, fun o ho => ?_, fun _ ht => ht⟩
  · have hfresh := hs.fresh c.made (Nat.le_refl _)
    rw [Server.line, c.announce_session_new, c.announce_addressed, c.announce_delivered,
      hs.addressed_new, hr.delivered_new hfresh]
  · cases o with
    | none => rfl
    | some t =>
      have ht : t ≠ c.made := fun hts => ho (congrArg some hts)
      rw [Server.line, c.announce_session_of_ne address ht, c.announce_addressed,
        c.announce_delivered]
      rfl

theorem Server.touches_emplace {c : Server} {s : Nat}
    (hn : c.sessions.lookup (c.session s).address = none) :
    c.Touches s (c.line (some s)) (c.emplace s) := by
  rw [Server.emplace_eq hn]
  have hline : ∀ t, (Server.record { c with
      sessions := c.sessions.insert (c.session s).address s } (.emplaced s)).line
        (some t) = c.line (some t) := by
    intro t
    simp [Server.record, Server.line, Server.addressed, Server.delivered,
      Server.Entry.chunkFor, Server.Entry.bytesOf]
  refine ⟨hline s, fun o _ => ?_, fun t ht => ?_⟩
  · cases o with
    | none => rfl
    | some t => exact hline t
  · exact Server.emplace_eq hn ▸ (Server.emplace_registered hn t).mpr (.inl ht)

theorem Server.touches_accept {c d : Server} (h : Server.machine.Reachable c)
    {address : SessionId} (hm : c.Move (.accept 0 address []) d) :
    c.Touches c.made ⟨(Session.make address).start, [], []⟩ d ∧ d.Registered c.made := by
  cases hm with
  | refused _ _ _ hec => exact absurd rfl hec
  | accepted _ _ hfree =>
    have hi := (Server.integrity_of_reachable h).accepting (c.accepting - 1)
    have hs := Server.sending_of_reachable h
    have hr := Server.reading_of_reachable h
    have hnone := (hi.announce hfree).lookup_none Server.live_held (hi.announced hfree [])
    have hannounced := Server.touches_announce (c := { c with accepting := c.accepting - 1 })
      ⟨hs.fresh, hs.sound, hs.flows⟩ ⟨hr.sound, hr.idle⟩ address
    have hemplaced := hannounced.trans (Server.touches_emplace hnone)
    rw [hannounced.self] at hemplaced
    have hstarted := hemplaced.trans (Server.touches_modify _ c.made Session.start)
    rw [hemplaced.self] at hstarted
    rw [Server.handleAccept_eq]
    refine ⟨⟨hstarted.self.trans ?_, hstarted.other, hstarted.registered⟩,
      (Server.emplace_registered hnone _).mpr (.inr rfl)⟩
    have hline := hemplaced.self
    simp only [Server.line, Server.Line.mk.injEq] at hline
    rw [hline.1]

theorem Server.Move.linked_arrive {p : Peer} {c d : Server} {s n : Nat}
    (hm : c.Move (.arrive s (p.up.take n)) d) (h : p.Linked (c.line (some s))) :
    ∃ x, c.Touches s x d ∧ Peer.Linked { p with up := p.up.drop n } x := by
  cases hm with
  | arrive =>
    refine ⟨_, Server.touches_modify c s _, h.put, h.up.trans ?_, h.echoed, h.putBack, h.down⟩
    simp [Session.arrive, Server.line]

theorem Server.Move.linked_perform {p : Peer} {c d : Server} {s : Nat} {packet : Packet}
    (hm : c.Move (.perform s packet) d) (h : p.Linked (c.line (some s))) :
    ∃ x, c.Touches s x d ∧ p.Linked x := by
  cases hm with
  | perform _ _ hop =>
    have hp : ((c.session s).perform packet).pump (c.addressed s) =
        (c.session s).pump (c.addressed s) := Session.perform_pump hop packet _
    refine ⟨_, Server.touches_modify c s _, h.line rfl h.echoed ?_ ?_⟩
    · exact (congrArg (Within · _) hp).mpr h.putBack
    · exact congrArg (transmitted · _) hp

theorem Session.write_arrived (x : Session) (chunk : Chunk) :
    (x.write chunk).arrived = x.arrived :=
  congrFun (congrArg Inbox.Reader.arrived (Session.write_inbox x chunk [])) ()

theorem Session.written_arrived (x : Session) (chunk : Chunk) :
    (x.written chunk).arrived = x.arrived :=
  congrFun (congrArg Inbox.Reader.arrived (Session.written_inbox x chunk [])) ()

theorem Server.Move.linked_echo {p : Peer} {c d : Server} {s size : Nat}
    (hm : c.Move (.complete s (.received size) 0 (c.echoes s size)) d)
    (hi : c.Integrity []) (hr : c.Registered s) (hs : (c.line (some s)).pump.Sound)
    (h : p.Linked (c.line (some s))) : ∃ x, c.Touches s x d ∧ p.Linked x := by
  obtain ⟨data, ht⟩ := Server.touches_echo hi hr hm
  have hop : .received size ∈ (c.session s).ops := by
    cases hm with
    | failed _ _ _ _ _ hec => exact absurd rfl hec
    | packet _ _ _ hop => exact hop
  have hp : ((((c.session s).begin (.received size)).write data).doRead).pump
      (c.addressed s ++ [data]) =
        (Pump.accept (c.line (some s)).pump data).enter data [] := by
    rw [Session.doRead_pump, Session.write_pump, Session.begin_pump hop rfl]
    rfl
  have haccepted : (Pump.accept (c.line (some s)).pump data).Sound :=
    (Pump.Advance.accept _ data).sound hs
  have hwithin : Within (Pump.accept (c.line (some s)).pump data) p.putBack := h.putBack
  refine ⟨_, ht, h.line ?_ ?_ ?_ ?_⟩
  · exact Session.write_arrived _ data
  · have hechoed : c.delivered s = (c.addressed s).flatten := h.echoed
    simp [hechoed]
  · rw [Server.Line.pump, hp]
    exact hwithin.enter data []
  · rw [Server.Line.pump, hp]
    exact enter_transmitted haccepted hwithin data []

theorem Server.Move.linked_written {p : Peer} {c d : Server} {s : Nat} {chunk : Chunk}
    {inside : List Server.Call} (hm : c.Move (.complete s (.write chunk) 0 inside) d)
    (hs : (c.line (some s)).pump.Sound) (hput : p.putBack = chunk.length)
    (h : p.Linked (c.line (some s))) :
    ∃ x, c.Touches s x d ∧ Peer.Linked { p with putBack := 0 } x := by
  cases hm with
  | failed _ _ _ _ _ hec => exact absurd rfl hec
  | written _ _ _ hop =>
    rw [Server.modify_modify]
    refine ⟨_, c.touches_modify s _, ?_⟩
    obtain ⟨l, r, ho, hb⟩ := Session.begin_write_pump hop (c.addressed s)
    have hp : (((c.session s).begin (.write chunk)).written chunk).pump (c.addressed s) =
        (c.line (some s)).pump.finish chunk (l ++ r) := by
      rw [Session.written_pump, hb]
      rfl
    refine h.line ?_ h.echoed (Nat.zero_le _) ?_
    · exact Session.written_arrived _ chunk
    · refine (congrArg (transmitted · 0) hp).trans ?_
      rw [hput]
      exact finish_transmitted hs ho

end Steps

end Sephi.Net.Tcp
