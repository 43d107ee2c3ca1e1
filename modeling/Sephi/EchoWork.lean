import Sephi.EchoTurns

set_option autoImplicit false

namespace Sephi.Net.Tcp
open Transition Outbox Pipeline

section Clients

def Client.Op.busy : Client.Op → Bool
  | .connect _ | .received _ _ => true
  | .read _ | .write _ _ => false

/-- What is left for a client to do, when `n` bytes of its outstanding `async_write` have
left it. Of its bytes those count most that have the longest way before them. -/
def Client.work (c : Client) (n : Nat) : Nat :=
  9 * (remaining c.pump n).length + 2 * c.tasks.length + c.sendingMessages.length +
    2 * (c.unread 1).length + c.ops.countP Client.Op.busy

theorem Client.doWrite_eq (c : Client) :
    ∃ l, c.doWrite = { c with ops := c.ops ++ l } ∧ l.countP Client.Op.busy = 0 := by
  unfold Client.doWrite
  split
  · exact ⟨[], by rw [List.append_nil], rfl⟩
  · rename_i message rest _
    exact ⟨[.write c.socket message], rfl, rfl⟩

theorem Client.writeTask_eq (c : Client) (chunk : Chunk) :
    ∃ l, c.writeTask chunk = { c with
        sendingMessages := c.sendingMessages ++ [chunk], ops := c.ops ++ l } ∧
      l.countP Client.Op.busy = 0 := by
  simp only [Client.writeTask]
  split
  · exact Client.doWrite_eq _
  · exact ⟨[], by simp, rfl⟩

theorem Client.handleWrite_eq (c : Client) (k : Nat) (chunk : Chunk)
    (inside : List Client.Call) :
    ∃ l, c.handleWrite k chunk 0 inside = { c with
        sendingMessages := c.sendingMessages.tail, sent := c.sent ++ [chunk]
        ops := c.ops ++ l } ∧
      l.countP Client.Op.busy = 0 := by
  simp only [Client.handleWrite, ne_eq, not_true_eq_false, if_false]
  split
  · exact Client.doWrite_eq _
  · exact ⟨[], by simp, rfl⟩

/-- What the client does when its application writes nothing and nothing arrives. -/
def Client.Event.Onward : Client.Event → Prop
  | .task ec => ec = 0
  | .perform k _ => k = 1
  | .complete op ec inside => op.chunk? = none ∧ ec = 0 ∧ inside = []
  | .call _ | .arrive _ _ => False

theorem Client.Move.work_lt {c d : Client} {e : Client.Event} {n : Nat} (h : c.Move e d)
    (he : e.Onward) (hs : c.pump.Sound) (hn : Within c.pump n) : d.work n < c.work n := by
  have hdone {op : Client.Op} (hop : op ∈ c.ops) (hb : op.busy = true) {l : List Client.Op}
      (hl : l = c.ops.erase op ++ [.read c.socket]) :
      l.countP Client.Op.busy < c.ops.countP Client.Op.busy := by
    rw [hl, List.countP_append, countP_erase_of_mem hop, hb]
    exact Nat.lt_succ_self _
  cases h with
  | call | arrive => exact he.elim
  | queued chunk rest ec _ ht =>
    have hpump := Client.writeTask_pump c chunk rest
    have hsound : (c.pump.enter chunk (rest.filterMap Client.Task.chunk?)).Sound :=
      (Pump.Advance.enter c.pump chunk _ (by simp [Client.pump, ht, Client.Task.chunk?])).sound hs
    have hbefore := remaining_length hs n
    have hafter := remaining_length hsound n
    have haccepted : (c.pump.enter chunk (rest.filterMap Client.Task.chunk?)).accepted =
        c.pump.accepted := by
      unfold Pump.enter
      split <;> rfl
    rw [enter_transmitted hs hn, haccepted] at hafter
    obtain ⟨l, hd, hl⟩ := Client.writeTask_eq { c with tasks := rest } chunk
    have hremaining : (remaining (Client.writeTask { c with tasks := rest } chunk).pump n).length =
        (remaining c.pump n).length := by
      rw [hpump]
      omega
    simp only [Client.work, hremaining]
    simp only [hd, ht, List.length_cons, List.length_append, List.length_nil,
      List.countP_append, hl]
    omega
  | shutdown k rest ec _ ht =>
    obtain rfl : ec = 0 := he
    have hpump : (Client.runTask { c with tasks := rest } 0 (.shutdown k)).pump = c.pump :=
      Client.shutdown_pump ht
    have hd : Client.runTask { c with tasks := rest } 0 (.shutdown k) = { c with
        tasks := rest, shutdowns := c.shutdowns ++ [(k, c.socket)] } := rfl
    simp only [Client.work, hpump]
    simp only [hd, ht, List.length_cons]
    omega
  | perform k packet _ hop _ hp =>
    obtain rfl : k = 1 := he
    have hbytes := List.length_pos_iff.mpr packet.nonempty
    have hfits := hp.length_le
    have hcount := countP_erase_of_mem hop Client.Op.busy
    simp only [Client.work, Client.perform_pump packet hop]
    simp only [Client.perform, Function.update_self, List.length_drop, List.countP_append,
      hcount, Client.Op.busy, List.countP_singleton, if_true, Bool.toNat_false]
    omega
  | failed op ec inside _ _ hec => exact absurd he.2.1 hec
  | opened k inside _ hop =>
    obtain rfl : inside = [] := he.2.2
    have hpump : (((c.begin (.connect k) 0).callBackConnectionHandler k .connected 0 []).doRead).pump =
        c.pump := (Client.doRead_pump _).trans (Client.begin_pump hop rfl 0)
    simp only [Client.work, hpump]
    exact Nat.add_lt_add_left (hdone hop rfl rfl) _
  | packet k size inside _ hop =>
    obtain rfl : inside = [] := he.2.2
    have hpump : (((c.begin (.received k size) 0).callPacketHandler k size []).doRead).pump =
        c.pump := (Client.doRead_pump _).trans (Client.begin_pump hop rfl 0)
    simp only [Client.work, hpump]
    exact Nat.add_lt_add_left (hdone hop rfl rfl) _
  | written k chunk inside => exact absurd he.1 (by simp [Client.Op.chunk?])

theorem Client.Move.written_work_lt {c d : Client} {k : Nat} {chunk : Chunk}
    {inside : List Client.Call} (h : c.Move (.complete (.write k chunk) 0 inside) d)
    (hs : c.pump.Sound) : d.work 0 < c.work chunk.length := by
  cases h with
  | failed _ _ _ _ _ hec => exact absurd rfl hec
  | written _ _ _ _ hop =>
    obtain ⟨l, r, ho, hb⟩ := Client.begin_write_pump hop 0
    have hpump : ((c.begin (.write k chunk) 0).handleWrite k chunk 0 inside).pump =
        c.pump.finish chunk (l ++ r) := Client.handleWrite_finish _ k chunk inside hb
    have hsound := (Pump.Advance.finish c.pump chunk l r ho).sound hs
    have hbefore := remaining_length hs chunk.length
    have hafter := remaining_length hsound 0
    rw [finish_transmitted hs ho] at hafter
    have haccepted : (c.pump.finish chunk (l ++ r)).accepted = c.pump.accepted := rfl
    rw [haccepted] at hafter
    obtain ⟨_, _, rest, hq⟩ := hs.only ho
    have hqueue : c.sendingMessages = chunk :: rest := hq
    have hcount := countP_erase_of_mem hop Client.Op.busy
    obtain ⟨m, hd, hm⟩ := (c.begin (.write k chunk) 0).handleWrite_eq k chunk inside
    have hremaining : (remaining
        ((c.begin (.write k chunk) 0).handleWrite k chunk 0 inside).pump 0).length =
          (remaining c.pump chunk.length).length := by
      rw [hpump]
      omega
    simp only [Client.work, hremaining]
    rw [hd]
    simp only [Client.begin, hqueue, List.tail_cons, List.length_cons, List.countP_append, hm,
      hcount, Client.Op.busy, Bool.toNat_false]
    omega

end Clients

section Sessions

def Session.Op.busy : Session.Op → Bool
  | .received _ => true
  | .read | .write _ => false

/-- What is left for a session to do, when `n` bytes of its outstanding `async_write` have
left it. -/
def Server.Line.work (x : Server.Line) (n : Nat) : Nat :=
  4 * (reading (x.session.inbox x.delivered) ()).held.length + 3 * x.session.unread.length +
    2 * x.session.ops.countP Session.Op.busy + 4 * (remaining x.pump n).length +
    x.session.sendingMessages.length

theorem Session.doWrite_eq (x : Session) :
    ∃ l, x.doWrite = { x with ops := x.ops ++ l } ∧ l.countP Session.Op.busy = 0 := by
  unfold Session.doWrite
  split
  · exact ⟨[], by rw [List.append_nil], rfl⟩
  · rename_i message rest _
    exact ⟨[.write message], rfl, rfl⟩

theorem Session.write_eq (x : Session) (chunk : Chunk) :
    ∃ l, x.write chunk = { x with
        sendingMessages := x.sendingMessages ++ [chunk], ops := x.ops ++ l } ∧
      l.countP Session.Op.busy = 0 := by
  simp only [Session.write]
  split
  · exact Session.doWrite_eq _
  · exact ⟨[], by simp, rfl⟩

theorem Session.written_eq (x : Session) (chunk : Chunk) :
    ∃ l, x.written chunk = { x with
        sendingMessages := x.sendingMessages.tail, sent := x.sent ++ [chunk]
        ops := x.ops ++ l } ∧
      l.countP Session.Op.busy = 0 := by
  simp only [Session.written]
  split
  · exact Session.doWrite_eq _
  · exact ⟨[], by simp, rfl⟩

theorem Server.Line.arrive_work {x : Server.Line} {bytes : Chunk} {n : Nat}
    (hx : (x.session.inbox x.delivered).Sound)
    (hy : ((x.session.arrive bytes).inbox x.delivered).Sound) :
    Server.Line.work { x with session := x.session.arrive bytes } n =
      x.work n + 7 * bytes.length := by
  have hbefore := reading_length hx ()
  have hafter := reading_length hy ()
  have harrived : (((x.session.arrive bytes).inbox x.delivered).arrived ()).length =
      ((x.session.inbox x.delivered).arrived ()).length + bytes.length := List.length_append
  have hdelivered : ((x.session.arrive bytes).inbox x.delivered).delivered () =
      (x.session.inbox x.delivered).delivered () := rfl
  have hpump : Server.Line.pump { x with session := x.session.arrive bytes } = x.pump := rfl
  rw [hdelivered] at hafter
  simp only [Server.Line.work, hpump]
  simp only [Session.arrive, List.length_append] at hafter harrived ⊢
  omega

theorem Server.Line.perform_work_lt {x : Server.Line} {packet : Packet} {n : Nat}
    (hop : .read ∈ x.session.ops) (hp : packet.bytes <+: x.session.unread)
    (hx : (x.session.inbox x.delivered).Sound)
    (hy : ((x.session.perform packet).inbox x.delivered).Sound) :
    Server.Line.work { x with session := x.session.perform packet } n < x.work n := by
  have hbefore := reading_length hx ()
  have hafter := reading_length hy ()
  have hsame : ((x.session.perform packet).inbox x.delivered).arrived () =
      (x.session.inbox x.delivered).arrived () := rfl
  have hdelivered : ((x.session.perform packet).inbox x.delivered).delivered () =
      (x.session.inbox x.delivered).delivered () := rfl
  have hpump : Server.Line.pump { x with session := x.session.perform packet } = x.pump :=
    Session.perform_pump hop packet _
  have hbytes := List.length_pos_iff.mpr packet.nonempty
  have hfits := hp.length_le
  have hcount := countP_erase_of_mem hop Session.Op.busy
  rw [hsame, hdelivered] at hafter
  have hheld : (reading ((x.session.perform packet).inbox x.delivered) ()).held.length =
      (reading (x.session.inbox x.delivered) ()).held.length := by omega
  simp only [Server.Line.work, hpump, hheld]
  simp only [Session.perform, List.length_drop, List.countP_append, hcount, Session.Op.busy,
    List.countP_singleton, if_true, Bool.toNat_false]
  omega

theorem Server.Line.echoed_remaining {x : Server.Line} {size n : Nat} {data : Chunk}
    (hop : .received size ∈ x.session.ops) (hs : x.pump.Sound)
    (hs' : (x.echoed size data).pump.Sound) (hn : Within x.pump n) :
    (remaining (x.echoed size data).pump n).length = (remaining x.pump n).length + data.length := by
  have hpump : (x.echoed size data).pump = (Pump.accept x.pump data).enter data [] := by
    rw [Server.Line.pump, Server.Line.echoed, Session.doRead_pump, Session.write_pump,
      Session.begin_pump hop rfl]
    rfl
  have haccepted : (Pump.accept x.pump data).Sound := (Pump.Advance.accept _ data).sound hs
  have hwithin : Within (Pump.accept x.pump data) n := hn
  have htransmitted : transmitted (x.echoed size data).pump n = transmitted x.pump n := by
    rw [hpump]
    exact enter_transmitted haccepted hwithin data []
  have hbefore := remaining_length hs n
  have hafter := remaining_length hs' n
  have haddressed : (x.echoed size data).pump.accepted.flatten.length =
      x.pump.accepted.flatten.length + data.length := by
    simp [Server.Line.echoed, Server.Line.pump, Session.pump]
  rw [htransmitted] at hafter
  omega

theorem Server.Line.echoed_held {x : Server.Line} {size : Nat} {data : Chunk}
    (hx : (x.session.inbox x.delivered).Sound)
    (hy : ((x.echoed size data).session.inbox (x.echoed size data).delivered).Sound) :
    (reading ((x.echoed size data).session.inbox (x.echoed size data).delivered) ()).held.length +
        data.length = (reading (x.session.inbox x.delivered) ()).held.length := by
  have hbefore := reading_length hx ()
  have hafter := reading_length hy ()
  have harrived : ((x.echoed size data).session.inbox (x.echoed size data).delivered).arrived () =
      (x.session.inbox x.delivered).arrived () := Session.write_arrived _ data
  have hdelivered : (((x.echoed size data).session.inbox
      (x.echoed size data).delivered).delivered ()).length =
        ((x.session.inbox x.delivered).delivered ()).length + data.length := List.length_append
  rw [harrived] at hafter
  omega

theorem Server.Line.echoed_work_lt {x : Server.Line} {size n : Nat} {data : Chunk}
    (hop : .received size ∈ x.session.ops) (hx : (x.session.inbox x.delivered).Sound)
    (hy : ((x.echoed size data).session.inbox (x.echoed size data).delivered).Sound)
    (hs : x.pump.Sound) (hs' : (x.echoed size data).pump.Sound) (hn : Within x.pump n) :
    (x.echoed size data).work n < x.work n := by
  have hheld := Server.Line.echoed_held hx hy
  have hremaining := Server.Line.echoed_remaining hop hs hs' hn
  have hcount := countP_erase_of_mem hop Session.Op.busy
  obtain ⟨l, hwrite, hl⟩ := (x.session.begin (.received size)).write_eq data
  have hsession : (x.echoed size data).session = { x.session with
      sendingMessages := x.session.sendingMessages ++ [data]
      ops := x.session.ops.erase (.received size) ++ l ++ [.read] } := by
    rw [Server.Line.echoed, hwrite]
    rfl
  have hfields : (x.echoed size data).session.unread = x.session.unread ∧
      (x.echoed size data).session.sendingMessages.length =
        x.session.sendingMessages.length + 1 ∧
      (x.echoed size data).session.ops.countP Session.Op.busy + 1 =
        x.session.ops.countP Session.Op.busy := by
    rw [hsession, hcount]
    refine ⟨rfl, List.length_append, ?_⟩
    simp only [List.countP_append, hl]
    rfl
  obtain ⟨hunread, hqueue, hops⟩ := hfields
  simp only [Server.Line.work, hremaining, hunread, hqueue]
  omega

theorem Server.Line.written_work_lt {x : Server.Line} {chunk : Chunk}
    (hop : .write chunk ∈ x.session.ops) (hs : x.pump.Sound)
    (hs' : (Server.Line.pump { x with
      session := (x.session.begin (.write chunk)).written chunk }).Sound) :
    Server.Line.work { x with
      session := (x.session.begin (.write chunk)).written chunk } 0 < x.work chunk.length := by
  obtain ⟨l, r, ho, hb⟩ := Session.begin_write_pump hop x.addressed
  have hpump : Server.Line.pump { x with
      session := (x.session.begin (.write chunk)).written chunk } =
        x.pump.finish chunk (l ++ r) := by
    rw [Server.Line.pump, Session.written_pump, hb]
    rfl
  have hbefore := remaining_length hs chunk.length
  have hafter := remaining_length hs' 0
  rw [hpump, finish_transmitted hs ho] at hafter
  have haccepted : (x.pump.finish chunk (l ++ r)).accepted = x.pump.accepted := rfl
  rw [haccepted] at hafter
  obtain ⟨_, _, rest, hq⟩ := hs.only ho
  have hqueue : x.session.sendingMessages = chunk :: rest := hq
  have hinbox : ((x.session.begin (.write chunk)).written chunk).inbox x.delivered =
      x.session.inbox x.delivered := by
    rw [Session.written_inbox, Session.begin_inbox hop rfl]
  have hcount := countP_erase_of_mem hop Session.Op.busy
  obtain ⟨m, hwritten, hm⟩ := (x.session.begin (.write chunk)).written_eq chunk
  have hremaining : (remaining (x.pump.finish chunk (l ++ r)) 0).length =
      (remaining x.pump chunk.length).length := by omega
  simp only [Server.Line.work, hpump, hinbox, hremaining]
  rw [hwritten]
  simp only [Session.begin, hqueue, List.tail_cons, List.length_cons, List.countP_append, hm,
    hcount, Session.Op.busy, Bool.toNat_false]
  omega

end Sessions

section Peers

variable {ι : Type}

def Peer.work (p : Peer) (x : Server.Line) : Nat :=
  p.client.work p.put + 8 * p.up.length + x.work p.putBack + 3 * p.down.length +
    p.session.isNone.toNat

def Echo.Event.Silent : Echo.Event ι → Prop
  | .write _ _ => False
  | .connected _ inside => inside = []
  | .packet _ _ inside => inside = []
  | _ => True

def Echo.Event.onward (p : Peer) : Echo.Event ι → Bool
  | .put _ n => 0 < n
  | .putBack _ n => 0 < n
  | .arrive _ n => 0 < (p.up.take n).length
  | .arriveBack _ n => 0 < (p.down.take n).length
  | _ => true

theorem Echo.Event.alone_onward {e : Echo.Event ι} {e' : Client.Event}
    (he : e.alone = some e') (hsilent : e.Silent) : e'.Onward := by
  cases e with
  | write => exact hsilent.elim
  | task => exact Option.some.inj he ▸ rfl
  | readBack => exact Option.some.inj he ▸ rfl
  | connected _ inside =>
    obtain rfl : inside = [] := hsilent
    exact Option.some.inj he ▸ ⟨rfl, rfl, rfl⟩
  | packet _ _ inside =>
    obtain rfl : inside = [] := hsilent
    exact Option.some.inj he ▸ ⟨rfl, rfl, rfl⟩
  | put | written | accept | arrive | read | echo => exact nomatch he
  | putBack | writtenBack | arriveBack => exact nomatch he

theorem toNat_pos_le (n : Nat) : (decide (0 < n)).toNat ≤ n := by
  cases n with
  | zero => exact Nat.le_refl 0
  | succ n => exact Nat.succ_le_succ (Nat.zero_le n)

theorem Client.settle_work (c : Client) (n : Nat) : c.settle.work n = c.work n := by
  unfold Client.settle
  split
  · rfl
  · rfl

theorem Client.Move.arrive_work {c d : Client} {bytes : Chunk} {n : Nat}
    (h : c.Move (.arrive 1 bytes) d) : d.work n = c.work n + 2 * bytes.length := by
  cases h with
  | arrive =>
    have hpump : (c.arrive 1 bytes).pump = c.pump := rfl
    simp only [Client.work, hpump]
    simp only [Client.arrive, Function.update_self, List.length_append]
    omega

theorem Peer.Turn.work_le {p q : Peer} {x y : Server.Line} {e : Echo.Event ι}
    (h : Peer.Turn p x e q y) (hp : p.Sound x) (hq : q.Sound y) (he : e.Silent) :
    (e.onward p).toNat + q.work y ≤ p.work x := by
  have hone : (e.onward p).toNat ≤ 1 := Bool.toNat_le _
  cases h with
  | alone e e' k he' hm =>
    have hless := hm.work_lt (Echo.Event.alone_onward he' he) hp.pump hp.linked.put
    simp only [Peer.work, Client.settle_work]
    omega
  | put i n hn =>
    have hleft := remaining_add hp.pump (n := p.put) (m := n) hn
    have htaken : ((p.client.writing.drop p.put).take n).length = n := by
      rw [List.length_take, List.length_drop]
      exact Nat.min_eq_left (Nat.le_sub_of_add_le' hn)
    have hmoved := toNat_pos_le n
    simp only [Peer.work, Client.work, Echo.Event.onward, List.length_append, htaken]
    omega
  | written i chunk k hput hm =>
    have hless := hm.written_work_lt hp.pump
    simp only [Peer.work, Client.settle_work, hput]
    omega
  | accept i address s hnone =>
    have hfresh : Server.Line.work ⟨(Session.make address).start, [], []⟩ p.putBack = 0 := by
      simp [Server.Line.work, Session.make, Session.start, Session.doRead, Session.inbox,
        Session.Op.reading?, Session.Op.busy, Session.pump, Server.Line.pump, remaining, reading,
        Inbox.Reader.pending]
    simp only [Peer.work, hfresh, hnone, Option.isNone_none, Option.isNone_some,
      Bool.toNat_true, Bool.toNat_false]
    omega
  | arrive i n =>
    have hmore := Server.Line.arrive_work (n := p.putBack) hp.inbox hq.inbox
    have hsplit : (p.up.take n).length + (p.up.drop n).length = p.up.length := by
      rw [← List.length_append, List.take_append_drop]
    have hmoved := toNat_pos_le (p.up.take n).length
    simp only [Peer.work, Echo.Event.onward, hmore]
    omega
  | read i packet hop hpre =>
    have hless := Server.Line.perform_work_lt (n := p.putBack) hop hpre hp.inbox hq.inbox
    simp only [Peer.work]
    omega
  | echo i size data hop =>
    have hless := Server.Line.echoed_work_lt hop hp.inbox hq.inbox hp.pumpBack hq.pumpBack
      hp.linked.putBack
    simp only [Peer.work]
    omega
  | putBack i n hn =>
    have hleft := remaining_add hp.pumpBack (n := p.putBack) (m := n) hn
    have htaken : ((x.session.writing.drop p.putBack).take n).length = n := by
      rw [List.length_take, List.length_drop]
      exact Nat.min_eq_left (Nat.le_sub_of_add_le' hn)
    have hmoved := toNat_pos_le n
    simp only [Peer.work, Server.Line.work, Echo.Event.onward, List.length_append, htaken]
    omega
  | writtenBack i chunk hput hop =>
    have hless := Server.Line.written_work_lt hop hp.pumpBack hq.pumpBack
    simp only [Peer.work, hput]
    omega
  | arriveBack i n k hm =>
    have hmore := hm.arrive_work (n := p.put)
    have hsplit : (p.down.take n).length + (p.down.drop n).length = p.down.length := by
      rw [← List.length_append, List.take_append_drop]
    have hmoved := toNat_pos_le (p.down.take n).length
    simp only [Peer.work, Client.settle_work, Echo.Event.onward, hmore]
    omega

end Peers

end Sephi.Net.Tcp
