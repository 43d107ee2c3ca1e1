import Sephi.Outbox
import Sephi.TcpRegistry

set_option autoImplicit false

namespace Sephi.Net.Tcp
open Transition Outbox

def Session.Op.chunk? : Session.Op → Option Chunk
  | .write chunk => some chunk
  | .read | .received _ => none

/-- The chunk that an entry addresses to session `s`: once for each write call that is
meant for the id of `s` while `s` is in the map. -/
def Server.Entry.chunkFor (s : Nat) : Server.Entry → Option Chunk
  | .called w registered _ _ =>
    if registered.entries.any fun session => session.2 == s && w.addresses session.1 then
      some w.chunk
    else none
  | .report _ _ _ | .emplaced _ | .shutdown _ _ => none

def Server.addressed (c : Server) (s : Nat) : List Chunk :=
  c.history.filterMap (Server.Entry.chunkFor s)

/-- The chunks whose write succeeded and then the queue are what was addressed to the
session, at most one `async_write` is outstanding, and in the map the queue is not empty
exactly when one is. -/
def Server.Delivers (c : Server) : Prop :=
  ∀ s < c.made,
    (c.session s).sent ++ (c.session s).sendingMessages = c.addressed s ∧
    ((c.session s).ops.filterMap Session.Op.chunk?).length ≤ 1 ∧
    (c.Registered s → ((c.session s).sendingMessages ≠ [] ↔
      ((c.session s).ops.filterMap Session.Op.chunk?).length = 1))

/-- A write call goes from the application straight into the queue. -/
def Session.pump (x : Session) (accepted : List Chunk) : Pump Chunk where
  waiting := []
  queue := x.sendingMessages
  outstanding := x.ops.filterMap Session.Op.chunk?
  completed := x.sent
  accepted := accepted

def Server.pump (c : Server) (s : Nat) : Pump Chunk := (c.session s).pump (c.addressed s)

@[simp] theorem Session.doRead_pump (x : Session) (l : List Chunk) :
    x.doRead.pump l = x.pump l := by
  simp [Session.doRead, Session.pump, Session.Op.chunk?]

theorem Session.write_pump (x : Session) (l : List Chunk) (chunk : Chunk) :
    (x.write chunk).pump (l ++ [chunk]) = ((x.pump l).accept chunk).enter chunk [] := by
  cases h : x.sendingMessages <;>
    simp [Session.write, Session.doWrite, Session.pump, Pump.enter, Pump.accept, Pump.start,
      Session.Op.chunk?, h]

theorem Session.write_advances (x : Session) (l : List Chunk) (chunk : Chunk) :
    Pump.Advances (x.pump l) ((x.write chunk).pump (l ++ [chunk])) := by
  have haccept := Pump.Advance.accept (x.pump l) chunk
  have henter := Pump.Advance.enter ((x.pump l).accept chunk) chunk [] rfl
  rw [Session.write_pump]
  exact (Relation.ReflTransGen.single haccept).tail henter

theorem Session.begin_pump {x : Session} {op : Session.Op} (hop : op ∈ x.ops)
    (hn : op.chunk? = none) (l : List Chunk) : (x.begin op).pump l = x.pump l := by
  simp [Session.begin, Session.pump, filterMap_erase_none hop hn]

theorem Session.perform_pump {x : Session} (hop : .read ∈ x.ops) (packet : Packet)
    (l : List Chunk) : (x.perform packet).pump l = x.pump l := by
  have he := filterMap_erase_none (f := Session.Op.chunk?) hop rfl
  simp [Session.perform, Session.pump, he, Session.Op.chunk?]

theorem Session.begin_write_pump {x : Session} {chunk : Chunk} (hop : .write chunk ∈ x.ops)
    (a : List Chunk) :
    ∃ l r, (x.pump a).outstanding = l ++ chunk :: r ∧
      (x.begin (.write chunk)).pump a = { x.pump a with outstanding := l ++ r } := by
  obtain ⟨l, r, ho, he⟩ := filterMap_erase_some (f := Session.Op.chunk?) hop rfl
  exact ⟨l, r, ho, by simp [Session.begin, Session.pump, he]⟩

theorem Session.begin_write_fails {x : Session} {chunk : Chunk}
    (hop : .write chunk ∈ x.ops) (a : List Chunk) :
    Pump.Fails (x.pump a) ((x.begin (.write chunk)).pump a) := by
  obtain ⟨l, r, ho, hb⟩ := Session.begin_write_pump hop a
  rw [hb]
  exact .fail (x.pump a) chunk l r ho

theorem Session.written_pump (x : Session) (chunk : Chunk) (a : List Chunk) :
    (x.written chunk).pump a = (x.pump a).finish chunk (x.pump a).outstanding := by
  cases h : x.sendingMessages.tail <;>
    simp [Session.written, Session.doWrite, Session.pump, Pump.finish, Pump.start,
      Session.Op.chunk?, h]

theorem Session.written_advance {x : Session} {chunk : Chunk} (hop : .write chunk ∈ x.ops)
    (a : List Chunk) :
    Pump.Advance (x.pump a) (((x.begin (.write chunk)).written chunk).pump a) := by
  obtain ⟨l, r, ho, hb⟩ := Session.begin_write_pump hop a
  rw [Session.written_pump, hb]
  exact .finish (x.pump a) chunk l r ho

/-- Every session in the map, or of the `held` ones, has a pump that is not stalled. -/
structure Server.Sending (held : List Nat) (c : Server) : Prop where
  fresh : ∀ s, c.made ≤ s → c.session s = Session.make 0
  sound : ∀ s, (c.pump s).Sound
  flows : ∀ s, c.Registered s ∨ s ∈ held → ¬ (c.pump s).Stalled

theorem Server.addressed_iff {c : Server} {w : Server.WriteCall} {s : Nat} :
    c.sessions.entries.any (fun session => session.2 == s && w.addresses session.1) = true ↔
      s ∈ w.targets c.sessions := by
  rw [Server.WriteCall.mem_targets]
  simp only [List.any_eq_true, Bool.and_eq_true, beq_iff_eq]
  constructor
  · rintro ⟨session, hmem, rfl, ha⟩
    exact ⟨session.1, AList.mem_lookup_iff.mpr hmem, ha⟩
  · rintro ⟨id, hid, ha⟩
    exact ⟨⟨id, s⟩, AList.mem_lookup_iff.mp hid, rfl, ha⟩

theorem Server.Integrity.write_pump {held : List Nat} {c : Server} (h : c.Integrity held)
    (w : Server.WriteCall) (s : Nat) : Pump.Advances (c.pump s) ((c.write w).pump s) := by
  by_cases hs : s ∈ w.targets c.sessions
  · have hcount : (w.targets c.sessions).count s = 1 :=
      List.count_eq_one_of_mem (h.targets_nodup w) hs
    have hp : (c.write w).pump s =
        ((c.session s).write w.chunk).pump (c.addressed s ++ [w.chunk]) := by
      simp [Server.write_eq, Server.pump, Server.addressed, Server.Entry.chunkFor,
        Server.addressed_iff.mpr hs, hcount]
    rw [hp]
    exact (c.session s).write_advances (c.addressed s) w.chunk
  · have hcount : (w.targets c.sessions).count s = 0 := List.count_eq_zero.mpr hs
    have hnot : ¬ c.sessions.entries.any
        (fun session => session.2 == s && w.addresses session.1) = true :=
      fun ha => hs (Server.addressed_iff.mp ha)
    have hp : (c.write w).pump s = c.pump s := by
      simp only [Server.write_eq, Server.pump, Server.addressed, List.filterMap_append,
        hcount, Function.iterate_zero, id_eq]
      simp [Server.Entry.chunkFor, hnot]
    rw [hp]

theorem Server.Sending.frame {held held' : List Nat} {c d : Server} (h : c.Sending held)
    (hm : d.made = c.made) (hf : ∀ s, c.made ≤ s → d.session s = c.session s)
    (hp : ∀ s, d.pump s = c.pump s)
    (hr : ∀ s, d.Registered s ∨ s ∈ held' → c.Registered s ∨ s ∈ held) :
    d.Sending held' := by
  refine ⟨fun s hs => ?_, fun s => hp s ▸ h.sound s, fun s hs => ?_⟩
  · rw [hf s (hm ▸ hs)]
    exact h.fresh s (hm ▸ hs)
  · rw [hp]
    exact h.flows s (hr s hs)

theorem Server.record_pump (c : Server) {entry : Server.Entry}
    (he : ∀ s, entry.chunkFor s = none) (s : Nat) : (c.record entry).pump s = c.pump s := by
  simp [Server.record, Server.pump, Server.addressed, he s]

theorem Server.leave_pump (c : Server) (s : Nat) (ec : ErrorCode) (t : Nat) :
    (c.leave s ec).pump t = c.pump t :=
  Server.record_pump _ (fun _ => rfl) t

theorem Server.Sending.leave {held : List Nat} {c : Server} (h : c.Sending held) (s : Nat)
    (ec : ErrorCode) : (c.leave s ec).Sending held := by
  refine h.frame rfl (fun _ _ => rfl) (c.leave_pump s ec) fun t ht => ?_
  exact ht.imp_left (c.narrows_leave s ec).registered

theorem Server.Sending.record {held : List Nat} {c : Server} (h : c.Sending held)
    (entry : Server.Entry) (he : ∀ s, entry.chunkFor s = none) :
    (c.record entry).Sending held :=
  h.frame rfl (fun _ _ => rfl) (c.record_pump he) fun _ ht => ht

theorem Server.Sending.calling {held : List Nat} {c d : Server} (h : c.Sending held)
    (hi : c.Integrity held) (hd : c.Calling d) : d.Sending held := by
  cases hd with
  | write w =>
    have hmade : (c.write w).made = c.made := (c.narrows_write w).made
    refine ⟨fun s hs => ?_, fun s => Pump.Advances.sound (hi.write_pump w s) (h.sound s),
      fun s hs => ?_⟩
    · rw [hmade] at hs
      have hnot : s ∉ w.targets c.sessions := by
        intro ht
        obtain ⟨id, hid, _⟩ := Server.WriteCall.mem_targets.mp ht
        exact Nat.not_lt.mpr hs (hi.made s (.inl (Server.registered_iff.mpr ⟨id, hid⟩)))
      rw [Server.write_eq]
      simpa [List.count_eq_zero.mpr hnot] using h.fresh s hs
    · rw [Pump.Advances.stalled_iff (hi.write_pump w s) (h.sound s)]
      exact h.flows s (hs.imp_left (c.narrows_write w).registered)
  | shutdown s ec => exact h.record _ fun _ => rfl
  | leave s hs => exact h.leave s 0

theorem Server.Sending.calls {held : List Nat} {c : Server} (h : c.Sending held)
    (hi : c.Integrity held) (inside : List Server.Call) : (c.calls inside).Sending held :=
  (hi.calls_induction h (fun _ _ hi hp hs => hp.calling hi hs) inside).1

theorem Server.modify_pump_of_ne (c : Server) {s t : Nat} (h : t ≠ s)
    (f : Session → Session) : (c.modify s f).pump t = c.pump t := by
  simp [Server.modify, Server.pump, Server.addressed, Function.update_of_ne h]

theorem Server.modify_pump_self (c : Server) (s : Nat) (f : Session → Session) :
    (c.modify s f).pump s = (f (c.session s)).pump (c.addressed s) := by
  simp [Server.modify, Server.pump, Server.addressed]

theorem Server.modify_fresh {c : Server} {s : Nat} (hs : s < c.made)
    (f : Session → Session) (t : Nat) (ht : c.made ≤ t) :
    (c.modify s f).session t = c.session t :=
  Function.update_of_ne (Nat.ne_of_gt (Nat.lt_of_lt_of_le hs ht)) _ _

theorem Server.Sending.modify {held : List Nat} {c : Server} (h : c.Sending held) {s : Nat}
    (hs : s < c.made) {f : Session → Session}
    (hf : ∀ l, (f (c.session s)).pump l = (c.session s).pump l) :
    (c.modify s f).Sending held := by
  refine h.frame rfl (Server.modify_fresh hs f) (fun t => ?_) fun _ ht => ht
  by_cases hts : t = s
  · subst hts
    rw [Server.modify_pump_self, hf]
    rfl
  · exact c.modify_pump_of_ne hts f

theorem Server.Sending.advance {held : List Nat} {c : Server} (h : c.Sending held) {s : Nat}
    (hs : s < c.made) {f : Session → Session}
    (hf : Pump.Advance (c.pump s) ((c.modify s f).pump s)) : (c.modify s f).Sending held := by
  refine ⟨fun t ht => ?_, fun t => ?_, fun t ht => ?_⟩
  · rw [Server.modify_fresh hs f t ht]
    exact h.fresh t ht
  · by_cases hts : t = s
    · exact hts ▸ hf.sound (h.sound s)
    · exact c.modify_pump_of_ne hts f ▸ h.sound t
  · by_cases hts : t = s
    · subst hts
      rw [hf.stalled_iff (h.sound t)]
      exact h.flows t ht
    · rw [c.modify_pump_of_ne hts f]
      exact h.flows t ht

/-- The write of a session fails, and the session leaves the map in the same step. -/
theorem Server.Sending.fail {c : Server} (h : c.Sending []) (hi : c.Integrity [])
    {s : Nat} {chunk : Chunk} (hop : .write chunk ∈ (c.session s).ops) (ec : ErrorCode) :
    ((c.modify s (·.begin (.write chunk))).leave s ec).Sending [] := by
  have hs : s < c.made := hi.made s (Server.live_of_op hop)
  have hbegun := hi.begin hop
  have hp : ∀ t, t ≠ s → ((c.modify s (·.begin (.write chunk))).leave s ec).pump t =
      c.pump t :=
    fun t hts => (Server.leave_pump _ s ec t).trans (c.modify_pump_of_ne hts _)
  refine ⟨fun t ht => ?_, fun t => ?_, fun t ht => ?_⟩
  · exact (Server.modify_fresh hs (·.begin (.write chunk)) t ht).trans (h.fresh t ht)
  · by_cases hts : t = s
    · subst hts
      rw [Server.leave_pump, Server.modify_pump_self]
      exact (Session.begin_write_fails hop _).sound (h.sound t)
    · exact hp t hts ▸ h.sound t
  · have hreg := (Server.leave_registered hbegun Server.live_held ec t).mp (by simpa using ht)
    rw [hp t hreg.2]
    exact h.flows t (.inl hreg.1)

theorem Server.announce_addressed (c : Server) (address : SessionId) (t : Nat) :
    (c.announce address).addressed t = c.addressed t := by
  simp [Server.announce, Server.callBack, Server.record, Server.makeSession,
    Server.addressed, Server.Entry.chunkFor]

theorem Server.Sending.addressed_new {c : Server} (h : c.Sending []) :
    c.addressed c.made = [] := by
  have hc := (h.sound c.made).conserved
  simpa [Server.pump, Session.pump, h.fresh c.made (Nat.le_refl _), Session.make] using
    hc.symm

theorem Server.Sending.announce {c : Server} (h : c.Sending []) (address : SessionId) :
    (c.announce address).Sending [c.made] := by
  have hold : ∀ t, t ≠ c.made → (c.announce address).pump t = c.pump t := by
    intro t ht
    rw [Server.pump, c.announce_session_of_ne address ht, c.announce_addressed]
    rfl
  have hnew : (c.announce address).pump c.made = Pump.empty := by
    rw [Server.pump, c.announce_session_new, c.announce_addressed, h.addressed_new]
    rfl
  refine ⟨fun t ht => ?_, fun t => ?_, fun t ht => ?_⟩
  · have hlt : c.made < t := ht
    rw [c.announce_session_of_ne address (Nat.ne_of_gt hlt)]
    exact h.fresh t (Nat.le_of_lt hlt)
  · by_cases htm : t = c.made
    · rw [htm, hnew]
      exact Pump.sound_empty
    · exact hold t htm ▸ h.sound t
  · by_cases htm : t = c.made
    · rw [htm, hnew]
      exact Pump.not_stalled_empty
    · rw [hold t htm]
      have hreg : c.Registered t := ht.resolve_right fun hmem =>
        htm (List.mem_singleton.mp hmem)
      exact h.flows t (.inl hreg)

theorem Server.Sending.emplace {c : Server} {s : Nat} (h : c.Sending [s])
    (hn : c.sessions.lookup (c.session s).address = none) : (c.emplace s).Sending [] := by
  rw [Server.emplace_eq hn]
  refine h.frame rfl (fun _ _ => rfl) (fun t => ?_) fun t ht => ?_
  · exact Server.record_pump _ (fun _ => rfl) t
  · obtain ⟨id, hid⟩ := Server.registered_iff.mp (ht.resolve_right (by simp))
    rcases Server.lookup_insert_some hid with ⟨_, rfl⟩ | hid
    · exact .inr (List.mem_singleton.mpr rfl)
    · exact .inl (Server.registered_iff.mpr ⟨id, hid⟩)

theorem Server.Sending.accept {c : Server} (h : c.Sending []) (hi : c.Integrity [])
    {address : SessionId} (hfree : c.Free address) (inside : List Server.Call) :
    (c.handleAccept 0 address inside).Sending [] := by
  rw [Server.handleAccept_eq]
  have hmade := hi.announce hfree
  have hcalled := (h.announce address).calls hmade inside
  have hicalled := hmade.calls inside
  have hemplaced := hcalled.emplace
    (hicalled.lookup_none Server.live_held (hi.announced hfree inside))
  have hlt : c.made < (((c.announce address).calls inside).emplace c.made).made :=
    hicalled.made c.made Server.live_held
  have hstarted := hemplaced.modify hlt (f := Session.start)
    fun l => Session.doRead_pump _ l
  exact ⟨hstarted.fresh, hstarted.sound, hstarted.flows⟩

theorem Server.Move.sending {c d : Server} {e : Server.Event} (h : c.Move e d)
    (hi : c.Integrity []) (hc : c.Sending []) : d.Sending [] := by
  cases h with
  | call x => exact hc.calls hi [x]
  | refused ec address inside => exact ⟨hc.fresh, hc.sound, hc.flows⟩
  | accepted address inside hfree =>
    have hi' := hi.accepting (c.accepting - 1)
    have hc' : Server.Sending [] { c with accepting := c.accepting - 1 } :=
      ⟨hc.fresh, hc.sound, hc.flows⟩
    exact hc'.accept hi' hfree inside
  | arrive s bytes hs => exact hc.modify hs fun _ => rfl
  | perform s packet hop =>
    exact hc.modify (hi.made s (Server.live_of_op hop))
      fun l => Session.perform_pump hop packet l
  | failed s op ec inside hop hec =>
    have hbegun := hi.begin hop
    have hleft : ((c.modify s (·.begin op)).leave s ec).Sending [] := by
      cases op with
      | write chunk => exact hc.fail hi hop ec
      | read | received size =>
        exact (hc.modify (hi.made s (Server.live_of_op hop))
          fun l => Session.begin_pump hop rfl l).leave s ec
    exact hleft.calls (hbegun.leave s ec).release inside
  | packet s size inside hop =>
    rw [Server.handleRead_begin]
    have hs : s < c.made := hi.made s (Server.live_of_op hop)
    have hbegun := hi.begin hop
    have hgiven := (hc.modify hs (f := (·.begin (.received size)))
      fun l => Session.begin_pump hop rfl l).record
      (.report s (.packet (c.sessionPtrToId s)
        ((c.session s).receivedPacket.view size)) c.sessions) fun _ => rfl
    have hibacked := hbegun.callBack s (.packet (c.sessionPtrToId s)
      ((c.session s).receivedPacket.view size))
    have hcalled := hgiven.calls hibacked.release inside
    have hlt := (hibacked.calls inside).made s Server.live_held
    exact hcalled.modify hlt fun l => Session.doRead_pump _ l
  | written s chunk inside hop =>
    have hs : s < c.made := hi.made s (Server.live_of_op hop)
    rw [Server.modify_modify]
    refine hc.advance hs ?_
    rw [Server.modify_pump_self]
    exact Session.written_advance hop _

theorem Server.sending_of_reachable {c : Server} (h : Server.machine.Reachable c) :
    c.Sending [] := by
  have hempty : ∀ s, Server.machine.start.pump s = Pump.empty := fun _ => rfl
  have hstart : Server.machine.start.Sending [] := by
    refine ⟨fun _ _ => rfl, fun s => ?_, fun s _ => ?_⟩
    · rw [hempty]
      exact Pump.sound_empty
    · rw [hempty]
      exact Pump.not_stalled_empty
  refine (h.invariant (I := fun c => c.Integrity [] ∧ c.Sending [])
    ⟨Server.integrity_start, hstart⟩ ?_).2
  rintro c e d ⟨hi, hc⟩ hs
  have hm := Server.step_move hs
  exact ⟨hm.integrity hi, hm.sending hi hc⟩

theorem Server.delivers_in_call_order (c : Server) (h : Server.machine.Reachable c) :
    c.Delivers := by
  have hc := Server.sending_of_reachable h
  intro s _
  have hs := hc.sound s
  have hconserved : (c.session s).sent ++ (c.session s).sendingMessages ++ [] =
      c.addressed s := hs.conserved
  rw [List.append_nil] at hconserved
  exact ⟨hconserved, hs.single, fun hr => hs.queue_iff (hc.flows s (.inl hr))⟩

def oneOfTwoFails : List Server.Event :=
  [.accept 0 4096 [], .accept 0 8192 [], .call (.write (.writeToAll [] [1])),
    .complete 0 (.write [1]) 32 [.write (.writeToAllExcept [] 4096 [2])],
    .complete 1 (.write [1]) 0 [], .call (.write (.writeTo 4096 [3]))]

theorem Server.delivers_in_call_order_oneOfTwoFails :
    ∃ c, Server.machine.run oneOfTwoFails = some c ∧ c.Delivers ∧
      c.addressed 0 = [[1]] ∧ c.addressed 1 = [[1], [2]] ∧ (c.session 1).sent = [[1]] ∧
      (c.session 1).ops = [.read, .write [2]] :=
  ⟨_, rfl, Server.delivers_in_call_order _ ⟨oneOfTwoFails, rfl⟩, rfl, rfl, rfl, rfl⟩

end Sephi.Net.Tcp
