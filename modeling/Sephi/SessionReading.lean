import Sephi.Inbox
import Sephi.SessionSending

set_option autoImplicit false

namespace Sephi.Net.Tcp
open Transition Inbox

def Session.Op.reading? : Session.Op → Option (Unit × Option Nat)
  | .read => some ((), none)
  | .received size => some ((), some size)
  | .write _ => none

def Server.Entry.bytesOf (s : Nat) : Server.Entry → Chunk
  | .report t (.packet _ data) _ => if t = s then data else []
  | _ => []

def Server.delivered (c : Server) (s : Nat) : Chunk :=
  c.history.flatMap (Server.Entry.bytesOf s)

/-- The receiving side of a session as the reader of one socket. -/
def Session.inbox (x : Session) (delivered : Chunk) : Reader Unit UInt8 where
  reads := x.ops.filterMap Session.Op.reading?
  buffer := x.receivedPacket.data
  unread := fun _ => x.unread
  arrived := fun _ => x.arrived
  delivered := fun _ => delivered

def Server.inbox (c : Server) (s : Nat) : Reader Unit UInt8 :=
  (c.session s).inbox (c.delivered s)

theorem update_unit {α : Type} (f : Unit → α) (a : α) :
    Function.update f () a = fun _ => a := by
  funext u
  simp

@[simp] theorem Session.doWrite_inbox (x : Session) (l : Chunk) :
    x.doWrite.inbox l = x.inbox l := by
  cases h : x.sendingMessages <;>
    simp [Session.doWrite, Session.inbox, Session.Op.reading?, h]

@[simp] theorem Session.write_inbox (x : Session) (chunk l : Chunk) :
    (x.write chunk).inbox l = x.inbox l := by
  simp only [Session.write]
  split
  · exact Session.doWrite_inbox _ l
  · rfl

theorem Session.writes_inbox (chunk : Chunk) (n : Nat) (x : Session) (l : Chunk) :
    ((Session.write · chunk)^[n] x).inbox l = x.inbox l := by
  induction n generalizing x with
  | zero => rfl
  | succ n ih => rw [Function.iterate_succ_apply, ih, Session.write_inbox]

@[simp] theorem Session.written_inbox (x : Session) (chunk l : Chunk) :
    (x.written chunk).inbox l = x.inbox l := by
  simp only [Session.written]
  split
  · exact Session.doWrite_inbox _ l
  · rfl

theorem Session.begin_inbox {x : Session} {op : Session.Op} (hop : op ∈ x.ops)
    (hn : op.reading? = none) (l : Chunk) : (x.begin op).inbox l = x.inbox l := by
  simp [Session.begin, Session.inbox, Outbox.filterMap_erase_none hop hn]

theorem Session.arrive_inbox (x : Session) (bytes l : Chunk) :
    Reader.Step (x.inbox l) ((x.arrive bytes).inbox l) := by
  have h := Reader.Step.arrive (x.inbox l) () bytes
  simp only [update_unit] at h
  exact h

theorem Session.doRead_inbox (x : Session) (l : Chunk) :
    Reader.Step (x.inbox l) (x.doRead.inbox l) := by
  have h := Reader.Step.start (x.inbox l) ()
  simpa [Session.doRead, Session.inbox, Session.Op.reading?] using h

theorem Session.reads_erase {x : Session} {op : Session.Op} {a : Unit × Option Nat}
    {delivered : Chunk} (hx : (x.inbox delivered).Sound) (hop : op ∈ x.ops)
    (ha : op.reading? = some a) :
    (x.inbox delivered).reads = [a] ∧ (x.ops.erase op).filterMap Session.Op.reading? = [] := by
  obtain ⟨l, r, ho, he⟩ := Outbox.filterMap_erase_some (f := Session.Op.reading?) hop ha
  obtain ⟨rfl, rfl⟩ := hx.only ho
  exact ⟨ho, he⟩

theorem Session.perform_sound {x : Session} {packet : Packet} {l : Chunk}
    (hx : (x.inbox l).Sound) (hop : .read ∈ x.ops) (hp : packet.bytes <+: x.unread) :
    ((x.perform packet).inbox l).Sound := by
  obtain ⟨ho, he⟩ := Session.reads_erase hx hop rfl
  obtain ⟨rest, hrest⟩ := hp
  have h := Reader.Step.perform (x.inbox l) () [] [] packet.bytes rest
    (x.receivedPacket.fill packet).data ho hrest.symm
    (PacketBuffer.view_fill x.receivedPacket packet)
  have hdrop : x.unread.drop packet.bytes.length = rest := by
    rw [← hrest, List.drop_left]
  have heq : (x.perform packet).inbox l = { x.inbox l with
      reads := [] ++ [] ++ [((), some packet.bytes.length)]
      buffer := (x.receivedPacket.fill packet).data
      unread := fun _ => rest } := by
    simp [Session.perform, Session.inbox, he, hdrop, Session.Op.reading?]
  rw [update_unit] at h
  rw [heq]
  exact h.sound hx (by simp)

theorem Session.fail_sound {x : Session} {l : Chunk} (hx : (x.inbox l).Sound)
    (hop : .read ∈ x.ops) : ((x.begin .read).inbox l).Sound := by
  obtain ⟨ho, he⟩ := Session.reads_erase hx hop rfl
  have heq : (x.begin .read).inbox l = { x.inbox l with reads := [] ++ [] } := by
    simp [Session.begin, Session.inbox, he]
  rw [heq]
  exact (Reader.Step.fail (x.inbox l) () [] [] ho).sound hx (by simp)

theorem Session.deliver_sound {x : Session} {size : Nat} {l : Chunk}
    (hx : (x.inbox l).Sound) (hop : .received size ∈ x.ops) :
    ((x.begin (.received size)).inbox (l ++ x.receivedPacket.view size)).Sound ∧
      ((x.begin (.received size)).inbox (l ++ x.receivedPacket.view size)).reads = [] := by
  obtain ⟨ho, he⟩ := Session.reads_erase hx hop rfl
  have h := Reader.Step.deliver (x.inbox l) () size [] [] ho
  rw [update_unit] at h
  have heq : (x.begin (.received size)).inbox (l ++ x.receivedPacket.view size) =
      { x.inbox l with
        reads := [] ++ []
        delivered := fun _ => l ++ x.receivedPacket.view size } := by
    simp [Session.begin, Session.inbox, he]
  rw [heq]
  exact ⟨h.sound hx (by simp), rfl⟩

/-- Every session has at most one read, and a session whose handler is running none. -/
structure Server.Reading (idle : List Nat) (c : Server) : Prop where
  sound : ∀ s, (c.inbox s).Sound
  idle : ∀ s ∈ idle, (c.inbox s).reads = []

theorem Server.Reading.frame {idle : List Nat} {c d : Server} (h : c.Reading idle)
    (hd : ∀ s, d.inbox s = c.inbox s) : d.Reading idle :=
  ⟨fun s => hd s ▸ h.sound s, fun s hs => hd s ▸ h.idle s hs⟩

theorem Server.record_inbox (c : Server) {entry : Server.Entry}
    (he : ∀ s, entry.bytesOf s = []) (s : Nat) : (c.record entry).inbox s = c.inbox s := by
  simp [Server.record, Server.inbox, Server.delivered, he s]

theorem Server.leave_inbox (c : Server) (s : Nat) (ec : ErrorCode) (t : Nat) :
    (c.leave s ec).inbox t = c.inbox t :=
  Server.record_inbox _ (fun _ => rfl) t

theorem Server.Calling.inbox {c d : Server} (h : c.Calling d) (s : Nat) :
    d.inbox s = c.inbox s := by
  cases h with
  | write w =>
    have hd : (c.write w).delivered s = c.delivered s := by
      simp [Server.write_eq, Server.delivered, Server.Entry.bytesOf]
    rw [Server.inbox, hd, Server.write_eq]
    exact Session.writes_inbox _ _ _ _
  | shutdown t ec => exact c.record_inbox (fun _ => rfl) s
  | leave t ht => exact c.leave_inbox t 0 s

theorem Server.Reading.calls {idle held : List Nat} {c : Server} (h : c.Reading idle)
    (hi : c.Integrity held) (inside : List Server.Call) : (c.calls inside).Reading idle :=
  (hi.calls_induction h (fun _ _ _ hp hs => hp.frame hs.inbox) inside).1

theorem Server.modify_inbox_of_ne (c : Server) {s t : Nat} (h : t ≠ s)
    (f : Session → Session) : (c.modify s f).inbox t = c.inbox t := by
  simp [Server.modify, Server.inbox, Server.delivered, Function.update_of_ne h]

theorem Server.modify_inbox_self (c : Server) (s : Nat) (f : Session → Session) :
    (c.modify s f).inbox s = (f (c.session s)).inbox (c.delivered s) := by
  simp [Server.modify, Server.inbox, Server.delivered]

theorem Server.Reading.modify {c : Server} (h : c.Reading []) (s : Nat)
    {f : Session → Session} (hf : ((f (c.session s)).inbox (c.delivered s)).Sound) :
    (c.modify s f).Reading [] := by
  refine ⟨fun t => ?_, fun t ht => absurd ht (by simp)⟩
  by_cases hts : t = s
  · subst hts
    rw [Server.modify_inbox_self]
    exact hf
  · rw [c.modify_inbox_of_ne hts]
    exact h.sound t

theorem Server.Reading.doRead {c : Server} {s : Nat} (h : c.Reading [s]) :
    (c.modify s Session.doRead).Reading [] := by
  have hall : c.Reading [] := ⟨h.sound, fun t ht => absurd ht (by simp)⟩
  refine hall.modify s ((Session.doRead_inbox _ _).sound (h.sound s) ?_)
  have hnone := h.idle s (List.mem_singleton.mpr rfl)
  simp only [Server.inbox, Session.inbox] at hnone
  simp [Session.doRead, Session.inbox, hnone, Session.Op.reading?]

theorem Server.Reading.packet {c : Server} (h : c.Reading []) {s size : Nat}
    (hop : .received size ∈ (c.session s).ops) (id : SessionId) :
    ((c.modify s (·.begin (.received size))).callBack s
      (.packet id ((c.session s).receivedPacket.view size))).Reading [s] := by
  obtain ⟨hsound, hnone⟩ := Session.deliver_sound (h.sound s) hop
  have hself : ((c.modify s (·.begin (.received size))).callBack s
      (.packet id ((c.session s).receivedPacket.view size))).inbox s =
        ((c.session s).begin (.received size)).inbox
          (c.delivered s ++ (c.session s).receivedPacket.view size) := by
    simp [Server.callBack, Server.record, Server.modify, Server.inbox, Server.delivered,
      Server.Entry.bytesOf]
  have hother : ∀ t, t ≠ s → ((c.modify s (·.begin (.received size))).callBack s
      (.packet id ((c.session s).receivedPacket.view size))).inbox t = c.inbox t := by
    intro t hts
    simp [Server.callBack, Server.record, Server.modify, Server.inbox, Server.delivered,
      Server.Entry.bytesOf, Function.update_of_ne hts, Ne.symm hts]
  refine ⟨fun t => ?_, fun t ht => ?_⟩
  · by_cases hts : t = s
    · subst hts
      rw [hself]
      exact hsound
    · rw [hother t hts]
      exact h.sound t
  · obtain rfl := List.mem_singleton.mp ht
    rw [hself]
    exact hnone

theorem Server.announce_delivered (c : Server) (address : SessionId) (t : Nat) :
    (c.announce address).delivered t = c.delivered t := by
  simp [Server.announce, Server.callBack, Server.record, Server.makeSession,
    Server.delivered, Server.Entry.bytesOf]

theorem Server.Reading.delivered_new {c : Server} (h : c.Reading [])
    (hfresh : c.session c.made = Session.make 0) : c.delivered c.made = [] := by
  have hc := (h.sound c.made).conserved ()
  simpa [Server.inbox, Session.inbox, Reader.pending, hfresh, Session.make] using hc

theorem Server.Reading.announce {c : Server} (h : c.Reading [])
    (hfresh : c.session c.made = Session.make 0) (address : SessionId) :
    (c.announce address).Reading [c.made] := by
  have hself : (c.announce address).inbox c.made = (Session.make address).inbox [] := by
    rw [Server.inbox, c.announce_session_new, c.announce_delivered, h.delivered_new hfresh]
  refine ⟨fun t => ?_, fun t ht => ?_⟩
  · by_cases htm : t = c.made
    · rw [htm, hself]
      exact ⟨Nat.zero_le 1, fun _ => rfl⟩
    · rw [Server.inbox, c.announce_session_of_ne address htm, c.announce_delivered]
      exact h.sound t
  · obtain rfl := List.mem_singleton.mp ht
    rw [hself]
    rfl

theorem Server.Reading.accept {c : Server} (h : c.Reading []) (hi : c.Integrity [])
    (hfresh : c.session c.made = Session.make 0) {address : SessionId}
    (hfree : c.Free address) (inside : List Server.Call) :
    (c.handleAccept 0 address inside).Reading [] := by
  rw [Server.handleAccept_eq]
  have hmade := hi.announce hfree
  have hcalled := (h.announce hfresh address).calls hmade inside
  have hemplaced : (((c.announce address).calls inside).emplace c.made).Reading [c.made] := by
    rw [Server.emplace_eq ((hmade.calls inside).lookup_none Server.live_held
      (hi.announced hfree inside))]
    exact hcalled.frame fun t => Server.record_inbox _ (fun _ => rfl) t
  have hstarted := hemplaced.doRead
  exact ⟨hstarted.sound, hstarted.idle⟩

theorem Server.Move.reading {c d : Server} {e : Server.Event} (h : c.Move e d)
    (hi : c.Integrity []) (hfresh : c.session c.made = Session.make 0)
    (hc : c.Reading []) : d.Reading [] := by
  cases h with
  | call x => exact hc.calls hi [x]
  | refused ec address inside => exact ⟨hc.sound, hc.idle⟩
  | accepted address inside hfree =>
    have hi' := hi.accepting (c.accepting - 1)
    have hc' : Server.Reading [] { c with accepting := c.accepting - 1 } :=
      ⟨hc.sound, hc.idle⟩
    exact hc'.accept hi' hfresh hfree inside
  | arrive s bytes =>
    exact hc.modify s ((Session.arrive_inbox _ bytes _).sound (hc.sound s) (hc.sound s).single)
  | perform s packet hop hp => exact hc.modify s (Session.perform_sound (hc.sound s) hop hp)
  | failed s op ec inside hop hec hy =>
    have hbegun := hi.begin hop
    have hfailed : (c.modify s (·.begin op)).Reading [] := by
      refine hc.modify s ?_
      cases op with
      | read => exact Session.fail_sound (hc.sound s) hop
      | received size => exact absurd hy hec
      | write chunk =>
        rw [Session.begin_inbox hop rfl]
        exact hc.sound s
    exact (hfailed.frame (Server.leave_inbox _ s ec)).calls
      (hbegun.leave s ec) inside
  | packet s size inside hop =>
    rw [Server.handleRead_begin]
    have hbegun := hi.begin hop
    exact ((hc.packet hop _).calls (hbegun.callBack s _) inside).doRead
  | written s chunk inside hop =>
    rw [Server.modify_modify]
    refine hc.modify s ?_
    rw [Session.written_inbox, Session.begin_inbox hop rfl]
    exact hc.sound s

theorem Server.reading_of_reachable {c : Server} (h : Server.machine.Reachable c) :
    c.Reading [] := by
  have hstart : Server.machine.start.Reading [] :=
    ⟨fun _ => ⟨Nat.zero_le 1, fun _ => rfl⟩, fun s hs => absurd hs (by simp)⟩
  obtain ⟨es, hes⟩ := h
  refine Machine.run_induction (motive := fun _ c => c.Reading []) hstart ?_ hes
  intro es c e d hrun hc hs
  have hreach : Server.machine.Reachable c := ⟨es, hrun⟩
  exact (Server.step_move hs).reading (Server.integrity_of_reachable hreach)
    ((Server.sending_of_reachable hreach).fresh c.made (Nat.le_refl _)) hc

/-- What the packet handler was given of a session is what its peer sent, as far as it
goes. -/
theorem Server.delivered_of_arrived {c : Server} (h : Server.machine.Reachable c) (s : Nat) :
    c.delivered s <+: (c.session s).arrived :=
  ((Server.reading_of_reachable h).sound s).delivered_initial ()

end Sephi.Net.Tcp
