import Sephi.TcpRegistry

set_option autoImplicit false

namespace Sephi.Net.Tcp
open Transition

def Server.Entry.sets (id : SessionId) : Server.Entry → Option Bool
  | .report _ (.connection i state _) _ =>
    if i = id then some (decide (state = .connected)) else none
  | _ => none

def Server.announced (h : List Server.Entry) (id : SessionId) : Bool :=
  h.foldl (fun b entry => (entry.sets id).getD b) false

theorem Server.announced_append (h l : List Server.Entry) (id : SessionId) :
    Server.announced (h ++ l) id =
      l.foldl (fun b entry => (entry.sets id).getD b) (Server.announced h id) := by
  simp [Server.announced]

theorem Server.announced_snoc (h : List Server.Entry) (entry : Server.Entry)
    (id : SessionId) :
    Server.announced (h ++ [entry]) id = (entry.sets id).getD (Server.announced h id) := by
  simp [Server.announced]

theorem Server.leave_announced (c : Server) (s : Nat) (ec : ErrorCode) (id : SessionId) :
    Server.announced (c.leave s ec).history id =
      if c.sessionPtrToId s = id then false else Server.announced c.history id := by
  simp only [Server.leave, Server.callBack, Server.record, Server.announced_snoc,
    Server.Entry.sets]
  split <;> simp

/-- A recorded write call has done what the map of that moment says, and the map has no
retired id. -/
def Server.Entry.Routed (before : List Server.Entry) : Server.Entry → Prop
  | .called w registered reached result =>
    reached = w.targets registered ∧ result = w.result registered ∧
      ∀ id, Server.announced before id = false → registered.lookup id = none
  | _ => True

structure Server.Announces (c : Server) : Prop where
  current : ∀ id, Server.announced c.history id = false → c.sessions.lookup id = none
  routed : Along Server.Entry.Routed c.history

theorem Server.Announces.record {c : Server} (h : c.Announces) (entry : Server.Entry)
    (hs : ∀ id, entry.sets id = none) (hr : entry.Routed c.history) :
    (c.record entry).Announces := by
  refine ⟨fun id hid => h.current id ?_, along_snoc.mpr ⟨h.routed, hr⟩⟩
  simpa [Server.record, Server.announced_snoc, hs id] using hid

theorem Server.Announces.write {c : Server} (h : c.Announces) (w : Server.WriteCall) :
    (c.write w).Announces := by
  rw [Server.write_eq]
  refine ⟨fun id hid => h.current id ?_, along_snoc.mpr ⟨h.routed, rfl, rfl, h.current⟩⟩
  simpa [Server.announced_snoc, Server.Entry.sets] using hid

theorem Server.Announces.leave {c : Server} (h : c.Announces) (s : Nat) (ec : ErrorCode) :
    (c.leave s ec).Announces := by
  refine ⟨fun id hid => ?_, along_snoc.mpr ⟨h.routed, trivial⟩⟩
  by_cases hi : id = c.sessionPtrToId s
  · subst hi
    exact AList.lookup_erase _ _
  · rw [Server.leave_announced, if_neg (Ne.symm hi)] at hid
    exact (AList.lookup_erase_ne hi).trans (h.current id hid)

theorem Server.Announces.calling {c d : Server} (h : c.Announces) (hd : c.Calling d) :
    d.Announces := by
  cases hd with
  | write w => exact h.write w
  | shutdown s ec => exact h.record _ (fun _ => rfl) trivial
  | leave s hs => exact h.leave s 0

theorem Server.Announces.calls {held : List Nat} {c : Server} (h : c.Announces)
    (hi : c.Integrity held) (inside : List Server.Call) : (c.calls inside).Announces :=
  (hi.calls_induction h (fun _ _ _ hp hs => hp.calling hs) inside).1

theorem Server.Announces.modify {c : Server} (h : c.Announces) (s : Nat)
    (f : Session → Session) : (c.modify s f).Announces := ⟨h.current, h.routed⟩

theorem Server.Announces.announce {c : Server} (h : c.Announces) (address : SessionId) :
    (c.announce address).Announces := by
  refine ⟨fun id hid => h.current id ?_, along_snoc.mpr ⟨h.routed, trivial⟩⟩
  have hid' : ((Server.Entry.report c.made (.connection address .connected 0)
      c.sessions).sets id).getD (Server.announced c.history id) = false := by
    simpa [Server.announce, Server.makeSession, Server.callBack, Server.record,
      Server.announced_snoc] using hid
  by_cases ha : address = id
  · simp [Server.Entry.sets, ha] at hid'
  · simpa [Server.Entry.sets, ha] using hid'

theorem Server.announced_calls {s : Nat} {c : Server} (hi : c.Integrity [s])
    (hr : ¬ c.Registered s)
    (ha : Server.announced c.history (c.session s).address = true)
    (inside : List Server.Call) :
    Server.announced (c.calls inside).history ((c.calls inside).session s).address =
      true := by
  refine (hi.calls_induction (P := fun d => ¬ d.Registered s ∧
    Server.announced d.history (d.session s).address = true) ⟨hr, ha⟩ ?_ inside).1.2
  rintro d e hd ⟨hdr, hda⟩ hs
  refine ⟨fun her => hdr (hs.narrows.registered her), ?_⟩
  rw [hs.narrows.address s]
  cases hs with
  | write w => simpa [Server.write_eq, Server.announced_snoc, Server.Entry.sets] using hda
  | shutdown t ec =>
    simpa [Server.sessionClose, Server.record, Server.announced_snoc,
      Server.Entry.sets] using hda
  | leave t ht =>
    have hne : d.sessionPtrToId t ≠ (d.session s).address := by
      intro heq
      obtain rfl := hd.distinct t s (.inl ht) Server.live_held heq
      exact hdr ht
    rw [Server.leave_announced, if_neg hne]
    exact hda

theorem Server.Announces.emplace {c : Server} (h : c.Announces) {s : Nat}
    (hn : c.sessions.lookup (c.session s).address = none)
    (ha : Server.announced c.history (c.session s).address = true) :
    (c.emplace s).Announces := by
  rw [Server.emplace_eq hn]
  refine ⟨fun id hid => ?_, along_snoc.mpr ⟨h.routed, trivial⟩⟩
  have hid' : Server.announced c.history id = false := by
    simpa [Server.record, Server.announced_snoc, Server.Entry.sets] using hid
  have hne : id ≠ (c.session s).address := by
    rintro rfl
    simp [ha] at hid'
  exact (AList.lookup_insert_ne hne).trans (h.current id hid')

theorem Server.Announces.accept {c : Server} (h : c.Announces) (hi : c.Integrity [])
    {address : SessionId} (hfree : c.Free address) (inside : List Server.Call) :
    (c.handleAccept 0 address inside).Announces := by
  rw [Server.handleAccept_eq]
  have hmade := hi.announce hfree
  have hcalled := hmade.calls inside
  have hnone := hcalled.lookup_none Server.live_held (hi.announced hfree inside)
  have hbefore : ¬ (c.announce address).Registered c.made := hi.announced hfree []
  have hnow : Server.announced (c.announce address).history
      ((c.announce address).session c.made).address = true := by
    simp [Server.announce, Server.callBack, Server.record, Server.makeSession,
      Server.announced_snoc, Server.Entry.sets, Session.make]
  have hstill := Server.announced_calls hmade hbefore hnow inside
  have hemplaced := ((h.announce address).calls hmade inside).emplace hnone hstill
  exact ⟨hemplaced.current, hemplaced.routed⟩

theorem Server.Move.announces {c d : Server} {e : Server.Event} (h : c.Move e d)
    (hi : c.Integrity []) (hc : c.Announces) : d.Announces := by
  cases h with
  | call x => exact hc.calls hi [x]
  | refused ec address inside => exact ⟨hc.current, hc.routed⟩
  | accepted address inside hfree =>
    have hi' := hi.accepting (c.accepting - 1)
    have hc' : Server.Announces { c with accepting := c.accepting - 1 } :=
      ⟨hc.current, hc.routed⟩
    exact hc'.accept hi' hfree inside
  | arrive s bytes => exact hc.modify s _
  | perform s packet => exact hc.modify s _
  | failed s op ec inside hop =>
    have hbegun := hi.begin hop
    exact ((hc.modify s _).leave s ec).calls (hbegun.leave s ec) inside
  | packet s size inside hop =>
    rw [Server.handleRead_begin]
    have hbegun := hi.begin hop
    have hgiven := (hc.modify s (·.begin (.received size))).record
      (.report s (.packet (c.sessionPtrToId s)
        ((c.session s).receivedPacket.view size)) c.sessions) (fun _ => rfl) trivial
    exact (hgiven.calls (hbegun.callBack s _) inside).modify s _
  | written s chunk inside => exact (hc.modify s _).modify s _

theorem Server.announces_of_reachable {c : Server} (h : Server.machine.Reachable c) :
    c.Announces := by
  have hstart : Server.machine.start.Announces :=
    ⟨fun id _ => AList.lookup_empty id, along_nil _⟩
  refine (h.invariant (I := fun c => c.Integrity [] ∧ c.Announces)
    ⟨Server.integrity_start, hstart⟩ ?_).2
  rintro c e d ⟨hi, hc⟩ hs
  have hm := Server.step_move hs
  exact ⟨hm.integrity hi, hm.announces hi hc⟩

/-- `write_to` with the id of `s` returns false or reaches at most `s`, and
`write_to_all_except` leaves out at most `s`. -/
def Server.ConfinedTo (s : Nat) (id : SessionId) (w : Server.WriteCall)
    (registered : SessionMap) (reached : List Nat) (result : Bool) : Prop :=
  (∀ chunk, w = .writeTo id chunk → result = false ∨ ∀ t ∈ reached, t = s) ∧
  (∀ order chunk, w = .writeToAllExcept order id chunk →
    ∀ i t, registered.lookup i = some t → t ≠ s → t ∈ reached)

/-- In the record `h`, a write call comes after `s` was announced under `id` and later
reported disconnected, and `between` lies between that report and the call. -/
def Server.CalledAfterLoss (h : List Server.Entry) (s : Nat) (id : SessionId)
    (between : List Server.Entry) (w : Server.WriteCall) (registered : SessionMap)
    (reached : List Nat) (result : Bool) : Prop :=
  ∃ pre ec r post, (∃ ec' r', .report s (.connection id .connected ec') r' ∈ pre) ∧
    h = pre ++ .report s (.connection id .disconnected ec) r ::
      (between ++ .called w registered reached result :: post)

theorem Server.announced_foldl (l : List Server.Entry) (id : SessionId)
    (hl : ∀ s ec r, .report s (.connection id .connected ec) r ∉ l) :
    l.foldl (fun b entry => (entry.sets id).getD b) false = false := by
  induction l with
  | nil => rfl
  | cons entry l ih =>
    have hrest := ih fun s ec r hmem => hl s ec r (List.mem_cons_of_mem entry hmem)
    have hfirst : (entry.sets id).getD false = false := by
      cases hs : entry.sets id with
      | none => rfl
      | some b =>
        cases entry with
        | report s callback r =>
          cases callback with
          | connection i state ec =>
            cases state with
            | disconnected =>
              have hb : i = id ∧ b = false := by simpa [Server.Entry.sets] using hs
              simp [hb.2]
            | connected =>
              have hb : i = id ∧ b = true := by simpa [Server.Entry.sets] using hs
              exact absurd (hb.1 ▸ List.mem_cons_self) (hl s ec r)
          | packet i data => simp [Server.Entry.sets] at hs
        | called | emplaced | shutdown => simp [Server.Entry.sets] at hs
    rw [List.foldl_cons, hfirst]
    exact hrest

/-- Until a session is announced under the same id again, nobody is confused with `s`. -/
theorem Server.id_confined_until_announced (c : Server) (h : Server.machine.Reachable c)
    (s : Nat) (id : SessionId) (between : List Server.Entry) (w : Server.WriteCall)
    (registered : SessionMap) (reached : List Nat) (result : Bool)
    (hcalled : Server.CalledAfterLoss c.history s id between w registered reached result)
    (hbetween : ∀ t ec r, .report t (.connection id .connected ec) r ∉ between) :
    Server.ConfinedTo s id w registered reached result := by
  obtain ⟨pre, ec, r, post, _, hsplit⟩ := hcalled
  have hrouted := (Server.announces_of_reachable h).routed
    (pre ++ .report s (.connection id .disconnected ec) r :: between)
    (.called w registered reached result) post (by simp [hsplit])
  obtain ⟨hreached, hresult, hretired⟩ := hrouted
  have hgone : registered.lookup id = none := by
    refine hretired id ?_
    rw [Server.announced_append, List.foldl_cons]
    simpa [Server.Entry.sets] using Server.announced_foldl between id hbetween
  constructor
  · rintro chunk rfl
    left
    rw [hresult, Server.WriteCall.result, hgone]
    rfl
  · rintro order chunk rfl i t ht _
    have hi : i ≠ id := by
      rintro rfl
      simp [hgone] at ht
    rw [hreached]
    exact Server.WriteCall.mem_targets.mpr
      ⟨i, ht, by simpa [Server.WriteCall.addresses] using Ne.symm hi⟩

def writesAfterLoss : List Server.Event :=
  [.accept 0 4096 [], .accept 0 8192 [], .complete 0 .read 104 [],
    .call (.write (.writeToAllExcept [] 4096 [7]))]

theorem Server.id_confined_writesAfterLoss :
    ∃ c registered reached result, Server.machine.run writesAfterLoss = some c ∧
      Server.ConfinedTo 0 4096 (.writeToAllExcept [] 4096 [7]) registered reached result ∧
      reached = [1] :=
  ⟨_, _, _, _, rfl,
    Server.id_confined_until_announced _ ⟨writesAfterLoss, rfl⟩ 0 4096 [] _ _ _ _
      ⟨[_, _, _, _], 104, _, [], ⟨0, _, List.mem_cons_self⟩, rfl⟩ (by simp), rfl⟩

/-- The second session is made at the address of the first one, which is gone. -/
def addressUsedAgain : List Server.Event :=
  [.accept 0 4096 [], .complete 0 .read 104 [], .accept 0 4096 [],
    .call (.write (.writeTo 4096 [7]))]

theorem Server.id_reaches_later_session :
    ∃ c between registered reached result,
      Server.machine.run addressUsedAgain = some c ∧ (c.session 1).sendingMessages = [[7]] ∧
      Server.CalledAfterLoss c.history 0 4096 between (.writeTo 4096 [7]) registered reached
        result ∧
      reached = [1] ∧
      ¬ Server.ConfinedTo 0 4096 (.writeTo 4096 [7]) registered reached result := by
  refine ⟨_, [_, _], _, [1], true, rfl, rfl,
    ⟨[_, _], 104, _, [], ⟨0, _, List.mem_cons_self⟩, rfl⟩, rfl, ?_⟩
  intro h
  rcases h.1 [7] rfl with hfalse | honly
  · simp at hfalse
  · simpa using honly 1 (List.mem_singleton.mpr rfl)

end Sephi.Net.Tcp
