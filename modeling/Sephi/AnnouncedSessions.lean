import Sephi.TcpRegistry

set_option autoImplicit false

namespace Sephi.Net.Tcp
open Transition

/-- The session that an entry announces an id for, or `none` for the loss of it. -/
def Server.Entry.gives (id : SessionId) : Server.Entry → Option (Option Nat)
  | .report s (.connection i state _) _ =>
    if i = id then some (if state = .connected then some s else none) else none
  | _ => none

/-- The session that was announced under the id and not reported disconnected since. -/
def Server.holder (h : List Server.Entry) (id : SessionId) : Option Nat :=
  h.foldl (fun s entry => (entry.gives id).getD s) none

def Server.Entry.announces : Server.Entry → Option Bool
  | .report _ (.connection _ .connected _) _ => some true
  | .emplaced _ => some false
  | _ => none

/-- The application is inside a connected report. -/
def Server.announcing (h : List Server.Entry) : Bool :=
  h.foldl (fun b entry => entry.announces.getD b) false

def Server.Agrees (h : List Server.Entry) (registered : SessionMap) : Prop :=
  ∀ id, Server.holder h id = registered.lookup id

/-- The announced sessions are those in the map. A `write_to` with the id of one of them
would return true and put the chunk into the queue of that session alone, and a
`write_to_all` would put it there too. -/
structure Server.Serves (c : Server) : Prop where
  agrees : Server.Agrees c.history c.sessions
  writeTo : ∀ id s chunk, Server.holder c.history id = some s →
    (c.writeTo id chunk).2 = true ∧
    ∀ t, ((c.writeTo id chunk).1.session t).sendingMessages =
      (c.session t).sendingMessages ++ if t = s then [chunk] else []
  writeToAll : ∀ id s order chunk, Server.holder c.history id = some s →
    ((c.writeToAll order chunk).session s).sendingMessages =
      (c.session s).sendingMessages ++ [chunk]

/-- Where the application's code runs, in a handler that is called or in a call that it
makes, it finds the announced sessions in the map exactly if it is not inside a connected
report. -/
def Server.Entry.Finds (before : List Server.Entry) : Server.Entry → Prop
  | .report s callback registered =>
    Server.Agrees (before ++ [.report s callback registered]) registered ↔
      Server.announcing (before ++ [.report s callback registered]) = false
  | .called _ registered _ _ =>
    Server.Agrees before registered ↔ Server.announcing before = false
  | _ => True

theorem Server.holder_snoc (h : List Server.Entry) (entry : Server.Entry) (id : SessionId) :
    Server.holder (h ++ [entry]) id = (entry.gives id).getD (Server.holder h id) := by
  simp [Server.holder]

theorem Server.announcing_snoc (h : List Server.Entry) (entry : Server.Entry) :
    Server.announcing (h ++ [entry]) = entry.announces.getD (Server.announcing h) := by
  simp [Server.announcing]

/-- `new` is the session whose connected report is going on: it is announced and not in
the map. All others are in the map as they are announced. -/
structure Server.Tells (new : Option Nat) (c : Server) : Prop where
  fresh : ∀ s ∈ new, Server.holder c.history (c.session s).address = some s ∧
    c.sessions.lookup (c.session s).address = none
  others : ∀ id, (∀ s ∈ new, (c.session s).address ≠ id) →
    Server.holder c.history id = c.sessions.lookup id
  announcing : Server.announcing c.history = new.isSome

structure Server.Told (new : Option Nat) (c : Server) : Prop extends Server.Tells new c where
  finds : Along Server.Entry.Finds c.history

theorem Server.Tells.agrees_iff {new : Option Nat} {c : Server} (h : c.Tells new) :
    Server.Agrees c.history c.sessions ↔ Server.announcing c.history = false := by
  rw [h.announcing]
  cases new with
  | none => exact iff_of_true (fun id => h.others id fun _ hs => nomatch hs) rfl
  | some s =>
    refine iff_of_false (fun hagrees => ?_) (fun hn => nomatch hn)
    obtain ⟨hholder, hlookup⟩ := h.fresh s rfl
    exact nomatch hholder.symm.trans ((hagrees _).trans hlookup)

theorem Server.serves_of_agrees {held : List Nat} {c : Server} (hi : c.Integrity held)
    (h : Server.Agrees c.history c.sessions) : c.Serves := by
  refine ⟨h, fun id s chunk hs => ?_, fun id s order chunk hs => ?_⟩
  · rw [h id] at hs
    simp only [Server.writeTo, hs, true_and]
    intro t
    by_cases ht : t = s
    · subst ht
      simp [Server.sessionWrite, Server.modify]
    · simp [Server.sessionWrite, Server.modify, ht]
  · rw [h id] at hs
    have hmem : s ∈ (Server.WriteCall.writeToAll order chunk).targets c.sessions :=
      Server.WriteCall.mem_targets.mpr ⟨id, hs, rfl⟩
    have hcount : ((c.sessions.iteration order).map (·.2)).count s = 1 :=
      List.count_eq_one_of_mem (hi.targets_nodup (.writeToAll order chunk)) hmem
    have hall := Server.sessionWrites_eq c chunk ((c.sessions.iteration order).map (·.2))
    rw [List.foldl_map] at hall
    rw [Server.writeToAll, hall]
    simp [hcount]

theorem Server.Tells.record {new : Option Nat} {c : Server} (h : c.Tells new)
    {entry : Server.Entry} (hgives : ∀ id, entry.gives id = none)
    (hann : entry.announces = none) : (c.record entry).Tells new := by
  have hsame : ∀ id, Server.holder (c.record entry).history id =
      Server.holder c.history id := by
    intro id
    simp [Server.record, Server.holder_snoc, hgives id]
  refine ⟨fun s hs => ?_, fun id hid => ?_, ?_⟩
  · rw [hsame]
    exact h.fresh s hs
  · rw [hsame]
    exact h.others id hid
  · simpa [Server.record, Server.announcing_snoc, hann] using h.announcing

theorem Server.Tells.callBack {new : Option Nat} {c : Server} {s : Nat}
    {callback : Server.Callback} (h : (c.callBack s callback).Tells new)
    (hc : Along Server.Entry.Finds c.history) : (c.callBack s callback).Told new :=
  ⟨h, along_snoc.mpr ⟨hc, h.agrees_iff⟩⟩

theorem Server.Tells.congr {new : Option Nat} {c d : Server} (h : c.Tells new)
    (hh : d.history = c.history) (hs : d.sessions = c.sessions)
    (ha : ∀ s, (d.session s).address = (c.session s).address) : d.Tells new := by
  refine ⟨fun s hmem => ?_, fun id hid => ?_, hh ▸ h.announcing⟩
  · rw [hh, hs, ha]
    exact h.fresh s hmem
  · rw [hh, hs]
    exact h.others id fun s hmem => ha s ▸ hid s hmem

theorem Server.Told.write {new : Option Nat} {c : Server} (h : c.Told new)
    (w : Server.WriteCall) : (c.write w).Told new := by
  have hgives : ∀ id, (Server.Entry.called w c.sessions (w.targets c.sessions)
      (w.result c.sessions)).gives id = none := fun _ => rfl
  have hrecord := h.record hgives rfl
  rw [Server.write_eq]
  exact ⟨hrecord.congr rfl rfl fun s => Session.writes_address _ _ _,
    along_snoc.mpr ⟨h.finds, h.agrees_iff⟩⟩

theorem Server.leave_holder (c : Server) (s : Nat) (ec : ErrorCode) (id : SessionId) :
    Server.holder (c.leave s ec).history id =
      if (c.session s).address = id then none else Server.holder c.history id := by
  simp only [Server.leave, Server.callBack, Server.record, Server.holder_snoc,
    Server.Entry.gives, Server.sessionPtrToId]
  split <;> simp

theorem Server.leave_announcing (c : Server) (s : Nat) (ec : ErrorCode) :
    Server.announcing (c.leave s ec).history = Server.announcing c.history := by
  simp only [Server.leave, Server.callBack, Server.record, Server.announcing_snoc,
    Server.Entry.announces, Option.getD_none]

theorem Server.Told.leave {new : Option Nat} {c : Server} (h : c.Told new) {s : Nat}
    (hne : ∀ n ∈ new, (c.session n).address ≠ (c.session s).address) (ec : ErrorCode) :
    (c.leave s ec).Told new := by
  have hsessions : (c.leave s ec).sessions = c.sessions.erase (c.session s).address := rfl
  have hsession : (c.leave s ec).session = c.session := rfl
  have htells : (c.leave s ec).Tells new := by
    refine ⟨fun n hn => ?_, fun id hid => ?_, ?_⟩
    · rw [hsession, hsessions, Server.leave_holder, if_neg (hne n hn).symm,
        AList.lookup_erase_ne (hne n hn)]
      exact h.fresh n hn
    · rw [hsessions, Server.leave_holder]
      by_cases heq : (c.session s).address = id
      · rw [if_pos heq, ← heq, AList.lookup_erase]
      · rw [if_neg heq, AList.lookup_erase_ne (Ne.symm heq)]
        exact h.others id hid
    · rw [Server.leave_announcing]
      exact h.announcing
  exact htells.callBack h.finds

theorem Server.Told.calling {held : List Nat} {new : Option Nat} {c d : Server}
    (h : c.Told new) (hi : c.Integrity held) (hd : c.Calling d) : d.Told new := by
  cases hd with
  | write w => exact h.write w
  | shutdown s ec =>
    exact ⟨h.record (fun _ => rfl) rfl, along_snoc.mpr ⟨h.finds, trivial⟩⟩
  | leave s hs =>
    refine h.leave (fun n hn heq => ?_) 0
    have hlookup := (h.fresh n hn).2
    rw [heq, hi.lookup_registered hs] at hlookup
    exact nomatch hlookup

theorem Server.Told.calls {held : List Nat} {new : Option Nat} {c : Server}
    (h : c.Told new) (hi : c.Integrity held) (inside : List Server.Call) :
    (c.calls inside).Told new :=
  (hi.calls_induction h (fun _ _ hd hp hs => hp.calling hd hs) inside).1

theorem Server.Told.modify {c : Server} (h : c.Told none) (s : Nat) (f : Session → Session) :
    (c.modify s f).Told none :=
  ⟨⟨fun _ hn => (nomatch hn), fun id _ => h.others id fun _ hn => (nomatch hn),
    h.announcing⟩, h.finds⟩

theorem Server.Told.accepting {new : Option Nat} {c : Server} (h : c.Told new) (n : Nat) :
    Server.Told new { c with accepting := n } :=
  ⟨h.congr rfl rfl fun _ => rfl, h.finds⟩

theorem Server.Told.announce {c : Server} (h : c.Told none) (hi : c.Integrity [])
    {address : SessionId} (hfree : c.Free address) :
    (c.announce address).Told (some c.made) := by
  have hholder : ∀ id, Server.holder (c.announce address).history id =
      if address = id then some c.made else Server.holder c.history id := by
    intro id
    simp only [Server.announce, Server.makeSession, Server.callBack, Server.record,
      Server.holder_snoc, Server.Entry.gives]
    split <;> simp
  have hnew : ((c.announce address).session c.made).address = address := by
    rw [Server.announce_session_new]
    rfl
  have hmade := hi.announce hfree
  refine Server.Tells.callBack ⟨fun n hn => ?_, fun id hid => ?_, ?_⟩ h.finds
  · obtain rfl := Option.some.inj hn
    refine ⟨?_, hmade.lookup_none Server.live_held (hi.announced hfree [])⟩
    exact (hholder _).trans (if_pos hnew.symm)
  · have hne : address ≠ id := fun heq => hid c.made rfl (hnew.trans heq)
    exact (hholder id).trans ((if_neg hne).trans (h.others id (by simp)))
  · simp [Server.makeSession, Server.callBack, Server.record, Server.announcing_snoc,
      Server.Entry.announces]

theorem Server.Told.emplace {c : Server} {s : Nat} (h : c.Told (some s)) :
    (c.emplace s).Told none := by
  obtain ⟨hfresh, hlookup⟩ := h.fresh s rfl
  have hemplaced := Server.emplace_eq hlookup
  have hsessions : (c.emplace s).sessions = c.sessions.insert (c.session s).address s :=
    congrArg Server.sessions hemplaced
  have hhistory : (c.emplace s).history = c.history ++ [.emplaced s] :=
    congrArg Server.history hemplaced
  refine ⟨⟨fun _ hn => (nomatch hn), fun id _ => ?_, ?_⟩, ?_⟩
  · have hsame : Server.holder (c.history ++ [.emplaced s]) id =
        Server.holder c.history id := by
      simp [Server.holder_snoc, Server.Entry.gives]
    rw [hsessions, hhistory, hsame]
    by_cases heq : (c.session s).address = id
    · rw [← heq, hfresh, AList.lookup_insert]
    · rw [AList.lookup_insert_ne (Ne.symm heq)]
      exact h.others id fun n hn => Option.some.inj hn ▸ heq
  · simp [hhistory, Server.announcing_snoc, Server.Entry.announces]
  · rw [hhistory]
    exact along_snoc.mpr ⟨h.finds, trivial⟩

theorem Server.Told.begin {c : Server} (h : c.Told none) (s : Nat) (op : Session.Op)
    (ec : ErrorCode) : ((c.modify s (·.begin op)).leave s ec).Told none :=
  Server.Told.leave (h.modify s _) (fun _ hn => (nomatch hn)) ec

theorem Server.Told.packet {c : Server} (h : c.Told none) (s : Nat) (id : SessionId)
    (data : Chunk) : (c.callBack s (.packet id data)).Told none :=
  (h.record (fun _ => rfl) rfl).callBack h.finds

theorem Server.Move.told {c d : Server} {e : Server.Event} (h : c.Move e d)
    (hi : c.Integrity []) (hc : c.Told none) : d.Told none := by
  cases h with
  | call x => exact hc.calls hi [x]
  | refused ec address inside => exact (hc.accepting _).accepting _
  | accepted address inside hfree =>
    have hi' := hi.accepting (c.accepting - 1)
    have hcalled := ((hc.accepting (c.accepting - 1)).announce hi' hfree).calls
      (hi'.announce hfree) inside
    rw [Server.handleAccept_eq]
    exact (hcalled.emplace.modify _ _).accepting _
  | arrive s bytes => exact hc.modify s _
  | perform s packet => exact hc.modify s _
  | failed s op ec inside hop =>
    exact (hc.begin s op ec).calls ((hi.begin hop).leave s ec) inside
  | packet s size inside hop =>
    rw [Server.handleRead_begin]
    have hgiven := (hc.modify s (·.begin (.received size))).packet s (c.sessionPtrToId s)
      ((c.session s).receivedPacket.view size)
    exact (hgiven.calls ((hi.begin hop).callBack s _) inside).modify s _
  | written s chunk inside => exact (hc.modify s _).modify s _

theorem Server.Move.within_told {c d t : Server} {e : Server.Event} (h : c.Move e t)
    (hi : c.Integrity []) (hc : c.Told none) (hd : c.within e = some d) :
    ∃ new, d.Told new := by
  cases h with
  | accepted address inside hfree =>
    simp only [Server.within, ne_eq, not_true_eq_false, if_false, Option.some.injEq] at hd
    have hi' := hi.accepting (c.accepting - 1)
    exact ⟨_, hd ▸ ((hc.accepting (c.accepting - 1)).announce hi' hfree).calls
      (hi'.announce hfree) inside⟩
  | failed s op ec inside hop hec =>
    simp only [Server.within, if_pos hec, Option.some.injEq] at hd
    exact ⟨_, hd ▸ (hc.begin s op ec).calls ((hi.begin hop).leave s ec) inside⟩
  | packet s size inside hop =>
    simp only [Server.within, ne_eq, not_true_eq_false, if_false, Option.some.injEq] at hd
    have hgiven := (hc.modify s (·.begin (.received size))).packet s
      ((c.modify s (·.begin (.received size))).sessionPtrToId s)
      (((c.modify s (·.begin (.received size))).session s).receivedPacket.view size)
    exact ⟨_, hd ▸ hgiven.calls ((hi.begin hop).callBack s _) inside⟩
  | refused ec address inside hec => simp [Server.within, hec] at hd
  | call | arrive | perform | written => simp [Server.within] at hd

theorem Server.told_of_reachable {c : Server} (h : Server.machine.Reachable c) :
    c.Told none := by
  have hstart : Server.machine.start.Told none :=
    ⟨⟨fun _ hn => (nomatch hn), fun _ _ => rfl, rfl⟩, along_nil _⟩
  refine (h.invariant (I := fun c => c.Integrity [] ∧ c.Told none)
    ⟨Server.integrity_start, hstart⟩ ?_).2
  rintro c e d ⟨hi, hc⟩ hs
  have hm := Server.step_move hs
  exact ⟨hm.integrity hi, hm.told hi hc⟩

theorem Server.Asked.told {c : Server} (h : c.Asked) : ∃ new, c.Told new := by
  induction h with
  | between _ h => exact ⟨none, Server.told_of_reachable h⟩
  | inside b t _ e h ht hd =>
    exact (Server.step_move ht).within_told (Server.integrity_of_reachable h)
      (Server.told_of_reachable h) hd
  | closing c order done rest shutdown inside h hsplit ih =>
    obtain ⟨new, hc⟩ := ih
    obtain ⟨held, hi⟩ := h.integrity
    exact ⟨new, (hi.callings_induction hc (fun _ _ hd hp hs => hp.calling hd hs)
      (Server.closeLoop_callings hi.keyed shutdown inside hsplit)).1⟩

/-- Wherever the application's code can run, the announced sessions are those in the map,
and its writes serve them, exactly if it is not inside a connected report; between two
steps it never is. The same holds for what its handlers and calls have found up to then. -/
theorem Server.announced_are_served_iff (c : Server) (h : c.Asked) :
    (Server.Agrees c.history c.sessions ↔ Server.announcing c.history = false) ∧
    (c.Serves ↔ Server.announcing c.history = false) ∧
    (Server.machine.Reachable c → Server.announcing c.history = false) ∧
    Along Server.Entry.Finds c.history := by
  obtain ⟨new, hc⟩ := h.told
  obtain ⟨held, hi⟩ := h.integrity
  refine ⟨hc.agrees_iff, ?_, fun hr => (Server.told_of_reachable hr).announcing, hc.finds⟩
  exact ⟨fun hs => hc.agrees_iff.mp hs.agrees,
    fun hn => Server.serves_of_agrees hi (hc.agrees_iff.mpr hn)⟩

def writesInReport : List Server.Event :=
  [.accept 0 4096 [], .accept 0 8192 [.write (.writeTo 4096 [7])], .complete 0 .read 104 []]

theorem Server.announced_are_served_writesInReport :
    ∃ c, Server.machine.run writesInReport = some c ∧ c.Serves ∧
      Server.holder c.history 8192 = some 1 ∧
      ((c.writeTo 8192 [9]).1.session 1).sendingMessages = [[9]] := by
  obtain ⟨c, hrun, hholder, hqueue⟩ : ∃ c, Server.machine.run writesInReport = some c ∧
      Server.holder c.history 8192 = some 1 ∧ (c.session 1).sendingMessages = [] :=
    ⟨_, rfl, rfl, rfl⟩
  have hreachable : Server.machine.Reachable c := ⟨_, hrun⟩
  obtain ⟨_, hiff, hbetween, _⟩ :=
    Server.announced_are_served_iff c (.between c hreachable)
  have hserves := hiff.mpr (hbetween hreachable)
  have hwritten := (hserves.writeTo 8192 1 [9] hholder).2 1
  rw [hqueue, if_pos rfl] at hwritten
  exact ⟨c, hrun, hserves, hholder, hwritten⟩

/-- Inside the report of the first session, `write_to` with its id returns false and
`write_to_all` leaves it out. -/
theorem Server.announced_session_not_found :
    ∃ c : Server, c.Asked ∧ Server.holder c.history 4096 = some 0 ∧
      (c.writeTo 4096 [7]).2 = false ∧
      ((c.writeToAll [] [7]).session 0).sendingMessages = [] ∧
      ¬ Server.Agrees c.history c.sessions ∧ ¬ c.Serves := by
  obtain ⟨c, hasked, hholder, hresult, hqueue⟩ : ∃ c : Server, c.Asked ∧
      Server.holder c.history 4096 = some 0 ∧ (c.writeTo 4096 [7]).2 = false ∧
      ((c.writeToAll [] [7]).session 0).sendingMessages = [] :=
    ⟨_, .inside _ _ _ (.accept 0 4096 []) .start rfl rfl, rfl, rfl, rfl⟩
  have hnot : ¬ c.Serves := fun h => by
    have hfound := (h.writeTo 4096 0 [7] hholder).1
    rw [hresult] at hfound
    exact absurd hfound Bool.false_ne_true
  obtain ⟨held, hi⟩ := hasked.integrity
  exact ⟨c, hasked, hholder, hresult, hqueue,
    fun hagrees => hnot (Server.serves_of_agrees hi hagrees), hnot⟩

end Sephi.Net.Tcp
