import Sephi.TcpRegistry

set_option autoImplicit false

namespace Sephi.Net.Tcp
open Transition

theorem SessionMap.eq_empty {m : SessionMap} (h : ∀ id, m.lookup id = none) : m = ∅ := by
  refine AList.ext ?_
  cases he : m.entries with
  | nil => rfl
  | cons session rest =>
    have hmem : m.lookup session.1 = some session.2 :=
      AList.mem_lookup_iff.mpr (he ▸ List.mem_cons_self)
    exact nomatch (h session.1).symm.trans hmem

def Server.Entry.isLoss (id : SessionId) (s : Nat) : Server.Entry → Bool
  | .report t (.connection i .disconnected _) _ => t == s && i == id
  | _ => false

/-- Between `c` and `d` the `shutdown` of every registered session was called, each was
reported disconnected once, and none is left. -/
structure Server.RetiresAll (c d : Server) : Prop where
  empty : d.sessions = ∅
  attempted : ∀ id s, c.sessions.lookup id = some s →
    ∃ ec, .shutdown s ec ∈ d.history.drop c.history.length
  reported : ∀ id s, c.sessions.lookup id = some s →
    (d.history.drop c.history.length).countP (Server.Entry.isLoss id s) = 1

section Closing
variable {shutdown : Nat → ErrorCode} {inside : Nat → List Server.WriteCall} {c : Server}
  {iter : SessionMap.Entry} {l : List SessionMap.Entry}

theorem Server.writes_history (c : Server) (ws : List Server.WriteCall) :
    ∃ more, (c.writes ws).history = c.history ++ more ∧
      ∀ entry ∈ more, ∀ id s, entry.isLoss id s = false := by
  induction ws generalizing c with
  | nil => exact ⟨[], by simp [Server.writes], by simp⟩
  | cons w ws ih =>
    obtain ⟨more, hmore, hnone⟩ := ih (c.write w)
    have heq : c.writes (w :: ws) = (c.write w).writes ws := rfl
    rw [heq, hmore, Server.write_eq]
    refine ⟨.called w c.sessions (w.targets c.sessions) (w.result c.sessions) :: more,
      by simp, ?_⟩
    intro entry hentry id s
    rcases List.mem_cons.mp hentry with rfl | hentry
    · rfl
    · exact hnone entry hentry id s

variable (shutdown inside) in
theorem Server.Lists.turn_history (h : c.Lists (iter :: l)) :
    ∃ new, (c.turn shutdown inside iter).history = c.history ++ new ∧
      .shutdown iter.2 (shutdown iter.2) ∈ new ∧
      ∀ id s, new.countP (Server.Entry.isLoss id s) = if iter = ⟨id, s⟩ then 1 else 0 := by
  obtain ⟨more, hmore, hnone⟩ := Server.writes_history
    ((c.sessionClose iter.2 (shutdown iter.2)).leave iter.2 0) (inside iter.2)
  have hkey : (c.session iter.2).address = iter.1 :=
    h.keyed iter.1 iter.2 (h.listed iter List.mem_cons_self)
  refine ⟨[.shutdown iter.2 (shutdown iter.2),
    .report iter.2 (.connection iter.1 .disconnected 0) (c.sessions.erase iter.1)] ++ more,
    ?_, List.mem_append_left _ List.mem_cons_self, fun id s => ?_⟩
  · rw [Server.turn, hmore]
    simp only [Server.leave, Server.callBack, Server.record, Server.sessionClose,
      Server.sessionPtrToId, hkey, List.append_assoc, List.cons_append, List.nil_append]
  · have hrest : more.countP (Server.Entry.isLoss id s) = 0 :=
      List.countP_eq_zero.mpr fun entry hentry => by simp [hnone entry hentry id s]
    rw [List.countP_append, hrest]
    obtain ⟨i, t⟩ := iter
    by_cases heq : i = id ∧ t = s
    · simp [Server.Entry.isLoss, heq.1, heq.2]
    · have hne : (⟨i, t⟩ : SessionMap.Entry) ≠ ⟨id, s⟩ := by
        simpa using heq
      have hloss : ((t == s) && (i == id)) = false := by
        simpa [and_comm] using heq
      simp [Server.Entry.isLoss, hne, hloss]

variable (inside) in
theorem Server.Lists.closeLoop_retires (h : c.Lists l)
    (hok : ∀ iter ∈ l, shutdown iter.2 = 0) :
    ∃ new, (Server.closeLoop shutdown inside c l).history = c.history ++ new ∧
      (∀ iter ∈ l, .shutdown iter.2 (shutdown iter.2) ∈ new) ∧
      (∀ id s, new.countP (Server.Entry.isLoss id s) = l.count ⟨id, s⟩) ∧
      ∀ id, (Server.closeLoop shutdown inside c l).sessions.lookup id ≠ none →
        id ∉ l.map (·.1) ∧ c.sessions.lookup id ≠ none := by
  induction l generalizing c with
  | nil => exact ⟨[], by simp [Server.closeLoop], by simp, by simp, by simp [Server.closeLoop]⟩
  | cons iter l ih =>
    obtain ⟨first, hfirst, hshut, hloss⟩ := h.turn_history shutdown inside
    have hturn : (c.turn shutdown inside iter).Lists l := h.turn
    obtain ⟨rest, hrest, hshuts, hlosses, hleft⟩ := ih hturn fun other hother =>
      hok other (List.mem_cons_of_mem iter hother)
    rw [Server.closeLoop_cons, if_neg (not_not.mpr (hok iter List.mem_cons_self))]
    refine ⟨first ++ rest, by rw [hrest, hfirst, List.append_assoc], fun other hother => ?_,
      fun id s => ?_, fun id hid => ?_⟩
    · rcases List.mem_cons.mp hother with rfl | hother
      · exact List.mem_append_left rest hshut
      · exact List.mem_append_right first (hshuts other hother)
    · rw [List.countP_append, hloss, hlosses, List.count_cons]
      simp only [beq_iff_eq]
      omega
    · obtain ⟨hnot, hbefore⟩ := hleft id hid
      rw [h.turn_sessions] at hbefore
      have hne : id ≠ iter.1 := by
        rintro rfl
        simp at hbefore
      rw [AList.lookup_erase_ne hne] at hbefore
      exact ⟨by simpa [hne] using hnot, hbefore⟩

theorem Server.Lists.closeLoop_stops (h : c.Lists l) (hiter : iter ∈ l)
    (hfails : shutdown iter.2 ≠ 0) :
    (Server.closeLoop shutdown inside c l).sessions ≠ ∅ := by
  induction l generalizing c with
  | nil => exact absurd hiter List.not_mem_nil
  | cons first l ih =>
    rw [Server.closeLoop_cons]
    split
    · intro hempty
      have hfirst : c.sessions.lookup first.1 = some first.2 :=
        h.listed first List.mem_cons_self
      have hsessions : c.sessions = ∅ := hempty
      simp [hsessions] at hfirst
    · rename_i hok
      rcases List.mem_cons.mp hiter with rfl | hiter
      · exact absurd hfails hok
      · exact ih h.turn hiter

end Closing

/-- `close` retires every session exactly if the `shutdown` of none fails. -/
theorem Server.close_retires_all_iff (c : Server) (h : c.Asked)
    (order : List SessionMap.Entry) (shutdown : Nat → ErrorCode)
    (inside : Nat → List Server.WriteCall) :
    c.RetiresAll (c.close order shutdown inside) ↔
      ∀ s, c.Registered s → shutdown s = 0 := by
  obtain ⟨held, hi⟩ := h.integrity
  have hl := Server.lists_iteration hi.keyed order
  constructor
  · intro hretired s hs
    obtain ⟨id, hid⟩ := Server.registered_iff.mp hs
    by_contra hfails
    have hiter : ⟨id, s⟩ ∈ c.sessions.iteration order := SessionMap.mem_iteration.mpr hid
    exact hl.closeLoop_stops hiter hfails hretired.empty
  · intro hok
    obtain ⟨new, hnew, hshut, hloss, hleft⟩ := hl.closeLoop_retires inside
      fun iter hiter =>
        hok iter.2 (Server.registered_iff.mpr ⟨iter.1, SessionMap.mem_iteration.mp hiter⟩)
    have hdrop : (c.close order shutdown inside).history.drop c.history.length = new := by
      rw [Server.close, hnew, List.drop_left]
    refine ⟨?_, fun id s hid => ?_, fun id s hid => ?_⟩
    · refine SessionMap.eq_empty fun id => ?_
      by_contra hid
      obtain ⟨hnot, hbefore⟩ := hleft id hid
      obtain ⟨s, hs⟩ := Option.ne_none_iff_exists'.mp hbefore
      exact hnot (List.mem_map_of_mem (a := ⟨id, s⟩) (SessionMap.mem_iteration.mpr hs))
    · rw [hdrop]
      exact ⟨_, hshut ⟨id, s⟩ (SessionMap.mem_iteration.mpr hid)⟩
    · rw [hdrop, hloss]
      exact List.count_eq_one_of_mem (List.Nodup.of_map _ hl.nodup)
        (SessionMap.mem_iteration.mpr hid)

def twoSessions : List Server.Event := [.accept 0 4096 [], .accept 0 8192 []]

theorem Server.close_retires_all_twoSessions :
    ∃ c, Server.machine.run twoSessions = some c ∧ c.sessions.entries.length = 2 ∧
      c.RetiresAll (c.close [] (fun _ => 0) fun _ => []) :=
  ⟨_, rfl, rfl, (Server.close_retires_all_iff _ (.between _ ⟨twoSessions, rfl⟩) [] _ _).mpr
    fun _ _ => rfl⟩

/-- The peer of the session that comes first has reset the connection (`ENOTCONN`): both
sessions stay, and nobody hears of it. -/
theorem Server.close_stops_at_failed_shutdown :
    ∃ c, Server.machine.run twoSessions = some c ∧
      (c.close [⟨4096, 0⟩, ⟨8192, 1⟩] (fun s => if s = 0 then 107 else 0) fun _ => []).history =
        c.history ++ [.shutdown 0 107] ∧
      ¬ c.RetiresAll
        (c.close [⟨4096, 0⟩, ⟨8192, 1⟩] (fun s => if s = 0 then 107 else 0) fun _ => []) := by
  obtain ⟨c, hrun, hhistory, hleft⟩ : ∃ c, Server.machine.run twoSessions = some c ∧
      (c.close [⟨4096, 0⟩, ⟨8192, 1⟩] (fun s => if s = 0 then 107 else 0) fun _ => []).history =
        c.history ++ [.shutdown 0 107] ∧
      (c.close [⟨4096, 0⟩, ⟨8192, 1⟩] (fun s => if s = 0 then 107 else 0)
        fun _ => []).sessions.lookup 8192 = some 1 := ⟨_, rfl, rfl, rfl⟩
  refine ⟨c, hrun, hhistory, fun h => ?_⟩
  rw [h.empty] at hleft
  simp at hleft

end Sephi.Net.Tcp
