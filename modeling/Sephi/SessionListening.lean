import Sephi.SessionReading

set_option autoImplicit false

namespace Sephi.Net.Tcp
open Transition Inbox

/-- Session `s` has been reported disconnected with an error. `close` reports none. -/
def Server.Lost (c : Server) (s : Nat) : Prop :=
  ∃ id ec registered, ec ≠ 0 ∧
    .report s (.connection id .disconnected ec) registered ∈ c.history

/-- One accept is outstanding, and a read of each session that is not lost, but for those
whose handler is running. -/
structure Server.Listening (idle : List Nat) (accepting : Nat) (c : Server) : Prop where
  accepting : c.accepting = accepting
  reads : ∀ s < c.made, s ∉ idle → (c.inbox s).reads ≠ [] ∨ c.Lost s

theorem Server.Lost.mono {c d : Server} {s : Nat} (h : c.Lost s)
    (hd : c.history <+: d.history) : d.Lost s := by
  obtain ⟨id, ec, registered, hec, hmem⟩ := h
  exact ⟨id, ec, registered, hec, hd.subset hmem⟩

theorem Server.Listening.frame {idle : List Nat} {n : Nat} {c d : Server}
    (h : c.Listening idle n) (ha : d.accepting = c.accepting) (hm : d.made = c.made)
    (hr : ∀ s, d.inbox s = c.inbox s) (hd : c.history <+: d.history) : d.Listening idle n := by
  refine ⟨ha.trans h.accepting, fun s hs hi => ?_⟩
  rw [hr s]
  rcases h.reads s (hm ▸ hs) hi with hread | hlost
  · exact .inl hread
  · exact .inr (hlost.mono hd)

theorem Server.Listening.calling {idle : List Nat} {n : Nat} {c d : Server}
    (h : c.Listening idle n) (hs : c.Calling d) : d.Listening idle n := by
  have hinbox := hs.inbox
  cases hs with
  | write w =>
    rw [Server.write_eq] at hinbox ⊢
    exact h.frame rfl rfl hinbox (List.prefix_append _ _)
  | shutdown s ec => exact h.frame rfl rfl hinbox (List.prefix_append _ _)
  | leave s hreg => exact h.frame rfl rfl hinbox (List.prefix_append _ _)

theorem Server.Listening.calls {idle held : List Nat} {n : Nat} {c : Server}
    (h : c.Listening idle n) (hi : c.Integrity held) (inside : List Server.Call) :
    (c.calls inside).Listening idle n :=
  (hi.calls_induction h (fun _ _ _ hp hs => hp.calling hs) inside).1

theorem Server.Listening.modify {idle : List Nat} {n : Nat} {c : Server}
    (h : c.Listening idle n) (s : Nat) {f : Session → Session}
    (hf : (c.inbox s).reads ≠ [] → ((f (c.session s)).inbox (c.delivered s)).reads ≠ []) :
    (c.modify s f).Listening idle n := by
  refine ⟨h.accepting, fun t ht hi => ?_⟩
  rcases h.reads t ht hi with hread | hlost
  · left
    by_cases hts : t = s
    · subst hts
      rw [Server.modify_inbox_self]
      exact hf hread
    · rw [c.modify_inbox_of_ne hts]
      exact hread
  · exact .inr (hlost.mono (List.prefix_refl _))

theorem Server.Listening.doRead {n : Nat} {c : Server} {s : Nat} (h : c.Listening [s] n) :
    (c.modify s Session.doRead).Listening [] n := by
  refine ⟨h.accepting, fun t ht _ => ?_⟩
  by_cases hts : t = s
  · subst hts
    left
    rw [Server.modify_inbox_self]
    simp [Session.doRead, Session.inbox, Session.Op.reading?]
  · rcases h.reads t ht (by simpa using hts) with hread | hlost
    · rw [c.modify_inbox_of_ne hts]
      exact .inl hread
    · exact .inr (hlost.mono (List.prefix_refl _))

theorem Server.Listening.begin {n : Nat} {c : Server} (h : c.Listening [] n) (s : Nat)
    (f : Session → Session) : (c.modify s f).Listening [s] n := by
  refine ⟨h.accepting, fun t ht hi => ?_⟩
  have hts : t ≠ s := by simpa using hi
  rw [c.modify_inbox_of_ne hts]
  rcases h.reads t ht List.not_mem_nil with hread | hlost
  · exact .inl hread
  · exact .inr (hlost.mono (List.prefix_refl _))

theorem Server.Listening.callBack {idle : List Nat} {n : Nat} {c : Server}
    (h : c.Listening idle n) (s : Nat) (callback : Server.Callback) :
    (c.callBack s callback).Listening idle n := by
  refine ⟨h.accepting, fun t ht hi => ?_⟩
  rcases h.reads t ht hi with hread | hlost
  · exact .inl hread
  · exact .inr (hlost.mono (List.prefix_append _ _))

theorem Server.Listening.leave {n : Nat} {c : Server} {s : Nat} (h : c.Listening [s] n)
    {ec : ErrorCode} (hec : ec ≠ 0) : (c.leave s ec).Listening [] n := by
  have hhistory : c.history <+: (c.leave s ec).history := List.prefix_append _ _
  refine ⟨h.accepting, fun t ht _ => ?_⟩
  by_cases hts : t = s
  · subst hts
    refine .inr ⟨c.sessionPtrToId t, ec, c.sessions.erase (c.sessionPtrToId t), hec, ?_⟩
    exact List.mem_append_right _ (List.mem_singleton.mpr rfl)
  · rw [c.leave_inbox s ec t]
    rcases h.reads t ht (by simpa using hts) with hread | hlost
    · exact .inl hread
    · exact .inr (hlost.mono hhistory)

theorem Server.Listening.announce {n : Nat} {c : Server} (h : c.Listening [] n)
    (address : SessionId) : (c.announce address).Listening [c.made] n := by
  refine ⟨h.accepting, fun t ht hi => ?_⟩
  have htm : t ≠ c.made := by simpa using hi
  have ht : t < c.made + 1 := ht
  rw [Server.inbox, c.announce_session_of_ne address htm, c.announce_delivered]
  rcases h.reads t (by omega) List.not_mem_nil with hread | hlost
  · exact .inl hread
  · exact .inr (hlost.mono (List.prefix_append _ _))

theorem Server.Listening.accept {c : Server} (h : c.Listening [] 0) (hi : c.Integrity [])
    {address : SessionId} (hfree : c.Free address) (inside : List Server.Call) :
    (c.handleAccept 0 address inside).Listening [] 1 := by
  rw [Server.handleAccept_eq]
  have hmade := hi.announce hfree
  have hcalled := (h.announce address).calls hmade inside
  have hemplaced : (((c.announce address).calls inside).emplace c.made).Listening [c.made] 0 := by
    rw [Server.emplace_eq ((hmade.calls inside).lookup_none Server.live_held
      (hi.announced hfree inside))]
    exact hcalled.frame rfl rfl (fun t => Server.record_inbox _ (fun _ => rfl) t)
      (List.prefix_append _ _)
  have hstarted := hemplaced.doRead
  exact ⟨congrArg (· + 1) hstarted.accepting, hstarted.reads⟩

theorem Session.perform_reads (x : Session) (packet : Packet) (l : Chunk) :
    ((x.perform packet).inbox l).reads ≠ [] := by
  simp [Session.perform, Session.inbox, Session.Op.reading?]

theorem Server.Move.listening {c d : Server} {e : Server.Event} (h : c.Move e d)
    (hi : c.Integrity []) (hc : c.Listening [] 1) : d.Listening [] 1 := by
  have haccepted : Server.Listening [] 0 { c with accepting := c.accepting - 1 } :=
    ⟨congrArg (· - 1) hc.accepting, hc.reads⟩
  cases h with
  | call x => exact hc.calls hi [x]
  | refused ec address inside =>
    exact ⟨congrArg (· + 1) haccepted.accepting, haccepted.reads⟩
  | accepted address inside hfree => exact haccepted.accept (hi.accepting _) hfree inside
  | arrive s bytes => exact hc.modify s id
  | perform s packet => exact hc.modify s fun _ => Session.perform_reads _ packet _
  | failed s op ec inside hop hec =>
    have hbegun := hi.begin hop
    have hleft := (hc.begin s (·.begin op)).leave hec
    exact hleft.calls (hbegun.leave s ec) inside
  | packet s size inside hop =>
    rw [Server.handleRead_begin]
    have hbegun := hi.begin hop
    have hgiven := (hc.begin s (·.begin (.received size))).callBack s
      (.packet (c.sessionPtrToId s) ((c.session s).receivedPacket.view size))
    exact (hgiven.calls (hbegun.callBack s _) inside).doRead
  | written s chunk inside hop =>
    rw [Server.modify_modify]
    refine hc.modify s fun hread => ?_
    rw [Session.written_inbox, Session.begin_inbox hop rfl]
    exact hread

theorem Server.listening_of_reachable {c : Server} (h : Server.machine.Reachable c) :
    c.Listening [] 1 := by
  have hstart : Server.machine.start.Listening [] 1 :=
    ⟨rfl, fun s hs => absurd hs (Nat.not_lt_zero s)⟩
  obtain ⟨es, hes⟩ := h
  refine Machine.run_induction (motive := fun _ c => c.Listening [] 1) hstart ?_ hes
  intro es c e d hrun hc hs
  exact (Server.step_move hs).listening (Server.integrity_of_reachable ⟨es, hrun⟩) hc

/-- Whatever happens to its sessions and inside of the application's handlers, a server has
one accept outstanding. Each session has one read outstanding or was reported lost with an
error, and the packet handler, `received_packet_` and the socket together have all that has
arrived for it, in order. -/
theorem Server.accepts_and_reads_on (c : Server) (h : Server.machine.Reachable c) :
    c.accepting = 1 ∧ ∀ s < c.made, (c.inbox s).Sound ∧
      ((c.inbox s).reads.length = 1 ∨ c.Lost s) := by
  have hlistening := Server.listening_of_reachable h
  have hreading := Server.reading_of_reachable h
  refine ⟨hlistening.accepting, fun s hs => ⟨hreading.sound s, ?_⟩⟩
  rcases hlistening.reads s hs List.not_mem_nil with hread | hlost
  · have hpos := List.length_pos_iff.mpr hread
    exact .inl (Nat.le_antisymm (hreading.sound s).single hpos)
  · exact .inr hlost

/-- The first of two sessions is reset after it was read; the server closes the other, and
refuses a connection. -/
def oneResetOneClosed : List Server.Event :=
  [.accept 0 10 [], .accept 0 20 [], .arrive 0 [7, 8], .perform 0 (.byte 7),
    .complete 0 (.received 1) 0 [], .complete 0 .read 104 [],
    .call (.close [] (fun _ => 0) fun _ => []), .accept 24 0 []]

theorem Server.accepts_and_reads_on_oneResetOneClosed :
    ∃ c, Server.machine.run oneResetOneClosed = some c ∧ c.delivered 0 = [7] ∧
      (c.inbox 0).reads = [] ∧ (c.inbox 1).reads = [((), none)] ∧ c.accepting = 1 ∧
      (c.inbox 1).Sound := by
  have hrun : Server.machine.run oneResetOneClosed = some _ := rfl
  obtain ⟨haccepting, hreads⟩ := Server.accepts_and_reads_on _ ⟨oneResetOneClosed, hrun⟩
  exact ⟨_, hrun, rfl, rfl, rfl, haccepting, (hreads 1 (by decide)).1⟩

end Sephi.Net.Tcp
