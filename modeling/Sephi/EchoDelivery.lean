import Sephi.EchoLinks

set_option autoImplicit false

namespace Sephi.Net.Tcp
open Transition Outbox Pipeline

variable {ι : Type} [DecidableEq ι]

theorem Client.Steady.given_eq {c : Client} (h : c.Steady) : c.given = c.delivered 1 := by
  unfold Client.given Client.delivered
  refine List.flatMap_congr fun r hr => ?_
  rw [if_pos (h.caused r hr)]

/-- The server and each client run as they would alone, and each connection relates its
two ends. -/
structure Echo.Sound (c : Echo ι) : Prop where
  server : Server.machine.Reachable c.server
  client : ∀ i, Client.machine.Reachable (c.peer i).client
  steady : ∀ i, (c.peer i).client.Steady
  linked : ∀ i, (c.peer i).Linked (c.server.line (c.peer i).session)
  registered : ∀ i s, (c.peer i).session = some s → c.server.Registered s
  distinct : ∀ i j s, (c.peer i).session = some s → (c.peer j).session = some s → i = j

theorem Client.pump_sound {c : Client} (h : Client.machine.Reachable c) : c.pump.Sound := by
  obtain ⟨es, hes⟩ := h
  exact Client.drives.sound hes

theorem Echo.Sound.setPeer {c : Echo ι} (h : c.Sound) {i : ι} {p : Peer}
    (hclient : Client.machine.Reachable p.client) (hsteady : p.client.Steady)
    (hsession : p.session = (c.peer i).session)
    (hlinked : p.Linked (c.server.line p.session)) : (c.setPeer i p).Sound := by
  have hself : (c.setPeer i p).peer i = p := Function.update_self _ _ _
  have hother : ∀ j, j ≠ i → (c.setPeer i p).peer j = c.peer j :=
    fun j hj => Function.update_of_ne hj _ _
  have hsessions : ∀ j, ((c.setPeer i p).peer j).session = (c.peer j).session := by
    intro j
    by_cases hj : j = i
    · rw [hj, hself, hsession]
    · rw [hother j hj]
  refine ⟨h.server, fun j => ?_, fun j => ?_, fun j => ?_, fun j s hs => ?_,
    fun j k s hj hk => ?_⟩
  · by_cases hj : j = i
    · rw [hj, hself]
      exact hclient
    · exact hother j hj ▸ h.client j
  · by_cases hj : j = i
    · rw [hj, hself]
      exact hsteady
    · exact hother j hj ▸ h.steady j
  · by_cases hj : j = i
    · rw [hj, hself]
      exact hlinked
    · rw [hother j hj]
      exact h.linked j
  · exact h.registered j s (hsessions j ▸ hs)
  · exact h.distinct j k s (hsessions j ▸ hj) (hsessions k ▸ hk)

theorem Echo.Sound.clientStep {c d : Echo ι} (h : c.Sound) {i : ι} {e : Client.Event}
    {f : Peer → Peer} (hs : c.clientStep i e f = some d) (he : e.Smooth)
    (hf : ∀ p, (f p).client = p.client ∧ (f p).session = p.session)
    (hlink : ∀ k, (c.peer i).client.Move e k →
      (f { c.peer i with client := k.settle }).Linked (c.server.line (c.peer i).session)) :
    d.Sound := by
  obtain ⟨k, hk, rfl⟩ := Option.map_eq_some_iff.mp hs
  obtain ⟨k, hm, rfl⟩ := Client.step_move hk
  obtain ⟨hclient, hsession⟩ := hf { c.peer i with client := k.settle }
  refine h.setPeer ?_ ?_ hsession ?_
  · rw [hclient]
    exact (h.client i).step hk
  · rw [hclient]
    exact (hm.steady (h.steady i) he).settle
  · rw [hsession]
    exact hlink k hm

theorem Echo.Sound.serverStep {c d : Echo ι} (h : c.Sound) {i : ι} {e : Server.Event}
    {f : Peer → Peer} (hs : c.serverStep i e f = some d) {s : Nat}
    (hclient : (f (c.peer i)).client = (c.peer i).client)
    (hsession : (f (c.peer i)).session = some s)
    (hother : ∀ j, (c.peer j).session = some s → j = i)
    (htouch : ∀ k, c.server.Move e k →
      ∃ x, c.server.Touches s x k ∧ k.Registered s ∧ (f (c.peer i)).Linked x) :
    d.Sound := by
  obtain ⟨k, hk, rfl⟩ := Option.map_eq_some_iff.mp hs
  obtain ⟨x, ht, hr, hlinked⟩ := htouch k (Server.step_move hk)
  have hself : (Echo.setPeer { c with server := k } i (f (c.peer i))).peer i = f (c.peer i) :=
    Function.update_self _ _ _
  have hrest : ∀ j, j ≠ i →
      (Echo.setPeer { c with server := k } i (f (c.peer i))).peer j = c.peer j :=
    fun j hj => Function.update_of_ne hj _ _
  refine ⟨h.server.step hk, fun j => ?_, fun j => ?_, fun j => ?_, fun j t hj => ?_,
    fun j l t hj hl => ?_⟩
  · by_cases hj : j = i
    · rw [hj, hself, hclient]
      exact h.client i
    · exact hrest j hj ▸ h.client j
  · by_cases hj : j = i
    · rw [hj, hself, hclient]
      exact h.steady i
    · exact hrest j hj ▸ h.steady j
  · by_cases hj : j = i
    · rw [hj, hself, hsession]
      exact ht.self.symm ▸ hlinked
    · rw [hrest j hj]
      have hne : (c.peer j).session ≠ some s := fun hjs => hj (hother j hjs)
      exact (ht.other _ hne).symm ▸ h.linked j
  · by_cases hji : j = i
    · rw [hji, hself, hsession] at hj
      exact Option.some.inj hj ▸ hr
    · rw [hrest j hji] at hj
      exact ht.registered t (h.registered j t hj)
  · by_cases hji : j = i
    · by_cases hli : l = i
      · exact hji.trans hli.symm
      · rw [hji, hself, hsession] at hj
        rw [hrest l hli, ← hj] at hl
        exact absurd (hother l hl) hli
    · by_cases hli : l = i
      · rw [hli, hself, hsession] at hl
        rw [hrest j hji, ← hl] at hj
        exact absurd (hother j hj) hji
      · rw [hrest j hji] at hj
        rw [hrest l hli] at hl
        exact h.distinct j l t hj hl

theorem Echo.Sound.sessionStep {c d : Echo ι} (h : c.Sound) {i : ι} {e : Nat → Server.Event}
    {f : Peer → Peer} (hs : c.sessionStep i e f = some d)
    (hf : ∀ p, (f p).client = p.client ∧ (f p).session = p.session)
    (htouch : ∀ s k, (c.peer i).session = some s → c.server.Move (e s) k →
      ∃ x, c.server.Touches s x k ∧ (f (c.peer i)).Linked x) : d.Sound := by
  cases hsession : (c.peer i).session with
  | none => simp [Echo.sessionStep, hsession] at hs
  | some s =>
    simp only [Echo.sessionStep, hsession] at hs
    refine h.serverStep hs (hf _).1 ((hf _).2.trans hsession)
      (fun j hj => h.distinct j i s hj hsession) fun k hm => ?_
    obtain ⟨x, ht, hlinked⟩ := htouch s k hsession hm
    exact ⟨x, ht, ht.registered s (h.registered i s hsession), hlinked⟩

theorem Echo.Sound.localStep {c d : Echo ι} (h : c.Sound) {i : ι} {e : Client.Event}
    (hs : c.clientStep i e id = some d) (he : e.Smooth) (hl : e.Local) : d.Sound := by
  refine h.clientStep hs he (fun _ => ⟨rfl, rfl⟩) fun k hm => ?_
  exact (hm.linked (h.linked i) (Client.pump_sound (h.client i)) he hl).keeps (.settle k)

theorem all_isWrite (l : List Chunk) :
    (l.map Client.Call.write).all Client.Call.isWrite = true := by
  simp [Client.Call.isWrite]

theorem Echo.Sound.step {c d : Echo ι} {e : Echo.Event ι} (h : c.Sound)
    (hs : c.step e = some d) : d.Sound := by
  have hpump : ∀ i, (c.peer i).client.pump.Sound := fun i => Client.pump_sound (h.client i)
  cases e with
  | write i chunk => exact h.localStep hs rfl trivial
  | task i => exact h.localStep hs trivial trivial
  | connected i inside => exact h.localStep hs ⟨rfl, all_isWrite inside⟩ trivial
  | readBack i packet => exact h.localStep hs trivial trivial
  | packet i size inside => exact h.localStep hs ⟨rfl, all_isWrite inside⟩ trivial
  | written i chunk =>
    simp only [Echo.step, Option.ite_none_right_eq_some] at hs
    obtain ⟨hput, hs⟩ := hs
    refine h.clientStep hs ⟨rfl, rfl⟩ (fun _ => ⟨rfl, rfl⟩) fun k hm => ?_
    exact (hm.linked_written (h.linked i) (hpump i) hput).keeps (.settle k)
  | arriveBack i n =>
    have hs : c.clientStep i (.arrive 1 ((c.peer i).down.take n))
      (fun p => { p with down := p.down.drop n }) = some d := hs
    refine h.clientStep hs trivial (fun _ => ⟨rfl, rfl⟩) fun k hm => ?_
    exact (hm.linked_arrive (h.linked i)).keeps (.settle k)
  | put i n =>
    simp only [Echo.step, Option.ite_none_right_eq_some, Option.some.injEq] at hs
    obtain ⟨hn, rfl⟩ := hs
    exact h.setPeer (h.client i) (h.steady i) rfl ((h.linked i).leave (hpump i) hn)
  | accept i address =>
    simp only [Echo.step, Option.ite_none_right_eq_some] at hs
    obtain ⟨hnone, hs⟩ := hs
    have hnew : ∀ j, (c.peer j).session = some c.server.made → j = i := by
      intro j hj
      have hlt := (Server.integrity_of_reachable h.server).made _
        (.inl (h.registered j _ hj))
      exact absurd hlt (Nat.lt_irrefl _)
    refine h.serverStep hs rfl rfl hnew fun k hm => ?_
    obtain ⟨ht, hr⟩ := Server.touches_accept h.server hm
    have hl := h.linked i
    rw [hnone] at hl
    exact ⟨_, ht, hr, hl.line rfl rfl hl.putBack rfl⟩
  | arrive i n =>
    refine h.sessionStep hs (fun _ => ⟨rfl, rfl⟩) fun s k hsession hm => ?_
    exact hm.linked_arrive (hsession ▸ h.linked i)
  | read i packet =>
    refine h.sessionStep hs (fun _ => ⟨rfl, rfl⟩) fun s k hsession hm => ?_
    exact hm.linked_perform (hsession ▸ h.linked i)
  | echo i size =>
    refine h.sessionStep hs (fun _ => ⟨rfl, rfl⟩) fun s k hsession hm => ?_
    exact hm.linked_echo (Server.integrity_of_reachable h.server)
      (h.registered i s hsession) (Server.line_pump_sound h.server _) (hsession ▸ h.linked i)
  | putBack i n =>
    cases hsession : (c.peer i).session with
    | none => simp [Echo.step, hsession] at hs
    | some s =>
      simp only [Echo.step, hsession, Option.ite_none_right_eq_some, Option.some.injEq] at hs
      obtain ⟨hn, rfl⟩ := hs
      have hl := h.linked i
      rw [hsession] at hl
      exact h.setPeer (h.client i) (h.steady i) hsession.symm
        (hl.leaveBack (Server.line_pump_sound h.server _) hn)
  | writtenBack i chunk =>
    simp only [Echo.step, Option.ite_none_right_eq_some] at hs
    obtain ⟨hput, hs⟩ := hs
    refine h.sessionStep hs (fun _ => ⟨rfl, rfl⟩) fun s k hsession hm => ?_
    exact hm.linked_written (Server.line_pump_sound h.server _) hput (hsession ▸ h.linked i)

omit [DecidableEq ι] in
theorem Echo.sound_start : (Echo.start : Echo ι).Sound where
  server := .start
  client := fun _ => .start
  steady := fun _ => Client.steady_start
  linked := fun _ => Peer.linked_start
  registered := fun _ _ hs => nomatch hs
  distinct := fun _ _ _ hs => nomatch hs

omit [DecidableEq ι] in
/-- The way of a client's bytes: through its queue, up to the server, to the packet
handler, through the session's queue, down to the client and to its packet handler. -/
theorem Echo.Sound.chain {c : Echo ι} (h : c.Sound) (i : ι) :
    Chain (c.peer i).client.accepted.flatten
      [sending (c.peer i).client.pump (c.peer i).put,
        ⟨transmitted (c.peer i).client.pump (c.peer i).put, (c.peer i).up,
          (c.server.line (c.peer i).session).session.arrived⟩,
        reading ((c.server.line (c.peer i).session).session.inbox
          (c.server.line (c.peer i).session).delivered) (),
        sending (c.server.line (c.peer i).session).pump (c.peer i).putBack,
        ⟨transmitted (c.server.line (c.peer i).session).pump (c.peer i).putBack,
          (c.peer i).down, (c.peer i).client.arrived 1⟩,
        reading (c.peer i).client.inbox 1]
      (c.peer i).client.given := by
  have hl := h.linked i
  have hinbox := Server.line_inbox_sound h.server (c.peer i).session
  have hpump := Server.line_pump_sound h.server (c.peer i).session
  rw [(h.steady i).given_eq]
  refine .cons (sending _ _) (sending_conserves (Client.pump_sound (h.client i)) _) ?_
  refine .cons ⟨_, _, _⟩ hl.up.symm ?_
  refine .cons (reading _ _) (reading_conserves hinbox ()) ?_
  have hsecond : Chain (sending (c.server.line (c.peer i).session).pump
      (c.peer i).putBack).inp _ _ :=
    .cons (sending _ _) (sending_conserves hpump _) (.cons ⟨_, _, _⟩ hl.down.symm
      (.cons (reading _ _) (reading_conserves (h.steady i).inbox 1) (.nil _)))
  have hechoed : (reading ((c.server.line (c.peer i).session).session.inbox
      (c.server.line (c.peer i).session).delivered) ()).out =
        (sending (c.server.line (c.peer i).session).pump (c.peer i).putBack).inp := hl.echoed
  rw [hechoed]
  exact hsecond

theorem Session.held_eq_nil {x : Session} {delivered : Chunk} (hu : x.unread = [])
    (ho : ∀ size, .received size ∉ x.ops) : (reading (x.inbox delivered) ()).held = [] := by
  refine reading_held ?_ hu
  intro r hr
  obtain ⟨op, hop, hread⟩ := List.mem_filterMap.mp hr
  cases op with
  | read =>
    cases hread
    rfl
  | received size => exact absurd hop (ho size)
  | write chunk => simp [Session.Op.reading?] at hread

theorem Client.held_eq_nil {c : Client} (hu : c.unread 1 = [])
    (ho : ∀ k size, .received k size ∉ c.ops) : (reading c.inbox 1).held = [] := by
  refine reading_held ?_ hu
  intro r hr
  obtain ⟨op, hop, hread⟩ := List.mem_filterMap.mp hr
  cases op with
  | read k =>
    cases hread
    rfl
  | received k size => exact absurd hop (ho k size)
  | connect k => simp [Client.Op.reading?] at hread
  | write k chunk => simp [Client.Op.reading?] at hread

omit [DecidableEq ι] in
theorem Echo.Quiet.held {c : Echo ι} {i : ι} (h : c.Quiet i) :
    (sending (c.peer i).client.pump (c.peer i).put).held = [] ∧
      (reading ((c.server.line (c.peer i).session).session.inbox
        (c.server.line (c.peer i).session).delivered) ()).held = [] ∧
      (sending (c.server.line (c.peer i).session).pump (c.peer i).putBack).held = [] := by
  obtain ⟨htasks, hqueue, _, _, _, _, hsession⟩ := h
  refine ⟨?_, ?_, ?_⟩
  · simp [sending, remaining, Client.pump, htasks, hqueue]
  · cases hs : (c.peer i).session with
    | none => exact Session.held_eq_nil rfl (by simp [Server.line, Session.make])
    | some s => exact Session.held_eq_nil (hsession s hs).2.1 (hsession s hs).2.2
  · cases hs : (c.peer i).session with
    | none => simp [sending, remaining, Server.Line.pump, Server.line, Session.pump, Session.make]
    | some s =>
      simp [sending, remaining, Server.Line.pump, Server.line, Session.pump,
        (hsession s hs).1]

/-- Each client is given back a prefix of what it wrote, and all of it once nothing is
under way. -/
theorem Echo.returns_what_was_accepted (ι : Type) [DecidableEq ι] (es : List (Echo.Event ι))
    (c : Echo ι) (hrun : (Echo.machine ι).run es = some c) (i : ι) :
    (c.peer i).client.given <+: (c.peer i).client.accepted.flatten ∧
      (c.Quiet i → (c.peer i).client.given = (c.peer i).client.accepted.flatten) := by
  have hsound : c.Sound := Machine.run_invariant (m := Echo.machine ι) (I := Echo.Sound)
    Echo.sound_start (fun _ _ _ h hs => h.step hs) hrun
  have hchain := hsound.chain i
  refine ⟨hchain.out_of_inp, fun hq => hchain.out_eq ?_⟩
  obtain ⟨hfirst, hsecond, hthird⟩ := hq.held
  obtain ⟨_, _, hup, hdown, hunread, hops, _⟩ := hq
  simp only [List.mem_cons, List.not_mem_nil, or_false, forall_eq_or_imp, forall_eq]
  exact ⟨hfirst, hup, hsecond, hthird, hdown, Client.held_eq_nil hunread hops⟩

/-- Two clients. The chunk of the first goes up in two pieces and comes back in two; a
second chunk, written in its packet handler, is empty. -/
def chunkInTwoPieces : List (Echo.Event Bool) :=
  [.connected true [[1, 2, 3]], .accept false 4096, .accept true 8192, .task true,
    .put true 2, .arrive true 1, .read true (.byte 1), .echo true 1,
    .put true 1, .written true [1, 2, 3], .arrive true 2,
    .read true (.cons 2 [3] (by decide)), .putBack true 1, .writtenBack true [1],
    .echo true 2, .arriveBack true 1, .readBack true (.byte 1),
    .packet true 1 [[]], .putBack true 2, .task true, .writtenBack true [2, 3],
    .arriveBack true 2, .readBack true (.cons 2 [3] (by decide)), .packet true 2 [],
    .written true []]

theorem Echo.returns_what_was_accepted_chunkInTwoPieces :
    ∃ c, (Echo.machine Bool).run chunkInTwoPieces = some c ∧ c.Quiet true ∧
      (c.peer true).client.accepted = [[1, 2, 3], []] ∧
      (c.peer true).client.given = [1, 2, 3] := by
  obtain ⟨c, hrun, ha, ht, hm, hup, hdown, hu, hops, hs, hsm, hsu, hsops⟩ : ∃ c,
      (Echo.machine Bool).run chunkInTwoPieces = some c ∧
      (c.peer true).client.accepted = [[1, 2, 3], []] ∧ (c.peer true).client.tasks = [] ∧
      (c.peer true).client.sendingMessages = [] ∧ (c.peer true).up = [] ∧
      (c.peer true).down = [] ∧ (c.peer true).client.unread 1 = [] ∧
      (c.peer true).client.ops = [.read 1] ∧ (c.peer true).session = some 1 ∧
      (c.server.session 1).sendingMessages = [] ∧ (c.server.session 1).unread = [] ∧
      (c.server.session 1).ops = [.read] :=
    ⟨_, rfl, rfl, rfl, rfl, rfl, rfl, rfl, rfl, rfl, rfl, rfl, rfl⟩
  have hq : c.Quiet true := by
    refine ⟨ht, hm, hup, hdown, hu, fun k size => by simp [hops], fun s hs1 => ?_⟩
    obtain rfl : 1 = s := Option.some.inj (hs.symm.trans hs1)
    exact ⟨hsm, hsu, fun size => by simp [hsops]⟩
  have hall := (Echo.returns_what_was_accepted Bool chunkInTwoPieces c hrun true).2 hq
  rw [ha] at hall
  exact ⟨c, hrun, hq, ha, hall⟩

end Sephi.Net.Tcp
