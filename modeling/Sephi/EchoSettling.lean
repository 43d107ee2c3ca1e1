import Sephi.EchoWork

set_option autoImplicit false

namespace Sephi.Net.Tcp
open Transition Outbox Pipeline

variable {ι : Type} [DecidableEq ι]

def Echo.onwardFor (i : ι) (c : Echo ι) (e : Echo.Event ι) : Bool :=
  e.peer = i && e.onward (c.peer i)

theorem Echo.Going.work_le {c d : Echo ι} {e : Echo.Event ι} (h : c.Going)
    (hs : c.step e = some d) {i : ι} (he : e.peer = i → e.Silent) :
    (c.onwardFor i e).toNat + (d.peer i).work (d.line i) ≤ (c.peer i).work (c.line i) := by
  obtain ⟨p, x, hturn, hturned⟩ := h.sound.turn hs
  have hd := (h.sound.step hs).peer e.peer
  by_cases hi : e.peer = i
  · subst hi
    rw [hturned.peer, hturned.line] at hd ⊢
    rw [Echo.onwardFor, decide_eq_true rfl, Bool.true_and]
    exact hturn.work_le (h.sound.peer _) hd (he rfl)
  · obtain ⟨hpeer, hline⟩ := hturned.other i (Ne.symm hi)
    rw [Echo.onwardFor, hpeer, hline, decide_eq_false hi]
    exact Nat.le_of_eq (Nat.zero_add _)

/-- Nothing more can be done for client `i` unless its application writes. -/
def Echo.Rest (c : Echo ι) (i : ι) : Prop :=
  ∀ e : Echo.Event ι, e.peer = i → e.Silent → e.onward (c.peer i) = true → c.step e = none

theorem Echo.act_eq_none {c : Echo ι} {i : ι} {e : Client.Event} {f : Peer → Peer}
    (h : c.clientStep i e f = none) : (c.peer i).client.act e = none :=
  Option.map_eq_none_iff.mp (Option.map_eq_none_iff.mp h)

theorem Echo.serverStep_eq_none {c : Echo ι} {i : ι} {e : Nat → Server.Event}
    {f : Peer → Peer} {s : Nat} (hs : (c.peer i).session = some s)
    (h : c.sessionStep i e f = none) : c.server.step (e s) = none := by
  simp only [Echo.sessionStep, hs] at h
  exact Option.map_eq_none_iff.mp h

theorem Echo.Rest.tasks {c : Echo ι} {i : ι} (hr : c.Rest i) (h : c.Going) :
    (c.peer i).client.tasks = [] := by
  have hact := Echo.act_eq_none (hr (.task i) rfl trivial rfl)
  have hrunning := (h.lively i).client.running
  cases ht : (c.peer i).client.tasks with
  | nil => rfl
  | cons t rest => simp [Client.act, ht, hrunning] at hact

theorem Echo.Rest.reading {c : Echo ι} {i : ι} (hr : c.Rest i) (h : c.Going) :
    (∀ k size, .received k size ∉ (c.peer i).client.ops) ∧
      .read 1 ∈ (c.peer i).client.ops := by
  have hrunning := (h.lively i).client.running
  have hsteady := h.sound.steady i
  have hreceived : ∀ k size, .received k size ∉ (c.peer i).client.ops := by
    intro k size hop
    obtain rfl : k = 1 := hsteady.sockets _ hop
    have hact := Echo.act_eq_none (hr (.packet i size []) rfl rfl rfl)
    simp [Client.act, hrunning, hop, Client.Op.Yields] at hact
  obtain ⟨op, hop, hl⟩ := (h.lively i).client.listens
  refine ⟨hreceived, ?_⟩
  cases op with
  | read k =>
    obtain rfl : k = 1 := hsteady.sockets _ hop
    exact hop
  | received k size => exact absurd hop (hreceived k size)
  | write k chunk => exact absurd hl Bool.false_ne_true
  | connect k =>
    obtain rfl : k = 1 := hsteady.sockets _ hop
    have hact := Echo.act_eq_none (hr (.connected i []) rfl rfl rfl)
    simp [Client.act, hrunning, hop, Client.Op.Yields] at hact

theorem Echo.Rest.readingBack {c : Echo ι} {i : ι} (hr : c.Rest i) (h : c.Going) {s : Nat}
    (hs : (c.peer i).session = some s) :
    (∀ size, .received size ∉ (c.server.session s).ops) ∧
      .read ∈ (c.server.session s).ops := by
  have hreceived : ∀ size, .received size ∉ (c.server.session s).ops := by
    intro size hop
    have hstep := Echo.serverStep_eq_none hs (hr (.echo i size) rfl trivial rfl)
    simp [Server.step, hop, Session.Op.Yields] at hstep
  refine ⟨hreceived, ?_⟩
  have hreads := (h.lively i).reads (hs ▸ Option.some_ne_none s)
  rw [Echo.line_session hs] at hreads
  obtain ⟨r, hmem⟩ := List.exists_mem_of_ne_nil _ hreads
  obtain ⟨op, hop, hread⟩ := List.mem_filterMap.mp hmem
  cases op with
  | read => exact hop
  | received size => exact absurd hop (hreceived size)
  | write chunk => exact absurd hread.symm (Option.some_ne_none r)

theorem Echo.Rest.sent {c : Echo ι} {i : ι} (hr : c.Rest i) (h : c.Going) :
    (c.peer i).client.sendingMessages = [] := by
  have hrunning := (h.lively i).client.running
  by_contra hqueue
  obtain ⟨chunk, ho⟩ := (h.sound.peer i).pump.sends (h.lively i).client.flows hqueue
  have hops : (c.peer i).client.ops.filterMap Client.Op.chunk? = [chunk] := ho
  have hwriting : (c.peer i).client.writing = chunk := by
    rw [Client.writing, hops, List.flatten_singleton]
  have hwithin : (c.peer i).put ≤ (c.peer i).client.writing.length := (h.sound.linked i).put
  rw [hwriting] at hwithin
  rcases Nat.lt_or_eq_of_le hwithin with hlt | heq
  · have hput := hr (.put i 1) rfl trivial rfl
    simp only [Echo.step, hwriting] at hput
    rw [if_pos (Nat.succ_le_of_lt hlt)] at hput
    exact Option.some_ne_none _ hput
  · have hwritten := hr (.written i chunk) rfl trivial rfl
    simp only [Echo.step] at hwritten
    rw [if_pos heq] at hwritten
    have hact := Echo.act_eq_none hwritten
    obtain ⟨k, hop⟩ := Client.mem_outstanding.mp (ho ▸ List.mem_singleton.mpr rfl)
    obtain rfl : k = 1 := (h.sound.steady i).sockets _ hop
    simp [Client.act, hrunning, hop, Client.Op.Yields] at hact

theorem Echo.Rest.sentBack {c : Echo ι} {i : ι} (hr : c.Rest i) (h : c.Going) {s : Nat}
    (hs : (c.peer i).session = some s) : (c.server.session s).sendingMessages = [] := by
  have hsending := Server.sending_of_reachable h.sound.server
  by_contra hqueue
  obtain ⟨chunk, ho⟩ := (hsending.sound s).sends
    (hsending.flows s (.inl (h.sound.registered i s hs))) hqueue
  have hops : (c.server.session s).ops.filterMap Session.Op.chunk? = [chunk] := ho
  have hwriting : (c.server.session s).writing = chunk := by
    rw [Session.writing, hops, List.flatten_singleton]
  have hwithin : (c.peer i).putBack ≤ (c.line i).session.writing.length :=
    (h.sound.linked i).putBack
  rw [Echo.line_session hs, hwriting] at hwithin
  rcases Nat.lt_or_eq_of_le hwithin with hlt | heq
  · have hput := hr (.putBack i 1) rfl trivial rfl
    simp only [Echo.step, hs, hwriting] at hput
    rw [if_pos (Nat.succ_le_of_lt hlt)] at hput
    exact Option.some_ne_none _ hput
  · have hwritten := hr (.writtenBack i chunk) rfl trivial rfl
    simp only [Echo.step] at hwritten
    rw [if_pos heq] at hwritten
    have hstep := Echo.serverStep_eq_none hs hwritten
    have hmem : chunk ∈ (c.server.session s).ops.filterMap Session.Op.chunk? :=
      hops ▸ List.mem_singleton.mpr rfl
    obtain ⟨op, hop, hchunk⟩ := List.mem_filterMap.mp hmem
    cases op with
    | write chunk' =>
      obtain rfl : chunk' = chunk := Option.some.inj hchunk
      simp [Server.step, hop, Session.Op.Yields] at hstep
    | read | received size => exact absurd hchunk.symm (Option.some_ne_none chunk)

theorem Echo.Rest.quiet {c : Echo ι} {i : ι} (hr : c.Rest i) (h : c.Going) {s : Nat}
    (hs : (c.peer i).session = some s) : c.Quiet i := by
  have hrunning := (h.lively i).client.running
  obtain ⟨hreceived, hread⟩ := hr.reading h
  obtain ⟨hreceivedBack, hreadBack⟩ := hr.readingBack h hs
  have hmade : s < c.server.made :=
    (Server.integrity_of_reachable h.sound.server).made s (.inl (h.sound.registered i s hs))
  refine ⟨hr.tasks h, hr.sent h, ?_, ?_, ?_, hreceived, fun t ht => ?_⟩
  · cases hup : (c.peer i).up with
    | nil => rfl
    | cons b rest =>
      have harrive := hr (.arrive i 1) rfl trivial (by rw [Echo.Event.onward, hup]; rfl)
      have hstep := Echo.serverStep_eq_none hs harrive
      simp [Server.step, hmade] at hstep
  · cases hdown : (c.peer i).down with
    | nil => rfl
    | cons b rest =>
      have harrive := hr (.arriveBack i 1) rfl trivial (by rw [Echo.Event.onward, hdown]; rfl)
      have hact := Echo.act_eq_none (e := .arrive 1 ((c.peer i).down.take 1))
        (f := fun p => { p with down := p.down.drop 1 }) harrive
      exact absurd hact (Option.some_ne_none _)
  · cases hunread : (c.peer i).client.unread 1 with
    | nil => rfl
    | cons b rest =>
      have hact := Echo.act_eq_none (hr (.readBack i (.byte b)) rfl trivial rfl)
      simp [Client.act, hrunning, hread, hunread, (h.sound.steady i).socket, Packet.byte,
        Packet.cons] at hact
  · obtain rfl : s = t := Option.some.inj (hs.symm.trans ht)
    refine ⟨hr.sentBack h hs, ?_, hreceivedBack⟩
    cases hunread : (c.server.session s).unread with
    | nil => rfl
    | cons b rest =>
      have hstep := Echo.serverStep_eq_none hs (hr (.read i (.byte b)) rfl trivial rfl)
      simp [Server.step, hreadBack, hunread, Packet.byte, Packet.cons] at hstep

theorem Echo.Quiet.rest {c : Echo ι} {i : ι} (hq : c.Quiet i) (h : c.Going)
    (hc : .connect 1 ∉ (c.peer i).client.ops) {s : Nat} (hs : (c.peer i).session = some s) :
    c.Rest i := by
  obtain ⟨htasks, hqueue, hup, hdown, hunread, hreceived, hback⟩ := hq
  obtain ⟨hqueueBack, hunreadBack, hreceivedBack⟩ := hback s hs
  have hidle {p : Pump Chunk} (hp : p.Sound) (hq : p.queue = []) : p.outstanding = [] := by
    rcases hp.front with hn | ⟨a, rest, _, ha⟩
    · exact hn
    · exact absurd (hq.symm.trans ha) (List.cons_ne_nil a rest).symm
  have hops : (c.peer i).client.ops.filterMap Client.Op.chunk? = [] :=
    hidle (h.sound.peer i).pump hqueue
  have hopsBack : (c.server.session s).ops.filterMap Session.Op.chunk? = [] :=
    hidle ((Server.sending_of_reachable h.sound.server).sound s) hqueueBack
  have hclient {e : Client.Event} {f : Peer → Peer} (hact : (c.peer i).client.act e = none) :
      c.clientStep i e f = none := by
    simp [Echo.clientStep, Client.step, hact]
  have hsession {e : Nat → Server.Event} {f : Peer → Peer}
      (hstep : c.server.step (e s) = none) : c.sessionStep i e f = none := by
    simp [Echo.sessionStep, hs, Echo.serverStep, hstep]
  intro e he hsilent honward
  cases e with
  | write j chunk => exact hsilent.elim
  | task j =>
    obtain rfl : j = i := he
    exact hclient (by simp [Client.act, htasks])
  | connected j inside =>
    obtain rfl : j = i := he
    exact hclient (if_neg fun hact => hc hact.2.1)
  | packet j size inside =>
    obtain rfl : j = i := he
    exact hclient (if_neg fun hact => hreceived 1 size hact.2.1)
  | readBack j packet =>
    obtain rfl : j = i := he
    refine hclient (if_neg fun hact => ?_)
    obtain ⟨_, _, _, hp⟩ := hact
    rw [hunread] at hp
    exact packet.nonempty (List.prefix_nil.mp hp)
  | put j n =>
    obtain rfl : j = i := he
    have hpos : 0 < n := of_decide_eq_true honward
    refine if_neg fun hle => ?_
    rw [Client.writing, hops, List.flatten_nil, List.length_nil] at hle
    omega
  | written j chunk =>
    obtain rfl : j = i := he
    simp only [Echo.step]
    split
    · refine hclient (if_neg fun hact => ?_)
      have hmem : chunk ∈ (c.peer j).client.ops.filterMap Client.Op.chunk? :=
        List.mem_filterMap.mpr ⟨_, hact.2.1, rfl⟩
      rw [hops] at hmem
      exact absurd hmem List.not_mem_nil
    · rfl
  | accept j address =>
    obtain rfl : j = i := he
    exact if_neg fun hnone => Option.some_ne_none s (hs.symm.trans hnone)
  | arrive j n =>
    obtain rfl : j = i := he
    rw [Echo.Event.onward, hup, List.take_nil] at honward
    exact absurd honward Bool.false_ne_true
  | arriveBack j n =>
    obtain rfl : j = i := he
    rw [Echo.Event.onward, hdown, List.take_nil] at honward
    exact absurd honward Bool.false_ne_true
  | read j packet =>
    obtain rfl : j = i := he
    refine hsession (if_neg fun hstep => ?_)
    rw [hunreadBack] at hstep
    exact packet.nonempty (List.prefix_nil.mp hstep.2)
  | echo j size =>
    obtain rfl : j = i := he
    exact hsession (if_neg fun hstep => hreceivedBack size hstep.1)
  | putBack j n =>
    obtain rfl : j = i := he
    have hpos : 0 < n := of_decide_eq_true honward
    simp only [Echo.step, hs]
    refine if_neg fun hle => ?_
    rw [Session.writing, hopsBack, List.flatten_nil, List.length_nil] at hle
    omega
  | writtenBack j chunk =>
    obtain rfl : j = i := he
    simp only [Echo.step]
    split
    · refine hsession (if_neg fun hstep => ?_)
      have hmem : chunk ∈ (c.server.session s).ops.filterMap Session.Op.chunk? :=
        List.mem_filterMap.mpr ⟨_, hstep.1, rfl⟩
      rw [hopsBack] at hmem
      exact absurd hmem List.not_mem_nil
    · rfl

/-- However the other clients go on: when the application of a client writes nothing more,
what remains to be done for it takes a bounded number of steps, and when none of these is
left, the client has been given back all that it wrote. -/
theorem Echo.all_comes_back (ι : Type) [DecidableEq ι] (es fs : List (Echo.Event ι))
    (c d : Echo ι) (hrun : (Echo.machine ι).run es = some c) (i : ι)
    (hsilent : ∀ e ∈ fs, e.peer = i → e.Silent)
    (hexec : (Echo.machine ι).exec c fs = some d) :
    (Echo.machine ι).count (Echo.onwardFor i) c fs + (d.peer i).work (d.line i) ≤
        (c.peer i).work (c.line i) ∧
      (d.Rest i → (d.peer i).session ≠ none →
        (d.peer i).client.given = (d.peer i).client.accepted.flatten) := by
  refine ⟨Machine.count_le (I := Echo.Going) (P := fun e => e.peer = i → e.Silent)
    (μ := fun c => (c.peer i).work (c.line i))
    (fun _ _ _ h hs => h.step hs) (fun s e t hs he hstep => hs.work_le hstep he)
    (Echo.going_of_run hrun) hsilent hexec, fun hrest hsession => ?_⟩
  have hall : (Echo.machine ι).run (es ++ fs) = some d := by
    rw [Machine.run_append, hrun]
    exact hexec
  have hd := Echo.going_of_run hall
  obtain ⟨s, hs⟩ := Option.ne_none_iff_exists'.mp hsession
  have hquiet := hrest.quiet hd hs
  obtain ⟨hfirst, hsecond, hthird⟩ := hquiet.held
  obtain ⟨_, _, hup, hdown, hunread, hops, _⟩ := hquiet
  refine (hd.sound.chain i).out_eq ?_
  simp only [List.mem_cons, List.not_mem_nil, or_false, forall_eq_or_imp, forall_eq]
  exact ⟨hfirst, hup, hsecond, hthird, hdown, Client.held_eq_nil hunread hops⟩

/-- One client has written a chunk when it is left alone with the other, which writes. -/
def wroteOnce : List (Echo.Event Bool) :=
  [.accept false 4096, .accept true 8192, .connected true [[1, 2]]]

def wayBack : List (Echo.Event Bool) :=
  [.task true, .put true 2, .connected false [[7]], .written true [1, 2], .arrive true 2,
    .read true (.cons 1 [2] (by decide)), .echo true 2, .putBack true 2, .task false,
    .writtenBack true [1, 2], .arriveBack true 2, .readBack true (.cons 1 [2] (by decide)),
    .packet true 2 []]

theorem Echo.all_comes_back_wayBack :
    ∃ c d, (Echo.machine Bool).run wroteOnce = some c ∧
      (Echo.machine Bool).exec c wayBack = some d ∧
      11 + (d.peer true).work (d.line true) ≤ (c.peer true).work (c.line true) ∧
      (d.peer true).client.accepted = [[1, 2]] ∧
      (d.peer true).client.given = (d.peer true).client.accepted.flatten := by
  obtain ⟨c, d, hrun, hexec, hcount, ha, ht, hm, hup, hdown, hu, hops, hs, hsm, hsu, hsops⟩ :
      ∃ c d, (Echo.machine Bool).run wroteOnce = some c ∧
      (Echo.machine Bool).exec c wayBack = some d ∧
      (Echo.machine Bool).count (Echo.onwardFor true) c wayBack = 11 ∧
      (d.peer true).client.accepted = [[1, 2]] ∧ (d.peer true).client.tasks = [] ∧
      (d.peer true).client.sendingMessages = [] ∧ (d.peer true).up = [] ∧
      (d.peer true).down = [] ∧ (d.peer true).client.unread 1 = [] ∧
      (d.peer true).client.ops = [.read 1] ∧ (d.peer true).session = some 1 ∧
      (d.server.session 1).sendingMessages = [] ∧ (d.server.session 1).unread = [] ∧
      (d.server.session 1).ops = [.read] :=
    ⟨((Echo.machine Bool).run wroteOnce).get rfl, _, rfl, rfl, rfl, rfl, rfl, rfl, rfl, rfl, rfl,
      rfl, rfl, rfl, rfl, rfl⟩
  have hsilent : ∀ e ∈ wayBack, e.peer = true → e.Silent := by
    simp [wayBack, Echo.Event.peer, Echo.Event.Silent]
  have hquiet : d.Quiet true := by
    refine ⟨ht, hm, hup, hdown, hu, fun k size => by simp [hops], fun s hs1 => ?_⟩
    obtain rfl : 1 = s := Option.some.inj (hs.symm.trans hs1)
    exact ⟨hsm, hsu, fun size => by simp [hsops]⟩
  have hall : (Echo.machine Bool).run (wroteOnce ++ wayBack) = some d := by
    rw [Machine.run_append, hrun]
    exact hexec
  obtain ⟨hbound, hback⟩ := Echo.all_comes_back Bool wroteOnce wayBack c d hrun true hsilent hexec
  rw [hcount] at hbound
  exact ⟨c, d, hrun, hexec, hbound, ha,
    hback (hquiet.rest (Echo.going_of_run hall) (by simp [hops]) hs) (hs ▸ Option.some_ne_none 1)⟩

end Sephi.Net.Tcp
