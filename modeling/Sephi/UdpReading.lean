import Sephi.Drain
import Sephi.Udp

set_option autoImplicit false

namespace Sephi.Net.Udp
open Transition Drain

/-- The messages are the arrived datagrams as far as they go, and every `handle_read` that
found datagrams has taken one. -/
def Delivers (c : Udp) : Prop :=
  c.messages <+: c.arrived.map Datagram.message ∧
  ∀ round ∈ c.rounds, round.found ≠ 0 → round.taken ≠ 0

/-- There is no datagram, or `available()` gets to see a byte: of the first datagram where
it looks at that one alone, of any datagram where it looks at all. -/
def Available.Sees (queue : List Datagram) : Available → Prop
  | .first => ∀ d ∈ queue.head?, d.payload ≠ []
  | .total => queue ≠ [] → ∃ d ∈ queue, d.payload ≠ []

instance (queue : List Datagram) (meaning : Available) : Decidable (meaning.Sees queue) := by
  cases meaning <;> unfold Available.Sees <;> infer_instance

def SeesQueue (meaning : Available) (c : Udp) : Event → Prop
  | .readable => meaning.Sees c.queue
  | .arrive _ | .failed _ | .receive => True

instance (meaning : Available) (c : Udp) (e : Event) : Decidable (c.SeesQueue meaning e) := by
  cases e <;> unfold SeesQueue <;> infer_instance

theorem Available.sees_iff {queue : List Datagram} (meaning : Available) :
    meaning.Sees queue ↔ (queue ≠ [] → meaning.bytes queue ≠ 0) := by
  cases meaning with
  | first => cases queue <;> simp [Available.Sees, Available.bytes, Datagram.size]
  | total =>
    refine imp_congr_right fun _ => ?_
    simp [Available.bytes, Datagram.size, List.sum_eq_zero_iff_forall_eq_nat]

theorem Available.counts_bytes (meaning : Available) (queue : List Datagram) :
    Counts Datagram.size queue (meaning.bytes queue) := by
  cases meaning with
  | first =>
    cases queue with
    | nil => exact ⟨[], [], rfl, rfl⟩
    | cons d rest => exact .first d rest
  | total => exact .all queue

theorem subtract_of_le {available read : Nat} (h : read ≤ available) :
    subtract available read = available - read := if_pos h

structure Sound (c : Udp) : Prop where
  conserved : c.messages ++ c.queue.map Datagram.message = c.arrived.map Datagram.message
  counted : ∀ r ∈ c.reading, r.available ≠ 0 ∧ Counts Datagram.size c.queue r.available

def Progresses (c : Udp) : Prop := ∀ round ∈ c.rounds, round.found ≠ 0 → round.taken ≠ 0

theorem Sound.delivers {c : Udp} (h : c.Sound) : c.Delivers ↔ c.Progresses := by
  refine ⟨fun hd => hd.2, fun hp => ⟨?_, hp⟩⟩
  rw [← h.conserved]
  exact List.prefix_append _ _

theorem loop_goes_on {c : Udp} {r : Reading} {read : Nat} (h : subtract r.available read ≠ 0) :
    c.loop r read =
      { c with reading := some { r with available := subtract r.available read } } := if_pos h

theorem loop_ends {c : Udp} {r : Reading} {read : Nat} (h : subtract r.available read = 0) :
    c.loop r read = { c with reading := none, rounds := c.rounds ++ [r.round] } :=
  if_neg (not_not.mpr h)

theorem Sound.loop {c : Udp} {r : Reading} {read : Nat}
    (hc : c.messages ++ c.queue.map Datagram.message = c.arrived.map Datagram.message)
    (hread : read ≤ r.available)
    (hcount : Counts Datagram.size c.queue (r.available - read)) : (c.loop r read).Sound := by
  by_cases hleft : subtract r.available read = 0
  · rw [loop_ends hleft]
    exact ⟨hc, fun _ hr => nomatch hr⟩
  · rw [loop_goes_on hleft]
    refine ⟨hc, fun r' hr => ?_⟩
    obtain rfl := Option.some.inj hr
    exact ⟨hleft, subtract_of_le hread ▸ hcount⟩

theorem loop_progresses {c : Udp} {r : Reading} {read : Nat} (h : c.Progresses)
    (hr : subtract r.available read = 0 → r.round.found ≠ 0 → r.round.taken ≠ 0) :
    (c.loop r read).Progresses := by
  by_cases hleft : subtract r.available read = 0
  · rw [loop_ends hleft]
    intro round hround
    rcases List.mem_append.mp hround with hround | hround
    · exact h round hround
    · obtain rfl := List.mem_singleton.mp hround
      exact hr hleft
  · rw [loop_goes_on hleft]
    exact h

theorem Move.sound {meaning : Available} {c t : Udp} {e : Event} (h : c.Move meaning e t)
    (hc : c.Sound) : t.Sound := by
  cases h with
  | arrive d =>
    refine ⟨?_, fun r hr => ?_⟩
    · simp [← hc.conserved]
    · obtain ⟨hleft, hcount⟩ := hc.counted r hr
      exact ⟨hleft, hcount.append [d]⟩
  | readable _ => exact Sound.loop hc.conserved (Nat.zero_le _) (meaning.counts_bytes c.queue)
  | failed ec _ => exact ⟨hc.conserved, fun _ hr => nomatch hr⟩
  | receive r d rest hr hq =>
    obtain ⟨hleft, hcount⟩ := hc.counted r hr
    obtain ⟨a, q, hqueue, hfits, hrest⟩ := hcount.take hleft
    obtain ⟨rfl, rfl⟩ : d = a ∧ rest = q := by simpa [hq] using hqueue
    -- the buffer is never too short for the datagram that is received
    have hread : min d.size r.available = d.size := Nat.min_eq_left hfits
    have hdata : d.payload.take d.size = d.payload := List.take_length
    have hconserved := hc.conserved
    rw [hq, List.map_cons] at hconserved
    simp only [Udp.receive, hread, hdata]
    refine Sound.loop ?_ hfits hrest
    simpa [Datagram.message] using hconserved

theorem sound_of_run {meaning : Available} {es : List Event} {c : Udp}
    (h : (machine meaning).run es = some c) : c.Sound :=
  Machine.run_invariant (I := Sound) ⟨rfl, by simp [machine, start]⟩
    (fun _ _ _ hc hs => (step_move hs).sound hc) h

theorem Move.progresses_iff {meaning : Available} {c t : Udp} {e : Event}
    (h : c.Move meaning e t) (hc : c.Progresses) :
    t.Progresses ↔ c.SeesQueue meaning e := by
  cases h with
  | arrive d => exact iff_of_true hc trivial
  | failed ec _ => exact iff_of_true hc trivial
  | receive r d rest _ _ =>
    exact iff_of_true (loop_progresses hc fun _ _ => Nat.succ_ne_zero _) trivial
  | readable _ =>
    have hzero : subtract (meaning.bytes c.queue) 0 = meaning.bytes c.queue :=
      subtract_of_le (Nat.zero_le _)
    rw [SeesQueue, meaning.sees_iff]
    constructor
    · intro ht hne hnone
      refine ht ⟨c.queue.length, 0⟩ ?_ (by simpa using hne) rfl
      rw [handleRead, loop_ends (hzero.trans hnone)]
      exact List.mem_append_right _ (List.mem_singleton_self _)
    · intro hsees
      refine loop_progresses hc fun hend hfound => ?_
      exact absurd (hzero.symm.trans hend) (hsees (by simpa using hfound))

/-- In every run, the messages are a prefix of the arrived datagrams and each
`handle_read` moves the queue on, exactly if each begins on a queue in which
`available()` sees what is there. -/
theorem delivers_iff_sees_queue (meaning : Available) (es : List Event) (c : Udp)
    (h : (machine meaning).run es = some c) :
    (machine meaning).Throughout Delivers es ↔
      (machine meaning).EachStep (SeesQueue meaning) es := by
  rw [Machine.throughout_congr fun _ _ hs => (sound_of_run hs).delivers]
  refine Machine.throughout_iff_eachStep (I := Progresses)
    (by simp [Progresses, machine, start]) (fun _ hc => hc) ?_ ?_ h
  · exact fun _ _ _ hc he hs => ((step_move hs).progresses_iff hc).mpr he
  · exact fun _ _ _ hc he hs ht => he (((step_move hs).progresses_iff hc).mp ht)

def localPeer : Endpoint := ⟨2130706433, 65001⟩

example : toRemote localPeer = ⟨"127.0.0.1", 65001⟩ := by decide

def arrivesWhileReading : List Event :=
  [.arrive ⟨localPeer, [1, 2]⟩, .readable, .arrive ⟨localPeer, []⟩, .arrive ⟨localPeer, [3]⟩,
    .receive]

def emptyOneBehind : List Event :=
  [.arrive ⟨localPeer, [1, 2]⟩, .readable, .arrive ⟨localPeer, [3]⟩, .arrive ⟨localPeer, []⟩,
    .receive, .readable, .receive]

theorem delivers_arrivesWhileReading :
    (∃ c, (machine .total).run arrivesWhileReading = some c ∧ c.messages.length = 1 ∧
      (machine .total).Throughout Delivers arrivesWhileReading) ∧
    (∃ c, (machine .first).run emptyOneBehind = some c ∧ c.messages.length = 2 ∧
      (machine .first).Throughout Delivers emptyOneBehind) := by
  refine ⟨⟨_, rfl, rfl, ?_⟩, ⟨_, rfl, rfl, ?_⟩⟩
  · refine (delivers_iff_sees_queue .total arrivesWhileReading _ rfl).mpr ?_
    exact Machine.eachStep_of_checks (by decide)
  · refine (delivers_iff_sees_queue .first emptyOneBehind _ rfl).mpr ?_
    exact Machine.eachStep_of_checks (by decide)

/-- An empty datagram in front: `handle_read` finds two datagrams, takes none, and will
find the same again. -/
theorem empty_datagram_holds_up_queue :
    ∃ c, (machine .first).run [.arrive ⟨localPeer, []⟩, .arrive ⟨localPeer, [1]⟩, .readable] =
        some c ∧
      c.rounds = [⟨2, 0⟩] ∧ c.messages = [] ∧ c.queue.length = 2 ∧ c.reading = none ∧
      ¬ c.Delivers := by
  obtain ⟨c, hrun, hrounds, hm, hq, hr⟩ : ∃ c, (machine .first).run
      [.arrive ⟨localPeer, []⟩, .arrive ⟨localPeer, [1]⟩, .readable] = some c ∧
        c.rounds = [⟨2, 0⟩] ∧ c.messages = [] ∧ c.queue.length = 2 ∧ c.reading = none :=
    ⟨_, rfl, rfl, rfl, rfl, rfl⟩
  refine ⟨c, hrun, hrounds, hm, hq, hr, fun h => ?_⟩
  exact h.2 ⟨2, 0⟩ (by simp [hrounds]) (by decide) rfl

end Sephi.Net.Udp
