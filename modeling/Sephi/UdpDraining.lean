import Sephi.UdpReading

set_option autoImplicit false

namespace Sephi.Net.Udp
open Transition Drain

def Event.InLoop : Event → Prop
  | .arrive _ | .receive => True
  | .readable | .failed _ => False

instance : (e : Event) → Decidable e.InLoop
  | .arrive _ | .receive => .isTrue trivial
  | .readable | .failed _ => .isFalse id

def Event.datagram? : Event → Option Datagram
  | .arrive d => some d
  | .readable | .failed _ | .receive => none

def arrivals (es : List Event) : List Datagram := es.filterMap Event.datagram?

@[simp] theorem arrivals_nil : arrivals [] = [] := rfl

theorem arrivals_cons (e : Event) (es : List Event) :
    arrivals (e :: es) = arrivals [e] ++ arrivals es :=
  List.filterMap_append (l := [e])

@[simp] theorem arrivals_arrive (d : Datagram) : arrivals [.arrive d] = [d] := rfl

@[simp] theorem arrivals_receive : arrivals [.receive] = [] := rfl

def counted (c : Udp) : List Datagram := covered Datagram.size c.queue

/-- Inside the loop, `receive_from` finds a datagram and does not cut it short, and
`available -= read` does not wrap. -/
def ReceivesWhole (c : Udp) : Prop :=
  ∀ r ∈ c.reading, ∃ d rest, c.queue = d :: rest ∧ min d.size r.available = d.size ∧
    subtract r.available d.size + d.size = r.available

/-- `d` is reached from `c` by a `handle_read` and the events `es` while it is in its
loop. -/
structure DrainsExactly (c : Udp) (es : List Event) (d : Udp) : Prop where
  whole : d.ReceivesWhole
  bounded : es.count .receive ≤ c.counted.length
  ends : d.reading = none ↔ es.count .receive = c.counted.length
  terminates : ∃ t, (machine .total).exec d
      (List.replicate (c.counted.length - es.count .receive) .receive) = some t ∧
    t.reading = none
  messages : d.messages =
    c.messages ++ (c.counted.take (es.count .receive)).map Datagram.message
  queue : d.queue = c.queue.drop (es.count .receive) ++ arrivals es

def left (c : Udp) : Nat := (c.reading.map Reading.available).getD 0

structure Draining (c : Udp) (taken later : List Datagram) (d : Udp) : Prop where
  drained : Drained Datagram.size c.queue taken later d.queue d.left
  going : ∀ r ∈ d.reading, r.available ≠ 0
  messages : d.messages = c.messages ++ taken.map Datagram.message

@[simp] theorem loop_left (c : Udp) (r : Reading) (read : Nat) :
    (c.loop r read).left = subtract r.available read := by
  by_cases h : subtract r.available read = 0
  · rw [loop_ends h, h]
    rfl
  · rw [loop_goes_on h]
    rfl

theorem loop_going (c : Udp) (r : Reading) (read : Nat) :
    ∀ r' ∈ (c.loop r read).reading, r'.available ≠ 0 := by
  by_cases h : subtract r.available read = 0
  · rw [loop_ends h]
    exact fun _ hr => nomatch hr
  · rw [loop_goes_on h]
    intro r' hr
    obtain rfl := Option.some.inj hr
    exact h

theorem Draining.ends_iff {c d : Udp} {taken later : List Datagram}
    (h : c.Draining taken later d) : d.reading = none ↔ taken = c.counted := by
  rw [counted, ← h.drained.ends_iff, left]
  cases hr : d.reading with
  | none => simp
  | some r => simpa using h.going r hr

theorem Draining.next {c d : Udp} {taken later : List Datagram} {r : Reading}
    (h : c.Draining taken later d) (hr : d.reading = some r) :
    ∃ a rest, d.queue = a :: rest ∧ a.size ≤ r.available ∧
      Drained Datagram.size c.queue (taken ++ [a]) later rest (r.available - a.size) := by
  have hleft : d.left = r.available := by rw [left, hr]; rfl
  exact hleft ▸ h.drained.take (hleft ▸ h.going r hr)

theorem Draining.whole {c d : Udp} {taken later : List Datagram}
    (h : c.Draining taken later d) : d.ReceivesWhole := by
  intro r hr
  obtain ⟨a, rest, hq, hfits, _⟩ := h.next hr
  refine ⟨a, rest, hq, Nat.min_eq_left hfits, ?_⟩
  rw [subtract_of_le hfits]
  omega

theorem Draining.begin (c : Udp) : c.Draining [] [] (c.handleRead .total) := by
  refine ⟨?_, loop_going _ _ _, by simp [handleRead]⟩
  have hstart := Drained.start (w := Datagram.size) c.queue
  simpa [handleRead, subtract_of_le, Available.bytes] using hstart

theorem Draining.arrive {c d : Udp} {taken later : List Datagram}
    (h : c.Draining taken later d) (a : Datagram) :
    c.Draining taken (later ++ [a])
      { d with queue := d.queue ++ [a], arrived := d.arrived ++ [a] } :=
  ⟨h.drained.append a, h.going, h.messages⟩

theorem Draining.receive {c d : Udp} {taken later rest : List Datagram} {r : Reading}
    {a : Datagram} (h : c.Draining taken later d) (hr : d.reading = some r)
    (hq : d.queue = a :: rest) : c.Draining (taken ++ [a]) later (d.receive r a rest) := by
  obtain ⟨b, q, hqueue, hfits, hdrained⟩ := h.next hr
  obtain ⟨rfl, rfl⟩ : a = b ∧ rest = q := by simpa [hq] using hqueue
  have hread : min a.size r.available = a.size := Nat.min_eq_left hfits
  have hdata : a.payload.take a.size = a.payload := List.take_length
  refine ⟨?_, loop_going _ _ _, ?_⟩
  · simpa [Udp.receive, hread, subtract_of_le hfits] using hdrained
  · simp [Udp.receive, hread, hdata, h.messages, Datagram.message]

theorem Draining.step {c d t : Udp} {taken later : List Datagram} {e : Event}
    (h : c.Draining taken later d) (he : e.InLoop) (hm : d.Move .total e t) :
    ∃ more, c.Draining (taken ++ more) (later ++ arrivals [e]) t ∧
      more.length = [e].count .receive := by
  cases hm with
  | arrive a => exact ⟨[], by simpa using h.arrive a, by simp⟩
  | receive r a rest hr hq =>
    exact ⟨[a], by simpa using h.receive hr hq, by simp⟩
  | readable | failed => exact he.elim

theorem Draining.exec {c d t : Udp} {taken later : List Datagram} {es : List Event}
    (h : c.Draining taken later d) (hes : ∀ e ∈ es, e.InLoop)
    (hexec : (machine .total).exec d es = some t) :
    ∃ more, c.Draining (taken ++ more) (later ++ arrivals es) t ∧
      more.length = es.count .receive := by
  induction es generalizing d taken later with
  | nil =>
    obtain rfl : d = t := Option.some.inj hexec
    exact ⟨[], by simpa using h, rfl⟩
  | cons e es ih =>
    obtain ⟨u, hstep, hrest⟩ := Option.bind_eq_some_iff.mp hexec
    obtain ⟨first, hfirst, hlen⟩ := h.step (hes e List.mem_cons_self) (step_move hstep)
    obtain ⟨more, hmore, hcount⟩ :=
      ih hfirst (fun f hf => hes f (List.mem_cons_of_mem e hf)) hrest
    refine ⟨first ++ more, ?_, ?_⟩
    · rw [arrivals_cons, ← List.append_assoc, ← List.append_assoc]
      exact hmore
    · rw [List.length_append, hlen, hcount, ← List.count_append]
      rfl

theorem Draining.terminates {c d : Udp} {taken later : List Datagram} {n : Nat}
    (h : c.Draining taken later d) (hn : taken.length + n = c.counted.length) :
    ∃ t, (machine .total).exec d (List.replicate n .receive) = some t ∧ t.reading = none := by
  induction n generalizing d taken with
  | zero =>
    refine ⟨d, rfl, h.ends_iff.mpr ?_⟩
    exact h.drained.within.eq_of_length hn
  | succ n ih =>
    cases hr : d.reading with
    | none =>
      have hlen := congrArg List.length (h.ends_iff.mp hr)
      omega
    | some r =>
      obtain ⟨a, rest, hq, _⟩ := h.next hr
      have hstep : (machine .total).step d .receive = some (d.receive r a rest) := by
        simp [machine, Udp.step, hr, hq]
      obtain ⟨t, ht, hend⟩ := ih (h.receive hr hq) (by
        rw [List.length_append, List.length_singleton]
        omega)
      refine ⟨t, ?_, hend⟩
      rw [List.replicate_succ, Machine.exec, hstep]
      exact ht

/-- Whatever is queued when `handle_read` begins and whatever arrives while it is in its
loop, it takes the queued datagrams up to the last non-empty one, whole and in order, and
ends. -/
theorem total_drain_exact (c d : Udp) (es : List Event) (hes : ∀ e ∈ es, e.InLoop)
    (h : (machine .total).exec c (.readable :: es) = some d) : c.DrainsExactly es d := by
  obtain ⟨u, hstep, hexec⟩ := Option.bind_eq_some_iff.mp h
  obtain ⟨_⟩ : c.Move .total .readable u := step_move hstep
  obtain ⟨taken, hdraining, hlen⟩ := (Draining.begin c).exec hes hexec
  simp only [List.nil_append] at hdraining
  have hprefix : taken <+: c.counted := hdraining.drained.within
  have htaken : taken = c.counted.take (es.count .receive) := by
    rw [← hlen]
    exact List.prefix_iff_eq_take.mp hprefix
  have hbounded : es.count .receive ≤ c.counted.length := hlen ▸ hprefix.length_le
  refine ⟨hdraining.whole, hbounded, ?_, hdraining.terminates (by omega), ?_, ?_⟩
  · rw [hdraining.ends_iff, ← hlen]
    exact ⟨congrArg List.length, hprefix.eq_of_length⟩
  · rw [hdraining.messages, ← htaken]
  · obtain ⟨rest, hqueue, hleft, _⟩ := hdraining.drained.split
    rw [hleft, hqueue, ← hlen, List.drop_left]

def emptyBetween : Udp := { start with
  queue := [⟨localPeer, [1, 2]⟩, ⟨localPeer, []⟩, ⟨localPeer, [3]⟩, ⟨localPeer, []⟩] }

theorem total_drain_exact_emptyBetween :
    ∃ d, (machine .total).exec emptyBetween
        [.readable, .receive, .arrive ⟨localPeer, [4]⟩, .receive, .receive] = some d ∧
      d.reading = none ∧ d.queue = [⟨localPeer, []⟩, ⟨localPeer, [4]⟩] ∧
      emptyBetween.DrainsExactly [.receive, .arrive ⟨localPeer, [4]⟩, .receive, .receive] d :=
  ⟨_, rfl, rfl, rfl, total_drain_exact emptyBetween _
    [.receive, .arrive ⟨localPeer, [4]⟩, .receive, .receive] (by decide) rfl⟩

end Sephi.Net.Udp
