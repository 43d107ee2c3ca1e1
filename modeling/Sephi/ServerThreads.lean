import Sephi.TcpRegistry

/-!
A server on the threads that work on it. `close` sleeps after each turn of its loop, on the
thread of its caller, and the I/O thread goes on meanwhile. A call, a turn, and the parts
of a handler before and after the application's own code are atomic.
-/

set_option autoImplicit false

namespace Sephi.Net.Tcp
open Transition

/-- The handler on the I/O thread in which the application's code runs, with the session
that it holds. -/
inductive Server.Handler where
  | accept (s : Nat)
  | read (s : Nat)
  | leave (s : Nat)
  deriving DecidableEq, Repr

def Server.Handler.session : Server.Handler → Nat
  | .accept s | .read s | .leave s => s

/-- An iterator of `sessions_`: the node it stands on, and whether the map has been
rehashed since. -/
structure Server.Iter where
  node : SessionMap.Entry
  rehashed : Bool
  deriving DecidableEq

structure Server.Threads where
  server : Server
  handling : Option Server.Handler
  -- the calls of `close` that have not come to `end()`
  closing : List Server.Iter

/-- The node after this one, in the order that the map has at the moment. -/
def SessionMap.next (m : SessionMap) (order : List SessionMap.Entry)
    (node : SessionMap.Entry) : Option SessionMap.Entry :=
  ((m.iteration order).dropWhile (· ≠ node))[1]?

namespace Server.Threads

def held (c : Threads) : List Nat := c.handling.toList.map Handler.session

def write (c : Threads) (w : WriteCall) : Threads := { c with server := c.server.write w }

/-- A call of `close` as it comes to its first turn. -/
def close (c : Threads) (order : List SessionMap.Entry) : Threads :=
  match (c.server.sessions.iteration order).head? with
  | none => c
  | some node => { c with closing := c.closing ++ [⟨node, false⟩] }

/-- One turn of the `k`-th call of `close`. What comes of it where the iterator has been
invalidated C++ leaves open; the node is taken to hold then what it held last. -/
def turn (c : Threads) (k : Nat) (iter : Iter) (order : List SessionMap.Entry)
    (ec : ErrorCode) : Threads :=
  let server := c.server.sessionClose iter.node.2 ec
  if ec ≠ 0 then { c with server := server, closing := c.closing.eraseIdx k }
  else
    { c with
      server := server.leave iter.node.2 0
      closing := match c.server.sessions.next order iter.node with
        | none => c.closing.eraseIdx k
        | some node => c.closing.set k { iter with node := node } }

def handleAccept (c : Threads) (ec : ErrorCode) (address : SessionId) : Threads :=
  let server := { c.server with accepting := c.server.accepting - 1 }
  if ec ≠ 0 then { c with server := server.doAccept }
  else { c with server := server.announce address, handling := some (.accept server.made) }

def leave (c : Threads) (s : Nat) (ec : ErrorCode) : Threads :=
  { c with server := c.server.leave s ec, handling := some (.leave s) }

def handleRead (c : Threads) (s : Nat) (ec : ErrorCode) (size : Nat) : Threads :=
  if ec ≠ 0 then c.leave s ec
  else
    let data := (c.server.session s).receivedPacket.view size
    { c with
      server := c.server.callBack s (.packet (c.server.sessionPtrToId s) data)
      handling := some (.read s) }

def handleWrite (c : Threads) (s : Nat) (chunk : Chunk) (ec : ErrorCode) : Threads :=
  if ec ≠ 0 then c.leave s ec
  else { c with server := c.server.modify s (·.written chunk) }

def handle (c : Threads) (s : Nat) (ec : ErrorCode) : Session.Op → Threads
  | .read => c.handleRead s ec 0
  | .received size => c.handleRead s ec size
  | .write chunk => c.handleWrite s chunk ec

/-- What a handler does after the application's. A rehash invalidates all iterators. -/
def resume (c : Threads) (rehash : Bool) : Handler → Threads
  | .accept s =>
    { server := ((c.server.emplace s).modify s Session.start).doAccept
      handling := none
      closing := c.closing.map fun iter => { iter with rehashed := iter.rehashed || rehash } }
  | .read s => { c with server := c.server.modify s Session.doRead, handling := none }
  | .leave _ => { c with handling := none }

/-- Any thread may write, call `close` and take the next turn of it, also the I/O thread
in the middle of a handler. -/
inductive Event where
  | write (w : WriteCall)
  | close (order : List SessionMap.Entry)
  | turn (k : Nat) (order : List SessionMap.Entry) (ec : ErrorCode)
  | accept (ec : ErrorCode) (address : SessionId)
  | arrive (s : Nat) (bytes : Chunk)
  | perform (s : Nat) (packet : Packet)
  | complete (s : Nat) (op : Session.Op) (ec : ErrorCode)
  | resume (rehash : Bool)

def step (c : Threads) : Event → Option Threads
  | .write w => some (c.write w)
  | .close order => some (c.close order)
  | .turn k order ec => c.closing[k]?.map fun iter => c.turn k iter order ec
  | .accept ec address =>
    if c.handling = none ∧ 0 < c.server.accepting ∧ (ec = 0 → c.server.Free address) then
      some (c.handleAccept ec address)
    else none
  | .arrive s bytes =>
    if s < c.server.made then some { c with server := c.server.modify s (·.arrive bytes) }
    else none
  | .perform s packet =>
    if .read ∈ (c.server.session s).ops ∧ packet.bytes <+: (c.server.session s).unread then
      some { c with server := c.server.modify s (·.perform packet) }
    else none
  | .complete s op ec =>
    if c.handling = none ∧ op ∈ (c.server.session s).ops ∧ op.Yields ec then
      some (handle { c with server := c.server.modify s (·.begin op) } s ec op)
    else none
  | .resume rehash => c.handling.map fun handler => c.resume rehash handler

def machine : Machine Threads Event := ⟨⟨Server.start, none, []⟩, step⟩

def Valid (c : Threads) (iter : Iter) : Prop :=
  iter.rehashed = false ∧ c.server.sessions.lookup iter.node.1 = some iter.node.2

instance (c : Threads) (iter : Iter) : Decidable (c.Valid iter) :=
  inferInstanceAs (Decidable (_ ∧ _))

/-- No `close` goes on from an iterator that has been invalidated while it slept. -/
def Steady (c : Threads) : Event → Prop
  | .turn k _ _ => ∀ iter, c.closing[k]? = some iter → c.Valid iter
  | _ => True

instance (c : Threads) : (e : Event) → Decidable (c.Steady e)
  | .turn k _ _ =>
    match h : c.closing[k]? with
    | none => .isTrue fun _ hiter => absurd (h.symm.trans hiter) (Option.some_ne_none _).symm
    | some iter =>
      decidable_of_iff (c.Valid iter)
        ⟨fun hv _ hiter => Option.some.inj (h.symm.trans hiter) ▸ hv, fun hall => hall iter h⟩
  | .write _ | .close _ | .accept _ _ | .arrive _ _ | .perform _ _ | .complete _ _ _
  | .resume _ => .isTrue trivial

inductive Move (c : Threads) : Event → Threads → Prop where
  | write (w : WriteCall) : Move c (.write w) (c.write w)
  | close (order : List SessionMap.Entry) : Move c (.close order) (c.close order)
  | thrown (k : Nat) (iter : Iter) (order : List SessionMap.Entry) (ec : ErrorCode)
      (hiter : c.closing[k]? = some iter) (hec : ec ≠ 0) :
      Move c (.turn k order ec) { c with
        server := c.server.sessionClose iter.node.2 ec
        closing := c.closing.eraseIdx k }
  | turned (k : Nat) (iter : Iter) (order : List SessionMap.Entry) (closing : List Iter)
      (hiter : c.closing[k]? = some iter) :
      Move c (.turn k order 0) { c with
        server := (c.server.sessionClose iter.node.2 0).leave iter.node.2 0
        closing := closing }
  | refused (ec : ErrorCode) (address : SessionId) (hec : ec ≠ 0) :
      Move c (.accept ec address) { c with
        server := Server.doAccept { c.server with accepting := c.server.accepting - 1 } }
  | announced (address : SessionId) (hidle : c.handling = none)
      (hfree : c.server.Free address) :
      Move c (.accept 0 address) { c with
        server := Server.announce { c.server with accepting := c.server.accepting - 1 } address
        handling := some (.accept c.server.made) }
  | arrive (s : Nat) (bytes : Chunk) (hs : s < c.server.made) :
      Move c (.arrive s bytes) { c with server := c.server.modify s (·.arrive bytes) }
  | perform (s : Nat) (packet : Packet) (hop : .read ∈ (c.server.session s).ops) :
      Move c (.perform s packet) { c with server := c.server.modify s (·.perform packet) }
  | failed (s : Nat) (op : Session.Op) (ec : ErrorCode) (hidle : c.handling = none)
      (hop : op ∈ (c.server.session s).ops) (hec : ec ≠ 0) :
      Move c (.complete s op ec) { c with
        server := (c.server.modify s (·.begin op)).leave s ec
        handling := some (.leave s) }
  | packet (s size : Nat) (hidle : c.handling = none)
      (hop : .received size ∈ (c.server.session s).ops) :
      Move c (.complete s (.received size) 0) { c with
        server := (c.server.modify s (·.begin (.received size))).callBack s
          (.packet (c.server.sessionPtrToId s) ((c.server.session s).receivedPacket.view size))
        handling := some (.read s) }
  | written (s : Nat) (chunk : Chunk) (hidle : c.handling = none)
      (hop : .write chunk ∈ (c.server.session s).ops) :
      Move c (.complete s (.write chunk) 0) { c with
        server := (c.server.modify s (·.begin (.write chunk))).modify s (·.written chunk) }
  | resumed (rehash : Bool) (handler : Handler) (hhandling : c.handling = some handler) :
      Move c (.resume rehash) (c.resume rehash handler)

theorem handle_error {ec : ErrorCode} (hec : ec ≠ 0) (c : Threads) (s : Nat)
    (op : Session.Op) : c.handle s ec op = c.leave s ec := by
  cases op <;> simp [handle, handleRead, handleWrite, hec]

theorem step_move {c d : Threads} {e : Event} (h : c.step e = some d) : c.Move e d := by
  cases e with
  | write w =>
    obtain rfl := Option.some.inj h
    exact .write w
  | close order =>
    obtain rfl := Option.some.inj h
    exact .close order
  | turn k order ec =>
    obtain ⟨iter, hiter, rfl⟩ := Option.map_eq_some_iff.mp h
    by_cases hec : ec = 0
    · subst hec
      rw [turn, if_neg (not_not.mpr rfl)]
      exact .turned k iter order _ hiter
    · rw [turn, if_pos hec]
      exact .thrown k iter order ec hiter hec
  | accept ec address =>
    simp only [step, Option.ite_none_right_eq_some, Option.some.injEq] at h
    obtain ⟨⟨hidle, _, hfree⟩, rfl⟩ := h
    by_cases hec : ec = 0
    · subst hec
      rw [handleAccept, if_neg (not_not.mpr rfl)]
      exact .announced address hidle (hfree rfl)
    · rw [handleAccept, if_pos hec]
      exact .refused ec address hec
  | arrive s bytes =>
    simp only [step, Option.ite_none_right_eq_some, Option.some.injEq] at h
    obtain ⟨hs, rfl⟩ := h
    exact .arrive s bytes hs
  | perform s packet =>
    simp only [step, Option.ite_none_right_eq_some, Option.some.injEq] at h
    obtain ⟨⟨hop, _⟩, rfl⟩ := h
    exact .perform s packet hop
  | complete s op ec =>
    simp only [step, Option.ite_none_right_eq_some, Option.some.injEq] at h
    obtain ⟨⟨hidle, hop, hy⟩, rfl⟩ := h
    by_cases hec : ec = 0
    · subst hec
      cases op with
      | read => exact absurd rfl hy
      | received size =>
        have hpacket := Move.packet s size hidle hop
        simpa [handle, handleRead, Server.modify, Session.begin, Server.sessionPtrToId]
          using hpacket
      | write chunk => exact .written s chunk hidle hop
    · rw [handle_error hec]
      exact .failed s op ec hidle hop hec
  | resume rehash =>
    obtain ⟨handler, hhandling, rfl⟩ := Option.map_eq_some_iff.mp h
    exact .resumed rehash handler hhandling

structure Integrity (c : Threads) : Prop where
  server : c.server.Integrity c.held
  announced : ∀ s, c.handling = some (.accept s) → ¬ c.server.Registered s

theorem Integrity.idle {c : Threads} (h : c.Integrity) (hidle : c.handling = none) :
    c.server.Integrity [] := by
  have hheld : c.held = [] := by simp [held, hidle]
  exact hheld ▸ h.server

theorem Integrity.narrows {c : Threads} (h : c.Integrity) {server : Server}
    {closing : List Iter} (hn : c.server.Narrows server) :
    Integrity { c with server := server, closing := closing } :=
  ⟨h.server.narrows hn, fun s hs hr => h.announced s hs (hn.registered hr)⟩

theorem Integrity.resume {c : Threads} (h : c.Integrity) {handler : Handler}
    (hhandling : c.handling = some handler) (rehash : Bool) :
    (c.resume rehash handler).Integrity := by
  have hi : c.server.Integrity [handler.session] := by
    have hheld : c.held = [handler.session] := by simp [held, hhandling]
    exact hheld ▸ h.server
  cases handler with
  | accept s =>
    have hemplaced := hi.emplace Server.live_held (h.announced s hhandling)
    have hstarted := hemplaced.modify (f := Session.start) Server.live_held fun _ => rfl
    exact ⟨hstarted.release.narrows (Server.narrows_accepting _ _), by simp [Threads.resume]⟩
  | read s =>
    exact ⟨(hi.modify (f := Session.doRead) Server.live_held fun _ => rfl).release,
      by simp [Threads.resume]⟩
  | leave s => exact ⟨hi.release, by simp [Threads.resume]⟩

theorem Move.integrity {c d : Threads} {e : Event} (h : c.Move e d) (hc : c.Integrity) :
    d.Integrity := by
  cases h with
  | write w => exact hc.narrows (c.server.narrows_write w)
  | close order =>
    unfold Threads.close
    split
    · exact hc
    · exact hc.narrows (.refl c.server)
  | thrown => exact hc.narrows (c.server.narrows_record _)
  | turned k iter =>
    exact hc.narrows ((c.server.narrows_record _).trans (Server.narrows_leave _ iter.node.2 0))
  | refused => exact hc.narrows (c.server.narrows_accepting _)
  | announced address hidle hfree =>
    have hi := (hc.idle hidle).accepting (c.server.accepting - 1)
    refine ⟨hi.announce hfree, fun s hs => ?_⟩
    obtain rfl : c.server.made = s := by simpa using hs
    exact hi.announced hfree []
  | arrive s bytes =>
    exact hc.narrows (c.server.narrows_modify s (fun _ => rfl) id)
  | perform s packet hop =>
    exact ⟨hc.server.modify (f := (·.perform packet)) (Server.live_of_op hop) fun _ => rfl,
      fun t ht hr => hc.announced t ht hr⟩
  | failed s op ec hidle hop =>
    exact ⟨((hc.idle hidle).begin hop).leave s ec, by simp⟩
  | packet s size hidle hop =>
    exact ⟨((hc.idle hidle).begin hop).callBack s _, by simp⟩
  | written s chunk hidle hop =>
    have hheld : c.held = [] := by simp [held, hidle]
    refine ⟨?_, fun t ht => ?_⟩
    · have hbegun := (hc.idle hidle).begin hop
      have hwritten := hbegun.modify Server.live_held fun x => x.written_address chunk
      exact hheld.symm ▸ hwritten.release
    · simp [hidle] at ht
  | resumed rehash handler hhandling => exact hc.resume hhandling rehash

theorem integrity_start : machine.start.Integrity :=
  ⟨Server.integrity_start, by simp [machine]⟩

theorem writes_leads (c : Threads) (inside : List WriteCall) :
    machine.Leads Steady c { c with server := c.server.writes inside } := by
  induction inside generalizing c with
  | nil => exact .refl
  | cons w inside ih => exact (Machine.Leads.step (.write w) trivial rfl).trans (ih (c.write w))

theorem next_head {m : SessionMap} {iter : SessionMap.Entry} {l : List SessionMap.Entry}
    (hall : (iter :: l).Perm m.entries) : m.next (iter :: l) iter = l.head? := by
  rw [SessionMap.next, SessionMap.iteration, if_pos (List.isPerm_iff.mpr hall)]
  simp [List.head?_eq_getElem?]

section Closing
variable {shutdown : Nat → ErrorCode} {inside : Nat → List WriteCall} {c : Server}
  {iter : SessionMap.Entry} {l : List SessionMap.Entry}

theorem turn_perm (h : c.Lists (iter :: l)) (hall : (iter :: l).Perm c.sessions.entries) :
    l.Perm (c.turn shutdown inside iter).sessions.entries := by
  have hkeys : (iter :: l).NodupKeys := h.nodup
  have herased := hall.kerase (a := iter.1) hkeys
  rw [List.kerase_cons_eq rfl] at herased
  rw [h.turn_sessions]
  exact herased

theorem steady_first (handling : Option Handler) (h : c.Lists (iter :: l)) (ec : ErrorCode) :
    Steady ⟨c, handling, [⟨iter, false⟩]⟩ (.turn 0 (iter :: l) ec) := by
  intro other hother
  obtain rfl := Option.some.inj hother
  exact ⟨rfl, h.listed iter List.mem_cons_self⟩

theorem turn_leads (handling : Option Handler) (h : c.Lists (iter :: l))
    (hall : (iter :: l).Perm c.sessions.entries) (hec : shutdown iter.2 = 0) :
    machine.Leads Steady ⟨c, handling, [⟨iter, false⟩]⟩
      ⟨c.turn shutdown inside iter, handling, (l.head?.map fun next => ⟨next, false⟩).toList⟩ := by
  have hturn : machine.step ⟨c, handling, [⟨iter, false⟩]⟩ (.turn 0 (iter :: l) 0) =
      some ⟨(c.sessionClose iter.2 0).leave iter.2 0, handling,
        (l.head?.map fun next => ⟨next, false⟩).toList⟩ := by
    cases l <;> simp [machine, step, Threads.turn, next_head hall]
  have hwrites := writes_leads ⟨(c.sessionClose iter.2 0).leave iter.2 0, handling,
    (l.head?.map fun next => ⟨next, false⟩).toList⟩ (inside iter.2)
  rw [Server.turn, hec]
  exact (Machine.Leads.step _ (steady_first handling h 0) hturn).trans hwrites

theorem thrown_leads (handling : Option Handler) (h : c.Lists (iter :: l))
    (hec : shutdown iter.2 ≠ 0) :
    machine.Leads Steady ⟨c, handling, [⟨iter, false⟩]⟩
      ⟨c.sessionClose iter.2 (shutdown iter.2), handling, []⟩ := by
  refine Machine.Leads.step _ (steady_first handling h (shutdown iter.2)) ?_
  simp [machine, step, Threads.turn, hec]

/-- A `close` whose turns follow one another at once does what the loop does. The list is
what is left in the map. -/
theorem turns_lead (handling : Option Handler) (h : c.Lists (iter :: l))
    (hall : (iter :: l).Perm c.sessions.entries) :
    machine.Leads Steady ⟨c, handling, [⟨iter, false⟩]⟩
      ⟨Server.closeLoop shutdown inside c (iter :: l), handling, []⟩ := by
  induction l generalizing c iter with
  | nil =>
    rw [Server.closeLoop_cons]
    split
    · rename_i hec
      exact thrown_leads handling h hec
    · rename_i hec
      exact turn_leads handling h hall (not_not.mp hec)
  | cons other l ih =>
    rw [Server.closeLoop_cons]
    split
    · rename_i hec
      exact thrown_leads handling h hec
    · rename_i hec
      exact (turn_leads handling h hall (not_not.mp hec)).trans (ih h.turn (turn_perm h hall))

end Closing

theorem call_leads {c : Server} (hk : c.Keyed) (handling : Option Handler) (x : Call) :
    machine.Leads Steady ⟨c, handling, []⟩ ⟨c.call x, handling, []⟩ := by
  cases x with
  | write w => exact Machine.Leads.step (.write w) trivial rfl
  | close order shutdown inside =>
    have hlists := Server.lists_iteration hk order
    have hall := c.sessions.iteration_perm order
    have hclose : machine.step ⟨c, handling, []⟩ (.close order) =
        some (Threads.close ⟨c, handling, []⟩ order) := rfl
    rw [Server.call, Server.close]
    cases hl : c.sessions.iteration order with
    | nil => exact .refl
    | cons iter l =>
      rw [hl] at hlists hall
      rw [Threads.close, hl] at hclose
      exact (Machine.Leads.step _ trivial hclose).trans (turns_lead handling hlists hall)

theorem calls_lead {c : Server} (hk : c.Keyed) (handling : Option Handler)
    (inside : List Call) :
    machine.Leads Steady ⟨c, handling, []⟩ ⟨c.calls inside, handling, []⟩ := by
  induction inside generalizing c with
  | nil => exact .refl
  | cons x inside ih =>
    have hx := Server.call_callings hk x
    exact (call_leads hk handling x).trans (ih ((Server.Callings.narrows hx).keyed hk))

theorem handler_leads {c d : Server} {e : Event} (handler : Handler) (inside : List Call)
    (hk : d.Keyed) (hc : Steady ⟨c, none, []⟩ e)
    (hstep : machine.step ⟨c, none, []⟩ e = some ⟨d, some handler, []⟩) :
    machine.Leads Steady ⟨c, none, []⟩
      (Threads.resume ⟨d.calls inside, some handler, []⟩ false handler) :=
  (Machine.Leads.step e hc hstep).trans
    ((calls_lead hk (some handler) inside).trans (Machine.Leads.step (.resume false) trivial rfl))

theorem accept_leads {c : Server} (hi : c.Integrity []) (hpending : 0 < c.accepting)
    {ec : ErrorCode} {address : SessionId} (hfree : ec = 0 → c.Free address)
    (inside : List Call) :
    machine.Leads Steady ⟨c, none, []⟩
      ⟨Server.handleAccept { c with accepting := c.accepting - 1 } ec address inside,
        none, []⟩ := by
  by_cases hec : ec = 0
  · subst hec
    have hkeyed := ((hi.accepting (c.accepting - 1)).announce (hfree rfl)).keyed
    rw [Server.handleAccept_eq]
    refine handler_leads (.accept c.made) inside hkeyed (e := .accept 0 address) trivial ?_
    simp [machine, step, hpending, hfree rfl, handleAccept]
  · refine Machine.Leads.step (.accept ec address) trivial ?_
    simp [machine, step, hpending, hec, handleAccept, Server.handleAccept]

theorem complete_leads {c : Server} (hi : c.Integrity []) {s : Nat} {op : Session.Op}
    {ec : ErrorCode} (hop : op ∈ (c.session s).ops) (hy : op.Yields ec)
    (inside : List Call) :
    machine.Leads Steady ⟨c, none, []⟩
      ⟨(c.modify s (·.begin op)).handle s ec inside op, none, []⟩ := by
  have hstep : machine.step ⟨c, none, []⟩ (.complete s op ec) =
      some (handle ⟨c.modify s (·.begin op), none, []⟩ s ec op) := by
    simp [machine, step, hop, hy]
  by_cases hec : ec = 0
  · subst hec
    cases op with
    | read => exact absurd rfl hy
    | received size =>
      have hgiven := (hi.begin hop).callBack s (.packet (c.sessionPtrToId s)
        ((c.session s).receivedPacket.view size))
      rw [Server.handle, Server.handleRead_begin]
      refine handler_leads (.read s) inside hgiven.keyed
        (e := .complete s (.received size) 0) trivial ?_
      rw [hstep]
      simp [handle, handleRead, Server.modify, Session.begin, Server.sessionPtrToId]
    | write chunk => exact Machine.Leads.step (.complete s (.write chunk) 0) trivial hstep
  · rw [handle_error hec] at hstep
    rw [Server.handle_error hec]
    exact handler_leads (.leave s) inside ((hi.begin hop).leave s ec).keyed
      (e := .complete s op ec) trivial hstep

theorem step_leads {c d : Server} {e : Server.Event} (hi : c.Integrity [])
    (h : c.step e = some d) : machine.Leads Steady ⟨c, none, []⟩ ⟨d, none, []⟩ := by
  cases e with
  | call x =>
    obtain rfl := Option.some.inj h
    exact call_leads hi.keyed none x
  | accept ec address inside =>
    simp only [Server.step, Option.ite_none_right_eq_some, Option.some.injEq] at h
    obtain ⟨⟨hpending, hfree⟩, rfl⟩ := h
    exact accept_leads hi hpending hfree inside
  | arrive s bytes =>
    simp only [Server.step, Option.ite_none_right_eq_some, Option.some.injEq] at h
    obtain ⟨hs, rfl⟩ := h
    exact Machine.Leads.step (.arrive s bytes) trivial (by simp [machine, step, hs])
  | perform s packet =>
    simp only [Server.step, Option.ite_none_right_eq_some, Option.some.injEq] at h
    obtain ⟨hp, rfl⟩ := h
    exact Machine.Leads.step (.perform s packet) trivial (by simp [machine, step, hp])
  | complete s op ec inside =>
    simp only [Server.step, Option.ite_none_right_eq_some, Option.some.injEq] at h
    obtain ⟨⟨hop, hy⟩, rfl⟩ := h
    exact complete_leads hi hop hy inside

/-- The server whose calls and handlers are atomic does nothing that this one cannot do in
a run without an invalidated iterator. -/
theorem reachable_steady {c : Server} (h : Server.machine.Reachable c) :
    ∃ es, machine.run es = some ⟨c, none, []⟩ ∧ machine.EachStep Steady es := by
  have hstart : machine.Leads Steady machine.start ⟨Server.start, none, []⟩ := .refl
  have hleads : c.Integrity [] ∧ machine.Leads Steady machine.start ⟨c, none, []⟩ := by
    refine h.invariant (I := fun c => c.Integrity [] ∧
      machine.Leads Steady machine.start ⟨c, none, []⟩) ⟨Server.integrity_start, hstart⟩ ?_
    rintro c e d ⟨hi, hc⟩ hs
    exact ⟨(Server.step_move hs).integrity hi, hc.trans (step_leads hi hs)⟩
  exact hleads.2.run

end Server.Threads

end Sephi.Net.Tcp
