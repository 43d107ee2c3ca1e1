import Mathlib.Data.List.AList
import Mathlib.Logic.Function.Basic
import Mathlib.Logic.Relation
import Sephi.TcpSession
import Sephi.Transition

/-!
`sephi::net::tcp::Server` and its sessions. One step is one call of the application, or
one completion handler together with the calls that the application's own handler makes
inside it; `ServerThreads` takes these apart.
-/

set_option autoImplicit false

namespace Sephi.Net.Tcp
open Transition

/-- `std::unordered_map<SessionId, SessionPtr>`; sessions are numbered in the order in
which they are made, and a pointer to one is its number. -/
abbrev SessionMap := AList fun _ : SessionId => Nat

abbrev SessionMap.Entry := (_ : SessionId) × Nat

/-- A loop over the map visits each entry once, in an order of the map's own. -/
def SessionMap.iteration (m : SessionMap) (order : List SessionMap.Entry) :
    List SessionMap.Entry :=
  if order.isPerm m.entries then order else m.entries

def SessionMap.emplace (m : SessionMap) (id : SessionId) (s : Nat) : SessionMap :=
  match m.lookup id with
  | some _ => m
  | none => m.insert id s

inductive Server.WriteCall where
  | writeTo (id : SessionId) (chunk : Chunk)
  | writeToAll (order : List SessionMap.Entry) (chunk : Chunk)
  | writeToAllExcept (order : List SessionMap.Entry) (id : SessionId) (chunk : Chunk)

/-- A call of `close` comes with the order of its loop, what each socket's `shutdown`
reports, and the application's calls in each report. A `close` among those would find the
map empty, or free the node that the loop goes on from, and is left to `Threads`. -/
inductive Server.Call where
  | write (w : Server.WriteCall)
  | close (order : List SessionMap.Entry) (shutdown : Nat → ErrorCode)
      (inside : Nat → List Server.WriteCall)

inductive Server.Callback where
  | connection (id : SessionId) (state : ConnectionState) (ec : ErrorCode)
  | packet (id : SessionId) (data : Chunk)
  deriving DecidableEq, Repr

/-- The record of a run: the calls of the application's handlers about session `s`, the
application's own writes with the sessions they reached, and the sessions that were
emplaced and shut down. `registered` is the map at that moment. -/
inductive Server.Entry where
  | report (s : Nat) (callback : Server.Callback) (registered : SessionMap)
  | called (w : Server.WriteCall) (registered : SessionMap) (reached : List Nat)
      (result : Bool)
  | emplaced (s : Nat)
  | shutdown (s : Nat) (ec : ErrorCode)

structure Server where
  sessions : SessionMap
  -- the heap and io_context_
  made : Nat
  session : Nat → Session
  accepting : Nat
  -- the sessions that the write call in progress has reached
  reached : List Nat
  history : List Server.Entry

def Server.modify (c : Server) (s : Nat) (f : Session → Session) : Server :=
  { c with session := Function.update c.session s (f (c.session s)) }

def Server.record (c : Server) (entry : Server.Entry) : Server :=
  { c with history := c.history ++ [entry] }

def Server.sessionPtrToId (c : Server) (s : Nat) : SessionId := (c.session s).address

def Server.sessionWrite (c : Server) (chunk : Chunk) (s : Nat) : Server :=
  { c.modify s (·.write chunk) with reached := c.reached ++ [s] }

def Server.writeToAll (c : Server) (order : List SessionMap.Entry) (chunk : Chunk) :
    Server :=
  (c.sessions.iteration order).foldl (fun c session => c.sessionWrite chunk session.2) c

def Server.writeTo (c : Server) (id : SessionId) (chunk : Chunk) : Server × Bool :=
  match c.sessions.lookup id with
  | none => (c, false)
  | some s => (c.sessionWrite chunk s, true)

def Server.writeToAllExcept (c : Server) (order : List SessionMap.Entry) (id : SessionId)
    (chunk : Chunk) : Server :=
  (c.sessions.iteration order).foldl
    (fun c session => if id ≠ session.1 then c.sessionWrite chunk session.2 else c) c

/-- The two calls that return nothing are recorded with `true`. -/
def Server.write (c : Server) (w : Server.WriteCall) : Server :=
  let c' := { c with reached := [] }
  let r := match w with
    | .writeTo id chunk => c'.writeTo id chunk
    | .writeToAll order chunk => (c'.writeToAll order chunk, true)
    | .writeToAllExcept order id chunk => (c'.writeToAllExcept order id chunk, true)
  r.1.record (.called w c.sessions r.1.reached r.2)

def Server.writes (c : Server) (inside : List Server.WriteCall) : Server :=
  inside.foldl Server.write c

def Server.callBack (c : Server) (s : Nat) (callback : Server.Callback) : Server :=
  c.record (.report s callback c.sessions)

/-- The application's calls in the report come after this. -/
def Server.leave (c : Server) (s : Nat) (ec : ErrorCode) : Server :=
  let id := c.sessionPtrToId s
  Server.callBack { c with sessions := c.sessions.erase id } s (.connection id .disconnected ec)

/-- `Session::close` on `s`, which throws where `shutdown` fails. -/
def Server.sessionClose (c : Server) (s : Nat) (ec : ErrorCode) : Server :=
  c.record (.shutdown s ec)

/-- A failed `shutdown` throws out of the loop. The application catches it, or the run
ends there. -/
def Server.closeLoop (shutdown : Nat → ErrorCode) (inside : Nat → List Server.WriteCall) :
    Server → List SessionMap.Entry → Server
  | c, [] => c
  | c, iter :: rest =>
    let c := c.sessionClose iter.2 (shutdown iter.2)
    if shutdown iter.2 ≠ 0 then c
    else closeLoop shutdown inside ((c.leave iter.2 0).writes (inside iter.2)) rest

def Server.close (c : Server) (order : List SessionMap.Entry) (shutdown : Nat → ErrorCode)
    (inside : Nat → List Server.WriteCall) : Server :=
  Server.closeLoop shutdown inside c (c.sessions.iteration order)

def Server.call (c : Server) : Server.Call → Server
  | .write w => c.write w
  | .close order shutdown inside => c.close order shutdown inside

def Server.calls (c : Server) (inside : List Server.Call) : Server :=
  inside.foldl Server.call c

def Server.doAccept (c : Server) : Server := { c with accepting := c.accepting + 1 }

def Server.makeSession (c : Server) (address : SessionId) : Server :=
  { c with
    made := c.made + 1
    session := Function.update c.session c.made (Session.make address) }

def Server.emplace (c : Server) (s : Nat) : Server :=
  Server.record { c with sessions := c.sessions.emplace (c.sessionPtrToId s) s } (.emplaced s)

def Server.handleAccept (c : Server) (ec : ErrorCode) (address : SessionId)
    (inside : List Server.Call) : Server :=
  if ec ≠ 0 then c.doAccept
  else
    let s := c.made
    let c := (c.makeSession address).callBack s (.connection address .connected ec)
    (((c.calls inside).emplace s).modify s Session.start).doAccept

def Server.handleRead (c : Server) (s : Nat) (ec : ErrorCode) (size : Nat)
    (inside : List Server.Call) : Server :=
  if ec ≠ 0 then (c.leave s ec).calls inside
  else
    let data := (c.session s).receivedPacket.view size
    let c := c.callBack s (.packet (c.sessionPtrToId s) data)
    (c.calls inside).modify s Session.doRead

def Server.handleWrite (c : Server) (s : Nat) (chunk : Chunk) (ec : ErrorCode)
    (inside : List Server.Call) : Server :=
  if ec ≠ 0 then (c.leave s ec).calls inside
  else c.modify s (·.written chunk)

def Server.handle (c : Server) (s : Nat) (ec : ErrorCode) (inside : List Server.Call) :
    Session.Op → Server
  | .read => c.handleRead s ec 0 inside
  | .received size => c.handleRead s ec size inside
  | .write chunk => c.handleWrite s chunk ec inside

def Server.Registered (c : Server) (s : Nat) : Prop :=
  ∃ session ∈ c.sessions.entries, session.2 = s

instance (c : Server) (s : Nat) : Decidable (c.Registered s) :=
  inferInstanceAs (Decidable (∃ session ∈ c.sessions.entries, session.2 = s))

/-- What keeps a session alive: the map, an outstanding operation, or one of the `held`
pointers of a running handler. -/
def Server.Live (c : Server) (held : List Nat) (s : Nat) : Prop :=
  c.Registered s ∨ (c.session s).ops ≠ [] ∨ s ∈ held

instance (c : Server) (held : List Nat) (s : Nat) : Decidable (c.Live held s) :=
  inferInstanceAs (Decidable (_ ∨ _ ∨ _))

/-- An address that `make_shared` may return. -/
def Server.Free (c : Server) (address : SessionId) : Prop :=
  ∀ s < c.made, c.Live [] s → (c.session s).address ≠ address

instance (c : Server) (address : SessionId) : Decidable (c.Free address) :=
  inferInstanceAs (Decidable (∀ s < c.made, _ → _))

inductive Server.Event where
  | call (call : Server.Call)
  | accept (ec : ErrorCode) (address : SessionId) (inside : List Server.Call)
  | arrive (s : Nat) (bytes : Chunk)
  | perform (s : Nat) (packet : Packet)
  | complete (s : Nat) (op : Session.Op) (ec : ErrorCode) (inside : List Server.Call)

def Server.step (c : Server) : Server.Event → Option Server
  | .call x => some (c.call x)
  | .accept ec address inside =>
    if 0 < c.accepting ∧ (ec = 0 → c.Free address) then
      some (Server.handleAccept { c with accepting := c.accepting - 1 } ec address inside)
    else none
  | .arrive s bytes =>
    if s < c.made then some (c.modify s (·.arrive bytes)) else none
  | .perform s packet =>
    if .read ∈ (c.session s).ops ∧ packet.bytes <+: (c.session s).unread then
      some (c.modify s (·.perform packet))
    else none
  | .complete s op ec inside =>
    if op ∈ (c.session s).ops ∧ op.Yields ec then
      some ((c.modify s (·.begin op)).handle s ec inside op)
    else none

def Server.start : Server :=
  Server.doAccept {
    sessions := ∅, made := 0, session := fun _ => Session.make 0, accepting := 0
    reached := [], history := [] }

def Server.machine : Machine Server Server.Event := ⟨Server.start, Server.step⟩

theorem SessionMap.iteration_perm (m : SessionMap) (order : List SessionMap.Entry) :
    List.Perm (m.iteration order) m.entries := by
  unfold SessionMap.iteration
  split
  · rename_i h
    exact List.isPerm_iff.mp h
  · exact .refl _

theorem SessionMap.mem_iteration {m : SessionMap} {order : List SessionMap.Entry}
    {session : SessionMap.Entry} :
    session ∈ m.iteration order ↔ m.lookup session.1 = some session.2 := by
  rw [(m.iteration_perm order).mem_iff]
  exact AList.mem_lookup_iff.symm

theorem Server.registered_iff {c : Server} {s : Nat} :
    c.Registered s ↔ ∃ id, c.sessions.lookup id = some s := by
  constructor
  · rintro ⟨session, hmem, rfl⟩
    exact ⟨session.1, AList.mem_lookup_iff.mpr hmem⟩
  · rintro ⟨id, hid⟩
    exact ⟨⟨id, s⟩, AList.mem_lookup_iff.mp hid, rfl⟩

def Server.WriteCall.targets (m : SessionMap) : Server.WriteCall → List Nat
  | .writeTo id _ => (m.lookup id).toList
  | .writeToAll order _ => (m.iteration order).map (·.2)
  | .writeToAllExcept order id _ => ((m.iteration order).filter (id ≠ ·.1)).map (·.2)

def Server.WriteCall.chunk : Server.WriteCall → Chunk
  | .writeTo _ chunk | .writeToAll _ chunk | .writeToAllExcept _ _ chunk => chunk

def Server.WriteCall.result (m : SessionMap) : Server.WriteCall → Bool
  | .writeTo id _ => (m.lookup id).isSome
  | .writeToAll _ _ | .writeToAllExcept _ _ _ => true

theorem Server.sessionWrites_eq (c : Server) (chunk : Chunk) (l : List Nat) :
    l.foldl (fun c s => c.sessionWrite chunk s) c = { c with
      session := fun s => (Session.write · chunk)^[l.count s] (c.session s)
      reached := c.reached ++ l } := by
  induction l generalizing c with
  | nil => simp
  | cons t l ih =>
    rw [List.foldl_cons, ih]
    simp only [Server.sessionWrite, Server.modify, List.append_assoc, List.singleton_append,
      Server.mk.injEq, true_and, and_true]
    funext s
    by_cases hs : s = t
    · subst hs
      simp
    · simp [Function.update_of_ne hs, List.count_cons_of_ne (Ne.symm hs)]

theorem Server.writeToAllExcept_fold (c : Server) (id : SessionId) (chunk : Chunk)
    (l : List SessionMap.Entry) :
    l.foldl (fun c session => if id ≠ session.1 then c.sessionWrite chunk session.2 else c) c =
      ((l.filter (id ≠ ·.1)).map (·.2)).foldl (fun c s => c.sessionWrite chunk s) c := by
  simp [List.foldl_map, List.foldl_filter]

theorem Server.write_eq (c : Server) (w : Server.WriteCall) :
    c.write w = { c with
      session := fun s =>
        (Session.write · w.chunk)^[(w.targets c.sessions).count s] (c.session s)
      reached := w.targets c.sessions
      history := c.history ++
        [.called w c.sessions (w.targets c.sessions) (w.result c.sessions)] } := by
  cases w with
  | writeTo id chunk =>
    cases hid : c.sessions.lookup id with
    | none =>
      simp [Server.write, Server.writeTo, Server.WriteCall.targets, Server.record,
        Server.WriteCall.result, hid]
    | some s =>
      have h := Server.sessionWrites_eq { c with reached := [] } chunk [s]
      simp only [List.foldl_cons, List.foldl_nil] at h
      simp [Server.write, Server.writeTo, Server.WriteCall.targets, Server.record,
        Server.WriteCall.result, Server.WriteCall.chunk, hid, h]
  | writeToAll order chunk =>
    have h := Server.sessionWrites_eq { c with reached := [] } chunk
      ((c.sessions.iteration order).map (·.2))
    rw [List.foldl_map] at h
    simp [Server.write, Server.writeToAll, Server.WriteCall.targets, Server.record,
      Server.WriteCall.result, Server.WriteCall.chunk, h]
  | writeToAllExcept order id chunk =>
    have h := Server.sessionWrites_eq { c with reached := [] } chunk
      (((c.sessions.iteration order).filter (id ≠ ·.1)).map (·.2))
    simp only [Server.write, Server.writeToAllExcept, Server.writeToAllExcept_fold, h]
    simp [Server.WriteCall.targets, Server.record, Server.WriteCall.result,
      Server.WriteCall.chunk]

def Server.WriteCall.addresses (id : SessionId) : Server.WriteCall → Bool
  | .writeTo i _ => i == id
  | .writeToAll _ _ => true
  | .writeToAllExcept _ i _ => i != id

theorem Server.WriteCall.mem_targets {w : Server.WriteCall} {m : SessionMap} {s : Nat} :
    s ∈ w.targets m ↔ ∃ id, m.lookup id = some s ∧ w.addresses id := by
  cases w with
  | writeTo id chunk =>
    simp [Server.WriteCall.targets, Server.WriteCall.addresses]
  | writeToAll order chunk =>
    simp [Server.WriteCall.targets, Server.WriteCall.addresses, SessionMap.mem_iteration]
  | writeToAllExcept order id chunk =>
    simp [Server.WriteCall.targets, Server.WriteCall.addresses, SessionMap.mem_iteration]

inductive Server.Move (c : Server) : Server.Event → Server → Prop where
  | call (x : Server.Call) : Move c (.call x) (c.call x)
  | refused (ec : ErrorCode) (address : SessionId) (inside : List Server.Call)
      (hec : ec ≠ 0) :
      Move c (.accept ec address inside)
        (Server.doAccept { c with accepting := c.accepting - 1 })
  | accepted (address : SessionId) (inside : List Server.Call) (hfree : c.Free address) :
      Move c (.accept 0 address inside)
        (Server.handleAccept { c with accepting := c.accepting - 1 } 0 address inside)
  | arrive (s : Nat) (bytes : Chunk) (hs : s < c.made) :
      Move c (.arrive s bytes) (c.modify s (·.arrive bytes))
  | perform (s : Nat) (packet : Packet) (hop : .read ∈ (c.session s).ops)
      (hp : packet.bytes <+: (c.session s).unread) :
      Move c (.perform s packet) (c.modify s (·.perform packet))
  | failed (s : Nat) (op : Session.Op) (ec : ErrorCode) (inside : List Server.Call)
      (hop : op ∈ (c.session s).ops) (hec : ec ≠ 0) (hy : op.Yields ec) :
      Move c (.complete s op ec inside)
        (((c.modify s (·.begin op)).leave s ec).calls inside)
  | packet (s size : Nat) (inside : List Server.Call)
      (hop : .received size ∈ (c.session s).ops) :
      Move c (.complete s (.received size) 0 inside)
        ((c.modify s (·.begin (.received size))).handleRead s 0 size inside)
  | written (s : Nat) (chunk : Chunk) (inside : List Server.Call)
      (hop : .write chunk ∈ (c.session s).ops) :
      Move c (.complete s (.write chunk) 0 inside)
        ((c.modify s (·.begin (.write chunk))).modify s (·.written chunk))

theorem Server.handle_error {ec : ErrorCode} (hec : ec ≠ 0) (c : Server) (s : Nat)
    (inside : List Server.Call) (op : Session.Op) :
    c.handle s ec inside op = (c.leave s ec).calls inside := by
  cases op <;> simp [Server.handle, Server.handleRead, Server.handleWrite, hec]

theorem Server.step_move {c d : Server} {e : Server.Event} (h : c.step e = some d) :
    c.Move e d := by
  cases e with
  | call x =>
    simp only [Server.step, Option.some.injEq] at h
    obtain rfl := h
    exact .call x
  | accept ec address inside =>
    simp only [Server.step, Option.ite_none_right_eq_some, Option.some.injEq] at h
    obtain ⟨⟨_, hfree⟩, rfl⟩ := h
    by_cases hec : ec = 0
    · subst hec
      exact .accepted address inside (hfree rfl)
    · rw [Server.handleAccept, if_pos hec]
      exact .refused ec address inside hec
  | arrive s bytes =>
    simp only [Server.step, Option.ite_none_right_eq_some, Option.some.injEq] at h
    obtain ⟨hs, rfl⟩ := h
    exact .arrive s bytes hs
  | perform s packet =>
    simp only [Server.step, Option.ite_none_right_eq_some, Option.some.injEq] at h
    obtain ⟨⟨hop, hp⟩, rfl⟩ := h
    exact .perform s packet hop hp
  | complete s op ec inside =>
    simp only [Server.step, Option.ite_none_right_eq_some, Option.some.injEq] at h
    obtain ⟨⟨hop, hy⟩, rfl⟩ := h
    by_cases hec : ec = 0
    · subst hec
      cases op with
      | read => exact absurd rfl hy
      | received size => exact .packet s size inside hop
      | write chunk => exact .written s chunk inside hop
    · rw [Server.handle_error hec]
      exact .failed s op ec inside hop hec hy

end Sephi.Net.Tcp
