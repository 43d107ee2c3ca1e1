import Sephi.Storage
import Sephi.UdpReading

/-!
The sending side of `sephi::net::udp::Udp`, in the memory of its process: a send that has
been started keeps where its chunk was and how long it was, and not what it held.
-/

set_option autoImplicit false

namespace Sephi.Net.Udp
open Transition Storage

structure Send where
  ep : Endpoint
  chunk : Buffer
  -- what the chunk held when the send was started; nothing reads it
  given : Chunk
  deriving DecidableEq, Repr

/-- A datagram that was handed to the network. Its payload is `none` if memory was read
that had been released. -/
structure Handed where
  ep : Endpoint
  given : Chunk
  payload : Option Chunk
  deriving DecidableEq, Repr

structure Process where
  udp : Udp
  memory : Memory UInt8
  -- the `Chunk` that `handle_read` has made, while `message_handler_` runs
  message : Option Buffer
  sends : List Send
  -- the sends whose `handle_write` has not run
  ended : List (Endpoint × ErrorCode)
  -- the record of the run
  handed : List Handed
  errors : List (Remote × ErrorCode)

namespace Process

def asyncSendTo (p : Process) (ep : Endpoint) (chunk : Buffer) : Option Process :=
  (p.memory.load chunk).map fun given => { p with sends := p.sends ++ [⟨ep, chunk, given⟩] }

/-- Where `make_address` throws, nothing is sent. -/
def writeTo (makeAddress : String → Option UInt32) (p : Process) (remote : Remote)
    (chunk : Buffer) : Option Process :=
  match makeAddress remote.address with
  | none => some p
  | some address => p.asyncSendTo ⟨address, remote.port⟩ chunk

/-- `network_v4{}.broadcast()` -/
def broadcastAddress : UInt32 := 0xffffffff

def broadcast (p : Process) (port : UInt16) (chunk : Buffer) : Option Process :=
  p.asyncSendTo ⟨broadcastAddress, port⟩ chunk

def handleWrite (p : Process) (ep : Endpoint) (ec : ErrorCode) : Process :=
  if ec ≠ 0 then { p with errors := p.errors ++ [(toRemote ep, ec)] } else p

def perform (p : Process) (send : Send) (ec : ErrorCode) : Process :=
  let p := { p with sends := p.sends.erase send, ended := p.ended ++ [(send.ep, ec)] }
  if ec = 0 then
    { p with handed := p.handed ++ [⟨send.ep, send.given, p.memory.load send.chunk⟩] }
  else p

/-- `store` is any construction, reuse or overwriting of chunks by the application, and
`free` any destruction. The steps of the socket's own thread wait for `message_handler_`;
a started send may be carried out at any time. -/
inductive Event where
  | store (address : Nat) (content : Chunk)
  | free (chunk : Buffer)
  | writeTo (remote : Remote) (chunk : Buffer)
  | broadcast (port : UInt16) (chunk : Buffer)
  | arrive (d : Datagram)
  | readable
  | failed (ec : ErrorCode)
  | message (address : Nat)
  | handlerReturns
  | perform (send : Send) (ec : ErrorCode)
  | handleWrite (ep : Endpoint) (ec : ErrorCode)
  deriving DecidableEq, Repr

def reads (meaning : Available) (p : Process) (e : Udp.Event) : Option Process :=
  (p.udp.step meaning e).map fun udp => { p with udp := udp }

/-- `receive_from`, and then the `Chunk` for `message_handler_` is made at `address`. -/
def receive (p : Process) (address : Nat) (r : Reading) (d : Datagram)
    (rest : List Datagram) : Option Process :=
  let data := d.payload.take (min d.size r.available)
  if p.memory.Fresh ⟨address, data.length⟩ then
    some { p with
      udp := p.udp.receive r d rest
      memory := p.memory.store address data
      message := some ⟨address, data.length⟩ }
  else none

def step (meaning : Available) (makeAddress : String → Option UInt32) (p : Process) :
    Event → Option Process
  | .store address content => some { p with memory := p.memory.store address content }
  | .free chunk => some { p with memory := p.memory.free chunk }
  | .writeTo remote chunk => p.writeTo makeAddress remote chunk
  | .broadcast port chunk => p.broadcast port chunk
  | .arrive d => p.reads meaning (.arrive d)
  | .readable => if p.message = none then p.reads meaning .readable else none
  | .failed ec => if p.message = none then p.reads meaning (.failed ec) else none
  | .message address =>
    match p.message, p.udp.reading, p.udp.queue with
    | none, some r, d :: rest => p.receive address r d rest
    | _, _, _ => none
  | .handlerReturns =>
    p.message.map fun chunk => { p with memory := p.memory.free chunk, message := none }
  | .perform send ec => if send ∈ p.sends then some (p.perform send ec) else none
  | .handleWrite ep ec =>
    if p.message = none ∧ (ep, ec) ∈ p.ended then
      some (handleWrite { p with ended := p.ended.erase (ep, ec) } ep ec)
    else none

def start : Process where
  udp := Udp.start
  memory := .empty
  message := none
  sends := []
  ended := []
  handed := []
  errors := []

def machine (meaning : Available) (makeAddress : String → Option UInt32) :
    Machine Process Event :=
  ⟨start, step meaning makeAddress⟩

/-- Each datagram that was handed to the network carries what its chunk held when
`write_to` or `broadcast` was called. -/
def HandsGiven (p : Process) : Prop := ∀ d ∈ p.handed, d.payload = some d.given

def SendsGiven (p : Process) : Prop :=
  p.HandsGiven ∧ ∀ s ∈ p.sends, p.memory.load s.chunk = some s.given

/-- No chunk of a started send is changed or released. -/
def LeavesChunks (p : Process) : Event → Prop
  | .store address content => ∀ s ∈ p.sends, s.chunk.Left p.memory (p.memory.store address content)
  | .free chunk => ∀ s ∈ p.sends, s.chunk.Left p.memory (p.memory.free chunk)
  | .handlerReturns =>
    ∀ chunk ∈ p.message, ∀ s ∈ p.sends, s.chunk.Left p.memory (p.memory.free chunk)
  | _ => True

instance (p : Process) (e : Event) : Decidable (p.LeavesChunks e) := by
  cases e <;> unfold LeavesChunks <;> infer_instance

def FindsGiven (p : Process) : Event → Prop
  | .perform send ec => ec = 0 → p.memory.load send.chunk = some send.given
  | _ => True

instance (p : Process) (e : Event) : Decidable (p.FindsGiven e) := by
  cases e <;> unfold FindsGiven <;> infer_instance

def sending (p : Process) : Memory UInt8 × List Send × List Handed :=
  (p.memory, p.sends, p.handed)

inductive Move (p : Process) : Event → Process → Prop where
  | changed (e : Event) (m : Memory UInt8) (q : Process)
      (hq : q.sending = (m, p.sends, p.handed)) (hf : p.FindsGiven e)
      (he : p.LeavesChunks e ↔ ∀ s ∈ p.sends, s.chunk.Left p.memory m) : Move p e q
  | message (address : Nat) (data : Chunk) (q : Process)
      (hfresh : p.memory.Fresh ⟨address, data.length⟩)
      (hq : q.sending = (p.memory.store address data, p.sends, p.handed)) :
      Move p (.message address) q
  | started (e : Event) (s : Send) (q : Process)
      (hs : p.memory.load s.chunk = some s.given)
      (hq : q.sending = (p.memory, p.sends ++ [s], p.handed)) (hf : p.FindsGiven e)
      (he : p.LeavesChunks e) : Move p e q
  | performed (s : Send) (q : Process) (hs : s ∈ p.sends)
      (hq : q.sending = (p.memory, p.sends.erase s,
        p.handed ++ [⟨s.ep, s.given, p.memory.load s.chunk⟩])) :
      Move p (.perform s 0) q
  | failed (s : Send) (ec : ErrorCode) (q : Process) (hec : ec ≠ 0) (hs : s ∈ p.sends)
      (hq : q.sending = (p.memory, p.sends.erase s, p.handed)) : Move p (.perform s ec) q

theorem Move.idle {p q : Process} {e : Event} (hq : q.sending = p.sending)
    (hf : p.FindsGiven e) (he : p.LeavesChunks e) : p.Move e q :=
  .changed e p.memory q hq hf (iff_of_true he fun _ _ _ _ => rfl)

theorem asyncSendTo_move {p q : Process} {e : Event} {ep : Endpoint} {chunk : Buffer}
    (h : p.asyncSendTo ep chunk = some q) (hf : p.FindsGiven e) (he : p.LeavesChunks e) :
    p.Move e q := by
  obtain ⟨given, hload, rfl⟩ := Option.map_eq_some_iff.mp h
  exact .started e ⟨ep, chunk, given⟩ _ hload rfl hf he

theorem reads_move {meaning : Available} {p q : Process} {e : Event} {e' : Udp.Event}
    (h : p.reads meaning e' = some q) (hf : p.FindsGiven e) (he : p.LeavesChunks e) :
    p.Move e q := by
  obtain ⟨udp, _, rfl⟩ := Option.map_eq_some_iff.mp h
  exact .idle rfl hf he

theorem perform_move {p : Process} {send : Send} (hs : send ∈ p.sends) (ec : ErrorCode) :
    p.Move (.perform send ec) (p.perform send ec) := by
  by_cases hec : ec = 0
  · subst hec
    exact .performed send _ hs rfl
  · refine .failed send ec _ hec hs ?_
    simp only [perform, if_neg hec]
    rfl

theorem handleWrite_sending (p : Process) (ep : Endpoint) (ec : ErrorCode) :
    (p.handleWrite ep ec).sending = p.sending := by
  simp only [handleWrite]
  split <;> rfl

theorem step_move {meaning : Available} {makeAddress : String → Option UInt32}
    {p q : Process} {e : Event} (h : p.step meaning makeAddress e = some q) : p.Move e q := by
  cases e with
  | store address content =>
    obtain rfl := Option.some.inj h
    exact .changed _ _ _ rfl trivial Iff.rfl
  | free chunk =>
    obtain rfl := Option.some.inj h
    exact .changed _ _ _ rfl trivial Iff.rfl
  | writeTo remote chunk =>
    simp only [step, writeTo] at h
    split at h
    · obtain rfl := Option.some.inj h
      exact .idle rfl trivial trivial
    · exact asyncSendTo_move h trivial trivial
  | broadcast port chunk => exact asyncSendTo_move h trivial trivial
  | arrive d => exact reads_move h trivial trivial
  | readable =>
    simp only [step, Option.ite_none_right_eq_some] at h
    exact reads_move h.2 trivial trivial
  | failed ec =>
    simp only [step, Option.ite_none_right_eq_some] at h
    exact reads_move h.2 trivial trivial
  | message address =>
    simp only [step] at h
    split at h
    · simp only [receive, Option.ite_none_right_eq_some, Option.some.injEq] at h
      obtain ⟨hfresh, rfl⟩ := h
      exact .message address _ _ hfresh rfl
    · contradiction
  | handlerReturns =>
    obtain ⟨chunk, hchunk, rfl⟩ := Option.map_eq_some_iff.mp h
    refine .changed _ (p.memory.free chunk) _ rfl trivial ?_
    simp [LeavesChunks, hchunk]
  | perform send ec =>
    simp only [step, Option.ite_none_right_eq_some, Option.some.injEq] at h
    obtain ⟨hs, rfl⟩ := h
    exact perform_move hs ec
  | handleWrite ep ec =>
    simp only [step, Option.ite_none_right_eq_some, Option.some.injEq] at h
    obtain ⟨_, rfl⟩ := h
    exact .idle (handleWrite_sending _ ep ec) trivial trivial

theorem asyncSendTo_udp {p q : Process} {ep : Endpoint} {chunk : Buffer}
    (h : p.asyncSendTo ep chunk = some q) : q.udp = p.udp := by
  obtain ⟨_, _, rfl⟩ := Option.map_eq_some_iff.mp h
  rfl

theorem step_udp {meaning : Available} {makeAddress : String → Option UInt32} {p q : Process}
    {e : Event} (h : p.step meaning makeAddress e = some q) :
    q.udp = p.udp ∨ ∃ e', p.udp.step meaning e' = some q.udp := by
  have hreads : ∀ e', p.reads meaning e' = some q →
      ∃ e', p.udp.step meaning e' = some q.udp := by
    intro e' he
    obtain ⟨udp, hudp, rfl⟩ := Option.map_eq_some_iff.mp he
    exact ⟨e', hudp⟩
  cases e with
  | store address content | free chunk =>
    obtain rfl := Option.some.inj h
    exact .inl rfl
  | writeTo remote chunk =>
    simp only [step, writeTo] at h
    split at h
    · obtain rfl := Option.some.inj h
      exact .inl rfl
    · exact .inl (asyncSendTo_udp h)
  | broadcast port chunk => exact .inl (asyncSendTo_udp h)
  | arrive d => exact .inr (hreads _ h)
  | readable =>
    simp only [step, Option.ite_none_right_eq_some] at h
    exact .inr (hreads _ h.2)
  | failed ec =>
    simp only [step, Option.ite_none_right_eq_some] at h
    exact .inr (hreads _ h.2)
  | message address =>
    simp only [step] at h
    split at h
    · rename_i r d rest _ hr hq
      simp only [receive, Option.ite_none_right_eq_some, Option.some.injEq] at h
      obtain ⟨_, rfl⟩ := h
      exact .inr ⟨.receive, by simp [Udp.step, hr, hq]⟩
    · contradiction
  | handlerReturns =>
    obtain ⟨_, _, rfl⟩ := Option.map_eq_some_iff.mp h
    exact .inl rfl
  | perform send ec =>
    simp only [step, Option.ite_none_right_eq_some, Option.some.injEq] at h
    obtain ⟨_, rfl⟩ := h
    left
    simp only [perform]
    split <;> rfl
  | handleWrite ep ec =>
    simp only [step, Option.ite_none_right_eq_some, Option.some.injEq] at h
    obtain ⟨_, rfl⟩ := h
    left
    simp only [handleWrite]
    split <;> rfl

theorem reachable_udp {meaning : Available} {makeAddress : String → Option UInt32}
    {p : Process} (h : (machine meaning makeAddress).Reachable p) :
    (Udp.machine meaning).Reachable p.udp := by
  refine Machine.Reachable.invariant (I := fun p => (Udp.machine meaning).Reachable p.udp)
    .start (fun p e q hp hstep => ?_) h
  rcases step_udp hstep with hsame | ⟨e', hudp⟩
  · rw [hsame]
    exact hp
  · exact hp.step hudp

theorem receive_message {p q : Process} {address : Nat} {r : Reading} {d : Datagram}
    {rest : List Datagram} (h : p.receive address r d rest = some q) :
    ∃ chunk ∈ q.message, ∃ data, q.memory.load chunk = some data ∧
      q.udp.messages = p.udp.messages ++ [(toRemote d.sender, data)] := by
  simp only [receive, Option.ite_none_right_eq_some, Option.some.injEq] at h
  obtain ⟨_, rfl⟩ := h
  exact ⟨_, rfl, _, Memory.load_store _ _ _, loop_messages _ _ _⟩

theorem sendsGiven_iff {p : Process} {m : Memory UInt8} {sends : List Send}
    {handed : List Handed} (h : p.sending = (m, sends, handed)) :
    p.SendsGiven ↔ (∀ d ∈ handed, d.payload = some d.given) ∧
      ∀ s ∈ sends, m.load s.chunk = some s.given := by
  obtain ⟨rfl, rfl, rfl⟩ : p.memory = m ∧ p.sends = sends ∧ p.handed = handed := by
    simpa [sending] using h
  exact Iff.rfl

theorem Move.sendsGiven_iff {p q : Process} {e : Event} (h : p.Move e q)
    (hp : p.SendsGiven) : q.SendsGiven ↔ p.LeavesChunks e := by
  obtain ⟨hhanded, hpending⟩ := hp
  cases h with
  | changed e m q hq _ he =>
    rw [Process.sendsGiven_iff hq, he]
    have hleft : ∀ s ∈ p.sends, m.load s.chunk = some s.given ↔ s.chunk.Left p.memory m :=
      fun s hmem => Buffer.load_iff_left (hpending s hmem)
    exact ⟨fun hg s hmem => (hleft s hmem).mp (hg.2 s hmem),
      fun hl => ⟨hhanded, fun s hmem => (hleft s hmem).mpr (hl s hmem)⟩⟩
  | message address data q hfresh hq =>
    refine iff_of_true ((Process.sendsGiven_iff hq).mpr ⟨hhanded, fun s hmem => ?_⟩) trivial
    exact (Buffer.load_iff_left (hpending s hmem)).mpr (hfresh.left (hpending s hmem))
  | started e s q hload hq _ he =>
    refine iff_of_true ((Process.sendsGiven_iff hq).mpr ⟨hhanded, ?_⟩) he
    rw [List.forall_mem_append, List.forall_mem_singleton]
    exact ⟨hpending, hload⟩
  | performed s q hs hq =>
    refine iff_of_true ((Process.sendsGiven_iff hq).mpr ⟨?_, fun t ht => ?_⟩) trivial
    · rw [List.forall_mem_append, List.forall_mem_singleton]
      exact ⟨hhanded, hpending s hs⟩
    · exact hpending t (List.mem_of_mem_erase ht)
  | failed s ec q _ _ hq =>
    refine iff_of_true ((Process.sendsGiven_iff hq).mpr ⟨hhanded, fun t ht => ?_⟩) trivial
    exact hpending t (List.mem_of_mem_erase ht)

theorem Move.handsGiven_iff {p q : Process} {e : Event} (h : p.Move e q)
    (hp : p.HandsGiven) : q.HandsGiven ↔ p.FindsGiven e := by
  have hsame : q.handed = p.handed → p.FindsGiven e → (q.HandsGiven ↔ p.FindsGiven e) := by
    intro hh hf
    rw [HandsGiven, hh]
    exact iff_of_true hp hf
  cases h with
  | changed e m q hq hf _ => exact hsame (congrArg (·.2.2) hq) hf
  | message address data q _ hq => exact hsame (congrArg (·.2.2) hq) trivial
  | started e s q _ hq hf _ => exact hsame (congrArg (·.2.2) hq) hf
  | failed s ec q hec _ hq => exact hsame (congrArg (·.2.2) hq) fun hz => absurd hz hec
  | performed s q _ hq =>
    have hh : q.handed = p.handed ++ [⟨s.ep, s.given, p.memory.load s.chunk⟩] :=
      congrArg (·.2.2) hq
    rw [HandsGiven, hh]
    simp only [List.forall_mem_append, List.forall_mem_singleton]
    exact ⟨fun hg _ => hg.2, fun hf => ⟨hp, hf rfl⟩⟩

/-- In every run, all datagrams carry what was given, at whatever moment their sends are
carried out, exactly if no chunk of a started send is changed or released; and those that
were handed over do exactly if each found its chunk as it was. -/
theorem sends_given_iff_chunks_left (meaning : Available)
    (makeAddress : String → Option UInt32) (es : List Event) (p : Process)
    (h : (machine meaning makeAddress).run es = some p) :
    ((machine meaning makeAddress).Throughout SendsGiven es ↔
      (machine meaning makeAddress).EachStep LeavesChunks es) ∧
    ((machine meaning makeAddress).Throughout HandsGiven es ↔
      (machine meaning makeAddress).EachStep FindsGiven es) := by
  constructor
  · refine Machine.throughout_iff_eachStep (I := SendsGiven) ?_ (fun _ hp => hp) ?_ ?_ h
    · exact ⟨fun _ hd => (nomatch hd), fun _ hs => (nomatch hs)⟩
    · exact fun _ _ _ hp he hs => ((step_move hs).sendsGiven_iff hp).mpr he
    · exact fun _ _ _ hp he hs hq => he (((step_move hs).sendsGiven_iff hp).mp hq)
  · refine Machine.throughout_iff_eachStep (I := HandsGiven) ?_ (fun _ hp => hp) ?_ ?_ h
    · exact fun _ hd => (nomatch hd)
    · exact fun _ _ _ hp he hs => ((step_move hs).handsGiven_iff hp).mpr he
    · exact fun _ _ _ hp he hs hq => he (((step_move hs).handsGiven_iff hp).mp hq)

def localAddress (address : String) : Option UInt32 :=
  if address = "127.0.0.1" then some localPeer.address else none

def keepsChunk : List Event :=
  [.store 100 [7, 8], .writeTo ⟨"127.0.0.1", 65001⟩ ⟨100, 2⟩, .broadcast 65001 ⟨100, 2⟩,
    .perform ⟨⟨broadcastAddress, 65001⟩, ⟨100, 2⟩, [7, 8]⟩ 0,
    .perform ⟨localPeer, ⟨100, 2⟩, [7, 8]⟩ 0, .free ⟨100, 2⟩, .handleWrite localPeer 0]

theorem sends_given_keepsChunk :
    (machine .first localAddress).Throughout SendsGiven keepsChunk ∧
    (machine .first localAddress).Throughout HandsGiven keepsChunk := by
  obtain ⟨hsends, hhands⟩ := sends_given_iff_chunks_left .first localAddress keepsChunk _ rfl
  exact ⟨hsends.mpr (Machine.eachStep_of_checks (by decide)),
    hhands.mpr (Machine.eachStep_of_checks (by decide))⟩

/-- `message_handler_` sends back the chunk that it is given. When it returns, the chunk
is destroyed, and the next one takes its place. -/
def echoesChunk : List Event :=
  [.arrive ⟨localPeer, [1]⟩, .readable, .message 100, .writeTo ⟨"127.0.0.1", 65001⟩ ⟨100, 1⟩,
    .handlerReturns, .arrive ⟨localPeer, [2]⟩, .readable, .message 100,
    .perform ⟨localPeer, ⟨100, 1⟩, [1]⟩ 0]

theorem echo_sends_next_message :
    ∃ p, (machine .first localAddress).run echoesChunk = some p ∧
      p.handed = [⟨localPeer, [1], some [2]⟩] ∧ ¬ p.HandsGiven := by
  obtain ⟨p, hrun, hhanded⟩ : ∃ p, (machine .first localAddress).run echoesChunk = some p ∧
      p.handed = [⟨localPeer, [1], some [2]⟩] := ⟨_, rfl, rfl⟩
  refine ⟨p, hrun, hhanded, fun h => ?_⟩
  have heq := h ⟨localPeer, [1], some [2]⟩ (by simp [hhanded])
  simp at heq

end Process

end Sephi.Net.Udp
