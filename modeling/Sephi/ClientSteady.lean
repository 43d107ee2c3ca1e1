import Sephi.ClientReading
import Sephi.ClientSending

set_option autoImplicit false

namespace Sephi.Net.Tcp
open Transition

theorem Client.calls_writes (c : Client) {inside : List Client.Call}
    (h : inside.all Client.Call.isWrite = true) :
    ∃ l : List Chunk, c.calls inside = { c with
      tasks := c.tasks ++ l.map .write, accepted := c.accepted ++ l } := by
  induction inside generalizing c with
  | nil => exact ⟨[], by simp [Client.calls]⟩
  | cons x inside ih =>
    simp only [List.all_cons, Bool.and_eq_true] at h
    cases x with
    | close => simp [Client.Call.isWrite] at h
    | reconnect => simp [Client.Call.isWrite] at h
    | write chunk =>
      obtain ⟨l, hl⟩ := ih (c.call (.write chunk)) h.2
      have hcalls : c.calls (.write chunk :: inside) =
          (c.call (.write chunk)).calls inside := rfl
      cases hc : c.isConnected with
      | true =>
        have hw : c.call (.write chunk) = { c with
            tasks := c.tasks ++ [.write chunk], accepted := c.accepted ++ [chunk] } := by
          simp [Client.call, Client.write, hc]
        refine ⟨chunk :: l, ?_⟩
        rw [hcalls, hl, hw]
        simp
      | false =>
        have hw : c.call (.write chunk) = c := by simp [Client.call, Client.write, hc]
        rw [hw] at hl
        refine ⟨l, ?_⟩
        rw [hcalls, hw]
        exact hl

def Client.Event.Smooth : Client.Event → Prop
  | .call x => x.isWrite = true
  | .task _ | .arrive _ _ | .perform _ _ => True
  | .complete _ ec inside => ec = 0 ∧ inside.all Client.Call.isWrite = true

def Client.Op.listens (op : Client.Op) : Bool := op.chunk?.isNone

/-- The client is still on its first socket, with one connect or read outstanding. -/
structure Client.Steady (c : Client) : Prop where
  socket : c.socket = 1
  sockets : ∀ op ∈ c.ops, op.socket = 1
  listening : c.ops.countP Client.Op.listens ≤ 1
  caused : ∀ r ∈ c.reports, r.cause = 1
  inbox : c.inbox.Sound

theorem Client.Steady.frame {c d : Client} (h : c.Steady) (hs : d.socket = c.socket)
    (ho : d.ops = c.ops) (hr : d.reports = c.reports) (hi : d.inbox = c.inbox) :
    d.Steady :=
  ⟨hs.trans h.socket, ho ▸ h.sockets, ho ▸ h.listening, hr ▸ h.caused, hi ▸ h.inbox⟩

theorem Client.Steady.calls {c : Client} (h : c.Steady) {inside : List Client.Call}
    (hw : inside.all Client.Call.isWrite = true) : (c.calls inside).Steady := by
  have hi := c.calls_inbox inside
  obtain ⟨l, hl⟩ := c.calls_writes hw
  rw [hl] at hi ⊢
  exact h.frame rfl rfl rfl hi

theorem Client.countP_listens {l : List Client.Op} {op : Client.Op} (hop : op ∈ l) :
    l.countP Client.Op.listens =
      (l.erase op).countP Client.Op.listens + if op.listens then 1 else 0 := by
  rw [(List.perm_cons_erase hop).countP_eq, List.countP_cons]

theorem Client.Steady.reads_eq_nil {c : Client} (h : c.Steady) {k : Nat}
    (hop : .connect k ∈ c.ops) : c.ops.filterMap Client.Op.reading? = [] := by
  have herase : (c.ops.erase (.connect k)).countP Client.Op.listens = 0 := by
    have hcount := Client.countP_listens hop
    have hone := h.listening
    have hlistens : (Client.Op.connect k).listens = true := rfl
    rw [hlistens, if_pos rfl] at hcount
    omega
  rw [List.filterMap_eq_nil_iff]
  intro op hmem
  have hno : op.listens = true → op = .connect k := by
    intro hl
    by_contra hne
    exact absurd hl (List.countP_eq_zero.mp herase op ((List.mem_erase_of_ne hne).mpr hmem))
  cases op with
  | connect j => rfl
  | write j chunk => rfl
  | read j => simp [Client.Op.listens, Client.Op.chunk?] at hno
  | received j size => simp [Client.Op.listens, Client.Op.chunk?] at hno

theorem Client.Steady.opensAlone {c : Client} (h : c.Steady) {e : Client.Event}
    {d : Client} (hm : c.Move e d) : c.OpensAlone e := by
  cases hm with
  | opened k inside hr hop => exact fun _ => h.reads_eq_nil hop
  | failed op ec inside hr hop hec =>
    cases op with
    | connect k => exact fun h0 => absurd h0 hec
    | read k | received k size | write k chunk => trivial
  | call | queued | shutdown | arrive | perform | packet | written => trivial

theorem Client.countP_erase_add {l : List Client.Op} {op op' : Client.Op} (hop : op ∈ l)
    (hl : op'.listens = true → op.listens = true) :
    (l.erase op ++ [op']).countP Client.Op.listens ≤ l.countP Client.Op.listens := by
  rw [Client.countP_listens hop, List.countP_append, List.countP_singleton]
  cases h' : op'.listens with
  | false => simp
  | true => simp [hl h']

theorem Client.doWrite_listening (c : Client) :
    c.doWrite.ops.countP Client.Op.listens = c.ops.countP Client.Op.listens := by
  cases hm : c.sendingMessages <;>
    simp [Client.doWrite, hm, Client.Op.listens, Client.Op.chunk?]

theorem Client.Steady.doWrite {c : Client} (h : c.Steady) : c.doWrite.Steady := by
  refine ⟨?_, ?_, c.doWrite_listening ▸ h.listening, ?_, c.doWrite_inbox ▸ h.inbox⟩
  · cases hm : c.sendingMessages <;> simp [Client.doWrite, hm, h.socket]
  · cases hm : c.sendingMessages with
    | nil => simpa [Client.doWrite, hm] using h.sockets
    | cons message rest =>
      intro op hop
      simp only [Client.doWrite, hm, List.mem_append, List.mem_singleton] at hop
      rcases hop with hop | rfl
      · exact h.sockets op hop
      · exact h.socket
  · cases hm : c.sendingMessages <;> simpa [Client.doWrite, hm] using h.caused

theorem Client.Steady.settle {c : Client} (h : c.Steady) : c.settle.Steady := by
  have hi := c.settle_inbox
  unfold Client.settle at hi ⊢
  split
  · rename_i hs
    rw [if_pos hs] at hi
    exact h.frame rfl rfl rfl hi
  · exact h

theorem Client.mem_erase_add {l : List Client.Op} {op op' x : Client.Op}
    (hx : x ∈ l.erase op ++ [op']) : x ∈ l ∨ x = op' := by
  rcases List.mem_append.mp hx with hx | hx
  · exact .inl (List.mem_of_mem_erase hx)
  · exact .inr (List.mem_singleton.mp hx)

theorem Client.Steady.reported {c d : Client} (h : c.Steady) {op : Client.Op}
    (hop : op ∈ c.ops) (hl : op.listens = true) {inside : List Client.Call}
    (hw : inside.all Client.Call.isWrite = true) {st : ConnectionState} {hs : List Completion}
    {callback : Client.Callback}
    (hd : d = (Client.calls { c with
      connectionState := st, ops := c.ops.erase op, handled := hs
      reports := c.reports ++ [⟨c.socket, op.socket, callback⟩] } inside).doRead)
    (hi : d.inbox.Sound) : d.Steady := by
  obtain ⟨l, hcalls⟩ := Client.calls_writes { c with
      connectionState := st, ops := c.ops.erase op, handled := hs
      reports := c.reports ++ [⟨c.socket, op.socket, callback⟩] } hw
  rw [hcalls] at hd
  subst hd
  refine ⟨h.socket, fun x hx => ?_, ?_, fun r hr => ?_, hi⟩
  · rcases Client.mem_erase_add hx with hx | rfl
    · exact h.sockets x hx
    · exact h.socket
  · exact Nat.le_trans (Client.countP_erase_add hop fun _ => hl) h.listening
  · rcases List.mem_append.mp hr with hr | hr
    · exact h.caused r hr
    · obtain rfl := List.mem_singleton.mp hr
      exact h.sockets op hop

theorem Client.Move.steady {c d : Client} {e : Client.Event} (h : c.Move e d)
    (hc : c.Steady) (he : e.Smooth) : d.Steady := by
  have hi := h.inbox_sound hc.inbox (hc.opensAlone h)
  cases h with
  | call x =>
    have hw : [x].all Client.Call.isWrite = true := by
      simpa [Client.Event.Smooth] using he
    exact hc.calls hw
  | queued chunk rest ec =>
    have hq : Client.Steady { c with
        tasks := rest, sendingMessages := c.sendingMessages ++ [chunk] } :=
      hc.frame rfl rfl rfl rfl
    simp only [Client.writeTask]
    split
    · exact hq.doWrite
    · exact hq
  | shutdown k rest ec =>
    simp only [Client.runTask]
    split
    · exact hc.frame rfl rfl rfl rfl
    · exact hc.frame rfl rfl rfl rfl
  | arrive k bytes => exact ⟨hc.socket, hc.sockets, hc.listening, hc.caused, hi⟩
  | perform k packet _ hop hk =>
    refine ⟨hc.socket, fun x hx => ?_, ?_, hc.caused, hi⟩
    · rcases Client.mem_erase_add hx with hx | rfl
      · exact hc.sockets x hx
      · exact hk.trans hc.socket
    · exact Nat.le_trans (Client.countP_erase_add hop fun _ => rfl) hc.listening
  | failed op ec inside _ _ hec => exact absurd he.1 hec
  | opened k inside _ hop => exact hc.reported hop rfl he.2 rfl hi
  | packet k size inside _ hop => exact hc.reported hop rfl he.2 rfl hi
  | written k chunk inside _ hop =>
    have hb : Client.Steady { c.begin (.write k chunk) 0 with
        sendingMessages := c.sendingMessages.tail, sent := c.sent ++ [chunk] } := by
      refine ⟨hc.socket, fun x hx => hc.sockets x (List.mem_of_mem_erase hx), ?_, hc.caused,
        ?_⟩
      · exact Nat.le_trans (List.erase_sublist.countP_le) hc.listening
      · exact (Client.begin_inbox hop rfl 0).symm ▸ hc.inbox
    simp only [Client.handleWrite, ne_eq, not_true_eq_false, if_false]
    split
    · exact hb.doWrite
    · exact hb

theorem Client.steady_start : Client.start.Steady := by
  refine ⟨rfl, ?_, Nat.le_refl 1, ?_, Client.inbox_sound_start⟩
  · intro op hop
    obtain rfl := List.mem_singleton.mp hop
    rfl
  · intro r hr
    simp [Client.start, Client.doConnect] at hr

end Sephi.Net.Tcp
