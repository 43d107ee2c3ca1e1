import Sephi.TcpClient

set_option autoImplicit false

namespace Sephi.Net.Tcp
open Transition

/-- A shutdown has been applied only to the socket that `close` was called on. -/
def Client.ShutOwn (c : Client) : Prop := ∀ p ∈ c.shutdowns, p.2 = p.1

def Client.ShutsOwn (c : Client) : Prop :=
  c.ShutOwn ∧ ∀ k, .shutdown k ∈ c.tasks → k = c.socket

/-- When a shutdown runs, `reconnect` has not been called since its `close`. -/
def Client.ShutsCurrent (c : Client) : Client.Event → Prop
  | .task _ => ∀ k, c.tasks.head? = some (.shutdown k) → k = c.socket
  | _ => True

def Client.ReconnectsClear : Client → List Client.Call → Prop
  | _, [] => True
  | c, x :: xs =>
    (x = .reconnect → ∀ task ∈ c.tasks, task.chunk? ≠ none) ∧ (c.call x).ReconnectsClear xs

/-- `reconnect` is never called while a shutdown is posted. -/
def Client.ClosesFirst (c : Client) : Client.Event → Prop
  | .call x => c.ReconnectsClear [x]
  | .complete op ec inside =>
    ∀ d ∈ c.within (.complete op ec []), d.ReconnectsClear inside
  | .task _ | .arrive _ _ | .perform _ _ => True

instance Client.decidableReconnectsClear :
    (c : Client) → (xs : List Client.Call) → Decidable (c.ReconnectsClear xs)
  | _, [] => .isTrue trivial
  | c, x :: xs =>
    have := Client.decidableReconnectsClear (c.call x) xs
    inferInstanceAs (Decidable ((x = .reconnect → ∀ task ∈ c.tasks, task.chunk? ≠ none) ∧ _))

instance (c : Client) (e : Client.Event) : Decidable (c.ClosesFirst e) := by
  cases e <;> unfold Client.ClosesFirst <;> infer_instance

theorem Client.calls_shutdowns (c : Client) (xs : List Client.Call) :
    (c.calls xs).shutdowns = c.shutdowns := by
  obtain ⟨st, n, ts, hc, _, _⟩ := c.calls_spec xs
  simp [hc]

def Client.closing (c : Client) : List (Nat × Nat) × List Client.Task × Nat :=
  (c.shutdowns, c.tasks, c.socket)

theorem Client.ShutsOwn.congr {c d : Client} (h : c.ShutsOwn) (hd : d.closing = c.closing) :
    d.ShutsOwn := by
  simp only [Client.closing, Prod.mk.injEq] at hd
  obtain ⟨hs, ht, hk⟩ := hd
  refine ⟨fun p hp => h.1 p (hs ▸ hp), fun k hmem => ?_⟩
  rw [hk]
  exact h.2 k (ht ▸ hmem)

@[simp] theorem Client.doWrite_closing (c : Client) : c.doWrite.closing = c.closing := by
  unfold Client.doWrite
  split <;> rfl

@[simp] theorem Client.writeTask_closing (c : Client) (chunk : Chunk) :
    (c.writeTask chunk).closing = c.closing := by
  simp only [Client.writeTask]
  split
  · rw [Client.doWrite_closing]
    rfl
  · rfl

@[simp] theorem Client.handleWrite_closing (c : Client) (k : Nat) (chunk : Chunk)
    (inside : List Client.Call) : (c.handleWrite k chunk 0 inside).closing = c.closing := by
  simp only [Client.handleWrite, ne_eq, not_true_eq_false, if_false]
  split
  · rw [Client.doWrite_closing]
    rfl
  · rfl

@[simp] theorem Client.settle_closing (c : Client) : c.settle.closing = c.closing := by
  unfold Client.settle
  split <;> rfl

theorem Client.ShutsOwn.shutdown {c : Client} (h : c.ShutsOwn) {k : Nat}
    {rest : List Client.Task} (ht : c.tasks = .shutdown k :: rest) (ec : ErrorCode) :
    (Client.runTask { c with tasks := rest } ec (.shutdown k)).ShutsOwn := by
  have hcurrent : k = c.socket := h.2 k (ht ▸ List.mem_cons_self)
  have happlied : Client.ShutsOwn { c with
      tasks := rest, shutdowns := c.shutdowns ++ [(k, c.socket)] } := by
    refine ⟨fun p hp => ?_, fun i hi => h.2 i (ht ▸ List.mem_cons_of_mem _ hi)⟩
    rcases List.mem_append.mp hp with hp | hp
    · exact h.1 p hp
    · obtain rfl := List.mem_singleton.mp hp
      exact hcurrent.symm
  simp only [Client.runTask]
  split
  · exact happlied.congr rfl
  · exact happlied

theorem Client.ShutsOwn.call {c : Client} (h : c.ShutsOwn) {x : Client.Call}
    (hx : x = .reconnect → ∀ task ∈ c.tasks, task.chunk? ≠ none) : (c.call x).ShutsOwn := by
  refine ⟨fun p hp => h.1 p (Client.calls_shutdowns c [x] ▸ hp), fun k hk => ?_⟩
  cases x with
  | write chunk =>
    cases hc : c.isConnected <;> simp [Client.call, Client.write, hc] at hk ⊢
    · exact h.2 k hk
    · exact h.2 k hk
  | close =>
    cases hc : c.isConnected <;> simp [Client.call, Client.close, hc] at hk ⊢
    · exact h.2 k hk
    · exact hk.elim (h.2 k) id
  | reconnect =>
    exact absurd rfl (hx rfl _ hk)

theorem Client.ShutsOwn.calls {c : Client} (h : c.ShutsOwn) {xs : List Client.Call}
    (hxs : c.ReconnectsClear xs) : (c.calls xs).ShutsOwn := by
  induction xs generalizing c with
  | nil => exact h
  | cons x xs ih => exact ih (h.call hxs.1) hxs.2

theorem Client.calls_misdirected {c : Client} {k : Nat} (hk : .shutdown k ∈ c.tasks)
    (hlt : k < c.socket) (xs : List Client.Call) : ¬ (c.calls xs).ShutsOwn := by
  obtain ⟨st, n, ts, hc, _, _⟩ := c.calls_spec xs
  rw [hc]
  intro hown
  have heq : k = c.socket + n := hown.2 k (List.mem_append_left ts hk)
  omega

theorem Client.ShutsOwn.calls_break {c : Client} (h : c.ShutsOwn) {xs : List Client.Call}
    (hxs : ¬ c.ReconnectsClear xs) : ¬ (c.calls xs).ShutsOwn := by
  induction xs generalizing c with
  | nil => exact absurd trivial hxs
  | cons x xs ih =>
    by_cases hx : x = .reconnect → ∀ task ∈ c.tasks, task.chunk? ≠ none
    · exact ih (h.call hx) fun hrest => hxs ⟨hx, hrest⟩
    · simp only [Classical.not_imp, not_forall, not_not] at hx
      obtain ⟨rfl, task, htask, hnone⟩ := hx
      cases task with
      | write chunk => simp [Client.Task.chunk?] at hnone
      | shutdown k =>
        have hlt : k < c.reconnect.socket := (h.2 k htask).symm ▸ Nat.lt_succ_self c.socket
        exact Client.calls_misdirected (c := c.reconnect) htask hlt xs

theorem Client.within_closing {c d : Client} {op : Client.Op} {ec : ErrorCode}
    (hd : c.within (.complete op ec []) = some d) : d.closing = c.closing := by
  by_cases hec : ec = 0
  · cases op with
    | connect k | received k size =>
      simp only [Client.within, hec, ne_eq, not_true_eq_false, if_false, Option.some.injEq] at hd
      subst hd
      rfl
    | read k | write k chunk => simp [Client.within, hec] at hd
  · simp only [Client.within, hec, ne_eq, not_false_eq_true, if_true, Option.some.injEq] at hd
    subst hd
    rfl

theorem Client.ShutsOwn.calls_iff {c : Client} (h : c.ShutsOwn) (xs : List Client.Call) :
    (c.calls xs).ShutsOwn ↔ c.ReconnectsClear xs :=
  ⟨fun hxs => Decidable.byContradiction fun hn => h.calls_break hn hxs, h.calls⟩

theorem Client.ShutsOwn.inside_iff {c d t : Client} (h : c.ShutsOwn) (op : Client.Op)
    {ec : ErrorCode} {inside : List Client.Call}
    (hd : c.within (.complete op ec []) = some d) (ht : t.closing = (d.calls inside).closing) :
    t.ShutsOwn ↔ c.ClosesFirst (.complete op ec inside) := by
  have hiff := (h.congr (Client.within_closing hd)).calls_iff inside
  constructor
  · intro hown a ha
    obtain rfl : d = a := Option.some.inj (hd.symm.trans ha)
    exact hiff.mp (hown.congr ht.symm)
  · intro hfirst
    exact (hiff.mpr (hfirst d hd)).congr ht

theorem Client.Move.shutsOwn_iff {c d : Client} {e : Client.Event} (h : c.Move e d)
    (hown : c.ShutsOwn) : d.ShutsOwn ↔ c.ClosesFirst e := by
  cases h with
  | call x => exact hown.calls_iff [x]
  | queued chunk rest ec _ ht =>
    have hrest : Client.ShutsOwn { c with tasks := rest } :=
      ⟨hown.1, fun k hk => hown.2 k (ht ▸ List.mem_cons_of_mem _ hk)⟩
    exact iff_of_true (hrest.congr (Client.writeTask_closing _ chunk)) trivial
  | shutdown k rest ec _ ht => exact iff_of_true (hown.shutdown ht ec) trivial
  | arrive k bytes => exact iff_of_true (hown.congr rfl) trivial
  | perform k packet => exact iff_of_true (hown.congr rfl) trivial
  | failed op ec inside _ _ hec =>
    exact hown.inside_iff op (if_pos hec) rfl
  | opened k inside => exact hown.inside_iff (.connect k) rfl rfl
  | packet k size inside => exact hown.inside_iff (.received k size) rfl rfl
  | written k chunk inside =>
    exact iff_of_true (hown.congr (Client.handleWrite_closing _ k chunk inside)) fun a ha =>
      nomatch ha

theorem Client.settle_shutsOwn (c : Client) : c.settle.ShutsOwn ↔ c.ShutsOwn :=
  ⟨fun h => h.congr c.settle_closing.symm, fun h => h.congr c.settle_closing⟩

theorem Client.Move.shutdowns {c d : Client} {e : Client.Event} (h : c.Move e d) :
    (c.ShutsCurrent e ∧ d.shutdowns = c.shutdowns) ∨
    ∃ k ec, e = .task ec ∧ c.tasks.head? = some (.shutdown k) ∧
      d.shutdowns = c.shutdowns ++ [(k, c.socket)] := by
  cases h with
  | call x => exact .inl ⟨trivial, Client.calls_shutdowns c [x]⟩
  | queued chunk rest ec _ ht =>
    refine .inl ⟨fun k hk => ?_, congrArg Prod.fst (Client.writeTask_closing _ chunk)⟩
    simp [ht] at hk
  | shutdown k rest ec _ ht =>
    refine .inr ⟨k, ec, rfl, by simp [ht], ?_⟩
    simp only [Client.runTask]
    split <;> rfl
  | arrive k bytes => exact .inl ⟨trivial, rfl⟩
  | perform k packet => exact .inl ⟨trivial, rfl⟩
  | failed op ec inside => exact .inl ⟨trivial, Client.calls_shutdowns _ inside⟩
  | opened k inside => exact .inl ⟨trivial, Client.calls_shutdowns _ inside⟩
  | packet k size inside => exact .inl ⟨trivial, Client.calls_shutdowns _ inside⟩
  | written k chunk inside =>
    exact .inl ⟨trivial, congrArg Prod.fst (Client.handleWrite_closing _ k chunk inside)⟩

theorem Client.Move.shutOwn_iff {c d : Client} {e : Client.Event} (h : c.Move e d)
    (hown : c.ShutOwn) : d.ShutOwn ↔ c.ShutsCurrent e := by
  rcases h.shutdowns with ⟨hcurrent, hs⟩ | ⟨k, ec, rfl, hk, hs⟩
  · refine iff_of_true ?_ hcurrent
    rwa [Client.ShutOwn, hs]
  · simp only [Client.ShutOwn, hs, List.forall_mem_append, List.forall_mem_singleton,
      Client.ShutsCurrent, hk]
    constructor
    · rintro ⟨_, hlast⟩ i hi
      obtain rfl : k = i := by simpa using hi
      exact hlast.symm
    · exact fun hcurrent => ⟨hown, (hcurrent k rfl).symm⟩

/-- All shutdowns, posted ones included, are sent where they belong exactly in the runs
in which `reconnect` is never called while one is posted; and none was applied elsewhere
exactly in those in which none runs after a `reconnect` that came after its `close`. -/
theorem shutdowns_reach_own_socket_iff (es : List Client.Event) (c : Client)
    (h : Client.machine.run es = some c) :
    (Client.machine.Throughout Client.ShutsOwn es ↔
      Client.machine.EachStep Client.ClosesFirst es) ∧
    (Client.machine.Throughout Client.ShutOwn es ↔
      Client.machine.EachStep Client.ShutsCurrent es) := by
  constructor
  · refine Machine.throughout_iff_eachStep (I := Client.ShutsOwn) ?_ (fun _ hs => hs) ?_ ?_ h
    · exact ⟨fun p hp => (nomatch hp), fun k hk => (nomatch hk)⟩
    · intro s e t hs he hstep
      obtain ⟨d, hm, rfl⟩ := Client.step_move hstep
      exact d.settle_shutsOwn.mpr ((hm.shutsOwn_iff hs).mpr he)
    · intro s e t hs he hstep hown
      obtain ⟨d, hm, rfl⟩ := Client.step_move hstep
      exact he ((hm.shutsOwn_iff hs).mp (d.settle_shutsOwn.mp hown))
  · refine Machine.throughout_iff_eachStep (I := Client.ShutOwn) ?_ (fun _ hs => hs) ?_ ?_ h
    · exact fun p hp => (nomatch hp)
    · intro s e t hs he hstep
      obtain ⟨d, hm, rfl⟩ := Client.step_move hstep
      rw [Client.ShutOwn, show d.settle.shutdowns = d.shutdowns from
        congrArg Prod.fst d.settle_closing]
      exact (hm.shutOwn_iff hs).mpr he
    · intro s e t hs he hstep hown
      obtain ⟨d, hm, rfl⟩ := Client.step_move hstep
      rw [Client.ShutOwn, show d.settle.shutdowns = d.shutdowns from
        congrArg Prod.fst d.settle_closing] at hown
      exact he ((hm.shutOwn_iff hs).mp hown)

def closeThenReconnect : List Client.Event :=
  [.complete (.connect 1) 0 [], .call .close, .task 0, .complete (.read 1) 2 [.reconnect],
    .complete (.connect 2) 0 []]

theorem shutdowns_reach_own_socket_closeThenReconnect :
    Client.machine.Throughout Client.ShutsOwn closeThenReconnect := by
  refine (shutdowns_reach_own_socket_iff closeThenReconnect _ rfl).1.mpr ?_
  exact Machine.eachStep_of_checks (by decide)

/-- `reconnect` straight after `close`: the shutdown of the first socket meets the second,
which is not connected, and the exception (`ENOTCONN`) ends the thread. -/
theorem shutdown_hits_next_socket :
    ∃ c, Client.machine.run [.complete (.connect 1) 0 [], .call .close, .call .reconnect,
        .task 107] = some c ∧
      c.shutdowns = [(1, 2)] ∧ c.runner = .terminated ∧ ¬ c.ShutOwn := by
  obtain ⟨c, hrun, hs, hr⟩ : ∃ c, Client.machine.run [.complete (.connect 1) 0 [],
        .call .close, .call .reconnect, .task 107] = some c ∧
      c.shutdowns = [(1, 2)] ∧ c.runner = .terminated := ⟨_, rfl, rfl, rfl⟩
  refine ⟨c, hrun, hs, hr, fun h => ?_⟩
  have heq := h (1, 2) (by simp [hs])
  simp at heq

end Sephi.Net.Tcp
