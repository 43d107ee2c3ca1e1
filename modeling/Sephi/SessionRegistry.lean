import Sephi.ServerThreads

set_option autoImplicit false

namespace Sephi.Net.Tcp
open Transition

namespace Server.Threads

def leaves (c : Threads) : Event → Option Nat
  | .turn k _ ec => if ec ≠ 0 then none else c.closing[k]?.map (·.node.2)
  | .complete s _ ec => if ec ≠ 0 then some s else none
  | .write _ | .close _ | .accept _ _ | .arrive _ _ | .perform _ _ | .resume _ => none

def emplaces (c : Threads) : Event → Option Nat
  | .resume _ =>
    match c.handling with
    | some (.accept s) => some s
    | some (.read _) | some (.leave _) | none => none
  | .write _ | .close _ | .turn _ _ _ | .accept _ _ | .arrive _ _ | .perform _ _
  | .complete _ _ _ => none

/-- Each step leaves the map as it is, emplaces its session under a key that is new, or
takes the session out that it hands to `leave`. -/
structure RegistrySound (c : Threads) (e : Event) (d : Threads) : Prop where
  emplaced : ∀ s, c.emplaces e = some s →
    c.server.sessions.lookup (c.server.session s).address = none ∧
    d.server.sessions = c.server.sessions.insert (c.server.session s).address s
  left : ∀ s, c.leaves e = some s → ∀ id t,
    d.server.sessions.lookup id = some t ↔ c.server.sessions.lookup id = some t ∧ t ≠ s
  kept : c.emplaces e = none → c.leaves e = none → d.server.sessions = c.server.sessions

theorem RegistrySound.of_kept {c d : Threads} {e : Event} (he : c.emplaces e = none)
    (hl : c.leaves e = none) (h : d.server.sessions = c.server.sessions) :
    RegistrySound c e d :=
  ⟨fun s hs => absurd (he.symm.trans hs) (Option.some_ne_none s).symm,
    fun s hs => absurd (hl.symm.trans hs) (Option.some_ne_none s).symm, fun _ _ => h⟩

theorem RegistrySound.of_left {c d : Threads} {e : Event} {s : Nat}
    (he : c.emplaces e = none) (hl : c.leaves e = some s)
    (h : ∀ id t, d.server.sessions.lookup id = some t ↔
      c.server.sessions.lookup id = some t ∧ t ≠ s) : RegistrySound c e d := by
  refine ⟨fun t ht => absurd (he.symm.trans ht) (Option.some_ne_none t).symm,
    fun t ht => ?_, fun _ hnone => absurd (hl.symm.trans hnone) (Option.some_ne_none s)⟩
  obtain rfl := Option.some.inj (hl.symm.trans ht)
  exact h

theorem Move.registrySound {c d : Threads} {e : Event} (h : c.Move e d) (hc : c.Integrity)
    (he : c.Steady e) : RegistrySound c e d := by
  cases h with
  | write w => exact .of_kept rfl rfl (c.server.write_sessions w)
  | close order =>
    refine .of_kept rfl rfl ?_
    unfold Threads.close
    split <;> rfl
  | thrown k iter order ec hiter hec => exact .of_kept rfl (if_pos hec) rfl
  | turned k iter order closing hiter =>
    have hvalid := he iter hiter
    refine .of_left (s := iter.node.2) rfl ?_ ?_
    · simp [leaves, hiter]
    · exact Server.leave_lookup (hc.server.narrows (c.server.narrows_record _))
        (.inl (Server.registered_iff.mpr ⟨iter.node.1, hvalid.2⟩)) 0
  | refused | announced | arrive | perform | packet | written => exact .of_kept rfl rfl rfl
  | failed s op ec hidle hop hec =>
    exact .of_left rfl (if_pos hec)
      (Server.leave_lookup ((hc.idle hidle).begin hop) Server.live_held ec)
  | resumed rehash handler hhandling =>
    cases handler with
    | accept s =>
      have hnone : c.server.sessions.lookup (c.server.session s).address = none := by
        have hheld : s ∈ c.held := by simp [held, hhandling, Handler.session]
        exact hc.server.lookup_none (.inr (.inr hheld)) (hc.announced s hhandling)
      have hs : c.emplaces (.resume rehash) = some s := by simp [emplaces, hhandling]
      refine ⟨fun t ht => ?_, fun t ht => absurd ht (Option.some_ne_none t).symm,
        fun ht => absurd (hs.symm.trans ht) (Option.some_ne_none s)⟩
      obtain rfl := Option.some.inj (hs.symm.trans ht)
      refine ⟨hnone, ?_⟩
      exact congrArg Server.sessions (Server.emplace_eq hnone)
    | read s | leave s => exact .of_kept (by simp [emplaces, hhandling]) rfl rfl

/-- As long as no `close` goes on from an invalidated iterator, every entry of the map is
the session whose address is its key, `handle_accept` always inserts its session, and
`leave` takes its own session out or none. -/
theorem registry_sound (es : List Event) (hsteady : machine.EachStep Steady es) :
    machine.Throughout (fun c => c.server.Keyed) es ∧
    machine.EachStep (fun c e => ∀ d, c.step e = some d → RegistrySound c e d) es := by
  have hkeep : ∀ c e d, Integrity c → machine.step c e = some d → d.Integrity :=
    fun c e d hc hs => (step_move hs).integrity hc
  constructor
  · intro pre c _ hrun
    exact (Machine.run_invariant integrity_start hkeep hrun).server.keyed
  · exact hsteady.imp integrity_start hkeep fun c e hc he d hd =>
      (step_move hd).registrySound hc he

def leftTwiceWhileClosing : List Event :=
  [.accept 0 4096, .resume false, .accept 0 8192, .resume false,
    .close [⟨4096, 0⟩, ⟨8192, 1⟩], .turn 0 [⟨4096, 0⟩, ⟨8192, 1⟩] 0,
    .complete 0 .read 2, .resume false, .accept 0 4096, .resume false,
    .turn 0 [⟨8192, 1⟩, ⟨4096, 2⟩] 0]

theorem registry_sound_leftTwiceWhileClosing :
    ∃ c, machine.run leftTwiceWhileClosing = some c ∧
      c.server.sessions.entries = [⟨4096, 2⟩] ∧
      machine.EachStep (fun c e => ∀ d, c.step e = some d → RegistrySound c e d)
        leftTwiceWhileClosing :=
  ⟨_, rfl, rfl, (registry_sound leftTwiceWhileClosing
    (Machine.eachStep_of_checks (by decide))).2⟩

/-- While `close` sleeps, the session that it would go on from is left by its read handler,
and a new session gets its address. -/
def leftUnderIterator : List Event :=
  [.accept 0 4096, .resume false, .accept 0 8192, .resume false,
    .close [⟨4096, 0⟩, ⟨8192, 1⟩], .turn 0 [⟨4096, 0⟩, ⟨8192, 1⟩] 0,
    .complete 1 .read 104, .resume false, .accept 0 8192, .resume false]

theorem other_session_taken_out :
    ∃ c d, machine.run leftUnderIterator = some c ∧ c.step (.turn 0 [] 0) = some d ∧
      c.leaves (.turn 0 [] 0) = some 1 ∧ c.server.Registered 2 ∧ ¬ d.server.Registered 2 :=
  ⟨_, _, rfl, rfl, rfl, by decide, by decide⟩

end Server.Threads

end Sephi.Net.Tcp
