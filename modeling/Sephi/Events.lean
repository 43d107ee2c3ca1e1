import Sephi.Monitor

/-!
`sephi::sync::Event`, `sephi::ipc::Event` and `sephi::ipc::NamedEvent`, each shared by
any number of threads.
-/

set_option autoImplicit false

namespace Sephi.Sync
open Monitor

structure Event where
  flag : Bool
  deriving DecidableEq, Repr

/-- `set()` up to `notify_one` -/
def Event.set (event : Event) : Event := { event with flag := true }

def Event.wait : Wait Event := .until Event.flag fun event => { event with flag := false }

def Event.program : Program Event := ⟨{ flag := false }, Event.set, Event.wait⟩

theorem Event.autoReset : AutoReset Event.program Event.flag where
  start := rfl
  signal := fun _ => rfl
  enter := (clears_until fun _ => rfl).1
  resume := (clears_until fun _ => rfl).2

end Sephi.Sync

namespace Sephi.Ipc
open Monitor

structure Event where
  flag : Bool
  deriving DecidableEq, Repr

/-- `set()` up to `notify_one` -/
def Event.set (event : Event) : Event := { event with flag := true }

def Event.wait : Wait Event := .until Event.flag fun event => { event with flag := false }

def Event.program : Program Event := ⟨{ flag := false }, Event.set, Event.wait⟩

theorem Event.autoReset : AutoReset Event.program Event.flag where
  start := rfl
  signal := fun _ => rfl
  enter := (clears_until fun _ => rfl).1
  resume := (clears_until fun _ => rfl).2

/-- `set()` takes no lock and changes nothing: there is only the condition. -/
def NamedEvent.set (event : Unit) : Unit := event

def NamedEvent.wait : Wait Unit := .plain

def NamedEvent.program : Program Unit := ⟨(), NamedEvent.set, NamedEvent.wait⟩

end Sephi.Ipc

namespace Sephi
open Transition Monitor

variable {σ τ : Type}

/-- Each return has a set of its own, beside the one that the flag stands for, and no
waiter stays blocked while the flag is set and nobody is on the way to it. -/
def ConsumesSets (flag : σ → Bool) (s : Threads σ τ) : Prop :=
  s.returned + (if flag s.data then 1 else 0) ≤ s.signals ∧
  ¬ (flag s.data = true ∧ s.blocked ≠ [] ∧ s.woken = [] ∧ s.calling = [])

theorem consumesSets_of_sound {flag : σ → Bool} {s : Threads σ τ} (h : Sound flag s) :
    ConsumesSets flag s := by
  refine ⟨?_, ?_⟩
  · have hcounted := h.counted
    cases hf : flag s.data <;> simpa [hf] using hcounted
  · rintro ⟨hf, hb, hw, _⟩
    rcases h.heard hf with hnone | hsome
    · exact hb hnone
    · exact hsome hw

theorem each_wait_consumes_its_set (τ : Type) [DecidableEq τ] :
    (∀ s, (Sync.Event.program.machine τ).Reachable s → ConsumesSets Sync.Event.flag s) ∧
    (∀ s, (Ipc.Event.program.machine τ).Reachable s → ConsumesSets Ipc.Event.flag s) :=
  ⟨fun _ h => consumesSets_of_sound (Sync.Event.autoReset.sound h),
    fun _ h => consumesSets_of_sound (Ipc.Event.autoReset.sound h)⟩

def overtakenWaiter : List (Monitor.Event Nat) :=
  [.call 1, .enter 1, .call 2, .signal (some 1), .enter 2, .resume 1]

theorem each_wait_consumes_its_set_overtakenWaiter :
    (∃ s, (Sync.Event.program.machine Nat).run overtakenWaiter = some s ∧ s.blocked = [1] ∧
      s.returned = 1 ∧ ConsumesSets Sync.Event.flag s) ∧
    (∃ s, (Ipc.Event.program.machine Nat).run overtakenWaiter = some s ∧ s.blocked = [1] ∧
      s.returned = 1 ∧ ConsumesSets Ipc.Event.flag s) := by
  obtain ⟨hsync, hipc⟩ := each_wait_consumes_its_set Nat
  exact ⟨⟨_, rfl, rfl, rfl, hsync _ ⟨overtakenWaiter, rfl⟩⟩,
    ⟨_, rfl, rfl, rfl, hipc _ ⟨overtakenWaiter, rfl⟩⟩⟩

theorem Ipc.Event.answers [DecidableEq τ] {s : Threads Ipc.Event τ}
    (h : (Ipc.Event.program.machine τ).Reachable s) : s.Answers :=
  (Ipc.Event.autoReset.sound h).answers

/-- `NamedEvent` answers its sets as `ipc::Event` does exactly in the runs in which no
wait blocks after a set that passed by and no spurious wakeup lacks a set. -/
theorem named_event_answers_iff_sets_heeded (τ : Type) [DecidableEq τ]
    (es : List (Monitor.Event τ)) (s : Threads Unit τ)
    (h : (Ipc.NamedEvent.program.machine τ).run es = some s) :
    (Ipc.NamedEvent.program.machine τ).Throughout
        (Ipc.NamedEvent.program.WhileResuming Threads.Answers) es ↔
      (Ipc.NamedEvent.program.machine τ).EachStep Threads.Heeded es :=
  Program.answers_iff_heeded rfl h

def waitThenSet : List (Monitor.Event Nat) :=
  [.call 1, .enter 1, .signal (some 1), .resume 1]

theorem named_event_answers_waitThenSet :
    (Ipc.NamedEvent.program.machine Nat).Throughout
      (Ipc.NamedEvent.program.WhileResuming Threads.Answers) waitThenSet := by
  refine (named_event_answers_iff_sets_heeded Nat waitThenSet _ rfl).mpr ?_
  exact Machine.eachStep_of_checks (by decide)

theorem named_event_loses_set :
    ∃ s, (Ipc.NamedEvent.program.machine Nat).run [.signal none, .call 1, .enter 1] = some s ∧
      s.blocked = [1] ∧ s.woken = [] ∧ ¬ s.Answers := by
  obtain ⟨s, hrun, hb, hw, hsignals, hreturned, hsince⟩ : ∃ s,
      (Ipc.NamedEvent.program.machine Nat).run [.signal none, .call 1, .enter 1] = some s ∧
        s.blocked = [1] ∧ s.woken = [] ∧ s.signals = 1 ∧ s.returned = 0 ∧
        s.signalledSince = true := ⟨_, rfl, rfl, rfl, rfl, rfl, rfl⟩
  exact ⟨s, hrun, hb, hw, fun h => h.heard ⟨by omega, hsince, by simp [hb], hw⟩⟩

end Sephi
