import Sephi.Events

set_option autoImplicit false

namespace Sephi
open Transition Monitor

/-- A set that comes while the flag is set is merged with the one before, and no other set
is: the returns count the sets, but for the one in the flag. -/
theorem each_set_is_answered_iff_spaced (τ : Type) [DecidableEq τ] :
    (∀ (es : List (Monitor.Event τ)) s, (Sync.Event.program.machine τ).run es = some s →
      ((Sync.Event.program.machine τ).Throughout (AnswersEach Sync.Event.flag) es ↔
        (Sync.Event.program.machine τ).EachStep (Threads.Spaced Sync.Event.flag) es)) ∧
    (∀ (es : List (Monitor.Event τ)) s, (Ipc.Event.program.machine τ).run es = some s →
      ((Ipc.Event.program.machine τ).Throughout (AnswersEach Ipc.Event.flag) es ↔
        (Ipc.Event.program.machine τ).EachStep (Threads.Spaced Ipc.Event.flag) es)) :=
  ⟨fun _ _ h => Sync.Event.autoReset.answersEach_iff_spaced h,
    fun _ _ h => Ipc.Event.autoReset.answersEach_iff_spaced h⟩

def setByTurns : List (Monitor.Event Nat) :=
  [.signal none, .call 1, .enter 1, .call 1, .enter 1, .wake 1, .resume 1, .signal (some 1),
    .resume 1]

theorem each_set_is_answered_setByTurns :
    (Sync.Event.program.machine Nat).Throughout (AnswersEach Sync.Event.flag) setByTurns ∧
    (Ipc.Event.program.machine Nat).Throughout (AnswersEach Ipc.Event.flag) setByTurns := by
  obtain ⟨hsync, hipc⟩ := each_set_is_answered_iff_spaced Nat
  exact ⟨(hsync setByTurns _ rfl).mpr (Machine.eachStep_of_checks (by decide)),
    (hipc setByTurns _ rfl).mpr (Machine.eachStep_of_checks (by decide))⟩

/-- With no further calls and wakeups, the mutex is taken at most once by each thread that
has called or was woken, and then nobody is left blocked while the flag is set. -/
theorem waiters_come_to_rest (τ : Type) [DecidableEq τ] :
    (∀ (s u : Threads Sync.Event τ) (es : List (Monitor.Event τ)),
      (Sync.Event.program.machine τ).Reachable s → (∀ e ∈ es, e.Onward) →
      (Sync.Event.program.machine τ).exec s es = some u →
      es.length + u.work ≤ s.work ∧
        (Sync.Event.program.Stuck u → u.blocked ≠ [] → u.data.flag = false)) ∧
    (∀ (s u : Threads Ipc.Event τ) (es : List (Monitor.Event τ)),
      (Ipc.Event.program.machine τ).Reachable s → (∀ e ∈ es, e.Onward) →
      (Ipc.Event.program.machine τ).exec s es = some u →
      es.length + u.work ≤ s.work ∧
        (Ipc.Event.program.Stuck u → u.blocked ≠ [] → u.data.flag = false)) :=
  ⟨fun _ _ _ hs hes hrun => Sync.Event.autoReset.come_to_rest hs hes hrun,
    fun _ _ _ hs hes hrun => Ipc.Event.autoReset.come_to_rest hs hes hrun⟩

def setForOne : List (Monitor.Event Nat) :=
  [.call 1, .enter 1, .call 2, .enter 2, .signal (some 1)]

theorem waiters_come_to_rest_setForOne :
    (∃ s u, (Sync.Event.program.machine Nat).run setForOne = some s ∧
      (Sync.Event.program.machine Nat).exec s [.resume 1] = some u ∧
      u.blocked = [2] ∧ 1 + u.work ≤ s.work) ∧
    (∃ s u, (Ipc.Event.program.machine Nat).run setForOne = some s ∧
      (Ipc.Event.program.machine Nat).exec s [.resume 1] = some u ∧
      u.blocked = [2] ∧ 1 + u.work ≤ s.work) := by
  obtain ⟨hsync, hipc⟩ := waiters_come_to_rest Nat
  have honward : ∀ e ∈ [Monitor.Event.resume 1], e.Onward := by
    intro e he
    rw [List.mem_singleton.mp he]
    trivial
  exact ⟨⟨_, _, rfl, rfl, rfl, (hsync _ _ [.resume 1] ⟨setForOne, rfl⟩ honward rfl).1⟩,
    ⟨_, _, rfl, rfl, rfl, (hipc _ _ [.resume 1] ⟨setForOne, rfl⟩ honward rfl).1⟩⟩

end Sephi
