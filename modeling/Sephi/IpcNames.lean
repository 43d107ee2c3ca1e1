import Sephi.NameTable

set_option autoImplicit false

namespace Sephi.Ipc
open Transition NameTable

inductive Class where
  | messageQueue | sharedMemory | namedEvent
  deriving DecidableEq, Repr

def MessageQueue.keys (name : String) : List String := [name]

def SharedMemory.keys (name : String) : List String := [name]

def cvPrefix : String := "_cv_prefix_"

def mtxPrefix : String := "_mtx_prefix_"

/-- `condition_` and `mutex_`, in the order in which they are opened and removed -/
def NamedEvent.keys (name : String) : List String := [cvPrefix ++ name, mtxPrefix ++ name]

def classes : Classes String (Class × String) where
  keys
    | (.messageQueue, name) => MessageQueue.keys name
    | (.sharedMemory, name) => SharedMemory.keys name
    | (.namedEvent, name) => NamedEvent.keys name
  modes
    | (.messageQueue, _) | (.sharedMemory, _) => [.createOnly, .openOnly, .openOrCreate]
    | (.namedEvent, _) => [.openOrCreate]

/-- In a run from the names `t`, live objects of one class and name are always attached
to the same, and a queue or segment can be opened while an object of its name lives,
exactly when each step keeps the names that live objects have. -/
theorem one_object_iff_names_kept (t : Table String)
    (es : List (NameTable.Event (Class × String))) (s : NameTable.State String (Class × String))
    (h : (classes.machine t).run es = some s) :
    (classes.machine t).Throughout (fun s => s.Alike ∧ classes.Opens s) es ↔
      (classes.machine t).EachStep classes.Keeps es :=
  Classes.alike_opens_iff h

def queuesBesideEvent : List (NameTable.Event (Class × String)) :=
  [.construct .createOnly (.messageQueue, "q"), .construct .openOnly (.messageQueue, "q"),
    .construct .openOrCreate (.namedEvent, "e"), .destroy ⟨(.namedEvent, "e"), [1, 2]⟩]

theorem one_object_queuesBesideEvent :
    (classes.machine .empty).Throughout (fun s => s.Alike ∧ classes.Opens s)
      queuesBesideEvent := by
  refine (one_object_iff_names_kept .empty queuesBesideEvent _ rfl).mpr ?_
  exact Machine.eachStep_of_checks (by decide)

/-- The second queue goes and takes the name with it; the third is another queue. -/
def queueLosesName : List (NameTable.Event (Class × String)) :=
  [.construct .createOnly (.messageQueue, "q"), .construct .openOnly (.messageQueue, "q"),
    .destroy ⟨(.messageQueue, "q"), [0]⟩, .construct .openOrCreate (.messageQueue, "q")]

theorem two_objects_after_destructor :
    ∃ s, (classes.machine .empty).run queueLosesName = some s ∧
      s.live = [⟨(.messageQueue, "q"), [0]⟩, ⟨(.messageQueue, "q"), [1]⟩] ∧ ¬ s.Alike := by
  obtain ⟨s, hrun, hlive⟩ : ∃ s, (classes.machine .empty).run queueLosesName = some s ∧
      s.live = [⟨(.messageQueue, "q"), [0]⟩, ⟨(.messageQueue, "q"), [1]⟩] := ⟨_, rfl, rfl⟩
  refine ⟨s, hrun, hlive, fun h => ?_⟩
  have heq := h ⟨(.messageQueue, "q"), [0]⟩ (by simp [hlive]) ⟨(.messageQueue, "q"), [1]⟩
    (by simp [hlive]) rfl
  simp at heq

end Sephi.Ipc
