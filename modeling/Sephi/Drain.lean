import Mathlib.Algebra.GroupWithZero.Nat
import Mathlib.Algebra.Order.Group.Nat
import Mathlib.Data.List.Basic
import Mathlib.Data.List.DropRight

/-!
Draining a queue by a count of its weight instead of its items. Items may be added at the
back all the time; those that were not counted stay.
-/

set_option autoImplicit false

namespace Drain

variable {α : Type} {w : α → Nat}

/-- `n` is the weight of some items at the front of the queue. -/
def Counts (w : α → Nat) (queue : List α) (n : Nat) : Prop :=
  ∃ counted rest, queue = counted ++ rest ∧ (counted.map w).sum = n

theorem Counts.all (queue : List α) : Counts w queue (queue.map w).sum :=
  ⟨queue, [], (List.append_nil queue).symm, rfl⟩

theorem Counts.first (a : α) (rest : List α) : Counts w (a :: rest) (w a) :=
  ⟨[a], rest, rfl, by simp⟩

theorem Counts.append {queue : List α} {n : Nat} (h : Counts w queue n) (later : List α) :
    Counts w (queue ++ later) n := by
  obtain ⟨counted, rest, rfl, hn⟩ := h
  exact ⟨counted, rest ++ later, List.append_assoc _ _ _, hn⟩

theorem Counts.take {queue : List α} {n : Nat} (h : Counts w queue n) (hn : n ≠ 0) :
    ∃ a rest, queue = a :: rest ∧ w a ≤ n ∧ Counts w rest (n - w a) := by
  obtain ⟨counted, rest, rfl, hsum⟩ := h
  cases counted with
  | nil => exact absurd hsum.symm hn
  | cons a counted =>
    have hsum : w a + (counted.map w).sum = n := by simpa using hsum
    exact ⟨a, counted ++ rest, rfl, by omega, counted, rest, rfl, by omega⟩

/-- What a count of the whole weight covers: the items up to the last one that weighs
anything. -/
def covered (w : α → Nat) (queue : List α) : List α := queue.rdropWhile fun a => w a == 0

theorem covered_isPrefix (queue : List α) : covered w queue <+: queue :=
  List.rdropWhile_prefix _ _

theorem covered_eq_nil_iff (queue : List α) :
    covered w queue = [] ↔ (queue.map w).sum = 0 := by
  simp [covered, List.rdropWhile_eq_nil_iff, List.sum_eq_zero_iff_forall_eq_nat]

theorem covered_append (xs ys : List α) :
    covered w (xs ++ ys) = if covered w ys = [] then covered w xs else xs ++ covered w ys := by
  simp only [covered, List.rdropWhile, List.reverse_append, List.dropWhile_append,
    List.isEmpty_iff, List.reverse_eq_nil_iff]
  split
  · rfl
  · rw [List.reverse_append, List.reverse_reverse]

/-- `taken` has been taken off the queue `before`, `later` has been added, and `left` is
left of the count of its weight. -/
structure Drained (w : α → Nat) (before taken later queue : List α) (left : Nat) : Prop where
  split : ∃ rest, before = taken ++ rest ∧ queue = rest ++ later ∧ (rest.map w).sum = left
  within : taken <+: covered w before

theorem Drained.start (queue : List α) : Drained w queue [] [] queue (queue.map w).sum :=
  ⟨⟨queue, rfl, (List.append_nil queue).symm, rfl⟩, List.nil_prefix⟩

theorem Drained.append {before taken later queue : List α} {left : Nat}
    (h : Drained w before taken later queue left) (a : α) :
    Drained w before taken (later ++ [a]) (queue ++ [a]) left := by
  obtain ⟨rest, hbefore, rfl, hleft⟩ := h.split
  exact ⟨⟨rest, hbefore, List.append_assoc _ _ _, hleft⟩, h.within⟩

theorem Drained.ends_iff {before taken later queue : List α} {left : Nat}
    (h : Drained w before taken later queue left) : left = 0 ↔ taken = covered w before := by
  obtain ⟨rest, rfl, _, rfl⟩ := h.split
  rw [← covered_eq_nil_iff]
  constructor
  · intro hrest
    refine h.within.eq_of_length_le ?_
    rw [covered_append, if_pos hrest]
    exact (covered_isPrefix taken).length_le
  · intro htaken
    by_contra hrest
    rw [covered_append, if_neg hrest] at htaken
    exact hrest (List.self_eq_append_right.mp htaken)

theorem Drained.take {before taken later queue : List α} {left : Nat}
    (h : Drained w before taken later queue left) (hleft : left ≠ 0) :
    ∃ a rest, queue = a :: rest ∧ w a ≤ left ∧
      Drained w before (taken ++ [a]) later rest (left - w a) := by
  obtain ⟨rest, rfl, rfl, rfl⟩ := h.split
  have hcovered : covered w rest ≠ [] := fun hnil => hleft ((covered_eq_nil_iff rest).mp hnil)
  cases rest with
  | nil => exact absurd rfl hleft
  | cons a rest =>
    refine ⟨a, rest ++ later, rfl, by simp, ⟨rest, by simp, rfl, by simp⟩, ?_⟩
    rw [covered_append, if_neg hcovered, List.prefix_append_right_inj]
    obtain ⟨b, bs, hb⟩ := List.exists_cons_of_ne_nil hcovered
    obtain ⟨rfl, _⟩ := List.cons_prefix_cons.mp (hb ▸ covered_isPrefix (w := w) (a :: rest))
    rw [hb]
    exact List.prefix_append [b] bs

end Drain
