import Mathlib.Data.List.Basic
import Mathlib.Data.List.Infix

/-!
The order of the reports about one thing that is opened, yields items and is closed,
and a monitor that follows them one report at a time.
-/

set_option autoImplicit false

namespace Lifecycle

variable {α : Type}

inductive Mark (α : Type) where
  | opened
  | item (a : α)
  | closed
  deriving DecidableEq, Repr

/-- The reports so far are a prefix of one opened, any items, one closed. Where the
thing may fail to open (`bare`), a single closed is allowed too. -/
def Lawful (bare : Bool) (l : List (Mark α)) : Prop :=
  (bare = true ∧ l <+: [.closed]) ∨
    ∃ items : List α, l <+: .opened :: items.map .item ++ [.closed]

inductive Phase where
  | fresh | running | ended
  deriving DecidableEq, Repr

def Phase.next (bare : Bool) : Phase → Mark α → Option Phase
  | .fresh, .opened => some .running
  | .fresh, .closed => if bare then some .ended else none
  | .running, .item _ => some .running
  | .running, .closed => some .ended
  | _, _ => none

/-- `none` once a report came out of order. -/
def phase (bare : Bool) (l : List (Mark α)) : Option Phase :=
  l.foldlM (Phase.next bare) Phase.fresh

theorem phase_append (bare : Bool) (l r : List (Mark α)) :
    phase bare (l ++ r) = (phase bare l).bind fun p => r.foldlM (Phase.next bare) p := by
  simp [phase, List.foldlM_append]

@[simp] theorem phase_snoc (bare : Bool) (l : List (Mark α)) (a : Mark α) :
    phase bare (l ++ [a]) = (phase bare l).bind fun p => p.next bare a := by
  simp [phase_append]

theorem phase_restrict {bare : Bool} {l r : List (Mark α)} (h : l <+: r)
    (hr : phase bare r ≠ none) : phase bare l ≠ none := by
  obtain ⟨t, rfl⟩ := h
  intro hl
  simp [phase_append, hl] at hr

theorem phase_running (bare : Bool) (items : List α) :
    phase bare (.opened :: items.map .item) = some .running := by
  induction items using List.reverseRecOn with
  | nil => rfl
  | append_singleton items a ih =>
    rw [List.map_append, ← List.cons_append, List.map_singleton, phase_snoc, ih]
    rfl

theorem phase_ended (bare : Bool) (items : List α) :
    phase bare (.opened :: items.map .item ++ [.closed]) = some .ended := by
  rw [phase_snoc, phase_running]
  rfl

def Shape (bare : Bool) : Phase → List (Mark α) → Prop
  | .fresh, l => l = []
  | .running, l => ∃ items : List α, l = .opened :: items.map .item
  | .ended, l => (bare = true ∧ l = [.closed]) ∨
      ∃ items : List α, l = .opened :: items.map .item ++ [.closed]

theorem Shape.next {bare : Bool} {p q : Phase} {l : List (Mark α)} {a : Mark α}
    (h : Shape bare p l) (hn : p.next bare a = some q) : Shape bare q (l ++ [a]) := by
  cases p with
  | fresh =>
    obtain rfl : l = [] := h
    cases a with
    | opened =>
      cases hn
      exact ⟨[], rfl⟩
    | item a => simp [Phase.next] at hn
    | closed =>
      cases bare with
      | true =>
        cases hn
        exact .inl ⟨rfl, rfl⟩
      | false => simp [Phase.next] at hn
  | running =>
    obtain ⟨items, rfl⟩ := h
    cases a with
    | opened => simp [Phase.next] at hn
    | item a =>
      cases hn
      exact ⟨items ++ [a], by simp⟩
    | closed =>
      cases hn
      exact .inr ⟨items, rfl⟩
  | ended => simp [Phase.next] at hn

theorem shape_of_phase {bare : Bool} {l : List (Mark α)} {p : Phase}
    (h : phase bare l = some p) : Shape bare p l := by
  induction l using List.reverseRecOn generalizing p with
  | nil =>
    cases h
    rfl
  | append_singleton l a ih =>
    rw [phase_snoc, Option.bind_eq_some_iff] at h
    obtain ⟨q, hq, hn⟩ := h
    exact (ih hq).next hn

theorem Shape.lawful {bare : Bool} {p : Phase} {l : List (Mark α)} (h : Shape bare p l) :
    Lawful bare l := by
  cases p with
  | fresh =>
    obtain rfl : l = [] := h
    exact .inr ⟨[], List.nil_prefix⟩
  | running =>
    obtain ⟨items, rfl⟩ := h
    exact .inr ⟨items, List.prefix_append _ _⟩
  | ended =>
    rcases h with ⟨hb, rfl⟩ | ⟨items, rfl⟩
    · exact .inl ⟨hb, List.prefix_refl _⟩
    · exact .inr ⟨items, List.prefix_refl _⟩

theorem lawful_iff_phase {bare : Bool} {l : List (Mark α)} :
    Lawful bare l ↔ phase bare l ≠ none := by
  constructor
  · rintro (⟨rfl, hl⟩ | ⟨items, hl⟩)
    · exact phase_restrict hl (by simp [phase, Phase.next])
    · exact phase_restrict hl (by rw [phase_ended]; exact Option.some_ne_none _)
  · intro h
    obtain ⟨p, hp⟩ := Option.ne_none_iff_exists'.mp h
    exact (shape_of_phase hp).lawful

theorem Lawful.restrict {bare : Bool} {l r : List (Mark α)} (h : Lawful bare r)
    (hl : l <+: r) : Lawful bare l :=
  lawful_iff_phase.mpr (phase_restrict hl (lawful_iff_phase.mp h))

theorem not_lawful_after_ended {bare : Bool} {l : List (Mark α)} (a : Mark α)
    (h : phase bare l = some .ended) : ¬ Lawful bare (l ++ [a]) := by
  rw [lawful_iff_phase]
  cases a <;> simp [h, Phase.next]

end Lifecycle
