import Mathlib.Data.List.Sort
import Sephi.Transition

/-!
A queue from which the element of the highest priority is taken, and of one priority the
one that was put first. It is kept by rising priority, of one priority the latest first,
so that what is taken is always the last.
-/

set_option autoImplicit false

namespace PriorityQueue
open Transition

variable {α β : Type} [LinearOrder β]

def NotAbove (rank : α → β) (a b : α) : Prop := rank a ≤ rank b

instance (rank : α → β) : DecidableRel (NotAbove rank) := fun a b =>
  inferInstanceAs (Decidable (rank a ≤ rank b))

instance (rank : α → β) : Std.Total (NotAbove rank) :=
  ⟨fun a b => le_total (rank a) (rank b)⟩

instance (rank : α → β) : IsTrans α (NotAbove rank) := ⟨fun _ _ _ => le_trans⟩

/-- A new element goes before those of its own priority. -/
def enqueue (rank : α → β) (a : α) (q : List α) : List α :=
  q.orderedInsert (NotAbove rank) a

inductive Op (α : Type) where
  | put (a : α)
  | take (a : α)
  deriving DecidableEq, Repr

def Op.put? : Op α → Option α
  | .put a => some a
  | .take _ => none

def Op.take? : Op α → Option α
  | .put _ => none
  | .take a => some a

def puts (h : List (Op α)) : List α := h.filterMap Op.put?

def takes (h : List (Op α)) : List α := h.filterMap Op.take?

def apply (rank : α → β) (q : List α) : Op α → List α
  | .put a => enqueue rank a q
  | .take _ => q.dropLast

def contents (rank : α → β) (h : List (Op α)) : List α := h.foldl (apply rank) []

/-- Each take got what was last in the queue. -/
def TakesTop (rank : α → β) (h : List (Op α)) : Prop :=
  Along (fun pre op => ∀ a, op = .take a → (contents rank pre).getLast? = some a) h

@[simp] theorem puts_put (h : List (Op α)) (a : α) : puts (h ++ [.put a]) = puts h ++ [a] := by
  simp [puts, Op.put?]

@[simp] theorem puts_take (h : List (Op α)) (a : α) : puts (h ++ [.take a]) = puts h := by
  simp [puts, Op.put?]

@[simp] theorem takes_put (h : List (Op α)) (a : α) : takes (h ++ [.put a]) = takes h := by
  simp [takes, Op.take?]

@[simp] theorem takes_take (h : List (Op α)) (a : α) :
    takes (h ++ [.take a]) = takes h ++ [a] := by
  simp [takes, Op.take?]

variable {rank : α → β}

@[simp] theorem contents_nil : contents rank ([] : List (Op α)) = [] := rfl

@[simp] theorem contents_snoc (h : List (Op α)) (op : Op α) :
    contents rank (h ++ [op]) = apply rank (contents rank h) op := by
  simp [contents]

theorem takesTop_nil : TakesTop rank ([] : List (Op α)) :=
  along_nil _

theorem takesTop_put {h : List (Op α)} {a : α} (ht : TakesTop rank h) :
    TakesTop rank (h ++ [.put a]) :=
  along_snoc.mpr ⟨ht, fun _ heq => nomatch heq⟩

theorem takesTop_take {h : List (Op α)} {a : α} :
    TakesTop rank (h ++ [.take a]) ↔
      TakesTop rank h ∧ (contents rank h).getLast? = some a := by
  rw [TakesTop, along_snoc]
  refine and_congr_right fun _ => ⟨fun ha => ha a rfl, fun ha b heq => ?_⟩
  cases heq
  exact ha

theorem takesTop_snoc {h : List (Op α)} {op : Op α} (ht : TakesTop rank (h ++ [op])) :
    TakesTop rank h := (along_snoc.mp ht).1

theorem enqueue_pairwise {a : α} {q : List α} (h : q.Pairwise (NotAbove rank)) :
    (enqueue rank a q).Pairwise (NotAbove rank) :=
  List.Pairwise.orderedInsert a q h

theorem contents_pairwise (h : List (Op α)) :
    (contents rank h).Pairwise (NotAbove rank) := by
  induction h using List.reverseRecOn with
  | nil => exact List.Pairwise.nil
  | append_singleton h op ih =>
    rw [contents_snoc]
    cases op with
    | put a => exact enqueue_pairwise ih
    | take a => exact ih.sublist (List.dropLast_sublist _)

theorem enqueue_eq_insertIdx {a : α} {q : List α} {c : Nat} (hc : c ≤ q.length)
    (hbelow : ∀ i (hi : i < q.length), i < c → rank q[i] < rank a)
    (habove : ∀ i (hi : i < q.length), c ≤ i → rank a ≤ rank q[i]) :
    enqueue rank a q = q.insertIdx c a := by
  induction q generalizing c with
  | nil =>
    obtain rfl : c = 0 := Nat.le_zero.mp hc
    rfl
  | cons b q ih =>
    cases c with
    | zero =>
      have habove := habove 0 (Nat.zero_lt_succ _) (Nat.le_refl 0)
      exact List.orderedInsert_cons_of_le _ q habove
    | succ c =>
      have hb : ¬ NotAbove rank a b := (hbelow 0 (Nat.zero_lt_succ _) (Nat.zero_lt_succ c)).not_ge
      have hrest := ih (Nat.le_of_succ_le_succ hc)
        (fun i hi hlt => hbelow (i + 1) (Nat.succ_lt_succ hi) (Nat.succ_lt_succ hlt))
        (fun i hi hle => habove (i + 1) (Nat.succ_lt_succ hi) (Nat.succ_le_succ hle))
      rw [enqueue, List.orderedInsert_of_not_le _ q hb, List.insertIdx_succ_cons, ← hrest, enqueue]

theorem filter_enqueue [DecidableEq β] (p : β) (a : α) (q : List α) :
    (enqueue rank a q).filter (rank · = p) =
      (if rank a = p then [a] else []) ++ q.filter (rank · = p) := by
  induction q with
  | nil => by_cases hp : rank a = p <;> simp [enqueue, hp]
  | cons b q ih =>
    rw [enqueue, List.orderedInsert_cons]
    by_cases hab : NotAbove rank a b
    · by_cases hp : rank a = p <;> simp [hab, hp]
    · rw [if_neg hab, List.filter_cons, List.filter_cons]
      rw [enqueue] at ih
      by_cases hb : rank b = p
      · -- `a` has a higher priority than `b`, and so another than `p`
        have ha : rank a ≠ p := by
          rintro rfl
          exact hab hb.ge
        simp [hb, ha, ih]
      · simp [hb, ih]

theorem eq_dropLast_append {q : List α} {a : α} (h : q.getLast? = some a) :
    q = q.dropLast ++ [a] := by
  obtain ⟨init, rfl⟩ := List.getLast?_eq_some_iff.mp h
  rw [List.dropLast_concat]

theorem TakesTop.perm {h : List (Op α)} (ht : TakesTop rank h) :
    (takes h ++ contents rank h).Perm (puts h) := by
  induction h using List.reverseRecOn with
  | nil => exact .refl _
  | append_singleton h op ih =>
    have hbefore := ih (takesTop_snoc ht)
    cases op with
    | put a =>
      rw [takes_put, puts_put, contents_snoc]
      have hq := (List.perm_orderedInsert (NotAbove rank) a (contents rank h)).append_left
        (takes h)
      refine hq.trans (List.perm_middle.trans ?_)
      exact (hbefore.cons a).trans (List.perm_append_singleton a (puts h)).symm
    | take a =>
      rw [takes_take, puts_take, contents_snoc, apply, List.append_assoc]
      have hlast := eq_dropLast_append (takesTop_take.mp ht).2
      rw [hlast] at hbefore
      exact ((List.perm_append_comm).append_left (takes h)).trans hbefore

theorem TakesTop.filter [DecidableEq β] {h : List (Op α)} (ht : TakesTop rank h) (p : β) :
    (takes h).filter (rank · = p) ++
        ((contents rank h).filter (rank · = p)).reverse =
      (puts h).filter (rank · = p) := by
  induction h using List.reverseRecOn with
  | nil => rfl
  | append_singleton h op ih =>
    have hbefore := ih (takesTop_snoc ht)
    cases op with
    | put a =>
      rw [takes_put, puts_put, contents_snoc, apply, filter_enqueue, List.filter_append,
        ← hbefore]
      by_cases hp : rank a = p <;> simp [hp]
    | take a =>
      rw [takes_take, puts_take, contents_snoc, apply, ← hbefore]
      have hlast := eq_dropLast_append (takesTop_take.mp ht).2
      conv_rhs => rw [hlast]
      by_cases hp : rank a = p <;> simp [hp]

theorem contents_getLast {h : List (Op α)} {a : α}
    (ha : (contents rank h).getLast? = some a) :
    ∀ b ∈ (contents rank h).dropLast, rank b ≤ rank a := by
  intro b hb
  have hpairwise : (contents rank h).Pairwise (NotAbove rank) := contents_pairwise h
  rw [eq_dropLast_append ha, List.pairwise_append] at hpairwise
  exact hpairwise.2.2 b hb a (List.mem_singleton_self a)

/-- `stored` is left of the operations `h` in which elements were put and taken by
priority, and of one priority in the order in which they were put. -/
structure Served [DecidableEq β] (rank : α → β) (h : List (Op α)) (stored : List α) :
    Prop where
  conserved : (takes h ++ stored).Perm (puts h)
  inOrder : ∀ p, (takes h).filter (rank · = p) ++
    (stored.filter (rank · = p)).reverse = (puts h).filter (rank · = p)
  highest : ∀ pre a post, h = pre ++ .take a :: post →
    ∃ left, (takes pre ++ a :: left).Perm (puts pre) ∧ ∀ b ∈ left, rank b ≤ rank a

theorem TakesTop.served [DecidableEq β] {h : List (Op α)} (ht : TakesTop rank h) :
    Served rank h (contents rank h) := by
  refine ⟨ht.perm, ht.filter, ?_⟩
  intro pre a post heq
  have hlast := ht pre (.take a) post heq a rfl
  have hpre : TakesTop rank pre := by
    intro q b rest hq
    refine ht q b (rest ++ .take a :: post) ?_
    rw [heq, hq, List.append_assoc, List.cons_append]
  refine ⟨(contents rank pre).dropLast, ?_, contents_getLast hlast⟩
  have hperm := hpre.perm
  rw [eq_dropLast_append hlast] at hperm
  have hswap : (a :: (contents rank pre).dropLast).Perm ((contents rank pre).dropLast ++ [a]) :=
    (List.perm_append_singleton a _).symm
  exact (hswap.append_left (takes pre)).trans hperm

end PriorityQueue
