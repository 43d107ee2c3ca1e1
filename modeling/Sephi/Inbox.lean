import Mathlib.Logic.Function.Basic
import Mathlib.Data.List.Infix

/-!
Reads of several streams into one shared buffer. A read is outstanding from its start,
through the moment it is performed and fills the buffer, to the handler that looks at
the buffer.
-/

set_option autoImplicit false

namespace Inbox

variable {κ β : Type} [DecidableEq κ]

/-- An outstanding read is paired with the number of elements it got, once it is
performed. `arrived` and `delivered` only record what has happened; what is discarded
unread is taken out of `arrived` again. -/
structure Reader (κ β : Type) where
  reads : List (κ × Option Nat)
  buffer : List β
  unread : κ → List β
  arrived : κ → List β
  delivered : κ → List β

def Reader.pending (x : Reader κ β) (k : κ) : List β :=
  x.reads.flatMap fun r => if r.1 = k then r.2.elim [] x.buffer.take else []

inductive Reader.Step : Reader κ β → Reader κ β → Prop where
  | arrive (x : Reader κ β) (k : κ) (bs : List β) :
      Step x { x with
        unread := Function.update x.unread k (x.unread k ++ bs)
        arrived := Function.update x.arrived k (x.arrived k ++ bs) }
  | start (x : Reader κ β) (k : κ) : Step x { x with reads := x.reads ++ [(k, none)] }
  | perform (x : Reader κ β) (k : κ) (l r : List (κ × Option Nat)) (bs rest buffer : List β)
      (h : x.reads = l ++ (k, none) :: r) (hu : x.unread k = bs ++ rest)
      (hb : buffer.take bs.length = bs) :
      Step x { x with
        reads := l ++ r ++ [(k, some bs.length)]
        buffer := buffer
        unread := Function.update x.unread k rest }
  | deliver (x : Reader κ β) (k : κ) (n : Nat) (l r : List (κ × Option Nat))
      (h : x.reads = l ++ (k, some n) :: r) :
      Step x { x with
        reads := l ++ r
        delivered := Function.update x.delivered k (x.delivered k ++ x.buffer.take n) }
  | fail (x : Reader κ β) (k : κ) (l r : List (κ × Option Nat))
      (h : x.reads = l ++ (k, none) :: r) : Step x { x with reads := l ++ r }
  | discard (x : Reader κ β) (k : κ) :
      Step x { x with
        unread := Function.update x.unread k []
        arrived := Function.update x.arrived k
          ((x.arrived k).take ((x.arrived k).length - (x.unread k).length)) }

/-- The buffer has one reader, and each stream is what was delivered of it, then what is
in the buffer, then what nobody has read. -/
structure Reader.Sound (x : Reader κ β) : Prop where
  single : x.reads.length ≤ 1
  conserved : ∀ k, x.delivered k ++ x.pending k ++ x.unread k = x.arrived k

theorem Reader.Sound.delivered_initial {x : Reader κ β} (h : x.Sound) (k : κ) :
    x.delivered k <+: x.arrived k := by
  rw [← h.conserved k, List.append_assoc]
  exact List.prefix_append _ _

theorem Reader.Sound.only {x : Reader κ β} (h : x.Sound) {a : κ × Option Nat}
    {l r : List (κ × Option Nat)} (hx : x.reads = l ++ a :: r) : l = [] ∧ r = [] := by
  have hs := h.single
  rw [hx] at hs
  simp only [List.length_append, List.length_cons] at hs
  exact ⟨List.eq_nil_of_length_eq_zero (by omega),
    List.eq_nil_of_length_eq_zero (by omega)⟩

theorem Reader.Sound.forget {x : Reader κ β} (h : x.Sound) {l r : List (κ × Option Nat)}
    (hx : x.reads = l ++ r) (hl : ∀ a ∈ l, a.2 = none) : { x with reads := r }.Sound := by
  have hnone : ∀ k, (l.flatMap fun a => if a.1 = k then a.2.elim [] x.buffer.take else []) =
      [] := by
    intro k
    refine List.flatMap_eq_nil_iff.mpr fun a ha => ?_
    rw [hl a ha]
    exact ite_self _
  refine ⟨?_, fun k => ?_⟩
  · have hlen := h.single
    rw [hx, List.length_append] at hlen
    exact Nat.le_trans (Nat.le_add_left _ _) hlen
  · have hc := h.conserved k
    rw [Reader.pending, hx, List.flatMap_append, hnone, List.nil_append] at hc
    exact hc

theorem Reader.Step.sound {x y : Reader κ β} (h : Reader.Step x y) (hx : x.Sound)
    (hy : y.reads.length ≤ 1) : y.Sound := by
  refine ⟨hy, fun j => ?_⟩
  have hc := hx.conserved j
  cases h with
  | arrive k bs =>
    by_cases hj : j = k
    · subst hj
      simp only [Reader.pending, Function.update_self]
      rw [← List.append_assoc]
      exact congrArg (· ++ bs) hc
    · simpa [Reader.pending, Function.update_of_ne hj] using hc
  | start k => simpa [Reader.pending] using hc
  | perform k l r bs rest buffer hr hu hb =>
    obtain ⟨rfl, rfl⟩ := hx.only hr
    by_cases hj : j = k
    · subst hj
      simpa [Reader.pending, hr, hb, hu] using hc
    · simpa [Reader.pending, hr, Function.update_of_ne hj, Ne.symm hj] using hc
  | deliver k n l r hr =>
    obtain ⟨rfl, rfl⟩ := hx.only hr
    by_cases hj : j = k
    · subst hj
      simpa [Reader.pending, hr] using hc
    · simpa [Reader.pending, hr, Function.update_of_ne hj, Ne.symm hj] using hc
  | fail k l r hr =>
    obtain ⟨rfl, rfl⟩ := hx.only hr
    simpa [Reader.pending, hr] using hc
  | discard k =>
    by_cases hj : j = k
    · subst hj
      have hread : x.delivered j ++ x.pending j =
          (x.arrived j).take ((x.arrived j).length - (x.unread j).length) := by
        rw [← hc, List.length_append, Nat.add_sub_cancel, List.take_left]
      simpa [Reader.pending] using hread
    · simpa [Reader.pending, Function.update_of_ne hj] using hc

end Inbox
