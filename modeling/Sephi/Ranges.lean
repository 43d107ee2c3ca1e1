import Mathlib.Logic.Function.Basic

/-!
The algorithms of the standard library that work on a range of an array: copying from the
front, copying from the back, and binary search.
-/

set_option autoImplicit false

namespace Ranges

variable {α : Type}

def copyLoop (a : Nat → α) (first result : Nat) : Nat → Nat → α
  | 0 => a
  | n + 1 => copyLoop (Function.update a result (a first)) (first + 1) (result + 1) n

/-- `std::copy` inside of one array -/
def copy (a : Nat → α) (first last result : Nat) : Nat → α :=
  copyLoop a first result (last - first)

def copyBackwardLoop (a : Nat → α) (last result : Nat) : Nat → Nat → α
  | 0 => a
  | n + 1 =>
    copyBackwardLoop (Function.update a (result - 1) (a (last - 1))) (last - 1) (result - 1) n

/-- `std::copy_backward` inside of one array; `result` is the end of the target. -/
def copyBackward (a : Nat → α) (first last result : Nat) : Nat → α :=
  copyBackwardLoop a last result (last - first)

theorem copyLoop_apply (a : Nat → α) {first result : Nat} (n : Nat) (h : result ≤ first)
    (k : Nat) : copyLoop a first result n k =
      if result ≤ k ∧ k < result + n then a (first + (k - result)) else a k := by
  induction n generalizing a first result with
  | zero =>
    rw [if_neg (by omega)]
    rfl
  | succ n ih =>
    rw [copyLoop, ih _ (by omega)]
    by_cases hk : k = result
    · subst hk
      rw [if_neg (by omega), if_pos (by omega), Function.update_self, Nat.sub_self,
        Nat.add_zero]
    · by_cases hin : result + 1 ≤ k ∧ k < result + 1 + n
      · rw [if_pos hin, if_pos (by omega), Function.update_of_ne (by omega)]
        congr 1
        omega
      · rw [if_neg hin, if_neg (by omega), Function.update_of_ne hk]

/-- To the front, nothing is overwritten before it has been copied. -/
theorem copy_apply (a : Nat → α) {first last result : Nat} (h : result ≤ first) (k : Nat) :
    copy a first last result k =
      if result ≤ k ∧ k < result + (last - first) then a (first + (k - result)) else a k :=
  copyLoop_apply a (last - first) h k

theorem copyBackwardLoop_apply (a : Nat → α) {last result : Nat} (n : Nat)
    (h : last ≤ result) (hn : n ≤ last) (k : Nat) : copyBackwardLoop a last result n k =
      if result - n ≤ k ∧ k < result then a (k - (result - last)) else a k := by
  induction n generalizing a last result with
  | zero =>
    rw [if_neg (by omega)]
    rfl
  | succ n ih =>
    rw [copyBackwardLoop, ih _ (by omega) (by omega)]
    by_cases hk : k = result - 1
    · subst hk
      rw [if_neg (by omega), if_pos (by omega), Function.update_self]
      congr 1
      omega
    · by_cases hin : result - 1 - n ≤ k ∧ k < result - 1
      · rw [if_pos hin, if_pos (by omega), Function.update_of_ne (by omega)]
        congr 1
        omega
      · rw [if_neg hin, if_neg (by omega), Function.update_of_ne hk]

theorem copyBackward_apply (a : Nat → α) {first last result : Nat} (h : last ≤ result)
    (k : Nat) : copyBackward a first last result k =
      if result - (last - first) ≤ k ∧ k < result then a (k - (result - last)) else a k :=
  copyBackwardLoop_apply a (last - first) h (Nat.sub_le last first) k

def Within (n : Nat) (a b : Nat → α) : Prop := ∀ k, n ≤ k → b k = a k

theorem Within.refl (n : Nat) (a : Nat → α) : Within n a a := fun _ _ => rfl

theorem Within.trans {n : Nat} {a b c : Nat → α} (hb : Within n a b) (hc : Within n b c) :
    Within n a c := fun k hk => (hc k hk).trans (hb k hk)

theorem Within.update {n : Nat} {a b : Nat → α} (h : Within n a b) {k : Nat} (hk : k < n)
    (x : α) : Within n a (Function.update b k x) := by
  intro j hj
  rw [Function.update_of_ne (Nat.ne_of_gt (Nat.lt_of_lt_of_le hk hj))]
  exact h j hj

theorem Within.copy {n : Nat} {a b : Nat → α} (h : Within n a b) {first last result : Nat}
    (hr : result ≤ first) (hn : result + (last - first) ≤ n) :
    Within n a (copy b first last result) := by
  intro k hk
  rw [copy_apply b hr, if_neg (by omega)]
  exact h k hk

theorem Within.copyBackward {n : Nat} {a b : Nat → α} (h : Within n a b)
    {first last result : Nat} (hr : last ≤ result) (hn : result ≤ n) :
    Within n a (copyBackward b first last result) := by
  intro k hk
  rw [copyBackward_apply b hr, if_neg (by omega)]
  exact h k hk

/-- `fuel` bounds the number of turns; the length of the range is enough. -/
def lowerBoundLoop (less : Nat → Bool) : Nat → Nat → Nat → Nat
  | 0, first, _ => first
  | fuel + 1, first, len =>
    if len = 0 then first
    else
      let half := len / 2
      if less (first + half) then lowerBoundLoop less fuel (first + half + 1) (len - half - 1)
      else lowerBoundLoop less fuel first half

/-- `std::lower_bound` on the positions from `first` to before `last`; `less` says at
which of them there is an element below the value. -/
def lowerBound (less : Nat → Bool) (first last : Nat) : Nat :=
  lowerBoundLoop less (last - first) first (last - first)

theorem lowerBoundLoop_eq {less : Nat → Bool} {fuel first len mid : Nat}
    (hf : len ≤ fuel) (hfirst : first ≤ mid) (hlast : mid ≤ first + len)
    (hbelow : ∀ k, first ≤ k → k < mid → less k = true)
    (habove : ∀ k, mid ≤ k → k < first + len → less k = false) :
    lowerBoundLoop less fuel first len = mid := by
  induction fuel generalizing first len with
  | zero =>
    rw [lowerBoundLoop]
    omega
  | succ fuel ih =>
    rw [lowerBoundLoop]
    by_cases hlen : len = 0
    · rw [if_pos hlen]
      omega
    · have hhalf : len / 2 < len := Nat.div_lt_self (by omega) (by decide)
      rw [if_neg hlen]
      dsimp only
      cases hl : less (first + len / 2) with
      | true =>
        rw [if_pos rfl]
        have hmid : first + len / 2 < mid := by
          by_contra hge
          have hfalse := habove (first + len / 2) (by omega) (by omega)
          exact nomatch hl.symm.trans hfalse
        refine ih (by omega) hmid (by omega) (fun k hk => hbelow k (by omega)) ?_
        exact fun k hk hlt => habove k hk (by omega)
      | false =>
        rw [if_neg (by decide)]
        have hmid : mid ≤ first + len / 2 := by
          by_contra hlt
          have htrue := hbelow (first + len / 2) (by omega) (by omega)
          exact nomatch hl.symm.trans htrue
        exact ih (by omega) hfirst hmid hbelow fun k hk hlt => habove k hk (by omega)

theorem lowerBound_eq {less : Nat → Bool} {first last mid : Nat} (hfirst : first ≤ mid)
    (hlast : mid ≤ last) (hbelow : ∀ k, first ≤ k → k < mid → less k = true)
    (habove : ∀ k, mid ≤ k → k < last → less k = false) :
    lowerBound less first last = mid :=
  lowerBoundLoop_eq (Nat.le_refl _) hfirst (by omega) hbelow fun k hk hlt =>
    habove k hk (by omega)

theorem exists_division (less : Nat → Prop) (n : Nat)
    (h : ∀ i j, i ≤ j → j < n → less j → less i) :
    ∃ mid ≤ n, (∀ k < mid, less k) ∧ ∀ k, mid ≤ k → k < n → ¬ less k := by
  induction n with
  | zero => exact ⟨0, Nat.le_refl 0, fun k hk => (nomatch hk), fun k _ hk => nomatch hk⟩
  | succ n ih =>
    obtain ⟨mid, hmid, hbelow, habove⟩ := ih fun i j hij hj => h i j hij (Nat.lt_succ_of_lt hj)
    by_cases hn : less n
    · exact ⟨n + 1, Nat.le_refl _, fun k hk => h k n (Nat.le_of_lt_succ hk) (Nat.lt_succ_self n) hn,
        fun k hk hlt => absurd hlt (Nat.not_lt_of_le hk)⟩
    · refine ⟨mid, Nat.le_succ_of_le hmid, hbelow, fun k hk hlt => ?_⟩
      rcases Nat.lt_succ_iff_lt_or_eq.mp hlt with hlt | rfl
      · exact habove k hk hlt
      · exact hn

end Ranges
