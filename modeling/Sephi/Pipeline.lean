import Sephi.Inbox
import Sephi.Outbox

/-!
Streams that pass through stages which hold elements back. A reader is such a stage, and
so is a queue of blocks when each block is sent piece by piece.
-/

set_option autoImplicit false

namespace Pipeline

variable {β : Type}

/-- `out` is what has left the stage, and `held` what is still in it. -/
structure Stage (β : Type) where
  inp : List β
  held : List β
  out : List β

def Stage.Conserves (x : Stage β) : Prop := x.out ++ x.held = x.inp

/-- The stages lead from the stream `a` to the stream `z`. -/
inductive Chain : List β → List (Stage β) → List β → Prop where
  | nil (z : List β) : Chain z [] z
  | cons {xs : List (Stage β)} {z : List β} (x : Stage β) (hx : x.Conserves)
      (hxs : Chain x.out xs z) : Chain x.inp (x :: xs) z

theorem Chain.conserved {a z : List β} {xs : List (Stage β)} (h : Chain a xs z) :
    z ++ xs.reverse.flatMap Stage.held = a := by
  induction h with
  | nil z => simp
  | cons x hx _ ih =>
    have hx : x.out ++ x.held = x.inp := hx
    rw [← hx, ← ih]
    simp [List.flatMap_append]

theorem Chain.out_of_inp {a z : List β} {xs : List (Stage β)} (h : Chain a xs z) :
    z <+: a := by
  rw [← h.conserved]
  exact List.prefix_append _ _

theorem Chain.out_eq {a z : List β} {xs : List (Stage β)} (h : Chain a xs z)
    (hx : ∀ x ∈ xs, x.held = []) : z = a := by
  have hnone : xs.reverse.flatMap Stage.held = [] := by
    simp only [List.flatMap_eq_nil_iff, List.mem_reverse]
    exact hx
  rw [← h.conserved, hnone, List.append_nil]

section Reads
open Inbox

variable {κ : Type} [DecidableEq κ]

def reading (x : Reader κ β) (k : κ) : Stage β where
  inp := x.arrived k
  held := x.pending k ++ x.unread k
  out := x.delivered k

theorem reading_conserves {x : Reader κ β} (h : x.Sound) (k : κ) :
    (reading x k).Conserves := by
  simp only [Stage.Conserves, reading]
  rw [← List.append_assoc, h.conserved k]

theorem reading_held {x : Reader κ β} {k : κ} (hr : ∀ r ∈ x.reads, r.2 = none)
    (hu : x.unread k = []) : (reading x k).held = [] := by
  simp only [reading, hu, List.append_nil, Reader.pending, List.flatMap_eq_nil_iff]
  intro r hmem
  simp [hr r hmem]

theorem reading_length {x : Reader κ β} (h : x.Sound) (k : κ) :
    (x.delivered k).length + (reading x k).held.length = (x.arrived k).length := by
  rw [← List.length_append]
  exact congrArg List.length (reading_conserves h k)

end Reads

section Blocks
open Outbox

/-- What has left the pump when `n` elements of the outstanding block have. -/
def transmitted (p : Pump (List β)) (n : Nat) : List β :=
  p.completed.flatten ++ p.queue.flatten.take n

def remaining (p : Pump (List β)) (n : Nat) : List β :=
  p.queue.flatten.drop n ++ p.waiting.flatten

def Within (p : Pump (List β)) (n : Nat) : Prop := n ≤ p.outstanding.flatten.length

def sending (p : Pump (List β)) (n : Nat) : Stage β where
  inp := p.accepted.flatten
  held := remaining p n
  out := transmitted p n

theorem sending_conserves {p : Pump (List β)} (h : p.Sound) (n : Nat) :
    (sending p n).Conserves := by
  simp only [Stage.Conserves, sending, transmitted, remaining]
  rw [← h.conserved]
  simp only [List.flatten_append, List.append_assoc]
  rw [← List.append_assoc (List.take n _), List.take_append_drop]

theorem remaining_length {p : Pump (List β)} (h : p.Sound) (n : Nat) :
    (transmitted p n).length + (remaining p n).length = p.accepted.flatten.length := by
  rw [← List.length_append]
  exact congrArg List.length (sending_conserves h n)

theorem Within.queue {p : Pump (List β)} {n : Nat} (hn : Within p n) (h : p.Sound) :
    n ≤ p.queue.flatten.length := by
  rcases h.front with hnone | ⟨a, rest, ha, hq⟩
  · simp [Within, hnone] at hn
    omega
  · simp only [Within, ha, List.flatten_singleton] at hn
    simp only [hq, List.flatten_cons, List.length_append]
    omega

theorem enter_transmitted {p : Pump (List β)} (h : p.Sound) {n : Nat} (hn : Within p n)
    (a : List β) (rest : List (List β)) :
    transmitted (p.enter a rest) n = transmitted p n := by
  have hle := hn.queue h
  unfold Pump.enter
  split <;> simp [transmitted, Pump.start, List.take_append_of_le_length hle]

theorem Within.enter {p : Pump (List β)} {n : Nat} (hn : Within p n) (a : List β)
    (rest : List (List β)) : Within (p.enter a rest) n := by
  simp only [Within] at hn
  unfold Pump.enter
  split
  · simp only [Within, Pump.start, List.flatten_append, List.length_append]
    omega
  · exact hn

theorem finish_transmitted {p : Pump (List β)} (h : p.Sound) {a : List β}
    {l r : List (List β)} (ho : p.outstanding = l ++ a :: r) :
    transmitted (p.finish a (l ++ r)) 0 = transmitted p a.length := by
  obtain ⟨_, _, rest, hq⟩ := h.only ho
  simp [transmitted, Pump.finish, Pump.start, hq]

theorem transmitted_add {p : Pump (List β)} (h : p.Sound) {n m : Nat}
    (hm : Within p (n + m)) :
    transmitted p (n + m) =
      transmitted p n ++ (p.outstanding.flatten.drop n).take m := by
  rcases h.front with hnone | ⟨a, rest, ha, hq⟩
  · simp [Within, hnone] at hm
    simp [transmitted, hnone, hm]
  · simp only [Within, ha, List.flatten_singleton] at hm
    have hdrop : ((a ++ rest.flatten).drop n).take m = (a.drop n).take m := by
      rw [List.drop_append_of_le_length (by omega), List.take_append_of_le_length]
      simp only [List.length_drop]
      omega
    simp only [transmitted, ha, hq, List.flatten_cons, List.flatten_nil, List.append_nil,
      List.take_add, hdrop, List.append_assoc]

theorem remaining_add {p : Pump (List β)} (h : p.Sound) {n m : Nat} (hm : Within p (n + m)) :
    (remaining p (n + m)).length + m = (remaining p n).length := by
  have hbefore := remaining_length h n
  have hafter := remaining_length h (n + m)
  have hleft : ((p.outstanding.flatten.drop n).take m).length = m := by
    rw [List.length_take, List.length_drop]
    exact Nat.min_eq_left (Nat.le_sub_of_add_le' hm)
  rw [transmitted_add h hm, List.length_append, hleft] at hafter
  omega

end Blocks

end Pipeline
