import Mathlib.Data.List.Basic

/-!
A condition variable whose `notify_one` is called after the mutex has been given up, and
the rule by which no wakeup is lost all the same.
-/

set_option autoImplicit false

namespace Waiting

variable {α β : Type}

/-- `blocked` wait, `woken` do not have the mutex back yet, and `notifying` have given it
up and are about to call `notify_one`. -/
structure Condition (α β : Type) where
  blocked : List α
  woken : List α
  notifying : List β
  deriving DecidableEq, Repr

namespace Condition

def idle : Condition α β := ⟨[], [], []⟩

def block (c : Condition α β) (a : α) : Condition α β := { c with blocked := c.blocked ++ [a] }

def owe (c : Condition α β) (b : β) : Condition α β := { c with notifying := c.notifying ++ [b] }

def waiting (c : Condition α β) : List α := c.blocked ++ c.woken

/-- Those that are on the way are enough for `n` to be used up, unless nobody is blocked. -/
def Attended (c : Condition α β) (n : Nat) : Prop :=
  c.blocked = [] ∨ n ≤ c.woken.length + c.notifying.length

def work (c : Condition α β) : Nat :=
  3 * c.waiting.length + 2 * c.notifying.length + c.woken.length

def Quiet (c : Condition α β) : Prop := c.woken = [] ∧ c.notifying = []

/-- `notify_one` wakes one of the blocked if there is one. -/
def CanWake (c : Condition α β) : Option α → Prop
  | none => c.blocked = []
  | some a => a ∈ c.blocked

variable {c : Condition α β} {a : α} {b : β} {n : Nat}

theorem waiting_block (c : Condition α β) (a : α) : (c.block a).waiting.Perm (a :: c.waiting) := by
  simp only [Condition.block, waiting, List.append_assoc, List.singleton_append]
  exact List.perm_middle

theorem blocked_of_waiting (h : c.waiting.length = 0) : c.blocked = [] :=
  (List.append_eq_nil_iff.mp (List.eq_nil_of_length_eq_zero h)).1

theorem exists_canWake (c : Condition α β) : ∃ woke, c.CanWake woke := by
  cases hb : c.blocked with
  | nil => exact ⟨none, hb⟩
  | cons a rest =>
    have hmem : a ∈ c.blocked := hb ▸ List.mem_cons_self
    exact ⟨some a, hmem⟩

theorem Quiet.blocked (hq : c.Quiet) (h : c.Attended n) (hw : c.waiting ≠ []) : n = 0 := by
  rcases h with hb | hn
  · rw [waiting, hb, hq.1] at hw
    exact absurd rfl hw
  · rw [hq.1, hq.2] at hn
    exact Nat.eq_zero_of_le_zero hn

theorem work_owe (c : Condition α β) (b : β) : (c.owe b).work = c.work + 2 := by
  simp only [work, owe, waiting, List.length_append, List.length_singleton]
  omega

theorem work_block (c : Condition α β) (a : α) : (c.block a).work = c.work + 3 := by
  simp only [work, block, waiting, List.length_append, List.length_singleton]
  omega

theorem attended_zero (c : Condition α β) : c.Attended 0 := .inr (Nat.zero_le _)

theorem Attended.mono {m : Nat} (h : c.Attended n) (hm : m ≤ n) : c.Attended m :=
  h.imp_right fun hn => Nat.le_trans hm hn

theorem Attended.owe (h : c.Attended n) (b : β) : (c.owe b).Attended (n + 1) := by
  rcases h with hb | hn
  · exact .inl hb
  · refine .inr ?_
    simp only [Condition.owe, List.length_append, List.length_singleton]
    exact Nat.succ_le_succ hn

/-- The condition `d` is as `c`, but for the notifications `more` that are on their way to
it besides. -/
structure Told (c d : Condition α β) (more : List β) : Prop where
  blocked : d.blocked = c.blocked
  woken : d.woken = c.woken
  notifying : d.notifying.Perm (c.notifying ++ more)

namespace Told

variable {d : Condition α β} {more : List β}

theorem block (h : Told c d more) (a : α) : Told (c.block a) (d.block a) more :=
  ⟨congrArg (· ++ [a]) h.blocked, h.woken, h.notifying⟩

theorem owe (h : Told c d more) (b : β) : Told (c.owe b) (d.owe b) more := by
  refine ⟨h.blocked, h.woken, (h.notifying.append_right [b]).trans ?_⟩
  simp only [Condition.owe, List.append_assoc]
  exact List.perm_append_comm.append_left _

theorem oweMore (h : Told c d more) (b : β) : Told c (d.owe b) (more ++ [b]) := by
  refine ⟨h.blocked, h.woken, (h.notifying.append_right [b]).trans ?_⟩
  rw [List.append_assoc]

end Told

variable [DecidableEq α]

instance (c : Condition α β) : (woke : Option α) → Decidable (c.CanWake woke)
  | none => inferInstanceAs (Decidable (c.blocked = []))
  | some a => inferInstanceAs (Decidable (a ∈ c.blocked))

def wake (c : Condition α β) (a : α) : Condition α β :=
  { c with blocked := c.blocked.erase a, woken := c.woken ++ [a] }

def resume (c : Condition α β) (a : α) : Condition α β := { c with woken := c.woken.erase a }

def notify [DecidableEq β] (c : Condition α β) (b : β) : Option α → Condition α β
  | none => { c with notifying := c.notifying.erase b }
  | some a => { c with notifying := c.notifying.erase b }.wake a

theorem waiting_wake (ha : a ∈ c.blocked) : (c.wake a).waiting.Perm c.waiting := by
  have hblocked := (List.perm_cons_erase ha).append_right c.woken
  refine List.Perm.trans ?_ hblocked.symm
  simp only [Condition.wake, waiting]
  rw [← List.append_assoc]
  exact List.perm_append_singleton a _

theorem waiting_resume (ha : a ∈ c.woken) : c.waiting.Perm (a :: (c.resume a).waiting) := by
  have hwoken := (List.perm_cons_erase ha).append_left c.blocked
  exact hwoken.trans List.perm_middle

theorem waiting_notify [DecidableEq β] {woke : Option α} (hw : c.CanWake woke) :
    (c.notify b woke).waiting.Perm c.waiting := by
  cases woke with
  | none => exact .refl _
  | some a => exact waiting_wake (c := { c with notifying := c.notifying.erase b }) hw

theorem work_resume (ha : a ∈ c.woken) : (c.resume a).work + 4 = c.work := by
  have hpos := List.length_pos_of_mem ha
  simp only [work, resume, waiting, List.length_append, List.length_erase_of_mem ha]
  omega

theorem notifying_notify [DecidableEq β] (hb : b ∈ c.notifying) (woke : Option α) :
    c.notifying.Perm (b :: (c.notify b woke).notifying) := by
  cases woke <;> exact List.perm_cons_erase hb

theorem work_notify [DecidableEq β] (hb : b ∈ c.notifying) {woke : Option α}
    (hw : c.CanWake woke) : (c.notify b woke).work < c.work := by
  have hwaiting := (waiting_notify (b := b) hw).length_eq
  have hnotifying := (notifying_notify hb woke).length_eq
  have hwoken : (c.notify b woke).woken.length ≤ c.woken.length + 1 := by
    cases woke with
    | none => exact Nat.le_succ _
    | some a => exact Nat.le_of_eq List.length_append
  simp only [work, hwaiting]
  rw [List.length_cons] at hnotifying
  omega

theorem Attended.wake (h : c.Attended n) (ha : a ∈ c.blocked) : (c.wake a).Attended n := by
  rcases h with hb | hn
  · exact absurd ha (hb ▸ List.not_mem_nil)
  · refine .inr (Nat.le_trans hn ?_)
    simp only [Condition.wake, List.length_append]
    exact Nat.add_le_add_right (Nat.le_add_right _ _) _

theorem Attended.resume (h : c.Attended n) (ha : a ∈ c.woken) :
    (c.resume a).Attended (n - 1) := by
  rcases h with hb | hn
  · exact .inl hb
  · refine .inr ?_
    have hpos := List.length_pos_of_mem ha
    simp only [Condition.resume, List.length_erase_of_mem ha]
    omega

theorem Attended.notify [DecidableEq β] (h : c.Attended n) (hb : b ∈ c.notifying)
    {woke : Option α} (hw : c.CanWake woke) : (c.notify b woke).Attended n := by
  cases woke with
  | none => exact .inl hw
  | some a =>
    rcases h with hnone | hn
    · have hw : a ∈ c.blocked := hw
      exact absurd hw (hnone ▸ List.not_mem_nil)
    · refine .inr ?_
      have hpos := List.length_pos_of_mem hb
      simp only [Condition.notify, Condition.wake, List.length_append, List.length_singleton,
        List.length_erase_of_mem hb]
      omega

namespace Told

variable {d : Condition α β} {more : List β}

theorem wake (h : Told c d more) (a : α) : Told (c.wake a) (d.wake a) more :=
  ⟨congrArg (·.erase a) h.blocked, congrArg (· ++ [a]) h.woken, h.notifying⟩

theorem resume (h : Told c d more) (a : α) : Told (c.resume a) (d.resume a) more :=
  ⟨h.blocked, congrArg (·.erase a) h.woken, h.notifying⟩

variable [DecidableEq β]

theorem notify (h : Told c d more) (hb : b ∈ c.notifying) (woke : Option α) :
    Told (c.notify b woke) (d.notify b woke) more := by
  have hperm : (d.notifying.erase b).Perm (c.notifying.erase b ++ more) := by
    rw [← List.erase_append_left _ hb]
    exact h.notifying.erase b
  cases woke with
  | none => exact ⟨h.blocked, h.woken, hperm⟩
  | some a => exact ⟨congrArg (·.erase a) h.blocked, congrArg (· ++ [a]) h.woken, hperm⟩

end Told

end Condition

end Waiting
