import Mathlib.Data.List.Basic

/-!
Memory that is stored to, loaded from and released by address, and what a change of it
does to a buffer of which somebody has kept the address and the size.
-/

set_option autoImplicit false

namespace Storage

variable {β : Type}

/-- `none` where nothing is allocated. -/
def Memory (β : Type) : Type := Nat → Option β

structure Buffer where
  address : Nat
  size : Nat
  deriving DecidableEq, Repr

def Buffer.Contains (buffer : Buffer) (k : Nat) : Prop :=
  buffer.address ≤ k ∧ k < buffer.address + buffer.size

instance (buffer : Buffer) (k : Nat) : Decidable (buffer.Contains k) :=
  inferInstanceAs (Decidable (_ ∧ _))

def Memory.empty : Memory β := fun _ => none

def Memory.loadFrom (m : Memory β) (address : Nat) : Nat → Option (List β)
  | 0 => some []
  | size + 1 =>
    (m address).bind fun b => (m.loadFrom (address + 1) size).map (b :: ·)

def Memory.load (m : Memory β) (buffer : Buffer) : Option (List β) :=
  m.loadFrom buffer.address buffer.size

def Memory.store (m : Memory β) (address : Nat) (content : List β) : Memory β := fun k =>
  if Buffer.Contains ⟨address, content.length⟩ k then content[k - address]? else m k

def Memory.free (m : Memory β) (buffer : Buffer) : Memory β := fun k =>
  if buffer.Contains k then none else m k

def Memory.Fresh (m : Memory β) (buffer : Buffer) : Prop :=
  ∀ k < buffer.size, m (buffer.address + k) = none

/-- The memory `n` has in the buffer what `m` has there. -/
def Buffer.Left (buffer : Buffer) (m n : Memory β) : Prop :=
  ∀ k < buffer.size, n (buffer.address + k) = m (buffer.address + k)

instance [DecidableEq β] (m : Memory β) (buffer : Buffer) : Decidable (m.Fresh buffer) :=
  inferInstanceAs (Decidable (∀ k < buffer.size, _ = _))

instance [DecidableEq β] (buffer : Buffer) (m n : Memory β) : Decidable (buffer.Left m n) :=
  inferInstanceAs (Decidable (∀ k < buffer.size, _ = _))

theorem Memory.loadFrom_eq_some_iff (m : Memory β) (address size : Nat) (content : List β) :
    m.loadFrom address size = some content ↔
      content.length = size ∧ ∀ k < size, m (address + k) = content[k]? := by
  induction size generalizing address content with
  | zero => simp [Memory.loadFrom, eq_comm]
  | succ size ih =>
    cases content with
    | nil => simp [Memory.loadFrom, Option.bind_eq_some_iff]
    | cons b bs =>
      simp only [Memory.loadFrom, Option.bind_eq_some_iff, Option.map_eq_some_iff, ih,
        List.length_cons, Nat.add_right_cancel_iff]
      constructor
      · rintro ⟨c, hc, ds, ⟨hlen, hds⟩, heq⟩
        obtain ⟨rfl, rfl⟩ := List.cons.inj heq
        refine ⟨hlen, fun k hk => ?_⟩
        cases k with
        | zero => exact hc
        | succ k =>
          rw [List.getElem?_cons_succ, ← hds k (Nat.lt_of_succ_lt_succ hk)]
          congr 1
          omega
      · rintro ⟨hlen, hbs⟩
        refine ⟨b, hbs 0 (Nat.succ_pos size), bs, ⟨hlen, fun k hk => ?_⟩, rfl⟩
        have hnext := hbs (k + 1) (Nat.succ_lt_succ hk)
        rw [List.getElem?_cons_succ] at hnext
        rw [← hnext]
        congr 1
        omega

theorem Memory.load_eq_some_iff (m : Memory β) (buffer : Buffer) (content : List β) :
    m.load buffer = some content ↔ content.length = buffer.size ∧
      ∀ k < buffer.size, m (buffer.address + k) = content[k]? :=
  m.loadFrom_eq_some_iff buffer.address buffer.size content

theorem Buffer.load_iff_left {m n : Memory β} {buffer : Buffer} {content : List β}
    (h : m.load buffer = some content) :
    n.load buffer = some content ↔ buffer.Left m n := by
  rw [Memory.load_eq_some_iff] at h ⊢
  constructor
  · exact fun hn k hk => (hn.2 k hk).trans (h.2 k hk).symm
  · exact fun hn => ⟨h.1, fun k hk => (hn k hk).trans (h.2 k hk)⟩

theorem Memory.load_store (m : Memory β) (address : Nat) (content : List β) :
    (m.store address content).load ⟨address, content.length⟩ = some content := by
  rw [Memory.load_eq_some_iff]
  refine ⟨rfl, fun k hk => ?_⟩
  have hin : Buffer.Contains ⟨address, content.length⟩ (address + k) :=
    ⟨Nat.le_add_right _ _, Nat.add_lt_add_left hk _⟩
  rw [Memory.store, if_pos hin, Nat.add_sub_cancel_left]

theorem Memory.Fresh.left {m : Memory β} {address : Nat} {stored content : List β}
    (h : m.Fresh ⟨address, stored.length⟩) {buffer : Buffer}
    (hb : m.load buffer = some content) : buffer.Left m (m.store address stored) := by
  intro k hk
  obtain ⟨hlen, hcontent⟩ := (Memory.load_eq_some_iff m buffer content).mp hb
  refine if_neg fun ⟨hlow, hhigh⟩ => ?_
  have hlow : address ≤ buffer.address + k := hlow
  have hhigh : buffer.address + k < address + stored.length := hhigh
  have hnone : m (address + (buffer.address + k - address)) = none :=
    h (buffer.address + k - address) (Nat.sub_lt_left_of_lt_add hlow hhigh)
  rw [Nat.add_sub_cancel' hlow, hcontent k hk] at hnone
  have hout := List.getElem?_eq_none_iff.mp hnone
  omega

end Storage
