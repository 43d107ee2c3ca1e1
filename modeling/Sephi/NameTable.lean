import Mathlib.Data.List.Basic
import Mathlib.Logic.Function.Basic
import Sephi.Transition

/-!
Names of a system and the objects behind them. Removing a name leaves the objects as they
are: what is attached stays attached, and the name can be given to a new object.
-/

set_option autoImplicit false

namespace NameTable
open Transition

variable {κ ν : Type}

/-- Objects are numbered as they are made. -/
structure Table (κ : Type) where
  object : κ → Option Nat
  made : Nat
  bound : ∀ k o, object k = some o → o < made

inductive Mode where
  | createOnly | openOnly | openOrCreate
  deriving DecidableEq, Repr

def Table.empty : Table κ := ⟨fun _ => none, 0, fun _ _ h => nomatch h⟩

variable [DecidableEq κ]

def Table.make (t : Table κ) (k : κ) : Table κ where
  object := Function.update t.object k (some t.made)
  made := t.made + 1
  bound i o h := by
    by_cases hi : i = k
    · subst hi
      rw [Function.update_self] at h
      cases h
      exact Nat.lt_succ_self t.made
    · rw [Function.update_of_ne hi] at h
      exact Nat.lt_succ_of_lt (t.bound i o h)

def Table.remove (t : Table κ) (k : κ) : Table κ where
  object := Function.update t.object k none
  made := t.made
  bound i o h := by
    by_cases hi : i = k
    · subst hi
      simp at h
    · rw [Function.update_of_ne hi] at h
      exact t.bound i o h

def Table.attach (t : Table κ) (mode : Mode) (k : κ) : Option (Nat × Table κ) :=
  match mode, t.object k with
  | .createOnly, some _ => none
  | .openOnly, none => none
  | _, some o => some (o, t)
  | _, none => some (t.made, t.make k)

def Table.attachAll (mode : Mode) : Table κ → List κ → Option (List Nat × Table κ)
  | t, [] => some ([], t)
  | t, k :: ks =>
    (t.attach mode k).bind fun first =>
      (attachAll mode first.2 ks).map fun others => (first.1 :: others.1, others.2)

def Table.removeAll (t : Table κ) (ks : List κ) : Table κ := ks.foldl Table.remove t

@[simp] theorem Table.removeAll_made (t : Table κ) (ks : List κ) :
    (t.removeAll ks).made = t.made := by
  induction ks generalizing t with
  | nil => rfl
  | cons k ks ih => exact ih (t.remove k)

theorem Table.removeAll_of_mem {k : κ} {ks : List κ} (h : k ∈ ks) (t : Table κ) :
    (t.removeAll ks).object k = none := by
  have hkeep : ∀ (ks : List κ) (t : Table κ), t.object k = none →
      (t.removeAll ks).object k = none := by
    intro ks
    induction ks with
    | nil => exact fun _ ht => ht
    | cons i ks ih =>
      intro t ht
      refine ih (t.remove i) ?_
      by_cases hi : k = i
      · simp [Table.remove, hi]
      · simp [Table.remove, Function.update_of_ne hi, ht]
  induction ks generalizing t with
  | nil => simp at h
  | cons i ks ih =>
    rcases List.mem_cons.mp h with rfl | h
    · exact hkeep ks (t.remove k) (by simp [Table.remove])
    · exact ih h (t.remove i)

theorem Table.removeAll_of_not_mem {k : κ} {ks : List κ} (h : k ∉ ks) (t : Table κ) :
    (t.removeAll ks).object k = t.object k := by
  induction ks generalizing t with
  | nil => rfl
  | cons i ks ih =>
    rw [List.mem_cons, not_or] at h
    refine (ih h.2 (t.remove i)).trans ?_
    simp [Table.remove, Function.update_of_ne h.1]

def Table.Extends (t u : Table κ) : Prop :=
  t.made ≤ u.made ∧ ∀ k o, t.object k = some o → u.object k = some o

omit [DecidableEq κ] in
theorem Table.Extends.refl (t : Table κ) : t.Extends t := ⟨Nat.le_refl _, fun _ _ h => h⟩

omit [DecidableEq κ] in
theorem Table.Extends.trans {t u v : Table κ} (h : t.Extends u) (h' : u.Extends v) :
    t.Extends v :=
  ⟨h.1.trans h'.1, fun k o hk => h'.2 k o (h.2 k o hk)⟩

theorem Table.attach_spec {t u : Table κ} {mode : Mode} {k : κ} {o : Nat}
    (h : t.attach mode k = some (o, u)) :
    (t.object k = some o ∧ u = t) ∨ (t.object k = none ∧ o = t.made ∧ u = t.make k) := by
  cases hk : t.object k with
  | some o' =>
    have ho : o' = o ∧ t = u := by
      cases mode with
      | createOnly => simp [Table.attach, hk] at h
      | openOnly | openOrCreate => simpa [Table.attach, hk] using h
    exact .inl ⟨congrArg some ho.1, ho.2.symm⟩
  | none =>
    have ho : t.made = o ∧ t.make k = u := by
      cases mode with
      | openOnly => simp [Table.attach, hk] at h
      | createOnly | openOrCreate => simpa [Table.attach, hk] using h
    exact .inr ⟨rfl, ho.1.symm, ho.2.symm⟩

theorem Table.attach_extends {t u : Table κ} {mode : Mode} {k : κ} {o : Nat}
    (h : t.attach mode k = some (o, u)) : t.Extends u ∧ u.object k = some o := by
  rcases Table.attach_spec h with ⟨hk, rfl⟩ | ⟨hk, rfl, rfl⟩
  · exact ⟨.refl u, hk⟩
  · refine ⟨⟨Nat.le_succ _, fun i o hi => ?_⟩, by simp [Table.make]⟩
    have hne : i ≠ k := by
      rintro rfl
      simp [hk] at hi
    simpa [Table.make, Function.update_of_ne hne] using hi

def Table.Names (t : Table κ) (ks : List κ) (os : List Nat) : Prop :=
  ks.map t.object = os.map some

omit [DecidableEq κ] in
theorem Table.Names.known {t : Table κ} {ks : List κ} {os : List Nat} (h : t.Names ks os)
    {k : κ} (hk : k ∈ ks) : t.object k ≠ none := by
  intro hnone
  have hmem : none ∈ os.map some := h ▸ hnone ▸ List.mem_map_of_mem hk
  simp at hmem

omit [DecidableEq κ] in
theorem Table.Names.unique {t : Table κ} {ks : List κ} {os os' : List Nat}
    (h : t.Names ks os) (h' : t.Names ks os') : os = os' :=
  List.map_injective_iff.mpr (fun _ _ ho => Option.some.inj ho) (h.symm.trans h')

omit [DecidableEq κ] in
theorem Table.Names.congr {t u : Table κ} {ks : List κ} {os : List Nat} (h : t.Names ks os)
    (hu : ∀ k ∈ ks, u.object k = t.object k) : u.Names ks os :=
  (List.map_congr_left hu).trans h

omit [DecidableEq κ] in
theorem Table.Names.extends {t u : Table κ} {ks : List κ} {os : List Nat}
    (h : t.Names ks os) (hu : t.Extends u) : u.Names ks os := by
  refine h.congr fun k hk => ?_
  obtain ⟨o, ho⟩ := Option.ne_none_iff_exists'.mp (h.known hk)
  rw [ho, hu.2 k o ho]

theorem Table.attachAll_names {mode : Mode} {ks : List κ} {t u : Table κ} {os : List Nat}
    (h : t.attachAll mode ks = some (os, u)) : t.Extends u ∧ u.Names ks os := by
  induction ks generalizing t os with
  | nil =>
    obtain ⟨rfl, rfl⟩ : [] = os ∧ t = u := by simpa [Table.attachAll] using h
    exact ⟨.refl t, rfl⟩
  | cons k ks ih =>
    obtain ⟨⟨o, v⟩, hfirst, hothers⟩ := Option.bind_eq_some_iff.mp h
    obtain ⟨⟨os', w⟩, hrest, heq⟩ := Option.map_eq_some_iff.mp hothers
    obtain ⟨rfl, rfl⟩ : o :: os' = os ∧ w = u := Prod.mk.inj heq
    obtain ⟨hext, hobject⟩ := Table.attach_extends hfirst
    obtain ⟨hext', hnames⟩ := ih hrest
    refine ⟨hext.trans hext', ?_⟩
    rw [Table.Names, List.map_cons, List.map_cons, hext'.2 k o hobject, hnames]

theorem Table.attachAll_old {mode : Mode} {ks : List κ} {t u : Table κ} {os : List Nat}
    (h : t.attachAll mode ks = some (os, u)) (hold : ∀ o ∈ os, o < t.made) :
    t.Names ks os := by
  induction ks generalizing t os with
  | nil =>
    obtain ⟨rfl, rfl⟩ : [] = os ∧ t = u := by simpa [Table.attachAll] using h
    rfl
  | cons k ks ih =>
    obtain ⟨⟨o, v⟩, hfirst, hothers⟩ := Option.bind_eq_some_iff.mp h
    obtain ⟨⟨os', w⟩, hrest, heq⟩ := Option.map_eq_some_iff.mp hothers
    obtain ⟨rfl, rfl⟩ : o :: os' = os ∧ w = u := Prod.mk.inj heq
    rcases Table.attach_spec hfirst with ⟨hk, rfl⟩ | ⟨_, rfl, _⟩
    · have hnames := ih hrest fun i hi => hold i (List.mem_cons_of_mem o hi)
      rw [Table.Names, List.map_cons, List.map_cons, hk, hnames]
    · exact absurd (hold t.made List.mem_cons_self) (Nat.lt_irrefl _)

theorem Table.attachAll_openOnly (t : Table κ) (ks : List κ) :
    (t.attachAll .openOnly ks).isSome ↔ ∀ k ∈ ks, t.object k ≠ none := by
  induction ks with
  | nil => simp [Table.attachAll]
  | cons k ks ih =>
    cases hk : t.object k with
    | none => simp [Table.attachAll, Table.attach, hk]
    | some o => simpa [Table.attachAll, Table.attach, hk] using ih

/-- Objects of several classes: the system names that the name `n` of an object stands
for, and the modes in which the class can be constructed. -/
structure Classes (κ ν : Type) where
  keys : ν → List κ
  modes : ν → List Mode

structure Handle (ν : Type) where
  name : ν
  objects : List Nat
  deriving DecidableEq, Repr

structure State (κ ν : Type) where
  table : Table κ
  live : List (Handle ν)

inductive Event (ν : Type) where
  | construct (mode : Mode) (n : ν)
  | destroy (handle : Handle ν)
  deriving DecidableEq, Repr

variable [DecidableEq ν]

/-- The destructor removes the names, whoever else has them. -/
def Classes.step (cs : Classes κ ν) (s : State κ ν) : Event ν → Option (State κ ν)
  | .construct mode n =>
    if mode ∈ cs.modes n then
      (s.table.attachAll mode (cs.keys n)).map fun r => ⟨r.2, s.live ++ [⟨n, r.1⟩]⟩
    else none
  | .destroy handle =>
    if handle ∈ s.live then
      some ⟨s.table.removeAll (cs.keys handle.name), s.live.erase handle⟩
    else none

/-- `t` holds the names that the system has at the start. -/
def Classes.machine (cs : Classes κ ν) (t : Table κ) : Machine (State κ ν) (Event ν) :=
  ⟨⟨t, []⟩, cs.step⟩

inductive Classes.Move (cs : Classes κ ν) (s : State κ ν) : Event ν → State κ ν → Prop where
  | construct (mode : Mode) (n : ν) (os : List Nat) (u : Table κ)
      (h : s.table.attachAll mode (cs.keys n) = some (os, u)) :
      Move cs s (.construct mode n) ⟨u, s.live ++ [⟨n, os⟩]⟩
  | destroy (handle : Handle ν) (h : handle ∈ s.live) :
      Move cs s (.destroy handle)
        ⟨s.table.removeAll (cs.keys handle.name), s.live.erase handle⟩

theorem Classes.step_move {cs : Classes κ ν} {t : Table κ} {s u : State κ ν} {e : Event ν}
    (h : (cs.machine t).step s e = some u) : cs.Move s e u := by
  have h : cs.step s e = some u := h
  cases e with
  | construct mode n =>
    simp only [Classes.step, Option.ite_none_right_eq_some, Option.map_eq_some_iff] at h
    obtain ⟨_, ⟨os, v⟩, hattach, rfl⟩ := h
    exact .construct mode n os v hattach
  | destroy handle =>
    simp only [Classes.step, Option.ite_none_right_eq_some, Option.some.injEq] at h
    obtain ⟨hlive, rfl⟩ := h
    exact .destroy handle hlive

/-- Objects of one name are attached to the same. -/
def State.Alike (s : State κ ν) : Prop :=
  ∀ h ∈ s.live, ∀ h' ∈ s.live, h.name = h'.name → h.objects = h'.objects

/-- Under the name of an object, of a class that can be opened, another can be opened. -/
def Classes.Opens (cs : Classes κ ν) (s : State κ ν) : Prop :=
  ∀ h ∈ s.live, .openOnly ∈ cs.modes h.name →
    (s.table.attachAll .openOnly (cs.keys h.name)).isSome

/-- No destructor takes a name away from an object that can be opened, and no object is
constructed under a name that a live one has lost. -/
def Classes.Keeps (cs : Classes κ ν) (s : State κ ν) : Event ν → Prop
  | .destroy handle => ∀ h ∈ s.live.erase handle, .openOnly ∈ cs.modes h.name →
      ∀ k ∈ cs.keys h.name, k ∉ cs.keys handle.name
  | .construct _ n => ∀ h ∈ s.live, h.name = n → s.table.Names (cs.keys n) h.objects

instance (t : Table κ) (ks : List κ) (os : List Nat) : Decidable (t.Names ks os) :=
  inferInstanceAs (Decidable (_ = _))

instance (cs : Classes κ ν) (s : State κ ν) (e : Event ν) : Decidable (cs.Keeps s e) := by
  cases e <;> unfold Classes.Keeps <;> infer_instance

structure Classes.Sound (cs : Classes κ ν) (s : State κ ν) : Prop where
  alike : s.Alike
  bound : ∀ h ∈ s.live, ∀ o ∈ h.objects, o < s.table.made
  names : ∀ h ∈ s.live, .openOnly ∈ cs.modes h.name →
    s.table.Names (cs.keys h.name) h.objects

variable {cs : Classes κ ν}

omit [DecidableEq ν] in
theorem Classes.Sound.opens {s : State κ ν} (h : cs.Sound s) : cs.Opens s :=
  fun a ha hm => (Table.attachAll_openOnly _ _).mpr fun _ hk => (h.names a ha hm).known hk

omit [DecidableEq κ] in
theorem Table.Names.lt_made {t : Table κ} {ks : List κ} {os : List Nat} (h : t.Names ks os)
    {o : Nat} (ho : o ∈ os) : o < t.made := by
  have hmem : some o ∈ ks.map t.object := h ▸ List.mem_map_of_mem ho
  obtain ⟨k, _, hk⟩ := List.mem_map.mp hmem
  exact t.bound k o hk

theorem Classes.Sound.construct {s : State κ ν} (h : cs.Sound s) {mode : Mode} {n : ν}
    {os : List Nat} {u : Table κ} (hkept : cs.Keeps s (.construct mode n))
    (hattach : s.table.attachAll mode (cs.keys n) = some (os, u)) :
    cs.Sound ⟨u, s.live ++ [⟨n, os⟩]⟩ := by
  obtain ⟨hext, hnames⟩ := Table.attachAll_names hattach
  have hold : ∀ a ∈ s.live, a.name = n → a.objects = os :=
    fun a ha hname => ((hkept a ha hname).extends hext).unique hnames
  refine ⟨fun a ha b hb hname => ?_, fun a ha o ho => ?_, fun a ha hm => ?_⟩
  · rcases List.mem_append.mp ha with ha | ha
    · rcases List.mem_append.mp hb with hb | hb
      · exact h.alike a ha b hb hname
      · obtain rfl := List.mem_singleton.mp hb
        exact hold a ha hname
    · obtain rfl := List.mem_singleton.mp ha
      rcases List.mem_append.mp hb with hb | hb
      · exact (hold b hb hname.symm).symm
      · obtain rfl := List.mem_singleton.mp hb
        rfl
  · rcases List.mem_append.mp ha with ha | ha
    · exact Nat.lt_of_lt_of_le (h.bound a ha o ho) hext.1
    · obtain rfl := List.mem_singleton.mp ha
      exact hnames.lt_made ho
  · rcases List.mem_append.mp ha with ha | ha
    · exact (h.names a ha hm).extends hext
    · obtain rfl := List.mem_singleton.mp ha
      exact hnames

theorem Classes.Sound.destroy {s : State κ ν} (h : cs.Sound s) {handle : Handle ν}
    (hkept : cs.Keeps s (.destroy handle)) :
    cs.Sound ⟨s.table.removeAll (cs.keys handle.name), s.live.erase handle⟩ := by
  have hlive : ∀ a ∈ s.live.erase handle, a ∈ s.live := fun _ => List.mem_of_mem_erase
  refine ⟨fun a ha b hb => h.alike a (hlive a ha) b (hlive b hb), fun a ha o ho => ?_,
    fun a ha hm => ?_⟩
  · rw [Table.removeAll_made]
    exact h.bound a (hlive a ha) o ho
  · exact (h.names a (hlive a ha) hm).congr fun k hk =>
      Table.removeAll_of_not_mem (hkept a ha hm k hk) s.table

theorem Classes.Sound.breaks {s u : State κ ν} {e : Event ν} (h : cs.Sound s)
    (he : ¬ cs.Keeps s e) (hm : cs.Move s e u) : ¬ (u.Alike ∧ cs.Opens u) := by
  rintro ⟨halike, hopens⟩
  cases hm with
  | construct mode n os v hattach =>
    simp only [Classes.Keeps, not_forall] at he
    obtain ⟨a, ha, hname, hlost⟩ := he
    have heq : a.objects = os := halike a (by simp [ha]) ⟨n, os⟩ (by simp) hname
    exact hlost (heq ▸ Table.attachAll_old hattach fun o ho => h.bound a ha o (heq ▸ ho))
  | destroy handle _ =>
    simp only [Classes.Keeps, not_forall, not_not] at he
    obtain ⟨a, ha, hmode, k, hk, hkeys⟩ := he
    exact (Table.attachAll_openOnly _ _).mp (hopens a ha hmode) k hk
      (Table.removeAll_of_mem hkeys s.table)

theorem Classes.alike_opens_iff {t : Table κ} {es : List (Event ν)} {s : State κ ν}
    (h : (cs.machine t).run es = some s) :
    (cs.machine t).Throughout (fun s => s.Alike ∧ cs.Opens s) es ↔
      (cs.machine t).EachStep cs.Keeps es := by
  refine Machine.throughout_iff_eachStep (I := cs.Sound) ?_ ?_ ?_ ?_ h
  · exact ⟨fun a ha => (nomatch ha), fun a ha => (nomatch ha), fun a ha => (nomatch ha)⟩
  · exact fun s hs => ⟨hs.alike, hs.opens⟩
  · intro s e u hs he hstep
    cases Classes.step_move hstep with
    | construct mode n os v hattach => exact hs.construct he hattach
    | destroy handle _ => exact hs.destroy he
  · exact fun s e u hs he hstep => hs.breaks he (Classes.step_move hstep)

end NameTable
