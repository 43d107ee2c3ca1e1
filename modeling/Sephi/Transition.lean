import Mathlib.Data.List.Basic
import Mathlib.Data.List.Infix
import Mathlib.Logic.Relation

/-!
Machines driven by events, and the two rules every run-level result rests on:
an invariant holds along a run, and a property holds in all states of a run
exactly when all of its steps meet a condition.
-/

set_option autoImplicit false

namespace Transition

/-- `none` means that the event cannot occur in that state. -/
structure Machine (σ ε : Type) where
  start : σ
  step : σ → ε → Option σ

variable {σ ε : Type} {m : Machine σ ε}

def Machine.exec (m : Machine σ ε) : σ → List ε → Option σ
  | s, [] => some s
  | s, e :: es => (m.step s e).bind fun t => m.exec t es

def Machine.run (m : Machine σ ε) (es : List ε) : Option σ := m.exec m.start es

def Machine.Reachable (m : Machine σ ε) (s : σ) : Prop := ∃ es, m.run es = some s

theorem Machine.exec_append (s : σ) (es fs : List ε) :
    m.exec s (es ++ fs) = (m.exec s es).bind fun t => m.exec t fs := by
  induction es generalizing s with
  | nil => rfl
  | cons e es ih =>
    simp only [List.cons_append, Machine.exec, Option.bind_assoc, ih]

theorem Machine.run_append (es fs : List ε) :
    m.run (es ++ fs) = (m.run es).bind fun t => m.exec t fs :=
  Machine.exec_append m.start es fs

theorem Machine.run_snoc {es : List ε} {e : ε} {t : σ} :
    m.run (es ++ [e]) = some t ↔ ∃ s, m.run es = some s ∧ m.step s e = some t := by
  rw [Machine.run_append]
  simp [Machine.exec, Option.bind_eq_some_iff]

theorem Machine.run_induction {motive : List ε → σ → Prop} (hstart : motive [] m.start)
    (hstep : ∀ es s e t, m.run es = some s → motive es s → m.step s e = some t →
      motive (es ++ [e]) t)
    {es : List ε} {s : σ} (h : m.run es = some s) : motive es s := by
  induction es using List.reverseRecOn generalizing s with
  | nil =>
    cases h
    exact hstart
  | append_singleton es e ih =>
    obtain ⟨t, ht, hs⟩ := Machine.run_snoc.mp h
    exact hstep es t e s ht (ih ht) hs

theorem Machine.run_invariant {I : σ → Prop} (hstart : I m.start)
    (hstep : ∀ s e t, I s → m.step s e = some t → I t)
    {es : List ε} {s : σ} (h : m.run es = some s) : I s :=
  Machine.run_induction (motive := fun _ s => I s) hstart
    (fun _ s e t _ hi hs => hstep s e t hi hs) h

theorem Machine.Reachable.invariant {I : σ → Prop} (hstart : I m.start)
    (hstep : ∀ s e t, I s → m.step s e = some t → I t)
    {s : σ} (h : m.Reachable s) : I s := by
  obtain ⟨es, hes⟩ := h
  exact Machine.run_invariant hstart hstep hes

theorem Machine.Reachable.start : m.Reachable m.start := ⟨[], rfl⟩

theorem Machine.Reachable.exec {s t : σ} {es : List ε} (h : m.Reachable s)
    (hs : m.exec s es = some t) : m.Reachable t := by
  obtain ⟨pre, hpre⟩ := h
  exact ⟨pre ++ es, by rw [Machine.run_append, hpre]; exact hs⟩

theorem Machine.Reachable.step {s t : σ} {e : ε} (h : m.Reachable s)
    (hs : m.step s e = some t) : m.Reachable t := by
  obtain ⟨es, hes⟩ := h
  exact ⟨es ++ [e], Machine.run_snoc.mpr ⟨s, hes, hs⟩⟩

/-- `P` holds in every state the run `es` passes through. -/
def Machine.Throughout (m : Machine σ ε) (P : σ → Prop) (es : List ε) : Prop :=
  ∀ pre s, pre <+: es → m.run pre = some s → P s

/-- Every step of the run `es` is taken from a state that meets `C` for its event. -/
def Machine.EachStep (m : Machine σ ε) (C : σ → ε → Prop) (es : List ε) : Prop :=
  ∀ pre e s, pre ++ [e] <+: es → m.run pre = some s → C s e

theorem Machine.Throughout.restrict {P : σ → Prop} {es pre : List ε}
    (h : m.Throughout P es) (hp : pre <+: es) : m.Throughout P pre :=
  fun p s hps => h p s (hps.trans hp)

theorem Machine.EachStep.restrict {C : σ → ε → Prop} {es pre : List ε}
    (h : m.EachStep C es) (hp : pre <+: es) : m.EachStep C pre :=
  fun p e s hps => h p e s (hps.trans hp)

theorem Machine.eachStep_nil (C : σ → ε → Prop) : m.EachStep C [] := by
  intro pre e s hpre _
  simp at hpre

theorem Machine.eachStep_snoc {C : σ → ε → Prop} (es : List ε) {e : ε} {s : σ}
    (h : m.run es = some s) :
    m.EachStep C (es ++ [e]) ↔ m.EachStep C es ∧ C s e := by
  constructor
  · intro hc
    exact ⟨hc.restrict (List.prefix_append es [e]), hc es e s (List.prefix_refl _) h⟩
  · rintro ⟨hes, he⟩ pre f t hpre ht
    rcases List.prefix_concat_iff.mp hpre with heq | hshort
    · obtain ⟨rfl, hfe⟩ := List.append_inj' heq rfl
      cases hfe
      cases h.symm.trans ht
      exact he
    · exact hes pre f t hshort ht

theorem Machine.EachStep.append {C : σ → ε → Prop} {es fs : List ε} (h : m.EachStep C es)
    (hfs : ∀ s, ∀ e ∈ fs, C s e) : m.EachStep C (es ++ fs) := by
  intro pre e s hpre hs
  obtain ⟨post, hpost⟩ := hpre
  rcases List.append_eq_append_iff.mp hpost with ⟨mid, hes, _⟩ | ⟨mid, hpre, hfs'⟩
  · exact h pre e s ⟨mid, hes.symm⟩ hs
  · cases mid using List.reverseRecOn with
    | nil =>
      rw [List.append_nil] at hpre
      exact h pre e s (hpre ▸ List.prefix_refl _) hs
    | append_singleton mid f =>
      rw [← List.append_assoc] at hpre
      obtain rfl : e = f := List.singleton_inj.mp (List.append_inj' hpre rfl).2
      exact hfs s e (hfs' ▸ by simp)

def Machine.checks (m : Machine σ ε) (C : σ → ε → Bool) : σ → List ε → Bool
  | _, [] => true
  | s, e :: es => C s e && (m.step s e).all fun t => m.checks C t es

theorem Machine.eachStep_of_checks {C : σ → ε → Prop} [∀ s e, Decidable (C s e)]
    {es : List ε} (h : m.checks (fun s e => decide (C s e)) m.start es = true) :
    m.EachStep C es := by
  have hexec : ∀ es s, m.checks (fun s e => decide (C s e)) s es = true →
      ∀ pre e t, pre ++ [e] <+: es → m.exec s pre = some t → C t e := by
    intro es
    induction es with
    | nil =>
      intro s _ pre e t hpre
      simp at hpre
    | cons f es ih =>
      intro s hs pre e t hpre ht
      obtain ⟨hf, hrest⟩ : C s f ∧ (m.step s f).all _ = true := by
        simpa [Machine.checks] using hs
      cases pre with
      | nil =>
        obtain ⟨rfl, _⟩ := List.cons_prefix_cons.mp hpre
        obtain rfl : s = t := Option.some.inj ht
        exact hf
      | cons g pre =>
        obtain ⟨rfl, htail⟩ := List.cons_prefix_cons.mp hpre
        obtain ⟨u, hu, hexec⟩ := Option.bind_eq_some_iff.mp ht
        rw [hu] at hrest
        exact ih u hrest pre e t htail hexec
  exact fun pre e s hpre hs => hexec es m.start h pre e s hpre hs

theorem Machine.EachStep.invariant {I : σ → Prop} {C : σ → ε → Prop} (hstart : I m.start)
    (hkeep : ∀ s e t, I s → C s e → m.step s e = some t → I t)
    {es : List ε} {s : σ} (hc : m.EachStep C es) (h : m.run es = some s) : I s := by
  revert hc
  refine Machine.run_induction (motive := fun es s => m.EachStep C es → I s)
    (fun _ => hstart) ?_ h
  intro es s e t hrun ih hs hc
  have hi := ih (hc.restrict (List.prefix_append es [e]))
  exact hkeep s e t hi (hc es e s (List.prefix_refl _) hrun) hs

theorem Machine.EachStep.imp {I : σ → Prop} {C D : σ → ε → Prop} (hstart : I m.start)
    (hkeep : ∀ s e t, I s → m.step s e = some t → I t)
    (himp : ∀ s e, I s → C s e → D s e)
    {es : List ε} (hc : m.EachStep C es) : m.EachStep D es :=
  fun pre e s hpre hs => himp s e (Machine.run_invariant hstart hkeep hs) (hc pre e s hpre hs)

def Machine.Leads (m : Machine σ ε) (C : σ → ε → Prop) : σ → σ → Prop :=
  Relation.ReflTransGen fun s t => ∃ e, C s e ∧ m.step s e = some t

theorem Machine.Leads.step {C : σ → ε → Prop} {s t : σ} (e : ε) (hc : C s e)
    (hs : m.step s e = some t) : m.Leads C s t := .single ⟨e, hc, hs⟩

theorem Machine.Leads.run {C : σ → ε → Prop} {s : σ} (h : m.Leads C m.start s) :
    ∃ es, m.run es = some s ∧ m.EachStep C es := by
  induction h with
  | refl => exact ⟨[], rfl, Machine.eachStep_nil C⟩
  | tail _ hs ih =>
    obtain ⟨es, hrun, hes⟩ := ih
    obtain ⟨e, he, hstep⟩ := hs
    exact ⟨es ++ [e], Machine.run_snoc.mpr ⟨_, hrun, hstep⟩,
      (Machine.eachStep_snoc es hrun).mpr ⟨hes, he⟩⟩

/-- In a run whose steps meet `D`: if steps that meet `C` keep an invariant that gives `P`,
and a step that does not meet `C` ends in a state without `P`, then `P` holds throughout
exactly when each step meets `C`. -/
theorem Machine.throughout_iff_eachStep_of {I P : σ → Prop} {C D : σ → ε → Prop}
    (hstart : I m.start) (hgood : ∀ s, I s → P s)
    (hkeep : ∀ s e t, I s → C s e → m.step s e = some t → I t)
    (hbreak : ∀ s e t, I s → D s e → ¬ C s e → m.step s e = some t → ¬ P t)
    {es : List ε} {s : σ} (hd : m.EachStep D es) (h : m.run es = some s) :
    m.Throughout P es ↔ m.EachStep C es := by
  constructor
  · intro hP
    refine Machine.run_induction
      (motive := fun es _ => m.EachStep D es → m.Throughout P es → m.EachStep C es)
      (fun _ _ => Machine.eachStep_nil C) ?_ h hd hP
    intro es s e t hrun ih hs hd hP
    have hinit := List.prefix_append es [e]
    have hbefore := ih (hd.restrict hinit) (hP.restrict hinit)
    have hlast : m.run (es ++ [e]) = some t := Machine.run_snoc.mpr ⟨s, hrun, hs⟩
    refine (Machine.eachStep_snoc es hrun).mpr ⟨hbefore, ?_⟩
    by_contra hc
    exact hbreak s e t (hbefore.invariant hstart hkeep hrun) (hd es e s (List.prefix_refl _) hrun)
      hc hs (hP _ t (List.prefix_refl _) hlast)
  · intro hc pre t hpre ht
    exact hgood t ((hc.restrict hpre).invariant hstart hkeep ht)

theorem Machine.throughout_iff_eachStep {I P : σ → Prop} {C : σ → ε → Prop}
    (hstart : I m.start) (hgood : ∀ s, I s → P s)
    (hkeep : ∀ s e t, I s → C s e → m.step s e = some t → I t)
    (hbreak : ∀ s e t, I s → ¬ C s e → m.step s e = some t → ¬ P t)
    {es : List ε} {s : σ} (h : m.run es = some s) :
    m.Throughout P es ↔ m.EachStep C es :=
  Machine.throughout_iff_eachStep_of (D := fun _ _ => True) hstart hgood hkeep
    (fun s e t hi _ => hbreak s e t hi) (fun _ _ _ _ _ => trivial) h

theorem Machine.throughout_congr {P Q : σ → Prop} {es : List ε}
    (h : ∀ pre s, m.run pre = some s → (P s ↔ Q s)) :
    m.Throughout P es ↔ m.Throughout Q es :=
  forall_congr' fun pre => forall_congr' fun s => forall_congr' fun _ =>
    forall_congr' fun hs => h pre s hs

theorem Machine.exec_length_le {P : ε → Prop} {μ : σ → Nat}
    (hless : ∀ s e t, P e → m.step s e = some t → μ t < μ s) {es : List ε} {s t : σ}
    (hp : ∀ e ∈ es, P e) (h : m.exec s es = some t) : es.length + μ t ≤ μ s := by
  induction es generalizing s with
  | nil =>
    cases h
    exact Nat.le_of_eq (Nat.zero_add _)
  | cons e es ih =>
    obtain ⟨u, hu, hrest⟩ := Option.bind_eq_some_iff.mp h
    have hlen := ih (fun e he => hp e (List.mem_cons_of_mem _ he)) hrest
    have hfirst := hless s e u (hp e List.mem_cons_self) hu
    rw [List.length_cons]
    omega

def Machine.count (m : Machine σ ε) (p : σ → ε → Bool) : σ → List ε → Nat
  | _, [] => 0
  | s, e :: es => (p s e).toNat + (m.step s e).elim 0 fun t => m.count p t es

theorem Machine.count_le {I : σ → Prop} {P : ε → Prop} {p : σ → ε → Bool} {μ : σ → Nat}
    (hkeep : ∀ s e t, I s → m.step s e = some t → I t)
    (hless : ∀ s e t, I s → P e → m.step s e = some t → (p s e).toNat + μ t ≤ μ s)
    {es : List ε} {s t : σ} (hi : I s) (hp : ∀ e ∈ es, P e) (h : m.exec s es = some t) :
    m.count p s es + μ t ≤ μ s := by
  induction es generalizing s with
  | nil =>
    cases h
    exact Nat.le_of_eq (Nat.zero_add _)
  | cons e es ih =>
    obtain ⟨u, hu, hrest⟩ := Option.bind_eq_some_iff.mp h
    have hfirst := hless s e u hi (hp e List.mem_cons_self) hu
    have hlater := ih (hkeep s e u hi hu) (fun e he => hp e (List.mem_cons_of_mem _ he)) hrest
    have hcount : m.count p s (e :: es) = (p s e).toNat + m.count p u es := by
      rw [Machine.count, hu]
      rfl
    omega

/-- `P` holds of every entry of the record `h` and the entries before it. -/
def Along {α : Type} (P : List α → α → Prop) (h : List α) : Prop :=
  ∀ pre a post, h = pre ++ a :: post → P pre a

theorem along_nil {α : Type} (P : List α → α → Prop) : Along P [] := by
  intro pre a post h
  simp at h

theorem along_snoc {α : Type} {P : List α → α → Prop} {h : List α} {a : α} :
    Along P (h ++ [a]) ↔ Along P h ∧ P h a := by
  constructor
  · intro ha
    refine ⟨fun pre b post hb => ha pre b (post ++ [a]) ?_, ha h a [] rfl⟩
    rw [hb, List.append_assoc, List.cons_append]
  · rintro ⟨hh, ha⟩ pre b post hb
    cases post using List.reverseRecOn with
    | nil =>
      obtain ⟨rfl, hab⟩ := List.append_inj' hb rfl
      cases hab
      exact ha
    | append_singleton post c =>
      rw [← List.cons_append, ← List.append_assoc] at hb
      exact hh pre b post (List.append_inj' hb rfl).1

end Transition
