import Mathlib.Logic.Relation
import Sephi.Transition

/-!
An outgoing queue that sends its front element and keeps it until the send has
completed. Nothing marks a send as running: the pump is started when the queue
was empty, and restarted by each completed send.
-/

set_option autoImplicit false

namespace Outbox

variable {α : Type}

theorem filterMap_erase_none {β : Type} [DecidableEq β] {f : β → Option α} {l : List β}
    {b : β} (hb : b ∈ l) (hf : f b = none) : (l.erase b).filterMap f = l.filterMap f := by
  obtain ⟨l₁, l₂, _, hl, he⟩ := List.exists_erase_eq hb
  rw [he, hl]
  simp [hf]

theorem filterMap_erase_some {β : Type} [DecidableEq β] {f : β → Option α} {l : List β}
    {b : β} {a : α} (hb : b ∈ l) (hf : f b = some a) :
    ∃ l₁ l₂, l.filterMap f = l₁ ++ a :: l₂ ∧ (l.erase b).filterMap f = l₁ ++ l₂ := by
  obtain ⟨l₁, l₂, _, hl, he⟩ := List.exists_erase_eq hb
  refine ⟨l₁.filterMap f, l₂.filterMap f, ?_, ?_⟩
  · rw [hl]
    simp [hf]
  · rw [he]
    simp

theorem countP_erase_of_mem {β : Type} [DecidableEq β] {l : List β} {b : β} (hb : b ∈ l)
    (f : β → Bool) : l.countP f = (l.erase b).countP f + (f b).toNat := by
  rw [(List.perm_cons_erase hb).countP_eq, List.countP_cons]
  cases f b with
  | true => rfl
  | false => rfl

/-- `waiting` elements are accepted but not queued yet; `completed` and `accepted`
only record what has happened. -/
structure Pump (α : Type) where
  waiting : List α
  queue : List α
  outstanding : List α
  completed : List α
  accepted : List α

def Pump.empty : Pump α := ⟨[], [], [], [], []⟩

def Pump.start (p : Pump α) : Pump α :=
  { p with outstanding := p.outstanding ++ p.queue.head?.toList }

def Pump.accept (p : Pump α) (a : α) : Pump α :=
  { p with waiting := p.waiting ++ [a], accepted := p.accepted ++ [a] }

def Pump.enter (p : Pump α) (a : α) (rest : List α) : Pump α :=
  if p.queue.isEmpty then
    Pump.start { p with waiting := rest, queue := p.queue ++ [a] }
  else { p with waiting := rest, queue := p.queue ++ [a] }

def Pump.finish (p : Pump α) (a : α) (others : List α) : Pump α :=
  Pump.start { p with
    outstanding := others, queue := p.queue.tail, completed := p.completed ++ [a] }

def Pump.fail (p : Pump α) (others : List α) : Pump α := { p with outstanding := others }

inductive Pump.Advance : Pump α → Pump α → Prop where
  | accept (p : Pump α) (a : α) : Advance p (p.accept a)
  | enter (p : Pump α) (a : α) (rest : List α) (h : p.waiting = a :: rest) :
      Advance p (p.enter a rest)
  | finish (p : Pump α) (a : α) (l r : List α) (h : p.outstanding = l ++ a :: r) :
      Advance p (p.finish a (l ++ r))

inductive Pump.Fails : Pump α → Pump α → Prop where
  | fail (p : Pump α) (a : α) (l r : List α) (h : p.outstanding = l ++ a :: r) :
      Fails p (p.fail (l ++ r))

abbrev Pump.Advances : Pump α → Pump α → Prop := Relation.ReflTransGen Pump.Advance

/-- At most one send is outstanding, it is the send of the front element, and what was
accepted is what was completed, then the queue, then what waits to enter it. -/
structure Pump.Sound (p : Pump α) : Prop where
  front : p.outstanding = [] ∨ ∃ a rest, p.outstanding = [a] ∧ p.queue = a :: rest
  conserved : p.completed ++ p.queue ++ p.waiting = p.accepted

def Pump.Trusted (p : Pump α) : Prop := p.queue = [] → p.completed = p.accepted

/-- A stalled pump has something to send and sends nothing. -/
def Pump.Stalled (p : Pump α) : Prop := p.outstanding = [] ∧ p.queue ≠ []

theorem Pump.sound_empty : (Pump.empty : Pump α).Sound := ⟨.inl rfl, rfl⟩

theorem Pump.not_stalled_empty : ¬ (Pump.empty : Pump α).Stalled := fun h => h.2 rfl

theorem Pump.Sound.single {p : Pump α} (h : p.Sound) : p.outstanding.length ≤ 1 := by
  rcases h.front with hn | ⟨a, rest, ha, _⟩
  · simp [hn]
  · simp [ha]

theorem Pump.Sound.only {p : Pump α} (h : p.Sound) {a : α} {l r : List α}
    (ho : p.outstanding = l ++ a :: r) :
    l = [] ∧ r = [] ∧ ∃ rest, p.queue = a :: rest := by
  rcases h.front with hn | ⟨b, rest, hb, hq⟩
  · simp [hn] at ho
  · rw [hb] at ho
    cases l with
    | nil =>
      obtain ⟨rfl, rfl⟩ : b = a ∧ [] = r := by simpa using ho
      exact ⟨rfl, rfl, rest, hq⟩
    | cons c l => simp at ho

theorem Pump.Sound.head {p : Pump α} (h : p.Sound) {a : α} (ha : a ∈ p.outstanding) :
    p.queue.head? = some a := by
  obtain ⟨l, r, hlr⟩ := List.append_of_mem ha
  obtain ⟨_, _, rest, hq⟩ := h.only hlr
  simp [hq]

theorem Pump.Sound.front_outstanding_iff {p : Pump α} (h : p.Sound) :
    (∀ a, p.queue.head? = some a → a ∈ p.outstanding) ↔ ¬ p.Stalled := by
  rcases h.front with hn | ⟨a, rest, ha, hq⟩
  · cases hq : p.queue <;> simp [Pump.Stalled, hn, hq]
  · simp [Pump.Stalled, ha, hq]

theorem Pump.Sound.sends {p : Pump α} (h : p.Sound) (hp : ¬ p.Stalled) (hq : p.queue ≠ []) :
    ∃ a, p.outstanding = [a] := by
  rcases h.front with hn | ⟨a, _, ha, _⟩
  · exact absurd ⟨hn, hq⟩ hp
  · exact ⟨a, ha⟩

theorem Pump.Sound.queue_iff {p : Pump α} (h : p.Sound) (hp : ¬ p.Stalled) :
    p.queue ≠ [] ↔ p.outstanding.length = 1 := by
  rcases h.front with hn | ⟨a, rest, ha, hq⟩
  · have hq : p.queue = [] := by
      by_contra hq
      exact hp ⟨hn, hq⟩
    simp [hn, hq]
  · simp [ha, hq]

theorem Pump.Sound.trusted_iff {p : Pump α} (h : p.Sound) :
    p.Trusted ↔ (p.waiting ≠ [] → p.queue ≠ []) := by
  have hc := h.conserved
  cases hq : p.queue with
  | nil =>
    rw [hq, List.append_nil] at hc
    simp [Pump.Trusted, hq, ← hc]
  | cons a rest => simp [Pump.Trusted, hq]

theorem Pump.Sound.nothing {p : Pump α} (h : p.Sound) (ha : p.accepted = []) :
    p.completed = [] ∧ p.queue = [] := by
  have hc := h.conserved
  rw [ha, List.append_eq_nil_iff, List.append_eq_nil_iff] at hc
  exact hc.1

theorem Pump.Advance.sound {p q : Pump α} (h : Pump.Advance p q) (hp : p.Sound) :
    q.Sound := by
  cases h with
  | accept a => exact ⟨hp.front, by simp [Pump.accept, ← hp.conserved]⟩
  | enter a rest hw =>
    have hc := hp.conserved
    rw [hw] at hc
    unfold Pump.enter
    split
    · rename_i he
      have hq : p.queue = [] := List.isEmpty_iff.mp he
      have hn : p.outstanding = [] := by
        rcases hp.front with hn | ⟨b, r, _, hb⟩
        · exact hn
        · simp [hq] at hb
      constructor
      · exact .inr ⟨a, [], by simp [Pump.start, hn, hq], by simp [Pump.start, hq]⟩
      · simpa [Pump.start] using hc
    · constructor
      · rcases hp.front with hn | ⟨b, r, hb, hq⟩
        · exact .inl hn
        · exact .inr ⟨b, r ++ [a], hb, by simp [hq]⟩
      · simpa using hc
  | finish a l r ho =>
    obtain ⟨rfl, rfl, rest, hq⟩ := hp.only ho
    have hc := hp.conserved
    constructor
    · cases rest with
      | nil => exact .inl (by simp [Pump.finish, Pump.start, hq])
      | cons b rest =>
        exact .inr ⟨b, rest, by simp [Pump.finish, Pump.start, hq],
          by simp [Pump.finish, Pump.start, hq]⟩
    · simpa [Pump.finish, Pump.start, hq] using hc

theorem Pump.Fails.sound {p q : Pump α} (h : Pump.Fails p q) (hp : p.Sound) : q.Sound := by
  cases h with
  | fail a l r ho =>
    obtain ⟨rfl, rfl, _⟩ := hp.only ho
    exact ⟨.inl rfl, hp.conserved⟩

theorem Pump.Advances.accepted {p q : Pump α} (h : Pump.Advances p q) :
    p.accepted <+: q.accepted := by
  induction h with
  | refl => exact List.prefix_refl _
  | tail _ hs ih =>
    refine ih.trans ?_
    cases hs with
    | accept a => exact List.prefix_append _ _
    | enter a rest =>
      unfold Pump.enter
      split <;> exact List.prefix_refl _
    | finish a l r => exact List.prefix_refl _

theorem Pump.Advances.sound {p q : Pump α} (h : Pump.Advances p q) (hp : p.Sound) :
    q.Sound := by
  induction h with
  | refl => exact hp
  | tail _ hs ih => exact hs.sound ih

theorem Pump.Advance.stalled_iff {p q : Pump α} (h : Pump.Advance p q) (hp : p.Sound) :
    q.Stalled ↔ p.Stalled := by
  cases h with
  | accept a => exact Iff.rfl
  | enter a rest hw =>
    unfold Pump.enter
    split
    · rename_i he
      have hq : p.queue = [] := List.isEmpty_iff.mp he
      simp [Pump.Stalled, Pump.start, hq]
    · rename_i he
      have hq : p.queue ≠ [] := fun hn => he (by simp [hn])
      simp [Pump.Stalled, hq]
  | finish a l r ho =>
    obtain ⟨rfl, rfl, rest, hq⟩ := hp.only ho
    have hs : ¬ p.Stalled := by simp [Pump.Stalled, ho]
    cases rest <;> simp_all [Pump.Stalled, Pump.finish, Pump.start]

theorem Pump.Advances.stalled_iff {p q : Pump α} (h : Pump.Advances p q) (hp : p.Sound) :
    q.Stalled ↔ p.Stalled := by
  induction h with
  | refl => exact Iff.rfl
  | tail hpq hs ih => exact (hs.stalled_iff (Pump.Advances.sound hpq hp)).trans ih

theorem Pump.Fails.stalled {p q : Pump α} (h : Pump.Fails p q) (hp : p.Sound) :
    q.Stalled := by
  cases h with
  | fail a l r ho =>
    obtain ⟨rfl, rfl, rest, hq⟩ := hp.only ho
    exact ⟨rfl, by simp [Pump.fail, hq]⟩

theorem Pump.accept_all (p : Pump α) (as : List α) :
    Pump.Advances p { p with waiting := p.waiting ++ as, accepted := p.accepted ++ as } := by
  induction as using List.reverseRecOn with
  | nil => simpa using Relation.ReflTransGen.refl
  | append_singleton as a ih =>
    have hs := Pump.Advance.accept { p with
      waiting := p.waiting ++ as, accepted := p.accepted ++ as } a
    simp only [Pump.accept, List.append_assoc] at hs
    exact ih.tail hs

section Runs
open Transition

variable {σ ε : Type} {m : Machine σ ε} {pump : σ → Pump α} {fails : ε → Prop}

/-- The machine `m` works the pump, and `fails` are the events of a failed send. -/
structure Drives (m : Machine σ ε) (pump : σ → Pump α) (fails : ε → Prop) : Prop where
  start : pump m.start = Pump.empty
  advances : ∀ {s e t}, m.step s e = some t → ¬ fails e → Pump.Advances (pump s) (pump t)
  failed : ∀ {s e t}, m.step s e = some t → fails e →
    ∃ p, Pump.Fails (pump s) p ∧ Pump.Advances p (pump t)

theorem Drives.sound (h : Drives m pump fails) {es : List ε} {s : σ}
    (hrun : m.run es = some s) : (pump s).Sound := by
  refine Machine.run_invariant (I := fun s => (pump s).Sound) ?_ ?_ hrun
  · rw [h.start]
    exact Pump.sound_empty
  · intro s e t hs hstep
    by_cases he : fails e
    · obtain ⟨p, hf, hp⟩ := h.failed hstep he
      exact Pump.Advances.sound hp (hf.sound hs)
    · exact Pump.Advances.sound (h.advances hstep he) hs

theorem Drives.stalled_iff (h : Drives m pump fails) {es : List ε} {s : σ}
    (hrun : m.run es = some s) : (pump s).Stalled ↔ ∃ e ∈ es, fails e := by
  refine Machine.run_induction (motive := fun es s => (pump s).Stalled ↔ ∃ e ∈ es, fails e)
    ?_ ?_ hrun
  · rw [h.start]
    simpa using Pump.not_stalled_empty
  · intro es s e t hes ih hstep
    have hs := h.sound hes
    by_cases he : fails e
    · obtain ⟨p, hf, hp⟩ := h.failed hstep he
      have ht := (Pump.Advances.stalled_iff hp (hf.sound hs)).mpr (hf.stalled hs)
      simp [ht, he]
    · rw [Pump.Advances.stalled_iff (h.advances hstep he) hs, ih]
      simp [he]

theorem Drives.accepted (h : Drives m pump fails) {s t : σ} {e : ε}
    (hstep : m.step s e = some t) : (pump s).accepted <+: (pump t).accepted := by
  by_cases he : fails e
  · obtain ⟨p, hf, hp⟩ := h.failed hstep he
    cases hf with
    | fail a l r => exact hp.accepted
  · exact (h.advances hstep he).accepted

theorem Drives.trusted_iff (h : Drives m pump fails)
    (hone : ∀ {s e t}, m.step s e = some t → (pump t).accepted = (pump s).accepted ∨
      ((pump t).queue = (pump s).queue ∧ (pump t).completed = (pump s).completed))
    {es : List ε} {s : σ} (hrun : m.run es = some s) :
    m.Throughout (fun s => (pump s).Trusted) es ↔ (pump s).accepted = [] := by
  constructor
  · refine Machine.run_induction (motive := fun es s =>
      m.Throughout (fun s => (pump s).Trusted) es → (pump s).accepted = []) ?_ ?_ hrun
    · rw [h.start]
      exact fun _ => rfl
    · intro es s e t hes ih hstep htrusted
      have hnone := ih (htrusted.restrict (List.prefix_append es [e]))
      rcases hone hstep with ha | ⟨hq, hc⟩
      · exact ha.trans hnone
      · obtain ⟨hcompleted, hqueue⟩ := (h.sound hes).nothing hnone
        have hlast := htrusted _ t (List.prefix_refl _) (Machine.run_snoc.mpr ⟨s, hes, hstep⟩)
        rw [← hlast (hq.trans hqueue), hc, hcompleted]
  · refine Machine.run_induction (motive := fun es s =>
      (pump s).accepted = [] → m.Throughout (fun s => (pump s).Trusted) es) ?_ ?_ hrun
    · intro hnone pre t hpre ht _
      obtain rfl := List.prefix_nil.mp hpre
      cases ht
      rw [h.start]
      rfl
    · intro es s e t hes ih hstep hnone pre u hpre hu
      rcases List.prefix_concat_iff.mp hpre with rfl | hshort
      · cases (Machine.run_snoc.mpr ⟨s, hes, hstep⟩).symm.trans hu
        intro _
        rw [hnone, ((h.sound hu).nothing hnone).1]
      · have hbefore := h.accepted hstep
        rw [hnone, List.prefix_nil] at hbefore
        exact ih hbefore pre u hshort hu

/-- `live` says when the machine is connected, and `opens` are the steps that leave it
so from anew. A failed send ends the connection. -/
structure Connects (m : Machine σ ε) (fails : ε → Prop) (opens : σ → ε → Prop)
    (live : σ → Prop) : Prop where
  start : ¬ live m.start
  opened : ∀ {s e t}, m.step s e = some t → opens s e → live t
  kept : ∀ {s e t}, m.step s e = some t → live t → opens s e ∨ live s
  dropped : ∀ {s e t}, m.step s e = some t → fails e → ¬ live t

theorem Connects.eachStep_iff {opens : σ → ε → Prop} {live : σ → Prop}
    (h : Drives m pump fails) (hc : Connects m fails opens live) {es : List ε} {s : σ}
    (hrun : m.run es = some s) :
    m.Throughout (fun s => live s → ¬ (pump s).Stalled) es ↔
      m.EachStep (fun s e => opens s e → ¬ (pump s).Stalled) es := by
  have hsame : ∀ {s e t}, (pump s).Sound → m.step s e = some t → ¬ fails e →
      ((pump t).Stalled ↔ (pump s).Stalled) :=
    fun hs hstep he => Pump.Advances.stalled_iff (h.advances hstep he) hs
  refine Machine.throughout_iff_eachStep
    (I := fun s => (pump s).Sound ∧ (live s → ¬ (pump s).Stalled)) ?_ ?_ ?_ ?_ hrun
  · exact ⟨h.sound (show m.run [] = some m.start from rfl), fun hl => absurd hl hc.start⟩
  · exact fun s hs => hs.2
  · intro s e t hs hcond hstep
    refine ⟨?_, fun hl => ?_⟩
    · by_cases he : fails e
      · obtain ⟨p, hf, hp⟩ := h.failed hstep he
        exact Pump.Advances.sound hp (hf.sound hs.1)
      · exact Pump.Advances.sound (h.advances hstep he) hs.1
    · have he : ¬ fails e := fun he => hc.dropped hstep he hl
      rw [hsame hs.1 hstep he]
      exact (hc.kept hstep hl).elim hcond hs.2
  · intro s e t hs hcond hstep hnever
    obtain ⟨hopen, hstalled⟩ : opens s e ∧ (pump s).Stalled := by simpa using hcond
    have hl := hc.opened hstep hopen
    have he : ¬ fails e := fun he => hc.dropped hstep he hl
    exact hnever hl ((hsame hs.1 hstep he).mpr hstalled)

theorem Connects.never_stalled_iff {opens : σ → ε → Prop} {live : σ → Prop}
    (h : Drives m pump fails) (hc : Connects m fails opens live) {es : List ε} {s : σ}
    (hrun : m.run es = some s) :
    m.Throughout (fun s => live s → ¬ (pump s).Stalled) es ↔
      ∀ pre e s, pre ++ [e] <+: es → m.run pre = some s → opens s e →
        ∀ f ∈ pre, ¬ fails f := by
  rw [hc.eachStep_iff h hrun]
  refine forall_congr' fun pre => forall_congr' fun e => forall_congr' fun s =>
    forall_congr' fun _ => forall_congr' fun hpre => ?_
  simp [h.stalled_iff hpre]

end Runs

end Outbox
