import Sephi.Transition

/-!
Threads that share data under a mutex and a condition variable. One step is one critical
section, or a wakeup; a thread blocks in the step in which it gives up the mutex.
-/

set_option autoImplicit false

namespace Monitor
open Transition

variable {σ τ : Type}

/-- What a waiting call does with the data when it has the mutex, at first and each time
it has been woken. `none` blocks, or blocks again. -/
structure Wait (σ : Type) where
  enter : σ → Option σ
  resume : σ → Option σ

/-- `wait(lock, pred)`, then `done` -/
def Wait.until (pred : σ → Bool) (done : σ → σ) : Wait σ where
  enter d := if pred d then some (done d) else none
  resume d := if pred d then some (done d) else none

/-- `wait(lock)` -/
def Wait.plain : Wait σ where
  enter _ := none
  resume d := some d

/-- `signal` is what a signalling call does to the data before `notify_one`. -/
structure Program (σ : Type) where
  start : σ
  signal : σ → σ
  wait : Wait σ

structure Threads (σ τ : Type) where
  data : σ
  calling : List τ
  blocked : List τ
  woken : List τ
  -- the record of the run
  signals : Nat
  returned : Nat
  signalledSince : Bool

/-- `signal` names the thread that `notify_one` wakes; `wake` is a spurious wakeup. -/
inductive Event (τ : Type) where
  | signal (woke : Option τ)
  | call (t : τ)
  | enter (t : τ)
  | wake (t : τ)
  | resume (t : τ)
  deriving DecidableEq, Repr

def Threads.signalled (s : Threads σ τ) (d : σ) : Threads σ τ :=
  { s with data := d, signals := s.signals + 1, signalledSince := true }

def Threads.look (s : Threads σ τ) (t : τ) : Option σ → Threads σ τ
  | none => { s with blocked := s.blocked ++ [t] }
  | some d => { s with data := d, returned := s.returned + 1, signalledSince := false }

variable [DecidableEq τ]

def Program.step (p : Program σ) (s : Threads σ τ) : Event τ → Option (Threads σ τ)
  | .signal none =>
    if s.blocked = [] then some (s.signalled (p.signal s.data)) else none
  | .signal (some t) =>
    if t ∈ s.blocked then
      some { s.signalled (p.signal s.data) with
        blocked := s.blocked.erase t, woken := s.woken ++ [t] }
    else none
  | .call t =>
    if t ∉ s.calling ∧ t ∉ s.blocked ∧ t ∉ s.woken then
      some { s with calling := s.calling ++ [t] }
    else none
  | .enter t =>
    if t ∈ s.calling then
      some (Threads.look { s with calling := s.calling.erase t } t (p.wait.enter s.data))
    else none
  | .wake t =>
    if t ∈ s.blocked then
      some { s with blocked := s.blocked.erase t, woken := s.woken ++ [t] }
    else none
  | .resume t =>
    if t ∈ s.woken then
      some (Threads.look { s with woken := s.woken.erase t } t (p.wait.resume s.data))
    else none

def Program.machine (p : Program σ) (τ : Type) [DecidableEq τ] :
    Machine (Threads σ τ) (Event τ) where
  start := ⟨p.start, [], [], [], 0, 0, false⟩
  step := p.step

inductive Move (p : Program σ) (s : Threads σ τ) : Event τ → Threads σ τ → Prop where
  | unheard (h : s.blocked = []) : Move p s (.signal none) (s.signalled (p.signal s.data))
  | heard (t : τ) (h : t ∈ s.blocked) :
      Move p s (.signal (some t)) { s.signalled (p.signal s.data) with
        blocked := s.blocked.erase t, woken := s.woken ++ [t] }
  | call (t : τ) : Move p s (.call t) { s with calling := s.calling ++ [t] }
  | enter (t : τ) (h : t ∈ s.calling) :
      Move p s (.enter t)
        (Threads.look { s with calling := s.calling.erase t } t (p.wait.enter s.data))
  | wake (t : τ) (h : t ∈ s.blocked) :
      Move p s (.wake t) { s with blocked := s.blocked.erase t, woken := s.woken ++ [t] }
  | resume (t : τ) (h : t ∈ s.woken) :
      Move p s (.resume t)
        (Threads.look { s with woken := s.woken.erase t } t (p.wait.resume s.data))

theorem step_move {p : Program σ} {s u : Threads σ τ} {e : Event τ}
    (h : (p.machine τ).step s e = some u) : Move p s e u := by
  have h : p.step s e = some u := h
  cases e with
  | signal woke =>
    cases woke with
    | none =>
      simp only [Program.step, Option.ite_none_right_eq_some, Option.some.injEq] at h
      obtain ⟨hb, rfl⟩ := h
      exact .unheard hb
    | some t =>
      simp only [Program.step, Option.ite_none_right_eq_some, Option.some.injEq] at h
      obtain ⟨hb, rfl⟩ := h
      exact .heard t hb
  | call t =>
    simp only [Program.step, Option.ite_none_right_eq_some, Option.some.injEq] at h
    obtain ⟨_, rfl⟩ := h
    exact .call t
  | enter t =>
    simp only [Program.step, Option.ite_none_right_eq_some, Option.some.injEq] at h
    obtain ⟨hc, rfl⟩ := h
    exact .enter t hc
  | wake t =>
    simp only [Program.step, Option.ite_none_right_eq_some, Option.some.injEq] at h
    obtain ⟨hb, rfl⟩ := h
    exact .wake t hb
  | resume t =>
    simp only [Program.step, Option.ite_none_right_eq_some, Option.some.injEq] at h
    obtain ⟨hw, rfl⟩ := h
    exact .resume t hw

/-- No more waiting calls have returned than signals were given, and a signal given since
the last return has not passed by all that wait. -/
structure Threads.Answers (s : Threads σ τ) : Prop where
  counted : s.returned ≤ s.signals
  heard : ¬ (s.returned < s.signals ∧ s.signalledSince = true ∧ s.blocked ≠ [] ∧ s.woken = [])

section AutoReset

def Clears (flag : σ → Bool) (look : σ → Option σ) : Prop :=
  ∀ d, match look d with
    | none => flag d = false
    | some d' => flag d = true ∧ flag d' = false

theorem clears_until {flag : σ → Bool} {done : σ → σ} (h : ∀ d, flag (done d) = false) :
    Clears flag (Wait.until flag done).enter ∧ Clears flag (Wait.until flag done).resume := by
  have hlook : Clears flag fun d => if flag d then some (done d) else none := by
    intro d
    cases hd : flag d <;> simp [hd, h]
  exact ⟨hlook, hlook⟩

structure AutoReset (p : Program σ) (flag : σ → Bool) : Prop where
  start : flag p.start = false
  signal : ∀ d, flag (p.signal d) = true
  enter : Clears flag p.wait.enter
  resume : Clears flag p.wait.resume

/-- The flag stands for a signal that no return has used up, and while it is set somebody
is on the way to it or nobody is blocked. -/
structure Sound (flag : σ → Bool) (s : Threads σ τ) : Prop where
  counted : s.returned + (flag s.data).toNat ≤ s.signals
  heard : flag s.data = true → s.blocked = [] ∨ s.woken ≠ []
  since : s.signalledSince = true → flag s.data = true

variable {p : Program σ} {flag : σ → Bool}

omit [DecidableEq τ] in
theorem Sound.look {look : σ → Option σ} (hl : Clears flag look) {s : Threads σ τ}
    (hc : s.returned + (flag s.data).toNat ≤ s.signals)
    (hs : s.signalledSince = true → flag s.data = true) (t : τ) :
    Sound flag (s.look t (look s.data)) := by
  have hd := hl s.data
  cases hr : look s.data with
  | none =>
    rw [hr] at hd
    have hd : flag s.data = false := hd
    exact ⟨hc, fun hf => absurd (hd.symm.trans hf) (by decide), hs⟩
  | some d =>
    rw [hr] at hd
    obtain ⟨hset, hclear⟩ := hd
    rw [hset] at hc
    refine ⟨?_, fun hf => absurd (hclear.symm.trans hf) (by decide), fun hf => nomatch hf⟩
    simpa [Threads.look, hclear] using hc

theorem AutoReset.sound_step (h : AutoReset p flag) {s u : Threads σ τ} {e : Event τ}
    (hs : Sound flag s) (hm : Move p s e u) : Sound flag u := by
  have hcounted := hs.counted
  cases hm with
  | unheard hb =>
    refine ⟨?_, fun _ => .inl hb, fun _ => h.signal _⟩
    simp only [Threads.signalled, h.signal, Bool.toNat_true]
    omega
  | heard t hb =>
    refine ⟨?_, fun _ => .inr (by simp), fun _ => h.signal _⟩
    simp only [Threads.signalled, h.signal, Bool.toNat_true]
    omega
  | call t => exact ⟨hs.counted, hs.heard, hs.since⟩
  | enter t =>
    have hcalled := Sound.look h.enter (s := { s with calling := s.calling.erase t })
      hs.counted hs.since t
    exact hcalled
  | wake t hb => exact ⟨hs.counted, fun _ => .inr (by simp), hs.since⟩
  | resume t =>
    have hresumed := Sound.look h.resume (s := { s with woken := s.woken.erase t })
      hs.counted hs.since t
    exact hresumed

theorem AutoReset.sound (h : AutoReset p flag) {s : Threads σ τ}
    (hr : (p.machine τ).Reachable s) : Sound flag s := by
  have hstart : Sound flag (p.machine τ).start :=
    ⟨by simp [Program.machine, h.start], fun _ => .inl rfl, fun hf => nomatch hf⟩
  exact hr.invariant hstart fun _ _ _ hs hstep => h.sound_step hs (step_move hstep)

omit [DecidableEq τ] in
theorem Sound.answers {s : Threads σ τ} (h : Sound flag s) : s.Answers := by
  refine ⟨(Nat.le_add_right _ _).trans h.counted, ?_⟩
  rintro ⟨_, hsince, hb, hw⟩
  rcases h.heard (h.since hsince) with hnone | hsome
  · exact hb hnone
  · exact hsome hw

def AnswersEach (flag : σ → Bool) (s : Threads σ τ) : Prop :=
  s.returned + (flag s.data).toNat = s.signals

/-- Signals come only after the one before has been used up. -/
def Threads.Spaced (flag : σ → Bool) (s : Threads σ τ) : Event τ → Prop
  | .signal _ => flag s.data = false
  | _ => True

instance (flag : σ → Bool) (s : Threads σ τ) (e : Event τ) : Decidable (s.Spaced flag e) := by
  cases e <;> unfold Threads.Spaced <;> infer_instance

omit [DecidableEq τ] in
theorem AnswersEach.look {look : σ → Option σ} (hl : Clears flag look) {s : Threads σ τ}
    (hs : AnswersEach flag s) (t : τ) : AnswersEach flag (s.look t (look s.data)) := by
  have hd := hl s.data
  cases hr : look s.data with
  | none => exact hs
  | some d =>
    rw [hr] at hd
    obtain ⟨hset, hclear⟩ := hd
    rw [AnswersEach, hset] at hs
    simpa [AnswersEach, Threads.look, hclear] using hs

omit [DecidableEq τ] in
theorem answersEach_signalled (h : AutoReset p flag) {s : Threads σ τ}
    (hs : AnswersEach flag s) :
    AnswersEach flag (s.signalled (p.signal s.data)) ↔ flag s.data = false := by
  rw [AnswersEach] at hs
  simp only [AnswersEach, Threads.signalled, h.signal, Bool.toNat_true]
  cases hf : flag s.data with
  | false =>
    rw [hf, Bool.toNat_false] at hs
    exact iff_of_true (by omega) rfl
  | true =>
    rw [hf, Bool.toNat_true] at hs
    exact iff_of_false (by omega) Bool.noConfusion

theorem AutoReset.answersEach_step (h : AutoReset p flag) {s u : Threads σ τ} {e : Event τ}
    (hs : AnswersEach flag s) (hm : Move p s e u) :
    AnswersEach flag u ↔ s.Spaced flag e := by
  cases hm with
  | unheard hb => exact answersEach_signalled h hs
  | heard t hb => exact answersEach_signalled h hs
  | call t => exact iff_of_true hs trivial
  | enter t =>
    have hcalled := AnswersEach.look h.enter (s := { s with calling := s.calling.erase t }) hs t
    exact iff_of_true hcalled trivial
  | wake t hb => exact iff_of_true hs trivial
  | resume t =>
    have hresumed := AnswersEach.look h.resume (s := { s with woken := s.woken.erase t }) hs t
    exact iff_of_true hresumed trivial

theorem AutoReset.answersEach_iff_spaced (h : AutoReset p flag) {es : List (Event τ)}
    {s : Threads σ τ} (hrun : (p.machine τ).run es = some s) :
    (p.machine τ).Throughout (AnswersEach flag) es ↔
      (p.machine τ).EachStep (Threads.Spaced flag) es := by
  have hstart : AnswersEach flag (p.machine τ).start := by
    simp [AnswersEach, Program.machine, h.start]
  refine Machine.throughout_iff_eachStep hstart (fun _ hs => hs) ?_ ?_ hrun
  · intro s e u hs he hstep
    exact (h.answersEach_step hs (step_move hstep)).mpr he
  · intro s e u hs he hstep hu
    exact he ((h.answersEach_step hs (step_move hstep)).mp hu)

def Event.Onward : Event τ → Prop
  | .enter _ | .resume _ => True
  | .signal _ | .call _ | .wake _ => False

def Threads.work (s : Threads σ τ) : Nat := s.calling.length + s.woken.length

omit [DecidableEq τ] in
@[simp] theorem Threads.look_work (s : Threads σ τ) (t : τ) (d : Option σ) :
    (s.look t d).work = s.work := by
  cases d <;> rfl

theorem Move.work_lt {s u : Threads σ τ} {e : Event τ} (hm : Move p s e u) (he : e.Onward) :
    u.work < s.work := by
  cases hm with
  | unheard | heard | call | wake => exact he.elim
  | enter t ht =>
    rw [Threads.look_work]
    have hlen := List.length_erase_of_mem ht
    have hpos := List.length_pos_of_mem ht
    simp only [Threads.work]
    omega
  | resume t ht =>
    rw [Threads.look_work]
    have hlen := List.length_erase_of_mem ht
    have hpos := List.length_pos_of_mem ht
    simp only [Threads.work]
    omega

def Program.Stuck (p : Program σ) (s : Threads σ τ) : Prop :=
  ∀ e : Event τ, e.Onward → (p.machine τ).step s e = none

theorem Program.Stuck.work_eq {s : Threads σ τ} (h : p.Stuck s) : s.work = 0 := by
  obtain ⟨d, calling, blocked, woken, signals, returned, since⟩ := s
  cases calling with
  | cons t ts =>
    have hstep := h (.enter t) trivial
    simp [Program.machine, Program.step] at hstep
  | nil =>
    cases woken with
    | cons t ts =>
      have hstep := h (.resume t) trivial
      simp [Program.machine, Program.step] at hstep
    | nil => rfl

theorem AutoReset.come_to_rest (h : AutoReset p flag) {s u : Threads σ τ}
    {es : List (Event τ)} (hs : (p.machine τ).Reachable s) (hes : ∀ e ∈ es, e.Onward)
    (hrun : (p.machine τ).exec s es = some u) :
    es.length + u.work ≤ s.work ∧
      (p.Stuck u → u.blocked ≠ [] → flag u.data = false) := by
  refine ⟨Machine.exec_length_le (fun _ _ _ he hstep => (step_move hstep).work_lt he) hes hrun,
    fun hstuck hb => ?_⟩
  have hwoken : u.woken = [] := List.length_eq_zero_iff.mp (by
    have hwork := hstuck.work_eq
    rw [Threads.work] at hwork
    omega)
  cases hf : flag u.data with
  | false => rfl
  | true =>
    rcases (h.sound (hs.exec hrun)).heard hf with hnone | hsome
    · exact absurd hnone hb
    · exact absurd hwoken hsome

end AutoReset

section Plain

/-- What a program without data and without a predicate must not be asked to do: to let a
call block after a signal that passed by, or to wake a thread for which there is no
signal. -/
def Threads.Heeded (s : Threads σ τ) : Event τ → Prop
  | .enter _ => s.signalledSince = true → s.woken ≠ []
  | .wake _ => s.returned + s.woken.length < s.signals
  | _ => True

instance (s : Threads σ τ) (e : Event τ) : Decidable (s.Heeded e) := by
  cases e <;> unfold Threads.Heeded <;> infer_instance

structure Owed (s : Threads σ τ) : Prop where
  owed : s.returned + s.woken.length ≤ s.signals
  since : s.signalledSince = true → s.returned < s.signals
  heard : s.signalledSince = true → s.blocked = [] ∨ s.woken ≠ []

omit [DecidableEq τ] in
theorem Owed.answers {s : Threads σ τ} (h : Owed s) : s.Answers := by
  refine ⟨(Nat.le_add_right _ _).trans h.owed, ?_⟩
  rintro ⟨_, hsince, hb, hw⟩
  rcases h.heard hsince with hnone | hsome
  · exact hb hnone
  · exact hsome hw

variable {p : Program σ}

theorem Owed.step (hp : p.wait = .plain) {s u : Threads σ τ} {e : Event τ} (h : Owed s)
    (hm : Move p s e u) (he : s.Heeded e) : Owed u := by
  have howed := h.owed
  cases hm with
  | unheard hb =>
    refine ⟨?_, fun _ => ?_, fun _ => .inl hb⟩
    · simp only [Threads.signalled]
      omega
    · simp only [Threads.signalled]
      omega
  | heard t hb =>
    refine ⟨?_, fun _ => ?_, fun _ => .inr (by simp)⟩
    · simp only [Threads.signalled, List.length_append, List.length_singleton]
      omega
    · simp only [Threads.signalled]
      omega
  | call t => exact ⟨h.owed, h.since, h.heard⟩
  | enter t =>
    rw [hp]
    exact ⟨h.owed, h.since, fun hs => .inr (he hs)⟩
  | wake t =>
    have howed : s.returned + s.woken.length < s.signals := he
    refine ⟨?_, h.since, fun _ => .inr (by simp)⟩
    simp only [List.length_append, List.length_singleton]
    omega
  | resume t hw =>
    rw [hp]
    refine ⟨?_, fun hs => (nomatch hs), fun hs => nomatch hs⟩
    have hlen := List.length_erase_of_mem hw
    have hpos := List.length_pos_of_mem hw
    simp only [Wait.plain, Threads.look]
    omega

/-- `P` holds, and goes on to hold while threads that were woken resume. -/
def Program.WhileResuming (p : Program σ) (P : Threads σ τ → Prop) (s : Threads σ τ) : Prop :=
  ∀ (ts : List τ) u, (p.machine τ).exec s (ts.map .resume) = some u → P u

theorem Owed.whileResuming (hp : p.wait = .plain) {s : Threads σ τ} (h : Owed s) :
    p.WhileResuming Threads.Answers s := by
  intro ts
  induction ts generalizing s with
  | nil =>
    intro u hu
    obtain rfl : s = u := Option.some.inj hu
    exact h.answers
  | cons t ts ih =>
    intro u hu
    obtain ⟨v, hstep, hv⟩ := Option.bind_eq_some_iff.mp hu
    exact ih (h.step hp (step_move hstep) trivial) u hv

theorem resume_all (hp : p.wait = .plain) (s : Threads σ τ) :
    ∃ u, (p.machine τ).exec s (s.woken.map .resume) = some u ∧
      u.returned = s.returned + s.woken.length ∧ u.signals = s.signals := by
  obtain ⟨d, calling, blocked, woken, signals, returned, since⟩ := s
  induction woken generalizing d returned since with
  | nil => exact ⟨_, rfl, rfl, rfl⟩
  | cons t ts ih =>
    obtain ⟨u, hu, hreturned, hsignals⟩ := ih d (returned + 1) false
    refine ⟨u, ?_, ?_, hsignals⟩
    · simpa [Machine.exec, Program.machine, Program.step, Threads.look, hp, Wait.plain] using hu
    · simp only [List.length_cons]
      simp only at hreturned
      omega

theorem Owed.breaks (hp : p.wait = .plain) {s u : Threads σ τ} {e : Event τ} (h : Owed s)
    (hm : Move p s e u) (he : ¬ s.Heeded e) : ¬ p.WhileResuming Threads.Answers u := by
  intro hP
  cases hm with
  | enter t =>
    obtain ⟨hsince, hw⟩ : s.signalledSince = true ∧ s.woken = [] := by
      simpa [Threads.Heeded] using he
    have hu := hP [] _ rfl
    rw [hp] at hu
    exact hu.heard ⟨h.since hsince, hsince, by simp [Wait.plain, Threads.look], hw⟩
  | wake t =>
    have hfull : s.signals ≤ s.returned + s.woken.length := Nat.not_lt.mp he
    obtain ⟨v, hv, hreturned, hsignals⟩ := resume_all hp
      { s with blocked := s.blocked.erase t, woken := s.woken ++ [t] }
    have hcounted := (hP _ v hv).counted
    simp only [List.length_append, List.length_singleton] at hreturned hsignals
    omega
  | unheard | heard | call | resume => exact he trivial

theorem Program.answers_iff_heeded (hp : p.wait = .plain) {es : List (Event τ)}
    {s : Threads σ τ} (h : (p.machine τ).run es = some s) :
    (p.machine τ).Throughout (p.WhileResuming Threads.Answers) es ↔
      (p.machine τ).EachStep Threads.Heeded es := by
  refine Machine.throughout_iff_eachStep (I := Owed) ?_ ?_ ?_ ?_ h
  · exact ⟨Nat.le_refl 0, fun hs => (nomatch hs), fun hs => nomatch hs⟩
  · exact fun s hs => hs.whileResuming hp
  · exact fun s e u hs he hstep => hs.step hp (step_move hstep) he
  · exact fun s e u hs he hstep => hs.breaks hp (step_move hstep) he

end Plain

end Monitor
