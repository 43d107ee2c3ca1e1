import Sephi.Transition

/-!
A loop that returns as soon as it has nothing left to do and is never started again.
-/

set_option autoImplicit false

namespace EventLoop
open Transition

/-- The thread of the loop: inside the loop, past its return, or gone with the process. -/
inductive Runner where
  | running | returned | terminated
  deriving DecidableEq, Repr

variable {σ ε : Type} {m : Machine σ ε} {runner : σ → Runner} {Pending Inv : σ → Prop}
  {adds : ε → Prop}

/-- The machine `m` works through what is pending. After the return of the loop only the
events `adds` make something pending. -/
structure Works (m : Machine σ ε) (runner : σ → Runner) (Pending Inv : σ → Prop)
    (adds : ε → Prop) : Prop where
  inv_start : Inv m.start
  inv_step : ∀ {s e t}, Inv s → m.step s e = some t → Inv t
  start : runner m.start = .running ∧ Pending m.start
  busy : ∀ {s e t}, m.step s e = some t → runner t = .running → Pending t
  drained : ∀ {s e t}, m.step s e = some t → runner s = .running →
    runner t = .returned → ¬ Pending t
  late : ∀ {s e t}, Inv s → runner s = .returned → ¬ Pending s → m.step s e = some t →
    runner t = .returned ∧ (Pending t ↔ adds e)
  gone : ∀ {s e t}, runner s = .terminated → m.step s e = some t →
    runner t = .terminated ∧ ¬ adds e

structure Sound (runner : σ → Runner) (Pending Inv : σ → Prop) (s : σ) : Prop where
  inv : Inv s
  running : runner s = .running → Pending s
  returned : runner s = .returned → ¬ Pending s

theorem Works.sound_step (h : Works m runner Pending Inv adds) {s t : σ} {e : ε}
    (hs : Sound runner Pending Inv s) (he : adds e → Pending s)
    (hstep : m.step s e = some t) : Sound runner Pending Inv t := by
  refine ⟨h.inv_step hs.inv hstep, h.busy hstep, fun ht => ?_⟩
  cases hr : runner s with
  | running => exact h.drained hstep hr ht
  | returned =>
    have hp := hs.returned hr
    rw [(h.late hs.inv hr hp hstep).2]
    exact fun ha => hp (he ha)
  | terminated => simp [(h.gone hr hstep).1] at ht

theorem Works.outlives_iff (h : Works m runner Pending Inv adds) {es : List ε} {s : σ}
    (hrun : m.run es = some s) :
    m.Throughout (fun s => runner s = .returned → ¬ Pending s) es ↔
      m.EachStep (fun s e => adds e → Pending s) es := by
  refine Machine.throughout_iff_eachStep (I := Sound runner Pending Inv) ?_ ?_ ?_ ?_ hrun
  · exact ⟨h.inv_start, fun _ => h.start.2, fun hr => by simp [h.start.1] at hr⟩
  · exact fun s hs => hs.returned
  · exact fun s e t hs he hstep => h.sound_step hs he hstep
  · intro s e t hs he hstep ht
    obtain ⟨ha, hp⟩ : adds e ∧ ¬ Pending s := by simpa using he
    cases hr : runner s with
    | running => exact hp (hs.running hr)
    | returned =>
      obtain ⟨hret, hpend⟩ := h.late hs.inv hr hp hstep
      exact ht hret (hpend.mpr ha)
    | terminated => exact (h.gone hr hstep).2 ha

end EventLoop
