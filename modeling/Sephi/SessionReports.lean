import Sephi.Lifecycle
import Sephi.ServerThreads

set_option autoImplicit false

namespace Sephi.Net.Tcp
open Transition Lifecycle

def Server.Callback.mark : Server.Callback → Mark Chunk
  | .connection _ .connected _ => .opened
  | .connection _ .disconnected _ => .closed
  | .packet _ data => .item data

def Server.Entry.markOf (s : Nat) : Server.Entry → Option (Mark Chunk)
  | .report t callback _ => if t = s then some callback.mark else none
  | .called _ _ _ _ | .emplaced _ | .shutdown _ _ => none

def Server.reportsOf (c : Server) (s : Nat) : List (Mark Chunk) :=
  c.history.filterMap (Server.Entry.markOf s)

/-- Each session is reported as connected, packets, disconnected, as far as the reports
go. -/
def Server.ReportsLawfully (c : Server) : Prop := ∀ s, Lawful false (c.reportsOf s)

/-- Where session `s` has got to, `held` being announced and not in the map yet. -/
def Server.phase (c : Server) (held : List Nat) (s : Nat) : Phase :=
  if c.made ≤ s then .fresh
  else if c.Registered s ∨ s ∈ held then .running else .ended

def Server.Orderly (held : List Nat) (c : Server) : Prop :=
  ∀ s, Lifecycle.phase false (c.reportsOf s) = some (c.phase held s)

theorem Server.record_reportsOf (c : Server) (entry : Server.Entry) (s : Nat) :
    (c.record entry).reportsOf s = c.reportsOf s ++ (entry.markOf s).toList := by
  cases h : entry.markOf s <;> simp [Server.record, Server.reportsOf, h]

theorem Server.callBack_reportsOf (c : Server) (s : Nat) (callback : Server.Callback)
    (t : Nat) :
    (c.callBack s callback).reportsOf t =
      c.reportsOf t ++ if s = t then [callback.mark] else [] := by
  rw [Server.callBack, Server.record_reportsOf, Server.Entry.markOf]
  split <;> rfl

theorem Server.leave_reportsOf (c : Server) (s : Nat) (ec : ErrorCode) (t : Nat) :
    (c.leave s ec).reportsOf t = c.reportsOf t ++ if s = t then [.closed] else [] := by
  rw [Server.leave, Server.callBack_reportsOf]
  rfl

theorem Server.Orderly.frame {held : List Nat} {c d : Server} (h : c.Orderly held)
    (hm : d.made = c.made) (hr : ∀ s, d.Registered s ↔ c.Registered s)
    (hs : ∀ s, d.reportsOf s = c.reportsOf s) : d.Orderly held := by
  intro s
  rw [hs, h s]
  simp [Server.phase, hm, hr]

theorem Server.Orderly.report {held held' : List Nat} {c d : Server} (h : c.Orderly held)
    (s : Nat) (mark : Mark Chunk)
    (hrep : ∀ t, d.reportsOf t = c.reportsOf t ++ if s = t then [mark] else [])
    (hother : ∀ t, s ≠ t → d.phase held' t = c.phase held t)
    (hnext : (c.phase held s).next false mark = some (d.phase held' s)) :
    d.Orderly held' := by
  intro t
  rw [hrep]
  by_cases hst : s = t
  · subst hst
    rw [if_pos rfl, phase_snoc, h s]
    exact hnext
  · rw [if_neg hst, List.append_nil, h t, hother t hst]

theorem Server.phase_running {held held' : List Nat} {c : Server} (hi : c.Integrity held)
    {s : Nat} (hs : c.Registered s) : c.phase held' s = .running := by
  have hlt : ¬ c.made ≤ s := Nat.not_le.mpr (hi.made s (.inl hs))
  simp [Server.phase, hlt, hs]

theorem Server.Orderly.leave {c : Server} {held others : List Nat} (h : c.Orderly others)
    (hi : c.Integrity held) {s : Nat} (hs : c.Registered s) (hh : s ∉ others)
    (ec : ErrorCode) : (c.leave s ec).Orderly others := by
  have hreg := Server.leave_registered hi (.inl hs) ec
  have hmade : (c.leave s ec).made = c.made := rfl
  refine h.report s .closed (c.leave_reportsOf s ec) (fun t hst => ?_) ?_
  · simp [Server.phase, hmade, hreg, Ne.symm hst]
  · have hlt : ¬ c.made ≤ s := Nat.not_le.mpr (hi.made s (.inl hs))
    rw [Server.phase_running hi hs]
    simp [Server.phase, hmade, hlt, hreg, hh, Phase.next]

theorem Server.Orderly.calling {c d : Server} {held others : List Nat}
    (h : c.Orderly others) (hi : c.Integrity held) (hh : ∀ s ∈ others, ¬ c.Registered s)
    (hd : c.Calling d) : d.Orderly others := by
  cases hd with
  | write w =>
    refine h.frame ?_ ?_ ?_
    · rw [Server.write_eq]
    · intro s
      simp [Server.Registered, Server.write_sessions]
    · intro s
      simp [Server.write_eq, Server.reportsOf, Server.Entry.markOf]
  | shutdown s ec =>
    refine h.frame rfl (fun _ => Iff.rfl) fun t => ?_
    simp [Server.sessionClose, Server.record_reportsOf, Server.Entry.markOf]
  | leave s hs => exact h.leave hi hs (fun hmem => hh s hmem hs) 0

theorem Server.Orderly.modify {c : Server} {held : List Nat} (h : c.Orderly held) (s : Nat)
    (f : Session → Session) : (c.modify s f).Orderly held := h

theorem Server.Orderly.announce {c : Server} (h : c.Orderly []) (address : SessionId) :
    (c.announce address).Orderly [c.made] := by
  have hmade : (c.announce address).made = c.made + 1 := rfl
  have hreg : ∀ s, (c.announce address).Registered s ↔ c.Registered s := fun _ => Iff.rfl
  refine h.report c.made .opened
    (Server.callBack_reportsOf (c.makeSession address) c.made _) (fun t hst => ?_) ?_
  · have hle : c.made + 1 ≤ t ↔ c.made ≤ t := by omega
    simp [Server.phase, hmade, hreg, hle, Ne.symm hst]
  · simp [Server.phase, hmade, Phase.next]

theorem Server.Orderly.emplace {c : Server} {s : Nat} (h : c.Orderly [s])
    (hn : c.sessions.lookup (c.session s).address = none) :
    (c.emplace s).Orderly [] := by
  intro t
  have hsame : (c.emplace s).reportsOf t = c.reportsOf t := by
    rw [Server.emplace, Server.record_reportsOf]
    exact List.append_nil _
  have hmade : (c.emplace s).made = c.made := rfl
  rw [hsame, h t]
  simp [Server.phase, hmade, Server.emplace_registered hn]

theorem Server.not_lawful_of_reported {c d : Server} (hc : c.Orderly []) {s : Nat}
    (hs : s < c.made) (hr : ¬ c.Registered s) (mark : Mark Chunk)
    (hd : c.reportsOf s ++ [mark] <+: d.reportsOf s) : ¬ d.ReportsLawfully := by
  intro h
  have hended : c.phase [] s = .ended := by
    simp [Server.phase, Nat.not_le.mpr hs, hr]
  exact not_lawful_after_ended mark ((hc s).trans (congrArg some hended)) ((h s).restrict hd)

theorem Server.orderly_start : Server.machine.start.Orderly [] := by
  intro s
  have hmade : Server.machine.start.made ≤ s := Nat.zero_le s
  simp only [Server.phase, if_pos hmade]
  rfl

theorem Server.Orderly.reportsLawfully {held : List Nat} {c : Server} (h : c.Orderly held) :
    c.ReportsLawfully := by
  intro s
  rw [lawful_iff_phase, h s]
  exact Option.some_ne_none _

namespace Server.Threads

/-- A read completion, or a failed write completion, is handled only for a session that is
still in the map, and no `close` goes on from an invalidated iterator. -/
def Timely (c : Threads) : Event → Prop
  | .complete s (.write _) ec => ec ≠ 0 → c.server.Registered s
  | .complete s .read _ | .complete s (.received _) _ => c.server.Registered s
  | .turn k order ec => c.Steady (.turn k order ec)
  | .write _ | .close _ | .accept _ _ | .arrive _ _ | .perform _ _ | .resume _ => True

instance (c : Threads) : (e : Event) → Decidable (c.Timely e)
  | .complete s (.write _) ec => inferInstanceAs (Decidable (ec ≠ 0 → c.server.Registered s))
  | .complete s .read _ | .complete s (.received _) _ =>
    inferInstanceAs (Decidable (c.server.Registered s))
  | .turn k order ec => inferInstanceAs (Decidable (c.Steady (.turn k order ec)))
  | .write _ | .close _ | .accept _ _ | .arrive _ _ | .perform _ _ | .resume _ =>
    .isTrue trivial

theorem Timely.steady {c : Threads} {e : Event} (h : c.Timely e) : c.Steady e := by
  cases e with
  | turn => exact h
  | write | close | accept | arrive | perform | complete | resume => exact trivial

def pending (c : Threads) : List Nat :=
  match c.handling with
  | some (.accept s) => [s]
  | some (.read _) | some (.leave _) | none => []

theorem Integrity.pending {c : Threads} (h : c.Integrity) :
    ∀ s ∈ c.pending, ¬ c.server.Registered s := by
  intro s hs
  refine h.announced s ?_
  unfold Threads.pending at hs
  split at hs
  · rename_i t ht
    obtain rfl := List.mem_singleton.mp hs
    exact ht
  all_goals simp at hs

theorem pending_idle {c : Threads} (h : c.handling = none) : c.pending = [] := by
  simp [pending, h]

theorem resume_orderly {c : Threads} {handler : Handler} (hi : c.Integrity)
    (hc : c.server.Orderly c.pending) (hhandling : c.handling = some handler) (rehash : Bool) :
    (c.resume rehash handler).server.Orderly (c.resume rehash handler).pending := by
  cases handler with
  | accept s =>
    have hheld : s ∈ c.held := by simp [held, hhandling, Handler.session]
    have hnone := hi.server.lookup_none (.inr (.inr hheld)) (hi.announced s hhandling)
    have hpending : c.pending = [s] := by simp [pending, hhandling]
    exact (hpending ▸ hc).emplace hnone
  | read s | leave s =>
    have hpending : c.pending = [] := by simp [pending, hhandling]
    rw [hpending] at hc
    exact hc

theorem Move.orderly {c d : Threads} {e : Event} (h : c.Move e d) (hi : c.Integrity)
    (hc : c.server.Orderly c.pending) (he : c.Timely e) : d.server.Orderly d.pending := by
  cases h with
  | write w => exact hc.calling hi.server hi.pending (.write c.server w)
  | close order =>
    unfold Threads.close
    split <;> exact hc
  | thrown k iter order ec =>
    exact hc.calling hi.server hi.pending (.shutdown c.server iter.node.2 ec)
  | turned k iter order closing hiter =>
    have hr : c.server.Registered iter.node.2 :=
      Server.registered_iff.mpr ⟨iter.node.1, (he iter hiter).2⟩
    have hshut := hc.calling hi.server hi.pending (.shutdown c.server iter.node.2 0)
    exact hshut.leave (hi.server.narrows (c.server.narrows_record _)) hr
      (fun hmem => hi.pending _ hmem hr) 0
  | refused => exact hc
  | announced address hidle hfree =>
    rw [pending_idle hidle] at hc
    exact Server.Orderly.announce (c := { c.server with accepting := c.server.accepting - 1 })
      hc address
  | arrive | perform => exact hc
  | failed s op ec hidle hop hec =>
    have hr : c.server.Registered s := by
      cases op with
      | read | received size => exact he
      | write chunk => exact he hec
    rw [pending_idle hidle] at hc
    exact (hc.modify s (·.begin op)).leave ((hi.idle hidle).begin hop) hr (by simp) ec
  | packet s size hidle hop =>
    rw [pending_idle hidle] at hc
    refine Server.Orderly.report (hc.modify s (·.begin (.received size))) s _
      (Server.callBack_reportsOf _ s _) (fun _ _ => rfl) ?_
    have hrunning : c.server.phase [] s = .running := Server.phase_running (hi.idle hidle) he
    exact (congrArg (Phase.next false · _) hrunning).trans (congrArg some hrunning.symm)
  | written => exact hc
  | resumed rehash handler hhandling => exact resume_orderly hi hc hhandling rehash

theorem Move.breaks {c d : Threads} {e : Event} (h : c.Move e d) (hi : c.Integrity)
    (hc : c.server.Orderly c.pending) (hsteady : c.Steady e) (he : ¬ c.Timely e) :
    ¬ d.server.ReportsLawfully := by
  cases h with
  | failed s op ec hidle hop hec =>
    have hr : ¬ c.server.Registered s := by
      intro hr
      cases op with
      | read | received size => exact he hr
      | write chunk => exact he fun _ => hr
    rw [pending_idle hidle] at hc
    refine Server.not_lawful_of_reported hc
      ((hi.idle hidle).made s (Server.live_of_op hop)) hr .closed ?_
    have hleft := Server.leave_reportsOf (c.server.modify s (·.begin op)) s ec s
    rw [if_pos rfl] at hleft
    exact hleft ▸ List.prefix_refl _
  | packet s size hidle hop =>
    rw [pending_idle hidle] at hc
    refine Server.not_lawful_of_reported hc
      ((hi.idle hidle).made s (Server.live_of_op hop)) he
      (.item ((c.server.session s).receivedPacket.view size)) ?_
    have hgiven := Server.callBack_reportsOf (c.server.modify s (·.begin (.received size))) s
      (.packet (c.server.sessionPtrToId s)
        ((c.server.session s).receivedPacket.view size)) s
    rw [if_pos rfl] at hgiven
    exact hgiven ▸ List.prefix_refl _
  | written s chunk => exact absurd (fun hec => absurd rfl hec) he
  | thrown | turned => exact absurd hsteady he
  | write | close | refused | announced | arrive | perform | resumed => exact absurd trivial he

end Server.Threads

end Sephi.Net.Tcp
