import Sephi.TcpServer

/-!
The map of a server's sessions. Its keys are addresses that are used again, so what an id
denotes rests on who still holds the session of that address.
-/

set_option autoImplicit false

namespace Sephi.Net.Tcp
open Transition

def Server.Keyed (c : Server) : Prop :=
  ∀ id s, c.sessions.lookup id = some s → (c.session s).address = id

/-- From `c` to `d` no session has come to life. -/
structure Server.Narrows (c d : Server) : Prop where
  lookup : ∀ id s, d.sessions.lookup id = some s → c.sessions.lookup id = some s
  address : ∀ s, (d.session s).address = (c.session s).address
  ops : ∀ s, (d.session s).ops ≠ [] → (c.session s).ops ≠ [] ∨ c.Registered s
  made : d.made = c.made

theorem Server.Narrows.refl (c : Server) : c.Narrows c :=
  ⟨fun _ _ h => h, fun _ => rfl, fun _ h => .inl h, rfl⟩

theorem Server.Narrows.registered {c d : Server} (h : c.Narrows d) {s : Nat}
    (hs : d.Registered s) : c.Registered s := by
  obtain ⟨id, hid⟩ := Server.registered_iff.mp hs
  exact Server.registered_iff.mpr ⟨id, h.lookup id s hid⟩

theorem Server.Narrows.trans {b c d : Server} (h : b.Narrows c) (h' : c.Narrows d) :
    b.Narrows d := by
  refine ⟨fun id s hs => h.lookup id s (h'.lookup id s hs),
    fun s => (h'.address s).trans (h.address s), fun s hs => ?_, h'.made.trans h.made⟩
  rcases h'.ops s hs with ho | hr
  · exact h.ops s ho
  · exact .inr (h.registered hr)

theorem Server.Narrows.live {c d : Server} (h : c.Narrows d) {held : List Nat} {s : Nat}
    (hs : d.Live held s) : c.Live held s := by
  rcases hs with hr | ho | hh
  · exact .inl (h.registered hr)
  · rcases h.ops s ho with ho | hr
    · exact .inr (.inl ho)
    · exact .inl hr
  · exact .inr (.inr hh)

theorem Server.Narrows.keyed {c d : Server} (h : c.Narrows d) (hc : c.Keyed) :
    d.Keyed :=
  fun id s hs => (h.address s).trans (hc id s (h.lookup id s hs))

theorem Server.narrows_record (c : Server) (entry : Server.Entry) :
    c.Narrows (c.record entry) :=
  ⟨fun _ _ h => h, fun _ => rfl, fun _ h => .inl h, rfl⟩

theorem Server.narrows_accepting (c : Server) (n : Nat) :
    c.Narrows { c with accepting := n } :=
  ⟨fun _ _ h => h, fun _ => rfl, fun _ h => .inl h, rfl⟩

theorem Server.narrows_modify (c : Server) (s : Nat) {f : Session → Session}
    (ha : ∀ x : Session, (f x).address = x.address)
    (ho : (f (c.session s)).ops ≠ [] → (c.session s).ops ≠ []) :
    c.Narrows (c.modify s f) := by
  refine ⟨fun _ _ h => h, fun t => ?_, fun t ht => .inl ?_, rfl⟩
  · by_cases hts : t = s
    · subst hts
      simp [Server.modify, ha]
    · simp [Server.modify, Function.update_of_ne hts]
  · by_cases hts : t = s
    · subst hts
      exact ho (by simpa [Server.modify] using ht)
    · simpa [Server.modify, Function.update_of_ne hts] using ht

theorem Session.writes_address (chunk : Chunk) (n : Nat) (x : Session) :
    ((Session.write · chunk)^[n] x).address = x.address := by
  induction n generalizing x with
  | zero => rfl
  | succ n ih => rw [Function.iterate_succ_apply, ih, Session.write_address]

theorem Server.narrows_write (c : Server) (w : Server.WriteCall) : c.Narrows (c.write w) := by
  rw [Server.write_eq]
  refine ⟨fun _ _ h => h, fun s => Session.writes_address _ _ _, fun s hs => ?_, rfl⟩
  by_cases ht : s ∈ w.targets c.sessions
  · obtain ⟨id, hid, _⟩ := Server.WriteCall.mem_targets.mp ht
    exact .inr (Server.registered_iff.mpr ⟨id, hid⟩)
  · left
    simpa [List.count_eq_zero.mpr ht] using hs

theorem Server.lookup_erase_some {m : SessionMap} {id i : SessionId} {s : Nat}
    (h : (m.erase i).lookup id = some s) : id ≠ i ∧ m.lookup id = some s := by
  by_cases hi : id = i
  · subst hi
    simp at h
  · rw [AList.lookup_erase_ne hi] at h
    exact ⟨hi, h⟩

theorem Server.narrows_leave (c : Server) (s : Nat) (ec : ErrorCode) :
    c.Narrows (c.leave s ec) :=
  ⟨fun _ _ h => (Server.lookup_erase_some h).2, fun _ => rfl, fun _ h => .inl h, rfl⟩

/-- What the calls of the application come down to. -/
inductive Server.Calling : Server → Server → Prop where
  | write (c : Server) (w : Server.WriteCall) : Calling c (c.write w)
  | shutdown (c : Server) (s : Nat) (ec : ErrorCode) : Calling c (c.sessionClose s ec)
  | leave (c : Server) (s : Nat) (hs : c.Registered s) : Calling c (c.leave s 0)

abbrev Server.Callings : Server → Server → Prop :=
  Relation.ReflTransGen Server.Calling

theorem Server.Calling.narrows {c d : Server} (h : c.Calling d) : c.Narrows d := by
  cases h with
  | write w => exact c.narrows_write w
  | shutdown s ec => exact c.narrows_record _
  | leave s hs => exact c.narrows_leave s 0

theorem Server.Callings.narrows {c d : Server} (h : c.Callings d) : c.Narrows d := by
  induction h with
  | refl => exact .refl c
  | tail _ hs ih => exact ih.trans hs.narrows

theorem Server.write_sessions (c : Server) (w : Server.WriteCall) :
    (c.write w).sessions = c.sessions := by
  rw [Server.write_eq]

theorem Server.writes_callings (c : Server) (inside : List Server.WriteCall) :
    c.Callings (c.writes inside) ∧ (c.writes inside).sessions = c.sessions := by
  induction inside generalizing c with
  | nil => exact ⟨.refl, rfl⟩
  | cons w inside ih =>
    obtain ⟨hcalls, hsame⟩ := ih (c.write w)
    exact ⟨.head (.write c w) hcalls, hsame.trans (c.write_sessions w)⟩

/-- One turn of the loop of `close`, for a session whose socket shuts down. -/
def Server.turn (shutdown : Nat → ErrorCode) (inside : Nat → List Server.WriteCall)
    (c : Server) (iter : SessionMap.Entry) : Server :=
  ((c.sessionClose iter.2 (shutdown iter.2)).leave iter.2 0).writes (inside iter.2)

structure Server.Lists (c : Server) (l : List SessionMap.Entry) : Prop where
  keyed : c.Keyed
  listed : ∀ iter ∈ l, c.sessions.lookup iter.1 = some iter.2
  nodup : (l.map (·.1)).Nodup

section Closing
variable {shutdown : Nat → ErrorCode} {inside : Nat → List Server.WriteCall} {c : Server}
  {iter : SessionMap.Entry} {l : List SessionMap.Entry}

theorem Server.lists_iteration (hk : c.Keyed) (order : List SessionMap.Entry) :
    c.Lists (c.sessions.iteration order) :=
  ⟨hk, fun _ hiter => SessionMap.mem_iteration.mp hiter,
    ((c.sessions.iteration_perm order).map _).nodup_iff.mpr c.sessions.keys_nodup⟩

theorem Server.Lists.initial {rest : List SessionMap.Entry} (h : c.Lists (l ++ rest)) :
    c.Lists l := by
  refine ⟨h.keyed, fun iter hiter => h.listed iter (List.mem_append_left rest hiter), ?_⟩
  have hnodup := h.nodup
  rw [List.map_append] at hnodup
  exact hnodup.of_append_left

theorem Server.Lists.turn_callings (h : c.Lists (iter :: l)) :
    c.Callings (c.turn shutdown inside iter) := by
  have hiter := h.listed iter List.mem_cons_self
  have hleft := Server.Calling.leave (c.sessionClose iter.2 (shutdown iter.2)) iter.2
    (Server.registered_iff.mpr ⟨iter.1, hiter⟩)
  exact .head (.shutdown c iter.2 (shutdown iter.2))
    (.head hleft (Server.writes_callings _ _).1)

theorem Server.Lists.turn_sessions (h : c.Lists (iter :: l)) :
    (c.turn shutdown inside iter).sessions = c.sessions.erase iter.1 := by
  rw [Server.turn, (Server.writes_callings _ _).2]
  simp only [Server.leave, Server.callBack, Server.record, Server.sessionPtrToId,
    Server.sessionClose]
  rw [h.keyed iter.1 iter.2 (h.listed iter List.mem_cons_self)]

theorem Server.Lists.fresh (h : c.Lists (iter :: l)) : ∀ other ∈ l, other.1 ≠ iter.1 := by
  intro other hother heq
  have hmem : other.1 ∈ l.map (·.1) := List.mem_map_of_mem hother
  rw [heq] at hmem
  exact (List.nodup_cons.mp h.nodup).1 hmem

theorem Server.Lists.turn (h : c.Lists (iter :: l)) :
    (c.turn shutdown inside iter).Lists l := by
  refine ⟨(Server.Callings.narrows h.turn_callings).keyed h.keyed, fun other hother => ?_,
    (List.nodup_cons.mp h.nodup).2⟩
  rw [h.turn_sessions, AList.lookup_erase_ne (h.fresh other hother)]
  exact h.listed other (List.mem_cons_of_mem iter hother)

theorem Server.closeLoop_cons :
    Server.closeLoop shutdown inside c (iter :: l) =
      if shutdown iter.2 ≠ 0 then c.sessionClose iter.2 (shutdown iter.2)
      else Server.closeLoop shutdown inside (c.turn shutdown inside iter) l := rfl

theorem Server.Lists.closeLoop_callings (h : c.Lists l) :
    c.Callings (Server.closeLoop shutdown inside c l) := by
  induction l generalizing c with
  | nil => exact .refl
  | cons iter l ih =>
    rw [Server.closeLoop_cons]
    split
    · exact .single (.shutdown c iter.2 _)
    · exact h.turn_callings.trans (ih h.turn)

end Closing

theorem Server.call_callings {c : Server} (hk : c.Keyed) (x : Server.Call) :
    c.Callings (c.call x) := by
  cases x with
  | write w => exact .single (.write c w)
  | close order shutdown inside => exact (Server.lists_iteration hk order).closeLoop_callings

theorem Server.calls_callings {c : Server} (hk : c.Keyed) (inside : List Server.Call) :
    c.Callings (c.calls inside) := by
  induction inside generalizing c with
  | nil => exact .refl
  | cons x inside ih =>
    have hx := Server.call_callings hk x
    exact hx.trans (ih ((Server.Callings.narrows hx).keyed hk))

/-- The keys are the addresses of their sessions, and no two live ones share an address.
`held` are the sessions that a running handler holds. -/
structure Server.Integrity (held : List Nat) (c : Server) : Prop where
  keyed : c.Keyed
  made : ∀ s, c.Live held s → s < c.made
  distinct : ∀ s t, c.Live held s → c.Live held t →
    (c.session s).address = (c.session t).address → s = t

theorem Server.Integrity.narrows {held : List Nat} {c d : Server} (h : c.Integrity held)
    (hn : c.Narrows d) : d.Integrity held := by
  refine ⟨hn.keyed h.keyed, fun s hl => hn.made ▸ h.made s (hn.live hl), ?_⟩
  intro s t hl ht heq
  rw [hn.address, hn.address] at heq
  exact h.distinct s t (hn.live hl) (hn.live ht) heq

theorem Server.Integrity.record {held : List Nat} {c : Server} (h : c.Integrity held)
    (entry : Server.Entry) : (c.record entry).Integrity held :=
  h.narrows (c.narrows_record entry)

theorem Server.Integrity.lookup_eq {held : List Nat} {c : Server} (h : c.Integrity held)
    {s t : Nat} (hs : c.Live held s)
    (ht : c.sessions.lookup (c.session s).address = some t) : t = s := by
  have hlive : c.Live held t := .inl (Server.registered_iff.mpr ⟨_, ht⟩)
  exact h.distinct t s hlive hs (h.keyed _ _ ht)

theorem Server.Integrity.lookup_registered {held : List Nat} {c : Server}
    (h : c.Integrity held) {s : Nat} (hs : c.Registered s) :
    c.sessions.lookup (c.session s).address = some s := by
  obtain ⟨id, hid⟩ := Server.registered_iff.mp hs
  rwa [h.keyed id s hid]

theorem Server.Integrity.leave {held : List Nat} {c : Server} (h : c.Integrity held)
    (s : Nat) (ec : ErrorCode) : (c.leave s ec).Integrity held :=
  h.narrows (c.narrows_leave s ec)

/-- `leave` takes its session out of the map, if it is there, and no other one. -/
theorem Server.leave_lookup {held : List Nat} {c : Server} (hi : c.Integrity held)
    {s : Nat} (hs : c.Live held s) (ec : ErrorCode) (id : SessionId) (t : Nat) :
    (c.leave s ec).sessions.lookup id = some t ↔ c.sessions.lookup id = some t ∧ t ≠ s := by
  simp only [Server.leave, Server.callBack, Server.record]
  constructor
  · intro hid
    obtain ⟨hne, hbefore⟩ := Server.lookup_erase_some hid
    refine ⟨hbefore, ?_⟩
    rintro rfl
    exact hne (hi.keyed id t hbefore).symm
  · rintro ⟨hid, hts⟩
    rw [AList.lookup_erase_ne]
    · exact hid
    · rintro rfl
      exact hts (hi.lookup_eq hs hid)

theorem Server.leave_registered {held : List Nat} {c : Server} (hi : c.Integrity held)
    {s : Nat} (hs : c.Live held s) (ec : ErrorCode) (t : Nat) :
    (c.leave s ec).Registered t ↔ c.Registered t ∧ t ≠ s := by
  simp [Server.registered_iff, Server.leave_lookup hi hs]

theorem Server.Integrity.calling {held : List Nat} {c d : Server} (h : c.Integrity held)
    (hd : c.Calling d) : d.Integrity held := h.narrows hd.narrows

theorem Server.Integrity.callings_induction {held : List Nat} {c d : Server}
    (h : c.Integrity held) {P : Server → Prop} (hc : P c)
    (hkeep : ∀ d e : Server, d.Integrity held → P d → d.Calling e → P e)
    (hcalls : c.Callings d) : P d ∧ d.Integrity held := by
  induction hcalls with
  | refl => exact ⟨hc, h⟩
  | tail _ hs ih => exact ⟨hkeep _ _ ih.2 ih.1 hs, ih.2.calling hs⟩

theorem Server.Integrity.calls_induction {held : List Nat} {c : Server}
    (h : c.Integrity held) {P : Server → Prop} (hc : P c)
    (hkeep : ∀ d e : Server, d.Integrity held → P d → d.Calling e → P e)
    (inside : List Server.Call) : P (c.calls inside) ∧ (c.calls inside).Integrity held :=
  h.callings_induction hc hkeep (Server.calls_callings h.keyed inside)

theorem Server.Integrity.calls {held : List Nat} {c : Server} (h : c.Integrity held)
    (inside : List Server.Call) : (c.calls inside).Integrity held :=
  (h.calls_induction (P := fun _ => True) trivial (fun _ _ _ _ _ => trivial) inside).2

theorem Server.Integrity.targets_nodup {held : List Nat} {c : Server} (h : c.Integrity held)
    (w : Server.WriteCall) : (w.targets c.sessions).Nodup := by
  have hvalues : (c.sessions.entries.map (·.2)).Nodup := by
    refine List.Nodup.map_on ?_ c.sessions.nodupKeys.nodup
    rintro ⟨i, s⟩ hi ⟨j, t⟩ hj (rfl : s = t)
    have hs := h.keyed i s (AList.mem_lookup_iff.mpr hi)
    have ht := h.keyed j s (AList.mem_lookup_iff.mpr hj)
    obtain rfl : i = j := hs.symm.trans ht
    rfl
  cases w with
  | writeTo id chunk =>
    cases hid : c.sessions.lookup id <;> simp [Server.WriteCall.targets, hid]
  | writeToAll order chunk =>
    exact ((c.sessions.iteration_perm order).map _).nodup_iff.mpr hvalues
  | writeToAllExcept order id chunk =>
    have hall : ((c.sessions.iteration order).map (·.2)).Nodup :=
      ((c.sessions.iteration_perm order).map _).nodup_iff.mpr hvalues
    exact (List.filter_sublist.map _).nodup hall

theorem Server.Integrity.callBack {held : List Nat} {c : Server} (h : c.Integrity held)
    (s : Nat) (callback : Server.Callback) : (c.callBack s callback).Integrity held :=
  h.record _

theorem Server.Integrity.modify {held : List Nat} {c : Server} (h : c.Integrity held)
    {s : Nat} (hs : c.Live held s) {f : Session → Session}
    (ha : ∀ x : Session, (f x).address = x.address) : (c.modify s f).Integrity held := by
  have haddr : ∀ t, ((c.modify s f).session t).address = (c.session t).address := by
    intro t
    by_cases hts : t = s
    · subst hts
      simp [Server.modify, ha]
    · simp [Server.modify, Function.update_of_ne hts]
  have hlive : ∀ t, (c.modify s f).Live held t → c.Live held t := by
    intro t ht
    by_cases hts : t = s
    · exact hts ▸ hs
    · simpa [Server.Live, Server.modify, Server.Registered, Function.update_of_ne hts] using ht
  refine ⟨fun id t ht => (haddr t).trans (h.keyed id t ht),
    fun t ht => h.made t (hlive t ht), fun t u ht hu heq => ?_⟩
  rw [haddr, haddr] at heq
  exact h.distinct t u (hlive t ht) (hlive u hu) heq

theorem Server.Integrity.hold {c : Server} (h : c.Integrity []) {s : Nat}
    (hs : c.Live [] s) : c.Integrity [s] := by
  have hlive : ∀ t, c.Live [s] t → c.Live [] t := by
    rintro t (hr | ho | hh)
    · exact .inl hr
    · exact .inr (.inl ho)
    · exact List.mem_singleton.mp hh ▸ hs
  exact ⟨h.keyed, fun t ht => h.made t (hlive t ht),
    fun t u ht hu => h.distinct t u (hlive t ht) (hlive u hu)⟩

theorem Server.Integrity.release {held : List Nat} {c : Server} (h : c.Integrity held) :
    c.Integrity [] := by
  have hlive : ∀ t, c.Live [] t → c.Live held t := by
    rintro t (hr | ho | hh)
    · exact .inl hr
    · exact .inr (.inl ho)
    · simp at hh
  exact ⟨h.keyed, fun t ht => h.made t (hlive t ht),
    fun t u ht hu => h.distinct t u (hlive t ht) (hlive u hu)⟩

theorem Server.live_held {c : Server} {s : Nat} : c.Live [s] s :=
  .inr (.inr (List.mem_singleton.mpr rfl))

theorem Server.Integrity.makeSession {c : Server} (h : c.Integrity []) {address : SessionId}
    (hfree : c.Free address) : (c.makeSession address).Integrity [c.made] := by
  have hold : ∀ t, t ≠ c.made → (c.makeSession address).session t = c.session t :=
    fun t ht => Function.update_of_ne ht _ _
  have hnew : ((c.makeSession address).session c.made).address = address := by
    simp [Server.makeSession, Session.make]
  have hlive : ∀ t, (c.makeSession address).Live [c.made] t → t = c.made ∨ c.Live [] t := by
    intro t ht
    by_cases htm : t = c.made
    · exact .inl htm
    · rcases ht with hr | ho | hh
      · exact .inr (.inl hr)
      · exact .inr (.inr (.inl (hold t htm ▸ ho)))
      · exact absurd (List.mem_singleton.mp hh) htm
  have hother : ∀ t, c.Live [] t → ((c.makeSession address).session t).address ≠ address := by
    intro t ht
    rw [hold t (Nat.ne_of_lt (h.made t ht))]
    exact hfree t (h.made t ht) ht
  refine ⟨?_, ?_, ?_⟩
  · intro id t ht
    have hlt := h.made t (.inl (Server.registered_iff.mpr ⟨id, ht⟩))
    rw [hold t (Nat.ne_of_lt hlt)]
    exact h.keyed id t ht
  · intro t ht
    rcases hlive t ht with rfl | ht
    · exact Nat.lt_succ_self _
    · exact Nat.lt_succ_of_lt (h.made t ht)
  · intro t u ht hu heq
    rcases hlive t ht with rfl | ht
    · rcases hlive u hu with rfl | hu
      · rfl
      · exact absurd (heq.symm.trans hnew) (hother u hu)
    · rcases hlive u hu with rfl | hu
      · exact absurd (heq.trans hnew) (hother t ht)
      · rw [hold t (Nat.ne_of_lt (h.made t ht)), hold u (Nat.ne_of_lt (h.made u hu))] at heq
        exact h.distinct t u ht hu heq

theorem Server.emplace_eq {c : Server} {s : Nat}
    (hnone : c.sessions.lookup (c.session s).address = none) :
    c.emplace s = Server.record
      { c with sessions := c.sessions.insert (c.session s).address s } (.emplaced s) := by
  simp [Server.emplace, SessionMap.emplace, Server.sessionPtrToId, hnone]

theorem Server.lookup_insert_some {m : SessionMap} {id i : SessionId} {s t : Nat}
    (h : (m.insert i s).lookup id = some t) : (id = i ∧ t = s) ∨ m.lookup id = some t := by
  by_cases hi : id = i
  · subst hi
    rw [AList.lookup_insert] at h
    exact .inl ⟨rfl, (Option.some.inj h).symm⟩
  · rw [AList.lookup_insert_ne hi] at h
    exact .inr h

theorem Server.Integrity.lookup_none {held : List Nat} {c : Server} (h : c.Integrity held)
    {s : Nat} (hs : c.Live held s) (hr : ¬ c.Registered s) :
    c.sessions.lookup (c.session s).address = none := by
  cases hl : c.sessions.lookup (c.session s).address with
  | none => rfl
  | some t =>
    obtain rfl := h.lookup_eq hs hl
    exact absurd (Server.registered_iff.mpr ⟨_, hl⟩) hr

theorem Server.Integrity.emplace {held : List Nat} {c : Server} (h : c.Integrity held)
    {s : Nat} (hs : c.Live held s) (hr : ¬ c.Registered s) :
    (c.emplace s).Integrity held := by
  rw [Server.emplace_eq (h.lookup_none hs hr)]
  have hlive : ∀ t, Server.Live (Server.record
      { c with sessions := c.sessions.insert (c.session s).address s } (.emplaced s))
        held t → c.Live held t := by
    rintro t (ht | ho | hh)
    · obtain ⟨id, hid⟩ := Server.registered_iff.mp ht
      rcases Server.lookup_insert_some hid with ⟨_, rfl⟩ | hid
      · exact hs
      · exact .inl (Server.registered_iff.mpr ⟨id, hid⟩)
    · exact .inr (.inl ho)
    · exact .inr (.inr hh)
  refine ⟨?_, fun t ht => h.made t (hlive t ht),
    fun t u ht hu => h.distinct t u (hlive t ht) (hlive u hu)⟩
  intro id t hid
  rcases Server.lookup_insert_some hid with ⟨rfl, rfl⟩ | hid
  · rfl
  · exact h.keyed id t hid

theorem Server.emplace_lookup {c : Server} {s : Nat}
    (hnone : c.sessions.lookup (c.session s).address = none) :
    (c.emplace s).sessions.lookup (c.session s).address = some s := by
  rw [Server.emplace_eq hnone]
  exact AList.lookup_insert _

theorem Server.emplace_registered {c : Server} {s : Nat}
    (hnone : c.sessions.lookup (c.session s).address = none) (t : Nat) :
    (c.emplace s).Registered t ↔ c.Registered t ∨ t = s := by
  constructor
  · intro ht
    rw [Server.emplace_eq hnone] at ht
    obtain ⟨id, hid⟩ := Server.registered_iff.mp ht
    rcases Server.lookup_insert_some hid with ⟨_, rfl⟩ | hid
    · exact .inr rfl
    · exact .inl (Server.registered_iff.mpr ⟨id, hid⟩)
  · rintro (ht | rfl)
    · obtain ⟨id, hid⟩ := Server.registered_iff.mp ht
      have hne : id ≠ (c.session s).address := by
        rintro rfl
        simp [hnone] at hid
      rw [Server.emplace_eq hnone]
      exact Server.registered_iff.mpr ⟨id, (AList.lookup_insert_ne hne).trans hid⟩
    · exact Server.registered_iff.mpr ⟨_, Server.emplace_lookup hnone⟩

/-- `handle_accept` up to the application's calls in the report. -/
def Server.announce (c : Server) (address : SessionId) : Server :=
  (c.makeSession address).callBack c.made (.connection address .connected 0)

theorem Server.announce_session_new (c : Server) (address : SessionId) :
    (c.announce address).session c.made = Session.make address :=
  Function.update_self _ _ _

theorem Server.announce_session_of_ne (c : Server) (address : SessionId) {t : Nat}
    (h : t ≠ c.made) : (c.announce address).session t = c.session t :=
  Function.update_of_ne h _ _

theorem Server.handleAccept_eq (c : Server) (address : SessionId)
    (inside : List Server.Call) :
    c.handleAccept 0 address inside =
      ((((c.announce address).calls inside).emplace c.made).modify c.made
        Session.start).doAccept := by
  simp [Server.handleAccept, Server.announce]

theorem Server.modify_modify (c : Server) (s : Nat) (f g : Session → Session) :
    (c.modify s f).modify s g = c.modify s fun x => g (f x) := by
  simp [Server.modify]

theorem Server.handleRead_begin (c : Server) (s size : Nat) (inside : List Server.Call) :
    (c.modify s (·.begin (.received size))).handleRead s 0 size inside =
      (((c.modify s (·.begin (.received size))).callBack s (.packet (c.sessionPtrToId s)
        ((c.session s).receivedPacket.view size))).calls inside).modify s Session.doRead := by
  simp [Server.handleRead, Server.modify, Server.sessionPtrToId, Session.begin]

theorem Server.Integrity.announce {c : Server} (h : c.Integrity []) {address : SessionId}
    (hfree : c.Free address) : (c.announce address).Integrity [c.made] :=
  (h.makeSession hfree).callBack c.made _

theorem Server.Integrity.announced {c : Server} (h : c.Integrity []) {address : SessionId}
    (hfree : c.Free address) (inside : List Server.Call) :
    ¬ ((c.announce address).calls inside).Registered c.made := by
  intro hr
  have hcalls := Server.calls_callings (h.announce hfree).keyed inside
  have hbefore : c.Registered c.made := (Server.Callings.narrows hcalls).registered hr
  exact Nat.lt_irrefl _ (h.made _ (.inl hbefore))

theorem Server.live_of_op {held : List Nat} {c : Server} {s : Nat} {op : Session.Op}
    (hop : op ∈ (c.session s).ops) : c.Live held s :=
  .inr (.inl (List.ne_nil_of_mem hop))

theorem Server.Integrity.begin {c : Server} (h : c.Integrity []) {s : Nat} {op : Session.Op}
    (hop : op ∈ (c.session s).ops) : (c.modify s (·.begin op)).Integrity [s] :=
  (h.hold (Server.live_of_op hop)).modify Server.live_held fun _ => rfl

theorem Server.Integrity.accepting {c : Server} (h : c.Integrity []) (n : Nat) :
    Server.Integrity [] { c with accepting := n } :=
  h.narrows (c.narrows_accepting n)

theorem Server.Integrity.accept {c : Server} (h : c.Integrity []) {address : SessionId}
    (hfree : c.Free address) (inside : List Server.Call) :
    (c.handleAccept 0 address inside).Integrity [] := by
  rw [Server.handleAccept_eq]
  have hcalled := (h.announce hfree).calls inside
  have hemplaced := hcalled.emplace Server.live_held (h.announced hfree inside)
  have hstarted := hemplaced.modify (f := Session.start) Server.live_held fun _ => rfl
  exact hstarted.release.narrows (Server.narrows_accepting _ _)

theorem Server.Move.integrity {c d : Server} {e : Server.Event} (h : c.Move e d)
    (hc : c.Integrity []) : d.Integrity [] := by
  cases h with
  | call x => exact hc.calls [x]
  | refused ec address inside => exact hc.accepting _
  | accepted address inside hfree =>
    exact (hc.accepting (c.accepting - 1)).accept hfree inside
  | arrive s bytes => exact hc.narrows (c.narrows_modify s (fun _ => rfl) id)
  | perform s packet hop =>
    exact hc.modify (Server.live_of_op hop) fun _ => rfl
  | failed s op ec inside hop =>
    exact (((hc.begin hop).leave s ec).calls inside).release
  | packet s size inside hop =>
    have hgiven := ((hc.begin hop).callBack s (.packet (c.sessionPtrToId s)
      ((c.session s).receivedPacket.view size))).calls inside
    rw [Server.handleRead_begin]
    exact (hgiven.modify (f := Session.doRead) Server.live_held fun _ => rfl).release
  | written s chunk inside hop =>
    exact ((hc.begin hop).modify Server.live_held fun x => x.written_address chunk).release

theorem Server.integrity_start : Server.machine.start.Integrity [] := by
  have hnone : ∀ s, ¬ Server.machine.start.Live [] s := by
    rintro s (hr | ho | hh)
    · obtain ⟨id, hid⟩ := Server.registered_iff.mp hr
      simp [Server.machine, Server.start, Server.doAccept] at hid
    · exact ho rfl
    · simp at hh
  refine ⟨?_, fun s hs => absurd hs (hnone s), fun s t hs _ => absurd hs (hnone s)⟩
  intro id s hid
  simp [Server.machine, Server.start, Server.doAccept] at hid

theorem Server.integrity_of_reachable {c : Server} (h : Server.machine.Reachable c) :
    c.Integrity [] :=
  h.invariant (I := fun c => c.Integrity []) Server.integrity_start
    fun _ _ _ hi hs => (Server.step_move hs).integrity hi

def Server.within (c : Server) : Server.Event → Option Server
  | .accept ec address inside =>
    if ec ≠ 0 then none
    else some ((Server.announce { c with accepting := c.accepting - 1 } address).calls inside)
  | .complete s op ec inside =>
    let begun := c.modify s (·.begin op)
    if ec ≠ 0 then some ((begun.leave s ec).calls inside)
    else match op with
      | .received size =>
        let data := (begun.session s).receivedPacket.view size
        some ((begun.callBack s (.packet (begun.sessionPtrToId s) data)).calls inside)
      | .read | .write _ => none
  | .call _ | .arrive _ _ | .perform _ _ => none

/-- The states in which the application can call the server: those between two steps,
those inside its own handlers, and those inside the reports of a `close` that it has
called, which has come as far as `done`. -/
inductive Server.Asked : Server → Prop where
  | between (c : Server) (h : Server.machine.Reachable c) : Asked c
  | inside (c t d : Server) (e : Server.Event) (h : Server.machine.Reachable c)
      (ht : c.step e = some t) (hd : c.within e = some d) : Asked d
  | closing (c : Server) (order done rest : List SessionMap.Entry)
      (shutdown : Nat → ErrorCode) (inside : Nat → List Server.WriteCall) (h : Asked c)
      (hsplit : c.sessions.iteration order = done ++ rest) :
      Asked (Server.closeLoop shutdown inside c done)

theorem Server.Move.within_integrity {c d t : Server} {e : Server.Event} (h : c.Move e t)
    (hc : c.Integrity []) (hd : c.within e = some d) : ∃ held, d.Integrity held := by
  cases h with
  | accepted address inside hfree =>
    simp only [Server.within, ne_eq, not_true_eq_false, if_false, Option.some.injEq] at hd
    exact ⟨_, hd ▸ ((hc.accepting (c.accepting - 1)).announce hfree).calls inside⟩
  | failed s op ec inside hop hec =>
    simp only [Server.within, if_pos hec, Option.some.injEq] at hd
    exact ⟨_, hd ▸ ((hc.begin hop).leave s ec).calls inside⟩
  | packet s size inside hop =>
    simp only [Server.within, ne_eq, not_true_eq_false, if_false, Option.some.injEq] at hd
    exact ⟨_, hd ▸ ((hc.begin hop).callBack s _).calls inside⟩
  | refused ec address inside hec => simp [Server.within, hec] at hd
  | call | arrive | perform | written => simp [Server.within] at hd

theorem Server.closeLoop_callings {c : Server} (hk : c.Keyed)
    {order done rest : List SessionMap.Entry} (shutdown : Nat → ErrorCode)
    (inside : Nat → List Server.WriteCall)
    (hsplit : c.sessions.iteration order = done ++ rest) :
    c.Callings (Server.closeLoop shutdown inside c done) := by
  have hall := Server.lists_iteration hk order
  rw [hsplit] at hall
  exact hall.initial.closeLoop_callings

theorem Server.Asked.integrity {c : Server} (h : c.Asked) : ∃ held, c.Integrity held := by
  induction h with
  | between _ h => exact ⟨[], Server.integrity_of_reachable h⟩
  | inside b t _ e h ht hd =>
    exact (Server.step_move ht).within_integrity (Server.integrity_of_reachable h) hd
  | closing c order done rest shutdown inside _ hsplit ih =>
    obtain ⟨held, hi⟩ := ih
    exact ⟨held, hi.narrows
      (Server.closeLoop_callings hi.keyed shutdown inside hsplit).narrows⟩

end Sephi.Net.Tcp
