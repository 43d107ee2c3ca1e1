import Mathlib.Data.List.Nodup
import Sephi.NameTable

/-!
`sephi::ipc::SharedMemory` objects on POSIX under moves. The move operations are the
defaulted ones, member by member; a name is removed by the destructor alone.
-/

set_option autoImplicit false

namespace Sephi.Ipc
open Transition NameTable

structure Segment where
  object : Nat
  name : String
  deriving DecidableEq, Repr

structure SharedMemory where
  memory : Option Segment
  name : String
  deriving DecidableEq, Repr

/-- The C++ objects of a program by their addresses, and the names of the system. -/
structure Segments (ι : Type) where
  table : Table String
  live : List ι
  object : ι → SharedMemory
  -- the record of the run
  constructed : List String

variable {ι : Type} [DecidableEq ι]

inductive Segments.Event (ι : Type) where
  | construct (i : ι) (mode : Mode) (name : String)
  | moveConstruct (i : ι) (other : ι)
  | moveAssign (i : ι) (other : ι)
  | destroy (i : ι)
  deriving DecidableEq, Repr

def Segments.set (c : Segments ι) (i : ι) (x : SharedMemory) : Segments ι :=
  { c with object := Function.update c.object i x }

/-- `SharedMemory(SharedMemory&&) = default` -/
def Segments.moveConstruct (c : Segments ι) (i other : ι) : Segments ι :=
  let c := { c with live := c.live ++ [i] }
  (c.set i (c.object other)).set other ⟨none, ""⟩

/-- `operator=(SharedMemory&&) = default`: `memory_` gives up what it maps and takes over
the mapping, then `name_` takes over the name. -/
def Segments.moveAssign (c : Segments ι) (i other : ι) : Segments ι :=
  let memory := (c.object other).memory
  let c := c.set other { c.object other with memory := none }
  let c := c.set i { c.object i with memory := memory }
  let name := (c.object other).name
  let c := c.set i { c.object i with name := name }
  c.set other { c.object other with name := "" }

/-- `destroy()`: `ManagedSharedMemory::remove(name_)` -/
def SharedMemory.destroy (x : SharedMemory) (t : Table String) : Table String :=
  if x.name = "" then t else t.remove x.name

/-- Each name has one owner: none is constructed under a name that a live one maps. -/
def Segments.step (c : Segments ι) : Segments.Event ι → Option (Segments ι)
  | .construct i mode name =>
    if i ∉ c.live ∧ name ≠ "" ∧
        ∀ j ∈ c.live, (c.object j).memory.map Segment.name ≠ some name then
      (c.table.attach mode name).map fun r =>
        Segments.set { c with
          table := r.2, live := c.live ++ [i], constructed := c.constructed ++ [name] }
          i ⟨some ⟨r.1, name⟩, name⟩
    else none
  | .moveConstruct i other =>
    if i ∉ c.live ∧ other ∈ c.live then some (c.moveConstruct i other) else none
  | .moveAssign i other =>
    if i ∈ c.live ∧ other ∈ c.live then some (c.moveAssign i other) else none
  | .destroy i =>
    if i ∈ c.live then
      some { c with table := (c.object i).destroy c.table, live := c.live.erase i }
    else none

def Segments.machine (ι : Type) [DecidableEq ι] (t : Table String) :
    Machine (Segments ι) (Segments.Event ι) :=
  ⟨⟨t, [], fun _ => ⟨none, ""⟩, []⟩, Segments.step⟩

def Segments.Owns (c : Segments ι) (i : ι) (g : Segment) : Prop :=
  i ∈ c.live ∧ (c.object i).memory = some g

/-- The name of a segment is in the system while its owner lives, and is gone when nobody
owns the segment; an object that owns nothing removes nothing. -/
structure Segments.NamesOwned (c : Segments ι) : Prop where
  stays : ∀ i g, c.Owns i g → c.table.object g.name = some g.object
  removed : ∀ n ∈ c.constructed, c.table.object n ≠ none → ∃ i g, c.Owns i g ∧ g.name = n
  moved : ∀ i ∈ c.live, (c.object i).memory = none → (c.object i).destroy c.table = c.table

/-- No owner is assigned over by another object, and none is destroyed that has lost its
name by being assigned to itself. -/
def Segments.Kept (c : Segments ι) : Segments.Event ι → Prop
  | .moveAssign i other => i ≠ other → (c.object i).memory = none
  | .destroy i => ∀ g ∈ (c.object i).memory, (c.object i).name = g.name
  | _ => True

instance (c : Segments ι) (e : Segments.Event ι) : Decidable (c.Kept e) := by
  cases e <;> unfold Segments.Kept <;> infer_instance

def Segments.moved (c : Segments ι) (live : List ι) (i other : ι) : Segments ι :=
  (Segments.set { c with live := live } i (c.object other)).set other ⟨none, ""⟩

theorem Segments.moved_object (c : Segments ι) (live : List ι) (i other k : ι) :
    (c.moved live i other).object k =
      if k = other then ⟨none, ""⟩ else if k = i then c.object other else c.object k := by
  simp only [Segments.moved, Segments.set, Function.update_apply]

theorem Segments.moveAssign_of_ne (c : Segments ι) {i other : ι} (h : i ≠ other) :
    c.moveAssign i other = c.moved c.live i other := by
  have h' := h.symm
  simp only [Segments.moveAssign, Segments.moved, Segments.set, Segments.mk.injEq, true_and,
    and_true]
  funext k
  by_cases hk : k = other
  · subst hk
    simp [Function.update_of_ne h']
  · by_cases hki : k = i
    · subst hki
      simp [Function.update_of_ne hk, Function.update_of_ne h']
    · simp [Function.update_of_ne hk, Function.update_of_ne hki]

theorem Segments.moveAssign_self (c : Segments ι) (i : ι) :
    c.moveAssign i i = c.set i { c.object i with name := "" } := by
  simp [Segments.moveAssign, Segments.set]

structure Segments.Sound (c : Segments ι) : Prop where
  stays : ∀ i g, c.Owns i g → c.table.object g.name = some g.object
  removed : ∀ n ∈ c.constructed, c.table.object n ≠ none → ∃ i g, c.Owns i g ∧ g.name = n
  nodup : c.live.Nodup
  name : ∀ i ∈ c.live, (c.object i).name = "" ∨
    ∃ g, (c.object i).memory = some g ∧ g.name = (c.object i).name
  named : ∀ i g, c.Owns i g → g.name ≠ "" ∧ g.name ∈ c.constructed
  unique : ∀ i j g g', c.Owns i g → c.Owns j g' → g.name = g'.name → i = j

omit [DecidableEq ι] in
theorem Segments.Sound.namesOwned {c : Segments ι} (h : c.Sound) : c.NamesOwned := by
  refine ⟨h.stays, h.removed, fun i hi hm => ?_⟩
  rcases h.name i hi with hname | ⟨g, hg, _⟩
  · simp [SharedMemory.destroy, hname]
  · simp [hm] at hg

omit [DecidableEq ι] in
theorem Segments.Sound.handOver {c d : Segments ι} (h : c.Sound) (ht : d.table = c.table)
    (hc : d.constructed = c.constructed) (hn : d.live.Nodup)
    (hname : ∀ i ∈ d.live, (d.object i).name = "" ∨
      ∃ g, (d.object i).memory = some g ∧ g.name = (d.object i).name)
    (f : ι → ι) (hf : ∀ i j g g', d.Owns i g → d.Owns j g' → f i = f j → i = j)
    (hto : ∀ i g, d.Owns i g → c.Owns (f i) g)
    (hfrom : ∀ i g, c.Owns i g → ∃ j, d.Owns j g) : d.Sound := by
  refine ⟨fun i g hi => ?_, fun n hmem hobj => ?_, hn, hname, fun i g hi => ?_,
    fun i j g g' hi hj heq => ?_⟩
  · rw [ht]
    exact h.stays (f i) g (hto i g hi)
  · rw [hc] at hmem
    rw [ht] at hobj
    obtain ⟨i, g, hi, hg⟩ := h.removed n hmem hobj
    obtain ⟨j, hj⟩ := hfrom i g hi
    exact ⟨j, g, hj, hg⟩
  · rw [hc]
    exact h.named (f i) g (hto i g hi)
  · exact hf i j g g' hi hj (h.unique (f i) (f j) g g' (hto i g hi) (hto j g' hj) heq)

omit [DecidableEq ι] in
theorem Segments.live_with {c : Segments ι} {i : ι} (hi : i ∈ c.live) (k : ι) :
    k ∈ c.live ↔ k ∈ c.live ∨ k = i :=
  (or_iff_left_of_imp fun hk => hk ▸ hi).symm

theorem Segments.moved_owns {c : Segments ι} {i other : ι} {live : List ι}
    (hl : ∀ k, k ∈ live ↔ k ∈ c.live ∨ k = i) (ho : other ∈ c.live) (hne : i ≠ other)
    (k : ι) (g : Segment) :
    (c.moved live i other).Owns k g ↔
      k = i ∧ c.Owns other g ∨ k ≠ i ∧ k ≠ other ∧ c.Owns k g := by
  have hmem : k ∈ (c.moved live i other).live ↔ k ∈ c.live ∨ k = i := hl k
  rw [Segments.Owns, hmem, Segments.moved_object]
  by_cases hko : k = other
  · simp [hko, hne.symm]
  · by_cases hki : k = i
    · simp [hki, hne, Segments.Owns, ho]
    · simp [hko, hki, Segments.Owns]

theorem Segments.Sound.move {c : Segments ι} (h : c.Sound) {i other : ι} {live : List ι}
    (hn : live.Nodup) (hl : ∀ k, k ∈ live ↔ k ∈ c.live ∨ k = i)
    (hi : i ∈ c.live → (c.object i).memory = none) (ho : other ∈ c.live) (hne : i ≠ other) :
    (c.moved live i other).Sound := by
  have howns := Segments.moved_owns hl ho hne
  refine h.handOver rfl rfl hn (fun k hk => ?_) (fun k => if k = i then other else k)
    (fun k l g g' hk hl' hkl => ?_) (fun k g hk => ?_) (fun k g hk => ?_)
  · rw [Segments.moved_object]
    by_cases hko : k = other
    · exact .inl (by rw [if_pos hko])
    · rw [if_neg hko]
      split
      · exact h.name other ho
      · rename_i hki
        exact h.name k (((hl k).mp hk).resolve_right hki)
  · rcases (howns k g).mp hk with ⟨hki, _⟩ | ⟨hki, hko, _⟩
    · rcases (howns l g').mp hl' with ⟨hli, _⟩ | ⟨hli, hlo, _⟩
      · exact hki.trans hli.symm
      · rw [if_pos hki, if_neg hli] at hkl
        exact absurd hkl.symm hlo
    · rcases (howns l g').mp hl' with ⟨hli, _⟩ | ⟨hli, _⟩
      · rw [if_neg hki, if_pos hli] at hkl
        exact absurd hkl hko
      · rwa [if_neg hki, if_neg hli] at hkl
  · rcases (howns k g).mp hk with ⟨hki, hown⟩ | ⟨hki, _, hown⟩
    · rwa [if_pos hki]
    · rwa [if_neg hki]
  · by_cases hko : k = other
    · exact ⟨i, (howns i g).mpr (.inl ⟨rfl, hko ▸ hk⟩)⟩
    · have hki : k ≠ i := by
        rintro rfl
        exact nomatch (hi hk.1).symm.trans hk.2
      exact ⟨k, (howns k g).mpr (.inr ⟨hki, hko, hk⟩)⟩

theorem Segments.Sound.moveAssign_self {c : Segments ι} (h : c.Sound) (i : ι) :
    (c.moveAssign i i).Sound := by
  rw [Segments.moveAssign_self]
  have hmemory : ∀ k, (Function.update c.object i { c.object i with name := "" } k).memory =
      (c.object k).memory := by
    intro k
    by_cases hk : k = i
    · rw [hk, Function.update_self]
    · rw [Function.update_of_ne hk]
  refine h.handOver rfl rfl h.nodup (fun k hk => ?_) id (fun _ _ _ _ _ _ heq => heq)
    (fun k g hk => ⟨hk.1, (hmemory k).symm.trans hk.2⟩)
    (fun k g hk => ⟨k, hk.1, (hmemory k).trans hk.2⟩)
  simp only [Segments.set]
  by_cases hki : k = i
  · rw [hki, Function.update_self]
    exact .inl rfl
  · rw [Function.update_of_ne hki]
    exact h.name k hk

def Segments.mapped (c : Segments ι) (i : ι) (g : Segment) (u : Table String) : Segments ι :=
  Segments.set { c with
    table := u, live := c.live ++ [i], constructed := c.constructed ++ [g.name] }
    i ⟨some g, g.name⟩

theorem Segments.mapped_owns {c : Segments ι} {i : ι} (hi : i ∉ c.live) (g : Segment)
    (u : Table String) (k : ι) (g' : Segment) :
    (c.mapped i g u).Owns k g' ↔ c.Owns k g' ∨ k = i ∧ g' = g := by
  by_cases hki : k = i
  · subst hki
    simp [Segments.Owns, Segments.mapped, Segments.set, hi, eq_comm]
  · simp [Segments.Owns, Segments.mapped, Segments.set, hki]

theorem Segments.Sound.construct {c : Segments ι} (h : c.Sound) {i : ι} {mode : Mode}
    {name : String} {o : Nat} {u : Table String} (hi : i ∉ c.live) (hname : name ≠ "")
    (hfree : ∀ j ∈ c.live, (c.object j).memory.map Segment.name ≠ some name)
    (hattach : c.table.attach mode name = some (o, u)) :
    (c.mapped i ⟨o, name⟩ u).Sound := by
  obtain ⟨hext, hobject⟩ := Table.attach_extends hattach
  have howner := Segments.mapped_owns hi ⟨o, name⟩ u
  have hother : ∀ n, n ≠ name → u.object n = c.table.object n := by
    intro n hn
    rcases Table.attach_spec hattach with ⟨_, rfl⟩ | ⟨_, _, rfl⟩
    · rfl
    · simp [Table.make, Function.update_of_ne hn]
  have hold : ∀ k ∈ c.live, Function.update c.object i ⟨some ⟨o, name⟩, name⟩ k =
      c.object k := by
    intro k hk
    refine Function.update_of_ne ?_ _ _
    rintro rfl
    exact hi hk
  have hnew : ∀ k g, c.Owns k g → g.name ≠ name := by
    intro k g hk hg
    exact hfree k hk.1 (by simp [hk.2, hg])
  refine ⟨fun k g hk => ?_, fun n hn hobj => ?_, ?_, fun k hk => ?_, fun k g hk => ?_,
    fun k l g g' hk hl heq => ?_⟩
  · rcases (howner k g).mp hk with hk | ⟨rfl, rfl⟩
    · exact hext.2 _ _ (h.stays k g hk)
    · exact hobject
  · by_cases heq : n = name
    · exact ⟨i, ⟨o, name⟩, (howner _ _).mpr (.inr ⟨rfl, rfl⟩), heq.symm⟩
    · have hmem : n ∈ c.constructed :=
        (List.mem_append.mp hn).resolve_right fun hlast => heq (List.mem_singleton.mp hlast)
      obtain ⟨k, g, hk, hg⟩ := h.removed n hmem (hother n heq ▸ hobj)
      exact ⟨k, g, (howner k g).mpr (.inl hk), hg⟩
  · exact List.nodup_append_comm.mpr (List.nodup_cons.mpr ⟨hi, h.nodup⟩)
  · simp only [Segments.mapped, Segments.set]
    rcases List.mem_append.mp hk with hk | hk
    · rw [hold k hk]
      exact h.name k hk
    · rw [List.mem_singleton.mp hk, Function.update_self]
      exact .inr ⟨_, rfl, rfl⟩
  · rcases (howner k g).mp hk with hk | ⟨rfl, rfl⟩
    · exact ⟨(h.named k g hk).1, List.mem_append_left _ (h.named k g hk).2⟩
    · exact ⟨hname, List.mem_append_right _ (List.mem_singleton_self name)⟩
  · rcases (howner k g).mp hk with hk | ⟨rfl, rfl⟩
    · rcases (howner l g').mp hl with hl | ⟨rfl, rfl⟩
      · exact h.unique k l g g' hk hl heq
      · exact absurd heq (hnew k g ‹_›)
    · rcases (howner l g').mp hl with hl | ⟨rfl, rfl⟩
      · exact absurd heq.symm (hnew l g' ‹_›)
      · rfl

omit [DecidableEq ι] in
theorem Segments.Sound.destroyed {c : Segments ι} (h : c.Sound) {i : ι} (hi : i ∈ c.live)
    (hkept : ∀ g ∈ (c.object i).memory, (c.object i).name = g.name) :
    ((c.object i).memory = none ∧ (c.object i).destroy c.table = c.table) ∨
    ∃ g, (c.object i).memory = some g ∧
      (c.object i).destroy c.table = c.table.remove g.name := by
  cases hm : (c.object i).memory with
  | none => exact .inl ⟨rfl, h.namesOwned.moved i hi hm⟩
  | some g =>
    refine .inr ⟨g, rfl, ?_⟩
    rw [SharedMemory.destroy, hkept g hm, if_neg (h.named i g ⟨hi, hm⟩).1]

theorem Segments.Sound.destroy {c : Segments ι} (h : c.Sound) {i : ι} (hi : i ∈ c.live)
    (hkept : c.Kept (.destroy i)) :
    Segments.Sound { c with
      table := (c.object i).destroy c.table, live := c.live.erase i } := by
  have hlive : ∀ k ∈ c.live.erase i, k ≠ i ∧ k ∈ c.live :=
    fun k hk => h.nodup.mem_erase_iff.mp hk
  rcases h.destroyed hi hkept with ⟨hnone, htable⟩ | ⟨g, hg, htable⟩
  · refine h.handOver htable rfl (h.nodup.erase i) (fun k hk => h.name k (hlive k hk).2) id
      (fun _ _ _ _ _ _ heq => heq) (fun k g hk => ⟨(hlive k hk.1).2, hk.2⟩)
      fun k g hk => ⟨k, ?_, hk.2⟩
    refine h.nodup.mem_erase_iff.mpr ⟨?_, hk.1⟩
    rintro rfl
    exact nomatch hnone.symm.trans hk.2
  · have howns : ∀ k g', Segments.Owns { c with
        table := (c.object i).destroy c.table, live := c.live.erase i } k g' →
        c.Owns k g' ∧ g'.name ≠ g.name := by
      intro k g' hk
      have hk' : c.Owns k g' := ⟨(hlive k hk.1).2, hk.2⟩
      exact ⟨hk', fun heq => (hlive k hk.1).1 (h.unique k i g' g hk' ⟨hi, hg⟩ heq)⟩
    refine ⟨fun k g' hk => ?_, fun n hn hobj => ?_, h.nodup.erase i,
      fun k hk => h.name k (hlive k hk).2, fun k g' hk => h.named k g' (howns k g' hk).1,
      fun k l g' g'' hk hl => h.unique k l g' g'' (howns k g' hk).1 (howns l g'' hl).1⟩
    · obtain ⟨hk', hne⟩ := howns k g' hk
      simpa [htable, Table.remove, Function.update_of_ne hne] using h.stays k g' hk'
    · have hne : n ≠ g.name := by
        rintro rfl
        simp [htable, Table.remove] at hobj
      have hobj : c.table.object n ≠ none := by
        simpa [htable, Table.remove, Function.update_of_ne hne] using hobj
      obtain ⟨k, g', hk, rfl⟩ := h.removed n hn hobj
      refine ⟨k, g', ⟨h.nodup.mem_erase_iff.mpr ⟨?_, hk.1⟩, hk.2⟩, rfl⟩
      rintro rfl
      cases hg.symm.trans hk.2
      exact hne rfl

theorem Segments.Sound.overwritten {c : Segments ι} (h : c.Sound) {i other : ι}
    {g : Segment} (hi : c.Owns i g) (ho : other ∈ c.live) (hne : i ≠ other) :
    ¬ (c.moveAssign i other).NamesOwned := by
  intro hnames
  rw [Segments.moveAssign_of_ne c hne] at hnames
  have hleft : c.table.object g.name ≠ none := by simp [h.stays i g hi]
  obtain ⟨k, g', hk, hg'⟩ := hnames.removed g.name (h.named i g hi).2 hleft
  have howns := Segments.moved_owns (Segments.live_with hi.1) ho hne k g'
  rcases howns.mp hk with ⟨_, hown⟩ | ⟨hki, _, hown⟩
  · exact hne (h.unique i other g g' hi hown hg'.symm)
  · exact hki (h.unique k i g' g hown hi hg')

theorem Segments.Sound.forgotten {c : Segments ι} (h : c.Sound) {i : ι} {g : Segment}
    (hi : c.Owns i g) (hname : (c.object i).name ≠ g.name) :
    ¬ Segments.NamesOwned { c with
      table := (c.object i).destroy c.table, live := c.live.erase i } := by
  intro hnames
  have hempty : (c.object i).name = "" := by
    rcases h.name i hi.1 with hempty | ⟨g', hg', heq⟩
    · exact hempty
    · cases hi.2.symm.trans hg'
      exact absurd heq.symm hname
  obtain ⟨k, g', ⟨hlive, hk⟩, hg'⟩ := hnames.removed g.name (h.named i g hi).2 (by
    simp [SharedMemory.destroy, hempty, h.stays i g hi])
  obtain ⟨hki, hlive⟩ := h.nodup.mem_erase_iff.mp hlive
  exact hki (h.unique k i g' g ⟨hlive, hk⟩ hi hg')

theorem Segments.Sound.step {c d : Segments ι} {e : Segments.Event ι} (h : c.Sound)
    (he : c.Kept e) (hstep : c.step e = some d) : d.Sound := by
  cases e with
  | construct i mode name =>
    simp only [Segments.step, Option.ite_none_right_eq_some, Option.map_eq_some_iff] at hstep
    obtain ⟨⟨hi, hname, hfree⟩, ⟨o, u⟩, hattach, rfl⟩ := hstep
    exact h.construct hi hname hfree hattach
  | moveConstruct i other =>
    simp only [Segments.step, Option.ite_none_right_eq_some, Option.some.injEq] at hstep
    obtain ⟨⟨hi, ho⟩, rfl⟩ := hstep
    have hnodup : (c.live ++ [i]).Nodup :=
      List.nodup_append_comm.mpr (List.nodup_cons.mpr ⟨hi, h.nodup⟩)
    have hne : i ≠ other := fun heq => hi (heq ▸ ho)
    exact h.move hnodup (by simp) (fun hlive => absurd hlive hi) ho hne
  | moveAssign i other =>
    simp only [Segments.step, Option.ite_none_right_eq_some, Option.some.injEq] at hstep
    obtain ⟨⟨hi, ho⟩, rfl⟩ := hstep
    by_cases hne : i = other
    · subst hne
      exact h.moveAssign_self i
    · rw [Segments.moveAssign_of_ne c hne]
      exact h.move h.nodup (Segments.live_with hi) (fun _ => he hne) ho hne
  | destroy i =>
    simp only [Segments.step, Option.ite_none_right_eq_some, Option.some.injEq] at hstep
    obtain ⟨hi, rfl⟩ := hstep
    exact h.destroy hi he

theorem Segments.Sound.breaks {c d : Segments ι} {e : Segments.Event ι} (h : c.Sound)
    (he : ¬ c.Kept e) (hstep : c.step e = some d) : ¬ d.NamesOwned := by
  cases e with
  | construct i mode name => exact absurd trivial he
  | moveConstruct i other => exact absurd trivial he
  | moveAssign i other =>
    simp only [Segments.step, Option.ite_none_right_eq_some, Option.some.injEq] at hstep
    obtain ⟨⟨hi, ho⟩, rfl⟩ := hstep
    simp only [Segments.Kept, Classical.not_imp] at he
    obtain ⟨hne, hsome⟩ := he
    obtain ⟨g, hg⟩ := Option.ne_none_iff_exists'.mp hsome
    exact h.overwritten ⟨hi, hg⟩ ho hne
  | destroy i =>
    simp only [Segments.step, Option.ite_none_right_eq_some, Option.some.injEq] at hstep
    obtain ⟨hi, rfl⟩ := hstep
    simp only [Segments.Kept, not_forall] at he
    obtain ⟨g, hg, hname⟩ := he
    exact h.forgotten ⟨hi, hg⟩ hname

theorem Segments.Sound.start (t : Table String) : (Segments.machine ι t).start.Sound :=
  ⟨fun _ _ hi => (nomatch hi.1), fun _ hn => (nomatch hn), List.nodup_nil,
    fun _ hi => (nomatch hi), fun _ _ hi => (nomatch hi.1), fun _ _ _ _ hi => (nomatch hi.1)⟩

/-- The names of the system follow the owners of the segments exactly in the runs in
which no owner is assigned over or destroyed after it was assigned to itself. -/
theorem names_owned_iff_kept (t : Table String) (es : List (Segments.Event ι))
    (c : Segments ι) (h : (Segments.machine ι t).run es = some c) :
    (Segments.machine ι t).Throughout Segments.NamesOwned es ↔
      (Segments.machine ι t).EachStep Segments.Kept es :=
  Machine.throughout_iff_eachStep (Segments.Sound.start t) (fun _ hc => hc.namesOwned)
    (fun _ _ _ hc he hstep => hc.step he hstep) (fun _ _ _ hc he hstep => hc.breaks he hstep) h

def segmentHandedOn : List (Segments.Event Nat) :=
  [.construct 0 .createOnly "x", .moveConstruct 1 0, .moveAssign 0 1, .destroy 1, .destroy 0]

theorem names_owned_segmentHandedOn :
    (Segments.machine Nat .empty).Throughout Segments.NamesOwned segmentHandedOn := by
  refine (names_owned_iff_kept .empty segmentHandedOn _ rfl).mpr ?_
  exact Machine.eachStep_of_checks (by decide)

def ownerAssignedOver : List (Segments.Event Nat) :=
  [.construct 0 .createOnly "x", .construct 1 .createOnly "y", .moveAssign 0 1, .destroy 1,
    .destroy 0]

theorem name_left_ownerAssignedOver :
    ∃ c, (Segments.machine Nat .empty).run ownerAssignedOver = some c ∧ c.live = [] ∧
      c.constructed = ["x", "y"] ∧ c.table.object "x" = some 0 ∧ ¬ c.NamesOwned := by
  obtain ⟨c, hrun, hlive, hmade, hleft⟩ : ∃ c,
      (Segments.machine Nat .empty).run ownerAssignedOver = some c ∧ c.live = [] ∧
        c.constructed = ["x", "y"] ∧ c.table.object "x" = some 0 := ⟨_, rfl, rfl, rfl, rfl⟩
  refine ⟨c, hrun, hlive, hmade, hleft, fun h => ?_⟩
  obtain ⟨i, g, hi, _⟩ := h.removed "x" (by simp [hmade]) (by simp [hleft])
  have hi : i ∈ c.live := hi.1
  simp [hlive] at hi

end Sephi.Ipc
