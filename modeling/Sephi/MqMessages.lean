import Mathlib.Data.List.InsertIdx
import Sephi.MqPriority

set_option autoImplicit false

namespace Sephi.Ipc
open PriorityQueue

structure Message where
  priority : UInt32
  payload : List UInt8
  deriving DecidableEq, Repr

def Message.rank (m : Message) : Nat := m.priority.toNat

def MsgHdr.message (m : MsgHdr) : Message := ⟨m.priority, m.data.take m.len⟩

/-- What was in the data behind the end of the new message stays there. -/
def MsgHdr.write (hdr : MsgHdr) (m : Message) : MsgHdr where
  len := m.payload.length
  priority := m.priority
  data := m.payload ++ hdr.data.drop m.payload.length

def MsgHdr.clear (hdr : MsgHdr) : MsgHdr := { hdr with len := 0, priority := 0 }

@[simp] theorem MsgHdr.message_write (hdr : MsgHdr) (m : Message) : (hdr.write m).message = m := by
  simp [MsgHdr.message, MsgHdr.write]

namespace MqHdr

/-- `do_send` once there is room: the first free message is queued and written. -/
def put (h : MqHdr) (kind : IndexKind) (m : Message) : MqHdr :=
  let (free, h) := h.queueFreeMsg kind m.priority
  { h with messages := Function.update h.messages free ((h.messages free).write m) }

/-- `do_receive` once there is a message: the top one is read, cleared and freed. -/
def take (h : MqHdr) (kind : IndexKind) : Message × MqHdr :=
  let top := h.topMsg kind
  ((h.messages top).message,
    freeTopMsg { h with messages := Function.update h.messages top (h.messages top).clear })

def stored (h : MqHdr) : List Message := h.inserted.map fun p => (h.messages p).message

/-- Every message is pointed to once, free ones are clean, and the others are in order and
fit the size of the queue. -/
structure Sound (h : MqHdr) (kind : IndexKind) : Prop where
  placed : h.Placed kind
  distinct : (h.inserted ++ h.free).Nodup
  exist : ∀ p ∈ h.inserted ++ h.free, p < h.maxNumMsg
  clean : ∀ p ∈ h.free, (h.messages p).priority = 0 ∧ (h.messages p).len = 0
  ordered : h.stored.Pairwise (NotAbove Message.rank)
  len : ∀ p ∈ h.inserted, (h.messages p).len ≤ h.maxMsgSize
  data : ∀ p < h.maxNumMsg, (h.messages p).data.length = h.maxMsgSize

variable {h : MqHdr} {kind : IndexKind}

theorem inserted_length (h : MqHdr) : h.inserted.length = h.curNumMsg := by simp [inserted]

theorem stored_length (h : MqHdr) : h.stored.length = h.curNumMsg := by
  simp [stored, inserted_length]

theorem rank_stored (h : MqHdr) {i : Nat} (hi : i < h.stored.length) :
    h.stored[i].rank = (h.priorityAt i).toNat := by
  simp [stored, inserted, Message.rank, MsgHdr.message, priorityAt]

theorem Sound.priorities (hs : h.Sound kind) : h.Ordered := by
  intro i j hij hj
  have hj : j < h.stored.length := h.stored_length ▸ hj
  rcases Nat.lt_or_eq_of_le hij with hlt | rfl
  · have hle := List.pairwise_iff_getElem.mp hs.ordered i j (Nat.lt_trans hlt hj) hj hlt
    rw [NotAbove, rank_stored, rank_stored] at hle
    exact UInt32.le_iff_toNat_le.mpr hle
  · exact UInt32.le_refl _

theorem Inserts.perm {h' : MqHdr} {c p : Nat} (hi : h.Inserts kind c p h')
    (hc : c ≤ h.curNumMsg) : (h'.inserted ++ h'.free).Perm (h.inserted ++ h.free) := by
  have hins : h'.inserted.Perm (p :: h.inserted) := by
    rw [hi.inserted]
    exact List.perm_insertIdx p h.inserted (h.inserted_length.symm ▸ hc)
  have hfree : (p :: h'.free).Perm h.free := by
    rcases hi.free with heq | heq
    · rw [heq]
    · rw [heq]
      exact (List.perm_append_singleton p h'.free).symm
  refine (hins.append_right h'.free).trans ?_
  exact List.perm_middle.symm.trans (hfree.append_left h.inserted)

theorem Inserts.mem_free {h' : MqHdr} {c p : Nat} (hi : h.Inserts kind c p h') : p ∈ h.free := by
  rcases hi.free with heq | heq
  · rw [heq]
    exact List.mem_cons_self
  · rw [heq]
    exact List.mem_append_right _ (List.mem_singleton_self p)

theorem Inserts.free_subset {h' : MqHdr} {c p : Nat} (hi : h.Inserts kind c p h') :
    ∀ f ∈ h'.free, f ∈ h.free := by
  intro f hf
  rcases hi.free with heq | heq
  · rw [heq]
    exact List.mem_cons_of_mem p hf
  · rw [heq]
    exact List.mem_append_left _ hf

theorem Sound.put_spec (hs : h.Sound kind) (hn : h.curNumMsg < h.maxNumMsg) (m : Message) :
    ∃ c p h', h.Divides m.priority c ∧ h.Inserts kind c p h' ∧ h.put kind m =
      { h' with messages := Function.update h.messages p ((h.messages p).write m) } := by
  obtain ⟨c, hd, hi⟩ := queueFreeMsg_inserts kind hs.placed hn hs.priorities m.priority
  refine ⟨c, _, _, hd, hi, ?_⟩
  have hmessages : (h.queueFreeMsg kind m.priority).2.messages = h.messages := by rw [hi.frame]
  rw [← hmessages]
  rfl

theorem Sound.put_stored (hs : h.Sound kind) (hn : h.curNumMsg < h.maxNumMsg) (m : Message) :
    (h.put kind m).stored = enqueue Message.rank m h.stored := by
  obtain ⟨c, p, h', hd, hi, heq⟩ := hs.put_spec hn m
  have hother : ∀ f ∈ h.inserted, f ≠ p := by
    rintro f hf rfl
    exact (List.nodup_append.mp hs.distinct).2.2 f hf f hi.mem_free rfl
  have hstored : (h.put kind m).stored = h.stored.insertIdx c m := by
    have hput : (h.put kind m).stored = h'.inserted.map fun f =>
        (Function.update h.messages p ((h.messages p).write m) f).message := by rw [heq]; rfl
    rw [hput, hi.inserted, List.map_insertIdx, Function.update_self, MsgHdr.message_write, stored]
    congr 1
    refine List.map_congr_left fun f hf => ?_
    rw [Function.update_of_ne (hother f hf)]
  rw [hstored]
  refine (enqueue_eq_insertIdx (h.stored_length.symm ▸ hd.le) (fun i hl hlt => ?_)
    fun i hl hle => ?_).symm
  · rw [rank_stored]
    exact UInt32.lt_iff_toNat_lt.mp (hd.below i hlt)
  · rw [rank_stored]
    exact UInt32.le_iff_toNat_le.mp (hd.above i hle (h.stored_length ▸ hl))

theorem insertAt_frame (h : MqHdr) (kind : IndexKind) (place : Nat) :
    (h.insertAt kind place).2 = { h with
      index := (h.insertAt kind place).2.index
      curFirstMsg := (h.insertAt kind place).2.curFirstMsg
      curNumMsg := h.curNumMsg + 1 } := by
  cases kind with
  | circular =>
    simp only [insertAt, insertBetween]
    split_ifs <;> rfl
  | plain => rfl

@[simp] theorem put_frame (h : MqHdr) (kind : IndexKind) (m : Message) :
    (h.put kind m).maxNumMsg = h.maxNumMsg ∧ (h.put kind m).maxMsgSize = h.maxMsgSize ∧
    (h.put kind m).curNumMsg = h.curNumMsg + 1 ∧
    (h.put kind m).blockedSenders = h.blockedSenders ∧
    (h.put kind m).blockedReceivers = h.blockedReceivers := by
  have hframe : (h.queueFreeMsg kind m.priority).2 = { h with
      index := (h.queueFreeMsg kind m.priority).2.index
      curFirstMsg := (h.queueFreeMsg kind m.priority).2.curFirstMsg
      curNumMsg := h.curNumMsg + 1 } := insertAt_frame h kind _
  simp only [put]
  rw [hframe]
  exact ⟨rfl, rfl, rfl, rfl, rfl⟩

theorem Sound.put (hs : h.Sound kind) (hn : h.curNumMsg < h.maxNumMsg) {m : Message}
    (hm : m.payload.length ≤ h.maxMsgSize) : (h.put kind m).Sound kind := by
  have hordered : (h.put kind m).stored.Pairwise (NotAbove Message.rank) :=
    hs.put_stored hn m ▸ enqueue_pairwise hs.ordered
  obtain ⟨c, p, h', hd, hi, heq⟩ := hs.put_spec hn m
  have hperm := hi.perm hd.le
  have hp : p ∈ h'.inserted ∧ p < h.maxNumMsg := by
    refine ⟨?_, hs.exist p (List.mem_append_right _ hi.mem_free)⟩
    rw [hi.inserted]
    exact (List.mem_insertIdx (h.inserted_length.symm ▸ hd.le)).mpr (.inl rfl)
  have hdistinct : (h'.inserted ++ h'.free).Nodup := hperm.nodup_iff.mpr hs.distinct
  have hother : ∀ f, f ≠ p → Function.update h.messages p ((h.messages p).write m) f =
      h.messages f := fun f hf => Function.update_of_ne hf _ _
  have hmax : h'.maxNumMsg = h.maxNumMsg ∧ h'.maxMsgSize = h.maxMsgSize := by
    rw [hi.frame]
    exact ⟨rfl, rfl⟩
  rw [heq] at hordered ⊢
  refine ⟨⟨hi.placed.num, hi.placed.first, hi.placed.plain⟩, hdistinct, fun f hf => ?_,
    fun f hf => ?_, hordered, fun f hf => ?_, fun f hf => ?_⟩
  · exact hmax.1 ▸ hs.exist f (hperm.mem_iff.mp hf)
  · have hne : f ≠ p := by
      rintro rfl
      exact (List.nodup_append.mp hdistinct).2.2 f hp.1 f hf rfl
    simpa only [hother f hne] using hs.clean f (hi.free_subset f hf)
  · by_cases hne : f = p
    · subst hne
      simpa [MsgHdr.write, hmax.2] using hm
    · have hf : f ∈ h.inserted := by
        have hmem : f ∈ h'.inserted := hf
        rw [hi.inserted, List.mem_insertIdx (h.inserted_length.symm ▸ hd.le)] at hmem
        exact hmem.resolve_left hne
      simpa [hother f hne, hmax.2] using hs.len f hf
  · by_cases hne : f = p
    · subst hne
      simp only [Function.update_self, MsgHdr.write, List.length_append, List.length_drop]
      rw [hs.data f hp.2, hmax.2, Nat.add_sub_cancel' hm]
    · simpa [hother f hne, hmax.2] using hs.data f (hmax.1 ▸ hf)

theorem take_split (hp : h.Placed kind) (hn : 0 < h.curNumMsg) :
    h.inserted = (h.take kind).2.inserted ++ [h.topMsg kind] ∧
      (h.take kind).2.free = h.topMsg kind :: h.free := by
  have hnum := hp.num
  have hentry : (h.take kind).2.entry = h.entry := rfl
  have hless : (h.take kind).2.curNumMsg = h.curNumMsg - 1 := rfl
  rw [topMsg_eq hp hn]
  constructor
  · have hsucc : h.curNumMsg = h.curNumMsg - 1 + 1 := (Nat.sub_add_cancel hn).symm
    simp only [inserted, hless, hentry]
    conv_lhs => rw [hsucc, List.range_succ, List.map_append, List.map_singleton]
  · have hlen : h.maxNumMsg - (h.curNumMsg - 1) = h.maxNumMsg - h.curNumMsg + 1 := by omega
    have hmax : (h.take kind).2.maxNumMsg = h.maxNumMsg := rfl
    simp only [free, hless, hentry, hmax]
    rw [hlen, List.range_succ_eq_map, List.map_cons, List.map_map, Nat.add_zero]
    congr 1
    refine List.map_congr_left fun i _ => ?_
    simp only [Function.comp_apply]
    congr 1
    omega

theorem Sound.top_notMem (hs : h.Sound kind) (hn : 0 < h.curNumMsg) :
    h.topMsg kind ∉ (h.take kind).2.inserted := by
  have hdistinct := (List.nodup_append.mp hs.distinct).1
  rw [(take_split hs.placed hn).1] at hdistinct
  intro htop
  exact (List.nodup_append.mp hdistinct).2.2 _ htop _ (List.mem_singleton_self _) rfl

theorem Sound.stored_eq (hs : h.Sound kind) (hn : 0 < h.curNumMsg) :
    h.stored = (h.take kind).2.stored ++ [(h.take kind).1] := by
  have hother : ∀ f ∈ (h.take kind).2.inserted,
      ((h.take kind).2.messages f).message = (h.messages f).message := by
    intro f hf
    have hne : f ≠ h.topMsg kind := fun heq => hs.top_notMem hn (heq ▸ hf)
    exact congrArg MsgHdr.message (Function.update_of_ne hne _ _)
  rw [stored, stored, List.map_congr_left hother, (take_split hs.placed hn).1, List.map_append]
  rfl

theorem Sound.take_stored (hs : h.Sound kind) (hn : 0 < h.curNumMsg) :
    h.stored.getLast? = some (h.take kind).1 ∧ (h.take kind).2.stored = h.stored.dropLast := by
  rw [hs.stored_eq hn, List.dropLast_concat, List.getLast?_concat]
  exact ⟨rfl, rfl⟩

theorem Sound.take (hs : h.Sound kind) (hn : 0 < h.curNumMsg) :
    (h.take kind).2.Sound kind := by
  obtain ⟨hinserted, hfree⟩ := take_split hs.placed hn
  have hsame : (h.take kind).2.inserted ++ (h.take kind).2.free = h.inserted ++ h.free := by
    rw [hinserted, hfree, List.append_assoc, List.singleton_append]
  have hmessages : (h.take kind).2.messages =
      Function.update h.messages (h.topMsg kind) (h.messages (h.topMsg kind)).clear := rfl
  have hnum := hs.placed.num
  refine ⟨⟨Nat.le_trans (Nat.sub_le _ 1) hnum, hs.placed.first, hs.placed.plain⟩, ?_,
    fun f hf => hs.exist f (hsame ▸ hf), fun f hf => ?_, ?_, fun f hf => ?_, fun f hf => ?_⟩
  · rw [hsame]
    exact hs.distinct
  · rw [hmessages]
    by_cases htop : f = h.topMsg kind
    · rw [htop, Function.update_self]
      exact ⟨rfl, rfl⟩
    · rw [Function.update_of_ne htop]
      rw [hfree] at hf
      exact hs.clean f ((List.mem_cons.mp hf).resolve_left htop)
  · rw [(hs.take_stored hn).2]
    exact hs.ordered.sublist (List.dropLast_sublist _)
  · have hne : f ≠ h.topMsg kind := fun heq => hs.top_notMem hn (heq ▸ hf)
    rw [hmessages, Function.update_of_ne hne]
    exact hs.len f (hinserted ▸ List.mem_append_left _ hf)
  · have hdata := hs.data f hf
    rw [hmessages]
    by_cases htop : f = h.topMsg kind
    · rw [htop, Function.update_self]
      exact htop ▸ hdata
    · rw [Function.update_of_ne htop]
      exact hdata

theorem make_sound (maxNumMsg maxMsgSize : Nat) (kind : IndexKind) :
    (make maxNumMsg maxMsgSize).Sound kind := by
  have hfree : (make maxNumMsg maxMsgSize).free = List.range maxNumMsg := by
    refine (List.map_congr_left fun i hi => ?_).trans (List.map_id _)
    have hi : i < maxNumMsg := List.mem_range.mp hi
    simp [entry, slot, make, hi]
  have hinserted : (make maxNumMsg maxMsgSize).inserted = [] := rfl
  refine ⟨⟨Nat.zero_le _, Nat.zero_le _, fun _ => rfl⟩, ?_, ?_, fun _ _ => ⟨rfl, rfl⟩,
    List.Pairwise.nil, fun f hf => absurd hf List.not_mem_nil, fun f _ => List.length_replicate⟩
  · rw [hinserted, hfree]
    exact List.nodup_range
  · rw [hinserted, hfree]
    exact fun f hf => List.mem_range.mp hf

end MqHdr

end Sephi.Ipc
