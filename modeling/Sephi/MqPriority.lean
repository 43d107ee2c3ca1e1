import Sephi.MqInsertion
import Sephi.PriorityQueue

set_option autoImplicit false

namespace Sephi.Ipc.MqHdr

def priorityAt (h : MqHdr) (i : Nat) : UInt32 := (h.messages (h.entry i)).priority

def Ordered (h : MqHdr) : Prop :=
  ∀ i j, i ≤ j → j < h.curNumMsg → h.priorityAt i ≤ h.priorityAt j

/-- In front of the place `c` are the messages of a priority lower than `priority`. -/
structure Divides (h : MqHdr) (priority : UInt32) (c : Nat) : Prop where
  le : c ≤ h.curNumMsg
  below : ∀ i < c, h.priorityAt i < priority
  above : ∀ i, c ≤ i → i < h.curNumMsg → priority ≤ h.priorityAt i

variable {h : MqHdr} {kind : IndexKind} {priority : UInt32} {c : Nat}

theorem Ordered.divides (ho : h.Ordered) (priority : UInt32) : ∃ c, h.Divides priority c := by
  obtain ⟨c, hc, hbelow, habove⟩ := Ranges.exists_division
    (fun i => h.priorityAt i < priority) h.curNumMsg
    fun i j hij hj hlt => UInt32.lt_of_le_of_lt (ho i j hij hj) hlt
  exact ⟨c, hc, hbelow, fun i hi hn => UInt32.not_lt.mp (habove i hi hn)⟩

theorem less_slot (i : Nat) :
    h.less priority (h.slot i) = decide (h.priorityAt i < priority) := rfl

theorem Divides.search (hd : h.Divides priority c) {first last a m : Nat}
    (hslot : ∀ k, first ≤ k → k < last → k = h.slot (k - first + a))
    (hlast : last - first + a ≤ h.curNumMsg) (hfirst : first ≤ m) (hm : m ≤ last)
    (hbelow : m - first + a ≤ c) (habove : m = last ∨ c ≤ m - first + a) :
    Ranges.lowerBound (h.less priority) first last = m := by
  refine Ranges.lowerBound_eq hfirst hm (fun k hk hlt => ?_) fun k hk hlt => ?_
  · rw [hslot k hk (by omega), less_slot]
    exact decide_eq_true (hd.below _ (by omega))
  · rw [hslot k (by omega) hlt, less_slot]
    exact decide_eq_false (UInt32.not_lt.mpr (hd.above _ (by omega) (by omega)))

/-- Where the messages go around the end of the index, both segments are searched. -/
theorem lowerBound_around (h : MqHdr) (priority : UInt32) (ha : h.endPos < h.curFirstMsg) :
    h.lowerBound .circular priority =
      if h.maxNumMsg = Ranges.lowerBound (h.less priority) h.curFirstMsg h.maxNumMsg then
        Ranges.lowerBound (h.less priority) 0 h.endPos
      else Ranges.lowerBound (h.less priority) h.curFirstMsg h.maxNumMsg :=
  if_pos ha

theorem lowerBound_straight (h : MqHdr) (priority : UInt32) (ha : ¬ h.endPos < h.curFirstMsg) :
    h.lowerBound .circular priority =
      Ranges.lowerBound (h.less priority) h.curFirstMsg h.endPos :=
  if_neg ha

theorem endPos_around (hn : h.curNumMsg < h.maxNumMsg) (hf : h.curFirstMsg < h.maxNumMsg) :
    h.endPos < h.curFirstMsg ↔ h.maxNumMsg ≤ h.curFirstMsg + h.curNumMsg := by
  rw [endPos_eq (Nat.le_of_lt hf), slot]
  split <;> omega

theorem Divides.search_first (hd : h.Divides priority c) (last : Nat)
    (hlast : last ≤ h.maxNumMsg) (hle : last ≤ h.curFirstMsg + h.curNumMsg)
    (hf : h.curFirstMsg ≤ last) :
    Ranges.lowerBound (h.less priority) h.curFirstMsg last = min (h.curFirstMsg + c) last := by
  refine hd.search (a := 0) (fun k hk hlt => ?_) (by omega) (by omega) (by omega) (by omega)
    (by omega)
  rw [slot, if_pos (by omega)]
  omega

theorem Divides.search_around (hd : h.Divides priority c)
    (ha : h.maxNumMsg ≤ h.curFirstMsg + h.curNumMsg) (hf : h.curFirstMsg < h.maxNumMsg)
    (hc : h.maxNumMsg ≤ h.curFirstMsg + c) :
    Ranges.lowerBound (h.less priority) 0 h.endPos = h.curFirstMsg + c - h.maxNumMsg := by
  have hcn := hd.le
  have hlast : h.endPos = h.curFirstMsg + h.curNumMsg - h.maxNumMsg := by
    rw [endPos_eq (Nat.le_of_lt hf), slot, if_neg (by omega)]
  refine hd.search (a := h.maxNumMsg - h.curFirstMsg) (fun k _ hlt => ?_) (by omega) (by omega)
    (by omega) (by omega) (by omega)
  rw [slot, if_neg (by omega)]
  omega

theorem lowerBound_eq_slot (hp : h.Placed kind) (hn : h.curNumMsg < h.maxNumMsg)
    (hd : h.Divides priority c) (hc : c < h.curNumMsg) :
    h.lowerBound kind priority = h.slot c := by
  have hf := hp.first_lt hn
  cases kind with
  | circular =>
    by_cases ha : h.endPos < h.curFirstMsg
    · rw [lowerBound_around h priority ha]
      rw [endPos_around hn hf] at ha
      rw [hd.search_first _ (Nat.le_refl _) ha (Nat.le_of_lt hf), slot]
      by_cases hseg : h.curFirstMsg + c < h.maxNumMsg
      · rw [if_pos hseg, Nat.min_eq_left (Nat.le_of_lt hseg), if_neg (Nat.ne_of_gt hseg)]
      · rw [if_neg hseg, Nat.min_eq_right (Nat.le_of_not_lt hseg), if_pos rfl]
        exact hd.search_around ha hf (Nat.le_of_not_lt hseg)
    · rw [lowerBound_straight h priority ha]
      rw [endPos_around hn hf] at ha
      have hlast : h.endPos = h.curFirstMsg + h.curNumMsg := by
        rw [endPos_eq (Nat.le_of_lt hf), slot, if_pos (Nat.lt_of_not_le ha)]
      rw [hlast, hd.search_first _ (by omega) (Nat.le_refl _) (by omega), slot, if_pos (by omega)]
      omega
  | plain =>
    have hfirst := hp.plain rfl
    have hsearch := hd.search_first h.curNumMsg (Nat.le_of_lt hn) (by omega) (by omega)
    rw [hfirst] at hsearch
    rw [slot, hfirst, if_pos (by omega)]
    exact hsearch.trans (by omega)

theorem bottomMsg_eq (hp : h.Placed kind) (hn : 0 < h.curNumMsg) :
    h.bottomMsg kind = h.entry 0 := by
  have hnum := hp.num
  have hfirst := hp.first
  rw [bottomMsg, insertedPtrBegin_eq hp (by omega), entry]

theorem topMsg_eq (hp : h.Placed kind) (hn : 0 < h.curNumMsg) :
    h.topMsg kind = h.entry (h.curNumMsg - 1) := by
  have hnum := hp.num
  have hfirst := hp.first
  have hf : h.curFirstMsg < h.maxNumMsg := by omega
  rw [entry]
  cases kind with
  | circular =>
    rw [slot_pred hn hnum hf, topMsg, endPos_eq (Nat.le_of_lt hf)]
    split_ifs <;> first | rfl | contradiction
  | plain =>
    rw [topMsg, slot, hp.plain rfl, if_pos (by omega), Nat.zero_add]

theorem queueFreeMsg_place (kind : IndexKind) (hp : h.Placed kind)
    (hn : h.curNumMsg < h.maxNumMsg) (ho : h.Ordered) (priority : UInt32) :
    ∃ c, h.Divides priority c ∧
      h.queueFreeMsg kind priority = h.insertAt kind (h.slot c) := by
  have hf := hp.first_lt hn
  by_cases hbottom : h.curNumMsg ≠ 0 ∧ priority > (h.messages (h.bottomMsg kind)).priority
  · have hnum : 0 < h.curNumMsg := Nat.pos_of_ne_zero hbottom.1
    by_cases htop : priority > (h.messages (h.topMsg kind)).priority
    · refine ⟨h.curNumMsg, ⟨Nat.le_refl _, fun i hi => ?_, fun i hi hlt => ?_⟩, ?_⟩
      · rw [topMsg_eq hp hnum] at htop
        exact UInt32.lt_of_le_of_lt (ho i _ (Nat.le_sub_one_of_lt hi) (by omega)) htop
      · exact absurd hlt (Nat.not_lt_of_le hi)
      · rw [queueFreeMsg, if_pos hbottom, if_pos htop, insertedPtrEnd_eq hp hn hf]
    · obtain ⟨c, hd⟩ := ho.divides priority
      have hc : c < h.curNumMsg := by
        refine Nat.lt_of_le_of_ne hd.le fun heq => htop ?_
        rw [topMsg_eq hp hnum]
        exact hd.below _ (by omega)
      refine ⟨c, hd, ?_⟩
      rw [queueFreeMsg, if_pos hbottom, if_neg htop, lowerBound_eq_slot hp hn hd hc]
  · refine ⟨0, ⟨Nat.zero_le _, fun i hi => (nomatch hi), fun i _ hi => ?_⟩, ?_⟩
    · have hnum : 0 < h.curNumMsg := Nat.lt_of_le_of_lt (Nat.zero_le i) hi
      have hle : ¬ priority > (h.messages (h.bottomMsg kind)).priority :=
        fun hgt => hbottom ⟨Nat.ne_of_gt hnum, hgt⟩
      rw [bottomMsg_eq hp hnum] at hle
      exact UInt32.le_trans (UInt32.not_lt.mp hle) (ho 0 i (Nat.zero_le i) hi)
    · rw [queueFreeMsg, if_neg hbottom, insertedPtrBegin_eq hp hf]

theorem queueFreeMsg_inserts (kind : IndexKind) (hp : h.Placed kind)
    (hn : h.curNumMsg < h.maxNumMsg) (ho : h.Ordered) (priority : UInt32) :
    ∃ c, h.Divides priority c ∧
      h.Inserts kind c (h.queueFreeMsg kind priority).1 (h.queueFreeMsg kind priority).2 := by
  obtain ⟨c, hd, heq⟩ := queueFreeMsg_place kind hp hn ho priority
  exact ⟨c, hd, heq ▸ insertAt_inserts hp hn hd.le⟩

theorem countP_range {p : Nat → Bool} {c n : Nat} (hc : c ≤ n) (hbelow : ∀ i < c, p i = true)
    (habove : ∀ i, c ≤ i → i < n → p i = false) : (List.range n).countP p = c := by
  obtain ⟨d, rfl⟩ := Nat.exists_eq_add_of_le hc
  have hfirst : (List.range c).countP p = c := by
    refine (List.countP_eq_length.mpr fun i hi => ?_).trans List.length_range
    exact hbelow i (List.mem_range.mp hi)
  have hrest : ((List.range d).map (c + ·)).countP p = 0 := by
    refine List.countP_eq_zero.mpr fun i hi => ?_
    obtain ⟨j, hj, rfl⟩ := List.mem_map.mp hi
    have hj := List.mem_range.mp hj
    simp [habove (c + j) (Nat.le_add_right c j) (Nat.add_lt_add_left hj c)]
  rw [List.range_add, List.countP_append, hfirst, hrest]
  rfl

theorem Divides.countP (hd : h.Divides priority c) :
    (h.inserted.countP fun m => (h.messages m).priority < priority) = c := by
  rw [inserted, List.countP_map]
  exact countP_range hd.le (fun i hi => decide_eq_true (hd.below i hi))
    fun i hi hn => decide_eq_false (UInt32.not_lt.mpr (hd.above i hi hn))

/-- With either index, and whichever of its ends the messages are moved to, `queue_free_msg`
takes a free message, puts it behind all of a lower priority and in front of the others,
keeps these in their order, and leaves the rest of the block alone. -/
theorem queue_free_msg_inserts_in_order (kind : IndexKind) (h : MqHdr) (priority : UInt32)
    (hp : h.Placed kind) (hn : h.curNumMsg < h.maxNumMsg) (ho : h.Ordered) :
    ∃ m h', h.queueFreeMsg kind priority = (m, h') ∧
      h'.inserted = h.inserted.insertIdx
        (h.inserted.countP fun m => (h.messages m).priority < priority) m ∧
      (h.free = m :: h'.free ∨ h.free = h'.free ++ [m]) ∧
      h' = { h with
        index := h'.index, curFirstMsg := h'.curFirstMsg, curNumMsg := h.curNumMsg + 1 } := by
  obtain ⟨c, hd, hi⟩ := queueFreeMsg_inserts kind hp hn ho priority
  exact ⟨_, _, rfl, hd.countP.symm ▸ hi.inserted, hi.free, hi.frame⟩

def aroundTheEnd : MqHdr where
  index := id
  messages := fun m => ⟨1, if m = 4 then 2 else if m = 0 then 6 else 9, [7]⟩
  maxNumMsg := 5
  maxMsgSize := 1
  curNumMsg := 3
  curFirstMsg := 4
  blockedSenders := 0
  blockedReceivers := 0

theorem queue_free_msg_inserts_in_order_aroundTheEnd :
    ∃ m h', aroundTheEnd.queueFreeMsg .circular 7 = (m, h') ∧
      aroundTheEnd.inserted = [4, 0, 1] ∧ h'.inserted = [4, 0, m, 1] := by
  have hplaced : aroundTheEnd.Placed .circular := ⟨by decide, by decide, fun h => nomatch h⟩
  have hordered : aroundTheEnd.Ordered := by
    have hall : ∀ j < 3, ∀ i ≤ j, aroundTheEnd.priorityAt i ≤ aroundTheEnd.priorityAt j := by
      decide
    exact fun i j hij hj => hall j hj i hij
  obtain ⟨m, h', heq, hinserted, _, _⟩ :=
    queue_free_msg_inserts_in_order .circular aroundTheEnd 7 hplaced (by decide) hordered
  exact ⟨m, h', heq, rfl, hinserted⟩

end Sephi.Ipc.MqHdr
