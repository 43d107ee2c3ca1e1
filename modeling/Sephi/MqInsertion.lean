import Mathlib.Tactic.SplitIfs
import Sephi.MqHdr

set_option autoImplicit false

namespace Sephi.Ipc.MqHdr

/-- The position in the index that is `i` behind the first message, around its end. -/
def slot (h : MqHdr) (i : Nat) : Nat :=
  if h.curFirstMsg + i < h.maxNumMsg then h.curFirstMsg + i
  else h.curFirstMsg + i - h.maxNumMsg

def entry (h : MqHdr) (i : Nat) : Nat := h.index (h.slot i)

/-- The messages in the queue, by rising priority. -/
def inserted (h : MqHdr) : List Nat := (List.range h.curNumMsg).map h.entry

def free (h : MqHdr) : List Nat :=
  (List.range (h.maxNumMsg - h.curNumMsg)).map fun i => h.entry (h.curNumMsg + i)

structure Placed (h : MqHdr) (kind : IndexKind) : Prop where
  num : h.curNumMsg ≤ h.maxNumMsg
  first : h.curFirstMsg ≤ h.maxNumMsg - 1
  plain : kind = .plain → h.curFirstMsg = 0

structure ExtendsBack (h : MqHdr) (c m : Nat) (h' : MqHdr) : Prop where
  taken : m = h.entry (h.maxNumMsg - 1)
  first : h'.curFirstMsg = h.prevFirstMsg
  entry : ∀ i < h.maxNumMsg, h'.entry i =
    if i < c then h.entry i else if i = c then m else h.entry (i - 1)

structure ExtendsOn (h : MqHdr) (c m : Nat) (h' : MqHdr) : Prop where
  taken : m = h.entry h.curNumMsg
  first : h'.curFirstMsg = h.curFirstMsg
  entry : ∀ i < h.maxNumMsg, h'.entry i =
    if i < c then h.entry i else if i = c then m
    else if i ≤ h.curNumMsg then h.entry (i - 1) else h.entry i

variable {h : MqHdr} {kind : IndexKind}

theorem Placed.first_lt (hp : h.Placed kind) (hn : h.curNumMsg < h.maxNumMsg) :
    h.curFirstMsg < h.maxNumMsg := by
  have hfirst := hp.first
  omega

theorem endPos_eq (hf : h.curFirstMsg ≤ h.maxNumMsg) :
    h.endPos = h.slot h.curNumMsg := by
  simp only [endPos, slot]
  split_ifs <;> omega

theorem slot_zero (hf : h.curFirstMsg < h.maxNumMsg) : h.slot 0 = h.curFirstMsg := by
  simp [slot, hf]

theorem slot_lt (hf : h.curFirstMsg < h.maxNumMsg) {i : Nat} (hi : i < h.maxNumMsg) :
    h.slot i < h.maxNumMsg := by
  rw [slot]
  split_ifs <;> omega

theorem slot_inj {i j : Nat} (hi : i < h.maxNumMsg)
    (hj : j < h.maxNumMsg) (heq : h.slot i = h.slot j) : i = j := by
  rw [slot, slot] at heq
  split_ifs at heq <;> omega

theorem slot_pred {i : Nat} (hi : 0 < i) (him : i ≤ h.maxNumMsg)
    (hf : h.curFirstMsg < h.maxNumMsg) :
    h.slot (i - 1) = if h.slot i = 0 then h.maxNumMsg - 1 else h.slot i - 1 := by
  simp only [slot]
  split_ifs <;> omega

theorem moveOn_unique {place : Nat} (hu : place < h.endPos) (k : Nat) :
    (h.moveOn place).2.index k =
      if k = place then h.index h.endPos
      else if place < k ∧ k ≤ h.endPos then h.index (k - 1) else h.index k := by
  simp only [moveOn, hu, if_true, not_true_eq_false, if_false, Function.update_apply]
  rw [Ranges.copyBackward_apply _ (Nat.le_succ _)]
  by_cases hk : k = place
  · rw [if_pos hk, if_pos hk]
  · rw [if_neg hk, if_neg hk]
    refine if_congr (by omega) ?_ rfl
    congr 1
    omega

theorem moveOn_around {place : Nat} (he : h.endPos < place) (hp : place < h.maxNumMsg)
    (k : Nat) (hk : k < h.maxNumMsg) :
    (h.moveOn place).2.index k =
      if k = place then h.index h.endPos
      else if place < k ∨ k ≤ h.endPos then
        h.index (if k = 0 then h.maxNumMsg - 1 else k - 1)
      else h.index k := by
  have hu : ¬ place < h.endPos := Nat.not_lt_of_gt he
  simp only [moveOn, hu, if_false, not_false_eq_true, if_true, Function.update_apply,
    Ranges.copyBackward_apply _ (Nat.le_succ _)]
  split_ifs <;> first | omega | rfl | (congr 1; omega)

/-- Here `stop` is one behind the position in which the message is put. -/
theorem moveBack_unique {place stop : Nat}
    (hs : stop = if place = 0 then h.maxNumMsg else place) (h0 : h.curFirstMsg ≠ 0)
    (hle : h.curFirstMsg < stop) (k : Nat) :
    (h.moveBack place).2.index k =
      if k = stop - 1 then h.index h.prevFirstMsg
      else if h.prevFirstMsg ≤ k ∧ k < stop - 1 then h.index (k + 1) else h.index k := by
  have hp : (if place = 0 then h.maxNumMsg - 1 else place - 1) = stop - 1 := by
    subst hs
    split <;> rfl
  have hu : h.curFirstMsg ≠ 0 ∧ h.curFirstMsg ≤ stop := ⟨h0, Nat.le_of_lt hle⟩
  have hprev : h.prevFirstMsg = h.curFirstMsg - 1 := by rw [prevFirstMsg, if_pos h0]
  simp only [moveBack, ← hs, hp, eq_true hu, true_or, hprev, if_true, not_true_eq_false, if_false,
    Function.update_apply, Ranges.copy_apply _ (Nat.sub_le _ 1)]
  split_ifs <;> first | omega | rfl | (congr 1; omega)

theorem moveBack_around {place stop : Nat}
    (hs : stop = if place = 0 then h.maxNumMsg else place) (h0 : 0 < stop)
    (hle : stop - 1 < h.prevFirstMsg) (hf : h.curFirstMsg < h.maxNumMsg) (k : Nat)
    (hk : k < h.maxNumMsg) :
    (h.moveBack place).2.index k =
      if k = stop - 1 then h.index h.prevFirstMsg
      else if h.prevFirstMsg ≤ k ∨ k < stop - 1 then
        h.index (if k = h.maxNumMsg - 1 then 0 else k + 1)
      else h.index k := by
  have hp : (if place = 0 then h.maxNumMsg - 1 else place - 1) = stop - 1 := by
    subst hs
    split <;> rfl
  by_cases hzero : h.curFirstMsg = 0
  · have hprev : h.prevFirstMsg = h.maxNumMsg - 1 := by rw [prevFirstMsg, if_neg (by simp [hzero])]
    simp only [moveBack, ← hs, hp, hzero, hprev, ne_eq, not_true_eq_false, false_and, if_false,
      not_false_eq_true, or_true, if_true, Function.update_apply,
      Ranges.copy_apply _ (Nat.sub_le _ 1)] at hle ⊢
    split_ifs <;> first | omega | rfl | (congr 1; omega)
  · have hprev : h.prevFirstMsg = h.curFirstMsg - 1 := by rw [prevFirstMsg, if_pos hzero]
    have hu : ¬ (h.curFirstMsg ≠ 0 ∧ h.curFirstMsg ≤ stop) := by omega
    simp only [moveBack, ← hs, hp, eq_false hu, hzero, hprev, not_false_eq_true, or_false,
      if_false, if_true, Function.update_apply, Ranges.copy_apply _ (Nat.sub_le _ 1)]
    split_ifs <;> first | omega | rfl | (congr 1; omega)

theorem slot_eq_iff {i j : Nat} (hi : i < h.maxNumMsg) (hj : j < h.maxNumMsg) :
    h.slot i = h.slot j ↔ i = j :=
  ⟨slot_inj hi hj, congrArg h.slot⟩

theorem insertAt_plain_index {place : Nat} (hp : place ≤ h.curNumMsg) (k : Nat) :
    (h.insertAt .plain place).2.index k =
      if k = place then h.index h.curNumMsg
      else if place < k ∧ k ≤ h.curNumMsg then h.index (k - 1) else h.index k := by
  simp only [insertAt, insertedPtrEnd, Function.update_apply,
    Ranges.copyBackward_apply _ (Nat.le_succ _)]
  refine if_congr Iff.rfl rfl ?_
  split_ifs <;> first | omega | rfl | (congr 1; omega)

def back (h : MqHdr) (i : Nat) : Nat := if i = 0 then h.prevFirstMsg else h.slot (i - 1)

theorem slot_last (hf : h.curFirstMsg < h.maxNumMsg) :
    h.slot (h.maxNumMsg - 1) = h.prevFirstMsg := by
  simp only [slot, prevFirstMsg]
  split_ifs <;> omega

theorem slot_of_prev (h' : MqHdr) (hmax : h'.maxNumMsg = h.maxNumMsg)
    (hfirst : h'.curFirstMsg = h.prevFirstMsg) (hf : h.curFirstMsg < h.maxNumMsg) {i : Nat}
    (hi : i < h.maxNumMsg) : h'.slot i = h.back i := by
  simp only [slot, back, hmax, hfirst, prevFirstMsg]
  split_ifs <;> omega

theorem back_eq_iff (hf : h.curFirstMsg < h.maxNumMsg) {i c : Nat} (hi : i < h.maxNumMsg)
    (hc : 0 < c) (hcm : c < h.maxNumMsg) : h.back i = h.slot (c - 1) ↔ i = c := by
  rw [back]
  split
  · rw [← slot_last hf, slot_eq_iff (by omega) (by omega)]
    omega
  · rw [slot_eq_iff (by omega) (by omega)]
    omega

section Moves
variable {c : Nat} (hf : h.curFirstMsg < h.maxNumMsg) (hn : h.curNumMsg < h.maxNumMsg)
  (hc : 0 < c) (hcn : c < h.curNumMsg)
include hf hn hc hcn

theorem moveOn_index {i : Nat} (hi : i < h.maxNumMsg) :
    (h.moveOn (h.slot c)).2.index (h.slot i) =
      if i = c then h.index h.endPos
      else if c < i ∧ i ≤ h.curNumMsg then h.entry (i - 1) else h.entry i := by
  have hend := endPos_eq (Nat.le_of_lt hf)
  have hcm : c < h.maxNumMsg := Nat.lt_trans hcn hn
  have hat := slot_eq_iff hi hcm
  by_cases hu : h.slot c < h.endPos
  · have hmoved : h.slot c < h.slot i ∧ h.slot i ≤ h.endPos ↔ c < i ∧ i ≤ h.curNumMsg := by
      rw [hend] at hu ⊢
      simp only [slot] at hu ⊢
      split_ifs at hu ⊢ <;> omega
    rw [moveOn_unique hu]
    refine if_congr hat rfl ?_
    by_cases hm : c < i ∧ i ≤ h.curNumMsg
    · have hback := hmoved.mpr hm
      rw [if_pos hm, if_pos hback, MqHdr.entry, slot_pred (by omega) (Nat.le_of_lt hi) hf,
        if_neg (by omega)]
    · rw [if_neg hm, if_neg (mt hmoved.mp hm), MqHdr.entry]
  · have hlt : h.endPos < h.slot c := by
      refine Nat.lt_of_le_of_ne (Nat.le_of_not_lt hu) fun heq => ?_
      have hnc := slot_inj hn hcm (hend.symm.trans heq)
      omega
    have hmoved : h.slot c < h.slot i ∨ h.slot i ≤ h.endPos ↔ c < i ∧ i ≤ h.curNumMsg := by
      rw [hend] at hlt ⊢
      simp only [slot] at hlt ⊢
      split_ifs at hlt ⊢ <;> omega
    rw [moveOn_around hlt (slot_lt hf hcm) _ (slot_lt hf hi)]
    refine if_congr hat rfl ?_
    by_cases hm : c < i ∧ i ≤ h.curNumMsg
    · rw [if_pos hm, if_pos (hmoved.mpr hm), MqHdr.entry, slot_pred (by omega) (Nat.le_of_lt hi) hf]
    · rw [if_neg hm, if_neg (mt hmoved.mp hm), MqHdr.entry]

theorem moveOn_extends :
    h.ExtendsOn c (h.moveOn (h.slot c)).1 (h.moveOn (h.slot c)).2 := by
  have hend := endPos_eq (Nat.le_of_lt hf)
  have hm : (h.moveOn (h.slot c)).1 = h.index h.endPos := by simp [moveOn]
  refine ⟨by rw [hm, hend, MqHdr.entry], rfl, fun i hi => ?_⟩
  have hslot : (h.moveOn (h.slot c)).2.slot i = h.slot i := rfl
  rw [MqHdr.entry, hslot, moveOn_index hf hn hc hcn hi, hm]
  split_ifs <;> first | rfl | omega

theorem moveBack_index {i : Nat} (hi : i < h.maxNumMsg) :
    (h.moveBack (h.slot c)).2.index (h.back i) =
      if i = c then h.index h.prevFirstMsg
      else if i < c then h.entry i else h.index (h.back i) := by
  have hcm : c < h.maxNumMsg := Nat.lt_trans hcn hn
  have hat := back_eq_iff hf hi hc hcm
  -- the position in which the message is put is the one before `place`
  have hstop : h.slot (c - 1) + 1 = if h.slot c = 0 then h.maxNumMsg else h.slot c := by
    rw [slot_pred hc (Nat.le_of_lt hcm) hf]
    split <;> omega
  by_cases hu : h.curFirstMsg ≠ 0 ∧ h.curFirstMsg ≤ h.slot (c - 1)
  · have hmoved : h.prevFirstMsg ≤ h.back i ∧ h.back i < h.slot (c - 1) ↔ i < c := by
      simp only [back, slot, prevFirstMsg] at hu ⊢
      split_ifs at hu ⊢ <;> omega
    rw [moveBack_unique hstop hu.1 (Nat.lt_succ_of_le hu.2), Nat.add_sub_cancel]
    refine if_congr hat rfl (if_ctx_congr hmoved (fun hlt => ?_) fun _ => rfl)
    rw [MqHdr.entry]
    congr 1
    simp only [back, slot, prevFirstMsg] at hu ⊢
    split_ifs at hu ⊢ <;> omega
  · have hlast : h.slot (c - 1) < h.prevFirstMsg := by
      simp only [slot, prevFirstMsg] at hu ⊢
      split_ifs at hu ⊢ <;> omega
    have hin : h.back i < h.maxNumMsg := by
      rw [back, ← slot_last hf]
      split <;> exact slot_lt hf (by omega)
    have hmoved : h.prevFirstMsg ≤ h.back i ∨ h.back i < h.slot (c - 1) ↔ i < c := by
      simp only [back, slot, prevFirstMsg] at hu ⊢
      split_ifs at hu ⊢ <;> omega
    rw [moveBack_around hstop (Nat.succ_pos _) hlast hf _ hin, Nat.add_sub_cancel]
    refine if_congr hat rfl (if_ctx_congr hmoved (fun hlt => ?_) fun _ => rfl)
    rw [MqHdr.entry]
    congr 1
    simp only [back, slot, prevFirstMsg] at hu ⊢
    split_ifs at hu ⊢ <;> omega

theorem moveBack_extends :
    h.ExtendsBack c (h.moveBack (h.slot c)).1 (h.moveBack (h.slot c)).2 := by
  have hcm : c < h.maxNumMsg := Nat.lt_trans hcn hn
  have hm : (h.moveBack (h.slot c)).1 = h.index h.prevFirstMsg := by
    have hindex := moveBack_index hf hn hc hcn hcm
    rw [if_pos rfl, (back_eq_iff hf hcm hc hcm).mpr rfl, slot_pred hc (Nat.le_of_lt hcm) hf]
      at hindex
    exact hindex
  refine ⟨by rw [hm, MqHdr.entry, slot_last hf], rfl, fun i hi => ?_⟩
  have hslot : (h.moveBack (h.slot c)).2.slot i = h.back i :=
    slot_of_prev (h := h) (h.moveBack (h.slot c)).2 rfl rfl hf hi
  rw [MqHdr.entry, hslot, moveBack_index hf hn hc hcn hi, hm]
  rcases Nat.lt_trichotomy i c with hlt | rfl | hgt
  · rw [if_neg (Nat.ne_of_lt hlt), if_pos hlt, if_pos hlt]
  · rw [if_pos rfl, if_neg (Nat.lt_irrefl i), if_pos rfl]
  · rw [if_neg (Nat.ne_of_gt hgt), if_neg (Nat.lt_asymm hgt), if_neg (Nat.lt_asymm hgt),
      if_neg (Nat.ne_of_gt hgt), back, if_neg (by omega), MqHdr.entry]

end Moves

theorem ExtendsBack.inserted {h' : MqHdr} {c m : Nat} (he : h.ExtendsBack c m h')
    (hn : h.curNumMsg < h.maxNumMsg) (hc : c ≤ h.curNumMsg)
    (hnum : h'.curNumMsg = h.curNumMsg + 1) :
    h'.inserted = h.inserted.insertIdx c m := by
  refine List.ext_getElem ?_ fun i hi _ => ?_
  · rw [List.length_insertIdx_of_le_length (by simpa [MqHdr.inserted] using hc)]
    simp [MqHdr.inserted, hnum]
  · have hi : i < h.maxNumMsg := by
      simp [MqHdr.inserted, hnum] at hi
      omega
    rw [List.getElem_insertIdx]
    simp only [MqHdr.inserted, List.getElem_map, List.getElem_range]
    rw [he.entry i hi]
    split_ifs <;> rfl

theorem ExtendsOn.inserted {h' : MqHdr} {c m : Nat} (he : h.ExtendsOn c m h')
    (hn : h.curNumMsg < h.maxNumMsg) (hc : c ≤ h.curNumMsg)
    (hnum : h'.curNumMsg = h.curNumMsg + 1) :
    h'.inserted = h.inserted.insertIdx c m := by
  refine List.ext_getElem ?_ fun i hi _ => ?_
  · rw [List.length_insertIdx_of_le_length (by simpa [MqHdr.inserted] using hc)]
    simp [MqHdr.inserted, hnum]
  · have hi : i ≤ h.curNumMsg := by
      simpa [MqHdr.inserted, hnum, Nat.lt_succ_iff] using hi
    rw [List.getElem_insertIdx]
    simp only [MqHdr.inserted, List.getElem_map, List.getElem_range]
    rw [he.entry i (Nat.lt_of_le_of_lt hi hn), if_pos hi]
    split_ifs <;> rfl

theorem ExtendsBack.free {h' : MqHdr} {c m : Nat} (he : h.ExtendsBack c m h')
    (hn : h.curNumMsg < h.maxNumMsg) (hc : c ≤ h.curNumMsg)
    (hnum : h'.curNumMsg = h.curNumMsg + 1) (hmax : h'.maxNumMsg = h.maxNumMsg) :
    h.free = h'.free ++ [m] := by
  have hlen : h.maxNumMsg - h.curNumMsg = h.maxNumMsg - h'.curNumMsg + 1 := by omega
  rw [MqHdr.free, MqHdr.free, hlen, hmax, List.range_succ, List.map_append, List.map_singleton]
  congr 1
  · refine List.map_congr_left fun i hi => ?_
    have hi : i < h.maxNumMsg - h'.curNumMsg := List.mem_range.mp hi
    rw [he.entry _ (by omega), if_neg (by omega), if_neg (by omega)]
    congr 1
    omega
  · rw [he.taken]
    congr 2
    omega

theorem ExtendsOn.free {h' : MqHdr} {c m : Nat} (he : h.ExtendsOn c m h')
    (hn : h.curNumMsg < h.maxNumMsg) (hc : c ≤ h.curNumMsg)
    (hnum : h'.curNumMsg = h.curNumMsg + 1) (hmax : h'.maxNumMsg = h.maxNumMsg) :
    h.free = m :: h'.free := by
  have hlen : h.maxNumMsg - h.curNumMsg = h.maxNumMsg - h'.curNumMsg + 1 := by omega
  rw [MqHdr.free, MqHdr.free, hlen, hmax, List.range_succ_eq_map, List.map_cons, List.map_map]
  congr 1
  · rw [he.taken, Nat.add_zero]
  · refine List.map_congr_left fun i hi => ?_
    have hi : i < h.maxNumMsg - h'.curNumMsg := List.mem_range.mp hi
    rw [he.entry _ (by omega), if_neg (by omega), if_neg (by omega), if_neg (by omega)]
    simp only [Function.comp_apply]
    congr 1
    omega

/-- `h'` has the free message `m` inserted in the place `c`. -/
structure Inserts (h : MqHdr) (kind : IndexKind) (c m : Nat) (h' : MqHdr) : Prop where
  placed : h'.Placed kind
  frame : h' = { h with
    index := h'.index, curFirstMsg := h'.curFirstMsg, curNumMsg := h.curNumMsg + 1 }
  inserted : h'.inserted = h.inserted.insertIdx c m
  free : h.free = m :: h'.free ∨ h.free = h'.free ++ [m]

theorem ExtendsBack.inserts {h' : MqHdr} {c m : Nat} (he : h.ExtendsBack c m h')
    (hn : h.curNumMsg < h.maxNumMsg) (hc : c ≤ h.curNumMsg)
    (hframe : h' = { h with
      index := h'.index, curFirstMsg := h'.curFirstMsg, curNumMsg := h.curNumMsg + 1 })
    (hf : h.curFirstMsg < h.maxNumMsg) : h.Inserts .circular c m h' := by
  have hnum : h'.curNumMsg = h.curNumMsg + 1 := by rw [hframe]
  have hmax : h'.maxNumMsg = h.maxNumMsg := by rw [hframe]
  refine ⟨⟨?_, ?_, fun hk => nomatch hk⟩, hframe, he.inserted hn hc hnum,
    .inr (he.free hn hc hnum hmax)⟩
  · rw [hnum, hmax]
    exact hn
  · rw [he.first, hmax, prevFirstMsg]
    split <;> omega

theorem ExtendsOn.inserts {h' : MqHdr} {c m : Nat} (he : h.ExtendsOn c m h')
    (hn : h.curNumMsg < h.maxNumMsg) (hc : c ≤ h.curNumMsg)
    (hframe : h' = { h with
      index := h'.index, curFirstMsg := h'.curFirstMsg, curNumMsg := h.curNumMsg + 1 })
    (hp : h.Placed kind) : h.Inserts kind c m h' := by
  have hnum : h'.curNumMsg = h.curNumMsg + 1 := by rw [hframe]
  have hmax : h'.maxNumMsg = h.maxNumMsg := by rw [hframe]
  refine ⟨⟨?_, ?_, fun hk => he.first.trans (hp.plain hk)⟩, hframe, he.inserted hn hc hnum,
    .inl (he.free hn hc hnum hmax)⟩
  · rw [hnum, hmax]
    exact hn
  · rw [he.first, hmax]
    exact hp.first

theorem insertedPtrBegin_eq (hp : h.Placed kind) (hf : h.curFirstMsg < h.maxNumMsg) :
    h.insertedPtrBegin kind = h.slot 0 := by
  rw [slot_zero hf]
  cases kind with
  | circular => rfl
  | plain => exact (hp.plain rfl).symm

theorem insertedPtrEnd_eq (hp : h.Placed kind) (hn : h.curNumMsg < h.maxNumMsg)
    (hf : h.curFirstMsg < h.maxNumMsg) : h.insertedPtrEnd kind = h.slot h.curNumMsg := by
  cases kind with
  | circular => exact endPos_eq (Nat.le_of_lt hf)
  | plain => simp [insertedPtrEnd, slot, hp.plain rfl, hn]

theorem insertAt_plain (hp : h.Placed .plain) (hn : h.curNumMsg < h.maxNumMsg) {c : Nat}
    (hc : c ≤ h.curNumMsg) :
    h.ExtendsOn c (h.insertAt .plain c).1 (h.insertAt .plain c).2 := by
  have hslot : ∀ i < h.maxNumMsg, h.slot i = i := by
    intro i hi
    simp [slot, hp.plain rfl, hi]
  have hm : (h.insertAt .plain c).1 = h.index h.curNumMsg := by
    simp [insertAt, insertedPtrEnd]
  refine ⟨by rw [hm, MqHdr.entry, hslot _ hn], rfl, fun i hi => ?_⟩
  have hslot' : (h.insertAt .plain c).2.slot i = i := hslot i hi
  rw [MqHdr.entry, hslot', insertAt_plain_index hc, hm]
  simp only [MqHdr.entry, hslot i hi, hslot (i - 1) (by omega)]
  split_ifs <;> first | rfl | omega

theorem insertAt_circular (hn : h.curNumMsg < h.maxNumMsg)
    (hf : h.curFirstMsg < h.maxNumMsg) {c : Nat} (hc : c ≤ h.curNumMsg) :
    h.ExtendsBack c (h.insertAt .circular (h.slot c)).1 (h.insertAt .circular (h.slot c)).2 ∨
    h.ExtendsOn c (h.insertAt .circular (h.slot c)).1 (h.insertAt .circular (h.slot c)).2 := by
  have hfirst : h.slot c = h.curFirstMsg ↔ c = 0 := by
    rw [← slot_zero hf, slot_eq_iff (by omega) (by omega)]
  have hlast : h.slot c = h.endPos ↔ c = h.curNumMsg := by
    rw [endPos_eq (Nat.le_of_lt hf), slot_eq_iff (by omega) hn]
  by_cases h0 : c = 0
  · left
    have heq : h.insertAt .circular (h.slot c) = (h.index h.prevFirstMsg,
        { h with curFirstMsg := h.prevFirstMsg, curNumMsg := h.curNumMsg + 1 }) :=
      if_pos (hfirst.mpr h0)
    rw [heq]
    refine ⟨by rw [MqHdr.entry, slot_last hf], rfl, fun i hi => ?_⟩
    have hslot := slot_of_prev (h := h)
      { h with curFirstMsg := h.prevFirstMsg, curNumMsg := h.curNumMsg + 1 } rfl rfl hf hi
    rw [MqHdr.entry, hslot, back, h0, if_neg (Nat.not_lt_zero i)]
    split_ifs <;> rfl
  · by_cases hnum : c = h.curNumMsg
    · right
      have heq : h.insertAt .circular (h.slot c) =
          (h.index h.endPos, { h with curNumMsg := h.curNumMsg + 1 }) :=
        (if_neg (mt hfirst.mp h0)).trans (if_pos (hlast.mpr hnum))
      rw [heq]
      refine ⟨by rw [MqHdr.entry, endPos_eq (Nat.le_of_lt hf)], rfl, fun i hi => ?_⟩
      have hsame : MqHdr.entry { h with curNumMsg := h.curNumMsg + 1 } i = h.entry i := rfl
      rw [hsame, endPos_eq (Nat.le_of_lt hf), ← MqHdr.entry]
      split_ifs with hlt heq hle
      · rfl
      · rw [heq, hnum]
      · omega
      · rfl
    · have heq : h.insertAt .circular (h.slot c) = h.insertBetween (h.slot c) :=
        (if_neg (mt hfirst.mp h0)).trans (if_neg (mt hlast.mp hnum))
      rw [heq, insertBetween]
      by_cases hhalf : (if h.slot c ≥ h.curFirstMsg then h.slot c - h.curFirstMsg
          else h.slot c + (h.maxNumMsg - h.curFirstMsg)) < h.curNumMsg / 2
      · rw [if_pos hhalf]
        exact .inl (moveBack_extends hf hn (Nat.pos_of_ne_zero h0) (by omega))
      · rw [if_neg hhalf]
        exact .inr (moveOn_extends hf hn (Nat.pos_of_ne_zero h0) (by omega))

theorem insertAt_inserts (hp : h.Placed kind) (hn : h.curNumMsg < h.maxNumMsg) {c : Nat}
    (hc : c ≤ h.curNumMsg) :
    h.Inserts kind c (h.insertAt kind (h.slot c)).1 (h.insertAt kind (h.slot c)).2 := by
  have hf := hp.first_lt hn
  cases kind with
  | circular =>
    have hframe : (h.insertAt .circular (h.slot c)).2 = { h with
        index := (h.insertAt .circular (h.slot c)).2.index
        curFirstMsg := (h.insertAt .circular (h.slot c)).2.curFirstMsg
        curNumMsg := h.curNumMsg + 1 } := by
      simp only [insertAt, insertBetween]
      split_ifs <;> rfl
    rcases insertAt_circular hn hf hc with hback | hon
    · exact hback.inserts hn hc hframe hf
    · exact hon.inserts hn hc hframe hp
  | plain =>
    have hslot : h.slot c = c := by
      rw [slot, hp.plain rfl, if_pos (by omega), Nat.zero_add]
    rw [hslot]
    exact (insertAt_plain hp hn hc).inserts hn hc rfl hp

end Sephi.Ipc.MqHdr
