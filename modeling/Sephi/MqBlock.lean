import Sephi.MqService

set_option autoImplicit false

namespace Sephi.Ipc
open Transition Waiting PriorityQueue Ranges

variable {kind : IndexKind}

namespace MqHdr

variable {h : MqHdr}

theorem moveBack_within (hf : h.curFirstMsg < h.maxNumMsg) {place : Nat}
    (hp : place < h.maxNumMsg) : Within h.maxNumMsg h.index (h.moveBack place).2.index := by
  have hmax : 0 < h.maxNumMsg := Nat.zero_lt_of_lt hf
  simp only [moveBack]
  refine .update (.copy ?_ (Nat.sub_le _ 1) ?_) ?_ _
  · have hsecond (first : Nat) (hle : first ≤ h.maxNumMsg) :
        Within h.maxNumMsg h.index (copy h.index first h.maxNumMsg (first - 1)) :=
      .copy (.refl _ _) (Nat.sub_le _ 1) (by omega)
    split_ifs
    all_goals first
      | exact .refl _ _
      | exact (hsecond _ (by omega)).update (Nat.sub_lt hmax Nat.one_pos) _
  · split_ifs <;> omega
  · split_ifs <;> omega

theorem moveOn_within (hf : h.curFirstMsg < h.maxNumMsg) (he : h.endPos < h.maxNumMsg)
    {place : Nat} (hp : place < h.maxNumMsg) :
    Within h.maxNumMsg h.index (h.moveOn place).2.index := by
  have hmax : 0 < h.maxNumMsg := Nat.zero_lt_of_lt hf
  simp only [moveOn]
  refine .update (.copyBackward ?_ (Nat.le_succ _) ?_) hp _
  · split_ifs
    · exact .refl _ _
    · exact .update (.copyBackward (.refl _ _) (Nat.le_succ _) he) hmax _
  · split_ifs <;> omega

theorem insertAt_within (hp : h.Placed kind) (hn : h.curNumMsg < h.maxNumMsg) {c : Nat}
    (hc : c ≤ h.curNumMsg) :
    Within h.maxNumMsg h.index (h.insertAt kind (h.slot c)).2.index := by
  have hf := hp.first_lt hn
  have hplace := slot_lt hf (Nat.lt_of_le_of_lt hc hn)
  cases kind with
  | circular =>
    have hend : h.endPos < h.maxNumMsg := endPos_eq (Nat.le_of_lt hf) ▸ slot_lt hf hn
    simp only [insertAt, insertBetween]
    split_ifs
    · exact .refl _ _
    · exact .refl _ _
    · exact moveBack_within hf hplace
    · exact moveOn_within hf hend hplace
    · exact moveBack_within hf hplace
    · exact moveOn_within hf hend hplace
  | plain => exact .update (.copyBackward (.refl _ _) (Nat.le_succ _) hn) hplace _

theorem Sound.perm_range (hs : h.Sound kind) :
    (h.inserted ++ h.free).Perm (List.range h.maxNumMsg) := by
  have hsub : h.inserted ++ h.free ⊆ List.range h.maxNumMsg := fun p hp =>
    List.mem_range.mpr (hs.exist p hp)
  refine (List.subperm_of_subset hs.distinct hsub).perm_of_length_le ?_
  have hnum := hs.placed.num
  simp only [List.length_range, List.length_append, inserted, free, List.length_map]
  omega

theorem lowerBound_inside (hp : h.Placed kind) (hn : h.curNumMsg < h.maxNumMsg)
    (ho : h.Ordered) {priority : UInt32} (h0 : h.curNumMsg ≠ 0)
    (hbottom : priority > (h.messages (h.bottomMsg kind)).priority)
    (htop : ¬ priority > (h.messages (h.topMsg kind)).priority) :
    h.lowerBound kind priority ≠ h.insertedPtrBegin kind ∧
      h.lowerBound kind priority ≠ h.insertedPtrEnd kind := by
  have hnum : 0 < h.curNumMsg := Nat.pos_of_ne_zero h0
  rw [bottomMsg_eq hp hnum] at hbottom
  rw [topMsg_eq hp hnum] at htop
  obtain ⟨c, hd⟩ := ho.divides priority
  have hpos : c ≠ 0 := by
    rintro rfl
    exact UInt32.not_lt.mpr (hd.above 0 (Nat.le_refl 0) hnum) hbottom
  have hlt : c < h.curNumMsg := by
    by_contra hle
    exact htop (hd.below _ (by omega))
  have hf := hp.first_lt hn
  have hcm := Nat.lt_trans hlt hn
  rw [lowerBound_eq_slot hp hn hd hlt, insertedPtrBegin_eq hp hf, insertedPtrEnd_eq hp hn hf]
  exact ⟨fun heq => hpos (slot_inj hcm (Nat.zero_lt_of_lt hcm) heq),
    fun heq => Nat.ne_of_lt hlt (slot_inj hcm hn heq)⟩

/-- What lies behind the index and behind the messages is left alone. -/
structure Confined (h h' : MqHdr) : Prop where
  sizes : h'.maxNumMsg = h.maxNumMsg ∧ h'.maxMsgSize = h.maxMsgSize
  index : Within h.maxNumMsg h.index h'.index
  messages : Within h.maxNumMsg h.messages h'.messages

theorem Confined.refl (h : MqHdr) : h.Confined h := ⟨⟨rfl, rfl⟩, .refl _ _, .refl _ _⟩

theorem Confined.trans {h' h'' : MqHdr} (ha : h.Confined h') (hb : h'.Confined h'') :
    h.Confined h'' :=
  ⟨⟨hb.sizes.1.trans ha.sizes.1, hb.sizes.2.trans ha.sizes.2⟩,
    ha.index.trans (ha.sizes.1 ▸ hb.index), ha.messages.trans (ha.sizes.1 ▸ hb.messages)⟩

theorem Sound.put_confined (hs : h.Sound kind) (hn : h.curNumMsg < h.maxNumMsg) (m : Message) :
    h.Confined (h.put kind m) := by
  obtain ⟨hmax, hsize, _, _, _⟩ := h.put_frame kind m
  obtain ⟨c, hd, heq⟩ := queueFreeMsg_place kind hs.placed hn hs.priorities m.priority
  have hindex := insertAt_within hs.placed hn hd.le
  obtain ⟨c', p, h', _, hi, hput⟩ := hs.put_spec hn m
  have hp : p < h.maxNumMsg := hs.exist p (List.mem_append_right _ hi.mem_free)
  refine ⟨⟨hmax, hsize⟩, ?_, ?_⟩
  · rw [← heq] at hindex
    exact hindex
  · rw [hput]
    exact Within.update (.refl _ _) hp _

theorem Sound.take_confined (hs : h.Sound kind) (hn : 0 < h.curNumMsg) :
    h.Confined (h.take kind).2 := by
  have htop : h.topMsg kind ∈ h.inserted := by
    rw [(take_split hs.placed hn).1]
    exact List.mem_append_right _ (List.mem_singleton_self _)
  have hp := hs.exist _ (List.mem_append_left _ htop)
  exact ⟨⟨rfl, rfl⟩, .refl _ _, Within.update (.refl _ _) hp _⟩

end MqHdr

namespace MessageQueue

variable {τ : Type} [DecidableEq τ] {s t : MessageQueue τ}

theorem Serving.move_confined {e : MqEvent τ} (hs : s.Serving kind) (h : Move kind s e t) :
    s.hdr.Confined t.hdr := by
  have hput (s' : MessageQueue τ) (call : SendCall τ) (hs' : s'.hdr.Sound kind)
      (hn : s'.hdr.curNumMsg ≠ s'.hdr.maxNumMsg) :
      s'.hdr.Confined (s'.putMessage kind call).hdr := by
    have hconfined := hs'.put_confined (Nat.lt_of_le_of_ne hs'.placed.num hn) call.message
    simp only [putMessage]
    split_ifs <;> exact hconfined
  have htake (s' : MessageQueue τ) (call : ReceiveCall τ) (hs' : s'.hdr.Sound kind)
      (hn : s'.hdr.curNumMsg ≠ 0) : s'.hdr.Confined (s'.takeMessage kind call).hdr := by
    have hconfined := hs'.take_confined (Nat.pos_of_ne_zero hn)
    simp only [takeMessage]
    split_ifs <;> exact hconfined
  have hcounts (senders receivers : Nat) : s.hdr.Confined
      { s.hdr with blockedSenders := senders, blockedReceivers := receivers } :=
    ⟨⟨rfl, rfl⟩, .refl _ _, .refl _ _⟩
  cases h with
  | sendRefused | receiveRefused => exact .refl _
  | sendBlocks | receiveBlocks => exact hcounts _ _
  | wakeSender | wakeReceiver => exact .refl _
  | sendTimesOut | receiveTimesOut => exact hcounts _ _
  | sendBlocksAgain | receiveBlocksAgain => exact .refl _
  | notifySender | notifyReceiver => exact .refl _
  | sendPuts call hfits hroom => exact hput s call hs.hdr hroom
  | receiveTakes call henough hsome => exact htake s call hs.hdr hsome
  | sendPutsAgain call timedOut hc hroom =>
    exact (hcounts _ _).trans (hput ((s.resumeSender call).unblockSender kind) call
      (hs.hdr.counts _ _) hroom)
  | receiveTakesAgain call timedOut hc hsome =>
    exact (hcounts _ _).trans (htake ((s.resumeReceiver call).unblockReceiver kind) call
      (hs.hdr.counts _ _) hsome)

variable {maxNumMsg maxMsgSize : Nat}

theorem confined_of_reachable (h : (machine kind maxNumMsg maxMsgSize τ).Reachable s) :
    (MqHdr.make maxNumMsg maxMsgSize).Confined s.hdr := by
  obtain ⟨es, hrun⟩ := h
  refine Machine.run_induction (m := machine kind maxNumMsg maxMsgSize τ)
    (motive := fun _ s => (MqHdr.make maxNumMsg maxMsgSize).Confined s.hdr) (.refl _) ?_ hrun
  intro es s e t hrun hs ht
  exact hs.trans ((serving_of_reachable ⟨es, hrun⟩).move_confined (step_move ht))

/-- In every state of a queue each of the preallocated messages is pointed to once, whether
inserted or free, none is longer than the size that all have room for, and nothing was
written behind the index or behind the messages. -/
theorem queue_stays_in_its_block (kind : IndexKind) (maxNumMsg maxMsgSize : Nat) (τ : Type)
    [DecidableEq τ] (s : MessageQueue τ)
    (h : (machine kind maxNumMsg maxMsgSize τ).Reachable s) :
    (s.hdr.inserted ++ s.hdr.free).Perm (List.range maxNumMsg) ∧
    (∀ p < maxNumMsg, (s.hdr.messages p).len ≤ maxMsgSize ∧
      (s.hdr.messages p).data.length = maxMsgSize) ∧
    ∀ k ≥ maxNumMsg, s.hdr.index k = (MqHdr.make maxNumMsg maxMsgSize).index k ∧
      s.hdr.messages k = (MqHdr.make maxNumMsg maxMsgSize).messages k := by
  have hs := (serving_of_reachable h).hdr
  have hconfined := confined_of_reachable h
  obtain ⟨hmax, hsize⟩ := hconfined.sizes
  have hmax : s.hdr.maxNumMsg = maxNumMsg := hmax
  have hsize : s.hdr.maxMsgSize = maxMsgSize := hsize
  have hperm := hs.perm_range
  rw [hmax] at hperm
  refine ⟨hperm, fun p hp => ⟨?_, ?_⟩, fun k hk => ⟨hconfined.index k hk, hconfined.messages k hk⟩⟩
  · rcases List.mem_append.mp (hperm.mem_iff.mpr (List.mem_range.mpr hp)) with hin | hfree
    · exact hsize ▸ hs.len p hin
    · rw [(hs.clean p hfree).2]
      exact Nat.zero_le _
  · exact hsize ▸ hs.data p (hmax.symm ▸ hp)

def aroundTheEnd : List (MqEvent Nat) :=
  [.send ⟨1, .blocking, ⟨5, [1]⟩⟩, .send ⟨1, .blocking, ⟨1, [2]⟩⟩, .send ⟨1, .blocking, ⟨3, [3]⟩⟩]

theorem queue_stays_in_its_block_aroundTheEnd :
    ∃ s, (machine .circular 4 1 Nat).run aroundTheEnd = some s ∧ s.hdr.curFirstMsg = 2 ∧
      s.hdr.inserted = [2, 0, 3] ∧ s.hdr.free = [1] ∧
      (s.hdr.inserted ++ s.hdr.free).Perm (List.range 4) :=
  ⟨_, rfl, rfl, rfl, rfl,
    (queue_stays_in_its_block .circular 4 1 Nat _ ⟨aroundTheEnd, rfl⟩).1⟩

/-- The assertions of `do_send` on the free message, and of `lower_bound` on what it finds,
hold for each priority that a message can be sent with. -/
theorem assertions_hold (kind : IndexKind) (maxNumMsg maxMsgSize : Nat) (τ : Type)
    [DecidableEq τ] (s : MessageQueue τ) (priority : UInt32)
    (h : (machine kind maxNumMsg maxMsgSize τ).Reachable s) (hroom : s.hdr.isFull = false) :
    (s.hdr.messages (s.hdr.queueFreeMsg kind priority).1).priority = 0 ∧
    (s.hdr.messages (s.hdr.queueFreeMsg kind priority).1).len = 0 ∧
    (s.hdr.curNumMsg ≠ 0 → priority > (s.hdr.messages (s.hdr.bottomMsg kind)).priority →
      ¬ priority > (s.hdr.messages (s.hdr.topMsg kind)).priority →
      s.hdr.lowerBound kind priority ≠ s.hdr.insertedPtrBegin kind ∧
        s.hdr.lowerBound kind priority ≠ s.hdr.insertedPtrEnd kind) := by
  have hs := (serving_of_reachable h).hdr
  have hne : s.hdr.curNumMsg ≠ s.hdr.maxNumMsg := beq_eq_false_iff_ne.mp hroom
  have hn := Nat.lt_of_le_of_ne hs.placed.num hne
  obtain ⟨c, _, hi⟩ := MqHdr.queueFreeMsg_inserts kind hs.placed hn hs.priorities priority
  have hclean := hs.clean _ hi.mem_free
  exact ⟨hclean.1, hclean.2, MqHdr.lowerBound_inside hs.placed hn hs.priorities⟩

theorem assertions_hold_aroundTheEnd :
    ∃ s, (machine .circular 4 1 Nat).run aroundTheEnd = some s ∧
      (s.hdr.queueFreeMsg .circular 2).1 = 1 ∧
      (s.hdr.messages (s.hdr.queueFreeMsg .circular 2).1).len = 0 := by
  refine ⟨_, rfl, rfl, (assertions_hold .circular 4 1 Nat _ 2 ?_ ?_).2.1⟩
  · exact ⟨aroundTheEnd, rfl⟩
  · rfl

end MessageQueue

end Sephi.Ipc
