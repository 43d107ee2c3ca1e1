import Mathlib.Algebra.GroupWithZero.Nat
import Mathlib.Data.List.Basic

/-!
How a message queue lies in its shared memory: the control block, the index and the
messages, in the number of bytes that is asked for.
-/

set_option autoImplicit false

namespace Sephi.Ipc

/-- What the compiler and the libraries fix: the sizes and alignments of `mq_hdr_t`, of a
pointer of the index and of `msg_hdr_t`, `get_rounded_size`, and how much of the memory
comes before the control block. -/
structure Abi where
  hdrSize : Nat
  ptrSize : Nat
  msgHdrSize : Nat
  hdrAlign : Nat
  indexAlign : Nat
  msgHdrAlign : Nat
  -- `std::max_align_t`
  maxAlign : Nat
  userOffset : Nat
  roundedSize : Nat → Nat → Nat

def sizeLimit : Nat := 2 ^ 64

namespace Abi

/-- A size is rounded up to a multiple of an alignment, and the size of a type is one of
its own. What comes before the control block is a multiple of every alignment. -/
structure Documented (abi : Abi) : Prop where
  aligns : 0 < abi.msgHdrAlign ∧ 0 < abi.indexAlign ∧ abi.msgHdrAlign ∣ abi.indexAlign
  maxAlign : abi.hdrAlign ∣ abi.maxAlign ∧ abi.indexAlign ∣ abi.maxAlign
  userOffset : abi.maxAlign ∣ abi.userOffset
  msgHdr : abi.msgHdrAlign ∣ abi.msgHdrSize
  rounds : ∀ size align, 0 < align → size + align ≤ sizeLimit →
    size ≤ abi.roundedSize size align ∧ align ∣ abi.roundedSize size align

variable (abi : Abi)

def hdrSpace : Nat := abi.roundedSize abi.hdrSize abi.indexAlign

def indexSpace (maxNumMsg : Nat) : Nat :=
  abi.roundedSize (maxNumMsg * abi.ptrSize % sizeLimit) abi.msgHdrAlign

def messageSpace (maxMsgSize : Nat) : Nat :=
  (abi.roundedSize maxMsgSize abi.msgHdrAlign + abi.msgHdrSize) % sizeLimit

def getMemSize (maxMsgSize maxNumMsg : Nat) : Nat :=
  (abi.hdrSpace + abi.indexSpace maxNumMsg + maxNumMsg * abi.messageSpace maxMsgSize +
    abi.userOffset) % sizeLimit

/-- The loop of `initialize_memory`: where each message begins that the index points to. -/
def messageAddrs (space : Nat) : Nat → Nat → List Nat
  | 0, _ => []
  | n + 1, msgHdr => msgHdr :: messageAddrs space n (msgHdr + space)

def initializeMemory (this maxMsgSize maxNumMsg : Nat) : Nat × List Nat :=
  (this + abi.hdrSpace,
    messageAddrs (abi.messageSpace maxMsgSize) maxNumMsg
      (this + abi.hdrSpace + abi.indexSpace maxNumMsg))

structure NoOverflow (maxMsgSize maxNumMsg : Nat) : Prop where
  hdr : abi.hdrSize + abi.indexAlign ≤ sizeLimit
  index : maxNumMsg * abi.ptrSize + abi.msgHdrAlign ≤ sizeLimit
  size : maxMsgSize + abi.msgHdrAlign ≤ sizeLimit
  message : abi.roundedSize maxMsgSize abi.msgHdrAlign + abi.msgHdrSize < sizeLimit
  total : abi.hdrSpace + abi.indexSpace maxNumMsg + maxNumMsg * abi.messageSpace maxMsgSize +
    abi.userOffset < sizeLimit

def Ends (maxMsgSize addr next : Nat) : Prop := addr + abi.msgHdrSize + maxMsgSize ≤ next

theorem mem_messageAddrs {space n addr a : Nat} (ha : a ∈ messageAddrs space n addr) :
    ∃ i < n, a = addr + i * space := by
  induction n generalizing addr with
  | zero => exact nomatch ha
  | succ n ih =>
    rcases List.mem_cons.mp ha with rfl | hrest
    · exact ⟨0, Nat.succ_pos n, by rw [Nat.zero_mul, Nat.add_zero]⟩
    · obtain ⟨i, hi, rfl⟩ := ih hrest
      exact ⟨i + 1, Nat.succ_lt_succ hi, by rw [Nat.succ_mul]; omega⟩

theorem length_messageAddrs (space n addr : Nat) : (messageAddrs space n addr).length = n := by
  induction n generalizing addr with
  | zero => rfl
  | succ n ih => exact congrArg (· + 1) (ih _)

theorem messageAddrs_pairwise {space maxMsgSize : Nat}
    (hspace : abi.msgHdrSize + maxMsgSize ≤ space) (n addr : Nat) :
    (messageAddrs space n addr).Pairwise (abi.Ends maxMsgSize) := by
  induction n generalizing addr with
  | zero => exact .nil
  | succ n ih =>
    refine .cons (fun b hb => ?_) (ih _)
    obtain ⟨i, _, rfl⟩ := mem_messageAddrs hb
    rw [Ends]
    omega

variable {abi} {maxMsgSize maxNumMsg : Nat}

theorem NoOverflow.indexSpace_ge (hn : abi.NoOverflow maxMsgSize maxNumMsg)
    (ha : abi.Documented) : maxNumMsg * abi.ptrSize ≤ abi.indexSpace maxNumMsg ∧
      abi.msgHdrAlign ∣ abi.indexSpace maxNumMsg := by
  have hindex := hn.index
  have hpos := ha.aligns.1
  have hmod : maxNumMsg * abi.ptrSize % sizeLimit = maxNumMsg * abi.ptrSize :=
    Nat.mod_eq_of_lt (by omega)
  rw [indexSpace, hmod]
  exact ha.rounds _ _ hpos hindex

theorem NoOverflow.messageSpace_ge (hn : abi.NoOverflow maxMsgSize maxNumMsg)
    (ha : abi.Documented) : abi.msgHdrSize + maxMsgSize ≤ abi.messageSpace maxMsgSize ∧
      abi.msgHdrAlign ∣ abi.messageSpace maxMsgSize := by
  obtain ⟨hle, hdvd⟩ := ha.rounds maxMsgSize abi.msgHdrAlign ha.aligns.1 hn.size
  rw [messageSpace, Nat.mod_eq_of_lt hn.message]
  exact ⟨by omega, Nat.dvd_add hdvd ha.msgHdr⟩

/-- In the memory from `base` to `memEnd`: the control block, the index and the messages
with room for their data, one behind the other, each at a multiple of its alignment. -/
structure Fits (abi : Abi) (maxMsgSize maxNumMsg base memEnd index : Nat)
    (messages : List Nat) : Prop where
  block : abi.hdrAlign ∣ base + abi.userOffset ∧ base + abi.userOffset + abi.hdrSize ≤ index
  pointers : abi.indexAlign ∣ index ∧ index + maxNumMsg * abi.ptrSize ≤ memEnd
  count : messages.length = maxNumMsg
  disjoint : messages.Pairwise (abi.Ends maxMsgSize)
  message : ∀ msgHdr ∈ messages, index + maxNumMsg * abi.ptrSize ≤ msgHdr ∧
    abi.msgHdrAlign ∣ msgHdr ∧ abi.Ends maxMsgSize msgHdr memEnd

theorem NoOverflow.getMemSize_eq (hn : abi.NoOverflow maxMsgSize maxNumMsg) :
    abi.getMemSize maxMsgSize maxNumMsg = abi.hdrSpace + abi.indexSpace maxNumMsg +
      maxNumMsg * abi.messageSpace maxMsgSize + abi.userOffset :=
  Nat.mod_eq_of_lt hn.total

/-- As long as the number of bytes does not overflow, the queue fits into the memory that
is asked for, wherever this is mapped. -/
theorem queue_fits_its_memory (abi : Abi) (maxMsgSize maxNumMsg base : Nat)
    (ha : abi.Documented) (hn : abi.NoOverflow maxMsgSize maxNumMsg)
    (hbase : abi.maxAlign ∣ base) :
    let (index, messages) :=
      abi.initializeMemory (base + abi.userOffset) maxMsgSize maxNumMsg
    abi.Fits maxMsgSize maxNumMsg base (base + abi.getMemSize maxMsgSize maxNumMsg) index
      messages := by
  obtain ⟨hindex, hindexAlign⟩ := hn.indexSpace_ge ha
  obtain ⟨hmessage, hmessageAlign⟩ := hn.messageSpace_ge ha
  obtain ⟨hhdr, hhdrAlign⟩ : abi.hdrSize ≤ abi.hdrSpace ∧ abi.indexAlign ∣ abi.hdrSpace :=
    ha.rounds abi.hdrSize abi.indexAlign ha.aligns.2.1 hn.hdr
  have hthis : abi.maxAlign ∣ base + abi.userOffset := Nat.dvd_add hbase ha.userOffset
  have hblock : abi.indexAlign ∣ base + abi.userOffset + abi.hdrSpace :=
    Nat.dvd_add (Nat.dvd_trans ha.maxAlign.2 hthis) hhdrAlign
  refine ⟨⟨Nat.dvd_trans ha.maxAlign.1 hthis, Nat.add_le_add_left hhdr _⟩, ⟨hblock, ?_⟩,
    length_messageAddrs _ _ _, abi.messageAddrs_pairwise hmessage _ _, ?_⟩
  · rw [hn.getMemSize_eq]
    omega
  · intro msgHdr hmem
    obtain ⟨i, hi, rfl⟩ := mem_messageAddrs hmem
    refine ⟨by omega, ?_, ?_⟩
    · have hfirst := Nat.dvd_add (Nat.dvd_trans ha.aligns.2.2 hblock) hindexAlign
      exact Nat.dvd_add hfirst (Nat.dvd_mul_left_of_dvd hmessageAlign i)
    · have hlast : (i + 1) * abi.messageSpace maxMsgSize ≤
          maxNumMsg * abi.messageSpace maxMsgSize := Nat.mul_le_mul_right _ hi
      rw [Nat.succ_mul] at hlast
      rw [Ends, hn.getMemSize_eq]
      omega

def amd64 : Abi where
  hdrSize := 192
  ptrSize := 8
  msgHdrSize := 16
  hdrAlign := 8
  indexAlign := 8
  msgHdrAlign := 8
  maxAlign := 16
  userOffset := 16
  roundedSize size align := (size + align - 1) / align * align

theorem amd64_documented : amd64.Documented where
  aligns := by decide
  maxAlign := by decide
  userOffset := by decide
  msgHdr := by decide
  rounds := by
    intro size align hpos _
    have hdiv := Nat.div_add_mod (size + align - 1) align
    have hmod := Nat.mod_lt (size + align - 1) hpos
    refine ⟨?_, Nat.dvd_mul_left _ _⟩
    have hle : size ≤ align * ((size + align - 1) / align) := by omega
    exact Nat.le_trans hle (Nat.le_of_eq (Nat.mul_comm _ _))

theorem queue_fits_its_memory_amd64 :
    amd64.getMemSize 5 3 = 16 + 192 + 24 + 3 * 24 ∧
      amd64.initializeMemory 4112 5 3 = (4304, [4328, 4352, 4376]) ∧
      amd64.Fits 5 3 4096 (4096 + 304) 4304 [4328, 4352, 4376] :=
  ⟨by decide, by decide, queue_fits_its_memory amd64 5 3 4096 amd64_documented
    ⟨by decide, by decide, by decide, by decide, by decide⟩ (by decide)⟩

end Abi

end Sephi.Ipc
