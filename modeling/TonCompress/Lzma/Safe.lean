import TonCompress.Lzma.Transmit
import TonCompress.Lzma.Window

/-! The decoder on any input: its symbols stay inside the probability tables, and
their values inside their ranges. -/
namespace TonCompress.Lzma
open TonCompress.Lib

section bits

theorem decodeBit_yields {cell : ProbCell}
    (h : cell.declared decodeNPosStates decodeNLitPosStates = true) :
    Yields (decodeBit cell) fun _ => True := by
  intro d
  unfold decodeBit
  rw [if_pos h]
  trivial

theorem decodeFlag_yields {row : ProbRow} (hsize : row.size = 1)
    (hrow : row.declared decodeNPosStates decodeNLitPosStates = true) :
    Yields (decodeBit ⟨row, 0⟩) fun _ => True := by
  apply decodeBit_yields
  unfold ProbCell.declared
  rw [Bool.and_eq_true, decide_eq_true_eq]
  exact ⟨hrow, hsize ▸ Nat.one_pos⟩

theorem decodeFixedBit_yields : Yields decodeFixedBit fun _ => True :=
  fun _ => trivial

theorem rangeDecodeIntByFixedProb_yields (bitCount : Nat) :
    Yields (rangeDecodeIntByFixedProb bitCount) fun val => val < 2 ^ bitCount := by
  suffices hloop : ∀ val, Yields (rangeDecodeIntByFixedProbLoop bitCount val) fun val' =>
      val' < (val + 1) * 2 ^ bitCount by
    exact (hloop 0).mono fun val hval => by rwa [Nat.zero_add, Nat.one_mul] at hval
  induction bitCount with
  | zero =>
    intro val
    apply Yields.pure
    rw [pow_zero, Nat.mul_one]
    exact Nat.lt_succ_self val
  | succ bitCount ih =>
    intro val
    apply decodeFixedBit_yields.bind
    intro bit _
    have hbit := Bool.toNat_le bit
    apply (ih _).mono
    intro val' hval'
    rw [shiftLeft_or_bit] at hval'
    calc val' < (2 * val + bit.toNat + 1) * 2 ^ bitCount := hval'
      _ ≤ (2 * (val + 1)) * 2 ^ bitCount := Nat.mul_le_mul_right _ (by omega)
      _ = (val + 1) * 2 ^ (bitCount + 1) := by ring

theorem rangeDecodeIntLoop_yields {probs : ProbRow} {n bitCount treepos : Nat}
    (hrow : probs.declared decodeNPosStates decodeNLitPosStates = true)
    (hsize : 2 ^ n - 1 ≤ probs.size) (hpos : 0 < treepos)
    (htree : (treepos + 1) * 2 ^ bitCount ≤ 2 ^ (n + 1)) :
    Yields (rangeDecodeIntLoop probs bitCount treepos) fun _ => True := by
  induction bitCount generalizing treepos with
  | zero => exact .pure trivial
  | succ bitCount ih =>
    have hhalf : (treepos + 1) * 2 ^ bitCount ≤ 2 ^ n := by
      rw [pow_succ, pow_succ, ← Nat.mul_assoc] at htree
      omega
    apply (decodeBit_yields (declared_tree hrow hsize hpos hhalf)).bind
    intro bit _
    have hnext : (treepos <<< 1) ||| bit.toNat = 2 * treepos + bit.toNat := shiftLeft_or_bit _ _
    apply ih
    · rw [hnext]
      omega
    · rw [hnext]
      exact tree_child bit hhalf

theorem rangeDecodeInt_yields {probs : ProbRow} {bitCount : Nat}
    (hrow : probs.declared decodeNPosStates decodeNLitPosStates = true)
    (hsize : 2 ^ bitCount - 1 ≤ probs.size) :
    Yields (rangeDecodeInt probs bitCount) fun val => val < 2 ^ bitCount := by
  apply (@rangeDecodeIntLoop_yields probs bitCount bitCount 1 hrow hsize Nat.one_pos
    (by rw [pow_succ, Nat.mul_comm])).bind
  intro val _
  apply Yields.pure
  rw [and_mask]
  exact Nat.mod_lt _ (Nat.two_pow_pos _)

theorem rangeDecodeMBLoop_yields {probs : ProbRow} {n matchByte treepos off0 : Nat}
    (hrow : probs.declared decodeNPosStates decodeNLitPosStates = true)
    (hsize : probs.size = 768) (hpos : 0 < treepos)
    (htree : (treepos + 1) * 2 ^ n ≤ 2 ^ 9) (hoff : IsOffset off0) :
    Yields (rangeDecodeMBLoop probs n matchByte treepos off0) fun _ => True := by
  induction n generalizing matchByte treepos off0 with
  | zero => exact .pure trivial
  | succ n ih =>
    have hhalf : (treepos + 1) * 2 ^ n ≤ 2 ^ 8 := by
      rw [pow_succ, ← Nat.mul_assoc] at htree
      omega
    have hoff' := hoff.and (matchByte <<< 1)
    apply (decodeBit_yields (declared_matched hrow hsize hoff' hoff hpos hhalf)).bind
    intro bit _
    have hnext : (treepos <<< 1) ||| bit.toNat = 2 * treepos + bit.toNat := shiftLeft_or_bit _ _
    apply ih
    · rw [hnext]
      omega
    · rw [hnext]
      exact tree_child bit hhalf
    · cases bit
      · exact hoff'.xor hoff
      · exact hoff'

theorem rangeDecodeMB_yields {probs : ProbRow} (matchByte : Nat)
    (hrow : probs.declared decodeNPosStates decodeNLitPosStates = true)
    (hsize : probs.size = 768) : Yields (rangeDecodeMB probs matchByte) fun _ => True := by
  apply (@rangeDecodeMBLoop_yields probs 8 matchByte 1 0x100 hrow hsize Nat.one_pos (by decide)
    (.inr rfl)).bind
  intro val _
  exact .pure trivial

end bits

section symbols

theorem decodeType_yields {state posState : Nat} (hstate : state < nStates)
    (hpos : posState < decodeNPosStates) : Yields (decodeType state posState) fun _ => True := by
  have hplain : decide (state < nStates) = true := decide_eq_true hstate
  have hboth : decide (state < nStates ∧ posState < decodeNPosStates) = true :=
    decide_eq_true ⟨hstate, hpos⟩
  have hleaf : ∀ type : PacketType, Yields (pure type : DecodeM PacketType) fun _ => True :=
    fun type => .pure trivial
  unfold decodeType
  apply (@decodeFlag_yields (.isMatch state posState) rfl hboth).bind
  intro bit _
  cases bit
  · exact hleaf .pktLit
  apply (@decodeFlag_yields (.isRep state) rfl hplain).bind
  intro bit _
  cases bit
  · exact hleaf .pktMatch
  apply (@decodeFlag_yields (.isRep0 state) rfl hplain).bind
  intro bit _
  cases bit
  · apply (@decodeFlag_yields (.isRep0Long state posState) rfl hboth).bind
    intro bit _
    cases bit
    · exact hleaf .pktShortRep
    · exact hleaf .pktRep0
  apply (@decodeFlag_yields (.isRep1 state) rfl hplain).bind
  intro bit _
  cases bit
  · exact hleaf .pktRep1
  apply (@decodeFlag_yields (.isRep2 state) rfl hplain).bind
  intro bit _
  cases bit
  · exact hleaf .pktRep2
  · exact hleaf .pktRep3

theorem decodeLiteral_yields (state matchByte : Nat) {litPosState prevByteLcMsbs : Nat}
    (hlit : litPosState < decodeNLitPosStates) (hprev : prevByteLcMsbs < nPrevByteLcMsbs) :
    Yields (decodeLiteral state litPosState prevByteLcMsbs matchByte) fun _ => True := by
  have hrow : (ProbRow.literal litPosState prevByteLcMsbs).declared decodeNPosStates
      decodeNLitPosStates = true := decide_eq_true ⟨hlit, hprev⟩
  unfold decodeLiteral
  split
  · apply (rangeDecodeInt_yields hrow _).mono
    · intro _ _
      trivial
    · have hsize : (ProbRow.literal litPosState prevByteLcMsbs).size = 768 := rfl
      omega
  · exact rangeDecodeMB_yields matchByte hrow rfl

theorem decodeLen_yields {isRep posState : Nat} (hrep : isRep < 2)
    (hpos : posState < decodeNPosStates) :
    Yields (decodeLen isRep posState) fun len => 2 ≤ len ∧ len ≤ lzLenMax := by
  have hboth : decide (isRep < 2 ∧ posState < decodeNPosStates) = true :=
    decide_eq_true ⟨hrep, hpos⟩
  have hone : decide (isRep < 2) = true := decide_eq_true hrep
  unfold decodeLen
  apply (@decodeFlag_yields (.lenChoice isRep) rfl hone).bind
  intro bit _
  cases bit
  · apply (@rangeDecodeInt_yields (.lenLow isRep posState) 3 hboth (Nat.le_of_eq rfl)).bind
    intro low hlow
    apply Yields.pure
    unfold lzLenMax
    omega
  apply (@decodeFlag_yields (.lenChoice2 isRep) rfl hone).bind
  intro bit _
  cases bit
  · apply (@rangeDecodeInt_yields (.lenMid isRep posState) 3 hboth (Nat.le_of_eq rfl)).bind
    intro mid hmid
    apply Yields.pure
    unfold lzLenMax
    omega
  · apply (@rangeDecodeInt_yields (.lenHigh isRep) 8 hone (Nat.le_of_eq rfl)).bind
    intro high hhigh
    apply Yields.pure
    unfold lzLenMax
    omega

theorem decodeDist_yields {len : Nat} (hlen : 2 ≤ len) :
    Yields (decodeDist len) fun dist => dist < 2 ^ 32 := by
  have hrow : (ProbRow.distSlot (if len > 5 then 3 else len - 2)).declared decodeNPosStates
      decodeNLitPosStates = true := by
    unfold ProbRow.declared
    dsimp only
    rw [decide_eq_true_eq]
    split <;> omega
  unfold decodeDist
  apply (rangeDecodeInt_yields hrow (Nat.le_of_eq rfl)).bind
  intro distSlot hslot
  dsimp only
  have hhalf : distSlot >>> 1 = distSlot / 2 := Nat.shiftRight_one distSlot
  have htop : (2 ||| (distSlot &&& 1)) <<< ((distSlot >>> 1) - 1) < 2 ^ 32 := by
    have hand : distSlot &&& 1 < 2 ^ 2 := Nat.lt_of_le_of_lt Nat.and_le_right (by decide)
    have hor : 2 ||| (distSlot &&& 1) < 2 ^ 2 := Nat.or_lt_two_pow (by decide) hand
    rw [Nat.shiftLeft_eq]
    calc (2 ||| (distSlot &&& 1)) * 2 ^ ((distSlot >>> 1) - 1)
        < 2 ^ 2 * 2 ^ ((distSlot >>> 1) - 1) :=
          Nat.mul_lt_mul_of_pos_right hor (Nat.two_pow_pos _)
      _ ≤ 2 ^ 2 * 2 ^ 30 :=
          Nat.mul_le_mul_left _ (Nat.pow_le_pow_right Nat.two_pos (by omega))
  have hreverse : ∀ low {bitCount}, bitCount ≤ 32 → bitsReverse low bitCount < 2 ^ 32 :=
    fun low _ hle => (bitsReverse_lt low _).trans_le (Nat.pow_le_pow_right Nat.two_pos hle)
  by_cases hlong : distSlot ≥ 14
  · rw [if_pos hlong]
    apply (rangeDecodeIntByFixedProb_yields _).bind
    intro high hhigh
    apply (@rangeDecodeInt_yields .distAlign 4 rfl (Nat.le_of_eq rfl)).bind
    intro low _
    apply Yields.pure
    have hhigh : high <<< 4 < 2 ^ 32 := by
      have hle : 2 ^ ((distSlot >>> 1) - 1 - 4) ≤ 2 ^ 26 :=
        Nat.pow_le_pow_right Nat.two_pos (by omega)
      rw [Nat.shiftLeft_eq]
      omega
    exact Nat.or_lt_two_pow (Nat.or_lt_two_pow htop hhigh) (hreverse low (by decide))
  · rw [if_neg hlong]
    by_cases hshort : distSlot ≥ 4
    · rw [if_pos hshort]
      have hspecial : (ProbRow.distSpecial (distSlot - 4)).declared decodeNPosStates
          decodeNLitPosStates = true := decide_eq_true (by omega)
      have hfew : 2 ^ ((distSlot >>> 1) - 1) - 1 ≤ (ProbRow.distSpecial (distSlot - 4)).size := by
        have hle : 2 ^ ((distSlot >>> 1) - 1) ≤ 2 ^ 5 :=
          Nat.pow_le_pow_right Nat.two_pos (by omega)
        have hcells : (ProbRow.distSpecial (distSlot - 4)).size = 2 ^ 5 - 1 := rfl
        omega
      apply (rangeDecodeInt_yields hspecial hfew).bind
      intro low _
      exact .pure (Nat.or_lt_two_pow htop (hreverse low (by omega)))
    · rw [if_neg hshort]
      apply Yields.pure
      omega

end symbols

end TonCompress.Lzma
