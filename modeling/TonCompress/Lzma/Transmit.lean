import TonCompress.Lzma.Decode
import TonCompress.Lzma.Lockstep
import TonCompress.Lib.Bits

/-! What the encoder codes, the decoder decodes: bits, bit trees, literals,
lengths, distances and packet types. -/
namespace TonCompress.Lzma
open TonCompress.Lib

/-- The encoder's tables are part of the decoder's. -/
theorem ProbCell.declared_mono {cell : ProbCell}
    (h : cell.declared encodeNPosStates encodeNLitPosStates = true) :
    cell.declared decodeNPosStates decodeNLitPosStates = true := by
  have hrow : ∀ row : ProbRow, row.declared encodeNPosStates encodeNLitPosStates = true →
      row.declared decodeNPosStates decodeNLitPosStates = true := by
    have hpos : encodeNPosStates = 1 := rfl
    have hpos' : decodeNPosStates = 16 := rfl
    have hlit : encodeNLitPosStates = 1 := rfl
    have hlit' : decodeNLitPosStates = 16 := rfl
    intro row hdeclared
    rw [hpos, hlit] at hdeclared
    rw [hpos', hlit']
    cases row <;> simp only [ProbRow.declared, decide_eq_true_eq] at hdeclared ⊢ <;> omega
  unfold ProbCell.declared at h ⊢
  rw [Bool.and_eq_true] at h ⊢
  exact ⟨hrow _ h.1, h.2⟩

variable {dstLen : Nat}

/-- Transmission from the encoder to the decoder. -/
abbrev Sends {α : Type} (dstLen : Nat) (send : EncodeM Unit) (receive : DecodeM α) (value : α) :
    Prop :=
  Transmits (rangeChannel ProbCell dstLen) send receive value

section bits

theorem sends_bit {cell : ProbCell} (bit : Bool)
    (h : cell.declared encodeNPosStates encodeNLitPosStates = true) :
    Sends dstLen (encodeBit cell bit) (decodeBit cell) bit := by
  intro e he
  obtain ⟨hsound, hback⟩ := Encoder.bit_step he cell bit
  refine ⟨e.bit cell bit, if_pos h, hsound, ?_⟩
  intro out hleads
  obtain ⟨hleads', hdecode⟩ := hback out hleads
  refine ⟨hleads', ?_⟩
  intro d hd
  obtain ⟨d', hrun, hsynced⟩ := hdecode d hd
  refine ⟨d', ?_, hsynced⟩
  rw [← hrun]
  exact if_pos (ProbCell.declared_mono h)

theorem sends_fixedBit (bit : Bool) : Sends dstLen (encodeFixedBit bit) decodeFixedBit bit := by
  intro e he
  obtain ⟨hsound, hback⟩ := Encoder.fixedBit_step he bit
  refine ⟨e.fixedBit bit, rfl, hsound, ?_⟩
  intro out hleads
  obtain ⟨hleads', hdecode⟩ := hback out hleads
  refine ⟨hleads', ?_⟩
  intro d hd
  obtain ⟨d', hrun, hsynced⟩ := hdecode d hd
  refine ⟨d', ?_, hsynced⟩
  rw [← hrun]
  rfl

theorem mod_two_pow_succ (val n : Nat) :
    val % 2 ^ (n + 1) = (val.testBit n).toNat * 2 ^ n + val % 2 ^ n := by
  rw [Nat.mod_pow_succ, Nat.testBit_eq_decide_div_mod_eq, Nat.add_comm, Nat.mul_comm]
  rcases Nat.mod_two_eq_zero_or_one (val / 2 ^ n) with h | h <;> simp [h]

theorem shiftLeft_or_bit (val : Nat) (bit : Bool) :
    (val <<< 1) ||| bit.toNat = 2 * val + bit.toNat := by
  rw [Nat.shiftLeft_eq, pow_one, Nat.mul_comm]
  exact double_or_bit _ (Nat.lt_succ_of_le (Bool.toNat_le bit))

theorem sends_intByFixedProb (val bitCount : Nat) :
    Sends dstLen (rangeEncodeIntByFixedProb val bitCount) (rangeDecodeIntByFixedProb bitCount)
      (val % 2 ^ bitCount) := by
  suffices hloop : ∀ high, Sends dstLen (rangeEncodeIntByFixedProb val bitCount)
      (rangeDecodeIntByFixedProbLoop bitCount high) (high * 2 ^ bitCount + val % 2 ^ bitCount) by
    have hzero := hloop 0
    rwa [Nat.zero_mul, Nat.zero_add] at hzero
  induction bitCount with
  | zero =>
    intro high
    have hvalue : high * 2 ^ 0 + val % 2 ^ 0 = high := by
      rw [pow_zero, Nat.mul_one, Nat.mod_one, Nat.add_zero]
    rw [hvalue]
    exact .pure high
  | succ bitCount ih =>
    intro high
    have hvalue : high * 2 ^ (bitCount + 1) + val % 2 ^ (bitCount + 1) =
        ((high <<< 1) ||| (val.testBit bitCount).toNat) * 2 ^ bitCount + val % 2 ^ bitCount := by
      rw [shiftLeft_or_bit, mod_two_pow_succ, pow_succ]
      ring
    rw [hvalue]
    exact (sends_fixedBit _).bind (ih _)

end bits

section trees

theorem tree_child {treepos n m : Nat} (bit : Bool) (h : (treepos + 1) * 2 ^ n ≤ 2 ^ m) :
    (2 * treepos + bit.toNat + 1) * 2 ^ n ≤ 2 ^ (m + 1) := by
  have hbit := Bool.toNat_le bit
  calc (2 * treepos + bit.toNat + 1) * 2 ^ n
      ≤ (2 * (treepos + 1)) * 2 ^ n := Nat.mul_le_mul_right _ (by omega)
    _ = (treepos + 1) * 2 ^ n * 2 := by ring
    _ ≤ 2 ^ m * 2 := Nat.mul_le_mul_right _ h
    _ = 2 ^ (m + 1) := (pow_succ 2 m).symm

theorem declared_tree {nPosStates nLitPosStates : Nat} {probs : ProbRow} {treepos bitCount n : Nat}
    (hrow : probs.declared nPosStates nLitPosStates = true)
    (hsize : 2 ^ n - 1 ≤ probs.size) (hpos : 0 < treepos)
    (htree : (treepos + 1) * 2 ^ bitCount ≤ 2 ^ n) :
    (ProbCell.mk probs (treepos - 1)).declared nPosStates nLitPosStates = true := by
  unfold ProbCell.declared
  rw [Bool.and_eq_true, decide_eq_true_eq]
  refine ⟨hrow, ?_⟩
  have hle : treepos + 1 ≤ (treepos + 1) * 2 ^ bitCount :=
    Nat.le_mul_of_pos_right _ (Nat.two_pow_pos _)
  dsimp only
  omega

theorem sends_intLoop {probs : ProbRow} (val : Nat) {n bitCount : Nat} {treepos : Nat}
    (hrow : probs.declared encodeNPosStates encodeNLitPosStates = true)
    (hsize : 2 ^ n - 1 ≤ probs.size) (hpos : 0 < treepos)
    (htree : (treepos + 1) * 2 ^ bitCount ≤ 2 ^ (n + 1)) :
    Sends dstLen (rangeEncodeIntLoop probs val bitCount treepos)
      (rangeDecodeIntLoop probs bitCount treepos) (treepos * 2 ^ bitCount + val % 2 ^ bitCount) := by
  induction bitCount generalizing treepos with
  | zero =>
    have hvalue : treepos * 2 ^ 0 + val % 2 ^ 0 = treepos := by
      rw [pow_zero, Nat.mul_one, Nat.mod_one, Nat.add_zero]
    rw [hvalue]
    exact .pure treepos
  | succ bitCount ih =>
    have hnext : (treepos <<< 1) ||| (val.testBit bitCount).toNat =
        2 * treepos + (val.testBit bitCount).toNat := shiftLeft_or_bit _ _
    have hvalue : treepos * 2 ^ (bitCount + 1) + val % 2 ^ (bitCount + 1) =
        ((treepos <<< 1) ||| (val.testBit bitCount).toNat) * 2 ^ bitCount + val % 2 ^ bitCount := by
      rw [hnext, mod_two_pow_succ, pow_succ]
      ring
    have hhalf : (treepos + 1) * 2 ^ bitCount ≤ 2 ^ n := by
      rw [pow_succ, pow_succ, ← Nat.mul_assoc] at htree
      omega
    rw [hvalue]
    refine (sends_bit _ (declared_tree hrow hsize hpos hhalf)).bind (ih ?_ ?_)
    · rw [hnext]
      omega
    · rw [hnext]
      exact tree_child _ hhalf

theorem sends_int {probs : ProbRow} {val bitCount : Nat}
    (hrow : probs.declared encodeNPosStates encodeNLitPosStates = true)
    (hsize : 2 ^ bitCount - 1 ≤ probs.size) (hval : val < 2 ^ bitCount) :
    Sends dstLen (rangeEncodeInt probs val bitCount) (rangeDecodeInt probs bitCount) val := by
  have hloop := @sends_intLoop dstLen probs val bitCount bitCount 1 hrow hsize Nat.one_pos
    (by rw [pow_succ, Nat.mul_comm])
  have hmask : (1 * 2 ^ bitCount + val % 2 ^ bitCount) &&& ((1 <<< bitCount) - 1) = val := by
    rw [Nat.shiftLeft_eq, Nat.one_mul, Nat.and_two_pow_sub_one_eq_mod, Nat.add_mod_left,
      Nat.mod_mod, Nat.mod_eq_of_lt hval]
  exact hloop.finish (congrArg Pure.pure hmask)

def IsOffset (off : Nat) : Prop := off = 0 ∨ off = 0x100

theorem IsOffset.and {off : Nat} (h : IsOffset off) (mask : Nat) : IsOffset (off &&& mask) := by
  obtain rfl | rfl := h
  · exact .inl (Nat.zero_and mask)
  · have hbit : 0x100 &&& mask = (mask.testBit 8).toNat * 2 ^ 8 := by
      rw [Nat.and_comm]
      exact Nat.and_two_pow mask 8
    rw [hbit]
    cases mask.testBit 8
    · exact .inl rfl
    · exact .inr rfl

theorem IsOffset.xor {off off' : Nat} (h : IsOffset off) (h' : IsOffset off') :
    IsOffset (off ^^^ off') := by
  obtain rfl | rfl := h <;> obtain rfl | rfl := h'
  · exact .inl rfl
  · exact .inr rfl
  · exact .inr rfl
  · exact .inl rfl

theorem declared_matched {nPosStates nLitPosStates : Nat} {probs : ProbRow}
    {off0 off1 treepos n : Nat} (hrow : probs.declared nPosStates nLitPosStates = true)
    (hsize : probs.size = 768) (hoff0 : IsOffset off0) (hoff1 : IsOffset off1) (hpos : 0 < treepos)
    (htree : (treepos + 1) * 2 ^ n ≤ 2 ^ 8) :
    (ProbCell.mk probs (off0 + off1 + treepos - 1)).declared nPosStates nLitPosStates = true := by
  have hle : treepos + 1 ≤ (treepos + 1) * 2 ^ n :=
    Nat.le_mul_of_pos_right _ (Nat.two_pow_pos _)
  unfold ProbCell.declared
  rw [Bool.and_eq_true, decide_eq_true_eq, hsize]
  refine ⟨hrow, ?_⟩
  dsimp only
  unfold IsOffset at hoff0 hoff1
  omega

theorem byte_top_bits (byte : Nat) {n : Nat} (hn : n < 8) :
    byte % 256 / 2 ^ (8 - (n + 1)) =
      (byte.testBit 7).toNat * 2 ^ n + (byte <<< 1) % 256 / 2 ^ (8 - n) := by
  have htop : byte % 256 = (byte.testBit 7).toNat * 128 + byte % 128 := mod_two_pow_succ byte 7
  have hshift : (byte <<< 1) % 256 = 2 * (byte % 128) := by
    rw [Nat.shiftLeft_eq]
    omega
  have hsplit : 128 = 2 ^ n * 2 ^ (8 - (n + 1)) := by
    rw [← pow_add, show n + (8 - (n + 1)) = 7 by omega]
    rfl
  have hhalf : 2 ^ (8 - n) = 2 * 2 ^ (8 - (n + 1)) := by
    rw [← pow_succ', show 8 - (n + 1) + 1 = 8 - n by omega]
  rw [htop, hshift, hhalf, Nat.mul_div_mul_left _ _ Nat.two_pos]
  conv_lhs => rw [hsplit, ← Nat.mul_assoc, Nat.add_comm]
  rw [Nat.add_mul_div_right _ _ (Nat.two_pow_pos _), Nat.add_comm, ← hsplit]

theorem sends_MBLoop {probs : ProbRow} {n byte matchByte treepos off0 : Nat}
    (hrow : probs.declared encodeNPosStates encodeNLitPosStates = true)
    (hsize : probs.size = 768) (hn : n ≤ 8) (hpos : 0 < treepos)
    (htree : (treepos + 1) * 2 ^ n ≤ 2 ^ 9) (hoff : IsOffset off0) :
    Sends dstLen (rangeEncodeMBLoop probs n byte matchByte treepos off0)
      (rangeDecodeMBLoop probs n matchByte treepos off0)
      (treepos * 2 ^ n + byte % 256 / 2 ^ (8 - n)) := by
  induction n generalizing byte matchByte treepos off0 with
  | zero =>
    have hvalue : treepos * 2 ^ 0 + byte % 256 / 2 ^ (8 - 0) = treepos := by
      have hlt : byte % 256 < 2 ^ (8 - 0) := Nat.mod_lt _ (by decide)
      rw [Nat.div_eq_of_lt hlt, pow_zero, Nat.mul_one, Nat.add_zero]
    rw [hvalue]
    exact .pure treepos
  | succ n ih =>
    have hnext : (treepos <<< 1) ||| (byte.testBit 7).toNat =
        2 * treepos + (byte.testBit 7).toNat := shiftLeft_or_bit _ _
    have hvalue : treepos * 2 ^ (n + 1) + byte % 256 / 2 ^ (8 - (n + 1)) =
        ((treepos <<< 1) ||| (byte.testBit 7).toNat) * 2 ^ n +
          (byte <<< 1) % 256 / 2 ^ (8 - n) := by
      rw [hnext, byte_top_bits byte (by omega), pow_succ]
      ring
    have hhalf : (treepos + 1) * 2 ^ n ≤ 2 ^ 8 := by
      rw [pow_succ, ← Nat.mul_assoc] at htree
      omega
    have hoff' := hoff.and (matchByte <<< 1)
    rw [hvalue]
    refine (sends_bit _ (declared_matched hrow hsize hoff' hoff hpos hhalf)).bind (ih (by omega) ?_ ?_ ?_)
    · rw [hnext]
      omega
    · rw [hnext]
      exact tree_child _ hhalf
    · cases byte.testBit 7
      · exact hoff'.xor hoff
      · exact hoff'

theorem sends_MB {probs : ProbRow} {byte : Nat} (matchByte : Nat)
    (hrow : probs.declared encodeNPosStates encodeNLitPosStates = true)
    (hsize : probs.size = 768) (hbyte : byte < 256) :
    Sends dstLen (rangeEncodeMB probs byte matchByte) (rangeDecodeMB probs matchByte) byte := by
  have hloop := @sends_MBLoop dstLen probs 8 byte matchByte 1 0x100 hrow hsize le_rfl Nat.one_pos
    (by decide) (.inr rfl)
  have hmask : (1 * 2 ^ 8 + byte % 256 / 2 ^ (8 - 8)) &&& 0xFF = byte := by
    rw [Nat.sub_self, pow_zero, Nat.div_one, Nat.mod_eq_of_lt hbyte]
    change _ &&& (2 ^ 8 - 1) = _
    rw [Nat.and_two_pow_sub_one_eq_mod]
    omega
  exact hloop.finish (congrArg Pure.pure hmask)

end trees

section reversed

theorem bitsReverseLoop_testBit (bitCount bits revbits i : Nat) :
    (bitsReverseLoop bitCount bits revbits).testBit i =
      if i < bitCount then bits.testBit (bitCount - 1 - i) else revbits.testBit (i - bitCount) := by
  induction bitCount generalizing bits revbits with
  | zero => rfl
  | succ bitCount ih =>
    rw [bitsReverseLoop, ih]
    by_cases hlt : i < bitCount
    · rw [if_pos hlt, if_pos (Nat.lt_succ_of_lt hlt), Nat.testBit_shiftRight]
      congr 1
      omega
    · rw [if_neg hlt, Nat.testBit_or, Nat.testBit_shiftLeft, Nat.testBit_and]
      by_cases heq : i = bitCount
      · rw [if_pos (by omega), heq, Nat.sub_self, Nat.add_sub_cancel, Nat.sub_self]
        simp
      · have hone : Nat.testBit 1 (i - bitCount) = false := by
          rw [Bool.eq_false_iff]
          intro htrue
          have hzero := Nat.testBit_one_eq_true_iff_self_eq_zero.mp htrue
          omega
        rw [if_neg (by omega), hone, Bool.and_false, Bool.or_false, decide_eq_true (by omega),
          Bool.true_and, Nat.sub_sub]

theorem bitsReverse_testBit (bits bitCount i : Nat) :
    (bitsReverse bits bitCount).testBit i =
      (decide (i < bitCount) && bits.testBit (bitCount - 1 - i)) := by
  rw [bitsReverse, bitsReverseLoop_testBit]
  by_cases h : i < bitCount
  · rw [if_pos h, decide_eq_true h, Bool.true_and]
  · rw [if_neg h, decide_eq_false h, Bool.false_and, Nat.zero_testBit]

theorem bitsReverse_lt (bits bitCount : Nat) : bitsReverse bits bitCount < 2 ^ bitCount := by
  apply Nat.lt_pow_two_of_testBit
  intro i hi
  rw [bitsReverse_testBit, decide_eq_false (by omega), Bool.false_and]

theorem bitsReverse_bitsReverse {bits bitCount : Nat} (h : bits < 2 ^ bitCount) :
    bitsReverse (bitsReverse bits bitCount) bitCount = bits := by
  apply Nat.eq_of_testBit_eq
  intro i
  rw [bitsReverse_testBit, bitsReverse_testBit]
  by_cases hi : i < bitCount
  · rw [decide_eq_true hi, decide_eq_true (by omega), Bool.true_and, Bool.true_and]
    congr 1
    omega
  · rw [decide_eq_false hi, Bool.false_and]
    exact (Nat.testBit_lt_two_pow (h.trans_le (Nat.pow_le_pow_right Nat.two_pos (by omega)))).symm

theorem sends_reversed {probs : ProbRow} {bits bitCount : Nat}
    (hrow : probs.declared encodeNPosStates encodeNLitPosStates = true)
    (hsize : 2 ^ bitCount - 1 ≤ probs.size) :
    Sends dstLen (rangeEncodeInt probs (bitsReverse bits bitCount) bitCount)
      (rangeDecodeInt probs bitCount) (bitsReverse bits bitCount) :=
  sends_int hrow hsize (bitsReverse_lt bits bitCount)

end reversed

section slot

theorem countBitLoop_eq {fuel k val : Nat} (count : Nat) (hk : k < fuel) (hge : 2 ^ k ≤ val)
    (hlt : val < 2 ^ (k + 1)) : countBitLoop fuel val count = count + k + 1 := by
  induction k generalizing fuel val count with
  | zero =>
    obtain ⟨fuel, rfl⟩ := Nat.exists_eq_add_of_lt hk
    have hone : val = 1 := by
      rw [pow_zero] at hge
      omega
    subst hone
    rw [Nat.zero_add, countBitLoop, if_pos Nat.one_ne_zero]
    cases fuel with
    | zero => rfl
    | succ fuel => rfl
  | succ k ih =>
    cases fuel with
    | zero => omega
    | succ fuel =>
      have hpos := Nat.two_pow_pos (k + 1)
      rw [countBitLoop, if_pos (by omega), ih (count + 1) (by omega)]
      · omega
      · rw [Nat.shiftRight_one, Nat.le_div_iff_mul_le Nat.two_pos, ← pow_succ]
        exact hge
      · rw [Nat.shiftRight_one, Nat.div_lt_iff_lt_mul Nat.two_pos, ← pow_succ]
        exact hlt

theorem exists_top_bit {dist : Nat} (hge : 4 ≤ dist) (hlt : dist < 2 ^ 30) :
    ∃ k, 2 ≤ k ∧ k < 30 ∧ 2 ^ k ≤ dist ∧ dist < 2 ^ (k + 1) := by
  refine ⟨dist.log2, ?_, ?_, Nat.log2_self_le (by omega), Nat.lt_log2_self⟩
  · rw [Nat.le_log2 (by omega)]
    exact hge
  · exact (Nat.log2_lt (by omega)).mpr hlt

/-- The slot of a distance: the place of its top bit, and the bit below. -/
theorem distSlot_spec {dist : Nat} (hge : 4 ≤ dist) (hlt : dist < 2 ^ 30) :
    ∃ k top, 2 ≤ k ∧ k < 30 ∧ top < 2 ∧ distSlot dist = 2 * k + top ∧
      dist / 2 ^ (k - 1) = 2 + top := by
  obtain ⟨k, hk, hk', hlow, hhigh⟩ := exists_top_bit hge hlt
  have hcount : countBit dist - 1 = k := by
    rw [countBit, countBitLoop_eq 0 (by omega) hlow hhigh]
    omega
  have hpow : 2 ^ k = 2 * 2 ^ (k - 1) := by
    rw [← pow_succ', Nat.sub_add_cancel (by omega)]
  have hquot : 2 ≤ dist / 2 ^ (k - 1) ∧ dist / 2 ^ (k - 1) < 4 := by
    rw [Nat.le_div_iff_mul_le (Nat.two_pow_pos _), Nat.div_lt_iff_lt_mul (Nat.two_pow_pos _)]
    rw [pow_succ] at hhigh
    omega
  refine ⟨k, dist / 2 ^ (k - 1) - 2, hk, hk', by omega, ?_, by omega⟩
  unfold distSlot
  rw [if_neg (by omega)]
  dsimp only
  rw [hcount, Nat.shiftRight_eq_div_pow, Nat.and_one_is_mod, Nat.shiftLeft_eq, pow_one,
    Nat.mul_comm k, double_or_bit _ (Nat.mod_lt _ Nat.two_pos)]
  omega

theorem distSlot_small {dist : Nat} (h : dist < 4) : distSlot dist = dist := if_pos h

theorem slot_prefix {k top : Nat} (htop : top < 2) :
    (2 ||| ((2 * k + top) &&& 1)) = 2 + top := by
  rw [Nat.and_one_is_mod, show (2 * k + top) % 2 = top by omega]
  exact double_or_bit 1 htop

theorem dist_of_slot {dist k top : Nat} (hquot : dist / 2 ^ (k - 1) = 2 + top) :
    (2 + top) <<< (k - 1) ||| dist % 2 ^ (k - 1) = dist := by
  have hlt := Nat.mod_lt dist (Nat.two_pow_pos (k - 1))
  rw [Nat.shiftLeft_eq, Nat.mul_comm, ← Nat.two_pow_add_eq_or_of_lt hlt, ← hquot]
  exact Nat.div_add_mod dist _

theorem low_bits_split {d n : Nat} (hn : 4 ≤ n) :
    ((d >>> 4) % 2 ^ (n - 4)) <<< 4 ||| d % 2 ^ 4 = d % 2 ^ n := by
  have hlt := Nat.mod_lt d (Nat.two_pow_pos 4)
  have hpow : 2 ^ n = 2 ^ 4 * 2 ^ (n - 4) := by
    rw [← pow_add, show 4 + (n - 4) = n by omega]
  rw [Nat.shiftLeft_eq, Nat.mul_comm, ← Nat.two_pow_add_eq_or_of_lt hlt, hpow,
    Nat.shiftRight_eq_div_pow, Nat.mod_mul, Nat.add_comm]

theorem and_mask (value bits : Nat) : value &&& ((1 <<< bits) - 1) = value % 2 ^ bits := by
  rw [Nat.shiftLeft_eq, Nat.one_mul, Nat.and_two_pow_sub_one_eq_mod]

end slot

section symbols

/-- The distance comes back one smaller, before the decoder's `dist++`. -/
theorem sends_dist {len dist : Nat} (hlen : 2 ≤ len) (hpos : 1 ≤ dist) (hdist : dist < 2 ^ 30) :
    Sends dstLen (encodeDist len dist) (decodeDist len) (dist - 1) := by
  have hless : (dist + (2 ^ 32 - 1)) % 2 ^ 32 = dist - 1 := by omega
  unfold encodeDist decodeDist
  dsimp only
  rw [hless]
  generalize hd : dist - 1 = d
  have hsmall : d < 2 ^ 30 := by omega
  have hrow : (ProbRow.distSlot (if len > 5 then 3 else len - 2)).declared encodeNPosStates
      encodeNLitPosStates = true := by
    unfold ProbRow.declared
    dsimp only
    rw [decide_eq_true_eq]
    split <;> omega
  have hsize : 2 ^ 6 - 1 ≤ (ProbRow.distSlot (if len > 5 then 3 else len - 2)).size :=
    Nat.le_of_eq rfl
  by_cases hfour : d < 4
  · rw [distSlot_small hfour]
    refine (sends_int hrow hsize (by omega)).bind ?_
    rw [if_neg (by omega), if_neg (by omega), if_neg (by omega), if_neg (by omega)]
    exact .pure d
  · obtain ⟨k, top, hk, hk', htop, hslot, hquot⟩ := distSlot_spec (Nat.not_lt.mp hfour) hsmall
    have hbcnt : ((2 * k + top) >>> 1) - 1 = k - 1 := by
      rw [Nat.shiftRight_one]
      omega
    rw [hslot]
    refine (sends_int hrow hsize (by omega)).bind ?_
    rw [hbcnt, slot_prefix htop]
    by_cases hlong : 2 * k + top ≥ 14
    · rw [if_pos hlong, if_pos hlong]
      have hvalue : (2 + top) <<< (k - 1) |||
          (((d >>> 4) &&& ((1 <<< (k - 1 - 4)) - 1)) % 2 ^ (k - 1 - 4)) <<< 4 |||
          bitsReverse (bitsReverse (d &&& ((1 <<< 4) - 1)) 4) 4 = d := by
        rw [and_mask, and_mask, Nat.mod_mod, bitsReverse_bitsReverse (Nat.mod_lt _ (by decide)),
          Nat.or_assoc, low_bits_split (by omega), dist_of_slot hquot]
      exact (sends_intByFixedProb _ _).bind
        ((sends_reversed rfl (Nat.le_of_eq rfl)).finish (congrArg Pure.pure hvalue))
    · rw [if_neg hlong, if_neg hlong, if_pos (by omega), if_pos (by omega)]
      have hvalue : (2 + top) <<< (k - 1) |||
          bitsReverse (bitsReverse (d &&& ((1 <<< (k - 1)) - 1)) (k - 1)) (k - 1) = d := by
        rw [and_mask, bitsReverse_bitsReverse (Nat.mod_lt _ (Nat.two_pow_pos _)),
          dist_of_slot hquot]
      have hspecial : (ProbRow.distSpecial (2 * k + top - 4)).declared encodeNPosStates
          encodeNLitPosStates = true := by
        unfold ProbRow.declared
        dsimp only
        rw [decide_eq_true_eq]
        omega
      have hfew : 2 ^ (k - 1) - 1 ≤ (ProbRow.distSpecial (2 * k + top - 4)).size := by
        have hle : 2 ^ (k - 1) ≤ 2 ^ 5 := Nat.pow_le_pow_right Nat.two_pos (by omega)
        have hcells : (ProbRow.distSpecial (2 * k + top - 4)).size = 2 ^ 5 - 1 := rfl
        omega
      exact (sends_reversed hspecial hfew).finish (congrArg Pure.pure hvalue)

theorem sends_len {isRep posState len : Nat} (hrep : isRep < 2) (hpos : posState < 1)
    (hge : 2 ≤ len) (hle : len ≤ 273) :
    Sends dstLen (encodeLen isRep posState len) (decodeLen isRep posState) len := by
  have hchoice : (ProbCell.mk (.lenChoice isRep) 0).declared encodeNPosStates
      encodeNLitPosStates = true := by
    simp [ProbCell.declared, ProbRow.declared, ProbRow.size, hrep]
  have hchoice2 : (ProbCell.mk (.lenChoice2 isRep) 0).declared encodeNPosStates
      encodeNLitPosStates = true := by
    simp [ProbCell.declared, ProbRow.declared, ProbRow.size, hrep]
  have hlow : (ProbRow.lenLow isRep posState).declared encodeNPosStates
      encodeNLitPosStates = true := by
    simp only [ProbRow.declared, decide_eq_true_eq]
    exact ⟨hrep, hpos⟩
  have hmid : (ProbRow.lenMid isRep posState).declared encodeNPosStates
      encodeNLitPosStates = true := by
    simp only [ProbRow.declared, decide_eq_true_eq]
    exact ⟨hrep, hpos⟩
  have hhigh : (ProbRow.lenHigh isRep).declared encodeNPosStates encodeNLitPosStates = true := by
    simp [ProbRow.declared, hrep]
  unfold encodeLen decodeLen
  by_cases hten : len < 10
  · rw [if_pos hten]
    have hvalue : 2 + (len - 2) = len := by omega
    refine (sends_bit false hchoice).bind ?_
    exact (sends_int hlow (Nat.le_of_eq rfl) (by omega)).finish (congrArg Pure.pure hvalue)
  · rw [if_neg hten]
    by_cases heighteen : len < 18
    · rw [if_pos heighteen]
      have hvalue : 10 + (len - 10) = len := by omega
      refine (sends_bit true hchoice).bind ((sends_bit false hchoice2).bind ?_)
      exact (sends_int hmid (Nat.le_of_eq rfl) (by omega)).finish (congrArg Pure.pure hvalue)
    · rw [if_neg heighteen]
      have hvalue : 18 + (len - 18) = len := by omega
      refine (sends_bit true hchoice).bind ((sends_bit true hchoice2).bind ?_)
      exact (sends_int hhigh (Nat.le_of_eq rfl) (by omega)).finish (congrArg Pure.pure hvalue)

theorem sends_literal {state litPosState prevByteLcMsbs currByte : Nat} (matchByte : Nat)
    (hlit : litPosState < 1) (hprev : prevByteLcMsbs < 256) (hbyte : currByte < 256) :
    Sends dstLen (encodeLiteral state litPosState prevByteLcMsbs currByte matchByte)
      (decodeLiteral state litPosState prevByteLcMsbs matchByte) currByte := by
  have hrow : (ProbRow.literal litPosState prevByteLcMsbs).declared encodeNPosStates
      encodeNLitPosStates = true := by
    simp [ProbRow.declared, encodeNLitPosStates, nPrevByteLcMsbs]
    omega
  unfold encodeLiteral decodeLiteral
  by_cases hstate : state < nLitStates
  · rw [if_pos hstate, if_pos hstate]
    apply sends_int hrow
    · have hsize : (ProbRow.literal litPosState prevByteLcMsbs).size = 768 := rfl
      omega
    · exact hbyte
  · rw [if_neg hstate, if_neg hstate]
    exact sends_MB matchByte hrow rfl hbyte

theorem sends_type {state posState : Nat} (hstate : state < 12) (hpos : posState < 1)
    (type : PacketType) :
    Sends dstLen (encodeType type state posState) (decodeType state posState) type := by
  have hcell : ∀ row : ProbRow, row.size = 1 →
      row.declared encodeNPosStates encodeNLitPosStates = true →
      (ProbCell.mk row 0).declared encodeNPosStates encodeNLitPosStates = true := by
    intro row hsize hrow
    unfold ProbCell.declared
    rw [Bool.and_eq_true, decide_eq_true_eq]
    exact ⟨hrow, hsize ▸ Nat.one_pos⟩
  have hplain : decide (state < nStates) = true := decide_eq_true hstate
  have hboth : decide (state < nStates ∧ posState < encodeNPosStates) = true :=
    decide_eq_true ⟨hstate, hpos⟩
  have hmatch := hcell (.isMatch state posState) rfl hboth
  have hrep := hcell (.isRep state) rfl hplain
  have hrep0 := hcell (.isRep0 state) rfl hplain
  have hlong := hcell (.isRep0Long state posState) rfl hboth
  have hrep1 := hcell (.isRep1 state) rfl hplain
  have hrep2 := hcell (.isRep2 state) rfl hplain
  unfold encodeType decodeType
  cases type with
  | pktLit => exact (sends_bit false hmatch).finish rfl
  | pktMatch =>
    apply (sends_bit true hmatch).bind
    exact (sends_bit false hrep).finish rfl
  | pktShortRep =>
    apply (sends_bit true hmatch).bind
    apply (sends_bit true hrep).bind
    apply (sends_bit false hrep0).bind
    exact (sends_bit false hlong).finish rfl
  | pktRep0 =>
    apply (sends_bit true hmatch).bind
    apply (sends_bit true hrep).bind
    apply (sends_bit false hrep0).bind
    exact (sends_bit true hlong).finish rfl
  | pktRep1 =>
    apply (sends_bit true hmatch).bind
    apply (sends_bit true hrep).bind
    apply (sends_bit true hrep0).bind
    exact (sends_bit false hrep1).finish rfl
  | pktRep2 =>
    apply (sends_bit true hmatch).bind
    apply (sends_bit true hrep).bind
    apply (sends_bit true hrep0).bind
    apply (sends_bit true hrep1).bind
    exact (sends_bit false hrep2).finish rfl
  | pktRep3 =>
    apply (sends_bit true hmatch).bind
    apply (sends_bit true hrep).bind
    apply (sends_bit true hrep0).bind
    apply (sends_bit true hrep1).bind
    exact (sends_bit true hrep2).finish rfl

end symbols

end TonCompress.Lzma
