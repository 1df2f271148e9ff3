import TonCompress.Lzma.Cut
import TonCompress.Lzma.WalkBits

/-! The walk is a block that `lzma_compress` loses. -/
namespace TonCompress.Lzma
open TonCompress.Lib

theorem length_walkBlock : walkBlock.length = walkLen := by
  rw [walkBlock, List.length_map, List.length_range]

theorem getElem?_walkBlock {pos : Nat} (hpos : pos < walkLen) :
    walkBlock[pos]? = some (walkByte pos) := by
  rw [walkBlock, List.getElem?_map, List.getElem?_range hpos]
  rfl

theorem walkByte_third {pos pos' : Nat}
    (h : (walkByte pos).toNat % 2 ^ 7 = (walkByte pos').toNat % 2 ^ 7) :
    walkLabel pos / 2 = walkLabel pos' / 2 := by
  rw [walkByte_toNat, walkByte_toNat] at h
  apply Nat.eq_of_testBit_eq
  intro i
  have hbit := congrArg (fun byte => byte.testBit (6 - i)) h
  rw [Nat.testBit_mod_two_pow, Nat.testBit_mod_two_pow, bitsReverse_testBit,
    bitsReverse_testBit] at hbit
  rw [Nat.testBit_div_two, Nat.testBit_div_two]
  by_cases hi : i < 7
  · rw [decide_eq_true (by omega), decide_eq_true (by omega), Bool.true_and, Bool.true_and,
      Bool.true_and, Bool.true_and, show 8 - 1 - (6 - i) = i + 1 by omega] at hbit
    exact hbit
  · have hlt : walkLabel pos < 2 ^ (i + 1) :=
      (walkLabel_lt pos).trans_le (Nat.pow_le_pow_right Nat.two_pos (by omega : 8 ≤ i + 1))
    have hlt' : walkLabel pos' < 2 ^ (i + 1) :=
      (walkLabel_lt pos').trans_le (Nat.pow_le_pow_right Nat.two_pos (by omega : 8 ≤ i + 1))
    rw [Nat.testBit_lt_two_pow hlt, Nat.testBit_lt_two_pow hlt']

theorem readSrc_walkBlock {pos : Nat} (hpos : pos < walkLen) :
    readSrc walkBlock (pos : Int) = .ok (walkByte pos).toNat := by
  rw [readSrc, vecGet_of_eq _ _ _ _ (getElem?_walkBlock hpos)]
  rfl

theorem getHash_walkBlock {pos : Nat} (hpos : pos + 2 < walkLen) :
    getHash walkBlock pos = .ok (((walkByte (pos + 2)).toNat * 2 ^ 16 +
      (walkByte (pos + 1)).toNat * 2 ^ 8 + (walkByte pos).toNat) % 2 ^ 23) := by
  have hmask : hashMask = 2 ^ 23 - 1 := rfl
  unfold getHash
  rw [if_neg (by rw [length_walkBlock]; omega), readSrc_walkBlock hpos, ok_bind,
    readSrc_walkBlock (by omega), ok_bind, readSrc_walkBlock (by omega), ok_bind, hmask,
    Nat.and_two_pow_sub_one_eq_mod, Nat.shiftLeft_eq, Nat.shiftLeft_eq]
  rfl

theorem walkBlock_unrepeated : Unrepeated walkBlock := by
  have hread := length_walkBlock
  refine ⟨fun pos hpos heq => ?_, fun pos hpos heq => ?_, fun pos pos' hash hpos hpos' h h' => ?_⟩
  · rw [getElem?_walkBlock (by omega), getElem?_walkBlock (by omega)] at heq
    exact walkLabel_ne_succ pos (walkByte_inj.mp (Option.some.inj heq)).symm
  · rw [getElem?_walkBlock (by omega), getElem?_walkBlock (by omega)] at heq
    exact walkLabel_ne_two pos (walkByte_inj.mp (Option.some.inj heq)).symm
  · have hsame := Except.ok.inj ((getHash_walkBlock (by omega)).symm.trans
      ((h.trans h'.symm).trans (getHash_walkBlock (by omega))))
    have hfirst := (walkByte pos).toNat_lt
    have hsecond := (walkByte (pos + 1)).toNat_lt
    have hfirst' := (walkByte pos').toNat_lt
    have hsecond' := (walkByte (pos' + 1)).toNat_lt
    refine walk_unique (by omega) (by omega) ?_ ?_ ?_
    · exact walkByte_inj.mp (UInt8.toNat_inj.mp (by omega))
    · exact walkByte_inj.mp (UInt8.toNat_inj.mp (by omega))
    · exact walkByte_third (by omega)

theorem walkBlock_pairs :
    25 * 330426 ≤ literalPairs walkBlock (8 * (walkBlock.length - 274)) := by
  have hbyte : ∀ q < walkLen, byteAt walkBlock q = (walkByte q).toNat := fun q hq => by
    rw [byteAt, getElem?_walkBlock hq]
    rfl
  have hlen : walkLen = 32 * 127 * 512 := rfl
  rw [length_walkBlock, literalPairs, (openBits_congr fun k hk => ?_).2]
  · exact walk_pairs
  · unfold literalCell literalBit
    rw [hbyte _ (by omega), hbyte _ (by omega)]
    exact ⟨rfl, rfl⟩

/-- Whatever the buffer of `lzma_compress` held, the bytes that come back from the zeroed one of
`lzma_decompress` are not the block. -/
theorem walkBlock_lost : walkBlock.length ≤ blockSizeMax ∧ ∀ input, ∃ written compressed,
    tinyLzmaCompress walkBlock input.toList = .ok written ∧ written.ret = .errOutputOverflow ∧
      lzmaCompress walkBlock input = .ok compressed ∧
        lzmaDecompress compressed blockSizeMax (.replicate _ 0) ≠ .ok walkBlock := by
  have hlength := length_walkBlock
  have hlen : walkLen = 2080768 := by decide
  have hmax : blockSizeMax = 2 ^ 21 := rfl
  have hroom : walkBlock.length ≤ blockSizeMax := by omega
  have hlast : walkBlock.getLast? ≠ some 0 := by
    rw [List.getLast?_eq_getElem?, hlength, getElem?_walkBlock (by omega), hlen]
    decide
  refine ⟨hroom, fun input => ?_⟩
  obtain ⟨bytes, hbytes, hlong⟩ :=
    walkBlock_unrepeated.exists_cut hroom walkBlock_pairs (by omega)
  have hencode := hbytes (lzmaCompressCapacity walkBlock.length - lzmaHeaderLen)
  rw [if_pos hlong] at hencode
  have hcompress := hbytes.lzmaCompress_cut (by omega) hlong input
  refine ⟨_, _, tinyLzmaCompress_eq (by omega) hencode input, rfl, hcompress, ?_⟩
  exact lzmaDecompress_not_whole (by decide) (by omega)
    (walkBlock_unrepeated.not_whole hroom walkBlock_pairs (by omega) hcompress) hlast

end TonCompress.Lzma
