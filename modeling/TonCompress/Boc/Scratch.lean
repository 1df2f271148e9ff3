import TonCompress.Boc.Unfold

/-! `MyDataCell::serialize` with and without the two descriptor bytes. -/
namespace TonCompress.Boc
open TonCompress.Lib

section writing
variable {buff bytes : List UInt8} {offset k : Nat}

theorem writeAt_length (h : offset + bytes.length ≤ buff.length) :
    (writeAt buff offset bytes).length = buff.length := by
  simp only [writeAt, List.length_append, List.length_take, List.length_drop]
  omega

theorem take_writeAt_of_le (hk : k ≤ offset) (h : offset ≤ buff.length) :
    (writeAt buff offset bytes).take k = buff.take k := by
  rw [writeAt, List.append_assoc, List.take_append_of_le_length (by simp; omega), List.take_take,
    min_eq_left hk]

theorem take_writeAt (h : offset ≤ buff.length) (hk : k ≤ bytes.length) :
    (writeAt buff offset bytes).take (offset + k) = buff.take offset ++ bytes.take k := by
  have hlen : (buff.take offset).length = offset := by simpa using h
  rw [writeAt, List.append_assoc]
  nth_rewrite 1 [← hlen]
  rw [List.take_length_add_append, List.take_append_of_le_length hk]

end writing

def CellLib.Sized (lib : CellLib) : Prop :=
  ∀ cell level, (lib.getHash cell level).length = hashBytes

theorem significant_count : ∀ mask < 8,
    ((List.range (getLevel mask + 1)).filter (isSignificant mask)).length =
      getHashesCount mask := by
  decide

namespace DataCell
variable {lib : CellLib} {cell : DataCell}

def serialized (lib : CellLib) (cell : DataCell) (buff : List UInt8) (withHashes withMeta : Bool) :
    List UInt8 :=
  (cell.serialize lib buff withHashes withMeta).2.take
    (cell.serialize lib buff withHashes withMeta).1

def hashesSize (cell : DataCell) (withHashes : Bool) : Nat :=
  if withHashes then getHashesCount cell.levelMask * (hashBytes + depthBytes) else 0

theorem hashesAndDepths_length (hlib : lib.Sized) (hmask : cell.levelMask < 8) :
    (cell.hashesAndDepths lib).length = cell.hashesSize true := by
  have hhash : ∀ level, (lib.getHash cell level).length = 32 := hlib cell
  simp only [hashesAndDepths, List.length_append, List.length_flatMap, hhash, beBytes_length,
    List.map_const', List.sum_replicate_nat, significant_count _ hmask]
  simp only [hashesSize, if_true, hashBytes, depthBytes]
  omega

theorem hashesSize_ge (cell : DataCell) : 34 ≤ cell.hashesSize true := by
  simp only [hashesSize, if_true, getHashesCount, hashBytes, depthBytes]
  omega

theorem getSerializedSize_eq (hdata : cell.data.length = (cell.bits + 7) / 8)
    (withHashes : Bool) :
    cell.getSerializedSize withHashes = 2 + cell.hashesSize withHashes + cell.data.length := by
  unfold getSerializedSize hashesSize
  omega

theorem take_hashes {buff : List UInt8} {block : List UInt8} (h : 2 + block.length ≤ buff.length)
    {k : Nat} (hk : k ≤ block.length) :
    (writeAt (writeAt buff 2 (List.replicate block.length 0)) 2 block).take (2 + k) =
      buff.take 2 ++ block.take k := by
  have hzeros : (List.replicate block.length (0 : UInt8)).length = block.length :=
    List.length_replicate
  rw [take_writeAt (by rw [writeAt_length (by omega)]; omega) hk,
    take_writeAt_of_le le_rfl (by omega)]

/-- With the descriptor bytes in front, the parts of the record lie end to end. -/
theorem serialized_withMeta (hlib : lib.Sized) (hmask : cell.levelMask < 8)
    (hdata : cell.data.length = (cell.bits + 7) / 8) {withHashes : Bool} {buff : List UInt8}
    (hbuff : cell.getSerializedSize withHashes ≤ buff.length) :
    cell.serialized lib buff withHashes true =
      cell.getFirstTwoMeta withHashes ++
        (if withHashes then cell.hashesAndDepths lib else []) ++ cell.data := by
  have hsize := getSerializedSize_eq hdata withHashes
  have hmeta : (cell.getFirstTwoMeta withHashes).length = 2 := rfl
  have hfirst : (writeAt buff 0 (cell.getFirstTwoMeta withHashes)).length = buff.length :=
    writeAt_length (by omega)
  have hcopied : (writeAt buff 0 (cell.getFirstTwoMeta withHashes)).take 2 =
      cell.getFirstTwoMeta withHashes := by
    have htake := @take_writeAt buff (cell.getFirstTwoMeta withHashes) 0 2 (Nat.zero_le _) hmeta.ge
    rwa [List.take_zero, List.nil_append, Nat.zero_add, List.take_of_length_le hmeta.le] at htake
  unfold serialized serialize
  rw [if_neg (by omega)]
  simp only [if_true]
  cases withHashes with
  | false =>
    have hnone : cell.hashesSize false = 0 := rfl
    simp only [Bool.false_eq_true, if_false, List.append_nil]
    rw [List.take_of_length_le (show cell.data.length ≤ _ by omega),
      show cell.getSerializedSize false - 0 - (2 - 2) + 0 = 0 + 2 + cell.data.length by omega,
      take_writeAt (by omega) le_rfl, List.take_length, Nat.zero_add, hcopied]
  | true =>
    have hblock := hashesAndDepths_length hlib hmask
    have hhs : getHashesCount cell.levelMask * (hashBytes + depthBytes) =
        (cell.hashesAndDepths lib).length := hblock.symm
    have hzeros : (List.replicate (cell.hashesAndDepths lib).length (0 : UInt8)).length =
        (cell.hashesAndDepths lib).length := List.length_replicate
    simp only [if_true, hhs]
    rw [List.take_of_length_le (show cell.data.length ≤ _ by omega),
      show cell.getSerializedSize true - (cell.hashesAndDepths lib).length - (2 - 2) +
        (cell.hashesAndDepths lib).length =
          (cell.hashesAndDepths lib).length + 2 + cell.data.length by omega]
    have hfilled := @take_hashes (writeAt buff 0 (cell.getFirstTwoMeta true))
      (cell.hashesAndDepths lib) (by omega) (cell.hashesAndDepths lib).length le_rfl
    rw [List.take_length, Nat.add_comm 2, hcopied] at hfilled
    rw [take_writeAt _ le_rfl, List.take_length, hfilled]
    rw [writeAt_length (by rw [writeAt_length (by omega)]; omega), writeAt_length (by omega)]
    omega

/-- Without them the data lie two bytes before the end of the hashes, and the
first two bytes are what the buffer held. -/
theorem serialized_withoutMeta (hlib : lib.Sized) (hmask : cell.levelMask < 8)
    (hdata : cell.data.length = (cell.bits + 7) / 8) {withHashes : Bool} {buff : List UInt8}
    (hbuff : cell.getSerializedSize withHashes ≤ buff.length) :
    cell.serialized lib buff withHashes false =
      (if withHashes then
        buff.take 2 ++ (cell.hashesAndDepths lib).take ((cell.hashesAndDepths lib).length - 2)
      else []) ++ cell.data := by
  have hsize := getSerializedSize_eq hdata withHashes
  unfold serialized serialize
  rw [if_neg (by omega)]
  simp only [Bool.false_eq_true, if_false]
  cases withHashes with
  | false =>
    have hnone : cell.hashesSize false = 0 := rfl
    simp only [Bool.false_eq_true, if_false, List.nil_append]
    rw [List.take_of_length_le (show cell.data.length ≤ _ by omega),
      show cell.getSerializedSize false - 0 - (2 - 0) + 0 = 0 + cell.data.length by omega,
      take_writeAt (Nat.zero_le _) le_rfl, List.take_length, List.take_zero, List.nil_append]
  | true =>
    have hge := cell.hashesSize_ge
    have hblock := hashesAndDepths_length hlib hmask
    have hhs : getHashesCount cell.levelMask * (hashBytes + depthBytes) =
        (cell.hashesAndDepths lib).length := hblock.symm
    have hzeros : (List.replicate (cell.hashesAndDepths lib).length (0 : UInt8)).length =
        (cell.hashesAndDepths lib).length := List.length_replicate
    simp only [if_true, hhs]
    rw [List.take_of_length_le (show cell.data.length ≤ _ by omega),
      show cell.getSerializedSize true - (cell.hashesAndDepths lib).length - (2 - 0) +
        (cell.hashesAndDepths lib).length =
          (cell.hashesAndDepths lib).length + 0 + cell.data.length by omega]
    have hfilled := @take_hashes buff (cell.hashesAndDepths lib) (by omega)
      ((cell.hashesAndDepths lib).length - 2) (by omega)
    rw [show 2 + ((cell.hashesAndDepths lib).length - 2) =
      (cell.hashesAndDepths lib).length by omega] at hfilled
    rw [take_writeAt _ le_rfl, List.take_length, Nat.add_zero, hfilled]
    rw [writeAt_length (by rw [writeAt_length (by omega)]; omega), writeAt_length (by omega)]
    omega

/-- The two modes put the same record together: without the descriptor bytes
`serialize` returns what it returns behind them. -/
structure RecordSplits (lib : CellLib) (cell : DataCell) (withHashes : Bool)
    (buff buff' : List UInt8) : Prop where
  first : (cell.serialized lib buff' withHashes true).take 2 = cell.getFirstTwoMeta withHashes
  rest : cell.serialized lib buff withHashes false =
    (cell.serialized lib buff' withHashes true).drop 2

/-- They do for the cells written without hashes, and for those whose hashes and
depths repeat the two bytes at the start of the buffer. -/
theorem recordSplits_iff (hlib : lib.Sized) (hmask : cell.levelMask < 8)
    (hdata : cell.data.length = (cell.bits + 7) / 8) (withHashes : Bool) {buff buff' : List UInt8}
    (hbuff : cell.getSerializedSize withHashes ≤ buff.length)
    (hbuff' : cell.getSerializedSize withHashes ≤ buff'.length) :
    RecordSplits lib cell withHashes buff buff' ↔
      withHashes = false ∨
        buff.take 2 ++ (cell.hashesAndDepths lib).take ((cell.hashesAndDepths lib).length - 2) =
          cell.hashesAndDepths lib := by
  have hmeta : (cell.getFirstTwoMeta withHashes).length = 2 := rfl
  have hwith := serialized_withMeta hlib hmask hdata hbuff'
  have hwithout := serialized_withoutMeta hlib hmask hdata hbuff
  rw [List.append_assoc] at hwith
  have hfirst : (cell.serialized lib buff' withHashes true).take 2 =
      cell.getFirstTwoMeta withHashes := by
    rw [hwith, List.take_left' hmeta]
  have hrest : (cell.serialized lib buff' withHashes true).drop 2 =
      (if withHashes then cell.hashesAndDepths lib else []) ++ cell.data := by
    rw [hwith, List.drop_left' hmeta]
  cases withHashes with
  | false =>
    have hsame : cell.serialized lib buff false false =
        (cell.serialized lib buff' false true).drop 2 := hwithout.trans hrest.symm
    exact iff_of_true ⟨hfirst, hsame⟩ (.inl rfl)
  | true =>
    simp only [if_true] at hwithout hrest
    have hiff : cell.serialized lib buff true false = (cell.serialized lib buff' true true).drop 2 ↔
        buff.take 2 ++ (cell.hashesAndDepths lib).take ((cell.hashesAndDepths lib).length - 2) =
          cell.hashesAndDepths lib := by
      rw [hwithout, hrest, List.append_left_inj]
    constructor
    · intro h
      exact .inr (hiff.mp h.rest)
    · intro h
      rcases h with hnone | hrepeats
      · cases hnone
      · exact ⟨hfirst, hiff.mpr hrepeats⟩

end DataCell

def emptyCellHash : List UInt8 :=
  [0x96, 0xa2, 0x96, 0xd2, 0x24, 0xf2, 0x85, 0xc6, 0x7b, 0xee, 0x93, 0xc3, 0x0f, 0x8a, 0x30, 0x91,
    0x57, 0xf0, 0xda, 0xa3, 0x5d, 0xc5, 0xb8, 0x7e, 0x41, 0x0b, 0x78, 0x63, 0x0a, 0x09, 0xcf, 0xc7]

def emptyCellLib : CellLib := ⟨fun _ => 0, fun _ _ _ => .error "", fun _ _ => emptyCellHash, fun _ _ => 0⟩

def emptyCell : DataCell := ⟨0, [], [], false, 0⟩

/-- The first two bytes of the hash are missing, and so are the two of the depth. -/
theorem emptyCell_hash_shifted :
    emptyCell.serialized emptyCellLib (List.replicate 256 0) true false =
        [0, 0] ++ emptyCellHash ∧
      (emptyCell.serialized emptyCellLib (List.replicate 256 0) true true).drop 2 =
        emptyCellHash ++ [0, 0] ∧
      ¬ emptyCell.RecordSplits emptyCellLib true (List.replicate 256 0) (List.replicate 256 0) := by
  have hwithout : emptyCell.serialized emptyCellLib (List.replicate 256 0) true false =
      [0, 0] ++ emptyCellHash := by decide +kernel
  have hwith : (emptyCell.serialized emptyCellLib (List.replicate 256 0) true true).drop 2 =
      emptyCellHash ++ [0, 0] := by decide +kernel
  refine ⟨hwithout, hwith, fun h => ?_⟩
  have hrest := h.rest
  rw [hwithout, hwith] at hrest
  revert hrest
  decide

/-- Twelve bits under a mask with two of the three levels set: three hashes and
three depths stand in front of two data bytes. -/
def levelCell : DataCell := ⟨12, [0xab, 0xc8], [emptyCell], false, 5⟩

def levelLib : CellLib :=
  { emptyCellLib with
    getHash := fun _ level => List.replicate 32 (UInt8.ofNat (16 * level + 1))
    getDepth := fun _ level => 256 * level + 1 }

theorem levelLib_sized : levelLib.Sized := fun _ _ => List.length_replicate

theorem recordSplits_iff_levelCell :
    (levelCell.RecordSplits levelLib true (List.replicate 256 0) (List.replicate 128 0xff) ↔
        true = false ∨ (List.replicate 256 0).take 2 ++ (levelCell.hashesAndDepths levelLib).take
            ((levelCell.hashesAndDepths levelLib).length - 2) =
          levelCell.hashesAndDepths levelLib) ∧
      (levelCell.RecordSplits levelLib false (List.replicate 256 0) (List.replicate 128 0xff) ↔
        false = false ∨ (List.replicate 256 0).take 2 ++ (levelCell.hashesAndDepths levelLib).take
            ((levelCell.hashesAndDepths levelLib).length - 2) =
          levelCell.hashesAndDepths levelLib) ∧
      (levelCell.hashesAndDepths levelLib).length = 102 ∧
      levelCell.serialized levelLib (List.replicate 256 0) false false = [0xab, 0xc8] := by
  have hlarge (withHashes : Bool) :
      levelCell.getSerializedSize withHashes ≤ (List.replicate 256 (0 : UInt8)).length := by
    rw [List.length_replicate]
    cases withHashes <;> decide
  have hlarge' (withHashes : Bool) :
      levelCell.getSerializedSize withHashes ≤ (List.replicate 128 (0xff : UInt8)).length := by
    rw [List.length_replicate]
    cases withHashes <;> decide
  refine ⟨?_, ?_, by decide +kernel, by decide +kernel⟩
  · exact DataCell.recordSplits_iff levelLib_sized (by decide) rfl true (hlarge true) (hlarge' true)
  · exact DataCell.recordSplits_iff levelLib_sized (by decide) rfl false (hlarge false) (hlarge' false)

end TonCompress.Boc
