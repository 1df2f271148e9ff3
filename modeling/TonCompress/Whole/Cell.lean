import TonCompress.Boc.Topol

/-! Cell records that hold their data, and the walk over them in topological
order. -/
namespace TonCompress.Whole
open TonCompress.Lib TonCompress.Boc

/-- The data of a cell lie between its hashes and its references. -/
structure CellSerializationInfo extends Boc.CellSerializationInfo where
  dataOffset : Nat
  deriving DecidableEq, Repr

namespace CellSerializationInfo

/-- `init(d1, d2, ref_byte_size)`. -/
def initBytes (d1 d2 : UInt8) (refByteSize : Nat) : BocExec CellSerializationInfo :=
  let refsCnt := d1.toNat % 8
  let levelMask := d1.toNat / 32
  let withHashes := d1.toNat.testBit 4
  if refsCnt > 4 then
    if refsCnt ≠ 7 ∨ ¬ withHashes then .error (.status "Invalid first byte")
    else .error (.status "TODO: absent cells")
  else
    let n := getHashesCount levelMask
    let depthOffset := 2 + if withHashes then n * hashBytes else 0
    let dataOffset := depthOffset + if withHashes then n * depthBytes else 0
    let dataLen := d2.toNat / 2 + d2.toNat % 2
    let refsOffset := dataOffset + dataLen
    .ok {
      special := d1.toNat.testBit 3
      levelMask
      withHashes
      hashesOffset := 2
      depthOffset
      dataOffset
      dataLen
      dataWithBits := d2.toNat.testBit 0
      refsOffset
      refsCnt
      endOffset := refsOffset + refsCnt * refByteSize
    }

/-- `init(data, ref_byte_size)`. -/
def init (data : Slice) (refByteSize : Nat) : BocExec CellSerializationInfo := do
  if data.len < 2 then
    throw (.status s!"Not enough bytes [got:{data.len}][expected:at least 2]")
  let d1 ← readByte data.mem 0
  let d2 ← readByte data.mem 1
  let cellInfo ← initBytes d1 d2 refByteSize
  if data.len < cellInfo.endOffset then
    throw (.status s!"Not enough bytes [got:{data.len}][expected:{cellInfo.endOffset}]")
  return cellInfo

def getBits (cellInfo : CellSerializationInfo) (cell : Slice) : BocExec Nat := do
  if cellInfo.dataWithBits then
    let last ← readByte cell.mem (cellInfo.dataOffset + cellInfo.dataLen - 1)
    if last.toNat % 128 = 0 then throw (.status "overlong encoding")
    return (cellInfo.dataLen - 1) * 8 + 7 - countTrailingZeroes last.toNat
  else
    return cellInfo.dataLen * 8

def createDataCell (lib : CellLib) (cellInfo : CellSerializationInfo) (cellSlice : Slice)
    (refs : List DataCell) : BocExec DataCell := do
  let bits ← cellInfo.getBits cellSlice
  let bitString ← loadBits (cellSlice.mem.drop cellInfo.dataOffset) bits
  match lib.finalizeNovmNothrow bitString refs cellInfo.special with
  | .error message => throw (.status message)
  | .ok res =>
      if res.isSpecial ≠ cellInfo.special then throw (.status "is_special mismatch")
      if res.levelMask ≠ cellInfo.levelMask then throw (.status "level mask mismatch")
      if cellInfo.withHashes then cellInfo.checkHashes lib cellSlice res
      return res

end CellSerializationInfo

def readCellRecord (bag : MyBagOfCells) (idx : Int) (cellsSlice : Slice) :
    BocExec (Slice × CellSerializationInfo) := do
  let cellSlice ← bag.getCellSlice idx cellsSlice
  let cellInfo ← CellSerializationInfo.init cellSlice bag.info.refByteSize
  if cellInfo.endOffset ≠ cellSlice.len then
    throw (.status "unused space in cell serialization")
  return (cellSlice, cellInfo)

def buildReverseGraph (bag : MyBagOfCells) (cellsSlice : Slice) (cellCount : Nat) :
    BocExec (List (List Int) × List Int) :=
  forRange 0 cellCount (List.replicate cellCount [], List.replicate cellCount 0)
    fun idx (revGraph, inDegree) => do
      let (cellSlice, cellInfo) ← readCellRecord bag idx cellsSlice
      bag.addReferences idx cellSlice cellInfo.toCellSerializationInfo revGraph inDegree

def getTopolOrder (bag : MyBagOfCells) (cellsSlice : Slice) (cellCount : Nat) :
    BocExec (List Int) := do
  let (revGraph, inDegree) ← buildReverseGraph bag cellsSlice cellCount
  let queue ← MyBagOfCells.initialQueue inDegree cellCount
  MyBagOfCells.topolLoop revGraph (cellCount + 1) inDegree queue []

end TonCompress.Whole
