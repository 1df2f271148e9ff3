import TonCompress.Boc.Header

/-! The bag object, and the access to the cell records of a serialized bag. -/
namespace TonCompress.Boc
open TonCompress.Lib

structure CellInfo where
  dcRef : DataCell
  /-- the first `ref_num` entries of the array -/
  refIdx : List Int
  wt : Nat
  newIdx : Int
  shouldCache : Bool
  isRootCell : Bool

structure RootInfo where
  cell : Option DataCell
  idx : Int

def RootInfo.fresh : RootInfo := ⟨none, -1⟩

structure MyBagOfCells where
  cellCount : Int
  rootCount : Int
  dangleCount : Int
  intRefs : Int
  intHashes : Int
  topHashes : Int
  info : Info
  dataBytes : Nat
  /-- the map from hashes to positions, latest entry first -/
  cells : List (List UInt8 × Int)
  cellList : List CellInfo
  roots : List RootInfo
  /-- the buffer from `index_ptr` on -/
  indexPtr : Option (List UInt8)
  customIndex : List Nat

def MyBagOfCells.fresh : MyBagOfCells where
  cellCount := 0
  rootCount := 0
  dangleCount := 0
  intRefs := 0
  intHashes := 0
  topHashes := 0
  info := .fresh
  dataBytes := 0
  cells := []
  cellList := []
  roots := []
  indexPtr := none
  customIndex := []

abbrev BagExec := ObjExec BocSite MyBagOfCells

namespace MyBagOfCells

def clear (bag : MyBagOfCells) : MyBagOfCells :=
  { bag with
    cellCount := 0
    intRefs := 0
    dataBytes := 0
    cells := []
    cellList := []
    roots := []
    rootCount := 0 }

def getIdxEntryRaw (bag : MyBagOfCells) (index : Int) : BocExec Nat :=
  if index < 0 then .ok 0
  else if ¬ bag.info.hasIndex then
    -- `at` throws, and nothing catches it
    match bag.customIndex[index.toNat]? with
    | some entry => .ok entry
    | none => .error .abort
  else
    match bag.indexPtr with
    | some ptr =>
        if index < bag.info.cellCount then
          bag.info.readOffset (ptr.drop (index.toNat * bag.info.offsetByteSize))
        else .ok 0
    | none => .ok 0

def getIdxEntry (bag : MyBagOfCells) (index : Int) : BocExec Nat := do
  let raw ← bag.getIdxEntryRaw index
  if bag.info.hasCacheBits then return raw / 2 else return raw

def getCacheEntry (bag : MyBagOfCells) (index : Int) : BocExec Bool :=
  if ¬ bag.info.hasCacheBits then .ok true
  else if ¬ bag.info.hasIndex then .ok true
  else do
    let raw ← bag.getIdxEntryRaw index
    return raw % 2 = 1

def getCellSlice (bag : MyBagOfCells) (idx : Int) (data : Slice) : BocExec Slice := do
  let offs ← bag.getIdxEntry (idx - 1)
  let offsEnd ← bag.getIdxEntry idx
  if offs > offsEnd ∨ offsEnd > data.len then
    throw (.status s!"invalid index entry [{offs}; {offsEnd}], [data.size():{data.len}]")
  data.substrUpTo offs (offsEnd - offs)

/-- The record of a cell and its parsed prefix, as `get_topol_order` and
`deserialize_cell` both read it. -/
def readCellRecord (bag : MyBagOfCells) (idx : Int) (cellsSlice : Slice) :
    BocExec (Slice × CellSerializationInfo) := do
  let cellSlice ← bag.getCellSlice idx cellsSlice
  let cellInfo ← CellSerializationInfo.init cellSlice bag.info.refByteSize
  if cellInfo.endOffset ≠ cellSlice.len then
    throw (.status "unused space in cell serialization")
  return (cellSlice, cellInfo)

def readRefIdx (bag : MyBagOfCells) (cellSlice : Slice) (cellInfo : CellSerializationInfo)
    (k : Nat) : BocExec Int := do
  let value ← bag.info.readRef
    (cellSlice.mem.drop (cellInfo.refsOffset + k * bag.info.refByteSize))
  return asInt32 value

end MyBagOfCells

end TonCompress.Boc
