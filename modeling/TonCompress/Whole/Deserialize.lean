import TonCompress.Whole.Cell
import TonCompress.Boc.Deserialize

/-! `MyBagOfCells::deserialize` for records that hold their data. -/
namespace TonCompress.Whole
open TonCompress.Lib TonCompress.Boc

/-- The index section, or the index computed by walking over the records. -/
def buildIndex (info : Info) (data : Slice) : BagExec Unit := do
  if info.hasIndex then
    let index ← liftExec (data.substr info.indexOffset)
    modify fun bag => { bag with indexPtr := some index.mem }
  else
    modify fun bag => { bag with indexPtr := none }
    let cells ← liftExec (data.substrUpTo info.dataOffset info.dataSize)
    let (cells, cur) ← forRange 0 info.cellCount.toNat (cells, 0) fun i (cells, cur) => do
      let cellInfo ← liftExec (wrapStatus
        s!"invalid bag-of-cells failed to deserialize cell #{i} "
        (CellSerializationInfo.init cells info.refByteSize))
      let cells ← liftExec (cells.substr cellInfo.endOffset)
      let cur := cur + cellInfo.endOffset
      modify fun bag => { bag with customIndex := bag.customIndex ++ [cur] }
      return (cells, cur)
    if cells.len ≠ 0 then
      throw (.status <| s!"invalid bag-of-cells last cell #{info.cellCount - 1}: end offset " ++
        s!"{cur} is different from total data size {info.dataSize}")

def deserializeCell (lib : CellLib) (bag : MyBagOfCells) (idxMap : List Int) (idx : Int)
    (cellsSlice : Slice) (cellsSpan : List DataCell) (cellShouldCache : List Nat) :
    BocExec (DataCell × List Nat) := do
  let (cellSlice, cellInfo) ← readCellRecord bag idx cellsSlice
  let (refs, cellShouldCache) ← bag.collectRefs idxMap idx cellSlice
    cellInfo.toCellSerializationInfo cellsSpan cellShouldCache
  let cell ← cellInfo.createDataCell lib cellSlice refs
  return (cell, cellShouldCache)

def rebuildLoop (lib : CellLib) (bag : MyBagOfCells) (cellsSlice : Slice) (topolOrder : List Int)
    (vars : MyBagOfCells.RebuildVars) : BocExec MyBagOfCells.RebuildVars :=
  forEach topolOrder vars fun idx vars => do
    let (cell, cellShouldCache) ← wrapStatus
      s!"invalid bag-of-cells failed to deserialize cell #{idx} "
      (deserializeCell lib bag vars.idxMap idx cellsSlice vars.cellList vars.cellShouldCache)
    let idxMap ← vecSet .idxMap vars.idxMap idx vars.cellList.length
    return ⟨idxMap, vars.cellList ++ [cell], cellShouldCache⟩

/-- From the index to the check of the cache flags. -/
def rebuildCells (lib : CellLib) (bag : MyBagOfCells) (data : Slice) (cellShouldCache : List Nat) :
    BocExec MyBagOfCells.RebuildVars := do
  let cellCount := bag.cellCount.toNat
  let cellsSlice ← data.substrUpTo bag.info.dataOffset bag.info.dataSize
  let topolOrder ← moveAsOk (getTopolOrder bag cellsSlice cellCount)
  let vars ← rebuildLoop lib bag cellsSlice topolOrder
    ⟨List.replicate cellCount (-1), [], cellShouldCache⟩
  bag.checkCacheFlags vars.cellShouldCache
  return vars

/-- `deserialize` from the index on. -/
def deserializeCells (lib : CellLib) (info : Info) (data : Slice) (sizeEst : Int)
    (cellShouldCache : List Nat) : BagExec Int := do
  buildIndex info data
  let bag ← get
  let vars ← liftExec (rebuildCells lib bag data cellShouldCache)
  modify fun bag => { bag with
    customIndex := []
    indexPtr := none
    rootCount := info.rootCount
    dangleCount := info.absentCount }
  let roots ← liftExec (MyBagOfCells.lookUpRoots bag.roots vars)
  modify fun bag => { bag with roots }
  return sizeEst

def deserialize (lib : CellLib) (data : Slice) (maxRoots : Int) : BagExec Int := do
  modify MyBagOfCells.clear
  let bag ← get
  let (sizeEst, info) ← liftExec (bag.info.parseSerializedHeader data)
  modify fun bag => { bag with info }
  if sizeEst = 0 then
    throw (.status
      s!"cannot deserialize bag-of-cells: invalid header, error {sizeEst}")
  if sizeEst < 0 then return sizeEst
  if sizeEst > data.len then return -sizeEst
  if info.rootCount > maxRoots then
    throw (.status "Bag-of-cells has more root cells than expected")
  if info.hasCrc32c then liftExec (checkCrc lib data)
  modify fun bag => { bag with cellCount := info.cellCount }
  let cellShouldCache ← MyBagOfCells.readRoots info data
  deserializeCells lib info data sizeEst cellShouldCache

end TonCompress.Whole
