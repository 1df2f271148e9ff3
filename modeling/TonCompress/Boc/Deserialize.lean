import TonCompress.Boc.Topol

/-! `MyBagOfCells::deserialize` and `my_std_boc_deserialize`. -/
namespace TonCompress.Boc
open TonCompress.Lib

def asHex (value : Nat) : String :=
  let digits := Nat.toDigits 16 value
  "0x" ++ String.ofList (List.replicate (8 - digits.length) '0' ++ digits)

/-- `move_as_ok` on an error status aborts. -/
def moveAsOk {α : Type} : BocExec α → BocExec α
  | .error (.status _) => .error .abort
  | run => run

/-- An error status printed into the status of the caller. -/
def Stop.within (context : String) : Stop BocSite → Stop BocSite
  | .status message => .status s!"{context}[Error : 0 : {message}]"
  | stop => stop

def wrapStatus {α : Type} (context : String) (run : BocExec α) : BocExec α :=
  run.mapError (Stop.within context)

/-- The check of the last four bytes, stored in little-endian order. -/
def checkCrc (lib : CellLib) (data : Slice) : BocExec Unit := do
  let crcComputed := (lib.crc32c (data.mem.take (data.len - 4))).toNat
  let stored ← readBytes (data.mem.drop (data.len - 4)) 4
  let crcStored := beValue stored.reverse
  if crcComputed ≠ crcStored then
    throw (.status
      s!"bag-of-cells CRC32C mismatch: expected {asHex crcComputed}, found {asHex crcStored}")

/-- `if (cnt < 2) cnt++` on a cache counter. -/
def bumpCache (cellShouldCache : List Nat) (idx : Int) : BocExec (List Nat) := do
  let cnt ← vecGet .cellShouldCache cellShouldCache idx
  if cnt < 2 then vecSet .cellShouldCache cellShouldCache idx (cnt + 1)
  else return cellShouldCache

def Info.readRoot (info : Info) (rootsPtr : List UInt8) (i : Nat) : BocExec Int := do
  if info.hasRoots then
    let value ← info.readRef (rootsPtr.drop (i * info.refByteSize))
    return asInt32 value
  else return 0

namespace MyBagOfCells

def readRoots (info : Info) (data : Slice) : BagExec (List Nat) := do
  let cellCount := info.cellCount.toNat
  modify fun bag => { bag with roots := List.replicate info.rootCount.toNat RootInfo.fresh }
  let roots ← liftExec (data.substr info.rootsOffset)
  let cache := if info.hasCacheBits then List.replicate cellCount 0 else []
  forRange 0 info.rootCount.toNat cache fun i cellShouldCache => do
    let idx ← liftExec (info.readRoot roots.mem i)
    if idx < 0 ∨ idx ≥ info.cellCount then
      throw (.status s!"bag-of-cells invalid root index {idx}")
    let bag ← get
    let root ← liftExec (vecGet .roots bag.roots i)
    let roots ← liftExec (vecSet .roots bag.roots i { root with idx })
    modify fun bag => { bag with roots }
    if info.hasCacheBits then liftExec (bumpCache cellShouldCache idx)
    else return cellShouldCache

/-- The index section, or the index computed by walking over the records. -/
def buildIndex (info : Info) (data : Slice) : BagExec Unit := do
  if info.hasIndex then
    let index ← liftExec (data.substr info.indexOffset)
    modify fun bag => { bag with indexPtr := some index.mem }
  else
    modify fun bag => { bag with indexPtr := none }
    let cells ← liftExec (data.substrUpTo info.dataOffset info.dataSize)
    let _ ← forRange 0 info.cellCount.toNat (cells, 0) fun i (cells, cur) => do
      let cellInfo ← liftExec (wrapStatus
        s!"invalid bag-of-cells failed to deserialize cell #{i} "
        (CellSerializationInfo.init cells info.refByteSize))
      let cells ← liftExec (cells.substr cellInfo.endOffset)
      let cur := cur + cellInfo.endOffset
      modify fun bag => { bag with customIndex := bag.customIndex ++ [cur] }
      return (cells, cur)

/-- `i ? custom_index[i - 1] : 0`. -/
def recordStart (bag : MyBagOfCells) (i : Nat) : BocExec Nat :=
  if i = 0 then .ok 0 else vecGet .customIndex bag.customIndex (i - 1 : Nat)

def addInterval (bag : MyBagOfCells) (cellsSlice : Slice) (i : Nat) :
    List (Nat × Nat) × Nat → BocExec (List (Nat × Nat) × Nat)
  | (intervals, currentCellDataOffset) => do
      let start ← bag.recordStart i
      let record ← cellsSlice.substr start
      let dataLen ← CellSerializationInfo.dataLenAfterInit record bag.info.refByteSize
      let cellDataEnd := currentCellDataOffset + dataLen
      return (intervals ++ [(currentCellDataOffset, cellDataEnd)], cellDataEnd)

def cellDataIntervals (bag : MyBagOfCells) (cellsSlice : Slice) :
    BocExec (List (Nat × Nat)) := do
  let (intervals, _) ← forRange 0 bag.info.cellCount.toNat ([], 0) (bag.addInterval cellsSlice)
  return intervals

/-- The loop of `deserialize_cell` over the references of a cell. -/
def collectRefs (bag : MyBagOfCells) (idxMap : List Int) (idx : Int) (cellSlice : Slice)
    (cellInfo : CellSerializationInfo) (cellsSpan : List DataCell) (cellShouldCache : List Nat) :
    BocExec (List DataCell × List Nat) :=
  forRange 0 cellInfo.refsCnt ([], cellShouldCache) fun k (refs, cellShouldCache) => do
    let refIdx ← bag.readRefIdx cellSlice cellInfo k
    let mapped ← vecGet .idxMap idxMap refIdx
    if mapped = -1 then
      throw (.status <| s!"bag-of-cells error: reference #{k} of cell #{idx} is to cell " ++
        s!"#{refIdx} which does not appear earlier in topological order")
    if refIdx ≥ bag.cellCount then
      throw (.status <| s!"bag-of-cells error: reference #{k} of cell #{idx} is to " ++
        s!"non-existent cell #{refIdx}, only {bag.cellCount} cells are defined")
    let cell ← vecGet .cellsSpan cellsSpan mapped
    let cellShouldCache ←
      if bag.info.hasCacheBits then bumpCache cellShouldCache refIdx else pure cellShouldCache
    return (refs ++ [cell], cellShouldCache)

def deserializeCell (lib : CellLib) (bag : MyBagOfCells) (idxMap : List Int) (idx : Int)
    (cellsSlice dataSlice : Slice) (cellDataOffset : Nat) (cellsSpan : List DataCell)
    (cellShouldCache : List Nat) : BocExec (DataCell × List Nat) := do
  let (cellSlice, cellInfo) ← bag.readCellRecord idx cellsSlice
  let (refs, cellShouldCache) ←
    bag.collectRefs idxMap idx cellSlice cellInfo cellsSpan cellShouldCache
  let cell ← cellInfo.createDataCell lib cellSlice dataSlice cellDataOffset refs
  return (cell, cellShouldCache)

structure RebuildVars where
  idxMap : List Int
  cellList : List DataCell
  cellShouldCache : List Nat

/-- `for (auto &&idx : topol_order)`. -/
def rebuildLoop (lib : CellLib) (bag : MyBagOfCells) (cellsSlice dataSlice : Slice)
    (intervals : List (Nat × Nat)) (topolOrder : List Int) (vars : RebuildVars) :
    BocExec RebuildVars :=
  forEach topolOrder vars fun idx vars => do
    let interval ← vecGet .cellDataInterval intervals idx
    let (cell, cellShouldCache) ← wrapStatus
      s!"invalid bag-of-cells failed to deserialize cell #{idx} "
      (bag.deserializeCell lib vars.idxMap idx cellsSlice dataSlice interval.1 vars.cellList
        vars.cellShouldCache)
    let idxMap ← vecSet .idxMap vars.idxMap idx vars.cellList.length
    return ⟨idxMap, vars.cellList ++ [cell], cellShouldCache⟩

def checkCacheFlags (bag : MyBagOfCells) (cellShouldCache : List Nat) : BocExec Unit := do
  if bag.info.hasCacheBits then
    forRange 0 bag.cellCount.toNat () fun idx _ => do
      let count ← vecGet .cellShouldCache cellShouldCache idx
      let shouldCache := decide (count > 1)
      let storedShouldCache ← bag.getCacheEntry idx
      if shouldCache ≠ storedShouldCache then
        throw (.status
          s!"invalid bag-of-cells cell #{idx} has wrong cache flag {storedShouldCache}")

/-- From the index to the check of the cache flags. -/
def rebuildCells (lib : CellLib) (bag : MyBagOfCells) (data : Slice)
    (cellShouldCache : List Nat) : BocExec RebuildVars := do
  let cellCount := bag.cellCount.toNat
  -- `custom_index.back()`, also where the index came from the file
  let metaLen ← match bag.customIndex.getLast? with
    | some last => pure last
    | none => throw (.outOfRange .customIndex)
  let metaEnd := bag.info.dataOffset + metaLen
  let cellsSlice ← data.substrUpTo bag.info.dataOffset metaLen
  let dataSlice ← data.substrUpTo metaEnd
    ((bag.info.dataOffset + bag.info.dataSize + 2 ^ 64 - metaEnd) % 2 ^ 64)
  let topolOrder ← moveAsOk (bag.getTopolOrder cellsSlice cellCount)
  let intervals ← bag.cellDataIntervals cellsSlice
  let vars ← bag.rebuildLoop lib cellsSlice dataSlice intervals topolOrder
    ⟨List.replicate cellCount (-1), [], cellShouldCache⟩
  bag.checkCacheFlags vars.cellShouldCache
  return vars

/-- `root_info.cell = cell_list[idx_map[root_info.idx]]`. -/
def lookUpRoot (vars : RebuildVars) (root : RootInfo) : BocExec RootInfo := do
  let mapped ← vecGet .idxMap vars.idxMap root.idx
  let cell ← vecGet .cellList vars.cellList mapped
  return { root with cell := some cell }

def lookUpRoots (roots : List RootInfo) (vars : RebuildVars) : BocExec (List RootInfo) :=
  roots.mapM (lookUpRoot vars)

/-- `deserialize` from the index on. -/
def deserializeCells (lib : CellLib) (info : Info) (data : Slice) (sizeEst : Int)
    (cellShouldCache : List Nat) : BagExec Int := do
  buildIndex info data
  let bag ← get
  let vars ← liftExec (bag.rebuildCells lib data cellShouldCache)
  modify fun bag => { bag with
    customIndex := []
    indexPtr := none
    rootCount := info.rootCount
    dangleCount := info.absentCount }
  let roots ← liftExec (lookUpRoots bag.roots vars)
  modify fun bag => { bag with roots }
  return sizeEst

def deserialize (lib : CellLib) (data : Slice) (maxRoots : Int) : BagExec Int := do
  modify clear
  let bag ← get
  let (sizeEst, info) ← liftExec (bag.info.parseSerializedHeader data)
  modify fun bag => { bag with info }
  if sizeEst = 0 then
    throw (.status
      s!"cannot deserialize bag-of-cells: invalid header, error {sizeEst}")
  if sizeEst < 0 then return sizeEst
  if sizeEst > data.len then return -sizeEst
  if info.rootCount > maxRoots then
    throw (.status "Bag-of-cells has more root cells than expected")
  if info.hasCrc32c then liftExec (checkCrc lib data)
  modify fun bag => { bag with cellCount := info.cellCount }
  let cellShouldCache ← readRoots info data
  deserializeCells lib info data sizeEst cellShouldCache

def getRootCell (bag : MyBagOfCells) (idx : Int) : BocExec (Option DataCell) :=
  if 0 ≤ idx ∧ idx < bag.rootCount then
    match bag.roots[idx.toNat]? with
    | some root => .ok root.cell
    | none => .error .abort
  else .ok none

end MyBagOfCells

def myStdBocDeserialize (lib : CellLib) (data : Slice) (canBeEmpty allowNonzeroLevel : Bool) :
    BocExec (Option DataCell) := do
  if data.len = 0 ∧ canBeEmpty then return none
  let (res, boc) := MyBagOfCells.deserialize lib data 1 .fresh
  let _ ← res
  if boc.rootCount ≠ 1 then
    throw (.status "bag of cells is expected to have exactly one root")
  match ← boc.getRootCell 0 with
  | none => throw (.status "bag of cells has null root cell (?)")
  | some root =>
      if !allowNonzeroLevel && getLevel root.levelMask ≠ 0 then
        throw (.status "bag of cells has a root with non-zero level")
      return some root

end TonCompress.Boc
