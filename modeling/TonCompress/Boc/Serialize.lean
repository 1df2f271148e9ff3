import TonCompress.Boc.Bag
import TonCompress.Evolve.Gene

/-! The writer of the two-section layout, and the renumbering before it. -/
namespace TonCompress.Boc
open TonCompress.Lib

/-- `vm::boc_writers::BufferWriter`: the bytes stored so far, and the room that
the buffer has for all of them. -/
structure BufferWriter where
  stored : List UInt8
  room : Nat
  deriving DecidableEq, Repr

def BufferWriter.position (writer : BufferWriter) : Nat := writer.stored.length

def BufferWriter.storeBytes (writer : BufferWriter) (bytes : List UInt8) :
    BocExec BufferWriter :=
  if writer.stored.length + bytes.length ≤ writer.room then
    .ok { writer with stored := writer.stored ++ bytes }
  else .error (.outOfRange .output)

def BufferWriter.storeUint (writer : BufferWriter) (value bytes : Nat) : BocExec BufferWriter :=
  writer.storeBytes (beBytes value bytes)

def withIndex (mode : Nat) : Bool := mode.testBit 0
def withCrc32c (mode : Nat) : Bool := mode.testBit 1
def withTopHash (mode : Nat) : Bool := mode.testBit 2
def withIntHashes (mode : Nat) : Bool := mode.testBit 3
def withCacheBits (mode : Nat) : Bool := mode.testBit 4

/-- `while (value >= (1 << (n << 3))) n++`. No value of 64 bits needs a ninth
round. -/
def countBytes (value : Nat) : Nat → Nat → Nat
  | 0, n => n
  | fuel + 1, n => if 256 ^ n ≤ value then countBytes value fuel (n + 1) else n

def CellInfo.withHash (dcInfo : CellInfo) (mode : Nat) : Bool :=
  (withIntHashes mode && dcInfo.wt == 0) || (dcInfo.isRootCell && withTopHash mode)

namespace MyBagOfCells

def countedHashes (bag : MyBagOfCells) (mode : Nat) : Int :=
  (if withTopHash mode then bag.topHashes else 0) +
    (if withIntHashes mode then bag.intHashes else 0)

/-- The adjusted data size, and the widths of references and offsets. The product for the
hashes is one of `int`s, and is widened only then; the sums are taken in 64 bits. -/
def computeSizes (bag : MyBagOfCells) (mode : Nat) : Nat × Nat × Nat :=
  if bag.rootCount = 0 ∨ bag.dataBytes = 0 then (0, 0, 0)
  else
    let rs := countBytes bag.cellCount.toNat 9 0
    let hashes := (bag.countedHashes mode * (hashBytes + depthBytes)).bmod (2 ^ 32)
    let dataBytesAdj := asUint64 (bag.dataBytes + bag.intRefs * rs + hashes)
    let maxOffset := if withCacheBits mode then dataBytesAdj * 2 % 2 ^ 64 else dataBytesAdj
    let os := countBytes maxOffset 9 0
    if rs > 4 ∨ os > 8 then (0, 0, 0) else (dataBytesAdj, rs, os)

/-- `estimate_serialized_size`: the size, zero when there is none, and the bag
with its header filled in. -/
def estimateSerializedSize (bag : MyBagOfCells) (mode : Nat) : Nat × MyBagOfCells :=
  if withCacheBits mode ∧ ¬ withIndex mode then
    (0, { bag with info := { bag.info with valid := false } })
  else
    let (dataBytesAdj, refByteSize, offsetByteSize) := bag.computeSizes mode
    if dataBytesAdj = 0 then
      (0, { bag with info := { bag.info with refByteSize, offsetByteSize, valid := false } })
    else
      let crcSize := if withCrc32c mode then 4 else 0
      let rootsOffset := 4 + 1 + 1 + 3 * refByteSize + offsetByteSize
      let indexOffset := rootsOffset + bag.rootCount.toNat * refByteSize
      let dataOffset := indexOffset +
        if withIndex mode then bag.cellCount.toNat * offsetByteSize else 0
      let totalSize := (dataOffset + dataBytesAdj + crcSize) % 2 ^ 64
      (totalSize, { bag with info := { bag.info with
        magic := bocGeneric
        rootCount := bag.rootCount
        cellCount := bag.cellCount
        absentCount := bag.dangleCount
        refByteSize
        offsetByteSize
        valid := true
        hasIndex := withIndex mode
        hasCrc32c := withCrc32c mode
        hasCacheBits := withCacheBits mode
        rootsOffset
        indexOffset
        dataOffset
        dataSize := dataBytesAdj
        totalSize } })

def flagByte (info : Info) : Nat :=
  (if info.hasIndex then 128 else 0) + (if info.hasCrc32c then 64 else 0) +
    (if info.hasCacheBits then 32 else 0) + info.refByteSize

def storeIndex (bag : MyBagOfCells) (mode : Nat) (writer : BufferWriter) :
    BocExec BufferWriter := do
  let (writer, _) ← forRange 0 bag.cellCount.toNat (writer, 0) fun i (writer, offs) => do
    let dcInfo ← vecGet .cellList bag.cellList (bag.cellCount - 1 - i)
    let offs := offs + dcInfo.dcRef.getSerializedSize (dcInfo.withHash mode) +
      dcInfo.dcRef.refs.length * bag.info.refByteSize
    let fixedOffset :=
      if bag.info.hasCacheBits then offs * 2 + dcInfo.shouldCache.toNat else offs
    let writer ← writer.storeUint fixedOffset bag.info.offsetByteSize
    return (writer, offs)
  return writer

def storeCellMeta (bag : MyBagOfCells) (mode i : Nat) (writer : BufferWriter) :
    BocExec BufferWriter := do
  let dcInfo ← vecGet .cellList bag.cellList (bag.cellCount - 1 - i)
  let writer ← writer.storeBytes (dcInfo.dcRef.getFirstTwoMeta (dcInfo.withHash mode))
  forEach dcInfo.refIdx writer fun refIdx writer =>
    writer.storeUint (bag.cellCount - 1 - refIdx).toNat bag.info.refByteSize

/-- `serialize_to_impl_only_meta`, whose early return leaves the writer as it is. -/
def serializeToImplOnlyMeta (lib : CellLib) (bag : MyBagOfCells) (mode : Nat)
    (writer : BufferWriter) : BocExec BufferWriter := do
  let writer ← writer.storeUint bag.info.magic 4
  if bag.info.refByteSize < 1 ∨ bag.info.refByteSize > 7 then return writer
  let writer ← writer.storeUint (flagByte bag.info) 1
  let writer ← writer.storeUint bag.info.offsetByteSize 1
  let writer ← writer.storeUint bag.cellCount.toNat bag.info.refByteSize
  let writer ← writer.storeUint bag.rootCount.toNat bag.info.refByteSize
  let writer ← writer.storeUint 0 bag.info.refByteSize
  let writer ← writer.storeUint bag.info.dataSize bag.info.offsetByteSize
  let writer ← forEach bag.roots writer fun root writer =>
    writer.storeUint (bag.cellCount - 1 - root.idx).toNat bag.info.refByteSize
  let writer ← if bag.info.hasIndex then bag.storeIndex mode writer else pure writer
  let writer ← forRange 0 bag.cellCount.toNat writer (bag.storeCellMeta mode)
  if bag.info.hasCrc32c then
    -- `store_uint` of the byte-swapped checksum of what is stored so far
    writer.storeBytes (beBytes (lib.crc32c writer.stored).toNat 4).reverse
  else return writer

def storeCellData (lib : CellLib) (bag : MyBagOfCells) (mode i : Nat) (writer : BufferWriter) :
    BocExec BufferWriter := do
  let dcInfo ← vecGet .cellList bag.cellList (bag.cellCount - 1 - i)
  let (s, buf) := dcInfo.dcRef.serialize lib (List.replicate 256 0) (dcInfo.withHash mode) false
  writer.storeBytes (buf.take s)

def serializeToImplOnlyData (lib : CellLib) (bag : MyBagOfCells) (mode : Nat)
    (writer : BufferWriter) : BocExec BufferWriter :=
  forRange 0 bag.cellCount.toNat writer (bag.storeCellData lib mode)

/-- `serialize_to_slice`, with `serialize_to` in its place. The second estimate
repeats the first. -/
def serializeToSlice (lib : CellLib) (bag : MyBagOfCells) (mode : Nat) :
    BocExec (List UInt8) := do
  let (sizeEst, bag) := bag.estimateSerializedSize mode
  if sizeEst = 0 then throw (.status "no cells to serialize to this bag of cells")
  let (sizeEst, bag) := bag.estimateSerializedSize mode
  let writer ← bag.serializeToImplOnlyMeta lib mode ⟨[], sizeEst⟩
  let writer ← bag.serializeToImplOnlyData lib mode writer
  if writer.position = sizeEst then return writer.stored
  else
    throw (.status <| "error while serializing a bag of cells: actual " ++
      "serialized size differs from estimated")

/-- `gene.apply(perm)` on the identity of `n` cells. -/
def appliedPerm (gene : Evolve.Gene) (n : Nat) : List Int :=
  if gene.perm.isEmpty then (List.range n).map Int.ofNat else gene.perm

def renumberCells (perm : List Int) (cellCount : Nat) (cellList : List CellInfo) :
    BocExec (List CellInfo) := do
  let cellList ← forRange 0 cellCount cellList fun i cellList => do
    let cell ← vecGet .cellList cellList i
    let newIdx ← vecGet .perm perm i
    vecSet .cellList cellList i { cell with newIdx }
  forRange 0 cellCount cellList fun i cellList => do
    let cell ← vecGet .cellList cellList i
    let refIdx ← cell.refIdx.mapM (vecGet .perm perm)
    vecSet .cellList cellList i { cell with refIdx }

def permute (lib : CellLib) (bag : MyBagOfCells) (gene : Evolve.Gene) :
    BocExec MyBagOfCells := do
  let cellCount := bag.cellCount.toNat
  let perm := appliedPerm gene cellCount
  let cellList ← renumberCells perm cellCount bag.cellList
  let roots ← forRange 0 bag.rootCount.toNat bag.roots fun i roots => do
    let root ← vecGet .roots roots i
    let idx ← vecGet .perm perm root.idx
    vecSet .roots roots i { root with idx }
  let cellList := cellList.mergeSort fun a b => decide (a.newIdx ≤ b.newIdx)
  let cells ← forRange 0 cellCount bag.cells fun i cells => do
    let cell ← vecGet .cellList cellList i
    return (lib.getHash cell.dcRef maxLevel, (i : Int)) :: cells
  return { bag with cellList, roots, cells }

end MyBagOfCells

end TonCompress.Boc
