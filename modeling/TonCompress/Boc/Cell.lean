import TonCompress.Boc.Bytes

/-! Cells, their two-section encoding and its reader. The cell library is not
part of the program: what it computes is a parameter. -/
namespace TonCompress.Boc
open TonCompress.Lib

structure DataCell where
  bits : Nat
  data : List UInt8
  refs : List DataCell
  isSpecial : Bool
  levelMask : Nat

/-- The calls into the cell library: `crc32c`, the builder's
`finalize_novm_nothrow` on the stored bits and references, and the hash and
depth of a cell at a level. -/
structure CellLib where
  crc32c : List UInt8 → UInt32
  finalizeNovmNothrow : List Bool → List DataCell → Bool → Except String DataCell
  getHash : DataCell → Nat → List UInt8
  getDepth : DataCell → Nat → Nat

def hashBytes : Nat := 32
def depthBytes : Nat := 2
def maxLevel : Nat := 3

def getLevel (mask : Nat) : Nat := if mask = 0 then 0 else mask.log2 + 1

def getHashesCount (mask : Nat) : Nat := (List.range 32).countP mask.testBit + 1

def isSignificant (mask level : Nat) : Bool := level == 0 || mask.testBit (level - 1)

def DataCell.bitString (cell : DataCell) : List Bool := (bitsOf cell.data).take cell.bits

def DataCell.d1 (cell : DataCell) : UInt8 :=
  UInt8.ofNat (cell.refs.length + 8 * cell.isSpecial.toNat + 32 * cell.levelMask)

def DataCell.d2 (cell : DataCell) : UInt8 :=
  let res := UInt8.ofNat (cell.bits / 8 * 2)
  if cell.bits % 8 ≠ 0 then res + 1 else res

def DataCell.getSerializedSize (cell : DataCell) (withHashes : Bool) : Nat :=
  (cell.bits + 23) / 8 +
    if withHashes then getHashesCount cell.levelMask * (hashBytes + depthBytes) else 0

def DataCell.getFirstTwoMeta (cell : DataCell) (withHashes : Bool) : List UInt8 :=
  [cell.d1 ||| UInt8.ofNat (withHashes.toNat * 16), cell.d2]

/-- `memcpy(buff + offset, bytes, bytes.size())`. -/
def writeAt (buff : List UInt8) (offset : Nat) (bytes : List UInt8) : List UInt8 :=
  buff.take offset ++ bytes ++ buff.drop (offset + bytes.length)

def DataCell.hashesAndDepths (lib : CellLib) (cell : DataCell) : List UInt8 :=
  let levels := (List.range (getLevel cell.levelMask + 1)).filter (isSignificant cell.levelMask)
  levels.flatMap (lib.getHash cell) ++
    levels.flatMap fun level => beBytes (lib.getDepth cell level) depthBytes

/-- `MyDataCell::serialize` into a scratch buffer: the returned length and the
buffer afterwards. The hashes go behind two bytes in both layouts, the data
directly behind as many bytes as the hashes take, plus two with `withMeta`. -/
def DataCell.serialize (lib : CellLib) (cell : DataCell) (buff : List UInt8)
    (withHashes withMeta : Bool) : Nat × List UInt8 :=
  let len := cell.getSerializedSize withHashes
  if len > buff.length then (0, buff)
  else
    let buff := if withMeta then writeAt buff 0 (cell.getFirstTwoMeta withHashes) else buff
    let hs := if withHashes then getHashesCount cell.levelMask * (hashBytes + depthBytes) else 0
    let buff :=
      if withHashes then
        writeAt (writeAt buff 2 (List.replicate hs 0)) 2 (cell.hashesAndDepths lib)
      else buff
    let start := if withMeta then 2 else 0
    let buff := writeAt buff (hs + start) (cell.data.take (len - hs - 2))
    (len - hs - (2 - start) + hs, buff)

/-- The fields of `CellSerializationInfo` that are read. -/
structure CellSerializationInfo where
  special : Bool
  levelMask : Nat
  withHashes : Bool
  hashesOffset : Nat
  depthOffset : Nat
  dataLen : Nat
  dataWithBits : Bool
  refsOffset : Nat
  refsCnt : Nat
  endOffset : Nat
  deriving DecidableEq, Repr

/-- `init(d1, d2, ref_byte_size)`. -/
def CellSerializationInfo.initBytes (d1 d2 : UInt8) (refByteSize : Nat) :
    BocExec CellSerializationInfo :=
  let refsCnt := d1.toNat % 8
  let levelMask := d1.toNat / 32
  let withHashes := d1.toNat.testBit 4
  if refsCnt > 4 then
    if refsCnt ≠ 7 ∨ ¬ withHashes then .error (.status "Invalid first byte")
    else .error (.status "TODO: absent cells")
  else
    let n := getHashesCount levelMask
    let depthOffset := 2 + if withHashes then n * hashBytes else 0
    let refsOffset := depthOffset + if withHashes then n * depthBytes else 0
    .ok {
      special := d1.toNat.testBit 3
      levelMask
      withHashes
      hashesOffset := 2
      depthOffset
      dataLen := d2.toNat / 2 + d2.toNat % 2
      dataWithBits := d2.toNat.testBit 0
      refsOffset
      refsCnt
      endOffset := refsOffset + refsCnt * refByteSize
    }

/-- `init(data, ref_byte_size)`. -/
def CellSerializationInfo.init (data : Slice) (refByteSize : Nat) :
    BocExec CellSerializationInfo := do
  if data.len < 2 then
    throw (.status s!"Not enough bytes [got:{data.len}][expected:at least 2]")
  let d1 ← readByte data.mem 0
  let d2 ← readByte data.mem 1
  let cellInfo ← initBytes d1 d2 refByteSize
  if data.len < cellInfo.endOffset then
    throw (.status s!"Not enough bytes [got:{data.len}][expected:{cellInfo.endOffset}]")
  return cellInfo

/-- The field `data_len` after a call of `init` whose status is dropped. -/
def CellSerializationInfo.dataLenAfterInit (data : Slice) (refByteSize : Nat) :
    BocExec Nat := do
  if data.len < 2 then throw .uninitialised
  let d1 ← readByte data.mem 0
  let d2 ← readByte data.mem 1
  match initBytes d1 d2 refByteSize with
  | .ok cellInfo => return cellInfo.dataLen
  | .error _ => throw .uninitialised

/-- `count_trailing_zeroes_non_zero32`, on a byte. -/
def countTrailingZeroes (value : Nat) : Nat :=
  ((List.range 8).find? value.testBit).getD 8

/-- `get_bits`. The last byte is read without a check against the slice. -/
def CellSerializationInfo.getBits (cellInfo : CellSerializationInfo) (data : Slice) :
    BocExec Nat := do
  if cellInfo.dataWithBits then
    let last ← readByte data.mem (cellInfo.dataLen - 1)
    if last.toNat % 128 = 0 then throw (.status "overlong encoding")
    return (cellInfo.dataLen - 1) * 8 + 7 - countTrailingZeroes last.toNat
  else
    return cellInfo.dataLen * 8

/-- `CellBuilder::store_bits` from a pointer. -/
def loadBits (ptr : List UInt8) (bits : Nat) : BocExec (List Bool) := do
  let bytes ← readBytes ptr ((bits + 7) / 8)
  return (bitsOf bytes).take bits

def CellSerializationInfo.checkHashes (lib : CellLib) (cellInfo : CellSerializationInfo)
    (cellSlice : Slice) (res : DataCell) : BocExec Unit := do
  let hashAt (i : Nat) : BocExec (List UInt8) := do
    let slice ← cellSlice.substrUpTo (cellInfo.hashesOffset + hashBytes * i) hashBytes
    readBytes slice.mem slice.len
  let depthAt (i : Nat) : BocExec Nat := do
    let slice ← cellSlice.substrUpTo (cellInfo.depthOffset + depthBytes * i) depthBytes
    readInt slice.mem depthBytes
  let hashN := getHashesCount cellInfo.levelMask
  let stored ← hashAt (hashN - 1)
  if lib.getHash res maxLevel ≠ stored then throw (.status "representation hash mismatch")
  let stored ← depthAt (hashN - 1)
  if lib.getDepth res maxLevel ≠ stored then throw (.status "depth mismatch")
  let _ ← forRange 0 (getLevel cellInfo.levelMask) 0 fun level hashI => do
    if !isSignificant cellInfo.levelMask level then return hashI
    let stored ← hashAt hashI
    if stored ≠ lib.getHash res level then throw (.status "lower hash mismatch")
    let stored ← depthAt hashI
    if lib.getDepth res level ≠ stored then throw (.status "lower depth mismatch")
    return hashI + 1

def CellSerializationInfo.createDataCell (lib : CellLib) (cellInfo : CellSerializationInfo)
    (cellSlice dataSlice : Slice) (cellDataOffset : Nat) (refs : List DataCell) :
    BocExec DataCell := do
  let data ← dataSlice.substr cellDataOffset
  let bits ← cellInfo.getBits data
  let bitString ← loadBits data.mem bits
  match lib.finalizeNovmNothrow bitString refs cellInfo.special with
  | .error message => throw (.status message)
  | .ok res =>
      if res.isSpecial ≠ cellInfo.special then throw (.status "is_special mismatch")
      if res.levelMask ≠ cellInfo.levelMask then throw (.status "level mask mismatch")
      if cellInfo.withHashes then cellInfo.checkHashes lib cellSlice res
      return res

end TonCompress.Boc
