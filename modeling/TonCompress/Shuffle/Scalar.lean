import TonCompress.Lib.Fill
import TonCompress.Lib.DeltaSwap
import TonCompress.Lib.Transpose
import Mathlib.Data.Vector.Basic

/-! The worker routines of `bitshuffle_core.c` that need no special instruction set. -/
namespace TonCompress.Shuffle
open TonCompress.Lib

/-- The two buffers of a routine. -/
inductive Buffer where
  | input
  | output
  deriving DecidableEq, Repr

abbrev BshufExec := Exec Buffer

/-- What `malloc` gives for a number of bytes, whose contents are not set. -/
abbrev Malloc := (n : Nat) → Option (List.Vector UInt8 n)

/-- `out_b[target] = in_b[source]`. -/
def moveByte (src : List UInt8) (target source : Nat) (out : List UInt8) :
    BshufExec (List UInt8) := do
  let byte ← vecGet .input src source
  vecSet .output out target byte

def memcpy (src : List UInt8) (target source count : Nat) (out : List UInt8) :
    BshufExec (List UInt8) :=
  forRange 0 count out fun b => moveByte src (target + b) (source + b)

section words

def transBit8x8 (x : BitVec 64) : BitVec 64 :=
  let t := (x ^^^ (x >>> 7)) &&& 0x00AA00AA00AA00AA#64
  let x := x ^^^ t ^^^ (t <<< 7)
  let t := (x ^^^ (x >>> 14)) &&& 0x0000CCCC0000CCCC#64
  let x := x ^^^ t ^^^ (t <<< 14)
  let t := (x ^^^ (x >>> 28)) &&& 0x00000000F0F0F0F0#64
  x ^^^ t ^^^ (t <<< 28)

def transBit8x8BE (x : BitVec 64) : BitVec 64 :=
  let t := (x ^^^ (x >>> 9)) &&& 0x0055005500550055#64
  let x := x ^^^ t ^^^ (t <<< 9)
  let t := (x ^^^ (x >>> 18)) &&& 0x0000333300003333#64
  let x := x ^^^ t ^^^ (t <<< 18)
  let t := (x ^^^ (x >>> 36)) &&& 0x000000000F0F0F0F#64
  x ^^^ t ^^^ (t <<< 36)

def wordOf (bytes : List UInt8) : BitVec 64 :=
  bytes.foldr (fun byte x => (x <<< 8) ||| byte.toBitVec.setWidth 64) 0

/-- A `uint64_t` read at a byte offset, in the byte order of the machine. -/
def loadWord (littleEndian : Bool) (src : List UInt8) (i : Nat) : BshufExec (BitVec 64) :=
  if i + 8 ≤ src.length then
    let bytes := (src.drop i).take 8
    .ok (wordOf (if littleEndian then bytes else bytes.reverse))
  else .error (.outOfRange .input)

/-- Stores the bytes of `x`, the low one first, at `index 0`, ..., `index 7`. -/
def scatterWord (index : Nat → Int) (x : BitVec 64) (out : List UInt8) :
    BshufExec (List UInt8) := do
  let last ← forRange 0 8 (out, x) fun kk vars => do
    let out ← vecSet .output vars.1 (index kk) (UInt8.ofBitVec (vars.2.setWidth 8))
    return (out, vars.2 >>> 8)
  return last.1

def transWord (littleEndian : Bool) (src : List UInt8) (source : Nat) (index : Nat → Int)
    (out : List UInt8) : BshufExec (List UInt8) := do
  let x ← loadWord littleEndian src source
  scatterWord index (if littleEndian then transBit8x8 x else transBit8x8BE x) out

end words

def bshufCopy (src out : List UInt8) (size elemSize : Nat) : BshufExec (Int × List UInt8) := do
  let out ← memcpy src 0 0 (size * elemSize) out
  return (size * elemSize, out)

def transByteElemRemainder (src out : List UInt8) (size elemSize start : Nat) :
    BshufExec (Int × List UInt8) :=
  if start % 8 ≠ 0 then return (-80, out)
  else if size > start then do
    let out ← forStep 8 start size out fun ii out =>
      forRange 0 elemSize out fun jj out =>
        forRange 0 8 out fun kk =>
          moveByte src (jj * size + ii + kk) (ii * elemSize + kk * elemSize + jj)
    let out ← forRange (size - size % 8) size out fun ii out =>
      forRange 0 elemSize out fun jj => moveByte src (jj * size + ii) (ii * elemSize + jj)
    return (size * elemSize, out)
  else return (size * elemSize, out)

def transByteElemScal (src out : List UInt8) (size elemSize : Nat) :
    BshufExec (Int × List UInt8) :=
  transByteElemRemainder src out size elemSize 0

section byteOrder
variable (littleEndian : Bool)

/-- `bshuf_trans_bit_byte_remainder`. The index is the sum modulo `2 ^ 64` of the source,
whose `bit_row_skip` is negative on a big-endian machine. -/
def transBitByteRemainder (src out : List UInt8) (size elemSize startByte : Nat) :
    BshufExec (Int × List UInt8) :=
  let nbyte := elemSize * size
  let nbyteBitrow := nbyte / 8
  let bitRowSkip : Int := if littleEndian then nbyteBitrow else -nbyteBitrow
  let bitRowOffset : Int := if littleEndian then 0 else 7 * nbyteBitrow
  if nbyte % 8 ≠ 0 then return (-80, out)
  else if startByte % 8 ≠ 0 then return (-80, out)
  else do
    let out ← forRange (startByte / 8) nbyteBitrow out fun ii =>
      transWord littleEndian src (8 * ii) fun kk => bitRowOffset + kk * bitRowSkip + ii
    return (size * elemSize, out)

def transBitByteScal (src out : List UInt8) (size elemSize : Nat) : BshufExec (Int × List UInt8) :=
  transBitByteRemainder littleEndian src out size elemSize 0

def transElem (src out : List UInt8) (lda ldb elemSize : Nat) : BshufExec (Int × List UInt8) := do
  let out ← forRange 0 lda out fun ii out =>
    forRange 0 ldb out fun jj =>
      memcpy src ((jj * lda + ii) * elemSize) ((ii * ldb + jj) * elemSize) elemSize
  return (lda * ldb * elemSize, out)

def transBitrowEight (src out : List UInt8) (size elemSize : Nat) : BshufExec (Int × List UInt8) :=
  if size % 8 ≠ 0 then return (-80, out) else transElem src out 8 elemSize (size / 8)

def transBitElemScal (malloc : Malloc) (src out : List UInt8) (size elemSize : Nat) :
    BshufExec (Int × List UInt8) :=
  if size % 8 ≠ 0 then return (-80, out)
  else match malloc (size * elemSize) with
    | none => return (-1, out)
    | some tmpBuf => do
        let bytes ← transByteElemScal src out size elemSize
        if bytes.1 < 0 then return bytes
        else do
          let bits ← transBitByteScal littleEndian bytes.2 tmpBuf.toList size elemSize
          if bits.1 < 0 then return (bits.1, bytes.2)
          else transBitrowEight bits.2 bytes.2 size elemSize

def transByteBitrowScal (src out : List UInt8) (size elemSize : Nat) :
    BshufExec (Int × List UInt8) :=
  let nbyteRow := size / 8
  if size % 8 ≠ 0 then return (-80, out)
  else do
    let out ← forRange 0 elemSize out fun jj out =>
      forRange 0 nbyteRow out fun ii out =>
        forRange 0 8 out fun kk =>
          moveByte src (ii * 8 * elemSize + jj * 8 + kk) ((jj * 8 + kk) * nbyteRow + ii)
    return (size * elemSize, out)

def shuffleBitEightelemScal (src out : List UInt8) (size elemSize : Nat) :
    BshufExec (Int × List UInt8) :=
  let elemSkip : Int := if littleEndian then elemSize else -elemSize
  let elemOffset : Int := if littleEndian then 0 else 7 * elemSize
  let nbyte := elemSize * size
  if size % 8 ≠ 0 then return (-80, out)
  else do
    let out ← forStep 8 0 (8 * elemSize) out fun jj out =>
      forStep (8 * elemSize) 0 nbyte out fun ii =>
        transWord littleEndian src (ii + jj) fun kk =>
          (ii + jj / 8 : Nat) + elemOffset + kk * elemSkip
    return (size * elemSize, out)

def untransBitElemScal (malloc : Malloc) (src out : List UInt8) (size elemSize : Nat) :
    BshufExec (Int × List UInt8) :=
  if size % 8 ≠ 0 then return (-80, out)
  else match malloc (size * elemSize) with
    | none => return (-1, out)
    | some tmpBuf => do
        let rows ← transByteBitrowScal src tmpBuf.toList size elemSize
        if rows.1 < 0 then return (rows.1, out)
        else shuffleBitEightelemScal littleEndian rows.2 out size elemSize

end byteOrder

end TonCompress.Shuffle
