import TonCompress.Shuffle.Scalar

/-! The worker routines of `bitshuffle_core.c` that use SSE2. -/
namespace TonCompress.Shuffle
open TonCompress.Lib

/-- The sixteen lanes of a register, the low one first; of bytes in an `__m128i`. -/
abbrev Lanes (α : Type) := Fin 16 → α

abbrev Registers (α : Type) := Nat → Lanes α

section intrinsics
variable {α : Type}

/-- Interleaves the groups of `width` lanes of `a` and `b`, from lane `half` on. -/
def interleave (width half : Nat) (a b : Lanes α) : Lanes α := fun k =>
  let group := k.val / width
  let source := Fin.ofNat 16 (half + group / 2 * width + k.val % width)
  if group % 2 = 0 then a source else b source

def unpackloEpi8 (a b : Lanes α) : Lanes α := interleave 1 0 a b
def unpackhiEpi8 (a b : Lanes α) : Lanes α := interleave 1 8 a b
def unpackloEpi16 (a b : Lanes α) : Lanes α := interleave 2 0 a b
def unpackhiEpi16 (a b : Lanes α) : Lanes α := interleave 2 8 a b
def unpackloEpi32 (a b : Lanes α) : Lanes α := interleave 4 0 a b
def unpackhiEpi32 (a b : Lanes α) : Lanes α := interleave 4 8 a b
def unpackloEpi64 (a b : Lanes α) : Lanes α := interleave 8 0 a b
def unpackhiEpi64 (a b : Lanes α) : Lanes α := interleave 8 8 a b

/-- `_mm_movemask_epi8`, the top bits of the bytes. -/
def movemaskEpi8 (x : Lanes UInt8) : Nat := Nat.ofBits fun k : Fin 16 => (x k).toNat.testBit 7

/-- `_mm_slli_epi16(x, 1)`: the top bit of a low byte moves into the high byte. -/
def slliEpi16 (x : Lanes UInt8) : Lanes UInt8 := fun k =>
  if k.val % 2 = 0 then x k <<< 1 else (x k <<< 1) ||| (x (Fin.ofNat 16 (k.val - 1)) >>> 7)

def loadRegisters (src : List UInt8) (place : Nat → Nat) (count : Nat) :
    BshufExec (Registers UInt8) :=
  if ∀ r < count, place r + 16 ≤ src.length then .ok fun r k => src.getD (place r + k.val) 0
  else .error (.outOfRange .input)

/-- Stores `count` lanes from lane `lane` on: all sixteen for `_mm_storeu_si128`, the low
half for `_mm_storel_pi` and the high half for `_mm_storeh_pi`. -/
def storeLanes (x : Lanes UInt8) (lane count place : Nat) (out : List UInt8) :
    BshufExec (List UInt8) :=
  forRange 0 count out fun b out =>
    vecSet .output out ((place + b : Nat) : Int) (x (Fin.ofNat 16 (lane + b)))

def storeRegisters (x : Registers UInt8) (place : Nat → Nat) (count : Nat) (out : List UInt8) :
    BshufExec (List UInt8) :=
  forRange 0 count out fun r => storeLanes (x r) 0 16 (place r)

def storeUint16 (value place : Nat) (out : List UInt8) : BshufExec (List UInt8) := do
  let out ← vecSet .output out place (UInt8.ofNat value)
  vecSet .output out ((place + 1 : Nat) : Int) (UInt8.ofNat (value >>> 8))

/-- The eight rounds that take the top bits of `xmm` and shift it. -/
def storeMasks (xmm : Lanes UInt8) (place : Nat → Nat) (out : List UInt8) :
    BshufExec (List UInt8) := do
  let last ← forRange 0 8 (out, xmm) fun kk vars => do
    let bt := movemaskEpi8 vars.2
    let out ← storeUint16 bt (place kk) vars.1
    return (out, slliEpi16 vars.2)
  return last.1

end intrinsics

section networks
variable {α : Type} (v : Registers α)

def network16 : Registers α :=
  let a0 := v 0
  let b0 := v 1
  let a1 := unpackloEpi8 a0 b0
  let b1 := unpackhiEpi8 a0 b0
  let a0 := unpackloEpi8 a1 b1
  let b0 := unpackhiEpi8 a1 b1
  let a1 := unpackloEpi8 a0 b0
  let b1 := unpackhiEpi8 a0 b0
  let a0 := unpackloEpi8 a1 b1
  let b0 := unpackhiEpi8 a1 b1
  fun r => [a0, b0].getD r a0

def network32 : Registers α :=
  let a0 := v 0
  let b0 := v 1
  let c0 := v 2
  let d0 := v 3
  let a1 := unpackloEpi8 a0 b0
  let b1 := unpackhiEpi8 a0 b0
  let c1 := unpackloEpi8 c0 d0
  let d1 := unpackhiEpi8 c0 d0
  let a0 := unpackloEpi8 a1 b1
  let b0 := unpackhiEpi8 a1 b1
  let c0 := unpackloEpi8 c1 d1
  let d0 := unpackhiEpi8 c1 d1
  let a1 := unpackloEpi8 a0 b0
  let b1 := unpackhiEpi8 a0 b0
  let c1 := unpackloEpi8 c0 d0
  let d1 := unpackhiEpi8 c0 d0
  let a0 := unpackloEpi64 a1 c1
  let b0 := unpackhiEpi64 a1 c1
  let c0 := unpackloEpi64 b1 d1
  let d0 := unpackhiEpi64 b1 d1
  fun r => [a0, b0, c0, d0].getD r a0

def network64 : Registers α :=
  let a0 := v 0
  let b0 := v 1
  let c0 := v 2
  let d0 := v 3
  let e0 := v 4
  let f0 := v 5
  let g0 := v 6
  let h0 := v 7
  let a1 := unpackloEpi8 a0 b0
  let b1 := unpackhiEpi8 a0 b0
  let c1 := unpackloEpi8 c0 d0
  let d1 := unpackhiEpi8 c0 d0
  let e1 := unpackloEpi8 e0 f0
  let f1 := unpackhiEpi8 e0 f0
  let g1 := unpackloEpi8 g0 h0
  let h1 := unpackhiEpi8 g0 h0
  let a0 := unpackloEpi8 a1 b1
  let b0 := unpackhiEpi8 a1 b1
  let c0 := unpackloEpi8 c1 d1
  let d0 := unpackhiEpi8 c1 d1
  let e0 := unpackloEpi8 e1 f1
  let f0 := unpackhiEpi8 e1 f1
  let g0 := unpackloEpi8 g1 h1
  let h0 := unpackhiEpi8 g1 h1
  let a1 := unpackloEpi32 a0 c0
  let b1 := unpackhiEpi32 a0 c0
  let c1 := unpackloEpi32 b0 d0
  let d1 := unpackhiEpi32 b0 d0
  let e1 := unpackloEpi32 e0 g0
  let f1 := unpackhiEpi32 e0 g0
  let g1 := unpackloEpi32 f0 h0
  let h1 := unpackhiEpi32 f0 h0
  let a0 := unpackloEpi64 a1 e1
  let b0 := unpackhiEpi64 a1 e1
  let c0 := unpackloEpi64 b1 f1
  let d0 := unpackhiEpi64 b1 f1
  let e0 := unpackloEpi64 c1 g1
  let f0 := unpackhiEpi64 c1 g1
  let g0 := unpackloEpi64 d1 h1
  let h0 := unpackhiEpi64 d1 h1
  fun r => [a0, b0, c0, d0, e0, f0, g0, h0].getD r a0

def networkBitrow : Registers α :=
  let a0 := v 0
  let b0 := v 1
  let c0 := v 2
  let d0 := v 3
  let e0 := v 4
  let f0 := v 5
  let g0 := v 6
  let h0 := v 7
  let a1 := unpackloEpi8 a0 b0
  let b1 := unpackloEpi8 c0 d0
  let c1 := unpackloEpi8 e0 f0
  let d1 := unpackloEpi8 g0 h0
  let e1 := unpackhiEpi8 a0 b0
  let f1 := unpackhiEpi8 c0 d0
  let g1 := unpackhiEpi8 e0 f0
  let h1 := unpackhiEpi8 g0 h0
  let a0 := unpackloEpi16 a1 b1
  let b0 := unpackloEpi16 c1 d1
  let c0 := unpackhiEpi16 a1 b1
  let d0 := unpackhiEpi16 c1 d1
  let e0 := unpackloEpi16 e1 f1
  let f0 := unpackloEpi16 g1 h1
  let g0 := unpackhiEpi16 e1 f1
  let h0 := unpackhiEpi16 g1 h1
  let a1 := unpackloEpi32 a0 b0
  let b1 := unpackhiEpi32 a0 b0
  let c1 := unpackloEpi32 c0 d0
  let d1 := unpackhiEpi32 c0 d0
  let e1 := unpackloEpi32 e0 f0
  let f1 := unpackhiEpi32 e0 f0
  let g1 := unpackloEpi32 g0 h0
  let h1 := unpackhiEpi32 g0 h0
  fun r => [a1, b1, c1, d1, e1, f1, g1, h1].getD r a1

end networks

section routines

/-- The loop that `bshuf_trans_byte_elem_SSE_16`, `_32` and `_64` share, and the rest. -/
def transByteElemSseLoop (network : Registers UInt8 → Registers UInt8) (elemSize : Nat)
    (src out : List UInt8) (size : Nat) : BshufExec (Int × List UInt8) := do
  let out ← forStep 16 0 size out fun ii out => do
    let v ← loadRegisters src (fun r => elemSize * ii + r * 16) elemSize
    storeRegisters (network v) (fun r => r * size + ii) elemSize out
  transByteElemRemainder src out size elemSize (size - size % 16)

def transByteElemSse16 (src out : List UInt8) (size : Nat) : BshufExec (Int × List UInt8) :=
  transByteElemSseLoop network16 2 src out size

def transByteElemSse32 (src out : List UInt8) (size : Nat) : BshufExec (Int × List UInt8) :=
  transByteElemSseLoop network32 4 src out size

def transByteElemSse64 (src out : List UInt8) (size : Nat) : BshufExec (Int × List UInt8) :=
  transByteElemSseLoop network64 8 src out size

/-- `TRANS_ELEM_TYPE`, for a type of `width` bytes. -/
def transElemType (width : Nat) (src out : List UInt8) (lda ldb : Nat) :
    BshufExec (List UInt8) := do
  let out ← forStep 8 0 lda out fun ii out =>
    forRange 0 ldb out fun jj out =>
      forRange 0 8 out fun kk =>
        memcpy src ((jj * lda + ii + kk) * width) ((ii * ldb + kk * ldb + jj) * width) width
  forRange (lda - lda % 8) lda out fun ii out =>
    forRange 0 ldb out fun jj => memcpy src ((jj * lda + ii) * width) ((ii * ldb + jj) * width) width

/-- The hierarchical transposition of elements of whole chunks of `width` bytes. -/
def transByteElemChunks (width : Nat)
    (routine : List UInt8 → List UInt8 → Nat → BshufExec (Int × List UInt8))
    (tmpBuf src out : List UInt8) (size elemSize : Nat) : BshufExec (Int × List UInt8) := do
  let nchunkElem := elemSize / width
  let chunks ← transElemType width src out size nchunkElem
  let bytes ← routine chunks tmpBuf (size * nchunkElem)
  let last ← transElem bytes.2 chunks width nchunkElem size
  return (bytes.1, last.2)

def transByteElemSse (malloc : Malloc) (src out : List UInt8) (size elemSize : Nat) :
    BshufExec (Int × List UInt8) :=
  if elemSize = 1 then bshufCopy src out size elemSize
  else if elemSize = 2 then transByteElemSse16 src out size
  else if elemSize = 4 then transByteElemSse32 src out size
  else if elemSize = 8 then transByteElemSse64 src out size
  else if elemSize % 4 ≠ 0 then transByteElemScal src out size elemSize
  else match malloc (size * elemSize) with
    | none => return (-1, out)
    | some tmpBuf =>
        if elemSize % 8 = 0 then
          transByteElemChunks 8 transByteElemSse64 tmpBuf.toList src out size elemSize
        else if elemSize % 4 = 0 then
          transByteElemChunks 4 transByteElemSse32 tmpBuf.toList src out size elemSize
        else transByteElemChunks 2 transByteElemSse16 tmpBuf.toList src out size elemSize

def storeBits (src : List UInt8) (source : Nat) (place : Nat → Nat) (out : List UInt8) :
    BshufExec (List UInt8) := do
  let v ← loadRegisters src (fun _ => source) 1
  storeMasks (v 0) place out

def transBitByteSse (src out : List UInt8) (size elemSize : Nat) : BshufExec (Int × List UInt8) :=
  let nbyte := elemSize * size
  if nbyte % 8 ≠ 0 then return (-80, out)
  else do
    let out ← forStep 16 0 nbyte out fun ii =>
      storeBits src ii fun kk => ((7 - kk) * nbyte + ii) / 8
    transBitByteRemainder true src out size elemSize (nbyte - nbyte % 16)

def transBitElemSse (malloc mallocInner : Malloc) (src out : List UInt8) (size elemSize : Nat) :
    BshufExec (Int × List UInt8) :=
  if size % 8 ≠ 0 then return (-80, out)
  else match malloc (size * elemSize) with
    | none => return (-1, out)
    | some tmpBuf => do
        let bytes ← transByteElemSse mallocInner src out size elemSize
        if bytes.1 < 0 then return bytes
        else do
          let bits ← transBitByteSse bytes.2 tmpBuf.toList size elemSize
          if bits.1 < 0 then return (bits.1, bytes.2)
          else transBitrowEight bits.2 bytes.2 size elemSize

def bitrowColumns (src : List UInt8) (nrows nbyteRow ii jj : Nat) (out : List UInt8) :
    BshufExec (List UInt8) := do
  let v ← loadRegisters src (fun r => (ii + r) * nbyteRow + jj) 8
  let out ← forRange 0 8 out fun r =>
    storeLanes (networkBitrow v r) 0 8 ((jj + 2 * r) * nrows + ii)
  forRange 0 8 out fun r => storeLanes (networkBitrow v r) 8 8 ((jj + (2 * r + 1)) * nrows + ii)

def bitrowRows (src : List UInt8) (nrows nbyteRow ii : Nat) (out : List UInt8) :
    BshufExec (List UInt8) := do
  let out ← forStep 16 0 nbyteRow out fun jj => bitrowColumns src nrows nbyteRow ii jj
  forRange (nbyteRow - nbyteRow % 16) nbyteRow out fun jj out =>
    forRange 0 8 out fun r => moveByte src (jj * nrows + ii + r) ((ii + r) * nbyteRow + jj)

def transByteBitrowSse (src out : List UInt8) (size elemSize : Nat) :
    BshufExec (Int × List UInt8) :=
  let nrows := 8 * elemSize
  let nbyteRow := size / 8
  if size % 8 ≠ 0 then return (-80, out)
  else do
    let out ← forStep 8 0 nrows out fun ii => bitrowRows src nrows nbyteRow ii
    return (size * elemSize, out)

/-- `bshuf_shuffle_bit_eightelem_SSE`. The code of the scalar routine is not looked at. -/
def shuffleBitEightelemSse (src out : List UInt8) (size elemSize : Nat) :
    BshufExec (Int × List UInt8) :=
  let nbyte := elemSize * size
  if size % 8 ≠ 0 then return (-80, out)
  else if elemSize % 2 ≠ 0 then do
    let scalar ← shuffleBitEightelemScal true src out size elemSize
    return (size * elemSize, scalar.2)
  else do
    let out ← forStep (8 * elemSize) 0 nbyte out fun ii out =>
      forStep 16 0 (8 * elemSize) out fun jj =>
        storeBits src (ii + jj) fun kk => (ii + jj / 8 + (7 - kk) * elemSize) / 2 * 2
    return (size * elemSize, out)

def untransBitElemSse (malloc : Malloc) (src out : List UInt8) (size elemSize : Nat) :
    BshufExec (Int × List UInt8) :=
  if size % 8 ≠ 0 then return (-80, out)
  else match malloc (size * elemSize) with
    | none => return (-1, out)
    | some tmpBuf => do
        let rows ← transByteBitrowSse src tmpBuf.toList size elemSize
        if rows.1 < 0 then return (rows.1, out)
        else shuffleBitEightelemSse rows.2 out size elemSize

end routines

end TonCompress.Shuffle
