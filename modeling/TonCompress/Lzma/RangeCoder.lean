import TonCompress.Lib.Channel
import Mathlib.Data.UInt

/-! The range coder: adaptive bits and bits of fixed probability. The cells that
hold the probabilities are of any type. -/
namespace TonCompress.Lzma
open TonCompress.Lib

def rangeCodeNormalizeThreshold : Nat := 1 <<< 24
def rangeCodeMoveBits : Nat := 5
def rangeCodeNBitModelTotalBits : Nat := 11
def rangeCodeBitModelTotal : Nat := 1 <<< rangeCodeNBitModelTotalBits
def rangeCodeHalfProbability : Nat := rangeCodeBitModelTotal >>> 1
def rangeCodeCacheSizeMax : Nat := 2 ^ 64 - 1

/-- `RangeEncoder_t`. `dst` holds the bytes written so far, and `dstLen` is the
room there is for them. -/
structure RangeEncoder where
  overflow : Bool
  cache : Nat
  lowMsb : Nat
  lowLsb : Nat
  range : Nat
  cacheSize : Nat
  dst : List UInt8
  dstLen : Nat
  deriving DecidableEq, Repr

def newRangeEncoder (dstLen : Nat) : RangeEncoder where
  overflow := false
  cache := 0
  lowMsb := 0
  lowLsb := 0
  range := 0xFFFFFFFF
  cacheSize := 1
  dst := []
  dstLen := dstLen

def rangeEncodeOutByte (e : RangeEncoder) (byte : Nat) : RangeEncoder :=
  if e.dst.length ≠ e.dstLen then { e with dst := e.dst ++ [UInt8.ofNat byte] }
  else { e with overflow := true }

def rangeEncodeOutBytes (byte : Nat) : Nat → RangeEncoder → RangeEncoder
  | 0, e => e
  | n + 1, e => rangeEncodeOutBytes byte n (rangeEncodeOutByte e byte)

/-- The branches that settle the cached byte and the bytes behind it. -/
def rangeEncodeFlush (e : RangeEncoder) (first rest : Nat) : RangeEncoder :=
  let e := rangeEncodeOutBytes rest (e.cacheSize - 1) (rangeEncodeOutByte e first)
  { e with cache := e.lowLsb >>> 24, cacheSize := 0 }

/-- `cache_size++` below the maximum, and the shift of `low` and `range`. -/
def rangeEncodeShift (e : RangeEncoder) : RangeEncoder :=
  { e with
    cacheSize := if e.cacheSize < rangeCodeCacheSizeMax then e.cacheSize + 1 else e.cacheSize
    lowMsb := 0
    lowLsb := (e.lowLsb <<< 8) % 2 ^ 32
    range := (e.range <<< 8) % 2 ^ 32 }

def rangeEncodeNormalize (e : RangeEncoder) : RangeEncoder :=
  if e.range < rangeCodeNormalizeThreshold then
    if e.lowMsb ≠ 0 then rangeEncodeShift (rangeEncodeFlush e ((e.cache + 1) % 256) 0x00)
    else if e.lowLsb < 0xFF000000 then rangeEncodeShift (rangeEncodeFlush e e.cache 0xFF)
    else rangeEncodeShift e
  else e

def rangeEncodeTerminate (e : RangeEncoder) : RangeEncoder :=
  rangeEncodeNormalize (rangeEncodeNormalize (rangeEncodeNormalize (rangeEncodeNormalize
    (rangeEncodeNormalize (rangeEncodeNormalize { e with range := 0 })))))

/-- `low += amount`, with the carry kept in `low_msb`. -/
def rangeEncodeAdd (e : RangeEncoder) (amount : Nat) : RangeEncoder :=
  { e with
    lowMsb := if (e.lowLsb + amount) % 2 ^ 32 < e.lowLsb then 1 else e.lowMsb
    lowLsb := (e.lowLsb + amount) % 2 ^ 32 }

def rangeEncodeFixedBit (e : RangeEncoder) (bit : Bool) : RangeEncoder :=
  let e := rangeEncodeNormalize e
  let e := { e with range := e.range >>> 1 }
  if bit then rangeEncodeAdd e e.range else e

def rangeEncodeBit (e : RangeEncoder) (prob : Nat) (bit : Bool) : RangeEncoder × Nat :=
  let e := rangeEncodeNormalize e
  let bound := (e.range >>> rangeCodeNBitModelTotalBits) * prob
  if bit = false then
    ({ e with range := bound }, prob + ((rangeCodeBitModelTotal - prob) >>> rangeCodeMoveBits))
  else
    (rangeEncodeAdd { e with range := e.range - bound } bound,
      prob - (prob >>> rangeCodeMoveBits))

/-- `RangeDecoder_t`. `src` holds the bytes not read yet. -/
structure RangeDecoder where
  code : Nat
  range : Nat
  src : List UInt8
  overflow : Bool
  deriving DecidableEq, Repr

def rangeDecodeNormalize (d : RangeDecoder) : RangeDecoder :=
  if d.range < rangeCodeNormalizeThreshold then
    match d.src with
    | byte :: src =>
        { d with
          range := (d.range <<< 8) % 2 ^ 32
          code := ((d.code <<< 8) % 2 ^ 32) ||| byte.toNat
          src }
    | [] => { d with overflow := true }
  else d

def newRangeDecoder (src : List UInt8) : RangeDecoder :=
  { rangeDecodeNormalize (rangeDecodeNormalize (rangeDecodeNormalize (rangeDecodeNormalize
      (rangeDecodeNormalize ⟨0, 0, src, false⟩)))) with range := 0xFFFFFFFF }

def rangeDecodeFixedBit (d : RangeDecoder) : Bool × RangeDecoder :=
  let d := rangeDecodeNormalize d
  let range := d.range >>> 1
  let code := (d.code + (2 ^ 32 - range)) % 2 ^ 32
  let b := !code.testBit 31
  (b, { d with range, code := if b then code else (code + range) % 2 ^ 32 })

def rangeDecodeBit (d : RangeDecoder) (prob : Nat) : Bool × RangeDecoder × Nat :=
  let d := rangeDecodeNormalize d
  let bound := (d.range >>> rangeCodeNBitModelTotalBits) * prob
  if d.code < bound then
    (false, { d with range := bound },
      prob + ((rangeCodeBitModelTotal - prob) >>> rangeCodeMoveBits))
  else
    (true, { d with range := d.range - bound, code := d.code - bound },
      prob - (prob >>> rangeCodeMoveBits))

structure Encoder (κ : Type) where
  coder : RangeEncoder
  probs : κ → Nat

structure Decoder (κ : Type) where
  coder : RangeDecoder
  probs : κ → Nat

section cells
variable {κ : Type} [DecidableEq κ]

def initProbs : κ → Nat := fun _ => rangeCodeHalfProbability

def Encoder.fresh (dstLen : Nat) : Encoder κ := ⟨newRangeEncoder dstLen, initProbs⟩

def Decoder.fresh (src : List UInt8) : Decoder κ := ⟨newRangeDecoder src, initProbs⟩

def Encoder.bit (cell : κ) (bit : Bool) (e : Encoder κ) : Encoder κ :=
  let (coder, prob) := rangeEncodeBit e.coder (e.probs cell) bit
  ⟨coder, Function.update e.probs cell prob⟩

def Encoder.fixedBit (bit : Bool) (e : Encoder κ) : Encoder κ :=
  { e with coder := rangeEncodeFixedBit e.coder bit }

def Decoder.bit (cell : κ) (d : Decoder κ) : Bool × Decoder κ :=
  let (bit, coder, prob) := rangeDecodeBit d.coder (d.probs cell)
  (bit, ⟨coder, Function.update d.probs cell prob⟩)

def Decoder.fixedBit (d : Decoder κ) : Bool × Decoder κ :=
  let (bit, coder) := rangeDecodeFixedBit d.coder
  (bit, { d with coder })

end cells

end TonCompress.Lzma
