import TonCompress.Lib.Exec
import TonCompress.Lib.Scaling

/-! The arithmetic coder with 32 state bits, its bit streams and its frequency
table for two symbols. -/
namespace TonCompress.Arith
open TonCompress.Lib

/-- Runs of the coder. Its exceptions are statuses, and it indexes no vectors. -/
abbrev ArithExec := Exec Empty

def total : Nat := 1073741824

structure BinaryFrequencyTable where
  p : Nat
  deriving DecidableEq, Repr

namespace BinaryFrequencyTable

def symbolLimit : Nat := 2

def fresh : BinaryFrequencyTable := ⟨total / 2⟩

def checkSymbol (symbol : Nat) : ArithExec Unit := do
  if symbol ≥ 2 then throw (.status "Symbol out of range")

def getLow (freqs : BinaryFrequencyTable) (symbol : Nat) : ArithExec Nat := do
  checkSymbol symbol
  if symbol = 0 then return 0 else return freqs.p

def getHigh (freqs : BinaryFrequencyTable) (symbol : Nat) : ArithExec Nat := do
  checkSymbol symbol
  if symbol ≠ 0 then return total else return freqs.p

/-- `set(0, freq)`, which keeps both symbols codable. -/
def set (_freqs : BinaryFrequencyTable) (freq : Nat) : BinaryFrequencyTable :=
  let p := if freq = 0 then freq + 1 else freq
  ⟨if p = total then p - 1 else p⟩

end BinaryFrequencyTable

structure BitOutputStream where
  output : List UInt8
  currentByte : Nat
  numBitsFilled : Nat
  deriving DecidableEq, Repr

namespace BitOutputStream

def fresh : BitOutputStream := ⟨[], 0, 0⟩

def write (out : BitOutputStream) (b : Nat) : ArithExec BitOutputStream := do
  if b ≠ 0 ∧ b ≠ 1 then throw (.status "Argument must be 0 or 1")
  let currentByte := (out.currentByte <<< 1) ||| b
  let numBitsFilled := out.numBitsFilled + 1
  if numBitsFilled = 8 then return ⟨out.output ++ [UInt8.ofNat currentByte], 0, 0⟩
  else return ⟨out.output, currentByte, numBitsFilled⟩

def finish : Nat → BitOutputStream → ArithExec BitOutputStream
  | 0, _ => .error .outOfFuel
  | fuel + 1, out => do
      if out.numBitsFilled ≠ 0 then
        let out ← out.write 0
        finish fuel out
      else return out

end BitOutputStream

/-- The end of the stream is `none`, the value -1 of `get`. -/
structure BitInputStream where
  input : List UInt8
  currentByte : Option UInt8
  numBitsRemaining : Nat
  deriving DecidableEq, Repr

namespace BitInputStream

def fresh (input : List UInt8) : BitInputStream := ⟨input, some 0, 0⟩

def read (bin : BitInputStream) : Option Nat × BitInputStream :=
  match bin.currentByte with
  | none => (none, bin)
  | some currentByte =>
      match bin.numBitsRemaining with
      | 0 =>
          match bin.input with
          | [] => (none, { bin with currentByte := none })
          | next :: input => (some ((next.toNat >>> 7) &&& 1), ⟨input, some next, 7⟩)
      | left + 1 =>
          (some ((currentByte.toNat >>> left) &&& 1), { bin with numBitsRemaining := left })

end BitInputStream

def numStateBits : Nat := 32
def fullRange : Nat := 1 <<< numStateBits
def halfRange : Nat := fullRange >>> 1
def quarterRange : Nat := halfRange >>> 1
def minimumRange : Nat := quarterRange + 2
def maximumTotal : Nat := min ((2 ^ 64 - 1) / fullRange) minimumRange
def stateMask : Nat := fullRange - 1

def not64 (x : Nat) : Nat := 2 ^ 64 - (x + 1)

def sub64 (x y : Nat) : Nat := (x + (2 ^ 64 - y)) % 2 ^ 64

section update
variable {σ : Type} (shift : Interval → σ → ArithExec σ) (underflow : σ → ArithExec σ)

/-- `while (((low ^ high) & halfRange) == 0)`. -/
def shiftLoop : Nat → Interval → σ → ArithExec (Interval × σ)
  | 0, _, _ => .error .outOfFuel
  | fuel + 1, iv, state => do
      if (iv.low ^^^ iv.high) &&& halfRange = 0 then
        let state ← shift iv state
        shiftLoop fuel
          ⟨(iv.low <<< 1) &&& stateMask, ((iv.high <<< 1) &&& stateMask) ||| 1⟩ state
      else return (iv, state)

/-- `while ((low & ~high & quarterRange) != 0)`. -/
def underflowLoop : Nat → Interval → σ → ArithExec (Interval × σ)
  | 0, _, _ => .error .outOfFuel
  | fuel + 1, iv, state => do
      if iv.low &&& not64 iv.high &&& quarterRange ≠ 0 then
        let state ← underflow state
        underflowLoop fuel
          ⟨(iv.low <<< 1) ^^^ halfRange, ((iv.high ^^^ halfRange) <<< 1) ||| halfRange ||| 1⟩ state
      else return (iv, state)

/-- Rounds of rescaling that are enough for an interval of one value. -/
def scaleFuel : Nat := 33

/-- `ArithmeticCoderBase::update`. The encoder and the decoder share it and bring
their own `shift` and `underflow`, which change `state`. -/
def update (freqs : BinaryFrequencyTable) (symbol : Nat) (iv : Interval) (state : σ) :
    ArithExec (Interval × σ) := do
  if iv.low ≥ iv.high ∨ iv.low &&& stateMask ≠ iv.low ∨ iv.high &&& stateMask ≠ iv.high then
    throw (.status "Assertion error: Low or high out of range")
  let range := iv.high - iv.low + 1
  if ¬ (minimumRange ≤ range ∧ range ≤ fullRange) then
    throw (.status "Assertion error: Range out of range")
  let symLow ← freqs.getLow symbol
  let symHigh ← freqs.getHigh symbol
  if symLow = symHigh then throw (.status "Symbol has zero frequency")
  if total > maximumTotal then
    throw (.status "Cannot code symbol because total is too large")
  let newLow := iv.low + symLow * range / total
  let newHigh := sub64 (iv.low + symHigh * range / total) 1
  let (iv, state) ← shiftLoop shift scaleFuel ⟨newLow, newHigh⟩ state
  underflowLoop underflow scaleFuel iv state

end update

def freshInterval : Interval := ⟨0, stateMask⟩

structure EncoderState where
  output : BitOutputStream
  numUnderflow : Nat
  deriving DecidableEq, Repr

namespace ArithmeticEncoder

def writeUnderflow (bit : Nat) : Nat → BitOutputStream → ArithExec BitOutputStream
  | 0, output => .ok output
  | numUnderflow + 1, output => do
      let output ← output.write (bit ^^^ 1)
      writeUnderflow bit numUnderflow output

def shift (iv : Interval) (enc : EncoderState) : ArithExec EncoderState := do
  let bit := iv.low >>> (numStateBits - 1)
  let output ← enc.output.write bit
  let output ← writeUnderflow bit enc.numUnderflow output
  return ⟨output, 0⟩

def underflow (enc : EncoderState) : ArithExec EncoderState := do
  if enc.numUnderflow = 2 ^ 64 - 1 then throw (.status "Maximum underflow reached")
  return { enc with numUnderflow := enc.numUnderflow + 1 }

def write (freqs : BinaryFrequencyTable) (symbol : Nat) (iv : Interval) (enc : EncoderState) :
    ArithExec (Interval × EncoderState) :=
  update shift underflow freqs symbol iv enc

def finish (enc : EncoderState) : ArithExec EncoderState := do
  let output ← enc.output.write 1
  return { enc with output }

end ArithmeticEncoder

structure DecoderState where
  input : BitInputStream
  code : Nat
  deriving DecidableEq, Repr

namespace ArithmeticDecoder

def readCodeBit (input : BitInputStream) : Nat × BitInputStream :=
  let (temp, input) := input.read
  (temp.getD 0, input)

def shift (_iv : Interval) (dec : DecoderState) : ArithExec DecoderState :=
  let (bit, input) := readCodeBit dec.input
  .ok ⟨input, ((dec.code <<< 1) &&& stateMask) ||| bit⟩

def underflow (dec : DecoderState) : ArithExec DecoderState :=
  let (bit, input) := readCodeBit dec.input
  .ok ⟨input, (dec.code &&& halfRange) ||| ((dec.code <<< 1) &&& (stateMask >>> 1)) ||| bit⟩

def fill : Nat → DecoderState → DecoderState
  | 0, dec => dec
  | n + 1, dec =>
      let (bit, input) := readCodeBit dec.input
      fill n ⟨input, (dec.code <<< 1) ||| bit⟩

def fresh (input : BitInputStream) : DecoderState := fill numStateBits ⟨input, 0⟩

/-- `while (end - start > 1)`, the search for the highest symbol whose `getLow`
is at most `value`. -/
def search (freqs : BinaryFrequencyTable) (value : Nat) : Nat → Nat → Nat → ArithExec (Nat × Nat)
  | 0, _, _ => .error .outOfFuel
  | fuel + 1, start, stop => do
      if stop - start > 1 then
        let middle := (start + stop) >>> 1
        let low ← freqs.getLow middle
        if low > value then search freqs value fuel start middle
        else search freqs value fuel middle stop
      else return (start, stop)

def read (freqs : BinaryFrequencyTable) (iv : Interval) (dec : DecoderState) :
    ArithExec (Nat × Interval × DecoderState) := do
  if total > maximumTotal then
    throw (.status "Cannot decode symbol because total is too large")
  let range := sub64 iv.high iv.low + 1
  let offset := sub64 dec.code iv.low
  let value := sub64 ((offset + 1) * total % 2 ^ 64) 1 / range
  if value * range / total > offset then throw (.status "Assertion error")
  if value ≥ total then throw (.status "Assertion error")
  let (start, stop) ← search freqs value 2 0 BinaryFrequencyTable.symbolLimit
  if start + 1 ≠ stop then throw (.status "Assertion error")
  let symLow ← freqs.getLow start
  let symHigh ← freqs.getHigh start
  if ¬ (symLow * range / total ≤ offset ∧ offset < symHigh * range / total) then
    throw (.status "Assertion error")
  let (iv, dec) ← update shift underflow freqs start iv dec
  if ¬ (iv.low ≤ dec.code ∧ dec.code ≤ iv.high) then
    throw (.status "Assertion error: Code out of range")
  return (start, iv, dec)

end ArithmeticDecoder

def contextSize : Nat := 192

/-- What `nextBitProbability` and the conversion in `set(float)` come to: the
frequency of a zero after a context. -/
abbrev Predictor := List Nat → Fin (total + 1)

def pushContext (context : List Nat) (symbol : Nat) : List Nat :=
  let context := context ++ [symbol]
  if context.length > contextSize then context.drop 1 else context

/-- The variables of the loop of `compressBits`. -/
structure CompressVars where
  context : List Nat
  iv : Interval
  enc : EncoderState

def CompressVars.fresh : CompressVars := ⟨List.replicate contextSize 0, freshInterval, ⟨.fresh, 0⟩⟩

def compressBit (model : Predictor) (bit : Bool) (vars : CompressVars) :
    ArithExec CompressVars := do
  let freqs := BinaryFrequencyTable.fresh.set (model vars.context)
  let (iv, enc) ← ArithmeticEncoder.write freqs bit.toNat vars.iv vars.enc
  return ⟨pushContext vars.context bit.toNat, iv, enc⟩

def compressBits (model : Predictor) (bits : List Bool) : ArithExec (List UInt8) := do
  let vars ← forEach bits .fresh (compressBit model)
  let enc ← ArithmeticEncoder.finish vars.enc
  let bout ← enc.output.finish 8
  return bout.output

/-- The loop of `decompressBits`. It ends at the round that makes `out.size()`
equal to `size`, so at no round when there are fewer left than `fuel`. -/
def decompressLoop (model : Predictor) (size : Nat) :
    Nat → List Nat → Interval → DecoderState → List Nat → ArithExec (List Nat)
  | 0, _, _, _, _ => .error .outOfFuel
  | fuel + 1, context, iv, dec, out => do
      let freqs := BinaryFrequencyTable.fresh.set (model context)
      let (symbol, iv, dec) ← ArithmeticDecoder.read freqs iv dec
      let out := out ++ [symbol]
      if out.length = size then return out
      else decompressLoop model size fuel (pushContext context symbol) iv dec out

/-- `decompressBits`, whose `int` argument is compared with a `size_t`. -/
def decompressBits (model : Predictor) (data : List UInt8) (size : Int) :
    ArithExec (List Nat) :=
  let size := asUint64 size
  decompressLoop model size size (List.replicate contextSize 0) freshInterval
    (ArithmeticDecoder.fresh (.fresh data)) []

end TonCompress.Arith
