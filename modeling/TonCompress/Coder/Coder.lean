import TonCompress.Coder.Frequency

/-! The arithmetic coder for every state size that its constructor takes and any frequency
table. The bit streams and what does not depend on the size are those of the coder with 32
state bits. -/
namespace TonCompress.Coder
open TonCompress.Lib TonCompress.Arith

/-- `numStateBits`, in the range that the constructor checks. -/
structure StateSize where
  numStateBits : Nat
  pos : 1 ≤ numStateBits
  le : numStateBits ≤ 63

namespace StateSize

def new (numBits : Int) : ArithExec StateSize :=
  if h : 1 ≤ numBits ∧ numBits ≤ 63 then .ok ⟨numBits.toNat, by omega, by omega⟩
  else .error (.status "State size out of range")

variable (size : StateSize)

def fullRange : Nat := 1 <<< size.numStateBits
def halfRange : Nat := size.fullRange >>> 1
/-- zero when there is one state bit -/
def quarterRange : Nat := size.halfRange >>> 1
def minimumRange : Nat := size.quarterRange + 2
def maximumTotal : Nat := min ((2 ^ 64 - 1) / size.fullRange) size.minimumRange
def stateMask : Nat := size.fullRange - 1

def freshInterval : Interval := ⟨0, size.stateMask⟩

end StateSize

def double64 (x : Nat) : Nat := (x <<< 1) % 2 ^ 64

section update
variable (size : StateSize)

def checkState (iv : Interval) : ArithExec Unit := do
  if iv.low ≥ iv.high ∨ iv.low &&& size.stateMask ≠ iv.low ∨
      iv.high &&& size.stateMask ≠ iv.high then
    throw (.status "Assertion error: Low or high out of range")
  let range := iv.high - iv.low + 1
  if ¬ (size.minimumRange ≤ range ∧ range ≤ size.fullRange) then
    throw (.status "Assertion error: Range out of range")

/-- `freq * range / total`. There is no value for a division by zero. -/
def scaled (freq range total : Nat) : ArithExec Nat :=
  if total = 0 then .error .abort else .ok (freq * range % 2 ^ 64 / total)

def newInterval (total symLow symHigh : Nat) (iv : Interval) : ArithExec Interval := do
  if symLow = symHigh then throw (.status "Symbol has zero frequency")
  if total > size.maximumTotal then
    throw (.status "Cannot code symbol because total is too large")
  let range := iv.high - iv.low + 1
  let below ← scaled symLow range total
  let reach ← scaled symHigh range total
  return ⟨(iv.low + below) % 2 ^ 64, sub64 ((iv.low + reach) % 2 ^ 64) 1⟩

variable {σ : Type} (shift : Interval → σ → ArithExec σ) (underflow : σ → ArithExec σ)

/-- `while (((low ^ high) & halfRange) == 0)`. -/
def shiftLoop : Nat → Interval → σ → ArithExec (Interval × σ)
  | 0, _, _ => .error .outOfFuel
  | fuel + 1, iv, state => do
      if (iv.low ^^^ iv.high) &&& size.halfRange = 0 then
        let state ← shift iv state
        shiftLoop fuel ⟨double64 iv.low &&& size.stateMask,
          (double64 iv.high &&& size.stateMask) ||| 1⟩ state
      else return (iv, state)

/-- `while ((low & ~high & quarterRange) != 0)`. -/
def underflowLoop : Nat → Interval → σ → ArithExec (Interval × σ)
  | 0, _, _ => .error .outOfFuel
  | fuel + 1, iv, state => do
      if iv.low &&& not64 iv.high &&& size.quarterRange ≠ 0 then
        let state ← underflow state
        underflowLoop fuel ⟨double64 iv.low ^^^ size.halfRange,
          double64 (iv.high ^^^ size.halfRange) ||| size.halfRange ||| 1⟩ state
      else return (iv, state)

/-- Both loops. A round of either moves a bit out of `low` and `high`, so neither has more
rounds than there are state bits. -/
def rescale (iv : Interval) (state : σ) : ArithExec (Interval × σ) := do
  let (iv, state) ← shiftLoop size shift (size.numStateBits + 1) iv state
  underflowLoop size underflow (size.numStateBits + 1) iv state

def update {τ : Type} [FrequencyTable τ] (symbol : Nat) (iv : Interval) (state : σ) :
    TableExec τ (Interval × σ) := do
  liftExec (checkState size iv)
  let table ← getThe τ
  let symLow ← FrequencyTable.getLow symbol
  let symHigh ← FrequencyTable.getHigh symbol
  let iv ← liftExec (newInterval size (FrequencyTable.getTotal table) symLow symHigh iv)
  liftExec (rescale size shift underflow iv state)

end update

namespace ArithmeticEncoder

def shift (size : StateSize) (iv : Interval) (enc : EncoderState) : ArithExec EncoderState := do
  let bit := (iv.low >>> (size.numStateBits - 1)) % 2 ^ 32
  let output ← enc.output.write bit
  let output ← Arith.ArithmeticEncoder.writeUnderflow bit enc.numUnderflow output
  return ⟨output, 0⟩

def write (size : StateSize) {τ : Type} [FrequencyTable τ] (symbol : Nat) (iv : Interval)
    (enc : EncoderState) : TableExec τ (Interval × EncoderState) :=
  update size (shift size) Arith.ArithmeticEncoder.underflow symbol iv enc

end ArithmeticEncoder

namespace ArithmeticDecoder

def shift (size : StateSize) (_iv : Interval) (dec : DecoderState) : ArithExec DecoderState :=
  let (bit, input) := Arith.ArithmeticDecoder.readCodeBit dec.input
  .ok ⟨input, (double64 dec.code &&& size.stateMask) ||| bit⟩

def underflow (size : StateSize) (dec : DecoderState) : ArithExec DecoderState :=
  let (bit, input) := Arith.ArithmeticDecoder.readCodeBit dec.input
  .ok ⟨input, (dec.code &&& size.halfRange) |||
    (double64 dec.code &&& (size.stateMask >>> 1)) ||| bit⟩

def fresh (size : StateSize) (input : BitInputStream) : DecoderState :=
  Arith.ArithmeticDecoder.fill size.numStateBits ⟨input, 0⟩

/-- `range`, `offset` and `value` of `read`. -/
structure Scale where
  range : Nat
  offset : Nat
  value : Nat

/-- The translation to the scale of the table, with the checks before the search. -/
def translate (size : StateSize) (total : Nat) (iv : Interval) (code : Nat) : ArithExec Scale := do
  if total > size.maximumTotal then
    throw (.status "Cannot decode symbol because total is too large")
  let range := (sub64 iv.high iv.low + 1) % 2 ^ 64
  let offset := sub64 code iv.low
  if range = 0 then throw .abort
  let value := sub64 ((offset + 1) * total % 2 ^ 64) 1 / range
  let start ← scaled value range total
  if start > offset then throw (.status "Assertion error")
  if value ≥ total then throw (.status "Assertion error")
  return ⟨range, offset, value⟩

/-- `while (end - start > 1)`, on 32 bits. -/
def search {τ : Type} [FrequencyTable τ] (value : Nat) :
    Nat → Nat → Nat → TableExec τ (Nat × Nat)
  | 0, _, _ => throw .outOfFuel
  | fuel + 1, start, stop =>
      if (stop + (2 ^ 32 - start)) % 2 ^ 32 > 1 then
        let middle := ((start + stop) % 2 ^ 32) >>> 1
        FrequencyTable.getLow middle >>= fun low =>
          if low > value then search value fuel start middle else search value fuel middle stop
      else pure (start, stop)

/-- Halvings that bring every range of 32 bits down to one symbol. -/
def searchFuel : Nat := 33

def assert (cond : Prop) [Decidable cond] (message : String) : ArithExec Unit :=
  if cond then .ok () else .error (.status message)

def read (size : StateSize) {τ : Type} [FrequencyTable τ] (iv : Interval) (dec : DecoderState) :
    TableExec τ (Nat × Interval × DecoderState) := do
  let table ← getThe τ
  let total := FrequencyTable.getTotal table
  let scale ← liftExec (translate size total iv dec.code)
  let (start, stop) ← search scale.value searchFuel 0 (FrequencyTable.getSymbolLimit table)
  liftExec (assert ((start + 1) % 2 ^ 32 = stop) "Assertion error")
  let symLow ← FrequencyTable.getLow start
  let first ← liftExec (scaled symLow scale.range total)
  liftExec (assert (first ≤ scale.offset) "Assertion error")
  let symHigh ← FrequencyTable.getHigh start
  let next ← liftExec (scaled symHigh scale.range total)
  liftExec (assert (scale.offset < next) "Assertion error")
  let (iv, dec) ← update size (shift size) (underflow size) start iv dec
  liftExec (assert (iv.low ≤ dec.code ∧ dec.code ≤ iv.high) "Assertion error: Code out of range")
  return (start, iv, dec)

end ArithmeticDecoder

end TonCompress.Coder
