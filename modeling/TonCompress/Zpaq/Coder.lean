import TonCompress.Lib.Exec
import Mathlib.Data.Nat.Bitwise

/-! The coder of `libzpaq.cpp`: `Encoder` and `Decoder`, for bytes that a model
predicts bit by bit and for bytes that are stored as they are. -/
namespace TonCompress.Zpaq

/-- How a run ends that does not return: in `libzpaq::error`, which is not to
return, in a program of the archive that never halts, at an assertion, or in a loop
with more rounds than were looked at. -/
inductive ZpaqStop where
  | error (msg : String)
  | endless
  | assertion
  | outOfFuel
  deriving DecidableEq, Repr

/-- `Predictor` with the machine that computes its contexts. `init` refuses a header
that asks for too much, and `update` runs the header's program, which may end in an error
or never. `predict` returns a value of the table `squasht`. -/
structure Predictor where
  State : Type
  isModeled : Bool
  fresh : State
  init : Except ZpaqStop State
  predict : State → Except ZpaqStop (Nat × State)
  predict_lt : ∀ s out, predict s = .ok out → out.1 < 32768
  update : Bool → State → Except ZpaqStop State

variable {pr : Predictor}

def shiftedHigh (high : Nat) : Nat := (high <<< 8) % 2 ^ 32 ||| 255

/-- `low << 8`, and one for a zero, so that no code has four zero bytes in a row. -/
def shiftedLow (low : Nat) : Nat :=
  let low := (low <<< 8) % 2 ^ 32
  low + (if low = 0 then 1 else 0)

section encoder

/-- `buf` up to the end of what was put there since the last `write`. -/
structure Encoder (pr : Predictor) where
  out : List UInt8
  low : Nat
  high : Nat
  state : pr.State
  buf : List UInt8

def bufSize : Nat := 65536

def Encoder.fresh (pr : Predictor) (out : List UInt8) : Encoder pr := ⟨out, 1, 0xFFFFFFFF, pr.fresh, []⟩

def Encoder.init (e : Encoder pr) : Except ZpaqStop (Encoder pr) := do
  let state ← pr.init
  return { e with low := if pr.isModeled then 1 else 0, high := 0xFFFFFFFF, state }

def Encoder.put (c : Nat) (e : Encoder pr) : Encoder pr := { e with out := e.out ++ [UInt8.ofNat c] }

def Encoder.shiftOut : Nat → Encoder pr → Encoder pr
  | 0, e => e
  | fuel + 1, e =>
      if e.high ^^^ e.low < 0x1000000 then
        let e := e.put (e.high >>> 24)
        shiftOut fuel { e with low := shiftedLow e.low, high := shiftedHigh e.high }
      else e

def Encoder.encode (y : Bool) (p : Nat) (e : Encoder pr) : Encoder pr :=
  let mid := e.low + ((e.high - e.low) * p) >>> 16
  (if y then { e with high := mid } else { e with low := mid + 1 }).shiftOut 4

/-- The loop over the bits of a byte, from bit `i - 1` down. -/
def Encoder.encodeBits (c : UInt8) : Nat → Encoder pr → Except ZpaqStop (Encoder pr)
  | 0, e => .ok e
  | i + 1, e => do
      let (p, state) ← pr.predict e.state
      let y := (c.toNat >>> i) &&& 1 = 1
      let e := { e with state }.encode y (p * 2 + 1)
      let state ← pr.update y e.state
      encodeBits c i { e with state }

def Encoder.flush (e : Encoder pr) : Encoder pr :=
  let e := (((e.put ((e.low >>> 24) &&& 255)).put ((e.low >>> 16) &&& 255)).put
    ((e.low >>> 8) &&& 255)).put (e.low &&& 255)
  { e with out := e.out ++ e.buf.take e.low, low := 0 }

def Encoder.compress (c : Option UInt8) (e : Encoder pr) : Except ZpaqStop (Encoder pr) :=
  if pr.isModeled then
    match c with
    | none => .ok (e.encode true 0)
    | some c => (e.encode false 0).encodeBits c 8
  else
    let e := if e.low ≠ 0 ∧ (c = none ∨ e.low = bufSize) then e.flush else e
    match c with
    | none => .ok e
    | some c => .ok { e with buf := e.buf.take e.low ++ [c], low := e.low + 1 }

end encoder

section decoder

/-- `input` is what the reader has left, the buffered bytes first. -/
structure Decoder (pr : Predictor) where
  input : List UInt8
  low : Nat
  high : Nat
  curr : Nat
  state : pr.State

abbrev DecoderM (pr : Predictor) := StateT (Decoder pr) (Except ZpaqStop)

def Decoder.fresh (pr : Predictor) (input : List UInt8) : Decoder pr :=
  ⟨input, 1, 0xFFFFFFFF, 0, pr.fresh⟩

def Decoder.init (d : Decoder pr) : Except ZpaqStop (Decoder pr) := do
  let state ← pr.init
  if pr.isModeled then return { d with state, low := 1, high := 0xFFFFFFFF, curr := 0 }
  else return { d with state, low := 0, high := 0, curr := 0 }

def Decoder.get : DecoderM pr (Option UInt8) := fun d =>
  .ok (d.input.head?, { d with input := d.input.tail })

def asU32 (c : Option UInt8) : Nat := (c.map UInt8.toNat).getD (2 ^ 32 - 1)

def Decoder.push (c : Option UInt8) (d : Decoder pr) : Decoder pr :=
  { d with curr := (d.curr <<< 8) % 2 ^ 32 ||| asU32 c }

def Decoder.shiftIn : Nat → DecoderM pr Unit
  | 0 => pure ()
  | fuel + 1 => do
      let d ← MonadState.get
      if d.high ^^^ d.low < 0x1000000 then
        set { d with low := shiftedLow d.low, high := shiftedHigh d.high }
        let c ← Decoder.get
        if c = none then throw (.error "unexpected end of file")
        modify (Decoder.push c)
        shiftIn fuel
      else pure ()

def Decoder.decode (p : Nat) : DecoderM pr Bool := do
  let d ← MonadState.get
  if d.curr < d.low ∨ d.high < d.curr then throw (.error "archive corrupted")
  let mid := d.low + ((d.high - d.low) * p) >>> 16
  let y : Bool := d.curr ≤ mid
  set (if y then { d with high := mid } else { d with low := mid + 1 })
  Decoder.shiftIn 4
  return y

def Decoder.fill : Nat → DecoderM pr Unit
  | 0 => pure ()
  | n + 1 => do
      let c ← Decoder.get
      modify (Decoder.push c)
      fill n

/-- The loop that gets the bits of a byte, which a one in front counts. -/
def Decoder.decodeBits : Nat → Nat → DecoderM pr Nat
  | 0, c => pure c
  | fuel + 1, c =>
      if c < 256 then do
        let d ← MonadState.get
        let (p, state) ← pr.predict d.state
        set { d with state }
        let y ← Decoder.decode (p * 2 + 1)
        let c := c + (c + y.toNat)
        let d ← MonadState.get
        let state ← pr.update (decide (c &&& 1 = 1)) d.state
        set { d with state }
        decodeBits fuel c
      else pure c

def Decoder.fillAtStart : DecoderM pr Unit := do
  let d ← MonadState.get
  if d.curr = 0 then Decoder.fill 4 else pure ()

def Decoder.decompressModeled : DecoderM pr (Option UInt8) := do
  if ← Decoder.decode 0 then
    let d ← MonadState.get
    if d.curr ≠ 0 then throw (.error "decoding end of stream")
    return none
  else
    let c ← Decoder.decodeBits 8 1
    return some (UInt8.ofNat (c - 256))

/-- `curr` counts the bytes of the stored block. -/
def Decoder.decompressStored : DecoderM pr (Option UInt8) := do
  let d ← MonadState.get
  if d.curr = 0 then return none
  set { d with curr := d.curr - 1 }
  Decoder.get

/-- `decompress`: a byte, or -1 at the end of the segment. -/
def Decoder.decompress : DecoderM pr (Option UInt8) := do
  Decoder.fillAtStart
  if pr.isModeled then Decoder.decompressModeled else Decoder.decompressStored

section skip

/-- `while (curr == 0) curr = get();` as `curr` and the input behind it. -/
def skipToCode : List UInt8 → Nat × List UInt8
  | [] => (asU32 none, [])
  | c :: input => if c = 0 then skipToCode input else (c.toNat, input)

/-- `while (curr && (c = get()) >= 0) curr = curr << 8 | c;` -/
def skipCode : Nat → List UInt8 → Nat × List UInt8
  | curr, [] => (curr, [])
  | curr, c :: input =>
      if curr = 0 then (curr, c :: input)
      else skipCode ((curr <<< 8) % 2 ^ 32 ||| c.toNat) input

def skipZeros : List UInt8 → Option UInt8 × List UInt8
  | [] => (none, [])
  | c :: input => if c = 0 then skipZeros input else (some c, input)

def Decoder.skipModeled (d : Decoder pr) : Option UInt8 × Decoder pr :=
  let (curr, input) := if d.curr = 0 then skipToCode d.input else (d.curr, d.input)
  let (curr, input) := skipCode curr input
  let (c, input) := skipZeros input
  (c, { d with curr, input })

def Decoder.skipSize : Nat → Option UInt8 → DecoderM pr (Option UInt8)
  | 0, c => pure c
  | n + 1, _ => do
      let c ← Decoder.get
      if c = none then return none
      modify (Decoder.push c)
      skipSize n c

def Decoder.skipBytes : Nat → DecoderM pr Unit
  | 0 => pure ()
  | n + 1 => do
      modify fun d => { d with curr := n }
      let c ← Decoder.get
      if c = none then throw (.error "skipped to EOF")
      skipBytes n

def Decoder.skipBlocks : Nat → Option UInt8 → DecoderM pr (Option UInt8)
  | 0, _ => throw .outOfFuel
  | fuel + 1, c => do
      let d ← MonadState.get
      if d.curr = 0 then return c
      Decoder.skipBytes d.curr
      let c ← Decoder.skipSize 4 c
      skipBlocks fuel c

/-- `skip`: the byte behind the end of the segment, or -1. Every block that is
skipped takes a byte at least. -/
def Decoder.skip : DecoderM pr (Option UInt8) := do
  let d ← MonadState.get
  if pr.isModeled then
    set d.skipModeled.2
    return d.skipModeled.1
  else
    let c ← if d.curr = 0 then Decoder.skipSize 4 none else pure none
    let c ← Decoder.skipBlocks (d.input.length + 1) c
    if c = none then return none
    Decoder.get

end skip

end decoder

end TonCompress.Zpaq
