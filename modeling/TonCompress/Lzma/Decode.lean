import TonCompress.Lzma.Encode

/-! The decoder: `lzmaDecode` and `tinyLzmaDecompress`. -/
namespace TonCompress.Lzma
open TonCompress.Lib

section packet

def decodeType (state posState : Nat) : DecodeM PacketType := do
  if !(← decodeBit ⟨.isMatch state posState, 0⟩) then return .pktLit
  else if !(← decodeBit ⟨.isRep state, 0⟩) then return .pktMatch
  else if !(← decodeBit ⟨.isRep0 state, 0⟩) then
    if ← decodeBit ⟨.isRep0Long state posState, 0⟩ then return .pktRep0 else return .pktShortRep
  else if !(← decodeBit ⟨.isRep1 state, 0⟩) then return .pktRep1
  else if ← decodeBit ⟨.isRep2 state, 0⟩ then return .pktRep3 else return .pktRep2

/-- The literal before its cast to `uint8_t`. -/
def decodeLiteral (state litPosState prevByteLcMsbs matchByte : Nat) : DecodeM Nat :=
  if state < nLitStates then rangeDecodeInt (.literal litPosState prevByteLcMsbs) 8
  else rangeDecodeMB (.literal litPosState prevByteLcMsbs) matchByte

def decodeLen (isRep posState : Nat) : DecodeM Nat := do
  if !(← decodeBit ⟨.lenChoice isRep, 0⟩) then
    return 2 + (← rangeDecodeInt (.lenLow isRep posState) 3)
  else if !(← decodeBit ⟨.lenChoice2 isRep, 0⟩) then
    return 10 + (← rangeDecodeInt (.lenMid isRep posState) 3)
  else return 18 + (← rangeDecodeInt (.lenHigh isRep) 8)

/-- `dist` before it is compared with the end mark. The first value the source
gives it, `(2 | (dist_slot & 1)) << bcnt`, is replaced below slot 4. -/
def decodeDist (len : Nat) : DecodeM Nat := do
  let lenMin5Minus2 := if len > 5 then 3 else len - 2
  let distSlot ← rangeDecodeInt (.distSlot lenMin5Minus2) 6
  let bcnt := (distSlot >>> 1) - 1
  let dist := (2 ||| (distSlot &&& 1)) <<< bcnt
  if distSlot ≥ 14 then
    let high ← rangeDecodeIntByFixedProb (bcnt - 4)
    let low ← rangeDecodeInt .distAlign 4
    return dist ||| (high <<< 4) ||| bitsReverse low 4
  else if distSlot ≥ 4 then
    let low ← rangeDecodeInt (.distSpecial (distSlot - 4)) bcnt
    return dist ||| bitsReverse low bcnt
  else return distSlot

end packet

structure DecodeVars where
  prevByte : UInt8
  state : Nat
  pos : Nat
  reps : Reps
  dst : List UInt8
  dec : Decoder ProbCell

def DecodeVars.fresh (src dst : List UInt8) : DecodeVars where
  prevByte := 0
  state := 0
  pos := 0
  reps := .fresh
  dst := dst
  dec := .fresh src

/-- The distance of a packet that is not a match, zero for a literal. -/
def Reps.dist (reps : Reps) : PacketType → Nat
  | .pktShortRep | .pktRep0 => reps.rep0
  | .pktRep1 => reps.rep1
  | .pktRep2 => reps.rep2
  | .pktRep3 => reps.rep3
  | _ => 0

/-- The `switch` that falls through from one rep to the next. -/
def Reps.rotate (reps : Reps) : PacketType → Reps
  | .pktMatch | .pktRep3 => { reps with rep3 := reps.rep2, rep2 := reps.rep1, rep1 := reps.rep0 }
  | .pktRep2 => { reps with rep2 := reps.rep1, rep1 := reps.rep0 }
  | .pktRep1 => { reps with rep1 := reps.rep0 }
  | _ => reps

/-- `for (; len > 0; len--) { p_dst[pos] = prev_byte = p_dst[pos - dist]; pos++; }` -/
def copyLoop (dist : Nat) : Nat → DecodeVars → LzmaExec DecodeVars
  | 0, v => return v
  | len + 1, v => do
      let prevByte ← vecGet .dst v.dst ((v.pos : Int) - dist)
      let dst ← vecSet .dst v.dst (v.pos : Int) prevByte
      copyLoop dist len { v with prevByte, dst, pos := v.pos + 1 }

inductive Round (σ : Type) where
  | next (s : σ)
  | leave (s : σ)
  | ret (code : Ret) (s : σ)

structure LzmaParams where
  lc : Nat
  lp : Nat
  pb : Nat
  deriving DecidableEq, Repr

def decodePrevByte (params : LzmaParams) (type : PacketType) (v : DecodeVars) :
    LzmaExec (UInt8 × Decoder ProbCell) := do
  let lcShift := 8 - params.lc
  let lcMask := (1 <<< params.lc) - 1
  let lpMask := (1 <<< params.lp) - 1
  if type = .pktLit then
    let matchByte ←
      if v.state < nLitStates then pure 0
      else if v.pos ≥ v.reps.rep0 then vecGet .dst v.dst ((v.pos : Int) - v.reps.rep0)
      else pure 0
    let (literal, dec) ←
      decodeLiteral v.state (lpMask &&& v.pos) (lcMask &&& (v.prevByte.toNat >>> lcShift))
        matchByte.toNat v.dec
    return (UInt8.ofNat literal, dec)
  else return (v.prevByte, v.dec)

def decodeLenDist (params : LzmaParams) (type : PacketType) (v : DecodeVars) :
    LzmaExec ((Nat × Nat) × Decoder ProbCell) := do
  let pbMask := (1 <<< params.pb) - 1
  match type with
  | .pktLit | .pktShortRep => return ((1, v.reps.dist type), v.dec)
  | .pktMatch => do
      let (len, dec) ← decodeLen 0 (pbMask &&& v.pos) v.dec
      let (dist, dec) ← decodeDist len dec
      return ((len, dist), dec)
  | _ => do
      let (len, dec) ← decodeLen 1 (pbMask &&& v.pos) v.dec
      return ((len, v.reps.dist type), dec)

def writePacket (dstLen : Nat) (type : PacketType) (len dist : Nat) (v : DecodeVars) :
    LzmaExec (Round DecodeVars) := do
  if dist > v.pos then return .ret .errData v
  else if (v.pos + len) % 2 ^ 64 > dstLen then return .ret .errOutputOverflow v
  else
    let v ←
      if type = .pktLit then do
        let dst ← vecSet .dst v.dst (v.pos : Int) v.prevByte
        pure { v with dst }
      else pure { v with reps := { v.reps with rep0 := dist } }
    let v ← copyLoop dist len v
    return .next v

def lzmaDecodeRound (params : LzmaParams) (dstLen : Nat) (v : DecodeVars) :
    LzmaExec (Round DecodeVars) := do
  let pbMask := (1 <<< params.pb) - 1
  if v.dec.coder.overflow then return .ret .errInputOverflow v
  else
    let (type, dec) ← decodeType v.state (pbMask &&& v.pos) v.dec
    let (prevByte, dec) ← decodePrevByte params type { v with dec }
    let ((len, dist), dec) ← decodeLenDist params type { v with dec }
    let v :=
      { v with prevByte, dec, state := stateTransition v.state type, reps := v.reps.rotate type }
    if type = .pktMatch then
      if dist = 0xFFFFFFFF then return .leave v
      else writePacket dstLen type len ((dist + 1) % 2 ^ 32) v
    else writePacket dstLen type len dist v

/-- `while (pos < *p_dst_len)`. -/
def lzmaDecodeLoop (params : LzmaParams) (dstLen : Nat) :
    Nat → DecodeVars → LzmaExec (Ret × DecodeVars)
  | 0, _ => .error .outOfFuel
  | fuel + 1, v => do
      if v.pos < dstLen then
        match ← lzmaDecodeRound params dstLen v with
        | .next v => lzmaDecodeLoop params dstLen fuel v
        | .leave v => return (.ok, v)
        | .ret code v => return (code, v)
      else return (.ok, v)

/-- `*p_dst_len` changes at the regular end only. The literals' probabilities are in
the memory that `malloc` returned. -/
def lzmaDecode (src dst : List UInt8) (dstLen : Nat) (params : LzmaParams) : LzmaExec Written := do
  let (ret, v) ← lzmaDecodeLoop params dstLen (dstLen + 1) (.fresh src dst)
  return ⟨ret, v.dst, if ret = .ok then v.pos else dstLen⟩

def maxLc : Nat := 8
def maxLp : Nat := 4
def maxPb : Nat := 4

structure LzmaHeader where
  params : LzmaParams
  uncompressedLen : Nat
  uncompressedLenKnown : Bool
  deriving DecidableEq, Repr

def headerLen (src : List UInt8) : LzmaExec Nat :=
  forRange 0 8 0 fun i len => do
    let byte ← readSrc src ((5 + i : Nat) : Int)
    return len ||| (byte <<< (i <<< 3))

def parseLzmaHeader (src : List UInt8) : LzmaExec (Ret × LzmaHeader) := do
  let byte0 ← readSrc src 0
  let known ← forRange 0 8 false fun i known => do
    let byte ← readSrc src ((5 + i : Nat) : Int)
    return known || decide (byte ≠ 0xFF)
  let uncompressedLen ← if known then headerLen src else pure 0
  let params : LzmaParams := ⟨byte0 % 9, byte0 / 9 % 5, byte0 / 9 / 5⟩
  let header : LzmaHeader := ⟨params, uncompressedLen, known⟩
  if params.lc > maxLc ∨ params.lp > maxLp ∨ params.pb > maxPb then
    return (.errUnsupported, header)
  else return (.ok, header)

/-- `lzmaDecode` where its `malloc` finds memory, and where it does not. -/
def lzmaDecodeMalloc (memory : Bool) (src dst : List UInt8) (dstLen : Nat) (params : LzmaParams) :
    LzmaExec Written :=
  if memory then lzmaDecode src dst dstLen params else return ⟨.errMemoryRunout, dst, dstLen⟩

/-- `tinyLzmaDecompress` into a buffer whose `*p_dst_len` is its length. -/
def tinyLzmaDecompressMalloc (memory : Bool) (src dst : List UInt8) : LzmaExec Written := do
  if src.length < lzmaHeaderLen then return ⟨.errInputOverflow, dst, dst.length⟩
  else
    let (ret, header) ← parseLzmaHeader src
    if ret ≠ .ok then return ⟨ret, dst, dst.length⟩
    else if header.uncompressedLenKnown = true ∧ header.uncompressedLen > dst.length then
      return ⟨.errOutputOverflow, dst, dst.length⟩
    else
      let dstLen := if header.uncompressedLenKnown then header.uncompressedLen else dst.length
      let written ← lzmaDecodeMalloc memory (src.drop lzmaHeaderLen) dst dstLen header.params
      if written.ret = .ok ∧ header.uncompressedLenKnown = true ∧
          header.uncompressedLen ≠ written.dstLen then
        return { written with ret := .errOutputLenMismatch }
      else return written

def tinyLzmaDecompress (src dst : List UInt8) : LzmaExec Written :=
  tinyLzmaDecompressMalloc true src dst

theorem lzmaDecodeMalloc_true (src dst : List UInt8) (dstLen : Nat) (params : LzmaParams) :
    lzmaDecodeMalloc true src dst dstLen params = lzmaDecode src dst dstLen params := rfl

end TonCompress.Lzma
