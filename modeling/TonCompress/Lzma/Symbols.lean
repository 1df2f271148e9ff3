import TonCompress.Lzma.RangeCoder

/-! Numbers and bytes under the range coder: the probability tables, the bit
trees, and the packet types. -/
namespace TonCompress.Lzma
open TonCompress.Lib

/-- The arrays that the codec indexes. -/
inductive Site where
  | src | dst | probs
  deriving DecidableEq, Repr

abbrev LzmaExec := Exec Site

def nStates : Nat := 12
def nLitStates : Nat := 7

def nPrevByteLcMsbs : Nat := 1 <<< 8

inductive ProbRow where
  | isMatch (state posState : Nat)
  | isRep (state : Nat)
  | isRep0 (state : Nat)
  | isRep0Long (state posState : Nat)
  | isRep1 (state : Nat)
  | isRep2 (state : Nat)
  | literal (litPosState prevByteLcMsbs : Nat)
  | distSlot (lenMin5Minus2 : Nat)
  | distSpecial (slot : Nat)
  | distAlign
  | lenChoice (isRep : Nat)
  | lenChoice2 (isRep : Nat)
  | lenLow (isRep posState : Nat)
  | lenMid (isRep posState : Nat)
  | lenHigh (isRep : Nat)
  deriving DecidableEq, Repr

/-- A pointer into a row. -/
structure ProbCell where
  row : ProbRow
  offset : Nat
  deriving DecidableEq, Repr

def ProbRow.size : ProbRow → Nat
  | .isMatch .. | .isRep _ | .isRep0 _ | .isRep0Long .. | .isRep1 _ | .isRep2 _ => 1
  | .literal .. => 3 * (1 <<< 8)
  | .distSlot _ => (1 <<< 6) - 1
  | .distSpecial _ => (1 <<< 5) - 1
  | .distAlign => (1 <<< 4) - 1
  | .lenChoice _ | .lenChoice2 _ => 1
  | .lenLow .. | .lenMid .. => (1 <<< 3) - 1
  | .lenHigh _ => (1 <<< 8) - 1

def ProbRow.declared (nPosStates nLitPosStates : Nat) : ProbRow → Bool
  | .isMatch state posState => decide (state < nStates ∧ posState < nPosStates)
  | .isRep state | .isRep0 state | .isRep1 state | .isRep2 state => decide (state < nStates)
  | .isRep0Long state posState => decide (state < nStates ∧ posState < nPosStates)
  | .literal litPosState prevByteLcMsbs =>
      decide (litPosState < nLitPosStates ∧ prevByteLcMsbs < nPrevByteLcMsbs)
  | .distSlot lenMin5Minus2 => decide (lenMin5Minus2 < 4)
  | .distSpecial slot => decide (slot < 10)
  | .distAlign => true
  | .lenChoice rep | .lenChoice2 rep | .lenHigh rep => decide (rep < 2)
  | .lenLow rep posState | .lenMid rep posState => decide (rep < 2 ∧ posState < nPosStates)

def ProbCell.declared (nPosStates nLitPosStates : Nat) (cell : ProbCell) : Bool :=
  cell.row.declared nPosStates nLitPosStates && decide (cell.offset < cell.row.size)

abbrev EncodeM := StateT (Encoder ProbCell) LzmaExec
abbrev DecodeM := StateT (Decoder ProbCell) LzmaExec

/-- The dimensions of the encoder's tables, `1 << PB` and `1 << LP_PARAM`. -/
def encodeNPosStates : Nat := 1 <<< 0
def encodeNLitPosStates : Nat := 1 <<< 0

/-- The dimensions of the decoder's tables, `1 << MAX_PB` and `1 << MAX_LP`. -/
def decodeNPosStates : Nat := 1 <<< 4
def decodeNLitPosStates : Nat := 1 <<< 4

def encodeBit (cell : ProbCell) (bit : Bool) : EncodeM Unit := fun e =>
  if cell.declared encodeNPosStates encodeNLitPosStates then .ok ((), e.bit cell bit)
  else .error (.outOfRange .probs)

def decodeBit (cell : ProbCell) : DecodeM Bool := fun d =>
  if cell.declared decodeNPosStates decodeNLitPosStates then .ok (d.bit cell)
  else .error (.outOfRange .probs)

def encodeFixedBit (bit : Bool) : EncodeM Unit := fun e => .ok ((), e.fixedBit bit)

def decodeFixedBit : DecodeM Bool := fun d => .ok d.fixedBit

section encode

def rangeEncodeIntByFixedProb (val : Nat) : Nat → EncodeM Unit
  | 0 => pure ()
  | bitCount + 1 => do
      encodeFixedBit (val.testBit bitCount)
      rangeEncodeIntByFixedProb val bitCount

def rangeEncodeIntLoop (probs : ProbRow) (val : Nat) : Nat → Nat → EncodeM Unit
  | 0, _ => pure ()
  | bitCount + 1, treepos => do
      let bit := val.testBit bitCount
      encodeBit ⟨probs, treepos - 1⟩ bit
      rangeEncodeIntLoop probs val bitCount ((treepos <<< 1) ||| bit.toNat)

def rangeEncodeInt (probs : ProbRow) (val bitCount : Nat) : EncodeM Unit :=
  rangeEncodeIntLoop probs val bitCount 1

def rangeEncodeMBLoop (probs : ProbRow) : Nat → Nat → Nat → Nat → Nat → EncodeM Unit
  | 0, _, _, _, _ => pure ()
  | n + 1, byte, matchByte, treepos, off0 => do
      let bit := byte.testBit 7
      let matchByte := matchByte <<< 1
      let off1 := off0
      let off0 := off0 &&& matchByte
      encodeBit ⟨probs, off0 + off1 + treepos - 1⟩ bit
      rangeEncodeMBLoop probs n (byte <<< 1) matchByte ((treepos <<< 1) ||| bit.toNat)
        (if bit then off0 else off0 ^^^ off1)

def rangeEncodeMB (probs : ProbRow) (byte matchByte : Nat) : EncodeM Unit :=
  rangeEncodeMBLoop probs 8 byte matchByte 1 0x100

end encode

section decode

def rangeDecodeIntByFixedProbLoop : Nat → Nat → DecodeM Nat
  | 0, val => pure val
  | bitCount + 1, val => do
      let b ← decodeFixedBit
      rangeDecodeIntByFixedProbLoop bitCount ((val <<< 1) ||| b.toNat)

def rangeDecodeIntByFixedProb (bitCount : Nat) : DecodeM Nat :=
  rangeDecodeIntByFixedProbLoop bitCount 0

def rangeDecodeIntLoop (probs : ProbRow) : Nat → Nat → DecodeM Nat
  | 0, val => pure val
  | n + 1, val => do
      let bit ← decodeBit ⟨probs, val - 1⟩
      rangeDecodeIntLoop probs n ((val <<< 1) ||| bit.toNat)

def rangeDecodeInt (probs : ProbRow) (bitCount : Nat) : DecodeM Nat := do
  let val ← rangeDecodeIntLoop probs bitCount 1
  return val &&& ((1 <<< bitCount) - 1)

def rangeDecodeMBLoop (probs : ProbRow) : Nat → Nat → Nat → Nat → DecodeM Nat
  | 0, _, val, _ => pure val
  | n + 1, matchByte, val, off0 => do
      let matchByte := matchByte <<< 1
      let off1 := off0
      let off0 := off0 &&& matchByte
      let bit ← decodeBit ⟨probs, off0 + off1 + val - 1⟩
      rangeDecodeMBLoop probs n matchByte ((val <<< 1) ||| bit.toNat)
        (if bit then off0 else off0 ^^^ off1)

def rangeDecodeMB (probs : ProbRow) (matchByte : Nat) : DecodeM Nat := do
  let val ← rangeDecodeMBLoop probs 8 matchByte 1 0x100
  return val &&& 0xFF

end decode

def bitsReverseLoop : Nat → Nat → Nat → Nat
  | 0, _, revbits => revbits
  | bitCount + 1, bits, revbits =>
      bitsReverseLoop bitCount (bits >>> 1) ((revbits <<< 1) ||| (bits &&& 1))

def bitsReverse (bits bitCount : Nat) : Nat := bitsReverseLoop bitCount bits 0

/-- `for (; val != 0; val >>= 1) count++;` on 32 bits. -/
def countBitLoop : Nat → Nat → Nat → Nat
  | 0, _, count => count
  | fuel + 1, val, count => if val ≠ 0 then countBitLoop fuel (val >>> 1) (count + 1) else count

def countBit (val : Nat) : Nat := countBitLoop 32 val 0

inductive PacketType where
  | pktLit | pktMatch | pktShortRep | pktRep0 | pktRep1 | pktRep2 | pktRep3
  deriving DecidableEq, Repr

def transitionTo (onLit onMatch onShortRep onRep : Nat) : PacketType → Nat
  | .pktLit => onLit
  | .pktMatch => onMatch
  | .pktShortRep => onShortRep
  | _ => onRep

def stateTransition (state : Nat) (type : PacketType) : Nat :=
  match state with
  | 0 | 1 | 2 | 3 => transitionTo 0 7 9 8 type
  | 4 => transitionTo 1 7 9 8 type
  | 5 => transitionTo 2 7 9 8 type
  | 6 => transitionTo 3 7 9 8 type
  | 7 => transitionTo 4 10 11 11 type
  | 8 => transitionTo 5 10 11 11 type
  | 9 => transitionTo 6 10 11 11 type
  | 10 => transitionTo 4 10 11 11 type
  | 11 => transitionTo 5 10 11 11 type
  | _ => 0xFF

theorem stateTransition_lt {state : Nat} (h : state < nStates) (type : PacketType) :
    stateTransition state type < nStates := by
  have hall : ∀ state < nStates, stateTransition state type < nStates := by
    cases type <;> decide
  exact hall state h

structure Reps where
  rep0 : Nat
  rep1 : Nat
  rep2 : Nat
  rep3 : Nat
  deriving DecidableEq, Repr

def Reps.fresh : Reps := ⟨1, 1, 1, 1⟩

/-- `R_OK` and the `R_ERR_` codes that a run can end with. -/
inductive Ret where
  | ok | errMemoryRunout | errUnsupported | errOutputOverflow | errInputOverflow | errData
  | errOutputLenMismatch
  deriving DecidableEq, Repr

end TonCompress.Lzma
