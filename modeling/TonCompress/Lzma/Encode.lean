import TonCompress.Lzma.Search

/-! The encoder: `lzmaEncode` and `tinyLzmaCompress`. -/
namespace TonCompress.Lzma
open TonCompress.Lib

def lcParam : Nat := 8
def lcShift : Nat := 8 - lcParam
def lcMask : Nat := (1 <<< lcParam) - 1
def lpParam : Nat := 0
def lpMask : Nat := (1 <<< lpParam) - 1
def pbParam : Nat := 0
def pbMask : Nat := (1 <<< pbParam) - 1

def lclppbByte : Nat := (pbParam * 5 + lpParam) * 9 + lcParam

section packet

def encodeType (type : PacketType) (state posState : Nat) : EncodeM Unit :=
  match type with
  | .pktLit => encodeBit ⟨.isMatch state posState, 0⟩ false
  | .pktMatch => do
      encodeBit ⟨.isMatch state posState, 0⟩ true
      encodeBit ⟨.isRep state, 0⟩ false
  | .pktShortRep => do
      encodeBit ⟨.isMatch state posState, 0⟩ true
      encodeBit ⟨.isRep state, 0⟩ true
      encodeBit ⟨.isRep0 state, 0⟩ false
      encodeBit ⟨.isRep0Long state posState, 0⟩ false
  | .pktRep0 => do
      encodeBit ⟨.isMatch state posState, 0⟩ true
      encodeBit ⟨.isRep state, 0⟩ true
      encodeBit ⟨.isRep0 state, 0⟩ false
      encodeBit ⟨.isRep0Long state posState, 0⟩ true
  | .pktRep1 => do
      encodeBit ⟨.isMatch state posState, 0⟩ true
      encodeBit ⟨.isRep state, 0⟩ true
      encodeBit ⟨.isRep0 state, 0⟩ true
      encodeBit ⟨.isRep1 state, 0⟩ false
  | .pktRep2 => do
      encodeBit ⟨.isMatch state posState, 0⟩ true
      encodeBit ⟨.isRep state, 0⟩ true
      encodeBit ⟨.isRep0 state, 0⟩ true
      encodeBit ⟨.isRep1 state, 0⟩ true
      encodeBit ⟨.isRep2 state, 0⟩ false
  | .pktRep3 => do
      encodeBit ⟨.isMatch state posState, 0⟩ true
      encodeBit ⟨.isRep state, 0⟩ true
      encodeBit ⟨.isRep0 state, 0⟩ true
      encodeBit ⟨.isRep1 state, 0⟩ true
      encodeBit ⟨.isRep2 state, 0⟩ true

def encodeLiteral (state litPosState prevByteLcMsbs currByte matchByte : Nat) : EncodeM Unit :=
  if state < nLitStates then rangeEncodeInt (.literal litPosState prevByteLcMsbs) currByte 8
  else rangeEncodeMB (.literal litPosState prevByteLcMsbs) currByte matchByte

def encodeLen (isRep posState len : Nat) : EncodeM Unit :=
  if len < 10 then do
    encodeBit ⟨.lenChoice isRep, 0⟩ false
    rangeEncodeInt (.lenLow isRep posState) (len - 2) 3
  else if len < 18 then do
    encodeBit ⟨.lenChoice isRep, 0⟩ true
    encodeBit ⟨.lenChoice2 isRep, 0⟩ false
    rangeEncodeInt (.lenMid isRep posState) (len - 10) 3
  else do
    encodeBit ⟨.lenChoice isRep, 0⟩ true
    encodeBit ⟨.lenChoice2 isRep, 0⟩ true
    rangeEncodeInt (.lenHigh isRep) (len - 18) 8

/-- The slot of `dist - 1`. -/
def distSlot (dist : Nat) : Nat :=
  if dist < 4 then dist
  else
    let distSlot := countBit dist - 1
    (distSlot <<< 1) ||| ((dist >>> (distSlot - 1)) &&& 1)

def encodeDist (len dist : Nat) : EncodeM Unit := do
  let lenMin5Minus2 := if len > 5 then 3 else len - 2
  let dist := (dist + (2 ^ 32 - 1)) % 2 ^ 32
  let distSlot := distSlot dist
  rangeEncodeInt (.distSlot lenMin5Minus2) distSlot 6
  let bcnt := (distSlot >>> 1) - 1
  if distSlot ≥ 14 then
    let bcnt := bcnt - 4
    rangeEncodeIntByFixedProb ((dist >>> 4) &&& ((1 <<< bcnt) - 1)) bcnt
    rangeEncodeInt .distAlign (bitsReverse (dist &&& ((1 <<< 4) - 1)) 4) 4
  else if distSlot ≥ 4 then
    rangeEncodeInt (.distSpecial (distSlot - 4))
      (bitsReverse (dist &&& ((1 <<< bcnt) - 1)) bcnt) bcnt

structure PacketContext where
  state : Nat
  posState : Nat
  litPosState : Nat
  prevByteLcMsbs : Nat
  matchByte : Nat
  deriving DecidableEq, Repr

def encodePacket (ctx : PacketContext) (type : PacketType) (len dist currByte : Nat) :
    EncodeM Unit := do
  encodeType type ctx.state ctx.posState
  match type with
  | .pktLit => encodeLiteral ctx.state ctx.litPosState ctx.prevByteLcMsbs currByte ctx.matchByte
  | .pktShortRep => pure ()
  | .pktMatch => do
      encodeLen 0 ctx.posState len
      encodeDist len dist
  | _ => encodeLen 1 ctx.posState len

end packet

/-- A match put off to a later position. -/
structure Bypass where
  nBypass : Nat
  lenBypass : Nat
  distBypass : Nat
  deriving DecidableEq, Repr

def Bypass.fresh : Bypass := ⟨0, 0, 0⟩

/-- The search at `pos + 2`, for a match of three bytes or more, and its score. -/
def lookFurther (src : List UInt8) (pos : Nat) (reps : Reps) (table : HashTable) (len : Nat) :
    LzmaExec (Nat × Nat × Nat) := do
  if len ≥ 3 then
    let (len2, dist2) ← lzSearch src (pos + 2) reps table
    return (len2, dist2, lenDistScore len2 dist2 reps - 1)
  else return (0, 0, 0)

/-- The look ahead: the match found at `pos` against the ones at `pos + 1` and
`pos + 2`. -/
def lookAhead (src : List UInt8) (pos : Nat) (reps : Reps) (table : HashTable)
    (len dist : Nat) (bypass : Bypass) : LzmaExec (Nat × Nat × Bypass) := do
  let score0 := lenDistScore len dist reps
  let (len1, dist1) ← lzSearch src (pos + 1) reps table
  let score1 := lenDistScore len1 dist1 reps
  let (len2, dist2, score2) ← lookFurther src pos reps table len
  if score2 > score0 ∧ score2 > score1 then
    let (len, dist) ← lzSearchRep src pos reps 2
    return (len, dist, ⟨if len < 2 then 1 else 0, len2, dist2⟩)
  else if score1 > score0 then return (0, 0, ⟨0, len1, dist1⟩)
  else return (len, dist, bypass)

def chooseMatch (src : List UInt8) (pos : Nat) (reps : Reps) (table : HashTable)
    (bypass : Bypass) : LzmaExec (Nat × Nat × Bypass) := do
  if bypass.nBypass > 0 then return (0, 0, { bypass with nBypass := bypass.nBypass - 1 })
  else if bypass.lenBypass > 0 then
    return (bypass.lenBypass, bypass.distBypass, ⟨bypass.nBypass, 0, 0⟩)
  else
    let (len, dist) ← lzSearch src pos reps table
    if src.length - pos > 8 ∧ len ≥ 2 then lookAhead src pos reps table len dist bypass
    else return (len, dist, bypass)

def chooseType (src : List UInt8) (pos : Nat) (reps : Reps) (len dist : Nat) :
    LzmaExec (PacketType × Reps) := do
  if len < 2 then
    let short ← isShortRep src pos reps.rep0
    return (if short then .pktShortRep else .pktLit, reps)
  else if dist = reps.rep0 then return (.pktRep0, reps)
  else if dist = reps.rep1 then
    return (.pktRep1, { reps with rep1 := reps.rep0, rep0 := dist })
  else if dist = reps.rep2 then
    return (.pktRep2, { reps with rep2 := reps.rep1, rep1 := reps.rep0, rep0 := dist })
  else if dist = reps.rep3 then return (.pktRep3, ⟨dist, reps.rep0, reps.rep1, reps.rep2⟩)
  else return (.pktMatch, ⟨dist, reps.rep0, reps.rep1, reps.rep2⟩)

def packetLen (type : PacketType) (len : Nat) : Nat :=
  if type = .pktLit ∨ type = .pktShortRep then 1 else len

structure EncodeVars where
  state : Nat
  pos : Nat
  reps : Reps
  bypass : Bypass
  hashTable : HashTable
  withEndMark : Bool
  enc : Encoder ProbCell

def EncodeVars.fresh (dstLen : Nat) (withEndMark : Bool) : EncodeVars where
  state := 0
  pos := 0
  reps := .fresh
  bypass := .fresh
  hashTable := initHashTable
  withEndMark := withEndMark
  enc := .fresh dstLen

def packetContext (src : List UInt8) (state pos : Nat) (reps : Reps) :
    LzmaExec (Nat × PacketContext) := do
  let currByte ← if pos < src.length then readSrc src (pos : Int) else pure 0
  let (matchByte, prevByteLcMsbs) ←
    if pos > 0 then do
      let matchByte ← readSrc src ((pos : Int) - reps.rep0)
      let prevByte ← readSrc src ((pos : Int) - 1)
      pure (matchByte, (prevByte >>> lcShift) &&& lcMask)
    else pure (0, 0)
  return (currByte, ⟨state, pbMask &&& pos, lpMask &&& pos, prevByteLcMsbs, matchByte⟩)

/-- One round of the loop, none at its `break`. -/
def lzmaEncodeRound (src : List UInt8) (v : EncodeVars) : LzmaExec (Option EncodeVars) := do
  let (currByte, ctx) ← packetContext src v.state v.pos v.reps
  if v.pos ≥ src.length then
    if v.withEndMark = false then return none
    else
      let ((), enc) ← encodePacket ctx .pktMatch 2 0 currByte v.enc
      return some { v with withEndMark := false, enc, state := stateTransition v.state .pktMatch }
  else
    let (len, dist, bypass) ← chooseMatch src v.pos v.reps v.hashTable v.bypass
    let (type, reps) ← chooseType src v.pos v.reps len dist
    let pos2 := v.pos + packetLen type len
    let hashTable ← forRange v.pos pos2 v.hashTable (updateHashTable src)
    let ((), enc) ← encodePacket ctx type len dist currByte v.enc
    return some
      { v with
        state := stateTransition v.state type
        pos := pos2
        reps, bypass, hashTable, enc }

/-- `while (!coder.overflow)`. -/
def lzmaEncodeLoop (src : List UInt8) : Nat → EncodeVars → LzmaExec EncodeVars
  | 0, _ => .error .outOfFuel
  | fuel + 1, v => do
      if v.enc.coder.overflow then return v
      else
        match ← lzmaEncodeRound src v with
        | none => return v
        | some v => lzmaEncodeLoop src fuel v

/-- The return code and the bytes written, with the hash table that `malloc` returned. -/
def lzmaEncode (src : List UInt8) (dstLen : Nat) (withEndMark : Bool) :
    LzmaExec (Ret × List UInt8) := do
  let v ← lzmaEncodeLoop src (src.length + 3) (.fresh dstLen withEndMark)
  let coder := rangeEncodeTerminate v.enc.coder
  return (if coder.overflow then .errOutputOverflow else .ok, coder.dst)

def lzmaDicLen : Nat := lzDistMaxPlus1
def lzmaHeaderLen : Nat := 13

def lzmaHeader (uncompressedLen : Nat) (uncompressedLenKnown : Bool) : List UInt8 :=
  UInt8.ofNat lclppbByte ::
    ((List.range 4).map fun i => UInt8.ofNat (lzmaDicLen >>> (i * 8))) ++
    (List.range 8).map fun i =>
      if uncompressedLenKnown then UInt8.ofNat (uncompressedLen >>> (i * 8)) else 0xFF

def writeTo (buffer bytes : List UInt8) : List UInt8 := bytes ++ buffer.drop bytes.length

/-- What a call leaves behind: its return code, the buffer, and `*p_dst_len`. -/
structure Written where
  ret : Ret
  dst : List UInt8
  dstLen : Nat
  deriving DecidableEq, Repr

/-- `lzmaEncode` where its `malloc` finds memory, and where it does not. -/
def lzmaEncodeMalloc (memory : Bool) (src : List UInt8) (dstLen : Nat) (withEndMark : Bool) :
    LzmaExec (Ret × List UInt8) :=
  if memory then lzmaEncode src dstLen withEndMark else return (.errMemoryRunout, [])

/-- `tinyLzmaCompress` into a buffer of `*p_dst_len` bytes. -/
def tinyLzmaCompressMalloc (memory : Bool) (src dst : List UInt8) : LzmaExec Written := do
  if dst.length < lzmaHeaderLen then return ⟨.errOutputOverflow, dst, dst.length⟩
  else
    let header := lzmaHeader src.length true
    let (ret, bytes) ← lzmaEncodeMalloc memory src (dst.length - lzmaHeaderLen) false
    let dst := writeTo dst (header ++ bytes)
    if ret ≠ .ok then return ⟨ret, dst, dst.length⟩
    else return ⟨.ok, dst, lzmaHeaderLen + bytes.length⟩

def tinyLzmaCompress (src dst : List UInt8) : LzmaExec Written := tinyLzmaCompressMalloc true src dst

theorem lzmaEncodeMalloc_true (src : List UInt8) (dstLen : Nat) (withEndMark : Bool) :
    lzmaEncodeMalloc true src dstLen withEndMark = lzmaEncode src dstLen withEndMark := rfl

end TonCompress.Lzma
