import TonCompress.Zpaq.Coder

/-! The segments of a block: what `Compressor` writes behind a block's header, and
`Decompresser` and `PostProcessor`, which read it. -/
namespace TonCompress.Zpaq

/-- The machine that runs a postprocessing program: `initp` on the sizes and the
program, and what `run` puts out for a byte or for the end of a segment. Sizes may be too
big, and a program may end in an error or never. -/
structure Machine where
  State : Type
  initp : Nat → Nat → List UInt8 → Except ZpaqStop State
  run : State → Option UInt8 → Except ZpaqStop (State × List UInt8)

variable {pr : Predictor} {mc : Machine}

section compressor

/-- A segment as it is given to `Compressor`. The names are strings in C. -/
structure Segment where
  filename : List UInt8
  comment : List UInt8
  data : List UInt8
  sha1string : Option (List UInt8)
  filename_ne : 0 ∉ filename
  comment_ne : 0 ∉ comment
  sha1_length : ∀ sha1 ∈ sha1string, sha1.length = 20

def Encoder.write (bytes : List UInt8) (e : Encoder pr) : Encoder pr := { e with out := e.out ++ bytes }

def Encoder.startSegment (filename comment : List UInt8) (e : Encoder pr) : Encoder pr :=
  e.write (1 :: filename ++ 0 :: comment ++ [0, 0])

/-- What `postProcess` compresses in front of a block's first segment. -/
def postProcessCode (pcomp : List UInt8) : List UInt8 :=
  if pcomp ≠ [] then
    1 :: UInt8.ofNat (pcomp.length &&& 255) :: UInt8.ofNat ((pcomp.length >>> 8) &&& 255) :: pcomp
  else [0]

def Encoder.compressBytes (bytes : List UInt8) (e : Encoder pr) : Except ZpaqStop (Encoder pr) :=
  bytes.foldlM (fun e c => e.compress (some c)) e

/-- `first` stands for the state `SEG1`, in which `postProcess` has work to do. -/
def Encoder.postProcess (first : Bool) (pcomp : List UInt8) (e : Encoder pr) :
    Except ZpaqStop (Encoder pr) :=
  if first then e.init >>= Encoder.compressBytes (postProcessCode pcomp) else .ok e

def checksumBytes : Option (List UInt8) → List UInt8
  | some sha1 => 253 :: sha1
  | none => [254]

def Encoder.endSegment (sha1string : Option (List UInt8)) (e : Encoder pr) :
    Except ZpaqStop (Encoder pr) := do
  let e ← e.compress none
  return (e.write (List.replicate 4 0)).write (checksumBytes sha1string)

def Encoder.segment (first : Bool) (pcomp : List UInt8) (s : Segment) (e : Encoder pr) :
    Except ZpaqStop (Encoder pr) := do
  let e ← (e.startSegment s.filename s.comment).postProcess first pcomp
  let e ← e.compressBytes s.data
  e.endSegment s.sha1string

def Encoder.segments (pcomp : List UInt8) :
    Bool → List Segment → Encoder pr → Except ZpaqStop (Encoder pr)
  | _, [], e => .ok (e.write [255])
  | first, s :: rest, e => e.segment first pcomp s >>= segments pcomp false rest

def blockBody (pr : Predictor) (pcomp : List UInt8) (list : List Segment) :
    Except ZpaqStop (List UInt8) := do
  let e ← (Encoder.fresh pr []).segments pcomp true list
  return e.out

end compressor

section postprocessor

inductive PostState where
  | init | pass | prog | size | load | post
  deriving DecidableEq, Repr

def PostState.loading (s : PostState) : Bool := s ≠ .pass ∧ s ≠ .post

/-- `output` is what was written, `outbuf` what was not yet flushed. -/
structure PostProcessor (mc : Machine) where
  state : PostState
  hsize : Nat
  ph : Nat
  pm : Nat
  program : List UInt8
  machine : Option mc.State
  outbuf : List UInt8
  output : List UInt8

def PostProcessor.fresh (mc : Machine) : PostProcessor mc := ⟨.init, 0, 0, 0, [], none, [], []⟩

def PostProcessor.init (h m : Nat) (pp : PostProcessor mc) : PostProcessor mc :=
  { pp with state := .init, hsize := 0, ph := h, pm := m, program := [], machine := none }

def PostProcessor.flush (pp : PostProcessor mc) : PostProcessor mc :=
  { pp with output := pp.output ++ pp.outbuf, outbuf := [] }

def outbufSize : Nat := 16384

def PostProcessor.outc (c : Option UInt8) (pp : PostProcessor mc) : PostProcessor mc :=
  match c with
  | none => pp.flush
  | some c =>
      let pp := { pp with outbuf := pp.outbuf ++ [c] }
      if pp.outbuf.length = outbufSize then pp.flush else pp

def PostProcessor.run (c : Option UInt8) (pp : PostProcessor mc) :
    Except ZpaqStop (PostProcessor mc) :=
  match pp.machine with
  | none => .ok pp
  | some machine => do
      let (machine, bytes) ← mc.run machine c
      return bytes.foldl (fun pp byte => pp.outc (some byte)) { pp with machine := some machine }

def PostProcessor.write (c : Option UInt8) (pp : PostProcessor mc) :
    Except ZpaqStop (PostProcessor mc) :=
  match pp.state, c with
  | .pass, c => .ok (pp.outc c)
  | .post, some c => pp.run (some c)
  | .post, none => pp.run none >>= fun pp => .ok pp.flush
  | _, none => .error (.error "Unexpected EOS")
  | .init, some c =>
      if c = 0 then .ok { pp with state := .pass, program := [], machine := none }
      else if c = 1 then .ok { pp with state := .prog }
      else .error (.error "unknown post processing type")
  | .prog, some c => .ok { pp with hsize := c.toNat, state := .size }
  | .size, some c =>
      let hsize := pp.hsize + c.toNat * 256
      if hsize < 1 then .error (.error "Empty PCOMP")
      else .ok { pp with hsize, program := [], state := .load }
  | .load, some c =>
      let program := pp.program ++ [c]
      if program.length = pp.hsize then do
        let machine ← mc.initp pp.ph pp.pm program
        return { pp with program, machine := some machine, state := .post }
      else .ok { pp with program }

end postprocessor

section decompresser

inductive Expected where
  | block | filename | comment | data | segend
  deriving DecidableEq, Repr

inductive DecodeState where
  | firstseg | seg | skip
  deriving DecidableEq, Repr

/-- A `Decompresser` inside a block whose header gives `ph` and `pm`. -/
structure Decompresser (pr : Predictor) (mc : Machine) where
  ph : Nat
  pm : Nat
  dec : Decoder pr
  pp : PostProcessor mc
  state : Expected
  decodeState : DecodeState

abbrev DecompresserM (pr : Predictor) (mc : Machine) :=
  StateT (Decompresser pr mc) (Except ZpaqStop)

def onDecoder {α : Type} (call : DecoderM pr α) : DecompresserM pr mc α := fun d =>
  call d.dec >>= fun r => .ok (r.1, { d with dec := r.2 })

def onPost (call : PostProcessor mc → Except ZpaqStop (PostProcessor mc)) :
    DecompresserM pr mc Unit := fun d =>
  call d.pp >>= fun pp => .ok ((), { d with pp })

def assertState (state : Expected) : DecompresserM pr mc Unit := fun d =>
  if d.state = state then .ok ((), d) else .error .assertion

def Decompresser.foundBlock (mc : Machine) (ph pm : Nat) (dec : Decoder pr) (pp : PostProcessor mc) :
    Decompresser pr mc := ⟨ph, pm, dec, pp, .filename, .firstseg⟩

/-- The loops of `findFilename` and `readComment` over a string, on the input. -/
def readString : List UInt8 → Except ZpaqStop (List UInt8 × List UInt8)
  | [] => .error (.error "unexpected EOF")
  | c :: input =>
      if c = 0 then .ok ([], input)
      else readString input >>= fun r => .ok (c :: r.1, r.2)

def Decoder.getString : DecoderM pr (List UInt8) := fun d =>
  readString d.input >>= fun r => .ok (r.1, { d with input := r.2 })

/-- The name of the next segment, or none at the end of the block. -/
def Decompresser.findFilename : DecompresserM pr mc (Option (List UInt8)) := do
  assertState .filename
  let c ← onDecoder Decoder.get
  if c = some 1 then
    let filename ← onDecoder Decoder.getString
    modify fun d => { d with state := .comment }
    return some filename
  else if c = some 255 then
    modify fun d => { d with state := .block }
    return none
  else throw (.error "missing segment or end of block")

def Decompresser.readComment : DecompresserM pr mc (List UInt8) := do
  assertState .comment
  modify fun d => { d with state := .data }
  let comment ← onDecoder Decoder.getString
  let c ← onDecoder Decoder.get
  if c ≠ some 0 then throw (.error "missing reserved byte")
  return comment

def Decompresser.load : Nat → DecompresserM pr mc Unit
  | 0 => throw .outOfFuel
  | fuel + 1 => do
      let d ← MonadState.get
      if d.pp.state.loading then
        let c ← onDecoder Decoder.decompress
        onPost (PostProcessor.write c)
        load fuel
      else pure ()

def Decompresser.decompressLoop : Nat → Option Nat → DecompresserM pr mc Bool
  | 0, _ => throw .outOfFuel
  | fuel + 1, n =>
      if n = some 0 then pure true
      else do
        let c ← onDecoder Decoder.decompress
        onPost (PostProcessor.write c)
        if c = none then
          modify fun d => { d with state := .segend }
          return false
        else decompressLoop fuel (n.map (· - 1))

def Decompresser.initFirst (d : Decompresser pr mc) : Except ZpaqStop (Decompresser pr mc) :=
  if d.decodeState = .firstseg then do
    let dec ← d.dec.init
    return { d with dec, pp := d.pp.init d.ph d.pm, decodeState := .seg }
  else .ok d

def Decompresser.decompress (fuel : Nat) (n : Option Nat) : DecompresserM pr mc Bool := do
  assertState .data
  let d ← MonadState.get
  if d.decodeState = .skip then throw (.error "decompression after skipped segment")
  set (← d.initFirst)
  Decompresser.load fuel
  Decompresser.decompressLoop fuel n

def Decoder.getChecksum : Nat → DecoderM pr (List UInt8)
  | 0 => pure []
  | n + 1 => do
      let c ← Decoder.get
      let rest ← getChecksum n
      return c.getD 255 :: rest

/-- `readSegmentEnd` with the checksum that it finds. -/
def Decompresser.readSegmentEnd : DecompresserM pr mc (Option (List UInt8)) := do
  let d ← MonadState.get
  if d.state ≠ .data ∧ d.state ≠ .segend then throw .assertion
  let c ← (if d.state = .data then onDecoder Decoder.skip else onDecoder Decoder.get)
  modify fun e => { e with
    decodeState := if d.state = .data then .skip else e.decodeState, state := .filename }
  if c = some 254 then return none
  else if c = some 253 then
    let sha1 ← onDecoder (Decoder.getChecksum 20)
    return some sha1
  else throw (.error "missing end of segment marker")

def Decompresser.decompressBlock (fuel : Nat) : Nat → DecompresserM pr mc Unit
  | 0 => throw .outOfFuel
  | rounds + 1 => do
      let filename ← Decompresser.findFilename
      if filename = none then return ()
      let _ ← Decompresser.readComment
      let _ ← Decompresser.decompress fuel none
      let _ ← Decompresser.readSegmentEnd
      decompressBlock fuel rounds

/-- One segment as a client of the library reads it: with a call of `decompress`
in front of `readSegmentEnd` or without one. -/
def Decompresser.visit (fuel : Nat) (call : Option (Option Nat)) :
    DecompresserM pr mc (Option (List UInt8) × List UInt8 × Option (List UInt8)) := do
  let filename ← Decompresser.findFilename
  let comment ← Decompresser.readComment
  match call with
  | none => pure ()
  | some n => let _ ← Decompresser.decompress fuel n
  let sha1string ← Decompresser.readSegmentEnd
  return (filename, comment, sha1string)

/-- A client that reads a block to its end, with one call for each segment. -/
def Decompresser.visitAll (fuel : Nat) : List (Option (Option Nat)) →
    DecompresserM pr mc (List (Option (List UInt8) × List UInt8 × Option (List UInt8)))
  | [] => do
      let _ ← Decompresser.findFilename
      return []
  | call :: calls => do
      let first ← Decompresser.visit fuel call
      let others ← visitAll fuel calls
      return first :: others

end decompresser

end TonCompress.Zpaq
