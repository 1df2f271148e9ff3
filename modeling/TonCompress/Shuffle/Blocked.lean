import TonCompress.Shuffle.SseMatrix

/-! `bshuf_bitshuffle` and `bshuf_bitunshuffle`: the blocks of a buffer, and the chain of
`iochain.c` that says where each of them is. -/
namespace TonCompress.Shuffle
open TonCompress.Lib

section chain

abbrev iocSize : Nat := 33

/-- `ioc_chain`. A pointer is an offset into the input or the output, and `none` until it is set. -/
structure IocChain where
  next : Nat
  inPl : Fin iocSize → Option Nat
  outPl : Fin iocSize → Option Nat

def slot (iter : Nat) : Fin iocSize := Fin.ofNat iocSize iter

def iocInit : IocChain :=
  ⟨0, Function.update (fun _ => none) (slot 0) (some 0),
    Function.update (fun _ => none) (slot 0) (some 0)⟩

def pointer : Option Nat → BshufExec Nat
  | none => .error .uninitialised
  | some ptr => .ok ptr

/-- `ioc_get_in`. The iteration it gives is `C.next`. -/
def iocGetIn (C : IocChain) : BshufExec (Nat × IocChain) := do
  let inPtr ← pointer (C.inPl (slot C.next))
  return (inPtr, { C with next := C.next + 1 })

def iocSetNextIn (C : IocChain) (thisIter inPtr : Nat) : IocChain :=
  { C with inPl := Function.update C.inPl (slot (thisIter + 1)) (some inPtr) }

def iocGetOut (C : IocChain) (thisIter : Nat) : BshufExec Nat := pointer (C.outPl (slot thisIter))

def iocSetNextOut (C : IocChain) (thisIter outPtr : Nat) : IocChain :=
  { C with outPl := Function.update C.outPl (slot (thisIter + 1)) (some outPtr) }

end chain

section routines

/-- What a build of the library has: SSE2, and the byte order for the routines without it. -/
structure Build where
  sse2 : Bool
  littleEndian : Bool
  deriving DecidableEq, Repr

/-- The two calls of `malloc` that the routine for a block may make, by its iteration. -/
abbrev Mallocs := Nat → Malloc × Malloc

/-- A routine for a block: its iteration, the input and the output from the block on, the
number of elements and their size. -/
abbrev BlockRoutine := Nat → List UInt8 → List UInt8 → Nat → Nat → BshufExec (Int × List UInt8)

def transBitElem (build : Build) (mallocs : Mallocs) : BlockRoutine :=
  fun iter src out size elemSize =>
    if build.sse2 then transBitElemSse (mallocs iter).1 (mallocs iter).2 src out size elemSize
    else transBitElemScal build.littleEndian (mallocs iter).1 src out size elemSize

def untransBitElem (build : Build) (mallocs : Mallocs) : BlockRoutine :=
  fun iter src out size elemSize =>
    if build.sse2 then untransBitElemSse (mallocs iter).1 src out size elemSize
    else untransBitElemScal build.littleEndian (mallocs iter).1 src out size elemSize

structure BlockedVars where
  C : IocChain
  out : List UInt8
  err : Int
  cumCount : Int

/-- `bshuf_bitshuffle_block` and `bshuf_bitunshuffle_block`, and what the loop makes of
the count. -/
def runBlock (routine : BlockRoutine) (src : List UInt8) (size elemSize : Nat) (vars : BlockedVars) :
    BshufExec BlockedVars := do
  let thisIter := vars.C.next
  let inPtr ← iocGetIn vars.C
  let C := iocSetNextIn inPtr.2 thisIter (inPtr.1 + size * elemSize)
  let outPtr ← iocGetOut C thisIter
  let C := iocSetNextOut C thisIter (outPtr + size * elemSize)
  let count ← routine thisIter (src.drop inPtr.1) (vars.out.drop outPtr) size elemSize
  return ⟨C, vars.out.take outPtr ++ count.2, if count.1 < 0 then count.1 else vars.err,
    vars.cumCount + count.1⟩

def bshufDefaultBlockSize (elemSize : Nat) : BshufExec Nat :=
  if elemSize = 0 then .error .abort else .ok (max (8192 / elemSize / 8 * 8) 128)

/-- The eights of elements that the loop over the blocks of `blockSize` elements leaves. -/
def runLastBlock (routine : BlockRoutine) (src : List UInt8) (size elemSize blockSize : Nat)
    (vars : BlockedVars) : BshufExec BlockedVars :=
  let lastBlockSize := size % blockSize - size % blockSize % 8
  if lastBlockSize ≠ 0 then runBlock routine src lastBlockSize elemSize vars else return vars

/-- `bshuf_blocked_wrap_fun` behind that loop. -/
def bshufBlockedWrapRest (routine : BlockRoutine) (src : List UInt8)
    (size elemSize blockSize : Nat) (vars : BlockedVars) : BshufExec (Int × List UInt8) := do
  let vars ← runLastBlock routine src size elemSize blockSize vars
  if vars.err < 0 then return (vars.err, vars.out)
  else do
    let leftoverBytes := size % 8 * elemSize
    let thisIter := vars.C.next
    let lastIn ← iocGetIn vars.C
    let C := iocSetNextIn lastIn.2 thisIter (lastIn.1 + leftoverBytes)
    let lastOut ← iocGetOut C thisIter
    -- nothing reads the chain after `ioc_set_next_out`
    let out ← memcpy src lastOut lastIn.1 leftoverBytes vars.out
    return (vars.cumCount + leftoverBytes, out)

/-- `bshuf_blocked_wrap_fun`, with the loop as one thread runs it. -/
def bshufBlockedWrapFun (routine : BlockRoutine) (src out : List UInt8)
    (size elemSize blockSize : Nat) : BshufExec (Int × List UInt8) := do
  let blockSize ← if blockSize = 0 then bshufDefaultBlockSize elemSize else pure blockSize
  if blockSize % 8 ≠ 0 then return (-81, out)
  else do
    let vars ← forRange 0 (size / blockSize) ⟨iocInit, out, 0, 0⟩ fun _ =>
      runBlock routine src blockSize elemSize
    bshufBlockedWrapRest routine src size elemSize blockSize vars

def bshufBitshuffle (build : Build) (mallocs : Mallocs) (src out : List UInt8)
    (size elemSize blockSize : Nat) : BshufExec (Int × List UInt8) :=
  bshufBlockedWrapFun (transBitElem build mallocs) src out size elemSize blockSize

def bshufBitunshuffle (build : Build) (mallocs : Mallocs) (src out : List UInt8)
    (size elemSize blockSize : Nat) : BshufExec (Int × List UInt8) :=
  bshufBlockedWrapFun (untransBitElem build mallocs) src out size elemSize blockSize

end routines

end TonCompress.Shuffle
