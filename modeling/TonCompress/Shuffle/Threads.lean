import TonCompress.Shuffle.BlockRuns
import Mathlib.Logic.Relation

/-! The loop of `bshuf_blocked_wrap_fun` run by several threads, with the locks that
`iochain.c` has under OpenMP. A step of the system is one step of one thread. -/
namespace TonCompress.Shuffle
open TonCompress.Lib

inductive Lock where
  | next
  | inPl (place : Fin iocSize)
  | outPl (place : Fin iocSize)
  deriving DecidableEq, Repr

/-- What a thread does in one step. `work` is `bshuf_trans_bit_elem` or its inverse. -/
inductive Instr where
  | setLock (lock : Lock)
  | unsetLock (lock : Lock)
  | readNext
  | bumpNext
  | readIn
  | writeIn
  | readOut
  | writeOut
  | work
  deriving DecidableEq, Repr

section code

/-- `ioc_get_in`, for an iteration known from `readNext` on. -/
def iocGetInCode (thisIter : Nat) : List Instr :=
  [.setLock .next, .readNext, .bumpNext, .setLock (.inPl (slot thisIter)),
    .setLock (.inPl (slot (thisIter + 1))), .setLock (.outPl (slot (thisIter + 1))),
    .unsetLock .next, .readIn]

def iocSetNextInCode (thisIter : Nat) : List Instr :=
  [.writeIn, .unsetLock (.inPl (slot (thisIter + 1)))]

def iocGetOutCode (thisIter : Nat) : List Instr :=
  [.setLock (.outPl (slot thisIter)), .readOut, .unsetLock (.outPl (slot thisIter))]

def iocSetNextOutCode (thisIter : Nat) : List Instr :=
  [.writeOut, .unsetLock (.outPl (slot (thisIter + 1))), .unsetLock (.inPl (slot thisIter))]

/-- `bshuf_bitshuffle_block` and `bshuf_bitunshuffle_block`. -/
def blockCode (thisIter : Nat) : List Instr :=
  iocGetInCode thisIter ++ iocSetNextInCode thisIter ++ iocGetOutCode thisIter ++
    iocSetNextOutCode thisIter ++ [.work]

end code

/-- The variables of a call for a block, and the number of its steps that are done. -/
structure Call where
  pc : Nat
  thisIter : Nat
  inPtr : Nat
  outPtr : Nat
  deriving DecidableEq, Repr

/-- The state of the loop: the holder of each lock, the call that each thread is in, the
rounds that no thread has taken yet, and the variables. `cumCount` is the sum over the threads. -/
structure Loop (Thread : Type) where
  owner : Lock → Option Thread
  calls : Thread → Option Call
  todo : Nat
  vars : BlockedVars

def Loop.start {Thread : Type} (count : Nat) (out : List UInt8) : Loop Thread :=
  ⟨fun _ => none, fun _ => none, count, ⟨iocInit, out, 0, 0⟩⟩

section step
variable {Thread : Type} [DecidableEq Thread]
variable (routine : BlockRoutine) (src : List UInt8) (blockSize elemSize : Nat)

def Loop.setChain (s : Loop Thread) (C : IocChain) : Loop Thread :=
  { s with vars := { s.vars with C := C } }

/-- The step of a thread in a call; `none` where the thread has to wait for a lock. -/
def runInstr (t : Thread) (call : Call) (s : Loop Thread) : Instr → Option (Call × Loop Thread)
  | .setLock lock =>
      if s.owner lock = none then some (call, { s with owner := Function.update s.owner lock (some t) })
      else none
  | .unsetLock lock => some (call, { s with owner := Function.update s.owner lock none })
  | .readNext => some ({ call with thisIter := s.vars.C.next }, s)
  | .bumpNext => some (call, s.setChain { s.vars.C with next := s.vars.C.next + 1 })
  | .readIn => (s.vars.C.inPl (slot call.thisIter)).map fun inPtr => ({ call with inPtr := inPtr }, s)
  | .writeIn =>
      some (call, s.setChain (iocSetNextIn s.vars.C call.thisIter (call.inPtr + blockSize * elemSize)))
  | .readOut =>
      (s.vars.C.outPl (slot call.thisIter)).map fun outPtr => ({ call with outPtr := outPtr }, s)
  | .writeOut =>
      some (call, s.setChain (iocSetNextOut s.vars.C call.thisIter (call.outPtr + blockSize * elemSize)))
  | .work =>
      (routine call.thisIter (src.drop call.inPtr) (s.vars.out.drop call.outPtr) blockSize
        elemSize).toOption.map fun count : Int × List UInt8 =>
          (call, { s with vars := ⟨s.vars.C, s.vars.out.take call.outPtr ++ count.2,
            if count.1 < 0 then count.1 else s.vars.err, s.vars.cumCount + count.1⟩ })

/-- The next step of a thread: it takes a round, goes on with its call, or ends it. -/
def Loop.step (t : Thread) (s : Loop Thread) : Option (Loop Thread) :=
  match s.calls t with
  | none =>
      if 0 < s.todo then
        some { s with calls := Function.update s.calls t (some ⟨0, 0, 0, 0⟩), todo := s.todo - 1 }
      else none
  | some call =>
      match (blockCode call.thisIter)[call.pc]? with
      | none => some { s with calls := Function.update s.calls t none }
      | some instr =>
          (runInstr routine src blockSize elemSize t call s instr).map fun next =>
            { next.2 with calls :=
                Function.update next.2.calls t (some { next.1 with pc := call.pc + 1 }) }

def Loop.Steps (s s' : Loop Thread) : Prop := ∃ t, s.step routine src blockSize elemSize t = some s'

def Loop.Reached (s s' : Loop Thread) : Prop :=
  Relation.ReflTransGen (Loop.Steps routine src blockSize elemSize) s s'

structure Loop.Over (s : Loop Thread) : Prop where
  todo_eq : s.todo = 0
  calls_eq : ∀ t, s.calls t = none

end step

end TonCompress.Shuffle
