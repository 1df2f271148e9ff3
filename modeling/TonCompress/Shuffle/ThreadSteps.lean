import TonCompress.Shuffle.Threads
import Mathlib.Tactic.IntervalCases

/-! What one step of a thread changes, and which locks the thread holds at each of its steps. -/
namespace TonCompress.Shuffle
open TonCompress.Lib

section code
variable {iter pc : Nat} {lock : Lock} {instr : Instr}

theorem blockCode_lt (h : (blockCode iter)[pc]? = some instr) : pc < 17 :=
  (List.getElem?_eq_some_iff.mp h).1

theorem blockCode_none (h : (blockCode iter)[pc]? = none) : 17 ≤ pc :=
  List.getElem?_eq_none_iff.mp h

def codeAt (iter : Nat) : Nat → Instr
  | 0 => .setLock .next
  | 1 => .readNext
  | 2 => .bumpNext
  | 3 => .setLock (.inPl (slot iter))
  | 4 => .setLock (.inPl (slot (iter + 1)))
  | 5 => .setLock (.outPl (slot (iter + 1)))
  | 6 => .unsetLock .next
  | 7 => .readIn
  | 8 => .writeIn
  | 9 => .unsetLock (.inPl (slot (iter + 1)))
  | 10 => .setLock (.outPl (slot iter))
  | 11 => .readOut
  | 12 => .unsetLock (.outPl (slot iter))
  | 13 => .writeOut
  | 14 => .unsetLock (.outPl (slot (iter + 1)))
  | 15 => .unsetLock (.inPl (slot iter))
  | _ => .work

theorem blockCode_get (h : pc < 17) : (blockCode iter)[pc]? = some (codeAt iter pc) := by
  interval_cases pc <;> rfl

theorem blockCode_eq (h : (blockCode iter)[pc]? = some instr) : codeAt iter pc = instr :=
  Option.some.inj ((blockCode_get (blockCode_lt h)).symm.trans h)

theorem slot_succ_ne (iter : Nat) : slot (iter + 1) ≠ slot iter := by
  intro heq
  have hval : (iter + 1) % 33 = iter % 33 := congrArg Fin.val heq
  omega

/-- The locks that a thread holds between two of its steps. -/
def Holds (iter pc : Nat) : Lock → Prop
  | .next => 1 ≤ pc ∧ pc ≤ 6
  | .inPl place => place = slot iter ∧ 4 ≤ pc ∧ pc ≤ 15 ∨ place = slot (iter + 1) ∧ 5 ≤ pc ∧ pc ≤ 9
  | .outPl place =>
      place = slot (iter + 1) ∧ 6 ≤ pc ∧ pc ≤ 14 ∨ place = slot iter ∧ 11 ≤ pc ∧ pc ≤ 12

theorem holds_setLock (hpc : pc < 17) (h : codeAt iter pc = .setLock lock) (other : Lock) :
    Holds iter (pc + 1) other ↔ Holds iter pc other ∨ other = lock := by
  interval_cases pc <;> cases h <;> cases other <;> simp [Holds]

theorem holds_unsetLock (hpc : pc < 17) (h : codeAt iter pc = .unsetLock lock) :
    Holds iter pc lock ∧ ∀ other, Holds iter (pc + 1) other ↔ Holds iter pc other ∧ other ≠ lock := by
  have hne := slot_succ_ne iter
  interval_cases pc <;> cases h <;>
    refine ⟨by simp [Holds], fun other => ?_⟩ <;> cases other <;> simp [Holds] <;> grind

theorem holds_other (hpc : pc < 17) (hset : ∀ lock, codeAt iter pc ≠ .setLock lock)
    (hunset : ∀ lock, codeAt iter pc ≠ .unsetLock lock) (other : Lock) :
    Holds iter (pc + 1) other ↔ Holds iter pc other := by
  interval_cases pc <;> first
    | exact absurd rfl (hset _)
    | exact absurd rfl (hunset _)
    | cases other <;> simp [Holds]

end code

section step
variable {Thread : Type} [DecidableEq Thread] {routine : BlockRoutine} {src : List UInt8}
variable {blockSize elemSize : Nat} {t : Thread} {call call' : Call} {s s' : Loop Thread}

inductive LockStep (t : Thread) (call : Call) (owner : Lock → Option Thread) :
    (Lock → Option Thread) → Prop
  | set (lock : Lock) : codeAt call.thisIter call.pc = .setLock lock → owner lock = none →
      LockStep t call owner (Function.update owner lock (some t))
  | unset (lock : Lock) : codeAt call.thisIter call.pc = .unsetLock lock →
      LockStep t call owner (Function.update owner lock none)
  | other : (∀ lock, codeAt call.thisIter call.pc ≠ .setLock lock) →
      (∀ lock, codeAt call.thisIter call.pc ≠ .unsetLock lock) → LockStep t call owner owner

structure ChainStep (blockBytes : Nat) (call call' : Call) (C C' : IocChain) : Prop where
  next_eq : C'.next = if call.pc = 2 then C.next + 1 else C.next
  in_eq : C'.inPl = if call.pc = 8 then
      Function.update C.inPl (slot (call.thisIter + 1)) (some (call.inPtr + blockBytes)) else C.inPl
  out_eq : C'.outPl = if call.pc = 13 then
      Function.update C.outPl (slot (call.thisIter + 1)) (some (call.outPtr + blockBytes)) else C.outPl
  iter_eq : call'.thisIter = if call.pc = 1 then C.next else call.thisIter
  inPtr_eq : if call.pc = 7 then C.inPl (slot call.thisIter) = some call'.inPtr
    else call'.inPtr = call.inPtr
  outPtr_eq : if call.pc = 11 then C.outPl (slot call.thisIter) = some call'.outPtr
    else call'.outPtr = call.outPtr

def WorkStep (routine : BlockRoutine) (src : List UInt8) (blockSize elemSize : Nat) (call : Call)
    (vars vars' : BlockedVars) : Prop :=
  if call.pc = 16 then ∃ count, routine call.thisIter (src.drop call.inPtr)
      (vars.out.drop call.outPtr) blockSize elemSize = .ok count ∧
    vars'.out = vars.out.take call.outPtr ++ count.2 ∧
    vars'.err = (if count.1 < 0 then count.1 else vars.err) ∧
    vars'.cumCount = vars.cumCount + count.1
  else vars'.out = vars.out ∧ vars'.err = vars.err ∧ vars'.cumCount = vars.cumCount

/-- A thread goes on with its call. -/
structure Advance (routine : BlockRoutine) (src : List UInt8) (blockSize elemSize : Nat)
    (t : Thread) (call call' : Call) (s s' : Loop Thread) : Prop where
  call_eq : s.calls t = some call
  calls_eq : s'.calls = Function.update s.calls t (some call')
  todo_eq : s'.todo = s.todo
  pc_lt : call.pc < 17
  pc_eq : call'.pc = call.pc + 1
  locks : LockStep t call s.owner s'.owner
  chain : ChainStep (blockSize * elemSize) call call' s.vars.C s'.vars.C
  work : WorkStep routine src blockSize elemSize call s.vars s'.vars

theorem toOption_eq_some {ε α : Type} {run : Except ε α} {value : α} :
    run.toOption = some value ↔ run = .ok value := by
  cases run <;> simp [Except.toOption]

theorem runInstr_advance {next : Call × Loop Thread} (hcall : s.calls t = some call)
    (hpc : call.pc < 17)
    (hrun : runInstr routine src blockSize elemSize t call s (codeAt call.thisIter call.pc) = some next) :
    Advance routine src blockSize elemSize t call { next.1 with pc := call.pc + 1 } s
      { next.2 with calls := Function.update next.2.calls t (some { next.1 with pc := call.pc + 1 }) } := by
  obtain ⟨pc, iter, inPtr, outPtr⟩ := call
  dsimp only at hpc hrun ⊢
  have hset : ∀ lock, runInstr routine src blockSize elemSize t ⟨pc, iter, inPtr, outPtr⟩ s
      (.setLock lock) = some next → s.owner lock = none ∧ next = (⟨pc, iter, inPtr, outPtr⟩,
        { s with owner := Function.update s.owner lock (some t) }) := by
    intro lock hrun
    dsimp only [runInstr] at hrun
    split at hrun
    · exact ⟨‹_›, (Option.some.inj hrun).symm⟩
    · cases hrun
  interval_cases pc
  case «0» | «3» | «4» | «5» | «10» =>
    obtain ⟨hfree, rfl⟩ := hset _ hrun
    exact ⟨hcall, rfl, rfl, hpc, rfl, .set _ rfl hfree, ⟨rfl, rfl, rfl, rfl, rfl, rfl⟩,
      ⟨rfl, rfl, rfl⟩⟩
  case «6» | «9» | «12» | «14» | «15» =>
    obtain rfl := Option.some.inj hrun
    exact ⟨hcall, rfl, rfl, hpc, rfl, .unset _ rfl, ⟨rfl, rfl, rfl, rfl, rfl, rfl⟩, ⟨rfl, rfl, rfl⟩⟩
  case «1» | «2» | «8» | «13» =>
    obtain rfl := Option.some.inj hrun
    exact ⟨hcall, rfl, rfl, hpc, rfl, .other nofun nofun, ⟨rfl, rfl, rfl, rfl, rfl, rfl⟩,
      ⟨rfl, rfl, rfl⟩⟩
  case «7» =>
    obtain ⟨inPtr', hptr, rfl⟩ := Option.map_eq_some_iff.mp hrun
    exact ⟨hcall, rfl, rfl, hpc, rfl, .other nofun nofun, ⟨rfl, rfl, rfl, rfl, hptr, rfl⟩,
      ⟨rfl, rfl, rfl⟩⟩
  case «11» =>
    obtain ⟨outPtr', hptr, rfl⟩ := Option.map_eq_some_iff.mp hrun
    exact ⟨hcall, rfl, rfl, hpc, rfl, .other nofun nofun, ⟨rfl, rfl, rfl, rfl, rfl, hptr⟩,
      ⟨rfl, rfl, rfl⟩⟩
  case «16» =>
    obtain ⟨count, hcount, rfl⟩ := Option.map_eq_some_iff.mp hrun
    exact ⟨hcall, rfl, rfl, hpc, rfl, .other nofun nofun, ⟨rfl, rfl, rfl, rfl, rfl, rfl⟩,
      ⟨count, toOption_eq_some.mp hcount, rfl, rfl, rfl⟩⟩

inductive StepKind (routine : BlockRoutine) (src : List UInt8) (blockSize elemSize : Nat)
    (t : Thread) (s : Loop Thread) : Loop Thread → Prop
  | take : s.calls t = none → 0 < s.todo → StepKind routine src blockSize elemSize t s
      { s with calls := Function.update s.calls t (some ⟨0, 0, 0, 0⟩), todo := s.todo - 1 }
  | finish (call : Call) : s.calls t = some call → 17 ≤ call.pc →
      StepKind routine src blockSize elemSize t s { s with calls := Function.update s.calls t none }
  | advance (call call' : Call) (s' : Loop Thread) :
      Advance routine src blockSize elemSize t call call' s s' →
      StepKind routine src blockSize elemSize t s s'

theorem step_kind (h : s.step routine src blockSize elemSize t = some s') :
    StepKind routine src blockSize elemSize t s s' := by
  unfold Loop.step at h
  cases hcall : s.calls t with
  | none =>
    rw [hcall] at h
    dsimp only at h
    split at h
    · obtain rfl := Option.some.inj h
      exact .take hcall ‹_›
    · cases h
  | some call =>
    rw [hcall] at h
    dsimp only at h
    cases hinstr : (blockCode call.thisIter)[call.pc]? with
    | none =>
      rw [hinstr] at h
      obtain rfl := Option.some.inj h
      exact .finish call hcall (blockCode_none hinstr)
    | some instr =>
      rw [hinstr] at h
      obtain ⟨next, hrun, rfl⟩ := Option.map_eq_some_iff.mp h
      rw [← blockCode_eq hinstr] at hrun
      exact .advance call _ _ (runInstr_advance hcall (blockCode_lt hinstr) hrun)

end step

end TonCompress.Shuffle
