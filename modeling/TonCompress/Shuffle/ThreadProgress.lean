import TonCompress.Shuffle.ThreadRuns
import Mathlib.Data.Finset.Max

/-! The threads never wait for one another in a circle, and come to an end. -/
namespace TonCompress.Shuffle
open TonCompress.Lib

variable {Thread : Type} {routine : BlockRoutine} {src : List UInt8} {blockSize elemSize : Nat}
variable {t : Thread} {call call' : Call} {s s' : Loop Thread}
variable {target : Nat → List UInt8 → Nat → UInt8} {memory : Nat → Nat → Prop}
variable {out : List UInt8} {total count n : Nat} {whole : Nat → UInt8}

section locks

theorem Locked.free (hlocked : Locked s) {lock : Lock}
    (h : ∀ t call, s.calls t = some call → ¬ Holds call.thisIter call.pc lock) : s.owner lock = none := by
  refine Option.eq_none_iff_forall_ne_some.mpr fun t howner => ?_
  obtain ⟨call, hcall, hholds⟩ := (hlocked.owner_iff lock t).mp howner
  exact h t call hcall hholds

/-- The call is of the first iteration that is not done. -/
structure Foremost (s : Loop Thread) (t : Thread) (call : Call) : Prop where
  call_eq : s.calls t = some call
  begun : 2 ≤ call.pc
  least : ∀ t' call', s.calls t' = some call' → 2 ≤ call'.pc → call.thisIter ≤ call'.thisIter

theorem Foremost.others (h : Foremost s t call) (hlocked : Locked s) {t' : Thread}
    (hcall' : s.calls t' = some call') (hpc' : 2 ≤ call'.pc) :
    call' = call ∨ call.thisIter < call'.thisIter := by
  by_cases ht : t' = t
  · subst ht
    exact .inl (Option.some.inj (hcall'.symm.trans h.call_eq))
  · refine .inr (Nat.lt_of_le_of_ne (h.least t' call' hcall' hpc') fun hiter => ht ?_)
    exact hlocked.distinct t' t call' call hcall' h.call_eq hpc' h.begun hiter.symm

/-- Before its input is there, nobody behind the first call holds a place of the ring. -/
theorem Foremost.alone (h : Foremost s t call) (hlocked : Locked s) (hordered : Ordered s)
    (hpc : call.pc ≤ 9) {t' : Thread} (hcall' : s.calls t' = some call') (hpc' : 4 ≤ call'.pc) :
    call' = call := by
  refine (h.others hlocked hcall' (by omega)).resolve_right fun hlt => ?_
  have hpast := hordered.inputs_below hlt (hlocked.past hcall' (by omega) (by omega))
  have hnine := hpast.lt h.call_eq h.begun
  omega

theorem Holds.ring {iter pc : Nat} {lock : Lock} (h : Holds iter pc lock) (hne : lock ≠ .next) :
    4 ≤ pc := by
  cases lock with
  | next => exact absurd rfl hne
  | inPl place => rcases h with h | h <;> omega
  | outPl place => rcases h with h | h <;> omega

/-- The first call never waits for a lock. -/
theorem Foremost.lock_free (h : Foremost s t call) (hlocked : Locked s) (hordered : Ordered s)
    (hpc : call.pc < 17) {lock : Lock} (hcode : codeAt call.thisIter call.pc = .setLock lock) :
    s.owner lock = none := by
  have hself : ¬ Holds call.thisIter call.pc lock := by
    have hne := slot_succ_ne call.thisIter
    generalize call.pc = pc at hpc hcode
    interval_cases pc <;> cases hcode <;> simp [Holds, hne, hne.symm]
  have hearly : lock ≠ .next → call.pc ≤ 9 → s.owner lock = none := by
    refine fun hne hnine => hlocked.free fun t' call' hcall' hholds => ?_
    rw [h.alone hlocked hordered hnine hcall' (hholds.ring hne)] at hholds
    exact hself hholds
  have hbegun := h.begun
  generalize hiter : call.thisIter = iter at hcode hself
  generalize hstep : call.pc = pc at hpc hcode hself hearly hbegun
  interval_cases pc
  case «3» | «4» | «5» =>
    cases hcode
    exact hearly (by simp) (by decide)
  case «10» =>
    cases hcode
    refine hlocked.free fun t' call' hcall' hholds => ?_
    have hpc' := hholds.ring (by simp)
    rcases h.others hlocked hcall' (by omega) with rfl | hlt
    · rw [hiter, hstep] at hholds
      exact hself hholds
    · have hturn : call.thisIter + 32 ≤ call'.thisIter := by
        rcases hholds with ⟨hplace, -⟩ | ⟨hplace, -⟩
        · have hturn := turn_of_slot_eq hplace (by omega)
          omega
        · have hturn := turn_of_slot_eq hplace (by omega)
          omega
      have hfive : 5 ≤ call'.pc := by
        rcases hholds with ⟨-, hle, -⟩ | ⟨-, hle, -⟩ <;> omega
      have hpast := hordered.ring_below hturn (hlocked.past hcall' (by omega) hfive)
      have hlast := hpast.lt h.call_eq h.begun
      omega
  all_goals cases hcode

theorem exists_foremost [Fintype Thread] (hbegun : ∃ t call, s.calls t = some call ∧ 2 ≤ call.pc) :
    ∃ t call, Foremost s t call := by
  classical
  obtain ⟨t, ht, hleast⟩ := Finset.exists_min_image
    (Finset.univ.filter fun t => ∃ call, s.calls t = some call ∧ 2 ≤ call.pc)
    (fun t => (s.calls t).elim 0 Call.thisIter) (by
      obtain ⟨t, hcall⟩ := hbegun
      exact ⟨t, Finset.mem_filter.mpr ⟨Finset.mem_univ t, hcall⟩⟩)
  obtain ⟨-, call, hcall, hpc⟩ := Finset.mem_filter.mp ht
  refine ⟨t, call, hcall, hpc, fun t' call' hcall' hpc' => ?_⟩
  have hle := hleast t' (Finset.mem_filter.mpr ⟨Finset.mem_univ t', call', hcall', hpc'⟩)
  rw [hcall, hcall'] at hle
  exact hle

end locks

section progress
variable [DecidableEq Thread]

theorem step_exists (hcall : s.calls t = some call)
    (hlock : call.pc < 17 → ∀ lock, codeAt call.thisIter call.pc = .setLock lock → s.owner lock = none)
    (hin : call.pc = 7 → ∃ ptr, s.vars.C.inPl (slot call.thisIter) = some ptr)
    (hout : call.pc = 11 → ∃ ptr, s.vars.C.outPl (slot call.thisIter) = some ptr)
    (hwork : call.pc = 16 → ∃ count, routine call.thisIter (src.drop call.inPtr)
      (s.vars.out.drop call.outPtr) blockSize elemSize = .ok count) :
    ∃ s', s.step routine src blockSize elemSize t = some s' := by
  have hrun : call.pc < 17 → ∃ next,
      runInstr routine src blockSize elemSize t call s (codeAt call.thisIter call.pc) = some next := by
    intro hpc
    have hlocks := hlock hpc
    cases hcode : codeAt call.thisIter call.pc with
    | setLock lock => exact ⟨_, if_pos (hlocks lock hcode)⟩
    | unsetLock lock => exact ⟨_, rfl⟩
    | readNext => exact ⟨_, rfl⟩
    | bumpNext => exact ⟨_, rfl⟩
    | writeIn => exact ⟨_, rfl⟩
    | writeOut => exact ⟨_, rfl⟩
    | readIn =>
      have hseven : call.pc = 7 := by
        generalize call.pc = pc at hpc hcode
        interval_cases pc <;> first | rfl | cases hcode
      obtain ⟨ptr, hptr⟩ := hin hseven
      exact ⟨_, congrArg (Option.map _) hptr⟩
    | readOut =>
      have heleven : call.pc = 11 := by
        generalize call.pc = pc at hpc hcode
        interval_cases pc <;> first | rfl | cases hcode
      obtain ⟨ptr, hptr⟩ := hout heleven
      exact ⟨_, congrArg (Option.map _) hptr⟩
    | work =>
      have hsixteen : call.pc = 16 := by
        generalize call.pc = pc at hpc hcode
        interval_cases pc <;> first | rfl | cases hcode
      obtain ⟨result, hresult⟩ := hwork hsixteen
      exact ⟨_, congrArg (Option.map _) (toOption_eq_some.mpr hresult)⟩
  unfold Loop.step
  rw [hcall]
  dsimp only
  by_cases hpc : call.pc < 17
  · obtain ⟨next, hnext⟩ := hrun hpc
    rw [blockCode_get hpc]
    exact ⟨_, congrArg (Option.map _) hnext⟩
  · rw [List.getElem?_eq_none (show (blockCode call.thisIter).length ≤ call.pc from Nat.le_of_not_lt hpc)]
    exact ⟨_, rfl⟩

theorem run_reached {run : Nat → Loop Thread} {k : Nat}
    (hrun : ∀ i < k, Loop.Steps routine src blockSize elemSize (run i) (run (i + 1))) :
    Loop.Reached routine src blockSize elemSize (run 0) (run k) := by
  induction k with
  | zero => exact .refl
  | succ k ih =>
    exact (ih fun i hi => hrun i (Nat.lt_succ_of_lt hi)).tail (hrun k (Nat.lt_succ_self k))

variable [Fintype Thread]

theorem Foremost.exists_step
    (hloop : Loopable routine target memory src out total count blockSize elemSize whole)
    (hsound : Sound count (blockSize * elemSize) whole (fun iter => memory iter blockSize) out s)
    (h : Foremost s t call) : ∃ s', s.step routine src blockSize elemSize t = some s' := by
  obtain ⟨hlocked, hordered, hpointed, hworked⟩ := hsound
  refine step_exists h.call_eq
    (fun hpc lock hcode => h.lock_free hlocked hordered hpc hcode)
    (fun hpc => ⟨_, hpointed.input hlocked hordered h.call_eq hpc⟩)
    (fun hpc => ⟨_, hpointed.output hlocked hordered h.call_eq hpc⟩) fun hpc => ?_
  have hiter := (hlocked.iter_lt t call h.call_eq (by omega)).trans_le hworked.next_le
  have hend : (call.thisIter + 1) * (blockSize * elemSize) ≤ count * (blockSize * elemSize) :=
    Nat.mul_le_mul_right _ hiter
  rw [Nat.succ_mul] at hend
  have hlength := hworked.stored.length_eq
  have hfits := hloop.fits
  have hsrc := hloop.src_le
  have hout := hloop.out_le
  rw [hpointed.inPtr_eq t call h.call_eq (by omega), hpointed.outPtr_eq t call h.call_eq (by omega)]
  have hroutine := hloop.works call.thisIter (src.drop (call.thisIter * (blockSize * elemSize)))
    (s.vars.out.drop (call.thisIter * (blockSize * elemSize))) blockSize hloop.block_mod
    (by rw [List.length_drop]; omega) (by rw [List.length_drop]; omega)
  by_cases hmemory : memory call.thisIter blockSize
  · exact ⟨_, hroutine.1 hmemory⟩
  · exact ⟨_, hroutine.2 hmemory⟩

theorem Sound.progress [Nonempty Thread]
    (hloop : Loopable routine target memory src out total count blockSize elemSize whole)
    (hsound : Sound count (blockSize * elemSize) whole (fun iter => memory iter blockSize) out s)
    (hover : ¬ s.Over) : ∃ t s', s.step routine src blockSize elemSize t = some s' := by
  by_cases hbegun : ∃ t call, s.calls t = some call ∧ 2 ≤ call.pc
  · obtain ⟨t, call, hforemost⟩ := exists_foremost hbegun
    exact ⟨t, hforemost.exists_step hloop hsound⟩
  have hearly : ∀ t call, s.calls t = some call → call.pc < 2 := by
    intro t call hcall
    by_contra hpc
    exact hbegun ⟨t, call, hcall, by omega⟩
  by_cases hcalls : ∃ t call, s.calls t = some call
  · -- one that holds the lock of the counter goes on; otherwise it is free
    obtain ⟨t, call, hcall, hnext⟩ : ∃ t call, s.calls t = some call ∧
        (call.pc = 0 → s.owner .next = none) := by
      by_cases hreader : ∃ t call, s.calls t = some call ∧ call.pc = 1
      · obtain ⟨t, call, hcall, hpc⟩ := hreader
        exact ⟨t, call, hcall, fun hzero => by omega⟩
      · obtain ⟨t, call, hcall⟩ := hcalls
        refine ⟨t, call, hcall, fun _ => hsound.locked.free fun t' call' hcall' hholds => ?_⟩
        have hpc := hearly t' call' hcall'
        exact hreader ⟨t', call', hcall', by have hone : 1 ≤ call'.pc := hholds.1; omega⟩
    have hpc := hearly t call hcall
    refine ⟨t, step_exists hcall (fun hlt lock hcode => ?_) (fun h => by omega) (fun h => by omega)
      fun h => by omega⟩
    generalize hstep : call.pc = pc at hpc hcode hnext
    interval_cases pc
    · cases hcode
      exact hnext rfl
    · cases hcode
  · obtain ⟨t⟩ := ‹Nonempty Thread›
    have hidle : ∀ t, s.calls t = none := fun t =>
      Option.eq_none_iff_forall_ne_some.mpr fun call hcall => hcalls ⟨t, call, hcall⟩
    have htodo : 0 < s.todo := Nat.pos_of_ne_zero fun hzero => hover ⟨hzero, hidle⟩
    refine ⟨t, { s with calls := Function.update s.calls t (some ⟨0, 0, 0, 0⟩), todo := s.todo - 1 }, ?_⟩
    unfold Loop.step
    rw [hidle t]
    exact if_pos htodo

end progress

section length
variable [Fintype Thread]

/-- The steps that a thread in a call has still to take. -/
def callCost : Option Call → Nat
  | none => 0
  | some call => if call.pc ≤ 16 then 18 - call.pc else 1

def Loop.cost (s : Loop Thread) : Nat := 19 * s.todo + ∑ t, callCost (s.calls t)

theorem cost_start (count : Nat) (out : List UInt8) :
    (Loop.start count out : Loop Thread).cost = 19 * count := by
  simp [Loop.cost, Loop.start, callCost]

theorem over_iff : s.Over ↔ s.cost = 0 := by
  refine ⟨fun h => by simp [Loop.cost, h.todo_eq, h.calls_eq, callCost], fun h => ?_⟩
  unfold Loop.cost at h
  have hnone : ∀ t, callCost (s.calls t) = 0 := fun t =>
    Finset.sum_eq_zero_iff.mp (show ∑ t, callCost (s.calls t) = 0 by omega) t (Finset.mem_univ t)
  refine ⟨by omega, fun t => ?_⟩
  have hzero := hnone t
  cases hcall : s.calls t with
  | none => rfl
  | some call =>
    rw [hcall, callCost] at hzero
    split at hzero <;> omega

variable [DecidableEq Thread]

theorem step_cost (h : StepKind routine src blockSize elemSize t s s') : s'.cost + 1 = s.cost := by
  unfold Loop.cost
  cases h with
  | take hcall htodo =>
    have hsum := sum_update callCost s.calls t (some ⟨0, 0, 0, 0⟩)
    rw [hcall] at hsum
    simp only [callCost, Nat.zero_le, if_true] at hsum ⊢
    omega
  | finish call hcall hpc =>
    have hsum := sum_update callCost s.calls t none
    rw [hcall] at hsum
    simp only [callCost] at hsum ⊢
    rw [if_neg (by omega)] at hsum
    omega
  | advance call call' _ hadvance =>
    have hsum := sum_update callCost s.calls t (some call')
    have hpc := hadvance.pc_eq
    have hlt := hadvance.pc_lt
    rw [hadvance.call_eq] at hsum
    rw [hadvance.calls_eq, hadvance.todo_eq]
    simp only [callCost] at hsum ⊢
    rw [if_pos (show call.pc ≤ 16 by omega)] at hsum
    split at hsum <;> omega

theorem run_cost {run : Nat → Loop Thread} {k : Nat}
    (hrun : ∀ i < k, Loop.Steps routine src blockSize elemSize (run i) (run (i + 1))) :
    (run k).cost + k = (run 0).cost := by
  induction k with
  | zero => rfl
  | succ k ih =>
    obtain ⟨t, hstep⟩ := hrun k (Nat.lt_succ_self k)
    have hcost := step_cost (step_kind hstep)
    have hbefore := ih fun i hi => hrun i (Nat.lt_succ_of_lt hi)
    omega

end length

end TonCompress.Shuffle
