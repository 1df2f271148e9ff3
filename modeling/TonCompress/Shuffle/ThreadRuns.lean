import TonCompress.Shuffle.ThreadOrder
import TonCompress.Shuffle.Library
import Mathlib.Algebra.BigOperators.Group.Finset.Basic
import Mathlib.Data.Fintype.BigOperators

/-! Whatever the threads' order, the calls find the pointers and leave the bytes that one
thread alone would. -/
namespace TonCompress.Shuffle
open TonCompress.Lib

variable {Thread : Type} {routine : BlockRoutine} {src : List UInt8} {blockSize elemSize : Nat}
variable {t : Thread} {call call' : Call} {s s' : Loop Thread}

section pointers
variable {n r w : Nat} {ring ring' : Fin iocSize → Option Nat}

/-- A place of the ring, from the step `w` that writes it to the step `r` that reads it,
holds the bytes of the blocks before. -/
def Placed (s : Loop Thread) (n r w : Nat) (ring : Fin iocSize → Option Nat) : Prop :=
  ∀ iter ≤ s.vars.C.next, ¬ Past s iter r → (∀ before, iter = before + 1 → Past s before w) →
    ring (slot iter) = some (iter * n)

theorem turn_of_slot_eq {iter iter' : Nat} (h : slot iter = slot iter') (hlt : iter < iter') :
    iter + 33 ≤ iter' := by
  have hval : iter % 33 = iter' % 33 := congrArg Fin.val h
  omega

structure Pointed (n : Nat) (s : Loop Thread) : Prop where
  inputs : Placed s n 7 8 s.vars.C.inPl
  outputs : Placed s n 11 13 s.vars.C.outPl
  inPtr_eq : ∀ t call, s.calls t = some call → 8 ≤ call.pc → call.inPtr = call.thisIter * n
  outPtr_eq : ∀ t call, s.calls t = some call → 12 ≤ call.pc → call.outPtr = call.thisIter * n

theorem pointed_start (count : Nat) (out : List UInt8) :
    Pointed n (Loop.start count out : Loop Thread) where
  inputs iter hle _ _ := by
    obtain rfl : iter = 0 := Nat.le_zero.mp hle
    rw [Nat.zero_mul]
    rfl
  outputs iter hle _ _ := by
    obtain rfl : iter = 0 := Nat.le_zero.mp hle
    rw [Nat.zero_mul]
    rfl
  inPtr_eq t call hcall := by cases hcall
  outPtr_eq t call hcall := by cases hcall

theorem Pointed.input (h : Pointed n s) (hlocked : Locked s) (hordered : Ordered s)
    (hcall : s.calls t = some call) (hpc : call.pc = 7) :
    s.vars.C.inPl (slot call.thisIter) = some (call.thisIter * n) := by
  refine h.inputs _ (hlocked.iter_lt t call hcall (by omega)).le (fun hpast => ?_) fun before hiter => ?_
  · have hlt := hpast.lt hcall (by omega)
    omega
  · have hpast : Past s (before + 1) 3 := hiter ▸ hlocked.past hcall (by omega) (by omega)
    exact (hordered.inputs before hpast).mono (by decide)

theorem Pointed.output (h : Pointed n s) (hlocked : Locked s) (hordered : Ordered s)
    (hcall : s.calls t = some call) (hpc : call.pc = 11) :
    s.vars.C.outPl (slot call.thisIter) = some (call.thisIter * n) := by
  refine h.outputs _ (hlocked.iter_lt t call hcall (by omega)).le (fun hpast => ?_) fun before hiter => ?_
  · have hlt := hpast.lt hcall (by omega)
    omega
  · have hpast : Past s (before + 1) 10 := hiter ▸ hlocked.past hcall (by omega) (by omega)
    exact (hordered.outputs before hpast).mono (by decide)

variable [DecidableEq Thread]

theorem Advance.placed (h : Advance routine src blockSize elemSize t call call' s s')
    (hlocked : Locked s) (hordered : Ordered s) (hr : 2 ≤ r ∧ r ≤ 15) (hw : 5 ≤ w)
    (hbelow : ∀ iter iter', iter < iter' → Past s iter' w → Past s iter w) {ptr : Nat}
    (hptr : call.pc = w → ptr = call.thisIter * n)
    (hring : ring' = if call.pc = w then
      Function.update ring (slot (call.thisIter + 1)) (some (ptr + n)) else ring)
    (hplaced : Placed s n r w ring) : Placed s' n r w ring' := by
  intro iter hle hread hbefore
  have hread' : ¬ Past s iter r := fun hpast => hread ((h.past_iff hlocked hr.1).mpr (.inl hpast))
  have hbefore' : ∀ before, iter = before + 1 → Past s before w ∨ call.pc = w ∧ call.thisIter = before :=
    fun before hiter => (h.past_iff hlocked (by omega)).mp (hbefore before hiter)
  have hle' : iter ≤ s.vars.C.next := by
    rw [h.chain.next_eq] at hle
    split at hle
    · by_contra hlast
      rcases hbefore' s.vars.C.next (by omega) with hpast | ⟨hpc, -⟩
      · exact Nat.lt_irrefl _ hpast.begun
      · omega
    · exact hle
  by_cases hpc : call.pc = w
  · rw [hring, if_pos hpc, hptr hpc]
    by_cases hslot : slot iter = slot (call.thisIter + 1)
    · rw [hslot, Function.update_self]
      rcases Nat.lt_trichotomy iter (call.thisIter + 1) with hlt | rfl | hgt
      · have hturn := turn_of_slot_eq hslot hlt
        have hpast : Past s call.thisIter 4 := hlocked.past h.call_eq (by omega) (by omega)
        exact absurd ((hordered.ring_below (by omega) hpast).mono hr.2) hread'
      · rw [Nat.succ_mul]
      · obtain ⟨before, rfl⟩ := Nat.exists_eq_succ_of_ne_zero (Nat.ne_of_gt (Nat.zero_lt_of_lt hgt))
        rcases hbefore' before rfl with hpast | ⟨-, rfl⟩
        · have hlt := (hbelow call.thisIter before (by omega) hpast).lt h.call_eq (by omega)
          omega
        · exact absurd hgt (Nat.lt_irrefl _)
    · rw [Function.update_of_ne hslot]
      refine hplaced iter hle' hread' fun before hiter => ?_
      rcases hbefore' before hiter with hpast | ⟨-, rfl⟩
      · exact hpast
      · exact absurd (congrArg slot hiter) hslot
  · rw [hring, if_neg hpc]
    exact hplaced iter hle' hread' fun before hiter =>
      (hbefore' before hiter).resolve_right fun hnow => hpc hnow.1

theorem Pointed.advance (hpointed : Pointed (blockSize * elemSize) s) (hlocked : Locked s)
    (hordered : Ordered s) (h : Advance routine src blockSize elemSize t call call' s s') :
    Pointed (blockSize * elemSize) s' := by
  have hpc' := h.pc_eq
  refine ⟨h.placed hlocked hordered (by decide) (by decide) (fun iter iter' hlt hpast => ?_)
      (fun hpc => hpointed.inPtr_eq t call h.call_eq hpc.ge) h.chain.in_eq hpointed.inputs,
    h.placed hlocked hordered (by decide) (by decide) (fun iter iter' hlt hpast => ?_)
      (fun hpc => hpointed.outPtr_eq t call h.call_eq (by omega)) h.chain.out_eq hpointed.outputs,
    fun t' call'' hcall'' hpc => ?_, fun t' call'' hcall'' hpc => ?_⟩
  · exact (hordered.inputs_below hlt (hpast.mono (by decide))).mono (by decide)
  · exact (hordered.outputs_below hlt (hpast.mono (by decide))).mono (by decide)
  · by_cases ht : t' = t
    · subst ht
      obtain rfl := Option.some.inj (h.self_eq.symm.trans hcall'')
      have hptr := h.chain.inPtr_eq
      rw [h.iter_eq (by omega)]
      split at hptr
      · rw [hpointed.input hlocked hordered h.call_eq ‹_›] at hptr
        exact (Option.some.inj hptr).symm
      · rw [hptr]
        exact hpointed.inPtr_eq t' call h.call_eq (by omega)
    · exact hpointed.inPtr_eq t' call'' ((h.of_ne ht).symm.trans hcall'') hpc
  · by_cases ht : t' = t
    · subst ht
      obtain rfl := Option.some.inj (h.self_eq.symm.trans hcall'')
      have hptr := h.chain.outPtr_eq
      rw [h.iter_eq (by omega)]
      split at hptr
      · rw [hpointed.output hlocked hordered h.call_eq ‹_›] at hptr
        exact (Option.some.inj hptr).symm
      · rw [hptr]
        exact hpointed.outPtr_eq t' call h.call_eq (by omega)
    · exact hpointed.outPtr_eq t' call'' ((h.of_ne ht).symm.trans hcall'') hpc

theorem Pointed.replace {n : Nat} {new : Option Call} {todo : Nat} (h : Pointed n s)
    (hold : ∀ call, s.calls t = some call → 17 ≤ call.pc) (hnew : ∀ call, new = some call → call.pc = 0) :
    Pointed n { s with calls := Function.update s.calls t new, todo := todo } := by
  have hpast : ∀ {iter p : Nat}, p ≤ 16 →
      (Past { s with calls := Function.update s.calls t new, todo := todo } iter p ↔ Past s iter p) :=
    fun hp => past_replace hp hold hnew
  have hbefore : ∀ t' call, Function.update s.calls t new t' = some call →
      s.calls t' = some call ∨ call.pc = 0 := by
    intro t' call hcall
    by_cases ht : t' = t
    · subst ht
      rw [Function.update_self] at hcall
      exact .inr (hnew call hcall)
    · rw [Function.update_of_ne ht] at hcall
      exact .inl hcall
  refine ⟨fun iter hle hread hwritten => ?_, fun iter hle hread hwritten => ?_,
    fun t' call hcall hpc => ?_, fun t' call hcall hpc => ?_⟩
  · exact h.inputs iter hle (fun hnow => hread ((hpast (by decide)).mpr hnow)) fun before hiter =>
      (hpast (by decide)).mp (hwritten before hiter)
  · exact h.outputs iter hle (fun hnow => hread ((hpast (by decide)).mpr hnow)) fun before hiter =>
      (hpast (by decide)).mp (hwritten before hiter)
  · rcases hbefore t' call hcall with hcall | hzero
    · exact h.inPtr_eq t' call hcall hpc
    · omega
  · rcases hbefore t' call hcall with hcall | hzero
    · exact h.outPtr_eq t' call hcall hpc
    · omega

theorem Pointed.step (hpointed : Pointed (blockSize * elemSize) s) (hlocked : Locked s)
    (hordered : Ordered s) (h : StepKind routine src blockSize elemSize t s s') :
    Pointed (blockSize * elemSize) s' := by
  rcases h.replaces_or_advances with ⟨new, todo, hold, hnew, rfl⟩ | ⟨call, call', hadvance⟩
  · exact hpointed.replace hold hnew
  · exact hpointed.advance hlocked hordered hadvance

end pointers

section counts
variable [Fintype Thread] {k : Nat}

def waiting (k : Nat) (call : Option Call) : Nat := if ∃ c ∈ call, c.pc ≤ k then 1 else 0

def Loop.left (s : Loop Thread) (k : Nat) : Nat := s.todo + ∑ t, waiting k (s.calls t)

theorem left_start (count : Nat) (out : List UInt8) :
    (Loop.start count out : Loop Thread).left k = count := by
  simp [Loop.left, Loop.start, waiting]

theorem Loop.Over.left_eq (h : s.Over) : s.left k = 0 := by
  simp [Loop.left, h.todo_eq, h.calls_eq, waiting]

variable [DecidableEq Thread]

theorem sum_update (f : Option Call → Nat) (calls : Thread → Option Call) (t : Thread)
    (new : Option Call) :
    ∑ t', f (Function.update calls t new t') + f (calls t) = ∑ t', f (calls t') + f new := by
  have hsplit : ∀ calls : Thread → Option Call,
      ∑ t', f (calls t') = f (calls t) + ∑ t' ∈ Finset.univ.erase t, f (calls t') :=
    fun calls => (Finset.add_sum_erase _ _ (Finset.mem_univ t)).symm
  have hothers : ∑ t' ∈ Finset.univ.erase t, f (Function.update calls t new t') =
      ∑ t' ∈ Finset.univ.erase t, f (calls t') :=
    Finset.sum_congr rfl fun t' ht => by rw [Function.update_of_ne (Finset.ne_of_mem_erase ht)]
  rw [hsplit calls, hsplit (Function.update calls t new), hothers, Function.update_self]
  omega

theorem Advance.left_eq (h : Advance routine src blockSize elemSize t call call' s s') (k : Nat) :
    s'.left k + (if call.pc = k then 1 else 0) = s.left k := by
  have hpc := h.pc_eq
  have hsum := sum_update (waiting k) s.calls t (some call')
  rw [h.call_eq] at hsum
  unfold Loop.left
  rw [h.todo_eq, h.calls_eq]
  simp only [waiting, Option.mem_some_iff, exists_eq_left'] at hsum ⊢
  split at hsum <;> split at hsum <;> split <;> omega

theorem left_take {pc : Nat} (hcall : s.calls t = none) (htodo : 0 < s.todo) :
    ({ s with calls := Function.update s.calls t (some ⟨0, 0, 0, 0⟩), todo := s.todo - 1 } :
      Loop Thread).left pc = s.left pc := by
  have hsum := sum_update (waiting pc) s.calls t (some ⟨0, 0, 0, 0⟩)
  rw [hcall] at hsum
  unfold Loop.left
  simp only [waiting, Option.mem_some_iff, exists_eq_left', Nat.zero_le, if_true, Option.not_mem_none,
    false_and, exists_false, if_false] at hsum ⊢
  omega

theorem left_finish (hcall : s.calls t = some call) (hpc : 17 ≤ call.pc) (hk : k ≤ 16) :
    ({ s with calls := Function.update s.calls t none } : Loop Thread).left k = s.left k := by
  have hsum := sum_update (waiting k) s.calls t none
  rw [hcall] at hsum
  unfold Loop.left
  simp only [waiting, Option.mem_some_iff, exists_eq_left', Option.not_mem_none, false_and, exists_false,
    if_false] at hsum ⊢
  rw [if_neg (by omega)] at hsum
  omega

end counts

section work
variable [Fintype Thread]
variable {target : Nat → List UInt8 → Nat → UInt8} {memory : Nat → Nat → Prop}
variable {out : List UInt8} {total count : Nat} {whole : Nat → UInt8}

def workedPlaces (n : Nat) (memory : Nat → Prop) (s : Loop Thread) : Set Nat :=
  {p | ∃ iter, Past s iter 16 ∧ memory iter ∧ p ∈ blockPlaces n (iter * n)}

/-- The rounds of the loop are counted by `next` as they come past `bumpNext`, and by
`cumCount` as they come past `work`, which leaves the bytes of their blocks. -/
structure Worked (count n : Nat) (whole : Nat → UInt8) (memory : Nat → Prop)
    (out : List UInt8) (s : Loop Thread) : Prop where
  next_eq : s.vars.C.next + s.left 2 = count
  stored : Stored whole (workedPlaces n memory s) out s.vars.out
  good : (∀ iter, Past s iter 16 → memory iter) →
    s.vars.err = 0 ∧ s.vars.cumCount + ((n * s.left 16 : Nat) : Int) = (n * count : Nat)
  bad : ∀ iter, Past s iter 16 → ¬ memory iter → s.vars.err = -1

theorem worked_start (count n : Nat) (whole : Nat → UInt8) (memory : Nat → Prop)
    (out : List UInt8) : Worked count n whole memory out (Loop.start count out : Loop Thread) where
  next_eq := (congrArg (0 + ·) (left_start count out)).trans (Nat.zero_add count)
  stored := by
    have hnone : workedPlaces n memory (Loop.start count out : Loop Thread) = ∅ :=
      Set.eq_empty_of_forall_notMem fun p ⟨iter, h, _⟩ => absurd h.begun (Nat.not_lt_zero iter)
    rw [hnone]
    exact stored_none out
  good _ := ⟨rfl, by rw [left_start]; exact Int.zero_add _⟩
  bad iter h := absurd h.begun (Nat.not_lt_zero iter)

theorem Worked.next_le {n : Nat} {memory : Nat → Prop} (h : Worked count n whole memory out s) :
    s.vars.C.next ≤ count := by
  have hnext := h.next_eq
  omega

theorem Worked.quiet {n : Nat} {memory : Nat → Prop} (h : Worked count n whole memory out s)
    (hnext : s'.vars.C.next + s'.left 2 = s.vars.C.next + s.left 2) (hleft : s'.left 16 = s.left 16)
    (hpast : ∀ iter, Past s' iter 16 ↔ Past s iter 16) (hout : s'.vars.out = s.vars.out)
    (herr : s'.vars.err = s.vars.err) (hcount : s'.vars.cumCount = s.vars.cumCount) :
    Worked count n whole memory out s' := by
  have hplaces : workedPlaces n memory s' = workedPlaces n memory s := by
    simp only [workedPlaces, hpast]
  refine ⟨hnext.trans h.next_eq, ?_, fun hgood => ?_, fun iter hiter => ?_⟩
  · rw [hout, hplaces]
    exact h.stored
  · rw [herr, hcount, hleft]
    exact h.good fun iter hiter => hgood iter ((hpast iter).mpr hiter)
  · rw [herr]
    exact h.bad iter ((hpast iter).mp hiter)

/-- All that holds between any two steps of the threads. -/
structure Sound (count n : Nat) (whole : Nat → UInt8) (memory : Nat → Prop)
    (out : List UInt8) (s : Loop Thread) : Prop where
  locked : Locked s
  ordered : Ordered s
  pointed : Pointed n s
  worked : Worked count n whole memory out s

theorem Sound.done
    (hsound : Sound count (blockSize * elemSize) whole (fun iter => memory iter blockSize) out s)
    (hover : s.Over) :
    BlocksDone whole out count (count * (blockSize * elemSize)) (∀ iter < count, memory iter blockSize)
      (gotBlocks memory count elemSize blockSize) s.vars := by
  obtain ⟨-, -, hpointed, hworked⟩ := hsound
  have hnext : s.vars.C.next = count := by
    have hcounted := hworked.next_eq
    rwa [hover.left_eq, Nat.add_zero] at hcounted
  have hpast : ∀ iter p, Past s iter p ↔ iter < count := by
    refine fun iter p => ⟨fun h => hnext ▸ h.begun, fun hiter => ⟨hnext.symm ▸ hiter, ?_⟩⟩
    intro t call hcall
    rw [hover.calls_eq t] at hcall
    cases hcall
  have hend : ∀ p, ¬ Past s count p := fun p h => Nat.lt_irrefl _ ((hpast count p).mp h)
  have hplaces : workedPlaces (blockSize * elemSize) (fun iter => memory iter blockSize) s =
      gotBlocks memory count elemSize blockSize := by
    simp only [workedPlaces, gotBlocks, hpast]
  refine ⟨⟨hnext, ?_, ?_⟩, hplaces ▸ hworked.stored, fun hgood => ?_, fun hbad => ?_⟩
  · exact hpointed.inputs count hnext.ge (hend 7) fun before h => (hpast before 8).mpr (by omega)
  · exact hpointed.outputs count hnext.ge (hend 11) fun before h => (hpast before 13).mpr (by omega)
  · obtain ⟨herr, hcount⟩ := hworked.good fun iter h => hgood iter ((hpast iter 16).mp h)
    refine ⟨herr, ?_, fun p => ⟨?_, fun hp => ?_⟩⟩
    · rw [hover.left_eq, Nat.mul_zero, Nat.mul_comm] at hcount
      simpa using hcount
    · rintro ⟨iter, hiter, -, b, hb, rfl⟩
      have hplace := place_lt hb hiter
      rwa [Nat.mul_comm _ count] at hplace
    · obtain ⟨b, hb, iter, hiter, rfl⟩ := exists_place (Nat.mul_comm count _ ▸ hp)
      exact ⟨iter, hiter, hgood iter hiter, b, hb, rfl⟩
  · simp only [not_forall] at hbad
    obtain ⟨iter, hiter, hbad⟩ := hbad
    exact hworked.bad iter ((hpast iter 16).mpr hiter) hbad

variable [DecidableEq Thread]

theorem Advance.next_eq (h : Advance routine src blockSize elemSize t call call' s s') :
    s'.vars.C.next + s'.left 2 = s.vars.C.next + s.left 2 := by
  have hleft := h.left_eq 2
  have hnext := h.chain.next_eq
  split at hnext <;> split at hleft <;> omega

theorem Worked.advance (hworks : Works routine elemSize target memory) (hblock : blockSize % 8 = 0)
    (hfit : count * (blockSize * elemSize) ≤ total) (hsrc : total ≤ src.length) (hout : total ≤ out.length)
    (htarget : ∀ iter < count, ∀ b < blockSize * elemSize,
      target blockSize (src.drop (iter * (blockSize * elemSize))) b =
        whole (iter * (blockSize * elemSize) + b))
    (hworked : Worked count (blockSize * elemSize) whole (fun iter => memory iter blockSize) out s)
    (hlocked : Locked s) (hpointed : Pointed (blockSize * elemSize) s)
    (h : Advance routine src blockSize elemSize t call call' s s') :
    Worked count (blockSize * elemSize) whole (fun iter => memory iter blockSize) out s' := by
  have hleft := h.left_eq 16
  have hwork := h.work
  unfold WorkStep at hwork
  by_cases hpc : call.pc = 16
  · rw [if_pos hpc] at hwork hleft
    obtain ⟨result, hrun, hout', herr, hcum⟩ := hwork
    have hiter := (hlocked.iter_lt t call h.call_eq (by omega)).trans_le hworked.next_le
    have hend : (call.thisIter + 1) * (blockSize * elemSize) ≤ count * (blockSize * elemSize) :=
      Nat.mul_le_mul_right _ hiter
    rw [Nat.succ_mul] at hend
    have hlength := hworked.stored.length_eq
    rw [hpointed.inPtr_eq t call h.call_eq (by omega),
      hpointed.outPtr_eq t call h.call_eq (by omega)] at hrun
    rw [hpointed.outPtr_eq t call h.call_eq (by omega)] at hout'
    have hroutine := hworks call.thisIter (src.drop (call.thisIter * (blockSize * elemSize)))
      (s.vars.out.drop (call.thisIter * (blockSize * elemSize))) blockSize hblock
      (by rw [List.length_drop]; omega) (by rw [List.length_drop]; omega)
    have hpast : ∀ iter, Past s' iter 16 ↔ Past s iter 16 ∨ call.thisIter = iter := by
      intro iter
      rw [h.past_iff hlocked (by decide)]
      exact or_congr_right (and_iff_right hpc)
    have hbefore : ∀ iter, Past s iter 16 → Past s' iter 16 := fun iter hiter =>
      (hpast iter).mpr (.inl hiter)
    have hself : Past s' call.thisIter 16 := (hpast _).mpr (.inr rfl)
    have hplaces : workedPlaces (blockSize * elemSize) (fun iter => memory iter blockSize) s' =
        workedPlaces (blockSize * elemSize) (fun iter => memory iter blockSize) s ∪
          {p | memory call.thisIter blockSize ∧
            p ∈ blockPlaces (blockSize * elemSize) (call.thisIter * (blockSize * elemSize))} := by
      ext p
      simp only [workedPlaces, hpast, or_and_right, exists_or, exists_eq_left']
      rfl
    by_cases hmemory : memory call.thisIter blockSize
    · obtain rfl := Except.ok.inj (hrun.symm.trans (hroutine.1 hmemory))
      rw [if_neg (processed_nonneg _)] at herr
      have hnow : Stored whole
          (blockPlaces (blockSize * elemSize) (call.thisIter * (blockSize * elemSize)))
          s.vars.out s'.vars.out :=
        hout'.symm ▸ stored_splice (by omega) (htarget call.thisIter hiter)
      simp only [and_iff_right hmemory, Set.ofPred_mem_eq] at hplaces
      refine ⟨h.next_eq.trans hworked.next_eq, hplaces ▸ hworked.stored.trans hnow, fun hgood => ?_,
        fun iter hiter hbad => ?_⟩
      · obtain ⟨herr', hcount⟩ := hworked.good fun iter hiter => hgood iter (hbefore iter hiter)
        refine ⟨herr.trans herr', ?_⟩
        rw [hcum, ← hcount, ← hleft, Nat.mul_succ]
        push_cast
        ring
      · rw [herr]
        rcases (hpast iter).mp hiter with hdone | rfl
        · exact hworked.bad iter hdone hbad
        · exact absurd hmemory hbad
    · obtain rfl := Except.ok.inj (hrun.symm.trans (hroutine.2 hmemory))
      rw [List.take_append_drop] at hout'
      simp only [hmemory, false_and, Set.ofPred_false, Set.union_empty] at hplaces
      refine ⟨h.next_eq.trans hworked.next_eq, ?_, fun hgood => absurd (hgood _ hself) hmemory,
        fun _ _ _ => herr⟩
      rw [hout', hplaces]
      exact hworked.stored
  · rw [if_neg hpc] at hwork hleft
    refine hworked.quiet h.next_eq hleft (fun iter => ?_) hwork.1 hwork.2.1 hwork.2.2
    rw [h.past_iff hlocked (by decide)]
    exact or_iff_left fun hnow => hpc hnow.1

/-- What the blocks of a loop need to be done right. -/
structure Loopable (routine : BlockRoutine) (target : Nat → List UInt8 → Nat → UInt8)
    (memory : Nat → Nat → Prop) (src out : List UInt8) (total count blockSize elemSize : Nat)
    (whole : Nat → UInt8) : Prop where
  works : Works routine elemSize target memory
  block_mod : blockSize % 8 = 0
  fits : count * (blockSize * elemSize) ≤ total
  src_le : total ≤ src.length
  out_le : total ≤ out.length
  target_eq : ∀ iter < count, ∀ b < blockSize * elemSize,
    target blockSize (src.drop (iter * (blockSize * elemSize))) b =
      whole (iter * (blockSize * elemSize) + b)

theorem Loopable.worked_step
    (hloop : Loopable routine target memory src out total count blockSize elemSize whole)
    (hworked : Worked count (blockSize * elemSize) whole (fun iter => memory iter blockSize) out s)
    (hlocked : Locked s) (hpointed : Pointed (blockSize * elemSize) s)
    (h : StepKind routine src blockSize elemSize t s s') :
    Worked count (blockSize * elemSize) whole (fun iter => memory iter blockSize) out s' := by
  cases h with
  | take hcall htodo =>
    refine hworked.quiet (congrArg (s.vars.C.next + ·) (left_take hcall htodo)) (left_take hcall htodo)
      (fun _ => past_replace le_rfl (fun call hsome => ?_) fun call hsome => ?_) rfl rfl rfl
    · rw [hcall] at hsome
      cases hsome
    · rw [← Option.some.inj hsome]
  | finish call hcall hpc =>
    have hpast : ∀ iter, Past { s with calls := Function.update s.calls t none } iter 16 ↔
        Past s iter 16 := by
      refine fun iter => past_replace le_rfl (fun call' hsome => ?_) nofun
      rw [← Option.some.inj (hcall.symm.trans hsome)]
      exact hpc
    exact hworked.quiet (congrArg (s.vars.C.next + ·) (left_finish hcall hpc (by decide)))
      (left_finish hcall hpc le_rfl) hpast rfl rfl rfl
  | advance call call' _ hadvance =>
    exact hworked.advance hloop.works hloop.block_mod hloop.fits hloop.src_le hloop.out_le
      hloop.target_eq hlocked hpointed hadvance

theorem Sound.step (hloop : Loopable routine target memory src out total count blockSize elemSize whole)
    (hsound : Sound count (blockSize * elemSize) whole (fun iter => memory iter blockSize) out s)
    (h : StepKind routine src blockSize elemSize t s s') :
    Sound count (blockSize * elemSize) whole (fun iter => memory iter blockSize) out s' :=
  ⟨hsound.locked.step h, hsound.ordered.step hsound.locked h,
    hsound.pointed.step hsound.locked hsound.ordered h,
    hloop.worked_step hsound.worked hsound.locked hsound.pointed h⟩

theorem reached_sound
    (hloop : Loopable routine target memory src out total count blockSize elemSize whole)
    (h : Loop.Reached routine src blockSize elemSize (.start count out) s) :
    Sound count (blockSize * elemSize) whole (fun iter => memory iter blockSize) out s := by
  induction h with
  | refl =>
    exact ⟨locked_start count out, ordered_start count out, pointed_start count out,
      worked_start count _ whole _ out⟩
  | tail _ hstep ih =>
    obtain ⟨t, hstep⟩ := hstep
    exact ih.step hloop (step_kind hstep)

end work

end TonCompress.Shuffle
