import TonCompress.Shuffle.ThreadProgress

/-! Calls of `bshuf_bitshuffle` and `bshuf_bitunshuffle` with several threads. -/
namespace TonCompress.Shuffle
open TonCompress.Lib

variable {Thread : Type} {routine : BlockRoutine} {blockSize elemSize : Nat} {s s' : Loop Thread}
variable {target : Nat → List UInt8 → Nat → UInt8} {memory : Nat → Nat → Prop}
variable {src out : List UInt8} {count n : Nat} {whole : Nat → UInt8}

section schedules
variable [DecidableEq Thread] {schedule : List Thread}

def Loop.follow (routine : BlockRoutine) (src : List UInt8) (blockSize elemSize : Nat)
    (schedule : List Thread) (s : Loop Thread) : Option (Loop Thread) :=
  schedule.foldlM (fun s t => s.step routine src blockSize elemSize t) s

theorem follow_run (h : s.follow routine src blockSize elemSize schedule = some s') :
    ∃ run : Nat → Loop Thread, run 0 = s ∧ run schedule.length = s' ∧
      ∀ i < schedule.length, Loop.Steps routine src blockSize elemSize (run i) (run (i + 1)) := by
  induction schedule generalizing s with
  | nil => exact ⟨fun _ => s, rfl, Option.some.inj h, fun i hi => absurd hi (Nat.not_lt_zero i)⟩
  | cons t schedule ih =>
    obtain ⟨next, hstep, hrest⟩ := Option.bind_eq_some_iff.mp h
    obtain ⟨run, hfirst, hlast, hsteps⟩ := ih hrest
    refine ⟨fun i => Nat.casesOn i s run, rfl, hlast, fun i hi => ?_⟩
    cases i with
    | zero => exact ⟨t, hstep.trans (congrArg some hfirst.symm)⟩
    | succ i => exact hsteps i (Nat.lt_of_succ_lt_succ hi)

theorem follow_reached (h : s.follow routine src blockSize elemSize schedule = some s') :
    Loop.Reached routine src blockSize elemSize s s' := by
  obtain ⟨run, rfl, rfl, hsteps⟩ := follow_run h
  exact run_reached hsteps

instance [Fintype Thread] (s : Loop Thread) : Decidable s.Over :=
  decidable_of_iff (s.todo = 0 ∧ ∀ t, s.calls t = none)
    ⟨fun h => ⟨h.1, h.2⟩, fun h => ⟨h.todo_eq, h.calls_eq⟩⟩

end schedules

section calls
variable [DecidableEq Thread] [Fintype Thread] {size : Nat}

/-- No lock is unset by a thread that does not hold it, and two threads never work on
blocks that share a byte. -/
structure RaceFree (n : Nat) (s : Loop Thread) : Prop where
  unset_held : ∀ t call lock, s.calls t = some call →
    (blockCode call.thisIter)[call.pc]? = some (.unsetLock lock) → s.owner lock = some t
  disjoint : ∀ t t' call call', t ≠ t' → s.calls t = some call → s.calls t' = some call' →
    (blockCode call.thisIter)[call.pc]? = some .work → (blockCode call'.thisIter)[call'.pc]? = some .work →
      call.inPtr = call.outPtr ∧ (call.outPtr + n ≤ call'.outPtr ∨ call'.outPtr + n ≤ call.outPtr)

omit [DecidableEq Thread] in
theorem Sound.raceFree {memory : Nat → Prop} (h : Sound count n whole memory out s) :
    RaceFree n s := by
  have hwork : ∀ {iter pc}, (blockCode iter)[pc]? = some .work → pc = 16 := by
    intro iter pc hcode
    have hlt := blockCode_lt hcode
    have heq := blockCode_eq hcode
    interval_cases pc <;> first | rfl | cases heq
  refine ⟨fun t call lock hcall hcode => ?_, fun t t' call call' ht hcall hcall' hcode hcode' => ?_⟩
  · have hholds := (holds_unsetLock (blockCode_lt hcode) (blockCode_eq hcode)).1
    exact (h.locked.owner_iff lock t).mpr ⟨call, hcall, hholds⟩
  · have hpc := hwork hcode
    have hpc' := hwork hcode'
    rw [h.pointed.inPtr_eq t call hcall (by omega), h.pointed.outPtr_eq t call hcall (by omega),
      h.pointed.outPtr_eq t' call' hcall' (by omega)]
    refine ⟨rfl, ?_⟩
    rcases Nat.lt_trichotomy call.thisIter call'.thisIter with hlt | heq | hgt
    · have hle : (call.thisIter + 1) * n ≤ call'.thisIter * n := Nat.mul_le_mul_right n hlt
      rw [Nat.succ_mul] at hle
      exact .inl hle
    · exact absurd (h.locked.distinct t t' call call' hcall hcall' (by omega) (by omega) heq) ht
    · have hle : (call'.thisIter + 1) * n ≤ call.thisIter * n := Nat.mul_le_mul_right n hgt
      rw [Nat.succ_mul] at hle
      exact .inr hle

theorem loopable (hworks : Works routine elemSize target memory)
    (hroom : Room src out size elemSize blockSize) (hblock : blockSize % 8 = 0) :
    Loopable routine target memory src out (size * elemSize) (size / usedBlockSize elemSize blockSize)
      (usedBlockSize elemSize blockSize) elemSize
      (blockedTarget target src size elemSize (usedBlockSize elemSize blockSize)) := by
  have hmod : usedBlockSize elemSize blockSize % 8 = 0 := usedBlockSize_mod hblock
  have hparts := size_parts hmod size elemSize
  exact ⟨hworks, hmod, by omega, hroom.src_le, hroom.out_le, fun iter hiter b hb =>
    (blockedTarget_block hiter hb).symm⟩

/-- The state of the threads in a call of `bshuf_blocked_wrap_fun`. -/
def InCall (routine : BlockRoutine) (src out : List UInt8) (size elemSize blockSize : Nat)
    (s : Loop Thread) : Prop :=
  Loop.Reached routine src (usedBlockSize elemSize blockSize) elemSize
    (.start (size / usedBlockSize elemSize blockSize) out) s

theorem InCall.sound (h : InCall routine src out size elemSize blockSize s)
    (hworks : Works routine elemSize target memory) (hroom : Room src out size elemSize blockSize)
    (hblock : blockSize % 8 = 0) :
    Sound (size / usedBlockSize elemSize blockSize)
      (usedBlockSize elemSize blockSize * elemSize)
      (blockedTarget target src size elemSize (usedBlockSize elemSize blockSize))
      (fun iter => memory iter (usedBlockSize elemSize blockSize)) out s :=
  reached_sound (loopable hworks hroom hblock) h

/-- When all are done, the call ends as it does with one thread, with the same bytes even
where it fails. -/
theorem InCall.rest_eq (h : InCall routine src out size elemSize blockSize s) (hover : s.Over)
    (hworks : Works routine elemSize target memory) (hroom : Room src out size elemSize blockSize)
    (hblock : blockSize % 8 = 0) :
    bshufBlockedWrapRest routine src size elemSize (usedBlockSize elemSize blockSize) s.vars =
      bshufBlockedWrapFun routine src out size elemSize blockSize := by
  have hmod : usedBlockSize elemSize blockSize % 8 = 0 := usedBlockSize_mod hblock
  obtain ⟨hdone, hfailed⟩ := bshufBlockedWrapRest_eq hworks hmod hroom.src_le hroom.out_le
    ((h.sound hworks hroom hblock).done hover)
  obtain ⟨hdone', hfailed'⟩ :=
    bshufBlockedWrapFun_eq hworks hblock hroom.default hroom.src_le hroom.out_le
  by_cases hmemory : BlocksMemory memory size (usedBlockSize elemSize blockSize)
  · rw [hdone hmemory, hdone' hmemory]
  · obtain ⟨result, hstored, hrun⟩ := hfailed hmemory
    obtain ⟨result', hstored', hrun'⟩ := hfailed' hmemory
    rw [hrun, hrun', hstored.unique hstored']

theorem InCall.outcome (h : InCall routine src out size elemSize blockSize s) (hover : s.Over)
    (hworks : Works routine elemSize target memory) (hroom : Room src out size elemSize blockSize)
    (hblock : blockSize % 8 = 0) :
    Returns (bshufBlockedWrapRest routine src size elemSize (usedBlockSize elemSize blockSize) s.vars)
      (Outcome (size * elemSize) blockSize (BlocksMemory memory size (usedBlockSize elemSize blockSize))
        (filled (size * elemSize)
          (blockedTarget target src size elemSize (usedBlockSize elemSize blockSize)) out)) := by
  rw [h.rest_eq hover hworks hroom hblock]
  exact (blocked_outcome hworks hroom).mono (fun _ houtcome => houtcome.2) fun _ => id

/-- However the threads of `bshuf_bitshuffle` are interleaved, they do not disturb one
another, and when all are done the call ends as it does with one thread. -/
theorem bshufBitshuffle_threads (build : Build) (mallocs : Mallocs)
    (src out : List.Vector UInt8 (size * elemSize)) (hblock : blockSize % 8 = 0)
    (hdefault : blockSize = 0 → elemSize ≠ 0) (s : Loop Thread)
    (h : InCall (transBitElem build mallocs) src.toList out.toList size elemSize blockSize s) :
    RaceFree (usedBlockSize elemSize blockSize * elemSize) s ∧
    (s.Over →
      bshufBlockedWrapRest (transBitElem build mallocs) src.toList size elemSize
          (usedBlockSize elemSize blockSize) s.vars =
        bshufBitshuffle build mallocs src.toList out.toList size elemSize blockSize ∧
      Returns (bshufBitshuffle build mallocs src.toList out.toList size elemSize blockSize)
        (Outcome (size * elemSize) blockSize
          (BlocksMemory (ShuffleMemory build mallocs elemSize) size (usedBlockSize elemSize blockSize))
          (shuffledBytes src.toList out.toList size elemSize blockSize))) := by
  have hworks := transBitElem_works build mallocs elemSize
  have hroom : Room src.toList out.toList size elemSize blockSize :=
    ⟨src.toList_length.ge, out.toList_length.ge, hdefault⟩
  refine ⟨(h.sound hworks hroom hblock).raceFree, fun hover => ⟨h.rest_eq hover hworks hroom hblock, ?_⟩⟩
  exact (bshufBitshuffle_outcome build mallocs hroom).mono (fun _ houtcome => houtcome.2) fun _ => id

/-- Two threads that are in their calls at the same time, and work on their blocks at the
same time before the last four steps. -/
def turns : List Bool :=
  [true, false] ++ List.replicate 7 true ++ (List.replicate 9 [false, true]).flatten ++
    List.replicate 7 false ++ [true, false, true, false]

theorem bshufBitshuffle_threads_turns :
    ∃ s s' : Loop Bool,
      (Loop.start 2 (List.replicate 17 0)).follow (transBitElem ⟨true, true⟩ zeroedMallocs)
        twoBlocks.toList 8 1 (turns.take 34) = some s ∧
      (∀ t, (s.calls t).map Call.pc = some 16) ∧ RaceFree 8 s ∧
      (Loop.start 2 (List.replicate 17 0)).follow (transBitElem ⟨true, true⟩ zeroedMallocs)
        twoBlocks.toList 8 1 turns = some s' ∧
      s'.Over ∧
      bshufBlockedWrapRest (transBitElem ⟨true, true⟩ zeroedMallocs) twoBlocks.toList 17 1 8 s'.vars =
        bshufBitshuffle ⟨true, true⟩ zeroedMallocs twoBlocks.toList (List.replicate 17 0) 17 1 8 ∧
      Returns (bshufBitshuffle ⟨true, true⟩ zeroedMallocs twoBlocks.toList (List.replicate 17 0) 17 1 8)
        (Outcome 17 8 (BlocksMemory (ShuffleMemory ⟨true, true⟩ zeroedMallocs 1) 17 8)
          (shuffledBytes twoBlocks.toList (List.replicate 17 0) 17 1 8)) := by
  have hthreads := @bshufBitshuffle_threads Bool 8 1 _ _ 17 ⟨true, true⟩ zeroedMallocs twoBlocks
    (.replicate 17 0) (by decide) (by decide)
  obtain ⟨s, hfollow, hwork⟩ : ∃ s ∈ (Loop.start 2 (List.replicate 17 0)).follow
      (transBitElem ⟨true, true⟩ zeroedMallocs) twoBlocks.toList 8 1 (turns.take 34),
      ∀ t, (s.calls t).map Call.pc = some 16 := by
    decide +kernel
  obtain ⟨s', hfollow', hover⟩ : ∃ s ∈ (Loop.start 2 (List.replicate 17 0)).follow
      (transBitElem ⟨true, true⟩ zeroedMallocs) twoBlocks.toList 8 1 turns, s.Over := by
    decide +kernel
  exact ⟨s, s', hfollow, hwork, (hthreads s (follow_reached hfollow)).1, hfollow', hover,
    (hthreads s' (follow_reached hfollow')).2 hover⟩

/-- What some threads have shuffled, others restore. -/
theorem bshufBitunshuffle_threads (build build' : Build) (mallocs mallocs' : Mallocs)
    (src out out' : List.Vector UInt8 (size * elemSize)) (hdefault : blockSize = 0 → elemSize ≠ 0)
    (s s' : Loop Thread) (result : Int × List UInt8)
    (h : InCall (transBitElem build mallocs) src.toList out.toList size elemSize blockSize s)
    (hover : s.Over) (hresult : bshufBlockedWrapRest (transBitElem build mallocs) src.toList size
      elemSize (usedBlockSize elemSize blockSize) s.vars = .ok result)
    (hblock : blockSize % 8 = 0) (hcode : 0 ≤ result.1)
    (h' : InCall (untransBitElem build' mallocs') result.2 out'.toList size elemSize blockSize s')
    (hover' : s'.Over) :
    Returns
      (bshufBlockedWrapRest (untransBitElem build' mallocs') result.2 size elemSize
        (usedBlockSize elemSize blockSize) s'.vars)
      (Outcome (size * elemSize) blockSize
        (BlocksMemory (UnshuffleMemory mallocs' elemSize) size (usedBlockSize elemSize blockSize))
        src.toList) := by
  have hroom : Room src.toList out.toList size elemSize blockSize :=
    ⟨src.toList_length.ge, out.toList_length.ge, hdefault⟩
  have houtcome : Returns _ (Outcome _ _ _ (shuffledBytes src.toList out.toList size elemSize blockSize)) :=
    h.outcome hover (transBitElem_works build mallocs elemSize) hroom hblock
  obtain ⟨-, -, rfl⟩ := (houtcome.of_ok hresult).eq_of_nonneg hcode
  have hroom' : Room (shuffledBytes src.toList out.toList size elemSize blockSize) out'.toList size
      elemSize blockSize :=
    ⟨(shuffledBytes_length out.toList_length).ge, out'.toList_length.ge, hdefault⟩
  have houtcome' := h'.outcome hover' (untransBitElem_works build' mallocs' elemSize) hroom' hblock
  dsimp only at houtcome' ⊢
  rwa [shuffledBytes_undone hblock src.toList_length out'.toList_length] at houtcome'

/-- Two threads shuffle two blocks with the vector instructions, and two others restore
them without. -/
theorem bshufBitunshuffle_threads_turns :
    ∃ (s s' : Loop Bool) (bytes : List UInt8),
      (Loop.start 2 (List.replicate 17 0)).follow (transBitElem ⟨true, true⟩ zeroedMallocs)
        twoBlocks.toList 8 1 turns = some s ∧
      s.Over ∧ bshufBlockedWrapRest (transBitElem ⟨true, true⟩ zeroedMallocs) twoBlocks.toList 17 1 8
        s.vars = .ok (17, bytes) ∧
      (Loop.start 2 (List.replicate 17 0)).follow (untransBitElem ⟨false, false⟩ zeroedMallocs)
        bytes 8 1 turns = some s' ∧
      s'.Over ∧ Returns
        (bshufBlockedWrapRest (untransBitElem ⟨false, false⟩ zeroedMallocs) bytes 17 1 8 s'.vars)
        (Outcome 17 8 (BlocksMemory (UnshuffleMemory zeroedMallocs 1) 17 8) twoBlocks.toList) ∧
      bshufBlockedWrapRest (untransBitElem ⟨false, false⟩ zeroedMallocs) bytes 17 1 8 s'.vars =
        .ok (17, twoBlocks.toList) := by
  obtain ⟨s, hfollow, hover, hresult⟩ : ∃ s ∈ (Loop.start 2 (List.replicate 17 0)).follow
      (transBitElem ⟨true, true⟩ zeroedMallocs) twoBlocks.toList 8 1 turns,
      s.Over ∧ bshufBlockedWrapRest (transBitElem ⟨true, true⟩ zeroedMallocs) twoBlocks.toList 17 1 8
        s.vars = .ok (17, shuffledBytes twoBlocks.toList (List.replicate 17 0) 17 1 8) := by
    decide +kernel
  obtain ⟨s', hfollow', hover', hresult'⟩ : ∃ s ∈ (Loop.start 2 (List.replicate 17 0)).follow
      (untransBitElem ⟨false, false⟩ zeroedMallocs)
      (shuffledBytes twoBlocks.toList (List.replicate 17 0) 17 1 8) 8 1 turns,
      s.Over ∧ bshufBlockedWrapRest (untransBitElem ⟨false, false⟩ zeroedMallocs)
        (shuffledBytes twoBlocks.toList (List.replicate 17 0) 17 1 8) 17 1 8 s.vars =
          .ok (17, twoBlocks.toList) := by
    decide +kernel
  generalize shuffledBytes twoBlocks.toList (List.replicate 17 0) 17 1 8 = bytes at *
  exact ⟨s, s', bytes, hfollow, hover, hresult, hfollow', hover',
    @bshufBitunshuffle_threads Bool 8 1 _ _ 17 ⟨true, true⟩ ⟨false, false⟩ zeroedMallocs zeroedMallocs
      twoBlocks (.replicate 17 0) (.replicate 17 0) (by decide) s s' (17, bytes) (follow_reached hfollow)
      hover hresult (by decide) (show (0 : Int) ≤ 17 by decide) (follow_reached hfollow') hover', hresult'⟩

/-- Every interleaving of the threads of `bshuf_bitshuffle` is over after 19 steps a block,
and comes that far: it never stands still before. -/
theorem bshufBitshuffle_threads_end [Nonempty Thread] (build : Build) (mallocs : Mallocs)
    (src out : List.Vector UInt8 (size * elemSize)) (hblock : blockSize % 8 = 0)
    (hdefault : blockSize = 0 → elemSize ≠ 0) (run : Nat → Loop Thread) (k : Nat)
    (hstart : run 0 = .start (size / usedBlockSize elemSize blockSize) out.toList)
    (hrun : ∀ i < k, Loop.Steps (transBitElem build mallocs) src.toList
      (usedBlockSize elemSize blockSize) elemSize (run i) (run (i + 1))) :
    k ≤ 19 * (size / usedBlockSize elemSize blockSize) ∧
    ((run k).Over ↔ k = 19 * (size / usedBlockSize elemSize blockSize)) ∧
    ((run k).Over ↔ ¬ ∃ next, Loop.Steps (transBitElem build mallocs) src.toList
      (usedBlockSize elemSize blockSize) elemSize (run k) next) := by
  have hworks := transBitElem_works build mallocs elemSize
  have hroom : Room src.toList out.toList size elemSize blockSize :=
    ⟨src.toList_length.ge, out.toList_length.ge, hdefault⟩
  have hcost := run_cost hrun
  have hreached := run_reached hrun
  rw [hstart] at hcost hreached
  rw [cost_start] at hcost
  refine ⟨by omega, ?_, fun hover => ?_, fun hstuck => ?_⟩
  · rw [over_iff]
    omega
  · rintro ⟨next, t, hstep⟩
    have hless := step_cost (step_kind hstep)
    rw [over_iff.mp hover] at hless
    omega
  · by_contra hover
    have hsound : Sound _ _ _ _ _ (run k) := InCall.sound hreached hworks hroom hblock
    obtain ⟨t, next, hstep⟩ := hsound.progress (loopable hworks hroom hblock) hover
    exact hstuck ⟨next, t, hstep⟩

/-- Two threads take turns until two blocks are done. -/
theorem bshufBitshuffle_threads_end_turns :
    ∃ run : Nat → Loop Bool, run 0 = .start 2 (List.replicate 17 0) ∧
      (∀ i < 38, Loop.Steps (transBitElem ⟨true, true⟩ zeroedMallocs) twoBlocks.toList 8 1 (run i)
        (run (i + 1))) ∧
      38 ≤ 19 * 2 ∧ ((run 38).Over ↔ 38 = 19 * 2) ∧
      ((run 38).Over ↔ ¬ ∃ next, Loop.Steps (transBitElem ⟨true, true⟩ zeroedMallocs) twoBlocks.toList
        8 1 (run 38) next) := by
  obtain ⟨s, hfollow⟩ := Option.isSome_iff_exists.mp (show ((Loop.start 2 (List.replicate 17 0)).follow
    (transBitElem ⟨true, true⟩ zeroedMallocs) twoBlocks.toList 8 1 turns).isSome = true
    by decide +kernel)
  obtain ⟨run, hstart, -, hsteps⟩ := follow_run hfollow
  exact ⟨run, hstart, hsteps, @bshufBitshuffle_threads_end Bool 8 1 _ _ 17 _ ⟨true, true⟩ zeroedMallocs
    twoBlocks (.replicate 17 0) (by decide) (by decide) run 38 hstart hsteps⟩

end calls

end TonCompress.Shuffle
