import TonCompress.Shuffle.Blocked

/-! What `bshuf_bitshuffle` and `bshuf_bitunshuffle` make of a buffer, block by block. -/
namespace TonCompress.Shuffle
open TonCompress.Lib

section routines
variable {src out : List UInt8} {size elemSize : Nat}

/-- With its memory a routine fills the bytes of a block; without it leaves the output as it is. -/
def Works (routine : BlockRoutine) (elemSize : Nat) (target : Nat → List UInt8 → Nat → UInt8)
    (memory : Nat → Nat → Prop) : Prop :=
  ∀ iter src out size, size % 8 = 0 → size * elemSize ≤ src.length → size * elemSize ≤ out.length →
    (memory iter size → routine iter src out size elemSize = .ok (((size * elemSize : Nat) : Int),
      filled (size * elemSize) (target size src) out)) ∧
    (¬ memory iter size → routine iter src out size elemSize = .ok (-1, out))

def ShuffleMemory (build : Build) (mallocs : Mallocs) (elemSize iter size : Nat) : Prop :=
  (∃ tmpBuf, (mallocs iter).1 (size * elemSize) = some tmpBuf) ∧
    (build.sse2 = true → ByChunks elemSize →
      ∃ tmpBuf, (mallocs iter).2 (size * elemSize) = some tmpBuf)

def UnshuffleMemory (mallocs : Mallocs) (elemSize iter size : Nat) : Prop :=
  ∃ tmpBuf, (mallocs iter).1 (size * elemSize) = some tmpBuf

theorem eq_none_of_no_memory {n : Nat} {malloc : Malloc} (h : ¬ ∃ tmpBuf, malloc n = some tmpBuf) :
    malloc n = none :=
  Option.eq_none_iff_forall_ne_some.mpr fun tmpBuf hmalloc => h ⟨tmpBuf, hmalloc⟩

theorem transByteElemSse_no_memory {malloc : Malloc} (hchunks : ByChunks elemSize)
    (hmalloc : malloc (size * elemSize) = none) :
    transByteElemSse malloc src out size elemSize = .ok (-1, out) := by
  obtain ⟨hfours, hfour, height⟩ := hchunks
  unfold transByteElemSse
  rw [if_neg (by omega), if_neg (by omega), if_neg hfour, if_neg height, if_neg (not_not.mpr hfours),
    hmalloc]
  rfl

theorem transBitElem_works (build : Build) (mallocs : Mallocs) (elemSize : Nat) :
    Works (transBitElem build mallocs) elemSize (fun size => bitTransposed size elemSize)
      (ShuffleMemory build mallocs elemSize) := by
  intro iter src out size hsize hsrc hout
  unfold transBitElem
  refine ⟨?_, fun hmemory => ?_⟩
  · rintro ⟨⟨tmpBuf, hmalloc⟩, hinner⟩
    split
    · exact transBitElemSse_eq hmalloc (hinner ‹_›) hsize hsrc hout
    · exact transBitElemScal_eq hmalloc hsize hsrc hout
  · by_cases hfirst : ∃ tmpBuf, (mallocs iter).1 (size * elemSize) = some tmpBuf
    · obtain ⟨tmpBuf, hmalloc⟩ := hfirst
      have hsse : build.sse2 = true ∧ ByChunks elemSize ∧
          ¬ ∃ tmpBuf, (mallocs iter).2 (size * elemSize) = some tmpBuf := by
        by_contra hnone
        exact hmemory ⟨⟨tmpBuf, hmalloc⟩, fun hsse hchunks => by
          by_contra hinner
          exact hnone ⟨hsse, hchunks, hinner⟩⟩
      obtain ⟨hsse, hchunks, hinner⟩ := hsse
      rw [if_pos hsse, transBitElemSse, if_neg (not_not.mpr hsize), hmalloc]
      dsimp only
      rw [transByteElemSse_no_memory hchunks (eq_none_of_no_memory hinner), ok_bind]
      rfl
    · have hmalloc := eq_none_of_no_memory hfirst
      split
      · rw [transBitElemSse, if_neg (not_not.mpr hsize), hmalloc]
        rfl
      · rw [transBitElemScal, if_neg (not_not.mpr hsize), hmalloc]
        rfl

theorem untransBitElem_works (build : Build) (mallocs : Mallocs) (elemSize : Nat) :
    Works (untransBitElem build mallocs) elemSize (fun size => bitUntransposed size elemSize)
      (UnshuffleMemory mallocs elemSize) := by
  intro iter src out size hsize hsrc hout
  unfold untransBitElem
  refine ⟨?_, fun hmemory => ?_⟩
  · rintro ⟨tmpBuf, hmalloc⟩
    split
    · exact untransBitElemSse_eq hmalloc hsize hsrc hout
    · exact untransBitElemScal_eq hmalloc hsize hsrc hout
  · have hmalloc := eq_none_of_no_memory hmemory
    split
    · rw [untransBitElemSse, if_neg (not_not.mpr hsize), hmalloc]
      rfl
    · rw [untransBitElemScal, if_neg (not_not.mpr hsize), hmalloc]
      rfl

end routines

section chain
variable {C : IocChain} {iter off : Nat}

/-- The chain at iteration `iter`, whose block starts at byte `off` of both buffers. -/
structure IocChain.At (C : IocChain) (iter off : Nat) : Prop where
  next_eq : C.next = iter
  in_eq : C.inPl (slot iter) = some off
  out_eq : C.outPl (slot iter) = some off

theorem iocInit_at : iocInit.At 0 0 :=
  ⟨rfl, rfl, rfl⟩

theorem iocGetIn_at (h : C.At iter off) : iocGetIn C = .ok (off, { C with next := iter + 1 }) := by
  unfold iocGetIn
  rw [h.next_eq, h.in_eq]
  rfl

theorem iocGetOut_at (h : C.At iter off) (next inPtr : Nat) :
    iocGetOut (iocSetNextIn { C with next := next } iter inPtr) iter = .ok off := by
  unfold iocGetOut iocSetNextIn
  rw [h.out_eq]
  rfl

end chain

section blocks
variable {routine : BlockRoutine} {target : Nat → List UInt8 → Nat → UInt8}
variable {memory : Nat → Nat → Prop} {src out : List UInt8} {size elemSize blockSize : Nat}
variable {whole : Nat → UInt8} {vars : BlockedVars} {iter off : Nat} {good : Prop}

def blockPlaces (n off : Nat) : Set Nat := {p | ∃ b < n, p = off + b}

/-- The blocks before iteration `iter`, of which the places `got` are done: all if `good`. -/
structure BlocksDone (whole : Nat → UInt8) (out : List UInt8) (iter off : Nat) (good : Prop)
    (got : Set Nat) (vars : BlockedVars) : Prop where
  chain : vars.C.At iter off
  stored : Stored whole got out vars.out
  done : good → vars.err = 0 ∧ vars.cumCount = off ∧ ∀ p, p ∈ got ↔ p < off
  failed : ¬ good → vars.err = -1

theorem blocksDone_init (out : List UInt8) : BlocksDone whole out 0 0 True ∅ ⟨iocInit, out, 0, 0⟩ :=
  ⟨iocInit_at, stored_none out, fun _ => ⟨rfl, rfl, fun _ => iff_of_false id (Nat.not_lt_zero _)⟩,
    fun h => absurd trivial h⟩

theorem runBlock_done {got : Set Nat} (hworks : Works routine elemSize target memory)
    (h : BlocksDone whole out iter off good got vars) (hsize : size % 8 = 0)
    (hsrc : off + size * elemSize ≤ src.length) (hout : off + size * elemSize ≤ out.length)
    (htarget : ∀ b < size * elemSize, target size (src.drop off) b = whole (off + b)) :
    Returns (runBlock routine src size elemSize vars)
      (BlocksDone whole out (iter + 1) (off + size * elemSize) (good ∧ memory iter size)
        (got ∪ {p | memory iter size ∧ p ∈ blockPlaces (size * elemSize) off})) := by
  have hlength := h.stored.length_eq
  have hblock := hworks iter (src.drop off) (vars.out.drop off) size hsize
    (by rw [List.length_drop]; omega) (by rw [List.length_drop]; omega)
  have hchain : ∀ inPtr outPtr, inPtr = off + size * elemSize → outPtr = off + size * elemSize →
      (iocSetNextOut (iocSetNextIn { vars.C with next := iter + 1 } iter inPtr) iter outPtr).At
        (iter + 1) (off + size * elemSize) := by
    rintro inPtr outPtr rfl rfl
    exact ⟨rfl, Function.update_self .., Function.update_self ..⟩
  unfold runBlock
  rw [h.chain.next_eq, iocGetIn_at h.chain, ok_bind]
  dsimp only
  rw [iocGetOut_at h.chain, ok_bind]
  by_cases hmemory : memory iter size
  · rw [hblock.1 hmemory, ok_bind, if_neg (processed_nonneg _)]
    have hnow : Stored whole (blockPlaces (size * elemSize) off) vars.out
        (vars.out.take off ++ filled (size * elemSize) (target size (src.drop off)) (vars.out.drop off)) :=
      stored_splice (by omega) htarget
    simp only [and_iff_right hmemory, Set.ofPred_mem_eq]
    refine (ends_pure _).mpr ⟨hchain _ _ rfl rfl, h.stored.trans hnow, fun hgood => ?_, fun hbad => ?_⟩
    · obtain ⟨herr, hcount, hgot⟩ := h.done hgood.1
      refine ⟨herr, ?_, fun p => ?_⟩
      · dsimp only
        rw [hcount]
        push_cast
        rfl
      · rw [Set.mem_union, hgot]
        constructor
        · rintro (hbefore | ⟨b, hb, rfl⟩) <;> omega
        · intro hp
          by_cases hbefore : p < off
          · exact .inl hbefore
          · exact .inr ⟨p - off, by omega, by omega⟩
    · exact h.failed fun hgood => hbad ⟨hgood, hmemory⟩
  · rw [hblock.2 hmemory, ok_bind, List.take_append_drop]
    simp only [hmemory, false_and, Set.ofPred_false, Set.union_empty]
    exact (ends_pure _).mpr
      ⟨hchain _ _ rfl rfl, h.stored, fun hgood => absurd hgood.2 id, fun _ => rfl⟩

/-- The bytes of all blocks, and of the elements that are left over. -/
def blockedTarget (target : Nat → List UInt8 → Nat → UInt8) (src : List UInt8)
    (size elemSize blockSize : Nat) (p : Nat) : UInt8 :=
  let blockBytes := blockSize * elemSize
  let whole := size / blockSize * blockBytes
  let lastBlockSize := size % blockSize - size % blockSize % 8
  if p < whole then target blockSize (src.drop (p / blockBytes * blockBytes)) (p % blockBytes)
  else if p < whole + lastBlockSize * elemSize then target lastBlockSize (src.drop whole) (p - whole)
  else byteOf src p

def BlocksMemory (memory : Nat → Nat → Prop) (size blockSize : Nat) : Prop :=
  (∀ iter < size / blockSize, memory iter blockSize) ∧
    (size % blockSize - size % blockSize % 8 ≠ 0 →
      memory (size / blockSize) (size % blockSize - size % blockSize % 8))

def gotBlocks (memory : Nat → Nat → Prop) (count elemSize blockSize : Nat) : Set Nat :=
  {p | ∃ iter < count, memory iter blockSize ∧
    p ∈ blockPlaces (blockSize * elemSize) (iter * (blockSize * elemSize))}

/-- The bytes of all blocks that get their memory. -/
def gotPlaces (memory : Nat → Nat → Prop) (size elemSize blockSize : Nat) : Set Nat :=
  gotBlocks memory (size / blockSize) elemSize blockSize ∪
    {p | memory (size / blockSize) (size % blockSize - size % blockSize % 8) ∧
      p ∈ blockPlaces ((size % blockSize - size % blockSize % 8) * elemSize)
        (size / blockSize * (blockSize * elemSize))}

theorem gotBlocks_zero : gotBlocks memory 0 elemSize blockSize = ∅ :=
  Set.eq_empty_of_forall_notMem fun _ ⟨_, hiter, _⟩ => Nat.not_lt_zero _ hiter

theorem gotBlocks_succ (iter : Nat) :
    gotBlocks memory (iter + 1) elemSize blockSize = gotBlocks memory iter elemSize blockSize ∪
      {p | memory iter blockSize ∧ p ∈ blockPlaces (blockSize * elemSize) (iter * (blockSize * elemSize))} := by
  ext p
  constructor
  · rintro ⟨k, hk, hgot⟩
    rcases Nat.lt_succ_iff_lt_or_eq.mp hk with hlt | rfl
    · exact .inl ⟨k, hlt, hgot⟩
    · exact .inr hgot
  · rintro (⟨k, hk, hgot⟩ | hgot)
    · exact ⟨k, Nat.lt_succ_of_lt hk, hgot⟩
    · exact ⟨iter, Nat.lt_succ_self iter, hgot⟩

theorem size_parts (hblock : blockSize % 8 = 0) (size elemSize : Nat) :
    size / blockSize * (blockSize * elemSize) +
      (size % blockSize - size % blockSize % 8) * elemSize + size % 8 * elemSize =
        size * elemSize := by
  have height : size % blockSize % 8 = size % 8 :=
    Nat.mod_mod_of_dvd _ (Nat.dvd_of_mod_eq_zero hblock)
  have hle : size % blockSize % 8 ≤ size % blockSize := Nat.mod_le _ _
  calc size / blockSize * (blockSize * elemSize) +
        (size % blockSize - size % blockSize % 8) * elemSize + size % 8 * elemSize
      = (blockSize * (size / blockSize) +
          (size % blockSize - size % blockSize % 8 + size % 8)) * elemSize := by ring
    _ = (blockSize * (size / blockSize) + size % blockSize) * elemSize := by
        rw [← height, Nat.sub_add_cancel hle]
    _ = size * elemSize := by rw [Nat.div_add_mod]

theorem blockedTarget_block {b : Nat} (hiter : iter < size / blockSize) (hb : b < blockSize * elemSize) :
    blockedTarget target src size elemSize blockSize (iter * (blockSize * elemSize) + b) =
      target blockSize (src.drop (iter * (blockSize * elemSize))) b := by
  have hpos : 0 < blockSize * elemSize := Nat.zero_lt_of_lt hb
  have hplace := place_lt hb hiter
  have hwhole : iter * (blockSize * elemSize) + b < size / blockSize * (blockSize * elemSize) := by
    rwa [Nat.mul_comm (size / blockSize)]
  unfold blockedTarget
  rw [if_pos hwhole, Nat.mul_comm iter, Nat.mul_add_div hpos, Nat.div_eq_of_lt hb, Nat.add_zero,
    Nat.mul_add_mod, Nat.mod_eq_of_lt hb, Nat.mul_comm iter]

theorem blockedTarget_last {b : Nat} (hb : b < (size % blockSize - size % blockSize % 8) * elemSize) :
    blockedTarget target src size elemSize blockSize
        (size / blockSize * (blockSize * elemSize) + b) =
      target (size % blockSize - size % blockSize % 8)
        (src.drop (size / blockSize * (blockSize * elemSize))) b := by
  unfold blockedTarget
  rw [if_neg (by omega), if_pos (by omega), Nat.add_sub_cancel_left]

theorem blockedTarget_leftover {b : Nat} :
    blockedTarget target src size elemSize blockSize (size / blockSize * (blockSize * elemSize) +
        (size % blockSize - size % blockSize % 8) * elemSize + b) =
      byteOf src (size / blockSize * (blockSize * elemSize) +
        (size % blockSize - size % blockSize % 8) * elemSize + b) := by
  unfold blockedTarget
  rw [if_neg (by omega), if_neg (by omega)]

theorem blockedLoop_done (hworks : Works routine elemSize target memory) (hblock : blockSize % 8 = 0)
    (hsrc : size * elemSize ≤ src.length) (hout : size * elemSize ≤ out.length) :
    Returns (forRange 0 (size / blockSize) ⟨iocInit, out, 0, 0⟩ fun _ =>
        runBlock routine src blockSize elemSize)
      (BlocksDone (blockedTarget target src size elemSize blockSize) out (size / blockSize)
        (size / blockSize * (blockSize * elemSize)) (∀ iter < size / blockSize, memory iter blockSize)
        (gotBlocks memory (size / blockSize) elemSize blockSize)) := by
  have hparts := size_parts hblock size elemSize
  refine forRange_ends (fun iter => BlocksDone (blockedTarget target src size elemSize blockSize) out
    iter (iter * (blockSize * elemSize)) (∀ k < iter, memory k blockSize)
      (gotBlocks memory iter elemSize blockSize)) (Nat.zero_le _) ?_ fun iter vars _ hiter hdone => ?_
  · rw [Nat.zero_mul, gotBlocks_zero]
    have hall : (∀ k < 0, memory k blockSize) ↔ True := iff_true_intro nofun
    rw [hall]
    exact blocksDone_init out
  · have hfit : (iter + 1) * (blockSize * elemSize) ≤ size / blockSize * (blockSize * elemSize) :=
      Nat.mul_le_mul_right _ hiter
    rw [gotBlocks_succ]
    rw [Nat.succ_mul] at hfit ⊢
    have hall : (∀ k < iter + 1, memory k blockSize) ↔
        (∀ k < iter, memory k blockSize) ∧ memory iter blockSize := Nat.forall_lt_succ_right
    rw [hall]
    exact runBlock_done hworks hdone hblock (by omega) (by omega) fun b hb =>
      (blockedTarget_block hiter hb).symm

theorem bshufBlockedWrapRest_eq (hworks : Works routine elemSize target memory)
    (hblock : blockSize % 8 = 0) (hsrc : size * elemSize ≤ src.length)
    (hout : size * elemSize ≤ out.length)
    (h : BlocksDone (blockedTarget target src size elemSize blockSize) out (size / blockSize)
      (size / blockSize * (blockSize * elemSize)) (∀ iter < size / blockSize, memory iter blockSize)
      (gotBlocks memory (size / blockSize) elemSize blockSize) vars) :
    (BlocksMemory memory size blockSize →
      bshufBlockedWrapRest routine src size elemSize blockSize vars =
        .ok (((size * elemSize : Nat) : Int),
          filled (size * elemSize) (blockedTarget target src size elemSize blockSize) out)) ∧
    (¬ BlocksMemory memory size blockSize → ∃ out',
      Stored (blockedTarget target src size elemSize blockSize)
        (gotPlaces memory size elemSize blockSize) out out' ∧
      bshufBlockedWrapRest routine src size elemSize blockSize vars = .ok (-1, out')) := by
  have hparts := size_parts hblock size elemSize
  obtain ⟨iter, vars', hlast, hdone⟩ : ∃ iter vars',
      runLastBlock routine src size elemSize blockSize vars = .ok vars' ∧
      BlocksDone (blockedTarget target src size elemSize blockSize) out iter
        (size / blockSize * (blockSize * elemSize) +
          (size % blockSize - size % blockSize % 8) * elemSize)
        (BlocksMemory memory size blockSize) (gotPlaces memory size elemSize blockSize) vars' := by
    by_cases hzero : size % blockSize - size % blockSize % 8 = 0
    · refine ⟨size / blockSize, vars, if_neg (not_not.mpr hzero), ?_⟩
      have hmemory : BlocksMemory memory size blockSize ↔
          ∀ iter < size / blockSize, memory iter blockSize :=
        and_iff_left fun hne => absurd hzero hne
      have hgot : gotPlaces memory size elemSize blockSize =
          gotBlocks memory (size / blockSize) elemSize blockSize := by
        refine Set.union_eq_left.mpr ?_
        rintro p ⟨-, b, hb, -⟩
        rw [hzero, Nat.zero_mul] at hb
        exact absurd hb (Nat.not_lt_zero b)
      rw [hmemory, hgot, hzero, Nat.zero_mul, Nat.add_zero]
      exact h
    · have hmemory : BlocksMemory memory size blockSize ↔
          (∀ iter < size / blockSize, memory iter blockSize) ∧
            memory (size / blockSize) (size % blockSize - size % blockSize % 8) :=
        and_congr_right fun _ => ⟨fun hlast => hlast hzero, fun hlast _ => hlast⟩
      have hblocks := runBlock_done hworks h
        (show (size % blockSize - size % blockSize % 8) % 8 = 0 by omega) (by omega) (by omega)
        fun b hb => (blockedTarget_last hb).symm
      obtain ⟨vars', hrun, hdone⟩ := returns_iff.mp hblocks
      refine ⟨size / blockSize + 1, vars', (if_pos hzero).trans hrun, ?_⟩
      rw [hmemory]
      exact hdone
  have hlength := hdone.stored.length_eq
  unfold bshufBlockedWrapRest
  rw [hlast, ok_bind]
  constructor
  · intro hmemory
    obtain ⟨herr, hcount, hgot⟩ := hdone.done hmemory
    have hover : Overwrites (size * elemSize) (blockedTarget target src size elemSize blockSize) out
        vars'.out := hdone.stored.overwrites fun p hp => by
      have hlt := (hgot p).mp hp
      omega
    have hcopy : Fills (size * elemSize) (blockedTarget target src size elemSize blockSize)
        {p | ∃ b < size % 8 * elemSize, p = size / blockSize * (blockSize * elemSize) +
          (size % blockSize - size % blockSize % 8) * elemSize + b}
        (memcpy src (size / blockSize * (blockSize * elemSize) +
          (size % blockSize - size % blockSize % 8) * elemSize) (size / blockSize *
            (blockSize * elemSize) + (size % blockSize - size % blockSize % 8) * elemSize)
              (size % 8 * elemSize)) :=
      memcpy_fills (by omega) (by omega) fun b _ => blockedTarget_leftover
    obtain ⟨out', hrun, hover', hcopied⟩ := returns_iff.mp (hcopy vars'.out (by omega))
    have hfull : out' = filled (size * elemSize)
        (blockedTarget target src size elemSize blockSize) out := by
      refine (hover.trans hover').all fun p hp => ?_
      by_cases hbefore : p < size / blockSize * (blockSize * elemSize) +
          (size % blockSize - size % blockSize % 8) * elemSize
      · exact hover'.stays (hdone.stored.stored p ((hgot p).mpr hbefore))
      · obtain ⟨b, rfl⟩ := Nat.exists_eq_add_of_le (Nat.le_of_not_lt hbefore)
        exact hcopied _ ⟨b, by omega, rfl⟩
    rw [if_neg (by omega), hdone.chain.next_eq, iocGetIn_at hdone.chain, ok_bind]
    dsimp only
    rw [iocGetOut_at hdone.chain, ok_bind, hrun, ok_bind, hfull, hcount]
    refine congrArg Except.ok (Prod.ext ?_ rfl)
    dsimp only
    rw [← hparts]
    push_cast
    rfl
  · intro hmemory
    have herr := hdone.failed hmemory
    refine ⟨vars'.out, hdone.stored, ?_⟩
    rw [if_pos (by omega), herr]
    rfl

def usedBlockSize (elemSize blockSize : Nat) : Nat :=
  if blockSize = 0 then max (8192 / elemSize / 8 * 8) 128 else blockSize

theorem usedBlockSize_mod (hblock : blockSize % 8 = 0) : usedBlockSize elemSize blockSize % 8 = 0 := by
  unfold usedBlockSize
  split <;> omega

theorem bshufBlockedWrapFun_start (hdefault : blockSize = 0 → elemSize ≠ 0) :
    bshufBlockedWrapFun routine src out size elemSize blockSize =
      if usedBlockSize elemSize blockSize % 8 ≠ 0 then .ok (-81, out)
      else (forRange 0 (size / usedBlockSize elemSize blockSize) ⟨iocInit, out, 0, 0⟩ fun _ =>
          runBlock routine src (usedBlockSize elemSize blockSize) elemSize) >>=
        bshufBlockedWrapRest routine src size elemSize (usedBlockSize elemSize blockSize) := by
  by_cases hzero : blockSize = 0
  · subst hzero
    have hused : bshufDefaultBlockSize elemSize = .ok (usedBlockSize elemSize 0) :=
      if_neg (hdefault rfl)
    unfold bshufBlockedWrapFun
    rw [if_pos rfl, hused]
    rfl
  · have hused : usedBlockSize elemSize blockSize = blockSize := if_neg hzero
    unfold bshufBlockedWrapFun
    rw [if_neg hzero, hused]
    rfl

/-- A call fills the bytes of all elements if every block has its memory, and else fails
with those of the blocks that had it. -/
theorem bshufBlockedWrapFun_eq (hworks : Works routine elemSize target memory)
    (hblock : blockSize % 8 = 0) (hdefault : blockSize = 0 → elemSize ≠ 0)
    (hsrc : size * elemSize ≤ src.length) (hout : size * elemSize ≤ out.length) :
    (BlocksMemory memory size (usedBlockSize elemSize blockSize) →
      bshufBlockedWrapFun routine src out size elemSize blockSize =
        .ok (((size * elemSize : Nat) : Int), filled (size * elemSize)
          (blockedTarget target src size elemSize (usedBlockSize elemSize blockSize)) out)) ∧
    (¬ BlocksMemory memory size (usedBlockSize elemSize blockSize) →
      ∃ out', Stored (blockedTarget target src size elemSize (usedBlockSize elemSize blockSize))
          (gotPlaces memory size elemSize (usedBlockSize elemSize blockSize)) out out' ∧
        bshufBlockedWrapFun routine src out size elemSize blockSize = .ok (-1, out')) := by
  have hmod : usedBlockSize elemSize blockSize % 8 = 0 := usedBlockSize_mod hblock
  obtain ⟨vars, hloop, hdone⟩ := returns_iff.mp (blockedLoop_done hworks hmod hsrc hout)
  rw [bshufBlockedWrapFun_start hdefault, if_neg (not_not.mpr hmod), hloop, ok_bind]
  exact bshufBlockedWrapRest_eq hworks hmod hsrc hout hdone

end blocks

section inverse
variable {src out : List UInt8} {size elemSize blockSize : Nat}
variable {target target' : Nat → List UInt8 → Nat → UInt8}

/-- On a block, `target'` undoes `target`. -/
def Undoes (elemSize : Nat) (target' target : Nat → List UInt8 → Nat → UInt8) : Prop :=
  ∀ size bytes bytes', (∀ b < size * elemSize, byteOf bytes' b = target size bytes b) →
    ∀ b < size * elemSize, target' size bytes' b = byteOf bytes b

theorem bitUntransposed_undoes (elemSize : Nat) :
    Undoes elemSize (fun size => bitUntransposed size elemSize)
      fun size => bitTransposed size elemSize := by
  intro size bytes bytes' hbytes
  refine fun b hb => @eq_of_bitsFrom _ _ (size * elemSize) b (fun k hk => ?_) hb
  have hk' : k < size * (8 * elemSize) := by
    rw [Nat.mul_left_comm]
    exact hk
  have hbits : ∀ i < size * (8 * elemSize), bitsFrom (byteOf bytes') i =
      transposed size (8 * elemSize) (bitsFrom (byteOf bytes)) i := by
    intro i hi
    rw [Nat.mul_left_comm] at hi
    calc bitsFrom (byteOf bytes') i
        = bitsFrom (bitTransposed size elemSize bytes) i := by
          rw [bitsFrom, bitsFrom, hbytes (i / 8) (by omega)]
      _ = transposed size (8 * elemSize) (bitsFrom (byteOf bytes)) i := by
          rw [bitTransposed, bitsFrom_packBits]
  calc bitsFrom (bitUntransposed size elemSize bytes') k
      = transposed (8 * elemSize) size (bitsFrom (byteOf bytes')) k := by
        rw [bitUntransposed, bitsFrom_packBits]
    _ = transposed (8 * elemSize) size (transposed size (8 * elemSize) (bitsFrom (byteOf bytes))) k :=
        transposed_congr (fun i hi => hbits i (Nat.mul_comm _ size ▸ hi)) (Nat.mul_comm size _ ▸ hk')
    _ = bitsFrom (byteOf bytes) k := transposed_transposed _ hk'

theorem byteOf_drop (bytes : List UInt8) (off b : Nat) :
    byteOf (bytes.drop off) b = byteOf bytes (off + b) := by
  rw [byteOf, byteOf, List.getD_eq_getElem?_getD, List.getD_eq_getElem?_getD, List.getElem?_drop]

theorem blockedTarget_undoes (hundoes : Undoes elemSize target' target) (hblock : blockSize % 8 = 0)
    {p : Nat} (hp : p < size * elemSize) :
    blockedTarget target' (filled (size * elemSize) (blockedTarget target src size elemSize blockSize)
      out) size elemSize blockSize p = byteOf src p := by
  have hparts := size_parts hblock size elemSize
  by_cases hwhole : p < size / blockSize * (blockSize * elemSize)
  · obtain ⟨b, hb, iter, hiter, rfl⟩ := exists_place (Nat.mul_comm (size / blockSize) _ ▸ hwhole)
    have hfit : (iter + 1) * (blockSize * elemSize) ≤ size / blockSize * (blockSize * elemSize) :=
      Nat.mul_le_mul_right _ hiter
    rw [Nat.succ_mul] at hfit
    rw [blockedTarget_block hiter hb, ← byteOf_drop]
    refine hundoes _ _ _ (fun b' hb' => ?_) b hb
    rw [byteOf_drop, byteOf_filled (by omega), blockedTarget_block hiter hb']
  · obtain ⟨b, rfl⟩ := Nat.exists_eq_add_of_le (Nat.le_of_not_lt hwhole)
    by_cases hlast : b < (size % blockSize - size % blockSize % 8) * elemSize
    · rw [blockedTarget_last hlast, ← byteOf_drop]
      refine hundoes _ _ _ (fun b' hb' => ?_) b hlast
      rw [byteOf_drop, byteOf_filled (by omega), blockedTarget_last hb']
    · obtain ⟨left, rfl⟩ := Nat.exists_eq_add_of_le (Nat.le_of_not_lt hlast)
      rw [← Nat.add_assoc, blockedTarget_leftover, byteOf_filled (by omega), blockedTarget_leftover]

theorem filled_byteOf {n : Nat} {whole : Nat → UInt8} (hsrc : src.length = n) (hout : out.length = n)
    (h : ∀ p < n, whole p = byteOf src p) : filled n whole out = src := by
  rw [filled_congr h]
  apply List.ext_getElem
  · rw [length_filled hout.ge, hout, hsrc]
  · intro i hi hi'
    rw [← List.getD_eq_getElem _ 0 hi, filled_getD (by omega), byteOf, List.getD_eq_getElem _ 0 hi']

end inverse

end TonCompress.Shuffle
