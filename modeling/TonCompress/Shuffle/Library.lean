import TonCompress.Shuffle.BlockRuns
import TonCompress.Shuffle.Recover
import TonCompress.Lzma.Capacity

/-! What callers of `bshuf_bitshuffle` and `bshuf_bitunshuffle` rely on. -/
namespace TonCompress.Shuffle
open TonCompress.Lib TonCompress.Lzma

section block
variable {src out : List UInt8} {size elemSize : Nat}

theorem bitsFrom_bitTransposed {e b : Nat} (he : e < size) (hb : b < 8 * elemSize) :
    bitsFrom (byteOf (filled (size * elemSize) (bitTransposed size elemSize src) out)) (b * size + e) =
      bitsFrom (byteOf src) (e * (8 * elemSize) + b) := by
  have hplace := place_lt he hb
  rw [Nat.mul_left_comm] at hplace
  rw [bitsFrom_filled hplace, bitTransposed, bitsFrom_packBits, transposed_apply _ he]

/-- A block of whole eights becomes the transposed matrix of its bits, in any build, if
there is the memory, and nothing behind it changes. A block that fails is not touched. -/
theorem transBitElem_transposes (build : Build) (mallocs : Mallocs) (iter : Nat)
    (hsrc : size * elemSize ≤ src.length) (hout : size * elemSize ≤ out.length) :
    ∃ code out', transBitElem build mallocs iter src out size elemSize = .ok (code, out') ∧
      (code = -80 ↔ size % 8 ≠ 0) ∧ (code < 0 → out' = out) ∧
      (0 ≤ code ↔ size % 8 = 0 ∧ ShuffleMemory build mallocs elemSize iter size) ∧
      (0 ≤ code → code = ((size * elemSize : Nat) : Int) ∧ out'.length = out.length ∧
        out'.drop (size * elemSize) = out.drop (size * elemSize) ∧
        ∀ e < size, ∀ b < 8 * elemSize, bitsFrom (byteOf out') (b * size + e) =
          bitsFrom (byteOf src) (e * (8 * elemSize) + b)) := by
  by_cases hsize : size % 8 = 0
  · have hworks := transBitElem_works build mallocs elemSize iter src out size hsize hsrc hout
    by_cases hmemory : ShuffleMemory build mallocs elemSize iter size
    · refine ⟨_, _, hworks.1 hmemory, ⟨fun h => by omega, fun h => absurd hsize h⟩,
        fun h => absurd h (processed_nonneg _), iff_of_true (Int.natCast_nonneg _) ⟨hsize, hmemory⟩,
        fun _ => ⟨rfl, length_filled hout, drop_filled, ?_⟩⟩
      exact fun e he b hb => bitsFrom_bitTransposed he hb
    · exact ⟨_, _, hworks.2 hmemory, ⟨fun h => by omega, fun h => absurd hsize h⟩, fun _ => rfl,
        iff_of_false (by decide) fun h => hmemory h.2, fun h => absurd h (by decide)⟩
  · refine ⟨-80, out, ?_, iff_of_true rfl hsize, fun _ => rfl, iff_of_false (by decide) fun h => hsize h.1,
      fun h => absurd h (by decide)⟩
    unfold transBitElem transBitElemSse transBitElemScal
    rw [if_pos hsize, if_pos hsize]
    exact ite_self _

def zeroedMallocs : Mallocs :=
  fun _ => (fun n => some (.replicate n 0), fun n => some (.replicate n 0))

/-- Eight bytes, into a buffer with room for one more. -/
theorem transBitElem_transposes_eight :
    ∃ out', transBitElem ⟨true, true⟩ zeroedMallocs 0 [0x4D, 0x90, 0x00, 0x03, 0xF1, 0x2C, 0xA5, 0x5E]
        (List.replicate 9 0) 8 1 = .ok (8, out') ∧
      ∀ e < 8, ∀ b < 8 * 1, bitsFrom (byteOf out') (b * 8 + e) =
        bitsFrom (byteOf [0x4D, 0x90, 0x00, 0x03, 0xF1, 0x2C, 0xA5, 0x5E]) (e * (8 * 1) + b) := by
  obtain ⟨code, out', hrun, -, -, hcode, hdone⟩ := @transBitElem_transposes
    [0x4D, 0x90, 0x00, 0x03, 0xF1, 0x2C, 0xA5, 0x5E] (List.replicate 9 0) 8 1 ⟨true, true⟩ zeroedMallocs 0
    (by decide) (by decide)
  obtain ⟨rfl, -, -, hbits⟩ := hdone (hcode.mpr ⟨rfl, ⟨_, rfl⟩, fun _ _ => ⟨_, rfl⟩⟩)
  exact ⟨out', hrun, hbits⟩

end block

section buffers
variable {src out out' : List UInt8} {size elemSize blockSize : Nat}

/-- A call that the code defines: the buffers hold the elements, and the default block
size is not asked for elements of no bytes. -/
structure Room (src out : List UInt8) (size elemSize blockSize : Nat) : Prop where
  src_le : size * elemSize ≤ src.length
  out_le : size * elemSize ≤ out.length
  default : blockSize = 0 → elemSize ≠ 0

instance : Decidable (Room src out size elemSize blockSize) :=
  decidable_of_iff (size * elemSize ≤ src.length ∧ size * elemSize ≤ out.length ∧
      (blockSize = 0 → elemSize ≠ 0))
    ⟨fun h => ⟨h.1, h.2.1, h.2.2⟩, fun h => ⟨h.src_le, h.out_le, h.default⟩⟩

/-- The ways a call can end: it refuses the block size, has not got the memory, or leaves
`bytes`. -/
inductive Outcome (n blockSize : Nat) (memory : Prop) (bytes : List UInt8) : Int × List UInt8 → Prop
  | refused (result : List UInt8) : blockSize % 8 ≠ 0 → Outcome n blockSize memory bytes (-81, result)
  | failed (result : List UInt8) : blockSize % 8 = 0 → ¬ memory →
      Outcome n blockSize memory bytes (-1, result)
  | done : blockSize % 8 = 0 → memory → Outcome n blockSize memory bytes ((n : Int), bytes)

theorem Outcome.eq_of_nonneg {n : Nat} {memory : Prop} {bytes : List UInt8} {result : Int × List UInt8}
    (h : Outcome n blockSize memory bytes result) (hcode : 0 ≤ result.1) :
    blockSize % 8 = 0 ∧ memory ∧ result = ((n : Int), bytes) := by
  cases h with
  | refused result _ => exact absurd hcode (show ¬ (0 : Int) ≤ -81 by decide)
  | failed result _ _ => exact absurd hcode (show ¬ (0 : Int) ≤ -1 by decide)
  | done hblock hmemory => exact ⟨hblock, hmemory, rfl⟩

theorem blocked_outcome {routine : BlockRoutine} {target : Nat → List UInt8 → Nat → UInt8}
    {memory : Nat → Nat → Prop} (hworks : Works routine elemSize target memory)
    (hroom : Room src out size elemSize blockSize) :
    Returns (bshufBlockedWrapFun routine src out size elemSize blockSize) fun result =>
      result.2.length = out.length ∧ Outcome (size * elemSize) blockSize
        (BlocksMemory memory size (usedBlockSize elemSize blockSize)) (filled (size * elemSize)
          (blockedTarget target src size elemSize (usedBlockSize elemSize blockSize)) out) result := by
  refine returns_iff.mpr ?_
  by_cases hblock : blockSize % 8 = 0
  · obtain ⟨hdone, hfailed⟩ :=
      bshufBlockedWrapFun_eq hworks hblock hroom.default hroom.src_le hroom.out_le
    by_cases hmemory : BlocksMemory memory size (usedBlockSize elemSize blockSize)
    · exact ⟨_, hdone hmemory, length_filled hroom.out_le, .done hblock hmemory⟩
    · obtain ⟨result, hstored, hrun⟩ := hfailed hmemory
      exact ⟨_, hrun, hstored.length_eq, .failed result hblock hmemory⟩
  · have hused : usedBlockSize elemSize blockSize = blockSize := if_neg (by omega)
    refine ⟨_, ?_, rfl, .refused out hblock⟩
    rw [bshufBlockedWrapFun_start hroom.default, hused, if_pos hblock]

def shuffledBytes (src out : List UInt8) (size elemSize blockSize : Nat) : List UInt8 :=
  filled (size * elemSize) (blockedTarget (fun size => bitTransposed size elemSize) src size elemSize
    (usedBlockSize elemSize blockSize)) out

theorem bshufBitshuffle_outcome (build : Build) (mallocs : Mallocs)
    (hroom : Room src out size elemSize blockSize) :
    Returns (bshufBitshuffle build mallocs src out size elemSize blockSize) fun result =>
      result.2.length = out.length ∧ Outcome (size * elemSize) blockSize
        (BlocksMemory (ShuffleMemory build mallocs elemSize) size (usedBlockSize elemSize blockSize))
        (shuffledBytes src out size elemSize blockSize) result :=
  blocked_outcome (transBitElem_works build mallocs elemSize) hroom

theorem shuffledBytes_length (hout : out.length = size * elemSize) :
    (shuffledBytes src out size elemSize blockSize).length = size * elemSize :=
  (length_filled hout.ge).trans hout

theorem shuffledBytes_undone (hblock : blockSize % 8 = 0) (hsrc : src.length = size * elemSize)
    (hout' : out'.length = size * elemSize) :
    filled (size * elemSize) (blockedTarget (fun size => bitUntransposed size elemSize)
      (shuffledBytes src out size elemSize blockSize) size elemSize
        (usedBlockSize elemSize blockSize)) out' = src :=
  have hmod : usedBlockSize elemSize blockSize % 8 = 0 := usedBlockSize_mod hblock
  filled_byteOf hsrc hout' fun _ hp => blockedTarget_undoes (bitUntransposed_undoes elemSize) hmod hp

theorem bshufBitunshuffle_outcome (build : Build) (mallocs : Mallocs) (hblock : blockSize % 8 = 0)
    (hdefault : blockSize = 0 → elemSize ≠ 0) (hsrc : src.length = size * elemSize)
    (hout : out.length = size * elemSize) (hout' : out'.length = size * elemSize) :
    Returns (bshufBitunshuffle build mallocs (shuffledBytes src out size elemSize blockSize) out'
        size elemSize blockSize)
      (Outcome (size * elemSize) blockSize (BlocksMemory (UnshuffleMemory mallocs elemSize) size
        (usedBlockSize elemSize blockSize)) src) := by
  have hroom : Room (shuffledBytes src out size elemSize blockSize) out' size elemSize blockSize :=
    ⟨(shuffledBytes_length hout).ge, hout'.ge, hdefault⟩
  have hcall := blocked_outcome (untransBitElem_works build mallocs elemSize) hroom
  rw [shuffledBytes_undone hblock hsrc hout'] at hcall
  exact hcall.mono (fun result h => h.2) fun _ => id

/-- Shuffling leaves the same bytes in every build, whatever the memory, unless it fails;
unshuffling in the same build or another then restores the elements, unless that fails. -/
theorem bshufBitunshuffle_bshufBitshuffle (src out out' : List.Vector UInt8 (size * elemSize))
    (hdefault : blockSize = 0 → elemSize ≠ 0) :
    ∃ bytes, ∀ build mallocs,
      Returns (bshufBitshuffle build mallocs src.toList out.toList size elemSize blockSize)
        fun shuffled =>
          Outcome (size * elemSize) blockSize (BlocksMemory (ShuffleMemory build mallocs elemSize) size
            (usedBlockSize elemSize blockSize)) bytes shuffled ∧
          (0 ≤ shuffled.1 → ∀ build' mallocs', Returns
            (bshufBitunshuffle build' mallocs' shuffled.2 out'.toList size elemSize blockSize)
            (Outcome (size * elemSize) blockSize (BlocksMemory (UnshuffleMemory mallocs' elemSize) size
              (usedBlockSize elemSize blockSize)) src.toList)) := by
  refine ⟨shuffledBytes src.toList out.toList size elemSize blockSize, fun build mallocs => ?_⟩
  refine (bshufBitshuffle_outcome build mallocs ⟨src.toList_length.ge, out.toList_length.ge,
    hdefault⟩).mono (fun shuffled h => ⟨h.2, fun hcode build' mallocs' => ?_⟩) fun _ => id
  obtain ⟨hblock, -, rfl⟩ := h.2.eq_of_nonneg hcode
  exact bshufBitunshuffle_outcome build' mallocs' hblock hdefault src.toList_length out.toList_length
    out'.toList_length

/-- Nine elements of three bytes, in the default blocks. -/
theorem bshufBitunshuffle_bshufBitshuffle_nine :
    ∃ bytes, ∀ build mallocs,
      Returns (bshufBitshuffle build mallocs (List.replicate 27 1) (List.replicate 27 0) 9 3 0)
        fun shuffled =>
          Outcome 27 0 (BlocksMemory (ShuffleMemory build mallocs 3) 9 2728) bytes shuffled ∧
          (0 ≤ shuffled.1 → ∀ build' mallocs', Returns
            (bshufBitunshuffle build' mallocs' shuffled.2 (List.replicate 27 0) 9 3 0)
            (Outcome 27 0 (BlocksMemory (UnshuffleMemory mallocs' 3) 9 2728) (List.replicate 27 1))) :=
  @bshufBitunshuffle_bshufBitshuffle 9 3 0 (.replicate 27 1) (.replicate 27 0) (.replicate 27 0)
    fun _ => by decide

end buffers

section container
variable (build build' : Build) (mallocs : Nat → Mallocs)

/-- The result of a call. What the code leaves undefined is taken for a failure. -/
def callResult (src out : List UInt8) (size elemSize blockSize : Nat)
    (run : BshufExec (Int × List UInt8)) : Int × List UInt8 :=
  if Room src out size elemSize blockSize then run.toOption.getD (-1, out) else (-1, out)

theorem callResult_length {src out : List UInt8} {size elemSize blockSize : Nat}
    {run : BshufExec (Int × List UInt8)} (h : Room src out size elemSize blockSize →
      Returns run fun result => result.2.length = out.length) :
    (callResult src out size elemSize blockSize run).2.length = out.length := by
  unfold callResult
  split
  · obtain ⟨result, hrun, hlength⟩ := returns_iff.mp (h ‹_›)
    rw [hrun]
    exact hlength
  · rfl

abbrev Granted := Nat → Nat → (n : Nat) → List.Vector UInt8 n

def grantedMallocs (granted : Granted) (elemSize : Nat) : Mallocs :=
  fun iter => (fun n => some (granted elemSize iter n), fun n => some (granted elemSize iter n))

/-- The library: `build` shuffles, with the memory of `mallocs` for an element size, and
`build'` unshuffles, where it has the memory. -/
def bshufLibrary (granted : Granted) : BitShuffle where
  bitshuffle src out size elemSize blockSize := callResult src out size elemSize blockSize
    (bshufBitshuffle build (mallocs elemSize) src out size elemSize blockSize)
  bitunshuffle src out size elemSize blockSize := callResult src out size elemSize blockSize
    (bshufBitunshuffle build' (grantedMallocs granted elemSize) src out size elemSize blockSize)
  bitshuffle_length _ _ _ elemSize _ := callResult_length fun hroom =>
    (blocked_outcome (transBitElem_works build (mallocs elemSize) elemSize) hroom).mono
      (fun _ h => h.1) fun _ => id
  bitunshuffle_length _ _ _ elemSize _ := callResult_length fun hroom =>
    (blocked_outcome (untransBitElem_works build' (grantedMallocs granted elemSize) elemSize) hroom).mono
      (fun _ h => h.1) fun _ => id

theorem granted_memory (granted : Granted) (elemSize size blockSize : Nat) :
    BlocksMemory (UnshuffleMemory (grantedMallocs granted elemSize) elemSize) size blockSize :=
  ⟨fun _ _ => ⟨_, rfl⟩, fun _ => ⟨_, rfl⟩⟩

theorem bshufLibrary_inverts (granted : Granted) :
    (bshufLibrary build build' mallocs granted).Inverts := by
  intro src out out' size elemSize hsrc hout hout' hret
  by_cases helem : elemSize = 0
  · have hfails : ¬ Room src out size elemSize 0 := fun hroom => hroom.default rfl helem
    have hcode : ((bshufLibrary build build' mallocs granted).bitshuffle src out size elemSize 0).1 =
        -1 := congrArg Prod.fst (if_neg hfails)
    omega
  · have hdefault : 0 = 0 → elemSize ≠ 0 := fun _ => helem
    obtain ⟨shuffled, hrun, -, houtcome⟩ := returns_iff.mp (bshufBitshuffle_outcome build
      (mallocs elemSize) ⟨hsrc.ge, (hout.trans hsrc).ge, hdefault⟩)
    have hshuffle : (bshufLibrary build build' mallocs granted).bitshuffle src out size elemSize 0 =
        shuffled := by
      refine (if_pos ⟨hsrc.ge, (hout.trans hsrc).ge, hdefault⟩).trans ?_
      rw [hrun]
      rfl
    rw [hshuffle] at hret ⊢
    obtain ⟨hblock, -, rfl⟩ := houtcome.eq_of_nonneg hret
    obtain ⟨result, hrun', houtcome'⟩ := returns_iff.mp (bshufBitunshuffle_outcome build'
      (grantedMallocs granted elemSize) hblock hdefault hsrc (hout.trans hsrc) (hout'.trans hsrc))
    have hroom : Room (shuffledBytes src out size elemSize 0) out' size elemSize 0 :=
      ⟨(shuffledBytes_length (hout.trans hsrc)).ge, (hout'.trans hsrc).ge, hdefault⟩
    refine (congrArg Prod.snd (if_pos hroom)).trans ?_
    rw [hrun']
    cases houtcome' with
    | refused _ hbad => exact absurd hblock hbad
    | failed _ _ hnone => exact absurd (granted_memory granted _ _ _) hnone
    | done _ _ => rfl

theorem shuffle_nonneg (granted : Granted) {payload : List UInt8} {es : Nat} (hes : 1 ≤ es)
    (hmemory : BlocksMemory (ShuffleMemory build (mallocs es) es) ((padded payload es).length / es)
      (usedBlockSize es 0)) :
    0 ≤ (shuffle (bshufLibrary build build' mallocs granted) payload es).1 := by
  have hcount : (padded payload es).length / es * es = (padded payload es).length :=
    Nat.div_mul_cancel (dvd_padded_length hes payload)
  have hroom : Room (padded payload es) (List.replicate (padded payload es).length 0)
      ((padded payload es).length / es) es 0 :=
    ⟨hcount.le, by rw [hcount, List.length_replicate], fun _ => Nat.ne_of_gt hes⟩
  obtain ⟨result, hrun, -, houtcome⟩ := returns_iff.mp (bshufBitshuffle_outcome build (mallocs es) hroom)
  have hshuffle : shuffle (bshufLibrary build build' mallocs granted) payload es = result := by
    refine (if_pos hroom).trans ?_
    rw [hrun]
    rfl
  rw [hshuffle]
  cases houtcome with
  | refused _ hbad => exact absurd (Nat.zero_mod 8) hbad
  | failed _ _ hnone => exact absurd hmemory hnone
  | done _ _ => exact Int.natCast_nonneg _

/-- Where one of its calls has the memory, the search returns the container of an element
size. If the padded payload is not longer than what the encoder always gets into its room,
or the header and the encoding of the shuffled bytes fit in what `lzma_compress` allots,
steps 1 to 4 of `decompress` recover the payload, in any build, just when it is not longer
than 2 MiB with its padding. -/
theorem unpack_search (granted : Granted) {payload : List UInt8} (heap : Heap)
    (hpayload : payload.length + 1024 < 2 ^ 64)
    (hmemory : ∃ es, (1 ≤ es ∧ es ≤ 1024) ∧ BlocksMemory (ShuffleMemory build (mallocs es) es)
      ((padded payload es).length / es) (usedBlockSize es 0)) :
    ∃ container es bytes,
      search (bshufLibrary build build' mallocs granted) payload heap = .ok container ∧
      (1 ≤ es ∧ es ≤ 1024) ∧
      IsEncoding (shuffle (bshufLibrary build build' mallocs granted) payload es).2 bytes ∧
      ((padded payload es).length ≤ keptLen ∨
          lzmaHeaderLen + bytes.length ≤ lzmaCompressCapacity (padded payload es).length →
        ∀ output : Allocated blockSizeMax,
          unpack (bshufLibrary build build' mallocs granted) container output = .ok (some payload) ↔
            payload.length + padding payload.length es ≤ blockSizeMax) := by
  obtain ⟨es₀, hes₀, hmemory⟩ := hmemory
  have hnonneg := shuffle_nonneg build build' mallocs granted hes₀.1 hmemory
  obtain ⟨container, hsearch⟩ := @search_ends _ payload heap hpayload es₀ hes₀ hnonneg
  obtain ⟨es, hes, compressed, hbuilt, rfl, -⟩ := search_eq hsearch
  have hlength := shuffle_length (bshufLibrary build build' mallocs granted) payload es
  have hpadded := padded_length payload es
  have hpadding := padding_lt hes.1 payload.length
  obtain ⟨bytes, hbytes⟩ := @exists_encoding
    (shuffle (bshufLibrary build build' mallocs granted) payload es).2 (by omega)
  refine ⟨_, es, bytes, hsearch, hes, hbytes, fun hroom output => ?_⟩
  refine unpack_container_iff (bshufLibrary_inverts build build' mallocs granted) hes hbuilt
    (fun hfits => ?_) output
  have hkept : Kept (shuffle (bshufLibrary build build' mallocs granted) payload es).2 := by
    rcases hroom with hshort | hroom
    · exact kept_of_length (hlength.trans_le hshort)
    · have hencode := hbytes (lzmaCompressCapacity (padded payload es).length - lzmaHeaderLen)
      rw [if_neg (by omega), List.take_of_length_le (by omega), ← hlength] at hencode
      exact kept_of_room (by omega) hencode
  intro input compressed' hrun output
  obtain ⟨compressed'', hrun', hback⟩ := hkept.recovered input
  obtain rfl := Except.ok.inj (hrun.symm.trans hrun')
  exact hback output

/-- Seventeen bytes: two blocks of eight, and one more. -/
def twoBlocks : List.Vector UInt8 17 :=
  ⟨[0x4D, 0x90, 0x00, 0x03, 0xF1, 0x2C, 0xA5, 0x5E, 0x11, 0x80, 0x7F, 0x3C, 0x01, 0xFE, 0x66, 0xB2,
    0xC9], rfl⟩

/-- A process with the vector instructions shuffles, another without them unshuffles. -/
def mixedLibrary : BitShuffle :=
  bshufLibrary ⟨true, true⟩ ⟨false, false⟩ (fun _ => zeroedMallocs) fun _ _ n => .replicate n 0

theorem unpack_search_twoBlocks :
    ∃ container, search mixedLibrary twoBlocks.toList zeroHeap = .ok container ∧
      ∀ output : Allocated blockSizeMax,
        unpack mixedLibrary container output = .ok (some twoBlocks.toList) := by
  have hmax : blockSizeMax = 2 ^ 21 := rfl
  have hkept : keptLen = 1813737 := rfl
  have hlength : twoBlocks.toList.length = 17 := rfl
  obtain ⟨container, es, bytes, hsearch, hes, -, hback⟩ := @unpack_search ⟨true, true⟩ ⟨false, false⟩
    (fun _ => zeroedMallocs) (fun _ _ n => .replicate n 0) twoBlocks.toList zeroHeap (by decide)
    ⟨1, by decide, fun _ _ => ⟨⟨_, rfl⟩, fun _ _ => ⟨_, rfl⟩⟩, fun _ => ⟨⟨_, rfl⟩, fun _ _ => ⟨_, rfl⟩⟩⟩
  have hpadded := padded_length twoBlocks.toList es
  have hpadding := padding_lt hes.1 twoBlocks.toList.length
  exact ⟨container, hsearch, fun output => (hback (.inl (by omega)) output).mpr (by omega)⟩

end container

end TonCompress.Shuffle
