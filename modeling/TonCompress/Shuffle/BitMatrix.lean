import TonCompress.Shuffle.Scalar

/-! What the scalar routines compute: the elements of a block are the rows of a matrix of
bits, and the output is the transposed matrix. -/
namespace TonCompress.Shuffle
open TonCompress.Lib

def byteOf (src : List UInt8) (i : Nat) : UInt8 := src.getD i 0

section words
variable {x : BitVec 64}

theorem transBit8x8_eq (x : BitVec 64) :
    transBit8x8 x = deltaSwap 0x00000000F0F0F0F0#64 28
      (deltaSwap 0x0000CCCC0000CCCC#64 14 (deltaSwap 0x00AA00AA00AA00AA#64 7 x)) := rfl

theorem transBit8x8BE_eq (x : BitVec 64) :
    transBit8x8BE x = deltaSwap 0x000000000F0F0F0F#64 36
      (deltaSwap 0x0000333300003333#64 18 (deltaSwap 0x0055005500550055#64 9 x)) := rfl

theorem swapSource_trans : ∀ i < 8, ∀ j < 8,
    swapSource 0x00AA00AA00AA00AA#64 7 (swapSource 0x0000CCCC0000CCCC#64 14
      (swapSource 0x00000000F0F0F0F0#64 28 (8 * i + j))) = 8 * j + i := by
  decide +kernel

theorem swapSource_transBE : ∀ i < 8, ∀ j < 8,
    swapSource 0x0055005500550055#64 9 (swapSource 0x0000333300003333#64 18
      (swapSource 0x000000000F0F0F0F#64 36 (8 * i + j))) = 8 * (7 - j) + (7 - i) := by
  decide +kernel

theorem swapSource_lt {mask : BitVec 64} {s i : Nat} (h : SwapMask mask s) (hi : i < 64) :
    swapSource mask s i < 64 := by
  unfold swapSource
  split
  · exact (h i hi ‹_›).1
  · split <;> omega

/-- Bit `j` of byte `i` comes from bit `i` of byte `j`. -/
theorem getLsbD_transBit8x8 (x : BitVec 64) {i j : Nat} (hi : i < 8) (hj : j < 8) :
    (transBit8x8 x).getLsbD (8 * i + j) = x.getLsbD (8 * j + i) := by
  have h7 : SwapMask 0x00AA00AA00AA00AA#64 7 := by decide +kernel
  have h14 : SwapMask 0x0000CCCC0000CCCC#64 14 := by decide +kernel
  have h28 : SwapMask 0x00000000F0F0F0F0#64 28 := by decide +kernel
  have hlt : 8 * i + j < 64 := by omega
  have hlt' := swapSource_lt h28 hlt
  rw [transBit8x8_eq, getLsbD_deltaSwap h28 _ hlt, getLsbD_deltaSwap h14 _ hlt',
    getLsbD_deltaSwap h7 _ (swapSource_lt h14 hlt'), swapSource_trans i hi j hj]

theorem getLsbD_transBit8x8BE (x : BitVec 64) {i j : Nat} (hi : i < 8) (hj : j < 8) :
    (transBit8x8BE x).getLsbD (8 * i + j) = x.getLsbD (8 * (7 - j) + (7 - i)) := by
  have h9 : SwapMask 0x0055005500550055#64 9 := by decide +kernel
  have h18 : SwapMask 0x0000333300003333#64 18 := by decide +kernel
  have h36 : SwapMask 0x000000000F0F0F0F#64 36 := by decide +kernel
  have hlt : 8 * i + j < 64 := by omega
  have hlt' := swapSource_lt h36 hlt
  rw [transBit8x8BE_eq, getLsbD_deltaSwap h36 _ hlt, getLsbD_deltaSwap h18 _ hlt',
    getLsbD_deltaSwap h9 _ (swapSource_lt h18 hlt'), swapSource_transBE i hi j hj]

theorem getLsbD_wordOf {bytes : List UInt8} {i j : Nat} (hi : i < bytes.length) (hj : j < 8)
    (hfit : 8 * i + j < 64) : (wordOf bytes).getLsbD (8 * i + j) = (byteOf bytes i).toNat.testBit j := by
  induction bytes generalizing i with
  | nil => exact absurd hi (Nat.not_lt_zero i)
  | cons byte bytes ih =>
    have hstep : wordOf (byte :: bytes) = (wordOf bytes <<< 8) ||| byte.toBitVec.setWidth 64 := rfl
    rw [hstep, BitVec.getLsbD_or, BitVec.getLsbD_shiftLeft, BitVec.getLsbD_setWidth,
      decide_eq_true hfit]
    cases i with
    | zero =>
      rw [Nat.mul_zero, Nat.zero_add, decide_eq_true hj]
      simp [byteOf, BitVec.getLsbD]
    | succ i =>
      have hover : ¬ 8 * (i + 1) + j < 8 := by omega
      have hhigh : byte.toBitVec.getLsbD (8 * (i + 1) + j) = false :=
        BitVec.getLsbD_of_ge _ _ (by omega)
      rw [decide_eq_false hover, hhigh, show 8 * (i + 1) + j - 8 = 8 * i + j by omega,
        ih (Nat.lt_of_succ_lt_succ hi) (by omega)]
      simp [byteOf]

def byteAtRound (x : BitVec 64) (kk : Nat) : UInt8 := UInt8.ofBitVec ((x >>> (8 * kk)).setWidth 8)

theorem testBit_byteAtRound (x : BitVec 64) (kk : Nat) {j : Nat} (hj : j < 8) :
    (byteAtRound x kk).toNat.testBit j = x.getLsbD (8 * kk + j) := by
  have hbits : (byteAtRound x kk).toNat.testBit j =
      ((x >>> (8 * kk)).setWidth 8).getLsbD j := rfl
  rw [hbits, BitVec.getLsbD_setWidth, decide_eq_true hj, Bool.true_and, BitVec.getLsbD_ushiftRight]

theorem scatterWord_eq (index : Nat → Int) (x : BitVec 64) (out : List UInt8) :
    scatterWord index x out = forRange 0 8 out fun kk out =>
      vecSet .output out (index kk) (byteAtRound x kk) := by
  have hshift : ∀ kk, (fun x : BitVec 64 => x >>> 8)^[kk] x = x >>> (8 * kk) := by
    intro kk
    induction kk with
    | zero => rw [Function.iterate_zero, id, Nat.mul_zero, BitVec.ushiftRight_zero]
    | succ kk ih =>
      rw [Function.iterate_succ_apply', ih, ← BitVec.shiftRight_add]
      rfl
  refine (forRange_iterate (fun x : BitVec 64 => x >>> 8) (fun kk x out =>
    vecSet Buffer.output out (index kk) (UInt8.ofBitVec (x.setWidth 8))) x (Nat.zero_le 8) out).trans ?_
  congr 1
  funext kk out
  rw [hshift, byteAtRound]

theorem transWord_fills {littleEndian : Bool} {src : List UInt8} {n source : Nat}
    {target : Nat → UInt8} {index : Nat → Int} {place : Nat → Nat} (hsource : source + 8 ≤ src.length)
    (hindex : ∀ kk < 8, index kk = (place (if littleEndian then kk else 7 - kk) : Nat))
    (hplace : ∀ row < 8, place row < n)
    (htarget : ∀ row < 8, ∀ m < 8, (target (place row)).toNat.testBit m =
      (byteOf src (source + m)).toNat.testBit row) :
    Fills n target {p | ∃ row < 8, p = place row} (transWord littleEndian src source index) := by
  have hlength : ((src.drop source).take 8).length = 8 := by
    rw [List.length_take, List.length_drop]
    omega
  have hbyte : ∀ m < 8, byteOf ((src.drop source).take 8) m = byteOf src (source + m) := by
    intro m hm
    rw [byteOf, byteOf, List.getD_eq_getElem?_getD, List.getD_eq_getElem?_getD,
      List.getElem?_take_of_lt hm, List.getElem?_drop]
  have hload : loadWord littleEndian src source = .ok (wordOf (if littleEndian then
      (src.drop source).take 8 else ((src.drop source).take 8).reverse)) := if_pos hsource
  -- which row the byte of round `kk` is
  have hround : ∀ kk < 8, target (place (if littleEndian then kk else 7 - kk)) = byteAtRound
      (if littleEndian then transBit8x8 (wordOf (if littleEndian then (src.drop source).take 8
          else ((src.drop source).take 8).reverse))
        else transBit8x8BE (wordOf (if littleEndian then (src.drop source).take 8
          else ((src.drop source).take 8).reverse))) kk := by
    intro kk hkk
    apply byte_ext
    intro m hm
    rw [testBit_byteAtRound _ _ hm]
    cases littleEndian with
    | true =>
      rw [if_pos rfl, if_pos rfl, if_pos rfl, htarget kk hkk m hm, getLsbD_transBit8x8 _ hkk hm,
        getLsbD_wordOf (by omega) hkk (by omega), hbyte m hm]
    | false =>
      have hrev : byteOf ((src.drop source).take 8).reverse (7 - m) = byteOf src (source + m) := by
        rw [← hbyte m hm, byteOf, byteOf, List.getD_eq_getElem?_getD, List.getD_eq_getElem?_getD,
          List.getElem?_reverse (by omega)]
        congr 2
        omega
      rw [if_neg Bool.false_ne_true, if_neg Bool.false_ne_true, if_neg Bool.false_ne_true,
        htarget (7 - kk) (by omega) m hm, getLsbD_transBit8x8BE _ hkk hm,
        getLsbD_wordOf (by rw [List.length_reverse]; omega) (by omega) (by omega), hrev]
  have hfills : Fills n target {p | ∃ kk, 0 ≤ kk ∧ kk < 8 ∧
      p ∈ ({place (if littleEndian then kk else 7 - kk)} : Set Nat)}
      (transWord littleEndian src source index) := by
    intro out hout
    unfold transWord
    rw [hload, ok_bind, scatterWord_eq]
    refine fills_forRange (fun kk _ hkk => ?_) out hout
    rw [hindex kk hkk]
    refine fills_vecSet Buffer.output ?_ (hround kk hkk).symm
    split
    · exact hplace kk hkk
    · exact hplace (7 - kk) (by omega)
  refine hfills.mono ?_
  rintro p ⟨row, hrow, rfl⟩
  refine ⟨if littleEndian then row else 7 - row, Nat.zero_le _, by split <;> omega, ?_⟩
  cases littleEndian with
  | true => rfl
  | false =>
    rw [Set.mem_singleton_iff, if_neg Bool.false_ne_true, if_neg Bool.false_ne_true]
    congr 1
    omega

end words

section routines

/-- The routine processes `n` bytes: it stores `target` at `places`. -/
def Processes (n : Nat) (target : Nat → UInt8) (places : Set Nat)
    (routine : List UInt8 → BshufExec (Int × List UInt8)) : Prop :=
  ∃ fill, Fills n target places fill ∧
    ∀ out, routine out = fill out >>= fun out => .ok ((n : Int), out)

variable {n : Nat} {target : Nat → UInt8} {places : Set Nat}
variable {routine : List UInt8 → BshufExec (Int × List UInt8)}
variable {src : List UInt8} {size elemSize : Nat}

theorem Processes.all (h : Processes n target places routine) (hplaces : ∀ i < n, i ∈ places)
    {out : List UInt8} (hout : n ≤ out.length) :
    routine out = .ok ((n : Int), filled n target out) := by
  obtain ⟨fill, hfill, hrun⟩ := h
  rw [hrun, hfill.all hplaces hout]
  rfl

theorem moveByte_fills {place source : Nat} (hplace : place < n) (hsource : source < src.length)
    (htarget : target place = byteOf src source) :
    Fills n target {place} (moveByte src place source) := by
  intro out hout
  unfold moveByte
  rw [vecGet_natCast _ _ _ hsource, ok_bind]
  refine fills_vecSet Buffer.output hplace ?_ out hout
  rw [htarget, byteOf, List.getD_eq_getElem _ _ hsource]

theorem memcpy_fills {place source count : Nat} (hplace : place + count ≤ n)
    (hsource : source + count ≤ src.length)
    (htarget : ∀ b < count, target (place + b) = byteOf src (source + b)) :
    Fills n target {p | ∃ b < count, p = place + b} (memcpy src place source count) := by
  refine (fills_forRange fun b _ hb =>
    moveByte_fills (by omega) (by omega) (htarget b hb)).mono ?_
  rintro p ⟨b, hb, hp⟩
  exact ⟨b, Nat.zero_le _, hb, hp⟩

theorem bshufCopy_processes (hsrc : size * elemSize ≤ src.length) :
    Processes (size * elemSize) (byteOf src) {p | p < size * elemSize}
      fun out => bshufCopy src out size elemSize := by
  refine ⟨memcpy src 0 0 (size * elemSize), ?_, fun out => ?_⟩
  · refine (memcpy_fills (by omega) (by omega) fun b _ => rfl).mono ?_
    intro p hp
    exact ⟨p, hp, (Nat.zero_add p).symm⟩
  · unfold bshufCopy
    rw [Int.natCast_mul]
    rfl

theorem elem_index_lt {ii jj : Nat} (hii : ii < size) (hjj : jj < elemSize) :
    ii * elemSize + jj < size * elemSize :=
  Nat.mul_comm elemSize size ▸ place_lt hjj hii

theorem transByteElemRemainder_processes {start : Nat} (hstart : start % 8 = 0)
    (hsrc : size * elemSize ≤ src.length) :
    Processes (size * elemSize) (transposed size elemSize (byteOf src))
      {p | ∃ ii < size, start ≤ ii ∧ ∃ jj < elemSize, p = jj * size + ii}
      fun out => transByteElemRemainder src out size elemSize start := by
  have hmove : ∀ ii < size, ∀ jj < elemSize,
      Fills (size * elemSize) (transposed size elemSize (byteOf src)) {jj * size + ii}
        (moveByte src (jj * size + ii) (ii * elemSize + jj)) := by
    intro ii hii jj hjj
    have hindex := elem_index_lt hii hjj
    exact moveByte_fills (place_lt hii hjj) (by omega) (transposed_apply _ hii)
  unfold transByteElemRemainder
  by_cases hlt : size > start
  · have heights : Fills (size * elemSize) (transposed size elemSize (byteOf src))
        {p | ∃ k < (size - start) / 8, ∃ jj, 0 ≤ jj ∧ jj < elemSize ∧
          ∃ kk, 0 ≤ kk ∧ kk < 8 ∧ p = jj * size + (start + k * 8 + kk)}
        fun out => forStep 8 start size out fun ii out =>
          forRange 0 elemSize out fun jj out =>
            forRange 0 8 out fun kk =>
              moveByte src (jj * size + ii + kk) (ii * elemSize + kk * elemSize + jj) := by
      refine fills_forStep fun k hk => fills_forRange fun jj _ hjj => fills_forRange fun kk _ hkk => ?_
      rw [Nat.add_assoc (jj * size), ← Nat.add_mul]
      exact hmove _ (by omega) _ hjj
    have hrest : Fills (size * elemSize) (transposed size elemSize (byteOf src))
        {p | ∃ ii, size - size % 8 ≤ ii ∧ ii < size ∧ ∃ jj, 0 ≤ jj ∧ jj < elemSize ∧
          p = jj * size + ii}
        fun out => forRange (size - size % 8) size out fun ii out =>
          forRange 0 elemSize out fun jj => moveByte src (jj * size + ii) (ii * elemSize + jj) :=
      fills_forRange fun ii _ hii => fills_forRange fun jj _ hjj => hmove ii hii jj hjj
    refine ⟨_, (heights.bind hrest).mono ?_, fun out => ?_⟩
    · rintro p ⟨ii, hii, hle, jj, hjj, rfl⟩
      by_cases hblock : ii < size - size % 8
      · refine .inl ⟨(ii - start) / 8, by omega, jj, Nat.zero_le _, hjj, (ii - start) % 8,
          Nat.zero_le _, by omega, ?_⟩
        rw [Nat.add_assoc start, Nat.div_add_mod', Nat.add_sub_cancel' hle]
      · exact .inr ⟨ii, by omega, hii, jj, Nat.zero_le _, hjj, rfl⟩
    · beta_reduce
      rw [if_neg (not_not.mpr hstart), if_pos hlt, bind_assoc, Int.natCast_mul]
      rfl
  · refine ⟨.ok, fills_ok.mono ?_, fun out => ?_⟩
    · rintro p ⟨ii, hii, hle, -⟩
      omega
    · beta_reduce
      rw [if_neg (not_not.mpr hstart), if_neg hlt, ok_bind, Int.natCast_mul]
      rfl

theorem rowIndex_eq (littleEndian : Bool) (skip base : Nat) {kk : Nat} (hkk : kk < 8) :
    (if littleEndian then (0 : Int) else 7 * skip) +
        kk * (if littleEndian then (skip : Int) else -skip) + base =
      ((if littleEndian then kk else 7 - kk) * skip + base : Nat) := by
  cases littleEndian with
  | true => simp
  | false =>
    obtain ⟨row, hrow⟩ : ∃ row, 7 = row + kk := ⟨7 - kk, by omega⟩
    rw [if_neg Bool.false_ne_true, if_neg Bool.false_ne_true, if_neg Bool.false_ne_true,
      show 7 - kk = row by omega, show (7 : Int) = row + kk by omega]
    push_cast
    ring

theorem testBit_row {nbyteBitrow ii row m : Nat} (hii : ii < nbyteBitrow) (hrow : row < 8)
    (hm : m < 8) :
    (packBits (transposed (8 * nbyteBitrow) 8 (bitsFrom (byteOf src)))
      (row * nbyteBitrow + ii)).toNat.testBit m = (byteOf src (8 * ii + m)).toNat.testBit row := by
  rw [← @bitsFrom_apply _ _ m hm, bitsFrom_packBits, ← @bitsFrom_apply _ _ row hrow,
    show 8 * (row * nbyteBitrow + ii) + m = row * (8 * nbyteBitrow) + (8 * ii + m) by ring,
    transposed_apply _ (by omega)]
  congr 1
  ring

theorem transWord_row_fills {littleEndian : Bool} {nbyteBitrow ii : Nat}
    (hsrc : 8 * nbyteBitrow ≤ src.length) (hii : ii < nbyteBitrow) :
    Fills (8 * nbyteBitrow) (packBits (transposed (8 * nbyteBitrow) 8 (bitsFrom (byteOf src))))
      {p | ∃ row < 8, p = row * nbyteBitrow + ii}
      (transWord littleEndian src (8 * ii) fun kk =>
        (if littleEndian then (0 : Int) else 7 * nbyteBitrow) +
          kk * (if littleEndian then (nbyteBitrow : Int) else -nbyteBitrow) + ii) := by
  refine transWord_fills (by omega) (fun kk hkk => rowIndex_eq _ _ _ hkk) (fun row hrow => ?_) ?_
  · exact Nat.mul_comm nbyteBitrow 8 ▸ place_lt hii hrow
  · exact fun row hrow m hm => testBit_row hii hrow hm

theorem transBitByteRemainder_processes {littleEndian : Bool} {startByte : Nat}
    (hbytes : size * elemSize % 8 = 0) (hstart : startByte % 8 = 0)
    (hsrc : size * elemSize ≤ src.length) :
    Processes (size * elemSize)
      (packBits (transposed (size * elemSize) 8 (bitsFrom (byteOf src))))
      {p | ∃ ii < size * elemSize / 8, startByte / 8 ≤ ii ∧ ∃ row < 8,
        p = row * (size * elemSize / 8) + ii}
      fun out => transBitByteRemainder littleEndian src out size elemSize startByte := by
  unfold transBitByteRemainder
  rw [Nat.mul_comm elemSize size, ← Int.natCast_mul]
  generalize size * elemSize = nbyte at hbytes hsrc ⊢
  obtain ⟨nbyteBitrow, rfl⟩ : ∃ nbyteBitrow, nbyte = 8 * nbyteBitrow := ⟨nbyte / 8, by omega⟩
  rw [Nat.mul_div_cancel_left _ (by decide)]
  dsimp only
  refine ⟨fun out => forRange (startByte / 8) nbyteBitrow out fun ii =>
    transWord littleEndian src (8 * ii) fun kk =>
      (if littleEndian then (0 : Int) else 7 * nbyteBitrow) +
        kk * (if littleEndian then (nbyteBitrow : Int) else -nbyteBitrow) + ii, ?_, fun out => ?_⟩
  · refine (fills_forRange fun ii _ hii => transWord_row_fills hsrc hii).mono ?_
    rintro p ⟨ii, hii, hle, row, hrow, rfl⟩
    exact ⟨ii, hle, hii, row, hrow, rfl⟩
  · beta_reduce
    rw [if_neg (not_not.mpr hbytes), if_neg (not_not.mpr hstart), Nat.mul_div_cancel_left _ (by decide)]
    rfl

theorem block_fills {lda ldb width ii jj : Nat} (hsrc : lda * ldb * width ≤ src.length)
    (hii : ii < lda) (hjj : jj < ldb) :
    Fills (lda * ldb * width) (transposedBlocks lda ldb width (byteOf src))
      {p | ∃ b < width, p = (jj * lda + ii) * width + b}
      (memcpy src ((jj * lda + ii) * width) ((ii * ldb + jj) * width) width) := by
  have hplace : (jj * lda + ii + 1) * width ≤ lda * ldb * width :=
    Nat.mul_le_mul_right _ (place_lt hii hjj)
  have hsource : (ii * ldb + jj + 1) * width ≤ lda * ldb * width :=
    Nat.mul_le_mul_right _ (elem_index_lt hii hjj)
  rw [Nat.succ_mul] at hplace hsource
  exact memcpy_fills hplace (hsource.trans hsrc) fun b hb => transposedBlocks_apply _ hii hb

theorem transElem_processes {lda ldb : Nat} (hsrc : lda * ldb * elemSize ≤ src.length) :
    Processes (lda * ldb * elemSize) (transposedBlocks lda ldb elemSize (byteOf src))
      {p | p < lda * ldb * elemSize} fun out => transElem src out lda ldb elemSize := by
  refine ⟨fun out => forRange 0 lda out fun ii out => forRange 0 ldb out fun jj =>
    memcpy src ((jj * lda + ii) * elemSize) ((ii * ldb + jj) * elemSize) elemSize, ?_, fun out => ?_⟩
  · have hloop : Fills (lda * ldb * elemSize) (transposedBlocks lda ldb elemSize (byteOf src))
        {p | ∃ ii, 0 ≤ ii ∧ ii < lda ∧ ∃ jj, 0 ≤ jj ∧ jj < ldb ∧
          ∃ b < elemSize, p = (jj * lda + ii) * elemSize + b}
        fun out => forRange 0 lda out fun ii out => forRange 0 ldb out fun jj =>
          memcpy src ((jj * lda + ii) * elemSize) ((ii * ldb + jj) * elemSize) elemSize :=
      fills_forRange fun ii _ hii => fills_forRange fun jj _ hjj => block_fills hsrc hii hjj
    refine hloop.mono fun p hp => ?_
    obtain ⟨b, hb, block, hblock, rfl⟩ := exists_place (Nat.mul_comm (lda * ldb) elemSize ▸ hp)
    obtain ⟨ii, hii, jj, hjj, rfl⟩ := exists_place hblock
    exact ⟨ii, Nat.zero_le _, hii, jj, Nat.zero_le _, hjj, b, hb, rfl⟩
  · unfold transElem
    rw [Int.natCast_mul, Int.natCast_mul]
    rfl

theorem transByteBitrowScal_processes (hsize : size % 8 = 0) (hsrc : size * elemSize ≤ src.length) :
    Processes (size * elemSize) (transposed (8 * elemSize) (size / 8) (byteOf src))
      {p | p < size * elemSize} fun out => transByteBitrowScal src out size elemSize := by
  obtain ⟨nbyteRow, rfl⟩ : ∃ nbyteRow, size = 8 * nbyteRow := ⟨size / 8, by omega⟩
  have hcount : 8 * nbyteRow * elemSize = 8 * elemSize * nbyteRow := by ring
  rw [hcount] at hsrc ⊢
  rw [Nat.mul_div_cancel_left _ (by decide)]
  have hmove : ∀ row < 8 * elemSize, ∀ ii < nbyteRow,
      Fills (8 * elemSize * nbyteRow) (transposed (8 * elemSize) nbyteRow (byteOf src))
        {ii * (8 * elemSize) + row} (moveByte src (ii * (8 * elemSize) + row) (row * nbyteRow + ii)) := by
    intro row hrow ii hii
    have hindex := elem_index_lt hrow hii
    exact moveByte_fills (place_lt hrow hii) (by omega) (transposed_apply _ hrow)
  refine ⟨fun out => forRange 0 elemSize out fun jj out => forRange 0 nbyteRow out fun ii out =>
    forRange 0 8 out fun kk =>
      moveByte src (ii * 8 * elemSize + jj * 8 + kk) ((jj * 8 + kk) * nbyteRow + ii), ?_, fun out => ?_⟩
  · have hloop : Fills (8 * elemSize * nbyteRow) (transposed (8 * elemSize) nbyteRow (byteOf src))
        {p | ∃ jj, 0 ≤ jj ∧ jj < elemSize ∧ ∃ ii, 0 ≤ ii ∧ ii < nbyteRow ∧
          ∃ kk, 0 ≤ kk ∧ kk < 8 ∧ p = ii * (8 * elemSize) + (jj * 8 + kk)}
        fun out => forRange 0 elemSize out fun jj out => forRange 0 nbyteRow out fun ii out =>
          forRange 0 8 out fun kk =>
            moveByte src (ii * 8 * elemSize + jj * 8 + kk) ((jj * 8 + kk) * nbyteRow + ii) := by
      refine fills_forRange fun jj _ hjj => fills_forRange fun ii _ hii => fills_forRange fun kk _ hkk => ?_
      rw [Nat.mul_assoc ii, Nat.add_assoc]
      exact hmove _ (by omega) _ hii
    refine hloop.mono fun p hp => ?_
    obtain ⟨row, hrow, ii, hii, rfl⟩ := exists_place hp
    exact ⟨row / 8, Nat.zero_le _, by omega, ii, Nat.zero_le _, hii, row % 8, Nat.zero_le _,
      Nat.mod_lt _ (by decide), by rw [Nat.div_add_mod']⟩
  · unfold transByteBitrowScal
    dsimp only
    rw [if_neg (not_not.mpr hsize), Nat.mul_div_cancel_left _ (by decide), ← Int.natCast_mul, hcount]
    rfl

theorem testBit_eights {ii jj row m : Nat} (hjj : jj < elemSize) (hrow : row < 8) (hm : m < 8) :
    (packBits (transposedEach (8 * elemSize) 8 (bitsFrom (byteOf src)))
      (ii * (8 * elemSize) + jj + row * elemSize)).toNat.testBit m =
        (byteOf src (ii * (8 * elemSize) + jj * 8 + m)).toNat.testBit row := by
  rw [← @bitsFrom_apply _ _ m hm, bitsFrom_packBits, ← @bitsFrom_apply _ _ row hrow,
    show 8 * (ii * (8 * elemSize) + jj + row * elemSize) + m =
      ii * (8 * elemSize * 8) + (row * (8 * elemSize) + (8 * jj + m)) by ring,
    transposedEach_apply _ (by omega) hrow]
  congr 1
  ring

theorem shuffleBitEightelemScal_processes {littleEndian : Bool} (hsize : size % 8 = 0)
    (hsrc : size * elemSize ≤ src.length) :
    Processes (size * elemSize) (packBits (transposedEach (8 * elemSize) 8 (bitsFrom (byteOf src))))
      {p | p < size * elemSize} fun out => shuffleBitEightelemScal littleEndian src out size elemSize := by
  obtain ⟨nblocks, rfl⟩ : ∃ nblocks, size = 8 * nblocks := ⟨size / 8, by omega⟩
  have hcount : 8 * nblocks * elemSize = nblocks * (8 * elemSize) := by ring
  rw [hcount] at hsrc ⊢
  have hword : ∀ jj < elemSize, ∀ ii < nblocks, Fills (nblocks * (8 * elemSize))
      (packBits (transposedEach (8 * elemSize) 8 (bitsFrom (byteOf src))))
      {p | ∃ row < 8, p = ii * (8 * elemSize) + jj + row * elemSize}
      (transWord littleEndian src (ii * (8 * elemSize) + jj * 8) fun kk =>
        (ii * (8 * elemSize) + jj * 8 / 8 : Nat) + (if littleEndian then (0 : Int) else 7 * elemSize) +
          kk * (if littleEndian then (elemSize : Int) else -elemSize)) := by
    intro jj hjj ii hii
    have hblock : (ii + 1) * (8 * elemSize) ≤ nblocks * (8 * elemSize) := Nat.mul_le_mul_right _ hii
    rw [Nat.succ_mul] at hblock
    refine transWord_fills (by omega) (fun kk hkk => ?_) (fun row hrow => ?_) ?_
    · rw [Int.add_assoc, Int.add_comm, rowIndex_eq _ _ _ hkk, Nat.mul_div_cancel _ (by decide),
        Nat.add_comm]
    · have hrow := elem_index_lt hrow hjj
      omega
    · exact fun row hrow m hm => testBit_eights hjj hrow hm
  have hloop : Fills (nblocks * (8 * elemSize))
      (packBits (transposedEach (8 * elemSize) 8 (bitsFrom (byteOf src))))
      {p | ∃ jj < elemSize, ∃ ii < nblocks, ∃ row < 8, p = ii * (8 * elemSize) + jj + row * elemSize}
      fun out => forStep 8 0 (8 * elemSize) out fun jj out =>
        forStep (8 * elemSize) 0 (nblocks * (8 * elemSize)) out fun ii =>
          transWord littleEndian src (ii + jj) fun kk =>
            (ii + jj / 8 : Nat) + (if littleEndian then (0 : Int) else 7 * elemSize) +
              kk * (if littleEndian then (elemSize : Int) else -elemSize) := by
    rw [Nat.mul_comm 8 elemSize]
    refine fills_forStep_mul (by decide) fun jj hjj => ?_
    rw [Nat.mul_comm elemSize 8]
    exact fills_forStep_mul (by omega) fun ii hii => hword jj hjj ii hii
  refine ⟨_, hloop.mono fun p hp => ?_, fun out => ?_⟩
  · obtain ⟨rest, hrest, ii, hii, rfl⟩ := exists_place (Nat.mul_comm nblocks _ ▸ hp)
    obtain ⟨jj, hjj, row, hrow, rfl⟩ := exists_place (Nat.mul_comm 8 elemSize ▸ hrest)
    exact ⟨jj, hjj, ii, hii, row, hrow, by ring⟩
  · unfold shuffleBitEightelemScal
    dsimp only
    rw [if_neg (not_not.mpr hsize), Nat.mul_comm elemSize, ← Int.natCast_mul, hcount]
    rfl

end routines

section elements
variable {src out : List UInt8} {size elemSize : Nat}

/-- The bytes whose bits are the transposed matrix of the bits of `size` elements. -/
def bitTransposed (size elemSize : Nat) (src : List UInt8) : Nat → UInt8 :=
  packBits (transposed size (8 * elemSize) (bitsFrom (byteOf src)))

/-- The bytes of `size` elements, from the rows of their bits. -/
def bitUntransposed (size elemSize : Nat) (src : List UInt8) : Nat → UInt8 :=
  packBits (transposed (8 * elemSize) size (bitsFrom (byteOf src)))

theorem byteOf_filled {n i : Nat} {target : Nat → UInt8} (hi : i < n) :
    byteOf (filled n target out) i = target i :=
  filled_getD hi 0

theorem bitsFrom_filled {n k : Nat} {target : Nat → UInt8} (hk : k < 8 * n) :
    bitsFrom (byteOf (filled n target out)) k = bitsFrom target k := by
  rw [bitsFrom, bitsFrom, byteOf_filled (by omega)]

theorem eq_bitTransposed {f : Nat → UInt8}
    (h : ∀ e < size, ∀ jj < elemSize, ∀ kk < 8,
      bitsFrom f ((8 * jj + kk) * size + e) =
        bitsFrom (byteOf src) (e * (8 * elemSize) + (8 * jj + kk))) :
    ∀ i < size * elemSize, f i = bitTransposed size elemSize src i := by
  intro i hi
  refine @eq_of_bitsFrom _ _ (size * elemSize) i (fun k hk => ?_) hi
  obtain ⟨e, he, b, hb, rfl⟩ : ∃ e < size, ∃ b < 8 * elemSize, k = b * size + e := by
    apply exists_place
    rwa [Nat.mul_left_comm]
  rw [bitTransposed, bitsFrom_packBits, transposed_apply _ he]
  have hstep := h e he (b / 8) (by omega) (b % 8) (Nat.mod_lt b (by decide))
  rwa [Nat.div_add_mod] at hstep

theorem eq_bitUntransposed {f : Nat → UInt8}
    (h : ∀ e < size, ∀ b < 8 * elemSize,
      bitsFrom f (e * (8 * elemSize) + b) = bitsFrom (byteOf src) (b * size + e)) :
    ∀ i < size * elemSize, f i = bitUntransposed size elemSize src i := by
  intro i hi
  refine @eq_of_bitsFrom _ _ (size * elemSize) i (fun k hk => ?_) hi
  obtain ⟨b, hb, e, he, rfl⟩ : ∃ b < 8 * elemSize, ∃ e < size, k = e * (8 * elemSize) + b := by
    apply exists_place
    rw [Nat.mul_assoc, Nat.mul_comm elemSize]
    exact hk
  rw [bitUntransposed, bitsFrom_packBits, transposed_apply _ hb]
  exact h e he b hb

theorem transBitrows_eq {tmp : List UInt8} (hsize : size % 8 = 0) :
    ∀ i < size * elemSize,
      transposedBlocks 8 elemSize (size / 8) (byteOf (filled (size * elemSize)
          (packBits (transposed (size * elemSize) 8 (bitsFrom (byteOf (filled (size * elemSize)
            (transposed size elemSize (byteOf src)) out))))) tmp)) i =
        bitTransposed size elemSize src i := by
  obtain ⟨rows, rfl⟩ : ∃ rows, size = 8 * rows := ⟨size / 8, by omega⟩
  rw [Nat.mul_div_cancel_left _ (by decide)]
  refine eq_bitTransposed fun e he jj hjj kk hkk => ?_
  have hbyte : jj * (8 * rows) + e < 8 * rows * elemSize := place_lt he hjj
  have hrow : (kk * elemSize + jj) * (8 * rows) + e < 8 * (8 * rows * elemSize) := by
    have hlt := @place_lt (8 * rows) _ _ _ he (elem_index_lt hkk hjj)
    exact hlt.trans_eq (by ring)
  calc bitsFrom (transposedBlocks 8 elemSize rows _) ((8 * jj + kk) * (8 * rows) + e)
      = bitsFrom _ ((kk * elemSize + jj) * (8 * rows) + e) := by
        rw [Nat.mul_comm 8 jj]
        exact bitsFrom_transposedBlocks hkk he
    _ = transposed (8 * rows * elemSize) 8 (bitsFrom (byteOf (filled (8 * rows * elemSize)
          (transposed (8 * rows) elemSize (byteOf src)) out)))
          (kk * (8 * rows * elemSize) + (jj * (8 * rows) + e)) := by
        rw [bitsFrom_filled hrow, bitsFrom_packBits]
        congr 1
        ring
    _ = bitsFrom (transposed (8 * rows) elemSize (byteOf src)) (8 * (jj * (8 * rows) + e) + kk) := by
        rw [transposed_apply _ hbyte, bitsFrom_filled (by omega)]
        congr 1
        ring
    _ = bitsFrom (byteOf src) (e * (8 * elemSize) + (8 * jj + kk)) := by
        rw [bitsFrom_apply hkk, transposed_apply _ he, ← bitsFrom_apply hkk]
        congr 1
        ring

theorem untransBitrows_eq {tmp : List UInt8} (hsize : size % 8 = 0) :
    ∀ i < size * elemSize,
      packBits (transposedEach (8 * elemSize) 8 (bitsFrom (byteOf (filled (size * elemSize)
          (transposed (8 * elemSize) (size / 8) (byteOf src)) tmp)))) i =
        bitUntransposed size elemSize src i := by
  obtain ⟨rows, rfl⟩ : ∃ rows, size = 8 * rows := ⟨size / 8, by omega⟩
  rw [Nat.mul_div_cancel_left _ (by decide)]
  refine eq_bitUntransposed fun e he b hb => ?_
  obtain ⟨ii, kk, hkk, rfl⟩ : ∃ ii kk, kk < 8 ∧ e = 8 * ii + kk :=
    ⟨e / 8, e % 8, Nat.mod_lt e (by decide), (Nat.div_add_mod e 8).symm⟩
  have hplace : ii * (8 * elemSize) + b < 8 * rows * elemSize := by
    have hlt := @place_lt _ rows _ _ hb (show ii < rows by omega)
    exact hlt.trans_eq (by ring)
  rw [bitsFrom_packBits, show (8 * ii + kk) * (8 * elemSize) + b =
    ii * (8 * elemSize * 8) + (kk * (8 * elemSize) + b) by ring, transposedEach_apply _ hb hkk,
    show ii * (8 * elemSize * 8) + (b * 8 + kk) = 8 * (ii * (8 * elemSize) + b) + kk by ring,
    bitsFrom_filled (by omega), bitsFrom_apply hkk, transposed_apply _ hb, ← bitsFrom_apply hkk]
  congr 1
  ring

theorem transByteElemScal_eq (hsrc : size * elemSize ≤ src.length) (hout : size * elemSize ≤ out.length) :
    transByteElemScal src out size elemSize = .ok (((size * elemSize : Nat) : Int),
      filled (size * elemSize) (transposed size elemSize (byteOf src)) out) := by
  refine (transByteElemRemainder_processes (Nat.zero_mod 8) hsrc).all (fun i hi => ?_) hout
  obtain ⟨ii, hii, jj, hjj, rfl⟩ := exists_place hi
  exact ⟨ii, hii, Nat.zero_le ii, jj, hjj, rfl⟩

theorem transBitByteScal_eq {littleEndian : Bool} (hbytes : size * elemSize % 8 = 0)
    (hsrc : size * elemSize ≤ src.length) (hout : size * elemSize ≤ out.length) :
    transBitByteScal littleEndian src out size elemSize = .ok (((size * elemSize : Nat) : Int),
      filled (size * elemSize)
        (packBits (transposed (size * elemSize) 8 (bitsFrom (byteOf src)))) out) := by
  refine (transBitByteRemainder_processes hbytes (Nat.zero_mod 8) hsrc).all (fun i hi => ?_) hout
  have hrows : size * elemSize = size * elemSize / 8 * 8 := by omega
  obtain ⟨ii, hii, row, hrow, rfl⟩ := exists_place (hrows ▸ hi)
  exact ⟨ii, hii, Nat.zero_le ii, row, hrow, rfl⟩

theorem transBitrowEight_eq (hsize : size % 8 = 0) (hsrc : size * elemSize ≤ src.length)
    (hout : size * elemSize ≤ out.length) :
    transBitrowEight src out size elemSize = .ok (((size * elemSize : Nat) : Int),
      filled (size * elemSize) (transposedBlocks 8 elemSize (size / 8) (byteOf src)) out) := by
  have hcount : 8 * elemSize * (size / 8) = size * elemSize := by
    rw [Nat.mul_right_comm, Nat.mul_div_cancel' (Nat.dvd_of_mod_eq_zero hsize)]
  have hrows := @transElem_processes src (size / 8) 8 elemSize (hcount ▸ hsrc)
  rw [hcount] at hrows
  unfold transBitrowEight
  rw [if_neg (not_not.mpr hsize)]
  exact hrows.all (fun i hi => hi) hout

theorem processed_nonneg (n : Nat) : ¬ ((n : Int) < 0) := Int.not_lt.mpr (Int.natCast_nonneg n)

/-- The scalar routine transposes the matrix of bits of any eight elements and more, in any
byte order, and reads and writes only the bytes of the elements. -/
theorem transBitElemScal_eq {littleEndian : Bool} {malloc : Malloc}
    {tmpBuf : List.Vector UInt8 (size * elemSize)} (hmalloc : malloc (size * elemSize) = some tmpBuf)
    (hsize : size % 8 = 0) (hsrc : size * elemSize ≤ src.length) (hout : size * elemSize ≤ out.length) :
    transBitElemScal littleEndian malloc src out size elemSize =
      .ok (((size * elemSize : Nat) : Int),
        filled (size * elemSize) (bitTransposed size elemSize src) out) := by
  have hbytes : size * elemSize % 8 = 0 := by rw [Nat.mul_mod, hsize, Nat.zero_mul]
  have htmp : size * elemSize ≤ tmpBuf.toList.length := tmpBuf.toList_length.ge
  unfold transBitElemScal
  rw [if_neg (not_not.mpr hsize), hmalloc]
  dsimp only
  rw [transByteElemScal_eq hsrc hout, ok_bind, if_neg (processed_nonneg _), transBitByteScal_eq hbytes
    ((length_filled hout).symm ▸ hout) htmp, ok_bind, if_neg (processed_nonneg _),
    transBitrowEight_eq hsize ((length_filled htmp).symm ▸ htmp) ((length_filled hout).symm ▸ hout),
    filled_filled, filled_congr (transBitrows_eq hsize)]

theorem untransBitElemScal_eq {littleEndian : Bool} {malloc : Malloc}
    {tmpBuf : List.Vector UInt8 (size * elemSize)} (hmalloc : malloc (size * elemSize) = some tmpBuf)
    (hsize : size % 8 = 0) (hsrc : size * elemSize ≤ src.length) (hout : size * elemSize ≤ out.length) :
    untransBitElemScal littleEndian malloc src out size elemSize =
      .ok (((size * elemSize : Nat) : Int),
        filled (size * elemSize) (bitUntransposed size elemSize src) out) := by
  have htmp : size * elemSize ≤ tmpBuf.toList.length := tmpBuf.toList_length.ge
  unfold untransBitElemScal
  rw [if_neg (not_not.mpr hsize), hmalloc]
  dsimp only
  rw [(transByteBitrowScal_processes hsize hsrc).all (fun i hi => hi) htmp, ok_bind,
    if_neg (processed_nonneg _), (shuffleBitEightelemScal_processes hsize
      ((length_filled htmp).symm ▸ htmp)).all (fun i hi => hi) hout,
    filled_congr (untransBitrows_eq hsize)]

end elements

end TonCompress.Shuffle
