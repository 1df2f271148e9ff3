import TonCompress.Shuffle.BitMatrix
import TonCompress.Shuffle.Sse

/-! The routines that use SSE2 compute what the scalar ones do. -/
namespace TonCompress.Shuffle
open TonCompress.Lib

section networks
variable {α β : Type}

theorem interleave_comp (f : α → β) (width half : Nat) (a b : Lanes α) :
    interleave width half (f ∘ a) (f ∘ b) = f ∘ interleave width half a b := by
  funext k
  simp only [interleave, Function.comp_apply]
  split <;> rfl

theorem comp_getD (f : α → β) (registers : List (Lanes α)) (r : Nat) (first : Lanes α) :
    f ∘ registers.getD r first = (registers.map fun x => f ∘ x).getD r (f ∘ first) := by
  simp only [List.getD_eq_getElem?_getD, List.getElem?_map]
  cases registers[r]? <;> rfl

theorem network16_natural (f : α → β) (v : Registers α) (r : Nat) :
    network16 (fun r => f ∘ v r) r = f ∘ network16 v r := by
  simp only [network16, unpackloEpi8, unpackhiEpi8, interleave_comp, comp_getD, List.map_cons,
    List.map_nil]

theorem network32_natural (f : α → β) (v : Registers α) (r : Nat) :
    network32 (fun r => f ∘ v r) r = f ∘ network32 v r := by
  simp only [network32, unpackloEpi8, unpackhiEpi8, unpackloEpi64, unpackhiEpi64, interleave_comp, comp_getD, List.map_cons,
    List.map_nil]

theorem network64_natural (f : α → β) (v : Registers α) (r : Nat) :
    network64 (fun r => f ∘ v r) r = f ∘ network64 v r := by
  simp only [network64, unpackloEpi8, unpackhiEpi8, unpackloEpi32, unpackhiEpi32, unpackloEpi64,
    unpackhiEpi64, interleave_comp, comp_getD, List.map_cons,
    List.map_nil]

theorem networkBitrow_natural (f : α → β) (v : Registers α) (r : Nat) :
    networkBitrow (fun r => f ∘ v r) r = f ∘ networkBitrow v r := by
  simp only [networkBitrow, unpackloEpi8, unpackhiEpi8, unpackloEpi16, unpackhiEpi16, unpackloEpi32,
    unpackhiEpi32, interleave_comp, comp_getD, List.map_cons,
    List.map_nil]

/-- The place of each lane of registers loaded one behind the other. -/
def places : Registers Nat := fun r k => 16 * r + k.val

theorem network16_places : ∀ r < 2, ∀ k : Fin 16, network16 places r k = 2 * k.val + r := by
  decide +kernel

theorem network32_places : ∀ r < 4, ∀ k : Fin 16, network32 places r k = 4 * k.val + r := by
  decide +kernel

theorem network64_places : ∀ r < 8, ∀ k : Fin 16, network64 places r k = 8 * k.val + r := by
  decide +kernel

theorem networkBitrow_places : ∀ r < 8, ∀ k : Fin 16,
    networkBitrow places r k = 16 * (k.val % 8) + (2 * r + k.val / 8) := by
  decide +kernel

end networks

section registers
variable {n : Nat} {target : Nat → UInt8} {src : List UInt8}

/-- What a network makes of registers loaded from `place 0`, `place 1`, ... is known once
its places are. -/
theorem network_loaded {network : ∀ {α : Type}, Registers α → Registers α}
    (hnatural : ∀ {α β : Type} (f : α → β) (v : Registers α) (r : Nat),
      network (fun r => f ∘ v r) r = f ∘ network v r)
    (place : Nat → Nat) {r i : Nat} {k : Fin 16} (hplaces : network places r k = i) :
    network (fun r k => src.getD (place r + k.val) 0) r k =
      byteOf src (place (i / 16) + i % 16) := by
  have hloaded : (fun (r : Nat) (k : Fin 16) => src.getD (place r + k.val) 0) = fun r =>
      (fun i => byteOf src (place (i / 16) + i % 16)) ∘ places r := by
    funext r k
    have hk := k.isLt
    simp only [Function.comp_apply, places, byteOf]
    rw [Nat.mul_add_div (by decide), Nat.div_eq_of_lt hk, Nat.mul_add_mod, Nat.mod_eq_of_lt hk,
      Nat.add_zero]
  rw [hloaded, hnatural, Function.comp_apply, hplaces]

theorem loadRegisters_eq {place : Nat → Nat} {count : Nat}
    (h : ∀ r < count, place r + 16 ≤ src.length) :
    loadRegisters src place count = .ok fun r k => src.getD (place r + k.val) 0 :=
  if_pos h

theorem storeLanes_fills {x : Lanes UInt8} {lane count place : Nat} (hplace : place + count ≤ n)
    (htarget : ∀ b < count, x (Fin.ofNat 16 (lane + b)) = target (place + b)) :
    Fills n target {p | ∃ b < count, p = place + b} (storeLanes x lane count place) := by
  have hloop : Fills n target {p | ∃ b, 0 ≤ b ∧ b < count ∧ p = place + b}
      (storeLanes x lane count place) :=
    fills_forRange fun b _ hb => fills_vecSet Buffer.output (by omega) (htarget b hb)
  refine hloop.mono ?_
  rintro p ⟨b, hb, hp⟩
  exact ⟨b, Nat.zero_le b, hb, hp⟩

theorem storeRegisters_fills {x : Registers UInt8} {place : Nat → Nat} {count : Nat}
    (hplace : ∀ r < count, place r + 16 ≤ n)
    (htarget : ∀ r < count, ∀ b < 16, x r (Fin.ofNat 16 b) = target (place r + b)) :
    Fills n target {p | ∃ r < count, ∃ b < 16, p = place r + b} (storeRegisters x place count) := by
  have hloop : Fills n target {p | ∃ r, 0 ≤ r ∧ r < count ∧ ∃ b < 16, p = place r + b}
      (storeRegisters x place count) := by
    refine fills_forRange fun r _ hr => storeLanes_fills (hplace r hr) fun b hb => ?_
    rw [Nat.zero_add]
    exact htarget r hr b hb
  refine hloop.mono ?_
  rintro p ⟨r, hr, hp⟩
  exact ⟨r, Nat.zero_le r, hr, hp⟩

end registers

section bytes
variable {src out : List UInt8} {size elemSize : Nat}

theorem fin_ofNat_val {b : Nat} (hb : b < 16) : (Fin.ofNat 16 b).val = b := Nat.mod_eq_of_lt hb

theorem transByteElemSseLoop_processes {network : ∀ {α : Type}, Registers α → Registers α}
    (hnatural : ∀ {α β : Type} (f : α → β) (v : Registers α) (r : Nat),
      network (fun r => f ∘ v r) r = f ∘ network v r)
    (hplaces : ∀ r < elemSize, ∀ k : Fin 16, network places r k = elemSize * k.val + r)
    (hsrc : size * elemSize ≤ src.length) :
    Processes (size * elemSize) (transposed size elemSize (byteOf src)) {p | p < size * elemSize}
      fun out => transByteElemSseLoop network elemSize src out size := by
  have hround : ∀ k < size / 16, Fills (size * elemSize) (transposed size elemSize (byteOf src))
      {p | ∃ r < elemSize, ∃ b < 16, p = r * size + (0 + k * 16) + b} fun out =>
        loadRegisters src (fun r => elemSize * (0 + k * 16) + r * 16) elemSize >>= fun v =>
          storeRegisters (network v) (fun r => r * size + (0 + k * 16)) elemSize out := by
    intro k hk
    have hblock : k * 16 + 16 ≤ size := by omega
    have hload : ∀ r < elemSize, elemSize * (0 + k * 16) + r * 16 + 16 ≤ src.length := by
      intro r hr
      calc elemSize * (0 + k * 16) + r * 16 + 16
          ≤ elemSize * (k * 16) + elemSize * 16 := by rw [Nat.zero_add]; omega
        _ = elemSize * (k * 16 + 16) := by ring
        _ ≤ elemSize * size := Nat.mul_le_mul_left _ hblock
        _ ≤ src.length := by rwa [Nat.mul_comm]
    intro out hout
    dsimp only
    rw [loadRegisters_eq hload, ok_bind]
    refine storeRegisters_fills (fun r hr => ?_) (fun r hr b hb => ?_) out hout
    · have hplace := @place_lt size elemSize (k * 16 + 15) r (by omega) hr
      omega
    · rw [network_loaded hnatural _ (hplaces r hr _), fin_ofNat_val hb,
        show r * size + (0 + k * 16) + b = r * size + (k * 16 + b) by omega,
        transposed_apply _ (by omega)]
      congr 1
      rw [Nat.add_assoc, Nat.div_add_mod']
      ring
  have hloop : Fills (size * elemSize) (transposed size elemSize (byteOf src))
      {p | ∃ k < (size - 0) / 16, ∃ r < elemSize, ∃ b < 16, p = r * size + (0 + k * 16) + b}
      fun out => forStep 16 0 size out fun ii out =>
        loadRegisters src (fun r => elemSize * ii + r * 16) elemSize >>= fun v =>
          storeRegisters (network v) (fun r => r * size + ii) elemSize out :=
    fills_forStep fun k hk => hround k hk
  obtain ⟨fill, hfill, hrest⟩ := @transByteElemRemainder_processes src size elemSize
    (size - size % 16) (by omega) hsrc
  refine ⟨_, (hloop.bind hfill).mono fun p hp => ?_, fun out => ?_⟩
  · obtain ⟨e, he, r, hr, rfl⟩ := exists_place hp
    by_cases hblock : e < size - size % 16
    · exact .inl ⟨e / 16, by omega, r, hr, e % 16, Nat.mod_lt e (by decide), by omega⟩
    · exact .inr ⟨e, he, by omega, r, hr, rfl⟩
  · rw [bind_assoc]
    exact bind_congr fun mid => hrest mid

theorem transByteElemSse16_eq (hsrc : size * 2 ≤ src.length) (hout : size * 2 ≤ out.length) :
    transByteElemSse16 src out size = .ok (((size * 2 : Nat) : Int),
      filled (size * 2) (transposed size 2 (byteOf src)) out) :=
  (transByteElemSseLoop_processes network16_natural network16_places hsrc).all (fun _ hi => hi) hout

theorem transByteElemSse32_eq (hsrc : size * 4 ≤ src.length) (hout : size * 4 ≤ out.length) :
    transByteElemSse32 src out size = .ok (((size * 4 : Nat) : Int),
      filled (size * 4) (transposed size 4 (byteOf src)) out) :=
  (transByteElemSseLoop_processes network32_natural network32_places hsrc).all (fun _ hi => hi) hout

theorem transByteElemSse64_eq (hsrc : size * 8 ≤ src.length) (hout : size * 8 ≤ out.length) :
    transByteElemSse64 src out size = .ok (((size * 8 : Nat) : Int),
      filled (size * 8) (transposed size 8 (byteOf src)) out) :=
  (transByteElemSseLoop_processes network64_natural network64_places hsrc).all (fun _ hi => hi) hout

theorem transElemType_eq {width lda ldb : Nat} (hsrc : lda * ldb * width ≤ src.length)
    (hout : lda * ldb * width ≤ out.length) :
    transElemType width src out lda ldb =
      .ok (filled (lda * ldb * width) (transposedBlocks lda ldb width (byteOf src)) out) := by
  have hcopy : ∀ ii < lda, ∀ jj < ldb,
      Fills (lda * ldb * width) (transposedBlocks lda ldb width (byteOf src))
        {p | ∃ b < width, p = (jj * lda + ii) * width + b}
        (memcpy src ((jj * lda + ii) * width) ((ii * ldb + jj) * width) width) :=
    fun ii hii jj hjj => block_fills hsrc hii hjj
  have heights : Fills (lda * ldb * width) (transposedBlocks lda ldb width (byteOf src))
      {p | ∃ k < (lda - 0) / 8, ∃ jj, 0 ≤ jj ∧ jj < ldb ∧ ∃ kk, 0 ≤ kk ∧ kk < 8 ∧
        ∃ b < width, p = (jj * lda + (0 + k * 8 + kk)) * width + b}
      fun out => forStep 8 0 lda out fun ii out =>
        forRange 0 ldb out fun jj out =>
          forRange 0 8 out fun kk =>
            memcpy src ((jj * lda + ii + kk) * width) ((ii * ldb + kk * ldb + jj) * width) width := by
    refine fills_forStep fun k hk => fills_forRange fun jj _ hjj => fills_forRange fun kk _ hkk => ?_
    rw [Nat.add_assoc (jj * lda), ← Nat.add_mul]
    exact hcopy _ (by omega) _ hjj
  have hrest : Fills (lda * ldb * width) (transposedBlocks lda ldb width (byteOf src))
      {p | ∃ ii, lda - lda % 8 ≤ ii ∧ ii < lda ∧ ∃ jj, 0 ≤ jj ∧ jj < ldb ∧
        ∃ b < width, p = (jj * lda + ii) * width + b}
      fun out => forRange (lda - lda % 8) lda out fun ii out => forRange 0 ldb out fun jj =>
        memcpy src ((jj * lda + ii) * width) ((ii * ldb + jj) * width) width :=
    fills_forRange fun ii _ hii => fills_forRange fun jj _ hjj => hcopy ii hii jj hjj
  refine (heights.bind hrest).all (fun p hp => ?_) hout
  obtain ⟨b, hb, block, hblock, rfl⟩ := exists_place (Nat.mul_comm (lda * ldb) width ▸ hp)
  obtain ⟨ii, hii, jj, hjj, rfl⟩ := exists_place hblock
  by_cases height : ii < lda - lda % 8
  · refine .inl ⟨ii / 8, by omega, jj, Nat.zero_le _, hjj, ii % 8, Nat.zero_le _,
      Nat.mod_lt ii (by decide), b, hb, ?_⟩
    rw [Nat.zero_add, Nat.div_add_mod']
  · exact .inr ⟨ii, by omega, hii, jj, Nat.zero_le _, hjj, b, hb, rfl⟩

/-- Chunks of elements, bytes of chunks, and the rows of both together. -/
theorem transChunks_eq {width nchunkElem : Nat} {tmp : List UInt8} :
    ∀ i < size * (nchunkElem * width),
      transposedBlocks width nchunkElem size (byteOf (filled (size * nchunkElem * width)
          (transposed (size * nchunkElem) width (byteOf (filled (size * nchunkElem * width)
            (transposedBlocks size nchunkElem width (byteOf src)) out))) tmp)) i =
        transposed size (nchunkElem * width) (byteOf src) i := by
  intro i hi
  obtain ⟨e, he, byte, hbyte, rfl⟩ := exists_place hi
  obtain ⟨j, hj, c, hc, rfl⟩ := exists_place (Nat.mul_comm nchunkElem width ▸ hbyte)
  have hchunk : c * size + e < size * nchunkElem := place_lt he hc
  have hrow : j * (size * nchunkElem) + (c * size + e) < size * nchunkElem * width :=
    place_lt hchunk hj
  have hplace : (c * size + e) * width + j < size * nchunkElem * width :=
    elem_index_lt hchunk hj
  rw [transposedBlocks_apply _ hj he, transposed_apply _ he,
    show (j * nchunkElem + c) * size + e = j * (size * nchunkElem) + (c * size + e) by ring,
    byteOf_filled hrow, transposed_apply _ hchunk, byteOf_filled hplace, transposedBlocks_apply _ he hj]
  congr 1
  ring

theorem transByteElemChunks_eq {width nchunkElem : Nat} (hwidth : 0 < width)
    {routine : List UInt8 → List UInt8 → Nat → BshufExec (Int × List UInt8)}
    (hroutine : ∀ src out size, size * width ≤ src.length → size * width ≤ out.length →
      routine src out size = .ok (((size * width : Nat) : Int),
        filled (size * width) (transposed size width (byteOf src)) out))
    {tmpBuf : List UInt8} (htmp : size * (nchunkElem * width) ≤ tmpBuf.length)
    (hsrc : size * (nchunkElem * width) ≤ src.length)
    (hout : size * (nchunkElem * width) ≤ out.length) :
    transByteElemChunks width routine tmpBuf src out size (nchunkElem * width) =
      .ok (((size * (nchunkElem * width) : Nat) : Int),
        filled (size * (nchunkElem * width)) (transposed size (nchunkElem * width) (byteOf src)) out) := by
  have hcount : size * nchunkElem * width = size * (nchunkElem * width) := Nat.mul_assoc _ _ _
  have hcount' : width * nchunkElem * size = size * (nchunkElem * width) := by ring
  have hchunks : size * nchunkElem * width ≤
      (filled (size * nchunkElem * width) (transposedBlocks size nchunkElem width (byteOf src)) out).length := by
    rw [length_filled (hcount ▸ hout)]
    omega
  unfold transByteElemChunks
  dsimp only
  rw [Nat.mul_div_cancel _ hwidth, transElemType_eq (hcount ▸ hsrc) (hcount ▸ hout), ok_bind,
    hroutine _ _ _ hchunks (hcount ▸ htmp), ok_bind]
  have hrows := (@transElem_processes (filled (size * nchunkElem * width) (transposed
    (size * nchunkElem) width (byteOf (filled (size * nchunkElem * width) (transposedBlocks size
      nchunkElem width (byteOf src)) out))) tmpBuf) size width nchunkElem (by
        rw [length_filled (hcount ▸ htmp)]; omega)).all (fun i hi => hi)
      (by rw [hcount', ← hcount]; exact hchunks)
  rw [hrows, ok_bind, hcount', filled_congr transChunks_eq, hcount, filled_filled]
  rfl

def ByChunks (elemSize : Nat) : Prop := elemSize % 4 = 0 ∧ elemSize ≠ 4 ∧ elemSize ≠ 8

theorem transByteElemSse_eq {malloc : Malloc} (hmalloc : ByChunks elemSize →
      ∃ tmpBuf, malloc (size * elemSize) = some tmpBuf)
    (hsrc : size * elemSize ≤ src.length) (hout : size * elemSize ≤ out.length) :
    transByteElemSse malloc src out size elemSize = .ok (((size * elemSize : Nat) : Int),
      filled (size * elemSize) (transposed size elemSize (byteOf src)) out) := by
  unfold transByteElemSse
  by_cases hone : elemSize = 1
  · subst hone
    rw [if_pos rfl, (bshufCopy_processes hsrc).all (fun _ hi => hi) hout, filled_congr]
    intro i hi
    rw [Nat.mul_one] at hi
    rw [transposed, Nat.mod_eq_of_lt hi, Nat.div_eq_of_lt hi, Nat.mul_one, Nat.add_zero]
  rw [if_neg hone]
  by_cases htwo : elemSize = 2
  · subst htwo
    rw [if_pos rfl, transByteElemSse16_eq hsrc hout]
  rw [if_neg htwo]
  by_cases hfour : elemSize = 4
  · subst hfour
    rw [if_pos rfl, transByteElemSse32_eq hsrc hout]
  rw [if_neg hfour]
  by_cases height : elemSize = 8
  · subst height
    rw [if_pos rfl, transByteElemSse64_eq hsrc hout]
  rw [if_neg height]
  by_cases hodd : elemSize % 4 ≠ 0
  · rw [if_pos hodd, transByteElemScal_eq hsrc hout]
  rw [if_neg hodd]
  obtain ⟨tmpBuf, htmp⟩ := hmalloc ⟨not_not.mp hodd, hfour, height⟩
  have hlength : size * elemSize ≤ tmpBuf.toList.length := tmpBuf.toList_length.ge
  rw [htmp]
  dsimp only
  by_cases heights : elemSize % 8 = 0
  · obtain ⟨nchunkElem, rfl⟩ : ∃ nchunkElem, elemSize = nchunkElem * 8 := ⟨elemSize / 8, by omega⟩
    rw [if_pos heights]
    exact transByteElemChunks_eq (by decide) (fun _ _ _ => transByteElemSse64_eq) hlength hsrc hout
  · obtain ⟨nchunkElem, rfl⟩ : ∃ nchunkElem, elemSize = nchunkElem * 4 := ⟨elemSize / 4, by omega⟩
    rw [if_neg heights, if_pos (not_not.mp hodd)]
    exact transByteElemChunks_eq (by decide) (fun _ _ _ => transByteElemSse32_eq) hlength hsrc hout

end bytes

section masks
variable {n : Nat} {target : Nat → UInt8} {src out : List UInt8} {size elemSize : Nat}

theorem testBit_movemaskEpi8 (x : Lanes UInt8) {m : Nat} (hm : m < 16) :
    (movemaskEpi8 x).testBit m = (x ⟨m, hm⟩).toNat.testBit 7 :=
  Nat.testBit_ofBits_lt _ _ hm

theorem testBit_shiftLeft_one (x : UInt8) {b : Nat} (hb : b + 1 < 8) :
    (x <<< 1).toNat.testBit (b + 1) = x.toNat.testBit b := by
  have hshift : (x <<< 1).toNat = x.toNat <<< 1 % 2 ^ 8 := UInt8.toNat_shiftLeft x 1
  rw [hshift, Nat.testBit_mod_two_pow, decide_eq_true hb, Nat.testBit_shiftLeft]
  simp

theorem testBit_slliEpi16 (x : Lanes UInt8) (k : Fin 16) {b : Nat} (hb : b + 1 < 8) :
    (slliEpi16 x k).toNat.testBit (b + 1) = (x k).toNat.testBit b := by
  have hcarry : ∀ y : UInt8, (y >>> 7).toNat.testBit (b + 1) = false := by
    intro y
    have hshift : (y >>> 7).toNat = y.toNat >>> 7 := UInt8.toNat_shiftRight y 7
    have hy := y.toNat_lt
    rw [hshift, Nat.testBit_shiftRight]
    apply Nat.testBit_lt_two_pow
    calc y.toNat < 2 ^ 8 := hy
      _ ≤ 2 ^ (7 + (b + 1)) := Nat.pow_le_pow_right (by decide) (by omega)
  unfold slliEpi16
  split
  · exact testBit_shiftLeft_one _ hb
  · rw [UInt8.toNat_or, Nat.testBit_or, testBit_shiftLeft_one _ hb, hcarry, Bool.or_false]

theorem testBit_slliEpi16_iterate (x : Lanes UInt8) (k : Fin 16) (kk : Nat) {b : Nat}
    (hb : kk + b < 8) : (slliEpi16^[kk] x k).toNat.testBit (kk + b) = (x k).toNat.testBit b := by
  induction kk generalizing b with
  | zero => rw [Nat.zero_add, Function.iterate_zero, id]
  | succ kk ih =>
    rw [Function.iterate_succ_apply', Nat.add_right_comm, testBit_slliEpi16 _ _ (by omega),
      ih (by omega)]

theorem storeMasks_eq (xmm : Lanes UInt8) (place : Nat → Nat) (out : List UInt8) :
    storeMasks xmm place out = forRange 0 8 out fun kk out =>
      storeUint16 (movemaskEpi8 (slliEpi16^[kk] xmm)) (place kk) out :=
  forRange_iterate slliEpi16 (fun kk xmm out => storeUint16 (movemaskEpi8 xmm) (place kk) out) xmm
    (Nat.zero_le 8) out

theorem storeUint16_fills {value place : Nat} (hplace : place + 1 < n)
    (hlow : UInt8.ofNat value = target place) (hhigh : UInt8.ofNat (value >>> 8) = target (place + 1)) :
    Fills n target {p | p = place ∨ p = place + 1} (storeUint16 value place) := by
  refine Fills.mono ((fills_vecSet Buffer.output (by omega) hlow).bind
    (fills_vecSet Buffer.output hplace hhigh)) ?_
  rintro p (rfl | rfl)
  · exact .inl rfl
  · exact .inr rfl

theorem testBit_ofNat (value : Nat) {m : Nat} (hm : m < 8) :
    (UInt8.ofNat value).toNat.testBit m = value.testBit m := by
  rw [UInt8.toNat_ofNat', Nat.testBit_mod_two_pow, decide_eq_true hm, Bool.true_and]

theorem storeBits_fills {source : Nat} {place : Nat → Nat} (hsource : source + 16 ≤ src.length)
    (hplace : ∀ kk < 8, place kk + 1 < n)
    (hlow : ∀ kk < 8, ∀ m < 8, (target (place kk)).toNat.testBit m =
      (byteOf src (source + m)).toNat.testBit (7 - kk))
    (hhigh : ∀ kk < 8, ∀ m < 8, (target (place kk + 1)).toNat.testBit m =
      (byteOf src (source + 8 + m)).toNat.testBit (7 - kk)) :
    Fills n target {p | ∃ kk < 8, p = place kk ∨ p = place kk + 1} (storeBits src source place) := by
  have htop : ∀ kk < 8, ∀ m : Fin 16,
      (slliEpi16^[kk] (fun k : Fin 16 => src.getD (source + k.val) 0) m).toNat.testBit 7 =
        (byteOf src (source + m.val)).toNat.testBit (7 - kk) := by
    intro kk hkk m
    have hsum : 7 = kk + (7 - kk) := by omega
    conv_lhs => rw [hsum]
    exact testBit_slliEpi16_iterate _ m kk (by omega)
  have hloop : Fills n target {p | ∃ kk, 0 ≤ kk ∧ kk < 8 ∧ (p = place kk ∨ p = place kk + 1)}
      fun out => forRange 0 8 out fun kk out => storeUint16 (movemaskEpi8
        (slliEpi16^[kk] fun k : Fin 16 => src.getD (source + k.val) 0)) (place kk) out := by
    refine fills_forRange fun kk _ hkk => storeUint16_fills (hplace kk hkk) ?_ ?_
    · apply byte_ext
      intro m hm
      rw [testBit_ofNat _ hm, testBit_movemaskEpi8 _ (by omega), htop kk hkk, hlow kk hkk m hm]
    · apply byte_ext
      intro m hm
      rw [testBit_ofNat _ hm, Nat.testBit_shiftRight, testBit_movemaskEpi8 _ (by omega), htop kk hkk,
        hhigh kk hkk m hm, Nat.add_assoc]
  intro out hout
  rw [storeBits, loadRegisters_eq fun _ _ => hsource, ok_bind, storeMasks_eq]
  refine hloop.mono ?_ out hout
  rintro p ⟨kk, hkk, hp⟩
  exact ⟨kk, Nat.zero_le kk, hkk, hp⟩

theorem transBitByteSse_processes (hbytes : size * elemSize % 8 = 0)
    (hsrc : size * elemSize ≤ src.length) :
    Processes (size * elemSize)
      (packBits (transposed (size * elemSize) 8 (bitsFrom (byteOf src))))
      {p | p < size * elemSize} fun out => transBitByteSse src out size elemSize := by
  obtain ⟨fill, hfill, hrest⟩ := @transBitByteRemainder_processes src size elemSize true
    (size * elemSize - size * elemSize % 16) hbytes (by omega) hsrc
  unfold transBitByteSse
  rw [Nat.mul_comm elemSize size]
  generalize hnbyte : size * elemSize = nbyte at *
  obtain ⟨nbyteBitrow, rfl⟩ : ∃ nbyteBitrow, nbyte = 8 * nbyteBitrow := ⟨nbyte / 8, by omega⟩
  have hdiv : 8 * nbyteBitrow / 8 = nbyteBitrow := by omega
  have hrow : ∀ kk half, ((7 - kk) * (8 * nbyteBitrow) + (0 + half * 16)) / 8 =
      (7 - kk) * nbyteBitrow + 2 * half := by
    intro kk half
    rw [show (7 - kk) * (8 * nbyteBitrow) + (0 + half * 16) =
      8 * ((7 - kk) * nbyteBitrow + 2 * half) by ring, Nat.mul_div_cancel_left _ (by decide)]
  have hbit : ∀ ii < nbyteBitrow, ∀ row < 8, ∀ m < 8,
      (packBits (transposed (8 * nbyteBitrow) 8 (bitsFrom (byteOf src)))
        (row * nbyteBitrow + ii)).toNat.testBit m = (byteOf src (8 * ii + m)).toNat.testBit row :=
    fun ii hii row hrow m hm => testBit_row hii hrow hm
  have hround : ∀ half < (8 * nbyteBitrow - 0) / 16, Fills (8 * nbyteBitrow)
      (packBits (transposed (8 * nbyteBitrow) 8 (bitsFrom (byteOf src))))
      {p | ∃ kk < 8, p = (7 - kk) * nbyteBitrow + 2 * half ∨ p = (7 - kk) * nbyteBitrow + 2 * half + 1}
      (storeBits src (0 + half * 16) fun kk =>
        ((7 - kk) * (8 * nbyteBitrow) + (0 + half * 16)) / 8) := by
    intro half hhalf
    simp only [hrow]
    refine storeBits_fills (by omega) (fun kk hkk => ?_) (fun kk hkk m hm => ?_) fun kk hkk m hm => ?_
    · have hplace := @place_lt nbyteBitrow 8 (2 * half + 1) (7 - kk) (by omega) (by omega)
      omega
    · rw [hbit _ (by omega) _ (by omega) m hm]
      congr 3
      omega
    · rw [Nat.add_assoc, hbit _ (by omega) _ (by omega) m hm]
      congr 3
      omega
  have hloop : Fills (8 * nbyteBitrow)
      (packBits (transposed (8 * nbyteBitrow) 8 (bitsFrom (byteOf src))))
      {p | ∃ half < (8 * nbyteBitrow - 0) / 16, ∃ kk < 8, p = (7 - kk) * nbyteBitrow + 2 * half ∨
        p = (7 - kk) * nbyteBitrow + 2 * half + 1}
      fun out => forStep 16 0 (8 * nbyteBitrow) out fun ii =>
        storeBits src ii fun kk => ((7 - kk) * (8 * nbyteBitrow) + ii) / 8 :=
    fills_forStep fun half hhalf => hround half hhalf
  refine ⟨_, (hloop.bind hfill).mono fun p hp => ?_, fun out => ?_⟩
  · obtain ⟨ii, hii, row, hrow, rfl⟩ : ∃ ii < nbyteBitrow, ∃ row < 8, p = row * nbyteBitrow + ii :=
      exists_place (Nat.mul_comm 8 nbyteBitrow ▸ hp)
    by_cases hblock : ii < 8 * nbyteBitrow / 16 * 2
    · exact .inl ⟨ii / 2, by omega, 7 - row, by omega, by
        rw [show 7 - (7 - row) = row by omega]; omega⟩
    · exact .inr ⟨ii, by omega, by omega, row, hrow, by rw [hdiv]⟩
  · beta_reduce
    rw [if_neg (not_not.mpr hbytes), bind_assoc]
    exact bind_congr fun mid => hrest mid

end masks

section bitrows
variable {src out : List UInt8} {size elemSize : Nat}

theorem bitrowColumns_fills {nbyteRow nrows ii jj : Nat} (hrows : ii + 8 ≤ nrows)
    (hcols : jj + 16 ≤ nbyteRow) (hsrc : nrows * nbyteRow ≤ src.length) :
    Fills (nrows * nbyteRow) (transposed nrows nbyteRow (byteOf src))
      {p | ∃ col < 16, ∃ row < 8, p = (jj + col) * nrows + (ii + row)}
      (bitrowColumns src nrows nbyteRow ii jj) := by
  have hload : ∀ r < 8, (ii + r) * nbyteRow + jj + 16 ≤ src.length := by
    intro r hr
    have hindex := @elem_index_lt nrows nbyteRow (ii + r) (jj + 15) (by omega) (by omega)
    omega
  have hlane : ∀ r < 8, ∀ half < 2, ∀ b < 8,
      networkBitrow (fun r k => src.getD ((ii + r) * nbyteRow + jj + k.val) 0) r
          (Fin.ofNat 16 (8 * half + b)) =
        transposed nrows nbyteRow (byteOf src) ((jj + (2 * r + half)) * nrows + ii + b) := by
    intro r hr half hhalf b hb
    have hval : (Fin.ofNat 16 (8 * half + b)).val = 8 * half + b := fin_ofNat_val (by omega)
    rw [network_loaded networkBitrow_natural (fun r => (ii + r) * nbyteRow + jj)
      (networkBitrow_places r hr _), hval, Nat.add_assoc _ ii b, transposed_apply _ (by omega)]
    have hcol : 2 * r + (8 * half + b) / 8 = 2 * r + half := by omega
    have hrow : (8 * half + b) % 8 = b := by omega
    rw [hcol, hrow, Nat.mul_add_div (by decide), Nat.div_eq_of_lt (by omega), Nat.mul_add_mod,
      Nat.mod_eq_of_lt (by omega), Nat.add_zero, Nat.add_assoc _ jj]
  have hfits : ∀ r < 8, ∀ half < 2, (jj + (2 * r + half)) * nrows + ii + 8 ≤ nrows * nbyteRow := by
    intro r hr half hhalf
    have hplace := @place_lt nrows nbyteRow (ii + 7) (jj + (2 * r + half)) (by omega) (by omega)
    omega
  intro out hout
  rw [bitrowColumns, loadRegisters_eq hload, ok_bind]
  have hstores : ∀ half < 2, Fills (nrows * nbyteRow) (transposed nrows nbyteRow (byteOf src))
      {p | ∃ r, 0 ≤ r ∧ r < 8 ∧ ∃ b < 8, p = (jj + (2 * r + half)) * nrows + ii + b}
      fun out => forRange 0 8 out fun r => storeLanes (networkBitrow
        (fun r k => src.getD ((ii + r) * nbyteRow + jj + k.val) 0) r) (8 * half) 8
          ((jj + (2 * r + half)) * nrows + ii) :=
    fun half hhalf => fills_forRange fun r _ hr =>
      storeLanes_fills (hfits r hr half hhalf) (hlane r hr half hhalf)
  refine ((hstores 0 (by decide)).bind (hstores 1 (by decide))).mono ?_ out hout
  rintro p ⟨col, hcol, row, hrow, rfl⟩
  by_cases heven : col % 2 = 0
  · exact .inl ⟨col / 2, Nat.zero_le _, by omega, row, hrow, by
      rw [show 2 * (col / 2) + 0 = col by omega, Nat.add_assoc]⟩
  · exact .inr ⟨col / 2, Nat.zero_le _, by omega, row, hrow, by
      rw [show 2 * (col / 2) + 1 = col by omega, Nat.add_assoc]⟩

theorem bitrowRows_fills {nbyteRow nrows ii : Nat} (hrows : ii + 8 ≤ nrows)
    (hsrc : nrows * nbyteRow ≤ src.length) :
    Fills (nrows * nbyteRow) (transposed nrows nbyteRow (byteOf src))
      {p | ∃ jj < nbyteRow, ∃ row < 8, p = jj * nrows + (ii + row)}
      (bitrowRows src nrows nbyteRow ii) := by
  have hblocks : Fills (nrows * nbyteRow) (transposed nrows nbyteRow (byteOf src))
      {p | ∃ k < (nbyteRow - 0) / 16, ∃ col < 16, ∃ row < 8,
        p = (0 + k * 16 + col) * nrows + (ii + row)}
      fun out => forStep 16 0 nbyteRow out fun jj => bitrowColumns src nrows nbyteRow ii jj :=
    fills_forStep fun k hk => bitrowColumns_fills hrows (by omega) hsrc
  have hrest : Fills (nrows * nbyteRow) (transposed nrows nbyteRow (byteOf src))
      {p | ∃ jj, nbyteRow - nbyteRow % 16 ≤ jj ∧ jj < nbyteRow ∧ ∃ r, 0 ≤ r ∧ r < 8 ∧
        p = jj * nrows + ii + r}
      fun out => forRange (nbyteRow - nbyteRow % 16) nbyteRow out fun jj out =>
        forRange 0 8 out fun r => moveByte src (jj * nrows + ii + r) ((ii + r) * nbyteRow + jj) := by
    refine fills_forRange fun jj _ hjj => fills_forRange fun r _ hr => ?_
    have hindex := @elem_index_lt nrows nbyteRow (ii + r) jj (by omega) hjj
    rw [Nat.add_assoc (jj * nrows)]
    exact moveByte_fills (place_lt (by omega) hjj) (by omega) (transposed_apply _ (by omega))
  refine (hblocks.bind hrest).mono ?_
  rintro p ⟨jj, hjj, row, hrow, rfl⟩
  by_cases hblock : jj < nbyteRow - nbyteRow % 16
  · exact .inl ⟨jj / 16, by omega, jj % 16, Nat.mod_lt jj (by decide), row, hrow, by
      rw [Nat.zero_add, Nat.div_add_mod']⟩
  · exact .inr ⟨jj, by omega, hjj, row, Nat.zero_le _, hrow, by rw [Nat.add_assoc]⟩

theorem transByteBitrowSse_processes (hsize : size % 8 = 0) (hsrc : size * elemSize ≤ src.length) :
    Processes (size * elemSize) (transposed (8 * elemSize) (size / 8) (byteOf src))
      {p | p < size * elemSize} fun out => transByteBitrowSse src out size elemSize := by
  obtain ⟨nbyteRow, rfl⟩ : ∃ nbyteRow, size = 8 * nbyteRow := ⟨size / 8, by omega⟩
  have hcount : 8 * nbyteRow * elemSize = elemSize * 8 * nbyteRow := by ring
  rw [hcount] at hsrc ⊢
  rw [Nat.mul_div_cancel_left _ (by decide), Nat.mul_comm 8 elemSize]
  have hloop : Fills (elemSize * 8 * nbyteRow) (transposed (elemSize * 8) nbyteRow (byteOf src))
      {p | ∃ k < elemSize, ∃ jj < nbyteRow, ∃ row < 8, p = jj * (elemSize * 8) + (k * 8 + row)}
      fun out => forStep 8 0 (elemSize * 8) out fun ii => bitrowRows src (elemSize * 8) nbyteRow ii :=
    fills_forStep_mul (by decide) fun k hk => bitrowRows_fills (by omega) hsrc
  refine ⟨_, hloop.mono fun p hp => ?_, fun out => ?_⟩
  · obtain ⟨row, hrow, jj, hjj, rfl⟩ := exists_place hp
    exact ⟨row / 8, by omega, jj, hjj, row % 8, Nat.mod_lt row (by decide), by
      rw [Nat.div_add_mod']⟩
  · unfold transByteBitrowSse
    dsimp only
    rw [if_neg (not_not.mpr hsize), Nat.mul_div_cancel_left _ (by decide), ← Int.natCast_mul, hcount,
      Nat.mul_comm 8 elemSize]
    rfl

theorem shuffleBitEightelemSse_processes (hsize : size % 8 = 0)
    (hsrc : size * elemSize ≤ src.length) :
    Processes (size * elemSize) (packBits (transposedEach (8 * elemSize) 8 (bitsFrom (byteOf src))))
      {p | p < size * elemSize} fun out => shuffleBitEightelemSse src out size elemSize := by
  unfold shuffleBitEightelemSse
  by_cases hodd : elemSize % 2 ≠ 0
  · obtain ⟨fill, hfill, hscalar⟩ := @shuffleBitEightelemScal_processes src size elemSize true hsize hsrc
    refine ⟨fill, hfill, fun out => ?_⟩
    have hrun : shuffleBitEightelemScal true src out size elemSize =
        fill out >>= fun out => .ok (((size * elemSize : Nat) : Int), out) := hscalar out
    dsimp only
    rw [if_neg (not_not.mpr hsize), if_pos hodd, hrun, bind_assoc, Int.natCast_mul]
    rfl
  · obtain ⟨nblocks, rfl⟩ : ∃ nblocks, size = 8 * nblocks := ⟨size / 8, by omega⟩
    obtain ⟨pairs, rfl⟩ : ∃ pairs, elemSize = 2 * pairs := ⟨elemSize / 2, by omega⟩
    have hcount : 8 * nblocks * (2 * pairs) = nblocks * (8 * (2 * pairs)) := by ring
    have hsixteen : 8 * (2 * pairs) = pairs * 16 := by ring
    rw [hcount] at hsrc ⊢
    have hplace : ∀ ii jj kk, (ii * (8 * (2 * pairs)) + jj * 16 / 8 + (7 - kk) * (2 * pairs)) / 2 * 2 =
        ii * (8 * (2 * pairs)) + 2 * jj + (7 - kk) * (2 * pairs) := by
      intro ii jj kk
      rw [show jj * 16 / 8 = 2 * jj by omega,
        show ii * (8 * (2 * pairs)) + 2 * jj + (7 - kk) * (2 * pairs) =
          2 * (ii * (8 * pairs) + jj + (7 - kk) * pairs) by ring, Nat.mul_div_cancel_left _ (by decide),
        Nat.mul_comm]
    have hword : ∀ ii < nblocks, ∀ jj < pairs, Fills (nblocks * (8 * (2 * pairs)))
        (packBits (transposedEach (8 * (2 * pairs)) 8 (bitsFrom (byteOf src))))
        {p | ∃ kk < 8, p = ii * (8 * (2 * pairs)) + 2 * jj + (7 - kk) * (2 * pairs) ∨
          p = ii * (8 * (2 * pairs)) + 2 * jj + (7 - kk) * (2 * pairs) + 1}
        (storeBits src (ii * (8 * (2 * pairs)) + jj * 16) fun kk =>
          (ii * (8 * (2 * pairs)) + jj * 16 / 8 + (7 - kk) * (2 * pairs)) / 2 * 2) := by
      intro ii hii jj hjj
      have hblock : (ii + 1) * (8 * (2 * pairs)) ≤ nblocks * (8 * (2 * pairs)) :=
        Nat.mul_le_mul_right _ hii
      rw [Nat.succ_mul] at hblock
      simp only [hplace]
      refine storeBits_fills (by omega) (fun kk hkk => ?_) (fun kk hkk m hm => ?_) fun kk hkk m hm => ?_
      · have hrow := @elem_index_lt 8 (2 * pairs) (7 - kk) (2 * jj + 1) (by omega) (by omega)
        omega
      · rw [testBit_eights (by omega) (by omega) hm]
        congr 3
        omega
      · rw [show ii * (8 * (2 * pairs)) + 2 * jj + (7 - kk) * (2 * pairs) + 1 =
          ii * (8 * (2 * pairs)) + (2 * jj + 1) + (7 - kk) * (2 * pairs) by omega,
          testBit_eights (by omega) (by omega) hm]
        congr 3
        omega
    have hloop : Fills (nblocks * (8 * (2 * pairs)))
        (packBits (transposedEach (8 * (2 * pairs)) 8 (bitsFrom (byteOf src))))
        {p | ∃ ii < nblocks, ∃ jj < pairs, ∃ kk < 8,
          p = ii * (8 * (2 * pairs)) + 2 * jj + (7 - kk) * (2 * pairs) ∨
            p = ii * (8 * (2 * pairs)) + 2 * jj + (7 - kk) * (2 * pairs) + 1}
        fun out => forStep (8 * (2 * pairs)) 0 (nblocks * (8 * (2 * pairs))) out fun ii out =>
          forStep 16 0 (8 * (2 * pairs)) out fun jj => storeBits src (ii + jj) fun kk =>
            (ii + jj / 8 + (7 - kk) * (2 * pairs)) / 2 * 2 := by
      rcases Nat.eq_zero_or_pos pairs with rfl | hpairs
      · intro out _
        simp only [forStep, Nat.mul_zero, Nat.div_zero, forRange_self, ends_pure]
        refine ⟨.refl out, ?_⟩
        rintro p ⟨ii, -, jj, hjj, -⟩
        exact absurd hjj (Nat.not_lt_zero jj)
      · refine fills_forStep_mul (by omega) fun ii hii => ?_
        have hinner : Fills (nblocks * (8 * (2 * pairs)))
            (packBits (transposedEach (8 * (2 * pairs)) 8 (bitsFrom (byteOf src))))
            {p | ∃ jj < pairs, ∃ kk < 8,
              p = ii * (8 * (2 * pairs)) + 2 * jj + (7 - kk) * (2 * pairs) ∨
                p = ii * (8 * (2 * pairs)) + 2 * jj + (7 - kk) * (2 * pairs) + 1}
            fun out => forStep 16 0 (pairs * 16) out fun jj =>
              storeBits src (ii * (8 * (2 * pairs)) + jj) fun kk =>
                (ii * (8 * (2 * pairs)) + jj / 8 + (7 - kk) * (2 * pairs)) / 2 * 2 :=
          fills_forStep_mul (by decide) fun jj hjj => hword ii hii jj hjj
        rw [← hsixteen] at hinner
        exact hinner
    refine ⟨_, hloop.mono fun p hp => ?_, fun out => ?_⟩
    · obtain ⟨rest, hrest, ii, hii, rfl⟩ := exists_place (Nat.mul_comm nblocks _ ▸ hp)
      obtain ⟨q, hq, row, hrow, rfl⟩ := exists_place (Nat.mul_comm 8 (2 * pairs) ▸ hrest)
      refine ⟨ii, hii, q / 2, by omega, 7 - row, by omega, ?_⟩
      rw [show 7 - (7 - row) = row by omega]
      omega
    · dsimp only
      rw [if_neg (not_not.mpr hsize), if_neg hodd, Nat.mul_comm (2 * pairs), ← Int.natCast_mul, hcount]
      rfl

end bitrows

section elements
variable {src out : List UInt8} {size elemSize : Nat} {malloc mallocInner : Malloc}
variable {tmpBuf : List.Vector UInt8 (size * elemSize)}

theorem transBitElemSse_eq (hmalloc : malloc (size * elemSize) = some tmpBuf)
    (hinner : ByChunks elemSize → ∃ tmpBuf, mallocInner (size * elemSize) = some tmpBuf)
    (hsize : size % 8 = 0) (hsrc : size * elemSize ≤ src.length) (hout : size * elemSize ≤ out.length) :
    transBitElemSse malloc mallocInner src out size elemSize = .ok (((size * elemSize : Nat) : Int),
      filled (size * elemSize) (bitTransposed size elemSize src) out) := by
  have hbytes : size * elemSize % 8 = 0 := by rw [Nat.mul_mod, hsize, Nat.zero_mul]
  have htmp : size * elemSize ≤ tmpBuf.toList.length := tmpBuf.toList_length.ge
  unfold transBitElemSse
  rw [if_neg (not_not.mpr hsize), hmalloc]
  dsimp only
  rw [transByteElemSse_eq hinner hsrc hout, ok_bind, if_neg (processed_nonneg _),
    (transBitByteSse_processes hbytes ((length_filled hout).symm ▸ hout)).all (fun i hi => hi) htmp,
    ok_bind, if_neg (processed_nonneg _), transBitrowEight_eq hsize
      ((length_filled htmp).symm ▸ htmp) ((length_filled hout).symm ▸ hout), filled_filled,
    filled_congr (transBitrows_eq hsize)]

theorem untransBitElemSse_eq (hmalloc : malloc (size * elemSize) = some tmpBuf)
    (hsize : size % 8 = 0) (hsrc : size * elemSize ≤ src.length) (hout : size * elemSize ≤ out.length) :
    untransBitElemSse malloc src out size elemSize = .ok (((size * elemSize : Nat) : Int),
      filled (size * elemSize) (bitUntransposed size elemSize src) out) := by
  have htmp : size * elemSize ≤ tmpBuf.toList.length := tmpBuf.toList_length.ge
  unfold untransBitElemSse
  rw [if_neg (not_not.mpr hsize), hmalloc]
  dsimp only
  rw [(transByteBitrowSse_processes hsize hsrc).all (fun i hi => hi) htmp, ok_bind,
    if_neg (processed_nonneg _), (shuffleBitEightelemSse_processes hsize
      ((length_filled htmp).symm ▸ htmp)).all (fun i hi => hi) hout,
    filled_congr (untransBitrows_eq hsize)]

end elements

end TonCompress.Shuffle
