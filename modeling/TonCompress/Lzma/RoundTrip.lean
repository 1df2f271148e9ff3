import TonCompress.Lzma.Follow

/-! What `tinyLzmaCompress` writes, `tinyLzmaDecompress` reads. -/
namespace TonCompress.Lzma
open TonCompress.Lib

section loop
variable {src dst : List UInt8} {dstLen : Nat}

theorem EncodeVars.fresh_sound (src : List UInt8) (dstLen : Nat) :
    (EncodeVars.fresh dstLen false).Sound src dstLen :=
  ⟨Encoder.fresh_sound dstLen, Nat.zero_le _, Nat.succ_pos 11, repsSound_fresh, .inl rfl, rfl⟩

theorem lzmaEncodeRound_none {v : EncodeVars} (hv : v.Sound src dstLen)
    (hend : src.length ≤ v.pos) : lzmaEncodeRound src v = .ok none := by
  unfold lzmaEncodeRound
  rw [packetContext_eq hv.pos_le hv.reps, ok_bind]
  dsimp only
  rw [if_pos hend, if_pos hv.withEndMark]
  rfl

/-- The loop ends, at the end of the source or with the overflow flag. In the
first case the decoder's loop ends as well. -/
theorem lzmaEncodeLoop_ends (hroom : src.length ≤ dst.length) (hsize : src.length < 2 ^ 64)
    {fuel : Nat} {v : EncodeVars} (hv : v.Sound src dstLen)
    (hfuel : src.length < v.pos + fuel) :
    ∃ v', lzmaEncodeLoop src fuel v = .ok v' ∧ v'.Sound src dstLen ∧
      ∀ out, (rangeChannel ProbCell dstLen).Leads v'.enc out →
        (rangeChannel ProbCell dstLen).Leads v.enc out ∧
        ∀ d fuel', Follows src dst out dstLen v d → src.length < v.pos + fuel' →
          ∃ d', lzmaDecodeLoop lzmaParams src.length fuel' d = .ok (.ok, d') ∧
            d'.pos = src.length ∧ d'.dst = writeTo dst src := by
  induction fuel generalizing v with
  | zero => exact absurd hv.pos_le (by omega)
  | succ fuel ih =>
    rw [lzmaEncodeLoop]
    by_cases hoverflow : v.enc.coder.overflow = true
    · rw [if_pos hoverflow]
      refine ⟨v, rfl, hv, ?_⟩
      intro out hleads
      have hfalse : v.enc.coder.overflow = false := hleads.overflow_eq
      rw [hfalse] at hoverflow
      cases hoverflow
    · rw [if_neg hoverflow]
      by_cases hend : src.length ≤ v.pos
      · rw [lzmaEncodeRound_none hv hend]
        refine ⟨v, rfl, hv, ?_⟩
        intro out hleads
        refine ⟨hleads, ?_⟩
        intro d fuel' hd hfuel'
        have hpos : v.pos = src.length := Nat.le_antisymm hv.pos_le hend
        obtain ⟨fuel', rfl⟩ := Nat.exists_eq_succ_of_ne_zero (by omega : fuel' ≠ 0)
        refine ⟨d, ?_, hd.pos_eq.trans hpos, ?_⟩
        · exact lzmaDecodeLoop_full (hd.pos_eq ▸ hend)
        · rw [hd.dst_eq, hpos, List.take_length]
      · obtain ⟨v₁, hround, hv₁, hlt, hback⟩ :=
          @lzmaEncodeRound_next src dst dstLen v hv (by omega) hroom hsize
        obtain ⟨v', hloop, hv', hback'⟩ := ih hv₁ (by omega)
        rw [hround]
        refine ⟨v', hloop, hv', ?_⟩
        intro out hleads
        obtain ⟨hleads₁, hdecode'⟩ := hback' out hleads
        obtain ⟨hleads₀, hdecode⟩ := hback out hleads₁
        refine ⟨hleads₀, ?_⟩
        intro d fuel' hd hfuel'
        obtain ⟨fuel', rfl⟩ := Nat.exists_eq_succ_of_ne_zero (by omega : fuel' ≠ 0)
        obtain ⟨d₁, hround', hd₁⟩ := hdecode d hd
        obtain ⟨d', hloop', hd'⟩ := hdecode' d₁ fuel' hd₁ (by omega)
        refine ⟨d', ?_, hd'⟩
        rw [lzmaDecodeLoop_next (hd.pos_eq ▸ Nat.not_le.mp hend) hround']
        exact hloop'

/-- An encoder that ends well has all of its bytes out. -/
theorem lzmaEncode_ok {v : EncodeVars} {bytes : List UInt8}
    (hloop : lzmaEncodeLoop src (src.length + 3) (.fresh dstLen false) = .ok v)
    (hencode : lzmaEncode src dstLen false = .ok (.ok, bytes)) :
    (rangeEncodeTerminate v.enc.coder).overflow = false ∧
      (rangeEncodeTerminate v.enc.coder).dst = bytes := by
  unfold lzmaEncode at hencode
  rw [hloop, ok_bind] at hencode
  obtain ⟨hret, hbytes⟩ := Prod.mk.inj (Except.ok.inj hencode)
  refine ⟨?_, hbytes⟩
  cases hover : (rangeEncodeTerminate v.enc.coder).overflow with
  | false => rfl
  | true =>
    rw [hover, if_pos rfl] at hret
    cases hret

theorem lzmaDecode_lzmaEncode (hroom : src.length ≤ dst.length) (hsize : src.length < 2 ^ 64)
    (hcapacity : dstLen + 1 < rangeCodeCacheSizeMax) {bytes : List UInt8}
    (hencode : lzmaEncode src dstLen false = .ok (.ok, bytes)) :
    lzmaDecode bytes dst src.length lzmaParams =
      .ok ⟨.ok, writeTo dst src, src.length⟩ := by
  obtain ⟨v, hloop, hv, hback⟩ := @lzmaEncodeLoop_ends src dst dstLen hroom hsize
    (src.length + 3) _ (EncodeVars.fresh_sound src dstLen) (by omega)
  have hterminate := lzmaEncode_ok hloop hencode
  obtain ⟨hsound, hdstLen, -⟩ := hv.channel
  have hleads := rangeEncodeTerminate_leads hsound (by rw [hdstLen]; exact hcapacity) hterminate.1
  rw [hterminate.2] at hleads
  obtain ⟨hleads₀, hdecode⟩ := hback bytes hleads
  have hstart : Follows src dst bytes dstLen (EncodeVars.fresh dstLen false)
      (DecodeVars.fresh bytes dst) :=
    ⟨⟨rfl, rfl, rfl, rfl, rfl⟩, newRangeDecoder_synced hleads₀, rfl⟩
  obtain ⟨d, hrun, hpos, hdst⟩ := hdecode _ (src.length + 1) hstart (by omega)
  unfold lzmaDecode
  rw [hrun, ok_bind]
  dsimp only
  rw [if_pos rfl, hpos, hdst]
  rfl

end loop

section header
variable {len : Nat}

theorem readSrc_lzmaHeader (payload : List UInt8) {i : Nat} (hi : i < 8) :
    readSrc (lzmaHeader len true ++ payload) ((5 + i : Nat) : Int) =
      .ok (len / 2 ^ (8 * i) % 256) := by
  have hbyte : (lzmaHeader len true ++ payload)[5 + i]? =
      some (UInt8.ofNat (len >>> (i * 8))) := by
    have hlength : (lzmaHeader len true).length = 13 := rfl
    rw [List.getElem?_append_left (by omega)]
    have hfront : 5 ≤ 5 + i := Nat.le_add_right 5 i
    unfold lzmaHeader
    rw [List.getElem?_append_right hfront]
    simp [hi]
  unfold readSrc
  rw [vecGet_of_eq _ _ _ _ hbyte, ok_bind, Nat.shiftRight_eq_div_pow, Nat.mul_comm]
  exact congrArg Except.ok UInt8.toNat_ofNat'

theorem mod_byte_step (i : Nat) :
    len % 2 ^ (8 * (i + 1)) = 2 ^ (8 * i) * (len / 2 ^ (8 * i) % 256) + len % 2 ^ (8 * i) := by
  rw [Nat.mul_succ, pow_add, Nat.mod_mul, Nat.add_comm]
  rfl

theorem headerLen_lzmaHeader (hlen : len < 2 ^ 64) (payload : List UInt8) :
    headerLen (lzmaHeader len true ++ payload) = .ok len := by
  have hloop : Returns (headerLen (lzmaHeader len true ++ payload))
      (· = len % 2 ^ (8 * 8)) := by
    unfold headerLen
    apply forRange_ends (fun i n => n = len % 2 ^ (8 * i)) (Nat.zero_le _)
    · rw [Nat.mul_zero, pow_zero, Nat.mod_one]
    · rintro i _ - hi rfl
      have hlt := Nat.mod_lt len (Nat.two_pow_pos (8 * i))
      have hshift : i <<< 3 = 8 * i := by
        rw [Nat.shiftLeft_eq, Nat.mul_comm]
      have hvalue : len % 2 ^ (8 * i) ||| (len / 2 ^ (8 * i) % 256) <<< (i <<< 3) =
          len % 2 ^ (8 * (i + 1)) := by
        rw [hshift, Nat.shiftLeft_eq, Nat.mul_comm _ (2 ^ (8 * i)), Nat.or_comm,
          ← Nat.two_pow_add_eq_or_of_lt hlt, ← mod_byte_step]
      rw [readSrc_lzmaHeader payload hi]
      exact hvalue
  rw [Nat.mod_eq_of_lt hlen] at hloop
  exact returns_eq_iff.mp hloop

/-- The length counts as unknown when all its bytes are `0xFF`. -/
theorem known_lzmaHeader (hlen : len < 2 ^ 64) (payload : List UInt8) :
    forRange 0 8 false (fun i known => do
      let byte ← readSrc (lzmaHeader len true ++ payload) ((5 + i : Nat) : Int)
      return known || decide (byte ≠ 0xFF)) = .ok (decide (len ≠ 2 ^ 64 - 1)) := by
  have hloop : Returns (forRange 0 8 false fun i known => do
      let byte ← readSrc (lzmaHeader len true ++ payload) ((5 + i : Nat) : Int)
      return known || decide (byte ≠ 0xFF)) (· = decide (len % 2 ^ (8 * 8) ≠ 2 ^ (8 * 8) - 1)) := by
    apply forRange_ends (fun i known => known = decide (len % 2 ^ (8 * i) ≠ 2 ^ (8 * i) - 1))
      (Nat.zero_le _)
    · rw [Nat.mul_zero, pow_zero, Nat.mod_one]
      rfl
    · rintro i _ - hi rfl
      have hlt := Nat.mod_lt len (Nat.two_pow_pos (8 * i))
      have hbyte : len / 2 ^ (8 * i) % 256 < 256 := Nat.mod_lt _ (by decide)
      have hpow : 2 ^ (8 * (i + 1)) = 256 * 2 ^ (8 * i) := by
        rw [Nat.mul_succ, pow_add, Nat.mul_comm]
        rfl
      rw [readSrc_lzmaHeader payload hi, mod_byte_step, hpow]
      generalize len / 2 ^ (8 * i) % 256 = byte at *
      generalize len % 2 ^ (8 * i) = low at *
      generalize 2 ^ (8 * i) = base at *
      change (decide (low ≠ base - 1) || decide (byte ≠ 255)) = decide _
      rw [← Bool.decide_or, decide_eq_decide]
      by_cases hfull : byte = 255
      · subst hfull
        omega
      · have hless : base * byte ≤ base * 254 := Nat.mul_le_mul_left base (by omega)
        omega
  rw [Nat.mod_eq_of_lt hlen] at hloop
  exact returns_eq_iff.mp hloop

theorem parseLzmaHeader_lzmaHeader (hlen : len < 2 ^ 64) (payload : List UInt8) :
    parseLzmaHeader (lzmaHeader len true ++ payload) =
      .ok (.ok, ⟨lzmaParams, if len ≠ 2 ^ 64 - 1 then len else 0, decide (len ≠ 2 ^ 64 - 1)⟩) := by
  unfold parseLzmaHeader
  have hfirst : readSrc (lzmaHeader len true ++ payload) 0 = .ok 8 := rfl
  rw [hfirst, ok_bind, known_lzmaHeader hlen, ok_bind]
  by_cases hknown : len ≠ 2 ^ 64 - 1
  · rw [decide_eq_true hknown, if_pos rfl, headerLen_lzmaHeader hlen, if_pos hknown]
    rfl
  · rw [decide_eq_false hknown, if_neg Bool.false_ne_true, if_neg hknown]
    rfl

end header

section whole
variable {src dst dst' buf : List UInt8} {k : Nat}

theorem tinyLzmaCompress_ok (hdst : dst.length < 2 ^ 64)
    (h : tinyLzmaCompress src dst = .ok ⟨.ok, buf, k⟩) :
    ∃ bytes dstLen, dstLen + 1 < rangeCodeCacheSizeMax ∧
      lzmaEncode src dstLen false = .ok (.ok, bytes) ∧
      buf.take k = lzmaHeader src.length true ++ bytes := by
  unfold tinyLzmaCompress tinyLzmaCompressMalloc at h
  by_cases hshort : dst.length < lzmaHeaderLen
  · rw [if_pos hshort] at h
    cases h
  · rw [if_neg hshort] at h
    obtain ⟨⟨ret, bytes⟩, hencode, h⟩ := bind_eq_ok.mp h
    dsimp only at h
    by_cases hret : ret = .ok
    · subst hret
      rw [if_neg (not_not.mpr rfl)] at h
      cases h
      refine ⟨bytes, dst.length - lzmaHeaderLen, ?_, hencode, ?_⟩
      · have hheader : lzmaHeaderLen = 13 := rfl
        unfold rangeCodeCacheSizeMax
        omega
      · have hlength : lzmaHeaderLen + bytes.length =
            (lzmaHeader src.length true ++ bytes).length := by
          rw [List.length_append]
          rfl
        rw [hlength]
        exact List.take_left
    · rw [if_pos hret] at h
      cases h
      exact absurd rfl hret

theorem tinyLzmaDecompress_encoded (hsrc : src.length < 2 ^ 64) {bytes : List UInt8} {dstLen : Nat}
    (hcapacity : dstLen + 1 < rangeCodeCacheSizeMax)
    (hencode : lzmaEncode src dstLen false = .ok (.ok, bytes))
    (hroom : src.length ≤ dst.length) (hdst : dst.length < 2 ^ 64) :
    tinyLzmaDecompress (lzmaHeader src.length true ++ bytes) dst =
      .ok ⟨.ok, writeTo dst src, src.length⟩ := by
  have hheader : (lzmaHeader src.length true).length = lzmaHeaderLen := rfl
  have hdecode := lzmaDecode_lzmaEncode hroom hsrc hcapacity hencode
  have hdrop : (lzmaHeader src.length true ++ bytes).drop lzmaHeaderLen = bytes :=
    List.drop_left' hheader
  unfold tinyLzmaDecompress tinyLzmaDecompressMalloc
  rw [if_neg (by rw [List.length_append]; omega), parseLzmaHeader_lzmaHeader hsrc, ok_bind,
    hdrop]
  dsimp only
  rw [if_neg (not_not.mpr rfl)]
  by_cases hknown : src.length ≠ 2 ^ 64 - 1
  · rw [decide_eq_true hknown, if_pos hknown, if_neg (by omega), if_pos rfl,
      lzmaDecodeMalloc_true, hdecode, ok_bind]
    dsimp only
    rw [if_neg (by omega)]
    rfl
  · -- no length is left to be written: the buffer has the length of the source
    have hlength : dst.length = src.length := by omega
    rw [decide_eq_false hknown, if_neg (fun h => Bool.false_ne_true h.1),
      if_neg Bool.false_ne_true, hlength, lzmaDecodeMalloc_true, hdecode, ok_bind]
    dsimp only
    rw [if_neg (fun h => Bool.false_ne_true h.2.1)]
    rfl

/-- The bytes of a successful compression decompress to the source, in any
buffer that has room for it. -/
theorem tinyLzmaDecompress_tinyLzmaCompress (hsrc : src.length < 2 ^ 64)
    (hdst : dst.length < 2 ^ 64) (hcompress : tinyLzmaCompress src dst = .ok ⟨.ok, buf, k⟩)
    (hroom : src.length ≤ dst'.length) (hdst' : dst'.length < 2 ^ 64) :
    ∃ out, tinyLzmaDecompress (buf.take k) dst' = .ok ⟨.ok, out, src.length⟩ ∧
      out.take src.length = src := by
  obtain ⟨bytes, dstLen, hcapacity, hencode, hbuf⟩ := tinyLzmaCompress_ok hdst hcompress
  refine ⟨writeTo dst' src, ?_, List.take_left⟩
  rw [hbuf]
  exact tinyLzmaDecompress_encoded hsrc hcapacity hencode hroom hdst'

/-- `abc_bcdefgh_abcdefgh________`: at the second `abc` a match of three is put off for
one of eight a byte later, and the end is copied from the byte before it. -/
def deferredText : List UInt8 :=
  [97, 98, 99, 95, 98, 99, 100, 101, 102, 103, 104, 95, 97, 98, 99, 100, 101, 102, 103, 104,
    95, 95, 95, 95, 95, 95, 95, 95]

/-- Its header and stream, in a buffer of 48 bytes. -/
def deferredStream : List UInt8 :=
  [8, 0, 0, 0, 64, 28, 0, 0, 0, 0, 0, 0, 0, 0, 48, 153, 77, 147, 23, 255, 26, 216, 129, 225, 58,
    195, 223, 195, 238, 255, 193, 5, 24, 0, 0, 7, 7, 7, 7, 7, 7, 7, 7, 7, 7, 7, 7, 7]

theorem tinyLzmaDecompress_tinyLzmaCompress_deferred :
    tinyLzmaCompress deferredText (List.replicate 48 7) = .ok ⟨.ok, deferredStream, 35⟩ ∧
      ∃ out, tinyLzmaDecompress (deferredStream.take 35) (List.replicate 30 0) =
        .ok ⟨.ok, out, 28⟩ ∧ out.take 28 = deferredText := by
  have hcompress : tinyLzmaCompress deferredText (List.replicate 48 7) =
      .ok ⟨.ok, deferredStream, 35⟩ := by decide +kernel
  exact ⟨hcompress, tinyLzmaDecompress_tinyLzmaCompress (by decide) (by decide) hcompress
    (by decide) (by decide)⟩

end whole

end TonCompress.Lzma
