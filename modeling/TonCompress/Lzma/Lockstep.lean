import TonCompress.Lzma.Carry

/-! The range decoder follows the range encoder. -/
namespace TonCompress.Lzma
open TonCompress.Lib

/-- `out` lies in the encoder's interval: it can still come out. -/
structure RangeEncoder.Leads (e : RangeEncoder) (out : List UInt8) : Prop where
  overflow_eq : e.overflow = false
  length_lt : out.length < rangeCodeCacheSizeMax
  fits : ∃ rest, out.length = e.count + 4 + rest ∧ e.lowValue * 256 ^ rest ≤ beValue out ∧
    beValue out < (e.lowValue + e.range) * 256 ^ rest

/-- The decoder has the encoder's range, and its code is what the bytes read so
far exceed the low end by. -/
structure RangeEncoder.Synced (e : RangeEncoder) (out : List UInt8) (d : RangeDecoder) : Prop where
  overflow_eq : d.overflow = false
  range_eq : d.range = e.range
  src_eq : d.src = out.drop (e.count + 4)
  code_eq : e.lowValue + d.code = beValue (out.take (e.count + 4))

section steps
variable {e : RangeEncoder} {out : List UInt8} {d : RangeDecoder}

theorem RangeEncoder.Leads.code_lt (h : e.Leads out) (hd : e.Synced out d) : d.code < e.range := by
  obtain ⟨rest, hlength, -, hlt⟩ := h.fits
  have hsplit := beValue_append (out.take (e.count + 4)) (out.drop (e.count + 4))
  rw [List.take_append_drop, List.length_drop, hlength, Nat.add_sub_cancel_left] at hsplit
  have hcode := hd.code_eq
  have hbelow : beValue (out.take (e.count + 4)) < e.lowValue + e.range := by
    apply @Nat.lt_of_mul_lt_mul_right (256 ^ rest)
    omega
  omega

theorem RangeEncoder.Sound.normalize (h : e.Sound) :
    (rangeEncodeNormalize e).Sound ∧ 2 ^ 24 ≤ (rangeEncodeNormalize e).range ∧
      (rangeEncodeNormalize e).dstLen = e.dstLen ∧
      ∀ out, (rangeEncodeNormalize e).Leads out → e.Leads out ∧
        ∀ d, e.Synced out d → (rangeEncodeNormalize e).Synced out (rangeDecodeNormalize d) := by
  have hthreshold : rangeCodeNormalizeThreshold = 2 ^ 24 := rfl
  have hrangeGe := h.range_ge
  by_cases hrange : e.range < rangeCodeNormalizeThreshold
  · obtain ⟨hvalid, hwide, hlen, -, -, -, -, hvalue⟩ := rangeEncodeNormalize_spec h.toValid hrange
    generalize rangeEncodeNormalize e = e' at *
    refine ⟨⟨hvalid, by omega⟩, by omega, hlen, ?_⟩
    intro out hleads
    obtain ⟨hoverflow, hlength, rest, hcount, hge, hlt⟩ := hleads
    obtain ⟨hoverflow', hcount', hlow⟩ := hvalue hoverflow (by omega)
    have hleads' : e.Leads out := by
      refine ⟨hoverflow', hlength, rest + 1, by omega, ?_, ?_⟩
      · rw [pow_succ', ← Nat.mul_assoc, Nat.mul_comm e.lowValue, ← hlow]
        exact hge
      · rw [pow_succ', ← Nat.mul_assoc, Nat.mul_comm _ 256, Nat.mul_add, ← hlow, ← hwide]
        exact hlt
    refine ⟨hleads', ?_⟩
    intro d hd
    have hcode := hleads'.code_lt hd
    obtain ⟨hd1, hd2, hd3, hd4⟩ := hd
    have hnext : e.count + 4 < out.length := by omega
    have hbyte := out[e.count + 4].toNat_lt
    have hdrop : d.src = out[e.count + 4] :: out.drop (e'.count + 4) := by
      rw [hd3, List.drop_eq_getElem_cons hnext, hcount']
    have hor : ((d.code <<< 8) % 2 ^ 32) ||| out[e.count + 4].toNat =
        256 * d.code + out[e.count + 4].toNat := by
      have hor' := @Nat.two_pow_add_eq_or_of_lt 8 _ hbyte d.code
      rw [Nat.shiftLeft_eq, Nat.mod_eq_of_lt (by omega), Nat.mul_comm, ← hor']
    unfold rangeDecodeNormalize
    rw [if_pos (hd2 ▸ hrange), hdrop]
    constructor
    · exact hd1
    · dsimp only
      rw [hd2, hwide, Nat.shiftLeft_eq]
      omega
    · rfl
    · dsimp only
      have htake : out.take (e'.count + 4) = out.take (e.count + 4) ++ [out[e.count + 4]] := by
        rw [hcount', Nat.add_right_comm, List.take_add_one, List.getElem?_eq_getElem hnext]
        rfl
      rw [hor, htake, beValue_append, beValue_singleton, List.length_singleton, ← hd4, hlow]
      omega
  · have hge := Nat.not_lt.mp hrange
    rw [rangeEncodeNormalize_of_ge hge]
    refine ⟨h, by omega, rfl, ?_⟩
    intro out hleads
    refine ⟨hleads, ?_⟩
    intro d hd
    unfold rangeDecodeNormalize
    rw [if_neg (hd.range_eq ▸ hrange)]
    exact hd

def RangeEncoder.narrow (e : RangeEncoder) (offset size : Nat) : RangeEncoder :=
  { rangeEncodeAdd e offset with range := size }

theorem RangeEncoder.Sound.narrow (h : e.Sound) {offset size : Nat}
    (hfits : offset + size ≤ e.range) (hsize : 2 ^ 16 ≤ size) :
    (e.narrow offset size).Sound ∧
      ∀ out, (e.narrow offset size).Leads out → e.Leads out ∧
        ∀ d, e.Synced out d → offset ≤ d.code ∧ d.code < offset + size ∧
          (e.narrow offset size).Synced out { d with range := size, code := d.code - offset } := by
  obtain ⟨⟨hroom, hcache, hmsb, hlsb, hpos, hlt, hhigh, hcarry⟩, hge⟩ := h
  have hlow : (e.narrow offset size).low = e.low + offset := by
    unfold RangeEncoder.narrow rangeEncodeAdd
    unfold RangeEncoder.low at hhigh ⊢
    dsimp only
    split <;> omega
  have hcount : (e.narrow offset size).count = e.count := rfl
  have hvalue : (e.narrow offset size).lowValue = e.lowValue + offset := by
    have hdigits : (e.narrow offset size).digits = e.digits := rfl
    rw [RangeEncoder.lowValue, hlow, hdigits, ← Nat.add_assoc]
    rfl
  have hrange : (e.narrow offset size).range = size := rfl
  refine ⟨⟨⟨hroom, hcache, ?_, ?_, hpos, ?_, ?_, ?_⟩, hsize⟩, ?_⟩
  · unfold RangeEncoder.narrow rangeEncodeAdd
    dsimp only
    split
    · exact le_rfl
    · exact hmsb
  · exact Nat.mod_lt _ (Nat.two_pow_pos 32)
  · rw [hrange]
    omega
  · rw [hlow, hrange]
    omega
  · intro hmax
    have hbound := hcarry hmax
    rw [hlow, hrange]
    omega
  · intro out hleads
    obtain ⟨hoverflow, hlength, rest, hsum, hlowLe, hhighLt⟩ := id hleads
    rw [hvalue] at hlowLe hhighLt
    have hleads' : e.Leads out := by
      refine ⟨hoverflow, hlength, rest, hsum, ?_, ?_⟩
      · exact (Nat.mul_le_mul_right _ (Nat.le_add_right _ _)).trans hlowLe
      · apply hhighLt.trans_le
        apply Nat.mul_le_mul_right
        omega
    refine ⟨hleads', ?_⟩
    intro d hd
    have hcode := hd.code_eq
    have hsplit := beValue_append (out.take (e.count + 4)) (out.drop (e.count + 4))
    rw [List.take_append_drop, List.length_drop, hsum, hcount, Nat.add_sub_cancel_left,
      ← hcode] at hsplit
    have hlast := beValue_lt (out.drop (e.count + 4))
    rw [List.length_drop, hsum, hcount, Nat.add_sub_cancel_left] at hlast
    have hoffset : offset ≤ d.code := by
      have hupper : (e.lowValue + offset) * 256 ^ rest < (e.lowValue + d.code + 1) * 256 ^ rest := by
        rw [Nat.add_mul _ 1, Nat.one_mul]
        omega
      have hless := Nat.lt_of_mul_lt_mul_right hupper
      omega
    have hsynced : (e.narrow offset size).Synced out
        { d with range := size, code := d.code - offset } := by
      refine ⟨hd.overflow_eq, rfl, hd.src_eq, ?_⟩
      rw [hvalue, hcount, ← hcode]
      dsimp only
      omega
    refine ⟨hoffset, ?_, hsynced⟩
    have hnew := hleads.code_lt hsynced
    dsimp only at hnew
    omega

end steps

structure ProbSound (prob : Nat) : Prop where
  ge : 31 ≤ prob
  le : prob ≤ 2017

theorem ProbSound.raise {prob : Nat} (h : ProbSound prob) :
    ProbSound (prob + ((rangeCodeBitModelTotal - prob) >>> rangeCodeMoveBits)) := by
  have htotal : rangeCodeBitModelTotal = 2048 := rfl
  have hmove : rangeCodeMoveBits = 5 := rfl
  obtain ⟨hge, hle⟩ := h
  rw [htotal, hmove, Nat.shiftRight_eq_div_pow]
  constructor <;> omega

theorem ProbSound.fall {prob : Nat} (h : ProbSound prob) :
    ProbSound (prob - (prob >>> rangeCodeMoveBits)) := by
  have hmove : rangeCodeMoveBits = 5 := rfl
  obtain ⟨hge, hle⟩ := h
  rw [hmove, Nat.shiftRight_eq_div_pow]
  constructor <;> omega

section bits
variable {e : RangeEncoder}

theorem RangeEncoder.narrow_zero (h : e.lowLsb < 2 ^ 32) (size : Nat) :
    e.narrow 0 size = { e with range := size } := by
  unfold RangeEncoder.narrow rangeEncodeAdd
  rw [Nat.add_zero, Nat.mod_eq_of_lt h, if_neg (Nat.lt_irrefl _)]

theorem bound_wide {range prob : Nat} (hge : 2 ^ 24 ≤ range) (h : ProbSound prob) :
    2 ^ 16 ≤ (range >>> rangeCodeNBitModelTotalBits) * prob ∧
      2 ^ 16 + (range >>> rangeCodeNBitModelTotalBits) * prob ≤ range := by
  have hbits : rangeCodeNBitModelTotalBits = 11 := rfl
  have hfloor : 2 ^ 13 ≤ range / 2 ^ 11 := by omega
  have hrange : range / 2 ^ 11 * 2 ^ 11 ≤ range := Nat.div_mul_le_self _ _
  rw [hbits, Nat.shiftRight_eq_div_pow]
  generalize range / 2 ^ 11 = unit at hfloor hrange
  have hlow := Nat.mul_le_mul hfloor h.ge
  have hhigh := Nat.mul_le_mul_left unit h.le
  constructor <;> omega

theorem rangeEncodeBit_narrow (h : e.Sound) (prob : Nat) (bit : Bool) :
    (rangeEncodeBit e prob bit).1 = (rangeEncodeNormalize e).narrow
      (if bit then ((rangeEncodeNormalize e).range >>> rangeCodeNBitModelTotalBits) * prob else 0)
      (if bit then (rangeEncodeNormalize e).range -
          ((rangeEncodeNormalize e).range >>> rangeCodeNBitModelTotalBits) * prob
        else ((rangeEncodeNormalize e).range >>> rangeCodeNBitModelTotalBits) * prob) := by
  cases bit with
  | false => exact (RangeEncoder.narrow_zero h.normalize.1.lsb_lt _).symm
  | true => rfl

theorem rangeEncodeBit_fits {range prob : Nat} (hge : 2 ^ 24 ≤ range) (h : ProbSound prob)
    (bit : Bool) :
    (if bit then (range >>> rangeCodeNBitModelTotalBits) * prob else 0) +
        (if bit then range - (range >>> rangeCodeNBitModelTotalBits) * prob
          else (range >>> rangeCodeNBitModelTotalBits) * prob) ≤ range ∧
      2 ^ 16 ≤ if bit then range - (range >>> rangeCodeNBitModelTotalBits) * prob
        else (range >>> rangeCodeNBitModelTotalBits) * prob := by
  obtain ⟨hwide, hwide'⟩ := bound_wide hge h
  split <;> omega

theorem rangeEncodeBit_spec (h : e.Sound) {prob : Nat} (hprob : ProbSound prob) (bit : Bool) :
    (rangeEncodeBit e prob bit).1.Sound ∧ ProbSound (rangeEncodeBit e prob bit).2 ∧
      (rangeEncodeBit e prob bit).1.dstLen = e.dstLen ∧
      ∀ out, (rangeEncodeBit e prob bit).1.Leads out → e.Leads out ∧
        ∀ d, e.Synced out d → ∃ d', (rangeEncodeBit e prob bit).1.Synced out d' ∧
          rangeDecodeBit d prob = (bit, d', (rangeEncodeBit e prob bit).2) := by
  obtain ⟨hsound, hge, hlen, hnormal⟩ := h.normalize
  obtain ⟨hfits, hsize⟩ := rangeEncodeBit_fits hge hprob bit
  obtain ⟨hnarrow, hback⟩ := hsound.narrow hfits hsize
  have hprob' : (rangeEncodeBit e prob bit).2 =
      if bit then prob - (prob >>> rangeCodeMoveBits)
      else prob + ((rangeCodeBitModelTotal - prob) >>> rangeCodeMoveBits) := by
    cases bit <;> rfl
  rw [rangeEncodeBit_narrow h, hprob']
  refine ⟨hnarrow, ?_, hlen, ?_⟩
  · split
    · exact hprob.fall
    · exact hprob.raise
  intro out hleads
  obtain ⟨hleads', hsync⟩ := hback out hleads
  obtain ⟨hleads'', hdecode⟩ := hnormal out hleads'
  refine ⟨hleads'', ?_⟩
  intro d hd
  have hd' := hdecode d hd
  obtain ⟨hle, hlt, hsync'⟩ := hsync _ hd'
  refine ⟨_, hsync', ?_⟩
  unfold rangeDecodeBit
  dsimp only
  rw [hd'.range_eq]
  cases bit with
  | false =>
    simp only [Bool.false_eq_true, if_false, Nat.zero_add] at hlt
    rw [if_pos hlt]
    rfl
  | true =>
    simp only [if_true] at hle
    rw [if_neg (Nat.not_lt.mpr hle)]
    rfl

/-- The subtraction of a fixed bit wraps around exactly when the code is low. -/
theorem fixed_wrapped_low {code half : Nat} (hhalf : half ≤ 2 ^ 31) (hcode : code < half) :
    ((code + (2 ^ 32 - half)) % 2 ^ 32).testBit 31 = true ∧
      ((code + (2 ^ 32 - half)) % 2 ^ 32 + half) % 2 ^ 32 = code := by
  have hwrapped : (code + (2 ^ 32 - half)) % 2 ^ 32 = code + (2 ^ 32 - half) := by omega
  rw [hwrapped, Nat.testBit_eq_decide_div_mod_eq, decide_eq_true_iff]
  constructor <;> omega

theorem fixed_wrapped_high {code half : Nat} (hhalf : half ≤ 2 ^ 31) (hle : half ≤ code)
    (hcode : code < half + half) :
    ((code + (2 ^ 32 - half)) % 2 ^ 32).testBit 31 = false ∧
      (code + (2 ^ 32 - half)) % 2 ^ 32 = code - half := by
  have hwrapped : (code + (2 ^ 32 - half)) % 2 ^ 32 = code - half := by omega
  rw [hwrapped, Nat.testBit_eq_decide_div_mod_eq, decide_eq_false_iff_not]
  constructor <;> omega

theorem rangeEncodeFixedBit_narrow (h : e.Sound) (bit : Bool) :
    rangeEncodeFixedBit e bit = (rangeEncodeNormalize e).narrow
      (if bit then (rangeEncodeNormalize e).range >>> 1 else 0)
      ((rangeEncodeNormalize e).range >>> 1) := by
  cases bit with
  | false => exact (RangeEncoder.narrow_zero h.normalize.1.lsb_lt _).symm
  | true => rfl

theorem rangeEncodeFixedBit_fits {range : Nat} (hge : 2 ^ 24 ≤ range) (bit : Bool) :
    (if bit then range >>> 1 else 0) + range >>> 1 ≤ range ∧ 2 ^ 16 ≤ range >>> 1 := by
  have hhalf : range >>> 1 = range / 2 := Nat.shiftRight_eq_div_pow _ _
  split <;> omega

theorem rangeEncodeFixedBit_spec (h : e.Sound) (bit : Bool) :
    (rangeEncodeFixedBit e bit).Sound ∧ (rangeEncodeFixedBit e bit).dstLen = e.dstLen ∧
      ∀ out, (rangeEncodeFixedBit e bit).Leads out → e.Leads out ∧
        ∀ d, e.Synced out d → ∃ d', (rangeEncodeFixedBit e bit).Synced out d' ∧
          rangeDecodeFixedBit d = (bit, d') := by
  obtain ⟨hsound, hge, hlen, hnormal⟩ := h.normalize
  obtain ⟨hfits, hsize⟩ := rangeEncodeFixedBit_fits hge bit
  obtain ⟨hnarrow, hback⟩ := hsound.narrow hfits hsize
  have hlt := hsound.range_lt
  have hhalf : (rangeEncodeNormalize e).range >>> 1 = (rangeEncodeNormalize e).range / 2 :=
    Nat.shiftRight_eq_div_pow _ _
  rw [rangeEncodeFixedBit_narrow h]
  refine ⟨hnarrow, hlen, ?_⟩
  intro out hleads
  obtain ⟨hleads', hsync⟩ := hback out hleads
  obtain ⟨hleads'', hdecode⟩ := hnormal out hleads'
  refine ⟨hleads'', ?_⟩
  intro d hd
  have hd' := hdecode d hd
  obtain ⟨hle, hcode, hsync'⟩ := hsync _ hd'
  refine ⟨_, hsync', ?_⟩
  unfold rangeDecodeFixedBit
  dsimp only
  rw [hd'.range_eq]
  generalize (rangeEncodeNormalize e).range >>> 1 = half at *
  generalize rangeDecodeNormalize d = d' at *
  cases bit with
  | false =>
    simp only [Bool.false_eq_true, if_false, Nat.zero_add] at hcode
    obtain ⟨htop, hback'⟩ := fixed_wrapped_low (by omega) hcode
    rw [htop, Bool.not_true, if_neg Bool.false_ne_true, hback']
    rfl
  | true =>
    simp only [if_true] at hle hcode
    obtain ⟨htop, hcode'⟩ := fixed_wrapped_high (by omega) hle hcode
    rw [htop, Bool.not_false, if_pos rfl, hcode']
    rfl

end bits

section terminate
variable {e : RangeEncoder}

theorem RangeEncoder.Valid.normalize (h : e.Valid) (hrange : e.range = 0) :
    Normalized e (rangeEncodeNormalize e) :=
  rangeEncodeNormalize_spec h (by rw [hrange]; decide)

theorem RangeEncoder.Sound.closed (h : e.Sound) : { e with range := 0 }.Valid := by
  obtain ⟨hroom, hcache, hmsb, hlsb, hpos, hlt, hhigh, hcarry⟩ := h.toValid
  have hlow : { e with range := 0 }.low = e.low := rfl
  have hrange : { e with range := 0 }.range = 0 := rfl
  refine ⟨hroom, hcache, hmsb, hlsb, hpos, Nat.two_pow_pos 32, ?_, ?_⟩
  · rw [hlow, hrange]
    omega
  · intro hmax
    have hbound := hcarry hmax
    rw [hlow, hrange]
    omega

/-- Six rounds settle the low end and one more zero byte. -/
structure Terminated (e e' : RangeEncoder) : Prop where
  room : e'.dst.length ≤ e.dstLen
  length_le : e'.dst.length ≤ e.count + 5
  settled : e'.overflow = false → e'.dst.length + 1 < rangeCodeCacheSizeMax →
    e.overflow = false ∧ e'.dst.length = e.count + 5 ∧ beValue e'.dst = e.lowValue * 256

theorem rangeEncodeTerminate_spec (h : e.Sound) : Terminated e (rangeEncodeTerminate e) := by
  have hvalid := h.closed
  have hlow : { e with range := 0 }.lowValue = e.lowValue := rfl
  have hcount : { e with range := 0 }.count = e.count := rfl
  have hlen : { e with range := 0 }.dstLen = e.dstLen := rfl
  have hstart : { e with range := 0 }.overflow = e.overflow := rfl
  have hrange : { e with range := 0 }.range = 0 := rfl
  unfold rangeEncodeTerminate
  generalize { e with range := 0 } = e0 at *
  obtain ⟨v1, r1, d1, m1, l1, -, g1, n1⟩ := hvalid.normalize hrange
  generalize rangeEncodeNormalize e0 = e1 at *
  obtain ⟨v2, r2, d2, m2, l2, -, g2, n2⟩ := v1.normalize (by omega)
  generalize rangeEncodeNormalize e1 = e2 at *
  obtain ⟨v3, r3, d3, m3, l3, -, g3, n3⟩ := v2.normalize (by omega)
  generalize rangeEncodeNormalize e2 = e3 at *
  obtain ⟨v4, r4, d4, m4, l4, -, g4, n4⟩ := v3.normalize (by omega)
  generalize rangeEncodeNormalize e3 = e4 at *
  obtain ⟨v5, r5, d5, m5, l5, -, g5, n5⟩ := v4.normalize (by omega)
  generalize rangeEncodeNormalize e4 = e5 at *
  obtain ⟨v6, r6, d6, m6, l6, s6, g6, n6⟩ := v5.normalize (by omega)
  generalize rangeEncodeNormalize e5 = e6 at *
  have hzero : e5.lowLsb = 0 := by omega
  obtain ⟨hsize, hcache⟩ := s6 (by omega)
  have hcount6 : e6.count = e6.dst.length + 1 := by rw [RangeEncoder.count, hsize]
  have hroom6 := v6.room
  refine ⟨by omega, by omega, fun hoverflow hbelow => ?_⟩
  obtain ⟨o5, c5, w5⟩ := n6 hoverflow (by omega)
  obtain ⟨o4, c4, w4⟩ := n5 o5 (by omega)
  obtain ⟨o3, c3, w3⟩ := n4 o4 (by omega)
  obtain ⟨o2, c2, w2⟩ := n3 o3 (by omega)
  obtain ⟨o1, c1, w1⟩ := n2 o2 (by omega)
  obtain ⟨o0, c0, w0⟩ := n1 o1 (by omega)
  have hdigits : e6.digits = e6.dst ++ [0] := by
    rw [RangeEncoder.digits, hsize, hcache, hzero]
    rfl
  have hvalue : e6.lowValue = beValue e6.dst * 2 ^ 40 := by
    rw [RangeEncoder.lowValue, RangeEncoder.low, m6, l6, hzero, hdigits, beValue_append]
    simp only [beValue_singleton, List.length_singleton]
    have hbyte : (0 : UInt8).toNat = 0 := rfl
    rw [hbyte]
    omega
  exact ⟨hstart ▸ o0, by omega, by omega⟩

theorem rangeEncodeTerminate_room (h : e.Sound) :
    (rangeEncodeTerminate e).dst.length ≤ e.dstLen :=
  (rangeEncodeTerminate_spec h).room

theorem rangeEncodeTerminate_leads (h : e.Sound) (hroom : e.dstLen + 1 < rangeCodeCacheSizeMax)
    (hoverflow : (rangeEncodeTerminate e).overflow = false) :
    e.Leads (rangeEncodeTerminate e).dst := by
  have hge := h.range_ge
  have hended := rangeEncodeTerminate_spec h
  have hlength := hended.room
  obtain ⟨hstart, hcount, hvalue⟩ := hended.settled hoverflow (by omega)
  refine ⟨hstart, by omega, 1, by omega, ?_, ?_⟩
  · rw [hvalue, pow_one]
  · rw [hvalue, pow_one]
    omega

end terminate

section cells
variable {κ : Type} {dstLen : Nat}

/-- The encoder and the decoder with their probability cells, over the bytes that
`dstLen` bytes of room let come out. -/
def rangeChannel (κ : Type) (dstLen : Nat) : Channel (Encoder κ) (Decoder κ) (List UInt8) where
  Sound e := e.coder.Sound ∧ e.coder.dstLen = dstLen ∧ ∀ cell, ProbSound (e.probs cell)
  Leads e out := e.coder.Leads out
  Synced e out d := e.coder.Synced out d.coder ∧ d.probs = e.probs

theorem Encoder.fresh_sound (dstLen : Nat) :
    (rangeChannel κ dstLen).Sound (Encoder.fresh dstLen) := by
  refine ⟨newRangeEncoder_sound dstLen, rfl, ?_⟩
  intro cell
  change ProbSound 1024
  exact ⟨by decide, by decide⟩

theorem rangeDecodeNormalize_cons (code : Nat) (byte : UInt8) (src : List UInt8) :
    rangeDecodeNormalize ⟨code, 0, byte :: src, false⟩ =
      ⟨code * 256 % 2 ^ 32 + byte.toNat, 0, src, false⟩ := by
  have hbyte := byte.toNat_lt
  have heven : code * 256 % 2 ^ 32 = 2 ^ 8 * (code % 2 ^ 24) := by omega
  have hor := @Nat.two_pow_add_eq_or_of_lt 8 _ hbyte (code % 2 ^ 24)
  have hcode : ((code <<< 8) % 2 ^ 32) ||| byte.toNat = code * 256 % 2 ^ 32 + byte.toNat := by
    rw [Nat.shiftLeft_eq]
    change code * 256 % 2 ^ 32 ||| byte.toNat = _
    rw [heven, hor]
  unfold rangeDecodeNormalize
  dsimp only
  rw [if_pos (by decide), hcode]
  rfl

theorem newRangeDecoder_synced {out : List UInt8}
    (h : (newRangeEncoder dstLen).Leads out) :
    (newRangeEncoder dstLen).Synced out (newRangeDecoder out) := by
  obtain ⟨-, -, rest, hlength, -, hlt⟩ := h
  have hcount : (newRangeEncoder dstLen).count = 1 := rfl
  have hvalue : (newRangeEncoder dstLen).lowValue = 0 := by
    simp [RangeEncoder.lowValue, RangeEncoder.digits, RangeEncoder.low, newRangeEncoder]
  have hrange : (newRangeEncoder dstLen).range = 0xFFFFFFFF := rfl
  rw [hcount] at hlength
  rw [hvalue, hrange, Nat.zero_add] at hlt
  rcases out with _ | ⟨b0, _ | ⟨b1, _ | ⟨b2, _ | ⟨b3, _ | ⟨b4, tail⟩⟩⟩⟩⟩
  iterate 5
    · simp only [List.length_nil, List.length_cons] at hlength
      omega
  · have hrest : rest = tail.length := by
      simp only [List.length_cons] at hlength
      omega
    have hsplit := beValue_append [b0, b1, b2, b3, b4] tail
    have hhead : beValue [b0, b1, b2, b3, b4] = (((b0.toNat * 256 + b1.toNat) * 256 + b2.toNat) * 256
        + b3.toNat) * 256 + b4.toNat := by
      simp [beValue]
    have hsmall : beValue [b0, b1, b2, b3, b4] < 0xFFFFFFFF := by
      apply @Nat.lt_of_mul_lt_mul_right (256 ^ rest)
      rw [hrest] at hlt ⊢
      change beValue ([b0, b1, b2, b3, b4] ++ tail) < _ at hlt
      omega
    have h1 := b1.toNat_lt
    have h2 := b2.toNat_lt
    have h3 := b3.toNat_lt
    have h4 := b4.toNat_lt
    unfold newRangeDecoder
    rw [rangeDecodeNormalize_cons, rangeDecodeNormalize_cons, rangeDecodeNormalize_cons,
      rangeDecodeNormalize_cons, rangeDecodeNormalize_cons]
    refine ⟨rfl, rfl, rfl, ?_⟩
    rw [hvalue, hcount]
    change 0 + _ = beValue [b0, b1, b2, b3, b4]
    dsimp only
    omega

theorem Encoder.bit_step [DecidableEq κ] {e : Encoder κ}
    (h : (rangeChannel κ dstLen).Sound e) (cell : κ) (bit : Bool) :
    (rangeChannel κ dstLen).Sound (e.bit cell bit) ∧
      ∀ out, (rangeChannel κ dstLen).Leads (e.bit cell bit) out →
        (rangeChannel κ dstLen).Leads e out ∧
        ∀ d, (rangeChannel κ dstLen).Synced e out d → ∃ d', d.bit cell = (bit, d') ∧
          (rangeChannel κ dstLen).Synced (e.bit cell bit) out d' := by
  obtain ⟨hsound, hlen, hprobs⟩ := h
  obtain ⟨hsound', hprob', hlen', hback⟩ := rangeEncodeBit_spec hsound (hprobs cell) bit
  refine ⟨⟨hsound', hlen'.trans hlen, ?_⟩, ?_⟩
  · intro other
    unfold Encoder.bit
    dsimp only
    by_cases hother : other = cell
    · subst hother
      rwa [Function.update_self]
    · rw [Function.update_of_ne hother]
      exact hprobs other
  · intro out hleads
    obtain ⟨hleads', hdecode⟩ := hback out hleads
    refine ⟨hleads', ?_⟩
    rintro d ⟨hsynced, hsame⟩
    obtain ⟨d', hsynced', hrun⟩ := hdecode d.coder hsynced
    refine ⟨⟨d', (e.bit cell bit).probs⟩, ?_, hsynced', rfl⟩
    unfold Decoder.bit Encoder.bit
    rw [hsame, hrun]

theorem Encoder.fixedBit_step {e : Encoder κ} (h : (rangeChannel κ dstLen).Sound e) (bit : Bool) :
    (rangeChannel κ dstLen).Sound (e.fixedBit bit) ∧
      ∀ out, (rangeChannel κ dstLen).Leads (e.fixedBit bit) out →
        (rangeChannel κ dstLen).Leads e out ∧
        ∀ d, (rangeChannel κ dstLen).Synced e out d → ∃ d', d.fixedBit = (bit, d') ∧
          (rangeChannel κ dstLen).Synced (e.fixedBit bit) out d' := by
  obtain ⟨hsound, hlen, hprobs⟩ := h
  obtain ⟨hsound', hlen', hback⟩ := rangeEncodeFixedBit_spec hsound bit
  refine ⟨⟨hsound', hlen'.trans hlen, hprobs⟩, ?_⟩
  intro out hleads
  obtain ⟨hleads', hdecode⟩ := hback out hleads
  refine ⟨hleads', ?_⟩
  rintro d ⟨hsynced, hsame⟩
  obtain ⟨d', hsynced', hrun⟩ := hdecode d.coder hsynced
  refine ⟨⟨d', d.probs⟩, ?_, hsynced', hsame⟩
  unfold Decoder.fixedBit
  rw [hrun]

end cells

end TonCompress.Lzma
