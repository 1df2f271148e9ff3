import TonCompress.Lzma.RangeCoder
import TonCompress.Lib.BigEndian

/-! What the encoder's fields stand for: the low end of an interval of byte
strings, with its last digits still open to a carry. -/
namespace TonCompress.Lzma
open TonCompress.Lib

/-- The bytes written, the cached byte and the pending ones behind it. A carry
out of `low_lsb` turns the last ones over. -/
def RangeEncoder.digits (e : RangeEncoder) : List UInt8 :=
  e.dst ++ UInt8.ofNat e.cache :: List.replicate (e.cacheSize - 1) 0xFF

def RangeEncoder.low (e : RangeEncoder) : Nat := e.lowMsb * 2 ^ 32 + e.lowLsb

def RangeEncoder.lowValue (e : RangeEncoder) : Nat := beValue e.digits * 2 ^ 32 + e.low

def RangeEncoder.count (e : RangeEncoder) : Nat := e.dst.length + e.cacheSize

/-- The invariant of the encoder. A cached 0xFF never gets a carry: it was
settled together with one. -/
structure RangeEncoder.Valid (e : RangeEncoder) : Prop where
  room : e.dst.length ≤ e.dstLen
  cache_lt : e.cache < 256
  msb_le : e.lowMsb ≤ 1
  lsb_lt : e.lowLsb < 2 ^ 32
  cacheSize_pos : 0 < e.cacheSize
  range_lt : e.range < 2 ^ 32
  high_le : e.low + e.range ≤ 2 ^ 33
  no_carry : e.cache = 0xFF → e.low + e.range ≤ 2 ^ 32 ∧ e.low < 2 ^ 32

/-- Between two steps one round of normalisation is enough. -/
structure RangeEncoder.Sound (e : RangeEncoder) : Prop extends e.Valid where
  range_ge : 2 ^ 16 ≤ e.range

theorem newRangeEncoder_sound (dstLen : Nat) : (newRangeEncoder dstLen).Sound := by
  refine ⟨⟨Nat.zero_le _, ?_, ?_, ?_, ?_, ?_, ?_, ?_⟩, ?_⟩
  all_goals
    simp [newRangeEncoder, RangeEncoder.low]

section output
variable {e e' e'' : RangeEncoder}

def Wrote (bytes : List UInt8) (e e' : RangeEncoder) : Prop :=
  ∃ dst overflow, e' = { e with dst, overflow } ∧ dst.length ≤ e.dstLen ∧
    dst.length ≤ e.dst.length + bytes.length ∧
    (overflow = false → e.overflow = false ∧ dst = e.dst ++ bytes)

theorem Wrote.refl (h : e.dst.length ≤ e.dstLen) : Wrote [] e e := by
  refine ⟨e.dst, e.overflow, rfl, h, le_rfl, ?_⟩
  intro hoverflow
  exact ⟨hoverflow, (List.append_nil _).symm⟩

theorem Wrote.trans {bytes bytes' : List UInt8} (h : Wrote bytes e e')
    (h' : Wrote bytes' e' e'') : Wrote (bytes ++ bytes') e e'' := by
  obtain ⟨dst, overflow, rfl, -, hgrown, hfirst⟩ := h
  obtain ⟨dst', overflow', rfl, hroom, hgrown', hlast⟩ := h'
  have hboth : dst'.length ≤ e.dst.length + (bytes ++ bytes').length := by
    rw [List.length_append]
    dsimp only at hgrown'
    omega
  refine ⟨dst', overflow', rfl, hroom, hboth, ?_⟩
  intro hoverflow
  have hend := hlast hoverflow
  have hstart := hfirst hend.1
  refine ⟨hstart.1, ?_⟩
  rw [hend.2, ← List.append_assoc, ← hstart.2]

theorem rangeEncodeOutByte_wrote (h : e.dst.length ≤ e.dstLen) (byte : Nat) :
    Wrote [UInt8.ofNat byte] e (rangeEncodeOutByte e byte) := by
  unfold rangeEncodeOutByte
  by_cases hroom : e.dst.length ≠ e.dstLen
  · rw [if_pos hroom]
    refine ⟨e.dst ++ [UInt8.ofNat byte], e.overflow, rfl, ?_, List.length_append.le,
      fun hoverflow => ⟨hoverflow, rfl⟩⟩
    rw [List.length_append, List.length_singleton]
    omega
  · rw [if_neg hroom]
    refine ⟨e.dst, true, rfl, h, Nat.le_add_right _ _, ?_⟩
    intro hoverflow
    cases hoverflow

theorem rangeEncodeOutBytes_wrote (byte n : Nat) (h : e.dst.length ≤ e.dstLen) :
    Wrote (List.replicate n (UInt8.ofNat byte)) e (rangeEncodeOutBytes byte n e) := by
  induction n generalizing e with
  | zero => exact .refl h
  | succ n ih =>
    have hfirst := rangeEncodeOutByte_wrote h byte
    obtain ⟨dst, overflow, heq, hroom, -⟩ := id hfirst
    have hrest := @ih (rangeEncodeOutByte e byte) (by rw [heq]; exact hroom)
    exact hfirst.trans hrest

theorem rangeEncodeFlush_spec (h : e.dst.length ≤ e.dstLen) (hsize : 0 < e.cacheSize)
    (first rest : Nat) :
    ∃ dst overflow, dst.length ≤ e.dstLen ∧ dst.length ≤ e.count ∧
      (overflow = false → e.overflow = false ∧ dst = e.dst ++
        UInt8.ofNat first :: List.replicate (e.cacheSize - 1) (UInt8.ofNat rest)) ∧
      rangeEncodeFlush e first rest =
        { e with dst, overflow, cache := e.lowLsb >>> 24, cacheSize := 0 } := by
  have hfirst := rangeEncodeOutByte_wrote h first
  obtain ⟨dst, overflow, heq, hroom, -⟩ := id hfirst
  have hrest := @rangeEncodeOutBytes_wrote (rangeEncodeOutByte e first) rest (e.cacheSize - 1)
    (by rw [heq]; exact hroom)
  have hboth := hfirst.trans hrest
  obtain ⟨dst', overflow', heq', hroom', hgrown, hdst⟩ := hboth
  have hcount : dst'.length ≤ e.count := by
    simp only [List.length_append, List.length_singleton, List.length_replicate] at hgrown
    unfold RangeEncoder.count
    omega
  refine ⟨dst', overflow', hroom', hcount, hdst, ?_⟩
  unfold rangeEncodeFlush
  dsimp only
  rw [heq']

end output

section normalize
variable {e : RangeEncoder}

theorem beValue_carry (written : List UInt8) {cache : Nat} (h : cache < 255) (n : Nat) :
    beValue (written ++ UInt8.ofNat (cache + 1) :: List.replicate n 0) =
      beValue (written ++ UInt8.ofNat cache :: List.replicate n 0xFF) + 1 := by
  have hcache : (UInt8.ofNat cache).toNat = cache := by
    rw [UInt8.toNat_ofNat']
    omega
  have hnext : (UInt8.ofNat (cache + 1)).toNat = cache + 1 := by
    rw [UInt8.toNat_ofNat']
    omega
  rw [beValue_append, beValue_append, beValue_cons, beValue_cons]
  simp only [List.length_cons, List.length_replicate]
  rw [beValue_replicate_zero, hcache, hnext, Nat.add_mul, Nat.one_mul, ← beValue_replicate_max n]
  omega

theorem lowValue_flushed (dst : List UInt8) (overflow : Bool) (hlsb : e.lowLsb < 2 ^ 32) :
    (rangeEncodeShift { e with dst, overflow, cache := e.lowLsb >>> 24, cacheSize := 0 }).lowValue =
      256 * (beValue dst * 2 ^ 32 + e.lowLsb) := by
  have hcache : (UInt8.ofNat (e.lowLsb >>> 24)).toNat = e.lowLsb / 2 ^ 24 := by
    rw [UInt8.toNat_ofNat', Nat.shiftRight_eq_div_pow]
    omega
  unfold RangeEncoder.lowValue RangeEncoder.digits RangeEncoder.low rangeEncodeShift
  dsimp only
  rw [Nat.shiftLeft_eq, if_pos (by decide), List.replicate_zero, beValue_append, beValue_singleton,
    hcache, List.length_singleton, pow_one]
  omega

/-- What one round of normalisation does. -/
structure Normalized (e e' : RangeEncoder) : Prop where
  valid : e'.Valid
  range_eq : e'.range = 256 * e.range
  dstLen_eq : e'.dstLen = e.dstLen
  msb_eq : e'.lowMsb = 0
  lsb_eq : e'.lowLsb = e.lowLsb % 2 ^ 24 * 256
  settled : e.lowLsb < 0xFF000000 → e'.cacheSize = 1 ∧ e'.cache = e.lowLsb / 2 ^ 24
  count_le : e'.count ≤ e.count + 1
  value : e'.overflow = false → e'.count < rangeCodeCacheSizeMax →
    e.overflow = false ∧ e'.count = e.count + 1 ∧ e'.lowValue = 256 * e.lowValue

theorem rangeEncodeNormalize_of_ge (h : rangeCodeNormalizeThreshold ≤ e.range) :
    rangeEncodeNormalize e = e :=
  if_neg (Nat.not_lt.mpr h)

theorem widened (hrange : e.range < 2 ^ 24) : (e.range <<< 8) % 2 ^ 32 = 256 * e.range := by
  rw [Nat.shiftLeft_eq]
  omega

theorem lsb_shifted (lsb : Nat) : (lsb <<< 8) % 2 ^ 32 = lsb % 2 ^ 24 * 256 := by
  rw [Nat.shiftLeft_eq]
  omega

structure Flushed (e : RangeEncoder) (dst : List UInt8) (overflow : Bool) : Prop where
  room : dst.length ≤ e.dstLen
  grown : dst.length ≤ e.count
  start : overflow = false → e.overflow = false
  length_eq : overflow = false → dst.length = e.count
  value : overflow = false → beValue dst * 2 ^ 32 + e.lowLsb = e.lowValue

theorem Flushed.of_written {dst : List UInt8} {overflow : Bool} {first rest : Nat}
    (hsize : 0 < e.cacheSize) (hroom : dst.length ≤ e.dstLen) (hgrown : dst.length ≤ e.count)
    (hdst : overflow = false → e.overflow = false ∧ dst = e.dst ++
      UInt8.ofNat first :: List.replicate (e.cacheSize - 1) (UInt8.ofNat rest))
    (hvalue : beValue (e.dst ++ UInt8.ofNat first ::
      List.replicate (e.cacheSize - 1) (UInt8.ofNat rest)) * 2 ^ 32 + e.lowLsb = e.lowValue) :
    Flushed e dst overflow where
  room := hroom
  grown := hgrown
  start hoverflow := (hdst hoverflow).1
  length_eq hoverflow := by
    rw [(hdst hoverflow).2]
    simp only [List.length_append, List.length_cons, List.length_replicate, RangeEncoder.count]
    omega
  value hoverflow := by
    rw [(hdst hoverflow).2]
    exact hvalue

theorem Flushed.normalized {dst : List UInt8} {overflow : Bool} (hflushed : Flushed e dst overflow)
    (h : e.Valid) (hrange : e.range < 2 ^ 24)
    (hff : e.lowLsb / 2 ^ 24 = 0xFF → e.low + e.range ≤ 2 ^ 33 ∧ 2 ^ 32 ≤ e.low) :
    Normalized e (rangeEncodeShift
      { e with dst, overflow, cache := e.lowLsb >>> 24, cacheSize := 0 }) := by
  have hlow : e.low = e.lowMsb * 2 ^ 32 + e.lowLsb := rfl
  have hlsb := h.lsb_lt
  have hmsb := h.msb_le
  have hwiden := widened hrange
  have hnewLow := lsb_shifted e.lowLsb
  have hnewCache : e.lowLsb >>> 24 = e.lowLsb / 2 ^ 24 := Nat.shiftRight_eq_div_pow _ _
  refine ⟨?_, hwiden, rfl, rfl, hnewLow, fun _ => ⟨rfl, hnewCache⟩, ?_, fun hoverflow _ => ?_⟩
  · constructor
    all_goals
      simp only [rangeEncodeShift, RangeEncoder.low, hwiden, hnewCache, hnewLow]
    · exact hflushed.room
    · omega
    · omega
    · omega
    · exact Nat.one_pos
    · omega
    · omega
    · intro hmax
      have hbound := hff hmax
      omega
  · have hgrown := hflushed.grown
    simp only [RangeEncoder.count, rangeEncodeShift] at hgrown ⊢
    rw [if_pos (by decide)]
    omega
  · refine ⟨hflushed.start hoverflow, ?_, ?_⟩
    · simp only [RangeEncoder.count, rangeEncodeShift]
      rw [hflushed.length_eq hoverflow, if_pos (by decide)]
      rfl
    · rw [lowValue_flushed dst overflow hlsb, hflushed.value hoverflow]

/-- A carry out of `low_lsb` is settled together with the pending bytes. -/
theorem rangeEncodeNormalize_carried (h : e.Valid) (hrange : e.range < 2 ^ 24)
    (hset : e.lowMsb ≠ 0) :
    Normalized e (rangeEncodeShift (rangeEncodeFlush e ((e.cache + 1) % 256) 0x00)) := by
  have hlow : e.low = e.lowMsb * 2 ^ 32 + e.lowLsb := rfl
  have hvalue : e.lowValue = beValue e.digits * 2 ^ 32 + e.low := rfl
  have hmsb := h.msb_le
  have hhigh := h.high_le
  have hlsb := h.lsb_lt
  have hone : e.lowMsb = 1 := by omega
  rw [hone] at hlow
  have hcache : e.cache < 255 := by
    have hlt := h.cache_lt
    by_contra hmax
    have hbound := (h.no_carry (by omega)).2
    omega
  obtain ⟨dst, overflow, hroom, hgrown, hdst, hflush⟩ :=
    rangeEncodeFlush_spec h.room h.cacheSize_pos ((e.cache + 1) % 256) 0x00
  rw [hflush]
  refine (Flushed.of_written h.cacheSize_pos hroom hgrown hdst ?_).normalized h hrange fun _ => ?_
  · have hzero : UInt8.ofNat 0x00 = (0 : UInt8) := rfl
    rw [Nat.mod_eq_of_lt (by omega), hzero, beValue_carry _ hcache, hvalue, hlow]
    unfold RangeEncoder.digits
    ring
  · omega

/-- No carry can reach the pending bytes any more. -/
theorem rangeEncodeNormalize_settled (h : e.Valid) (hrange : e.range < 2 ^ 24)
    (hset : e.lowMsb = 0) (hsmall : e.lowLsb < 0xFF000000) :
    Normalized e (rangeEncodeShift (rangeEncodeFlush e e.cache 0xFF)) := by
  have hlow : e.low = e.lowMsb * 2 ^ 32 + e.lowLsb := rfl
  have hvalue : e.lowValue = beValue e.digits * 2 ^ 32 + e.low := rfl
  obtain ⟨dst, overflow, hroom, hgrown, hdst, hflush⟩ :=
    rangeEncodeFlush_spec h.room h.cacheSize_pos e.cache 0xFF
  rw [hflush]
  refine (Flushed.of_written h.cacheSize_pos hroom hgrown hdst ?_).normalized h hrange fun _ => ?_
  · rw [hvalue, hlow, hset, Nat.zero_mul, Nat.zero_add]
    rfl
  · omega

theorem digits_shifted (h : e.Valid) (hroom : e.cacheSize < rangeCodeCacheSizeMax) :
    (rangeEncodeShift e).digits = e.digits ++ [0xFF] := by
  simp only [RangeEncoder.digits, rangeEncodeShift]
  rw [if_pos hroom, Nat.add_sub_cancel, ← Nat.sub_add_cancel h.cacheSize_pos, List.replicate_succ',
    Nat.add_sub_cancel, List.append_assoc, List.cons_append]

/-- One more byte is pending, of which a carry could still make a zero. -/
theorem rangeEncodeNormalize_pending (h : e.Valid) (hrange : e.range < 2 ^ 24)
    (hset : e.lowMsb = 0) (hlarge : ¬ e.lowLsb < 0xFF000000) : Normalized e (rangeEncodeShift e) := by
  have hlow : e.low = e.lowMsb * 2 ^ 32 + e.lowLsb := rfl
  have hvalue : e.lowValue = beValue e.digits * 2 ^ 32 + e.low := rfl
  have hwiden := widened hrange
  have hnewLow := lsb_shifted e.lowLsb
  have hcount : (rangeEncodeShift e).count ≤ e.count + 1 := by
    simp only [RangeEncoder.count, rangeEncodeShift]
    split <;> omega
  obtain ⟨hroom, hcache, hmsb, hlsb, hsize, hlt, hhigh, hcarry⟩ := id h
  refine ⟨?_, hwiden, rfl, rfl, hnewLow, fun hsmall => absurd hsmall hlarge, hcount, ?_⟩
  · constructor
    all_goals
      simp only [rangeEncodeShift, RangeEncoder.low, hwiden, hnewLow]
    · exact hroom
    · exact hcache
    · omega
    · omega
    · split <;> omega
    · omega
    · omega
    · intro hmax
      have hbound := hcarry hmax
      omega
  · intro hoverflow hbelow
    simp only [RangeEncoder.count, rangeEncodeShift] at hbelow
    have hfree : e.cacheSize < rangeCodeCacheSizeMax := by
      by_contra hfull
      rw [if_neg hfull] at hbelow
      omega
    have hff : (0xFF : UInt8).toNat = 255 := rfl
    refine ⟨hoverflow, ?_, ?_⟩
    · simp only [RangeEncoder.count, rangeEncodeShift]
      rw [if_pos hfree, Nat.add_assoc]
    · rw [hvalue, RangeEncoder.lowValue, digits_shifted h hfree, beValue_append, beValue_singleton,
        hff, List.length_singleton, pow_one]
      simp only [RangeEncoder.low, rangeEncodeShift, hnewLow]
      omega

theorem rangeEncodeNormalize_spec (h : e.Valid) (hrange : e.range < rangeCodeNormalizeThreshold) :
    Normalized e (rangeEncodeNormalize e) := by
  rw [rangeEncodeNormalize, if_pos hrange]
  by_cases hset : e.lowMsb ≠ 0
  · rw [if_pos hset]
    exact rangeEncodeNormalize_carried h hrange hset
  · rw [if_neg hset]
    by_cases hsmall : e.lowLsb < 0xFF000000
    · rw [if_pos hsmall]
      exact rangeEncodeNormalize_settled h hrange (not_not.mp hset) hsmall
    · rw [if_neg hsmall]
      exact rangeEncodeNormalize_pending h hrange (not_not.mp hset) hsmall

end normalize

end TonCompress.Lzma
