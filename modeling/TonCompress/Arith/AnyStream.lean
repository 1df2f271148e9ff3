import TonCompress.Arith.RoundTrip

/-! Decoding any stream, whoever wrote it. The code register lies in the interval
before and after every symbol, so no check of the decoder fails. -/
namespace TonCompress.Arith
open TonCompress.Lib

structure Sound (iv : Interval) (dec : DecoderState) : Prop where
  normal : Normal iv
  low_le : iv.low ≤ dec.code
  le_high : dec.code ≤ iv.high

def readRange (iv : Interval) : Nat := sub64 iv.high iv.low + 1

def readOffset (iv : Interval) (dec : DecoderState) : Nat := sub64 dec.code iv.low

def readValue (iv : Interval) (dec : DecoderState) : Nat :=
  sub64 ((readOffset iv dec + 1) * total % 2 ^ 64) 1 / readRange iv

/-- The quantities of one `read`, none of which leaves its type. -/
structure Fits (freqs : BinaryFrequencyTable) (iv : Interval) (dec : DecoderState) : Prop where
  code_lt : dec.code < 2 ^ 32
  le_range : minimumRange ≤ readRange iv
  range_le : readRange iv ≤ fullRange
  numerator_lt : (readOffset iv dec + 1) * total < 2 ^ 64
  value_lt : readValue iv dec < total
  scaled_lt : readValue iv dec * readRange iv < 2 ^ 64
  symLow_lt : ∀ bit, symLow freqs bit * readRange iv < 2 ^ 64
  symHigh_lt : ∀ bit, symHigh freqs bit * readRange iv < 2 ^ 64

section symbol
variable {iv : Interval} {freqs : BinaryFrequencyTable} {dec : DecoderState}

/-- The two parts of the interval meet, so one of them holds the code. -/
theorem Sound.exists_symbol (h : Sound iv dec) (hfreqs : Codable freqs) :
    ∃ bit, (symInterval freqs bit iv).low ≤ dec.code ∧
      dec.code ≤ (symInterval freqs bit iv).high := by
  have hlow := h.low_le
  have hhigh := h.le_high
  have hwhole : total * (iv.high - iv.low + 1) / total = iv.high - iv.low + 1 :=
    Nat.mul_div_cancel_left _ (by decide)
  have hfirst := (symInterval_bounds h.normal hfreqs false).1
  by_cases hcode : (symInterval freqs true iv).low ≤ dec.code
  · refine ⟨true, hcode, ?_⟩
    simp only [symInterval, symHigh, if_true, hwhole]
    omega
  · refine ⟨false, ?_, ?_⟩
    · simp only [symInterval, symLow, Bool.false_eq_true, if_false, Nat.zero_mul, Nat.zero_div]
      omega
    · simp only [symInterval, symLow, symHigh, Bool.false_eq_true, if_false, if_true] at hcode ⊢
      omega

theorem Sound.read (h : Sound iv dec) (hfreqs : Codable freqs) :
    ∃ bit : Bool, ∃ iv' dec',
      ArithmeticDecoder.read freqs iv dec = .ok (bit.toNat, iv', dec') ∧ Sound iv' dec' := by
  obtain ⟨bit, hlow, hhigh⟩ := h.exists_symbol hfreqs
  obtain ⟨events, iv', hscale, -, hnormal, hrun⟩ := update_eq h.normal hfreqs bit
  have hlt : dec.code < 2 ^ 32 := h.le_high.trans_lt h.normal.high_lt
  obtain ⟨input, hevents, -⟩ := runEvents_decoder events hlt
  have hmem := hscale.registerAfter_mem hlow hhigh (streamOf dec.input)
  refine ⟨bit, iv', ⟨input, registerAfter 30 events dec.code (streamOf dec.input)⟩, ?_,
    hnormal, hmem.1, hmem.2⟩
  rw [read_eq h.normal hfreqs hlow hhigh, hrun ArithmeticDecoder.shift decoderShift
    ArithmeticDecoder.underflow fun _ _ _ _ => rfl, hevents, ok_bind, ok_bind]
  exact if_neg (not_not.mpr hmem)

theorem Sound.fits (h : Sound iv dec) (hfreqs : Codable freqs) : Fits freqs iv dec := by
  have htotal : total = 2 ^ 30 := rfl
  have hminimum : minimumRange = 2 ^ 30 + 2 := rfl
  have hfull : fullRange = 2 ^ 32 := rfl
  have hlow := h.low_le
  have hhigh := h.le_high
  have hlt := h.normal.high_lt
  have hbounds := h.normal.range
  have hrange : readRange iv = iv.high - iv.low + 1 := by
    rw [readRange, sub64_of_le (by omega) (by omega)]
  have hoffset : readOffset iv dec = dec.code - iv.low := by
    rw [readOffset, sub64_of_le hlow (by omega)]
  have hpositive : 0 < (readOffset iv dec + 1) * total :=
    Nat.mul_pos (Nat.zero_lt_succ _) (by decide)
  have hnumerator : (readOffset iv dec + 1) * total ≤ readRange iv * total :=
    Nat.mul_le_mul_right _ (by omega)
  have hproduct : readRange iv * total ≤ 2 ^ 32 * 2 ^ 30 :=
    Nat.mul_le_mul (by omega) (by omega)
  have hvalue : readValue iv dec < total := by
    rw [readValue, Nat.mod_eq_of_lt (by omega), sub64_of_le hpositive (by omega)]
    apply Nat.div_lt_of_lt_mul
    omega
  have hscaled : ∀ factor ≤ total, factor * readRange iv < 2 ^ 64 := by
    intro factor hfactor
    calc factor * readRange iv
        ≤ total * readRange iv := Nat.mul_le_mul_right _ hfactor
      _ = readRange iv * total := Nat.mul_comm _ _
      _ < 2 ^ 64 := by omega
  refine ⟨by omega, by omega, by omega, by omega, hvalue, hscaled _ hvalue.le, ?_, ?_⟩
  · intro bit
    obtain ⟨hsym, hsymTotal⟩ := hfreqs.sym bit
    exact hscaled _ (hsym.le.trans hsymTotal)
  · intro bit
    exact hscaled _ (hfreqs.sym bit).2

end symbol

section run

theorem sound_fresh (data : List UInt8) :
    Sound freshInterval (ArithmeticDecoder.fresh (.fresh data)) := by
  obtain ⟨input, hfresh, -⟩ := fresh_eq data
  rw [hfresh]
  exact ⟨normal_fresh, Nat.zero_le _, Nat.le_of_lt_succ (codeAt_lt 30 0 _)⟩

def readAll : List (Fin (total + 1)) → BinaryFrequencyTable → Interval → DecoderState →
    ArithExec (List Nat × Interval × DecoderState)
  | [], _, iv, dec => return ([], iv, dec)
  | freq :: rest, freqs, iv, dec => do
      let freqs := freqs.set freq
      let (symbol, iv, dec) ← ArithmeticDecoder.read freqs iv dec
      let (symbols, iv, dec) ← readAll rest freqs iv dec
      return (symbol :: symbols, iv, dec)

theorem Sound.readAll {iv : Interval} {dec : DecoderState} (h : Sound iv dec)
    (freqList : List (Fin (total + 1))) (freqs : BinaryFrequencyTable) :
    ∃ bits : List Bool, ∃ iv' dec',
      readAll freqList freqs iv dec = .ok (bits.map Bool.toNat, iv', dec') ∧
        bits.length = freqList.length ∧ Sound iv' dec' := by
  induction freqList generalizing freqs iv dec with
  | nil => exact ⟨[], iv, dec, rfl, rfl, h⟩
  | cons freq rest ih =>
    obtain ⟨bit, mid, decMid, hread, hmid⟩ := h.read (codable_set freqs freq)
    obtain ⟨bits, iv', dec', hrest, hlength, hsound⟩ := ih hmid (freqs.set freq)
    refine ⟨bit :: bits, iv', dec', ?_, congrArg Nat.succ hlength, hsound⟩
    rw [Arith.readAll, hread, ok_bind]
    dsimp only
    rw [hrest]
    rfl

/-- After any number of symbols read from any bytes the decoder is in order, and
nothing that the next `read` computes overflows. -/
theorem readAll_sound (data : List UInt8) (freqList : List (Fin (total + 1))) :
    ∃ symbols iv dec,
      readAll freqList .fresh freshInterval (ArithmeticDecoder.fresh (.fresh data)) =
          .ok (symbols, iv, dec) ∧
        symbols.length = freqList.length ∧ (∀ symbol ∈ symbols, symbol = 0 ∨ symbol = 1) ∧
        Sound iv dec ∧ ∀ (freqs : BinaryFrequencyTable) (freq : Fin (total + 1)),
          Fits (freqs.set freq) iv dec := by
  obtain ⟨bits, iv, dec, hread, hlength, hsound⟩ := (sound_fresh data).readAll freqList .fresh
  refine ⟨bits.map Bool.toNat, iv, dec, hread, ?_, ?_, hsound, fun freqs freq =>
    hsound.fits (codable_set freqs freq)⟩
  · rw [List.length_map, hlength]
  · intro symbol hsymbol
    obtain ⟨bit, -, rfl⟩ := List.mem_map.mp hsymbol
    cases bit with
    | false => exact .inl rfl
    | true => exact .inr rfl

theorem Sound.decompressLoop (model : Predictor) {size fuel : Nat} {context out : List Nat}
    {iv : Interval} {dec : DecoderState} (h : Sound iv dec) (hsize : out.length + fuel = size)
    (hpos : 0 < fuel) :
    ∃ bits : List Bool, bits.length = fuel ∧
      decompressLoop model size fuel context iv dec out = .ok (out ++ bits.map Bool.toNat) := by
  induction fuel generalizing context iv dec out with
  | zero => exact absurd hpos (lt_irrefl 0)
  | succ fuel ih =>
    obtain ⟨bit, iv', dec', hread, hsound⟩ := h.read (codable_set .fresh (model context))
    rw [Arith.decompressLoop, hread, ok_bind]
    dsimp only
    rw [List.length_append, List.length_singleton]
    by_cases hlast : out.length + 1 = size
    · rw [if_pos hlast]
      exact ⟨[bit], by rw [List.length_singleton]; omega, rfl⟩
    · rw [if_neg hlast]
      obtain ⟨bits, hlength, hrest⟩ := @ih (pushContext context bit.toNat) (out ++ [bit.toNat])
        iv' dec' hsound (by rw [List.length_append, List.length_singleton]; omega) (by omega)
      refine ⟨bit :: bits, congrArg Nat.succ hlength, ?_⟩
      rw [hrest, List.map_cons, List.append_assoc, List.singleton_append]

/-- `decompressBits` gives as many bits as it is asked for, also from bytes that no
encoder wrote. -/
theorem decompressBits_returns (model : Predictor) (data : List UInt8) {size : Int}
    (hsize : asUint64 size ≠ 0) :
    ∃ bits : List Bool, bits.length = asUint64 size ∧
      decompressBits model data size = .ok (bits.map Bool.toNat) := by
  obtain ⟨bits, hlength, hrun⟩ := @Sound.decompressLoop model (asUint64 size) (asUint64 size)
    (List.replicate contextSize 0) [] _ _ (sound_fresh data) (Nat.zero_add _)
    (Nat.pos_of_ne_zero hsize)
  exact ⟨bits, hlength, hrun⟩

end run

end TonCompress.Arith
