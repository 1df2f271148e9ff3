import TonCompress.Arith.BitIo

/-! Decoding what was encoded. -/
namespace TonCompress.Arith
open TonCompress.Lib

section symbol
variable {iv : Interval} {freqs : BinaryFrequencyTable} {bit : Bool}

theorem sub64_of_le {x y : Nat} (hle : y ≤ x) (hlt : x < 2 ^ 64) : sub64 x y = x - y := by
  unfold sub64
  omega

/-- A symbol starts at or below the offset exactly when its low frequency is at
most the value the search compares with. -/
theorem le_value_iff {range offset : Nat} (hrange : 0 < range) (freq : Nat) :
    freq ≤ ((offset + 1) * total - 1) / range ↔ freq * range / total ≤ offset := by
  have htotal : total = 2 ^ 30 := rfl
  have hpos : 0 < (offset + 1) * total := Nat.mul_pos (Nat.succ_pos _) (by omega)
  rw [Nat.le_div_iff_mul_le hrange, ← Nat.lt_succ_iff,
    ← @Nat.lt_succ_iff (freq * range / total) offset, Nat.div_lt_iff_lt_mul (by omega),
    Nat.succ_eq_add_one, Nat.sub_add_cancel hpos]

theorem search_eq (freqs : BinaryFrequencyTable) (value : Nat) {bit : Bool}
    (h : freqs.p ≤ value ↔ bit = true) :
    ArithmeticDecoder.search freqs value 2 0 BinaryFrequencyTable.symbolLimit =
      .ok (bit.toNat, bit.toNat + 1) := by
  have hmiddle : freqs.getLow ((0 + BinaryFrequencyTable.symbolLimit) >>> 1) = .ok freqs.p := rfl
  rw [ArithmeticDecoder.search, if_pos (by decide)]
  dsimp only
  rw [hmiddle, ok_bind]
  cases bit with
  | false =>
    rw [if_pos (Nat.lt_of_not_le fun hle => Bool.false_ne_true (h.mp hle))]
    rfl
  | true =>
    rw [if_neg (Nat.not_lt.mpr (h.mpr rfl))]
    rfl

theorem read_eq (h : Normal iv) (hfreqs : Codable freqs) {dec : DecoderState}
    (hlow : (symInterval freqs bit iv).low ≤ dec.code)
    (hhigh : dec.code ≤ (symInterval freqs bit iv).high) :
    ArithmeticDecoder.read freqs iv dec = do
      let (iv, dec) ←
        update ArithmeticDecoder.shift ArithmeticDecoder.underflow freqs bit.toNat iv dec
      if ¬ (iv.low ≤ dec.code ∧ dec.code ≤ iv.high) then
        throw (.status "Assertion error: Code out of range")
      return (bit.toNat, iv, dec) := by
  have htotal : total = 2 ^ 30 := rfl
  have hmaximum : maximumTotal = 2 ^ 30 + 2 := rfl
  obtain ⟨hlt, hle⟩ := symInterval_bounds h hfreqs bit
  obtain ⟨hlowLt, hhighGe, hhighLt, -⟩ := id h
  obtain ⟨offset, hcode⟩ : ∃ offset, dec.code = iv.low + offset :=
    Nat.exists_eq_add_of_le ((Nat.le_add_right _ _).trans hlow)
  obtain ⟨width, hwidth⟩ : ∃ width, iv.high = iv.low + width :=
    Nat.exists_eq_add_of_le (by omega)
  have hoffset : symLow freqs bit * (width + 1) / total ≤ offset ∧
      offset < symHigh freqs bit * (width + 1) / total := by
    unfold symInterval at hlow hhigh
    rw [hwidth, Nat.add_sub_cancel_left] at hlt
    rw [hcode, hwidth, Nat.add_sub_cancel_left] at hlow hhigh
    dsimp only at hlow hhigh
    have hpositive := Nat.zero_lt_of_lt hlt
    omega
  rw [hwidth, Nat.add_sub_cancel_left] at hle
  have hrange : sub64 iv.high iv.low = width := by
    rw [hwidth]
    unfold sub64
    omega
  have hsub : sub64 dec.code iv.low = offset := by
    rw [hcode]
    unfold sub64
    omega
  have hproduct : (offset + 1) * total ≤ (width + 1) * total :=
    Nat.mul_le_mul_right _ (by omega)
  have hpositive : 0 < (offset + 1) * total := Nat.mul_pos (Nat.succ_pos _) (by decide)
  have hsmall : (width + 1) * total ≤ 2 ^ 62 := by
    rw [htotal]
    omega
  have hnumerator : sub64 ((offset + 1) * total % 2 ^ 64) 1 = (offset + 1) * total - 1 := by
    unfold sub64
    omega
  have hcover := @le_value_iff (width + 1) offset (Nat.succ_pos _)
  unfold ArithmeticDecoder.read
  dsimp only
  rw [if_neg (by omega), hrange, hsub, hnumerator]
  generalize hvalue : ((offset + 1) * total - 1) / (width + 1) = value at hcover ⊢
  have hvalueLt : value < total := by
    rw [← hvalue]
    apply Nat.div_lt_of_lt_mul
    omega
  have hfind : freqs.p ≤ value ↔ bit = true := by
    rw [hcover]
    cases bit with
    | false => exact iff_of_false (Nat.not_le.mpr hoffset.2) Bool.false_ne_true
    | true => exact iff_of_true hoffset.1 rfl
  rw [if_neg (Nat.not_lt.mpr ((hcover value).mp le_rfl)), if_neg (Nat.not_le.mpr hvalueLt),
    search_eq freqs value hfind, ok_bind]
  dsimp only
  rw [if_neg (not_not.mpr rfl), getLow_eq, ok_bind, getHigh_eq, ok_bind,
    if_neg (not_not.mpr hoffset)]

end symbol

section run
variable {iv : Interval}

/-- The steps of the two coders on one bit: the same interval, the same events. -/
structure Steps (model : Predictor) (context : List Nat) (iv : Interval) (bit : Bool)
    (events : List Rescale) (iv' : Interval) : Prop where
  length_le : events.length ≤ 64
  normal : Normal iv'
  encodes : ∀ {out : BitOutputStream} {pending : Nat} {bits : List Bool},
    pending + events.length < 2 ^ 64 - 1 → Holds out bits →
      ∃ out', compressBit model bit ⟨context, iv, ⟨out, pending⟩⟩ =
          .ok ⟨pushContext context bit.toNat, iv', ⟨out', pendingAfter events pending⟩⟩ ∧
        Holds out' (bits ++ emitted events pending)
  inside : ∀ {pending : Nat} {stream : BitStream},
    Inside 30 iv' (pendingAfter events pending) stream →
      Inside 30 iv pending (.onto (emitted events pending) stream)
  decodes : ∀ {pending : Nat} {stream : BitStream} {input : BitInputStream},
    Inside 30 iv' (pendingAfter events pending) stream →
    streamOf input = (BitStream.onto (emitted events pending) stream).drop (pending + 32) →
      ∃ input', ArithmeticDecoder.read (BinaryFrequencyTable.fresh.set (model context)) iv
          ⟨input, codeAt 30 pending (.onto (emitted events pending) stream)⟩ =
          .ok (bit.toNat, iv', ⟨input', codeAt 30 (pendingAfter events pending) stream⟩) ∧
        streamOf input' = stream.drop (pendingAfter events pending + 32)

theorem Normal.steps (h : Normal iv) (model : Predictor) (context : List Nat) (bit : Bool) :
    ∃ events iv', Steps model context iv bit events iv' := by
  let freqs := BinaryFrequencyTable.fresh.set (model context)
  have hfreqs : Codable freqs := codable_set _ _
  obtain ⟨events, iv', hscale, hlength, hnormal, hrun⟩ := update_eq h hfreqs bit
  obtain ⟨hlt, hle⟩ := symInterval_bounds h hfreqs bit
  have hbounds := h.range
  have hhigh : (symInterval freqs bit iv).high ≤ iv.high := by
    unfold symInterval
    dsimp only
    omega
  refine ⟨events, iv', hlength, hnormal, ?_, ?_, ?_⟩
  · intro out pending bits hroom hholds
    obtain ⟨out', hevents, hholds'⟩ := @Holds.runEvents bits ⟨out, pending⟩ hholds events hroom
    refine ⟨out', ?_, hholds'⟩
    have hwrite : ArithmeticEncoder.write freqs bit.toNat iv ⟨out, pending⟩ =
        .ok (iv', ⟨out', pendingAfter events pending⟩) := by
      rw [ArithmeticEncoder.write, hrun ArithmeticEncoder.shift encoderShift
        ArithmeticEncoder.underflow encoderShift_eq, hevents, ok_bind]
    unfold compressBit
    dsimp only
    rw [hwrite]
    rfl
  · intro pending stream hinside
    exact (hscale.inside hinside).mono (Nat.le_add_right _ _) hhigh
  · intro pending stream input hinside hstream
    have hpart := hscale.inside hinside
    obtain ⟨input', hevents, hdrop⟩ := @runEvents_decoder events
      ⟨input, codeAt 30 pending (.onto (emitted events pending) stream)⟩ (codeAt_lt _ _ _)
    rw [hstream, registerAfter_codeAt] at hevents
    refine ⟨input', ?_, ?_⟩
    · have hread := @read_eq iv freqs bit h hfreqs
        ⟨input, codeAt 30 pending (.onto (emitted events pending) stream)⟩ hpart.low_le
        hpart.le_high
      rw [hread, hrun ArithmeticDecoder.shift decoderShift ArithmeticDecoder.underflow
          fun _ _ _ _ => rfl, hevents, ok_bind, ok_bind]
      exact if_neg (not_not.mpr ⟨hinside.low_le, hinside.le_high⟩)
    · have hcount := length_emitted events pending
      rw [hdrop]
      dsimp only
      rw [hstream, BitStream.drop_drop, show pending + 32 + events.length =
          (emitted events pending).length + (pendingAfter events pending + 32) by omega,
        ← BitStream.drop_drop, BitStream.drop_onto]

/-- The run of the coders over a bit list from the same interval on. -/
structure Codes (model : Predictor) (context : List Nat) (iv : Interval) (pending : Nat)
    (bits : List Bool) (code : List Bool) (vars : List Nat × Interval × Nat) : Prop where
  normal : Normal vars.2.1
  encodes : ∀ {out : BitOutputStream} {written : List Bool}, Holds out written →
    ∃ out', forEach bits ⟨context, iv, ⟨out, pending⟩⟩ (compressBit model) =
        .ok ⟨vars.1, vars.2.1, ⟨out', vars.2.2⟩⟩ ∧ Holds out' (written ++ code)
  inside : ∀ {stream : BitStream}, Inside 30 vars.2.1 vars.2.2 stream →
    Inside 30 iv pending (.onto code stream)
  decodes : bits ≠ [] → ∀ {stream : BitStream} {input : BitInputStream} (out : List Nat),
    Inside 30 vars.2.1 vars.2.2 stream →
    streamOf input = (BitStream.onto code stream).drop (pending + 32) →
      ∀ fuel, bits.length ≤ fuel →
        decompressLoop model (out.length + bits.length) fuel context iv
            ⟨input, codeAt 30 pending (.onto code stream)⟩ out =
          .ok (out ++ bits.map Bool.toNat)

theorem pendingAfter_le (events : List Rescale) (pending : Nat) :
    pendingAfter events pending ≤ pending + events.length := by
  have hcount := length_emitted events pending
  omega

theorem Normal.codes (h : Normal iv) (model : Predictor) (context : List Nat) (pending : Nat)
    (bits : List Bool) (hroom : pending + 64 * bits.length < 2 ^ 64 - 1) :
    ∃ code vars, Codes model context iv pending bits code vars := by
  induction bits generalizing iv context pending with
  | nil =>
    refine ⟨[], (context, iv, pending), h, ?_, id, ?_⟩
    · intro out written hholds
      exact ⟨out, rfl, by rwa [List.append_nil]⟩
    · intro hne
      exact absurd rfl hne
  | cons bit bits ih =>
    obtain ⟨events, iv', hsteps⟩ := h.steps model context bit
    have hlength := hsteps.length_le
    have hpending := pendingAfter_le events pending
    rw [List.length_cons] at hroom
    obtain ⟨code, vars, hcodes⟩ := ih hsteps.normal (pushContext context bit.toNat)
      (pendingAfter events pending) (by omega)
    refine ⟨emitted events pending ++ code, vars, hcodes.normal, ?_, ?_, ?_⟩
    · intro out written hholds
      obtain ⟨out', hbit, hholds'⟩ := @hsteps.encodes out pending written (by omega) hholds
      obtain ⟨out'', hrest, hholds''⟩ := hcodes.encodes hholds'
      refine ⟨out'', ?_, by rwa [List.append_assoc] at hholds''⟩
      rw [forEach_cons, hbit, ok_bind, hrest]
    · intro stream hinside
      rw [BitStream.onto_append]
      exact hsteps.inside (hcodes.inside hinside)
    · intro _ stream input out hinside hstream fuel hfuel
      rw [BitStream.onto_append] at hstream ⊢
      have hinside' := hcodes.inside hinside
      obtain ⟨input', hread, hstream'⟩ := hsteps.decodes hinside' hstream
      obtain ⟨fuel, rfl⟩ : ∃ rest, fuel = rest + 1 := ⟨fuel - 1, by simp at hfuel; omega⟩
      rw [decompressLoop]
      dsimp only
      rw [hread, ok_bind]
      dsimp only
      cases bits with
      | nil =>
        rw [if_pos (by simp)]
        rfl
      | cons next bits =>
        rw [if_neg (by simp)]
        have hrest := hcodes.decodes (List.cons_ne_nil _ _) (out ++ [bit.toNat]) hinside
          hstream' fuel (Nat.le_of_succ_le_succ hfuel)
        rw [List.length_append, List.length_singleton, List.append_assoc] at hrest
        rw [@List.length_cons _ bit, Nat.add_comm _ 1, ← Nat.add_assoc]
        exact hrest

/-- The one bit of `finish`, and the zeros behind it, lie in every interval. -/
theorem Normal.inside_finish (h : Normal iv) (pending : Nat) :
    Inside 30 iv pending (.onto [true] .zeros) := by
  have hdrop : (BitStream.onto [true] .zeros).drop (pending + 1) = .zeros := rfl
  have hcode : codeAt 30 pending (.onto [true] .zeros) = 2 ^ 31 := by
    unfold codeAt
    rw [hdrop, BitStream.value_zeros]
    rfl
  have hlow := h.low_lt
  have hhigh := h.high_ge
  constructor
  · rw [hcode]
    omega
  · rw [hcode]
    omega
  · intro i _
    rfl

theorem compressBits_returns (model : Predictor) (bits : List Bool)
    (hlength : bits.length < 2 ^ 31) :
    ∃ data, compressBits model bits = .ok data ∧ (bits ≠ [] →
      decompressLoop model bits.length bits.length (List.replicate contextSize 0) freshInterval
        (ArithmeticDecoder.fresh (.fresh data)) [] = .ok (bits.map Bool.toNat)) := by
  obtain ⟨code, ⟨context, iv, pending⟩, hcodes⟩ :=
    normal_fresh.codes model (List.replicate contextSize 0) 0 bits (by omega)
  obtain ⟨out, hencode, hholds⟩ := hcodes.encodes holds_fresh
  obtain ⟨out', hwrite, hholds', -⟩ := hholds.write true
  have hfilled := hholds'.filled_lt
  obtain ⟨out'', n, hfinish, hbits⟩ := @hholds'.finish _ _ 8 (by omega)
  have hstream : BitStream.onto (bitsOf out''.output) .zeros =
      .onto code (.onto [true] .zeros) := by
    rw [hbits, BitStream.onto_append, BitStream.onto_replicate_false_zeros, List.nil_append,
      BitStream.onto_append]
  refine ⟨out''.output, ?_, ?_⟩
  · have hone : ArithmeticEncoder.finish ⟨out, pending⟩ = .ok ⟨out', pending⟩ := by
      unfold ArithmeticEncoder.finish
      rw [show (1 : Nat) = true.toNat from rfl, hwrite]
      rfl
    unfold compressBits CompressVars.fresh
    rw [hencode, ok_bind, hone, ok_bind, hfinish]
    rfl
  · intro hne
    obtain ⟨input, hfresh, hrest⟩ := fresh_eq out''.output
    rw [hstream] at hfresh hrest
    have hloop := hcodes.decodes hne [] (hcodes.normal.inside_finish pending) hrest bits.length le_rfl
    rw [hfresh]
    rwa [List.length_nil, Nat.zero_add, List.nil_append] at hloop

/-- Every list of bits whose length an `int` holds comes back, whatever the
predictor says. -/
theorem decompressBits_compressBits (model : Predictor) (bits : List Bool) (hne : bits ≠ [])
    (hlength : bits.length < 2 ^ 31) :
    ∃ data, compressBits model bits = .ok data ∧
      decompressBits model data (asInt32 bits.length) = .ok (bits.map Bool.toNat) := by
  obtain ⟨data, hcompress, hloop⟩ := compressBits_returns model bits hlength
  have hsize : asUint64 (asInt32 bits.length) = bits.length := by
    rw [asInt32_of_lt hlength]
    exact asUint64_natCast (by omega)
  refine ⟨data, hcompress, ?_⟩
  unfold decompressBits
  dsimp only
  rw [hsize]
  exact hloop hne

theorem decompressBits_compressBits_pair :
    [true, false] ≠ [] ∧ [true, false].length < 2 ^ 31 ∧
      ∃ data, compressBits (fun _ => 0) [true, false] = .ok data ∧
        decompressBits (fun _ => 0) data (asInt32 2) = .ok [1, 0] :=
  ⟨by decide, by decide, decompressBits_compressBits (fun _ => 0) [true, false] (by decide) (by decide)⟩

theorem length_decompressLoop (model : Predictor) (size : Nat) {fuel : Nat} {context : List Nat}
    {dec : DecoderState} {out result : List Nat}
    (h : decompressLoop model size fuel context iv dec out = .ok result) :
    result.length = size := by
  induction fuel generalizing context iv dec out with
  | zero => cases h
  | succ fuel ih =>
    rw [decompressLoop] at h
    obtain ⟨⟨symbol, iv', dec'⟩, -, h⟩ := bind_eq_ok.mp h
    dsimp only at h
    by_cases hsize : (out ++ [symbol]).length = size
    · rw [if_pos hsize] at h
      cases h
      exact hsize
    · rw [if_neg hsize] at h
      exact ih h

/-- From 2^31 bits on the `int` argument no longer says how many there are. -/
theorem decompressBits_loses_long_list :
    ¬ ∀ (model : Predictor) (bits : List Bool), bits ≠ [] →
      ∃ data, compressBits model bits = .ok data ∧
        decompressBits model data (asInt32 bits.length) = .ok (bits.map Bool.toNat) := by
  intro h
  have hlength : (List.replicate (2 ^ 32 + 1) true).length = 2 ^ 32 + 1 := List.length_replicate
  obtain ⟨data, -, hrun⟩ := h (fun _ => 0) (List.replicate (2 ^ 32 + 1) true)
    (List.ne_nil_of_length_eq_add_one hlength)
  unfold decompressBits at hrun
  have hresult := length_decompressLoop _ _ hrun
  rw [List.length_map, hlength] at hresult
  revert hresult
  decide

end run

end TonCompress.Arith
