import TonCompress.Arith.Update

/-! The bits that the encoder writes and the decoder reads back. -/
namespace TonCompress.Arith
open TonCompress.Lib

/-- The bits written to an output stream so far. -/
structure Holds (out : BitOutputStream) (bits : List Bool) : Prop where
  filled_lt : out.numBitsFilled < 8
  byte_lt : out.currentByte < 2 ^ out.numBitsFilled
  bits_eq : bits = bitsOf out.output ++ lowBits out.numBitsFilled out.currentByte

theorem holds_fresh : Holds .fresh [] := ⟨by decide, by decide, rfl⟩

section writing
variable {out : BitOutputStream} {bits : List Bool}

theorem Holds.write (h : Holds out bits) (bit : Bool) :
    ∃ out', out.write bit.toNat = .ok out' ∧ Holds out' (bits ++ [bit]) ∧
      out'.numBitsFilled = (out.numBitsFilled + 1) % 8 := by
  obtain ⟨hfilled, hbyte, rfl⟩ := h
  have hbit := Bool.toNat_le bit
  have hpush : (out.currentByte <<< 1) ||| bit.toNat = 2 * out.currentByte + bit.toNat := by
    rw [Nat.shiftLeft_eq, Nat.mul_comm, pow_one, double_or_bit _ (by omega)]
  have hlt : 2 * out.currentByte + bit.toNat < 2 ^ (out.numBitsFilled + 1) := by
    rw [pow_succ]
    omega
  unfold BitOutputStream.write
  rw [if_neg (by omega), hpush]
  dsimp only
  by_cases hfull : out.numBitsFilled + 1 = 8
  · rw [if_pos hfull]
    rw [hfull] at hlt
    have hnat : (UInt8.ofNat (2 * out.currentByte + bit.toNat)).toNat =
        2 * out.currentByte + bit.toNat := by
      rw [UInt8.toNat_ofNat']
      exact Nat.mod_eq_of_lt hlt
    refine ⟨_, rfl, ⟨Nat.zero_lt_succ 7, Nat.one_pos, ?_⟩, by dsimp only; omega⟩
    rw [bitsOf_append, bitsOf_singleton, hnat, ← hfull, lowBits_push, lowBits_zero,
      List.append_nil, List.append_assoc]
  · rw [if_neg hfull]
    refine ⟨_, rfl, ⟨by dsimp only; omega, hlt, ?_⟩, by dsimp only; omega⟩
    rw [lowBits_push, List.append_assoc]

theorem Holds.writeUnderflow (h : Holds out bits) (bit : Bool) (n : Nat) :
    ∃ out', ArithmeticEncoder.writeUnderflow bit.toNat n out = .ok out' ∧
      Holds out' (bits ++ List.replicate n (!bit)) := by
  induction n generalizing out bits with
  | zero => exact ⟨out, rfl, by simpa using h⟩
  | succ n ih =>
    obtain ⟨out', hwrite, hholds, -⟩ := h.write (!bit)
    obtain ⟨out'', hrest, hholds'⟩ := ih hholds
    have hflip : bit.toNat ^^^ 1 = (!bit).toNat := by cases bit <;> rfl
    refine ⟨out'', ?_, ?_⟩
    · rw [ArithmeticEncoder.writeUnderflow, hflip, hwrite, ok_bind, hrest]
    · rwa [List.replicate_succ, List.append_cons]

theorem Holds.finish (h : Holds out bits) {fuel : Nat}
    (hfuel : (8 - out.numBitsFilled) % 8 < fuel) :
    ∃ out' n, out.finish fuel = .ok out' ∧
      bitsOf out'.output = bits ++ List.replicate n false := by
  induction fuel generalizing out bits with
  | zero => omega
  | succ fuel ih =>
    rw [BitOutputStream.finish]
    by_cases hzero : out.numBitsFilled = 0
    · rw [if_neg (not_not.mpr hzero)]
      refine ⟨out, 0, rfl, ?_⟩
      rw [h.bits_eq, hzero]
      simp
    · rw [if_pos hzero]
      have hfilled := h.filled_lt
      obtain ⟨out', hwrite, hholds, hnext⟩ := h.write false
      obtain ⟨out'', n, hrest, hbits⟩ := ih hholds (by omega)
      refine ⟨out'', n + 1, ?_, ?_⟩
      · rw [show (0 : Nat) = false.toNat from rfl, hwrite, ok_bind, hrest]
      · rw [hbits, List.append_assoc, List.singleton_append, ← List.replicate_succ]

def encoderShift (bit : Bool) (enc : EncoderState) : ArithExec EncoderState := do
  let output ← enc.output.write bit.toNat
  let output ← ArithmeticEncoder.writeUnderflow bit.toNat enc.numUnderflow output
  return ⟨output, 0⟩

theorem encoderShift_eq (iv : Interval) (bit : Bool) (enc : EncoderState)
    (h : iv.low / 2 ^ 31 = bit.toNat) : ArithmeticEncoder.shift iv enc = encoderShift bit enc := by
  have hbit : iv.low >>> (numStateBits - 1) = bit.toNat := by
    rw [Nat.shiftRight_eq_div_pow]
    exact h
  unfold ArithmeticEncoder.shift encoderShift
  rw [hbit]

theorem Holds.runEvents {enc : EncoderState} (h : Holds enc.output bits) (events : List Rescale)
    (hroom : enc.numUnderflow + events.length < 2 ^ 64 - 1) :
    ∃ output, runEvents encoderShift ArithmeticEncoder.underflow events enc =
        .ok ⟨output, pendingAfter events enc.numUnderflow⟩ ∧
      Holds output (bits ++ emitted events enc.numUnderflow) := by
  induction events generalizing enc bits with
  | nil => exact ⟨enc.output, rfl, by simpa [emitted] using h⟩
  | cons event events ih =>
    rw [List.length_cons] at hroom
    cases event with
    | shift bit =>
      obtain ⟨out, hwrite, hholds, -⟩ := h.write bit
      obtain ⟨out', hunderflow, hholds'⟩ := hholds.writeUnderflow bit enc.numUnderflow
      obtain ⟨output, hrun, hfinal⟩ := @ih _ ⟨out', 0⟩ hholds' (by dsimp only; omega)
      refine ⟨output, ?_, ?_⟩
      · rw [Arith.runEvents, encoderShift, hwrite, ok_bind, hunderflow, ok_bind]
        exact hrun
      · simpa [emitted] using hfinal
    | underflow =>
      obtain ⟨output, hrun, hfinal⟩ :=
        @ih _ ⟨enc.output, enc.numUnderflow + 1⟩ h (by dsimp only; omega)
      refine ⟨output, ?_, hfinal⟩
      rw [Arith.runEvents, ArithmeticEncoder.underflow, if_neg (by omega)]
      exact hrun

end writing

section reading

/-- The bits an input stream still has to give, zeros behind its end. -/
def streamOf (bin : BitInputStream) : BitStream :=
  .onto (match bin.currentByte with
    | none => []
    | some byte => lowBits bin.numBitsRemaining byte.toNat ++ bitsOf bin.input) .zeros

theorem streamOf_fresh (data : List UInt8) :
    streamOf (.fresh data) = .onto (bitsOf data) .zeros := rfl

theorem readCodeBit_eq (bin : BitInputStream) :
    ∃ bin', ArithmeticDecoder.readCodeBit bin = ((streamOf bin 0).toNat, bin') ∧
      streamOf bin' = (streamOf bin).drop 1 := by
  have hbit : ∀ value i : Nat, (value >>> i) &&& 1 = (value.testBit i).toNat := by
    intro value i
    rw [Nat.and_one_is_mod, Nat.shiftRight_eq_div_pow, Nat.testBit_eq_decide_div_mod_eq]
    rcases Nat.mod_two_eq_zero_or_one (value / 2 ^ i) with h | h <;> simp [h]
  obtain ⟨input, currentByte, numBitsRemaining⟩ := bin
  cases currentByte with
  | none => exact ⟨_, rfl, rfl⟩
  | some byte =>
    cases numBitsRemaining with
    | zero =>
      cases input with
      | nil => exact ⟨_, rfl, rfl⟩
      | cons next input =>
        refine ⟨⟨input, some next, 7⟩, ?_, ?_⟩
        · simp [ArithmeticDecoder.readCodeBit, BitInputStream.read, streamOf, bitsOf_cons,
            lowBits_succ, hbit]
        · simp only [streamOf, lowBits_zero, List.nil_append, bitsOf_cons, lowBits_succ 7]
          rfl
    | succ left =>
      refine ⟨⟨input, some byte, left⟩, ?_, ?_⟩
      · simp [ArithmeticDecoder.readCodeBit, BitInputStream.read, streamOf, lowBits_succ, hbit]
      · simp only [streamOf, lowBits_succ]
        rfl

def decoderShift (_bit : Bool) (dec : DecoderState) : ArithExec DecoderState :=
  ArithmeticDecoder.shift freshInterval dec

theorem shift_register (code : Nat) (bit bit' : Bool) :
    ((code <<< 1) &&& stateMask) ||| bit'.toNat = (Rescale.shift bit).register 30 code bit' := by
  have hmask : stateMask = 2 ^ 32 - 1 := rfl
  have hbit := Bool.toNat_le bit'
  have heven : 2 * code % 2 ^ 32 = 2 * (code % 2 ^ 31) := by omega
  unfold Rescale.register
  dsimp only
  rw [hmask, Nat.and_two_pow_sub_one_eq_mod, Nat.shiftLeft_eq, pow_one, Nat.mul_comm, heven,
    double_or_bit _ (by omega)]

theorem underflow_register {code : Nat} (h : code < 2 ^ 32) (bit : Bool) :
    (code &&& halfRange) ||| ((code <<< 1) &&& (stateMask >>> 1)) ||| bit.toNat =
      Rescale.underflow.register 30 code bit := by
  have hhalf : halfRange = 2 ^ 31 := rfl
  have hmask : stateMask >>> 1 = 2 ^ 31 - 1 := rfl
  have hbit := Bool.toNat_le bit
  have htop : code &&& 2 ^ 31 = 2 ^ 31 * (code / 2 ^ 31) := by
    have hquot : code / 2 ^ 31 = 0 ∨ code / 2 ^ 31 = 1 := by omega
    rw [Nat.and_two_pow, Nat.testBit_eq_decide_div_mod_eq]
    obtain hquot | hquot := hquot
    all_goals
      rw [hquot]
      rfl
  have heven : 2 * code % 2 ^ 31 = 2 * (code % 2 ^ 30) := by omega
  have hlow : 2 * (code % 2 ^ 30) < 2 ^ 31 := by omega
  have hdouble : 2 ^ 31 * (code / 2 ^ 31) + 2 * (code % 2 ^ 30) =
      2 * (2 ^ 30 * (code / 2 ^ 31) + code % 2 ^ 30) := by
    omega
  unfold Rescale.register
  dsimp only
  rw [hhalf, hmask, Nat.and_two_pow_sub_one_eq_mod, Nat.shiftLeft_eq, pow_one, Nat.mul_comm code 2,
    heven, htop, ← Nat.two_pow_add_eq_or_of_lt hlow, hdouble, double_or_bit _ (by omega), ← hdouble,
    Nat.mul_comm]

theorem register_lt (event : Rescale) {code : Nat} (h : code < 2 ^ 32) (bit : Bool) :
    event.register 30 code bit < 2 ^ 32 := by
  have hbit := Bool.toNat_le bit
  cases event with
  | shift _ =>
    unfold Rescale.register
    dsimp only
    omega
  | underflow =>
    unfold Rescale.register
    dsimp only
    omega

theorem runEvents_decoder (events : List Rescale) {dec : DecoderState} (h : dec.code < 2 ^ 32) :
    ∃ input, runEvents decoderShift ArithmeticDecoder.underflow events dec =
        .ok ⟨input, registerAfter 30 events dec.code (streamOf dec.input)⟩ ∧
      streamOf input = (streamOf dec.input).drop events.length := by
  induction events generalizing dec with
  | nil => exact ⟨dec.input, rfl, rfl⟩
  | cons event events ih =>
    obtain ⟨input, hread, hstream⟩ := readCodeBit_eq dec.input
    obtain ⟨input', hrun, hdrop⟩ :=
      @ih ⟨input, event.register 30 dec.code (streamOf dec.input 0)⟩ (register_lt event h _)
    rw [hstream] at hrun hdrop
    refine ⟨input', ?_, ?_⟩
    · cases event with
      | shift bit =>
        rw [runEvents, decoderShift, ArithmeticDecoder.shift, hread]
        dsimp only
        rw [shift_register _ bit, ok_bind]
        exact hrun
      | underflow =>
        rw [runEvents, ArithmeticDecoder.underflow, hread]
        dsimp only
        rw [underflow_register h, ok_bind]
        exact hrun
    · rw [hdrop, BitStream.drop_drop, List.length_cons, Nat.add_comm]

theorem fill_eq (n : Nat) (input : BitInputStream) (code : Nat) :
    ∃ input', ArithmeticDecoder.fill n ⟨input, code⟩ =
        ⟨input', code * 2 ^ n + (streamOf input).value n⟩ ∧
      streamOf input' = (streamOf input).drop n := by
  induction n generalizing input code with
  | zero => exact ⟨input, by simp [ArithmeticDecoder.fill, BitStream.value], rfl⟩
  | succ n ih =>
    obtain ⟨input', hread, hstream⟩ := readCodeBit_eq input
    obtain ⟨input'', hfill, hdrop⟩ := ih input' ((code <<< 1) ||| (streamOf input 0).toNat)
    have hbit := Bool.toNat_le (streamOf input 0)
    refine ⟨input'', ?_, ?_⟩
    · rw [ArithmeticDecoder.fill, hread]
      dsimp only
      rw [hfill, hstream, BitStream.value, Nat.shiftLeft_eq, pow_one, Nat.mul_comm code 2,
        double_or_bit _ (by omega), pow_succ]
      congr 1
      ring
    · rw [hdrop, hstream, BitStream.drop_drop, Nat.add_comm]

theorem fresh_eq (data : List UInt8) :
    ∃ input, ArithmeticDecoder.fresh (.fresh data) =
        ⟨input, codeAt 30 0 (.onto (bitsOf data) .zeros)⟩ ∧
      streamOf input = (BitStream.onto (bitsOf data) .zeros).drop 32 := by
  obtain ⟨input, hfill, hdrop⟩ := fill_eq numStateBits (.fresh data) 0
  rw [streamOf_fresh] at hfill hdrop
  refine ⟨input, ?_, hdrop⟩
  rw [ArithmeticDecoder.fresh, hfill, Nat.zero_mul, Nat.zero_add]
  rfl

end reading

end TonCompress.Arith
