import TonCompress.Coder.Coder
import TonCompress.Arith.BitIo
import TonCompress.Lib.Narrow

/-! Renormalisation for every state size. -/
namespace TonCompress.Coder
open TonCompress.Lib TonCompress.Arith

namespace StateSize
variable (size : StateSize)

def top : Nat := size.numStateBits - 1

theorem numStateBits_eq : size.numStateBits = size.top + 1 := (Nat.succ_pred_eq_of_pos size.pos).symm

theorem two_pow_top_le : 2 ^ size.top ≤ 2 ^ 62 :=
  Nat.pow_le_pow_right Nat.two_pos (Nat.pred_le_pred size.le)

theorem fullRange_eq : size.fullRange = 2 * 2 ^ size.top := by
  rw [fullRange, numStateBits_eq, Nat.shiftLeft_eq, Nat.one_mul, pow_succ']

theorem halfRange_eq : size.halfRange = 2 ^ size.top := by
  rw [halfRange, fullRange_eq, Nat.shiftRight_eq_div_pow, pow_one,
    Nat.mul_div_cancel_left _ Nat.two_pos]

theorem quarterRange_eq : size.quarterRange = 2 ^ size.top / 2 := by
  rw [quarterRange, halfRange_eq, Nat.shiftRight_eq_div_pow, pow_one]

theorem stateMask_eq : size.stateMask = 2 ^ (size.top + 1) - 1 := by
  rw [stateMask, fullRange_eq, pow_succ']

theorem quarterRange_cases :
    size.top = 0 ∧ size.quarterRange = 0 ∨
      ∃ v, size.top = v + 1 ∧ size.quarterRange = 2 ^ v := by
  rw [quarterRange_eq]
  cases h : size.top with
  | zero => exact .inl ⟨rfl, rfl⟩
  | succ v => exact .inr ⟨v, rfl, by rw [pow_succ', Nat.mul_div_cancel_left _ Nat.two_pos]⟩

end StateSize

/-- The state of `low` and `high` between two symbols. -/
structure Normal (size : StateSize) (iv : Interval) : Prop where
  low_lt : iv.low < 2 ^ size.top
  high_ge : 2 ^ size.top ≤ iv.high
  high_lt : iv.high < 2 * 2 ^ size.top
  apart : iv.low < size.quarterRange ∨ 2 ^ size.top + size.quarterRange ≤ iv.high

section loops
variable {size : StateSize}

theorem normal_fresh (size : StateSize) : Normal size size.freshInterval := by
  have hpos := Nat.two_pow_pos size.top
  have hmask : size.freshInterval.high = 2 * 2 ^ size.top - 1 := by
    rw [StateSize.freshInterval, StateSize.stateMask_eq, pow_succ']
  have hquarter := size.quarterRange_eq
  refine ⟨hpos, ?_, ?_, .inr ?_⟩
  · omega
  · omega
  · omega

theorem Normal.range {iv : Interval} (h : Normal size iv) :
    size.minimumRange ≤ iv.high - iv.low + 1 ∧ iv.high - iv.low + 1 ≤ size.fullRange := by
  obtain ⟨h1, h2, h3, h4⟩ := h
  have hquarter := size.quarterRange_eq
  rw [StateSize.minimumRange, StateSize.fullRange_eq]
  rcases size.quarterRange_cases with ⟨hone, hzero⟩ | ⟨v, htop, hpow⟩
  · have hhalf : 2 ^ size.top = 1 := by rw [hone, pow_zero]
    omega
  · have hhalf : 2 ^ size.top = 2 * 2 ^ v := by rw [htop, pow_succ']
    omega

theorem double64_of_lt (size : StateSize) {x : Nat} (h : x < 2 * 2 ^ size.top) : double64 x = 2 * x := by
  have hsize := size.two_pow_top_le
  rw [double64, Nat.shiftLeft_eq, pow_one, Nat.mul_comm]
  exact Nat.mod_eq_of_lt (by omega)

theorem shift_low {low : Nat} {bit : Bool} (h : low / 2 ^ size.top = bit.toNat) :
    double64 low &&& size.stateMask = 2 * (low - bit.toNat * 2 ^ size.top) := by
  have hbit := Bool.toNat_le bit
  have hsplit := Nat.div_add_mod' low (2 ^ size.top)
  have hrest := Nat.mod_lt low (Nat.two_pow_pos size.top)
  have hmul := Nat.mul_le_mul_right (2 ^ size.top) hbit
  rw [h] at hsplit
  rw [double64_of_lt size (by omega), StateSize.stateMask_eq, Nat.and_two_pow_sub_one_eq_mod, pow_succ',
    Nat.mul_mod_mul_left]
  omega

theorem shift_high {high : Nat} {bit : Bool} (h : high / 2 ^ size.top = bit.toNat) :
    (double64 high &&& size.stateMask) ||| 1 = 2 * (high - bit.toNat * 2 ^ size.top) + 1 := by
  rw [shift_low h, double_or_bit _ (by omega)]

theorem div_half_lt {x : Nat} (h : x < 2 * 2 ^ size.top) : x / 2 ^ size.top < 2 :=
  Nat.div_lt_of_lt_mul (by rwa [Nat.mul_comm])

theorem shift_guard {low high : Nat} (hlow : low < 2 * 2 ^ size.top)
    (hhigh : high < 2 * 2 ^ size.top) :
    (low ^^^ high) &&& size.halfRange = 0 ↔ low / 2 ^ size.top = high / 2 ^ size.top := by
  have hlow' := div_half_lt hlow
  have hhigh' := div_half_lt hhigh
  rw [StateSize.halfRange_eq, xor_and_two_pow_eq_zero, Nat.testBit_eq_decide_div_mod_eq,
    Nat.testBit_eq_decide_div_mod_eq, decide_eq_decide]
  generalize low / 2 ^ size.top = bit at *
  generalize high / 2 ^ size.top = bit' at *
  omega

theorem underflow_guard {low high : Nat} (hlow : low < 2 ^ size.top) (hhigh : 2 ^ size.top ≤ high)
    (hlt : high < 2 * 2 ^ size.top) :
    low &&& not64 high &&& size.quarterRange ≠ 0 ↔
      size.quarterRange ≤ low ∧ high < 2 ^ size.top + size.quarterRange := by
  have hsize := size.two_pow_top_le
  rcases size.quarterRange_cases with ⟨-, hzero⟩ | ⟨v, htop, hpow⟩
  · rw [hzero, Nat.and_zero]
    omega
  · have hdouble : 2 ^ size.top = 2 * 2 ^ v := by rw [htop, pow_succ']
    have hpos := Nat.two_pow_pos v
    rw [hdouble] at hlow hhigh hlt hsize ⊢
    have hlow' : low / 2 ^ v % 2 = 1 ↔ 2 ^ v ≤ low := by
      have hquot : low / 2 ^ v < 2 := Nat.div_lt_of_lt_mul (by omega)
      have hge := @Nat.le_div_iff_mul_le (2 ^ v) 1 low hpos
      generalize low / 2 ^ v = quot at *
      omega
    have hhigh' : high / 2 ^ v % 2 = 1 ↔ ¬ high < 2 * 2 ^ v + 2 ^ v := by
      have hquot : high / 2 ^ v < 4 := Nat.div_lt_of_lt_mul (by omega)
      have hge := @Nat.le_div_iff_mul_le (2 ^ v) 2 high hpos
      have hge' := @Nat.le_div_iff_mul_le (2 ^ v) 3 high hpos
      generalize high / 2 ^ v = quot at *
      omega
    rw [hpow, Nat.and_two_pow, Nat.testBit_and, not64, Nat.testBit_two_pow_sub_succ (by omega),
      Nat.testBit_eq_decide_div_mod_eq, Nat.testBit_eq_decide_div_mod_eq]
    have hbit : v < 64 := by
      have hle := size.le
      have hbits := size.numStateBits_eq
      omega
    simp only [hlow', hhigh']
    simp [hbit]

theorem underflow_low {low : Nat} (hge : size.quarterRange ≤ low) (hlt : low < 2 ^ size.top)
    (hquarter : 2 * size.quarterRange = 2 ^ size.top) :
    double64 low ^^^ size.halfRange = 2 * low - 2 ^ size.top := by
  rw [double64_of_lt size (by omega), StateSize.halfRange_eq,
    show 2 * low = (2 * low - 2 ^ size.top) + 2 ^ size.top by omega, add_two_pow_xor (by omega)]
  omega

theorem underflow_high {high : Nat} (hge : 2 ^ size.top ≤ high)
    (hlt : high < 2 ^ size.top + size.quarterRange)
    (hquarter : 2 * size.quarterRange = 2 ^ size.top) :
    double64 (high ^^^ size.halfRange) ||| size.halfRange ||| 1 = 2 * high - 2 ^ size.top + 1 := by
  have hflip : high ^^^ 2 ^ size.top = high - 2 ^ size.top := by
    have hxor := @add_two_pow_xor (high - 2 ^ size.top) size.top (by omega)
    rwa [Nat.sub_add_cancel hge] at hxor
  have hsum : 2 * (high - 2 ^ size.top) + 2 ^ size.top =
      2 * (high - 2 ^ size.top + size.quarterRange) := by
    omega
  rw [StateSize.halfRange_eq, hflip, double64_of_lt size (by omega),
    Nat.or_two_pow_eq_add_of_lt (by omega), hsum, double_or_bit _ (by omega)]
  omega

/-- Each round doubles the width of the interval, so that the loop ends with the ends in
different halves. -/
theorem shiftLoop_eq {fuel low high : Nat} (hle : low ≤ high) (hlt : high < 2 * 2 ^ size.top)
    (hfuel : 2 * 2 ^ size.top < (high - low + 1) * 2 ^ fuel) :
    ∃ events iv', Scaling size.top (Interval.widen ⟨low, high⟩) events iv'.widen ∧
      iv'.low < 2 ^ size.top ∧ 2 ^ size.top ≤ iv'.high ∧ iv'.high < 2 * 2 ^ size.top ∧
      ∀ {σ : Type} (shift : Interval → σ → ArithExec σ) (shift' : Bool → σ → ArithExec σ)
        (underflow : σ → ArithExec σ)
        (_ : ∀ iv bit state, iv.low / 2 ^ size.top = bit.toNat → shift iv state = shift' bit state)
        (state : σ), shiftLoop size shift fuel ⟨low, high⟩ state =
          runEvents shift' underflow events state >>= fun state => .ok (iv', state) := by
  induction fuel generalizing low high with
  | zero =>
    rw [pow_zero] at hfuel
    omega
  | succ fuel ih =>
    by_cases htop : low / 2 ^ size.top = high / 2 ^ size.top
    · obtain ⟨bit, hbit⟩ : ∃ bit : Bool, low / 2 ^ size.top = bit.toNat := by
        have htwo : low / 2 ^ size.top < 2 := div_half_lt (by omega)
        interval_cases low / 2 ^ size.top
        · exact ⟨false, rfl⟩
        · exact ⟨true, rfl⟩
      have hbit' : high / 2 ^ size.top = bit.toNat := htop ▸ hbit
      have hlow := Nat.div_add_mod' low (2 ^ size.top)
      have hhigh := Nat.div_add_mod' high (2 ^ size.top)
      have hrest := Nat.mod_lt high (Nat.two_pow_pos size.top)
      rw [hbit] at hlow
      rw [hbit'] at hhigh
      have hdouble : 2 * (high - bit.toNat * 2 ^ size.top) + 1 -
          2 * (low - bit.toNat * 2 ^ size.top) + 1 = (high - low + 1) * 2 := by
        omega
      obtain ⟨events, iv', hscale, h1, h2, h3, hrun⟩ :=
        @ih (2 * (low - bit.toNat * 2 ^ size.top)) (2 * (high - bit.toNat * 2 ^ size.top) + 1)
          (by omega) (by omega) (by rw [hdouble, Nat.mul_assoc, ← pow_succ' 2 fuel]; exact hfuel)
      refine ⟨.shift bit :: events, iv', .widen_shift hbit hbit' hscale, h1, h2, h3, ?_⟩
      intro σ shift shift' underflow hagree state
      rw [shiftLoop, if_pos ((shift_guard (by omega) hlt).mpr htop), runEvents,
        hagree _ bit state hbit, bind_assoc]
      dsimp only
      rw [shift_low hbit, shift_high hbit']
      exact bind_congr fun state => hrun shift shift' underflow hagree state
    · have hlow := @Nat.div_le_div_right low high (2 ^ size.top) hle
      have htwo := div_half_lt hlt
      have hpos := Nat.two_pow_pos size.top
      have hfirst : low / 2 ^ size.top = 0 := by
        generalize low / 2 ^ size.top = bit at *
        generalize high / 2 ^ size.top = bit' at *
        omega
      have hlast : 1 ≤ high / 2 ^ size.top := by
        generalize low / 2 ^ size.top = bit at *
        generalize high / 2 ^ size.top = bit' at *
        omega
      refine ⟨[], ⟨low, high⟩, .refl _, (Nat.div_eq_zero_iff_lt hpos).mp hfirst, ?_, hlt, ?_⟩
      · have hge := (Nat.le_div_iff_mul_le hpos).mp hlast
        rwa [Nat.one_mul] at hge
      · intro σ shift shift' underflow _ state
        rw [shiftLoop, if_neg (fun h => htop ((shift_guard (by omega) hlt).mp h))]
        rfl

/-- The same for the loop that drops the second bits: the interval ends up wider than a
quarter. -/
theorem underflowLoop_eq {fuel low high : Nat} (hlow : low < 2 ^ size.top)
    (hhigh : 2 ^ size.top ≤ high) (hlt : high < 2 * 2 ^ size.top)
    (hfuel : 2 * 2 ^ size.top < (high - low + 1) * 2 ^ fuel) :
    ∃ events iv', Scaling size.top (Interval.widen ⟨low, high⟩) events iv'.widen ∧
      Normal size iv' ∧
      ∀ {σ : Type} (shift : Bool → σ → ArithExec σ) (underflow : σ → ArithExec σ) (state : σ),
        underflowLoop size underflow fuel ⟨low, high⟩ state =
          runEvents shift underflow events state >>= fun state => .ok (iv', state) := by
  induction fuel generalizing low high with
  | zero =>
    rw [pow_zero] at hfuel
    omega
  | succ fuel ih =>
    by_cases hclose : size.quarterRange ≤ low ∧ high < 2 ^ size.top + size.quarterRange
    · have hquarter : 2 * size.quarterRange = 2 ^ size.top := by
        rcases size.quarterRange_cases with ⟨-, hzero⟩ | ⟨v, htop, hpow⟩
        · omega
        · rw [hpow, htop, pow_succ']
      have hdouble : 2 * high - 2 ^ size.top + 1 - (2 * low - 2 ^ size.top) + 1 =
          (high - low + 1) * 2 := by
        omega
      obtain ⟨events, iv', hscale, hnormal, hrun⟩ :=
        @ih (2 * low - 2 ^ size.top) (2 * high - 2 ^ size.top + 1) (by omega) (by omega) (by omega)
          (by rw [hdouble, Nat.mul_assoc, ← pow_succ' 2 fuel]; exact hfuel)
      refine ⟨.underflow :: events, iv', .widen_underflow hquarter hclose.1 hlow hhigh (by omega)
        hscale, hnormal, ?_⟩
      intro σ shift underflow state
      rw [underflowLoop, if_pos ((underflow_guard hlow hhigh hlt).mpr hclose), runEvents,
        bind_assoc]
      dsimp only
      rw [underflow_low hclose.1 hlow hquarter, underflow_high hhigh hclose.2 hquarter]
      exact bind_congr fun state => hrun shift underflow state
    · refine ⟨[], ⟨low, high⟩, .refl _, ⟨hlow, hhigh, hlt, ?_⟩, ?_⟩
      · dsimp only
        omega
      · intro σ shift underflow state
        rw [underflowLoop, if_neg (fun h => hclose ((underflow_guard hlow hhigh hlt).mp h))]
        rfl

/-- Both loops together come to these events, whatever the coder does at each. -/
structure Rescales (size : StateSize) (iv : Interval) (events : List Rescale) (iv' : Interval) :
    Prop where
  scaling : Scaling size.top iv.widen events iv'.widen
  normal : Normal size iv'
  run : ∀ {σ : Type} (shift : Interval → σ → ArithExec σ) (shift' : Bool → σ → ArithExec σ)
    (underflow : σ → ArithExec σ)
    (_ : ∀ iv bit state, iv.low / 2 ^ size.top = bit.toNat → shift iv state = shift' bit state)
    (state : σ), rescale size shift underflow iv state =
      runEvents shift' underflow events state >>= fun state => .ok (iv', state)

theorem exists_rescales {iv : Interval} (hle : iv.low ≤ iv.high)
    (hlt : iv.high < 2 * 2 ^ size.top) : ∃ events iv', Rescales size iv events iv' := by
  have hfuel : ∀ width, 2 * 2 ^ size.top < (width + 1) * 2 ^ (size.numStateBits + 1) := by
    intro width
    have hpow : 2 ^ (size.numStateBits + 1) = 2 * (2 * 2 ^ size.top) := by
      rw [StateSize.numStateBits_eq, pow_succ', pow_succ']
    have hone := Nat.le_mul_of_pos_left (2 * (2 * 2 ^ size.top)) (Nat.succ_pos width)
    have hpos := Nat.two_pow_pos size.top
    rw [hpow, ← Nat.succ_eq_add_one]
    omega
  obtain ⟨events, mid, hscale, hmidLow, hmidHigh, hmidLt, hrun⟩ :=
    @shiftLoop_eq size (size.numStateBits + 1) iv.low iv.high hle hlt (hfuel _)
  obtain ⟨events', iv', hscale', hnormal, hrun'⟩ :=
    @underflowLoop_eq size (size.numStateBits + 1) mid.low mid.high hmidLow hmidHigh hmidLt
      (hfuel _)
  refine ⟨events ++ events', iv', hscale.trans hscale', hnormal, ?_⟩
  intro σ shift shift' underflow hagree state
  have hboth := runEvents_append shift' underflow events events' state
  rw [rescale, hrun shift shift' underflow hagree state, hboth, bind_assoc, bind_assoc]
  exact bind_congr fun state => hrun' shift' underflow state

end loops

section coders
variable {size : StateSize}

theorem encoderShift_eq (iv : Interval) (bit : Bool) (enc : EncoderState)
    (h : iv.low / 2 ^ size.top = bit.toNat) :
    ArithmeticEncoder.shift size iv enc = encoderShift bit enc := by
  have hbit : (iv.low >>> (size.numStateBits - 1)) % 2 ^ 32 = bit.toNat := by
    have hle := Bool.toNat_le bit
    rw [Nat.shiftRight_eq_div_pow]
    change iv.low / 2 ^ size.top % 2 ^ 32 = bit.toNat
    rw [h]
    exact Nat.mod_eq_of_lt (by omega)
  unfold ArithmeticEncoder.shift encoderShift
  rw [hbit]

theorem writes_runEvents {enc : EncoderState} {bits : List Bool} (h : Holds enc.output bits)
    (events : List Rescale) :
    Ends (runEvents encoderShift Arith.ArithmeticEncoder.underflow events enc)
      (fun enc' => enc'.numUnderflow = pendingAfter events enc.numUnderflow ∧
        Holds enc'.output (bits ++ emitted events enc.numUnderflow))
      (fun reason => reason = .status "Maximum underflow reached") := by
  induction events generalizing enc bits with
  | nil => exact ⟨rfl, by simpa [emitted] using h⟩
  | cons event events ih =>
    cases event with
    | shift bit =>
      obtain ⟨out, hwrite, hholds, -⟩ := h.write bit
      obtain ⟨out', hunderflow, hholds'⟩ := hholds.writeUnderflow bit enc.numUnderflow
      rw [runEvents, encoderShift, hwrite, ok_bind, hunderflow, ok_bind]
      have hrest := @ih ⟨out', 0⟩ _ hholds'
      rw [List.append_assoc, List.append_assoc] at hrest
      exact hrest
    | underflow =>
      rw [runEvents, Arith.ArithmeticEncoder.underflow]
      by_cases hfull : enc.numUnderflow = 2 ^ 64 - 1
      · rw [if_pos hfull]
        exact rfl
      · rw [if_neg hfull]
        exact @ih ⟨enc.output, enc.numUnderflow + 1⟩ bits h

theorem Rescales.underflow_pos {iv iv' : Interval} {events : List Rescale}
    (h : Rescales size iv events iv') : .underflow ∈ events → 0 < size.top := by
  apply h.scaling.underflow_pos
  · exact Nat.mul_mod_right 2 _
  · exact Nat.mul_add_mod_self_left 2 _ 1

def decoderShift (size : StateSize) (_bit : Bool) (dec : DecoderState) : ArithExec DecoderState :=
  ArithmeticDecoder.shift size size.freshInterval dec

theorem shift_register {code : Nat} (h : code < 2 * 2 ^ size.top) (bit bit' : Bool) :
    (double64 code &&& size.stateMask) ||| bit'.toNat =
      (Rescale.shift bit).narrowRegister size.top code bit' := by
  have hbit := Bool.toNat_le bit'
  unfold Rescale.narrowRegister
  dsimp only
  rw [double64_of_lt size h, StateSize.stateMask_eq, Nat.and_two_pow_sub_one_eq_mod, pow_succ',
    Nat.mul_mod_mul_left, double_or_bit _ (by omega)]

theorem underflow_register {code : Nat} (h : code < 2 * 2 ^ size.top) (hpos : 0 < size.top)
    (bit : Bool) :
    (code &&& size.halfRange) ||| (double64 code &&& (size.stateMask >>> 1)) ||| bit.toNat =
      Rescale.underflow.narrowRegister size.top code bit := by
  obtain ⟨v, htop⟩ := Nat.exists_eq_succ_of_ne_zero hpos.ne'
  have hbit := Bool.toNat_le bit
  have hmask : size.stateMask >>> 1 = 2 ^ size.top - 1 := by
    rw [StateSize.stateMask_eq, Nat.shiftRight_eq_div_pow, pow_one, pow_succ']
    omega
  have hhigh : code &&& 2 ^ size.top = 2 ^ size.top * (code / 2 ^ size.top) := by
    have hquot := div_half_lt h
    rw [Nat.and_two_pow, Nat.testBit_eq_decide_div_mod_eq]
    interval_cases code / 2 ^ size.top
    · exact Nat.zero_mul _
    · exact Nat.mul_comm 1 _
  have hlow := Nat.mod_lt (2 * code) (Nat.two_pow_pos size.top)
  have heven : 2 * code % 2 ^ size.top = 2 * (code % 2 ^ v) := by
    rw [htop, pow_succ', Nat.mul_mod_mul_left]
  have hdouble : 2 ^ size.top * (code / 2 ^ size.top) + 2 * (code % 2 ^ v) =
      2 * (2 ^ v * (code / 2 ^ size.top) + code % 2 ^ v) := by
    have hpow : 2 ^ size.top = 2 * 2 ^ v := by rw [htop, pow_succ']
    rw [Nat.mul_add, ← Nat.mul_assoc, ← hpow]
  unfold Rescale.narrowRegister
  dsimp only
  rw [StateSize.halfRange_eq, hmask, double64_of_lt size h, Nat.and_two_pow_sub_one_eq_mod, hhigh,
    ← Nat.two_pow_add_eq_or_of_lt hlow, heven, hdouble, double_or_bit _ (by omega), ← hdouble,
    Nat.mul_comm]

theorem register_lt (event : Rescale) (code : Nat) (hcode : code < 2 * 2 ^ size.top)
    (hevent : event = .underflow → 0 < size.top) (bit : Bool) :
    event.narrowRegister size.top code bit < 2 * 2 ^ size.top := by
  have hbit := Bool.toNat_le bit
  cases event with
  | shift _ =>
    have hlow := Nat.mod_lt code (Nat.two_pow_pos size.top)
    unfold Rescale.narrowRegister
    dsimp only
    rw [pow_succ', Nat.mul_mod_mul_left]
    omega
  | underflow =>
    obtain ⟨v, htop⟩ := Nat.exists_eq_succ_of_ne_zero (hevent rfl).ne'
    have hpow : 2 ^ size.top = 2 * 2 ^ v := by rw [htop, pow_succ']
    have hlow := Nat.mod_lt code (Nat.two_pow_pos v)
    have hquot := Nat.mul_le_mul_right (2 ^ size.top) (Nat.le_of_lt_succ (div_half_lt hcode))
    have heven : 2 * code % 2 ^ size.top = 2 * (code % 2 ^ v) := by
      rw [hpow, Nat.mul_mod_mul_left]
    unfold Rescale.narrowRegister
    dsimp only
    rw [heven]
    omega

theorem runEvents_decoder (events : List Rescale) (hevents : .underflow ∈ events → 0 < size.top)
    {dec : DecoderState} (h : dec.code < 2 * 2 ^ size.top) :
    ∃ input, runEvents (decoderShift size) (ArithmeticDecoder.underflow size) events dec =
        .ok ⟨input, narrowAfter size.top events dec.code (streamOf dec.input)⟩ ∧
      streamOf input = (streamOf dec.input).drop events.length := by
  induction events generalizing dec with
  | nil => exact ⟨dec.input, rfl, rfl⟩
  | cons event events ih =>
    have hhead : event = .underflow → 0 < size.top := fun h => hevents (h ▸ List.mem_cons_self)
    obtain ⟨input, hread, hstream⟩ := readCodeBit_eq dec.input
    obtain ⟨input', hrun, hdrop⟩ := @ih (fun h => hevents (List.mem_cons_of_mem _ h))
      ⟨input, event.narrowRegister size.top dec.code (streamOf dec.input 0)⟩
      (register_lt event dec.code h hhead _)
    rw [hstream] at hrun hdrop
    refine ⟨input', ?_, ?_⟩
    · cases event with
      | shift bit =>
        rw [runEvents, decoderShift, ArithmeticDecoder.shift, hread]
        dsimp only
        rw [shift_register h bit, ok_bind]
        exact hrun
      | underflow =>
        rw [runEvents, ArithmeticDecoder.underflow, hread]
        dsimp only
        rw [underflow_register h (hhead rfl), ok_bind]
        exact hrun
    · rw [hdrop, BitStream.drop_drop, List.length_cons, Nat.add_comm]

theorem fresh_eq (size : StateSize) (data : List UInt8) :
    ∃ input, ArithmeticDecoder.fresh size (.fresh data) =
        ⟨input, narrowCodeAt size.top 0 (.onto (bitsOf data) .zeros)⟩ ∧
      streamOf input = (BitStream.onto (bitsOf data) .zeros).drop (size.top + 1) := by
  obtain ⟨input, hfill, hdrop⟩ := fill_eq size.numStateBits (.fresh data) 0
  rw [streamOf_fresh, StateSize.numStateBits_eq] at hfill hdrop
  refine ⟨input, ?_, hdrop⟩
  rw [ArithmeticDecoder.fresh, StateSize.numStateBits_eq, hfill, Nat.zero_mul, Nat.zero_add]
  rfl

end coders

end TonCompress.Coder
