import TonCompress.Arith.Coder
import Mathlib.Tactic.IntervalCases

/-! Renormalisation: what `update` does to the interval, and the bits that the
encoder and the decoder move meanwhile. -/
namespace TonCompress.Arith
open TonCompress.Lib

/-- The state of `low` and `high` between two symbols. -/
structure Normal (iv : Interval) : Prop where
  low_lt : iv.low < 2 ^ 31
  high_ge : 2 ^ 31 ≤ iv.high
  high_lt : iv.high < 2 ^ 32
  apart : iv.low < 2 ^ 30 ∨ 3 * 2 ^ 30 ≤ iv.high

theorem normal_fresh : Normal freshInterval := ⟨by decide, by decide, by decide, .inl (by decide)⟩

theorem Normal.range {iv : Interval} (h : Normal iv) :
    2 ^ 30 + 2 ≤ iv.high - iv.low + 1 ∧ iv.high - iv.low + 1 ≤ 2 ^ 32 := by
  obtain ⟨h1, h2, h3, h4⟩ := h
  omega

def runEvents {σ : Type} (shift : Bool → σ → ArithExec σ) (underflow : σ → ArithExec σ) :
    List Rescale → σ → ArithExec σ
  | [], state => .ok state
  | .shift bit :: events, state => shift bit state >>= runEvents shift underflow events
  | .underflow :: events, state => underflow state >>= runEvents shift underflow events

section loops

theorem shift_low {low : Nat} {bit : Bool} (h : low / 2 ^ 31 = bit.toNat) :
    (low <<< 1) &&& stateMask = 2 * (low - bit.toNat * 2 ^ 31) := by
  have hmask : stateMask = 2 ^ 32 - 1 := rfl
  rw [hmask, Nat.and_two_pow_sub_one_eq_mod, Nat.shiftLeft_eq]
  omega

theorem shift_high {high : Nat} {bit : Bool} (h : high / 2 ^ 31 = bit.toNat) :
    ((high <<< 1) &&& stateMask) ||| 1 = 2 * (high - bit.toNat * 2 ^ 31) + 1 := by
  rw [shift_low h, double_or_bit _ (by omega)]

theorem shift_guard {low high : Nat} (hlow : low < 2 ^ 32) (hhigh : high < 2 ^ 32) :
    (low ^^^ high) &&& halfRange = 0 ↔ low / 2 ^ 31 = high / 2 ^ 31 := by
  have hhalf : halfRange = 2 ^ 31 := rfl
  rw [hhalf, xor_and_two_pow_eq_zero, Nat.testBit_eq_decide_div_mod_eq,
    Nat.testBit_eq_decide_div_mod_eq, decide_eq_decide]
  omega

theorem underflow_guard {low high : Nat} (hlow : low < 2 ^ 31) (hhigh : 2 ^ 31 ≤ high)
    (hlt : high < 2 ^ 32) :
    low &&& not64 high &&& quarterRange ≠ 0 ↔ 2 ^ 30 ≤ low ∧ high < 3 * 2 ^ 30 := by
  have hquarter : quarterRange = 2 ^ 30 := rfl
  rw [hquarter, Nat.and_two_pow, Nat.testBit_and, not64, Nat.testBit_two_pow_sub_succ (by omega),
    Nat.testBit_eq_decide_div_mod_eq, Nat.testBit_eq_decide_div_mod_eq]
  have hlow' : low / 2 ^ 30 % 2 = 1 ↔ 2 ^ 30 ≤ low := by omega
  have hhigh' : high / 2 ^ 30 % 2 = 1 ↔ ¬ high < 3 * 2 ^ 30 := by omega
  simp only [hlow', hhigh']
  simp

theorem underflow_low {low : Nat} (hge : 2 ^ 30 ≤ low) (hlt : low < 2 ^ 31) :
    (low <<< 1) ^^^ halfRange = 2 * low - 2 ^ 31 := by
  have hhalf : halfRange = 2 ^ 31 := rfl
  rw [hhalf, Nat.shiftLeft_eq, show low * 2 ^ 1 = (2 * low - 2 ^ 31) + 2 ^ 31 by omega,
    add_two_pow_xor (by omega)]

theorem underflow_high {high : Nat} (hge : 2 ^ 31 ≤ high) (hlt : high < 3 * 2 ^ 30) :
    ((high ^^^ halfRange) <<< 1) ||| halfRange ||| 1 = 2 * high - 2 ^ 31 + 1 := by
  have hhalf : halfRange = 2 ^ 31 := rfl
  have hflip : high ^^^ 2 ^ 31 = high - 2 ^ 31 := by
    have hxor := @add_two_pow_xor (high - 2 ^ 31) 31 (by omega)
    rwa [Nat.sub_add_cancel hge] at hxor
  rw [hhalf, hflip, Nat.shiftLeft_eq, Nat.or_two_pow_eq_add_of_lt (by omega),
    show (high - 2 ^ 31) * 2 ^ 1 + 2 ^ 31 = 2 * (high - 2 ^ 30) by omega,
    double_or_bit _ (by omega)]
  omega

/-- Each round doubles the width of the interval, so that the loop ends with the
ends in different halves. -/
theorem shiftLoop_eq {fuel low high : Nat} (hle : low ≤ high) (hlt : high < 2 ^ 32)
    (hfuel : 2 ^ 32 < (high - low + 1) * 2 ^ fuel) :
    ∃ events iv', Scaling 30 ⟨low, high⟩ events iv' ∧ events.length < fuel ∧
      iv'.low < 2 ^ 31 ∧ 2 ^ 31 ≤ iv'.high ∧ iv'.high < 2 ^ 32 ∧
      ∀ {σ : Type} (shift : Interval → σ → ArithExec σ) (shift' : Bool → σ → ArithExec σ)
        (underflow : σ → ArithExec σ)
        (_ : ∀ iv bit state, iv.low / 2 ^ 31 = bit.toNat → shift iv state = shift' bit state)
        (state : σ), shiftLoop shift fuel ⟨low, high⟩ state =
          runEvents shift' underflow events state >>= fun state => .ok (iv', state) := by
  induction fuel generalizing low high with
  | zero =>
    rw [pow_zero] at hfuel
    omega
  | succ fuel ih =>
    by_cases htop : low / 2 ^ 31 = high / 2 ^ 31
    · obtain ⟨bit, hbit⟩ : ∃ bit : Bool, low / 2 ^ 31 = bit.toNat := by
        have htwo : low / 2 ^ 31 < 2 := by omega
        interval_cases low / 2 ^ 31
        · exact ⟨false, rfl⟩
        · exact ⟨true, rfl⟩
      have hbit' : high / 2 ^ 31 = bit.toNat := htop ▸ hbit
      have hdouble : 2 * (high - bit.toNat * 2 ^ 31) + 1 - 2 * (low - bit.toNat * 2 ^ 31) + 1 =
          (high - low + 1) * 2 := by
        omega
      obtain ⟨events, iv', hscale, hlength, h1, h2, h3, hrun⟩ :=
        @ih (2 * (low - bit.toNat * 2 ^ 31)) (2 * (high - bit.toNat * 2 ^ 31) + 1) (by omega)
          (by omega) (by rw [hdouble, Nat.mul_assoc, ← pow_succ']; exact hfuel)
      refine ⟨.shift bit :: events, iv', .shift hbit hbit' hscale, Nat.succ_lt_succ hlength,
        h1, h2, h3, ?_⟩
      intro σ shift shift' underflow hagree state
      rw [shiftLoop, if_pos ((shift_guard (by omega) hlt).mpr htop), runEvents,
        hagree _ bit state hbit, bind_assoc]
      dsimp only
      rw [shift_low hbit, shift_high hbit']
      congr 1
      funext state
      exact hrun shift shift' underflow hagree state
    · refine ⟨[], ⟨low, high⟩, .refl _, Nat.succ_pos _, ?_, ?_, hlt, ?_⟩
      · dsimp only
        omega
      · dsimp only
        omega
      · intro σ shift shift' underflow _ state
        rw [shiftLoop, if_neg (fun h => htop ((shift_guard (by omega) hlt).mp h))]
        rfl

theorem underflowLoop_eq {fuel low high : Nat} (hlow : low < 2 ^ 31) (hhigh : 2 ^ 31 ≤ high)
    (hlt : high < 2 ^ 32) (hfuel : 2 ^ 32 < (high - low + 1) * 2 ^ fuel) :
    ∃ events iv', Scaling 30 ⟨low, high⟩ events iv' ∧ events.length < fuel ∧ Normal iv' ∧
      ∀ {σ : Type} (shift : Bool → σ → ArithExec σ) (underflow : σ → ArithExec σ) (state : σ),
        underflowLoop underflow fuel ⟨low, high⟩ state =
          runEvents shift underflow events state >>= fun state => .ok (iv', state) := by
  induction fuel generalizing low high with
  | zero =>
    rw [pow_zero] at hfuel
    omega
  | succ fuel ih =>
    by_cases hclose : 2 ^ 30 ≤ low ∧ high < 3 * 2 ^ 30
    · have hdouble : 2 * high - 2 ^ 31 + 1 - (2 * low - 2 ^ 31) + 1 = (high - low + 1) * 2 := by
        omega
      obtain ⟨events, iv', hscale, hlength, hnormal, hrun⟩ :=
        @ih (2 * low - 2 ^ 31) (2 * high - 2 ^ 31 + 1) (by omega) (by omega) (by omega)
          (by rw [hdouble, Nat.mul_assoc, ← pow_succ']; exact hfuel)
      refine ⟨.underflow :: events, iv', .underflow hclose.1 hlow hhigh hclose.2 hscale,
        Nat.succ_lt_succ hlength, hnormal, ?_⟩
      intro σ shift underflow state
      rw [underflowLoop, if_pos ((underflow_guard hlow hhigh hlt).mpr hclose), runEvents,
        bind_assoc]
      dsimp only
      rw [underflow_low hclose.1 hlow, underflow_high hhigh hclose.2]
      congr 1
      funext state
      exact hrun shift underflow state
    · refine ⟨[], ⟨low, high⟩, .refl _, Nat.succ_pos _, ⟨hlow, hhigh, hlt, ?_⟩, ?_⟩
      · dsimp only
        omega
      · intro σ shift underflow state
        rw [underflowLoop, if_neg (fun h => hclose ((underflow_guard hlow hhigh hlt).mp h))]
        rfl

theorem runEvents_append {σ : Type} (shift : Bool → σ → ArithExec σ)
    (underflow : σ → ArithExec σ) (events events' : List Rescale) (state : σ) :
    runEvents shift underflow (events ++ events') state =
      runEvents shift underflow events state >>= runEvents shift underflow events' := by
  induction events generalizing state with
  | nil => rfl
  | cons event events ih =>
    cases event with
    | shift bit =>
      simp only [List.cons_append, runEvents, bind_assoc]
      congr 1
      funext state
      exact ih state
    | underflow =>
      simp only [List.cons_append, runEvents, bind_assoc]
      congr 1
      funext state
      exact ih state

end loops

section symbols
variable {iv : Interval} {freqs : BinaryFrequencyTable} {bit : Bool}

structure Codable (freqs : BinaryFrequencyTable) : Prop where
  p_pos : 0 < freqs.p
  p_lt : freqs.p < total

theorem codable_set (freqs : BinaryFrequencyTable) (freq : Fin (total + 1)) :
    Codable (freqs.set freq) := by
  have htotal : total = 2 ^ 30 := rfl
  have hfreq := freq.isLt
  unfold BinaryFrequencyTable.set
  constructor
  · dsimp only
    split <;> split <;> omega
  · dsimp only
    split <;> split <;> omega

def symLow (freqs : BinaryFrequencyTable) (bit : Bool) : Nat := if bit then freqs.p else 0

def symHigh (freqs : BinaryFrequencyTable) (bit : Bool) : Nat := if bit then total else freqs.p

def symInterval (freqs : BinaryFrequencyTable) (bit : Bool) (iv : Interval) : Interval where
  low := iv.low + symLow freqs bit * (iv.high - iv.low + 1) / total
  high := iv.low + symHigh freqs bit * (iv.high - iv.low + 1) / total - 1

theorem getLow_eq (freqs : BinaryFrequencyTable) (bit : Bool) :
    freqs.getLow bit.toNat = .ok (symLow freqs bit) := by
  cases bit <;> rfl

theorem getHigh_eq (freqs : BinaryFrequencyTable) (bit : Bool) :
    freqs.getHigh bit.toNat = .ok (symHigh freqs bit) := by
  cases bit <;> rfl

theorem Codable.sym (h : Codable freqs) (bit : Bool) :
    symLow freqs bit < symHigh freqs bit ∧ symHigh freqs bit ≤ total := by
  cases bit
  · exact ⟨h.p_pos, h.p_lt.le⟩
  · exact ⟨h.p_lt, le_rfl⟩

/-- The range is at least the total, so a symbol never gets an empty part. -/
theorem symInterval_bounds (h : Normal iv) (hfreqs : Codable freqs) (bit : Bool) :
    symLow freqs bit * (iv.high - iv.low + 1) / total <
        symHigh freqs bit * (iv.high - iv.low + 1) / total ∧
      symHigh freqs bit * (iv.high - iv.low + 1) / total ≤ iv.high - iv.low + 1 := by
  have htotal : total = 2 ^ 30 := rfl
  obtain ⟨hlt, hle⟩ := hfreqs.sym bit
  have hrange := h.range.1
  generalize iv.high - iv.low + 1 = range at hrange ⊢
  constructor
  · apply Nat.lt_of_succ_le
    rw [Nat.succ_eq_add_one, ← Nat.add_div_right _ (by omega)]
    apply Nat.div_le_div_right
    calc symLow freqs bit * range + total
        ≤ symLow freqs bit * range + range := by omega
      _ = (symLow freqs bit + 1) * range := by ring
      _ ≤ symHigh freqs bit * range := Nat.mul_le_mul_right _ hlt
  · apply Nat.div_le_of_le_mul
    exact Nat.mul_le_mul_right _ hle

theorem update_eq (h : Normal iv) (hfreqs : Codable freqs) (bit : Bool) :
    ∃ events iv', Scaling 30 (symInterval freqs bit iv) events iv' ∧ events.length ≤ 64 ∧
      Normal iv' ∧
      ∀ {σ : Type} (shift : Interval → σ → ArithExec σ) (shift' : Bool → σ → ArithExec σ)
        (underflow : σ → ArithExec σ)
        (_ : ∀ iv bit state, iv.low / 2 ^ 31 = bit.toNat → shift iv state = shift' bit state)
        (state : σ), update shift underflow freqs bit.toNat iv state =
          runEvents shift' underflow events state >>= fun state => .ok (iv', state) := by
  obtain ⟨hsym, hsymTotal⟩ := hfreqs.sym bit
  obtain ⟨hlt, hle⟩ := symInterval_bounds h hfreqs bit
  obtain ⟨hlow, hhigh, hhighLt, hapart⟩ := id h
  obtain ⟨hrange, hrangeLe⟩ := h.range
  let new := symInterval freqs bit iv
  have hnewLow : new.low = iv.low + symLow freqs bit * (iv.high - iv.low + 1) / total := rfl
  have hnewHigh : new.high = iv.low + symHigh freqs bit * (iv.high - iv.low + 1) / total - 1 := rfl
  obtain ⟨events, mid, hscale, hlength, hmidLow, hmidHigh, hmidLt, hrun⟩ :=
    @shiftLoop_eq scaleFuel new.low new.high (by omega) (by omega)
      (by
        have hfuel : (2 : Nat) ^ scaleFuel = 2 ^ 33 := rfl
        rw [hfuel]
        omega)
  obtain ⟨events', iv', hscale', hlength', hnormal, hrun'⟩ :=
    @underflowLoop_eq scaleFuel mid.low mid.high hmidLow hmidHigh hmidLt
      (by
        have hfuel : (2 : Nat) ^ scaleFuel = 2 ^ 33 := rfl
        rw [hfuel]
        omega)
  have hfuel : scaleFuel = 33 := rfl
  refine ⟨events ++ events', iv', hscale.trans hscale', ?_, hnormal, ?_⟩
  · rw [List.length_append]
    omega
  · intro σ shift shift' underflow hagree state
    have hmask : ∀ x < 2 ^ 32, x &&& stateMask = x := fun x hx =>
      Nat.and_two_pow_sub_one_of_lt_two_pow hx
    have hsub : sub64 (iv.low + symHigh freqs bit * (iv.high - iv.low + 1) / total) 1 =
        new.high := by
      unfold sub64
      omega
    have hminimum : minimumRange = 2 ^ 30 + 2 := rfl
    have hfull : fullRange = 2 ^ 32 := rfl
    have hmaximum : maximumTotal = 2 ^ 30 + 2 := rfl
    have htotal : total = 2 ^ 30 := rfl
    unfold update
    rw [if_neg (by rw [hmask _ (by omega), hmask _ (by omega)]; omega)]
    dsimp only
    rw [if_neg (by omega), getLow_eq, ok_bind, getHigh_eq, ok_bind, if_neg (by omega),
      if_neg (by omega), hsub]
    have hshift := hrun shift shift' underflow hagree state
    have hboth := runEvents_append shift' underflow events events' state
    rw [← hnewLow, hshift, hboth, bind_assoc, bind_assoc]
    exact bind_congr fun state => hrun' shift' underflow state

end symbols

end TonCompress.Arith
