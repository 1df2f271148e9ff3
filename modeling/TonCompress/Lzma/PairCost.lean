import TonCompress.Lib.Pairing
import TonCompress.Lzma.Cost

/-! What coding costs at least: two opposite bits of one cell leave less than a quarter of the
interval, whatever the cell held before. -/
namespace TonCompress.Lzma
open TonCompress.Lib

def probAfter (prob : Nat) (bit : Bool) : Nat :=
  if bit then prob - (prob >>> rangeCodeMoveBits)
  else prob + ((rangeCodeBitModelTotal - prob) >>> rangeCodeMoveBits)

/-- What a bit leaves of the interval at most, in parts of `2 ^ 24`. -/
def partLeft (prob : Nat) (bit : Bool) : Nat :=
  if bit then (rangeCodeBitModelTotal - prob) * 8192 + prob else prob * 8192

def fullWeight : Nat := 2 ^ 30

/-- The potential of a cell, lower where the bit that is open in it has left much of the
interval: its pair is still to narrow that to 25 parts in 103. -/
def pairWeight : Option Bool × Nat → Nat
  | (none, _) => fullWeight
  | (some bit, prob) =>
      min fullWeight (fullWeight * 25 * 2 ^ 24 / (103 * partLeft prob (!bit)))

theorem pairWeight_le (cell : Option Bool × Nat) : pairWeight cell ≤ fullWeight := by
  obtain ⟨pending, prob⟩ := cell
  cases pending with
  | none => exact le_rfl
  | some bit => exact min_le_left _ _

section weights
variable {prob : Nat} {bit : Bool}

theorem partLeft_le (h : ProbSound prob) (bit : Bool) : partLeft prob bit ≤ 2 ^ 24 := by
  have htotal : rangeCodeBitModelTotal = 2048 := rfl
  have hge := h.ge
  have hle := h.le
  unfold partLeft
  rw [htotal]
  split <;> omega

theorem pairWeight_open (h : ProbSound prob) (bit : Bool) :
    partLeft prob bit * fullWeight ≤ 2 ^ 24 * pairWeight (some bit, probAfter prob bit) := by
  have hall : ∀ prob < 2018, 31 ≤ prob → ∀ bit, partLeft prob bit * fullWeight ≤
      2 ^ 24 * pairWeight (some bit, probAfter prob bit) := by
    decide +kernel
  exact hall prob (Nat.lt_succ_of_le h.le) h.ge bit

theorem pairWeight_repeat (h : ProbSound prob) (bit : Bool) :
    pairWeight (some bit, prob) ≤ pairWeight (some bit, probAfter prob bit) := by
  have hall : ∀ prob < 2018, 31 ≤ prob → ∀ bit, pairWeight (some bit, prob) ≤
      pairWeight (some bit, probAfter prob bit) := by
    decide +kernel
  exact hall prob (Nat.lt_succ_of_le h.le) h.ge bit

theorem pairWeight_answer (prob : Nat) (bit : Bool) :
    partLeft prob bit * 103 * pairWeight (some (!bit), prob) ≤ 2 ^ 24 * 25 * fullWeight := by
  have hdiv := Nat.mul_div_le (fullWeight * 25 * 2 ^ 24) (103 * partLeft prob bit)
  have hweight : pairWeight (some (!bit), prob) =
      min fullWeight (fullWeight * 25 * 2 ^ 24 / (103 * partLeft prob bit)) := by
    rw [pairWeight, Bool.not_not]
  rw [hweight]
  calc partLeft prob bit * 103 *
        min fullWeight (fullWeight * 25 * 2 ^ 24 / (103 * partLeft prob bit))
      ≤ partLeft prob bit * 103 * (fullWeight * 25 * 2 ^ 24 / (103 * partLeft prob bit)) :=
        Nat.mul_le_mul_left _ (min_le_right _ _)
    _ = 103 * partLeft prob bit * (fullWeight * 25 * 2 ^ 24 / (103 * partLeft prob bit)) := by ring
    _ ≤ fullWeight * 25 * 2 ^ 24 := hdiv
    _ = 2 ^ 24 * 25 * fullWeight := by ring

theorem pairWeight_pos (h : ProbSound prob) (pending : Option Bool) :
    0 < pairWeight (pending, prob) := by
  have hfull : 0 < fullWeight := by decide
  cases pending with
  | none => exact hfull
  | some bit =>
    have hpart := partLeft_le h (!bit)
    have hpos : 0 < partLeft prob (!bit) := by
      have hge := h.ge
      unfold partLeft
      split <;> omega
    refine lt_min hfull (Nat.div_pos ?_ (by omega))
    calc 103 * partLeft prob (!bit) ≤ 103 * 2 ^ 24 := Nat.mul_le_mul_left _ hpart
      _ ≤ fullWeight * 25 * 2 ^ 24 := by decide

end weights

section encoder
variable {κ : Type} {dstLen bits pairs : Nat} {e : Encoder κ} {pending : κ → Option Bool}

/-- With `pairs` pairs among its bits, the encoder has narrowed the interval that much. -/
structure Encoder.Narrowed (e : Encoder κ) (bits : Nat) (pending : κ → Option Bool) (pairs : Nat) :
    Prop where
  count_le : e.coder.count ≤ bits + 1
  covers : e.coder.overflow = false →
    Covers pairWeight (none, rangeCodeHalfProbability) (fun cell => (pending cell, e.probs cell))
      (256 * e.coder.range * 103 ^ pairs) (256 ^ e.coder.count * 2 ^ 32 * 25 ^ pairs)

theorem Encoder.fresh_narrowed (dstLen : Nat) :
    (Encoder.fresh dstLen : Encoder κ).Narrowed 0 (fun _ => none) 0 := by
  have hcount : (Encoder.fresh dstLen : Encoder κ).coder.count = 1 := rfl
  have hrange : (Encoder.fresh dstLen : Encoder κ).coder.range = 0xFFFFFFFF := rfl
  refine ⟨hcount.le, fun _ => ?_⟩
  rw [hcount, hrange]
  exact .fresh (by decide)

theorem size_le_part {range prob size : Nat} {bit : Bool} (hwide : 2 ^ 24 ≤ range)
    (hprob : prob ≤ rangeCodeBitModelTotal)
    (hsize : size = if bit then range - (range >>> rangeCodeNBitModelTotalBits) * prob
      else (range >>> rangeCodeNBitModelTotalBits) * prob) :
    size * 2 ^ 24 ≤ range * partLeft prob bit := by
  have hbits : rangeCodeNBitModelTotalBits = 11 := rfl
  have htotal : rangeCodeBitModelTotal = 2048 := rfl
  rw [hbits, Nat.shiftRight_eq_div_pow] at hsize
  rw [htotal] at hprob
  have hfloor : range / 2 ^ 11 * 2048 ≤ range := Nat.div_mul_le_self _ _
  have hceil : range ≤ range / 2 ^ 11 * 2048 + 2048 := by omega
  generalize range / 2 ^ 11 = unit at hsize hfloor hceil
  unfold partLeft
  rw [htotal]
  cases bit with
  | false =>
    subst hsize
    calc unit * prob * 2 ^ 24 = unit * 2048 * (prob * 8192) := by ring
      _ ≤ range * (prob * 8192) := Nat.mul_le_mul_right _ hfloor
  | true =>
    obtain ⟨rest, hrest⟩ := Nat.exists_eq_add_of_le hprob
    have hmost : size * 2048 ≤ range * rest + 2048 * prob := by
      have hscaled : range * prob ≤ (unit * 2048 + 2048) * prob := Nat.mul_le_mul_right _ hceil
      have hsum : range * 2048 = range * prob + range * rest := by rw [← Nat.mul_add, ← hrest]
      have hproduct : (unit * 2048 + 2048) * prob = unit * prob * 2048 + 2048 * prob := by ring
      have hsub : size + unit * prob = range ∨ size = 0 := by
        rw [if_pos rfl] at hsize
        omega
      rcases hsub with hsub | hzero
      · have hscaled' : size * 2048 + unit * prob * 2048 = range * 2048 := by
          rw [← Nat.add_mul, hsub]
        linarith only [hscaled, hsum, hproduct, hscaled']
      · rw [hzero, Nat.zero_mul]
        exact Nat.zero_le _
    rw [if_pos rfl, show 2048 - prob = rest by omega]
    calc size * 2 ^ 24 = size * 2048 * 8192 := by ring
      _ ≤ (range * rest + 2048 * prob) * 8192 := Nat.mul_le_mul_right _ hmost
      _ = range * (rest * 8192) + 2 ^ 24 * prob := by ring
      _ ≤ range * (rest * 8192) + range * prob :=
          Nat.add_le_add_left (Nat.mul_le_mul_right _ hwide) _
      _ = range * (rest * 8192 + prob) := by ring

theorem narrowed_step {count count' range wide size part weight weight' more : Nat}
    (hnormal : 256 ^ count' * range = 256 ^ count * wide) (hsize : size * 2 ^ 24 ≤ wide * part)
    (hpaid : part * 103 ^ more * weight ≤ 2 ^ 24 * 25 ^ more * weight') :
    256 * size * 103 ^ (pairs + more) * (256 ^ count * 2 ^ 32 * 25 ^ pairs) * weight ≤
      256 * range * 103 ^ pairs * (256 ^ count' * 2 ^ 32 * 25 ^ (pairs + more)) * weight' := by
  have hnarrow : size * (103 ^ more * weight) ≤ wide * (25 ^ more * weight') := by
    apply Nat.le_of_mul_le_mul_left _ (Nat.two_pow_pos 24)
    calc 2 ^ 24 * (size * (103 ^ more * weight))
        = size * 2 ^ 24 * (103 ^ more * weight) := by ring
      _ ≤ wide * part * (103 ^ more * weight) := Nat.mul_le_mul_right _ hsize
      _ = wide * (part * 103 ^ more * weight) := by ring
      _ ≤ wide * (2 ^ 24 * 25 ^ more * weight') := Nat.mul_le_mul_left _ hpaid
      _ = 2 ^ 24 * (wide * (25 ^ more * weight')) := by ring
  rw [pow_add, pow_add]
  generalize 103 ^ more = left at hnarrow
  generalize 25 ^ more = right at hnarrow
  calc 256 * size * (103 ^ pairs * left) * (256 ^ count * 2 ^ 32 * 25 ^ pairs) * weight
      = 256 * 2 ^ 32 * 103 ^ pairs * 25 ^ pairs * 256 ^ count * (size * (left * weight)) := by ring
    _ ≤ 256 * 2 ^ 32 * 103 ^ pairs * 25 ^ pairs * 256 ^ count * (wide * (right * weight')) :=
        Nat.mul_le_mul_left _ hnarrow
    _ = 256 * 2 ^ 32 * 103 ^ pairs * 25 ^ pairs * (256 ^ count * wide) * (right * weight') := by
        ring
    _ = 256 * 2 ^ 32 * 103 ^ pairs * 25 ^ pairs * (256 ^ count' * range) * (right * weight') := by
        rw [hnormal]
    _ = 256 * range * 103 ^ pairs * (256 ^ count' * 2 ^ 32 * (25 ^ pairs * right)) * weight' := by
        ring

theorem Encoder.Narrowed.bit [DecidableEq κ] (h : e.Narrowed bits pending pairs)
    (hsound : (rangeChannel κ dstLen).Sound e) (hbelow : bits + 2 < rangeCodeCacheSizeMax)
    {cell : κ} {bit : Bool} {pending' : Option Bool} {more : Nat}
    (hpaid : partLeft (e.probs cell) bit * 103 ^ more * pairWeight (pending cell, e.probs cell) ≤
      2 ^ 24 * 25 ^ more * pairWeight (pending', probAfter (e.probs cell) bit)) :
    (e.bit cell bit).Narrowed (bits + 1) (Function.update pending cell pending')
      (pairs + more) := by
  obtain ⟨hcoder, -, hprobs⟩ := hsound
  obtain ⟨hgrown, hnormal⟩ := hcoder.normalize_count
  obtain ⟨-, hwide, -⟩ := hcoder.normalize
  have hpositive : 0 < 256 ^ e.coder.count * 2 ^ 32 * 25 ^ pairs := by positivity
  have hcount := h.count_le
  have hprob := hprobs cell
  have hmost : e.probs cell ≤ rangeCodeBitModelTotal := hprob.le.trans (by decide)
  have hafter : (fun other => (Function.update pending cell pending' other,
      Function.update e.probs cell (probAfter (e.probs cell) bit) other)) =
      Function.update (fun other => (pending other, e.probs other)) cell
        (pending', probAfter (e.probs cell) bit) := by
    funext other
    by_cases hother : other = cell
    · rw [hother, Function.update_self, Function.update_self, Function.update_self]
    · rw [Function.update_of_ne hother, Function.update_of_ne hother, Function.update_of_ne hother]
  cases bit with
  | false =>
    refine ⟨hgrown.trans (by omega), fun hoverflow => ?_⟩
    obtain ⟨hstart, hratio⟩ := hnormal hoverflow (by omega)
    have hsize := @size_le_part _ (e.probs cell) _ false hwide hmost rfl
    have hcovers := (h.covers hstart).update cell hpositive (pairWeight_pos hprob _)
      (narrowed_step hratio hsize hpaid)
    rw [← hafter] at hcovers
    exact hcovers
  | true =>
    refine ⟨hgrown.trans (by omega), fun hoverflow => ?_⟩
    obtain ⟨hstart, hratio⟩ := hnormal hoverflow (by omega)
    have hsize := @size_le_part _ (e.probs cell) _ true hwide hmost rfl
    have hcovers := (h.covers hstart).update cell hpositive (pairWeight_pos hprob _)
      (narrowed_step hratio hsize hpaid)
    rw [← hafter] at hcovers
    exact hcovers

/-- A bit that is left out of the pairs. -/
theorem Encoder.Narrowed.bit_apart [DecidableEq κ] (h : e.Narrowed bits pending pairs)
    (hsound : (rangeChannel κ dstLen).Sound e) (hbelow : bits + 2 < rangeCodeCacheSizeMax)
    {cell : κ} (bit : Bool) (hnone : pending cell = none) :
    (e.bit cell bit).Narrowed (bits + 1) pending pairs := by
  have hpart := partLeft_le (hsound.2.2 cell) bit
  have hnext := @Encoder.Narrowed.bit _ _ _ _ _ _ _ h hsound hbelow cell bit none 0 (by
    rw [hnone, pow_zero, pow_zero, Nat.mul_one, Nat.mul_one]
    exact Nat.mul_le_mul_right _ hpart)
  rw [← hnone, Function.update_eq_self] at hnext
  exact hnext

/-- A bit that answers the open one makes a pair with it. -/
theorem Encoder.Narrowed.bit_answered [DecidableEq κ] (h : e.Narrowed bits pending pairs)
    (hsound : (rangeChannel κ dstLen).Sound e) (hbelow : bits + 2 < rangeCodeCacheSizeMax)
    (cell : κ) (bit : Bool) :
    (e.bit cell bit).Narrowed (bits + 1)
      (Function.update pending cell (answered (pending cell) bit))
      (pairs + if pending cell = some (!bit) then 1 else 0) := by
  have hprob := hsound.2.2 cell
  refine h.bit hsound hbelow ?_
  unfold answered
  by_cases hanswer : pending cell = some (!bit)
  · rw [if_pos hanswer, if_pos hanswer, hanswer, pow_one, pow_one]
    exact pairWeight_answer _ _
  · rw [if_neg hanswer, if_neg hanswer, pow_zero, pow_zero, Nat.mul_one, Nat.mul_one]
    cases hopen : pending cell with
    | none => exact pairWeight_open hprob bit
    | some other =>
      have hsame : other = bit := by
        rw [hopen] at hanswer
        have hne : other ≠ !bit := fun heq => hanswer (congrArg some heq)
        exact Bool.eq_not.not_left.mp hne
      rw [hsame]
      exact Nat.mul_le_mul (partLeft_le hprob bit) (pairWeight_repeat hprob bit)

end encoder

/-- Fifty-one bits at least come of 25 pairs. -/
theorem count_ge_of_narrowed {count range n pairs : Nat} (hrange : 2 ^ 16 ≤ range)
    (hpairs : 25 * n ≤ pairs)
    (hnarrowed : 256 * range * 103 ^ pairs ≤ 256 ^ count * 2 ^ 32 * 25 ^ pairs) :
    51 * n ≤ 8 * count + 8 := by
  have h : 256 * range * 103 ^ (25 * n) ≤ 256 ^ count * 2 ^ 32 * 25 ^ (25 * n) := by
    obtain ⟨more, rfl⟩ := Nat.exists_eq_add_of_le hpairs
    have hmore : 25 ^ more ≤ 103 ^ more := Nat.pow_le_pow_left (by decide) more
    have hpos : 0 < 103 ^ more := by positivity
    rw [pow_add, pow_add] at hnarrowed
    apply Nat.le_of_mul_le_mul_right _ hpos
    calc 256 * range * 103 ^ (25 * n) * 103 ^ more
        = 256 * range * (103 ^ (25 * n) * 103 ^ more) := Nat.mul_assoc _ _ _
      _ ≤ 256 ^ count * 2 ^ 32 * (25 ^ (25 * n) * 25 ^ more) := hnarrowed
      _ = 256 ^ count * 2 ^ 32 * 25 ^ (25 * n) * 25 ^ more := (Nat.mul_assoc _ _ _).symm
      _ ≤ 256 ^ count * 2 ^ 32 * 25 ^ (25 * n) * 103 ^ more := Nat.mul_le_mul_left _ hmore
  have hfactor : 2 ^ 51 * 25 ^ 25 ≤ 103 ^ 25 := by decide
  have hpow : 2 ^ (51 * n) * 25 ^ (25 * n) ≤ 103 ^ (25 * n) := by
    calc 2 ^ (51 * n) * 25 ^ (25 * n) = (2 ^ 51 * 25 ^ 25) ^ n := by
          rw [mul_pow, ← pow_mul, ← pow_mul]
      _ ≤ (103 ^ 25) ^ n := Nat.pow_le_pow_left hfactor n
      _ = 103 ^ (25 * n) := (pow_mul _ _ _).symm
  have hpos : 0 < 25 ^ (25 * n) := by positivity
  have hbits : 2 ^ (24 + 51 * n) ≤ 2 ^ (8 * count + 32) := by
    apply Nat.le_of_mul_le_mul_right _ hpos
    calc 2 ^ (24 + 51 * n) * 25 ^ (25 * n)
        = 256 * 2 ^ 16 * (2 ^ (51 * n) * 25 ^ (25 * n)) := by rw [pow_add]; ring
      _ ≤ 256 * range * 103 ^ (25 * n) := Nat.mul_le_mul (Nat.mul_le_mul_left _ hrange) hpow
      _ ≤ 256 ^ count * 2 ^ 32 * 25 ^ (25 * n) := h
      _ = 2 ^ (8 * count + 32) * 25 ^ (25 * n) := by
          rw [show 256 ^ count = 2 ^ (8 * count) from (pow_mul 2 8 count).symm, ← pow_add]
  have hle := (Nat.pow_le_pow_iff_right (by decide : 1 < 2)).mp hbits
  omega

end TonCompress.Lzma
