import TonCompress.Lib.Potential
import TonCompress.Lzma.Encode
import TonCompress.Lzma.Transmit
import Mathlib.Tactic.Linarith
import Mathlib.Tactic.Positivity

/-! What coding costs: every bit narrows the interval, by little more than half over a run,
whatever the bits are. A bit that its cell did not expect costs more, and leaves the cell
closer to the middle. -/
namespace TonCompress.Lzma
open TonCompress.Lib

/-- The potential of a cell, largest in the middle. -/
def probWeight (prob : Nat) : Nat := (prob * (rangeCodeBitModelTotal - prob)) ^ 16

theorem probWeight_le (prob : Nat) : probWeight prob ≤ probWeight rangeCodeHalfProbability := by
  have htotal : rangeCodeBitModelTotal = 2048 := rfl
  have hhalf : rangeCodeHalfProbability = 1024 := rfl
  unfold probWeight
  apply Nat.pow_le_pow_left
  rw [htotal, hhalf]
  by_cases hle : prob ≤ 2048
  · obtain ⟨rest, hrest⟩ := Nat.exists_eq_add_of_le hle
    have hsub : 2048 - prob = rest := by omega
    rw [hsub]
    nlinarith [sq_nonneg ((prob : Int) - rest)]
  · rw [Nat.sub_eq_zero_of_le (by omega), Nat.mul_zero]
    exact Nat.zero_le _

/-- A bit of the part `part` costs at most `1043 / 512` of the interval, the change of the
cell to `prob'` and the rounding of the interval included. -/
def BitPaid (prob part prob' : Nat) : Prop :=
  2048 * 8193 * 512 * probWeight prob ≤ 8192 * 1043 * part * probWeight prob'

theorem bitPaid_raise {prob : Nat} (h : ProbSound prob) :
    BitPaid prob prob (prob + ((rangeCodeBitModelTotal - prob) >>> rangeCodeMoveBits)) := by
  have hall : ∀ prob < 2018, 31 ≤ prob → 2048 * 8193 * 512 * probWeight prob ≤
      8192 * 1043 * prob *
        probWeight (prob + ((rangeCodeBitModelTotal - prob) >>> rangeCodeMoveBits)) := by
    decide +kernel
  exact hall prob (Nat.lt_succ_of_le h.le) h.ge

theorem bitPaid_fall {prob : Nat} (h : ProbSound prob) :
    BitPaid prob (rangeCodeBitModelTotal - prob) (prob - (prob >>> rangeCodeMoveBits)) := by
  have hall : ∀ prob < 2018, 31 ≤ prob → 2048 * 8193 * 512 * probWeight prob ≤
      8192 * 1043 * (rangeCodeBitModelTotal - prob) *
        probWeight (prob - (prob >>> rangeCodeMoveBits)) := by
    decide +kernel
  exact hall prob (Nat.lt_succ_of_le h.le) h.ge

theorem BitPaid.narrow {prob part prob' range size : Nat} (h : BitPaid prob part prob')
    (hrange : 2 ^ 24 ≤ range) (hsize : (range >>> rangeCodeNBitModelTotalBits) * part ≤ size) :
    512 * range * probWeight prob ≤ 1043 * size * probWeight prob' := by
  have hbits : rangeCodeNBitModelTotalBits = 11 := rfl
  rw [hbits, Nat.shiftRight_eq_div_pow] at hsize
  have hrounded : 8192 * range ≤ 2048 * 8193 * (range / 2 ^ 11) := by omega
  generalize range / 2 ^ 11 = unit at hsize hrounded
  unfold BitPaid at h
  generalize probWeight prob = weight at h ⊢
  generalize probWeight prob' = weight' at h ⊢
  apply Nat.le_of_mul_le_mul_left _ (by decide : 0 < 8192)
  calc 8192 * (512 * range * weight) = 8192 * range * (512 * weight) := by ring
    _ ≤ 2048 * 8193 * unit * (512 * weight) := Nat.mul_le_mul_right _ hrounded
    _ = unit * (2048 * 8193 * 512 * weight) := by ring
    _ ≤ unit * (8192 * 1043 * part * weight') := Nat.mul_le_mul_left _ h
    _ = unit * part * (8192 * 1043 * weight') := by ring
    _ ≤ size * (8192 * 1043 * weight') := Nat.mul_le_mul_right _ hsize
    _ = 8192 * (1043 * size * weight') := by ring

/-- Normalisation trades a factor of the range for a byte. -/
theorem RangeEncoder.Sound.normalize_count {e : RangeEncoder} (h : e.Sound) :
    (rangeEncodeNormalize e).count ≤ e.count + 1 ∧
      ((rangeEncodeNormalize e).overflow = false →
        (rangeEncodeNormalize e).count < rangeCodeCacheSizeMax → e.overflow = false ∧
          256 ^ (rangeEncodeNormalize e).count * e.range =
            256 ^ e.count * (rangeEncodeNormalize e).range) := by
  by_cases hrange : e.range < rangeCodeNormalizeThreshold
  · have hnormal := rangeEncodeNormalize_spec h.toValid hrange
    refine ⟨hnormal.count_le, fun hoverflow hbelow => ?_⟩
    obtain ⟨hstart, hcount, -⟩ := hnormal.value hoverflow hbelow
    refine ⟨hstart, ?_⟩
    rw [hcount, hnormal.range_eq, pow_succ]
    ring
  · rw [rangeEncodeNormalize_of_ge (Nat.not_lt.mp hrange)]
    exact ⟨Nat.le_succ _, fun hoverflow _ => ⟨hoverflow, rfl⟩⟩

section encoder
variable {κ : Type} {dstLen bits : Nat} {e : Encoder κ}

/-- The encoder has coded no more than `bits` bits, as far as its bytes and its range tell. -/
structure Encoder.Within (e : Encoder κ) (bits : Nat) : Prop where
  count_le : e.coder.count ≤ bits + 1
  covers : e.coder.overflow = false → Covers probWeight rangeCodeHalfProbability e.probs
    (256 ^ e.coder.count * 512 ^ bits * 0xFFFFFFFF) (256 * e.coder.range * 1043 ^ bits)

theorem Encoder.fresh_within (dstLen : Nat) : (Encoder.fresh dstLen : Encoder κ).Within 0 := by
  have hcount : (Encoder.fresh dstLen : Encoder κ).coder.count = 1 := rfl
  have hrange : (Encoder.fresh dstLen : Encoder κ).coder.range = 0xFFFFFFFF := rfl
  refine ⟨hcount.le, fun _ => ?_⟩
  rw [hcount, hrange]
  exact .fresh (by decide)

theorem Encoder.Within.mono {bits' : Nat} (h : e.Within bits) (hrange : 0 < e.coder.range)
    (hle : bits ≤ bits') : e.Within bits' := by
  obtain ⟨more, rfl⟩ := Nat.exists_eq_add_of_le hle
  refine ⟨h.count_le.trans (by omega), fun hoverflow => (h.covers hoverflow).scale ?_ ?_⟩
  · positivity
  · have hmore : 512 ^ more ≤ 1043 ^ more := Nat.pow_le_pow_left (by decide) more
    rw [pow_add, pow_add]
    generalize 512 ^ more = left at hmore
    generalize 1043 ^ more = right at hmore
    calc 256 ^ e.coder.count * (512 ^ bits * left) * 0xFFFFFFFF *
          (256 * e.coder.range * 1043 ^ bits)
        = 256 ^ e.coder.count * 512 ^ bits * 0xFFFFFFFF * (256 * e.coder.range * 1043 ^ bits) *
          left := by ring
      _ ≤ 256 ^ e.coder.count * 512 ^ bits * 0xFFFFFFFF * (256 * e.coder.range * 1043 ^ bits) *
          right := Nat.mul_le_mul_left _ hmore
      _ = 256 ^ e.coder.count * 512 ^ bits * 0xFFFFFFFF *
          (256 * e.coder.range * (1043 ^ bits * right)) := by ring

theorem spent_step {bits count count' range wide size weight weight' : Nat}
    (hnormal : 256 ^ count' * range = 256 ^ count * wide)
    (hpaid : 512 * wide * weight ≤ 1043 * size * weight') :
    256 ^ count' * 512 ^ (bits + 1) * 0xFFFFFFFF * (256 * range * 1043 ^ bits) * weight ≤
      256 ^ count * 512 ^ bits * 0xFFFFFFFF * (256 * size * 1043 ^ (bits + 1)) * weight' := by
  rw [pow_succ, pow_succ]
  calc 256 ^ count' * (512 ^ bits * 512) * 0xFFFFFFFF * (256 * range * 1043 ^ bits) * weight
      = 256 ^ count' * range * (512 ^ bits * 0xFFFFFFFF * 256 * 1043 ^ bits) * (512 * weight) := by
        ring
    _ = 256 ^ count * (512 ^ bits * 0xFFFFFFFF * 256 * 1043 ^ bits) * (512 * wide * weight) := by
        rw [hnormal]
        ring
    _ ≤ 256 ^ count * (512 ^ bits * 0xFFFFFFFF * 256 * 1043 ^ bits) * (1043 * size * weight') :=
        Nat.mul_le_mul_left _ hpaid
    _ = 256 ^ count * 512 ^ bits * 0xFFFFFFFF * (256 * size * (1043 ^ bits * 1043)) * weight' := by
        ring

theorem probWeight_pos {prob : Nat} (h : ProbSound prob) : 0 < probWeight prob := by
  have hle := h.le
  have htotal : rangeCodeBitModelTotal = 2048 := rfl
  exact Nat.pow_pos (Nat.mul_pos (by have hge := h.ge; omega) (by omega))

theorem Encoder.Within.bit [DecidableEq κ] (h : e.Within bits)
    (hsound : (rangeChannel κ dstLen).Sound e) (hbelow : bits + 2 < rangeCodeCacheSizeMax)
    (cell : κ) (bit : Bool) : (e.bit cell bit).Within (bits + 1) := by
  obtain ⟨hcoder, -, hprobs⟩ := hsound
  have hpositive : 0 < e.coder.range := lt_of_lt_of_le (by decide) hcoder.range_ge
  obtain ⟨hgrown, hnormal⟩ := hcoder.normalize_count
  obtain ⟨-, hwide, -⟩ := hcoder.normalize
  have hcount := h.count_le
  have hprob := hprobs cell
  have hunit : ((rangeEncodeNormalize e.coder).range >>> rangeCodeNBitModelTotalBits) *
      rangeCodeBitModelTotal ≤ (rangeEncodeNormalize e.coder).range := by
    rw [Nat.shiftRight_eq_div_pow]
    exact Nat.div_mul_le_self _ _
  cases bit with
  | false =>
    refine ⟨hgrown.trans (by omega), fun hoverflow => ?_⟩
    obtain ⟨hstart, hratio⟩ := hnormal hoverflow (by omega)
    refine (h.covers hstart).update cell (by positivity) (probWeight_pos hprob) ?_
    exact spent_step hratio ((bitPaid_raise hprob).narrow hwide le_rfl)
  | true =>
    refine ⟨hgrown.trans (by omega), fun hoverflow => ?_⟩
    obtain ⟨hstart, hratio⟩ := hnormal hoverflow (by omega)
    refine (h.covers hstart).update cell (by positivity) (probWeight_pos hprob) ?_
    refine spent_step hratio ((bitPaid_fall hprob).narrow hwide ?_)
    rw [Nat.mul_sub]
    exact Nat.sub_le_sub_right hunit _

theorem Encoder.Within.fixedBit (h : e.Within bits) (hsound : (rangeChannel κ dstLen).Sound e)
    (hbelow : bits + 2 < rangeCodeCacheSizeMax) (bit : Bool) :
    (e.fixedBit bit).Within (bits + 1) := by
  have hcoder := hsound.1
  have hpositive : 0 < e.coder.range := lt_of_lt_of_le (by decide) hcoder.range_ge
  obtain ⟨hgrown, hnormal⟩ := hcoder.normalize_count
  obtain ⟨-, hwide, -⟩ := hcoder.normalize
  have hcount := h.count_le
  have hhalf : 512 * (rangeEncodeNormalize e.coder).range * 1 ≤
      1043 * ((rangeEncodeNormalize e.coder).range >>> 1) * 1 := by
    rw [Nat.shiftRight_one]
    omega
  have hscale : ∀ e' : RangeEncoder, e'.count = (rangeEncodeNormalize e.coder).count →
      e'.range = (rangeEncodeNormalize e.coder).range >>> 1 →
      e'.overflow = (rangeEncodeNormalize e.coder).overflow →
      (Encoder.mk e' e.probs).Within (bits + 1) := by
    intro e' hcount' hrange' hoverflow'
    refine ⟨?_, fun hoverflow => ?_⟩
    · change e'.count ≤ _
      omega
    · obtain ⟨hstart, hratio⟩ := hnormal (hoverflow' ▸ hoverflow) (by omega)
      have hstep := @spent_step bits _ _ _ _ _ _ _ hratio hhalf
      rw [← hrange', ← hcount', Nat.mul_one, Nat.mul_one] at hstep
      exact (h.covers hstart).scale (by positivity) hstep
  cases bit with
  | false => exact hscale _ rfl rfl rfl
  | true => exact hscale _ rfl rfl rfl

end encoder

section sending
variable {dstLen bits bits' : Nat} {send send' : EncodeM Unit}

def Costs (dstLen bits : Nat) (send : EncodeM Unit) : Prop :=
  ∀ e e' n, (rangeChannel ProbCell dstLen).Sound e → e.Within n →
    n + bits + 1 < rangeCodeCacheSizeMax → send e = .ok ((), e') →
    (rangeChannel ProbCell dstLen).Sound e' ∧ e'.Within (n + bits)

theorem Costs.pure : Costs dstLen 0 (pure ()) := by
  intro e e' n hsound hwithin _ hrun
  obtain rfl := (Prod.mk.inj (Except.ok.inj hrun)).2
  exact ⟨hsound, hwithin⟩

theorem Costs.bind (h : Costs dstLen bits send) (h' : Costs dstLen bits' send') :
    Costs dstLen (bits + bits') (send >>= fun _ => send') := by
  intro e e' n hsound hwithin hbelow hrun
  obtain ⟨⟨_, e₁⟩, hfirst, hsecond⟩ := bind_eq_ok.mp (show send e >>= _ = _ from hrun)
  obtain ⟨hsound₁, hwithin₁⟩ := h e e₁ n hsound hwithin (by omega) hfirst
  rw [← Nat.add_assoc]
  exact h' e₁ e' (n + bits) hsound₁ hwithin₁ (by omega) hsecond

theorem Costs.mono (h : Costs dstLen bits send) (hle : bits ≤ bits') : Costs dstLen bits' send := by
  intro e e' n hsound hwithin hbelow hrun
  obtain ⟨hsound', hwithin'⟩ := h e e' n hsound hwithin (by omega) hrun
  exact ⟨hsound', hwithin'.mono (lt_of_lt_of_le (by decide) hsound'.1.range_ge) (by omega)⟩

theorem costs_bit (cell : ProbCell) (bit : Bool) : Costs dstLen 1 (encodeBit cell bit) := by
  intro e e' n hsound hwithin hbelow hrun
  unfold encodeBit at hrun
  by_cases hdeclared : cell.declared encodeNPosStates encodeNLitPosStates = true
  · rw [if_pos hdeclared] at hrun
    obtain rfl := (Prod.mk.inj (Except.ok.inj hrun)).2
    exact ⟨(Encoder.bit_step hsound cell bit).1, hwithin.bit hsound hbelow cell bit⟩
  · rw [if_neg hdeclared] at hrun
    cases hrun

theorem costs_fixedBit (bit : Bool) : Costs dstLen 1 (encodeFixedBit bit) := by
  intro e e' n hsound hwithin hbelow hrun
  obtain rfl := (Prod.mk.inj (Except.ok.inj hrun)).2
  exact ⟨(Encoder.fixedBit_step hsound bit).1, hwithin.fixedBit hsound hbelow bit⟩

theorem costs_intByFixedProb (val bitCount : Nat) :
    Costs dstLen bitCount (rangeEncodeIntByFixedProb val bitCount) := by
  induction bitCount with
  | zero => exact .pure
  | succ bitCount ih =>
    exact ((costs_fixedBit _).bind ih).mono (Nat.add_comm 1 bitCount).le

theorem costs_intLoop (probs : ProbRow) (val bitCount treepos : Nat) :
    Costs dstLen bitCount (rangeEncodeIntLoop probs val bitCount treepos) := by
  induction bitCount generalizing treepos with
  | zero => exact .pure
  | succ bitCount ih =>
    exact ((costs_bit _ _).bind (ih _)).mono (Nat.add_comm 1 bitCount).le

theorem costs_MBLoop (probs : ProbRow) (n byte matchByte treepos off0 : Nat) :
    Costs dstLen n (rangeEncodeMBLoop probs n byte matchByte treepos off0) := by
  induction n generalizing byte matchByte treepos off0 with
  | zero => exact .pure
  | succ n ih =>
    exact ((costs_bit _ _).bind (ih _ _ _ _)).mono (Nat.add_comm 1 n).le

theorem costs_type (type : PacketType) (state posState : Nat) :
    Costs dstLen (if type = .pktLit then 1 else if type = .pktMatch then 2 else 5)
      (encodeType type state posState) := by
  have hbit := fun row bit => @costs_bit dstLen ⟨row, 0⟩ bit
  have hfour := fun row row' row'' row''' bit bit' bit'' bit''' =>
    (((hbit row bit).bind ((hbit row' bit').bind ((hbit row'' bit'').bind
      (hbit row''' bit''')))).mono (by decide : 4 ≤ 5))
  cases type with
  | pktLit => exact hbit _ _
  | pktMatch => exact (hbit _ _).bind (hbit _ _)
  | pktShortRep => exact hfour _ _ _ _ _ _ _ _
  | pktRep0 => exact hfour _ _ _ _ _ _ _ _
  | pktRep1 => exact hfour _ _ _ _ _ _ _ _
  | pktRep2 =>
    exact (hbit _ _).bind ((hbit _ _).bind ((hbit _ _).bind ((hbit _ _).bind (hbit _ _))))
  | pktRep3 =>
    exact (hbit _ _).bind ((hbit _ _).bind ((hbit _ _).bind ((hbit _ _).bind (hbit _ _))))

theorem costs_literal (state litPosState prevByteLcMsbs currByte matchByte : Nat) :
    Costs dstLen 8 (encodeLiteral state litPosState prevByteLcMsbs currByte matchByte) := by
  unfold encodeLiteral
  split
  · exact costs_intLoop _ _ _ _
  · exact costs_MBLoop _ _ _ _ _ _

theorem costs_len (isRep posState len : Nat) :
    Costs dstLen (if len < 10 then 4 else 10) (encodeLen isRep posState len) := by
  have hbit := fun row bit => @costs_bit dstLen ⟨row, 0⟩ bit
  unfold encodeLen
  split
  · exact (hbit _ _).bind (costs_intLoop _ _ 3 _)
  · split
    · exact ((hbit _ _).bind ((hbit _ _).bind (costs_intLoop _ _ 3 _))).mono (by decide)
    · exact (hbit _ _).bind ((hbit _ _).bind (costs_intLoop _ _ 8 _))

theorem costs_dist {len dist m : Nat} (hpos : 1 ≤ dist) (hdist : dist ≤ 2 ^ (m + 2)) (hm : m ≤ 28) :
    Costs dstLen (6 + m) (encodeDist len dist) := by
  have hpow : 2 ^ (m + 2) ≤ 2 ^ 30 := Nat.pow_le_pow_right Nat.two_pos (by omega)
  have hless : (dist + (2 ^ 32 - 1)) % 2 ^ 32 = dist - 1 := by omega
  unfold encodeDist
  dsimp only
  rw [hless]
  refine (costs_intLoop _ _ _ _).bind ?_
  by_cases hfour : dist - 1 < 4
  · rw [distSlot_small hfour, if_neg (by omega), if_neg (by omega)]
    exact Costs.pure.mono (Nat.zero_le _)
  · obtain ⟨k, top, hk, hk', htop, hslot, hquot⟩ := distSlot_spec (Nat.not_lt.mp hfour) (by omega)
    have hbcnt : ((2 * k + top) >>> 1) - 1 = k - 1 := by
      rw [Nat.shiftRight_one]
      omega
    have hshort : k - 1 ≤ m := by
      have hge : 2 ^ (k - 1) * 2 ≤ dist - 1 := by
        have hmul := Nat.div_mul_le_self (dist - 1) (2 ^ (k - 1))
        rw [hquot, Nat.mul_comm] at hmul
        exact (Nat.mul_le_mul_left _ (by omega)).trans hmul
      have hlt : 2 ^ (k - 1) < 2 ^ (m + 1) := by
        rw [pow_succ 2 (m + 1)] at hdist
        omega
      have hexp := (Nat.pow_lt_pow_iff_right (by decide : 1 < 2)).mp hlt
      omega
    rw [hslot, hbcnt]
    by_cases hlong : 2 * k + top ≥ 14
    · rw [if_pos hlong]
      exact ((costs_intByFixedProb _ _).bind (costs_intLoop _ _ _ _)).mono (by omega)
    · rw [if_neg hlong]
      split
      · exact (costs_intLoop _ _ _ _).mono hshort
      · exact Costs.pure.mono (Nat.zero_le _)

end sending

end TonCompress.Lzma
