import TonCompress.Lzma.Literals
import TonCompress.Lzma.Walk
import Mathlib.Data.Finset.Prod
import Mathlib.Tactic.IntervalCases

/-! The bits of the walk: behind each byte, nearly every bit that a cell is given is the
opposite of the one it had before. -/
namespace TonCompress.Lzma
open TonCompress.Lib

def walkCell : Nat → ProbCell := literalCell fun q => (walkByte q).toNat

def walkBit : Nat → Bool := literalBit fun q => (walkByte q).toNat

section cells
variable {q q' d d' : Nat}

theorem walkByte_toNat (q : Nat) : (walkByte q).toNat = bitsReverse (walkLabel q) 8 :=
  UInt8.toNat_ofNat_of_lt' (bitsReverse_lt _ 8)

theorem bitsReverse_inj {left right bitCount : Nat} (hleft : left < 2 ^ bitCount)
    (hright : right < 2 ^ bitCount) (h : bitsReverse left bitCount = bitsReverse right bitCount) :
    left = right := by
  rw [← bitsReverse_bitsReverse hleft, h, bitsReverse_bitsReverse hright]

theorem walkByte_inj : walkByte q = walkByte q' ↔ walkLabel q = walkLabel q' := by
  constructor
  · intro h
    refine @bitsReverse_inj _ _ 8 (walkLabel_lt q) (walkLabel_lt q') ?_
    rw [← walkByte_toNat, h, walkByte_toNat]
  · intro h
    rw [walkByte, h, walkByte]

theorem bitsReverse_shiftRight (label : Nat) {d bitCount : Nat} (hd : d ≤ bitCount) :
    bitsReverse label bitCount >>> (bitCount - d) = bitsReverse (label % 2 ^ d) d := by
  apply Nat.eq_of_testBit_eq
  intro i
  rw [Nat.testBit_shiftRight, bitsReverse_testBit, bitsReverse_testBit, Nat.testBit_mod_two_pow]
  by_cases hi : i < d
  · rw [decide_eq_true hi, decide_eq_true (by omega), decide_eq_true (by omega), Bool.true_and,
      Bool.true_and, Bool.true_and]
    congr 1
    omega
  · rw [decide_eq_false hi, decide_eq_false (by omega), Bool.false_and, Bool.false_and]

theorem walkCell_eq_iff (hd : d < 8) (hd' : d' < 8) :
    walkCell (8 * q + d) = walkCell (8 * q' + d') ↔ walkLabel q = walkLabel q' ∧ d = d' ∧
      walkLabel (q + 1) % 2 ^ d = walkLabel (q' + 1) % 2 ^ d := by
  have hcell : ∀ {q d}, d < 8 → walkCell (8 * q + d) = ⟨.literal 0 (bitsReverse (walkLabel q) 8),
      2 ^ d + bitsReverse (walkLabel (q + 1) % 2 ^ d) d - 1⟩ := by
    intro q d hd
    rw [walkCell, literalCell, show (8 * q + d) / 8 = q by omega, show (8 * q + d) % 8 = d by omega,
      walkByte_toNat, walkByte_toNat, bitsReverse_shiftRight _ hd.le]
  rw [hcell hd, hcell hd', ProbCell.mk.injEq, ProbRow.literal.injEq, and_iff_right rfl]
  have hlt := bitsReverse_lt (walkLabel (q + 1) % 2 ^ d) d
  have hlt' := bitsReverse_lt (walkLabel (q' + 1) % 2 ^ d') d'
  constructor
  · rintro ⟨hlabel, hoffset⟩
    have hpos := Nat.two_pow_pos d
    have hpos' := Nat.two_pow_pos d'
    have hsame : d = d' := by
      rcases Nat.lt_trichotomy d d' with hless | hsame | hmore
      · have hpow := Nat.pow_le_pow_right Nat.two_pos (show d + 1 ≤ d' from hless)
        rw [pow_succ] at hpow
        omega
      · exact hsame
      · have hpow := Nat.pow_le_pow_right Nat.two_pos (show d' + 1 ≤ d from hmore)
        rw [pow_succ] at hpow
        omega
    subst hsame
    refine ⟨@bitsReverse_inj _ _ 8 (walkLabel_lt q) (walkLabel_lt q') hlabel, rfl, ?_⟩
    exact bitsReverse_inj (Nat.mod_lt _ hpos) (Nat.mod_lt _ hpos) (by omega)
  · rintro ⟨hlabel, rfl, hrest⟩
    rw [hlabel, hrest]
    exact ⟨rfl, rfl⟩

theorem walkBit_eq (hd : d < 8) : walkBit (8 * q + d) = (walkLabel (q + 1)).testBit d := by
  rw [walkBit, literalBit, show (8 * q + d) / 8 = q by omega, show (8 * q + d) % 8 = d by omega,
    walkByte_toNat, bitsReverse_testBit, decide_eq_true (by omega), Bool.true_and]
  congr 1
  omega

/-- The same bit in the same cell: one more bit of the labels is the same. -/
theorem walkLabel_mod_succ (hd : d < 8)
    (hrest : walkLabel (q + 1) % 2 ^ d = walkLabel (q' + 1) % 2 ^ d)
    (hbit : walkBit (8 * q + d) = walkBit (8 * q' + d)) :
    walkLabel (q + 1) % 2 ^ (d + 1) = walkLabel (q' + 1) % 2 ^ (d + 1) := by
  rw [walkBit_eq hd, walkBit_eq hd] at hbit
  apply Nat.eq_of_testBit_eq
  intro i
  have hlow := congrArg (fun label => label.testBit i) hrest
  rw [Nat.testBit_mod_two_pow, Nat.testBit_mod_two_pow] at hlow ⊢
  by_cases hi : i = d
  · rw [hi, hbit]
  · by_cases hlt : i < d
    · rw [decide_eq_true hlt, Bool.true_and, Bool.true_and] at hlow
      rw [hlow]
    · rw [decide_eq_false (by omega), Bool.false_and, Bool.false_and]

end cells

section visits
variable {q q' d : Nat}

/-- Between two rounds whose gaps are the same to `d + 1` bits lies one whose gap is the same to
`d` bits, but where the 127 rounds begin again. -/
theorem exists_round {round' round : Nat} (hd : 1 ≤ d) (hd' : d ≤ 7) (hlt : round' < round)
    (hgaps : walkGap round' % 2 ^ (d + 1) = walkGap round % 2 ^ (d + 1))
    (hgap : walkGap round ≠ 2 ^ d) :
    ∃ mid, round' < mid ∧ mid < round ∧ walkGap mid % 2 ^ d = walkGap round % 2 ^ d := by
  obtain ⟨part, place, hplace, rfl⟩ : ∃ part place, place < 127 ∧ round = 127 * part + place :=
    ⟨round / 127, round % 127, Nat.mod_lt _ (by decide), (Nat.div_add_mod _ _).symm⟩
  obtain ⟨part', place', hplace', rfl⟩ :
      ∃ part place, place < 127 ∧ round' = 127 * part + place :=
    ⟨round' / 127, round' % 127, Nat.mod_lt _ (by decide), (Nat.div_add_mod _ _).symm⟩
  have hplaces : ∀ {part place}, place < 127 → walkGap (127 * part + place) = 2 * (place + 1) := by
    intro part place hplace
    unfold walkGap
    omega
  rw [hplaces hplace, hplaces hplace'] at *
  have hparts : part' = part ∧ place' < place ∨ part' < part := by omega
  by_cases hover : 2 ^ d < 2 * (place + 1)
  · refine ⟨127 * part + (place - 2 ^ (d - 1)), ?_⟩
    rw [hplaces ((Nat.sub_le _ _).trans_lt hplace)]
    clear hplaces
    interval_cases d <;> simp only [Nat.reducePow, Nat.reduceAdd, Nat.reduceSub] at * <;> omega
  · refine ⟨127 * (part - 1) + (place + 128 - 2 ^ (d - 1)), ?_⟩
    have hpart : part' < part := by
      clear hplaces
      interval_cases d <;> simp only [Nat.reducePow, Nat.reduceAdd] at * <;> omega
    rw [hplaces (by
      clear hplaces
      interval_cases d <;> simp only [Nat.reducePow, Nat.reduceAdd, Nat.reduceSub] at * <;> omega)]
    clear hplaces
    interval_cases d <;> simp only [Nat.reducePow, Nat.reduceAdd, Nat.reduceSub] at * <;> omega

theorem exists_between_even (hd : 1 ≤ d) (hd' : d ≤ 7) (hlt : q' < q) (heven : q % 2 = 0)
    (heven' : q' % 2 = 0) (hlabel : walkLabel q' = walkLabel q)
    (hnext : walkLabel (q' + 1) % 2 ^ (d + 1) = walkLabel (q + 1) % 2 ^ (d + 1))
    (hgap : walkGap (q / 512) ≠ 2 ^ d) :
    ∃ place, q' < place ∧ place < q ∧ walkLabel place = walkLabel q ∧
      walkLabel (place + 1) % 2 ^ d = walkLabel (q + 1) % 2 ^ d := by
  have hround : q' / 512 ≠ q / 512 := fun hsame => by
    have heq := even_unique heven' heven hsame hlabel
    omega
  have hless : q' / 512 < q / 512 := lt_of_le_of_ne (Nat.div_le_div_right hlt.le) hround
  rw [walkLabel_succ_even heven, walkLabel_succ_even heven', hlabel] at hnext
  have hgaps : walkGap (q' / 512) % 2 ^ (d + 1) = walkGap (q / 512) % 2 ^ (d + 1) := by
    generalize walkLabel q = label at hnext
    interval_cases d <;> simp only [Nat.reducePow, Nat.reduceAdd] at hnext ⊢ <;> omega
  obtain ⟨round, hbehind, hbefore, hsame⟩ := exists_round hd hd' hless hgaps hgap
  obtain ⟨place, hplace, hparity, hcome⟩ := exists_even_place round (walkLabel_lt q)
  refine ⟨place, by omega, by omega, hcome, ?_⟩
  rw [walkLabel_succ_even hparity, walkLabel_succ_even heven, hcome, hplace]
  generalize walkLabel q = label
  interval_cases d <;> simp only [Nat.reducePow] at hsame ⊢ <;> omega

/-- At odd places the successors go down by two from round to round. -/
theorem walkLabel_succ_odd_round (hodd : q % 2 = 1) :
    (walkLabel (q + 1) + 2 * (q / 512) + 1) % 256 = walkLabel q := by
  have hlt := walkLabel_lt q
  have hgap := walkGap_bounds (q / 512)
  rw [walkLabel_succ_odd hodd]
  unfold walkStep walkGap at *
  omega

theorem exists_between_odd (hd : 1 ≤ d) (hd' : d ≤ 7) (hlt : q' < q) (hodd : q % 2 = 1)
    (hodd' : q' % 2 = 1) (hlabel : walkLabel q' = walkLabel q)
    (hnext : walkLabel (q' + 1) % 2 ^ (d + 1) = walkLabel (q + 1) % 2 ^ (d + 1)) :
    ∃ place, q' < place ∧ place < q ∧ walkLabel place = walkLabel q ∧
      walkLabel (place + 1) % 2 ^ d = walkLabel (q + 1) % 2 ^ d := by
  have hround : q' / 512 ≠ q / 512 := fun hsame => by
    have heq := odd_unique hodd' hodd hsame hlabel
    omega
  have hless : q' / 512 < q / 512 := lt_of_le_of_ne (Nat.div_le_div_right hlt.le) hround
  have hsucc := walkLabel_succ_odd_round hodd
  have hsucc' := walkLabel_succ_odd_round hodd'
  have hmid : q' / 512 < q / 512 - 2 ^ (d - 1) := by
    rw [hlabel] at hsucc'
    interval_cases d <;> simp only [Nat.reducePow, Nat.reduceAdd, Nat.reduceSub] at hnext ⊢ <;>
      omega
  obtain ⟨place, hplace, hparity, hcome⟩ :=
    exists_odd_place (q / 512 - 2 ^ (d - 1)) (walkLabel_lt q)
  have hsucc'' := walkLabel_succ_odd_round hparity
  have hpow := Nat.two_pow_pos (d - 1)
  refine ⟨place, by omega, by omega, hcome, ?_⟩
  rw [hcome, hplace] at hsucc''
  generalize walkLabel q = label at hsucc hsucc''
  interval_cases d <;> simp only [Nat.reducePow, Nat.reduceSub] at hsucc'' hmid ⊢ <;> omega

theorem walkLabel_parity (q : Nat) : (walkLabel q + walkLabel (q + 1)) % 2 = q % 2 := by
  have hlt := walkLabel_lt q
  have hgap := walkGap_bounds (q / 512)
  rcases Nat.mod_two_eq_zero_or_one q with heven | hodd
  · rw [walkLabel_succ_even heven]
    unfold walkGap at *
    omega
  · rw [walkLabel_succ_odd hodd]
    unfold walkStep walkGap at *
    omega

/-- A cell other than the first of its tree has a bit repeated at an even place only, and there
for one gap only. -/
theorem repeat_place (hd : 1 ≤ d) (hd' : d ≤ 7)
    (h : openBits walkCell walkBit (8 * q + d) (walkCell (8 * q + d)) =
      some (walkBit (8 * q + d))) :
    q % 2 = 0 ∧ walkGap (q / 512) = 2 ^ d := by
  obtain ⟨k, hk, hcell, hbit, hlast⟩ := exists_last h
  obtain ⟨q', d', hd'', rfl⟩ : ∃ q' d', d' < 8 ∧ k = 8 * q' + d' :=
    ⟨k / 8, k % 8, Nat.mod_lt _ (by decide), (Nat.div_add_mod _ _).symm⟩
  obtain ⟨hlabel, rfl, hrest⟩ := (walkCell_eq_iff hd'' (by omega)).mp hcell
  have hnext := walkLabel_mod_succ hd'' hrest hbit
  have hnone : ¬ ∃ place, q' < place ∧ place < q ∧ walkLabel place = walkLabel q ∧
      walkLabel (place + 1) % 2 ^ d' = walkLabel (q + 1) % 2 ^ d' := by
    rintro ⟨place, hbehind, hbefore, hcome, hsame⟩
    exact hlast (8 * place + d') (by omega) (by omega)
      ((walkCell_eq_iff hd'' hd'').mpr ⟨hcome, rfl, hsame⟩)
  have hparity : q' % 2 = q % 2 := by
    have hleft := walkLabel_parity q'
    have hright := walkLabel_parity q
    have hlow : walkLabel (q' + 1) % 2 = walkLabel (q + 1) % 2 := by
      interval_cases d' <;> simp only [Nat.reducePow] at hrest <;> omega
    omega
  rcases Nat.mod_two_eq_zero_or_one q with heven | hodd
  · refine ⟨heven, ?_⟩
    by_contra hgap
    exact hnone
      (exists_between_even hd hd' (by omega) heven (hparity.trans heven) hlabel hnext hgap)
  · exact absurd (exists_between_odd hd hd' (by omega) hodd (hparity.trans hodd) hlabel hnext) hnone

end visits

section roots
variable {q : Nat}

theorem walkBit_root (q : Nat) : walkBit (8 * q) = decide (walkLabel (q + 1) % 2 = 1) := by
  have hbit := @walkBit_eq q 0 (by decide)
  rw [Nat.add_zero] at hbit
  rw [hbit, Nat.testBit_zero]

theorem walkCell_root_iff {k : Nat} :
    walkCell k = walkCell (8 * q) ↔ k % 8 = 0 ∧ walkLabel (k / 8) = walkLabel q := by
  have hiff := @walkCell_eq_iff (k / 8) q (k % 8) 0 (Nat.mod_lt _ (by decide)) (by decide)
  rw [Nat.div_add_mod, Nat.add_zero] at hiff
  rw [hiff]
  constructor
  · rintro ⟨hlabel, hzero, -⟩
    exact ⟨hzero, hlabel⟩
  · rintro ⟨hzero, hlabel⟩
    refine ⟨hlabel, hzero, ?_⟩
    rw [hzero, pow_zero, Nat.mod_one, Nat.mod_one]

/-- In a round the first cell behind each label is given two bits, opposite to each other. -/
theorem root_round (round q : Nat)
    (h : openBits walkCell walkBit (8 * (512 * round)) (walkCell (8 * q)) = none) :
    openBits walkCell walkBit (8 * (512 * (round + 1))) (walkCell (8 * q)) = none ∧
      (q / 512 = round →
        openBits walkCell walkBit (8 * q) (walkCell (8 * q)) ≠ some (walkBit (8 * q))) := by
  obtain ⟨even, heven, hparity, hlabel⟩ := exists_even_place round (walkLabel_lt q)
  obtain ⟨odd, hodd, hparity', hlabel'⟩ := exists_odd_place round (walkLabel_lt q)
  have hbits : walkBit (8 * odd) = !walkBit (8 * even) := by
    have hleft := walkLabel_parity even
    have hright := walkLabel_parity odd
    rw [walkBit_root, walkBit_root, ← decide_not, decide_eq_decide]
    omega
  have hothers : ∀ k, 8 * (512 * round) ≤ k → k < 8 * (512 * (round + 1)) →
      walkCell k = walkCell (8 * q) → k = 8 * even ∨ k = 8 * odd := by
    intro k hle hlt hcell
    obtain ⟨hzero, hcome⟩ := walkCell_root_iff.mp hcell
    rcases Nat.mod_two_eq_zero_or_one (k / 8) with hk | hk
    · have heq := even_unique hk hparity (by omega) (hcome.trans hlabel.symm)
      omega
    · have heq := odd_unique hk hparity' (by omega) (hcome.trans hlabel'.symm)
      omega
  have hcell : walkCell (8 * even) = walkCell (8 * q) :=
    walkCell_root_iff.mpr ⟨by omega, by rw [Nat.mul_div_cancel_left _ (by decide), hlabel]⟩
  have hcell' : walkCell (8 * odd) = walkCell (8 * q) :=
    walkCell_root_iff.mpr ⟨by omega, by rw [Nat.mul_div_cancel_left _ (by decide), hlabel']⟩
  have hnext : openBits walkCell walkBit (8 * (512 * (round + 1))) (walkCell (8 * q)) = none ∧
      ∀ k, 8 * (512 * round) ≤ k → k < 8 * (512 * (round + 1)) → walkCell k = walkCell (8 * q) →
        openBits walkCell walkBit k (walkCell (8 * q)) ≠ some (walkBit k) := by
    rcases Nat.lt_or_gt_of_ne (show even ≠ odd by omega) with hlt | hgt
    · exact openBits_pair (by omega) (by omega) (by omega) hcell hcell' hbits hothers h
    · refine openBits_pair (by omega) (by omega) (by omega) hcell' hcell ?_ ?_ h
      · rw [hbits, Bool.not_not]
      · exact fun k hle hlt hsame => (hothers k hle hlt hsame).symm
  exact ⟨hnext.1, fun hround => hnext.2 (8 * q) (by omega) (by omega) rfl⟩

theorem root_settled (round q : Nat) :
    openBits walkCell walkBit (8 * (512 * round)) (walkCell (8 * q)) = none := by
  induction round with
  | zero => rfl
  | succ round ih => exact (root_round round q ih).1

theorem root_not_repeated (q : Nat) :
    openBits walkCell walkBit (8 * q) (walkCell (8 * q)) ≠ some (walkBit (8 * q)) :=
  (root_round (q / 512) q (root_settled (q / 512) q)).2 rfl

end roots

section counts

def IsPower (round : Nat) : Prop := ∃ d < 8, walkGap round = 2 ^ d

instance (round : Nat) : Decidable (IsPower round) := inferInstanceAs (Decidable (∃ d < 8, _))

theorem repeatCount_byte (q : Nat) : repeatCount walkCell walkBit (8 * (q + 1)) ≤
    repeatCount walkCell walkBit (8 * q) + if q % 2 = 0 ∧ IsPower (q / 512) then 1 else 0 := by
  have hbits : ∀ n ≤ 8, repeatCount walkCell walkBit (8 * q + n) ≤
      repeatCount walkCell walkBit (8 * q) +
        if q % 2 = 0 ∧ ∃ d < n, walkGap (q / 512) = 2 ^ d then 1 else 0 := by
    intro n hn
    induction n with
    | zero => exact Nat.le_add_right _ _
    | succ n ih =>
      have hbefore := ih (by omega)
      rw [← Nat.add_assoc, repeatCount]
      by_cases hrepeat : openBits walkCell walkBit (8 * q + n) (walkCell (8 * q + n)) =
          some (walkBit (8 * q + n))
      · have hpos : 1 ≤ n := by
          by_contra hzero
          obtain rfl : n = 0 := by omega
          exact root_not_repeated q hrepeat
        obtain ⟨heven, hgap⟩ := repeat_place hpos (by omega) hrepeat
        have hfirst : ¬ (q % 2 = 0 ∧ ∃ d < n, walkGap (q / 512) = 2 ^ d) := by
          rintro ⟨-, d, hd, hpow⟩
          have hlt := (Nat.pow_lt_pow_iff_right (by decide : 1 < 2)).mpr hd
          omega
        rw [if_neg hfirst] at hbefore
        rw [if_pos hrepeat, if_pos ⟨heven, n, Nat.lt_succ_self n, hgap⟩]
        omega
      · rw [if_neg hrepeat]
        by_cases hpower : q % 2 = 0 ∧ ∃ d < n, walkGap (q / 512) = 2 ^ d
        · obtain ⟨heven, d, hd, hgap⟩ := id hpower
          rw [if_pos hpower] at hbefore
          rw [if_pos ⟨heven, d, by omega, hgap⟩]
          omega
        · rw [if_neg hpower] at hbefore
          omega
  exact hbits 8 le_rfl

theorem repeatCount_round (round : Nat) :
    repeatCount walkCell walkBit (8 * (512 * (round + 1))) ≤
      repeatCount walkCell walkBit (8 * (512 * round)) + if IsPower round then 256 else 0 := by
  have hpairs : ∀ i ≤ 256, repeatCount walkCell walkBit (8 * (512 * round + 2 * i)) ≤
      repeatCount walkCell walkBit (8 * (512 * round)) + if IsPower round then i else 0 := by
    intro i hi
    induction i with
    | zero => exact Nat.le_add_right _ _
    | succ i ih =>
      have hbefore := ih (by omega)
      have heven := repeatCount_byte (512 * round + 2 * i)
      have hodd := repeatCount_byte (512 * round + 2 * i + 1)
      rw [show (512 * round + 2 * i) / 512 = round by omega] at heven
      rw [if_neg (by omega)] at hodd
      rw [show 512 * round + 2 * (i + 1) = 512 * round + 2 * i + 1 + 1 by omega]
      by_cases hpower : IsPower round
      · rw [if_pos hpower] at hbefore
        rw [if_pos ⟨by omega, hpower⟩] at heven
        rw [if_pos hpower]
        omega
      · rw [if_neg hpower] at hbefore
        rw [if_neg fun h => hpower h.2] at heven
        rw [if_neg hpower]
        omega
  exact hpairs 256 le_rfl

/-- How many powers of two are among the first gaps. -/
def powerCount : Nat → Nat
  | 0 => 0
  | place + 1 => powerCount place + if IsPower place then 1 else 0

theorem repeatCount_part (part : Nat) :
    repeatCount walkCell walkBit (8 * (512 * (127 * part))) ≤ 1792 * part := by
  induction part with
  | zero => exact Nat.zero_le _
  | succ part ih =>
    have hplaces : ∀ place ≤ 127, repeatCount walkCell walkBit (8 * (512 * (127 * part + place))) ≤
        1792 * part + 256 * powerCount place := by
      intro place hplace
      induction place with
      | zero => exact ih
      | succ place hrest =>
        have hbefore := hrest (by omega)
        have hround := repeatCount_round (127 * part + place)
        have hgap : walkGap (127 * part + place) = walkGap place := by
          unfold walkGap
          omega
        have hpower : IsPower (127 * part + place) ↔ IsPower place := by
          unfold IsPower
          rw [hgap]
        rw [powerCount]
        by_cases hplace' : IsPower place
        · rw [if_pos (hpower.mpr hplace')] at hround
          rw [if_pos hplace']
          exact hround.trans (by omega)
        · rw [if_neg (mt hpower.mp hplace')] at hround
          rw [if_neg hplace']
          exact hround.trans (by omega)
    have hpowers : powerCount 127 = 7 := by decide +kernel
    have hlast := hplaces 127 le_rfl
    rw [hpowers] at hlast
    rw [Nat.mul_add]
    exact hlast.trans (by omega)

theorem repeatCount_le {m n : Nat} (h : m ≤ n) :
    repeatCount walkCell walkBit m ≤ repeatCount walkCell walkBit n := by
  induction n, h using Nat.le_induction with
  | base => exact le_rfl
  | succ n _ ih => exact ih.trans (Nat.le_add_right _ _)

theorem walkCell_bounds (k : Nat) :
    ∃ byte < 256, ∃ offset < 255, walkCell k = ⟨.literal 0 byte, offset⟩ := by
  have hnext := (walkByte (k / 8 + 1)).toNat_lt
  have hdepth := Nat.mod_lt k (by decide : 8 > 0)
  refine ⟨_, (walkByte (k / 8)).toNat_lt, _, ?_, rfl⟩
  change 2 ^ (k % 8) + (walkByte (k / 8 + 1)).toNat >>> (8 - k % 8) - 1 < 255
  generalize (walkByte (k / 8 + 1)).toNat = byte at hnext
  generalize k % 8 = depth at hdepth
  rw [Nat.shiftRight_eq_div_pow]
  interval_cases depth <;> simp only [Nat.reducePow, Nat.reduceSub] <;> omega

/-- Behind each of 256 bytes there are 255 cells, with one bit open at most. -/
theorem open_card {n : Nat} {cells : Finset ProbCell}
    (h : ∀ cell, cell ∈ cells ↔ openBits walkCell walkBit n cell ≠ none) :
    cells.card ≤ 256 * 255 := by
  have hplace : ∀ cell ∈ cells, ∃ byte < 256, ∃ offset < 255, cell = ⟨.literal 0 byte, offset⟩ := by
    intro cell hcell
    obtain ⟨bit, hbit⟩ := Option.ne_none_iff_exists'.mp ((h cell).mp hcell)
    obtain ⟨k, -, hk, -⟩ := exists_last hbit
    rw [← hk]
    exact walkCell_bounds k
  generalize 256 = bytes at hplace ⊢
  generalize 255 = offsets at hplace ⊢
  have hsub : cells ⊆ (Finset.range bytes ×ˢ Finset.range offsets).image
      fun pair => ⟨.literal 0 pair.1, pair.2⟩ := by
    intro cell hcell
    obtain ⟨byte, hbyte, offset, hoffset, hcell⟩ := hplace cell hcell
    refine Finset.mem_image.mpr ⟨(byte, offset), ?_, hcell.symm⟩
    exact Finset.mem_product.mpr ⟨Finset.mem_range.mpr hbyte, Finset.mem_range.mpr hoffset⟩
  have hcard := (Finset.card_le_card hsub).trans Finset.card_image_le
  rwa [Finset.card_product, Finset.card_range, Finset.card_range] at hcard

theorem walk_pairs : 25 * 330426 ≤ pairCount walkCell walkBit (8 * (walkLen - 274)) := by
  obtain ⟨cells, hcells, hlength⟩ := length_eq walkCell walkBit (8 * (walkLen - 274))
  have hcard := open_card hcells
  have hlen : walkLen = 512 * (127 * 32) := by decide
  have hrepeats := (@repeatCount_le (8 * (walkLen - 274)) (8 * (512 * (127 * 32)))
    (by omega)).trans (repeatCount_part 32)
  omega

end counts

end TonCompress.Lzma
