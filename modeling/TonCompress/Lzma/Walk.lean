import TonCompress.Lzma.Transmit
import Mathlib.Data.Nat.ModEq
import Mathlib.Data.Nat.Prime.Basic

/-! A block of literals that nothing in it foretells. It walks through all bytes with two
steps in turn, whose sum is odd, and keeps the two for 512 bytes. Bytes are written with their bits
reversed, so that behind each byte the first bits that are coded change from one visit to the
next. -/
namespace TonCompress.Lzma

/-- The sum of the two steps, the same for 127 rounds of 512 bytes. -/
def walkStep (round : Nat) : Nat := 2 * (round / 127) + 1

/-- The first of the two steps, even and not zero. -/
def walkGap (round : Nat) : Nat := 2 * (round % 127 + 1)

def walkLabel (q : Nat) : Nat :=
  (walkStep (q / 512) * (q / 2 % 256) + q % 2 * walkGap (q / 512)) % 256

def walkByte (q : Nat) : UInt8 := UInt8.ofNat (bitsReverse (walkLabel q) 8)

def walkLen : Nat := 32 * 127 * 512

def walkBlock : List UInt8 := (List.range walkLen).map walkByte

section labels
variable {q q' round round' i j : Nat}

theorem walkLabel_lt (q : Nat) : walkLabel q < 256 := Nat.mod_lt _ (by decide)

theorem walkGap_bounds (round : Nat) : 2 ≤ walkGap round ∧ walkGap round ≤ 254 := by
  unfold walkGap
  omega

theorem walkLabel_even (round : Nat) (hi : i < 256) :
    walkLabel (512 * round + 2 * i) = walkStep round * i % 256 := by
  have hround : (512 * round + 2 * i) / 512 = round := by omega
  have hindex : (512 * round + 2 * i) / 2 % 256 = i := by omega
  have hparity : (512 * round + 2 * i) % 2 = 0 := by omega
  rw [walkLabel, hround, hindex, hparity, Nat.zero_mul, Nat.add_zero]

theorem walkLabel_odd (round : Nat) (hi : i < 256) :
    walkLabel (512 * round + 2 * i + 1) = (walkStep round * i + walkGap round) % 256 := by
  have hround : (512 * round + 2 * i + 1) / 512 = round := by omega
  have hindex : (512 * round + 2 * i + 1) / 2 % 256 = i := by omega
  have hparity : (512 * round + 2 * i + 1) % 2 = 1 := by omega
  rw [walkLabel, hround, hindex, hparity, Nat.one_mul]

theorem exists_even (h : q % 2 = 0) : ∃ i < 256, q = 512 * (q / 512) + 2 * i :=
  ⟨q / 2 % 256, by omega, by omega⟩

theorem exists_odd (h : q % 2 = 1) : ∃ i < 256, q = 512 * (q / 512) + 2 * i + 1 :=
  ⟨q / 2 % 256, by omega, by omega⟩

theorem walkLabel_succ_even (h : q % 2 = 0) :
    walkLabel (q + 1) = (walkLabel q + walkGap (q / 512)) % 256 := by
  obtain ⟨i, hi, hq⟩ := exists_even h
  generalize q / 512 = round at hq ⊢
  rw [hq, walkLabel_odd round hi, walkLabel_even round hi]
  omega

theorem walkLabel_succ_odd (h : q % 2 = 1) :
    walkLabel (q + 1) = (walkLabel q + 256 + walkStep (q / 512) - walkGap (q / 512)) % 256 := by
  obtain ⟨i, hi, hq⟩ := exists_odd h
  generalize q / 512 = round at hq ⊢
  have hgap := walkGap_bounds round
  rw [hq, walkLabel_odd round hi]
  by_cases hlast : i = 255
  · have hnext : 512 * round + 2 * i + 1 + 1 = 512 * (round + 1) + 2 * 0 := by omega
    rw [hnext, walkLabel_even (round + 1) (by decide), hlast]
    omega
  · have hnext : 512 * round + 2 * i + 1 + 1 = 512 * round + 2 * (i + 1) := by omega
    rw [hnext, walkLabel_even round (by omega), Nat.mul_add, Nat.mul_one]
    omega

/-- A round comes to each label once at its even places and once at its odd ones. -/
theorem walkStep_inj (hi : i < 256) (hj : j < 256)
    (h : walkStep round * i % 256 = walkStep round * j % 256) : i = j := by
  have hodd : Nat.gcd 256 (walkStep round) = 1 := by
    refine Nat.Coprime.pow_left 8 (Nat.coprime_two_left.mpr ?_)
    exact ⟨round / 127, rfl⟩
  have hmod := Nat.ModEq.cancel_left_of_coprime hodd h
  rwa [Nat.ModEq, Nat.mod_eq_of_lt hi, Nat.mod_eq_of_lt hj] at hmod

theorem exists_step (round : Nat) {label : Nat} (hlabel : label < 256) :
    ∃ i < 256, walkStep round * i % 256 = label := by
  have hodd : Nat.Coprime (walkStep round) 256 := by
    refine Nat.Coprime.pow_right 8 (Nat.coprime_two_right.mpr ?_)
    exact ⟨round / 127, rfl⟩
  obtain ⟨inverse, -, hinverse⟩ := Nat.exists_mul_mod_eq_one_of_coprime hodd (by decide)
  refine ⟨inverse * label % 256, Nat.mod_lt _ (by decide), ?_⟩
  rw [Nat.mul_mod_mod, ← Nat.mul_assoc, Nat.mul_mod, hinverse, Nat.one_mul, Nat.mod_mod,
    Nat.mod_eq_of_lt hlabel]

theorem even_unique (hq : q % 2 = 0) (hq' : q' % 2 = 0) (hround : q / 512 = q' / 512)
    (h : walkLabel q = walkLabel q') : q = q' := by
  obtain ⟨i, hi, hqi⟩ := exists_even hq
  obtain ⟨j, hj, hqj⟩ := exists_even hq'
  rw [hround] at hqi
  generalize q' / 512 = round at hqi hqj
  rw [hqi, hqj, walkLabel_even _ hi, walkLabel_even _ hj] at h
  have hsame := walkStep_inj hi hj h
  omega

theorem odd_unique (hq : q % 2 = 1) (hq' : q' % 2 = 1) (hround : q / 512 = q' / 512)
    (h : walkLabel q = walkLabel q') : q = q' := by
  obtain ⟨i, hi, hqi⟩ := exists_odd hq
  obtain ⟨j, hj, hqj⟩ := exists_odd hq'
  rw [hround] at hqi
  generalize q' / 512 = round at hqi hqj
  rw [hqi, hqj, walkLabel_odd _ hi, walkLabel_odd _ hj] at h
  have hsame := @walkStep_inj round i j hi hj (by omega)
  omega

theorem exists_even_place (round : Nat) {label : Nat} (hlabel : label < 256) :
    ∃ q, q / 512 = round ∧ q % 2 = 0 ∧ walkLabel q = label := by
  obtain ⟨i, hi, hstep⟩ := exists_step round hlabel
  exact ⟨512 * round + 2 * i, by omega, by omega, (walkLabel_even round hi).trans hstep⟩

theorem exists_odd_place (round : Nat) {label : Nat} (hlabel : label < 256) :
    ∃ q, q / 512 = round ∧ q % 2 = 1 ∧ walkLabel q = label := by
  have hgap := walkGap_bounds round
  obtain ⟨i, hi, hstep⟩ := exists_step round
    (Nat.mod_lt (label + 256 - walkGap round) (by decide : 256 > 0))
  refine ⟨512 * round + 2 * i + 1, by omega, by omega, ?_⟩
  rw [walkLabel_odd round hi]
  omega

end labels

section repeats
variable {q q' : Nat}

theorem walkLabel_ne_succ (q : Nat) : walkLabel q ≠ walkLabel (q + 1) := by
  have hlt := walkLabel_lt q
  have hgap := walkGap_bounds (q / 512)
  rcases Nat.mod_two_eq_zero_or_one q with heven | hodd
  · rw [walkLabel_succ_even heven]
    omega
  · rw [walkLabel_succ_odd hodd]
    unfold walkStep walkGap at *
    omega

theorem walkLabel_ne_two (q : Nat) : walkLabel q ≠ walkLabel (q + 2) := by
  have hlt := walkLabel_lt q
  have hgap := walkGap_bounds (q / 512)
  have hgap' := walkGap_bounds ((q + 1) / 512)
  have hfirst := walkLabel_lt (q + 1)
  rcases Nat.mod_two_eq_zero_or_one q with heven | hodd
  · rw [walkLabel_succ_odd (q := q + 1) (by omega), walkLabel_succ_even heven]
    unfold walkStep walkGap at *
    omega
  · rw [walkLabel_succ_even (q := q + 1) (by omega), walkLabel_succ_odd hodd]
    unfold walkStep walkGap at *
    omega

/-- Where a round ends, the walk is at zero. -/
theorem round_end (hodd : q % 2 = 1) : (q + 1) % 512 = 0 ↔ walkLabel (q + 1) = 0 := by
  have hzero : ∀ round, walkLabel (512 * round + 2 * 0) = 0 := fun round =>
    walkLabel_even round (by decide)
  constructor
  · intro hend
    have hplace : q + 1 = 512 * ((q + 1) / 512) + 2 * 0 := by omega
    rw [hplace]
    exact hzero _
  · intro hlabel
    have hplace := @even_unique (q + 1) (512 * ((q + 1) / 512) + 2 * 0) (by omega) (by omega)
      (by omega) (hlabel.trans (hzero _).symm)
    omega

theorem walk_unique_even (hq : q < walkLen) (hq' : q' < walkLen) (heven : q % 2 = 0)
    (heven' : q' % 2 = 0) (hfirst : walkLabel q = walkLabel q')
    (hsecond : walkLabel (q + 1) = walkLabel (q' + 1))
    (hthird : walkLabel (q + 2) / 2 = walkLabel (q' + 2) / 2) : q = q' := by
  have hlen : walkLen = 32 * 127 * 512 := rfl
  have hlt := walkLabel_lt q
  have hgap := walkGap_bounds (q / 512)
  have hgap' := walkGap_bounds (q' / 512)
  rw [walkLabel_succ_even heven, walkLabel_succ_even heven', ← hfirst] at hsecond
  have hrounds : walkGap (q / 512) = walkGap (q' / 512) := by omega
  rw [walkLabel_succ_odd (q := q + 1) (by omega), walkLabel_succ_odd (q := q' + 1) (by omega),
    walkLabel_succ_even heven, walkLabel_succ_even heven', ← hfirst,
    show (q + 1) / 512 = q / 512 by omega, show (q' + 1) / 512 = q' / 512 by omega,
    ← hrounds] at hthird
  refine even_unique heven heven' ?_ hfirst
  unfold walkGap at hrounds hgap hgap' hthird
  unfold walkStep at hthird
  omega

theorem walk_unique_odd (hq : q < walkLen) (hq' : q' < walkLen) (hodd : q % 2 = 1)
    (hodd' : q' % 2 = 1) (hfirst : walkLabel q = walkLabel q')
    (hsecond : walkLabel (q + 1) = walkLabel (q' + 1))
    (hthird : walkLabel (q + 2) / 2 = walkLabel (q' + 2) / 2) : q = q' := by
  have hlen : walkLen = 32 * 127 * 512 := rfl
  have hlt := walkLabel_lt q
  have hgap := walkGap_bounds (q / 512)
  have hgap' := walkGap_bounds (q' / 512)
  have hnext := walkGap_bounds ((q + 1) / 512)
  have hnext' := walkGap_bounds ((q' + 1) / 512)
  have hends : (q + 1) % 512 = 0 ↔ (q' + 1) % 512 = 0 := by
    rw [round_end hodd, round_end hodd', hsecond]
  rw [walkLabel_succ_even (q := q + 1) (by omega), walkLabel_succ_even (q := q' + 1) (by omega),
    ← hsecond] at hthird
  rw [walkLabel_succ_odd hodd, walkLabel_succ_odd hodd', ← hfirst] at hsecond
  rw [walkLabel_succ_odd hodd] at hthird
  refine odd_unique hodd hodd' ?_ hfirst
  by_cases hend : (q + 1) % 512 = 0
  · have hend' := hends.mp hend
    rw [show (q + 1) / 512 = q / 512 + 1 by omega,
      show (q' + 1) / 512 = q' / 512 + 1 by omega] at *
    unfold walkGap walkStep at *
    omega
  · have hend' := mt hends.mpr hend
    rw [show (q + 1) / 512 = q / 512 by omega,
      show (q' + 1) / 512 = q' / 512 by omega] at *
    unfold walkGap walkStep at *
    omega

/-- No three bytes, the last but for its last bit, come twice. -/
theorem walk_unique (hq : q < walkLen) (hq' : q' < walkLen) (hfirst : walkLabel q = walkLabel q')
    (hsecond : walkLabel (q + 1) = walkLabel (q' + 1))
    (hthird : walkLabel (q + 2) / 2 = walkLabel (q' + 2) / 2) : q = q' := by
  have hparity : q % 2 = q' % 2 := by
    have hgap := walkGap_bounds (q / 512)
    have hgap' := walkGap_bounds (q' / 512)
    rcases Nat.mod_two_eq_zero_or_one q with heven | hodd <;>
      rcases Nat.mod_two_eq_zero_or_one q' with heven' | hodd'
    · omega
    · rw [walkLabel_succ_even heven, walkLabel_succ_odd hodd', ← hfirst] at hsecond
      unfold walkGap walkStep at *
      omega
    · rw [walkLabel_succ_odd hodd, walkLabel_succ_even heven', ← hfirst] at hsecond
      unfold walkGap walkStep at *
      omega
    · omega
  rcases Nat.mod_two_eq_zero_or_one q with heven | hodd
  · exact walk_unique_even hq hq' heven (by omega) hfirst hsecond hthird
  · exact walk_unique_odd hq hq' hodd (by omega) hfirst hsecond hthird

end repeats

end TonCompress.Lzma
