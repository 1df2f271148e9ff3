import Mathlib.Data.BitVec

/-! Swaps of the bits of a word that a mask selects with those a fixed distance above. Such
swaps in a row permute the bits by a map that can be computed once, whatever the word. -/
namespace TonCompress.Lib

/-- `t = (x ^ (x >> s)) & mask; x ^ t ^ (t << s)`. -/
def deltaSwap {w : Nat} (mask : BitVec w) (s : Nat) (x : BitVec w) : BitVec w :=
  let t := (x ^^^ (x >>> s)) &&& mask
  x ^^^ t ^^^ (t <<< s)

def swapSource {w : Nat} (mask : BitVec w) (s i : Nat) : Nat :=
  if mask.getLsbD i then i + s else if s ≤ i ∧ mask.getLsbD (i - s) then i - s else i

/-- No bit is selected together with the one it is swapped with, and none with a bit
above the word. -/
def SwapMask {w : Nat} (mask : BitVec w) (s : Nat) : Prop :=
  ∀ i < w, mask.getLsbD i → i + s < w ∧ ¬ mask.getLsbD (i + s)

instance {w : Nat} (mask : BitVec w) (s : Nat) : Decidable (SwapMask mask s) :=
  inferInstanceAs (Decidable (∀ i < w, _))

theorem getLsbD_deltaSwap {w : Nat} {mask : BitVec w} {s : Nat} (h : SwapMask mask s)
    (x : BitVec w) {i : Nat} (hi : i < w) :
    (deltaSwap mask s x).getLsbD i = x.getLsbD (swapSource mask s i) := by
  simp only [deltaSwap, swapSource, BitVec.getLsbD_xor, BitVec.getLsbD_and,
    BitVec.getLsbD_ushiftRight, BitVec.getLsbD_shiftLeft, decide_eq_true hi, Bool.true_and]
  by_cases hmask : mask.getLsbD i = true
  · -- the partner is above; the bit below, if there is one, is not selected
    have hbelow : ¬ (s ≤ i ∧ mask.getLsbD (i - s) = true) := by
      rintro ⟨hle, hsel⟩
      have hnot := (h (i - s) (by omega) hsel).2
      rw [Nat.sub_add_cancel hle] at hnot
      exact hnot hmask
    by_cases hle : s ≤ i
    · have hoff : mask.getLsbD (i - s) = false := by simpa [hle] using hbelow
      simp [hmask, hoff, Nat.add_comm]
    · simp [hmask, Nat.lt_of_not_le hle, Nat.add_comm]
  · by_cases hbelow : s ≤ i ∧ mask.getLsbD (i - s) = true
    · have hsum : s + (i - s) = i := by omega
      simp [hmask, hbelow, Nat.not_lt.mpr hbelow.1, hsum, Bool.xor_comm]
    · by_cases hle : s ≤ i
      · have hoff : mask.getLsbD (i - s) = false := by simpa [hle] using hbelow
        simp [hmask, hoff]
      · simp [hmask, Nat.lt_of_not_le hle, hle]

end TonCompress.Lib
