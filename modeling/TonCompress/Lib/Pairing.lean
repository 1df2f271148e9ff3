import Mathlib.Data.Finset.Card
import Mathlib.Data.Finset.Insert
import Mathlib.Logic.Function.Basic

/-! Bits that are written to the cells of a table one after another, each paired with the
next opposite bit of its cell. -/
namespace TonCompress.Lib

/-- What is open in a cell after `bit`: an opposite bit is answered, the same one stays. -/
def answered (pending : Option Bool) (bit : Bool) : Option Bool :=
  if pending = some (!bit) then none else some bit

section pairing
variable {κ : Type} [DecidableEq κ] (cellOf : Nat → κ) (bitOf : Nat → Bool)

def openBits : Nat → κ → Option Bool
  | 0 => fun _ => none
  | n + 1 => Function.update (openBits n) (cellOf n) (answered (openBits n (cellOf n)) (bitOf n))

def pairCount : Nat → Nat
  | 0 => 0
  | n + 1 =>
      pairCount n + if openBits cellOf bitOf n (cellOf n) = some (!bitOf n) then 1 else 0

/-- How often a cell was given the bit that was open in it. -/
def repeatCount : Nat → Nat
  | 0 => 0
  | n + 1 =>
      repeatCount n + if openBits cellOf bitOf n (cellOf n) = some (bitOf n) then 1 else 0

variable {cellOf bitOf} {cell : κ} {n : Nat}

theorem openBits_same : openBits cellOf bitOf (n + 1) (cellOf n) =
    answered (openBits cellOf bitOf n (cellOf n)) (bitOf n) :=
  Function.update_self _ _ _

theorem openBits_other (h : cellOf n ≠ cell) :
    openBits cellOf bitOf (n + 1) cell = openBits cellOf bitOf n cell :=
  Function.update_of_ne h.symm _ _

/-- Every bit is in a pair, repeats one, or is still open in its cell. -/
theorem length_eq (cellOf : Nat → κ) (bitOf : Nat → Bool) (n : Nat) :
    ∃ cells : Finset κ, (∀ cell, cell ∈ cells ↔ openBits cellOf bitOf n cell ≠ none) ∧
      n = 2 * pairCount cellOf bitOf n + repeatCount cellOf bitOf n + cells.card := by
  induction n with
  | zero => exact ⟨∅, fun cell => by simp [openBits], rfl⟩
  | succ n ih =>
    obtain ⟨cells, hcells, hlength⟩ := ih
    have hother : ∀ cell, cellOf n ≠ cell →
        (cell ∈ cells ↔ openBits cellOf bitOf (n + 1) cell ≠ none) := fun cell hne => by
      rw [openBits_other hne]
      exact hcells cell
    rw [pairCount, repeatCount]
    by_cases hanswer : openBits cellOf bitOf n (cellOf n) = some (!bitOf n)
    · have hmem : cellOf n ∈ cells := (hcells _).mpr (by rw [hanswer]; exact Option.some_ne_none _)
      refine ⟨cells.erase (cellOf n), fun cell => ?_, ?_⟩
      · by_cases hcell : cellOf n = cell
        · subst hcell
          rw [openBits_same, answered, if_pos hanswer]
          simp
        · rw [Finset.mem_erase, and_iff_right (Ne.symm hcell)]
          exact hother cell hcell
      · have hcard := Finset.card_erase_add_one hmem
        rw [if_pos hanswer, hanswer, if_neg fun h => Bool.not_ne_self _ (Option.some.inj h)]
        omega
    · have hopen : openBits cellOf bitOf (n + 1) (cellOf n) = some (bitOf n) := by
        rw [openBits_same, answered, if_neg hanswer]
      refine ⟨insert (cellOf n) cells, fun cell => ?_, ?_⟩
      · by_cases hcell : cellOf n = cell
        · subst hcell
          rw [hopen]
          simp
        · rw [Finset.mem_insert, or_iff_right (Ne.symm hcell)]
          exact hother cell hcell
      · rw [if_neg hanswer]
        by_cases hmem : cellOf n ∈ cells
        · have hsome := Option.ne_none_iff_exists'.mp ((hcells _).mp hmem)
          obtain ⟨bit, hbit⟩ := hsome
          have hrepeat : openBits cellOf bitOf n (cellOf n) = some (bitOf n) := by
            rw [hbit] at hanswer ⊢
            have hne : bit ≠ !bitOf n := fun heq => hanswer (congrArg some heq)
            rw [Bool.eq_not.not_left.mp hne]
          rw [Finset.insert_eq_of_mem hmem, if_pos hrepeat]
          omega
        · have hnone : openBits cellOf bitOf n (cellOf n) = none := by
            by_contra hsome
            exact hmem ((hcells _).mpr hsome)
          rw [Finset.card_insert_of_notMem hmem, hnone, if_neg (by simp)]
          omega

/-- An open bit is the last one of its cell. -/
theorem exists_last {bit : Bool} (h : openBits cellOf bitOf n cell = some bit) :
    ∃ k < n, cellOf k = cell ∧ bitOf k = bit ∧ ∀ j, k < j → j < n → cellOf j ≠ cell := by
  induction n with
  | zero => cases h
  | succ n ih =>
    by_cases hcell : cellOf n = cell
    · subst hcell
      rw [openBits_same, answered] at h
      split at h
      · cases h
      · exact ⟨n, Nat.lt_succ_self n, rfl, Option.some.inj h, fun j hlt hle => by omega⟩
    · rw [openBits_other hcell] at h
      obtain ⟨k, hk, hcell', hbit, hlast⟩ := ih h
      refine ⟨k, by omega, hcell', hbit, fun j hlt hle => ?_⟩
      by_cases hj : j = n
      · rw [hj]
        exact hcell
      · exact hlast j hlt (by omega)

theorem openBits_stretch {start stop : Nat} (hle : start ≤ stop)
    (h : ∀ j, start ≤ j → j < stop → cellOf j ≠ cell) :
    openBits cellOf bitOf stop cell = openBits cellOf bitOf start cell := by
  induction stop, hle using Nat.le_induction with
  | base => rfl
  | succ stop hle ih =>
    rw [openBits_other (h stop hle (Nat.lt_succ_self stop))]
    exact ih fun j hstart hstop => h j hstart (by omega)

/-- A stretch with two bits of a cell, opposite to each other, repeats none of them and leaves
none open. -/
theorem openBits_pair {start first second stop : Nat} (hstart : start ≤ first)
    (hlt : first < second) (hstop : second < stop) (hfirst : cellOf first = cell)
    (hsecond : cellOf second = cell) (hbits : bitOf second = !bitOf first)
    (hothers : ∀ j, start ≤ j → j < stop → cellOf j = cell → j = first ∨ j = second)
    (h : openBits cellOf bitOf start cell = none) :
    openBits cellOf bitOf stop cell = none ∧ ∀ j, start ≤ j → j < stop → cellOf j = cell →
      openBits cellOf bitOf j cell ≠ some (bitOf j) := by
  have hstretch : ∀ left right, start ≤ left → right ≤ stop → left ≤ right →
      (∀ j, left ≤ j → j < right → j ≠ first ∧ j ≠ second) →
      openBits cellOf bitOf right cell = openBits cellOf bitOf left cell := by
    intro left right hleft hright hle hno
    refine openBits_stretch hle fun j hj hj' hcell => ?_
    obtain ⟨hne, hne'⟩ := hno j hj hj'
    exact (hothers j (by omega) (by omega) hcell).elim hne hne'
  have hbefore := hstretch start first le_rfl (by omega) hstart fun j _ _ => by omega
  have hbetween := hstretch (first + 1) second (by omega) (by omega) hlt fun j _ _ => by omega
  have hbehind := hstretch (second + 1) stop (by omega) le_rfl hstop fun j _ _ => by omega
  have hopened : openBits cellOf bitOf (first + 1) cell = some (bitOf first) := by
    rw [← hfirst, openBits_same, hfirst, hbefore, h]
    rfl
  have hopen : openBits cellOf bitOf second cell = some (!bitOf second) := by
    rw [hbetween, hopened, hbits, Bool.not_not]
  refine ⟨?_, fun j hj hj' hcell => ?_⟩
  · rw [hbehind, ← hsecond, openBits_same, hsecond, hopen, answered, if_pos rfl]
  · rcases hothers j hj hj' hcell with rfl | rfl
    · rw [hbefore, h]
      exact (Option.some_ne_none _).symm
    · rw [hopen]
      exact fun hsome => Bool.not_ne_self _ (Option.some.inj hsome)

theorem openBits_congr {cellOf' : Nat → κ} {bitOf' : Nat → Bool}
    (h : ∀ k < n, cellOf k = cellOf' k ∧ bitOf k = bitOf' k) :
    openBits cellOf bitOf n = openBits cellOf' bitOf' n ∧
      pairCount cellOf bitOf n = pairCount cellOf' bitOf' n := by
  induction n with
  | zero => exact ⟨rfl, rfl⟩
  | succ n ih =>
    obtain ⟨hopen, hcount⟩ := ih fun k hk => h k (Nat.lt_succ_of_lt hk)
    obtain ⟨hcell, hbit⟩ := h n (Nat.lt_succ_self n)
    rw [openBits, openBits, pairCount, pairCount, hopen, hcount, hcell, hbit]
    exact ⟨rfl, rfl⟩

theorem pairCount_le {m : Nat} (h : m ≤ n) :
    pairCount cellOf bitOf m ≤ pairCount cellOf bitOf n := by
  induction n, h using Nat.le_induction with
  | base => exact le_rfl
  | succ n _ ih => exact ih.trans (Nat.le_add_right _ _)

end pairing

end TonCompress.Lib
