import Mathlib.Order.Interval.Set.Union

/-! Half-open intervals that follow one another. -/
namespace TonCompress.Lib

variable {α : Type} {ends : ℕ → α} {lo hi : α} {n : ℕ}

def consecutive (ends : ℕ → α) (n : ℕ) : List (α × α) :=
  (List.range n).map fun i => (ends i, ends (i + 1))

theorem mem_consecutive {interval : α × α} :
    interval ∈ consecutive ends n ↔ ∃ i < n, (ends i, ends (i + 1)) = interval := by
  simp [consecutive]

variable [LinearOrder α]

/-- The intervals lie between `lo` and `hi`, none reaches into a later one, and
together they leave nothing out. -/
structure Partitions (intervals : List (α × α)) (lo hi : α) : Prop where
  inside : ∀ interval ∈ intervals, lo ≤ interval.1 ∧ interval.1 ≤ interval.2 ∧ interval.2 ≤ hi
  disjoint : intervals.Pairwise fun left right => left.2 ≤ right.1
  covered : ∀ x, lo ≤ x → x < hi → ∃ interval ∈ intervals, interval.1 ≤ x ∧ x < interval.2

/-- Between the values of a monotone sequence nothing is left out. -/
theorem partitions_consecutive (hends : Monotone ends) (n : ℕ) :
    Partitions (consecutive ends n) (ends 0) (ends n) := by
  constructor
  · intro interval hmem
    obtain ⟨i, hi, rfl⟩ := mem_consecutive.mp hmem
    exact ⟨hends (Nat.zero_le i), hends (Nat.le_succ i), hends hi⟩
  · rw [consecutive, List.pairwise_map]
    apply List.pairwise_lt_range.imp
    intro i j hij
    exact hends hij
  · intro x hlo hhi
    have hunion := Ico_subset_biUnion_Ico n ends (Set.mem_Ico.mpr ⟨hlo, hhi⟩)
    simp only [Set.mem_iUnion, Set.mem_Ico] at hunion
    obtain ⟨i, hi, hx⟩ := hunion
    exact ⟨_, mem_consecutive.mpr ⟨i, by simpa using hi, rfl⟩, hx⟩

theorem Partitions.end_eq (hends : Monotone ends) (h : Partitions (consecutive ends n) (ends 0) hi)
    (hhi : ends 0 ≤ hi) : hi = ends n := by
  apply le_antisymm
  · by_contra hlt
    obtain ⟨interval, hmem, -, hx⟩ := h.covered (ends n) (hends (Nat.zero_le n)) (not_le.mp hlt)
    obtain ⟨i, hi, rfl⟩ := mem_consecutive.mp hmem
    exact absurd hx (not_lt.mpr (hends hi))
  · cases n with
    | zero => exact hhi
    | succ n => exact (h.inside _ (mem_consecutive.mpr ⟨n, Nat.lt_succ_self n, rfl⟩)).2.2

end TonCompress.Lib
