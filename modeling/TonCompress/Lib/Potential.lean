import Mathlib.Algebra.BigOperators.Group.Finset.Basic
import Mathlib.Algebra.Order.BigOperators.Group.Finset
import Mathlib.Logic.Function.Basic
import Mathlib.Tactic.Ring

/-! A potential for runs that update the cells of a table one at a time. A step may spend more
than it is granted where it makes its cell heavier. All cells start with the value of the
greatest weight, so over a whole run no more is spent than was granted. -/
namespace TonCompress.Lib

section potential
variable {κ V : Type} {weight : V → Nat} {start : V} {table : κ → V}
variable {spent granted spent' granted' : Nat}

/-- What was spent is covered by what was granted, less the weight that the cells have lost. -/
def Covers (weight : V → Nat) (start : V) (table : κ → V) (spent granted : Nat) : Prop :=
  ∃ cells : Finset κ, (∀ cell ∉ cells, table cell = start) ∧
    spent * weight start ^ cells.card ≤ granted * ∏ cell ∈ cells, weight (table cell)

theorem Covers.fresh (h : spent ≤ granted) :
    Covers weight start (fun _ : κ => start) spent granted := by
  refine ⟨∅, fun _ _ => rfl, ?_⟩
  rwa [Finset.card_empty, pow_zero, Finset.prod_empty, Nat.mul_one, Nat.mul_one]

theorem Covers.scale (h : Covers weight start table spent granted) (hgranted : 0 < granted)
    (hstep : spent' * granted ≤ spent * granted') :
    Covers weight start table spent' granted' := by
  obtain ⟨cells, hstart, hle⟩ := h
  refine ⟨cells, hstart, ?_⟩
  generalize ∏ cell ∈ cells, weight (table cell) = weights at hle ⊢
  apply Nat.le_of_mul_le_mul_right _ hgranted
  calc spent' * weight start ^ cells.card * granted
      = spent' * granted * weight start ^ cells.card := by ring
    _ ≤ spent * granted' * weight start ^ cells.card := Nat.mul_le_mul_right _ hstep
    _ = spent * weight start ^ cells.card * granted' := by ring
    _ ≤ granted * weights * granted' := Nat.mul_le_mul_right _ hle
    _ = granted' * weights * granted := by ring

/-- In the end the weights do not count, since none is above that of the first value. -/
theorem Covers.le (h : Covers weight start table spent granted)
    (hmax : ∀ value, weight value ≤ weight start) (hpos : 0 < weight start) : spent ≤ granted := by
  obtain ⟨cells, -, hle⟩ := h
  apply Nat.le_of_mul_le_mul_right _ (Nat.pow_pos hpos : 0 < weight start ^ cells.card)
  refine hle.trans (Nat.mul_le_mul_left _ ?_)
  exact Finset.prod_le_pow_card cells _ _ fun cell _ => hmax (table cell)

variable [DecidableEq κ]

/-- A cell that has not changed may be counted among those that have. -/
theorem Covers.exists_mem (h : Covers weight start table spent granted) (cell : κ) :
    ∃ cells : Finset κ, cell ∈ cells ∧ (∀ other ∉ cells, table other = start) ∧
      spent * weight start ^ cells.card ≤ granted * ∏ other ∈ cells, weight (table other) := by
  obtain ⟨cells, hstart, hle⟩ := h
  by_cases hmem : cell ∈ cells
  · exact ⟨cells, hmem, hstart, hle⟩
  · refine ⟨insert cell cells, Finset.mem_insert_self _ _, ?_, ?_⟩
    · exact fun other hother => hstart other fun hin => hother (Finset.mem_insert_of_mem hin)
    · rw [Finset.card_insert_of_notMem hmem, Finset.prod_insert hmem, hstart cell hmem, pow_succ,
        ← Nat.mul_assoc, Nat.mul_left_comm, Nat.mul_comm (weight start)]
      exact Nat.mul_le_mul_right _ hle

theorem prod_update {cells : Finset κ} {cell : κ} (hmem : cell ∈ cells) (value : V) :
    (∏ other ∈ cells, weight (Function.update table cell value other)) * weight (table cell) =
      (∏ other ∈ cells, weight (table other)) * weight value := by
  have hrest : ∏ other ∈ cells.erase cell, weight (Function.update table cell value other) =
      ∏ other ∈ cells.erase cell, weight (table other) :=
    Finset.prod_congr rfl fun other hother => by
      rw [Function.update_of_ne (Finset.ne_of_mem_erase hother)]
  rw [← Finset.mul_prod_erase cells _ hmem, ← Finset.mul_prod_erase cells _ hmem, hrest,
    Function.update_self]
  ring

theorem Covers.update (h : Covers weight start table spent granted) (cell : κ) {value : V}
    (hgranted : 0 < granted) (hweight : 0 < weight (table cell))
    (hstep : spent' * granted * weight (table cell) ≤ spent * granted' * weight value) :
    Covers weight start (Function.update table cell value) spent' granted' := by
  obtain ⟨cells, hmem, hstart, hle⟩ := h.exists_mem cell
  refine ⟨cells, fun other hother => ?_, ?_⟩
  · rw [Function.update_of_ne fun heq : other = cell => hother (heq ▸ hmem)]
    exact hstart other hother
  · have hprod := @prod_update κ V weight table _ cells cell hmem value
    generalize ∏ other ∈ cells, weight (table other) = weights at hle hprod
    generalize ∏ other ∈ cells, weight (Function.update table cell value other) = weights' at hprod ⊢
    apply Nat.le_of_mul_le_mul_right _ (Nat.mul_pos hgranted hweight)
    calc spent' * weight start ^ cells.card * (granted * weight (table cell))
        = spent' * granted * weight (table cell) * weight start ^ cells.card := by ring
      _ ≤ spent * granted' * weight value * weight start ^ cells.card :=
          Nat.mul_le_mul_right _ hstep
      _ = spent * weight start ^ cells.card * (granted' * weight value) := by ring
      _ ≤ granted * weights * (granted' * weight value) := Nat.mul_le_mul_right _ hle
      _ = granted' * granted * (weights * weight value) := by ring
      _ = granted' * weights' * (granted * weight (table cell)) := by rw [← hprod]; ring

end potential

end TonCompress.Lib
