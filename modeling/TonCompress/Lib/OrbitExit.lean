import Mathlib.GroupTheory.OrderOfElement
import Mathlib.GroupTheory.Perm.Basic
import Mathlib.Data.Fintype.Perm
import Mathlib.Algebra.Group.Action.End

/-! The first point at which the orbit of a permutation leaves a set. An entry
of the set is a point whose predecessor lies outside; walking forward from an
entry leaves the set before it can return, and different entries leave at
different points. -/
namespace TonCompress.Lib.OrbitExit

variable {α : Type} {τ : Equiv.Perm α} {s : α → Prop}

/-- `x` is in the set and its predecessor is not. -/
structure Entry (τ : Equiv.Perm α) (s : α → Prop) (x : α) : Prop where
  mem : s x
  pred_not_mem : ¬ s (τ⁻¹ x)

/-- `y` is the first point of the orbit of `x` outside the set, `k` steps on. -/
structure ExitAt (τ : Equiv.Perm α) (s : α → Prop) (x : α) (k : Nat) (y : α) : Prop where
  step : (τ ^ k) x = y
  not_mem : ¬ s y
  before : ∀ m < k, s ((τ ^ m) x)

theorem pow_succ_apply (k : Nat) (x : α) : (τ ^ (k + 1)) x = τ ((τ ^ k) x) := by
  rw [pow_succ', Equiv.Perm.mul_apply]

theorem inv_pow_succ_apply (k : Nat) (x : α) : τ⁻¹ ((τ ^ (k + 1)) x) = (τ ^ k) x := by
  rw [pow_succ_apply]
  exact τ.symm_apply_apply _

theorem exists_exitAt [Finite α] {x : α} (h : Entry τ s x) : ∃ k y, ExitAt τ s x k y := by
  classical
  have hexit : ∃ k, ¬ s ((τ ^ k) x) := by
    refine ⟨orderOf τ - 1, ?_⟩
    have hpos : 0 < orderOf τ := orderOf_pos τ
    have hinv : τ ^ (orderOf τ - 1) = τ⁻¹ := by
      rw [eq_inv_iff_mul_eq_one, ← pow_succ, Nat.sub_add_cancel hpos, pow_orderOf_eq_one]
    rw [hinv]
    exact h.pred_not_mem
  exact ⟨Nat.find hexit, _, rfl, Nat.find_spec hexit,
    fun m hm => not_not.mp (Nat.find_min hexit hm)⟩

theorem Entry.eq_of_pow_eq {x x' : α} {k k' : Nat} (h : Entry τ s x) (hle : k ≤ k')
    (before : ∀ m < k', s ((τ ^ m) x')) (heq : (τ ^ k) x = (τ ^ k') x') :
    k = k' ∧ x = x' := by
  obtain ⟨d, rfl⟩ := Nat.exists_eq_add_of_le hle
  rw [pow_add, Equiv.Perm.mul_apply] at heq
  have hx : x = (τ ^ d) x' := (τ ^ k).injective heq
  cases d with
  | zero => exact ⟨rfl, by simpa using hx⟩
  | succ d =>
    refine absurd (before d (by omega)) ?_
    rw [← inv_pow_succ_apply, ← hx]
    exact h.pred_not_mem

theorem ExitAt.unique {x y y' : α} {k k' : Nat} (h : ExitAt τ s x k y)
    (h' : ExitAt τ s x k' y') : k = k' ∧ y = y' := by
  have hk : k = k' := by
    rcases Nat.lt_trichotomy k k' with hlt | heq | hgt
    · exact absurd (h'.before k hlt) (h.step ▸ h.not_mem)
    · exact heq
    · exact absurd (h.before k' hgt) (h'.step ▸ h'.not_mem)
  subst hk
  exact ⟨rfl, h.step.symm.trans h'.step⟩

/-- Different entries leave the set at different points. -/
theorem ExitAt.entry_unique {x x' y : α} {k k' : Nat} (hx : Entry τ s x)
    (hx' : Entry τ s x') (h : ExitAt τ s x k y) (h' : ExitAt τ s x' k' y) : x = x' := by
  rcases Nat.le_total k k' with hle | hle
  · exact (hx.eq_of_pow_eq hle h'.before (h.step.trans h'.step.symm)).2
  · exact (hx'.eq_of_pow_eq hle h.before (h'.step.trans h.step.symm)).2.symm

theorem Entry.disjoint {x x' : α} {k k' m m' : Nat} (hx : Entry τ s x) (hx' : Entry τ s x')
    (before : ∀ m < k, s ((τ ^ m) x)) (before' : ∀ m < k', s ((τ ^ m) x'))
    (hm : m < k) (hm' : m' < k') (heq : (τ ^ m) x = (τ ^ m') x') : x = x' := by
  rcases Nat.le_total m m' with hle | hle
  · exact (hx.eq_of_pow_eq hle (fun i hi => before' i (by omega)) heq).2
  · exact (hx'.eq_of_pow_eq hle (fun i hi => before i (by omega)) heq.symm).2.symm

theorem Entry.walk_injective {x : α} {k m m' : Nat} (hx : Entry τ s x)
    (before : ∀ m < k, s ((τ ^ m) x)) (hm : m < k) (hm' : m' < k)
    (heq : (τ ^ m) x = (τ ^ m') x) : m = m' := by
  rcases Nat.le_total m m' with hle | hle
  · exact (hx.eq_of_pow_eq hle (fun i hi => before i (by omega)) heq).1
  · exact (hx.eq_of_pow_eq hle (fun i hi => before i (by omega)) heq.symm).1.symm

theorem ExitAt.le_card [Fintype α] {x y : α} {k : Nat} (hx : Entry τ s x)
    (h : ExitAt τ s x k y) : k ≤ Fintype.card α := by
  have hinj : Function.Injective fun m : Fin k => (τ ^ m.val) x := fun m m' heq =>
    Fin.ext (hx.walk_injective h.before m.isLt m'.isLt heq)
  simpa using Fintype.card_le_of_injective _ hinj

/-- Every point just past the set is where some entry leaves it. -/
theorem exists_entry_of_pred_mem [Finite α] {y : α} (hy : ¬ s y) (hpred : s (τ⁻¹ y)) :
    ∃ x k, Entry τ s x ∧ ExitAt τ s x k y := by
  classical
  have hstop : ∃ k, ¬ s ((τ⁻¹ ^ (k + 1)) y) := by
    refine ⟨orderOf τ⁻¹ - 1, ?_⟩
    rw [Nat.sub_add_cancel (orderOf_pos τ⁻¹), pow_orderOf_eq_one]
    exact hy
  let k := Nat.find hstop
  have hk : 0 < k := by
    rw [Nat.find_pos]
    simpa using hpred
  have hinside : ∀ m, 0 < m → m ≤ k → s ((τ⁻¹ ^ m) y) := by
    intro m hm hmk
    obtain ⟨j, rfl⟩ : ∃ j, m = j + 1 := ⟨m - 1, by omega⟩
    exact not_not.mp (Nat.find_min hstop (by omega))
  have hwalk : ∀ m ≤ k, (τ ^ m) ((τ⁻¹ ^ k) y) = (τ⁻¹ ^ (k - m)) y := by
    intro m hm
    rw [← Equiv.Perm.mul_apply]
    congr 1
    obtain ⟨d, hd⟩ := Nat.exists_eq_add_of_le hm
    rw [hd, Nat.add_sub_cancel_left, inv_pow, inv_pow, add_comm, pow_add, mul_inv_rev,
      mul_inv_cancel_left]
  refine ⟨(τ⁻¹ ^ k) y, k, ⟨hinside k hk le_rfl, ?_⟩, ?_, hy, ?_⟩
  · have := Nat.find_spec hstop
    rwa [pow_succ', Equiv.Perm.mul_apply] at this
  · rw [hwalk k le_rfl]
    simp
  · intro m hm
    rw [hwalk m hm.le]
    exact hinside _ (by omega) (by omega)

end TonCompress.Lib.OrbitExit
