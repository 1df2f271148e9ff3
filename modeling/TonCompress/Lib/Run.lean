import TonCompress.Lib.Exec
import Mathlib.Logic.Relation

/-! Runs of a deterministic machine whose step can stop. -/
namespace TonCompress.Lib

variable {σ ε : Type} {step : σ → Except ε σ}

abbrev Reaches (step : σ → Except ε σ) : σ → σ → Prop :=
  Relation.ReflTransGen fun s t => step s = .ok t

/-- The run rule: what holds at the start and survives each step holds in every
state reached. -/
theorem Reaches.invariant {inv : σ → Prop} {s t : σ} (h : Reaches step s t) (init : inv s)
    (preserve : ∀ s t, inv s → step s = .ok t → inv t) : inv t := by
  induction h with
  | refl => exact init
  | tail _ hstep ih => exact preserve _ _ ih hstep

/-- A machine has one run: of two states reached, one is reached from the other. -/
theorem Reaches.total {s t u : σ} (ht : Reaches step s t) (hu : Reaches step s u) :
    Reaches step t u ∨ Reaches step u t := by
  refine Relation.ReflTransGen.total_of_right_unique ?_ ht hu
  intro a b c hb hc
  exact Except.ok.inj (hb.symm.trans hc)

end TonCompress.Lib
