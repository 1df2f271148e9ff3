import TonCompress.Lib.ObjExec

/-! Two runs that cannot tell their objects apart: equal outcomes, and objects
that stay related. -/
namespace TonCompress.Lib

variable {Site σ α β : Type} {R : σ → σ → Prop}

/-- Started on `obj` and `obj'`, the runs end in the same way and leave objects
related by `R`. -/
def AlikeAt (R : σ → σ → Prop) (run run' : ObjExec Site σ α) (obj obj' : σ) : Prop :=
  (run obj).1 = (run' obj').1 ∧ R (run obj).2 (run' obj').2

section rules
variable {run run' : ObjExec Site σ α} {next next' : α → ObjExec Site σ β} {obj obj' : σ}

theorem alikeAt_pure (value : α) (h : R obj obj') :
    AlikeAt R (pure value : ObjExec Site σ α) (pure value) obj obj' :=
  ⟨rfl, h⟩

theorem alikeAt_throw (reason : Stop Site) (h : R obj obj') :
    AlikeAt R (throw reason : ObjExec Site σ α) (throw reason) obj obj' :=
  ⟨rfl, h⟩

theorem alikeAt_throw_bind (reason : Stop Site) (h : R obj obj') :
    AlikeAt R ((throw reason : ObjExec Site σ α) >>= next)
      ((throw reason : ObjExec Site σ α) >>= next') obj obj' :=
  ⟨rfl, h⟩

theorem alikeAt_liftExec (run : Exec Site α) (h : R obj obj') :
    AlikeAt R (liftExec run : ObjExec Site σ α) (liftExec run) obj obj' :=
  ⟨rfl, h⟩

theorem alikeAt_modify (change change' : σ → σ) (h : R (change obj) (change' obj')) :
    AlikeAt R (modify change : ObjExec Site σ PUnit) (modify change') obj obj' :=
  ⟨rfl, h⟩

theorem alikeAt_get_bind {next next' : σ → ObjExec Site σ β}
    (h : AlikeAt R (next obj) (next' obj') obj obj') :
    AlikeAt R (get >>= next) (get >>= next') obj obj' := h

theorem AlikeAt.bind (h : AlikeAt R run run' obj obj')
    (hnext : ∀ value obj obj', R obj obj' → AlikeAt R (next value) (next' value) obj obj') :
    AlikeAt R (run >>= next) (run' >>= next') obj obj' := by
  obtain ⟨hsame, hrel⟩ := h
  cases hrun : run obj with
  | mk outcome left =>
    cases hrun' : run' obj' with
    | mk outcome' right =>
      rw [hrun, hrun'] at hsame hrel
      obtain rfl : outcome = outcome' := hsame
      unfold AlikeAt
      cases outcome with
      | ok value =>
        rw [run_bind_ok hrun, run_bind_ok hrun']
        exact hnext value left right hrel
      | error reason =>
        rw [run_bind_error hrun, run_bind_error hrun']
        exact ⟨rfl, hrel⟩

theorem alikeAt_ite {cond : Prop} [Decidable cond] {other other' : ObjExec Site σ α}
    (hyes : cond → AlikeAt R run run' obj obj') (hno : ¬ cond → AlikeAt R other other' obj obj') :
    AlikeAt R (if cond then run else other) (if cond then run' else other') obj obj' := by
  by_cases hcond : cond
  · rw [if_pos hcond, if_pos hcond]
    exact hyes hcond
  · rw [if_neg hcond, if_neg hcond]
    exact hno hcond

end rules

theorem forRange_alikeAt {τ : Type} {body body' : Nat → τ → ObjExec Site σ τ} {lo hi : Nat}
    (hle : lo ≤ hi)
    (hbody : ∀ i state obj obj', R obj obj' → AlikeAt R (body i state) (body' i state) obj obj')
    {state : τ} {obj obj' : σ} (h : R obj obj') :
    AlikeAt R (forRange lo hi state body) (forRange lo hi state body') obj obj' := by
  induction hk : hi - lo generalizing lo state obj obj' with
  | zero =>
    obtain rfl : lo = hi := by omega
    rw [forRange_self, forRange_self]
    exact alikeAt_pure state h
  | succ k ih =>
    rw [forRange_succ_left (by omega), forRange_succ_left (by omega)]
    refine (hbody lo state obj obj' h).bind fun state' left right hrel => ?_
    exact ih (by omega) hrel (by omega)

end TonCompress.Lib
