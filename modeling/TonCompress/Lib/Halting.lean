import TonCompress.Lib.Run

/-! A machine that is run until it comes to a final state. A measure that each
step lowers bounds the number of steps. -/
namespace TonCompress.Lib

section halting
variable {Site σ : Type} (final : σ → Prop) [DecidablePred final] (step : σ → Exec Site σ)

/-- Steps until the state is final, with fuel for each and for the look at the last. -/
def runUntil : Nat → σ → Exec Site σ
  | 0, _ => .error .outOfFuel
  | fuel + 1, s => if final s then .ok s else step s >>= runUntil fuel

variable {final step}

theorem runUntil_reaches {fuel : Nat} {s t : σ} (h : runUntil final step fuel s = .ok t) :
    Reaches step s t ∧ final t := by
  induction fuel generalizing s with
  | zero => cases h
  | succ fuel ih =>
    rw [runUntil] at h
    split at h
    · obtain rfl := Except.ok.inj h
      exact ⟨.refl, ‹_›⟩
    · obtain ⟨next, hstep, hrest⟩ := bind_eq_ok.mp h
      obtain ⟨hreach, hfinal⟩ := ih hrest
      exact ⟨hreach.head hstep, hfinal⟩

/-- The halting rule: with more fuel than the measure, a run comes to a final
state or stops for a reason that a single step has. -/
theorem runUntil_ends {inv : σ → Prop} {measure : σ → Nat} {stop : Stop Site → Prop}
    (hstep : ∀ s, inv s → ¬ final s →
      Ends (step s) (fun t => inv t ∧ measure t < measure s) stop)
    {fuel : Nat} {s : σ} (hs : inv s) (hfuel : measure s < fuel) :
    Ends (runUntil final step fuel s) (fun t => inv t ∧ final t) stop := by
  induction fuel generalizing s with
  | zero => exact absurd hfuel (Nat.not_lt_zero _)
  | succ fuel ih =>
    rw [runUntil]
    refine ends_ite.mpr ⟨fun hfinal => ⟨hs, hfinal⟩, fun hfinal => ?_⟩
    refine (hstep s hs hfinal).bind fun t ht => ih ht.1 ?_
    have := ht.2
    omega

end halting

end TonCompress.Lib
