import TonCompress.Evolve.Gene
import Mathlib.Data.List.OfFn
import Mathlib.Data.List.NodupEquivFin
import Mathlib.Data.Fintype.EquivFin
import Mathlib.Logic.Equiv.Basic

/-! Permutations of the cells `0..n-1` as the code stores them, and their
reading as permutations of `Fin n`. -/
namespace TonCompress.Evolve
open TonCompress.Lib

/-- `perm` holds every cell number `0..n-1` exactly once. -/
def IsPerm (n : Nat) (perm : List Int) : Prop :=
  perm.Perm ((List.range n).map Int.ofNat)

instance (n : Nat) (perm : List Int) : Decidable (IsPerm n perm) :=
  inferInstanceAs (Decidable (perm.Perm _))

variable {n : Nat} {perm : List Int}

theorem isPerm_range (n : Nat) : IsPerm n ((List.range n).map Int.ofNat) := List.Perm.refl _

theorem IsPerm.length_eq (h : IsPerm n perm) : perm.length = n := by
  simpa using List.Perm.length_eq h

theorem IsPerm.reverse (h : IsPerm n perm) : IsPerm n perm.reverse :=
  (List.reverse_perm perm).trans h

theorem IsPerm.bounds (h : IsPerm n perm) {value : Int} (hvalue : value ∈ perm) :
    0 ≤ value ∧ value < n := by
  obtain ⟨k, hk, rfl⟩ := List.mem_map.mp ((List.Perm.mem_iff h).mp hvalue)
  have := List.mem_range.mp hk
  simp only [Int.ofNat_eq_natCast]
  omega

theorem IsPerm.nodup (h : IsPerm n perm) : perm.Nodup :=
  (List.Perm.nodup_iff h).mpr (List.nodup_range.map fun _ _ => Int.ofNat.inj)

def tableOf (f : Fin n → Fin n) : List Int :=
  List.ofFn fun i => ((f i).val : Int)

theorem isPerm_tableOf {f : Fin n → Fin n} (hf : Function.Injective f) : IsPerm n (tableOf f) := by
  have hinj : Function.Injective fun i : Fin n => ((f i).val : Int) := fun i j hij =>
    hf (Fin.ext (Int.ofNat_inj.mp hij))
  have hsub : tableOf f ⊆ (List.range n).map Int.ofNat := by
    intro value hvalue
    obtain ⟨i, rfl⟩ := (List.mem_ofFn' _ _).mp hvalue
    exact List.mem_map.mpr ⟨(f i).val, List.mem_range.mpr (f i).isLt, rfl⟩
  have hnodup : (tableOf f).Nodup := List.nodup_ofFn.mpr hinj
  refine (hnodup.subperm hsub).perm_of_length_le ?_
  simp [tableOf]

theorem IsPerm.exists_equiv (h : IsPerm n perm) :
    ∃ e : Equiv.Perm (Fin n), perm = tableOf e := by
  have hlen := h.length_eq
  have hget : ∀ i : Fin n, perm[i.val] ∈ perm := fun i => List.getElem_mem _
  let f : Fin n → Fin n := fun i =>
    ⟨(perm[i.val]).toNat, by have := h.bounds (hget i); omega⟩
  have hval : ∀ i : Fin n, ((f i).val : Int) = perm[i.val] := fun i => by
    have := h.bounds (hget i)
    simp only [f]
    omega
  have hinj : Function.Injective f := by
    intro i j hij
    have hsame : perm[i.val] = perm[j.val] := by
      rw [← hval, ← hval, hij]
    exact Fin.ext ((h.nodup.getElem_inj_iff).mp hsame)
  refine ⟨Equiv.ofBijective f (Finite.injective_iff_bijective.mp hinj), ?_⟩
  apply List.ext_getElem
  · simp [tableOf, hlen]
  · intro i hi _
    simp [tableOf, hval ⟨i, by omega⟩]

theorem swapAt_isPerm (h : IsPerm n perm) {i j : Nat} (hi : i < n) (hj : j < n) :
    Returns (swapAt perm i j) (IsPerm n) := by
  obtain ⟨e, rfl⟩ := h.exists_equiv
  unfold swapAt tableOf
  have hgeti := vecGet_ofFn GeneSite.perm (fun k => ((e k).val : Int)) ⟨i, hi⟩
  have hgetj := vecGet_ofFn GeneSite.perm (fun k => ((e k).val : Int)) ⟨j, hj⟩
  have hseti := vecSet_ofFn GeneSite.perm (fun k => ((e k).val : Int)) ⟨i, hi⟩
    ((e ⟨j, hj⟩).val : Int)
  have hsetj := vecSet_ofFn GeneSite.perm
    (Function.update (fun k => ((e k).val : Int)) ⟨i, hi⟩ ((e ⟨j, hj⟩).val : Int)) ⟨j, hj⟩
    ((e ⟨i, hi⟩).val : Int)
  simp only [Returns, bind, Except.bind, hgeti, hgetj, hseti, hsetj, ends_ok]
  have hswap : Function.update
      (Function.update (fun k => ((e k).val : Int)) ⟨i, hi⟩ ((e ⟨j, hj⟩).val : Int)) ⟨j, hj⟩
      ((e ⟨i, hi⟩).val : Int) =
      fun k => ((e (Equiv.swap ⟨i, hi⟩ ⟨j, hj⟩ k)).val : Int) := by
    funext k
    by_cases hkj : k = ⟨j, hj⟩
    · subst hkj
      simp
    · by_cases hki : k = ⟨i, hi⟩
      · subst hki
        simp [Function.update_of_ne hkj]
      · simp [Function.update_of_ne hkj, Function.update_of_ne hki,
          Equiv.swap_apply_of_ne_of_ne hki hkj]
  rw [hswap]
  have hinj : Function.Injective fun k => e (Equiv.swap ⟨i, hi⟩ ⟨j, hj⟩ k) :=
    e.injective.comp (Equiv.injective _)
  exact isPerm_tableOf hinj

end TonCompress.Evolve
