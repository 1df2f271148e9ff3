import TonCompress.Evolve.Pmx
import Mathlib.Data.List.FinRange

/-! The order crossover. The free positions, in increasing order, receive the
values of `b` that were not copied, in the order of `b`; the running index of
the refill loop is the position of the next free one. -/
namespace TonCompress.Evolve
open TonCompress.Lib

variable {n : Nat} (A B : Equiv.Perm (Fin n)) (l r : Nat)

/-- The values among the first `k` of `b` that are not in the copied segment. -/
def keptValues (k : Nat) : List (Fin n) :=
  (((List.finRange n).take k).map B).filter fun v => ¬ InSegment l r (A.symm v)

def freeSlot (m : Nat) : Nat := if m < l then m else m + (r + 1 - l)

/-- The number of a position outside the segment. -/
def slotRank (y : Nat) : Nat := if y < l then y else y - (r + 1 - l)

/-- The value of `j` after `m` writes: it still stands at `l` when the positions
before the segment are full. -/
def refillIndex (m : Nat) : Nat := if m ≤ l then m else m + (r + 1 - l)

variable {l r}

theorem refillIndex_skip (hlr : l ≤ r) (m : Nat) :
    (if refillIndex l r m = l then r + 1 else refillIndex l r m) = freeSlot l r m := by
  unfold refillIndex freeSlot
  split_ifs <;> omega

theorem refillIndex_succ (m : Nat) : freeSlot l r m + 1 = refillIndex l r (m + 1) := by
  unfold refillIndex freeSlot
  split_ifs <;> omega

theorem slotRank_freeSlot (m : Nat) : slotRank l r (freeSlot l r m) = m := by
  unfold slotRank freeSlot
  split_ifs <;> omega

theorem freeSlot_slotRank {y : Nat} (hlr : l ≤ r) (hy : ¬ (l ≤ y ∧ y ≤ r)) :
    freeSlot l r (slotRank l r y) = y := by
  unfold slotRank freeSlot
  split_ifs <;> omega

theorem freeSlot_not_inSegment (m : Nat) (hlr : l ≤ r) :
    ¬ (l ≤ freeSlot l r m ∧ freeSlot l r m ≤ r) := by
  unfold freeSlot
  split_ifs <;> omega

variable {A B}

theorem keptValues_succ {k : Nat} (hk : k < n) : keptValues A B l r (k + 1) =
    keptValues A B l r k ++
      if InSegment l r (A.symm (B ⟨k, hk⟩)) then [] else [B ⟨k, hk⟩] := by
  unfold keptValues
  rw [List.take_add_one, List.getElem?_eq_getElem (by simpa using hk)]
  simp only [List.getElem_finRange, Fin.cast_mk, Option.toList_some, List.map_append,
    List.map_cons, List.map_nil, List.filter_append]
  by_cases hcopied : InSegment l r (A.symm (B ⟨k, hk⟩)) <;> simp [hcopied]

/-- The segment of `a` holds `r + 1 - l` values, so the rest of `b` fills the
other positions exactly. -/
theorem keptValues_length (hlr : l ≤ r) (hr : r < n) :
    (keptValues A B l r n).length + (r + 1 - l) = n := by
  have hperm : ((List.finRange n).map (A.symm ∘ B)).Perm (List.finRange n) := by
    refine List.perm_of_nodup_nodup_toFinset_eq ?_ (List.nodup_finRange n) ?_
    · exact (List.nodup_finRange n).map (A.symm.injective.comp B.injective)
    · ext v
      simp only [List.mem_toFinset, List.mem_map, List.mem_finRange, true_and, iff_true]
      exact ⟨B.symm (A v), by simp⟩
  have hkept : (keptValues A B l r n).length =
      (List.range n).countP fun i => ¬ (l ≤ i ∧ i ≤ r) := by
    calc (keptValues A B l r n).length
        = ((List.finRange n).map (A.symm ∘ B)).countP fun i => ¬ InSegment l r i := by
          rw [keptValues, List.take_of_length_le (by simp), ← List.countP_eq_length_filter,
            List.countP_map, List.countP_map]
          rfl
      _ = (List.finRange n).countP fun i => ¬ InSegment l r i := hperm.countP_eq _
      _ = (List.range n).countP fun i => ¬ (l ≤ i ∧ i ≤ r) := by
          rw [← List.map_coe_finRange_eq_range, List.countP_map]
          rfl
  have hrange : List.range n = List.range' 0 l ++ (List.range' l (r + 1 - l) ++
      List.range' (r + 1) (n - (r + 1))) := by
    rw [List.range_eq_range', show List.range' (r + 1) (n - (r + 1)) =
      List.range' (l + (r + 1 - l)) (n - (r + 1)) by congr 1; omega, List.range'_append_1,
      show List.range' l (r + 1 - l + (n - (r + 1))) =
        List.range' (0 + l) (r + 1 - l + (n - (r + 1))) by congr 1; omega,
      List.range'_append_1]
    congr 1
    omega
  have hbefore : (List.range' 0 l).countP (fun i => ¬ (l ≤ i ∧ i ≤ r)) = l := by
    rw [List.countP_eq_length.mpr]
    · simp
    · intro i hi
      have := List.mem_range'_1.mp hi
      simp only [decide_eq_true_eq]
      omega
  have hinside : (List.range' l (r + 1 - l)).countP (fun i => ¬ (l ≤ i ∧ i ≤ r)) = 0 := by
    rw [List.countP_eq_zero]
    intro i hi
    have := List.mem_range'_1.mp hi
    simp only [decide_eq_true_eq]
    omega
  have hafter : (List.range' (r + 1) (n - (r + 1))).countP (fun i => ¬ (l ≤ i ∧ i ≤ r)) =
      n - (r + 1) := by
    rw [List.countP_eq_length.mpr]
    · simp
    · intro i hi
      have := List.mem_range'_1.mp hi
      simp only [decide_eq_true_eq]
      omega
  rw [hkept, hrange, List.countP_append, List.countP_append, hbefore, hinside, hafter]
  omega

theorem keptValues_length_lt {k : Nat} (hlr : l ≤ r) (hr : r < n) (hk : k < n)
    (hkept : ¬ InSegment l r (A.symm (B ⟨k, hk⟩))) :
    freeSlot l r (keptValues A B l r k).length < n := by
  have hstep : keptValues A B l r (k + 1) = _ := keptValues_succ hk
  rw [if_neg hkept] at hstep
  have hprefix : (keptValues A B l r (k + 1)).length ≤ (keptValues A B l r n).length := by
    refine List.Sublist.length_le (List.Sublist.filter _ (List.Sublist.map _ ?_))
    exact List.take_sublist_take_left (by omega)
  have htotal : (keptValues A B l r n).length + (r + 1 - l) = n := keptValues_length hlr hr
  rw [hstep, List.length_append, List.length_singleton] at hprefix
  unfold freeSlot
  split_ifs <;> omega

def refilled (A B : Equiv.Perm (Fin n)) (l r k : Nat) (y : Fin n) : Int :=
  if InSegment l r y then ((A y).val : Int)
  else match (keptValues A B l r k)[slotRank l r y.val]? with
    | some v => (v.val : Int)
    | none => -1

theorem refilled_write {k : Nat} (hlr : l ≤ r) (hk : k < n)
    (hkept : ¬ InSegment l r (A.symm (B ⟨k, hk⟩)))
    (hslot : freeSlot l r (keptValues A B l r k).length < n) :
    Function.update (refilled A B l r k) ⟨freeSlot l r (keptValues A B l r k).length, hslot⟩
      ((B ⟨k, hk⟩).val : Int) = refilled A B l r (k + 1) := by
  have hstep : keptValues A B l r (k + 1) = _ := keptValues_succ hk
  rw [if_neg hkept] at hstep
  funext y
  by_cases hy : y = ⟨freeSlot l r (keptValues A B l r k).length, hslot⟩
  · subst hy
    have hout : ¬ InSegment l r (⟨_, hslot⟩ : Fin n) := freeSlot_not_inSegment _ hlr
    rw [Function.update_self, refilled, if_neg hout, hstep, slotRank_freeSlot]
    simp
  · rw [Function.update_of_ne hy, refilled, refilled]
    by_cases hseg : InSegment l r y
    · simp [hseg]
    have hne : slotRank l r y.val ≠ (keptValues A B l r k).length := fun heq =>
      hy (Fin.ext (by simp only [← heq, freeSlot_slotRank hlr hseg]))
    rw [if_neg hseg, if_neg hseg, hstep]
    rcases Nat.lt_or_gt_of_ne hne with hlt | hgt
    · rw [List.getElem?_append_left hlt]
    · rw [List.getElem?_eq_none hgt.le, List.getElem?_eq_none]
      simp only [List.length_append, List.length_singleton]
      omega

theorem ox1Refill_ends (hlr : l ≤ r) (hr : r < n) (w : Int) {m : Nat} (hm : m ≤ n) :
    ox1Refill m ⟨tableOf B, w⟩ l r (List.ofFn (segmentPerm A l r))
        (List.ofFn (segmentUsed A l r)) =
      .ok (List.ofFn (refilled A B l r m), refillIndex l r (keptValues A B l r m).length) := by
  rw [← returns_eq_iff]
  refine forRange_ends (fun k s => s = (List.ofFn (refilled A B l r k),
    refillIndex l r (keptValues A B l r k).length)) (Nat.zero_le m) ?_ ?_
  · have hnil : keptValues A B l r 0 = [] := by simp [keptValues]
    have hinit : segmentPerm A l r = refilled A B l r 0 := by
      funext y
      simp [segmentPerm, refilled, hnil]
    simp [hinit, hnil, refillIndex]
  · rintro k s - hkm rfl
    have hk : k < n := by omega
    simp only [tableOf, vecGet_ofFn_of_lt _ _ hk, bind, Except.bind, vecGet_ofFn, segmentUsed]
    have hstep : keptValues A B l r (k + 1) = _ := keptValues_succ hk
    by_cases hcopied : InSegment l r (A.symm (B ⟨k, hk⟩))
    · rw [if_pos hcopied, List.append_nil] at hstep
      have hsame : refilled A B l r (k + 1) = refilled A B l r k := by
        funext y
        simp only [refilled, hstep]
      simp [hcopied, pure, Except.pure, hstep, hsame]
    · have hslot := keptValues_length_lt hlr hr hk hcopied
      simp only [if_neg hcopied, Bool.false_eq_true, if_false, refillIndex_skip hlr,
        vecSet_ofFn_of_lt _ _ hslot, refilled_write hlr hk hcopied hslot, pure, Except.pure,
        ends_ok, refillIndex_succ]
      rw [if_neg hcopied] at hstep
      rw [hstep, List.length_append, List.length_singleton]

/-- What `OX1` computes, as a property of the child. -/
structure IsOx1Child (A B : Equiv.Perm (Fin n)) (l r : Nat) (c : Fin n → Fin n) : Prop where
  copied : ∀ i, InSegment l r i → c i = A i
  refill : ∀ y, ¬ InSegment l r y →
    (keptValues A B l r n)[slotRank l r y.val]? = some (c y)

theorem IsOx1Child.injective (hlr : l ≤ r) (hr : r < n) {c : Fin n → Fin n}
    (h : IsOx1Child A B l r c) : Function.Injective c := by
  refine Finite.injective_iff_surjective.mpr fun v => ?_
  by_cases hv : InSegment l r (A.symm v)
  · exact ⟨A.symm v, by rw [h.copied _ hv, A.apply_symm_apply]⟩
  have hmem : v ∈ keptValues A B l r n := by
    simp only [keptValues, List.take_of_length_le (Nat.le_of_eq (List.length_finRange : (List.finRange n).length = n)),
      List.mem_filter, List.mem_map, List.mem_finRange, true_and, hv, not_false_eq_true,
      decide_true, and_true]
    exact ⟨B.symm v, B.apply_symm_apply v⟩
  obtain ⟨m, hm, hget⟩ := List.getElem_of_mem hmem
  have htotal : (keptValues A B l r n).length + (r + 1 - l) = n := keptValues_length hlr hr
  have hslot : freeSlot l r m < n := by
    unfold freeSlot
    split_ifs <;> omega
  refine ⟨⟨freeSlot l r m, hslot⟩, ?_⟩
  have := h.refill ⟨freeSlot l r m, hslot⟩ (freeSlot_not_inSegment m hlr)
  rw [slotRank_freeSlot, List.getElem?_eq_getElem hm, hget] at this
  exact (Option.some.inj this).symm

theorem ox1At_ends (A B : Equiv.Perm (Fin n)) {l r : Nat} (hlr : l ≤ r) (hr : r < n)
    (v w : Int) :
    Returns (ox1At ⟨tableOf A, v⟩ ⟨tableOf B, w⟩ l r) fun child =>
      ∃ c, child = ⟨tableOf c, 0⟩ ∧ IsOx1Child A B l r c := by
  have hlen : (tableOf A).length = n := by simp [tableOf]
  simp only [ox1At, hlen, copySegment_tableOf A l r v hlr hr, ox1Refill_ends hlr hr _ le_rfl, bind,
    Except.bind, pure, Except.pure, ends_ok]
  have htotal : (keptValues A B l r n).length + (r + 1 - l) = n := keptValues_length hlr hr
  have hvalue : ∀ y, ∃ c : Fin n, refilled A B l r n y = (c.val : Int) ∧
      (InSegment l r y → c = A y) ∧
      (¬ InSegment l r y → (keptValues A B l r n)[slotRank l r y.val]? = some c) := by
    intro y
    by_cases hy : InSegment l r y
    · exact ⟨A y, by simp [refilled, hy], fun _ => rfl, fun h => absurd hy h⟩
    · have hrank : slotRank l r y.val < (keptValues A B l r n).length := by
        have hyn := y.isLt
        simp only [InSegment] at hy
        unfold slotRank
        split_ifs <;> omega
      have hget := List.getElem?_eq_getElem hrank
      exact ⟨_, by simp [refilled, hy, hget], fun h => absurd h hy, fun _ => hget⟩
  choose c hc using hvalue
  refine ⟨c, ?_, fun i => (hc i).2.1, fun y => (hc y).2.2⟩
  rw [tableOf, funext fun y => (hc y).1]

end TonCompress.Evolve
