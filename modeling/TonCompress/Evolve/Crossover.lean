import TonCompress.Evolve.Ox1

/-! The crossovers against their textbook descriptions, position by position. -/
namespace TonCompress.Evolve
open TonCompress.Lib

def segmentOf (perm : List Int) (l r : Nat) : List Int := (perm.drop l).take (r + 1 - l)

/-- `v := b[position of v in a]`, repeated until `v` is not in `a[l..r]`. -/
inductive Replaced (a b : List Int) (l r : Nat) : Int → Int → Prop
  | done {v : Int} (h : v ∉ segmentOf a l r) : Replaced a b l r v v
  | again {v w u : Int} {q : Nat} (h : v ∈ segmentOf a l r) (hq : a[q]? = some v)
      (hw : b[q]? = some w) (hrest : Replaced a b l r w u) : Replaced a b l r v u

/-- The repair loop's round without the write-back. -/
def pmxRepairPlain (n : Nat) (b : Gene) (i : Nat) (vars : PmxVars) : GeneExec PmxVars := do
  let value ← vecGet .perm b.perm i
  let seen ← vecGet .used vars.used value
  if seen then return vars
  else
    let (j, _) ← followPath vars.perm vars.toPos (n + 1) i []
    let perm ← vecSet .perm vars.perm j value
    let used ← vecSet .used vars.used value true
    return ⟨perm, used, vars.toPos⟩

def pmxPlainAt (a b : Gene) (l r : Nat) : GeneExec Gene := do
  let n := a.perm.length
  let revB ← reversePositions n b
  let toPos ← linkPositions n a revB
  let (perm, used) ← copySegment a l r (List.replicate n (-1)) (List.replicate n false)
  let vars ← forRange l (r + 1) ⟨perm, used, toPos⟩ (pmxRepairPlain n b)
  let perm ← fillRest n b vars.perm
  return ⟨perm, 0⟩

section tables
variable {n : Nat} {A B : Equiv.Perm (Fin n)} {l r : Nat}

theorem tableOf_getElem? (f : Fin n → Fin n) (i : Fin n) :
    (tableOf f)[i.val]? = some ((f i).val : Int) := by
  simp [tableOf]

theorem exists_of_tableOf {f : Fin n → Fin n} {p : Nat} {v : Int} (h : (tableOf f)[p]? = some v) :
    ∃ i : Fin n, i.val = p ∧ v = ((f i).val : Int) := by
  obtain ⟨hp, hv⟩ := List.getElem?_eq_some_iff.mp h
  have hn : p < n := by simpa [tableOf] using hp
  refine ⟨⟨p, hn⟩, rfl, ?_⟩
  rw [← hv]
  simp [tableOf]

theorem mem_segmentOf (hr : r < n) (v : Fin n) :
    (v.val : Int) ∈ segmentOf (tableOf A) l r ↔ InSegment l r (A.symm v) := by
  unfold segmentOf InSegment
  rw [List.mem_iff_getElem?]
  constructor
  · rintro ⟨m, hm⟩
    have hlt : m < r + 1 - l := by
      by_contra hge
      rw [List.getElem?_take_eq_none (by omega)] at hm
      cases hm
    have hn : l + m < n := by omega
    rw [List.getElem?_take_of_lt hlt, List.getElem?_drop, tableOf_getElem? A ⟨l + m, hn⟩] at hm
    have hv : A ⟨l + m, hn⟩ = v := Fin.ext (Int.ofNat_inj.mp (Option.some.inj hm))
    rw [← hv, A.symm_apply_apply]
    dsimp only
    omega
  · rintro ⟨hl, hle⟩
    refine ⟨(A.symm v).val - l, ?_⟩
    rw [List.getElem?_take_of_lt (by omega), List.getElem?_drop,
      show l + ((A.symm v).val - l) = (A.symm v).val by omega, tableOf_getElem?,
      A.apply_symm_apply]

/-- The textbook's replacement walks a displaced value's orbit back to its entry. -/
theorem replaced_of_exit (hr : r < n) {x y : Fin n} {m : Nat}
    (hx : OrbitExit.Entry (link A B) (InSegment l r) x)
    (hexit : OrbitExit.ExitAt (link A B) (InSegment l r) x m y) :
    Replaced (tableOf A) (tableOf B) l r ((B y).val : Int) ((B x).val : Int) := by
  have hwalk : ∀ i ≤ m, Replaced (tableOf A) (tableOf B) l r
      ((B ((link A B ^ i) x)).val : Int) ((B x).val : Int) := by
    intro i hi
    induction i with
    | zero =>
      apply Replaced.done
      rw [mem_segmentOf hr]
      exact (entry_link_iff.mp hx).2
    | succ i ih =>
      have hvalue : B ((link A B ^ (i + 1)) x) = A ((link A B ^ i) x) := by
        rw [OrbitExit.pow_succ_apply, link_apply, B.apply_symm_apply]
      rw [hvalue]
      refine .again ?_ (tableOf_getElem? A _) (tableOf_getElem? B _) (ih (by omega))
      rw [mem_segmentOf hr, A.symm_apply_apply]
      exact hexit.before i (by omega)
  rw [← hexit.step]
  exact hwalk m le_rfl

theorem IsPmxChild.unique {c c' : Fin n → Fin n} (h : IsPmxChild A B l r c)
    (h' : IsPmxChild A B l r c') : c = c' := by
  funext y
  by_cases hy : InSegment l r y
  · rw [h.copied y hy, h'.copied y hy]
  · by_cases hcopied : InSegment l r (A.symm (B y))
    · obtain ⟨x, m, hx, hexit⟩ := (exitAt_iff_value_copied hy).mpr hcopied
      rw [h.moved x m y hx hexit, h'.moved x m y hx hexit]
    · rw [h.kept y hy hcopied, h'.kept y hy hcopied]

theorem pmxRepairPlain_ends {k : Nat} {p u t} (h : PmxInv A B l r k p u t) (hlk : l ≤ k)
    (hkr : k ≤ r) (hk : k < n) (v : Int) :
    Returns (pmxRepairPlain n ⟨tableOf B, v⟩ k ⟨List.ofFn p, List.ofFn u, List.ofFn t⟩) fun vars =>
      ∃ p' u' t', vars = ⟨List.ofFn p', List.ofFn u', List.ofFn t'⟩ ∧
        PmxInv A B l r (k + 1) p' u' t' := by
  have hentry := h.entry_of_used hk hlk hkr
  simp only [pmxRepairPlain, tableOf, vecGet_ofFn_of_lt _ _ hk, bind, Except.bind, vecGet_ofFn]
  cases hseen : u (B ⟨k, hk⟩) with
  | true =>
    rw [hseen] at hentry
    exact ⟨p, u, t, rfl, h.skip hk fun hno => absurd (hentry.mp hno) (by decide)⟩
  | false =>
    obtain ⟨places, y, hpath, hkeep⟩ := h.path hk (hentry.mpr hseen)
    simp only [Bool.false_eq_true, if_false, hpath, vecSet_ofFn]
    exact ⟨_, _, t, rfl, hkeep t fun _ _ => rfl⟩

theorem pmxPlainAt_ends (A B : Equiv.Perm (Fin n)) {l r : Nat} (hlr : l ≤ r) (hr : r < n)
    (v w : Int) :
    Returns (pmxPlainAt ⟨tableOf A, v⟩ ⟨tableOf B, w⟩ l r) fun child =>
      ∃ c, child = ⟨tableOf c, 0⟩ ∧ IsPmxChild A B l r c := by
  have hlen : (tableOf A).length = n := by simp [tableOf]
  simp only [pmxPlainAt, hlen, reversePositions_tableOf, linkPositions_tableOf,
    copySegment_tableOf A l r v hlr hr, bind, Except.bind]
  refine Ends.bind (pmxLoop_ends hlr hr fun hinv hlk hkr hk => pmxRepairPlain_ends hinv hlk hkr hk w) ?_
  rintro _ ⟨p, u, t, rfl, hinv⟩
  refine Ends.bind (fillRest_child hinv w) ?_
  rintro _ ⟨c, rfl, hc⟩
  exact ⟨c, rfl, hc⟩

end tables

section textbook
variable {n : Nat} {a b : Gene} {l r : Nat}

/-- `PMX` returns the partially mapped crossover: `a` on the segment, elsewhere the
value of `b`, replaced through the mapping while it is one of the copied. Leaving
out the write-back to `to` gives the same child. -/
theorem pmxAt_textbook (ha : IsPerm n a.perm) (hb : IsPerm n b.perm) (hlr : l ≤ r) (hr : r < n) :
    ∃ child, pmxAt a b l r = .ok child ∧ pmxPlainAt a b l r = .ok child ∧
      child.perm.length = n ∧
      (∀ p, l ≤ p → p ≤ r → child.perm[p]? = a.perm[p]?) ∧
      ∀ p v, ¬ (l ≤ p ∧ p ≤ r) → b.perm[p]? = some v →
        (v ∉ segmentOf a.perm l r → child.perm[p]? = some v) ∧
        (v ∈ segmentOf a.perm l r →
          ∃ u, child.perm[p]? = some u ∧ Replaced a.perm b.perm l r v u) := by
  obtain ⟨A, hA⟩ := ha.exists_equiv
  obtain ⟨B, hB⟩ := hb.exists_equiv
  obtain ⟨perm, unfitness⟩ := a
  obtain ⟨perm', unfitness'⟩ := b
  dsimp only at hA hB
  subst hA hB
  obtain ⟨_, hrun, c, rfl, hc⟩ := returns_iff.mp (pmxAt_ends A B hlr hr unfitness unfitness')
  obtain ⟨_, hplain, c', rfl, hc'⟩ :=
    returns_iff.mp (pmxPlainAt_ends A B hlr hr unfitness unfitness')
  rw [← hc.unique hc'] at hplain
  refine ⟨_, hrun, hplain, List.length_ofFn, fun p hl hle => ?_, fun p v hout hv => ?_⟩
  · have hn : p < n := by omega
    have hcopied := hc.copied ⟨p, hn⟩ ⟨hl, hle⟩
    dsimp only
    rw [tableOf_getElem? c ⟨p, hn⟩, tableOf_getElem? A ⟨p, hn⟩, hcopied]
  · obtain ⟨i, rfl, rfl⟩ := exists_of_tableOf hv
    dsimp only
    rw [mem_segmentOf hr, tableOf_getElem? c]
    constructor
    · intro hcopied
      rw [hc.kept i hout hcopied]
    · intro hcopied
      obtain ⟨x, m, hx, hexit⟩ := (exitAt_iff_value_copied hout).mpr hcopied
      refine ⟨_, rfl, ?_⟩
      rw [hc.moved x m i hx hexit]
      exact replaced_of_exit hr hx hexit

theorem pmxAt_textbook_four :
    ∃ child, pmxAt ⟨[3, 1, 0, 2], 5⟩ ⟨[0, 1, 2, 3], 6⟩ 1 2 = .ok child ∧
      pmxPlainAt ⟨[3, 1, 0, 2], 5⟩ ⟨[0, 1, 2, 3], 6⟩ 1 2 = .ok child ∧ child.perm.length = 4 ∧
      (∀ p, 1 ≤ p → p ≤ 2 → child.perm[p]? = [(3 : Int), 1, 0, 2][p]?) ∧
      ∀ p v, ¬ (1 ≤ p ∧ p ≤ 2) → [(0 : Int), 1, 2, 3][p]? = some v →
        (v ∉ segmentOf [3, 1, 0, 2] 1 2 → child.perm[p]? = some v) ∧
        (v ∈ segmentOf [3, 1, 0, 2] 1 2 →
          ∃ u, child.perm[p]? = some u ∧ Replaced [3, 1, 0, 2] [0, 1, 2, 3] 1 2 v u) :=
  @pmxAt_textbook 4 ⟨[3, 1, 0, 2], 5⟩ ⟨[0, 1, 2, 3], 6⟩ 1 2 (by decide) (by decide) (by decide)
    (by decide)

theorem IsOx1Child.free_positions {A B : Equiv.Perm (Fin n)} {c : Fin n → Fin n}
    (h : IsOx1Child A B l r c) (hlr : l ≤ r) (hr : r < n) :
    (tableOf c).take l ++ (tableOf c).drop (r + 1) =
      (keptValues A B l r n).map fun v => (v.val : Int) := by
  have htotal : (keptValues A B l r n).length + (r + 1 - l) = n := keptValues_length hlr hr
  have hlength : (tableOf c).length = n := List.length_ofFn
  apply List.ext_getElem?
  intro m
  have hslot : ((tableOf c).take l ++ (tableOf c).drop (r + 1))[m]? =
      (tableOf c)[freeSlot l r m]? := by
    have htake : ((tableOf c).take l).length = l := List.length_take_of_le (by omega)
    unfold freeSlot
    by_cases hm : m < l
    · rw [if_pos hm, List.getElem?_append_left (by omega), List.getElem?_take_of_lt hm]
    · rw [if_neg hm, List.getElem?_append_right (by omega), htake, List.getElem?_drop]
      congr 1
      omega
  rw [hslot, List.getElem?_map]
  by_cases hm : freeSlot l r m < n
  · have hrefill := h.refill ⟨freeSlot l r m, hm⟩ (freeSlot_not_inSegment m hlr)
    rw [slotRank_freeSlot] at hrefill
    rw [tableOf_getElem? c ⟨freeSlot l r m, hm⟩, hrefill]
    rfl
  · rw [List.getElem?_eq_none (by omega), List.getElem?_eq_none]
    · rfl
    · unfold freeSlot at hm
      split at hm <;> omega

theorem keptValues_eq_filter {A B : Equiv.Perm (Fin n)} (hr : r < n) :
    ((keptValues A B l r n).map fun v => (v.val : Int)) =
      (tableOf B).filter fun v => v ∉ segmentOf (tableOf A) l r := by
  have htable : tableOf B = ((List.finRange n).map B).map fun v => (v.val : Int) := by
    rw [tableOf, List.ofFn_eq_map, List.map_map]
    rfl
  have htake : (List.finRange n).take n = List.finRange n :=
    List.take_of_length_le (Nat.le_of_eq List.length_finRange)
  rw [htable, List.filter_map, keptValues, htake]
  congr 1
  apply List.filter_congr
  intro v _
  rw [Function.comp_apply, decide_eq_decide, mem_segmentOf hr]

/-- `OX1` returns the order crossover: `a` on the segment, and outside it, in
increasing order, the values of `b` that are not copied, in their order in `b`.
At each write the index is a position outside the segment. -/
theorem ox1At_textbook (ha : IsPerm n a.perm) (hb : IsPerm n b.perm) (hlr : l ≤ r) (hr : r < n) :
    ∃ child, ox1At a b l r = .ok child ∧ child.perm.length = n ∧
      (∀ p, l ≤ p → p ≤ r → child.perm[p]? = a.perm[p]?) ∧
      child.perm.take l ++ child.perm.drop (r + 1) =
        b.perm.filter (fun v => v ∉ segmentOf a.perm l r) ∧
      ∃ perm used, copySegment a l r (List.replicate n (-1)) (List.replicate n false) =
          .ok (perm, used) ∧
        ∀ k v, b.perm[k]? = some v → v ∉ segmentOf a.perm l r →
          ∃ perm' j, ox1Refill k b l r perm used = .ok (perm', j) ∧
            ¬ (l ≤ (if j = l then r + 1 else j) ∧ (if j = l then r + 1 else j) ≤ r) ∧
            (if j = l then r + 1 else j) < n := by
  obtain ⟨A, hA⟩ := ha.exists_equiv
  obtain ⟨B, hB⟩ := hb.exists_equiv
  obtain ⟨perm, unfitness⟩ := a
  obtain ⟨perm', unfitness'⟩ := b
  dsimp only at hA hB
  subst hA hB
  obtain ⟨_, hrun, c, rfl, hc⟩ := returns_iff.mp (ox1At_ends A B hlr hr unfitness unfitness')
  refine ⟨_, hrun, List.length_ofFn, fun p hl hle => ?_, ?_, _, _,
    copySegment_tableOf A l r unfitness hlr hr, fun k v hv hkept => ?_⟩
  · have hn : p < n := by omega
    have hcopied := hc.copied ⟨p, hn⟩ ⟨hl, hle⟩
    dsimp only
    rw [tableOf_getElem? c ⟨p, hn⟩, tableOf_getElem? A ⟨p, hn⟩, hcopied]
  · rw [hc.free_positions hlr hr, keptValues_eq_filter hr]
  · obtain ⟨i, rfl, rfl⟩ := exists_of_tableOf hv
    rw [mem_segmentOf hr] at hkept
    refine ⟨_, _, ox1Refill_ends hlr hr unfitness' i.isLt.le, ?_⟩
    rw [refillIndex_skip hlr]
    exact ⟨freeSlot_not_inSegment _ hlr, keptValues_length_lt hlr hr i.isLt hkept⟩

theorem ox1At_textbook_four :
    ∃ child, ox1At ⟨[3, 1, 0, 2], 5⟩ ⟨[0, 1, 2, 3], 6⟩ 1 2 = .ok child ∧
      child.perm.length = 4 ∧
      (∀ p, 1 ≤ p → p ≤ 2 → child.perm[p]? = [(3 : Int), 1, 0, 2][p]?) ∧
      child.perm.take 1 ++ child.perm.drop (2 + 1) =
        [(0 : Int), 1, 2, 3].filter (fun v => v ∉ segmentOf [3, 1, 0, 2] 1 2) ∧
      ∃ perm used, copySegment ⟨[3, 1, 0, 2], 5⟩ 1 2 (List.replicate 4 (-1))
          (List.replicate 4 false) = .ok (perm, used) ∧
        ∀ k v, [(0 : Int), 1, 2, 3][k]? = some v → v ∉ segmentOf [3, 1, 0, 2] 1 2 →
          ∃ perm' j, ox1Refill k ⟨[0, 1, 2, 3], 6⟩ 1 2 perm used = .ok (perm', j) ∧
            ¬ (1 ≤ (if j = 1 then 2 + 1 else j) ∧ (if j = 1 then 2 + 1 else j) ≤ 2) ∧
            (if j = 1 then 2 + 1 else j) < 4 :=
  @ox1At_textbook 4 ⟨[3, 1, 0, 2], 5⟩ ⟨[0, 1, 2, 3], 6⟩ 1 2 (by decide) (by decide) (by decide)
    (by decide)

end textbook

end TonCompress.Evolve
