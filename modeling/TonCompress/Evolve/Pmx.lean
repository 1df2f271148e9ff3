import TonCompress.Evolve.Perm
import TonCompress.Lib.OrbitExit

/-! The partially mapped crossover. Positions are linked by `to`, the
permutation taking position `i` to the place of `a.perm[i]` in `b`. A position
of the segment whose `b`-value is not among the copied values is an entry of the
segment for `to`; the repair loop writes that value where the orbit leaves the
segment. -/
namespace TonCompress.Evolve
open TonCompress.Lib OrbitExit

variable {n : Nat} (A B : Equiv.Perm (Fin n)) (l r : Nat)

def InSegment (l r : Nat) (i : Fin n) : Prop := l ≤ i.val ∧ i.val ≤ r

instance (i : Fin n) : Decidable (InSegment l r i) := inferInstanceAs (Decidable (_ ∧ _))

/-- `to` as a permutation. -/
abbrev link : Equiv.Perm (Fin n) := B⁻¹ * A

theorem link_apply (i : Fin n) : link A B i = B.symm (A i) := rfl

theorem link_inv_apply (i : Fin n) : (link A B)⁻¹ i = A.symm (B i) := by
  rw [mul_inv_rev, inv_inv]
  rfl

theorem reversePositions_tableOf (u : Int) :
    reversePositions n ⟨tableOf B, u⟩ = .ok (tableOf B.symm) := by
  have hrun : Returns (reversePositions n ⟨tableOf B, u⟩)
      (· = List.ofFn fun v : Fin n => if (B.symm v).val < n then ((B.symm v).val : Int) else 0) := by
    refine forRange_ends (fun k s =>
      s = List.ofFn fun v : Fin n => if (B.symm v).val < k then ((B.symm v).val : Int) else 0)
      (Nat.zero_le n) (by simp) ?_
    rintro k s - hk rfl
    simp only [tableOf, vecGet_ofFn_of_lt _ _ hk, bind, Except.bind, vecSet_ofFn, ends_ok]
    refine congrArg List.ofFn (update_ite (fun v => ?_) (by simp))
    rw [← B.symm_apply_eq, Fin.ext_iff]
    exact Nat.lt_succ_iff_lt_or_eq
  rw [returns_eq_iff.mp hrun]
  simp [tableOf]

theorem linkPositions_tableOf (u : Int) :
    linkPositions n ⟨tableOf A, u⟩ (tableOf B.symm) = .ok (tableOf (link A B)) := by
  have hrun : Returns (linkPositions n ⟨tableOf A, u⟩ (tableOf B.symm))
      (· = List.ofFn fun i : Fin n => if i.val < n then ((link A B i).val : Int) else 0) := by
    refine forRange_ends (fun k s =>
      s = List.ofFn fun i : Fin n => if i.val < k then ((link A B i).val : Int) else 0)
      (Nat.zero_le n) (by simp) ?_
    rintro k s - hk rfl
    simp only [tableOf, vecGet_ofFn_of_lt _ _ hk, bind, Except.bind, vecGet_ofFn,
      vecSet_ofFn_of_lt _ _ hk, ends_ok]
    refine congrArg List.ofFn (update_ite (fun i => ?_) rfl)
    rw [Fin.ext_iff]
    exact Nat.lt_succ_iff_lt_or_eq
  rw [returns_eq_iff.mp hrun]
  simp [tableOf]

def segmentPerm (i : Fin n) : Int := if InSegment l r i then ((A i).val : Int) else -1

def segmentUsed (v : Fin n) : Bool := if InSegment l r (A.symm v) then true else false

theorem copySegment_tableOf (u : Int) (hlr : l ≤ r) (hr : r < n) :
    copySegment ⟨tableOf A, u⟩ l r (List.replicate n (-1)) (List.replicate n false) =
      .ok (List.ofFn (segmentPerm A l r), List.ofFn (segmentUsed A l r)) := by
  let done (k : Nat) (i : Fin n) : Prop := l ≤ i.val ∧ i.val < k
  have : ∀ k i, Decidable (done k i) := fun k i => inferInstanceAs (Decidable (_ ∧ _))
  have hsucc : ∀ k (hk : k < n), l ≤ k → ∀ i, done (k + 1) i ↔ done k i ∨ i = ⟨k, hk⟩ := by
    intro k hk hlk i
    rw [Fin.ext_iff]
    simp only [done]
    omega
  have hrun : Returns
      (copySegment ⟨tableOf A, u⟩ l r (List.replicate n (-1)) (List.replicate n false))
      (· = (List.ofFn fun i => if done (r + 1) i then ((A i).val : Int) else -1,
        List.ofFn fun v => if done (r + 1) (A.symm v) then true else false)) := by
    refine forRange_ends (fun k s =>
      s = (List.ofFn fun i => if done k i then ((A i).val : Int) else -1,
        List.ofFn fun v => if done k (A.symm v) then true else false)) (by omega) ?_ ?_
    · have hno : ∀ i, ¬ done l i := fun i h => by simp only [done] at h; omega
      simp [hno]
    · rintro k s hlk hk rfl
      have hkn : k < n := by omega
      simp only [tableOf, vecGet_ofFn_of_lt _ _ hkn, bind, Except.bind, vecSet_ofFn,
        vecSet_ofFn_of_lt _ _ hkn, pure, Except.pure, ends_ok, Prod.mk.injEq]
      refine ⟨congrArg List.ofFn (update_ite (hsucc k hkn hlk) rfl),
        congrArg List.ofFn (update_ite (fun v => ?_) rfl)⟩
      rw [hsucc k hkn hlk, A.symm_apply_eq]
  have hdone : ∀ i, done (r + 1) i ↔ InSegment l r i := fun i => by
    simp only [done, InSegment]
    omega
  rw [returns_eq_iff.mp hrun]
  simp only [hdone]
  rfl

/-- Following `to` from an entry: while the positions are filled and their links
unchanged, the loop walks the orbit and stops at the first free position. -/
theorem followPath_orbit {p t : Fin n → Int} {τ : Equiv.Perm (Fin n)} {x y : Fin n} {m : Nat}
    (hy : (τ ^ m) x = y) (hfree : p y = -1) (hfilled : ∀ i < m, -1 < p ((τ ^ i) x))
    (hlinks : ∀ i < m, t ((τ ^ i) x) = ((τ ((τ ^ i) x)).val : Int)) (d : Nat) :
    ∀ j fuel path, j + d = m → d < fuel →
      followPath (List.ofFn p) (List.ofFn t) fuel (((τ ^ j) x).val : Int) path =
        .ok ((y.val : Int), path ++ (List.range' j d).map fun i => (((τ ^ i) x).val : Int)) := by
  induction d with
  | zero =>
    intro j fuel path hj hfuel
    obtain ⟨fuel, rfl⟩ : ∃ f, fuel = f + 1 := ⟨fuel - 1, by omega⟩
    obtain rfl : j = m := by omega
    simp [followPath, bind, Except.bind, hy, hfree, pure, Except.pure]
  | succ d ih =>
    intro j fuel path hj hfuel
    obtain ⟨fuel, rfl⟩ : ∃ f, fuel = f + 1 := ⟨fuel - 1, by omega⟩
    have hnext := ih (j + 1) fuel (path ++ [(((τ ^ j) x).val : Int)]) (by omega) (by omega)
    rw [pow_succ_apply] at hnext
    simp only [followPath, bind, Except.bind, vecGet_ofFn, hlinks j (by omega),
      if_pos (hfilled j (by omega)), hnext]
    simp [List.range'_succ]

theorem forEach_vecSet (site : GeneSite) (places : List (Fin n)) (t : Fin n → Int) (value : Int) :
    Returns (forEach (places.map fun i => (i.val : Int)) (List.ofFn t)
        fun x toPos => vecSet site toPos x value)
      fun s => ∃ t', s = List.ofFn t' ∧ ∀ i, i ∉ places → t' i = t i := by
  induction places generalizing t with
  | nil => exact ⟨t, rfl, fun _ _ => rfl⟩
  | cons place places ih =>
    simp only [List.map_cons, forEach_cons, vecSet_ofFn, bind, Except.bind]
    refine (ih (Function.update t place value)).mono ?_ fun _ => id
    rintro s ⟨t', rfl, ht'⟩
    refine ⟨t', rfl, fun i hi => ?_⟩
    rw [List.mem_cons, not_or] at hi
    rw [ht' i hi.2, Function.update_of_ne hi.1]

/-- The state of the repair loop before position `k`: the values of the entries
below `k` are written where their orbits leave the segment, and only links on
those orbits have changed. -/
structure PmxInv (k : Nat) (p : Fin n → Int) (u : Fin n → Bool) (t : Fin n → Int) : Prop where
  copied : ∀ i, InSegment l r i → p i = ((A i).val : Int)
  moved : ∀ x m y, x.val < k → Entry (link A B) (InSegment l r) x →
    ExitAt (link A B) (InSegment l r) x m y → p y = ((B x).val : Int)
  free : ∀ y, ¬ InSegment l r y → (∀ x m, x.val < k → Entry (link A B) (InSegment l r) x →
    ¬ ExitAt (link A B) (InSegment l r) x m y) → p y = -1
  used : ∀ v, u v = true ↔ InSegment l r (A.symm v) ∨
    ((B.symm v).val < k ∧ Entry (link A B) (InSegment l r) (B.symm v))
  links : ∀ z, (∀ x m y i, x.val < k → Entry (link A B) (InSegment l r) x →
    ExitAt (link A B) (InSegment l r) x m y → i < m → z ≠ (link A B ^ i) x) →
    t z = ((link A B z).val : Int)

variable {A B l r}

theorem entry_link_iff {i : Fin n} : Entry (link A B) (InSegment l r) i ↔
    InSegment l r i ∧ ¬ InSegment l r (A.symm (B i)) := by
  rw [← link_inv_apply]
  exact ⟨fun h => ⟨h.mem, h.pred_not_mem⟩, fun h => ⟨h.1, h.2⟩⟩

theorem pmxInv_init : PmxInv A B l r l (segmentPerm A l r) (segmentUsed A l r)
    fun i => ((link A B i).val : Int) where
  copied i hi := by simp [segmentPerm, hi]
  moved x m y hx hentry := absurd hentry.mem (by simp only [InSegment]; omega)
  free y hy _ := by simp [segmentPerm, hy]
  used v := by
    have hno : ¬ ((B.symm v).val < l ∧ Entry (link A B) (InSegment l r) (B.symm v)) :=
      fun h => absurd h.2.mem (by simp only [InSegment]; omega)
    simp [segmentUsed, hno]
  links _ _ := rfl

theorem PmxInv.skip {k : Nat} {p u t} (h : PmxInv A B l r k p u t) (hk : k < n)
    (hno : ¬ Entry (link A B) (InSegment l r) ⟨k, hk⟩) : PmxInv A B l r (k + 1) p u t := by
  have hlt : ∀ x : Fin n, x.val < k + 1 → Entry (link A B) (InSegment l r) x → x.val < k := by
    intro x hx hentry
    by_contra hge
    have hxk : x = ⟨k, hk⟩ := Fin.ext (by simp only; omega)
    exact hno (hxk ▸ hentry)
  refine ⟨h.copied, fun x m y hx he => h.moved x m y (hlt x hx he) he, fun y hy hfree => ?_,
    fun v => ?_, fun z hz => ?_⟩
  · exact h.free y hy fun x m hx => hfree x m (by omega)
  · rw [h.used v]
    constructor
    · rintro (hv | ⟨hv, he⟩)
      · exact .inl hv
      · exact .inr ⟨by omega, he⟩
    · rintro (hv | ⟨hv, he⟩)
      · exact .inl hv
      · exact .inr ⟨hlt _ hv he, he⟩
  · exact h.links z fun x m y i hx => hz x m y i (by omega)

theorem PmxInv.walk {k : Nat} {p u t} (h : PmxInv A B l r k p u t) (hk : k < n)
    (hentry : Entry (link A B) (InSegment l r) ⟨k, hk⟩) {m : Nat} {y : Fin n}
    (hexit : ExitAt (link A B) (InSegment l r) ⟨k, hk⟩ m y) :
    p y = -1 ∧ (∀ i < m, -1 < p ((link A B ^ i) ⟨k, hk⟩)) ∧
      ∀ i < m, t ((link A B ^ i) ⟨k, hk⟩) =
        ((link A B ((link A B ^ i) ⟨k, hk⟩)).val : Int) := by
  refine ⟨h.free y hexit.not_mem fun x m' hx hx' hexit' => ?_, fun i hi => ?_, fun i hi => ?_⟩
  · have := hexit'.entry_unique hx' hentry hexit
    simp [this] at hx
  · rw [h.copied _ (hexit.before i hi)]
    omega
  · refine h.links _ fun x m' y' i' hx hx' hexit' hi' heq => ?_
    have := hentry.disjoint hx' hexit.before hexit'.before hi hi' heq
    simp [← this] at hx

theorem PmxInv.repair {k : Nat} {p u t} (h : PmxInv A B l r k p u t) (hk : k < n)
    (hentry : Entry (link A B) (InSegment l r) ⟨k, hk⟩) {m : Nat} {y : Fin n}
    (hexit : ExitAt (link A B) (InSegment l r) ⟨k, hk⟩ m y) {t' : Fin n → Int}
    (ht' : ∀ z, (∀ i < m, z ≠ (link A B ^ i) ⟨k, hk⟩) → t' z = t z) :
    PmxInv A B l r (k + 1) (Function.update p y ((B ⟨k, hk⟩).val : Int))
      (Function.update u (B ⟨k, hk⟩) true) t' := by
  have hlt : ∀ x : Fin n, x.val < k + 1 → x.val < k ∨ x = ⟨k, hk⟩ := fun x hx => by
    rw [Fin.ext_iff]
    simp only
    omega
  refine ⟨fun i hi => ?_, fun x m' y' hx he hexit' => ?_, fun z hz hfree => ?_, fun v => ?_,
    fun z hz => ?_⟩
  · rw [Function.update_of_ne (by rintro rfl; exact hexit.not_mem hi)]
    exact h.copied i hi
  · rcases hlt x hx with hx | rfl
    · have hne : y' ≠ y := fun heq => by
        have := hexit'.entry_unique he hentry (heq ▸ hexit)
        simp [this] at hx
      rw [Function.update_of_ne hne]
      exact h.moved x m' y' hx he hexit'
    · rw [(hexit'.unique hexit).2]
      simp
  · have hne : z ≠ y := fun heq => hfree ⟨k, hk⟩ m (by simp) hentry (heq ▸ hexit)
    rw [Function.update_of_ne hne]
    exact h.free z hz fun x m' hx => hfree x m' (by omega)
  · by_cases hv : v = B ⟨k, hk⟩
    · subst hv
      simp [hentry]
    · rw [Function.update_of_ne hv, h.used v]
      have hne : (B.symm v).val ≠ k := fun heq => hv (by
        rw [← B.symm_apply_eq]
        exact Fin.ext heq)
      simp only [show (B.symm v).val < k + 1 ↔ (B.symm v).val < k by omega]
  · rw [ht' z fun i hi => hz ⟨k, hk⟩ m y i (by simp) hentry hexit hi]
    exact h.links z fun x m' y' i hx => hz x m' y' i (by omega)

theorem PmxInv.path {k : Nat} {p u t} (h : PmxInv A B l r k p u t) (hk : k < n)
    (hentry : Entry (link A B) (InSegment l r) ⟨k, hk⟩) :
    ∃ (places : List (Fin n)) (y : Fin n),
      followPath (List.ofFn p) (List.ofFn t) (n + 1) (k : Int) [] =
        .ok ((y.val : Int), places.map fun i => (i.val : Int)) ∧
      ∀ t' : Fin n → Int, (∀ z, z ∉ places → t' z = t z) →
        PmxInv A B l r (k + 1) (Function.update p y ((B ⟨k, hk⟩).val : Int))
          (Function.update u (B ⟨k, hk⟩) true) t' := by
  obtain ⟨m, y, hexit⟩ := exists_exitAt hentry
  obtain ⟨hfree, hfilled, hlinks⟩ := h.walk hk hentry hexit
  have hm : m ≤ n := by simpa using hexit.le_card hentry
  have hpath := followPath_orbit hexit.step hfree hfilled hlinks m 0 (n + 1) [] (by omega)
    (by omega)
  simp only [pow_zero, Equiv.Perm.one_apply, List.nil_append] at hpath
  refine ⟨(List.range' 0 m).map fun i => (link A B ^ i) ⟨k, hk⟩, y, ?_, fun t' ht' => ?_⟩
  · rw [hpath, List.map_map]
    rfl
  · apply h.repair hk hentry hexit
    intro z hz
    apply ht'
    intro hmem
    obtain ⟨i, hi, rfl⟩ := List.mem_map.mp hmem
    exact hz i (by simpa using hi) rfl

theorem PmxInv.entry_of_used {k : Nat} {p u t} (h : PmxInv A B l r k p u t) (hk : k < n)
    (hlk : l ≤ k) (hkr : k ≤ r) :
    Entry (link A B) (InSegment l r) ⟨k, hk⟩ ↔ u (B ⟨k, hk⟩) = false := by
  have hseg : InSegment l r (⟨k, hk⟩ : Fin n) := ⟨hlk, hkr⟩
  rw [entry_link_iff, ← Bool.not_eq_true, h.used, B.symm_apply_apply]
  simp [hseg]

theorem pmxRepair_ends {k : Nat} {p u t} (h : PmxInv A B l r k p u t) (hlk : l ≤ k)
    (hkr : k ≤ r) (hk : k < n) (v : Int) :
    Returns (pmxRepair n ⟨tableOf B, v⟩ k ⟨List.ofFn p, List.ofFn u, List.ofFn t⟩) fun vars =>
      ∃ p' u' t', vars = ⟨List.ofFn p', List.ofFn u', List.ofFn t'⟩ ∧
        PmxInv A B l r (k + 1) p' u' t' := by
  have hentry := h.entry_of_used hk hlk hkr
  simp only [pmxRepair, tableOf, vecGet_ofFn_of_lt _ _ hk, bind, Except.bind, vecGet_ofFn]
  cases hseen : u (B ⟨k, hk⟩) with
  | true =>
    rw [hseen] at hentry
    exact ⟨p, u, t, rfl, h.skip hk fun hno => absurd (hentry.mp hno) (by decide)⟩
  | false =>
    obtain ⟨places, y, hpath, hkeep⟩ := h.path hk (hentry.mpr hseen)
    simp only [Bool.false_eq_true, if_false, hpath, vecSet_ofFn]
    refine Ends.bind (forEach_vecSet GeneSite.toPos places t (y.val : Int)) ?_
    rintro _ ⟨t', rfl, ht'⟩
    exact ⟨_, _, t', rfl, hkeep t' ht'⟩

/-- What `PMX` computes, as a property of the child: the segment of `a`, the
displaced values of `b` where their orbits leave the segment, and `b`
elsewhere. -/
structure IsPmxChild (A B : Equiv.Perm (Fin n)) (l r : Nat) (c : Fin n → Fin n) : Prop where
  copied : ∀ i, InSegment l r i → c i = A i
  moved : ∀ x m y, Entry (link A B) (InSegment l r) x →
    ExitAt (link A B) (InSegment l r) x m y → c y = B x
  kept : ∀ y, ¬ InSegment l r y → ¬ InSegment l r (A.symm (B y)) → c y = B y

/-- A position outside the segment is where some orbit leaves it exactly when
its `b`-value is among the copied ones. -/
theorem exitAt_iff_value_copied {y : Fin n} (hy : ¬ InSegment l r y) :
    (∃ x m, Entry (link A B) (InSegment l r) x ∧ ExitAt (link A B) (InSegment l r) x m y) ↔
      InSegment l r (A.symm (B y)) := by
  rw [← link_inv_apply]
  constructor
  · rintro ⟨x, m, hx, hexit⟩
    cases m with
    | zero => exact absurd hx.mem (by simpa [← hexit.step] using hy)
    | succ m =>
      rw [← hexit.step, inv_pow_succ_apply]
      exact hexit.before m (Nat.lt_succ_self m)
  · intro hpred
    exact exists_entry_of_pred_mem hy hpred

theorem IsPmxChild.injective {c : Fin n → Fin n} (h : IsPmxChild A B l r c) :
    Function.Injective c := by
  refine Finite.injective_iff_surjective.mpr fun v => ?_
  by_cases hv : InSegment l r (A.symm v)
  · exact ⟨A.symm v, by rw [h.copied _ hv, A.apply_symm_apply]⟩
  have hpred : ¬ InSegment l r (A.symm (B (B.symm v))) := by rwa [B.apply_symm_apply]
  by_cases hi : InSegment l r (B.symm v)
  · have hentry := entry_link_iff.mpr ⟨hi, hpred⟩
    obtain ⟨m, y, hexit⟩ := exists_exitAt hentry
    exact ⟨y, by rw [h.moved _ m y hentry hexit, B.apply_symm_apply]⟩
  · exact ⟨B.symm v, by rw [h.kept _ hi hpred, B.apply_symm_apply]⟩

theorem fillRest_ofFn (v : Int) (p : Fin n → Int) :
    fillRest n ⟨tableOf B, v⟩ (List.ofFn p) =
      .ok (List.ofFn fun i => if p i = -1 then ((B i).val : Int) else p i) := by
  have hrun : Returns (fillRest n ⟨tableOf B, v⟩ (List.ofFn p))
      (· = List.ofFn fun i => if i.val < n then
        (if p i = -1 then ((B i).val : Int) else p i) else p i) := by
    refine forRange_ends (fun k s => s = List.ofFn fun i => if i.val < k then
      (if p i = -1 then ((B i).val : Int) else p i) else p i) (Nat.zero_le n) (by simp) ?_
    rintro k s - hk rfl
    simp only [tableOf, vecGet_ofFn_of_lt _ _ hk, bind, Except.bind, lt_irrefl, if_false]
    have hsucc : ∀ i : Fin n, i.val < k + 1 ↔ i.val < k ∨ i = ⟨k, hk⟩ := fun i => by
      rw [Fin.ext_iff]
      exact Nat.lt_succ_iff_lt_or_eq
    by_cases hp : p ⟨k, hk⟩ = -1
    · simp only [hp, if_true, vecSet_ofFn_of_lt _ _ hk, ends_ok]
      exact congrArg List.ofFn (update_ite hsucc (by simp [hp]))
    · simp only [hp, if_false, pure, Except.pure, ends_ok]
      refine congrArg List.ofFn (funext fun i => ?_)
      by_cases hi : i = ⟨k, hk⟩
      · subst hi
        simp [hp]
      · simp only [hsucc, hi, or_false]
  rw [returns_eq_iff.mp hrun]
  simp

theorem fillRest_child {p u t} (hinv : PmxInv A B l r (r + 1) p u t) (w : Int) :
    Returns (fillRest n ⟨tableOf B, w⟩ (List.ofFn p)) fun perm =>
      ∃ c, perm = tableOf c ∧ IsPmxChild A B l r c := by
  rw [fillRest_ofFn]
  have hlt : ∀ x, Entry (link A B) (InSegment l r) x → x.val < r + 1 := fun x hx =>
    Nat.lt_succ_of_le hx.mem.2
  -- the filled places hold numbers below `n`, so the child is a table
  have hvalue : ∀ i, ∃ c : Fin n, (if p i = -1 then ((B i).val : Int) else p i) = (c.val : Int) ∧
      (InSegment l r i → c = A i) ∧
      (∀ x m, Entry (link A B) (InSegment l r) x →
        ExitAt (link A B) (InSegment l r) x m i → c = B x) ∧
      (¬ InSegment l r i → ¬ InSegment l r (A.symm (B i)) → c = B i) := by
    intro i
    by_cases hi : InSegment l r i
    · refine ⟨A i, ?_, fun _ => rfl, fun x m _ hexit => absurd hi hexit.not_mem,
        fun h => absurd hi h⟩
      rw [hinv.copied i hi, if_neg (by omega)]
    by_cases hcopied : InSegment l r (A.symm (B i))
    · obtain ⟨x, m, hx, hexit⟩ := (exitAt_iff_value_copied hi).mpr hcopied
      refine ⟨B x, ?_, fun h => absurd h hi, fun x' m' hx' hexit' => ?_,
        fun _ h => absurd hcopied h⟩
      · rw [hinv.moved x m i (hlt x hx) hx hexit, if_neg (by omega)]
      · rw [hexit'.entry_unique hx' hx hexit]
    · have hnone : ∀ x m, Entry (link A B) (InSegment l r) x →
          ¬ ExitAt (link A B) (InSegment l r) x m i := fun x m hx hexit =>
        hcopied ((exitAt_iff_value_copied hi).mp ⟨x, m, hx, hexit⟩)
      refine ⟨B i, ?_, fun h => absurd h hi, fun x m hx hexit => absurd hexit (hnone x m hx),
        fun _ _ => rfl⟩
      rw [hinv.free i hi fun x m _ hx => hnone x m hx, if_pos rfl]
  choose c hc using hvalue
  refine ⟨c, ?_, fun i => (hc i).2.1, fun x m y => (hc y).2.2.1 x m, fun y => (hc y).2.2.2⟩
  simp only [tableOf, fun i => (hc i).1]

theorem pmxLoop_ends (hlr : l ≤ r) (hr : r < n) {repair : Nat → PmxVars → GeneExec PmxVars}
    (hrepair : ∀ {k p u t}, PmxInv A B l r k p u t → l ≤ k → k ≤ r → k < n →
      Returns (repair k ⟨List.ofFn p, List.ofFn u, List.ofFn t⟩) fun vars =>
        ∃ p' u' t', vars = ⟨List.ofFn p', List.ofFn u', List.ofFn t'⟩ ∧
          PmxInv A B l r (k + 1) p' u' t') :
    Returns (forRange l (r + 1)
      ⟨List.ofFn (segmentPerm A l r), List.ofFn (segmentUsed A l r), tableOf (link A B)⟩ repair)
      fun vars => ∃ p u t, vars = ⟨List.ofFn p, List.ofFn u, List.ofFn t⟩ ∧
        PmxInv A B l r (r + 1) p u t := by
  refine forRange_ends (fun k (vars : PmxVars) =>
    ∃ p u t, vars = ⟨List.ofFn p, List.ofFn u, List.ofFn t⟩ ∧ PmxInv A B l r k p u t)
    (by omega) ⟨segmentPerm A l r, segmentUsed A l r, _, rfl, pmxInv_init⟩ ?_
  rintro k vars hlk hkr ⟨p, u, t, rfl, hinv⟩
  exact hrepair hinv hlk (by omega) (by omega)

theorem pmxAt_ends (A B : Equiv.Perm (Fin n)) {l r : Nat} (hlr : l ≤ r) (hr : r < n)
    (v w : Int) :
    Returns (pmxAt ⟨tableOf A, v⟩ ⟨tableOf B, w⟩ l r) fun child =>
      ∃ c, child = ⟨tableOf c, 0⟩ ∧ IsPmxChild A B l r c := by
  have hlen : (tableOf A).length = n := by simp [tableOf]
  simp only [pmxAt, hlen, reversePositions_tableOf, linkPositions_tableOf,
    copySegment_tableOf A l r v hlr hr, bind, Except.bind]
  refine Ends.bind (pmxLoop_ends hlr hr fun hinv hlk hkr hk => pmxRepair_ends hinv hlk hkr hk w) ?_
  rintro _ ⟨p, u, t, rfl, hinv⟩
  refine Ends.bind (fillRest_child hinv w) ?_
  rintro _ ⟨c, rfl, hc⟩
  exact ⟨c, rfl, hc⟩

end TonCompress.Evolve
