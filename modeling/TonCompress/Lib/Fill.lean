import TonCompress.Lib.Exec
import Mathlib.Data.Set.Lattice

/-! Loops that fill a buffer. Each write stores what the result is to hold at its place,
so that the places may be visited in any order, and more than once. -/
namespace TonCompress.Lib

/-- `for (i = lo; i + (step - 1) < hi; i += step) body(i)`, threading the loop's variables. -/
def forStep {m : Type → Type} [Monad m] {σ : Type} (step lo hi : Nat) (state : σ)
    (body : Nat → σ → m σ) : m σ :=
  forRange 0 ((hi - lo) / step) state fun k => body (lo + k * step)

theorem forRange_iterate {ε σ τ : Type} (next : τ → τ) (body : Nat → τ → σ → Except ε σ) (x : τ)
    {lo hi : Nat} (hle : lo ≤ hi) (state : σ) :
    (forRange lo hi (state, next^[lo] x) fun i vars => body i vars.2 vars.1 >>= fun state =>
        pure (state, next vars.2)) >>= (fun last => (pure last.1 : Except ε σ)) =
      forRange lo hi state fun i => body i (next^[i] x) := by
  induction hrounds : hi - lo generalizing lo state with
  | zero =>
    obtain rfl : lo = hi := by omega
    rw [forRange_self, forRange_self]
    rfl
  | succ rounds ih =>
    rw [forRange_succ_left (by omega), forRange_succ_left (by omega), bind_assoc, bind_assoc]
    refine bind_congr fun state => ?_
    rw [pure_bind, ← ih (by omega) state (by omega), Function.iterate_succ_apply']

def filled {α : Type} (n : Nat) (target : Nat → α) (out : List α) : List α :=
  (List.range n).map target ++ out.drop n

/-- `out'` is `out` after some of the first `n` places have got the target. -/
structure Overwrites {α : Type} (n : Nat) (target : Nat → α) (out out' : List α) : Prop where
  length_eq : out'.length = out.length
  kept : ∀ i, out'[i]? = out[i]? ∨ (i < n ∧ out'[i]? = some (target i))

structure Stored {α : Type} (target : Nat → α) (places : Set Nat) (out out' : List α) : Prop where
  length_eq : out'.length = out.length
  stored : ∀ i ∈ places, out'[i]? = some (target i)
  kept : ∀ i ∉ places, out'[i]? = out[i]?

/-- In any buffer of at least `n` elements, `run` stores `target` at `places`, and nothing
but `target` anywhere. -/
def Fills {ε α : Type} (n : Nat) (target : Nat → α) (places : Set Nat)
    (run : List α → Except ε (List α)) : Prop :=
  ∀ out, n ≤ out.length → Returns (run out) fun out' => Overwrites n target out out' ∧
    ∀ i ∈ places, out'[i]? = some (target i)

section fills
variable {ε α : Type} {n : Nat} {target : Nat → α} {places places' : Set Nat}
variable {run next : List α → Except ε (List α)} {out out' out'' : List α}

theorem Overwrites.refl (out : List α) : Overwrites n target out out :=
  ⟨rfl, fun _ => .inl rfl⟩

theorem Overwrites.trans (h : Overwrites n target out out') (h' : Overwrites n target out' out'') :
    Overwrites n target out out'' := by
  refine ⟨h'.length_eq.trans h.length_eq, fun i => ?_⟩
  rcases h'.kept i with hsame | hwritten
  · rw [hsame]
    exact h.kept i
  · exact .inr hwritten

theorem Overwrites.stays (h : Overwrites n target out out') {i : Nat}
    (hi : out[i]? = some (target i)) : out'[i]? = some (target i) := by
  rcases h.kept i with hsame | ⟨-, hwritten⟩
  · rw [hsame, hi]
  · exact hwritten

theorem Stored.unique (h : Stored target places out out') (h' : Stored target places out out'') :
    out' = out'' := by
  apply List.ext_getElem?
  intro i
  by_cases hi : i ∈ places
  · rw [h.stored i hi, h'.stored i hi]
  · rw [h.kept i hi, h'.kept i hi]

theorem stored_none (out : List α) : Stored target ∅ out out :=
  ⟨rfl, nofun, fun _ _ => rfl⟩

theorem Stored.trans (h : Stored target places out out') (h' : Stored target places' out' out'') :
    Stored target (places ∪ places') out out'' := by
  refine ⟨h'.length_eq.trans h.length_eq, fun i hi => ?_, fun i hi => ?_⟩
  · by_cases hlater : i ∈ places'
    · exact h'.stored i hlater
    · rw [h'.kept i hlater]
      exact h.stored i (hi.resolve_right hlater)
  · rw [h'.kept i fun hlater => hi (.inr hlater)]
    exact h.kept i fun hfirst => hi (.inl hfirst)

theorem Stored.overwrites (h : Stored target places out out') (hplaces : ∀ i ∈ places, i < n) :
    Overwrites n target out out' := by
  refine ⟨h.length_eq, fun i => ?_⟩
  by_cases hi : i ∈ places
  · exact .inr ⟨hplaces i hi, h.stored i hi⟩
  · exact .inl (h.kept i hi)

theorem fills_ok : Fills n target ∅ (.ok : List α → Except ε (List α)) :=
  fun out _ => ⟨.refl out, nofun⟩

theorem Fills.mono (h : Fills n target places run) (hsub : places' ⊆ places) :
    Fills n target places' run :=
  fun out hout => (h out hout).mono (fun _ hout' => ⟨hout'.1, fun i hi => hout'.2 i (hsub hi)⟩)
    fun _ => id

theorem Fills.bind (h : Fills n target places run) (h' : Fills n target places' next) :
    Fills n target (places ∪ places') fun out => run out >>= next := by
  intro out hout
  refine (h out hout).bind fun mid hmid => ?_
  refine (h' mid (hmid.1.length_eq.symm ▸ hout)).mono (fun out' hout' => ?_) fun _ => id
  refine ⟨hmid.1.trans hout'.1, fun i hi => ?_⟩
  rcases hi with hfirst | hlater
  · exact hout'.1.stays (hmid.2 i hfirst)
  · exact hout'.2 i hlater

theorem fills_vecSet {Site : Type} (site : Site) {i : Nat} {value : α} (hi : i < n)
    (hvalue : value = target i) :
    Fills n target {i} fun out => vecSet site out (i : Int) value := by
  intro out hout
  have hlt := Nat.lt_of_lt_of_le hi hout
  dsimp only
  rw [vecSet_natCast site out i value hlt]
  have hself : (out.set i value)[i]? = some (target i) := by
    rw [List.getElem?_set_self hlt, hvalue]
  refine ⟨⟨List.length_set, fun j => ?_⟩, fun j hj => ?_⟩
  · by_cases hij : i = j
    · subst hij
      exact .inr ⟨hi, hself⟩
    · exact .inl (List.getElem?_set_ne hij)
  · obtain rfl : j = i := hj
    exact hself

/-- A loop fills what its rounds fill. -/
theorem fills_forRange {lo hi : Nat} {round : Nat → Set Nat}
    {body : Nat → List α → Except ε (List α)}
    (h : ∀ i, lo ≤ i → i < hi → Fills n target (round i) (body i)) :
    Fills n target {p | ∃ i, lo ≤ i ∧ i < hi ∧ p ∈ round i} fun out =>
      forRange lo hi out body := by
  intro out hout
  by_cases hle : hi ≤ lo
  · have hnone : forRange lo hi out body = .ok out := by
      rw [forRange, Nat.sub_eq_zero_of_le hle]
      rfl
    dsimp only
    rw [hnone]
    refine ⟨.refl out, ?_⟩
    rintro p ⟨k, hk, hlt, -⟩
    omega
  apply forRange_ends (fun i (out' : List α) => Overwrites n target out out' ∧
    ∀ p, (∃ k, lo ≤ k ∧ k < i ∧ p ∈ round k) → out'[p]? = some (target p))
    (Nat.le_of_not_le hle)
  · refine ⟨.refl out, ?_⟩
    rintro p ⟨k, hk, hlt, -⟩
    omega
  · intro i state hlo hhi hinv
    have hround := h i hlo hhi state (hinv.1.length_eq.symm ▸ hout)
    refine hround.mono (fun out' hout' => ⟨hinv.1.trans hout'.1, ?_⟩) fun _ => id
    rintro p ⟨k, hk, hlt, hmem⟩
    by_cases hlast : k = i
    · exact hout'.2 p (hlast ▸ hmem)
    · exact hout'.1.stays (hinv.2 p ⟨k, hk, by omega, hmem⟩)

theorem fills_forStep {step lo hi : Nat} {round : Nat → Set Nat}
    {body : Nat → List α → Except ε (List α)}
    (h : ∀ k < (hi - lo) / step, Fills n target (round k) (body (lo + k * step))) :
    Fills n target {p | ∃ k < (hi - lo) / step, p ∈ round k} fun out =>
      forStep step lo hi out body := by
  refine (fills_forRange fun k _ hk => h k hk).mono ?_
  rintro p ⟨k, hk, hp⟩
  exact ⟨k, Nat.zero_le _, hk, hp⟩

theorem fills_forStep_mul {step count : Nat} (hstep : 0 < step) {round : Nat → Set Nat}
    {body : Nat → List α → Except ε (List α)}
    (h : ∀ k < count, Fills n target (round k) (body (k * step))) :
    Fills n target {p | ∃ k < count, p ∈ round k} fun out =>
      forStep step 0 (count * step) out body := by
  have hrounds : (count * step - 0) / step = count := Nat.mul_div_cancel count hstep
  have hloop := @fills_forStep ε α n target step 0 (count * step) round body fun k hk => by
    rw [Nat.zero_add]
    exact h k (hrounds ▸ hk)
  rwa [hrounds] at hloop

theorem stored_splice {off count : Nat} {part : Nat → α} (hfit : off + count ≤ out.length)
    (hpart : ∀ b < count, part b = target (off + b)) :
    Stored target {p | ∃ b < count, p = off + b} out
      (out.take off ++ filled count part (out.drop off)) := by
  have htake : (out.take off).length = off := by
    rw [List.length_take]
    omega
  have hpart' : (List.map part (List.range count)).length = count := by simp
  refine ⟨?_, ?_, fun i hi => ?_⟩
  · rw [List.length_append, htake, filled, List.length_append, hpart', List.length_drop,
      List.length_drop]
    omega
  · rintro i ⟨b, hb, rfl⟩
    rw [List.getElem?_append_right (by omega), htake, Nat.add_sub_cancel_left, filled,
      List.getElem?_append_left (by omega), List.getElem?_map, List.getElem?_range hb, Option.map_some,
      hpart b hb]
  · by_cases hbefore : i < off
    · rw [List.getElem?_append_left (by omega), List.getElem?_take_of_lt hbefore]
    · obtain ⟨b, rfl⟩ := Nat.exists_eq_add_of_le (Nat.le_of_not_lt hbefore)
      have hb : ¬ b < count := fun hb => hi ⟨b, hb, rfl⟩
      rw [List.getElem?_append_right (by omega), htake, Nat.add_sub_cancel_left, filled,
        List.getElem?_append_right (by omega), hpart', List.getElem?_drop, List.getElem?_drop]
      congr 1
      omega

theorem Overwrites.all (h : Overwrites n target out out')
    (hwritten : ∀ i < n, out'[i]? = some (target i)) : out' = filled n target out := by
  unfold filled
  apply List.ext_getElem?
  intro i
  by_cases hi : i < n
  · rw [hwritten i hi, List.getElem?_append_left (by simpa using hi)]
    simp [hi]
  · have hkept := (h.kept i).resolve_right fun hwritten => hi hwritten.1
    rw [hkept, List.getElem?_append_right (by simpa using hi)]
    simp only [List.length_map, List.length_range, List.getElem?_drop]
    congr 1
    omega

theorem Fills.all (h : Fills n target places run) (hplaces : ∀ i < n, i ∈ places)
    (hout : n ≤ out.length) : run out = .ok (filled n target out) := by
  obtain ⟨out', hrun, hover, hwritten⟩ := returns_iff.mp (h out hout)
  rw [hrun, hover.all fun i hi => hwritten i (hplaces i hi)]

end fills

section filled
variable {α : Type} {n : Nat} {target : Nat → α} {out : List α}

theorem length_filled (h : n ≤ out.length) : (filled n target out).length = out.length := by
  rw [filled, List.length_append, List.length_map, List.length_range, List.length_drop]
  omega

theorem filled_getD {i : Nat} (h : i < n) (default : α) :
    (filled n target out).getD i default = target i := by
  rw [filled, List.getD_eq_getElem?_getD, List.getElem?_append_left (by simpa using h)]
  simp [h]

theorem drop_filled : (filled n target out).drop n = out.drop n := by
  rw [filled, List.drop_left' (by simp)]

theorem filled_filled (target' : Nat → α) :
    filled n target (filled n target' out) = filled n target out := by
  rw [filled, drop_filled]
  rfl

theorem filled_congr {target' : Nat → α} (h : ∀ i < n, target i = target' i) :
    filled n target out = filled n target' out := by
  unfold filled
  congr 1
  apply List.map_congr_left
  intro i hi
  exact h i (List.mem_range.mp hi)

end filled

end TonCompress.Lib
