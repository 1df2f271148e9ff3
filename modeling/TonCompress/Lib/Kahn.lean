import Mathlib.Data.Fintype.Card
import Mathlib.Data.List.Count
import Mathlib.Data.Fintype.EquivFin
import Mathlib.Logic.Relation

/-! Topological sorting by Kahn's algorithm on a finite graph with multiple
edges: `refs x` lists the nodes `x` refers to, `rev y` the nodes that refer
to `y`. -/
namespace TonCompress.Lib
open Relation

variable {ι : Type} (refs : ι → List ι)

def Refers (x y : ι) : Prop := y ∈ refs x

def Acyclic : Prop := ∀ x, ¬ TransGen (Refers refs) x x

def ReachesCycle (x : ι) : Prop :=
  ∃ y, ReflTransGen (Refers refs) x y ∧ TransGen (Refers refs) y y

variable {refs}

theorem not_reachesCycle_of_acc {x : ι} (h : Acc (fun y x => Refers refs x y) x) :
    ¬ ReachesCycle refs x := by
  rintro ⟨y, hxy, hcycle⟩
  have hy : Acc (TransGen fun y x => Refers refs x y) y := by
    apply Acc.transGen
    clear hcycle
    induction hxy with
    | refl => exact h
    | tail _ hstep ih => exact ih.inv hstep
  have hswap : TransGen (fun y x => Refers refs x y) y y := by
    rw [← transGen_swap] at hcycle
    exact hcycle
  clear hxy hcycle
  induction hy with
  | intro y _ ih => exact ih y hswap hswap

theorem acc_of_not_reachesCycle [Finite ι] {x : ι} (h : ¬ ReachesCycle refs x) :
    Acc (fun y x => Refers refs x y) x := by
  -- Below `x` the strict order of reachability has no loop, so it is well-founded.
  let below : ι → ι → Prop := fun z y =>
    ReflTransGen (Refers refs) x y ∧ TransGen (Refers refs) y z
  have htrans : IsTrans ι below := ⟨fun a b c hab hbc => ⟨hbc.1, hbc.2.trans hab.2⟩⟩
  have hirrefl : Std.Irrefl below := ⟨fun a ha => h ⟨a, ha.1, ha.2⟩⟩
  have hwf : WellFounded below := Finite.wellFounded_of_trans_of_irrefl below
  have hall : ∀ y, ReflTransGen (Refers refs) x y → Acc (fun y x => Refers refs x y) y := by
    intro y
    induction y using hwf.induction with
    | _ y ih =>
      intro hxy
      constructor
      intro z hz
      exact ih z ⟨hxy, TransGen.single hz⟩ (hxy.tail hz)
  exact hall x ReflTransGen.refl

theorem acyclic_iff_forall_not_reachesCycle :
    Acyclic refs ↔ ∀ x, ¬ ReachesCycle refs x := by
  constructor
  · rintro h x ⟨y, -, hy⟩
    exact h y hy
  · intro h x hx
    exact h x ⟨x, ReflTransGen.refl, hx⟩

variable (refs)

/-- What a topological sort delivers: a list without repetitions that names a
node after all nodes it refers to, and leaves out just the nodes above a cycle. -/
structure TopologicalOrder (order : List ι) : Prop where
  nodup : order.Nodup
  refs_before : ∀ pre x post, order = pre ++ x :: post → ∀ y ∈ refs x, y ∈ pre
  mem_iff : ∀ x, x ∈ order ↔ ¬ ReachesCycle refs x

theorem TopologicalOrder.length_eq_iff [Fintype ι] [DecidableEq ι] {order : List ι}
    (h : TopologicalOrder refs order) :
    order.length = Fintype.card ι ↔ Acyclic refs := by
  rw [acyclic_iff_forall_not_reachesCycle, ← List.toFinset_card_of_nodup h.nodup,
    Finset.card_eq_iff_eq_univ, Finset.eq_univ_iff_forall]
  exact forall_congr' fun x => by rw [List.mem_toFinset, h.mem_iff]

variable [DecidableEq ι]

/-- One round of the algorithm: every node of `users` loses one pending
reference, and a node that has none left joins the queue. -/
def drain : List ι → (ι → Int) → List ι → (ι → Int) × List ι
  | [], degree, queue => (degree, queue)
  | x :: users, degree, queue =>
      let degree := Function.update degree x (degree x - 1)
      drain users degree (if degree x = 0 then queue ++ [x] else queue)

def kahn (rev : ι → List ι) : Nat → (ι → Int) → List ι → List ι → Option (List ι)
  | 0, _, _, _ => none
  | _ + 1, _, [], order => some order
  | fuel + 1, degree, x :: queue, order =>
      let (degree, queue) := drain (rev x) degree queue
      kahn rev fuel degree queue (order ++ [x])

variable {refs}

theorem drain_degree (users : List ι) (degree : ι → Int) (queue : List ι) (x : ι) :
    (drain users degree queue).1 x = degree x - users.count x := by
  induction users generalizing degree queue with
  | nil => simp [drain]
  | cons y users ih =>
    rw [drain, ih]
    by_cases hxy : x = y
    · subst hxy
      simp
      omega
    · simp [Function.update_of_ne hxy, List.count_cons_of_ne (Ne.symm hxy)]

theorem drain_queue (users : List ι) (degree : ι → Int) (queue : List ι)
    (h : ∀ x, (users.count x : Int) ≤ degree x) :
    ∃ added, (drain users degree queue).2 = queue ++ added ∧ added.Nodup ∧
      ∀ x, x ∈ added ↔ x ∈ users ∧ degree x = users.count x := by
  induction users generalizing degree queue with
  | nil => exact ⟨[], by simp [drain], List.nodup_nil, by simp⟩
  | cons y users ih =>
    rw [drain]
    have hy := h y
    rw [List.count_cons_self] at hy
    have hdegree : ∀ x, (users.count x : Int) ≤
        Function.update degree y (degree y - 1) x := by
      intro x
      by_cases hxy : x = y
      · subst hxy
        simp
        omega
      · have hx := h x
        rw [List.count_cons_of_ne (Ne.symm hxy)] at hx
        simpa [Function.update_of_ne hxy] using hx
    have hother : ∀ x, x ≠ y → ((y :: users).count x = users.count x) := fun x hxy =>
      List.count_cons_of_ne (Ne.symm hxy)
    simp only [Function.update_self]
    split
    · rename_i hzero
      obtain ⟨added, hqueue, hnodup, hmem⟩ := ih _ (queue ++ [y]) hdegree
      have hnot : y ∉ users := by
        apply List.count_eq_zero.mp
        omega
      refine ⟨y :: added, by simp [hqueue], ?_, ?_⟩
      · rw [List.nodup_cons]
        exact ⟨fun hadded => hnot ((hmem y).mp hadded).1, hnodup⟩
      · intro x
        by_cases hxy : x = y
        · subst hxy
          simp [List.count_eq_zero.mpr hnot]
          omega
        · rw [List.mem_cons, hmem x, hother x hxy, Function.update_of_ne hxy]
          simp [hxy]
    · rename_i hpos
      obtain ⟨added, hqueue, hnodup, hmem⟩ := ih _ queue hdegree
      refine ⟨added, hqueue, hnodup, ?_⟩
      intro x
      by_cases hxy : x = y
      · subst hxy
        rw [hmem x, Function.update_self, List.count_cons_self]
        constructor
        · rintro ⟨hx, hcount⟩
          exact ⟨List.mem_cons_self, by omega⟩
        · rintro ⟨-, hcount⟩
          have hused : 0 < users.count x := by omega
          exact ⟨List.count_pos_iff.mp hused, by omega⟩
      · rw [hmem x, hother x hxy, Function.update_of_ne hxy]
        simp [hxy]

/-- The state of the algorithm between rounds. `degree x` counts the references
of `x` that are not in `order` yet. -/
structure KahnInv (refs : ι → List ι) (degree : ι → Int) (queue order : List ι) : Prop where
  degree_eq : ∀ x, degree x = (refs x).countP (· ∉ order)
  nodup : (order ++ queue).Nodup
  mem_iff : ∀ x, x ∈ order ++ queue ↔ degree x = 0
  refs_before : ∀ pre x post, order = pre ++ x :: post → ∀ y ∈ refs x, y ∈ pre

theorem countP_not_mem_snoc (list order : List ι) {x : ι} (hx : x ∉ order) :
    list.countP (· ∉ order) = list.countP (· ∉ order ++ [x]) + list.count x := by
  induction list with
  | nil => simp
  | cons y list ih =>
    by_cases hy : y = x
    · subst hy
      rw [List.countP_cons, List.countP_cons, List.count_cons_self, ih]
      simp [hx]
      omega
    · have hmem : y ∉ order ++ [x] ↔ y ∉ order := by simp [hy]
      rw [List.countP_cons, List.countP_cons, List.count_cons_of_ne hy, ih]
      simp only [hmem]
      omega

theorem mem_of_countP_not_mem_eq_zero {list order : List ι}
    (h : list.countP (· ∉ order) = 0) : ∀ y ∈ list, y ∈ order := by
  intro y hy
  have hnot := List.countP_eq_zero.mp h y hy
  simpa using hnot

variable {rev : ι → List ι} (hrev : ∀ x y, (rev y).count x = (refs x).count y)
variable {degree : ι → Int} {queue order : List ι}
include hrev

theorem KahnInv.step {x : ι} (h : KahnInv refs degree (x :: queue) order) :
    KahnInv refs (drain (rev x) degree queue).1 (drain (rev x) degree queue).2
      (order ++ [x]) := by
  have hnodup := h.nodup
  have hx : x ∉ order := by
    intro hmem
    exact (List.nodup_append.mp hnodup).2.2 x hmem x List.mem_cons_self rfl
  have hzero : degree x = 0 := (h.mem_iff x).mp (by simp)
  have hcount : ∀ z, ((rev x).count z : Int) ≤ degree z := by
    intro z
    rw [hrev, h.degree_eq, countP_not_mem_snoc _ _ hx]
    omega
  have hdegree : ∀ z, (drain (rev x) degree queue).1 z =
      (refs z).countP (· ∉ order ++ [x]) := by
    intro z
    rw [drain_degree, h.degree_eq, countP_not_mem_snoc _ _ hx, hrev]
    omega
  obtain ⟨added, hqueue, hadded, hmem⟩ := drain_queue (rev x) degree queue hcount
  have hsplit : order ++ [x] ++ (queue ++ added) = (order ++ x :: queue) ++ added := by simp
  have hfresh : ∀ z ∈ added, z ∉ order ++ x :: queue := by
    intro z hz hold
    obtain ⟨huser, hdeg⟩ := (hmem z).mp hz
    have hpos := List.count_pos_iff.mpr huser
    have hnone := (h.mem_iff z).mp hold
    omega
  constructor
  · exact hdegree
  · rw [hqueue, hsplit, List.nodup_append]
    refine ⟨hnodup, hadded, ?_⟩
    rintro a ha b hb rfl
    exact hfresh a hb ha
  · intro z
    rw [hqueue, hsplit, List.mem_append, h.mem_iff z, hmem z, drain_degree]
    have hbound := hcount z
    constructor
    · rintro (hold | ⟨-, heq⟩)
      · omega
      · omega
    · intro hdone
      by_cases huser : z ∈ rev x
      · exact .inr ⟨huser, by omega⟩
      · rw [List.count_eq_zero.mpr huser] at hdone
        exact .inl (by omega)
  · intro pre z post hsplit y hy
    rcases List.eq_nil_or_concat post with rfl | ⟨post, last, rfl⟩
    · obtain ⟨rfl, hlast⟩ := List.append_inj' hsplit rfl
      obtain rfl : x = z := by simpa using hlast
      have hdone := h.degree_eq x
      rw [hzero] at hdone
      exact mem_of_countP_not_mem_eq_zero (by omega) y hy
    · have hinit : order = pre ++ z :: post := by
        have hsplit' : order ++ [x] = (pre ++ z :: post) ++ [last] := by simpa using hsplit
        exact (List.append_inj' hsplit' rfl).1
      exact h.refs_before pre z post hinit y hy

omit hrev in
theorem KahnInv.topologicalOrder [Finite ι] (h : KahnInv refs degree [] order) :
    TopologicalOrder refs order := by
  have hmem : ∀ x, x ∈ order ↔ ∀ y ∈ refs x, y ∈ order := by
    intro x
    have hx := h.mem_iff x
    rw [List.append_nil] at hx
    rw [hx, h.degree_eq]
    simp [List.countP_eq_zero]
  refine ⟨by simpa using h.nodup, h.refs_before, ?_⟩
  intro x
  constructor
  · intro hx
    apply not_reachesCycle_of_acc
    -- Induction on the position of `x`, whose references stand before it.
    have hprefix : ∀ k, ∀ pre z post, pre.length = k → order = pre ++ z :: post →
        Acc (fun y x => Refers refs x y) z := by
      intro k
      induction k using Nat.strong_induction_on with
      | _ k ih =>
        intro pre z post hk hsplit
        constructor
        intro y hy
        obtain ⟨pre', post', hpre⟩ := List.append_of_mem (h.refs_before pre z post hsplit y hy)
        apply ih pre'.length ?_ pre' y (post' ++ z :: post) rfl
        · simp [hsplit, hpre]
        · simp only [← hk, hpre, List.length_append, List.length_cons]
          omega
    obtain ⟨pre, post, hsplit⟩ := List.append_of_mem hx
    exact hprefix pre.length pre x post rfl hsplit
  · intro hx
    have hacc := acc_of_not_reachesCycle hx
    clear hx
    induction hacc with
    | intro x _ ih => exact (hmem x).mpr ih

/-- With fuel for all nodes the algorithm ends, in a topological order. -/
theorem kahn_topologicalOrder [Fintype ι] (fuel : Nat)
    (h : KahnInv refs degree queue order)
    (hfuel : Fintype.card ι < fuel + order.length) :
    ∃ result, kahn rev fuel degree queue order = some result ∧ TopologicalOrder refs result := by
  have hlength := (List.nodup_append.mp h.nodup).1.length_le_card
  induction fuel generalizing degree queue order with
  | zero => omega
  | succ fuel ih =>
    cases queue with
    | nil => exact ⟨order, rfl, h.topologicalOrder⟩
    | cons x queue =>
      rw [kahn]
      have hstep := h.step hrev
      apply ih hstep
      · simp
        omega
      · exact (List.nodup_append.mp hstep.nodup).1.length_le_card

end TonCompress.Lib
