import TonCompress.Boc.Bag
import TonCompress.Lib.Kahn

/-! `get_topol_order`: Kahn's algorithm over the references of the cell records. -/
namespace TonCompress.Boc
open TonCompress.Lib

namespace MyBagOfCells

/-- One pass over the references of a record: `rev_graph[ref_idx]` gets the
cell, and its own degree grows by one. -/
def addReferences (bag : MyBagOfCells) (idx : Nat) (cellSlice : Slice)
    (cellInfo : CellSerializationInfo) (revGraph : List (List Int)) (inDegree : List Int) :
    BocExec (List (List Int) × List Int) :=
  forRange 0 cellInfo.refsCnt (revGraph, inDegree) fun k (revGraph, inDegree) => do
    let refIdx ← bag.readRefIdx cellSlice cellInfo k
    let users ← vecGet .revGraph revGraph refIdx
    let revGraph ← vecSet .revGraph revGraph refIdx (users ++ [(idx : Int)])
    let degree ← vecGet .inDegree inDegree idx
    let inDegree ← vecSet .inDegree inDegree idx (degree + 1)
    return (revGraph, inDegree)

def buildReverseGraph (bag : MyBagOfCells) (cellsSlice : Slice) (cellCount : Nat) :
    BocExec (List (List Int) × List Int) :=
  forRange 0 cellCount (List.replicate cellCount [], List.replicate cellCount 0)
    fun idx (revGraph, inDegree) => do
      let (cellSlice, cellInfo) ← bag.readCellRecord idx cellsSlice
      bag.addReferences idx cellSlice cellInfo revGraph inDegree

def initialQueue (inDegree : List Int) (cellCount : Nat) : BocExec (List Int) :=
  forRange 0 cellCount [] fun idx queue => do
    let degree ← vecGet .inDegree inDegree idx
    if degree = 0 then return queue ++ [(idx : Int)] else return queue

/-- The inner loop of the sort, over the cells that refer to the one popped. -/
def releaseUsers (users : List Int) (inDegree queue : List Int) :
    BocExec (List Int × List Int) :=
  forEach users (inDegree, queue) fun refIdx (inDegree, queue) => do
    let degree ← vecGet .inDegree inDegree refIdx
    let inDegree ← vecSet .inDegree inDegree refIdx (degree - 1)
    if degree - 1 = 0 then return (inDegree, queue ++ [refIdx]) else return (inDegree, queue)

/-- `while (!q.empty())`, with fuel. -/
def topolLoop (revGraph : List (List Int)) :
    Nat → List Int → List Int → List Int → BocExec (List Int)
  | 0, _, _, _ => .error .outOfFuel
  | _ + 1, _, [], topol => .ok topol
  | fuel + 1, inDegree, idx :: queue, topol => do
      let users ← vecGet .revGraph revGraph idx
      let (inDegree, queue) ← releaseUsers users inDegree queue
      topolLoop revGraph fuel inDegree queue (topol ++ [idx])

def getTopolOrder (bag : MyBagOfCells) (cellsSlice : Slice) (cellCount : Nat) :
    BocExec (List Int) := do
  let (revGraph, inDegree) ← bag.buildReverseGraph cellsSlice cellCount
  let queue ← initialQueue inDegree cellCount
  topolLoop revGraph (cellCount + 1) inDegree queue []

end MyBagOfCells

structure HasRecord (bag : MyBagOfCells) (cellsSlice : Slice) (idx : Int) (refs : List Int) :
    Prop where
  read : ∃ cellSlice cellInfo, bag.readCellRecord idx cellsSlice = .ok (cellSlice, cellInfo) ∧
    cellInfo.refsCnt = refs.length ∧
    ∀ k (hk : k < refs.length), bag.readRefIdx cellSlice cellInfo k = .ok refs[k]

section tables
variable {n : Nat}

def cellNumbers (list : List (Fin n)) : List Int := list.map fun x => (x.val : Int)

/-- A table of `n` cells whose references all stay inside it. -/
def TableOf (bag : MyBagOfCells) (cellsSlice : Slice) (refs : Fin n → List (Fin n)) : Prop :=
  ∀ idx : Fin n, HasRecord bag cellsSlice idx.val (cellNumbers (refs idx))

@[simp] theorem cellNumbers_append (list list' : List (Fin n)) :
    cellNumbers (list ++ list') = cellNumbers list ++ cellNumbers list' :=
  List.map_append

@[simp] theorem cellNumbers_length (list : List (Fin n)) :
    (cellNumbers list).length = list.length :=
  List.length_map _

theorem exists_cellNumbers {list : List Int} (h : ∀ x ∈ list, 0 ≤ x ∧ x < n) :
    ∃ list' : List (Fin n), list = cellNumbers list' := by
  induction list with
  | nil => exact ⟨[], rfl⟩
  | cons x list ih =>
    obtain ⟨list', rfl⟩ := ih fun y hy => h y (List.mem_cons_of_mem _ hy)
    obtain ⟨hnonneg, hlt⟩ := h x List.mem_cons_self
    refine ⟨⟨x.toNat, by omega⟩ :: list', ?_⟩
    simp only [cellNumbers, List.map_cons, List.cons.injEq, and_true]
    omega

theorem cellNumbers_injective {list list' : List (Fin n)}
    (h : cellNumbers list = cellNumbers list') : list = list' :=
  List.map_injective_iff.mpr (fun _ _ hij => Fin.ext (Int.ofNat_inj.mp hij)) h

def graphTable (rev : Fin n → List (Fin n)) : List (List Int) :=
  List.ofFn fun x => cellNumbers (rev x)

end tables

open MyBagOfCells

section refinement
variable {n : Nat} {bag : MyBagOfCells} {cellsSlice : Slice} {refs : Fin n → List (Fin n)}

/-- How far the reverse graph is built: `counted x` references of each cell `x`
are entered. -/
def BuiltUpTo (refs : Fin n → List (Fin n)) (counted : Fin n → Nat)
    (state : List (List Int) × List Int) : Prop :=
  ∃ rev : Fin n → List (Fin n),
    state = (graphTable rev, List.ofFn fun x => (min (counted x) (refs x).length : Int)) ∧
    ∀ x y, (rev y).count x = ((refs x).take (counted x)).count y

private theorem count_take_succ (list : List (Fin n)) {k : Nat} (hk : k < list.length)
    (y : Fin n) :
    (list.take (k + 1)).count y = (list.take k).count y + if list[k] = y then 1 else 0 := by
  rw [List.take_succ_eq_append_getElem hk, List.count_append, List.count_singleton]
  simp

theorem addReferences_builtUpTo (idx : Fin n) {cellSlice : Slice}
    {cellInfo : CellSerializationInfo} (hcnt : cellInfo.refsCnt = (refs idx).length)
    (href : ∀ k (hk : k < (refs idx).length),
      bag.readRefIdx cellSlice cellInfo k = .ok ((refs idx)[k].val : Int))
    {counted : Fin n → Nat} {state : List (List Int) × List Int}
    (hzero : counted idx = 0) (h : BuiltUpTo refs counted state) :
    Returns (bag.addReferences idx cellSlice cellInfo state.1 state.2)
      (BuiltUpTo refs (Function.update counted idx (refs idx).length)) := by
  rw [addReferences, hcnt]
  apply forRange_ends (fun k => BuiltUpTo refs (Function.update counted idx k)) (Nat.zero_le _)
  · rw [← hzero, Function.update_eq_self]
    exact h
  · rintro k ⟨revGraph, inDegree⟩ - hk ⟨rev, hstate, hcount⟩
    obtain ⟨rfl, rfl⟩ := Prod.mk.inj hstate
    have hrev : vecGet BocSite.revGraph (graphTable rev) ((refs idx)[k].val : Int) =
        .ok (cellNumbers (rev (refs idx)[k])) := vecGet_ofFn _ _ _
    have hset : vecSet BocSite.revGraph (graphTable rev) ((refs idx)[k].val : Int)
        (cellNumbers (rev (refs idx)[k]) ++ [(idx.val : Int)]) =
        .ok (graphTable (Function.update rev (refs idx)[k] (rev (refs idx)[k] ++ [idx]))) := by
      unfold graphTable
      rw [vecSet_ofFn]
      congr 2
      funext x
      by_cases hx : x = (refs idx)[k]
      · subst hx
        simp [cellNumbers]
      · simp [Function.update_of_ne hx]
    simp only [href k hk, hrev, hset, vecGet_ofFn, vecSet_ofFn, bind, Except.bind,
      ends_pure]
    refine ⟨_, Prod.ext rfl ?_, ?_⟩
    · simp only
      congr 1
      funext x
      by_cases hx : x = idx
      · subst hx
        simp
        omega
      · simp [Function.update_of_ne hx]
    · intro x y
      by_cases hx : x = idx
      · subst hx
        have hold := hcount x y
        rw [Function.update_self] at hold
        rw [Function.update_self, count_take_succ _ hk]
        by_cases hy : y = (refs x)[k]
        · subst hy
          simp [hold]
        · simp [Function.update_of_ne hy, Ne.symm hy, hold]
      · have hold := hcount x y
        rw [Function.update_of_ne hx] at hold
        rw [Function.update_of_ne hx, ← hold]
        by_cases hy : y = (refs idx)[k]
        · subst hy
          simp [Ne.symm hx]
        · simp [Function.update_of_ne hy]

/-- The first reference that is to no cell is used as an index. -/
theorem addReferences_total {idx : Nat} (hidx : idx < n) {cellSlice : Slice}
    {cellInfo : CellSerializationInfo} {list : List Int} (hcnt : cellInfo.refsCnt = list.length)
    (href : ∀ k (hk : k < list.length), bag.readRefIdx cellSlice cellInfo k = .ok list[k])
    {revGraph : List (List Int)} {inDegree : List Int} (hrev : revGraph.length = n)
    (hdeg : inDegree.length = n) :
    Ends (bag.addReferences idx cellSlice cellInfo revGraph inDegree)
      (fun out => out.1.length = n ∧ out.2.length = n ∧ ∀ ref ∈ list, 0 ≤ ref ∧ ref < n)
      (fun stop => stop = .outOfRange .revGraph ∧ ¬ ∀ ref ∈ list, 0 ≤ ref ∧ ref < n) := by
  rw [addReferences, hcnt]
  refine Ends.mono (forRange_ends (fun k (state : List (List Int) × List Int) =>
    state.1.length = n ∧ state.2.length = n ∧ ∀ ref ∈ list.take k, 0 ≤ ref ∧ ref < n)
    (Nat.zero_le _) ⟨hrev, hdeg, by simp⟩ ?_) ?_ fun _ => id
  · rintro k ⟨revGraph, inDegree⟩ - hk ⟨hrev, hdeg, hrefs⟩
    dsimp only at hrev hdeg ⊢
    rw [href k hk, ends_ok_bind]
    by_cases hrange : 0 ≤ list[k] ∧ list[k] < n
    · obtain ⟨x, hx⟩ := Int.eq_ofNat_of_zero_le hrange.1
      have hxn : x < n := by omega
      rw [hx, vecGet_natCast _ _ _ (by omega), ends_ok_bind,
        vecSet_natCast _ _ _ _ (by omega), ends_ok_bind,
        vecGet_natCast _ _ _ (by omega), ends_ok_bind,
        vecSet_natCast _ _ _ _ (by omega), ends_ok_bind]
      refine ⟨by simpa using hrev, by simpa using hdeg, ?_⟩
      intro ref hmem
      rw [List.take_succ_eq_append_getElem hk, List.mem_append, List.mem_singleton] at hmem
      rcases hmem with hmem | rfl
      · exact hrefs ref hmem
      · exact hrange
    · rw [vecGet_error _ _ _ (by omega)]
      exact ⟨rfl, fun hall => hrange (hall _ (List.getElem_mem hk))⟩
  · rintro state ⟨hrev, hdeg, hrefs⟩
    rw [List.take_length] at hrefs
    exact ⟨hrev, hdeg, hrefs⟩

theorem builtUpTo_ends {body : Nat → List (List Int) × List Int →
      BocExec (List (List Int) × List Int)}
    (hbody : ∀ (idx : Fin n) counted state, counted idx = 0 → BuiltUpTo refs counted state →
      Returns (body idx.val state)
        (BuiltUpTo refs (Function.update counted idx (refs idx).length))) :
    Returns (forRange 0 n (List.replicate n [], List.replicate n 0) body) fun out =>
      ∃ rev : Fin n → List (Fin n),
        out = (graphTable rev, List.ofFn fun x => ((refs x).length : Int)) ∧
        ∀ x y, (rev y).count x = (refs x).count y := by
  refine Ends.mono (forRange_ends (fun idx => BuiltUpTo refs fun x =>
    if x.val < idx then (refs x).length else 0) (Nat.zero_le n) ?_ ?_) ?_ fun _ => id
  · refine ⟨fun _ => [], Prod.ext ?_ ?_, by simp⟩
    · simp [graphTable, cellNumbers]
    · simp
  · rintro idx state - hidx hbuilt
    refine (hbody ⟨idx, hidx⟩ _ state (by simp) hbuilt).mono (fun out hout => ?_) fun _ => id
    have hnext : Function.update (fun x : Fin n => if x.val < idx then (refs x).length else 0)
        ⟨idx, hidx⟩ (refs ⟨idx, hidx⟩).length =
        fun x => if x.val < idx + 1 then (refs x).length else 0 := by
      apply update_ite
      · intro x
        rw [Fin.ext_iff]
        exact Nat.lt_succ_iff_lt_or_eq
      · rfl
    rwa [hnext] at hout
  · rintro out ⟨rev, rfl, hcount⟩
    refine ⟨rev, ?_, ?_⟩
    · simp
    · intro x y
      simpa using hcount x y

theorem buildReverseGraph_ends (h : TableOf bag cellsSlice refs) :
    Returns (bag.buildReverseGraph cellsSlice n) fun out =>
      ∃ rev : Fin n → List (Fin n),
        out = (graphTable rev, List.ofFn fun x => ((refs x).length : Int)) ∧
        ∀ x y, (rev y).count x = (refs x).count y := by
  apply builtUpTo_ends
  rintro idx counted ⟨revGraph, inDegree⟩ hzero hbuilt
  obtain ⟨⟨cellSlice, cellInfo, hread, hcnt, href⟩⟩ := h idx
  simp only [cellNumbers_length] at hcnt href
  dsimp only
  rw [hread, ok_bind]
  exact addReferences_builtUpTo idx hcnt (fun k hk => by simpa [cellNumbers] using href k hk)
    hzero hbuilt

theorem initialQueue_ofFn (degree : Fin n → Int) :
    Returns (initialQueue (List.ofFn degree) n) fun out =>
      ∃ queue : List (Fin n), out = cellNumbers queue ∧ queue.Nodup ∧
        ∀ x, x ∈ queue ↔ degree x = 0 := by
  rw [initialQueue]
  refine Ends.mono (forRange_ends (fun idx out => ∃ queue : List (Fin n),
    out = cellNumbers queue ∧ queue.Nodup ∧ ∀ x, x ∈ queue ↔ x.val < idx ∧ degree x = 0)
    (Nat.zero_le n) ?_ ?_) ?_ fun _ => id
  · exact ⟨[], rfl, List.nodup_nil, by simp⟩
  · rintro idx out - hidx ⟨queue, rfl, hnodup, hmem⟩
    simp only [vecGet_ofFn_of_lt _ _ hidx, bind, Except.bind]
    have hnew : (⟨idx, hidx⟩ : Fin n) ∉ queue := by
      intro hin
      exact absurd ((hmem _).mp hin).1 (lt_irrefl _)
    refine ends_ite.mpr ⟨fun hzero => ?_, fun hpos => ?_⟩
    · refine ⟨queue ++ [⟨idx, hidx⟩], by simp [cellNumbers], ?_, ?_⟩
      · rw [List.nodup_append]
        refine ⟨hnodup, List.nodup_singleton _, ?_⟩
        rintro x hx y hy rfl
        rw [List.mem_singleton.mp hy] at hx
        exact hnew hx
      · intro x
        rw [List.mem_append, hmem, List.mem_singleton, Fin.ext_iff]
        constructor
        · rintro (⟨hlt, hx⟩ | hx)
          · exact ⟨by omega, hx⟩
          · obtain rfl : x = ⟨idx, hidx⟩ := Fin.ext hx
            exact ⟨by simp, hzero⟩
        · rintro ⟨hlt, hx⟩
          by_cases heq : x.val = idx
          · exact .inr heq
          · exact .inl ⟨by omega, hx⟩
    · refine ⟨queue, rfl, hnodup, fun x => ?_⟩
      rw [hmem]
      constructor
      · rintro ⟨hlt, hx⟩
        exact ⟨by omega, hx⟩
      · rintro ⟨hlt, hx⟩
        refine ⟨?_, hx⟩
        by_contra hge
        obtain rfl : x = ⟨idx, hidx⟩ := Fin.ext (by simp; omega)
        exact hpos hx
  · rintro out ⟨queue, rfl, hnodup, hmem⟩
    exact ⟨queue, rfl, hnodup, fun x => by simpa using hmem x⟩

theorem releaseUsers_drain (users : List (Fin n)) (degree : Fin n → Int) (queue : List (Fin n)) :
    releaseUsers (cellNumbers users) (List.ofFn degree) (cellNumbers queue) =
      .ok (List.ofFn (drain users degree queue).1, cellNumbers (drain users degree queue).2) := by
  induction users generalizing degree queue with
  | nil => rfl
  | cons x users ih =>
    have hcons : cellNumbers (x :: users) = (x.val : Int) :: cellNumbers users := rfl
    have hsnoc : cellNumbers queue ++ [(x.val : Int)] = cellNumbers (queue ++ [x]) := by
      simp [cellNumbers]
    simp only [releaseUsers] at ih ⊢
    rw [hcons, forEach_cons, drain]
    simp only [vecGet_ofFn, vecSet_ofFn, bind, Except.bind, Function.update_self]
    by_cases hzero : degree x - 1 = 0
    · rw [if_pos hzero, if_pos hzero, hsnoc]
      exact ih _ _
    · rw [if_neg hzero, if_neg hzero]
      exact ih _ _

theorem topolLoop_kahn (rev : Fin n → List (Fin n)) (fuel : Nat) (degree : Fin n → Int)
    (queue topol result : List (Fin n)) (h : kahn rev fuel degree queue topol = some result) :
    topolLoop (graphTable rev) fuel (List.ofFn degree) (cellNumbers queue) (cellNumbers topol) =
      .ok (cellNumbers result) := by
  induction fuel generalizing degree queue topol with
  | zero => simp [kahn] at h
  | succ fuel ih =>
    cases queue with
    | nil =>
      obtain rfl : topol = result := by simpa [kahn] using h
      rfl
    | cons x queue =>
      have hcons : cellNumbers (x :: queue) = (x.val : Int) :: cellNumbers queue := rfl
      have hsnoc : cellNumbers topol ++ [(x.val : Int)] = cellNumbers (topol ++ [x]) := by
        simp [cellNumbers]
      have husers : vecGet BocSite.revGraph (graphTable rev) (x.val : Int) =
          .ok (cellNumbers (rev x)) := vecGet_ofFn _ _ _
      rw [hcons, topolLoop]
      simp only [husers, bind, Except.bind, releaseUsers_drain]
      rw [hsnoc]
      exact ih _ _ _ h

theorem topolLoop_ends {rev : Fin n → List (Fin n)}
    (hrev : ∀ x y, (rev y).count x = (refs x).count y) :
    Returns (initialQueue (List.ofFn fun x => ((refs x).length : Int)) n >>= fun queue =>
        topolLoop (graphTable rev) (n + 1) (List.ofFn fun x => ((refs x).length : Int)) queue [])
      fun out => ∃ order, out = cellNumbers order ∧ TopologicalOrder refs order := by
  refine (initialQueue_ofFn _).bind ?_
  rintro _ ⟨queue, rfl, hnodup, hmem⟩
  have hinit : KahnInv refs (fun x => ((refs x).length : Int)) queue [] := by
    refine ⟨fun x => by simp, by simpa using hnodup, fun x => by simpa using hmem x, ?_⟩
    rintro pre x post hsplit
    simp at hsplit
  obtain ⟨order, hkahn, horder⟩ := kahn_topologicalOrder hrev (n + 1) hinit (by simp)
  refine returns_iff.mpr ⟨_, topolLoop_kahn rev (n + 1) _ queue [] order hkahn, order, rfl, horder⟩

theorem getTopolOrder_ends (h : TableOf bag cellsSlice refs) :
    Returns (bag.getTopolOrder cellsSlice n) fun out =>
      ∃ order, out = cellNumbers order ∧ TopologicalOrder refs order := by
  rw [getTopolOrder]
  refine (buildReverseGraph_ends h).bind ?_
  rintro _ ⟨rev, rfl, hrev⟩
  exact topolLoop_ends hrev

/-- The order has no repetitions, names each cell behind all cells it refers to,
and leaves out just the cells from which a cycle of references can be reached. -/
theorem getTopolOrder_correct (bag : MyBagOfCells) (cellsSlice : Slice) (n : Nat)
    (refs : Fin n → List (Fin n)) (h : TableOf bag cellsSlice refs) :
    Returns (bag.getTopolOrder cellsSlice n) fun topol =>
      ∃ order : List (Fin n), topol = cellNumbers order ∧ order.Nodup ∧
        (∀ pre x post, order = pre ++ x :: post → ∀ y ∈ refs x, y ∈ pre) ∧
        (∀ x, x ∈ order ↔ ¬ ReachesCycle refs x) ∧
        (topol.length = n ↔ Acyclic refs) := by
  refine (getTopolOrder_ends h).mono ?_ fun _ => id
  rintro _ ⟨order, rfl, horder⟩
  have hlength := horder.length_eq_iff
  rw [Fintype.card_fin] at hlength
  exact ⟨order, rfl, horder.nodup, horder.refs_before, horder.mem_iff, by simpa using hlength⟩

/-- Three cells: the first refers twice to the second, the third to itself. -/
def loopedBag : MyBagOfCells :=
  { MyBagOfCells.fresh with info := { Info.fresh with refByteSize := 1 }, customIndex := [4, 6, 9] }

def loopedCells : Slice := Slice.ofBytes [2, 0, 1, 1, 0, 0, 1, 0, 2]

def loopedRefs : Fin 3 → List (Fin 3)
  | 0 => [1, 1]
  | 1 => []
  | 2 => [2]

theorem loopedBag_table : TableOf loopedBag loopedCells loopedRefs := by
  intro idx
  match idx with
  | 0 =>
    refine ⟨⟨_, _, rfl, rfl, ?_⟩⟩
    intro k hk
    match k, hk with
    | 0, _ => rfl
    | 1, _ => rfl
  | 1 => exact ⟨⟨_, _, rfl, rfl, nofun⟩⟩
  | 2 =>
    refine ⟨⟨_, _, rfl, rfl, ?_⟩⟩
    intro k hk
    match k, hk with
    | 0, _ => rfl

theorem getTopolOrder_correct_looped :
    TableOf loopedBag loopedCells loopedRefs ∧
      Returns (loopedBag.getTopolOrder loopedCells 3) fun topol =>
        ∃ order : List (Fin 3), topol = cellNumbers order ∧ order.Nodup ∧
          (∀ pre x post, order = pre ++ x :: post → ∀ y ∈ loopedRefs x, y ∈ pre) ∧
          (∀ x, x ∈ order ↔ ¬ ReachesCycle loopedRefs x) ∧
          (topol.length = 3 ↔ Acyclic loopedRefs) :=
  ⟨loopedBag_table, getTopolOrder_correct _ _ _ _ loopedBag_table⟩

end refinement

end TonCompress.Boc
