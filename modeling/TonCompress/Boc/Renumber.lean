import TonCompress.Boc.RoundTrip

/-! `permute` on any bag: the graph of the cells stays the same, two renumberings
are one, and the map from hashes finds the cells where they stand. -/
namespace TonCompress.Boc
open TonCompress.Lib MyBagOfCells
open Evolve (IsPerm tableOf)

structure InRange (bag : MyBagOfCells) : Prop where
  cellCount : bag.cellCount = bag.cellList.length
  rootCount : bag.rootCount = bag.roots.length
  refs : ∀ dcInfo ∈ bag.cellList, ∀ idx ∈ dcInfo.refIdx, 0 ≤ idx ∧ idx < bag.cellList.length
  roots : ∀ root ∈ bag.roots, 0 ≤ root.idx ∧ root.idx < bag.cellList.length

def cellAt (cellList : List CellInfo) (idx : Int) : Option CellInfo :=
  if 0 ≤ idx then cellList[idx.toNat]? else none

/-- A position and the one that `perm` gives the cell there. -/
def Repointed (perm : List Int) (cellList cellList' : List CellInfo) (idx idx' : Int) : Prop :=
  perm[idx.toNat]? = some idx' ∧ ∃ dcInfo dcInfo', cellAt cellList idx = some dcInfo ∧
    cellAt cellList' idx' = some dcInfo' ∧ dcInfo'.dcRef = dcInfo.dcRef

/-- The bag renumbered by `perm`: the same cells with the same references. -/
structure SameGraph (perm : List Int) (bag bag' : MyBagOfCells) : Prop where
  others : bag' = { bag with
    cellList := bag'.cellList
    roots := bag'.roots
    cells := bag'.cells }
  length_eq : bag'.cellList.length = bag.cellList.length
  moved : ∀ (i : Nat) (dcInfo : CellInfo), bag.cellList[i]? = some dcInfo →
    ∃ idx refIdx, perm[i]? = some idx ∧
      cellAt bag'.cellList idx = some { dcInfo with newIdx := idx, refIdx } ∧
      List.Forall₂ (Repointed perm bag.cellList bag'.cellList) dcInfo.refIdx refIdx
  roots : List.Forall₂ (fun root root' => root'.cell = root.cell ∧
    Repointed perm bag.cellList bag'.cellList root.idx root'.idx) bag.roots bag'.roots

def CellInfo.hash (lib : CellLib) (dcInfo : CellInfo) : List UInt8 :=
  lib.getHash dcInfo.dcRef maxLevel

/-- `cells` has a cell at its position, unless one of the same hash comes later. -/
def HashIndexed (lib : CellLib) (bag : MyBagOfCells) : Prop :=
  ∀ (i : Nat) (dcInfo : CellInfo), bag.cellList[i]? = some dcInfo →
    (bag.cells.lookup (dcInfo.hash lib) = some (i : Int) ↔
      ∀ (k : Nat) (dcInfo' : CellInfo), i < k → bag.cellList[k]? = some dcInfo' →
        dcInfo'.hash lib ≠ dcInfo.hash lib)

/-- Two bags that differ at most in entries of `cells` nothing finds. -/
structure SameState (bag bag' : MyBagOfCells) : Prop where
  others : bag' = { bag with cells := bag'.cells }
  lookup_eq : ∀ hash, bag'.cells.lookup hash = bag.cells.lookup hash

/-- `i -> q[p[i]]`. -/
def composed (p q : List Int) : List Int := p.map fun idx => q.getD idx.toNat 0

section index
variable {lib : CellLib} {cellList : List CellInfo} {cells : List (List UInt8 × Int)}

theorem lookup_indexCells_none {hash : List UInt8}
    (h : ∀ dcInfo ∈ cellList, dcInfo.hash lib ≠ hash) :
    (indexCells lib cellList cells).lookup hash = cells.lookup hash := by
  induction cellList using List.reverseRecOn with
  | nil => rfl
  | append_singleton init last ih =>
    have hlast : (hash == last.hash lib) = false :=
      beq_false_of_ne (h last (by simp)).symm
    rw [indexCells_push]
    change List.lookup hash ((last.hash lib, _) :: _) = _
    rw [List.lookup_cons, hlast]
    exact ih fun dcInfo hmem => h dcInfo (List.mem_append_left _ hmem)

theorem lookup_indexCells_mem {hash : List UInt8} (h : ∃ dcInfo ∈ cellList, dcInfo.hash lib = hash)
    (cells' : List (List UInt8 × Int)) :
    (indexCells lib cellList cells).lookup hash = (indexCells lib cellList cells').lookup hash := by
  induction cellList using List.reverseRecOn with
  | nil =>
    obtain ⟨dcInfo, hmem, -⟩ := h
    cases hmem
  | append_singleton init last ih =>
    rw [indexCells_push, indexCells_push]
    change List.lookup hash ((last.hash lib, _) :: _) = List.lookup hash ((last.hash lib, _) :: _)
    rw [List.lookup_cons, List.lookup_cons]
    cases hlast : hash == last.hash lib with
    | true => rfl
    | false =>
      apply ih
      obtain ⟨dcInfo, hmem, rfl⟩ := h
      rcases List.mem_append.mp hmem with hinit | hsingle
      · exact ⟨dcInfo, hinit, rfl⟩
      · rw [List.mem_singleton.mp hsingle, beq_self_eq_true] at hlast
        cases hlast

theorem lookup_indexCells_iff {i : Nat} {dcInfo : CellInfo} (hi : cellList[i]? = some dcInfo) :
    (indexCells lib cellList cells).lookup (dcInfo.hash lib) = some (i : Int) ↔
      ∀ (k : Nat) (dcInfo' : CellInfo), i < k → cellList[k]? = some dcInfo' →
        dcInfo'.hash lib ≠ dcInfo.hash lib := by
  induction cellList using List.reverseRecOn with
  | nil => cases hi
  | append_singleton init last ih =>
    rw [indexCells_push]
    change List.lookup (dcInfo.hash lib) ((last.hash lib, _) :: _) = _ ↔ _
    rw [List.lookup_cons]
    have hbound := (List.getElem?_eq_some_iff.mp hi).1
    rw [List.length_append, List.length_singleton] at hbound
    by_cases hlt : i < init.length
    · rw [List.getElem?_append_left hlt] at hi
      cases hlast : dcInfo.hash lib == last.hash lib with
      | true =>
        -- the last cell takes the place of the one at `i`
        have hsame := eq_of_beq hlast
        constructor
        · intro hfound
          have hlength := Int.ofNat_inj.mp (Option.some.inj hfound)
          omega
        · intro hlater
          exact absurd hsame.symm (hlater init.length last hlt (by simp))
      | false =>
        have hdiffer := ne_of_beq_false hlast
        rw [ih hi]
        constructor
        · intro hlater k dcInfo' hk hget
          by_cases hinit : k < init.length
          · exact hlater k dcInfo' hk (by rwa [List.getElem?_append_left hinit] at hget)
          · have hend := (List.getElem?_eq_some_iff.mp hget).1
            rw [List.length_append, List.length_singleton] at hend
            obtain rfl : k = init.length := by omega
            rw [List.getElem?_concat_length] at hget
            cases hget
            exact hdiffer.symm
        · intro hlater k dcInfo' hk hget
          have hinit := (List.getElem?_eq_some_iff.mp hget).1
          exact hlater k dcInfo' hk (by rwa [List.getElem?_append_left hinit])
    · obtain rfl : i = init.length := by omega
      rw [List.getElem?_concat_length] at hi
      cases hi
      rw [beq_self_eq_true]
      refine iff_of_true rfl ?_
      intro k dcInfo' hk hget
      have hend := (List.getElem?_eq_some_iff.mp hget).1
      rw [List.length_append, List.length_singleton] at hend
      omega

end index

section tables
variable {n : Nat}

theorem appliedPerm_eq {gene : Evolve.Gene} (h : IsPerm n gene.perm) :
    appliedPerm gene n = gene.perm := by
  unfold appliedPerm
  split
  · rename_i hempty
    have hnil := List.isEmpty_iff.mp hempty
    have hzero : n = 0 := by
      rw [← h.length_eq, hnil]
      rfl
    rw [hnil, hzero]
    rfl
  · rfl

theorem getElem?_tableOf (e : Fin n → Fin n) (i : Fin n) :
    (tableOf e)[i.val]? = some ((e i).val : Int) := by
  simp [tableOf]

theorem composed_tableOf (e f : Equiv.Perm (Fin n)) :
    composed (tableOf e) (tableOf f) = tableOf (e.trans f) := by
  have hvalue : ∀ i : Fin n, (tableOf f).getD (i.val : Int).toNat 0 = ((f i).val : Int) := by
    intro i
    rw [List.getD_eq_getElem?_getD, Int.toNat_natCast, getElem?_tableOf]
    rfl
  refine List.map_ofFn.trans ?_
  unfold tableOf
  congr 1
  funext i
  exact hvalue (e i)

theorem cellAt_ofFn (infos : Fin n → CellInfo) (i : Fin n) :
    cellAt (List.ofFn infos) (i.val : Int) = some (infos i) := by
  rw [cellAt, if_pos (Int.natCast_nonneg _), Int.toNat_natCast]
  simp

end tables

/-- A bag in range as a table of cells with positions for references. -/
structure Tabled {n m : Nat} (infos : Fin n → CellInfo) (links : Fin n → List (Fin n))
    (roots : Fin m → RootInfo) (rootAt : Fin m → Fin n) (bag : MyBagOfCells) : Prop where
  cellCount : bag.cellCount = n
  rootCount : bag.rootCount = m
  cellList : bag.cellList = List.ofFn infos
  rootList : bag.roots = List.ofFn roots
  links : ∀ i, (infos i).refIdx = cellNumbers (links i)
  rootAt : ∀ k, (roots k).idx = (rootAt k).val

theorem InRange.exists_tabled {bag : MyBagOfCells} (h : InRange bag) :
    ∃ (infos : Fin bag.cellList.length → CellInfo) (links : _) (roots : Fin bag.roots.length →
      RootInfo) (rootAt : _), Tabled infos links roots rootAt bag := by
  have hcell : ∀ i : Fin bag.cellList.length, ∃ list : List (Fin bag.cellList.length),
      (bag.cellList.get i).refIdx = cellNumbers list := by
    intro i
    apply exists_cellNumbers
    intro idx hidx
    exact h.refs _ (List.get_mem _ _) idx hidx
  have hroot : ∀ k : Fin bag.roots.length, ∃ i : Fin bag.cellList.length,
      (bag.roots.get k).idx = i.val := by
    intro k
    obtain ⟨hge, hlt⟩ := h.roots _ (List.get_mem _ k)
    exact ⟨⟨(bag.roots.get k).idx.toNat, by omega⟩, by dsimp only; omega⟩
  choose links hlinks using hcell
  choose rootAt hrootAt using hroot
  exact ⟨bag.cellList.get, links, bag.roots.get, rootAt, h.cellCount, h.rootCount,
    (List.ofFn_get _).symm, (List.ofFn_get _).symm, hlinks, hrootAt⟩

section permuting
variable {n m : Nat} {infos : Fin n → CellInfo} {links : Fin n → List (Fin n)}
variable {roots : Fin m → RootInfo} {rootAt : Fin m → Fin n} {bag : MyBagOfCells}

def renumberedBag (lib : CellLib) (infos : Fin n → CellInfo) (links : Fin n → List (Fin n))
    (roots : Fin m → RootInfo) (rootAt : Fin m → Fin n) (e : Equiv.Perm (Fin n))
    (bag : MyBagOfCells) : MyBagOfCells :=
  { bag with
    cellList := List.ofFn fun j => renumbered infos links e (e.symm j)
    roots := List.ofFn fun k => { roots k with idx := (e (rootAt k)).val }
    cells := indexCells lib (List.ofFn fun j => renumbered infos links e (e.symm j)) bag.cells }

theorem Tabled.permute (h : Tabled infos links roots rootAt bag) (lib : CellLib)
    (e : Equiv.Perm (Fin n)) {gene : Evolve.Gene} (hgene : gene.perm = tableOf e) :
    bag.permute lib gene = .ok (renumberedBag lib infos links roots rootAt e bag) := by
  have hperm : IsPerm n gene.perm := by
    rw [hgene]
    exact Evolve.isPerm_tableOf e.injective
  exact permute_ofFn lib infos links h.links roots rootAt h.rootAt h.cellCount h.rootCount
    h.cellList h.rootList e ((appliedPerm_eq hperm).trans hgene)

theorem Tabled.renumberedBag (h : Tabled infos links roots rootAt bag) (lib : CellLib)
    (e : Equiv.Perm (Fin n)) :
    Tabled (fun j => renumbered infos links e (e.symm j)) (fun j => (links (e.symm j)).map e)
      (fun k => { roots k with idx := (e (rootAt k)).val }) (fun k => e (rootAt k))
      (renumberedBag lib infos links roots rootAt e bag) :=
  ⟨h.cellCount, h.rootCount, rfl, rfl, fun _ => rfl, fun _ => rfl⟩

theorem Tabled.sameGraph (h : Tabled infos links roots rootAt bag) (lib : CellLib)
    (e : Equiv.Perm (Fin n)) :
    SameGraph (tableOf e) bag (Boc.renumberedBag lib infos links roots rootAt e bag) := by
  have hpoint : ∀ i : Fin n, Repointed (tableOf e) bag.cellList
      (Boc.renumberedBag lib infos links roots rootAt e bag).cellList (i.val : Int)
      ((e i).val : Int) := by
    intro i
    rw [h.cellList]
    refine ⟨getElem?_tableOf e i, infos i, renumbered infos links e (e.symm (e i)), cellAt_ofFn _ _,
      cellAt_ofFn (fun j => renumbered infos links e (e.symm j)) (e i), ?_⟩
    rw [e.symm_apply_apply]
    rfl
  refine ⟨rfl, ?_, ?_, ?_⟩
  · rw [h.cellList]
    simp [Boc.renumberedBag]
  · intro i dcInfo hget
    rw [h.cellList] at hget
    have hi := (List.getElem?_eq_some_iff.mp hget).1
    rw [List.length_ofFn] at hi
    have hinfo : infos ⟨i, hi⟩ = dcInfo := by simpa [hi] using hget
    subst hinfo
    refine ⟨((e ⟨i, hi⟩).val : Int), cellNumbers ((links ⟨i, hi⟩).map e),
      getElem?_tableOf e ⟨i, hi⟩, ?_, ?_⟩
    · have hat := cellAt_ofFn (fun j => renumbered infos links e (e.symm j)) (e ⟨i, hi⟩)
      rwa [e.symm_apply_apply] at hat
    · rw [h.links, cellNumbers, cellNumbers, List.map_map, List.forall₂_map_left_iff,
        List.forall₂_map_right_iff, List.forall₂_same]
      exact fun i _ => hpoint i
  · rw [h.rootList]
    change List.Forall₂ _ (List.ofFn roots) (List.ofFn fun k => _)
    rw [List.ofFn_eq_map, List.ofFn_eq_map, List.forall₂_map_left_iff, List.forall₂_map_right_iff,
      List.forall₂_same]
    intro k _
    refine ⟨rfl, ?_⟩
    rw [h.rootAt]
    exact hpoint (rootAt k)

theorem renumberedBag_trans (lib : CellLib) (e f : Equiv.Perm (Fin n)) :
    SameState (renumberedBag lib infos links roots rootAt (e.trans f) bag)
      (renumberedBag lib (fun j => renumbered infos links e (e.symm j))
        (fun j => (links (e.symm j)).map e)
        (fun k => { roots k with idx := (e (rootAt k)).val }) (fun k => e (rootAt k)) f
        (renumberedBag lib infos links roots rootAt e bag)) := by
  have hcells : (fun j => renumbered (fun j => renumbered infos links e (e.symm j))
      (fun j => (links (e.symm j)).map e) f (f.symm j)) =
      fun j => renumbered infos links (e.trans f) ((e.trans f).symm j) := by
    funext j
    simp [renumbered, Function.comp_def]
  constructor
  · unfold renumberedBag
    rw [hcells]
    rfl
  · intro hash
    change (indexCells lib (List.ofFn fun j => renumbered _ _ f (f.symm j))
      (indexCells lib (List.ofFn fun j => renumbered infos links e (e.symm j)) bag.cells)).lookup
        hash = (indexCells lib _ bag.cells).lookup hash
    rw [hcells]
    by_cases hmem : ∃ dcInfo ∈ List.ofFn fun j => renumbered infos links (e.trans f)
        ((e.trans f).symm j), dcInfo.hash lib = hash
    · exact lookup_indexCells_mem hmem _
    · have hnone : ∀ dcInfo ∈ List.ofFn fun j => renumbered infos links (e.trans f)
          ((e.trans f).symm j), dcInfo.hash lib ≠ hash := fun dcInfo hinfo heq =>
        hmem ⟨dcInfo, hinfo, heq⟩
      -- a hash that no cell has now, no cell had after the first renumbering
      have hbefore : ∀ dcInfo ∈ List.ofFn fun j => renumbered infos links e (e.symm j),
          dcInfo.hash lib ≠ hash := by
        intro dcInfo hinfo
        obtain ⟨j, rfl⟩ := (List.mem_ofFn' _ _).mp hinfo
        have hafter := hnone (renumbered infos links (e.trans f) (e.symm j)) <|
          (List.mem_ofFn' _ _).mpr ⟨f j, by simp⟩
        exact hafter
      rw [lookup_indexCells_none hnone, lookup_indexCells_none hnone,
        lookup_indexCells_none hbefore]

end permuting

/-- `permute` keeps the graph, finds the last cell of each hash, and goes together
with a second `permute`. -/
theorem permute_renumbers (lib : CellLib) (bag : MyBagOfCells) (h : InRange bag)
    (p q : Evolve.Gene) (hp : IsPerm bag.cellList.length p.perm)
    (hq : IsPerm bag.cellList.length q.perm) (pq : Evolve.Gene)
    (hpq : pq.perm = composed p.perm q.perm) :
    ∃ once, bag.permute lib p = .ok once ∧ SameGraph p.perm bag once ∧ HashIndexed lib once ∧
      ∃ twice direct, once.permute lib q = .ok twice ∧ bag.permute lib pq = .ok direct ∧
        SameState direct twice := by
  obtain ⟨infos, links, roots, rootAt, htabled⟩ := h.exists_tabled
  obtain ⟨e, he⟩ := hp.exists_equiv
  obtain ⟨f, hf⟩ := hq.exists_equiv
  rw [he, hf, composed_tableOf] at hpq
  have honce := htabled.permute lib e he
  have htwice := (htabled.renumberedBag lib e).permute lib f hf
  have hdirect := htabled.permute lib (e.trans f) hpq
  refine ⟨_, honce, he ▸ htabled.sameGraph lib e, ?_, _, _, htwice, hdirect,
    renumberedBag_trans lib e f⟩
  intro i dcInfo hget
  exact lookup_indexCells_iff hget

/-- A root that refers to a fork and to a leaf that the fork refers to as well. -/
def threeBag : MyBagOfCells :=
  { MyBagOfCells.fresh with
    cellCount := 3
    rootCount := 1
    cellList := [⟨⟨8, [0x77], [forkCell, leafCell], false, 0⟩, [1, 2], 0, 0, false, true⟩,
      ⟨forkCell, [2, 2], 0, 0, false, false⟩, ⟨leafCell, [], 0, 0, false, false⟩]
    roots := [⟨some ⟨8, [0x77], [forkCell, leafCell], false, 0⟩, 0⟩] }

/-- A rotation is no involution, so the direction counts. -/
theorem permute_renumbers_threeBag :
    ∃ once, threeBag.permute packingLib ⟨[1, 2, 0], 0⟩ = .ok once ∧
      SameGraph [1, 2, 0] threeBag once ∧ HashIndexed packingLib once ∧
      ∃ twice direct, once.permute packingLib ⟨[1, 2, 0], 0⟩ = .ok twice ∧
        threeBag.permute packingLib ⟨[2, 0, 1], 0⟩ = .ok direct ∧ SameState direct twice :=
  permute_renumbers packingLib threeBag ⟨rfl, rfl, by decide, by decide⟩ ⟨[1, 2, 0], 0⟩
    ⟨[1, 2, 0], 0⟩ (by decide) (by decide) ⟨[2, 0, 1], 0⟩ (by decide)

/-- A bag that holds one cell twice. -/
def twinBag : MyBagOfCells :=
  { MyBagOfCells.fresh with
    cellCount := 2
    rootCount := 1
    cellList := [⟨leafCell, [], 0, 0, false, true⟩, ⟨leafCell, [], 0, 0, false, true⟩]
    roots := [⟨some leafCell, 0⟩] }

/-- The map has one position for both. -/
theorem permute_twinBag :
    InRange twinBag ∧ IsPerm 2 [0, 1] ∧
      ∃ once, twinBag.permute packingLib ⟨[0, 1], 0⟩ = .ok once ∧
        ¬ ∀ (i : Nat) (dcInfo : CellInfo), once.cellList[i]? = some dcInfo →
          once.cells.lookup (packingLib.getHash dcInfo.dcRef maxLevel) = some (i : Int) := by
  have htabled : Tabled (fun _ : Fin 2 => ⟨leafCell, [], 0, 0, false, true⟩) (fun _ => [])
      (fun _ : Fin 1 => ⟨some leafCell, 0⟩) (fun _ => 0) twinBag :=
    ⟨rfl, rfl, rfl, rfl, fun _ => rfl, fun _ => rfl⟩
  refine ⟨⟨rfl, rfl, by decide, by decide⟩, by decide, _,
    htabled.permute packingLib (Equiv.refl _) rfl, ?_⟩
  intro hall
  have hfirst := (lookup_indexCells_iff rfl).mp (hall 0 _ rfl) 1 _ Nat.one_pos rfl
  exact hfirst rfl

end TonCompress.Boc
