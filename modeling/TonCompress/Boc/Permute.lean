import TonCompress.Boc.Serialize
import TonCompress.Boc.Unfold
import TonCompress.Boc.References
import TonCompress.Evolve.Perm
import Mathlib.Data.List.Sort

/-! The bags that `import_cells` leaves, and their renumbering by a gene. -/
namespace TonCompress.Boc
open TonCompress.Lib MyBagOfCells
open Evolve (IsPerm tableOf)

def IsCellAt (cellList : List CellInfo) (idx : Int) (cell : DataCell) : Prop :=
  ∃ i : Nat, idx = i ∧ ∃ dcInfo, cellList[i]? = some dcInfo ∧ dcInfo.dcRef = cell

/-- A bag as `import_cells` leaves it, with one root. That no cell reaches itself
needs no mention: cells are finite. -/
structure ImportedBag (bag : MyBagOfCells) (root : DataCell) (rootIdx : Nat) : Prop where
  cellCount : bag.cellCount = bag.cellList.length
  cellCount_lt : bag.cellList.length < 2 ^ 31
  refs : ∀ dcInfo ∈ bag.cellList,
    List.Forall₂ (IsCellAt bag.cellList) dcInfo.refIdx dcInfo.dcRef.refs
  stored : ∀ dcInfo ∈ bag.cellList, dcInfo.dcRef.Stored
  referenced : ∀ i < bag.cellList.length, i ≠ rootIdx →
    ∃ dcInfo ∈ bag.cellList, (i : Int) ∈ dcInfo.refIdx
  dataBytes : bag.dataBytes = (bag.cellList.map fun dcInfo => 2 + (dcInfo.dcRef.bits + 7) / 8).sum
  intRefs : bag.intRefs = ((bag.cellList.map fun dcInfo => dcInfo.refIdx.length).sum : Nat)
  rootCount : bag.rootCount = 1
  roots : bag.roots = [⟨some root, rootIdx⟩]
  root : IsCellAt bag.cellList rootIdx root

section permuting
variable {n : Nat}

def renumbered (infos : Fin n → CellInfo) (links : Fin n → List (Fin n)) (e : Equiv.Perm (Fin n))
    (i : Fin n) : CellInfo :=
  { infos i with newIdx := (e i).val, refIdx := cellNumbers ((links i).map e) }

theorem vecGet_tableOf (e : Fin n → Fin n) (i : Fin n) :
    vecGet BocSite.perm (tableOf e) (i.val : Int) = .ok ((e i).val : Int) :=
  vecGet_ofFn _ _ i

theorem mapM_vecGet_tableOf (e : Equiv.Perm (Fin n)) (list : List (Fin n)) :
    (cellNumbers list).mapM (vecGet BocSite.perm (tableOf e)) =
      .ok (cellNumbers (list.map e)) := by
  induction list with
  | nil => rfl
  | cons x list ih =>
    simp only [cellNumbers, List.map_cons, List.mapM_cons] at ih ⊢
    rw [vecGet_tableOf, ih]
    rfl

theorem renumberCells_eq (infos : Fin n → CellInfo) (links : Fin n → List (Fin n))
    (hlinks : ∀ i, (infos i).refIdx = cellNumbers (links i)) (e : Equiv.Perm (Fin n)) :
    renumberCells (tableOf e) n (List.ofFn infos) = .ok (List.ofFn (renumbered infos links e)) := by
  rw [renumberCells, forRange_modify infos fun i => { infos i with newIdx := (e i).val }]
  · simp only [bind, Except.bind]
    apply forRange_modify
    intro i v hv
    rw [vecGet_ofFn, hv]
    simp only [hlinks, mapM_vecGet_tableOf, vecSet_ofFn]
    rfl
  · intro i v hv
    simp only [vecGet_ofFn, hv, bind, Except.bind, vecGet_tableOf, vecSet_ofFn]

theorem mergeSort_renumbered (infos : Fin n → CellInfo) (links : Fin n → List (Fin n))
    (e : Equiv.Perm (Fin n)) :
    (List.ofFn (renumbered infos links e)).mergeSort (fun a b => decide (a.newIdx ≤ b.newIdx)) =
      List.ofFn fun j => renumbered infos links e (e.symm j) := by
  have hidx : ∀ j, (renumbered infos links e (e.symm j)).newIdx = (j.val : Int) := by
    intro j
    simp [renumbered]
  have hperm : List.Perm
      ((List.ofFn (renumbered infos links e)).mergeSort fun a b => decide (a.newIdx ≤ b.newIdx))
      (List.ofFn fun j => renumbered infos links e (e.symm j)) := by
    refine (List.mergeSort_perm _ _).trans ?_
    exact (Equiv.Perm.ofFn_comp_perm e.symm (renumbered infos links e)).symm
  have hsorted : List.Pairwise (fun a b : CellInfo => a.newIdx ≤ b.newIdx)
      (List.ofFn fun j => renumbered infos links e (e.symm j)) := by
    rw [List.pairwise_ofFn]
    intro i j hij
    rw [hidx, hidx]
    exact_mod_cast hij.le
  have hmerged : List.Pairwise (fun a b : CellInfo => a.newIdx ≤ b.newIdx)
      ((List.ofFn (renumbered infos links e)).mergeSort
        fun a b => decide (a.newIdx ≤ b.newIdx)) := by
    refine (List.pairwise_mergeSort ?_ ?_ _).imp of_decide_eq_true
    · intro a b c hab hbc
      simp only [decide_eq_true_eq] at hab hbc ⊢
      omega
    · intro a b
      simp only [Bool.or_eq_true, decide_eq_true_eq]
      omega
  refine List.Perm.eq_of_pairwise ?_ hmerged hsorted hperm
  intro a b ha hb hab hba
  -- No two cells have one number.
  rw [hperm.mem_iff] at ha
  obtain ⟨i, rfl⟩ := (List.mem_ofFn' _ _).mp ha
  obtain ⟨j, rfl⟩ := (List.mem_ofFn' _ _).mp hb
  rw [hidx, hidx] at hab hba
  obtain rfl : i = j := by omega
  rfl

theorem isCellAt_ofFn {infos : Fin n → CellInfo} {idx : Int} {cell : DataCell} :
    IsCellAt (List.ofFn infos) idx cell ↔ ∃ i : Fin n, idx = i.val ∧ (infos i).dcRef = cell := by
  constructor
  · rintro ⟨i, rfl, dcInfo, hget, rfl⟩
    obtain ⟨hi, rfl⟩ := List.getElem?_eq_some_iff.mp hget
    simp only [List.length_ofFn] at hi
    exact ⟨⟨i, hi⟩, rfl, by simp⟩
  · rintro ⟨i, rfl, rfl⟩
    exact ⟨i.val, rfl, infos i, by simp, rfl⟩

theorem exists_links {infos : Fin n → CellInfo}
    (h : ∀ i, List.Forall₂ (IsCellAt (List.ofFn infos)) (infos i).refIdx (infos i).dcRef.refs) :
    ∃ links : Fin n → List (Fin n), ∀ i, (infos i).refIdx = cellNumbers (links i) := by
  have hcell : ∀ i, ∃ list : List (Fin n), (infos i).refIdx = cellNumbers list := by
    intro i
    apply exists_cellNumbers
    intro x hx
    obtain ⟨k, hk, rfl⟩ := List.getElem_of_mem hx
    have hat := (h i).get hk ((h i).length_eq ▸ hk)
    obtain ⟨j, hj, -⟩ := isCellAt_ofFn.mp hat
    rw [List.get_eq_getElem] at hj
    dsimp only at hj
    omega
  choose links hlinks using hcell
  exact ⟨links, hlinks⟩

/-- The map behind `cells[hash] = i` for all positions. -/
def indexCells (lib : CellLib) (cellList : List CellInfo) (cells : List (List UInt8 × Int)) :
    List (List UInt8 × Int) :=
  (cellList.zipIdx.map fun cell => (lib.getHash cell.1.dcRef maxLevel, (cell.2 : Int))).reverse ++
    cells

theorem indexCells_push (lib : CellLib) (cellList : List CellInfo) (cell : CellInfo)
    (cells : List (List UInt8 × Int)) :
    indexCells lib (cellList ++ [cell]) cells =
      (lib.getHash cell.dcRef maxLevel, (cellList.length : Int)) ::
        indexCells lib cellList cells := by
  simp [indexCells, List.zipIdx_append]

theorem forRange_indexCells (lib : CellLib) (cellList : List CellInfo)
    (cells : List (List UInt8 × Int)) :
    (forRange 0 cellList.length cells fun i cells => do
      let cell ← vecGet BocSite.cellList cellList i
      return (lib.getHash cell.dcRef maxLevel, (i : Int)) :: cells) =
      .ok (indexCells lib cellList cells) := by
  apply returns_eq_iff.mp
  have hall : cellList.take cellList.length = cellList := List.take_length
  rw [← hall]
  conv in forRange _ _ _ _ => rw [hall]
  apply forRange_ends (fun i out => out = indexCells lib (cellList.take i) cells) (Nat.zero_le _) rfl
  rintro i _ - hi rfl
  rw [vecGet_natCast _ _ _ hi]
  change _ = indexCells lib (cellList.take (i + 1)) cells
  rw [← List.take_append_getElem hi, indexCells_push, List.length_take_of_le hi.le]

theorem permute_ofFn (lib : CellLib) {m : Nat} (infos : Fin n → CellInfo)
    (links : Fin n → List (Fin n)) (hlinks : ∀ i, (infos i).refIdx = cellNumbers (links i))
    (roots : Fin m → RootInfo) (rootAt : Fin m → Fin n)
    (hroots : ∀ k, (roots k).idx = (rootAt k).val) {bag : MyBagOfCells}
    (hcellCount : bag.cellCount = n) (hrootCount : bag.rootCount = m)
    (hcellList : bag.cellList = List.ofFn infos) (hrootList : bag.roots = List.ofFn roots)
    (e : Equiv.Perm (Fin n)) {gene : Evolve.Gene} (hgene : appliedPerm gene n = tableOf e) :
    bag.permute lib gene = .ok
      { bag with
        cellList := List.ofFn fun j => renumbered infos links e (e.symm j)
        roots := List.ofFn fun k => { roots k with idx := (e (rootAt k)).val }
        cells := indexCells lib (List.ofFn fun j => renumbered infos links e (e.symm j))
          bag.cells } := by
  have hcells := forRange_indexCells lib
    (List.ofFn fun j => renumbered infos links e (e.symm j)) bag.cells
  have hrun : (forRange 0 m (List.ofFn roots) fun k roots => do
      let root ← vecGet BocSite.roots roots k
      let idx ← vecGet BocSite.perm (tableOf e) root.idx
      vecSet BocSite.roots roots k { root with idx }) =
      .ok (List.ofFn fun k => { roots k with idx := (e (rootAt k)).val }) := by
    apply forRange_modify
    intro k v hv
    refine bind_eq_ok.mpr ⟨_, vecGet_ofFn _ v k, ?_⟩
    rw [hv, hroots]
    exact bind_eq_ok.mpr ⟨_, vecGet_tableOf e (rootAt k), vecSet_ofFn _ v k _⟩
  have hmerged := mergeSort_renumbered infos links e
  rw [List.length_ofFn] at hcells
  unfold MyBagOfCells.permute
  dsimp only
  rw [hcellCount, hrootCount, Int.toNat_natCast, Int.toNat_natCast, hgene, hcellList, hrootList,
    renumberCells_eq infos links hlinks, ok_bind, hrun, ok_bind, hmerged, hcells]
  rfl

end permuting

variable {bag : MyBagOfCells} {root : DataCell} {rootIdx : Nat}

/-- Renumbering turns an imported bag into one with the same cells and root. -/
theorem ImportedBag.permute (lib : CellLib) (h : ImportedBag bag root rootIdx)
    {gene : Evolve.Gene} (hgene : gene.perm = [] ∨ IsPerm bag.cellList.length gene.perm) :
    ∃ bag' rootIdx', bag.permute lib gene = .ok bag' ∧ ImportedBag bag' root rootIdx' ∧
      ∀ dcInfo' ∈ bag'.cellList, ∃ dcInfo ∈ bag.cellList, dcInfo'.dcRef = dcInfo.dcRef := by
  obtain ⟨n, infos, hlist⟩ : ∃ (n : Nat) (infos : Fin n → CellInfo), bag.cellList = List.ofFn infos :=
    ⟨_, bag.cellList.get, (List.ofFn_get _).symm⟩
  have hn : bag.cellList.length = n := by rw [hlist, List.length_ofFn]
  obtain ⟨e, he⟩ : ∃ e : Equiv.Perm (Fin n), appliedPerm gene n = tableOf e := by
    unfold appliedPerm
    rcases hgene with hnil | hperm
    · rw [hnil]
      exact (Evolve.isPerm_range n).exists_equiv
    · rw [hn] at hperm
      split
      · exact (Evolve.isPerm_range n).exists_equiv
      · exact hperm.exists_equiv
  have hrefs : ∀ i, List.Forall₂ (IsCellAt (List.ofFn infos)) (infos i).refIdx
      (infos i).dcRef.refs := fun i =>
    hlist ▸ h.refs (infos i) (by rw [hlist]; exact (List.mem_ofFn' _ _).mpr ⟨i, rfl⟩)
  obtain ⟨links, hlinks⟩ := exists_links hrefs
  have hroot := h.root
  rw [hlist] at hroot
  obtain ⟨rootAt, hrootAt, hrootCell⟩ := isCellAt_ofFn.mp hroot
  obtain rfl : rootIdx = rootAt.val := by omega
  let sorted := List.ofFn fun j => renumbered infos links e (e.symm j)
  have hcount : bag.cellCount = n := by rw [h.cellCount, hn]
  have hpermuted := @permute_ofFn n lib 1 infos links hlinks
    (fun _ => ⟨some root, rootAt.val⟩) (fun _ => rootAt) (fun _ => rfl) bag hcount h.rootCount hlist
    h.roots e gene he
  have hperm : sorted.Perm (List.ofFn (renumbered infos links e)) :=
    Equiv.Perm.ofFn_comp_perm e.symm (renumbered infos links e)
  have hcellAt : ∀ i cell, IsCellAt (List.ofFn infos) ((i : Fin n).val : Int) cell →
      IsCellAt sorted ((e i).val : Int) cell := by
    intro i cell hi
    obtain ⟨j, hj, rfl⟩ := isCellAt_ofFn.mp hi
    obtain rfl : i = j := Fin.ext (by omega)
    exact isCellAt_ofFn.mpr ⟨e i, rfl, by simp [renumbered]⟩
  have hmem : ∀ dcInfo' ∈ sorted, ∃ i, dcInfo' = renumbered infos links e i := by
    intro dcInfo' hinfo
    obtain ⟨j, rfl⟩ := (List.mem_ofFn' _ _).mp hinfo
    exact ⟨e.symm j, rfl⟩
  have hinfos : ∀ i, infos i ∈ bag.cellList := fun i => by
    rw [hlist]
    exact (List.mem_ofFn' _ _).mpr ⟨i, rfl⟩
  refine ⟨_, (e rootAt).val, hpermuted, ⟨?_, ?_, ?_, ?_, ?_, ?_, ?_, h.rootCount, rfl, ?_⟩, ?_⟩
  · rw [h.cellCount, hn]
    simp
  · have hlt := h.cellCount_lt
    rw [hn] at hlt
    simpa [sorted] using hlt
  · intro dcInfo' hinfo
    obtain ⟨i, rfl⟩ := hmem dcInfo' hinfo
    have hold := hrefs i
    rw [hlinks i, cellNumbers, List.forall₂_map_left_iff] at hold
    change List.Forall₂ (IsCellAt sorted) (cellNumbers ((links i).map e)) (infos i).dcRef.refs
    rw [cellNumbers, List.map_map, List.forall₂_map_left_iff]
    exact hold.imp fun x cell => hcellAt x cell
  · intro dcInfo' hinfo
    obtain ⟨i, rfl⟩ := hmem dcInfo' hinfo
    exact h.stored (infos i) (hinfos i)
  · intro j hj hne
    have hj' : j < n := by simpa [sorted] using hj
    have hother : (e.symm ⟨j, hj'⟩).val ≠ rootAt.val := by
      intro heq
      have hat := congrArg e (Fin.ext heq)
      rw [Equiv.apply_symm_apply] at hat
      exact hne (congrArg Fin.val hat)
    obtain ⟨dcInfo, hinfo, href⟩ := h.referenced _ (hn ▸ (e.symm ⟨j, hj'⟩).isLt) hother
    rw [hlist] at hinfo
    obtain ⟨i, rfl⟩ := (List.mem_ofFn' _ _).mp hinfo
    refine ⟨renumbered infos links e i, hperm.mem_iff.mpr ((List.mem_ofFn' _ _).mpr ⟨i, rfl⟩), ?_⟩
    rw [hlinks i] at href
    obtain ⟨x, hx, hxj⟩ := List.mem_map.mp href
    obtain rfl : x = e.symm ⟨j, hj'⟩ := Fin.ext (by omega)
    simp only [renumbered, cellNumbers, List.mem_map]
    exact ⟨⟨j, hj'⟩, ⟨_, hx, by simp⟩, rfl⟩
  · rw [h.dataBytes, hlist, (hperm.map _).sum_nat]
    simp only [List.map_ofFn]
    rfl
  · rw [h.intRefs, hlist, (hperm.map _).sum_nat]
    simp only [List.map_ofFn, Function.comp_def, renumbered, hlinks, cellNumbers_length,
      List.length_map]
  · exact hcellAt rootAt root hroot
  · intro dcInfo' hinfo
    obtain ⟨i, rfl⟩ := hmem dcInfo' hinfo
    exact ⟨infos i, hinfos i, rfl⟩

end TonCompress.Boc
