import TonCompress.Boc.Rebuild

/-! What a cell stands for: the tree of its data bits and references. Rebuilding a
cell from the leaves up, as the reader does in its own order, gives that tree
again. -/
namespace TonCompress.Boc
open TonCompress.Lib

/-- The unfolding of a cell, whatever bytes and cells it is stored in. -/
inductive CellTree where
  | node (bits : List Bool) (special : Bool) (refs : List CellTree)

mutual

def DataCell.unfold : DataCell → CellTree
  | ⟨bits, data, refs, special, _⟩ => .node ((bitsOf data).take bits) special (unfoldAll refs)

def unfoldAll : List DataCell → List CellTree
  | [] => []
  | cell :: cells => cell.unfold :: unfoldAll cells

end

mutual

/-- The cell that the library builds from the bits of `cell` and from its
references, built in the same way. -/
def DataCell.remake (lib : CellLib) : DataCell → Except String DataCell
  | ⟨bits, data, refs, special, _⟩ => do
      let refs ← remakeAll lib refs
      lib.finalizeNovmNothrow ((bitsOf data).take bits) refs special

def remakeAll (lib : CellLib) : List DataCell → Except String (List DataCell)
  | [] => .ok []
  | cell :: cells => do
      let cell ← cell.remake lib
      let cells ← remakeAll lib cells
      return cell :: cells

end

theorem unfoldAll_eq (cells : List DataCell) : unfoldAll cells = cells.map DataCell.unfold := by
  induction cells with
  | nil => rfl
  | cons cell cells ih => rw [unfoldAll, ih, List.map_cons]

theorem DataCell.unfold_eq (cell : DataCell) :
    cell.unfold = .node cell.bitString cell.isSpecial (cell.refs.map DataCell.unfold) := by
  cases cell
  rw [DataCell.unfold, unfoldAll_eq]
  rfl

theorem DataCell.remake_eq (lib : CellLib) (cell : DataCell) :
    cell.remake lib = remakeAll lib cell.refs >>= fun refs =>
      lib.finalizeNovmNothrow cell.bitString refs cell.isSpecial := by
  cases cell
  rw [DataCell.remake]
  rfl

theorem remakeAll_eq_ok {lib : CellLib} {cells cells' : List DataCell} :
    remakeAll lib cells = .ok cells' ↔
      List.Forall₂ (fun cell cell' => cell.remake lib = .ok cell') cells cells' := by
  induction cells generalizing cells' with
  | nil =>
    rw [remakeAll, List.forall₂_nil_left_iff]
    exact ⟨fun h => (Except.ok.inj h).symm, fun h => by rw [h]⟩
  | cons cell cells ih =>
    rw [remakeAll, bind_eq_ok, List.forall₂_cons_left_iff]
    constructor
    · rintro ⟨first, hfirst, h⟩
      obtain ⟨rest, hrest, h⟩ := bind_eq_ok.mp h
      exact ⟨first, rest, hfirst, ih.mp hrest, (Except.ok.inj h).symm⟩
    · rintro ⟨first, rest, hfirst, hrest, rfl⟩
      exact ⟨first, hfirst, bind_eq_ok.mpr ⟨rest, ih.mpr hrest, rfl⟩⟩

structure SameCell (cell cell' : DataCell) : Prop where
  unfold_eq : cell.unfold = cell'.unfold
  levelMask_eq : cell.levelMask = cell'.levelMask

/-- `finalize_novm_nothrow` builds a cell like `cell` again from its bits and
from references like its own. -/
def Rebuilds (lib : CellLib) (cell : DataCell) : Prop :=
  ∀ refs, List.Forall₂ SameCell refs cell.refs →
    ∃ cell', lib.finalizeNovmNothrow cell.bitString refs cell.isSpecial = .ok cell' ∧
      cell'.bitString = cell.bitString ∧ cell'.refs = refs ∧
      cell'.isSpecial = cell.isSpecial ∧ cell'.levelMask = cell.levelMask

/-- What the reader needs of a cell as it is stored: the sizes that the two
descriptor bytes have room for, and data that end in a completion tag when they
fill no whole number of bytes. -/
structure DataCell.Stored (cell : DataCell) : Prop where
  bits_le : cell.bits ≤ 1023
  refs_le : cell.refs.length ≤ 4
  levelMask_lt : cell.levelMask < 8
  data_length : cell.data.length = (cell.bits + 7) / 8
  tag : ∀ last, cell.data.getLast? = some last → cell.bits % 8 ≠ 0 →
    last.toNat % 2 ^ (8 - cell.bits % 8) = 2 ^ (7 - cell.bits % 8)

theorem SameCell.of_finalized {cell cell' : DataCell} {refs : List DataCell}
    (hrefs : List.Forall₂ SameCell refs cell.refs) (hbits : cell'.bitString = cell.bitString)
    (hrefs' : cell'.refs = refs) (hspecial : cell'.isSpecial = cell.isSpecial)
    (hmask : cell'.levelMask = cell.levelMask) : SameCell cell' cell := by
  refine ⟨?_, hmask⟩
  have hunfold : refs.map DataCell.unfold = cell.refs.map DataCell.unfold := by
    rw [← List.forall₂_eq_eq_eq, List.forall₂_map_left_iff, List.forall₂_map_right_iff]
    exact hrefs.imp fun _ _ hsame => hsame.unfold_eq
  rw [DataCell.unfold_eq, DataCell.unfold_eq, hbits, hspecial, hrefs', hunfold]

section graph
variable {n : Nat} {lib : CellLib} {refs : Fin n → List (Fin n)} {cellAt : Fin n → DataCell}
variable {create : Fin n → List DataCell → BocExec DataCell}

/-- A table of cells that refer to one another by position, together with a way
to create each of them from its references. -/
structure CellGraph (lib : CellLib) (refs : Fin n → List (Fin n)) (cellAt : Fin n → DataCell)
    (create : Fin n → List DataCell → BocExec DataCell) : Prop where
  refs_eq : ∀ idx, (refs idx).map cellAt = (cellAt idx).refs
  rebuilds : ∀ idx, Rebuilds lib (cellAt idx)
  create_eq : ∀ idx below cell',
    lib.finalizeNovmNothrow (cellAt idx).bitString below (cellAt idx).isSpecial = .ok cell' →
    cell'.isSpecial = (cellAt idx).isSpecial → cell'.levelMask = (cellAt idx).levelMask →
    create idx below = .ok cell'

/-- Cells are finite, so no table of them has a cycle. -/
theorem CellGraph.acyclic (h : CellGraph lib refs cellAt create) (idx : Fin n) :
    ¬ ReachesCycle refs idx := by
  apply not_reachesCycle_of_acc
  have hsmaller : ∀ y x, Refers refs x y → sizeOf (cellAt y) < sizeOf (cellAt x) := by
    intro y x hy
    have hmem : cellAt y ∈ (cellAt x).refs := by
      rw [← h.refs_eq]
      exact List.mem_map_of_mem hy
    have hlist := List.sizeOf_lt_of_mem hmem
    have hcell : sizeOf (cellAt x).refs < sizeOf (cellAt x) := by
      cases cellAt x
      simp only [DataCell.mk.sizeOf_spec]
      omega
    omega
  exact (Subrelation.wf (hsmaller _ _) (measure fun idx => sizeOf (cellAt idx)).wf).apply idx

theorem CellGraph.create_ok (h : CellGraph lib refs cellAt create) {idx : Fin n}
    {below : List DataCell}
    (hbelow : List.Forall₂ (fun x cell => SameCell cell (cellAt x) ∧
      (cellAt x).remake lib = .ok cell) (refs idx) below) :
    ∃ cell, create idx below = .ok cell ∧ SameCell cell (cellAt idx) ∧
      (cellAt idx).remake lib = .ok cell := by
  have hsame : List.Forall₂ SameCell below (cellAt idx).refs := by
    rw [← h.refs_eq, List.forall₂_map_right_iff]
    exact (hbelow.imp fun _ _ hboth => hboth.1).flip
  have hremade : remakeAll lib (cellAt idx).refs = .ok below := by
    rw [remakeAll_eq_ok, ← h.refs_eq, List.forall₂_map_left_iff]
    exact hbelow.imp fun _ _ hboth => hboth.2
  obtain ⟨cell, hcell, hbits, hrefs, hspecial, hmask⟩ := h.rebuilds idx below hsame
  refine ⟨cell, h.create_eq idx below cell hcell hspecial hmask,
    SameCell.of_finalized hsame hbits hrefs hspecial hmask, ?_⟩
  rw [DataCell.remake_eq, hremade]
  exact hcell

theorem forall₂_of_getElem? {α β : Type} {R : α → β → Prop} {xs : List α} {ys : List β}
    (hlength : ys.length = xs.length)
    (h : ∀ (k : Nat) x y, xs[k]? = some x → ys[k]? = some y → R x y) : List.Forall₂ R xs ys := by
  rw [List.forall₂_iff_get]
  refine ⟨hlength.symm, fun k hx hy => ?_⟩
  exact h k _ _ (List.getElem?_eq_getElem hx) (List.getElem?_eq_getElem hy)

theorem forall₂_getElem? {α β : Type} {R : α → β → Prop} {xs : List α} {ys : List β}
    (h : List.Forall₂ R xs ys) {k : Nat} {x : α} {y : β} (hx : xs[k]? = some x)
    (hy : ys[k]? = some y) : R x y := by
  obtain ⟨hkx, rfl⟩ := List.getElem?_eq_some_iff.mp hx
  obtain ⟨hky, rfl⟩ := List.getElem?_eq_some_iff.mp hy
  exact h.get hkx hky

theorem CellGraph.remade (h : CellGraph lib refs cellAt create) {idx : Fin n} {cell : DataCell}
    (hcell : Rebuilt refs create idx cell) :
    SameCell cell (cellAt idx) ∧ (cellAt idx).remake lib = .ok cell := by
  induction hcell with
  | @intro idx below cell length_eq _ created ih =>
    obtain ⟨cell', hcreate, hsame, hremake⟩ := h.create_ok (forall₂_of_getElem? length_eq ih)
    obtain rfl := Except.ok.inj (created.symm.trans hcreate)
    exact ⟨hsame, hremake⟩

theorem CellGraph.not_refused (h : CellGraph lib refs cellAt create) {order : List (Fin n)}
    {stop : Stop BocSite} : ¬ FirstRefused refs create order stop := by
  rintro ⟨pre, idx, post, -, -, below, hlength, hbelow, reason, hrefused, -⟩
  obtain ⟨cell, hcreate, -⟩ := h.create_ok (forall₂_of_getElem? hlength fun k x cell hx hcell =>
    h.remade (hbelow k x cell hx hcell))
  rw [hcreate] at hrefused
  cases hrefused

end graph

end TonCompress.Boc
