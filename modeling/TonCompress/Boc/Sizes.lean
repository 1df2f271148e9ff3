import TonCompress.Boc.Layout

/-! How many bytes the two passes of the writer store, against the estimate. -/
namespace TonCompress.Boc
open TonCompress.Lib MyBagOfCells

section estimate
variable {lib : CellLib} {bag : MyBagOfCells} {mode : Nat}

theorem DataCell.Stored.size_le {cell : DataCell} (h : cell.Stored) (withHashes : Bool) :
    cell.getSerializedSize withHashes ≤ 266 := by
  have hbits := h.bits_le
  have hfour : ∀ mask < 8, getHashesCount mask ≤ 4 := by decide
  have hcount := hfour _ h.levelMask_lt
  unfold DataCell.getSerializedSize
  simp only [hashBytes, depthBytes]
  split <;> omega

end estimate

end TonCompress.Boc
