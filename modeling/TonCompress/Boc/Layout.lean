import TonCompress.Boc.Passes
import TonCompress.Boc.Permute
import Mathlib.Algebra.Order.BigOperators.Group.List

/-! The bytes that the writer lays out for an imported bag: the header, the
records of the cells from the last to the first, and their data in that order. -/
namespace TonCompress.Boc
open TonCompress.Lib MyBagOfCells

def cellMeta (n refByteSize : Nat) (dcInfo : CellInfo) : List UInt8 :=
  dcInfo.dcRef.getFirstTwoMeta false ++
    dcInfo.refIdx.flatMap fun refIdx => beBytes ((n : Int) - 1 - refIdx).toNat refByteSize

def cellData (dcInfo : CellInfo) : List UInt8 := dcInfo.dcRef.data

def flaggedHeader (flags n rs os dataSize rootIdx : Nat) : List UInt8 :=
  beBytes bocGeneric 4 ++ (beBytes flags 1 ++ (beBytes os 1 ++
    (beBytes n rs ++ (beBytes 1 rs ++ (beBytes 0 rs ++
      (beBytes dataSize os ++ beBytes (n - 1 - rootIdx) rs))))))

@[simp] theorem flaggedHeader_length (flags n rs os dataSize rootIdx : Nat) :
    (flaggedHeader flags n rs os dataSize rootIdx).length = 6 + 3 * rs + os + rs := by
  simp [flaggedHeader]
  omega

def headerBytes (n refByteSize offsetByteSize dataSize rootIdx : Nat) : List UInt8 :=
  beBytes bocGeneric 4 ++ (beBytes refByteSize 1 ++ (beBytes offsetByteSize 1 ++
    (beBytes n refByteSize ++ (beBytes 1 refByteSize ++ (beBytes 0 refByteSize ++
      (beBytes dataSize offsetByteSize ++ beBytes (n - 1 - rootIdx) refByteSize))))))

def recordSection (refByteSize : Nat) (cellList : List CellInfo) : List UInt8 :=
  cellList.reverse.flatMap (cellMeta cellList.length refByteSize)

def dataSection (cellList : List CellInfo) : List UInt8 := cellList.reverse.flatMap cellData

def sectionsSize (bag : MyBagOfCells) (refByteSize : Nat) : Nat :=
  bag.dataBytes + bag.intRefs.toNat * refByteSize

def bagHead (crc : Bool) (bag : MyBagOfCells) (rootIdx rs os : Nat) : List UInt8 :=
  flaggedHeader (rs + 64 * crc.toNat) bag.cellList.length rs os (sectionsSize bag rs) rootIdx ++
    recordSection rs bag.cellList

/-- The checksum of `bytes` as `deserialize` expects it behind them. -/
def crcBytes (lib : CellLib) (bytes : List UInt8) : List UInt8 :=
  (beBytes (lib.crc32c bytes).toNat 4).reverse

@[simp] theorem crcBytes_length (lib : CellLib) (bytes : List UInt8) :
    (crcBytes lib bytes).length = 4 := by
  simp [crcBytes]

structure Widths (bag : MyBagOfCells) (refByteSize offsetByteSize : Nat) : Prop where
  refByteSize_pos : 1 ≤ refByteSize
  refByteSize_le : refByteSize ≤ 4
  cellCount_lt : bag.cellList.length < 256 ^ refByteSize
  offsetByteSize_pos : 1 ≤ offsetByteSize
  offsetByteSize_le : offsetByteSize ≤ 8
  sectionsSize_lt : sectionsSize bag refByteSize < 256 ^ offsetByteSize

theorem countBytes_spec {value fuel n k : Nat} (hvalue : value < 256 ^ k) (hn : n ≤ k)
    (hfuel : k ≤ n + fuel) :
    n ≤ countBytes value fuel n ∧ countBytes value fuel n ≤ k ∧
      value < 256 ^ countBytes value fuel n := by
  induction fuel generalizing n with
  | zero =>
    obtain rfl : n = k := by omega
    exact ⟨le_rfl, le_rfl, hvalue⟩
  | succ fuel ih =>
    unfold countBytes
    split
    · rename_i hlarge
      have hne : n ≠ k := by
        rintro rfl
        omega
      obtain ⟨hge, hle, hlt⟩ := @ih (n + 1) (by omega) (by omega)
      exact ⟨by omega, hle, hlt⟩
    · exact ⟨le_rfl, hn, by omega⟩

theorem countBytes_pos {value fuel : Nat} (hvalue : 1 ≤ value)
    (h : value < 256 ^ countBytes value fuel 0) : 1 ≤ countBytes value fuel 0 := by
  by_contra hzero
  rw [show countBytes value fuel 0 = 0 by omega, pow_zero] at h
  omega

theorem sum_map_le {α : Type} {f : α → Nat} {bound : Nat} {list : List α}
    (h : ∀ x ∈ list, f x ≤ bound) : (list.map f).sum ≤ list.length * bound := by
  simpa using List.sum_le_card_nsmul (list.map f) bound (by simpa using h)

section imported
variable {bag : MyBagOfCells} {root : DataCell} {rootIdx mode : Nat}

theorem ImportedBag.rootIdx_lt (h : ImportedBag bag root rootIdx) :
    rootIdx < bag.cellList.length := by
  obtain ⟨i, hi, dcInfo, hget, -⟩ := h.root
  obtain rfl : rootIdx = i := by omega
  exact (List.getElem?_eq_some_iff.mp hget).1

theorem ImportedBag.refs_length (h : ImportedBag bag root rootIdx) {dcInfo : CellInfo}
    (hinfo : dcInfo ∈ bag.cellList) : dcInfo.refIdx.length = dcInfo.dcRef.refs.length :=
  (h.refs dcInfo hinfo).length_eq

theorem ImportedBag.refIdx_range (h : ImportedBag bag root rootIdx) {dcInfo : CellInfo}
    (hinfo : dcInfo ∈ bag.cellList) {refIdx : Int} (href : refIdx ∈ dcInfo.refIdx) :
    0 ≤ refIdx ∧ refIdx < bag.cellList.length := by
  obtain ⟨k, hk, rfl⟩ := List.getElem_of_mem href
  obtain ⟨i, hi, _, hget, -⟩ :=
    (h.refs dcInfo hinfo).get hk (h.refs_length hinfo ▸ hk)
  have hlt := (List.getElem?_eq_some_iff.mp hget).1
  rw [List.get_eq_getElem] at hi
  dsimp only at hi
  omega

theorem ImportedBag.intRefs_le (h : ImportedBag bag root rootIdx) :
    bag.intRefs.toNat ≤ bag.cellList.length * 4 := by
  rw [h.intRefs, Int.toNat_natCast]
  apply sum_map_le
  intro dcInfo hinfo
  rw [h.refs_length hinfo]
  exact (h.stored dcInfo hinfo).refs_le

/-- Every cell but the root is referenced, so there are as many references. -/
theorem ImportedBag.intRefs_ge (h : ImportedBag bag root rootIdx) :
    bag.cellList.length ≤ bag.intRefs.toNat + 1 := by
  let others := ((List.range bag.cellList.length).erase rootIdx).map Int.ofNat
  let targets := bag.cellList.flatMap fun dcInfo => dcInfo.refIdx
  have hsub : others ⊆ targets := by
    intro x hx
    obtain ⟨i, hi, rfl⟩ := List.mem_map.mp hx
    rw [List.Nodup.mem_erase_iff List.nodup_range, List.mem_range] at hi
    obtain ⟨dcInfo, hinfo, href⟩ := h.referenced i hi.2 hi.1
    exact List.mem_flatMap.mpr ⟨dcInfo, hinfo, href⟩
  have hnodup : others.Nodup := (List.nodup_range.erase _).map fun _ _ => Int.ofNat.inj
  have hle := (hnodup.subperm hsub).length_le
  have hothers : others.length = bag.cellList.length - 1 := by
    simp only [others, List.length_map]
    rw [List.length_erase_of_mem (List.mem_range.mpr h.rootIdx_lt), List.length_range]
  have htargets : targets.length = bag.intRefs.toNat := by
    rw [h.intRefs, Int.toNat_natCast]
    exact List.length_flatMap
  omega

theorem ImportedBag.dataBytes_le (h : ImportedBag bag root rootIdx) :
    bag.dataBytes ≤ bag.cellList.length * 130 := by
  rw [h.dataBytes]
  apply sum_map_le
  intro dcInfo hinfo
  have hbits := (h.stored dcInfo hinfo).bits_le
  omega

theorem ImportedBag.dataBytes_ge (h : ImportedBag bag root rootIdx) :
    bag.cellList.length * 2 ≤ bag.dataBytes := by
  rw [h.dataBytes]
  have hle := List.card_nsmul_le_sum (bag.cellList.map fun dcInfo =>
    2 + (dcInfo.dcRef.bits + 7) / 8) 2
  rw [List.length_map] at hle
  apply hle
  simp

theorem ImportedBag.sectionsSize_lt (h : ImportedBag bag root rootIdx) {rs : Nat} (hrs : rs ≤ 4) :
    sectionsSize bag rs < 256 ^ 5 := by
  have hcells := h.cellCount_lt
  have hdata := h.dataBytes_le
  have hmul : bag.intRefs.toNat * rs ≤ bag.cellList.length * 4 * 4 :=
    Nat.mul_le_mul h.intRefs_le hrs
  unfold sectionsSize
  omega

structure PlainMode (mode : Nat) : Prop where
  topHash_off : withTopHash mode = false
  intHashes_off : withIntHashes mode = false
  index_off : withIndex mode = false
  cacheBits_off : withCacheBits mode = false

theorem plainMode_zero : PlainMode 0 := by constructor <;> decide

theorem plainMode_crc : PlainMode 2 := by constructor <;> decide

theorem PlainMode.withHash (hmode : PlainMode mode) (dcInfo : CellInfo) :
    dcInfo.withHash mode = false := by
  simp [CellInfo.withHash, hmode.topHash_off, hmode.intHashes_off]

theorem ImportedBag.computeSizes (h : ImportedBag bag root rootIdx) (hmode : PlainMode mode) :
    ∃ rs os, Widths bag rs os ∧ bag.computeSizes mode = (sectionsSize bag rs, rs, os) := by
  have hcells := h.cellCount_lt
  have hroot := h.rootIdx_lt
  have hcount : bag.cellCount.toNat = bag.cellList.length := by rw [h.cellCount]; rfl
  let rs := countBytes bag.cellList.length 9 0
  obtain ⟨-, hrs, hrefs⟩ := @countBytes_spec bag.cellList.length 9 0 4 (by omega) (by omega)
    (by omega)
  have hrs_pos : 1 ≤ rs := countBytes_pos (by omega) hrefs
  have hdata_ge := h.dataBytes_ge
  have hsize : sectionsSize bag rs < 256 ^ 5 := h.sectionsSize_lt hrs
  let os := countBytes (sectionsSize bag rs) 9 0
  obtain ⟨-, hos, hoffs⟩ := countBytes_spec hsize (show 0 ≤ 5 by omega) (show 5 ≤ 0 + 9 by omega)
  have hos_pos : 1 ≤ os := countBytes_pos (by unfold sectionsSize; omega) hoffs
  refine ⟨rs, os, ⟨hrs_pos, hrs, hrefs, hos_pos, by omega, hoffs⟩, ?_⟩
  have hhashes : bag.countedHashes mode = 0 := by
    simp [countedHashes, hmode.topHash_off, hmode.intHashes_off]
  have hadjusted : asUint64 (bag.dataBytes + bag.intRefs * rs) = sectionsSize bag rs := by
    have hcast : (bag.dataBytes : Int) + bag.intRefs * rs = (sectionsSize bag rs : Nat) := by
      rw [sectionsSize, h.intRefs, Int.toNat_natCast]
      push_cast
      rfl
    rw [hcast]
    exact asUint64_natCast (by omega)
  unfold MyBagOfCells.computeSizes
  rw [if_neg (by rw [h.rootCount]; omega), hcount]
  simp only [hhashes, hmode.cacheBits_off, Bool.false_eq_true, if_false, zero_mul, Int.zero_bmod,
    add_zero]
  rw [hadjusted]
  exact if_neg (show ¬ (rs > 4 ∨ os > 8) by omega)

theorem serialize_stored (lib : CellLib) {cell : DataCell} (h : cell.Stored) {buff : List UInt8}
    (hbuff : 256 ≤ buff.length) {s : Nat} {buf : List UInt8}
    (hout : cell.serialize lib buff false false = (s, buf)) : buf.take s = cell.data := by
  have hbits := h.bits_le
  have hlen := h.data_length
  unfold DataCell.serialize at hout
  have hsize : ¬ cell.getSerializedSize false > buff.length := by
    unfold DataCell.getSerializedSize
    rw [if_neg (by simp)]
    omega
  rw [if_neg hsize] at hout
  obtain ⟨rfl, rfl⟩ := Prod.mk.inj hout
  simp only [DataCell.getSerializedSize, Bool.false_eq_true, if_false, writeAt]
  rw [List.take_of_length_le (show cell.data.length ≤ _ by omega)]
  have hlast : (cell.bits + 23) / 8 - 2 = cell.data.length := by omega
  simp [hlast]

theorem cellMeta_length (n refByteSize : Nat) (dcInfo : CellInfo) :
    (cellMeta n refByteSize dcInfo).length = 2 + dcInfo.refIdx.length * refByteSize := by
  simp [cellMeta, DataCell.getFirstTwoMeta, List.length_flatMap]
  omega

theorem flatMap_cellMeta_length (n refByteSize : Nat) {cells : List CellInfo}
    (h : ∀ dcInfo ∈ cells, dcInfo.dcRef.Stored) :
    (cells.flatMap (cellMeta n refByteSize)).length + (cells.flatMap cellData).length =
      (cells.map fun dcInfo => 2 + (dcInfo.dcRef.bits + 7) / 8).sum +
        (cells.map fun dcInfo => dcInfo.refIdx.length).sum * refByteSize := by
  induction cells with
  | nil => simp
  | cons dcInfo cells ih =>
    have hrest := ih fun x hx => h x (List.mem_cons_of_mem _ hx)
    have hlen := (h dcInfo List.mem_cons_self).data_length
    simp only [List.flatMap_cons, List.length_append, List.map_cons, List.sum_cons,
      cellMeta_length, cellData, Nat.add_mul] at hrest ⊢
    omega

theorem ImportedBag.sections_length (h : ImportedBag bag root rootIdx) (rs : Nat) :
    (recordSection rs bag.cellList).length + (dataSection bag.cellList).length =
      sectionsSize bag rs := by
  have hstored : ∀ dcInfo ∈ bag.cellList.reverse, dcInfo.dcRef.Stored := fun dcInfo hmem =>
    h.stored dcInfo (List.mem_reverse.mp hmem)
  have hperm := List.reverse_perm bag.cellList
  rw [recordSection, dataSection, flatMap_cellMeta_length _ rs hstored, sectionsSize, h.dataBytes,
    h.intRefs, Int.toNat_natCast, (hperm.map _).sum_nat, (hperm.map _).sum_nat]

@[simp] theorem headerBytes_length (n rs os dataSize rootIdx : Nat) :
    (headerBytes n rs os dataSize rootIdx).length = 6 + 3 * rs + os + rs :=
  flaggedHeader_length rs n rs os dataSize rootIdx

theorem ImportedBag.headBytes_eq (h : ImportedBag bag root rootIdx) (hmode : PlainMode mode)
    (rs os : Nat) :
    headBytes { bag with info := filledInfo bag mode (sectionsSize bag rs) rs os } mode =
      bagHead (withCrc32c mode) bag rootIdx rs os := by
  have hflag : flagByte (filledInfo bag mode (sectionsSize bag rs) rs os) =
      rs + 64 * (withCrc32c mode).toNat := by
    simp only [flagByte, filledInfo, hmode.index_off, hmode.cacheBits_off]
    cases withCrc32c mode <;> simp [Nat.add_comm]
  have hcount : bag.cellCount.toNat = bag.cellList.length := by
    rw [h.cellCount]
    rfl
  have hroots : (bag.roots.flatMap fun root => beBytes (bag.cellCount - 1 - root.idx).toNat rs) =
      beBytes (bag.cellList.length - 1 - rootIdx) rs := by
    rw [h.roots, h.cellCount, List.flatMap_singleton]
    congr 1
    dsimp only
    omega
  have hrecord : cellRecord mode bag.cellList.length rs = cellMeta bag.cellList.length rs := by
    funext dcInfo
    rw [cellRecord, hmode.withHash]
    rfl
  have hindex : (filledInfo bag mode (sectionsSize bag rs) rs os).hasIndex = false :=
    hmode.index_off
  unfold headBytes
  dsimp only
  rw [hflag, hindex, if_neg (by simp)]
  dsimp only [filledInfo]
  rw [hcount, h.rootCount, hroots, hrecord, Int.toNat_one, List.nil_append]
  simp only [bagHead, flaggedHeader, List.append_assoc]
  rfl

theorem ImportedBag.cellBytes_eq (lib : CellLib) (h : ImportedBag bag root rootIdx)
    (hmode : PlainMode mode) (info : Info) :
    cellBytes lib { bag with info } mode = dataSection bag.cellList := by
  unfold cellBytes dataSection
  apply List.flatMap_congr
  intro dcInfo hinfo
  have hstored := h.stored dcInfo (List.mem_reverse.mp hinfo)
  rw [hmode.withHash]
  generalize hbuff : List.replicate 256 (0 : UInt8) = buff
  exact serialize_stored lib hstored (by rw [← hbuff, List.length_replicate]) rfl

theorem ImportedBag.serializeToSlice_plain (lib : CellLib) (h : ImportedBag bag root rootIdx)
    (hmode : PlainMode mode) :
    ∃ rs os, Widths bag rs os ∧ bag.computeSizes mode = (sectionsSize bag rs, rs, os) ∧
      bag.serializeToSlice lib mode = .ok (bagHead (withCrc32c mode) bag rootIdx rs os ++
        ((if withCrc32c mode then crcBytes lib (bagHead (withCrc32c mode) bag rootIdx rs os)
          else []) ++ dataSection bag.cellList)) := by
  obtain ⟨rs, os, hwidths, hsizes⟩ := h.computeSizes hmode
  have hpos : sectionsSize bag rs ≠ 0 := by
    have hge := h.dataBytes_ge
    have hroot := h.rootIdx_lt
    unfold sectionsSize
    omega
  have hflags : ¬ (withCacheBits mode ∧ ¬ withIndex mode) := by
    rw [hmode.cacheBits_off]
    simp
  let filled : MyBagOfCells := { bag with info := filledInfo bag mode (sectionsSize bag rs) rs os }
  have hestimate := estimate_eq hflags hsizes hpos
  have hagain : filled.estimateSerializedSize mode = (filled.info.totalSize, filled) :=
    @estimate_eq filled mode (sectionsSize bag rs) rs os hflags hsizes hpos
  have hwritten : writtenBytes lib filled mode = bagHead (withCrc32c mode) bag rootIdx rs os ++
      ((if withCrc32c mode then crcBytes lib (bagHead (withCrc32c mode) bag rootIdx rs os)
        else []) ++ dataSection bag.cellList) := by
    rw [writtenBytes, h.headBytes_eq hmode, h.cellBytes_eq lib hmode]
    rfl
  have htotal : (writtenBytes lib filled mode).length = filled.info.totalSize := by
    have hsections := h.sections_length rs
    have hsize := h.sectionsSize_lt hwidths.refByteSize_le
    have hrs := hwidths.refByteSize_le
    have hos := hwidths.offsetByteSize_le
    have htotal : filled.info.totalSize = (6 + 3 * rs + os + bag.rootCount.toNat * rs +
        (if withIndex mode then bag.cellCount.toNat * os else 0) + sectionsSize bag rs +
        if withCrc32c mode then 4 else 0) % 2 ^ 64 := rfl
    rw [htotal, hwritten, hmode.index_off, h.rootCount]
    cases withCrc32c mode
    · simp [bagHead]
      omega
    · simp [bagHead]
      omega
  obtain ⟨writer, hmeta, hdata⟩ := stores_written lib (show filled.cellCount = _ from h.cellCount)
    mode ⟨hwidths.refByteSize_pos, le_trans hwidths.refByteSize_le (by decide)⟩ htotal.le
  have hnonzero : (writtenBytes lib filled mode).length ≠ 0 := by
    rw [hwritten, bagHead, List.append_assoc, List.length_append, flaggedHeader_length]
    omega
  refine ⟨rs, os, hwidths, hsizes, ?_⟩
  rw [← hwritten]
  unfold MyBagOfCells.serializeToSlice
  rw [hestimate]
  dsimp only
  rw [if_neg (by rw [htotal] at hnonzero; exact hnonzero), hagain]
  dsimp only
  rw [hmeta, ok_bind, hdata, ok_bind]
  exact if_pos htotal

theorem ImportedBag.serializeToSlice (lib : CellLib) (h : ImportedBag bag root rootIdx) :
    ∃ rs os, Widths bag rs os ∧ bag.serializeToSlice lib 0 =
      .ok (headerBytes bag.cellList.length rs os (sectionsSize bag rs) rootIdx ++
        (recordSection rs bag.cellList ++ dataSection bag.cellList)) := by
  obtain ⟨rs, os, hwidths, -, hbytes⟩ := h.serializeToSlice_plain lib plainMode_zero
  refine ⟨rs, os, hwidths, ?_⟩
  rw [← List.append_assoc]
  exact hbytes

end imported

end TonCompress.Boc
