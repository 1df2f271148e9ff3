import TonCompress.Boc.Decode

/-! A bag that is renumbered, written and read back still holds its root. -/
namespace TonCompress.Boc
open TonCompress.Lib MyBagOfCells
open Evolve (IsPerm)

section decoding
variable {bag : MyBagOfCells} {root : DataCell} {rootIdx rs os : Nat} {lib : CellLib}
variable {crc : Bool} {cellBytes tail : List UInt8}

def bagBytes (bag : MyBagOfCells) (rootIdx rs os : Nat) : List UInt8 :=
  headerBytes bag.cellList.length rs os (sectionsSize bag rs) rootIdx ++
    (recordSection rs bag.cellList ++ dataSection bag.cellList)

theorem bagBytes_eq (bag : MyBagOfCells) (rootIdx rs os : Nat) :
    bagHead false bag rootIdx rs os ++ (dataSection bag.cellList ++ []) =
      bagBytes bag rootIdx rs os := by
  rw [List.append_nil, bagHead, List.append_assoc]
  rfl

abbrev bagInfo (crc : Bool) (bag : MyBagOfCells) (rs os : Nat) : Info :=
  checkedInfo crc bag.cellList.length rs os (sectionsSize bag rs)

theorem ImportedBag.headerSizes (h : ImportedBag bag root rootIdx) (hwidths : Widths bag rs os) :
    HeaderSizes bag.cellList.length rs os (sectionsSize bag rs) := by
  have hroot := h.rootIdx_lt
  have hcount := h.cellCount_lt
  have hdata := h.dataBytes_le
  have hdata' := h.dataBytes_ge
  have hrs := hwidths.refByteSize_le
  have hmul : bag.intRefs.toNat * rs ≤ bag.cellList.length * 4 * 4 :=
    Nat.mul_le_mul h.intRefs_le hrs
  have hmul' : bag.cellList.length * rs ≤ (bag.intRefs.toNat + 1) * rs :=
    Nat.mul_le_mul_right _ h.intRefs_ge
  rw [Nat.add_mul, Nat.one_mul] at hmul'
  refine ⟨by omega, hcount, hwidths.refByteSize_pos, hrs, hwidths.cellCount_lt,
    hwidths.offsetByteSize_pos, hwidths.offsetByteSize_le, hwidths.sectionsSize_lt, ?_, ?_, ?_⟩
  · unfold sectionsSize
    omega
  · unfold sectionsSize
    omega
  · unfold sectionsSize
    rw [Nat.mul_add]
    omega

theorem ImportedBag.rootIdx_read (h : ImportedBag bag root rootIdx) (hwidths : Widths bag rs os)
    (crc : Bool) (cellBytes tail : List UInt8) :
    (bagInfo crc bag rs os).rootIdx
        (Slice.ofBytes (bagHead crc bag rootIdx rs os ++ (cellBytes ++ tail))) 0 =
      (bag.cellList.length - 1 - rootIdx : Nat) := by
  have hcount := h.cellCount_lt
  have hfits := hwidths.cellCount_lt
  let n := bag.cellList.length
  let fields := beBytes bocGeneric 4 ++ (beBytes (rs + 64 * crc.toNat) 1 ++ (beBytes os 1 ++
    (beBytes n rs ++ (beBytes 1 rs ++ (beBytes 0 rs ++ beBytes (sectionsSize bag rs) os)))))
  have hbytes : bagHead crc bag rootIdx rs os ++ (cellBytes ++ tail) =
      fields ++ (beBytes (n - 1 - rootIdx) rs ++
        (recordSection rs bag.cellList ++ (cellBytes ++ tail))) := by
    simp only [bagHead, flaggedHeader, fields, n, List.append_assoc]
  have hfields : fields.length = 6 + 3 * rs + os := by
    simp [fields]
    omega
  have hroots : (bagInfo crc bag rs os).hasRoots = true := rfl
  unfold Info.rootIdx
  rw [if_pos hroots, Slice.ofBytes_mem, hbytes, Nat.zero_mul, Nat.add_zero]
  change asInt32 (beValue ((List.drop (6 + 3 * rs + os) _).take rs)) = _
  rw [List.drop_left' hfields, List.take_left' (beBytes_length _ _), beValue_beBytes (by omega),
    asInt32_of_lt (by omega)]

/-- A buffer with the head of an imported bag, as many bytes of cell data as the
bag has, and room for the checksum. -/
structure BagBuffer (bag : MyBagOfCells) (rootIdx rs os : Nat) (crc : Bool)
    (cellBytes tail : List UInt8) : Prop where
  cellBytes_length : cellBytes.length = (dataSection bag.cellList).length
  tail_length : tail.length = if crc then 4 else 0

section buffer
variable (h : ImportedBag bag root rootIdx) (hbuffer : BagBuffer bag rootIdx rs os crc cellBytes tail)
include h hbuffer

theorem BagBuffer.length :
    (bagHead crc bag rootIdx rs os ++ (cellBytes ++ tail)).length =
      6 + 3 * rs + os + rs + sectionsSize bag rs + if crc then 4 else 0 := by
  rw [List.length_append, List.length_append, bagHead, List.length_append, flaggedHeader_length,
    hbuffer.cellBytes_length, hbuffer.tail_length, ← h.sections_length]
  omega

theorem BagBuffer.parsed (hwidths : Widths bag rs os) :
    Parsed (Slice.ofBytes (bagHead crc bag rootIdx rs os ++ (cellBytes ++ tail)))
      (bagHead crc bag rootIdx rs os ++ (cellBytes ++ tail)).length (bagInfo crc bag rs os) := by
  have hlength := hbuffer.length h
  refine ⟨?_, by omega, le_rfl⟩
  rw [hlength, bagHead, List.append_assoc]
  exact parseSerializedHeader_written (h.headerSizes hwidths) crc

theorem BagBuffer.scanned (hwidths : Widths bag rs os) :
    ∃ (records : List Record) (refs : Fin (bagInfo crc bag rs os).cellCount.toNat →
        List (Fin (bagInfo crc bag rs os).cellCount.toNat)),
      scanRecords rs bag.cellList.length ((bagInfo crc bag rs os).cellsOf
        (Slice.ofBytes (bagHead crc bag rootIdx rs os ++ (cellBytes ++ tail)))) = .ok records ∧
      List.Forall₂ (RecordOf bag.cellList.length rs) bag.cellList.reverse records ∧
      RecordGraph rs records refs ∧
      ((bagInfo crc bag rs os).cellDataOf
        (Slice.ofBytes (bagHead crc bag rootIdx rs os ++ (cellBytes ++ tail))) records).mem =
          cellBytes ++ tail ∧
      ((bagInfo crc bag rs os).cellDataOf
        (Slice.ofBytes (bagHead crc bag rootIdx rs os ++ (cellBytes ++ tail))) records).len =
          cellBytes.length := by
  have hlength := hbuffer.length h
  have hsections := h.sections_length rs
  have hdata := hbuffer.cellBytes_length
  have hheader := flaggedHeader_length (rs + 64 * crc.toNat) bag.cellList.length rs os
    (sectionsSize bag rs) rootIdx
  have hbytes : bagHead crc bag rootIdx rs os ++ (cellBytes ++ tail) =
      flaggedHeader (rs + 64 * crc.toNat) bag.cellList.length rs os (sectionsSize bag rs)
        rootIdx ++ (recordSection rs bag.cellList ++ (cellBytes ++ tail)) := by
    rw [bagHead, List.append_assoc]
  have hcellsMem : ((bagInfo crc bag rs os).cellsOf
      (Slice.ofBytes (bagHead crc bag rootIdx rs os ++ (cellBytes ++ tail)))).mem =
      bag.cellList.reverse.flatMap (cellMeta bag.cellList.length rs) ++ (cellBytes ++ tail) := by
    rw [hbytes]
    exact List.drop_left' hheader
  have hcellsLen : ((bagInfo crc bag rs os).cellsOf
      (Slice.ofBytes (bagHead crc bag rootIdx rs os ++ (cellBytes ++ tail)))).len =
      sectionsSize bag rs := by
    change min (sectionsSize bag rs) (_ - (6 + 3 * rs + os + rs)) = _
    rw [Slice.ofBytes_len, hlength]
    omega
  obtain ⟨records, hscan, hrecords⟩ := scanRecords_written
    (fun dcInfo hinfo => ⟨h.stored dcInfo (List.mem_reverse.mp hinfo),
      h.refs_length (List.mem_reverse.mp hinfo)⟩) hcellsMem
    (by rw [hcellsLen, ← hsections]; exact Nat.le_add_right _ _)
  have hcount : records.length = bag.cellList.length := by
    rw [← hrecords.length_eq, List.length_reverse]
  have hrange : RefsInRange rs bag.cellList.length records := by
    intro record hrecord ref href
    obtain ⟨k, hk, rfl⟩ := List.getElem_of_mem hrecord
    have hk' : k < bag.cellList.reverse.length := by
      rw [List.length_reverse]
      omega
    have hof := forall₂_getElem? hrecords (List.getElem?_eq_getElem hk')
      (List.getElem?_eq_getElem hk)
    have hinfo : bag.cellList.reverse[k] ∈ bag.cellList :=
      List.mem_reverse.mp (List.getElem_mem hk')
    rw [hof.recordRefs (h.refs_length hinfo) h.cellCount_lt hwidths.cellCount_lt
      fun _ => h.refIdx_range hinfo] at href
    obtain ⟨refIdx, hmem, rfl⟩ := List.mem_map.mp href
    have hbounds := h.refIdx_range hinfo hmem
    omega
  rw [List.length_reverse] at hscan
  obtain ⟨refs, hgraph⟩ := hrange.exists_graph hcount
  have hmeta : recordsLength records = (recordSection rs bag.cellList).length :=
    recordsLength_written hrecords fun dcInfo hinfo => h.refs_length (List.mem_reverse.mp hinfo)
  refine ⟨records, refs, hscan, hrecords, hgraph, ?_, ?_⟩
  · unfold Info.cellDataOf
    rw [Slice.take_mem, Slice.drop_mem, Slice.ofBytes_mem, hmeta]
    apply List.drop_left'
    rw [bagHead, List.length_append, hheader]
    rfl
  · unfold Info.cellDataOf
    simp only [Slice.take_len, Slice.drop_len, Slice.ofBytes_len, hlength, hmeta]
    change min (sectionsSize bag rs - _) (_ - (6 + 3 * rs + os + rs + _)) = _
    omega

end buffer

/-- The cells of a bag under the numbers that the writer gives them, from the last
to the first. -/
structure Numbered {n : Nat} (bag : MyBagOfCells) (rs : Nat) (records : List Record)
    (refs : Fin n → List (Fin n)) (infoAt : Fin n → CellInfo) : Prop where
  infoAt_eq : ∀ idx, bag.cellList.reverse[idx.val]? = some (infoAt idx)
  record : ∀ idx, ∃ record, records[idx.val]? = some record ∧
    RecordOf bag.cellList.length rs (infoAt idx) record
  refIdx_eq : ∀ idx, (infoAt idx).refIdx = (refs idx).map fun x => (n : Int) - 1 - x.val
  refs_eq : ∀ idx, (refs idx).map (fun x => (infoAt x).dcRef) = (infoAt idx).dcRef.refs

section numbering
variable {n : Nat} {records : List Record} {refs : Fin n → List (Fin n)} {infoAt : Fin n → CellInfo}

theorem Numbered.mem (hnum : Numbered bag rs records refs infoAt) (idx : Fin n) :
    infoAt idx ∈ bag.cellList :=
  List.mem_reverse.mp (List.mem_of_getElem? (hnum.infoAt_eq idx))

theorem Numbered.getElem? (hnum : Numbered bag rs records refs infoAt)
    (hn : bag.cellList.length = n) (idx : Fin n) :
    bag.cellList[n - 1 - idx.val]? = some (infoAt idx) := by
  have hget := hnum.infoAt_eq idx
  rwa [List.getElem?_reverse (by omega), hn] at hget

theorem ImportedBag.numbered (h : ImportedBag bag root rootIdx) (hwidths : Widths bag rs os)
    (hn : bag.cellList.length = n)
    (hrecords : List.Forall₂ (RecordOf bag.cellList.length rs) bag.cellList.reverse records)
    (hgraph : RecordGraph rs records refs) :
    ∃ infoAt, Numbered bag rs records refs infoAt := by
  have hcell : ∀ idx : Fin n, ∃ dcInfo, bag.cellList.reverse[idx.val]? = some dcInfo := by
    intro idx
    exact ⟨_, List.getElem?_eq_getElem (by rw [List.length_reverse]; omega)⟩
  choose infoAt hinfoAt using hcell
  have hmemAt : ∀ idx, infoAt idx ∈ bag.cellList := fun idx =>
    List.mem_reverse.mp (List.mem_of_getElem? (hinfoAt idx))
  have hat : ∀ idx : Fin n, bag.cellList[n - 1 - idx.val]? = some (infoAt idx) := by
    intro idx
    have hget := hinfoAt idx
    rwa [List.getElem?_reverse (by omega), hn] at hget
  have hrecordAt : ∀ idx : Fin n, ∃ record, records[idx.val]? = some record ∧
      RecordOf bag.cellList.length rs (infoAt idx) record ∧
      recordRefs rs record = cellNumbers (refs idx) := by
    intro idx
    obtain ⟨record, hrecord, hrefs⟩ := hgraph idx
    exact ⟨record, hrecord, forall₂_getElem? hrecords (hinfoAt idx) hrecord, hrefs⟩
  have hback : ∀ idx, (infoAt idx).refIdx = (refs idx).map fun x => (n : Int) - 1 - x.val := by
    intro idx
    obtain ⟨record, -, hof, hrefs⟩ := hrecordAt idx
    rw [hof.recordRefs (h.refs_length (hmemAt idx)) h.cellCount_lt hwidths.cellCount_lt
      fun _ => h.refIdx_range (hmemAt idx)] at hrefs
    have htwice := congrArg (List.map fun refIdx => (n : Int) - 1 - refIdx) hrefs
    rw [hn, cellNumbers, List.map_map, List.map_map] at htwice
    have hid : ((fun refIdx => (n : Int) - 1 - refIdx) ∘ fun refIdx => (n : Int) - 1 - refIdx) =
        id := by
      funext refIdx
      simp only [Function.comp_apply, id]
      omega
    rw [hid, List.map_id] at htwice
    exact htwice
  refine ⟨infoAt, hinfoAt, fun idx => ?_, hback, fun idx => ?_⟩
  · obtain ⟨record, hrecord, hof, -⟩ := hrecordAt idx
    exact ⟨record, hrecord, hof⟩
  · have hcells := h.refs _ (hmemAt idx)
    rw [hback, List.forall₂_map_left_iff] at hcells
    rw [← List.forall₂_eq_eq_eq, List.forall₂_map_left_iff]
    refine hcells.imp ?_
    rintro x cell ⟨i, hi, dcInfo, hget, rfl⟩
    have hx := hat x
    rw [show n - 1 - x.val = i by omega, hget] at hx
    rw [Option.some.inj hx]

theorem Numbered.dataSection_eq (hnum : Numbered bag rs records refs infoAt) (idx : Fin n) :
    dataSection bag.cellList =
      (bag.cellList.reverse.take idx.val).flatMap cellData ++ ((infoAt idx).dcRef.data ++
        (bag.cellList.reverse.drop (idx.val + 1)).flatMap cellData) := by
  obtain ⟨hlt, hget⟩ := List.getElem?_eq_some_iff.mp (hnum.infoAt_eq idx)
  rw [dataSection, ← cellData, ← List.flatMap_cons, ← hget, ← List.drop_eq_getElem_cons hlt,
    ← List.flatMap_append, List.take_append_drop]

theorem Numbered.createFrom_eq (h : ImportedBag bag root rootIdx)
    (hnum : Numbered bag rs records refs infoAt)
    (hrecords : List.Forall₂ (RecordOf bag.cellList.length rs) bag.cellList.reverse records)
    (lib : CellLib) (dataSlice : Slice) (idx : Fin n) :
    ∃ cellSlice, ∀ below, createFrom lib records dataSlice idx below =
      (recordPrefix rs (infoAt idx).dcRef).createDataCell lib cellSlice dataSlice
        ((bag.cellList.reverse.take idx.val).flatMap cellData).length below := by
  obtain ⟨⟨cellSlice, cellInfo⟩, hrecord, hof⟩ := hnum.record idx
  have hoffset := recordsDataLength_written (List.forall₂_take idx.val hrecords) fun x hx =>
    h.stored x (List.mem_reverse.mp (List.mem_of_mem_take hx))
  refine ⟨cellSlice, fun below => ?_⟩
  unfold createFrom
  rw [hrecord]
  dsimp only
  rw [show cellInfo = recordPrefix rs (infoAt idx).dcRef from hof.cellInfo_eq, hoffset]

theorem Numbered.cellGraph (h : ImportedBag bag root rootIdx)
    (hnum : Numbered bag rs records refs infoAt)
    (hlib : ∀ dcInfo ∈ bag.cellList, Rebuilds lib dcInfo.dcRef)
    (hrecords : List.Forall₂ (RecordOf bag.cellList.length rs) bag.cellList.reverse records)
    {dataSlice : Slice} (hmem : dataSlice.mem = dataSection bag.cellList ++ tail)
    (hlen : dataSlice.len = (dataSection bag.cellList).length) :
    CellGraph lib refs (fun idx => (infoAt idx).dcRef) (createFrom lib records dataSlice) := by
  refine ⟨hnum.refs_eq, fun idx => hlib _ (hnum.mem idx), ?_⟩
  intro idx below cell' hfinalize hspecial hmask
  obtain ⟨cellSlice, hcreate⟩ := hnum.createFrom_eq h hrecords lib dataSlice idx
  have hsplit := hnum.dataSection_eq idx
  have hle : ((bag.cellList.reverse.take idx.val).flatMap cellData).length ≤ dataSlice.len := by
    rw [hlen, hsplit, List.length_append]
    omega
  have hdata : dataSlice.mem.drop ((bag.cellList.reverse.take idx.val).flatMap cellData).length =
      (infoAt idx).dcRef.data ++
        ((bag.cellList.reverse.drop (idx.val + 1)).flatMap cellData ++ tail) := by
    rw [hmem, hsplit, List.append_assoc, List.drop_left' rfl, List.append_assoc]
  rw [hcreate]
  exact createDataCell_written (h.stored _ (hnum.mem idx)) hle hdata hfinalize hspecial hmask

end numbering

/-- How reading a buffer with the head of an imported bag ends, once its checksum
agrees: with the root rebuilt from the cell data of the buffer, or at a cell that
is refused. -/
theorem BagBuffer.deserialize_ends (lib : CellLib) (h : ImportedBag bag root rootIdx)
    (hbuffer : BagBuffer bag rootIdx rs os crc cellBytes tail) (hwidths : Widths bag rs os)
    (hcrc : crc = true → checkCrc lib (Slice.ofBytes
      (bagHead crc bag rootIdx rs os ++ (cellBytes ++ tail))) = .ok ()) :
    ∃ (records : List Record) (refs : Fin bag.cellList.length → List (Fin bag.cellList.length))
      (infoAt : Fin bag.cellList.length → CellInfo) (dataSlice : Slice)
      (order : List (Fin bag.cellList.length)),
      List.Forall₂ (RecordOf bag.cellList.length rs) bag.cellList.reverse records ∧
      Numbered bag rs records refs infoAt ∧ dataSlice.mem = cellBytes ++ tail ∧
      dataSlice.len = cellBytes.length ∧ TopologicalOrder refs order ∧
      EndsAt (deserialize lib (Slice.ofBytes
          (bagHead crc bag rootIdx rs os ++ (cellBytes ++ tail))) 1) .fresh
        (fun size decoded => size = (bagHead crc bag rootIdx rs os ++ (cellBytes ++ tail)).length ∧
          decoded.rootCount = 1 ∧ ∃ x cell, x.val = bag.cellList.length - 1 - rootIdx ∧
            decoded.getRootCell 0 = .ok (some cell) ∧
            Rebuilt refs (createFrom lib records dataSlice) x cell)
        (fun stop _ => FirstRefused refs (createFrom lib records dataSlice) order stop ∨
          ∃ x, x ∉ order) := by
  have hparsed := hbuffer.parsed h hwidths
  have hrootIdx := h.rootIdx_read hwidths crc cellBytes tail
  have hrootLt := h.rootIdx_lt
  obtain ⟨records, refs, hscan, hrecords, hgraph, hdataMem, hdataLen⟩ := hbuffer.scanned h hwidths
  generalize bagHead crc bag rootIdx rs os ++ (cellBytes ++ tail) = bytes at *
  have haccept : Accepted lib (Slice.ofBytes bytes) 1 (bagInfo crc bag rs os) := by
    refine ⟨le_rfl, hcrc, ?_⟩
    intro i hi
    obtain rfl : i = 0 := Nat.lt_one_iff.mp hi
    rw [hrootIdx]
    change _ ∧ _ < (bag.cellList.length : Int)
    omega
  obtain ⟨infoAt, hnum⟩ := h.numbered hwidths rfl hrecords hgraph
  obtain ⟨order, horder, -, hends⟩ := deserializeCells_graph hparsed haccept rfl hscan hgraph
  refine ⟨records, refs, infoAt, _, order, hrecords, hnum, hdataMem, hdataLen, horder,
    hends.mono ?_ ?_⟩
  · rintro size decoded ⟨rfl, hrootCount, vars, -, hroots⟩
    have hinfos : readRootInfos (Slice.ofBytes bytes) (bagInfo crc bag rs os) =
        [⟨none, (bag.cellList.length - 1 - rootIdx : Nat)⟩] := by
      rw [← hrootIdx]
      rfl
    rw [hinfos, List.forall₂_cons_left_iff] at hroots
    obtain ⟨_, _, ⟨x, _, cell, hx, -, -, -, rfl, hcell⟩, hnil, hdecoded⟩ := hroots
    rw [List.forall₂_nil_left_iff] at hnil
    refine ⟨rfl, hrootCount, x, cell, Int.ofNat_inj.mp hx.symm, ?_, hcell⟩
    unfold getRootCell
    rw [hrootCount, if_pos ⟨le_rfl, one_pos⟩, hdecoded]
    rfl
  · rintro stop _ (hrefused | ⟨-, -, _, -, x, -, hx⟩)
    · exact .inl hrefused
    · exact .inr ⟨x, hx⟩

theorem Numbered.root_eq {records : List Record}
    {refs : Fin bag.cellList.length → List (Fin bag.cellList.length)}
    {infoAt : Fin bag.cellList.length → CellInfo} (h : ImportedBag bag root rootIdx)
    (hnum : Numbered bag rs records refs infoAt) {x : Fin bag.cellList.length}
    (hx : x.val = bag.cellList.length - 1 - rootIdx) : (infoAt x).dcRef = root := by
  have hlt := h.rootIdx_lt
  obtain ⟨i, hi, dcInfo, hget, rfl⟩ := h.root
  have hget' := hnum.getElem? rfl x
  rw [show bag.cellList.length - 1 - x.val = i by omega, hget] at hget'
  rw [Option.some.inj hget']

theorem ImportedBag.deserialize_checked (h : ImportedBag bag root rootIdx)
    (hwidths : Widths bag rs os) (hlib : ∀ dcInfo ∈ bag.cellList, Rebuilds lib dcInfo.dcRef)
    (htail : tail.length = if crc then 4 else 0)
    (hcrc : crc = true → checkCrc lib (Slice.ofBytes
      (bagHead crc bag rootIdx rs os ++ (dataSection bag.cellList ++ tail))) = .ok ()) :
    EndsAt (deserialize lib (Slice.ofBytes
        (bagHead crc bag rootIdx rs os ++ (dataSection bag.cellList ++ tail))) 1) .fresh
      (fun size decoded => size =
          (bagHead crc bag rootIdx rs os ++ (dataSection bag.cellList ++ tail)).length ∧
        decoded.rootCount = 1 ∧ ∃ root', decoded.getRootCell 0 = .ok (some root') ∧ SameCell root' root ∧
        root.remake lib = .ok root')
      (fun _ _ => False) := by
  have hbuffer : BagBuffer bag rootIdx rs os crc (dataSection bag.cellList) tail := ⟨rfl, htail⟩
  obtain ⟨records, refs, infoAt, dataSlice, order, hrecords, hnum, hmem, hlen, horder, hends⟩ :=
    hbuffer.deserialize_ends lib h hwidths hcrc
  have hcells := hnum.cellGraph h hlib hrecords hmem hlen
  refine hends.mono ?_ ?_
  · rintro size decoded ⟨rfl, hrootCount, x, cell, hx, hroot, hcell⟩
    obtain ⟨hsame, hremake⟩ := hcells.remade hcell
    rw [hnum.root_eq h hx] at hsame hremake
    exact ⟨rfl, hrootCount, cell, hroot, hsame, hremake⟩
  · rintro stop _ (hrefused | ⟨x, hx⟩)
    · exact hcells.not_refused hrefused
    · exact hx ((horder.mem_iff x).mpr (hcells.acyclic x))

theorem ImportedBag.deserialize (h : ImportedBag bag root rootIdx) (hwidths : Widths bag rs os)
    (hlib : ∀ dcInfo ∈ bag.cellList, Rebuilds lib dcInfo.dcRef) :
    EndsAt (deserialize lib (Slice.ofBytes (bagBytes bag rootIdx rs os)) 1) .fresh
      (fun size decoded => size = (bagBytes bag rootIdx rs os).length ∧
        decoded.rootCount = 1 ∧ ∃ root', decoded.getRootCell 0 = .ok (some root') ∧ SameCell root' root ∧
        root.remake lib = .ok root')
      (fun _ _ => False) := by
  have hchecked := @ImportedBag.deserialize_checked bag root rootIdx rs os lib false [] h hwidths
    hlib rfl nofun
  rwa [bagBytes_eq] at hchecked

theorem ImportedBag.roundTrip (h : ImportedBag bag root rootIdx)
    (hlib : ∀ dcInfo ∈ bag.cellList, Rebuilds lib dcInfo.dcRef) {gene : Evolve.Gene}
    (hgene : gene.perm = [] ∨ IsPerm bag.cellList.length gene.perm) :
    ∃ permuted bytes decoded root', bag.permute lib gene = .ok permuted ∧
      permuted.serializeToSlice lib 0 = .ok bytes ∧
      MyBagOfCells.deserialize lib (Slice.ofBytes bytes) 1 .fresh =
        (.ok (bytes.length : Int), decoded) ∧
      decoded.rootCount = 1 ∧ decoded.getRootCell 0 = .ok (some root') ∧ SameCell root' root ∧
      root.remake lib = .ok root' := by
  obtain ⟨permuted, rootIdx', hpermute, himported, hcells⟩ := h.permute lib hgene
  have hlib' : ∀ dcInfo ∈ permuted.cellList, Rebuilds lib dcInfo.dcRef := by
    intro dcInfo hinfo
    obtain ⟨dcInfo', hinfo', heq⟩ := hcells dcInfo hinfo
    rw [heq]
    exact hlib dcInfo' hinfo'
  obtain ⟨rs, os, hwidths, hbytes⟩ := himported.serializeToSlice lib
  obtain ⟨_, decoded, hrun, rfl, hcount, root', hroot, hsame, hremake⟩ :=
    (himported.deserialize hwidths hlib').exists_ok
  exact ⟨permuted, _, decoded, root', hpermute, hbytes, hrun, hcount, hroot, hsame, hremake⟩

end decoding

/-- Whatever order a gene gives the cells of a bag, writing them and reading them
back succeeds with one and the same root, whose unfolding is that of the root
written. -/
theorem permuted_bag_roundTrip (lib : CellLib) (bag : MyBagOfCells) (root : DataCell)
    (rootIdx : Nat) (h : ImportedBag bag root rootIdx)
    (hlib : ∀ dcInfo ∈ bag.cellList, Rebuilds lib dcInfo.dcRef) :
    ∃ root' : DataCell, root'.unfold = root.unfold ∧ ∀ gene : Evolve.Gene,
      gene.perm = [] ∨ IsPerm bag.cellList.length gene.perm →
      ∃ permuted bytes decoded, bag.permute lib gene = .ok permuted ∧
        permuted.serializeToSlice lib 0 = .ok bytes ∧
        deserialize lib (Slice.ofBytes bytes) 1 .fresh =
          (.ok (bytes.length : Int), decoded) ∧
        decoded.getRootCell 0 = .ok (some root') := by
  obtain ⟨-, -, -, root', -, -, -, -, -, hsame, hremake⟩ :=
    h.roundTrip hlib (show Evolve.Gene.unfilled.perm = [] ∨ _ from .inl rfl)
  refine ⟨root', hsame.unfold_eq, fun gene hgene => ?_⟩
  obtain ⟨permuted, bytes, decoded, root'', hpermute, hbytes, hrun, -, hroot, -, hremake'⟩ :=
    h.roundTrip hlib hgene
  obtain rfl := Except.ok.inj (hremake.symm.trans hremake')
  exact ⟨permuted, bytes, decoded, hpermute, hbytes, hrun, hroot⟩

/-- The bytes of a bit string, with a completion tag behind it when they end
inside a byte. -/
def packBits (bits : List Bool) : List UInt8 :=
  (List.range ((bits.length + 7) / 8)).map fun i => UInt8.ofNat <|
    (List.range 8).foldl (fun byte j =>
      2 * byte + (bits.getD (8 * i + j) (8 * i + j == bits.length)).toNat) 0

/-- A library that packs bits and knows no special cells. -/
def packingLib : CellLib where
  crc32c _ := 0
  finalizeNovmNothrow bits refs isSpecial := .ok ⟨bits.length, packBits bits, refs, isSpecial, 0⟩
  getHash _ _ := []
  getDepth _ _ := 0

def leafCell : DataCell := ⟨4, [0xa8], [], false, 0⟩

def forkCell : DataCell := ⟨8, [0x5a], [leafCell, leafCell], false, 0⟩

/-- A cell that refers twice to another. -/
def forkBag : MyBagOfCells :=
  { MyBagOfCells.fresh with
    cellCount := 2
    rootCount := 1
    intRefs := 2
    dataBytes := 6
    cellList := [⟨forkCell, [1, 1], 0, 0, false, true⟩, ⟨leafCell, [], 0, 0, false, false⟩]
    roots := [⟨some forkCell, 0⟩] }

theorem leafCell_stored : leafCell.Stored := by
  refine ⟨by decide, by decide, by decide, by decide, ?_⟩
  rintro _ ⟨⟩ _
  decide

theorem forkCell_stored : forkCell.Stored := by
  refine ⟨by decide, by decide, by decide, by decide, ?_⟩
  rintro _ ⟨⟩ hbits
  exact absurd rfl hbits

theorem forkBag_imported : ImportedBag forkBag forkCell 0 := by
  have hfork : IsCellAt forkBag.cellList 0 forkCell := ⟨0, rfl, _, rfl, rfl⟩
  have hleaf : IsCellAt forkBag.cellList 1 leafCell := ⟨1, rfl, _, rfl, rfl⟩
  refine ⟨rfl, by decide, ?_, ?_, ?_, rfl, rfl, rfl, rfl, hfork⟩
  · refine List.forall_mem_cons.mpr ⟨.cons hleaf (.cons hleaf .nil), ?_⟩
    exact List.forall_mem_singleton.mpr .nil
  · exact List.forall_mem_cons.mpr ⟨forkCell_stored, List.forall_mem_singleton.mpr leafCell_stored⟩
  · intro i hi hroot
    obtain rfl : i = 1 := by
      change i < 2 at hi
      omega
    exact ⟨_, List.mem_cons_self, List.mem_cons_self⟩

theorem packingLib_rebuilds : ∀ dcInfo ∈ forkBag.cellList, Rebuilds packingLib dcInfo.dcRef := by
  have hcell : ∀ cell : DataCell, cell.levelMask = 0 →
      (bitsOf (packBits cell.bitString)).take cell.bitString.length = cell.bitString →
      Rebuilds packingLib cell := by
    intro cell hmask hbits refs _
    exact ⟨_, rfl, hbits, rfl, rfl, hmask.symm⟩
  refine List.forall_mem_cons.mpr ⟨hcell _ rfl (by decide), ?_⟩
  exact List.forall_mem_singleton.mpr (hcell _ rfl (by decide))

/-- The bag with its two cells exchanged. -/
theorem permuted_bag_roundTrip_forkBag :
    ∃ root' : DataCell, root'.unfold = forkCell.unfold ∧
      ∃ permuted bytes decoded, forkBag.permute packingLib ⟨[1, 0], 0⟩ = .ok permuted ∧
        permuted.serializeToSlice packingLib 0 = .ok bytes ∧
        deserialize packingLib (Slice.ofBytes bytes) 1 .fresh =
          (.ok (bytes.length : Int), decoded) ∧
        decoded.getRootCell 0 = .ok (some root') := by
  obtain ⟨root', hunfold, hall⟩ :=
    permuted_bag_roundTrip packingLib forkBag forkCell 0 forkBag_imported packingLib_rebuilds
  exact ⟨root', hunfold, hall ⟨[1, 0], 0⟩ (.inr (by decide))⟩

end TonCompress.Boc
