import TonCompress.Boc.Layout
import Mathlib.Tactic.IntervalCases

/-! What the reader finds in the bytes of the writer. -/
namespace TonCompress.Boc
open TonCompress.Lib MyBagOfCells

section header
variable {n rs os dataSize rootIdx flags : Nat} {crc : Bool} {rest : List UInt8}

theorem readInt_field {mem pre post : List UInt8} {value count offset : Nat}
    (hmem : mem = pre ++ (beBytes value count ++ post)) (hoffset : pre.length = offset)
    (hvalue : value < 256 ^ count) (hcount : count ≤ 8) :
    readInt (mem.drop offset) count = .ok value := by
  rw [hmem, List.drop_left' hoffset, readInt_eq (by simp) hcount,
    List.take_left' (beBytes_length value count), beValue_beBytes hvalue]

def readInfo (n rs os dataSize : Nat) : Info where
  magic := bocGeneric
  rootCount := 1
  cellCount := n
  absentCount := 0
  refByteSize := rs
  offsetByteSize := os
  valid := true
  hasIndex := false
  hasRoots := true
  hasCrc32c := false
  hasCacheBits := false
  rootsOffset := 6 + 3 * rs + os
  indexOffset := 6 + 3 * rs + os + rs
  dataOffset := 6 + 3 * rs + os + rs
  dataSize := dataSize
  totalSize := 6 + 3 * rs + os + rs + dataSize

def checkedInfo (crc : Bool) (n rs os dataSize : Nat) : Info :=
  { readInfo n rs os dataSize with
    hasCrc32c := crc
    totalSize := 6 + 3 * rs + os + rs + dataSize + if crc then 4 else 0 }

structure HeaderSizes (n rs os dataSize : Nat) : Prop where
  cellCount_pos : 0 < n
  cellCount_lt : n < 2 ^ 31
  refByteSize_pos : 1 ≤ rs
  refByteSize_le : rs ≤ 4
  cellCount_fits : n < 256 ^ rs
  offsetByteSize_pos : 1 ≤ os
  offsetByteSize_le : os ≤ 8
  dataSize_fits : dataSize < 256 ^ os
  dataSize_le : dataSize ≤ n * 1024
  dataSize_lt : dataSize ≤ 2 ^ 40
  dataSize_ge : n * (2 + rs) - rs ≤ dataSize

structure FieldsRead (slice : Slice) (flags n rs os dataSize : Nat) : Prop where
  window : 6 + 3 * rs + os ≤ headerWindow slice
  magic : readInt slice.mem 4 = .ok bocGeneric
  flags : readByte slice.mem 4 = .ok (UInt8.ofNat flags)
  offsetByteSize : readByte slice.mem 5 = .ok (UInt8.ofNat os)
  cellCount : readInt (slice.mem.drop 6) rs = .ok n
  rootCount : readInt ((slice.mem.drop 6).drop rs) rs = .ok 1
  absentCount : readInt ((slice.mem.drop 6).drop (2 * rs)) rs = .ok 0
  dataSize : readInt ((slice.mem.drop 6).drop (3 * rs)) os = .ok dataSize

theorem fieldsRead_written (h : HeaderSizes n rs os dataSize) :
    FieldsRead (Slice.ofBytes (flaggedHeader flags n rs os dataSize rootIdx ++ rest)) flags n rs os
      dataSize := by
  obtain ⟨hn, hn31, hrs, hrs4, hnrs, hos, hos8, hds, hds1, hds2, hds3⟩ := h
  let fields := beBytes n rs ++ (beBytes 1 rs ++ (beBytes 0 rs ++ (beBytes dataSize os ++
    (beBytes (n - 1 - rootIdx) rs ++ rest))))
  let mem := beBytes bocGeneric 4 ++ (beBytes flags 1 ++ (beBytes os 1 ++ fields))
  have hmem : flaggedHeader flags n rs os dataSize rootIdx ++ rest = mem := by
    simp only [flaggedHeader, mem, fields, List.append_assoc]
  have hlen : mem.length = 6 + 3 * rs + os + rs + rest.length := by
    rw [← hmem, List.length_append, flaggedHeader_length]
  have hone : 1 < 256 ^ rs := Nat.one_lt_pow (by omega) (by omega)
  have hdrop : mem.drop 6 = fields := rfl
  rw [hmem]
  refine ⟨?_, @readInt_field mem [] _ _ _ 0 rfl rfl (by decide) (by omega),
    vecGet_of_eq _ _ 4 _ rfl, vecGet_of_eq _ _ 5 _ rfl,
    @readInt_field fields [] _ _ _ 0 rfl rfl hnrs (by omega),
    @readInt_field fields _ _ _ _ _ rfl (beBytes_length n rs) hone (by omega), ?_, ?_⟩
  · unfold headerWindow
    simp only [Slice.ofBytes_len, hlen]
    omega
  · apply @readInt_field fields (beBytes n rs ++ beBytes 1 rs) _ _ _ _
      (List.append_assoc _ _ _).symm
    · simp
      omega
    · omega
    · omega
  · apply @readInt_field fields (beBytes n rs ++ (beBytes 1 rs ++ beBytes 0 rs))
      (beBytes (n - 1 - rootIdx) rs ++ rest) _ _ _ _ _ hds hos8
    · simp only [fields, List.append_assoc]
    · simp
      omega

theorem parseDataSize_written (h : HeaderSizes n rs os dataSize) {slice : Slice}
    (hread : FieldsRead slice flags n rs os dataSize) {info : Info} (hcells : info.cellCount = n)
    (hrs : info.refByteSize = rs) (hos : info.offsetByteSize = os)
    (hcrc : info.hasCrc32c = crc) :
    info.parseDataSize slice =
      .ok (((info.dataOffset + dataSize + if crc then 4 else 0 : Nat) : Int), { info with
        absentCount := 0
        dataSize
        valid := true
        totalSize := info.dataOffset + dataSize + if crc then 4 else 0 }) := by
  obtain ⟨hn, hn31, _, hrs4, -, _, hos8, -, hds1, hds2, hds3⟩ := h
  have hwindow := hread.window
  subst hrs hos
  unfold Info.parseDataSize
  rw [if_neg (by omega)]
  refine bind_eq_ok.mpr ⟨_, hread.absentCount, ?_⟩
  rw [asInt32_of_lt (by omega)]
  dsimp only
  rw [if_neg (by omega), if_neg (by omega)]
  refine bind_eq_ok.mpr ⟨_, hread.dataSize, ?_⟩
  rw [hcells, Int.toNat_natCast, if_neg (by omega), if_neg (by omega), if_neg (by omega), hcrc]
  rfl

theorem parseCounts_written (h : HeaderSizes n rs os dataSize) {slice : Slice}
    (hread : FieldsRead slice flags n rs os dataSize) {info : Info}
    (hmagic : info.magic = bocGeneric) (hrs : info.refByteSize = rs)
    (hos : info.offsetByteSize = os) (hindex : info.hasIndex = false)
    (hcrc : info.hasCrc32c = crc) :
    info.parseCounts slice =
      .ok (((info.rootsOffset + rs + dataSize + if crc then 4 else 0 : Nat) : Int), { info with
        cellCount := n
        rootCount := 1
        hasRoots := true
        indexOffset := info.rootsOffset + rs
        dataOffset := info.rootsOffset + rs
        absentCount := 0
        dataSize
        valid := true
        totalSize := info.rootsOffset + rs + dataSize + if crc then 4 else 0 }) := by
  have hwindow := hread.window
  have hn := h.cellCount_pos
  subst hrs hos
  unfold Info.parseCounts
  rw [if_neg (by omega)]
  refine bind_eq_ok.mpr ⟨_, hread.cellCount, ?_⟩
  rw [asInt32_of_lt h.cellCount_lt]
  dsimp only
  rw [if_neg (by omega), if_neg (by omega)]
  refine bind_eq_ok.mpr ⟨_, hread.rootCount, ?_⟩
  rw [asInt32_of_lt (by omega)]
  rw [if_neg (by omega), if_neg (fun hnot => hnot.1 hmagic)]
  have hoffsets : ({ info with cellCount := n, rootCount := (1 : Nat) } : Info).setOffsets =
      { info with
        cellCount := n
        rootCount := 1
        hasRoots := true
        indexOffset := info.rootsOffset + info.refByteSize
        dataOffset := info.rootsOffset + info.refByteSize } := by
    unfold Info.setOffsets
    simp [hmagic, hindex]
  rw [hoffsets]
  exact parseDataSize_written h hread rfl rfl rfl hcrc

theorem parseWidths_written (h : HeaderSizes n rs os dataSize) {slice : Slice}
    (hread : FieldsRead slice flags n rs os dataSize) {info : Info}
    (hmagic : info.magic = bocGeneric) (hrs : info.refByteSize = rs)
    (hindex : info.hasIndex = false) (hcrc : info.hasCrc32c = crc)
    (hcache : info.hasCacheBits = false) :
    info.parseWidths slice =
      .ok (((6 + 3 * rs + os + rs + dataSize + if crc then 4 else 0 : Nat) : Int), { info with
        offsetByteSize := os
        rootsOffset := 6 + 3 * rs + os
        cellCount := n
        rootCount := 1
        hasRoots := true
        indexOffset := 6 + 3 * rs + os + rs
        dataOffset := 6 + 3 * rs + os + rs
        absentCount := 0
        dataSize
        valid := true
        totalSize := 6 + 3 * rs + os + rs + dataSize + if crc then 4 else 0 }) := by
  obtain ⟨hn, hn31, hrs1, hrs4, -, hos, hos8, -, -, -, -⟩ := id h
  have hwindow := hread.window
  have hos' : (UInt8.ofNat os).toNat = os := by
    rw [UInt8.toNat_ofNat']
    omega
  subst hrs
  unfold Info.parseWidths
  rw [if_neg (by simp [hcache]), if_neg (by omega), if_neg (by omega)]
  refine bind_eq_ok.mpr ⟨_, hread.offsetByteSize, ?_⟩
  rw [hos']
  dsimp only
  rw [if_neg (by omega)]
  exact parseCounts_written h hread hmagic rfl rfl hindex hcrc

theorem parseSerializedHeader_written (h : HeaderSizes n rs os dataSize) (crc : Bool) :
    Info.fresh.parseSerializedHeader (Slice.ofBytes
        (flaggedHeader (rs + 64 * crc.toNat) n rs os dataSize rootIdx ++ rest)) =
      .ok (((6 + 3 * rs + os + rs + dataSize + if crc then 4 else 0 : Nat) : Int),
        checkedInfo crc n rs os dataSize) := by
  have hread := @fieldsRead_written n rs os dataSize rootIdx (rs + 64 * crc.toNat) rest h
  generalize Slice.ofBytes _ = slice at hread ⊢
  have hwindow := hread.window
  have hrs := h.refByteSize_pos
  have hrs4 := h.refByteSize_le
  unfold Info.parseSerializedHeader
  rw [if_neg (by omega)]
  refine bind_eq_ok.mpr ⟨_, hread.magic, ?_⟩
  rw [if_neg (by simp), if_neg (by omega)]
  refine bind_eq_ok.mpr ⟨_, hread.flags, ?_⟩
  have hflags : ∀ info : Info, info.magic = bocGeneric →
      info.setFlags (UInt8.ofNat (rs + 64 * crc.toNat)).toNat = { info with
        hasIndex := false, hasCrc32c := crc, hasCacheBits := false, refByteSize := rs } := by
    intro info hmagic
    unfold Info.setFlags
    rw [if_pos hmagic]
    interval_cases rs <;> cases crc <;> rfl
  rw [hflags _ rfl]
  exact parseWidths_written h hread rfl rfl rfl rfl rfl

end header

section records
variable {n rs : Nat} {dcInfo : CellInfo}

def recordPrefix (rs : Nat) (cell : DataCell) : CellSerializationInfo where
  special := cell.isSpecial
  levelMask := cell.levelMask
  withHashes := false
  hashesOffset := 2
  depthOffset := 2
  dataLen := (cell.bits + 7) / 8
  dataWithBits := decide (cell.bits % 8 ≠ 0)
  refsOffset := 2
  refsCnt := cell.refs.length
  endOffset := 2 + cell.refs.length * rs

theorem d1_toNat {cell : DataCell} (h : cell.Stored) :
    cell.d1.toNat = cell.refs.length + 8 * cell.isSpecial.toNat + 32 * cell.levelMask := by
  have hrefs := h.refs_le
  have hmask := h.levelMask_lt
  have hspecial := Bool.toNat_le cell.isSpecial
  rw [DataCell.d1, UInt8.toNat_ofNat']
  omega

theorem d2_toNat {cell : DataCell} (h : cell.Stored) :
    cell.d2.toNat = cell.bits / 8 * 2 + if cell.bits % 8 ≠ 0 then 1 else 0 := by
  have hbits := h.bits_le
  unfold DataCell.d2
  split
  · rw [UInt8.toNat_add, UInt8.toNat_ofNat']
    change (_ + 1) % _ = _
    omega
  · rw [UInt8.toNat_ofNat']
    omega

theorem initBytes_written {cell : DataCell} (h : cell.Stored) (rs : Nat) :
    CellSerializationInfo.initBytes cell.d1 cell.d2 rs = .ok (recordPrefix rs cell) := by
  have hrefs := h.refs_le
  have hmask := h.levelMask_lt
  have h1 := d1_toNat h
  have h2 := d2_toNat h
  have hcnt : cell.d1.toNat % 8 = cell.refs.length := by
    omega
  have hlevel : cell.d1.toNat / 32 = cell.levelMask := by
    have hspecial := Bool.toNat_le cell.isSpecial
    omega
  have hhashes : cell.d1.toNat.testBit 4 = false := by
    have hspecial := Bool.toNat_le cell.isSpecial
    rw [Nat.testBit_eq_decide_div_mod_eq, decide_eq_false_iff_not]
    omega
  have hspecial : cell.d1.toNat.testBit 3 = cell.isSpecial := by
    rw [Nat.testBit_eq_decide_div_mod_eq]
    cases hcase : cell.isSpecial
    · rw [hcase, Bool.toNat_false] at h1
      rw [decide_eq_false_iff_not]
      omega
    · rw [hcase, Bool.toNat_true] at h1
      rw [decide_eq_true_eq]
      omega
  have hlen : cell.d2.toNat / 2 + cell.d2.toNat % 2 = (cell.bits + 7) / 8 := by
    split at h2 <;> omega
  have hbits : cell.d2.toNat.testBit 0 = decide (cell.bits % 8 ≠ 0) := by
    rw [Nat.testBit_eq_decide_div_mod_eq, decide_eq_decide]
    split at h2 <;> omega
  unfold CellSerializationInfo.initBytes
  rw [hcnt, hlevel, hhashes, hspecial, hlen, hbits]
  dsimp only
  rw [if_neg (by omega)]
  rfl

theorem init_written {slice : Slice} {rest : List UInt8} (h : dcInfo.dcRef.Stored)
    (hrefs : dcInfo.refIdx.length = dcInfo.dcRef.refs.length)
    (hmem : slice.mem = cellMeta n rs dcInfo ++ rest)
    (hlen : (cellMeta n rs dcInfo).length ≤ slice.len) :
    CellSerializationInfo.init slice rs = .ok (recordPrefix rs dcInfo.dcRef) := by
  rw [cellMeta_length, hrefs] at hlen
  obtain ⟨d1, d2, h0, h1, hinit, -⟩ := init_eq rs (show 2 ≤ slice.len by omega)
  have hor : dcInfo.dcRef.d1 ||| UInt8.ofNat (false.toNat * 16) = dcInfo.dcRef.d1 := by simp
  simp only [hmem, cellMeta, DataCell.getFirstTwoMeta, hor, List.cons_append,
    List.getElem?_cons_zero, List.getElem?_cons_succ, Option.some.injEq] at h0 h1
  subst h0 h1
  rw [hinit, initBytes_written h]
  exact if_neg (by simp only [recordPrefix]; omega)

structure RecordOf (n rs : Nat) (dcInfo : CellInfo) (record : Record) : Prop where
  cellInfo_eq : record.2 = recordPrefix rs dcInfo.dcRef
  mem_eq : ∃ rest, record.1.mem = cellMeta n rs dcInfo ++ rest

theorem scanRecords_written {cells : List CellInfo}
    (hcells : ∀ dcInfo ∈ cells, dcInfo.dcRef.Stored ∧
      dcInfo.refIdx.length = dcInfo.dcRef.refs.length) {slice : Slice} {rest : List UInt8}
    (hmem : slice.mem = cells.flatMap (cellMeta n rs) ++ rest)
    (hlen : (cells.flatMap (cellMeta n rs)).length ≤ slice.len) :
    ∃ records, scanRecords rs cells.length slice = .ok records ∧
      List.Forall₂ (RecordOf n rs) cells records := by
  induction cells generalizing slice with
  | nil => exact ⟨[], rfl, .nil⟩
  | cons dcInfo cells ih =>
    obtain ⟨hstored, hrefs⟩ := hcells dcInfo List.mem_cons_self
    rw [List.flatMap_cons, List.length_append] at hlen
    rw [List.flatMap_cons, List.append_assoc] at hmem
    have hinit := init_written hstored hrefs hmem (by omega)
    have hend : (cellMeta n rs dcInfo).length = (recordPrefix rs dcInfo.dcRef).endOffset := by
      rw [cellMeta_length, hrefs]
      rfl
    obtain ⟨records, hscan, hall⟩ := ih (fun x hx => hcells x (List.mem_cons_of_mem _ hx))
      (show (slice.drop (recordPrefix rs dcInfo.dcRef).endOffset).mem = _ by
        rw [Slice.drop_mem, hmem, List.drop_left' hend])
      (by rw [Slice.drop_len]; omega)
    exact ⟨_, scanRecords_succ.mpr ⟨_, records, hinit, hscan, rfl⟩,
      .cons ⟨rfl, _, hmem⟩ hall⟩

theorem take_drop_blocks {α : Type} {bytesOf : α → List UInt8} {width : Nat}
    (hwidth : ∀ x, (bytesOf x).length = width) {list : List α} {rest : List UInt8} {k : Nat}
    (hk : k < list.length) :
    ((list.flatMap bytesOf ++ rest).drop (k * width)).take width = bytesOf list[k] := by
  induction list generalizing k with
  | nil => simp at hk
  | cons x list ih =>
    rw [List.flatMap_cons, List.append_assoc]
    cases k with
    | zero => simpa using List.take_left' (hwidth x)
    | succ k =>
      rw [Nat.succ_mul, Nat.add_comm, ← List.drop_drop, List.drop_left' (hwidth x)]
      exact ih (by simpa using hk)

/-- The references of a written record, counted from the other end. -/
theorem RecordOf.recordRefs {record : Record} (h : RecordOf n rs dcInfo record)
    (hrefs : dcInfo.refIdx.length = dcInfo.dcRef.refs.length) (hn : n < 2 ^ 31)
    (hfits : n < 256 ^ rs) (hrange : ∀ refIdx ∈ dcInfo.refIdx, 0 ≤ refIdx ∧ refIdx < n) :
    recordRefs rs record = dcInfo.refIdx.map fun refIdx => (n : Int) - 1 - refIdx := by
  obtain ⟨hinfo, rest, hmem⟩ := h
  apply List.ext_getElem
  · simp [Boc.recordRefs, hinfo, recordPrefix, hrefs]
  · intro k hk hk'
    have hk : k < dcInfo.refIdx.length := by simpa using hk'
    have hbounds := hrange _ (List.getElem_mem hk)
    simp only [Boc.recordRefs, List.getElem_map, List.getElem_range, hinfo, hmem]
    have hblock := @take_drop_blocks Int (fun refIdx => beBytes ((n : Int) - 1 - refIdx).toNat rs) rs
      (fun _ => beBytes_length _ _) dcInfo.refIdx rest k hk
    have hdrop : (cellMeta n rs dcInfo ++ rest).drop (2 + k * rs) =
        ((dcInfo.refIdx.flatMap fun refIdx => beBytes ((n : Int) - 1 - refIdx).toNat rs) ++
          rest).drop (k * rs) := by
      rw [← List.drop_drop, cellMeta, List.append_assoc]
      rfl
    change asInt32 (beValue (((cellMeta n rs dcInfo ++ rest).drop (2 + k * rs)).take rs)) = _
    rw [hdrop, hblock, beValue_beBytes (by omega), asInt32_of_lt (by omega)]
    omega

theorem recordsLength_written {cells : List CellInfo} {records : List Record}
    (h : List.Forall₂ (RecordOf n rs) cells records)
    (hrefs : ∀ dcInfo ∈ cells, dcInfo.refIdx.length = dcInfo.dcRef.refs.length) :
    recordsLength records = (cells.flatMap (cellMeta n rs)).length := by
  induction h with
  | nil => rfl
  | @cons dcInfo record cells records hrecord _ ih =>
    rw [recordsLength, List.flatMap_cons, List.length_append, cellMeta_length,
      hrefs dcInfo List.mem_cons_self, hrecord.cellInfo_eq,
      ih fun x hx => hrefs x (List.mem_cons_of_mem _ hx)]
    rfl

theorem recordsDataLength_written {cells : List CellInfo} {records : List Record}
    (h : List.Forall₂ (RecordOf n rs) cells records)
    (hstored : ∀ dcInfo ∈ cells, dcInfo.dcRef.Stored) :
    recordsDataLength records = (cells.flatMap cellData).length := by
  induction h with
  | nil => rfl
  | @cons dcInfo record cells records hrecord _ ih =>
    rw [recordsDataLength, List.flatMap_cons, List.length_append, cellData,
      (hstored dcInfo List.mem_cons_self).data_length, hrecord.cellInfo_eq,
      ih fun x hx => hstored x (List.mem_cons_of_mem _ hx)]
    rfl

end records

section creating
variable {lib : CellLib} {rs : Nat} {cell cell' : DataCell}

theorem countTrailingZeroes_tag : ∀ (byte : Fin 256) (used : Fin 8), used.val ≠ 0 →
    byte.val % 2 ^ (8 - used.val) = 2 ^ (7 - used.val) →
    byte.val % 128 ≠ 0 ∧ countTrailingZeroes byte.val = 7 - used.val := by
  decide +kernel

theorem getBits_written (h : cell.Stored) {slice : Slice} {rest : List UInt8}
    (hmem : slice.mem = cell.data ++ rest) :
    (recordPrefix rs cell).getBits slice = .ok cell.bits := by
  have hlen := h.data_length
  unfold CellSerializationInfo.getBits
  by_cases hused : cell.bits % 8 = 0
  · rw [if_neg (by simp [recordPrefix, hused])]
    simp only [recordPrefix]
    congr 1
    omega
  · rw [if_pos (by simp [recordPrefix, hused])]
    have hne : cell.data ≠ [] := by
      rw [← List.length_pos_iff_ne_nil]
      omega
    obtain ⟨last, hlast⟩ : ∃ last, cell.data.getLast? = some last :=
      ⟨_, List.getLast?_eq_some_getLast hne⟩
    have hread : readByte slice.mem ((recordPrefix rs cell).dataLen - 1) = .ok last := by
      apply vecGet_of_eq
      rw [List.getLast?_eq_getElem?, hlen] at hlast
      rw [hmem, List.getElem?_append_left (by simp only [recordPrefix]; omega)]
      exact hlast
    obtain ⟨hlong, hzeroes⟩ := countTrailingZeroes_tag ⟨last.toNat, last.toNat_lt⟩
      ⟨cell.bits % 8, by omega⟩ hused (h.tag last hlast hused)
    refine bind_eq_ok.mpr ⟨last, hread, ?_⟩
    rw [if_neg hlong, hzeroes]
    simp only [recordPrefix, pure, Except.pure]
    congr 1
    omega

theorem createDataCell_written (h : cell.Stored) {cellSlice dataSlice : Slice}
    {offset : Nat} {rest : List UInt8} {refs : List DataCell}
    (hoffset : offset ≤ dataSlice.len)
    (hmem : dataSlice.mem.drop offset = cell.data ++ rest)
    (hcell : lib.finalizeNovmNothrow cell.bitString refs cell.isSpecial = .ok cell')
    (hspecial : cell'.isSpecial = cell.isSpecial) (hmask : cell'.levelMask = cell.levelMask) :
    (recordPrefix rs cell).createDataCell lib cellSlice dataSlice offset refs = .ok cell' := by
  have hlen := h.data_length
  have hmem' : (dataSlice.drop offset).mem = cell.data ++ rest := hmem
  have hload : loadBits (dataSlice.drop offset).mem cell.bits = .ok cell.bitString := by
    unfold loadBits
    rw [hmem', readBytes, if_pos (by rw [List.length_append]; omega), ← hlen,
      List.take_left' rfl]
    rfl
  unfold CellSerializationInfo.createDataCell
  rw [Slice.substr_ok hoffset]
  refine bind_eq_ok.mpr ⟨_, rfl, bind_eq_ok.mpr ⟨_, getBits_written h hmem', ?_⟩⟩
  refine bind_eq_ok.mpr ⟨_, hload, ?_⟩
  dsimp only [recordPrefix]
  rw [hcell]
  simp only [hspecial, hmask, ne_eq, not_true_eq_false, if_false, Bool.false_eq_true]
  rfl

end creating

end TonCompress.Boc
