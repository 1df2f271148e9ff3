import TonCompress.Boc.RoundTrip
import TonCompress.Lib.Intervals

/-! The cell data against the section that holds them. -/
namespace TonCompress.Boc
open TonCompress.Lib MyBagOfCells

section reads
variable {lib : CellLib} {cellInfo : CellSerializationInfo} {dataSlice : Slice}
variable {offset bits : Nat}

/-- The bytes of the data section that `get_bits` and then `store_bits` look at for a
cell, by their position. -/
def CellSerializationInfo.dataReads (cellInfo : CellSerializationInfo) (dataSlice : Slice)
    (offset : Nat) : List Nat :=
  (if cellInfo.dataWithBits then [offset + (cellInfo.dataLen - 1)] else []) ++
    match cellInfo.getBits (dataSlice.drop offset) with
    | .ok bits => (List.range ((bits + 7) / 8)).map (offset + ·)
    | .error _ => []

theorem getBits_le (hlen : cellInfo.dataWithBits = true → 1 ≤ cellInfo.dataLen) {data : Slice}
    (h : cellInfo.getBits data = .ok bits) : (bits + 7) / 8 ≤ cellInfo.dataLen := by
  unfold CellSerializationInfo.getBits at h
  cases hbits : cellInfo.dataWithBits with
  | false =>
    rw [hbits, if_neg (by simp)] at h
    obtain rfl := Except.ok.inj h
    omega
  | true =>
    have hpos := hlen hbits
    rw [hbits, if_pos rfl] at h
    obtain ⟨last, -, h⟩ := bind_eq_ok.mp h
    split at h
    · cases h
    · obtain rfl := Except.ok.inj h
      omega

theorem dataReads_lt (hlen : cellInfo.dataWithBits = true → 1 ≤ cellInfo.dataLen) {p : Nat}
    (hp : p ∈ cellInfo.dataReads dataSlice offset) :
    offset ≤ p ∧ p < offset + cellInfo.dataLen := by
  rcases List.mem_append.mp hp with hlast | hbytes
  · cases hbits : cellInfo.dataWithBits with
    | false => simp [hbits] at hlast
    | true =>
      have hpos := hlen hbits
      rw [hbits, if_pos rfl, List.mem_singleton] at hlast
      omega
  · cases hbits : cellInfo.getBits (dataSlice.drop offset) with
    | error stop => simp [hbits] at hbytes
    | ok bits =>
      have hle := getBits_le hlen hbits
      rw [hbits] at hbytes
      obtain ⟨i, hi, rfl⟩ := List.mem_map.mp hbytes
      have hlt := List.mem_range.mp hi
      omega

theorem last_mem_dataReads (hpos : 1 ≤ cellInfo.dataLen) :
    offset + (cellInfo.dataLen - 1) ∈ cellInfo.dataReads dataSlice offset := by
  unfold CellSerializationInfo.dataReads
  cases hbits : cellInfo.dataWithBits with
  | true => simp
  | false =>
    have hget : cellInfo.getBits (dataSlice.drop offset) = .ok (cellInfo.dataLen * 8) := by
      unfold CellSerializationInfo.getBits
      rw [hbits, if_neg (by simp)]
      rfl
    rw [hget]
    apply List.mem_append_right
    apply List.mem_map_of_mem
    rw [List.mem_range]
    omega

theorem createDataCell_status {cellSlice : Slice} {refs : List DataCell} {message : String}
    (h : cellInfo.createDataCell lib cellSlice dataSlice offset refs = .error (.status message)) :
    offset ≤ dataSlice.len := by
  by_contra hoffset
  have hsubstr : dataSlice.substr offset = .error .abort := if_neg hoffset
  unfold CellSerializationInfo.createDataCell at h
  rw [hsubstr] at h
  cases h

end reads

section intervals
variable {data : Slice} {size : Int} {info : Info} {records : List Record}

theorem recordsDataLength_mono (records : List Record) :
    Monotone fun i => recordsDataLength (records.take i) := by
  apply monotone_nat_of_le_succ
  intro i
  by_cases hi : i < records.length
  · rw [recordsDataLength_take_succ hi]
    exact Nat.le_add_right _ _
  · rw [List.take_of_length_le (by omega), List.take_of_length_le (by omega)]

theorem cellDataIntervals_consecutive (h : Parsed data size info) (hindex : info.hasIndex = false)
    (hscan : scanRecords info.refByteSize info.cellCount.toNat (info.cellsOf data) =
      .ok records) :
    (indexedBag data info records).cellDataIntervals
        ((info.cellsOf data).take (recordsLength records)) =
      .ok (consecutive (fun i => recordsDataLength (records.take i)) info.cellCount.toNat) :=
  (h.indexed hindex hscan).intervals rfl

/-- The data lengths that the records declare fill the section behind them. -/
def SectionFilled (data : Slice) (info : Info) (records : List Record) : Prop :=
  recordsDataLength records = (info.cellDataOf data records).len

theorem partitions_iff_filled
    (hscan : scanRecords info.refByteSize info.cellCount.toNat (info.cellsOf data) =
      .ok records) :
    Partitions (consecutive (fun i => recordsDataLength (records.take i)) info.cellCount.toNat) 0
        (info.cellDataOf data records).len ↔ SectionFilled data info records := by
  have hmono := recordsDataLength_mono records
  have hlast : recordsDataLength (records.take info.cellCount.toNat) = recordsDataLength records := by
    rw [← (scanRecords_walked hscan).length_eq, List.take_length]
  constructor
  · intro h
    have hend := h.end_eq hmono (Nat.zero_le _)
    rw [hlast] at hend
    exact hend.symm
  · intro hfilled
    have hparts := partitions_consecutive hmono info.cellCount.toNat
    rw [hlast, hfilled] at hparts
    exact hparts

end intervals

/-- The loop over the cells in topological order comes to the cell `idx`. -/
def ReachedByLoop (lib : CellLib) (data : Slice) (info : Info) (records : List Record)
    (refs : Fin info.cellCount.toNat → List (Fin info.cellCount.toNat))
    (idx : Fin info.cellCount.toNat) : Prop :=
  ∃ pre post,
    (indexedBag data info records).getTopolOrder
      ((info.cellsOf data).take (recordsLength records)) info.cellCount.toNat =
        .ok (cellNumbers (pre ++ idx :: post)) ∧
    ∀ x ∈ pre, ∃ cell,
      Rebuilt refs (createFrom lib records (info.cellDataOf data records)) x cell

/-- The data intervals of an accepted bag partition its data section, another
bag is rejected with an error, and the loop over the cells looks at no byte
behind the section. -/
structure SectionsCovered (lib : CellLib) (data : Slice) (maxRoots : Int) : Prop where
  covered : ∀ value, 0 < value → (deserialize lib data maxRoots .fresh).1 = .ok value →
    ∃ info records intervals, Parsed data value info ∧
      scanRecords info.refByteSize info.cellCount.toNat (info.cellsOf data) = .ok records ∧
      (indexedBag data info records).cellDataIntervals
        ((info.cellsOf data).take (recordsLength records)) = .ok intervals ∧
      Partitions intervals 0 (info.cellDataOf data records).len
  rejected : ∀ size info records, Parsed data size info →
    scanRecords info.refByteSize info.cellCount.toNat (info.cellsOf data) = .ok records →
    ¬ SectionFilled data info records →
    ∃ message, (deserialize lib data maxRoots .fresh).1 = .error (.status message)
  inside : ∀ size info records refs, Parsed data size info → Accepted lib data maxRoots info →
    info.hasIndex = false →
    scanRecords info.refByteSize info.cellCount.toNat (info.cellsOf data) = .ok records →
    RecordGraph info.refByteSize records refs →
    ∀ idx record, ReachedByLoop lib data info records refs idx →
      records[idx.val]? = some record →
      recordsDataLength (records.take idx.val) ≤ (info.cellDataOf data records).len →
      ∀ p ∈ record.2.dataReads (info.cellDataOf data records)
          (recordsDataLength (records.take idx.val)),
        p < (info.cellDataOf data records).len

section outcomes
variable {lib : CellLib} {data : Slice} {maxRoots size : Int} {info : Info}
variable {records : List Record}
variable {refs : Fin info.cellCount.toNat → List (Fin info.cellCount.toNat)}

/-- The order stops at a cell that is refused with an error, and no cell up to
there has data behind the section. -/
def RefusedInside (lib : CellLib) (data : Slice) (info : Info) (records : List Record) : Prop :=
  ∃ refs, RecordGraph info.refByteSize records refs ∧
    RebuildRefused lib data info records refs ∧
    ∀ idx, ReachedByLoop lib data info records refs idx →
      recordsDataLength (records.take (idx.val + 1)) ≤ (info.cellDataOf data records).len

theorem RecordGraph.unique {n rbs : Nat} {refs refs' : Fin n → List (Fin n)}
    (h : RecordGraph rbs records refs) (h' : RecordGraph rbs records refs') : refs = refs' := by
  funext idx
  obtain ⟨record, hrecord, hrefs⟩ := h idx
  obtain ⟨record', hrecord', hrefs'⟩ := h' idx
  obtain rfl := Option.some.inj (hrecord.symm.trans hrecord')
  exact cellNumbers_injective (hrefs.symm.trans hrefs')

/-- A complete bag that the reader accepts has no index section, well-formed
records and references in range. -/
theorem deserialize_ok (h : Parsed data size info) {value : Int}
    (hvalue : (deserialize lib data maxRoots .fresh).1 = .ok value) :
    Accepted lib data maxRoots info ∧ info.hasIndex = false ∧
      ∃ (records : List Record)
        (refs : Fin info.cellCount.toNat → List (Fin info.cellCount.toNat)),
      scanRecords info.refByteSize info.cellCount.toNat (info.cellsOf data) = .ok records ∧
      RecordGraph info.refByteSize records refs := by
  have haccept : Accepted lib data maxRoots info := by
    by_contra hnot
    obtain ⟨message, hmessage⟩ := deserialize_refused lib maxRoots h (.inl hnot)
    rw [hmessage] at hvalue
    cases hvalue
  have hindex : info.hasIndex = false := by
    by_contra hnot
    rw [deserialize_hasIndex h haccept (Bool.eq_true_of_not_eq_false hnot)] at hvalue
    cases hvalue
  refine ⟨haccept, hindex, ?_⟩
  cases hscan : scanRecords info.refByteSize info.cellCount.toNat (info.cellsOf data) with
  | error stop =>
    obtain ⟨message, hmessage⟩ := deserialize_refused lib maxRoots h (.inr ⟨hindex, stop, hscan⟩)
    rw [hmessage] at hvalue
    cases hvalue
  | ok records =>
    by_cases hgood : RefsInRange info.refByteSize info.cellCount.toNat records
    · obtain ⟨refs, hgraph⟩ := hgood.exists_graph (scanRecords_walked hscan).length_eq
      exact ⟨records, refs, rfl, hgraph⟩
    · rw [deserialize_badRef h haccept hindex hscan hgood] at hvalue
      cases hvalue

theorem rebuildRefused_of_status (h : Parsed data size info)
    (haccept : Accepted lib data maxRoots info)
    (hscan : scanRecords info.refByteSize info.cellCount.toNat (info.cellsOf data) =
      .ok records) {message : String}
    (hmessage : (deserialize lib data maxRoots .fresh).1 = .error (.status message)) :
    info.hasIndex = false ∧ ∃ refs, RecordGraph info.refByteSize records refs ∧
      RebuildRefused lib data info records refs := by
  have hindex : info.hasIndex = false := by
    by_contra hnot
    rw [deserialize_hasIndex h haccept (Bool.eq_true_of_not_eq_false hnot)] at hmessage
    cases hmessage
  refine ⟨hindex, ?_⟩
  by_cases hgood : RefsInRange info.refByteSize info.cellCount.toNat records
  · obtain ⟨refs, hgraph⟩ := hgood.exists_graph (scanRecords_walked hscan).length_eq
    obtain ⟨order, -, htopol, hends⟩ := deserializeCells_graph h haccept hindex hscan hgraph
    rcases hends.of_error hmessage with hfirst | ⟨hsite, -⟩
    · exact ⟨refs, hgraph, order, message, htopol, hfirst⟩
    · cases hsite
  · rw [deserialize_badRef h haccept hindex hscan hgood] at hmessage
    cases hmessage

theorem ReachedByLoop.offset_le {idx : Fin info.cellCount.toNat}
    (hreached : ReachedByLoop lib data info records refs idx)
    (hrefused : RebuildRefused lib data info records refs) {record : Record}
    (hrecord : records[idx.val]? = some record) :
    recordsDataLength (records.take idx.val) ≤ (info.cellDataOf data records).len := by
  have hcreate : ∀ below, createFrom lib records (info.cellDataOf data records) idx below =
      record.2.createDataCell lib record.1 (info.cellDataOf data records)
        (recordsDataLength (records.take idx.val)) below := by
    intro below
    simp only [createFrom, hrecord]
  obtain ⟨pre, post, htopol, hpre⟩ := hreached
  obtain ⟨order, message, htopol', hfirst⟩ := hrefused
  rw [htopol] at htopol'
  obtain rfl := cellNumbers_injective (Except.ok.inj htopol')
  by_cases hrebuilt : ∃ cell, Rebuilt refs (createFrom lib records (info.cellDataOf data records))
      idx cell
  · obtain ⟨cell, ⟨-, -, hcreated⟩⟩ := hrebuilt
    rw [hcreate] at hcreated
    obtain ⟨bits, bitString, hfrom⟩ := (createDataCell_ends _ _ _ _ _ _).of_ok hcreated
    exact hfrom.offset_le
  · obtain ⟨pre', idx', post', hsplit, hpre', below, hlength, hbelow, reason, herror, hstop⟩ :=
      hfirst
    obtain rfl := eq_of_first hsplit hpre hpre' hrebuilt
      (not_rebuilt_of_error hlength hbelow herror)
    rw [hcreate] at herror
    cases reason with
    | status message' => exact createDataCell_status herror
    | outOfRange site => cases hstop
    | abort => cases hstop
    | uninitialised => cases hstop
    | outOfFuel => cases hstop

end outcomes

/-- The sections are kept on the bags whose data fill the section, and on those
that are refused before the loop over the cells or inside the section. -/
theorem sectionsCovered_iff (lib : CellLib) (data : Slice) (maxRoots : Int) :
    SectionsCovered lib data maxRoots ↔ ∀ size info records, Parsed data size info →
      scanRecords info.refByteSize info.cellCount.toNat (info.cellsOf data) = .ok records →
      SectionFilled data info records ∨ ¬ Accepted lib data maxRoots info ∨
        info.hasIndex = false ∧ RefusedInside lib data info records := by
  constructor
  · intro hcovered size info records h hscan
    rw [or_iff_not_imp_left, or_iff_not_imp_left, not_not]
    intro hfilled haccept
    obtain ⟨message, hmessage⟩ := hcovered.rejected size info records h hscan hfilled
    obtain ⟨hindex, refs, hgraph, hrefused⟩ :=
      rebuildRefused_of_status h haccept hscan hmessage
    refine ⟨hindex, refs, hgraph, hrefused, fun idx hreached => ?_⟩
    obtain ⟨record, hrecord, -⟩ := hgraph idx
    obtain ⟨hidx, rfl⟩ := List.getElem?_eq_some_iff.mp hrecord
    have hoffset := hreached.offset_le hrefused hrecord
    rw [recordsDataLength_take_succ hidx]
    by_cases hpos : 1 ≤ records[idx.val].2.dataLen
    · have hlast := hcovered.inside size info records refs h haccept hindex hscan hgraph idx _
        hreached hrecord hoffset _ (last_mem_dataReads hpos)
      omega
    · omega
  · intro hcond
    constructor
    · intro value hpos hvalue
      obtain ⟨⟨size, info⟩, hparse, -⟩ :=
        returns_iff.mp (parseSerializedHeader_ends Info.fresh data)
      by_cases hsize : 0 < size ∧ size ≤ data.len
      · have h : Parsed data size info := ⟨hparse, hsize.1, hsize.2⟩
        obtain ⟨haccept, hindex, records, refs, hscan, hgraph⟩ := deserialize_ok h hvalue
        obtain ⟨order, -, -, hends⟩ := deserializeCells_graph h haccept hindex hscan hgraph
        obtain ⟨rfl, -⟩ := hends.of_ok hvalue
        refine ⟨info, records, _, h, hscan, cellDataIntervals_consecutive h hindex hscan, ?_⟩
        apply (partitions_iff_filled hscan).mpr
        rcases hcond _ info records h hscan with hfilled | hnot | ⟨-, refs', hgraph', hrefused, -⟩
        · exact hfilled
        · exact absurd haccept hnot
        · obtain ⟨message, hmessage⟩ :=
            deserialize_rebuildRefused h haccept hindex hscan hgraph' hrefused
          rw [hmessage] at hvalue
          cases hvalue
      · have hneg := (deserialize_incomplete lib maxRoots hparse hsize).of_ok hvalue
        omega
    · intro size info records h hscan hfilled
      by_cases haccept : Accepted lib data maxRoots info
      · rcases hcond size info records h hscan with hyes | hnot | ⟨hindex, refs, hgraph, hrefused, -⟩
        · exact absurd hyes hfilled
        · exact absurd haccept hnot
        · exact deserialize_rebuildRefused h haccept hindex hscan hgraph hrefused
      · exact deserialize_refused lib maxRoots h (.inl haccept)
    · intro size info records refs h haccept hindex hscan hgraph idx record hreached hrecord
        hoffset p hp
      obtain ⟨hidx, rfl⟩ := List.getElem?_eq_some_iff.mp hrecord
      have hwalk := scanRecords_walked hscan
      have hsucc := recordsDataLength_take_succ hidx
      obtain ⟨-, hlt⟩ := dataReads_lt (init_dataLen (hwalk.record idx.val hidx).1) hp
      have hend : recordsDataLength (records.take (idx.val + 1)) ≤
          (info.cellDataOf data records).len := by
        rcases hcond size info records h hscan with hfilled | hnot | ⟨-, refs', hgraph', -, hinside⟩
        · have hle := recordsDataLength_mono records hidx
          dsimp only at hle
          rw [List.take_length] at hle
          exact hle.trans (le_of_eq hfilled)
        · exact absurd haccept hnot
        · obtain rfl := hgraph.unique hgraph'
          exact hinside idx hreached
      omega

/-- A bag of one cell that declares one byte of data, with no data section. -/
def overrunBag : Slice :=
  Slice.ofBytes [0xb5, 0xee, 0x9c, 0x72, 1, 1, 1, 1, 0, 2, 0, 0, 2]

/-- A bag of one cell without data, with one byte in its data section. -/
def surplusBag : Slice :=
  Slice.ofBytes [0xb5, 0xee, 0x9c, 0x72, 1, 1, 1, 1, 0, 3, 0, 0, 0, 0xff]

def overrunInfo : Info :=
  { Info.fresh with
    magic := bocGeneric
    rootCount := 1
    cellCount := 1
    refByteSize := 1
    offsetByteSize := 1
    valid := true
    hasRoots := true
    rootsOffset := 10
    indexOffset := 11
    dataOffset := 11
    dataSize := 2
    totalSize := 13 }

theorem overrunBag_scanned : Parsed overrunBag 13 overrunInfo ∧ ∃ records,
    scanRecords overrunInfo.refByteSize overrunInfo.cellCount.toNat
      (overrunInfo.cellsOf overrunBag) = .ok records ∧
    ¬ SectionFilled overrunBag overrunInfo records := by
  refine ⟨⟨by decide +kernel, by decide, by decide⟩, ?_⟩
  have hlengths : (scanRecords overrunInfo.refByteSize overrunInfo.cellCount.toNat
      (overrunInfo.cellsOf overrunBag)).map (fun records =>
        (recordsDataLength records, (overrunInfo.cellDataOf overrunBag records).len)) =
      .ok (1, 0) := by
    decide +kernel
  cases hscan : scanRecords overrunInfo.refByteSize overrunInfo.cellCount.toNat
      (overrunInfo.cellsOf overrunBag) with
  | error stop =>
    rw [hscan] at hlengths
    cases hlengths
  | ok records =>
    rw [hscan] at hlengths
    refine ⟨records, rfl, fun hfilled => ?_⟩
    obtain ⟨hdata, hsection⟩ := Prod.mk.inj (Except.ok.inj hlengths)
    rw [SectionFilled, hdata, hsection] at hfilled
    cases hfilled

/-- The byte behind the end of the buffer is read as the data of the cell; and a
byte of the section that belongs to no cell is accepted. -/
theorem overrunBag_read :
    (deserialize packingLib overrunBag 1 .fresh).1 = .error (.outOfRange .buffer) ∧
      ¬ SectionsCovered packingLib overrunBag 1 ∧
      (deserialize packingLib surplusBag 1 .fresh).1 = .ok 14 := by
  have hrun : (deserialize packingLib overrunBag 1 .fresh).1 = .error (.outOfRange .buffer) := by
    decide +kernel
  refine ⟨hrun, fun h => ?_, by decide +kernel⟩
  obtain ⟨hparsed, records, hscan, hfilled⟩ := overrunBag_scanned
  obtain ⟨message, hmessage⟩ := h.rejected 13 overrunInfo records hparsed hscan hfilled
  rw [hrun] at hmessage
  cases hmessage

end TonCompress.Boc
