import TonCompress.Whole.Index
import TonCompress.Whole.Again

/-! How the rebuilding of the cells can stop, and what of the object it looks at. -/
namespace TonCompress.Whole
open TonCompress.Lib TonCompress.Boc MyBagOfCells

def IsStatus (stop : Stop BocSite) : Prop := ∃ message, stop = .status message

section creating
variable {lib : CellLib} {cellInfo : CellSerializationInfo} {cellSlice : Slice}
variable {refByteSize : Nat}

theorem getBits_ends (hshape : RecordShape refByteSize cellInfo)
    (hlen : cellInfo.endOffset ≤ cellSlice.len) :
    Ends (cellInfo.getBits cellSlice) (fun bits => (bits + 7) / 8 ≤ cellInfo.dataLen) IsStatus := by
  have hmem := cellSlice.len_le
  have hrefs := hshape.refsOffset
  have hends := hshape.endOffset
  unfold CellSerializationInfo.getBits
  refine ends_ite.mpr ⟨fun hbits => ?_, fun _ => ?_⟩
  · have hpos := hshape.dataLen_pos hbits
    have hread : readByte cellSlice.mem (cellInfo.dataOffset + cellInfo.dataLen - 1) =
        .ok (cellSlice.mem[cellInfo.dataOffset + cellInfo.dataLen - 1]) :=
      vecGet_natCast _ _ _ (by omega)
    rw [hread, ends_ok_bind]
    refine ends_ite.mpr ⟨fun _ => ⟨_, rfl⟩, fun _ => ?_⟩
    rw [ends_pure]
    omega
  · rw [ends_pure]
    omega

theorem significant_count : ∀ (mask : Fin 8) (level : Fin 4), level.val < getLevel mask.val →
    isSignificant mask.val level.val = true →
    (List.range level.val).countP (isSignificant mask.val) < getHashesCount mask.val := by
  decide +kernel

theorem getLevel_le : ∀ mask : Fin 8, getLevel mask.val ≤ 3 := by
  decide +kernel

theorem getHashesCount_pos (mask : Nat) : 0 < getHashesCount mask := Nat.succ_pos _

theorem checkHashes_ends (hshape : RecordShape refByteSize cellInfo)
    (hlen : cellInfo.endOffset ≤ cellSlice.len) (hwith : cellInfo.withHashes = true)
    (res : DataCell) :
    Ends (cellInfo.checkHashes lib cellSlice res) (fun _ => True) IsStatus := by
  have hmem := cellSlice.len_le
  have hhashes := hshape.hashesOffset
  have hdepth := hshape.depthOffset hwith
  have hdata := hshape.dataOffset hwith
  have hrefs := hshape.refsOffset
  have hends := hshape.endOffset
  unfold hashBytes at hdepth
  unfold depthBytes at hdata
  have hhash : ∀ i < getHashesCount cellInfo.levelMask, Returns (do
      let slice ← cellSlice.substrUpTo (cellInfo.hashesOffset + hashBytes * i) hashBytes
      readBytes slice.mem slice.len) fun _ => True := by
    intro i hi
    rw [Slice.substrUpTo_ok (by unfold hashBytes; omega), ok_bind]
    unfold readBytes
    rw [if_pos (Slice.len_le _)]
    trivial
  have hdepths : ∀ i < getHashesCount cellInfo.levelMask, Returns (do
      let slice ← cellSlice.substrUpTo (cellInfo.depthOffset + depthBytes * i) depthBytes
      readInt slice.mem depthBytes) fun _ => True := by
    intro i hi
    unfold depthBytes
    rw [Slice.substrUpTo_ok (by omega), ok_bind]
    rw [readInt_eq (by simp only [Slice.take_mem, Slice.drop_mem, List.length_drop]; omega)
      (by omega)]
    trivial
  have hpos := getHashesCount_pos cellInfo.levelMask
  unfold Boc.CellSerializationInfo.checkHashes
  refine Ends.seq (fun _ => True) ((hhash _ (by omega)).mono (fun _ => id) fun _ => False.elim)
    fun stored _ => ?_
  refine ends_ite.mpr ⟨fun _ => ⟨_, rfl⟩, fun _ => ?_⟩
  refine Ends.seq (fun _ => True) ((hdepths _ (by omega)).mono (fun _ => id) fun _ => False.elim)
    fun stored _ => ?_
  refine ends_ite.mpr ⟨fun _ => ⟨_, rfl⟩, fun _ => ?_⟩
  refine Ends.bind (forRange_ends (fun level hashI =>
    hashI = (List.range level).countP (isSignificant cellInfo.levelMask)) (Nat.zero_le _) rfl ?_)
    fun _ _ => trivial
  rintro level hashI - hlevel rfl
  have hle := getLevel_le ⟨cellInfo.levelMask, hshape.levelMask_lt⟩
  have hcount := significant_count ⟨cellInfo.levelMask, hshape.levelMask_lt⟩
    ⟨level, by dsimp only at hle; omega⟩ hlevel
  dsimp only at hcount
  refine ends_ite.mpr ⟨fun hnot => ?_, fun hyes => ?_⟩
  · rw [ends_pure, List.range_succ, List.countP_append]
    simp only [Bool.not_eq_true'] at hnot
    simp [hnot]
  · have hsignificant : isSignificant cellInfo.levelMask level = true := by simpa using hyes
    have hlt := hcount hsignificant
    refine Ends.seq (fun _ => True) ((hhash _ hlt).mono (fun _ => id) fun _ => False.elim)
      fun stored _ => ?_
    refine ends_ite.mpr ⟨fun _ => ⟨_, rfl⟩, fun _ => ?_⟩
    refine Ends.seq (fun _ => True) ((hdepths _ hlt).mono (fun _ => id) fun _ => False.elim)
      fun stored _ => ?_
    refine ends_ite.mpr ⟨fun _ => ⟨_, rfl⟩, fun _ => ?_⟩
    rw [ends_pure, List.range_succ, List.countP_append]
    simp [hsignificant]

/-- Creating a cell reads inside its record, and fails with a status only. -/
theorem createDataCell_ends (lib : CellLib) (hshape : RecordShape refByteSize cellInfo)
    (hlen : cellInfo.endOffset ≤ cellSlice.len) (refs : List DataCell) :
    Ends (cellInfo.createDataCell lib cellSlice refs) (fun _ => True) IsStatus := by
  have hmem := cellSlice.len_le
  have hrefs := hshape.refsOffset
  have hends := hshape.endOffset
  unfold CellSerializationInfo.createDataCell
  refine (getBits_ends hshape hlen).bind fun bits hbits => ?_
  have hload : loadBits (cellSlice.mem.drop cellInfo.dataOffset) bits =
      .ok ((bitsOf ((cellSlice.mem.drop cellInfo.dataOffset).take ((bits + 7) / 8))).take bits) := by
    unfold loadBits readBytes
    rw [if_pos (by rw [List.length_drop]; omega)]
    rfl
  rw [hload, ends_ok_bind]
  split
  · exact ⟨_, rfl⟩
  · refine ends_ite.mpr ⟨fun _ => ⟨_, rfl⟩, fun _ => ?_⟩
    refine ends_ite.mpr ⟨fun _ => ⟨_, rfl⟩, fun _ => ?_⟩
    refine ends_ite.mpr ⟨fun hwith => ?_, fun _ => trivial⟩
    exact (checkHashes_ends hshape hlen hwith _).bind fun _ _ => trivial

end creating

/-- The stops of the loop over the cells: an error status that names the cell, or an
index into one of its own vectors. -/
inductive LoopStop : Stop BocSite → Prop where
  | status (idx : Int) (message : String) : LoopStop
      (Stop.within s!"invalid bag-of-cells failed to deserialize cell #{idx} " (.status message))
  | vector {site : BocSite} (h : site ≠ .buffer) : LoopStop (.outOfRange site)

inductive CellStop : Stop BocSite → Prop where
  | status (message : String) : CellStop (.status message)
  | vector {site : BocSite} (h : site ≠ .buffer) : CellStop (.outOfRange site)

theorem IsStatus.cellStop {stop : Stop BocSite} (h : IsStatus stop) : CellStop stop := by
  obtain ⟨message, rfl⟩ := h
  exact .status message

theorem CellStop.within {stop : Stop BocSite} (h : CellStop stop) (idx : Int) :
    LoopStop (Stop.within s!"invalid bag-of-cells failed to deserialize cell #{idx} " stop) := by
  cases h with
  | status message => exact .status idx message
  | vector hsite => exact .vector hsite

theorem vecGet_stops {α : Type} {site : BocSite} {stop : Stop BocSite → Prop}
    (h : stop (.outOfRange site)) (v : List α) (i : Int) :
    Ends (vecGet site v i) (fun _ => True) stop := by
  unfold vecGet
  split
  · split
    · trivial
    · exact h
  · exact h

theorem vecSet_stops {α : Type} {site : BocSite} {stop : Stop BocSite → Prop}
    (h : stop (.outOfRange site)) (v : List α) (i : Int) (value : α) :
    Ends (vecSet site v i value) (fun _ => True) stop := by
  unfold vecSet
  exact ends_ite.mpr ⟨fun _ => trivial, fun _ => h⟩

theorem bumpCache_stops (cache : List Nat) (idx : Int) :
    Ends (bumpCache cache idx) (fun _ => True) CellStop := by
  unfold bumpCache
  refine (vecGet_stops (.vector (by decide)) _ _).bind fun cnt _ => ?_
  refine ends_ite.mpr ⟨fun _ => ?_, fun _ => trivial⟩
  exact vecSet_stops (.vector (by decide)) _ _ _

section loop
variable {lib : CellLib} {bag : MyBagOfCells} {cells : Slice} {ends : Nat → Nat} {n : Nat}
variable {refs : Fin n → List (Fin n)}

theorem collectRefs_stops {record : Record} {i : Nat}
    (h : Delimits bag.info.refByteSize cells ends i record) (hrbs : bag.info.refByteSize ≤ 4)
    (idxMap : List Int) (idx : Int) (cellsSpan : List DataCell) (cache : List Nat) :
    Ends (bag.collectRefs idxMap idx record.1 record.2.toCellSerializationInfo cellsSpan cache)
      (fun _ => True) CellStop := by
  unfold collectRefs
  refine (forRange_ends (fun _ _ => True) (Nat.zero_le _) trivial ?_).mono (fun _ _ => trivial)
    fun _ => id
  rintro k ⟨found, cache⟩ - hk -
  have hlength : k < (recordRefs bag.info.refByteSize record).length := by
    simpa [recordRefs, Boc.recordRefs] using hk
  dsimp only
  rw [h.readRefIdx hrbs hlength, ends_ok_bind]
  refine (vecGet_stops (.vector (by decide)) _ _).bind fun mapped _ => ?_
  refine ends_ite.mpr ⟨fun _ => .status _, fun _ => ?_⟩
  refine ends_ite.mpr ⟨fun _ => .status _, fun _ => ?_⟩
  refine (vecGet_stops (.vector (by decide)) _ _).bind fun cell _ => ?_
  cases bag.info.hasCacheBits with
  | true => exact (bumpCache_stops _ _).bind fun _ _ => trivial
  | false => trivial

theorem rebuildLoop_stops (hgraph : CellGraph bag.info.refByteSize cells ends refs)
    (hentries : HasEntries bag n ends) (hrbs : bag.info.refByteSize ≤ 4)
    (order : List (Fin n)) (vars : RebuildVars) :
    Ends (rebuildLoop lib bag cells (cellNumbers order) vars) (fun _ => True) LoopStop := by
  unfold rebuildLoop
  induction order generalizing vars with
  | nil => trivial
  | cons x order ih =>
    obtain ⟨record, hread, hdelimits, -⟩ := hgraph.read hentries x
    obtain ⟨hshape, hlen⟩ := init_shape hdelimits.init
    rw [show cellNumbers (x :: order) = (x.val : Int) :: cellNumbers order from rfl, forEach_cons]
    have hcell : Ends (deserializeCell lib bag vars.idxMap x.val cells vars.cellList
        vars.cellShouldCache) (fun _ => True) CellStop := by
      unfold deserializeCell
      rw [hread, ends_ok_bind]
      refine (collectRefs_stops hdelimits hrbs _ _ _ _).bind fun found _ => ?_
      refine Ends.bind ((createDataCell_ends lib hshape hlen _).mono (fun _ => id) ?_)
        fun _ _ => trivial
      exact fun _ => IsStatus.cellStop
    refine Ends.seq (fun _ => True) ?_ fun vars' _ => ih vars'
    cases hrun : deserializeCell lib bag vars.idxMap x.val cells vars.cellList
        vars.cellShouldCache with
    | error stop => exact (hcell.of_error hrun).within x.val
    | ok out =>
      obtain ⟨cell, cache⟩ := out
      rw [wrapStatus, Except.mapError, ends_ok_bind]
      dsimp only
      refine Ends.seq (fun _ => True) ?_ fun _ _ => trivial
      exact vecSet_stops (.vector (by decide)) _ _ _

end loop

section congruence
variable {lib : CellLib} {bag bag' : MyBagOfCells} {cells : Slice} {had : Bool} {n : Nat}

/-- Objects that the passes over the cells cannot tell apart: all that shows is the
header, the number of cells and the entries of the index. -/
structure SameIndex (had : Bool) (n : Nat) (bag bag' : MyBagOfCells) : Prop where
  info : bag'.info = withRoots had bag.info
  cellCount : bag'.cellCount = bag.cellCount
  entries : ∀ i : Nat, i < n → bag'.getIdxEntryRaw i = bag.getIdxEntryRaw i

theorem SameIndex.getIdxEntry (h : SameIndex had n bag bag') {i : Nat} (hi : i < n) :
    bag'.getIdxEntry i = bag.getIdxEntry i := by
  unfold MyBagOfCells.getIdxEntry
  rw [h.entries i hi, h.info]
  rfl

theorem SameIndex.getIdxEntry_pred (h : SameIndex had n bag bag') {i : Nat} (hi : i < n) :
    bag'.getIdxEntry ((i : Int) - 1) = bag.getIdxEntry ((i : Int) - 1) := by
  cases i with
  | zero =>
    unfold MyBagOfCells.getIdxEntry MyBagOfCells.getIdxEntryRaw
    rw [if_pos (by omega), if_pos (by omega), h.info]
    rfl
  | succ i =>
    rw [show ((i + 1 : Nat) : Int) - 1 = (i : Nat) by omega]
    exact h.getIdxEntry (by omega)

theorem SameIndex.readCellRecord (h : SameIndex had n bag bag') {i : Nat} (hi : i < n) :
    readCellRecord bag' i cells = readCellRecord bag i cells := by
  unfold Whole.readCellRecord MyBagOfCells.getCellSlice
  rw [h.getIdxEntry hi, h.getIdxEntry_pred hi, h.info]
  rfl

theorem SameIndex.readRefIdx (h : SameIndex had n bag bag') :
    bag'.readRefIdx = bag.readRefIdx := by
  funext cellSlice cellInfo k
  unfold MyBagOfCells.readRefIdx
  rw [h.info]
  rfl

theorem SameIndex.getTopolOrder (h : SameIndex had n bag bag') :
    getTopolOrder bag' cells n = getTopolOrder bag cells n := by
  have hgraph : buildReverseGraph bag' cells n = buildReverseGraph bag cells n := by
    unfold buildReverseGraph
    apply forRange_congr (Nat.zero_le n)
    rintro i - hi ⟨revGraph, inDegree⟩
    dsimp only
    rw [h.readCellRecord hi]
    unfold MyBagOfCells.addReferences
    rw [h.readRefIdx]
  unfold Whole.getTopolOrder
  rw [hgraph]

theorem SameIndex.rebuildLoop (h : SameIndex had n bag bag') (order : List (Fin n))
    (vars : RebuildVars) :
    rebuildLoop lib bag' cells (cellNumbers order) vars =
      rebuildLoop lib bag cells (cellNumbers order) vars := by
  unfold Whole.rebuildLoop
  apply forEach_congr
  intro idx hidx vars
  obtain ⟨x, -, rfl⟩ := List.mem_map.mp hidx
  have hcell : ∀ idxMap cellsSpan cache,
      deserializeCell lib bag' idxMap x.val cells cellsSpan cache =
        deserializeCell lib bag idxMap x.val cells cellsSpan cache := by
    intro idxMap cellsSpan cache
    unfold deserializeCell MyBagOfCells.collectRefs
    rw [h.readCellRecord x.isLt, h.readRefIdx, h.cellCount, h.info]
    rfl
  rw [hcell]

theorem SameIndex.checkCacheFlags (h : SameIndex had bag.cellCount.toNat bag bag')
    (cache : List Nat) : bag'.checkCacheFlags cache = bag.checkCacheFlags cache := by
  have hbits : bag'.info.hasCacheBits = bag.info.hasCacheBits := by
    rw [h.info]
    rfl
  unfold MyBagOfCells.checkCacheFlags
  rw [hbits, h.cellCount]
  by_cases hcache : bag.info.hasCacheBits = true
  · rw [if_pos hcache, if_pos hcache]
    apply forRange_congr (Nat.zero_le _)
    rintro i - hi -
    have hentry : bag'.getCacheEntry i = bag.getCacheEntry i := by
      unfold MyBagOfCells.getCacheEntry
      rw [h.entries i hi, h.info]
      rfl
    rw [hentry]
  · rw [if_neg hcache, if_neg hcache]

theorem SameIndex.rebuildCells (h : SameIndex had bag.cellCount.toNat bag bag')
    {ends : Nat → Nat} (hentries : HasEntries bag bag.cellCount.toNat ends)
    (hrbs : bag.info.refByteSize ≤ 4) (data : Slice) (cache : List Nat) :
    rebuildCells lib bag' data cache = rebuildCells lib bag data cache := by
  unfold Whole.rebuildCells
  rw [h.cellCount, h.info]
  dsimp only [withRoots]
  cases data.substrUpTo bag.info.dataOffset bag.info.dataSize with
  | error stop => rfl
  | ok cells =>
    rw [ok_bind, ok_bind, h.getTopolOrder]
    have hends := @getTopolOrder_ends bag cells _ _ hentries hrbs
    cases htopol : Whole.getTopolOrder bag cells bag.cellCount.toNat with
    | error stop => cases stop <;> rfl
    | ok topol =>
      obtain ⟨refs, order, -, rfl, -⟩ := hends.of_ok htopol
      have hok : moveAsOk (.ok (cellNumbers order)) = .ok (cellNumbers order) := rfl
      rw [hok, ok_bind, ok_bind, h.rebuildLoop]
      cases Whole.rebuildLoop lib bag cells (cellNumbers order) _ with
      | error stop => rfl
      | ok vars => rw [ok_bind, ok_bind, h.checkCacheFlags]

end congruence

section stops
variable {lib : CellLib} {bag : MyBagOfCells} {data : Slice} {size : Int} {info : Info}

theorem rebuildCells_stops (lib : CellLib) (h : Parsed data size info) (hinfo : bag.info = info)
    (hcount : bag.cellCount = info.cellCount) (hcache : info.hasCacheBits = false)
    {ends : Nat → Nat} (hentries : HasEntries bag info.cellCount.toNat ends) (cache : List Nat) :
    Ends (rebuildCells lib bag data cache) (fun _ => True) fun stop => LoopStop stop ∨
      stop = .abort ∧ ∃ message,
        getTopolOrder bag (info.cellsOf data) info.cellCount.toNat = .error (.status message) := by
  have hend := h.dataEnd
  have hrbs : bag.info.refByteSize ≤ 4 := hinfo ▸ h.headerOk.refByteSize_le
  have htopol := @getTopolOrder_ends bag (info.cellsOf data) _ _ hentries hrbs
  have hcells : data.substrUpTo info.dataOffset info.dataSize = .ok (info.cellsOf data) :=
    Slice.substrUpTo_ok (by omega) _
  unfold rebuildCells
  rw [hinfo, hcount, hcells, ends_ok_bind]
  cases hrun : getTopolOrder bag (info.cellsOf data) info.cellCount.toNat with
  | error stop =>
    obtain ⟨i, hstop⟩ := htopol.of_error hrun
    by_cases hrecord : ∃ record, Delimits bag.info.refByteSize (info.cellsOf data) ends i record
    · obtain rfl := hstop.dangling hrecord
      exact .inl (.vector (by decide))
    · obtain ⟨message, rfl⟩ := hstop.status hrecord
      exact .inr ⟨rfl, message, rfl⟩
  | ok topol =>
    obtain ⟨refs, order, hgraph, rfl, -⟩ := htopol.of_ok hrun
    have hok : moveAsOk (.ok (cellNumbers order)) = .ok (cellNumbers order) := rfl
    rw [hok, ends_ok_bind]
    refine Ends.bind ((rebuildLoop_stops hgraph hentries hrbs order _).mono (fun _ => id)
      fun _ => Or.inl) fun vars _ => ?_
    unfold MyBagOfCells.checkCacheFlags
    rw [hinfo, hcache]
    trivial

theorem lookUpRoots_stops (roots : List RootInfo) (vars : RebuildVars) :
    Ends (lookUpRoots roots vars) (fun _ => True) LoopStop := by
  unfold lookUpRoots
  induction roots with
  | nil => trivial
  | cons root roots ih =>
    rw [List.mapM_cons]
    refine Ends.seq (fun _ => True) ?_ fun root' _ => ih.bind fun _ _ => trivial
    unfold lookUpRoot
    refine (vecGet_stops (.vector (by decide)) _ _).bind fun mapped _ => ?_
    exact (vecGet_stops (.vector (by decide)) _ _).bind fun cell _ => trivial

end stops

end TonCompress.Whole
