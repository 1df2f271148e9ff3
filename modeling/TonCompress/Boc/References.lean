import TonCompress.Boc.Rebuild

/-! What becomes of references out of range, and of cycles of references. -/
namespace TonCompress.Boc
open TonCompress.Lib MyBagOfCells

def Info.cellDataOf (info : Info) (data : Slice) (records : List Record) : Slice :=
  (data.drop (info.dataOffset + recordsLength records)).take (info.dataSize - recordsLength records)

section rebuilding
variable {lib : CellLib} {data : Slice} {maxRoots size : Int} {info : Info}
variable {records : List Record}

/-- Cache bits are only allowed with an index section. -/
theorem Parsed.hasCacheBits_eq (h : Parsed data size info) (hindex : info.hasIndex = false) :
    info.hasCacheBits = false := by
  by_contra hcache
  have hyes := h.headerOk.cacheBits (Bool.eq_true_of_not_eq_false hcache)
  rw [hindex] at hyes
  cases hyes

theorem Parsed.indexed (hindex : info.hasIndex = false) (h : Parsed data size info)
    (hscan : scanRecords info.refByteSize info.cellCount.toNat (info.cellsOf data) =
      .ok records) :
    Indexed (indexedBag data info records) (info.cellsOf data) info.cellCount.toNat records :=
  ⟨hscan, hindex, h.hasCacheBits_eq hindex, rfl⟩

theorem rebuildCells_eq (h : Parsed data size info) (hindex : info.hasIndex = false)
    (hscan : scanRecords info.refByteSize info.cellCount.toNat (info.cellsOf data) =
      .ok records) :
    (indexedBag data info records).rebuildCells lib data [] = (do
      let topolOrder ← moveAsOk ((indexedBag data info records).getTopolOrder
        ((info.cellsOf data).take (recordsLength records)) info.cellCount.toNat)
      (indexedBag data info records).rebuildLoop lib
        ((info.cellsOf data).take (recordsLength records)) (info.cellDataOf data records)
        ((List.range info.cellCount.toNat).map fun i =>
          (recordsDataLength (records.take i), recordsDataLength (records.take (i + 1))))
        topolOrder ⟨List.replicate info.cellCount.toNat (-1), [], []⟩) := by
  have hok := h.headerOk
  have hend := h.dataEnd
  have hwalk := scanRecords_walked hscan
  have hlen := hwalk.length_le
  have hindexed := h.indexed hindex hscan
  have hpos := hok.cellCount_pos
  have hlarge := hok.dataSize_le
  simp only [Info.cellsOf, Slice.take_len, Slice.drop_len] at hlen
  have hlast : (recordEnds records).getLast? = some (recordsLength records) := by
    rw [List.getLast?_eq_getElem?, recordEnds_length, recordEnds_getElem?]
    · rw [hwalk.length_eq, Nat.sub_add_cancel (by omega), ← hwalk.length_eq, List.take_length]
    · rw [hwalk.length_eq]
      omega
  have hcells : (data.drop info.dataOffset).take (recordsLength records) =
      (info.cellsOf data).take (recordsLength records) := by
    rw [Info.cellsOf, Slice.take_take, min_eq_left (by omega)]
  have hrest : (info.dataOffset + info.dataSize + 2 ^ 64 -
      (info.dataOffset + recordsLength records)) % 2 ^ 64 =
      info.dataSize - recordsLength records := by
    omega
  have hcustom : (indexedBag data info records).customIndex = recordEnds records := rfl
  have hinfo : (indexedBag data info records).info = info := rfl
  have hcount : (indexedBag data info records).cellCount = info.cellCount := rfl
  have hcache : info.hasCacheBits = false := hindexed.hasCacheBits
  rw [rebuildCells, hcustom, hlast, hinfo, hcount]
  simp only [bind, Except.bind, pure, Except.pure]
  rw [Slice.substrUpTo_ok (by omega), Slice.substrUpTo_ok (by omega), hcells, hrest]
  dsimp only
  rw [hindexed.intervals rfl]
  simp only [checkCacheFlags, hinfo, hcache, Info.cellDataOf]
  cases moveAsOk _ with
  | error stop => rfl
  | ok topolOrder =>
    dsimp only
    cases rebuildLoop _ _ _ _ _ _ _ with
    | error stop => rfl
    | ok vars => rfl

def RefsInRange (refByteSize n : Nat) (records : List Record) : Prop :=
  ∀ record ∈ records, ∀ ref ∈ recordRefs refByteSize record, 0 ≤ ref ∧ ref < n

theorem RefsInRange.exists_graph {refByteSize n : Nat} (hlength : records.length = n)
    (h : RefsInRange refByteSize n records) :
    ∃ refs : Fin n → List (Fin n), RecordGraph refByteSize records refs := by
  have hcell : ∀ idx : Fin n, ∃ list : List (Fin n),
      recordRefs refByteSize records[idx.val] = cellNumbers list := fun idx =>
    exists_cellNumbers (h _ (List.getElem_mem _))
  choose refs hrefs using hcell
  exact ⟨refs, fun idx => ⟨_, List.getElem?_eq_getElem (by omega), hrefs idx⟩⟩

theorem Indexed.tableOf {bag : MyBagOfCells} {cells : Slice} {n : Nat}
    (h : Indexed bag cells n records) (hrbs : bag.info.refByteSize ≤ 4)
    {refs : Fin n → List (Fin n)} (hgraph : RecordGraph bag.info.refByteSize records refs) :
    TableOf bag (cells.take (recordsLength records)) refs := by
  intro idx
  obtain ⟨record, hrecord, hrefs⟩ := hgraph idx
  obtain ⟨hidx, rfl⟩ := List.getElem?_eq_some_iff.mp hrecord
  rw [← hrefs]
  exact h.hasRecord hidx hrbs

/-- The reverse graph is only built when every reference is in range: the first
other one is used as an index. -/
theorem Indexed.buildReverseGraph_total {bag : MyBagOfCells} {cells : Slice} {n : Nat}
    (h : Indexed bag cells n records) (hrbs : bag.info.refByteSize ≤ 4) :
    Ends (bag.buildReverseGraph (cells.take (recordsLength records)) n)
      (fun _ => RefsInRange bag.info.refByteSize n records)
      (fun stop => stop = .outOfRange .revGraph) := by
  have hlength := (scanRecords_walked h.scan).length_eq
  rw [buildReverseGraph]
  refine Ends.mono (forRange_ends (fun i (state : List (List Int) × List Int) =>
    state.1.length = n ∧ state.2.length = n ∧
    RefsInRange bag.info.refByteSize n (records.take i)) (Nat.zero_le n) ?_ ?_) ?_ fun _ => id
  · exact ⟨by simp, by simp, by simp [RefsInRange]⟩
  · rintro i ⟨revGraph, inDegree⟩ - hi ⟨hrev, hdeg, hdone⟩
    have hi' : i < records.length := by omega
    have hread := h.readCellRecord hi'
    have hcnt : records[i].2.refsCnt =
        (recordRefs bag.info.refByteSize records[i]).length := by simp [recordRefs]
    dsimp only at hrev hdeg ⊢
    rw [hread, ends_ok_bind]
    refine (addReferences_total (by omega) hcnt (fun k => h.readRefIdx hi' hrbs) hrev hdeg).mono ?_
      fun stop hstop => hstop.1
    rintro state ⟨hrev, hdeg, hrefs⟩
    refine ⟨hrev, hdeg, ?_⟩
    intro record hrecord
    rw [List.take_succ_eq_append_getElem hi', List.mem_append, List.mem_singleton] at hrecord
    rcases hrecord with hrecord | rfl
    · exact hdone record hrecord
    · exact hrefs
  · rintro _ ⟨-, -, hall⟩
    rwa [List.take_of_length_le (by omega)] at hall

/-- How the cells of a scanned bag are rebuilt: not at all when a reference is
out of range, else in topological order. -/
theorem rebuildCells_ends (lib : CellLib) (h : Parsed data size info) (hindex : info.hasIndex = false)
    (hscan : scanRecords info.refByteSize info.cellCount.toNat (info.cellsOf data) =
      .ok records) {refs : Fin info.cellCount.toNat → List (Fin info.cellCount.toNat)}
    (hgraph : RecordGraph info.refByteSize records refs) :
    ∃ order, TopologicalOrder refs order ∧
      (indexedBag data info records).getTopolOrder
        ((info.cellsOf data).take (recordsLength records)) info.cellCount.toNat =
          .ok (cellNumbers order) ∧
      Ends ((indexedBag data info records).rebuildCells lib data [])
        (RebuildInv refs (createFrom lib records (info.cellDataOf data records)) order)
        (FirstRefused refs (createFrom lib records (info.cellDataOf data records)) order) := by
  have hindexed := h.indexed hindex hscan
  have hrbs : (indexedBag data info records).info.refByteSize ≤ 4 := h.headerOk.refByteSize_le
  have hpos := h.headerOk.cellCount_pos
  obtain ⟨_, htopol, order, rfl, horder⟩ := returns_iff.mp
    (getTopolOrder_ends (hindexed.tableOf hrbs hgraph))
  refine ⟨order, horder, htopol, ?_⟩
  rw [rebuildCells_eq h hindex hscan, htopol]
  have hcount : (indexedBag data info records).cellCount = (info.cellCount.toNat : Int) := by
    change info.cellCount = _
    omega
  exact rebuildLoop_ends hindexed hrbs hcount hgraph horder

theorem rebuildCells_outOfRange (lib : CellLib) (h : Parsed data size info) (hindex : info.hasIndex = false)
    (hscan : scanRecords info.refByteSize info.cellCount.toNat (info.cellsOf data) =
      .ok records) (hbad : ¬ RefsInRange info.refByteSize info.cellCount.toNat records) :
    (indexedBag data info records).rebuildCells lib data [] =
      .error (.outOfRange .revGraph) := by
  have htotal := (h.indexed hindex hscan).buildReverseGraph_total h.headerOk.refByteSize_le
  rw [rebuildCells_eq h hindex hscan, getTopolOrder]
  revert htotal
  cases buildReverseGraph _ _ _ with
  | error stop =>
    intro hstop
    obtain rfl : stop = _ := hstop
    rfl
  | ok out =>
    intro hall
    exact absurd hall hbad

end rebuilding

def isRefSite : BocSite → Bool
  | .revGraph | .idxMap | .cellsSpan | .cellShouldCache => true
  | _ => false

/-- A stop at no vector that references index. -/
def Harmless (stop : Stop BocSite) : Prop := ∀ site, stop = .outOfRange site → isRefSite site = false

theorem harmless_status (message : String) : Harmless (.status message) := nofun

theorem readByte_harmless (ptr : List UInt8) (i : Nat) :
    Ends (readByte ptr i) (fun _ => True) Harmless := by
  unfold readByte vecGet
  split
  · split
    · trivial
    · rintro _ ⟨⟩
      rfl
  · rintro _ ⟨⟩
    rfl

theorem readBytes_harmless (ptr : List UInt8) (count : Nat) :
    Ends (readBytes ptr count) (fun _ => True) Harmless := by
  unfold readBytes
  refine ends_ite.mpr ⟨fun _ => trivial, fun _ => ?_⟩
  rintro _ ⟨⟩
  rfl

theorem readIntLoop_harmless (ptr : List UInt8) (bytes res : Nat) :
    Ends (readIntLoop ptr bytes res) (fun _ => True) Harmless := by
  induction bytes generalizing ptr res with
  | zero => simp [readIntLoop]
  | succ bytes ih =>
    cases ptr with
    | nil =>
      rintro _ ⟨⟩
      rfl
    | cons byte ptr => exact ih ptr _

theorem substr_harmless (slice : Slice) (offset : Nat) :
    Ends (slice.substr offset) (fun _ => True) Harmless := by
  unfold Slice.substr
  exact ends_ite.mpr ⟨fun _ => trivial, fun _ => nofun⟩

theorem substrUpTo_harmless (slice : Slice) (offset size : Nat) :
    Ends (slice.substrUpTo offset size) (fun _ => True) Harmless := by
  unfold Slice.substrUpTo
  exact ends_ite.mpr ⟨fun _ => trivial, fun _ => nofun⟩

theorem checkHashes_harmless (lib : CellLib) (cellInfo : CellSerializationInfo)
    (cellSlice : Slice) (res : DataCell) :
    Ends (cellInfo.checkHashes lib cellSlice res) (fun _ => True) Harmless := by
  have hhash : ∀ offset : Nat, Ends (do
      let slice ← cellSlice.substrUpTo offset hashBytes
      readBytes slice.mem slice.len) (fun _ => True) Harmless := fun offset =>
    (substrUpTo_harmless _ _ _).bind fun slice _ => readBytes_harmless _ _
  have hdepth : ∀ offset : Nat, Ends (do
      let slice ← cellSlice.substrUpTo offset depthBytes
      readInt slice.mem depthBytes) (fun _ => True) Harmless := fun offset =>
    (substrUpTo_harmless _ _ _).bind fun slice _ => readIntLoop_harmless _ _ _
  unfold CellSerializationInfo.checkHashes
  refine (hhash _).bind fun stored _ => ?_
  refine ends_ite.mpr ⟨fun _ => harmless_status _, fun _ => ?_⟩
  refine (hdepth _).bind fun stored _ => ?_
  refine ends_ite.mpr ⟨fun _ => harmless_status _, fun _ => ?_⟩
  refine Ends.bind (forRange_ends (fun _ _ => True) (Nat.zero_le _) trivial ?_) fun _ _ => trivial
  rintro level hashI - - -
  refine ends_ite.mpr ⟨fun _ => trivial, fun _ => ?_⟩
  refine (hhash _).bind fun stored _ => ?_
  refine ends_ite.mpr ⟨fun _ => harmless_status _, fun _ => ?_⟩
  refine (hdepth _).bind fun stored _ => ?_
  exact ends_ite.mpr ⟨fun _ => harmless_status _, fun _ => trivial⟩

theorem createDataCell_harmless (lib : CellLib) (cellInfo : CellSerializationInfo)
    (cellSlice dataSlice : Slice) (offset : Nat) (refs : List DataCell) :
    Ends (cellInfo.createDataCell lib cellSlice dataSlice offset refs) (fun _ => True)
      Harmless := by
  unfold CellSerializationInfo.createDataCell
  refine (substr_harmless _ _).bind fun slice _ => ?_
  refine Ends.seq (fun _ => True) ?_ fun bits _ => ?_
  · unfold CellSerializationInfo.getBits
    refine ends_ite.mpr ⟨fun _ => ?_, fun _ => trivial⟩
    refine (readByte_harmless _ _).bind fun last _ => ?_
    exact ends_ite.mpr ⟨fun _ => harmless_status _, fun _ => trivial⟩
  · refine Ends.seq (fun _ => True) ?_ fun bitString _ => ?_
    · exact (readBytes_harmless _ _).bind fun _ _ => trivial
    · split
      · exact harmless_status _
      · refine ends_ite.mpr ⟨fun _ => harmless_status _, fun _ => ?_⟩
        refine ends_ite.mpr ⟨fun _ => harmless_status _, fun _ => ?_⟩
        refine ends_ite.mpr ⟨fun _ => ?_, fun _ => trivial⟩
        exact (checkHashes_harmless _ _ _ _).bind fun _ _ => trivial

structure CreatedFrom (lib : CellLib) (cellInfo : CellSerializationInfo) (dataSlice : Slice)
    (offset : Nat) (refs : List DataCell) (bits : Nat) (bitString : List Bool) (cell : DataCell) :
    Prop where
  offset_le : offset ≤ dataSlice.len
  getBits : cellInfo.getBits (dataSlice.drop offset) = .ok bits
  loadBits : loadBits (dataSlice.drop offset).mem bits = .ok bitString
  finalize : lib.finalizeNovmNothrow bitString refs cellInfo.special = .ok cell

theorem createDataCell_ends (lib : CellLib) (cellInfo : CellSerializationInfo)
    (cellSlice dataSlice : Slice) (offset : Nat) (refs : List DataCell) :
    Ends (cellInfo.createDataCell lib cellSlice dataSlice offset refs)
      (fun cell => ∃ bits bitString, CreatedFrom lib cellInfo dataSlice offset refs bits bitString cell)
      fun _ => True := by
  unfold CellSerializationInfo.createDataCell
  by_cases hoffset : offset ≤ dataSlice.len
  · rw [Slice.substr_ok hoffset, ends_ok_bind]
    cases hbits : cellInfo.getBits (dataSlice.drop offset) with
    | error stop => trivial
    | ok bits =>
      rw [ends_ok_bind]
      cases hload : Boc.loadBits (dataSlice.drop offset).mem bits with
      | error stop => trivial
      | ok bitString =>
        rw [ends_ok_bind]
        cases hfinal : lib.finalizeNovmNothrow bitString refs cellInfo.special with
        | error message => trivial
        | ok res =>
          have hres : ∃ bits bitString,
              CreatedFrom lib cellInfo dataSlice offset refs bits bitString res :=
            ⟨bits, bitString, hoffset, hbits, hload, hfinal⟩
          refine ends_ite.mpr ⟨fun _ => trivial, fun _ => ?_⟩
          refine ends_ite.mpr ⟨fun _ => trivial, fun _ => ?_⟩
          refine ends_ite.mpr ⟨fun _ => ?_, fun _ => hres⟩
          exact Ends.seq (fun _ => True) (Ends.mono (checkHashes_harmless _ _ _ _) (fun _ => id)
            fun _ _ => trivial) fun _ _ => hres
  · unfold Slice.substr
    rw [if_neg hoffset]
    trivial

theorem FirstRefused.harmless {n : Nat} {refs : Fin n → List (Fin n)} {lib : CellLib}
    {records : List Record} {dataSlice : Slice} {order : List (Fin n)} {stop : Stop BocSite}
    (h : FirstRefused refs (createFrom lib records dataSlice) order stop) : Harmless stop := by
  obtain ⟨pre, idx, post, -, -, below, -, -, reason, herror, rfl⟩ := h
  have hreason : Harmless reason := by
    unfold createFrom at herror
    split at herror
    · exact (createDataCell_harmless _ _ _ _ _ _).of_error herror
    · obtain rfl := Except.error.inj herror
      exact nofun
  intro site hsite
  cases reason with
  | outOfRange site' => exact hreason site hsite
  | status message => cases hsite
  | abort => cases hsite
  | uninitialised => cases hsite
  | outOfFuel => cases hsite

/-- `data` is a complete bag one of whose records, reached by a walk over
well-formed records, refers to a cell that the bag does not have. -/
def HasBadRef (data : Slice) : Prop :=
  ∃ size info, Parsed data size info ∧
    ∃ i < info.cellCount.toNat, ∃ records,
      scanRecords info.refByteSize (i + 1) (info.cellsOf data) = .ok records ∧
      ¬ RefsInRange info.refByteSize info.cellCount.toNat records

/-- A complete bag is refused before its references are looked at: by a check of
the header, the CRC or the root indices, or, when the reader computes the index
itself, at a malformed record. -/
def RefusedBefore (lib : CellLib) (data : Slice) (maxRoots : Int) : Prop :=
  ∀ size info, Parsed data size info →
    ¬ Accepted lib data maxRoots info ∨
    info.hasIndex = false ∧ ∃ stop,
      scanRecords info.refByteSize info.cellCount.toNat (info.cellsOf data) = .error stop

/-- No reference leaves the vectors it indexes, and a reference out of range makes
the reader return an error. -/
structure RefsChecked (lib : CellLib) (data : Slice) (maxRoots : Int) : Prop where
  inRange : ∀ site, (deserialize lib data maxRoots .fresh).1 = .error (.outOfRange site) →
    isRefSite site = false
  rejected : HasBadRef data →
    ∃ message, (deserialize lib data maxRoots .fresh).1 = .error (.status message)

section outcomes
variable {lib : CellLib} {data : Slice} {maxRoots size : Int} {info : Info}

theorem Parsed.unique {size' : Int} {info' : Info} (h : Parsed data size info)
    (h' : Parsed data size' info') : size = size' ∧ info = info' := by
  have hsame := Except.ok.inj (h.parse.symm.trans h'.parse)
  exact ⟨congrArg Prod.fst hsame, congrArg Prod.snd hsame⟩

theorem deserialize_accepted (h : Parsed data size info)
    (haccept : Accepted lib data maxRoots info)
    {post : Int → MyBagOfCells → Prop} {stop : Stop BocSite → MyBagOfCells → Prop}
    (hrun : ∀ cache, (info.hasCacheBits = false → cache = []) →
      EndsAt (deserializeCells lib info data size cache) (bagWithRoots data info) post stop) :
    EndsAt (deserialize lib data maxRoots) .fresh post stop :=
  deserialize_parsed h (fun hnot => absurd haccept hnot) fun _ => hrun

theorem deserialize_refused (lib : CellLib) (maxRoots : Int) (h : Parsed data size info)
    (hrefused : ¬ Accepted lib data maxRoots info ∨
      info.hasIndex = false ∧ ∃ stop,
        scanRecords info.refByteSize info.cellCount.toNat (info.cellsOf data) = .error stop) :
    ∃ message, (deserialize lib data maxRoots .fresh).1 = .error (.status message) := by
  have hends : EndsAt (deserialize lib data maxRoots) .fresh (fun _ _ => False)
      (fun stop _ => ∃ message, stop = .status message) := by
    apply deserialize_parsed h
    · exact fun _ message _ => ⟨message, rfl⟩
    · intro haccept cache _
      rcases hrefused with hnot | ⟨hindex, stop, hscan⟩
      · exact absurd haccept hnot
      · exact deserializeCells_unscanned h hindex hscan cache
  obtain ⟨stop, hrun, message, rfl⟩ := hends.exists_error
  exact ⟨message, hrun⟩

theorem readRootInfos_inRange (h : Parsed data size info) (hroots : RootsInRange data info) :
    ∀ root ∈ readRootInfos data info, 0 ≤ root.idx ∧ root.idx < info.cellCount.toNat := by
  intro root hroot
  obtain ⟨i, rfl⟩ := (List.mem_ofFn' _ _).mp hroot
  have hpos := h.headerOk.cellCount_pos
  have hrange := hroots i.val i.isLt
  dsimp only
  omega

theorem deserializeCells_graph (h : Parsed data size info)
    (haccept : Accepted lib data maxRoots info) (hindex : info.hasIndex = false)
    {records : List Record}
    (hscan : scanRecords info.refByteSize info.cellCount.toNat (info.cellsOf data) =
      .ok records) {refs : Fin info.cellCount.toNat → List (Fin info.cellCount.toNat)}
    (hgraph : RecordGraph info.refByteSize records refs) :
    ∃ order, TopologicalOrder refs order ∧
      (indexedBag data info records).getTopolOrder
        ((info.cellsOf data).take (recordsLength records)) info.cellCount.toNat =
          .ok (cellNumbers order) ∧
      EndsAt (deserialize lib data maxRoots) .fresh
        (fun value bag => value = size ∧ bag.rootCount = info.rootCount ∧ ∃ vars,
          (indexedBag data info records).rebuildCells lib data [] = .ok vars ∧
          List.Forall₂ (fun (root root' : RootInfo) =>
            ∃ (x : Fin info.cellCount.toNat) (k : Nat) (cell : DataCell),
              root.idx = x.val ∧ x ∈ order ∧
              vecGet BocSite.idxMap vars.idxMap x.val = .ok (k : Int) ∧
              vars.cellList[k]? = some cell ∧ root' = ⟨some cell, x.val⟩ ∧
              Rebuilt refs (createFrom lib records (info.cellDataOf data records)) x cell)
            (readRootInfos data info) bag.roots)
        (fun stop _ =>
          FirstRefused refs (createFrom lib records (info.cellDataOf data records)) order stop ∨
          stop = .outOfRange .cellList ∧
          (∀ x ∈ order, ∃ cell,
            Rebuilt refs (createFrom lib records (info.cellDataOf data records)) x cell) ∧
          ∃ root ∈ readRootInfos data info,
            ∃ x : Fin info.cellCount.toNat, root.idx = x.val ∧ x ∉ order) := by
  obtain ⟨order, horder, htopol, hrebuild⟩ :=
    rebuildCells_ends lib h hindex hscan hgraph
  refine ⟨order, horder, htopol, deserialize_accepted h haccept fun cache hcache => ?_⟩
  have hnone : info.hasCacheBits = false := (h.indexed hindex hscan).hasCacheBits
  obtain rfl := hcache hnone
  refine (deserializeCells_scanned h hindex hscan).mono ?_ ?_
  · rintro value bag ⟨hvalue, hcount, vars, hvars, hroots⟩
    refine ⟨hvalue, hcount, vars, hvars, ?_⟩
    exact (lookUpRoots_ends (hrebuild.of_ok hvars)
      (readRootInfos_inRange h haccept.roots)).of_ok hroots
  · rintro stop bag (hstop | ⟨vars, hvars, hstop⟩)
    · exact .inl (hrebuild.of_error hstop)
    · have hlookup := (lookUpRoots_ends (hrebuild.of_ok hvars)
        (readRootInfos_inRange h haccept.roots)).of_error hstop
      exact .inr ⟨hlookup.1, (hrebuild.of_ok hvars).exists_rebuilt, hlookup.2⟩

theorem deserialize_hasIndex (h : Parsed data size info)
    (haccept : Accepted lib data maxRoots info) (hindex : info.hasIndex = true) :
    (deserialize lib data maxRoots .fresh).1 = .error (.outOfRange .customIndex) := by
  have hends := deserialize_accepted h haccept fun cache _ =>
    deserializeCells_hasIndex lib h hindex cache
  obtain ⟨stop, hrun, rfl⟩ := hends.exists_error
  exact hrun

theorem deserialize_badRef (h : Parsed data size info)
    (haccept : Accepted lib data maxRoots info) (hindex : info.hasIndex = false)
    {records : List Record}
    (hscan : scanRecords info.refByteSize info.cellCount.toNat (info.cellsOf data) =
      .ok records) (hbad : ¬ RefsInRange info.refByteSize info.cellCount.toNat records) :
    (deserialize lib data maxRoots .fresh).1 = .error (.outOfRange .revGraph) := by
  have hnone : info.hasCacheBits = false := (h.indexed hindex hscan).hasCacheBits
  have hstop := rebuildCells_outOfRange lib h hindex hscan hbad
  have hends : EndsAt (deserialize lib data maxRoots) .fresh (fun _ _ => False)
      (fun stop _ => stop = .outOfRange .revGraph) := by
    apply deserialize_accepted h haccept
    intro cache hcache
    obtain rfl := hcache hnone
    refine (deserializeCells_scanned h hindex hscan).mono ?_ ?_
    · rintro _ _ ⟨-, -, vars, hvars, -⟩
      rw [hstop] at hvars
      cases hvars
    · rintro stop _ (hrun | ⟨vars, hvars, -⟩)
      · rw [hstop] at hrun
        exact (Except.error.inj hrun).symm
      · rw [hstop] at hvars
        cases hvars
  obtain ⟨stop, hrun, rfl⟩ := hends.exists_error
  exact hrun

end outcomes

/-- References are checked on the bags whose references are all in range, and on
those that another check refuses first. -/
theorem refsChecked_iff (lib : CellLib) (data : Slice) (maxRoots : Int) :
    RefsChecked lib data maxRoots ↔ (HasBadRef data → RefusedBefore lib data maxRoots) := by
  constructor
  · rintro h hbad
    obtain ⟨message, hmessage⟩ := h.rejected hbad
    obtain ⟨size, info, hparsed, i, hi, records, hscan, hrefs⟩ := hbad
    intro size' info' hparsed'
    obtain ⟨rfl, rfl⟩ := hparsed.unique hparsed'
    by_contra hnot
    rw [not_or, not_not, not_and] at hnot
    obtain ⟨haccept, hnot⟩ := hnot
    cases hindex : info.hasIndex with
    | true =>
      rw [deserialize_hasIndex hparsed haccept hindex] at hmessage
      cases hmessage
    | false =>
      cases hall : scanRecords info.refByteSize info.cellCount.toNat (info.cellsOf data) with
      | error stop => exact hnot hindex ⟨stop, hall⟩
      | ok all =>
        obtain rfl := Except.ok.inj (hscan.symm.trans (scanRecords_take hall hi))
        rw [deserialize_badRef hparsed haccept hindex hall fun hgood =>
          hrefs fun record hrecord => hgood record (List.mem_of_mem_take hrecord)] at hmessage
        cases hmessage
  · intro h
    refine ⟨fun site hsite => ?_, fun hbad => ?_⟩
    · obtain ⟨⟨size, info⟩, hparse, -⟩ :=
        returns_iff.mp (parseSerializedHeader_ends Info.fresh data)
      by_cases hsize : 0 < size ∧ size ≤ data.len
      · have hparsed : Parsed data size info := ⟨hparse, hsize.1, hsize.2⟩
        by_cases haccept : Accepted lib data maxRoots info
        · cases hindex : info.hasIndex with
          | true =>
            rw [deserialize_hasIndex hparsed haccept hindex] at hsite
            obtain rfl : BocSite.customIndex = site := by simpa using hsite
            rfl
          | false =>
            cases hscan : scanRecords info.refByteSize info.cellCount.toNat
                (info.cellsOf data) with
            | error stop =>
              obtain ⟨message, hmessage⟩ :=
                deserialize_refused lib maxRoots hparsed
                  (.inr ⟨hindex, stop, hscan⟩)
              rw [hmessage] at hsite
              cases hsite
            | ok records =>
              have hlength := (scanRecords_walked hscan).length_eq
              by_cases hgood : RefsInRange info.refByteSize info.cellCount.toNat records
              · obtain ⟨refs, hgraph⟩ := hgood.exists_graph hlength
                obtain ⟨order, -, -, hends⟩ :=
                  deserializeCells_graph hparsed haccept hindex hscan hgraph
                rcases hends.of_error hsite with hrefused | ⟨hcell, -⟩
                · exact hrefused.harmless site rfl
                · obtain rfl : site = BocSite.cellList := by simpa using hcell
                  rfl
              · have hpos := hparsed.headerOk.cellCount_pos
                have hbad : HasBadRef data := by
                  refine ⟨size, info, hparsed, info.cellCount.toNat - 1, by omega, records, ?_,
                    hgood⟩
                  rwa [Nat.sub_add_cancel (by omega)]
                rcases h hbad size info hparsed with hnot | ⟨-, stop, hstop⟩
                · exact absurd haccept hnot
                · rw [hscan] at hstop
                  cases hstop
        · obtain ⟨message, hmessage⟩ := deserialize_refused lib maxRoots hparsed (.inl haccept)
          rw [hmessage] at hsite
          cases hsite
      · have hends := deserialize_incomplete lib maxRoots hparse hsize
        obtain ⟨message, hmessage⟩ := hends.of_error hsite
        cases hmessage
    · obtain ⟨size, info, hparsed, -⟩ := id hbad
      exact deserialize_refused lib maxRoots hparsed (h hbad size info hparsed)

/-- A bag of one cell, whose reference is to a cell 5. -/
def danglingBag : Slice :=
  Slice.ofBytes [0xb5, 0xee, 0x9c, 0x72, 1, 1, 1, 1, 0, 3, 0, 1, 0, 5]

def noCells : CellLib := ⟨fun _ => 0, fun _ _ _ => .error "", fun _ _ => [], fun _ _ => 0⟩

def danglingInfo : Info :=
  { Info.fresh with
    magic := bocGeneric
    rootCount := 1
    cellCount := 1
    refByteSize := 1
    offsetByteSize := 1
    valid := true
    hasRoots := true
    rootsOffset := 10
    indexOffset := 11
    dataOffset := 11
    dataSize := 3
    totalSize := 14 }

def scanRefs (refByteSize n : Nat) (cells : Slice) : BocExec (List (List Int)) :=
  (scanRecords refByteSize n cells).map fun records => records.map (recordRefs refByteSize)

theorem scanRefs_ok {refByteSize n : Nat} {cells : Slice} {refs : List (List Int)}
    (h : scanRefs refByteSize n cells = .ok refs) :
    ∃ records, scanRecords refByteSize n cells = .ok records ∧
      records.map (recordRefs refByteSize) = refs := by
  unfold scanRefs at h
  cases hscan : scanRecords refByteSize n cells with
  | error stop =>
    rw [hscan] at h
    cases h
  | ok records =>
    rw [hscan] at h
    exact ⟨records, rfl, Except.ok.inj h⟩

theorem danglingBag_hasBadRef : HasBadRef danglingBag := by
  have hscan : scanRefs 1 1 (danglingInfo.cellsOf danglingBag) = .ok [[5]] := by decide +kernel
  obtain ⟨records, hscan, hrefs⟩ := scanRefs_ok hscan
  refine ⟨14, danglingInfo, ⟨by decide +kernel, by decide, by decide⟩, 0, by decide, records,
    hscan, fun hrange => ?_⟩
  obtain ⟨record, hrecord, href⟩ : ∃ record ∈ records, recordRefs 1 record = [5] := by
    have hmem : [5] ∈ records.map (recordRefs 1) := by
      rw [hrefs]
      exact List.mem_singleton_self _
    exact List.mem_map.mp hmem
  have hfive := hrange record hrecord 5 (by
    rw [show danglingInfo.refByteSize = 1 from rfl, href]
    exact List.mem_singleton_self _)
  revert hfive
  decide

/-- The reference to cell 5 is used as an index into a vector of length one. -/
theorem danglingBag_unchecked :
    (deserialize noCells danglingBag 1 .fresh).1 = .error (.outOfRange .revGraph) ∧
      HasBadRef danglingBag ∧ ¬ RefsChecked noCells danglingBag 1 := by
  have hrun : (deserialize noCells danglingBag 1 .fresh).1 = .error (.outOfRange .revGraph) := by
    decide +kernel
  refine ⟨hrun, danglingBag_hasBadRef, fun h => ?_⟩
  have hsite := h.inRange .revGraph hrun
  revert hsite
  decide

def IsRoot (data : Slice) (info : Info) (x : Fin info.cellCount.toNat) : Prop :=
  ∃ i < info.rootCount.toNat, info.rootIdx data i = x.val

/-- On success no root reaches a cycle of references, each root has its entry in
`idx_map` and is the cell its record rebuilds to; a root above a cycle makes the
reader return an error. -/
structure CyclesRejected (lib : CellLib) (data : Slice) (maxRoots : Int) (info : Info)
    (records : List Record)
    (refs : Fin info.cellCount.toNat → List (Fin info.cellCount.toNat)) : Prop where
  success : ∀ value, (deserialize lib data maxRoots .fresh).1 = .ok value → ∃ vars,
    (indexedBag data info records).rebuildCells lib data [] = .ok vars ∧
    List.Forall₂ (fun (root root' : RootInfo) =>
      ∃ (x : Fin info.cellCount.toNat) (k : Nat) (cell : DataCell),
        root.idx = x.val ∧ ¬ ReachesCycle refs x ∧
        vecGet BocSite.idxMap vars.idxMap x.val = .ok (k : Int) ∧
        vars.cellList[k]? = some cell ∧ root' = ⟨some cell, x.val⟩ ∧
        Rebuilt refs (createFrom lib records (info.cellDataOf data records)) x cell)
      (readRootInfos data info) (deserialize lib data maxRoots .fresh).2.roots
  rejected : (∃ x, IsRoot data info x ∧ ReachesCycle refs x) →
    ∃ message, (deserialize lib data maxRoots .fresh).1 = .error (.status message)

/-- Some cell outside the cycles is refused when its turn comes. -/
def RebuildRefused (lib : CellLib) (data : Slice) (info : Info) (records : List Record)
    (refs : Fin info.cellCount.toNat → List (Fin info.cellCount.toNat)) : Prop :=
  ∃ order message,
    (indexedBag data info records).getTopolOrder
      ((info.cellsOf data).take (recordsLength records)) info.cellCount.toNat =
        .ok (cellNumbers order) ∧
    FirstRefused refs (createFrom lib records (info.cellDataOf data records)) order
      (.status message)

theorem deserialize_rebuildRefused {lib : CellLib} {data : Slice} {maxRoots size : Int} {info : Info}
    {records : List Record} {refs : Fin info.cellCount.toNat → List (Fin info.cellCount.toNat)}
    (h : Parsed data size info)
    (haccept : Accepted lib data maxRoots info) (hindex : info.hasIndex = false)
    (hscan : scanRecords info.refByteSize info.cellCount.toNat (info.cellsOf data) =
      .ok records)
    (hgraph : RecordGraph info.refByteSize records refs)
    (hrefused : RebuildRefused lib data info records refs) :
    ∃ message, (deserialize lib data maxRoots .fresh).1 = .error (.status message) := by
  obtain ⟨order', message, htopol', hfirst⟩ := hrefused
  obtain ⟨order, -, htopol, hends⟩ := deserializeCells_graph h haccept hindex hscan hgraph
  rw [htopol] at htopol'
  obtain rfl := cellNumbers_injective (Except.ok.inj htopol')
  obtain ⟨y, hy, hnot⟩ := hfirst.not_rebuilt
  cases hrun : (deserialize lib data maxRoots .fresh).1 with
  | ok value =>
    obtain ⟨-, -, vars, hvars, -⟩ := hends.of_ok hrun
    obtain ⟨order', -, htopol'', hrebuild⟩ := rebuildCells_ends lib h hindex hscan hgraph
    rw [htopol] at htopol''
    obtain rfl := cellNumbers_injective (Except.ok.inj htopol'')
    exact absurd ((hrebuild.of_ok hvars).exists_rebuilt y hy) hnot
  | error stop =>
    rcases hends.of_error hrun with hstop | ⟨-, hall, -⟩
    · exact ⟨message, by rw [hstop.unique hfirst]⟩
    · exact absurd (hall y hy) hnot

/-- Cycles below a root are noticed on the bags that have none there, and on
those that another check refuses. -/
theorem cyclesRejected_iff (lib : CellLib) (data : Slice) (maxRoots size : Int) (info : Info)
    (records : List Record)
    (refs : Fin info.cellCount.toNat → List (Fin info.cellCount.toNat))
    (h : Parsed data size info)
    (hscan : scanRecords info.refByteSize info.cellCount.toNat (info.cellsOf data) =
      .ok records)
    (hgraph : RecordGraph info.refByteSize records refs) :
    CyclesRejected lib data maxRoots info records refs ↔
      (∀ x, IsRoot data info x → ¬ ReachesCycle refs x) ∨
      ¬ Accepted lib data maxRoots info ∨
      info.hasIndex = false ∧ RebuildRefused lib data info records refs := by
  constructor
  · intro hrejected
    by_contra hnot
    rw [not_or, not_or, not_not, not_and] at hnot
    obtain ⟨hroot, haccept, hrefused⟩ := hnot
    push Not at hroot
    obtain ⟨x, hx, hcycle⟩ := hroot
    obtain ⟨message, hmessage⟩ := hrejected.rejected ⟨x, hx, hcycle⟩
    cases hindex : info.hasIndex with
    | true =>
      rw [deserialize_hasIndex h haccept hindex] at hmessage
      cases hmessage
    | false =>
      obtain ⟨order, -, htopol, hends⟩ := deserializeCells_graph h haccept hindex hscan hgraph
      rcases hends.of_error hmessage with hfirst | ⟨hsite, -⟩
      · exact hrefused hindex ⟨order, message, htopol, hfirst⟩
      · cases hsite
  · intro hcond
    constructor
    · intro value hvalue
      by_cases haccept : Accepted lib data maxRoots info
      · cases hindex : info.hasIndex with
        | true =>
          rw [deserialize_hasIndex h haccept hindex] at hvalue
          cases hvalue
        | false =>
          obtain ⟨order, horder, -, hends⟩ :=
            deserializeCells_graph h haccept hindex hscan hgraph
          obtain ⟨-, -, vars, hvars, hroots⟩ := hends.of_ok hvalue
          refine ⟨vars, hvars, hroots.imp ?_⟩
          rintro root root' ⟨x, k, cell, hx, hmem, hrest⟩
          exact ⟨x, k, cell, hx, (horder.mem_iff x).mp hmem, hrest⟩
      · obtain ⟨message, hmessage⟩ := deserialize_refused lib maxRoots h (.inl haccept)
        rw [hmessage] at hvalue
        cases hvalue
    · rintro ⟨x, ⟨i, hi, hroot⟩, hcycle⟩
      by_cases haccept : Accepted lib data maxRoots info
      · rcases hcond with hnone | hnot | ⟨hindex, hrefused⟩
        · exact absurd hcycle (hnone x ⟨i, hi, hroot⟩)
        · exact absurd haccept hnot
        · exact deserialize_rebuildRefused h haccept hindex hscan hgraph hrefused
      · exact deserialize_refused lib maxRoots h (.inl haccept)

theorem scanRefs_graph {refByteSize n : Nat} {cells : Slice} {refs : Fin n → List (Fin n)}
    (h : scanRefs refByteSize n cells = .ok (List.ofFn fun idx => cellNumbers (refs idx))) :
    ∃ records, scanRecords refByteSize n cells = .ok records ∧
      RecordGraph refByteSize records refs := by
  obtain ⟨records, hscan, hrefs⟩ := scanRefs_ok h
  refine ⟨records, hscan, fun idx => ?_⟩
  have hidx : idx.val < records.length := by
    rw [(scanRecords_walked hscan).length_eq]
    exact idx.isLt
  have hentry := congrArg (fun list => list[idx.val]?) hrefs
  simp only [List.getElem?_map, List.getElem?_eq_getElem hidx, Option.map_some] at hentry
  refine ⟨_, List.getElem?_eq_getElem hidx, ?_⟩
  simpa using hentry

/-- A bag of one cell that refers to itself. -/
def selfBag : Slice :=
  Slice.ofBytes [0xb5, 0xee, 0x9c, 0x72, 1, 1, 1, 1, 0, 3, 0, 1, 0, 0]

def selfRefs : Fin danglingInfo.cellCount.toNat → List (Fin danglingInfo.cellCount.toNat) :=
  fun idx => [idx]

theorem selfBag_graph : Parsed selfBag 14 danglingInfo ∧ ∃ records,
    scanRecords danglingInfo.refByteSize danglingInfo.cellCount.toNat
      (danglingInfo.cellsOf selfBag) = .ok records ∧
    RecordGraph danglingInfo.refByteSize records selfRefs :=
  ⟨⟨by decide +kernel, by decide, by decide⟩, scanRefs_graph (by decide +kernel)⟩

/-- The root has no entry in `idx_map`, and -1 is used as an index. -/
theorem selfBag_unnoticed :
    (deserialize noCells selfBag 1 .fresh).1 = .error (.outOfRange .cellList) ∧
      Parsed selfBag 14 danglingInfo ∧ ∃ records,
        scanRecords danglingInfo.refByteSize danglingInfo.cellCount.toNat
          (danglingInfo.cellsOf selfBag) = .ok records ∧
        RecordGraph danglingInfo.refByteSize records selfRefs ∧
        ¬ CyclesRejected noCells selfBag 1 danglingInfo records selfRefs := by
  have hrun : (deserialize noCells selfBag 1 .fresh).1 = .error (.outOfRange .cellList) := by
    decide +kernel
  obtain ⟨hparsed, records, hscan, hgraph⟩ := selfBag_graph
  refine ⟨hrun, hparsed, records, hscan, hgraph, fun h => ?_⟩
  let root : Fin danglingInfo.cellCount.toNat := ⟨0, by decide⟩
  have hroot : IsRoot selfBag danglingInfo root := ⟨0, by decide, by decide +kernel⟩
  have hcycle : ReachesCycle selfRefs root :=
    ⟨root, .refl, .single (List.mem_singleton_self root)⟩
  obtain ⟨message, hmessage⟩ := h.rejected ⟨root, hroot, hcycle⟩
  rw [hrun] at hmessage
  cases hmessage

theorem cyclesRejected_iff_selfBag : Parsed selfBag 14 danglingInfo ∧ ∃ records,
    scanRecords danglingInfo.refByteSize danglingInfo.cellCount.toNat
      (danglingInfo.cellsOf selfBag) = .ok records ∧
    RecordGraph danglingInfo.refByteSize records selfRefs ∧
    (CyclesRejected noCells selfBag 1 danglingInfo records selfRefs ↔
      (∀ x, IsRoot selfBag danglingInfo x → ¬ ReachesCycle selfRefs x) ∨
      ¬ Accepted noCells selfBag 1 danglingInfo ∨
      danglingInfo.hasIndex = false ∧
        RebuildRefused noCells selfBag danglingInfo records selfRefs) := by
  obtain ⟨hparsed, records, hscan, hgraph⟩ := selfBag_graph
  exact ⟨hparsed, records, hscan, hgraph,
    cyclesRejected_iff noCells selfBag 1 14 danglingInfo records selfRefs hparsed hscan hgraph⟩

end TonCompress.Boc
