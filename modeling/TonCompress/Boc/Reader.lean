import TonCompress.Boc.Records

/-! The stages of `deserialize` on a fresh object, up to the rebuilding of the
cells. -/
namespace TonCompress.Boc
open TonCompress.Lib MyBagOfCells

def Info.rootIdx (info : Info) (data : Slice) (i : Nat) : Int :=
  if info.hasRoots then
    asInt32 (beValue
      ((data.mem.drop (info.rootsOffset + i * info.refByteSize)).take info.refByteSize))
  else 0

def Info.cellsOf (info : Info) (data : Slice) : Slice :=
  (data.drop info.dataOffset).take info.dataSize

/-- The header of a complete bag of cells. -/
structure Parsed (data : Slice) (size : Int) (info : Info) : Prop where
  parse : Info.fresh.parseSerializedHeader data = .ok (size, info)
  size_pos : 0 < size
  size_le : size ≤ data.len

def RootsInRange (data : Slice) (info : Info) : Prop :=
  ∀ i < info.rootCount.toNat, 0 ≤ info.rootIdx data i ∧ info.rootIdx data i < info.cellCount

/-- The checks of `deserialize` before it looks at the cell records. -/
structure Accepted (lib : CellLib) (data : Slice) (maxRoots : Int) (info : Info) : Prop where
  rootCount_le : info.rootCount ≤ maxRoots
  crc : info.hasCrc32c = true → checkCrc lib data = .ok ()
  roots : RootsInRange data info

def readRootInfos (data : Slice) (info : Info) : List RootInfo :=
  List.ofFn fun i : Fin info.rootCount.toNat => ⟨none, info.rootIdx data i⟩

def rootIndices (data : Slice) (info : Info) : List Int :=
  (List.range info.rootCount.toNat).map (info.rootIdx data)

/-- The cache counters of `n` cells once those at `uses` were referred to. -/
def cacheCounts (n : Nat) (uses : List Int) : List Nat :=
  List.ofFn fun x : Fin n => min 2 (uses.count (x.val : Int))

def rootsCache (data : Slice) (info : Info) : List Nat :=
  if info.hasCacheBits then cacheCounts info.cellCount.toNat (rootIndices data info) else []

section stages
variable {lib : CellLib} {data : Slice} {maxRoots size : Int} {info : Info}

theorem Parsed.headerOk (h : Parsed data size info) : HeaderOk false size info :=
  (parseSerializedHeader_ends Info.fresh data).of_ok h.parse h.size_pos

theorem Parsed.generic (h : Parsed data size info) (hroots : info.hasRoots = true) :
    info.magic = bocGeneric := by
  have hmagic := h.headerOk.hasRoots hroots
  simpa using hmagic

theorem Parsed.dataEnd (h : Parsed data size info) :
    info.dataOffset + info.dataSize ≤ data.len := by
  have hsize := h.headerOk.size_ge
  have hle := h.size_le
  omega

theorem Parsed.readRoot (h : Parsed data size info) {i : Nat} (hi : i < info.rootCount.toNat) :
    info.readRoot (data.mem.drop info.rootsOffset) i = .ok (info.rootIdx data i) := by
  have hok := h.headerOk
  have hmem := data.len_le
  have hend := h.dataEnd
  rw [Info.readRoot, Info.rootIdx]
  split
  · rename_i hroots
    have hrootsEnd := hok.rootsEnd (h.generic hroots)
    have hmul : (i + 1) * info.refByteSize ≤ info.rootCount.toNat * info.refByteSize :=
      Nat.mul_le_mul_right _ hi
    rw [Nat.succ_mul] at hmul
    have hrbs := hok.refByteSize_le
    rw [Info.readRef, readInt_eq (by simp; omega) (by omega), List.drop_drop]
    rfl
  · rfl

theorem checkCrc_status (hlen : 4 ≤ data.len) : Ends (checkCrc lib data) (fun _ => True)
    fun stop => ∃ message, stop = .status message := by
  have hmem := data.len_le
  have hread : readBytes (data.mem.drop (data.len - 4)) 4 =
      .ok ((data.mem.drop (data.len - 4)).take 4) := if_pos (by simp; omega)
  rw [checkCrc, hread]
  exact ends_ite.mpr ⟨fun _ => ⟨_, rfl⟩, fun _ => trivial⟩

theorem bumpCache_counts {n : Nat} {idx : Int} (uses : List Int) (h : 0 ≤ idx ∧ idx < n) :
    bumpCache (cacheCounts n uses) idx = .ok (cacheCounts n (uses ++ [idx])) := by
  obtain ⟨i, rfl⟩ := Int.eq_ofNat_of_zero_le h.1
  have hi : i < n := by omega
  have hsnoc (x : Fin n) : (uses ++ [(i : Int)]).count (x.val : Int) =
      uses.count (x.val : Int) + if x = ⟨i, hi⟩ then 1 else 0 := by
    rw [List.count_append, List.count_singleton]
    refine congrArg _ (if_congr ?_ rfl rfl)
    rw [beq_iff_eq, Nat.cast_inj, Fin.ext_iff, eq_comm]
  unfold bumpCache cacheCounts
  rw [vecGet_ofFn_of_lt _ _ hi, ok_bind]
  simp only [hsnoc]
  by_cases hfew : min 2 (uses.count (i : Int)) < 2
  · rw [if_pos hfew, vecSet_ofFn_of_lt _ _ hi]
    congr 2
    funext x
    by_cases hx : x = ⟨i, hi⟩
    · subst hx
      rw [Function.update_self, if_pos rfl]
      dsimp only
      omega
    · rw [Function.update_of_ne hx, if_neg hx, Nat.add_zero]
  · rw [if_neg hfew]
    refine congrArg Except.ok (congrArg List.ofFn (funext fun x => ?_))
    by_cases hx : x = ⟨i, hi⟩
    · subst hx
      rw [if_pos rfl]
      dsimp only
      omega
    · rw [if_neg hx, Nat.add_zero]

theorem rootsCache_eq_nil (h : info.hasCacheBits = false) : rootsCache data info = [] :=
  if_neg (by simp [h])

theorem readRoots_ends (h : Parsed data size info) (bag : MyBagOfCells) :
    EndsAt (readRoots info data) bag
      (fun cache bag' => RootsInRange data info ∧
        bag' = { bag with roots := readRootInfos data info } ∧ cache = rootsCache data info)
      (fun stop _ => (∃ message, stop = .status message) ∧ ¬ RootsInRange data info) := by
  have hok := h.headerOk
  have hrootsOffset : info.rootsOffset ≤ data.len := by
    have := h.dataEnd
    have := hok.rootsOffset_le
    have := hok.indexOffset_le
    omega
  have hpos := hok.cellCount_pos
  rw [readRoots, Slice.substr_ok hrootsOffset]
  let filled : Nat → List RootInfo := fun i =>
    List.ofFn fun j : Fin info.rootCount.toNat =>
      if j.val < i then ⟨none, info.rootIdx data j⟩ else RootInfo.fresh
  let counted : Nat → List Nat := fun i => if info.hasCacheBits then
    cacheCounts info.cellCount.toNat ((List.range i).map (info.rootIdx data)) else []
  rw [endsAt_modify_bind, endsAt_liftExec_ok_bind]
  refine EndsAt.mono (forRange_endsAt (fun i cache bag' =>
    (∀ j < i, 0 ≤ info.rootIdx data j ∧ info.rootIdx data j < info.cellCount) ∧
    bag' = { bag with roots := filled i } ∧ cache = counted i) (Nat.zero_le _) ?_ ?_) ?_
    fun _ _ => id
  · refine ⟨by omega, ?_, ?_⟩
    · simp [filled]
    · simp [counted, cacheCounts]
  · rintro i _ bag' - hi ⟨hdone, rfl, rfl⟩
    rw [Slice.drop_mem, h.readRoot hi, endsAt_liftExec_ok_bind]
    refine endsAt_ite.mpr ⟨fun hbad => ⟨⟨_, rfl⟩, fun hall => ?_⟩, fun hgood => ?_⟩
    · have := hall i hi
      omega
    · rw [endsAt_get_bind]
      have hget : vecGet BocSite.roots (filled i) i = .ok RootInfo.fresh := by
        simp only [filled]
        rw [vecGet_ofFn_of_lt _ _ hi]
        simp
      have hset : vecSet BocSite.roots (filled i) i ⟨none, info.rootIdx data i⟩ =
          .ok (filled (i + 1)) := by
        simp only [filled]
        rw [vecSet_ofFn_of_lt _ _ hi]
        congr 2
        apply update_ite
        · intro j
          rw [Fin.ext_iff]
          exact Nat.lt_succ_iff_lt_or_eq
        · rfl
      simp only [hget, RootInfo.fresh, hset, endsAt_liftExec_ok_bind, endsAt_modify_bind]
      have hdone' : ∀ j < i + 1, 0 ≤ info.rootIdx data j ∧
          info.rootIdx data j < info.cellCount := by
        intro j hj
        rcases Nat.lt_succ_iff_lt_or_eq.mp hj with hj | rfl
        · exact hdone j hj
        · omega
      refine endsAt_ite.mpr ⟨fun hcache => ?_, fun hcache => ?_⟩
      · have hbump : bumpCache (counted i) (info.rootIdx data i) = .ok (counted (i + 1)) := by
          simp only [counted]
          rw [if_pos hcache, if_pos hcache, bumpCache_counts _ (by omega), List.range_succ,
            List.map_append]
          rfl
        rw [hbump, endsAt_liftExec]
        exact ⟨hdone', rfl, rfl⟩
      · refine ⟨hdone', rfl, ?_⟩
        simp only [counted]
        rw [if_neg hcache, if_neg hcache]
  · rintro cache bag' ⟨hdone, rfl, rfl⟩
    refine ⟨hdone, ?_, rfl⟩
    simp only [filled, readRootInfos, Fin.is_lt, if_true]

theorem scanRecords_error {refByteSize n i : Nat} {cells : Slice} {records : List Record}
    {stop : Stop BocSite} (hscan : scanRecords refByteSize i cells = .ok records) (hi : i < n)
    (hinit : CellSerializationInfo.init (cells.drop (recordsLength records)) refByteSize =
      .error stop) : ∃ stop', scanRecords refByteSize n cells = .error stop' := by
  cases hall : scanRecords refByteSize n cells with
  | error stop' => exact ⟨stop', rfl⟩
  | ok all =>
    have hsame := scanRecords_take hall (Nat.le_of_lt hi)
    obtain rfl := Except.ok.inj (hscan.symm.trans hsame)
    have hwalk := scanRecords_walked hall
    have hrecord := (hwalk.record i (by rw [hwalk.length_eq]; exact hi)).1
    rw [hinit] at hrecord
    cases hrecord

theorem scanRecords_snoc {refByteSize i : Nat} {cells : Slice} {records : List Record}
    {cellInfo : CellSerializationInfo} (hscan : scanRecords refByteSize i cells = .ok records)
    (hinit : CellSerializationInfo.init (cells.drop (recordsLength records)) refByteSize =
      .ok cellInfo) :
    scanRecords refByteSize (i + 1) cells = .ok (records ++
      [((cells.drop (recordsLength records)).take cellInfo.endOffset, cellInfo)]) := by
  induction i generalizing cells records with
  | zero =>
    obtain rfl := Except.ok.inj hscan
    exact scanRecords_succ.mpr ⟨cellInfo, [], hinit, rfl, rfl⟩
  | succ i ih =>
    obtain ⟨first, rest, hfirst, hrest, rfl⟩ := scanRecords_succ.mp hscan
    rw [recordsLength, ← Slice.drop_drop] at hinit
    refine scanRecords_succ.mpr ⟨first, _, hfirst, ih hrest hinit, ?_⟩
    rw [Slice.drop_drop]
    rfl

theorem recordEnds_snoc (records : List Record) (record : Record) :
    recordEnds (records ++ [record]) =
      recordEnds records ++ [recordsLength records + record.2.endOffset] := by
  rw [recordEnds, List.length_append, List.length_singleton, List.range_succ, List.map_append,
    recordEnds]
  congr 1
  · apply List.map_congr_left
    intro i hi
    rw [List.take_append_of_le_length (List.mem_range.mp hi)]
  · rw [List.map_singleton, List.take_of_length_le (by simp), recordsLength_append]
    simp [recordsLength]

theorem buildIndex_ends (h : Parsed data size info) (bag : MyBagOfCells)
    (hindex : info.hasIndex = false) :
    EndsAt (buildIndex info data) bag
      (fun _ bag' => ∃ records,
        scanRecords info.refByteSize info.cellCount.toNat (info.cellsOf data) = .ok records ∧
        bag' = { bag with
          indexPtr := none
          customIndex := bag.customIndex ++ recordEnds records })
      (fun stop _ => (∃ message, stop = .status message) ∧ ∃ stop',
        scanRecords info.refByteSize info.cellCount.toNat (info.cellsOf data) =
          .error stop') := by
  have hend := h.dataEnd
  rw [buildIndex, if_neg (by simp [hindex]), Slice.substrUpTo_ok (by omega)]
  rw [endsAt_modify_bind, endsAt_liftExec_ok_bind]
  refine EndsAt.seq (fun state bag' => ∃ records,
    scanRecords info.refByteSize info.cellCount.toNat (info.cellsOf data) = .ok records ∧
    state = ((info.cellsOf data).drop (recordsLength records), recordsLength records) ∧
    bag' = { bag with
      indexPtr := none
      customIndex := bag.customIndex ++ recordEnds records })
    (forRange_endsAt (fun i state bag' => ∃ records,
      scanRecords info.refByteSize i (info.cellsOf data) = .ok records ∧
      state = ((info.cellsOf data).drop (recordsLength records), recordsLength records) ∧
      bag' = { bag with
        indexPtr := none
        customIndex := bag.customIndex ++ recordEnds records }) (Nat.zero_le _) ?_ ?_) ?_
  · exact ⟨[], rfl, rfl, by simp [recordEnds]⟩
  · rintro i _ _ - hi ⟨records, hscan, rfl, rfl⟩
    dsimp only
    cases hinit : CellSerializationInfo.init ((info.cellsOf data).drop (recordsLength records))
        info.refByteSize with
    | error stop =>
      obtain ⟨message, rfl⟩ := init_status.of_error hinit
      exact ⟨⟨_, rfl⟩, scanRecords_error hscan hi hinit⟩
    | ok cellInfo =>
      rw [wrapStatus, Except.mapError, endsAt_liftExec_ok_bind,
        Slice.substr_ok (init_ok hinit).2.1, endsAt_liftExec_ok_bind, endsAt_modify_bind,
        endsAt_pure]
      refine ⟨_, scanRecords_snoc hscan hinit, ?_, ?_⟩
      · simp [recordsLength_append, recordsLength]
      · simp [recordEnds_snoc]
  · rintro _ _ ⟨records, hscan, -, rfl⟩
    exact ⟨records, hscan, rfl⟩

/-- The object behind the loop over the roots. -/
def bagWithRoots (data : Slice) (info : Info) : MyBagOfCells :=
  { MyBagOfCells.fresh with
    info
    cellCount := info.cellCount
    roots := readRootInfos data info }

def indexedBag (data : Slice) (info : Info) (records : List Record) : MyBagOfCells :=
  { bagWithRoots data info with customIndex := recordEnds records }

/-- How `deserialize` ends before it reads the roots, if it does: at the header, the
number of roots or the checksum. -/
def headerOutcome (lib : CellLib) (data : Slice) (maxRoots size : Int) (info : Info) :
    Option (BocExec Int) :=
  if size = 0 then
    some (.error (.status s!"cannot deserialize bag-of-cells: invalid header, error {size}"))
  else if size < 0 then some (.ok size)
  else if size > data.len then some (.ok (-size))
  else if info.rootCount > maxRoots then
    some (.error (.status "Bag-of-cells has more root cells than expected"))
  else if info.hasCrc32c then
    match checkCrc lib data with
    | .error reason => some (.error reason)
    | .ok _ => none
  else none

/-- `deserialize` with the stage behind the roots left open. -/
def deserializeWith (lib : CellLib) (readCells : Info → Slice → Int → List Nat → BagExec Int)
    (data : Slice) (maxRoots : Int) : BagExec Int := do
  modify clear
  let bag ← get
  let (sizeEst, info) ← liftExec (bag.info.parseSerializedHeader data)
  modify fun bag => { bag with info }
  if sizeEst = 0 then
    throw (.status
      s!"cannot deserialize bag-of-cells: invalid header, error {sizeEst}")
  if sizeEst < 0 then return sizeEst
  if sizeEst > data.len then return -sizeEst
  if info.rootCount > maxRoots then
    throw (.status "Bag-of-cells has more root cells than expected")
  if info.hasCrc32c then liftExec (checkCrc lib data)
  modify fun bag => { bag with cellCount := info.cellCount }
  let cellShouldCache ← readRoots info data
  readCells info data sizeEst cellShouldCache

theorem deserialize_eq_with (lib : CellLib) (data : Slice) (maxRoots : Int) :
    deserialize lib data maxRoots = deserializeWith lib (deserializeCells lib) data maxRoots := rfl

section prologue
variable {readCells : Info → Slice → Int → List Nat → BagExec Int} {bag : MyBagOfCells}

theorem deserializeWith_refused (h : bag.info.parseSerializedHeader data = .ok (size, info))
    {outcome : BocExec Int} (hout : headerOutcome lib data maxRoots size info = some outcome) :
    deserializeWith lib readCells data maxRoots bag = (outcome, { bag.clear with info }) := by
  apply EndsAt.run_eq
  rw [deserializeWith, endsAt_modify_bind, endsAt_get_bind]
  rw [show bag.clear.info = bag.info from rfl, h, endsAt_liftExec_ok_bind, endsAt_modify_bind]
  unfold headerOutcome at hout
  refine endsAt_ite.mpr ⟨fun hzero => ?_, fun hzero => ?_⟩
  · rw [if_pos hzero] at hout
    rw [← Option.some.inj hout]
    rfl
  rw [if_neg hzero] at hout
  refine endsAt_ite.mpr ⟨fun hneg => ?_, fun hneg => ?_⟩
  · rw [if_pos hneg] at hout
    rw [← Option.some.inj hout]
    rfl
  rw [if_neg hneg] at hout
  refine endsAt_ite.mpr ⟨fun hlong => ?_, fun hlong => ?_⟩
  · rw [if_pos hlong] at hout
    rw [← Option.some.inj hout]
    rfl
  rw [if_neg hlong] at hout
  refine endsAt_ite.mpr ⟨fun hmany => ?_, fun hmany => ?_⟩
  · rw [if_pos hmany] at hout
    rw [← Option.some.inj hout]
    rfl
  rw [if_neg hmany] at hout
  refine endsAt_ite.mpr ⟨fun hcrc => ?_, fun hcrc => ?_⟩
  · rw [if_pos hcrc] at hout
    rw [endsAt_bind, endsAt_liftExec]
    cases hcheck : checkCrc lib data with
    | error reason =>
      rw [hcheck] at hout
      rw [← Option.some.inj hout]
      rfl
    | ok value =>
      rw [hcheck] at hout
      cases hout
  · rw [if_neg hcrc] at hout
    cases hout

theorem deserializeWith_continued (h : bag.info.parseSerializedHeader data = .ok (size, info))
    (hout : headerOutcome lib data maxRoots size info = none) :
    deserializeWith lib readCells data maxRoots bag =
      (readRoots info data >>= fun cache => readCells info data size cache)
        { bag.clear with info, cellCount := info.cellCount } := by
  have hrest := endsAt_run (readRoots info data >>= fun cache => readCells info data size cache)
    { bag.clear with info, cellCount := info.cellCount }
  apply EndsAt.run_eq
  rw [deserializeWith, endsAt_modify_bind, endsAt_get_bind]
  rw [show bag.clear.info = bag.info from rfl, h, endsAt_liftExec_ok_bind, endsAt_modify_bind]
  unfold headerOutcome at hout
  refine endsAt_ite.mpr ⟨fun hzero => ?_, fun hzero => ?_⟩
  · rw [if_pos hzero] at hout
    cases hout
  rw [if_neg hzero] at hout
  refine endsAt_ite.mpr ⟨fun hneg => ?_, fun hneg => ?_⟩
  · rw [if_pos hneg] at hout
    cases hout
  rw [if_neg hneg] at hout
  refine endsAt_ite.mpr ⟨fun hlong => ?_, fun hlong => ?_⟩
  · rw [if_pos hlong] at hout
    cases hout
  rw [if_neg hlong] at hout
  refine endsAt_ite.mpr ⟨fun hmany => ?_, fun hmany => ?_⟩
  · rw [if_pos hmany] at hout
    cases hout
  rw [if_neg hmany] at hout
  refine endsAt_ite.mpr ⟨fun hcrc => ?_, fun hcrc => ?_⟩
  · rw [if_pos hcrc] at hout
    rw [endsAt_bind, endsAt_liftExec]
    cases hcheck : checkCrc lib data with
    | error reason =>
      rw [hcheck] at hout
      cases hout
    | ok value => exact hrest
  · exact hrest

theorem deserializeWith_incomplete (lib : CellLib)
    (readCells : Info → Slice → Int → List Nat → BagExec Int) (maxRoots : Int)
    (h : Info.fresh.parseSerializedHeader data = .ok (size, info))
    (hsize : ¬ (0 < size ∧ size ≤ data.len)) :
    EndsAt (deserializeWith lib readCells data maxRoots) .fresh (fun value _ => value < 0)
      (fun stop _ => ∃ message, stop = .status message) := by
  rw [deserializeWith, endsAt_modify_bind, endsAt_get_bind]
  have hfresh : MyBagOfCells.fresh.clear.info = Info.fresh := rfl
  rw [hfresh, h, endsAt_liftExec_ok_bind, endsAt_modify_bind]
  refine endsAt_ite.mpr ⟨fun _ => ⟨_, rfl⟩, fun hzero => ?_⟩
  refine endsAt_ite.mpr ⟨fun hneg => hneg, fun hneg => ?_⟩
  refine endsAt_ite.mpr ⟨fun hlong => ?_, fun hlong => ?_⟩
  · rw [endsAt_pure]
    omega
  · omega

theorem deserializeWith_parsed (h : Parsed data size info) {post : Int → MyBagOfCells → Prop}
    {stop : Stop BocSite → MyBagOfCells → Prop}
    (hrefused : ¬ Accepted lib data maxRoots info → ∀ message bag, stop (.status message) bag)
    (haccepted : Accepted lib data maxRoots info → ∀ cache,
      (info.hasCacheBits = false → cache = []) →
      EndsAt (readCells info data size cache) (bagWithRoots data info) post stop) :
    EndsAt (deserializeWith lib readCells data maxRoots) .fresh post stop := by
  rw [deserializeWith, endsAt_modify_bind, endsAt_get_bind]
  have hfresh : MyBagOfCells.fresh.clear = MyBagOfCells.fresh := rfl
  have hparse : MyBagOfCells.fresh.info.parseSerializedHeader data = .ok (size, info) := h.parse
  have hpos := h.size_pos
  have hle := h.size_le
  rw [hfresh, hparse, endsAt_liftExec_ok_bind, endsAt_modify_bind]
  refine endsAt_ite.mpr ⟨fun hzero => absurd hzero (by omega), fun _ => ?_⟩
  refine endsAt_ite.mpr ⟨fun hneg => absurd hneg (by omega), fun _ => ?_⟩
  refine endsAt_ite.mpr ⟨fun hlong => absurd hlong (by omega), fun _ => ?_⟩
  refine endsAt_ite.mpr ⟨fun hmany => ?_, fun hfew => ?_⟩
  · exact hrefused (fun haccept => by have := haccept.rootCount_le; omega) _ _
  · have hrest : (info.hasCrc32c = true → checkCrc lib data = .ok ()) →
        EndsAt (readRoots info data >>= fun cache => readCells info data size cache)
          { MyBagOfCells.fresh with info, cellCount := info.cellCount } post stop := by
      intro hcrc
      refine EndsAt.bind ((readRoots_ends h _).mono (fun _ _ => id) ?_) ?_
      · rintro _ bag ⟨⟨message, rfl⟩, hroots⟩
        exact hrefused (fun haccept => hroots haccept.roots) _ _
      · rintro _ _ ⟨hroots, rfl, rfl⟩
        exact haccepted ⟨by omega, hcrc, hroots⟩ _ rootsCache_eq_nil
    refine endsAt_ite.mpr ⟨fun hcrc => ?_, fun hnone => ?_⟩
    · refine endsAt_bind.mpr ?_
      rw [endsAt_liftExec]
      have hend := h.headerOk.crcEnd hcrc
      cases hcheck : checkCrc lib data with
      | error reason =>
        obtain ⟨message, rfl⟩ := (checkCrc_status (by omega)).of_error hcheck
        refine hrefused (fun haccept => ?_) _ _
        rw [haccept.crc hcrc] at hcheck
        cases hcheck
      | ok value => exact hrest fun _ => hcheck
    · exact hrest fun hcrc => absurd hcrc hnone

end prologue

theorem deserialize_incomplete (lib : CellLib) (maxRoots : Int)
    (h : Info.fresh.parseSerializedHeader data = .ok (size, info))
    (hsize : ¬ (0 < size ∧ size ≤ data.len)) :
    EndsAt (deserialize lib data maxRoots) .fresh (fun value _ => value < 0)
      (fun stop _ => ∃ message, stop = .status message) :=
  deserializeWith_incomplete lib (deserializeCells lib) maxRoots h hsize

theorem deserialize_parsed (h : Parsed data size info) {post : Int → MyBagOfCells → Prop}
    {stop : Stop BocSite → MyBagOfCells → Prop}
    (hrefused : ¬ Accepted lib data maxRoots info → ∀ message bag, stop (.status message) bag)
    (haccepted : Accepted lib data maxRoots info → ∀ cache,
      (info.hasCacheBits = false → cache = []) →
      EndsAt (deserializeCells lib info data size cache) (bagWithRoots data info) post stop) :
    EndsAt (deserialize lib data maxRoots) .fresh post stop := by
  rw [deserialize_eq_with]
  exact deserializeWith_parsed h hrefused haccepted

/-- With an index section the reader goes on to the end of an index vector that
nothing has filled. -/
theorem deserializeCells_hasIndex (lib : CellLib) (h : Parsed data size info) (hindex : info.hasIndex = true)
    (cache : List Nat) :
    EndsAt (deserializeCells lib info data size cache) (bagWithRoots data info)
      (fun _ _ => False) (fun stop _ => stop = .outOfRange .customIndex) := by
  have hend := h.dataEnd
  have hle := h.headerOk.indexOffset_le
  rw [deserializeCells, buildIndex, if_pos hindex, Slice.substr_ok (by omega)]
  rfl

theorem deserializeCells_scanned (h : Parsed data size info) (hindex : info.hasIndex = false)
    {records : List Record}
    (hscan : scanRecords info.refByteSize info.cellCount.toNat (info.cellsOf data) =
      .ok records) :
    EndsAt (deserializeCells lib info data size []) (bagWithRoots data info)
      (fun value bag => value = size ∧ bag.rootCount = info.rootCount ∧ ∃ vars,
        (indexedBag data info records).rebuildCells lib data [] = .ok vars ∧
        lookUpRoots (readRootInfos data info) vars = .ok bag.roots)
      (fun stop _ => (indexedBag data info records).rebuildCells lib data [] = .error stop ∨
        ∃ vars, (indexedBag data info records).rebuildCells lib data [] = .ok vars ∧
          lookUpRoots (readRootInfos data info) vars = .error stop) := by
  rw [deserializeCells]
  refine EndsAt.seq (fun _ bag => bag = indexedBag data info records)
    ((buildIndex_ends h (bagWithRoots data info) hindex).mono ?_ ?_) ?_
  · rintro _ _ ⟨records', hscan', rfl⟩
    obtain rfl := Except.ok.inj (hscan.symm.trans hscan')
    rfl
  · rintro stop _ ⟨-, stop', hstop⟩
    rw [hscan] at hstop
    cases hstop
  · rintro _ _ rfl
    rw [endsAt_get_bind]
    cases hrebuild : (indexedBag data info records).rebuildCells lib data [] with
    | error stop => exact .inl rfl
    | ok vars =>
      rw [endsAt_liftExec_ok_bind, endsAt_modify_bind]
      have hroots : (indexedBag data info records).roots = readRootInfos data info := rfl
      rw [hroots]
      cases hlookup : lookUpRoots (readRootInfos data info) vars with
      | error stop => exact .inr ⟨vars, rfl, hlookup⟩
      | ok roots =>
        rw [endsAt_liftExec_ok_bind, endsAt_modify_bind]
        exact ⟨rfl, rfl, vars, rfl, hlookup⟩

theorem deserializeCells_unscanned (h : Parsed data size info) (hindex : info.hasIndex = false)
    {reason : Stop BocSite}
    (hscan : scanRecords info.refByteSize info.cellCount.toNat (info.cellsOf data) =
      .error reason) (cache : List Nat) :
    EndsAt (deserializeCells lib info data size cache) (bagWithRoots data info)
      (fun _ _ => False) (fun stop _ => ∃ message, stop = .status message) := by
  rw [deserializeCells]
  refine EndsAt.seq (fun _ _ => False)
    ((buildIndex_ends h (bagWithRoots data info) hindex).mono ?_ ?_) ?_
  · rintro _ _ ⟨records, hrecords, -⟩
    rw [hscan] at hrecords
    cases hrecords
  · exact fun _ _ hstop => hstop.1
  · exact fun _ _ hfalse => hfalse.elim

end stages

end TonCompress.Boc
