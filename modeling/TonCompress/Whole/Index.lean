import TonCompress.Whole.Deserialize
import TonCompress.Whole.Order
import TonCompress.Boc.Reader

/-! The index of `deserialize`, taken from its section or computed, and what
becomes of the errors of `get_topol_order`. -/
namespace TonCompress.Whole
open TonCompress.Lib TonCompress.Boc MyBagOfCells

def indexEntry (info : Info) (data : Slice) (i : Nat) : Nat :=
  let raw := beValue ((data.mem.drop (info.indexOffset + i * info.offsetByteSize)).take
    info.offsetByteSize)
  if info.hasCacheBits then raw / 2 else raw

/-- The ends of the next `n` records from a position on, up to the first that is malformed. -/
def walkEnds (refByteSize : Nat) (cells : Slice) : Nat → Nat → List Nat
  | 0, _ => []
  | n + 1, cur =>
      match CellSerializationInfo.init (cells.drop cur) refByteSize with
      | .ok cellInfo =>
          (cur + cellInfo.endOffset) :: walkEnds refByteSize cells n (cur + cellInfo.endOffset)
      | .error _ => []

section walking
variable {refByteSize : Nat} {cells : Slice} {n cur : Nat}

theorem walkEnds_succ {cellInfo : CellSerializationInfo}
    (h : CellSerializationInfo.init (cells.drop cur) refByteSize = .ok cellInfo) :
    walkEnds refByteSize cells (n + 1) cur =
      (cur + cellInfo.endOffset) :: walkEnds refByteSize cells n (cur + cellInfo.endOffset) := by
  rw [walkEnds, h]

theorem walkEnds_error {stop : Stop BocSite}
    (h : CellSerializationInfo.init (cells.drop cur) refByteSize = .error stop) :
    walkEnds refByteSize cells (n + 1) cur = [] := by
  rw [walkEnds, h]

theorem walkEnds_add {k start : Nat} (hlen : (walkEnds refByteSize cells k cur).length = k)
    (hlast : (cur :: walkEnds refByteSize cells k cur).getLast? = some start) :
    walkEnds refByteSize cells (k + n) cur =
      walkEnds refByteSize cells k cur ++ walkEnds refByteSize cells n start := by
  induction k generalizing cur with
  | zero =>
    have hsame : cur = start := Option.some.inj hlast
    rw [Nat.zero_add, hsame]
    rfl
  | succ k ih =>
    cases hinit : CellSerializationInfo.init (cells.drop cur) refByteSize with
    | error stop =>
      rw [walkEnds_error hinit] at hlen
      cases hlen
    | ok cellInfo =>
      rw [walkEnds_succ hinit] at hlen hlast
      rw [List.getLast?_cons_cons] at hlast
      rw [Nat.succ_add, walkEnds_succ hinit, walkEnds_succ hinit, ih (Nat.succ.inj hlen) hlast]
      rfl

theorem walkEnds_record {i start stop : Nat}
    (hstart : (cur :: walkEnds refByteSize cells n cur)[i]? = some start)
    (hstop : (walkEnds refByteSize cells n cur)[i]? = some stop) :
    ∃ cellInfo, CellSerializationInfo.init (cells.drop start) refByteSize = .ok cellInfo ∧
      stop = start + cellInfo.endOffset := by
  induction n generalizing cur i with
  | zero => cases hstop
  | succ n ih =>
    cases hinit : CellSerializationInfo.init (cells.drop cur) refByteSize with
    | error reason =>
      rw [walkEnds_error hinit] at hstop
      cases hstop
    | ok cellInfo =>
      rw [walkEnds_succ hinit] at hstart hstop
      cases i with
      | zero =>
        obtain rfl := Option.some.inj hstart
        obtain rfl := Option.some.inj hstop
        exact ⟨cellInfo, hinit, rfl⟩
      | succ i => exact ih hstart hstop

theorem walkEnds_delimits {i : Nat} (hi : i < (walkEnds refByteSize cells n 0).length) :
    ∃ record, Delimits refByteSize cells (fun k => (walkEnds refByteSize cells n 0).getD k 0) i
      record := by
  have hstop : (walkEnds refByteSize cells n 0)[i]? =
      some ((walkEnds refByteSize cells n 0).getD i 0) := by
    rw [List.getD_eq_getElem _ _ hi, List.getElem?_eq_getElem hi]
  have hstart : (0 :: walkEnds refByteSize cells n 0)[i]? =
      some (startOf (fun k => (walkEnds refByteSize cells n 0).getD k 0) i) := by
    cases i with
    | zero => rfl
    | succ i =>
      rw [List.getElem?_cons_succ, startOf, List.getD_eq_getElem _ _ (by omega),
        List.getElem?_eq_getElem]
  obtain ⟨cellInfo, hinit, hend⟩ := walkEnds_record hstart hstop
  obtain ⟨hshape, hlen⟩ := init_shape hinit
  have hdata := hshape.dataOffset_ge
  have hrefs := hshape.refsOffset
  have hends := hshape.endOffset
  rw [Slice.drop_len] at hlen
  refine ⟨(_, cellInfo), ?_, ?_, rfl, ?_, ?_⟩
  · omega
  · omega
  · apply init_take hinit
    omega
  · dsimp only
    omega

end walking

/-- The walk comes to all cells, and the last record ends with the section. -/
def WalksWhole (info : Info) (data : Slice) : Prop :=
  (walkEnds info.refByteSize (info.cellsOf data) info.cellCount.toNat 0).length =
      info.cellCount.toNat ∧
    (walkEnds info.refByteSize (info.cellsOf data) info.cellCount.toNat 0).getLast? =
      some (info.cellsOf data).len

section index
variable {data : Slice} {maxRoots size : Int} {info : Info} {bag : MyBagOfCells}

theorem Parsed.sections (h : Parsed data size info) : SectionsOk info :=
  parseSerializedHeader_sections.of_ok h.parse h.size_pos

theorem getIdxEntryRaw_section (h : Parsed data size info) (hindex : info.hasIndex = true)
    (hinfo : bag.info = info) (hptr : bag.indexPtr = some (data.mem.drop info.indexOffset)) {i : Nat}
    (hi : i < info.cellCount.toNat) :
    bag.getIdxEntryRaw i = .ok (beValue
      ((data.mem.drop (info.indexOffset + i * info.offsetByteSize)).take info.offsetByteSize)) := by
  have hsections := Parsed.sections h
  have hend := hsections.indexEnd hindex
  have hdata := h.dataEnd
  have hmem := data.len_le
  have hmul : (i + 1) * info.offsetByteSize ≤ info.cellCount.toNat * info.offsetByteSize :=
    Nat.mul_le_mul_right _ hi
  rw [Nat.succ_mul] at hmul
  unfold MyBagOfCells.getIdxEntryRaw
  rw [if_neg (by omega), hinfo, if_neg (by simp [hindex]), hptr]
  dsimp only
  rw [if_pos (by omega), Info.readOffset, Int.toNat_natCast, List.drop_drop,
    readInt_eq (by rw [List.length_drop]; omega) hsections.offsetByteSize_le]

theorem hasEntries_section (h : Parsed data size info) (hindex : info.hasIndex = true)
    (hinfo : bag.info = info) (hptr : bag.indexPtr = some (data.mem.drop info.indexOffset)) :
    HasEntries bag info.cellCount.toNat (indexEntry info data) := by
  intro i hi
  unfold MyBagOfCells.getIdxEntry
  rw [getIdxEntryRaw_section h hindex hinfo hptr hi, ok_bind, hinfo, indexEntry]
  split <;> rfl

theorem hasEntries_custom (hindex : info.hasIndex = false) (hcache : info.hasCacheBits = false)
    (hinfo : bag.info = info) {n : Nat} (hlen : n ≤ bag.customIndex.length) :
    HasEntries bag n fun i => bag.customIndex.getD i 0 := by
  intro i hi
  have hentry : bag.customIndex[i]? = some (bag.customIndex.getD i 0) := by
    rw [List.getD_eq_getElem _ _ (by omega), List.getElem?_eq_getElem]
  have hraw : bag.getIdxEntryRaw i = .ok (bag.customIndex.getD i 0) := by
    unfold MyBagOfCells.getIdxEntryRaw
    rw [if_neg (by omega), hinfo, if_pos (by simp [hindex]), Int.toNat_natCast, hentry]
  unfold MyBagOfCells.getIdxEntry
  rw [hraw, ok_bind, hinfo, hcache]
  rfl

theorem buildIndex_section (h : Parsed data size info) (hindex : info.hasIndex = true) :
    buildIndex info data bag =
      (.ok (), { bag with indexPtr := some (data.mem.drop info.indexOffset) }) := by
  have hend := h.dataEnd
  have hle := h.headerOk.indexOffset_le
  rw [buildIndex, if_pos hindex, Slice.substr_ok (by omega)]
  rfl

def walkedBag (info : Info) (data : Slice) (bag : MyBagOfCells) : MyBagOfCells :=
  { bag with
    indexPtr := none
    customIndex := bag.customIndex ++
      walkEnds info.refByteSize (info.cellsOf data) info.cellCount.toNat 0 }

/-- The loop over the records appends their ends to the index, and the section is
then looked at for bytes behind the last record. -/
theorem buildIndex_walk (h : Parsed data size info) (hindex : info.hasIndex = false) :
    EndsAt (buildIndex info data) bag
      (fun _ bag' => WalksWhole info data ∧ bag' = walkedBag info data bag)
      (fun stop bag' => ((∃ message, stop = .status message) ∧ ¬ WalksWhole info data) ∧
        bag' = walkedBag info data bag) := by
  have hend := h.dataEnd
  have hpos := h.headerOk.cellCount_pos
  let cells := info.cellsOf data
  let walked := walkEnds info.refByteSize cells
  rw [buildIndex, if_neg (by simp [hindex]), Slice.substrUpTo_ok (by omega)]
  rw [endsAt_modify_bind, endsAt_liftExec_ok_bind]
  refine EndsAt.seq (fun state bag' => ∃ cur, (walked info.cellCount.toNat 0).length =
      info.cellCount.toNat ∧ (0 :: walked info.cellCount.toNat 0).getLast? = some cur ∧
      cur ≤ cells.len ∧ state = (cells.drop cur, cur) ∧ bag' = walkedBag info data bag)
    (forRange_endsAt (fun i state bag' => ∃ cur, (walked i 0).length = i ∧
      (0 :: walked i 0).getLast? = some cur ∧ cur ≤ cells.len ∧ state = (cells.drop cur, cur) ∧
      bag' = { bag with indexPtr := none, customIndex := bag.customIndex ++ walked i 0 })
      (Nat.zero_le _) ?_ ?_) ?_
  · refine ⟨0, rfl, rfl, Nat.zero_le _, rfl, ?_⟩
    simp [walked, walkEnds]
  · rintro i _ _ - hi ⟨cur, hlen, hlast, hle, rfl, rfl⟩
    dsimp only
    cases hinit : CellSerializationInfo.init (cells.drop cur) info.refByteSize with
    | error stop =>
      have hstuck : walked info.cellCount.toNat 0 = walked i 0 := by
        have hadd := @walkEnds_add _ _ (info.cellCount.toNat - i - 1 + 1) _ _ _ hlen hlast
        rw [walkEnds_error hinit, List.append_nil,
          show i + (info.cellCount.toNat - i - 1 + 1) = info.cellCount.toNat by omega] at hadd
        exact hadd
      obtain ⟨message, rfl⟩ := init_status.of_error hinit
      refine ⟨⟨⟨_, rfl⟩, ?_⟩, ?_⟩
      · rintro ⟨hall, -⟩
        change (walked info.cellCount.toNat 0).length = _ at hall
        rw [hstuck] at hall
        omega
      · change _ = { bag with
          indexPtr := none, customIndex := bag.customIndex ++ walked info.cellCount.toNat 0 }
        rw [hstuck]
        rfl
    | ok cellInfo =>
      have hsnoc : walked (i + 1) 0 = walked i 0 ++ [cur + cellInfo.endOffset] := by
        have hadd := @walkEnds_add _ _ 1 _ _ _ hlen hlast
        rw [walkEnds_succ hinit] at hadd
        exact hadd
      rw [wrapStatus, Except.mapError, endsAt_liftExec_ok_bind,
        Slice.substr_ok (init_shape hinit).2, endsAt_liftExec_ok_bind, endsAt_modify_bind,
        endsAt_pure]
      have hfits := (init_shape hinit).2
      rw [Slice.drop_len] at hfits
      refine ⟨cur + cellInfo.endOffset, ?_, ?_, by omega, ?_, ?_⟩
      · rw [hsnoc, List.length_append, hlen]
        rfl
      · rw [hsnoc, ← List.cons_append, List.getLast?_append]
        rfl
      · rw [Slice.drop_drop]
      · rw [hsnoc, List.append_assoc]
  · rintro _ _ ⟨cur, hlen, hlast, hle, rfl, rfl⟩
    have hlast' : (walked info.cellCount.toNat 0).getLast? = some cur := by
      rw [List.getLast?_cons] at hlast
      cases hnone : (walked info.cellCount.toNat 0).getLast? with
      | none =>
        rw [List.getLast?_eq_none_iff] at hnone
        rw [hnone] at hlen
        simp only [List.length_nil] at hlen
        omega
      | some last =>
        rw [hnone] at hlast
        exact hlast
    have hcells : (cells.drop cur).len = cells.len - cur := Slice.drop_len _ _
    dsimp only
    refine endsAt_ite.mpr ⟨fun hrest => ⟨⟨⟨_, rfl⟩, ?_⟩, rfl⟩, fun hrest => ?_⟩
    · rintro ⟨-, hwhole⟩
      obtain rfl := Option.some.inj (hlast'.symm.trans hwhole)
      rw [hcells, Nat.sub_self] at hrest
      exact hrest rfl
    · rw [not_not, hcells] at hrest
      have hwhole : cells.len = cur := by omega
      refine ⟨⟨hlen, ?_⟩, rfl⟩
      change (walked info.cellCount.toNat 0).getLast? = some cells.len
      rw [hwhole, hlast']

end index

end TonCompress.Whole
