import TonCompress.Whole.Index
import TonCompress.Boc.References

/-! What becomes of the errors of `get_topol_order`. -/
namespace TonCompress.Whole
open TonCompress.Lib TonCompress.Boc MyBagOfCells

theorem deserialize_eq_with (lib : CellLib) (data : Slice) (maxRoots : Int) :
    deserialize lib data maxRoots = deserializeWith lib (deserializeCells lib) data maxRoots := rfl

/-- `deserialize` comes to `get_topol_order`, and `get_cell_slice`, `init` or the check
of the end offset fails in it. -/
def TopolFails (lib : CellLib) (data : Slice) (maxRoots : Int) : Prop :=
  ∃ size info bag message, Parsed data size info ∧ Accepted lib data maxRoots info ∧
    buildIndex info data (bagWithRoots data info) = (.ok (), bag) ∧
    getTopolOrder bag (info.cellsOf data) info.cellCount.toNat = .error (.status message)

/-- Such a failure is returned as an error. -/
def TopolErrorsReturned (lib : CellLib) (data : Slice) (maxRoots : Int) : Prop :=
  TopolFails lib data maxRoots →
    ∃ message, (deserialize lib data maxRoots .fresh).1 = .error (.status message)

/-- The entries of the index section delimit the records of the cells, up to the first
record that refers to no cell. -/
def IndexConsistent (data : Slice) (info : Info) : Prop :=
  ∀ i < info.cellCount.toNat,
    (∀ j < i, GoodCell info.refByteSize (info.cellsOf data) (indexEntry info data)
      info.cellCount.toNat j) →
    ∃ record, Delimits info.refByteSize (info.cellsOf data) (indexEntry info data) i record

section outcomes
variable {lib : CellLib} {data : Slice} {maxRoots size : Int} {info : Info} {bag : MyBagOfCells}

theorem rebuildCells_of_error (lib : CellLib) (h : Parsed data size info) (hinfo : bag.info = info)
    (hcount : bag.cellCount = info.cellCount) {stop stop' : Stop BocSite}
    (htopol : getTopolOrder bag (info.cellsOf data) info.cellCount.toNat = .error stop)
    (hmove : moveAsOk (.error stop : BocExec (List Int)) = .error stop') (cache : List Nat) :
    rebuildCells lib bag data cache = .error stop' := by
  have hend := h.dataEnd
  unfold rebuildCells
  rw [hinfo, hcount, Slice.substrUpTo_ok (by omega), ok_bind]
  change moveAsOk (getTopolOrder bag (info.cellsOf data) info.cellCount.toNat) >>= _ = _
  rw [htopol, hmove]
  rfl

/-- The status is lost: `move_as_ok` is called on it. -/
theorem rebuildCells_aborts (lib : CellLib) (h : Parsed data size info) (hinfo : bag.info = info)
    (hcount : bag.cellCount = info.cellCount) {message : String}
    (htopol : getTopolOrder bag (info.cellsOf data) info.cellCount.toNat =
      .error (.status message)) (cache : List Nat) :
    rebuildCells lib bag data cache = .error .abort :=
  rebuildCells_of_error lib h hinfo hcount htopol rfl cache

theorem deserializeCells_aborts (h : Parsed data size info) {start : MyBagOfCells}
    (hindex : buildIndex info data start = (.ok (), bag)) (hinfo : bag.info = info)
    (hcount : bag.cellCount = info.cellCount) {message : String}
    (htopol : getTopolOrder bag (info.cellsOf data) info.cellCount.toNat =
      .error (.status message)) (cache : List Nat) :
    EndsAt (deserializeCells lib info data size cache) start (fun _ _ => False)
      (fun stop _ => stop = .abort) := by
  rw [deserializeCells, endsAt_bind_of_ok hindex, endsAt_get_bind,
    rebuildCells_aborts lib h hinfo hcount htopol]
  rfl

theorem deserialize_topolFails (h : TopolFails lib data maxRoots) :
    (deserialize lib data maxRoots .fresh).1 = .error .abort := by
  obtain ⟨size, info, bag, message, hparsed, haccept, hindex, htopol⟩ := h
  have hbag : bag.info = info ∧ bag.cellCount = info.cellCount := by
    cases hsection : info.hasIndex with
    | true =>
      rw [buildIndex_section hparsed hsection] at hindex
      obtain rfl := (Prod.mk.inj hindex).2
      exact ⟨rfl, rfl⟩
    | false =>
      have hwalk := (@buildIndex_walk _ _ _ (bagWithRoots data info) hparsed hsection).of_ok
        (congrArg Prod.fst hindex)
      rw [hindex] at hwalk
      obtain rfl := hwalk.2
      exact ⟨rfl, rfl⟩
  have hends : EndsAt (deserialize lib data maxRoots) .fresh (fun _ _ => False)
      (fun stop _ => stop = .abort) := by
    rw [deserialize_eq_with]
    apply deserializeWith_parsed hparsed
    · exact fun hnot => absurd haccept hnot
    · exact fun _ cache _ =>
        deserializeCells_aborts hparsed hindex hbag.1 hbag.2 htopol cache
  obtain ⟨stop, hrun, rfl⟩ := hends.exists_error
  exact hrun

theorem walkedBag_record (hwhole : WalksWhole info data) {i : Nat}
    (hi : i < info.cellCount.toNat) : ∃ record, Delimits info.refByteSize (info.cellsOf data)
      (fun k => (walkedBag info data (bagWithRoots data info)).customIndex.getD k 0) i record := by
  apply walkEnds_delimits
  rw [hwhole.1]
  exact hi

theorem not_topolFails_of_walked (h : Parsed data size info) (hindex : info.hasIndex = false)
    (hwhole : WalksWhole info data) (message : String) :
    getTopolOrder (walkedBag info data (bagWithRoots data info)) (info.cellsOf data)
      info.cellCount.toNat ≠ .error (.status message) := by
  intro htopol
  have hentries := @hasEntries_custom info (walkedBag info data (bagWithRoots data info)) hindex
    (h.hasCacheBits_eq hindex) rfl info.cellCount.toNat (le_of_eq hwhole.1.symm)
  obtain ⟨i, hstop⟩ := (getTopolOrder_ends hentries h.headerOk.refByteSize_le).of_error htopol
  have hdangling := hstop.dangling (walkedBag_record hwhole hstop.lt)
  cases hdangling

end outcomes

/-- Errors of `get_topol_order` are returned on the inputs whose index section is
consistent with the records, and on those that do not come to it. -/
theorem topolErrorsReturned_iff (lib : CellLib) (data : Slice) (maxRoots : Int) :
    TopolErrorsReturned lib data maxRoots ↔ ∀ size info, Parsed data size info →
      Accepted lib data maxRoots info → info.hasIndex = true → IndexConsistent data info := by
  constructor
  · intro hreturned size info h haccept hindex i hi hgood
    by_contra hnone
    let bag := { bagWithRoots data info with
      indexPtr := some (data.mem.drop info.indexOffset) }
    have hentries : HasEntries bag info.cellCount.toNat (indexEntry info data) :=
      hasEntries_section h hindex rfl rfl
    obtain ⟨stop, hrun, hstop⟩ := @getTopolOrder_stuck bag (info.cellsOf data) _ _ hentries
      h.headerOk.refByteSize_le i hi hgood fun ⟨record, hrecord, _⟩ => hnone ⟨record, hrecord⟩
    obtain ⟨message, rfl⟩ := hstop.status hnone
    have hfails : TopolFails lib data maxRoots :=
      ⟨size, info, bag, message, h, haccept, buildIndex_section h hindex, hrun⟩
    obtain ⟨message', hmessage⟩ := hreturned hfails
    rw [deserialize_topolFails hfails] at hmessage
    cases hmessage
  · intro hcond hfails
    obtain ⟨size, info, bag, message, h, haccept, hbuild, htopol⟩ := hfails
    cases hindex : info.hasIndex with
    | true =>
      rw [buildIndex_section h hindex] at hbuild
      obtain rfl := (Prod.mk.inj hbuild).2
      have hentries := @hasEntries_section _ _ _ { bagWithRoots data info with
        indexPtr := some (data.mem.drop info.indexOffset) } h hindex rfl rfl
      obtain ⟨i, hstop⟩ := (getTopolOrder_ends hentries h.headerOk.refByteSize_le).of_error htopol
      have hdangling := hstop.dangling (hcond size info h haccept hindex i hstop.lt hstop.before)
      cases hdangling
    | false =>
      have hwalk := (@buildIndex_walk _ _ _ (bagWithRoots data info) h hindex).of_ok
        (congrArg Prod.fst hbuild)
      rw [hbuild] at hwalk
      obtain ⟨hwhole, rfl⟩ := hwalk
      exact absurd htopol (not_topolFails_of_walked h hindex hwhole message)

/-- A bag of one empty cell of two bytes, whose index entry says five. -/
def strayIndexBag : Slice :=
  Slice.ofBytes [0xb5, 0xee, 0x9c, 0x72, 0x81, 1, 1, 1, 0, 2, 0, 5, 0, 0]

def strayIndexInfo : Info :=
  { Info.fresh with
    magic := bocGeneric
    rootCount := 1
    cellCount := 1
    refByteSize := 1
    offsetByteSize := 1
    valid := true
    hasIndex := true
    hasRoots := true
    rootsOffset := 10
    indexOffset := 11
    dataOffset := 12
    dataSize := 2
    totalSize := 14 }

/-- The error status of `get_cell_slice` is unwrapped. -/
theorem strayIndexBag_aborts :
    (deserialize noCells strayIndexBag 1 .fresh).1 = .error .abort ∧
      TopolFails noCells strayIndexBag 1 ∧ ¬ TopolErrorsReturned noCells strayIndexBag 1 := by
  have hrun : (deserialize noCells strayIndexBag 1 .fresh).1 = .error .abort := by
    decide +kernel
  have hparsed : Parsed strayIndexBag 14 strayIndexInfo :=
    ⟨by decide +kernel, by decide, by decide⟩
  have haccept : Accepted noCells strayIndexBag 1 strayIndexInfo :=
    ⟨by decide, nofun, by unfold RootsInRange; decide +kernel⟩
  have hfails : TopolFails noCells strayIndexBag 1 :=
    ⟨14, strayIndexInfo, _, "invalid index entry [0; 5], [data.size():2]", hparsed, haccept,
      buildIndex_section hparsed rfl, by decide +kernel⟩
  refine ⟨hrun, hfails, fun h => ?_⟩
  obtain ⟨message, hmessage⟩ := h hfails
  rw [hrun] at hmessage
  cases hmessage

end TonCompress.Whole
