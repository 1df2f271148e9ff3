import TonCompress.Whole.Created
import TonCompress.Whole.Errors
import TonCompress.Lib.TwoRuns

/-! Two calls of `deserialize` on the same object. -/
namespace TonCompress.Whole
open TonCompress.Lib TonCompress.Boc MyBagOfCells

structure Counters where
  cellCount : Int
  rootCount : Int
  dangleCount : Int
  intRefs : Int
  intHashes : Int
  topHashes : Int
  dataBytes : Nat
  deriving DecidableEq

def counters (bag : MyBagOfCells) : Counters :=
  ⟨bag.cellCount, bag.rootCount, bag.dangleCount, bag.intRefs, bag.intHashes, bag.topHashes,
    bag.dataBytes⟩

structure Seen where
  result : BocExec Int
  root : BocExec (Option DataCell)
  counters : Counters

def seen (run : BocExec Int × MyBagOfCells) : Seen :=
  ⟨run.1, run.2.getRootCell 0, counters run.2⟩

/-- After a call that came back, `deserialize(d2, 1)` gives what it gives on a fresh object. -/
def SameOnReuse (lib : CellLib) (d1 d2 : Slice) : Prop :=
  Ends (deserialize lib d1 1 .fresh).1 (fun _ => True) IsStatus →
    seen (deserialize lib d2 1 (deserialize lib d1 1 .fresh).2) =
      seen (deserialize lib d2 1 .fresh)

/-- The members that a call can leave behind for the next. -/
structure Residue where
  hadRoots : Bool
  index : List Nat
  dangleCount : Int

structure HasResidue (bag : MyBagOfCells) (residue : Residue) : Prop where
  hadRoots : bag.info.hasRoots = residue.hadRoots
  index : bag.customIndex = residue.index
  dangleCount : bag.dangleCount = residue.dangleCount
  intHashes : bag.intHashes = 0
  topHashes : bag.topHashes = 0

/-- The cells of an accepted bag are all created, up to cycles. -/
structure Rebuilds (lib : CellLib) (data : Slice) (info : Info) : Prop where
  walks : info.hasIndex = false → WalksWhole info data
  creates : ∃ refs, CellsCreated lib data info refs

section stages
variable {lib : CellLib} {data : Slice} {size : Int} {info : Info} {bag bag' : MyBagOfCells}

def addResidue (bag x : MyBagOfCells) : MyBagOfCells :=
  { x with
    dangleCount := bag.dangleCount
    customIndex := bag.customIndex
    indexPtr := bag.indexPtr }

theorem readRoots_alike (bag x : MyBagOfCells) :
    AlikeAt (fun x y => y = addResidue bag x) (readRoots info data) (readRoots info data) x
      (addResidue bag x) := by
  unfold readRoots
  dsimp only
  refine AlikeAt.bind (alikeAt_modify _ _ rfl) ?_
  rintro _ x _ rfl
  refine AlikeAt.bind (alikeAt_liftExec _ rfl) ?_
  rintro roots x _ rfl
  refine forRange_alikeAt (Nat.zero_le _) ?_ rfl
  rintro i cache x _ rfl
  refine AlikeAt.bind (alikeAt_liftExec _ rfl) ?_
  rintro idx x _ rfl
  refine alikeAt_ite (fun _ => alikeAt_throw_bind _ rfl) fun _ => ?_
  refine alikeAt_get_bind ?_
  refine AlikeAt.bind (alikeAt_liftExec _ rfl) ?_
  rintro root x' _ rfl
  refine AlikeAt.bind (alikeAt_liftExec _ rfl) ?_
  rintro roots x' _ rfl
  refine AlikeAt.bind (alikeAt_modify _ _ rfl) ?_
  rintro _ x' _ rfl
  exact alikeAt_ite (fun _ => alikeAt_liftExec _ rfl) fun _ => alikeAt_pure _ rfl

theorem readRoots_frame (x : MyBagOfCells) :
    EndsAt (readRoots info data) x (fun _ (x' : MyBagOfCells) => x' = { x with roots := x'.roots })
      (fun _ (x' : MyBagOfCells) => x' = { x with roots := x'.roots }) := by
  unfold readRoots
  dsimp only
  rw [endsAt_modify_bind, endsAt_bind, endsAt_liftExec]
  refine (ends_true _).mono (fun roots _ => ?_) fun _ _ => rfl
  refine forRange_endsAt (fun _ _ (x' : MyBagOfCells) => x' = { x with roots := x'.roots })
    (Nat.zero_le _) rfl ?_
  intro i cache x' _ _ hx'
  rw [endsAt_bind, endsAt_liftExec]
  refine (ends_true _).mono (fun idx _ => ?_) fun _ _ => hx'
  refine endsAt_ite.mpr ⟨fun _ => hx', fun _ => ?_⟩
  rw [endsAt_get_bind, endsAt_bind, endsAt_liftExec]
  refine (ends_true _).mono (fun root _ => ?_) fun _ _ => hx'
  rw [endsAt_bind, endsAt_liftExec]
  refine (ends_true _).mono (fun roots _ => ?_) fun _ _ => hx'
  rw [endsAt_modify_bind]
  have hnext : ({ x' with roots } : MyBagOfCells) = { x with roots } := by
    rw [hx']
  refine endsAt_ite.mpr ⟨fun _ => ?_, fun _ => hnext⟩
  rw [endsAt_liftExec]
  exact (ends_true _).mono (fun _ _ => hnext) fun _ _ => hnext

def finishCells (info : Info) (sizeEst : Int) (roots : List RootInfo)
    (rebuilt : BocExec RebuildVars) : BagExec Int := do
  let vars ← liftExec rebuilt
  modify fun bag => { bag with
    customIndex := []
    indexPtr := none
    rootCount := info.rootCount
    dangleCount := info.absentCount }
  let roots ← liftExec (lookUpRoots roots vars)
  modify fun bag => { bag with roots }
  return sizeEst

theorem deserializeCells_finish {start : MyBagOfCells}
    (h : buildIndex info data start = (.ok (), bag)) (cache : List Nat) :
    deserializeCells lib info data size cache start =
      finishCells info size bag.roots (rebuildCells lib bag data cache) bag := by
  rw [deserializeCells, run_bind_ok h]
  rfl

theorem deserializeCells_unindexed {start : MyBagOfCells} {stop : Stop BocSite}
    (h : buildIndex info data start = (.error stop, bag)) (cache : List Nat) :
    deserializeCells lib info data size cache start = (.error stop, bag) := by
  rw [deserializeCells, run_bind_error h]

end stages

/-- The index section is read from where the root indices of a generic bag stand, and the
root found there rebuilds to the cell that the first cell rebuilds to. -/
def StrayRootSame (lib : CellLib) (data : Slice) (info : Info) : Prop :=
  ∃ root, (withRoots true info).readRoot (data.mem.drop info.rootsOffset) 0 = .ok root ∧
    0 ≤ root ∧ root < info.cellCount ∧
    ∀ refs, CellsCreated lib data info refs → ∀ x y : Fin info.cellCount.toNat,
      (x.val : Int) = root → y.val = 0 → ∀ cell,
        Rebuilt refs (createFrom lib info.refByteSize (info.cellsOf data) (freshEnds info data))
            x cell ↔
          Rebuilt refs (createFrom lib info.refByteSize (info.cellsOf data) (freshEnds info data))
            y cell

def walkedEnds (index : List Nat) (info : Info) (data : Slice) (k : Nat) : Nat :=
  (index ++ walkEnds info.refByteSize (info.cellsOf data) info.cellCount.toNat 0).getD k 0

/-- The entries that were left are those that the walk computes, up to the first record
that refers to no cell. -/
def IndexKept (index : List Nat) (data : Slice) (info : Info) : Prop :=
  ∀ i < info.cellCount.toNat,
    (∀ j < i, GoodCell info.refByteSize (info.cellsOf data) (walkedEnds [] info data)
      info.cellCount.toNat j) →
    walkedEnds index info data i = walkedEnds [] info data i

/-- A residue that does not show in a call. -/
structure Harmless (lib : CellLib) (residue : Residue) (data : Slice) : Prop where
  dangle : residue.dangleCount = 0 ∨
    ∃ size info, Parsed data size info ∧ Accepted lib data 1 info ∧ Rebuilds lib data info
  roots : residue.hadRoots = true → ∀ size info, Parsed data size info →
    Accepted lib data 1 info → info.hasRoots = false → StrayRootSame lib data info
  index : ∀ size info, Parsed data size info → Accepted lib data 1 info →
    info.hasIndex = false → WalksWhole info data → IndexKept residue.index data info

/-- What a call on a fresh object leaves behind. -/
inductive Leaves (lib : CellLib) (data : Slice) : Residue → Prop where
  | refused {size : Int} {info : Info}
      (parse : Info.fresh.parseSerializedHeader data = .ok (size, info))
      (refused : ¬ (Parsed data size info ∧ Accepted lib data 1 info)) :
      Leaves lib data ⟨info.hasRoots, [], 0⟩
  | rebuilt {size : Int} {info : Info} (parsed : Parsed data size info)
      (accepted : Accepted lib data 1 info) (rebuilds : Rebuilds lib data info) :
      Leaves lib data ⟨info.hasRoots, [], info.absentCount⟩
  | failed {size : Int} {info : Info} (parsed : Parsed data size info)
      (accepted : Accepted lib data 1 info) (fails : ¬ Rebuilds lib data info) :
      Leaves lib data ⟨info.hasRoots,
        if info.hasIndex then []
        else walkEnds info.refByteSize (info.cellsOf data) info.cellCount.toNat 0, 0⟩

section header
variable {lib : CellLib} {data : Slice} {size : Int} {info : Info}

theorem headerOutcome_again {had : Bool} {info' : Info}
    (h : 0 < size → info' = withRoots had info) (maxRoots : Int) :
    headerOutcome lib data maxRoots size info' = headerOutcome lib data maxRoots size info := by
  unfold headerOutcome
  by_cases hzero : size = 0
  · rw [if_pos hzero, if_pos hzero]
  rw [if_neg hzero, if_neg hzero]
  by_cases hneg : size < 0
  · rw [if_pos hneg, if_pos hneg]
  rw [if_neg hneg, if_neg hneg, h (by omega)]
  rfl

theorem headerOutcome_none (h : headerOutcome lib data 1 size info = none) :
    0 < size ∧ size ≤ data.len ∧ info.rootCount ≤ 1 ∧
      (info.hasCrc32c = true → checkCrc lib data = .ok ()) := by
  unfold headerOutcome at h
  split at h
  · cases h
  split at h
  · cases h
  split at h
  · cases h
  split at h
  · cases h
  refine ⟨by omega, by omega, by omega, fun hcrc => ?_⟩
  rw [if_pos hcrc] at h
  cases hcheck : checkCrc lib data with
  | error stop =>
    rw [hcheck] at h
    cases h
  | ok value => rfl

theorem headerOutcome_some {outcome : BocExec Int}
    (h : headerOutcome lib data 1 size info = some outcome) :
    ¬ (Parsed data size info ∧ Accepted lib data 1 info) := by
  rintro ⟨hparsed, haccept⟩
  have hpos := hparsed.size_pos
  have hle := hparsed.size_le
  have hfew := haccept.rootCount_le
  unfold headerOutcome at h
  rw [if_neg (by omega), if_neg (by omega), if_neg (by omega), if_neg (by omega)] at h
  by_cases hcrc : info.hasCrc32c = true
  · rw [if_pos hcrc, haccept.crc hcrc] at h
    cases h
  · rw [if_neg hcrc] at h
    cases h

end header

section comparing
variable {lib : CellLib} {data : Slice} {size : Int} {info : Info}
variable {bag x y : MyBagOfCells} {residue : Residue}

theorem seen_eq_iff {outcome : BocExec Int} {dangle : Int} (hroot : y.getRootCell 0 = x.getRootCell 0)
    (hcounters : counters y = { counters x with dangleCount := dangle })
    (hzero : x.dangleCount = 0) :
    seen (outcome, y) = seen (outcome, x) ↔ dangle = 0 := by
  unfold seen
  rw [hroot, hcounters]
  constructor
  · intro h
    have hdangle := congrArg (fun s => s.counters.dangleCount) h
    exact hdangle.trans hzero
  · rintro rfl
    congr 1
    rw [← hzero]
    rfl

theorem getRootCell_none (h : x.rootCount = 0) : x.getRootCell 0 = .ok none := by
  unfold MyBagOfCells.getRootCell
  rw [if_neg (by omega)]

theorem HasResidue.start (h : HasResidue bag residue) :
    ({ bag.clear with info, cellCount := info.cellCount } : MyBagOfCells) =
      addResidue bag { MyBagOfCells.fresh with info, cellCount := info.cellCount } := by
  unfold MyBagOfCells.clear addResidue MyBagOfCells.fresh
  dsimp only
  rw [h.intHashes, h.topHashes]

theorem HasResidue.refused (h : HasResidue bag residue) (info' : Info) (outcome : BocExec Int) :
    seen (outcome, { bag.clear with info := info' }) =
      seen (outcome, { MyBagOfCells.fresh.clear with info }) ↔ residue.dangleCount = 0 := by
  apply seen_eq_iff
  · rfl
  · unfold counters MyBagOfCells.clear MyBagOfCells.fresh
    dsimp only
    rw [h.intHashes, h.topHashes, h.dangleCount]
  · rfl

/-- Behind the index the residue shows unless the cells are all created, which sets every
member that it is in. -/
theorem finishCells_iff {dangle : Int} {index : List Nat} (rebuilt : BocExec RebuildVars)
    (hy : y = { x with dangleCount := dangle, customIndex := index })
    (hzero : x.dangleCount = 0) :
    seen (finishCells info size y.roots rebuilt y) =
      seen (finishCells info size x.roots rebuilt x) ↔
        dangle = 0 ∨ ∃ vars, rebuilt = .ok vars := by
  cases rebuilt with
  | error stop =>
    have hstop : ∀ roots z, finishCells info size roots (.error stop) z = (.error stop, z) :=
      fun _ _ => rfl
    have hroots : y.getRootCell 0 = x.getRootCell 0 := by
      subst hy
      rfl
    have hcounters : counters y = { counters x with dangleCount := dangle } := by
      subst hy
      rfl
    rw [hstop, hstop, seen_eq_iff hroots hcounters hzero]
    constructor
    · exact .inl
    · rintro (hdangle | ⟨vars, hvars⟩)
      · exact hdangle
      · cases hvars
  | ok vars =>
    subst hy
    exact ⟨fun _ => .inr ⟨vars, rfl⟩, fun _ => rfl⟩

theorem hasEntries_walked (hindex : info.hasIndex = false) (hcache : info.hasCacheBits = false)
    (hinfo : bag.info = info) (hwhole : WalksWhole info data) :
    HasEntries (walkedBag info data bag) info.cellCount.toNat
      (walkedEnds bag.customIndex info data) := by
  refine @hasEntries_custom info (walkedBag info data bag) hindex hcache hinfo _ ?_
  have hlength := hwhole.1
  change _ ≤ (bag.customIndex ++ walkEnds info.refByteSize (info.cellsOf data)
    info.cellCount.toNat 0).length
  rw [List.length_append]
  omega

structure Built (info : Info) (data : Slice) (bag : MyBagOfCells) : Prop where
  info_eq : bag.info = info
  cellCount_eq : bag.cellCount = info.cellCount
  entries : HasEntries bag info.cellCount.toNat (freshEnds info data)
  flags : info.hasCacheBits = true →
    ∀ i < info.cellCount.toNat, bag.getCacheEntry i = .ok (cacheFlag info data i)

theorem built_section (h : Parsed data size info) (hindex : info.hasIndex = true)
    (hinfo : bag.info = info) (hcount : bag.cellCount = info.cellCount)
    (hptr : bag.indexPtr = some (data.mem.drop info.indexOffset)) : Built info data bag := by
  refine ⟨hinfo, hcount, fun i hi => ?_, fun hbits i hi => ?_⟩
  · rw [freshEnds, if_pos hindex]
    exact hasEntries_section h hindex hinfo hptr i hi
  · have hnot : ¬ ¬ bag.info.hasCacheBits = true := not_not.mpr (hinfo.symm ▸ hbits)
    have hnot' : ¬ ¬ bag.info.hasIndex = true := not_not.mpr (hinfo.symm ▸ hindex)
    unfold MyBagOfCells.getCacheEntry
    rw [if_neg hnot, if_neg hnot', getIdxEntryRaw_section h hindex hinfo hptr hi]
    rfl

theorem built_walk (h : Parsed data size info) (hindex : info.hasIndex = false)
    (hwhole : WalksWhole info data) :
    Built info data (walkedBag info data (bagWithRoots data info)) := by
  have hcache := h.hasCacheBits_eq hindex
  refine ⟨rfl, rfl, fun i hi => ?_, fun hbits => ?_⟩
  · rw [freshEnds, if_neg (by simp [hindex])]
    exact @hasEntries_walked _ _ (bagWithRoots data info) hindex hcache rfl hwhole i hi
  · rw [hcache] at hbits
    cases hbits

theorem built_of_buildIndex (h : Parsed data size info)
    (hbuild : buildIndex info data (bagWithRoots data info) = (.ok (), bag)) :
    (info.hasIndex = false → WalksWhole info data) ∧ Built info data bag := by
  cases hindex : info.hasIndex with
  | true =>
    rw [buildIndex_section h hindex] at hbuild
    obtain ⟨-, rfl⟩ := Prod.mk.inj hbuild
    exact ⟨fun hno => absurd hno (by decide), built_section h hindex rfl rfl rfl⟩
  | false =>
    have hwalk := @buildIndex_walk _ _ _ (bagWithRoots data info) h hindex
    obtain ⟨hwhole, hleft⟩ := hwalk.of_ok (congrArg Prod.fst hbuild)
    obtain rfl := (congrArg Prod.snd hbuild).symm.trans hleft
    exact ⟨fun _ => hwhole, built_walk h hindex hwhole⟩

theorem exists_built (h : Parsed data size info)
    (hwalks : info.hasIndex = false → WalksWhole info data) :
    ∃ bag, buildIndex info data (bagWithRoots data info) = (.ok (), bag) := by
  cases hindex : info.hasIndex with
  | true => exact ⟨_, buildIndex_section h hindex⟩
  | false =>
    have hwalk := @buildIndex_walk _ _ _ (bagWithRoots data info) h hindex
    cases hrun : buildIndex info data (bagWithRoots data info) with
    | mk outcome bag =>
      cases outcome with
      | ok value => exact ⟨bag, rfl⟩
      | error stop =>
        exact absurd (hwalks hindex) (hwalk.of_error (congrArg Prod.fst hrun)).1.2

theorem rootsCache_of_readRoots {cache : List Nat} {start left : MyBagOfCells}
    (h : Parsed data size info) (hroots : readRoots info data start = (.ok cache, left)) :
    cache = rootsCache data info :=
  ((readRoots_ends h start).of_ok (congrArg Prod.fst hroots)).2.2

theorem rebuilds_iff (h : Parsed data size info) {cache : List Nat}
    (hroots : readRoots info data { MyBagOfCells.fresh with info, cellCount := info.cellCount } =
      (.ok cache, bagWithRoots data info))
    (hbuild : buildIndex info data (bagWithRoots data info) = (.ok (), bag)) :
    Rebuilds lib data info ↔ ∃ vars, rebuildCells lib bag data cache = .ok vars := by
  obtain ⟨hwalks, hbuilt⟩ := built_of_buildIndex h hbuild
  have hends := rebuildCells_ends lib h hbuilt.info_eq hbuilt.cellCount_eq hbuilt.entries
    hbuilt.flags
  rw [rootsCache_of_readRoots h hroots]
  constructor
  · intro hrebuilds
    cases hrun : rebuildCells lib bag data (rootsCache data info) with
    | ok vars => exact ⟨vars, rfl⟩
    | error stop => exact absurd hrebuilds.creates (hends.of_error hrun)
  · rintro ⟨vars, hvars⟩
    obtain ⟨refs, -, hcreated, -⟩ := hends.of_ok hvars
    exact ⟨hwalks, refs, hcreated⟩

theorem harmless_iff (h : Parsed data size info) (haccept : Accepted lib data 1 info)
    (hroots : residue.hadRoots = true → info.hasRoots = false → StrayRootSame lib data info)
    (hindex : info.hasIndex = false → WalksWhole info data → IndexKept residue.index data info) :
    Harmless lib residue data ↔ residue.dangleCount = 0 ∨ Rebuilds lib data info := by
  constructor
  · intro hharmless
    rcases hharmless.dangle with hzero | ⟨size', info', h', -, hrebuilds⟩
    · exact .inl hzero
    · obtain ⟨-, rfl⟩ := h.unique h'
      exact .inr hrebuilds
  · intro hdangle
    refine ⟨?_, ?_, ?_⟩
    · rcases hdangle with hzero | hrebuilds
      · exact .inl hzero
      · exact .inr ⟨size, info, h, haccept, hrebuilds⟩
    · intro hhad size' info' h' _
      obtain ⟨-, rfl⟩ := h.unique h'
      exact hroots hhad
    · intro size' info' h' _
      obtain ⟨-, rfl⟩ := h.unique h'
      exact hindex

theorem not_stray (hsame : withRoots residue.hadRoots info = info)
    (hhad : residue.hadRoots = true) : info.hasRoots = true := by
  have hroots := congrArg Info.hasRoots hsame
  rw [withRoots, hhad] at hroots
  exact hroots.symm

/-- With an index section a bag is read from the same entries as on a fresh object. -/
theorem reuse_section (hres : HasResidue bag residue) (h : Parsed data size info)
    (haccept : Accepted lib data 1 info) (hsame : withRoots residue.hadRoots info = info)
    (hindex : info.hasIndex = true) {cache : List Nat}
    (hroots : readRoots info data { MyBagOfCells.fresh with info, cellCount := info.cellCount } =
      (.ok cache, bagWithRoots data info)) :
    seen (deserializeCells lib info data size cache (addResidue bag (bagWithRoots data info))) =
      seen (deserializeCells lib info data size cache (bagWithRoots data info)) ↔
        Harmless lib residue data := by
  let x2 : MyBagOfCells := { bagWithRoots data info with
    indexPtr := some (data.mem.drop info.indexOffset) }
  let y2 : MyBagOfCells := { addResidue bag (bagWithRoots data info) with
    indexPtr := some (data.mem.drop info.indexOffset) }
  have hbuild : buildIndex info data (bagWithRoots data info) = (.ok (), x2) :=
    buildIndex_section h hindex
  have hbuild' : buildIndex info data (addResidue bag (bagWithRoots data info)) = (.ok (), y2) :=
    buildIndex_section h hindex
  have hentries : SameIndex residue.hadRoots x2.cellCount.toNat x2 y2 := by
    refine ⟨hsame.symm, rfl, fun i hi => ?_⟩
    unfold MyBagOfCells.getIdxEntryRaw
    rw [show y2.info = info from rfl, show x2.info = info from rfl, hindex]
    rfl
  have hrebuild : rebuildCells lib y2 data cache = rebuildCells lib x2 data cache :=
    hentries.rebuildCells (hasEntries_section h hindex rfl rfl) h.headerOk.refByteSize_le data cache
  have hy : y2 = { x2 with
      dangleCount := bag.dangleCount
      customIndex := bag.customIndex } := rfl
  rw [deserializeCells_finish hbuild', deserializeCells_finish hbuild, hrebuild,
    finishCells_iff _ hy rfl, ← rebuilds_iff h hroots hbuild, hres.dangleCount]
  refine (harmless_iff h haccept (fun hhad hnone => ?_) fun hnone => ?_).symm
  · rw [not_stray hsame hhad] at hnone
    cases hnone
  · rw [hindex] at hnone
    cases hnone

theorem buildIndex_alike (hindex : info.hasIndex = false) (bag x : MyBagOfCells) :
    AlikeAt (fun x y => y = { x with
        dangleCount := bag.dangleCount
        customIndex := bag.customIndex ++ x.customIndex })
      (buildIndex info data) (buildIndex info data) { x with customIndex := [] }
      (addResidue bag { x with customIndex := [] }) := by
  unfold buildIndex
  rw [if_neg (by simp [hindex])]
  refine AlikeAt.bind (alikeAt_modify _ _ ?_) ?_
  · simp [addResidue]
  rintro _ x _ rfl
  refine AlikeAt.bind (alikeAt_liftExec _ rfl) ?_
  rintro cells x _ rfl
  refine AlikeAt.bind (forRange_alikeAt (Nat.zero_le _) ?_ rfl) ?_
  · rintro i ⟨cells, cur⟩ x _ rfl
    refine AlikeAt.bind (alikeAt_liftExec _ rfl) ?_
    rintro cellInfo x _ rfl
    refine AlikeAt.bind (alikeAt_liftExec _ rfl) ?_
    rintro rest x _ rfl
    refine AlikeAt.bind (alikeAt_modify _ _ ?_) ?_
    · simp
    rintro _ x _ rfl
    exact alikeAt_pure _ rfl
  · rintro ⟨cells, cur⟩ x _ rfl
    exact alikeAt_ite (fun _ => alikeAt_throw _ rfl) fun _ => alikeAt_pure _ rfl

theorem walked_record (hwhole : WalksWhole info data) {i : Nat} (hi : i < info.cellCount.toNat) :
    ∃ record, Delimits info.refByteSize (info.cellsOf data) (walkedEnds [] info data) i record := by
  apply walkEnds_delimits
  rw [hwhole.1]
  exact hi

theorem exists_first_bad {n rbs : Nat} {cells : Slice} {ends : Nat → Nat}
    (h : ¬ ∀ i < n, GoodCell rbs cells ends n i) :
    ∃ i < n, (∀ j < i, GoodCell rbs cells ends n j) ∧ ¬ GoodCell rbs cells ends n i := by
  push Not at h
  classical
  obtain ⟨hlt, hbad⟩ := Nat.find_spec h
  refine ⟨Nat.find h, hlt, fun j hj => ?_, hbad⟩
  by_contra hnot
  exact Nat.find_min h hj ⟨by omega, hnot⟩

theorem rebuildCells_dangling (lib : CellLib) (h : Parsed data size info) {ends : Nat → Nat}
    (hentries : HasEntries bag info.cellCount.toNat ends) (hinfo : bag.info = info)
    (hcount : bag.cellCount = info.cellCount) {i : Nat} (hi : i < info.cellCount.toNat)
    (hbefore : ∀ j < i, GoodCell info.refByteSize (info.cellsOf data) ends info.cellCount.toNat j)
    (hbad : ¬ GoodCell info.refByteSize (info.cellsOf data) ends info.cellCount.toNat i)
    (hrecord : ∃ record, Delimits info.refByteSize (info.cellsOf data) ends i record)
    (cache : List Nat) :
    rebuildCells lib bag data cache = .error (.outOfRange .revGraph) := by
  have hrbs := h.headerOk.refByteSize_le
  rw [← hinfo] at hbefore hbad hrecord hrbs
  obtain ⟨stop, hrun, hstop⟩ := getTopolOrder_stuck (hinfo ▸ hentries) hrbs (hinfo ▸ hi)
    hbefore hbad
  obtain rfl := hstop.dangling hrecord
  rw [hinfo] at hrun
  exact rebuildCells_of_error lib h hinfo hcount hrun rfl cache

section residues
variable (lib : CellLib) (h : Parsed data size info) (hindex : info.hasIndex = false)
variable (hcache : info.hasCacheBits = false) (hwhole : WalksWhole info data)
variable (hinfo : y.info = info) (hcount : y.cellCount = info.cellCount)
include h hindex hcache hwhole hinfo hcount

theorem rebuildCells_kept (hkept : IndexKept y.customIndex data info) (cache : List Nat) :
    rebuildCells lib (walkedBag info data y) data cache =
      rebuildCells lib (walkedBag info data (bagWithRoots data info)) data cache := by
  have hrbs := h.headerOk.refByteSize_le
  have hend := h.dataEnd
  have hentries := @hasEntries_walked _ _ (bagWithRoots data info) hindex hcache rfl hwhole
  have hentries' := hasEntries_walked hindex hcache hinfo hwhole
  have hyinfo : (walkedBag info data y).info = info := hinfo
  by_cases hall : ∀ i < info.cellCount.toNat, GoodCell info.refByteSize (info.cellsOf data)
      (walkedEnds [] info data) info.cellCount.toNat i
  · have hsame : SameIndex false info.cellCount.toNat
        (walkedBag info data (bagWithRoots data info)) (walkedBag info data y) := by
      refine ⟨hinfo, hcount, fun i hi => ?_⟩
      have hentry := hentries i hi
      have hentry' := hentries' i hi
      rw [hkept i hi fun j hj => hall j (by omega)] at hentry'
      unfold MyBagOfCells.getIdxEntry at hentry hentry'
      rw [show (walkedBag info data (bagWithRoots data info)).info = info from rfl, hcache]
        at hentry
      rw [hyinfo, hcache] at hentry'
      obtain ⟨raw, hraw, hvalue⟩ := bind_eq_ok.mp hentry
      obtain ⟨raw', hraw', hvalue'⟩ := bind_eq_ok.mp hentry'
      rw [hraw, hraw', Except.ok.inj hvalue, Except.ok.inj hvalue']
      rfl
    exact hsame.rebuildCells hentries hrbs data cache
  · obtain ⟨i, hi, hbefore, hbad⟩ := exists_first_bad hall
    have hstuck : ∀ z ends, HasEntries z info.cellCount.toNat ends → z.info = info →
        z.cellCount = info.cellCount → (∀ k ≤ i, ends k = walkedEnds [] info data k) →
        rebuildCells lib z data cache = .error (.outOfRange .revGraph) := by
      intro z ends hz hzinfo hzcount hagree
      obtain ⟨record, hrecord⟩ := walked_record hwhole hi
      exact rebuildCells_dangling lib h hz hzinfo hzcount hi
        (fun j hj => (goodCell_congr fun k hk => hagree k (by omega)).mpr (hbefore j hj))
        (fun hgood => hbad ((goodCell_congr hagree).mp hgood))
        ⟨record, (delimits_congr hagree record).mpr hrecord⟩ cache
    rw [hstuck _ _ hentries' hinfo hcount fun k hk =>
        hkept k (by omega) fun j hj => hbefore j (by omega),
      hstuck _ _ hentries rfl rfl fun _ _ => rfl]

/-- At the first entry that is not kept, the sort finds no record. -/
theorem rebuildCells_lost (hlost : ¬ IndexKept y.customIndex data info) (cache : List Nat) :
    rebuildCells lib (walkedBag info data y) data cache = .error .abort := by
  have hentries := hasEntries_walked hindex hcache hinfo hwhole
  have hyinfo : (walkedBag info data y).info = info := hinfo
  have hrbs : (walkedBag info data y).info.refByteSize ≤ 4 := by
    rw [hyinfo]
    exact h.headerOk.refByteSize_le
  obtain ⟨i, ⟨hi, hgood, hdiffer⟩, hleast⟩ : ∃ i, (i < info.cellCount.toNat ∧
      (∀ j < i, GoodCell info.refByteSize (info.cellsOf data) (walkedEnds [] info data)
        info.cellCount.toNat j) ∧
      walkedEnds y.customIndex info data i ≠ walkedEnds [] info data i) ∧
      ∀ j < i, walkedEnds y.customIndex info data j = walkedEnds [] info data j := by
    unfold IndexKept at hlost
    push Not at hlost
    classical
    obtain ⟨hlt, hgood, hdiffer⟩ := Nat.find_spec hlost
    refine ⟨Nat.find hlost, ⟨hlt, hgood, hdiffer⟩, fun j hj => ?_⟩
    by_contra hne
    exact Nat.find_min hlost hj ⟨by omega, fun k hk => hgood k (by omega), hne⟩
  obtain ⟨record, hrecord⟩ := walked_record hwhole hi
  have hnone : ¬ ∃ record, Delimits info.refByteSize (info.cellsOf data)
      (walkedEnds y.customIndex info data) i record := by
    rintro ⟨record', hrecord'⟩
    exact hdiffer (hrecord.end_eq hrecord' hleast)
  have hbefore : ∀ j < i, GoodCell info.refByteSize (info.cellsOf data)
      (walkedEnds y.customIndex info data) info.cellCount.toNat j := fun j hj =>
    (goodCell_congr fun k hk => hleast k (by omega)).mpr (hgood j hj)
  obtain ⟨stop, hrun, hstop⟩ := @getTopolOrder_stuck (walkedBag info data y) (info.cellsOf data)
    _ _ hentries hrbs i hi (hyinfo.symm ▸ hbefore)
    fun ⟨record', hrecord', _⟩ => hnone ⟨record', hyinfo ▸ hrecord'⟩
  obtain ⟨message, rfl⟩ := hstop.status (hyinfo.symm ▸ hnone)
  exact rebuildCells_aborts lib h hyinfo hcount hrun cache

end residues

theorem finishCells_stops (info : Info) (size : Int) {rebuilt : BocExec RebuildVars}
    {stop : Stop BocSite → Prop} (h : Ends rebuilt (fun _ => True) stop) (roots : List RootInfo)
    (x : MyBagOfCells) :
    EndsAt (finishCells info size roots rebuilt) x (fun _ _ => True)
      (fun reason _ => stop reason ∨ LoopStop reason) := by
  unfold finishCells
  refine EndsAt.seq (fun _ _ => True) (h.mono (fun _ _ => trivial) fun _ => Or.inl) fun vars x _ => ?_
  rw [endsAt_modify_bind, endsAt_bind, endsAt_liftExec]
  exact (lookUpRoots_stops roots vars).mono (fun _ _ => trivial) fun _ => Or.inr

theorem rebuildCells_walked (lib : CellLib) (h : Parsed data size info)
    (hindex : info.hasIndex = false) (hcache : info.hasCacheBits = false)
    (hwhole : WalksWhole info data) (cache : List Nat) :
    Ends (rebuildCells lib (walkedBag info data (bagWithRoots data info)) data cache)
      (fun _ => True) fun stop => LoopStop stop := by
  have hentries := @hasEntries_walked _ _ (bagWithRoots data info) hindex hcache rfl hwhole
  have hends := @rebuildCells_stops (walkedBag info data (bagWithRoots data info)) _ _ _ lib h rfl
    rfl hcache _ hentries cache
  refine hends.mono (fun _ => id) ?_
  rintro stop (hloop | ⟨-, message, htopol⟩)
  · exact hloop
  · exact absurd htopol (not_topolFails_of_walked h hindex hwhole message)

/-- Without an index section the entries left in the index are in front of the computed
ones. -/
theorem reuse_walk (hres : HasResidue bag residue) (h : Parsed data size info)
    (haccept : Accepted lib data 1 info) (hindex : info.hasIndex = false) {cache : List Nat}
    (hroots : readRoots info data { MyBagOfCells.fresh with info, cellCount := info.cellCount } =
      (.ok cache, bagWithRoots data info)) :
    seen (deserializeCells lib info data size cache (addResidue bag (bagWithRoots data info))) =
      seen (deserializeCells lib info data size cache (bagWithRoots data info)) ↔
        Harmless lib residue data := by
  have hcache := h.hasCacheBits_eq hindex
  have hflag : residue.hadRoots = true → info.hasRoots = false → StrayRootSame lib data info := by
    intro _ hnone
    rw [(Parsed.sections h).hasRoots ((Parsed.sections h).generic hindex)] at hnone
    cases hnone
  have hwalk := @buildIndex_walk _ _ _ (bagWithRoots data info) h hindex
  have halike := @buildIndex_alike data info hindex bag (bagWithRoots data info)
  cases hrun : buildIndex info data (bagWithRoots data info) with
  | mk outcome x =>
    cases hrun' : buildIndex info data (addResidue bag (bagWithRoots data info)) with
    | mk outcome' y =>
      obtain ⟨hsame, hrel⟩ := halike
      change (buildIndex info data (bagWithRoots data info)).1 =
        (buildIndex info data (addResidue bag (bagWithRoots data info))).1 at hsame
      change (buildIndex info data (addResidue bag (bagWithRoots data info))).2 =
        { (buildIndex info data (bagWithRoots data info)).2 with
          dangleCount := bag.dangleCount
          customIndex := bag.customIndex ++
            (buildIndex info data (bagWithRoots data info)).2.customIndex } at hrel
      rw [hrun, hrun'] at hsame hrel
      obtain rfl : outcome = outcome' := hsame
      dsimp only at hrel
      cases outcome with
      | error stop =>
        obtain ⟨⟨-, hpart⟩, hleft⟩ := hwalk.of_error (congrArg Prod.fst hrun)
        rw [hrun] at hleft
        obtain rfl : x = walkedBag info data (bagWithRoots data info) := hleft
        have hroot : y.getRootCell 0 =
            (walkedBag info data (bagWithRoots data info)).getRootCell 0 := by
          rw [hrel]
          rfl
        have hcounters : counters y = { counters (walkedBag info data (bagWithRoots data info)) with
            dangleCount := bag.dangleCount } := by
          rw [hrel]
          rfl
        have hnot : ¬ Rebuilds lib data info := fun hrebuilds => hpart (hrebuilds.walks hindex)
        rw [deserializeCells_unindexed hrun', deserializeCells_unindexed hrun,
          seen_eq_iff hroot hcounters rfl, hres.dangleCount,
          harmless_iff h haccept hflag fun _ hwhole => absurd hwhole hpart, or_iff_left hnot]
      | ok value =>
        obtain ⟨hwhole, hleft⟩ := hwalk.of_ok (congrArg Prod.fst hrun)
        rw [hrun] at hleft
        obtain rfl : x = walkedBag info data (bagWithRoots data info) := hleft
        have hright : y = walkedBag info data (addResidue bag (bagWithRoots data info)) := hrel
        rw [deserializeCells_finish hrun', deserializeCells_finish hrun]
        by_cases hkept : IndexKept residue.index data info
        · have hrebuild : rebuildCells lib y data cache =
              rebuildCells lib (walkedBag info data (bagWithRoots data info)) data cache := by
            rw [hright]
            rw [← hres.index] at hkept
            exact @rebuildCells_kept data size info (addResidue bag (bagWithRoots data info)) lib h
              hindex hcache hwhole rfl rfl hkept cache
          rw [hrebuild, finishCells_iff _ hrel rfl, ← rebuilds_iff h hroots hrun, hres.dangleCount,
            harmless_iff h haccept hflag fun _ _ => hkept]
        · have hlost : rebuildCells lib y data cache = .error .abort := by
            rw [hright]
            rw [← hres.index] at hkept
            exact @rebuildCells_lost data size info (addResidue bag (bagWithRoots data info)) lib h
              hindex hcache hwhole rfl rfl hkept cache
          rw [hlost]
          constructor
          · intro hseen
            have hresult := congrArg Seen.result hseen
            have hstops := finishCells_stops info size
              (rebuildCells_walked lib h hindex hcache hwhole cache)
              (walkedBag info data (bagWithRoots data info)).roots
              (walkedBag info data (bagWithRoots data info))
            rcases hstops.of_error hresult.symm with hloop | hloop <;> cases hloop
          · intro hharmless
            exact absurd (hharmless.index size info h haccept hindex hwhole) hkept

end comparing

end TonCompress.Whole
