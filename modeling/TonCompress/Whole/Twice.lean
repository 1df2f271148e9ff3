import TonCompress.Whole.Reuse
import TonCompress.Boc.RoundTrip

/-! What a call leaves in the object, and when the next call shows it. -/
namespace TonCompress.Whole
open TonCompress.Lib TonCompress.Boc MyBagOfCells

section stray
variable {lib : CellLib} {data : Slice} {size : Int} {info : Info}
variable {bag x y : MyBagOfCells} {residue : Residue}

theorem readIntLoop_stops (ptr : List UInt8) (bytes res : Nat) :
    Ends (readIntLoop ptr bytes res) (fun _ => True) fun stop => stop = .outOfRange .buffer := by
  induction bytes generalizing ptr res with
  | zero =>
    rw [readIntLoop]
    trivial
  | succ bytes ih =>
    cases ptr with
    | nil => rfl
    | cons byte ptr => exact ih ptr _

theorem readRoot_stops (info : Info) (ptr : List UInt8) (i : Nat) :
    Ends (info.readRoot ptr i) (fun _ => True) fun stop => stop = .outOfRange .buffer := by
  unfold Info.readRoot
  refine ends_ite.mpr ⟨fun _ => ?_, fun _ => trivial⟩
  exact (readIntLoop_stops _ _ 0).bind fun _ _ => trivial

def RootRead (info : Info) (data : Slice) (root : Int) : Prop :=
  info.readRoot (data.mem.drop info.rootsOffset) 0 = .ok root ∧ 0 ≤ root ∧ root < info.cellCount

theorem readRoots_one (hone : info.rootCount = 1) (hcache : info.hasCacheBits = false)
    (hoffset : info.rootsOffset ≤ data.len) (x : MyBagOfCells) :
    EndsAt (readRoots info data) x
      (fun cache x' => ∃ root, RootRead info data root ∧ cache = [] ∧
        x' = { x with roots := [⟨none, root⟩] })
      (fun stop _ => (¬ ∃ root, RootRead info data root) ∧ (stop = .outOfRange .buffer ∨
        ∃ root : Int, stop = .status s!"bag-of-cells invalid root index {root}")) := by
  unfold readRoots
  dsimp only
  rw [endsAt_modify_bind, Slice.substr_ok hoffset, endsAt_liftExec_ok_bind, hone, hcache,
    show (1 : Int).toNat = 0 + 1 from rfl, forRange_succ_left (by omega)]
  refine EndsAt.seq (fun cache x' => ∃ root, RootRead info data root ∧ cache = [] ∧
    x' = { x with roots := [⟨none, root⟩] }) ?_ fun cache x' hround => ?_
  swap
  · rw [forRange_self]
    exact hround
  rw [show (data.drop info.rootsOffset).mem = data.mem.drop info.rootsOffset from rfl]
  have hstops := readRoot_stops info (data.mem.drop info.rootsOffset) 0
  cases hroot : info.readRoot (data.mem.drop info.rootsOffset) 0 with
  | error stop =>
    refine ⟨?_, .inl (hstops.of_error hroot)⟩
    rintro ⟨root, hread, -⟩
    rw [hroot] at hread
    cases hread
  | ok root =>
    rw [endsAt_liftExec_ok_bind]
    refine endsAt_ite.mpr ⟨fun hbad => ?_, fun hgood => ?_⟩
    · refine ⟨?_, .inr ⟨root, rfl⟩⟩
      rintro ⟨root', hread, hnonneg, hlt⟩
      rw [hroot] at hread
      obtain rfl := Except.ok.inj hread
      omega
    · exact ⟨root, ⟨hroot, by omega, by omega⟩, rfl, rfl⟩

theorem LoopStop.exists_rest {text : String} (h : LoopStop (.status text)) :
    ∃ rest, text = "invalid bag-of-cells failed to deserialize cell #" ++ rest := by
  generalize hstop : (Stop.status text : Stop BocSite) = stop at h
  cases h with
  | status idx message =>
    rw [Stop.status.inj hstop]
    simp only [String.append_assoc, toString]
    exact ⟨_, rfl⟩
  | vector hsite => cases hstop

theorem LoopStop.not_root {stop : Stop BocSite} (h : LoopStop stop) :
    ¬ (stop = .outOfRange .buffer ∨
      ∃ root : Int, stop = .status s!"bag-of-cells invalid root index {root}") := by
  rintro (rfl | ⟨root, rfl⟩)
  · cases h with
    | vector hsite => exact hsite rfl
  · obtain ⟨rest, hrest⟩ := h.exists_rest
    change "bag-of-cells invalid root index " ++ toString root = _ at hrest
    have hfirst := congrArg (fun text => text.toList.head?) hrest
    simp [String.toList_append] at hfirst

/-- What `deserialize` returns, and the root, by the look-up of the one root. -/
def lookedUp (size : Int) : BocExec (Option DataCell) → BocExec Int × Option DataCell
  | .ok cell => (.ok size, cell)
  | .error stop => (.error stop, none)

theorem lookedUp_inj {look look' : BocExec (Option DataCell)}
    (h : lookedUp size look = lookedUp size look') : look = look' := by
  cases look with
  | error stop =>
    cases look' with
    | error stop' =>
      exact congrArg Except.error (Except.error.inj (congrArg Prod.fst h))
    | ok cell => cases congrArg Prod.fst h
  | ok cell =>
    cases look' with
    | error stop => cases congrArg Prod.fst h
    | ok cell' =>
      have hcell : cell = cell' := congrArg Prod.snd h
      rw [hcell]

theorem finishCells_looked (hone : info.rootCount = 1) (vars : RebuildVars) (root : Int)
    (x : MyBagOfCells) (hroots : x.roots = [⟨none, root⟩]) :
    seen (finishCells info size [⟨none, root⟩] (.ok vars) x) =
      { result := (lookedUp size ((lookUpRoot vars ⟨none, root⟩).map (·.cell))).1
        root := .ok (lookedUp size ((lookUpRoot vars ⟨none, root⟩).map (·.cell))).2
        counters := { counters x with rootCount := 1, dangleCount := info.absentCount } } := by
  have hlook : lookUpRoots [⟨none, root⟩] vars =
      (lookUpRoot vars ⟨none, root⟩).map fun found => [found] := by
    unfold lookUpRoots
    rw [List.mapM_cons, List.mapM_nil]
    cases lookUpRoot vars ⟨none, root⟩ <;> rfl
  let done : MyBagOfCells := { x with
    customIndex := []
    indexPtr := none
    rootCount := info.rootCount
    dangleCount := info.absentCount }
  cases hfound : lookUpRoot vars ⟨none, root⟩ with
  | error stop =>
    have hrun : finishCells info size [⟨none, root⟩] (.ok vars) x = (.error stop, done) := by
      apply EndsAt.run_eq
      rw [finishCells, endsAt_liftExec_ok_bind, endsAt_modify_bind, hlook, hfound]
      rfl
    rw [hrun]
    simp [seen, done, getRootCell, counters, hone, hroots, lookedUp, Except.map]
  | ok found =>
    have hrun : finishCells info size [⟨none, root⟩] (.ok vars) x =
        (.ok size, { done with roots := [found] }) := by
      apply EndsAt.run_eq
      rw [finishCells, endsAt_liftExec_ok_bind, endsAt_modify_bind, hlook, hfound]
      rfl
    rw [hrun]
    simp [seen, done, getRootCell, counters, hone, lookedUp, Except.map]

theorem finishCells_roots {dangle root root' : Int} {index : List Nat} {info' : Info}
    (rebuilt : BocExec RebuildVars) (hone : info.rootCount = 1) (hroots : x.roots = [⟨none, root⟩])
    (hy : y = { x with
      info := info'
      dangleCount := dangle
      customIndex := index
      roots := [⟨none, root'⟩] })
    (hzero : x.dangleCount = 0) (hnone : x.rootCount = 0) :
    seen (finishCells info size y.roots rebuilt y) =
      seen (finishCells info size x.roots rebuilt x) ↔
        (dangle = 0 ∨ ∃ vars, rebuilt = .ok vars) ∧ ∀ vars, rebuilt = .ok vars →
          (lookUpRoot vars ⟨none, root'⟩).map (·.cell) =
            (lookUpRoot vars ⟨none, root⟩).map (·.cell) := by
  cases rebuilt with
  | error stop =>
    have hstop : ∀ roots z, finishCells info size roots (.error stop) z = (.error stop, z) :=
      fun _ _ => rfl
    have hroot : y.getRootCell 0 = x.getRootCell 0 := by
      have hnone' : y.rootCount = 0 := by
        rw [hy]
        exact hnone
      rw [getRootCell_none hnone, getRootCell_none hnone']
    have hcounters : counters y = { counters x with dangleCount := dangle } := by
      subst hy
      rfl
    rw [hstop, hstop, seen_eq_iff hroot hcounters hzero]
    constructor
    · intro hdangle
      exact ⟨.inl hdangle, fun vars hvars => by cases hvars⟩
    · rintro ⟨hdangle | ⟨vars, hvars⟩, -⟩
      · exact hdangle
      · cases hvars
  | ok vars =>
    have hcounters : ({ counters y with rootCount := 1, dangleCount := info.absentCount } :
        Counters) = { counters x with rootCount := 1, dangleCount := info.absentCount } := by
      rw [hy]
      rfl
    have hroots' : y.roots = [⟨none, root'⟩] := by
      rw [hy]
    rw [hroots', hroots, finishCells_looked hone vars root' y hroots',
      finishCells_looked hone vars root x hroots, hcounters]
    constructor
    · intro hseen
      refine ⟨.inr ⟨vars, rfl⟩, ?_⟩
      intro vars' hvars
      obtain rfl := Except.ok.inj hvars
      apply @lookedUp_inj size
      have hresult := congrArg Seen.result hseen
      have hroot := Except.ok.inj (congrArg Seen.root hseen)
      exact Prod.ext hresult hroot
    · rintro ⟨-, hlook⟩
      rw [hlook vars rfl]

theorem readRoots_zero (h : Parsed data size info) (hnone : info.hasRoots = false)
    (hone : info.rootCount = 1) (hcache : info.hasCacheBits = false) :
    RootsInRange data info ∧ (bagWithRoots data info).roots = [⟨none, 0⟩] ∧
      readRoots info data { MyBagOfCells.fresh with info, cellCount := info.cellCount } =
        (.ok [], bagWithRoots data info) := by
  have hpos := h.headerOk.cellCount_pos
  have hidx : ∀ i, info.rootIdx data i = 0 := by
    intro i
    rw [Info.rootIdx, if_neg (by simp [hnone])]
  have hrange : RootsInRange data info := by
    intro i _
    rw [hidx]
    omega
  have hlist : readRootInfos data info = [⟨none, 0⟩] := by
    unfold readRootInfos
    simp only [hidx]
    rw [hone]
    rfl
  refine ⟨hrange, hlist, ?_⟩
  apply EndsAt.run_eq
  refine (readRoots_ends h _).mono ?_ fun _ _ hstop => absurd hrange hstop.2
  rintro _ _ ⟨-, rfl, rfl⟩
  rw [rootsCache_eq_nil hcache]
  rfl

theorem looksSame_iff (lib : CellLib) (h : Parsed data size info) (hbuilt : Built info data bag)
    (hcache : info.hasCacheBits = false) {root : Int} (hnonneg : 0 ≤ root)
    (hlt : root < info.cellCount) :
    (∀ vars, rebuildCells lib bag data [] = .ok vars →
      (lookUpRoot vars ⟨none, root⟩).map (·.cell) = (lookUpRoot vars ⟨none, 0⟩).map (·.cell)) ↔
    ∀ refs, CellsCreated lib data info refs → ∀ x y : Fin info.cellCount.toNat,
      (x.val : Int) = root → y.val = 0 → ∀ cell,
        Rebuilt refs (createFrom lib info.refByteSize (info.cellsOf data) (freshEnds info data))
            x cell ↔
          Rebuilt refs (createFrom lib info.refByteSize (info.cellsOf data) (freshEnds info data))
            y cell := by
  have hends := rebuildCells_ends lib h hbuilt.info_eq hbuilt.cellCount_eq hbuilt.entries
    hbuilt.flags
  rw [rootsCache_eq_nil hcache] at hends
  constructor
  · rintro hlooks refs hcreated x y rfl hy
    cases hrun : rebuildCells lib bag data [] with
    | error stop => exact absurd ⟨refs, hcreated⟩ (hends.of_error hrun)
    | ok vars =>
      obtain ⟨refs', order, hcreated', horder, hinv⟩ := hends.of_ok hrun
      obtain rfl := hcreated'.graph.unique hcreated.graph
      refine (lookUpRoot_same_iff horder hinv x y).mp ?_
      rw [hy]
      exact hlooks vars hrun
  · intro hsame vars hvars
    obtain ⟨refs, order, hcreated, horder, hinv⟩ := hends.of_ok hvars
    have hlooks := (lookUpRoot_same_iff horder hinv ⟨root.toNat, by omega⟩ ⟨0, by omega⟩).mpr
      (hsame refs hcreated _ _ (Int.toNat_of_nonneg hnonneg) rfl)
    dsimp only at hlooks
    rw [Int.toNat_of_nonneg hnonneg] at hlooks
    exact hlooks

/-- A fresh object once the roots are read and the index is found in its section. -/
def sectionBag (data : Slice) (info : Info) : MyBagOfCells :=
  { bagWithRoots data info with indexPtr := some (data.mem.drop info.indexOffset) }

/-- The object behind the header, when an earlier call has seen root indices. -/
def strayStart (bag : MyBagOfCells) (info : Info) : MyBagOfCells :=
  addResidue bag { MyBagOfCells.fresh with
    info := withRoots true info
    cellCount := info.cellCount }

section reading
variable (hhad : residue.hadRoots = true) (h : Parsed data size info)
variable (haccept : Accepted lib data 1 info) (hnone : info.hasRoots = false)
variable (hcache : info.hasCacheBits = false) (hindex : info.hasIndex = true)
include hhad h haccept hnone hcache hindex

theorem reuse_stray_refused {stop : Stop BocSite}
    (hnot : ¬ ∃ root, RootRead (withRoots true info) data root)
    (hstop : stop = .outOfRange .buffer ∨
      ∃ root : Int, stop = .status s!"bag-of-cells invalid root index {root}") :
    seen (.error stop, y) = seen (finishCells info size (sectionBag data info).roots
        (rebuildCells lib (sectionBag data info) data []) (sectionBag data info)) ↔
      Harmless lib residue data := by
  constructor
  · intro hseen
    have hentries := @hasEntries_section data size info (sectionBag data info) h hindex rfl rfl
    have hrebuilt := @rebuildCells_stops (sectionBag data info) _ _ _ lib h rfl rfl hcache _
      hentries []
    have hstops := finishCells_stops info size hrebuilt (sectionBag data info).roots
      (sectionBag data info)
    rcases hstops.of_error (congrArg Seen.result hseen).symm with (hloop | ⟨rfl, -⟩) | hloop
    · exact absurd hstop hloop.not_root
    · rcases hstop with hstop | ⟨root, hstop⟩ <;> cases hstop
    · exact absurd hstop hloop.not_root
  · intro hharmless
    obtain ⟨root, hroot, hnonneg, hlt, -⟩ := hharmless.roots hhad size info h haccept hnone
    exact absurd ⟨root, hroot, hnonneg, hlt⟩ hnot

variable (hone : info.rootCount = 1)
include hone

theorem reuse_stray_read (hres : HasResidue bag residue) {root : Int}
    (hread : RootRead (withRoots true info) data root) :
    seen (deserializeCells lib (withRoots true info) data size []
        { strayStart bag info with roots := [⟨none, root⟩] }) =
      seen (finishCells info size (sectionBag data info).roots
        (rebuildCells lib (sectionBag data info) data []) (sectionBag data info)) ↔
      Harmless lib residue data := by
  obtain ⟨hroot, hnonneg, hlt⟩ := hread
  obtain ⟨-, hlist, hroots⟩ := readRoots_zero h hnone hone hcache
  have hbuild : buildIndex info data (bagWithRoots data info) = (.ok (), sectionBag data info) :=
    buildIndex_section h hindex
  obtain ⟨-, hbuilt⟩ := built_of_buildIndex h hbuild
  let y : MyBagOfCells := { sectionBag data info with
    info := withRoots true info
    dangleCount := bag.dangleCount
    customIndex := bag.customIndex
    roots := [⟨none, root⟩] }
  have hbuild' : buildIndex (withRoots true info) data
      { strayStart bag info with roots := [⟨none, root⟩] } = (.ok (), y) := by
    change buildIndex info data _ = _
    exact buildIndex_section h hindex
  have hsame : SameIndex true (sectionBag data info).cellCount.toNat (sectionBag data info) y := by
    refine ⟨rfl, rfl, fun i hi => ?_⟩
    unfold MyBagOfCells.getIdxEntryRaw
    rw [show y.info = withRoots true info from rfl, show (sectionBag data info).info = info from rfl,
      show (withRoots true info).hasIndex = info.hasIndex from rfl, hindex]
    rfl
  have hrebuild : rebuildCells lib y data [] = rebuildCells lib (sectionBag data info) data [] :=
    hsame.rebuildCells hbuilt.entries h.headerOk.refByteSize_le data []
  have hsection : ¬ info.hasIndex = false := by simp [hindex]
  rw [deserializeCells_finish hbuild', hrebuild]
  change seen (finishCells info size y.roots (rebuildCells lib (sectionBag data info) data []) y) =
    _ ↔ _
  rw [@finishCells_roots size info (sectionBag data info) y _ _ _ _ _ _ hone hlist rfl rfl rfl,
    hres.dangleCount, ← rebuilds_iff h hroots hbuild, looksSame_iff lib h hbuilt hcache hnonneg hlt]
  constructor
  · rintro ⟨hdangle, hlooks⟩
    exact (harmless_iff h haccept (fun _ _ => ⟨root, hroot, hnonneg, hlt, hlooks⟩)
      fun hno => absurd hno hsection).mpr hdangle
  · intro hharmless
    have hstray := hharmless.roots hhad size info h haccept hnone
    refine ⟨(harmless_iff h haccept (fun _ _ => hstray) fun hno => absurd hno hsection).mp
      hharmless, ?_⟩
    obtain ⟨root', hroot', -, -, hlooks⟩ := hstray
    obtain rfl := Except.ok.inj (hroot.symm.trans hroot')
    exact hlooks

/-- After a generic bag the root of a bag without root indices is read from its index
section. -/
theorem reuse_stray (hres : HasResidue bag residue) :
    seen ((readRoots (withRoots true info) data >>= fun cache =>
        deserializeCells lib (withRoots true info) data size cache) (strayStart bag info)) =
      seen ((readRoots info data >>= fun cache => deserializeCells lib info data size cache)
        { MyBagOfCells.fresh with info, cellCount := info.cellCount }) ↔
      Harmless lib residue data := by
  obtain ⟨-, -, hroots⟩ := readRoots_zero h hnone hone hcache
  have hbuild : buildIndex info data (bagWithRoots data info) = (.ok (), sectionBag data info) :=
    buildIndex_section h hindex
  have hoffset : info.rootsOffset ≤ data.len := by
    have hend := h.dataEnd
    have hrootsOffset := h.headerOk.rootsOffset_le
    have hindexOffset := h.headerOk.indexOffset_le
    omega
  rw [run_bind_ok hroots, deserializeCells_finish hbuild]
  have hread := @readRoots_one data (withRoots true info) hone hcache hoffset (strayStart bag info)
  cases hrun : readRoots (withRoots true info) data (strayStart bag info) with
  | mk outcome y =>
    cases outcome with
    | error stop =>
      obtain ⟨hnot, hstop⟩ := hread.of_error (congrArg Prod.fst hrun)
      rw [run_bind_error hrun]
      exact reuse_stray_refused hhad h haccept hnone hcache hindex hnot hstop
    | ok cache =>
      obtain ⟨root, hroot, rfl, hleft⟩ := hread.of_ok (congrArg Prod.fst hrun)
      rw [hrun] at hleft
      obtain rfl := hleft
      rw [run_bind_ok hrun]
      exact reuse_stray_read hhad h haccept hnone hcache hindex hone hres hroot

end reading

end stray

section twice
variable {lib : CellLib} {data : Slice} {size : Int} {info : Info}
variable {bag x y : MyBagOfCells} {residue : Residue}

theorem harmless_refused
    (h : ∀ size info, ¬ (Parsed data size info ∧ Accepted lib data 1 info)) :
    Harmless lib residue data ↔ residue.dangleCount = 0 := by
  constructor
  · intro hharmless
    rcases hharmless.dangle with hzero | ⟨size, info, hparsed, haccept, -⟩
    · exact hzero
    · exact absurd ⟨hparsed, haccept⟩ (h size info)
  · intro hzero
    exact ⟨.inl hzero, fun _ size info hparsed haccept => absurd ⟨hparsed, haccept⟩ (h size info),
      fun size info hparsed haccept => absurd ⟨hparsed, haccept⟩ (h size info)⟩

theorem not_accepted (h : Parsed data size info) (hnot : ¬ Accepted lib data 1 info)
    (size' : Int) (info' : Info) : ¬ (Parsed data size' info' ∧ Accepted lib data 1 info') := by
  rintro ⟨h', haccept⟩
  obtain ⟨-, rfl⟩ := h.unique h'
  exact hnot haccept

theorem reuse_kept (hres : HasResidue bag residue) (h : Parsed data size info)
    (hfew : info.rootCount ≤ 1) (hcrc : info.hasCrc32c = true → checkCrc lib data = .ok ())
    (hsame : withRoots residue.hadRoots info = info) :
    seen ((readRoots info data >>= fun cache => deserializeCells lib info data size cache)
        (addResidue bag { MyBagOfCells.fresh with info, cellCount := info.cellCount })) =
      seen ((readRoots info data >>= fun cache => deserializeCells lib info data size cache)
        { MyBagOfCells.fresh with info, cellCount := info.cellCount }) ↔
      Harmless lib residue data := by
  have halike := @readRoots_alike data info bag
    { MyBagOfCells.fresh with info, cellCount := info.cellCount }
  have hends := readRoots_ends h { MyBagOfCells.fresh with info, cellCount := info.cellCount }
  have hframe := @readRoots_frame data info
    { MyBagOfCells.fresh with info, cellCount := info.cellCount }
  unfold AlikeAt at halike
  cases hrun : readRoots info data { MyBagOfCells.fresh with info, cellCount := info.cellCount } with
  | mk outcome x =>
    cases hrun' : readRoots info data
        (addResidue bag { MyBagOfCells.fresh with info, cellCount := info.cellCount }) with
    | mk outcome' y =>
      rw [hrun, hrun'] at halike
      obtain ⟨hboth, hrel⟩ := halike
      obtain rfl : outcome = outcome' := hboth
      obtain rfl : y = addResidue bag x := hrel
      cases outcome with
      | error stop =>
        obtain ⟨-, hrange⟩ := hends.of_error (congrArg Prod.fst hrun)
        have hleft := hframe.of_error (congrArg Prod.fst hrun)
        rw [hrun] at hleft
        dsimp only at hleft
        have hroot : (addResidue bag x).getRootCell 0 = x.getRootCell 0 := rfl
        have hcounters : counters (addResidue bag x) =
            { counters x with dangleCount := bag.dangleCount } := rfl
        have hzero : x.dangleCount = 0 := by
          rw [hleft]
          rfl
        rw [run_bind_error hrun', run_bind_error hrun, seen_eq_iff hroot hcounters hzero,
          hres.dangleCount,
          harmless_refused (not_accepted h fun haccept => hrange haccept.roots)]
      | ok cache =>
        obtain ⟨hrange, hleft, -⟩ := hends.of_ok (congrArg Prod.fst hrun)
        rw [hrun] at hleft
        obtain rfl : x = bagWithRoots data info := hleft
        have haccept : Accepted lib data 1 info := ⟨hfew, hcrc, hrange⟩
        rw [run_bind_ok hrun', run_bind_ok hrun]
        cases hindex : info.hasIndex with
        | true => exact reuse_section hres h haccept hsame hindex hrun
        | false => exact reuse_walk hres h haccept hindex hrun

theorem stray_of_ne {had : Bool} (h : withRoots had info ≠ info) :
    had = true ∧ info.hasRoots = false := by
  cases had with
  | false => exact absurd rfl h
  | true =>
    refine ⟨rfl, Bool.eq_false_of_not_eq_true fun hroots => h ?_⟩
    unfold withRoots
    rw [hroots, Bool.or_true, ← hroots]

/-- The next call shows what is left unless the residue is harmless to it. -/
theorem seen_again_iff (lib : CellLib) (hres : HasResidue bag residue) (data : Slice) :
    seen (deserialize lib data 1 bag) = seen (deserialize lib data 1 .fresh) ↔
      Harmless lib residue data := by
  obtain ⟨size, info, info', hparse, hparse', -, hagain⟩ :=
    (parseSerializedHeader_again bag.info data).exists_size
  rw [hres.hadRoots] at hagain
  have hheader := @headerOutcome_again lib data size info _ _ hagain 1
  have hfresh : MyBagOfCells.fresh.info.parseSerializedHeader data = .ok (size, info) := hparse
  rw [deserialize_eq_with]
  cases hout : headerOutcome lib data 1 size info with
  | some outcome =>
    rw [deserializeWith_refused hparse' (hheader.trans hout), deserializeWith_refused hfresh hout,
      hres.refused]
    refine (harmless_refused fun size' info'' hparsed => ?_).symm
    obtain ⟨rfl, rfl⟩ := Prod.mk.inj (Except.ok.inj (hparse.symm.trans hparsed.1.parse))
    exact headerOutcome_some hout hparsed
  | none =>
    obtain ⟨hpos, hle, hfew, hcrc⟩ := headerOutcome_none hout
    have h : Parsed data size info := ⟨hparse, hpos, hle⟩
    obtain rfl := hagain hpos
    rw [deserializeWith_continued hparse' (hheader.trans hout),
      deserializeWith_continued hfresh hout, hres.start]
    by_cases hsame : withRoots residue.hadRoots info = info
    · rw [hsame]
      exact reuse_kept hres h hfew hcrc hsame
    · obtain ⟨hhad, hnone⟩ := stray_of_ne hsame
      have hmagic : info.magic ≠ bocGeneric := by
        intro hgeneric
        rw [(Parsed.sections h).hasRoots hgeneric] at hnone
        cases hnone
      have hindex : info.hasIndex = true := by
        by_contra hno
        exact hmagic ((Parsed.sections h).generic (Bool.eq_false_of_not_eq_true hno))
      have hone := (Parsed.sections h).single hmagic
      have hcache := (Parsed.sections h).noCache hmagic
      have haccept : Accepted lib data 1 info := ⟨hfew, hcrc, (readRoots_zero h hnone hone hcache).1⟩
      rw [hhad]
      exact reuse_stray hhad h haccept hnone hcache hindex hone hres

end twice

section residue
variable {lib : CellLib} {data : Slice} {size : Int} {info : Info}
variable {bag : MyBagOfCells} {residue : Residue}

theorem headerOutcome_accepted (h : Parsed data size info) (haccept : Accepted lib data 1 info) :
    headerOutcome lib data 1 size info = none := by
  cases hout : headerOutcome lib data 1 size info with
  | none => rfl
  | some outcome => exact absurd ⟨h, haccept⟩ (headerOutcome_some hout)

theorem deserialize_continued (h : Parsed data size info)
    (hout : headerOutcome lib data 1 size info = none) :
    deserialize lib data 1 .fresh =
      (readRoots info data >>= fun cache => deserializeCells lib info data size cache)
        { MyBagOfCells.fresh with info, cellCount := info.cellCount } := by
  have hfresh : MyBagOfCells.fresh.info.parseSerializedHeader data = .ok (size, info) := h.parse
  rw [deserialize_eq_with, deserializeWith_continued hfresh hout]
  rfl

theorem readRoots_accepted (h : Parsed data size info) (haccept : Accepted lib data 1 info) :
    ∃ cache, readRoots info data { MyBagOfCells.fresh with info, cellCount := info.cellCount } =
      (.ok cache, bagWithRoots data info) := by
  have hends := readRoots_ends h { MyBagOfCells.fresh with info, cellCount := info.cellCount }
  cases hrun : readRoots info data { MyBagOfCells.fresh with info, cellCount := info.cellCount } with
  | mk outcome x =>
    cases outcome with
    | error stop =>
      exact absurd haccept.roots (hends.of_error (congrArg Prod.fst hrun)).2
    | ok cache =>
      obtain ⟨-, hleft, -⟩ := hends.of_ok (congrArg Prod.fst hrun)
      rw [hrun] at hleft
      exact ⟨cache, congrArg _ hleft⟩

theorem buildIndex_frame (h : Parsed data size info) (start : MyBagOfCells) :
    ∃ indexPtr index, (buildIndex info data start).2 =
        { start with indexPtr, customIndex := index } ∧
      index = if info.hasIndex then start.customIndex else start.customIndex ++
        walkEnds info.refByteSize (info.cellsOf data) info.cellCount.toNat 0 := by
  cases hindex : info.hasIndex with
  | true =>
    rw [buildIndex_section h hindex]
    exact ⟨_, _, rfl, rfl⟩
  | false =>
    have hwalk := @buildIndex_walk _ _ _ start h hindex
    exact ⟨none, _, (hwalk.mono (fun _ _ => And.right) fun _ _ => And.right).always, rfl⟩

theorem HasResidue.of_refused (h : Info.fresh.parseSerializedHeader data = .ok (size, info))
    (hrefused : ¬ (Parsed data size info ∧ Accepted lib data 1 info)) :
    HasResidue (deserialize lib data 1 .fresh).2 ⟨info.hasRoots, [], 0⟩ := by
  have hfresh : MyBagOfCells.fresh.info.parseSerializedHeader data = .ok (size, info) := h
  cases hout : headerOutcome lib data 1 size info with
  | some outcome =>
    rw [deserialize_eq_with, deserializeWith_refused hfresh hout]
    exact ⟨rfl, rfl, rfl, rfl, rfl⟩
  | none =>
    obtain ⟨hpos, hle, hfew, hcrc⟩ := headerOutcome_none hout
    have hparsed : Parsed data size info := ⟨h, hpos, hle⟩
    have hends := readRoots_ends hparsed
      { MyBagOfCells.fresh with info, cellCount := info.cellCount }
    have hframe := @readRoots_frame data info
      { MyBagOfCells.fresh with info, cellCount := info.cellCount }
    rw [deserialize_continued hparsed hout]
    cases hrun : readRoots info data
        { MyBagOfCells.fresh with info, cellCount := info.cellCount } with
    | mk outcome x =>
      cases outcome with
      | ok cache =>
        obtain ⟨hrange, -⟩ := hends.of_ok (congrArg Prod.fst hrun)
        exact absurd ⟨hparsed, hfew, hcrc, hrange⟩ hrefused
      | error stop =>
        have hleft := hframe.of_error (congrArg Prod.fst hrun)
        rw [hrun] at hleft
        dsimp only at hleft
        rw [run_bind_error hrun, hleft]
        exact ⟨rfl, rfl, rfl, rfl, rfl⟩

/-- When the cells are all created, every member of the residue is set. -/
theorem finishCells_residue (vars : RebuildVars) (roots : List RootInfo)
    (hres : HasResidue bag residue) :
    HasResidue (finishCells info size roots (.ok vars) bag).2
      { residue with index := [], dangleCount := info.absentCount } := by
  have hends : EndsAt (finishCells info size roots (.ok vars)) bag
      (fun _ out => HasResidue out { residue with index := [], dangleCount := info.absentCount })
      (fun _ out =>
        HasResidue out { residue with index := [], dangleCount := info.absentCount }) := by
    rw [finishCells, endsAt_liftExec_ok_bind, endsAt_modify_bind, endsAt_bind, endsAt_liftExec]
    exact (ends_true _).mono
      (fun _ _ => ⟨hres.hadRoots, rfl, rfl, hres.intHashes, hres.topHashes⟩)
      fun _ _ => ⟨hres.hadRoots, rfl, rfl, hres.intHashes, hres.topHashes⟩
  exact hends.always

theorem buildIndex_residue (h : Parsed data size info) :
    HasResidue (buildIndex info data (bagWithRoots data info)).2 ⟨info.hasRoots,
      if info.hasIndex then []
      else walkEnds info.refByteSize (info.cellsOf data) info.cellCount.toNat 0, 0⟩ := by
  obtain ⟨indexPtr, index, hframe, hindex⟩ := buildIndex_frame h (bagWithRoots data info)
  rw [hframe, hindex]
  exact ⟨rfl, rfl, rfl, rfl, rfl⟩

theorem Leaves.hasResidue (h : Leaves lib data residue) :
    HasResidue (deserialize lib data 1 .fresh).2 residue := by
  cases h with
  | refused parse refused => exact HasResidue.of_refused parse refused
  | rebuilt parsed accepted rebuilds =>
    rename_i info
    obtain ⟨cache, hroots⟩ := readRoots_accepted parsed accepted
    obtain ⟨bag, hbuild⟩ := exists_built parsed rebuilds.walks
    obtain ⟨vars, hvars⟩ := (rebuilds_iff parsed hroots hbuild).mp rebuilds
    have hleft := buildIndex_residue parsed
    rw [hbuild] at hleft
    rw [deserialize_continued parsed (headerOutcome_accepted parsed accepted), run_bind_ok hroots,
      deserializeCells_finish hbuild, hvars]
    exact finishCells_residue vars bag.roots hleft
  | failed parsed accepted fails =>
    rename_i info
    obtain ⟨cache, hroots⟩ := readRoots_accepted parsed accepted
    have hleft := buildIndex_residue parsed
    rw [deserialize_continued parsed (headerOutcome_accepted parsed accepted), run_bind_ok hroots]
    cases hbuild : buildIndex info data (bagWithRoots data info) with
    | mk outcome bag =>
      rw [hbuild] at hleft
      cases outcome with
      | error stop =>
        rw [deserializeCells_unindexed hbuild]
        exact hleft
      | ok value =>
        have hnot := (not_congr (rebuilds_iff parsed hroots hbuild)).mp fails
        rw [deserializeCells_finish hbuild]
        cases hrebuilt : rebuildCells lib bag data cache with
        | ok vars => exact absurd ⟨vars, hrebuilt⟩ hnot
        | error stop => exact hleft

theorem exists_leaves (lib : CellLib) (data : Slice) : ∃ residue, Leaves lib data residue := by
  obtain ⟨⟨size, info⟩, hparse, -⟩ := returns_iff.mp
    ((parseSerializedHeader_ends Info.fresh data).mono (fun _ _ => trivial) fun _ => id)
  by_cases hgood : Parsed data size info ∧ Accepted lib data 1 info
  · obtain ⟨hparsed, haccept⟩ := hgood
    by_cases hrebuilds : Rebuilds lib data info
    · exact ⟨_, .rebuilt hparsed haccept hrebuilds⟩
    · exact ⟨_, .failed hparsed haccept hrebuilds⟩
  · exact ⟨_, .refused hparse hgood⟩

end residue

/-- The second call gives what it gives on a fresh object on exactly those inputs to
which nothing that the first leaves behind is of harm. -/
theorem sameOnReuse_iff (lib : CellLib) (d1 d2 : Slice) :
    SameOnReuse lib d1 d2 ↔ (Ends (deserialize lib d1 1 .fresh).1 (fun _ => True) IsStatus →
      ∀ residue, Leaves lib d1 residue → Harmless lib residue d2) := by
  constructor
  · intro hsame hends residue hleaves
    exact (seen_again_iff lib hleaves.hasResidue d2).mp (hsame hends)
  · intro hharmless hends
    obtain ⟨residue, hleaves⟩ := exists_leaves lib d1
    exact (seen_again_iff lib hleaves.hasResidue d2).mpr (hharmless hends residue hleaves)

/-- A bag of one cell whose only data byte has no completion tag. -/
def overlongBag : Slice :=
  Slice.ofBytes [0xb5, 0xee, 0x9c, 0x72, 1, 1, 1, 1, 0, 3, 0, 0, 1, 0]

def emptyCellBag : Slice :=
  Slice.ofBytes [0xb5, 0xee, 0x9c, 0x72, 1, 1, 1, 1, 0, 2, 0, 0, 0]

def returnsError : BocExec Int → Bool
  | .error (.status _) => true
  | _ => false

theorem isStatus_of_returnsError {run : BocExec Int} (h : returnsError run = true) :
    Ends run (fun _ => True) IsStatus := by
  unfold returnsError at h
  split at h
  · exact ⟨_, rfl⟩
  · cases h

theorem SameOnReuse.result {lib : CellLib} {d1 d2 : Slice} (h : SameOnReuse lib d1 d2)
    (hends : Ends (deserialize lib d1 1 .fresh).1 (fun _ => True) IsStatus) :
    (deserialize lib d2 1 (deserialize lib d1 1 .fresh).2).1 = (deserialize lib d2 1 .fresh).1 :=
  congrArg Seen.result (h hends)

theorem not_sameOnReuse {lib : CellLib} {d1 d2 : Slice} {outcome outcome' : BocExec Int}
    (hfirst : returnsError (deserialize lib d1 1 .fresh).1 = true)
    (hfresh : (deserialize lib d2 1 .fresh).1 = outcome)
    (hagain : (deserialize lib d2 1 (deserialize lib d1 1 .fresh).2).1 = outcome')
    (hne : outcome' ≠ outcome) : ¬ SameOnReuse lib d1 d2 := by
  intro hsame
  have hresult := hsame.result (isStatus_of_returnsError hfirst)
  rw [hagain, hfresh] at hresult
  exact hne hresult

/-- The index of the bag that failed is still there, and the next bag is cut up by it. -/
theorem overlongBag_leavesIndex :
    returnsError (deserialize packingLib overlongBag 1 .fresh).1 = true ∧
    (deserialize packingLib emptyCellBag 1 .fresh).1 = .ok 13 ∧
    (deserialize packingLib emptyCellBag 1 (deserialize packingLib overlongBag 1 .fresh).2).1 =
      .error .abort ∧
    ¬ SameOnReuse packingLib overlongBag emptyCellBag := by
  have hfirst : returnsError (deserialize packingLib overlongBag 1 .fresh).1 = true := by
    decide +kernel
  have hfresh : (deserialize packingLib emptyCellBag 1 .fresh).1 = .ok 13 := by decide +kernel
  have hagain : (deserialize packingLib emptyCellBag 1
      (deserialize packingLib overlongBag 1 .fresh).2).1 = .error .abort := by decide +kernel
  exact ⟨hfirst, hfresh, hagain, not_sameOnReuse hfirst hfresh hagain (by decide)⟩

end TonCompress.Whole
