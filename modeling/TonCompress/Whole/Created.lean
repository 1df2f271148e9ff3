import TonCompress.Whole.Rebuild
import TonCompress.Boc.Rebuild

/-! The cells that the reader creates, said of the records alone. -/
namespace TonCompress.Whole
open TonCompress.Lib TonCompress.Boc MyBagOfCells

/-- `create_data_cell` for the record between the ends of a cell. -/
def createFrom {n : Nat} (lib : CellLib) (refByteSize : Nat) (cells : Slice) (ends : Nat → Nat)
    (idx : Fin n) (refs : List DataCell) : BocExec DataCell := do
  let cellSlice := (cells.drop (startOf ends idx)).take (ends idx - startOf ends idx)
  let cellInfo ← CellSerializationInfo.init cellSlice refByteSize
  cellInfo.createDataCell lib cellSlice refs

section loop
variable {lib : CellLib} {bag : MyBagOfCells} {cells : Slice} {ends : Nat → Nat} {n : Nat}
variable {refs : Fin n → List (Fin n)} {create : Fin n → List DataCell → BocExec DataCell}

theorem Delimits.createFrom_eq {refByteSize : Nat} {idx : Fin n} {record : Record}
    (h : Delimits refByteSize cells ends idx.val record) (below : List DataCell) :
    createFrom lib refByteSize cells ends idx below =
      record.2.createDataCell lib record.1 below := by
  unfold createFrom
  rw [← h.slice]
  dsimp only
  rw [h.init, ok_bind]

theorem CellGraph.unique {refByteSize : Nat} {refs' : Fin n → List (Fin n)}
    (h : CellGraph refByteSize cells ends refs) (h' : CellGraph refByteSize cells ends refs') :
    refs = refs' := by
  funext idx
  obtain ⟨record, hrecord, hrefs⟩ := h idx
  obtain ⟨record', hrecord', hrefs'⟩ := h' idx
  obtain rfl := hrecord.unique hrecord'
  exact cellNumbers_injective (hrefs.symm.trans hrefs')

/-- The variables of the loop once the cells `order` are created, with `roots` the
indices that the cache counters started from. -/
structure CreatedInv (cacheBits : Bool) (roots : List Int) (refs : Fin n → List (Fin n))
    (create : Fin n → List DataCell → BocExec DataCell) (order : List (Fin n))
    (vars : RebuildVars) : Prop extends RebuildInv refs create order vars where
  counted : cacheBits = true →
    vars.cellShouldCache = cacheCounts n (roots ++ cellNumbers (order.flatMap refs))

theorem rebuildLoop_ends (hgraph : CellGraph bag.info.refByteSize cells ends refs)
    (hentries : HasEntries bag n ends) (hrbs : bag.info.refByteSize ≤ 4)
    (hcount : bag.cellCount = n) {order : List (Fin n)} (horder : TopologicalOrder refs order)
    {roots : List Int} {cache : List Nat}
    (hcache : bag.info.hasCacheBits = true → cache = cacheCounts n roots) :
    Ends (rebuildLoop lib bag cells (cellNumbers order) ⟨List.replicate n (-1), [], cache⟩)
      (CreatedInv bag.info.hasCacheBits roots refs
        (createFrom lib bag.info.refByteSize cells ends) order)
      (FirstRefused refs (createFrom lib bag.info.refByteSize cells ends) order) := by
  unfold rebuildLoop
  refine Ends.mono (forEach_ends (fun done rest vars => ∃ pre post, order = pre ++ post ∧
    done = cellNumbers pre ∧ rest = cellNumbers post ∧
    CreatedInv bag.info.hasCacheBits roots refs
      (createFrom lib bag.info.refByteSize cells ends) pre vars) [] ?_ ?_) ?_ fun _ => id
  · refine ⟨[], order, rfl, rfl, rfl, ⟨rfl, ?_, by simp⟩, ?_⟩
    · simp
    · simpa [cellNumbers] using hcache
  · rintro done _ rest vars ⟨pre, post, hsplit, rfl, hrest, hinv⟩
    cases post with
    | nil => simp [cellNumbers] at hrest
    | cons idx post =>
      obtain ⟨rfl, rfl⟩ : _ = (idx.val : Int) ∧ rest = cellNumbers post := by
        simpa [cellNumbers] using hrest
      obtain ⟨record, hread, hdelimits, hrefs⟩ := hgraph.read hentries idx
      have hfresh : idx ∉ pre := by
        have hnodup := horder.nodup
        rw [hsplit, List.nodup_append] at hnodup
        intro hmem
        exact hnodup.2.2 idx hmem idx List.mem_cons_self rfl
      have hcnt : record.2.toCellSerializationInfo.refsCnt = (refs idx).length := by
        rw [← cellNumbers_length, ← hrefs]
        simp [recordRefs, Boc.recordRefs]
      have href (k : Nat) (hk : k < (refs idx).length) :
          bag.readRefIdx record.1 record.2.toCellSerializationInfo k =
            .ok ((refs idx)[k].val : Int) := by
        have hget := @Delimits.readRefIdx _ _ _ _ _ hdelimits hrbs k
        simp only [hrefs] at hget
        simpa [cellNumbers] using hget (by simpa using hk)
      obtain ⟨⟨below, cache'⟩, hcollect, hlength, hrebuilt, hcounted⟩ := returns_iff.mp
        (collectRefs_rebuilt hcount hinv.toRebuildInv hcnt href
          (horder.refs_before pre idx post hsplit) hinv.counted)
      simp only [deserializeCell, hread, hcollect, bind, Except.bind, ← hdelimits.createFrom_eq]
      cases hcell : createFrom lib bag.info.refByteSize cells ends idx below with
      | error reason =>
        exact ⟨pre, idx, post, hsplit, hinv.exists_rebuilt, below, hlength, hrebuilt, reason,
          hcell, rfl⟩
      | ok cell =>
        have hsnoc := hinv.snoc hfresh (Rebuilt.intro hlength hrebuilt hcell) cache'
        refine Ends.bind (hsnoc.mono (fun _ => id) fun _ => False.elim) fun idxMap hnext => ?_
        refine ⟨pre ++ [idx], post, by simp [hsplit], by simp [cellNumbers], rfl, hnext, ?_⟩
        intro hbits
        dsimp only at hcounted ⊢
        rw [hcounted hbits, List.flatMap_append, cellNumbers_append, List.append_assoc,
          List.flatMap_singleton]
  · rintro vars ⟨pre, post, hsplit, -, hnil, hinv⟩
    obtain rfl : post = [] := by simpa [cellNumbers] using hnil.symm
    rw [List.append_nil] at hsplit
    exact hsplit ▸ hinv

theorem checkCacheFlags_ends (hcount : bag.cellCount.toNat = n) {flags : Nat → Bool}
    {uses : List Int} {cache : List Nat}
    (hflags : bag.info.hasCacheBits = true → ∀ i < n, bag.getCacheEntry i = .ok (flags i))
    (hcache : bag.info.hasCacheBits = true → cache = cacheCounts n uses) :
    Ends (bag.checkCacheFlags cache)
      (fun _ => bag.info.hasCacheBits = true →
        ∀ i < n, flags i = decide (1 < uses.count (i : Int)))
      (fun _ => ¬ (bag.info.hasCacheBits = true →
        ∀ i < n, flags i = decide (1 < uses.count (i : Int)))) := by
  unfold checkCacheFlags
  refine ends_ite.mpr ⟨fun hbits => ?_, fun hbits => fun hyes => absurd hyes hbits⟩
  obtain rfl := hcache hbits
  rw [hcount]
  refine (forRange_ends (fun i _ => ∀ j < i, flags j = decide (1 < uses.count (j : Int)))
    (Nat.zero_le n) (fun j hj => absurd hj (Nat.not_lt_zero j)) ?_).mono
    (fun _ hall _ => hall) fun _ => id
  rintro i - - hi hdone
  have hcounter : vecGet BocSite.cellShouldCache (cacheCounts n uses) (i : Int) =
      .ok (min 2 (uses.count (i : Int))) := vecGet_ofFn_of_lt _ _ hi
  have hmany : decide (min 2 (uses.count (i : Int)) > 1) = decide (1 < uses.count (i : Int)) :=
    decide_eq_decide.mpr (by omega)
  rw [hcounter, ends_ok_bind, hflags hbits i hi, ends_ok_bind, hmany]
  refine ends_ite.mpr ⟨fun hwrong hall => ?_, fun hright j hj => ?_⟩
  · exact hwrong (hall hbits i hi).symm
  · rcases Nat.lt_succ_iff_lt_or_eq.mp hj with hj | rfl
    · exact hdone j hj
    · exact (not_not.mp hright).symm

end loop

/-- The end of a record as a fresh object has it: from the index section, or from the walk
over the records. -/
def freshEnds (info : Info) (data : Slice) (k : Nat) : Nat :=
  if info.hasIndex then indexEntry info data k
  else (walkEnds info.refByteSize (info.cellsOf data) info.cellCount.toNat 0).getD k 0

def cacheFlag (info : Info) (data : Slice) (i : Nat) : Bool :=
  decide (beValue ((data.mem.drop (info.indexOffset + i * info.offsetByteSize)).take
    info.offsetByteSize) % 2 = 1)

/-- The records refer to the cells by `refs`, all cells that reach no cycle are created from
them, and the flags of the index say which of the cells are referred to twice. -/
structure CellsCreated (lib : CellLib) (data : Slice) (info : Info)
    (refs : Fin info.cellCount.toNat → List (Fin info.cellCount.toNat)) : Prop where
  graph : CellGraph info.refByteSize (info.cellsOf data) (freshEnds info data) refs
  rebuilt : ∀ x, ¬ ReachesCycle refs x → ∃ cell, Rebuilt refs
    (createFrom lib info.refByteSize (info.cellsOf data) (freshEnds info data)) x cell
  flags : info.hasCacheBits = true → ∀ created : List (Fin info.cellCount.toNat), created.Nodup →
    (∀ x, x ∈ created ↔ ¬ ReachesCycle refs x) → ∀ i < info.cellCount.toNat,
      cacheFlag info data i = decide
        (1 < (rootIndices data info ++ cellNumbers (created.flatMap refs)).count (i : Int))

section created
variable {lib : CellLib} {data : Slice} {size : Int} {info : Info} {bag : MyBagOfCells}

theorem count_created {n : Nat} {refs : Fin n → List (Fin n)} {order created : List (Fin n)}
    (horder : TopologicalOrder refs order) (hnodup : created.Nodup)
    (hmem : ∀ x, x ∈ created ↔ ¬ ReachesCycle refs x) (roots : List Int) (i : Int) :
    (roots ++ cellNumbers (created.flatMap refs)).count i =
      (roots ++ cellNumbers (order.flatMap refs)).count i := by
  have hperm : created.Perm order := by
    rw [List.perm_ext_iff_of_nodup hnodup horder.nodup]
    intro x
    rw [hmem, horder.mem_iff]
  rw [List.count_append, List.count_append]
  exact congrArg _ (((hperm.flatMap_right refs).map _).count_eq i)

/-- The rebuilding succeeds on exactly the records from which the cells are created. -/
theorem rebuildCells_ends (lib : CellLib) (h : Parsed data size info) (hinfo : bag.info = info)
    (hcount : bag.cellCount = info.cellCount)
    (hentries : HasEntries bag info.cellCount.toNat (freshEnds info data))
    (hflags : info.hasCacheBits = true →
      ∀ i < info.cellCount.toNat, bag.getCacheEntry i = .ok (cacheFlag info data i)) :
    Ends (rebuildCells lib bag data (rootsCache data info))
      (fun vars => ∃ refs order, CellsCreated lib data info refs ∧ TopologicalOrder refs order ∧
        RebuildInv refs (createFrom lib info.refByteSize (info.cellsOf data)
          (freshEnds info data)) order vars)
      (fun _ => ¬ ∃ refs, CellsCreated lib data info refs) := by
  have hend := h.dataEnd
  have hpos := h.headerOk.cellCount_pos
  have hrbs : bag.info.refByteSize ≤ 4 := hinfo ▸ h.headerOk.refByteSize_le
  have htopol := @getTopolOrder_ends bag (info.cellsOf data) _ _ hentries hrbs
  have hcells : data.substrUpTo info.dataOffset info.dataSize = .ok (info.cellsOf data) :=
    Slice.substrUpTo_ok (by omega) _
  unfold rebuildCells
  rw [hinfo, hcount, hcells, ends_ok_bind]
  cases hrun : getTopolOrder bag (info.cellsOf data) info.cellCount.toNat with
  | error stop =>
    obtain ⟨i, hstop⟩ := htopol.of_error hrun
    have hnone : ¬ ∃ refs, CellsCreated lib data info refs := by
      rintro ⟨refs, hcreated⟩
      obtain ⟨record, hrecord, hrefs⟩ := hcreated.graph ⟨i, hstop.lt⟩
      refine hstop.bad ⟨record, hinfo ▸ hrecord, ?_⟩
      rw [hinfo, hrefs]
      intro ref href
      obtain ⟨x, -, rfl⟩ := List.mem_map.mp href
      omega
    cases stop <;> exact hnone
  | ok topol =>
    obtain ⟨refs, order, hgraph, rfl, horder⟩ := htopol.of_ok hrun
    have hok : moveAsOk (.ok (cellNumbers order)) = .ok (cellNumbers order) := rfl
    have hcache : bag.info.hasCacheBits = true → rootsCache data info =
        cacheCounts info.cellCount.toNat (rootIndices data info) := by
      intro hbits
      exact if_pos (hinfo ▸ hbits)
    have hloop := @rebuildLoop_ends lib _ _ _ _ _ hgraph hentries hrbs (by omega) _ horder _ _
      hcache
    rw [hinfo] at hgraph hloop
    have hsame : ∀ refs', CellsCreated lib data info refs' → refs' = refs :=
      fun refs' hcreated => hcreated.graph.unique hgraph
    rw [hok, ends_ok_bind]
    cases hvars : rebuildLoop lib bag (info.cellsOf data) (cellNumbers order)
        ⟨List.replicate info.cellCount.toNat (-1), [], rootsCache data info⟩ with
    | error stop =>
      obtain ⟨x, hx, hnot⟩ := (hloop.of_error hvars).not_rebuilt
      rintro ⟨refs', hcreated⟩
      obtain rfl := hsame refs' hcreated
      exact hnot (hcreated.rebuilt x ((horder.mem_iff x).mp hx))
    | ok vars =>
      have hinv := hloop.of_ok hvars
      rw [ends_ok_bind]
      have hbits : bag.info.hasCacheBits = info.hasCacheBits := by rw [hinfo]
      have hchecked := checkCacheFlags_ends (congrArg Int.toNat hcount)
        (fun hyes => hflags (hbits ▸ hyes)) fun hyes => hinv.counted (hbits ▸ hyes)
      refine Ends.bind (hchecked.mono (fun _ => id) ?_) fun _ hright => ?_
      · rintro stop hwrong ⟨refs', hcreated⟩
        obtain rfl := hsame refs' hcreated
        rw [hinfo] at hwrong
        exact hwrong fun hbits => hcreated.flags hbits order horder.nodup horder.mem_iff
      · rw [hinfo] at hright
        refine ⟨refs, order, ⟨hgraph, fun x hx => ?_, ?_⟩, horder, hinv.toRebuildInv⟩
        · exact hinv.exists_rebuilt x ((horder.mem_iff x).mpr hx)
        · intro hbits created hnodup hmem i hi
          rw [count_created horder hnodup hmem]
          exact hright hbits i hi

theorem lookUpRoot_rebuilt {n : Nat} {refs : Fin n → List (Fin n)}
    {create : Fin n → List DataCell → BocExec DataCell} {order : List (Fin n)} {vars : RebuildVars}
    (horder : TopologicalOrder refs order) (hinv : RebuildInv refs create order vars) (x : Fin n) :
    (∃ cell, Rebuilt refs create x cell ∧
      (lookUpRoot vars ⟨none, x.val⟩).map (·.cell) = .ok (some cell)) ∨
    (¬ ∃ cell, Rebuilt refs create x cell) ∧
      (lookUpRoot vars ⟨none, x.val⟩).map (·.cell) = .error (.outOfRange .cellList) := by
  unfold lookUpRoot
  by_cases hx : x ∈ order
  · obtain ⟨k, cell, hmap, hcell, hrebuilt⟩ := hinv.lookup hx
    have hget : vecGet BocSite.cellList vars.cellList (k : Int) = .ok cell :=
      vecGet_of_eq _ _ _ _ hcell
    rw [hmap, ok_bind, hget]
    exact .inl ⟨cell, hrebuilt, rfl⟩
  · have hmap : vecGet BocSite.idxMap vars.idxMap (x.val : Int) = .ok (-1) := by
      rw [hinv.idxMap, vecGet_ofFn, if_neg hx]
    have hget : vecGet BocSite.cellList vars.cellList (-1) = .error (.outOfRange .cellList) :=
      vecGet_error _ _ _ (by omega)
    rw [hmap, ok_bind, hget]
    refine .inr ⟨?_, rfl⟩
    rintro ⟨cell, hrebuilt⟩
    exact hx ((horder.mem_iff x).mpr hrebuilt.not_reachesCycle)

theorem lookUpRoot_same_iff {n : Nat} {refs : Fin n → List (Fin n)}
    {create : Fin n → List DataCell → BocExec DataCell} {order : List (Fin n)} {vars : RebuildVars}
    (horder : TopologicalOrder refs order) (hinv : RebuildInv refs create order vars)
    (x y : Fin n) :
    (lookUpRoot vars ⟨none, x.val⟩).map (·.cell) = (lookUpRoot vars ⟨none, y.val⟩).map (·.cell) ↔
      ∀ cell, Rebuilt refs create x cell ↔ Rebuilt refs create y cell := by
  obtain ⟨cell, hx, hlook⟩ | ⟨hx, hlook⟩ := lookUpRoot_rebuilt horder hinv x <;>
    obtain ⟨cell', hy, hlook'⟩ | ⟨hy, hlook'⟩ := lookUpRoot_rebuilt horder hinv y <;>
    rw [hlook, hlook']
  · constructor
    · intro hsame found
      obtain rfl := Option.some.inj (Except.ok.inj hsame)
      exact ⟨fun h => h.unique hx ▸ hy, fun h => h.unique hy ▸ hx⟩
    · intro hsame
      rw [((hsame cell).mp hx).unique hy]
  · exact iff_of_false (fun h => by cases h) fun hsame => hy ⟨cell, (hsame cell).mp hx⟩
  · exact iff_of_false (fun h => by cases h) fun hsame => hx ⟨cell', (hsame cell').mpr hy⟩
  · exact iff_of_true rfl fun found => iff_of_false (fun h => hx ⟨found, h⟩) fun h => hy ⟨found, h⟩

end created

end TonCompress.Whole
