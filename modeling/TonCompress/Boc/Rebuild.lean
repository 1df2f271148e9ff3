import TonCompress.Boc.Reader

/-! The rebuilding of the cells in topological order, and the roots it gives. -/
namespace TonCompress.Boc
open TonCompress.Lib MyBagOfCells

variable {n : Nat}

/-- `cell` is what the record of cell `idx` rebuilds to, all cells below it
being rebuilt from their own records. `create idx` builds cell `idx` from its
references. -/
inductive Rebuilt (refs : Fin n → List (Fin n))
    (create : Fin n → List DataCell → BocExec DataCell) : Fin n → DataCell → Prop where
  | intro {idx : Fin n} {cells : List DataCell} {cell : DataCell}
      (length_eq : cells.length = (refs idx).length)
      (below : ∀ (k : Nat) x c, (refs idx)[k]? = some x → cells[k]? = some c →
        Rebuilt refs create x c)
      (created : create idx cells = .ok cell) : Rebuilt refs create idx cell

theorem Rebuilt.not_reachesCycle {refs : Fin n → List (Fin n)}
    {create : Fin n → List DataCell → BocExec DataCell} {idx : Fin n} {cell : DataCell}
    (h : Rebuilt refs create idx cell) : ¬ ReachesCycle refs idx := by
  apply not_reachesCycle_of_acc
  induction h with
  | @intro idx cells cell length_eq _ _ ih =>
    constructor
    intro x hx
    obtain ⟨k, hk, rfl⟩ := List.getElem_of_mem hx
    exact ih k _ cells[k] (List.getElem?_eq_getElem hk)
      (List.getElem?_eq_getElem (by omega))

theorem Rebuilt.unique {refs : Fin n → List (Fin n)}
    {create : Fin n → List DataCell → BocExec DataCell} {idx : Fin n} {cell cell' : DataCell}
    (h : Rebuilt refs create idx cell) (h' : Rebuilt refs create idx cell') : cell = cell' := by
  induction h generalizing cell' with
  | @intro idx cells cell length_eq below created ih =>
    obtain ⟨length_eq', below', created'⟩ := h'
    rename_i cells'
    obtain rfl : cells = cells' := by
      apply List.ext_getElem (by omega)
      intro k hk hk'
      have href : (refs idx)[k]? = some (refs idx)[k] := List.getElem?_eq_getElem (by omega)
      exact ih k _ _ href (List.getElem?_eq_getElem hk)
        (below' k _ _ href (List.getElem?_eq_getElem hk'))
    exact Except.ok.inj (created.symm.trans created')

def RecordGraph (refByteSize : Nat) (records : List Record) (refs : Fin n → List (Fin n)) : Prop :=
  ∀ idx : Fin n, ∃ record, records[idx.val]? = some record ∧
    recordRefs refByteSize record = cellNumbers (refs idx)

/-- `create_data_cell` for the record at `idx`, whose data starts where the data
of the records before it ends. -/
def createFrom (lib : CellLib) (records : List Record) (dataSlice : Slice) (idx : Fin n)
    (refs : List DataCell) : BocExec DataCell :=
  match records[idx.val]? with
  | some (cellSlice, cellInfo) =>
      cellInfo.createDataCell lib cellSlice dataSlice
        (recordsDataLength (records.take idx.val)) refs
  | none => .error .outOfFuel

section intervals
variable {bag : MyBagOfCells} {cells : Slice} {records : List Record}

theorem Indexed.intervals (h : Indexed bag cells n records) (hn : bag.info.cellCount.toNat = n) :
    bag.cellDataIntervals (cells.take (recordsLength records)) =
      .ok ((List.range n).map fun i =>
        (recordsDataLength (records.take i), recordsDataLength (records.take (i + 1)))) := by
  have hwalk := scanRecords_walked h.scan
  have hlength := hwalk.length_eq
  let upTo : Nat → List (Nat × Nat) × Nat := fun i => ((List.range i).map fun j =>
    (recordsDataLength (records.take j), recordsDataLength (records.take (j + 1))),
    recordsDataLength (records.take i))
  have hloop : Returns (forRange 0 n ([], 0) (bag.addInterval (cells.take (recordsLength records))))
      fun state => state = upTo n := by
    apply forRange_ends (fun i state => state = upTo i) (Nat.zero_le n) rfl
    rintro i _ - hi rfl
    have hi' : i < records.length := by omega
    obtain ⟨hinit, -⟩ := hwalk.record i hi'
    have hend := (init_ok hinit).2.1
    have hsucc := recordsLength_take_succ hi'
    have hle := recordsLength_take_le records (i + 1)
    have hlen := hwalk.length_le
    have hstart : bag.recordStart i = .ok (recordsLength (records.take i)) := by
      unfold recordStart
      split
      · rename_i hzero
        rw [hzero]
        rfl
      · rw [h.customIndex]
        apply vecGet_of_eq
        rw [recordEnds_getElem? (by omega)]
        congr 3
        omega
    have hdata := (init_take hinit (show records[i].2.endOffset ≤
      recordsLength records - recordsLength (records.take i) by omega)).2
    simp only [upTo, addInterval]
    rw [hstart]
    simp only [bind, Except.bind]
    rw [Slice.substr_ok (by simp only [Slice.take_len, Slice.drop_len] at *; omega)]
    simp only [Slice.take_drop, hdata, ends_pure]
    rw [List.range_succ, List.map_append, List.map_singleton, recordsDataLength_take_succ hi']
  obtain ⟨_, hrun, rfl⟩ := returns_iff.mp hloop
  rw [cellDataIntervals, hn, hrun]
  rfl

end intervals

section loop
variable {lib : CellLib} {bag : MyBagOfCells} {cells dataSlice : Slice} {records : List Record}
variable {refs : Fin n → List (Fin n)} {create : Fin n → List DataCell → BocExec DataCell}

/-- The variables of the rebuilding loop once the cells `order` are rebuilt. -/
structure RebuildInv (refs : Fin n → List (Fin n))
    (create : Fin n → List DataCell → BocExec DataCell) (order : List (Fin n))
    (vars : RebuildVars) : Prop where
  length_eq : vars.cellList.length = order.length
  idxMap : vars.idxMap = List.ofFn fun x => if x ∈ order then (order.idxOf x : Int) else -1
  rebuilt : ∀ (k : Nat) x c, order[k]? = some x → vars.cellList[k]? = some c → Rebuilt refs create x c

theorem RebuildInv.lookup {order : List (Fin n)} {vars : RebuildVars}
    (h : RebuildInv refs create order vars) {x : Fin n} (hx : x ∈ order) :
    ∃ (k : Nat) (cell : DataCell), vecGet BocSite.idxMap vars.idxMap x.val = .ok (k : Int) ∧
      vars.cellList[k]? = some cell ∧ Rebuilt refs create x cell := by
  have hlt := List.idxOf_lt_length_of_mem hx
  have hcell : order.idxOf x < vars.cellList.length := by
    rw [h.length_eq]
    exact hlt
  refine ⟨order.idxOf x, vars.cellList[order.idxOf x], ?_, List.getElem?_eq_getElem hcell, ?_⟩
  · rw [h.idxMap, vecGet_ofFn, if_pos hx]
  · apply h.rebuilt (order.idxOf x)
    · rw [List.getElem?_eq_getElem hlt, List.getElem_idxOf hlt]
    · exact List.getElem?_eq_getElem hcell

theorem collectRefs_rebuilt (hcount : bag.cellCount = n) {order : List (Fin n)}
    {vars : RebuildVars} (hinv : RebuildInv refs create order vars) {idx : Fin n}
    {cellSlice : Slice} {cellInfo : CellSerializationInfo}
    (hcnt : cellInfo.refsCnt = (refs idx).length)
    (hread : ∀ (k : Nat) (hk : k < (refs idx).length),
      bag.readRefIdx cellSlice cellInfo k = .ok ((refs idx)[k].val : Int))
    (hbefore : ∀ y ∈ refs idx, y ∈ order) {uses : List Int}
    (hcache : bag.info.hasCacheBits = true → vars.cellShouldCache = cacheCounts n uses) :
    Returns (bag.collectRefs vars.idxMap idx.val cellSlice cellInfo vars.cellList
        vars.cellShouldCache) fun out =>
      out.1.length = (refs idx).length ∧
      (∀ (k : Nat) x c, (refs idx)[k]? = some x → out.1[k]? = some c → Rebuilt refs create x c) ∧
      (bag.info.hasCacheBits = true → out.2 = cacheCounts n (uses ++ cellNumbers (refs idx))) := by
  rw [collectRefs, hcnt]
  refine Ends.mono (forRange_ends (fun i (state : List DataCell × List Nat) =>
    state.1.length = i ∧ (∀ (k : Nat) x c, (refs idx)[k]? = some x → state.1[k]? = some c →
      Rebuilt refs create x c) ∧ (bag.info.hasCacheBits = true →
        state.2 = cacheCounts n (uses ++ cellNumbers ((refs idx).take i))))
    (Nat.zero_le _) ⟨rfl, by simp, by simpa [cellNumbers] using hcache⟩ ?_) ?_ fun _ => id
  · rintro i ⟨found, cache⟩ - hi ⟨hlen, hfound, hcounted⟩
    dsimp only at hlen hfound hcounted
    obtain ⟨k, cell, hmap, hcell, hrebuilt⟩ := hinv.lookup (hbefore _ (List.getElem_mem hi))
    have hspan : vecGet BocSite.cellsSpan vars.cellList (k : Int) = .ok cell :=
      vecGet_of_eq _ _ _ _ hcell
    have hlt := ((refs idx)[i]).isLt
    have hlen' : (found ++ [cell]).length = i + 1 := by simpa using hlen
    have hfound' : ∀ (k : Nat) x c, (refs idx)[k]? = some x → (found ++ [cell])[k]? = some c →
        Rebuilt refs create x c := by
      intro j x c hx hc
      rcases Nat.lt_or_ge j i with hji | hji
      · apply hfound j x c hx
        rwa [List.getElem?_append_left (by omega)] at hc
      · obtain rfl : j = i := by
          have hbound := (List.getElem?_eq_some_iff.mp hc).1
          omega
        rw [List.getElem?_eq_getElem hi] at hx
        rw [List.getElem?_append_right (by omega), hlen, Nat.sub_self] at hc
        obtain rfl := Option.some.inj hx
        obtain rfl : cell = c := by simpa using hc
        exact hrebuilt
    dsimp only
    rw [hread i hi, ok_bind, hmap, ok_bind, if_neg (by omega), if_neg (by omega), hspan, ok_bind]
    cases hbits : bag.info.hasCacheBits with
    | false => exact ⟨hlen', hfound', fun h => by cases h⟩
    | true =>
      have hbump : bumpCache cache ((refs idx)[i].val : Int) =
          .ok (cacheCounts n (uses ++ cellNumbers ((refs idx).take (i + 1)))) := by
        rw [hcounted hbits, bumpCache_counts _ (by omega), List.take_succ_eq_append_getElem hi,
          cellNumbers_append, List.append_assoc]
        rfl
      rw [if_pos rfl, hbump, ends_ok_bind]
      exact ⟨hlen', hfound', fun _ => rfl⟩
  · rintro out ⟨hlen, hfound, hcounted⟩
    rw [List.take_length] at hcounted
    exact ⟨hlen, hfound, hcounted⟩

theorem collectRefs_ends (h : Indexed bag cells n records) (hrbs : bag.info.refByteSize ≤ 4)
    (hcount : bag.cellCount = n) {order : List (Fin n)} {vars : RebuildVars}
    (hinv : RebuildInv refs create order vars) {idx : Fin n} {record : Record}
    (hrecord : records[idx.val]? = some record)
    (hgraph : recordRefs bag.info.refByteSize record = cellNumbers (refs idx))
    (hbefore : ∀ y ∈ refs idx, y ∈ order) :
    Returns (bag.collectRefs vars.idxMap idx.val record.1 record.2 vars.cellList
        vars.cellShouldCache) fun out =>
      out.1.length = (refs idx).length ∧
      ∀ (k : Nat) x c, (refs idx)[k]? = some x → out.1[k]? = some c → Rebuilt refs create x c := by
  have hidx : idx.val < records.length := (List.getElem?_eq_some_iff.mp hrecord).1
  have hsame : records[idx.val] = record := (List.getElem?_eq_some_iff.mp hrecord).2
  have hcnt : record.2.refsCnt = (refs idx).length := by
    have hlengths := congrArg List.length hgraph
    simpa [recordRefs] using hlengths
  have hread (k : Nat) (hk : k < (refs idx).length) :
      bag.readRefIdx record.1 record.2 k = .ok ((refs idx)[k].val : Int) := by
    have href := h.readRefIdx hidx hrbs
      (show k < _ by rw [hsame, hgraph]; simpa using hk)
    simp only [hsame, hgraph] at href
    simpa [cellNumbers] using href
  refine (@collectRefs_rebuilt _ _ _ _ hcount _ _ hinv _ _ _ hcnt hread hbefore [] fun hbits => ?_).mono
    (fun _ hout => ⟨hout.1, hout.2.1⟩) fun _ => id
  rw [h.hasCacheBits] at hbits
  cases hbits

/-- How the loop stops: at the first cell, in topological order, whose record
`create` does not accept. -/
def FirstRefused (refs : Fin n → List (Fin n))
    (create : Fin n → List DataCell → BocExec DataCell) (order : List (Fin n))
    (stop : Stop BocSite) : Prop :=
  ∃ pre idx post, order = pre ++ idx :: post ∧ (∀ x ∈ pre, ∃ cell, Rebuilt refs create x cell) ∧
    ∃ below : List DataCell, below.length = (refs idx).length ∧
      (∀ (k : Nat) x c, (refs idx)[k]? = some x → below[k]? = some c →
        Rebuilt refs create x c) ∧
      ∃ reason, create idx below = .error reason ∧
        stop = Stop.within
          s!"invalid bag-of-cells failed to deserialize cell #{(idx.val : Int)} " reason

theorem not_rebuilt_of_error {idx : Fin n} {below : List DataCell}
    (hlength : below.length = (refs idx).length)
    (hbelow : ∀ (k : Nat) x c, (refs idx)[k]? = some x → below[k]? = some c →
      Rebuilt refs create x c) {reason : Stop BocSite} (herror : create idx below = .error reason) :
    ¬ ∃ cell, Rebuilt refs create idx cell := by
  rintro ⟨cell, ⟨length_eq, below', created⟩⟩
  rename_i below''
  obtain rfl : below = below'' := by
    apply List.ext_getElem (by omega)
    intro k hk hk'
    have href : (refs idx)[k]? = some (refs idx)[k] := List.getElem?_eq_getElem (by omega)
    exact (hbelow k _ _ href (List.getElem?_eq_getElem hk)).unique
      (below' k _ _ href (List.getElem?_eq_getElem hk'))
  rw [herror] at created
  cases created

theorem FirstRefused.not_rebuilt {order : List (Fin n)} {stop : Stop BocSite}
    (h : FirstRefused refs create order stop) :
    ∃ x ∈ order, ¬ ∃ cell, Rebuilt refs create x cell := by
  obtain ⟨pre, idx, post, rfl, -, below, hlength, hbelow, reason, herror, -⟩ := h
  exact ⟨idx, by simp, not_rebuilt_of_error hlength hbelow herror⟩

/-- Of two elements without a property, neither can stand before the other when
all elements before them have it. -/
theorem eq_of_first {α : Type} {p : α → Prop} {pre pre' post post' : List α} {x x' : α}
    (hsplit : pre ++ x :: post = pre' ++ x' :: post') (hpre : ∀ y ∈ pre, p y)
    (hpre' : ∀ y ∈ pre', p y) (hx : ¬ p x) (hx' : ¬ p x') : x = x' := by
  rcases List.append_eq_append_iff.mp hsplit with ⟨mid, rfl, hmid⟩ | ⟨mid, rfl, hmid⟩
  · cases mid with
    | nil => simpa using (List.cons.inj hmid).1
    | cons y mid =>
      obtain ⟨rfl, -⟩ := List.cons.inj hmid
      exact absurd (hpre' x (by simp)) hx
  · cases mid with
    | nil => simpa using (List.cons.inj hmid).1.symm
    | cons y mid =>
      obtain ⟨rfl, -⟩ := List.cons.inj hmid
      exact absurd (hpre x' (by simp)) hx'

theorem FirstRefused.unique {order : List (Fin n)} {stop stop' : Stop BocSite}
    (h : FirstRefused refs create order stop) (h' : FirstRefused refs create order stop') :
    stop = stop' := by
  obtain ⟨pre, idx, post, rfl, hpre, below, hlength, hbelow, reason, herror, rfl⟩ := h
  obtain ⟨pre', idx', post', hsplit, hpre', below', hlength', hbelow', reason', herror', rfl⟩ := h'
  have hidx := not_rebuilt_of_error hlength hbelow herror
  have hidx' := not_rebuilt_of_error hlength' hbelow' herror'
  obtain rfl := eq_of_first hsplit hpre hpre' hidx hidx'
  obtain rfl : below = below' := by
    apply List.ext_getElem (by omega)
    intro k hk hk'
    have href : (refs idx)[k]? = some (refs idx)[k] := List.getElem?_eq_getElem (by omega)
    exact (hbelow k _ _ href (List.getElem?_eq_getElem hk)).unique
      (hbelow' k _ _ href (List.getElem?_eq_getElem hk'))
  rw [herror] at herror'
  rw [Except.error.inj herror']

theorem RebuildInv.exists_rebuilt {order : List (Fin n)} {vars : RebuildVars}
    (h : RebuildInv refs create order vars) :
    ∀ x ∈ order, ∃ cell, Rebuilt refs create x cell := by
  intro x hx
  obtain ⟨-, cell, -, -, hrebuilt⟩ := h.lookup hx
  exact ⟨cell, hrebuilt⟩

theorem RebuildInv.snoc {order : List (Fin n)} {vars : RebuildVars}
    (h : RebuildInv refs create order vars) {idx : Fin n} (hidx : idx ∉ order) {cell : DataCell}
    (hcell : Rebuilt refs create idx cell) (cache : List Nat) :
    Returns (vecSet BocSite.idxMap vars.idxMap idx.val vars.cellList.length) fun idxMap =>
      RebuildInv refs create (order ++ [idx]) ⟨idxMap, vars.cellList ++ [cell], cache⟩ := by
  rw [h.idxMap, vecSet_ofFn]
  refine ⟨by simp [h.length_eq], ?_, ?_⟩
  · dsimp only
    congr 1
    funext x
    by_cases hx : x = idx
    · subst hx
      rw [Function.update_self, if_pos (by simp), List.idxOf_append_of_notMem hidx]
      simp [h.length_eq]
    · rw [Function.update_of_ne hx]
      by_cases hmem : x ∈ order
      · rw [if_pos hmem, if_pos (by simp [hmem]), List.idxOf_append_of_mem hmem]
      · rw [if_neg hmem, if_neg (by simp [hmem, hx])]
  · intro k x c hx hc
    dsimp only at hc
    rcases Nat.lt_or_ge k order.length with hk | hk
    · rw [List.getElem?_append_left hk] at hx
      rw [List.getElem?_append_left (by rw [h.length_eq]; exact hk)] at hc
      exact h.rebuilt k x c hx hc
    · rw [List.getElem?_append_right hk] at hx
      rw [List.getElem?_append_right (by rw [h.length_eq]; exact hk), h.length_eq] at hc
      obtain ⟨hk', rfl⟩ := List.getElem?_eq_some_iff.mp hx
      obtain ⟨hk'', rfl⟩ := List.getElem?_eq_some_iff.mp hc
      simpa using hcell

theorem rebuildLoop_ends (h : Indexed bag cells n records) (hrbs : bag.info.refByteSize ≤ 4)
    (hcount : bag.cellCount = n) (hgraph : RecordGraph bag.info.refByteSize records refs)
    {order : List (Fin n)} (horder : TopologicalOrder refs order) :
    Ends (bag.rebuildLoop lib (cells.take (recordsLength records)) dataSlice
        ((List.range n).map fun i =>
          (recordsDataLength (records.take i), recordsDataLength (records.take (i + 1))))
        (cellNumbers order) ⟨List.replicate n (-1), [], []⟩)
      (RebuildInv refs (createFrom lib records dataSlice) order)
      (FirstRefused refs (createFrom lib records dataSlice) order) := by
  have hlength := (scanRecords_walked h.scan).length_eq
  rw [rebuildLoop]
  refine Ends.mono (forEach_ends (fun done rest vars => ∃ pre post, order = pre ++ post ∧
    done = cellNumbers pre ∧ rest = cellNumbers post ∧
    RebuildInv refs (createFrom lib records dataSlice) pre vars) [] ?_ ?_) ?_
    fun _ => id
  · refine ⟨[], order, rfl, rfl, rfl, rfl, ?_, by simp⟩
    simp
  · rintro done _ rest vars ⟨pre, post, hsplit, rfl, hrest, hinv⟩
    cases post with
    | nil => simp [cellNumbers] at hrest
    | cons idx post =>
      obtain ⟨rfl, rfl⟩ : _ = (idx.val : Int) ∧ rest = cellNumbers post := by
        simpa [cellNumbers] using hrest
      obtain ⟨record, hrecord, hrefs⟩ := hgraph idx
      have hidx : idx.val < records.length := (List.getElem?_eq_some_iff.mp hrecord).1
      have hsame : records[idx.val] = record := (List.getElem?_eq_some_iff.mp hrecord).2
      have hinterval : vecGet BocSite.cellDataInterval ((List.range n).map fun i =>
          (recordsDataLength (records.take i), recordsDataLength (records.take (i + 1))))
          (idx.val : Int) = .ok (recordsDataLength (records.take idx.val),
            recordsDataLength (records.take (idx.val + 1))) := by
        apply vecGet_of_eq
        simp
      have hread := h.readCellRecord hidx
      rw [hsame] at hread
      have hfresh : idx ∉ pre := by
        have hnodup := horder.nodup
        rw [hsplit, List.nodup_append] at hnodup
        intro hmem
        exact hnodup.2.2 idx hmem idx List.mem_cons_self rfl
      obtain ⟨⟨below, cache⟩, hcollect, hbelow, hrebuilt⟩ := returns_iff.mp
        (collectRefs_ends h hrbs hcount hinv hrecord hrefs
          (horder.refs_before pre idx post hsplit))
      have hcreate : createFrom lib records dataSlice idx below =
          record.2.createDataCell lib record.1 dataSlice
            (recordsDataLength (records.take idx.val)) below := by
        simp only [createFrom, hrecord]
      simp only [hinterval, bind, Except.bind, deserializeCell, hread, hcollect, ← hcreate]
      cases hcell : createFrom lib records dataSlice idx below with
      | error reason =>
        exact ⟨pre, idx, post, hsplit, hinv.exists_rebuilt, below, hbelow, hrebuilt, reason,
          hcell, rfl⟩
      | ok cell =>
        have hsnoc := hinv.snoc hfresh (Rebuilt.intro hbelow hrebuilt hcell) cache
        refine Ends.bind (hsnoc.mono (fun _ => id) fun _ => False.elim) fun idxMap hnext => ?_
        exact ⟨pre ++ [idx], post, by simp [hsplit], by simp [cellNumbers], rfl, hnext⟩
  · rintro vars ⟨pre, post, hsplit, -, hnil, hinv⟩
    obtain rfl : post = [] := by simpa [cellNumbers] using hnil.symm
    rw [List.append_nil] at hsplit
    exact hsplit ▸ hinv

theorem lookUpRoots_ends {order : List (Fin n)} {vars : RebuildVars}
    (h : RebuildInv refs create order vars) {roots : List RootInfo}
    (hroots : ∀ root ∈ roots, 0 ≤ root.idx ∧ root.idx < n) :
    Ends (lookUpRoots roots vars)
      (List.Forall₂ (fun (root root' : RootInfo) => ∃ (x : Fin n) (k : Nat) (cell : DataCell),
        root.idx = x.val ∧ x ∈ order ∧ vecGet BocSite.idxMap vars.idxMap x.val = .ok (k : Int) ∧
        vars.cellList[k]? = some cell ∧ root' = ⟨some cell, x.val⟩ ∧
        Rebuilt refs create x cell) roots)
      (fun stop => stop = .outOfRange .cellList ∧
        ∃ root ∈ roots, ∃ x : Fin n, root.idx = x.val ∧ x ∉ order) := by
  induction roots with
  | nil => exact List.Forall₂.nil
  | cons root roots ih =>
    have ih := ih fun root' hroot' => hroots root' (List.mem_cons_of_mem _ hroot')
    obtain ⟨hnonneg, hlt⟩ := hroots root List.mem_cons_self
    obtain ⟨x, hx⟩ : ∃ x : Fin n, root.idx = x.val := ⟨⟨root.idx.toNat, by omega⟩, by simp; omega⟩
    rw [lookUpRoots, List.mapM_cons]
    by_cases hmem : x ∈ order
    · obtain ⟨k, cell, hmap, hcell, hrebuilt⟩ := h.lookup hmem
      have hget : vecGet BocSite.cellList vars.cellList (k : Int) = .ok cell :=
        vecGet_of_eq _ _ _ _ hcell
      have hroot : lookUpRoot vars root = .ok ⟨some cell, x.val⟩ := by
        simp only [lookUpRoot, hx, hmap, hget, bind, Except.bind, pure, Except.pure]
      rw [hroot, ends_ok_bind]
      refine Ends.bind (ih.mono (fun _ => id) ?_) fun rest hrest => ?_
      · rintro _ ⟨rfl, root', hroot', hout⟩
        exact ⟨rfl, root', List.mem_cons_of_mem _ hroot', hout⟩
      · exact List.Forall₂.cons ⟨x, k, cell, hx, hmem, hmap, hcell, rfl, hrebuilt⟩ hrest
    · have hmap : vecGet BocSite.idxMap vars.idxMap (x.val : Int) = .ok (-1) := by
        rw [h.idxMap, vecGet_ofFn, if_neg hmem]
      have hget : vecGet BocSite.cellList vars.cellList (-1) = .error (.outOfRange .cellList) :=
        vecGet_error _ _ _ (by omega)
      have hroot : lookUpRoot vars root = .error (.outOfRange .cellList) := by
        simp only [lookUpRoot, hx, hmap, hget, bind, Except.bind]
      rw [hroot]
      exact ⟨rfl, root, List.mem_cons_self, x, hx, hmem⟩

end loop

end TonCompress.Boc
