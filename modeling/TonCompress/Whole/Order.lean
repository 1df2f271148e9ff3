import TonCompress.Whole.Records

/-! `get_topol_order` on an index that nothing has checked. -/
namespace TonCompress.Whole
open TonCompress.Lib TonCompress.Boc MyBagOfCells

/-- The first cell that is not good is where the reverse graph stops: with a status
when it has no record, else at a reference to no cell. -/
structure StopsAt (refByteSize : Nat) (cells : Slice) (ends : Nat → Nat) (n : Nat)
    (stop : Stop BocSite) (i : Nat) : Prop where
  lt : i < n
  before : ∀ j < i, GoodCell refByteSize cells ends n j
  bad : ¬ GoodCell refByteSize cells ends n i
  status : (¬ ∃ record, Delimits refByteSize cells ends i record) →
    ∃ message, stop = .status message
  dangling : (∃ record, Delimits refByteSize cells ends i record) →
    stop = .outOfRange .revGraph

section graph
variable {bag : MyBagOfCells} {cells : Slice} {ends : Nat → Nat} {n : Nat}

theorem buildReverseGraph_stops (hentries : HasEntries bag n ends)
    (hrbs : bag.info.refByteSize ≤ 4) :
    Ends (buildReverseGraph bag cells n)
      (fun _ => ∀ i < n, GoodCell bag.info.refByteSize cells ends n i)
      (fun stop => ∃ i, StopsAt bag.info.refByteSize cells ends n stop i) := by
  unfold buildReverseGraph
  refine Ends.mono (forRange_ends (fun i (state : List (List Int) × List Int) =>
    state.1.length = n ∧ state.2.length = n ∧
    ∀ j < i, GoodCell bag.info.refByteSize cells ends n j) (Nat.zero_le n) ?_ ?_) ?_ fun _ => id
  · exact ⟨List.length_replicate, List.length_replicate, fun j hj => absurd hj (Nat.not_lt_zero j)⟩
  · rintro i ⟨revGraph, inDegree⟩ - hi ⟨hrev, hdeg, hgood⟩
    dsimp only at hrev hdeg ⊢
    have hread := @readCellRecord_ends _ cells _ _ _ hentries hi
    cases hrecord : readCellRecord bag i cells with
    | error stop =>
      obtain ⟨hstatus, hnone⟩ := hread.of_error hrecord
      refine ⟨i, hi, hgood, ?_, fun _ => hstatus, fun hsome => absurd hsome hnone⟩
      rintro ⟨record, hdelimits, -⟩
      exact hnone ⟨record, hdelimits⟩
    | ok record =>
      have hdelimits := hread.of_ok hrecord
      have hcnt : record.2.refsCnt =
          (recordRefs bag.info.refByteSize record).length := by
        simp [recordRefs, Boc.recordRefs]
      rw [ends_ok_bind]
      refine (addReferences_total hi hcnt (fun k => hdelimits.readRefIdx hrbs) hrev hdeg).mono ?_ ?_
      · rintro out ⟨hrev, hdeg, hrefs⟩
        refine ⟨hrev, hdeg, fun j hj => ?_⟩
        rcases Nat.lt_succ_iff_lt_or_eq.mp hj with hj | rfl
        · exact hgood j hj
        · exact ⟨record, hdelimits, hrefs⟩
      · rintro stop ⟨rfl, hrefs⟩
        refine ⟨i, hi, hgood, ?_, fun hnone => absurd ⟨record, hdelimits⟩ hnone, fun _ => rfl⟩
        rintro ⟨record', hdelimits', hrefs'⟩
        obtain rfl := hdelimits.unique hdelimits'
        exact hrefs hrefs'
  · rintro state ⟨-, -, hgood⟩
    exact hgood

theorem StopsAt.eq_first {rbs : Nat} {stop : Stop BocSite} {i i' : Nat}
    (h : StopsAt rbs cells ends n stop i) (hbefore : ∀ j < i', GoodCell rbs cells ends n j)
    (hbad : ¬ GoodCell rbs cells ends n i') : i = i' := by
  rcases Nat.lt_trichotomy i i' with hlt | heq | hgt
  · exact absurd (hbefore i hlt) h.bad
  · exact heq
  · exact absurd (h.before i' hgt) hbad

def CellGraph (refByteSize : Nat) (cells : Slice) (ends : Nat → Nat)
    (refs : Fin n → List (Fin n)) : Prop :=
  ∀ idx : Fin n, ∃ record, Delimits refByteSize cells ends idx.val record ∧
    recordRefs refByteSize record = cellNumbers (refs idx)

theorem exists_cellGraph {rbs : Nat} (hgood : ∀ i < n, GoodCell rbs cells ends n i) :
    ∃ refs : Fin n → List (Fin n), CellGraph rbs cells ends refs := by
  have hcell : ∀ idx : Fin n, ∃ list : List (Fin n), ∃ record,
      Delimits rbs cells ends idx.val record ∧ recordRefs rbs record = cellNumbers list := by
    intro idx
    obtain ⟨record, hrecord, hrefs⟩ := hgood idx.val idx.isLt
    obtain ⟨list, hlist⟩ := exists_cellNumbers hrefs
    exact ⟨list, record, hrecord, hlist⟩
  choose refs hrefs using hcell
  exact ⟨refs, hrefs⟩

variable {refs : Fin n → List (Fin n)}

theorem CellGraph.read (h : CellGraph bag.info.refByteSize cells ends refs)
    (hentries : HasEntries bag n ends) (idx : Fin n) :
    ∃ record, readCellRecord bag idx.val cells = .ok record ∧
      Delimits bag.info.refByteSize cells ends idx.val record ∧
      recordRefs bag.info.refByteSize record = cellNumbers (refs idx) := by
  obtain ⟨record, hrecord, hrefs⟩ := h idx
  have hread := @readCellRecord_ends _ cells _ _ _ hentries idx.isLt
  cases hrun : readCellRecord bag idx.val cells with
  | error stop => exact absurd ⟨record, hrecord⟩ (hread.of_error hrun).2
  | ok record' =>
    obtain rfl := hrecord.unique (hread.of_ok hrun)
    exact ⟨record, rfl, hrecord, hrefs⟩

theorem buildReverseGraph_ends (h : CellGraph bag.info.refByteSize cells ends refs)
    (hentries : HasEntries bag n ends) (hrbs : bag.info.refByteSize ≤ 4) :
    Returns (buildReverseGraph bag cells n) fun out =>
      ∃ rev : Fin n → List (Fin n),
        out = (graphTable rev, List.ofFn fun x => ((refs x).length : Int)) ∧
        ∀ x y, (rev y).count x = (refs x).count y := by
  apply builtUpTo_ends
  rintro idx counted ⟨revGraph, inDegree⟩ hzero hbuilt
  obtain ⟨record, hread, hdelimits, hrefs⟩ := h.read hentries idx
  have hcnt : record.2.refsCnt = (refs idx).length := by
    rw [← cellNumbers_length, ← hrefs]
    simp [recordRefs, Boc.recordRefs]
  dsimp only
  rw [hread, ok_bind]
  refine addReferences_builtUpTo idx hcnt (fun k hk => ?_) hzero hbuilt
  have href := @Delimits.readRefIdx _ _ _ _ _ hdelimits hrbs k
  simp only [hrefs] at href
  simpa [cellNumbers] using href (by simpa using hk)

/-- The order is topological, or the sort stops at the first cell that is not good. -/
theorem getTopolOrder_ends (hentries : HasEntries bag n ends) (hrbs : bag.info.refByteSize ≤ 4) :
    Ends (getTopolOrder bag cells n)
      (fun out => ∃ refs : Fin n → List (Fin n), ∃ order,
        CellGraph bag.info.refByteSize cells ends refs ∧ out = cellNumbers order ∧
        TopologicalOrder refs order)
      (fun stop => ∃ i, StopsAt bag.info.refByteSize cells ends n stop i) := by
  unfold getTopolOrder
  have hstops := @buildReverseGraph_stops _ cells _ _ hentries hrbs
  cases hrun : buildReverseGraph bag cells n with
  | error stop => exact hstops.of_error hrun
  | ok out =>
    obtain ⟨refs, hgraph⟩ := exists_cellGraph (hstops.of_ok hrun)
    obtain ⟨rev, rfl, hrev⟩ := (buildReverseGraph_ends hgraph hentries hrbs).of_ok hrun
    refine (topolLoop_ends hrev).mono ?_ fun _ => False.elim
    rintro _ ⟨order, rfl, horder⟩
    exact ⟨refs, order, hgraph, rfl, horder⟩

theorem getTopolOrder_stuck (hentries : HasEntries bag n ends) (hrbs : bag.info.refByteSize ≤ 4)
    {i : Nat} (hi : i < n) (hbefore : ∀ j < i, GoodCell bag.info.refByteSize cells ends n j)
    (hbad : ¬ GoodCell bag.info.refByteSize cells ends n i) :
    ∃ stop, getTopolOrder bag cells n = .error stop ∧
      StopsAt bag.info.refByteSize cells ends n stop i := by
  have htopol := @getTopolOrder_ends bag cells _ _ hentries hrbs
  cases hrun : getTopolOrder bag cells n with
  | ok topol =>
    obtain ⟨refs, -, hgraph, -⟩ := htopol.of_ok hrun
    obtain ⟨record, hrecord, hrefs⟩ := hgraph ⟨i, hi⟩
    refine absurd ⟨record, hrecord, ?_⟩ hbad
    rw [hrefs]
    intro ref href
    obtain ⟨x, -, rfl⟩ := List.mem_map.mp href
    omega
  | error stop =>
    obtain ⟨i', hstop⟩ := htopol.of_error hrun
    obtain rfl := hstop.eq_first hbefore hbad
    exact ⟨stop, rfl, hstop⟩

end graph

end TonCompress.Whole
