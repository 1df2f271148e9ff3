import TonCompress.Evolve.Population
import TonCompress.Boc.RoundTrip

/-! What the search of `solution_evolve_lzma_separate_header.cpp` keeps as `best`: an
encoding of the bag in some order of its cells, never longer than the unsearched one. -/
namespace TonCompress.Evolve
open TonCompress.Lib TonCompress.Lzma TonCompress.Boc

/-- `my_std_boc_serialize`, for a root whose cells `import_cells` has put into `bag`. -/
def myStdBocSerialize (lib : CellLib) (bag : MyBagOfCells) (gene : Gene) (mode : Nat) :
    BocExec (List UInt8) := do
  let myBoc ← bag.permute lib gene
  myBoc.serializeToSlice lib mode

/-- `lzma_compress(my_std_boc_serialize(gene, root, 0).move_as_ok())`; the new buffer
holds what `heap` says. -/
def encodeGene (lib : CellLib) (bag : MyBagOfCells) (heap : Gene → (n : Nat) → Allocated n)
    (gene : Gene) : Option (List UInt8) := do
  let serialized ← (myStdBocSerialize lib bag gene 0).toOption
  (lzmaCompress serialized (heap gene _)).toOption

structure SearchEnv.Searches (env : SearchEnv) (lib : CellLib) (bag : MyBagOfCells)
    (heap : Gene → (n : Nat) → Allocated n) : Prop where
  program : env.program = .evolveLzma
  numberOfCells : env.numberOfCells = bag.cellList.length
  encode : env.encode = encodeGene lib bag heap

section invariant
variable {env : SearchEnv} {n : Nat} {s : Search}

/-- `best` is the encoding of an order, and not longer than that of the identity. -/
structure BestOf (env : SearchEnv) (n : Nat) (best : List UInt8) : Prop where
  encoded : ∃ gene, IsOrder n gene ∧ env.encode gene = some best
  shortest : ∀ unsearched, env.encode Gene.unfilled = some unsearched →
    best.length ≤ unsearched.length

theorem evalGene_best {gene : Gene} (hgene : IsPerm n gene.perm) (h : BestOf env n s.best) :
    Ends (evalGene env gene s) (fun out => BestOf env n out.2.best) fun _ => True := by
  have hbytes : ∀ s : Search, BestOf env n s.best →
      Ends (evalBytes env gene s) (fun out => BestOf env n out.2.best) fun _ => True := by
    intro s h
    unfold evalBytes
    split
    · trivial
    · rename_i compressed hencode
      dsimp only [ends_ok]
      split
      · rename_i hless
        exact ⟨⟨gene, .inr hgene, hencode⟩, fun unsearched hunsearched =>
          hless.le.trans (h.shortest unsearched hunsearched)⟩
      · exact h
  unfold evalGene
  split
  · exact ends_ite.mpr ⟨fun _ => h, fun _ => hbytes _ h⟩
  · exact ends_ite.mpr ⟨fun _ => h, fun _ => hbytes _ h⟩

theorem buildStep_best (i : Nat) :
    Ends (buildStep env i s) (fun s' => s'.best = s.best) fun _ => True := by
  refine ends_ite.mpr ⟨fun _ => ?_, fun _ => rfl⟩
  exact (ends_true _).bind fun _ _ => rfl

theorem evaluateStep_best {i : Nat} (hphase : s.phase = .evaluate i) (hs : SearchInv n s)
    (h : BestOf env n s.best) :
    Ends (evaluateStep env i s) (fun s' => BestOf env n s'.best) fun _ => True := by
  rw [evaluateStep, List.getLast?_eq_some_getLast (hs.built i hphase)]
  exact (evalGene_best (hs.population _ (List.getLast_mem _)) h).bind fun _ hbest => hbest

theorem breedStep_best (i : Nat) :
    Ends (breedStep env i s) (fun s' => s'.best = s.best) fun _ => True := by
  refine ends_ite.mpr ⟨fun _ => ends_ite.mpr ⟨fun _ => rfl, fun _ => ?_⟩, fun _ => rfl⟩
  refine (ends_true _).bind fun _ _ => ?_
  refine (ends_true _).bind fun _ _ => ?_
  exact (ends_true _).bind fun _ _ => rfl

theorem mutateStep_best (i : Nat) (child : Gene) :
    Ends (mutateStep env i child s) (fun s' => s'.best = s.best) fun _ => True := by
  refine (ends_true _).bind fun _ _ => ?_
  exact (ends_true _).bind fun _ _ => rfl

theorem childStep_best {i : Nat} {child : Gene} (hphase : s.phase = .mutated i child)
    (hs : SearchInv n s) (h : BestOf env n s.best) :
    Ends (childStep env i child s) (fun s' => BestOf env n s'.best) fun _ => True := by
  refine (evalGene_best (hs.child i child (.inr hphase)) h).bind fun out hbest => ?_
  rcases out with ⟨child, s'⟩
  dsimp only
  split
  · exact hbest
  · exact ends_ite.mpr ⟨fun _ => hbest, fun _ => ends_ite.mpr ⟨fun _ => hbest, fun _ => hbest⟩⟩

theorem replaceStep_best : Ends (replaceStep env s) (fun s' => s'.best = s.best) fun _ => True := by
  refine ends_ite.mpr ⟨fun _ => rfl, fun _ => ?_⟩
  exact (ends_true _).bind fun _ _ => rfl

/-- Only an evaluation changes `best`. -/
theorem searchStep_best (hs : SearchInv n s) (h : BestOf env n s.best) :
    Ends (searchStep env s) (fun s' => BestOf env n s'.best) fun _ => True := by
  have hkept : ∀ s' : Search, s'.best = s.best → BestOf env n s'.best := fun s' hsame =>
    hsame ▸ h
  unfold searchStep
  split
  · exact (buildStep_best _).mono hkept fun _ => id
  · exact evaluateStep_best ‹_› hs h
  · exact (breedStep_best _).mono hkept fun _ => id
  · exact (mutateStep_best _ _).mono hkept fun _ => id
  · exact childStep_best ‹_› hs h
  · exact replaceStep_best.mono hkept fun _ => id
  · exact h

theorem Reached.bestOf (hn : 0 < n) (hcells : env.numberOfCells = n) {stream : Nat → UInt32}
    (h : Reached env stream s) : BestOf env n s.best := by
  refine h.invariant hn hcells (fun best hencode => ?_) fun s hs hbest => searchStep_best hs hbest
  refine ⟨⟨_, .inl rfl, hencode⟩, fun unsearched hunsearched => ?_⟩
  rw [Option.some.inj (hencode.symm.trans hunsearched)]

end invariant

section encoding
variable {lib : CellLib} {bag : MyBagOfCells} {root : DataCell} {rootIdx : Nat}
variable {heap : Gene → (n : Nat) → Allocated n} {gene : Gene}

theorem toOption_eq_some {ε α : Type} {run : Except ε α} {value : α} :
    run.toOption = some value ↔ run = .ok value := by
  cases run <;> simp [Except.toOption]

theorem encodeGene_eq_some {best : List UInt8} :
    encodeGene lib bag heap gene = some best ↔
      ∃ serialized, myStdBocSerialize lib bag gene 0 = .ok serialized ∧
        lzmaCompress serialized (heap gene _) = .ok best := by
  simp only [encodeGene, Option.bind_eq_bind, Option.bind_eq_some_iff, toOption_eq_some]

theorem myStdBocSerialize_ends (himported : ImportedBag bag root rootIdx)
    (horder : IsOrder bag.cellList.length gene) :
    ∃ serialized, myStdBocSerialize lib bag gene 0 = .ok serialized ∧
      serialized.length < 2 ^ 64 := by
  obtain ⟨myBoc, rootIdx', hpermute, himported', -⟩ := himported.permute lib horder
  obtain ⟨rs, os, hwidths, hbytes⟩ := himported'.serializeToSlice lib
  have hsections := himported'.sections_length rs
  have hsize := himported'.sectionsSize_lt hwidths.refByteSize_le
  have hrs := hwidths.refByteSize_le
  have hos := hwidths.offsetByteSize_le
  refine ⟨_, bind_eq_ok.mpr ⟨myBoc, hpermute, hbytes⟩, ?_⟩
  rw [List.length_append, List.length_append, Boc.headerBytes_length, hsections]
  omega

theorem encodeGene_ends (himported : ImportedBag bag root rootIdx)
    (horder : IsOrder bag.cellList.length gene) :
    ∃ best, encodeGene lib bag heap gene = some best ∧ 0 < best.length ∧
      best.length ≤ blockSizeMax := by
  obtain ⟨serialized, hserialize, hsize⟩ := @myStdBocSerialize_ends lib bag _ _ gene himported horder
  obtain ⟨len, hpos, hlen, hruns⟩ := lzmaCompress_length hsize
  obtain ⟨best, hcompress, rfl⟩ := hruns (heap gene _)
  exact ⟨best, encodeGene_eq_some.mpr ⟨serialized, hserialize, hcompress⟩, hpos,
    hlen.trans (lzmaCompressCapacity_le _)⟩

theorem SearchEnv.Searches.encodes {env : SearchEnv} {lib : CellLib} {bag : MyBagOfCells}
    {root : DataCell} {rootIdx : Nat} {heap : Gene → (n : Nat) → Allocated n}
    (h : env.Searches lib bag heap) (himported : ImportedBag bag root rootIdx) :
    env.Encodes bag.cellList.length where
  program := h.program
  numberOfCells := h.numberOfCells
  pos := Nat.zero_lt_of_lt himported.rootIdx_lt
  encode _ horder := h.encode ▸ encodeGene_ends himported horder

/-- In every state that the search reaches, `best` is the compressed serialization of
the root in some order of its cells, from which the same root is read again, and no
longer than the compressed serialization in the identity order. -/
theorem best_encodes (himported : ImportedBag bag root rootIdx) {env : SearchEnv}
    (henv : env.Searches lib bag heap) {stream : Nat → UInt32} {s : Search}
    (hs : Reached env stream s) :
    (∃ gene serialized output, IsOrder bag.cellList.length gene ∧
      myStdBocSerialize lib bag gene 0 = .ok serialized ∧
      lzmaCompress serialized output = .ok s.best ∧
      ((∀ dcInfo ∈ bag.cellList, Rebuilds lib dcInfo.dcRef) → ∃ decoded root',
        MyBagOfCells.deserialize lib (Slice.ofBytes serialized) 1 .fresh =
          (.ok (serialized.length : Int), decoded) ∧
        decoded.getRootCell 0 = .ok (some root') ∧ root'.unfold = root.unfold)) ∧
    ∃ serialized, myStdBocSerialize lib bag Gene.unfilled 0 = .ok serialized ∧
      ∀ output, ∃ unsearched, lzmaCompress serialized output = .ok unsearched ∧
        s.best.length ≤ unsearched.length := by
  have hpos : 0 < bag.cellList.length := Nat.zero_lt_of_lt himported.rootIdx_lt
  obtain ⟨⟨gene, horder, hencoded⟩, hshortest⟩ := hs.bestOf hpos henv.numberOfCells
  rw [henv.encode] at hencoded hshortest
  constructor
  · obtain ⟨serialized, hserialize, hcompress⟩ := encodeGene_eq_some.mp hencoded
    refine ⟨gene, serialized, _, horder, hserialize, hcompress, fun hlib => ?_⟩
    obtain ⟨permuted, bytes, decoded, root', hpermute, hbytes, hrun, -, hroot, hsame, -⟩ :=
      himported.roundTrip hlib horder
    have hbytes' : myStdBocSerialize lib bag gene 0 = .ok bytes :=
      bind_eq_ok.mpr ⟨permuted, hpermute, hbytes⟩
    obtain rfl := Except.ok.inj (hserialize.symm.trans hbytes')
    exact ⟨decoded, root', hrun, hroot, hsame.unfold_eq⟩
  · obtain ⟨serialized, hserialize, hsize⟩ :=
      @myStdBocSerialize_ends lib bag _ _ Gene.unfilled himported (.inl rfl)
    obtain ⟨len, -, -, hruns⟩ := lzmaCompress_length hsize
    refine ⟨serialized, hserialize, fun output => ?_⟩
    obtain ⟨unsearched, hcompress, hlength⟩ := hruns output
    obtain ⟨first, hfirst, hlength'⟩ := hruns (heap Gene.unfilled _)
    have hle := hshortest first (encodeGene_eq_some.mpr ⟨serialized, hserialize, hfirst⟩)
    exact ⟨unsearched, hcompress, by omega⟩

end encoding

def bagSearch (lib : CellLib) (bag : MyBagOfCells) (heap : Gene → (n : Nat) → Allocated n)
    (clock : Nat → Nat) (hmono : Monotone clock) : SearchEnv where
  program := .evolveLzma
  numberOfCells := bag.cellList.length
  clock := clock
  clock_mono := hmono
  sort genes := genes.mergeSort fun a b => decide (a.unfitness ≤ b.unfitness)
  sort_perm genes := List.mergeSort_perm genes _
  sort_sorted genes := by
    have hsorted := @List.pairwise_mergeSort _ (fun a b : Gene => decide (a.unfitness ≤ b.unfitness))
      (fun a b c hab hbc => decide_eq_true ((of_decide_eq_true hab).trans (of_decide_eq_true hbc)))
      (fun a b => by simpa using Int.le_total a.unfitness b.unfitness) genes
    exact hsorted.imp of_decide_eq_true
  encode := encodeGene lib bag heap

theorem bagSearch_searches (lib : CellLib) (bag : MyBagOfCells)
    (heap : Gene → (n : Nat) → Allocated n) (clock : Nat → Nat) (hmono : Monotone clock) :
    (bagSearch lib bag heap clock hmono).Searches lib bag heap :=
  ⟨rfl, rfl, rfl⟩

/-- The bag of two cells, one millisecond a reading, at the first selection. -/
theorem best_encodes_forkBag :
    ∃ s, Reached (bagSearch packingLib forkBag (fun _ n => .replicate n 0) (fun k => k * 1000000)
        fun _ _ h => Nat.mul_le_mul_right _ h) (fun _ => 3) s ∧
      s.population.length = 10 ∧ AllFit s.population ∧
      (∃ gene serialized output decoded root', IsOrder 2 gene ∧
        myStdBocSerialize packingLib forkBag gene 0 = .ok serialized ∧
        lzmaCompress serialized output = .ok s.best ∧
        MyBagOfCells.deserialize packingLib (Slice.ofBytes serialized) 1 .fresh =
          (.ok (serialized.length : Int), decoded) ∧
        decoded.getRootCell 0 = .ok (some root') ∧ root'.unfold = forkCell.unfold) ∧
      ∃ serialized, myStdBocSerialize packingLib forkBag Gene.unfilled 0 = .ok serialized ∧
        ∀ output, ∃ unsearched, lzmaCompress serialized output = .ok unsearched ∧
          s.best.length ≤ unsearched.length := by
  have hsearches := bagSearch_searches packingLib forkBag (fun _ n => .replicate n 0)
    (fun k => k * 1000000) fun _ _ h => Nat.mul_le_mul_right _ h
  have henv := hsearches.encodes forkBag_imported
  obtain ⟨s, hs, -, hlength, -⟩ := reached_selection henv
    (show 2 * populationCount * 1000000 < 1900 * 1000000 by decide) fun _ => 3
  have hfit := (hs.fit henv).population
    (show 2 * (populationCount - 1) * 1000000 < 1800 * 1000000 by decide)
  obtain ⟨⟨gene, serialized, output, horder, hserialize, hcompress, hread⟩, hunsearched⟩ :=
    best_encodes forkBag_imported hsearches hs
  obtain ⟨decoded, root', hback⟩ := hread packingLib_rebuilds
  exact ⟨s, hs, hlength, hfit, ⟨gene, serialized, output, decoded, root', horder, hserialize,
    hcompress, hback⟩, hunsearched⟩

end TonCompress.Evolve
