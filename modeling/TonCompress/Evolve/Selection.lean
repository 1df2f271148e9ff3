import TonCompress.Evolve.Best

/-! Who takes part in the roulette selection of `solution_evolve_lzma_separate_header.cpp`. -/
namespace TonCompress.Evolve
open TonCompress.Lib TonCompress.Lzma TonCompress.Boc

section roulette
variable {v : List Int} {value : Int} {genes : List Gene}

theorem lowerBoundGo_le (fuel first len : Nat) : lowerBoundGo v value fuel first len ≤ first + len := by
  induction fuel generalizing first len with
  | zero => exact Nat.le_add_right _ _
  | succ fuel ih =>
    rw [lowerBoundGo]
    split
    · omega
    · split
      · have hnext := ih (first + len / 2 + 1) (len - len / 2 - 1)
        omega
      · have hnext := ih first (len / 2)
        omega

theorem lowerBoundGo_lt {fuel first len : Nat} (hfuel : len ≤ fuel) (hlen : 0 < len)
    (hlast : value ≤ v.getD (first + len - 1) 0) :
    lowerBoundGo v value fuel first len < first + len := by
  induction fuel generalizing first len with
  | zero => omega
  | succ fuel ih =>
    rw [lowerBoundGo, if_neg (by omega)]
    by_cases hless : v.getD (first + len / 2) 0 < value
    · rw [if_pos hless]
      have hrest : 0 < len - len / 2 - 1 := by
        by_contra hnone
        rw [show first + len / 2 = first + len - 1 by omega] at hless
        omega
      have hend : first + len / 2 + 1 + (len - len / 2 - 1) = first + len := by omega
      have hnext := @ih (first + len / 2 + 1) (len - len / 2 - 1) (by omega) hrest
        (by rw [hend]; exact hlast)
      rwa [hend] at hnext
    · rw [if_neg hless]
      have hnext := @lowerBoundGo_le v value fuel first (len / 2)
      omega

theorem partialSums_length (tot : Int) (genes : List Gene) :
    (partialSums tot genes).length = genes.length := by
  induction genes generalizing tot with
  | nil => rfl
  | cons gene genes ih => rw [partialSums, List.length_cons, ih, List.length_cons]

theorem foldl_unfitness (tot : Int) (genes : List Gene) :
    genes.foldl (fun tot gene => tot + gene.unfitness) tot = tot + totUnfitness genes := by
  induction genes generalizing tot with
  | nil => simp [totUnfitness]
  | cons gene genes ih =>
    rw [totUnfitness, List.foldl_cons, List.foldl_cons, ih, ih, zero_add, add_assoc]

theorem totUnfitness_cons (gene : Gene) (genes : List Gene) :
    totUnfitness (gene :: genes) = gene.unfitness + totUnfitness genes := by
  rw [totUnfitness, List.foldl_cons, foldl_unfitness, zero_add]

theorem partialSums_last (tot : Int) (hne : genes ≠ []) :
    (partialSums tot genes).getD (genes.length - 1) 0 = tot + totUnfitness genes := by
  induction genes generalizing tot with
  | nil => exact absurd rfl hne
  | cons gene genes ih =>
    cases genes with
    | nil => simp [partialSums, totUnfitness]
    | cons next genes =>
      have hnext := ih (tot + gene.unfitness) (List.cons_ne_nil _ _)
      rw [partialSums, totUnfitness_cons, ← add_assoc, ← hnext]
      rfl

theorem lowerBoundGo_end {fuel first len : Nat} (hfuel : len ≤ fuel)
    (hless : ∀ i < first + len, v.getD i 0 < value) :
    lowerBoundGo v value fuel first len = first + len := by
  induction fuel generalizing first len with
  | zero =>
    obtain rfl : len = 0 := by omega
    rfl
  | succ fuel ih =>
    rw [lowerBoundGo]
    by_cases hlen : len = 0
    · rw [if_pos hlen, hlen, Nat.add_zero]
    · have hend : first + len / 2 + 1 + (len - len / 2 - 1) = first + len := by omega
      rw [if_neg hlen, if_pos (hless _ (by omega)),
        @ih (first + len / 2 + 1) (len - len / 2 - 1) (by omega) (by rwa [hend]), hend]

theorem AllMarked.totUnfitness (h : AllMarked genes) :
    Evolve.totUnfitness genes = -(genes.length : Int) := by
  induction genes with
  | nil => rfl
  | cons gene genes ih =>
    rw [totUnfitness_cons, h gene List.mem_cons_self,
      ih fun gene hgene => h gene (List.mem_cons_of_mem _ hgene), List.length_cons]
    push_cast
    omega

theorem AllMarked.partialSums_neg (h : AllMarked genes) {tot : Int} (htot : tot ≤ 0) :
    ∀ sum ∈ partialSums tot genes, sum < 0 := by
  induction genes generalizing tot with
  | nil => exact fun sum hsum => absurd hsum List.not_mem_nil
  | cons gene genes ih =>
    have hgene := h gene List.mem_cons_self
    refine List.forall_mem_cons.mpr ⟨by omega, ?_⟩
    exact ih (fun gene hgene => h gene (List.mem_cons_of_mem _ hgene)) (by omega)

/-- The index of a population that is all marked lies behind it. -/
theorem AllMarked.rouletteIndex (h : AllMarked genes) (rng : Rng)
    (hlength : genes.length = populationCount) :
    ∃ rng', Evolve.rouletteIndex genes rng = .ok (genes.length, rng') := by
  have hcount : populationCount = 10 := rfl
  have htot := h.totUnfitness
  refine ⟨{ rng with drawn := rng.drawn + 1 }, ?_⟩
  have hend : ∀ rnd : Nat, lowerBound (partialSums 0 genes) rnd = genes.length := by
    intro rnd
    have hsearch := @lowerBoundGo_end (partialSums 0 genes) rnd genes.length 0 genes.length le_rfl
      fun i hi => ?_
    · rw [lowerBound, partialSums_length, hsearch, Nat.zero_add]
    · have hi' : i < (partialSums 0 genes).length := by
        rw [partialSums_length]
        omega
      rw [List.getD_eq_getElem _ _ hi']
      have hneg := h.partialSums_neg le_rfl _ (List.getElem_mem hi')
      omega
  rw [Evolve.rouletteIndex, Rng.drawMod, if_neg (by omega), ok_bind]
  dsimp only
  rw [hend]
  rfl

theorem AllFit.totUnfitness (h : AllFit genes) :
    genes.length ≤ Evolve.totUnfitness genes ∧
      Evolve.totUnfitness genes ≤ genes.length * 1000000000 := by
  induction genes with
  | nil => simp [Evolve.totUnfitness]
  | cons gene genes ih =>
    obtain ⟨hpos, hle⟩ := h gene List.mem_cons_self
    have hrest := ih (h.of_subset (List.subset_cons_self _ _))
    rw [totUnfitness_cons, List.length_cons]
    push_cast
    omega

/-- What a call of `get_random_by_unfittness` relies on: the sum is positive, no gene is
marked, and whatever number is drawn, the index is inside the population. -/
def FairSelection (population : List Gene) : Prop :=
  0 < totUnfitness population ∧ (∀ gene ∈ population, gene.unfitness ≠ -1) ∧
    ∀ rng, ∃ ind rng', rouletteIndex population rng = .ok (ind, rng') ∧ ind < population.length

theorem AllFit.fairSelection (h : AllFit genes) (hlength : genes.length = populationCount) :
    FairSelection genes := by
  have hcount : populationCount = 10 := rfl
  obtain ⟨hge, hle⟩ := h.totUnfitness
  have hpositive : 0 < Evolve.totUnfitness genes := by omega
  refine ⟨hpositive, fun gene hgene hmarked => ?_, fun rng => ?_⟩
  · have := (h gene hgene).1
    omega
  · have hmod : Evolve.totUnfitness genes % 2 ^ 64 = Evolve.totUnfitness genes :=
      Int.emod_eq_of_lt hpositive.le (by omega)
    obtain ⟨⟨rnd, rng'⟩, hdraw, hrnd⟩ :=
      returns_iff.mp (@drawMod_lt (Evolve.totUnfitness genes).toNat rng (by omega))
    have hne : genes ≠ [] := by
      rw [← List.length_pos_iff_ne_nil]
      omega
    have hlast := partialSums_last 0 hne
    dsimp only at hrnd
    refine ⟨lowerBound (partialSums 0 genes) rnd, rng', ?_, ?_⟩
    · rw [rouletteIndex, hmod, hdraw]
      rfl
    · have hsearch := @lowerBoundGo_lt (partialSums 0 genes) rnd genes.length 0 genes.length le_rfl
        (List.length_pos_iff_ne_nil.mpr hne) (by rw [zero_add, hlast]; omega)
      rw [lowerBound, partialSums_length]
      omega

end roulette

section selections
variable {env : SearchEnv} {lib : CellLib} {bag : MyBagOfCells} {root : DataCell} {rootIdx : Nat}
variable {heap : Gene → (n : Nat) → Allocated n}

/-- All selections of a run are fair just when the last gene of the initial population is
evaluated before 1800 ms, or no time is left for a selection behind it. -/
theorem fairSelections_iff (himported : ImportedBag bag root rootIdx)
    (hsearches : env.Searches lib bag heap) (stream : Nat → UInt32) :
    (∀ s, Reached env stream s → Selects env s → FairSelection s.population) ↔
      env.clock 18 < 1800 * 1000000 ∨ 1900 * 1000000 ≤ env.clock 20 := by
  have henv := hsearches.encodes himported
  constructor
  · intro hfair
    by_contra hneither
    obtain ⟨hlate, hclock⟩ := not_or.mp hneither
    obtain ⟨s, hs, hselects, -, hmarked, -⟩ :=
      reached_selection henv (Nat.lt_of_not_le hclock) stream
    obtain ⟨gene, hgene, hunfitness⟩ := hmarked hlate
    exact (hfair s hs hselects).2.1 gene hgene hunfitness
  · rintro hcases s hs ⟨i, hphase, -, hclock⟩
    obtain ⟨hpopulation, -, hsized⟩ := hs.fit henv
    rw [hphase] at hsized
    rcases hcases with hearly | hlate
    · exact (hpopulation hearly).fairSelection hsized.1
    · have hmono := env.clock_mono hsized.2
      exact absurd (hlate.trans hmono) (Nat.not_le.mpr hclock)

/-- The bag of two cells, with all evaluations in time. -/
theorem fairSelections_iff_forkBag :
    (∀ s, Reached (bagSearch packingLib forkBag (fun _ n => .replicate n 0) (fun _ => 0)
        monotone_const) (fun _ => 3) s →
      Selects (bagSearch packingLib forkBag (fun _ n => .replicate n 0) (fun _ => 0)
        monotone_const) s → FairSelection s.population) ↔
      0 < 1800 * 1000000 ∨ 1900 * 1000000 ≤ 0 :=
  fairSelections_iff forkBag_imported (bagSearch_searches _ _ _ _ _) (fun _ => 3)

/-- A search that comes to its population at 1850 ms selects among ten marked genes: their
sum is negative, and the index is behind the population. -/
theorem lateSearch_selects_marked :
    ∃ s, Reached (bagSearch packingLib forkBag (fun _ n => .replicate n 0)
        (fun _ => 1850000000) monotone_const) (fun _ => 3) s ∧
      Selects (bagSearch packingLib forkBag (fun _ n => .replicate n 0)
        (fun _ => 1850000000) monotone_const) s ∧
      totUnfitness s.population = -10 ∧ s.population.length = 10 ∧
      (∃ rng, rouletteIndex s.population s.rng = .ok (10, rng)) ∧
      ¬ FairSelection s.population := by
  have henv := (bagSearch_searches packingLib forkBag (fun _ n => .replicate n 0)
    (fun _ => 1850000000) monotone_const).encodes forkBag_imported
  obtain ⟨s, hs, hselects, hlength, -, hall⟩ := reached_selection henv
    (show 1850000000 < 1900 * 1000000 by decide) (fun _ => 3)
  have hmarked := hall (show 1800 * 1000000 ≤ 1850000000 by decide)
  have hlength : s.population.length = 10 := hlength
  have htot := hmarked.totUnfitness
  rw [hlength] at htot
  obtain ⟨rng, hindex⟩ := hmarked.rouletteIndex s.rng hlength
  rw [hlength] at hindex
  refine ⟨s, hs, hselects, htot, hlength, ⟨rng, hindex⟩, fun hfair => ?_⟩
  have hpositive := hfair.1
  omega

end selections

end TonCompress.Evolve
