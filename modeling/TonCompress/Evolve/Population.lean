import TonCompress.Evolve.Lineage
import TonCompress.Lzma.Wrapper

/-! How the search comes to its first selection: the initial population, which of its
genes are evaluated in time and which are marked. -/
namespace TonCompress.Evolve
open TonCompress.Lib TonCompress.Lzma

section genes
variable {genes : List Gene}

def IsOrder (n : Nat) (gene : Gene) : Prop := gene.perm = [] ∨ IsPerm n gene.perm

/-- All genes carry the marker of an evaluation that came too late. -/
def AllMarked (genes : List Gene) : Prop := ∀ gene ∈ genes, gene.unfitness = -1

def Fit (gene : Gene) : Prop := 0 < gene.unfitness ∧ gene.unfitness ≤ 1000000000

def AllFit (genes : List Gene) : Prop := ∀ gene ∈ genes, Fit gene

theorem AllFit.append {genes' : List Gene} (h : AllFit genes) (h' : AllFit genes') :
    AllFit (genes ++ genes') := by
  intro gene hgene
  exact (List.mem_append.mp hgene).elim (h gene) (h' gene)

theorem AllFit.of_subset {genes' : List Gene} (h : AllFit genes) (hsub : genes' ⊆ genes) :
    AllFit genes' :=
  fun gene hgene => h gene (hsub hgene)

theorem allFit_singleton {gene : Gene} (h : Fit gene) : AllFit [gene] := by
  intro other hother
  rw [List.mem_singleton.mp hother]
  exact h

theorem allFit_nil : AllFit [] := fun _ hgene => absurd hgene List.not_mem_nil

end genes

structure SearchEnv.Encodes (env : SearchEnv) (n : Nat) : Prop where
  program : env.program = .evolveLzma
  numberOfCells : env.numberOfCells = n
  pos : 0 < n
  encode : ∀ gene, IsOrder n gene → ∃ bytes, env.encode gene = some bytes ∧ 0 < bytes.length ∧
    bytes.length ≤ blockSizeMax

section steps
variable {env : SearchEnv} {n : Nat} {s : Search} {gene : Gene} {genes : List Gene}

theorem startSearch_eq {best : List UInt8} (hencode : env.encode Gene.unfilled = some best)
    (stream : Nat → UInt32) :
    startSearch env stream = .ok ⟨⟨stream, 0⟩, 0, best, [], [], .build 0⟩ := by
  rw [startSearch, hencode]

theorem mutate_unfitness (cells cnt : Nat) (rng : Rng) :
    Ends (Gene.mutate cells cnt gene rng) (fun out => out.1.unfitness = gene.unfitness)
      fun _ => True := by
  induction cnt generalizing gene rng with
  | zero => rfl
  | succ cnt ih =>
    rw [Gene.mutate]
    refine (ends_true _).bind fun _ _ => ?_
    refine (ends_true _).bind fun last _ => ?_
    exact (ends_true _).bind fun perm _ => @ih { gene with perm } last.2

theorem fresh_fit (cells : Nat) (rng : Rng) :
    Ends (Gene.fresh cells rng) (fun out => Fit out.1) fun _ => True := by
  rw [Gene.fresh]
  refine (ends_true _).bind fun count _ => ?_
  refine (mutate_unfitness cells count.1 count.2).bind fun mutated hmutated => ?_
  refine (ends_true _).bind fun _ _ => ?_
  have hfit : Fit mutated.1 := by
    rw [Fit, hmutated]
    exact ⟨show (0 : Int) < 1000000000 by decide, le_rfl⟩
  dsimp only
  split
  · exact hfit
  · exact hfit

theorem resizeGenes_fit (cells count : Nat) (h : AllFit genes) (rng : Rng) :
    Ends (resizeGenes cells count genes rng)
      (fun out => AllFit out.1 ∧ out.1.length = count) fun _ => True := by
  rw [resizeGenes]
  have htake : AllFit (genes.take count) := h.of_subset (List.take_subset _ _)
  rcases Nat.le_total genes.length count with hle | hle
  · refine forRange_ends (fun i (out : List Gene × Rng) => AllFit out.1 ∧ out.1.length = i) hle
      ⟨htake, by rw [List.length_take]; omega⟩ fun i filled _ _ hgenes => ?_
    refine (fresh_fit cells filled.2).bind fun _ hgene => ?_
    refine ⟨hgenes.1.append (allFit_singleton hgene), ?_⟩
    change (filled.1 ++ [_]).length = _
    rw [List.length_append, hgenes.2]
    rfl
  · rw [forRange, Nat.sub_eq_zero_of_le hle]
    exact ⟨htake, by rw [List.length_take]; omega⟩

theorem evalGene_spec (henv : env.Encodes n) (hgene : IsPerm n gene.perm) :
    Returns (evalGene env gene s) fun out =>
      out.2.readings = s.readings + 1 ∧ out.2.population = s.population ∧
        out.2.childs = s.childs ∧
        (1800 * 1000000 ≤ env.clock s.readings → out.1.unfitness = -1) ∧
        (env.clock s.readings < 1800 * 1000000 → Fit out.1) := by
  obtain ⟨bytes, hencode, hpos, hle⟩ := henv.encode gene (.inr hgene)
  have hmax : blockSizeMax = 2 ^ 21 := rfl
  unfold evalGene
  rw [henv.program]
  refine ends_ite.mpr ⟨fun hlate => ?_, fun hearly => ?_⟩
  · have hlate := of_decide_eq_true hlate
    exact ⟨rfl, rfl, rfl, fun _ => rfl, fun hearly => by omega⟩
  · have hearly : ¬ 1800 * 1000000 ≤ env.clock s.readings := fun h => hearly (decide_eq_true h)
    unfold evalBytes
    rw [hencode]
    refine ⟨rfl, rfl, rfl, fun hlate => absurd hlate hearly, fun _ => ?_⟩
    change 0 < (bytes.length : Int) ∧ (bytes.length : Int) ≤ 1000000000
    omega

theorem buildStep_spec (henv : env.Encodes n) {i : Nat} (hi : i < populationCount) :
    Returns (buildStep env i s) fun s' => s'.phase = .evaluate i ∧ s'.readings = s.readings ∧
      s'.childs = s.childs ∧ ∃ gene, Fit gene ∧ s'.population = s.population ++ [gene] := by
  unfold buildStep
  rw [if_pos hi, henv.numberOfCells]
  have hfresh := ((fresh_isPerm s.rng henv.pos).and (fresh_fit n s.rng)).mono
    (fun out h => h.2) fun _ h => h.1
  exact hfresh.bind fun _ hfit => ⟨rfl, rfl, rfl, _, hfit, rfl⟩

theorem evaluateStep_spec (henv : env.Encodes n) (i : Nat)
    (hpopulation : s.population = genes ++ [gene]) (hgene : IsPerm n gene.perm) :
    Returns (evaluateStep env i s) fun s' =>
      s'.phase = (if 1900 * 1000000 ≤ env.clock (s.readings + 1) then .returned
        else .build (i + 1)) ∧
      s'.readings = s.readings + 2 ∧ s'.childs = s.childs ∧
      ∃ gene', s'.population = genes ++ [gene'] ∧
        (1800 * 1000000 ≤ env.clock s.readings → gene'.unfitness = -1) ∧
        (env.clock s.readings < 1800 * 1000000 → Fit gene') := by
  rw [evaluateStep, hpopulation, List.getLast?_concat]
  refine (evalGene_spec henv hgene).bind fun out hspec => ?_
  rcases out with ⟨gene', s'⟩
  obtain ⟨hreadings, hkept, hchilds, hmark, hfit⟩ := hspec
  dsimp only at hreadings hkept hchilds hmark hfit
  refine ⟨?_, ?_, hchilds, gene', ?_, hmark, hfit⟩
  · change (if decide _ = true then _ else _) = _
    simp only [hreadings, decide_eq_true_eq]
  · change s'.readings + 1 = _
    rw [hreadings]
  · change s'.population.dropLast ++ [gene'] = _
    rw [hkept, hpopulation, List.dropLast_concat]

def Phase.Sized (length readings : Nat) : Phase → Prop
  | .build i => i ≤ populationCount ∧ length = i ∧ readings = 2 * i
  | .evaluate i => i < populationCount ∧ length = i + 1 ∧ readings = 2 * i
  | .returned => True
  | _ => length = populationCount ∧ 2 * populationCount ≤ readings

/-- The last evaluation of the initial population comes before 1800 ms. -/
def Early (env : SearchEnv) : Prop :=
  env.clock (2 * (populationCount - 1)) < 1800 * 1000000

/-- No gene but those of a late initial population is marked. -/
structure FitInv (env : SearchEnv) (s : Search) : Prop where
  population : Early env → AllFit s.population
  childs : AllFit s.childs
  sized : s.phase.Sized s.population.length s.readings

theorem buildStep_fit (henv : env.Encodes n) {i : Nat} (hphase : s.phase = .build i)
    (h : FitInv env s) : Ends (buildStep env i s) (FitInv env) fun _ => True := by
  obtain ⟨hpopulation, hchilds, hsized⟩ := h
  rw [hphase] at hsized
  obtain ⟨hle, hlength, hreadings⟩ := hsized
  by_cases hi : i < populationCount
  · refine (buildStep_spec henv hi).mono ?_ fun _ => False.elim
    rintro s' ⟨hphase', hreadings', hchilds', gene, hfit, hpopulation'⟩
    refine ⟨fun hearly => ?_, hchilds' ▸ hchilds, ?_⟩
    · rw [hpopulation']
      exact (hpopulation hearly).append (allFit_singleton hfit)
    · rw [hphase', hpopulation', List.length_append, hreadings', hlength]
      exact ⟨hi, rfl, hreadings⟩
  · rw [buildStep, if_neg hi]
    have hperm := env.sort_perm s.population
    refine ⟨fun hearly => (hpopulation hearly).of_subset hperm.subset, allFit_nil, ?_⟩
    change (env.sort s.population).length = populationCount ∧ 2 * populationCount ≤ s.readings
    rw [hperm.length_eq]
    omega

theorem evaluateStep_fit (henv : env.Encodes n) {i : Nat} (hphase : s.phase = .evaluate i)
    (hs : SearchInv n s) (h : FitInv env s) :
    Ends (evaluateStep env i s) (FitInv env) fun _ => True := by
  obtain ⟨hpopulation, hchilds, hsized⟩ := h
  rw [hphase] at hsized
  obtain ⟨hi, hlength, hreadings⟩ := hsized
  obtain hnil | ⟨genes, gene, hgenes⟩ := List.eq_nil_or_concat s.population
  · exact absurd hnil (hs.built i hphase)
  · rw [List.concat_eq_append] at hgenes
    have hgene : IsPerm n gene.perm := hs.population gene (by rw [hgenes]; simp)
    refine (evaluateStep_spec henv i hgenes hgene).mono ?_ fun _ => False.elim
    rintro s' ⟨hphase', hreadings', hchilds', gene', hpopulation', -, hfit⟩
    refine ⟨fun hearly => ?_, hchilds' ▸ hchilds, ?_⟩
    · have hclock : env.clock s.readings < 1800 * 1000000 :=
        (env.clock_mono (by omega)).trans_lt hearly
      have hinit : AllFit genes := (hpopulation hearly).of_subset (by rw [hgenes]; simp)
      rw [hpopulation']
      exact hinit.append (allFit_singleton (hfit hclock))
    · rw [hphase']
      split
      · trivial
      · have hlength' : s'.population.length = i + 1 := by
          rw [← hlength, hgenes, hpopulation', List.length_append, List.length_append]
          rfl
        exact ⟨hi, hlength', by omega⟩

theorem breedStep_fit {i : Nat} (hphase : s.phase = .breed i) (h : FitInv env s) :
    Ends (breedStep env i s) (FitInv env) fun _ => True := by
  obtain ⟨hpopulation, hchilds, hsized⟩ := h
  rw [hphase] at hsized
  have hlater : s.population.length = populationCount ∧ 2 * populationCount ≤ s.readings + 1 :=
    ⟨hsized.1, Nat.le_succ_of_le hsized.2⟩
  refine ends_ite.mpr ⟨fun _ => ends_ite.mpr ⟨fun _ => ?_, fun _ => ?_⟩, fun _ => ?_⟩
  · exact ⟨hpopulation, hchilds, hlater⟩
  · refine (ends_true _).bind fun _ _ => ?_
    refine (ends_true _).bind fun _ _ => ?_
    exact (ends_true _).bind fun _ _ => ⟨hpopulation, hchilds, hlater⟩
  · exact ⟨hpopulation, hchilds, hsized⟩

theorem mutateStep_fit {i : Nat} {child : Gene} (hphase : s.phase = .merged i child)
    (h : FitInv env s) : Ends (mutateStep env i child s) (FitInv env) fun _ => True := by
  obtain ⟨hpopulation, hchilds, hsized⟩ := h
  rw [hphase] at hsized
  refine (ends_true _).bind fun _ _ => ?_
  exact (ends_true _).bind fun _ _ => ⟨hpopulation, hchilds, hsized⟩

theorem childStep_fit (henv : env.Encodes n) {i : Nat} {child : Gene}
    (hphase : s.phase = .mutated i child) (hs : SearchInv n s) (h : FitInv env s) :
    Ends (childStep env i child s) (FitInv env) fun _ => True := by
  obtain ⟨hpopulation, hchilds, hsized⟩ := h
  rw [hphase] at hsized
  refine Ends.bind ((evalGene_spec henv (hs.child i child (.inr hphase))).mono (fun _ => id)
    fun _ => False.elim) fun out hspec => ?_
  rcases out with ⟨child', s'⟩
  obtain ⟨hreadings, hkept, hkept', hmark, hfit⟩ := hspec
  dsimp only at hreadings hkept hkept' hmark hfit ⊢
  have hpopulation' : Early env → AllFit s'.population := hkept ▸ hpopulation
  have hchilds' : AllFit s'.childs := hkept' ▸ hchilds
  have hlength : s'.population.length = populationCount := hkept ▸ hsized.1
  have hlater : 2 * populationCount ≤ s'.readings + 1 := by
    have := hsized.2
    omega
  rw [henv.program]
  refine ends_ite.mpr ⟨fun _ => ⟨hpopulation', hchilds', trivial⟩, fun hunmarked => ?_⟩
  have hnew : Fit child' := by
    apply hfit
    by_contra hlate
    exact hunmarked (hmark (by omega))
  refine ends_ite.mpr ⟨fun _ => ⟨hpopulation', hchilds', hlength, hlater⟩, fun _ => ?_⟩
  exact ⟨hpopulation', hchilds'.append (allFit_singleton hnew), hlength, hlater⟩

theorem replaceStep_fit (hphase : s.phase = .replace) (h : FitInv env s) :
    Ends (replaceStep env s) (FitInv env) fun _ => True := by
  obtain ⟨hpopulation, hchilds, hsized⟩ := h
  rw [hphase] at hsized
  refine ends_ite.mpr ⟨fun _ => ⟨hpopulation, hchilds, trivial⟩, fun _ => ?_⟩
  have hsorted : AllFit (env.sort s.childs) := hchilds.of_subset (env.sort_perm _).subset
  refine (resizeGenes_fit env.numberOfCells populationCount hsorted _).bind
    fun _ hnew => ?_
  refine ⟨fun _ => hnew.1, allFit_nil, ?_⟩
  dsimp only [isTimeout]
  split
  · trivial
  · have hread := hsized.2
    exact ⟨hnew.2, by omega⟩

theorem searchStep_fit (henv : env.Encodes n) (hs : SearchInv n s) (h : FitInv env s) :
    Ends (searchStep env s) (FitInv env) fun _ => True := by
  unfold searchStep
  split
  · exact buildStep_fit henv ‹_› h
  · exact evaluateStep_fit henv ‹_› hs h
  · exact breedStep_fit ‹_› h
  · exact mutateStep_fit ‹_› h
  · exact childStep_fit henv ‹_› hs h
  · exact replaceStep_fit ‹_› h
  · exact h

theorem Reached.fit (henv : env.Encodes n) {stream : Nat → UInt32} (h : Reached env stream s) :
    FitInv env s :=
  h.invariant henv.pos henv.numberOfCells
    (fun _ _ => ⟨fun _ => allFit_nil, allFit_nil, Nat.zero_le _, rfl, rfl⟩)
    fun _ hs hfit => searchStep_fit henv hs hfit

theorem reached_build (henv : env.Encodes n)
    (hclock : env.clock (2 * populationCount) < 1900 * 1000000) (stream : Nat → UInt32) {k : Nat}
    (hk : k ≤ populationCount) :
    ∃ s, Reached env stream s ∧ s.phase = .build k ∧
      (k = populationCount → ¬ Early env → ∃ gene ∈ s.population, gene.unfitness = -1) ∧
      (1800 * 1000000 ≤ env.clock 0 → AllMarked s.population) := by
  induction k with
  | zero =>
    obtain ⟨bytes, hencode, -⟩ := henv.encode Gene.unfilled (.inl rfl)
    exact ⟨_, ⟨_, startSearch_eq hencode stream, .refl⟩, rfl, fun hzero => absurd hzero (by decide),
      fun _ _ hgene => absurd hgene List.not_mem_nil⟩
  | succ k ih =>
    obtain ⟨s, hs, hphase, -, hmarked⟩ := ih (by omega)
    obtain ⟨s₁, hbuild, hphase₁, -, -, gene, -, hpopulation⟩ :=
      returns_iff.mp (@buildStep_spec env n s henv k (by omega))
    have hstep₁ : searchStep env s = .ok s₁ := by rw [searchStep, hphase]; exact hbuild
    have hs₁ := hs.step hstep₁
    have hsized := (hs₁.fit henv).sized
    rw [hphase₁] at hsized
    have hgene : IsPerm n gene.perm :=
      (hs₁.inv henv.pos henv.numberOfCells).population gene (by rw [hpopulation]; simp)
    obtain ⟨s₂, hevaluate, hphase₂, -, -, gene', hpopulation₂, hmark, -⟩ :=
      returns_iff.mp (evaluateStep_spec henv k hpopulation hgene)
    have hstep₂ : searchStep env s₁ = .ok s₂ := by rw [searchStep, hphase₁]; exact hevaluate
    have hreadings : s₁.readings = 2 * k := hsized.2.2
    have hintime : env.clock (s₁.readings + 1) < 1900 * 1000000 :=
      (env.clock_mono (by omega)).trans_lt hclock
    rw [if_neg (by omega)] at hphase₂
    refine ⟨s₂, hs₁.step hstep₂, hphase₂, fun hlast hlate => ⟨gene', ?_, hmark ?_⟩, ?_⟩
    · rw [hpopulation₂]
      simp
    · rw [Early, Nat.not_lt] at hlate
      rwa [hreadings, show k = populationCount - 1 by omega]
    · intro hfirst gene hgene
      rw [hpopulation₂] at hgene
      rcases List.mem_append.mp hgene with hold | hnew
      · exact hmarked hfirst gene hold
      · rw [List.mem_singleton.mp hnew]
        exact hmark (hfirst.trans (env.clock_mono (Nat.zero_le _)))

def Selects (env : SearchEnv) (s : Search) : Prop :=
  ∃ i, s.phase = .breed i ∧ i < childrenCount ∧ env.clock s.readings < 1900 * 1000000

/-- The first selection, when there is time for it. -/
theorem reached_selection (henv : env.Encodes n)
    (hclock : env.clock (2 * populationCount) < 1900 * 1000000) (stream : Nat → UInt32) :
    ∃ s, Reached env stream s ∧ Selects env s ∧ s.population.length = populationCount ∧
      (¬ Early env → ∃ gene ∈ s.population, gene.unfitness = -1) ∧
      (1800 * 1000000 ≤ env.clock 0 → AllMarked s.population) := by
  obtain ⟨s, hs, hphase, hmarked, hall⟩ :=
    reached_build henv hclock stream (Nat.le_refl populationCount)
  have hsized := (hs.fit henv).sized
  rw [hphase] at hsized
  have hperm := env.sort_perm s.population
  have hstep : searchStep env s =
      .ok { s with population := env.sort s.population, childs := [], phase := .breed 0 } := by
    rw [searchStep, hphase]
    rfl
  refine ⟨_, hs.step hstep, ⟨0, rfl, by decide, ?_⟩, hperm.length_eq.trans hsized.2.1, ?_, ?_⟩
  · change env.clock s.readings < _
    rwa [hsized.2.2]
  · intro hlate
    obtain ⟨gene, hgene, hunfitness⟩ := hmarked rfl hlate
    exact ⟨gene, hperm.mem_iff.mpr hgene, hunfitness⟩
  · exact fun hfirst gene hgene => hall hfirst gene (hperm.mem_iff.mp hgene)

end steps

end TonCompress.Evolve
