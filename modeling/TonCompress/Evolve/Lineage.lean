import TonCompress.Evolve.Ox1
import TonCompress.Evolve.Search
import TonCompress.Lib.Halting
import Mathlib.Data.List.Sort

/-! Every gene of a search descends from the identity by operators that keep
permutations, so each order tried is an order of all cells. -/
namespace TonCompress.Evolve
open TonCompress.Lib

section operators
variable {n : Nat} {a b gene : Gene} (rng : Rng)

theorem drawMod_lt (hn : 0 < n) : Returns (rng.drawMod n) fun out => out.1 < n := by
  rw [Rng.drawMod, if_neg (by omega)]
  exact Nat.mod_lt _ hn

theorem mutate_isPerm (hn : 0 < n) (cnt : Nat) (h : IsPerm n gene.perm) :
    Returns (Gene.mutate n cnt gene rng) fun out => IsPerm n out.1.perm := by
  induction cnt generalizing gene rng with
  | zero => exact h
  | succ cnt ih =>
    rw [Gene.mutate]
    refine (drawMod_lt rng hn).bind fun (i, rng) hi => ?_
    refine (drawMod_lt rng hn).bind fun (j, rng) hj => ?_
    refine (swapAt_isPerm h hi hj).bind fun perm hperm => ?_
    exact ih rng hperm

theorem fresh_isPerm (hn : 0 < n) :
    Returns (Gene.fresh n rng) fun out => IsPerm n out.1.perm := by
  rw [Gene.fresh]
  refine (drawMod_lt rng (by decide)).bind fun (cnt, rng) _ => ?_
  refine (mutate_isPerm rng hn cnt (isPerm_range n)).bind fun (gene, rng) hgene => ?_
  refine (drawMod_lt rng (by decide)).bind fun (flip, rng) _ => ?_
  dsimp only
  split
  · exact hgene.reverse
  · exact hgene

theorem drawCuts_ordered (hn : 0 < n) :
    Returns (drawCuts n rng) fun out => out.1 ≤ out.2.1 ∧ out.2.1 < n := by
  rw [drawCuts]
  refine (drawMod_lt rng hn).bind fun (l, rng) hl => ?_
  refine (drawMod_lt rng hn).bind fun (r, rng) hr => ?_
  dsimp only at hl hr ⊢
  split
  · exact ⟨by dsimp only; omega, hl⟩
  · exact ⟨by dsimp only; omega, hr⟩

variable {l r : Nat}

theorem pmxAt_isPerm (ha : IsPerm n a.perm) (hb : IsPerm n b.perm) (hlr : l ≤ r) (hr : r < n) :
    Returns (pmxAt a b l r) fun child => IsPerm n child.perm := by
  obtain ⟨A, hA⟩ := ha.exists_equiv
  obtain ⟨B, hB⟩ := hb.exists_equiv
  obtain ⟨perm, v⟩ := a
  obtain ⟨perm', w⟩ := b
  obtain rfl : perm = tableOf A := hA
  obtain rfl : perm' = tableOf B := hB
  refine (pmxAt_ends A B hlr hr v w).mono ?_ fun _ => id
  rintro child ⟨c, rfl, hc⟩
  exact isPerm_tableOf hc.injective

theorem ox1At_isPerm (ha : IsPerm n a.perm) (hb : IsPerm n b.perm) (hlr : l ≤ r) (hr : r < n) :
    Returns (ox1At a b l r) fun child => IsPerm n child.perm := by
  obtain ⟨A, hA⟩ := ha.exists_equiv
  obtain ⟨B, hB⟩ := hb.exists_equiv
  obtain ⟨perm, v⟩ := a
  obtain ⟨perm', w⟩ := b
  obtain rfl : perm = tableOf A := hA
  obtain rfl : perm' = tableOf B := hB
  refine (ox1At_ends A B hlr hr v w).mono ?_ fun _ => id
  rintro child ⟨c, rfl, hc⟩
  exact isPerm_tableOf (hc.injective hlr hr)

theorem pmx_isPerm (hn : 0 < n) (ha : IsPerm n a.perm) (hb : IsPerm n b.perm) :
    Returns (pmx a b rng) fun out => IsPerm n out.1.perm := by
  rw [pmx, ha.length_eq]
  refine (drawCuts_ordered rng hn).bind fun (l, r, rng) hcuts => ?_
  refine (pmxAt_isPerm ha hb hcuts.1 hcuts.2).bind fun child hchild => ?_
  exact hchild

theorem ox1_isPerm (hn : 0 < n) (ha : IsPerm n a.perm) (hb : IsPerm n b.perm) :
    Returns (ox1 a b rng) fun out => IsPerm n out.1.perm := by
  rw [ox1, ha.length_eq]
  refine (drawCuts_ordered rng hn).bind fun (l, r, rng) hcuts => ?_
  refine (ox1At_isPerm ha hb hcuts.1 hcuts.2).bind fun child hchild => ?_
  exact hchild

theorem merge_isPerm (hn : 0 < n) (ha : IsPerm n a.perm) (hb : IsPerm n b.perm) :
    Returns (merge a b rng) fun out => IsPerm n out.1.perm := by
  rw [merge]
  refine (drawMod_lt rng (by decide)).bind fun (cross, rng) _ => ?_
  dsimp only
  split
  · exact ha
  · refine (drawMod_lt rng (by decide)).bind fun (pick, rng) _ => ?_
    dsimp only
    split
    · exact pmx_isPerm rng hn ha hb
    · exact ox1_isPerm rng hn ha hb

end operators

def AllPerms (n : Nat) (genes : List Gene) : Prop :=
  ∀ gene ∈ genes, IsPerm n gene.perm

section lists
variable {n : Nat} {genes genes' : List Gene} {gene : Gene}

@[simp] theorem allPerms_nil : AllPerms n [] := by simp [AllPerms]

@[simp] theorem allPerms_append :
    AllPerms n (genes ++ genes') ↔ AllPerms n genes ∧ AllPerms n genes' := by
  simp only [AllPerms, List.mem_append]
  exact ⟨fun h => ⟨fun g hg => h g (.inl hg), fun g hg => h g (.inr hg)⟩,
    fun h g hg => hg.elim (h.1 g) (h.2 g)⟩

@[simp] theorem allPerms_singleton : AllPerms n [gene] ↔ IsPerm n gene.perm := by
  simp [AllPerms]

theorem AllPerms.of_subset (h : AllPerms n genes) (hsub : genes' ⊆ genes) : AllPerms n genes' :=
  fun gene hgene => h gene (hsub hgene)

theorem AllPerms.sort (env : SearchEnv) (h : AllPerms n genes) : AllPerms n (env.sort genes) :=
  h.of_subset (env.sort_perm genes).subset

theorem resizeGenes_allPerms (hn : 0 < n) (count : Nat) (h : AllPerms n genes) (rng : Rng) :
    Returns (resizeGenes n count genes rng) fun out => AllPerms n out.1 := by
  rw [resizeGenes]
  rcases Nat.le_total genes.length count with hle | hle
  · refine forRange_ends (fun _ (out : List Gene × Rng) => AllPerms n out.1) hle
      (h.of_subset (List.take_subset _ _)) fun i (genes, rng) _ _ hgenes => ?_
    refine (fresh_isPerm rng hn).bind fun (gene, rng) hgene => ?_
    exact allPerms_append.mpr ⟨hgenes, allPerms_singleton.mpr hgene⟩
  · rw [forRange, Nat.sub_eq_zero_of_le hle]
    exact h.of_subset (List.take_subset _ _)

end lists

/-- The stops of a search: a failing `move_as_ok`, a zero sum of unfitness, or
a roulette index past the population. -/
def SelectionStop (reason : Stop GeneSite) : Prop :=
  reason = .abort ∨ reason = .outOfRange .population

theorem getRandomByUnfittness_mem (population : List Gene) (rng : Rng) :
    Ends (getRandomByUnfittness population rng) (fun out => out.1 ∈ population)
      SelectionStop := by
  rw [getRandomByUnfittness, rouletteIndex, Rng.drawMod]
  split
  · exact .inl rfl
  · simp only [bind, Except.bind, pure, Except.pure]
    generalize lowerBound _ _ = ind
    rcases Nat.lt_or_ge ind population.length with hlt | hge
    · rw [vecGet_natCast _ _ _ hlt]
      exact List.getElem_mem hlt
    · rw [vecGet_error _ _ _ (by omega)]
      exact .inr rfl

structure SearchInv (n : Nat) (s : Search) : Prop where
  population : AllPerms n s.population
  childs : AllPerms n s.childs
  child : ∀ i gene, s.phase = .merged i gene ∨ s.phase = .mutated i gene → IsPerm n gene.perm
  built : ∀ i, s.phase = .evaluate i → s.population ≠ []

theorem SearchInv.genes {n : Nat} {s : Search} (h : SearchInv n s) : AllPerms n s.genes := by
  refine allPerms_append.mpr ⟨allPerms_append.mpr ⟨h.population, h.childs⟩, ?_⟩
  split
  · exact allPerms_singleton.mpr (h.child _ _ (.inl ‹_›))
  · exact allPerms_singleton.mpr (h.child _ _ (.inr ‹_›))
  · exact allPerms_nil

section steps
variable {env : SearchEnv} {n : Nat} {s : Search} {gene : Gene}

/-- `evalGene` changes what is known about a gene, never its order. -/
theorem evalGene_frame :
    Ends (evalGene env gene s)
      (fun out => out.1.perm = gene.perm ∧ out.2.population = s.population ∧
        out.2.childs = s.childs)
      SelectionStop := by
  have heval : ∀ s, Ends (evalBytes env gene s)
      (fun out => out.1.perm = gene.perm ∧ out.2.population = s.population ∧
        out.2.childs = s.childs) SelectionStop := by
    intro s
    rw [evalBytes]
    split
    · exact .inl rfl
    · exact ⟨rfl, rfl, rfl⟩
  unfold evalGene
  split
  · exact ends_ite.mpr ⟨fun _ => ⟨rfl, rfl, rfl⟩, fun _ => heval _⟩
  · exact ends_ite.mpr ⟨fun _ => ⟨rfl, rfl, rfl⟩, fun _ => heval _⟩

theorem buildStep_inv (hn : 0 < n) (hcells : env.numberOfCells = n) (i : Nat)
    (h : SearchInv n s) : Ends (buildStep env i s) (SearchInv n) SelectionStop := by
  subst hcells
  refine ends_ite.mpr ⟨fun _ => ?_, fun _ => ?_⟩
  · refine Ends.bind ((fresh_isPerm s.rng hn).mono (fun _ => id) nofun) fun (gene, rng) hgene => ?_
    exact ⟨allPerms_append.mpr ⟨h.population, allPerms_singleton.mpr hgene⟩, h.childs,
      by simp, by simp⟩
  · exact ⟨h.population.sort env, allPerms_nil, by simp, by simp⟩

theorem evaluateStep_inv {i : Nat} (hphase : s.phase = .evaluate i) (h : SearchInv n s) :
    Ends (evaluateStep env i s) (SearchInv n) SelectionStop := by
  rw [evaluateStep, List.getLast?_eq_some_getLast (h.built i hphase)]
  refine evalGene_frame.bind fun (gene, s') ⟨hgene, hpopulation, hchilds⟩ => ?_
  have hmem : IsPerm n gene.perm := hgene ▸ h.population _ (List.getLast_mem _)
  have hinit : AllPerms n s'.population.dropLast :=
    (hpopulation ▸ h.population).of_subset (List.dropLast_subset _)
  refine ⟨allPerms_append.mpr ⟨hinit, allPerms_singleton.mpr hmem⟩, hchilds ▸ h.childs, ?_, ?_⟩
  · intro j child
    dsimp only [isTimeout]
    split <;> simp
  · intro j
    dsimp only [isTimeout]
    split <;> simp

theorem breedStep_inv (hn : 0 < n) (i : Nat) (h : SearchInv n s) :
    Ends (breedStep env i s) (SearchInv n) SelectionStop := by
  refine ends_ite.mpr ⟨fun _ => ends_ite.mpr ⟨fun _ => ?_, fun _ => ?_⟩, fun _ => ?_⟩
  · exact ⟨h.population, h.childs, by simp, by simp⟩
  · refine (getRandomByUnfittness_mem _ _).bind fun (a, rng) ha => ?_
    refine (getRandomByUnfittness_mem _ _).bind fun (b, rng) hb => ?_
    refine Ends.bind ((merge_isPerm rng hn (h.population a ha) (h.population b hb)).mono
      (fun _ => id) nofun) fun (child, rng) hchild => ?_
    refine ⟨h.population, h.childs, ?_, by simp⟩
    rintro j gene (hphase | hphase)
    · obtain ⟨-, rfl⟩ := Phase.merged.inj hphase
      exact hchild
    · cases hphase
  · exact ⟨h.population, h.childs, by simp, by simp⟩

theorem mutateStep_inv (hn : 0 < n) (hcells : env.numberOfCells = n) {i : Nat}
    (hphase : s.phase = .merged i gene) (h : SearchInv n s) :
    Ends (mutateStep env i gene s) (SearchInv n) SelectionStop := by
  subst hcells
  refine Ends.bind ((drawMod_lt s.rng (by decide)).mono (fun _ => id) nofun)
    fun (cnt, rng) _ => ?_
  refine Ends.bind ((mutate_isPerm rng hn cnt (h.child i gene (.inl hphase))).mono
    (fun _ => id) nofun) fun (child, rng) hchild => ?_
  refine ⟨h.population, h.childs, ?_, by simp⟩
  rintro j gene (hphase | hphase)
  · cases hphase
  · obtain ⟨-, rfl⟩ := Phase.mutated.inj hphase
    exact hchild

theorem childStep_inv {i : Nat} (hphase : s.phase = .mutated i gene) (h : SearchInv n s) :
    Ends (childStep env i gene s) (SearchInv n) SelectionStop := by
  refine evalGene_frame.bind fun (child, s') ⟨hgene, hpopulation, hchilds⟩ => ?_
  have hpop : AllPerms n s'.population := hpopulation ▸ h.population
  have hold : AllPerms n s'.childs := hchilds ▸ h.childs
  have hchild : IsPerm n child.perm := hgene ▸ h.child i gene (.inr hphase)
  have hnew : AllPerms n (s'.childs ++ [child]) :=
    allPerms_append.mpr ⟨hold, allPerms_singleton.mpr hchild⟩
  dsimp only
  split
  · exact ⟨hpop, hnew, by simp, by simp⟩
  · refine ends_ite.mpr ⟨fun _ => ?_, fun _ => ends_ite.mpr ⟨fun _ => ?_, fun _ => ?_⟩⟩
    · exact ⟨hpop, hold, by simp, by simp⟩
    · exact ⟨hpop, hold, by simp, by simp⟩
    · exact ⟨hpop, hnew, by simp, by simp⟩

theorem replaceStep_inv (hn : 0 < n) (hcells : env.numberOfCells = n) (h : SearchInv n s) :
    Ends (replaceStep env s) (SearchInv n) SelectionStop := by
  subst hcells
  refine ends_ite.mpr ⟨fun _ => ⟨h.population, h.childs, by simp, by simp⟩, fun _ => ?_⟩
  refine Ends.bind ((resizeGenes_allPerms hn populationCount (h.childs.sort env) _).mono
    (fun _ => id) nofun) fun (childs, rng) hgenes => ?_
  refine ⟨hgenes, allPerms_nil, ?_, ?_⟩
  · intro j gene
    dsimp only [isTimeout]
    split <;> simp
  · intro j
    dsimp only [isTimeout]
    split <;> simp

theorem searchStep_inv (hn : 0 < n) (hcells : env.numberOfCells = n) (h : SearchInv n s) :
    Ends (searchStep env s) (SearchInv n) SelectionStop := by
  unfold searchStep
  split
  · exact buildStep_inv hn hcells _ h
  · exact evaluateStep_inv ‹_› h
  · exact breedStep_inv hn _ h
  · exact mutateStep_inv hn hcells ‹_› h
  · exact childStep_inv ‹_› h
  · exact replaceStep_inv hn hcells h
  · exact h

theorem startSearch_ok {stream : Nat → UInt32} {start : Search}
    (hstart : startSearch env stream = .ok start) : ∃ best, env.encode Gene.unfilled = some best ∧
      start = ⟨⟨stream, 0⟩, 0, best, [], [], .build 0⟩ := by
  unfold startSearch at hstart
  split at hstart
  · cases hstart
  · rename_i best hencode
    exact ⟨best, hencode, (Except.ok.inj hstart).symm⟩

theorem Reached.inv (hn : 0 < n) (hcells : env.numberOfCells = n) {stream : Nat → UInt32}
    (h : Reached env stream s) : SearchInv n s := by
  obtain ⟨start, hstart, hreach⟩ := h
  refine hreach.invariant ?_ fun s t hs hstep => (searchStep_inv hn hcells hs).of_ok hstep
  obtain ⟨best, -, rfl⟩ := startSearch_ok hstart
  exact ⟨allPerms_nil, allPerms_nil, by simp, by simp⟩

theorem Reached.step {t : Search} {stream : Nat → UInt32} (h : Reached env stream s)
    (hstep : searchStep env s = .ok t) : Reached env stream t := by
  obtain ⟨start, hstart, hreach⟩ := h
  exact ⟨start, hstart, hreach.tail hstep⟩

theorem Reached.invariant (hn : 0 < n) (hcells : env.numberOfCells = n) {stream : Nat → UInt32}
    {further : Search → Prop} (h : Reached env stream s)
    (hfirst : ∀ best, env.encode Gene.unfilled = some best →
      further ⟨⟨stream, 0⟩, 0, best, [], [], .build 0⟩)
    (hstep : ∀ s, SearchInv n s → further s →
      Ends (searchStep env s) further fun _ => True) : further s := by
  obtain ⟨start, hstart, hreach⟩ := h
  obtain ⟨best, hencode, rfl⟩ := startSearch_ok hstart
  have hboth := @Reaches.invariant _ _ _ (fun t => Reached env stream t ∧ further t) _ _ hreach
    ⟨⟨_, hstart, .refl⟩, hfirst best hencode⟩ fun t u ht hu =>
      ⟨ht.1.step hu, (hstep t (ht.1.inv hn hcells) ht.2).of_ok hu⟩
  exact hboth.2

end steps

/-- Every gene of a run with `n` cells is an order of the `n` cells: its
constructors and operators keep that for all parents and cuts, return without an
access outside their vectors, and no step of the search loses it. The only
vector a search can index out of range is the population, by roulette. -/
theorem every_gene_isPerm (n : Nat) (hn : 0 < n) :
    (∀ rng, Returns (Gene.fresh n rng) fun out => IsPerm n out.1.perm) ∧
    (∀ cnt gene rng, IsPerm n gene.perm →
      Returns (Gene.mutate n cnt gene rng) fun out => IsPerm n out.1.perm) ∧
    (∀ a b l r, IsPerm n a.perm → IsPerm n b.perm → l ≤ r → r < n →
      Returns (pmxAt a b l r) (fun child => IsPerm n child.perm) ∧
      Returns (ox1At a b l r) (fun child => IsPerm n child.perm)) ∧
    (∀ a b rng, IsPerm n a.perm → IsPerm n b.perm →
      Returns (pmx a b rng) (fun out => IsPerm n out.1.perm) ∧
      Returns (ox1 a b rng) (fun out => IsPerm n out.1.perm) ∧
      Returns (merge a b rng) (fun out => IsPerm n out.1.perm)) ∧
    (∀ env stream s, env.numberOfCells = n → Reached env stream s →
      (∀ gene ∈ s.genes, IsPerm n gene.perm) ∧
      ∀ reason, searchStep env s = .error reason → SelectionStop reason) := by
  refine ⟨fun rng => fresh_isPerm rng hn, fun cnt gene rng => mutate_isPerm rng hn cnt,
    fun a b l r ha hb hlr hr => ⟨pmxAt_isPerm ha hb hlr hr, ox1At_isPerm ha hb hlr hr⟩,
    fun a b rng ha hb => ⟨pmx_isPerm rng hn ha hb, ox1_isPerm rng hn ha hb,
      merge_isPerm rng hn ha hb⟩, fun env stream s hcells hs => ?_⟩
  have hinv := hs.inv hn hcells
  exact ⟨hinv.genes, fun reason => (searchStep_inv hn hcells hinv).of_error⟩

/-- A search among the orders of some cells, in which the first cell decides how long an
order's encoding is. -/
def headSearch (program : Program) (numberOfCells : Nat) : SearchEnv where
  program := program
  numberOfCells := numberOfCells
  clock _ := 0
  clock_mono := monotone_const
  sort genes := genes.insertionSort fun a b => a.unfitness ≤ b.unfitness
  sort_perm genes := List.perm_insertionSort _ genes
  sort_sorted genes := by
    have : Std.Total fun a b : Gene => a.unfitness ≤ b.unfitness :=
      ⟨fun a b => le_total a.unfitness b.unfitness⟩
    have : IsTrans Gene fun a b => a.unfitness ≤ b.unfitness := ⟨fun a b c => le_trans⟩
    exact List.pairwise_insertionSort _ genes
  encode gene := some (List.replicate (1 + (gene.perm.headD 0).toNat) 0)

def squareStream (k : Nat) : UInt32 := UInt32.ofNat (k * k)

theorem headSearch_breeds :
    ∃ s, Reached (headSearch .evolve 4) squareStream s ∧ s.childs.length = 3 := by
  let run := startSearch (headSearch .evolve 4) squareStream >>=
    runUntil (fun s => s.childs.length = 3) (searchStep (headSearch .evolve 4)) 60
  have hreturns : run.toOption.isSome := by decide +kernel
  cases hrun : run with
  | error reason => rw [hrun] at hreturns; cases hreturns
  | ok s =>
    obtain ⟨start, hstart, hsteps⟩ := bind_eq_ok.mp hrun
    obtain ⟨hreach, hchilds⟩ := runUntil_reaches hsteps
    exact ⟨s, ⟨start, hstart, hreach⟩, hchilds⟩

/-- Two orders of four cells and the cuts between them, and the run up to its third child. -/
theorem every_gene_isPerm_four :
    Returns (Gene.fresh 4 ⟨squareStream, 0⟩) (fun out => IsPerm 4 out.1.perm) ∧
    Returns (Gene.mutate 4 3 ⟨[2, 0, 3, 1], 0⟩ ⟨squareStream, 0⟩)
      (fun out => IsPerm 4 out.1.perm) ∧
    Returns (pmxAt ⟨[2, 0, 3, 1], 0⟩ ⟨[3, 2, 1, 0], 0⟩ 1 2) (fun child => IsPerm 4 child.perm) ∧
    Returns (ox1At ⟨[2, 0, 3, 1], 0⟩ ⟨[3, 2, 1, 0], 0⟩ 1 2) (fun child => IsPerm 4 child.perm) ∧
    Returns (merge ⟨[2, 0, 3, 1], 0⟩ ⟨[3, 2, 1, 0], 0⟩ ⟨squareStream, 0⟩)
      (fun out => IsPerm 4 out.1.perm) ∧
    ∃ s, Reached (headSearch .evolve 4) squareStream s ∧ s.childs.length = 3 ∧
      ∀ gene ∈ s.genes, IsPerm 4 gene.perm := by
  have hfirst : IsPerm 4 [2, 0, 3, 1] := by decide
  have hsecond : IsPerm 4 [3, 2, 1, 0] := by decide
  obtain ⟨hfresh, hmutate, hcuts, hmerge, hrun⟩ := every_gene_isPerm 4 (by decide)
  obtain ⟨hpmx, hox1⟩ := hcuts ⟨[2, 0, 3, 1], 0⟩ ⟨[3, 2, 1, 0], 0⟩ 1 2 hfirst hsecond (by decide)
    (by decide)
  obtain ⟨s, hs, hchilds⟩ := headSearch_breeds
  exact ⟨hfresh _, hmutate 3 _ _ hfirst, hpmx, hox1,
    (hmerge _ _ ⟨squareStream, 0⟩ hfirst hsecond).2.2, s, hs, hchilds, (hrun _ _ s rfl hs).1⟩

end TonCompress.Evolve
