import TonCompress.Evolve.Moves

/-! What a run of the search has tried: `best` is the shortest of it, and a
generation is made of the fittest children of the one before. -/
namespace TonCompress.Evolve
open TonCompress.Lib

def Search.candidate (s : Search) : Option Gene :=
  match s.phase with
  | .evaluate _ => s.population.getLast?
  | .mutated _ child => some child
  | _ => none

/-- The next step evaluates `gene`, in time, to `bytes`. -/
structure Evaluates (env : SearchEnv) (s : Search) (gene : Gene) (bytes : List UInt8) : Prop where
  candidate : s.candidate = some gene
  intime : env.clock s.readings < env.program.evalLimit * 1000000
  encode : env.encode gene = some bytes

/-- An encoding that the run has come to before `s`: the unsearched one, or that of a
gene evaluated on the way. -/
def Tried (env : SearchEnv) (stream : Nat → UInt32) (s : Search) (bytes : List UInt8) : Prop :=
  env.encode Gene.unfilled = some bytes ∨
    ∃ u t gene, Reached env stream u ∧ Evaluates env u gene bytes ∧ searchStep env u = .ok t ∧
      Reaches (searchStep env) t s

section best
variable {env : SearchEnv} {stream : Nat → UInt32} {s t : Search} {gene gene' : Gene}

theorem shorter_length (best compressed : List UInt8) :
    (shorter best compressed).length = min best.length compressed.length := by
  unfold shorter
  split <;> omega

theorem shorter_eq (best compressed : List UInt8) :
    shorter best compressed = best ∨ shorter best compressed = compressed := by
  unfold shorter
  split
  · exact .inr rfl
  · exact .inl rfl

theorem Evaluated.best {s' : Search} (h : Evaluated env gene s gene' s')
    (hcandidate : s.candidate = some gene) :
    (s'.best = s.best ∧ ∀ other bytes, ¬ Evaluates env s other bytes) ∨
      ∃ bytes, Evaluates env s gene bytes ∧ s'.best = shorter s.best bytes := by
  cases h with
  | late late => exact .inl ⟨rfl, fun _ _ h => absurd h.intime (Nat.not_lt.mpr late)⟩
  | intime intime encode => exact .inr ⟨_, ⟨hcandidate, Nat.lt_of_not_le intime, encode⟩, rfl⟩

/-- A step changes `best` by an evaluation alone. -/
theorem Moves.best (h : Moves env s t) :
    (t.best = s.best ∧ ∀ gene bytes, ¬ Evaluates env s gene bytes) ∨
      ∃ gene bytes, Evaluates env s gene bytes ∧ t.best = shorter s.best bytes := by
  have hnone : s.candidate = none → ∀ gene bytes, ¬ Evaluates env s gene bytes :=
    fun hcandidate gene bytes h => by simp [h.candidate] at hcandidate
  cases h with
  | push phase | built phase | breed phase | breedLate phase | bred phase | mutate phase
  | replaceLate phase | replaced phase | stay phase =>
    exact .inl ⟨rfl, hnone (by rw [Search.candidate, phase])⟩
  | evaluate phase population evaluated =>
    have hbest := evaluated.best (by rw [Search.candidate, phase, population, List.getLast?_concat])
    exact hbest.imp id fun ⟨bytes, hbytes⟩ => ⟨_, bytes, hbytes⟩
  | childPushed phase evaluated | childMarked phase evaluated | childLate phase evaluated
  | childKept phase evaluated =>
    have hbest := evaluated.best (by rw [Search.candidate, phase])
    exact hbest.imp id fun ⟨bytes, hbytes⟩ => ⟨_, bytes, hbytes⟩

theorem Tried.step {bytes : List UInt8} (h : Tried env stream s bytes)
    (hstep : searchStep env s = .ok t) : Tried env stream t bytes := by
  rcases h with hfirst | ⟨u, u', gene, hu, hevaluates, hnext, hreach⟩
  · exact .inl hfirst
  · exact .inr ⟨u, u', gene, hu, hevaluates, hnext, hreach.tail hstep⟩

structure Shortest (env : SearchEnv) (stream : Nat → UInt32) (s : Search) : Prop where
  tried : Tried env stream s s.best
  le : ∀ bytes, Tried env stream s bytes → s.best.length ≤ bytes.length

theorem Moves.best_length_le (h : Moves env s t) : t.best.length ≤ s.best.length := by
  rcases h.best with ⟨hsame, -⟩ | ⟨gene, bytes, -, hbest⟩
  · rw [hsame]
  · rw [hbest, shorter_length]
    exact Nat.min_le_left _ _

theorem best_length_antitone (h : Reaches (searchStep env) s t) :
    t.best.length ≤ s.best.length := by
  refine @Reaches.invariant _ _ _ (fun t => t.best.length ≤ s.best.length) _ _ h le_rfl
    fun u v hu hstep => ?_
  exact (searchStep_moves hstep).best_length_le.trans hu

theorem Moves.best_le_evaluated (h : Moves env s t) {bytes : List UInt8}
    (hevaluates : Evaluates env s gene bytes) : t.best.length ≤ bytes.length := by
  rcases h.best with ⟨-, hnone⟩ | ⟨other, bytes', hother, hbest⟩
  · exact absurd hevaluates (hnone gene bytes)
  · obtain rfl := Option.some.inj (hother.candidate.symm.trans hevaluates.candidate)
    obtain rfl := Option.some.inj (hother.encode.symm.trans hevaluates.encode)
    rw [hbest, shorter_length]
    exact Nat.min_le_right _ _

theorem Tried.of_step (hs : Reached env stream s) (h : Tried env stream s s.best)
    (hstep : searchStep env s = .ok t) : Tried env stream t t.best := by
  rcases (searchStep_moves hstep).best with ⟨hsame, -⟩ | ⟨gene, bytes, hevaluates, hbest⟩
  · rw [hsame]
    exact h.step hstep
  · rcases shorter_eq s.best bytes with hold | hnew
    · rw [hbest, hold]
      exact h.step hstep
    · rw [hbest, hnew]
      exact .inr ⟨s, t, gene, hs, hevaluates, hstep, .refl⟩

theorem Reached.tried_best (hs : Reached env stream s) : Tried env stream s s.best := by
  obtain ⟨start, hstart, hreach⟩ := hs
  have hfirst : Tried env stream start start.best := by
    obtain ⟨best, hencode, rfl⟩ := startSearch_ok hstart
    exact .inl hencode
  have hinv := @Reaches.invariant _ _ _ (fun s => Reached env stream s ∧ Tried env stream s s.best)
    _ _ hreach ⟨⟨start, hstart, .refl⟩, hfirst⟩ fun u v hu hstep =>
      ⟨hu.1.step hstep, hu.2.of_step hu.1 hstep⟩
  exact hinv.2

/-- The gene carries the length that its order was compressed to, and `best` is no longer. -/
def Measured (env : SearchEnv) (best : List UInt8) (gene : Gene) : Prop :=
  ∃ unfitness bytes, env.encode { gene with unfitness } = some bytes ∧
    gene.unfitness = bytes.length ∧ best.length ≤ bytes.length

def Phase.Bred (count : Nat) : Phase → Prop
  | .breed i => count = i ∧ i ≤ childrenCount
  | .merged i _ => count = i ∧ i < childrenCount
  | .mutated i _ => count = i ∧ i < childrenCount
  | .replace => count = childrenCount
  | _ => True

/-- The children of a generation, as long as there is time. -/
structure Brood (env : SearchEnv) (s : Search) : Prop where
  count : s.phase.Bred s.childs.length
  measured : ∀ child ∈ s.childs, Measured env s.best child

theorem Measured.mono {best best' : List UInt8} (h : Measured env best gene)
    (hle : best'.length ≤ best.length) : Measured env best' gene := by
  obtain ⟨unfitness, bytes, hencode, hlength, hbest⟩ := h
  exact ⟨unfitness, bytes, hencode, hlength, hle.trans hbest⟩

theorem Evaluated.measured {s' : Search} (h : Evaluated env gene s gene' s')
    (hintime : ¬ Late env env.program.evalLimit s.readings) : Measured env s'.best gene' := by
  cases h with
  | late late => exact absurd late hintime
  | @intime bytes intime encode =>
    refine ⟨gene.unfitness, bytes, encode, rfl, ?_⟩
    dsimp only
    rw [shorter_length]
    exact Nat.min_le_right _ _

theorem Evaluated.intime_of_unmarked {s' : Search} (h : Evaluated env gene s gene' s')
    (hprogram : env.program = .evolveLzma) (hunmarked : gene'.unfitness ≠ -1) :
    ¬ Late env env.program.evalLimit s.readings := by
  cases h with
  | late late =>
    rw [hprogram] at hunmarked
    exact absurd rfl hunmarked
  | intime intime encode => exact intime

theorem Evaluated.best_length_le {s' : Search} (h : Evaluated env gene s gene' s') :
    s'.best.length ≤ s.best.length := by
  cases h with
  | late late => exact le_rfl
  | intime intime encode =>
    dsimp only
    rw [shorter_length]
    exact Nat.min_le_left _ _

theorem Moves.readings_le (h : Moves env s t) : s.readings ≤ t.readings := by
  cases h with
  | evaluate phase population evaluated | childPushed phase evaluated
  | childMarked phase evaluated | childLate phase evaluated | childKept phase evaluated =>
    have hreadings := evaluated.frame.2.1
    dsimp only
    omega
  | breed | breedLate | replaceLate | replaced => exact Nat.le_add_right _ _
  | _ => exact le_rfl

theorem Brood.pushed {i : Nat} {child child' : Gene} {s' : Search} (h : Brood env s)
    (hphase : s.phase = .mutated i child) (hevaluated : Evaluated env child s child' s')
    (hchild : Measured env s'.best child') {readings : Nat} :
    Brood env { s' with readings, childs := s'.childs ++ [child'], phase := .breed (i + 1) } := by
  have hchilds := hevaluated.frame.2.2.2.1
  have hcount := h.count
  rw [hphase] at hcount
  obtain ⟨hlength, hmore⟩ := hcount
  refine ⟨?_, fun gene hgene => ?_⟩
  · change (s'.childs ++ [child']).length = i + 1 ∧ i + 1 ≤ childrenCount
    rw [List.length_append, hchilds, hlength]
    exact ⟨rfl, hmore⟩
  · rcases List.mem_append.mp hgene with hold | hnew
    · rw [hchilds] at hold
      exact (h.measured gene hold).mono hevaluated.best_length_le
    · rw [List.mem_singleton.mp hnew]
      exact hchild

theorem Moves.brood (h : Moves env s t) (hs : Late env 1900 s.readings ∨ Brood env s) :
    Late env 1900 t.readings ∨ Brood env t := by
  rcases hs with hlate | hbrood
  · exact .inl (hlate.mono h.readings_le)
  have hkept : ∀ child ∈ s.childs, Measured env t.best child := fun child hchild =>
    (hbrood.measured child hchild).mono h.best_length_le
  have hcount := hbrood.count
  cases h with
  | push phase more => exact .inr ⟨trivial, hkept⟩
  | built phase done => exact .inr ⟨⟨rfl, Nat.zero_le _⟩, fun _ h => absurd h List.not_mem_nil⟩
  | evaluate phase population evaluated =>
    refine .inr ⟨?_, evaluated.frame.2.2.2.1 ▸ hkept⟩
    dsimp only
    split <;> trivial
  | breed phase more intime =>
    rw [phase] at hcount
    exact .inr ⟨⟨hcount.1, more⟩, hkept⟩
  | breedLate phase more late => exact .inl (late.mono (Nat.le_succ _))
  | bred phase done =>
    rw [phase] at hcount
    exact .inr ⟨hcount.1.trans (le_antisymm hcount.2 done), hkept⟩
  | mutate phase =>
    rw [phase] at hcount
    exact .inr ⟨hcount, hkept⟩
  | childPushed phase evaluated program =>
    by_cases hlate : Late env 1900 s.readings
    · exact .inl (hlate.mono (Nat.le_of_lt (by dsimp only; rw [evaluated.frame.2.1]; omega)))
    · exact .inr (hbrood.pushed phase evaluated (evaluated.measured (by rw [program]; exact hlate)))
  | childMarked phase evaluated => exact .inr ⟨trivial, evaluated.frame.2.2.2.1 ▸ hkept⟩
  | childLate phase evaluated late => exact .inl (late.mono (Nat.le_succ _))
  | childKept phase evaluated unmarked program intime =>
    exact .inr (hbrood.pushed phase evaluated (evaluated.measured (evaluated.intime_of_unmarked program unmarked)))
  | replaceLate phase late => exact .inl (late.mono (Nat.le_succ _))
  | replaced phase intime resized =>
    refine .inr ⟨?_, fun _ h => absurd h List.not_mem_nil⟩
    dsimp only
    split
    · trivial
    · exact ⟨rfl, Nat.zero_le _⟩
  | stay phase => exact .inr hbrood

theorem Reached.brood (hs : Reached env stream s) :
    Late env 1900 s.readings ∨ Brood env s := by
  obtain ⟨start, hstart, hreach⟩ := hs
  refine @Reaches.invariant _ _ _ (fun s => Late env 1900 s.readings ∨ Brood env s) _ _ hreach ?_
    fun u v hu hstep => (searchStep_moves hstep).brood hu
  obtain ⟨best, -, rfl⟩ := startSearch_ok hstart
  exact .inr ⟨trivial, fun _ h => absurd h List.not_mem_nil⟩

theorem resizeGenes_take (cells : Nat) {count : Nat} {genes : List Gene} (rng : Rng)
    (hcount : count ≤ genes.length) :
    resizeGenes cells count genes rng = .ok (genes.take count, rng) := by
  rw [resizeGenes, forRange, Nat.sub_eq_zero_of_le hcount]
  rfl

/-- From the children of `s` to the population of `t`. -/
structure NextGeneration (env : SearchEnv) (s t : Search) : Prop where
  children : s.childs.length = childrenCount
  measured : ∀ child ∈ s.childs, Measured env s.best child
  /-- no gene had to be made anew -/
  rng : t.rng = s.rng
  count : t.population.length = populationCount
  sorted : t.population.Pairwise fun a b => a.unfitness ≤ b.unfitness
  fittest : ∃ rest, (t.population ++ rest).Perm s.childs ∧
    ∀ kept ∈ t.population, ∀ left ∈ rest, kept.unfitness ≤ left.unfitness

end best

/-- The search for an order of two cells, where the second cell should come last. -/
def pairSearch : SearchEnv := headSearch .evolveLzma 2

theorem pairSearch_replaces : ∃ s t, Reached pairSearch squareStream s ∧ s.phase = .replace ∧
    searchStep pairSearch s = .ok t ∧ t.phase = .breed 0 := by
  let run := startSearch pairSearch squareStream >>=
    runUntil (fun s => s.phase = .replace) (searchStep pairSearch) 400
  have hphase : ((run >>= searchStep pairSearch).toOption.map (·.phase)) = some (.breed 0) := by
    decide +kernel
  obtain ⟨t, hrun, hnext⟩ := Option.map_eq_some_iff.mp hphase
  cases hsteps : run >>= searchStep pairSearch with
  | error reason => rw [hsteps] at hrun; cases hrun
  | ok t' =>
    rw [hsteps] at hrun
    obtain rfl := Option.some.inj hrun
    obtain ⟨s, hs, hstep⟩ := bind_eq_ok.mp hsteps
    obtain ⟨start, hstart, hreach⟩ := bind_eq_ok.mp hs
    obtain ⟨hreach, hphase⟩ := runUntil_reaches hreach
    exact ⟨s, t', ⟨start, hstart, hreach⟩, hphase, hstep, hnext⟩


section runs
variable {env : SearchEnv} {stream : Nat → UInt32} {s t : Search}

/-- At every point of every run `best` is the shortest of what has been tried. -/
theorem best_shortest (hs : Reached env stream s) : Shortest env stream s := by
  refine ⟨hs.tried_best, ?_⟩
  rintro bytes (hfirst | ⟨u, t, gene, -, hevaluates, hstep, hreach⟩)
  · obtain ⟨start, hstart, hreach⟩ := hs
    obtain ⟨best, hencode, rfl⟩ := startSearch_ok hstart
    obtain rfl := Option.some.inj (hencode.symm.trans hfirst)
    exact best_length_antitone hreach
  · exact (best_length_antitone hreach).trans ((searchStep_moves hstep).best_le_evaluated hevaluates)

theorem best_shortest_pairSearch :
    ∃ s, Reached pairSearch squareStream s ∧ Shortest pairSearch squareStream s := by
  obtain ⟨s, -, hs, -⟩ := pairSearch_replaces
  exact ⟨s, hs, best_shortest hs⟩

/-- Whenever the search goes on with a new population, all children were bred and carry
the length that their own order was compressed to, and the population is the fittest
of them. -/
theorem newPopulation_fittest (hs : Reached env stream s) (hphase : s.phase = .replace)
    (hstep : searchStep env s = .ok t) (hnext : t.phase = .breed 0) : NextGeneration env s t := by
  cases searchStep_moves hstep with
  | replaced phase intime resized =>
    obtain hlate | hbrood := hs.brood
    · exact absurd hlate intime
    have hchildren := hbrood.count
    rw [hphase] at hchildren
    have hperm := env.sort_perm s.childs
    have hcount : populationCount ≤ (env.sort s.childs).length := by
      rw [hperm.length_eq, hchildren]
      decide
    rw [resizeGenes_take _ _ hcount] at resized
    obtain ⟨rfl, rfl⟩ := Prod.mk.inj (Except.ok.inj resized)
    have hsplit := (env.sort s.childs).take_append_drop populationCount
    have hsorted := env.sort_sorted s.childs
    rw [← hsplit] at hsorted hperm
    obtain ⟨hkept, -, hleft⟩ := List.pairwise_append.mp hsorted
    exact ⟨hchildren, hbrood.measured, rfl, List.length_take_of_le hcount, hkept, _, hperm, hleft⟩
  | replaceLate phase late => cases hnext
  | push phase | built phase | evaluate phase | breed phase | breedLate phase | bred phase
  | mutate phase | childPushed phase | childMarked phase | childLate phase | childKept phase
  | stay phase => cases hphase.symm.trans phase

theorem newPopulation_fittest_pairSearch : ∃ s t, NextGeneration pairSearch s t := by
  obtain ⟨s, t, hs, hphase, hstep, hnext⟩ := pairSearch_replaces
  exact ⟨s, t, newPopulation_fittest hs hphase hstep hnext⟩

end runs

end TonCompress.Evolve
