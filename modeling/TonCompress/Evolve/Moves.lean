import TonCompress.Evolve.Lineage

/-! What one step of the search can do, for both programs and with all the data
that the step changes. -/
namespace TonCompress.Evolve
open TonCompress.Lib

/-- The milliseconds after which `evalGene` does not evaluate. -/
def Program.evalLimit : Program → Nat
  | .evolve => 1900
  | .evolveLzma => 1800

/-- The `unfitness` that `evalGene` leaves a gene that comes too late. -/
def Program.lateUnfitness (gene : Gene) : Program → Int
  | .evolve => gene.unfitness
  | .evolveLzma => -1

def Late (env : SearchEnv) (timeout reading : Nat) : Prop :=
  timeout * 1000000 ≤ env.clock reading

instance (env : SearchEnv) (timeout reading : Nat) : Decidable (Late env timeout reading) :=
  inferInstanceAs (Decidable (_ ≤ _))

theorem Late.mono {env : SearchEnv} {timeout reading reading' : Nat}
    (h : Late env timeout reading) (hle : reading ≤ reading') : Late env timeout reading' :=
  le_trans h (env.clock_mono hle)

def shorter (best compressed : List UInt8) : List UInt8 :=
  if compressed.length < best.length then compressed else best

/-- The two ends of a call of `evalGene`. -/
inductive Evaluated (env : SearchEnv) (gene : Gene) (s : Search) : Gene → Search → Prop where
  | late (late : Late env env.program.evalLimit s.readings) :
      Evaluated env gene s { gene with unfitness := env.program.lateUnfitness gene }
        { s with readings := s.readings + 1 }
  | intime {bytes : List UInt8} (intime : ¬ Late env env.program.evalLimit s.readings)
      (encode : env.encode gene = some bytes) :
      Evaluated env gene s { gene with unfitness := bytes.length }
        { s with readings := s.readings + 1, best := shorter s.best bytes }

/-- The steps of the search. -/
inductive Moves (env : SearchEnv) (s : Search) : Search → Prop where
  | push {i : Nat} {gene : Gene} {rng : Rng} (phase : s.phase = .build i)
      (more : i < populationCount) :
      Moves env s { s with rng, population := s.population ++ [gene], phase := .evaluate i }
  | built {i : Nat} (phase : s.phase = .build i) (done : populationCount ≤ i) :
      Moves env s { s with population := env.sort s.population, childs := [], phase := .breed 0 }
  | evaluate {i : Nat} {genes : List Gene} {gene gene' : Gene} {s' : Search}
      (phase : s.phase = .evaluate i) (population : s.population = genes ++ [gene])
      (evaluated : Evaluated env gene s gene' s') :
      Moves env s { s' with
        readings := s'.readings + 1
        population := genes ++ [gene']
        phase := if Late env 1900 s'.readings then .returned else .build (i + 1) }
  | breed {i : Nat} {child : Gene} {rng : Rng} (phase : s.phase = .breed i)
      (more : i < childrenCount) (intime : ¬ Late env 1900 s.readings) :
      Moves env s { s with rng, readings := s.readings + 1, phase := .merged i child }
  | breedLate {i : Nat} (phase : s.phase = .breed i) (more : i < childrenCount)
      (late : Late env 1900 s.readings) :
      Moves env s { s with readings := s.readings + 1, phase := .replace }
  | bred {i : Nat} (phase : s.phase = .breed i) (done : childrenCount ≤ i) :
      Moves env s { s with phase := .replace }
  | mutate {i : Nat} {child child' : Gene} {rng : Rng} (phase : s.phase = .merged i child) :
      Moves env s { s with rng, phase := .mutated i child' }
  | childPushed {i : Nat} {child child' : Gene} {s' : Search} (phase : s.phase = .mutated i child)
      (evaluated : Evaluated env child s child' s') (program : env.program = .evolve) :
      Moves env s { s' with childs := s'.childs ++ [child'], phase := .breed (i + 1) }
  | childMarked {i : Nat} {child child' : Gene} {s' : Search} (phase : s.phase = .mutated i child)
      (evaluated : Evaluated env child s child' s') :
      Moves env s { s' with phase := .returned }
  | childLate {i : Nat} {child child' : Gene} {s' : Search} (phase : s.phase = .mutated i child)
      (evaluated : Evaluated env child s child' s') (late : Late env 1900 s'.readings) :
      Moves env s { s' with readings := s'.readings + 1, phase := .replace }
  | childKept {i : Nat} {child child' : Gene} {s' : Search} (phase : s.phase = .mutated i child)
      (evaluated : Evaluated env child s child' s') (unmarked : child'.unfitness ≠ -1)
      (program : env.program = .evolveLzma) (intime : ¬ Late env 1900 s'.readings) :
      Moves env s { s' with
        readings := s'.readings + 1, childs := s'.childs ++ [child'], phase := .breed (i + 1) }
  | replaceLate (phase : s.phase = .replace) (late : Late env 1900 s.readings) :
      Moves env s { s with readings := s.readings + 1, phase := .returned }
  | replaced {genes : List Gene} {rng : Rng} (phase : s.phase = .replace)
      (intime : ¬ Late env 1900 s.readings)
      (resized : resizeGenes env.numberOfCells populationCount (env.sort s.childs) s.rng =
        .ok (genes, rng)) :
      Moves env s { s with
        rng, population := genes, childs := [], readings := s.readings + 2
        phase := if Late env 1900 (s.readings + 1) then .returned else .breed 0 }
  | stay (phase : s.phase = .returned) : Moves env s s

section moves
variable {env : SearchEnv} {n : Nat} {s t : Search} {gene gene' : Gene}

theorem evalGene_evaluated (gene : Gene) (s : Search) :
    Ends (evalGene env gene s) (fun out => Evaluated env gene s out.1 out.2)
      (fun reason => reason = .abort ∧ env.encode gene = none) := by
  have hbytes : ¬ Late env env.program.evalLimit s.readings →
      Ends (evalBytes env gene { s with readings := s.readings + 1 })
        (fun out => Evaluated env gene s out.1 out.2)
        (fun reason => reason = .abort ∧ env.encode gene = none) := by
    intro hintime
    unfold evalBytes
    split
    · exact ⟨rfl, ‹_›⟩
    · exact .intime hintime ‹_›
  have hlate := @Evaluated.late env gene s
  unfold evalGene
  cases hprogram : env.program with
  | evolve =>
    rw [hprogram] at hbytes hlate
    exact ends_ite.mpr ⟨fun h => hlate (of_decide_eq_true h), fun h => hbytes fun late =>
      h (decide_eq_true late)⟩
  | evolveLzma =>
    rw [hprogram] at hbytes hlate
    exact ends_ite.mpr ⟨fun h => hlate (of_decide_eq_true h), fun h => hbytes fun late =>
      h (decide_eq_true late)⟩

theorem Evaluated.frame {s' : Search} (h : Evaluated env gene s gene' s') :
    gene'.perm = gene.perm ∧ s'.readings = s.readings + 1 ∧ s'.population = s.population ∧
      s'.childs = s.childs ∧ s'.rng = s.rng := by
  cases h <;> exact ⟨rfl, rfl, rfl, rfl, rfl⟩

theorem buildStep_moves {i : Nat} (hphase : s.phase = .build i) :
    Ends (buildStep env i s) (Moves env s) fun _ => True := by
  refine ends_ite.mpr ⟨fun hmore => ?_, fun hdone => .built hphase (Nat.le_of_not_lt hdone)⟩
  exact (ends_true _).bind fun _ _ => .push hphase hmore

theorem evaluateStep_moves {i : Nat} (hphase : s.phase = .evaluate i) :
    Ends (evaluateStep env i s) (Moves env s) fun _ => True := by
  unfold evaluateStep
  split
  · trivial
  · rename_i gene hlast
    obtain ⟨genes, hgenes⟩ := List.getLast?_eq_some_iff.mp hlast
    refine Ends.bind ((evalGene_evaluated gene s).mono (fun _ => id) fun _ _ => trivial) ?_
    rintro ⟨gene', s'⟩ hevaluated
    have hmoves := Moves.evaluate hphase hgenes hevaluated
    have hpopulation : s'.population = s.population := hevaluated.frame.2.2.1
    have hdrop : s'.population.dropLast = genes := by
      rw [hpopulation, hgenes, List.dropLast_concat]
    dsimp only at hmoves ⊢
    simp only [isTimeout, ends_pure, hdrop, decide_eq_true_eq]
    exact hmoves

theorem breedStep_moves {i : Nat} (hphase : s.phase = .breed i) :
    Ends (breedStep env i s) (Moves env s) fun _ => True := by
  refine ends_ite.mpr ⟨fun hmore => ?_, fun hdone => .bred hphase (Nat.le_of_not_lt hdone)⟩
  refine ends_ite.mpr ⟨fun hlate => .breedLate hphase hmore (of_decide_eq_true hlate),
    fun hintime => ?_⟩
  refine (ends_true _).bind fun _ _ => ?_
  refine (ends_true _).bind fun _ _ => ?_
  exact (ends_true _).bind fun _ _ => .breed hphase hmore fun late => hintime (decide_eq_true late)

theorem mutateStep_moves {i : Nat} {child : Gene} (hphase : s.phase = .merged i child) :
    Ends (mutateStep env i child s) (Moves env s) fun _ => True := by
  refine (ends_true _).bind fun _ _ => ?_
  exact (ends_true _).bind fun _ _ => .mutate hphase

theorem childStep_moves {i : Nat} {child : Gene} (hphase : s.phase = .mutated i child) :
    Ends (childStep env i child s) (Moves env s) fun _ => True := by
  refine Ends.bind ((evalGene_evaluated child s).mono (fun _ => id) fun _ _ => trivial) ?_
  rintro ⟨child', s'⟩ hevaluated
  dsimp only at hevaluated ⊢
  split
  · exact .childPushed hphase hevaluated ‹_›
  · refine ends_ite.mpr ⟨fun _ => .childMarked hphase hevaluated, fun hunmarked => ?_⟩
    refine ends_ite.mpr ⟨fun hlate => .childLate hphase hevaluated (of_decide_eq_true hlate),
      fun hintime => ?_⟩
    exact .childKept hphase hevaluated hunmarked ‹_› fun late => hintime (decide_eq_true late)

theorem replaceStep_moves (hphase : s.phase = .replace) :
    Ends (replaceStep env s) (Moves env s) fun _ => True := by
  refine ends_ite.mpr ⟨fun hlate => .replaceLate hphase (of_decide_eq_true hlate),
    fun hintime => ?_⟩
  refine Ends.bind (ends_eq _) fun out hresized => ?_
  have hmoves := Moves.replaced hphase (fun late => hintime (decide_eq_true late)) hresized
  simp only [isTimeout, ends_pure, decide_eq_true_eq]
  exact hmoves

/-- A step of the search is one of its moves. -/
theorem searchStep_moves (hstep : searchStep env s = .ok t) : Moves env s t := by
  have hmoves : Ends (searchStep env s) (Moves env s) fun _ => True := by
    unfold searchStep
    split
    · exact buildStep_moves ‹_›
    · exact evaluateStep_moves ‹_›
    · exact breedStep_moves ‹_›
    · exact mutateStep_moves ‹_›
    · exact childStep_moves ‹_›
    · exact replaceStep_moves ‹_›
    · exact .stay ‹_›
  exact hmoves.of_ok hstep

end moves

end TonCompress.Evolve
