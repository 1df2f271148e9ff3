import TonCompress.Evolve.Moves
import TonCompress.Evolve.Selection
import TonCompress.Lib.Halting

/-! The search comes to its end soon after the clock passes its limit. -/
namespace TonCompress.Evolve
open TonCompress.Lib TonCompress.Lzma TonCompress.Boc

/-- `compress` from the first encoding to its return. -/
def runSearch (env : SearchEnv) (stream : Nat → UInt32) (fuel : Nat) : GeneExec Search := do
  let start ← startSearch env stream
  runUntil (fun s => s.phase = .returned) (searchStep env) fuel start

/-- Steps from a phase to the next look at the clock, or to the end. -/
def Phase.weight : Phase → Nat
  | .build _ => 3
  | .evaluate _ => 1
  | .breed _ => 2
  | .merged _ _ => 4
  | .mutated _ _ => 3
  | .replace => 1
  | .returned => 0

/-- A bound for the steps that are left when reading `last` finds the time over. -/
def Search.stepsLeft (last : Nat) (s : Search) : Nat := 3 * (last - s.readings) + s.phase.weight

section halting
variable {env : SearchEnv} {n last : Nat} {s t : Search} {stream : Nat → UInt32}

theorem lt_of_intime {timeout reading : Nat} (hlast : Late env timeout last)
    (hintime : ¬ Late env timeout reading) : reading < last := by
  by_contra hge
  exact hintime (hlast.mono (Nat.le_of_not_lt hge))

/-- No phase is entered again without a look at the clock. -/
theorem Moves.stepsLeft_lt (h : Moves env s t) (hlast : Late env 1900 last)
    (hrunning : s.phase ≠ .returned) : t.stepsLeft last < s.stepsLeft last := by
  unfold Search.stepsLeft
  cases h with
  | push phase | built phase | breedLate phase | bred phase | mutate phase | replaceLate phase =>
    rw [phase]
    dsimp only [Phase.weight]
    omega
  | evaluate phase population evaluated =>
    have hreadings := evaluated.frame.2.1
    rw [phase]
    dsimp only
    split
    · dsimp only [Phase.weight]
      omega
    · have hlt := lt_of_intime hlast ‹_›
      dsimp only [Phase.weight]
      omega
  | breed phase more intime =>
    have hlt := lt_of_intime hlast intime
    rw [phase]
    dsimp only [Phase.weight]
    omega
  | childPushed phase evaluated | childMarked phase evaluated | childLate phase evaluated
  | childKept phase evaluated =>
    have hreadings := evaluated.frame.2.1
    rw [phase]
    dsimp only [Phase.weight]
    omega
  | replaced phase intime resized =>
    have hlt := lt_of_intime hlast intime
    rw [phase]
    dsimp only
    split
    · dsimp only [Phase.weight]
      omega
    · have hlt' := lt_of_intime hlast ‹_›
      dsimp only [Phase.weight]
      omega
  | stay phase => exact absurd phase hrunning

theorem startSearch_stepsLeft {start : Search} (hstart : startSearch env stream = .ok start) :
    start.stepsLeft last = 3 * last + 3 := by
  obtain ⟨best, -, rfl⟩ := startSearch_ok hstart
  rfl

theorem runSearch_ends (hlast : Late env 1900 last) {stop : Stop GeneSite → Prop}
    (hfirst : Ends (startSearch env stream) (fun _ => True) stop)
    (hsteps : ∀ s, Reached env stream s → Ends (searchStep env s) (fun _ => True) stop)
    {fuel : Nat} (hfuel : 3 * last + 3 < fuel) :
    Ends (runSearch env stream fuel) (fun s => Reached env stream s ∧ s.phase = .returned) stop := by
  unfold runSearch
  cases hstart : startSearch env stream with
  | error reason => rwa [hstart] at hfirst
  | ok start =>
    refine @runUntil_ends _ _ _ _ _ (Reached env stream) (Search.stepsLeft last) stop
      (fun s hs hrunning => ?_) fuel start ⟨start, hstart, .refl⟩ ?_
    · refine ((hsteps s hs).and (ends_eq _)).mono (fun t ht => ?_) fun _ h => h.1
      exact ⟨hs.step ht.2, (searchStep_moves ht.2).stepsLeft_lt hlast hrunning⟩
    · rwa [startSearch_stepsLeft hstart]

end halting

section fair
variable {env : SearchEnv} {n : Nat} {s : Search} {gene : Gene} {stream : Nat → UInt32}

/-- The time that makes all selections fair: the initial population is evaluated before the
first limit, or it is not built before the second. -/
def Timely (env : SearchEnv) : Prop := Early env ∨ Late env 1900 (2 * populationCount)

theorem Reached.fairSelection (henv : env.Encodes n) (htimely : Timely env)
    (hs : Reached env stream s) (hselects : Selects env s) : FairSelection s.population := by
  obtain ⟨i, hphase, -, hclock⟩ := hselects
  obtain ⟨hpopulation, -, hsized⟩ := hs.fit henv
  rw [hphase] at hsized
  rcases htimely with hearly | hlate
  · exact (hpopulation hearly).fairSelection hsized.1
  · exact absurd (hlate.mono hsized.2) (Nat.not_le.mpr hclock)

theorem evalGene_returns (henv : env.Encodes n) (hgene : IsPerm n gene.perm) :
    Returns (evalGene env gene s) fun _ => True := by
  obtain ⟨bytes, hencode, -⟩ := henv.encode gene (.inr hgene)
  refine (evalGene_evaluated gene s).mono (fun _ _ => trivial) fun reason h => ?_
  cases h.2.symm.trans hencode

theorem getRandomByUnfittness_returns {population : List Gene} (h : FairSelection population)
    (rng : Rng) : Returns (getRandomByUnfittness population rng) fun out =>
      out.1 ∈ population := by
  obtain ⟨ind, rng', hindex, hlt⟩ := h.2.2 rng
  rw [getRandomByUnfittness, hindex, ok_bind]
  dsimp only
  rw [vecGet_natCast _ _ _ hlt, ok_bind]
  exact List.getElem_mem hlt

theorem searchStep_returns (henv : env.Encodes n) (htimely : Timely env)
    (hs : Reached env stream s) : Returns (searchStep env s) fun _ => True := by
  have hinv := hs.inv henv.pos henv.numberOfCells
  unfold searchStep
  split
  · rename_i i hphase
    unfold buildStep
    rw [henv.numberOfCells]
    refine ends_ite.mpr ⟨fun _ => ?_, fun _ => trivial⟩
    exact (fresh_isPerm s.rng henv.pos).bind fun _ _ => trivial
  · rename_i i hphase
    rw [evaluateStep, List.getLast?_eq_some_getLast (hinv.built i hphase)]
    exact (evalGene_returns henv (hinv.population _ (List.getLast_mem _))).bind fun _ _ => trivial
  · rename_i i hphase
    refine ends_ite.mpr ⟨fun hmore => ends_ite.mpr ⟨fun _ => trivial, fun hintime => ?_⟩,
      fun _ => trivial⟩
    have hselects : Selects env s :=
      ⟨i, hphase, hmore, Nat.lt_of_not_le fun hlate => hintime (decide_eq_true hlate)⟩
    have hfair := hs.fairSelection henv htimely hselects
    refine (getRandomByUnfittness_returns hfair s.rng).bind fun a ha => ?_
    refine (getRandomByUnfittness_returns hfair a.2).bind fun b hb => ?_
    exact (merge_isPerm b.2 henv.pos (hinv.population _ ha) (hinv.population _ hb)).bind
      fun _ _ => trivial
  · rename_i i child hphase
    unfold mutateStep
    rw [henv.numberOfCells]
    refine (drawMod_lt s.rng (by decide)).bind fun cnt _ => ?_
    exact (mutate_isPerm cnt.2 henv.pos cnt.1 (hinv.child i child (.inl hphase))).bind
      fun _ _ => trivial
  · rename_i i child hphase
    refine (evalGene_returns henv (hinv.child i child (.inr hphase))).bind fun out _ => ?_
    rw [henv.program]
    exact ends_ite.mpr ⟨fun _ => trivial, fun _ => ends_ite.mpr ⟨fun _ => trivial, fun _ => trivial⟩⟩
  · refine ends_ite.mpr ⟨fun _ => trivial, fun _ => ?_⟩
    rw [henv.numberOfCells]
    exact (resizeGenes_allPerms henv.pos populationCount (hinv.childs.sort env) _).bind
      fun _ _ => trivial
  · trivial

end fair

end TonCompress.Evolve
