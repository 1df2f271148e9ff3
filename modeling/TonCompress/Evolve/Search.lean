import TonCompress.Evolve.Gene
import TonCompress.Lib.Run
import Mathlib.Algebra.Order.Ring.Int

/-! The genetic search of `compress` as a machine: the population loop, the
children loop with its roulette selection, and the exits that the two time
limits open. `encode` stands for serialising the bag in a gene's order and
compressing the bytes. -/
namespace TonCompress.Evolve
open TonCompress.Lib

/-- The programs that run this search: `solution_evolve.cpp`, and
`solution_evolve_lzma_separate_header.cpp` with its second time limit. -/
inductive Program where
  | evolve | evolveLzma
  deriving DecidableEq, Repr

/-- What a run of the search depends on. `clock k` is the time in nanoseconds
that the `k`-th reading finds elapsed; `sort` is `std::sort` by `unfitness`. -/
structure SearchEnv where
  program : Program
  numberOfCells : Nat
  clock : Nat → Nat
  clock_mono : Monotone clock
  sort : List Gene → List Gene
  sort_perm : ∀ genes, (sort genes).Perm genes
  sort_sorted : ∀ genes, (sort genes).Pairwise fun a b => a.unfitness ≤ b.unfitness
  encode : Gene → Option (List UInt8)

inductive Phase where
  /-- at the head of the population loop -/
  | build (i : Nat)
  /-- a new gene is pushed, not yet evaluated -/
  | evaluate (i : Nat)
  /-- at the head of the children loop -/
  | breed (i : Nat)
  | merged (i : Nat) (child : Gene)
  | mutated (i : Nat) (child : Gene)
  /-- behind the children loop -/
  | replace
  | returned
  deriving DecidableEq, Repr

structure Search where
  rng : Rng
  readings : Nat
  best : List UInt8
  population : List Gene
  childs : List Gene
  phase : Phase

def isTimeout (env : SearchEnv) (timeout : Nat) (s : Search) : Bool × Search :=
  (decide (timeout * 1000000 ≤ env.clock s.readings), { s with readings := s.readings + 1 })

/-- `evalGene` without its time limit. -/
def evalBytes (env : SearchEnv) (gene : Gene) (s : Search) : GeneExec (Gene × Search) :=
  match env.encode gene with
  | none => .error .abort
  | some compressed =>
      let best := if compressed.length < s.best.length then compressed else s.best
      .ok ({ gene with unfitness := compressed.length }, { s with best })

def evalGene (env : SearchEnv) (gene : Gene) (s : Search) : GeneExec (Gene × Search) :=
  match env.program with
  | .evolve =>
      let (late, s) := isTimeout env 1900 s
      if late then .ok (gene, s) else evalBytes env gene s
  | .evolveLzma =>
      let (late, s) := isTimeout env 1800 s
      if late then .ok ({ gene with unfitness := -1 }, s) else evalBytes env gene s

def partialSums : Int → List Gene → List Int
  | _, [] => []
  | tot, gene :: genes => (tot + gene.unfitness) :: partialSums (tot + gene.unfitness) genes

def totUnfitness (genes : List Gene) : Int :=
  genes.foldl (fun tot gene => tot + gene.unfitness) 0

/-- `std::lower_bound` on `[first, first + len)`: the probe is the middle, and
the range halves. The first argument bounds the number of probes. -/
def lowerBoundGo (v : List Int) (value : Int) : Nat → Nat → Nat → Nat
  | 0, first, _ => first
  | fuel + 1, first, len =>
      if len = 0 then first
      else if v.getD (first + len / 2) 0 < value then
        lowerBoundGo v value fuel (first + len / 2 + 1) (len - len / 2 - 1)
      else lowerBoundGo v value fuel first (len / 2)

def lowerBound (v : List Int) (value : Int) : Nat :=
  lowerBoundGo v value v.length 0 v.length

/-- The index `get_random_by_unfittness` computes. The sum is converted to 64
unsigned bits for the modulus, since `rng()` has an unsigned type. -/
def rouletteIndex (population : List Gene) (rng : Rng) : GeneExec (Nat × Rng) := do
  let (rnd, rng) ← rng.drawMod (totUnfitness population % 2 ^ 64).toNat
  return (lowerBound (partialSums 0 population) rnd, rng)

def getRandomByUnfittness (population : List Gene) (rng : Rng) : GeneExec (Gene × Rng) := do
  let (ind, rng) ← rouletteIndex population rng
  let gene ← vecGet .population population ind
  return (gene, rng)

/-- `childs.resize(n)`: missing genes are default constructed. -/
def resizeGenes (numberOfCells n : Nat) (genes : List Gene) (rng : Rng) :
    GeneExec (List Gene × Rng) :=
  forRange genes.length n (genes.take n, rng) fun _ (genes, rng) => do
    let (gene, rng) ← Gene.fresh numberOfCells rng
    return (genes ++ [gene], rng)

/-- One round of the population loop up to `push_back`, or the loop's end. -/
def buildStep (env : SearchEnv) (i : Nat) (s : Search) : GeneExec Search :=
  if i < populationCount then do
    let (gene, rng) ← Gene.fresh env.numberOfCells s.rng
    return { s with rng, population := s.population ++ [gene], phase := .evaluate i }
  else
    return { s with population := env.sort s.population, childs := [], phase := .breed 0 }

def evaluateStep (env : SearchEnv) (i : Nat) (s : Search) : GeneExec Search :=
  match s.population.getLast? with
  | none => .error (.outOfRange .population)
  | some gene => do
      let (gene, s) ← evalGene env gene s
      let s := { s with population := s.population.dropLast ++ [gene] }
      let (late, s) := isTimeout env 1900 s
      return { s with phase := if late then .returned else .build (i + 1) }

def breedStep (env : SearchEnv) (i : Nat) (s : Search) : GeneExec Search :=
  if i < childrenCount then
    let (late, s) := isTimeout env 1900 s
    if late then return { s with phase := .replace }
    else do
      let (a, rng) ← getRandomByUnfittness s.population s.rng
      let (b, rng) ← getRandomByUnfittness s.population rng
      let (child, rng) ← merge a b rng
      return { s with rng, phase := .merged i child }
  else return { s with phase := .replace }

def mutateStep (env : SearchEnv) (i : Nat) (child : Gene) (s : Search) : GeneExec Search := do
  let (cnt, rng) ← s.rng.drawMod mutationCount
  let (child, rng) ← Gene.mutate env.numberOfCells cnt child rng
  return { s with rng, phase := .mutated i child }

/-- `evalGene(child)` and, in the program that marks unevaluated genes, the two
checks between it and `push_back`. -/
def childStep (env : SearchEnv) (i : Nat) (child : Gene) (s : Search) : GeneExec Search := do
  let (child, s) ← evalGene env child s
  match env.program with
  | .evolve => return { s with childs := s.childs ++ [child], phase := .breed (i + 1) }
  | .evolveLzma =>
      if child.unfitness = -1 then return { s with phase := .returned }
      else
        let (late, s) := isTimeout env 1900 s
        if late then return { s with phase := .replace }
        else return { s with childs := s.childs ++ [child], phase := .breed (i + 1) }

/-- From the end of the children loop to the head of the next round. -/
def replaceStep (env : SearchEnv) (s : Search) : GeneExec Search :=
  let (late, s) := isTimeout env 1900 s
  if late then return { s with phase := .returned }
  else do
    let (childs, rng) ← resizeGenes env.numberOfCells populationCount (env.sort s.childs) s.rng
    let s := { s with rng, population := childs, childs := [] }
    let (late, s) := isTimeout env 1900 s
    return { s with phase := if late then .returned else .breed 0 }

def searchStep (env : SearchEnv) (s : Search) : GeneExec Search :=
  match s.phase with
  | .build i => buildStep env i s
  | .evaluate i => evaluateStep env i s
  | .breed i => breedStep env i s
  | .merged i child => mutateStep env i child s
  | .mutated i child => childStep env i child s
  | .replace => replaceStep env s
  | .returned => return s

def startSearch (env : SearchEnv) (stream : Nat → UInt32) : GeneExec Search :=
  match env.encode Gene.unfilled with
  | none => .error .abort
  | some best => .ok ⟨⟨stream, 0⟩, 0, best, [], [], .build 0⟩

/-- The states of the run of `compress` on the random numbers `stream`. -/
def Reached (env : SearchEnv) (stream : Nat → UInt32) (s : Search) : Prop :=
  ∃ start, startSearch env stream = .ok start ∧ Reaches (searchStep env) start s

def Search.genes (s : Search) : List Gene :=
  s.population ++ s.childs ++
    match s.phase with
    | .merged _ child => [child]
    | .mutated _ child => [child]
    | _ => []

end TonCompress.Evolve
