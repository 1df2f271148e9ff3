import TonCompress.Lib.Exec

/-! Genes of the cell-order search: a permutation of the cells with the length
it compresses to, and the operators that build, change and cross them. -/
namespace TonCompress.Evolve
open TonCompress.Lib

def populationCount : Nat := 10
def childrenCount : Nat := 100
def mutationCount : Nat := 5
def crossCount : Nat := 5
def notCrossCount : Nat := 1

inductive GeneSite where
  | perm | used | toPos | revB | population
  deriving DecidableEq, Repr

abbrev GeneExec := Exec GeneSite

/-- The outputs of the generator `rng`, and how many were drawn. -/
structure Rng where
  stream : Nat → UInt32
  drawn : Nat

/-- `rng() % n`; a zero modulus raises SIGFPE. -/
def Rng.drawMod (rng : Rng) (n : Nat) : GeneExec (Nat × Rng) :=
  if n = 0 then .error .abort
  else .ok ((rng.stream rng.drawn).toNat % n, { rng with drawn := rng.drawn + 1 })

structure Gene where
  perm : List Int
  unfitness : Int
  deriving DecidableEq, Repr

def swapAt (perm : List Int) (i j : Int) : GeneExec (List Int) := do
  let x ← vecGet .perm perm i
  let y ← vecGet .perm perm j
  let perm ← vecSet .perm perm i y
  vecSet .perm perm j x

def Gene.mutate (numberOfCells : Nat) : Nat → Gene → Rng → GeneExec (Gene × Rng)
  | 0, gene, rng => .ok (gene, rng)
  | cnt + 1, gene, rng => do
      let (i, rng) ← rng.drawMod numberOfCells
      let (j, rng) ← rng.drawMod numberOfCells
      let perm ← swapAt gene.perm i j
      Gene.mutate numberOfCells cnt { gene with perm } rng

def Gene.fresh (numberOfCells : Nat) (rng : Rng) : GeneExec (Gene × Rng) := do
  let perm := (List.range numberOfCells).map Int.ofNat
  let (cnt, rng) ← rng.drawMod 10
  let (gene, rng) ← Gene.mutate numberOfCells cnt ⟨perm, 1000000000⟩ rng
  let (flip, rng) ← rng.drawMod 2
  if flip ≠ 0 then return ({ gene with perm := gene.perm.reverse }, rng)
  else return (gene, rng)

/-- The constructor `Gene(false)`, whose empty `perm` leaves the cell order
alone. -/
def Gene.unfilled : Gene := ⟨[], 1000000000⟩

/-- The two cut points, drawn and put in order. -/
def drawCuts (n : Nat) (rng : Rng) : GeneExec (Nat × Nat × Rng) := do
  let (l, rng) ← rng.drawMod n
  let (r, rng) ← rng.drawMod n
  if l > r then return (r, l, rng) else return (l, r, rng)

/-- The loop over `[l, r]` that copies a segment of `a` and marks its values. -/
def copySegment (a : Gene) (l r : Nat) (perm : List Int) (used : List Bool) :
    GeneExec (List Int × List Bool) :=
  forRange l (r + 1) (perm, used) fun i (perm, used) => do
    let value ← vecGet .perm a.perm i
    let perm ← vecSet .perm perm i value
    let used ← vecSet .used used value true
    return (perm, used)

def reversePositions (n : Nat) (b : Gene) : GeneExec (List Int) :=
  forRange 0 n (List.replicate n 0) fun i revB => do
    let value ← vecGet .perm b.perm i
    vecSet .revB revB value i

def linkPositions (n : Nat) (a : Gene) (revB : List Int) : GeneExec (List Int) :=
  forRange 0 n (List.replicate n 0) fun i toPos => do
    let value ← vecGet .perm a.perm i
    let target ← vecGet .revB revB value
    vecSet .toPos toPos i target

/-- `while (perm[j] > -1) { path.push_back(j); j = to[j]; }` -/
def followPath (perm toPos : List Int) : Nat → Int → List Int → GeneExec (Int × List Int)
  | 0, _, _ => .error .outOfFuel
  | fuel + 1, j, path => do
      let value ← vecGet .perm perm j
      if value > -1 then
        let next ← vecGet .toPos toPos j
        followPath perm toPos fuel next (path ++ [j])
      else return (j, path)

structure PmxVars where
  perm : List Int
  used : List Bool
  toPos : List Int

/-- One round of `PMX`'s repair loop, at position `i` of the segment. -/
def pmxRepair (n : Nat) (b : Gene) (i : Nat) (vars : PmxVars) : GeneExec PmxVars := do
  let value ← vecGet .perm b.perm i
  let seen ← vecGet .used vars.used value
  if seen then return vars
  else
    let (j, path) ← followPath vars.perm vars.toPos (n + 1) i []
    let perm ← vecSet .perm vars.perm j value
    let used ← vecSet .used vars.used value true
    let toPos ← forEach path vars.toPos fun x toPos => vecSet .toPos toPos x j
    return ⟨perm, used, toPos⟩

/-- The last loop of `PMX`: positions still at -1 take their value from `b`. -/
def fillRest (n : Nat) (b : Gene) (perm : List Int) : GeneExec (List Int) :=
  forRange 0 n perm fun i perm => do
    let value ← vecGet .perm perm i
    if value = -1 then
      let value ← vecGet .perm b.perm i
      vecSet .perm perm i value
    else return perm

def pmxAt (a b : Gene) (l r : Nat) : GeneExec Gene := do
  let n := a.perm.length
  let revB ← reversePositions n b
  let toPos ← linkPositions n a revB
  let (perm, used) ← copySegment a l r (List.replicate n (-1)) (List.replicate n false)
  let vars ← forRange l (r + 1) ⟨perm, used, toPos⟩ (pmxRepair n b)
  let perm ← fillRest n b vars.perm
  return ⟨perm, 0⟩

def pmx (a b : Gene) (rng : Rng) : GeneExec (Gene × Rng) := do
  let (l, r, rng) ← drawCuts a.perm.length rng
  let child ← pmxAt a b l r
  return (child, rng)

/-- The refill loop of `OX1`, which skips the copied segment with its running
index `j`. -/
def ox1Refill (n : Nat) (b : Gene) (l r : Nat) (perm : List Int) (used : List Bool) :
    GeneExec (List Int × Nat) :=
  forRange 0 n (perm, 0) fun i (perm, j) => do
    let value ← vecGet .perm b.perm i
    let seen ← vecGet .used used value
    if seen then return (perm, j)
    else
      let j := if j = l then r + 1 else j
      let perm ← vecSet .perm perm j value
      return (perm, j + 1)

def ox1At (a b : Gene) (l r : Nat) : GeneExec Gene := do
  let n := a.perm.length
  let (perm, used) ← copySegment a l r (List.replicate n (-1)) (List.replicate n false)
  let (perm, _) ← ox1Refill n b l r perm used
  return ⟨perm, 0⟩

def ox1 (a b : Gene) (rng : Rng) : GeneExec (Gene × Rng) := do
  let (l, r, rng) ← drawCuts a.perm.length rng
  let child ← ox1At a b l r
  return (child, rng)

def merge (a b : Gene) (rng : Rng) : GeneExec (Gene × Rng) := do
  let (cross, rng) ← rng.drawMod (crossCount + notCrossCount)
  if cross < notCrossCount then return (a, rng)
  else
    let (pick, rng) ← rng.drawMod 2
    if pick ≠ 0 then pmx a b rng else ox1 a b rng

end TonCompress.Evolve
