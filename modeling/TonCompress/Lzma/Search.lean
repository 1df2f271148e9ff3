import TonCompress.Lzma.Symbols

/-! The search for matches. -/
namespace TonCompress.Lzma
open TonCompress.Lib

def lzLenMax : Nat := 273
def lzDistMaxPlus1 : Nat := 0x40000000
def hashLevel : Nat := 2
def hashN : Nat := 23
def hashMask : Nat := (1 <<< hashN) - 1
def invalidHashItem : Nat := 2 ^ 64 - 1

/-- `item hash i` is `hash_table[hash][i]`. -/
structure HashTable where
  item : Nat → Nat → Nat

def initHashTable : HashTable := ⟨fun _ _ => invalidHashItem⟩

def HashTable.set (table : HashTable) (hash i pos : Nat) : HashTable :=
  ⟨fun hash' i' => if hash' = hash ∧ i' = i then pos else table.item hash' i'⟩

def readSrc (src : List UInt8) (i : Int) : LzmaExec Nat := do
  let byte ← vecGet .src src i
  return byte.toNat

def getHash (src : List UInt8) (pos : Nat) : LzmaExec Nat := do
  if pos ≥ src.length ∨ pos + 1 = src.length ∨ pos + 2 = src.length then return 0
  else
    let third ← readSrc src ((pos + 2 : Nat) : Int)
    let second ← readSrc src ((pos + 1 : Nat) : Int)
    let first ← readSrc src (pos : Int)
    return ((third <<< 16) + (second <<< 8) + first) &&& hashMask

/-- The loop of `updateHashTable`: an empty item takes the position, else the
oldest one. -/
def updateHashTableLoop (table : HashTable) (hash pos : Nat) : Nat → Nat → Nat → Nat → HashTable
  | 0, _, oldestI, _ => table.set hash oldestI pos
  | n + 1, i, oldestI, oldestPos =>
      if table.item hash i = invalidHashItem then table.set hash i pos
      else if oldestPos > table.item hash i then
        updateHashTableLoop table hash pos n (i + 1) i (table.item hash i)
      else updateHashTableLoop table hash pos n (i + 1) oldestI oldestPos

def updateHashTable (src : List UInt8) (pos : Nat) (table : HashTable) : LzmaExec HashTable := do
  let hash ← getHash src pos
  if pos ≥ src.length then return table
  else return updateHashTableLoop table hash pos hashLevel 0 0 invalidHashItem

/-- The loop over `TABLE_THRESHOLDS`, from the last entry down to the second. -/
def distScore (dist : Nat) : Nat :=
  if dist ≤ 12 then 4
  else if dist ≤ 12 * 12 * 2 then 3
  else if dist ≤ 12 * 12 * 12 * 3 then 2
  else if dist ≤ 12 * 12 * 12 * 12 * 4 then 1
  else 0

def lenDistScore (len dist : Nat) (reps : Reps) : Nat :=
  let score :=
    if dist = reps.rep0 ∨ dist = reps.rep1 ∨ dist = reps.rep2 ∨ dist = reps.rep3 then 5
    else distScore dist
  if len < 2 then 8 + 5
  else if len = 2 then 8 + score + 1
  else 8 + score + len

/-- `for (j = 0; j < len_max; j++) if (p_src[pos + j] != p_src[ppos + j]) break;` -/
def matchLenLoop (src : List UInt8) (pos ppos : Nat) : Nat → Nat → LzmaExec Nat
  | 0, j => return j
  | n + 1, j => do
      let here ← readSrc src ((pos + j : Nat) : Int)
      let there ← readSrc src ((ppos + j : Nat) : Int)
      if here ≠ there then return j else matchLenLoop src pos ppos n (j + 1)

def lenMax (src : List UInt8) (pos : Nat) : Nat :=
  if src.length - pos < lzLenMax then src.length - pos else lzLenMax

/-- A candidate of `lzSearchMatch`. The two behind the hash table are the
positions just before `pos`, wrapped around below zero. -/
def candidatePos (table : HashTable) (hash pos i : Nat) : Nat :=
  if i < hashLevel then table.item hash i else (pos + 2 ^ 64 - (1 + (i - hashLevel))) % 2 ^ 64

/-- The reps that score a match without regard to them. -/
def Reps.none : Reps := ⟨0, 0, 0, 0⟩

def lzSearchMatch (src : List UInt8) (pos : Nat) (table : HashTable) : LzmaExec (Nat × Nat) := do
  let lenMax := lenMax src pos
  let hash ← getHash src pos
  let (_, len, dist) ←
    forRange 0 (hashLevel + 2) (lenDistScore 0 0xFFFFFFFF .none, 0, 0) fun i (score1, len, dist) => do
      let ppos := candidatePos table hash pos i
      if ppos ≠ invalidHashItem ∧ ppos < pos ∧ pos - ppos < lzDistMaxPlus1 then
        let j ← matchLenLoop src pos ppos lenMax 0
        let score2 := lenDistScore j (pos - ppos) .none
        if j ≥ 2 ∧ score1 < score2 then return (score2, j, pos - ppos)
        else return (score1, len, dist)
      else return (score1, len, dist)
  return (len, dist)

def lzSearchRep (src : List UInt8) (pos : Nat) (reps : Reps) (lenLimit : Nat) :
    LzmaExec (Nat × Nat) := do
  let lenMax := if lenMax src pos > lenLimit then lenLimit else lenMax src pos
  forEach [reps.rep0, reps.rep1, reps.rep2, reps.rep3] (0, 0) fun rep (len, dist) => do
    if rep ≤ pos then
      let j ← matchLenLoop src pos (pos - rep) lenMax 0
      if j ≥ 2 ∧ j > len then return (j, rep) else return (len, dist)
    else return (len, dist)

def lzSearch (src : List UInt8) (pos : Nat) (reps : Reps) (table : HashTable) :
    LzmaExec (Nat × Nat) := do
  let (rlen, rdist) ← lzSearchRep src pos reps 0xFFFFFFFF
  let (mlen, mdist) ← lzSearchMatch src pos table
  if lenDistScore rlen rdist reps ≥ lenDistScore mlen mdist reps then return (rlen, rdist)
  else return (mlen, mdist)

def isShortRep (src : List UInt8) (pos rep0 : Nat) : LzmaExec Bool := do
  if pos ≥ rep0 then
    let here ← readSrc src (pos : Int)
    let there ← readSrc src ((pos : Int) - rep0)
    return decide (here = there)
  else return false

end TonCompress.Lzma
