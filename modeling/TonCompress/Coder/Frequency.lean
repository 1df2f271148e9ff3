import TonCompress.Arith.Coder
import TonCompress.Lib.ObjExec
import Mathlib.Algebra.BigOperators.Group.List.Basic

/-! Frequency tables for any number of symbols. A table is an object: an exception
leaves it behind, and `SimpleFrequencyTable` fills its sums when they are first asked for. -/
namespace TonCompress.Coder
open TonCompress.Lib TonCompress.Arith

def uint32Max : Nat := 2 ^ 32 - 1

abbrev TableExec (τ : Type) := ObjExec Empty τ

/-- The class `FrequencyTable`, with the calls of its users. -/
class FrequencyTable (τ : Type) where
  getSymbolLimit : τ → Nat
  get (symbol : Nat) : TableExec τ Nat
  set (symbol freq : Nat) : TableExec τ Unit
  increment (symbol : Nat) : TableExec τ Unit
  getTotal : τ → Nat
  getLow (symbol : Nat) : TableExec τ Nat
  getHigh (symbol : Nat) : TableExec τ Nat

structure FlatFrequencyTable where
  numSymbols : Nat
  deriving DecidableEq, Repr

namespace FlatFrequencyTable

def new (numSyms : Nat) : ArithExec FlatFrequencyTable := do
  if numSyms < 1 then throw (.status "Number of symbols must be positive")
  return ⟨numSyms⟩

def checkSymbol (symbol : Nat) : TableExec FlatFrequencyTable Unit := do
  let table ← getThe FlatFrequencyTable
  if symbol ≥ table.numSymbols then throw (.status "Symbol out of range")

def unsupported : TableExec FlatFrequencyTable Unit := throw (.status "Unsupported operation")

instance : FrequencyTable FlatFrequencyTable where
  getSymbolLimit table := table.numSymbols
  get symbol := checkSymbol symbol >>= fun _ => pure 1
  set _ _ := unsupported
  increment _ := unsupported
  getTotal table := table.numSymbols
  getLow symbol := checkSymbol symbol >>= fun _ => pure symbol
  getHigh symbol := checkSymbol symbol >>= fun _ => pure ((symbol + 1) % 2 ^ 32)

end FlatFrequencyTable

/-- The two assertions of `set(symbol, freq)`, and the setting of `p`. -/
def setBinary (symbol freq : Nat) : TableExec BinaryFrequencyTable Unit := do
  if symbol ≠ 0 ∨ freq > total then throw .abort
  modify fun table => table.set freq

/-- The table for two symbols. Its `get` says 1 for both, whatever `p` is. -/
instance : FrequencyTable BinaryFrequencyTable where
  getSymbolLimit _ := BinaryFrequencyTable.symbolLimit
  get symbol := liftExec (BinaryFrequencyTable.checkSymbol symbol) >>= fun _ => pure 1
  set := setBinary
  increment _ := throw (.status "Unsupported operation")
  getTotal _ := total
  getLow symbol := getThe BinaryFrequencyTable >>= fun table => liftExec (table.getLow symbol)
  getHigh symbol := getThe BinaryFrequencyTable >>= fun table => liftExec (table.getHigh symbol)

structure SimpleFrequencyTable where
  frequencies : List Nat
  /-- empty until it is asked for -/
  cumulative : List Nat
  total : Nat
  deriving DecidableEq, Repr

namespace SimpleFrequencyTable

def vectorAt (v : List Nat) (i : Nat) : ArithExec Nat :=
  match v[i]? with
  | some value => .ok value
  | none => .error (.status "std::out_of_range")

def checkedAdd (x y : Nat) : ArithExec Nat :=
  if x > uint32Max - y then .error (.status "Arithmetic overflow") else .ok (x + y)

def pushSums : List Nat → Nat → TableExec SimpleFrequencyTable Nat
  | [], sum => pure sum
  | freq :: rest, sum => do
      let sum ← liftExec (checkedAdd freq sum)
      modify fun table => { table with cumulative := table.cumulative ++ [sum] }
      pushSums rest sum

def fillCumulative (checkTotal : Bool) : TableExec SimpleFrequencyTable Unit := do
  modify fun table => { table with cumulative := table.cumulative ++ [0] }
  let table ← getThe SimpleFrequencyTable
  let sum ← pushSums table.frequencies 0
  if checkTotal = true ∧ sum ≠ table.total then throw (.status "Assertion error")

def initCumulative (checkTotal : Bool) : TableExec SimpleFrequencyTable Unit := do
  let table ← getThe SimpleFrequencyTable
  if table.cumulative ≠ [] then return else fillCumulative checkTotal

def getLow (symbol : Nat) : TableExec SimpleFrequencyTable Nat := do
  initCumulative true
  let table ← getThe SimpleFrequencyTable
  liftExec (vectorAt table.cumulative symbol)

def getHigh (symbol : Nat) : TableExec SimpleFrequencyTable Nat := do
  initCumulative true
  let table ← getThe SimpleFrequencyTable
  liftExec (vectorAt table.cumulative ((symbol + 1) % 2 ^ 32))

def set (symbol freq : Nat) : TableExec SimpleFrequencyTable Unit := do
  let table ← getThe SimpleFrequencyTable
  let old ← liftExec (vectorAt table.frequencies symbol)
  if table.total < old then throw (.status "Assertion error")
  let total ← liftExec (checkedAdd (table.total - old) freq)
  modify fun table => ⟨table.frequencies.set symbol freq, [], total⟩

def increment (symbol : Nat) : TableExec SimpleFrequencyTable Unit := do
  let table ← getThe SimpleFrequencyTable
  let old ← liftExec (vectorAt table.frequencies symbol)
  if old = uint32Max then throw (.status "Arithmetic overflow")
  let total ← liftExec (checkedAdd table.total 1)
  modify fun table => ⟨table.frequencies.set symbol (old + 1), [], total⟩

instance : FrequencyTable SimpleFrequencyTable where
  getSymbolLimit table := table.frequencies.length % 2 ^ 32
  get symbol := getThe SimpleFrequencyTable >>= fun table =>
    liftExec (vectorAt table.frequencies symbol)
  set := set
  increment := increment
  getTotal table := table.total
  getLow := getLow
  getHigh := getHigh

/-- What both constructors do with the frequencies they have got. The total is not set before
the end, and not looked at. -/
def ofFrequencies (frequencies : List Nat) (size : Nat) : ArithExec SimpleFrequencyTable :=
  let run : TableExec SimpleFrequencyTable Nat :=
    initCumulative false >>= fun _ => getHigh (size - 1)
  match run ⟨frequencies, [], 0⟩ with
  | (.ok total, table) => .ok { table with total }
  | (.error reason, _) => .error reason

def new (freqs : List Nat) : ArithExec SimpleFrequencyTable :=
  if freqs.length > uint32Max - 1 then .error (.status "Too many symbols")
  else if freqs.length < 1 then .error (.status "At least 1 symbol needed")
  else ofFrequencies freqs freqs.length

def copyFrequencies {τ : Type} [FrequencyTable τ] (size : Nat) : TableExec τ (List Nat) :=
  forRange 0 size [] fun i frequencies =>
    FrequencyTable.get i >>= fun freq => pure (frequencies ++ [freq])

def copy {τ : Type} [FrequencyTable τ] (freqs : τ) : ArithExec SimpleFrequencyTable :=
  let size := FrequencyTable.getSymbolLimit freqs
  if size < 1 then .error (.status "At least 1 symbol needed")
  else if size > uint32Max - 1 then .error (.status "Too many symbols")
  else (copyFrequencies size freqs).1 >>= fun frequencies => ofFrequencies frequencies size

end SimpleFrequencyTable

end TonCompress.Coder
