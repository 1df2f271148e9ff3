import TonCompress.Coder.Frequency
import Mathlib.Algebra.Order.BigOperators.Group.List

/-! What a frequency table is for: a list of counts that can be asked for sums. The table
with its sums filled on demand does not differ from one without, over any calls. -/
namespace TonCompress.Coder
open TonCompress.Lib TonCompress.Arith

/-- Frequencies whose number and sum stay in their types. -/
structure Counts where
  list : List Nat
  nonempty : list ≠ []
  length_le : list.length ≤ uint32Max - 1
  sum_le : list.sum ≤ uint32Max

namespace Counts

def below (counts : Counts) (symbol : Nat) : Nat := (counts.list.take symbol).sum

variable (counts : Counts)

@[simp] theorem below_zero : counts.below 0 = 0 := rfl

theorem below_length : counts.below counts.list.length = counts.list.sum := by
  rw [below, List.take_length]

theorem below_mono {symbol symbol' : Nat} (h : symbol ≤ symbol') :
    counts.below symbol ≤ counts.below symbol' :=
  ((List.take_prefix_take_left h).sublist).sum_le_sum fun _ _ => Nat.zero_le _

theorem below_le (symbol : Nat) : counts.below symbol ≤ counts.list.sum :=
  (List.take_sublist symbol counts.list).sum_le_sum fun _ _ => Nat.zero_le _

def withCount (symbol freq : Nat) (h : (counts.list.set symbol freq).sum ≤ uint32Max) : Counts where
  list := counts.list.set symbol freq
  nonempty := by simpa using counts.nonempty
  length_le := by simpa using counts.length_le
  sum_le := h

def outOfRange {α : Type} : TableExec Counts α := throw (.status "std::out_of_range")

def askBelow (symbol : Nat) : TableExec Counts Nat := do
  let counts ← getThe Counts
  if symbol ≤ counts.list.length then return counts.below symbol else outOfRange

theorem askBelow_eq (symbol : Nat) :
    askBelow symbol counts = (if symbol ≤ counts.list.length then .ok (counts.below symbol)
      else .error (.status "std::out_of_range"), counts) := by
  change (if symbol ≤ counts.list.length then pure (counts.below symbol) else outOfRange :
    TableExec Counts Nat) counts = _
  split <;> rfl

def changeCount (symbol : Nat) (change : Nat → Nat) : TableExec Counts Unit := do
  let counts ← getThe Counts
  if h : symbol < counts.list.length then
    if hsum : (counts.list.set symbol (change counts.list[symbol])).sum ≤ uint32Max then
      modify fun _ => counts.withCount symbol (change counts.list[symbol]) hsum
    else throw (.status "Arithmetic overflow")
  else outOfRange

theorem changeCount_eq {counts : Counts} {symbol : Nat} {change : Nat → Nat}
    (h : symbol < counts.list.length) :
    changeCount symbol change counts =
      if hsum : (counts.list.set symbol (change counts.list[symbol])).sum ≤ uint32Max then
        (.ok (), counts.withCount symbol (change counts.list[symbol]) hsum)
      else (.error (.status "Arithmetic overflow"), counts) := by
  change (dite _ _ _ : TableExec Counts Unit) counts = _
  rw [dif_pos h]
  split <;> rfl

theorem changeCount_error {counts : Counts} {symbol : Nat} {change : Nat → Nat}
    (h : ¬ symbol < counts.list.length) :
    changeCount symbol change counts = (.error (.status "std::out_of_range"), counts) := by
  change (dite _ _ _ : TableExec Counts Unit) counts = _
  rw [dif_neg h]
  rfl

instance : FrequencyTable Counts where
  getSymbolLimit counts := counts.list.length
  get symbol := getThe Counts >>= fun counts =>
    if h : symbol < counts.list.length then pure counts.list[symbol] else outOfRange
  set symbol freq := changeCount symbol fun _ => freq
  increment symbol := changeCount symbol (· + 1)
  getTotal counts := counts.list.sum
  getLow symbol := askBelow symbol
  getHigh symbol := askBelow ((symbol + 1) % 2 ^ 32)

end Counts

/-- A call of one method by a user of the table. -/
inductive Call where
  | getSymbolLimit
  | get (symbol : UInt32)
  | set (symbol freq : UInt32)
  | increment (symbol : UInt32)
  | getTotal
  | getLow (symbol : UInt32)
  | getHigh (symbol : UInt32)
  deriving DecidableEq, Repr

/-- What a call gives back: a value, nothing, or an exception. -/
abbrev Outcome := Except (Stop Empty) (Option Nat)

section calls
variable {τ : Type} [FrequencyTable τ]

def Call.run (table : τ) : Call → Outcome × τ
  | .getSymbolLimit => (.ok (some (FrequencyTable.getSymbolLimit table)), table)
  | .get symbol => ((FrequencyTable.get symbol.toNat : TableExec τ Nat) >>= fun x => pure (some x)) table
  | .set symbol freq =>
      ((FrequencyTable.set symbol.toNat freq.toNat : TableExec τ Unit) >>= fun _ => pure none) table
  | .increment symbol =>
      ((FrequencyTable.increment symbol.toNat : TableExec τ Unit) >>= fun _ => pure none) table
  | .getTotal => (.ok (some (FrequencyTable.getTotal table)), table)
  | .getLow symbol =>
      ((FrequencyTable.getLow symbol.toNat : TableExec τ Nat) >>= fun x => pure (some x)) table
  | .getHigh symbol =>
      ((FrequencyTable.getHigh symbol.toNat : TableExec τ Nat) >>= fun x => pure (some x)) table

def runCalls : List Call → τ → List Outcome × τ
  | [], table => ([], table)
  | call :: calls, table =>
      let (outcome, table) := call.run table
      let (outcomes, table) := runCalls calls table
      (outcome :: outcomes, table)

end calls

def prefixSums (list : List Nat) : List Nat :=
  (List.range (list.length + 1)).map fun i => (list.take i).sum

namespace SimpleFrequencyTable

/-- The table stands for these counts, its sums filled or not. -/
structure Represents (table : SimpleFrequencyTable) (counts : Counts) : Prop where
  frequencies : table.frequencies = counts.list
  total : table.total = counts.list.sum
  cumulative : table.cumulative = [] ∨ table.cumulative = prefixSums counts.list

section refinement
variable {table : SimpleFrequencyTable} {counts : Counts}

theorem checkedAdd_eq {x y : Nat} (h : x + y ≤ uint32Max) : checkedAdd x y = .ok (x + y) :=
  if_neg (by omega)

theorem checkedAdd_overflow {x y : Nat} (hy : y ≤ uint32Max) (h : uint32Max < x + y) :
    checkedAdd x y = .error (.status "Arithmetic overflow") :=
  if_pos (by omega)

theorem prefixSums_append (list : List Nat) (freq : Nat) :
    prefixSums (list ++ [freq]) = prefixSums list ++ [(list ++ [freq]).sum] := by
  unfold prefixSums
  rw [List.length_append, List.length_singleton, List.range_succ, List.map_append,
    List.map_singleton]
  congr 1
  · apply List.map_congr_left
    intro i hi
    rw [List.take_append_of_le_length (Nat.le_of_lt_succ (List.mem_range.mp hi))]
  · rw [List.take_of_length_le (by simp)]

theorem pushSums_eq (rest done : List Nat) (hsum : (done ++ rest).sum ≤ uint32Max) :
    pushSums rest done.sum { table with cumulative := prefixSums done } =
      (.ok (done ++ rest).sum, { table with cumulative := prefixSums (done ++ rest) }) := by
  induction rest generalizing done with
  | nil => simp [pushSums]; rfl
  | cons freq rest ih =>
    have hadd : checkedAdd freq done.sum = .ok (done ++ [freq]).sum := by
      rw [checkedAdd_eq, List.sum_append, List.sum_singleton, Nat.add_comm]
      rw [List.sum_append, List.sum_cons] at hsum
      omega
    have hstep := ih (done ++ [freq]) (by simpa using hsum)
    rw [List.append_assoc, List.singleton_append] at hstep
    rw [← hstep, prefixSums_append, pushSums, hadd]
    rfl

theorem prefixSums_ne_nil (list : List Nat) : prefixSums list ≠ [] := by
  simp [prefixSums]

theorem fillCumulative_eq (checkTotal : Bool) {list : List Nat}
    (hfrequencies : table.frequencies = list) (hempty : table.cumulative = [])
    (hsum : list.sum ≤ uint32Max) (htotal : checkTotal = true → table.total = list.sum) :
    fillCumulative checkTotal table = (.ok (), { table with cumulative := prefixSums list }) := by
  subst hfrequencies
  have hpush : pushSums table.frequencies 0 { table with cumulative := prefixSums [] } =
      (.ok table.frequencies.sum, { table with cumulative := prefixSums table.frequencies }) :=
    @pushSums_eq table table.frequencies [] hsum
  have hcheck : ¬ (checkTotal = true ∧ table.frequencies.sum ≠ table.total) := fun h => h.2 (htotal h.1).symm
  have hstart : ({ table with cumulative := table.cumulative ++ [0] } : SimpleFrequencyTable) =
      { table with cumulative := prefixSums [] } := by
    rw [hempty]
    rfl
  change (pushSums table.frequencies 0 >>= fun sum =>
    if checkTotal = true ∧ sum ≠ table.total then throw (.status "Assertion error") else pure ())
      { table with cumulative := table.cumulative ++ [0] } = _
  rw [hstart, run_bind_ok hpush, if_neg hcheck]
  rfl

theorem Represents.init_eq (h : Represents table counts) (checkTotal : Bool) :
    initCumulative checkTotal table =
      (.ok (), { table with cumulative := prefixSums counts.list }) := by
  change (if table.cumulative ≠ [] then pure () else fillCumulative checkTotal :
    TableExec SimpleFrequencyTable Unit) table = _
  rcases h.cumulative with hempty | hfilled
  · rw [if_neg (not_not.mpr hempty), fillCumulative_eq checkTotal h.frequencies hempty
      counts.sum_le fun _ => h.total]
  · rw [if_pos (by rw [hfilled]; exact prefixSums_ne_nil _), ← hfilled]
    rfl

theorem Represents.filled (h : Represents table counts) :
    Represents { table with cumulative := prefixSums counts.list } counts :=
  ⟨h.frequencies, h.total, .inr rfl⟩

theorem vectorAt_prefixSums (symbol : Nat) :
    vectorAt (prefixSums counts.list) symbol =
      if symbol ≤ counts.list.length then .ok (counts.below symbol)
      else .error (.status "std::out_of_range") := by
  unfold vectorAt prefixSums
  rw [List.getElem?_map]
  by_cases hle : symbol ≤ counts.list.length
  · rw [if_pos hle, List.getElem?_range (Nat.lt_succ_of_le hle)]
    rfl
  · rw [if_neg hle, List.getElem?_eq_none (by rw [List.length_range]; omega)]
    rfl

/-- The two levels agree on a request: the outcome is the same, and so are the counts behind. -/
def Agree {α : Type} (run : TableExec SimpleFrequencyTable α) (spec : TableExec Counts α)
    (table : SimpleFrequencyTable) (counts : Counts) : Prop :=
  (run table).1 = (spec counts).1 ∧ Represents (run table).2 (spec counts).2

theorem Represents.askBelow (h : Represents table counts) (symbol : Nat) :
    Agree (initCumulative true >>= fun _ => getThe SimpleFrequencyTable >>= fun table =>
      liftExec (vectorAt table.cumulative symbol)) (Counts.askBelow symbol) table counts := by
  unfold Agree
  rw [run_bind_ok (h.init_eq true), Counts.askBelow_eq]
  exact ⟨vectorAt_prefixSums symbol, h.filled⟩

theorem sum_set_add {list : List Nat} {i : Nat} (h : i < list.length) (x : Nat) :
    (list.set i x).sum + list[i] = list.sum + x := by
  induction list generalizing i with
  | nil => exact absurd h (Nat.not_lt_zero i)
  | cons y list ih =>
    cases i with
    | zero =>
      simp only [List.set_cons_zero, List.sum_cons, List.getElem_cons_zero]
      omega
    | succ i =>
      have hrest := ih (Nat.lt_of_succ_lt_succ h)
      simp only [List.set_cons_succ, List.sum_cons, List.getElem_cons_succ]
      omega

theorem Represents.changed (h : Represents table counts) {symbol freq total : Nat}
    (hsum : (counts.list.set symbol freq).sum ≤ uint32Max)
    (htotal : total = (counts.list.set symbol freq).sum) :
    Represents ⟨table.frequencies.set symbol freq, [], total⟩ (counts.withCount symbol freq hsum) :=
  ⟨by rw [h.frequencies]; rfl, htotal, .inl rfl⟩

theorem Represents.vectorAt_eq (h : Represents table counts) {symbol : Nat}
    (hsymbol : symbol < counts.list.length) :
    vectorAt table.frequencies symbol = .ok counts.list[symbol] := by
  rw [h.frequencies, vectorAt, List.getElem?_eq_getElem hsymbol]

theorem Represents.vectorAt_error (h : Represents table counts) {symbol : Nat}
    (hsymbol : ¬ symbol < counts.list.length) :
    vectorAt table.frequencies symbol = .error (.status "std::out_of_range") := by
  rw [h.frequencies, vectorAt, List.getElem?_eq_none (Nat.le_of_not_lt hsymbol)]

theorem Represents.changed_agrees (h : Represents table counts) {symbol : Nat} (x y : Nat)
    {change : Nat → Nat} {run : TableExec SimpleFrequencyTable Unit}
    (hsymbol : symbol < counts.list.length) (hy : y ≤ uint32Max)
    (hsum : x + y = (counts.list.set symbol (change counts.list[symbol])).sum)
    (hrun : run table = (liftExec (checkedAdd x y) >>= fun total => modify fun table =>
      ⟨table.frequencies.set symbol (change counts.list[symbol]), [], total⟩ :
        TableExec SimpleFrequencyTable Unit) table) :
    Agree run (Counts.changeCount symbol change) table counts := by
  unfold Agree
  rw [hrun, Counts.changeCount_eq hsymbol]
  split
  · rename_i hle
    rw [checkedAdd_eq (by omega)]
    exact ⟨rfl, h.changed hle hsum⟩
  · rw [checkedAdd_overflow hy (by omega)]
    exact ⟨rfl, h⟩

theorem Represents.missing_agrees (h : Represents table counts) {symbol : Nat}
    {change : Nat → Nat} {run : TableExec SimpleFrequencyTable Unit}
    (hsymbol : ¬ symbol < counts.list.length)
    (hrun : run table = (.error (.status "std::out_of_range"), table)) :
    Agree run (Counts.changeCount symbol change) table counts := by
  unfold Agree
  rw [hrun, Counts.changeCount_error hsymbol]
  exact ⟨rfl, h⟩

theorem Represents.set_agrees (h : Represents table counts) (symbol : Nat) {freq : Nat}
    (hfreq : freq ≤ uint32Max) :
    Agree (set symbol freq) (Counts.changeCount symbol fun _ => freq) table counts := by
  by_cases hsymbol : symbol < counts.list.length
  · have hle : counts.list[symbol] ≤ counts.list.sum :=
      List.le_sum_of_mem (List.getElem_mem hsymbol)
    have hsum := sum_set_add hsymbol freq
    refine h.changed_agrees (table.total - counts.list[symbol]) freq hsymbol hfreq
      (by rw [h.total]; omega) ?_
    change (liftExec (vectorAt table.frequencies symbol) >>= _ :
      TableExec SimpleFrequencyTable Unit) table = _
    rw [h.vectorAt_eq hsymbol]
    change (if table.total < counts.list[symbol] then _ else _ :
      TableExec SimpleFrequencyTable Unit) table = _
    rw [if_neg (by rw [h.total]; omega)]
  · refine h.missing_agrees hsymbol ?_
    change (liftExec (vectorAt table.frequencies symbol) >>= _ :
      TableExec SimpleFrequencyTable Unit) table = _
    rw [h.vectorAt_error hsymbol]
    rfl

theorem Represents.increment_agrees (h : Represents table counts) (symbol : Nat) :
    Agree (increment symbol) (Counts.changeCount symbol (· + 1)) table counts := by
  by_cases hsymbol : symbol < counts.list.length
  · have hle : counts.list[symbol] ≤ counts.list.sum :=
      List.le_sum_of_mem (List.getElem_mem hsymbol)
    have hsum := sum_set_add hsymbol (counts.list[symbol] + 1)
    refine h.changed_agrees table.total 1 hsymbol (by decide) (by rw [h.total]; omega) ?_
    change (liftExec (vectorAt table.frequencies symbol) >>= _ :
      TableExec SimpleFrequencyTable Unit) table = _
    rw [h.vectorAt_eq hsymbol]
    change (if counts.list[symbol] = uint32Max then _ else _ :
      TableExec SimpleFrequencyTable Unit) table = _
    by_cases hmax : counts.list[symbol] = uint32Max
    · -- a count at its limit leaves no room in the total either
      rw [if_pos hmax, checkedAdd_overflow (by decide) (by rw [h.total]; omega)]
      rfl
    · rw [if_neg hmax]
  · refine h.missing_agrees hsymbol ?_
    change (liftExec (vectorAt table.frequencies symbol) >>= _ :
      TableExec SimpleFrequencyTable Unit) table = _
    rw [h.vectorAt_error hsymbol]
    rfl

theorem Agree.bind {α β : Type} {run : TableExec SimpleFrequencyTable α} {spec : TableExec Counts α}
    (h : Agree run spec table counts) (next : α → β) :
    Agree (run >>= fun x => pure (next x)) (spec >>= fun x => pure (next x)) table counts := by
  obtain ⟨hsame, hcounts⟩ := h
  unfold Agree
  rw [run_bind, run_bind]
  rcases hrun : run table with ⟨outcome, table'⟩
  rcases hspec : spec counts with ⟨outcome', counts'⟩
  rw [hrun, hspec] at hsame hcounts
  obtain rfl : outcome = outcome' := hsame
  cases outcome with
  | ok value => exact ⟨rfl, hcounts⟩
  | error reason => exact ⟨rfl, hcounts⟩

theorem Represents.get_agrees (h : Represents table counts) (symbol : Nat) :
    Agree (FrequencyTable.get symbol) (FrequencyTable.get symbol) table counts := by
  change (vectorAt table.frequencies symbol) = ((dite _ _ _ : TableExec Counts Nat) counts).1 ∧
    Represents table ((dite _ _ _ : TableExec Counts Nat) counts).2
  by_cases hsymbol : symbol < counts.list.length
  · rw [h.vectorAt_eq hsymbol, dif_pos hsymbol]
    exact ⟨rfl, h⟩
  · rw [h.vectorAt_error hsymbol, dif_neg hsymbol]
    exact ⟨rfl, h⟩

/-- One call: the same outcome, and the same counts behind, also after an exception. -/
theorem Represents.call (h : Represents table counts) (call : Call) :
    (call.run table).1 = (call.run counts).1 ∧
      Represents (call.run table).2 (call.run counts).2 := by
  cases call with
  | getSymbolLimit =>
    refine ⟨?_, h⟩
    have hlength := counts.length_le
    have hmax : uint32Max = 2 ^ 32 - 1 := rfl
    change (Except.ok (some (table.frequencies.length % 2 ^ 32)) : Outcome) =
      .ok (some counts.list.length)
    rw [h.frequencies, Nat.mod_eq_of_lt (by omega)]
  | get symbol => exact (h.get_agrees symbol.toNat).bind some
  | set symbol freq =>
    exact (h.set_agrees symbol.toNat (Nat.le_pred_of_lt freq.toNat_lt)).bind fun _ => none
  | increment symbol => exact (h.increment_agrees symbol.toNat).bind fun _ => none
  | getTotal =>
    refine ⟨?_, h⟩
    change (Except.ok (some table.total) : Outcome) = .ok (some counts.list.sum)
    rw [h.total]
  | getLow symbol => exact (h.askBelow symbol.toNat).bind some
  | getHigh symbol => exact (h.askBelow ((symbol.toNat + 1) % 2 ^ 32)).bind some

theorem Represents.runCalls (h : Represents table counts) (calls : List Call) :
    (runCalls calls table).1 = (runCalls calls counts).1 ∧
      Represents (Coder.runCalls calls table).2 (Coder.runCalls calls counts).2 := by
  induction calls generalizing table counts with
  | nil => exact ⟨rfl, h⟩
  | cons call calls ih =>
    obtain ⟨hsame, hnext⟩ := h.call call
    obtain ⟨hrest, hlast⟩ := ih hnext
    exact ⟨congrArg₂ List.cons hsame hrest, hlast⟩

theorem pushSums_overflow {rest : List Nat} {sum : Nat} (hsum : sum ≤ uint32Max)
    (h : uint32Max < sum + rest.sum) :
    (pushSums rest sum table).1 = .error (.status "Arithmetic overflow") := by
  induction rest generalizing sum table with
  | nil =>
    rw [List.sum_nil] at h
    omega
  | cons freq rest ih =>
    rw [List.sum_cons] at h
    rw [pushSums]
    by_cases hadd : freq + sum ≤ uint32Max
    · rw [checkedAdd_eq hadd]
      exact ih hadd (by omega)
    · rw [checkedAdd_overflow hsum (by omega)]
      rfl

theorem init_overflow {freqs : List Nat} (h : uint32Max < freqs.sum) :
    (initCumulative false ⟨freqs, [], 0⟩).1 = .error (.status "Arithmetic overflow") := by
  have hpush := @pushSums_overflow ⟨freqs, [0], 0⟩ freqs 0 (Nat.zero_le _) (by omega)
  change ((pushSums freqs 0 >>= fun sum => if false = true ∧ sum ≠ 0 then
    throw (.status "Assertion error") else pure ()) ⟨freqs, [0], 0⟩).1 = _
  rcases hrun : pushSums freqs 0 ⟨freqs, [0], 0⟩ with ⟨outcome, table'⟩
  rw [hrun] at hpush
  obtain rfl : outcome = .error (.status "Arithmetic overflow") := hpush
  rw [run_bind_error hrun]

theorem ofFrequencies_overflow {freqs : List Nat} (h : uint32Max < freqs.sum) (size : Nat) :
    ofFrequencies freqs size = .error (.status "Arithmetic overflow") := by
  have hinit := init_overflow h
  rcases hrun : initCumulative false ⟨freqs, [], 0⟩ with ⟨outcome, table'⟩
  rw [hrun] at hinit
  obtain rfl : outcome = .error (.status "Arithmetic overflow") := hinit
  unfold ofFrequencies
  dsimp only
  rw [run_bind_error hrun]

theorem ofFrequencies_eq (counts : Counts) :
    ofFrequencies counts.list counts.list.length =
      .ok ⟨counts.list, prefixSums counts.list, counts.list.sum⟩ := by
  have hpos := List.length_pos_of_ne_nil counts.nonempty
  have hlength := counts.length_le
  have hmax : uint32Max = 2 ^ 32 - 1 := rfl
  have hinit : initCumulative false ⟨counts.list, [], 0⟩ =
      (.ok (), ⟨counts.list, prefixSums counts.list, 0⟩) :=
    @fillCumulative_eq ⟨counts.list, [], 0⟩ false counts.list rfl rfl counts.sum_le
      (fun h => absurd h Bool.false_ne_true)
  have hhigh : getHigh (counts.list.length - 1) ⟨counts.list, prefixSums counts.list, 0⟩ =
      (.ok counts.list.sum, ⟨counts.list, prefixSums counts.list, 0⟩) := by
    have hsum := @vectorAt_prefixSums counts counts.list.length
    rw [if_pos le_rfl, counts.below_length] at hsum
    have hlast : (counts.list.length - 1 + 1) % 2 ^ 32 = counts.list.length := by omega
    have hfull : initCumulative true ⟨counts.list, prefixSums counts.list, 0⟩ =
        (.ok (), ⟨counts.list, prefixSums counts.list, 0⟩) := by
      change (if prefixSums counts.list ≠ [] then pure () else fillCumulative true :
        TableExec SimpleFrequencyTable Unit) _ = _
      rw [if_pos (prefixSums_ne_nil _)]
      rfl
    unfold getHigh
    rw [run_bind_ok hfull, hlast]
    change (vectorAt (prefixSums counts.list) counts.list.length, _) = _
    rw [hsum]
  unfold ofFrequencies
  dsimp only
  rw [run_bind_ok hinit, hhigh]

def refusal (freqs : List Nat) : String :=
  if freqs.length > uint32Max - 1 then "Too many symbols"
  else if freqs = [] then "At least 1 symbol needed" else "Arithmetic overflow"

/-- A table is made of every list of frequencies whose number and sum fit, and of no other. Over
any calls, with any exceptions between them, it answers as the list does that it was made
from. -/
theorem new_answers (freqs : List UInt32) :
    Ends (new (freqs.map UInt32.toNat))
      (fun table => ∃ counts : Counts, counts.list = freqs.map UInt32.toNat ∧
        ∀ calls : List Call, (Coder.runCalls calls table).1 = (Coder.runCalls calls counts).1 ∧
          Represents (Coder.runCalls calls table).2 (Coder.runCalls calls counts).2)
      (fun reason => reason = .status (refusal (freqs.map UInt32.toNat)) ∧
        ∀ counts : Counts, counts.list ≠ freqs.map UInt32.toNat) := by
  generalize freqs.map UInt32.toNat = list
  unfold new refusal
  by_cases hmany : list.length > uint32Max - 1
  · rw [if_pos hmany, if_pos hmany]
    refine ⟨rfl, fun counts hcounts => ?_⟩
    have hle := counts.length_le
    rw [hcounts] at hle
    exact absurd hle (Nat.not_le.mpr hmany)
  rw [if_neg hmany, if_neg hmany]
  by_cases hnil : list = []
  · rw [if_pos (by rw [hnil]; decide), if_pos hnil]
    exact ⟨rfl, fun counts hcounts => counts.nonempty (hcounts.trans hnil)⟩
  rw [if_neg (Nat.not_lt.mpr (List.length_pos_of_ne_nil hnil)), if_neg hnil]
  by_cases hsum : list.sum ≤ uint32Max
  · let counts : Counts := ⟨list, hnil, Nat.le_of_not_lt hmany, hsum⟩
    rw [show ofFrequencies list list.length = _ from ofFrequencies_eq counts]
    have hrepresents : Represents ⟨list, prefixSums list, list.sum⟩ counts := ⟨rfl, rfl, .inr rfl⟩
    exact ⟨counts, rfl, hrepresents.runCalls⟩
  · rw [ofFrequencies_overflow (Nat.lt_of_not_le hsum)]
    refine ⟨rfl, fun counts hcounts => ?_⟩
    have hle := counts.sum_le
    rw [hcounts] at hle
    exact hsum hle

end refinement

end SimpleFrequencyTable

end TonCompress.Coder
