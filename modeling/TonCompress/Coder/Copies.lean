import TonCompress.Coder.Adaptive

/-! Tables made from other tables. A copy asks `get` for each symbol, so it is as good as what
`get` says. -/
namespace TonCompress.Coder
open TonCompress.Lib TonCompress.Arith

section copying
variable {τ : Type} [FrequencyTable τ] {table : τ}

theorem copyFrequencies_eq (list : List Nat)
    (hget : ∀ i (h : i < list.length), FrequencyTable.get i table = (.ok list[i], table)) :
    SimpleFrequencyTable.copyFrequencies list.length table = (.ok list, table) := by
  have hloop : EndsAt (SimpleFrequencyTable.copyFrequencies list.length) table
      (fun frequencies table' => frequencies = list.take list.length ∧ table' = table)
      (fun _ _ => False) := by
    refine forRange_endsAt (fun i frequencies table' => frequencies = list.take i ∧ table' = table)
      (Nat.zero_le _) ⟨rfl, rfl⟩ ?_
    rintro i frequencies table' - hi ⟨rfl, rfl⟩
    refine (endsAt_bind_of_ok (hget i hi)).mpr ((endsAt_pure _).mpr ⟨?_, rfl⟩)
    rw [List.take_succ_eq_append_getElem hi]
  obtain ⟨frequencies, table', hrun, hfrequencies, rfl⟩ := hloop.exists_ok
  rw [hrun, hfrequencies, List.take_length]

theorem copy_eq (counts : Counts)
    (hlimit : FrequencyTable.getSymbolLimit table = counts.list.length)
    (hget : ∀ i (h : i < counts.list.length),
      FrequencyTable.get i table = (.ok counts.list[i], table)) :
    SimpleFrequencyTable.copy table = .ok ⟨counts.list, prefixSums counts.list, counts.list.sum⟩ := by
  have hpos := List.length_pos_of_ne_nil counts.nonempty
  unfold SimpleFrequencyTable.copy
  dsimp only
  rw [hlimit, if_neg (Nat.not_lt.mpr hpos), if_neg (Nat.not_lt.mpr counts.length_le),
    copyFrequencies_eq counts.list hget, ok_bind, SimpleFrequencyTable.ofFrequencies_eq]

theorem represents_copy (counts : Counts) : SimpleFrequencyTable.Represents
    ⟨counts.list, prefixSums counts.list, counts.list.sum⟩ counts :=
  ⟨rfl, rfl, .inr rfl⟩

theorem copy_simple {table : SimpleFrequencyTable} {counts : Counts}
    (h : table.Represents counts) :
    SimpleFrequencyTable.copy table = .ok ⟨counts.list, prefixSums counts.list, counts.list.sum⟩ := by
  apply copy_eq
  · exact Option.some.inj (Except.ok.inj (h.call .getSymbolLimit).1)
  · intro i hi
    change (SimpleFrequencyTable.vectorAt table.frequencies i, table) = _
    rw [h.vectorAt_eq hi]

/-- The copy of a table for two symbols forgets its `p`: `get` says 1 for both. -/
theorem copy_binary (table : BinaryFrequencyTable) :
    SimpleFrequencyTable.copy table = .ok ⟨[1, 1], [0, 1, 2], 2⟩ := by
  rfl

end copying

section flat
variable {table : FlatFrequencyTable} {counts : Counts}

/-- The table stands for as many counts as it has symbols, all 1. -/
def Flat (table : FlatFrequencyTable) (counts : Counts) : Prop :=
  counts.list = List.replicate table.numSymbols 1

theorem Flat.length (h : Flat table counts) : counts.list.length = table.numSymbols := by
  rw [h, List.length_replicate]

theorem Flat.sum (h : Flat table counts) : counts.list.sum = table.numSymbols := by
  rw [h, List.sum_replicate_nat, Nat.mul_one]

theorem Flat.below (h : Flat table counts) {symbol : Nat} (hle : symbol ≤ table.numSymbols) :
    counts.below symbol = symbol := by
  rw [Counts.below, h, List.take_replicate, List.sum_replicate_nat, Nat.mul_one, Nat.min_eq_left hle]

theorem checkSymbol_bind (table : FlatFrequencyTable) (symbol value : Nat) :
    (FlatFrequencyTable.checkSymbol symbol >>= fun _ => pure value :
        TableExec FlatFrequencyTable Nat) table =
      (if symbol ≥ table.numSymbols then .error (.status "Symbol out of range") else .ok value,
        table) := by
  change ((ite _ _ _ : TableExec FlatFrequencyTable Unit) >>= fun _ => pure value) table = _
  by_cases h : symbol ≥ table.numSymbols
  · rw [if_pos h, if_pos h]
    rfl
  · rw [if_neg h, if_neg h]
    rfl

theorem checkSymbol_ends (table : FlatFrequencyTable) (symbol value : Nat) :
    EndsAt (FlatFrequencyTable.checkSymbol symbol >>= fun _ => pure value :
        TableExec FlatFrequencyTable Nat) table
      (fun res table' => symbol < table.numSymbols ∧ res = value ∧ table' = table)
      (fun _ table' => table.numSymbols ≤ symbol ∧ table' = table) := by
  unfold EndsAt
  rw [checkSymbol_bind]
  by_cases h : symbol ≥ table.numSymbols
  · rw [if_pos h]
    exact ⟨h, rfl⟩
  · rw [if_neg h]
    exact ⟨Nat.lt_of_not_le h, rfl, rfl⟩

theorem flat_call (call : Call) (table : FlatFrequencyTable) : (call.run table).2 = table := by
  have hcheck : ∀ symbol value : Nat, ((FlatFrequencyTable.checkSymbol symbol >>= fun _ =>
      pure value : TableExec FlatFrequencyTable Nat) table).2 = table := by
    intro symbol value
    rw [checkSymbol_bind]
  cases call with
  | getSymbolLimit => rfl
  | getTotal => rfl
  | set symbol freq => rfl
  | increment symbol => rfl
  | get symbol => exact (run_bind_pure_state _ _ _).trans (hcheck _ _)
  | getLow symbol => exact (run_bind_pure_state _ _ _).trans (hcheck _ _)
  | getHigh symbol => exact (run_bind_pure_state _ _ _).trans (hcheck _ _)

theorem flat_runCalls (calls : List Call) (table : FlatFrequencyTable) :
    (runCalls calls table).2 = table := by
  induction calls generalizing table with
  | nil => rfl
  | cons call calls ih => exact (ih (call.run table).2).trans (flat_call call table)

theorem serves_flat (policy : List Nat → List Call) :
    Serves Flat (afterCalls policy) (afterCalls fun _ => []) where
  limit h := h.length.symm
  total h := h.sum.symm
  low := by
    intro table counts h symbol
    refine (checkSymbol_ends table symbol symbol).mono ?_ ?_
    · rintro low table' ⟨hlt, rfl, rfl⟩
      exact ⟨h.length ▸ hlt.le, (h.below hlt.le).symm, h⟩
    · rintro reason table' ⟨hle, -⟩
      exact h.length ▸ hle
  high := by
    intro table counts h symbol _
    have hmax : uint32Max = 2 ^ 32 - 1 := rfl
    have hlength := h.length ▸ counts.length_le
    refine (checkSymbol_ends table symbol ((symbol + 1) % 2 ^ 32)).mono ?_ ?_
    · rintro high table' ⟨hlt, rfl, rfl⟩
      refine ⟨h.length ▸ hlt, ?_, h⟩
      rw [h.below hlt, Nat.mod_eq_of_lt (by omega)]
    · rintro reason table' ⟨hle, -⟩
      exact h.length ▸ hle
  adapts := by
    intro table counts h done
    change Flat (runCalls (policy done) table).2 counts
    rwa [flat_runCalls]
  length _ _ := rfl

theorem coded_flat (h : Flat table counts) (size : StateSize) (done symbols : List Nat) :
    Coded size (afterCalls fun _ => []) done counts symbols ↔
      ∀ symbol ∈ symbols, symbol < table.numSymbols ∧ table.numSymbols ≤ size.maximumTotal := by
  induction symbols generalizing done with
  | nil => simp [Coded]
  | cons symbol symbols ih =>
    rw [List.forall_mem_cons, ← ih (done ++ [symbol])]
    refine and_congr_left fun _ => ⟨fun hcodable => ?_, fun hlt => ?_⟩
    · exact ⟨h.length ▸ hcodable.symbol_lt, h.sum ▸ hcodable.total_le⟩
    · refine ⟨h.length ▸ hlt.1, ?_, h.sum ▸ hlt.2⟩
      rw [h.below hlt.1.le, h.below hlt.1]
      exact Nat.lt_succ_self symbol

/-- An encoder with equal counts and a decoder with a copy of its table understand each
other. The encoder takes any of the symbols, if there are not too many. -/
theorem decode_copied {n : Nat} (hpos : 0 < n) (hle : n ≤ 2 ^ 31) (numBits : Int)
    (policy : List Nat → List Call) (symbols : List Nat) :
    ∃ table, SimpleFrequencyTable.copy (⟨n⟩ : FlatFrequencyTable) = .ok table ∧
      Ends (encode numBits (afterCalls policy) (⟨n⟩ : FlatFrequencyTable) symbols)
        (fun data => decode numBits (afterCalls fun _ => []) table data symbols.length =
          .ok symbols)
        (fun reason => (∀ size, StateSize.new numBits = .ok size →
            ∃ symbol ∈ symbols, n ≤ symbol ∨ size.maximumTotal < n) ∨
          reason = .status "Maximum underflow reached") := by
  have hmax : uint32Max = 2 ^ 32 - 1 := rfl
  let counts : Counts := ⟨List.replicate n 1, by simpa using hpos.ne',
    by rw [List.length_replicate]; omega, by rw [List.sum_replicate_nat]; omega⟩
  have hflat : Flat ⟨n⟩ counts := rfl
  have hlength : counts.list.length ≤ 2 ^ 31 := hflat.length.trans_le hle
  refine ⟨_, copy_eq counts hflat.length.symm ?_, ?_⟩
  · intro i hi
    change (FlatFrequencyTable.checkSymbol i >>= fun _ => pure 1 :
      TableExec FlatFrequencyTable Nat) ⟨n⟩ = _
    obtain ⟨value, table', hrun, -, rfl, rfl⟩ := ((checkSymbol_ends ⟨n⟩ i 1).mono (fun _ _ => id)
      (fun _ _ h => absurd hi (Nat.not_lt.mpr (hflat.length ▸ h.1)))).exists_ok
    rw [hrun, List.getElem_replicate]
  · refine Ends.mono ((serves_flat policy).roundTrip (serves_represents fun _ => []) hflat
      (represents_copy counts) hlength numBits symbols) (fun _ h => h.2) ?_
    rintro reason (hrefused | hunderflow)
    · refine .inl fun size hsize => ?_
      by_contra hall
      refine hrefused ⟨size, hsize, (coded_flat hflat size [] symbols).mpr fun symbol hmem => ?_⟩
      exact ⟨Nat.lt_of_not_le fun h => hall ⟨symbol, hmem, .inl h⟩,
        Nat.le_of_not_lt fun h => hall ⟨symbol, hmem, .inr h⟩⟩
    · exact .inr hunderflow

theorem decode_copied_three : ∃ table,
    SimpleFrequencyTable.copy (⟨3⟩ : FlatFrequencyTable) = .ok table ∧
      encode 7 (afterCalls fun _ => []) (⟨3⟩ : FlatFrequencyTable) [2, 0, 1] = .ok [184] ∧
        decode 7 (afterCalls fun _ => []) table [184] 3 = .ok [2, 0, 1] := by
  have hencode : encode 7 (afterCalls fun _ => []) (⟨3⟩ : FlatFrequencyTable) [2, 0, 1] =
      .ok [184] := by
    decide +kernel
  obtain ⟨table, hcopy, hends⟩ := @decode_copied 3 (by decide) (by decide) 7 (fun _ => []) [2, 0, 1]
  exact ⟨table, hcopy, hencode, hends.of_ok hencode⟩

end flat

end TonCompress.Coder
