import TonCompress.Coder.RoundTrip

/-! The coder with a table that both sides keep adapting to the symbols they have seen. -/
namespace TonCompress.Coder
open TonCompress.Lib TonCompress.Arith

/-- The calls between two symbols are chosen by the symbols so far. An exception that one of
them throws is caught. -/
def afterCalls {τ : Type} [FrequencyTable τ] (policy : List Nat → List Call) (done : List Nat)
    (table : τ) : τ :=
  (runCalls (policy done) table).2

/-- The state size is one that the constructor takes, and every symbol can be coded when its
turn comes. -/
def Accepts (numBits : Int) (next : List Nat → Counts → Counts) (counts : Counts)
    (symbols : List Nat) : Prop :=
  ∃ size, StateSize.new numBits = .ok size ∧ Coded size next [] counts symbols

section coding
variable {τ τ' : Type} [FrequencyTable τ] [FrequencyTable τ'] {R : τ → Counts → Prop}
variable {R' : τ' → Counts → Prop} {adapt : List Nat → τ → τ} {adapt' : List Nat → τ' → τ'}
variable {next : List Nat → Counts → Counts} {counts : Counts} {table : τ} {table' : τ'}

/-- The two sides may keep their tables in different ways, as long as these stand for the same
counts. -/
theorem Serves.roundTrip (hR : Serves R adapt next) (hR' : Serves R' adapt' next)
    (h : R table counts) (h' : R' table' counts) (hlength : counts.list.length ≤ 2 ^ 31)
    (numBits : Int) (symbols : List Nat) :
    Ends (encode numBits adapt table symbols)
      (fun data => Accepts numBits next counts symbols ∧
        decode numBits adapt' table' data symbols.length = .ok symbols)
      (fun reason => ¬ Accepts numBits next counts symbols ∨
        reason = .status "Maximum underflow reached") := by
  unfold encode
  cases hnew : StateSize.new numBits with
  | error reason =>
    refine .inl ?_
    rintro ⟨size, hok, -⟩
    rw [hnew] at hok
    cases hok
  | ok size =>
    rw [ok_bind]
    by_cases hcoded : Coded size next [] counts symbols
    · obtain ⟨code, iv, pending, hcodes⟩ :=
        hcoded.codes hR hR' (normal_fresh size) hlength 0
      refine Ends.bind (Ends.mono (hcodes.encodes h holds_fresh) (fun _ => id)
        (fun _ => .inr)) ?_
      rintro ⟨iv', ⟨out, pending'⟩⟩ hholds
      obtain ⟨out', hwrite, hholds', -⟩ := hholds.write true
      have hfilled := hholds'.filled_lt
      obtain ⟨out'', n, hfinish, hbits⟩ := @hholds'.finish _ _ 8 (by omega)
      have hstream : BitStream.onto (bitsOf out''.output) .zeros =
          .onto code (.onto [true] .zeros) := by
        rw [hbits, BitStream.onto_append, BitStream.onto_replicate_false_zeros, List.nil_append,
          BitStream.onto_append]
      have hone : Arith.ArithmeticEncoder.finish ⟨out, pending'⟩ = .ok ⟨out', pending'⟩ := by
        unfold Arith.ArithmeticEncoder.finish
        rw [show (1 : Nat) = true.toNat from rfl, hwrite]
        rfl
      obtain ⟨input, hfresh, hrest⟩ := fresh_eq size out''.output
      rw [hstream] at hfresh hrest
      have hdecode := hcodes.decodes h' (hcodes.normal.inside_finish pending) (by rwa [Nat.zero_add])
      dsimp only
      rw [hone, ok_bind, hfinish, ok_bind]
      refine (ends_pure _).mpr ⟨⟨size, hnew, hcoded⟩, ?_⟩
      unfold decode
      rw [hnew, ok_bind, hfresh, hdecode, List.nil_append]
    · refine Ends.seq (fun _ => False)
        (Ends.mono (hR.writeAll_error hcoded (normal_fresh size) h holds_fresh 0) (fun _ => id)
          (fun _ _ => .inl ?_)) (fun _ hfalse => hfalse.elim)
      rintro ⟨size', hok, hcoded'⟩
      rw [hnew] at hok
      obtain rfl : size = size' := Except.ok.inj hok
      exact hcoded hcoded'

theorem Serves.decode_ends (hR : Serves R adapt next) (h : R table counts)
    (hlength : counts.list.length ≤ 2 ^ 31) (numBits : Int) (data : List UInt8) (n : Nat) :
    Ends (decode numBits adapt table data n)
      (fun symbols => symbols.length = n ∧ Accepts numBits next counts symbols)
      (fun reason => reason = .status "State size out of range" ∨
        ∃ size symbols, StateSize.new numBits = .ok size ∧ symbols.length < n ∧
          Coded size next [] counts symbols ∧
            Unreadable size (countsAfter next [] counts symbols) reason) := by
  unfold decode
  cases hnew : StateSize.new numBits with
  | error reason =>
    unfold StateSize.new at hnew
    by_cases hrange : 1 ≤ numBits ∧ numBits ≤ 63
    · rw [dif_pos hrange] at hnew
      cases hnew
    · rw [dif_neg hrange] at hnew
      exact .inl (Except.error.inj hnew).symm
  | ok size =>
    obtain ⟨hlow, hhigh⟩ := fresh_mem size data
    refine Ends.mono (hR.readAll_ends n [] (normal_fresh size) hlow hhigh h hlength) ?_ ?_
    · rintro symbols ⟨found, rfl, hcount, hcoded⟩
      exact ⟨hcount, size, hnew, hcoded⟩
    · rintro reason ⟨symbols, hcount, hcoded, hreason⟩
      exact .inr ⟨size, symbols, rfl, hcount, hcoded, hreason⟩

end coding

section simple
variable {table table' : SimpleFrequencyTable} {counts : Counts}

theorem changeCount_length (symbol : Nat) (change : Nat → Nat) (counts : Counts) :
    (Counts.changeCount symbol change counts).2.list.length = counts.list.length := by
  by_cases h : symbol < counts.list.length
  · rw [Counts.changeCount_eq h]
    split
    · exact List.length_set
    · rfl
  · rw [Counts.changeCount_error h]

theorem run_bind_pure_state {σ α β : Type} (run : ObjExec Empty σ α) (value : α → β) (obj : σ) :
    ((run >>= fun x => pure (value x)) obj).2 = (run obj).2 := by
  rw [run_bind]
  rcases run obj with ⟨reason | x, obj'⟩
  · rfl
  · rfl

theorem call_length (call : Call) (counts : Counts) :
    (call.run counts).2.list.length = counts.list.length := by
  cases call with
  | getSymbolLimit => rfl
  | getTotal => rfl
  | get symbol =>
    rw [Call.run, run_bind_pure_state]
    change (dite _ _ _ : TableExec Counts Nat) counts |>.2.list.length = _
    split
    · rfl
    · rfl
  | set symbol freq =>
    rw [Call.run, run_bind_pure_state]
    exact changeCount_length _ _ _
  | increment symbol =>
    rw [Call.run, run_bind_pure_state]
    exact changeCount_length _ _ _
  | getLow symbol =>
    rw [Call.run, run_bind_pure_state]
    change (Counts.askBelow _ counts).2.list.length = _
    rw [Counts.askBelow_eq]
  | getHigh symbol =>
    rw [Call.run, run_bind_pure_state]
    change (Counts.askBelow _ counts).2.list.length = _
    rw [Counts.askBelow_eq]

theorem runCalls_length (calls : List Call) (counts : Counts) :
    (runCalls calls counts).2.list.length = counts.list.length := by
  induction calls generalizing counts with
  | nil => rfl
  | cons call calls ih => exact (ih (call.run counts).2).trans (call_length call counts)

theorem askBelow_ends (h : table.Represents counts) (symbol : Nat) :
    EndsAt (SimpleFrequencyTable.initCumulative true >>= fun _ => getThe SimpleFrequencyTable >>=
        fun table => liftExec (SimpleFrequencyTable.vectorAt table.cumulative symbol)) table
      (fun sum table' => symbol ≤ counts.list.length ∧ sum = counts.below symbol ∧
        table'.Represents counts)
      (fun _ _ => counts.list.length < symbol) := by
  obtain ⟨hsame, hnext⟩ := h.askBelow symbol
  rw [Counts.askBelow_eq] at hsame hnext
  unfold EndsAt
  rw [hsame]
  by_cases hle : symbol ≤ counts.list.length
  · rw [if_pos hle]
    exact ⟨hle, rfl, hnext⟩
  · rw [if_neg hle]
    exact Nat.lt_of_not_le hle

theorem serves_represents (policy : List Nat → List Call) :
    Serves SimpleFrequencyTable.Represents (afterCalls policy) (afterCalls policy) where
  limit h := Option.some.inj (Except.ok.inj (h.call .getSymbolLimit).1)
  total h := h.total
  low h symbol := (askBelow_ends h symbol).mono (fun _ _ => id) fun _ _ => Nat.le_of_lt
  high := by
    intro table counts h symbol hle
    have hmax : uint32Max = 2 ^ 32 - 1 := rfl
    have hlength := counts.length_le
    have hnext : (symbol + 1) % 2 ^ 32 = symbol + 1 := Nat.mod_eq_of_lt (by omega)
    have hsum := askBelow_ends h ((symbol + 1) % 2 ^ 32)
    rw [hnext] at hsum
    change EndsAt (SimpleFrequencyTable.getHigh symbol) table _ _
    rw [SimpleFrequencyTable.getHigh, hnext]
    exact hsum.mono (fun _ _ => id) fun _ _ => Nat.le_of_lt_succ
  adapts h done := (h.runCalls (policy done)).2
  length done counts := runCalls_length (policy done) counts

/-- Whatever calls both sides make on their tables between two symbols, the decoder gives back
what the encoder has taken. The encoder takes all symbols that have a frequency when their
turn comes, under a total that is not too large, unless its counter is at its limit. -/
theorem decode_encode (numBits : Int) (policy : List Nat → List Call) (symbols : List Nat)
    (h : table.Represents counts) (h' : table'.Represents counts)
    (hlength : counts.list.length ≤ 2 ^ 31) :
    Ends (encode numBits (afterCalls policy) table symbols)
      (fun data => Accepts numBits (afterCalls policy) counts symbols ∧
        decode numBits (afterCalls policy) table' data symbols.length = .ok symbols)
      (fun reason => ¬ Accepts numBits (afterCalls policy) counts symbols ∨
        reason = .status "Maximum underflow reached") :=
  (serves_represents policy).roundTrip (serves_represents policy) h h' hlength numBits symbols

/-- Counts of two symbols, as the constructor leaves them and with the sums still to fill. -/
def pairCounts : Counts := ⟨[2, 1], by decide, by decide, by decide⟩

theorem represents_pair : SimpleFrequencyTable.Represents ⟨[2, 1], [0, 2, 3], 3⟩ pairCounts :=
  ⟨rfl, rfl, .inr rfl⟩

theorem represents_pair_unfilled : SimpleFrequencyTable.Represents ⟨[2, 1], [], 3⟩ pairCounts :=
  ⟨rfl, rfl, .inl rfl⟩

def countLast (done : List Nat) : List Call := [.increment (UInt32.ofNat (done.getLastD 0))]

theorem encode_pair : encode 5 (afterCalls countLast)
    (⟨[2, 1], [0, 2, 3], 3⟩ : SimpleFrequencyTable) [0, 1, 1, 0] = .ok [152] := by
  decide +kernel

theorem decode_encode_pair :
    encode 5 (afterCalls countLast) (⟨[2, 1], [0, 2, 3], 3⟩ : SimpleFrequencyTable) [0, 1, 1, 0] =
        .ok [152] ∧
      decode 5 (afterCalls countLast) (⟨[2, 1], [], 3⟩ : SimpleFrequencyTable) [152] 4 =
        .ok [0, 1, 1, 0] :=
  ⟨encode_pair, ((decode_encode 5 countLast [0, 1, 1, 0] represents_pair represents_pair_unfilled
    (by decide)).of_ok encode_pair).2⟩

/-- Any bytes decode to as many symbols as asked for, all with a frequency when their turn
comes, or to the exception of a total that is too large. With a total of zero `read` divides
by zero. -/
theorem decode_anything (numBits : Int) (policy : List Nat → List Call) (data : List UInt8) (n : Nat)
    (h : table.Represents counts) (hlength : counts.list.length ≤ 2 ^ 31) :
    Ends (decode numBits (afterCalls policy) table data n)
      (fun symbols => symbols.length = n ∧ Accepts numBits (afterCalls policy) counts symbols)
      (fun reason => reason = .status "State size out of range" ∨
        ∃ size symbols, StateSize.new numBits = .ok size ∧ symbols.length < n ∧
          Coded size (afterCalls policy) [] counts symbols ∧
            Unreadable size (countsAfter (afterCalls policy) [] counts symbols) reason) :=
  (serves_represents policy).decode_ends h hlength numBits data n

theorem decode_anything_pair : ∃ symbols,
    decode 32 (afterCalls countLast) (⟨[2, 1], [], 3⟩ : SimpleFrequencyTable) [11, 255] 5 =
        .ok symbols ∧ symbols.length = 5 ∧
      Accepts 32 (afterCalls countLast) pairCounts symbols := by
  have hends := decode_anything 32 countLast [11, 255] 5 represents_pair_unfilled (by decide)
  have hrun : decode 32 (afterCalls countLast) (⟨[2, 1], [], 3⟩ : SimpleFrequencyTable) [11, 255] 5 =
      .ok [0, 0, 0, 0, 0] := by
    decide +kernel
  exact ⟨_, hrun, hends.of_ok hrun⟩

end simple

end TonCompress.Coder
