import TonCompress.Coder.Symbols

/-! Any number of symbols, under a table that is changed between them. What the encoder takes
the decoder gives back, and the decoder gives back symbols of every stream. -/
namespace TonCompress.Coder
open TonCompress.Lib TonCompress.Arith

section sessions
variable {τ : Type} [FrequencyTable τ]

def writeAll (size : StateSize) (adapt : List Nat → τ → τ) :
    List Nat → List Nat → Interval → EncoderState → TableExec τ (Interval × EncoderState)
  | _, [], iv, enc => pure (iv, enc)
  | done, symbol :: rest, iv, enc => do
      let (iv, enc) ← ArithmeticEncoder.write size symbol iv enc
      modify (adapt (done ++ [symbol]))
      writeAll size adapt (done ++ [symbol]) rest iv enc

def encode (numBits : Int) (adapt : List Nat → τ → τ) (table : τ) (symbols : List Nat) :
    ArithExec (List UInt8) := do
  let size ← StateSize.new numBits
  let (_, enc) ← (writeAll size adapt [] symbols size.freshInterval ⟨.fresh, 0⟩ table).1
  let enc ← Arith.ArithmeticEncoder.finish enc
  let bout ← enc.output.finish 8
  return bout.output

def readAll (size : StateSize) (adapt : List Nat → τ → τ) :
    Nat → List Nat → Interval → DecoderState → TableExec τ (List Nat)
  | 0, done, _, _ => pure done
  | n + 1, done, iv, dec => do
      let (symbol, iv, dec) ← ArithmeticDecoder.read size iv dec
      modify (adapt (done ++ [symbol]))
      readAll size adapt n (done ++ [symbol]) iv dec

def decode (numBits : Int) (adapt : List Nat → τ → τ) (table : τ) (data : List UInt8) (n : Nat) :
    ArithExec (List Nat) := do
  let size ← StateSize.new numBits
  (readAll size adapt n [] size.freshInterval (ArithmeticDecoder.fresh size (.fresh data)) table).1

end sessions

/-- Every symbol can be coded when its turn comes. -/
def Coded (size : StateSize) (next : List Nat → Counts → Counts) :
    List Nat → Counts → List Nat → Prop
  | _, _, [] => True
  | done, counts, symbol :: rest => Codable size counts symbol ∧
      Coded size next (done ++ [symbol]) (next (done ++ [symbol]) counts) rest

def countsAfter (next : List Nat → Counts → Counts) : List Nat → Counts → List Nat → Counts
  | _, counts, [] => counts
  | done, counts, symbol :: rest =>
      countsAfter next (done ++ [symbol]) (next (done ++ [symbol]) counts) rest

section symbol
variable {τ : Type} [FrequencyTable τ] {R : τ → Counts → Prop} {adapt : List Nat → τ → τ}
variable {next : List Nat → Counts → Counts}
variable {size : StateSize} {table : τ} {counts : Counts} {symbol symbol' code : Nat}
variable {iv iv' : Interval} {events : List Rescale} {dec : DecoderState}

theorem Codable.unique (hnormal : Normal size iv) (hcodable : Codable size counts symbol)
    (hcodable' : Codable size counts symbol') (hlow : iv.low ≤ code)
    (hmem : (symInterval counts symbol iv).low ≤ code ∧ code ≤ (symInterval counts symbol iv).high)
    (hmem' : (symInterval counts symbol' iv).low ≤ code ∧
      code ≤ (symInterval counts symbol' iv).high) : symbol = symbol' := by
  have hpos := Nat.zero_lt_of_lt (symInterval_bounds hnormal hcodable).1
  have hpos' := Nat.zero_lt_of_lt (symInterval_bounds hnormal hcodable').1
  have hvalue := (value_mem_iff hcodable.total_pos hlow).mpr ⟨hmem.1, hmem.2, hpos⟩
  have hvalue' := (value_mem_iff hcodable.total_pos hlow).mpr ⟨hmem'.1, hmem'.2, hpos'⟩
  exact below_unique hvalue.1 hvalue.2 hvalue'.1 hvalue'.2

theorem Serves.read_eq (hR : Serves R adapt next) (h : R table counts) (hnormal : Normal size iv)
    (hlow : iv.low ≤ dec.code) (hhigh : dec.code ≤ iv.high)
    (hlength : counts.list.length ≤ 2 ^ 31) (hpos : 0 < counts.list.sum)
    (htotal : counts.list.sum ≤ size.maximumTotal) :
    ∃ symbol table', Codable size counts symbol ∧
      ((symInterval counts symbol iv).low ≤ dec.code ∧
        dec.code ≤ (symInterval counts symbol iv).high) ∧ R table' counts ∧
      ArithmeticDecoder.read size iv dec table =
        (rescale size (ArithmeticDecoder.shift size) (ArithmeticDecoder.underflow size)
          (symInterval counts symbol iv) dec >>= fun res =>
            ArithmeticDecoder.assert (res.1.low ≤ res.2.code ∧ res.2.code ≤ res.1.high)
              "Assertion error: Code out of range" >>= fun _ => .ok (symbol, res.1, res.2),
          table') := by
  have hvalue := @scale_value_lt counts dec.code iv hpos hlow hhigh
  have htranslate : ArithmeticDecoder.translate size counts.list.sum iv dec.code =
      .ok (scaleOf counts iv dec.code) := by
    obtain ⟨scale, hok, -, -, hscale⟩ := returns_iff.mp ((translate_ends hnormal hlow hhigh).mono
      (fun _ => id) (fun _ hstop => hstop.elim (fun hlarge => Nat.not_le.mpr hlarge.1 htotal)
        fun hzero => hpos.ne' hzero.1))
    rw [hok, hscale]
  have hlast := counts.below_length
  obtain ⟨symbol, mid, hsearch, hmid, hsymbol, hbelow, hreach⟩ :=
    hR.search_eq h (List.length_pos_of_ne_nil counts.nonempty) le_rfl hlength
      (show counts.list.length - 0 ≤ 2 ^ 32 by omega)
      (Nat.zero_le (scaleOf counts iv dec.code).value) (by rwa [hlast])
  have hcodable : Codable size counts symbol := ⟨hsymbol, hbelow.trans_lt hreach, htotal⟩
  obtain ⟨hmemLow, hmemHigh, -⟩ := (value_mem_iff hpos hlow).mp ⟨hbelow, hreach⟩
  obtain ⟨mid', hgetLow, hmid'⟩ := hR.low_ok hmid hsymbol
  obtain ⟨mid'', hgetHigh, hmid''⟩ := hR.high_ok hmid' hsymbol
  obtain ⟨table', htable', hupdate⟩ := hR.update_eq hmid'' hnormal hcodable
  have hfirst := (@le_value_iff (iv.high - iv.low + 1) (dec.code - iv.low) counts.list.sum
    (Nat.succ_pos _) hpos _).mp hbelow
  have hnext : dec.code - iv.low <
      counts.below (symbol + 1) * (iv.high - iv.low + 1) / counts.list.sum :=
    Nat.lt_of_not_le fun hle => Nat.not_le.mpr hreach ((@le_value_iff (iv.high - iv.low + 1)
      (dec.code - iv.low) counts.list.sum (Nat.succ_pos _) hpos _).mpr hle)
  have hwrap : (symbol + 1) % 2 ^ 32 = symbol + 1 := Nat.mod_eq_of_lt (by omega)
  refine ⟨symbol, table', hcodable, ⟨hmemLow, hmemHigh⟩, htable', ?_⟩
  have hscaledLow : scaled (counts.below symbol) (scaleOf counts iv dec.code).range
      counts.list.sum = .ok (counts.below symbol * (iv.high - iv.low + 1) / counts.list.sum) :=
    scaled_eq hnormal htotal hpos (counts.below_le _)
  have hscaledHigh : scaled (counts.below (symbol + 1)) (scaleOf counts iv dec.code).range
      counts.list.sum =
        .ok (counts.below (symbol + 1) * (iv.high - iv.low + 1) / counts.list.sum) :=
    scaled_eq hnormal htotal hpos (counts.below_le _)
  rw [ArithmeticDecoder.read, run_getThe_bind]
  dsimp only
  rw [hR.total h, hR.limit h, htranslate, run_liftExec_ok_bind, ArithmeticDecoder.searchFuel,
    run_bind_ok hsearch]
  dsimp only
  rw [hwrap, ArithmeticDecoder.assert, if_pos rfl, run_liftExec_ok_bind, run_bind_ok hgetLow,
    hscaledLow, run_liftExec_ok_bind, ArithmeticDecoder.assert,
    if_pos (show _ ≤ (scaleOf counts iv dec.code).offset from hfirst), run_liftExec_ok_bind,
    run_bind_ok hgetHigh, hscaledHigh, run_liftExec_ok_bind, ArithmeticDecoder.assert,
    if_pos (show (scaleOf counts iv dec.code).offset < _ from hnext), run_liftExec_ok_bind,
    run_bind, hupdate]
  rcases rescale size (ArithmeticDecoder.shift size) (ArithmeticDecoder.underflow size)
    (symInterval counts symbol iv) dec with reason | ⟨iv', dec'⟩
  · rfl
  · unfold ArithmeticDecoder.assert
    dsimp only
    rw [ok_bind]
    by_cases hcode : iv'.low ≤ dec'.code ∧ dec'.code ≤ iv'.high
    · rw [if_pos hcode]
      rfl
    · rw [if_neg hcode]
      rfl

theorem Rescales.reads (h : Rescales size iv events iv') (hlt : iv.high < 2 * 2 ^ size.top)
    (hlow : iv.low ≤ dec.code) (hhigh : dec.code ≤ iv.high) :
    ∃ input, rescale size (ArithmeticDecoder.shift size) (ArithmeticDecoder.underflow size) iv dec =
        .ok (iv', ⟨input, narrowAfter size.top events dec.code (streamOf dec.input)⟩) ∧
      streamOf input = (streamOf dec.input).drop events.length ∧
      iv'.low ≤ narrowAfter size.top events dec.code (streamOf dec.input) ∧
      narrowAfter size.top events dec.code (streamOf dec.input) ≤ iv'.high := by
  obtain ⟨input, hevents, hstream⟩ :=
    runEvents_decoder events h.underflow_pos (hhigh.trans_lt hlt)
  refine ⟨input, ?_, hstream, h.scaling.narrowAfter_mem hlow hhigh _⟩
  rw [h.run (ArithmeticDecoder.shift size) (decoderShift size) (ArithmeticDecoder.underflow size)
    (fun _ _ _ _ => rfl), hevents, ok_bind]

theorem Serves.reads (hR : Serves R adapt next) (h : R table counts) (hnormal : Normal size iv)
    (hlow : iv.low ≤ dec.code) (hhigh : dec.code ≤ iv.high)
    (hlength : counts.list.length ≤ 2 ^ 31) (hpos : 0 < counts.list.sum)
    (htotal : counts.list.sum ≤ size.maximumTotal) :
    ∃ symbol table', Codable size counts symbol ∧
      ((symInterval counts symbol iv).low ≤ dec.code ∧
        dec.code ≤ (symInterval counts symbol iv).high) ∧ R table' counts ∧
      ∀ {events iv'}, Rescales size (symInterval counts symbol iv) events iv' →
        ∃ input, ArithmeticDecoder.read size iv dec table =
            (.ok (symbol, iv',
              ⟨input, narrowAfter size.top events dec.code (streamOf dec.input)⟩), table') ∧
          streamOf input = (streamOf dec.input).drop events.length ∧
          iv'.low ≤ narrowAfter size.top events dec.code (streamOf dec.input) ∧
          narrowAfter size.top events dec.code (streamOf dec.input) ≤ iv'.high := by
  obtain ⟨symbol, table', hcodable, hmem, htable', hread⟩ :=
    hR.read_eq h hnormal hlow hhigh hlength hpos htotal
  refine ⟨symbol, table', hcodable, hmem, htable', fun hscale => ?_⟩
  have hlt := (symInterval_inside hnormal hcodable).2.2.trans_lt hnormal.high_lt
  obtain ⟨input, hrun, hstream, hcode⟩ := hscale.reads hlt hmem.1 hmem.2
  refine ⟨input, ?_, hstream, hcode⟩
  rw [hread, hrun, ok_bind, ArithmeticDecoder.assert, if_pos hcode]
  rfl

theorem Serves.writes (hR : Serves R adapt next) (h : R table counts) (hnormal : Normal size iv)
    (hcodable : Codable size counts symbol)
    (hscale : Rescales size (symInterval counts symbol iv) events iv') {out : BitOutputStream}
    {bits : List Bool} (hholds : Holds out bits) (pending : Nat) :
    EndsAt (ArithmeticEncoder.write size symbol iv ⟨out, pending⟩) table
      (fun res table' => res.1 = iv' ∧ res.2.numUnderflow = pendingAfter events pending ∧
        Holds res.2.output (bits ++ emitted events pending) ∧ R table' counts)
      (fun reason _ => reason = .status "Maximum underflow reached") := by
  obtain ⟨table', htable', hupdate⟩ := hR.update_eq h hnormal hcodable
  have hwrites := @writes_runEvents ⟨out, pending⟩ bits hholds events
  unfold EndsAt ArithmeticEncoder.write
  rw [hupdate, hscale.run (ArithmeticEncoder.shift size) encoderShift
    Arith.ArithmeticEncoder.underflow encoderShift_eq]
  exact hwrites.bind fun enc hend => ⟨rfl, hend.1, hend.2, htable'⟩

/-- What `read` says of a table that cannot be read from. -/
def Unreadable (size : StateSize) (counts : Counts) (reason : Stop Empty) : Prop :=
  size.maximumTotal < counts.list.sum ∧
      reason = .status "Cannot decode symbol because total is too large" ∨
    counts.list.sum = 0 ∧ reason = .abort

theorem Serves.read_error (hR : Serves R adapt next) (h : R table counts)
    (hnormal : Normal size iv) (hlow : iv.low ≤ dec.code) (hhigh : dec.code ≤ iv.high)
    (hbad : ¬ (0 < counts.list.sum ∧ counts.list.sum ≤ size.maximumTotal)) :
    EndsAt (ArithmeticDecoder.read size iv dec) table (fun _ _ => False)
      (fun reason _ => Unreadable size counts reason) := by
  have htranslate := @translate_ends size counts dec.code iv hnormal hlow hhigh
  obtain ⟨reason, hrun, hreason⟩ : ∃ reason,
      ArithmeticDecoder.translate size counts.list.sum iv dec.code = .error reason ∧
        Unreadable size counts reason := by
    cases hrun : ArithmeticDecoder.translate size counts.list.sum iv dec.code with
    | ok scale =>
      rw [hrun] at htranslate
      exact absurd ⟨htranslate.1, htranslate.2.1⟩ hbad
    | error reason =>
      rw [hrun] at htranslate
      exact ⟨reason, rfl, htranslate⟩
  rw [ArithmeticDecoder.read, endsAt_getThe_bind]
  dsimp only
  rw [hR.total h, hrun]
  exact hreason

end symbol

section run
variable {τ τ' : Type} [FrequencyTable τ] [FrequencyTable τ'] {R : τ → Counts → Prop}
variable {R' : τ' → Counts → Prop} {adapt : List Nat → τ → τ} {adapt' : List Nat → τ' → τ'}
variable {next : List Nat → Counts → Counts} {size : StateSize} {counts : Counts} {iv : Interval}

/-- The run of the coders over some symbols from the same interval and the same counts on. -/
structure Codes (R : τ → Counts → Prop) (R' : τ' → Counts → Prop) (adapt : List Nat → τ → τ)
    (adapt' : List Nat → τ' → τ') (size : StateSize) (done : List Nat) (counts : Counts)
    (iv : Interval) (pending : Nat) (symbols : List Nat) (code : List Bool) (iv' : Interval)
    (pending' : Nat) : Prop where
  normal : Normal size iv'
  encodes : ∀ {table : τ} {out : BitOutputStream} {written : List Bool}, R table counts →
    Holds out written →
      EndsAt (writeAll size adapt done symbols iv ⟨out, pending⟩) table
        (fun res _ => Holds res.2.output (written ++ code))
        (fun reason _ => reason = .status "Maximum underflow reached")
  inside : ∀ {stream : BitStream}, Inside size.top iv'.widen pending' stream →
    Inside size.top iv.widen pending (.onto code stream)
  decodes : ∀ {table : τ'} {stream : BitStream} {input : BitInputStream}, R' table counts →
    Inside size.top iv'.widen pending' stream →
    streamOf input = (BitStream.onto code stream).drop (pending + size.top + 1) →
      (readAll size adapt' symbols.length done iv
        ⟨input, narrowCodeAt size.top pending (.onto code stream)⟩ table).1 = .ok (done ++ symbols)

theorem Coded.codes (hR : Serves R adapt next) (hR' : Serves R' adapt' next)
    {done symbols : List Nat} (hcoded : Coded size next done counts symbols)
    (hnormal : Normal size iv) (hlength : counts.list.length ≤ 2 ^ 31) (pending : Nat) :
    ∃ code iv' pending',
      Codes R R' adapt adapt' size done counts iv pending symbols code iv' pending' := by
  induction symbols generalizing done counts iv pending with
  | nil =>
    refine ⟨[], iv, pending, hnormal, ?_, id, ?_⟩
    · intro table out written _ hholds
      refine (endsAt_pure _).mpr ?_
      rwa [List.append_nil]
    · intro table stream input _ _ _
      rw [List.append_nil]
      rfl
  | cons symbol symbols ih =>
    obtain ⟨hcodable, hrest⟩ := hcoded
    obtain ⟨hinLow, hinLe, hinHigh⟩ := symInterval_inside hnormal hcodable
    obtain ⟨events, iv', hscale⟩ := exists_rescales hinLe (hinHigh.trans_lt hnormal.high_lt)
    obtain ⟨code, last, pending', hcodes⟩ := ih hrest hscale.normal
      (by rwa [hR.length]) (pendingAfter events pending)
    have hinside : ∀ {stream}, Inside size.top last.widen pending' stream →
        Inside size.top (symInterval counts symbol iv).widen pending
          (.onto (emitted events pending) (.onto code stream)) := fun hlast =>
      hscale.scaling.inside (hcodes.inside hlast)
    refine ⟨emitted events pending ++ code, last, pending', hcodes.normal, ?_, ?_, ?_⟩
    · intro table out written htable hholds
      refine EndsAt.bind (hR.writes htable hnormal hcodable hscale hholds pending) ?_
      rintro ⟨mid, enc⟩ table' ⟨rfl, hpending, hholds', htable'⟩
      refine endsAt_modify_bind _ |>.mpr ?_
      obtain ⟨out', numUnderflow⟩ := enc
      obtain rfl : numUnderflow = pendingAfter events pending := hpending
      have htail := hcodes.encodes (hR.adapts htable' (done ++ [symbol])) hholds'
      rwa [List.append_assoc] at htail
    · intro stream hlast
      rw [BitStream.onto_append]
      exact (hinside hlast).widen_mono hinLow hinHigh
    · intro table stream input htable hlast hstream
      rw [BitStream.onto_append] at hstream ⊢
      have hpart := (hinside hlast).narrow_mem
      have hwhole := ((hinside hlast).widen_mono hinLow hinHigh).narrow_mem
      obtain ⟨found, table', hfound, hmem, htable', hread⟩ := hR'.reads htable hnormal
        (show iv.low ≤ (⟨input, narrowCodeAt size.top pending
          (.onto (emitted events pending) (.onto code stream))⟩ : DecoderState).code from hwhole.1)
        hwhole.2 hlength
        hcodable.total_pos hcodable.total_le
      obtain rfl : found = symbol :=
        hfound.unique hnormal hcodable hwhole.1 hmem hpart
      obtain ⟨input', hrun, hstream', -⟩ := hread hscale
      rw [hstream, narrowAfter_codeAt hscale.underflow_pos] at hrun
      have hcount := length_emitted events pending
      have hinput' : streamOf input' = (BitStream.onto code stream).drop
          (pendingAfter events pending + size.top + 1) := by
        rw [hstream', hstream, BitStream.drop_drop, show pending + size.top + 1 + events.length =
            (emitted events pending).length + (pendingAfter events pending + size.top + 1) by omega,
          ← BitStream.drop_drop, BitStream.drop_onto]
      have htail := hcodes.decodes (hR'.adapts htable' (done ++ [found])) hlast hinput'
      rw [List.length_cons, readAll, run_bind_ok hrun]
      rw [List.append_assoc, List.singleton_append] at htail
      exact htail

theorem Normal.inside_finish (h : Normal size iv) (pending : Nat) :
    Inside size.top iv.widen pending (.onto [true] .zeros) := by
  have hdrop : (BitStream.onto [true] .zeros).drop (pending + 1) = .zeros := rfl
  have hcode : codeAt size.top pending (.onto [true] .zeros) = 2 * 2 ^ size.top := by
    rw [codeAt, hdrop, BitStream.value_zeros, BitStream.onto_cons_zero, Bool.toNat_true,
      Nat.one_mul, Nat.add_zero, pow_succ']
  have hlow := h.low_lt
  have hhigh := h.high_ge
  constructor
  · rw [hcode]
    exact Nat.mul_le_mul_left 2 hlow.le
  · rw [hcode]
    exact (Nat.mul_le_mul_left 2 hhigh).trans (Nat.le_succ _)
  · intro i _
    rfl

theorem Serves.writeAll_error (hR : Serves R adapt next) {done symbols : List Nat}
    (hcoded : ¬ Coded size next done counts symbols) (hnormal : Normal size iv) {table : τ}
    (h : R table counts) {out : BitOutputStream} {bits : List Bool} (hholds : Holds out bits)
    (pending : Nat) :
    EndsAt (writeAll size adapt done symbols iv ⟨out, pending⟩) table (fun _ _ => False)
      (fun _ _ => True) := by
  induction symbols generalizing done counts iv table out bits pending with
  | nil => exact hcoded trivial
  | cons symbol symbols ih =>
    by_cases hcodable : Codable size counts symbol
    · obtain ⟨-, hinLe, hinHigh⟩ := symInterval_inside hnormal hcodable
      obtain ⟨events, iv', hscale⟩ := exists_rescales hinLe (hinHigh.trans_lt hnormal.high_lt)
      refine EndsAt.bind ((hR.writes h hnormal hcodable hscale hholds pending).mono
        (fun _ _ => id) (fun _ _ _ => trivial)) ?_
      rintro ⟨mid, ⟨out', pending'⟩⟩ table' ⟨rfl, -, hholds', htable'⟩
      refine (endsAt_modify_bind _).mpr ?_
      exact ih (fun hrest => hcoded ⟨hcodable, hrest⟩) hscale.normal
        (hR.adapts htable' (done ++ [symbol])) hholds' pending'
    · refine EndsAt.bind (hR.update_error h hnormal hcodable _ _ _) ?_
      exact fun _ _ hfalse => hfalse.elim

/-- What holds of `decode` on any stream: it stops at a table it cannot read from, and nowhere
else. -/
theorem Serves.readAll_ends (hR : Serves R adapt next) (n : Nat) (done : List Nat) {dec : DecoderState}
    (hnormal : Normal size iv) (hlow : iv.low ≤ dec.code) (hhigh : dec.code ≤ iv.high)
    {table : τ} (h : R table counts) (hlength : counts.list.length ≤ 2 ^ 31) :
    EndsAt (readAll size adapt n done iv dec) table
      (fun res _ => ∃ symbols, res = done ++ symbols ∧ symbols.length = n ∧
        Coded size next done counts symbols)
      (fun reason _ => ∃ symbols : List Nat, symbols.length < n ∧
        Coded size next done counts symbols ∧
          Unreadable size (countsAfter next done counts symbols) reason) := by
  induction n generalizing done counts iv dec table with
  | zero =>
    refine (endsAt_pure _).mpr ?_
    exact ⟨[], (List.append_nil _).symm, rfl, trivial⟩
  | succ n ih =>
    by_cases hgood : 0 < counts.list.sum ∧ counts.list.sum ≤ size.maximumTotal
    · obtain ⟨symbol, table', hcodable, -, htable', hread⟩ :=
        hR.reads h hnormal hlow hhigh hlength hgood.1 hgood.2
      obtain ⟨-, hinLe, hinHigh⟩ := symInterval_inside hnormal hcodable
      obtain ⟨events, iv', hscale⟩ := exists_rescales hinLe (hinHigh.trans_lt hnormal.high_lt)
      obtain ⟨input, hrun, -, hlow', hhigh'⟩ := hread hscale
      refine (endsAt_bind_of_ok hrun).mpr ?_
      refine (endsAt_modify_bind _).mpr ?_
      refine (ih (done ++ [symbol]) hscale.normal hlow' hhigh'
        (hR.adapts htable' (done ++ [symbol])) (by rwa [hR.length])).mono ?_ ?_
      · rintro res - ⟨symbols, rfl, hcount, hcoded⟩
        refine ⟨symbol :: symbols, ?_, congrArg Nat.succ hcount, hcodable, hcoded⟩
        rw [List.append_assoc, List.singleton_append]
      · rintro reason - ⟨symbols, hcount, hcoded, hreason⟩
        exact ⟨symbol :: symbols, Nat.succ_lt_succ hcount, ⟨hcodable, hcoded⟩, hreason⟩
    · refine EndsAt.bind ((hR.read_error h hnormal hlow hhigh hgood).mono (fun _ _ => id) ?_)
        (fun _ _ hfalse => hfalse.elim)
      intro reason _ hreason
      exact ⟨[], Nat.succ_pos n, trivial, hreason⟩

theorem fresh_mem (size : StateSize) (data : List UInt8) :
    size.freshInterval.low ≤ (ArithmeticDecoder.fresh size (.fresh data)).code ∧
      (ArithmeticDecoder.fresh size (.fresh data)).code ≤ size.freshInterval.high := by
  obtain ⟨input, hfresh, -⟩ := fresh_eq size data
  have hlt := narrowCodeAt_lt size.top 0 (.onto (bitsOf data) .zeros)
  have hmask : size.freshInterval.high = 2 ^ (size.top + 1) - 1 := size.stateMask_eq
  rw [hfresh]
  refine ⟨Nat.zero_le _, ?_⟩
  dsimp only
  omega

end run

end TonCompress.Coder
