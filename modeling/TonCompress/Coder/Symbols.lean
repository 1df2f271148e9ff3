import TonCompress.Coder.Counts
import TonCompress.Coder.Rescale
import TonCompress.Arith.RoundTrip

/-! One symbol: the part of the interval that its counts give it, and the search that finds
it again. -/
namespace TonCompress.Coder
open TonCompress.Lib TonCompress.Arith

/-- A table answers for the counts that `R` says it stands for, and keeps doing so while its
user changes it: `adapt` is what becomes of the table after some symbols, `next` what becomes
of the counts. -/
structure Serves {τ : Type} [FrequencyTable τ] (R : τ → Counts → Prop)
    (adapt : List Nat → τ → τ) (next : List Nat → Counts → Counts) : Prop where
  limit : ∀ {table counts}, R table counts →
    FrequencyTable.getSymbolLimit table = counts.list.length
  total : ∀ {table counts}, R table counts → FrequencyTable.getTotal table = counts.list.sum
  low : ∀ {table counts}, R table counts → ∀ symbol, EndsAt (FrequencyTable.getLow symbol) table
    (fun low table' => symbol ≤ counts.list.length ∧ low = counts.below symbol ∧ R table' counts)
    (fun _ _ => counts.list.length ≤ symbol)
  high : ∀ {table counts}, R table counts → ∀ symbol ≤ counts.list.length,
    EndsAt (FrequencyTable.getHigh symbol) table
      (fun high table' => symbol < counts.list.length ∧ high = counts.below (symbol + 1) ∧
        R table' counts)
      (fun _ _ => counts.list.length ≤ symbol)
  adapts : ∀ {table counts}, R table counts → ∀ done, R (adapt done table) (next done counts)
  length : ∀ done counts, (next done counts).list.length = counts.list.length

/-- What the coder can code. -/
structure Codable (size : StateSize) (counts : Counts) (symbol : Nat) : Prop where
  symbol_lt : symbol < counts.list.length
  below_lt : counts.below symbol < counts.below (symbol + 1)
  total_le : counts.list.sum ≤ size.maximumTotal

def symInterval (counts : Counts) (symbol : Nat) (iv : Interval) : Interval where
  low := iv.low + counts.below symbol * (iv.high - iv.low + 1) / counts.list.sum
  high := iv.low + counts.below (symbol + 1) * (iv.high - iv.low + 1) / counts.list.sum - 1

section interval
variable {size : StateSize} {counts : Counts} {symbol : Nat} {iv : Interval}

theorem Codable.total_pos (h : Codable size counts symbol) : 0 < counts.list.sum :=
  (Nat.zero_lt_of_lt h.below_lt).trans_le (counts.below_le _)

/-- No product of a frequency and a range leaves 64 bits. -/
theorem Normal.product_lt (h : Normal size iv) (htotal : counts.list.sum ≤ size.maximumTotal)
    {freq : Nat} (hfreq : freq ≤ counts.list.sum) : freq * (iv.high - iv.low + 1) < 2 ^ 64 := by
  have hmax : size.maximumTotal ≤ (2 ^ 64 - 1) / size.fullRange := min_le_left _ _
  calc freq * (iv.high - iv.low + 1)
      ≤ (2 ^ 64 - 1) / size.fullRange * size.fullRange :=
        Nat.mul_le_mul ((hfreq.trans htotal).trans hmax) h.range.2
    _ ≤ 2 ^ 64 - 1 := Nat.div_mul_le_self _ _
    _ < 2 ^ 64 := by decide

theorem symInterval_bounds (h : Normal size iv) (hcodable : Codable size counts symbol) :
    counts.below symbol * (iv.high - iv.low + 1) / counts.list.sum <
        counts.below (symbol + 1) * (iv.high - iv.low + 1) / counts.list.sum ∧
      counts.below (symbol + 1) * (iv.high - iv.low + 1) / counts.list.sum ≤
        iv.high - iv.low + 1 := by
  have htotal := hcodable.total_pos
  have hrange : counts.list.sum ≤ iv.high - iv.low + 1 :=
    (hcodable.total_le.trans (min_le_right _ _)).trans h.range.1
  generalize iv.high - iv.low + 1 = range at hrange ⊢
  constructor
  · apply Nat.lt_of_succ_le
    rw [Nat.succ_eq_add_one, ← Nat.add_div_right _ htotal]
    apply Nat.div_le_div_right
    calc counts.below symbol * range + counts.list.sum
        ≤ counts.below symbol * range + range := Nat.add_le_add_left hrange _
      _ = (counts.below symbol + 1) * range := by ring
      _ ≤ counts.below (symbol + 1) * range := Nat.mul_le_mul_right _ hcodable.below_lt
  · apply Nat.div_le_of_le_mul
    exact Nat.mul_le_mul_right _ (counts.below_le _)

theorem symInterval_inside (h : Normal size iv) (hcodable : Codable size counts symbol) :
    iv.low ≤ (symInterval counts symbol iv).low ∧
      (symInterval counts symbol iv).low ≤ (symInterval counts symbol iv).high ∧
      (symInterval counts symbol iv).high ≤ iv.high := by
  obtain ⟨hlt, hle⟩ := symInterval_bounds h hcodable
  have hlow := h.low_lt
  have hhigh := h.high_ge
  unfold symInterval
  dsimp only
  generalize counts.below symbol * (iv.high - iv.low + 1) / counts.list.sum = below at *
  generalize counts.below (symbol + 1) * (iv.high - iv.low + 1) / counts.list.sum = reach at *
  omega

theorem checkState_eq (h : Normal size iv) : checkState size iv = .ok () := by
  obtain ⟨hlow, hhigh, hlt, -⟩ := id h
  have hmask : ∀ x < 2 * 2 ^ size.top, x &&& size.stateMask = x := by
    intro x hx
    rw [StateSize.stateMask_eq]
    exact Nat.and_two_pow_sub_one_of_lt_two_pow (by rwa [pow_succ'])
  unfold checkState
  rw [if_neg (by rw [hmask _ (by omega), hmask _ hlt]; omega)]
  dsimp only
  rw [if_neg (not_not.mpr h.range)]
  rfl

theorem scaled_eq (h : Normal size iv) (htotal : counts.list.sum ≤ size.maximumTotal)
    (hpos : 0 < counts.list.sum) {freq : Nat} (hfreq : freq ≤ counts.list.sum) :
    scaled freq (iv.high - iv.low + 1) counts.list.sum =
      .ok (freq * (iv.high - iv.low + 1) / counts.list.sum) := by
  rw [scaled, if_neg hpos.ne', Nat.mod_eq_of_lt (h.product_lt htotal hfreq)]

theorem newInterval_ends (h : Normal size iv) (hsymbol : symbol < counts.list.length) :
    Ends (newInterval size counts.list.sum (counts.below symbol) (counts.below (symbol + 1)) iv)
      (fun iv' => Codable size counts symbol ∧ iv' = symInterval counts symbol iv)
      (fun _ => ¬ Codable size counts symbol) := by
  unfold newInterval
  by_cases hzero : counts.below symbol = counts.below (symbol + 1)
  · rw [if_pos hzero]
    exact fun hcodable => hcodable.below_lt.ne hzero
  rw [if_neg hzero]
  by_cases hlarge : counts.list.sum > size.maximumTotal
  · rw [if_pos hlarge]
    exact fun hcodable => Nat.not_le.mpr hlarge hcodable.total_le
  rw [if_neg hlarge]
  have hcodable : Codable size counts symbol :=
    ⟨hsymbol, lt_of_le_of_ne (counts.below_mono (Nat.le_succ symbol)) hzero, Nat.le_of_not_lt hlarge⟩
  have htotal := hcodable.total_le
  have hpos := hcodable.total_pos
  obtain ⟨hlt, hle⟩ := symInterval_bounds h hcodable
  have hsize := size.two_pow_top_le
  have hlow := h.low_lt
  have hhigh := h.high_lt
  have hge := h.high_ge
  dsimp only
  rw [scaled_eq h htotal hpos (counts.below_le _), ok_bind,
    scaled_eq h htotal hpos (counts.below_le _), ok_bind]
  refine (ends_pure _).mpr ⟨hcodable, ?_⟩
  unfold symInterval
  generalize counts.below symbol * (iv.high - iv.low + 1) / counts.list.sum = below at *
  generalize counts.below (symbol + 1) * (iv.high - iv.low + 1) / counts.list.sum = reach at *
  rw [Nat.mod_eq_of_lt (by omega), Nat.mod_eq_of_lt (by omega), sub64_of_le (by omega) (by omega)]

end interval

section table
variable {τ : Type} [FrequencyTable τ] {R : τ → Counts → Prop} {adapt : List Nat → τ → τ}
variable {next : List Nat → Counts → Counts}
variable {size : StateSize} {table : τ} {counts : Counts} {symbol : Nat} {iv : Interval}

theorem Serves.low_ok (hR : Serves R adapt next) (h : R table counts)
    (hsymbol : symbol < counts.list.length) :
    ∃ table', (FrequencyTable.getLow symbol : TableExec τ Nat) table =
      (.ok (counts.below symbol), table') ∧ R table' counts := by
  obtain ⟨low, table', hrun, -, hlow, hnext⟩ := ((hR.low h symbol).mono
    (fun _ _ => id) (fun _ _ hle => absurd hsymbol (Nat.not_lt.mpr hle))).exists_ok
  exact ⟨table', hlow ▸ hrun, hnext⟩

theorem Serves.high_ok (hR : Serves R adapt next) (h : R table counts)
    (hsymbol : symbol < counts.list.length) :
    ∃ table', (FrequencyTable.getHigh symbol : TableExec τ Nat) table =
      (.ok (counts.below (symbol + 1)), table') ∧ R table' counts := by
  obtain ⟨high, table', hrun, -, hhigh, hnext⟩ := ((hR.high h symbol hsymbol.le).mono
    (fun _ _ => id) (fun _ _ hle => absurd hsymbol (Nat.not_lt.mpr hle))).exists_ok
  exact ⟨table', hhigh ▸ hrun, hnext⟩

theorem Serves.update_eq (hR : Serves R adapt next) (h : R table counts) (hnormal : Normal size iv)
    (hcodable : Codable size counts symbol) :
    ∃ table', R table' counts ∧ ∀ {σ : Type} (shift : Interval → σ → ArithExec σ)
      (underflow : σ → ArithExec σ) (state : σ), update size shift underflow symbol iv state table =
        (rescale size shift underflow (symInterval counts symbol iv) state, table') := by
  obtain ⟨mid, hlow, hmid⟩ := hR.low_ok h hcodable.symbol_lt
  obtain ⟨table', hhigh, hlast⟩ := hR.high_ok hmid hcodable.symbol_lt
  have hnew : newInterval size counts.list.sum (counts.below symbol) (counts.below (symbol + 1)) iv =
      .ok (symInterval counts symbol iv) := by
    obtain ⟨value, hok, -, hvalue⟩ := returns_iff.mp ((newInterval_ends hnormal
      hcodable.symbol_lt).mono (fun _ => id) (fun _ hnot => hnot hcodable))
    rw [hok, hvalue]
  refine ⟨table', hlast, fun shift underflow state => ?_⟩
  rw [update, checkState_eq hnormal]
  change ((FrequencyTable.getLow symbol : TableExec τ Nat) >>= _ : TableExec τ _) table = _
  rw [run_bind_ok hlow, run_bind_ok hhigh, hR.total h, hnew]
  rfl

theorem Serves.update_error (hR : Serves R adapt next) (h : R table counts)
    (hnormal : Normal size iv) (hcodable : ¬ Codable size counts symbol) {σ : Type}
    (shift : Interval → σ → ArithExec σ) (underflow : σ → ArithExec σ) (state : σ) :
    EndsAt (update size shift underflow symbol iv state) table (fun _ _ => False)
      (fun _ _ => True) := by
  rw [update, checkState_eq hnormal, endsAt_liftExec_ok_bind, endsAt_getThe_bind]
  refine EndsAt.bind ((hR.low h symbol).mono (fun _ _ => id) (fun _ _ _ => trivial)) ?_
  rintro low mid ⟨hle, rfl, hmid⟩
  refine EndsAt.bind ((hR.high hmid symbol hle).mono (fun _ _ => id) (fun _ _ _ => trivial)) ?_
  rintro high table' ⟨hlt, rfl, -⟩
  rw [hR.total h]
  refine EndsAt.seq (fun _ _ => False) ?_ (fun _ _ hfalse => hfalse.elim)
  exact (newInterval_ends hnormal hlt).mono (fun _ hok => hcodable hok.1) (fun _ _ => trivial)

theorem Serves.search_eq (hR : Serves R adapt next) {value fuel start stop : Nat}
    (h : R table counts) (hlt : start < stop) (hstop : stop ≤ counts.list.length)
    (hlength : counts.list.length ≤ 2 ^ 31) (hfuel : stop - start ≤ 2 ^ fuel)
    (hlow : counts.below start ≤ value) (hhigh : value < counts.below stop) :
    ∃ symbol table', ArithmeticDecoder.search value (fuel + 1) start stop table =
        (.ok (symbol, symbol + 1), table') ∧ R table' counts ∧ symbol < counts.list.length ∧
      counts.below symbol ≤ value ∧ value < counts.below (symbol + 1) := by
  have hsub : (stop + (2 ^ 32 - start)) % 2 ^ 32 = stop - start := by omega
  induction fuel generalizing table start stop with
  | zero =>
    obtain rfl : stop = start + 1 := by omega
    refine ⟨start, table, ?_, h, by omega, hlow, hhigh⟩
    rw [ArithmeticDecoder.search, if_neg (by omega)]
    rfl
  | succ fuel ih =>
    rw [ArithmeticDecoder.search, hsub]
    by_cases hdone : stop - start > 1
    · have hmiddle : ((start + stop) % 2 ^ 32) >>> 1 = (start + stop) / 2 := by
        rw [Nat.shiftRight_eq_div_pow, pow_one, Nat.mod_eq_of_lt (by omega)]
      have hpow : 2 ^ (fuel + 1) = 2 * 2 ^ fuel := pow_succ' 2 fuel
      obtain ⟨mid, hget, hmid⟩ := @Serves.low_ok _ _ _ _ _ table counts ((start + stop) / 2) hR h
        (by omega)
      rw [if_pos hdone, hmiddle, run_bind_ok hget]
      by_cases hup : counts.below ((start + stop) / 2) > value
      · rw [if_pos hup]
        exact ih hmid (by omega) (by omega) (by omega) hlow hup (by omega)
      · rw [if_neg hup]
        exact ih hmid (by omega) hstop (by omega) (Nat.le_of_not_lt hup) hhigh (by omega)
    · obtain rfl : stop = start + 1 := by omega
      rw [if_neg hdone]
      exact ⟨start, table, rfl, h, by omega, hlow, hhigh⟩

end table

section reading
variable {size : StateSize} {counts : Counts} {symbol symbol' code : Nat} {iv : Interval}

theorem below_unique {value : Nat} (hlow : counts.below symbol ≤ value)
    (hhigh : value < counts.below (symbol + 1)) (hlow' : counts.below symbol' ≤ value)
    (hhigh' : value < counts.below (symbol' + 1)) : symbol = symbol' := by
  rcases Nat.lt_trichotomy symbol symbol' with hlt | heq | hlt
  · have hmono := @Counts.below_mono counts (symbol + 1) symbol' hlt
    omega
  · exact heq
  · have hmono := @Counts.below_mono counts (symbol' + 1) symbol hlt
    omega

/-- A symbol starts at or below the offset exactly when its low frequency is at most the
value that the search compares with. -/
theorem le_value_iff {range offset total : Nat} (hrange : 0 < range) (htotal : 0 < total)
    (freq : Nat) :
    freq ≤ ((offset + 1) * total - 1) / range ↔ freq * range / total ≤ offset := by
  have hpos : 0 < (offset + 1) * total := Nat.mul_pos (Nat.succ_pos _) htotal
  rw [Nat.le_div_iff_mul_le hrange, ← Nat.lt_succ_iff,
    ← @Nat.lt_succ_iff (freq * range / total) offset, Nat.div_lt_iff_lt_mul htotal,
    Nat.succ_eq_add_one, Nat.sub_add_cancel hpos]

/-- `range`, `offset` and `value` of `read`, when none of them leaves its type. -/
def scaleOf (counts : Counts) (iv : Interval) (code : Nat) : ArithmeticDecoder.Scale where
  range := iv.high - iv.low + 1
  offset := code - iv.low
  value := ((code - iv.low + 1) * counts.list.sum - 1) / (iv.high - iv.low + 1)

theorem scale_value_lt (hpos : 0 < counts.list.sum) (hlow : iv.low ≤ code) (hhigh : code ≤ iv.high) :
    (scaleOf counts iv code).value < counts.list.sum := by
  have hproduct : (code - iv.low + 1) * counts.list.sum ≤
      (iv.high - iv.low + 1) * counts.list.sum := Nat.mul_le_mul_right _ (by omega)
  have hpositive : 0 < (code - iv.low + 1) * counts.list.sum := Nat.mul_pos (Nat.succ_pos _) hpos
  unfold scaleOf
  dsimp only
  apply Nat.div_lt_of_lt_mul
  omega

theorem translate_ends (h : Normal size iv) (hlow : iv.low ≤ code) (hhigh : code ≤ iv.high) :
    Ends (ArithmeticDecoder.translate size counts.list.sum iv code)
      (fun scale => 0 < counts.list.sum ∧ counts.list.sum ≤ size.maximumTotal ∧
        scale = scaleOf counts iv code)
      (fun reason => size.maximumTotal < counts.list.sum ∧
          reason = .status "Cannot decode symbol because total is too large" ∨
        counts.list.sum = 0 ∧ reason = .abort) := by
  have hsize := size.two_pow_top_le
  have hlt := h.high_lt
  have hrange : (sub64 iv.high iv.low + 1) % 2 ^ 64 = iv.high - iv.low + 1 := by
    rw [sub64_of_le (by omega) (by omega)]
    exact Nat.mod_eq_of_lt (by omega)
  have hoffset : sub64 code iv.low = code - iv.low := sub64_of_le hlow (by omega)
  unfold ArithmeticDecoder.translate
  by_cases hlarge : counts.list.sum > size.maximumTotal
  · rw [if_pos hlarge]
    exact .inl ⟨hlarge, rfl⟩
  have htotal := Nat.le_of_not_lt hlarge
  rw [if_neg hlarge]
  dsimp only
  rw [hrange, hoffset, if_neg (Nat.succ_ne_zero _)]
  rcases Nat.eq_zero_or_pos counts.list.sum with hzero | hpos
  · rw [hzero, scaled, if_pos rfl]
    exact .inr ⟨rfl, rfl⟩
  have hpositive : 1 ≤ (code - iv.low + 1) * counts.list.sum := Nat.mul_pos (Nat.succ_pos _) hpos
  have hproduct : (code - iv.low + 1) * counts.list.sum < 2 ^ 64 := by
    have hwhole := h.product_lt htotal le_rfl
    have hle : (code - iv.low + 1) * counts.list.sum ≤
        (iv.high - iv.low + 1) * counts.list.sum := Nat.mul_le_mul_right _ (by omega)
    rw [Nat.mul_comm counts.list.sum] at hwhole
    omega
  have hvalue := @scale_value_lt counts code iv hpos hlow hhigh
  have hstart := (@le_value_iff (iv.high - iv.low + 1) (code - iv.low) counts.list.sum
    (Nat.succ_pos _) hpos (scaleOf counts iv code).value).mp le_rfl
  have hscale : ((code - iv.low + 1) * counts.list.sum - 1) / (iv.high - iv.low + 1) =
      (scaleOf counts iv code).value := rfl
  rw [Nat.mod_eq_of_lt hproduct, sub64_of_le hpositive hproduct, hscale, scaled_eq h htotal hpos hvalue.le, ok_bind, if_neg (Nat.not_lt.mpr hstart),
    if_neg (Nat.not_le.mpr hvalue)]
  exact ⟨hpos, htotal, rfl⟩

theorem value_mem_iff (hpos : 0 < counts.list.sum) (hlow : iv.low ≤ code) :
    counts.below symbol ≤ (scaleOf counts iv code).value ∧
        (scaleOf counts iv code).value < counts.below (symbol + 1) ↔
      (symInterval counts symbol iv).low ≤ code ∧ code ≤ (symInterval counts symbol iv).high ∧
        0 < counts.below (symbol + 1) * (iv.high - iv.low + 1) / counts.list.sum := by
  have hstart := @le_value_iff (iv.high - iv.low + 1) (code - iv.low) counts.list.sum
    (Nat.succ_pos _) hpos (counts.below symbol)
  have hend := @le_value_iff (iv.high - iv.low + 1) (code - iv.low) counts.list.sum
    (Nat.succ_pos _) hpos (counts.below (symbol + 1))
  unfold scaleOf symInterval
  dsimp only
  rw [← Nat.not_le, hstart, hend]
  generalize counts.below symbol * (iv.high - iv.low + 1) / counts.list.sum = below at *
  generalize counts.below (symbol + 1) * (iv.high - iv.low + 1) / counts.list.sum = reach at *
  omega

end reading

end TonCompress.Coder
