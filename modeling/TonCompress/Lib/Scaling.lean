import TonCompress.Lib.Bits

/-! Rescaling of the interval of a binary arithmetic coder with `w + 2` state
bits. While both ends lie in one half their top bit is shifted out; while they
straddle the middle closely the second bit of both is dropped, which leaves a
bit pending. The encoder turns these events into bits, the decoder follows them
with a register of `w + 2` bits. -/
namespace TonCompress.Lib

structure Interval where
  low : Nat
  high : Nat
  deriving DecidableEq, Repr

/-- One round of rescaling. -/
inductive Rescale where
  | shift (bit : Bool)
  | underflow
  deriving DecidableEq, Repr

/-- `Scaling w iv events iv'`: the events rescale `iv` to `iv'`. -/
inductive Scaling (w : Nat) : Interval → List Rescale → Interval → Prop where
  | refl (iv : Interval) : Scaling w iv [] iv
  | shift {low high : Nat} {bit : Bool} {events : List Rescale} {iv : Interval}
      (low_half : low / 2 ^ (w + 1) = bit.toNat) (high_half : high / 2 ^ (w + 1) = bit.toNat)
      (rest : Scaling w
        ⟨2 * (low - bit.toNat * 2 ^ (w + 1)), 2 * (high - bit.toNat * 2 ^ (w + 1)) + 1⟩ events iv) :
      Scaling w ⟨low, high⟩ (.shift bit :: events) iv
  | underflow {low high : Nat} {events : List Rescale} {iv : Interval}
      (low_ge : 2 ^ w ≤ low) (low_lt : low < 2 ^ (w + 1)) (high_ge : 2 ^ (w + 1) ≤ high)
      (high_lt : high < 3 * 2 ^ w)
      (rest : Scaling w ⟨2 * low - 2 ^ (w + 1), 2 * high - 2 ^ (w + 1) + 1⟩ events iv) :
      Scaling w ⟨low, high⟩ (.underflow :: events) iv

/-- The bits an encoder writes, when `pending` bits wait for the next shift. -/
def emitted : List Rescale → Nat → List Bool
  | [], _ => []
  | .shift bit :: events, pending => bit :: (List.replicate pending (!bit) ++ emitted events 0)
  | .underflow :: events, pending => emitted events (pending + 1)

def pendingAfter : List Rescale → Nat → Nat
  | [], pending => pending
  | .shift _ :: events, _ => pendingAfter events 0
  | .underflow :: events, pending => pendingAfter events (pending + 1)

def Rescale.register (w : Nat) (code : Nat) (bit : Bool) : Rescale → Nat
  | .shift _ => 2 * code % 2 ^ (w + 2) + bit.toNat
  | .underflow =>
      code / 2 ^ (w + 1) * 2 ^ (w + 1) + 2 * code % 2 ^ (w + 1) + bit.toNat

def registerAfter (w : Nat) : List Rescale → Nat → BitStream → Nat
  | [], code, _ => code
  | event :: events, code, stream =>
      registerAfter w events (event.register w code (stream 0)) (stream.drop 1)

/-- The register of a decoder at a point of the stream where the encoder had
`pending` bits waiting: it has dropped these bits behind the first one. -/
def codeAt (w pending : Nat) (stream : BitStream) : Nat :=
  (stream 0).toNat * 2 ^ (w + 1) + (stream.drop (pending + 1)).value (w + 1)

/-- The stream stays in the interval, and opens with a bit and its pending
opposites. -/
structure Inside (w : Nat) (iv : Interval) (pending : Nat) (stream : BitStream) : Prop where
  low_le : iv.low ≤ codeAt w pending stream
  le_high : codeAt w pending stream ≤ iv.high
  opposite : ∀ i < pending, stream (i + 1) = !stream 0

section scaling
variable {w pending : Nat} {iv iv' : Interval} {events : List Rescale} {stream : BitStream}

theorem codeAt_lt (w pending : Nat) (stream : BitStream) :
    codeAt w pending stream < 2 ^ (w + 2) := by
  have hrest := (stream.drop (pending + 1)).value_lt (w + 1)
  have hbit := Nat.mul_le_mul_right (2 ^ (w + 1)) (Bool.toNat_le (stream 0))
  unfold codeAt
  rw [pow_succ 2 (w + 1)]
  omega

theorem codeAt_zero (w : Nat) (stream : BitStream) : codeAt w 0 stream = stream.value (w + 2) := rfl

theorem register_shift (w pending : Nat) (stream : BitStream) (bit : Bool) :
    (Rescale.shift bit).register w (codeAt w pending stream) (stream (pending + w + 2)) =
      codeAt w 0 (stream.drop (pending + 1)) := by
  have hrest := (stream.drop (pending + 1)).value_lt (w + 1)
  have hnext : stream.drop (pending + 1) (w + 1) = stream (pending + w + 2) := by
    rw [BitStream.drop_apply]
    congr 1
    omega
  rw [codeAt_zero, BitStream.value_succ, hnext]
  unfold Rescale.register codeAt
  dsimp only
  congr 1
  rw [Nat.mul_add, Nat.mul_left_comm, ← pow_succ', Nat.mul_comm, Nat.mul_add_mod]
  apply Nat.mod_eq_of_lt
  rw [pow_succ 2 (w + 1)]
  omega

theorem register_underflow (w pending : Nat) (stream : BitStream) :
    Rescale.underflow.register w (codeAt w pending stream) (stream (pending + w + 2)) =
      codeAt w (pending + 1) stream := by
  have hrest := (stream.drop (pending + 1)).value_lt (w + 1)
  have hlast := (stream.drop (pending + 2)).value_lt w
  have hnext : stream.drop (pending + 2) w = stream (pending + w + 2) := by
    rw [BitStream.drop_apply]
    congr 1
    omega
  have hsecond : (stream.drop (pending + 1)).value (w + 1) =
      (stream (pending + 1)).toNat * 2 ^ w + (stream.drop (pending + 2)).value w := by
    rw [BitStream.value, BitStream.drop_drop, BitStream.drop_apply, Nat.zero_add]
  have hquot : codeAt w pending stream / 2 ^ (w + 1) = (stream 0).toNat := by
    rw [codeAt, Nat.mul_comm, Nat.mul_add_div (Nat.two_pow_pos _), Nat.div_eq_of_lt hrest,
      Nat.add_zero]
  have hdouble : 2 * codeAt w pending stream =
      2 ^ (w + 1) * (2 * (stream 0).toNat + (stream (pending + 1)).toNat) +
        2 * (stream.drop (pending + 2)).value w := by
    rw [codeAt, hsecond, pow_succ]
    ring
  have hmod : 2 * codeAt w pending stream % 2 ^ (w + 1) =
      2 * (stream.drop (pending + 2)).value w := by
    rw [hdouble, Nat.mul_add_mod]
    apply Nat.mod_eq_of_lt
    rw [pow_succ]
    omega
  unfold Rescale.register
  dsimp only
  rw [hquot, hmod, codeAt, BitStream.value_succ, hnext, Nat.add_assoc]

theorem drop_emitted_shift (bit : Bool) (events : List Rescale) (pending : Nat)
    (stream : BitStream) :
    (BitStream.onto (emitted (.shift bit :: events) pending) stream).drop (pending + 1) =
      .onto (emitted events 0) stream := by
  have hlength : (bit :: List.replicate pending (!bit)).length = pending + 1 := by simp
  rw [emitted, ← List.cons_append, BitStream.onto_append, ← hlength, BitStream.drop_onto]

/-- The register follows the events along the stream. -/
theorem registerAfter_codeAt (events : List Rescale) (pending : Nat) (stream : BitStream) :
    registerAfter w events (codeAt w pending (.onto (emitted events pending) stream))
        ((BitStream.onto (emitted events pending) stream).drop (pending + w + 2)) =
      codeAt w (pendingAfter events pending) stream := by
  induction events generalizing pending with
  | nil => rfl
  | cons event events ih =>
    rw [registerAfter, BitStream.drop_drop, BitStream.drop_apply, Nat.zero_add]
    cases event with
    | shift bit =>
      have hdrop := drop_emitted_shift bit events pending stream
      rw [register_shift, hdrop, pendingAfter, ← ih 0, ← hdrop, BitStream.drop_drop]
      congr 2
      omega
    | underflow =>
      rw [register_underflow, pendingAfter, ← ih (pending + 1)]
      rw [emitted]
      congr 2
      omega

theorem Inside.mono {low high : Nat} (h : Inside w iv pending stream) (hlow : low ≤ iv.low)
    (hhigh : iv.high ≤ high) : Inside w ⟨low, high⟩ pending stream :=
  ⟨hlow.trans h.low_le, h.le_high.trans hhigh, h.opposite⟩

theorem Scaling.trans {iv'' : Interval} {events' : List Rescale} (h : Scaling w iv events iv')
    (h' : Scaling w iv' events' iv'') : Scaling w iv (events ++ events') iv'' := by
  induction h with
  | refl iv => exact h'
  | shift low_half high_half rest ih => exact .shift low_half high_half (ih h')
  | underflow low_ge low_lt high_ge high_lt rest ih =>
    exact .underflow low_ge low_lt high_ge high_lt (ih h')

theorem length_emitted (events : List Rescale) (pending : Nat) :
    (emitted events pending).length + pendingAfter events pending = pending + events.length := by
  induction events generalizing pending with
  | nil => simp [emitted, pendingAfter]
  | cons event events ih =>
    cases event with
    | shift bit =>
      have hrest := ih 0
      simp only [emitted, pendingAfter, List.length_cons, List.length_append,
        List.length_replicate]
      omega
    | underflow =>
      have hrest := ih (pending + 1)
      simp only [emitted, pendingAfter, List.length_cons]
      omega

/-- A stream inside the rescaled interval is inside the interval before, the
bits that the events emit put in front. -/
theorem Scaling.inside (h : Scaling w iv events iv') {pending : Nat}
    (hinside : Inside w iv' (pendingAfter events pending) stream) :
    Inside w iv pending (.onto (emitted events pending) stream) := by
  induction h generalizing pending with
  | refl iv => exact hinside
  | @shift low high bit events iv low_half high_half rest ih =>
    obtain ⟨hlow, hhigh, -⟩ := ih hinside
    have hstart : bit.toNat * 2 ^ (w + 1) ≤ low := low_half ▸ Nat.div_mul_le_self _ _
    have hstart' : bit.toNat * 2 ^ (w + 1) ≤ high := high_half ▸ Nat.div_mul_le_self _ _
    have hdrop := drop_emitted_shift bit events pending stream
    have hbit := Bool.toNat_le (BitStream.onto (emitted events 0) stream (w + 1))
    rw [codeAt_zero, BitStream.value_succ] at hlow hhigh
    have hcode : codeAt w pending (.onto (emitted (.shift bit :: events) pending) stream) =
        bit.toNat * 2 ^ (w + 1) + (BitStream.onto (emitted events 0) stream).value (w + 1) := by
      unfold codeAt
      rw [hdrop]
      rfl
    refine ⟨?_, ?_, ?_⟩
    · dsimp only at hlow ⊢
      omega
    · dsimp only at hhigh ⊢
      omega
    · intro i hi
      rw [emitted]
      change BitStream.onto (List.replicate pending (!bit) ++ emitted events 0) stream i = !bit
      rw [BitStream.onto_append]
      exact BitStream.onto_replicate_lt _ hi _
  | @underflow low high events iv low_ge low_lt high_ge high_lt rest ih =>
    obtain ⟨hlow, hhigh, hopposite⟩ := ih hinside
    let whole := BitStream.onto (emitted events (pending + 1)) stream
    have hsecond : whole (pending + 1) = !whole 0 := hopposite pending (Nat.lt_succ_self _)
    have hbit := Bool.toNat_le (whole.drop (pending + 2) w)
    have hcode : codeAt w pending whole = (whole 0).toNat * 2 ^ (w + 1) +
        ((!whole 0).toNat * 2 ^ w + (whole.drop (pending + 2)).value w) := by
      unfold codeAt
      rw [BitStream.value, BitStream.drop_drop, BitStream.drop_apply, Nat.zero_add, hsecond]
    have hcode' : codeAt w (pending + 1) whole = (whole 0).toNat * 2 ^ (w + 1) +
        (2 * (whole.drop (pending + 2)).value w + (whole.drop (pending + 2) w).toNat) := by
      unfold codeAt
      rw [BitStream.value_succ]
    have hpow : 2 ^ (w + 1) = 2 * 2 ^ w := by rw [pow_succ, Nat.mul_comm]
    change _ ≤ codeAt w (pending + 1) whole at hlow
    change codeAt w (pending + 1) whole ≤ _ at hhigh
    rw [hcode'] at hlow hhigh
    refine ⟨?_, ?_, fun i hi => hopposite i (Nat.lt_succ_of_lt hi)⟩
    · change low ≤ codeAt w pending whole
      rw [hcode]
      cases hfirst : whole 0
      all_goals
        simp only [hfirst, hpow, Bool.toNat_false, Bool.toNat_true, Bool.not_false,
          Bool.not_true] at hlow ⊢
        omega
    · change codeAt w pending whole ≤ high
      rw [hcode]
      cases hfirst : whole 0
      all_goals
        simp only [hfirst, hpow, Bool.toNat_false, Bool.toNat_true, Bool.not_false,
          Bool.not_true] at hhigh ⊢
        omega

theorem Scaling.registerAfter_mem (h : Scaling w iv events iv') {code : Nat}
    (hlow : iv.low ≤ code) (hhigh : code ≤ iv.high) (stream : BitStream) :
    iv'.low ≤ registerAfter w events code stream ∧
      registerAfter w events code stream ≤ iv'.high := by
  induction h generalizing code stream with
  | refl iv => exact ⟨hlow, hhigh⟩
  | @shift low high bit events iv low_half high_half rest ih =>
    dsimp only at hlow hhigh
    have hhalf : code / 2 ^ (w + 1) = bit.toNat :=
      le_antisymm (high_half ▸ Nat.div_le_div_right hhigh)
        (low_half ▸ Nat.div_le_div_right hlow)
    have hcode := Nat.div_add_mod' code (2 ^ (w + 1))
    have hdouble : 2 * code % 2 ^ (w + 2) = 2 * (code % 2 ^ (w + 1)) := by
      rw [pow_succ', Nat.mul_mod_mul_left]
    have hbit := Bool.toNat_le (stream 0)
    rw [hhalf] at hcode
    apply ih
    · unfold Rescale.register
      dsimp only
      omega
    · unfold Rescale.register
      dsimp only
      omega
  | @underflow low high events iv low_ge low_lt high_ge high_lt rest ih =>
    dsimp only at hlow hhigh
    have hbit := Bool.toNat_le (stream 0)
    have hregister : Rescale.underflow.register w code (stream 0) =
        2 * code - 2 ^ (w + 1) + (stream 0).toNat := by
      have hpow : 2 ^ (w + 1) = 2 * 2 ^ w := pow_succ' 2 w
      unfold Rescale.register
      dsimp only
      rw [hpow] at low_lt high_ge ⊢
      rw [Nat.mul_mod_mul_left]
      generalize 2 ^ w = quarter at *
      by_cases htop : code < 2 * quarter
      · have hsecond : code % quarter = code - quarter := by
          rw [Nat.mod_eq_sub_mod (by omega), Nat.mod_eq_of_lt (by omega)]
        rw [Nat.div_eq_of_lt htop, hsecond]
        omega
      · have hsecond : code % quarter = code - 2 * quarter := by
          rw [Nat.mod_eq_sub_mod (by omega), Nat.mod_eq_sub_mod (by omega),
            Nat.mod_eq_of_lt (by omega)]
          omega
        have hfirst : code / (2 * quarter) = 1 :=
          Nat.div_eq_of_lt_le (by omega) (by omega)
        rw [hfirst, hsecond]
        omega
    apply ih
    · rw [hregister]
      dsimp only
      omega
    · rw [hregister]
      dsimp only
      omega

end scaling

end TonCompress.Lib
