import TonCompress.Lib.Scaling

/-! Coders with `w + 1` state bits, one at least. The ends of an interval go on, `low`
with zeros and `high` with ones, so such a coder is one with `w + 2` bits that keeps its
last bit to itself. -/
namespace TonCompress.Lib

/-- The interval with one more bit. -/
def Interval.widen (iv : Interval) : Interval := ⟨2 * iv.low, 2 * iv.high + 1⟩

def Rescale.narrowRegister (w code : Nat) (bit : Bool) : Rescale → Nat
  | .shift _ => 2 * code % 2 ^ (w + 1) + bit.toNat
  | .underflow => code / 2 ^ w * 2 ^ w + 2 * code % 2 ^ w + bit.toNat

def narrowAfter (w : Nat) : List Rescale → Nat → BitStream → Nat
  | [], code, _ => code
  | event :: events, code, stream =>
      narrowAfter w events (event.narrowRegister w code (stream 0)) (stream.drop 1)

/-- `codeAt` for the register of `w + 1` bits. -/
def narrowCodeAt (w pending : Nat) (stream : BitStream) : Nat :=
  (stream 0).toNat * 2 ^ w + (stream.drop (pending + 1)).value w

section narrow
variable {w pending : Nat} {iv iv' : Interval} {events : List Rescale} {stream : BitStream}

theorem codeAt_narrow (w pending : Nat) (stream : BitStream) :
    codeAt w pending stream =
      2 * narrowCodeAt w pending stream + (stream (pending + w + 1)).toNat := by
  have hlast : stream.drop (pending + 1) w = stream (pending + w + 1) := by
    rw [BitStream.drop_apply]
    congr 1
    omega
  rw [codeAt, narrowCodeAt, BitStream.value_succ, hlast, pow_succ]
  ring

theorem narrowCodeAt_lt (w pending : Nat) (stream : BitStream) :
    narrowCodeAt w pending stream < 2 ^ (w + 1) := by
  have hlt := codeAt_lt w pending stream
  rw [codeAt_narrow, pow_succ] at hlt
  omega

theorem push_mod (code m : Nat) (bit : Bool) :
    (2 * code + bit.toNat) % (2 * m) = 2 * code % (2 * m) + bit.toNat := by
  have hbit := Bool.toNat_le bit
  have hhalf : (2 * code + bit.toNat) / 2 = code := by omega
  have hlast : (2 * code + bit.toNat) % 2 = bit.toNat := by omega
  rw [Nat.mod_mul, hhalf, hlast, Nat.mul_mod_mul_left, Nat.add_comm]

theorem register_push (event : Rescale) (hevent : event = .underflow → 0 < w) (code : Nat)
    (last bit : Bool) :
    event.register w (2 * code + last.toNat) bit =
      2 * event.narrowRegister w code last + bit.toNat := by
  have hlast := Bool.toNat_le last
  cases event with
  | shift _ =>
    unfold Rescale.register Rescale.narrowRegister
    dsimp only
    rw [pow_succ' 2 (w + 1), Nat.mul_mod_mul_left, pow_succ' 2 w, push_mod]
  | underflow =>
    obtain ⟨v, rfl⟩ := Nat.exists_eq_succ_of_ne_zero (hevent rfl).ne'
    have hquot : (2 * code + last.toNat) / 2 ^ (v + 1 + 1) = code / 2 ^ (v + 1) := by
      rw [pow_succ' 2 (v + 1), ← Nat.div_div_eq_div_mul]
      congr 1
      omega
    unfold Rescale.register Rescale.narrowRegister
    dsimp only
    rw [Nat.succ_eq_add_one, hquot, pow_succ' 2 (v + 1), Nat.mul_mod_mul_left, Nat.mul_left_comm,
      pow_succ' 2 v, push_mod]
    ring

theorem registerAfter_push (hevents : .underflow ∈ events → 0 < w) (code : Nat)
    (stream : BitStream) :
    registerAfter w events (2 * code + (stream 0).toNat) (stream.drop 1) =
      2 * narrowAfter w events code stream + (stream events.length).toNat := by
  induction events generalizing code stream with
  | nil => rfl
  | cons event events ih =>
    have hhead : event = .underflow → 0 < w := fun h => hevents (h ▸ List.mem_cons_self)
    have hrest := ih (fun h => hevents (List.mem_cons_of_mem _ h))
      (event.narrowRegister w code (stream 0)) (stream.drop 1)
    rw [registerAfter, narrowAfter, register_push event hhead]
    exact hrest

/-- The register follows the events along the stream. -/
theorem narrowAfter_codeAt (hevents : .underflow ∈ events → 0 < w) (pending : Nat)
    (stream : BitStream) :
    narrowAfter w events (narrowCodeAt w pending (.onto (emitted events pending) stream))
        ((BitStream.onto (emitted events pending) stream).drop (pending + w + 1)) =
      narrowCodeAt w (pendingAfter events pending) stream := by
  let whole := BitStream.onto (emitted events pending) stream
  have hwide := @registerAfter_codeAt w events pending stream
  have hnarrow := registerAfter_push hevents (narrowCodeAt w pending whole)
    (whole.drop (pending + w + 1))
  rw [BitStream.drop_drop, BitStream.drop_apply, Nat.zero_add, ← codeAt_narrow] at hnarrow
  have hbit := Bool.toNat_le (whole.drop (pending + w + 1) events.length)
  have hbit' := Bool.toNat_le (stream (pendingAfter events pending + w + 1))
  rw [codeAt_narrow w _ stream] at hwide
  have hboth := hnarrow.symm.trans hwide
  change narrowAfter w events (narrowCodeAt w pending whole) (whole.drop (pending + w + 1)) = _
  omega

theorem Scaling.widen_shift {low high : Nat} {bit : Bool} (low_half : low / 2 ^ w = bit.toNat)
    (high_half : high / 2 ^ w = bit.toNat)
    (rest : Scaling w
      (Interval.widen ⟨2 * (low - bit.toNat * 2 ^ w), 2 * (high - bit.toNat * 2 ^ w) + 1⟩)
      events iv) :
    Scaling w (Interval.widen ⟨low, high⟩) (.shift bit :: events) iv := by
  have hpow : 2 ^ (w + 1) = 2 * 2 ^ w := pow_succ' 2 w
  have hle : bit.toNat * 2 ^ w ≤ low := low_half ▸ Nat.div_mul_le_self _ _
  have hle' : bit.toNat * 2 ^ w ≤ high := high_half ▸ Nat.div_mul_le_self _ _
  refine .shift ?_ ?_ ?_
  · rw [hpow, ← Nat.div_div_eq_div_mul, Nat.mul_div_cancel_left _ Nat.two_pos, low_half]
  · rw [hpow, ← Nat.div_div_eq_div_mul, show (2 * high + 1) / 2 = high by omega, high_half]
  · have hlow : 2 * (2 * low - bit.toNat * 2 ^ (w + 1)) = 2 * (2 * (low - bit.toNat * 2 ^ w)) := by
      rw [hpow, Nat.mul_left_comm]
      omega
    have hhigh : 2 * (2 * high + 1 - bit.toNat * 2 ^ (w + 1)) + 1 =
        2 * (2 * (high - bit.toNat * 2 ^ w) + 1) + 1 := by
      rw [hpow, Nat.mul_left_comm]
      omega
    rw [hlow, hhigh]
    exact rest

theorem Scaling.widen_underflow {low high quarter : Nat} (hquarter : 2 * quarter = 2 ^ w)
    (low_ge : quarter ≤ low) (low_lt : low < 2 ^ w) (high_ge : 2 ^ w ≤ high)
    (high_lt : high < 3 * quarter)
    (rest : Scaling w (Interval.widen ⟨2 * low - 2 ^ w, 2 * high - 2 ^ w + 1⟩) events iv) :
    Scaling w (Interval.widen ⟨low, high⟩) (.underflow :: events) iv := by
  have hpow : 2 ^ (w + 1) = 2 * 2 ^ w := pow_succ' 2 w
  change Scaling w ⟨2 * low, 2 * high + 1⟩ (.underflow :: events) iv
  refine .underflow (by omega) (by omega) (by omega) (by omega) ?_
  have hlow : 2 * (2 * low) - 2 ^ (w + 1) = 2 * (2 * low - 2 ^ w) := by omega
  have hhigh : 2 * (2 * high + 1) - 2 ^ (w + 1) + 1 = 2 * (2 * high - 2 ^ w + 1) + 1 := by omega
  rw [hlow, hhigh]
  exact rest

/-- With one state bit nothing straddles the middle closely. -/
theorem Scaling.underflow_pos (h : Scaling w iv events iv') (hlow : iv.low % 2 = 0)
    (hhigh : iv.high % 2 = 1) : .underflow ∈ events → 0 < w := by
  induction h with
  | refl iv => exact fun hmem => absurd hmem List.not_mem_nil
  | shift low_half high_half rest ih =>
    intro hmem
    refine ih ?_ ?_ (by simpa using hmem)
    · dsimp only
      omega
    · dsimp only
      omega
  | underflow low_ge low_lt high_ge high_lt rest ih =>
    intro _
    by_contra hw
    obtain rfl : w = 0 := by omega
    dsimp only at hlow
    omega

theorem Inside.narrow_mem (h : Inside w iv.widen pending stream) :
    iv.low ≤ narrowCodeAt w pending stream ∧ narrowCodeAt w pending stream ≤ iv.high := by
  have hlow := h.low_le
  have hhigh := h.le_high
  have hbit := Bool.toNat_le (stream (pending + w + 1))
  rw [codeAt_narrow] at hlow hhigh
  unfold Interval.widen at hlow hhigh
  dsimp only at hlow hhigh
  omega

theorem Inside.widen_mono (h : Inside w iv.widen pending stream) (hlow : iv'.low ≤ iv.low)
    (hhigh : iv.high ≤ iv'.high) : Inside w iv'.widen pending stream :=
  h.mono (Nat.mul_le_mul_left 2 hlow) (Nat.succ_le_succ (Nat.mul_le_mul_left 2 hhigh))

theorem Scaling.narrowAfter_mem (h : Scaling w iv.widen events iv'.widen) {code : Nat}
    (hlow : iv.low ≤ code) (hhigh : code ≤ iv.high) (stream : BitStream) :
    iv'.low ≤ narrowAfter w events code stream ∧ narrowAfter w events code stream ≤ iv'.high := by
  have hbit := Bool.toNat_le (stream 0)
  have hbit' := Bool.toNat_le (stream events.length)
  have hevents : .underflow ∈ events → 0 < w := by
    apply h.underflow_pos
    · exact Nat.mul_mod_right 2 _
    · exact Nat.mul_add_mod_self_left 2 _ 1
  have hmem := @Scaling.registerAfter_mem w iv.widen iv'.widen events h
    (2 * code + (stream 0).toNat) (by unfold Interval.widen; dsimp only; omega)
    (by unfold Interval.widen; dsimp only; omega) (stream.drop 1)
  rw [registerAfter_push hevents] at hmem
  unfold Interval.widen at hmem
  dsimp only at hmem
  omega

end narrow

end TonCompress.Lib
