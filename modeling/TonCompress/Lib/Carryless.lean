import TonCompress.Lib.BigEndian
import Mathlib.Tactic.IntervalCases
import Mathlib.Tactic.NormNum

/-! Range coding without carries. The next four bytes of a code, its window, lie
between the two ends of a range. A bit takes one side of a point in the range,
and the leading bytes that the ends have in common are sent. The lower end is
never zero, so four zero bytes can stand behind a code as its end. -/
namespace TonCompress.Lib

/-- The number that the next four bytes of a code spell. -/
def window (code : List UInt8) : Nat := beValue (code.take 4)

theorem exists_eq_cons_four {code : List UInt8} (h : 4 ≤ code.length) :
    ∃ a b c d rest, code = a :: b :: c :: d :: rest := by
  rcases code with _ | ⟨a, _ | ⟨b, _ | ⟨c, _ | ⟨d, rest⟩⟩⟩⟩ <;> simp at h
  exact ⟨a, b, c, d, rest, rfl⟩

theorem window_cons (byte : UInt8) {code : List UInt8} (h : 3 ≤ code.length) :
    window (byte :: code) = byte.toNat * 2 ^ 24 + beValue (code.take 3) := by
  rw [window, List.take_succ_cons, beValue_cons, List.length_take, Nat.min_eq_left h]
  norm_num

theorem window_div (code : List UInt8) (h : 4 ≤ code.length) :
    window code / 256 = beValue (code.take 3) := by
  obtain ⟨a, b, c, d, rest, rfl⟩ := exists_eq_cons_four h
  have hd := d.toNat_lt
  simp [window, beValue_cons]
  omega

theorem window_next (a b c d e : UInt8) (rest : List UInt8) :
    window (b :: c :: d :: e :: rest) =
      window (a :: b :: c :: d :: e :: rest) * 256 % 2 ^ 32 + e.toNat := by
  have ha := a.toNat_lt
  have hb := b.toNat_lt
  have hc := c.toNat_lt
  have hd := d.toNat_lt
  have he := e.toNat_lt
  simp [window, beValue_cons]
  omega

theorem eq_replicate_of_window {code : List UInt8} (h : window code = 0) (hlength : 4 ≤ code.length) :
    code.take 4 = List.replicate 4 0 := by
  have hfour : (code.take 4).length = 4 := by
    rw [List.length_take]
    omega
  calc code.take 4 = beBytes (beValue (code.take 4)) (code.take 4).length := (beBytes_beValue _).symm
    _ = beBytes 0 4 := by rw [hfour, show beValue (code.take 4) = 0 from h]
    _ = List.replicate 4 0 := rfl

/-- The ends between which the window of a code lies. -/
structure CodeRange where
  low : Nat
  high : Nat
  deriving DecidableEq, Repr

namespace CodeRange

/-- A lower end that would be zero is one. -/
def lift (low : Nat) : Nat := if low = 0 then 1 else low

def shift (r : CodeRange) : CodeRange := ⟨lift (r.low * 256 % 2 ^ 32), r.high * 256 % 2 ^ 32 + 255⟩

def leading (r : CodeRange) : UInt8 := UInt8.ofNat (r.high / 2 ^ 24)

def Apart (r : CodeRange) : Prop := r.low / 2 ^ 24 ≠ r.high / 2 ^ 24

instance (r : CodeRange) : Decidable r.Apart := inferInstanceAs (Decidable (_ ≠ _))

/-- Takes off the leading bytes that the ends have in common, `fuel` at most. -/
def settle : Nat → CodeRange → List UInt8 × CodeRange
  | 0, r => ([], r)
  | fuel + 1, r =>
      if r.Apart then ([], r)
      else (r.leading :: (settle fuel r.shift).1, (settle fuel r.shift).2)

def pick (r : CodeRange) (mid : Nat) (bit : Bool) : CodeRange :=
  if bit then ⟨r.low, mid⟩ else ⟨mid + 1, r.high⟩

/-- The point that gives a one `p` parts of 2 ^ 16. -/
def split (r : CodeRange) (p : Nat) : Nat := r.low + (r.high - r.low) * p / 2 ^ 16

structure Valid (r : CodeRange) : Prop where
  pos : 0 < r.low
  le : r.low ≤ r.high
  lt : r.high < 2 ^ 32

/-- The code may go on with these bytes. -/
structure Holds (r : CodeRange) (code : List UInt8) : Prop where
  length : 4 ≤ code.length
  low_le : r.low ≤ window code
  le_high : window code ≤ r.high

variable {r : CodeRange} {code : List UInt8}

@[simp] theorem settle_zero (r : CodeRange) : settle 0 r = ([], r) := rfl

theorem settle_of_apart (n : Nat) (h : r.Apart) : settle n r = ([], r) := by
  cases n with
  | zero => rfl
  | succ n => exact if_pos h

theorem settle_succ (n : Nat) (h : ¬ r.Apart) :
    settle (n + 1) r = (r.leading :: (settle n r.shift).1, (settle n r.shift).2) := if_neg h

theorem le_lift (low : Nat) : low ≤ lift low := by
  unfold lift
  split <;> omega

theorem lift_pos (low : Nat) : 0 < lift low := by
  unfold lift
  split <;> omega

theorem lift_le {low bound : Nat} (h : low ≤ bound) (hbound : 0 < bound) : lift low ≤ bound := by
  unfold lift
  split <;> omega

theorem Valid.shift (h : r.Valid) (hnear : ¬ r.Apart) : r.shift.Valid := by
  have hle := h.le
  have hlt := h.lt
  unfold Apart at hnear
  refine ⟨lift_pos _, lift_le ?_ ?_, ?_⟩ <;> simp only [CodeRange.shift] <;> omega

theorem Valid.settle (h : r.Valid) (n : Nat) : (settle n r).2.Valid := by
  induction n generalizing r with
  | zero => exact h
  | succ n ih =>
    by_cases hr : r.Apart
    · rwa [settle_of_apart _ hr]
    · rw [settle_succ n hr]
      exact ih (h.shift hr)

theorem Holds.cons (hvalid : r.Valid) (hnear : ¬ r.Apart) (h : r.shift.Holds code) :
    r.Holds (r.leading :: code) := by
  have hle := hvalid.le
  have hlt := hvalid.lt
  have hlow := (le_lift _).trans h.low_le
  have hhigh := h.le_high
  have hlength := h.length
  have hbyte : r.leading.toNat = r.high / 2 ^ 24 := by
    rw [leading, UInt8.toNat_ofNat', Nat.mod_eq_of_lt (by omega)]
  have hwindow : window (r.leading :: code) = r.high / 2 ^ 24 * 2 ^ 24 + window code / 256 := by
    rw [window_cons _ (by omega), hbyte, window_div code hlength]
  unfold Apart at hnear
  simp only [shift] at hlow hhigh
  refine ⟨by rw [List.length_cons]; omega, ?_, ?_⟩ <;> rw [hwindow] <;> omega

theorem Holds.settle (hvalid : r.Valid) {n : Nat} (h : (settle n r).2.Holds code) :
    r.Holds ((settle n r).1 ++ code) := by
  induction n generalizing r with
  | zero => exact h
  | succ n ih =>
    by_cases hr : r.Apart
    · rw [settle_of_apart _ hr] at h ⊢
      exact h
    · rw [settle_succ n hr] at h ⊢
      exact (ih (hvalid.shift hr) h).cons hvalid hr

theorem spread_shift (h : r.Valid) (hnear : ¬ r.Apart) :
    255 * (r.high - r.low + 1) ≤ r.shift.high - r.shift.low + 1 := by
  have hle := h.le
  have hlt := h.lt
  have hlift : (r.shift).low ≤ r.low * 256 % 2 ^ 32 + 1 := lift_le (Nat.le_succ _) (Nat.succ_pos _)
  unfold Apart at hnear
  simp only [shift] at hlift ⊢
  omega

theorem apart_settle (h : r.Valid) {n : Nat} (hn : 2 ^ 24 < (r.high - r.low + 1) * 255 ^ n) :
    (settle n r).2.Apart := by
  induction n generalizing r with
  | zero =>
    have hle := h.le
    change r.Apart
    unfold Apart
    omega
  | succ n ih =>
    by_cases hr : r.Apart
    · rwa [settle_of_apart _ hr]
    · rw [settle_succ n hr]
      apply ih (h.shift hr)
      calc 2 ^ 24 < (r.high - r.low + 1) * 255 ^ (n + 1) := hn
        _ = 255 * (r.high - r.low + 1) * 255 ^ n := by ring
        _ ≤ (r.shift.high - r.shift.low + 1) * 255 ^ n :=
            Nat.mul_le_mul_right _ (spread_shift h hr)

theorem apart_settle_four (h : r.Valid) : (settle 4 r).2.Apart := by
  apply apart_settle h
  calc 2 ^ 24 < 1 * 255 ^ 4 := by decide
    _ ≤ (r.high - r.low + 1) * 255 ^ 4 := Nat.mul_le_mul_right _ (by omega)

theorem lt_of_apart (h : r.Valid) (hr : r.Apart) : r.low < r.high := by
  have hle := h.le
  unfold Apart at hr
  omega

theorem split_lt (h : r.Valid) (hr : r.Apart) {p : Nat} (hp : p < 2 ^ 16) :
    r.split p < r.high := by
  have hlt := lt_of_apart h hr
  have hpart : (r.high - r.low) * p / 2 ^ 16 < r.high - r.low := by
    apply Nat.div_lt_of_lt_mul
    rw [Nat.mul_comm]
    exact Nat.mul_lt_mul_of_pos_right hp (by omega)
  unfold split
  omega

section pick
variable {mid : Nat} {bit : Bool}

theorem Valid.pick (h : r.Valid) (hlow : r.low ≤ mid) (hhigh : mid < r.high) :
    (r.pick mid bit).Valid := by
  have hlt := h.lt
  have hpos := h.pos
  unfold CodeRange.pick
  cases bit with
  | true => exact ⟨hpos, hlow, by simp only [if_true]; omega⟩
  | false => exact ⟨Nat.succ_pos mid, hhigh, hlt⟩

theorem Holds.of_pick (hlow : r.low ≤ mid) (hhigh : mid < r.high) (h : (r.pick mid bit).Holds code) :
    r.Holds code := by
  have hle := h.low_le
  have hge := h.le_high
  unfold pick at hle hge
  cases bit with
  | true => exact ⟨h.length, hle, hge.trans hhigh.le⟩
  | false => exact ⟨h.length, (hlow.trans (Nat.le_succ mid)).trans hle, hge⟩

/-- The window tells which side was picked. -/
theorem Holds.bit_eq (h : (r.pick mid bit).Holds code) : decide (window code ≤ mid) = bit := by
  have hle := h.low_le
  have hge := h.le_high
  unfold pick at hle hge
  cases bit with
  | true => exact decide_eq_true hge
  | false => exact decide_eq_false (Nat.not_le.mpr hle)

end pick

theorem settle_length_of_near {k n : Nat} (hnear : r.low / 256 ^ k = r.high / 256 ^ k)
    (hk : k + n ≤ 4) : (settle n r).1.length = n := by
  induction n generalizing r k with
  | zero => rfl
  | succ n ih =>
    have hr : ¬ r.Apart := by
      have hpow : 256 ^ k * 256 ^ (3 - k) = 2 ^ 24 := by
        rw [← pow_add, show k + (3 - k) = 3 by omega]
        norm_num
      unfold Apart
      rw [not_not, ← hpow, ← Nat.div_div_eq_div_mul, ← Nat.div_div_eq_div_mul, hnear]
    have hshift : r.shift.low / 256 ^ (k + 1) = r.shift.high / 256 ^ (k + 1) := by
      have hk3 : k ≤ 3 := by omega
      clear ih hr hk
      simp only [shift, lift]
      interval_cases k <;> norm_num at hnear ⊢ <;> split <;> omega
    rw [settle_succ n hr, List.length_cons, ih hshift (by omega)]

theorem settle_point (h : r.Valid) (hpoint : r.low = r.high) :
    (settle 4 r).1 = beBytes r.low 4 := by
  have hlength : (settle 4 r).1.length = 4 :=
    @settle_length_of_near r 0 4 (by rw [hpoint]) le_rfl
  have hafter := h.settle 4
  have hbound := hafter.le.trans_lt hafter.lt
  have hholds : (settle 4 r).2.Holds (beBytes (settle 4 r).2.low 4) := by
    have hwindow : window (beBytes (settle 4 r).2.low 4) = (settle 4 r).2.low := by
      rw [window, List.take_of_length_le (by simp), beValue_beBytes (by omega)]
    exact ⟨by simp, hwindow.ge, hwindow.le.trans hafter.le⟩
  have hall := hholds.settle h
  have hwindow : window ((settle 4 r).1 ++ beBytes (settle 4 r).2.low 4) = beValue (settle 4 r).1 := by
    rw [window, List.take_left' hlength]
  have hvalue : beValue (settle 4 r).1 = r.low := by
    have hlow := hall.low_le
    have hhigh := hall.le_high
    omega
  calc (settle 4 r).1 = beBytes (beValue (settle 4 r).1) (settle 4 r).1.length :=
        (beBytes_beValue _).symm
    _ = beBytes r.low 4 := by rw [hvalue, hlength]

end CodeRange

/-- Each window of the code up to the four zeros in front of `tail` is nonzero,
but for those that reach into more zeros before them. -/
inductive Sealed (tail : List UInt8) : List UInt8 → Prop
  | zeros (n : Nat) : Sealed tail (List.replicate (n + 4) 0 ++ tail)
  | byte {byte : UInt8} {code : List UInt8} (hwindow : window (byte :: code) ≠ 0)
      (hcode : Sealed tail code) : Sealed tail (byte :: code)

namespace Sealed
open CodeRange
variable {tail code : List UInt8} {r : CodeRange}

theorem settle (h : Sealed tail code) (hvalid : r.Valid) {n : Nat}
    (hholds : (settle n r).2.Holds code) : Sealed tail ((CodeRange.settle n r).1 ++ code) := by
  induction n generalizing r with
  | zero => exact h
  | succ n ih =>
    by_cases hr : r.Apart
    · rwa [settle_of_apart _ hr]
    · have hall := hholds.settle hvalid
      rw [settle_succ n hr] at hholds hall ⊢
      have hwindow : window ((r.leading :: (CodeRange.settle n r.shift).1) ++ code) ≠ 0 :=
        Nat.pos_iff_ne_zero.mp (hvalid.pos.trans_le hall.low_le)
      exact .byte hwindow (ih (hvalid.shift hr) hholds)

theorem of_last (last : List UInt8) (hlast : last.length ≤ 4) :
    Sealed tail (last ++ (List.replicate 4 0 ++ tail)) := by
  induction last with
  | nil => exact .zeros 0
  | cons byte last ih =>
    rw [List.length_cons] at hlast
    by_cases hwindow : window (byte :: (last ++ (List.replicate 4 0 ++ tail))) = 0
    · have hzeros : byte :: last = List.replicate (last.length + 1) 0 := by
        have hfirst := congrArg (List.take (last.length + 1))
          (eq_replicate_of_window hwindow (by simp; omega))
        rw [List.take_take, Nat.min_eq_left hlast, List.take_replicate, Nat.min_eq_left hlast]
          at hfirst
        rw [← hfirst]
        simp
      rw [hzeros, ← List.append_assoc, List.replicate_append_replicate]
      exact .zeros (last.length + 1)
    · exact .byte hwindow (ih (by omega))

end Sealed

end TonCompress.Lib
