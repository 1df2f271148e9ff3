import Mathlib.Algebra.Order.Ring.Nat
import Mathlib.Algebra.Order.Ring.Int
import Mathlib.Data.List.Range
import Mathlib.Data.Nat.Bitwise
import Mathlib.Tactic.Ring

/-! The bits of byte strings, endless bit streams, and the conversions between
machine integers. -/
namespace TonCompress.Lib

/-- The bits of a byte string, high bit first. -/
def bitsOf (bytes : List UInt8) : List Bool :=
  bytes.flatMap fun byte => (List.range 8).map fun i => byte.toNat.testBit (7 - i)

/-- The `n` low bits of a number, high bit first. -/
def lowBits (n value : Nat) : List Bool := (List.range n).map fun i => value.testBit (n - 1 - i)

/-- The cast of an unsigned value to a 32-bit `int`. -/
def asInt32 (value : Nat) : Int :=
  if value % 2 ^ 32 < 2 ^ 31 then (value % 2 ^ 32 : Nat)
  else (value % 2 ^ 32 : Nat) - (2 ^ 32 : Nat)

/-- The cast of a signed value to a 64-bit `size_t`. -/
def asUint64 (value : Int) : Nat := (value % 2 ^ 64).toNat

theorem asInt32_of_lt {value : Nat} (h : value < 2 ^ 31) : asInt32 value = value := by
  unfold asInt32
  split <;> omega

theorem asInt32_bounds (value : Nat) : -(2 ^ 31) ≤ asInt32 value ∧ asInt32 value < 2 ^ 31 := by
  unfold asInt32
  split <;> omega

theorem asUint64_natCast {value : Nat} (h : value < 2 ^ 64) : asUint64 value = value := by
  unfold asUint64
  omega

@[simp] theorem bitsOf_nil : bitsOf [] = [] := rfl

@[simp] theorem bitsOf_append (left right : List UInt8) :
    bitsOf (left ++ right) = bitsOf left ++ bitsOf right :=
  List.flatMap_append

theorem xor_and_two_pow_eq_zero (x y i : Nat) :
    (x ^^^ y) &&& 2 ^ i = 0 ↔ x.testBit i = y.testBit i := by
  rw [Nat.and_two_pow, Nat.testBit_xor]
  cases x.testBit i <;> cases y.testBit i <;> simp

theorem add_two_pow_xor {x i : Nat} (h : x < 2 ^ i) : (x + 2 ^ i) ^^^ 2 ^ i = x := by
  rw [← Nat.or_two_pow_eq_add_of_lt h]
  apply Nat.eq_of_testBit_eq
  intro j
  rw [Nat.testBit_xor, Nat.testBit_or, Nat.testBit_two_pow]
  by_cases hj : i = j
  · subst hj
    simp [Nat.testBit_lt_two_pow h]
  · simp [hj]

theorem double_or_bit (x : Nat) {bit : Nat} (h : bit < 2) : 2 * x ||| bit = 2 * x + bit := by
  have hor := @Nat.two_pow_add_eq_or_of_lt 1 bit h x
  rw [pow_one] at hor
  exact hor.symm

theorem bitsOf_singleton (byte : UInt8) : bitsOf [byte] = lowBits 8 byte.toNat := by
  rw [bitsOf, List.flatMap_singleton]
  rfl

theorem bitsOf_cons (byte : UInt8) (bytes : List UInt8) :
    bitsOf (byte :: bytes) = lowBits 8 byte.toNat ++ bitsOf bytes := by
  rw [← bitsOf_singleton, ← bitsOf_append]
  rfl

@[simp] theorem lowBits_zero (value : Nat) : lowBits 0 value = [] := rfl

theorem lowBits_succ (n value : Nat) : lowBits (n + 1) value = value.testBit n :: lowBits n value := by
  rw [lowBits, List.range_succ_eq_map, List.map_cons, List.map_map]
  congr 1
  apply List.map_congr_left
  intro i _
  simp only [Function.comp_apply]
  congr 1
  omega

theorem lowBits_push (n value : Nat) (bit : Bool) :
    lowBits (n + 1) (2 * value + bit.toNat) = lowBits n value ++ [bit] := by
  rw [lowBits, List.range_succ, List.map_append, List.map_singleton]
  congr 1
  · apply List.map_congr_left
    intro i hi
    have hi := List.mem_range.mp hi
    have hhalf : (2 * value + bit.toNat) / 2 = value := by
      have hbit := Bool.toNat_le bit
      omega
    rw [show n + 1 - 1 - i = n - 1 - i + 1 by omega, Nat.testBit_add_one, hhalf]
  · rw [show n + 1 - 1 - n = 0 by omega, Nat.testBit_zero]
    cases bit <;> simp [Nat.mul_comm 2]

theorem lowBits_getElem? {n value i : Nat} (h : i < n) :
    (lowBits n value)[i]? = some (value.testBit (n - 1 - i)) := by
  simp [lowBits, h]

@[simp] theorem lowBits_length (n value : Nat) : (lowBits n value).length = n := by
  simp [lowBits]

@[simp] theorem bitsOf_length (bytes : List UInt8) : (bitsOf bytes).length = 8 * bytes.length := by
  induction bytes with
  | nil => rfl
  | cons byte bytes ih =>
    rw [bitsOf_cons, List.length_append, lowBits_length, ih, List.length_cons]
    omega

theorem div_eq_of_lowBits_take {value value' used : Nat} (hvalue : value < 256)
    (hvalue' : value' < 256) (hused : used ≤ 8)
    (h : (lowBits 8 value).take used = (lowBits 8 value').take used) :
    value / 2 ^ (8 - used) = value' / 2 ^ (8 - used) := by
  apply Nat.eq_of_testBit_eq
  intro j
  rw [Nat.testBit_div_two_pow, Nat.testBit_div_two_pow]
  by_cases hj : j < used
  · have hbit := congrArg (fun bits => bits[used - 1 - j]?) h
    simp only [List.getElem?_take, if_pos (show used - 1 - j < used by omega)] at hbit
    rw [lowBits_getElem? (by omega), lowBits_getElem? (by omega), Option.some.injEq,
      show 8 - 1 - (used - 1 - j) = j + (8 - used) by omega] at hbit
    exact hbit
  · have hpow : 2 ^ 8 ≤ 2 ^ (j + (8 - used)) := Nat.pow_le_pow_right (by omega) (by omega)
    rw [Nat.testBit_lt_two_pow (by omega), Nat.testBit_lt_two_pow (by omega)]

theorem bitsOf_injective {left right : List UInt8} (h : bitsOf left = bitsOf right) :
    left = right := by
  induction left generalizing right with
  | nil =>
    have hlen := congrArg List.length h
    rw [bitsOf_length, bitsOf_length, List.length_nil] at hlen
    exact (List.length_eq_zero_iff.mp (by omega)).symm
  | cons byte left ih =>
    cases right with
    | nil =>
      have hlen := congrArg List.length h
      rw [bitsOf_length, bitsOf_length, List.length_nil, List.length_cons] at hlen
      omega
    | cons byte' right =>
      rw [bitsOf_cons, bitsOf_cons] at h
      obtain ⟨hfirst, hrest⟩ := List.append_inj h (by simp)
      have hdiv := @div_eq_of_lowBits_take byte.toNat byte'.toNat 8 byte.toNat_lt byte'.toNat_lt
        le_rfl (by rw [hfirst])
      rw [Nat.sub_self, pow_zero, Nat.div_one, Nat.div_one] at hdiv
      rw [UInt8.toNat_inj.mp hdiv, ih hrest]

/-- A bit stream without end. -/
abbrev BitStream := Nat → Bool

namespace BitStream

def zeros : BitStream := fun _ => false

def drop (n : Nat) (stream : BitStream) : BitStream := fun i => stream (i + n)

/-- A bit list with a stream behind it. -/
def onto : List Bool → BitStream → BitStream
  | [], stream => stream
  | bit :: bits, stream => fun
      | 0 => bit
      | i + 1 => onto bits stream i

def value : Nat → BitStream → Nat
  | 0, _ => 0
  | n + 1, stream => (stream 0).toNat * 2 ^ n + value n (stream.drop 1)

variable (stream : BitStream)

@[simp] theorem onto_nil : onto [] stream = stream := rfl

@[simp] theorem onto_cons_zero (bit : Bool) (bits : List Bool) : onto (bit :: bits) stream 0 = bit :=
  rfl

@[simp] theorem onto_cons_succ (bit : Bool) (bits : List Bool) (i : Nat) :
    onto (bit :: bits) stream (i + 1) = onto bits stream i := rfl

@[simp] theorem drop_zero : stream.drop 0 = stream := rfl

@[simp] theorem drop_apply (n i : Nat) : stream.drop n i = stream (i + n) := rfl

@[simp] theorem drop_drop (m n : Nat) : (stream.drop m).drop n = stream.drop (m + n) := by
  funext i
  simp only [drop_apply, Nat.add_assoc, Nat.add_comm n]

theorem drop_onto (bits : List Bool) : (onto bits stream).drop bits.length = stream := by
  induction bits with
  | nil => rfl
  | cons bit bits ih =>
    funext i
    exact congrFun ih i

@[simp] theorem onto_append (left right : List Bool) :
    onto (left ++ right) stream = onto left (onto right stream) := by
  induction left with
  | nil => rfl
  | cons bit left ih =>
    funext i
    cases i with
    | zero => rfl
    | succ i => exact congrFun ih i

theorem onto_replicate_lt {n i : Nat} (h : i < n) (bit : Bool) :
    onto (List.replicate n bit) stream i = bit := by
  induction n generalizing i with
  | zero => omega
  | succ n ih =>
    cases i with
    | zero => rfl
    | succ i => exact ih (by omega)

theorem onto_replicate_false_zeros (n : Nat) : onto (List.replicate n false) zeros = zeros := by
  induction n with
  | zero => rfl
  | succ n ih =>
    funext i
    cases i with
    | zero => rfl
    | succ i => exact congrFun ih i

theorem value_lt (n : Nat) : value n stream < 2 ^ n := by
  induction n generalizing stream with
  | zero => simp [value]
  | succ n ih =>
    have hrest := ih (stream.drop 1)
    have hbit := Bool.toNat_le (stream 0)
    rw [value, pow_succ]
    have hmul : (stream 0).toNat * 2 ^ n ≤ 1 * 2 ^ n := Nat.mul_le_mul_right _ hbit
    omega

theorem value_succ (n : Nat) : value (n + 1) stream = 2 * value n stream + (stream n).toNat := by
  induction n generalizing stream with
  | zero => simp [value]
  | succ n ih =>
    rw [value, ih, value, drop_apply, pow_succ]
    ring

theorem value_zeros (n : Nat) : value n zeros = 0 := by
  induction n with
  | zero => rfl
  | succ n ih =>
    rw [value_succ, ih]
    rfl

end BitStream

end TonCompress.Lib
