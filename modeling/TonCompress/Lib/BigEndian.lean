import Mathlib.Algebra.Order.Ring.Nat
import Mathlib.Algebra.Group.Basic
import Mathlib.Data.Finset.Card
import Mathlib.Data.UInt
import Mathlib.Tactic.Ring

/-! Numbers as big-endian byte strings. -/
namespace TonCompress.Lib

def beValue (bytes : List UInt8) : Nat :=
  bytes.foldl (fun value byte => value * 256 + byte.toNat) 0

def beBytes (value : Nat) : Nat → List UInt8
  | 0 => []
  | count + 1 => beBytes (value / 256) count ++ [UInt8.ofNat value]

@[simp] theorem beValue_nil : beValue [] = 0 := rfl

theorem beValue_foldl (bytes : List UInt8) (value : Nat) :
    bytes.foldl (fun value byte => value * 256 + byte.toNat) value =
      value * 256 ^ bytes.length + beValue bytes := by
  induction bytes generalizing value with
  | nil => simp
  | cons byte bytes ih =>
    rw [beValue, List.foldl_cons, List.foldl_cons, ih, ih, List.length_cons, pow_succ]
    ring

theorem beValue_append (left right : List UInt8) :
    beValue (left ++ right) = beValue left * 256 ^ right.length + beValue right := by
  rw [beValue, List.foldl_append, beValue_foldl]
  rfl

@[simp] theorem beValue_singleton (byte : UInt8) : beValue [byte] = byte.toNat := by
  simp [beValue]

theorem beValue_cons (byte : UInt8) (bytes : List UInt8) :
    beValue (byte :: bytes) = byte.toNat * 256 ^ bytes.length + beValue bytes := by
  rw [← List.singleton_append, beValue_append, beValue_singleton]

theorem beValue_lt (bytes : List UInt8) : beValue bytes < 256 ^ bytes.length := by
  induction bytes with
  | nil => simp
  | cons byte bytes ih =>
    have hbyte := byte.toNat_lt
    rw [beValue_cons, List.length_cons, pow_succ]
    calc byte.toNat * 256 ^ bytes.length + beValue bytes
        < byte.toNat * 256 ^ bytes.length + 256 ^ bytes.length := by omega
      _ = (byte.toNat + 1) * 256 ^ bytes.length := by ring
      _ ≤ 256 * 256 ^ bytes.length := Nat.mul_le_mul_right _ (by omega)
      _ = 256 ^ bytes.length * 256 := by ring

@[simp] theorem beBytes_length (value count : Nat) : (beBytes value count).length = count := by
  induction count generalizing value with
  | zero => rfl
  | succ count ih => simp [beBytes, ih]

theorem beValue_beBytes {value count : Nat} (h : value < 256 ^ count) :
    beValue (beBytes value count) = value := by
  induction count generalizing value with
  | zero =>
    simp at h
    simp [beBytes, h]
  | succ count ih =>
    have hdiv : value / 256 < 256 ^ count := by
      apply Nat.div_lt_of_lt_mul
      rwa [pow_succ, mul_comm] at h
    rw [beBytes, beValue_append, ih hdiv]
    simp
    omega

theorem beBytes_beValue (bytes : List UInt8) : beBytes (beValue bytes) bytes.length = bytes := by
  induction bytes using List.reverseRecOn with
  | nil => rfl
  | append_singleton bytes byte ih =>
    have hbyte := byte.toNat_lt
    rw [List.length_append, List.length_singleton, beBytes, beValue_append]
    have hdiv : (beValue bytes * 256 ^ [byte].length + beValue [byte]) / 256 = beValue bytes := by
      simp
      omega
    rw [hdiv, ih]
    congr 1
    simp [UInt8.ofNat_add, UInt8.ofNat_mul]

theorem beValue_replicate_zero (n : Nat) : beValue (List.replicate n 0) = 0 := by
  induction n with
  | zero => rfl
  | succ n ih =>
    rw [List.replicate_succ, beValue_cons, ih]
    simp

theorem beValue_replicate_max (n : Nat) : beValue (List.replicate n 0xFF) + 1 = 256 ^ n := by
  induction n with
  | zero => rfl
  | succ n ih =>
    have hbyte : (0xFF : UInt8).toNat = 255 := rfl
    rw [List.replicate_succ, beValue_cons, List.length_replicate, Nat.add_assoc, ih, hbyte,
      pow_succ]
    omega

/-- With a one in front, the value says how many bytes there are. -/
theorem beValue_marked_injective : Function.Injective fun bytes => beValue (1 :: bytes) := by
  have hmarked : ∀ bytes, beValue (1 :: bytes) = 256 ^ bytes.length + beValue bytes := by
    intro bytes
    have hone : (1 : UInt8).toNat = 1 := rfl
    rw [beValue_cons, hone, Nat.one_mul]
  have hlength : ∀ {left right : List UInt8}, beValue (1 :: left) = beValue (1 :: right) →
      right.length ≤ left.length := by
    intro left right heq
    by_contra hlt
    have hpow : 256 ^ (left.length + 1) ≤ 256 ^ right.length :=
      Nat.pow_le_pow_right (by omega) (by omega)
    have hleft := beValue_lt left
    rw [hmarked, hmarked] at heq
    rw [pow_succ] at hpow
    omega
  intro left right heq
  have hsame : left.length = right.length := Nat.le_antisymm (hlength heq.symm) (hlength heq)
  have hvalue : beValue left = beValue right := by
    have heq' := (hmarked left).symm.trans (heq.trans (hmarked right))
    rw [hsame] at heq'
    exact Nat.add_left_cancel heq'
  rw [← beBytes_beValue left, ← beBytes_beValue right, hvalue, hsame]

/-- There are fewer byte strings under a length than there are of that length. -/
theorem exists_collision {n : Nat} {f : List UInt8 → List UInt8}
    (hshort : ∀ bytes, bytes.length = n → (f bytes).length < n) :
    ∃ left right, left.length = n ∧ right.length = n ∧ left ≠ right ∧ f left = f right := by
  have hn : 0 < n := Nat.zero_lt_of_lt (hshort (beBytes 0 n) (beBytes_length 0 n))
  let code (value : Nat) : Nat := beValue (1 :: f (beBytes value n))
  have hcode : ∀ value, code value < 2 * 256 ^ (n - 1) := by
    intro value
    have hle : (f (beBytes value n)).length ≤ n - 1 :=
      Nat.le_sub_one_of_lt (hshort _ (beBytes_length value n))
    have hone : (1 : UInt8).toNat = 1 := rfl
    calc code value = 256 ^ (f (beBytes value n)).length + beValue (f (beBytes value n)) := by
          rw [← Nat.one_mul (256 ^ _), ← hone, ← beValue_cons]
      _ < 256 ^ (f (beBytes value n)).length + 256 ^ (f (beBytes value n)).length :=
          Nat.add_lt_add_left (beValue_lt _) _
      _ = 2 * 256 ^ (f (beBytes value n)).length := (Nat.two_mul _).symm
      _ ≤ 2 * 256 ^ (n - 1) := Nat.mul_le_mul_left 2 (Nat.pow_le_pow_right (by omega) hle)
  have hfewer : (Finset.range (2 * 256 ^ (n - 1))).card < (Finset.range (256 ^ n)).card := by
    obtain ⟨m, rfl⟩ := Nat.exists_eq_add_of_lt hn
    have hpos : 0 < 256 ^ m := Nat.pow_pos (by omega)
    rw [Finset.card_range, Finset.card_range, Nat.zero_add, Nat.add_sub_cancel, pow_succ]
    omega
  obtain ⟨left, hleft, right, hright, hne, heq⟩ :=
    Finset.exists_ne_map_eq_of_card_lt_of_maps_to hfewer fun value _ =>
      Finset.mem_coe.mpr (Finset.mem_range.mpr (hcode value))
  refine ⟨beBytes left n, beBytes right n, beBytes_length left n, beBytes_length right n,
    fun hsame => hne ?_, beValue_marked_injective heq⟩
  rw [← beValue_beBytes (Finset.mem_range.mp hleft), hsame,
    beValue_beBytes (Finset.mem_range.mp hright)]

end TonCompress.Lib
