import Mathlib.Data.List.Basic
import Mathlib.Data.Nat.Bitwise
import Mathlib.Tactic.Ring

/-! Matrices laid out row by row: the transposed matrix, and the bits of a byte string as
such a matrix. -/
namespace TonCompress.Lib

/-- The transposed matrix of one with `rows` rows and `cols` columns. -/
def transposed {α : Type} (rows cols : Nat) (f : Nat → α) (k : Nat) : α :=
  f (k % rows * cols + k / rows)

/-- The same for a matrix of blocks of `width` elements each. -/
def transposedBlocks {α : Type} (rows cols width : Nat) (f : Nat → α) (k : Nat) : α :=
  transposed rows cols (fun block => f (block * width + k % width)) (k / width)

def transposedEach {α : Type} (rows cols : Nat) (f : Nat → α) (k : Nat) : α :=
  transposed rows cols (fun i => f (k / (rows * cols) * (rows * cols) + i)) (k % (rows * cols))

section index
variable {α : Type} {rows cols i j k : Nat} (f : Nat → α)

theorem transposed_apply (hi : i < rows) :
    transposed rows cols f (j * rows + i) = f (i * cols + j) := by
  rw [transposed, Nat.mul_add_mod_self_right, Nat.mod_eq_of_lt hi, Nat.mul_comm j,
    Nat.mul_add_div (Nat.zero_lt_of_lt hi), Nat.div_eq_of_lt hi, Nat.add_zero]

theorem exists_place (hk : k < rows * cols) : ∃ i < rows, ∃ j < cols, k = j * rows + i := by
  have hrows : 0 < rows := Nat.pos_of_mul_pos_right (Nat.zero_lt_of_lt hk)
  refine ⟨k % rows, Nat.mod_lt k hrows, k / rows, Nat.div_lt_of_lt_mul hk, ?_⟩
  rw [Nat.mul_comm]
  exact (Nat.div_add_mod k rows).symm

theorem place_lt (hi : i < rows) (hj : j < cols) : j * rows + i < rows * cols := by
  calc j * rows + i
      < j * rows + rows := by omega
    _ = (j + 1) * rows := by ring
    _ ≤ cols * rows := Nat.mul_le_mul_right _ hj
    _ = rows * cols := Nat.mul_comm _ _

theorem transposed_transposed (hk : k < rows * cols) :
    transposed cols rows (transposed rows cols f) k = f k := by
  obtain ⟨j, hj, i, hi, rfl⟩ := exists_place (Nat.mul_comm rows cols ▸ hk)
  rw [transposed_apply _ hj, transposed_apply _ hi]

theorem transposed_congr {f g : Nat → α} (h : ∀ k < rows * cols, f k = g k)
    (hk : k < rows * cols) : transposed rows cols f k = transposed rows cols g k := by
  obtain ⟨i, hi, j, hj, rfl⟩ := exists_place hk
  rw [transposed_apply _ hi, transposed_apply _ hi]
  exact h _ (Nat.mul_comm cols rows ▸ place_lt hj hi)

theorem transposedBlocks_apply {width b : Nat} (hi : i < rows) (hb : b < width) :
    transposedBlocks rows cols width f ((j * rows + i) * width + b) =
      f ((i * cols + j) * width + b) := by
  have hwidth : 0 < width := Nat.zero_lt_of_lt hb
  rw [transposedBlocks, Nat.mul_add_mod_self_right, Nat.mod_eq_of_lt hb, Nat.mul_comm (j * rows + i),
    Nat.mul_add_div hwidth, Nat.div_eq_of_lt hb, Nat.add_zero, transposed_apply _ hi]

theorem transposedEach_apply {matrix : Nat} (hi : i < rows) (hj : j < cols) :
    transposedEach rows cols f (matrix * (rows * cols) + (j * rows + i)) =
      f (matrix * (rows * cols) + (i * cols + j)) := by
  have hplace := place_lt hi hj
  rw [transposedEach, Nat.mul_add_mod_self_right, Nat.mod_eq_of_lt hplace, Nat.mul_comm matrix,
    Nat.mul_add_div (Nat.zero_lt_of_lt hplace), Nat.div_eq_of_lt hplace, Nat.add_zero,
    transposed_apply _ hi, Nat.mul_comm matrix]

end index

def bitsFrom (f : Nat → UInt8) (k : Nat) : Bool := (f (k / 8)).toNat.testBit (k % 8)

/-- The bytes of bits in a row. -/
def packBits (bits : Nat → Bool) (i : Nat) : UInt8 :=
  UInt8.ofNat (Nat.ofBits fun b : Fin 8 => bits (8 * i + b.val))

section bits
variable {f g : Nat → UInt8} {n i b : Nat}

theorem bitsFrom_apply (hb : b < 8) : bitsFrom f (8 * i + b) = (f i).toNat.testBit b := by
  rw [bitsFrom, Nat.mul_add_div (by decide), Nat.div_eq_of_lt hb, Nat.mul_add_mod,
    Nat.mod_eq_of_lt hb, Nat.add_zero]

@[simp] theorem bitsFrom_packBits (bits : Nat → Bool) : bitsFrom (packBits bits) = bits := by
  funext k
  have hlt : Nat.ofBits (fun b : Fin 8 => bits (8 * (k / 8) + b.val)) < 2 ^ 8 := Nat.ofBits_lt_two_pow _
  rw [bitsFrom, packBits, UInt8.toNat_ofNat', Nat.mod_eq_of_lt hlt,
    Nat.testBit_ofBits_lt _ _ (Nat.mod_lt k (by decide)), Nat.div_add_mod]

theorem byte_ext {x y : UInt8} (h : ∀ b < 8, x.toNat.testBit b = y.toNat.testBit b) : x = y := by
  apply UInt8.toNat_inj.mp
  apply Nat.eq_of_testBit_eq
  intro b
  by_cases hb : b < 8
  · exact h b hb
  · have hpow : 2 ^ 8 ≤ 2 ^ b := Nat.pow_le_pow_right (by decide) (Nat.le_of_not_lt hb)
    rw [Nat.testBit_lt_two_pow (Nat.lt_of_lt_of_le x.toNat_lt hpow),
      Nat.testBit_lt_two_pow (Nat.lt_of_lt_of_le y.toNat_lt hpow)]

/-- Whole bytes are moved with their bits. -/
theorem bitsFrom_transposedBlocks {rows cols width j : Nat} (hi : i < rows) (hb : b < 8 * width) :
    bitsFrom (transposedBlocks rows cols width f) ((j * rows + i) * (8 * width) + b) =
      bitsFrom f ((i * cols + j) * (8 * width) + b) := by
  have hbyte : b / 8 < width := by omega
  have hbit : b % 8 < 8 := Nat.mod_lt b (by decide)
  have hindex : ∀ block, block * (8 * width) + b = 8 * (block * width + b / 8) + b % 8 := by
    intro block
    calc block * (8 * width) + b
        = 8 * (block * width) + (8 * (b / 8) + b % 8) := by rw [Nat.div_add_mod]; ring
      _ = 8 * (block * width + b / 8) + b % 8 := by ring
  rw [hindex, hindex, bitsFrom_apply hbit, bitsFrom_apply hbit, transposedBlocks_apply _ hi hbyte]

theorem eq_of_bitsFrom (h : ∀ k < 8 * n, bitsFrom f k = bitsFrom g k) (hi : i < n) : f i = g i := by
  apply byte_ext
  intro b hb
  rw [← @bitsFrom_apply f i b hb, ← @bitsFrom_apply g i b hb]
  exact h _ (by omega)

end bits

end TonCompress.Lib
