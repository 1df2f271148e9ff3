import TonCompress.Lib.ObjExec
import TonCompress.Lib.BigEndian
import TonCompress.Lib.Bits

/-! Slices of a byte buffer, and the integers read from them. -/
namespace TonCompress.Boc
open TonCompress.Lib

/-- What the reader and the writer index: the bytes of the input and the output,
and their own vectors. -/
inductive BocSite where
  | buffer | roots | cellShouldCache | customIndex | revGraph | inDegree | idxMap | cellsSpan
  | cellDataInterval | cellList | output | perm
  deriving DecidableEq, Repr

abbrev BocExec := Exec BocSite

/-- A `td::Slice`: its length, and the buffer from its first byte on, which
may go on behind its end. -/
@[ext] structure Slice where
  mem : List UInt8
  len : Nat
  len_le : len ≤ mem.length

def Slice.ofBytes (bytes : List UInt8) : Slice := ⟨bytes, bytes.length, le_rfl⟩

def Slice.drop (slice : Slice) (offset : Nat) : Slice where
  mem := slice.mem.drop offset
  len := slice.len - offset
  len_le := by
    have := slice.len_le
    simp only [List.length_drop]
    omega

def Slice.take (slice : Slice) (size : Nat) : Slice where
  mem := slice.mem
  len := min size slice.len
  len_le := (Nat.min_le_right _ _).trans slice.len_le

/-- `substr(offset)`, which checks its argument in every build. -/
def Slice.substr (slice : Slice) (offset : Nat) : BocExec Slice :=
  if offset ≤ slice.len then .ok (slice.drop offset) else .error .abort

def Slice.substrUpTo (slice : Slice) (offset size : Nat) : BocExec Slice :=
  if offset ≤ slice.len then .ok ((slice.drop offset).take size) else .error .abort

def readBytes (ptr : List UInt8) (count : Nat) : BocExec (List UInt8) :=
  if count ≤ ptr.length then .ok (ptr.take count) else .error (.outOfRange .buffer)

def readByte (ptr : List UInt8) (i : Nat) : BocExec UInt8 := vecGet .buffer ptr i

def readIntLoop : List UInt8 → Nat → Nat → BocExec Nat
  | _, 0, res => .ok res
  | [], _ + 1, _ => .error (.outOfRange .buffer)
  | byte :: ptr, bytes + 1, res => readIntLoop ptr bytes ((res * 256 + byte.toNat) % 2 ^ 64)

def readInt (ptr : List UInt8) (bytes : Nat) : BocExec Nat := readIntLoop ptr bytes 0

theorem readIntLoop_eq {ptr : List UInt8} {bytes res : Nat} (h : bytes ≤ ptr.length)
    (hres : (res + 1) * 256 ^ bytes ≤ 2 ^ 64) :
    readIntLoop ptr bytes res = .ok (res * 256 ^ bytes + beValue (ptr.take bytes)) := by
  induction bytes generalizing ptr res with
  | zero => simp [readIntLoop]
  | succ bytes ih =>
    cases ptr with
    | nil => simp at h
    | cons byte ptr =>
      have hbyte := byte.toNat_lt
      have hpow : 0 < 256 ^ bytes := Nat.pow_pos (by omega)
      have hnext : (res * 256 + byte.toNat + 1) * 256 ^ bytes ≤ 2 ^ 64 := by
        calc (res * 256 + byte.toNat + 1) * 256 ^ bytes
            ≤ ((res + 1) * 256) * 256 ^ bytes := Nat.mul_le_mul_right _ (by omega)
          _ = (res + 1) * 256 ^ (bytes + 1) := by ring
          _ ≤ 2 ^ 64 := hres
      have hsmall : res * 256 + byte.toNat < 2 ^ 64 := by
        calc res * 256 + byte.toNat < (res * 256 + byte.toNat + 1) * 1 := by omega
          _ ≤ (res * 256 + byte.toNat + 1) * 256 ^ bytes := Nat.mul_le_mul_left _ hpow
          _ ≤ 2 ^ 64 := hnext
      simp only [List.length_cons] at h
      rw [readIntLoop, Nat.mod_eq_of_lt hsmall, ih (by omega) hnext, List.take_succ_cons,
        beValue_cons]
      congr 1
      rw [List.length_take, min_eq_left (by omega)]
      ring

theorem readInt_eq {ptr : List UInt8} {bytes : Nat} (h : bytes ≤ ptr.length)
    (hbytes : bytes ≤ 8) : readInt ptr bytes = .ok (beValue (ptr.take bytes)) := by
  rw [readInt, readIntLoop_eq h]
  · simp
  · calc (0 + 1) * 256 ^ bytes = 256 ^ bytes := by ring
      _ ≤ 256 ^ 8 := Nat.pow_le_pow_right (by omega) hbytes
      _ = 2 ^ 64 := by norm_num

@[simp] theorem Slice.drop_mem (slice : Slice) (offset : Nat) :
    (slice.drop offset).mem = slice.mem.drop offset := rfl

@[simp] theorem Slice.drop_len (slice : Slice) (offset : Nat) :
    (slice.drop offset).len = slice.len - offset := rfl

@[simp] theorem Slice.take_mem (slice : Slice) (size : Nat) : (slice.take size).mem = slice.mem :=
  rfl

@[simp] theorem Slice.take_len (slice : Slice) (size : Nat) :
    (slice.take size).len = min size slice.len := rfl

@[simp] theorem Slice.ofBytes_mem (bytes : List UInt8) : (Slice.ofBytes bytes).mem = bytes := rfl

@[simp] theorem Slice.ofBytes_len (bytes : List UInt8) :
    (Slice.ofBytes bytes).len = bytes.length := rfl

@[simp] theorem Slice.drop_drop (slice : Slice) (offset offset' : Nat) :
    (slice.drop offset).drop offset' = slice.drop (offset + offset') := by
  ext1
  · simp
  · simp
    omega

@[simp] theorem Slice.drop_zero (slice : Slice) : slice.drop 0 = slice := rfl

theorem Slice.take_drop (slice : Slice) (size offset : Nat) :
    (slice.take size).drop offset = (slice.drop offset).take (size - offset) := by
  ext1
  · rfl
  · simp
    omega

theorem Slice.take_take (slice : Slice) (size size' : Nat) :
    (slice.take size).take size' = slice.take (min size' size) := by
  ext1
  · rfl
  · simp

theorem Slice.substr_ok {slice : Slice} {offset : Nat} (h : offset ≤ slice.len) :
    slice.substr offset = .ok (slice.drop offset) := if_pos h

theorem Slice.substrUpTo_ok {slice : Slice} {offset : Nat} (h : offset ≤ slice.len)
    (size : Nat) : slice.substrUpTo offset size = .ok ((slice.drop offset).take size) := if_pos h

end TonCompress.Boc
