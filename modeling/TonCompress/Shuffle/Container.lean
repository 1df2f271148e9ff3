import TonCompress.Lzma.Wrapper

/-! `compress` and `decompress` of `solution_tiny_lzma_bitshuffle.cpp`: the element size
that compresses best, and the container it is kept in. -/
namespace TonCompress.Shuffle
open TonCompress.Lib TonCompress.Lzma

/-- Where a run stops: `lengthError` is thrown for a `std::vector` longer than
`max_size()`, `overrun` is an access behind the end of one, and `abort` is
`move_as_ok` on an error. -/
inductive ShuffleStop where
  | lzma (reason : Stop Lzma.Site)
  | divisionByZero
  | lengthError
  | overrun
  | abort
  deriving DecidableEq, Repr

abbrev ShuffleExec := Except ShuffleStop

def callLzma {α : Type} (run : LzmaExec α) : ShuffleExec α := run.mapError .lzma

/-- `bshuf_bitshuffle` and `bshuf_bitunshuffle`, from `in` into the buffer `out`: the
return code, and the buffer after the call. -/
structure BitShuffle where
  bitshuffle (src out : List UInt8) (size elemSize blockSize : Nat) : Int × List UInt8
  bitunshuffle (src out : List UInt8) (size elemSize blockSize : Nat) : Int × List UInt8
  bitshuffle_length : ∀ src out size elemSize blockSize,
    (bitshuffle src out size elemSize blockSize).2.length = out.length
  bitunshuffle_length : ∀ src out size elemSize blockSize,
    (bitunshuffle src out size elemSize blockSize).2.length = out.length

def BitShuffle.Inverts (lib : BitShuffle) : Prop :=
  ∀ (src out out' : List UInt8) (size elemSize : Nat), src.length = size * elemSize →
    out.length = src.length → out'.length = src.length →
    0 ≤ (lib.bitshuffle src out size elemSize 0).1 →
    (lib.bitunshuffle (lib.bitshuffle src out size elemSize 0).2 out' size elemSize 0).2 = src

/-- `vm::std_boc_deserialize` and `vm::std_boc_serialize`, where `none` is an error. -/
structure StdBoc where
  Root : Type
  deserialize : List UInt8 → Option Root
  serialize : Root → Nat → Option (List UInt8)

def moveAsOk {α : Type} : Option α → ShuffleExec α
  | none => .error .abort
  | some value => .ok value

/-- What the `BufferSlice` holds that the search allots for an element size. -/
abbrev Heap := Nat → (n : Nat) → Allocated n

section compress
variable (lib : BitShuffle) (inputBytes : List UInt8)

def padding (originalSize es : Nat) : Nat :=
  let remainder := originalSize % es
  if remainder = 0 then 0 else es - remainder

def padded (es : Nat) : List UInt8 :=
  inputBytes ++ List.replicate (padding inputBytes.length es) 0

def shuffle (es : Nat) : Int × List UInt8 :=
  let paddedInput := padded inputBytes es
  let numElems := paddedInput.length / es
  lib.bitshuffle paddedInput (List.replicate paddedInput.length 0) numElems es 0

/-- Steps 3a to 3e; `none` where the call of `bshuf_bitshuffle` fails. -/
def shuffleAndCompress (es : Nat) (heap : Heap) : ShuffleExec (Option (List UInt8)) := do
  let shuffled := shuffle lib inputBytes es
  if shuffled.1 < 0 then return none
  else
    let compressed ← callLzma (lzmaCompress shuffled.2 (heap es _))
    return some compressed

structure Best where
  elemSize : Nat
  padding : Nat
  compressed : List UInt8
  size : Nat
  deriving DecidableEq, Repr

/-- `SIZE_MAX` stands for no compression yet. -/
def Best.start : Best := ⟨1, 0, [], 2 ^ 64 - 1⟩

def Best.track (best : Best) (es pad : Nat) (compressed : List UInt8) : Best :=
  if compressed.length < best.size then ⟨es, pad, compressed, compressed.length⟩ else best

def tryElemSize (heap : Heap) (es : Nat) (best : Best) : ShuffleExec Best := do
  match ← shuffleAndCompress lib inputBytes es heap with
  | none => return best
  | some compressed => return best.track es (padding inputBytes.length es) compressed

def byteAt (value shift : Nat) : UInt8 := UInt8.ofNat (value >>> shift &&& 0xFF)

def headerBytes (elemSize pad : Nat) : List UInt8 :=
  [byteAt elemSize 8, byteAt elemSize 0,
    byteAt pad 24, byteAt pad 16, byteAt pad 8, byteAt pad 0]

/-- The vector `final_data`, of `header_size + best_size` bytes modulo `2 ^ 64`. -/
def Best.finalData (best : Best) : ShuffleExec (List UInt8) :=
  let size := (6 + best.size) % 2 ^ 64
  if size < 6 ∨ size < 6 + best.size ∨ best.compressed.length < best.size then .error .overrun
  else .ok (headerBytes best.elemSize best.padding ++ best.compressed.take best.size)

def search (heap : Heap) : ShuffleExec (List UInt8) := do
  let best ← forRange 1 1025 Best.start (tryElemSize lib inputBytes heap)
  best.finalData

def compress (boc : StdBoc) (data : List UInt8) (heap : Heap) : ShuffleExec (List UInt8) := do
  let root ← moveAsOk (boc.deserialize data)
  let serialized ← moveAsOk (boc.serialize root 0)
  search lib serialized heap

end compress

section decompress
variable (lib : BitShuffle)

/-- The two fields of the header and what is behind it; `none` for fewer than 6 bytes. -/
def readHeader : List UInt8 → Option (Nat × Nat × List UInt8)
  | b0 :: b1 :: b2 :: b3 :: b4 :: b5 :: lzmaPart =>
      some (b0.toNat <<< 8 ||| b1.toNat,
        b2.toNat <<< 24 ||| b3.toNat <<< 16 ||| b4.toNat <<< 8 ||| b5.toNat, lzmaPart)
  | _ => none

def vectorMaxSize : Nat := 2 ^ 63 - 1

/-- Step 3. A failed call of `bshuf_bitunshuffle` is not handled. -/
def unshuffle (bitshuffled : List UInt8) (es : Nat) : ShuffleExec (List UInt8) :=
  if es = 0 then .error .divisionByZero
  else
    let numElems := bitshuffled.length / es
    .ok (lib.bitunshuffle bitshuffled (List.replicate bitshuffled.length 0) numElems es 0).2

def subSize (a b : Nat) : Nat := (a + (2 ^ 64 - b % 2 ^ 64)) % 2 ^ 64

def removePadding (unshuffled : List UInt8) (bitshuffledSize pad : Nat) :
    ShuffleExec (List UInt8) :=
  let realSize := subSize bitshuffledSize pad
  if vectorMaxSize < realSize then .error .lengthError
  else if unshuffled.length < realSize then .error .overrun
  else .ok (unshuffled.take realSize)

/-- Steps 3 and 4. -/
def restore (es pad : Nat) (bitshuffled : List UInt8) : ShuffleExec (List UInt8) := do
  let unshuffled ← unshuffle lib bitshuffled es
  removePadding unshuffled bitshuffled.length pad

/-- Steps 1 to 4; `none` where `decompress` returns an empty slice at once. -/
def unpack (data : List UInt8) (output : Allocated blockSizeMax) :
    ShuffleExec (Option (List UInt8)) := do
  match readHeader data with
  | none => return none
  | some (es, pad, lzmaPart) =>
      let bitshuffled ← callLzma (lzmaDecompress lzmaPart blockSizeMax output)
      let finalBytes ← restore lib es pad bitshuffled
      return some finalBytes

def decompress (boc : StdBoc) (data : List UInt8) (output : Allocated blockSizeMax) :
    ShuffleExec (List UInt8) := do
  match ← unpack lib data output with
  | none => return []
  | some finalBytes =>
      let root ← moveAsOk (boc.deserialize finalBytes)
      moveAsOk (boc.serialize root 31)

end decompress

section fields

theorem padding_lt {es : Nat} (h : 0 < es) (originalSize : Nat) : padding originalSize es < es := by
  have hremainder := Nat.mod_lt originalSize h
  dsimp only [padding]
  split <;> omega

theorem padded_length (inputBytes : List UInt8) (es : Nat) :
    (padded inputBytes es).length = inputBytes.length + padding inputBytes.length es := by
  simp [padded]

theorem dvd_padded_length {es : Nat} (h : 0 < es) (inputBytes : List UInt8) :
    es ∣ (padded inputBytes es).length := by
  have hremainder := Nat.mod_lt inputBytes.length h
  have hdiv := Nat.div_add_mod inputBytes.length es
  rw [padded_length]
  dsimp only [padding]
  split
  · exact ⟨inputBytes.length / es, by omega⟩
  · refine ⟨inputBytes.length / es + 1, ?_⟩
    rw [Nat.mul_succ]
    omega

theorem shuffle_length (lib : BitShuffle) (inputBytes : List UInt8) (es : Nat) :
    (shuffle lib inputBytes es).2.length = (padded inputBytes es).length := by
  rw [shuffle, lib.bitshuffle_length, List.length_replicate]

theorem byteAt_toNat (value shift : Nat) : (byteAt value shift).toNat = value / 2 ^ shift % 256 := by
  rw [byteAt, UInt8.toNat_ofNat', Nat.shiftRight_eq_div_pow,
    show 0xFF = 2 ^ 8 - 1 from rfl, Nat.and_two_pow_sub_one_eq_mod]
  omega

theorem shiftLeft_or {high low : Nat} (shift : Nat) (h : low < 2 ^ shift) :
    high <<< shift ||| low = high * 2 ^ shift + low := by
  rw [← Nat.shiftLeft_add_eq_or_of_lt h, Nat.shiftLeft_eq]

theorem readHeader_headerBytes {elemSize pad : Nat} (hes : elemSize < 2 ^ 16) (hpad : pad < 2 ^ 32)
    (lzmaPart : List UInt8) :
    readHeader (headerBytes elemSize pad ++ lzmaPart) = some (elemSize, pad, lzmaPart) := by
  have hfirst : (byteAt elemSize 8).toNat <<< 8 ||| (byteAt elemSize 0).toNat = elemSize := by
    rw [byteAt_toNat, byteAt_toNat, shiftLeft_or 8 (by omega)]
    omega
  have hsecond : (byteAt pad 24).toNat <<< 24 ||| (byteAt pad 16).toNat <<< 16 |||
      (byteAt pad 8).toNat <<< 8 ||| (byteAt pad 0).toNat = pad := by
    rw [byteAt_toNat, byteAt_toNat, byteAt_toNat, byteAt_toNat, Nat.lor_assoc, Nat.lor_assoc,
      shiftLeft_or 8 (by omega), shiftLeft_or 16 (by omega), shiftLeft_or 24 (by omega)]
    omega
  rw [headerBytes]
  exact congrArg some (Prod.ext hfirst (Prod.ext hsecond rfl))

end fields

end TonCompress.Shuffle
