import TonCompress.Arith.RoundTrip

/-! Byte strings through `compressBits` and back: `stringToBits`, `bitsToString`,
and a decoder that is asked for only the first bits. -/
namespace TonCompress.Arith
open TonCompress.Lib

def stringToBits (inputBytes : List UInt8) : List Bool :=
  inputBytes.flatMap fun c =>
    (List.range 8).map fun k => decide ((c.toNat >>> (7 - k)) &&& 1 = 1)

def pushBit (byteVal : UInt8) (bit : Nat) : UInt8 :=
  UInt8.ofNat ((byteVal.toNat <<< 1) ||| (bit &&& 1))

def bitsToString (bits : List Nat) : List UInt8 :=
  (List.range (bits.length / 8)).map fun b => ((bits.drop (8 * b)).take 8).foldl pushBit 0

theorem stringToBits_eq (inputBytes : List UInt8) : stringToBits inputBytes = bitsOf inputBytes := by
  apply List.flatMap_congr
  intro c _
  apply List.map_congr_left
  intro k _
  simp [Nat.testBit, Nat.and_comm]

@[simp] theorem toNat_pushBit (byteVal : UInt8) (bit : Bool) :
    (pushBit byteVal bit.toNat).toNat = (2 * byteVal.toNat + bit.toNat) % 256 := by
  have hbit : bit.toNat &&& 1 = bit.toNat := by cases bit <;> rfl
  rw [pushBit, hbit, UInt8.toNat_ofNat', Nat.shiftLeft_eq, pow_one, Nat.mul_comm,
    double_or_bit _ (Bool.toNat_lt bit)]

theorem foldl_pushBit {value n : Nat} {byteVal : UInt8} (hvalue : value < 256)
    (hbyte : byteVal.toNat = value / 2 ^ n) :
    ((lowBits n value).map Bool.toNat).foldl pushBit byteVal = UInt8.ofNat value := by
  induction n generalizing byteVal with
  | zero =>
    rw [← UInt8.toNat_inj, UInt8.toNat_ofNat', Nat.mod_eq_of_lt hvalue]
    simp [hbyte]
  | succ n ih =>
    have hsplit : value / 2 ^ n = 2 * (value / 2 ^ (n + 1)) + (value.testBit n).toNat := by
      rw [Nat.toNat_testBit, pow_succ, ← Nat.div_div_eq_div_mul]
      omega
    have hsmall : value / 2 ^ n ≤ value := Nat.div_le_self _ _
    rw [lowBits_succ, List.map_cons, List.foldl_cons]
    apply ih
    rw [toNat_pushBit, hbyte, ← hsplit, Nat.mod_eq_of_lt (by omega)]

theorem bitsToString_append {first : List Nat} (hfirst : first.length = 8) (rest : List Nat) :
    bitsToString (first ++ rest) = first.foldl pushBit 0 :: bitsToString rest := by
  have hcount : (first ++ rest).length / 8 = rest.length / 8 + 1 := by
    rw [List.length_append]
    omega
  rw [bitsToString, hcount, List.range_succ_eq_map, List.map_cons, List.map_map, bitsToString]
  congr 1
  · simp [← hfirst]
  · apply List.map_congr_left
    intro b _
    have hdrop : (first ++ rest).drop (8 * (b + 1)) = rest.drop (8 * b) := by
      rw [show 8 * (b + 1) = first.length + 8 * b by omega, List.drop_append]
      simp
    simp [hdrop]

/-- The first `n` bits of a string are its first `n / 8` bytes; the bits of a
broken byte are dropped. -/
theorem bitsToString_take (inputBytes : List UInt8) (n : Nat) :
    bitsToString (((bitsOf inputBytes).map Bool.toNat).take n) = inputBytes.take (n / 8) := by
  induction inputBytes generalizing n with
  | nil => simp [bitsToString]
  | cons c inputBytes ih =>
    by_cases hn : n < 8
    · have hlength : (((bitsOf (c :: inputBytes)).map Bool.toNat).take n).length / 8 = 0 := by
        rw [List.length_take]
        omega
      rw [bitsToString, hlength, Nat.div_eq_of_lt hn]
      rfl
    · have hfirst : ((lowBits 8 c.toNat).map Bool.toNat).length = 8 := by simp
      have hbyte : ((lowBits 8 c.toNat).map Bool.toNat).foldl pushBit 0 = c := by
        rw [foldl_pushBit c.toNat_lt (by simp [Nat.div_eq_of_lt c.toNat_lt])]
        simp
      have hcount : n / 8 = (n - 8) / 8 + 1 := by omega
      rw [bitsOf_cons, List.map_append, List.take_append, hfirst, List.take_of_length_le (by omega),
        bitsToString_append hfirst, hbyte, ih, hcount, List.take_succ_cons]

/-- The loop only adds to what it has read. -/
theorem prefix_decompressLoop {model : Predictor} {size fuel : Nat} {context : List Nat}
    {iv : Interval} {dec : DecoderState} {out result : List Nat}
    (h : decompressLoop model size fuel context iv dec out = .ok result) : out <+: result := by
  induction fuel generalizing context iv dec out with
  | zero => cases h
  | succ fuel ih =>
    rw [decompressLoop] at h
    obtain ⟨⟨symbol, iv', dec'⟩, -, h⟩ := bind_eq_ok.mp h
    dsimp only at h
    by_cases hsize : (out ++ [symbol]).length = size
    · rw [if_pos hsize] at h
      cases h
      exact List.prefix_append out [symbol]
    · rw [if_neg hsize] at h
      exact (List.prefix_append out [symbol]).trans (ih h)

theorem decompressLoop_take {model : Predictor} {size n fuel fuel' : Nat} {context : List Nat}
    {iv : Interval} {dec : DecoderState} {out result : List Nat}
    (h : decompressLoop model size fuel context iv dec out = .ok result)
    (hout : out.length < n) (hsize : n ≤ size) (hfuel : n ≤ out.length + fuel') :
    decompressLoop model n fuel' context iv dec out = .ok (result.take n) := by
  induction fuel generalizing fuel' context iv dec out with
  | zero => cases h
  | succ fuel ih =>
    cases fuel' with
    | zero => omega
    | succ fuel' =>
      rw [decompressLoop] at h ⊢
      obtain ⟨⟨symbol, iv', dec'⟩, hread, h⟩ := bind_eq_ok.mp h
      rw [hread, ok_bind]
      dsimp only at h ⊢
      have hlength : (out ++ [symbol]).length = out.length + 1 := by simp
      by_cases hn : (out ++ [symbol]).length = n
      · have hkept : out ++ [symbol] <+: result := by
          by_cases hstop : (out ++ [symbol]).length = size
          · rw [if_pos hstop] at h
            cases h
            exact List.prefix_rfl
          · rw [if_neg hstop] at h
            exact prefix_decompressLoop h
        rw [if_pos hn, ← hn, ← List.prefix_iff_eq_take.mp hkept]
        rfl
      · rw [if_neg (by omega)] at h
        rw [if_neg hn]
        exact @ih fuel' _ _ _ _ h (by omega) (by omega)

/-- Every byte string goes through `compressBits`, and a decoder that is asked
for any number of its bits gives back the bytes that they fill. -/
theorem bitsToString_decompressBits (model : Predictor) (data : List UInt8)
    (hlength : 8 * data.length < 2 ^ 31) :
    ∃ code, compressBits model (stringToBits data) = .ok code ∧
      ∀ n, 0 < n → n ≤ 8 * data.length →
        ∃ bits, decompressBits model code (asInt32 n) = .ok bits ∧ bits.length = n ∧
          bitsToString bits = data.take (n / 8) := by
  rw [stringToBits_eq]
  have hbits : (bitsOf data).length < 2 ^ 31 := by simpa using hlength
  obtain ⟨code, hcompress, hloop⟩ := compressBits_returns model (bitsOf data) hbits
  refine ⟨code, hcompress, ?_⟩
  intro n hpos hn
  have hne : bitsOf data ≠ [] := List.ne_nil_of_length_pos (by rw [bitsOf_length]; omega)
  have hshort := decompressLoop_take (hloop hne) hpos (by rwa [bitsOf_length])
    (Nat.zero_add n).symm.le
  refine ⟨((bitsOf data).map Bool.toNat).take n, ?_, ?_, bitsToString_take data n⟩
  · have hsize : asUint64 (asInt32 n) = n := by
      rw [asInt32_of_lt (by omega)]
      exact asUint64_natCast (by omega)
    unfold decompressBits
    dsimp only
    rw [hsize]
    exact hshort
  · rw [List.length_take, List.length_map, bitsOf_length]
    omega

theorem bitsToString_decompressBits_two :
    8 * ([0x54, 0x4f] : List UInt8).length < 2 ^ 31 ∧ 0 < 16 ∧
      16 ≤ 8 * ([0x54, 0x4f] : List UInt8).length ∧
      ∃ code bits, compressBits (fun _ => 0) (stringToBits [0x54, 0x4f]) = .ok code ∧
        decompressBits (fun _ => 0) code (asInt32 16) = .ok bits ∧
        bitsToString bits = [0x54, 0x4f] := by
  obtain ⟨code, hcompress, hdecompress⟩ :=
    bitsToString_decompressBits (fun _ => 0) [0x54, 0x4f] (by decide)
  obtain ⟨bits, hrun, -, hbytes⟩ := hdecompress 16 (by decide) (by decide)
  exact ⟨by decide, by decide, by decide, code, bits, hcompress, hrun, hbytes⟩

end TonCompress.Arith
