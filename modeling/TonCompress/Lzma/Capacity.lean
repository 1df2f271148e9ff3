import TonCompress.Lib.BigEndian
import TonCompress.Lzma.Expansion
import TonCompress.Lzma.Wrapper

/-! Whether the capacity that `lzma_compress` allots is enough. -/
namespace TonCompress.Lzma
open TonCompress.Lib

/-- What is promised of `data`: it comes back, and no failure of `tinyLzmaCompress`
is passed off as a result. -/
structure Kept (data : List UInt8) : Prop where
  recovered : ∀ input, ∃ compressed, lzmaCompress data input = .ok compressed ∧
    ∀ output, lzmaDecompress compressed blockSizeMax output = .ok data
  not_passed_off : ∀ (input : Allocated (lzmaCompressCapacity data.length)) written compressed,
    tinyLzmaCompress data input.toList = .ok written →
      lzmaCompress data input = .ok compressed → written.ret = .ok

theorem kept_of_room {data bytes : List UInt8} (hdata : data.length ≤ blockSizeMax)
    (hencode : lzmaEncode data (lzmaCompressCapacity data.length - lzmaHeaderLen) false =
      .ok (.ok, bytes)) : Kept data := by
  have hmax : blockSizeMax = 2 ^ 21 := rfl
  have hcache : rangeCodeCacheSizeMax = 2 ^ 64 - 1 := rfl
  have hcapacity := lzmaCompressCapacity_le data.length
  have hlength : data.length < 2 ^ 64 := by omega
  refine ⟨fun input => ?_, fun input written _ hwritten _ => ?_⟩
  · refine ⟨_, lzmaCompress_encoded hlength hencode input, fun output => ?_⟩
    exact lzmaDecompress_encoded hdata (by omega) (by omega) hencode output
  · rw [tinyLzmaCompress_eq hlength hencode] at hwritten
    obtain rfl := Except.ok.inj hwritten
    rfl

/-- The promise is kept exactly when the header and the encoding fit in the capacity. -/
theorem kept_iff {data : List UInt8} (hdata : data.length ≤ blockSizeMax) :
    ∃ bytes, IsEncoding data bytes ∧
      (Kept data ↔ lzmaHeaderLen + bytes.length ≤ lzmaCompressCapacity data.length) := by
  have hmax : blockSizeMax = 2 ^ 21 := rfl
  have hheader : lzmaHeaderLen = 13 := rfl
  have hcapacity := le_lzmaCompressCapacity data.length
  have hlength : data.length < 2 ^ 64 := by omega
  obtain ⟨bytes, hbytes⟩ := exists_encoding hlength
  have hencode := hbytes (lzmaCompressCapacity data.length - lzmaHeaderLen)
  refine ⟨bytes, hbytes, fun hkept => ?_, fun hroom => ?_⟩
  · by_contra hfull
    rw [if_pos (by omega)] at hencode
    let input : Allocated (lzmaCompressCapacity data.length) := .replicate _ 0
    have hret := hkept.not_passed_off input _ _ (tinyLzmaCompress_eq hlength hencode input)
      (lzmaCompress_eq hlength hencode input)
    cases hret
  · rw [if_neg (by omega), List.take_of_length_le (by omega)] at hencode
    exact kept_of_room hdata hencode

/-- Up to this length 37 bytes for 32, six more and the header are within the 2 MiB. -/
def keptLen : Nat := 1813737

/-- Data that is not longer is kept, whatever it holds. -/
theorem kept_of_length {data : List UInt8} (hdata : data.length ≤ keptLen) : Kept data := by
  have hmax : blockSizeMax = 2 ^ 21 := rfl
  have hkept : keptLen = 1813737 := rfl
  have hheader : lzmaHeaderLen = 13 := rfl
  obtain ⟨bytes, hbytes, hiff⟩ := @kept_iff data (by omega)
  have hlength := hbytes.length_le (by omega)
  refine hiff.mpr ?_
  unfold lzmaCompressCapacity
  dsimp only
  rw [Nat.shiftRight_eq_div_pow]
  split <;> omega

/-- At the greatest length, where the capacity is at its cap. -/
theorem kept_of_length_range : Kept ((List.range keptLen).map UInt8.ofNat) :=
  kept_of_length (by rw [List.length_map, List.length_range])

def compressedBody (data : List UInt8) : List UInt8 :=
  ((lzmaCompress data (.replicate _ 0)).toOption.getD []).drop lzmaHeaderLen

theorem compressedBody_eq {data rest : List UInt8}
    (h : lzmaCompress data (.replicate _ 0) = .ok (lzmaHeader data.length true ++ rest)) :
    compressedBody data = rest := by
  have hlength : lzmaHeaderLen = (lzmaHeader data.length true).length := rfl
  unfold compressedBody
  rw [h, hlength]
  exact List.drop_left

theorem lzmaCompress_body {data : List UInt8} (hdata : data.length < 2 ^ 64) :
    lzmaCompress data (.replicate _ 0) = .ok (lzmaHeader data.length true ++ compressedBody data) ∧
      lzmaHeaderLen + (compressedBody data).length ≤ lzmaCompressCapacity data.length := by
  obtain ⟨ret, bytes, hencode, -⟩ :=
    lzmaEncode_ends hdata (lzmaCompressCapacity data.length - lzmaHeaderLen)
  obtain ⟨len, -, hlen, hruns⟩ := lzmaCompress_length hdata
  obtain ⟨compressed, hcompress, rfl⟩ := hruns (.replicate _ 0)
  have heq := hcompress.symm.trans (lzmaCompress_eq hdata hencode (.replicate _ 0))
  rw [List.append_assoc] at heq
  obtain rfl := Except.ok.inj heq
  rw [compressedBody_eq hcompress]
  exact ⟨hcompress, List.length_append.symm.trans_le hlen⟩

/-- Of the strings that fill the capacity, header apart, some do not come back. -/
theorem exists_lost {n : Nat} (hn : n ≤ blockSizeMax)
    (hfull : lzmaCompressCapacity n < n + lzmaHeaderLen) :
    ∃ data, data.length = n ∧ ∃ input compressed output,
      lzmaCompress data input = .ok compressed ∧
        lzmaDecompress compressed blockSizeMax output ≠ .ok data := by
  have hmax : blockSizeMax = 2 ^ 21 := rfl
  by_contra hall
  have hrecovered : ∀ data, data.length = n →
      lzmaDecompress (lzmaHeader n true ++ compressedBody data) blockSizeMax (.replicate _ 0) =
        .ok data := by
    intro data hdata
    by_contra hlost
    refine hall ⟨data, hdata, _, _, .replicate _ 0, (lzmaCompress_body (by omega)).1, ?_⟩
    rw [hdata]
    exact hlost
  obtain ⟨left, right, hleft, hright, hne, heq⟩ := @exists_collision n compressedBody (by
    intro data hdata
    have hroom := (@lzmaCompress_body data (by omega)).2
    rw [hdata] at hroom
    omega)
  have hsame := (hrecovered left hleft).symm
  rw [heq, hrecovered right hright] at hsame
  exact hne (Except.ok.inj hsame)

end TonCompress.Lzma
