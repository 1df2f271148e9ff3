import TonCompress.Lzma.RoundTrip
import TonCompress.Lzma.Safety
import Mathlib.Data.Vector.Basic

/-! `lzma_compress` and `lzma_decompress`. Both ignore the return code. -/
namespace TonCompress.Lzma
open TonCompress.Lib

/-- A new `BufferSlice` of `n` bytes, which hold anything. -/
abbrev Allocated (n : Nat) := List.Vector UInt8 n

def blockSizeMax : Nat := 2 <<< 20

def lzmaCompressCapacity (srcLen : Nat) : Nat :=
  let dstLen := srcLen + (srcLen >>> 2) + 4096
  if dstLen > blockSizeMax then blockSizeMax else dstLen

def lzmaCompressMalloc (memory : Bool) (data : List UInt8)
    (output : Allocated (lzmaCompressCapacity data.length)) : LzmaExec (List UInt8) := do
  let written ← tinyLzmaCompressMalloc memory data output.toList
  return written.dst.take written.dstLen

def lzmaDecompressMalloc (memory : Bool) (data : List UInt8) (maxDecompressedSize : Nat)
    (output : Allocated maxDecompressedSize) : LzmaExec (List UInt8) := do
  let written ← tinyLzmaDecompressMalloc memory data output.toList
  return written.dst.take written.dstLen

/-- `lzma_compress` with memory for the hash table. -/
def lzmaCompress (data : List UInt8) (output : Allocated (lzmaCompressCapacity data.length)) :
    LzmaExec (List UInt8) :=
  lzmaCompressMalloc true data output

/-- `lzma_decompress` with memory for the literals' probabilities. -/
def lzmaDecompress (data : List UInt8) (maxDecompressedSize : Nat)
    (output : Allocated maxDecompressedSize) : LzmaExec (List UInt8) :=
  lzmaDecompressMalloc true data maxDecompressedSize output

section compress
variable {data : List UInt8}

theorem lzmaCompressCapacity_le (srcLen : Nat) : lzmaCompressCapacity srcLen ≤ blockSizeMax := by
  unfold lzmaCompressCapacity
  dsimp only
  split <;> omega

theorem le_lzmaCompressCapacity (srcLen : Nat) : 4096 ≤ lzmaCompressCapacity srcLen := by
  have hmax : blockSizeMax = 2 ^ 21 := rfl
  unfold lzmaCompressCapacity
  dsimp only
  split <;> omega

theorem lzmaEncode_ends {src : List UInt8} (hsrc : src.length < 2 ^ 64) (dstLen : Nat) :
    ∃ ret bytes, lzmaEncode src dstLen false = .ok (ret, bytes) ∧ bytes.length ≤ dstLen := by
  obtain ⟨v, hloop, hv, -⟩ := @lzmaEncodeLoop_ends src src dstLen le_rfl hsrc
    (src.length + 3) _ (EncodeVars.fresh_sound src dstLen) (by omega)
  obtain ⟨hsound, hdstLen, -⟩ := hv.channel
  have hroom := rangeEncodeTerminate_room hsound
  rw [hdstLen] at hroom
  unfold lzmaEncode
  rw [hloop, ok_bind]
  exact ⟨_, _, rfl, hroom⟩

section encoded
variable {ret : Ret} {bytes : List UInt8} (hdata : data.length < 2 ^ 64)
  (hencode : lzmaEncode data (lzmaCompressCapacity data.length - lzmaHeaderLen) false =
    .ok (ret, bytes))
  (output : Allocated (lzmaCompressCapacity data.length))
include hdata hencode

theorem encoded_length_le : lzmaHeaderLen + bytes.length ≤ lzmaCompressCapacity data.length := by
  have hheader : lzmaHeaderLen = 13 := rfl
  have hcapacity := le_lzmaCompressCapacity data.length
  obtain ⟨ret', bytes', hencode', hroom⟩ := lzmaEncode_ends hdata _
  obtain rfl := (Prod.mk.inj (Except.ok.inj (hencode'.symm.trans hencode))).2
  omega

theorem tinyLzmaCompress_eq : tinyLzmaCompress data output.toList = .ok {
    ret := ret
    dst := lzmaHeader data.length true ++ bytes ++
      output.toList.drop (lzmaHeaderLen + bytes.length)
    dstLen := if ret ≠ .ok then lzmaCompressCapacity data.length
      else lzmaHeaderLen + bytes.length } := by
  have houtput := output.toList_length
  have hroom := encoded_length_le hdata hencode
  have hlength : (lzmaHeader data.length true ++ bytes).length = lzmaHeaderLen + bytes.length :=
    List.length_append
  have hwritten : (writeTo output.toList (lzmaHeader data.length true ++ bytes)).length =
      lzmaCompressCapacity data.length := by
    rw [writeTo, List.length_append, List.length_drop]
    omega
  unfold tinyLzmaCompress tinyLzmaCompressMalloc
  rw [if_neg (by omega), houtput, lzmaEncodeMalloc_true, hencode, ok_bind]
  dsimp only
  rw [hwritten, writeTo, hlength]
  by_cases hret : ret ≠ .ok
  · rw [if_pos hret, if_pos hret]
    rfl
  · rw [if_neg hret, if_neg hret, not_not.mp hret]
    rfl

theorem lzmaCompress_eq : lzmaCompress data output = .ok (lzmaHeader data.length true ++ bytes ++
    if ret ≠ .ok then output.toList.drop (lzmaHeaderLen + bytes.length) else []) := by
  have houtput := output.toList_length
  have hroom := encoded_length_le hdata hencode
  have hlength : (lzmaHeader data.length true ++ bytes).length = lzmaHeaderLen + bytes.length :=
    List.length_append
  change tinyLzmaCompress data output.toList >>= _ = _
  rw [tinyLzmaCompress_eq hdata hencode, ok_bind]
  dsimp only
  by_cases hret : ret ≠ .ok
  · rw [if_pos hret, if_pos hret]
    refine congrArg Except.ok (List.take_of_length_le ?_)
    rw [List.length_append, List.length_drop, hlength, houtput, Nat.add_sub_cancel' hroom]
  · rw [if_neg hret, if_neg hret, List.append_nil, ← hlength]
    exact congrArg Except.ok List.take_left

end encoded

theorem lzmaCompress_length (hdata : data.length < 2 ^ 64) :
    ∃ len, 0 < len ∧ len ≤ lzmaCompressCapacity data.length ∧ ∀ output, ∃ compressed,
      lzmaCompress data output = .ok compressed ∧ compressed.length = len := by
  have hheader : lzmaHeaderLen = 13 := rfl
  have hcapacity := le_lzmaCompressCapacity data.length
  obtain ⟨ret, bytes, hencode, hroom⟩ :=
    lzmaEncode_ends hdata (lzmaCompressCapacity data.length - lzmaHeaderLen)
  have hlength : (lzmaHeader data.length true ++ bytes).length = lzmaHeaderLen + bytes.length :=
    List.length_append
  refine ⟨if ret ≠ .ok then lzmaCompressCapacity data.length else lzmaHeaderLen + bytes.length,
    ?_, ?_, fun output => ⟨_, lzmaCompress_eq hdata hencode output, ?_⟩⟩
  · split <;> omega
  · split <;> omega
  · have houtput := output.toList_length
    rw [List.length_append, hlength]
    split
    · rw [List.length_drop]
      omega
    · rfl

theorem lzmaCompress_encoded {bytes : List UInt8} (hdata : data.length < 2 ^ 64)
    (hencode : lzmaEncode data (lzmaCompressCapacity data.length - lzmaHeaderLen) false =
      .ok (.ok, bytes))
    (output : Allocated (lzmaCompressCapacity data.length)) :
    lzmaCompress data output = .ok (lzmaHeader data.length true ++ bytes) := by
  rw [lzmaCompress_eq hdata hencode, if_neg (not_not_intro rfl), List.append_nil]

end compress

section decompress
variable {data : List UInt8} {n : Nat}

theorem lzmaDecompress_eq (hsize : n + lzLenMax < 2 ^ 64) (data : List UInt8) :
    ∃ code out len, CallEnds n data code out len ∧ ∀ output : Allocated n,
      lzmaDecompress data n output = .ok ((writeTo output.toList out).take len) := by
  obtain ⟨code, out, len, hends⟩ := tinyLzmaDecompress_on hsize data
  refine ⟨code, out, len, hends, fun output => ?_⟩
  change tinyLzmaDecompress data output.toList >>= _ = _
  rw [hends.run output.toList output.toList_length]
  rfl

theorem lzmaDecompress_whole (hsize : n + lzLenMax < 2 ^ 64) {out : List UInt8}
    (h : WholeStream n data out) (output : Allocated n) :
    lzmaDecompress data n output = .ok out := by
  obtain ⟨code, out', len, hends, hrun⟩ := lzmaDecompress_eq hsize data
  obtain ⟨hwhole, rfl⟩ | ⟨hnone, -⟩ := hends.whole
  · rw [hrun, ← hwhole.unique h]
    exact congrArg Except.ok List.take_left
  · exact absurd h (hnone out)

/-- How many bytes come back for an input: those of a whole stream, else as many as its
header announces. -/
def ReturnsLen (n : Nat) (data : List UInt8) (len : Nat) : Prop :=
  (∃ out, WholeStream n data out ∧ len = out.length) ∨
    (∀ out, ¬ WholeStream n data out) ∧ len = announcedLen n data

theorem ReturnsLen.unique {len len' : Nat} (h : ReturnsLen n data len) (h' : ReturnsLen n data len') :
    len = len' := by
  obtain ⟨out, hwhole, rfl⟩ | ⟨hnone, rfl⟩ := h <;> obtain ⟨out', hwhole', rfl⟩ | ⟨hnone', rfl⟩ := h'
  · rw [hwhole.unique hwhole']
  · exact absurd hwhole (hnone' out)
  · exact absurd hwhole' (hnone out')
  · rfl

theorem lzmaDecompress_length (hsize : n + lzLenMax < 2 ^ 64) (data : List UInt8) :
    ∃ len ≤ n, ReturnsLen n data len ∧ ∀ output : Allocated n, ∃ decompressed,
      lzmaDecompress data n output = .ok decompressed ∧ decompressed.length = len := by
  obtain ⟨code, out, len, hends, hrun⟩ := lzmaDecompress_eq hsize data
  refine ⟨len, hends.len_le, ?_, fun output => ⟨_, hrun output, ?_⟩⟩
  · obtain ⟨hwhole, hlen⟩ | ⟨hnone, -, hlen⟩ := hends.whole
    · exact .inl ⟨out, hwhole, hlen⟩
    · exact .inr ⟨hnone, hlen⟩
  · have houtput := output.toList_length
    have hle := hends.length_le
    have hlen := hends.len_le
    rw [List.length_take, writeTo, List.length_append, List.length_drop]
    omega

theorem lzmaDecompress_encoded (hdata : data.length ≤ n) (hn : n < 2 ^ 64) {dstLen : Nat}
    (hcapacity : dstLen + 1 < rangeCodeCacheSizeMax) {bytes : List UInt8}
    (hencode : lzmaEncode data dstLen false = .ok (.ok, bytes)) (output : Allocated n) :
    lzmaDecompress (lzmaHeader data.length true ++ bytes) n output = .ok data := by
  have houtput := output.toList_length
  change tinyLzmaDecompress _ output.toList >>= _ = _
  rw [tinyLzmaDecompress_encoded (by omega) hcapacity hencode (by omega) (by omega)]
  exact congrArg Except.ok List.take_left

theorem toList_replicate (n : Nat) (byte : UInt8) :
    (List.Vector.replicate n byte).toList = List.replicate n byte := rfl

theorem getElem?_returned {buffer out : List UInt8} {len : Nat} (h : out.length < len) :
    ((writeTo buffer out).take len)[out.length]? = buffer[out.length]? := by
  unfold writeTo
  rw [List.getElem?_take_of_lt h, List.getElem?_append_right le_rfl, Nat.sub_self,
    List.getElem?_drop, Nat.add_zero]

/-- `lzma_decompress` returns the same for any contents of its buffer exactly when
the buffer is empty or the input is a whole stream. It then returns what the
decoder wrote. -/
theorem lzmaDecompress_same_iff (hsize : n + lzLenMax < 2 ^ 64) (data : List UInt8) :
    ((∀ output output' : Allocated n,
        lzmaDecompress data n output = lzmaDecompress data n output') ↔
      n = 0 ∨ ∃ out, WholeStream n data out) ∧
    ∀ out, WholeStream n data out → ∀ output, lzmaDecompress data n output = .ok out := by
  refine ⟨⟨fun hsame => ?_, ?_⟩, fun out hwhole => lzmaDecompress_whole hsize hwhole⟩
  · by_contra hneither
    obtain ⟨hpos, hnone⟩ := not_or.mp hneither
    obtain ⟨code, out, len, hends, hrun⟩ := lzmaDecompress_eq hsize data
    have hlen := hends.len_le
    obtain ⟨hwhole, -⟩ | ⟨-, hshort, -⟩ := hends.whole
    · exact hnone ⟨out, hwhole⟩
    · have hlt := hshort (Nat.pos_of_ne_zero hpos)
      have hzero := hsame (.replicate n 0) (.replicate n 1)
      rw [hrun, hrun] at hzero
      have hbyte := congrArg (·[out.length]?) (Except.ok.inj hzero)
      rw [getElem?_returned hlt, getElem?_returned hlt] at hbyte
      rw [toList_replicate, toList_replicate] at hbyte
      rw [List.getElem?_replicate_of_lt (hlt.trans_le hlen),
        List.getElem?_replicate_of_lt (hlt.trans_le hlen)] at hbyte
      cases hbyte
  · rintro (rfl | ⟨out, hwhole⟩) output output'
    · rw [Subsingleton.elim output output']
    · rw [lzmaDecompress_whole hsize hwhole, lzmaDecompress_whole hsize hwhole]

/-- A stream with a literal before and after a match, whole and cut off in the middle. -/
theorem lzmaDecompress_same_iff_deferred :
    (∀ output output' : Allocated 30, lzmaDecompress (deferredStream.take 35) 30 output =
        lzmaDecompress (deferredStream.take 35) 30 output') ∧
      WholeStream 30 (deferredStream.take 35) deferredText ∧
      ¬ ∃ out, WholeStream 30 (deferredStream.take 25) out := by
  have hencode : lzmaEncode deferredText 35 false =
      .ok (.ok, (deferredStream.take 35).drop lzmaHeaderLen) := by decide +kernel
  have hheader : deferredStream.take 35 =
      lzmaHeader deferredText.length true ++ (deferredStream.take 35).drop lzmaHeaderLen := by
    decide
  have hrun (output : Allocated 30) :
      lzmaDecompress (deferredStream.take 35) 30 output = .ok deferredText := by
    rw [hheader]
    exact lzmaDecompress_encoded (by decide) (by decide) (by decide) hencode output
  obtain ⟨hsame, hwhole⟩ := @lzmaDecompress_same_iff 30 (by decide) (deferredStream.take 35)
  obtain ⟨hcut, -⟩ := @lzmaDecompress_same_iff 30 (by decide) (deferredStream.take 25)
  have hagree (output output' : Allocated 30) := (hrun output).trans (hrun output').symm
  refine ⟨hagree, ?_, fun hstream => ?_⟩
  · obtain hzero | ⟨out, hstream⟩ := hsame.mp hagree
    · exact absurd hzero (by decide)
    · obtain rfl := Except.ok.inj ((hwhole out hstream (.replicate 30 0)).symm.trans (hrun _))
      exact hstream
  · have hdiffer : lzmaDecompress (deferredStream.take 25) 30 (.replicate 30 0) ≠
        lzmaDecompress (deferredStream.take 25) 30 (.replicate 30 1) := by decide +kernel
    exact hdiffer (hcut.mpr (.inr hstream) _ _)

theorem lzmaDecompress_nil (output : Allocated n) :
    lzmaDecompress [] n output = .ok output.toList := by
  change (Except.ok (output.toList.take output.toList.length) : LzmaExec _) = _
  rw [List.take_length]

theorem lzmaDecompress_nil_differs :
    lzmaDecompress [] blockSizeMax (.replicate blockSizeMax 0) ≠
      lzmaDecompress [] blockSizeMax (.replicate blockSizeMax 1) := by
  intro hsame
  rw [lzmaDecompress_nil, lzmaDecompress_nil] at hsame
  have hfirst : (List.replicate blockSizeMax (0 : UInt8))[0]? =
      (List.replicate blockSizeMax (1 : UInt8))[0]? := by
    have hlist := Except.ok.inj hsame
    rw [toList_replicate, toList_replicate] at hlist
    rw [hlist]
  have hpos : 0 < blockSizeMax := by decide
  rw [List.getElem?_replicate_of_lt hpos, List.getElem?_replicate_of_lt hpos] at hfirst
  cases hfirst

end decompress

section malloc
variable {data : List UInt8} {n : Nat}

/-- Without a hash table the header is written and the whole buffer returned. -/
theorem lzmaCompressMalloc_false (output : Allocated (lzmaCompressCapacity data.length)) :
    lzmaCompressMalloc false data output =
      .ok (lzmaHeader data.length true ++ output.toList.drop lzmaHeaderLen) := by
  have hheader : lzmaHeaderLen = 13 := rfl
  have hcapacity := le_lzmaCompressCapacity data.length
  have houtput := output.toList_length
  have hwritten : (lzmaHeader data.length true ++ output.toList.drop lzmaHeaderLen).length =
      output.toList.length := by
    have hlength : (lzmaHeader data.length true).length = lzmaHeaderLen := rfl
    rw [List.length_append, List.length_drop, hlength]
    omega
  unfold lzmaCompressMalloc tinyLzmaCompressMalloc
  rw [if_neg (by omega)]
  change Except.ok ((lzmaHeader data.length true ++ [] ++ output.toList.drop lzmaHeaderLen).take
    (lzmaHeader data.length true ++ [] ++ output.toList.drop lzmaHeaderLen).length) = _
  rw [List.append_nil, List.take_length]

/-- Without memory for the probabilities nothing is written, and as many bytes of the
buffer returned as the header announces. -/
theorem lzmaDecompressMalloc_false (data : List UInt8) (output : Allocated n) :
    lzmaDecompressMalloc false data n output =
      .ok (output.toList.take (announcedLen n data)) := by
  have houtput := output.toList_length
  unfold lzmaDecompressMalloc tinyLzmaDecompressMalloc announcedLen
  by_cases hshort : data.length < lzmaHeaderLen
  · rw [if_pos hshort, if_pos hshort, houtput]
    rfl
  · obtain ⟨⟨ret, header⟩, hparse, -⟩ := returns_iff.mp (parseLzmaHeader_returns (Nat.not_lt.mp hshort))
    rw [if_neg hshort, if_neg hshort, hparse, ok_bind, houtput]
    dsimp only
    by_cases hret : ret = .ok
    · subst hret
      rw [if_neg (not_not_intro rfl)]
      by_cases hfits : header.dstLen n ≤ n
      · rw [if_neg fun h => (header.over_iff n).mp h hfits]
        dsimp only
        rw [if_pos hfits]
        rfl
      · rw [if_pos ((header.over_iff n).mpr hfits)]
        dsimp only
        rw [if_neg hfits]
        rfl
    · rw [if_pos hret]
      cases ret <;> first | rfl | exact absurd rfl hret

theorem lzmaDecompressMalloc_false_same_iff (data : List UInt8) :
    (∀ output output' : Allocated n,
        lzmaDecompressMalloc false data n output = lzmaDecompressMalloc false data n output') ↔
      announcedLen n data = 0 := by
  have hle : announcedLen n data ≤ n := by
    unfold announcedLen
    grind
  constructor
  · intro hsame
    have hzero := hsame (.replicate n 0) (.replicate n 1)
    rw [lzmaDecompressMalloc_false, lzmaDecompressMalloc_false] at hzero
    by_contra hpos
    have hbyte := congrArg (·[0]?) (Except.ok.inj hzero)
    rw [toList_replicate, toList_replicate, List.take_replicate, List.take_replicate,
      min_eq_left hle] at hbyte
    rw [List.getElem?_replicate_of_lt (by omega), List.getElem?_replicate_of_lt (by omega)] at hbyte
    cases hbyte
  · intro hnone output output'
    rw [lzmaDecompressMalloc_false, lzmaDecompressMalloc_false, hnone]
    rfl

end malloc

end TonCompress.Lzma
