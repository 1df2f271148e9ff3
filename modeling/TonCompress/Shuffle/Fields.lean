import TonCompress.Shuffle.Recover

/-! The arithmetic of `decompress` on the fields of the header, which nothing checks. -/
namespace TonCompress.Shuffle
open TonCompress.Lib TonCompress.Lzma

/-- The header goes with a decompressed part of this size: it can be divided, into whole
elements, and is not shorter than its padding. -/
structure HeaderFits (es pad size : Nat) : Prop where
  es_ne_zero : es ≠ 0
  whole_elems : size % es = 0
  pad_le : pad ≤ size

/-- `decompress` rejects the input, or its arithmetic is safe: the header fits what the
decompressor found, and only the padding is cut off. -/
def SafeOn (lib : BitShuffle) (data : List UInt8) (output : Allocated blockSizeMax) : Prop :=
  unpack lib data output = .ok none ∨
    ∃ es pad lzmaPart bitshuffled finalBytes, readHeader data = some (es, pad, lzmaPart) ∧
      lzmaDecompress lzmaPart blockSizeMax output = .ok bitshuffled ∧
      HeaderFits es pad bitshuffled.length ∧
      unpack lib data output = .ok (some finalBytes) ∧
      finalBytes.length + pad = bitshuffled.length

theorem decompressed_length {lzmaPart : List UInt8} {size : Nat}
    (h : ReturnsLen blockSizeMax lzmaPart size) :
    size ≤ blockSizeMax ∧ ∀ output : Allocated blockSizeMax, ∃ bitshuffled,
      lzmaDecompress lzmaPart blockSizeMax output = .ok bitshuffled ∧ bitshuffled.length = size := by
  obtain ⟨len, hle, hlen, hrun⟩ := @lzmaDecompress_length blockSizeMax (by decide) lzmaPart
  obtain rfl := h.unique hlen
  exact ⟨hle, hrun⟩

theorem exists_returnsLen (lzmaPart : List UInt8) : ∃ size, ReturnsLen blockSizeMax lzmaPart size :=
  have ⟨size, _, hsize, _⟩ := @lzmaDecompress_length blockSizeMax (by decide) lzmaPart
  ⟨size, hsize⟩

section outcomes
variable {lib : BitShuffle} {data lzmaPart : List UInt8} {es pad size : Nat}

theorem readHeader_none : readHeader data = none ↔ data.length < 6 := by
  rcases data with _ | ⟨b0, _ | ⟨b1, _ | ⟨b2, _ | ⟨b3, _ | ⟨b4, _ | ⟨b5, lzmaPart⟩⟩⟩⟩⟩⟩ <;>
    simp [readHeader]

theorem readHeader_lt (hheader : readHeader data = some (es, pad, lzmaPart)) :
    es < 2 ^ 16 ∧ pad < 2 ^ 32 := by
  have hlong : ¬ data.length < 6 := by
    rw [← readHeader_none, hheader]
    exact Option.some_ne_none _
  rcases data with _ | ⟨b0, _ | ⟨b1, _ | ⟨b2, _ | ⟨b3, _ | ⟨b4, _ | ⟨b5, rest⟩⟩⟩⟩⟩⟩
  iterate 6 exact absurd (by simp) hlong
  obtain ⟨rfl, rest⟩ := Prod.mk.inj (Option.some.inj hheader)
  obtain ⟨rfl, -⟩ := Prod.mk.inj rest
  have h0 := b0.toNat_lt
  have h1 := b1.toNat_lt
  have h2 := b2.toNat_lt
  have h3 := b3.toNat_lt
  have h4 := b4.toNat_lt
  have h5 := b5.toNat_lt
  rw [Nat.lor_assoc, Nat.lor_assoc, shiftLeft_or 8 h1, shiftLeft_or 8 h5, shiftLeft_or 16 (by omega),
    shiftLeft_or 24 (by omega)]
  omega

theorem unpack_zero (hheader : readHeader data = some (0, pad, lzmaPart))
    (output : Allocated blockSizeMax) : unpack lib data output = .error .divisionByZero := by
  obtain ⟨size, hsize⟩ := exists_returnsLen lzmaPart
  obtain ⟨bitshuffled, hrun, -⟩ := (decompressed_length hsize).2 output
  rw [unpack_eq hheader, callLzma_eq_ok.mpr hrun]
  rfl

/-- A padding that is too long makes the size wrap. -/
theorem unpack_wraps (hheader : readHeader data = some (es, pad, lzmaPart)) (hes : es ≠ 0)
    (hreturns : ReturnsLen blockSizeMax lzmaPart size) (hpad : size < pad)
    (output : Allocated blockSizeMax) : unpack lib data output = .error .lengthError := by
  obtain ⟨bitshuffled, hrun, hsize⟩ := (decompressed_length hreturns).2 output
  obtain ⟨unshuffled, hunshuffle, -⟩ := @unshuffle_of_ne_zero lib es hes bitshuffled
  rw [unpack_eq hheader, callLzma_eq_ok.mpr hrun, ok_bind, restore, hunshuffle, ok_bind,
    removePadding_of_lt (by omega) (readHeader_lt hheader).2]
  rfl

theorem unpack_processed (hheader : readHeader data = some (es, pad, lzmaPart)) (hes : es ≠ 0)
    (hreturns : ReturnsLen blockSizeMax lzmaPart size) (hpad : pad ≤ size)
    (output : Allocated blockSizeMax) :
    ∃ finalBytes, unpack lib data output = .ok (some finalBytes) ∧
      finalBytes.length + pad = size := by
  have hvector : blockSizeMax ≤ vectorMaxSize := by decide
  obtain ⟨hmax, hruns⟩ := decompressed_length hreturns
  obtain ⟨bitshuffled, hrun, hsize⟩ := hruns output
  obtain ⟨unshuffled, hunshuffle, hlength⟩ := @unshuffle_of_ne_zero lib es hes bitshuffled
  refine ⟨unshuffled.take (bitshuffled.length - pad), ?_, ?_⟩
  · rw [unpack_eq hheader, callLzma_eq_ok.mpr hrun, ok_bind, restore, hunshuffle, ok_bind,
      removePadding_of_le hlength (by omega) (by omega)]
    rfl
  · rw [List.length_take]
    omega

theorem safeOn_fits (hheader : readHeader data = some (es, pad, lzmaPart))
    (hreturns : ReturnsLen blockSizeMax lzmaPart size) (output : Allocated blockSizeMax) :
    SafeOn lib data output ↔ HeaderFits es pad size := by
  obtain ⟨bitshuffled, hrun, hsize⟩ := (decompressed_length hreturns).2 output
  constructor
  · rintro (hrejected | ⟨es', pad', lzmaPart', bitshuffled', -, hheader', hrun', hfits, -⟩)
    · -- an input with a header is not rejected
      by_cases hes : es = 0
      · subst hes
        rw [unpack_zero hheader] at hrejected
        cases hrejected
      · by_cases hpad : pad ≤ size
        · obtain ⟨finalBytes, hprocessed, -⟩ :=
            @unpack_processed lib _ _ _ _ _ hheader hes hreturns hpad output
          rw [hprocessed] at hrejected
          cases hrejected
        · rw [unpack_wraps hheader hes hreturns (Nat.lt_of_not_le hpad)] at hrejected
          cases hrejected
    · rw [hheader] at hheader'
      obtain ⟨rfl, hrest⟩ := Prod.mk.inj (Option.some.inj hheader')
      obtain ⟨rfl, rfl⟩ := Prod.mk.inj hrest
      obtain rfl := Except.ok.inj (hrun.symm.trans hrun')
      exact hsize ▸ hfits
  · intro hfits
    obtain ⟨finalBytes, hprocessed, hlength⟩ :=
      @unpack_processed lib _ _ _ _ _ hheader hfits.es_ne_zero hreturns hfits.pad_le output
    exact .inr ⟨es, pad, lzmaPart, bitshuffled, finalBytes, hheader, hrun, hsize ▸ hfits, hprocessed,
      hlength.trans hsize.symm⟩

/-- `decompress` is safe on an input just when this is too short for a header, or when its
element size and padding go with the length of a whole stream behind the header, or, where
no whole stream is, with the length that the stream's own header announces. -/
theorem safeOn_iff (lib : BitShuffle) (data : List UInt8) (output : Allocated blockSizeMax) :
    SafeOn lib data output ↔
      data.length < 6 ∨ ∃ es pad lzmaPart, readHeader data = some (es, pad, lzmaPart) ∧ es ≠ 0 ∧
        ((∃ out, WholeStream blockSizeMax lzmaPart out ∧ es ∣ out.length ∧ pad ≤ out.length) ∨
          (∀ out, ¬ WholeStream blockSizeMax lzmaPart out) ∧
            es ∣ announcedLen blockSizeMax lzmaPart ∧ pad ≤ announcedLen blockSizeMax lzmaPart) := by
  by_cases hshort : data.length < 6
  · refine iff_of_true (.inl ?_) (.inl hshort)
    rw [unpack, readHeader_none.mpr hshort]
    rfl
  · obtain ⟨⟨es, pad, lzmaPart⟩, hheader⟩ :=
      Option.ne_none_iff_exists'.mp (mt readHeader_none.mp hshort)
    obtain ⟨size, hreturns⟩ := exists_returnsLen lzmaPart
    rw [safeOn_fits hheader hreturns]
    constructor
    · rintro ⟨hes, hwhole, hpad⟩
      refine .inr ⟨es, pad, lzmaPart, hheader, hes, ?_⟩
      obtain ⟨out, hstream, rfl⟩ | ⟨hnone, rfl⟩ := hreturns
      · exact .inl ⟨out, hstream, Nat.dvd_of_mod_eq_zero hwhole, hpad⟩
      · exact .inr ⟨hnone, Nat.dvd_of_mod_eq_zero hwhole, hpad⟩
    · rintro (hlt | ⟨es', pad', lzmaPart', hheader', hes, hlength⟩)
      · exact absurd hlt hshort
      · rw [hheader] at hheader'
        obtain ⟨rfl, hrest⟩ := Prod.mk.inj (Option.some.inj hheader')
        obtain ⟨rfl, rfl⟩ := Prod.mk.inj hrest
        obtain ⟨out, hstream, hdvd, hpad⟩ | ⟨hnone, hdvd, hpad⟩ := hlength
        · obtain rfl := hreturns.unique (.inl ⟨out, hstream, rfl⟩)
          exact ⟨hes, Nat.mod_eq_zero_of_dvd hdvd, hpad⟩
        · obtain rfl := hreturns.unique (.inr ⟨hnone, rfl⟩)
          exact ⟨hes, Nat.mod_eq_zero_of_dvd hdvd, hpad⟩

theorem returnsLen_nil : ReturnsLen blockSizeMax [] blockSizeMax := by
  refine .inr ⟨?_, rfl⟩
  rintro out ⟨header, hlong, -⟩
  exact absurd hlong (by decide)

/-- Three headers that do not fit the 2 MiB for an empty rest, none of them rejected: a
division by zero, a size that wraps, and elements that are not whole. -/
theorem headers_not_rejected :
    (unpack copyShuffle [0, 0, 0, 0, 0, 0] (.replicate _ 0) = .error .divisionByZero ∧
      ¬ SafeOn copyShuffle [0, 0, 0, 0, 0, 0] (.replicate _ 0)) ∧
    (unpack copyShuffle [0, 1, 255, 255, 255, 255] (.replicate _ 0) = .error .lengthError ∧
      ¬ SafeOn copyShuffle [0, 1, 255, 255, 255, 255] (.replicate _ 0)) ∧
    ((∃ finalBytes, unpack copyShuffle [0, 3, 0, 0, 0, 0] (.replicate _ 0) =
        .ok (some finalBytes)) ∧
      ¬ SafeOn copyShuffle [0, 3, 0, 0, 0, 0] (.replicate _ 0)) := by
  have hunfit : ∀ {data es pad} (output : Allocated blockSizeMax),
      readHeader data = some (es, pad, []) → ¬ HeaderFits es pad blockSizeMax →
        ¬ SafeOn copyShuffle data output :=
    fun output hheader hmisfit hsafe => hmisfit ((safeOn_fits hheader returnsLen_nil output).mp hsafe)
  have hwraps := @unpack_wraps copyShuffle [0, 1, 255, 255, 255, 255] [] 1 (2 ^ 32 - 1) _ rfl
    (by decide) returnsLen_nil (by decide) (.replicate _ 0)
  obtain ⟨finalBytes, hodd, -⟩ := @unpack_processed copyShuffle [0, 3, 0, 0, 0, 0] [] 3 0 _ rfl
    (by decide) returnsLen_nil (Nat.zero_le _) (.replicate _ 0)
  exact ⟨⟨unpack_zero rfl _, hunfit _ rfl fun h => h.es_ne_zero rfl⟩,
    ⟨hwraps, hunfit _ rfl fun h => absurd h.pad_le (by decide)⟩,
    ⟨⟨_, hodd⟩, hunfit _ rfl fun h => absurd h.whole_elems (by decide)⟩⟩

end outcomes

end TonCompress.Shuffle
