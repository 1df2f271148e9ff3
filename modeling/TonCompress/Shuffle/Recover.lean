import TonCompress.Shuffle.Container

/-! What steps 1 to 4 of `decompress` give back of a container that the search has built. -/
namespace TonCompress.Shuffle
open TonCompress.Lib TonCompress.Lzma

theorem callLzma_eq_ok {α : Type} {run : LzmaExec α} {value : α} :
    callLzma run = .ok value ↔ run = .ok value := by
  cases run <;> simp [callLzma, Except.mapError]

section steps
variable {lib : BitShuffle} {es pad : Nat} {bitshuffled : List UInt8}

theorem subSize_of_le {a b : Nat} (h : b ≤ a) (ha : a < 2 ^ 64) : subSize a b = a - b := by
  unfold subSize
  omega

theorem subSize_of_lt {a b : Nat} (h : a < b) (hb : b < 2 ^ 64) :
    subSize a b = 2 ^ 64 - (b - a) := by
  unfold subSize
  omega

theorem unshuffle_of_ne_zero (hes : es ≠ 0) (bitshuffled : List UInt8) :
    ∃ unshuffled, unshuffle lib bitshuffled es = .ok unshuffled ∧
      unshuffled.length = bitshuffled.length := by
  refine ⟨_, if_neg hes, ?_⟩
  rw [lib.bitunshuffle_length, List.length_replicate]

theorem removePadding_of_le {unshuffled : List UInt8} {size : Nat} (hlength : unshuffled.length = size)
    (hsize : size ≤ vectorMaxSize) (hpad : pad ≤ size) :
    removePadding unshuffled size pad = .ok (unshuffled.take (size - pad)) := by
  have hmax : vectorMaxSize = 2 ^ 63 - 1 := rfl
  unfold removePadding
  rw [subSize_of_le hpad (by omega), if_neg (by omega), if_neg (by omega)]

theorem removePadding_of_lt {unshuffled : List UInt8} {size : Nat} (hsize : size < pad)
    (hpad : pad < 2 ^ 32) : removePadding unshuffled size pad = .error .lengthError := by
  have hmax : vectorMaxSize = 2 ^ 63 - 1 := rfl
  unfold removePadding
  rw [subSize_of_lt hsize (by omega), if_pos (by omega)]

theorem restore_ok (hsize : bitshuffled.length ≤ vectorMaxSize) (hpad : pad < 2 ^ 32)
    {finalBytes : List UInt8} (h : restore lib es pad bitshuffled = .ok finalBytes) :
    es ≠ 0 ∧ finalBytes.length + pad = bitshuffled.length := by
  obtain ⟨unshuffled, hunshuffle, hremove⟩ := bind_eq_ok.mp h
  by_cases hes : es = 0
  · rw [unshuffle, if_pos hes] at hunshuffle
    cases hunshuffle
  · obtain ⟨unshuffled', hunshuffle', hlength⟩ := @unshuffle_of_ne_zero lib es hes bitshuffled
    obtain rfl := Except.ok.inj (hunshuffle'.symm.trans hunshuffle)
    refine ⟨hes, ?_⟩
    by_cases hle : pad ≤ bitshuffled.length
    · rw [removePadding_of_le hlength hsize hle] at hremove
      obtain rfl := Except.ok.inj hremove
      rw [List.length_take]
      omega
    · rw [removePadding_of_lt (Nat.lt_of_not_le hle) hpad] at hremove
      cases hremove

theorem unpack_eq {data lzmaPart : List UInt8} (hheader : readHeader data = some (es, pad, lzmaPart))
    (output : Allocated blockSizeMax) :
    unpack lib data output = callLzma (lzmaDecompress lzmaPart blockSizeMax output) >>= fun bitshuffled =>
      restore lib es pad bitshuffled >>= fun finalBytes => pure (some finalBytes) := by
  unfold unpack
  rw [hheader]

end steps

section recovery
variable {lib : BitShuffle} {payload : List UInt8} {es : Nat} {heap : Heap}
variable {compressed : List UInt8}

/-- The LZ codec gives these bytes back. -/
def LzRoundTrips (bytes : List UInt8) : Prop :=
  ∀ input compressed, lzmaCompress bytes input = .ok compressed →
    ∀ output, lzmaDecompress compressed blockSizeMax output = .ok bytes

theorem shuffleAndCompress_some
    (h : shuffleAndCompress lib payload es heap = .ok (some compressed)) :
    0 ≤ (shuffle lib payload es).1 ∧
      lzmaCompress (shuffle lib payload es).2 (heap es _) = .ok compressed := by
  unfold shuffleAndCompress at h
  dsimp only at h
  by_cases hret : (shuffle lib payload es).1 < 0
  · rw [if_pos hret] at h
    cases h
  · rw [if_neg hret] at h
    obtain ⟨compressed', hcall, h⟩ := bind_eq_ok.mp h
    obtain rfl := Option.some.inj (Except.ok.inj h)
    exact ⟨by omega, callLzma_eq_ok.mp hcall⟩

theorem restore_shuffle (hlib : lib.Inverts) (hes : 0 < es) (hret : 0 ≤ (shuffle lib payload es).1)
    (hsize : (padded payload es).length ≤ vectorMaxSize) :
    restore lib es (padding payload.length es) (shuffle lib payload es).2 = .ok payload := by
  have hlength := shuffle_length lib payload es
  have hcount : (padded payload es).length = (padded payload es).length / es * es :=
    (Nat.div_mul_cancel (dvd_padded_length hes payload)).symm
  have hpadded := padded_length payload es
  have hinverse : (lib.bitunshuffle (shuffle lib payload es).2
      (List.replicate (padded payload es).length 0) ((padded payload es).length / es) es 0).2 =
        padded payload es :=
    hlib _ _ _ _ _ hcount List.length_replicate List.length_replicate hret
  unfold restore unshuffle
  rw [if_neg (Nat.ne_of_gt hes), hlength, ok_bind, hinverse,
    removePadding_of_le rfl hsize (by omega), hpadded, Nat.add_sub_cancel, padded, List.take_left]

/-- The container of an element size gives the payload back just when the padded
payload is not longer than what the decompressor returns at most. -/
theorem unpack_container_iff (hlib : lib.Inverts) (hes : 1 ≤ es ∧ es ≤ 1024)
    (hbuilt : shuffleAndCompress lib payload es heap = .ok (some compressed))
    (hcodec : (padded payload es).length ≤ blockSizeMax → LzRoundTrips (shuffle lib payload es).2)
    (output : Allocated blockSizeMax) :
    unpack lib (headerBytes es (padding payload.length es) ++ compressed) output =
        .ok (some payload) ↔
      payload.length + padding payload.length es ≤ blockSizeMax := by
  have hpadding := padding_lt hes.1 payload.length
  have hmax : blockSizeMax = 2 ^ 21 := rfl
  have hvector : vectorMaxSize = 2 ^ 63 - 1 := rfl
  have hpadded := padded_length payload es
  have hheader := @readHeader_headerBytes es (padding payload.length es) (by omega) (by omega)
    compressed
  rw [unpack_eq hheader]
  obtain ⟨hret, hcompress⟩ := shuffleAndCompress_some hbuilt
  constructor
  · intro hrun
    obtain ⟨bitshuffled, hdecompress, hrun⟩ := bind_eq_ok.mp hrun
    obtain ⟨finalBytes, hrestore, hrun⟩ := bind_eq_ok.mp hrun
    obtain rfl := Option.some.inj (Except.ok.inj hrun)
    obtain ⟨len, hle, -, hlength⟩ := @lzmaDecompress_length blockSizeMax (by decide) compressed
    obtain ⟨bitshuffled', hdecompress', rfl⟩ := hlength output
    obtain rfl := Except.ok.inj (hdecompress'.symm.trans (callLzma_eq_ok.mp hdecompress))
    obtain ⟨-, hsum⟩ := restore_ok (by omega) (by omega) hrestore
    omega
  · intro hfits
    have hdecompress := hcodec (by omega) _ _ hcompress output
    rw [callLzma_eq_ok.mpr hdecompress, ok_bind, restore_shuffle hlib hes.1 hret (by omega)]
    rfl

end recovery

section selection
variable {lib : BitShuffle} {payload : List UInt8} {heap : Heap}

/-- `best` is of one of the element sizes below `i` that did not fail, and none of
these compresses to less. -/
structure Selected (lib : BitShuffle) (payload : List UInt8) (heap : Heap) (i : Nat) (best : Best) :
    Prop where
  chosen : best = .start ∨ ∃ es, 1 ≤ es ∧ es < i ∧ ∃ compressed,
    shuffleAndCompress lib payload es heap = .ok (some compressed) ∧
      best = ⟨es, padding payload.length es, compressed, compressed.length⟩
  least : ∀ es, 1 ≤ es → es < i → ∀ compressed,
    shuffleAndCompress lib payload es heap = .ok (some compressed) → best.size ≤ compressed.length

theorem Selected.start : Selected lib payload heap 1 .start :=
  ⟨.inl rfl, fun es hone hlt => by omega⟩

theorem Selected.skip {i : Nat} {best : Best} (h : Selected lib payload heap i best)
    (hskip : shuffleAndCompress lib payload i heap = .ok none) :
    Selected lib payload heap (i + 1) best := by
  refine ⟨?_, ?_⟩
  · rcases h.chosen with hstart | ⟨es, hone, hlt, hchosen⟩
    · exact .inl hstart
    · exact .inr ⟨es, hone, by omega, hchosen⟩
  · intro es hone hlt compressed hbuilt
    by_cases hlast : es = i
    · subst hlast
      rw [hskip] at hbuilt
      cases hbuilt
    · exact h.least es hone (by omega) compressed hbuilt

theorem Selected.track {i : Nat} {best : Best} (h : Selected lib payload heap i best) (hi : 1 ≤ i)
    {compressed : List UInt8}
    (hbuilt : shuffleAndCompress lib payload i heap = .ok (some compressed)) :
    Selected lib payload heap (i + 1) (best.track i (padding payload.length i) compressed) := by
  have hleast : ∀ bound, bound ≤ best.size → bound ≤ compressed.length →
      ∀ es, 1 ≤ es → es < i + 1 → ∀ compressed',
        shuffleAndCompress lib payload es heap = .ok (some compressed') →
          bound ≤ compressed'.length := by
    intro bound hbest hnew es hone hlt compressed' hbuilt'
    by_cases hlast : es = i
    · subst hlast
      obtain rfl := Option.some.inj (Except.ok.inj (hbuilt.symm.trans hbuilt'))
      exact hnew
    · exact hbest.trans (h.least es hone (by omega) compressed' hbuilt')
  unfold Best.track
  by_cases hless : compressed.length < best.size
  · rw [if_pos hless]
    exact ⟨.inr ⟨i, hi, by omega, compressed, hbuilt, rfl⟩, hleast _ hless.le le_rfl⟩
  · rw [if_neg hless]
    refine ⟨?_, hleast _ le_rfl (by omega)⟩
    rcases h.chosen with hstart | ⟨es, hone, hlt, hchosen⟩
    · exact .inl hstart
    · exact .inr ⟨es, hone, by omega, hchosen⟩

theorem tryElemSize_selected {i : Nat} {best : Best} (h : Selected lib payload heap i best)
    (hi : 1 ≤ i) :
    Ends (tryElemSize lib payload heap i best) (Selected lib payload heap (i + 1)) fun _ => True := by
  unfold tryElemSize
  cases hrun : shuffleAndCompress lib payload i heap with
  | error reason => trivial
  | ok built =>
    rw [ends_ok_bind]
    cases built with
    | none => exact h.skip hrun
    | some compressed => exact h.track hi hrun

/-- The search returns the container of an element size, and none compresses to less. -/
theorem search_eq {container : List UInt8} (h : search lib payload heap = .ok container) :
    ∃ es, (1 ≤ es ∧ es ≤ 1024) ∧ ∃ compressed,
      shuffleAndCompress lib payload es heap = .ok (some compressed) ∧
        container = headerBytes es (padding payload.length es) ++ compressed ∧
        ∀ es' compressed', 1 ≤ es' ∧ es' ≤ 1024 →
          shuffleAndCompress lib payload es' heap = .ok (some compressed') →
            compressed.length ≤ compressed'.length := by
  obtain ⟨best, hloop, hfinal⟩ := bind_eq_ok.mp h
  have hselected := forRange_ends (Selected lib payload heap) (show 1 ≤ 1025 by decide)
    Selected.start fun i best hi _ hbest => @tryElemSize_selected lib payload heap i best hbest hi
  obtain ⟨hchosen, hleast⟩ := hselected.of_ok hloop
  rcases hchosen with rfl | ⟨es, hone, hlt, compressed, hbuilt, rfl⟩
  · cases hfinal
  · refine ⟨es, ⟨hone, by omega⟩, compressed, hbuilt, ?_, fun es' compressed' hes' =>
      hleast es' hes'.1 (by omega) compressed'⟩
    unfold Best.finalData at hfinal
    dsimp only at hfinal
    split at hfinal
    · cases hfinal
    · rw [List.take_length] at hfinal
      exact (Except.ok.inj hfinal).symm

theorem finalData_ok {best : Best} (hlength : best.compressed.length = best.size)
    (hsize : 6 + best.size < 2 ^ 64) :
    best.finalData = .ok (headerBytes best.elemSize best.padding ++ best.compressed) := by
  unfold Best.finalData
  rw [if_neg (by omega), ← hlength, List.take_length]

theorem shuffleAndCompress_ends {es : Nat} (hsize : (padded payload es).length < 2 ^ 64)
    (hret : 0 ≤ (shuffle lib payload es).1) :
    ∃ compressed, shuffleAndCompress lib payload es heap = .ok (some compressed) ∧
      compressed.length ≤ blockSizeMax := by
  obtain ⟨len, -, hlen, hruns⟩ := @lzmaCompress_length (shuffle lib payload es).2
    (by rw [shuffle_length]; exact hsize)
  obtain ⟨compressed, hcompress, rfl⟩ := hruns (heap es _)
  refine ⟨compressed, ?_, hlen.trans (lzmaCompressCapacity_le _)⟩
  unfold shuffleAndCompress
  dsimp only
  rw [if_neg (by omega), callLzma_eq_ok.mpr hcompress]
  rfl

theorem tryElemSize_ends {i : Nat} {best : Best} (h : Selected lib payload heap i best)
    (hi : 1 ≤ i) (hsize : (padded payload i).length < 2 ^ 64) :
    Returns (tryElemSize lib payload heap i best) (Selected lib payload heap (i + 1)) := by
  have hselected := @tryElemSize_selected lib payload heap i best h hi
  by_cases hret : (shuffle lib payload i).1 < 0
  · have hskip : shuffleAndCompress lib payload i heap = .ok none := if_pos hret
    rw [tryElemSize, hskip] at hselected ⊢
    exact hselected
  · obtain ⟨compressed, hbuilt, -⟩ :=
      @shuffleAndCompress_ends lib payload heap i hsize (Int.not_lt.mp hret)
    rw [tryElemSize, hbuilt] at hselected ⊢
    exact hselected

theorem search_ends (hpayload : payload.length + 1024 < 2 ^ 64) {es : Nat}
    (hes : 1 ≤ es ∧ es ≤ 1024) (hret : 0 ≤ (shuffle lib payload es).1) :
    ∃ container, search lib payload heap = .ok container := by
  have hsize : ∀ i, 1 ≤ i → i ≤ 1024 → (padded payload i).length < 2 ^ 64 := by
    intro i hone hle
    have hlt := padding_lt hone payload.length
    rw [padded_length]
    omega
  have hloop := forRange_ends (Selected lib payload heap) (show 1 ≤ 1025 by decide)
    Selected.start fun i best hi hlt hbest =>
      @tryElemSize_ends lib payload heap i best hbest hi (hsize i hi (by omega))
  obtain ⟨best, hbest, hchosen, hleast⟩ := returns_iff.mp hloop
  obtain ⟨compressed, hbuilt, hlength⟩ :=
    @shuffleAndCompress_ends lib payload heap es (hsize es hes.1 hes.2) hret
  have hbound := hleast es hes.1 (by omega) compressed hbuilt
  have hmax : blockSizeMax = 2 ^ 21 := rfl
  unfold search
  rw [hbest, ok_bind]
  rcases hchosen with rfl | ⟨es', -, -, compressed', -, rfl⟩
  · change 2 ^ 64 - 1 ≤ compressed.length at hbound
    omega
  · dsimp only at hbound
    exact ⟨_, finalData_ok rfl (show 6 + compressed'.length < 2 ^ 64 by omega)⟩

/-- A container that the search may return: the one of an element size between 1 and
1024 for which `bshuf_bitshuffle` does not fail. -/
def Built (lib : BitShuffle) (payload : List UInt8) (heap : Heap) (es : Nat)
    (container : List UInt8) : Prop :=
  (1 ≤ es ∧ es ≤ 1024) ∧ ∃ compressed,
    shuffleAndCompress lib payload es heap = .ok (some compressed) ∧
      container = headerBytes es (padding payload.length es) ++ compressed

/-- What the search returns is built for some element size. Steps 1 to 4 of `decompress`
recover the payload from what is built for an element size, which may be any that the
search tries, just when the padded payload fits the 2 MiB of the decompressor. -/
theorem unpack_built_iff (hlib : lib.Inverts) (payload : List UInt8) (heap : Heap) :
    (∀ container, search lib payload heap = .ok container →
      ∃ es, Built lib payload heap es container) ∧
    ∀ es container, Built lib payload heap es container →
      ((padded payload es).length ≤ blockSizeMax → LzRoundTrips (shuffle lib payload es).2) →
      ∀ output : Allocated blockSizeMax,
        unpack lib container output = .ok (some payload) ↔
          payload.length + padding payload.length es ≤ blockSizeMax := by
  constructor
  · intro container hsearch
    obtain ⟨es, hes, compressed, hbuilt, hcontainer, -⟩ := search_eq hsearch
    exact ⟨es, hes, compressed, hbuilt, hcontainer⟩
  · rintro es container ⟨hes, compressed, hbuilt, rfl⟩ hcodec output
    exact unpack_container_iff hlib hes hbuilt hcodec output

end selection

section copying

def copied (src out : List UInt8) (count : Nat) : List UInt8 :=
  (src.take count ++ out.drop (min count src.length)).take out.length

theorem copied_length (src out : List UInt8) (count : Nat) :
    (copied src out count).length = out.length := by
  simp only [copied, List.length_take, List.length_append, List.length_drop]
  omega

theorem copied_all {src out : List UInt8} (h : out.length = src.length) :
    copied src out src.length = src := by
  rw [copied, List.take_length, h]
  exact List.take_left

def copyShuffle : BitShuffle where
  bitshuffle src out size elemSize _ := (↑(size * elemSize), copied src out (size * elemSize))
  bitunshuffle src out size elemSize _ := (↑(size * elemSize), copied src out (size * elemSize))
  bitshuffle_length _ _ _ _ _ := copied_length _ _ _
  bitunshuffle_length _ _ _ _ _ := copied_length _ _ _

theorem copyShuffle_inverts : copyShuffle.Inverts := by
  intro src out out' size elemSize hsrc hout hout' _
  change copied (copied src out (size * elemSize)) out' (size * elemSize) = src
  rw [← hsrc, copied_all hout, copied_all hout']

/-- The same library out of memory for all element sizes but one. -/
def BitShuffle.onlyFor (lib : BitShuffle) (only : Nat) : BitShuffle :=
  { lib with
    bitshuffle := fun src out size elemSize blockSize =>
      if elemSize = only then lib.bitshuffle src out size elemSize blockSize else (-1, out)
    bitshuffle_length := by
      intro src out size elemSize blockSize
      split
      · exact lib.bitshuffle_length _ _ _ _ _
      · rfl }

theorem BitShuffle.Inverts.onlyFor {lib : BitShuffle} (h : lib.Inverts) (only : Nat) :
    (lib.onlyFor only).Inverts := by
  intro src out out' size elemSize hsrc hout hout' hret
  change 0 ≤ (if elemSize = only then lib.bitshuffle src out size elemSize 0 else (-1, out)).1 at hret
  change (lib.bitunshuffle (if elemSize = only then lib.bitshuffle src out size elemSize 0
    else (-1, out)).2 out' size elemSize 0).2 = src
  by_cases helem : elemSize = only
  · rw [if_pos helem] at hret ⊢
    exact h src out out' size elemSize hsrc hout hout' hret
  · rw [if_neg helem] at hret
    change (0 : Int) ≤ -1 at hret
    omega

def zeroHeap : Heap := fun _ n => .replicate n 0

/-- Three bytes in elements of two. -/
theorem unpack_built_iff_three :
    unpack copyShuffle (headerBytes 2 1 ++
        [8, 0, 0, 0, 64, 4, 0, 0, 0, 0, 0, 0, 0, 0, 0, 128, 130, 101, 18, 0, 0, 0, 0])
        (.replicate _ 0) = .ok (some [1, 2, 3]) ↔
      [1, 2, 3].length + padding [1, 2, 3].length 2 ≤ blockSizeMax := by
  have hencode : lzmaEncode [1, 2, 3, 0]
      (lzmaCompressCapacity [1, 2, 3, (0 : UInt8)].length - lzmaHeaderLen) false =
        .ok (.ok, [0, 0, 128, 130, 101, 18, 0, 0, 0, 0]) := by
    decide +kernel
  have hcompress := @lzmaCompress_encoded [1, 2, 3, 0] _ (by decide) hencode (zeroHeap 2 _)
  have hshuffle : shuffle copyShuffle [1, 2, 3] 2 = (4, [1, 2, 3, 0]) := rfl
  have hbuilt : Built copyShuffle [1, 2, 3] zeroHeap 2 (headerBytes 2 1 ++
      [8, 0, 0, 0, 64, 4, 0, 0, 0, 0, 0, 0, 0, 0, 0, 128, 130, 101, 18, 0, 0, 0, 0]) := by
    refine ⟨by decide, _, ?_, rfl⟩
    rw [shuffleAndCompress, hshuffle]
    dsimp only
    rw [if_neg (by decide), callLzma_eq_ok.mpr hcompress]
    rfl
  have hcodec : LzRoundTrips [1, 2, 3, 0] := by
    intro input compressed hrun output
    obtain rfl := Except.ok.inj ((lzmaCompress_encoded (by decide) hencode input).symm.trans hrun)
    exact lzmaDecompress_encoded (by decide) (by decide) (by decide) hencode output
  exact (unpack_built_iff copyShuffle_inverts [1, 2, 3] zeroHeap).2 2 _ hbuilt (fun _ => hcodec) _

/-- 2 MiB of zeroes in elements of three: one byte of padding is too much. -/
theorem zeroes_not_recovered :
    copyShuffle.Inverts ∧ (List.replicate blockSizeMax (0 : UInt8)).length ≤ blockSizeMax ∧
    (∃ container, Built copyShuffle (List.replicate blockSizeMax 0) zeroHeap 3 container ∧
      ∀ output : Allocated blockSizeMax, unpack copyShuffle container output ≠
        .ok (some (List.replicate blockSizeMax 0))) ∧
    (copyShuffle.onlyFor 3).Inverts ∧
    ∃ container, search (copyShuffle.onlyFor 3) (List.replicate blockSizeMax 0) zeroHeap =
        .ok container ∧
      ∀ output : Allocated blockSizeMax, unpack (copyShuffle.onlyFor 3) container output ≠
        .ok (some (List.replicate blockSizeMax 0)) := by
  have hlength : (List.replicate blockSizeMax (0 : UInt8)).length = blockSizeMax :=
    List.length_replicate
  have hmax : blockSizeMax = 2 ^ 21 := rfl
  generalize List.replicate blockSizeMax (0 : UInt8) = zeroes at hlength ⊢
  have hpadding : padding zeroes.length 3 = 1 := by rw [hlength]; rfl
  have hpadded : (padded zeroes 3).length = blockSizeMax + 1 := by
    rw [padded_length, hpadding, hlength]
  have hlost : ∀ (lib : BitShuffle), lib.Inverts → ∀ compressed,
      shuffleAndCompress lib zeroes 3 zeroHeap = .ok (some compressed) →
        ∀ output : Allocated blockSizeMax,
          unpack lib (headerBytes 3 (padding zeroes.length 3) ++ compressed) output ≠
            .ok (some zeroes) := by
    intro lib hlib compressed hbuilt output hrun
    have hfits := (unpack_container_iff hlib (by decide) hbuilt (fun hfits => by omega) output).mp hrun
    omega
  have hret : 0 ≤ (shuffle copyShuffle zeroes 3).1 := Int.natCast_nonneg _
  refine ⟨copyShuffle_inverts, hlength.le, ?_, copyShuffle_inverts.onlyFor 3, ?_⟩
  · obtain ⟨compressed, hbuilt, -⟩ :=
      @shuffleAndCompress_ends copyShuffle zeroes zeroHeap 3 (by omega) hret
    exact ⟨_, ⟨by decide, compressed, hbuilt, rfl⟩, hlost _ copyShuffle_inverts _ hbuilt⟩
  · obtain ⟨container, hsearch⟩ :=
      @search_ends (copyShuffle.onlyFor 3) zeroes zeroHeap (by omega) 3 (by decide) hret
    obtain ⟨es, -, compressed, hbuilt, rfl, -⟩ := search_eq hsearch
    have hthree : es = 3 := by
      by_contra hother
      have hfails : (shuffle (copyShuffle.onlyFor 3) zeroes es).1 = -1 :=
        congrArg Prod.fst (if_neg hother)
      have hpos := (shuffleAndCompress_some hbuilt).1
      omega
    subst hthree
    exact ⟨_, hsearch, hlost _ (copyShuffle_inverts.onlyFor 3) _ hbuilt⟩

end copying

end TonCompress.Shuffle
