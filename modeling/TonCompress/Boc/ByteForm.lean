import TonCompress.Boc.Checksum

/-! The two descriptor bytes and the data bytes of a cell: which of them the reader
accepts, and that each of these is the encoding of one cell. -/
namespace TonCompress.Boc
open TonCompress.Lib

/-- What the two sections say of a cell, its references counted only. -/
@[ext] structure CellContent where
  bitString : List Bool
  refsCnt : Nat
  special : Bool
  levelMask : Nat
  bits_le : bitString.length ≤ 1023
  refs_le : refsCnt ≤ 4
  levelMask_lt : levelMask < 8

structure ByteForm where
  d1 : UInt8
  d2 : UInt8
  data : List UInt8
  deriving DecidableEq, Repr

def CellContent.cell (content : CellContent) (refs : List DataCell) : DataCell where
  bits := content.bitString.length
  data := packBits content.bitString
  refs := refs
  isSpecial := content.special
  levelMask := content.levelMask

def CellContent.encode (content : CellContent) : ByteForm :=
  let cell := content.cell (List.replicate content.refsCnt leafCell)
  ⟨cell.d1, cell.d2, cell.data⟩

def ByteForm.read (form : ByteForm) (refByteSize : Nat) :
    BocExec (CellSerializationInfo × Nat) := do
  let cellInfo ← CellSerializationInfo.initBytes form.d1 form.d2 refByteSize
  let bits ← cellInfo.getBits (Slice.ofBytes form.data)
  return (cellInfo, bits)

/-- The reader takes the form, whose data bytes are those that `init` counts. -/
def ByteForm.Accepted (refByteSize : Nat) (form : ByteForm) : Prop :=
  ∃ cellInfo bits, form.read refByteSize = .ok (cellInfo, bits) ∧ cellInfo.withHashes = false ∧
    form.data.length = cellInfo.dataLen

/-- The cell that the reader sees in the form. -/
def ByteForm.Denotes (refByteSize : Nat) (form : ByteForm) (content : CellContent) : Prop :=
  ∃ cellInfo, form.read refByteSize = .ok (cellInfo, content.bitString.length) ∧
    cellInfo.refsCnt = content.refsCnt ∧ cellInfo.special = content.special ∧
    cellInfo.levelMask = content.levelMask ∧
    cellInfo.dataLen = (content.bitString.length + 7) / 8 ∧
    (bitsOf form.data).take content.bitString.length = content.bitString

section packing
variable {bits : List Bool}

theorem packBits_length (bits : List Bool) : (packBits bits).length = (bits.length + 7) / 8 := by
  rw [packBits, List.length_map, List.length_range]

theorem packBits_tag {last : UInt8} (hlast : (packBits bits).getLast? = some last)
    (hused : bits.length % 8 ≠ 0) :
    last.toNat % 2 ^ (8 - bits.length % 8) = 2 ^ (7 - bits.length % 8) := by
  obtain ⟨n, hn⟩ : ∃ n, (bits.length + 7) / 8 = n + 1 := ⟨(bits.length + 7) / 8 - 1, by omega⟩
  rw [packBits, hn, @List.range_succ n, List.map_append, List.map_singleton, List.getLast?_concat,
    Option.some.injEq] at hlast
  have hbits : lowBits 8 last.toNat = (List.range 8).map fun j => taggedBit bits (8 * n + j) :=
    hlast ▸ lowBits_packed bits n
  apply Nat.eq_of_testBit_eq
  intro k
  rw [Nat.testBit_mod_two_pow, Nat.testBit_two_pow]
  by_cases hk : k < 8 - bits.length % 8
  · have hget := congrArg (fun list => list[7 - k]?) hbits
    rw [lowBits_getElem? (by omega), show 8 - 1 - (7 - k) = k by omega] at hget
    have hbit : last.toNat.testBit k = taggedBit bits (8 * n + (7 - k)) := by
      simpa [show 7 - k < 8 by omega] using hget
    rw [decide_eq_true hk, Bool.true_and, hbit, taggedBit, List.getD_eq_default _ _ (by omega),
      beq_eq_decide, decide_eq_decide]
    omega
  · rw [decide_eq_false hk, Bool.false_and, eq_comm, decide_eq_false_iff_not]
    omega

end packing

section writing

theorem CellContent.cell_stored (content : CellContent) {refs : List DataCell}
    (hrefs : refs.length = content.refsCnt) : (content.cell refs).Stored :=
  ⟨content.bits_le, hrefs ▸ content.refs_le, content.levelMask_lt,
    packBits_length content.bitString, fun _ hlast hused => packBits_tag hlast hused⟩

theorem CellContent.encode_eq (content : CellContent) {refs : List DataCell}
    (hrefs : refs.length = content.refsCnt) :
    (content.cell refs).getFirstTwoMeta false = [content.encode.d1, content.encode.d2] ∧
      (content.cell refs).data = content.encode.data := by
  have hsame : (content.cell refs).d1 = content.encode.d1 := by
    simp [DataCell.d1, CellContent.cell, CellContent.encode, hrefs]
  have hor : (content.cell refs).d1 ||| UInt8.ofNat (false.toNat * 16) = content.encode.d1 := by
    simp [hsame]
  refine ⟨?_, rfl⟩
  rw [DataCell.getFirstTwoMeta, hor]
  rfl

theorem CellContent.read_encode (content : CellContent) (refByteSize : Nat) :
    content.encode.read refByteSize =
      .ok (recordPrefix refByteSize (content.cell (List.replicate content.refsCnt leafCell)),
        content.bitString.length) := by
  have hstored := content.cell_stored (List.length_replicate (n := content.refsCnt) (a := leafCell))
  have hbits := @getBits_written refByteSize _ hstored (Slice.ofBytes content.encode.data) []
    (List.append_nil _).symm
  refine bind_eq_ok.mpr ⟨_, initBytes_written hstored refByteSize, ?_⟩
  rw [hbits]
  rfl

theorem CellContent.encode_denotes (content : CellContent) (refByteSize : Nat) :
    content.encode.Denotes refByteSize content :=
  ⟨_, content.read_encode refByteSize, List.length_replicate, rfl, rfl, rfl,
    take_bitsOf_packBits content.bitString⟩

theorem CellContent.encode_accepted (content : CellContent) (refByteSize : Nat) :
    content.encode.Accepted refByteSize :=
  ⟨_, _, content.read_encode refByteSize, rfl, packBits_length content.bitString⟩

theorem ByteForm.Denotes.unique {refByteSize : Nat} {form : ByteForm} {content content' : CellContent}
    (h : form.Denotes refByteSize content) (h' : form.Denotes refByteSize content') :
    content = content' := by
  obtain ⟨info, hread, hrefs, hspecial, hmask, -, hbits⟩ := h
  obtain ⟨info', hread', hrefs', hspecial', hmask', -, hbits'⟩ := h'
  rw [hread] at hread'
  obtain ⟨rfl, hlength⟩ := Prod.mk.inj (Except.ok.inj hread')
  ext1
  · rw [← hbits, ← hbits', hlength]
  · rw [← hrefs, ← hrefs']
  · rw [← hspecial, ← hspecial']
  · rw [← hmask, ← hmask']

end writing

section reading
variable {refByteSize : Nat} {form : ByteForm}

theorem tag_of_not_overlong : ∀ byte : Fin 256, byte.val % 128 ≠ 0 →
    countTrailingZeroes byte.val ≤ 6 ∧
      byte.val % 2 ^ (countTrailingZeroes byte.val + 1) = 2 ^ countTrailingZeroes byte.val := by
  decide +kernel

theorem initBytes_plain {d1 d2 : UInt8} {cellInfo : CellSerializationInfo}
    (h : CellSerializationInfo.initBytes d1 d2 refByteSize = .ok cellInfo)
    (hplain : cellInfo.withHashes = false) :
    cellInfo.refsCnt ≤ 4 ∧ cellInfo.levelMask < 8 ∧
      d1.toNat = cellInfo.refsCnt + 8 * cellInfo.special.toNat + 32 * cellInfo.levelMask ∧
      cellInfo.dataLen = d2.toNat / 2 + d2.toNat % 2 ∧
      cellInfo.dataWithBits = decide (d2.toNat % 2 = 1) := by
  have hlt := d1.toNat_lt
  unfold CellSerializationInfo.initBytes at h
  dsimp only at h
  split at h
  · split at h <;> cases h
  · rename_i hrefs
    obtain rfl := Except.ok.inj h
    dsimp only at hplain ⊢
    rw [Nat.testBit_eq_decide_div_mod_eq, decide_eq_false_iff_not] at hplain
    refine ⟨by omega, by omega, ?_, rfl, Nat.testBit_zero _⟩
    rw [Nat.testBit_eq_decide_div_mod_eq]
    by_cases hspecial : d1.toNat / 2 ^ 3 % 2 = 1
    · rw [decide_eq_true hspecial, Bool.toNat_true]
      omega
    · rw [decide_eq_false hspecial, Bool.toNat_false]
      omega

theorem getBits_plain {cellInfo : CellSerializationInfo} {data : List UInt8} {bits : Nat}
    (h : cellInfo.getBits (Slice.ofBytes data) = .ok bits)
    (hlen : data.length = cellInfo.dataLen)
    (hpos : cellInfo.dataWithBits = true → 1 ≤ cellInfo.dataLen) :
    (bits + 7) / 8 = data.length ∧ (cellInfo.dataWithBits = true ↔ bits % 8 ≠ 0) ∧
      ∀ last, data.getLast? = some last → bits % 8 ≠ 0 →
        last.toNat % 2 ^ (8 - bits % 8) = 2 ^ (7 - bits % 8) := by
  unfold CellSerializationInfo.getBits at h
  cases hwith : cellInfo.dataWithBits with
  | false =>
    rw [hwith, if_neg Bool.false_ne_true] at h
    obtain rfl := Except.ok.inj h
    refine ⟨by omega, by simp, ?_⟩
    intro last _ hused
    omega
  | true =>
    have hone := hpos hwith
    rw [hwith, if_pos rfl] at h
    obtain ⟨last, hread, h⟩ := bind_eq_ok.mp h
    have hlast : data.getLast? = some last := by
      rw [List.getLast?_eq_getElem?, hlen]
      change vecGet BocSite.buffer data _ = _ at hread
      rw [vecGet_natCast _ _ _ (show cellInfo.dataLen - 1 < data.length by omega)] at hread
      rw [List.getElem?_eq_getElem (by omega)]
      exact congrArg some (Except.ok.inj hread)
    by_cases hover : last.toNat % 128 = 0
    · rw [if_pos hover] at h
      cases h
    · rw [if_neg hover] at h
      obtain ⟨hzeroes, htag⟩ := tag_of_not_overlong ⟨last.toNat, last.toNat_lt⟩ hover
      dsimp only at hzeroes htag
      obtain rfl := Except.ok.inj h
      refine ⟨by omega, iff_of_true rfl (by omega), ?_⟩
      intro last' hlast' _
      obtain rfl : last = last' := Option.some.inj (hlast.symm.trans hlast')
      rw [show 8 - ((cellInfo.dataLen - 1) * 8 + 7 - countTrailingZeroes last.toNat) % 8 =
        countTrailingZeroes last.toNat + 1 by omega,
        show 7 - ((cellInfo.dataLen - 1) * 8 + 7 - countTrailingZeroes last.toNat) % 8 =
        countTrailingZeroes last.toNat by omega]
      exact htag

theorem ByteForm.Accepted.exists_encode (h : form.Accepted refByteSize) :
    ∃ content : CellContent, content.encode = form := by
  obtain ⟨cellInfo, bits, hread, hplain, hlen⟩ := h
  obtain ⟨cellInfo', hinit, hread⟩ := bind_eq_ok.mp hread
  obtain ⟨bits', hgets, hread⟩ := bind_eq_ok.mp hread
  obtain ⟨rfl, rfl⟩ := Prod.mk.inj (Except.ok.inj hread)
  obtain ⟨hrefs, hmask, hd1, hdataLen, hwith⟩ := initBytes_plain hinit hplain
  have hparity : cellInfo'.dataWithBits = true ↔ form.d2.toNat % 2 = 1 := by
    rw [hwith, decide_eq_true_eq]
  obtain ⟨hbytes, hused, -⟩ := getBits_plain hgets hlen fun hodd => by
    have := hparity.mp hodd
    omega
  have hodd : bits' % 8 ≠ 0 ↔ form.d2.toNat % 2 = 1 := hused.symm.trans hparity
  have hd2 := form.d2.toNat_lt
  have hlength : ((bitsOf form.data).take bits').length = bits' := by
    rw [List.length_take, bitsOf_length]
    omega
  let content : CellContent :=
    { bitString := (bitsOf form.data).take bits'
      refsCnt := cellInfo'.refsCnt
      special := cellInfo'.special
      levelMask := cellInfo'.levelMask
      bits_le := by
        rw [hlength]
        omega
      refs_le := hrefs
      levelMask_lt := hmask }
  let cell := content.cell (List.replicate content.refsCnt leafCell)
  have hstored : cell.Stored := content.cell_stored List.length_replicate
  have hcellBits : cell.bits = bits' := hlength
  have hcellRefs : cell.refs.length = cellInfo'.refsCnt := List.length_replicate
  have hdata : cell.data = form.data := by
    have hget : (recordPrefix refByteSize cell).getBits (Slice.ofBytes form.data) = .ok bits' := by
      rw [← hgets]
      unfold CellSerializationInfo.getBits
      have hsameWith : (recordPrefix refByteSize cell).dataWithBits = cellInfo'.dataWithBits := by
        rw [Bool.eq_iff_iff, hused, ← hcellBits]
        exact decide_eq_true_iff
      have hsameLen : (recordPrefix refByteSize cell).dataLen = cellInfo'.dataLen := by
        rw [← hlen, ← hbytes, ← hcellBits]
        rfl
      rw [hsameWith, hsameLen]
    have hload : loadBits (Slice.ofBytes form.data).mem bits' = .ok cell.bitString := by
      have hstring : cell.bitString = content.bitString := take_bitsOf_packBits content.bitString
      have hbuffer : readBytes (Slice.ofBytes form.data).mem form.data.length = .ok form.data := by
        rw [readBytes, if_pos (show form.data.length ≤ (Slice.ofBytes form.data).mem.length from le_rfl)]
        exact congrArg Except.ok List.take_length
      rw [hstring, loadBits, hbytes, hbuffer]
      rfl
    have htake := data_of_bitString hstored hget hload
    rw [hstored.data_length, hcellBits, hbytes] at htake
    exact htake.symm.trans List.take_length
  refine ⟨content, ?_⟩
  have hfirst : cell.d1 = form.d1 := by
    apply UInt8.toNat_inj.mp
    rw [d1_toNat hstored, hcellRefs, hd1]
    rfl
  have hsecond : cell.d2 = form.d2 := by
    apply UInt8.toNat_inj.mp
    rw [d2_toNat hstored, hcellBits]
    split <;> omega
  change ByteForm.mk cell.d1 cell.d2 cell.data = form
  rw [hfirst, hsecond, hdata]

end reading

/-- Contents and accepted forms correspond one to one: the reader recovers a content
from what is written for any cell that has it, every form it takes is written for one
content only, and two forms never denote the same. -/
theorem encode_bijection (refByteSize : Nat) :
    (∀ (content : CellContent) (refs : List DataCell), refs.length = content.refsCnt →
      ∃ form : ByteForm, (content.cell refs).getFirstTwoMeta false = [form.d1, form.d2] ∧
        (content.cell refs).data = form.data ∧ content.encode = form ∧
        form.Accepted refByteSize ∧ form.Denotes refByteSize content) ∧
      (∀ form : ByteForm, form.Accepted refByteSize →
        ∃! content : CellContent, content.encode = form) ∧
      ∀ (form form' : ByteForm) (content : CellContent), form.Accepted refByteSize →
        form'.Accepted refByteSize → form.Denotes refByteSize content →
        form'.Denotes refByteSize content → form = form' := by
  refine ⟨fun content refs hrefs => ?_, fun form hform => ?_,
    fun form form' content hform hform' hdenotes hdenotes' => ?_⟩
  · obtain ⟨hmeta, hdata⟩ := content.encode_eq hrefs
    exact ⟨content.encode, hmeta, hdata, rfl, content.encode_accepted refByteSize,
      content.encode_denotes refByteSize⟩
  · obtain ⟨content, rfl⟩ := hform.exists_encode
    refine ⟨content, rfl, fun content' hsame => ?_⟩
    have hdenotes' := content'.encode_denotes refByteSize
    rw [hsame] at hdenotes'
    exact hdenotes'.unique (content.encode_denotes refByteSize)
  · obtain ⟨content₁, rfl⟩ := hform.exists_encode
    obtain ⟨content₂, rfl⟩ := hform'.exists_encode
    rw [(content₁.encode_denotes refByteSize).unique hdenotes,
      (content₂.encode_denotes refByteSize).unique hdenotes']

end TonCompress.Boc
