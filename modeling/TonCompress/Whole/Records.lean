import TonCompress.Whole.Cell
import TonCompress.Boc.Records

/-! Where an index puts the cell records, and what is read of them there. -/
namespace TonCompress.Whole
open TonCompress.Lib TonCompress.Boc

section parsing
variable {slice : Slice} {refByteSize : Nat} {cellInfo : CellSerializationInfo}

/-- The parts of a record: two bytes, the hashes and depths, the data, the references. -/
structure RecordShape (refByteSize : Nat) (cellInfo : CellSerializationInfo) : Prop where
  levelMask_lt : cellInfo.levelMask < 8
  hashesOffset : cellInfo.hashesOffset = 2
  dataOffset_ge : 2 ≤ cellInfo.dataOffset
  depthOffset : cellInfo.withHashes = true →
    cellInfo.depthOffset = 2 + getHashesCount cellInfo.levelMask * hashBytes
  dataOffset : cellInfo.withHashes = true →
    cellInfo.dataOffset = cellInfo.depthOffset + getHashesCount cellInfo.levelMask * depthBytes
  dataLen_pos : cellInfo.dataWithBits = true → 1 ≤ cellInfo.dataLen
  refsOffset : cellInfo.refsOffset = cellInfo.dataOffset + cellInfo.dataLen
  endOffset : cellInfo.endOffset = cellInfo.refsOffset + cellInfo.refsCnt * refByteSize

theorem initBytes_shape {d1 d2 : UInt8}
    (h : CellSerializationInfo.initBytes d1 d2 refByteSize = .ok cellInfo) :
    RecordShape refByteSize cellInfo := by
  have hd1 := d1.toNat_lt
  unfold CellSerializationInfo.initBytes at h
  dsimp only at h
  split at h
  · split at h <;> cases h
  · obtain rfl := Except.ok.inj h
    constructor <;> dsimp only
    · omega
    · omega
    · intro hwith
      rw [if_pos hwith]
    · intro hwith
      rw [if_pos hwith, if_pos hwith]
    · intro hbits
      rw [Nat.testBit_zero] at hbits
      have hodd : d2.toNat % 2 = 1 := by simpa using hbits
      omega

theorem init_ok_iff :
    CellSerializationInfo.init slice refByteSize = .ok cellInfo ↔
      2 ≤ slice.len ∧ ∃ d1 d2, slice.mem[0]? = some d1 ∧ slice.mem[1]? = some d2 ∧
        CellSerializationInfo.initBytes d1 d2 refByteSize = .ok cellInfo ∧
        cellInfo.endOffset ≤ slice.len := by
  have hmem := slice.len_le
  unfold CellSerializationInfo.init
  by_cases hshort : slice.len < 2
  · rw [if_pos hshort]
    constructor
    · nofun
    · rintro ⟨hlen, -⟩
      omega
  · rw [if_neg hshort]
    have h0 : slice.mem[0]? = some slice.mem[0] := List.getElem?_eq_getElem (by omega)
    have h1 : slice.mem[1]? = some slice.mem[1] := List.getElem?_eq_getElem (by omega)
    have hread0 : readByte slice.mem 0 = .ok slice.mem[0] := vecGet_of_eq _ _ _ _ h0
    have hread1 : readByte slice.mem 1 = .ok slice.mem[1] := vecGet_of_eq _ _ _ _ h1
    rw [hread0, hread1, ok_bind, ok_bind]
    constructor
    · intro h
      obtain ⟨info, hbytes, h⟩ := bind_eq_ok.mp h
      by_cases hend : slice.len < info.endOffset
      · rw [if_pos hend] at h
        cases h
      · rw [if_neg hend] at h
        obtain rfl := Except.ok.inj h
        exact ⟨by omega, _, _, h0, h1, hbytes, by omega⟩
    · rintro ⟨-, d1, d2, hd1, hd2, hbytes, hend⟩
      obtain rfl := Option.some.inj (h0.symm.trans hd1)
      obtain rfl := Option.some.inj (h1.symm.trans hd2)
      rw [hbytes, ok_bind, if_neg (by omega)]
      rfl

theorem init_shape (h : CellSerializationInfo.init slice refByteSize = .ok cellInfo) :
    RecordShape refByteSize cellInfo ∧ cellInfo.endOffset ≤ slice.len := by
  obtain ⟨-, d1, d2, -, -, hbytes, hend⟩ := init_ok_iff.mp h
  exact ⟨initBytes_shape hbytes, hend⟩

theorem init_take {size : Nat} (h : CellSerializationInfo.init slice refByteSize = .ok cellInfo)
    (hsize : cellInfo.endOffset ≤ size) :
    CellSerializationInfo.init (slice.take size) refByteSize = .ok cellInfo := by
  obtain ⟨hlen, d1, d2, h0, h1, hbytes, hend⟩ := init_ok_iff.mp h
  have hshape := initBytes_shape hbytes
  have hdata := hshape.dataOffset_ge
  have hrefs := hshape.refsOffset
  have hends := hshape.endOffset
  refine init_ok_iff.mpr ⟨?_, d1, d2, h0, h1, hbytes, ?_⟩
  · rw [Slice.take_len]
    omega
  · rw [Slice.take_len]
    omega

theorem init_unique {slice' : Slice} {cellInfo' : CellSerializationInfo}
    (hmem : slice.mem = slice'.mem)
    (h : CellSerializationInfo.init slice refByteSize = .ok cellInfo)
    (h' : CellSerializationInfo.init slice' refByteSize = .ok cellInfo') :
    cellInfo = cellInfo' := by
  obtain ⟨-, d1, d2, h0, h1, hbytes, -⟩ := init_ok_iff.mp h
  obtain ⟨-, d1', d2', h0', h1', hbytes', -⟩ := init_ok_iff.mp h'
  rw [← hmem] at h0' h1'
  obtain rfl := Option.some.inj (h0.symm.trans h0')
  obtain rfl := Option.some.inj (h1.symm.trans h1')
  exact Except.ok.inj (hbytes.symm.trans hbytes')

theorem init_status : Ends (CellSerializationInfo.init slice refByteSize) (fun _ => True)
    fun stop => ∃ message, stop = .status message := by
  have hmem := slice.len_le
  unfold CellSerializationInfo.init
  refine ends_ite.mpr ⟨fun _ => ⟨_, rfl⟩, fun hlen => ?_⟩
  have h0 : slice.mem[0]? = some slice.mem[0] := List.getElem?_eq_getElem (by omega)
  have h1 : slice.mem[1]? = some slice.mem[1] := List.getElem?_eq_getElem (by omega)
  have hread0 : readByte slice.mem 0 = .ok slice.mem[0] := vecGet_of_eq _ _ _ _ h0
  have hread1 : readByte slice.mem 1 = .ok slice.mem[1] := vecGet_of_eq _ _ _ _ h1
  rw [hread0, hread1, ends_ok_bind, ends_ok_bind]
  refine Ends.seq (fun _ => True) ?_ fun info _ => ?_
  · unfold CellSerializationInfo.initBytes
    dsimp only
    refine ends_ite.mpr ⟨fun _ => ?_, fun _ => trivial⟩
    exact ends_ite.mpr ⟨fun _ => ⟨_, rfl⟩, fun _ => ⟨_, rfl⟩⟩
  · exact ends_ite.mpr ⟨fun _ => ⟨_, rfl⟩, fun _ => trivial⟩

end parsing

abbrev Record := Slice × CellSerializationInfo

def recordRefs (refByteSize : Nat) (record : Record) : List Int :=
  Boc.recordRefs refByteSize (record.1, record.2.toCellSerializationInfo)

def startOf (ends : Nat → Nat) : Nat → Nat
  | 0 => 0
  | i + 1 => ends i

/-- The record of cell `i` fills the bytes between its ends. -/
structure Delimits (refByteSize : Nat) (cells : Slice) (ends : Nat → Nat) (i : Nat)
    (record : Record) : Prop where
  ordered : startOf ends i ≤ ends i
  inside : ends i ≤ cells.len
  slice : record.1 = (cells.drop (startOf ends i)).take (ends i - startOf ends i)
  init : CellSerializationInfo.init record.1 refByteSize = .ok record.2
  filled : record.2.endOffset = ends i - startOf ends i

/-- The cell has a record, and the references of the record are to cells. -/
def GoodCell (refByteSize : Nat) (cells : Slice) (ends : Nat → Nat) (n i : Nat) : Prop :=
  ∃ record, Delimits refByteSize cells ends i record ∧
    ∀ ref ∈ recordRefs refByteSize record, 0 ≤ ref ∧ ref < n

/-- The index entries of the first `n` cells, as `get_idx_entry` reads them. -/
def HasEntries (bag : MyBagOfCells) (n : Nat) (ends : Nat → Nat) : Prop :=
  ∀ i < n, bag.getIdxEntry i = .ok (ends i)

section reading
variable {bag : MyBagOfCells} {cells : Slice} {ends : Nat → Nat} {n i : Nat}

theorem Delimits.unique {refByteSize : Nat} {record record' : Record}
    (h : Delimits refByteSize cells ends i record)
    (h' : Delimits refByteSize cells ends i record') : record = record' := by
  have hslice := h.slice.trans h'.slice.symm
  have hinfo := h.init.symm.trans (hslice ▸ h'.init)
  exact Prod.ext hslice (Except.ok.inj hinfo)

theorem startOf_congr {ends' : Nat → Nat} (h : ∀ j < i, ends' j = ends j) :
    startOf ends' i = startOf ends i := by
  cases i with
  | zero => rfl
  | succ i => exact h i (Nat.lt_succ_self i)

theorem delimits_congr {refByteSize : Nat} {ends' : Nat → Nat} (h : ∀ j ≤ i, ends' j = ends j)
    (record : Record) :
    Delimits refByteSize cells ends' i record ↔ Delimits refByteSize cells ends i record := by
  have hstart := startOf_congr fun j hj => h j (Nat.le_of_lt hj)
  have hend := h i le_rfl
  constructor
  · rintro ⟨hordered, hinside, hslice, hinit, hfilled⟩
    rw [hstart, hend] at *
    exact ⟨hordered, hinside, hslice, hinit, hfilled⟩
  · rintro ⟨hordered, hinside, hslice, hinit, hfilled⟩
    rw [← hstart, ← hend] at *
    exact ⟨hordered, hinside, hslice, hinit, hfilled⟩

theorem goodCell_congr {refByteSize : Nat} {ends' : Nat → Nat} (h : ∀ j ≤ i, ends' j = ends j) :
    GoodCell refByteSize cells ends' n i ↔ GoodCell refByteSize cells ends n i := by
  unfold GoodCell
  simp only [delimits_congr h]

theorem Delimits.end_eq {refByteSize : Nat} {ends' : Nat → Nat} {record record' : Record}
    (h : Delimits refByteSize cells ends i record)
    (h' : Delimits refByteSize cells ends' i record') (hbefore : ∀ j < i, ends' j = ends j) :
    ends' i = ends i := by
  have hstart := startOf_congr hbefore
  have hordered := h.ordered
  have hordered' := h'.ordered
  have hmem : record.1.mem = record'.1.mem := by
    rw [h.slice, h'.slice, hstart]
    rfl
  have hinfo := init_unique hmem h.init h'.init
  have hfilled := h.filled
  have hfilled' := h'.filled
  rw [hinfo, hfilled'] at hfilled
  omega

theorem HasEntries.entry_pred (h : HasEntries bag n ends) (hi : i < n) :
    bag.getIdxEntry ((i : Int) - 1) = .ok (startOf ends i) := by
  cases i with
  | zero =>
    simp only [MyBagOfCells.getIdxEntry, MyBagOfCells.getIdxEntryRaw]
    rw [if_pos (by omega), ok_bind]
    split <;> rfl
  | succ i =>
    rw [show ((i + 1 : Nat) : Int) - 1 = (i : Nat) by omega]
    exact h i (by omega)

theorem readCellRecord_ends (h : HasEntries bag n ends) (hi : i < n) :
    Ends (readCellRecord bag i cells)
      (Delimits bag.info.refByteSize cells ends i)
      (fun stop => (∃ message, stop = .status message) ∧
        ¬ ∃ record, Delimits bag.info.refByteSize cells ends i record) := by
  unfold readCellRecord MyBagOfCells.getCellSlice
  rw [h.entry_pred hi, h i hi, ok_bind, ok_bind]
  by_cases hbad : startOf ends i > ends i ∨ ends i > cells.len
  · rw [if_pos hbad]
    refine ⟨⟨_, rfl⟩, ?_⟩
    rintro ⟨record, hrecord⟩
    have hordered := hrecord.ordered
    have hinside := hrecord.inside
    omega
  · rw [if_neg hbad, Slice.substrUpTo_ok (by omega), ok_bind]
    cases hinit : CellSerializationInfo.init
        ((cells.drop (startOf ends i)).take (ends i - startOf ends i)) bag.info.refByteSize with
    | error stop =>
      refine ⟨init_status.of_error hinit, ?_⟩
      rintro ⟨record, hrecord⟩
      have hok := hrecord.init
      rw [hrecord.slice, hinit] at hok
      cases hok
    | ok cellInfo =>
      rw [ok_bind]
      have hlen : ((cells.drop (startOf ends i)).take (ends i - startOf ends i)).len =
          ends i - startOf ends i := by
        rw [Slice.take_len, Slice.drop_len]
        omega
      refine ends_ite.mpr ⟨fun hspace => ⟨⟨_, rfl⟩, ?_⟩, fun hfilled => ?_⟩
      · rintro ⟨record, hrecord⟩
        have hok := hrecord.init
        rw [hrecord.slice, hinit] at hok
        have hsame := Except.ok.inj hok
        exact hspace ((congrArg (·.endOffset) hsame).trans (hrecord.filled.trans hlen.symm))
      · rw [not_not] at hfilled
        exact ⟨by omega, by omega, rfl, hinit, hfilled.trans hlen⟩

theorem Delimits.readRefIdx {record : Record}
    (h : Delimits bag.info.refByteSize cells ends i record) (hrbs : bag.info.refByteSize ≤ 4)
    {k : Nat} (hk : k < (recordRefs bag.info.refByteSize record).length) :
    bag.readRefIdx record.1 record.2.toCellSerializationInfo k =
      .ok (recordRefs bag.info.refByteSize record)[k] := by
  obtain ⟨hshape, hend⟩ := init_shape h.init
  have hcnt : k < record.2.refsCnt := by simpa [recordRefs, Boc.recordRefs] using hk
  have hmul : (k + 1) * bag.info.refByteSize ≤ record.2.refsCnt * bag.info.refByteSize :=
    Nat.mul_le_mul_right _ hcnt
  have hlen := record.1.len_le
  have hends := hshape.endOffset
  rw [Nat.succ_mul] at hmul
  rw [MyBagOfCells.readRefIdx, Info.readRef, readInt_eq ?_ (by omega)]
  · simp [recordRefs, Boc.recordRefs, bind, Except.bind, pure, Except.pure]
  · rw [List.length_drop]
    omega

end reading

end TonCompress.Whole
