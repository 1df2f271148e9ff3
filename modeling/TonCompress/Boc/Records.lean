import TonCompress.Boc.Deserialize

/-! The cell records of a serialized bag, as a walk from the first to the last
finds them, and what the reader's index gives access to. -/
namespace TonCompress.Boc
open TonCompress.Lib

abbrev Record := Slice × CellSerializationInfo

/-- The first `n` records of the section that `cells` starts. -/
def scanRecords (refByteSize : Nat) : Nat → Slice → BocExec (List Record)
  | 0, _ => .ok []
  | n + 1, cells => do
      let cellInfo ← CellSerializationInfo.init cells refByteSize
      let rest ← cells.substr cellInfo.endOffset
      let records ← scanRecords refByteSize n rest
      return (cells.take cellInfo.endOffset, cellInfo) :: records

def recordsLength : List Record → Nat
  | [] => 0
  | record :: records => record.2.endOffset + recordsLength records

def recordsDataLength : List Record → Nat
  | [] => 0
  | record :: records => record.2.dataLen + recordsDataLength records

def recordRefs (refByteSize : Nat) (record : Record) : List Int :=
  (List.range record.2.refsCnt).map fun k =>
    asInt32 (beValue ((record.1.mem.drop (record.2.refsOffset + k * refByteSize)).take refByteSize))

section parsing
variable {slice : Slice} {refByteSize : Nat} {cellInfo : CellSerializationInfo}

theorem initBytes_endOffset {d1 d2 : UInt8}
    (h : CellSerializationInfo.initBytes d1 d2 refByteSize = .ok cellInfo) :
    2 ≤ cellInfo.refsOffset ∧
      cellInfo.endOffset = cellInfo.refsOffset + cellInfo.refsCnt * refByteSize := by
  unfold CellSerializationInfo.initBytes at h
  dsimp only at h
  split at h
  · split at h <;> cases h
  · obtain rfl := Except.ok.inj h
    dsimp only
    constructor <;> omega

theorem init_eq (refByteSize : Nat) (h : 2 ≤ slice.len) :
    ∃ d1 d2, slice.mem[0]? = some d1 ∧ slice.mem[1]? = some d2 ∧
      CellSerializationInfo.init slice refByteSize =
        (CellSerializationInfo.initBytes d1 d2 refByteSize >>= fun cellInfo =>
          if slice.len < cellInfo.endOffset then
            .error (.status
              s!"Not enough bytes [got:{slice.len}][expected:{cellInfo.endOffset}]")
          else .ok cellInfo) ∧
      CellSerializationInfo.dataLenAfterInit slice refByteSize =
        match CellSerializationInfo.initBytes d1 d2 refByteSize with
        | .ok cellInfo => .ok cellInfo.dataLen
        | .error _ => .error .uninitialised := by
  have hmem := slice.len_le
  have h0 : slice.mem[0]? = some slice.mem[0] := List.getElem?_eq_getElem (by omega)
  have h1 : slice.mem[1]? = some slice.mem[1] := List.getElem?_eq_getElem (by omega)
  have hread0 : readByte slice.mem 0 = .ok slice.mem[0] := vecGet_of_eq _ _ _ _ h0
  have hread1 : readByte slice.mem 1 = .ok slice.mem[1] := vecGet_of_eq _ _ _ _ h1
  refine ⟨_, _, h0, h1, ?_, ?_⟩
  · rw [CellSerializationInfo.init, if_neg (by omega), hread0, hread1]
    rfl
  · rw [CellSerializationInfo.dataLenAfterInit, if_neg (by omega), hread0, hread1]
    rfl

theorem init_ok (h : CellSerializationInfo.init slice refByteSize = .ok cellInfo) :
    2 ≤ cellInfo.refsOffset ∧ cellInfo.endOffset ≤ slice.len ∧
      cellInfo.endOffset = cellInfo.refsOffset + cellInfo.refsCnt * refByteSize := by
  have hlen : 2 ≤ slice.len := by
    by_contra hshort
    rw [CellSerializationInfo.init, if_pos (by omega)] at h
    cases h
  obtain ⟨d1, d2, -, -, hinit, -⟩ := init_eq refByteSize hlen
  rw [hinit] at h
  cases hbytes : CellSerializationInfo.initBytes d1 d2 refByteSize with
  | error stop =>
    rw [hbytes] at h
    cases h
  | ok info =>
    rw [hbytes] at h
    simp only [bind, Except.bind] at h
    split at h
    · cases h
    · obtain rfl := Except.ok.inj h
      have hend := initBytes_endOffset hbytes
      exact ⟨hend.1, by omega, hend.2⟩

theorem init_dataLen (h : CellSerializationInfo.init slice refByteSize = .ok cellInfo)
    (hbits : cellInfo.dataWithBits = true) : 1 ≤ cellInfo.dataLen := by
  obtain ⟨hrefs, hend, hoffset⟩ := init_ok h
  obtain ⟨d1, d2, -, -, hinit, -⟩ := init_eq refByteSize (show 2 ≤ slice.len by omega)
  rw [hinit] at h
  obtain ⟨info, hbytes, h⟩ := bind_eq_ok.mp h
  by_cases hshort : slice.len < info.endOffset
  · rw [if_pos hshort] at h
    cases h
  · rw [if_neg hshort] at h
    obtain rfl := Except.ok.inj h
    unfold CellSerializationInfo.initBytes at hbytes
    dsimp only at hbytes
    split at hbytes
    · split at hbytes <;> cases hbytes
    · obtain rfl := Except.ok.inj hbytes
      dsimp only at hbits ⊢
      rw [Nat.testBit_zero] at hbits
      have hodd : d2.toNat % 2 = 1 := by simpa using hbits
      omega

theorem init_take (h : CellSerializationInfo.init slice refByteSize = .ok cellInfo) {size : Nat}
    (hsize : cellInfo.endOffset ≤ size) :
    CellSerializationInfo.init (slice.take size) refByteSize = .ok cellInfo ∧
      CellSerializationInfo.dataLenAfterInit (slice.take size) refByteSize =
        .ok cellInfo.dataLen := by
  obtain ⟨hrefs, hend, hoffset⟩ := init_ok h
  obtain ⟨d1, d2, h0, h1, hinit, -⟩ := init_eq refByteSize
    (show 2 ≤ slice.len by omega)
  obtain ⟨d1', d2', h0', h1', hinit', hdata'⟩ := init_eq refByteSize
    (show 2 ≤ (slice.take size).len by simp; omega)
  obtain rfl : d1 = d1' := Option.some.inj (h0.symm.trans h0')
  obtain rfl : d2 = d2' := Option.some.inj (h1.symm.trans h1')
  rw [hinit] at h
  rw [hinit', hdata']
  cases hbytes : CellSerializationInfo.initBytes d1 d2 refByteSize with
  | error stop =>
    rw [hbytes] at h
    cases h
  | ok info =>
    rw [hbytes] at h
    simp only [bind, Except.bind] at h ⊢
    split at h
    · cases h
    · obtain rfl := Except.ok.inj h
      rw [if_neg (by simp; omega)]
      exact ⟨rfl, rfl⟩

theorem init_status : Ends (CellSerializationInfo.init slice refByteSize) (fun _ => True)
    fun stop => ∃ message, stop = .status message := by
  by_cases hlen : 2 ≤ slice.len
  · obtain ⟨d1, d2, -, -, hinit, -⟩ := init_eq refByteSize hlen
    rw [hinit]
    unfold CellSerializationInfo.initBytes
    dsimp only
    split
    · split
      · exact ⟨_, rfl⟩
      · exact ⟨_, rfl⟩
    · exact ends_ite.mpr ⟨fun _ => ⟨_, rfl⟩, fun _ => trivial⟩
  · rw [CellSerializationInfo.init, if_pos (by omega)]
    exact ⟨_, rfl⟩

end parsing

section walking
variable {refByteSize n : Nat} {cells : Slice} {records : List Record}

theorem recordsLength_append (left right : List Record) :
    recordsLength (left ++ right) = recordsLength left + recordsLength right := by
  induction left with
  | nil => simp [recordsLength]
  | cons record left ih => simp [recordsLength, ih, Nat.add_assoc]

theorem recordsDataLength_append (left right : List Record) :
    recordsDataLength (left ++ right) = recordsDataLength left + recordsDataLength right := by
  induction left with
  | nil => simp [recordsDataLength]
  | cons record left ih => simp [recordsDataLength, ih, Nat.add_assoc]

theorem scanRecords_succ :
    scanRecords refByteSize (n + 1) cells = .ok records ↔
      ∃ cellInfo rest, CellSerializationInfo.init cells refByteSize = .ok cellInfo ∧
        scanRecords refByteSize n (cells.drop cellInfo.endOffset) = .ok rest ∧
        records = (cells.take cellInfo.endOffset, cellInfo) :: rest := by
  rw [scanRecords, bind_eq_ok]
  constructor
  · rintro ⟨cellInfo, hinit, h⟩
    rw [Slice.substr_ok (init_ok hinit).2.1] at h
    obtain ⟨slice, hslice, h⟩ := bind_eq_ok.mp h
    obtain rfl := Except.ok.inj hslice
    obtain ⟨rest, hrest, h⟩ := bind_eq_ok.mp h
    exact ⟨cellInfo, rest, hinit, hrest, (Except.ok.inj h).symm⟩
  · rintro ⟨cellInfo, rest, hinit, hrest, rfl⟩
    have hsubstr := Slice.substr_ok (init_ok hinit).2.1
    exact ⟨cellInfo, hinit, bind_eq_ok.mpr ⟨_, hsubstr, bind_eq_ok.mpr ⟨rest, hrest, rfl⟩⟩⟩

/-- What a walk finds: as many records as asked for, each in its place. -/
structure Walked (refByteSize n : Nat) (cells : Slice) (records : List Record) : Prop where
  length_eq : records.length = n
  length_le : recordsLength records ≤ cells.len
  record : ∀ i (hi : i < records.length),
    CellSerializationInfo.init (cells.drop (recordsLength (records.take i))) refByteSize =
        .ok records[i].2 ∧
      records[i].1 = (cells.drop (recordsLength (records.take i))).take records[i].2.endOffset

theorem scanRecords_walked (h : scanRecords refByteSize n cells = .ok records) :
    Walked refByteSize n cells records := by
  induction n generalizing cells records with
  | zero =>
    obtain rfl := Except.ok.inj h
    exact ⟨rfl, Nat.zero_le _, nofun⟩
  | succ n ih =>
    obtain ⟨cellInfo, rest, hinit, hrest, rfl⟩ := scanRecords_succ.mp h
    have hwalk := ih hrest
    have hend := (init_ok hinit).2.1
    have hlen := hwalk.length_le
    simp only [Slice.drop_len] at hlen
    refine ⟨by simp [hwalk.length_eq], by simp only [recordsLength]; omega, ?_⟩
    intro i hi
    cases i with
    | zero => exact ⟨by simpa [recordsLength] using hinit, by simp [recordsLength]⟩
    | succ i =>
      have hi' : i < rest.length := by simpa using hi
      obtain ⟨hinit', hslice⟩ := hwalk.record i hi'
      rw [Slice.drop_drop] at hinit' hslice
      exact ⟨hinit', hslice⟩

theorem scanRecords_take (h : scanRecords refByteSize n cells = .ok records) {i : Nat}
    (hi : i ≤ n) : scanRecords refByteSize i cells = .ok (records.take i) := by
  induction n generalizing cells records i with
  | zero =>
    obtain rfl := Except.ok.inj h
    obtain rfl : i = 0 := by omega
    rfl
  | succ n ih =>
    cases i with
    | zero => rfl
    | succ i =>
      obtain ⟨cellInfo, rest, hinit, hrest, rfl⟩ := scanRecords_succ.mp h
      exact scanRecords_succ.mpr ⟨cellInfo, rest.take i, hinit, ih hrest (by omega), rfl⟩

theorem recordsLength_take_succ {i : Nat} (hi : i < records.length) :
    recordsLength (records.take (i + 1)) =
      recordsLength (records.take i) + records[i].2.endOffset := by
  rw [List.take_succ_eq_append_getElem hi, recordsLength_append]
  rfl

theorem recordsDataLength_take_succ {i : Nat} (hi : i < records.length) :
    recordsDataLength (records.take (i + 1)) =
      recordsDataLength (records.take i) + records[i].2.dataLen := by
  rw [List.take_succ_eq_append_getElem hi, recordsDataLength_append]
  rfl

theorem recordsLength_take_le (records : List Record) (i : Nat) :
    recordsLength (records.take i) ≤ recordsLength records := by
  have hsplit := recordsLength_append (records.take i) (records.drop i)
  rw [List.take_append_drop] at hsplit
  omega

def recordEnds (records : List Record) : List Nat :=
  (List.range records.length).map fun i => recordsLength (records.take (i + 1))

@[simp] theorem recordEnds_length : (recordEnds records).length = records.length := by
  simp [recordEnds]

theorem recordEnds_getElem? {i : Nat} (hi : i < records.length) :
    (recordEnds records)[i]? = some (recordsLength (records.take (i + 1))) := by
  simp [recordEnds, hi]

end walking

section access
variable {bag : MyBagOfCells} {n : Nat} {cells : Slice} {records : List Record}

/-- A bag whose index was computed from `records`. -/
structure Indexed (bag : MyBagOfCells) (cells : Slice) (n : Nat) (records : List Record) :
    Prop where
  scan : scanRecords bag.info.refByteSize n cells = .ok records
  hasIndex : bag.info.hasIndex = false
  hasCacheBits : bag.info.hasCacheBits = false
  customIndex : bag.customIndex = recordEnds records

theorem Indexed.getIdxEntry (h : Indexed bag cells n records) {i : Nat}
    (hi : i < records.length) :
    bag.getIdxEntry i = .ok (recordsLength (records.take (i + 1))) := by
  have hentry := recordEnds_getElem? hi
  have hraw : bag.getIdxEntryRaw i = .ok (recordsLength (records.take (i + 1))) := by
    rw [MyBagOfCells.getIdxEntryRaw, if_neg (by omega)]
    simp [h.hasIndex, h.customIndex, hentry]
  simp [MyBagOfCells.getIdxEntry, hraw, h.hasCacheBits, bind, Except.bind, pure, Except.pure]

theorem Indexed.getIdxEntry_pred (h : Indexed bag cells n records) {i : Nat}
    (hi : i < records.length) :
    bag.getIdxEntry ((i : Int) - 1) = .ok (recordsLength (records.take i)) := by
  cases i with
  | zero =>
    simp [MyBagOfCells.getIdxEntry, MyBagOfCells.getIdxEntryRaw, h.hasCacheBits, recordsLength,
      bind, Except.bind, pure, Except.pure]
  | succ i =>
    rw [show ((i + 1 : Nat) : Int) - 1 = (i : Nat) by omega]
    exact h.getIdxEntry (by omega)

/-- The section the reader hands to its passes holds the records and no more. -/
theorem Indexed.readCellRecord (h : Indexed bag cells n records) {i : Nat}
    (hi : i < records.length) :
    bag.readCellRecord i (cells.take (recordsLength records)) = .ok records[i] := by
  have hwalk := scanRecords_walked h.scan
  obtain ⟨hinit, hslice⟩ := hwalk.record i hi
  have hend := (init_ok hinit).2.1
  have hsucc := recordsLength_take_succ hi
  have hle := recordsLength_take_le records (i + 1)
  have hlen := hwalk.length_le
  simp only [Slice.drop_len] at hend
  have hget : bag.getCellSlice i (cells.take (recordsLength records)) = .ok records[i].1 := by
    rw [MyBagOfCells.getCellSlice, h.getIdxEntry_pred hi, h.getIdxEntry hi]
    simp only [bind, Except.bind]
    rw [if_neg (by simp only [Slice.take_len]; omega), Slice.substrUpTo_ok (by simp; omega),
      Slice.take_drop, Slice.take_take, hslice]
    congr 2
    omega
  have hparse := (init_take hinit le_rfl).1
  rw [← hslice] at hparse
  rw [MyBagOfCells.readCellRecord, hget]
  simp only [bind, Except.bind, hparse]
  rw [if_neg]
  · rfl
  · rw [hslice]
    simp only [Slice.take_len, Slice.drop_len]
    omega

theorem Indexed.readRefIdx (h : Indexed bag cells n records) {i : Nat}
    (hi : i < records.length) (hrbs : bag.info.refByteSize ≤ 4) {k : Nat}
    (hk : k < (recordRefs bag.info.refByteSize records[i]).length) :
    bag.readRefIdx records[i].1 records[i].2 k =
      .ok (recordRefs bag.info.refByteSize records[i])[k] := by
  obtain ⟨hinit, hslice⟩ := (scanRecords_walked h.scan).record i hi
  obtain ⟨hrefs, hend, hoffset⟩ := init_ok hinit
  have hcnt : k < records[i].2.refsCnt := by simpa [recordRefs] using hk
  have hmul : (k + 1) * bag.info.refByteSize ≤ records[i].2.refsCnt * bag.info.refByteSize :=
    Nat.mul_le_mul_right _ hcnt
  have hlen := (cells.drop (recordsLength (records.take i))).len_le
  have hmem : records[i].1.mem = (cells.drop (recordsLength (records.take i))).mem := by
    rw [hslice]
    rfl
  rw [MyBagOfCells.readRefIdx, Info.readRef, readInt_eq ?_ (by omega)]
  · simp [recordRefs, bind, Except.bind, pure, Except.pure]
  · rw [hmem, List.length_drop]
    rw [Nat.succ_mul] at hmul
    omega

theorem Indexed.hasRecord (h : Indexed bag cells n records) {i : Nat}
    (hi : i < records.length) (hrbs : bag.info.refByteSize ≤ 4) :
    HasRecord bag (cells.take (recordsLength records)) i
      (recordRefs bag.info.refByteSize records[i]) := by
  refine ⟨⟨records[i].1, records[i].2, h.readCellRecord hi, by simp [recordRefs], ?_⟩⟩
  intro k hk
  exact h.readRefIdx hi hrbs hk

end access

end TonCompress.Boc
