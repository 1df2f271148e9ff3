import TonCompress.Boc.Cell

/-! The header of a serialized bag of cells. -/
namespace TonCompress.Boc
open TonCompress.Lib

def bocIdx : Nat := 0x68ff65f3
def bocIdxCrc32c : Nat := 0xacc3a728
def bocGeneric : Nat := 0xb5ee9c72

structure Info where
  magic : Nat
  rootCount : Int
  cellCount : Int
  absentCount : Int
  refByteSize : Nat
  offsetByteSize : Nat
  valid : Bool
  hasIndex : Bool
  hasRoots : Bool
  hasCrc32c : Bool
  hasCacheBits : Bool
  rootsOffset : Nat
  indexOffset : Nat
  dataOffset : Nat
  dataSize : Nat
  totalSize : Nat
  deriving DecidableEq, Repr

/-- The constructor `Info()`; the members it does not set read as zero here. -/
def Info.fresh : Info :=
  ⟨0, 0, 0, 0, 0, 0, false, false, false, false, false, 0, 0, 0, 0, 0⟩

def Info.readRef (info : Info) (ptr : List UInt8) : BocExec Nat := readInt ptr info.refByteSize

def Info.readOffset (info : Info) (ptr : List UInt8) : BocExec Nat :=
  readInt ptr info.offsetByteSize

def Info.setFlags (info : Info) (byte : Nat) : Info :=
  let info :=
    if info.magic = bocGeneric then
      { info with
        hasIndex := byte.testBit 7
        hasCrc32c := byte.testBit 6
        hasCacheBits := byte.testBit 5 }
    else { info with hasIndex := true, hasCrc32c := info.magic = bocIdxCrc32c }
  { info with refByteSize := byte % 8 }

def Info.setOffsets (info : Info) : Info :=
  let info :=
    if info.magic = bocGeneric then
      { info with
        indexOffset := info.rootsOffset + info.rootCount.toNat * info.refByteSize
        hasRoots := true }
    else { info with indexOffset := info.rootsOffset }
  { info with
    dataOffset :=
      info.indexOffset +
        if info.hasIndex then info.cellCount.toNat * info.offsetByteSize else 0 }

def headerWindow (slice : Slice) : Nat := min slice.len 0xffff

/-- `parse_serialized_header` from the absent count on. -/
def Info.parseDataSize (info : Info) (slice : Slice) : BocExec (Int × Info) := do
  let ptr := slice.mem.drop 6
  let sz := headerWindow slice - 6
  if sz < 3 * info.refByteSize then return (-info.rootsOffset, info)
  let absentCount ← info.readRef (ptr.drop (2 * info.refByteSize))
  let info := { info with absentCount := asInt32 absentCount }
  if info.absentCount < 0 ∨ info.absentCount > info.cellCount then return (0, info)
  if sz < 3 * info.refByteSize + info.offsetByteSize then return (-info.rootsOffset, info)
  let dataSize ← info.readOffset (ptr.drop (3 * info.refByteSize))
  let info := { info with dataSize }
  if dataSize > info.cellCount.toNat * 1024 then return (0, info)
  if dataSize > 2 ^ 40 then return (0, info)
  if dataSize < info.cellCount.toNat * (2 + info.refByteSize) - info.refByteSize then
    return (0, info)
  let totalSize := info.dataOffset + dataSize + if info.hasCrc32c then 4 else 0
  return (totalSize, { info with valid := true, totalSize })

/-- `parse_serialized_header` from the cell count on. -/
def Info.parseCounts (info : Info) (slice : Slice) : BocExec (Int × Info) := do
  let ptr := slice.mem.drop 6
  let sz := headerWindow slice - 6
  if sz < info.refByteSize then return (-info.rootsOffset, info)
  let cellCount ← info.readRef ptr
  let info := { info with cellCount := asInt32 cellCount }
  if info.cellCount ≤ 0 then return (0, { info with cellCount := -1 })
  if sz < 2 * info.refByteSize then return (-info.rootsOffset, info)
  let rootCount ← info.readRef (ptr.drop info.refByteSize)
  let info := { info with rootCount := asInt32 rootCount }
  if info.rootCount ≤ 0 then return (0, { info with rootCount := -1 })
  if info.magic ≠ bocGeneric ∧ info.rootCount ≠ 1 then
    return (0, { info with indexOffset := info.rootsOffset })
  info.setOffsets.parseDataSize slice

/-- `parse_serialized_header` behind the flag byte. -/
def Info.parseWidths (info : Info) (slice : Slice) : BocExec (Int × Info) := do
  if info.hasCacheBits ∧ ¬ info.hasIndex then return (0, info)
  if info.refByteSize > 4 ∨ info.refByteSize < 1 then return (0, info)
  if headerWindow slice < 6 then return (-7 - 3 * info.refByteSize, info)
  let byte ← readByte slice.mem 5
  let info := { info with offsetByteSize := byte.toNat }
  if info.offsetByteSize > 8 ∨ info.offsetByteSize < 1 then return (0, info)
  let info := { info with rootsOffset := 6 + 3 * info.refByteSize + info.offsetByteSize }
  info.parseCounts slice

def Info.reset (info : Info) (magic : Nat) : Info :=
  { info with
    magic
    hasCrc32c := false
    hasIndex := false
    hasCacheBits := false
    refByteSize := 0
    offsetByteSize := 0
    rootCount := -1
    cellCount := -1
    absentCount := -1
    indexOffset := 0
    dataOffset := 0
    dataSize := 0
    totalSize := 0 }

/-- The size of the bag, zero for an invalid header, or minus the number of
bytes it wants to see; and the header left in the object. -/
def Info.parseSerializedHeader (info : Info) (slice : Slice) : BocExec (Int × Info) := do
  let info := { info with valid := false }
  if headerWindow slice < 4 then return (-10, info)
  let magic ← readInt slice.mem 4
  let info := info.reset magic
  if magic ≠ bocGeneric ∧ magic ≠ bocIdx ∧ magic ≠ bocIdxCrc32c then
    return (0, { info with magic := 0 })
  if headerWindow slice < 5 then return (-10, info)
  let byte ← readByte slice.mem 4
  (info.setFlags byte.toNat).parseWidths slice

/-- What an accepted header promises about the bag behind it. `had` is the
member `has_roots` before the parse, which no parse clears. -/
structure HeaderOk (had : Bool) (size : Int) (info : Info) : Prop where
  refByteSize_pos : 1 ≤ info.refByteSize
  refByteSize_le : info.refByteSize ≤ 4
  cellCount_pos : 0 < info.cellCount
  cellCount_lt : info.cellCount < 2 ^ 31
  rootCount_pos : 0 < info.rootCount
  cacheBits : info.hasCacheBits = true → info.hasIndex = true
  rootsOffset_le : info.rootsOffset ≤ info.indexOffset
  indexOffset_le : info.indexOffset ≤ info.dataOffset
  hasRoots : info.hasRoots = true → had = true ∨ info.magic = bocGeneric
  rootsEnd : info.magic = bocGeneric →
    info.rootsOffset + info.rootCount.toNat * info.refByteSize ≤ info.dataOffset
  dataSize_le : info.dataSize ≤ 2 ^ 40
  crcEnd : info.hasCrc32c = true → (info.dataOffset + info.dataSize + 4 : Int) ≤ size
  size_ge : (info.dataOffset + info.dataSize : Int) ≤ size

section parsing
variable {info : Info} {slice : Slice} {had : Bool}

theorem parseDataSize_ends (hwindow : 6 ≤ headerWindow slice)
    (hrbs : 1 ≤ info.refByteSize ∧ info.refByteSize ≤ 4) (hobs : info.offsetByteSize ≤ 8)
    (hcells : 0 < info.cellCount ∧ info.cellCount < 2 ^ 31) (hroots : 0 < info.rootCount)
    (hcache : info.hasCacheBits = true → info.hasIndex = true)
    (hindex : info.rootsOffset ≤ info.indexOffset) (hdata : info.indexOffset ≤ info.dataOffset)
    (hhad : info.hasRoots = true → had = true ∨ info.magic = bocGeneric)
    (hend : info.magic = bocGeneric →
      info.rootsOffset + info.rootCount.toNat * info.refByteSize ≤ info.dataOffset) :
    Returns (info.parseDataSize slice) fun out => 0 < out.1 → HeaderOk had out.1 out.2 := by
  have hmem := slice.len_le
  have hle : headerWindow slice ≤ slice.len := Nat.min_le_left _ _
  rw [Info.parseDataSize]
  refine ends_ite.mpr ⟨fun _ hpos => absurd hpos (by simp), fun h3 => ?_⟩
  rw [Info.readRef, readInt_eq (by simp; omega) (by omega)]
  refine ends_ite.mpr ⟨fun _ hpos => absurd hpos (by simp), fun _ => ?_⟩
  refine ends_ite.mpr ⟨fun _ hpos => absurd hpos (by simp), fun h4 => ?_⟩
  dsimp only at h4
  rw [Info.readOffset, readInt_eq (by simp; omega) (by dsimp only; omega)]
  refine ends_ite.mpr ⟨fun _ hpos => absurd hpos (by simp), fun _ => ?_⟩
  refine ends_ite.mpr ⟨fun _ hpos => absurd hpos (by simp), fun hlarge => ?_⟩
  refine ends_ite.mpr ⟨fun _ hpos => absurd hpos (by simp), fun _ => ?_⟩
  dsimp only at hlarge
  refine fun _ => ⟨hrbs.1, hrbs.2, hcells.1, hcells.2, hroots, hcache, hindex, hdata, hhad,
    hend, by dsimp only; omega, ?_, ?_⟩
  · intro hcrc
    dsimp only at hcrc ⊢
    rw [if_pos hcrc]
    omega
  · dsimp only
    split <;> push_cast <;> omega

theorem parseCounts_ends (hwindow : 6 ≤ headerWindow slice) (hhad : info.hasRoots = had)
    (hrbs : 1 ≤ info.refByteSize ∧ info.refByteSize ≤ 4) (hobs : info.offsetByteSize ≤ 8)
    (hcache : info.hasCacheBits = true → info.hasIndex = true) :
    Returns (info.parseCounts slice) fun out => 0 < out.1 → HeaderOk had out.1 out.2 := by
  have hmem := slice.len_le
  have hle : headerWindow slice ≤ slice.len := Nat.min_le_left _ _
  rw [Info.parseCounts]
  refine ends_ite.mpr ⟨fun _ hpos => absurd hpos (by simp), fun h1 => ?_⟩
  rw [Info.readRef, readInt_eq (by simp; omega) (by omega)]
  refine ends_ite.mpr ⟨fun _ hpos => absurd hpos (by simp), fun hcells => ?_⟩
  refine ends_ite.mpr ⟨fun _ hpos => absurd hpos (by simp), fun h2 => ?_⟩
  dsimp only at hcells h2
  have hbound := asInt32_bounds (beValue ((slice.mem.drop 6).take info.refByteSize))
  rw [Info.readRef, readInt_eq (by simp; omega) (by dsimp only; omega)]
  refine ends_ite.mpr ⟨fun _ hpos => absurd hpos (by simp), fun hroots => ?_⟩
  refine ends_ite.mpr ⟨fun _ hpos => absurd hpos (by simp), fun _ => ?_⟩
  dsimp only at hroots
  generalize asInt32 (beValue _) = cellCount at hcells hbound ⊢
  generalize asInt32 (beValue _) = rootCount at hroots ⊢
  have hnext : ∀ next : Info, next.refByteSize = info.refByteSize →
      next.offsetByteSize = info.offsetByteSize → next.cellCount = cellCount →
      next.rootCount = rootCount → next.hasCacheBits = info.hasCacheBits →
      next.hasIndex = info.hasIndex → next.rootsOffset ≤ next.indexOffset →
      next.indexOffset ≤ next.dataOffset →
      (next.hasRoots = true → had = true ∨ next.magic = bocGeneric) →
      (next.magic = bocGeneric →
        next.rootsOffset + next.rootCount.toNat * next.refByteSize ≤ next.dataOffset) →
      Returns (next.parseDataSize slice) fun out => 0 < out.1 → HeaderOk had out.1 out.2 := by
    intro next h1 h2 h3 h4 h5 h6 h7 h8 h9 h10
    exact parseDataSize_ends hwindow (h1 ▸ hrbs) (h2 ▸ hobs) (by omega) (by omega)
      (h5 ▸ h6 ▸ hcache) h7 h8 h9 h10
  unfold Info.setOffsets
  dsimp only
  split
  · rename_i hgeneric
    apply hnext <;> try rfl
    all_goals dsimp only
    · omega
    · omega
    · exact fun _ => .inr hgeneric
    · omega
  · rename_i hgeneric
    apply hnext <;> try rfl
    all_goals dsimp only
    · omega
    · exact fun hhas => .inl (hhad ▸ hhas)
    · intro hmagic
      exact absurd hmagic hgeneric

theorem parseWidths_ends (hhad : info.hasRoots = had) :
    Returns (info.parseWidths slice) fun out => 0 < out.1 → HeaderOk had out.1 out.2 := by
  have hmem := slice.len_le
  have hle : headerWindow slice ≤ slice.len := Nat.min_le_left _ _
  rw [Info.parseWidths]
  refine ends_ite.mpr ⟨fun _ hpos => absurd hpos (by simp), fun hcache => ?_⟩
  refine ends_ite.mpr ⟨fun _ hpos => absurd hpos (by simp), fun hrbs => ?_⟩
  refine ends_ite.mpr ⟨fun _ hpos => absurd hpos (by dsimp only; omega), fun h6 => ?_⟩
  rw [readByte, vecGet_natCast _ _ 5 (by omega)]
  refine ends_ite.mpr ⟨fun _ hpos => absurd hpos (by simp), fun hobs => ?_⟩
  dsimp only at hobs
  apply parseCounts_ends
  · omega
  · exact hhad
  · dsimp only
    omega
  · dsimp only
    omega
  · intro hbits
    by_contra hindex
    exact hcache ⟨hbits, hindex⟩

/-- Parsing reads inside the slice only, and a positive size comes with a
header that holds together. -/
theorem parseSerializedHeader_ends (info : Info) (slice : Slice) :
    Returns (info.parseSerializedHeader slice) fun out =>
      0 < out.1 → HeaderOk info.hasRoots out.1 out.2 := by
  have hmem := slice.len_le
  have hle : headerWindow slice ≤ slice.len := Nat.min_le_left _ _
  rw [Info.parseSerializedHeader]
  refine ends_ite.mpr ⟨fun _ hpos => absurd hpos (by simp), fun h4 => ?_⟩
  rw [readInt_eq (by omega) (by omega)]
  refine ends_ite.mpr ⟨fun _ hpos => absurd hpos (by simp), fun _ => ?_⟩
  refine ends_ite.mpr ⟨fun _ hpos => absurd hpos (by simp), fun h5 => ?_⟩
  rw [readByte, vecGet_natCast _ _ 4 (by omega)]
  apply parseWidths_ends
  unfold Info.setFlags
  dsimp only
  split <;> rfl

structure SectionsOk (info : Info) : Prop where
  offsetByteSize_le : info.offsetByteSize ≤ 8
  indexEnd : info.hasIndex = true →
    info.dataOffset = info.indexOffset + info.cellCount.toNat * info.offsetByteSize
  generic : info.hasIndex = false → info.magic = bocGeneric
  hasRoots : info.magic = bocGeneric → info.hasRoots = true
  single : info.magic ≠ bocGeneric → info.rootCount = 1
  noCache : info.magic ≠ bocGeneric → info.hasCacheBits = false

theorem parseDataSize_frame : Ends (info.parseDataSize slice) (fun out =>
    ∃ absentCount dataSize valid totalSize,
      out.2 = { info with absentCount, dataSize, valid, totalSize }) fun _ => True := by
  rw [Info.parseDataSize]
  refine ends_ite.mpr ⟨fun _ => ⟨_, _, _, _, rfl⟩, fun _ => ?_⟩
  refine Ends.seq (fun _ => True) (ends_true _) fun absentCount _ => ?_
  refine ends_ite.mpr ⟨fun _ => ⟨_, _, _, _, rfl⟩, fun _ => ?_⟩
  refine ends_ite.mpr ⟨fun _ => ⟨_, _, _, _, rfl⟩, fun _ => ?_⟩
  refine Ends.seq (fun _ => True) (ends_true _) fun dataSize _ => ?_
  refine ends_ite.mpr ⟨fun _ => ⟨_, _, _, _, rfl⟩, fun _ => ?_⟩
  refine ends_ite.mpr ⟨fun _ => ⟨_, _, _, _, rfl⟩, fun _ => ?_⟩
  exact ends_ite.mpr ⟨fun _ => ⟨_, _, _, _, rfl⟩, fun _ => ⟨_, _, _, _, rfl⟩⟩

theorem parseCounts_sections (hobs : info.offsetByteSize ≤ 8)
    (hgeneric : info.hasIndex = false → info.magic = bocGeneric)
    (hcache : info.magic ≠ bocGeneric → info.hasCacheBits = false) :
    Ends (info.parseCounts slice) (fun out => 0 < out.1 → SectionsOk out.2) fun _ => True := by
  rw [Info.parseCounts]
  refine ends_ite.mpr ⟨fun _ hpos => absurd hpos (by simp), fun _ => ?_⟩
  refine Ends.seq (fun _ => True) (ends_true _) fun cellCount _ => ?_
  refine ends_ite.mpr ⟨fun _ hpos => absurd hpos (by simp), fun _ => ?_⟩
  refine ends_ite.mpr ⟨fun _ hpos => absurd hpos (by simp), fun _ => ?_⟩
  refine Ends.seq (fun _ => True) (ends_true _) fun rootCount _ => ?_
  refine ends_ite.mpr ⟨fun _ hpos => absurd hpos (by simp), fun _ => ?_⟩
  refine ends_ite.mpr ⟨fun _ hpos => absurd hpos (by simp), fun hsingle => ?_⟩
  refine parseDataSize_frame.mono ?_ fun _ => id
  rintro out ⟨absentCount, dataSize, valid, totalSize, hout⟩ -
  rw [hout]
  dsimp only at hsingle
  unfold Info.setOffsets
  dsimp only
  by_cases hmagic : info.magic = bocGeneric
  · rw [if_pos hmagic]
    refine ⟨hobs, fun hindex => ?_, fun _ => hmagic, fun _ => rfl, fun hnot => absurd hmagic hnot,
      hcache⟩
    dsimp only at hindex ⊢
    rw [if_pos hindex]
  · rw [if_neg hmagic]
    refine ⟨hobs, fun hindex => ?_, hgeneric, fun hyes => absurd hyes hmagic, fun _ => ?_, hcache⟩
    · dsimp only at hindex ⊢
      rw [if_pos hindex]
    · dsimp only
      by_contra hcount
      exact hsingle ⟨hmagic, hcount⟩

theorem parseSerializedHeader_sections : Ends (info.parseSerializedHeader slice)
    (fun out => 0 < out.1 → SectionsOk out.2) fun _ => True := by
  rw [Info.parseSerializedHeader]
  refine ends_ite.mpr ⟨fun _ hpos => absurd hpos (by simp), fun _ => ?_⟩
  refine Ends.seq (fun _ => True) (ends_true _) fun magic _ => ?_
  refine ends_ite.mpr ⟨fun _ hpos => absurd hpos (by simp), fun _ => ?_⟩
  refine ends_ite.mpr ⟨fun _ hpos => absurd hpos (by simp), fun _ => ?_⟩
  refine Ends.seq (fun _ => True) (ends_true _) fun byte _ => ?_
  rw [Info.parseWidths]
  refine ends_ite.mpr ⟨fun _ hpos => absurd hpos (by simp), fun _ => ?_⟩
  refine ends_ite.mpr ⟨fun _ hpos => absurd hpos (by simp), fun _ => ?_⟩
  refine ends_ite.mpr ⟨fun _ hpos => absurd hpos (by dsimp only; omega), fun _ => ?_⟩
  refine Ends.seq (fun _ => True) (ends_true _) fun byte' _ => ?_
  refine ends_ite.mpr ⟨fun _ hpos => absurd hpos (by simp), fun hobs => ?_⟩
  dsimp only at hobs
  apply parseCounts_sections
  · dsimp only
    omega
  · unfold Info.setFlags Info.reset
    dsimp only
    split
    · exact fun _ => by assumption
    · exact fun hindex => absurd hindex (by simp)
  · unfold Info.setFlags Info.reset
    dsimp only
    split
    · exact fun hnot => absurd (by assumption) hnot
    · exact fun _ => rfl

end parsing

end TonCompress.Boc
