import TonCompress.Boc.Scratch
import TonCompress.Boc.Serialize

/-! What the two passes of the writer store, whatever the mode. -/
namespace TonCompress.Boc
open TonCompress.Lib MyBagOfCells

/-- A run of the writer that stores `bytes`, and stops only for want of room. -/
def Stores (run : BufferWriter → BocExec BufferWriter) (bytes : List UInt8) : Prop :=
  ∀ stored room, stored.length ≤ room →
    Ends (run ⟨stored, room⟩)
      (fun writer => writer = ⟨stored ++ bytes, room⟩ ∧ stored.length + bytes.length ≤ room)
      fun _ => room < stored.length + bytes.length

section storing
variable {run run' : BufferWriter → BocExec BufferWriter} {bytes bytes' : List UInt8}

theorem stores_storeBytes (bytes : List UInt8) :
    Stores (fun writer => writer.storeBytes bytes) bytes := by
  intro stored room _
  exact ends_ite.mpr ⟨fun hroom => ⟨rfl, hroom⟩, Nat.lt_of_not_le⟩

theorem stores_storeUint (value count : Nat) :
    Stores (fun writer => writer.storeUint value count) (beBytes value count) :=
  stores_storeBytes _

theorem stores_pure : Stores pure [] := by
  intro stored room hroom
  exact ⟨by rw [List.append_nil], hroom⟩

theorem Stores.bind (h : Stores run bytes) (h' : Stores run' bytes') :
    Stores (fun writer => run writer >>= run') (bytes ++ bytes') := by
  intro stored room hroom
  rw [List.length_append]
  refine ((h stored room hroom).mono (fun _ => id) fun _ hlack => ?_).bind ?_
  · omega
  · rintro writer ⟨rfl, hfits⟩
    have hnext := h' (stored ++ bytes) room (by rw [List.length_append]; exact hfits)
    rw [List.length_append, List.append_assoc, Nat.add_assoc] at hnext
    exact hnext

theorem Stores.forEach {α : Type} {body : α → BufferWriter → BocExec BufferWriter}
    {bytesOf : α → List UInt8} (h : ∀ x, Stores (body x) (bytesOf x)) (list : List α) :
    Stores (fun writer => forEach list writer body) (list.flatMap bytesOf) := by
  induction list with
  | nil => exact stores_pure
  | cons x list ih =>
    simp only [forEach_cons, List.flatMap_cons]
    exact (h x).bind ih

theorem Stores.forRange {α : Type} {body : Nat → BufferWriter → BocExec BufferWriter}
    {bytesOf : α → List UInt8} {list : List α} {lo : Nat}
    (h : ∀ i x, list[i]? = some x → Stores (body (lo + i)) (bytesOf x)) :
    Stores (fun writer => forRange lo (lo + list.length) writer body)
      (list.flatMap bytesOf) := by
  induction list generalizing lo with
  | nil =>
    simp only [List.length_nil, Nat.add_zero, forRange_self]
    exact stores_pure
  | cons x list ih =>
    have hloop : ∀ writer, Lib.forRange lo (lo + (x :: list).length) writer body =
        body lo writer >>= fun writer =>
          Lib.forRange (lo + 1) (lo + 1 + list.length) writer body := by
      intro writer
      rw [forRange_succ_left (by simp), List.length_cons,
        show lo + (list.length + 1) = lo + 1 + list.length by omega]
    simp only [hloop, List.flatMap_cons]
    refine (h 0 x rfl).bind (ih fun i y hy => ?_)
    rw [Nat.add_assoc, Nat.add_comm 1 i]
    exact h (i + 1) y hy

end storing

namespace MyBagOfCells

/-- `serialize_to_impl_only_meta` up to the records, for a reference width that it
does not reject. -/
def storeHead (bag : MyBagOfCells) (mode : Nat) (writer : BufferWriter) :
    BocExec BufferWriter := do
  let writer ← writer.storeUint bag.info.magic 4
  let writer ← writer.storeUint (flagByte bag.info) 1
  let writer ← writer.storeUint bag.info.offsetByteSize 1
  let writer ← writer.storeUint bag.cellCount.toNat bag.info.refByteSize
  let writer ← writer.storeUint bag.rootCount.toNat bag.info.refByteSize
  let writer ← writer.storeUint 0 bag.info.refByteSize
  let writer ← writer.storeUint bag.info.dataSize bag.info.offsetByteSize
  let writer ← forEach bag.roots writer fun root writer =>
    writer.storeUint (bag.cellCount - 1 - root.idx).toNat bag.info.refByteSize
  let writer ← if bag.info.hasIndex then bag.storeIndex mode writer else pure writer
  forRange 0 bag.cellCount.toNat writer (bag.storeCellMeta mode)

theorem serializeToImplOnlyMeta_eq (lib : CellLib) {bag : MyBagOfCells} (mode : Nat)
    (hrs : 1 ≤ bag.info.refByteSize ∧ bag.info.refByteSize ≤ 7) (writer : BufferWriter) :
    bag.serializeToImplOnlyMeta lib mode writer = bag.storeHead mode writer >>= fun writer =>
      if bag.info.hasCrc32c then writer.storeBytes (beBytes (lib.crc32c writer.stored).toNat 4).reverse
      else pure writer := by
  have hrs' : ¬ (bag.info.refByteSize < 1 ∨ bag.info.refByteSize > 7) := by omega
  unfold serializeToImplOnlyMeta storeHead
  cases bag.info.hasIndex <;>
    simp only [if_neg hrs', bind_assoc, pure_bind, Bool.false_eq_true, if_true, if_false]

def recordSize (mode refByteSize : Nat) (dcInfo : CellInfo) : Nat :=
  dcInfo.dcRef.getSerializedSize (dcInfo.withHash mode) + dcInfo.dcRef.refs.length * refByteSize

def indexEntry (bag : MyBagOfCells) (mode i : Nat) : Nat :=
  let offs :=
    ((bag.cellList.reverse.take (i + 1)).map (recordSize mode bag.info.refByteSize)).sum
  if bag.info.hasCacheBits then
    offs * 2 + (bag.cellList.reverse[i]?.elim false CellInfo.shouldCache).toNat
  else offs

def indexSection (bag : MyBagOfCells) (mode : Nat) : List UInt8 :=
  (List.range bag.cellList.length).flatMap fun i =>
    beBytes (bag.indexEntry mode i) bag.info.offsetByteSize

end MyBagOfCells

section passes
variable {bag : MyBagOfCells}

def filledInfo (bag : MyBagOfCells) (mode dataSize rs os : Nat) : Info :=
  let rootsOffset := 6 + 3 * rs + os
  let indexOffset := rootsOffset + bag.rootCount.toNat * rs
  let dataOffset := indexOffset + if withIndex mode then bag.cellCount.toNat * os else 0
  { bag.info with
    magic := bocGeneric
    rootCount := bag.rootCount
    cellCount := bag.cellCount
    absentCount := bag.dangleCount
    refByteSize := rs
    offsetByteSize := os
    valid := true
    hasIndex := withIndex mode
    hasCrc32c := withCrc32c mode
    hasCacheBits := withCacheBits mode
    rootsOffset
    indexOffset
    dataOffset
    dataSize
    totalSize := (dataOffset + dataSize + if withCrc32c mode then 4 else 0) % 2 ^ 64 }

theorem estimate_eq {mode dataSize rs os : Nat} (hmode : ¬ (withCacheBits mode ∧ ¬ withIndex mode))
    (hsizes : bag.computeSizes mode = (dataSize, rs, os)) (hpos : dataSize ≠ 0) :
    bag.estimateSerializedSize mode = ((filledInfo bag mode dataSize rs os).totalSize,
      { bag with info := filledInfo bag mode dataSize rs os }) := by
  unfold estimateSerializedSize
  rw [if_neg hmode, hsizes]
  exact if_neg hpos

theorem vecGet_reverse (hcount : bag.cellCount = bag.cellList.length) {i : Nat}
    {dcInfo : CellInfo} (hi : bag.cellList.reverse[i]? = some dcInfo) :
    vecGet BocSite.cellList bag.cellList (bag.cellCount - 1 - i) = .ok dcInfo := by
  have hlt : i < bag.cellList.length := by
    simpa using (List.getElem?_eq_some_iff.mp hi).1
  rw [List.getElem?_reverse hlt] at hi
  rw [hcount, show (bag.cellList.length : Int) - 1 - i =
    ((bag.cellList.length - 1 - i : Nat) : Int) by omega]
  exact vecGet_of_eq _ _ _ _ hi

def cellRecord (mode n refByteSize : Nat) (dcInfo : CellInfo) : List UInt8 :=
  dcInfo.dcRef.getFirstTwoMeta (dcInfo.withHash mode) ++
    dcInfo.refIdx.flatMap fun refIdx => beBytes ((n : Int) - 1 - refIdx).toNat refByteSize

theorem stores_cellRecord (hcount : bag.cellCount = bag.cellList.length) (mode : Nat) {i : Nat}
    {dcInfo : CellInfo} (hi : bag.cellList.reverse[i]? = some dcInfo) :
    Stores (bag.storeCellMeta mode i)
      (cellRecord mode bag.cellList.length bag.info.refByteSize dcInfo) := by
  have hget := vecGet_reverse hcount hi
  have hrefs := Stores.forEach (fun refIdx : Int =>
    stores_storeUint ((bag.cellList.length : Int) - 1 - refIdx).toNat bag.info.refByteSize)
    dcInfo.refIdx
  have hboth :=
    (stores_storeBytes (dcInfo.dcRef.getFirstTwoMeta (dcInfo.withHash mode))).bind hrefs
  intro stored room hroom
  unfold storeCellMeta
  rw [hget, ok_bind, hcount]
  exact hboth stored room hroom

theorem stores_cellSerialized (lib : CellLib) (hcount : bag.cellCount = bag.cellList.length)
    (mode : Nat) {i : Nat} {dcInfo : CellInfo} (hi : bag.cellList.reverse[i]? = some dcInfo) :
    Stores (bag.storeCellData lib mode i)
      (dcInfo.dcRef.serialized lib (List.replicate 256 0) (dcInfo.withHash mode) false) := by
  have hget := vecGet_reverse hcount hi
  unfold DataCell.serialized storeCellData
  generalize List.replicate 256 (0 : UInt8) = buff
  intro stored room hroom
  dsimp only
  rw [hget, ok_bind]
  exact stores_storeBytes _ stored room hroom

theorem sum_take_succ {α : Type} (sizeOf : α → Nat) {list : List α} {i : Nat} {x : α}
    (hi : list[i]? = some x) :
    ((list.take (i + 1)).map sizeOf).sum = ((list.take i).map sizeOf).sum + sizeOf x := by
  obtain ⟨hlt, rfl⟩ := List.getElem?_eq_some_iff.mp hi
  rw [List.take_succ_eq_append_getElem hlt, List.map_append, List.sum_append, List.map_singleton,
    List.sum_singleton]

theorem flatMap_beBytes_length (entry : Nat → Nat) (width k : Nat) :
    ((List.range k).flatMap fun i => beBytes (entry i) width).length = k * width := by
  simp [List.length_flatMap]

theorem stores_index (hcount : bag.cellCount = bag.cellList.length) (mode : Nat) :
    Stores (bag.storeIndex mode) (bag.indexSection mode) := by
  intro stored room hroom
  have hn : bag.cellCount.toNat = bag.cellList.length := by
    rw [hcount]
    rfl
  let upTo : Nat → List UInt8 := fun k => (List.range k).flatMap fun i =>
    beBytes (bag.indexEntry mode i) bag.info.offsetByteSize
  have hlength : ∀ k, (upTo k).length = k * bag.info.offsetByteSize :=
    flatMap_beBytes_length _ _
  unfold storeIndex
  rw [hn]
  refine Ends.bind (forRange_ends (fun i state =>
    state = (⟨stored ++ upTo i, room⟩,
      ((bag.cellList.reverse.take i).map (recordSize mode bag.info.refByteSize)).sum) ∧
    stored.length + (upTo i).length ≤ room) (Nat.zero_le _) ?_ ?_) ?_
  · exact ⟨by simp [upTo], hroom⟩
  · rintro i _ - hi ⟨rfl, hfits⟩
    obtain ⟨dcInfo, hget⟩ : ∃ dcInfo, bag.cellList.reverse[i]? = some dcInfo :=
      ⟨_, List.getElem?_eq_getElem (by rwa [List.length_reverse])⟩
    have hentry : (if bag.info.hasCacheBits then
        (((bag.cellList.reverse.take i).map (recordSize mode bag.info.refByteSize)).sum +
          dcInfo.dcRef.getSerializedSize (dcInfo.withHash mode) +
          dcInfo.dcRef.refs.length * bag.info.refByteSize) * 2 + dcInfo.shouldCache.toNat
        else ((bag.cellList.reverse.take i).map (recordSize mode bag.info.refByteSize)).sum +
          dcInfo.dcRef.getSerializedSize (dcInfo.withHash mode) +
          dcInfo.dcRef.refs.length * bag.info.refByteSize) = bag.indexEntry mode i := by
      rw [indexEntry, hget, sum_take_succ _ hget, recordSize, Nat.add_assoc]
      rfl
    have hnext : upTo (i + 1) =
        upTo i ++ beBytes (bag.indexEntry mode i) bag.info.offsetByteSize := by
      simp [upTo, List.range_succ]
    have hle : (upTo (i + 1)).length ≤ (bag.indexSection mode).length := by
      rw [hlength, indexSection, flatMap_beBytes_length]
      exact Nat.mul_le_mul_right _ hi
    have hstore := stores_storeUint (bag.indexEntry mode i) bag.info.offsetByteSize
      (stored ++ upTo i) room (by rwa [List.length_append])
    rw [List.length_append, Nat.add_assoc, ← List.length_append, List.append_assoc,
      ← hnext] at hstore
    simp only [vecGet_reverse hcount hget, ok_bind, hentry]
    refine (hstore.mono (fun _ => id) fun _ hlack => ?_).bind ?_
    · omega
    · rintro writer ⟨rfl, hfits'⟩
      rw [sum_take_succ _ hget, recordSize, ← Nat.add_assoc]
      exact ⟨rfl, hfits'⟩
  · rintro _ ⟨rfl, hfits⟩
    exact ⟨rfl, hfits⟩

def headBytes (bag : MyBagOfCells) (mode : Nat) : List UInt8 :=
  beBytes bag.info.magic 4 ++ (beBytes (flagByte bag.info) 1 ++
    (beBytes bag.info.offsetByteSize 1 ++ (beBytes bag.cellCount.toNat bag.info.refByteSize ++
      (beBytes bag.rootCount.toNat bag.info.refByteSize ++ (beBytes 0 bag.info.refByteSize ++
        (beBytes bag.info.dataSize bag.info.offsetByteSize ++
          ((bag.roots.flatMap fun root =>
              beBytes (bag.cellCount - 1 - root.idx).toNat bag.info.refByteSize) ++
            ((if bag.info.hasIndex then bag.indexSection mode else []) ++
              bag.cellList.reverse.flatMap
                (cellRecord mode bag.cellList.length bag.info.refByteSize)))))))))

def cellBytes (lib : CellLib) (bag : MyBagOfCells) (mode : Nat) : List UInt8 :=
  bag.cellList.reverse.flatMap fun dcInfo =>
    dcInfo.dcRef.serialized lib (List.replicate 256 0) (dcInfo.withHash mode) false

def checksumBytes (lib : CellLib) (bag : MyBagOfCells) (stored : List UInt8) : List UInt8 :=
  if bag.info.hasCrc32c then (beBytes (lib.crc32c stored).toNat 4).reverse else []

def writtenBytes (lib : CellLib) (bag : MyBagOfCells) (mode : Nat) : List UInt8 :=
  headBytes bag mode ++ (checksumBytes lib bag (headBytes bag mode) ++ cellBytes lib bag mode)

theorem stores_head (hcount : bag.cellCount = bag.cellList.length) (mode : Nat) :
    Stores (bag.storeHead mode) (headBytes bag mode) := by
  have hrecords := @Stores.forRange CellInfo (bag.storeCellMeta mode)
    (cellRecord mode bag.cellList.length bag.info.refByteSize) bag.cellList.reverse 0
    fun i dcInfo hi => by
      rw [Nat.zero_add]
      exact stores_cellRecord hcount mode hi
  have hn : bag.cellCount.toNat = bag.cellList.length := by
    rw [hcount]
    rfl
  rw [List.length_reverse, Nat.zero_add, ← hn] at hrecords
  have hroots := Stores.forEach (fun root : RootInfo =>
    stores_storeUint (bag.cellCount - 1 - root.idx).toNat bag.info.refByteSize) bag.roots
  have hindex : Stores (fun writer => if bag.info.hasIndex then bag.storeIndex mode writer
      else pure writer) (if bag.info.hasIndex then bag.indexSection mode else []) := by
    cases bag.info.hasIndex with
    | false => exact stores_pure
    | true => exact stores_index hcount mode
  have hall := (stores_storeUint bag.info.magic 4).bind <|
    (stores_storeUint (flagByte bag.info) 1).bind <|
    (stores_storeUint bag.info.offsetByteSize 1).bind <|
    (stores_storeUint bag.cellCount.toNat bag.info.refByteSize).bind <|
    (stores_storeUint bag.rootCount.toNat bag.info.refByteSize).bind <|
    (stores_storeUint 0 bag.info.refByteSize).bind <|
    (stores_storeUint bag.info.dataSize bag.info.offsetByteSize).bind <|
    hroots.bind <| hindex.bind hrecords
  intro stored room hroom
  unfold headBytes
  rw [← hn]
  refine Eq.mp ?_ (hall stored room hroom)
  unfold storeHead
  cases bag.info.hasIndex <;> simp only [pure_bind, Bool.false_eq_true, if_true, if_false]

theorem stores_cells (lib : CellLib) (hcount : bag.cellCount = bag.cellList.length) (mode : Nat) :
    Stores (bag.serializeToImplOnlyData lib mode) (cellBytes lib bag mode) := by
  have hdata := @Stores.forRange CellInfo (bag.storeCellData lib mode)
    (fun dcInfo => dcInfo.dcRef.serialized lib (List.replicate 256 0) (dcInfo.withHash mode) false)
    bag.cellList.reverse 0 fun i dcInfo hi => by
      rw [Nat.zero_add]
      exact stores_cellSerialized lib hcount mode hi
  have hn : bag.cellCount.toNat = bag.cellList.length := by
    rw [hcount]
    rfl
  rwa [List.length_reverse, Nat.zero_add, ← hn] at hdata

theorem ends_meta (lib : CellLib) (hcount : bag.cellCount = bag.cellList.length) (mode : Nat)
    (hrs : 1 ≤ bag.info.refByteSize ∧ bag.info.refByteSize ≤ 7) (room : Nat) :
    let stored := headBytes bag mode ++ checksumBytes lib bag (headBytes bag mode)
    Ends (bag.serializeToImplOnlyMeta lib mode ⟨[], room⟩)
      (fun writer => writer = ⟨stored, room⟩ ∧ stored.length ≤ room)
      fun _ => room < stored.length := by
  dsimp only
  rw [serializeToImplOnlyMeta_eq lib mode hrs, List.length_append]
  have hhead := stores_head hcount mode [] room (Nat.zero_le _)
  rw [List.nil_append, List.length_nil, Nat.zero_add] at hhead
  refine (hhead.mono (fun _ => id) fun _ hlack => ?_).bind ?_
  · omega
  · rintro writer ⟨rfl, hfits⟩
    unfold checksumBytes
    cases bag.info.hasCrc32c with
    | false =>
      rw [if_neg (by simp), if_neg (by simp), List.append_nil]
      exact ⟨rfl, hfits⟩
    | true =>
      rw [if_pos rfl, if_pos rfl]
      exact stores_storeBytes _ _ room hfits

/-- Both passes run through just when their output fits. -/
theorem ends_written (lib : CellLib) (hcount : bag.cellCount = bag.cellList.length) (mode : Nat)
    (hrs : 1 ≤ bag.info.refByteSize ∧ bag.info.refByteSize ≤ 7) (room : Nat) :
    Ends (bag.serializeToImplOnlyMeta lib mode ⟨[], room⟩ >>=
        bag.serializeToImplOnlyData lib mode)
      (fun writer => writer = ⟨writtenBytes lib bag mode, room⟩ ∧
        (writtenBytes lib bag mode).length ≤ room)
      fun _ => room < (writtenBytes lib bag mode).length := by
  unfold writtenBytes
  rw [← List.append_assoc, List.length_append]
  refine ((ends_meta lib hcount mode hrs room).mono (fun _ => id) fun _ hlack => ?_).bind ?_
  · omega
  · rintro writer ⟨rfl, hfits⟩
    exact stores_cells lib hcount mode _ room hfits

theorem stores_written (lib : CellLib) (hcount : bag.cellCount = bag.cellList.length) (mode : Nat)
    (hrs : 1 ≤ bag.info.refByteSize ∧ bag.info.refByteSize ≤ 7) {room : Nat}
    (hroom : (writtenBytes lib bag mode).length ≤ room) :
    ∃ writer, bag.serializeToImplOnlyMeta lib mode ⟨[], room⟩ = .ok writer ∧
      bag.serializeToImplOnlyData lib mode writer = .ok ⟨writtenBytes lib bag mode, room⟩ :=
  bind_eq_ok.mp <| returns_eq_iff.mp <| (ends_written lib hcount mode hrs room).mono
    (fun _ hout => hout.1) fun _ hlack => absurd hlack (Nat.not_lt.mpr hroom)

end passes

end TonCompress.Boc
