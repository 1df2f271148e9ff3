import TonCompress.Boc.RoundTrip
import TonCompress.Boc.Sizes
import Mathlib.Data.Finset.Max
import Mathlib.Data.Fintype.Defs

/-! A bag written with a checksum, and what the reader makes of it. -/
namespace TonCompress.Boc
open TonCompress.Lib MyBagOfCells

section tagged
variable {rs bits : Nat} {cell : DataCell} {slice : Slice}

theorem tag_of_countTrailingZeroes : ∀ (byte : Fin 256) (used : Fin 8), used.val ≠ 0 →
    byte.val % 128 ≠ 0 → countTrailingZeroes byte.val = 7 - used.val →
    byte.val % 2 ^ (8 - used.val) = 2 ^ (7 - used.val) := by
  decide +kernel

theorem loadBits_ok {ptr : List UInt8} {bitString : List Bool}
    (h : loadBits ptr bits = .ok bitString) :
    (bits + 7) / 8 ≤ ptr.length ∧ bitString = (bitsOf (ptr.take ((bits + 7) / 8))).take bits := by
  obtain ⟨bytes, hbytes, hbits⟩ := bind_eq_ok.mp h
  unfold readBytes at hbytes
  split at hbytes
  · obtain rfl := Except.ok.inj hbytes
    exact ⟨by assumption, (Except.ok.inj hbits).symm⟩
  · cases hbytes

theorem data_of_bitString (h : cell.Stored)
    (hbits : (recordPrefix rs cell).getBits slice = .ok bits)
    (hload : loadBits slice.mem bits = .ok cell.bitString) :
    slice.mem.take cell.data.length = cell.data := by
  have hlen := h.data_length
  obtain ⟨hfits, hstring⟩ := loadBits_ok hload
  have hsame : bits = cell.bits := by
    have hlengths := congrArg List.length hstring
    rw [DataCell.bitString, List.length_take, List.length_take, bitsOf_length, bitsOf_length,
      List.length_take] at hlengths
    omega
  subst hsame
  rw [← hlen] at hfits hstring
  have htake : (slice.mem.take cell.data.length).length = cell.data.length := by
    rw [List.length_take]
    omega
  by_cases hused : cell.bits % 8 = 0
  · apply bitsOf_injective
    rw [DataCell.bitString, List.take_of_length_le (by rw [bitsOf_length]; omega),
      List.take_of_length_le (by rw [bitsOf_length]; omega)] at hstring
    exact hstring.symm
  · have hne : cell.data ≠ [] := by
      rw [← List.length_pos_iff_ne_nil]
      omega
    obtain ⟨init, last, hdata⟩ := (List.eq_nil_or_concat cell.data).resolve_left hne
    have hne' : slice.mem.take cell.data.length ≠ [] := by
      rw [← List.length_pos_iff_ne_nil, htake]
      exact List.length_pos_iff_ne_nil.mpr hne
    obtain ⟨init', last', hread⟩ :=
      (List.eq_nil_or_concat (slice.mem.take cell.data.length)).resolve_left hne'
    rw [List.concat_eq_append] at hdata hread
    have hinit : init.length + 1 = cell.data.length := by
      rw [hdata, List.length_append, List.length_singleton]
    have hinit' : init'.length + 1 = cell.data.length := by
      rw [← htake, hread, List.length_append, List.length_singleton]
    -- the bits in front of the tag
    have hsplit : ∀ (list : List UInt8) (byte : UInt8), list.length + 1 = cell.data.length →
        (bitsOf (list ++ [byte])).take cell.bits =
          bitsOf list ++ (lowBits 8 byte.toNat).take (cell.bits % 8) := by
      intro list byte hlist
      have hbefore : (bitsOf list).length ≤ cell.bits := by
        rw [bitsOf_length]
        omega
      rw [bitsOf_append, bitsOf_singleton, List.take_append, List.take_of_length_le hbefore,
        bitsOf_length, show cell.bits - 8 * list.length = cell.bits % 8 by omega]
    rw [DataCell.bitString, hread, hdata, hsplit _ _ hinit, hsplit _ _ hinit'] at hstring
    obtain ⟨hfirst, hrest⟩ := List.append_inj hstring (by simp only [bitsOf_length]; omega)
    have hdiv := div_eq_of_lowBits_take last.toNat_lt last'.toNat_lt (by omega) hrest
    -- the tag itself
    have htag := h.tag last (by rw [hdata, List.getLast?_concat]) hused
    have hlast : slice.mem[cell.data.length - 1]? = some last' := by
      have hget := congrArg (fun bytes => bytes[cell.data.length - 1]?) hread
      simp only [List.getElem?_take, if_pos (show cell.data.length - 1 < cell.data.length by omega)]
        at hget
      rw [hget, show cell.data.length - 1 = init'.length by omega, List.getElem?_concat_length]
    have hbyte : readByte slice.mem ((recordPrefix rs cell).dataLen - 1) = .ok last' := by
      apply vecGet_of_eq
      rw [← hlast, hlen]
      rfl
    unfold CellSerializationInfo.getBits at hbits
    rw [if_pos (by simp [recordPrefix, hused]), hbyte, ok_bind] at hbits
    have hlong : last'.toNat % 128 ≠ 0 := by
      intro hzero
      rw [if_pos hzero] at hbits
      cases hbits
    rw [if_neg hlong] at hbits
    have hcount := Except.ok.inj hbits
    have hdataLen : (recordPrefix rs cell).dataLen = cell.data.length := hlen.symm
    have htag' := tag_of_countTrailingZeroes ⟨last'.toNat, last'.toNat_lt⟩
      ⟨cell.bits % 8, by omega⟩ hused hlong (by dsimp only; omega)
    dsimp only at htag'
    have hvalue : last'.toNat = last.toNat := by
      rw [← Nat.div_add_mod last'.toNat (2 ^ (8 - cell.bits % 8)), ← hdiv, htag', ← htag,
        Nat.div_add_mod]
    rw [hread, hdata, bitsOf_injective hfirst, UInt8.toNat_inj.mp hvalue]

end tagged

theorem checkCrc_iff (lib : CellLib) {body tail : List UInt8} (htail : tail.length = 4) :
    checkCrc lib (Slice.ofBytes (body ++ tail)) = .ok () ↔ tail = crcBytes lib body := by
  have hlen : (Slice.ofBytes (body ++ tail)).len - 4 = body.length := by
    rw [Slice.ofBytes_len, List.length_append]
    omega
  have hread : readBytes tail 4 = .ok tail := by
    unfold readBytes
    rw [if_pos htail.ge, List.take_of_length_le htail.le]
  have hvalue : (lib.crc32c body).toNat = beValue tail.reverse ↔ tail = crcBytes lib body := by
    unfold crcBytes
    constructor
    · intro h
      have hback := beBytes_beValue tail.reverse
      rw [List.length_reverse, htail, ← h] at hback
      rw [hback, List.reverse_reverse]
    · intro h
      rw [h, List.reverse_reverse, beValue_beBytes (lib.crc32c body).toNat_lt]
  unfold checkCrc
  rw [Slice.ofBytes_mem, hlen, List.drop_left, List.take_left, hread, ok_bind, ← hvalue]
  by_cases hsame : (lib.crc32c body).toNat = beValue tail.reverse
  · rw [if_neg (not_not.mpr hsame)]
    exact iff_of_true rfl hsame
  · rw [if_pos hsame]
    exact iff_of_false nofun hsame

section writing
variable {bag : MyBagOfCells} {root : DataCell} {rootIdx rs os : Nat} {lib : CellLib}

theorem ImportedBag.serializeToSlice_crc (lib : CellLib) (h : ImportedBag bag root rootIdx) :
    ∃ rs os, Widths bag rs os ∧ bag.computeSizes 2 = (sectionsSize bag rs, rs, os) ∧
      bag.serializeToSlice lib 2 = .ok (bagHead true bag rootIdx rs os ++
        (crcBytes lib (bagHead true bag rootIdx rs os) ++ dataSection bag.cellList)) :=
  h.serializeToSlice_plain lib plainMode_crc

end writing

/-- `finalize_novm_nothrow` gives a cell of the bits and references that it was
called with. -/
def CellLib.Faithful (lib : CellLib) : Prop :=
  ∀ bits refs special cell, lib.finalizeNovmNothrow bits refs special = .ok cell →
    cell.bitString = bits ∧ cell.refs = refs

section reading
variable {bag : MyBagOfCells} {root : DataCell} {rootIdx rs os n : Nat} {lib : CellLib}
variable {records : List Record} {refs : Fin n → List (Fin n)} {infoAt : Fin n → CellInfo}
variable {dataSlice : Slice}

theorem Numbered.in_place (h : ImportedBag bag root rootIdx)
    (hnum : Numbered bag rs records refs infoAt) (hlib : lib.Faithful)
    (hrecords : List.Forall₂ (RecordOf bag.cellList.length rs) bag.cellList.reverse records)
    {idx : Fin n} {cell : DataCell}
    (hcell : Rebuilt refs (createFrom lib records dataSlice) idx cell)
    (hunfold : cell.unfold = (infoAt idx).dcRef.unfold) :
    (dataSlice.mem.drop ((bag.cellList.reverse.take idx.val).flatMap cellData).length).take
        (infoAt idx).dcRef.data.length = (infoAt idx).dcRef.data ∧
      ∀ x ∈ refs idx, ∃ below, Rebuilt refs (createFrom lib records dataSlice) x below ∧
        below.unfold = (infoAt x).dcRef.unfold := by
  obtain ⟨length_eq, hbelow, hcreated⟩ := hcell
  rename_i cells
  obtain ⟨cellSlice, hcreate⟩ := hnum.createFrom_eq h hrecords lib dataSlice idx
  rw [hcreate] at hcreated
  obtain ⟨bits, bitString, hfrom⟩ := (createDataCell_ends lib _ _ _ _ _).of_ok hcreated
  obtain ⟨hbits, hrefs⟩ := hlib _ _ _ _ hfrom.finalize
  rw [DataCell.unfold_eq, DataCell.unfold_eq, CellTree.node.injEq] at hunfold
  obtain ⟨hstring, -, htrees⟩ := hunfold
  have hload := hfrom.loadBits
  rw [← hbits, hstring] at hload
  refine ⟨data_of_bitString (h.stored _ (hnum.mem idx)) hfrom.getBits hload, fun x hx => ?_⟩
  obtain ⟨k, hk, rfl⟩ := List.getElem_of_mem hx
  have hk' : k < cells.length := by omega
  refine ⟨cells[k], hbelow k _ _ (List.getElem?_eq_getElem hk) (List.getElem?_eq_getElem hk'), ?_⟩
  rw [hrefs, ← hnum.refs_eq idx, List.map_map] at htrees
  have hget := congrArg (fun trees => trees[k]?) htrees
  simp only [List.getElem?_map, List.getElem?_eq_getElem hk, List.getElem?_eq_getElem hk',
    Option.map_some, Option.some.injEq] at hget
  exact hget

theorem Numbered.exists_referrer (h : ImportedBag bag root rootIdx)
    (hnum : Numbered bag rs records refs infoAt) (hn : bag.cellList.length = n) {x : Fin n}
    (hx : x.val ≠ n - 1 - rootIdx) : ∃ y, x ∈ refs y := by
  obtain ⟨dcInfo, hinfo, href⟩ := h.referenced (n - 1 - x.val) (by omega) (by omega)
  obtain ⟨k, hk, rfl⟩ := List.getElem_of_mem (List.mem_reverse.mpr hinfo)
  have hkn : k < n := by
    rw [List.length_reverse] at hk
    omega
  have hget := hnum.infoAt_eq ⟨k, hkn⟩
  rw [List.getElem?_eq_getElem hk, Option.some.injEq] at hget
  rw [hget, hnum.refIdx_eq] at href
  obtain ⟨y, hy, heq⟩ := List.mem_map.mp href
  obtain rfl : y = x := by
    apply Fin.ext
    omega
  exact ⟨⟨k, hkn⟩, hy⟩

/-- When the root is rebuilt to its old unfolding, so are all cells. -/
theorem Numbered.all_rebuilt (h : ImportedBag bag root rootIdx)
    (hnum : Numbered bag rs records refs infoAt) (hn : bag.cellList.length = n)
    (hlib : lib.Faithful)
    (hrecords : List.Forall₂ (RecordOf bag.cellList.length rs) bag.cellList.reverse records)
    {rootAt : Fin n} (hroot : rootAt.val = n - 1 - rootIdx) {cell : DataCell}
    (hcell : Rebuilt refs (createFrom lib records dataSlice) rootAt cell)
    (hunfold : cell.unfold = (infoAt rootAt).dcRef.unfold) (idx : Fin n) :
    ∃ cell, Rebuilt refs (createFrom lib records dataSlice) idx cell ∧
      cell.unfold = (infoAt idx).dcRef.unfold := by
  -- a largest cell that is not rebuilt would have a referrer that is not either
  classical
  by_contra hnot
  let missing := Finset.univ.filter fun idx : Fin n =>
    ¬ ∃ cell, Rebuilt refs (createFrom lib records dataSlice) idx cell ∧
      cell.unfold = (infoAt idx).dcRef.unfold
  obtain ⟨x, hx, hmax⟩ := Finset.exists_max_image missing
    (fun idx => sizeOf (infoAt idx).dcRef) ⟨idx, by simpa [missing] using hnot⟩
  have hx : ¬ ∃ cell, Rebuilt refs (createFrom lib records dataSlice) x cell ∧
      cell.unfold = (infoAt x).dcRef.unfold := by simpa [missing] using hx
  have hne : x.val ≠ n - 1 - rootIdx := by
    intro heq
    obtain rfl : x = rootAt := Fin.ext (heq.trans hroot.symm)
    exact hx ⟨cell, hcell, hunfold⟩
  obtain ⟨y, hy⟩ := hnum.exists_referrer h hn hne
  have hsmaller : sizeOf (infoAt x).dcRef < sizeOf (infoAt y).dcRef := by
    have hmem : (infoAt x).dcRef ∈ (infoAt y).dcRef.refs := by
      rw [← hnum.refs_eq]
      exact List.mem_map_of_mem hy
    have hlist := List.sizeOf_lt_of_mem hmem
    have hcell : sizeOf (infoAt y).dcRef.refs < sizeOf (infoAt y).dcRef := by
      cases (infoAt y).dcRef
      simp only [DataCell.mk.sizeOf_spec]
      omega
    omega
  have hy' : y ∉ missing := fun hmem => absurd (hmax y hmem) (by omega)
  have hy' : ∃ cell, Rebuilt refs (createFrom lib records dataSlice) y cell ∧
      cell.unfold = (infoAt y).dcRef.unfold := by simpa [missing] using hy'
  obtain ⟨cell', hcell', hunfold'⟩ := hy'
  exact hx ((hnum.in_place h hlib hrecords hcell' hunfold').2 x hy)

theorem take_of_blocks {α : Type} {bytesOf : α → List UInt8} {list : List α} {mem : List UInt8}
    (h : ∀ (i : Nat) x, list[i]? = some x →
      (mem.drop ((list.take i).flatMap bytesOf).length).take (bytesOf x).length = bytesOf x) :
    mem.take (list.flatMap bytesOf).length = list.flatMap bytesOf := by
  induction list generalizing mem with
  | nil => rfl
  | cons x list ih =>
    have hfirst := h 0 x rfl
    rw [List.take_zero, List.flatMap_nil, List.length_nil, List.drop_zero] at hfirst
    have hrest := @ih (mem.drop (bytesOf x).length) fun i y hy => by
      have hnext := h (i + 1) y hy
      rw [List.take_succ_cons, List.flatMap_cons, List.length_append, ← List.drop_drop] at hnext
      exact hnext
    rw [List.flatMap_cons, List.length_append, List.take_add, hfirst, hrest]

theorem Numbered.dataSection_in_place (h : ImportedBag bag root rootIdx)
    (hnum : Numbered bag rs records refs infoAt) (hn : bag.cellList.length = n)
    (hlib : lib.Faithful)
    (hrecords : List.Forall₂ (RecordOf bag.cellList.length rs) bag.cellList.reverse records)
    {rootAt : Fin n} (hroot : rootAt.val = n - 1 - rootIdx) {cell : DataCell}
    (hcell : Rebuilt refs (createFrom lib records dataSlice) rootAt cell)
    (hunfold : cell.unfold = (infoAt rootAt).dcRef.unfold) :
    dataSlice.mem.take (dataSection bag.cellList).length = dataSection bag.cellList := by
  apply take_of_blocks
  intro i dcInfo hi
  have hlt : i < n := by
    have hlt := (List.getElem?_eq_some_iff.mp hi).1
    rwa [List.length_reverse, hn] at hlt
  have hinfo := hnum.infoAt_eq ⟨i, hlt⟩
  rw [hi, Option.some.injEq] at hinfo
  obtain ⟨cell', hcell', hunfold'⟩ := hnum.all_rebuilt h hn hlib hrecords hroot hcell hunfold ⟨i, hlt⟩
  have hplace := (hnum.in_place h hlib hrecords hcell' hunfold').1
  rwa [← hinfo] at hplace

def checkedHead (bag : MyBagOfCells) (rootIdx : Nat) : List UInt8 :=
  bagHead true bag rootIdx (bag.computeSizes 2).2.1 (bag.computeSizes 2).2.2

/-- What `serialize_to_slice` writes ends in the checksum of all bytes before it, and
`deserialize` finds the root in it. -/
def ChecksumCarried (lib : CellLib) (bag : MyBagOfCells) (root : DataCell) : Prop :=
  ∃ body, bag.serializeToSlice lib 2 = .ok (body ++ crcBytes lib body) ∧
    ∃ decoded root', deserialize lib (Slice.ofBytes (body ++ crcBytes lib body)) 1 .fresh =
        (.ok ((body ++ crcBytes lib body).length : Int), decoded) ∧
      decoded.getRootCell 0 = .ok (some root') ∧ root'.unfold = root.unfold

/-- The checksum that the writer puts in front of the cell data is where the reader
looks for it when there are no cell data, or when these happen to read the same
behind the checksum of the head as in front of the checksum of everything. -/
theorem checksumCarried_iff (h : ImportedBag bag root rootIdx)
    (hlib : ∀ dcInfo ∈ bag.cellList, Rebuilds lib dcInfo.dcRef) (hfaithful : lib.Faithful) :
    ChecksumCarried lib bag root ↔ dataSection bag.cellList = [] ∨
      crcBytes lib (checkedHead bag rootIdx) ++ dataSection bag.cellList =
        dataSection bag.cellList ++
          crcBytes lib (checkedHead bag rootIdx ++ dataSection bag.cellList) := by
  obtain ⟨rs, os, hwidths, hsizes, hbytes⟩ := h.serializeToSlice_crc lib
  have hhead : checkedHead bag rootIdx = bagHead true bag rootIdx rs os := by
    rw [checkedHead, hsizes]
  rw [hhead]
  constructor
  · rintro ⟨body, hbody, decoded, root', hrun, hroot', hunfold⟩
    rw [hbytes] at hbody
    have hout := Except.ok.inj hbody
    -- the reader takes the last four bytes for the checksum, and what is left for data
    let read := (crcBytes lib (bagHead true bag rootIdx rs os) ++ dataSection bag.cellList).take
      (dataSection bag.cellList).length
    have hlength : body.length = (bagHead true bag rootIdx rs os ++ read).length := by
      have hlengths := congrArg List.length hout
      simp only [List.length_append, crcBytes_length, read, List.length_take] at hlengths ⊢
      omega
    have hsplit : crcBytes lib (bagHead true bag rootIdx rs os) ++ dataSection bag.cellList =
        read ++ (crcBytes lib (bagHead true bag rootIdx rs os) ++ dataSection bag.cellList).drop
          (dataSection bag.cellList).length := (List.take_append_drop _ _).symm
    rw [hsplit, ← List.append_assoc] at hout
    obtain ⟨rfl, htail⟩ := List.append_inj hout hlength.symm
    rw [htail] at hsplit
    have hbuffer : BagBuffer bag rootIdx rs os true read
        (crcBytes lib (bagHead true bag rootIdx rs os ++ read)) := by
      refine ⟨?_, crcBytes_length _ _⟩
      simp only [read, List.length_take, List.length_append]
      omega
    rw [List.append_assoc] at hrun
    have hcrc := (checkCrc_iff lib
      (crcBytes_length lib (bagHead true bag rootIdx rs os ++ read))).mpr rfl
    rw [List.append_assoc] at hcrc
    obtain ⟨records, refs, infoAt, dataSlice, order, hrecords, hnum, hmem, -, -, hends⟩ :=
      hbuffer.deserialize_ends lib h hwidths fun _ => hcrc
    obtain ⟨-, -, x, cell, hx, hroot, hcell⟩ := hends.of_ok (congrArg Prod.fst hrun)
    rw [congrArg Prod.snd hrun, hroot'] at hroot
    obtain rfl : root' = cell := by simpa using hroot
    rw [← hnum.root_eq h hx] at hunfold
    have hplace := hnum.dataSection_in_place h rfl hfaithful hrecords hx hcell hunfold
    rw [hmem, List.take_left' hbuffer.cellBytes_length] at hplace
    rw [hsplit, hplace]
    exact .inr rfl
  · intro hcond
    have hsame : crcBytes lib (bagHead true bag rootIdx rs os) ++ dataSection bag.cellList =
        dataSection bag.cellList ++
          crcBytes lib (bagHead true bag rootIdx rs os ++ dataSection bag.cellList) := by
      rcases hcond with hnone | hsame
      · rw [hnone, List.append_nil, List.append_nil, List.nil_append]
      · exact hsame
    rw [hsame, ← List.append_assoc] at hbytes
    have hcrc := (checkCrc_iff lib (crcBytes_length lib
      (bagHead true bag rootIdx rs os ++ dataSection bag.cellList))).mpr rfl
    rw [List.append_assoc] at hcrc
    have hends := h.deserialize_checked hwidths hlib (crcBytes_length _ _) fun _ => hcrc
    rw [← List.append_assoc] at hends
    obtain ⟨_, decoded, hrun, rfl, -, root', hroot', hroots, -⟩ := hends.exists_ok
    exact ⟨_, hbytes, decoded, root', hrun, hroot', hroots.unfold_eq⟩

end reading

theorem lowBits_foldl (bitAt : Nat → Bool) (k : Nat) :
    lowBits k ((List.range k).foldl (fun value j => 2 * value + (bitAt j).toNat) 0) =
      (List.range k).map bitAt := by
  induction k with
  | zero => rfl
  | succ k ih =>
    rw [List.range_succ, List.foldl_append, List.foldl_cons, List.foldl_nil, lowBits_push, ih,
      List.map_append, List.map_singleton]

theorem lowBits_mod (k value : Nat) : lowBits k (value % 2 ^ k) = lowBits k value := by
  apply List.map_congr_left
  intro i hi
  have hlt := List.mem_range.mp hi
  rw [Nat.testBit_mod_two_pow, decide_eq_true (by omega), Bool.true_and]

theorem flatMap_blocks (bitAt : Nat → Bool) (count : Nat) :
    ((List.range count).flatMap fun i => (List.range 8).map fun j => bitAt (8 * i + j)) =
      (List.range (8 * count)).map bitAt := by
  induction count with
  | zero => rfl
  | succ count ih =>
    rw [@List.range_succ count, List.flatMap_append, ih, List.flatMap_singleton, Nat.mul_succ,
      List.range_add, List.map_append, List.map_map]
    rfl

def taggedBit (bits : List Bool) (i : Nat) : Bool := bits.getD i (i == bits.length)

theorem lowBits_packed (bits : List Bool) (i : Nat) :
    lowBits 8 (UInt8.ofNat ((List.range 8).foldl
      (fun byte j => 2 * byte + (taggedBit bits (8 * i + j)).toNat) 0)).toNat =
      (List.range 8).map fun j => taggedBit bits (8 * i + j) := by
  rw [UInt8.toNat_ofNat', lowBits_mod]
  exact lowBits_foldl (fun j => taggedBit bits (8 * i + j)) 8

theorem take_bitsOf_packBits (bits : List Bool) :
    (bitsOf (packBits bits)).take bits.length = bits := by
  have hall : bitsOf (packBits bits) =
      (List.range (8 * ((bits.length + 7) / 8))).map (taggedBit bits) := by
    rw [← flatMap_blocks, packBits, bitsOf, List.flatMap_map]
    congr 1
    funext i
    exact lowBits_packed bits i
  rw [hall]
  apply List.ext_getElem
  · simp
    omega
  · intro i hi hi'
    simp [taggedBit, hi']

/-- One byte of the reflected CRC with the polynomial of CRC32C. -/
def crcByte (crc : Nat) : Nat → Nat
  | 0 => crc
  | k + 1 => crcByte (if crc % 2 = 1 then crc / 2 ^^^ 0x82f63b78 else crc / 2) k

def crc32c (bytes : List UInt8) : UInt32 :=
  UInt32.ofNat (bytes.foldl (fun crc byte => crcByte (crc ^^^ byte.toNat) 8) 0xffffffff ^^^ 0xffffffff)

example : crc32c [0x31, 0x32, 0x33, 0x34, 0x35, 0x36, 0x37, 0x38, 0x39] = 0xe3069283 := by
  decide +kernel

def crcLib : CellLib := { packingLib with crc32c }

theorem crcLib_faithful : crcLib.Faithful := by
  intro bits refs special cell hcell
  obtain rfl := Except.ok.inj hcell
  exact ⟨take_bitsOf_packBits bits, rfl⟩

theorem crcLib_rebuilds : ∀ dcInfo ∈ forkBag.cellList, Rebuilds crcLib dcInfo.dcRef :=
  packingLib_rebuilds

/-- What is written for the bag of two cells: the checksum of the head stands four
bytes too early. -/
def forkBagBytes : List UInt8 :=
  [0xb5, 0xee, 0x9c, 0x72, 0x41, 1, 2, 1, 0, 8, 1, 0, 1, 2, 2, 0, 0, 0xd1, 0x2b, 0xf2, 0x27,
    0xa8, 0x5a]

theorem forkBag_checksum_misplaced :
    forkBag.serializeToSlice crcLib 2 = .ok forkBagBytes ∧
      (deserialize crcLib (Slice.ofBytes forkBagBytes) 1 .fresh).1 = .error (.status
        "bag-of-cells CRC32C mismatch: expected 0xf1615020, found 0x5aa827f2") ∧
      ¬ ChecksumCarried crcLib forkBag forkCell := by
  have hbytes : forkBag.serializeToSlice crcLib 2 = .ok forkBagBytes := by decide +kernel
  have hrun : (deserialize crcLib (Slice.ofBytes forkBagBytes) 1 .fresh).1 = .error (.status
      "bag-of-cells CRC32C mismatch: expected 0xf1615020, found 0x5aa827f2") := by
    decide +kernel
  refine ⟨hbytes, hrun, ?_⟩
  rintro ⟨body, hbody, decoded, root', hread, -⟩
  rw [hbytes] at hbody
  rw [← Except.ok.inj hbody] at hread
  rw [congrArg Prod.fst hread] at hrun
  cases hrun

theorem checksumCarried_iff_forkBag :
    ChecksumCarried crcLib forkBag forkCell ↔ dataSection forkBag.cellList = [] ∨
      crcBytes crcLib (checkedHead forkBag 0) ++ dataSection forkBag.cellList =
        dataSection forkBag.cellList ++
          crcBytes crcLib (checkedHead forkBag 0 ++ dataSection forkBag.cellList) :=
  checksumCarried_iff forkBag_imported crcLib_rebuilds crcLib_faithful

end TonCompress.Boc
