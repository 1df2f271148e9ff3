import TonCompress.Evolve.Halts
import TonCompress.Evolve.History
import TonCompress.Lzma.Capacity

/-! `compress` and `decompress` of `solution_evolve_lzma_separate_header.cpp`, from the
bytes of a bag to the bytes of a bag. -/
namespace TonCompress.Evolve
open TonCompress.Lib TonCompress.Lzma TonCompress.Boc

/-- The library's part: `std_boc_deserialize`, `std_boc_serialize`, and `import_cells` on a
new bag with one root, which leaves the bag and a status. -/
structure BocLib extends CellLib where
  stdBocDeserialize : List UInt8 → Except String DataCell
  stdBocSerialize : DataCell → Nat → Except String (List UInt8)
  importCells : DataCell → MyBagOfCells × Except String Unit

/-- What a run of `compress` meets besides its data: the clock, `std::sort`, the contents of
new buffers and the random numbers. -/
structure Host where
  clock : Nat → Nat
  clock_mono : Monotone clock
  sort : List Gene → List Gene
  sort_perm : ∀ genes, (sort genes).Perm genes
  sort_sorted : ∀ genes, (sort genes).Pairwise fun a b => a.unfitness ≤ b.unfitness
  heap : Gene → (n : Nat) → Allocated n
  rng : Nat → UInt32

/-- `my_std_boc_serialize`. The bag is renumbered before the status is looked at. -/
def serializeRoot (lib : BocLib) (gene : Gene) (root : DataCell) (mode : Nat) :
    BocExec (List UInt8) := do
  let (boc, res) := lib.importCells root
  let myBoc ← boc.permute lib.toCellLib gene
  match res with
  | .error message => throw (.status message)
  | .ok _ => myBoc.serializeToSlice lib.toCellLib mode

def searchOf (lib : BocLib) (host : Host) (root : DataCell) : SearchEnv where
  program := .evolveLzma
  numberOfCells := (lib.importCells root).1.cellCount.toNat
  clock := host.clock
  clock_mono := host.clock_mono
  sort := host.sort
  sort_perm := host.sort_perm
  sort_sorted := host.sort_sorted
  encode gene := do
    let serialized ← (serializeRoot lib gene root 0).toOption
    (lzmaCompress serialized (host.heap gene _)).toOption

def compress (lib : BocLib) (host : Host) (fuel : Nat) (data : List UInt8) :
    GeneExec (List UInt8) :=
  match lib.stdBocDeserialize data with
  | .error _ => .error .abort
  | .ok root => do
      let s ← runSearch (searchOf lib host root) host.rng fuel
      return s.best

/-- Where `decompress` stops; `abort` is `move_as_ok` on the status of the library's writer. -/
inductive DecompressStop where
  | lzma (reason : Stop Lzma.Site)
  | boc (reason : Stop BocSite)
  | abort
  deriving DecidableEq, Repr

/-- `move_as_ok` on the result of the library's writer, which has an error for a null cell. -/
def writeRoot (lib : BocLib) : Option DataCell → Except DecompressStop (List UInt8)
  | none => .error .abort
  | some root =>
      match lib.stdBocSerialize root 31 with
      | .error _ => .error .abort
      | .ok bytes => .ok bytes

def decompress (lib : BocLib) (data : List UInt8) (output : Allocated blockSizeMax) :
    Except DecompressStop (List UInt8) := do
  let serialized ← (lzmaDecompress data blockSizeMax output).mapError .lzma
  let root ← (moveAsOk (myStdBocDeserialize lib.toCellLib (Slice.ofBytes serialized) false
    false)).mapError .boc
  writeRoot lib root

/-- The library reads `data` as `root`, imports the root into `bag`, builds its cells again
from their parts, and writes every cell with the root's contents as `data`. -/
structure BocLib.Handles (lib : BocLib) (data : List UInt8) (root : DataCell)
    (bag : MyBagOfCells) : Prop where
  reads : lib.stdBocDeserialize data = .ok root
  level : getLevel root.levelMask = 0
  writes : ∀ root', SameCell root' root → lib.stdBocSerialize root' 31 = .ok data
  imports : lib.importCells root = (bag, .ok ())
  imported : ∃ rootIdx, ImportedBag bag root rootIdx
  rebuilds : ∀ dcInfo ∈ bag.cellList, Rebuilds lib.toCellLib dcInfo.dcRef

/-- The serialization is small enough for `decompress`, and its encoding for its buffer. -/
structure Fits (serialized : List UInt8) : Prop where
  size : serialized.length ≤ blockSizeMax
  room : ∃ bytes, lzmaEncode serialized
    (lzmaCompressCapacity serialized.length - lzmaHeaderLen) false = .ok (.ok, bytes)

section sizes
variable {lib : CellLib} {bag bag' : MyBagOfCells} {gene : Gene} {mode : Nat} {bytes : List UInt8}

structure SameSizes (bag bag' : MyBagOfCells) : Prop where
  cellCount : bag'.cellCount = bag.cellCount
  rootCount : bag'.rootCount = bag.rootCount
  intRefs : bag'.intRefs = bag.intRefs
  intHashes : bag'.intHashes = bag.intHashes
  topHashes : bag'.topHashes = bag.topHashes
  dataBytes : bag'.dataBytes = bag.dataBytes

theorem SameSizes.estimate (h : SameSizes bag bag') :
    (bag'.estimateSerializedSize mode).1 = (bag.estimateSerializedSize mode).1 := by
  have hsizes : bag'.computeSizes mode = bag.computeSizes mode := by
    unfold MyBagOfCells.computeSizes MyBagOfCells.countedHashes
    rw [h.rootCount, h.dataBytes, h.cellCount, h.topHashes, h.intHashes, h.intRefs]
  unfold MyBagOfCells.estimateSerializedSize
  rw [hsizes]
  split
  · rfl
  · dsimp only
    split
    · rfl
    · rw [h.rootCount, h.cellCount]

theorem estimate_sameSizes (bag : MyBagOfCells) (mode : Nat) :
    SameSizes bag (bag.estimateSerializedSize mode).2 := by
  unfold MyBagOfCells.estimateSerializedSize
  split
  · exact ⟨rfl, rfl, rfl, rfl, rfl, rfl⟩
  · dsimp only
    split <;> exact ⟨rfl, rfl, rfl, rfl, rfl, rfl⟩

theorem permute_sameSizes (h : bag.permute lib gene = .ok bag') : SameSizes bag bag' := by
  obtain ⟨cellList, -, h⟩ := bind_eq_ok.mp h
  obtain ⟨roots, -, h⟩ := bind_eq_ok.mp h
  obtain ⟨cells, -, h⟩ := bind_eq_ok.mp h
  obtain rfl := Except.ok.inj h
  exact ⟨rfl, rfl, rfl, rfl, rfl, rfl⟩

theorem serializeToSlice_length (h : bag.serializeToSlice lib mode = .ok bytes) :
    bytes.length = (bag.estimateSerializedSize mode).1 := by
  rw [← (estimate_sameSizes bag mode).estimate]
  unfold MyBagOfCells.serializeToSlice at h
  dsimp only at h
  split at h
  · cases h
  · obtain ⟨written, -, h⟩ := bind_eq_ok.mp h
    obtain ⟨writer, -, h⟩ := bind_eq_ok.mp h
    split at h
    · obtain rfl := Except.ok.inj h
      assumption
    · cases h

theorem myStdBocSerialize_length (h : myStdBocSerialize lib bag gene mode = .ok bytes) :
    bytes.length = (bag.estimateSerializedSize mode).1 := by
  obtain ⟨myBoc, hpermute, hbytes⟩ := bind_eq_ok.mp h
  rw [serializeToSlice_length hbytes, (permute_sameSizes hpermute).estimate]

end sizes

section improvement
variable {env : SearchEnv} {n : Nat} {s t : Search} {first : List UInt8}

/-- What the search returns is the first encoding, or a shorter one of an order. -/
def Improved (env : SearchEnv) (n : Nat) (first best : List UInt8) : Prop :=
  best = first ∨
    ∃ gene, IsPerm n gene.perm ∧ env.encode gene = some best ∧ best.length < first.length

theorem Improved.shorter {best compressed : List UInt8} {gene : Gene} (h : Improved env n first best)
    (hgene : IsPerm n gene.perm) (hencode : env.encode gene = some compressed) :
    Improved env n first (shorter best compressed) := by
  unfold Evolve.shorter
  split
  · rename_i hless
    refine .inr ⟨gene, hgene, hencode, ?_⟩
    rcases h with rfl | ⟨-, -, -, hbest⟩
    · exact hless
    · exact hless.trans hbest
  · exact h

theorem Evaluated.improved {gene gene' : Gene} {s' : Search} (h : Evaluated env gene s gene' s')
    (hgene : IsPerm n gene.perm) (hs : Improved env n first s.best) :
    Improved env n first s'.best := by
  cases h with
  | late => exact hs
  | intime intime encode => exact hs.shorter hgene encode

theorem Moves.improved (h : Moves env s t) (hinv : SearchInv n s)
    (hs : Improved env n first s.best) : Improved env n first t.best := by
  cases h with
  | evaluate phase population evaluated =>
    exact evaluated.improved (hinv.population _ (by rw [population]; simp)) hs
  | childPushed phase evaluated | childMarked phase evaluated | childLate phase evaluated
  | childKept phase evaluated =>
    exact evaluated.improved (hinv.child _ _ (.inr phase)) hs
  | _ => exact hs

theorem Reached.improved (hn : 0 < n) (hcells : env.numberOfCells = n) {stream : Nat → UInt32}
    (hfirst : env.encode Gene.unfilled = some first) (h : Reached env stream s) :
    Improved env n first s.best := by
  refine @Reached.invariant env n s hn hcells stream (fun s => Improved env n first s.best) h ?_ ?_
  · intro best hencode
    exact .inl (Option.some.inj (hencode.symm.trans hfirst))
  · intro s hinv hs
    exact (ends_eq _).mono (fun t hstep => (searchStep_moves hstep).improved hinv hs) fun _ => id

end improvement

section roundTrip
variable {lib : BocLib} {host : Host} {data serialized best : List UInt8} {root : DataCell}
variable {bag : MyBagOfCells} {gene : Gene}

theorem BocLib.Handles.serializeRoot_eq (h : lib.Handles data root bag) (gene : Gene) (mode : Nat) :
    serializeRoot lib gene root mode = myStdBocSerialize lib.toCellLib bag gene mode := by
  unfold serializeRoot
  rw [h.imports]
  rfl

theorem BocLib.Handles.searches (h : lib.Handles data root bag) (host : Host) :
    (searchOf lib host root).Searches lib.toCellLib bag host.heap := by
  obtain ⟨rootIdx, himported⟩ := h.imported
  refine ⟨rfl, ?_, ?_⟩
  · change (lib.importCells root).1.cellCount.toNat = _
    rw [h.imports, himported.cellCount, Int.toNat_natCast]
  · funext gene
    change (do
      let serialized ← (serializeRoot lib gene root 0).toOption
      (lzmaCompress serialized (host.heap gene _)).toOption) = _
    rw [h.serializeRoot_eq]
    rfl

theorem Fits.decompressed (h : Fits serialized)
    {input : Allocated (lzmaCompressCapacity serialized.length)}
    (hcompress : lzmaCompress serialized input = .ok best) (output : Allocated blockSizeMax) :
    lzmaDecompress best blockSizeMax output = .ok serialized := by
  obtain ⟨bytes, hencode⟩ := h.room
  obtain ⟨compressed, hsame, hback⟩ := (kept_of_room h.size hencode).recovered input
  obtain rfl := Except.ok.inj (hsame.symm.trans hcompress)
  exact hback output

theorem fits_of_shorter {capacity : Nat} (hsize : serialized.length ≤ blockSizeMax)
    {input : Allocated (lzmaCompressCapacity serialized.length)}
    (hcompress : lzmaCompress serialized input = .ok best)
    (hcapacity : capacity ≤ lzmaCompressCapacity serialized.length)
    (hless : best.length < capacity) : Fits serialized := by
  have hmax : blockSizeMax = 2 ^ 21 := rfl
  have hdata : serialized.length < 2 ^ 64 := by omega
  obtain ⟨ret, bytes, hencode, -⟩ :=
    lzmaEncode_ends hdata (lzmaCompressCapacity serialized.length - lzmaHeaderLen)
  by_cases hret : ret = .ok
  · rw [hret] at hencode
    exact ⟨hsize, bytes, hencode⟩
  · -- the whole buffer would have come back
    exfalso
    have hlength := encoded_length_le hdata hencode
    have hwhole := lzmaCompress_eq hdata hencode input
    rw [if_pos hret, hcompress] at hwhole
    have hinput := input.toList_length
    have heq := congrArg List.length (Except.ok.inj hwhole)
    rw [List.length_append, List.length_append, List.length_drop, hinput] at heq
    have hheader : (lzmaHeader serialized.length true).length = lzmaHeaderLen := rfl
    omega

theorem BocLib.Handles.deserialized (h : lib.Handles data root bag)
    (hgene : IsOrder bag.cellList.length gene)
    (hserialize : myStdBocSerialize lib.toCellLib bag gene 0 = .ok serialized) :
    ∃ root', myStdBocDeserialize lib.toCellLib (Slice.ofBytes serialized) false false =
      .ok (some root') ∧ SameCell root' root := by
  obtain ⟨rootIdx, himported⟩ := h.imported
  obtain ⟨permuted, bytes, decoded, root', hpermute, hbytes, hrun, hcount, hroot, hsame, -⟩ :=
    himported.roundTrip h.rebuilds hgene
  have hbytes' : myStdBocSerialize lib.toCellLib bag gene 0 = .ok bytes :=
    bind_eq_ok.mpr ⟨permuted, hpermute, hbytes⟩
  obtain rfl := Except.ok.inj (hserialize.symm.trans hbytes')
  have hlevel : getLevel root'.levelMask = 0 := by rw [hsame.levelMask_eq, h.level]
  refine ⟨root', ?_, hsame⟩
  unfold myStdBocDeserialize
  rw [hrun]
  simp [hcount, hroot, hlevel, bind, Except.bind, pure, Except.pure]

theorem Improved.fits (h : lib.Handles data root bag)
    (hserialize : serializeRoot lib Gene.unfilled root 0 = .ok serialized) (hfits : Fits serialized)
    {first : List UInt8} (hfirst : encodeGene lib.toCellLib bag host.heap Gene.unfilled = some first)
    (hbest : Improved (searchOf lib host root) bag.cellList.length first best) :
    ∃ gene serialized' input, IsOrder bag.cellList.length gene ∧ Fits serialized' ∧
      myStdBocSerialize lib.toCellLib bag gene 0 = .ok serialized' ∧
      lzmaCompress serialized' input = .ok best := by
  rw [h.serializeRoot_eq] at hserialize
  obtain ⟨serialized', hserialize', hcompress⟩ := encodeGene_eq_some.mp hfirst
  obtain rfl := Except.ok.inj (hserialize.symm.trans hserialize')
  rcases hbest with rfl | ⟨gene, hgene, hencode, hless⟩
  · exact ⟨_, _, _, .inl rfl, hfits, hserialize, hcompress⟩
  · rw [(h.searches host).encode] at hencode
    obtain ⟨other, hother, hcompress'⟩ := encodeGene_eq_some.mp hencode
    have hlength : other.length = serialized.length := by
      rw [myStdBocSerialize_length hother, myStdBocSerialize_length hserialize]
    have hmax : blockSizeMax = 2 ^ 21 := rfl
    have hsize := hfits.size
    obtain ⟨len, -, hlen, hruns⟩ := lzmaCompress_length (show serialized.length < 2 ^ 64 by omega)
    obtain ⟨compressed, hsame, rfl⟩ := hruns (host.heap Gene.unfilled _)
    obtain rfl := Except.ok.inj (hcompress.symm.trans hsame)
    rw [← hlength] at hlen
    exact ⟨gene, other, _, .inr hgene,
      fits_of_shorter (hlength ▸ hsize) hcompress' hlen hless, hother, hcompress'⟩

theorem decompress_of_order (h : lib.Handles data root bag)
    (hgene : IsOrder bag.cellList.length gene) (hfits : Fits serialized)
    (hserialize : myStdBocSerialize lib.toCellLib bag gene 0 = .ok serialized)
    {input : Allocated (lzmaCompressCapacity serialized.length)}
    (hcompress : lzmaCompress serialized input = .ok best) (output : Allocated blockSizeMax) :
    decompress lib best output = .ok data := by
  obtain ⟨root', hread, hsame⟩ := h.deserialized hgene hserialize
  unfold decompress
  rw [hfits.decompressed hcompress output]
  change (moveAsOk (myStdBocDeserialize lib.toCellLib (Slice.ofBytes serialized) false
    false)).mapError DecompressStop.boc >>= writeRoot lib = _
  rw [hread]
  change writeRoot lib (some root') = _
  unfold writeRoot
  dsimp only
  rw [h.writes root' hsame]

theorem decompress_reached (h : lib.Handles data root bag)
    (hserialize : serializeRoot lib Gene.unfilled root 0 = .ok serialized) (hfits : Fits serialized)
    {s : Search} (hs : Reached (searchOf lib host root) host.rng s)
    (output : Allocated blockSizeMax) : decompress lib s.best output = .ok data := by
  obtain ⟨rootIdx, himported⟩ := h.imported
  have hsearches := h.searches host
  obtain ⟨first, hfirst, -⟩ :=
    @encodeGene_ends lib.toCellLib bag root rootIdx host.heap Gene.unfilled himported (.inl rfl)
  have hbest := hs.improved (Nat.zero_lt_of_lt himported.rootIdx_lt) hsearches.numberOfCells
    (by rw [hsearches.encode, hfirst])
  obtain ⟨gene, serialized', input, hgene, hfits', hserialize', hcompress'⟩ :=
    Improved.fits h hserialize hfits hfirst hbest
  exact decompress_of_order h hgene hfits' hserialize' hcompress' output

theorem compress_eq {fuel : Nat} (h : lib.Handles data root bag) :
    compress lib host fuel data =
      runSearch (searchOf lib host root) host.rng fuel >>= fun s => pure s.best := by
  unfold compress
  rw [h.reads]

theorem compress_ends {last fuel : Nat} (h : lib.Handles data root bag)
    (hlast : 1900 * 1000000 ≤ host.clock last) (hfuel : 3 * last + 3 < fuel)
    {stop : Stop GeneSite → Prop} (hsteps : ∀ s, Reached (searchOf lib host root) host.rng s →
      Ends (searchStep (searchOf lib host root) s) (fun _ => True) stop) :
    Ends (compress lib host fuel data) (fun _ => True) stop := by
  obtain ⟨rootIdx, himported⟩ := h.imported
  obtain ⟨bytes, hencode, -⟩ :=
    ((h.searches host).encodes himported).encode Gene.unfilled (.inl rfl)
  have hlate : Late (searchOf lib host root) 1900 last := hlast
  rw [compress_eq h]
  refine (runSearch_ends hlate ?_ hsteps hfuel).bind fun _ _ => trivial
  rw [startSearch_eq hencode]
  trivial

theorem compress_returns {last fuel : Nat} (h : lib.Handles data root bag)
    (hlast : 1900 * 1000000 ≤ host.clock last) (hfuel : 3 * last + 3 < fuel)
    (htimely : host.clock 18 < 1800 * 1000000 ∨ 1900 * 1000000 ≤ host.clock 20) :
    ∃ best, compress lib host fuel data = .ok best := by
  obtain ⟨rootIdx, himported⟩ := h.imported
  have henv := (h.searches host).encodes himported
  obtain ⟨best, hbest, -⟩ := returns_iff.mp
    (compress_ends h hlast hfuel fun s hs => searchStep_returns henv htimely hs)
  exact ⟨best, hbest⟩

end roundTrip

def forkImport : MyBagOfCells :=
  { MyBagOfCells.fresh with
    cellCount := 2
    rootCount := 1
    intRefs := 2
    topHashes := 1
    dataBytes := 6
    cellList := [⟨leafCell, [], 1, -1, true, false⟩, ⟨forkCell, [0, 0], 3, -1, false, true⟩]
    roots := [⟨some forkCell, 1⟩] }

/-- What the library writes for that cell in mode 31. -/
def forkData : List UInt8 :=
  [0xb5, 0xee, 0x9c, 0x72, 0xe1, 0x01, 0x02, 0x01, 0x00, 0x2a, 0x00, 0x4e, 0x55, 0x12, 0x02,
    0xe7, 0xd7, 0xfd, 0x16, 0xac, 0xfd, 0xff, 0xf3, 0xa1, 0x00, 0xaf, 0x3d, 0x80, 0x33, 0x09,
    0xc8, 0x03, 0x3d, 0x7c, 0x56, 0x7e, 0x8d, 0x23, 0xbc, 0x73, 0xfa, 0x79, 0xfd, 0xc9, 0x58,
    0xb1, 0xaf, 0x00, 0x01, 0x5a, 0x01, 0x01, 0x00, 0x01, 0xa8, 0x08, 0x80, 0x94, 0x62]

def forkLib : BocLib where
  toCellLib := packingLib
  stdBocDeserialize _ := .ok forkCell
  stdBocSerialize _ _ := .ok forkData
  importCells _ := (forkImport, .ok ())

/-- Each reading of the clock finds 50 ms more. -/
def tickingHost : Host where
  clock k := 50000000 * k
  clock_mono _ _ := Nat.mul_le_mul_left _
  sort := pairSearch.sort
  sort_perm := pairSearch.sort_perm
  sort_sorted := pairSearch.sort_sorted
  heap _ n := .replicate n 0
  rng := squareStream

theorem forkImport_imported : ImportedBag forkImport forkCell 1 := by
  have hleaf : IsCellAt forkImport.cellList 0 leafCell := ⟨0, rfl, _, rfl, rfl⟩
  have hfork : IsCellAt forkImport.cellList 1 forkCell := ⟨1, rfl, _, rfl, rfl⟩
  refine ⟨rfl, by decide, ?_, ?_, ?_, rfl, rfl, rfl, rfl, hfork⟩
  · refine List.forall_mem_cons.mpr ⟨.nil, ?_⟩
    exact List.forall_mem_singleton.mpr (.cons hleaf (.cons hleaf .nil))
  · exact List.forall_mem_cons.mpr ⟨leafCell_stored, List.forall_mem_singleton.mpr forkCell_stored⟩
  · intro i hi hroot
    obtain rfl : i = 0 := by
      change i < 2 at hi
      omega
    exact ⟨_, List.mem_cons_of_mem _ List.mem_cons_self, List.mem_cons_self⟩

theorem forkLib_handles : forkLib.Handles forkData forkCell forkImport := by
  refine ⟨rfl, rfl, fun _ _ => rfl, rfl, ⟨1, forkImport_imported⟩, ?_⟩
  have hfork : Rebuilds packingLib forkCell := packingLib_rebuilds _ List.mem_cons_self
  have hleaf : Rebuilds packingLib leafCell :=
    packingLib_rebuilds _ (List.mem_cons_of_mem _ List.mem_cons_self)
  exact List.forall_mem_cons.mpr ⟨hleaf, List.forall_mem_singleton.mpr hfork⟩

def forkSerialized : List UInt8 :=
  [0xb5, 0xee, 0x9c, 0x72, 0x01, 0x01, 0x02, 0x01, 0x00, 0x08, 0x00, 0x02, 0x02, 0x01, 0x01,
    0x00, 0x01, 0x5a, 0xa8]

theorem forkSerialized_eq : serializeRoot forkLib Gene.unfilled forkCell 0 = .ok forkSerialized := by
  let cells : List CellInfo :=
    [⟨leafCell, [], 1, 0, true, false⟩, ⟨forkCell, [0, 0], 3, 1, false, true⟩]
  -- the cells are in order already, so the sort of the renumbering keeps them
  have hsort : cells.mergeSort (fun a b => decide (a.newIdx ≤ b.newIdx)) = cells :=
    List.mergeSort_of_pairwise (by simp [cells])
  have hpermute : forkImport.permute packingLib Gene.unfilled =
      .ok { forkImport with cellList := cells, cells := [([], 1), ([], 0)] } := by
    refine bind_eq_ok.mpr ⟨cells, rfl, bind_eq_ok.mpr ⟨[⟨some forkCell, 1⟩], rfl, ?_⟩⟩
    dsimp only
    rw [hsort]
    rfl
  rw [forkLib_handles.serializeRoot_eq]
  exact bind_eq_ok.mpr ⟨_, hpermute, toOption_eq_some.mp (by decide +kernel)⟩

theorem forkSerialized_fits : Fits forkSerialized := by
  refine ⟨by decide, ?_⟩
  have hret : (lzmaEncode forkSerialized (lzmaCompressCapacity forkSerialized.length -
      lzmaHeaderLen) false).toOption.map (·.1) = some .ok := by decide +kernel
  obtain ⟨out, hencode, hout⟩ := Option.map_eq_some_iff.mp hret
  exact ⟨out.2, by rw [toOption_eq_some.mp hencode, ← hout]⟩

section roundTrip
variable {lib : BocLib} {host : Host} {data serialized best : List UInt8} {root : DataCell}
variable {bag : MyBagOfCells}

/-- Whatever `compress` returns, after any search, `decompress` makes `data` of it again,
provided that `data` would come through without a search. -/
theorem decompress_compress (h : lib.Handles data root bag)
    (hserialize : serializeRoot lib Gene.unfilled root 0 = .ok serialized) (hfits : Fits serialized)
    {fuel : Nat} (hcompress : compress lib host fuel data = .ok best)
    (output : Allocated blockSizeMax) : decompress lib best output = .ok data := by
  rw [compress_eq h] at hcompress
  obtain ⟨s, hrun, hbest⟩ := bind_eq_ok.mp hcompress
  obtain ⟨start, hstart, hrun⟩ := bind_eq_ok.mp hrun
  obtain rfl := Except.ok.inj hbest
  exact decompress_reached h hserialize hfits ⟨start, hstart, (runUntil_reaches hrun).1⟩ output

theorem decompress_compress_fork : ∃ best, compress forkLib tickingHost 118 forkData = .ok best ∧
    decompress forkLib best (.replicate _ 0) = .ok forkData := by
  obtain ⟨best, hbest⟩ := @compress_returns forkLib tickingHost forkData forkCell forkImport 38 118
    forkLib_handles (by decide) (by decide) (by decide)
  exact ⟨best, hbest, decompress_compress forkLib_handles forkSerialized_eq forkSerialized_fits
    hbest _⟩

/-- When the clock is at its limit by reading `last`, `compress` ends after at most
`3 * last + 3` steps. Only a selection can stop it, and none does when the initial
population is evaluated in time. -/
theorem compress_terminates (h : lib.Handles data root bag) {last fuel : Nat}
    (hlast : 1900 * 1000000 ≤ host.clock last) (hfuel : 3 * last + 3 < fuel) :
    Ends (compress lib host fuel data) (fun _ => True) SelectionStop ∧
    (host.clock 18 < 1800 * 1000000 ∨ 1900 * 1000000 ≤ host.clock 20 →
      ∃ best, compress lib host fuel data = .ok best) := by
  obtain ⟨rootIdx, himported⟩ := h.imported
  have henv := (h.searches host).encodes himported
  refine ⟨compress_ends h hlast hfuel fun s hs => ?_, compress_returns h hlast hfuel⟩
  exact (searchStep_inv henv.pos henv.numberOfCells (hs.inv henv.pos henv.numberOfCells)).mono
    (fun _ _ => trivial) fun _ => id

theorem compress_terminates_fork :
    Ends (compress forkLib tickingHost 118 forkData) (fun _ => True) SelectionStop ∧
    (tickingHost.clock 18 < 1800 * 1000000 ∨ 1900 * 1000000 ≤ tickingHost.clock 20 →
      ∃ best, compress forkLib tickingHost 118 forkData = .ok best) :=
  compress_terminates forkLib_handles (show _ ≤ tickingHost.clock 38 by decide) (by decide)

end roundTrip

end TonCompress.Evolve
