import TonCompress.Lzma.Packet
import TonCompress.Lzma.Window

/-! A round of the decoder follows each round of the encoder. -/
namespace TonCompress.Lzma
open TonCompress.Lib

/-- The invariant of the encoder's loop. -/
structure EncodeVars.Sound (src : List UInt8) (dstLen : Nat) (v : EncodeVars) : Prop where
  channel : (rangeChannel ProbCell dstLen).Sound v.enc
  pos_le : v.pos ≤ src.length
  state_lt : v.state < nStates
  reps : RepsSound v.pos v.reps
  bypass : v.bypass.Sound src v.pos
  withEndMark : v.withEndMark = false

/-- The decoder, started on the buffer `dst`, has the encoder's variables. -/
structure Mirrors (src dst : List UInt8) (v : EncodeVars) (d : DecodeVars) : Prop where
  state_eq : d.state = v.state
  pos_eq : d.pos = v.pos
  reps_eq : d.reps = v.reps
  prevByte_eq : d.prevByte = (src.take v.pos).getLast?.getD 0
  dst_eq : d.dst = writeTo dst (src.take v.pos)

/-- It has read from `out` what the encoder has written. -/
structure Follows (src dst out : List UInt8) (dstLen : Nat) (v : EncodeVars) (d : DecodeVars) :
    Prop extends Mirrors src dst v d where
  synced : (rangeChannel ProbCell dstLen).Synced v.enc out d.dec

section context
variable {src : List UInt8} {pos : Nat} {reps : Reps}

def byteBefore (src : List UInt8) (pos dist : Nat) : UInt8 :=
  if 0 < pos then src[pos - dist]?.getD 0 else 0

theorem readSrc_before {dist : Nat} (hpos : 0 < pos) (hle : pos ≤ src.length) (hdist : 1 ≤ dist)
    (hback : dist ≤ pos) :
    readSrc src ((pos : Int) - dist) = .ok (byteBefore src pos dist).toNat := by
  have hsub : (pos : Int) - dist = ((pos - dist : Nat) : Int) := by omega
  have hlt : pos - dist < src.length := by omega
  rw [hsub, readSrc_eq hlt, byteBefore, if_pos hpos, List.getElem?_eq_getElem hlt]
  rfl

theorem byteBefore_one (hle : pos ≤ src.length) :
    byteBefore src pos 1 = (src.take pos).getLast?.getD 0 := by
  unfold byteBefore
  rw [List.getLast?_take]
  by_cases hpos : 0 < pos
  · rw [if_pos hpos, if_neg (by omega), List.getElem?_eq_getElem (by omega)]
    rfl
  · rw [if_neg hpos, if_pos (by omega)]
    rfl

theorem packetContext_eq (hle : pos ≤ src.length) (hreps : RepsSound pos reps) (state : Nat) :
    packetContext src state pos reps =
      .ok ((src[pos]?.getD 0).toNat,
        ⟨state, 0, 0, (byteBefore src pos 1).toNat, (byteBefore src pos reps.rep0).toNat⟩) := by
  have hmask : ∀ n, pbMask &&& n = 0 := fun n => Nat.zero_and n
  have hmask' : ∀ n, lpMask &&& n = 0 := fun n => Nat.zero_and n
  have hmsbs : ∀ byte : UInt8, (byte.toNat >>> lcShift) &&& lcMask = byte.toNat := by
    intro byte
    rw [Nat.and_comm]
    exact prev_byte_msbs byte
  have hrep := hreps.pos_of reps.rep0 (by simp)
  unfold packetContext
  dsimp only
  by_cases hpos : pos > 0
  · have hmatch := readSrc_before hpos hle hrep.1 (by omega)
    have hprev := readSrc_before hpos hle le_rfl hpos
    rw [Nat.cast_one] at hprev
    by_cases hlt : pos < src.length
    · rw [if_pos hlt, readSrc_eq hlt, ok_bind, if_pos hpos, hmatch, ok_bind, hprev, ok_bind, hmsbs,
        hmask, hmask', List.getElem?_eq_getElem hlt]
      rfl
    · rw [if_neg hlt, pure_bind, if_pos hpos, hmatch, ok_bind, hprev, ok_bind, hmsbs, hmask, hmask',
        List.getElem?_eq_none (by omega)]
      rfl
  · obtain rfl : pos = 0 := by omega
    by_cases hlt : 0 < src.length
    · have hfirst := readSrc_eq hlt
      rw [if_pos hlt, hfirst, ok_bind, if_neg hpos, List.getElem?_eq_getElem hlt]
      rfl
    · rw [if_neg hlt, pure_bind, if_neg hpos, List.getElem?_eq_none (by omega)]
      rfl

end context

section rounds
variable {src dst : List UInt8} {dstLen : Nat} {v : EncodeVars}

theorem Mirrors.written_eq {d : DecodeVars} (h : Mirrors src dst v d) (hpos : v.pos ≤ src.length) :
    d.written = src.take v.pos := by
  rw [DecodeVars.written, h.dst_eq, h.pos_eq, writeTo]
  exact List.take_left' (List.length_take_of_le hpos)

theorem Mirrors.agrees {d : DecodeVars} (h : Mirrors src dst v d) (hv : v.Sound src dstLen) :
    PacketContext.Agrees ⟨v.state, 0, 0, (byteBefore src v.pos 1).toNat,
      (byteBefore src v.pos v.reps.rep0).toNat⟩ d := by
  have hrep := hv.reps.pos_of v.reps.rep0 (by simp)
  have hpos := hv.pos_le
  refine ⟨hv.state_lt, h.state_eq, rfl, rfl, ?_, byteBefore src v.pos v.reps.rep0, rfl, ?_⟩
  · rw [byteBefore_one hpos, h.prevByte_eq]
  · rw [h.pos_eq, h.reps_eq]
    by_cases hback : v.pos ≥ v.reps.rep0
    · have hsub : (v.pos : Int) - v.reps.rep0 = ((v.pos - v.reps.rep0 : Nat) : Int) := by omega
      have hread : d.dst[v.pos - v.reps.rep0]? = src[v.pos - v.reps.rep0]? := by
        have hwritten := h.written_eq hpos
        rw [← List.getElem?_take_of_lt (by omega : v.pos - v.reps.rep0 < v.pos), ← h.pos_eq]
        change d.written[d.pos - v.reps.rep0]? = _
        rw [hwritten, h.pos_eq, List.getElem?_take_of_lt (by omega)]
      rw [if_pos hback, hsub]
      apply vecGet_of_eq
      rw [hread, byteBefore, if_pos (by omega), List.getElem?_eq_getElem (by omega)]
      rfl
    · have hzero : v.pos = 0 := by omega
      rw [if_neg hback, hzero]
      rfl

theorem updateHashTable_returns (src : List UInt8) (pos : Nat) (table : HashTable) :
    Returns (updateHashTable src pos table) fun _ => True := by
  unfold updateHashTable
  apply (getHash_returns src pos).bind
  intro hash _
  split <;> trivial

def EncodeVars.mirror (src : List UInt8) (v : EncodeVars) : DecodeVars where
  prevByte := (src.take v.pos).getLast?.getD 0
  state := v.state
  pos := v.pos
  reps := v.reps
  dst := writeTo [] (src.take v.pos)
  dec := .fresh []

theorem EncodeVars.mirror_mirrors (src : List UInt8) (v : EncodeVars) :
    Mirrors src [] v (v.mirror src) :=
  ⟨rfl, rfl, rfl, rfl, rfl⟩

theorem Typed.distances {len dist pos : Nat} {reps reps' : Reps} {type : PacketType}
    (h : Typed src pos reps len dist type reps') (hlit : type ≠ .pktLit)
    (hshort : type ≠ .pktShortRep) : 2 ≤ len ∧ len ≤ 273 ∧ 1 ≤ dist ∧ dist < 2 ^ 30 := by
  have hmatch := h.long hlit hshort
  exact ⟨hmatch.len_ge, hmatch.len_le, hmatch.dist_pos, hmatch.dist_lt⟩

theorem finishRound_eq {len dist pos : Nat} {reps reps' : Reps} {type : PacketType}
    (h : Typed src pos reps len dist type reps') (size : Nat) (d : DecodeVars) :
    finishRound size type (packetLen type len) (readDist reps dist type) d =
      writePacket size type (packetLen type len) (packetDist reps dist type) d := by
  unfold finishRound
  by_cases hmatch : type = .pktMatch
  · subst hmatch
    obtain ⟨-, -, hpos, hlt⟩ := h.distances nofun nofun
    have hdist : readDist reps dist .pktMatch = dist - 1 := rfl
    rw [if_pos rfl, hdist, if_neg (by omega), show (dist - 1 + 1) % 2 ^ 32 = dist by omega]
    rfl
  · have hdist : readDist reps dist type = packetDist reps dist type := by
      rw [← h.rep hmatch]
      cases type with
      | pktMatch => exact absurd rfl hmatch
      | _ => rfl
    rw [if_neg hmatch, hdist]

def EncodeVars.context (src : List UInt8) (v : EncodeVars) : PacketContext where
  state := v.state
  posState := 0
  litPosState := 0
  prevByteLcMsbs := (byteBefore src v.pos 1).toNat
  matchByte := (byteBefore src v.pos v.reps.rep0).toNat

def EncodeVars.step (v : EncodeVars) (type : PacketType) (len : Nat) (reps : Reps)
    (bypass : Bypass) (hashTable : HashTable) (enc : Encoder ProbCell) : EncodeVars :=
  { v with
    state := stateTransition v.state type
    pos := v.pos + packetLen type len
    reps, bypass, hashTable, enc }

/-- The choices of a round, which the coder has no part in. -/
structure Chooses (src : List UInt8) (v : EncodeVars) (type : PacketType) (len dist : Nat)
    (reps : Reps) (bypass : Bypass) (table : HashTable) : Prop where
  match_eq : chooseMatch src v.pos v.reps v.hashTable v.bypass = .ok (len, dist, bypass)
  type_eq : chooseType src v.pos v.reps len dist = .ok (type, reps)
  table_eq : forRange v.pos (v.pos + packetLen type len) v.hashTable (updateHashTable src) =
    .ok table
  typed : Typed src v.pos v.reps len dist type reps
  bypass_sound : bypass.Sound src (v.pos + packetLen type len)

theorem exists_chooses (hpos : v.pos < src.length) (hreps : RepsSound v.pos v.reps)
    (hbypass : v.bypass.Sound src v.pos) :
    ∃ type len dist reps bypass table, Chooses src v type len dist reps bypass table := by
  obtain ⟨⟨len, dist, bypass⟩, hchoose, hchosen⟩ :=
    returns_iff.mp (@chooseMatch_returns src v.pos v.reps v.hashTable hpos hreps _ hbypass)
  obtain ⟨⟨type, reps⟩, htype, htyped⟩ :=
    returns_iff.mp (chooseType_returns hpos hreps hchosen.found)
  have htable : Returns (forRange v.pos (v.pos + packetLen type len) v.hashTable
      (updateHashTable src)) fun _ => True :=
    forRange_ends (fun _ _ => True) (Nat.le_add_right _ _) trivial fun pos table _ _ _ =>
      updateHashTable_returns src pos table
  obtain ⟨table, htable, -⟩ := returns_iff.mp htable
  refine ⟨type, len, dist, reps, bypass, table, hchoose, htype, htable, htyped, ?_⟩
  rw [htyped.packetLen_eq]
  exact hchosen.bypass

theorem Chooses.round_eq {type : PacketType} {len dist : Nat} {reps : Reps} {bypass : Bypass}
    {table : HashTable} (h : Chooses src v type len dist reps bypass table)
    (hpos : v.pos < src.length) (hreps : RepsSound v.pos v.reps) :
    lzmaEncodeRound src v =
      encodePacket (v.context src) type len dist src[v.pos].toNat v.enc >>= fun out =>
        .ok (some (v.step type len reps bypass table out.2)) := by
  unfold lzmaEncodeRound
  rw [packetContext_eq hpos.le hreps, ok_bind]
  dsimp only
  rw [if_neg (by omega), h.match_eq, ok_bind]
  dsimp only
  rw [h.type_eq, ok_bind]
  dsimp only
  rw [h.table_eq, ok_bind, List.getElem?_eq_getElem hpos]
  rfl

theorem EncodeVars.Sound.step (hv : v.Sound src dstLen) (hpos : v.pos < src.length)
    {type : PacketType} {len dist : Nat} {reps : Reps} {bypass : Bypass} {table : HashTable}
    {enc : Encoder ProbCell} (htyped : Typed src v.pos v.reps len dist type reps)
    (hbypass : bypass.Sound src (v.pos + packetLen type len))
    (henc : (rangeChannel ProbCell dstLen).Sound enc) :
    (v.step type len reps bypass table enc).Sound src dstLen where
  channel := henc
  pos_le := by
    change v.pos + packetLen type len ≤ src.length
    by_cases hlit : type = .pktLit
    · subst hlit
      exact hpos
    · obtain ⟨-, -, -, hfits, -⟩ := htyped.copies hpos hv.reps hlit
      exact hfits
  state_lt := stateTransition_lt hv.state_lt type
  reps := htyped.reps_sound hpos hv.reps
  bypass := hbypass
  withEndMark := hv.withEndMark

theorem Mirrors.emits {d e d' : DecodeVars} (h : Mirrors src dst v d) {type : PacketType}
    {len : Nat} {reps : Reps} (hfits : v.pos + packetLen type len ≤ src.length)
    (hemits : Emits e (src.take (v.pos + packetLen type len)) d') (hdst : e.dst = d.dst)
    (hstate : e.state = stateTransition d.state type) (hreps : e.reps = reps) (bypass : Bypass)
    (table : HashTable) (enc : Encoder ProbCell) :
    Mirrors src dst (v.step type len reps bypass table enc) d' where
  state_eq := by
    rw [hemits.state_eq, hstate, h.state_eq]
    rfl
  pos_eq := by
    rw [hemits.pos_eq, List.length_take_of_le hfits]
    rfl
  reps_eq := hemits.reps_eq.trans hreps
  prevByte_eq := by
    change _ = (src.take (v.pos + packetLen type len)).getLast?.getD 0
    rw [hemits.last_eq]
    rfl
  dst_eq := by
    change _ = writeTo dst (src.take (v.pos + packetLen type len))
    rw [hemits.dst_eq, hdst, h.dst_eq, writeTo_writeTo]
    rw [List.length_take_of_le hfits, List.length_take_of_le (by omega)]
    exact Nat.le_add_right _ _

theorem Mirrors.write {d : DecodeVars} (h : Mirrors src dst v d) (hv : v.Sound src dstLen)
    (hpos : v.pos < src.length) (hroom : src.length ≤ dst.length) (hsize : src.length < 2 ^ 64)
    {type : PacketType} {len dist : Nat} {reps : Reps}
    (htyped : Typed src v.pos v.reps len dist type reps) (bypass : Bypass) (table : HashTable)
    (enc : Encoder ProbCell) (dec : Decoder ProbCell) :
    ∃ d', writePacket src.length type (packetLen type len) (packetDist v.reps dist type)
        (d.read type (if type = .pktLit then src[v.pos] else d.prevByte) dec) = .ok (.next d') ∧
      Mirrors src dst (v.step type len reps bypass table enc) d' ∧ d'.dec = dec := by
  have hlength : d.dst.length = dst.length := by
    rw [h.dst_eq, length_writeTo]
    rw [List.length_take_of_le hpos.le]
    omega
  have hread : ∀ prevByte, (d.read type prevByte dec).pos = v.pos := fun _ => h.pos_eq
  have hwritten : ∀ prevByte, (d.read type prevByte dec).written = src.take v.pos :=
    fun _ => h.written_eq hpos.le
  by_cases hlit : type = .pktLit
  · subst hlit
    rw [if_pos rfl]
    have hreps : reps = v.reps := htyped.reps_eq.trans (if_pos rfl)
    have hemits := @DecodeVars.push_emits (d.read .pktLit src[v.pos] dec)
      (by rw [hread]; exact hlength ▸ hpos.trans_le hroom) src[v.pos]
    rw [hwritten, List.take_append_getElem hpos] at hemits
    refine ⟨_, writePacket_literal ?_ ?_ hsize, ?_, ?_⟩
    · rw [hread]
      exact hlength ▸ hpos.trans_le hroom
    · rw [hread]
      exact hpos
    · have hfits : v.pos + packetLen .pktLit len ≤ src.length := hpos
      exact h.emits hfits hemits rfl rfl (h.reps_eq.trans hreps.symm) bypass table enc
    · exact hemits.dec_eq
  · rw [if_neg hlit]
    obtain ⟨hdist, hle, -, hfits, hequal⟩ := htyped.copies hpos hv.reps hlit
    have hlen : 1 ≤ packetLen type len := htyped.packetLen_eq ▸ covered_pos len
    obtain ⟨d', hrun, hemits⟩ := @writePacket_copy (d.read type d.prevByte dec) src.length type
      (packetLen type len) (packetDist v.reps dist type) hlit hdist (by rw [hread]; exact hle) hlen
      (hlength ▸ hroom) (by rw [hread]; exact hfits) hsize
    rw [hwritten, copyBack_take hdist hle hfits hequal] at hemits
    have hreps : { v.reps.rotate type with rep0 := packetDist v.reps dist type } = reps := by
      rw [htyped.reps_eq, if_neg hlit]
    refine ⟨d', hrun, h.emits hfits hemits rfl rfl ?_ bypass table enc, hemits.dec_eq⟩
    rw [← hreps, ← h.reps_eq]
    rfl

/-- Each round of the encoder is followed by one of the decoder. -/
theorem lzmaEncodeRound_next (hv : v.Sound src dstLen) (hpos : v.pos < src.length)
    (hroom : src.length ≤ dst.length) (hsize : src.length < 2 ^ 64) :
    ∃ v', lzmaEncodeRound src v = .ok (some v') ∧ v'.Sound src dstLen ∧ v.pos < v'.pos ∧
      ∀ out, (rangeChannel ProbCell dstLen).Leads v'.enc out →
        (rangeChannel ProbCell dstLen).Leads v.enc out ∧
        ∀ d, Follows src dst out dstLen v d →
          ∃ d', lzmaDecodeRound lzmaParams src.length d = .ok (.next d') ∧
            Follows src dst out dstLen v' d' := by
  obtain ⟨type, len, dist, reps, bypass, table, hchooses⟩ :=
    exists_chooses hpos hv.reps hv.bypass
  have hround := hchooses.round_eq hpos hv.reps
  obtain ⟨-, -, -, htyped, hbypass⟩ := hchooses
  have hsends : ∀ dst d, Mirrors src dst v d → Sends dstLen
      (encodePacket (v.context src) type len dist src[v.pos].toNat) (decodePacket lzmaParams d)
      (type, if type = .pktLit then src[v.pos] else d.prevByte, packetLen type len,
        readDist d.reps dist type) := fun dst d hd =>
    sends_packet (hd.agrees hv) type htyped.distances src[v.pos]
  obtain ⟨enc, hencode, henc, hback⟩ := hsends [] _ (v.mirror_mirrors src) v.enc hv.channel
  refine ⟨v.step type len reps bypass table enc, ?_, hv.step hpos htyped hbypass henc, ?_, ?_⟩
  · rw [hround, hencode, ok_bind]
  · have hlen : 1 ≤ packetLen type len := htyped.packetLen_eq ▸ covered_pos len
    exact Nat.lt_add_of_pos_right hlen
  · intro out hleads
    refine ⟨(hback out hleads).1, ?_⟩
    intro d hd
    obtain ⟨enc', hencode', -, hback'⟩ := hsends dst d hd.toMirrors v.enc hv.channel
    obtain rfl : enc = enc' := by
      rw [hencode] at hencode'
      cases hencode'
      rfl
    obtain ⟨-, hreceive⟩ := hback' out hleads
    obtain ⟨dec, hdecode, hsynced⟩ := hreceive d.dec hd.synced
    obtain ⟨d', hwrite, hmirrors, hdec⟩ :=
      hd.toMirrors.write hv hpos hroom hsize htyped bypass table enc dec
    refine ⟨d', ?_, hmirrors, ?_⟩
    · have hoverflow : d.dec.coder.overflow = false := hd.synced.1.overflow_eq
      rw [lzmaDecodeRound_eq, hoverflow, if_neg Bool.false_ne_true, hdecode, ok_bind, hd.reps_eq]
      rw [finishRound_eq htyped, hwrite]
    · rw [hdec]
      exact hsynced

end rounds

end TonCompress.Lzma
