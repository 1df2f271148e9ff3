import TonCompress.Lzma.Capacity
import TonCompress.Lzma.Literals
import TonCompress.Lzma.Longer

/-! An encoding that is cut short. As far as it goes it is decoded as the whole one, so it does
not come to the end of the source. -/
namespace TonCompress.Lzma
open TonCompress.Lib

section rounds
variable {params : LzmaParams} {size : Nat} {s s' : PacketStream}

theorem PacketWrite.length_le {s₁ : PacketStream} {type : PacketType} {prevByte : UInt8}
    {len dist : Nat} (h : PacketWrite size s s₁ type prevByte len dist)
    (happend : s₁.append size type prevByte len dist = .next s') :
    s'.out.length ≤ s.out.length + lzLenMax := by
  have hlen := h.len_le
  have hout := congrArg List.length h.out_eq
  unfold PacketStream.append at happend
  split at happend
  · cases happend
  · rename_i hfar
    split at happend
    · cases happend
    · split at happend
      · cases happend
        have hone : 1 ≤ lzLenMax := by decide
        rw [List.length_append, List.length_singleton]
        omega
      · rename_i hlit
        cases happend
        have hlength :=
          @length_copyBack UInt8 dist len s₁.out (h.copy hlit).2 (Nat.not_lt.mp hfar)
        dsimp only
        omega

theorem streamRound_length (hparams : params.Supported) (hs : s.Sound size)
    (hround : streamRound params size s = .ok (.next s')) :
    s'.out.length ≤ s.out.length + lzLenMax := by
  obtain ⟨hrun, -⟩ | ⟨s₁, -, hrun, -⟩ | ⟨s₁, type, prevByte, len, dist, hwrite, hrun, -⟩ :=
    streamRound_cases hparams hs
  · cases hrun.symm.trans hround
  · cases hrun.symm.trans hround
  · exact hwrite.length_le (Except.ok.inj (hrun.symm.trans hround))

/-- Short of the end, a stream that decodes goes on without an overflow. -/
theorem PacketStream.Decodes.running {out : List UInt8} (h : s.Decodes params size out)
    (hlt : s.out.length < size) : s.dec.coder.overflow = false := by
  cases h with
  | full hfull => omega
  | leave _ hround => exact streamRound_running hround nofun
  | next _ hround _ => exact streamRound_running hround nofun

end rounds

section loop
variable {src out tail : List UInt8} {dstLen : Nat} {v w : EncodeVars}

/-- The encoder near the end of its source, with no more bytes out than a decoder has seen that
lacks the last ones. -/
structure EncodeVars.Outrun (src : List UInt8) (count : Nat) (v : EncodeVars) : Prop where
  literal : v.AllLiteral src
  wide : 2 ^ 16 ≤ v.enc.coder.range
  running : v.enc.coder.overflow = false
  near : src.length ≤ v.pos + lzLenMax
  count_le : v.enc.coder.count + 4 ≤ count

/-- An encoder is not ahead of the bytes that a decoder has read along with it. -/
theorem Follows.count_le {s : PacketStream}
    (hleads : (rangeChannel ProbCell dstLen).Leads v.enc (out ++ tail))
    (h : Follows src src (out ++ tail) dstLen v ((s.more tail).on src)) :
    v.enc.coder.count + 4 ≤ out.length := by
  obtain ⟨-, -, rest, hfits, -⟩ := hleads
  have hunread : s.dec.coder.src ++ tail = (out ++ tail).drop (v.enc.coder.count + 4) :=
    h.synced.1.src_eq
  have hbytes := congrArg List.length hunread
  rw [List.length_append] at hfits
  rw [List.length_append, List.length_drop, List.length_append] at hbytes
  omega

theorem Unrepeated.exists_outrun (h : Unrepeated src) (hsrc : src.length < 2 ^ 60) {fuel : Nat}
    (hv : v.Sound src dstLen) (hliteral : v.AllLiteral src) (hpos : v.pos < src.length)
    (hfuel : src.length < v.pos + fuel) (hloop : lzmaEncodeLoop src fuel v = .ok w)
    (hleads : (rangeChannel ProbCell dstLen).Leads w.enc (out ++ tail)) {s : PacketStream}
    (hs : s.Sound src.length)
    (hfollows : Follows src src (out ++ tail) dstLen v ((s.more tail).on src))
    {whole : List UInt8} (hdecodes : s.Decodes lzmaParams src.length whole)
    (hwhole : whole.length = src.length) : ∃ u : EncodeVars, u.Outrun src out.length := by
  have hmax : lzLenMax = 273 := rfl
  have hparams : lzmaParams.Supported := ⟨by decide, by decide, by decide⟩
  induction fuel generalizing v s with
  | zero => exact absurd hv.pos_le (by omega)
  | succ fuel ih =>
    have hlength : s.out.length = v.pos := hfollows.pos_eq
    obtain ⟨w', hloop', -, hback⟩ :=
      @lzmaEncodeLoop_ends src src dstLen le_rfl (by omega) _ _ hv hfuel
    obtain rfl := Except.ok.inj (hloop'.symm.trans hloop)
    have hleads₀ := (hback _ hleads).1
    have hrunning : v.enc.coder.overflow = false := hleads₀.overflow_eq
    by_cases hnear : src.length ≤ v.pos + lzLenMax
    · exact ⟨v, hliteral, hv.channel.1.range_ge, hrunning, hnear, hfollows.count_le hleads₀⟩
    · obtain ⟨v₁, hround, hv₁, hliteral₁, hlt⟩ := h.round_literal hv hliteral hpos hsrc
      obtain ⟨v₁', hround', -, -, hnextback⟩ :=
        @lzmaEncodeRound_next src src dstLen v hv hpos le_rfl (by omega)
      obtain rfl := Option.some.inj (Except.ok.inj (hround'.symm.trans hround))
      rw [lzmaEncodeLoop, hrunning, if_neg Bool.false_ne_true, hround'] at hloop
      obtain ⟨w₁, hloop₁, -, hback'⟩ :=
        @lzmaEncodeLoop_ends src src dstLen le_rfl (by omega) fuel _ hv₁ (by omega)
      obtain rfl := Except.ok.inj (hloop₁.symm.trans hloop)
      obtain ⟨hleads₁, -⟩ := hback' _ hleads
      obtain ⟨-, hreads⟩ := hnextback _ hleads₁
      obtain ⟨d', hdecode, hfollows₁⟩ := hreads _ hfollows
      cases hdecodes with
      | full hfull => omega
      | leave _ _ => omega
      | @next _ s₁ _ hshort hnext hrest' =>
        have hlonger := streamRound_length hparams hs hnext
        have hend := hrest'.running (by omega)
        have hmore := streamRound_more hnext hend tail
        have hsound : (s.more tail).Sound src.length := ⟨hs.state_lt, hs.length_le, hs.reps_pos⟩
        obtain ⟨r, hr, hadvance, hon⟩ := lzmaDecodeRound_on hparams hsound
          (by change s.out.length < _; omega) (by omega)
        obtain rfl := Except.ok.inj (hr.symm.trans hmore)
        obtain ⟨hs₁, -⟩ := hadvance
        have hsame := Except.ok.inj ((hon src le_rfl).symm.trans hdecode)
        obtain rfl : (s₁.more tail).on src = d' := Round.next.inj hsame
        have hlength₁ : s₁.out.length = v₁'.pos := hfollows₁.pos_eq
        have hs₁' : s₁.Sound src.length := ⟨hs₁.state_lt, hs₁.length_le, hs₁.reps_pos⟩
        exact ih hv₁ hliteral₁ (by omega) (by omega) hloop hs₁' hfollows₁ hrest'

end loop

section whole
variable {data : List UInt8} {n : Nat}

theorem WholeStream.decodes {capacity len : Nat} {payload out : List UInt8}
    (h : WholeStream capacity (lzmaHeader len true ++ payload) out) (hlen : len < 2 ^ 64 - 1) :
    (PacketStream.fresh payload).Decodes lzmaParams len out := by
  obtain ⟨header, -, hparse, -, hdecodes⟩ := h
  rw [parseLzmaHeader_lzmaHeader (by omega), if_pos (by omega), decide_eq_true (by omega)] at hparse
  obtain rfl := (Prod.mk.inj (Except.ok.inj hparse)).2
  have hdrop : (lzmaHeader len true ++ payload).drop lzmaHeaderLen = payload :=
    @List.drop_left UInt8 (lzmaHeader len true) payload
  rw [hdrop] at hdecodes
  exact hdecodes

theorem EncodeVars.Outrun.count_ge {u : EncodeVars} {count : Nat} (h : u.Outrun data count)
    (hpairs : 25 * n ≤ literalPairs data (8 * (data.length - 274))) :
    51 * n + 24 ≤ 8 * count := by
  have hmax : lzLenMax = 273 := rfl
  have hnear := h.near
  have hcount := h.count_le
  have hmore := hpairs.trans (pairCount_le (by omega : 8 * (data.length - 274) ≤ 8 * (u.pos - 1)))
  have hnarrowed := (h.literal.coded.covers h.running).le pairWeight_le (by decide)
  have hbytes := count_ge_of_narrowed h.wide hmore hnarrowed
  omega

theorem IsEncoding.lzmaCompress_cut {bytes : List UInt8} (h : IsEncoding data bytes)
    (hdata : data.length < 2 ^ 64)
    (hlong : lzmaCompressCapacity data.length - lzmaHeaderLen < bytes.length)
    (input : Allocated (lzmaCompressCapacity data.length)) :
    lzmaCompress data input = .ok (lzmaHeader data.length true ++
      bytes.take (lzmaCompressCapacity data.length - lzmaHeaderLen)) := by
  have hheader : lzmaHeaderLen = 13 := rfl
  have hencode := h (lzmaCompressCapacity data.length - lzmaHeaderLen)
  rw [if_pos hlong] at hencode
  have hwritten : (bytes.take (lzmaCompressCapacity data.length - lzmaHeaderLen)).length =
      lzmaCompressCapacity data.length - lzmaHeaderLen := List.length_take_of_le hlong.le
  have hend : input.toList.drop (lzmaHeaderLen +
      (bytes.take (lzmaCompressCapacity data.length - lzmaHeaderLen)).length) = [] :=
    List.drop_of_length_le (by rw [hwritten, input.toList_length]; omega)
  rw [lzmaCompress_eq hdata hencode, hend, ite_self, List.append_nil]

theorem fresh_follows {src out tail : List UInt8} {dstLen : Nat}
    (hrunning : (PacketStream.fresh out).dec.coder.overflow = false)
    (hleads : (rangeChannel ProbCell dstLen).Leads (Encoder.fresh dstLen) (out ++ tail)) :
    Follows src src (out ++ tail) dstLen (EncodeVars.fresh dstLen false)
      (((PacketStream.fresh out).more tail).on src) := by
  have hmore : ((PacketStream.fresh out).more tail).on src =
      DecodeVars.fresh (out ++ tail) src := by
    have hcoder := newRangeDecoder_more hrunning tail
    unfold DecodeVars.fresh Decoder.fresh
    rw [hcoder]
    rfl
  rw [hmore]
  exact ⟨⟨rfl, rfl, rfl, rfl, rfl⟩, newRangeDecoder_synced hleads, rfl⟩

section pairs
variable (h : Unrepeated data) (hdata : data.length ≤ blockSizeMax)
  (hpairs : 25 * n ≤ literalPairs data (8 * (data.length - 274)))
  (hmany : 8 * blockSizeMax ≤ 51 * n)
include h hdata hpairs hmany

theorem Unrepeated.exists_cut : ∃ bytes, IsEncoding data bytes ∧
    lzmaCompressCapacity data.length - lzmaHeaderLen < bytes.length := by
  have hmax : blockSizeMax = 2 ^ 21 := rfl
  have hcapacity := lzmaCompressCapacity_le data.length
  obtain ⟨bytes, hbytes⟩ := @exists_encoding data (by omega)
  have hlength := h.length_ge hbytes (by omega) (hpairs.trans (pairCount_le (by omega)))
  exact ⟨bytes, hbytes, by omega⟩

/-- With that many pairs among the bits of its literals, data is not what its compressed bytes are
a whole stream of. -/
theorem Unrepeated.not_whole {input : Allocated (lzmaCompressCapacity data.length)}
    {compressed : List UInt8} (hcompress : lzmaCompress data input = .ok compressed) :
    ¬ WholeStream blockSizeMax compressed data := by
  have hmax : blockSizeMax = 2 ^ 21 := rfl
  have hcache : rangeCodeCacheSizeMax = 2 ^ 64 - 1 := rfl
  have hheader : lzmaHeaderLen = 13 := rfl
  have hcapacity := lzmaCompressCapacity_le data.length
  have hpos : 0 < data.length := by
    by_contra hzero
    rw [show data.length - 274 = 0 by omega] at hpairs
    have hnone : 25 * n ≤ 0 := hpairs
    omega
  obtain ⟨bytes, hbytes, hlong⟩ := h.exists_cut hdata hpairs hmany
  have hshort := hbytes.length_le (by omega)
  -- the encoder with all the room it needs, whose bytes the compressed ones begin
  have hencode := hbytes bytes.length
  rw [if_neg (Nat.lt_irrefl _), List.take_length] at hencode
  obtain ⟨w, hloop, hw, hback⟩ := @lzmaEncodeLoop_ends data data bytes.length le_rfl (by omega)
    (data.length + 3) _ (EncodeVars.fresh_sound data _) (by omega)
  obtain ⟨hoverflow, hdst⟩ := lzmaEncode_ok hloop hencode
  have hleads := rangeEncodeTerminate_leads hw.channel.1 (by rw [hw.channel.2.1]; omega) hoverflow
  rw [hdst] at hleads
  rw [hbytes.lzmaCompress_cut (by omega) hlong] at hcompress
  obtain rfl := Except.ok.inj hcompress
  intro hwhole
  have hdecodes := hwhole.decodes (by omega)
  have hwritten : (bytes.take (lzmaCompressCapacity data.length - lzmaHeaderLen)).length =
      lzmaCompressCapacity data.length - lzmaHeaderLen := List.length_take_of_le hlong.le
  have hjoined := List.take_append_drop (lzmaCompressCapacity data.length - lzmaHeaderLen) bytes
  generalize bytes.take (lzmaCompressCapacity data.length - lzmaHeaderLen) = out at *
  generalize bytes.drop (lzmaCompressCapacity data.length - lzmaHeaderLen) = tail at *
  subst hjoined
  obtain ⟨u, hu⟩ := h.exists_outrun (by omega) (EncodeVars.fresh_sound data _)
    (EncodeVars.fresh_allLiteral data _) hpos (by omega) hloop hleads
    (PacketStream.fresh_sound data.length out)
    (fresh_follows (hdecodes.running hpos) (hback _ hleads).1) hdecodes rfl
  have hcount := hu.count_ge hpairs
  omega

end pairs

/-- What comes back from other bytes than a whole stream ends in what the buffer held. -/
theorem lzmaDecompress_not_whole {capacity : Nat} (hsize : capacity + lzLenMax < 2 ^ 64)
    (hpos : 0 < capacity) {compressed : List UInt8} (hnone : ¬ WholeStream capacity compressed data)
    {byte : UInt8} (hlast : data.getLast? ≠ some byte) :
    lzmaDecompress compressed capacity (.replicate capacity byte) ≠ .ok data := by
  intro hrun
  obtain ⟨code, out, len, hends, hruns⟩ := lzmaDecompress_eq hsize compressed
  have hle := hends.len_le
  rw [hruns, toList_replicate] at hrun
  have hdata := Except.ok.inj hrun
  obtain ⟨hwhole, rfl⟩ | ⟨-, hshort, -⟩ := hends.whole
  · rw [writeTo, List.take_left] at hdata
    exact hnone (hdata ▸ hwhole)
  · have hlt := hshort hpos
    apply hlast
    rw [← hdata, List.getLast?_take, if_neg (by omega), writeTo,
      List.getElem?_append_right (by omega), List.getElem?_drop,
      List.getElem?_replicate_of_lt (by omega)]
    rfl

end whole

end TonCompress.Lzma
