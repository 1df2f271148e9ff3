import TonCompress.Lib.Halting
import TonCompress.Lzma.RoundTrip
import TonCompress.Lzma.Stream
import Mathlib.Logic.Relation

/-! The decoder on input of any origin: it ends, and stays inside its arrays. -/
namespace TonCompress.Lzma
open TonCompress.Lib

def DecodeStep (params : LzmaParams) (dstLen : Nat) (v w : DecodeVars) : Prop :=
  v.pos < dstLen ∧ lzmaDecodeRound params dstLen v = .ok (.next w)

abbrev DecodeReached (params : LzmaParams) (dstLen : Nat) (src dst : List UInt8) :
    DecodeVars → Prop :=
  Relation.ReflTransGen (DecodeStep params dstLen) (.fresh src dst)

/-- The round from `v` runs the copy loop on `w`. A literal is written to the
position before the loop reads it there, with distance zero. -/
structure CopyRound (params : LzmaParams) (dstLen : Nat) (v : DecodeVars) (type : PacketType)
    (len dist : Nat) (w : DecodeVars) : Prop where
  round_eq : lzmaDecodeRound params dstLen v = copyLoop dist len w >>= fun v' => .ok (.next v')
  pos_eq : w.pos = v.pos
  len_pos : 1 ≤ len
  fits : v.pos + len ≤ dstLen
  copy : type ≠ .pktLit → 1 ≤ dist ∧ dist ≤ v.pos ∧ w.dst = v.dst
  literal : type = .pktLit → len = 1 ∧ dist = 0 ∧ w.dst = v.dst.set v.pos w.prevByte

section rounds
variable {params : LzmaParams} {dstLen : Nat} {s : PacketStream} {src dst : List UInt8}

theorem CopyRound.of_write {v d : DecodeVars} {type : PacketType} {len dist : Nat}
    (hround : lzmaDecodeRound params dstLen v = writePacket dstLen type len dist d)
    (hpos : d.pos = v.pos) (hdst : d.dst = v.dst) (hroom : v.pos < v.dst.length)
    (hlow : 1 ≤ len) (hnear : dist ≤ v.pos) (hfits : v.pos + len ≤ dstLen)
    (hsize : dstLen < 2 ^ 64) (hlit : type = .pktLit → len = 1 ∧ dist = 0)
    (hdist : type ≠ .pktLit → 1 ≤ dist) : ∃ w, CopyRound params dstLen v type len dist w := by
  unfold writePacket at hround
  rw [hpos, if_neg (Nat.not_lt.mpr hnear), Nat.mod_eq_of_lt (by omega),
    if_neg (Nat.not_lt.mpr hfits)] at hround
  by_cases heq : type = .pktLit
  · have hset : vecSet Site.dst d.dst (v.pos : Int) d.prevByte =
        .ok (d.dst.set v.pos d.prevByte) := vecSet_natCast _ _ _ _ (hdst ▸ hroom)
    rw [if_pos heq, hset] at hround
    exact ⟨{ d with pos := v.pos, dst := d.dst.set v.pos d.prevByte },
      ⟨hround, rfl, hlow, hfits, fun hne => absurd heq hne,
        fun _ => ⟨(hlit heq).1, (hlit heq).2, hdst ▸ rfl⟩⟩⟩
  · rw [if_neg heq] at hround
    exact ⟨{ d with pos := v.pos, reps := { d.reps with rep0 := dist } },
      ⟨hround, rfl, hlow, hfits, fun _ => ⟨hdist heq, hnear, hdst⟩, fun h => absurd h heq⟩⟩

theorem DecodeReached.on (hparams : params.Supported) (hroom : dstLen ≤ dst.length)
    (hsize : dstLen + lzLenMax < 2 ^ 64) {v : DecodeVars}
    (h : DecodeReached params dstLen src dst v) :
    ∃ s : PacketStream, s.Sound dstLen ∧ v = s.on dst := by
  induction h with
  | refl => exact ⟨.fresh src, PacketStream.fresh_sound dstLen src, rfl⟩
  | tail _ hstep ih =>
    obtain ⟨s, hs, rfl⟩ := ih
    obtain ⟨hlt, hround⟩ := hstep
    obtain ⟨r, -, hadvance, hon⟩ := lzmaDecodeRound_on hparams hs hlt hsize
    rw [hon dst hroom] at hround
    cases r with
    | next s' =>
      cases hround
      exact ⟨s', hadvance.1, rfl⟩
    | leave s' => cases hround
    | ret code s' => cases hround

theorem lzmaDecodeRound_copies (hparams : params.Supported) (hs : s.Sound dstLen)
    (hlt : s.out.length < dstLen) (hroom : dstLen ≤ dst.length)
    (hsize : dstLen + lzLenMax < 2 ^ 64) :
    (∃ w, lzmaDecodeRound params dstLen (s.on dst) = .ok (.leave w)) ∨
      (∃ code w, lzmaDecodeRound params dstLen (s.on dst) = .ok (.ret code w)) ∨
      ∃ type len dist w, CopyRound params dstLen (s.on dst) type len dist w := by
  obtain ⟨-, hround⟩ | ⟨s', -, -, hround⟩ | ⟨s', type, prevByte, len, dist, hwrite, -, hround⟩ :=
    @streamRound_cases params dstLen s hparams hs
  · exact .inr (.inl ⟨_, _, hround dst⟩)
  · exact .inl ⟨_, hround dst⟩
  · right
    have hhigh := hwrite.len_le
    have hpos : s'.out.length = s.out.length := congrArg List.length hwrite.out_eq
    have hdst : (s'.on dst).dst = (s.on dst).dst := congrArg (writeTo dst) hwrite.out_eq
    by_cases hfar : dist > s'.out.length
    · refine .inl ⟨.errData, { s'.on dst with prevByte }, ?_⟩
      rw [hround, writePacket]
      exact if_pos hfar
    · by_cases hover : s'.out.length + len > dstLen
      · refine .inl ⟨.errOutputOverflow, { s'.on dst with prevByte }, ?_⟩
        rw [hround, writePacket]
        exact (if_neg hfar).trans (if_pos (by rw [PacketStream.on_pos]; omega))
      · have hfits : s.out.length < (s.on dst).dst.length := by
          rw [hs.length_on hroom]
          exact hlt.trans_le hroom
        obtain ⟨w, hcopy⟩ := CopyRound.of_write (hround dst) hpos hdst hfits hwrite.len_pos
          (by rw [PacketStream.on_pos]; omega) (by rw [PacketStream.on_pos]; omega) (by omega)
          hwrite.literal fun hne => (hwrite.copy hne).2
        exact .inr ⟨type, len, dist, w, hcopy⟩

end rounds

section whole
variable {src dst : List UInt8}

theorem headerLen_returns (h : lzmaHeaderLen ≤ src.length) :
    Returns (headerLen src) fun _ => True := by
  unfold headerLen
  apply forRange_ends (fun _ _ => True) (Nat.zero_le 8) trivial
  intro i len _ hi _
  have hbyte : 5 + i < src.length := by
    unfold lzmaHeaderLen at h
    omega
  rw [readSrc_eq hbyte]
  trivial

theorem supported_of_check (header : LzmaHeader) :
    Returns (if header.params.lc > maxLc ∨ header.params.lp > maxLp ∨ header.params.pb > maxPb then
        pure (.errUnsupported, header)
      else pure (.ok, header) : LzmaExec (Ret × LzmaHeader))
      fun out => out.1 = .ok → out.2.params.Supported := by
  by_cases hbad : header.params.lc > maxLc ∨ header.params.lp > maxLp ∨ header.params.pb > maxPb
  · rw [if_pos hbad]
    exact nofun
  · rw [if_neg hbad]
    intro _
    exact ⟨by dsimp only; omega, by dsimp only; omega, by dsimp only; omega⟩

theorem parseLzmaHeader_returns (h : lzmaHeaderLen ≤ src.length) :
    Returns (parseLzmaHeader src) fun out => out.1 = .ok → out.2.params.Supported := by
  have hlength : 13 ≤ src.length := h
  have hfirst := @readSrc_eq src 0 (by omega)
  rw [Nat.cast_zero] at hfirst
  unfold parseLzmaHeader
  rw [hfirst, ok_bind]
  apply Ends.seq fun _ => True
  · apply forRange_ends (fun _ _ => True) (Nat.zero_le 8) trivial
    intro i known _ hi _
    rw [readSrc_eq (by omega : 5 + i < src.length)]
    trivial
  · intro known _
    let params : LzmaParams := ⟨src[0].toNat % 9, src[0].toNat / 9 % 5, src[0].toNat / 9 / 5⟩
    cases known with
    | false => exact supported_of_check ⟨params, 0, false⟩
    | true => exact (headerLen_returns h).bind fun len _ => supported_of_check ⟨params, len, true⟩

def LzmaHeader.dstLen (header : LzmaHeader) (capacity : Nat) : Nat :=
  if header.uncompressedLenKnown then header.uncompressedLen else capacity

/-- `src` is a header and a stream that decodes to `out`, of no more than
`capacity` bytes. -/
def WholeStream (capacity : Nat) (src out : List UInt8) : Prop :=
  ∃ header, lzmaHeaderLen ≤ src.length ∧ parseLzmaHeader src = .ok (.ok, header) ∧
    header.dstLen capacity ≤ capacity ∧
    (PacketStream.fresh (src.drop lzmaHeaderLen)).Decodes header.params (header.dstLen capacity) out

theorem WholeStream.unique {capacity : Nat} {src out out' : List UInt8}
    (h : WholeStream capacity src out) (h' : WholeStream capacity src out') : out = out' := by
  obtain ⟨header, -, hparse, -, hdecodes⟩ := h
  obtain ⟨header', -, hparse', -, hdecodes'⟩ := h'
  cases hparse.symm.trans hparse'
  exact hdecodes.unique hdecodes'

/-- The length that the header announces, or the capacity if it announces none or is not
accepted. -/
def announcedLen (capacity : Nat) (src : List UInt8) : Nat :=
  if src.length < lzmaHeaderLen then capacity
  else
    match parseLzmaHeader src with
    | .ok (.ok, header) =>
        if header.dstLen capacity ≤ capacity then header.dstLen capacity else capacity
    | _ => capacity

/-- One outcome of a call on all buffers of a length. -/
structure CallEnds (capacity : Nat) (src : List UInt8) (code : Ret) (out : List UInt8) (len : Nat) :
    Prop where
  length_le : out.length ≤ len
  len_le : len ≤ capacity
  /-- the output of a whole stream, or else more than what was written -/
  whole : WholeStream capacity src out ∧ len = out.length ∨
    (∀ out, ¬ WholeStream capacity src out) ∧ (0 < capacity → out.length < len) ∧
      len = announcedLen capacity src
  run : ∀ dst, dst.length = capacity → tinyLzmaDecompress src dst = .ok ⟨code, writeTo dst out, len⟩

theorem CallEnds.early {capacity : Nat} {src : List UInt8} {code : Ret}
    (hnone : ∀ out, ¬ WholeStream capacity src out) (hlen : announcedLen capacity src = capacity)
    (hrun : ∀ dst, dst.length = capacity → tinyLzmaDecompress src dst = .ok ⟨code, dst, dst.length⟩) :
    CallEnds capacity src code [] capacity := by
  refine ⟨Nat.zero_le _, le_rfl, .inr ⟨hnone, id, hlen.symm⟩, fun dst hdst => ?_⟩
  rw [hrun dst hdst, hdst]
  rfl

theorem tinyLzmaDecompress_short {capacity : Nat} {src : List UInt8}
    (hshort : src.length < lzmaHeaderLen) :
    CallEnds capacity src .errInputOverflow [] capacity := by
  refine .early ?_ (if_pos hshort) fun dst _ => ?_
  · rintro out ⟨header, hlong, -⟩
    omega
  · unfold tinyLzmaDecompress tinyLzmaDecompressMalloc
    rw [if_pos hshort]
    rfl

section accepted
variable {capacity : Nat} {src : List UInt8} {header : LzmaHeader}

theorem tinyLzmaDecompress_refused {ret : Ret} (hlong : lzmaHeaderLen ≤ src.length)
    (hparse : parseLzmaHeader src = .ok (ret, header)) (hret : ret ≠ .ok) :
    CallEnds capacity src ret [] capacity := by
  have hshort := Nat.not_lt.mpr hlong
  refine .early ?_ ?_ fun dst _ => ?_
  · rintro out ⟨header', -, hparse', -⟩
    cases hparse.symm.trans hparse'
    exact hret rfl
  · unfold announcedLen
    rw [if_neg hshort, hparse]
    cases ret <;> first | rfl | exact absurd rfl hret
  · unfold tinyLzmaDecompress tinyLzmaDecompressMalloc
    rw [if_neg hshort, hparse, ok_bind]
    exact if_pos hret

theorem announcedLen_accepted (hlong : lzmaHeaderLen ≤ src.length)
    (hparse : parseLzmaHeader src = .ok (.ok, header)) :
    announcedLen capacity src =
      if header.dstLen capacity ≤ capacity then header.dstLen capacity else capacity := by
  unfold announcedLen
  rw [if_neg (Nat.not_lt.mpr hlong), hparse]

theorem LzmaHeader.over_iff (header : LzmaHeader) (capacity : Nat) :
    (header.uncompressedLenKnown = true ∧ header.uncompressedLen > capacity) ↔
      ¬ header.dstLen capacity ≤ capacity := by
  unfold LzmaHeader.dstLen
  cases header.uncompressedLenKnown <;> simp

theorem tinyLzmaDecompress_over (hlong : lzmaHeaderLen ≤ src.length)
    (hparse : parseLzmaHeader src = .ok (.ok, header)) (hover : ¬ header.dstLen capacity ≤ capacity) :
    CallEnds capacity src .errOutputOverflow [] capacity := by
  refine .early ?_ ?_ fun dst hdst => ?_
  · rintro out ⟨header', -, hparse', hfits, -⟩
    cases hparse.symm.trans hparse'
    exact hover hfits
  · rw [announcedLen_accepted hlong hparse, if_neg hover]
  · subst hdst
    unfold tinyLzmaDecompress tinyLzmaDecompressMalloc
    rw [if_neg (Nat.not_lt.mpr hlong), hparse, ok_bind]
    dsimp only
    rw [if_neg (not_not_intro rfl), if_pos ((header.over_iff dst.length).mpr hover)]
    rfl

theorem tinyLzmaDecompress_decoded (hsize : capacity + lzLenMax < 2 ^ 64)
    (hlong : lzmaHeaderLen ≤ src.length) (hparse : parseLzmaHeader src = .ok (.ok, header))
    (hparams : header.params.Supported) (hfits : header.dstLen capacity ≤ capacity) :
    ∃ code out len, CallEnds capacity src code out len := by
  obtain ⟨code, out, hle, hends, hrun⟩ :=
    @lzmaDecode_on header.params (header.dstLen capacity) hparams (by omega) (src.drop lzmaHeaderLen)
  have hcall : ∀ dst, dst.length = capacity → tinyLzmaDecompress src dst =
      if code = .ok ∧ header.uncompressedLenKnown = true ∧ header.uncompressedLen ≠
        (if code = .ok then out.length else header.dstLen capacity) then
        .ok ⟨.errOutputLenMismatch, writeTo dst out,
          if code = .ok then out.length else header.dstLen capacity⟩
      else .ok ⟨code, writeTo dst out,
        if code = .ok then out.length else header.dstLen capacity⟩ := by
    intro dst hdst
    subst hdst
    unfold tinyLzmaDecompress tinyLzmaDecompressMalloc
    rw [if_neg (Nat.not_lt.mpr hlong), hparse, ok_bind]
    dsimp only
    rw [if_neg (not_not_intro rfl), if_neg (fun h => (header.over_iff _).mp h hfits)]
    change lzmaDecode _ dst (header.dstLen dst.length) header.params >>= _ = _
    rw [hrun dst hfits, ok_bind]
    rfl
  obtain ⟨rfl, hdecodes⟩ | ⟨hcode, hless, hnone⟩ := hends
  · simp only [if_true, true_and] at hcall
    refine ⟨if header.uncompressedLenKnown = true ∧ header.uncompressedLen ≠ out.length then
      .errOutputLenMismatch else .ok, out, out.length, le_rfl, hle.trans hfits,
      .inl ⟨⟨header, hlong, hparse, hfits, hdecodes⟩, rfl⟩, fun dst hdst => ?_⟩
    rw [hcall dst hdst]
    split <;> rfl
  · refine ⟨code, out, header.dstLen capacity, hle, hfits, .inr ⟨?_, fun _ => hless, ?_⟩,
      fun dst hdst => ?_⟩
    · rintro out ⟨header', -, hparse', -, hdecodes⟩
      cases hparse.symm.trans hparse'
      exact hnone out hdecodes
    · rw [announcedLen_accepted hlong hparse, if_pos hfits]
    · rw [hcall dst hdst, if_neg (fun h => hcode h.1), if_neg hcode]

end accepted

theorem tinyLzmaDecompress_on {capacity : Nat} (hsize : capacity + lzLenMax < 2 ^ 64)
    (src : List UInt8) : ∃ code out len, CallEnds capacity src code out len := by
  by_cases hshort : src.length < lzmaHeaderLen
  · exact ⟨_, _, _, tinyLzmaDecompress_short hshort⟩
  · have hlong := Nat.not_lt.mp hshort
    obtain ⟨⟨ret, header⟩, hparse, hparams⟩ := returns_iff.mp (parseLzmaHeader_returns hlong)
    by_cases hret : ret = .ok
    · subst hret
      by_cases hfits : header.dstLen capacity ≤ capacity
      · exact tinyLzmaDecompress_decoded hsize hlong hparse (hparams rfl) hfits
      · exact ⟨_, _, _, tinyLzmaDecompress_over hlong hparse hfits⟩
    · exact ⟨_, _, _, tinyLzmaDecompress_refused hlong hparse hret⟩

/-- The decoder on any input: the call returns, with a length inside the buffer,
so no access went out of range. Wherever its loop comes, the state is one of the
twelve and the position inside the length; a round leaves, returns a code, or
copies within bounds, and one that stays in the loop moves the position on. -/
theorem tinyLzmaDecompress_safe (src dst : List UInt8) (hsize : dst.length + lzLenMax < 2 ^ 64) :
    (∃ w, tinyLzmaDecompress src dst = .ok w ∧ w.dst.length = dst.length ∧
      w.dstLen ≤ dst.length) ∧
    ∀ header v, lzmaHeaderLen ≤ src.length → parseLzmaHeader src = .ok (.ok, header) →
      header.dstLen dst.length ≤ dst.length →
      DecodeReached header.params (header.dstLen dst.length) (src.drop lzmaHeaderLen) dst v →
      v.state ≤ 11 ∧ v.pos ≤ header.dstLen dst.length ∧ v.dst.length = dst.length ∧
      (v.pos < header.dstLen dst.length →
        ((∃ w, lzmaDecodeRound header.params (header.dstLen dst.length) v = .ok (.leave w)) ∨
          (∃ code w, lzmaDecodeRound header.params (header.dstLen dst.length) v =
            .ok (.ret code w)) ∨
          ∃ type len dist w,
            CopyRound header.params (header.dstLen dst.length) v type len dist w) ∧
        ∀ w, lzmaDecodeRound header.params (header.dstLen dst.length) v = .ok (.next w) →
          v.pos + 1 ≤ w.pos) := by
  constructor
  · obtain ⟨code, out, len, hends⟩ := tinyLzmaDecompress_on hsize src
    exact ⟨_, hends.run dst rfl, length_writeTo (hends.length_le.trans hends.len_le), hends.len_le⟩
  · intro header v hlong hparse hfits hreached
    have hparams : header.params.Supported :=
      (parseLzmaHeader_returns hlong).of_ok hparse rfl
    have hsize' : header.dstLen dst.length + lzLenMax < 2 ^ 64 := by omega
    obtain ⟨s, hs, rfl⟩ := hreached.on hparams hfits hsize'
    refine ⟨Nat.le_of_lt_succ hs.state_lt, hs.length_le, hs.length_on hfits, fun hlt => ⟨?_, ?_⟩⟩
    · exact lzmaDecodeRound_copies hparams hs hlt hfits hsize'
    · intro w hround
      obtain ⟨r, -, hadvance, hon⟩ := lzmaDecodeRound_on hparams hs hlt hsize'
      rw [hon dst hfits] at hround
      cases r with
      | next s' =>
        cases hround
        exact hadvance.2
      | leave s' => cases hround
      | ret code s' => cases hround

def decodeNext (params : LzmaParams) (dstLen : Nat) (v : DecodeVars) : LzmaExec DecodeVars :=
  if v.pos < dstLen then do
    match ← lzmaDecodeRound params dstLen v with
    | .next w => return w
    | .leave _ => .error .outOfFuel
    | .ret _ _ => .error .outOfFuel
  else .error .outOfFuel

theorem decodeNext_step {params : LzmaParams} {dstLen : Nat} {v w : DecodeVars}
    (h : decodeNext params dstLen v = .ok w) : DecodeStep params dstLen v w := by
  unfold decodeNext at h
  by_cases hlt : v.pos < dstLen
  · rw [if_pos hlt] at h
    obtain ⟨r, hround, hnext⟩ := bind_eq_ok.mp h
    cases r with
    | next w' =>
      cases hnext
      exact ⟨hlt, hround⟩
    | leave w' => cases hnext
    | ret code w' => cases hnext
  · rw [if_neg hlt] at h
    cases h

/-- Fourteen rounds into the stream a match of eight bytes is read, with a distance of nine. -/
theorem deferredStream_copies :
    ∃ v w, DecodeReached lzmaParams 28 ((deferredStream.take 35).drop lzmaHeaderLen)
        (List.replicate 30 0) v ∧
      v.pos = 13 ∧ lzmaDecodeRound lzmaParams 28 v = .ok (.next w) ∧ w.pos = 21 := by
  let run := runUntil (fun v => v.pos = 13) (decodeNext lzmaParams 28) 20
    (.fresh ((deferredStream.take 35).drop lzmaHeaderLen) (List.replicate 30 0))
  have hpos : ((run >>= decodeNext lzmaParams 28).toOption.map (·.pos)) = some 21 := by
    decide +kernel
  obtain ⟨w, hrun, hpos⟩ := Option.map_eq_some_iff.mp hpos
  cases hsteps : run >>= decodeNext lzmaParams 28 with
  | error reason => rw [hsteps] at hrun; cases hrun
  | ok w' =>
    rw [hsteps] at hrun
    obtain rfl := Option.some.inj hrun
    obtain ⟨v, hv, hnext⟩ := bind_eq_ok.mp hsteps
    obtain ⟨hreach, hfinal⟩ := runUntil_reaches hv
    exact ⟨v, w', Relation.ReflTransGen.mono (fun _ _ => decodeNext_step) _ _ hreach, hfinal,
      (decodeNext_step hnext).2, hpos⟩

theorem tinyLzmaDecompress_safe_deferred :
    (∃ w, tinyLzmaDecompress (deferredStream.take 35) (List.replicate 30 0) = .ok w ∧
      w.dst.length = 30 ∧ w.dstLen ≤ 30) ∧
    ∃ v w, DecodeReached lzmaParams 28 ((deferredStream.take 35).drop lzmaHeaderLen)
        (List.replicate 30 0) v ∧
      v.pos = 13 ∧ v.state ≤ 11 ∧ v.dst.length = 30 ∧
      lzmaDecodeRound lzmaParams 28 v = .ok (.next w) ∧ w.pos = 21 ∧ v.pos + 1 ≤ w.pos ∧
      ∃ type len dist d, CopyRound lzmaParams 28 v type len dist d := by
  obtain ⟨hcall, hrounds⟩ :=
    tinyLzmaDecompress_safe (deferredStream.take 35) (List.replicate 30 0) (by decide)
  obtain ⟨v, w, hreached, hpos, hround, hnext⟩ := deferredStream_copies
  obtain ⟨hstate, -, hlength, hcopies⟩ :=
    hrounds ⟨lzmaParams, 28, true⟩ v (by decide) rfl (by decide) hreached
  obtain ⟨hends, hadvance⟩ := hcopies (hpos ▸ (by decide : 13 < 28))
  refine ⟨hcall, v, w, hreached, hpos, hstate, hlength, hround, hnext, hadvance w hround, ?_⟩
  obtain ⟨d, hleave⟩ | ⟨code, d, hret⟩ | hcopy := hends
  · exact absurd (hround.symm.trans hleave) (by simp)
  · exact absurd (hround.symm.trans hret) (by simp)
  · exact hcopy

end whole

section literal

/-- A header that announces one byte, and a stream of zeros: a literal. -/
def zeroByte : List UInt8 := [8, 0, 0, 0, 64, 1, 0, 0, 0, 0, 0, 0, 0, 0, 0, 0, 0, 0]

theorem decodePacket_type {params : LzmaParams} {v : DecodeVars} {d d' : Decoder ProbCell}
    {packet : PacketType × UInt8 × Nat × Nat} (h : decodePacket params v d = .ok (packet, d')) :
    ∃ d₁, decodeType v.state (((1 <<< params.pb) - 1) &&& v.pos) d = .ok (packet.1, d₁) := by
  obtain ⟨⟨type, d₁⟩, htype, h⟩ := bind_eq_ok.mp h
  obtain ⟨⟨prevByte, d₂⟩, -, h⟩ := bind_eq_ok.mp h
  obtain ⟨⟨lenDist, d₃⟩, -, h⟩ := bind_eq_ok.mp h
  cases h
  exact ⟨d₁, htype⟩

/-- The copy loop of a literal reads the position that it writes. -/
theorem literal_copied_in_place :
    parseLzmaHeader zeroByte = .ok (.ok, ⟨lzmaParams, 1, true⟩) ∧
      ¬ ∀ v type len dist w,
        DecodeReached lzmaParams 1 (zeroByte.drop lzmaHeaderLen) [7] v →
        CopyRound lzmaParams 1 v type len dist w → (w.pos : Int) - dist ≤ w.pos - 1 := by
  refine ⟨rfl, fun hback => ?_⟩
  have hparams : lzmaParams.Supported := ⟨by decide, by decide, by decide⟩
  obtain ⟨type, prevByte, len, dist, dec, hread, hpacket⟩ :=
    decodePacket_on (PacketStream.fresh_sound 1 (zeroByte.drop lzmaHeaderLen)) hparams
  obtain ⟨d₁, htype⟩ := decodePacket_type (hpacket [7])
  have hfirst : decodeType 0 0 (.fresh [0, 0, 0, 0, 0]) =
      .ok (.pktLit, (Decoder.bit ⟨.isMatch 0 0, 0⟩ (.fresh [0, 0, 0, 0, 0])).2) := rfl
  obtain rfl : PacketType.pktLit = type := congrArg Prod.fst (Except.ok.inj (hfirst.symm.trans htype))
  obtain ⟨rfl, rfl⟩ := hread.literal rfl
  have hround : lzmaDecodeRound lzmaParams 1 (.fresh [0, 0, 0, 0, 0] [7]) =
      writePacket 1 .pktLit 1 0 ((DecodeVars.fresh [0, 0, 0, 0, 0] [7]).read .pktLit prevByte dec) := by
    have hnormal : (DecodeVars.fresh [0, 0, 0, 0, 0] [7]).dec.coder.overflow = false := rfl
    rw [lzmaDecodeRound_eq, hnormal, if_neg Bool.false_ne_true]
    exact congrArg (· >>= _) (hpacket [7])
  obtain ⟨w, hcopy⟩ := CopyRound.of_write hround rfl rfl Nat.one_pos le_rfl le_rfl le_rfl
    (by decide) hread.literal fun hne => absurd rfl hne
  have hpos : w.pos = 0 := hcopy.pos_eq
  have hbelow := hback _ _ _ _ w .refl hcopy
  rw [hpos] at hbelow
  exact absurd hbelow (by decide)

end literal

end TonCompress.Lzma
