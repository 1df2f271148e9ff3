import TonCompress.Lzma.Stream

/-! More input behind the one that a decoder reads. What it decodes before it comes to the end
of its input stays the same. -/
namespace TonCompress.Lzma
open TonCompress.Lib

section decoders
variable {d d' : RangeDecoder}

def RangeDecoder.more (tail : List UInt8) (d : RangeDecoder) : RangeDecoder :=
  { d with src := d.src ++ tail }

/-- A step that goes the same way with more input, unless it has come to the end of its own. -/
def Lasting (step : RangeDecoder → RangeDecoder) : Prop :=
  ∀ d, (step d).overflow = false →
    d.overflow = false ∧ ∀ tail, step (d.more tail) = (step d).more tail

theorem Lasting.comp {step step' : RangeDecoder → RangeDecoder} (h : Lasting step)
    (h' : Lasting step') : Lasting fun d => step' (step d) := by
  intro d hd
  obtain ⟨hmiddle, hmore'⟩ := h' (step d) hd
  obtain ⟨hstart, hmore⟩ := h d hmiddle
  refine ⟨hstart, fun tail => ?_⟩
  dsimp only
  rw [hmore, hmore']

theorem rangeDecodeNormalize_lasting : Lasting rangeDecodeNormalize := by
  rintro ⟨code, range, src, overflow⟩ h
  unfold rangeDecodeNormalize RangeDecoder.more at *
  dsimp only at *
  by_cases hrange : range < rangeCodeNormalizeThreshold
  · rw [if_pos hrange] at h
    cases src with
    | nil => cases h
    | cons byte src =>
      refine ⟨h, fun tail => ?_⟩
      rw [if_pos hrange, if_pos hrange]
      rfl
  · rw [if_neg hrange] at h
    refine ⟨h, fun tail => ?_⟩
    rw [if_neg hrange, if_neg hrange]

theorem newRangeDecoder_more {src : List UInt8} (h : (newRangeDecoder src).overflow = false)
    (tail : List UInt8) : newRangeDecoder (src ++ tail) = (newRangeDecoder src).more tail := by
  have hround := rangeDecodeNormalize_lasting
  have hopen : Lasting fun d => { d with range := 0xFFFFFFFF } := fun _ h => ⟨h, fun _ => rfl⟩
  exact (((((hround.comp hround).comp hround).comp hround).comp hround).comp hopen
    ⟨0, 0, src, false⟩ h).2 tail

theorem rangeDecodeBit_more {prob : Nat} (h : (rangeDecodeBit d prob).2.1.overflow = false) :
    d.overflow = false ∧ ∀ tail, rangeDecodeBit (d.more tail) prob =
      ((rangeDecodeBit d prob).1, (rangeDecodeBit d prob).2.1.more tail,
        (rangeDecodeBit d prob).2.2) := by
  have hnormal : (rangeDecodeNormalize d).overflow = false := by
    unfold rangeDecodeBit at h
    dsimp only at h
    split at h <;> exact h
  obtain ⟨hstart, hmore⟩ := rangeDecodeNormalize_lasting d hnormal
  refine ⟨hstart, fun tail => ?_⟩
  unfold rangeDecodeBit
  dsimp only
  rw [hmore]
  unfold RangeDecoder.more
  dsimp only
  split <;> rfl

theorem rangeDecodeFixedBit_more (h : (rangeDecodeFixedBit d).2.overflow = false) :
    d.overflow = false ∧ ∀ tail, rangeDecodeFixedBit (d.more tail) =
      ((rangeDecodeFixedBit d).1, (rangeDecodeFixedBit d).2.more tail) := by
  obtain ⟨hstart, hmore⟩ := rangeDecodeNormalize_lasting d h
  refine ⟨hstart, fun tail => ?_⟩
  unfold rangeDecodeFixedBit
  dsimp only
  rw [hmore]
  rfl

end decoders

section receiving
variable {α β : Type} {receive : DecodeM α}

def Decoder.more (tail : List UInt8) (d : Decoder ProbCell) : Decoder ProbCell :=
  { d with coder := d.coder.more tail }

/-- The same of a decoder's function, with the value that it returns. -/
def Outlasts (receive : DecodeM α) : Prop :=
  ∀ d value d', receive d = .ok (value, d') → d'.coder.overflow = false →
    d.coder.overflow = false ∧ ∀ tail, receive (d.more tail) = .ok (value, d'.more tail)

theorem Outlasts.pure (value : α) : Outlasts (pure value : DecodeM α) := by
  intro d value' d' hrun hend
  obtain ⟨rfl, rfl⟩ := Prod.mk.inj (Except.ok.inj hrun)
  exact ⟨hend, fun tail => rfl⟩

theorem Outlasts.bind {next : α → DecodeM β} (h : Outlasts receive)
    (hnext : ∀ value, Outlasts (next value)) : Outlasts (receive >>= next) := by
  intro d value' d' hrun hend
  obtain ⟨⟨value, d₁⟩, hfirst, hrest⟩ := bind_eq_ok.mp (show receive d >>= _ = _ from hrun)
  obtain ⟨hmiddle, hmore'⟩ := hnext value d₁ value' d' hrest hend
  obtain ⟨hstart, hmore⟩ := h d value d₁ hfirst hmiddle
  refine ⟨hstart, fun tail => ?_⟩
  change receive (d.more tail) >>= (fun out => next out.1 out.2) = _
  rw [hmore, ok_bind]
  exact hmore' tail

theorem Outlasts.ite {cond : Prop} [Decidable cond] {receive' : DecodeM α} (h : Outlasts receive)
    (h' : Outlasts receive') : Outlasts (if cond then receive else receive') := by
  split
  · exact h
  · exact h'

theorem decodeBit_outlasts (cell : ProbCell) : Outlasts (decodeBit cell) := by
  intro d bit d' hrun hend
  unfold decodeBit at hrun
  by_cases hcell : cell.declared decodeNPosStates decodeNLitPosStates = true
  · rw [if_pos hcell] at hrun
    have hbit : ∀ d : Decoder ProbCell, d.bit cell = ((rangeDecodeBit d.coder (d.probs cell)).1,
        ⟨(rangeDecodeBit d.coder (d.probs cell)).2.1,
          Function.update d.probs cell (rangeDecodeBit d.coder (d.probs cell)).2.2⟩) := fun _ => rfl
    rw [hbit] at hrun
    obtain ⟨rfl, rfl⟩ := Prod.mk.inj (Except.ok.inj hrun)
    obtain ⟨hstart, hmore⟩ := rangeDecodeBit_more hend
    refine ⟨hstart, fun tail => ?_⟩
    unfold decodeBit
    rw [if_pos hcell, hbit]
    unfold Decoder.more
    dsimp only
    rw [hmore]
  · rw [if_neg hcell] at hrun
    cases hrun

theorem decodeFixedBit_outlasts : Outlasts decodeFixedBit := by
  intro d bit d' hrun hend
  have hbit : ∀ d : Decoder ProbCell, decodeFixedBit d =
      .ok ((rangeDecodeFixedBit d.coder).1, ⟨(rangeDecodeFixedBit d.coder).2, d.probs⟩) :=
    fun _ => rfl
  rw [hbit] at hrun
  obtain ⟨hvalue, hdec⟩ := Prod.mk.inj (Except.ok.inj hrun)
  rw [← hdec] at hend
  obtain ⟨hstart, hmore⟩ := rangeDecodeFixedBit_more hend
  refine ⟨hstart, fun tail => ?_⟩
  rw [hbit, ← hdec, ← hvalue]
  unfold Decoder.more
  dsimp only
  rw [hmore]

theorem intByFixedProb_outlasts (bitCount val : Nat) :
    Outlasts (rangeDecodeIntByFixedProbLoop bitCount val) := by
  induction bitCount generalizing val with
  | zero => exact .pure val
  | succ bitCount ih => exact decodeFixedBit_outlasts.bind fun _ => ih _

theorem int_outlasts (probs : ProbRow) (bitCount : Nat) :
    Outlasts (rangeDecodeInt probs bitCount) := by
  have hloop : ∀ n val, Outlasts (rangeDecodeIntLoop probs n val) := by
    intro n
    induction n with
    | zero => exact fun val => .pure val
    | succ n ih => exact fun val => (decodeBit_outlasts _).bind fun _ => ih _
  exact (hloop bitCount 1).bind fun _ => .pure _

theorem MB_outlasts (probs : ProbRow) (matchByte : Nat) :
    Outlasts (rangeDecodeMB probs matchByte) := by
  have hloop : ∀ n matchByte val off0, Outlasts (rangeDecodeMBLoop probs n matchByte val off0) := by
    intro n
    induction n with
    | zero => exact fun _ val _ => .pure val
    | succ n ih => exact fun _ _ _ => (decodeBit_outlasts _).bind fun _ => ih _ _ _
  exact (hloop 8 matchByte 1 0x100).bind fun _ => .pure _

theorem decodeType_outlasts (state posState : Nat) : Outlasts (decodeType state posState) := by
  have hbit := fun row => decodeBit_outlasts ⟨row, 0⟩
  have hleaf : ∀ type : PacketType, Outlasts (pure type) := fun type => .pure type
  unfold decodeType
  refine (hbit _).bind fun _ => .ite (hleaf _) ?_
  refine (hbit _).bind fun _ => .ite (hleaf _) ?_
  refine (hbit _).bind fun _ => .ite ?_ ?_
  · exact (hbit _).bind fun _ => .ite (hleaf _) (hleaf _)
  · refine (hbit _).bind fun _ => .ite (hleaf _) ?_
    exact (hbit _).bind fun _ => .ite (hleaf _) (hleaf _)

theorem decodeLiteral_outlasts (state litPosState prevByteLcMsbs matchByte : Nat) :
    Outlasts (decodeLiteral state litPosState prevByteLcMsbs matchByte) :=
  .ite (int_outlasts _ _) (MB_outlasts _ _)

theorem decodeLen_outlasts (isRep posState : Nat) : Outlasts (decodeLen isRep posState) := by
  have hbit := fun row => decodeBit_outlasts ⟨row, 0⟩
  have hint : ∀ row bitCount base, Outlasts (do return base + (← rangeDecodeInt row bitCount)) :=
    fun row bitCount base => (int_outlasts row bitCount).bind fun _ => .pure _
  unfold decodeLen
  refine (hbit _).bind fun _ => .ite (hint _ _ _) ?_
  exact (hbit _).bind fun _ => .ite (hint _ _ _) (hint _ _ _)

theorem decodeDist_outlasts (len : Nat) : Outlasts (decodeDist len) := by
  unfold decodeDist
  refine (int_outlasts _ _).bind fun distSlot => .ite ?_ (.ite ?_ (.pure _))
  · refine (intByFixedProb_outlasts _ _).bind fun _ => ?_
    exact (int_outlasts _ _).bind fun _ => .pure _
  · exact (int_outlasts _ _).bind fun _ => .pure _

theorem decodePrevByte_outlasts (params : LzmaParams) (type : PacketType) (v : DecodeVars) :
    Outlasts fun dec => decodePrevByte params type { v with dec } := by
  by_cases hlit : type = .pktLit
  · have hread : ∃ matchByte : LzmaExec UInt8, ∀ dec, decodePrevByte params type { v with dec } =
        matchByte >>= fun matchByte => decodeLiteral v.state (((1 <<< params.lp) - 1) &&& v.pos)
            (((1 <<< params.lc) - 1) &&& (v.prevByte.toNat >>> (8 - params.lc))) matchByte.toNat dec
          >>= fun out => .ok (UInt8.ofNat out.1, out.2) := by
      refine ⟨if v.state < nLitStates then pure 0
        else if v.pos ≥ v.reps.rep0 then vecGet .dst v.dst ((v.pos : Int) - v.reps.rep0)
        else pure 0, fun dec => ?_⟩
      unfold decodePrevByte
      dsimp only
      rw [if_pos hlit]
      split_ifs <;> rfl
    obtain ⟨matchByte, hread⟩ := hread
    rw [funext hread]
    cases matchByte with
    | error stop =>
      intro d value d' hrun
      cases hrun
    | ok matchByte =>
      exact (decodeLiteral_outlasts v.state _ _ matchByte.toNat).bind fun literal =>
        .pure (UInt8.ofNat literal)
  · have hsame : (fun dec => decodePrevByte params type { v with dec }) =
        (pure v.prevByte : DecodeM UInt8) := by
      funext dec
      unfold decodePrevByte
      dsimp only
      rw [if_neg hlit]
      rfl
    rw [hsame]
    exact .pure _

theorem decodeLenDist_outlasts (params : LzmaParams) (type : PacketType) (v : DecodeVars) :
    Outlasts fun dec => decodeLenDist params type { v with dec } := by
  have hlen := fun isRep => decodeLen_outlasts isRep (((1 <<< params.pb) - 1) &&& v.pos)
  have hrep : ∀ dist : Nat, Outlasts (decodeLen 1 (((1 <<< params.pb) - 1) &&& v.pos) >>=
      fun len => pure (len, dist)) := fun dist => (hlen 1).bind fun _ => .pure _
  cases type with
  | pktLit => exact .pure (1, v.reps.dist .pktLit)
  | pktShortRep => exact .pure (1, v.reps.dist .pktShortRep)
  | pktMatch =>
    exact (hlen 0).bind fun len => (decodeDist_outlasts len).bind fun dist => .pure (len, dist)
  | pktRep0 => exact hrep (v.reps.dist .pktRep0)
  | pktRep1 => exact hrep (v.reps.dist .pktRep1)
  | pktRep2 => exact hrep (v.reps.dist .pktRep2)
  | pktRep3 => exact hrep (v.reps.dist .pktRep3)

theorem decodePacket_outlasts (params : LzmaParams) (v : DecodeVars) :
    Outlasts (decodePacket params v) :=
  (decodeType_outlasts _ _).bind fun type =>
    (decodePrevByte_outlasts params type v).bind fun _ =>
      (decodeLenDist_outlasts params type v).bind fun _ => .pure _

end receiving

section rounds
variable {params : LzmaParams} {dstLen : Nat} {s s' : PacketStream}

def PacketStream.more (tail : List UInt8) (s : PacketStream) : PacketStream :=
  { s with dec := s.dec.more tail }

theorem PacketStream.append_more {type : PacketType} {prevByte : UInt8} {len dist : Nat}
    (h : s.append dstLen type prevByte len dist = .next s') :
    s'.dec = s.dec ∧ ∀ tail,
      (s.more tail).append dstLen type prevByte len dist = .next (s'.more tail) := by
  unfold PacketStream.append PacketStream.more at *
  dsimp only
  by_cases hfar : dist > s.out.length
  · rw [if_pos hfar] at h
    cases h
  · rw [if_neg hfar] at h
    by_cases hover : s.out.length + len > dstLen
    · rw [if_pos hover] at h
      cases h
    · rw [if_neg hover] at h
      by_cases hlit : type = .pktLit
      · rw [if_pos hlit] at h
        cases h
        exact ⟨rfl, fun tail => by rw [if_neg hfar, if_neg hover, if_pos hlit]⟩
      · rw [if_neg hlit] at h
        cases h
        exact ⟨rfl, fun tail => by rw [if_neg hfar, if_neg hover, if_neg hlit]⟩

/-- What a round does with the packet that it has read. -/
def PacketStream.finish (dstLen : Nat) (s : PacketStream) (type : PacketType) (prevByte : UInt8)
    (len dist : Nat) : Round PacketStream :=
  if type = .pktMatch then
    if dist = 0xFFFFFFFF then .leave s
    else s.append dstLen type prevByte len ((dist + 1) % 2 ^ 32)
  else s.append dstLen type prevByte len dist

theorem PacketStream.finish_more {type : PacketType} {prevByte : UInt8} {len dist : Nat}
    (h : s.finish dstLen type prevByte len dist = .next s') :
    s'.dec = s.dec ∧ ∀ tail,
      (s.more tail).finish dstLen type prevByte len dist = .next (s'.more tail) := by
  unfold PacketStream.finish at *
  by_cases hmatch : type = .pktMatch
  · simp only [if_pos hmatch] at h ⊢
    by_cases hmark : dist = 0xFFFFFFFF
    · rw [if_pos hmark] at h
      cases h
    · simp only [if_neg hmark] at h ⊢
      exact append_more h
  · simp only [if_neg hmatch] at h ⊢
    exact append_more h

theorem streamRound_eq (params : LzmaParams) (dstLen : Nat) (s : PacketStream) :
    streamRound params dstLen s =
      if s.dec.coder.overflow then .ok (.ret .errInputOverflow s)
      else decodePacket params (s.on []) s.dec >>= fun out =>
        .ok ((s.read out.1.1 out.2).finish dstLen out.1.1 out.1.2.1 out.1.2.2.1 out.1.2.2.2) := by
  unfold streamRound PacketStream.finish
  split
  · rfl
  · apply bind_congr
    rintro ⟨⟨type, prevByte, len, dist⟩, dec⟩
    dsimp only
    split_ifs <;> rfl

theorem streamRound_running {round : Round PacketStream}
    (hround : streamRound params dstLen s = .ok round) (hret : ∀ code s', round ≠ .ret code s') :
    s.dec.coder.overflow = false := by
  rw [streamRound_eq] at hround
  cases hover : s.dec.coder.overflow with
  | false => rfl
  | true =>
    rw [hover, if_pos rfl] at hround
    exact absurd (Except.ok.inj hround).symm (hret _ _)

theorem streamRound_more (hround : streamRound params dstLen s = .ok (.next s'))
    (hend : s'.dec.coder.overflow = false) (tail : List UInt8) :
    streamRound params dstLen (s.more tail) = .ok (.next (s'.more tail)) := by
  have hstart := streamRound_running hround nofun
  rw [streamRound_eq, hstart, if_neg Bool.false_ne_true] at hround
  obtain ⟨⟨⟨type, prevByte, len, dist⟩, dec⟩, hpacket, hwrite⟩ := bind_eq_ok.mp hround
  obtain ⟨hdec, hnext⟩ := PacketStream.finish_more (Except.ok.inj hwrite)
  rw [hdec] at hend
  obtain ⟨-, hmore⟩ := decodePacket_outlasts params (s.on []) s.dec _ _ hpacket hend
  have hrunning : (s.more tail).dec.coder.overflow = false := hstart
  have hsame : decodePacket params ((s.more tail).on []) = decodePacket params (s.on []) := rfl
  rw [streamRound_eq, hrunning, if_neg Bool.false_ne_true, hsame]
  change decodePacket params (s.on []) (s.dec.more tail) >>= _ = _
  rw [hmore tail, ok_bind]
  exact congrArg Except.ok (hnext tail)

end rounds

end TonCompress.Lzma
