import TonCompress.Lzma.Transmit
import TonCompress.Lzma.Match

/-! A packet of the encoder is read back by the decoder, with the literal, the
length and the distance that the encoder chose. -/
namespace TonCompress.Lzma
open TonCompress.Lib

/-- The parameters that the header of the encoder holds. -/
def lzmaParams : LzmaParams := ⟨lcParam, lpParam, pbParam⟩

def decodePacket (params : LzmaParams) (v : DecodeVars) :
    DecodeM (PacketType × UInt8 × Nat × Nat) := do
  let type ← decodeType v.state (((1 <<< params.pb) - 1) &&& v.pos)
  let prevByte ← fun dec => decodePrevByte params type { v with dec }
  let lenDist ← fun dec => decodeLenDist params type { v with dec }
  return (type, prevByte, lenDist)

def DecodeVars.read (v : DecodeVars) (type : PacketType) (prevByte : UInt8)
    (dec : Decoder ProbCell) : DecodeVars :=
  { v with prevByte, dec, state := stateTransition v.state type, reps := v.reps.rotate type }

def finishRound (dstLen : Nat) (type : PacketType) (len dist : Nat) (v : DecodeVars) :
    LzmaExec (Round DecodeVars) :=
  if type = .pktMatch then
    if dist = 0xFFFFFFFF then .ok (.leave v)
    else writePacket dstLen type len ((dist + 1) % 2 ^ 32) v
  else writePacket dstLen type len dist v

theorem lzmaDecodeRound_eq (params : LzmaParams) (dstLen : Nat) (v : DecodeVars) :
    lzmaDecodeRound params dstLen v =
      if v.dec.coder.overflow then .ok (.ret .errInputOverflow v)
      else decodePacket params v v.dec >>= fun out =>
        finishRound dstLen out.1.1 out.1.2.2.1 out.1.2.2.2 (v.read out.1.1 out.1.2.1 out.2) := by
  unfold lzmaDecodeRound decodePacket
  dsimp only
  split
  · rfl
  · change _ = (decodeType v.state _ v.dec >>= fun out =>
      decodePrevByte params out.1 { v with dec := out.2 } >>= fun out' =>
        decodeLenDist params out.1 { v with dec := out'.2 } >>= fun out'' =>
          Except.ok ((out.1, out'.1, out''.1), out''.2)) >>= _
    rw [bind_assoc]
    apply bind_congr
    rintro ⟨type, dec⟩
    rw [bind_assoc]
    apply bind_congr
    rintro ⟨prevByte, dec⟩
    rw [bind_assoc]
    apply bind_congr
    rintro ⟨⟨len, dist⟩, dec⟩
    rfl

section packet
variable {dstLen : Nat} {ctx : PacketContext} {v : DecodeVars}

/-- The decoder finds the context of the encoder in its own variables. -/
structure PacketContext.Agrees (ctx : PacketContext) (v : DecodeVars) : Prop where
  state_lt : ctx.state < nStates
  state_eq : v.state = ctx.state
  posState_eq : ctx.posState = 0
  litPosState_eq : ctx.litPosState = 0
  prevByte_eq : ctx.prevByteLcMsbs = v.prevByte.toNat
  matchByte_eq : ∃ byte : UInt8, ctx.matchByte = byte.toNat ∧
    (if v.pos ≥ v.reps.rep0 then vecGet Site.dst v.dst ((v.pos : Int) - v.reps.rep0)
      else pure 0) = .ok byte

theorem mask_zero (pos : Nat) : ((1 <<< 0) - 1) &&& pos = 0 := Nat.zero_and pos

/-- With eight literal context bits the whole previous byte is the context. -/
theorem prev_byte_msbs (byte : UInt8) :
    ((1 <<< lzmaParams.lc) - 1) &&& (byte.toNat >>> (8 - lzmaParams.lc)) = byte.toNat := by
  have hbyte := byte.toNat_lt
  have hmask : (1 <<< lzmaParams.lc) - 1 = 2 ^ 8 - 1 := rfl
  have hshift : 8 - lzmaParams.lc = 0 := rfl
  rw [hmask, hshift, Nat.shiftRight_zero, Nat.and_comm, Nat.and_two_pow_sub_one_eq_mod]
  exact Nat.mod_eq_of_lt hbyte

/-- Below state seven the match byte plays no part. -/
theorem encodeLiteral_matchByte {state : Nat} (h : state < nLitStates)
    (litPosState prevByteLcMsbs currByte matchByte : Nat) :
    encodeLiteral state litPosState prevByteLcMsbs currByte matchByte =
      encodeLiteral state litPosState prevByteLcMsbs currByte 0 := by
  unfold encodeLiteral
  rw [if_pos h, if_pos h]

theorem sends_prevByte (h : ctx.Agrees v) (currByte : UInt8) :
    Sends dstLen
      (encodeLiteral v.state ctx.litPosState ctx.prevByteLcMsbs currByte.toNat ctx.matchByte)
      (fun dec => decodePrevByte lzmaParams .pktLit { v with dec }) currByte := by
  obtain ⟨matchByte, hmatch, hrun⟩ := h.matchByte_eq
  have hbound := v.prevByte.toNat_lt
  -- both sides read the literal with the same match byte
  have hsame : ∃ byte : UInt8,
      encodeLiteral v.state ctx.litPosState ctx.prevByteLcMsbs currByte.toNat ctx.matchByte =
        encodeLiteral v.state 0 v.prevByte.toNat currByte.toNat byte.toNat ∧
      ∀ dec, decodePrevByte lzmaParams .pktLit { v with dec } =
        (decodeLiteral v.state 0 v.prevByte.toNat byte.toNat >>= fun literal =>
          pure (UInt8.ofNat literal)) dec := by
    rw [h.litPosState_eq, h.prevByte_eq]
    by_cases hlow : v.state < nLitStates
    · refine ⟨0, encodeLiteral_matchByte hlow 0 _ _ _, ?_⟩
      intro dec
      unfold decodePrevByte
      dsimp only
      rw [if_pos rfl, if_pos hlow, prev_byte_msbs, show lzmaParams.lp = 0 from rfl, mask_zero]
      rfl
    · refine ⟨matchByte, by rw [hmatch], ?_⟩
      intro dec
      unfold decodePrevByte
      dsimp only
      rw [if_pos rfl, if_neg hlow, prev_byte_msbs, show lzmaParams.lp = 0 from rfl, mask_zero]
      by_cases hback : v.pos ≥ v.reps.rep0
      · rw [if_pos hback] at hrun ⊢
        rw [hrun]
        rfl
      · rw [if_neg hback] at hrun ⊢
        cases hrun
        rfl
  obtain ⟨byte, hencode, hdecode⟩ := hsame
  rw [hencode, funext hdecode]
  have hmap := (@sends_literal dstLen v.state 0 v.prevByte.toNat currByte.toNat byte.toNat
    Nat.one_pos hbound currByte.toNat_lt).map UInt8.ofNat
  rwa [UInt8.ofNat_toNat] at hmap

def readDist (reps : Reps) (dist : Nat) : PacketType → Nat
  | .pktMatch => dist - 1
  | type => reps.dist type

theorem sends_lenDist {type : PacketType} (hlit : type ≠ .pktLit) {len dist : Nat}
    (hlong : type ≠ .pktShortRep → 2 ≤ len ∧ len ≤ 273 ∧ 1 ≤ dist ∧ dist < 2 ^ 30) :
    Sends dstLen
      (match type with
        | .pktLit => pure ()
        | .pktShortRep => pure ()
        | .pktMatch => do
            encodeLen 0 0 len
            encodeDist len dist
        | _ => encodeLen 1 0 len)
      (fun dec => decodeLenDist lzmaParams type { v with dec })
      (packetLen type len, readDist v.reps dist type) := by
  have hmask : ((1 <<< lzmaParams.pb) - 1) &&& v.pos = 0 := mask_zero v.pos
  unfold decodeLenDist
  dsimp only
  rw [hmask]
  have hrep : type ≠ .pktShortRep → ∀ dist' : Nat, Sends dstLen (encodeLen 1 0 len)
      (decodeLen 1 0 >>= fun len => pure (len, dist')) (len, dist') := by
    intro hne dist'
    obtain ⟨hge, hle, -, -⟩ := hlong hne
    exact (sends_len (by decide) Nat.one_pos hge hle).map fun len => (len, dist')
  cases type with
  | pktLit => exact absurd rfl hlit
  | pktShortRep => exact Transmits.pure _
  | pktMatch =>
    obtain ⟨hge, hle, hpos, hlt⟩ := hlong nofun
    have hboth : Sends dstLen (encodeLen 0 0 len >>= fun _ => encodeDist len dist)
        (decodeLen 0 0 >>= fun len => decodeDist len >>= fun dist => pure (len, dist))
        (len, dist - 1) :=
      (sends_len Nat.two_pos Nat.one_pos hge hle).bind
        ((sends_dist hge hpos hlt).map fun dist => (len, dist))
    exact hboth
  | pktRep0 => exact hrep nofun _
  | pktRep1 => exact hrep nofun _
  | pktRep2 => exact hrep nofun _
  | pktRep3 => exact hrep nofun _

theorem sends_packet (h : ctx.Agrees v) (type : PacketType) {len dist : Nat}
    (hlong : type ≠ .pktLit → type ≠ .pktShortRep →
      2 ≤ len ∧ len ≤ 273 ∧ 1 ≤ dist ∧ dist < 2 ^ 30)
    (currByte : UInt8) :
    Sends dstLen (encodePacket ctx type len dist currByte.toNat) (decodePacket lzmaParams v)
      (type, if type = .pktLit then currByte else v.prevByte, packetLen type len,
        readDist v.reps dist type) := by
  have hmask : ((1 <<< lzmaParams.pb) - 1) &&& v.pos = 0 := mask_zero v.pos
  unfold encodePacket decodePacket
  rw [hmask, h.posState_eq, ← h.state_eq]
  apply (sends_type (h.state_eq ▸ h.state_lt) Nat.one_pos type).bind
  by_cases hlit : type = .pktLit
  · subst hlit
    exact (sends_prevByte h currByte).map fun prevByte => (PacketType.pktLit, prevByte, 1, 0)
  · rw [if_neg hlit]
    have hpass : (fun dec => decodePrevByte lzmaParams type { v with dec }) =
        (pure v.prevByte : DecodeM UInt8) := by
      funext dec
      unfold decodePrevByte
      dsimp only
      rw [if_neg hlit]
      rfl
    rw [hpass, pure_bind]
    have hlenDist := (@sends_lenDist dstLen v type hlit len dist (hlong hlit)).map
      fun lenDist => (type, v.prevByte, lenDist)
    cases type with
    | pktLit => exact absurd rfl hlit
    | _ => exact hlenDist

end packet

end TonCompress.Lzma
