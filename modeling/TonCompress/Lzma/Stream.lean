import TonCompress.Lzma.Packet
import TonCompress.Lzma.Safe

/-! The stream apart from the buffer. The decoder reads and checks packets, and
its output grows; what the buffer held before plays no part in it. -/
namespace TonCompress.Lzma
open TonCompress.Lib

/-- The decoder with its output in place of a buffer and a position. -/
structure PacketStream where
  state : Nat
  reps : Reps
  out : List UInt8
  dec : Decoder ProbCell

def PacketStream.fresh (src : List UInt8) : PacketStream := ⟨0, .fresh, [], .fresh src⟩

def PacketStream.on (s : PacketStream) (dst : List UInt8) : DecodeVars where
  prevByte := s.out.getLast?.getD 0
  state := s.state
  pos := s.out.length
  reps := s.reps
  dst := writeTo dst s.out
  dec := s.dec

@[simp] theorem PacketStream.on_state (s : PacketStream) (dst : List UInt8) : (s.on dst).state = s.state := rfl
@[simp] theorem PacketStream.on_pos (s : PacketStream) (dst : List UInt8) : (s.on dst).pos = s.out.length := rfl
@[simp] theorem PacketStream.on_reps (s : PacketStream) (dst : List UInt8) : (s.on dst).reps = s.reps := rfl
@[simp] theorem PacketStream.on_dec (s : PacketStream) (dst : List UInt8) : (s.on dst).dec = s.dec := rfl

theorem PacketStream.on_written (s : PacketStream) (dst : List UInt8) : (s.on dst).written = s.out :=
  List.take_left

def PacketStream.append (dstLen : Nat) (s : PacketStream) (type : PacketType) (prevByte : UInt8)
    (len dist : Nat) : Round PacketStream :=
  if dist > s.out.length then .ret .errData s
  else if s.out.length + len > dstLen then .ret .errOutputOverflow s
  else if type = .pktLit then .next { s with out := s.out ++ [prevByte] }
  else .next { s with reps := { s.reps with rep0 := dist }, out := copyBack dist len s.out }

def PacketStream.read (s : PacketStream) (type : PacketType) (dec : Decoder ProbCell) : PacketStream :=
  { s with dec, state := stateTransition s.state type, reps := s.reps.rotate type }

def streamRound (params : LzmaParams) (dstLen : Nat) (s : PacketStream) : LzmaExec (Round PacketStream) := do
  if s.dec.coder.overflow then return .ret .errInputOverflow s
  else
    let ((type, prevByte, len, dist), dec) ← decodePacket params (s.on []) s.dec
    if type = .pktMatch then
      if dist = 0xFFFFFFFF then return .leave (s.read type dec)
      else return (s.read type dec).append dstLen type prevByte len ((dist + 1) % 2 ^ 32)
    else return (s.read type dec).append dstLen type prevByte len dist

/-- The stream decodes to `out`: packets fill the output, or an end mark stands
behind it. -/
inductive PacketStream.Decodes (params : LzmaParams) (dstLen : Nat) : PacketStream → List UInt8 → Prop
  | full {s : PacketStream} (h : dstLen ≤ s.out.length) : Decodes params dstLen s s.out
  | leave {s s' : PacketStream} (h : s.out.length < dstLen)
      (hround : streamRound params dstLen s = .ok (.leave s')) : Decodes params dstLen s s.out
  | next {s s' : PacketStream} {out : List UInt8} (h : s.out.length < dstLen)
      (hround : streamRound params dstLen s = .ok (.next s')) (hrest : Decodes params dstLen s' out) :
      Decodes params dstLen s out

structure PacketStream.Sound (dstLen : Nat) (s : PacketStream) : Prop where
  state_lt : s.state < nStates
  length_le : s.out.length ≤ dstLen
  reps_pos : ∀ rep ∈ [s.reps.rep0, s.reps.rep1, s.reps.rep2, s.reps.rep3], 1 ≤ rep

structure LzmaParams.Supported (params : LzmaParams) : Prop where
  lc_le : params.lc ≤ maxLc
  lp_le : params.lp ≤ maxLp
  pb_le : params.pb ≤ maxPb

theorem PacketStream.fresh_on (src dst : List UInt8) :
    (PacketStream.fresh src).on dst = DecodeVars.fresh src dst := rfl

theorem PacketStream.fresh_sound (dstLen : Nat) (src : List UInt8) : (PacketStream.fresh src).Sound dstLen := by
  refine ⟨Nat.succ_pos 11, Nat.zero_le _, ?_⟩
  change ∀ rep ∈ [1, 1, 1, 1], 1 ≤ rep
  decide

section packets
variable {params : LzmaParams} {dstLen : Nat} {s : PacketStream} {dst : List UInt8}

theorem PacketStream.read_on {dist : Nat} (hdist : 1 ≤ dist) (hle : dist ≤ s.out.length) :
    ∃ byte, ∀ dst, vecGet Site.dst (s.on dst).dst ((s.out.length : Int) - dist) = .ok byte := by
  obtain ⟨byte, hbyte⟩ := exists_back hdist hle
  refine ⟨byte, fun dst => ?_⟩
  have hsub : (s.out.length : Int) - dist = ((s.out.length - dist : Nat) : Int) := by omega
  rw [hsub]
  apply vecGet_of_eq
  change (s.out ++ dst.drop s.out.length)[s.out.length - dist]? = some byte
  rw [List.getElem?_append_left (by omega), hbyte]

structure PacketRead (s : PacketStream) (type : PacketType) (prevByte : UInt8) (len dist : Nat) :
    Prop where
  literal : type = .pktLit → len = 1 ∧ dist = 0
  copy : type ≠ .pktLit → prevByte = s.out.getLast?.getD 0 ∧ 1 ≤ len ∧ len ≤ lzLenMax
  dist_lt : type = .pktMatch → dist < 2 ^ 32
  dist_eq : type ≠ .pktMatch → dist = s.reps.dist type

theorem LzmaParams.Supported.masks (h : params.Supported) (pos : Nat) :
    (((1 <<< params.pb) - 1) &&& pos) < decodeNPosStates ∧
      (((1 <<< params.lp) - 1) &&& pos) < decodeNLitPosStates ∧
      (((1 <<< params.lc) - 1) &&& pos) < nPrevByteLcMsbs := by
  have hmask : ∀ {bits max}, bits ≤ max → (((1 <<< bits) - 1) &&& pos) < 1 <<< max := by
    intro bits max hle
    have hpow : 2 ^ bits ≤ 2 ^ max := Nat.pow_le_pow_right Nat.two_pos hle
    have hmod := Nat.mod_lt pos (Nat.two_pow_pos bits)
    rw [Nat.and_comm, and_mask, Nat.shiftLeft_eq, Nat.one_mul]
    omega
  exact ⟨hmask h.pb_le, hmask h.lp_le, hmask h.lc_le⟩

theorem decodePrevByte_on (hs : s.Sound dstLen) (hparams : params.Supported) (type : PacketType)
    (dec : Decoder ProbCell) :
    ∃ prevByte dec', (type ≠ .pktLit → prevByte = s.out.getLast?.getD 0) ∧
      ∀ dst, decodePrevByte params type { s.on dst with dec } = .ok (prevByte, dec') := by
  by_cases hlit : type = .pktLit
  · have hmatch : ∃ byte : UInt8, ∀ dst,
        decodePrevByte params type { s.on dst with dec } =
          decodeLiteral s.state (((1 <<< params.lp) - 1) &&& s.out.length)
              (((1 <<< params.lc) - 1) &&&
                ((s.out.getLast?.getD 0).toNat >>> (8 - params.lc))) byte.toNat dec >>= fun out =>
            .ok (UInt8.ofNat out.1, out.2) := by
      by_cases hstate : s.state < nLitStates
      · refine ⟨0, fun dst => ?_⟩
        unfold decodePrevByte
        dsimp only
        rw [if_pos hlit, PacketStream.on_state, if_pos hstate]
        rfl
      · by_cases hback : s.out.length ≥ s.reps.rep0
        · obtain ⟨byte, hbyte⟩ := s.read_on (hs.reps_pos s.reps.rep0 (by simp)) hback
          refine ⟨byte, fun dst => ?_⟩
          unfold decodePrevByte
          dsimp only
          rw [if_pos hlit, PacketStream.on_state, if_neg hstate, PacketStream.on_pos, PacketStream.on_reps, if_pos hback,
            hbyte dst]
          rfl
        · refine ⟨0, fun dst => ?_⟩
          unfold decodePrevByte
          dsimp only
          rw [if_pos hlit, PacketStream.on_state, if_neg hstate, PacketStream.on_pos, PacketStream.on_reps, if_neg hback]
          rfl
    obtain ⟨byte, hrun⟩ := hmatch
    obtain ⟨⟨literal, dec'⟩, hliteral, -⟩ := returns_iff.mp
      (decodeLiteral_yields s.state byte.toNat (hparams.masks s.out.length).2.1
        (hparams.masks _).2.2 dec)
    refine ⟨UInt8.ofNat literal, dec', fun hne => absurd hlit hne, fun dst => ?_⟩
    rw [hrun dst, hliteral]
    rfl
  · refine ⟨s.out.getLast?.getD 0, dec, fun _ => rfl, fun dst => ?_⟩
    unfold decodePrevByte
    dsimp only
    rw [if_neg hlit]
    rfl

theorem decodeLenDist_on (hparams : params.Supported) (type : PacketType)
    (dec : Decoder ProbCell) {prevByte : UInt8}
    (hprev : type ≠ .pktLit → prevByte = s.out.getLast?.getD 0) :
    ∃ len dist dec', PacketRead s type prevByte len dist ∧
      ∀ dst, decodeLenDist params type { s.on dst with dec } = .ok ((len, dist), dec') := by
  have hpos := (hparams.masks s.out.length).1
  have hrep : ∀ type, type ≠ .pktLit → type ≠ .pktMatch →
      (type ≠ .pktLit → prevByte = s.out.getLast?.getD 0) →
      ∃ len dist dec', PacketRead s type prevByte len dist ∧
        (decodeLen 1 (((1 <<< params.pb) - 1) &&& s.out.length) dec >>= fun out =>
          Except.ok ((out.1, s.reps.dist type), out.2)) = .ok ((len, dist), dec') := by
    intro type hlit hmatch hprev
    obtain ⟨⟨len, dec'⟩, hrun, hlow, hhigh⟩ :=
      returns_iff.mp (@decodeLen_yields 1 _ Nat.one_lt_two hpos dec)
    refine ⟨len, s.reps.dist type, dec', ⟨?_, ?_, ?_, ?_⟩, ?_⟩
    · exact fun heq => absurd heq hlit
    · exact fun hne => ⟨hprev hne, by dsimp only at hlow; omega, hhigh⟩
    · exact fun heq => absurd heq hmatch
    · exact fun _ => rfl
    · rw [hrun]
      rfl
  unfold decodeLenDist
  cases type with
  | pktLit =>
    exact ⟨1, 0, dec, ⟨fun _ => ⟨rfl, rfl⟩, fun hne => absurd rfl hne, nofun, fun _ => rfl⟩,
      fun _ => rfl⟩
  | pktShortRep =>
    exact ⟨1, s.reps.rep0, dec, ⟨nofun, fun hne => ⟨hprev hne, le_rfl, by decide⟩, nofun,
      fun _ => rfl⟩, fun _ => rfl⟩
  | pktMatch =>
    obtain ⟨⟨len, dec₁⟩, hrun, hlow, hhigh⟩ :=
      returns_iff.mp (@decodeLen_yields 0 _ Nat.two_pos hpos dec)
    obtain ⟨⟨dist, dec₂⟩, hrun', hlt⟩ := returns_iff.mp (decodeDist_yields hlow dec₁)
    refine ⟨len, dist, dec₂, ⟨nofun, ?_, fun _ => hlt, fun hne => absurd rfl hne⟩, fun dst => ?_⟩
    · exact fun hne => ⟨hprev hne, by dsimp only at hlow; omega, hhigh⟩
    · dsimp only
      rw [PacketStream.on_pos, hrun, ok_bind, hrun']
      rfl
  | pktRep0 =>
    obtain ⟨len, dist, dec', hread, hrun⟩ := hrep .pktRep0 nofun nofun hprev
    exact ⟨len, dist, dec', hread, fun _ => hrun⟩
  | pktRep1 =>
    obtain ⟨len, dist, dec', hread, hrun⟩ := hrep .pktRep1 nofun nofun hprev
    exact ⟨len, dist, dec', hread, fun _ => hrun⟩
  | pktRep2 =>
    obtain ⟨len, dist, dec', hread, hrun⟩ := hrep .pktRep2 nofun nofun hprev
    exact ⟨len, dist, dec', hread, fun _ => hrun⟩
  | pktRep3 =>
    obtain ⟨len, dist, dec', hread, hrun⟩ := hrep .pktRep3 nofun nofun hprev
    exact ⟨len, dist, dec', hread, fun _ => hrun⟩

theorem decodePacket_on (hs : s.Sound dstLen) (hparams : params.Supported) :
    ∃ type prevByte len dist dec, PacketRead s type prevByte len dist ∧
      ∀ dst, decodePacket params (s.on dst) s.dec = .ok ((type, prevByte, len, dist), dec) := by
  obtain ⟨⟨type, dec₁⟩, htype, -⟩ := returns_iff.mp
    (decodeType_yields hs.state_lt (hparams.masks s.out.length).1 s.dec)
  obtain ⟨prevByte, dec₂, hprev, hliteral⟩ := decodePrevByte_on hs hparams type dec₁
  obtain ⟨len, dist, dec₃, hread, hlenDist⟩ := decodeLenDist_on hparams type dec₂ hprev
  refine ⟨type, prevByte, len, dist, dec₃, hread, fun dst => ?_⟩
  change (decodeType s.state (((1 <<< params.pb) - 1) &&& s.out.length) s.dec >>= fun out =>
    decodePrevByte params out.1 { s.on dst with dec := out.2 } >>= fun out' =>
      decodeLenDist params out.1 { s.on dst with dec := out'.2 } >>= fun out'' =>
        Except.ok ((out.1, out'.1, out''.1), out''.2)) = _
  rw [htype, ok_bind, hliteral dst, ok_bind, hlenDist dst]
  rfl

end packets

section rounds
variable {params : LzmaParams} {dstLen : Nat} {s : PacketStream} {dst : List UInt8}

def Round.map {σ τ : Type} (f : σ → τ) : Round σ → Round τ
  | .next s => .next (f s)
  | .leave s => .leave (f s)
  | .ret code s => .ret code (f s)

def PacketStream.Advances (dstLen : Nat) (s : PacketStream) : Round PacketStream → Prop
  | .next s' => s'.Sound dstLen ∧ s.out.length < s'.out.length
  | .leave s' => s'.out = s.out
  | .ret code s' => code ≠ .ok ∧ s'.out = s.out

theorem Emits.eq_on {d w : DecodeVars} {out : List UInt8} (h : Emits d out w)
    (hdst : d.dst = writeTo dst s.out) (hlen : s.out.length ≤ out.length) :
    w = (PacketStream.mk d.state d.reps out d.dec).on dst := by
  obtain ⟨hpos, -, hwrite, hlast, hstate, hreps, hdec⟩ := h
  cases w
  dsimp only at *
  subst hpos hstate hreps hdec
  rw [hwrite, hdst, writeTo_writeTo hlen]
  unfold PacketStream.on
  rw [hlast]
  rfl

theorem Reps.rotate_pos {reps : Reps}
    (h : ∀ rep ∈ [reps.rep0, reps.rep1, reps.rep2, reps.rep3], 1 ≤ rep) (type : PacketType) :
    ∀ rep ∈ [(reps.rotate type).rep0, (reps.rotate type).rep1, (reps.rotate type).rep2,
      (reps.rotate type).rep3], 1 ≤ rep := by
  cases type <;> simp [Reps.rotate] at h ⊢ <;> tauto

theorem PacketRead.dist_pos {type : PacketType} {prevByte : UInt8} {len dist : Nat}
    (h : PacketRead s type prevByte len dist) (hs : s.Sound dstLen) (hlit : type ≠ .pktLit)
    (hmatch : type ≠ .pktMatch) : 1 ≤ dist := by
  rw [h.dist_eq hmatch]
  apply hs.reps_pos
  cases type with
  | pktLit => exact absurd rfl hlit
  | pktMatch => exact absurd rfl hmatch
  | _ => simp [Reps.dist]

theorem PacketRead.len_pos {type : PacketType} {prevByte : UInt8} {len dist : Nat}
    (h : PacketRead s type prevByte len dist) : 1 ≤ len := by
  by_cases hlit : type = .pktLit
  · exact Nat.le_of_eq (h.literal hlit).1.symm
  · exact (h.copy hlit).2.1

theorem PacketStream.Sound.length_on (hs : s.Sound dstLen) (hroom : dstLen ≤ dst.length) :
    (s.on dst).dst.length = dst.length :=
  length_writeTo (hs.length_le.trans hroom)

theorem PacketStream.Sound.append_literal (hs : s.Sound dstLen) (hlt : s.out.length < dstLen)
    (hroom : dstLen ≤ dst.length) (hsize : dstLen < 2 ^ 64) (prevByte : UInt8) :
    writePacket dstLen .pktLit 1 0 { s.on dst with prevByte } =
      .ok ((s.append dstLen .pktLit prevByte 1 0).map fun s => s.on dst) := by
  have hfits : s.out.length < (s.on dst).dst.length := by
    rw [hs.length_on hroom]
    exact hlt.trans_le hroom
  have hemits := @DecodeVars.push_emits { s.on dst with prevByte } hfits prevByte
  have hwritten : ({ s.on dst with prevByte } : DecodeVars).written = s.out := s.on_written dst
  have hlonger : s.out.length ≤ (s.out ++ [prevByte]).length := by
    rw [List.length_append]
    exact Nat.le_add_right _ _
  rw [hwritten] at hemits
  unfold PacketStream.append
  rw [if_neg (Nat.not_lt_zero _), if_neg (by omega), if_pos rfl,
    writePacket_literal hfits hlt hsize]
  exact congrArg (fun d => Except.ok (Round.next d)) (@Emits.eq_on s dst _ _ _ hemits rfl hlonger)

theorem PacketStream.Sound.append_copy (hs : s.Sound dstLen) (hroom : dstLen ≤ dst.length)
    (hsize : dstLen + lzLenMax < 2 ^ 64) {type : PacketType} {len dist : Nat}
    (hlit : type ≠ .pktLit) (hdist : 1 ≤ dist) (hlow : 1 ≤ len) (hhigh : len ≤ lzLenMax)
    (prevByte : UInt8) :
    writePacket dstLen type len dist (s.on dst) =
      .ok ((s.append dstLen type prevByte len dist).map fun s => s.on dst) := by
  have hlength := hs.length_on hroom
  have hle := hs.length_le
  unfold PacketStream.append
  by_cases hfar : dist > s.out.length
  · unfold writePacket
    rw [PacketStream.on_pos, if_pos hfar, if_pos hfar]
    rfl
  · rw [if_neg hfar]
    by_cases hover : s.out.length + len > dstLen
    · unfold writePacket
      rw [PacketStream.on_pos, if_neg hfar, if_pos hover, if_pos (by omega)]
      rfl
    · obtain ⟨w, hrun, hemits⟩ := @writePacket_copy (s.on dst) dstLen type len dist hlit hdist
        (Nat.not_lt.mp hfar) hlow (hlength ▸ hroom) (Nat.not_lt.mp hover) (by omega)
      rw [PacketStream.on_written] at hemits
      have hlonger : s.out.length ≤ (copyBack dist len s.out).length := by
        rw [length_copyBack hdist (Nat.not_lt.mp hfar)]
        exact Nat.le_add_right _ _
      rw [if_neg hover, if_neg hlit, hrun, @Emits.eq_on s dst _ _ _ hemits rfl hlonger]
      rfl

theorem PacketStream.Sound.append_advances (hs : s.Sound dstLen) {type : PacketType} {len dist : Nat}
    (hdist : type ≠ .pktLit → 1 ≤ dist) (hlow : 1 ≤ len) (prevByte : UInt8)
    (hlit : type = .pktLit → len = 1) :
    s.Advances dstLen (s.append dstLen type prevByte len dist) := by
  unfold PacketStream.append
  by_cases hfar : dist > s.out.length
  · rw [if_pos hfar]
    exact ⟨nofun, rfl⟩
  · rw [if_neg hfar]
    by_cases hover : s.out.length + len > dstLen
    · rw [if_pos hover]
      exact ⟨nofun, rfl⟩
    · rw [if_neg hover]
      by_cases heq : type = .pktLit
      · rw [if_pos heq]
        have hlength : (s.out ++ [prevByte]).length = s.out.length + 1 := List.length_append
        have hone := hlit heq
        refine ⟨⟨hs.state_lt, ?_, hs.reps_pos⟩, ?_⟩
        · dsimp only
          omega
        · dsimp only
          omega
      · rw [if_neg heq]
        have hlength := @length_copyBack UInt8 dist len s.out (hdist heq) (Nat.not_lt.mp hfar)
        refine ⟨⟨hs.state_lt, ?_, ?_⟩, ?_⟩
        · dsimp only
          omega
        · intro rep hrep
          dsimp only at hrep
          rw [List.mem_cons] at hrep
          obtain rfl | hrep := hrep
          · exact hdist heq
          · exact hs.reps_pos rep (List.mem_cons_of_mem _ hrep)
        · dsimp only
          omega

/-- A packet that comes to its write. Only that of a literal finds another byte
than the last one in `prev_byte`. -/
structure PacketWrite (dstLen : Nat) (s s' : PacketStream) (type : PacketType) (prevByte : UInt8)
    (len dist : Nat) : Prop where
  sound : s'.Sound dstLen
  out_eq : s'.out = s.out
  len_pos : 1 ≤ len
  len_le : len ≤ lzLenMax
  literal : type = .pktLit → len = 1 ∧ dist = 0
  copy : type ≠ .pktLit → prevByte = s'.out.getLast?.getD 0 ∧ 1 ≤ dist

/-- What a round can do: it finds the input used up, or an end mark, or a packet
that it writes. -/
theorem streamRound_cases (hparams : params.Supported) (hs : s.Sound dstLen) :
    (streamRound params dstLen s = .ok (.ret .errInputOverflow s) ∧
      ∀ dst, lzmaDecodeRound params dstLen (s.on dst) = .ok (.ret .errInputOverflow (s.on dst))) ∨
    (∃ s', s'.out = s.out ∧ streamRound params dstLen s = .ok (.leave s') ∧
      ∀ dst, lzmaDecodeRound params dstLen (s.on dst) = .ok (.leave (s'.on dst))) ∨
    ∃ s' type prevByte len dist, PacketWrite dstLen s s' type prevByte len dist ∧
      streamRound params dstLen s = .ok (s'.append dstLen type prevByte len dist) ∧
      ∀ dst, lzmaDecodeRound params dstLen (s.on dst) =
        writePacket dstLen type len dist { s'.on dst with prevByte } := by
  by_cases hoverflow : s.dec.coder.overflow = true
  · refine .inl ⟨?_, fun dst => ?_⟩
    · unfold streamRound
      rw [if_pos hoverflow]
      rfl
    · rw [lzmaDecodeRound_eq, PacketStream.on_dec, if_pos hoverflow]
  · right
    obtain ⟨type, prevByte, len, dist, dec, hread, hpacket⟩ := decodePacket_on hs hparams
    have hsound : (s.read type dec).Sound dstLen :=
      ⟨stateTransition_lt hs.state_lt type, hs.length_le, Reps.rotate_pos hs.reps_pos type⟩
    have hrun : streamRound params dstLen s = (decodePacket params (s.on []) s.dec >>= fun out =>
        if out.1.1 = .pktMatch then
          if out.1.2.2.2 = 0xFFFFFFFF then .ok (.leave (s.read out.1.1 out.2))
          else .ok ((s.read out.1.1 out.2).append dstLen out.1.1 out.1.2.1 out.1.2.2.1
            ((out.1.2.2.2 + 1) % 2 ^ 32))
        else .ok ((s.read out.1.1 out.2).append dstLen out.1.1 out.1.2.1 out.1.2.2.1 out.1.2.2.2)) := by
      unfold streamRound
      rw [if_neg hoverflow]
      rfl
    rw [hpacket [], ok_bind] at hrun
    dsimp only at hrun
    have hround : ∀ dst, lzmaDecodeRound params dstLen (s.on dst) =
        finishRound dstLen type len dist { (s.read type dec).on dst with prevByte } := by
      intro dst
      rw [lzmaDecodeRound_eq, PacketStream.on_dec, if_neg hoverflow, hpacket dst, ok_bind]
      rfl
    unfold finishRound at hround
    by_cases hmatch : type = .pktMatch
    · have hne : type ≠ .pktLit := by
        rw [hmatch]
        exact nofun
      have hdist := hread.dist_lt hmatch
      obtain ⟨hprev, hlow, hhigh⟩ := hread.copy hne
      rw [if_pos hmatch] at hrun
      by_cases hmark : dist = 0xFFFFFFFF
      · rw [if_pos hmark] at hrun
        refine .inl ⟨s.read type dec, rfl, hrun, fun dst => ?_⟩
        rw [hround, if_pos hmatch, if_pos hmark, hprev]
        rfl
      · rw [if_neg hmark] at hrun
        refine .inr ⟨s.read type dec, type, prevByte, len, (dist + 1) % 2 ^ 32, ⟨hsound, rfl, hlow,
          hhigh, fun heq => absurd heq hne, fun _ => ⟨hprev, by omega⟩⟩, hrun, fun dst => ?_⟩
        rw [hround, if_pos hmatch, if_neg hmark]
    · rw [if_neg hmatch] at hrun
      refine .inr ⟨s.read type dec, type, prevByte, len, dist, ⟨hsound, rfl, hread.len_pos, ?_,
        hread.literal, fun hne => ⟨(hread.copy hne).1, hread.dist_pos hs hne hmatch⟩⟩, hrun,
        fun dst => ?_⟩
      · by_cases hlit : type = .pktLit
        · exact (hread.literal hlit).1 ▸ (by decide : 1 ≤ lzLenMax)
        · exact (hread.copy hlit).2.2
      · rw [hround, if_neg hmatch]

theorem PacketWrite.advances {s' : PacketStream} {type : PacketType} {prevByte : UInt8}
    {len dist : Nat} (h : PacketWrite dstLen s s' type prevByte len dist) :
    s.Advances dstLen (s'.append dstLen type prevByte len dist) := by
  have hadvance := h.sound.append_advances (fun hne => (h.copy hne).2) h.len_pos prevByte
    fun heq => (h.literal heq).1
  unfold PacketStream.Advances at hadvance ⊢
  rwa [h.out_eq] at hadvance

theorem lzmaDecodeRound_on (hparams : params.Supported) (hs : s.Sound dstLen)
    (hlt : s.out.length < dstLen) (hsize : dstLen + lzLenMax < 2 ^ 64) :
    ∃ r, streamRound params dstLen s = .ok r ∧ s.Advances dstLen r ∧
      ∀ dst, dstLen ≤ dst.length →
        lzmaDecodeRound params dstLen (s.on dst) = .ok (r.map fun s => s.on dst) := by
  obtain ⟨hrun, hround⟩ | ⟨s', hout, hrun, hround⟩ |
    ⟨s', type, prevByte, len, dist, hwrite, hrun, hround⟩ := streamRound_cases hparams hs
  · exact ⟨_, hrun, ⟨nofun, rfl⟩, fun dst _ => hround dst⟩
  · exact ⟨_, hrun, hout, fun dst _ => hround dst⟩
  · refine ⟨_, hrun, hwrite.advances, fun dst hroom => ?_⟩
    rw [hround]
    by_cases hlit : type = .pktLit
    · obtain ⟨rfl, rfl⟩ := hwrite.literal hlit
      subst hlit
      exact hwrite.sound.append_literal (hwrite.out_eq ▸ hlt) hroom (by omega) prevByte
    · obtain ⟨hprev, hdist⟩ := hwrite.copy hlit
      have hsame : { s'.on dst with prevByte } = s'.on dst := by
        rw [hprev]
        rfl
      rw [hsame]
      exact hwrite.sound.append_copy hroom hsize hlit hdist hwrite.len_pos hwrite.len_le prevByte

end rounds

section loop
variable {params : LzmaParams} {dstLen : Nat}

theorem PacketStream.Decodes.unique {s : PacketStream} {out out' : List UInt8}
    (h : s.Decodes params dstLen out) (h' : s.Decodes params dstLen out') : out = out' := by
  induction h with
  | full hfull =>
    cases h' with
    | full _ => rfl
    | leave hlt _ => omega
    | next hlt _ _ => omega
  | leave hlt hround =>
    cases h' with
    | full hfull => omega
    | leave _ _ => rfl
    | next _ hround' _ => cases hround.symm.trans hround'
  | next hlt hround _ ih =>
    cases h' with
    | full hfull => omega
    | leave _ hround' => cases hround.symm.trans hround'
    | next _ hround' hrest =>
      cases hround.symm.trans hround'
      exact ih hrest

/-- The decoder's loop ends on every stream. It ends well on those that decode,
with their output, and short of the length on the others. -/
theorem lzmaDecodeLoop_on (hparams : params.Supported) (hsize : dstLen + lzLenMax < 2 ^ 64)
    {s : PacketStream} (hs : s.Sound dstLen) :
    ∃ (code : Ret) (s' : PacketStream), s'.out.length ≤ dstLen ∧
      (code = .ok ∧ s.Decodes params dstLen s'.out ∨
        code ≠ .ok ∧ s'.out.length < dstLen ∧ ∀ out, ¬ s.Decodes params dstLen out) ∧
      ∀ dst fuel, dstLen ≤ dst.length → dstLen < s.out.length + fuel →
        lzmaDecodeLoop params dstLen fuel (s.on dst) = .ok (code, s'.on dst) := by
  induction hn : dstLen - s.out.length using Nat.strong_induction_on generalizing s with
  | _ n ih =>
    have hfuel_succ : ∀ {fuel}, dstLen < s.out.length + fuel → ∃ fuel', fuel = fuel' + 1 := by
      intro fuel hfuel
      have hle := hs.length_le
      exact Nat.exists_eq_succ_of_ne_zero (by omega)
    by_cases hlt : s.out.length < dstLen
    · obtain ⟨r, hround, hadvance, hon⟩ := lzmaDecodeRound_on hparams hs hlt hsize
      cases r with
      | next s₁ =>
        obtain ⟨hs₁, hlonger⟩ := hadvance
        obtain ⟨code, s', hle, hends, hloop⟩ := ih (dstLen - s₁.out.length) (by omega) hs₁ rfl
        refine ⟨code, s', hle, ?_, fun dst fuel hroom hfuel => ?_⟩
        · obtain ⟨hcode, hdecodes⟩ | ⟨hcode, hshort, hnone⟩ := hends
          · exact .inl ⟨hcode, .next hlt hround hdecodes⟩
          · refine .inr ⟨hcode, hshort, fun out hdecodes => ?_⟩
            cases hdecodes with
            | full h => omega
            | leave _ hround' => cases hround.symm.trans hround'
            | next _ hround' hrest =>
              cases hround.symm.trans hround'
              exact hnone out hrest
        · obtain ⟨fuel', rfl⟩ := hfuel_succ hfuel
          rw [lzmaDecodeLoop_next hlt (hon dst hroom)]
          exact hloop dst fuel' hroom (by omega)
      | leave s' =>
        have hout : s'.out = s.out := hadvance
        refine ⟨.ok, s', by rw [hout]; exact hs.length_le, .inl ⟨rfl, ?_⟩,
          fun dst fuel hroom hfuel => ?_⟩
        · rw [hout]
          exact .leave hlt hround
        · obtain ⟨fuel', rfl⟩ := hfuel_succ hfuel
          exact lzmaDecodeLoop_leave hlt (hon dst hroom)
      | ret code s' =>
        obtain ⟨hcode, hout⟩ := hadvance
        refine ⟨code, s', by rw [hout]; exact hs.length_le, .inr ⟨hcode, ?_, ?_⟩,
          fun dst fuel hroom hfuel => ?_⟩
        · rw [hout]
          exact hlt
        · intro out hdecodes
          cases hdecodes with
          | full h => omega
          | leave _ hround' => cases hround.symm.trans hround'
          | next _ hround' _ => cases hround.symm.trans hround'
        · obtain ⟨fuel', rfl⟩ := hfuel_succ hfuel
          exact lzmaDecodeLoop_ret hlt (hon dst hroom)
    · refine ⟨.ok, s, hs.length_le, .inl ⟨rfl, .full (Nat.not_lt.mp hlt)⟩,
        fun dst fuel hroom hfuel => ?_⟩
      obtain ⟨fuel', rfl⟩ := hfuel_succ hfuel
      exact lzmaDecodeLoop_full (Nat.not_lt.mp hlt)

theorem lzmaDecode_on (hparams : params.Supported) (hsize : dstLen + lzLenMax < 2 ^ 64)
    (src : List UInt8) :
    ∃ (code : Ret) (out : List UInt8), out.length ≤ dstLen ∧
      (code = .ok ∧ (PacketStream.fresh src).Decodes params dstLen out ∨
        code ≠ .ok ∧ out.length < dstLen ∧
          ∀ out, ¬ (PacketStream.fresh src).Decodes params dstLen out) ∧
      ∀ dst, dstLen ≤ dst.length → lzmaDecode src dst dstLen params =
        .ok ⟨code, writeTo dst out, if code = .ok then out.length else dstLen⟩ := by
  obtain ⟨code, s', hle, hends, hloop⟩ :=
    lzmaDecodeLoop_on hparams hsize (PacketStream.fresh_sound dstLen src)
  refine ⟨code, s'.out, hle, hends, fun dst hroom => ?_⟩
  have hrun := hloop dst (dstLen + 1) hroom (by omega)
  unfold lzmaDecode
  rw [← PacketStream.fresh_on, hrun, ok_bind]
  rfl

end loop

end TonCompress.Lzma
