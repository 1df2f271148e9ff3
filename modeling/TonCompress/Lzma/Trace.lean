import TonCompress.Lzma.RoundTrip

/-! The packets of a run of the encoder, and what each of them promises. -/
namespace TonCompress.Lzma
open TonCompress.Lib

structure Packet where
  pos : Nat
  reps : Reps
  type : PacketType
  len : Nat
  dist : Nat
  deriving DecidableEq, Repr

def Packet.size (p : Packet) : Nat := packetLen p.type p.len

/-- The packet behind the last byte when `with_end_mark` is set. -/
def Packet.endMark (pos : Nat) (reps : Reps) : Packet := ⟨pos, reps, .pktMatch, 2, 0⟩

structure Packet.Sound (src : List UInt8) (p : Packet) : Prop where
  pos_lt : p.pos < src.length
  size_pos : 1 ≤ p.size
  fits : p.pos + p.size ≤ src.length
  /-- Once there is a byte before it, no rep reaches behind the start. -/
  reps_le : 0 < p.pos → ∀ rep ∈ [p.reps.rep0, p.reps.rep1, p.reps.rep2, p.reps.rep3],
    1 ≤ rep ∧ rep ≤ p.pos
  copy : p.type ≠ .pktLit → p.type ≠ .pktShortRep → IsMatch src p.pos p.len p.dist
  /-- The decoder takes the distance of a rep packet from its reps. -/
  rep : p.type ≠ .pktLit → p.type ≠ .pktShortRep → p.type ≠ .pktMatch →
    p.reps.dist p.type = p.dist
  short : p.type = .pktShortRep →
    1 ≤ p.reps.rep0 ∧ p.reps.rep0 ≤ p.pos ∧ src[p.pos]? = src[p.pos - p.reps.rep0]?

def Tiles : List Packet → Nat → Nat → Prop
  | [], start, stop => start = stop
  | p :: rest, start, stop => p.pos = start ∧ Tiles rest (start + p.size) stop

/-- `lzmaEncodeRound` with the packet that it codes. -/
def lzmaEncodeRoundTraced (src : List UInt8) (v : EncodeVars) :
    LzmaExec (Option (Packet × EncodeVars)) := do
  let (currByte, ctx) ← packetContext src v.state v.pos v.reps
  if v.pos ≥ src.length then
    if v.withEndMark = false then return none
    else
      let ((), enc) ← encodePacket ctx .pktMatch 2 0 currByte v.enc
      return some (.endMark v.pos v.reps,
        { v with withEndMark := false, enc, state := stateTransition v.state .pktMatch })
  else
    let (len, dist, bypass) ← chooseMatch src v.pos v.reps v.hashTable v.bypass
    let (type, reps) ← chooseType src v.pos v.reps len dist
    let pos2 := v.pos + packetLen type len
    let hashTable ← forRange v.pos pos2 v.hashTable (updateHashTable src)
    let ((), enc) ← encodePacket ctx type len dist currByte v.enc
    return some (⟨v.pos, v.reps, type, len, dist⟩,
      { v with
        state := stateTransition v.state type
        pos := pos2
        reps, bypass, hashTable, enc })

def lzmaEncodeLoopTraced (src : List UInt8) :
    Nat → EncodeVars → LzmaExec (List Packet × EncodeVars)
  | 0, _ => .error .outOfFuel
  | fuel + 1, v => do
      if v.enc.coder.overflow then return ([], v)
      else
        match ← lzmaEncodeRoundTraced src v with
        | none => return ([], v)
        | some (packet, v) =>
            let (packets, v) ← lzmaEncodeLoopTraced src fuel v
            return (packet :: packets, v)

section forget
variable {src : List UInt8}

theorem lzmaEncodeRound_eq_traced (v : EncodeVars) :
    lzmaEncodeRound src v =
      lzmaEncodeRoundTraced src v >>= fun out => .ok (out.map Prod.snd) := by
  unfold lzmaEncodeRound lzmaEncodeRoundTraced
  rw [bind_assoc]
  apply bind_congr
  rintro ⟨currByte, ctx⟩
  dsimp only
  split
  · split
    · rfl
    · rw [bind_assoc]
      rfl
  · rw [bind_assoc]
    apply bind_congr
    rintro ⟨len, dist, bypass⟩
    dsimp only
    rw [bind_assoc]
    apply bind_congr
    rintro ⟨type, reps⟩
    dsimp only
    rw [bind_assoc]
    apply bind_congr
    intro hashTable
    rw [bind_assoc]
    rfl

/-- The trace is that of the encoder's own loop. -/
theorem lzmaEncodeLoop_eq_traced (fuel : Nat) (v : EncodeVars) :
    lzmaEncodeLoop src fuel v = lzmaEncodeLoopTraced src fuel v >>= fun out => .ok out.2 := by
  induction fuel generalizing v with
  | zero => rfl
  | succ fuel ih =>
    rw [lzmaEncodeLoop, lzmaEncodeLoopTraced]
    split
    · rfl
    · rw [lzmaEncodeRound_eq_traced, bind_assoc, bind_assoc]
      apply bind_congr
      intro out
      cases out with
      | none => rfl
      | some next =>
        obtain ⟨packet, v⟩ := next
        dsimp only
        rw [ok_bind]
        dsimp only [Option.map_some]
        rw [ih, bind_assoc]
        rfl

end forget

section rounds
variable {src : List UInt8} {dstLen : Nat} {v : EncodeVars}

def EncodeVars.unmarked (v : EncodeVars) : EncodeVars := { v with withEndMark := false }

theorem Typed.packet_sound {type : PacketType} {len dist pos : Nat} {reps reps' : Reps}
    (h : Typed src pos reps len dist type reps') (hpos : pos < src.length)
    (hreps : RepsSound pos reps) : Packet.Sound src ⟨pos, reps, type, len, dist⟩ := by
  have hbounds := hreps.bounds reps.rep0 (by simp)
  refine ⟨hpos, ?_, ?_, ?_, h.long, ?_, ?_⟩
  · exact (covered_pos len).trans (Nat.le_of_eq h.packetLen_eq.symm)
  · change pos + packetLen type len ≤ src.length
    by_cases hlit : type = .pktLit
    · rw [hlit]
      exact hpos
    · obtain ⟨-, -, -, hfits, -⟩ := h.copies hpos hreps hlit
      exact hfits
  · intro hlater rep hrep
    have hrep' := hreps.pos_of rep hrep
    dsimp only at hlater ⊢
    omega
  · intro hlit hshort hmatch
    have hdist := h.rep hmatch
    cases type with
    | pktLit => exact absurd rfl hlit
    | pktShortRep => exact absurd rfl hshort
    | _ => exact hdist
  · intro hshort
    exact ⟨hbounds.1, h.short hshort⟩

theorem lzmaEncodeRoundTraced_packet (hv : v.unmarked.Sound src dstLen)
    (hpos : v.pos < src.length) :
    ∃ packet v', lzmaEncodeRoundTraced src v = .ok (some (packet, v')) ∧
      packet.Sound src ∧ packet.pos = v.pos ∧ v'.pos = v.pos + packet.size ∧
      v'.withEndMark = v.withEndMark ∧ v'.unmarked.Sound src dstLen := by
  obtain ⟨type, len, dist, reps, bypass, table, hmatch, htype, htable, htyped, hbypass⟩ :=
    @exists_chooses src v hpos hv.reps hv.bypass
  have hreps : RepsSound v.pos v.reps := hv.reps
  have hagrees : (v.context src).Agrees (v.unmarked.mirror src) :=
    (v.unmarked.mirror_mirrors src).agrees hv
  obtain ⟨enc, hencode, henc, -⟩ :=
    @sends_packet dstLen _ _ hagrees type len dist htyped.distances src[v.pos] v.enc hv.channel
  refine ⟨⟨v.pos, v.reps, type, len, dist⟩, v.step type len reps bypass table enc, ?_,
    htyped.packet_sound hpos hreps, rfl, rfl, rfl, hv.step hpos htyped hbypass henc⟩
  unfold lzmaEncodeRoundTraced
  rw [packetContext_eq hpos.le hreps, ok_bind]
  dsimp only
  rw [if_neg (by omega), hmatch, ok_bind]
  dsimp only
  rw [htype, ok_bind]
  dsimp only
  rw [htable, ok_bind, List.getElem?_eq_getElem hpos]
  change encodePacket (v.context src) type len dist src[v.pos].toNat v.enc >>= _ = _
  rw [hencode]
  rfl

end rounds

section endMark
variable {dstLen : Nat}

def Runs (dstLen : Nat) (send : EncodeM Unit) : Prop :=
  ∀ e, (rangeChannel ProbCell dstLen).Sound e →
    ∃ e', send e = .ok ((), e') ∧ (rangeChannel ProbCell dstLen).Sound e'

theorem Runs.of_sends {α : Type} {send : EncodeM Unit} {receive : DecodeM α} {value : α}
    (h : Sends dstLen send receive value) : Runs dstLen send := by
  intro e he
  obtain ⟨e', hrun, he', -⟩ := h e he
  exact ⟨e', hrun, he'⟩

theorem Runs.bind {send send' : EncodeM Unit} (h : Runs dstLen send) (h' : Runs dstLen send') :
    Runs dstLen (send >>= fun _ => send') := by
  intro e he
  obtain ⟨e₁, hrun, he₁⟩ := h e he
  obtain ⟨e₂, hrun', he₂⟩ := h' e₁ he₁
  refine ⟨e₂, ?_, he₂⟩
  change send e >>= (fun out => send' out.2) = _
  rw [hrun]
  exact hrun'

/-- The distance of the end mark wraps around to the largest there is. -/
theorem encodeDist_endMark : Runs dstLen (encodeDist 2 0) := by
  have hslot : distSlot ((0 + (2 ^ 32 - 1)) % 2 ^ 32) = 63 := by decide
  unfold encodeDist
  dsimp only
  rw [hslot, if_neg (by decide), if_pos (by decide)]
  apply Runs.bind
  · exact .of_sends (@sends_int dstLen (.distSlot (2 - 2)) 63 6 rfl (by decide) (by decide))
  · apply Runs.bind
    · exact .of_sends (sends_intByFixedProb _ _)
    · exact .of_sends (@sends_reversed dstLen .distAlign _ 4 rfl (by decide))

theorem encodePacket_endMark {ctx : PacketContext} (hstate : ctx.state < nStates)
    (hpos : ctx.posState = 0) (currByte : Nat) :
    Runs dstLen (encodePacket ctx .pktMatch 2 0 currByte) := by
  unfold encodePacket
  rw [hpos]
  apply Runs.bind
  · exact .of_sends (sends_type hstate Nat.one_pos .pktMatch)
  · apply Runs.bind
    · exact .of_sends (sends_len Nat.two_pos Nat.one_pos le_rfl (by decide))
    · exact encodeDist_endMark

theorem lzmaEncodeRoundTraced_endMark {src : List UInt8} {v : EncodeVars}
    (hv : v.unmarked.Sound src dstLen) (hend : src.length ≤ v.pos)
    (hmark : v.withEndMark = true) :
    ∃ v', lzmaEncodeRoundTraced src v = .ok (some (.endMark v.pos v.reps, v')) ∧
      v'.pos = v.pos ∧ v'.reps = v.reps ∧ v'.withEndMark = false := by
  have hle : v.pos ≤ src.length := hv.pos_le
  have hreps : RepsSound v.pos v.reps := hv.reps
  obtain ⟨enc, hencode, -⟩ := @encodePacket_endMark dstLen (v.context src) hv.state_lt rfl
    (src[v.pos]?.getD 0).toNat v.enc hv.channel
  refine ⟨{ v with withEndMark := false, enc, state := stateTransition v.state .pktMatch }, ?_,
    rfl, rfl, rfl⟩
  unfold lzmaEncodeRoundTraced
  rw [packetContext_eq hle hreps, ok_bind]
  dsimp only
  rw [if_pos hend, if_neg (by rw [hmark]; exact Bool.true_eq_false_eq_False)]
  change encodePacket (v.context src) .pktMatch 2 0 _ v.enc >>= _ = _
  rw [hencode]
  rfl

theorem lzmaEncodeRoundTraced_none {src : List UInt8} {v : EncodeVars} (hle : v.pos ≤ src.length)
    (hreps : RepsSound v.pos v.reps) (hend : src.length ≤ v.pos) (hmark : v.withEndMark = false) :
    lzmaEncodeRoundTraced src v = .ok none := by
  unfold lzmaEncodeRoundTraced
  rw [packetContext_eq hle hreps, ok_bind]
  dsimp only
  rw [if_pos hend, if_pos hmark]
  rfl

end endMark

section loop
variable {src : List UInt8} {dstLen : Nat}

theorem lzmaEncodeLoopTraced_end {v : EncodeVars} (hle : v.pos ≤ src.length)
    (hreps : RepsSound v.pos v.reps) (hend : src.length ≤ v.pos) (hmark : v.withEndMark = false)
    (fuel : Nat) : lzmaEncodeLoopTraced src (fuel + 1) v = .ok ([], v) := by
  rw [lzmaEncodeLoopTraced, lzmaEncodeRoundTraced_none hle hreps hend hmark]
  split <;> rfl

/-- What a run of the loop has coded: packets of the source, and at the end the
mark if there is one. -/
structure Traced (src : List UInt8) (start : Nat) (withEndMark : Bool) (packets mark : List Packet)
    (v : EncodeVars) : Prop where
  tiles : Tiles packets start v.pos
  sound : ∀ packet ∈ packets, packet.Sound src
  pos_le : v.pos ≤ src.length
  reps : RepsSound v.pos v.reps
  complete : v.enc.coder.overflow = false → v.pos = src.length
  mark_eq : mark = [] ∨ withEndMark = true ∧ mark = [.endMark src.length v.reps]

theorem lzmaEncodeLoopTraced_ends {fuel : Nat} {v : EncodeVars} (hv : v.unmarked.Sound src dstLen)
    (hfuel : src.length + 1 < v.pos + fuel) :
    ∃ packets mark v', lzmaEncodeLoopTraced src fuel v = .ok (packets ++ mark, v') ∧
      Traced src v.pos v.withEndMark packets mark v' := by
  induction fuel generalizing v with
  | zero =>
    have hle : v.pos ≤ src.length := hv.pos_le
    omega
  | succ fuel ih =>
    have hle : v.pos ≤ src.length := hv.pos_le
    have hreps : RepsSound v.pos v.reps := hv.reps
    by_cases hoverflow : v.enc.coder.overflow = true
    · refine ⟨[], [], v, ?_, rfl, nofun, hle, hreps, ?_, .inl rfl⟩
      · rw [lzmaEncodeLoopTraced, if_pos hoverflow]
        rfl
      · intro hfalse
        rw [hfalse] at hoverflow
        cases hoverflow
    · by_cases hend : src.length ≤ v.pos
      · have hpos : v.pos = src.length := Nat.le_antisymm hle hend
        cases hmark : v.withEndMark with
        | false =>
          refine ⟨[], [], v, ?_, rfl, nofun, hle, hreps, fun _ => hpos, .inl rfl⟩
          exact lzmaEncodeLoopTraced_end hle hreps hend hmark fuel
        | true =>
          obtain ⟨v', hround, hpos', hreps', hmark'⟩ :=
            lzmaEncodeRoundTraced_endMark hv hend hmark
          obtain ⟨fuel, rfl⟩ := Nat.exists_eq_succ_of_ne_zero (by omega : fuel ≠ 0)
          have hlast := lzmaEncodeLoopTraced_end (hpos' ▸ hle) (by rw [hpos', hreps']; exact hreps)
            (hpos' ▸ hend) hmark' fuel
          refine ⟨[], [.endMark v.pos v.reps], v', ?_, hpos'.symm, nofun, hpos' ▸ hle, ?_, ?_, ?_⟩
          · rw [lzmaEncodeLoopTraced, if_neg hoverflow, hround, ok_bind]
            dsimp only
            rw [hlast]
            rfl
          · rw [hpos', hreps']
            exact hreps
          · exact fun _ => hpos'.trans hpos
          · rw [← hpos, hreps']
            exact .inr ⟨rfl, rfl⟩
      · obtain ⟨packet, v₁, hround, hpacket, hstart, hpos₁, hmark₁, hv₁⟩ :=
          lzmaEncodeRoundTraced_packet hv (Nat.not_le.mp hend)
        have hsize := hpacket.size_pos
        obtain ⟨packets, mark, v', hloop, htiles, hsound, hle', hreps', hcomplete, hmark⟩ :=
          @ih v₁ hv₁ (by omega)
        refine ⟨packet :: packets, mark, v', ?_, ⟨hstart, hpos₁ ▸ htiles⟩, ?_, hle', hreps',
          hcomplete, hmark₁ ▸ hmark⟩
        · rw [lzmaEncodeLoopTraced, if_neg hoverflow, hround, ok_bind]
          dsimp only
          rw [hloop]
          rfl
        · intro other hother
          rcases List.mem_cons.mp hother with rfl | hother
          · exact hpacket
          · exact hsound other hother

/-- The encoder ends on every source. Its packets are sound and stand for the
source byte by byte, for all of it unless the room ran out. -/
theorem lzmaEncode_packets (src : List UInt8) (dstLen : Nat) (withEndMark : Bool) :
    ∃ packets mark v,
      lzmaEncodeLoopTraced src (src.length + 3) (.fresh dstLen withEndMark) =
          .ok (packets ++ mark, v) ∧
        lzmaEncodeLoop src (src.length + 3) (.fresh dstLen withEndMark) = .ok v ∧
        Traced src 0 withEndMark packets mark v := by
  have hfresh : (EncodeVars.fresh dstLen withEndMark).unmarked.Sound src dstLen :=
    EncodeVars.fresh_sound src dstLen
  have hfuel : src.length + 1 < (EncodeVars.fresh dstLen withEndMark).pos + (src.length + 3) := by
    omega
  obtain ⟨packets, mark, v, hloop, htraced⟩ := lzmaEncodeLoopTraced_ends hfresh hfuel
  refine ⟨packets, mark, v, hloop, ?_, htraced⟩
  rw [lzmaEncodeLoop_eq_traced, hloop]
  rfl

end loop

end TonCompress.Lzma
