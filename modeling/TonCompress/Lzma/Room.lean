import TonCompress.Lzma.RoundTrip

/-! What the room for the output decides: how much of one encoding is written. -/
namespace TonCompress.Lzma
open TonCompress.Lib

section output
variable {e : RangeEncoder}

/-- An encoder that has left its room behind: the test for the end of the buffer is one
for equality, so it writes on without an overflow. -/
structure RangeEncoder.Free (e : RangeEncoder) : Prop where
  beyond : e.dstLen < e.dst.length
  overflow_eq : e.overflow = false

/-- The encoder as it is with room for `size` bytes, for one that is free and has a byte
in front of its output. -/
def RangeEncoder.clip (size : Nat) (e : RangeEncoder) : RangeEncoder :=
  { e with
    dst := (e.dst.drop 1).take size
    dstLen := size
    overflow := decide (size < e.dst.length - 1) }

/-- A step for which the room decides only how much is written. -/
structure Steady (step : RangeEncoder → RangeEncoder) : Prop where
  free : ∀ {e}, e.Free → (step e).Free
  extends_dst : ∀ {e}, e.Free → e.dst <+: (step e).dst
  clip : ∀ {e}, e.Free → ∀ size, step (e.clip size) = (step e).clip size

theorem Steady.comp {step step' : RangeEncoder → RangeEncoder} (h : Steady step)
    (h' : Steady step') : Steady fun e => step' (step e) where
  free he := h'.free (h.free he)
  extends_dst he := (h.extends_dst he).trans (h'.extends_dst (h.free he))
  clip he size := by rw [h.clip he, h'.clip (h.free he)]

theorem Steady.of_frame {step : RangeEncoder → RangeEncoder}
    (hdst : ∀ e, (step e).dst = e.dst) (hdstLen : ∀ e, (step e).dstLen = e.dstLen)
    (hoverflow : ∀ e, (step e).overflow = e.overflow)
    (hclip : ∀ e size, step (e.clip size) = (step e).clip size) : Steady step where
  free {e} he := ⟨by rw [hdst, hdstLen]; exact he.beyond, by rw [hoverflow]; exact he.overflow_eq⟩
  extends_dst {e} _ := by rw [hdst]
  clip {e} _ size := hclip e size

theorem Steady.ite {cond : RangeEncoder → Prop} [DecidablePred cond]
    {step step' : RangeEncoder → RangeEncoder} (hcond : ∀ e size, cond (e.clip size) ↔ cond e)
    (h : Steady step) (h' : Steady step') : Steady fun e => if cond e then step e else step' e where
  free {e} he := by
    split
    · exact h.free he
    · exact h'.free he
  extends_dst {e} he := by
    split
    · exact h.extends_dst he
    · exact h'.extends_dst he
  clip {e} he size := by
    by_cases hc : cond e
    · rw [if_pos hc, if_pos ((hcond e size).mpr hc), h.clip he]
    · rw [if_neg hc, if_neg (mt (hcond e size).mp hc), h'.clip he]

theorem rangeEncodeOutByte_steady (byte : Nat) : Steady fun e => rangeEncodeOutByte e byte := by
  have hfree : ∀ {e : RangeEncoder}, e.Free →
      rangeEncodeOutByte e byte = { e with dst := e.dst ++ [UInt8.ofNat byte] } := fun he =>
    if_pos (Nat.ne_of_gt he.beyond)
  refine ⟨fun {e} he => ?_, fun he => ?_, fun {e} he size => ?_⟩
  · rw [hfree he]
    refine ⟨?_, he.overflow_eq⟩
    have hbeyond := he.beyond
    change e.dstLen < (e.dst ++ _).length
    rw [List.length_append]
    omega
  · rw [hfree he]
    exact List.prefix_append _ _
  · rw [hfree he]
    have hbeyond := he.beyond
    have hdrop : (e.dst ++ [UInt8.ofNat byte]).drop 1 = e.dst.drop 1 ++ [UInt8.ofNat byte] :=
      List.drop_append_of_le_length (by omega)
    have hlength : (e.dst.drop 1).length = e.dst.length - 1 := List.length_drop
    unfold rangeEncodeOutByte RangeEncoder.clip
    dsimp only
    by_cases hroom : e.dst.length - 1 < size
    · have htake : (e.dst.drop 1).take size = e.dst.drop 1 := List.take_of_length_le (by omega)
      rw [htake, if_pos (by omega), hdrop, List.take_of_length_le, List.length_append,
        List.length_singleton, decide_eq_false (by omega), decide_eq_false (by omega)]
      rw [List.length_append, List.length_singleton]
      omega
    · rw [if_neg (by rw [List.length_take]; omega), hdrop, List.take_append_of_le_length (by omega),
        List.length_append, List.length_singleton, decide_eq_true (by omega)]

theorem rangeEncodeOutBytes_steady (byte n : Nat) : Steady (rangeEncodeOutBytes byte n) := by
  induction n with
  | zero => exact .of_frame (fun _ => rfl) (fun _ => rfl) (fun _ => rfl) fun _ _ => rfl
  | succ n ih => exact (rangeEncodeOutByte_steady byte).comp ih

theorem Steady.of_family {ι : Type} {choice : RangeEncoder → ι} {step : ι → RangeEncoder → RangeEncoder}
    (hchoice : ∀ e size, choice (e.clip size) = choice e) (h : ∀ i, Steady (step i)) :
    Steady fun e => step (choice e) e where
  free he := (h _).free he
  extends_dst he := (h _).extends_dst he
  clip {e} he size := by rw [hchoice, (h _).clip he]

theorem rangeEncodeFlush_steady (first rest : Nat) :
    Steady fun e => rangeEncodeFlush e first rest := by
  have hwrite : ∀ n, Steady fun e => rangeEncodeOutBytes rest n (rangeEncodeOutByte e first) :=
    fun n => (rangeEncodeOutByte_steady first).comp (rangeEncodeOutBytes_steady rest n)
  have hsettle : Steady fun e => { e with cache := e.lowLsb >>> 24, cacheSize := 0 } :=
    .of_frame (fun _ => rfl) (fun _ => rfl) (fun _ => rfl) fun _ _ => rfl
  exact Steady.comp (@Steady.of_family _ (fun e => e.cacheSize - 1) _ (fun _ _ => rfl) hwrite) hsettle

theorem rangeEncodeShift_steady : Steady rangeEncodeShift :=
  .of_frame (fun _ => rfl) (fun _ => rfl) (fun _ => rfl) fun _ _ => rfl

theorem rangeEncodeNormalize_steady : Steady rangeEncodeNormalize := by
  have hflush : ∀ first rest, Steady fun e => rangeEncodeShift (rangeEncodeFlush e first rest) :=
    fun first rest => (rangeEncodeFlush_steady first rest).comp rangeEncodeShift_steady
  have hself : Steady id := .of_frame (fun _ => rfl) (fun _ => rfl) (fun _ => rfl) fun _ _ => rfl
  have hcarried : Steady fun e =>
      rangeEncodeShift (rangeEncodeFlush e ((e.cache + 1) % 256) 0x00) :=
    @Steady.of_family _ (fun e => (e.cache + 1) % 256) _ (fun _ _ => rfl) fun i => hflush i 0x00
  have hsettled : Steady fun e => rangeEncodeShift (rangeEncodeFlush e e.cache 0xFF) :=
    @Steady.of_family _ (fun e => e.cache) _ (fun _ _ => rfl) fun i => hflush i 0xFF
  exact .ite (fun _ _ => Iff.rfl)
    (.ite (fun _ _ => Iff.rfl) hcarried
      (.ite (fun _ _ => Iff.rfl) hsettled rangeEncodeShift_steady)) hself

theorem rangeEncodeTerminate_steady : Steady rangeEncodeTerminate := by
  have hclose : Steady fun e => { e with range := 0 } :=
    .of_frame (fun _ => rfl) (fun _ => rfl) (fun _ => rfl) fun _ _ => rfl
  have hround := rangeEncodeNormalize_steady
  exact (((((hclose.comp hround).comp hround).comp hround).comp hround).comp hround).comp hround

theorem rangeEncodeFixedBit_steady (bit : Bool) : Steady fun e => rangeEncodeFixedBit e bit := by
  have hnarrow : Steady fun e => if bit then rangeEncodeAdd { e with range := e.range >>> 1 }
      (e.range >>> 1) else { e with range := e.range >>> 1 } := by
    cases bit with
    | false => exact .of_frame (fun _ => rfl) (fun _ => rfl) (fun _ => rfl) fun _ _ => rfl
    | true => exact .of_frame (fun _ => rfl) (fun _ => rfl) (fun _ => rfl) fun _ _ => rfl
  exact rangeEncodeNormalize_steady.comp hnarrow

theorem rangeEncodeBit_steady (prob : Nat) (bit : Bool) :
    Steady fun e => (rangeEncodeBit e prob bit).1 := by
  cases bit with
  | false =>
    have hlow : Steady fun e =>
        { e with range := (e.range >>> rangeCodeNBitModelTotalBits) * prob } :=
      .of_frame (fun _ => rfl) (fun _ => rfl) (fun _ => rfl) fun _ _ => rfl
    exact rangeEncodeNormalize_steady.comp hlow
  | true =>
    have hhigh : Steady fun e => rangeEncodeAdd
        { e with range := e.range - (e.range >>> rangeCodeNBitModelTotalBits) * prob }
        ((e.range >>> rangeCodeNBitModelTotalBits) * prob) :=
      .of_frame (fun _ => rfl) (fun _ => rfl) (fun _ => rfl) fun _ _ => rfl
    exact rangeEncodeNormalize_steady.comp hhigh

theorem rangeEncodeBit_clip (he : e.Free) (size prob : Nat) (bit : Bool) :
    rangeEncodeBit (e.clip size) prob bit =
      ((rangeEncodeBit e prob bit).1.clip size, (rangeEncodeBit e prob bit).2) := by
  rw [← (rangeEncodeBit_steady prob bit).clip he]
  cases bit <;> rfl

end output

section sending

def Encoder.clip (size : Nat) (e : Encoder ProbCell) : Encoder ProbCell :=
  { e with coder := e.coder.clip size }

structure SteadySend (send : EncodeM Unit) : Prop where
  free : ∀ {e e'}, e.coder.Free → send e = .ok ((), e') →
    e'.coder.Free ∧ e.coder.dst <+: e'.coder.dst
  clip : ∀ {e}, e.coder.Free → ∀ size,
    send (e.clip size) = (send e).map fun out => ((), out.2.clip size)

variable {send send' : EncodeM Unit}

theorem SteadySend.of_run {run : Encoder ProbCell → Encoder ProbCell}
    (hfree : ∀ {e}, e.coder.Free → (run e).coder.Free)
    (hextends : ∀ {e}, e.coder.Free → e.coder.dst <+: (run e).coder.dst)
    (hclip : ∀ {e}, e.coder.Free → ∀ size, run (e.clip size) = (run e).clip size) :
    SteadySend fun e => .ok ((), run e) where
  free {e e'} he hrun := by
    obtain rfl := (Prod.mk.inj (Except.ok.inj hrun)).2
    exact ⟨hfree he, hextends he⟩
  clip he size := by
    rw [hclip he]
    rfl

theorem SteadySend.pure : SteadySend (pure ()) :=
  SteadySend.of_run (fun he => he) (fun _ => List.prefix_rfl) fun _ _ => rfl

theorem SteadySend.bind (h : SteadySend send) (h' : SteadySend send') :
    SteadySend (send >>= fun _ => send') where
  free {e e'} he hrun := by
    obtain ⟨⟨_, e₁⟩, hfirst, hsecond⟩ := bind_eq_ok.mp (show send e >>= _ = _ from hrun)
    obtain ⟨hfree, hextends⟩ := h.free he hfirst
    obtain ⟨hfree', hextends'⟩ := h'.free hfree hsecond
    exact ⟨hfree', hextends.trans hextends'⟩
  clip {e} he size := by
    change send (e.clip size) >>= (fun out => send' out.2) =
      (send e >>= fun out => send' out.2).map _
    rw [h.clip he]
    cases hsend : send e with
    | error reason => rfl
    | ok out => exact h'.clip (h.free he hsend).1 size

theorem SteadySend.ite {cond : Prop} [Decidable cond] (h : SteadySend send)
    (h' : SteadySend send') : SteadySend (if cond then send else send') := by
  split
  · exact h
  · exact h'

theorem encodeBit_steady (cell : ProbCell) (bit : Bool) : SteadySend (encodeBit cell bit) := by
  by_cases hcell : cell.declared encodeNPosStates encodeNLitPosStates = true
  · have hrun : encodeBit cell bit = fun e => .ok ((), e.bit cell bit) := funext fun _ => if_pos hcell
    have hsteady := fun prob => rangeEncodeBit_steady prob bit
    rw [hrun]
    refine .of_run (fun he => (hsteady _).free he) (fun he => (hsteady _).extends_dst he) ?_
    intro e he size
    unfold Encoder.bit Encoder.clip
    dsimp only
    rw [rangeEncodeBit_clip he]
  · have hstop : encodeBit cell bit = fun _ => .error (.outOfRange .probs) :=
      funext fun _ => if_neg hcell
    rw [hstop]
    refine ⟨fun _ hrun => ?_, fun _ _ => rfl⟩
    cases hrun

theorem encodeFixedBit_steady (bit : Bool) : SteadySend (encodeFixedBit bit) := by
  have hsteady := rangeEncodeFixedBit_steady bit
  refine .of_run (fun he => hsteady.free he) (fun he => hsteady.extends_dst he) ?_
  intro e he size
  unfold Encoder.fixedBit Encoder.clip
  dsimp only
  rw [hsteady.clip he]

theorem intByFixedProb_steady (val bitCount : Nat) :
    SteadySend (rangeEncodeIntByFixedProb val bitCount) := by
  induction bitCount with
  | zero => exact .pure
  | succ bitCount ih => exact (encodeFixedBit_steady _).bind ih

theorem intLoop_steady (probs : ProbRow) (val bitCount treepos : Nat) :
    SteadySend (rangeEncodeIntLoop probs val bitCount treepos) := by
  induction bitCount generalizing treepos with
  | zero => exact .pure
  | succ bitCount ih => exact (encodeBit_steady _ _).bind (ih _)

theorem MBLoop_steady (probs : ProbRow) (n byte matchByte treepos off0 : Nat) :
    SteadySend (rangeEncodeMBLoop probs n byte matchByte treepos off0) := by
  induction n generalizing byte matchByte treepos off0 with
  | zero => exact .pure
  | succ n ih => exact (encodeBit_steady _ _).bind (ih _ _ _ _)

theorem encodeType_steady (type : PacketType) (state posState : Nat) :
    SteadySend (encodeType type state posState) := by
  have hbit := fun row bit => encodeBit_steady ⟨row, 0⟩ bit
  cases type with
  | pktLit => exact hbit _ _
  | pktMatch => exact (hbit _ _).bind (hbit _ _)
  | pktShortRep => exact (hbit _ _).bind ((hbit _ _).bind ((hbit _ _).bind (hbit _ _)))
  | pktRep0 => exact (hbit _ _).bind ((hbit _ _).bind ((hbit _ _).bind (hbit _ _)))
  | pktRep1 => exact (hbit _ _).bind ((hbit _ _).bind ((hbit _ _).bind (hbit _ _)))
  | pktRep2 =>
    exact (hbit _ _).bind ((hbit _ _).bind ((hbit _ _).bind ((hbit _ _).bind (hbit _ _))))
  | pktRep3 =>
    exact (hbit _ _).bind ((hbit _ _).bind ((hbit _ _).bind ((hbit _ _).bind (hbit _ _))))

theorem encodeLiteral_steady (state litPosState prevByteLcMsbs currByte matchByte : Nat) :
    SteadySend (encodeLiteral state litPosState prevByteLcMsbs currByte matchByte) :=
  (intLoop_steady _ _ _ _).ite (MBLoop_steady _ _ _ _ _ _)

theorem encodeLen_steady (isRep posState len : Nat) : SteadySend (encodeLen isRep posState len) := by
  have hbit := fun row bit => encodeBit_steady ⟨row, 0⟩ bit
  unfold encodeLen
  apply SteadySend.ite
  · exact (hbit _ _).bind (intLoop_steady _ _ _ _)
  · apply SteadySend.ite
    · exact (hbit _ _).bind ((hbit _ _).bind (intLoop_steady _ _ _ _))
    · exact (hbit _ _).bind ((hbit _ _).bind (intLoop_steady _ _ _ _))

theorem encodeDist_steady (len dist : Nat) : SteadySend (encodeDist len dist) := by
  unfold encodeDist
  apply SteadySend.bind (intLoop_steady _ _ _ _)
  apply SteadySend.ite
  · exact (intByFixedProb_steady _ _).bind (intLoop_steady _ _ _ _)
  · exact SteadySend.ite (intLoop_steady _ _ _ _) .pure

theorem encodePacket_steady (ctx : PacketContext) (type : PacketType) (len dist currByte : Nat) :
    SteadySend (encodePacket ctx type len dist currByte) := by
  unfold encodePacket
  apply (encodeType_steady _ _ _).bind
  cases type with
  | pktLit => exact encodeLiteral_steady _ _ _ _ _
  | pktShortRep => exact .pure
  | pktMatch => exact (encodeLen_steady _ _ _).bind (encodeDist_steady _ _)
  | pktRep0 => exact encodeLen_steady _ _ _
  | pktRep1 => exact encodeLen_steady _ _ _
  | pktRep2 => exact encodeLen_steady _ _ _
  | pktRep3 => exact encodeLen_steady _ _ _

end sending

section rounds
variable {src : List UInt8} {v v' : EncodeVars}

def EncodeVars.clip (size : Nat) (v : EncodeVars) : EncodeVars := { v with enc := v.enc.clip size }

theorem lzmaEncodeRound_eq (src : List UInt8) (v : EncodeVars) :
    (∃ stop, ∀ enc, lzmaEncodeRound src { v with enc } = .error stop) ∨
    (∀ enc, lzmaEncodeRound src { v with enc } = .ok none) ∨
    ∃ (send : EncodeM Unit) (next : EncodeVars), SteadySend send ∧
      ∀ enc, lzmaEncodeRound src { v with enc } =
        send enc >>= fun out => .ok (some { next with enc := out.2 }) := by
  unfold lzmaEncodeRound
  dsimp only
  cases packetContext src v.state v.pos v.reps with
  | error stop => exact .inl ⟨stop, fun _ => rfl⟩
  | ok out =>
    simp only [ok_bind]
    by_cases hend : v.pos ≥ src.length
    · simp only [if_pos hend]
      by_cases hmark : v.withEndMark = false
      · exact .inr (.inl fun _ => if_pos hmark)
      · simp only [if_neg hmark]
        exact .inr (.inr ⟨_, { v with withEndMark := false, state := stateTransition v.state .pktMatch },
          encodePacket_steady out.2 .pktMatch 2 0 out.1, fun _ => rfl⟩)
    · simp only [if_neg hend]
      cases chooseMatch src v.pos v.reps v.hashTable v.bypass with
      | error stop => exact .inl ⟨stop, fun _ => rfl⟩
      | ok chosen =>
        simp only [ok_bind]
        cases chooseType src v.pos v.reps chosen.1 chosen.2.1 with
        | error stop => exact .inl ⟨stop, fun _ => rfl⟩
        | ok typed =>
          simp only [ok_bind]
          cases forRange v.pos (v.pos + packetLen typed.1 chosen.1) v.hashTable
              (updateHashTable src) with
          | error stop => exact .inl ⟨stop, fun _ => rfl⟩
          | ok table =>
            exact .inr (.inr ⟨_, { v with
              state := stateTransition v.state typed.1
              pos := v.pos + packetLen typed.1 chosen.1
              reps := typed.2
              bypass := chosen.2.2
              hashTable := table }, encodePacket_steady out.2 typed.1 chosen.1 chosen.2.1 out.1,
              fun _ => rfl⟩)

theorem lzmaEncodeRound_free (hv : v.enc.coder.Free) (h : lzmaEncodeRound src v = .ok (some v')) :
    v'.enc.coder.Free ∧ v.enc.coder.dst <+: v'.enc.coder.dst := by
  rcases lzmaEncodeRound_eq src v with ⟨stop, hstop⟩ | hnone | ⟨send, next, hsend, hround⟩
  · cases (hstop v.enc).symm.trans h
  · cases (hnone v.enc).symm.trans h
  · obtain ⟨⟨_, enc⟩, hrun, hnext⟩ := bind_eq_ok.mp ((hround v.enc).symm.trans h)
    obtain rfl := Option.some.inj (Except.ok.inj hnext)
    exact hsend.free hv hrun

theorem lzmaEncodeRound_clip (hv : v.enc.coder.Free) (size : Nat) :
    lzmaEncodeRound src (v.clip size) =
      (lzmaEncodeRound src v).map (Option.map (EncodeVars.clip size)) := by
  rcases lzmaEncodeRound_eq src v with ⟨stop, hstop⟩ | hnone | ⟨send, next, hsend, hround⟩
  · rw [show lzmaEncodeRound src v = .error stop from hstop v.enc]
    exact hstop _
  · rw [show lzmaEncodeRound src v = .ok none from hnone v.enc]
    exact hnone _
  · have hclip := hround (v.enc.clip size)
    rw [hsend.clip hv] at hclip
    rw [show lzmaEncodeRound src v = _ from hround v.enc]
    refine Eq.trans hclip ?_
    cases send v.enc <;> rfl

/-- Where a run with room for `size` bytes is when the free run is at `v'`: at the same
point, or behind the overflow that has ended it. -/
def Follower (size : Nat) (v' w : EncodeVars) : Prop :=
  ∃ u : RangeEncoder, u.Free ∧ u.dst <+: v'.enc.coder.dst ∧ w.enc.coder = u.clip size ∧
    (u = v'.enc.coder ∨ size < u.dst.length - 1)

/-- A free run ends with every room, or stops the same way with enough of it. -/
theorem lzmaEncodeLoop_clip {fuel : Nat} (hv : v.enc.coder.Free) :
    (∃ v', lzmaEncodeLoop src fuel v = .ok v' ∧ v'.enc.coder.Free ∧
      v.enc.coder.dst <+: v'.enc.coder.dst ∧
      ∀ size, ∃ w, lzmaEncodeLoop src fuel (v.clip size) = .ok w ∧ Follower size v' w) ∨
    ∃ stop size, ∀ size' ≥ size, lzmaEncodeLoop src fuel (v.clip size') = .error stop := by
  induction fuel generalizing v with
  | zero => exact .inr ⟨.outOfFuel, 0, fun _ _ => rfl⟩
  | succ fuel ih =>
    have hrunning : ¬ v.enc.coder.overflow = true := by
      rw [hv.overflow_eq]
      exact Bool.false_ne_true
    have hover : ∀ size, (v.clip size).enc.coder.overflow = true ↔
        size < v.enc.coder.dst.length - 1 := fun size => decide_eq_true_iff
    have hstays : ∀ size, size < v.enc.coder.dst.length - 1 →
        lzmaEncodeLoop src (fuel + 1) (v.clip size) = .ok (v.clip size) := fun size hfull => by
      rw [lzmaEncodeLoop, if_pos ((hover size).mpr hfull)]
      rfl
    cases hround : lzmaEncodeRound src v with
    | error stop =>
      refine .inr ⟨stop, v.enc.coder.dst.length, fun size hsize => ?_⟩
      rw [lzmaEncodeLoop, if_neg (mt (hover size).mp (by omega)), lzmaEncodeRound_clip hv, hround]
      rfl
    | ok next =>
      cases next with
      | none =>
        refine .inl ⟨v, ?_, hv, List.prefix_rfl, fun size => ⟨v.clip size, ?_, v.enc.coder, hv,
          List.prefix_rfl, rfl, .inl rfl⟩⟩
        · rw [lzmaEncodeLoop, if_neg hrunning, hround]
          rfl
        · by_cases hfull : size < v.enc.coder.dst.length - 1
          · exact hstays size hfull
          · rw [lzmaEncodeLoop, if_neg (mt (hover size).mp hfull), lzmaEncodeRound_clip hv, hround]
            rfl
      | some v₁ =>
        obtain ⟨hv₁, hextends⟩ := lzmaEncodeRound_free hv hround
        have hgoes : ∀ size, ¬ size < v.enc.coder.dst.length - 1 →
            lzmaEncodeLoop src (fuel + 1) (v.clip size) = lzmaEncodeLoop src fuel (v₁.clip size) := by
          intro size hfree
          rw [lzmaEncodeLoop, if_neg (mt (hover size).mp hfree), lzmaEncodeRound_clip hv, hround]
          rfl
        rcases ih hv₁ with ⟨v', hloop, hv', hextends', hsizes⟩ | ⟨stop, size, hstop⟩
        · refine .inl ⟨v', ?_, hv', hextends.trans hextends', fun size => ?_⟩
          · rw [lzmaEncodeLoop, if_neg hrunning, hround]
            exact hloop
          · by_cases hfull : size < v.enc.coder.dst.length - 1
            · exact ⟨_, hstays size hfull, v.enc.coder, hv, hextends.trans hextends', rfl, .inr hfull⟩
            · rw [hgoes size hfull]
              exact hsizes size
        · refine .inr ⟨stop, max size v.enc.coder.dst.length, fun size' hsize' => ?_⟩
          rw [hgoes size' (by omega)]
          exact hstop size' (by omega)

/-- The encoding of a source: whatever room there is, so much of it is written. -/
def IsEncoding (src bytes : List UInt8) : Prop :=
  ∀ dstLen, lzmaEncode src dstLen false =
    .ok (if dstLen < bytes.length then .errOutputOverflow else .ok, bytes.take dstLen)

theorem take_drop_of_prefix {start list : List UInt8} (h : start <+: list) {size : Nat}
    (hsize : size < start.length - 1) : (list.drop 1).take size = (start.drop 1).take size := by
  obtain ⟨rest, rfl⟩ := h
  rw [List.drop_append_of_le_length (by omega), List.take_append_of_le_length]
  rw [List.length_drop]
  omega

theorem lzmaEncode_clip {u : RangeEncoder} (hu : u.Free) {dstLen : Nat} {w : EncodeVars}
    (hloop : lzmaEncodeLoop src (src.length + 3) (.fresh dstLen false) = .ok w)
    (hcoder : w.enc.coder = u.clip dstLen) :
    lzmaEncode src dstLen false =
      .ok (if dstLen < (rangeEncodeTerminate u).dst.length - 1 then .errOutputOverflow else .ok,
        ((rangeEncodeTerminate u).dst.drop 1).take dstLen) := by
  unfold lzmaEncode
  rw [hloop, ok_bind]
  dsimp only
  rw [hcoder, rangeEncodeTerminate_steady.clip hu]
  generalize rangeEncodeTerminate u = ended
  unfold RangeEncoder.clip
  simp only [decide_eq_true_eq]
  rfl

theorem exists_encoding (hsrc : src.length < 2 ^ 64) : ∃ bytes, IsEncoding src bytes := by
  -- a byte in front of the output, over no room at all, makes the encoder free
  let v : EncodeVars :=
    { EncodeVars.fresh 0 false with enc := ⟨{ newRangeEncoder 0 with dst := [0] }, initProbs⟩ }
  have hfree : v.enc.coder.Free := ⟨Nat.zero_lt_one, rfl⟩
  have hfresh : ∀ dstLen, v.clip dstLen = EncodeVars.fresh dstLen false := by
    intro dstLen
    have htake : ([] : List UInt8).take dstLen = [] := List.take_nil
    change { v with enc := ⟨{ newRangeEncoder dstLen with
      dst := ([] : List UInt8).take dstLen }, initProbs⟩ } = _
    rw [htake]
    rfl
  rcases @lzmaEncodeLoop_clip src v (src.length + 3) hfree with
    ⟨v', -, hv', -, hsizes⟩ | ⟨stop, size, hstop⟩
  · have hsteady := rangeEncodeTerminate_steady
    refine ⟨(rangeEncodeTerminate v'.enc.coder).dst.drop 1, fun dstLen => ?_⟩
    obtain ⟨w, hloop, u, hu, hextends, hcoder, hwhere⟩ := hsizes dstLen
    rw [hfresh] at hloop
    rw [lzmaEncode_clip hu hloop hcoder, List.length_drop]
    rcases hwhere with hsame | hfull
    · rw [hsame]
    · have hleft := hsteady.extends_dst hu
      have hright := hextends.trans (hsteady.extends_dst hv')
      have hle := hleft.length_le
      have hle' := hright.length_le
      rw [if_pos (by omega), if_pos (by omega), take_drop_of_prefix hleft hfull,
        take_drop_of_prefix hright hfull]
  · obtain ⟨v', hloop, -⟩ := @lzmaEncodeLoop_ends src src size le_rfl hsrc
      (src.length + 3) _ (EncodeVars.fresh_sound src size) (by omega)
    rw [← hfresh, hstop size le_rfl] at hloop
    cases hloop

end rounds

end TonCompress.Lzma
