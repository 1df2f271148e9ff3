import TonCompress.Lib.Bits
import TonCompress.Lib.Carryless
import TonCompress.Lib.Channel
import TonCompress.Zpaq.Coder

/-! Predicted bytes: what `encode` does to its range, and that `decode` keeps in
step with it. -/
namespace TonCompress.Zpaq
open TonCompress.Lib

variable {pr : Predictor}

section range

def Encoder.range (e : Encoder pr) : CodeRange := ⟨e.low, e.high⟩

def Decoder.range (d : Decoder pr) : CodeRange := ⟨d.low, d.high⟩

theorem xor_lt_iff (a b : Nat) : a ^^^ b < 0x1000000 ↔ ¬ CodeRange.Apart ⟨b, a⟩ := by
  have hdiv : (a ^^^ b) / 2 ^ 24 = (a / 2 ^ 24) ^^^ (b / 2 ^ 24) := Nat.xor_div_two_pow
  have hlt : a ^^^ b < 0x1000000 ↔ (a ^^^ b) / 2 ^ 24 = 0 := by
    rw [Nat.div_eq_zero_iff]
    norm_num
  rw [hlt, hdiv, Nat.xor_eq_zero_iff, CodeRange.Apart, not_not]
  exact eq_comm

theorem shiftLeft_mod_or (a : Nat) {c : Nat} (hc : c < 256) :
    (a <<< 8) % 2 ^ 32 ||| c = a * 256 % 2 ^ 32 + c := by
  have hmul : (a <<< 8) % 2 ^ 32 = 2 ^ 8 * (a % 2 ^ 24) := by
    rw [Nat.shiftLeft_eq]
    omega
  rw [hmul, ← Nat.two_pow_add_eq_or_of_lt hc]
  omega

theorem shift_eq (low high : Nat) :
    CodeRange.shift ⟨low, high⟩ = ⟨shiftedLow low, shiftedHigh high⟩ := by
  have hlow : CodeRange.lift (low * 256 % 2 ^ 32) = shiftedLow low := by
    rw [shiftedLow, Nat.shiftLeft_eq]
    unfold CodeRange.lift
    split <;> omega
  rw [shiftedHigh, shiftLeft_mod_or high (by omega), CodeRange.shift, hlow]

theorem Encoder.shiftOut_eq (n : Nat) (e : Encoder pr) :
    e.shiftOut n = { e with
      out := e.out ++ (CodeRange.settle n e.range).1
      low := (CodeRange.settle n e.range).2.low
      high := (CodeRange.settle n e.range).2.high } := by
  induction n generalizing e with
  | zero => simp [Encoder.shiftOut, Encoder.range]
  | succ n ih =>
    by_cases hr : e.range.Apart
    · rw [CodeRange.settle_of_apart _ hr, Encoder.shiftOut,
        if_neg (mt (xor_lt_iff _ _).mp (not_not.mpr hr))]
      simp [Encoder.range]
    · rw [CodeRange.settle_succ n hr, Encoder.shiftOut, if_pos ((xor_lt_iff _ _).mpr hr), ih]
      simp [Encoder.put, Encoder.range, shift_eq, CodeRange.leading, Nat.shiftRight_eq_div_pow]

theorem Decoder.shiftIn_of_apart (n : Nat) {d : Decoder pr} (h : d.range.Apart) :
    Decoder.shiftIn n d = .ok ((), d) := by
  cases n with
  | zero => rfl
  | succ n =>
    unfold Decoder.shiftIn
    change (if d.high ^^^ d.low < 0x1000000 then _ else pure () : DecoderM pr Unit) d = _
    rw [if_neg (mt (xor_lt_iff _ _).mp (not_not.mpr h))]
    rfl

theorem Decoder.shiftIn_succ (n : Nat) {d : Decoder pr} (h : ¬ d.range.Apart) {c : UInt8}
    {input : List UInt8} (hinput : d.input = c :: input) :
    Decoder.shiftIn (n + 1) d = Decoder.shiftIn n { d with
      input, low := d.range.shift.low, high := d.range.shift.high
      curr := d.curr * 256 % 2 ^ 32 + c.toNat } := by
  have hcurr : (d.curr <<< 8) % 2 ^ 32 ||| asU32 (some c) = d.curr * 256 % 2 ^ 32 + c.toNat :=
    shiftLeft_mod_or d.curr c.toNat_lt
  rw [Decoder.range, shift_eq, ← hcurr]
  conv_lhs => unfold Decoder.shiftIn
  change (if d.high ^^^ d.low < 0x1000000 then _ else pure () : DecoderM pr Unit) d = _
  rw [if_pos ((xor_lt_iff _ _).mpr h)]
  cases d
  cases hinput
  rfl

theorem Decoder.shiftIn_eq (n : Nat) {d : Decoder pr} {code : List UInt8} (hcode : 4 ≤ code.length)
    (hcurr : d.curr = window ((CodeRange.settle n d.range).1 ++ code))
    (hinput : d.input = ((CodeRange.settle n d.range).1 ++ code).drop 4) :
    Decoder.shiftIn n d = .ok ((), { d with
      input := code.drop 4
      low := (CodeRange.settle n d.range).2.low
      high := (CodeRange.settle n d.range).2.high
      curr := window code }) := by
  induction n generalizing d with
  | zero =>
    rw [CodeRange.settle_zero, List.nil_append] at hcurr hinput
    rw [← hcurr, ← hinput]
    rfl
  | succ n ih =>
    by_cases hr : d.range.Apart
    · rw [CodeRange.settle_of_apart _ hr, List.nil_append] at hcurr hinput
      rw [CodeRange.settle_of_apart _ hr, ← hcurr, ← hinput, Decoder.shiftIn_of_apart _ hr]
      rfl
    · rw [CodeRange.settle_succ n hr, List.cons_append] at hcurr hinput
      rw [CodeRange.settle_succ n hr]
      have hlong : 4 ≤ ((CodeRange.settle n d.range.shift).1 ++ code).length := by
        rw [List.length_append]
        omega
      obtain ⟨b₁, b₂, b₃, b₄, rest, hrest⟩ := exists_eq_cons_four hlong
      rw [hrest] at hcurr hinput
      have hnext := window_next d.range.leading b₁ b₂ b₃ b₄ rest
      rw [Decoder.shiftIn_succ n hr hinput, hcurr, ← hnext]
      apply ih
      · exact congrArg window hrest.symm
      · exact congrArg (List.drop 4) hrest.symm

end range

section step
variable {tail : List UInt8}

/-- What the assertions of `encode` and `decode` say of the range, and that its
ends differ in their leading bytes. -/
structure Encoder.Settled (e : Encoder pr) : Prop where
  valid : e.range.Valid
  apart : e.range.Apart

/-- The decoder stands where the encoder stood with `code` still to come. -/
structure InStep (e : Encoder pr) (code : List UInt8) (d : Decoder pr) : Prop where
  low : d.low = e.low
  high : d.high = e.high
  state : d.state = e.state
  curr : d.curr = window code
  input : d.input = code.drop 4

/-- The coder as a channel for code that ends in four zeros and `tail`. -/
def codeChannel (pr : Predictor) (tail : List UInt8) :
    Channel (Encoder pr) (Decoder pr) (List UInt8) where
  Sound := Encoder.Settled
  Leads e tape := ∃ code, tape = e.out ++ code ∧ e.range.Holds code ∧ Sealed tail code
  Synced e tape d := ∃ code, tape = e.out ++ code ∧ InStep e code d

def Encoder.side (e : Encoder pr) (y : Bool) (p : Nat) : CodeRange :=
  e.range.pick (e.range.split p) y

theorem Encoder.encode_eq (e : Encoder pr) (y : Bool) (p : Nat) :
    e.encode y p = { e with
      out := e.out ++ (CodeRange.settle 4 (e.side y p)).1
      low := (CodeRange.settle 4 (e.side y p)).2.low
      high := (CodeRange.settle 4 (e.side y p)).2.high } := by
  have hmid : e.low + ((e.high - e.low) * p) >>> 16 = e.range.split p := by
    rw [Nat.shiftRight_eq_div_pow]
    rfl
  unfold Encoder.encode
  dsimp only
  rw [hmid, Encoder.shiftOut_eq]
  cases y <;> rfl

theorem Encoder.range_encode (e : Encoder pr) (y : Bool) (p : Nat) :
    (e.encode y p).range = (CodeRange.settle 4 (e.side y p)).2 := by
  rw [Encoder.encode_eq]
  rfl

theorem Encoder.out_encode (e : Encoder pr) (y : Bool) (p : Nat) :
    (e.encode y p).out = e.out ++ (CodeRange.settle 4 (e.side y p)).1 := by
  rw [Encoder.encode_eq]

theorem Encoder.Settled.side_valid {e : Encoder pr} (h : e.Settled) (y : Bool) {p : Nat}
    (hp : p < 2 ^ 16) : (e.side y p).Valid :=
  h.valid.pick (Nat.le_add_right _ _) (CodeRange.split_lt h.valid h.apart hp)

theorem Encoder.Settled.encode {e : Encoder pr} (h : e.Settled) (y : Bool) {p : Nat}
    (hp : p < 2 ^ 16) : (e.encode y p).Settled := by
  have hside := h.side_valid y hp
  constructor <;> rw [Encoder.range_encode]
  · exact hside.settle 4
  · exact CodeRange.apart_settle_four hside

def Decoder.picked (d : Decoder pr) (y : Bool) (p : Nat) : Decoder pr :=
  if y then { d with high := d.range.split p } else { d with low := d.range.split p + 1 }

theorem Decoder.range_picked (d : Decoder pr) (y : Bool) (p : Nat) :
    (d.picked y p).range = d.range.pick (d.range.split p) y := by
  cases y <;> rfl

theorem Decoder.decode_eq {d : Decoder pr} (h : ¬ (d.curr < d.low ∨ d.high < d.curr)) (p : Nat) :
    Decoder.decode p d =
      Decoder.shiftIn 4 (d.picked (decide (d.curr ≤ d.range.split p)) p) >>= fun r =>
        .ok (decide (d.curr ≤ d.range.split p), r.2) := by
  have hmid : d.low + ((d.high - d.low) * p) >>> 16 = d.range.split p := by
    rw [Nat.shiftRight_eq_div_pow]
    rfl
  unfold Decoder.decode
  change (if d.curr < d.low ∨ d.high < d.curr then _ else _ : DecoderM pr Bool) d = _
  rw [if_neg h, hmid]
  rfl

theorem InStep.decode {e : Encoder pr} {d : Decoder pr} {code : List UInt8} {y : Bool} {p : Nat}
    (hin : InStep e ((CodeRange.settle 4 (e.side y p)).1 ++ code) d)
    (hside : (e.side y p).Holds ((CodeRange.settle 4 (e.side y p)).1 ++ code))
    (hrange : e.range.Holds ((CodeRange.settle 4 (e.side y p)).1 ++ code))
    (hcode : 4 ≤ code.length) :
    ∃ d', Decoder.decode p d = .ok (y, d') ∧ InStep (e.encode y p) code d' := by
  have hranges : d.range = e.range := by
    rw [Decoder.range, hin.low, hin.high]
    rfl
  have hinside : ¬ (d.curr < d.low ∨ d.high < d.curr) := by
    rw [hin.curr, hin.low, hin.high, not_or, Nat.not_lt, Nat.not_lt]
    exact ⟨hrange.low_le, hrange.le_high⟩
  have hbit : decide (d.curr ≤ d.range.split p) = y := by
    rw [hin.curr, hranges]
    exact hside.bit_eq
  have hpicked : (d.picked y p).range = e.side y p := by
    rw [Decoder.range_picked, hranges]
    rfl
  have hcurr : (d.picked y p).curr = d.curr := by cases y <;> rfl
  have hinput : (d.picked y p).input = d.input := by cases y <;> rfl
  have hstate : (d.picked y p).state = d.state := by cases y <;> rfl
  have hshift := @Decoder.shiftIn_eq pr 4 (d.picked y p) code hcode
    (by rw [hcurr, hin.curr, hpicked]) (by rw [hinput, hin.input, hpicked])
  rw [Decoder.decode_eq hinside, hbit, hshift, hpicked, Encoder.encode_eq]
  exact ⟨_, rfl, rfl, rfl, hstate.trans hin.state, rfl, rfl⟩

theorem forwards_encode (y : Bool) {p : Nat} (hp : p < 2 ^ 16) :
    Forwards (codeChannel pr tail) (fun e => .ok (e.encode y p)) (Decoder.decode p) y := by
  intro e e' he hsend
  obtain rfl := Except.ok.inj hsend
  refine ⟨he.encode y hp, ?_⟩
  rintro tape ⟨code, htape, hholds, hsealed⟩
  have hvalid := he.side_valid y hp
  rw [Encoder.range_encode] at hholds
  have hside := hholds.settle hvalid
  have hrange : e.range.Holds ((CodeRange.settle 4 (e.side y p)).1 ++ code) :=
    hside.of_pick (Nat.le_add_right _ _) (CodeRange.split_lt he.valid he.apart hp)
  have hall : tape = e.out ++ ((CodeRange.settle 4 (e.side y p)).1 ++ code) := by
    rw [htape, Encoder.out_encode, List.append_assoc]
  refine ⟨⟨_, hall, hrange, hsealed.settle hvalid hholds⟩, ?_⟩
  rintro d ⟨code', htape', hin⟩
  have hcode : code' = (CodeRange.settle 4 (e.side y p)).1 ++ code :=
    List.append_cancel_left (htape'.symm.trans hall)
  rw [hcode] at hin
  obtain ⟨d', hrun, hin'⟩ := hin.decode hside hrange hholds.length
  exact ⟨d', hrun, code, htape, hin'⟩

end step

section byte
variable {tail : List UInt8}

def Encoder.encodeBit (y : Bool) (e : Encoder pr) : Except ZpaqStop (Encoder pr) := do
  let p ← pr.predict e.state
  let e := { e with state := p.2 }.encode y (p.1 * 2 + 1)
  let state ← pr.update y e.state
  return { e with state }

def Decoder.decodeBit : DecoderM pr Bool := do
  let d ← MonadState.get
  let p ← pr.predict d.state
  set { d with state := p.2 }
  let y ← Decoder.decode (p.1 * 2 + 1)
  let d ← MonadState.get
  let state ← pr.update y d.state
  set { d with state }
  return y

theorem Encoder.encodeBits_succ (c : UInt8) (i : Nat) (e : Encoder pr) :
    e.encodeBits c (i + 1) = e.encodeBit (c.toNat.testBit i) >>= fun e => e.encodeBits c i := by
  have hbit : decide ((c.toNat >>> i) &&& 1 = 1) = c.toNat.testBit i := by
    simp [Nat.testBit, Nat.and_comm]
  rw [← hbit, Encoder.encodeBit]
  simp only [bind_assoc, pure_bind]
  rfl

theorem Decoder.decodeBits_succ (i : Nat) {c : Nat} (hc : c < 256) :
    (Decoder.decodeBits (i + 1) c : DecoderM pr Nat) =
      Decoder.decodeBit >>= fun y => Decoder.decodeBits i (2 * c + y.toNat) := by
  have hlast : ∀ y : Bool, decide ((2 * c + y.toNat) &&& 1 = 1) = y := by
    intro y
    rw [Nat.and_one_is_mod]
    cases y <;> simp
  have hsum : ∀ y : Bool, c + (c + y.toNat) = 2 * c + y.toNat := by
    intro y
    omega
  conv_lhs => unfold Decoder.decodeBits
  rw [if_pos hc]
  simp only [hsum, hlast, Decoder.decodeBit, bind_assoc, pure_bind]

theorem Decoder.decodeBit_eq (d : Decoder pr) :
    Decoder.decodeBit d = pr.predict d.state >>= fun p =>
      Decoder.decode (p.1 * 2 + 1) { d with state := p.2 } >>= fun r =>
        pr.update r.1 r.2.state >>= fun state => .ok (r.1, { r.2 with state }) := by
  change pr.predict d.state >>= (fun p => Except.ok (p, d)) >>= _ = _
  cases pr.predict d.state with
  | error stop => rfl
  | ok p =>
    conv_rhs => rw [ok_bind]
    change Decoder.decode (p.1 * 2 + 1) { d with state := p.2 } >>= _ = _
    cases Decoder.decode (p.1 * 2 + 1) { d with state := p.2 } with
    | error stop => rfl
    | ok r =>
      conv_rhs => rw [ok_bind]
      change pr.update r.1 r.2.state >>= (fun state => Except.ok (state, r.2)) >>= _ = _
      cases pr.update r.1 r.2.state <;> rfl

theorem forwards_encodeBit (y : Bool) :
    Forwards (codeChannel pr tail) (Encoder.encodeBit y) Decoder.decodeBit y := by
  intro e e' he hsend
  obtain ⟨p, hpredict, hsend⟩ := bind_eq_ok.mp hsend
  obtain ⟨state, hupdate, hsend⟩ := bind_eq_ok.mp hsend
  obtain rfl := Except.ok.inj hsend
  have hp : p.1 * 2 + 1 < 2 ^ 16 := by
    have hlt := pr.predict_lt e.state p hpredict
    omega
  obtain ⟨hsettled, hback⟩ :=
    @forwards_encode pr tail y _ hp { e with state := p.2 } _ ⟨he.valid, he.apart⟩ rfl
  refine ⟨⟨hsettled.valid, hsettled.apart⟩, ?_⟩
  intro tape hleads
  obtain ⟨hbefore, hreceive⟩ := hback tape hleads
  refine ⟨hbefore, ?_⟩
  rintro d ⟨code, htape, hin⟩
  obtain ⟨d', hrun, code', htape', hin'⟩ := hreceive { d with state := p.2 }
    ⟨code, htape, hin.low, hin.high, rfl, hin.curr, hin.input⟩
  refine ⟨{ d' with state }, ?_, code', htape', hin'.low, hin'.high, rfl, hin'.curr, hin'.input⟩
  rw [Decoder.decodeBit_eq, hin.state, hpredict, ok_bind, hrun, ok_bind, hin'.state, hupdate]
  rfl

theorem forwards_encodeBits (byte : UInt8) (i : Nat) {c : Nat} (hc : (c + 1) * 2 ^ i ≤ 512) :
    Forwards (codeChannel pr tail) (Encoder.encodeBits byte i) (Decoder.decodeBits i c)
      (c * 2 ^ i + byte.toNat % 2 ^ i) := by
  induction i generalizing c with
  | zero =>
    rw [pow_zero, Nat.mul_one, Nat.mod_one, Nat.add_zero]
    exact .pure c
  | succ i ih =>
    have hbit := Bool.toNat_le (byte.toNat.testBit i)
    have hnext : (2 * c + (byte.toNat.testBit i).toNat + 1) * 2 ^ i ≤ 512 := by
      calc (2 * c + (byte.toNat.testBit i).toNat + 1) * 2 ^ i
          ≤ ((c + 1) * 2) * 2 ^ i := Nat.mul_le_mul_right _ (by omega)
        _ = (c + 1) * 2 ^ (i + 1) := by ring
        _ ≤ 512 := hc
    have hsmall : c < 256 := by
      have hle := Nat.mul_le_mul_left ((c + 1) * 2) (@Nat.one_le_two_pow i)
      have hmul : (c + 1) * 2 * 2 ^ i = (c + 1) * 2 ^ (i + 1) := by ring
      omega
    have hvalue : c * 2 ^ (i + 1) + byte.toNat % 2 ^ (i + 1) =
        (2 * c + (byte.toNat.testBit i).toNat) * 2 ^ i + byte.toNat % 2 ^ i := by
      rw [Nat.mod_pow_succ, Nat.toNat_testBit, pow_succ]
      ring
    have hsend : (Encoder.encodeBits byte (i + 1) : Encoder pr → Except ZpaqStop (Encoder pr)) =
        fun e => e.encodeBit (byte.toNat.testBit i) >>= Encoder.encodeBits byte i := by
      funext e
      exact Encoder.encodeBits_succ byte i e
    rw [Decoder.decodeBits_succ i hsmall, hvalue, hsend]
    exact (forwards_encodeBit (byte.toNat.testBit i)).bind (ih hnext)

theorem forwards_compress (hmodeled : pr.isModeled) (c : UInt8) :
    Forwards (codeChannel pr tail) (Encoder.compress (some c)) Decoder.decompressModeled (some c) := by
  have hsend : (Encoder.compress (some c) : Encoder pr → Except ZpaqStop (Encoder pr)) =
      fun e => .ok (e.encode false 0) >>= Encoder.encodeBits c 8 := by
    funext e
    exact if_pos hmodeled
  have hbits := @forwards_encodeBits pr tail c 8 1 (by norm_num)
  have hvalue : some (UInt8.ofNat (1 * 2 ^ 8 + c.toNat % 2 ^ 8 - 256)) = some c := by
    rw [Nat.mod_eq_of_lt c.toNat_lt, one_mul, show 2 ^ 8 + c.toNat - 256 = c.toNat by omega,
      UInt8.ofNat_toNat]
  have hbyte := hbits.map fun c => some (UInt8.ofNat (c - 256))
  rw [hvalue] at hbyte
  rw [hsend]
  exact (forwards_encode false (by norm_num)).bind hbyte

theorem Encoder.Settled.out_end {e : Encoder pr} (h : e.Settled) :
    (e.encode true 0).out = e.out ++ beBytes e.low 4 := by
  have hside : e.side true 0 = ⟨e.low, e.low⟩ := by
    simp [Encoder.side, CodeRange.pick, CodeRange.split, Encoder.range]
  have hvalid := h.side_valid true (show 0 < 2 ^ 16 by norm_num)
  rw [Encoder.out_encode, CodeRange.settle_point hvalid (by rw [hside]), hside]

/-- The code that the end of a segment and the four zeros behind it make. -/
theorem Encoder.Settled.leads_end {e : Encoder pr} (h : e.Settled) :
    e.range.Holds (beBytes e.low 4 ++ (List.replicate 4 0 ++ tail)) ∧
      Sealed tail (beBytes e.low 4 ++ (List.replicate 4 0 ++ tail)) := by
  have hlt := h.valid.le.trans_lt h.valid.lt
  have hwindow : window (beBytes e.low 4 ++ (List.replicate 4 0 ++ tail)) = e.low := by
    rw [window, List.take_left' (beBytes_length _ _), beValue_beBytes]
    exact hlt
  exact ⟨⟨by simp, hwindow.ge, hwindow.le.trans h.valid.le⟩, .of_last _ (beBytes_length _ _).le⟩

theorem InStep.decode_end {e : Encoder pr} {d : Decoder pr} (h : e.Settled)
    (hin : InStep e (beBytes e.low 4 ++ (List.replicate 4 0 ++ tail)) d) :
    ∃ d', Decoder.decompressModeled d = .ok (none, d') ∧ d'.low = (e.encode true 0).low ∧
      d'.high = (e.encode true 0).high ∧ d'.state = (e.encode true 0).state ∧ d'.curr = 0 ∧
      d'.input = tail := by
  have hside : e.side true 0 = ⟨e.low, e.low⟩ := by
    simp [Encoder.side, CodeRange.pick, CodeRange.split, Encoder.range]
  have hvalid := h.side_valid true (show 0 < 2 ^ 16 by norm_num)
  have hbytes : (CodeRange.settle 4 (e.side true 0)).1 = beBytes e.low 4 := by
    rw [CodeRange.settle_point hvalid (by rw [hside]), hside]
  have hholds := (@Encoder.Settled.leads_end pr tail e h).1
  have hpoint : (e.side true 0).Holds (beBytes e.low 4 ++ (List.replicate 4 0 ++ tail)) := by
    have hwindow : window (beBytes e.low 4 ++ (List.replicate 4 0 ++ tail)) = e.low := by
      rw [window, List.take_left' (beBytes_length _ _), beValue_beBytes]
      exact h.valid.le.trans_lt h.valid.lt
    rw [hside]
    exact ⟨hholds.length, hwindow.ge, hwindow.le⟩
  rw [← hbytes] at hin hpoint hholds
  obtain ⟨d', hrun, hin'⟩ := hin.decode hpoint hholds (by simp)
  have hcurr : d'.curr = 0 := by
    rw [hin'.curr]
    rfl
  refine ⟨d', ?_, hin'.low, hin'.high, hin'.state, hcurr, hin'.input⟩
  refine (bind_of_ok hrun _).trans ?_
  change (if d'.curr ≠ 0 then _ else _ : DecoderM pr (Option UInt8)) d' = _
  rw [if_neg (not_not.mpr hcurr)]
  rfl

end byte

end TonCompress.Zpaq
