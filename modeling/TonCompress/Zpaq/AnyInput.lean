import TonCompress.Zpaq.RoundTrip

/-! The decompressor on any bytes: its loops end, in a value or in a call of `error`. -/
namespace TonCompress.Zpaq
open TonCompress.Lib

variable {pr : Predictor} {mc : Machine}

def Predictor.Stops (pr : Predictor) (stop : ZpaqStop) : Prop :=
  pr.init = .error stop ∨ (∃ s, pr.predict s = .error stop) ∨ ∃ y s, pr.update y s = .error stop

def Machine.Stops (mc : Machine) (stop : ZpaqStop) : Prop :=
  (∃ ph pm program, mc.initp ph pm program = .error stop) ∨ ∃ s c, mc.run s c = .error stop

/-- The stops of the decompressor: calls of `error`, and the stops of the programs that it
runs. -/
def Ended (pr : Predictor) (mc : Machine) (stop : ZpaqStop) : Prop :=
  (∃ msg, stop = .error msg) ∨ pr.Stops stop ∨ mc.Stops stop

theorem ended_error (msg : String) : Ended pr mc (.error msg) := .inl ⟨msg, rfl⟩

section decoder
variable {d d' d'' : Decoder pr}

/-- What the assertions of `decode` say of the range between two bits. -/
structure Decoder.Settled (d : Decoder pr) : Prop where
  high_lt : d.high < 2 ^ 32
  valid : pr.isModeled → d.range.Valid
  apart : pr.isModeled → d.range.Apart

/-- Every bit takes from the range, or from the input. -/
def Decoder.left (d : Decoder pr) : Nat := d.input.length * 2 ^ 32 + (d.high - d.low)

structure Decoder.Beyond (d d' : Decoder pr) : Prop where
  suffix : d'.input <:+ d.input
  left_le : d'.left ≤ d.left

theorem Decoder.Beyond.refl (d : Decoder pr) : d.Beyond d := ⟨List.suffix_rfl, le_rfl⟩

theorem Decoder.Beyond.trans (h : d.Beyond d') (h' : d'.Beyond d'') : d.Beyond d'' :=
  ⟨h'.suffix.trans h.suffix, h'.left_le.trans h.left_le⟩

theorem Decoder.Settled.of_range (h : d.Settled) (hrange : d'.range = d.range) : d'.Settled := by
  have hhigh : d'.high = d.high := congrArg CodeRange.high hrange
  refine ⟨hhigh ▸ h.high_lt, ?_, ?_⟩ <;> rw [hrange]
  · exact h.valid
  · exact h.apart

theorem Decoder.Beyond.of_range (hrange : d'.range = d.range) (hsuffix : d'.input <:+ d.input) :
    d.Beyond d' := by
  have hhigh : d'.high = d.high := congrArg CodeRange.high hrange
  have hlow : d'.low = d.low := congrArg CodeRange.low hrange
  refine ⟨hsuffix, ?_⟩
  unfold Decoder.left
  rw [hhigh, hlow]
  exact Nat.add_le_add_right (Nat.mul_le_mul_right _ hsuffix.length_le) _

theorem Decoder.Settled.left_lt (h : d.Settled) : d.left < (d.input.length + 1) * 2 ^ 32 := by
  have hhigh := h.high_lt
  unfold Decoder.left
  omega

theorem Decoder.shiftIn_ends (n : Nat) (hvalid : d.range.Valid) :
    Ends (Decoder.shiftIn n d)
      (fun out => out.2.range = (CodeRange.settle n d.range).2 ∧ d.Beyond out.2)
      (Ended pr mc) := by
  induction n generalizing d with
  | zero => exact ⟨rfl, .refl d⟩
  | succ n ih =>
    by_cases hr : d.range.Apart
    · rw [Decoder.shiftIn_of_apart _ hr, CodeRange.settle_of_apart _ hr]
      exact ⟨rfl, .refl d⟩
    · have hnext := hvalid.shift hr
      cases hinput : d.input with
      | nil =>
        have hxor : d.high ^^^ d.low < 0x1000000 := (xor_lt_iff _ _).mpr hr
        unfold Decoder.shiftIn
        change Ends ((if d.high ^^^ d.low < 0x1000000 then _ else _ : DecoderM pr Unit) d) _ _
        rw [if_pos hxor]
        cases d
        cases hinput
        exact ended_error _
      | cons c input =>
        rw [Decoder.shiftIn_succ n hr hinput, CodeRange.settle_succ n hr]
        have hrest := @ih { d with
          input, low := d.range.shift.low, high := d.range.shift.high
          curr := d.curr * 256 % 2 ^ 32 + c.toNat } hnext
        refine hrest.mono ?_ fun _ => id
        rintro out ⟨hrange, hsuffix, hleft⟩
        refine ⟨hrange, hsuffix.trans ?_, hleft.trans ?_⟩
        · rw [hinput]
          exact List.suffix_cons c input
        · have hlt := hnext.lt
          unfold Decoder.left
          rw [hinput, List.length_cons]
          dsimp only
          omega

theorem Decoder.Settled.decode (h : d.Settled) (hmodeled : pr.isModeled) {p : Nat} (hp : p < 2 ^ 16) :
    Ends (Decoder.decode p d) (fun out => out.2.Settled ∧ d.Beyond out.2 ∧ out.2.left < d.left)
      (Ended pr mc) := by
  by_cases hout : d.curr < d.low ∨ d.high < d.curr
  · unfold Decoder.decode
    change Ends ((if d.curr < d.low ∨ d.high < d.curr then _ else _ : DecoderM pr Bool) d) _ _
    rw [if_pos hout]
    exact ended_error _
  · rw [Decoder.decode_eq hout]
    generalize decide (d.curr ≤ d.range.split p) = y
    have hsplit := CodeRange.split_lt (h.valid hmodeled) (h.apart hmodeled) hp
    have hlow : d.range.low ≤ d.range.split p := Nat.le_add_right _ _
    have hvalid : (d.picked y p).range.Valid := by
      rw [Decoder.range_picked]
      exact (h.valid hmodeled).pick hlow hsplit
    have hsuffix : (d.picked y p).input = d.input := by cases y <;> rfl
    have hpicked : (d.picked y p).left < d.left := by
      have hends : d.low ≤ d.range.split p ∧ d.range.split p < d.high := ⟨hlow, hsplit⟩
      unfold Decoder.left
      rw [hsuffix]
      cases y <;> simp only [Decoder.picked, if_true, Bool.false_eq_true, if_false] <;> omega
    refine (Decoder.shiftIn_ends 4 hvalid).bind ?_
    rintro out ⟨hrange, hbeyond⟩
    have hlt := hbeyond.left_le.trans_lt hpicked
    refine ⟨⟨?_, fun _ => ?_, fun _ => ?_⟩, ⟨hsuffix ▸ hbeyond.suffix, hlt.le⟩, hlt⟩
    · have hsettled := (hvalid.settle 4).lt
      rw [← hrange] at hsettled
      exact hsettled
    · rw [hrange]
      exact hvalid.settle 4
    · rw [hrange]
      exact CodeRange.apart_settle_four hvalid

theorem Predictor.predict_ends (s : pr.State) :
    Ends (pr.predict s) (fun out => out.1 * 2 + 1 < 2 ^ 16) (Ended pr mc) := by
  cases hrun : pr.predict s with
  | ok out =>
    have hlt := pr.predict_lt s out hrun
    exact (ends_ok out).mpr (by omega)
  | error stop => exact .inr (.inl (.inr (.inl ⟨s, hrun⟩)))

theorem Predictor.update_ends (y : Bool) (s : pr.State) :
    Ends (pr.update y s) (fun _ => True) (Ended pr mc) := by
  cases hrun : pr.update y s with
  | ok state => trivial
  | error stop => exact .inr (.inl (.inr (.inr ⟨y, s, hrun⟩)))

theorem Decoder.Settled.decodeBit (h : d.Settled) (hmodeled : pr.isModeled) :
    Ends (Decoder.decodeBit d) (fun out => out.2.Settled ∧ d.Beyond out.2) (Ended pr mc) := by
  rw [Decoder.decodeBit_eq]
  refine (Predictor.predict_ends d.state).bind fun p hp => ?_
  have hpredicted : Decoder.Settled { d with state := p.2 } := h.of_range rfl
  refine (hpredicted.decode hmodeled hp).bind ?_
  rintro out ⟨hsettled, hbeyond, -⟩
  refine (Predictor.update_ends out.1 out.2.state).bind fun state _ => ?_
  exact ⟨hsettled.of_range rfl, hbeyond.suffix, hbeyond.left_le⟩

theorem Decoder.Settled.decodeBits (h : d.Settled) (hmodeled : pr.isModeled) (i c : Nat) :
    Ends (Decoder.decodeBits i c d) (fun out => out.2.Settled ∧ d.Beyond out.2) (Ended pr mc) := by
  induction i generalizing c d with
  | zero => exact ⟨h, .refl d⟩
  | succ i ih =>
    by_cases hc : c < 256
    · rw [Decoder.decodeBits_succ i hc]
      refine (h.decodeBit hmodeled).bind ?_
      rintro out ⟨hsettled, hbeyond⟩
      refine (ih hsettled _).mono ?_ fun _ => id
      rintro last ⟨hlast, hmore⟩
      exact ⟨hlast, hbeyond.trans hmore⟩
    · unfold Decoder.decodeBits
      rw [if_neg hc]
      exact ⟨h, .refl d⟩

theorem Decoder.Settled.decompressModeled (h : d.Settled) (hmodeled : pr.isModeled) :
    Ends (Decoder.decompressModeled d)
      (fun out => out.2.Settled ∧ d.Beyond out.2 ∧ out.2.left < d.left) (Ended pr mc) := by
  refine (h.decode hmodeled (show 0 < 2 ^ 16 by norm_num)).bind ?_
  rintro ⟨y, d'⟩ ⟨hsettled, hbeyond, hlt⟩
  cases y with
  | true =>
    change Ends ((if d'.curr ≠ 0 then _ else _ : DecoderM pr (Option UInt8)) d') _ _
    by_cases hcurr : d'.curr ≠ 0
    · rw [if_pos hcurr]
      exact ended_error _
    · rw [if_neg hcurr]
      exact ⟨hsettled, hbeyond, hlt⟩
  | false =>
    refine (hsettled.decodeBits hmodeled 8 1).bind ?_
    rintro out ⟨hlast, hmore⟩
    exact ⟨hlast, hbeyond.trans hmore, hmore.left_le.trans_lt hlt⟩

theorem Decoder.fill_ends (n : Nat) (d : Decoder pr) :
    ∃ d', Decoder.fill n d = .ok ((), d') ∧ d'.range = d.range ∧ d'.input <:+ d.input := by
  induction n generalizing d with
  | zero => exact ⟨d, rfl, rfl, List.suffix_rfl⟩
  | succ n ih =>
    obtain ⟨d', hrun, hrange, hsuffix⟩ :=
      ih (Decoder.push d.input.head? { d with input := d.input.tail })
    exact ⟨d', hrun, hrange, hsuffix.trans (List.tail_suffix d.input)⟩

theorem Decoder.fillAtStart_ends (d : Decoder pr) :
    ∃ d', Decoder.fillAtStart d = .ok ((), d') ∧ d'.range = d.range ∧ d'.input <:+ d.input := by
  unfold Decoder.fillAtStart
  by_cases hcurr : d.curr = 0
  · obtain ⟨d', hrun, hsame⟩ := Decoder.fill_ends 4 d
    refine ⟨d', ?_, hsame⟩
    change (if d.curr = 0 then Decoder.fill 4 else pure () : DecoderM pr Unit) d = _
    rw [if_pos hcurr, hrun]
  · refine ⟨d, ?_, rfl, List.suffix_rfl⟩
    change (if d.curr = 0 then Decoder.fill 4 else pure () : DecoderM pr Unit) d = _
    rw [if_neg hcurr]
    rfl

theorem Decoder.Settled.decompressStored (h : d.Settled) :
    Ends (Decoder.decompressStored d)
      (fun out => out.2.Settled ∧ d.Beyond out.2 ∧ (out.1 ≠ none → out.2.left < d.left))
      (Ended pr mc) := by
  unfold Decoder.decompressStored
  change Ends ((if d.curr = 0 then pure none else _ : DecoderM pr (Option UInt8)) d) _ _
  by_cases hcurr : d.curr = 0
  · rw [if_pos hcurr]
    exact ⟨h, .refl d, fun hne => absurd rfl hne⟩
  · rw [if_neg hcurr]
    refine ⟨h.of_range rfl, .of_range rfl (List.tail_suffix d.input), fun hne => ?_⟩
    have hsome : d.input.head? ≠ none := hne
    cases hinput : d.input with
    | nil => exact absurd (by rw [hinput]; rfl) hsome
    | cons c input =>
      unfold Decoder.left
      rw [hinput]
      simp only [List.tail_cons, List.length_cons]
      omega

theorem Decoder.Settled.decompress (h : d.Settled) :
    Ends (Decoder.decompress d)
      (fun out => out.2.Settled ∧ d.Beyond out.2 ∧ (out.1 ≠ none → out.2.left < d.left))
      (Ended pr mc) := by
  obtain ⟨d', hfill, hrange, hsuffix⟩ := Decoder.fillAtStart_ends d
  have hsettled := h.of_range hrange
  have hbeyond := Decoder.Beyond.of_range hrange hsuffix
  have hrun : Decoder.decompress d =
      (if pr.isModeled then Decoder.decompressModeled else Decoder.decompressStored) d' :=
    bind_of_ok hfill _
  rw [hrun]
  by_cases hmodeled : pr.isModeled
  · rw [if_pos hmodeled]
    refine (hsettled.decompressModeled hmodeled).mono ?_ fun _ => id
    rintro out ⟨hlast, hmore, hlt⟩
    exact ⟨hlast, hbeyond.trans hmore, fun _ => hlt.trans_le hbeyond.left_le⟩
  · rw [if_neg hmodeled]
    refine hsettled.decompressStored.mono ?_ fun _ => id
    rintro out ⟨hlast, hmore, hlt⟩
    exact ⟨hlast, hbeyond.trans hmore, fun hne => (hlt hne).trans_le hbeyond.left_le⟩

end decoder

section loops
variable {d : Decompresser pr mc}

theorem ends_bind_of_ok {σ α β : Type} {run : StateT σ (Except ZpaqStop) α} {s s' : σ} {value : α}
    {next : α → StateT σ (Except ZpaqStop) β} {post : β × σ → Prop} {stop : ZpaqStop → Prop}
    (h : run s = .ok (value, s')) :
    Ends ((run >>= next) s) post stop ↔ Ends (next value s') post stop := by
  rw [bind_of_ok h]

theorem onDecoder_bind {α β : Type} (call : DecoderM pr α) (next : α → DecompresserM pr mc β) :
    (onDecoder call >>= next) d = call d.dec >>= fun r => next r.1 { d with dec := r.2 } := by
  change (call d.dec >>= fun r => .ok (r.1, { d with dec := r.2 })) >>= (fun r => next r.1 r.2) = _
  cases call d.dec <;> rfl

theorem onPost_bind {β : Type} (call : PostProcessor mc → Except ZpaqStop (PostProcessor mc))
    (next : Unit → DecompresserM pr mc β) :
    (onPost call >>= next) d = call d.pp >>= fun pp => next () { d with pp } := by
  change (call d.pp >>= fun pp => .ok ((), { d with pp })) >>= (fun r => next r.1 r.2) = _
  cases call d.pp <;> rfl

theorem PostProcessor.run_ends (c : Option UInt8) (pp : PostProcessor mc) :
    Ends (pp.run c) (fun _ => True) (Ended pr mc) := by
  unfold PostProcessor.run
  cases pp.machine with
  | none => trivial
  | some machine =>
    dsimp only
    cases hrun : mc.run machine c with
    | ok out => trivial
    | error stop => exact .inr (.inr (.inr ⟨machine, c, hrun⟩))

theorem PostProcessor.write_ends (c : Option UInt8) (pp : PostProcessor mc) :
    Ends (pp.write c) (fun _ => pp.state.loading = true → c ≠ none) (Ended pr mc) := by
  by_cases hpost : pp.state = .post
  · have hloading : ¬ pp.state.loading = true := by
      rw [hpost]
      decide
    unfold PostProcessor.write
    rw [hpost]
    cases c with
    | none =>
      exact (PostProcessor.run_ends none pp).bind fun _ _ h => absurd h (by decide)
    | some c =>
      exact (PostProcessor.run_ends (some c) pp).mono (fun _ _ _ => Option.some_ne_none c) fun _ => id
  · cases c with
    | none =>
      cases hstate : pp.state <;> simp only [PostProcessor.write, hstate] <;>
        first
        | exact ended_error _
        | exact absurd hstate hpost
        | exact fun h => absurd h (by decide)
    | some c =>
      have hsome : ∀ pp' : PostProcessor mc, Ends (.ok pp' : Except ZpaqStop (PostProcessor mc))
          (fun _ => pp.state.loading = true → some c ≠ none) (Ended pr mc) :=
        fun _ _ => Option.some_ne_none c
      by_cases hload : pp.state = .load
      · rw [PostProcessor.write_load c hload]
        split
        · cases hrun : mc.initp pp.ph pp.pm (pp.program ++ [c]) with
          | ok machine => exact hsome _
          | error stop => exact .inr (.inr (.inl ⟨_, _, _, hrun⟩))
        · exact hsome _
      · cases hstate : pp.state <;> simp only [PostProcessor.write, hstate] <;> (try split_ifs) <;>
          first
          | exact fun _ => Option.some_ne_none c
          | exact ended_error _
          | exact absurd hstate hpost
          | exact absurd hstate hload

theorem Decompresser.load_ends {fuel : Nat} (h : d.dec.Settled) (hfuel : d.dec.left < fuel) :
    Ends (Decompresser.load fuel d)
      (fun out => out.2.dec.Settled ∧ d.dec.Beyond out.2.dec ∧ out.2.decodeState = d.decodeState)
      (Ended pr mc) := by
  induction fuel generalizing d with
  | zero => exact absurd hfuel (Nat.not_lt_zero _)
  | succ fuel ih =>
    by_cases hloading : d.pp.state.loading = true
    · have hrun : Decompresser.load (fuel + 1) d = (onDecoder Decoder.decompress >>= fun c =>
          onPost (PostProcessor.write c) >>= fun _ => Decompresser.load fuel) d := by
        conv_lhs => unfold Decompresser.load
        change (if d.pp.state.loading then _ else pure () : DecompresserM pr mc Unit) d = _
        rw [hloading]
        rfl
      rw [hrun, onDecoder_bind]
      refine h.decompress.bind ?_
      rintro ⟨c, dec⟩ ⟨hsettled, hbeyond, hlt⟩
      rw [onPost_bind]
      refine (PostProcessor.write_ends c d.pp).bind ?_
      intro pp hsome
      have hless := hlt (hsome hloading)
      refine (@ih { d with dec, pp } hsettled (by dsimp only at hless ⊢; omega)).mono ?_ fun _ => id
      rintro out ⟨hlast, hmore, hstate⟩
      exact ⟨hlast, hbeyond.trans hmore, hstate⟩
    · rw [Decompresser.load_done fuel (Bool.eq_false_iff.mpr hloading)]
      exact ⟨h, .refl _, rfl⟩

theorem Decompresser.decompressLoop_ends {fuel : Nat} (h : d.dec.Settled) (hfuel : d.dec.left < fuel) :
    Ends (Decompresser.decompressLoop fuel none d)
      (fun out => out.2.dec.Settled ∧ d.dec.Beyond out.2.dec ∧ out.2.decodeState = d.decodeState ∧
        out.2.state = .segend)
      (Ended pr mc) := by
  induction fuel generalizing d with
  | zero => exact absurd hfuel (Nat.not_lt_zero _)
  | succ fuel ih =>
    have hrun : Decompresser.decompressLoop (fuel + 1) none d =
        (onDecoder Decoder.decompress >>= fun c =>
        onPost (PostProcessor.write c) >>= fun _ =>
          if c = none then modify (fun d => { d with state := .segend }) >>= fun _ => pure false
          else Decompresser.decompressLoop fuel none) d := by
      conv_lhs => unfold Decompresser.decompressLoop
      rw [if_neg (by simp)]
      rfl
    rw [hrun, onDecoder_bind]
    refine h.decompress.bind ?_
    rintro ⟨c, dec⟩ ⟨hsettled, hbeyond, hlt⟩
    rw [onPost_bind]
    refine (PostProcessor.write_ends c d.pp).bind ?_
    intro pp _
    by_cases hc : c = none
    · rw [if_pos hc]
      exact ⟨hsettled, hbeyond, rfl, rfl⟩
    · rw [if_neg hc]
      have hless := hlt hc
      refine (@ih { d with dec, pp } hsettled (by dsimp only at hless ⊢; omega)).mono ?_ fun _ => id
      rintro out ⟨hlast, hmore, hstate⟩
      exact ⟨hlast, hbeyond.trans hmore, hstate⟩

end loops

section block
variable {d d' d'' : Decompresser pr mc}

/-- What the calls between two calls of `decompress` leave of a `Decompresser`. -/
structure Decompresser.Onward (d d' : Decompresser pr mc) : Prop where
  decodeState : d'.decodeState = d.decodeState
  range : d'.dec.range = d.dec.range
  suffix : d'.dec.input <:+ d.dec.input

theorem Decompresser.Onward.trans (h : d.Onward d') (h' : d'.Onward d'') : d.Onward d'' :=
  ⟨h'.decodeState.trans h.decodeState, h'.range.trans h.range, h'.suffix.trans h.suffix⟩

/-- A `Decompresser` that may be told to decompress. -/
def Decompresser.MayDecompress (d : Decompresser pr mc) : Prop :=
  d.decodeState = .firstseg ∨ d.decodeState = .seg ∧ d.dec.Settled

theorem Decompresser.MayDecompress.onward (h : d.MayDecompress) (hon : d.Onward d') : d'.MayDecompress := by
  obtain hfirst | ⟨hseg, hsettled⟩ := h
  · exact .inl (hon.decodeState.trans hfirst)
  · exact .inr ⟨hon.decodeState.trans hseg, hsettled.of_range hon.range⟩

theorem readString_ends (input : List UInt8) :
    Ends (readString input) (fun out => out.2 <:+ input) (Ended pr mc) := by
  induction input with
  | nil => exact ended_error _
  | cons c input ih =>
    unfold readString
    by_cases hc : c = 0
    · rw [if_pos hc]
      exact List.suffix_cons c input
    · rw [if_neg hc]
      exact ih.bind fun out hout => hout.trans (List.suffix_cons c input)

theorem Decoder.getString_ends (dec : Decoder pr) :
    Ends (Decoder.getString dec) (fun out => out.2.range = dec.range ∧ out.2.input <:+ dec.input)
      (Ended pr mc) :=
  (readString_ends dec.input).bind fun _ hout => ⟨rfl, hout⟩

theorem Decoder.getChecksum_ends (n : Nat) (dec : Decoder pr) :
    ∃ bytes dec', Decoder.getChecksum n dec = .ok (bytes, dec') ∧ dec'.range = dec.range ∧
      dec'.input <:+ dec.input := by
  induction n generalizing dec with
  | zero => exact ⟨[], dec, rfl, rfl, List.suffix_rfl⟩
  | succ n ih =>
    have hget : Decoder.get dec = .ok (dec.input.head?, { dec with input := dec.input.tail }) := rfl
    obtain ⟨bytes, dec', hrun, hrange, hsuffix⟩ := ih { dec with input := dec.input.tail }
    exact ⟨_, dec', (bind_of_ok hget _).trans (bind_of_ok hrun _), hrange,
      hsuffix.trans (List.tail_suffix dec.input)⟩

theorem Decompresser.findFilename_ends (hstate : d.state = .filename) :
    Ends (Decompresser.findFilename d)
      (fun out => d.Onward out.2 ∧ (out.1 = none → out.2.state = .block) ∧
        (out.1 ≠ none → out.2.state = .comment ∧ out.2.dec.input.length < d.dec.input.length))
      (Ended pr mc) := by
  have hassert : assertState .filename d = .ok ((), d) := if_pos hstate
  cases hinput : d.dec.input with
  | nil =>
    have hget : onDecoder Decoder.get d = .ok (none, { d with dec := { d.dec with input := [] } }) :=
      onDecoder_of_ok (by unfold Decoder.get; rw [hinput]; rfl)
    have hrun : Decompresser.findFilename d = .error (.error "missing segment or end of block") :=
      (bind_of_ok hassert _).trans (bind_of_ok hget _)
    rw [hrun]
    exact ended_error _
  | cons c input =>
    have hsuffix : input <:+ d.dec.input := by
      rw [hinput]
      exact List.suffix_cons c input
    have hget := @onDecoder_of_ok pr mc d _ _ _ _ (Decoder.get_cons hinput)
    refine (ends_bind_of_ok hassert).mpr ((ends_bind_of_ok hget).mpr ?_)
    by_cases hone : c = 1
    · rw [if_pos (congrArg some hone), onDecoder_bind]
      refine (Decoder.getString_ends _).bind ?_
      rintro out ⟨hrange, hrest⟩
      refine ⟨⟨rfl, hrange, hrest.trans hsuffix⟩, fun hnone => ?_, fun _ => ⟨rfl, ?_⟩⟩
      · cases hnone
      · exact Nat.lt_succ_of_le hrest.length_le
    · rw [if_neg fun h => hone (Option.some.inj h)]
      by_cases hend : c = 255
      · rw [if_pos (congrArg some hend)]
        exact ⟨⟨rfl, rfl, hsuffix⟩, fun _ => rfl, fun hne => absurd rfl hne⟩
      · rw [if_neg fun h => hend (Option.some.inj h)]
        exact ended_error _

theorem Decompresser.readComment_ends (hstate : d.state = .comment) :
    Ends (Decompresser.readComment d) (fun out => d.Onward out.2 ∧ out.2.state = .data)
      (Ended pr mc) := by
  have hassert : assertState .comment d = .ok ((), d) := if_pos hstate
  have hmodify : (modify fun d => { d with state := .data } : DecompresserM pr mc Unit) d =
      .ok ((), { d with state := .data }) := rfl
  refine (ends_bind_of_ok hassert).mpr ((ends_bind_of_ok hmodify).mpr ?_)
  rw [onDecoder_bind]
  refine (Decoder.getString_ends d.dec).bind ?_
  rintro ⟨comment, dec⟩ ⟨hrange, hsuffix⟩
  have hget : Decoder.get dec = .ok (dec.input.head?, { dec with input := dec.input.tail }) := rfl
  refine (ends_bind_of_ok (onDecoder_of_ok hget)).mpr ?_
  by_cases hzero : dec.input.head? ≠ some 0
  · rw [if_pos hzero]
    exact ended_error _
  · rw [if_neg hzero]
    exact ⟨⟨rfl, hrange, (List.tail_suffix dec.input).trans hsuffix⟩, rfl⟩

theorem Decompresser.readSegmentEnd_ends (hstate : d.state = .segend) :
    Ends (Decompresser.readSegmentEnd d) (fun out => d.Onward out.2 ∧ out.2.state = .filename)
      (Ended pr mc) := by
  have hother : d.state ≠ .data := by
    rw [hstate]
    decide
  have hassert : ¬ (d.state ≠ .data ∧ d.state ≠ .segend) := fun h => h.2 hstate
  have hget : (MonadState.get : DecompresserM pr mc _) d = .ok (d, d) := rfl
  have hmarker : (if d.state = .data then onDecoder Decoder.skip else onDecoder Decoder.get) d =
      .ok (d.dec.input.head?, { d with dec := { d.dec with input := d.dec.input.tail } }) := by
    rw [if_neg hother]
    exact onDecoder_of_ok rfl
  have hmodify : (modify fun e : Decompresser pr mc => { e with
      decodeState := if d.state = .data then .skip else e.decodeState, state := .filename } :
        DecompresserM pr mc Unit) { d with dec := { d.dec with input := d.dec.input.tail } } =
      .ok ((), { d with
        dec := { d.dec with input := d.dec.input.tail }
        decodeState := if d.state = .data then .skip else d.decodeState, state := .filename }) := rfl
  refine (ends_bind_of_ok hget).mpr ?_
  rw [if_neg hassert]
  refine (ends_bind_of_ok hmarker).mpr ((ends_bind_of_ok hmodify).mpr ?_)
  have htail := List.tail_suffix d.dec.input
  have hkept : (if d.state = .data then .skip else d.decodeState) = d.decodeState := if_neg hother
  by_cases hplain : d.dec.input.head? = some 254
  · rw [if_pos hplain]
    exact ⟨⟨hkept, rfl, htail⟩, rfl⟩
  · rw [if_neg hplain]
    by_cases hsigned : d.dec.input.head? = some 253
    · obtain ⟨sha1, dec, hrun, hrange, hsuffix⟩ :=
        Decoder.getChecksum_ends 20 { d.dec with input := d.dec.input.tail }
      have hcall : (onDecoder (Decoder.getChecksum 20) : DecompresserM pr mc _) { d with
          dec := { d.dec with input := d.dec.input.tail }
          decodeState := if d.state = .data then .skip else d.decodeState, state := .filename } =
          .ok (sha1, { d with
            dec, decodeState := if d.state = .data then .skip else d.decodeState
            state := .filename }) := onDecoder_of_ok hrun
      rw [if_pos hsigned]
      rw [bind_of_ok hcall]
      exact ⟨⟨hkept, hrange, hsuffix.trans htail⟩, rfl⟩
    · rw [if_neg hsigned]
      exact ended_error _

theorem Decoder.settled_inited (state : pr.State) (dec : Decoder pr) :
    (dec.inited state).Settled ∧ (dec.inited state).input = dec.input := by
  by_cases hmodeled : pr.isModeled
  · have hdec := Decoder.inited_modeled hmodeled state dec
    have hrange : (dec.inited state).range = ⟨1, 0xFFFFFFFF⟩ := by rw [hdec]; rfl
    have hvalid : (dec.inited state).range.Valid := by
      rw [hrange]
      exact ⟨by decide, by decide, by decide⟩
    have hapart : (dec.inited state).range.Apart := by
      rw [hrange]
      decide
    exact ⟨⟨hvalid.lt, fun _ => hvalid, fun _ => hapart⟩, by rw [hdec]⟩
  · have hdec := Decoder.inited_stored hmodeled state dec
    have hhigh : (dec.inited state).high < 2 ^ 32 := by
      rw [hdec]
      norm_num
    refine ⟨⟨hhigh, ?_, ?_⟩, by rw [hdec]⟩
    · exact fun hyes => absurd hyes hmodeled
    · exact fun hyes => absurd hyes hmodeled

theorem Decompresser.MayDecompress.initFirst (h : d.MayDecompress) :
    Ends d.initFirst (fun first => first.dec.Settled ∧ first.dec.input = d.dec.input ∧
      first.decodeState = .seg) (Ended pr mc) := by
  obtain hfirst | ⟨hseg, hsettled⟩ := h
  · rw [Decompresser.initFirst_firstseg hfirst]
    cases hinit : pr.init with
    | ok state =>
      obtain ⟨hsettled, hinput⟩ := Decoder.settled_inited state d.dec
      exact ⟨hsettled, hinput, rfl⟩
    | error stop => exact .inr (.inl (.inl hinit))
  · rw [Decompresser.initFirst_seg hseg]
    exact ⟨hsettled, rfl, hseg⟩

theorem Decompresser.MayDecompress.decompress (h : d.MayDecompress) (hstate : d.state = .data) {fuel : Nat}
    (hfuel : (d.dec.input.length + 1) * 2 ^ 32 ≤ fuel) :
    Ends (Decompresser.decompress fuel none d)
      (fun out => out.2.MayDecompress ∧ out.2.dec.input <:+ d.dec.input ∧ out.2.state = .segend)
      (Ended pr mc) := by
  have hskip : d.decodeState ≠ .skip := by
    obtain hfirst | ⟨hseg, -⟩ := h
    · rw [hfirst]
      decide
    · rw [hseg]
      decide
  rw [Decompresser.decompress_split fuel none hstate hskip]
  refine h.initFirst.bind ?_
  rintro first ⟨hsettled, hinput, hseg⟩
  have hleft : first.dec.left < fuel := by
    have hlt := hsettled.left_lt
    rw [hinput] at hlt
    exact hlt.trans_le hfuel
  refine (Decompresser.load_ends hsettled hleft).bind ?_
  rintro out ⟨hloaded, hbeyond, hdecode⟩
  refine (Decompresser.decompressLoop_ends hloaded (hbeyond.left_le.trans_lt hleft)).mono ?_ fun _ => id
  rintro last ⟨hlast, hmore, hdecode', hsegend⟩
  refine ⟨.inr ⟨hdecode'.trans (hdecode.trans hseg), hlast⟩, ?_, hsegend⟩
  rw [← hinput]
  exact (hbeyond.trans hmore).suffix

theorem Decompresser.MayDecompress.decompressBlock (h : d.MayDecompress) (hstate : d.state = .filename) {fuel : Nat}
    (hfuel : (d.dec.input.length + 1) * 2 ^ 32 ≤ fuel) {rounds : Nat}
    (hrounds : d.dec.input.length < rounds) :
    Ends (Decompresser.decompressBlock fuel rounds d)
      (fun out => out.2.state = .block ∧ out.2.dec.input <:+ d.dec.input) (Ended pr mc) := by
  induction rounds generalizing d with
  | zero => exact absurd hrounds (Nat.not_lt_zero _)
  | succ rounds ih =>
    -- a fuel that is enough for the input is enough for what is left of it
    have hless : ∀ {input : List UInt8}, input <:+ d.dec.input → (input.length + 1) * 2 ^ 32 ≤ fuel :=
      fun hsuffix => (Nat.mul_le_mul_right _ (Nat.succ_le_succ hsuffix.length_le)).trans hfuel
    unfold Decompresser.decompressBlock
    refine (Decompresser.findFilename_ends hstate).bind ?_
    rintro ⟨filename, d₁⟩ ⟨hon, hend, hname⟩
    change Ends ((if filename = none then _ else _ : DecompresserM pr mc Unit) d₁) _ _
    by_cases hnone : filename = none
    · rw [if_pos hnone]
      exact ⟨hend hnone, hon.suffix⟩
    · rw [if_neg hnone]
      obtain ⟨hcomment, hshort⟩ := hname hnone
      refine (Decompresser.readComment_ends hcomment).bind ?_
      rintro ⟨comment, d₂⟩ ⟨hread, hdata⟩
      have hon₂ := hon.trans hread
      refine ((h.onward hon₂).decompress hdata (hless hon₂.suffix)).bind ?_
      rintro ⟨full, d₃⟩ ⟨hmay, hsuffix, hsegend⟩
      refine (Decompresser.readSegmentEnd_ends hsegend).bind ?_
      rintro ⟨sha1string, d₄⟩ ⟨hon₄, hfilename⟩
      have hall := hon₄.suffix.trans (hsuffix.trans hon₂.suffix)
      have hlength : d₄.dec.input.length < rounds := by
        have hlast := (hon₄.suffix.trans (hsuffix.trans hread.suffix)).length_le
        dsimp only at hlast hshort
        omega
      refine (ih (hmay.onward hon₄) hfilename (hless hall) hlength).mono ?_ fun _ => id
      rintro out ⟨hblock, hrest⟩
      exact ⟨hblock, hrest.trans hall⟩

theorem not_evenPredictor_stops (stop : ZpaqStop) : ¬ evenPredictor.Stops stop := by
  rintro (h | ⟨s, h⟩ | ⟨y, s, h⟩) <;> cases h

theorem outHalt_stops {stop : ZpaqStop} (h : outHalt.Stops stop) : ∃ msg, stop = .error msg := by
  obtain ⟨ph, pm, program, h⟩ | ⟨s, c, h⟩ := h
  · simp only [outHalt] at h
    split_ifs at h <;> exact ⟨_, (Except.error.inj h).symm⟩
  · simp only [outHalt] at h
    split_ifs at h
    exact ⟨_, (Except.error.inj h).symm⟩

/-- A block of two segments, or its first bytes. -/
def evenBlock (n : Nat) : Decompresser evenPredictor outHalt :=
  .foundBlock outHalt 0 0
    (.fresh evenPredictor ((evenBody [57, 56, 0] [plainSegment, signedSegment]).take n)) (.fresh outHalt)

/-- On any bytes behind a block's header the decompressor's own loops end: it comes to the
end of the block, or stops in `error`, or as a program stops that it runs. -/
theorem decompressBlock_anyInput (pr : Predictor) (mc : Machine) (ph pm : Nat) (dec : Decoder pr)
    (pp : PostProcessor mc) (fuel rounds : Nat) (hfuel : (dec.input.length + 1) * 2 ^ 32 ≤ fuel)
    (hrounds : dec.input.length < rounds) :
    (∃ d, Decompresser.decompressBlock fuel rounds (Decompresser.foundBlock mc ph pm dec pp) =
        .ok ((), d) ∧ d.state = .block ∧ d.dec.input <:+ dec.input) ∨
      ∃ stop, Decompresser.decompressBlock fuel rounds (Decompresser.foundBlock mc ph pm dec pp) =
        .error stop ∧ ((∃ msg, stop = .error msg) ∨ pr.Stops stop ∨ mc.Stops stop) := by
  have hmay : (Decompresser.foundBlock mc ph pm dec pp).MayDecompress := .inl rfl
  have hends := hmay.decompressBlock rfl hfuel hrounds
  cases hrun : Decompresser.decompressBlock fuel rounds (Decompresser.foundBlock mc ph pm dec pp) with
  | ok out => exact .inl ⟨out.2, rfl, hends.of_ok hrun⟩
  | error stop => exact .inr ⟨stop, rfl, hends.of_error hrun⟩

/-- The two segments, read to the end of the block, and the same bytes cut in the second. -/
theorem decompressBlock_anyInput_two :
    (∃ d, Decompresser.decompressBlock (2 ^ 38) 64 (evenBlock 56) = .ok ((), d) ∧ d.state = .block ∧
        d.dec.input <:+ (evenBlock 56).dec.input ∧ d.pp.output = [1, 2, 255, 3, 255]) ∧
      ∃ msg, Decompresser.decompressBlock (2 ^ 38) 64 (evenBlock 30) = .error (.error msg) := by
  have hblock := fun n => decompressBlock_anyInput evenPredictor outHalt 0 0 (.fresh evenPredictor
    ((evenBody [57, 56, 0] [plainSegment, signedSegment]).take n)) (.fresh outHalt) (2 ^ 38) 64
  have hshown : (Decompresser.decompressBlock (2 ^ 38) 64 (evenBlock 56)).toOption.map
      (fun out => out.2.pp.output) = some [1, 2, 255, 3, 255] := by decide +kernel
  have hcut : (Decompresser.decompressBlock (2 ^ 38) 64 (evenBlock 30)).toOption.isNone := by
    decide +kernel
  constructor
  · obtain ⟨d, hrun, hstate, hsuffix⟩ | ⟨stop, hrun, -⟩ :=
      hblock 56 (by decide +kernel) (by decide +kernel)
    · rw [evenBlock, hrun] at hshown
      exact ⟨d, hrun, hstate, hsuffix, Option.some.inj hshown⟩
    · rw [evenBlock, hrun] at hshown
      cases hshown
  · obtain ⟨d, hrun, -⟩ | ⟨stop, hrun, hstop⟩ := hblock 30 (by decide +kernel) (by decide +kernel)
    · rw [evenBlock, hrun] at hcut
      cases hcut
    · obtain ⟨msg, rfl⟩ | hstops | hstops := hstop
      · exact ⟨msg, hrun⟩
      · exact absurd hstops (not_evenPredictor_stops stop)
      · obtain ⟨msg, rfl⟩ := outHalt_stops hstops
        exact ⟨msg, hrun⟩

end block

end TonCompress.Zpaq
