import TonCompress.Zpaq.Post
import TonCompress.Zpaq.Stored

/-! What `Compressor` writes into a block `Decompresser` reads back. -/
namespace TonCompress.Zpaq
open TonCompress.Lib

variable {pr : Predictor} {mc : Machine}

section coder

/-- The encoder between two segments. -/
structure Encoder.Ready (e : Encoder pr) : Prop where
  settled : pr.isModeled → e.Settled
  empty : ¬ pr.isModeled → e.low = 0

theorem Encoder.ready_init {e e' : Encoder pr} (h : e.init = .ok e') : e'.Ready := by
  obtain ⟨state, -, hlast⟩ := bind_eq_ok.mp h
  obtain rfl := Except.ok.inj hlast
  constructor
  · intro hmodeled
    have hlow : (if pr.isModeled then 1 else 0) = 1 := if_pos hmodeled
    constructor <;> simp only [Encoder.range, hlow]
    · exact ⟨by decide, by decide, by decide⟩
    · decide
  · intro hstored
    exact if_neg hstored

theorem Encoder.Ready.write {e : Encoder pr} (h : e.Ready) (bytes : List UInt8) :
    (e.write bytes).Ready :=
  ⟨fun hmodeled => ⟨(h.settled hmodeled).valid, (h.settled hmodeled).apart⟩, h.empty⟩

theorem Encoder.prefix_encodeBits (c : UInt8) (i : Nat) {e e' : Encoder pr}
    (h : e.encodeBits c i = .ok e') : e.out <+: e'.out := by
  induction i generalizing e with
  | zero =>
    obtain rfl := Except.ok.inj h
    exact List.prefix_rfl
  | succ i ih =>
    rw [Encoder.encodeBits_succ] at h
    obtain ⟨e₁, hbit, hrest⟩ := bind_eq_ok.mp h
    obtain ⟨p, -, hbit⟩ := bind_eq_ok.mp hbit
    obtain ⟨state, -, hbit⟩ := bind_eq_ok.mp hbit
    obtain rfl := Except.ok.inj hbit
    refine List.IsPrefix.trans ?_ (ih hrest)
    dsimp only
    rw [Encoder.out_encode]
    exact List.prefix_append _ _

theorem Encoder.prefix_compress (hmodeled : pr.isModeled) {c : Option UInt8} {e e' : Encoder pr}
    (h : e.compress c = .ok e') : e.out <+: e'.out := by
  have hencode : ∀ y, e.out <+: (e.encode y 0).out := by
    intro y
    rw [Encoder.out_encode]
    exact List.prefix_append _ _
  unfold Encoder.compress at h
  rw [if_pos hmodeled] at h
  cases c with
  | none =>
    obtain rfl := Except.ok.inj h
    exact hencode true
  | some c => exact (hencode false).trans (Encoder.prefix_encodeBits c 8 h)

theorem Encoder.prefix_compressAll (hmodeled : pr.isModeled) (cs : List UInt8) {e e' : Encoder pr}
    (h : e.compressAll cs = .ok e') : e.out <+: e'.out := by
  induction cs generalizing e with
  | nil =>
    rw [Encoder.compressAll_nil] at h
    exact Encoder.prefix_compress hmodeled h
  | cons c cs ih =>
    rw [Encoder.compressAll_cons] at h
    obtain ⟨e₁, hfirst, hothers⟩ := bind_eq_ok.mp h
    exact (Encoder.prefix_compress hmodeled hfirst).trans (ih hothers)

theorem Encoder.Ready.compressAll {e e' : Encoder pr} (h : e.Ready) {cs : List UInt8}
    (hsend : e.compressAll cs = .ok e') :
    e'.Ready ∧ ∃ code, e'.out = e.out ++ code ∧
      ∀ marker rest, marker ≠ 0 →
        (∀ d : Decoder pr, d.curr = 0 → d.input = code ++ (List.replicate 4 0 ++ marker :: rest) →
          Skips marker rest d) ∧
        ∀ d, Waits e (code ++ (List.replicate 4 0 ++ marker :: rest)) d →
          Reads marker rest (Waits e' (marker :: rest)) cs d := by
  by_cases hmodeled : pr.isModeled
  · have he := h.settled hmodeled
    obtain ⟨code, hcode⟩ := Encoder.prefix_compressAll hmodeled cs hsend
    have hsettled := (@reads_modeled pr 1 [] hmodeled (by decide) cs e e' he hsend).1
    refine ⟨⟨fun _ => hsettled, fun hstored => absurd hmodeled hstored⟩, code, hcode.symm, ?_⟩
    intro marker rest hmarker
    obtain ⟨-, code', htape, hholds, hsealed, hreads⟩ :=
      @reads_modeled pr marker rest hmodeled hmarker cs e e' he hsend
    have hsame : code' = code ++ (List.replicate 4 0 ++ marker :: rest) := by
      rw [← hcode, List.append_assoc] at htape
      exact (List.append_cancel_left htape).symm
    have hwindow := Nat.pos_iff_ne_zero.mp (he.valid.pos.trans_le hholds.low_le)
    rw [hsame] at hsealed hwindow hreads
    constructor
    · intro d hcurr hinput
      exact Aligned.skips hmodeled hmarker (.start hcurr hinput) hsealed hwindow
    · intro d hd
      obtain ⟨hlow, hhigh, hstate⟩ := hd.inStep hmodeled
      exact hreads d (.start hd.curr hd.input) hlow hhigh hstate
  · have hbuffers : e.low ≤ e.buf.length ∧ e.low ≤ bufSize := by
      rw [h.empty hmodeled]
      omega
    obtain ⟨hlow, blocks, hblocks, hflatten, hout⟩ :=
      @compressAll_stored pr hmodeled cs e e' ⟨hbuffers.1, hbuffers.2⟩ hsend
    rw [Encoder.pending, h.empty hmodeled, List.take_zero, List.nil_append] at hflatten
    refine ⟨⟨fun hyes => absurd hyes hmodeled, fun _ => hlow⟩, storedCode blocks, hout, ?_⟩
    intro marker rest _
    constructor
    · intro d hcurr hinput
      exact @Inside.skips pr marker rest hmodeled [] blocks hblocks d ⟨hcurr, hinput⟩
    · intro d hd
      have hreads := @Inside.reads pr marker rest (Waits e' (marker :: rest)) hmodeled
        blocks hblocks (fun d hcurr hinput => ⟨hcurr, hinput, fun hyes => absurd hyes hmodeled⟩) [] d
        ⟨hd.curr, hd.input⟩
      rwa [List.nil_append, hflatten] at hreads

end coder

section framing

theorem readString_append {name : List UInt8} (hname : 0 ∉ name) (input : List UInt8) :
    readString (name ++ 0 :: input) = .ok (name, input) := by
  induction name with
  | nil => rfl
  | cons c name ih =>
    rw [List.mem_cons, not_or] at hname
    rw [List.cons_append, readString, if_neg (Ne.symm hname.1), ih hname.2]
    rfl

theorem Decoder.getString_append {d : Decoder pr} {name input : List UInt8} (hname : 0 ∉ name)
    (hinput : d.input = name ++ 0 :: input) : Decoder.getString d = .ok (name, { d with input }) := by
  unfold Decoder.getString
  rw [hinput, readString_append hname]
  rfl

theorem Decompresser.findFilename_some {d : Decompresser pr mc} (hstate : d.state = .filename)
    {filename input : List UInt8} (hname : 0 ∉ filename)
    (hinput : d.dec.input = 1 :: (filename ++ 0 :: input)) :
    Decompresser.findFilename d =
      .ok (some filename, { d with dec := { d.dec with input }, state := .comment }) := by
  have hassert : assertState .filename d = .ok ((), d) := if_pos hstate
  have hget := @onDecoder_of_ok pr mc d _ _ _ _ (Decoder.get_cons hinput)
  have hstring : onDecoder Decoder.getString
      { d with dec := { d.dec with input := filename ++ 0 :: input } } =
        .ok (filename, { d with dec := { d.dec with input } }) :=
    onDecoder_of_ok (Decoder.getString_append hname rfl)
  refine (bind_of_ok hassert _).trans ((bind_of_ok hget _).trans ?_)
  rw [if_pos rfl]
  exact bind_of_ok hstring _

theorem Decompresser.findFilename_none {d : Decompresser pr mc} (hstate : d.state = .filename)
    {input : List UInt8} (hinput : d.dec.input = 255 :: input) :
    Decompresser.findFilename d =
      .ok (none, { d with dec := { d.dec with input }, state := .block }) := by
  have hassert : assertState .filename d = .ok ((), d) := if_pos hstate
  have hget := @onDecoder_of_ok pr mc d _ _ _ _ (Decoder.get_cons hinput)
  exact (bind_of_ok hassert _).trans (bind_of_ok hget _)

theorem Decompresser.readComment_eq {d : Decompresser pr mc} (hstate : d.state = .comment)
    {comment input : List UInt8} (hname : 0 ∉ comment)
    (hinput : d.dec.input = comment ++ 0 :: 0 :: input) :
    Decompresser.readComment d =
      .ok (comment, { d with dec := { d.dec with input }, state := .data }) := by
  have hassert : assertState .comment d = .ok ((), d) := if_pos hstate
  have hmodify : (modify fun d => { d with state := .data } : DecompresserM pr mc Unit) d =
      .ok ((), { d with state := .data }) := rfl
  have hstring : onDecoder Decoder.getString { d with state := .data } =
      .ok (comment, { d with dec := { d.dec with input := 0 :: input }, state := .data }) :=
    onDecoder_of_ok (Decoder.getString_append hname hinput)
  exact (bind_of_ok hassert _).trans ((bind_of_ok hmodify _).trans (bind_of_ok hstring _))

theorem checksumBytes_eq (sha1string : Option (List UInt8)) (input : List UInt8) :
    ∃ marker rest, marker ≠ 0 ∧ marker :: rest = checksumBytes sha1string ++ input := by
  cases sha1string with
  | none => exact ⟨254, input, by decide, rfl⟩
  | some sha1 => exact ⟨253, sha1 ++ input, by decide, rfl⟩

theorem Decoder.getChecksum_append (bytes : List UInt8) {input : List UInt8} {dec : Decoder pr}
    (hinput : dec.input = bytes ++ input) :
    Decoder.getChecksum bytes.length dec = .ok (bytes, { dec with input }) := by
  induction bytes generalizing dec with
  | nil =>
    rw [List.nil_append] at hinput
    rw [← hinput]
    rfl
  | cons c bytes ih =>
    have hget := Decoder.get_cons (hinput.trans (List.cons_append))
    have hrest : Decoder.getChecksum bytes.length { dec with input := bytes ++ input } =
        .ok (bytes, { dec with input }) := ih rfl
    exact (bind_of_ok hget _).trans (bind_of_ok hrest _)

theorem Decompresser.readSegmentEnd_eq {d : Decompresser pr mc} {dec : Decoder pr} {marker : UInt8}
    {rest input : List UInt8} {sha1string : Option (List UInt8)}
    (hlength : ∀ sha1 ∈ sha1string, sha1.length = 20)
    (hbytes : marker :: rest = checksumBytes sha1string ++ input)
    (hstate : d.state = .data ∨ d.state = .segend)
    (hmarker : (if d.state = .data then onDecoder Decoder.skip else onDecoder Decoder.get) d =
      .ok (some marker, { d with dec }))
    (hinput : dec.input = rest) :
    Decompresser.readSegmentEnd d =
      .ok (sha1string, { d with
        dec := { dec with input }
        decodeState := if d.state = .data then .skip else d.decodeState, state := .filename }) := by
  have hget : (MonadState.get : DecompresserM pr mc _) d = .ok (d, d) := rfl
  have hassert : ¬ (d.state ≠ .data ∧ d.state ≠ .segend) := by tauto
  have hmodify : (modify fun e : Decompresser pr mc => { e with
      decodeState := if d.state = .data then .skip else e.decodeState, state := .filename } :
        DecompresserM pr mc Unit) { d with dec } =
      .ok ((), { d with
        dec, decodeState := if d.state = .data then .skip else d.decodeState, state := .filename }) :=
    rfl
  refine (bind_of_ok hget _).trans ?_
  rw [if_neg hassert]
  refine (bind_of_ok hmarker _).trans ((bind_of_ok hmodify _).trans ?_)
  cases sha1string with
  | none =>
    obtain ⟨rfl, rfl⟩ := List.cons.inj hbytes
    rw [if_pos rfl]
    subst hinput
    rfl
  | some sha1 =>
    obtain ⟨rfl, rfl⟩ := List.cons.inj hbytes
    have hcall := Decoder.getChecksum_append sha1 hinput
    rw [hlength sha1 rfl] at hcall
    have hsha1 : (onDecoder (Decoder.getChecksum 20) : DecompresserM pr mc _) { d with
        dec, decodeState := if d.state = .data then .skip else d.decodeState, state := .filename } =
        .ok (sha1, { d with
          dec := { dec with input }
          decodeState := if d.state = .data then .skip else d.decodeState, state := .filename }) :=
      onDecoder_of_ok hcall
    rw [if_neg (by decide), if_pos rfl]
    exact bind_of_ok hsha1 _

theorem Decompresser.readSegmentEnd_segend {d : Decompresser pr mc} (hstate : d.state = .segend)
    {input : List UInt8} {sha1string : Option (List UInt8)}
    (hlength : ∀ sha1 ∈ sha1string, sha1.length = 20)
    (hinput : d.dec.input = checksumBytes sha1string ++ input) :
    Decompresser.readSegmentEnd d =
      .ok (sha1string, { d with dec := { d.dec with input }, state := .filename }) := by
  obtain ⟨marker, rest, -, hbytes⟩ := checksumBytes_eq sha1string input
  have hother : d.state ≠ .data := by
    rw [hstate]
    decide
  have hget := @onDecoder_of_ok pr mc d _ _ _ _ (Decoder.get_cons (hinput.trans hbytes.symm))
  have hmarker : (if d.state = .data then onDecoder Decoder.skip else onDecoder Decoder.get) d =
      .ok (some marker, { d with dec := { d.dec with input := rest } }) := by
    rw [if_neg hother, hget]
  have hend := Decompresser.readSegmentEnd_eq hlength hbytes (.inr hstate) hmarker rfl
  rwa [if_neg hother] at hend

end framing

section segment

def Encoder.opened (first : Bool) (s : Segment) (e : Encoder pr) : Except ZpaqStop (Encoder pr) :=
  if first then (e.startSegment s.filename s.comment).init
  else .ok (e.startSegment s.filename s.comment)

def segmentBytes (first : Bool) (pcomp data : List UInt8) : List UInt8 :=
  (if first then postProcessCode pcomp else []) ++ data

def Encoder.closed (s : Segment) (e : Encoder pr) : Encoder pr :=
  (e.write (List.replicate 4 0)).write (checksumBytes s.sha1string)

theorem Encoder.segment_eq (first : Bool) (pcomp : List UInt8) (s : Segment) (e : Encoder pr) :
    e.segment first pcomp s = e.opened first s >>= fun e =>
      e.compressAll (segmentBytes first pcomp s.data) >>= fun e => .ok (e.closed s) := by
  unfold Encoder.segment Encoder.postProcess Encoder.opened Encoder.compressAll segmentBytes
  cases first with
  | false => simp only [Bool.false_eq_true, if_false, List.nil_append, ok_bind, bind_assoc]; rfl
  | true => simp only [if_true, List.foldlM_append, bind_assoc]; rfl

def segmentTail (code : List UInt8) (s : Segment) (input : List UInt8) : List UInt8 :=
  code ++ (List.replicate 4 0 ++ (checksumBytes s.sha1string ++ input))

def segmentCode (code : List UInt8) (s : Segment) (input : List UInt8) : List UInt8 :=
  1 :: (s.filename ++ 0 :: (s.comment ++ 0 :: 0 :: segmentTail code s input))

/-- `code` can be skipped up to `input`, and it can be read by a decoder that
waits for `e`. -/
structure Codes (e e' : Encoder pr) (bytes code input : List UInt8) (marker : UInt8)
    (rest : List UInt8) : Prop where
  skips : ∀ d : Decoder pr, d.curr = 0 → d.input = code ++ (List.replicate 4 0 ++ input) →
    Skips marker rest d
  reads : ∀ d, Waits e (code ++ (List.replicate 4 0 ++ input)) d →
    Reads marker rest (Waits e' input) bytes d

theorem Encoder.segment_code (first : Bool) (pcomp : List UInt8) (s : Segment) {e e' : Encoder pr}
    (hready : first = false → e.Ready) (hsend : e.segment first pcomp s = .ok e') :
    e'.Ready ∧ ∃ opened code, e.opened first s = .ok opened ∧
      (∀ input, e'.out ++ input = e.out ++ segmentCode code s input) ∧
      ∀ marker rest input, marker ≠ 0 → marker :: rest = checksumBytes s.sha1string ++ input →
        Codes opened e' (segmentBytes first pcomp s.data) code (checksumBytes s.sha1string ++ input)
          marker rest := by
  rw [Encoder.segment_eq] at hsend
  obtain ⟨opened, hopen, hsend⟩ := bind_eq_ok.mp hsend
  obtain ⟨last, hall, hsend⟩ := bind_eq_ok.mp hsend
  obtain rfl := Except.ok.inj hsend
  have hopened : opened.Ready ∧ opened.out = (e.startSegment s.filename s.comment).out := by
    cases first with
    | false =>
      obtain rfl := Except.ok.inj hopen
      exact ⟨(hready rfl).write _, rfl⟩
    | true =>
      refine ⟨Encoder.ready_init hopen, ?_⟩
      obtain ⟨state, -, hopen⟩ := bind_eq_ok.mp hopen
      obtain rfl := Except.ok.inj hopen
      rfl
  obtain ⟨hnext, code, hout, hcode⟩ := hopened.1.compressAll hall
  refine ⟨(hnext.write _).write _, opened, code, hopen, ?_, ?_⟩
  · intro input
    change ((_ ++ List.replicate 4 0) ++ checksumBytes s.sha1string) ++ input = _
    rw [hout, hopened.2]
    simp [Encoder.startSegment, Encoder.write, segmentCode, segmentTail]
  · intro marker rest input hmarker hbytes
    obtain ⟨hskips, hreads⟩ := hcode marker rest hmarker
    rw [hbytes] at hskips hreads
    refine ⟨hskips, fun d hd => ?_⟩
    have hsame : Waits (last.closed s) (checksumBytes s.sha1string ++ input) =
        Waits last (checksumBytes s.sha1string ++ input) := by
      funext d
      exact propext ⟨fun h => ⟨h.curr, h.input, h.inStep⟩, fun h => ⟨h.curr, h.input, h.inStep⟩⟩
    rw [hsame]
    exact hreads d hd

end segment

section block
variable {pcomp : List UInt8} {first : Bool} {mode : Option mc.State} {shown : List UInt8}

/-- A `Decompresser` that has read all of the segments so far. Behind the first of
them the decoder goes on where the encoder `e` stood. -/
structure Decompresser.Stands (state : Expected) (e : Encoder pr) (pcomp : List UInt8) (first : Bool)
    (mode : Option mc.State) (shown input : List UInt8) (d : Decompresser pr mc) : Prop where
  state_eq : d.state = state
  input_eq : d.dec.input = input
  outbuf_eq : d.pp.outbuf = []
  output_eq : d.pp.output = shown
  start : first = true → d.decodeState = .firstseg ∧ mc.startMode d.ph d.pm pcomp = .ok mode
  later : first = false → d.decodeState = .seg ∧ Waits e input d.dec ∧ d.pp.Feeds mode shown

theorem Decompresser.names {d : Decompresser pr mc} (hstate : d.state = .filename) {code : List UInt8}
    {s : Segment} {input : List UInt8} (hinput : d.dec.input = segmentCode code s input) :
    ∃ d', Decompresser.findFilename d = .ok (some s.filename, d') ∧
      Decompresser.readComment d' = .ok (s.comment,
        { d with dec := { d.dec with input := segmentTail code s input }, state := .data }) := by
  have hfind := Decompresser.findFilename_some hstate s.filename_ne hinput
  refine ⟨_, hfind, ?_⟩
  exact Decompresser.readComment_eq rfl s.comment_ne rfl

theorem Decompresser.Stands.data {e opened : Encoder pr} {code : List UInt8} {s : Segment}
    {input : List UInt8} {d : Decompresser pr mc} (hopen : e.opened first s = .ok opened)
    (h : d.Stands .filename e pcomp first mode shown (segmentCode code s input)) :
    Decompresser.Stands .data opened pcomp first mode shown (segmentTail code s input)
      { d with dec := { d.dec with input := segmentTail code s input }, state := .data } := by
  refine ⟨rfl, rfl, h.outbuf_eq, h.output_eq, h.start, fun hlater => ?_⟩
  obtain ⟨hseg, hwaits, hfeeds⟩ := h.later hlater
  subst hlater
  obtain rfl := Except.ok.inj hopen
  exact ⟨hseg, ⟨hwaits.curr, rfl, hwaits.inStep⟩, hfeeds⟩

theorem Encoder.waits_init {s : Segment} {e opened : Encoder pr} (hopen : e.opened true s = .ok opened)
    {input : List UInt8} {dec : Decoder pr} (hinput : dec.input = input) :
    ∃ state, pr.init = .ok state ∧ Waits opened input (dec.inited state) := by
  obtain ⟨state, hinit, hopen⟩ := bind_eq_ok.mp hopen
  obtain rfl := Except.ok.inj hopen
  refine ⟨state, hinit, ?_⟩
  by_cases hmodeled : pr.isModeled
  · have hlow : (if pr.isModeled then 1 else 0) = 1 := if_pos hmodeled
    rw [Decoder.inited_modeled hmodeled]
    exact ⟨rfl, hinput, fun _ => ⟨hlow.symm, rfl, rfl⟩⟩
  · rw [Decoder.inited_stored hmodeled]
    exact ⟨rfl, hinput, fun hyes => absurd hyes hmodeled⟩

theorem Decompresser.Stands.decompress_eq (hpcomp : pcomp.length < 2 ^ 16) {fuel : Nat}
    (hfuel : pcomp.length + 4 ≤ fuel) {e opened e' : Encoder pr} {s : Segment}
    (hopen : e.opened first s = .ok opened) {code input : List UInt8}
    {d : Decompresser pr mc} {marker : UInt8} {rest : List UInt8}
    (h : d.Stands .data opened pcomp first mode shown (segmentTail code s input))
    (hcode : Codes opened e' (segmentBytes first pcomp s.data) code
      (checksumBytes s.sha1string ++ input) marker rest) :
    ∃ dec pp, (∀ n, Decompresser.decompress fuel n d =
        Decompresser.decompressLoop fuel n { d with dec, pp, decodeState := .seg }) ∧
      Reads marker rest (Waits e' (checksumBytes s.sha1string ++ input)) s.data dec ∧
      pp.Feeds mode shown := by
  cases first with
  | false =>
    obtain ⟨hseg, hwaits, hfeeds⟩ := h.later rfl
    have hloaded : d.pp.state.loading = false := by
      rw [hfeeds.state]
      split <;> rfl
    have hskip : d.decodeState ≠ .skip := by
      rw [hseg]
      decide
    obtain ⟨fuel, rfl⟩ := Nat.exists_eq_add_one_of_ne_zero (show fuel ≠ 0 by omega)
    refine ⟨d.dec, d.pp, fun n => ?_, hcode.reads d.dec hwaits, hfeeds⟩
    rw [Decompresser.decompress_split fuel.succ n h.state_eq hskip, Decompresser.initFirst_seg hseg,
      ok_bind, Decompresser.load_done fuel hloaded, ok_bind, ← hseg]
  | true =>
    obtain ⟨hseg, hmode⟩ := h.start rfl
    have hskip : d.decodeState ≠ .skip := by
      rw [hseg]
      decide
    obtain ⟨state, hinit, hwaits⟩ := Encoder.waits_init hopen h.input_eq
    obtain ⟨dec, pp, hreads, hload, hfeeds⟩ := @Decompresser.load_first pr mc marker rest s.data
      (Waits e' (checksumBytes s.sha1string ++ input))
      { d with dec := d.dec.inited state, pp := d.pp.init d.ph d.pm, decodeState := .seg } pcomp hpcomp
      fuel hfuel rfl mode hmode (hcode.reads _ hwaits)
    refine ⟨dec, pp, fun n => ?_, hreads, ?_⟩
    · rw [Decompresser.decompress_split fuel n h.state_eq hskip, Decompresser.initFirst_firstseg hseg,
        hinit, ok_bind, ok_bind, hload, ok_bind]
    · rw [← h.output_eq, ← List.append_nil d.pp.output, ← h.outbuf_eq]
      exact hfeeds

theorem Decompresser.Stands.whole (hpcomp : pcomp.length < 2 ^ 16) {fuel : Nat}
    (hfuel : pcomp.length + 4 ≤ fuel) {e opened e' : Encoder pr} {s : Segment}
    (hopen : e.opened first s = .ok opened) (hdata : s.data.length < fuel)
    {code input : List UInt8} {d : Decompresser pr mc} {marker : UInt8} {rest : List UInt8}
    (h : d.Stands .data opened pcomp first mode shown (segmentTail code s input))
    (hcode : Codes opened e' (segmentBytes first pcomp s.data) code
      (checksumBytes s.sha1string ++ input) marker rest) {out : Option mc.State × List UInt8}
    (hout : mc.outputs mode (segmentInputs s.data) = .ok out) :
    ∃ d₁ d₂, Decompresser.decompress fuel none d = .ok (false, d₁) ∧
      Decompresser.readSegmentEnd d₁ = .ok (s.sha1string, d₂) ∧
      d₂.Stands .filename e' pcomp false out.1 (shown ++ out.2) input := by
  obtain ⟨dec, pp, hrun, hreads, hfeeds⟩ := h.decompress_eq hpcomp hfuel hopen hcode
  obtain ⟨dec', pp', hloop, hwaits, hempty, hfeeds'⟩ := @Decompresser.decompressLoop_all pr mc marker
    rest _ s.data { d with dec, pp, decodeState := .seg } mode shown fuel hdata hreads hfeeds out hout
  have hend := @Decompresser.readSegmentEnd_segend pr mc
    { d with dec := dec', pp := pp', state := .segend, decodeState := .seg } rfl input s.sha1string
    s.sha1_length hwaits.input
  refine ⟨_, _, (hrun none).trans hloop, hend, ⟨rfl, rfl, hempty, ?_, ?_, ?_⟩⟩
  · have hshown := hfeeds'.shown
    rwa [hempty, List.append_nil] at hshown
  · intro hfirst
    cases hfirst
  · exact fun _ => ⟨rfl, ⟨hwaits.curr, rfl, hwaits.inStep⟩, hfeeds'⟩

/-- A `Decompresser` between two segments that will not decompress any more. -/
structure Decompresser.Closed (input : List UInt8) (d : Decompresser pr mc) : Prop where
  state_eq : d.state = .filename
  curr_eq : d.dec.curr = 0
  input_eq : d.dec.input = input

theorem Decompresser.Left.readSegmentEnd {marker : UInt8} {rest input : List UInt8}
    {sha1string : Option (List UInt8)} (hlength : ∀ sha1 ∈ sha1string, sha1.length = 20)
    (hbytes : marker :: rest = checksumBytes sha1string ++ input) {d : Decompresser pr mc}
    (h : d.Left marker rest) :
    ∃ d', Decompresser.readSegmentEnd d = .ok (sha1string, d') ∧ d'.Closed input := by
  obtain ⟨hstate, dec, hskip, hcurr, hinput⟩ | ⟨hstate, hcurr, hinput⟩ := h
  · have hmarker : (if d.state = .data then onDecoder Decoder.skip else onDecoder Decoder.get) d =
        .ok (some marker, { d with dec }) := by
      rw [if_pos hstate, onDecoder_of_ok hskip]
    exact ⟨_, Decompresser.readSegmentEnd_eq hlength hbytes (.inl hstate) hmarker hinput, rfl, hcurr,
      rfl⟩
  · exact ⟨_, Decompresser.readSegmentEnd_segend hstate hlength (hinput.trans hbytes), rfl, hcurr, rfl⟩

theorem Decompresser.Stands.part (hpcomp : pcomp.length < 2 ^ 16) {fuel : Nat}
    (hfuel : pcomp.length + 4 ≤ fuel) {e opened e' : Encoder pr} {s : Segment}
    (hopen : e.opened first s = .ok opened) (hdata : s.data.length < fuel)
    (n : Option Nat) {code input : List UInt8} {d : Decompresser pr mc} {marker : UInt8}
    {rest : List UInt8} (hbytes : marker :: rest = checksumBytes s.sha1string ++ input)
    (h : d.Stands .data opened pcomp first mode shown (segmentTail code s input))
    (hcode : Codes opened e' (segmentBytes first pcomp s.data) code
      (checksumBytes s.sha1string ++ input) marker rest) {out : Option mc.State × List UInt8}
    (hout : mc.outputs mode (callInputs n s.data) = .ok out) :
    ∃ full d₁ d₂, Decompresser.decompress fuel n d = .ok (full, d₁) ∧
      Decompresser.readSegmentEnd d₁ = .ok (s.sha1string, d₂) ∧ d₂.Closed input := by
  obtain ⟨dec, pp, hrun, hreads, hfeeds⟩ := h.decompress_eq hpcomp hfuel hopen hcode
  have hdone : ∀ dec : Decoder pr, Waits e' (checksumBytes s.sha1string ++ input) dec →
      dec.curr = 0 ∧ dec.input = marker :: rest := by
    intro dec hwaits
    rw [hbytes]
    exact ⟨hwaits.curr, hwaits.input⟩
  obtain ⟨full, d₁, hloop, hleft⟩ := @Decompresser.decompressLoop_left pr mc marker rest _ s.data
    { d with dec, pp, decodeState := .seg } mode shown fuel hdata n h.state_eq hreads hdone hfeeds out hout
  obtain ⟨d₂, hend, hclosed⟩ := hleft.readSegmentEnd s.sha1_length hbytes
  exact ⟨full, d₁, d₂, (hrun n).trans hloop, hend, hclosed⟩

/-- The input of a `Decompresser` in front of a list of segments. -/
def Chain (pcomp rest : List UInt8) : List Segment → Bool → Encoder pr → List UInt8 → Prop
  | [], _, _, input => input = 255 :: rest
  | s :: list, first, e, input =>
      ∃ opened e' code next marker tail, e.opened first s = .ok opened ∧
        input = segmentCode code s next ∧ marker :: tail = checksumBytes s.sha1string ++ next ∧
        Codes opened e' (segmentBytes first pcomp s.data) code
          (checksumBytes s.sha1string ++ next) marker tail ∧
        Chain pcomp rest list false e' next

theorem Encoder.exists_chain (pcomp rest : List UInt8) (list : List Segment) (first : Bool)
    {e e' : Encoder pr} (hready : first = false → e.Ready)
    (hsend : e.segments pcomp first list = .ok e') :
    ∃ input, e'.out ++ rest = e.out ++ input ∧ Chain pcomp rest list first e input := by
  induction list generalizing first e with
  | nil =>
    obtain rfl := Except.ok.inj hsend
    exact ⟨255 :: rest, List.append_assoc e.out [255] rest, rfl⟩
  | cons s list ih =>
    obtain ⟨e₁, hfirst, hothers⟩ := bind_eq_ok.mp hsend
    obtain ⟨hnext, opened, code, hopen, hout, hcode⟩ := Encoder.segment_code first pcomp s hready hfirst
    obtain ⟨input, hrest, hchain⟩ := ih false (fun _ => hnext) hothers
    obtain ⟨marker, tail, hmarker, hbytes⟩ := checksumBytes_eq s.sha1string input
    refine ⟨segmentCode code s input, ?_, opened, e₁, code, input, marker, tail, hopen, rfl, hbytes, ?_,
      hchain⟩
    · rw [← hout]
      exact hrest
    · exact hcode marker tail input hmarker hbytes

theorem Decompresser.findFilename_end {e : Encoder pr} {rest : List UInt8} {d : Decompresser pr mc}
    (h : d.Stands .filename e pcomp first mode shown (255 :: rest)) :
    Decompresser.findFilename d =
      .ok (none, { d with dec := { d.dec with input := rest }, state := .block }) :=
  Decompresser.findFilename_none h.state_eq h.input_eq

theorem Decompresser.Stands.decompressBlock (hpcomp : pcomp.length < 2 ^ 16) {fuel : Nat}
    (hfuel : pcomp.length + 4 ≤ fuel) {rest : List UInt8} (list : List Segment)
    (hdata : ∀ s ∈ list, s.data.length < fuel) {rounds : Nat} (hrounds : list.length < rounds)
    {e : Encoder pr} {input : List UInt8} (hchain : Chain pcomp rest list first e input)
    {d : Decompresser pr mc} (h : d.Stands .filename e pcomp first mode shown input)
    {out : Option mc.State × List UInt8}
    (hout : mc.outputs mode (list.flatMap fun s => segmentInputs s.data) = .ok out) :
    ∃ d', Decompresser.decompressBlock fuel rounds d = .ok ((), d') ∧ d'.state = .block ∧
      d'.dec.input = rest ∧ d'.pp.outbuf = [] ∧ d'.pp.output = shown ++ out.2 := by
  obtain ⟨rounds, rfl⟩ := Nat.exists_eq_add_one_of_ne_zero (Nat.ne_zero_of_lt hrounds)
  induction list generalizing rounds e first mode shown input d out with
  | nil =>
    cases hchain
    obtain rfl := Except.ok.inj hout
    refine ⟨_, bind_of_ok (Decompresser.findFilename_end h) _, rfl, rfl, h.outbuf_eq, ?_⟩
    rw [h.output_eq]
    exact (List.append_nil shown).symm
  | cons s list ih =>
    obtain ⟨opened, e', code, next, marker, tail, hopen, rfl, -, hcode, hrest⟩ := hchain
    obtain ⟨first', hfirst, others, hothers, rfl⟩ := Machine.outputs_append_ok hout
    obtain ⟨d₁, hfind, hcomment⟩ := Decompresser.names h.state_eq h.input_eq
    obtain ⟨d₂, d₃, hrun, hend, hstands⟩ :=
      (h.data hopen).whole hpcomp hfuel hopen (hdata s List.mem_cons_self) hcode hfirst
    rw [List.length_cons] at hrounds
    obtain ⟨rounds, rfl⟩ := Nat.exists_eq_add_one_of_ne_zero (show rounds ≠ 0 by omega)
    obtain ⟨d₄, hblock, hstate, hinput, hempty, houtput⟩ :=
      ih (fun s hs => hdata s (List.mem_cons_of_mem _ hs)) hrest hstands hothers rounds (by omega)
    refine ⟨d₄, ?_, hstate, hinput, hempty, ?_⟩
    · conv_lhs => unfold Decompresser.decompressBlock
      refine (bind_of_ok hfind _).trans ?_
      rw [if_neg (Option.some_ne_none _)]
      exact (bind_of_ok hcomment _).trans ((bind_of_ok hrun _).trans ((bind_of_ok hend _).trans hblock))
    · rw [houtput, List.append_assoc]

theorem Encoder.chain_blockBody (pcomp rest : List UInt8) (list : List Segment) {body : List UInt8}
    (hbody : blockBody pr pcomp list = .ok body) :
    Chain pcomp rest list true (Encoder.fresh pr []) (body ++ rest) := by
  have hfirst : true = false → (Encoder.fresh pr []).Ready := fun h => absurd h (by decide)
  obtain ⟨e, hsend, hlast⟩ := bind_eq_ok.mp hbody
  obtain rfl := Except.ok.inj hlast
  obtain ⟨input, hinput, hchain⟩ := Encoder.exists_chain pcomp rest list true hfirst hsend
  have hsame : e.out ++ rest = input := hinput
  rw [hsame]
  exact hchain

end block

section visit
variable {pcomp : List UInt8} {first : Bool} {mode : Option mc.State} {shown : List UInt8}

def Segment.found (s : Segment) : Option (List UInt8) × List UInt8 × Option (List UInt8) :=
  (some s.filename, s.comment, s.sha1string)

theorem Decompresser.visit_skipped (fuel : Nat) {e e' : Encoder pr} {s : Segment}
    {bytes code next : List UInt8} {marker : UInt8} {tail : List UInt8} {d : Decompresser pr mc}
    (hstate : d.state = .filename) (hcurr : d.dec.curr = 0)
    (hinput : d.dec.input = segmentCode code s next)
    (hbytes : marker :: tail = checksumBytes s.sha1string ++ next)
    (hcode : Codes e e' bytes code (checksumBytes s.sha1string ++ next) marker tail) :
    ∃ d', Decompresser.visit fuel none d = .ok (s.found, d') ∧ d'.Closed next := by
  obtain ⟨d₁, hfind, hcomment⟩ := Decompresser.names hstate hinput
  have hleft : Decompresser.Left marker tail
      { d with dec := { d.dec with input := segmentTail code s next }, state := .data } :=
    .inl ⟨rfl, hcode.skips _ hcurr rfl⟩
  obtain ⟨d₂, hend, hclosed⟩ := hleft.readSegmentEnd s.sha1_length hbytes
  exact ⟨d₂, (bind_of_ok hfind _).trans ((bind_of_ok hcomment _).trans (bind_of_ok hend _)), hclosed⟩

theorem Decompresser.Closed.visitAll (fuel : Nat) {rest : List UInt8} (list : List Segment)
    {e : Encoder pr} {input : List UInt8} (hchain : Chain pcomp rest list first e input)
    {d : Decompresser pr mc} (h : d.Closed input) :
    ∃ d', Decompresser.visitAll fuel (List.replicate list.length none) d =
        .ok (list.map Segment.found, d') ∧ d'.state = .block ∧ d'.dec.input = rest := by
  induction list generalizing e first input d with
  | nil =>
    cases hchain
    exact ⟨_, bind_of_ok (Decompresser.findFilename_none h.state_eq h.input_eq) _, rfl, rfl⟩
  | cons s list ih =>
    obtain ⟨opened, e', code, next, marker, tail, -, rfl, hbytes, hcode, hrest⟩ := hchain
    obtain ⟨d₁, hvisit, hclosed⟩ :=
      Decompresser.visit_skipped fuel h.state_eq h.curr_eq h.input_eq hbytes hcode
    obtain ⟨d₂, hothers, hend⟩ := ih hrest hclosed
    exact ⟨d₂, (bind_of_ok hvisit _).trans (bind_of_ok hothers _), hend⟩

/-- What `run` is given for a segment: nothing if it is skipped. -/
def visitInputs (call : Option (Option Nat)) (data : List UInt8) : List (Option UInt8) :=
  match call with
  | none => []
  | some n => callInputs n data

theorem Decompresser.Stands.visit (hpcomp : pcomp.length < 2 ^ 16) {fuel : Nat}
    (hfuel : pcomp.length + 4 ≤ fuel) {e opened e' : Encoder pr} {s : Segment}
    (hopen : e.opened first s = .ok opened) (hdata : s.data.length < fuel)
    (call : Option (Option Nat)) {code next : List UInt8} {d : Decompresser pr mc} {marker : UInt8}
    {tail : List UInt8} (hbytes : marker :: tail = checksumBytes s.sha1string ++ next)
    (h : d.Stands .filename e pcomp first mode shown (segmentCode code s next))
    (hcode : Codes opened e' (segmentBytes first pcomp s.data) code
      (checksumBytes s.sha1string ++ next) marker tail) (hcurr : d.dec.curr = 0)
    {out : Option mc.State × List UInt8}
    (hout : mc.outputs mode (visitInputs call s.data) = .ok out) :
    ∃ d', Decompresser.visit fuel call d = .ok (s.found, d') ∧ d'.Closed next := by
  cases call with
  | none => exact Decompresser.visit_skipped fuel h.state_eq hcurr h.input_eq hbytes hcode
  | some n =>
    obtain ⟨d₁, hfind, hcomment⟩ := Decompresser.names h.state_eq h.input_eq
    obtain ⟨full, d₂, d₃, hrun, hend, hclosed⟩ :=
      (h.data hopen).part hpcomp hfuel hopen hdata n hbytes hcode hout
    exact ⟨d₃, (bind_of_ok hfind _).trans ((bind_of_ok hcomment _).trans
      ((bind_of_ok hrun _).trans (bind_of_ok hend _))), hclosed⟩

theorem Decompresser.Stands.visitAll (hpcomp : pcomp.length < 2 ^ 16) {fuel : Nat}
    (hfuel : pcomp.length + 4 ≤ fuel) {rest : List UInt8} (whole : List Segment) (s : Segment)
    (others : List Segment) (hwhole : ∀ s ∈ whole, s.data.length < fuel) (hdata : s.data.length < fuel)
    (call : Option (Option Nat)) {e : Encoder pr} {input : List UInt8}
    (hchain : Chain pcomp rest (whole ++ s :: others) first e input) {d : Decompresser pr mc}
    (hcurr : d.dec.curr = 0) (h : d.Stands .filename e pcomp first mode shown input)
    {out : Option mc.State × List UInt8} (hout : mc.outputs mode
      ((whole.flatMap fun s => segmentInputs s.data) ++ visitInputs call s.data) = .ok out) :
    ∃ d', Decompresser.visitAll fuel
        (List.replicate whole.length (some none) ++ call :: List.replicate others.length none) d =
          .ok ((whole ++ s :: others).map Segment.found, d') ∧
      d'.state = .block ∧ d'.dec.input = rest := by
  induction whole generalizing e first mode shown input d out with
  | nil =>
    obtain ⟨opened, e', code, next, marker, tail, hopen, rfl, hbytes, hcode, hrest⟩ := hchain
    obtain ⟨d₁, hfound, hclosed⟩ :=
      h.visit hpcomp hfuel hopen hdata call hbytes hcode hcurr hout
    obtain ⟨d₂, hothers, hend⟩ := hclosed.visitAll fuel others hrest
    exact ⟨d₂, (bind_of_ok hfound _).trans (bind_of_ok hothers _), hend⟩
  | cons t whole ih =>
    obtain ⟨opened, e', code, next, marker, tail, hopen, rfl, -, hcode, hrest⟩ := hchain
    rw [List.flatMap_cons, List.append_assoc] at hout
    obtain ⟨first', hfirst, later, hlater, -⟩ := Machine.outputs_append_ok hout
    obtain ⟨d₁, hfind, hcomment⟩ := Decompresser.names h.state_eq h.input_eq
    obtain ⟨d₂, d₃, hrun, hend, hstands⟩ :=
      (h.data hopen).whole hpcomp hfuel hopen (hwhole t List.mem_cons_self) hcode hfirst
    have hvisit : Decompresser.visit fuel (some none) d = .ok (t.found, d₃) :=
      (bind_of_ok hfind _).trans ((bind_of_ok hcomment _).trans
        ((bind_of_ok hrun _).trans (bind_of_ok hend _)))
    obtain ⟨d₄, hothers, hlast⟩ := ih (fun s hs => hwhole s (List.mem_cons_of_mem _ hs)) hrest
      (hstands.later rfl).2.1.curr hstands hlater
    exact ⟨d₄, (bind_of_ok hvisit _).trans (bind_of_ok hothers _), hlast⟩

end visit

section samples

/-- A header with the one component `CONS` of 128. -/
def evenPredictor : Predictor where
  State := Unit
  isModeled := true
  fresh := ()
  init := .ok ()
  predict _ := .ok (16384, ())
  predict_lt _ out h := by
    obtain rfl := Except.ok.inj h
    decide
  update _ _ := .ok ()

/-- The programs that are `out halt`, which puts out 255 for the end of a segment. Any
other is refused at its first byte. -/
def outHalt : Machine where
  State := List UInt8
  initp ph pm program := if 32 < ph then .error (.error "H too big")
    else if 32 < pm then .error (.error "M too big") else .ok program
  run program c := if program = [57, 56, 0] then .ok (program, [c.getD 255])
    else .error (.error "Bad ZPAQL opcode")

def plainSegment : Segment := ⟨[97], [], [1, 2], none, by decide, by decide, by simp⟩

def signedSegment : Segment :=
  ⟨[], [98], [3], some (List.replicate 20 7), by decide, by decide, by simp⟩

/-- A block of these segments, with the predictor that expects nothing. -/
def evenBody (pcomp : List UInt8) (list : List Segment) : List UInt8 :=
  (blockBody evenPredictor pcomp list).toOption.getD []

end samples

section roundtrip
variable (pr : Predictor) (mc : Machine) (ph pm : Nat) (pcomp : List UInt8) (rest : List UInt8)
  (dec : Decoder pr) (pp : PostProcessor mc)

theorem stands_foundBlock {input : List UInt8} (hinput : dec.input = input) (hempty : pp.outbuf = [])
    {mode : Option mc.State} (hmode : mc.startMode ph pm pcomp = .ok mode) :
    (Decompresser.foundBlock mc ph pm dec pp).Stands .filename (Encoder.fresh pr []) pcomp true
      mode pp.output input :=
  ⟨rfl, hinput, hempty, rfl, fun _ => ⟨rfl, hmode⟩, fun h => absurd h (by decide)⟩

/-- If the block's program, where it has one, returns from all that it is run on, the
decompressor puts out what it makes of the segments, or else the segments themselves, and
stops behind the block. -/
theorem decompressBlock_blockBody (hpcomp : pcomp.length < 2 ^ 16) (list : List Segment)
    (body : List UInt8) (hbody : blockBody pr pcomp list = .ok body)
    (hinput : dec.input = body ++ rest) (hempty : pp.outbuf = []) (mode last : Option mc.State)
    (shown : List UInt8) (hmode : mc.startMode ph pm pcomp = .ok mode)
    (hshown : mc.outputs mode (list.flatMap fun s => segmentInputs s.data) = .ok (last, shown))
    (fuel rounds : Nat) (hfuel : pcomp.length + 4 ≤ fuel) (hdata : ∀ s ∈ list, s.data.length < fuel)
    (hrounds : list.length < rounds) :
    ∃ d, Decompresser.decompressBlock fuel rounds (Decompresser.foundBlock mc ph pm dec pp) =
        .ok ((), d) ∧
      d.state = .block ∧ d.dec.input = rest ∧ d.pp.outbuf = [] ∧ d.pp.output = pp.output ++ shown ∧
      (pcomp = [] → d.pp.output = pp.output ++ list.flatMap Segment.data) := by
  obtain ⟨d, hrun, hstate, hleft, hflushed, hout⟩ :=
    (stands_foundBlock pr mc ph pm pcomp dec pp hinput hempty hmode).decompressBlock hpcomp hfuel list
      hdata hrounds (Encoder.chain_blockBody pcomp rest list hbody) hshown
  refine ⟨d, hrun, hstate, hleft, hflushed, hout, ?_⟩
  rintro rfl
  rw [Machine.startMode, if_pos rfl] at hmode
  obtain rfl := Except.ok.inj hmode
  rw [Machine.outputs_none, segmentInputs_toList] at hshown
  rw [hout, ← (Prod.mk.inj (Except.ok.inj hshown)).2]

/-- With the program and without it. -/
theorem decompressBlock_blockBody_two :
    (∃ d, Decompresser.decompressBlock 8 3 (Decompresser.foundBlock outHalt 0 0
        (Decoder.fresh evenPredictor (evenBody [57, 56, 0] [plainSegment, signedSegment] ++ [7])) (.fresh outHalt)) = .ok ((), d) ∧
      d.state = .block ∧ d.dec.input = [7] ∧ d.pp.output = [1, 2, 255, 3, 255]) ∧
    ∃ d, Decompresser.decompressBlock 8 3 (Decompresser.foundBlock outHalt 0 0
        (Decoder.fresh evenPredictor (evenBody [] [plainSegment, signedSegment] ++ [7])) (.fresh outHalt)) = .ok ((), d) ∧
      d.state = .block ∧ d.dec.input = [7] ∧ d.pp.output = [1, 2, 3] := by
  constructor
  · obtain ⟨d, hrun, hstate, hinput, -, hout, -⟩ := decompressBlock_blockBody evenPredictor outHalt 0 0
      [57, 56, 0] [7] (Decoder.fresh evenPredictor (evenBody [57, 56, 0] [plainSegment, signedSegment] ++ [7])) (.fresh outHalt)
      (by decide) [plainSegment, signedSegment] _ (by decide +kernel) rfl rfl
      (some [57, 56, 0]) (some [57, 56, 0]) [1, 2, 255, 3, 255] rfl rfl 8 3 (by decide) (by decide)
      (by decide)
    exact ⟨d, hrun, hstate, hinput, hout⟩
  · obtain ⟨d, hrun, hstate, hinput, -, -, hout⟩ := decompressBlock_blockBody evenPredictor outHalt 0 0
      [] [7] (Decoder.fresh evenPredictor (evenBody [] [plainSegment, signedSegment] ++ [7])) (.fresh outHalt) (by decide)
      [plainSegment, signedSegment] _ (by decide +kernel) rfl rfl none none [1, 2, 3] rfl
      rfl 8 3 (by decide) (by decide) (by decide)
    exact ⟨d, hrun, hstate, hinput, hout rfl⟩

/-- A client that reads the first segments of a block whole, then one as it likes, and
skips the others finds each segment's names and checksum, and the end of the block, if the
block's program returns from all that it is run on. -/
theorem visitAll_blockBody (hpcomp : pcomp.length < 2 ^ 16) (whole : List Segment) (s : Segment)
    (others : List Segment) (body : List UInt8)
    (hbody : blockBody pr pcomp (whole ++ s :: others) = .ok body) (hcurr : dec.curr = 0)
    (hinput : dec.input = body ++ rest) (hempty : pp.outbuf = []) (call : Option (Option Nat))
    (hreturns : whole = [] ∧ call = none ∨ ∃ mode out, mc.startMode ph pm pcomp = .ok mode ∧
      mc.outputs mode ((whole.flatMap fun s => segmentInputs s.data) ++ visitInputs call s.data) = .ok out)
    (fuel : Nat) (hfuel : pcomp.length + 4 ≤ fuel) (hwhole : ∀ s ∈ whole, s.data.length < fuel)
    (hdata : s.data.length < fuel) :
    ∃ d, Decompresser.visitAll fuel
        (List.replicate whole.length (some none) ++ call :: List.replicate others.length none)
        (Decompresser.foundBlock mc ph pm dec pp) =
          .ok ((whole ++ s :: others).map Segment.found, d) ∧
      d.state = .block ∧ d.dec.input = rest := by
  have hchain := Encoder.chain_blockBody pcomp rest (whole ++ s :: others) hbody
  rcases hreturns with ⟨rfl, rfl⟩ | ⟨mode, out, hmode, hout⟩
  · have hclosed : (Decompresser.foundBlock mc ph pm dec pp).Closed (body ++ rest) :=
      ⟨rfl, hcurr, hinput⟩
    exact hclosed.visitAll fuel (s :: others) hchain
  · exact (stands_foundBlock pr mc ph pm pcomp dec pp hinput hempty hmode).visitAll hpcomp hfuel whole s
      others hwhole hdata call hchain hcurr hout

/-- The first segment whole, one byte of the second, and the names of the third. -/
theorem visitAll_blockBody_three :
    ∃ d, Decompresser.visitAll 8 [some none, some (some 1), none] (Decompresser.foundBlock outHalt 0 0
        (Decoder.fresh evenPredictor
          (evenBody [57, 56, 0] [plainSegment, plainSegment, signedSegment] ++ [7])) (.fresh outHalt)) =
          .ok ([(some [97], [], none), (some [97], [], none),
            (some [], [98], some (List.replicate 20 7))], d) ∧
      d.state = .block ∧ d.dec.input = [7] := by
  obtain ⟨d, hrun, hend⟩ := visitAll_blockBody evenPredictor outHalt 0 0 [57, 56, 0] [7]
    (Decoder.fresh evenPredictor
      (evenBody [57, 56, 0] [plainSegment, plainSegment, signedSegment] ++ [7])) (.fresh outHalt)
    (by decide) [plainSegment] plainSegment [signedSegment] _ (by decide +kernel) rfl rfl rfl
    (some (some 1)) (.inr ⟨some [57, 56, 0], (some [57, 56, 0], [1, 2, 255, 1]), rfl, rfl⟩) 8
    (by decide) (by decide) (by decide)
  exact ⟨d, hrun, hend⟩

end roundtrip

end TonCompress.Zpaq
