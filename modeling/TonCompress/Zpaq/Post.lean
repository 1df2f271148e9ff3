import TonCompress.Zpaq.Block
import TonCompress.Zpaq.Segments

/-! The postprocessor on a segment's bytes: how it is loaded, and what the loops of
`Decompresser::decompress` pass through it. -/
namespace TonCompress.Zpaq
open TonCompress.Lib

variable {pr : Predictor} {mc : Machine}

section post

/-- What the postprocessor makes of a byte, or of the end of a segment: without a
program the byte itself. -/
def Machine.step (mc : Machine) (mode : Option mc.State) (c : Option UInt8) :
    Except ZpaqStop (Option mc.State × List UInt8) :=
  match mode with
  | none => .ok (none, c.toList)
  | some state => mc.run state c >>= fun out => .ok (some out.1, out.2)

def Machine.outputs (mc : Machine) : Option mc.State → List (Option UInt8) →
    Except ZpaqStop (Option mc.State × List UInt8)
  | mode, [] => .ok (mode, [])
  | mode, c :: cs => do
      let first ← mc.step mode c
      let others ← mc.outputs first.1 cs
      return (others.1, first.2 ++ others.2)

def segmentInputs (data : List UInt8) : List (Option UInt8) := data.map some ++ [none]

/-- What `run` is given for a call that is to read `n` bytes of a segment. -/
def callInputs (n : Option Nat) (data : List UInt8) : List (Option UInt8) :=
  match n with
  | none => segmentInputs data
  | some n => (segmentInputs data).take n

theorem callInputs_cons {n : Option Nat} (hn : n ≠ some 0) (c : UInt8) (data : List UInt8) :
    callInputs n (c :: data) = some c :: callInputs (n.map (· - 1)) data := by
  cases n with
  | none => rfl
  | some n =>
    obtain ⟨n, rfl⟩ := Nat.exists_eq_add_one_of_ne_zero fun hzero => hn (congrArg some hzero)
    rfl

theorem callInputs_nil {n : Option Nat} (hn : n ≠ some 0) : callInputs n [] = [none] := by
  cases n with
  | none => rfl
  | some n =>
    have hpos : [(none : Option UInt8)].length ≤ n :=
      Nat.pos_of_ne_zero fun hzero => hn (congrArg some hzero)
    exact List.take_of_length_le hpos

theorem Machine.outputs_cons_ok {mode : Option mc.State} {c : Option UInt8}
    {cs : List (Option UInt8)} {out : Option mc.State × List UInt8} :
    mc.outputs mode (c :: cs) = .ok out ↔ ∃ first, mc.step mode c = .ok first ∧
      ∃ others, mc.outputs first.1 cs = .ok others ∧ (others.1, first.2 ++ others.2) = out := by
  rw [Machine.outputs]
  simp only [bind_eq_ok, pure_eq_ok]

theorem Machine.outputs_append_ok {mode : Option mc.State} {left right : List (Option UInt8)}
    {out : Option mc.State × List UInt8} (h : mc.outputs mode (left ++ right) = .ok out) :
    ∃ first, mc.outputs mode left = .ok first ∧
      ∃ others, mc.outputs first.1 right = .ok others ∧ (others.1, first.2 ++ others.2) = out := by
  induction left generalizing mode out with
  | nil => exact ⟨(mode, []), rfl, out, h, rfl⟩
  | cons c left ih =>
    obtain ⟨first, hstep, rest, hrest, rfl⟩ := Machine.outputs_cons_ok.mp h
    obtain ⟨mid, hleft, others, hright, rfl⟩ := ih hrest
    refine ⟨_, Machine.outputs_cons_ok.mpr ⟨first, hstep, mid, hleft, rfl⟩, others, hright, ?_⟩
    rw [List.append_assoc]

theorem Machine.outputs_none (cs : List (Option UInt8)) :
    mc.outputs none cs = .ok (none, cs.flatMap Option.toList) := by
  induction cs with
  | nil => rfl
  | cons c cs ih => exact Machine.outputs_cons_ok.mpr ⟨_, rfl, _, ih, rfl⟩

theorem segmentInputs_toList (list : List Segment) :
    (list.flatMap fun s => segmentInputs s.data).flatMap Option.toList = list.flatMap Segment.data := by
  induction list with
  | nil => rfl
  | cons s list ih =>
    have hdata : (segmentInputs s.data).flatMap Option.toList = s.data := by
      simp [segmentInputs, List.flatMap_map]
    rw [List.flatMap_cons, List.flatMap_append, ih, hdata, List.flatMap_cons]

/-- A postprocessor that is loaded and has put `shown` out. -/
structure PostProcessor.Feeds (mode : Option mc.State) (shown : List UInt8) (pp : PostProcessor mc) :
    Prop where
  state : pp.state = if mode = none then .pass else .post
  machine : mode ≠ none → pp.machine = mode
  shown : pp.output ++ pp.outbuf = shown

theorem PostProcessor.outc_eq (c : Option UInt8) (pp : PostProcessor mc) :
    (pp.outc c).state = pp.state ∧ (pp.outc c).machine = pp.machine ∧
      (pp.outc c).output ++ (pp.outc c).outbuf = pp.output ++ pp.outbuf ++ c.toList := by
  cases c with
  | none => simp [PostProcessor.outc, PostProcessor.flush]
  | some c =>
    unfold PostProcessor.outc
    dsimp only
    split <;> simp [PostProcessor.flush]

theorem PostProcessor.outc_foldl (bytes : List UInt8) (pp : PostProcessor mc) :
    (bytes.foldl (fun pp byte => pp.outc (some byte)) pp).state = pp.state ∧
      (bytes.foldl (fun pp byte => pp.outc (some byte)) pp).machine = pp.machine ∧
      (bytes.foldl (fun pp byte => pp.outc (some byte)) pp).output ++
        (bytes.foldl (fun pp byte => pp.outc (some byte)) pp).outbuf =
          pp.output ++ pp.outbuf ++ bytes := by
  induction bytes generalizing pp with
  | nil => simp
  | cons byte bytes ih =>
    obtain ⟨hstate, hmachine, hshown⟩ := PostProcessor.outc_eq (some byte) pp
    obtain ⟨hstate', hmachine', hshown'⟩ := ih (pp.outc (some byte))
    refine ⟨hstate'.trans hstate, hmachine'.trans hmachine, ?_⟩
    rw [List.foldl_cons, hshown', hshown]
    simp

theorem PostProcessor.Feeds.write {mode : Option mc.State} {shown : List UInt8}
    {pp : PostProcessor mc} (h : pp.Feeds mode shown) {c : Option UInt8}
    {out : Option mc.State × List UInt8} (hstep : mc.step mode c = .ok out) :
    ∃ pp', pp.write c = .ok pp' ∧ pp'.Feeds out.1 (shown ++ out.2) ∧ (c = none → pp'.outbuf = []) := by
  cases mode with
  | none =>
    have hstate : pp.state = .pass := h.state
    obtain rfl := Except.ok.inj hstep
    obtain ⟨hkept, -, hshown⟩ := PostProcessor.outc_eq c pp
    refine ⟨pp.outc c, ?_, ⟨hkept.trans hstate, fun hne => absurd rfl hne, ?_⟩, ?_⟩
    · unfold PostProcessor.write
      rw [hstate]
    · rw [hshown, h.shown]
    · rintro rfl
      rfl
  | some state =>
    have hstate : pp.state = .post := h.state
    have hmachine : pp.machine = some state := h.machine (Option.some_ne_none state)
    obtain ⟨⟨machine, bytes⟩, hcall, hlast⟩ := bind_eq_ok.mp hstep
    obtain rfl := Except.ok.inj hlast
    have hrun : pp.run c = .ok (bytes.foldl (fun pp byte => pp.outc (some byte))
        { pp with machine := some machine }) := by
      unfold PostProcessor.run
      rw [hmachine]
      dsimp only
      rw [hcall]
      rfl
    obtain ⟨hkept, hnext, hshown⟩ := PostProcessor.outc_foldl bytes { pp with machine := some machine }
    generalize bytes.foldl (fun pp byte => pp.outc (some byte)) { pp with machine := some machine } = pp'
      at hrun hkept hnext hshown
    have hshown' : pp'.output ++ pp'.outbuf = shown ++ bytes := by
      rw [hshown, ← h.shown]
    cases c with
    | none =>
      refine ⟨pp'.flush, ?_, ⟨hkept.trans hstate, fun _ => hnext, ?_⟩, fun _ => rfl⟩
      · unfold PostProcessor.write
        rw [hstate]
        dsimp only
        rw [hrun, ok_bind]
      · simpa [PostProcessor.flush] using hshown'
    | some c =>
      refine ⟨pp', ?_, ⟨hkept.trans hstate, fun _ => hnext, hshown'⟩, ?_⟩
      · unfold PostProcessor.write
        rw [hstate]
        exact hrun
      · intro hnone
        cases hnone

end post

section load
variable {marker : UInt8} {rest cs : List UInt8} {done : Decoder pr → Prop} {d : Decompresser pr mc}

def Decoder.inited (state : pr.State) (dec : Decoder pr) : Decoder pr :=
  if pr.isModeled then { dec with state, low := 1, high := 0xFFFFFFFF, curr := 0 }
  else { dec with state, low := 0, high := 0, curr := 0 }

theorem Decoder.init_eq (dec : Decoder pr) :
    dec.init = pr.init >>= fun state => .ok (dec.inited state) := by
  unfold Decoder.init Decoder.inited
  refine bind_congr fun state => ?_
  split <;> rfl

theorem Decoder.inited_modeled (hmodeled : pr.isModeled) (state : pr.State) (dec : Decoder pr) :
    dec.inited state = { dec with state, low := 1, high := 0xFFFFFFFF, curr := 0 } :=
  if_pos hmodeled

theorem Decoder.inited_stored (hstored : ¬ pr.isModeled) (state : pr.State) (dec : Decoder pr) :
    dec.inited state = { dec with state, low := 0, high := 0, curr := 0 } :=
  if_neg hstored

theorem Decompresser.initFirst_firstseg (h : d.decodeState = .firstseg) :
    d.initFirst = pr.init >>= fun state =>
      .ok { d with dec := d.dec.inited state, pp := d.pp.init d.ph d.pm, decodeState := .seg } := by
  unfold Decompresser.initFirst
  rw [if_pos h, Decoder.init_eq, bind_assoc]
  rfl

theorem Decompresser.initFirst_seg (h : d.decodeState = .seg) : d.initFirst = .ok d := by
  unfold Decompresser.initFirst
  rw [h]
  exact if_neg (by decide)

theorem Decoder.get_cons {d : Decoder pr} {c : UInt8} {input : List UInt8}
    (hinput : d.input = c :: input) : Decoder.get d = .ok (some c, { d with input }) := by
  unfold Decoder.get
  rw [hinput]
  rfl

theorem onDecoder_of_ok {α : Type} {call : DecoderM pr α} {a : α} {dec : Decoder pr}
    (h : call d.dec = .ok (a, dec)) : onDecoder call d = .ok (a, { d with dec }) := by
  unfold onDecoder
  rw [h]
  rfl

theorem onPost_of_ok {call : PostProcessor mc → Except ZpaqStop (PostProcessor mc)}
    {pp : PostProcessor mc} (h : call d.pp = .ok pp) : onPost call d = .ok ((), { d with pp }) := by
  unfold onPost
  rw [h]
  rfl

theorem Decompresser.load_done (fuel : Nat) (h : d.pp.state.loading = false) :
    Decompresser.load (fuel + 1) d = .ok ((), d) := by
  conv_lhs => unfold Decompresser.load
  change (if d.pp.state.loading then _ else pure () : DecompresserM pr mc Unit) d = _
  rw [h]
  rfl

theorem Decompresser.load_next (fuel : Nat) {c : UInt8} {pp : PostProcessor mc}
    (hloading : d.pp.state.loading = true) (hreads : Reads marker rest done (c :: cs) d.dec)
    (hwrite : d.pp.write (some c) = .ok pp) :
    ∃ dec, Reads marker rest done cs dec ∧
      Decompresser.load (fuel + 1) d = Decompresser.load fuel { d with dec, pp } := by
  obtain ⟨-, dec, hrun, hrest⟩ := hreads
  refine ⟨dec, hrest, ?_⟩
  have hpost : onPost (PostProcessor.write (some c)) { d with dec } = .ok ((), { d with dec, pp }) :=
    onPost_of_ok hwrite
  conv_lhs => unfold Decompresser.load
  change (if d.pp.state.loading then _ else pure () : DecompresserM pr mc Unit) d = _
  rw [hloading]
  exact (bind_of_ok (onDecoder_of_ok hrun) _).trans (bind_of_ok hpost _)

theorem PostProcessor.write_load {pp : PostProcessor mc} (c : UInt8) (hstate : pp.state = .load) :
    pp.write (some c) =
      if (pp.program ++ [c]).length = pp.hsize then
        mc.initp pp.ph pp.pm (pp.program ++ [c]) >>= fun machine =>
          .ok { pp with program := pp.program ++ [c], machine := some machine, state := .post }
      else .ok { pp with program := pp.program ++ [c] } := by
  cases pp
  cases hstate
  rfl

theorem Decompresser.load_program (left : List UInt8) (hleft : left ≠ []) {fuel : Nat}
    (hfuel : left.length ≤ fuel) (hstate : d.pp.state = .load)
    (hsize : d.pp.hsize = (d.pp.program ++ left).length) {machine : mc.State}
    (hinitp : mc.initp d.pp.ph d.pp.pm (d.pp.program ++ left) = .ok machine)
    (hreads : Reads marker rest done (left ++ cs) d.dec) :
    ∃ dec pp, Reads marker rest done cs dec ∧
      Decompresser.load (fuel + 1) d = .ok ((), { d with dec, pp }) ∧ pp.state = .post ∧
      pp.machine = some machine ∧ pp.output = d.pp.output ∧ pp.outbuf = d.pp.outbuf := by
  induction left generalizing d fuel with
  | nil => exact absurd rfl hleft
  | cons c left ih =>
    have hloading : d.pp.state.loading = true := by
      rw [hstate]
      rfl
    obtain ⟨fuel, rfl⟩ := Nat.exists_eq_add_one_of_ne_zero (show fuel ≠ 0 by
      rw [List.length_cons] at hfuel
      omega)
    have hwrite := PostProcessor.write_load c hstate
    by_cases hlast : left = []
    · subst hlast
      rw [if_pos hsize.symm, hinitp, ok_bind] at hwrite
      obtain ⟨dec, hrest, hload⟩ := Decompresser.load_next (fuel + 1) hloading hreads hwrite
      exact ⟨dec, _, hrest, hload.trans (Decompresser.load_done fuel rfl), rfl, rfl, rfl, rfl⟩
    · have hshort : ¬ (d.pp.program ++ [c]).length = d.pp.hsize := by
        have hpos := List.length_pos_iff.mpr hlast
        rw [hsize]
        simp
        omega
      rw [if_neg hshort] at hwrite
      obtain ⟨dec, hrest, hload⟩ := Decompresser.load_next (fuel + 1) hloading hreads hwrite
      have hfuel' : left.length ≤ fuel := by
        rw [List.length_cons] at hfuel
        omega
      obtain ⟨dec', pp', hrest', hload', hpost, hmachine, hout, hbuf⟩ :=
        @ih { d with dec, pp := { d.pp with program := d.pp.program ++ [c] } } hlast fuel
          hfuel' hstate (by simp [hsize]) (by rwa [← List.append_cons d.pp.program c left]) hrest
      exact ⟨dec', pp', hrest', hload.trans hload', hpost, hmachine, hout, hbuf⟩

theorem Decompresser.load_size {n : Nat} (hpos : 0 < n) (hlt : n < 2 ^ 16) (fuel : Nat)
    (hstate : d.pp.state = .init)
    (hreads : Reads marker rest done
      (1 :: UInt8.ofNat (n &&& 255) :: UInt8.ofNat ((n >>> 8) &&& 255) :: cs) d.dec) :
    ∃ dec, Reads marker rest done cs dec ∧ Decompresser.load (fuel + 3) d =
      Decompresser.load fuel
        { d with dec, pp := { d.pp with hsize := n, program := [], state := .load } } := by
  have hlow : (UInt8.ofNat (n &&& 255)).toNat = n % 256 := by
    rw [Nat.and_two_pow_sub_one_eq_mod n 8, UInt8.toNat_ofNat']
    omega
  have hhigh : (UInt8.ofNat ((n >>> 8) &&& 255)).toNat = n / 256 := by
    rw [Nat.and_two_pow_sub_one_eq_mod _ 8, UInt8.toNat_ofNat', Nat.shiftRight_eq_div_pow]
    omega
  have hloading : d.pp.state.loading = true := by
    rw [hstate]
    rfl
  have hwrite : d.pp.write (some 1) = .ok { d.pp with state := .prog } := by
    unfold PostProcessor.write
    rw [hstate]
    rfl
  obtain ⟨dec₁, hreads₁, hload₁⟩ := Decompresser.load_next (fuel + 1 + 1) hloading hreads hwrite
  obtain ⟨dec₂, hreads₂, hload₂⟩ := @Decompresser.load_next pr mc marker rest _ done
    { d with dec := dec₁, pp := { d.pp with state := .prog } } (fuel + 1) _
    { d.pp with hsize := n % 256, state := .size } rfl hreads₁ (by rw [← hlow]; rfl)
  have hsum : n % 256 + n / 256 * 256 = n := by omega
  have hwrite₃ : PostProcessor.write (some (UInt8.ofNat ((n >>> 8) &&& 255)))
      { d.pp with hsize := n % 256, state := .size } =
        .ok { d.pp with hsize := n, program := [], state := .load } := by
    unfold PostProcessor.write
    dsimp only
    rw [hhigh, hsum, if_neg (by omega)]
  obtain ⟨dec₃, hreads₃, hload₃⟩ := @Decompresser.load_next pr mc marker rest _ done
    { d with dec := dec₂, pp := { d.pp with hsize := n % 256, state := .size } } fuel _ _ rfl hreads₂
    hwrite₃
  exact ⟨dec₃, hreads₃, hload₁.trans (hload₂.trans hload₃)⟩

def Machine.startMode (mc : Machine) (ph pm : Nat) (pcomp : List UInt8) :
    Except ZpaqStop (Option mc.State) :=
  if pcomp = [] then .ok none else mc.initp ph pm pcomp >>= fun state => .ok (some state)

theorem Decompresser.load_first {pcomp : List UInt8} (hlength : pcomp.length < 2 ^ 16) {fuel : Nat}
    (hfuel : pcomp.length + 4 ≤ fuel) (hstate : d.pp.state = .init) {mode : Option mc.State}
    (hmode : mc.startMode d.pp.ph d.pp.pm pcomp = .ok mode)
    (hreads : Reads marker rest done (postProcessCode pcomp ++ cs) d.dec) :
    ∃ dec pp, Reads marker rest done cs dec ∧
      Decompresser.load fuel d = .ok ((), { d with dec, pp }) ∧
      pp.Feeds mode (d.pp.output ++ d.pp.outbuf) := by
  have hloading : d.pp.state.loading = true := by
    rw [hstate]
    rfl
  obtain ⟨fuel, rfl⟩ := Nat.exists_eq_add_of_le hfuel
  by_cases hpcomp : pcomp = []
  · have hcode : postProcessCode pcomp = [0] := if_neg (not_not.mpr hpcomp)
    have hwrite : d.pp.write (some 0) =
        .ok { d.pp with state := .pass, program := [], machine := none } := by
      unfold PostProcessor.write
      rw [hstate]
      rfl
    rw [hcode] at hreads
    rw [show pcomp.length + 4 + fuel = pcomp.length + fuel + 2 + 1 + 1 by omega]
    obtain ⟨dec, hrest, hload⟩ :=
      Decompresser.load_next (pcomp.length + fuel + 2 + 1) hloading hreads hwrite
    rw [Machine.startMode, if_pos hpcomp] at hmode
    obtain rfl := Except.ok.inj hmode
    exact ⟨dec, _, hrest, hload.trans (Decompresser.load_done _ rfl), rfl,
      fun hne => absurd rfl hne, rfl⟩
  · have hcode : postProcessCode pcomp = 1 :: UInt8.ofNat (pcomp.length &&& 255) ::
        UInt8.ofNat ((pcomp.length >>> 8) &&& 255) :: pcomp := if_pos hpcomp
    rw [hcode, List.cons_append, List.cons_append, List.cons_append] at hreads
    rw [Machine.startMode, if_neg hpcomp] at hmode
    obtain ⟨machine, hinitp, hmode⟩ := bind_eq_ok.mp hmode
    obtain rfl := Except.ok.inj hmode
    rw [show pcomp.length + 4 + fuel = pcomp.length + fuel + 1 + 3 by omega]
    obtain ⟨dec, hrest, hload⟩ := Decompresser.load_size (List.length_pos_iff.mpr hpcomp) hlength
      (pcomp.length + fuel + 1) hstate hreads
    obtain ⟨dec', pp, hrest', hload', hpost, hmachine, hout, hbuf⟩ :=
      @Decompresser.load_program pr mc marker rest cs done
        { d with dec, pp := { d.pp with hsize := pcomp.length, program := [], state := .load } }
        pcomp hpcomp (pcomp.length + fuel) (by omega) rfl rfl machine hinitp hrest
    exact ⟨dec', pp, hrest', hload.trans hload', hpost, fun _ => hmachine, by rw [hout, hbuf]⟩

end load

section loop
variable {marker : UInt8} {rest : List UInt8} {done : Decoder pr → Prop}

theorem Decompresser.decompressLoop_step {d : Decompresser pr mc} (fuel : Nat) {n : Option Nat}
    (hn : n ≠ some 0) {c : Option UInt8} {dec : Decoder pr} {pp : PostProcessor mc}
    (hrun : Decoder.decompress d.dec = .ok (c, dec)) (hwrite : d.pp.write c = .ok pp) :
    Decompresser.decompressLoop (fuel + 1) n d =
      if c = none then .ok (false, { d with dec, pp, state := .segend })
      else Decompresser.decompressLoop fuel (n.map (· - 1)) { d with dec, pp } := by
  have hpost : onPost (PostProcessor.write c) { d with dec } = .ok ((), { d with dec, pp }) :=
    onPost_of_ok hwrite
  conv_lhs => unfold Decompresser.decompressLoop
  rw [if_neg hn]
  refine (bind_of_ok (onDecoder_of_ok hrun) _).trans ((bind_of_ok hpost _).trans ?_)
  cases c <;> rfl

theorem Decompresser.decompressLoop_all (cs : List UInt8) {d : Decompresser pr mc}
    {mode : Option mc.State} {shown : List UInt8} {fuel : Nat} (hfuel : cs.length < fuel)
    (hreads : Reads marker rest done cs d.dec) (hfeeds : d.pp.Feeds mode shown)
    {out : Option mc.State × List UInt8} (hout : mc.outputs mode (segmentInputs cs) = .ok out) :
    ∃ dec pp, Decompresser.decompressLoop fuel none d =
        .ok (false, { d with dec, pp, state := .segend }) ∧ done dec ∧ pp.outbuf = [] ∧
      pp.Feeds out.1 (shown ++ out.2) := by
  have hall : (none : Option Nat) ≠ some 0 := by simp
  obtain ⟨fuel, rfl⟩ := Nat.exists_eq_add_one_of_ne_zero (Nat.ne_zero_of_lt hfuel)
  induction cs generalizing d mode shown fuel out with
  | nil =>
    obtain ⟨-, dec, hrun, hdone⟩ := hreads
    obtain ⟨last, hstep, others, hnone, rfl⟩ := Machine.outputs_cons_ok.mp hout
    obtain rfl := Except.ok.inj hnone
    obtain ⟨pp, hwrite, hnext, hempty⟩ := hfeeds.write hstep
    refine ⟨dec, pp, ?_, hdone, hempty rfl, ?_⟩
    · rw [Decompresser.decompressLoop_step fuel hall hrun hwrite]
      rfl
    · rw [List.append_nil]
      exact hnext
  | cons c cs ih =>
    obtain ⟨-, dec, hrun, hrest⟩ := hreads
    obtain ⟨first, hstep, others, hothers, rfl⟩ := Machine.outputs_cons_ok.mp hout
    obtain ⟨pp, hwrite, hnext, -⟩ := hfeeds.write hstep
    rw [List.length_cons] at hfuel
    obtain ⟨fuel, rfl⟩ := Nat.exists_eq_add_one_of_ne_zero (show fuel ≠ 0 by omega)
    obtain ⟨dec', pp', hloop, hdone, hempty, hfeeds'⟩ :=
      @ih { d with dec, pp } _ _ hrest hnext others hothers fuel (by omega)
    refine ⟨dec', pp', ?_, hdone, hempty, ?_⟩
    · rw [Decompresser.decompressLoop_step (fuel + 1) hall hrun hwrite]
      exact hloop
    · rw [List.append_assoc] at hfeeds'
      exact hfeeds'

def Decompresser.Left (marker : UInt8) (rest : List UInt8) (d : Decompresser pr mc) : Prop :=
  d.state = .data ∧ Skips marker rest d.dec ∨
    d.state = .segend ∧ d.dec.curr = 0 ∧ d.dec.input = marker :: rest

theorem Decompresser.decompressLoop_left (cs : List UInt8) {d : Decompresser pr mc}
    {mode : Option mc.State} {shown : List UInt8} {fuel : Nat} (hfuel : cs.length < fuel)
    (n : Option Nat) (hstate : d.state = .data) (hreads : Reads marker rest done cs d.dec)
    (hdone : ∀ dec, done dec → dec.curr = 0 ∧ dec.input = marker :: rest)
    (hfeeds : d.pp.Feeds mode shown) {out : Option mc.State × List UInt8}
    (hout : mc.outputs mode (callInputs n cs) = .ok out) :
    ∃ full d', Decompresser.decompressLoop fuel n d = .ok (full, d') ∧ d'.Left marker rest := by
  obtain ⟨fuel, rfl⟩ := Nat.exists_eq_add_one_of_ne_zero (Nat.ne_zero_of_lt hfuel)
  induction cs generalizing d mode shown fuel n out with
  | nil =>
    by_cases hn : n = some 0
    · refine ⟨true, d, ?_, .inl ⟨hstate, hreads.skips⟩⟩
      unfold Decompresser.decompressLoop
      rw [if_pos hn]
      rfl
    · obtain ⟨-, dec, hrun, hend⟩ := hreads
      rw [callInputs_nil hn] at hout
      obtain ⟨last, hlast, -⟩ := Machine.outputs_cons_ok.mp hout
      obtain ⟨pp, hwrite, -, -⟩ := hfeeds.write hlast
      have hstep := Decompresser.decompressLoop_step fuel hn hrun hwrite
      rw [if_pos rfl] at hstep
      exact ⟨false, _, hstep, .inr ⟨rfl, hdone dec hend⟩⟩
  | cons c cs ih =>
    by_cases hn : n = some 0
    · refine ⟨true, d, ?_, .inl ⟨hstate, hreads.skips⟩⟩
      unfold Decompresser.decompressLoop
      rw [if_pos hn]
      rfl
    · obtain ⟨-, dec, hrun, hrest⟩ := hreads
      rw [callInputs_cons hn] at hout
      obtain ⟨first, hstep, others, hothers, -⟩ := Machine.outputs_cons_ok.mp hout
      obtain ⟨pp, hwrite, hnext, -⟩ := hfeeds.write hstep
      rw [List.length_cons] at hfuel
      obtain ⟨fuel, rfl⟩ := Nat.exists_eq_add_one_of_ne_zero (show fuel ≠ 0 by omega)
      obtain ⟨full, d', hloop, hleft⟩ := @ih { d with dec, pp } _ _ (n.map (· - 1)) hstate
        hrest hnext others hothers fuel (by omega)
      refine ⟨full, d', ?_, hleft⟩
      rw [Decompresser.decompressLoop_step (fuel + 1) hn hrun hwrite]
      exact hloop

theorem Decompresser.decompress_split (fuel : Nat) (n : Option Nat) {d : Decompresser pr mc}
    (hstate : d.state = .data) (hskip : d.decodeState ≠ .skip) :
    Decompresser.decompress fuel n d = d.initFirst >>= fun d =>
      Decompresser.load fuel d >>= fun r => Decompresser.decompressLoop fuel n r.2 := by
  have hassert : assertState .data d = .ok ((), d) := if_pos hstate
  have hget : (MonadState.get : DecompresserM pr mc _) d = .ok (d, d) := rfl
  refine (bind_of_ok hassert _).trans ((bind_of_ok hget _).trans ?_)
  rw [if_neg hskip]
  change d.initFirst >>= (fun first => Except.ok (first, d)) >>= _ = _
  cases d.initFirst <;> rfl

end loop

end TonCompress.Zpaq
