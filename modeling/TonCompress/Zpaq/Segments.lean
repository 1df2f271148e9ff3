import TonCompress.Zpaq.Modeled

/-! Whole segments of modelled bytes: from any place in a segment `decompress`
reads on and `skip` finds the byte behind the four zeros. -/
namespace TonCompress.Zpaq
open TonCompress.Lib

variable {pr : Predictor} {marker : UInt8} {rest : List UInt8}

/-- `skip` returns the byte behind the segment. -/
def Skips (marker : UInt8) (rest : List UInt8) (d : Decoder pr) : Prop :=
  ∃ d', Decoder.skip d = .ok (some marker, d') ∧ d'.curr = 0 ∧ d'.input = rest

/-- The bytes of a segment that are still to come. Before each of them, and
behind the last, the reader may skip what is left. -/
def Reads (marker : UInt8) (rest : List UInt8) (done : Decoder pr → Prop) :
    List UInt8 → Decoder pr → Prop
  | [], d => Skips marker rest d ∧ ∃ d', Decoder.decompress d = .ok (none, d') ∧ done d'
  | c :: cs, d => Skips marker rest d ∧ ∃ d', Decoder.decompress d = .ok (some c, d') ∧
      Reads marker rest done cs d'

theorem Reads.skips {marker : UInt8} {rest cs : List UInt8} {done : Decoder pr → Prop}
    {d : Decoder pr} (h : Reads marker rest done cs d) : Skips marker rest d := by
  cases cs with
  | nil => exact h.1
  | cons c cs => exact h.1

section aligned

def Decoder.filled (d : Decoder pr) (code : List UInt8) : Decoder pr :=
  { d with curr := window code, input := code.drop 4 }

/-- Where the decoder stands between two bytes: in front of the first four bytes
of the code, or behind them. -/
inductive Aligned (code : List UInt8) (d : Decoder pr) : Prop
  | start (hcurr : d.curr = 0) (hinput : d.input = code)
  | behind (hcurr : d.curr = window code) (hinput : d.input = code.drop 4)

theorem Decoder.fill_succ (n : Nat) (d : Decoder pr) (c : UInt8) (input : List UInt8)
    (hinput : d.input = c :: input) :
    Decoder.fill (n + 1) d =
      Decoder.fill n { d with input, curr := d.curr * 256 % 2 ^ 32 + c.toNat } := by
  have hcurr : (d.curr <<< 8) % 2 ^ 32 ||| asU32 (some c) = d.curr * 256 % 2 ^ 32 + c.toNat :=
    shiftLeft_mod_or d.curr c.toNat_lt
  rw [← hcurr]
  cases d
  cases hinput
  rfl

theorem Decoder.fill_four {code : List UInt8} {d : Decoder pr} (hcode : 4 ≤ code.length)
    (hcurr : d.curr = 0) (hinput : d.input = code) :
    Decoder.fill 4 d = .ok ((), d.filled code) := by
  obtain ⟨a, b, c, e, rest, rfl⟩ := exists_eq_cons_four hcode
  have ha := a.toNat_lt
  have hb := b.toNat_lt
  have hc := c.toNat_lt
  have hwindow : window (a :: b :: c :: e :: rest) =
      (((0 * 256 % 2 ^ 32 + a.toNat) * 256 % 2 ^ 32 + b.toNat) * 256 % 2 ^ 32 + c.toNat) * 256
        % 2 ^ 32 + e.toNat := by
    simp [window, beValue_cons]
    omega
  rw [Decoder.fill_succ 3 d a _ hinput, Decoder.fill_succ 2 _ b _ rfl,
    Decoder.fill_succ 1 _ c _ rfl, Decoder.fill_succ 0 _ e _ rfl, hcurr, ← hwindow]
  rfl

theorem Aligned.fillAtStart {code : List UInt8} {d : Decoder pr} (h : Aligned code d)
    (hcode : 4 ≤ code.length) (hwindow : window code ≠ 0) :
    Decoder.fillAtStart d = .ok ((), d.filled code) := by
  unfold Decoder.fillAtStart
  change (if d.curr = 0 then Decoder.fill 4 else pure () : DecoderM pr Unit) d = _
  cases h with
  | start hcurr hinput => rw [if_pos hcurr, Decoder.fill_four hcode hcurr hinput]
  | behind hcurr hinput =>
    have hd : d.filled code = d := by
      cases d
      cases hcurr
      cases hinput
      rfl
    rw [if_neg (by rwa [hcurr]), hd]
    rfl

theorem Aligned.decompress_eq (hmodeled : pr.isModeled) {code : List UInt8} {d : Decoder pr}
    (h : Aligned code d) (hcode : 4 ≤ code.length) (hwindow : window code ≠ 0) :
    Decoder.decompress d = Decoder.decompressModeled (d.filled code) := by
  refine (bind_of_ok (h.fillAtStart hcode hwindow) _).trans ?_
  rw [if_pos hmodeled]

end aligned

section skip

theorem length_of_sealed {tail code : List UInt8} (h : Sealed tail code) : 4 ≤ code.length := by
  induction h with
  | zeros n =>
    simp
    omega
  | byte _ _ ih =>
    rw [List.length_cons]
    omega

theorem skipZeros_replicate (hmarker : marker ≠ 0) (n : Nat) :
    skipZeros (List.replicate n 0 ++ marker :: rest) = (some marker, rest) := by
  induction n with
  | zero => exact if_neg hmarker
  | succ n ih => exact ih

theorem skipCode_cons {curr : Nat} (hcurr : curr ≠ 0) (c : UInt8) (input : List UInt8) :
    skipCode curr (c :: input) = skipCode (curr * 256 % 2 ^ 32 + c.toNat) input := by
  rw [skipCode, if_neg hcurr, shiftLeft_mod_or curr c.toNat_lt]

theorem skipCode_sealed {code : List UInt8}
    (h : Sealed (marker :: rest) code) :
    ∃ n, skipCode (window code) (code.drop 4) = (0, List.replicate n 0 ++ marker :: rest) := by
  induction h with
  | zeros n =>
    refine ⟨n, ?_⟩
    have hwindow : window (List.replicate (n + 4) 0 ++ marker :: rest) = 0 := rfl
    have hdrop : (List.replicate (n + 4) 0 ++ marker :: rest).drop 4 =
        List.replicate n 0 ++ marker :: rest := rfl
    rw [hwindow, hdrop]
    cases n with
    | zero => rfl
    | succ n => rfl
  | @byte byte code hwindow hcode ih =>
    obtain ⟨b₁, b₂, b₃, b₄, last, hlast⟩ := exists_eq_cons_four (length_of_sealed hcode)
    rw [hlast] at hwindow ih ⊢
    obtain ⟨n, hn⟩ := ih
    have hnext := window_next byte b₁ b₂ b₃ b₄ last
    refine ⟨n, ?_⟩
    change skipCode (window (byte :: b₁ :: b₂ :: b₃ :: b₄ :: last)) (b₄ :: last) = _
    rw [skipCode_cons hwindow, ← hnext]
    exact hn

theorem skipCode_skipToCode {code : List UInt8} (hcode : 4 ≤ code.length)
    (hwindow : window code ≠ 0) :
    skipCode (skipToCode code).1 (skipToCode code).2 = skipCode (window code) (code.drop 4) := by
  obtain ⟨a, b, c, e, last, rfl⟩ := exists_eq_cons_four hcode
  have ha := a.toNat_lt
  have hb := b.toNat_lt
  have hc := c.toNat_lt
  have hvalue : window (a :: b :: c :: e :: last) =
      ((a.toNat * 256 + b.toNat) * 256 + c.toNat) * 256 + e.toNat := by
    simp [window, beValue_cons]
    omega
  have hzero : ∀ byte : UInt8, byte.toNat = 0 ↔ byte = 0 := by
    intro byte
    rw [← UInt8.toNat_inj]
    rfl
  rw [hvalue] at hwindow ⊢
  simp only [skipToCode, List.drop_succ_cons, List.drop_zero]
  by_cases ha0 : a = 0
  · have ha' := (hzero a).mpr ha0
    rw [if_pos ha0]
    by_cases hb0 : b = 0
    · have hb' := (hzero b).mpr hb0
      rw [if_pos hb0]
      by_cases hc0 : c = 0
      · have hc' := (hzero c).mpr hc0
        have he0 : e ≠ 0 := mt (hzero e).mpr (by omega)
        rw [if_pos hc0, if_neg he0]
        congr 1
        omega
      · have hne := mt (hzero c).mp hc0
        rw [if_neg hc0, skipCode_cons hne]
        congr 1
        omega
    · have hne := mt (hzero b).mp hb0
      rw [if_neg hb0, skipCode_cons hne, skipCode_cons (by omega)]
      congr 1
      omega
  · have hne := mt (hzero a).mp ha0
    rw [if_neg ha0, skipCode_cons hne, skipCode_cons (by omega), skipCode_cons (by omega)]
    congr 1
    omega

theorem Aligned.skips (hmodeled : pr.isModeled) (hmarker : marker ≠ 0) {code : List UInt8}
    {d : Decoder pr} (h : Aligned code d) (hsealed : Sealed (marker :: rest) code)
    (hwindow : window code ≠ 0) : Skips marker rest d := by
  have hcode := length_of_sealed hsealed
  obtain ⟨n, hrun⟩ := skipCode_sealed hsealed
  have hstart : skipCode (if d.curr = 0 then skipToCode d.input else (d.curr, d.input)).1
      (if d.curr = 0 then skipToCode d.input else (d.curr, d.input)).2 =
        (0, List.replicate n 0 ++ marker :: rest) := by
    cases h with
    | start hcurr hinput => rw [if_pos hcurr, hinput, skipCode_skipToCode hcode hwindow, hrun]
    | behind hcurr hinput => rw [if_neg (by rwa [hcurr]), hcurr, hinput, hrun]
  have hskip : d.skipModeled = (some marker, { d with curr := 0, input := rest }) := by
    unfold Decoder.skipModeled
    dsimp only
    rw [hstart]
    dsimp only
    rw [skipZeros_replicate hmarker]
  refine ⟨{ d with curr := 0, input := rest }, ?_, rfl, rfl⟩
  unfold Decoder.skip
  change (if pr.isModeled then _ else _ : DecoderM pr (Option UInt8)) d = _
  rw [if_pos hmodeled, hskip]
  rfl

end skip

section segment

structure Waits (e : Encoder pr) (input : List UInt8) (d : Decoder pr) : Prop where
  curr : d.curr = 0
  input : d.input = input
  inStep : pr.isModeled → d.low = e.low ∧ d.high = e.high ∧ d.state = e.state

def Encoder.compressAll (cs : List UInt8) (e : Encoder pr) : Except ZpaqStop (Encoder pr) :=
  cs.foldlM (fun e c => e.compress (some c)) e >>= Encoder.compress none

theorem Encoder.compressAll_nil (e : Encoder pr) : e.compressAll [] = e.compress none := rfl

theorem Encoder.compressAll_cons (c : UInt8) (cs : List UInt8) (e : Encoder pr) :
    e.compressAll (c :: cs) = e.compress (some c) >>= Encoder.compressAll cs := by
  unfold Encoder.compressAll
  rw [List.foldlM_cons, bind_assoc]

theorem reads_modeled (hmodeled : pr.isModeled) (hmarker : marker ≠ 0) (cs : List UInt8)
    {e e' : Encoder pr} (he : e.Settled) (hsend : e.compressAll cs = .ok e') :
    e'.Settled ∧ ∃ code, e'.out ++ (List.replicate 4 0 ++ marker :: rest) = e.out ++ code ∧
      e.range.Holds code ∧ Sealed (marker :: rest) code ∧
      ∀ d, Aligned code d → d.low = e.low → d.high = e.high → d.state = e.state →
        Reads marker rest (Waits e' (marker :: rest)) cs d := by
  induction cs generalizing e with
  | nil =>
    have hend : e.compressAll [] = .ok (e.encode true 0) := if_pos hmodeled
    obtain rfl := Except.ok.inj (hend.symm.trans hsend)
    obtain ⟨hholds, hsealed⟩ := @Encoder.Settled.leads_end pr (marker :: rest) e he
    have hwindow := Nat.pos_iff_ne_zero.mp (he.valid.pos.trans_le hholds.low_le)
    refine ⟨he.encode true (by norm_num), _, by rw [he.out_end, List.append_assoc], hholds, hsealed, ?_⟩
    intro d hd hlow hhigh hstate
    obtain ⟨d', hrun, hlow', hhigh', hstate', hcurr, hinput⟩ := @InStep.decode_end pr (marker :: rest)
      e (d.filled (beBytes e.low 4 ++ (List.replicate 4 0 ++ marker :: rest))) he
      ⟨hlow, hhigh, hstate, rfl, rfl⟩
    refine ⟨hd.skips hmodeled hmarker hsealed hwindow, d', ?_, hcurr, hinput,
      fun _ => ⟨hlow', hhigh', hstate'⟩⟩
    rw [hd.decompress_eq hmodeled hholds.length hwindow, hrun]
  | cons c cs ih =>
    rw [Encoder.compressAll_cons] at hsend
    obtain ⟨e₁, hfirst, hothers⟩ := bind_eq_ok.mp hsend
    obtain ⟨he₁, hback⟩ := @forwards_compress pr (marker :: rest) hmodeled c e e₁ he hfirst
    obtain ⟨hsettled, code', htape', hholds', hsealed', hreads⟩ := ih he₁ hothers
    obtain ⟨⟨code, htape, hholds, hsealed⟩, hreceive⟩ :=
      hback _ ⟨code', htape', hholds', hsealed'⟩
    have hwindow := Nat.pos_iff_ne_zero.mp (he.valid.pos.trans_le hholds.low_le)
    refine ⟨hsettled, code, htape, hholds, hsealed, ?_⟩
    intro d hd hlow hhigh hstate
    obtain ⟨d', hrun, code'', htape'', hin⟩ := hreceive (d.filled code)
      ⟨code, htape, hlow, hhigh, hstate, rfl, rfl⟩
    have hsame : code'' = code' := List.append_cancel_left (htape''.symm.trans htape')
    rw [hsame] at hin
    refine ⟨hd.skips hmodeled hmarker hsealed hwindow, d', ?_, ?_⟩
    · rw [hd.decompress_eq hmodeled hholds.length hwindow, hrun]
    · exact hreads d' (.behind hin.curr hin.input) hin.low hin.high hin.state

end segment

end TonCompress.Zpaq
