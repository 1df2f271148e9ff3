import TonCompress.Zpaq.Segments

/-! Segments of stored bytes: blocks of at most 65536 bytes with their sizes. -/
namespace TonCompress.Zpaq
open TonCompress.Lib

variable {pr : Predictor} {marker : UInt8} {rest : List UInt8}

def storedCode (blocks : List (List UInt8)) : List UInt8 :=
  blocks.flatMap fun block => beBytes block.length 4 ++ block

/-- A block that the encoder writes. -/
def IsBlock (block : List UInt8) : Prop := block ≠ [] ∧ block.length ≤ bufSize

section encoder

theorem Encoder.flush_eq (e : Encoder pr) :
    e.flush = { e with out := e.out ++ (beBytes e.low 4 ++ e.buf.take e.low), low := 0 } := by
  have hbyte : ∀ n : Nat, UInt8.ofNat (n &&& 255) = UInt8.ofNat n := by
    intro n
    rw [← UInt8.toNat_inj, UInt8.toNat_ofNat', UInt8.toNat_ofNat', Nat.and_two_pow_sub_one_eq_mod n 8]
    omega
  simp [Encoder.flush, Encoder.put, hbyte, beBytes, Nat.shiftRight_eq_div_pow, Nat.div_div_eq_div_mul]

/-- `low` counts the bytes in `buf` that are still to be written. -/
structure Encoder.Buffers (e : Encoder pr) : Prop where
  le_length : e.low ≤ e.buf.length
  le_size : e.low ≤ bufSize

def Encoder.pending (e : Encoder pr) : List UInt8 := e.buf.take e.low

theorem Encoder.Buffers.length_pending {e : Encoder pr} (h : e.Buffers) : e.pending.length = e.low := by
  rw [Encoder.pending, List.length_take]
  exact Nat.min_eq_left h.le_length

theorem Encoder.Buffers.isBlock_pending {e : Encoder pr} (h : e.Buffers) (hlow : e.low ≠ 0) :
    IsBlock e.pending := by
  have hlength := h.length_pending
  have hsize := h.le_size
  exact ⟨List.ne_nil_of_length_pos (by omega), by omega⟩

theorem Encoder.Buffers.out_flush {e : Encoder pr} (h : e.Buffers) :
    e.flush.out = e.out ++ storedCode [e.pending] := by
  rw [Encoder.flush_eq, storedCode, List.flatMap_singleton, h.length_pending]
  rfl

theorem Encoder.compress_full (hstored : ¬ pr.isModeled) (c : UInt8) {e : Encoder pr}
    (hfull : e.low = bufSize) : e.compress (some c) = .ok { e.flush with buf := [c], low := 1 } := by
  have hpos : e.low ≠ 0 := by
    rw [hfull]
    decide
  have hwrite : e.low ≠ 0 ∧ (some c = none ∨ e.low = bufSize) := ⟨hpos, .inr hfull⟩
  simp only [Encoder.compress, if_neg hstored, if_pos hwrite, Encoder.flush_eq]
  simp

theorem Encoder.compress_room (hstored : ¬ pr.isModeled) (c : UInt8) {e : Encoder pr}
    (hroom : e.low ≠ bufSize) :
    e.compress (some c) = .ok { e with buf := e.pending ++ [c], low := e.low + 1 } := by
  simp [Encoder.compress, Encoder.pending, hstored, hroom]

theorem Encoder.Buffers.compress (hstored : ¬ pr.isModeled) (c : UInt8) {e : Encoder pr}
    (h : e.Buffers) :
    ∃ e', e.compress (some c) = .ok e' ∧ e'.Buffers ∧ ∃ written, (∀ block ∈ written, IsBlock block) ∧
      written.flatten ++ e'.pending = e.pending ++ [c] ∧ e'.out = e.out ++ storedCode written := by
  have hlength := h.length_pending
  have hsize := h.le_size
  by_cases hfull : e.low = bufSize
  · have hpos : e.low ≠ 0 := by
      rw [hfull]
      decide
    refine ⟨_, Encoder.compress_full hstored c hfull, ⟨le_rfl, show 1 ≤ bufSize by decide⟩,
      [e.pending], ?_, ?_, h.out_flush⟩
    · intro block hblock
      rw [List.mem_singleton.mp hblock]
      exact h.isBlock_pending hpos
    · rw [List.flatten_singleton]
      rfl
  · have hall : (e.pending ++ [c]).length = e.low + 1 := by
      rw [List.length_append, hlength]
      rfl
    refine ⟨_, Encoder.compress_room hstored c hfull, ⟨hall.ge, show e.low + 1 ≤ bufSize by omega⟩, [],
      by simp, ?_, ?_⟩
    · exact List.take_of_length_le hall.le
    · exact (List.append_nil e.out).symm

theorem Encoder.Buffers.compress_none (hstored : ¬ pr.isModeled) {e : Encoder pr} (h : e.Buffers) :
    ∃ e', e.compress none = .ok e' ∧ e'.low = 0 ∧ ∃ written, (∀ block ∈ written, IsBlock block) ∧
      written.flatten = e.pending ∧ e'.out = e.out ++ storedCode written := by
  by_cases hlow : e.low = 0
  · have hend : e.compress none = .ok e := by
      simp [Encoder.compress, hstored, hlow]
    refine ⟨e, hend, hlow, [], by simp, ?_, (List.append_nil e.out).symm⟩
    rw [Encoder.pending, hlow]
    rfl
  · have hend : e.compress none = .ok e.flush := by
      simp [Encoder.compress, hstored, hlow]
    refine ⟨e.flush, hend, rfl, [e.pending], ?_, List.flatten_singleton, h.out_flush⟩
    intro block hblock
    rw [List.mem_singleton.mp hblock]
    exact h.isBlock_pending hlow

theorem compressAll_stored (hstored : ¬ pr.isModeled) (cs : List UInt8) {e e' : Encoder pr}
    (he : e.Buffers) (hsend : e.compressAll cs = .ok e') :
    e'.low = 0 ∧ ∃ blocks, (∀ block ∈ blocks, IsBlock block) ∧
      blocks.flatten = e.pending ++ cs ∧ e'.out = e.out ++ storedCode blocks := by
  induction cs generalizing e with
  | nil =>
    obtain ⟨last, hlast, hend⟩ := he.compress_none hstored
    obtain rfl := Except.ok.inj (hlast.symm.trans hsend)
    rw [List.append_nil]
    exact hend
  | cons c cs ih =>
    obtain ⟨next, hnext, hbuffers, written, hwritten, hflatten, hout⟩ := he.compress hstored c
    rw [Encoder.compressAll_cons, hnext, ok_bind] at hsend
    obtain ⟨hlow, blocks, hblocks, hflatten', hout'⟩ := ih hbuffers hsend
    refine ⟨hlow, written ++ blocks, ?_, ?_, ?_⟩
    · intro block hblock
      exact (List.mem_append.mp hblock).elim (hwritten block) (hblocks block)
    · rw [List.flatten_append, hflatten', ← List.append_assoc, hflatten, List.append_assoc]
      rfl
    · rw [storedCode, List.flatMap_append, ← List.append_assoc]
      exact hout'.trans (congrArg (· ++ storedCode blocks) hout)

end encoder

section decoder

structure Inside (marker : UInt8) (rest block : List UInt8) (blocks : List (List UInt8))
    (d : Decoder pr) : Prop where
  curr : d.curr = block.length
  input : d.input = block ++ (storedCode blocks ++ (List.replicate 4 0 ++ marker :: rest))

theorem IsBlock.size_lt {block : List UInt8} (h : IsBlock block) : block.length < 2 ^ 32 := by
  have hle := h.2
  unfold bufSize at hle
  omega

theorem window_size {block : List UInt8} (h : IsBlock block) (code : List UInt8) :
    window (beBytes block.length 4 ++ code) = block.length := by
  rw [window, List.take_left' (beBytes_length _ _), beValue_beBytes]
  exact h.size_lt

theorem Decoder.skipSize_succ (n : Nat) (d : Decoder pr) (c : UInt8) (input : List UInt8)
    (last : Option UInt8) (hinput : d.input = c :: input) :
    Decoder.skipSize (n + 1) last d = Decoder.skipSize n (some c) { d with
      input, curr := d.curr * 256 % 2 ^ 32 + c.toNat } := by
  have hcurr : (d.curr <<< 8) % 2 ^ 32 ||| asU32 (some c) = d.curr * 256 % 2 ^ 32 + c.toNat :=
    shiftLeft_mod_or d.curr c.toNat_lt
  rw [← hcurr]
  cases d
  cases hinput
  rfl

theorem Decoder.skipSize_four {code : List UInt8} {d : Decoder pr} (hcode : 4 ≤ code.length)
    (hcurr : d.curr = 0) (hinput : d.input = code) (last : Option UInt8) :
    ∃ c, Decoder.skipSize 4 last d = .ok (some c, d.filled code) := by
  have hfill := Decoder.fill_four hcode hcurr hinput
  obtain ⟨a, b, c, e, rest, rfl⟩ := exists_eq_cons_four hcode
  rw [Decoder.fill_succ 3 d a _ hinput, Decoder.fill_succ 2 _ b _ rfl,
    Decoder.fill_succ 1 _ c _ rfl, Decoder.fill_succ 0 _ e _ rfl] at hfill
  have hfilled := congrArg (Except.map Prod.snd) hfill
  refine ⟨e, ?_⟩
  rw [Decoder.skipSize_succ 3 d a _ last hinput, Decoder.skipSize_succ 2 _ b _ _ rfl,
    Decoder.skipSize_succ 1 _ c _ _ rfl, Decoder.skipSize_succ 0 _ e _ _ rfl]
  exact congrArg (fun s => Except.ok (some e, s)) (Except.ok.inj hfilled)

theorem Decoder.skipBytes_eq (block : List UInt8) {d : Decoder pr} {input : List UInt8}
    (hcurr : d.curr = block.length) (hinput : d.input = block ++ input) :
    Decoder.skipBytes block.length d = .ok ((), { d with curr := 0, input }) := by
  induction block generalizing d with
  | nil =>
    cases d
    cases hcurr
    cases hinput
    rfl
  | cons c block ih =>
    have hstep : Decoder.skipBytes (block.length + 1) d =
        Decoder.skipBytes block.length { d with curr := block.length, input := block ++ input } := by
      cases d
      cases hinput
      rfl
    rw [List.length_cons, hstep, ih rfl rfl]

theorem Decoder.skipBlocks_zero (fuel : Nat) (c : Option UInt8) {d : Decoder pr} (h : d.curr = 0) :
    Decoder.skipBlocks (fuel + 1) c d = .ok (c, d) := by
  conv_lhs => unfold Decoder.skipBlocks
  change (if d.curr = 0 then pure c else _ : DecoderM pr (Option UInt8)) d = _
  rw [if_pos h]
  rfl

theorem Decoder.skipBlocks_succ (fuel : Nat) (c : Option UInt8) {d : Decoder pr} (h : d.curr ≠ 0) :
    Decoder.skipBlocks (fuel + 1) c d = Decoder.skipBytes d.curr d >>= fun r =>
      Decoder.skipSize 4 c r.2 >>= fun r => Decoder.skipBlocks fuel r.1 r.2 := by
  conv_lhs => unfold Decoder.skipBlocks
  change (if d.curr = 0 then pure c else _ : DecoderM pr (Option UInt8)) d = _
  rw [if_neg h]
  rfl

theorem Inside.filled {block : List UInt8} {blocks : List (List UInt8)} (hblock : IsBlock block)
    (d : Decoder pr) :
    Inside marker rest block blocks
      (d.filled (storedCode (block :: blocks) ++ (List.replicate 4 0 ++ marker :: rest))) := by
  have hcode : storedCode (block :: blocks) ++ (List.replicate 4 0 ++ marker :: rest) =
      beBytes block.length 4 ++
        (block ++ (storedCode blocks ++ (List.replicate 4 0 ++ marker :: rest))) := by
    simp [storedCode]
  have hwindow := window_size hblock
    (block ++ (storedCode blocks ++ (List.replicate 4 0 ++ marker :: rest)))
  rw [hcode]
  exact ⟨hwindow, List.drop_left' (beBytes_length _ _)⟩

theorem Decoder.skipBlocks_eq (blocks : List (List UInt8)) (hblocks : ∀ block ∈ blocks, IsBlock block)
    {fuel : Nat} (hfuel : blocks.length < fuel) {d : Decoder pr} (last : Option UInt8)
    (h : Inside marker rest [] blocks d) :
    ∃ c, (Decoder.skipSize 4 last d >>= fun r => Decoder.skipBlocks fuel r.1 r.2) =
      .ok (some c, { d with curr := 0, input := marker :: rest }) := by
  induction blocks generalizing d fuel last with
  | nil =>
    obtain ⟨fuel, rfl⟩ := Nat.exists_eq_add_one_of_ne_zero (Nat.ne_zero_of_lt hfuel)
    obtain ⟨c, hsize⟩ := Decoder.skipSize_four (by simp; omega) h.curr h.input last
    refine ⟨c, ?_⟩
    rw [hsize, ok_bind, Decoder.skipBlocks_zero fuel _ rfl]
    rfl
  | cons block blocks ih =>
    obtain ⟨fuel, rfl⟩ := Nat.exists_eq_add_one_of_ne_zero (Nat.ne_zero_of_lt hfuel)
    obtain ⟨hblock, hblocks⟩ := List.forall_mem_cons.mp hblocks
    obtain ⟨c, hsize⟩ := Decoder.skipSize_four (by simp; omega) h.curr h.input last
    have hinside := @Inside.filled pr marker rest block blocks hblock d
    have hcurr := hinside.curr
    have hne : block.length ≠ 0 := mt List.length_eq_zero_iff.mp hblock.1
    rw [hsize, ok_bind]
    rw [List.nil_append, Decoder.skipBlocks_succ fuel _ (by rwa [hcurr]), hcurr,
      Decoder.skipBytes_eq block hcurr hinside.input, ok_bind]
    have hlength : blocks.length < fuel := by
      rw [List.length_cons] at hfuel
      omega
    exact ih hblocks hlength (some c) ⟨rfl, rfl⟩

theorem length_storedCode (blocks : List (List UInt8)) : blocks.length ≤ (storedCode blocks).length := by
  induction blocks with
  | nil => exact Nat.zero_le _
  | cons block blocks ih =>
    have hcode : storedCode (block :: blocks) = beBytes block.length 4 ++ block ++ storedCode blocks := rfl
    rw [hcode]
    simp
    omega

theorem Decoder.skip_stored (hstored : ¬ pr.isModeled) (d : Decoder pr) :
    Decoder.skip d =
      (if d.curr = 0 then Decoder.skipSize 4 none d else .ok (none, d)) >>= fun r =>
        Decoder.skipBlocks (d.input.length + 1) r.1 r.2 >>= fun r =>
          if r.1 = none then .ok (none, r.2) else Decoder.get r.2 := by
  have hafter : ∀ s : Option UInt8 × Decoder pr,
      (if s.1 = none then pure none else Decoder.get : DecoderM pr (Option UInt8)) s.2 =
        if s.1 = none then .ok (none, s.2) else Decoder.get s.2 := by
    intro s
    split <;> rfl
  unfold Decoder.skip
  change (if pr.isModeled then _ else _ : DecoderM pr (Option UInt8)) d = _
  rw [if_neg hstored]
  simp only [← hafter]
  by_cases hcurr : d.curr = 0
  · rw [if_pos hcurr, if_pos hcurr]
    rfl
  · rw [if_neg hcurr, if_neg hcurr]
    rfl

theorem Inside.skips (hstored : ¬ pr.isModeled) {block : List UInt8} {blocks : List (List UInt8)}
    (hblocks : ∀ block ∈ blocks, IsBlock block) {d : Decoder pr}
    (h : Inside marker rest block blocks d) : Skips marker rest d := by
  have hlength := length_storedCode blocks
  have hinput : blocks.length < d.input.length := by
    rw [h.input]
    simp
    omega
  refine ⟨{ d with curr := 0, input := rest }, ?_, rfl, rfl⟩
  rw [Decoder.skip_stored hstored]
  by_cases hblock : block = []
  · rw [hblock] at h
    obtain ⟨c, hrun⟩ := Decoder.skipBlocks_eq blocks hblocks (Nat.lt_succ_of_lt hinput) none h
    have hcurr : d.curr = 0 := h.curr
    rw [if_pos hcurr, ← bind_assoc, hrun]
    rfl
  · have hne : d.curr ≠ 0 := by
      rw [h.curr]
      exact mt List.length_eq_zero_iff.mp hblock
    obtain ⟨c, hrun⟩ := @Decoder.skipBlocks_eq pr marker rest blocks hblocks _ hinput
      { d with curr := 0, input := storedCode blocks ++ (List.replicate 4 0 ++ marker :: rest) }
      none ⟨rfl, rfl⟩
    rw [if_neg hne, ok_bind, Decoder.skipBlocks_succ _ none hne, h.curr,
      Decoder.skipBytes_eq block h.curr h.input, ok_bind, hrun]
    rfl

theorem Decoder.decompressStored_cons {d : Decoder pr} {n : Nat} {c : UInt8} {input : List UInt8}
    (hcurr : d.curr = n + 1) (hinput : d.input = c :: input) :
    Decoder.decompressStored d = .ok (some c, { d with curr := n, input }) := by
  have hne : d.curr ≠ 0 := by omega
  unfold Decoder.decompressStored
  change (if d.curr = 0 then pure none else _ : DecoderM pr (Option UInt8)) d = _
  rw [if_neg hne]
  cases d
  cases hcurr
  cases hinput
  rfl

theorem Decoder.decompress_inside (hstored : ¬ pr.isModeled) {d : Decoder pr} (h : d.curr ≠ 0) :
    Decoder.decompress d = Decoder.decompressStored d := by
  have hfill : Decoder.fillAtStart d = .ok ((), d) := by
    unfold Decoder.fillAtStart
    change (if d.curr = 0 then Decoder.fill 4 else pure () : DecoderM pr Unit) d = _
    rw [if_neg h]
    rfl
  refine (bind_of_ok hfill _).trans ?_
  rw [if_neg hstored]

theorem Decoder.decompress_between (hstored : ¬ pr.isModeled) {code : List UInt8} {d : Decoder pr}
    (hcode : 4 ≤ code.length) (hcurr : d.curr = 0) (hinput : d.input = code) :
    Decoder.decompress d = Decoder.decompressStored (d.filled code) := by
  have hfill : Decoder.fillAtStart d = .ok ((), d.filled code) := by
    unfold Decoder.fillAtStart
    change (if d.curr = 0 then Decoder.fill 4 else pure () : DecoderM pr Unit) d = _
    rw [if_pos hcurr, Decoder.fill_four hcode hcurr hinput]
  refine (bind_of_ok hfill _).trans ?_
  rw [if_neg hstored]

section reads
variable {done : Decoder pr → Prop}

theorem Inside.reads_block (hstored : ¬ pr.isModeled) {blocks : List (List UInt8)}
    (hblocks : ∀ block ∈ blocks, IsBlock block) {bytes : List UInt8}
    (hbehind : ∀ d : Decoder pr, Inside marker rest [] blocks d → Reads marker rest done bytes d)
    (block : List UInt8) {d : Decoder pr} (h : Inside marker rest block blocks d) :
    Reads marker rest done (block ++ bytes) d := by
  induction block generalizing d with
  | nil => exact hbehind d h
  | cons c block ih =>
    have hne : d.curr ≠ 0 := by
      rw [h.curr]
      exact Nat.succ_ne_zero _
    have hrun := Decoder.decompressStored_cons h.curr h.input
    rw [← Decoder.decompress_inside hstored hne] at hrun
    exact ⟨h.skips hstored hblocks, _, hrun, ih ⟨rfl, rfl⟩⟩

/-- Every stored byte is read back, and the end behind them. -/
theorem Inside.reads (hstored : ¬ pr.isModeled) (blocks : List (List UInt8))
    (hblocks : ∀ block ∈ blocks, IsBlock block)
    (hdone : ∀ d : Decoder pr, d.curr = 0 → d.input = marker :: rest → done d)
    (block : List UInt8) {d : Decoder pr} (h : Inside marker rest block blocks d) :
    Reads marker rest done (block ++ blocks.flatten) d := by
  induction blocks generalizing block d with
  | nil =>
    apply Inside.reads_block hstored hblocks _ block h
    intro d hd
    refine ⟨hd.skips hstored hblocks, d.filled (List.replicate 4 0 ++ marker :: rest), ?_,
      hdone _ rfl rfl⟩
    rw [Decoder.decompress_between hstored (by simp; omega) hd.curr hd.input]
    rfl
  | cons next blocks ih =>
    apply Inside.reads_block hstored hblocks _ block h
    intro d hd
    obtain ⟨hnext, hrest⟩ := List.forall_mem_cons.mp hblocks
    obtain ⟨c, left, rfl⟩ := List.exists_cons_of_ne_nil hnext.1
    have hinside := @Inside.filled pr marker rest (c :: left) blocks hnext d
    have hrun := Decoder.decompressStored_cons hinside.curr hinside.input
    have hstart := Decoder.decompress_between hstored (by simp; omega) hd.curr hd.input
    rw [List.nil_append] at hstart
    exact ⟨hd.skips hstored hblocks, _, hstart.trans hrun, ih hrest left ⟨rfl, rfl⟩⟩

end reads

end decoder

end TonCompress.Zpaq
