import TonCompress.Lzma.Cost
import TonCompress.Lzma.Room

/-! How much longer than its source an encoding can be. The search takes a match only where it
is near for its length, so that no packet costs more than nine bits for each byte it covers. -/
namespace TonCompress.Lzma
open TonCompress.Lib

def reach (len : Nat) : Nat :=
  if len = 3 then 12 * 12 * 2
  else if len = 4 then 12 * 12 * 12 * 3
  else if len = 5 then 12 * 12 * 12 * 12 * 4
  else lzDistMaxPlus1

/-- A match that its own score speaks for. -/
def Near (len dist : Nat) : Prop := 3 ≤ len ∧ dist ≤ reach len

def Reps.list (reps : Reps) : List Nat := [reps.rep0, reps.rep1, reps.rep2, reps.rep3]

def Worth (reps : Reps) (len dist : Nat) : Prop := len < 2 ∨ dist ∈ reps.list ∨ Near len dist

section search
variable {src : List UInt8} {pos : Nat} {reps : Reps} {table : HashTable}

theorem near_of_score {len dist : Nat} (hpos : 1 ≤ dist) (hlt : dist < lzDistMaxPlus1)
    (hscore : 13 < lenDistScore len dist .none) : Near len dist := by
  have hnone : ¬ (dist = Reps.none.rep0 ∨ dist = Reps.none.rep1 ∨ dist = Reps.none.rep2 ∨
      dist = Reps.none.rep3) := by
    simp only [Reps.none]
    omega
  unfold lenDistScore distScore at hscore
  rw [if_neg hnone] at hscore
  unfold Near reach
  dsimp only at hscore
  constructor
  · repeat' split at hscore
    all_goals omega
  · repeat' split at hscore
    all_goals
      repeat' split
      all_goals omega

theorem lzSearchMatch_near (src : List UInt8) (pos : Nat) (table : HashTable) :
    Ends (lzSearchMatch src pos table) (fun found => found.1 < 2 ∨ Near found.1 found.2)
      fun _ => True := by
  unfold lzSearchMatch
  dsimp only
  apply (ends_true _).bind
  rintro hash -
  apply Ends.seq fun vars : Nat × Nat × Nat =>
    13 ≤ vars.1 ∧ (vars.2.1 < 2 ∨ Near vars.2.1 vars.2.2)
  · apply forRange_ends (fun _ (vars : Nat × Nat × Nat) =>
      13 ≤ vars.1 ∧ (vars.2.1 < 2 ∨ Near vars.2.1 vars.2.2)) (Nat.zero_le _)
    · exact ⟨by decide, .inl Nat.two_pos⟩
    · rintro i ⟨score1, len, dist⟩ - - ⟨hscore, hnear⟩
      dsimp only
      by_cases hcandidate : candidatePos table hash pos i ≠ invalidHashItem ∧
          candidatePos table hash pos i < pos ∧
          pos - candidatePos table hash pos i < lzDistMaxPlus1
      · rw [if_pos hcandidate]
        obtain ⟨-, hlt, hdist⟩ := hcandidate
        apply (ends_true _).bind
        rintro j -
        by_cases hbetter : j ≥ 2 ∧ score1 <
            lenDistScore j (pos - candidatePos table hash pos i) .none
        · rw [if_pos hbetter]
          have hfound := near_of_score (by omega) hdist (hscore.trans_lt hbetter.2)
          exact ⟨hscore.trans hbetter.2.le, .inr hfound⟩
        · rw [if_neg hbetter]
          exact ⟨hscore, hnear⟩
      · rw [if_neg hcandidate]
        exact ⟨hscore, hnear⟩
  · rintro ⟨score1, len, dist⟩ ⟨-, hnear⟩
    exact hnear

theorem lzSearchRep_mem (src : List UInt8) (pos : Nat) (reps : Reps) (lenLimit : Nat) :
    Ends (lzSearchRep src pos reps lenLimit) (fun found => found.1 < 2 ∨ found.2 ∈ reps.list)
      fun _ => True := by
  unfold lzSearchRep
  dsimp only
  apply Ends.mono (forEach_ends (fun done rest (found : Nat × Nat) =>
    done ++ rest = reps.list ∧ (found.1 < 2 ∨ found.2 ∈ reps.list)) [] ?_ ?_) ?_ fun _ => id
  · exact ⟨rfl, .inl Nat.two_pos⟩
  · rintro done rep rest ⟨len, dist⟩ ⟨hall, hfound⟩
    have hsplit : (done ++ [rep]) ++ rest = reps.list := by
      rw [List.append_assoc]
      exact hall
    have hmem : rep ∈ reps.list := by
      rw [← hall]
      simp
    dsimp only
    by_cases hrep : rep ≤ pos
    · rw [if_pos hrep]
      apply (ends_true _).bind
      rintro j -
      by_cases hlonger : j ≥ 2 ∧ j > len
      · rw [if_pos hlonger]
        exact ⟨hsplit, .inr hmem⟩
      · rw [if_neg hlonger]
        exact ⟨hsplit, hfound⟩
    · rw [if_neg hrep]
      exact ⟨hsplit, hfound⟩
  · rintro found ⟨-, hfound⟩
    exact hfound

theorem lzSearch_worth (src : List UInt8) (pos : Nat) (reps : Reps) (table : HashTable) :
    Ends (lzSearch src pos reps table) (fun found => Worth reps found.1 found.2)
      fun _ => True := by
  unfold lzSearch
  apply (lzSearchRep_mem src pos reps _).bind
  rintro ⟨rlen, rdist⟩ hrep
  apply (lzSearchMatch_near src pos table).bind
  rintro ⟨mlen, mdist⟩ hmatch
  dsimp only at hrep hmatch ⊢
  split
  · exact hrep.imp_right .inl
  · exact hmatch.imp_right .inr

end search

section choice
variable {src : List UInt8} {pos : Nat} {reps : Reps} {table : HashTable} {bypass : Bypass}

def Bypass.Worth (reps : Reps) (bypass : Bypass) : Prop :=
  Lzma.Worth reps bypass.lenBypass bypass.distBypass

/-- What is chosen is worth its packet. Where a match is put off, the packet in front of it
leaves the set of the reps as it is. -/
structure WellChosen (reps : Reps) (len dist : Nat) (bypass : Bypass) : Prop where
  worth : Worth reps len dist
  later : bypass.Worth reps
  apart : bypass.lenBypass = 0 ∨ len < 2 ∨ dist ∈ reps.list

theorem worth_zero (reps : Reps) (dist : Nat) : Worth reps 0 dist := .inl Nat.two_pos

theorem lookFurther_worth (len : Nat) : Ends (lookFurther src pos reps table len)
    (fun out => Worth reps out.1 out.2.1) fun _ => True := by
  unfold lookFurther
  split
  · apply (lzSearch_worth src (pos + 2) reps table).bind
    intro found hfound
    exact hfound
  · exact worth_zero reps 0

theorem lookAhead_wellChosen {len dist : Nat} (hworth : Worth reps len dist)
    (hbypass : bypass.lenBypass = 0) : Ends (lookAhead src pos reps table len dist bypass)
      (fun out => WellChosen reps out.1 out.2.1 out.2.2) fun _ => True := by
  unfold lookAhead
  dsimp only
  apply (lzSearch_worth src (pos + 1) reps table).bind
  rintro ⟨len1, dist1⟩ hnext
  apply (lookFurther_worth len).bind
  rintro ⟨len2, dist2, score2⟩ hsecond
  dsimp only at hnext hsecond ⊢
  split
  · apply (lzSearchRep_mem src pos reps 2).bind
    rintro ⟨len, dist⟩ hrep
    exact ⟨hrep.imp_right .inl, hsecond, .inr hrep⟩
  · split
    · exact ⟨worth_zero reps 0, hnext, .inr (.inl Nat.two_pos)⟩
    · refine ⟨hworth, ?_, .inl hbypass⟩
      unfold Bypass.Worth
      rw [hbypass]
      exact worth_zero reps _

theorem chooseMatch_wellChosen (hbypass : bypass.Worth reps) :
    Ends (chooseMatch src pos reps table bypass)
      (fun out => WellChosen reps out.1 out.2.1 out.2.2) fun _ => True := by
  unfold chooseMatch
  by_cases hlater : bypass.nBypass > 0
  · rw [if_pos hlater]
    exact ⟨worth_zero reps 0, hbypass, .inr (.inl Nat.two_pos)⟩
  · rw [if_neg hlater]
    by_cases hnow : bypass.lenBypass > 0
    · rw [if_pos hnow]
      exact ⟨hbypass, worth_zero reps 0, .inl rfl⟩
    · rw [if_neg hnow]
      have hzero : bypass.lenBypass = 0 := Nat.eq_zero_of_not_pos hnow
      apply (lzSearch_worth src pos reps table).bind
      rintro ⟨len, dist⟩ hfound
      dsimp only
      split
      · exact lookAhead_wellChosen hfound hzero
      · refine ⟨hfound, ?_, .inl hzero⟩
        unfold Bypass.Worth
        rw [hzero]
        exact worth_zero reps _

/-- A packet that copies is long enough; only a match changes the set of the reps, and it is
near. -/
structure WellTyped (reps : Reps) (len dist : Nat) (type : PacketType) (reps' : Reps) : Prop where
  long : type ≠ .pktLit → type ≠ .pktShortRep → 2 ≤ len
  near : type = .pktMatch → Near len dist
  same : type ≠ .pktMatch → ∀ rep, rep ∈ reps'.list ↔ rep ∈ reps.list
  matched : type = .pktMatch → 2 ≤ len ∧ dist ∉ reps.list

theorem chooseType_wellTyped {len dist : Nat} (hworth : Worth reps len dist) :
    Ends (chooseType src pos reps len dist)
      (fun out => WellTyped reps len dist out.1 out.2) fun _ => True := by
  unfold chooseType
  by_cases hone : len < 2
  · rw [if_pos hone]
    apply (ends_true _).bind
    rintro short -
    cases short with
    | false => exact ⟨fun h => absurd rfl h, nofun, fun _ _ => Iff.rfl, nofun⟩
    | true => exact ⟨fun _ h => absurd rfl h, nofun, fun _ _ => Iff.rfl, nofun⟩
  · rw [if_neg hone]
    have hlong : 2 ≤ len := Nat.not_lt.mp hone
    by_cases h0 : dist = reps.rep0
    · rw [if_pos h0]
      exact ⟨fun _ _ => hlong, nofun, fun _ _ => Iff.rfl, nofun⟩
    · rw [if_neg h0]
      by_cases h1 : dist = reps.rep1
      · rw [if_pos h1]
        subst h1
        refine ⟨fun _ _ => hlong, nofun, fun _ rep => ?_, nofun⟩
        simp only [Reps.list, List.mem_cons, List.not_mem_nil, or_false]
        exact or_left_comm
      · rw [if_neg h1]
        by_cases h2 : dist = reps.rep2
        · rw [if_pos h2]
          subst h2
          refine ⟨fun _ _ => hlong, nofun, fun _ rep => ?_, nofun⟩
          simp only [Reps.list, List.mem_cons, List.not_mem_nil, or_false]
          tauto
        · rw [if_neg h2]
          by_cases h3 : dist = reps.rep3
          · rw [if_pos h3]
            subst h3
            refine ⟨fun _ _ => hlong, nofun, fun _ rep => ?_, nofun⟩
            simp only [Reps.list, List.mem_cons, List.not_mem_nil, or_false]
            tauto
          · rw [if_neg h3]
            have hnew : dist ∉ reps.list := by
              simp only [Reps.list, List.mem_cons, List.not_mem_nil, or_false]
              tauto
            have hnear : Near len dist :=
              (hworth.resolve_left hone).resolve_left hnew
            exact ⟨fun _ _ => hlong, fun _ => hnear, fun h => absurd rfl h, fun _ => ⟨hlong, hnew⟩⟩

theorem Worth.congr {reps' : Reps} {len dist : Nat} (h : Worth reps len dist)
    (hsame : ∀ rep, rep ∈ reps'.list ↔ rep ∈ reps.list) : Worth reps' len dist :=
  h.imp_right (Or.imp_left (hsame dist).mpr)

theorem WellChosen.next {len dist : Nat} {type : PacketType} {reps' : Reps}
    (h : WellChosen reps len dist bypass) (htyped : WellTyped reps len dist type reps') :
    bypass.Worth reps' := by
  by_cases hmatch : type = .pktMatch
  · obtain ⟨hlong, hnew⟩ := htyped.matched hmatch
    unfold Bypass.Worth
    rw [h.apart.resolve_right fun h => h.elim (Nat.not_lt.mpr hlong) hnew]
    exact worth_zero reps' _
  · exact Worth.congr h.later (htyped.same hmatch)

end choice

section packets
variable {dstLen : Nat} {reps reps' : Reps}

theorem costs_match {len dist m bits : Nat} (ctx : PacketContext) (currByte : Nat)
    (hpos : 1 ≤ dist) (hdist : dist ≤ 2 ^ (m + 2)) (hm : m ≤ 28)
    (hbits : 2 + ((if len < 10 then 4 else 10) + (6 + m)) ≤ bits) :
    Costs dstLen bits (encodePacket ctx .pktMatch len dist currByte) :=
  ((costs_type .pktMatch _ _).bind ((costs_len 0 _ len).bind (costs_dist hpos hdist hm))).mono hbits

theorem costs_packet (ctx : PacketContext) {type : PacketType} {len dist : Nat} (currByte : Nat)
    (htyped : WellTyped reps len dist type reps') (hpos : type = .pktMatch → 1 ≤ dist) :
    Costs dstLen (9 * packetLen type len) (encodePacket ctx type len dist currByte) := by
  have hrep : ∀ {type : PacketType}, type ≠ .pktLit → type ≠ .pktShortRep → type ≠ .pktMatch →
      2 ≤ len → Costs dstLen (9 * packetLen type len)
        (encodeType type ctx.state ctx.posState >>= fun _ => encodeLen 1 ctx.posState len) := by
    intro type hlit hshort hmatch hlong
    apply ((costs_type type _ _).bind (costs_len 1 _ len)).mono
    rw [if_neg hlit, if_neg hmatch, packetLen, if_neg (not_or.mpr ⟨hlit, hshort⟩)]
    split <;> omega
  cases type with
  | pktLit => exact (costs_type .pktLit _ _).bind (costs_literal _ _ _ _ _)
  | pktShortRep =>
    exact ((costs_type .pktShortRep _ _).bind .pure).mono (show 5 + 0 ≤ 9 * 1 by decide)
  | pktMatch =>
    obtain ⟨hlong, hnear⟩ := htyped.near rfl
    have hlen : packetLen .pktMatch len = len := rfl
    have hmax : lzDistMaxPlus1 = 2 ^ 30 := rfl
    rw [hlen]
    unfold reach at hnear
    by_cases h3 : len = 3
    · rw [if_pos h3] at hnear
      exact costs_match (m := 7) ctx currByte (hpos rfl) (by omega) (by omega) (by split <;> omega)
    · rw [if_neg h3] at hnear
      by_cases h4 : len = 4
      · rw [if_pos h4] at hnear
        exact costs_match (m := 11) ctx currByte (hpos rfl) (by omega) (by omega)
          (by split <;> omega)
      · rw [if_neg h4] at hnear
        by_cases h5 : len = 5
        · rw [if_pos h5] at hnear
          exact costs_match (m := 15) ctx currByte (hpos rfl) (by omega) (by omega)
            (by split <;> omega)
        · rw [if_neg h5] at hnear
          exact costs_match (m := 28) ctx currByte (hpos rfl) (by omega) (by omega)
            (by split <;> omega)
  | pktRep0 => exact hrep nofun nofun nofun (htyped.long nofun nofun)
  | pktRep1 => exact hrep nofun nofun nofun (htyped.long nofun nofun)
  | pktRep2 => exact hrep nofun nofun nofun (htyped.long nofun nofun)
  | pktRep3 => exact hrep nofun nofun nofun (htyped.long nofun nofun)

end packets

section loop
variable {src : List UInt8} {dstLen : Nat} {v v' : EncodeVars}

/-- Nine bits were coded at most for each byte behind the encoder. -/
structure EncodeVars.Priced (v : EncodeVars) : Prop where
  within : v.enc.Within (9 * v.pos)
  bypass : v.bypass.Worth v.reps

theorem EncodeVars.fresh_priced (dstLen : Nat) : (EncodeVars.fresh dstLen false).Priced :=
  ⟨Encoder.fresh_within dstLen, worth_zero _ _⟩

theorem lzmaEncodeRound_priced (hv : v.Sound src dstLen) (hpriced : v.Priced)
    (hpos : v.pos < src.length) (hsrc : src.length < 2 ^ 60) :
    ∃ v', lzmaEncodeRound src v = .ok (some v') ∧ v'.Sound src dstLen ∧ v'.Priced ∧
      v.pos < v'.pos := by
  have hcache : rangeCodeCacheSizeMax = 2 ^ 64 - 1 := rfl
  obtain ⟨v', hround, hv', hlt, -⟩ := @lzmaEncodeRound_next src src dstLen v hv hpos le_rfl (by omega)
  have hpos' := hv'.pos_le
  obtain ⟨type, len, dist, reps, bypass, table, hchooses⟩ := exists_chooses hpos hv.reps hv.bypass
  have hchosen := (chooseMatch_wellChosen hpriced.bypass).of_ok hchooses.match_eq
  have htyped := (chooseType_wellTyped hchosen.worth).of_ok hchooses.type_eq
  have hnext := (hchooses.round_eq hpos hv.reps).symm.trans hround
  obtain ⟨⟨_, enc⟩, hencode, hsome⟩ := bind_eq_ok.mp hnext
  obtain rfl := Option.some.inj (Except.ok.inj hsome)
  have hdist : type = .pktMatch → 1 ≤ dist := fun hmatch =>
    (hchooses.typed.long (by rw [hmatch]; nofun) (by rw [hmatch]; nofun)).dist_pos
  have hpos'' : v.pos + packetLen type len ≤ src.length := hpos'
  obtain ⟨-, hwithin⟩ := @costs_packet dstLen v.reps reps (v.context src) type len dist
    src[v.pos].toNat htyped hdist v.enc enc (9 * v.pos) hv.channel hpriced.within (by omega) hencode
  refine ⟨_, hround, hv', ⟨?_, hchosen.next htyped⟩, hlt⟩
  change enc.Within (9 * (v.pos + packetLen type len))
  rw [Nat.mul_add]
  exact hwithin

theorem lzmaEncodeLoop_priced (hsrc : src.length < 2 ^ 60) {fuel : Nat} (hv : v.Sound src dstLen)
    (hpriced : v.Priced) (hfuel : src.length < v.pos + fuel) :
    ∃ v', lzmaEncodeLoop src fuel v = .ok v' ∧ v'.Sound src dstLen ∧ v'.Priced := by
  induction fuel generalizing v with
  | zero => exact absurd hv.pos_le (by omega)
  | succ fuel ih =>
    rw [lzmaEncodeLoop]
    by_cases hoverflow : v.enc.coder.overflow = true
    · rw [if_pos hoverflow]
      exact ⟨v, rfl, hv, hpriced⟩
    · rw [if_neg hoverflow]
      by_cases hend : src.length ≤ v.pos
      · rw [lzmaEncodeRound_none hv hend]
        exact ⟨v, rfl, hv, hpriced⟩
      · obtain ⟨v₁, hround, hv₁, hpriced₁, hlt⟩ :=
          lzmaEncodeRound_priced hv hpriced (Nat.not_le.mp hend) hsrc
        obtain ⟨v', hloop, hend'⟩ := ih hv₁ hpriced₁ (by omega)
        rw [hround]
        exact ⟨v', hloop, hend'⟩

theorem count_le_of_spent {count range n : Nat} (hrange : range < 2 ^ 32)
    (h : 256 ^ count * 512 ^ (9 * n) * 0xFFFFFFFF ≤ 256 * range * 1043 ^ (9 * n)) :
    32 * count ≤ 37 * n + 36 := by
  have hfactor : (1043 ^ 9) ^ 4 ≤ 2 ^ 37 * (512 ^ 9) ^ 4 := by decide
  have hpow : (1043 ^ (9 * n)) ^ 4 ≤ 2 ^ (37 * n) * (512 ^ (9 * n)) ^ 4 := by
    calc (1043 ^ (9 * n)) ^ 4 = ((1043 ^ 9) ^ 4) ^ n := by
          rw [pow_mul, ← pow_mul, Nat.mul_comm n 4, pow_mul]
      _ ≤ (2 ^ 37 * (512 ^ 9) ^ 4) ^ n := Nat.pow_le_pow_left hfactor n
      _ = 2 ^ (37 * n) * (512 ^ (9 * n)) ^ 4 := by
          rw [mul_pow, ← pow_mul, ← pow_mul _ 4 n, Nat.mul_comm 4 n, pow_mul _ n 4, ← pow_mul _ 9 n]
  have hlow : 2 ^ 31 * 256 ^ count * 512 ^ (9 * n) ≤ 2 ^ 40 * 1043 ^ (9 * n) := by
    calc 2 ^ 31 * 256 ^ count * 512 ^ (9 * n)
        ≤ 256 ^ count * 512 ^ (9 * n) * 0xFFFFFFFF := by
          rw [Nat.mul_assoc, Nat.mul_comm]
          exact Nat.mul_le_mul_left _ (by decide)
      _ ≤ 256 * range * 1043 ^ (9 * n) := h
      _ ≤ 2 ^ 40 * 1043 ^ (9 * n) := Nat.mul_le_mul_right _ (by omega)
  have hpos : 0 < (512 ^ (9 * n)) ^ 4 := by positivity
  have hbytes : (2 ^ 31 * 256 ^ count) ^ 4 ≤ 2 ^ (160 + 37 * n) := by
    apply Nat.le_of_mul_le_mul_right _ hpos
    calc (2 ^ 31 * 256 ^ count) ^ 4 * (512 ^ (9 * n)) ^ 4
        = (2 ^ 31 * 256 ^ count * 512 ^ (9 * n)) ^ 4 := (mul_pow _ _ 4).symm
      _ ≤ (2 ^ 40 * 1043 ^ (9 * n)) ^ 4 := Nat.pow_le_pow_left hlow 4
      _ = 2 ^ 160 * (1043 ^ (9 * n)) ^ 4 := by rw [mul_pow, ← pow_mul]
      _ ≤ 2 ^ 160 * (2 ^ (37 * n) * (512 ^ (9 * n)) ^ 4) := Nat.mul_le_mul_left _ hpow
      _ = 2 ^ (160 + 37 * n) * (512 ^ (9 * n)) ^ 4 := by rw [pow_add, Nat.mul_assoc]
  have hexp : (2 ^ 31 * 256 ^ count) ^ 4 = 2 ^ (124 + 32 * count) := by
    have hbase : 256 ^ count = 2 ^ (8 * count) := (pow_mul 2 8 count).symm
    rw [hbase, ← pow_add, ← pow_mul]
    congr 1
    omega
  rw [hexp] at hbytes
  have hle := (Nat.pow_le_pow_iff_right (by decide : 1 < 2)).mp hbytes
  omega

/-- An encoding is at most 5 bytes in 32 longer than its source, and six more. -/
theorem IsEncoding.length_le {bytes : List UInt8} (h : IsEncoding src bytes)
    (hsrc : src.length < 2 ^ 60) : 32 * bytes.length ≤ 37 * src.length + 196 := by
  have hcache : rangeCodeCacheSizeMax = 2 ^ 64 - 1 := rfl
  have hencode := h bytes.length
  rw [if_neg (Nat.lt_irrefl _), List.take_length] at hencode
  obtain ⟨v, hloop, hv, hpriced⟩ := @lzmaEncodeLoop_priced src bytes.length _ hsrc
    (src.length + 3) (EncodeVars.fresh_sound src _) (EncodeVars.fresh_priced _) (by omega)
  have hpos := hv.pos_le
  obtain ⟨hoverflow, hdst⟩ := lzmaEncode_ok hloop hencode
  have hended := rangeEncodeTerminate_spec hv.channel.1
  have hcount := hpriced.within.count_le
  have hgrown := hended.length_le
  obtain ⟨hstart, hlength, -⟩ := hended.settled hoverflow (by omega)
  rw [hdst] at hlength
  have hspent := (hpriced.within.covers hstart).le probWeight_le (by decide)
  have hbytes := count_le_of_spent hv.channel.1.range_lt hspent
  omega

end loop

end TonCompress.Lzma
