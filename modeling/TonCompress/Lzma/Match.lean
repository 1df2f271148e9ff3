import TonCompress.Lzma.Decode

/-! What the search finds are matches, also when they are used a packet later. -/
namespace TonCompress.Lzma
open TonCompress.Lib

/-- `len` bytes at `pos` repeat the bytes `dist` before them. -/
structure IsMatch (src : List UInt8) (pos len dist : Nat) : Prop where
  len_ge : 2 ≤ len
  len_le : len ≤ lzLenMax
  fits : pos + len ≤ src.length
  dist_pos : 1 ≤ dist
  dist_le : dist ≤ pos
  dist_lt : dist < lzDistMaxPlus1
  equal : ∀ k < len, src[pos + k]? = src[pos + k - dist]?

def Found (src : List UInt8) (pos : Nat) (found : Nat × Nat) : Prop :=
  found.1 = 0 ∨ IsMatch src pos found.1 found.2

section search
variable {src : List UInt8} {pos : Nat}

theorem readSrc_eq {i : Nat} (h : i < src.length) : readSrc src (i : Int) = .ok src[i].toNat := by
  rw [readSrc, vecGet_natCast Site.src src i h]
  rfl

theorem getHash_returns (src : List UInt8) (pos : Nat) :
    Returns (getHash src pos) fun _ => True := by
  unfold getHash
  by_cases hend : pos ≥ src.length ∨ pos + 1 = src.length ∨ pos + 2 = src.length
  · rw [if_pos hend]
    trivial
  · rw [if_neg hend, readSrc_eq (by omega), ok_bind, readSrc_eq (by omega), ok_bind,
      readSrc_eq (by omega)]
    trivial

theorem matchLenLoop_returns {ppos n j : Nat} (hle : ppos ≤ pos) (hfits : pos + j + n ≤ src.length)
    (hbefore : ∀ k < j, src[pos + k]? = src[ppos + k]?) :
    Returns (matchLenLoop src pos ppos n j) fun len =>
      len ≤ j + n ∧ ∀ k < len, src[pos + k]? = src[ppos + k]? := by
  induction n generalizing j with
  | zero => exact ⟨le_rfl, hbefore⟩
  | succ n ih =>
    rw [matchLenLoop, readSrc_eq (by omega), ok_bind, readSrc_eq (by omega), ok_bind]
    by_cases hdiffer : src[pos + j].toNat ≠ src[ppos + j].toNat
    · rw [if_pos hdiffer]
      exact ⟨Nat.le_add_right _ _, hbefore⟩
    · rw [if_neg hdiffer]
      have hsame : src[pos + j] = src[ppos + j] := UInt8.toNat_inj.mp (not_not.mp hdiffer)
      refine (ih (by omega) ?_).mono ?_ fun _ => id
      · intro k hk
        by_cases hlt : k < j
        · exact hbefore k hlt
        · obtain rfl : k = j := by omega
          rw [List.getElem?_eq_getElem (by omega), List.getElem?_eq_getElem (by omega), hsame]
      · rintro len ⟨hlen, hequal⟩
        exact ⟨by omega, hequal⟩

theorem lenMax_le (src : List UInt8) (pos : Nat) :
    lenMax src pos ≤ src.length - pos ∧ lenMax src pos ≤ lzLenMax := by
  unfold lenMax
  split <;> omega

theorem IsMatch.of_equal {ppos len : Nat} (hpos : pos ≤ src.length) (hlt : ppos < pos)
    (hdist : pos - ppos < lzDistMaxPlus1) (hge : 2 ≤ len) (hle : len ≤ lenMax src pos)
    (hequal : ∀ k < len, src[pos + k]? = src[ppos + k]?) : IsMatch src pos len (pos - ppos) := by
  have hmax := lenMax_le src pos
  refine ⟨hge, by omega, by omega, by omega, by omega, hdist, ?_⟩
  intro k hk
  rw [hequal k hk, show pos + k - (pos - ppos) = ppos + k by omega]

theorem lzSearchMatch_returns (hpos : pos ≤ src.length) (table : HashTable) :
    Returns (lzSearchMatch src pos table) (Found src pos) := by
  have hmax := lenMax_le src pos
  unfold lzSearchMatch
  dsimp only
  apply (getHash_returns src pos).bind
  rintro hash -
  apply Ends.seq fun vars : Nat × Nat × Nat => Found src pos vars.2
  · apply forRange_ends (fun _ (vars : Nat × Nat × Nat) => Found src pos vars.2) (Nat.zero_le _)
      (.inl rfl)
    rintro i ⟨score1, found⟩ - - hfound
    dsimp only
    by_cases hcandidate : candidatePos table hash pos i ≠ invalidHashItem ∧
        candidatePos table hash pos i < pos ∧
        pos - candidatePos table hash pos i < lzDistMaxPlus1
    · rw [if_pos hcandidate]
      obtain ⟨-, hlt, hdist⟩ := hcandidate
      apply (@matchLenLoop_returns src pos _ (lenMax src pos) 0 hlt.le (by omega) (by omega)).bind
      rintro len ⟨hlen, hequal⟩
      by_cases hbetter : len ≥ 2 ∧ score1 <
          lenDistScore len (pos - candidatePos table hash pos i) .none
      · rw [if_pos hbetter]
        exact .inr (.of_equal hpos hlt hdist hbetter.1 (by dsimp only; omega) hequal)
      · rw [if_neg hbetter]
        exact hfound
    · rw [if_neg hcandidate]
      exact hfound
  · rintro ⟨score1, found⟩ hfound
    exact hfound

/-- The reps are distances of earlier matches, or the initial 1. -/
structure RepsSound (pos : Nat) (reps : Reps) : Prop where
  pos_of : ∀ rep ∈ [reps.rep0, reps.rep1, reps.rep2, reps.rep3],
    1 ≤ rep ∧ rep < lzDistMaxPlus1 ∧ rep ≤ max pos 1

theorem repsSound_fresh : RepsSound 0 .fresh := by
  constructor
  decide

theorem lzSearchRep_returns (hpos : pos ≤ src.length) {reps : Reps}
    (hreps : ∀ rep ∈ [reps.rep0, reps.rep1, reps.rep2, reps.rep3], 1 ≤ rep ∧ rep < lzDistMaxPlus1)
    (lenLimit : Nat) :
    Returns (lzSearchRep src pos reps lenLimit) fun found =>
      Found src pos found ∧ found.1 ≤ lenLimit := by
  have hmax := lenMax_le src pos
  unfold lzSearchRep
  dsimp only
  generalize hlimited : (if lenMax src pos > lenLimit then lenLimit else lenMax src pos) = limit
  have hlimit : limit ≤ lenMax src pos ∧ limit ≤ lenLimit := by
    rw [← hlimited]
    split <;> omega
  apply Ends.mono (forEach_ends (fun done rest (found : Nat × Nat) =>
    done ++ rest = [reps.rep0, reps.rep1, reps.rep2, reps.rep3] ∧ Found src pos found ∧
      found.1 ≤ lenLimit) [] ?_ ?_) ?_ fun _ => id
  · exact ⟨rfl, .inl rfl, Nat.zero_le _⟩
  · rintro done rep rest ⟨len, dist⟩ ⟨hall, hfound, hle⟩
    have hsplit : (done ++ [rep]) ++ rest = [reps.rep0, reps.rep1, reps.rep2, reps.rep3] := by
      rw [List.append_assoc]
      exact hall
    dsimp only
    by_cases hrep : rep ≤ pos
    · rw [if_pos hrep]
      have hsound := hreps rep (by rw [← hall]; simp)
      apply (@matchLenLoop_returns src pos (pos - rep) limit 0 (by omega) (by omega)
        (by omega)).bind
      rintro j ⟨hlen, hequal⟩
      by_cases hlonger : j ≥ 2 ∧ j > len
      · rw [if_pos hlonger]
        have hmatch := @IsMatch.of_equal src pos (pos - rep) j hpos (by omega) (by omega)
          hlonger.1 (by omega) hequal
        rw [Nat.sub_sub_self hrep] at hmatch
        exact ⟨hsplit, .inr hmatch, by dsimp only; omega⟩
      · rw [if_neg hlonger]
        exact ⟨hsplit, hfound, hle⟩
    · rw [if_neg hrep]
      exact ⟨hsplit, hfound, hle⟩
  · rintro found ⟨-, hfound⟩
    exact hfound

theorem lzSearch_returns (hpos : pos ≤ src.length) {reps : Reps}
    (hreps : ∀ rep ∈ [reps.rep0, reps.rep1, reps.rep2, reps.rep3], 1 ≤ rep ∧ rep < lzDistMaxPlus1)
    (table : HashTable) : Returns (lzSearch src pos reps table) (Found src pos) := by
  unfold lzSearch
  apply (lzSearchRep_returns hpos hreps _).bind
  rintro ⟨rlen, rdist⟩ ⟨hrep, -⟩
  apply (lzSearchMatch_returns hpos table).bind
  rintro ⟨mlen, mdist⟩ hmatch
  dsimp only
  split
  · exact hrep
  · exact hmatch

end search

section choice
variable {src : List UInt8} {pos : Nat} {reps : Reps} {table : HashTable}

/-- A match put off is one at the position where it will be used. -/
def Bypass.Sound (src : List UInt8) (pos : Nat) (bypass : Bypass) : Prop :=
  Found src (pos + bypass.nBypass) (bypass.lenBypass, bypass.distBypass)

def covered (len : Nat) : Nat := if len < 2 then 1 else len

structure Chosen (src : List UInt8) (pos len dist : Nat) (bypass : Bypass) : Prop where
  found : Found src pos (len, dist)
  bypass : bypass.Sound src (pos + covered len)

theorem RepsSound.bounds (h : RepsSound pos reps) :
    ∀ rep ∈ [reps.rep0, reps.rep1, reps.rep2, reps.rep3], 1 ≤ rep ∧ rep < lzDistMaxPlus1 :=
  fun rep hrep => ⟨(h.pos_of rep hrep).1, (h.pos_of rep hrep).2.1⟩

theorem lookFurther_returns (hpos : pos + 2 ≤ src.length) (hreps : RepsSound pos reps) (len : Nat) :
    Returns (lookFurther src pos reps table len) fun out =>
      Found src (pos + 2) (out.1, out.2.1) := by
  unfold lookFurther
  split
  · apply (lzSearch_returns hpos hreps.bounds table).bind
    intro found hfound
    exact hfound
  · exact .inl rfl

theorem lookAhead_returns (hpos : pos + 8 < src.length) (hreps : RepsSound pos reps)
    {len dist : Nat} (hfound : Found src pos (len, dist)) {bypass : Bypass}
    (hbypass : bypass.lenBypass = 0) :
    Returns (lookAhead src pos reps table len dist bypass) fun out =>
      Chosen src pos out.1 out.2.1 out.2.2 := by
  unfold lookAhead
  dsimp only
  apply (@lzSearch_returns src (pos + 1) (by omega) reps hreps.bounds table).bind
  rintro ⟨len1, dist1⟩ hnext
  dsimp only
  apply (lookFurther_returns (by omega) hreps len).bind
  rintro ⟨len2, dist2, score2⟩ hsecond
  dsimp only
  split
  · apply (@lzSearchRep_returns src pos (by omega) reps hreps.bounds 2).bind
    rintro ⟨len, dist⟩ ⟨hrep, hshort⟩
    refine ⟨hrep, ?_⟩
    unfold Bypass.Sound covered
    dsimp only at hshort ⊢
    by_cases htwo : len < 2
    · rw [if_pos htwo, if_pos htwo]
      exact hsecond
    · rw [if_neg htwo, if_neg htwo, show len = 2 by omega]
      exact hsecond
  · split
    · exact ⟨.inl rfl, hnext⟩
    · exact ⟨hfound, .inl hbypass⟩

theorem chooseMatch_returns (hpos : pos < src.length) (hreps : RepsSound pos reps)
    {bypass : Bypass} (hbypass : bypass.Sound src pos) :
    Returns (chooseMatch src pos reps table bypass) fun out =>
      Chosen src pos out.1 out.2.1 out.2.2 := by
  unfold chooseMatch
  by_cases hlater : bypass.nBypass > 0
  · rw [if_pos hlater]
    refine ⟨.inl rfl, ?_⟩
    unfold Bypass.Sound covered at *
    dsimp only
    rw [if_pos (by omega), show pos + 1 + (bypass.nBypass - 1) = pos + bypass.nBypass by omega]
    exact hbypass
  · rw [if_neg hlater]
    by_cases hnow : bypass.lenBypass > 0
    · rw [if_pos hnow]
      unfold Bypass.Sound at hbypass
      rw [show bypass.nBypass = 0 by omega] at hbypass
      exact ⟨hbypass, .inl rfl⟩
    · rw [if_neg hnow]
      apply (lzSearch_returns hpos.le hreps.bounds table).bind
      rintro ⟨len, dist⟩ hfound
      dsimp only
      split
      · rename_i hahead
        exact lookAhead_returns (by omega) hreps hfound (by omega)
      · exact ⟨hfound, .inl (Nat.eq_zero_of_not_pos hnow)⟩

end choice

section types
variable {src : List UInt8} {pos : Nat} {reps : Reps}

def packetDist (reps : Reps) (dist : Nat) : PacketType → Nat
  | .pktLit => 0
  | .pktShortRep => reps.rep0
  | _ => dist

/-- A packet with the reps behind it: a rep packet is coded without its
distance, and a packet that copies repeats earlier bytes of the source. -/
structure Typed (src : List UInt8) (pos : Nat) (reps : Reps) (len dist : Nat)
    (type : PacketType) (reps' : Reps) : Prop where
  packetLen_eq : packetLen type len = covered len
  rep : type ≠ .pktMatch → reps.dist type = packetDist reps dist type
  reps_eq : reps' = if type = .pktLit then reps
    else { reps.rotate type with rep0 := packetDist reps dist type }
  long : type ≠ .pktLit → type ≠ .pktShortRep → IsMatch src pos len dist
  short : type = .pktShortRep → reps.rep0 ≤ pos ∧ src[pos]? = src[pos - reps.rep0]?

theorem isShortRep_returns (hpos : pos < src.length) {rep0 : Nat} (hrep : 1 ≤ rep0) :
    Returns (isShortRep src pos rep0) fun short =>
      short = true → rep0 ≤ pos ∧ src[pos]? = src[pos - rep0]? := by
  unfold isShortRep
  by_cases hge : pos ≥ rep0
  · have hback : (pos : Int) - rep0 = ((pos - rep0 : Nat) : Int) := by omega
    rw [if_pos hge, readSrc_eq hpos, ok_bind, hback, readSrc_eq (by omega)]
    intro hsame
    have hbytes := UInt8.toNat_inj.mp (of_decide_eq_true hsame)
    refine ⟨hge, ?_⟩
    rw [List.getElem?_eq_getElem hpos, List.getElem?_eq_getElem (by omega), hbytes]
  · rw [if_neg hge]
    intro hfalse
    cases hfalse

theorem chooseType_returns (hpos : pos < src.length) (hreps : RepsSound pos reps) {len dist : Nat}
    (hfound : Found src pos (len, dist)) :
    Returns (chooseType src pos reps len dist) fun out =>
      Typed src pos reps len dist out.1 out.2 := by
  unfold chooseType
  by_cases hone : len < 2
  · rw [if_pos hone]
    apply (isShortRep_returns hpos (hreps.bounds reps.rep0 (by simp)).1).bind
    intro short hshort
    cases short with
    | false =>
      refine ⟨(if_pos hone).symm, fun _ => rfl, rfl, fun hlit => absurd rfl hlit, ?_⟩
      intro hfalse
      cases hfalse
    | true =>
      refine ⟨(if_pos hone).symm, fun _ => rfl, rfl, fun _ hne => absurd rfl hne, ?_⟩
      intro _
      exact hshort rfl
  · rw [if_neg hone]
    have hmatch : IsMatch src pos len dist := by
      apply hfound.resolve_left
      dsimp only
      omega
    have hcovered : len = covered len := (if_neg hone).symm
    -- each rep packet takes the distance of its own rep
    have hrep : ∀ type reps', type ≠ .pktLit → type ≠ .pktShortRep →
        (type ≠ .pktMatch → reps.dist type = dist) →
        reps' = { reps.rotate type with rep0 := dist } →
        Typed src pos reps len dist type reps' := by
      intro type reps' hlit hshort hdist hreps'
      have hpacket : packetDist reps dist type = dist := by
        cases type with
        | pktLit => exact absurd rfl hlit
        | pktShortRep => exact absurd rfl hshort
        | _ => rfl
      refine ⟨?_, ?_, ?_, fun _ _ => hmatch, fun heq => absurd heq hshort⟩
      · unfold packetLen
        rw [if_neg (not_or.mpr ⟨hlit, hshort⟩)]
        exact hcovered
      · intro hne
        rw [hpacket]
        exact hdist hne
      · rw [if_neg hlit, hpacket]
        exact hreps'
    by_cases h0 : dist = reps.rep0
    · rw [if_pos h0]
      apply hrep .pktRep0 reps nofun nofun (fun _ => h0.symm)
      rw [h0]
      rfl
    · rw [if_neg h0]
      by_cases h1 : dist = reps.rep1
      · rw [if_pos h1]
        exact hrep .pktRep1 _ nofun nofun (fun _ => h1.symm) rfl
      · rw [if_neg h1]
        by_cases h2 : dist = reps.rep2
        · rw [if_pos h2]
          exact hrep .pktRep2 _ nofun nofun (fun _ => h2.symm) rfl
        · rw [if_neg h2]
          by_cases h3 : dist = reps.rep3
          · rw [if_pos h3]
            exact hrep .pktRep3 _ nofun nofun (fun _ => h3.symm) rfl
          · rw [if_neg h3]
            exact hrep .pktMatch _ nofun nofun (fun hne => absurd rfl hne) rfl

theorem Typed.copies {len dist : Nat} {type : PacketType} {reps' : Reps}
    (h : Typed src pos reps len dist type reps') (hpos : pos < src.length)
    (hreps : RepsSound pos reps) (hlit : type ≠ .pktLit) :
    1 ≤ packetDist reps dist type ∧ packetDist reps dist type ≤ pos ∧
      packetDist reps dist type < lzDistMaxPlus1 ∧ pos + packetLen type len ≤ src.length ∧
      ∀ k < packetLen type len,
        src[pos + k]? = src[pos + k - packetDist reps dist type]? := by
  by_cases hshort : type = .pktShortRep
  · obtain ⟨hle, hequal⟩ := h.short hshort
    subst hshort
    have hbounds := hreps.bounds reps.rep0 (by simp)
    refine ⟨hbounds.1, hle, hbounds.2, hpos, ?_⟩
    intro k hk
    have hzero : k = 0 := Nat.lt_one_iff.mp hk
    subst hzero
    exact hequal
  · have hmatch := h.long hlit hshort
    have hdist : packetDist reps dist type = dist := by
      cases type with
      | pktLit => exact absurd rfl hlit
      | pktShortRep => exact absurd rfl hshort
      | _ => rfl
    have hlen : packetLen type len = len := if_neg (not_or.mpr ⟨hlit, hshort⟩)
    rw [hdist, hlen]
    exact ⟨hmatch.dist_pos, hmatch.dist_le, hmatch.dist_lt, hmatch.fits, hmatch.equal⟩

theorem covered_pos (len : Nat) : 1 ≤ covered len := by
  unfold covered
  split <;> omega

theorem Typed.reps_sound {len dist : Nat} {type : PacketType} {reps' : Reps}
    (h : Typed src pos reps len dist type reps') (hpos : pos < src.length)
    (hreps : RepsSound pos reps) : RepsSound (pos + packetLen type len) reps' := by
  have hone : 1 ≤ packetLen type len := h.packetLen_eq ▸ covered_pos len
  have hgrow : ∀ rep, 1 ≤ rep ∧ rep < lzDistMaxPlus1 ∧ rep ≤ max pos 1 →
      1 ≤ rep ∧ rep < lzDistMaxPlus1 ∧ rep ≤ max (pos + packetLen type len) 1 := by
    intro rep hrep
    omega
  constructor
  intro rep hrep
  apply hgrow
  by_cases hlit : type = .pktLit
  · rw [h.reps_eq, if_pos hlit] at hrep
    exact hreps.pos_of rep hrep
  · obtain ⟨hpositive, hle, hlt, -⟩ := h.copies hpos hreps hlit
    rw [h.reps_eq, if_neg hlit] at hrep
    -- a rotation keeps three of the reps at most
    have hold : rep = packetDist reps dist type ∨
        rep ∈ [reps.rep0, reps.rep1, reps.rep2, reps.rep3] := by
      cases type <;> simp [Reps.rotate] at hrep ⊢ <;> tauto
    obtain rfl | hold := hold
    · omega
    · exact hreps.pos_of rep hold

end types

end TonCompress.Lzma
