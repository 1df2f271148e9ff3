import TonCompress.Lzma.PairCost
import TonCompress.Lzma.Expansion

/-! A source in which nothing comes again soon or by its hash. The search finds nothing in it,
so all its packets are literals, and the pairs among their bits bound its encoding from below. -/
namespace TonCompress.Lzma
open TonCompress.Lib

/-- No byte comes again one or two places later, and no hash comes twice. -/
structure Unrepeated (src : List UInt8) : Prop where
  next : ∀ pos, pos + 1 < src.length → src[pos + 1]? ≠ src[pos]?
  second : ∀ pos, pos + 2 < src.length → src[pos + 2]? ≠ src[pos]?
  hash : ∀ pos pos' hash, pos + 2 < src.length → pos' + 2 < src.length →
    getHash src pos = .ok hash → getHash src pos' = .ok hash → pos = pos'

/-- Each position in the table is in the bucket of its hash. -/
def Bucketed (src : List UInt8) (pos : Nat) (table : HashTable) : Prop :=
  ∀ hash i, table.item hash i = invalidHashItem ∨
    table.item hash i < pos ∧ getHash src (table.item hash i) = .ok hash

section search
variable {src : List UInt8} {pos : Nat} {table : HashTable}

theorem initHashTable_bucketed (src : List UInt8) : Bucketed src 0 initHashTable :=
  fun _ _ => .inl rfl

theorem Bucketed.set {hash : Nat} (h : Bucketed src pos table) (hhash : getHash src pos = .ok hash)
    (i : Nat) : Bucketed src (pos + 1) (table.set hash i pos) := by
  intro hash' i'
  unfold HashTable.set
  dsimp only
  split
  · rename_i hsame
    rw [hsame.1]
    exact .inr ⟨Nat.lt_succ_self pos, hhash⟩
  · exact (h hash' i').imp_right fun hitem => ⟨Nat.lt_succ_of_lt hitem.1, hitem.2⟩

theorem updateHashTableLoop_set (table : HashTable) (hash pos n i oldestI oldestPos : Nat) :
    ∃ j, updateHashTableLoop table hash pos n i oldestI oldestPos = table.set hash j pos := by
  induction n generalizing i oldestI oldestPos with
  | zero => exact ⟨oldestI, rfl⟩
  | succ n ih =>
    rw [updateHashTableLoop]
    split
    · exact ⟨i, rfl⟩
    · split
      · exact ih _ _ _
      · exact ih _ _ _

theorem updateHashTable_bucketed (h : Bucketed src pos table) (hpos : pos < src.length) :
    Ends (updateHashTable src pos table) (Bucketed src (pos + 1)) fun _ => True := by
  unfold updateHashTable
  apply (ends_eq (getHash src pos)).bind
  intro hash hhash
  rw [if_neg (Nat.not_le.mpr hpos)]
  obtain ⟨j, hset⟩ := updateHashTableLoop_set table hash pos hashLevel 0 0 invalidHashItem
  exact hset ▸ h.set hhash j

theorem getHash_end (hpos : pos + 2 ≥ src.length) : getHash src pos = .ok 0 := by
  unfold getHash
  exact if_pos (by omega)

theorem getHash_zero (hpos : pos + 2 < src.length) (h : getHash src pos = .ok 0) :
    src[pos + 1]? = src[pos]? := by
  unfold getHash at h
  rw [if_neg (by omega), readSrc_eq hpos, ok_bind, readSrc_eq (by omega), ok_bind,
    readSrc_eq (by omega), ok_bind] at h
  have hhash := Except.ok.inj h
  have hmask : hashMask = 2 ^ 23 - 1 := rfl
  have hlow := src[pos].toNat_lt
  have hmid := src[pos + 1].toNat_lt
  rw [hmask, Nat.and_two_pow_sub_one_eq_mod, Nat.shiftLeft_eq, Nat.shiftLeft_eq] at hhash
  rw [List.getElem?_eq_getElem (by omega), List.getElem?_eq_getElem (by omega)]
  exact congrArg some (UInt8.toNat_inj.mp (by omega))

/-- What a candidate of the search would have to share with its position. -/
theorem Unrepeated.candidate_last (h : Unrepeated src) (hsrc : src.length < 2 ^ 64)
    (htable : Bucketed src pos table) {hash i : Nat} (hhash : getHash src pos = .ok hash)
    (hi : i < 4) (hvalid : candidatePos table hash pos i ≠ invalidHashItem)
    (hlt : candidatePos table hash pos i < pos)
    (hfirst : src[pos]? = src[candidatePos table hash pos i]?) :
    src.length < pos + 2 := by
  by_contra hroom
  have hlevel : hashLevel = 2 := rfl
  have hinvalid : invalidHashItem = 2 ^ 64 - 1 := rfl
  unfold candidatePos at hvalid hlt hfirst
  by_cases hbucket : i < hashLevel
  · rw [if_pos hbucket] at hvalid hlt hfirst
    obtain ⟨-, hsame⟩ := (htable hash i).resolve_left hvalid
    generalize table.item hash i = place at hlt hfirst hsame
    by_cases hlast : src.length ≤ pos + 2
    · obtain rfl := Except.ok.inj (hhash.symm.trans (getHash_end hlast))
      exact h.next place (by omega) (getHash_zero (by omega) hsame)
    · have heq := h.hash place pos hash (by omega) (by omega) hsame hhash
      omega
  · rw [if_neg hbucket, hlevel] at hvalid hlt hfirst
    have hplace : i = 2 ∧ (pos + 2 ^ 64 - (1 + (i - 2))) % 2 ^ 64 = pos - 1 ∧ 1 ≤ pos ∨
        i = 3 ∧ (pos + 2 ^ 64 - (1 + (i - 2))) % 2 ^ 64 = pos - 2 ∧ 2 ≤ pos := by
      omega
    rcases hplace with ⟨-, hback, hle⟩ | ⟨-, hback, hle⟩
    · rw [hback] at hfirst
      have hne := h.next (pos - 1) (by omega)
      rw [show pos - 1 + 1 = pos by omega] at hne
      exact hne hfirst
    · rw [hback] at hfirst
      have hne := h.second (pos - 2) (by omega)
      rw [show pos - 2 + 2 = pos by omega] at hne
      exact hne hfirst

theorem Unrepeated.lzSearchMatch_short (h : Unrepeated src) (hsrc : src.length < 2 ^ 64)
    (hpos : pos < src.length) (htable : Bucketed src pos table) :
    Ends (lzSearchMatch src pos table) (fun found => found.1 < 2) fun _ => True := by
  have hmax := lenMax_le src pos
  unfold Lzma.lzSearchMatch
  dsimp only
  apply (ends_eq (getHash src pos)).bind
  intro hash hhash
  apply Ends.seq fun vars : Nat × Nat × Nat => vars.2.1 < 2
  · apply forRange_ends (fun _ (vars : Nat × Nat × Nat) => vars.2.1 < 2) (Nat.zero_le _) Nat.two_pos
    rintro i ⟨score1, found⟩ - hi hfound
    dsimp only
    by_cases hcandidate : candidatePos table hash pos i ≠ invalidHashItem ∧
        candidatePos table hash pos i < pos ∧
        pos - candidatePos table hash pos i < lzDistMaxPlus1
    · rw [if_pos hcandidate]
      obtain ⟨hvalid, hlt, -⟩ := hcandidate
      have hlen := @matchLenLoop_returns src pos _ (lenMax src pos) 0 hlt.le (by omega) (by omega)
      apply (hlen.mono (fun _ => id) fun _ hfalse => hfalse.elim).bind
      rintro len ⟨hle, hequal⟩
      by_cases hbetter : len ≥ 2 ∧ score1 <
          lenDistScore len (pos - candidatePos table hash pos i) .none
      · have hshort := h.candidate_last hsrc htable hhash hi hvalid hlt (hequal 0 (by omega))
        omega
      · rw [if_neg hbetter]
        exact hfound
    · rw [if_neg hcandidate]
      exact hfound
  · rintro ⟨score1, found⟩ hfound
    exact hfound

theorem Unrepeated.lzSearchRep_short (h : Unrepeated src) (hpos : pos < src.length)
    (lenLimit : Nat) :
    Ends (lzSearchRep src pos .fresh lenLimit) (fun found => found.1 < 2) fun _ => True := by
  have hmax := lenMax_le src pos
  unfold Lzma.lzSearchRep
  dsimp only
  generalize hlimited : (if lenMax src pos > lenLimit then lenLimit else lenMax src pos) = limit
  have hlimit : limit ≤ lenMax src pos := by
    rw [← hlimited]
    split <;> omega
  apply Ends.mono (forEach_ends (fun done rest (found : Nat × Nat) =>
    done ++ rest = [1, 1, 1, 1] ∧ found.1 < 2) [] ⟨rfl, Nat.two_pos⟩ ?_) (fun _ hend => hend.2)
    fun _ => id
  rintro done rep rest ⟨len, dist⟩ ⟨hall, hfound⟩
  have hsplit : (done ++ [rep]) ++ rest = [1, 1, 1, 1] := by
    rw [List.append_assoc]
    exact hall
  have hone : rep = 1 := by
    have hmem : rep ∈ [1, 1, 1, 1] := by
      rw [← hall]
      simp
    simpa using hmem
  subst hone
  dsimp only
  by_cases hrep : 1 ≤ pos
  · rw [if_pos hrep]
    have hlen := @matchLenLoop_returns src pos (pos - 1) limit 0 (by omega) (by omega) (by omega)
    apply (hlen.mono (fun _ => id) fun _ hfalse => hfalse.elim).bind
    rintro j ⟨-, hequal⟩
    by_cases hlonger : j ≥ 2 ∧ j > len
    · have hne := h.next (pos - 1) (by omega)
      rw [show pos - 1 + 1 = pos by omega] at hne
      exact absurd (hequal 0 (by omega)) hne
    · rw [if_neg hlonger]
      exact ⟨hsplit, hfound⟩
  · rw [if_neg hrep]
    exact ⟨hsplit, hfound⟩

theorem Unrepeated.chooseMatch_short (h : Unrepeated src) (hsrc : src.length < 2 ^ 64)
    (hpos : pos < src.length) (htable : Bucketed src pos table) :
    Ends (chooseMatch src pos .fresh table .fresh) (fun out => out.1 < 2 ∧ out.2.2 = .fresh)
      fun _ => True := by
  have hsearch : Ends (lzSearch src pos .fresh table) (fun found => found.1 < 2) fun _ => True := by
    unfold lzSearch
    apply (h.lzSearchRep_short hpos _).bind
    rintro ⟨rlen, rdist⟩ hrep
    apply (h.lzSearchMatch_short hsrc hpos htable).bind
    rintro ⟨mlen, mdist⟩ hmatch
    dsimp only at hrep hmatch ⊢
    split
    · exact hrep
    · exact hmatch
  have hnone : ¬ Bypass.fresh.nBypass > 0 := Nat.lt_irrefl 0
  have hnone' : ¬ Bypass.fresh.lenBypass > 0 := Nat.lt_irrefl 0
  unfold Lzma.chooseMatch
  rw [if_neg hnone, if_neg hnone']
  apply hsearch.bind
  rintro ⟨len, dist⟩ hshort
  dsimp only at hshort ⊢
  rw [if_neg fun hlong => Nat.not_lt.mpr hlong.2 hshort]
  exact ⟨hshort, rfl⟩

theorem Unrepeated.chooseType_literal (h : Unrepeated src) (hpos : pos < src.length)
    {len dist : Nat} (hshort : len < 2) :
    Ends (chooseType src pos .fresh len dist) (fun out => out = (.pktLit, .fresh))
      fun _ => True := by
  unfold Lzma.chooseType
  rw [if_pos hshort]
  have hrep : Reps.fresh.rep0 = 1 := rfl
  have hdiffer := @isShortRep_returns src pos hpos 1 le_rfl
  rw [hrep]
  apply (hdiffer.mono (fun _ => id) fun _ hfalse => hfalse.elim).bind
  intro short hsame
  cases short with
  | false => rfl
  | true =>
    obtain ⟨hle, hequal⟩ := hsame rfl
    have hne := h.next (pos - 1) (by omega)
    rw [show pos - 1 + 1 = pos by omega] at hne
    exact absurd hequal hne

end search

section bits

def byteAt (src : List UInt8) (pos : Nat) : Nat := (src[pos]?.getD 0).toNat

variable (byte : Nat → Nat)

/-- The cells of the eight bits of the literal behind `byte (k / 8)`, one after another. -/
def literalCell (k : Nat) : ProbCell :=
  ⟨.literal 0 (byte (k / 8)), 2 ^ (k % 8) + byte (k / 8 + 1) >>> (8 - k % 8) - 1⟩

def literalBit (k : Nat) : Bool := (byte (k / 8 + 1)).testBit (7 - k % 8)

/-- The pairs among the first `n` bits of the literals, those of the first one apart. -/
def literalPairs (src : List UInt8) (n : Nat) : Nat :=
  pairCount (literalCell (byteAt src)) (literalBit (byteAt src)) n

/-- An encoder that has coded `n` bits of the literals, among `bits` bits in all. -/
def Encoder.Coded (src : List UInt8) (bits n : Nat) (e : Encoder ProbCell) : Prop :=
  e.Narrowed bits (openBits (literalCell (byteAt src)) (literalBit (byteAt src)) n)
    (literalPairs src n)

end bits

section coding
variable {src : List UInt8} {dstLen bits pairs : Nat} {e e' : Encoder ProbCell}
variable {pending : ProbCell → Option Bool} {probs : ProbRow}

theorem encodeBit_ok {cell : ProbCell} {bit : Bool} (h : encodeBit cell bit e = .ok ((), e')) :
    e' = e.bit cell bit := by
  unfold encodeBit at h
  split at h
  · exact (Prod.mk.inj (Except.ok.inj h)).2.symm
  · cases h

theorem intLoop_apart (hnone : ∀ offset, pending ⟨probs, offset⟩ = none) {n treepos val : Nat}
    (hsound : (rangeChannel ProbCell dstLen).Sound e) (h : e.Narrowed bits pending pairs)
    (hbelow : bits + n + 1 < rangeCodeCacheSizeMax)
    (hrun : rangeEncodeIntLoop probs val n treepos e = .ok ((), e')) :
    (rangeChannel ProbCell dstLen).Sound e' ∧ e'.Narrowed (bits + n) pending pairs := by
  induction n generalizing treepos e bits with
  | zero =>
    obtain rfl := (Prod.mk.inj (Except.ok.inj hrun)).2
    exact ⟨hsound, h⟩
  | succ n ih =>
    obtain ⟨⟨_, e₁⟩, hfirst, hrest⟩ := bind_eq_ok.mp (show encodeBit _ _ e >>= _ = _ from hrun)
    obtain rfl := encodeBit_ok hfirst
    have hnext := h.bit_apart hsound (by omega) (val.testBit n) (hnone (treepos - 1))
    have hsound' := (Encoder.bit_step hsound ⟨probs, treepos - 1⟩ (val.testBit n)).1
    obtain ⟨hsound'', hend⟩ := ih hsound' hnext (by omega) hrest
    exact ⟨hsound'', by rw [Nat.add_comm n 1, ← Nat.add_assoc]; exact hend⟩

/-- The rest of a literal, from bit `d` on. -/
theorem intLoop_literal {q n d : Nat} (hd : d + n = 8)
    (hsound : (rangeChannel ProbCell dstLen).Sound e)
    (h : e.Coded src bits (8 * q + d))
    (hbelow : bits + n + 1 < rangeCodeCacheSizeMax)
    (hrun : rangeEncodeIntLoop (.literal 0 (byteAt src q)) (byteAt src (q + 1)) n
      (2 ^ d + byteAt src (q + 1) >>> (8 - d)) e = .ok ((), e')) :
    (rangeChannel ProbCell dstLen).Sound e' ∧ e'.Coded src (bits + n) (8 * (q + 1)) := by
  induction n generalizing d e bits with
  | zero =>
    obtain rfl : d = 8 := by omega
    obtain rfl := (Prod.mk.inj (Except.ok.inj hrun)).2
    exact ⟨hsound, h⟩
  | succ n ih =>
    obtain ⟨⟨_, e₁⟩, hfirst, hrest⟩ := bind_eq_ok.mp (show encodeBit _ _ e >>= _ = _ from hrun)
    obtain rfl := encodeBit_ok hfirst
    have hcell : literalCell (byteAt src) (8 * q + d) =
        ⟨.literal 0 (byteAt src q), 2 ^ d + byteAt src (q + 1) >>> (8 - d) - 1⟩ := by
      rw [literalCell, show (8 * q + d) / 8 = q by omega, show (8 * q + d) % 8 = d by omega]
    have hbit : literalBit (byteAt src) (8 * q + d) = (byteAt src (q + 1)).testBit n := by
      rw [literalBit, show (8 * q + d) / 8 = q by omega, show (8 * q + d) % 8 = d by omega,
        show 7 - d = n by omega]
    have hnext := h.bit_answered hsound (by omega) (literalCell (byteAt src) (8 * q + d))
      (literalBit (byteAt src) (8 * q + d))
    have hsound' := (Encoder.bit_step hsound (literalCell (byteAt src) (8 * q + d))
      (literalBit (byteAt src) (8 * q + d))).1
    have htree : ((2 ^ d + byteAt src (q + 1) >>> (8 - d)) <<< 1) |||
        ((byteAt src (q + 1)).testBit n).toNat =
          2 ^ (d + 1) + byteAt src (q + 1) >>> (8 - (d + 1)) := by
      rw [shiftLeft_or_bit, show 8 - d = n + 1 by omega, show 8 - (d + 1) = n by omega,
        Nat.shiftRight_succ, Nat.testBit_eq_decide_div_mod_eq, Nat.shiftRight_eq_div_pow, pow_succ]
      rcases Nat.mod_two_eq_zero_or_one (byteAt src (q + 1) / 2 ^ n) with hzero | hone
      · rw [hzero, decide_eq_false (by decide), Bool.toNat_false]
        omega
      · rw [hone, decide_eq_true rfl, Bool.toNat_true]
        omega
    rw [hcell, hbit] at hsound'
    rw [htree] at hrest
    obtain ⟨hsound'', hend⟩ := ih (by omega) hsound' (by
      unfold Encoder.Coded literalPairs
      rw [← Nat.add_assoc, openBits, pairCount, ← hcell, ← hbit]
      exact hnext) (by omega) hrest
    exact ⟨hsound'', by rw [Nat.add_comm n 1, ← Nat.add_assoc]; exact hend⟩

theorem openBits_apart {cell : ProbCell} (h : ∀ k, literalCell (byteAt src) k ≠ cell) (n : Nat) :
    openBits (literalCell (byteAt src)) (literalBit (byteAt src)) n cell = none := by
  cases hopen : openBits (literalCell (byteAt src)) (literalBit (byteAt src)) n cell with
  | none => rfl
  | some bit =>
    obtain ⟨k, -, hcell, -⟩ := exists_last hopen
    exact absurd hcell (h k)

end coding

section rounds
variable {src : List UInt8} {dstLen : Nat} {v : EncodeVars}

/-- Only literals lie behind the encoder, nine bits each. -/
structure EncodeVars.AllLiteral (src : List UInt8) (v : EncodeVars) : Prop where
  state_eq : v.state = 0
  reps_eq : v.reps = .fresh
  bypass_eq : v.bypass = .fresh
  bucketed : Bucketed src v.pos v.hashTable
  coded : v.enc.Coded src (9 * v.pos) (8 * (v.pos - 1))

theorem EncodeVars.fresh_allLiteral (src : List UInt8) (dstLen : Nat) :
    (EncodeVars.fresh dstLen false).AllLiteral src :=
  ⟨rfl, rfl, rfl, initHashTable_bucketed src, Encoder.fresh_narrowed dstLen⟩

/-- What a literal packet codes, first of all or behind another byte. -/
theorem literal_coded {e e' : Encoder ProbCell} {pos : Nat} {ctx : PacketContext}
    (hpos : pos < src.length) (hstate : ctx.state = 0) (hlit : ctx.litPosState = 0)
    (hprev : ctx.prevByteLcMsbs = (byteBefore src pos 1).toNat) (len dist : Nat)
    (hsound : (rangeChannel ProbCell dstLen).Sound e)
    (h : e.Coded src (9 * pos) (8 * (pos - 1)))
    (hbelow : 9 * pos + 10 < rangeCodeCacheSizeMax)
    (hrun : encodePacket ctx .pktLit len dist src[pos].toNat e = .ok ((), e')) :
    e'.Coded src (9 * (pos + 1)) (8 * pos) := by
  obtain ⟨⟨_, e₁⟩, hfirst, hrest⟩ := bind_eq_ok.mp
    (show encodeType .pktLit ctx.state ctx.posState e >>= _ = _ from hrun)
  obtain rfl := encodeBit_ok hfirst
  have hapart : ∀ k, literalCell (byteAt src) k ≠ ⟨.isMatch ctx.state ctx.posState, 0⟩ :=
    fun k heq => ProbRow.noConfusion (congrArg ProbCell.row heq)
  have hnext := h.bit_apart hsound (by omega) false (openBits_apart hapart _)
  have hsound' := (Encoder.bit_step hsound ⟨.isMatch ctx.state ctx.posState, 0⟩ false).1
  change encodeLiteral ctx.state ctx.litPosState ctx.prevByteLcMsbs src[pos].toNat
    ctx.matchByte _ = _ at hrest
  generalize e.bit ⟨.isMatch ctx.state ctx.posState, 0⟩ false = e₁ at hnext hsound' hrest
  unfold encodeLiteral rangeEncodeInt at hrest
  rw [hstate, if_pos (by decide), hlit, hprev] at hrest
  cases pos with
  | zero =>
    have hfresh : ∀ offset, openBits (literalCell (byteAt src)) (literalBit (byteAt src))
        (8 * (0 - 1)) ⟨.literal 0 (byteBefore src 0 1).toNat, offset⟩ = none := fun _ => rfl
    exact (intLoop_apart hfresh hsound' hnext (by omega) hrest).2
  | succ q =>
    have hbyte : src[q + 1].toNat = byteAt src (q + 1) := by
      rw [byteAt, List.getElem?_eq_getElem hpos]
      rfl
    have hbefore : (byteBefore src (q + 1) 1).toNat = byteAt src q := by
      rw [byteBefore, if_pos (Nat.succ_pos q)]
      rfl
    have htree : 2 ^ 0 + byteAt src (q + 1) >>> (8 - 0) = 1 := by
      have hlow : byteAt src (q + 1) / 2 ^ (8 - 0) = 0 := Nat.div_eq_of_lt (UInt8.toNat_lt _)
      rw [Nat.shiftRight_eq_div_pow, hlow, pow_zero]
    rw [hbyte, hbefore] at hrest
    have hloop : rangeEncodeIntLoop (.literal 0 (byteAt src q)) (byteAt src (q + 1)) 8
        (2 ^ 0 + byteAt src (q + 1) >>> (8 - 0)) e₁ = .ok ((), e') := by
      rw [htree]
      exact hrest
    exact (@intLoop_literal src dstLen _ _ _ q 8 0 rfl hsound' hnext (by omega) hloop).2

theorem Unrepeated.round_literal (h : Unrepeated src) (hv : v.Sound src dstLen)
    (hliteral : v.AllLiteral src) (hpos : v.pos < src.length) (hsrc : src.length < 2 ^ 60) :
    ∃ v', lzmaEncodeRound src v = .ok (some v') ∧ v'.Sound src dstLen ∧ v'.AllLiteral src ∧
      v.pos < v'.pos := by
  have hcache : rangeCodeCacheSizeMax = 2 ^ 64 - 1 := rfl
  obtain ⟨v', hround, hv', hlt, -⟩ :=
    @lzmaEncodeRound_next src src dstLen v hv hpos le_rfl (by omega)
  obtain ⟨type, len, dist, reps, bypass, table, hchooses⟩ := exists_chooses hpos hv.reps hv.bypass
  have hmatch := hchooses.match_eq
  rw [hliteral.reps_eq, hliteral.bypass_eq] at hmatch
  obtain ⟨hshort, hbypass⟩ :=
    (h.chooseMatch_short (by omega) hpos hliteral.bucketed).of_ok hmatch
  have htype := hchooses.type_eq
  rw [hliteral.reps_eq] at htype
  obtain ⟨rfl, rfl⟩ := Prod.mk.inj ((h.chooseType_literal hpos hshort).of_ok htype)
  have hnext := (hchooses.round_eq hpos hv.reps).symm.trans hround
  obtain ⟨⟨_, enc⟩, hencode, hsome⟩ := bind_eq_ok.mp hnext
  obtain rfl := Option.some.inj (Except.ok.inj hsome)
  have htable : Bucketed src (v.pos + 1) table := by
    have hends : Ends (forRange v.pos (v.pos + 1) v.hashTable (updateHashTable src))
        (Bucketed src (v.pos + 1)) fun _ => True :=
      forRange_ends (Bucketed src) (Nat.le_succ _) hliteral.bucketed fun i table _ hlast h =>
        updateHashTable_bucketed h (by omega)
    exact hends.of_ok hchooses.table_eq
  refine ⟨_, hround, hv', ⟨?_, rfl, hbypass, htable, ?_⟩, hlt⟩
  · change stateTransition v.state .pktLit = 0
    rw [hliteral.state_eq]
    rfl
  · exact literal_coded hpos hliteral.state_eq rfl rfl len dist hv.channel hliteral.coded
      (by omega) hencode

theorem Unrepeated.loop_literal (h : Unrepeated src) (hsrc : src.length < 2 ^ 60) {fuel : Nat}
    (hv : v.Sound src dstLen) (hliteral : v.AllLiteral src) (hfuel : src.length < v.pos + fuel) :
    ∃ v', lzmaEncodeLoop src fuel v = .ok v' ∧ v'.Sound src dstLen ∧ v'.AllLiteral src ∧
      (v'.enc.coder.overflow = true ∨ v'.pos = src.length) := by
  induction fuel generalizing v with
  | zero => exact absurd hv.pos_le (by omega)
  | succ fuel ih =>
    rw [lzmaEncodeLoop]
    by_cases hoverflow : v.enc.coder.overflow = true
    · rw [if_pos hoverflow]
      exact ⟨v, rfl, hv, hliteral, .inl hoverflow⟩
    · rw [if_neg hoverflow]
      by_cases hend : src.length ≤ v.pos
      · rw [lzmaEncodeRound_none hv hend]
        exact ⟨v, rfl, hv, hliteral, .inr (Nat.le_antisymm hv.pos_le hend)⟩
      · obtain ⟨v₁, hround, hv₁, hliteral₁, hlt⟩ :=
          h.round_literal hv hliteral (Nat.not_le.mp hend) hsrc
        obtain ⟨v', hloop, hend'⟩ := ih hv₁ hliteral₁ (by omega)
        rw [hround]
        exact ⟨v', hloop, hend'⟩

/-- The pairs among the bits of the literals bound the encoding from below. -/
theorem Unrepeated.length_ge (h : Unrepeated src) {bytes : List UInt8}
    (hbytes : IsEncoding src bytes) (hsrc : src.length < 2 ^ 60) {n : Nat}
    (hpairs : 25 * n ≤ literalPairs src (8 * (src.length - 1))) :
    51 * n + 32 ≤ 8 * bytes.length := by
  have hcache : rangeCodeCacheSizeMax = 2 ^ 64 - 1 := rfl
  have hshort := hbytes.length_le hsrc
  have hencode := hbytes bytes.length
  rw [if_neg (Nat.lt_irrefl _), List.take_length] at hencode
  obtain ⟨v, hloop, hv, hliteral, hstop⟩ := @Unrepeated.loop_literal src bytes.length _ h hsrc
    (src.length + 3) (EncodeVars.fresh_sound src _) (EncodeVars.fresh_allLiteral src _) (by omega)
  obtain ⟨hoverflow, hdst⟩ := lzmaEncode_ok hloop hencode
  have hended := rangeEncodeTerminate_spec hv.channel.1
  have hgrown := hended.length_le
  obtain ⟨hstart, hlength, -⟩ := hended.settled hoverflow (by rw [hdst]; omega)
  rw [hdst] at hlength
  have hplace : v.pos = src.length := hstop.resolve_left (by rw [hstart]; exact Bool.false_ne_true)
  rw [← hplace] at hpairs
  have hnarrowed := (hliteral.coded.covers hstart).le pairWeight_le (by decide)
  have hcount := count_ge_of_narrowed hv.channel.1.range_ge hpairs hnarrowed
  omega

end rounds

end TonCompress.Lzma
