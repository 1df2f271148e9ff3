import TonCompress.Lib.Window
import TonCompress.Lzma.Decode

/-! What the decoder writes. Its buffer holds the output up to the position, and
behind it what the buffer held before. -/
namespace TonCompress.Lzma
open TonCompress.Lib

def DecodeVars.written (v : DecodeVars) : List UInt8 := v.dst.take v.pos

/-- `w` is `v` with the output `out`, a new one that ends in `prev_byte`. -/
structure Emits (v : DecodeVars) (out : List UInt8) (w : DecodeVars) : Prop where
  pos_eq : w.pos = out.length
  pos_le : out.length ≤ v.dst.length
  dst_eq : w.dst = writeTo v.dst out
  last_eq : out.getLast? = some w.prevByte
  state_eq : w.state = v.state
  reps_eq : w.reps = v.reps
  dec_eq : w.dec = v.dec

section writes
variable {v w : DecodeVars} {out : List UInt8}

theorem DecodeVars.length_written (h : v.pos ≤ v.dst.length) : v.written.length = v.pos :=
  List.length_take_of_le h

theorem length_writeTo {buffer bytes : List UInt8} (h : bytes.length ≤ buffer.length) :
    (writeTo buffer bytes).length = buffer.length := by
  unfold writeTo
  rw [List.length_append, List.length_drop]
  omega

theorem writeTo_writeTo {buffer bytes bytes' : List UInt8} (h : bytes.length ≤ bytes'.length) :
    writeTo (writeTo buffer bytes) bytes' = writeTo buffer bytes' := by
  unfold writeTo
  rw [List.drop_append, List.drop_eq_nil_of_le h, List.nil_append, List.drop_drop]
  congr 2
  omega

theorem DecodeVars.dst_eq (v : DecodeVars) (h : v.pos ≤ v.dst.length) :
    writeTo v.dst v.written = v.dst := by
  unfold writeTo
  rw [DecodeVars.length_written h]
  exact List.take_append_drop v.pos v.dst

theorem Emits.length_eq (h : Emits v out w) : w.dst.length = v.dst.length := by
  rw [h.dst_eq, length_writeTo h.pos_le]

theorem Emits.written_eq (h : Emits v out w) : w.written = out := by
  rw [DecodeVars.written, h.dst_eq, h.pos_eq]
  exact List.take_left

theorem Emits.trans {out' : List UInt8} {x : DecodeVars} (h : Emits v out w)
    (h' : Emits w out' x) (hlonger : out.length ≤ out'.length) : Emits v out' x where
  pos_eq := h'.pos_eq
  pos_le := h.length_eq ▸ h'.pos_le
  dst_eq := by rw [h'.dst_eq, h.dst_eq, writeTo_writeTo hlonger]
  last_eq := h'.last_eq
  state_eq := h'.state_eq.trans h.state_eq
  reps_eq := h'.reps_eq.trans h.reps_eq
  dec_eq := h'.dec_eq.trans h.dec_eq

def DecodeVars.push (v : DecodeVars) (value : UInt8) : DecodeVars :=
  { v with prevByte := value, dst := v.dst.set v.pos value, pos := v.pos + 1 }

theorem DecodeVars.push_emits (h : v.pos < v.dst.length) (value : UInt8) :
    Emits v (v.written ++ [value]) (v.push value) := by
  have hlength : (v.written ++ [value]).length = v.pos + 1 := by
    rw [List.length_append, DecodeVars.length_written h.le, List.length_singleton]
  refine ⟨hlength.symm, hlength ▸ h, ?_, List.getLast?_concat, rfl, rfl, rfl⟩
  unfold writeTo
  rw [hlength]
  change v.dst.set v.pos value = _
  rw [List.set_eq_take_append_cons_drop, if_pos h, List.append_assoc]
  rfl

theorem copyLoop_succ {dist len : Nat} {value : UInt8} (hpos : v.pos < v.dst.length)
    (hle : dist ≤ v.pos) (hvalue : v.dst[v.pos - dist]? = some value) :
    copyLoop dist (len + 1) v = copyLoop dist len (v.push value) := by
  have hback : (v.pos : Int) - dist = ((v.pos - dist : Nat) : Int) := by omega
  rw [copyLoop, hback, vecGet_of_eq _ _ _ value hvalue, ok_bind, vecSet_natCast _ _ _ _ hpos]
  rfl

theorem copyLoop_step {dist len : Nat} (hdist : 1 ≤ dist) (hle : dist ≤ v.pos)
    (hroom : v.pos < v.dst.length) :
    ∃ value, copyLoop dist (len + 1) v = copyLoop dist len (v.push value) ∧
      copyBack dist (len + 1) v.written = copyBack dist len (v.push value).written ∧
      Emits v (v.push value).written (v.push value) := by
  have hlength : v.written.length = v.pos := DecodeVars.length_written hroom.le
  obtain ⟨value, hvalue⟩ := @exists_back UInt8 dist v.written hdist (by omega)
  have hread : v.dst[v.pos - dist]? = some value := by
    rw [← hvalue, hlength]
    exact (List.getElem?_take_of_lt (by omega)).symm
  have hpush := DecodeVars.push_emits hroom value
  refine ⟨value, copyLoop_succ hroom hle hread, ?_, ?_⟩
  · rw [copyBack_succ hvalue, hpush.written_eq]
  · rw [hpush.written_eq]
    exact hpush

/-- The copy loop appends to the output what stands `dist` before its end. -/
theorem copyLoop_emits {dist len : Nat} (hdist : 1 ≤ dist) (hle : dist ≤ v.pos)
    (hroom : v.pos + (len + 1) ≤ v.dst.length) :
    ∃ w, copyLoop dist (len + 1) v = .ok w ∧
      Emits v (copyBack dist (len + 1) v.written) w := by
  induction len generalizing v with
  | zero =>
    obtain ⟨value, hloop, hcopy, hemits⟩ := @copyLoop_step v dist 0 hdist hle (by omega)
    rw [hloop, hcopy]
    exact ⟨v.push value, rfl, hemits⟩
  | succ len ih =>
    obtain ⟨value, hloop, hcopy, hemits⟩ := @copyLoop_step v dist (len + 1) hdist hle (by omega)
    have hpos : (v.push value).pos = v.pos + 1 := rfl
    have hlength := hemits.length_eq
    obtain ⟨w, hrun, hw⟩ := @ih (v.push value) (by omega) (by omega)
    rw [hloop, hcopy]
    refine ⟨w, hrun, hemits.trans hw ?_⟩
    rw [length_copyBack hdist]
    · omega
    · rw [← hemits.pos_eq]
      omega

/-- A literal is written, and then copied onto itself. -/
theorem writePacket_literal {dstLen : Nat} (hroom : v.pos < v.dst.length)
    (hfits : v.pos + 1 ≤ dstLen) (hsize : dstLen < 2 ^ 64) :
    writePacket dstLen .pktLit 1 0 v = .ok (.next (v.push v.prevByte)) := by
  have hset : { v with dst := v.dst.set v.pos v.prevByte }.push v.prevByte = v.push v.prevByte := by
    unfold DecodeVars.push
    rw [List.set_set]
  have hloop : copyLoop 0 1 { v with dst := v.dst.set v.pos v.prevByte } =
      .ok (v.push v.prevByte) := by
    have hvalue : (v.dst.set v.pos v.prevByte)[v.pos - 0]? = some v.prevByte := by
      rw [Nat.sub_zero, List.getElem?_set_self hroom]
    rw [copyLoop_succ _ (Nat.zero_le _) hvalue, hset]
    · rfl
    · rw [List.length_set]
      exact hroom
  unfold writePacket
  rw [if_neg (Nat.not_lt_zero _), if_neg (by omega), if_pos rfl, vecSet_natCast _ _ _ _ hroom]
  change copyLoop 0 1 _ >>= _ = _
  rw [hloop]
  rfl

theorem writePacket_copy {dstLen : Nat} {type : PacketType} {len dist : Nat}
    (hlit : type ≠ .pktLit) (hdist : 1 ≤ dist) (hle : dist ≤ v.pos) (hlen : 1 ≤ len)
    (hroom : dstLen ≤ v.dst.length) (hfits : v.pos + len ≤ dstLen) (hsize : dstLen < 2 ^ 64) :
    ∃ w, writePacket dstLen type len dist v = .ok (.next w) ∧
      Emits { v with reps := { v.reps with rep0 := dist } } (copyBack dist len v.written) w := by
  obtain ⟨len, rfl⟩ := Nat.exists_eq_add_of_le' hlen
  obtain ⟨w, hrun, hw⟩ := @copyLoop_emits { v with reps := { v.reps with rep0 := dist } } dist len
    hdist hle (by dsimp only; omega)
  refine ⟨w, ?_, hw⟩
  unfold writePacket
  rw [if_neg (by omega), if_neg (by omega), if_neg hlit]
  change copyLoop dist (len + 1) _ >>= _ = _
  rw [hrun]
  rfl

end writes

section loop
variable {params : LzmaParams} {dstLen fuel : Nat} {v w : DecodeVars}

theorem lzmaDecodeLoop_full (h : dstLen ≤ v.pos) :
    lzmaDecodeLoop params dstLen (fuel + 1) v = .ok (.ok, v) := by
  rw [lzmaDecodeLoop, if_neg (Nat.not_lt.mpr h)]
  rfl

theorem lzmaDecodeLoop_next (h : v.pos < dstLen)
    (hround : lzmaDecodeRound params dstLen v = .ok (.next w)) :
    lzmaDecodeLoop params dstLen (fuel + 1) v = lzmaDecodeLoop params dstLen fuel w := by
  rw [lzmaDecodeLoop, if_pos h, hround]
  rfl

theorem lzmaDecodeLoop_leave (h : v.pos < dstLen)
    (hround : lzmaDecodeRound params dstLen v = .ok (.leave w)) :
    lzmaDecodeLoop params dstLen (fuel + 1) v = .ok (.ok, w) := by
  rw [lzmaDecodeLoop, if_pos h, hround]
  rfl

theorem lzmaDecodeLoop_ret {code : Ret} (h : v.pos < dstLen)
    (hround : lzmaDecodeRound params dstLen v = .ok (.ret code w)) :
    lzmaDecodeLoop params dstLen (fuel + 1) v = .ok (code, w) := by
  rw [lzmaDecodeLoop, if_pos h, hround]
  rfl

end loop

end TonCompress.Lzma
