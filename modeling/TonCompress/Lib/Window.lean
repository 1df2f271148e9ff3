import Mathlib.Data.List.Basic

/-! Output that grows by copies of its own last elements. A copy may run into
the elements it has added itself. -/
namespace TonCompress.Lib

/-- `len` elements, each the one `dist` before the end. -/
def copyBack {α : Type} (dist : Nat) : Nat → List α → List α
  | 0, out => out
  | len + 1, out => copyBack dist len (out ++ out[out.length - dist]?.toList)

section copies
variable {α : Type} {dist len : Nat} {out : List α}

theorem copyBack_succ {value : α} (h : out[out.length - dist]? = some value) :
    copyBack dist (len + 1) out = copyBack dist len (out ++ [value]) := by
  rw [copyBack, h]
  rfl

theorem exists_back (hdist : 1 ≤ dist) (hle : dist ≤ out.length) :
    ∃ value, out[out.length - dist]? = some value :=
  ⟨_, List.getElem?_eq_getElem (by omega)⟩

theorem length_copyBack (hdist : 1 ≤ dist) (hle : dist ≤ out.length) :
    (copyBack dist len out).length = out.length + len := by
  induction len generalizing out with
  | zero => rfl
  | succ len ih =>
    obtain ⟨value, hvalue⟩ := exists_back hdist hle
    rw [copyBack_succ hvalue, ih]
    · rw [List.length_append, List.length_singleton]
      omega
    · rw [List.length_append]
      omega

/-- A copy that repeats the source gives the source. -/
theorem copyBack_take {src : List α} {pos : Nat} (hdist : 1 ≤ dist) (hle : dist ≤ pos)
    (hfits : pos + len ≤ src.length)
    (hequal : ∀ k < len, src[pos + k]? = src[pos + k - dist]?) :
    copyBack dist len (src.take pos) = src.take (pos + len) := by
  induction len generalizing pos with
  | zero => rfl
  | succ len ih =>
    have hpos : pos < src.length := by omega
    have hback : (src.take pos)[(src.take pos).length - dist]? = some src[pos] := by
      rw [List.length_take_of_le (Nat.le_of_lt hpos), List.getElem?_take_of_lt (by omega),
        ← List.getElem?_eq_getElem hpos]
      exact (hequal 0 (Nat.succ_pos len)).symm
    rw [copyBack_succ hback, List.take_append_getElem hpos, ih (by omega) (by omega)]
    · congr 1
      omega
    · intro k hk
      have hnext := hequal (k + 1) (by omega)
      rwa [← Nat.add_assoc, Nat.add_right_comm] at hnext

end copies

end TonCompress.Lib
