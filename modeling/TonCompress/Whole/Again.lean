import TonCompress.Boc.Header

/-! A header parsed into an object that has parsed another before. -/
namespace TonCompress.Whole
open TonCompress.Lib TonCompress.Boc

/-- The one member that no parse clears. -/
def withRoots (had : Bool) (info : Info) : Info := { info with hasRoots := had || info.hasRoots }

section parsing
variable {had : Bool} {info : Info} {slice : Slice}

structure ParsedAgain (had : Bool) (run run' : BocExec (Int × Info)) : Prop where
  exists_size : ∃ size out out', run = .ok (size, out) ∧ run' = .ok (size, out') ∧
    out'.hasRoots = (had || out.hasRoots) ∧ (0 < size → out' = withRoots had out)

theorem parsedAgain_ok {size : Int} {out out' : Info} (hroots : out'.hasRoots = (had || out.hasRoots))
    (hout : 0 < size → out' = withRoots had out) :
    ParsedAgain had (.ok (size, out)) (.ok (size, out')) :=
  ⟨⟨size, out, out', rfl, rfl, hroots, hout⟩⟩

theorem parsedAgain_of_map {run : BocExec (Int × Info)} (h : Returns run fun _ => True) :
    ParsedAgain had run (run.map fun out => (out.1, withRoots had out.2)) := by
  obtain ⟨⟨size, out⟩, rfl, -⟩ := returns_iff.mp h
  exact parsedAgain_ok rfl fun _ => rfl

theorem parseDataSize_withRoots :
    (withRoots had info).parseDataSize slice =
      (info.parseDataSize slice).map fun out => (out.1, withRoots had out.2) := by
  unfold Info.parseDataSize withRoots Info.readRef Info.readOffset
  dsimp only
  by_cases h3 : headerWindow slice - 6 < 3 * info.refByteSize
  · rw [if_pos h3, if_pos h3]
    rfl
  rw [if_neg h3, if_neg h3]
  cases readInt ((slice.mem.drop 6).drop (2 * info.refByteSize)) info.refByteSize with
  | error stop => rfl
  | ok absentCount =>
    rw [ok_bind, ok_bind]
    by_cases habsent : asInt32 absentCount < 0 ∨ asInt32 absentCount > info.cellCount
    · rw [if_pos habsent, if_pos habsent]
      rfl
    rw [if_neg habsent, if_neg habsent]
    by_cases h4 : headerWindow slice - 6 < 3 * info.refByteSize + info.offsetByteSize
    · rw [if_pos h4, if_pos h4]
      rfl
    rw [if_neg h4, if_neg h4]
    cases readInt ((slice.mem.drop 6).drop (3 * info.refByteSize)) info.offsetByteSize with
    | error stop => rfl
    | ok dataSize =>
      rw [ok_bind, ok_bind]
      by_cases hlarge : dataSize > info.cellCount.toNat * 1024
      · rw [if_pos hlarge, if_pos hlarge]
        rfl
      rw [if_neg hlarge, if_neg hlarge]
      by_cases hhuge : dataSize > 2 ^ 40
      · rw [if_pos hhuge, if_pos hhuge]
        rfl
      rw [if_neg hhuge, if_neg hhuge]
      by_cases hsmall : dataSize < info.cellCount.toNat * (2 + info.refByteSize) - info.refByteSize
      · rw [if_pos hsmall, if_pos hsmall]
        rfl
      rw [if_neg hsmall, if_neg hsmall]
      rfl

theorem setOffsets_withRoots : (withRoots had info).setOffsets = withRoots had info.setOffsets := by
  unfold Info.setOffsets withRoots
  dsimp only
  by_cases hmagic : info.magic = bocGeneric
  · rw [if_pos hmagic, if_pos hmagic]
    simp
  · rw [if_neg hmagic, if_neg hmagic]

theorem parseCounts_withRoots :
    (withRoots had info).parseCounts slice =
      (info.parseCounts slice).map fun out => (out.1, withRoots had out.2) := by
  unfold Info.parseCounts Info.readRef withRoots
  dsimp only
  by_cases h1 : headerWindow slice - 6 < info.refByteSize
  · rw [if_pos h1, if_pos h1]
    rfl
  rw [if_neg h1, if_neg h1]
  cases readInt (slice.mem.drop 6) info.refByteSize with
  | error stop => rfl
  | ok cellCount =>
    rw [ok_bind, ok_bind]
    by_cases hcells : asInt32 cellCount ≤ 0
    · rw [if_pos hcells, if_pos hcells]
      rfl
    rw [if_neg hcells, if_neg hcells]
    by_cases h2 : headerWindow slice - 6 < 2 * info.refByteSize
    · rw [if_pos h2, if_pos h2]
      rfl
    rw [if_neg h2, if_neg h2]
    cases readInt ((slice.mem.drop 6).drop info.refByteSize) info.refByteSize with
    | error stop => rfl
    | ok rootCount =>
      rw [ok_bind, ok_bind]
      by_cases hroots : asInt32 rootCount ≤ 0
      · rw [if_pos hroots, if_pos hroots]
        rfl
      rw [if_neg hroots, if_neg hroots]
      by_cases hsingle : info.magic ≠ bocGeneric ∧ asInt32 rootCount ≠ 1
      · rw [if_pos hsingle, if_pos hsingle]
        rfl
      rw [if_neg hsingle, if_neg hsingle]
      refine Eq.trans ?_ (@parseDataSize_withRoots had _ slice)
      rw [← setOffsets_withRoots]
      rfl

theorem parseWidths_again {offset : Nat}
    (h : Returns (info.parseWidths slice) fun _ => True) :
    ParsedAgain had (info.parseWidths slice)
      ({ withRoots had info with rootsOffset := offset }.parseWidths slice) := by
  unfold Info.parseWidths withRoots at *
  dsimp only at h ⊢
  by_cases hcache : info.hasCacheBits = true ∧ ¬ info.hasIndex = true
  · rw [if_pos hcache, if_pos hcache]
    exact parsedAgain_ok rfl (absurd · (lt_irrefl 0))
  rw [if_neg hcache] at h
  rw [if_neg hcache, if_neg hcache]
  by_cases hrbs : info.refByteSize > 4 ∨ info.refByteSize < 1
  · rw [if_pos hrbs, if_pos hrbs]
    exact parsedAgain_ok rfl (absurd · (lt_irrefl 0))
  rw [if_neg hrbs] at h
  rw [if_neg hrbs, if_neg hrbs]
  by_cases h6 : headerWindow slice < 6
  · rw [if_pos h6, if_pos h6]
    exact parsedAgain_ok rfl fun hpos => absurd hpos (by omega)
  rw [if_neg h6] at h
  rw [if_neg h6, if_neg h6]
  cases hbyte : readByte slice.mem 5 with
  | error stop =>
    rw [hbyte] at h
    exact h.elim
  | ok byte =>
    rw [hbyte, ok_bind] at h
    rw [ok_bind, ok_bind]
    by_cases hobs : byte.toNat > 8 ∨ byte.toNat < 1
    · rw [if_pos hobs, if_pos hobs]
      exact parsedAgain_ok rfl (absurd · (lt_irrefl 0))
    rw [if_neg hobs] at h
    rw [if_neg hobs, if_neg hobs]
    have hagain := @parsedAgain_of_map had _ h
    rw [← parseCounts_withRoots] at hagain
    exact hagain

theorem setFlags_again (info : Info) (magic byte : Nat) :
    { withRoots info.hasRoots (({ Info.fresh with valid := false }.reset magic).setFlags byte) with
      rootsOffset := info.rootsOffset } =
      ({ info with valid := false }.reset magic).setFlags byte := by
  unfold Info.setFlags Info.reset withRoots Info.fresh
  dsimp only
  by_cases hmagic : magic = bocGeneric
  · rw [if_pos hmagic, if_pos hmagic, Bool.or_false]
  · rw [if_neg hmagic, if_neg hmagic, Bool.or_false]

/-- What an earlier header leaves in the object shows in `has_roots` only. -/
theorem parseSerializedHeader_again (info : Info) (slice : Slice) :
    ParsedAgain info.hasRoots (Info.fresh.parseSerializedHeader slice)
      (info.parseSerializedHeader slice) := by
  have hreturns := parseSerializedHeader_ends Info.fresh slice
  unfold Info.parseSerializedHeader at hreturns ⊢
  dsimp only at hreturns ⊢
  by_cases h4 : headerWindow slice < 4
  · rw [if_pos h4, if_pos h4]
    exact parsedAgain_ok (Bool.or_false _).symm fun hpos => absurd hpos (by omega)
  rw [if_neg h4] at hreturns
  rw [if_neg h4, if_neg h4]
  cases hmagic : readInt slice.mem 4 with
  | error stop =>
    rw [hmagic] at hreturns
    exact hreturns.elim
  | ok magic =>
    rw [hmagic, ok_bind] at hreturns
    rw [ok_bind, ok_bind]
    by_cases hknown : magic ≠ bocGeneric ∧ magic ≠ bocIdx ∧ magic ≠ bocIdxCrc32c
    · rw [if_pos hknown, if_pos hknown]
      exact parsedAgain_ok (Bool.or_false _).symm (absurd · (lt_irrefl 0))
    rw [if_neg hknown] at hreturns
    rw [if_neg hknown, if_neg hknown]
    by_cases h5 : headerWindow slice < 5
    · rw [if_pos h5, if_pos h5]
      exact parsedAgain_ok (Bool.or_false _).symm fun hpos => absurd hpos (by omega)
    rw [if_neg h5] at hreturns
    rw [if_neg h5, if_neg h5]
    cases hbyte : readByte slice.mem 4 with
    | error stop =>
      rw [hbyte] at hreturns
      exact hreturns.elim
    | ok byte =>
      rw [hbyte, ok_bind] at hreturns
      have hagain := @parseWidths_again info.hasRoots _ _ info.rootsOffset
        (hreturns.mono (fun _ _ => trivial) fun _ => id)
      have hflags := setFlags_again info magic byte.toNat
      dsimp only at hagain hflags
      rw [hflags] at hagain
      exact hagain

end parsing

end TonCompress.Whole
