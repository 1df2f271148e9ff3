import TonCompress.Shuffle.ThreadSteps

/-! The locks put the calls in the order of their iterations. -/
namespace TonCompress.Shuffle
open TonCompress.Lib

variable {Thread : Type} {routine : BlockRoutine} {src : List UInt8} {blockSize elemSize : Nat}
variable {t : Thread} {call call' : Call} {s s' : Loop Thread}

section locked

/-- The locks are held by the threads at the steps between setting and unsetting them. A
call has the number of its iteration to itself. -/
structure Locked (s : Loop Thread) : Prop where
  owner_iff : ∀ lock t, s.owner lock = some t ↔
    ∃ call, s.calls t = some call ∧ Holds call.thisIter call.pc lock
  iter_eq : ∀ t call, s.calls t = some call → call.pc = 2 → call.thisIter = s.vars.C.next
  iter_lt : ∀ t call, s.calls t = some call → 3 ≤ call.pc → call.thisIter < s.vars.C.next
  distinct : ∀ t t' call call', s.calls t = some call → s.calls t' = some call' → 2 ≤ call.pc →
    2 ≤ call'.pc → call.thisIter = call'.thisIter → t = t'

theorem Locked.holder_unique (h : Locked s) {t' : Thread} {lock : Lock} (hcall : s.calls t = some call)
    (hholds : Holds call.thisIter call.pc lock) (hcall' : s.calls t' = some call')
    (hholds' : Holds call'.thisIter call'.pc lock) : t = t' := by
  have hfirst := (h.owner_iff lock t).mpr ⟨call, hcall, hholds⟩
  have hsecond := (h.owner_iff lock t').mpr ⟨call', hcall', hholds'⟩
  exact Option.some.inj (hfirst.symm.trans hsecond)

theorem Locked.reader_unique (hlocked : Locked s) {t' : Thread} (hcall : s.calls t = some call)
    (hcall' : s.calls t' = some call') (hpc : 1 ≤ call.pc ∧ call.pc ≤ 6)
    (hpc' : 1 ≤ call'.pc ∧ call'.pc ≤ 6) : t' = t :=
  (hlocked.holder_unique hcall (show Holds call.thisIter call.pc .next from hpc) hcall'
    (show Holds call'.thisIter call'.pc .next from hpc')).symm

theorem locked_start (count : Nat) (out : List UInt8) : Locked (Loop.start count out : Loop Thread) where
  owner_iff lock t := by simp [Loop.start]
  iter_eq t call hcall := by cases hcall
  iter_lt t call hcall := by cases hcall
  distinct t t' call call' hcall := by cases hcall

theorem holds_zero (iter : Nat) (lock : Lock) : ¬ Holds iter 0 lock := by
  cases lock <;> simp [Holds]

theorem holds_over {iter pc : Nat} (h : 17 ≤ pc) (lock : Lock) : ¬ Holds iter pc lock := by
  cases lock <;> simp only [Holds] <;> omega

theorem holds_first {iter iter' pc : Nat} (h : pc ≤ 3) (lock : Lock) :
    Holds iter pc lock ↔ Holds iter' pc lock := by
  cases lock <;> simp only [Holds] <;> omega

variable [DecidableEq Thread]

theorem StepKind.replaces_or_advances (h : StepKind routine src blockSize elemSize t s s') :
    (∃ new todo, (∀ call, s.calls t = some call → 17 ≤ call.pc) ∧
      (∀ call, new = some call → call.pc = 0) ∧
        s' = { s with calls := Function.update s.calls t new, todo := todo }) ∨
    ∃ call call', Advance routine src blockSize elemSize t call call' s s' := by
  cases h with
  | take hcall _ =>
    refine .inl ⟨_, _, fun call hsome => ?_, fun call hsome => ?_, rfl⟩
    · rw [hcall] at hsome
      cases hsome
    · rw [← Option.some.inj hsome]
  | finish call hcall hpc =>
    refine .inl ⟨none, s.todo, fun call' hsome => ?_, nofun, rfl⟩
    rw [← Option.some.inj (hcall.symm.trans hsome)]
    exact hpc
  | advance call call' _ hadvance => exact .inr ⟨call, call', hadvance⟩

theorem Locked.replace (h : Locked s) {new : Option Call}
    (hold : ∀ call, s.calls t = some call → 17 ≤ call.pc)
    (hnew : ∀ call, new = some call → call.pc = 0) (todo : Nat) :
    Locked { s with calls := Function.update s.calls t new, todo := todo } := by
  have hbefore : ∀ t' call, Function.update s.calls t new t' = some call →
      t' ≠ t ∧ s.calls t' = some call ∨ call.pc = 0 := by
    intro t' call hcall
    by_cases ht : t' = t
    · subst ht
      rw [Function.update_self] at hcall
      exact .inr (hnew call hcall)
    · rw [Function.update_of_ne ht] at hcall
      exact .inl ⟨ht, hcall⟩
  refine ⟨fun lock t' => ?_, fun t' call hcall hpc => ?_, fun t' call hcall hpc => ?_,
    fun t₁ t₂ call₁ call₂ hcall₁ hcall₂ hpc₁ hpc₂ hiter => ?_⟩
  · rw [h.owner_iff lock t']
    constructor
    · rintro ⟨call, hcall, hholds⟩
      have ht : t' ≠ t := by
        rintro rfl
        exact holds_over (hold call hcall) lock hholds
      exact ⟨call, (Function.update_of_ne ht ..).trans hcall, hholds⟩
    · rintro ⟨call, hcall, hholds⟩
      rcases hbefore t' call hcall with ⟨-, hcall⟩ | hpc
      · exact ⟨call, hcall, hholds⟩
      · exact absurd (hpc ▸ hholds) (holds_zero _ lock)
  · rcases hbefore t' call hcall with ⟨-, hcall⟩ | hzero
    · exact h.iter_eq t' call hcall hpc
    · omega
  · rcases hbefore t' call hcall with ⟨-, hcall⟩ | hzero
    · exact h.iter_lt t' call hcall hpc
    · omega
  · rcases hbefore t₁ call₁ hcall₁ with ⟨-, hcall₁⟩ | hzero
    · rcases hbefore t₂ call₂ hcall₂ with ⟨-, hcall₂⟩ | hzero
      · exact h.distinct t₁ t₂ call₁ call₂ hcall₁ hcall₂ hpc₁ hpc₂ hiter
      · omega
    · omega

theorem Advance.self_eq (h : Advance routine src blockSize elemSize t call call' s s') :
    s'.calls t = some call' := by
  rw [h.calls_eq, Function.update_self]

theorem Advance.of_ne (h : Advance routine src blockSize elemSize t call call' s s') {t' : Thread}
    (ht : t' ≠ t) : s'.calls t' = s.calls t' := by
  rw [h.calls_eq, Function.update_of_ne ht]

theorem Advance.iter_eq (h : Advance routine src blockSize elemSize t call call' s s')
    (hpc : call.pc ≠ 1) : call'.thisIter = call.thisIter :=
  h.chain.iter_eq.trans (if_neg hpc)

theorem Advance.iter_read (h : Advance routine src blockSize elemSize t call call' s s')
    (hpc : call.pc = 1) : call'.thisIter = s.vars.C.next :=
  h.chain.iter_eq.trans (if_pos hpc)

theorem Advance.next_le (h : Advance routine src blockSize elemSize t call call' s s') :
    s.vars.C.next ≤ s'.vars.C.next := by
  rw [h.chain.next_eq]
  split <;> omega

theorem Advance.holds (h : Advance routine src blockSize elemSize t call call' s s') (lock : Lock) :
    Holds call'.thisIter call'.pc lock ↔ Holds call.thisIter (call.pc + 1) lock := by
  rw [h.pc_eq]
  by_cases hpc : call.pc = 1
  · exact holds_first (by omega) lock
  · rw [h.iter_eq hpc]

theorem Advance.owner_iff (h : Advance routine src blockSize elemSize t call call' s s') {lock : Lock}
    (hlocked : Locked s) (hself : s'.owner lock = some t ↔ Holds call.thisIter (call.pc + 1) lock)
    (hothers : ∀ t' ≠ t, s'.owner lock = some t' ↔ s.owner lock = some t') (t' : Thread) :
    s'.owner lock = some t' ↔
      ∃ call, s'.calls t' = some call ∧ Holds call.thisIter call.pc lock := by
  by_cases ht : t' = t
  · subst ht
    rw [hself, ← h.holds, h.self_eq]
    simp
  · rw [hothers t' ht, hlocked.owner_iff, h.of_ne ht]

theorem Locked.advance_owner (hlocked : Locked s)
    (h : Advance routine src blockSize elemSize t call call' s s') (lock : Lock) (t' : Thread) :
    s'.owner lock = some t' ↔
      ∃ call, s'.calls t' = some call ∧ Holds call.thisIter call.pc lock := by
  have hmine : ∀ lock, s.owner lock = some t ↔ Holds call.thisIter call.pc lock := by
    intro lock
    rw [hlocked.owner_iff, h.call_eq]
    simp
  have hlocks := h.locks
  generalize howner : s'.owner = owner' at hlocks
  cases hlocks with
  | set taken hcode hfree =>
    have hholds := holds_setLock h.pc_lt hcode lock
    rw [← howner]
    refine h.owner_iff hlocked ?_ (fun t' ht => ?_) t'
    · rw [howner, hholds, ← hmine]
      by_cases hlock : lock = taken
      · subst hlock
        simp
      · rw [Function.update_of_ne hlock]
        simp [hlock]
    · rw [howner]
      by_cases hlock : lock = taken
      · subst hlock
        rw [Function.update_self, hfree]
        simp [Ne.symm ht]
      · rw [Function.update_of_ne hlock]
  | unset given hcode =>
    obtain ⟨hheld, hholds⟩ := holds_unsetLock h.pc_lt hcode
    have hgiven := (hmine given).mpr hheld
    rw [← howner]
    refine h.owner_iff hlocked ?_ (fun t' ht => ?_) t'
    · rw [howner, hholds, ← hmine]
      by_cases hlock : lock = given
      · subst hlock
        simp
      · rw [Function.update_of_ne hlock]
        simp [hlock]
    · rw [howner]
      by_cases hlock : lock = given
      · subst hlock
        rw [Function.update_self, hgiven]
        simp [Ne.symm ht]
      · rw [Function.update_of_ne hlock]
  | other hset hunset =>
    rw [← howner]
    refine h.owner_iff hlocked ?_ (fun t' _ => ?_) t'
    · rw [howner, holds_other h.pc_lt hset hunset, ← hmine]
    · rw [howner]

theorem Locked.advance (hlocked : Locked s)
    (h : Advance routine src blockSize elemSize t call call' s s') : Locked s' := by
  have hnext := h.next_le
  have hpc' := h.pc_eq
  have hread : ∀ t' call'', t' ≠ t → s.calls t' = some call'' → 2 ≤ call''.pc → call.pc = 1 →
      call''.thisIter < s.vars.C.next := by
    intro t' call'' ht hcall'' hpc'' hone
    by_cases htwo : call''.pc = 2
    · exact absurd (hlocked.reader_unique h.call_eq hcall'' (by omega) (by omega)) ht
    · exact hlocked.iter_lt t' call'' hcall'' (by omega)
  refine ⟨hlocked.advance_owner h, fun t' call'' hcall'' htwo => ?_, fun t' call'' hcall'' hthree => ?_,
    fun t₁ t₂ call₁ call₂ hcall₁ hcall₂ hpc₁ hpc₂ hiter => ?_⟩
  · by_cases ht : t' = t
    · subst ht
      obtain rfl := Option.some.inj (h.self_eq.symm.trans hcall'')
      have hone : call.pc = 1 := by omega
      rw [h.iter_read hone, h.chain.next_eq, if_neg (by omega)]
    · rw [h.of_ne ht] at hcall''
      have hkept : call.pc ≠ 2 := fun hpc =>
        ht (hlocked.reader_unique h.call_eq hcall'' (by omega) (by omega))
      rw [hlocked.iter_eq t' call'' hcall'' htwo, h.chain.next_eq, if_neg hkept]
  · by_cases ht : t' = t
    · subst ht
      obtain rfl := Option.some.inj (h.self_eq.symm.trans hcall'')
      rw [h.iter_eq (by omega), h.chain.next_eq]
      split
      · rw [hlocked.iter_eq t' call h.call_eq ‹_›]
        exact Nat.lt_succ_self _
      · exact hlocked.iter_lt t' call h.call_eq (by omega)
    · rw [h.of_ne ht] at hcall''
      exact (hlocked.iter_lt t' call'' hcall'' hthree).trans_le hnext
  · -- a call gets its iteration at `readNext`, where no other call has this one
    have hmoved : ∀ t' call'', t' ≠ t → s'.calls t' = some call'' → 2 ≤ call''.pc → 2 ≤ call'.pc →
        call''.thisIter ≠ call'.thisIter := by
      intro t' call'' ht hcall'' hpc'' hpc' hiter
      rw [h.of_ne ht] at hcall''
      by_cases hone : call.pc = 1
      · have hlt := hread t' call'' ht hcall'' hpc'' hone
        have hiter' := h.iter_read hone
        omega
      · rw [h.iter_eq hone] at hiter
        exact ht (hlocked.distinct t' t call'' call hcall'' h.call_eq hpc'' (by omega) hiter)
    by_cases ht₁ : t₁ = t
    · subst ht₁
      obtain rfl := Option.some.inj (h.self_eq.symm.trans hcall₁)
      by_cases ht₂ : t₂ = t₁
      · exact ht₂.symm
      · exact absurd hiter.symm (hmoved t₂ call₂ ht₂ hcall₂ hpc₂ hpc₁)
    · by_cases ht₂ : t₂ = t
      · subst ht₂
        obtain rfl := Option.some.inj (h.self_eq.symm.trans hcall₂)
        exact absurd hiter (hmoved t₁ call₁ ht₁ hcall₁ hpc₁ hpc₂)
      · rw [h.of_ne ht₁] at hcall₁
        rw [h.of_ne ht₂] at hcall₂
        exact hlocked.distinct t₁ t₂ call₁ call₂ hcall₁ hcall₂ hpc₁ hpc₂ hiter

theorem Locked.step (hlocked : Locked s) (h : StepKind routine src blockSize elemSize t s s') :
    Locked s' := by
  rcases h.replaces_or_advances with ⟨new, todo, hold, hnew, rfl⟩ | ⟨call, call', hadvance⟩
  · exact hlocked.replace hold hnew todo
  · exact hlocked.advance hadvance

end locked

section order

/-- Iteration `iter` has begun, and is past step `p`. -/
structure Past (s : Loop Thread) (iter p : Nat) : Prop where
  begun : iter < s.vars.C.next
  past : ∀ t call, s.calls t = some call → 2 ≤ call.pc → call.thisIter = iter → p < call.pc

/-- A call sets the locks of the ring behind those before it. It sets the input of its
iteration when the last call has written there, and likewise the output; and the place of
the next iteration when the call a turn before has left the ring. -/
structure Ordered (s : Loop Thread) : Prop where
  inputs : ∀ iter, Past s (iter + 1) 3 → Past s iter 9
  outputs : ∀ iter, Past s (iter + 1) 10 → Past s iter 14
  ring : ∀ iter, Past s (iter + 32) 4 → Past s iter 15

theorem Past.mono {iter p q : Nat} (h : Past s iter q) (hle : p ≤ q) : Past s iter p :=
  ⟨h.begun, fun t call hcall hpc hiter => hle.trans_lt (h.past t call hcall hpc hiter)⟩

theorem Locked.past (hlocked : Locked s) {p : Nat} (hcall : s.calls t = some call) (hpc : 3 ≤ call.pc)
    (hp : p < call.pc) : Past s call.thisIter p := by
  refine ⟨hlocked.iter_lt t call hcall hpc, fun t' call' hcall' hpc' hiter => ?_⟩
  obtain rfl := hlocked.distinct t t' call call' hcall hcall' (by omega) hpc' hiter.symm
  obtain rfl := Option.some.inj (hcall.symm.trans hcall')
  exact hp

theorem Past.lt {p : Nat} (h : Past s call.thisIter p) (hcall : s.calls t = some call)
    (hpc : 2 ≤ call.pc) : p < call.pc :=
  h.past t call hcall hpc rfl

theorem Ordered.inputs_below (h : Ordered s) {iter iter' : Nat} (hlt : iter < iter')
    (hpast : Past s iter' 3) : Past s iter 9 := by
  obtain ⟨gap, rfl⟩ := Nat.exists_eq_add_of_le hlt
  induction gap with
  | zero => exact h.inputs iter hpast
  | succ gap ih => exact ih (by omega) ((h.inputs _ hpast).mono (by decide))

theorem Ordered.outputs_below (h : Ordered s) {iter iter' : Nat} (hlt : iter < iter')
    (hpast : Past s iter' 10) : Past s iter 14 := by
  obtain ⟨gap, rfl⟩ := Nat.exists_eq_add_of_le hlt
  induction gap with
  | zero => exact h.outputs iter hpast
  | succ gap ih => exact ih (by omega) ((h.outputs _ hpast).mono (by decide))

theorem Ordered.ring_below (h : Ordered s) {iter iter' : Nat} (hle : iter + 32 ≤ iter')
    (hpast : Past s iter' 4) : Past s iter 15 := by
  apply h.ring
  rcases Nat.eq_or_lt_of_le hle with rfl | hlt
  · exact hpast
  · exact (h.inputs_below hlt (hpast.mono (by decide))).mono (by decide)

theorem Locked.seven_le (hlocked : Locked s) {t' : Thread} (ht : t' ≠ t) (hcall : s.calls t = some call)
    (hcall' : s.calls t' = some call') (hpc : 1 ≤ call.pc ∧ call.pc ≤ 6) (hpc' : 2 ≤ call'.pc) :
    7 ≤ call'.pc := by
  by_contra hlt
  exact ht (hlocked.reader_unique hcall hcall' hpc (by omega))

theorem Locked.holder (hlocked : Locked s) {lock : Lock} (hfree : s.owner lock = none)
    (hcall : s.calls t = some call) : ¬ Holds call.thisIter call.pc lock := by
  intro hholds
  have howner := (hlocked.owner_iff lock t).mpr ⟨call, hcall, hholds⟩
  rw [hfree] at howner
  cases howner

theorem Locked.set_input (hlocked : Locked s) {iter : Nat} (hcall : s.calls t = some call)
    (hpc : call.pc = 3) (hiter : call.thisIter = iter + 1)
    (hfree : s.owner (.inPl (slot (iter + 1))) = none) : Past s iter 9 := by
  have hlt := hlocked.iter_lt t call hcall hpc.ge
  refine ⟨by omega, fun t' call' hcall' hpc' hiter' => ?_⟩
  have ht : t' ≠ t := by
    rintro rfl
    obtain rfl := Option.some.inj (hcall.symm.trans hcall')
    omega
  have hseven := hlocked.seven_le ht hcall hcall' (by omega) hpc'
  by_contra hle
  refine hlocked.holder hfree hcall' (.inr ⟨?_, by omega, by omega⟩)
  rw [hiter']

theorem Locked.set_output (hlocked : Locked s) {iter : Nat} (hpast : Past s iter 9)
    (hfree : s.owner (.outPl (slot (iter + 1))) = none) : Past s iter 14 := by
  refine ⟨hpast.begun, fun t' call' hcall' hpc' hiter' => ?_⟩
  have hnine := hpast.past t' call' hcall' hpc' hiter'
  by_contra hle
  refine hlocked.holder hfree hcall' (.inl ⟨?_, by omega, by omega⟩)
  rw [hiter']

/-- The ring has 33 places, so that the place of the next iteration is that of the one 32
iterations before this one. -/
theorem slot_turn (iter : Nat) : slot (iter + 32 + 1) = slot iter := by
  apply Fin.ext
  show (iter + 32 + 1) % 33 = iter % 33
  omega

theorem Locked.set_ring (hlocked : Locked s) {iter : Nat} (hcall : s.calls t = some call)
    (hpc : call.pc = 4) (hiter : call.thisIter = iter + 32)
    (hfree : s.owner (.inPl (slot (iter + 32 + 1))) = none) : Past s iter 15 := by
  rw [slot_turn] at hfree
  have hlt := hlocked.iter_lt t call hcall (by omega)
  refine ⟨by omega, fun t' call' hcall' hpc' hiter' => ?_⟩
  have ht : t' ≠ t := by
    rintro rfl
    obtain rfl := Option.some.inj (hcall.symm.trans hcall')
    omega
  have hseven := hlocked.seven_le ht hcall hcall' (by omega) hpc'
  by_contra hle
  refine hlocked.holder hfree hcall' (.inl ⟨?_, by omega, by omega⟩)
  rw [hiter']

theorem ordered_start (count : Nat) (out : List UInt8) :
    Ordered (Loop.start count out : Loop Thread) where
  inputs _ h := absurd h.begun (Nat.not_lt_zero _)
  outputs _ h := absurd h.begun (Nat.not_lt_zero _)
  ring _ h := absurd h.begun (Nat.not_lt_zero _)

variable [DecidableEq Thread]

theorem Advance.past_iff (h : Advance routine src blockSize elemSize t call call' s s')
    (hlocked : Locked s) {iter p : Nat} (hp : 2 ≤ p) :
    Past s' iter p ↔ Past s iter p ∨ call.pc = p ∧ call.thisIter = iter := by
  have hpc := h.pc_eq
  constructor
  · intro hpast
    by_cases hthis : call.pc = p ∧ call.thisIter = iter
    · exact .inr hthis
    refine .inl ⟨?_, fun t' call'' hcall'' hpc'' hiter => ?_⟩
    · have hbegun := hpast.begun
      rw [h.chain.next_eq] at hbegun
      split at hbegun
      · have hiter := hlocked.iter_eq t call h.call_eq ‹_›
        by_contra hlast
        have hself := h.iter_eq (by omega)
        have hlt := hpast.past t call' h.self_eq (by omega) (by omega)
        omega
      · exact hbegun
    · by_cases ht : t' = t
      · subst ht
        obtain rfl := Option.some.inj (h.call_eq.symm.trans hcall'')
        have hself := h.iter_eq (by omega)
        have hlt := hpast.past t' call' h.self_eq (by omega) (by omega)
        omega
      · exact hpast.past t' call'' ((h.of_ne ht).trans hcall'') hpc'' hiter
  · rintro (hpast | ⟨rfl, rfl⟩)
    · refine ⟨hpast.begun.trans_le h.next_le, fun t' call'' hcall'' hpc'' hiter => ?_⟩
      by_cases ht : t' = t
      · subst ht
        obtain rfl := Option.some.inj (h.self_eq.symm.trans hcall'')
        by_cases hone : call.pc = 1
        · have hread := h.iter_read hone
          have hbegun := hpast.begun
          omega
        · have hself := h.iter_eq hone
          have hlt := hpast.past t' call h.call_eq (by omega) (by omega)
          omega
      · exact hpast.past t' call'' ((h.of_ne ht).symm.trans hcall'') hpc'' hiter
    · refine ⟨?_, fun t' call'' hcall'' hpc'' hiter => ?_⟩
      · rw [h.chain.next_eq]
        split
        · rw [hlocked.iter_eq t call h.call_eq ‹_›]
          exact Nat.lt_succ_self _
        · exact hlocked.iter_lt t call h.call_eq (by omega)
      · by_cases ht : t' = t
        · subst ht
          obtain rfl := Option.some.inj (h.self_eq.symm.trans hcall'')
          omega
        · rw [h.of_ne ht] at hcall''
          exact absurd (hlocked.distinct t' t call'' call hcall'' h.call_eq hpc'' hp hiter) ht

theorem past_replace {new : Option Call} {todo iter p : Nat} (hp : p ≤ 16)
    (hold : ∀ call, s.calls t = some call → 17 ≤ call.pc) (hnew : ∀ call, new = some call → call.pc = 0) :
    Past { s with calls := Function.update s.calls t new, todo := todo } iter p ↔ Past s iter p := by
  constructor
  · refine fun h => ⟨h.begun, fun t' call hcall hpc hiter => ?_⟩
    by_cases ht : t' = t
    · subst ht
      have hover := hold call hcall
      omega
    · exact h.past t' call ((Function.update_of_ne ht ..).trans hcall) hpc hiter
  · refine fun h => ⟨h.begun, fun t' call hcall hpc hiter => ?_⟩
    by_cases ht : t' = t
    · subst ht
      have hzero := hnew call ((Function.update_self t' new s.calls).symm.trans hcall)
      omega
    · exact h.past t' call ((Function.update_of_ne ht ..).symm.trans hcall) hpc hiter

theorem Advance.set_free (h : Advance routine src blockSize elemSize t call call' s s') {lock : Lock}
    (hcode : codeAt call.thisIter call.pc = .setLock lock) : s.owner lock = none := by
  have hlocks := h.locks
  generalize s'.owner = owner' at hlocks
  cases hlocks with
  | set taken htaken hfree =>
    obtain rfl : lock = taken := Instr.setLock.inj (hcode.symm.trans htaken)
    exact hfree
  | unset given hgiven => cases hcode.symm.trans hgiven
  | other hset _ => exact absurd hcode (hset lock)

theorem Ordered.advance (hordered : Ordered s) (hlocked : Locked s)
    (h : Advance routine src blockSize elemSize t call call' s s') : Ordered s' := by
  have hkept : ∀ {iter p}, 2 ≤ p → Past s iter p → Past s' iter p := fun hp hpast =>
    (h.past_iff hlocked hp).mpr (.inl hpast)
  refine ⟨fun iter hpast => ?_, fun iter hpast => ?_, fun iter hpast => ?_⟩
  · rcases (h.past_iff hlocked (by decide)).mp hpast with hpast | ⟨hpc, hiter⟩
    · exact hkept (by decide) (hordered.inputs iter hpast)
    · refine hkept (by decide) (hlocked.set_input h.call_eq hpc hiter (h.set_free ?_))
      rw [hpc, hiter]
      rfl
  · rcases (h.past_iff hlocked (by decide)).mp hpast with hpast | ⟨hpc, hiter⟩
    · exact hkept (by decide) (hordered.outputs iter hpast)
    · have hbefore : Past s (iter + 1) 3 := hiter ▸ hlocked.past h.call_eq (by omega) (by omega)
      refine hkept (by decide) (hlocked.set_output (hordered.inputs iter hbefore) (h.set_free ?_))
      rw [hpc, hiter]
      rfl
  · rcases (h.past_iff hlocked (by decide)).mp hpast with hpast | ⟨hpc, hiter⟩
    · exact hkept (by decide) (hordered.ring iter hpast)
    · refine hkept (by decide) (hlocked.set_ring h.call_eq hpc hiter (h.set_free ?_))
      rw [hpc, hiter]
      rfl

theorem Ordered.step (hordered : Ordered s) (hlocked : Locked s)
    (h : StepKind routine src blockSize elemSize t s s') : Ordered s' := by
  rcases h.replaces_or_advances with ⟨new, todo, hold, hnew, rfl⟩ | ⟨call, call', hadvance⟩
  · have hpast : ∀ {iter p : Nat}, p ≤ 16 →
        (Past { s with calls := Function.update s.calls t new, todo := todo } iter p ↔ Past s iter p) :=
      fun hp => past_replace hp hold hnew
    exact ⟨fun iter h => (hpast (by decide)).mpr (hordered.inputs iter ((hpast (by decide)).mp h)),
      fun iter h => (hpast (by decide)).mpr (hordered.outputs iter ((hpast (by decide)).mp h)),
      fun iter h => (hpast (by decide)).mpr (hordered.ring iter ((hpast (by decide)).mp h))⟩
  · exact hordered.advance hlocked hadvance

end order

end TonCompress.Shuffle
