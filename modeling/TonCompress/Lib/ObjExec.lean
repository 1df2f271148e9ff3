import TonCompress.Lib.Exec

/-! Runs of the methods of an object. Unlike a local variable, the object is
still there when a run stops, so both outcomes carry its state. -/
namespace TonCompress.Lib

abbrev ObjExec (Site σ : Type) := ExceptT (Stop Site) (StateM σ)

def liftExec {Site σ α : Type} (run : Exec Site α) : ObjExec Site σ α :=
  ExceptT.mk (pure run)

/-- Started on `obj`, `run` returns a value and an object satisfying `post`, or
stops and leaves an object satisfying `stop`. -/
def EndsAt {Site σ α : Type} (run : ObjExec Site σ α) (obj : σ) (post : α → σ → Prop)
    (stop : Stop Site → σ → Prop) : Prop :=
  Ends (run obj).1 (fun value => post value (run obj).2) (fun reason => stop reason (run obj).2)

section rules
variable {Site σ α β : Type} {run : ObjExec Site σ α} {next : α → ObjExec Site σ β}
variable {obj : σ} {post : α → σ → Prop} {stop : Stop Site → σ → Prop}

@[simp] theorem endsAt_pure (value : α) :
    EndsAt (pure value : ObjExec Site σ α) obj post stop ↔ post value obj := Iff.rfl

@[simp] theorem endsAt_throw (reason : Stop Site) :
    EndsAt (throw reason : ObjExec Site σ α) obj post stop ↔ stop reason obj := Iff.rfl

@[simp] theorem endsAt_get {post : σ → σ → Prop} :
    EndsAt (get : ObjExec Site σ σ) obj post stop ↔ post obj obj := Iff.rfl

@[simp] theorem endsAt_modify (change : σ → σ) {post : PUnit → σ → Prop} :
    EndsAt (modify change : ObjExec Site σ PUnit) obj post stop ↔ post ⟨⟩ (change obj) := Iff.rfl

@[simp] theorem endsAt_liftExec (run : Exec Site α) :
    EndsAt (liftExec run : ObjExec Site σ α) obj post stop ↔
      Ends run (fun value => post value obj) (fun reason => stop reason obj) := Iff.rfl

@[simp] theorem endsAt_throw_bind (reason : Stop Site) {post : β → σ → Prop} :
    EndsAt ((throw reason : ObjExec Site σ α) >>= next) obj post stop ↔ stop reason obj := Iff.rfl

@[simp] theorem endsAt_modify_bind (change : σ → σ) {next : PUnit → ObjExec Site σ β}
    {post : β → σ → Prop} :
    EndsAt (modify change >>= next) obj post stop ↔
      EndsAt (next ⟨⟩) (change obj) post stop := Iff.rfl

@[simp] theorem endsAt_get_bind {next : σ → ObjExec Site σ β} {post : β → σ → Prop} :
    EndsAt (get >>= next) obj post stop ↔ EndsAt (next obj) obj post stop := Iff.rfl

theorem endsAt_getThe_bind {next : σ → ObjExec Site σ β} {post : β → σ → Prop} :
    EndsAt (getThe σ >>= next) obj post stop ↔ EndsAt (next obj) obj post stop := Iff.rfl

@[simp] theorem endsAt_liftExec_ok_bind (value : α) {post : β → σ → Prop} :
    EndsAt (liftExec (.ok value) >>= next) obj post stop ↔ EndsAt (next value) obj post stop :=
  Iff.rfl

theorem endsAt_ite {cond : Prop} [Decidable cond] {run' : ObjExec Site σ α} :
    EndsAt (if cond then run else run') obj post stop ↔
      (cond → EndsAt run obj post stop) ∧ (¬ cond → EndsAt run' obj post stop) := by
  split <;> simp_all

theorem run_bind (run : ObjExec Site σ α) (next : α → ObjExec Site σ β) (obj : σ) :
    (run >>= next) obj =
      match run obj with
      | (.ok value, obj) => next value obj
      | (.error reason, obj) => (.error reason, obj) := by
  change (ExceptT.bind run next : ObjExec Site σ β) obj = _
  unfold ExceptT.bind ExceptT.mk
  simp only [bind, StateT.bind, ExceptT.bindCont]
  rcases run obj with ⟨value | reason, obj'⟩ <;> rfl

theorem run_bind_ok {value : α} {obj' : σ} (h : run obj = (.ok value, obj')) :
    (run >>= next) obj = next value obj' := by
  rw [run_bind, h]

theorem run_bind_error {reason : Stop Site} {obj' : σ} (h : run obj = (.error reason, obj')) :
    (run >>= next) obj = (.error reason, obj') := by
  rw [run_bind, h]

theorem run_getThe_bind (next : σ → ObjExec Site σ β) (obj : σ) :
    (getThe σ >>= next) obj = next obj obj := rfl

theorem run_liftExec_ok_bind (value : α) (next : α → ObjExec Site σ β) (obj : σ) :
    (liftExec (.ok value) >>= next) obj = next value obj := rfl

theorem endsAt_bind {post : β → σ → Prop} :
    EndsAt (run >>= next) obj post stop ↔
      EndsAt run obj (fun value obj => EndsAt (next value) obj post stop) stop := by
  unfold EndsAt
  rw [run_bind]
  rcases run obj with ⟨reason | value, obj'⟩ <;> rfl

theorem endsAt_bind_of_ok {value : α} {obj' : σ} (h : run obj = (.ok value, obj'))
    {post : β → σ → Prop} :
    EndsAt (run >>= next) obj post stop ↔ EndsAt (next value) obj' post stop := by
  unfold EndsAt
  rw [run_bind_ok h]

theorem EndsAt.mono {post' : α → σ → Prop} {stop' : Stop Site → σ → Prop}
    (h : EndsAt run obj post stop) (hpost : ∀ value obj, post value obj → post' value obj)
    (hstop : ∀ reason obj, stop reason obj → stop' reason obj) : EndsAt run obj post' stop' :=
  Ends.mono h (fun value => hpost value _) (fun reason => hstop reason _)

theorem EndsAt.bind {post' : β → σ → Prop} (h : EndsAt run obj post stop)
    (hnext : ∀ value obj, post value obj → EndsAt (next value) obj post' stop) :
    EndsAt (run >>= next) obj post' stop :=
  endsAt_bind.mpr (h.mono hnext fun _ _ => id)

theorem EndsAt.seq {post' : β → σ → Prop} (post : α → σ → Prop) (h : EndsAt run obj post stop)
    (hnext : ∀ value obj, post value obj → EndsAt (next value) obj post' stop) :
    EndsAt (run >>= next) obj post' stop :=
  h.bind hnext

theorem EndsAt.of_ok (h : EndsAt run obj post stop) {value : α}
    (hrun : (run obj).1 = .ok value) : post value (run obj).2 :=
  Ends.of_ok h hrun

theorem EndsAt.of_error (h : EndsAt run obj post stop) {reason : Stop Site}
    (hrun : (run obj).1 = .error reason) : stop reason (run obj).2 :=
  Ends.of_error h hrun

theorem EndsAt.always {left : σ → Prop}
    (h : EndsAt run obj (fun _ obj' => left obj') (fun _ obj' => left obj')) :
    left (run obj).2 := by
  cases hrun : (run obj).1 with
  | ok value => exact h.of_ok hrun
  | error reason => exact h.of_error hrun

theorem EndsAt.exists_ok (h : EndsAt run obj post fun _ _ => False) :
    ∃ value obj', run obj = (.ok value, obj') ∧ post value obj' := by
  unfold EndsAt at h
  cases hrun : run obj with
  | mk res obj' =>
    rw [hrun] at h
    cases res with
    | ok value => exact ⟨value, obj', rfl, h⟩
    | error reason => exact h.elim

theorem EndsAt.exists_error (h : EndsAt run obj (fun _ _ => False) stop) :
    ∃ reason, (run obj).1 = .error reason ∧ stop reason (run obj).2 := by
  unfold EndsAt at h
  cases hrun : (run obj).1 with
  | ok value =>
    rw [hrun] at h
    exact h.elim
  | error reason =>
    rw [hrun] at h
    exact ⟨reason, rfl, h⟩

/-- A run is what all its ends say it is. -/
theorem EndsAt.run_eq {res : Except (Stop Site) α × σ}
    (h : EndsAt run obj (fun value obj' => (.ok value, obj') = res)
      (fun reason obj' => (.error reason, obj') = res)) : run obj = res := by
  unfold EndsAt at h
  cases hrun : run obj with
  | mk outcome obj' =>
    rw [hrun] at h
    cases outcome with
    | ok value => exact h
    | error reason => exact h

theorem endsAt_run (run : ObjExec Site σ α) (obj : σ) :
    EndsAt run obj (fun value obj' => (.ok value, obj') = run obj)
      (fun reason obj' => (.error reason, obj') = run obj) := by
  unfold EndsAt
  cases hrun : run obj with
  | mk outcome obj' =>
    cases outcome with
    | ok value => rfl
    | error reason => rfl

end rules

/-- The loop rule: an invariant of the counter, the loop's variables and the object. -/
theorem forRange_endsAt {Site σ τ : Type} (inv : Nat → τ → σ → Prop)
    {stop : Stop Site → σ → Prop} {body : Nat → τ → ObjExec Site σ τ} {lo hi : Nat}
    (hle : lo ≤ hi) {state : τ} {obj : σ} (init : inv lo state obj)
    (step : ∀ i state obj, lo ≤ i → i < hi → inv i state obj →
      EndsAt (body i state) obj (inv (i + 1)) stop) :
    EndsAt (forRange lo hi state body) obj (inv hi) stop := by
  induction hk : hi - lo generalizing lo state obj with
  | zero =>
    obtain rfl : lo = hi := by omega
    simpa using init
  | succ k ih =>
    rw [forRange_succ_left (by omega)]
    refine (step lo state obj le_rfl (by omega) init).bind fun state' obj' hinv => ?_
    exact ih (by omega) hinv (fun i s o hi => step i s o (by omega)) (by omega)

end TonCompress.Lib
