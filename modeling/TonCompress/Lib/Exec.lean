import Mathlib.Data.List.Basic
import Mathlib.Data.List.Range
import Mathlib.Data.List.OfFn
import Mathlib.Logic.Function.Basic

/-! Runs of partial imperative code. A run returns a value or stops: with an
error status handed to the caller, by aborting the process, or at an access
the language leaves undefined. The rules below are the postcondition calculus of such runs. -/
namespace TonCompress.Lib

/-- The ways a run can stop short of a value. `Site` names the arrays of the
program, so that a result can say which access went out of range;
`uninitialised` is the use of a variable never set, `outOfFuel` a loop still
running when its model's fuel is spent. -/
inductive Stop (Site : Type) where
  | status (message : String)
  | abort
  | outOfRange (site : Site)
  | uninitialised
  | outOfFuel
  deriving DecidableEq, Repr

abbrev Exec (Site : Type) := Except (Stop Site)

/-- `run` returns a value satisfying `post` or stops with a reason satisfying
`stop`. -/
def Ends (run : Except ε α) (post : α → Prop) (stop : ε → Prop) : Prop :=
  match run with
  | .ok value => post value
  | .error reason => stop reason

/-- Total correctness: `run` returns, and its value satisfies `post`. -/
abbrev Returns (run : Except ε α) (post : α → Prop) : Prop :=
  Ends run post fun _ => False

section rules
variable {ε α β : Type} {run : Except ε α} {next : α → Except ε β}
variable {post : α → Prop} {stop : ε → Prop}

@[simp] theorem ends_ok (value : α) :
    Ends (.ok value : Except ε α) post stop ↔ post value := Iff.rfl

@[simp] theorem ends_error (reason : ε) :
    Ends (.error reason : Except ε α) post stop ↔ stop reason := Iff.rfl

@[simp] theorem ends_pure (value : α) :
    Ends (pure value : Except ε α) post stop ↔ post value := Iff.rfl

@[simp] theorem ends_throw (reason : ε) :
    Ends (throw reason : Except ε α) post stop ↔ stop reason := Iff.rfl

@[simp] theorem ends_throw_bind (reason : ε) {post : β → Prop} :
    Ends ((throw reason : Except ε α) >>= next) post stop ↔ stop reason := Iff.rfl

@[simp] theorem ends_ok_bind (value : α) {post : β → Prop} :
    Ends ((.ok value : Except ε α) >>= next) post stop ↔ Ends (next value) post stop := Iff.rfl

theorem ends_bind {post : β → Prop} :
    Ends (run >>= next) post stop ↔
      Ends run (fun value => Ends (next value) post stop) stop := by
  cases run <;> rfl

theorem ends_ite {cond : Prop} [Decidable cond] {run' : Except ε α} :
    Ends (if cond then run else run') post stop ↔
      (cond → Ends run post stop) ∧ (¬ cond → Ends run' post stop) := by
  split <;> simp_all

theorem Ends.mono {post' : α → Prop} {stop' : ε → Prop} (h : Ends run post stop)
    (hpost : ∀ value, post value → post' value)
    (hstop : ∀ reason, stop reason → stop' reason) : Ends run post' stop' := by
  cases run with
  | ok value => exact hpost value h
  | error reason => exact hstop reason h

theorem Ends.bind {post' : β → Prop} (h : Ends run post stop)
    (hnext : ∀ value, post value → Ends (next value) post' stop) :
    Ends (run >>= next) post' stop :=
  ends_bind.mpr (h.mono hnext fun _ => id)

theorem Ends.seq {post' : β → Prop} (post : α → Prop) (h : Ends run post stop)
    (hnext : ∀ value, post value → Ends (next value) post' stop) :
    Ends (run >>= next) post' stop :=
  h.bind hnext

theorem Ends.and {post' : α → Prop} {stop' : ε → Prop} (h : Ends run post stop)
    (h' : Ends run post' stop') :
    Ends run (fun value => post value ∧ post' value)
      (fun reason => stop reason ∧ stop' reason) := by
  cases run <;> exact ⟨h, h'⟩

theorem returns_iff : Returns run post ↔ ∃ value, run = .ok value ∧ post value := by
  cases run <;> simp

theorem returns_eq_iff {value : α} : Returns run (· = value) ↔ run = .ok value := by
  cases run <;> simp

theorem ok_bind (value : α) : (.ok value : Except ε α) >>= next = next value := rfl

theorem bind_eq_ok {value : β} :
    run >>= next = .ok value ↔ ∃ first, run = .ok first ∧ next first = .ok value := by
  cases run <;> simp [bind, Except.bind]

theorem pure_eq_ok {value value' : α} :
    (pure value : Except ε α) = .ok value' ↔ value = value' :=
  ⟨Except.ok.inj, congrArg Except.ok⟩

theorem ends_true (run : Except ε α) : Ends run (fun _ => True) fun _ => True := by
  cases run <;> trivial

theorem ends_eq (run : Except ε α) : Ends run (fun value => run = .ok value) fun _ => True := by
  cases run <;> trivial

theorem Ends.of_ok (h : Ends run post stop) {value : α} (hrun : run = .ok value) :
    post value := by
  simpa [hrun] using h

theorem Ends.of_error (h : Ends run post stop) {reason : ε} (hrun : run = .error reason) :
    stop reason := by
  simpa [hrun] using h

end rules

section vectors
variable {Site α : Type}

/-- `v[i]` of a `std::vector`, for the signed index the code computes. -/
def vecGet (site : Site) (v : List α) (i : Int) : Exec Site α :=
  if 0 ≤ i then
    match v[i.toNat]? with
    | some value => .ok value
    | none => .error (.outOfRange site)
  else .error (.outOfRange site)

def vecSet (site : Site) (v : List α) (i : Int) (value : α) : Exec Site (List α) :=
  if 0 ≤ i ∧ i.toNat < v.length then .ok (v.set i.toNat value)
  else .error (.outOfRange site)

theorem vecGet_natCast (site : Site) (v : List α) (i : Nat) (h : i < v.length) :
    vecGet site v i = .ok v[i] := by
  simp [vecGet, h]

theorem vecGet_of_eq (site : Site) (v : List α) (i : Nat) (value : α)
    (h : v[i]? = some value) : vecGet site v i = .ok value := by
  simp [vecGet, h]

theorem vecGet_error (site : Site) (v : List α) (i : Int)
    (h : ¬ (0 ≤ i ∧ i < v.length)) : vecGet site v i = .error (.outOfRange site) := by
  unfold vecGet
  split
  · rename_i hi
    have hlen : v.length ≤ i.toNat := by omega
    rw [List.getElem?_eq_none hlen]
  · rfl

theorem vecSet_natCast (site : Site) (v : List α) (i : Nat) (value : α)
    (h : i < v.length) : vecSet site v i value = .ok (v.set i value) := by
  simp [vecSet, h]

@[simp] theorem vecGet_ofFn (site : Site) {n : Nat} (f : Fin n → α) (i : Fin n) :
    vecGet site (List.ofFn f) (i.val : Int) = .ok (f i) := by
  simp [vecGet]

theorem vecGet_ofFn_of_lt (site : Site) {n : Nat} (f : Fin n → α) {i : Nat} (h : i < n) :
    vecGet site (List.ofFn f) (i : Int) = .ok (f ⟨i, h⟩) :=
  vecGet_ofFn site f ⟨i, h⟩

theorem set_ofFn {n : Nat} (f : Fin n → α) (i : Fin n) (value : α) :
    (List.ofFn f).set i value = List.ofFn (Function.update f i value) := by
  apply List.ext_getElem (by simp)
  intro j hj _
  simp only [List.length_set, List.length_ofFn] at hj
  rw [List.getElem_set]
  by_cases hij : i.val = j
  · subst hij
    simp
  · have hne : (⟨j, hj⟩ : Fin n) ≠ i := fun h => hij (congrArg Fin.val h).symm
    simp [hij, Function.update_of_ne hne]

@[simp] theorem vecSet_ofFn (site : Site) {n : Nat} (f : Fin n → α) (i : Fin n) (value : α) :
    vecSet site (List.ofFn f) (i.val : Int) value = .ok (List.ofFn (Function.update f i value)) := by
  rw [vecSet_natCast _ _ _ _ (by simp), set_ofFn]

theorem vecSet_ofFn_of_lt (site : Site) {n : Nat} (f : Fin n → α) {i : Nat} (h : i < n)
    (value : α) :
    vecSet site (List.ofFn f) (i : Int) value = .ok (List.ofFn (Function.update f ⟨i, h⟩ value)) :=
  vecSet_ofFn site f ⟨i, h⟩ value

theorem update_ite {ι : Type} [DecidableEq ι] {p q : ι → Prop} [DecidablePred p]
    [DecidablePred q] {i : ι} {value : α} {f d : ι → α}
    (hq : ∀ j, q j ↔ p j ∨ j = i) (hvalue : value = f i) :
    Function.update (fun j => if p j then f j else d j) i value =
      fun j => if q j then f j else d j := by
  subst hvalue
  funext j
  by_cases hj : j = i
  · subst hj
    simp [hq]
  · simp [hq, hj]

end vectors

section loops
variable {ε σ : Type}

/-- `for (int i = lo; i < hi; i++) body(i)`, threading the loop's variables. -/
def forRange {m : Type → Type} [Monad m] (lo hi : Nat) (state : σ) (body : Nat → σ → m σ) :
    m σ :=
  (List.range' lo (hi - lo)).foldlM (fun state i => body i state) state

@[simp] theorem forRange_self {m : Type → Type} [Monad m] (lo : Nat) (state : σ)
    (body : Nat → σ → m σ) : forRange lo lo state body = pure state := by
  simp [forRange]

theorem forRange_succ_left {m : Type → Type} [Monad m] {lo hi : Nat} (h : lo < hi) (state : σ)
    (body : Nat → σ → m σ) :
    forRange lo hi state body = body lo state >>= fun state' =>
      forRange (lo + 1) hi state' body := by
  obtain ⟨k, rfl⟩ : ∃ k, hi = lo + 1 + k := ⟨hi - lo - 1, by omega⟩
  unfold forRange
  rw [show lo + 1 + k - lo = k + 1 by omega, List.range'_succ, List.foldlM_cons,
    show lo + 1 + k - (lo + 1) = k by omega]

/-- The loop rule: an invariant indexed by the loop counter. -/
theorem forRange_ends (inv : Nat → σ → Prop) {stop : ε → Prop}
    {body : Nat → σ → Except ε σ} {lo hi : Nat} (hle : lo ≤ hi) {state : σ}
    (init : inv lo state)
    (step : ∀ i state, lo ≤ i → i < hi → inv i state →
      Ends (body i state) (inv (i + 1)) stop) :
    Ends (forRange lo hi state body) (inv hi) stop := by
  induction hk : hi - lo generalizing lo state with
  | zero =>
    obtain rfl : lo = hi := by omega
    simpa using init
  | succ k ih =>
    rw [forRange_succ_left (by omega)]
    refine (step lo state le_rfl (by omega) init).bind fun state' hinv => ?_
    exact ih (by omega) hinv (fun i s hi => step i s (by omega)) (by omega)

theorem forRange_congr {m : Type → Type} [Monad m] {body body' : Nat → σ → m σ} {lo hi : Nat}
    (hle : lo ≤ hi) {state : σ}
    (h : ∀ i, lo ≤ i → i < hi → ∀ state, body i state = body' i state) :
    forRange lo hi state body = forRange lo hi state body' := by
  induction hk : hi - lo generalizing lo state with
  | zero =>
    obtain rfl : lo = hi := by omega
    rw [forRange_self, forRange_self]
  | succ k ih =>
    rw [forRange_succ_left (by omega), forRange_succ_left (by omega), h lo le_rfl (by omega)]
    congr 1
    funext state'
    exact ih (by omega) (fun i hlo => h i (by omega)) (by omega)

theorem forRange_modify {Site α : Type} {n : Nat} (f g : Fin n → α)
    {body : Nat → List α → Exec Site (List α)}
    (step : ∀ (i : Fin n) (v : Fin n → α), v i = f i →
      body i.val (List.ofFn v) = .ok (List.ofFn (Function.update v i (g i)))) :
    forRange 0 n (List.ofFn f) body = .ok (List.ofFn g) := by
  let upTo : Nat → Fin n → α := fun i j => if j.val < i then g j else f j
  have hloop : Returns (forRange 0 n (List.ofFn f) body) fun v => v = List.ofFn (upTo n) := by
    apply forRange_ends (fun i v => v = List.ofFn (upTo i)) (Nat.zero_le n)
    · simp [upTo]
    · rintro i _ - hi rfl
      have hnext : Function.update (upTo i) ⟨i, hi⟩ (g ⟨i, hi⟩) = upTo (i + 1) := by
        apply update_ite
        · intro j
          rw [Fin.ext_iff]
          exact Nat.lt_succ_iff_lt_or_eq
        · rfl
      rw [step ⟨i, hi⟩ (upTo i) (by simp [upTo]), hnext]
      rfl
  have hlast : upTo n = g := by
    funext j
    simp [upTo]
  rw [← hlast]
  exact returns_eq_iff.mp hloop

/-- `for (auto x : list) body(x)`, threading the loop's variables. -/
def forEach (list : List α) (state : σ) (body : α → σ → Except ε σ) : Except ε σ :=
  list.foldlM (fun state x => body x state) state

@[simp] theorem forEach_nil (state : σ) (body : α → σ → Except ε σ) :
    forEach [] state body = .ok state := rfl

@[simp] theorem forEach_cons (x : α) (list : List α) (state : σ)
    (body : α → σ → Except ε σ) :
    forEach (x :: list) state body = body x state >>= fun state' =>
      forEach list state' body := by
  simp [forEach]

theorem forEach_congr {α : Type} {list : List α} {state : σ} {body body' : α → σ → Except ε σ}
    (h : ∀ x ∈ list, ∀ state, body x state = body' x state) :
    forEach list state body = forEach list state body' := by
  induction list generalizing state with
  | nil => rfl
  | cons x list ih =>
    rw [forEach_cons, forEach_cons, h x List.mem_cons_self]
    congr 1
    funext state'
    exact ih fun y hy => h y (List.mem_cons_of_mem _ hy)

/-- The loop rule over a list: the invariant speaks of the elements done and
the elements left. -/
theorem forEach_ends (inv : List α → List α → σ → Prop) (done : List α) {stop : ε → Prop}
    {body : α → σ → Except ε σ} {list : List α} {state : σ}
    (init : inv done list state)
    (step : ∀ done x rest state, inv done (x :: rest) state →
      Ends (body x state) (inv (done ++ [x]) rest) stop) :
    Ends (forEach list state body) (inv (done ++ list) []) stop := by
  induction list generalizing done state with
  | nil => simpa using init
  | cons x rest ih =>
    rw [forEach_cons]
    refine (step done x rest state init).bind fun state' hinv => ?_
    simpa using ih (done ++ [x]) hinv

end loops

section states
variable {S ε α β : Type}

theorem bind_of_ok {run : StateT S (Except ε) α} {s s' : S} {value : α}
    (h : run s = .ok (value, s')) (next : α → StateT S (Except ε) β) :
    (run >>= next) s = next value s' := by
  change run s >>= (fun out => next out.1 out.2) = _
  rw [h]
  rfl

/-- A computation on a state that returns from any state, with a value satisfying
`post`. -/
def Yields (run : StateT S (Except ε) α) (post : α → Prop) : Prop :=
  ∀ s, Returns (run s) fun out => post out.1

theorem Yields.pure {post : α → Prop} {value : α} (h : post value) :
    Yields (Pure.pure value : StateT S (Except ε) α) post :=
  fun _ => h

theorem Yields.bind {run : StateT S (Except ε) α} {next : α → StateT S (Except ε) β}
    {post : α → Prop} {post' : β → Prop} (h : Yields run post)
    (hnext : ∀ value, post value → Yields (next value) post') : Yields (run >>= next) post' :=
  fun s => (h s).bind fun out hout => hnext out.1 hout out.2

theorem Yields.mono {run : StateT S (Except ε) α} {post post' : α → Prop} (h : Yields run post)
    (himp : ∀ value, post value → post' value) : Yields run post' :=
  fun s => (h s).mono (fun out => himp out.1) fun _ => id

end states

end TonCompress.Lib
