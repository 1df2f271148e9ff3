import TonCompress.Lib.Exec

/-! A sender and a receiver in lock step over a tape. The sender's later steps
decide what the tape holds behind the place where the receiver stands, so what a
tape must satisfy is passed back from the sender's last state to its first. -/
namespace TonCompress.Lib

/-- `Sound` is the sender's invariant. `Leads s tape` says that the sender can
still come to write `tape` from `s` on, and `Synced s tape r` that the receiver
has read from `tape` what the sender had sent up to `s`. -/
structure Channel (S R Tape : Type) where
  Sound : S → Prop
  Leads : S → Tape → Prop
  Synced : S → Tape → R → Prop

section transmits
variable {S R Tape ε α β : Type} (ch : Channel S R Tape)

/-- What `send` sends, `receive` returns as `value`. -/
def Transmits (send : StateT S (Except ε) Unit) (receive : StateT R (Except ε) α)
    (value : α) : Prop :=
  ∀ s, ch.Sound s → ∃ s', send s = .ok ((), s') ∧ ch.Sound s' ∧
    ∀ tape, ch.Leads s' tape → ch.Leads s tape ∧
      ∀ r, ch.Synced s tape r → ∃ r', receive r = .ok (value, r') ∧ ch.Synced s' tape r'

variable {ch} {send send' : StateT S (Except ε) Unit} {receive : StateT R (Except ε) α}
variable {next : α → StateT R (Except ε) β} {value : α} {value' : β}

theorem Transmits.pure (value : α) :
    Transmits ch (Pure.pure () : StateT S (Except ε) Unit) (Pure.pure value) value := by
  intro s hs
  refine ⟨s, rfl, hs, fun tape htape => ⟨htape, fun r hr => ⟨r, rfl, hr⟩⟩⟩

theorem Transmits.bind (h : Transmits ch send receive value)
    (h' : Transmits ch send' (next value) value') :
    Transmits ch (send >>= fun _ => send') (receive >>= next) value' := by
  intro s hs
  obtain ⟨s₁, hsend, hs₁, hback⟩ := h s hs
  obtain ⟨s₂, hsend', hs₂, hback'⟩ := h' s₁ hs₁
  refine ⟨s₂, (bind_of_ok hsend _).trans hsend', hs₂, ?_⟩
  intro tape htape
  obtain ⟨htape₁, hreceive'⟩ := hback' tape htape
  obtain ⟨htape₀, hreceive⟩ := hback tape htape₁
  refine ⟨htape₀, ?_⟩
  intro r hr
  obtain ⟨r₁, hrun, hr₁⟩ := hreceive r hr
  obtain ⟨r₂, hrun', hr₂⟩ := hreceive' r₁ hr₁
  exact ⟨r₂, (bind_of_ok hrun next).trans hrun', hr₂⟩

theorem Transmits.finish (h : Transmits ch send receive value)
    (hvalue : next value = Pure.pure value') : Transmits ch send (receive >>= next) value' := by
  have hsend : send = send >>= fun _ => (Pure.pure () : StateT S (Except ε) Unit) :=
    (bind_pure send).symm
  rw [hsend]
  apply h.bind
  rw [hvalue]
  exact .pure value'

theorem Transmits.map (h : Transmits ch send receive value) (f : α → β) :
    Transmits ch send (receive >>= fun a => Pure.pure (f a)) (f value) :=
  h.finish rfl

end transmits

section forwards
variable {S R Tape ε α β : Type} (ch : Channel S R Tape)

/-- `Transmits` for a sender that may stop: what it sends without stopping is received. -/
def Forwards (send : S → Except ε S) (receive : StateT R (Except ε) α) (value : α) : Prop :=
  ∀ s s', ch.Sound s → send s = .ok s' → ch.Sound s' ∧
    ∀ tape, ch.Leads s' tape → ch.Leads s tape ∧
      ∀ r, ch.Synced s tape r → ∃ r', receive r = .ok (value, r') ∧ ch.Synced s' tape r'

variable {ch} {send send' : S → Except ε S} {receive : StateT R (Except ε) α}
variable {next : α → StateT R (Except ε) β} {value : α} {value' : β}

theorem Forwards.pure (value : α) :
    Forwards ch (.ok : S → Except ε S) (Pure.pure value) value := by
  intro s s' hs hsend
  obtain rfl := Except.ok.inj hsend
  exact ⟨hs, fun tape htape => ⟨htape, fun r hr => ⟨r, rfl, hr⟩⟩⟩

theorem Forwards.bind (h : Forwards ch send receive value)
    (h' : Forwards ch send' (next value) value') :
    Forwards ch (fun s => send s >>= send') (receive >>= next) value' := by
  intro s s₂ hs hrun
  obtain ⟨s₁, hsend, hsend'⟩ := bind_eq_ok.mp hrun
  obtain ⟨hs₁, hback⟩ := h s s₁ hs hsend
  obtain ⟨hs₂, hback'⟩ := h' s₁ s₂ hs₁ hsend'
  refine ⟨hs₂, fun tape htape => ?_⟩
  obtain ⟨htape₁, hreceive'⟩ := hback' tape htape
  obtain ⟨htape₀, hreceive⟩ := hback tape htape₁
  refine ⟨htape₀, fun r hr => ?_⟩
  obtain ⟨r₁, hrun, hr₁⟩ := hreceive r hr
  obtain ⟨r₂, hrun', hr₂⟩ := hreceive' r₁ hr₁
  exact ⟨r₂, (bind_of_ok hrun next).trans hrun', hr₂⟩

theorem Forwards.map (h : Forwards ch send receive value) (f : α → β) :
    Forwards ch send (receive >>= fun a => Pure.pure (f a)) (f value) := by
  have hsend : send = fun s => send s >>= .ok := funext fun s => (bind_pure (send s)).symm
  rw [hsend]
  exact h.bind (.pure (f value))

end forwards

section carries
variable {S R Tape ι κ α β : Type} (ch : Channel S R Tape)

/-- `Transmits` for steps that cannot fail. -/
def Carries (send : S → S) (receive : R → α × R) (value : α) : Prop :=
  ∀ s, ch.Sound s → ch.Sound (send s) ∧ ∀ tape, ch.Leads (send s) tape → ch.Leads s tape ∧
    ∀ r, ch.Synced s tape r → ∃ r', receive r = (value, r') ∧ ch.Synced (send s) tape r'

def sendAll (send : ι → S → S) : List ι → S → S
  | [], s => s
  | i :: rest, s => sendAll send rest (send i s)

def receiveAll (receive : κ → R → α × R) : List κ → R → List α × R
  | [], r => ([], r)
  | k :: rest, r =>
      let (first, r) := receive k r
      let (others, r) := receiveAll receive rest r
      (first :: others, r)

variable {ch}

theorem sendAll_append (send : ι → S → S) (l l' : List ι) (s : S) :
    sendAll send (l ++ l') s = sendAll send l' (sendAll send l s) := by
  induction l generalizing s with
  | nil => rfl
  | cons i rest ih => exact ih (send i s)

theorem Carries.refl (value : α) : Carries ch (fun s => s) (fun r => (value, r)) value :=
  fun _ hs => ⟨hs, fun _ htape => ⟨htape, fun r hr => ⟨r, rfl, hr⟩⟩⟩

theorem Carries.comp {send send' : S → S} {receive : R → α × R} {receive' : α → R → β × R}
    {value : α} {value' : β} (h : Carries ch send receive value)
    (h' : Carries ch send' (receive' value) value') :
    Carries ch (fun s => send' (send s)) (fun r => receive' (receive r).1 (receive r).2) value' := by
  intro s hs
  obtain ⟨hs₁, hback⟩ := h s hs
  obtain ⟨hs₂, hback'⟩ := h' (send s) hs₁
  refine ⟨hs₂, ?_⟩
  intro tape htape
  obtain ⟨htape₁, hreceive'⟩ := hback' tape htape
  obtain ⟨htape₀, hreceive⟩ := hback tape htape₁
  refine ⟨htape₀, ?_⟩
  intro r hr
  obtain ⟨r₁, hrun, hr₁⟩ := hreceive r hr
  obtain ⟨r₂, hrun', hr₂⟩ := hreceive' r₁ hr₁
  refine ⟨r₂, ?_, hr₂⟩
  dsimp only
  rw [hrun, hrun']

theorem Carries.map {send : S → S} {receive : R → α × R} {value : α}
    (h : Carries ch send receive value) (f : α → β) :
    Carries ch send (fun r => (f (receive r).1, (receive r).2)) (f value) :=
  @Carries.comp S R Tape α β ch send (fun s => s) receive (fun a r => (f a, r)) value (f value) h
    (.refl (f value))

theorem Carries.all {send : ι → S → S} {receive : κ → R → α × R} {request : ι → κ}
    {value : ι → α} (h : ∀ i, Carries ch (send i) (receive (request i)) (value i))
    (l : List ι) :
    Carries ch (sendAll send l) (receiveAll receive (l.map request)) (l.map value) := by
  induction l with
  | nil => exact .refl []
  | cons i rest ih =>
    exact @Carries.comp S R Tape α (List α) ch (send i) (sendAll send rest) (receive (request i))
      (fun first r => (first :: (receiveAll receive (rest.map request) r).1,
        (receiveAll receive (rest.map request) r).2)) (value i) (value i :: rest.map value) (h i)
      (ih.map fun others => value i :: others)

/-- A tape that the sender's last state leads to serves the receiver up to any
state before. -/
theorem Carries.split {send : ι → S → S} {receive : κ → R → α × R} {request : ι → κ}
    {value : ι → α} (h : ∀ i, Carries ch (send i) (receive (request i)) (value i))
    (done rest : List ι) {s : S} (hs : ch.Sound s) {tape : Tape}
    (htape : ch.Leads (sendAll send (done ++ rest) s) tape) {r : R}
    (hr : ch.Leads s tape → ch.Synced s tape r) :
    ch.Sound (sendAll send done s) ∧ ch.Leads (sendAll send done s) tape ∧
      ∃ r', receiveAll receive (done.map request) r = (done.map value, r') ∧
        ch.Synced (sendAll send done s) tape r' := by
  obtain ⟨hdone, hback⟩ := Carries.all h done s hs
  obtain ⟨-, hback'⟩ := Carries.all h rest _ hdone
  rw [sendAll_append] at htape
  obtain ⟨hmid, -⟩ := hback' tape htape
  obtain ⟨hstart, hreceive⟩ := hback tape hmid
  exact ⟨hdone, hmid, hreceive r (hr hstart)⟩

end carries

end TonCompress.Lib
