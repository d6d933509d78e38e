import Mathlib.Logic.Basic

/-!
# Postconditions of programs that may stop

A program over a state is a function that either returns a result and a new
state or stops with an error. `Ensures ok c s Q` says that from the state `s`
the program `c` either returns with `Q`, or stops with an error that `ok`
admits. With the errors that the environment is to answer for admitted and no
others, it says that the program does not fail by itself.

The rules are equations, one for each way to build a program, so that rewriting
with them runs a program symbolically; `Ensures.mono` and `Ensures.bind` use
what is known of a part.
-/

namespace Triple

variable {σ ε α β : Type}

/-- **From `s` the program returns with `Q`, or stops with an admitted error.** -/
def Ensures (ok : ε → Prop) (c : StateT σ (Except ε) α) (s : σ) (Q : α → σ → Prop) : Prop :=
  match c s with
  | .ok (a, s') => Q a s'
  | .error e => ok e

variable {ok : ε → Prop} {c : StateT σ (Except ε) α} {s s' : σ} {Q R : α → σ → Prop}

theorem Ensures.of_eq_ok {a : α} (h : c s = .ok (a, s')) :
    Ensures ok c s Q ↔ Q a s' := by
  unfold Ensures
  rw [h]

theorem Ensures.of_eq_error {e : ε} (h : c s = .error e) : Ensures ok c s Q ↔ ok e := by
  unfold Ensures
  rw [h]

/-- What a program ensures holds of every result it returns. -/
theorem Ensures.of_ok (h : Ensures ok c s Q) {a : α} (hc : c s = .ok (a, s')) : Q a s' :=
  (Ensures.of_eq_ok hc).mp h

/-- The consequence rule. -/
theorem Ensures.mono (h : Ensures ok c s Q) (hQ : ∀ a s', Q a s' → R a s') :
    Ensures ok c s R := by
  unfold Ensures at *
  cases hc : c s with
  | ok r => rw [hc] at h; exact hQ _ _ h
  | error e => rw [hc] at h; exact h

/-- A program that is not stopped with an admitted error returns. -/
theorem Ensures.exists_ok (h : Ensures ok c s Q) (hno : ∀ e, ok e → c s ≠ .error e) :
    ∃ a s', c s = .ok (a, s') ∧ Q a s' := by
  cases hc : c s with
  | ok r => exact ⟨r.1, r.2, rfl, h.of_ok hc⟩
  | error e => exact absurd hc (hno e ((Ensures.of_eq_error hc).mp h))

/-- More errors are admitted. -/
theorem Ensures.weaken {ok' : ε → Prop} (h : Ensures ok c s Q) (hok : ∀ e, ok e → ok' e) :
    Ensures ok' c s Q := by
  unfold Ensures at *
  cases hc : c s with
  | ok r => rw [hc] at h; exact h
  | error e => rw [hc] at h; exact hok e h

theorem Ensures.trivial : Ensures (fun _ => True) c s fun _ _ => True := by
  unfold Ensures
  cases c s <;> exact True.intro

/-! ## The rules -/

@[simp] theorem ensures_pure (a : α) : Ensures ok (pure a) s Q ↔ Q a s := Iff.rfl

@[simp] theorem ensures_throw (e : ε) :
    Ensures ok (throw e : StateT σ (Except ε) α) s Q ↔ ok e := Iff.rfl

@[simp] theorem ensures_get {Q : σ → σ → Prop} :
    Ensures ok (get : StateT σ (Except ε) σ) s Q ↔ Q s s := Iff.rfl

@[simp] theorem ensures_set {Q : PUnit → σ → Prop} (t : σ) :
    Ensures ok (set t : StateT σ (Except ε) PUnit) s Q ↔ Q ⟨⟩ t := Iff.rfl

@[simp] theorem ensures_modify {Q : PUnit → σ → Prop} (f : σ → σ) :
    Ensures ok (modify f : StateT σ (Except ε) PUnit) s Q ↔ Q ⟨⟩ (f s) := Iff.rfl

/-- The rule for a sequence. -/
@[simp] theorem ensures_bind (f : α → StateT σ (Except ε) β) {Q : β → σ → Prop} :
    Ensures ok (c >>= f) s Q ↔ Ensures ok c s fun a s' => Ensures ok (f a) s' Q := by
  unfold Ensures
  show (match (c s >>= fun p => f p.1 p.2 : Except ε (β × σ)) with
    | .ok (a, s') => Q a s'
    | .error e => ok e) ↔ _
  cases c s <;> rfl

@[simp] theorem ensures_map (f : α → β) {Q : β → σ → Prop} :
    Ensures ok (f <$> c) s Q ↔ Ensures ok c s fun a s' => Q (f a) s' := by
  unfold Ensures
  show (match (c s >>= fun p => .ok (f p.1, p.2) : Except ε (β × σ)) with
    | .ok (a, s') => Q a s'
    | .error e => ok e) ↔ _
  cases c s <;> rfl

/-- A sequence, from what is known of its first part. -/
theorem Ensures.bind (h : Ensures ok c s R) {f : α → StateT σ (Except ε) β} {Q : β → σ → Prop}
    (hf : ∀ a s', R a s' → Ensures ok (f a) s' Q) : Ensures ok (c >>= f) s Q :=
  (ensures_bind f).mpr (h.mono hf)

/-- A sequence of whose first part nothing is needed. -/
theorem ensures_bind_of_forall {f : α → StateT σ (Except ε) β} {Q : β → σ → Prop}
    (hf : ∀ a s', Ensures (fun _ => True) (f a) s' Q) : Ensures (fun _ => True) (c >>= f) s Q :=
  Ensures.trivial.bind fun a s' _ => hf a s'

theorem exists_of_isOk (h : (c s).isOk = true) : ∃ a s', c s = .ok (a, s') := by
  cases hc : c s with
  | ok r => exact ⟨r.1, r.2, rfl⟩
  | error e =>
    rw [hc] at h
    cases h

/-- A program that has been run, and what has been checked of its result. -/
theorem exists_of_check {check : α → σ → Bool}
    (h : (match c s with
      | .ok (a, s') => check a s'
      | .error _ => false) = true) : ∃ a s', c s = .ok (a, s') ∧ check a s' = true := by
  cases hc : c s with
  | ok r =>
    rw [hc] at h
    exact ⟨r.1, r.2, rfl, h⟩
  | error e =>
    rw [hc] at h
    cases h

theorem ne_error_of_isOk (h : (c s).isOk = true) {e : ε} : c s ≠ .error e := fun hc => by
  rw [hc] at h
  cases h

/-- A sequence goes on where its first part has returned. -/
theorem bind_eq_of_ok {a : α} (h : c s = .ok (a, s')) (f : α → StateT σ (Except ε) β) :
    (c >>= f) s = f a s' := by
  show (c s >>= fun p => f p.1 p.2 : Except ε (β × σ)) = _
  rw [h]
  rfl

/-- A sequence that returns has returned from its first part. -/
theorem exists_of_bind_eq_ok {f : α → StateT σ (Except ε) β} {b : β}
    (h : (c >>= f) s = .ok (b, s')) : ∃ a t, c s = .ok (a, t) ∧ f a t = .ok (b, s') := by
  change (c s >>= fun p => f p.1 p.2 : Except ε (β × σ)) = .ok (b, s') at h
  cases hc : c s with
  | ok r =>
    rw [hc] at h
    exact ⟨r.1, r.2, rfl, h⟩
  | error e =>
    rw [hc] at h
    cases h

/-! ## What a program leaves alone -/

variable {γ : Type} {f : σ → γ}

/-- **A part of the state is the same when the program returns.** -/
def Keeps (f : σ → γ) (c : StateT σ (Except ε) α) : Prop :=
  ∀ s, Ensures (fun _ => True) c s fun _ s' => f s' = f s

theorem keeps_pure (a : α) : Keeps f (pure a : StateT σ (Except ε) α) := fun _ => rfl

theorem keeps_throw (e : ε) : Keeps f (throw e : StateT σ (Except ε) α) := fun _ => trivial

theorem keeps_get : Keeps f (get : StateT σ (Except ε) σ) := fun _ => rfl

theorem keeps_ite {c d : StateT σ (Except ε) α} (p : Prop) [Decidable p] (hc : Keeps f c)
    (hd : Keeps f d) : Keeps f (if p then c else d) := by
  split
  · exact hc
  · exact hd

theorem Keeps.bind {c : StateT σ (Except ε) α} {g : α → StateT σ (Except ε) β} (hc : Keeps f c)
    (hg : ∀ a, Keeps f (g a)) : Keeps f (c >>= g) := fun s =>
  (hc s).bind fun a s' hs => (hg a s').mono fun _ _ hs' => hs'.trans hs

/-- A program that leaves the whole state alone leaves every part of it alone. -/
theorem Keeps.of_id {c : StateT σ (Except ε) α} (hc : Keeps id c) : Keeps f c := fun s =>
  (hc s).mono fun _ _ hs => congrArg f hs

/-- A program that leaves the state alone, whatever it returns. -/
theorem ensures_of_keeps {c : StateT σ (Except ε) α} (hc : Keeps id c) {Q : α → σ → Prop}
    (h : ∀ a, Q a s) : Ensures (fun _ => True) c s Q :=
  (hc s).mono fun a s' hs => by
    obtain rfl : s' = s := hs
    exact h a

/-- **An invariant of the program.** -/
def Maintains (P : σ → Prop) (c : StateT σ (Except ε) α) : Prop :=
  ∀ s, P s → Ensures (fun _ => True) c s fun _ s' => P s'

variable {P : σ → Prop}

theorem maintains_pure (a : α) : Maintains P (pure a : StateT σ (Except ε) α) := fun _ hs => hs

theorem maintains_ite {c d : StateT σ (Except ε) α} (p : Prop) [Decidable p] (hc : Maintains P c)
    (hd : Maintains P d) : Maintains P (if p then c else d) := by
  split
  · exact hc
  · exact hd

theorem Maintains.bind {c : StateT σ (Except ε) α} {g : α → StateT σ (Except ε) β}
    (hc : Maintains P c) (hg : ∀ a, Maintains P (g a)) : Maintains P (c >>= g) := fun s hs =>
  (hc s hs).bind fun a s' hs' => hg a s' hs'

/-- A part of the state that is left alone keeps its properties. -/
theorem Keeps.maintains {c : StateT σ (Except ε) α} (hc : Keeps f c) (p : γ → Prop) :
    Maintains (fun s => p (f s)) c := fun s hs =>
  (hc s).mono fun _ s' hs' => show p (f s') from hs'.symm ▸ hs

/-- **The program does not return.** -/
def Never (c : StateT σ (Except ε) α) (s : σ) : Prop :=
  Ensures (fun _ => True) c s fun _ _ => False

/-- A sequence does not return when its second part does not, from any state that
has the value of what the first part leaves alone. -/
theorem never_bind {k : γ} (hs : f s = k) {c : StateT σ (Except ε) α}
    {g : α → StateT σ (Except ε) β} (hc : Keeps f c) (hg : ∀ a s', f s' = k → Never (g a) s') :
    Never (c >>= g) s := (hc s).bind fun a s' hs' => hg a s' (hs'.trans hs)

theorem Never.ne_ok {c : StateT σ (Except ε) α} (h : Never c s) (r : α × σ) : c s ≠ .ok r :=
  fun hr => h.of_ok hr

/-- A program that has been stopped has not returned. -/
theorem ne_ok_of_run'_eq_error {c : StateT σ (Except ε) α} {e : ε} (h : c.run' s = .error e)
    (r : α × σ) : c s ≠ .ok r := fun hr => by
  unfold StateT.run' at h
  rw [hr] at h
  cases h

theorem Never.run'_ne_ok {c : StateT σ (Except ε) α} (h : Never c s) (a : α) :
    c.run' s ≠ .ok a := by
  intro hr
  unfold Never Ensures at h
  unfold StateT.run' at hr
  cases hc : c s with
  | ok r => rw [hc] at h; exact h
  | error e => rw [hc] at hr; cases hr

end Triple
