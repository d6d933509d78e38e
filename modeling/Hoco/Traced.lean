import Mathlib.Logic.Basic

/-!
# Programs that leave a trace

A program that may stop, together with what it touched on the way. The trace is
there however the program ends, so that it can be said of a program that stops
what it was that it touched last.

There are two things to say of the trace, each with a rule for every way to build a
program:

* `Touches ok c Q`: all that `c` touches is admitted by `ok`, and where it returns its
  result has `Q`;
* `Confines ok c c'`: the program `c'` does what `c` does as long as that touches only
  what is admitted, and then returns; otherwise it stops.

The second is for the same program run on two memories, one of them mapped no further than
`ok` says. There the trace stays inside exactly when the confined program returns
(`Confines.trace_iff`).
-/

/-- **A program with its trace**: what it touches, in order, and how it ends. -/
structure Traced (ι ε α : Type) where
  trace : List ι
  result : Except ε α

namespace Traced

variable {ι ε α β : Type}

instance : Monad (Traced ι ε) where
  pure a := ⟨[], .ok a⟩
  bind c f := match c.result with
    | .ok a => ⟨c.trace ++ (f a).trace, (f a).result⟩
    | .error e => ⟨c.trace, .error e⟩

/-- A program that touches nothing. -/
def lift (r : Except ε α) : Traced ι ε α := ⟨[], r⟩

/-- Putting something on record. -/
def touch (is : List ι) : Traced ι ε Unit := ⟨is, .ok ()⟩

variable {c c' : Traced ι ε α} {f f' : α → Traced ι ε β}

theorem bind_of_ok {a : α} (h : c.result = .ok a) :
    c >>= f = ⟨c.trace ++ (f a).trace, (f a).result⟩ := by
  show (match c.result with
    | .ok a => (⟨c.trace ++ (f a).trace, (f a).result⟩ : Traced ι ε β)
    | .error e => ⟨c.trace, .error e⟩) = _
  rw [h]

theorem bind_of_error {e : ε} (h : c.result = .error e) : c >>= f = ⟨c.trace, .error e⟩ := by
  show (match c.result with
    | .ok a => (⟨c.trace ++ (f a).trace, (f a).result⟩ : Traced ι ε β)
    | .error e => ⟨c.trace, .error e⟩) = _
  rw [h]

/-- What touches nothing and returns leaves no trace of itself. -/
@[simp] theorem lift_ok_bind (a : α) : (lift (.ok a) >>= f : Traced ι ε β) = f a := rfl

@[simp] theorem lift_error_bind (e : ε) :
    (lift (.error e) >>= f : Traced ι ε β) = lift (.error e) := rfl

/-- Two sequences with the same first part. -/
theorem bind_congr_of_ok (h : ∀ a, c.result = .ok a → f a = f' a) : c >>= f = c >>= f' := by
  cases hc : c.result with
  | ok a => rw [bind_of_ok hc, bind_of_ok hc, h a hc]
  | error e => rw [bind_of_error hc, bind_of_error hc]

@[simp] theorem result_pure (a : α) : (pure a : Traced ι ε α).result = .ok a := rfl

@[simp] theorem result_lift (r : Except ε α) : (lift r : Traced ι ε α).result = r := rfl

@[simp] theorem result_touch (is : List ι) : (touch is : Traced ι ε Unit).result = .ok () := rfl

/-- The outcome of a sequence does not depend on the traces. -/
@[simp] theorem result_bind : (c >>= f).result = c.result >>= fun a => (f a).result := by
  cases h : c.result with
  | ok a => rw [bind_of_ok h]; rfl
  | error e => rw [bind_of_error h]; rfl

/-! ## What is touched -/

/-- **All that is touched is admitted**, and what is returned has `Q`. -/
def Touches (ok : ι → Prop) (c : Traced ι ε α) (Q : α → Prop) : Prop :=
  (∀ i ∈ c.trace, ok i) ∧ ∀ a, c.result = .ok a → Q a

variable {ok : ι → Prop} {Q R : α → Prop}

@[simp] theorem touches_pure {a : α} : Touches ok (pure a : Traced ι ε α) Q ↔ Q a := by
  constructor
  · intro h
    exact h.2 a rfl
  · intro h
    refine ⟨fun i hi => absurd hi List.not_mem_nil, fun b hb => ?_⟩
    cases hb
    exact h

@[simp] theorem touches_lift {r : Except ε α} :
    Touches ok (lift r : Traced ι ε α) Q ↔ ∀ a, r = .ok a → Q a :=
  and_iff_right fun _ hi => absurd hi List.not_mem_nil

@[simp] theorem touches_touch {is : List ι} {Q : Unit → Prop} :
    Touches ok (touch is : Traced ι ε Unit) Q ↔ (∀ i ∈ is, ok i) ∧ Q () :=
  and_congr_right fun _ => ⟨fun h => h () rfl, fun h _ _ => h⟩

/-- The rule for a sequence. -/
@[simp] theorem touches_bind {Q : β → Prop} :
    Touches ok (c >>= f) Q ↔ Touches ok c fun a => Touches ok (f a) Q := by
  unfold Touches
  cases h : c.result with
  | ok a =>
    rw [bind_of_ok h]
    simp only [List.forall_mem_append, and_assoc, Except.ok.injEq, forall_eq']
  | error e =>
    rw [bind_of_error h]
    simp

/-- Nothing is asked of the result. -/
theorem touches_true : (Touches ok c fun _ => True) ↔ ∀ i ∈ c.trace, ok i :=
  and_iff_left fun _ _ => True.intro

theorem Touches.mono (h : Touches ok c Q) (hQ : ∀ a, Q a → R a) : Touches ok c R :=
  ⟨h.1, fun a ha => hQ a (h.2 a ha)⟩

/-- A sequence, from what is known of its first part. -/
theorem Touches.bind {Q : β → Prop} (h : Touches ok c R)
    (hf : ∀ a, R a → Touches ok (f a) Q) : Touches ok (c >>= f) Q :=
  touches_bind.mpr (h.mono hf)

/-! ## Confined programs -/

/-- **The program `c'` is `c`, confined to what is admitted**: the two are the same and
return, or `c` touches something else and `c'` does not return. -/
def Confines (ok : ι → Prop) (c c' : Traced ι ε α) : Prop :=
  (c = c' ∧ (∀ i ∈ c.trace, ok i) ∧ ∃ a, c'.result = .ok a)
    ∨ (¬ (∀ i ∈ c.trace, ok i) ∧ ∀ a, c'.result ≠ .ok a)

/-- **A program touches only what is admitted exactly when it returns confined.** -/
theorem Confines.trace_iff (h : Confines ok c c') :
    (∀ i ∈ c.trace, ok i) ↔ ∃ a, c'.result = .ok a := by
  rcases h with ⟨-, hok, hreturns⟩ | ⟨hnot, hstops⟩
  · exact iff_of_true hok hreturns
  · exact iff_of_false hnot (by rintro ⟨a, ha⟩; exact hstops a ha)

theorem confines_pure (a : α) : Confines ok (pure a : Traced ι ε α) (pure a) :=
  Or.inl ⟨rfl, fun _ hi => absurd hi List.not_mem_nil, a, rfl⟩

/-- Putting on record what the outcome depends on. -/
theorem confines_touch_lift {is : List ι} {r r' : Except ε α}
    (hsame : (∀ i ∈ is, ok i) → r = r') (hends : (∃ a, r' = .ok a) ↔ ∀ i ∈ is, ok i) :
    Confines ok (touch is >>= fun _ => lift r : Traced ι ε α) (touch is >>= fun _ => lift r') := by
  have htrace : (touch is >>= fun _ => lift r : Traced ι ε α).trace = is := List.append_nil is
  unfold Confines
  rw [htrace]
  by_cases hok : ∀ i ∈ is, ok i
  · exact Or.inl ⟨by rw [hsame hok], hok, hends.mpr hok⟩
  · exact Or.inr ⟨hok, fun a ha => hok (hends.mp ⟨a, ha⟩)⟩

/-- What is touched stays touched. -/
theorem mem_trace_bind {i : ι} (hi : i ∈ c.trace) : i ∈ (c >>= f).trace := by
  cases hc : c.result with
  | ok a =>
    rw [bind_of_ok hc]
    exact List.mem_append_left _ hi
  | error e =>
    rw [bind_of_error hc]
    exact hi

/-- The rule for a sequence. -/
theorem Confines.bind (h : Confines ok c c')
    (hf : ∀ a, c'.result = .ok a → Confines ok (f a) (f' a)) :
    Confines ok (c >>= f) (c' >>= f') := by
  rcases h with ⟨rfl, hok, a, ha⟩ | ⟨hnot, hstops⟩
  · rw [bind_of_ok ha, bind_of_ok ha]
    rcases hf a ha with ⟨heq, hok', hreturns⟩ | ⟨hnot', hstops'⟩
    · exact Or.inl ⟨by rw [heq], List.forall_mem_append.mpr ⟨hok, hok'⟩, hreturns⟩
    · exact Or.inr ⟨fun h => hnot' (List.forall_mem_append.mp h).2, hstops'⟩
  · refine Or.inr ⟨fun h => hnot fun i hi => h i (mem_trace_bind hi), ?_⟩
    cases hc' : c'.result with
    | ok a => exact absurd hc' (hstops a)
    | error e =>
      rw [bind_of_error hc']
      intro a ha
      cases ha

end Traced
