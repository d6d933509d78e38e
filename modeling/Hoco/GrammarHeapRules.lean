import Hoco.GrammarHeapOps

/-!
# Rules that are gone

Only `genRule` makes rules. The other operations leave the rules alone, or change
the number of references of a rule that is there, or free one. So a rule that is
gone stays so until the next `genRule` (`Gone`), whatever state the rest of the
memory is in; this is all that is needed to know of `expand`
(`ensures_expand`), in a run in which a rule has been dissolved.
-/

namespace GrammarHeap

open Triple

/-! ## What leaves the rules alone -/

theorem keeps_loadSymbol {γ : Type} {f : Store → γ} (a : ℕ) : Keeps f (loadSymbol a) :=
  keeps_get.bind fun st => by
    cases st.symbols a with
    | some s => exact keeps_pure s
    | none => exact keeps_throw _

theorem keeps_loadRule {γ : Type} {f : Store → γ} (r : ℕ) : Keeps f (loadRule r) :=
  keeps_get.bind fun st => by
    cases st.rules r with
    | some R => exact keeps_pure R
    | none => exact keeps_throw _

theorem keeps_loadSlot {γ : Type} {f : Store → γ} (i : ℕ) : Keeps f (loadSlot i) :=
  keeps_get.bind fun _ => keeps_pure _

theorem keeps_storeSlot (i v : ℕ) : Keeps Store.rules (storeSlot i v) := fun _ => rfl

theorem keeps_modifySymbol (a : ℕ) (f : Symbol → Symbol) : Keeps Store.rules (modifySymbol a f) :=
  (keeps_loadSymbol a).bind fun _ _ => rfl

theorem keeps_freeSymbol (a : ℕ) : Keeps Store.rules (freeSymbol a) := fun _ => rfl

theorem keeps_first {γ : Type} {f : Store → γ} (r : ℕ) : Keeps f (first r) :=
  (keeps_loadRule r).bind fun _ => (keeps_loadSymbol _).bind fun _ => keeps_pure _

theorem keeps_last {γ : Type} {f : Store → γ} (r : ℕ) : Keeps f (last r) :=
  (keeps_loadRule r).bind fun _ => (keeps_loadSymbol _).bind fun _ => keeps_pure _

theorem keeps_isGuard {γ : Type} {f : Store → γ} (a : ℕ) : Keeps f (isGuard a) :=
  (keeps_loadSymbol a).bind fun _ => keeps_ite _
    ((keeps_last _).bind fun _ => (keeps_loadSymbol _).bind fun _ => keeps_pure _) (keeps_pure _)

theorem keeps_probe {γ : Type} {f : Store → γ} (one two jump fuel i : ℕ) (insert : Option ℕ) :
    Keeps f (probe one two jump fuel i insert) := by
  induction fuel generalizing i insert with
  | zero => exact keeps_throw _
  | succ fuel ih =>
    refine (keeps_loadSlot i).bind fun m => keeps_ite _ (keeps_pure _) (keeps_ite _ (ih _ _) ?_)
    refine (keeps_loadSymbol m).bind fun s => keeps_ite _ ?_ (ih _ _)
    exact (keeps_loadSymbol _).bind fun _ => keeps_ite _ (keeps_pure _) (ih _ _)

theorem keeps_findDigram {γ : Type} {f : Store → γ} (a : ℕ) : Keeps f (findDigram a) :=
  (keeps_loadSymbol a).bind fun _ => (keeps_loadSymbol _).bind fun _ =>
    keeps_probe _ _ _ _ _ _

theorem keeps_recordDigram (a : ℕ) : Keeps Store.rules (recordDigram a) :=
  (keeps_findDigram a).bind fun i => keeps_storeSlot i a

theorem keeps_atGuard {γ : Type} {f : Store → γ} (a : ℕ) : Keeps f (atGuard a) :=
  (keeps_isGuard a).bind fun _ => keeps_ite _ (keeps_pure _)
    ((keeps_loadSymbol a).bind fun _ => keeps_isGuard _)

theorem keeps_deleteDigram (a : ℕ) : Keeps Store.rules (deleteDigram a) :=
  (keeps_atGuard a).bind fun _ => keeps_ite _ (keeps_pure _)
    ((keeps_findDigram a).bind fun i => (keeps_loadSlot i).bind fun _ =>
      keeps_ite _ (keeps_storeSlot i 1) (keeps_pure _))

variable (cfg : Config)

theorem keeps_keepRight (right : ℕ) : Keeps Store.rules (keepRight cfg right) :=
  (keeps_loadSymbol right).bind fun _ => keeps_ite _
    ((keeps_loadSymbol _).bind fun _ => keeps_ite _
      ((keeps_loadSymbol _).bind fun _ => keeps_ite _ (keeps_recordDigram right) (keeps_pure _))
      (keeps_pure _))
    (keeps_pure _)

theorem keeps_keepLeft (left : ℕ) : Keeps Store.rules (keepLeft cfg left) :=
  (keeps_loadSymbol left).bind fun _ => keeps_ite _
    ((keeps_loadSymbol _).bind fun _ => keeps_ite _
      ((keeps_loadSymbol _).bind fun _ => keeps_ite _ (keeps_recordDigram _) (keeps_pure _))
      (keeps_pure _))
    (keeps_pure _)

theorem keeps_leave (left right : ℕ) : Keeps Store.rules (leave cfg left right) :=
  (keeps_loadSymbol left).bind fun _ => keeps_ite _
    ((keeps_deleteDigram left).bind fun _ => (keeps_keepRight cfg right).bind fun _ =>
      keeps_keepLeft cfg left)
    (keeps_pure _)

theorem keeps_join (left right : ℕ) : Keeps Store.rules (join cfg left right) :=
  (keeps_leave cfg left right).bind fun _ => (keeps_modifySymbol _ _).bind fun _ =>
    keeps_modifySymbol _ _

/-! ## Rules stay away -/

/-- **None of these is a rule.** -/
def Gone (D : Set ℕ) (st : Store) : Prop := ∀ r ∈ D, st.rules r = none

variable {cfg} {D : Set ℕ}

theorem maintains_of_keeps {α : Type} {c : M α} (hc : Keeps Store.rules c) : Maintains (Gone D) c :=
  hc.maintains fun rules => ∀ r ∈ D, rules r = none

theorem maintains_deuse (r : ℕ) : Maintains (Gone D) (deuse r) := by
  intro st hst
  rw [deuse, modifyRule, loadRule, ensures_bind, ensures_bind, ensures_get]
  cases hR : st.rules r with
  | none => exact trivial
  | some R =>
    intro r' hr'
    refine (Function.update_of_ne ?_ _ _).trans (hst r' hr')
    rintro rfl
    rw [hst r' hr'] at hR
    cases hR

theorem maintains_destroySymbol (a : ℕ) : Maintains (Gone D) (destroySymbol cfg a) := by
  refine (maintains_of_keeps (keeps_loadSymbol a)).bind fun _ =>
    (maintains_of_keeps (keeps_join cfg _ _)).bind fun _ =>
    (maintains_of_keeps (keeps_isGuard a)).bind fun _ =>
    maintains_ite _ (maintains_of_keeps (keeps_freeSymbol a)) ?_
  refine (maintains_of_keeps (keeps_deleteDigram a)).bind fun _ =>
    (maintains_of_keeps (keeps_loadSymbol a)).bind fun _ => maintains_ite _ ?_
    (maintains_of_keeps (keeps_freeSymbol a))
  exact (maintains_deuse _).bind fun _ => maintains_of_keeps (keeps_freeSymbol a)

theorem maintains_freeRule (r : ℕ) : Maintains (Gone D) (freeRule r) := by
  intro st hst r' hr'
  by_cases hr : r' = r
  · exact hr ▸ Function.update_self ..
  · exact (Function.update_of_ne hr _ _).trans (hst r' hr')

/-- `destroyRule` frees its rule. -/
theorem ensures_destroyRule (r : ℕ) {st : Store} (hst : Gone D st) :
    Ensures (fun _ => True) (destroyRule cfg r) st fun _ st' => Gone (insert r D) st' := by
  have hst' : Gone D { st with numRules := st.numRules - 1 } := hst
  rw [destroyRule, ensures_bind, ensures_modify]
  refine (maintains_of_keeps (keeps_loadRule r) _ hst').bind fun R st₁ h₁ => ?_
  refine (maintains_destroySymbol R.guard st₁ h₁).bind fun _ st₂ h₂ r' hr' => ?_
  rcases hr' with rfl | hr'
  · exact Function.update_self ..
  · exact maintains_freeRule r st₂ h₂ r' hr'

/-- The end of `expand`: the symbol goes, and what is left of the rule takes its
place. -/
def relink (cfg : Config) (a left right firstSym lastSym : ℕ) : M Unit := do
  modifySymbol a fun s => { s with key := 0 }
  destroySymbol cfg a
  join cfg left firstSym
  join cfg lastSym right
  let m ← findDigram lastSym
  match cfg.program with
  | .tadoc => storeSlot m 1
  | .sequitur => storeSlot m lastSym

theorem maintains_relink (a left right firstSym lastSym : ℕ) :
    Maintains (Gone D) (relink cfg a left right firstSym lastSym) := by
  refine (maintains_of_keeps (keeps_modifySymbol a _)).bind fun _ => ?_
  refine (maintains_destroySymbol a).bind fun _ => ?_
  refine (maintains_of_keeps (keeps_join cfg _ _)).bind fun _ => ?_
  refine (maintains_of_keeps (keeps_join cfg _ _)).bind fun _ => ?_
  refine (maintains_of_keeps (keeps_findDigram _)).bind fun m => ?_
  cases cfg.program with
  | tadoc => exact maintains_of_keeps (keeps_storeSlot m 1)
  | sequitur => exact maintains_of_keeps (keeps_storeSlot m _)

/-- What `expand` does when the rule is gone. -/
theorem maintains_splice (a left right firstSym lastSym : ℕ) : Maintains (Gone D) (do
    let m ← findDigram a
    if (← loadSlot m) = a then storeSlot m 1
    else pure ()
    relink cfg a left right firstSym lastSym) := by
  refine (maintains_of_keeps (keeps_findDigram a)).bind fun m => ?_
  refine (maintains_of_keeps (keeps_loadSlot m)).bind fun v => ?_
  have hrest : Maintains (Gone D) (relink cfg a left right firstSym lastSym) :=
    maintains_relink a left right firstSym lastSym
  exact maintains_ite _ ((maintains_of_keeps (keeps_storeSlot m 1)).bind fun _ => hrest) hrest

/-- **A rule is dissolved**: it is gone, and no other has been made. -/
theorem ensures_expand {a : ℕ} {s : Symbol} {st : Store} (hs : st.symbols a = some s)
    (hst : Gone D st) :
    Ensures (fun _ => True) (expand cfg a) st fun _ st' => Gone (insert s.key D) st' := by
  rw [expand, ensures_bind, ensures_loadSymbol hs]
  refine (maintains_of_keeps (keeps_first s.key) st hst).bind fun _ st₁ h₁ => ?_
  refine (maintains_of_keeps (keeps_last s.key) st₁ h₁).bind fun _ st₂ h₂ => ?_
  refine (ensures_destroyRule s.key h₂).bind fun _ st₃ h₃ => ?_
  exact maintains_splice a s.p s.n _ _ st₃ h₃

/-- The end of `match`, behind the replacement. -/
def dissolve (cfg : Config) (r : ℕ) : M Unit := do
  let firstSym ← first r
  let f ← loadSymbol firstSym
  if nonTerminal f then
    let R ← loadRule f.key
    if R.count = 1 then expand cfg firstSym
    else return ()
  else return ()

theorem matchDigram_eq (checkPut : ℕ → M Bool) (newS oldS : ℕ) :
    matchDigram cfg checkPut newS oldS = ruleFor cfg checkPut newS oldS >>= dissolve cfg := rfl

/-- The end of `match` makes no rule. -/
theorem maintains_dissolve (r : ℕ) : Maintains (Gone D) (dissolve cfg r) := by
  have hexpand : ∀ a, Maintains (Gone D) (expand cfg a) := by
    intro a st hst
    cases hs : st.symbols a with
    | none =>
      rw [expand, ensures_bind, loadSymbol, ensures_bind, ensures_get, hs]
      exact trivial
    | some s => exact (ensures_expand hs hst).mono fun _ _ h r hr => h r (Or.inr hr)
  refine (maintains_of_keeps (keeps_first r)).bind fun firstSym => ?_
  refine (maintains_of_keeps (keeps_loadSymbol _)).bind fun f =>
    maintains_ite _ ?_ (maintains_pure ())
  refine (maintains_of_keeps (keeps_loadRule _)).bind fun R => ?_
  exact maintains_ite _ (hexpand _) (maintains_pure ())

end GrammarHeap
