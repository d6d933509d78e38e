import Hoco.GrammarHeapRules
import Hoco.GrammarRefine

/-!
# Matches of the two programs

`checkPut`, with all that it calls, does to the memory what settling the last pair
does to the grammar (`ensures_checkPut`). The proof follows the cases of
`Grammar.Settles`; each of them is a stretch of the program that is run
symbolically, with the results of `Hoco.GrammarRefine` for the operations.

Only at its end does a match look at a number of references, and only here do the
programs part. In `tadoc.c` the number is one too high, so that a rule is never
dissolved. In `sequitur.cc` a rule is dissolved if and only if the match has spent
it, in the sense of `Grammar.Spends`. What the memory of `sequitur.cc` is like
from then on is not pursued, but for the fact that the rule is gone (`Shrunk`).
-/

namespace GrammarHeap

open Triple PairIndex LinkedRing

/-- **The memory is that of the grammar.** -/
abbrev Models (cfg : Config) (st : Store) (G : Grammar) : Prop :=
  Represents cfg st G.used G.rings G.index

variable {cfg : Config} {st : Store} {used : ℕ} {rings : List Grammar.Ring}
  {index : Index Grammar.Key Grammar.Sym} {G : Grammar}

/-! ## Substitution -/

/-- The end of `substitute`: the pairs on both sides of the new symbol are checked. -/
def recheck (check : ℕ → M Bool) (q : ℕ) : M Unit := do
  if ← check q then return ()
  else
    let t ← loadSymbol q
    let _ ← check t.n
    return ()

section Substitute

variable {r g : ℕ} {left right : List Grammar.Sym} {a b : Grammar.Sym} {ok : Stop → Prop}
  (hok : ∀ e, outside e → ok e) {check : ℕ → M Bool} {Q : Unit → Store → Prop}

theorem Represents.symbol_before
    (h : Represents cfg st used (⟨r, g, left.reverse ++ right⟩ :: rings) index) :
    ∃ s, st.symbols (before (cfg.address g) (left.map fun x => cfg.address x.tag)) = some s
      ∧ s.n = behind (cfg.address g) (right.map fun x => cfg.address x.tag) := by
  have hlayout := h.layout
  rw [List.map_cons, row_cut] at hlayout
  obtain ⟨s, hs, hn, -⟩ := hlayout.symbol_before
  rw [addr_map] at hs hn
  exact ⟨s, hs, hn⟩

include hok

/-- **`substitute`, up to the checks**: two neighbours make way for a rule. -/
theorem Represents.ensures_substitute
    (h : Represents cfg st used (⟨r, g, left.reverse ++ a :: b :: right⟩ :: rings) index) {r' : ℕ}
    (hr' : .rule r' ∈ Known (⟨r, g, left.reverse ++ a :: b :: right⟩ :: rings)) (hne : r' ≠ r)
    (hcheck : ∀ st', Represents cfg st' (used + 1)
        (⟨r, g, left.reverse ++ ⟨used, .rule r'⟩ :: right⟩ :: rings)
        (runAll (replaceEdits Grammar.Sym.key left.tail.head? left.head? a b right.head?
          right.tail.head?) index) →
      Ensures ok (recheck check
        (before (cfg.address g) (left.map fun x => cfg.address x.tag))) st' Q) :
    Ensures ok (substitute cfg check (cfg.address a.tag) (cfg.address r')) st Q := by
  have ha := h.symbol_eq (R := ⟨r, g, left.reverse ++ a :: b :: right⟩) List.mem_cons_self rfl
  obtain ⟨q, hq, hqn⟩ := h.symbol_before
  rw [substitute, ensures_bind, ensures_loadSymbol ha, ensures_bind, ensures_loadSymbol hq, hqn]
  refine (h.ensures_destroy.weaken hok).bind fun _ st₁ h₁ => ?_
  obtain ⟨q₁, hq₁, hqn₁⟩ := h₁.symbol_before
  rw [ensures_bind, ensures_loadSymbol hq₁, hqn₁]
  refine (h₁.ensures_destroy.weaken hok).bind fun _ st₂ h₂ => ?_
  rw [known_cons r g _ (left.reverse ++ right)] at hr'
  obtain ⟨R, hR, rfl⟩ := hr' r' rfl
  rw [ensures_bind]
  refine (h₂.ensures_genSymbol2 hR fun hsym huser => ?_).weaken hok
  have hne' : Grammar.Key.rule R.rule ≠ .rule r := fun heq => hne (Grammar.Key.rule.inj heq)
  refine ((h₂.ensures_insert hr' hne' hsym huser).weaken hok).bind fun _ st₃ h₃ => hcheck st₃ ?_
  rw [replaceEdits, runAll_append, runAll_append]
  exact h₃

/-- In a grammar: two neighbours of the start sequence make way for a rule. -/
theorem Models.ensures_substitute (h : Models cfg st G) (hinv : ∀ {R}, R ∈ G.rules → R.rule ≠ 0)
    (hS : G.start = left.reverse ++ a :: b :: right) {r' : ℕ} (hr' : ∃ R ∈ G.rules, R.rule = r')
    (hcheck : ∀ st', Models cfg st' (G.substitute left a b right r') →
      Ensures ok (recheck check
        (before (cfg.address 1) (left.map fun x => cfg.address x.tag))) st' Q) :
    Ensures ok (substitute cfg check (cfg.address a.tag) (cfg.address r')) st Q := by
  obtain ⟨R, hR, rfl⟩ := hr'
  unfold Models Grammar.rings at h
  rw [hS] at h
  refine h.ensures_substitute hok (fun r hr => ?_) (hinv hR) fun st' h' => hcheck st' h'
  exact ⟨R, List.mem_cons_of_mem _ hR, Grammar.Key.rule.inj hr⟩

omit hok in
theorem start_mem : (⟨0, 1, G.start⟩ : Grammar.Ring) ∈ G.rings := List.mem_cons_self

omit hok in
/-- The start ring, cut at one place. -/
theorem Models.symbol_before (h : Models cfg st G) (hS : G.start = left.reverse ++ right) :
    ∃ s, st.symbols (before (cfg.address 1) (left.map fun x => cfg.address x.tag)) = some s
      ∧ s.n = behind (cfg.address 1) (right.map fun x => cfg.address x.tag) := by
  unfold Models Grammar.rings at h
  rw [hS] at h
  exact Represents.symbol_before h

omit hok in
/-- A pair of the start sequence that is new, or none: `checkPut` records it. -/
theorem Models.ensures_checkPut_before (h : Models cfg st G) {z : Grammar.Sym}
    (hS : G.start = left.reverse ++ z :: right)
    (hnone : ∀ y, left.head? = some y → G.index (y.key, z.key) = none) (depth : ℕ) :
    Ensures outside (checkPut cfg (depth + 1)
        (before (cfg.address 1) (left.map fun x => cfg.address x.tag))) st fun res st' =>
      res = false ∧ Models cfg st' (G.note left.head? (some z)) := by
  cases left with
  | nil =>
    exact h.ensures_checkPut_guard (h.guard_eq start_mem) (Or.inl (h.isGuard start_mem))
      ⟨rfl, h⟩ depth
  | cons y left =>
    refine h.ensures_checkPut_new start_mem ⟨left.reverse, right, ?_⟩ (hnone y rfl) depth
    rw [hS, List.reverse_cons, List.append_assoc]
    rfl

omit hok in
theorem Models.ensures_checkPut_behind (h : Models cfg st G) {z : Grammar.Sym}
    (hS : G.start = left.reverse ++ z :: right)
    (hnone : ∀ y, right.head? = some y → G.index (z.key, y.key) = none) (depth : ℕ) :
    Ensures outside (checkPut cfg (depth + 1) (cfg.address z.tag)) st fun res st' =>
      res = false ∧ Models cfg st' (G.note (some z) right.head?) := by
  cases right with
  | nil =>
    exact h.ensures_checkPut_guard (h.symbol_eq start_mem hS) (Or.inr (h.isGuard start_mem))
      ⟨rfl, h⟩ depth
  | cons y right =>
    exact h.ensures_checkPut_new start_mem ⟨left.reverse, right, hS⟩ (hnone y rfl) depth

omit hok in
/-- **The checks of `substitute`** behind a replacement whose pairs are new. -/
theorem Models.ensures_checks (h : Models cfg st G) {z : Grammar.Sym}
    (hS : G.start = left.reverse ++ z :: right)
    (hbefore : ∀ y, left.head? = some y → G.index (y.key, z.key) = none)
    (hbehind : ∀ y, right.head? = some y →
      (G.note left.head? (some z)).index (z.key, y.key) = none) (depth : ℕ) :
    Ensures outside (recheck (checkPut cfg (depth + 1))
        (before (cfg.address 1) (left.map fun x => cfg.address x.tag))) st fun _ st' =>
      Models cfg st' ((G.note left.head? (some z)).note (some z) right.head?) := by
  have hS' : (G.note left.head? (some z)).start = left.reverse ++ z :: right := by
    rw [Grammar.start_note, hS]
  refine (h.ensures_checkPut_before hS hbefore depth).bind ?_
  rintro _ st₁ ⟨rfl, h₁⟩
  obtain ⟨q, hq, hqn⟩ := h₁.symbol_before hS'
  simp only [Bool.false_eq_true, ↓reduceIte]
  rw [ensures_bind, ensures_loadSymbol hq, hqn]
  refine (h₁.ensures_checkPut_behind hS' hbehind depth).bind ?_
  rintro _ st₂ ⟨rfl, h₂⟩
  exact h₂

end Substitute

/-! ## A new rule -/

/-- **A new symbol is appended to the first ring.** -/
theorem Represents.ensures_append {r g : ℕ} {body : List Grammar.Sym} {k : Grammar.Key}
    (h : Represents cfg st used (⟨r, g, body⟩ :: rings) index)
    (hk : k ∈ Known (⟨r, g, body⟩ :: rings)) (hne : k ≠ .rule r)
    (hsym : st.symbols (cfg.address used) = none)
    (huser : userAddress (cfg.address used) = true) :
    Ensures outside (insertAfter cfg
        (before (cfg.address g) (body.map fun x => cfg.address x.tag).reverse) (cfg.address used))
      (st.withSymbol (cfg.address used) (cfg.code k)) fun _ st' =>
      Represents cfg st' (used + 1) (⟨r, g, body ++ [⟨used, k⟩]⟩ :: rings) index := by
  have hbody : body = body.reverse.reverse ++ [] := by simp
  have hedits : linkEdits Grammar.Sym.key body.reverse.tail.head? body.reverse.head? none = [] := by
    cases body.reverse.tail.head? <;> cases body.reverse.head? <;> rfl
  rw [hbody] at h hk
  have hinsert := h.ensures_insert hk hne hsym huser
  rw [List.head?_nil, hedits, List.reverse_reverse, List.map_reverse] at hinsert
  exact hinsert

/-- A copy of a symbol is appended. -/
theorem Represents.ensures_appendCopy {r g : ℕ} {body : List Grammar.Sym} {x : Grammar.Sym}
    (h : Represents cfg st used (⟨r, g, body⟩ :: rings) index)
    (hx : x ∈ Placed (⟨r, g, body⟩ :: rings)) (hne : x.key ≠ .rule r) :
    Ensures outside (do
        insertAfter cfg (← last (cfg.address r)) (← copySymbol cfg (cfg.address x.tag)))
      st fun _ st' => Represents cfg st' (used + 1) (⟨r, g, body ++ [⟨used, x.key⟩]⟩ :: rings)
        index := by
  rw [ensures_bind, h.ensures_last List.mem_cons_self, ensures_bind]
  exact h.ensures_copySymbol hx fun hsym huser => h.ensures_append (h.closed hx) hne hsym huser

/-- **A rule is made for a pair.** -/
theorem Models.ensures_addRule {α : Type} {left : List Grammar.Sym} {a b : Grammar.Sym}
    {ok : Stop → Prop} (hok : ∀ e, outside e → ok e) {f : ℕ → M α} {Q : α → Store → Prop}
    (h : Models cfg st G) (hS : G.start = left.reverse ++ [a, b]) (ha : a.key ≠ .rule G.used)
    (hb : b.key ≠ .rule G.used)
    (hf : ∀ st', Models cfg st' (G.addRule a b) → Ensures ok (f (cfg.address G.used)) st' Q) :
    Ensures ok (do
      let r ← genRule cfg
      insertAfter cfg (← last r) (← copySymbol cfg (cfg.address a.tag))
      let s ← loadSymbol (cfg.address a.tag)
      insertAfter cfg (← last r) (← copySymbol cfg s.n)
      f r) st Q := by
  have hplaced : ∀ {x} (body : List Grammar.Sym), x ∈ G.start →
      x ∈ Placed ((⟨G.used, G.used + 1, body⟩ : Grammar.Ring) :: G.rings) := fun body hx =>
    placed_cons.mpr (Or.inr (placed_iff.mpr ⟨_, start_mem, hx⟩))
  have hrings : ((⟨G.used, G.used + 1, [⟨G.used + 2, a.key⟩, ⟨G.used + 3, b.key⟩]⟩ : Grammar.Ring)
      :: G.rings).Perm (G.addRule a b).rings :=
    (List.Perm.swap ..).trans ((List.perm_append_singleton ..).symm.cons _)
  refine (h.ensures_newRule.weaken hok).bind ?_
  rintro _ st₁ ⟨rfl, h₁⟩
  -- The first symbol of the rule, then the second one.
  suffices hfirst : Ensures ok ((do
      insertAfter cfg (← last (cfg.address G.used)) (← copySymbol cfg (cfg.address a.tag)))
      >>= fun _ => do
        let s ← loadSymbol (cfg.address a.tag)
        insertAfter cfg (← last (cfg.address G.used)) (← copySymbol cfg s.n)
        f (cfg.address G.used)) st₁ Q by
    simpa only [bind_assoc] using hfirst
  refine ((h₁.ensures_appendCopy (hplaced [] (by simp [hS])) ha).weaken hok).bind fun _ st₂ h₂ => ?_
  have hload := h₂.symbol_eq (List.mem_cons_of_mem _ start_mem) hS
  rw [ensures_bind, ensures_loadSymbol hload]
  suffices hsecond : Ensures ok ((do
      insertAfter cfg (← last (cfg.address G.used)) (← copySymbol cfg (cfg.address b.tag)))
      >>= fun _ => f (cfg.address G.used)) st₂ Q by
    simp only [bind_assoc] at hsecond
    exact hsecond
  refine ((h₂.ensures_appendCopy (hplaced _ (by simp [hS])) hb).weaken hok).bind fun _ st₃ h₃ => ?_
  exact hf st₃ (h₃.perm hrings)

/-! ## Dissolving a rule -/

theorem refs_eq (G : Grammar) (k : Grammar.Key) :
    G.refs k = ((G.rings.flatMap Grammar.Ring.body).map Grammar.Sym.key).count k := by
  rw [Grammar.refs, Grammar.rings, List.flatMap_cons, List.map_append, List.count_append,
    List.flatMap_def]

/-- **The end of `match`**: a rule is dissolved if it is the first symbol of the rule
that has been used, and has one reference left. In `tadoc.c` this never happens. -/
theorem Models.ensures_dissolve (h : Models cfg st G) {R : Grammar.Ring} {o o' : Grammar.Sym}
    (hR : R ∈ G.rules) (hbody : R.body = [o, o']) {ok : Stop → Prop} {Q : Unit → Store → Prop}
    (hkeep : (∀ r, o.key = .rule r → cfg.program = .sequitur → G.refs o.key ≠ 1) → Q () st)
    (hexpand : ∀ r, o.key = .rule r → cfg.program = .sequitur → G.refs o.key = 1 →
      Ensures ok (expand cfg (cfg.address o.tag)) st Q) :
    Ensures ok (dissolve cfg (cfg.address R.rule)) st Q := by
  have hR' : R ∈ G.rings := List.mem_cons_of_mem _ hR
  have ho : o ∈ Placed G.rings := placed_iff.mpr ⟨R, hR', by simp [hbody]⟩
  have hcut : R.body = ([] : List Grammar.Sym).reverse ++ o :: [o'] := hbody
  have hload := h.symbol_eq hR' hcut
  rw [dissolve, ensures_bind, h.ensures_first hR', hbody]
  show Ensures ok (loadSymbol (cfg.address o.tag) >>= _) st Q
  rw [ensures_bind, ensures_loadSymbol hload]
  cases hk : o.key with
  | term c =>
    rw [hk] at hload
    rw [if_neg (h.not_nonTerminal hload rfl)]
    exact hkeep fun r hr => by rw [hk] at hr; cases hr
  | rule r =>
    obtain ⟨X, hX, rfl⟩ := h.closed ho r hk
    have hcount := h.refsOf_rows (h.closed ho)
    have hpos : 1 ≤ G.refs o.key := by
      rw [refs_eq]
      exact List.one_le_count_iff.mpr (List.mem_map_of_mem ho)
    rw [← refs_eq, hk] at hcount
    rw [hk] at hpos hexpand hkeep
    rw [if_pos (h.nonTerminal_of_mem hX rfl)]
    change Ensures ok (loadRule (cfg.address X.rule) >>= _) st Q
    rw [ensures_bind, ensures_loadRule (h.rule_eq hX)]
    change refsOf _ (cfg.address X.rule) = _ at hcount
    simp only [hcount]
    cases hprog : cfg.program with
    | tadoc =>
      have hbias : cfg.bias = 1 := by rw [Config.bias, hprog]
      rw [if_neg (by rw [hbias]; omega)]
      exact hkeep fun _ _ hseq => by rw [hprog] at hseq; cases hseq
    | sequitur =>
      have hbias : cfg.bias = 0 := by rw [Config.bias, hprog]
      rw [hbias, Int.add_zero]
      by_cases hone : G.refs (.rule X.rule) = 1
      · rw [if_pos (by exact_mod_cast hone)]
        exact hexpand _ rfl hprog hone
      · rw [if_neg (by exact_mod_cast hone)]
        exact hkeep fun _ _ _ => hone

/-! ## A pair that has been met before -/

section Found

variable {ok : Stop → Prop} (hok : ∀ e, outside e → ok e)

include hok in
/-- `checkPut` at a pair that is in the index. -/
theorem Represents.ensures_checkPut_found (h : Represents cfg st used rings index)
    {R : Grammar.Ring} {x y o : Grammar.Sym} {s : Symbol} {depth : ℕ} {Q : Bool → Store → Prop}
    (hR : R ∈ rings) (hxy : AdjIn R.body x y) (ho : index (x.key, y.key) = some o)
    (hs : st.symbols (cfg.address o.tag) = some s) (hsame : s.n = cfg.address x.tag → Q true st)
    (hmatch : s.n ≠ cfg.address x.tag →
      Ensures ok (matchDigram cfg (checkPut cfg depth) (cfg.address x.tag) (cfg.address o.tag)) st
        fun _ => Q true) :
    Ensures ok (checkPut cfg (depth + 1) (cfg.address x.tag)) st Q := by
  obtain ⟨s', t, hs', hn, ht, -, -⟩ := h.pair_eq hR hxy
  have hx := h.not_isGuard (placed_iff.mpr ⟨R, hR, hxy.mem.1⟩)
  have hy := h.not_isGuard (placed_iff.mpr ⟨R, hR, hxy.mem.2⟩)
  rw [checkPut, ensures_bind, h.layout.sane.ensures_atGuard hs' ht, hn]
  rw [if_neg (by simp [hx, hy])]
  refine ((h.ensures_findDigram hR hxy).weaken hok).bind ?_
  rintro i _ ⟨rfl, hslot, -, -⟩
  have hgt := h.layout.sane.address_gt hs
  rw [ensures_bind, ensures_loadSlot, hslot o ho, if_neg (by omega), ensures_bind,
    ensures_loadSymbol hs]
  by_cases heq : s.n = cfg.address x.tag
  · rw [if_neg (by simpa using heq)]
    exact hsame heq
  · rw [if_pos heq, ensures_bind]
    exact hmatch heq

/-- The pair is the body of a rule. -/
theorem Models.ensures_ruleFor_whole (h : Models cfg st G) {R : Grammar.Ring} {o o' : Grammar.Sym}
    {check : ℕ → M Bool} {newS : ℕ} {Q : ℕ → Store → Prop} (hR : R ∈ G.rules)
    (hbody : R.body = [o, o'])
    (hsub : Ensures ok (substitute cfg check newS (cfg.address R.rule)) st
      fun _ => Q (cfg.address R.rule)) :
    Ensures ok (ruleFor cfg check newS (cfg.address o.tag)) st Q := by
  have hR' : R ∈ G.rings := List.mem_cons_of_mem _ hR
  have hcut : R.body = ([] : List Grammar.Sym).reverse ++ o :: [o'] := hbody
  have hcut' : R.body = [o].reverse ++ o' :: [] := hbody
  have ho := h.symbol_eq hR' hcut
  have ho' := h.symbol_eq hR' hcut'
  have hg := h.guard_eq hR'
  have hguard := h.isGuard hR'
  have hwhole : Ensures ok (isWholeRule (cfg.address o.tag)) st fun res st' =>
      res = true ∧ st' = st := by
    rw [isWholeRule, ensures_bind, ensures_loadSymbol ho, ensures_bind]
    refine (h.layout.sane.ensures_isGuard hg).mpr ?_
    rw [if_pos (by simpa using hguard), ensures_bind]
    refine (ensures_loadSymbol ho').mpr ((h.layout.sane.ensures_isGuard hg).mpr ?_)
    exact ⟨by simpa using hguard, rfl⟩
  rw [ruleFor]
  refine hwhole.bind ?_
  rintro _ _ ⟨rfl, rfl⟩
  simp only [↓reduceIte]
  rw [ensures_bind, ensures_loadSymbol ho, ensures_bind]
  refine (ensures_loadSymbol hg).mpr ?_
  rw [ensures_bind]
  exact hsub

/-- The pair is at another place of the start sequence. -/
theorem Models.ensures_isWholeRule (h : Models cfg st G) {pre rest : List Grammar.Sym}
    {o o' c : Grammar.Sym} (hS : G.start = pre.reverse ++ o :: o' :: c :: rest) :
    Ensures ok (isWholeRule (cfg.address o.tag)) st fun res st' => res = false ∧ st' = st := by
  have hS' : G.start = (o :: pre).reverse ++ o' :: (c :: rest) := by simp [hS]
  have hS'' : G.start = (o' :: o :: pre).reverse ++ c :: rest := by simp [hS]
  have ho := h.symbol_eq start_mem hS
  have ho' := h.symbol_eq start_mem hS'
  have hc := h.symbol_eq start_mem hS''
  have hguard : ¬ st.IsGuard (cfg.address c.tag) :=
    h.not_isGuard (placed_iff.mpr ⟨_, start_mem, by simp [hS]⟩)
  obtain ⟨q, hq, -⟩ := h.symbol_before hS
  rw [isWholeRule, ensures_bind, ensures_loadSymbol ho, ensures_bind]
  refine (h.layout.sane.ensures_isGuard hq).mpr ?_
  split
  · rw [ensures_bind]
    refine (ensures_loadSymbol ho').mpr ((h.layout.sane.ensures_isGuard hc).mpr ?_)
    exact ⟨by simpa using hguard, rfl⟩
  · exact ⟨rfl, rfl⟩

section Fresh

variable {pre mid : List Grammar.Sym} {o o' a b : Grammar.Sym} (hp : G.Pending)
  (hS : G.start = pre.reverse ++ o :: o' :: (mid ++ [a, b])) (depth : ℕ)

include hp hS

/-- The new rule takes the place of the old occurrence. -/
theorem Models.ensures_replaceOld (h : Models cfg st (G.addRule a b)) :
    Ensures outside (substitute cfg (checkPut cfg (depth + 1)) (cfg.address o.tag)
      (cfg.address G.used)) st fun _ st' =>
        Models cfg st' (G.replaceOld pre o o' (mid ++ [a, b]) a b) := by
  have hrule : ∃ R ∈ (G.addRule a b).rules, R.rule = G.used :=
    ⟨_, List.mem_append_right _ (List.mem_singleton_self _), rfl⟩
  have hS' : (G.addRule a b).start = pre.reverse ++ o :: o' :: (mid ++ [a, b]) := hS
  have hinv : ∀ {R}, R ∈ (G.addRule a b).rules → R.rule ≠ 0 := fun hR => by
    have := ((hp.addRule hS).rule_lt hR).1
    omega
  refine Models.ensures_substitute (fun _ he => he) h hinv hS' hrule fun st' h' => ?_
  exact h'.ensures_checks rfl (fun _ _ => hp.index_before_old hS)
    (fun _ _ => hp.index_behind_old hS) depth

/-- The new rule takes the place of the last pair. -/
theorem Models.ensures_replaceLast (hka : a.key = o.key)
    (h : Models cfg st (G.replaceOld pre o o' (mid ++ [a, b]) a b)) :
    Ensures outside (substitute cfg (checkPut cfg (depth + 1)) (cfg.address a.tag)
      (cfg.address G.used)) st fun _ st' =>
        Models cfg st' (((G.replaceOld pre o o' (mid ++ [a, b]) a b).substitute
          (mid.reverse ++ ⟨G.used + 4, .rule G.used⟩ :: pre) a b [] G.used).note
            (mid.reverse ++ ⟨G.used + 4, .rule G.used⟩ :: pre).head?
            (some ⟨G.used + 5, .rule G.used⟩)) := by
  have hrule : ∃ R ∈ (G.replaceOld pre o o' (mid ++ [a, b]) a b).rules, R.rule = G.used := by
    rw [Grammar.rules_replaceOld]
    exact ⟨_, List.mem_append_right _ (List.mem_singleton_self _), rfl⟩
  have hstart : (G.replaceOld pre o o' (mid ++ [a, b]) a b).start
      = (mid.reverse ++ ⟨G.used + 4, .rule G.used⟩ :: pre).reverse ++ a :: b :: [] := by
    simp [Grammar.start_replaceOld]
  have hinv : ∀ {R}, R ∈ (G.replaceOld pre o o' (mid ++ [a, b]) a b).rules → R.rule ≠ 0 :=
    fun hR => by
      have := ((hp.replaceOld hS).rule_lt hR).1
      omega
  refine Models.ensures_substitute (fun _ he => he) h hinv hstart hrule fun st' h' => ?_
  have hz : ((G.replaceOld pre o o' (mid ++ [a, b]) a b).substitute
      (mid.reverse ++ ⟨G.used + 4, .rule G.used⟩ :: pre) a b [] G.used).start
      = (mid.reverse ++ ⟨G.used + 4, .rule G.used⟩ :: pre).reverse
        ++ ⟨G.used + 5, .rule G.used⟩ :: [] := by
    rw [Grammar.substitute, Grammar.used_replaceOld]
  exact h'.ensures_checks hz (fun q hq => hp.index_last hS hka hq) (fun y hy => by cases hy) depth

/-- **A rule is made for a pair and takes the place of both its occurrences.** -/
theorem Models.ensures_ruleFor_fresh (h : Models cfg st G)
    (hI : G.index (a.key, b.key) = some o) :
    Ensures outside (ruleFor cfg (checkPut cfg (depth + 1)) (cfg.address a.tag)
      (cfg.address o.tag)) st fun r st' => r = cfg.address G.used
        ∧ Models cfg st' (G.fresh pre o o' mid a b) := by
  have hkey := hp.inv.indexed.key_eq (hp.inv.cut hS 0).pair hp.inv.linear hI
  rw [Prod.mk.injEq] at hkey
  have ha := hp.inv.key_ne (Grammar.fresh_mem hS (x := a) (by tauto))
  have hb := hp.inv.key_ne (Grammar.fresh_mem hS (x := b) (by tauto))
  have hlast : G.start = (mid.reverse ++ o' :: o :: pre).reverse ++ [a, b] := by simp [hS]
  obtain ⟨c, rest, hrest⟩ : ∃ c rest, mid ++ [a, b] = c :: rest := by
    cases mid <;> exact ⟨_, _, rfl⟩
  rw [ruleFor]
  refine (h.ensures_isWholeRule (hrest ▸ hS)).bind ?_
  rintro _ _ ⟨rfl, rfl⟩
  simp only [Bool.false_eq_true, ↓reduceIte]
  refine h.ensures_addRule (fun _ he => he) hlast ha hb fun st₁ h₁ => ?_
  refine (Models.ensures_replaceOld hp hS depth h₁).bind fun _ st₂ h₂ => ?_
  refine (Models.ensures_replaceLast hp hS depth hkey.1 h₂).bind fun _ st₃ h₃ => ?_
  have hnew : (⟨G.used, G.used + 1, [⟨G.used + 2, a.key⟩, ⟨G.used + 3, b.key⟩]⟩ : Grammar.Ring)
      ∈ (((G.replaceOld pre o o' (mid ++ [a, b]) a b).substitute
          (mid.reverse ++ ⟨G.used + 4, .rule G.used⟩ :: pre) a b [] G.used).note
            (mid.reverse ++ ⟨G.used + 4, .rule G.used⟩ :: pre).head?
            (some ⟨G.used + 5, .rule G.used⟩)).rings := by
    refine List.mem_cons_of_mem _ ?_
    rw [Grammar.rules_note]
    show _ ∈ (G.replaceOld pre o o' (mid ++ [a, b]) a b).rules
    rw [Grammar.rules_replaceOld]
    exact List.mem_append_right _ (List.mem_singleton_self _)
  rw [ensures_bind, h₃.ensures_first hnew]
  refine (h₃.ensures_recordDigram hnew ⟨[], [], rfl⟩).bind fun _ st₄ h₄ => ?_
  exact ⟨rfl, h₄⟩

end Fresh

end Found

/-! ## Settling the last pair -/

/-- No rules but those of the grammar, and not all of them. -/
def Shrunk (cfg : Config) (st : Store) (G : Grammar) : Prop :=
  ∃ R ∈ G.rules, Gone (insert (cfg.address R.rule)
    {a | ∀ X ∈ G.rings, cfg.address X.rule ≠ a}) st

/-- **What the programs have made of the last pair**: the grammar in which it is
settled, or, in `sequitur.cc`, a memory in which a rule has been dissolved. For
this a rule must have been spent, here or, if `spent` says so, before. -/
def Outcome (cfg : Config) (spent : Prop) (G' : Grammar) (Gs : List Grammar) (st : Store) : Prop :=
  Models cfg st G' ∧ (cfg.program = .sequitur → ∀ H ∈ Gs, ¬ H.Spends)
    ∨ cfg.program = .sequitur ∧ (spent ∨ ∃ H ∈ Gs, H.Spends) ∧ Shrunk cfg st G'

/-- The stops that are admitted: behind a dissolved rule nothing is claimed. -/
def admitted (cfg : Config) (spent : Prop) (Gs : List Grammar) (e : Stop) : Prop :=
  outside e ∨ cfg.program = .sequitur ∧ (spent ∨ ∃ H ∈ Gs, H.Spends)

variable {G' : Grammar} {Gs : List Grammar} {spent : Prop}

theorem Models.gone (h : Models cfg st G) :
    Gone {a | ∀ X ∈ G.rings, cfg.address X.rule ≠ a} st := by
  intro r hr
  cases hX : st.rules r with
  | none => rfl
  | some X =>
    obtain ⟨R, hR, rfl⟩ := h.layout.rule_only hX
    obtain ⟨X', hX', rfl⟩ := List.mem_map.mp hR
    exact absurd rfl (hr X' hX')

/-- **The end of a match**: a rule that the match has spent is dissolved by
`sequitur.cc`, and by no one else. -/
theorem ensures_endMatch (hs : Grammar.Settles G (G :: Gs) G') (hp : G.Pending)
    (huse : cfg.program = .sequitur → spent ∨ G.Useful ∧ G.Spare) (h : Models cfg st G')
    (hGs : cfg.program = .sequitur → ∀ H ∈ Gs, ¬ H.Spends) {a : Grammar.Sym}
    (ha : G.lastPair = some a) {R : Grammar.Ring} {o o' : Grammar.Sym} (hR : R ∈ G'.rules)
    (hbody : R.body = [o, o']) (hka : a.key = o.key) :
    Ensures (admitted cfg spent (G :: Gs)) (dissolve cfg (cfg.address R.rule)) st fun _ st' =>
      Outcome cfg spent G' (G :: Gs) st' := by
  have hR' : R ∈ G'.rings := List.mem_cons_of_mem _ hR
  have ho : o ∈ Placed G'.rings := placed_iff.mpr ⟨R, hR', by simp [hbody]⟩
  refine h.ensures_dissolve hR hbody (fun hkeep => ?_) fun r hk hprog hone => ?_
  · -- Had the match spent the rule, one reference would be left.
    refine Or.inl ⟨h, fun hprog H hH hspends => ?_⟩
    rcases List.mem_cons.mp hH with rfl | hH
    · obtain ⟨a', r, ha', hk, htwo⟩ := hspends
      rw [ha, Option.some.injEq] at ha'
      rw [← ha'] at hk htwo
      have hle := hs.refs_le_one hp (List.cons_ne_nil _ _) ha hk htwo
      have hpos : 1 ≤ G'.refs o.key := by
        rw [refs_eq]
        exact List.one_le_count_iff.mpr (List.mem_map_of_mem ho)
      have hne := hkeep r (hka.symm.trans hk) hprog
      rw [hka] at hle
      omega
    · exact hGs hprog H hH hspends
  · obtain ⟨X, hX, rfl⟩ := (hs.settled hp).closed
      (Grammar.mem_flatten_of_mem_body hR (by simp [hbody])) hk
    have hspends : spent ∨ ∃ H ∈ G :: Gs, H.Spends := by
      refine (huse hprog).imp_right fun hboth => ?_
      obtain ⟨huse, hspare⟩ := hboth
      by_contra hno
      have huseful := (hs.useful_iff hp huse hspare).mpr fun H hH hsp => hno ⟨H, hH, hsp⟩
      have htwo := huseful X hX
      rw [← hk] at htwo
      omega
    have hcut : R.body = ([] : List Grammar.Sym).reverse ++ o :: [o'] := hbody
    refine ((ensures_expand (h.symbol_eq hR' hcut) h.gone).weaken fun e _ =>
      Or.inr ⟨hprog, hspends⟩).mono fun _ st' hst' => Or.inr ⟨hprog, hspends, X, hX, ?_⟩
    rw [hk] at hst'
    exact hst'

/-- Behind a dissolved rule no rule comes back. -/
theorem ensures_endMatch_shrunk {r : ℕ} (h : Shrunk cfg st G') (hprog : cfg.program = .sequitur)
    (hspends : spent ∨ ∃ H ∈ Gs, H.Spends) :
    Ensures (admitted cfg spent Gs) (dissolve cfg r) st fun _ st' =>
      Outcome cfg spent G' Gs st' := by
  obtain ⟨R, hR, hgone⟩ := h
  refine ((maintains_dissolve r st hgone).weaken fun e _ => Or.inr ⟨hprog, hspends⟩).mono
    fun _ st' hst' => Or.inr ⟨hprog, hspends, R, hR, hst'⟩

/-- The checks of `substitute` where the pair before the new symbol is settled. -/
theorem ensures_settleChecks {ok : Stop → Prop} {left : List Grammar.Sym} {z : Grammar.Sym}
    {depth : ℕ} {Q : Store → Prop} (hS : G.start = left.reverse ++ [z])
    (hcheck : Ensures ok (checkPut cfg (depth + 1)
        (before (cfg.address 1) (left.map fun x => cfg.address x.tag))) st fun res st' =>
      Q st' ∧ (res = false → G'.start = G.start ∧ Models cfg st' G')) :
    Ensures ok (recheck (checkPut cfg (depth + 1))
        (before (cfg.address 1) (left.map fun x => cfg.address x.tag))) st fun _ st' => Q st' := by
  refine hcheck.bind ?_
  rintro res st' ⟨hQ, hfalse⟩
  cases res with
  | true => exact hQ
  | false =>
    -- Behind the new symbol is the guard.
    obtain ⟨hstart, h'⟩ := hfalse rfl
    have hS' := hstart.trans hS
    obtain ⟨q, hq, hqn⟩ := h'.symbol_before hS'
    simp only [Bool.false_eq_true, ↓reduceIte]
    rw [ensures_bind, ensures_loadSymbol hq, hqn, ensures_bind]
    exact h'.ensures_checkPut_guard (h'.symbol_eq start_mem hS') (Or.inr (h'.isGuard start_mem)) hQ
      depth

/-- A match with the body of a rule, from what is known of the pair that it makes. -/
theorem ensures_match_whole (hp : G.Pending) (h : Models cfg st G)
    (huse : cfg.program = .sequitur → spent ∨ G.Useful ∧ G.Spare) {left : List Grammar.Sym}
    {a b o : Grammar.Sym} {R : Grammar.Ring} (hS : G.start = left.reverse ++ [a, b])
    (hI : G.index (a.key, b.key) = some o) (hR : R ∈ G.rules) (ho : R.body.head? = some o)
    (hnext : Grammar.Settles (G.substitute left a b [] R.rule) Gs G') {depth : ℕ}
    (hinner : ∀ st', Models cfg st' (G.substitute left a b [] R.rule) →
      Ensures (admitted cfg (spent ∨ G.Spends) Gs) (checkPut cfg (depth + 1)
        (before (cfg.address 1) (left.map fun x => cfg.address x.tag))) st' fun res st'' =>
        Outcome cfg (spent ∨ G.Spends) G' Gs st''
          ∧ (res = false → G'.start = (G.substitute left a b [] R.rule).start
            ∧ Models cfg st'' G')) :
    Ensures (admitted cfg spent (G :: Gs)) (matchDigram cfg (checkPut cfg (depth + 1))
      (cfg.address a.tag) (cfg.address o.tag)) st fun _ st' =>
        Outcome cfg spent G' (G :: Gs) st' := by
  obtain ⟨o', hbody, hka, hkb⟩ := hp.body_eq hI hR ho
  have hspent : ∀ {p : Prop}, ((p ∨ G.Spends) ∨ ∃ H ∈ Gs, H.Spends) →
      p ∨ ∃ H ∈ G :: Gs, H.Spends := by
    rintro p ((hp | hsp) | ⟨H, hH, hsp⟩)
    · exact Or.inl hp
    · exact Or.inr ⟨G, List.mem_cons_self, hsp⟩
    · exact Or.inr ⟨H, List.mem_cons_of_mem _ hH, hsp⟩
  have hadmitted : ∀ e, admitted cfg (spent ∨ G.Spends) Gs e → admitted cfg spent (G :: Gs) e :=
    fun e he => he.imp_right (And.imp_right fun hsp => hspent hsp)
  have hinv : ∀ {R}, R ∈ G.rules → R.rule ≠ 0 := fun hR => by
    have := (hp.inv.rule_lt hR).1
    omega
  rw [matchDigram_eq, ensures_bind]
  refine h.ensures_ruleFor_whole hR hbody ?_
  refine Models.ensures_substitute (fun _ he => Or.inl he) h hinv hS ⟨R, hR, rfl⟩ fun st₁ h₁ => ?_
  refine (ensures_settleChecks rfl ((hinner st₁ h₁).weaken hadmitted)).mono fun _ st₂ h₂ => ?_
  rcases h₂ with ⟨h₂, hGs⟩ | ⟨hprog, hsp, hshrunk⟩
  · exact ensures_endMatch (.reuse hS hI hR ho hnext) hp huse h₂ hGs (Grammar.lastPair_eq hS)
      (hnext.rules_subset hR) hbody hka
  · exact ensures_endMatch_shrunk hshrunk hprog (hspent hsp)

/-- A match with another place of the start sequence. -/
theorem ensures_match_fresh (hp : G.Pending) (h : Models cfg st G)
    (huse : cfg.program = .sequitur → spent ∨ G.Useful ∧ G.Spare) {pre mid : List Grammar.Sym}
    {o o' a b : Grammar.Sym} (hS : G.start = pre.reverse ++ o :: o' :: (mid ++ [a, b]))
    (hI : G.index (a.key, b.key) = some o) (depth : ℕ) :
    Ensures (admitted cfg spent [G]) (matchDigram cfg (checkPut cfg (depth + 1))
      (cfg.address a.tag) (cfg.address o.tag)) st fun _ st' =>
        Outcome cfg spent (G.fresh pre o o' mid a b) [G] st' := by
  rw [matchDigram_eq]
  refine ((Models.ensures_ruleFor_fresh hp hS depth h hI).weaken fun _ he => Or.inl he).bind ?_
  rintro _ st₁ ⟨rfl, h₁⟩
  have hR : (⟨G.used, G.used + 1, [⟨G.used + 2, a.key⟩, ⟨G.used + 3, b.key⟩]⟩ : Grammar.Ring)
      ∈ (G.fresh pre o o' mid a b).rules := by
    rw [Grammar.rules_fresh]
    exact List.mem_append_right _ (List.mem_singleton_self _)
  exact ensures_endMatch (.fresh hS hI) hp huse h₁ (fun _ _ hH => absurd hH List.not_mem_nil)
    ((Grammar.fresh_lastPair hS).mpr rfl) hR rfl rfl

theorem left_eq {l left left' : List Grammar.Sym} {a b b' : Grammar.Sym}
    (h : l = left.reverse ++ [b]) (h' : l = left'.reverse ++ [a, b']) : left = a :: left' := by
  have heq := congrArg List.reverse (h.symm.trans h')
  simp only [List.reverse_append, List.reverse_reverse, List.reverse_cons, List.reverse_nil,
    List.nil_append, List.cons_append, List.cons.injEq] at heq
  exact heq.2

/-- **`checkPut` settles the last pair.** -/
theorem ensures_checkPut (hs : Grammar.Settles G Gs G') (hp : G.Pending) (h : Models cfg st G)
    (huse : cfg.program = .sequitur → spent ∨ G.Useful ∧ G.Spare) {left : List Grammar.Sym}
    {b : Grammar.Sym} (hstart : G.start = left.reverse ++ [b]) {depth : ℕ}
    (hdepth : left.length ≤ depth) :
    Ensures (admitted cfg spent Gs) (checkPut cfg (depth + 1)
        (before (cfg.address 1) (left.map fun x => cfg.address x.tag))) st fun res st' =>
      Outcome cfg spent G' Gs st' ∧ (res = false → G'.start = G.start ∧ Models cfg st' G') := by
  have hnone : cfg.program = .sequitur → ∀ H ∈ ([] : List Grammar), ¬ H.Spends :=
    fun _ _ hH => absurd hH List.not_mem_nil
  induction hs generalizing st left b depth spent with
  | @short G hshort =>
    have hnil : left = [] := by
      rw [Grammar.lastPair, hstart] at hshort
      simpa using hshort
    subst hnil
    exact h.ensures_checkPut_guard (h.guard_eq start_mem) (Or.inl (h.isGuard start_mem))
      ⟨Or.inl ⟨h, hnone⟩, fun _ => ⟨rfl, h⟩⟩ depth
  | @record G left' a b' hS hI =>
    obtain rfl := left_eq hstart hS
    refine ((h.ensures_checkPut_new start_mem ⟨left'.reverse, [], hS⟩ hI depth).weaken
      fun _ he => Or.inl he).mono ?_
    rintro _ st' ⟨rfl, h'⟩
    exact ⟨Or.inl ⟨h', hnone⟩, fun _ => ⟨rfl, h'⟩⟩
  | @overlap G left' a b' o hS hI ho =>
    obtain rfl := left_eq hstart hS
    obtain ⟨left'', rfl⟩ := List.head?_eq_some_iff.mp ho
    have hS' : G.start = left''.reverse ++ o :: [a, b'] := by simp [hS]
    exact h.ensures_checkPut_found (fun _ he => Or.inl he) start_mem ⟨_, [], hS⟩ hI
      (h.symbol_eq start_mem hS') (fun _ => ⟨Or.inl ⟨h, hnone⟩, fun hf => by cases hf⟩)
      fun hne => absurd rfl hne
  | @reuse G G' Gs left' a b' o R hS hI hR ho hnext ih =>
    obtain rfl := left_eq hstart hS
    obtain ⟨o', hbody, -, -⟩ := hp.body_eq hI hR ho
    have hcut : R.body = ([] : List Grammar.Sym).reverse ++ o :: [o'] := hbody
    have hR' : R ∈ G.rings := List.mem_cons_of_mem _ hR
    obtain ⟨depth, rfl⟩ : ∃ d, depth = d + 1 := ⟨depth - 1, by simp at hdepth; omega⟩
    have hp' := hp.reuse hS hI hR ho
    refine h.ensures_checkPut_found (fun _ he => Or.inl he) start_mem ⟨_, [], hS⟩ hI
      (h.symbol_eq hR' hcut) (fun heq => ?_) fun _ => ?_
    · -- The second symbol of the rule is not in the start sequence.
      have ha : a ∈ G.start := by simp [hS]
      have ho' : o' ∈ R.body := by simp [hbody]
      have heq' := h.address_injOn (placed_iff.mpr ⟨R, hR', ho'⟩) (placed_iff.mpr ⟨_, start_mem, ha⟩)
        heq
      have hnodup := hp.inv.flatten_nodup
      rw [Grammar.bodies_eq, List.flatten_cons, List.nodup_append] at hnodup
      exact absurd heq'.symm (hnodup.2.2 a ha o'
        (List.mem_flatten_of_mem (List.mem_map_of_mem hR) ho'))
    · have huse' : cfg.program = .sequitur → (spent ∨ G.Spends)
          ∨ (G.substitute left' a b' [] R.rule).Useful
            ∧ (G.substitute left' a b' [] R.rule).Spare := by
        intro hprog
        by_cases hsp : G.Spends
        · exact Or.inl (Or.inr hsp)
        · exact (huse hprog).imp Or.inl fun h => h.1.reuse hp h.2 hsp hS hI hR ho
      refine (ensures_match_whole hp h huse hS hI hR ho hnext fun st' h' =>
        ih hp' h' huse' rfl ?_).mono fun _ _ hout => ⟨hout, fun hf => by cases hf⟩
      simpa using hdepth
  | @fresh G pre mid o o' a b' hS hI =>
    have hlast : G.start = (mid.reverse ++ o' :: o :: pre).reverse ++ [a, b'] := by simp [hS]
    obtain rfl := left_eq hstart hlast
    obtain ⟨depth, rfl⟩ : ∃ d, depth = d + 1 := ⟨depth - 1, by simp at hdepth; omega⟩
    refine h.ensures_checkPut_found (fun _ he => Or.inl he) start_mem ⟨_, [], hlast⟩ hI
      (h.symbol_eq start_mem hS) (fun heq => ?_) fun _ => ?_
    · have ha : a ∈ G.start := by simp [hS]
      have ho' : o' ∈ G.start := by simp [hS]
      have heq' := h.address_injOn (placed_iff.mpr ⟨_, start_mem, ho'⟩)
        (placed_iff.mpr ⟨_, start_mem, ha⟩) heq
      exact absurd heq' (hp.distinct hS).2.2.2.2.2.1
    · exact (ensures_match_fresh hp h huse hS hI depth).mono fun _ _ hout =>
        ⟨hout, fun hf => by cases hf⟩

end GrammarHeap
