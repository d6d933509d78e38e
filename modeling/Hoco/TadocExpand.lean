import Hoco.TadocTable

/-!
# Dissolving a rule in `tadoc.c`

`expand` puts the body of a rule in the place of the last reference to it. Two new
pairs of neighbours come into being, and behind the first of them there is nothing to
do: the reference has been the first symbol of its rule. The second one, of the last
symbol of the body and the one behind the reference, is to be recorded. `sequitur.cc`
stores the symbol in the slot of the pair, `tadoc.c` marks that slot as deleted. So the
pair is not in the table afterwards, and where another place with the same keys was, it
is not in it either (`not_expanded`).

To see that the pair is in no other slot one has to follow the table through the whole
operation, in the middle of which the memory is in no good state: a ring without a
guard, a symbol with a key that is none. `Torn` is what can be said all the time: that
the entries of the table are symbols with their digrams, and that a given set of
symbols – those whose links or key are being changed – are not among them. Nothing is
said about the run not being stopped, so that none of the tests on the way has to be
evaluated.
-/

namespace GrammarHeap

open Triple PairIndex OpenAddressing LinkedRing

variable {cfg : Config} {st : Store} {X : Set ℕ} {a left right : ℕ} {s : Symbol}

/-! ## Reading, whatever is there -/

theorem ensures_loadSymbol_of_some {Q : Symbol → Store → Prop}
    (h : ∀ s, st.symbols a = some s → Q s st) : Ensures (fun _ => True) (loadSymbol a) st Q := by
  cases hs : st.symbols a with
  | some s => exact (ensures_loadSymbol hs).mpr (h s hs)
  | none =>
    rw [loadSymbol, ensures_bind, ensures_get, hs]
    exact trivial

/-- A count is changed, and neither symbols nor slots. -/
theorem keeps_deuse (r : ℕ) : Keeps (fun st => (st.symbols, st.hashTable)) (deuse r) :=
  (keeps_loadRule r).bind fun _ _ => rfl

/-- The last two lines of `join`. -/
theorem ensures_links (st : Store) (left right : ℕ) :
    Ensures (fun _ => True) (do
      modifySymbol left fun s => { s with n := right }
      modifySymbol right fun s => { s with p := left }) st fun _ st' =>
        st' = { st with symbols := link st.symbols left right } := by
  cases hl : st.symbols left with
  | none =>
    rw [ensures_bind, modifySymbol, ensures_bind]
    exact ensures_loadSymbol_of_some fun l hl' => by cases hl.symm.trans hl'
  | some l =>
    cases hr : st.symbols right with
    | none =>
      have hne : right ≠ left := fun heq => by cases hl.symm.trans (heq ▸ hr)
      rw [ensures_bind, ensures_modifySymbol hl, modifySymbol, ensures_bind]
      refine ensures_loadSymbol_of_some fun r hr' => ?_
      cases hr.symm.trans ((Function.update_of_ne hne _ _).symm.trans hr')
    | some r => exact (ensures_link hl hr).mpr rfl

/-! ## The table of a memory that is being taken apart -/

/-- **The entries of the table are symbols with their digrams**, and none of them is in
the set. -/
structure Store.Torn (st : Store) (X : Set ℕ) : Prop where
  gt : ∀ {a s}, st.symbols a = some s → 1 < a
  table : ∃ T, st.Entries T ∧ ∀ {d a}, T d = some a → a ∉ X

/-- The operation has changed nothing but slots, and the table is still one. -/
def Store.Retabled (st : Store) (X : Set ℕ) (st' : Store) : Prop :=
  (∃ slots, st' = { st with hashTable := slots }) ∧ st'.Torn X

namespace Store.Torn

theorem congr {st' : Store} (h : st.Torn X) (hsymbols : st'.symbols = st.symbols)
    (htable : st'.hashTable = st.hashTable) : st'.Torn X := by
  obtain ⟨T, hT, havoid⟩ := h.table
  refine ⟨fun hs => h.gt (hsymbols ▸ hs), T, ⟨htable ▸ hT.holds, fun hd => ?_⟩, havoid⟩
  rw [hsymbols]
  exact hT.pair hd

/-- A slot for the digram of a symbol is marked as deleted: the symbol is not in the
table any more. -/
theorem vacate (h : st.Torn X) {T : Index ℕ ℕ} (hT : st.Entries T)
    (havoid : ∀ {d a}, T d = some a → a ∉ X) {t : Symbol} (hs : st.symbols a = some s)
    (ht : st.symbols s.n = some t) {i : ℕ}
    (hi : SlotFor probing st.hashTable T (s.key, t.key) i) :
    Store.Torn { st with hashTable := Function.update st.hashTable i 1 } (insert a X)
      ∧ Store.Entries { st with hashTable := Function.update st.hashTable i 1 }
        (Function.update T (s.key, t.key) none) := by
  have hentries : Store.Entries { st with hashTable := Function.update st.hashTable i 1 }
      (Function.update T (s.key, t.key) none) :=
    ⟨hT.holds.vacate hi, fun hd => hT.pair (ne_and_eq_of_update_none hd).2⟩
  refine ⟨⟨h.gt, _, hentries, fun {d b} hd hb => ?_⟩, hentries⟩
  obtain ⟨hdk, hd⟩ := ne_and_eq_of_update_none hd
  rcases hb with rfl | hb
  · exact hdk (hT.key_eq hs ht hd)
  · exact havoid hd hb

variable (h : st.Torn X)

include h

theorem ensures_findDigram (a : ℕ) : Ensures (fun _ => True) (findDigram a) st fun i st' =>
    st' = st ∧ ∃ T s t, st.Entries T ∧ (∀ {d a}, T d = some a → a ∉ X)
      ∧ st.symbols a = some s ∧ st.symbols s.n = some t
      ∧ SlotFor probing st.hashTable T (s.key, t.key) i := by
  obtain ⟨T, hT, havoid⟩ := h.table
  cases hs : st.symbols a with
  | none =>
    rw [findDigram, ensures_bind]
    exact ensures_loadSymbol_of_some fun s hs' => by rw [hs] at hs'; cases hs'
  | some s =>
    cases ht : st.symbols s.n with
    | none =>
      rw [findDigram, ensures_bind, ensures_loadSymbol hs, ensures_bind]
      exact ensures_loadSymbol_of_some fun t ht' => by rw [ht] at ht'; cases ht'
    | some t =>
      refine ((hT.ensures_findDigram hs ht).weaken fun _ _ => trivial).mono ?_
      rintro i st' ⟨rfl, hi⟩
      exact ⟨rfl, T, s, t, hT, havoid, rfl, ht, hi⟩

/-- A symbol outside of the set may be recorded. -/
theorem ensures_recordDigram (ha : a ∉ X) :
    Ensures (fun _ => True) (recordDigram a) st fun _ => st.Retabled X := by
  rw [recordDigram]
  refine (h.ensures_findDigram a).bind ?_
  rintro i _ ⟨rfl, T, s, t, hT, havoid, hs, ht, hi⟩
  rw [ensures_storeSlot]
  refine ⟨⟨_, rfl⟩, h.gt, _,
    ⟨hT.holds.record hi (h.gt hs) fun d hd => hT.key_eq hs ht hd, fun {d b} hd => ?_⟩,
    fun {d b} hd => ?_⟩
  · rcases Edit.run_eq_some (e := .record a (s.key, t.key)) hd with hd | heq
    · exact hT.pair hd
    · cases heq
      exact ⟨s, t, hs, ht, rfl⟩
  · rcases Edit.run_eq_some (e := .record a (s.key, t.key)) hd with hd | heq
    · exact havoid hd
    · cases heq
      exact ha

/-- A symbol of the set has nothing to be deleted. -/
theorem ensures_deleteDigram (ha : a ∈ X) :
    Ensures (fun _ => True) (deleteDigram a) st fun _ st' => st' = st := by
  rw [deleteDigram, ensures_bind]
  refine ensures_of_keeps (keeps_atGuard a) fun b => ?_
  split
  · rfl
  · refine (h.ensures_findDigram a).bind ?_
    rintro i _ ⟨rfl, T, s, t, hT, havoid, hs, ht, hlt, hi⟩
    rw [ensures_bind, ensures_loadSlot, if_neg]
    · rfl
    · intro hia
      rw [hia] at hi
      cases hk : T (s.key, t.key) with
      | some b =>
        rw [hk] at hi
        exact havoid hk (hi ▸ ha)
      | none =>
        rw [hk] at hi
        exact absurd (h.gt hs) (Nat.not_lt.mpr hi.1)

theorem retabled : st.Retabled X st := ⟨⟨st.hashTable, rfl⟩, h⟩

theorem ensures_keepRight (hright : right ∉ X) :
    Ensures (fun _ => True) (keepRight cfg right) st fun _ => st.Retabled X := by
  rw [keepRight, ensures_bind]
  refine ensures_loadSymbol_of_some fun r hr => ?_
  split
  · rw [ensures_bind]
    refine ensures_loadSymbol_of_some fun rp _ => ?_
    split
    · rw [ensures_bind]
      refine ensures_loadSymbol_of_some fun rn _ => ?_
      split
      · exact h.ensures_recordDigram hright
      · exact h.retabled
    · exact h.retabled
  · exact h.retabled

theorem ensures_keepLeft (hleft : ∀ l, st.symbols left = some l → l.p ∉ X) :
    Ensures (fun _ => True) (keepLeft cfg left) st fun _ => st.Retabled X := by
  rw [keepLeft, ensures_bind]
  refine ensures_loadSymbol_of_some fun l hl => ?_
  split
  · rw [ensures_bind]
    refine ensures_loadSymbol_of_some fun ln _ => ?_
    split
    · rw [ensures_bind]
      refine ensures_loadSymbol_of_some fun lp _ => ?_
      split
      · exact h.ensures_recordDigram (hleft l hl)
      · exact h.retabled
    · exact h.retabled
  · exact h.retabled

/-- What `join` does to the table. -/
theorem ensures_leave (hleft : left ∈ X) (hright : right ∉ X)
    (hprev : ∀ l, st.symbols left = some l → l.p ∉ X) :
    Ensures (fun _ => True) (leave cfg left right) st fun _ => st.Retabled X := by
  rw [leave, ensures_bind]
  refine ensures_loadSymbol_of_some fun l _ => ?_
  split
  · refine (h.ensures_deleteDigram hleft).bind ?_
    rintro _ _ rfl
    refine (h.ensures_keepRight hright).bind ?_
    rintro _ _ ⟨⟨slots, rfl⟩, h'⟩
    refine (h'.ensures_keepLeft hprev).mono ?_
    rintro _ _ ⟨⟨slots', rfl⟩, h''⟩
    exact ⟨⟨slots', rfl⟩, h''⟩
  · exact h.retabled

/-- The symbols are changed, but not what makes the digrams of those outside of the
set. -/
theorem resymbol {f : ℕ → Option Symbol}
    (hlive : ∀ {a s}, f a = some s → ∃ s', st.symbols a = some s')
    (hpair : ∀ {a s t}, a ∉ X → st.symbols a = some s → st.symbols s.n = some t →
      ∃ s' t', f a = some s' ∧ f s'.n = some t' ∧ s'.key = s.key ∧ t'.key = t.key) :
    Store.Torn { st with symbols := f } X := by
  obtain ⟨T, hT, havoid⟩ := h.table
  refine ⟨fun hs => ?_, T, ⟨hT.holds, fun {d a} hd => ?_⟩, havoid⟩
  · obtain ⟨s', hs'⟩ := hlive hs
    exact h.gt hs'
  · obtain ⟨s, t, hs, ht, hkey⟩ := hT.pair hd
    obtain ⟨s', t', hs', ht', hks, hkt⟩ := hpair (havoid hd) hs ht
    exact ⟨s', t', hs', ht', by rw [hkey, hks, hkt]⟩

/-- A symbol of the set gets another next one. -/
theorem link (hleft : left ∈ X) (right : ℕ) :
    Store.Torn { st with symbols := link st.symbols left right } X := by
  refine h.resymbol (fun {a s} hs => ?_) fun {a s t} ha hs ht => ?_
  · rw [link_apply, Option.map_eq_some_iff] at hs
    exact ⟨hs.choose, hs.choose_spec.1⟩
  · have hne : a ≠ left := fun heq => ha (heq ▸ hleft)
    refine ⟨{ s with p := if a = right then left else s.p }, _, ?_, link_of_some ht, rfl, rfl⟩
    rw [link_of_some hs, if_neg hne]

/-- **`join` from a symbol of the set** to one outside of it. -/
theorem ensures_join (hleft : left ∈ X) (hright : right ∉ X)
    (hprev : ∀ l, st.symbols left = some l → l.p ∉ X) :
    Ensures (fun _ => True) (join cfg left right) st fun _ st' =>
      st'.symbols = GrammarHeap.link st.symbols left right ∧ st'.Torn X := by
  rw [join]
  refine (h.ensures_leave hleft hright hprev).bind ?_
  rintro _ _ ⟨⟨slots, rfl⟩, h'⟩
  refine (ensures_links _ left right).mono ?_
  rintro _ _ rfl
  exact ⟨rfl, h'.link hleft right⟩

/-- A symbol of the set that is not behind an entry is freed. -/
theorem free (ha : a ∈ X) (hbefore : ∀ b t, st.symbols b = some t → t.n = a → b ∈ X) :
    Store.Torn { st with symbols := Function.update st.symbols a none } X := by
  refine h.resymbol (fun {b s} hs => ?_) fun {b s t} hb hs ht => ?_
  · by_cases hba : b = a
    · rw [hba, Function.update_self] at hs
      cases hs
    · rw [Function.update_of_ne hba] at hs
      exact ⟨s, hs⟩
  · have hba : b ≠ a := fun heq => hb (heq ▸ ha)
    have hn : s.n ≠ a := fun heq => hb (hbefore b s hs heq)
    exact ⟨s, t, (Function.update_of_ne hba _ _).trans hs, (Function.update_of_ne hn _ _).trans ht,
      rfl, rfl⟩

/-- **`destroySymbol` on a symbol of the set** that is behind one of the set. -/
theorem ensures_destroySymbol (hs : st.symbols a = some s) (ha : a ∈ X) (hp : s.p ∈ X)
    (hn : s.n ∉ X) (hprev : ∀ l, st.symbols s.p = some l → l.p ∉ X)
    (hbefore : ∀ b t, st.symbols b = some t → t.n = a → b ∈ X) :
    Ensures (fun _ => True) (destroySymbol cfg a) st fun _ st' =>
      st'.symbols = Function.update (GrammarHeap.link st.symbols s.p s.n) a none ∧ st'.Torn X := by
  have hfree : ∀ {st' : Store}, st'.symbols = GrammarHeap.link st.symbols s.p s.n → st'.Torn X →
      Ensures (fun _ => True) (freeSymbol a) st' fun _ st' =>
        st'.symbols = Function.update (GrammarHeap.link st.symbols s.p s.n) a none
          ∧ st'.Torn X := fun {st'} hsym h' => by
    refine ⟨congrArg (Function.update · a none) hsym, h'.free ha fun b t hb htn => ?_⟩
    rw [hsym, link_apply, Option.map_eq_some_iff] at hb
    obtain ⟨t', hb, rfl⟩ := hb
    by_cases hbp : b = s.p
    · rwa [hbp]
    · rw [if_neg hbp] at htn
      exact hbefore b t' hb htn
  rw [destroySymbol, ensures_bind, ensures_loadSymbol hs]
  refine (h.ensures_join hp hn hprev).bind ?_
  rintro _ st₁ ⟨hsym, h₁⟩
  rw [ensures_bind]
  refine ensures_of_keeps (keeps_isGuard a) fun b => ?_
  split
  · exact hfree hsym h₁
  · refine (h₁.ensures_deleteDigram ha).bind ?_
    rintro _ _ rfl
    rw [ensures_bind]
    refine ensures_loadSymbol_of_some fun s' _ => ?_
    split
    · refine (keeps_deuse s'.key _).bind fun _ st₂ h₂ => ?_
      obtain ⟨hsym₂, htable₂⟩ := Prod.mk.inj h₂
      exact hfree (hsym₂.trans hsym) (h₁.congr hsym₂ htable₂)
    · exact hfree hsym h₁

/-- A symbol is taken out of the table. -/
theorem ensures_unrecord (a : ℕ) {c : M Unit} {Q : Unit → Store → Prop}
    (hc : ∀ st' : Store, st'.symbols = st.symbols → st'.Torn (insert a X) →
      Ensures (fun _ => True) c st' Q) :
    Ensures (fun _ => True) (do
      let m ← findDigram a
      if (← loadSlot m) = a then storeSlot m 1
      else pure ()
      c) st Q := by
  refine (h.ensures_findDigram a).bind ?_
  rintro i st ⟨rfl, T, s, t, hT, havoid, hs, ht, hi⟩
  rw [ensures_bind, ensures_loadSlot]
  split
  · rw [ensures_bind, ensures_storeSlot]
    exact hc _ rfl (h.vacate hT havoid hs ht hi).1
  · rename_i hne
    refine hc st rfl ⟨h.gt, T, hT, fun {d b} hd hb => ?_⟩
    rcases hb with rfl | hb
    · have hk := hT.key_eq hs ht hd ▸ hd
      have hslot := hi.2
      rw [hk] at hslot
      exact hne hslot
    · exact havoid hd hb

end Store.Torn

/-! ## What the links leave alone -/

section Links

variable {f : ℕ → Option Symbol} {b : ℕ} {P : Symbol → Prop}

/-- If there is a symbol, it has the property. -/
def Has (P : Symbol → Prop) (f : ℕ → Option Symbol) (a : ℕ) : Prop := ∀ t, f a = some t → P t

theorem has_of_some {t : Symbol} (h : f a = some t) (ht : P t) : Has P f a := fun t' ht' => by
  rw [h, Option.some.injEq] at ht'
  exact ht' ▸ ht

theorem Has.update (h : Has P f a) (hne : a ≠ b) (v : Option Symbol) :
    Has P (Function.update f b v) a := fun t ht => by
  rw [Function.update_of_ne hne] at ht
  exact h t ht

theorem Has.key_link {k : ℕ} (h : Has (·.key = k) f a) (left right : ℕ) :
    Has (·.key = k) (link f left right) a := fun t ht => by
  rw [link_apply, Option.map_eq_some_iff] at ht
  obtain ⟨t, ht, rfl⟩ := ht
  exact h t ht

theorem Has.prev_link (h : Has (·.p ∉ X) f a) (left : ℕ) (hne : a ≠ right) :
    Has (·.p ∉ X) (link f left right) a := fun t ht => by
  rw [link_apply, Option.map_eq_some_iff] at ht
  obtain ⟨t, ht, rfl⟩ := ht
  rw [if_neg hne]
  exact h t ht

theorem has_of_prevOf (h : prevOf f a = some b) (hb : b ∉ X) : Has (·.p ∉ X) f a := by
  obtain ⟨t, ht, rfl⟩ := exists_of_prevOf h
  exact has_of_some ht hb

theorem has_next_link (f : ℕ → Option Symbol) (left right : ℕ) :
    Has (·.n = right) (link f left right) left := fun t ht => by
  rw [link_apply, Option.map_eq_some_iff] at ht
  obtain ⟨t, -, rfl⟩ := ht
  exact if_pos rfl

theorem link_of_ne (hl : a ≠ left) (hr : a ≠ right) : link f left right a = f a := by
  rw [link_apply]
  simp [hl, hr]

end Links

/-! ## The operation -/

/-- A digram is recorded. -/
def Store.Recorded (st : Store) (one two : ℕ) : Prop :=
  ∃ i < prime, 1 < st.hashTable i ∧ st.starts one two (st.hashTable i) = true

theorem Store.Entries.not_recorded {T : Index ℕ ℕ} (hT : st.Entries T) {one two : ℕ}
    (hnone : T (one, two) = none) : ¬ st.Recorded one two := by
  rintro ⟨i, hi, hgt, hstarts⟩
  obtain ⟨d, hd⟩ := hT.holds.only hi hgt
  rw [hT.starts_iff hd, hnone] at hstarts
  cases hstarts

/-- **The pair that is marked as deleted is recorded nowhere**: the symbol `a` goes, and
the symbols from `first` to `last` take its place. -/
theorem Store.Torn.ensures_replace (h : st.Torn X) (hprog : cfg.program = .tadoc)
    {first last : ℕ} (hs : st.symbols a = some s) (ha : a ∈ X) (hp : s.p ∈ X) (hn : s.n ∉ X)
    (hfirst : first ∉ X) (hlast : last ∈ X) (hap : s.p ≠ a) (hal : last ≠ a)
    (hbefore : ∀ b t, st.symbols b = some t → t.n = a → b ∈ X)
    (hprevp : Has (·.p ∉ X) st.symbols s.p) (hprevl : Has (·.p ∉ X) st.symbols last)
    {kl kr : ℕ} (hkl : Has (·.key = kl) st.symbols last) (hkr : Has (·.key = kr) st.symbols s.n) :
    Ensures (fun _ => True) (do
      destroySymbol cfg a
      join cfg s.p first
      join cfg last s.n
      let m ← findDigram last
      match cfg.program with
      | .tadoc => storeSlot m 1
      | .sequitur => storeSlot m last) st fun _ st' => ¬ st'.Recorded kl kr := by
  have hout : ∀ {b c : ℕ}, b ∈ X → c ∉ X → b ≠ c := fun hb hc heq => hc (heq ▸ hb)
  have hna : s.n ≠ a := (hout ha hn).symm
  refine (h.ensures_destroySymbol hs ha hp hn hprevp hbefore).bind ?_
  rintro _ st₁ ⟨hsym₁, h₁⟩
  have hprevp₁ : Has (·.p ∉ X) st₁.symbols s.p := by
    rw [hsym₁]
    exact (hprevp.prev_link _ (hout hp hn)).update hap none
  refine (h₁.ensures_join hp hfirst hprevp₁).bind ?_
  rintro _ st₂ ⟨hsym₂, h₂⟩
  have hprevl₂ : Has (·.p ∉ X) st₂.symbols last := by
    rw [hsym₂, hsym₁]
    exact ((hprevl.prev_link _ (hout hlast hn)).update hal none).prev_link _ (hout hlast hfirst)
  refine (h₂.ensures_join hlast hn hprevl₂).bind ?_
  rintro _ st₃ ⟨hsym₃, h₃⟩
  refine (h₃.ensures_findDigram last).bind ?_
  rintro i _ ⟨rfl, T, l, t, hT, havoid, hl, ht, hi⟩
  -- the two symbols still have their keys
  have hkey : ∀ {b k}, b ≠ a → Has (·.key = k) st.symbols b →
      Has (·.key = k) (GrammarHeap.link st₂.symbols last s.n) b := fun {b k} hb hk => by
    rw [hsym₂, hsym₁]
    exact (((hk.key_link _ _).update hb none).key_link _ _).key_link _ _
  rw [hsym₃] at hl ht
  obtain rfl := hkey hal hkl l hl
  have hln : l.n = s.n := has_next_link _ _ _ l hl
  obtain rfl := hkey hna hkr t (hln ▸ ht)
  rw [← hsym₃] at hl ht
  rw [hprog, ensures_storeSlot]
  exact (h₃.vacate hT havoid hl ht hi).2.not_recorded (Function.update_self ..)

/-- **What `expand` meets**: `this` between the guard `g` and the symbol `right`, and the
ring of its rule, with the guard `h` between the symbols `last` and `first`. -/
structure Store.Splice (st : Store) (this rule g right h first last : ℕ) : Prop where
  rule_eq : ∃ R, st.rules rule = some R ∧ R.guard = h
  this_eq : ∃ s, st.symbols this = some s ∧ s.n = right ∧ s.p = g ∧ s.key = rule
  guard_eq : ∃ s, st.symbols h = some s ∧ s.n = first ∧ s.p = last
  before_this : ∀ {b t}, st.symbols b = some t → t.n = this → b = g
  before_guard : ∀ {b t}, st.symbols b = some t → t.n = h → b = last
  prev_g : Has (·.p ∉ ({this, g, h, last} : Set ℕ)) st.symbols g
  prev_last : Has (·.p ∉ ({this, g, h, last} : Set ℕ)) st.symbols last
  right_notMem : right ∉ ({this, g, h, last} : Set ℕ)
  first_notMem : first ∉ ({this, g, h, last} : Set ℕ)
  this_notMem : this ∉ ({g, h, last} : Set ℕ)
  g_ne : g ≠ h ∧ g ≠ last
  h_ne : h ≠ last
  torn : st.Torn {g, h, last}

namespace Store.Splice

variable {this rule g h first last : ℕ} (hs : st.Splice this rule g right h first last)

include hs

/-- The rule goes, and its symbols make a ring without a guard. -/
theorem ensures_destroyRule :
    Ensures (fun _ => True) (destroyRule cfg rule) st fun _ st' =>
      st'.symbols = Function.update (link st.symbols last first) h none
        ∧ st'.Torn {g, h, last} := by
  obtain ⟨R, hR, rfl⟩ := hs.rule_eq
  obtain ⟨t, ht, hn, hp⟩ := hs.guard_eq
  have htorn : Store.Torn { st with numRules := st.numRules - 1 } {g, R.guard, last} :=
    hs.torn.congr rfl rfl
  have hR' : Store.rules { st with numRules := st.numRules - 1 } rule = some R := hR
  rw [destroyRule, ensures_bind, ensures_modify, ensures_bind, ensures_loadRule hR']
  refine (htorn.ensures_destroySymbol ht (by simp) (by simp [hp]) ?_ ?_ ?_).bind
    fun _ st₁ h₁ => ?_
  · rw [hn]
    exact fun hmem => hs.first_notMem (Set.mem_insert_of_mem _ hmem)
  · intro l hl hmem
    rw [hp] at hl
    exact hs.prev_last l hl (Set.mem_insert_of_mem _ hmem)
  · intro b t' hb hbn
    rw [hs.before_guard hb hbn]
    simp
  · rw [hn, hp] at h₁
    exact ⟨h₁.1, h₁.2.congr rfl rfl⟩

/-- **The end of `expand`**, with the reference still in its ring: the pair of the last
symbol of the rule and the one behind the reference is not recorded. -/
theorem ensures_relink (hprog : cfg.program = .tadoc) {st₁ : Store}
    (hsym : st₁.symbols = Function.update (link st.symbols last first) h none)
    (h₁ : st₁.Torn {this, g, h, last}) {kl kr : ℕ} (hkl : Has (·.key = kl) st.symbols last)
    (hkr : Has (·.key = kr) st.symbols right) :
    Ensures (fun _ => True) (relink cfg this g right first last) st₁ fun _ st' =>
      ¬ st'.Recorded kl kr := by
  obtain ⟨s, hthis, rfl, rfl, -⟩ := hs.this_eq
  obtain ⟨hgh, hgl⟩ := hs.g_ne
  have hright := hs.right_notMem
  have hfirst := hs.first_notMem
  have htn := hs.this_notMem
  simp only [Set.mem_insert_iff, Set.mem_singleton_iff, not_or, ← ne_eq] at hright hfirst htn
  have hthis₁ : st₁.symbols this = some s := by
    rw [hsym, Function.update_of_ne htn.2.1, link_of_ne htn.2.2 hfirst.1.symm, hthis]
  have hbefore : ∀ b t, st₁.symbols b = some t → t.n = this →
      b ∈ ({this, s.p, h, last} : Set ℕ) := by
    intro b t hb hbn
    by_cases hbh : b = h
    · simp [hbh]
    by_cases hbl : b = last
    · simp [hbl]
    rw [hsym, Function.update_of_ne hbh, link_apply, Option.map_eq_some_iff] at hb
    obtain ⟨t, hb, rfl⟩ := hb
    rw [if_neg hbl] at hbn
    rw [hs.before_this hb hbn]
    simp
  -- the key of the reference is cleared
  rw [relink, ensures_bind, ensures_modifySymbol hthis₁]
  have h₂ : Store.Torn { st₁ with
      symbols := Function.update st₁.symbols this (some { s with key := 0 }) }
      {this, s.p, h, last} := by
    refine h₁.resymbol (fun {b t} hb => ?_) fun {b t t'} hb ht ht' => ?_
    · by_cases hbt : b = this
      · exact ⟨s, hbt ▸ hthis₁⟩
      · exact ⟨t, (Function.update_of_ne hbt _ _).symm.trans hb⟩
    · have hbt : b ≠ this := fun heq => hb (heq ▸ Set.mem_insert _ _)
      have hbn : t.n ≠ this := fun heq => hb (hbefore b t ht heq)
      exact ⟨t, t', (Function.update_of_ne hbt _ _).trans ht,
        (Function.update_of_ne hbn _ _).trans ht', rfl, rfl⟩
  have hkeep : ∀ {P : Symbol → Prop} {b}, b ≠ this → b ≠ h →
      Has P (link st.symbols last first) b →
      Has P (Function.update st₁.symbols this (some { s with key := 0 })) b :=
    fun {P b} hbt hbh hb => by
      rw [hsym]
      exact (hb.update hbh none).update hbt _
  refine h₂.ensures_replace hprog (Function.update_self ..) (by simp) (by simp)
    hs.right_notMem hs.first_notMem (by simp) htn.1.symm htn.2.2.symm (fun b t hb hbn => ?_)
    (hkeep htn.1.symm hgh (hs.prev_g.prev_link _ hfirst.2.1.symm))
    (hkeep htn.2.2.symm hs.h_ne.symm (hs.prev_last.prev_link _ hfirst.2.2.2.symm))
    (hkeep htn.2.2.symm hs.h_ne.symm (hkl.key_link _ _))
    (hkeep hright.1 hright.2.2.1 (hkr.key_link _ _))
  by_cases hbt : b = this
  · simp [hbt]
  · exact hbefore b t ((Function.update_of_ne hbt _ _).symm.trans hb) hbn

/-- **The pair at the end of the dissolved rule is not recorded.** -/
theorem ensures_expand (hprog : cfg.program = .tadoc) {kl kr : ℕ}
    (hkl : Has (·.key = kl) st.symbols last) (hkr : Has (·.key = kr) st.symbols right) :
    Ensures (fun _ => True) (expand cfg this) st fun _ st' => ¬ st'.Recorded kl kr := by
  obtain ⟨s, hthis, rfl, rfl, rfl⟩ := hs.this_eq
  obtain ⟨R, hR, rfl⟩ := hs.rule_eq
  obtain ⟨t, ht, rfl, rfl⟩ := hs.guard_eq
  rw [expand, ensures_bind, ensures_loadSymbol hthis]
  show Ensures _ (first s.key >>= _) st _
  rw [ensures_bind, GrammarHeap.first, ensures_bind, ensures_loadRule hR, ensures_bind,
    ensures_loadSymbol ht]
  show Ensures _ (GrammarHeap.last s.key >>= _) st _
  rw [ensures_bind, GrammarHeap.last, ensures_bind, ensures_loadRule hR, ensures_bind,
    ensures_loadSymbol ht]
  refine hs.ensures_destroyRule.bind ?_
  rintro _ st₁ ⟨hsym, h₁⟩
  refine h₁.ensures_unrecord this fun st₂ hsym₂ h₂ => ?_
  exact hs.ensures_relink hprog (hsym₂.trans hsym) h₂ hkl hkr

end Store.Splice

/-! ## Consistent grammars -/

/-- **A consistent grammar and digram table**: the memory consists of rules with their
symbols, a rule that is referred to has at least two of them, and the entries of the
table are first symbols of their digrams. -/
structure Store.Consistent (st : Store) (bias : ℤ) (rows : List Row) : Prop where
  layout : st.Layout bias rows
  long : ∀ {R}, R ∈ rows → refsOf rows R.rule ≠ 0 → 2 ≤ R.body.length
  table : ∃ T, st.Table T

/-- The symbol `s` is the first one of the rule `r`, which has others, and the only
reference to the rule `R`. -/
structure Underused (rows : List Row) (s r R : ℕ) : Prop where
  first : ∃ g y rest, ⟨r, g, ⟨s, R⟩ :: y :: rest⟩ ∈ rows
  rule : ∃ R' ∈ rows, R'.rule = R
  once : refsOf rows R = 1

/-- **What is expected of `expand`.** -/
structure Store.Expanded (st st' : Store) (s r R : ℕ) : Prop where
  /-- The body of `R` is in the place of its reference. -/
  body : ∃ inner rest, Body st R inner ∧ Body st r (.rule R :: rest) ∧ Body st' r (inner ++ rest)
  /-- The other rules have the bodies they had. -/
  others : ∀ {q keys}, q ≠ r → q ≠ R → Body st q keys → Body st' q keys
  /-- What is left has the text it had. -/
  texts : ∀ {q text}, q ≠ R → Text st q text → Text st' q text
  gone : st'.rules R = none
  /-- All digrams of the new body are recorded. -/
  digrams : ∀ {X a x y}, st'.rules r = some X → InBody st' X.guard a → st'.symbols a = some x →
    x.n ≠ X.guard → st'.symbols x.n = some y → st'.Recorded x.key y.key
  /-- In particular the last symbol of `R` and the one that has been behind `s`. -/
  pair : ∀ {X h l x y}, st.rules R = some X → st.symbols X.guard = some h →
    st.symbols h.p = some l → st.symbols s = some x → st.symbols x.n = some y →
    st'.Recorded l.key y.key

section Rows

variable {bias : ℤ} {rows : List Row} {r g h t k : ℕ} {y f l : Cell} {rest m : List Cell}

/-- The addresses in two rows. -/
theorem Store.Layout.addrs_nodup₂ (hlay : st.Layout bias rows) {R R' : Row} (hR : R ∈ rows)
    (hR' : R' ∈ rows) (hne : R ≠ R') : (R.cells.map Cell.addr ++ R'.cells.map Cell.addr).Nodup := by
  refine List.nodup_append.mpr ⟨hlay.addrs_nodup hR, hlay.addrs_nodup hR', fun a ha b hb hab => ?_⟩
  obtain ⟨x, hx, rfl⟩ := List.mem_map.mp ha
  obtain ⟨x', hx', rfl⟩ := List.mem_map.mp hb
  have heq := hlay.eq_of_addr (mem_cells.mpr ⟨R, hR, hx⟩) (mem_cells.mpr ⟨R', hR', hx'⟩) hab
  exact hne (hlay.row_unique hR hR' hx (heq ▸ hx'))

theorem apart_of_nodup {A B : List ℕ} {l : ℕ} (hnodup : (g :: t :: A ++ h :: (B ++ [l])).Nodup) :
    (∀ a ∈ A ++ B, a ∉ ({t, g, h, l} : Set ℕ)) ∧ t ∉ ({g, h, l} : Set ℕ) ∧ (g ≠ h ∧ g ≠ l)
      ∧ h ≠ l := by
  simp only [List.cons_append, List.nodup_cons, List.nodup_append, List.mem_cons,
    List.mem_append] at hnodup
  simp only [List.mem_append, Set.mem_insert_iff, Set.mem_singleton_iff]
  grind

/-- Only the previous symbol has one as its next. -/
theorem Store.Layout.eq_of_next (hlay : st.Layout bias rows) {b c : ℕ} {s t : Symbol}
    (hb : st.symbols b = some s) (hn : s.n = c) (hc : st.symbols c = some t) : b = t.p := by
  obtain ⟨u, hu, rfl⟩ := hlay.linked.next hb
  rw [hn, hc, Option.some.injEq] at hu
  rw [hu]

/-- **A reference at the beginning of a rule**, and the rule. -/
theorem Store.Consistent.splice (hc : st.Consistent bias rows)
    (hr : ⟨r, g, ⟨t, k⟩ :: y :: rest⟩ ∈ rows) (hk : ⟨k, h, f :: (m ++ [l])⟩ ∈ rows) :
    st.Splice t k g y.addr h f.addr l.addr := by
  have hlay := hc.layout
  have hrk : k ≠ r := hlay.apart hr List.mem_cons_self
  -- the links
  have hring : IsRing (nextOf st.symbols) (prevOf st.symbols) g
      (([] : List ℕ).reverse ++ t :: (y.addr :: rest.map Cell.addr)) := hlay.ring hr
  obtain ⟨htn, htp⟩ := hring.around
  obtain ⟨x, hx, hxn⟩ := exists_of_nextOf htn
  rw [prevOf, hx, Option.map_some, Option.some.injEq] at htp
  have hring' : IsRing (nextOf st.symbols) (prevOf st.symbols) h
      ((f.addr :: m.map Cell.addr).reverse.reverse ++ l.addr :: []) := by
    simpa using hlay.ring hk
  obtain ⟨hhn, hhp⟩ := (hlay.ring hk).closing
  obtain ⟨z, hz, hzn⟩ := exists_of_nextOf hhn
  rw [prevOf, hz, Option.map_some, Option.some.injEq] at hhp
  have hzp : z.p = l.addr := by simp [hhp, before]
  have hgp : before g (t :: y.addr :: rest.map Cell.addr).reverse
      ∈ y.addr :: rest.map Cell.addr := by
    rw [List.reverse_cons, ← List.mem_reverse]
    exact before_mem_of_ne_nil g (by simp) _
  have hlp : before h (f.addr :: m.map Cell.addr).reverse ∈ f.addr :: m.map Cell.addr := by
    rw [← List.append_nil (List.reverse _), ← List.mem_reverse]
    exact before_mem_of_ne_nil h (by simp) _
  have hnodup : (g :: t :: (y.addr :: rest.map Cell.addr)
      ++ h :: ((f.addr :: m.map Cell.addr) ++ [l.addr])).Nodup := by
    simpa [Row.cells] using
      hlay.addrs_nodup₂ hr hk fun heq => hrk (congrArg Row.rule heq).symm
  obtain ⟨hout, ht, hg, hh⟩ := apart_of_nodup hnodup
  refine ⟨⟨_, (hlay.rule hk).2, rfl⟩, ⟨x, hx, hxn, htp, ?_⟩, ⟨z, hz, hzn, hzp⟩, fun hb hn => ?_,
    fun hb hn => ?_, has_of_prevOf hring.closing.2 (hout _ (List.mem_append_left _ hgp)),
    has_of_prevOf hring'.around.2 (hout _ (List.mem_append_right _ hlp)), hout _ (by simp),
    hout _ (by simp), ht, hg, hh, ?_⟩
  · obtain ⟨x', hx', hkey⟩ := hlay.exists_symbol (mem_cells_of_body hr List.mem_cons_self)
    rw [hx, Option.some.injEq] at hx'
    rw [hx', hkey]
  · rw [hlay.eq_of_next hb hn hx, htp]
    rfl
  · rw [hlay.eq_of_next hb hn hz, hzp]
  · obtain ⟨T, hT⟩ := hc.table
    refine ⟨hlay.sane.address_gt, T, hT.entries, fun {d a} hd ha => ?_⟩
    obtain ⟨u, v, hu, -, -, hguard, hguard'⟩ := hT.entry hd
    rcases ha with rfl | rfl | rfl
    · exact hguard (hlay.isGuard hr)
    · exact hguard (hlay.isGuard hk)
    · -- behind the last symbol there is the guard
      have hn := hring'.around.1
      rw [nextOf, hu, Option.map_some, Option.some.injEq] at hn
      exact hguard' (hn ▸ hlay.isGuard hk)

/-- **Where the rule is dissolved, the new pair is missing.** -/
theorem Store.Consistent.ensures_expand (hc : st.Consistent bias rows) {s R : ℕ}
    (hu : Underused rows s r R) (hprog : cfg.program = .tadoc) :
    Ensures (fun _ => True) (expand cfg s) st fun _ st' => ¬ st.Expanded st' s r R := by
  obtain ⟨g, y, rest, hr⟩ := hu.first
  obtain ⟨⟨k, h, body⟩, hk, rfl⟩ := hu.rule
  have hlong : 2 ≤ body.length := hc.long hk (by rw [hu.once]; decide)
  obtain ⟨f, m, l, rfl⟩ : ∃ f m l, body = f :: (m ++ [l]) := by
    match body, hlong with
    | f :: x :: body, _ =>
      have hne : x :: body ≠ [] := List.cons_ne_nil x body
      exact ⟨f, _, _, congrArg (f :: ·) (List.dropLast_concat_getLast hne).symm⟩
  have hs := hc.splice hr hk
  obtain ⟨l', hl, -⟩ := hc.layout.exists_symbol (mem_cells_of_body hk (x := l) (by simp))
  obtain ⟨y', hy, -⟩ := hc.layout.exists_symbol (mem_cells_of_body hr (x := y) (by simp))
  refine (hs.ensures_expand hprog (has_of_some hl rfl) (has_of_some hy rfl)).mono
    fun _ st' hnot hexp => hnot ?_
  obtain ⟨X, hX, hguard⟩ := hs.rule_eq
  obtain ⟨z, hz, -, hzp⟩ := hs.guard_eq
  obtain ⟨x, hx, hxn, -⟩ := hs.this_eq
  exact hexp.pair hX (hguard ▸ hz) (hzp ▸ hl) hx (hxn ▸ hy)

/-- **`expand` of `tadoc.c` never does what is expected of it**: whatever the grammar,
if the operation ends, the pair of the last symbol of the dissolved rule and the symbol
behind it is not recorded. -/
theorem not_expanded (hprog : cfg.program = .tadoc) {s R : ℕ} (hc : st.Consistent bias rows)
    (hu : Underused rows s r R) :
    ¬ ∃ st', expand cfg s st = .ok ((), st') ∧ st.Expanded st' s r R := by
  rintro ⟨st', hrun, hexp⟩
  exact (hc.ensures_expand hu hprog).of_ok hrun hexp

end Rows

/-- The rules for "abcabc", "ab" and "abc" in memory. -/
def abcabcRows : List Row :=
  [⟨4096, 8192, [⟨77824, 61440⟩, ⟨81920, 61440⟩]⟩, ⟨32768, 36864, [⟨40960, 195⟩, ⟨45056, 197⟩]⟩,
    ⟨61440, 65536, [⟨69632, 32768⟩, ⟨73728, 199⟩]⟩]

/-- Behind "abcabc" the rule for "ab" is underused. -/
theorem underused_abcabc : Underused abcabcRows 69632 61440 32768 :=
  ⟨⟨65536, ⟨73728, 199⟩, [], by simp [abcabcRows]⟩,
    ⟨⟨32768, 36864, [⟨40960, 195⟩, ⟨45056, 197⟩]⟩, by simp [abcabcRows], rfl⟩, by decide⟩

theorem exists_consistent_abcabc :
    ∃ S st, tadocBuild (.plain .tadoc) abcabc (Store.init fun _ => 0) = .ok (S, st)
      ∧ st.Consistent 1 abcabcRows := by
  obtain ⟨S, st, hrun⟩ := exists_tadocBuild_abcabc
  obtain ⟨-, hmodels⟩ := (ensures_tadocBuild rfl (by decide)).of_ok hrun
  obtain ⟨T, hT, -⟩ := hmodels.table
  refine ⟨S, st, hrun, hmodels.layout, fun {R} hR _ => ?_, T, hT⟩
  have hall : ∀ R ∈ abcabcRows, 2 ≤ R.body.length := by simp [abcabcRows]
  exact hall R hR

theorem not_expanded_abcabc :
    ∃ st : Store, st.Consistent 1 abcabcRows ∧ Underused abcabcRows 69632 61440 32768
      ∧ ¬ ∃ st', expand (.plain .tadoc) 69632 st = .ok ((), st')
        ∧ st.Expanded st' 69632 61440 32768 := by
  obtain ⟨S, st, -, hc⟩ := exists_consistent_abcabc
  exact ⟨st, hc, underused_abcabc, not_expanded rfl hc underused_abcabc⟩

/-- On "abcabc" the rule for "ab" is dissolved, and the pair "bc" that comes into being
is not recorded. -/
theorem exists_expand_not_recorded :
    ∃ st st' : Store, st.Consistent 1 abcabcRows ∧ Underused abcabcRows 69632 61440 32768
      ∧ expand (.plain .tadoc) 69632 st = .ok ((), st') ∧ ¬ st'.Recorded 197 199
      ∧ ¬ st.Expanded st' 69632 61440 32768 := by
  obtain ⟨S, st, hrun, hc⟩ := exists_consistent_abcabc
  obtain ⟨⟨⟩, st', hexpand⟩ : ∃ u st', (do
      let _ ← tadocBuild (.plain .tadoc) abcabc
      expand (.plain .tadoc) 69632) (Store.init fun _ => 0) = .ok (u, st') :=
    exists_of_isOk (by decide +kernel)
  rw [bind_eq_of_ok hrun] at hexpand
  have hbc : ⟨61440, 65536, ⟨69632, 32768⟩ :: ⟨73728, 199⟩ :: []⟩ ∈ abcabcRows := by
    simp [abcabcRows]
  have hab : ⟨32768, 36864, ⟨40960, 195⟩ :: ([] ++ [⟨45056, 197⟩])⟩ ∈ abcabcRows := by
    simp [abcabcRows]
  obtain ⟨b, hb, hbk⟩ :=
    hc.layout.exists_symbol (mem_cells_of_body hab (x := ⟨45056, 197⟩) (by simp))
  obtain ⟨c, hc', hck⟩ :=
    hc.layout.exists_symbol (mem_cells_of_body hbc (x := ⟨73728, 199⟩) (by simp))
  have hprog : (Config.plain .tadoc).program = .tadoc := rfl
  have hnot := (hc.splice hbc hab).ensures_expand hprog (has_of_some hb hbk) (has_of_some hc' hck)
  exact ⟨st, st', hc, underused_abcabc, hexpand, hnot.of_ok hexpand,
    (hc.ensures_expand underused_abcabc hprog).of_ok hexpand⟩

end GrammarHeap
