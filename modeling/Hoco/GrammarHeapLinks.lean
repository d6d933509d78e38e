import Hoco.GrammarHeapOps

/-!
# Taking symbols out of rings and putting them in

`Store.Linked` is the memory between two operations: every symbol is the
neighbour of its neighbours, and a guard has a key that its neighbours do not
have, since no rule refers to itself. On such a memory the two operations on
rings are specified as a whole, by the links they change and by the edits of the
digram table: `destroySymbol` takes a symbol out, `insertAfter` puts a new one in.
-/

namespace GrammarHeap

open Triple PairIndex

variable {st : Store} {a b : ℕ} {s t : Symbol} {T : Index ℕ ℕ}

/-- **Rings that are closed.** -/
structure Store.Linked (st : Store) : Prop where
  sane : st.Sane
  next : ∀ {a s}, st.symbols a = some s → ∃ t, st.symbols s.n = some t ∧ t.p = a
  prev : ∀ {a s}, st.symbols a = some s → ∃ t, st.symbols s.p = some t ∧ t.n = a
  apart : ∀ {a s t}, st.symbols a = some s → st.symbols s.n = some t → s.key = t.key →
    (st.IsGuard a ↔ st.IsGuard s.n)
  proper : ∀ {a s}, st.symbols a = some s → ¬ st.IsGuard a →
    s.n ≠ a ∧ s.p ≠ a ∧ (s.p = s.n → st.IsGuard s.n)

/-- The rules, with the count of one of them changed. -/
def Store.counted (st : Store) (r : ℕ) (d : ℤ) : ℕ → Option Rule :=
  Function.update st.rules r ((st.rules r).map fun R => { R with count := R.count + d })

theorem Store.counted_apply (st : Store) (r : ℕ) (d : ℤ) (r' : ℕ) :
    st.counted r d r' = (st.rules r').map fun R =>
      { R with count := R.count + if r' = r then d else 0 } := by
  unfold counted
  by_cases hr : r' = r
  · simp only [hr, Function.update_self, if_pos]
  · simp only [Function.update_of_ne hr, if_neg hr, Int.add_zero]
    exact Option.map_id'.symm

theorem Store.counted_of_none {r : ℕ} (h : st.rules r = none) (d : ℤ) :
    st.counted r d = st.rules := by
  rw [counted, h, Option.map_none, ← h, Function.update_eq_self]

theorem Store.counted_eq_some {r r' : ℕ} {d : ℤ} {R : Rule} (h : st.counted r d r' = some R) :
    ∃ R', st.rules r' = some R' ∧ R'.guard = R.guard := by
  unfold counted at h
  by_cases hr : r' = r
  · rw [hr, Function.update_self, Option.map_eq_some_iff] at h
    obtain ⟨R', hR', rfl⟩ := h
    exact ⟨R', hr ▸ hR', rfl⟩
  · rw [Function.update_of_ne hr] at h
    exact ⟨R, h, rfl⟩

theorem Store.counted_of_some {r r' : ℕ} {d : ℤ} {R : Rule} (h : st.rules r' = some R) :
    ∃ R', st.counted r d r' = some R' ∧ R'.guard = R.guard := by
  unfold counted
  by_cases hr : r' = r
  · rw [hr, Function.update_self, ← hr, h]
    exact ⟨_, rfl, rfl⟩
  · rw [Function.update_of_ne hr]
    exact ⟨R, h, rfl⟩

/-- The guards do not depend on the counts. -/
theorem Store.isGuard_counted {r : ℕ} {d : ℤ} {symbols : ℕ → Option Symbol} {slots : ℕ → ℕ}
    {numRules : ℤ} {used : ℕ} :
    Store.IsGuard ⟨symbols, st.counted r d, slots, numRules, used⟩ a ↔ st.IsGuard a := by
  constructor
  · rintro ⟨r', R, hR, rfl⟩
    obtain ⟨R', hR', hg⟩ := counted_eq_some hR
    exact ⟨r', R', hR', hg⟩
  · rintro ⟨r', R, hR, rfl⟩
    obtain ⟨R', hR', hg⟩ := counted_of_some (r := r) (d := d) hR
    exact ⟨r', R', hR', hg⟩

theorem Store.keyOf_link (left right : ℕ) (slots : ℕ → ℕ) :
    Store.keyOf { st with symbols := link st.symbols left right, hashTable := slots }
      = st.keyOf := by
  funext a
  unfold keyOf
  simp only [link_apply, Option.map_map]
  rfl

/-- A symbol that is in no entry of the table can be freed. -/
theorem Store.Table.free (h : st.Table T) (ha : ∀ d, T d ≠ some a)
    (hn : ∀ {b s}, st.symbols b = some s → b ≠ a → s.n ≠ a) (r : ℕ) (d : ℤ) :
    Store.Table { st with symbols := Function.update st.symbols a none, rules := st.counted r d }
      T where
  holds := h.holds
  entry {k b} hd := by
    obtain ⟨s, t, hs, ht, hkey, hg, hg'⟩ := h.entry hd
    have hb : b ≠ a := by
      rintro rfl
      exact ha _ hd
    refine ⟨s, t, ?_, ?_, hkey, ?_, ?_⟩
    · exact (Function.update_of_ne hb _ _).trans hs
    · exact (Function.update_of_ne (hn hs hb) _ _).trans ht
    · exact fun hguard => hg (isGuard_counted.mp hguard)
    · exact fun hguard => hg' (isGuard_counted.mp hguard)

/-- The last part of `destroySymbol`. -/
theorem Store.Sane.ensures_release {ok : Stop → Prop} {Q : Unit → Store → Prop} (h : st.Sane)
    (ha : st.symbols a = some s) :
    Ensures ok (do
        let s ← loadSymbol a
        if nonTerminal s then
          deuse s.key
          freeSymbol a
        else freeSymbol a) st Q
      ↔ Q () { st with
          symbols := Function.update st.symbols a none, rules := st.counted s.key (-1) } := by
  rw [ensures_bind, ensures_loadSymbol ha]
  by_cases hn : nonTerminal s = true
  · obtain ⟨R, hR⟩ := (h.nonTerminal_iff ha).mp hn
    rw [if_pos hn, deuse, ensures_bind, ensures_modifyRule hR, counted, hR]
    rfl
  · have hR : st.rules s.key = none := by
      rw [h.nonTerminal_iff ha, not_exists] at hn
      exact Option.eq_none_iff_forall_ne_some.mpr hn
    rw [if_neg hn, counted_of_none hR]
    rfl

namespace Store.Linked

variable (cfg : Config) (hlinked : st.Linked) (h : st.Table T)

include hlinked

/-- Three neighbours with one key are no guards, if one of them is none. -/
theorem not_isGuard_left {p q : Symbol} (ha : st.symbols a = some s) (hq : st.symbols s.p = some q)
    (hp : st.symbols q.p = some p) (hg : ¬ st.IsGuard a) (hqk : p.key = q.key)
    (hk : q.key = s.key) : ¬ st.IsGuard q.p ∧ ¬ st.IsGuard s.p := by
  obtain ⟨q', hq', hqn⟩ := hlinked.prev ha
  rw [hq, Option.some.injEq] at hq'
  obtain ⟨p', hp', hpn⟩ := hlinked.prev hq
  rw [hp, Option.some.injEq] at hp'
  have hgq : ¬ st.IsGuard s.p := by
    rw [hlinked.apart hq (t := s) (by rw [hq', hqn, ha]) hk, hq', hqn]
    exact hg
  refine ⟨?_, hgq⟩
  rw [hlinked.apart hp (t := q) (by rw [hp', hpn, hq]) hqk, hp', hpn]
  exact hgq

theorem not_isGuard_right {b c : Symbol} (ha : st.symbols a = some s)
    (hb : st.symbols s.n = some b) (hc : st.symbols b.n = some c) (hg : ¬ st.IsGuard a)
    (hk : s.key = b.key) (hbk : b.key = c.key) : ¬ st.IsGuard s.n ∧ ¬ st.IsGuard b.n := by
  have hgb : ¬ st.IsGuard s.n := fun hgb => hg ((hlinked.apart ha hb hk).mpr hgb)
  exact ⟨hgb, fun hgc => hgb ((hlinked.apart hb hc hbk).mpr hgc)⟩

include h

/-- The first part of `destroySymbol`. -/
theorem ensures_join_around {q b : Symbol} (ha : st.symbols a = some s)
    (hq : st.symbols s.p = some q) (hb : st.symbols s.n = some b) (hg : ¬ st.IsGuard a) :
    Ensures outside (join cfg s.p s.n) st fun _ st' =>
      ∃ slots, st' = { st with symbols := link st.symbols s.p s.n, hashTable := slots }
        ∧ st'.Table (runAll (forgetPair st.keyOf (st.item s.p) (some a)
          ++ restoreSecond st.keyOf (some a) (st.item s.n) (st.item b.n)
          ++ restoreFirst st.keyOf (st.item q.p) (st.item s.p) (some a)) T) := by
  obtain ⟨q', hq', hqn⟩ := hlinked.prev ha
  rw [hq, Option.some.injEq] at hq'
  obtain ⟨b', hb', hbp⟩ := hlinked.next ha
  rw [hb, Option.some.injEq] at hb'
  rw [← hq'] at hqn
  rw [← hb'] at hbp
  obtain ⟨p, hp, hpn⟩ := hlinked.prev hq
  obtain ⟨c, hc, -⟩ := hlinked.next hb
  have hitem : st.item a = some a := item_of_not_isGuard hg
  have hqs : st.symbols q.n = some s := by rw [hqn, ha]
  have hbs : st.symbols b.p = some s := by rw [hbp, ha]
  have hleave : Ensures outside (leave cfg s.p s.n) st fun _ st' =>
      ∃ slots, st' = { st with hashTable := slots }
        ∧ st'.Table (runAll (forgetPair st.keyOf (st.item s.p) (st.item q.n)
          ++ restoreSecond st.keyOf (st.item b.p) (st.item s.n) (st.item b.n)
          ++ restoreFirst st.keyOf (st.item q.p) (st.item s.p) (st.item q.n)) T) := by
    refine ensures_leave cfg h hlinked.sane hq hqs hp hpn (fun hpq hqs => ?_)
      fun {slots T} h' => ensures_keepRight cfg h' (hlinked.sane.withTable slots) hb hbs hc
        fun hsb hbc => ?_
    · obtain ⟨hgp, hgq⟩ := hlinked.not_isGuard_left ha hq hp hg hpq hqs
      exact ⟨hgp, hgq, hqn.symm ▸ hg⟩
    · obtain ⟨hgb, hgc⟩ := hlinked.not_isGuard_right ha hb hc hg hsb hbc
      exact ⟨hbp.symm ▸ hg, hgb, hgc⟩
  rw [hqn, hbp, hitem] at hleave
  refine ensures_join cfg hleave hq hb (h.ne_of_forget hq ?_ fun d hmem => ?_)
  · rw [hqn, hitem]
    exact fun e he => List.mem_append_left _ (List.mem_append_left _ he)
  · -- Neither of the two symbols that may be recorded is the left one.
    obtain ⟨-, hpa, hsame⟩ := hlinked.proper ha hg
    simp only [List.mem_append, mem_forgetPair, mem_restoreSecond, mem_restoreFirst, reduceCtorEq,
      and_false, exists_false, false_or, Edit.record.injEq] at hmem
    rcases hmem with ⟨x, y, z, -, hy, -, -, -, hpy, -⟩ | ⟨x, y, z, hx, -, -, -, -, hpx, -⟩
    · have hgb : ¬ st.IsGuard s.n := fun hgb => by
        rw [item_of_isGuard hgb] at hy
        cases hy
      rw [item_of_not_isGuard hgb, Option.some.injEq] at hy
      exact hgb (hsame (hpy.trans hy.symm))
    · have hgp : ¬ st.IsGuard q.p := fun hgp => by
        rw [item_of_isGuard hgp] at hx
        cases hx
      rw [item_of_not_isGuard hgp, Option.some.injEq] at hx
      rw [hx, ← hpx, hq, Option.some.injEq] at hp
      exact hpa (hpn.symm.trans (hp ▸ hqn))

/-- **A symbol is taken out of its ring**, and freed. -/
theorem ensures_destroySymbol {q b : Symbol} (ha : st.symbols a = some s)
    (hq : st.symbols s.p = some q) (hb : st.symbols s.n = some b) (hg : ¬ st.IsGuard a) :
    Ensures outside (destroySymbol cfg a) st fun _ st' =>
      ∃ slots, st' = { st with
          symbols := Function.update (link st.symbols s.p s.n) a none
          rules := st.counted s.key (-1)
          hashTable := slots }
        ∧ st'.Table (runAll (unlinkEdits st.keyOf (st.item q.p) (st.item s.p) a (st.item s.n)
          (st.item b.n)) T) := by
  obtain ⟨hna, hpa, -⟩ := hlinked.proper ha hg
  obtain ⟨q', hq', hqn⟩ := hlinked.prev ha
  rw [hq, Option.some.injEq] at hq'
  rw [← hq'] at hqn
  rw [destroySymbol, ensures_bind, ensures_loadSymbol ha]
  refine (hlinked.ensures_join_around cfg h ha hq hb hg).bind ?_
  rintro - _ ⟨slots, rfl, h₁⟩
  -- The symbol itself still has its links.
  have hsane : Store.Sane
      { st with symbols := link st.symbols s.p s.n, hashTable := slots } := by
    refine (hlinked.sane.withTable slots).link hq fun {r R g} hR hR' hgp => ?_
    obtain ⟨-, g', l, hg', -, hl, hln⟩ := hlinked.sane.rule hR
    have hgg : g = g' := Option.some.inj (hR'.symm.trans hg')
    rw [← hgg, hgp, hq, Option.some.injEq] at hl
    refine absurd ⟨r, R, hR, ?_⟩ hg
    rw [← hln, ← hl, hqn]
  have ha' : link st.symbols s.p s.n a = some s := by
    rw [link_of_some ha, if_neg (Ne.symm hpa), if_neg (Ne.symm hna)]
  have hb' := @link_of_some st.symbols s.p s.n s.n b hb
  rw [ensures_bind, hsane.ensures_isGuard ha']
  have hg' : ¬ Store.IsGuard { st with symbols := link st.symbols s.p s.n, hashTable := slots } a :=
    hg
  rw [if_neg (by simpa using hg')]
  refine (h₁.ensures_deleteDigram hsane ha' hb').bind ?_
  rintro - _ ⟨slots', rfl, h₂⟩
  have hnot := h₁.ne_of_forget ha' (fun e he => he) fun d hmem => by
    simp [mem_forgetPair] at hmem
  have hlast : ∀ {x t}, link st.symbols s.p s.n x = some t → x ≠ a → t.n ≠ a := by
    intro x t hx hxa
    obtain ⟨t', ht', rfl⟩ := Option.map_eq_some_iff.mp ((link_apply ..).symm.trans hx)
    by_cases hxp : x = s.p
    · simpa [hxp] using hna
    · simp only [hxp, if_false]
      rintro htn
      obtain ⟨u, hu, hup⟩ := hlinked.next ht'
      rw [htn, ha, Option.some.injEq] at hu
      exact hxp (by rw [hu, hup])
  rw [(hsane.withTable slots').ensures_release ha']
  refine ⟨slots', rfl, ?_⟩
  have hedits : runAll (forgetPair (Store.keyOf { st with
        symbols := link st.symbols s.p s.n, hashTable := slots }) (st.item a) (st.item s.n))
      (runAll (forgetPair st.keyOf (st.item s.p) (some a)
          ++ restoreSecond st.keyOf (some a) (st.item s.n) (st.item b.n)
          ++ restoreFirst st.keyOf (st.item q.p) (st.item s.p) (some a)) T)
      = runAll (unlinkEdits st.keyOf (st.item q.p) (st.item s.p) a (st.item s.n) (st.item b.n))
        T := by
    rw [keyOf_link, item_of_not_isGuard hg, ← runAll_append]
    rfl
  rw [← hedits]
  exact h₂.free hnot hlast s.key (-1)

end Store.Linked

/-! ## New symbols -/

/-- The memory with a symbol that has no links yet. -/
def Store.withSymbol (st : Store) (new key : ℕ) : Store :=
  { st with
    symbols := Function.update st.symbols new (some ⟨0, 0, key, key / 2⟩)
    rules := st.counted key 1
    used := st.used + 1 }

variable (cfg : Config) {new key : ℕ}

theorem ensures_malloc {Q : ℕ → Store → Prop}
    (hQ : userAddress (cfg.address st.used) = true → st.symbols (cfg.address st.used) = none →
      st.rules (cfg.address st.used) = none →
      Q (cfg.address st.used) { st with used := st.used + 1 }) :
    Ensures outside (malloc cfg) st Q := by
  rw [malloc, ensures_bind, ensures_get]
  by_cases h : userAddress (cfg.address st.used) = true
    ∧ st.symbols (cfg.address st.used) = none ∧ st.rules (cfg.address st.used) = none
  · rw [if_pos h]
    exact hQ h.1 h.2.1 h.2.2
  · rw [if_neg h]
    exact Or.inr rfl

/-- **A symbol for a character.** -/
theorem ensures_genSymbol1 {Q : ℕ → Store → Prop} (sym : ℕ)
    (hrule : st.rules ((sym * 2 + 1) % 2 ^ 64) = none)
    (hQ : ∀ new, new = cfg.address st.used → userAddress new = true → st.symbols new = none →
      st.rules new = none → Q new (st.withSymbol new ((sym * 2 + 1) % 2 ^ 64))) :
    Ensures outside (genSymbol1 cfg sym) st Q := by
  rw [genSymbol1, ensures_bind]
  refine ensures_malloc cfg fun huser hsym hR => ?_
  have hnew := hQ _ rfl huser hsym hR
  rw [Store.withSymbol, Store.counted_of_none hrule] at hnew
  exact hnew

/-- **A symbol for a rule.** -/
theorem ensures_genSymbol2 {Q : ℕ → Store → Prop} {rule : ℕ} {R : Rule}
    (hrule : st.rules rule = some R)
    (hQ : ∀ new, new = cfg.address st.used → userAddress new = true → st.symbols new = none →
      st.rules new = none → Q new (st.withSymbol new rule)) :
    Ensures outside (genSymbol2 cfg rule) st Q := by
  rw [genSymbol2, ensures_bind]
  refine ensures_malloc cfg fun huser hsym hR => ?_
  have hnew := hQ _ rfl huser hsym hR
  rw [Store.withSymbol, Store.counted, hrule] at hnew
  rw [ensures_bind, storeSymbol, ensures_modify, ensures_bind, reuse]
  refine (ensures_modifyRule (R := R) ?_).mpr ?_
  · exact hrule
  · exact hnew

theorem Store.isGuard_withSymbol : (st.withSymbol new key).IsGuard a ↔ st.IsGuard a :=
  isGuard_counted

theorem Store.withSymbol_self :
    (st.withSymbol new key).symbols new = some ⟨0, 0, key, key / 2⟩ := Function.update_self ..

theorem Store.withSymbol_of_some (hnew : st.symbols new = none) (ha : st.symbols a = some s) :
    (st.withSymbol new key).symbols a = some s := by
  refine (Function.update_of_ne ?_ _ _).trans ha
  rintro rfl
  rw [hnew] at ha
  cases ha

/-- A new symbol is in no entry of the table. -/
theorem Store.Table.withSymbol (h : st.Table T) (hnew : st.symbols new = none) :
    (st.withSymbol new key).Table T where
  holds := h.holds
  entry hd := by
    obtain ⟨s, t, hs, ht, hkey, hg, hg'⟩ := h.entry hd
    exact ⟨s, t, withSymbol_of_some hnew hs, withSymbol_of_some hnew ht, hkey,
      mt isGuard_withSymbol.mp hg, mt isGuard_withSymbol.mp hg'⟩

/-- A key that a symbol may have. -/
def Store.GoodKey (st : Store) (key : ℕ) : Prop :=
  key % 2 = 1 ∧ (key < 512 ∨ 2 ^ 64 - 256 ≤ key) ∨ ∃ R, st.rules key = some R

theorem Store.GoodKey.counted {k r : ℕ} {d : ℤ} (h : st.GoodKey k) {symbols : ℕ → Option Symbol}
    {slots : ℕ → ℕ} {numRules : ℤ} {used : ℕ} :
    Store.GoodKey ⟨symbols, st.counted r d, slots, numRules, used⟩ k := by
  rcases h with h | ⟨R, hR⟩
  · exact Or.inl h
  · obtain ⟨R', hR', -⟩ := counted_of_some (r := r) (d := d) hR
    exact Or.inr ⟨R', hR'⟩

theorem Store.Sane.withSymbol (h : st.Sane) (hnew : st.symbols new = none)
    (huser : userAddress new = true) (hkey : st.GoodKey key) : (st.withSymbol new key).Sane where
  rule hR := by
    obtain ⟨R', hR', hg⟩ := counted_eq_some hR
    obtain ⟨hr, g, l, hsg, hgk, hl, hln⟩ := h.rule hR'
    rw [hg] at hsg hln
    exact ⟨hr, g, l, withSymbol_of_some hnew hsg, hgk, withSymbol_of_some hnew hl, hln⟩
  symbol {a s} hs := by
    by_cases ha : a = new
    · rw [ha, withSymbol_self, Option.some.injEq] at hs
      exact ⟨ha ▸ huser, hs ▸ rfl⟩
    · exact h.symbol ((Function.update_of_ne ha _ _).symm.trans hs)
  key {a s} hs := by
    by_cases ha : a = new
    · rw [ha, withSymbol_self, Option.some.injEq] at hs
      exact hs ▸ hkey.counted
    · exact Store.GoodKey.counted (h.key ((Function.update_of_ne ha _ _).symm.trans hs))

/-- Two guards with one key are the same. -/
theorem Store.Sane.guard_unique (h : st.Sane) (ha : st.symbols a = some s)
    (hb : st.symbols b = some t) (hga : st.IsGuard a) (hgb : st.IsGuard b) (hk : s.key = t.key) :
    a = b := by
  obtain ⟨r, R, hR, rfl⟩ := hga
  obtain ⟨r', R', hR', rfl⟩ := hgb
  obtain ⟨-, g, -, hg, hgk, -⟩ := h.rule hR
  obtain ⟨-, g', -, hg', hgk', -⟩ := h.rule hR'
  rw [ha, Option.some.injEq] at hg
  rw [hb, Option.some.injEq] at hg'
  rw [← hgk, ← hg, hk, hg', hgk', hR', Option.some.injEq] at hR
  rw [hR]

theorem ensures_leave_null {ok : Stop → Prop} {Q : Unit → Store → Prop} {left : ℕ}
    (hl : st.symbols left = some s) (hn : s.n = 0) (right : ℕ) :
    Ensures ok (leave cfg left right) st Q ↔ Q () st := by
  rw [leave, ensures_bind, ensures_loadSymbol hl, if_neg (by simp [hn])]
  rfl

/-- The memory between the two halves of `insertAfter`: the new symbol has its right
neighbour. -/
def Store.halfway (st : Store) (new key next : ℕ) (slots : ℕ → ℕ) : Store :=
  { st.withSymbol new key with
    symbols := link (st.withSymbol new key).symbols new next
    hashTable := slots }

section Halfway

variable {next : ℕ} {slots : ℕ → ℕ}

theorem Store.isGuard_halfway : (st.halfway new key next slots).IsGuard a ↔ st.IsGuard a :=
  isGuard_counted

theorem Store.item_halfway : (st.halfway new key next slots).item = st.item := by
  funext x
  unfold item
  rw [isGuard_halfway]

theorem Store.halfway_of_some (hnew : st.symbols new = none) (ha : st.symbols a = some s) :
    (st.halfway new key next slots).symbols a
      = some ⟨s.n, if a = next then new else s.p, s.key, s.value⟩ := by
  refine (link_of_some (withSymbol_of_some hnew ha)).trans ?_
  rw [if_neg]
  rintro rfl
  rw [hnew] at ha
  cases ha

theorem Store.halfway_self (hne : next ≠ new) :
    (st.halfway new key next slots).symbols new = some ⟨next, 0, key, key / 2⟩ := by
  refine (link_of_some withSymbol_self).trans ?_
  rw [if_pos rfl, if_neg hne.symm]

theorem Store.keyOf_halfway (hnew : st.symbols new = none) (ha : st.symbols a = some s) :
    (st.halfway new key next slots).keyOf a = st.keyOf a := by
  rw [keyOf_eq ha, keyOf_eq (halfway_of_some hnew ha)]

end Halfway

section Insert

variable {q : ℕ} (hlinked : st.Linked) (h : st.Table T) (hnew : st.symbols new = none)
  (huser : userAddress new = true) (hkey : st.GoodKey key) (hq : st.symbols q = some s)

include hlinked hnew

/-- The neighbours of a symbol are not the new one. -/
theorem next_ne_new (hq : st.symbols q = some s) : s.n ≠ new := by
  obtain ⟨b, hb, -⟩ := hlinked.next hq
  intro heq
  rw [heq, hnew] at hb
  cases hb

include huser hkey in
theorem sane_halfway (slots : ℕ → ℕ) : (st.halfway new key s.n slots).Sane := by
  refine ((hlinked.sane.withSymbol hnew huser hkey).withTable slots).link Store.withSymbol_self
    fun {r R g} hR hg hgp => ?_
  -- No guard has the new symbol before it.
  obtain ⟨R', hR', hguard⟩ := Store.counted_eq_some hR
  obtain ⟨-, g', l, hg', -, hl, -⟩ := hlinked.sane.rule hR'
  rw [hguard] at hg'
  have hgg : g = g' := Option.some.inj (hg.symm.trans (Store.withSymbol_of_some hnew hg'))
  rw [← hgg, hgp, hnew] at hl
  cases hl

include hq

include h in
/-- The first half of `insertAfter`: the new symbol gets its right neighbour. -/
theorem ensures_join_new :
    Ensures outside (join cfg new s.n) (st.withSymbol new key) fun _ st' =>
      ∃ slots, st' = st.halfway new key s.n slots ∧ st'.Table T := by
  obtain ⟨b, hb, -⟩ := hlinked.next hq
  have h' : (st.withSymbol new key).Table T := h.withSymbol hnew
  refine ensures_join cfg ?_ Store.withSymbol_self (Store.withSymbol_of_some hnew hb) fun d hd => ?_
  · rw [ensures_leave_null cfg Store.withSymbol_self rfl]
    exact ⟨_, rfl, h'⟩
  · obtain ⟨s', -, hs', -⟩ := h.entry hd
    rw [hnew] at hs'
    cases hs'

/-- What is before the place: in a ring of one it is by now the new symbol. Three
equal keys in a row are not those of guards. -/
theorem exists_before_halfway (hne : st.IsGuard q → key ≠ s.key) {b : Symbol}
    (hb : st.symbols s.n = some b) (slots : ℕ → ℕ) :
    ∃ lp, (st.halfway new key s.n slots).symbols (if q = s.n then new else s.p) = some lp
      ∧ lp.n = q ∧ (lp.key = s.key → s.key = b.key →
        ¬ st.IsGuard (if q = s.n then new else s.p) ∧ ¬ st.IsGuard q ∧ ¬ st.IsGuard s.n) := by
  obtain ⟨p, hp, hpn⟩ := hlinked.prev hq
  by_cases hone : q = s.n
  · have hself : (st.halfway new key s.n slots).symbols new = _ :=
      Store.halfway_self (next_ne_new hlinked hnew hq)
    refine ⟨_, (congrArg _ (if_pos hone)).trans hself, hone.symm, fun hk => absurd hk (hne ?_)⟩
    by_contra hg
    exact (hlinked.proper hq hg).1 hone.symm
  · rw [if_neg hone]
    refine ⟨_, Store.halfway_of_some hnew hp, hpn, fun hk hk' => ?_⟩
    have hpq := hlinked.apart hp (t := s) (by rw [hpn, hq]) hk
    have hqb := hlinked.apart hq hb hk'
    rw [hpn] at hpq
    have hg : ¬ st.IsGuard q := fun hg => by
      have heq := hlinked.sane.guard_unique hp hq (hpq.mpr hg) hg hk
      rw [heq, hq, Option.some.injEq] at hp
      exact hone (hp ▸ hpn).symm
    exact ⟨mt hpq.mp hg, hg, mt hqb.mpr hg⟩

/-- The edits of the second half. -/
theorem linkEdits_halfway (key : ℕ) (slots : ℕ → ℕ) :
    forgetPair (st.halfway new key s.n slots).keyOf (st.item q) (st.item s.n) ++ []
      ++ restoreFirst (st.halfway new key s.n slots).keyOf
        (st.item (if q = s.n then new else s.p)) (st.item q) (st.item s.n)
      = linkEdits st.keyOf (st.item s.p) (st.item q) (st.item s.n) := by
  obtain ⟨b, hb, -⟩ := hlinked.next hq
  obtain ⟨p, hp, -⟩ := hlinked.prev hq
  rw [List.append_nil]
  by_cases hg : st.IsGuard q
  · rw [Store.item_of_isGuard hg]
    cases st.item s.p <;> cases st.item (if q = s.n then new else s.p) <;> rfl
  · rw [if_neg (hlinked.proper hq hg).1.symm]
    refine linkEdits_congr fun x hx => ?_
    rcases hx with hx | hx | hx <;> obtain rfl := Store.eq_of_item hx
    · exact Store.keyOf_halfway hnew hp
    · exact Store.keyOf_halfway hnew hq
    · exact Store.keyOf_halfway hnew hb

include h huser hkey

/-- **A symbol is put into a ring.** A guard may not get a neighbour with its own
key. -/
theorem ensures_insertAfter (hne : st.IsGuard q → key ≠ s.key) :
    Ensures outside (insertAfter cfg q new) (st.withSymbol new key) fun _ st' =>
      ∃ slots, st' = { st.withSymbol new key with
          symbols := link (link (st.withSymbol new key).symbols new s.n) q new
          hashTable := slots }
        ∧ st'.Table (runAll (linkEdits st.keyOf (st.item s.p) (st.item q) (st.item s.n)) T) := by
  obtain ⟨b, hb, -⟩ := hlinked.next hq
  rw [insertAfter, ensures_bind, ensures_loadSymbol (Store.withSymbol_of_some hnew hq)]
  refine (ensures_join_new cfg hlinked h hnew hq).bind ?_
  rintro - _ ⟨slots, rfl, h₁⟩
  have hsane : (st.halfway new key s.n slots).Sane := sane_halfway hlinked hnew huser hkey slots
  have hself : (st.halfway new key s.n slots).symbols new = _ :=
    Store.halfway_self (next_ne_new hlinked hnew hq)
  obtain ⟨lp, hlp, hlpn, hglp⟩ := exists_before_halfway hlinked hnew hq hne hb slots
  have hedits := linkEdits_halfway hlinked hnew hq key slots
  have hleave : Ensures outside (leave cfg q new) (st.halfway new key s.n slots) fun _ st' =>
      ∃ slots', st' = { st.halfway new key s.n slots with hashTable := slots' }
        ∧ st'.Table (runAll (linkEdits st.keyOf (st.item s.p) (st.item q) (st.item s.n)) T) := by
    have hitem : (st.halfway new key s.n slots).item = st.item := Store.item_halfway
    rw [← hedits, ← hitem]
    refine ensures_leave cfg h₁ hsane (Store.halfway_of_some hnew hq)
      (Store.halfway_of_some hnew hb) hlp hlpn ?_ fun {slots' T} h' => ?_
    · simpa only [Store.isGuard_halfway] using hglp
    · have hnull : Store.symbols { st.halfway new key s.n slots with hashTable := slots' } new
        = _ := hself
      exact (ensures_keepRight_null cfg hnull rfl).mpr ⟨slots', rfl, h'⟩
  refine (ensures_join cfg hleave (Store.halfway_of_some hnew hq) hself fun d => ?_).mono ?_
  · refine h₁.ne_of_forget (Store.halfway_of_some hnew hq) (fun e he => ?_) (fun d hmem => ?_) d
    · rw [Store.item_halfway] at he
      rw [← hedits]
      exact List.mem_append_left _ (List.mem_append_left _ he)
    · obtain ⟨y, z, hpq, hqy, -⟩ := record_mem_linkEdits.mp hmem
      have hg : ¬ st.IsGuard q := fun hg => by
        rw [Store.item_of_isGuard hg] at hqy
        cases hqy
      exact (hlinked.proper hq hg).2.1 (Store.eq_of_item hpq)
  · rintro - _ ⟨slots', rfl, h₂⟩
    exact ⟨slots', rfl, h₂⟩

end Insert

end GrammarHeap
