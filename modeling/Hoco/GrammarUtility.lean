import Hoco.GrammarSettle

/-!
# How often the rules of a grammar are used

A rule is worth having if it is used at least twice. A match takes one use from
each of the two symbols of its pair, and gives the rule of the pair a new one, or
two. So a match in which a symbol of the pair stands for a rule that is used
exactly twice leaves that rule with one use.

For the second symbol of the pair this cannot happen, because the last symbol is
a character or stands for a rule that has just got another use. For the first one
it can (`Spends`). The main result is that it is the only way: the rules of a
grammar are all used twice after every character if and only if no match on the
way spends a rule (`useful_iff_not_spends`).
-/

open PairIndex

namespace Grammar

/-- The number of symbols with a key. -/
def refs (G : Grammar) (k : Key) : ℕ :=
  (G.start.map Sym.key).count k + ((G.rules.map Ring.body).flatten.map Sym.key).count k

/-- **Every rule is used at least twice.** -/
def Useful (G : Grammar) : Prop := ∀ R ∈ G.rules, 2 ≤ G.refs (.rule R.rule)

/-- **A match in this grammar spends a rule**: the first symbol of the last pair
stands for a rule that is used exactly twice. -/
def Spends (G : Grammar) : Prop :=
  ∃ a r, G.lastPair = some a ∧ a.key = .rule r ∧ G.refs a.key = 2

instance (G : Grammar) : Decidable G.Useful := inferInstanceAs (Decidable (∀ _ ∈ _, _))

instance (G : Grammar) : Decidable G.Spends :=
  match hpair : G.lastPair with
  | none => isFalse fun ⟨a, r, ha, _⟩ => by rw [hpair] at ha; cases ha
  | some ⟨t, .term c⟩ => isFalse fun ⟨a, r, ha, hk, _⟩ => by
    rw [hpair] at ha
    cases ha
    cases hk
  | some ⟨t, .rule r⟩ => decidable_of_iff (G.refs (.rule r) = 2) (by
    constructor
    · exact fun h => ⟨_, r, hpair, rfl, h⟩
    · rintro ⟨a, r, ha, -, h⟩
      rw [hpair] at ha
      cases ha
      exact h)

variable {G G' : Grammar} {Gs : List Grammar} {k : Key}

/-! ## Counting -/

theorem refs_append (G : Grammar) (c : UInt8) (k : Key) :
    (G.append c).refs k = G.refs k + if .term c = k then 1 else 0 := by
  simp only [refs, Grammar.append, List.map_append, List.map_cons, List.map_nil,
    List.count_append, List.count_cons, List.count_nil, beq_iff_eq]
  omega

theorem refs_substitute {left right : List Sym} {a b : Sym} {r : ℕ}
    (hS : G.start = left.reverse ++ a :: b :: right) (k : Key) :
    (G.substitute left a b right r).refs k
        + ((if a.key = k then 1 else 0) + if b.key = k then 1 else 0)
      = G.refs k + if .rule r = k then 1 else 0 := by
  simp only [refs, Grammar.substitute, hS, List.map_append, List.map_cons, List.count_append,
    List.count_cons, beq_iff_eq]
  omega

theorem refs_fresh {pre mid : List Sym} {o o' a b : Sym}
    (hS : G.start = pre.reverse ++ o :: o' :: (mid ++ [a, b])) (hka : a.key = o.key)
    (hkb : b.key = o'.key) (k : Key) :
    (G.fresh pre o o' mid a b).refs k
        + ((if a.key = k then 1 else 0) + if b.key = k then 1 else 0)
      = G.refs k + if .rule G.used = k then 2 else 0 := by
  simp only [refs, start_fresh, rules_fresh, hS, List.map_append, List.map_cons, List.map_nil,
    List.flatten_append, List.flatten_cons, List.flatten_nil, List.append_nil, List.count_append,
    List.count_cons, List.count_nil, beq_iff_eq, ← hka, ← hkb]
  split <;> split <;> split <;> omega

/-- A pair of one key that is also the body of a rule: the key occurs four times. -/
theorem four_le_refs_of_body {left : List Sym} {a b o o' : Sym} {R : Ring}
    (hS : G.start = left.reverse ++ [a, b]) (hR : R ∈ G.rules) (hbody : R.body = [o, o'])
    (hka : a.key = o.key) (hkb : b.key = o'.key) (hab : b.key = a.key) : 4 ≤ G.refs a.key := by
  have hsub : ([o, o'].map Sym.key).Sublist ((G.rules.map Ring.body).flatten.map Sym.key) := by
    rw [← hbody]
    exact (List.sublist_flatten_of_mem (List.mem_map_of_mem hR)).map _
  have hcount := hsub.count_le a.key
  simp only [List.map_cons, List.map_nil, List.count_cons, List.count_nil, beq_iff_eq, ← hka, ← hkb,
    hab, ↓reduceIte] at hcount
  simp only [refs, hS, List.map_append, List.map_cons, List.map_nil, List.count_append,
    List.count_cons, List.count_nil, beq_iff_eq, hab, ↓reduceIte]
  omega

/-- A pair of one key that also stands before the last pair. -/
theorem four_le_refs_of_start {pre mid : List Sym} {o o' a b : Sym}
    (hS : G.start = pre.reverse ++ o :: o' :: (mid ++ [a, b])) (hka : a.key = o.key)
    (hkb : b.key = o'.key) (hab : b.key = a.key) : 4 ≤ G.refs a.key := by
  simp only [refs, hS, List.map_append, List.map_cons, List.map_nil, List.count_append,
    List.count_cons, List.count_nil, beq_iff_eq, ← hka, ← hkb, hab, ↓reduceIte]
  omega

/-! ## One match -/

/-- The last symbol does not stand for a rule that is used only twice. -/
def Spare (G : Grammar) : Prop :=
  ∀ b r, G.start.getLast? = some b → b.key = .rule r → 3 ≤ G.refs b.key

/-- **The uses that a match takes away can be spared**, unless it spends a rule. -/
theorem two_add_le_refs {left : List Sym} {a b : Sym} (hS : G.start = left.reverse ++ [a, b])
    (hspare : G.Spare) (hspends : ¬ G.Spends) (hfour : b.key = a.key → 4 ≤ G.refs a.key) {r : ℕ}
    (hr : 2 ≤ G.refs (.rule r)) :
    2 + ((if a.key = .rule r then 1 else 0) + if b.key = .rule r then 1 else 0)
      ≤ G.refs (.rule r) := by
  by_cases ha : a.key = .rule r
  · rw [if_pos ha]
    by_cases hb : b.key = .rule r
    · rw [if_pos hb, ← ha]
      exact hfour (hb.trans ha.symm)
    · have hne : G.refs (.rule r) ≠ 2 := fun htwo =>
        hspends ⟨a, r, lastPair_eq hS, ha, ha ▸ htwo⟩
      rw [if_neg hb]
      omega
  · rw [if_neg ha]
    by_cases hb : b.key = .rule r
    · have hthree := hspare b r (by simp [hS]) hb
      rw [hb] at hthree
      rwa [if_pos hb]
    · rwa [if_neg hb]

/-- The last pair is the body of a rule: it gets another use. -/
theorem Useful.reuse (h : G.Useful) (hp : G.Pending) (hspare : G.Spare) (hspends : ¬ G.Spends)
    {left : List Sym} {a b o : Sym} {R : Ring} (hS : G.start = left.reverse ++ [a, b])
    (hI : G.index (a.key, b.key) = some o) (hR : R ∈ G.rules) (ho : R.body.head? = some o) :
    (G.substitute left a b [] R.rule).Useful ∧ (G.substitute left a b [] R.rule).Spare := by
  obtain ⟨o', hbody, hka, hkb⟩ := hp.body_eq hI hR ho
  have hcount := fun r => refs_substitute (r := R.rule) hS (.rule r)
  have hleft := fun {r} => two_add_le_refs (r := r) hS hspare hspends
    (four_le_refs_of_body hS hR hbody hka hkb)
  constructor
  · intro R' hR'
    have hcount := hcount R'.rule
    have hleft := hleft (h R' hR')
    omega
  · intro z r hz hk
    have hz' : z = ⟨G.used, .rule R.rule⟩ := by
      simpa [Grammar.substitute, eq_comm] using hz
    have hcount := hcount R.rule
    have hleft := hleft (h R hR)
    rw [if_pos rfl] at hcount
    rw [hz']
    show 3 ≤ Grammar.refs _ (.rule R.rule)
    omega

/-- The last pair gets a rule, with two uses. -/
theorem Useful.fresh (h : G.Useful) (hp : G.Pending) (hspare : G.Spare) (hspends : ¬ G.Spends)
    {pre mid : List Sym} {o o' a b : Sym} (hS : G.start = pre.reverse ++ o :: o' :: (mid ++ [a, b]))
    (hI : G.index (a.key, b.key) = some o) : (G.fresh pre o o' mid a b).Useful := by
  have hkey := hp.inv.indexed.key_eq (hp.inv.cut hS 0).pair hp.inv.linear hI
  rw [Prod.mk.injEq] at hkey
  have hS' : G.start = (mid.reverse ++ o' :: o :: pre).reverse ++ [a, b] := by simp [hS]
  intro R hR
  have hcount := refs_fresh hS hkey.1 hkey.2 (.rule R.rule)
  rw [rules_fresh, List.mem_append, List.mem_singleton] at hR
  rcases hR with hR | rfl
  · have hleft := two_add_le_refs hS' hspare hspends
      (four_le_refs_of_start hS hkey.1 hkey.2) (h R hR)
    omega
  · have ha := hp.inv.key_ne (fresh_mem hS (x := a) (by tauto))
    have hb := hp.inv.key_ne (fresh_mem hS (x := b) (by tauto))
    rw [if_neg ha, if_neg hb, if_pos rfl, Nat.add_zero] at hcount
    exact (Nat.le_add_left 2 _).trans_eq hcount.symm

/-! ## A rule that is spent -/

theorem Settles.rules_subset (hs : Settles G Gs G') {R : Ring} (hR : R ∈ G.rules) :
    R ∈ G'.rules := by
  induction hs with
  | short hshort => exact hR
  | record hS hI => exact hR
  | overlap hS hI ho => exact hR
  | reuse hS hI hR' ho hnext ih => exact ih hR
  | fresh hS hI =>
    rw [rules_fresh]
    exact List.mem_append_left _ hR

/-- **Rules below that of the last symbol do not get new uses**: the rules that are
used from here on are above it. -/
theorem Settles.refs_le (hs : Settles G Gs G') (hp : G.Pending) {b : Sym} {r r' : ℕ}
    (hb : G.start.getLast? = some b) (hk : b.key = .rule r') (hr : r < r') :
    G'.refs (.rule r) ≤ G.refs (.rule r) := by
  induction hs generalizing b r' with
  | short hshort => exact le_rfl
  | record hS hI => exact le_rfl
  | overlap hS hI ho => exact le_rfl
  | @reuse G G' Gs left a b' o R hS hI hR ho hnext ih =>
    obtain ⟨o', hbody, hka, hkb⟩ := hp.body_eq hI hR ho
    have hb' : b' = b := by simpa [hS] using hb
    have hlt : r < R.rule :=
      hr.trans (hp.inv.order hR (x := o') (by simp [hbody]) (hkb.symm.trans (hb' ▸ hk)))
    have hcount := refs_substitute (r := R.rule) hS (.rule r)
    rw [if_neg (c := Key.rule R.rule = .rule r) (by simpa using hlt.ne')] at hcount
    refine (ih (hp.reuse hS hI hR ho) (b := ⟨G.used, .rule R.rule⟩) ?_ rfl hlt).trans ?_
    · simp [Grammar.substitute]
    · omega
  | @fresh G pre mid o o' a b' hS hI =>
    have hkey := hp.inv.indexed.key_eq (hp.inv.cut hS 0).pair hp.inv.linear hI
    rw [Prod.mk.injEq] at hkey
    obtain ⟨R, hR, hRr⟩ := hp.inv.closed (mem_flatten_of_mem_start (List.mem_of_getLast? hb)) hk
    have hlt := (hp.inv.rule_lt hR).2
    have hcount := refs_fresh hS hkey.1 hkey.2 (.rule r)
    rw [if_neg (c := Key.rule G.used = .rule r) (by simp; omega)] at hcount
    omega

/-- **A match that spends a rule** leaves it with one use at most. -/
theorem Settles.refs_le_one (hs : Settles G Gs G') (hp : G.Pending) (hne : Gs ≠ []) {a : Sym}
    {r : ℕ} (ha : G.lastPair = some a) (hk : a.key = .rule r) (htwo : G.refs a.key = 2) :
    G'.refs a.key ≤ 1 := by
  cases hs with
  | short hshort => exact absurd rfl hne
  | record hS hI => exact absurd rfl hne
  | overlap hS hI ho => exact absurd rfl hne
  | @reuse _ _ Gs left a' b o R hS hI hR ho hnext =>
    rw [lastPair_eq hS, Option.some.injEq] at ha
    obtain ⟨o', hbody, hka, hkb⟩ := hp.body_eq hI hR ho
    have hlt := hp.inv.order hR (x := o) (by simp [hbody]) (hka.symm.trans (ha ▸ hk))
    have hcount := refs_substitute (r := R.rule) hS (.rule r)
    rw [if_pos (ha ▸ hk), if_neg (c := Key.rule R.rule = .rule r) (by simpa using hlt.ne'), ← hk,
      htwo] at hcount
    have hle := hnext.refs_le (hp.reuse hS hI hR ho) (b := ⟨G.used, .rule R.rule⟩)
      (by simp [Grammar.substitute]) rfl hlt
    rw [hk] at hcount ⊢
    omega
  | @fresh _ pre mid o o' a' b hS hI =>
    rw [fresh_lastPair hS] at ha
    have hkey := hp.inv.indexed.key_eq (hp.inv.cut hS 0).pair hp.inv.linear hI
    rw [Prod.mk.injEq] at hkey
    obtain ⟨X, hX, rfl⟩ := hp.inv.closed (fresh_mem hS (x := a') (by tauto)) (ha ▸ hk)
    have hlt := (hp.inv.rule_lt hX).2
    have hcount := refs_fresh hS hkey.1 hkey.2 (.rule X.rule)
    rw [if_pos (ha ▸ hk), if_neg (c := Key.rule G.used = .rule X.rule) (by simpa using hlt.ne'),
      ← hk, htwo] at hcount
    rw [hk] at hcount ⊢
    omega

/-- **A rule that is spent stays without a second use.** -/
theorem Settles.not_useful (hs : Settles G Gs G') (hp : G.Pending) {H : Grammar} (hH : H ∈ Gs)
    (hspends : H.Spends) : ¬ G'.Useful := by
  have hfirst : ∀ {G G' Gs}, Settles G Gs G' → G.Pending → Gs ≠ [] → G.Spends → ¬ G'.Useful := by
    rintro G G' Gs hs hp hne ⟨a, r, ha, hk, htwo⟩ huse
    have hle := hs.refs_le_one hp hne ha hk htwo
    have hmem : a ∈ G.start := List.mem_reverse.mp (List.mem_of_mem_tail (List.mem_of_head? ha))
    obtain ⟨X, hX, rfl⟩ := hp.inv.closed (mem_flatten_of_mem_start hmem) hk
    have := huse X (hs.rules_subset hX)
    rw [hk] at hle
    omega
  induction hs with
  | short hshort => cases hH
  | record hS hI => cases hH
  | overlap hS hI ho => cases hH
  | reuse hS hI hR ho hnext ih =>
    rcases List.mem_cons.mp hH with rfl | hH
    · exact hfirst (.reuse hS hI hR ho hnext) hp (List.cons_ne_nil _ _) hspends
    · exact ih (hp.reuse hS hI hR ho) hH
  | fresh hS hI =>
    rw [List.mem_singleton] at hH
    subst hH
    exact hfirst (.fresh hS hI) hp (List.cons_ne_nil _ _) hspends

/-! ## Steps and runs -/

/-- **A step**: the rules stay useful if and only if no match spends one. -/
theorem Settles.useful_iff (hs : Settles G Gs G') (hp : G.Pending) (h : G.Useful)
    (hspare : G.Spare) : G'.Useful ↔ ∀ H ∈ Gs, ¬ H.Spends := by
  refine ⟨fun huse H hH hspends => hs.not_useful hp hH hspends huse, fun hno => ?_⟩
  induction hs with
  | short hshort => exact h
  | record hS hI => exact h
  | overlap hS hI ho => exact h
  | reuse hS hI hR ho hnext ih =>
    have hno' := hno _ (List.mem_cons_self ..)
    obtain ⟨huse, hspare'⟩ := h.reuse hp hspare hno' hS hI hR ho
    exact ih (hp.reuse hS hI hR ho) huse hspare' fun H hH => hno H (List.mem_cons_of_mem _ hH)
  | fresh hS hI => exact h.fresh hp hspare (hno _ (List.mem_singleton_self _)) hS hI

theorem Useful.append (h : G.Useful) (c : UInt8) : (G.append c).Useful ∧ (G.append c).Spare := by
  constructor
  · intro R hR
    rw [refs_append]
    exact (h R hR).trans (Nat.le_add_right _ _)
  · intro b r hb hk
    have hb' : b = ⟨G.used, .term c⟩ := by
      simpa [Grammar.append, eq_comm] using hb
    rw [hb'] at hk
    cases hk

/-- **A run**: all rules are used twice after every character if and only if no
match on the way spends a rule. -/
theorem useful_iff_not_spends (source : List UInt8) :
    (∀ s, s <+: source → (build s).2.Useful) ↔ ∀ H ∈ (build source).1, ¬ H.Spends := by
  induction source using List.reverseRecOn with
  | nil =>
    refine ⟨fun _ H hH => absurd hH List.not_mem_nil, fun _ s hs R hR => ?_⟩
    rw [List.prefix_nil.mp hs] at hR
    exact absurd hR List.not_mem_nil
  | append_singleton source c ih =>
    have hstep := fun huse => (settles_step (build_settled source) c).useful_iff
      ((build_settled source).append c) (Useful.append huse c).1 (Useful.append huse c).2
    have hall : (∀ s, s <+: source ++ [c] → (build s).2.Useful)
        ↔ (∀ s, s <+: source → (build s).2.Useful) ∧ (build (source ++ [c])).2.Useful := by
      simp only [List.prefix_concat_iff]
      refine ⟨fun h => ⟨fun s hs => h s (Or.inr hs), h _ (Or.inl rfl)⟩, ?_⟩
      rintro ⟨h, h'⟩ s (rfl | hs)
      · exact h'
      · exact h s hs
    rw [hall, build_concat]
    simp only [List.mem_append, or_imp, forall_and]
    refine and_congr_left' ih |>.trans (and_congr_right fun h => hstep ?_)
    exact ih.mpr h source List.prefix_rfl

end Grammar
