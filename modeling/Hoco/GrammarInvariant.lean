import Hoco.Grammar

/-!
# The index of a grammar

The invariant of `Hoco.Grammar`: the rules have two symbols, which are characters
or rules made before, and the index is one of the pairs of neighbours in the
sense of `PairIndex.Indexed`. Between appending a symbol and settling the last
pair, that pair is exempt (`Grammar.Pending`); settling it ends with no
exemptions (`Settles.inv`).

What settling can do is said once, by the relation `Settles`. Its cases are those
of the recursion of `Grammar.settle`, each with what the invariant adds: where the
pair was found, and that the other occurrence lies before the last pair.
-/

open PairIndex

namespace Grammar

/-- Keys that come later are above those that come earlier. -/
def above (k l : Key) : Prop := k.rank < l.rank

theorem not_above (k : Key) : ¬ above k k := Nat.lt_irrefl _

theorem above_trans {k l m : Key} (h : above k l) (h' : above l m) : above k m := Nat.lt_trans h h'

/-- **The invariant**, with some places exempt from the index. -/
structure Inv (G : Grammar) (exempt : Sym → Prop) : Prop where
  two : ∀ {R}, R ∈ G.rules → ∃ x y, R.body = [x, y]
  nodup : (G.bodies.flatten.map Sym.tag).Nodup
  tag_lt : ∀ {x}, x ∈ G.bodies.flatten → x.tag < G.used
  rule_lt : ∀ {R}, R ∈ G.rules → 1 < R.rule ∧ R.rule < G.used
  rule_nodup : (G.rules.map Ring.rule).Nodup
  order : ∀ {R x r}, R ∈ G.rules → x ∈ R.body → x.key = .rule r → r < R.rule
  closed : ∀ {x r}, x ∈ G.bodies.flatten → x.key = .rule r → ∃ R ∈ G.rules, R.rule = r
  used_gt : 1 < G.used
  indexed : Indexed Sym.key above (Adjacent G.bodies) exempt G.index

/-- The symbol before the last one. -/
def lastPair (G : Grammar) : Option Sym := G.start.reverse.tail.head?

/-- **The last pair is still to be settled**: it is exempt, and not in the index. -/
structure Pending (G : Grammar) : Prop where
  inv : G.Inv fun x => G.lastPair = some x
  unnamed : ∀ {d x}, G.lastPair = some x → G.index d ≠ some x

/-- Nothing is exempt. -/
abbrev Settled (G : Grammar) : Prop := G.Inv fun _ => False

variable {G : Grammar} {exempt exempt' : Sym → Prop}

theorem bodies_eq (G : Grammar) : G.bodies = G.start :: G.rules.map Ring.body := rfl

theorem mem_flatten_of_mem_body {R : Ring} {x : Sym} (hR : R ∈ G.rules) (hx : x ∈ R.body) :
    x ∈ G.bodies.flatten := by
  rw [bodies_eq, List.flatten_cons]
  exact List.mem_append_right _ (List.mem_flatten_of_mem (List.mem_map_of_mem hR) hx)

theorem mem_flatten_of_mem_start {x : Sym} (hx : x ∈ G.start) : x ∈ G.bodies.flatten := by
  rw [bodies_eq, List.flatten_cons]
  exact List.mem_append_left _ hx

namespace Inv

variable (h : G.Inv exempt)

include h

theorem exempting (hex : ∀ {x y}, Adjacent G.bodies x y → ¬ exempt' x → ¬ exempt x) :
    G.Inv exempt' :=
  { h with indexed := h.indexed.exempting hex }

theorem flatten_nodup : G.bodies.flatten.Nodup := h.nodup.of_map _

theorem linear : Linear (Adjacent G.bodies) := Adjacent.linear h.flatten_nodup

/-- No key is above that of a rule to come. -/
theorem above_rule {x : Sym} (hx : x ∈ G.bodies.flatten) {r : ℕ} (hr : G.used ≤ r) :
    above x.key (.rule r) := by
  have hpos := h.used_gt
  unfold above
  cases hk : x.key with
  | term c =>
    simp only [Key.rank]
    omega
  | rule r' =>
    obtain ⟨R, hR, rfl⟩ := h.closed hx hk
    exact (h.rule_lt hR).2.trans_le hr

theorem start_nodup : G.start.Nodup := by
  have hnodup := h.flatten_nodup
  rw [bodies_eq, List.flatten_cons] at hnodup
  exact (List.nodup_append.mp hnodup).1

/-- No symbol is one to come. -/
theorem ne_new {x : Sym} (hx : x ∈ G.bodies.flatten) {t : ℕ} (ht : G.used ≤ t) (k : Key) :
    x ≠ ⟨t, k⟩ := by
  rintro rfl
  exact absurd (h.tag_lt hx) (Nat.not_lt.mpr ht)

/-- No symbol stands for a rule to come. -/
theorem key_ne {x : Sym} (hx : x ∈ G.bodies.flatten) : x.key ≠ .rule G.used := fun hk => by
  obtain ⟨R, hR, hr⟩ := h.closed hx hk
  exact (h.rule_lt hR).2.ne hr

/-- A rule is above its symbols. -/
theorem above_body {R : Ring} {x : Sym} (hR : R ∈ G.rules) (hx : x ∈ R.body) :
    above x.key (.rule R.rule) := by
  unfold above
  cases hk : x.key with
  | term c => exact Nat.lt_trans Nat.zero_lt_one (h.rule_lt hR).1
  | rule r => exact h.order hR hx hk

end Inv

/-! ## The operations keep the invariant -/

/-- A symbol that takes the place of two others is the only new one. -/
theorem mem_flatten_substitute {left right : List Sym} {a b x : Sym} {r : ℕ}
    (hS : G.start = left.reverse ++ a :: b :: right)
    (hx : x ∈ (G.substitute left a b right r).bodies.flatten) :
    x = ⟨G.used, .rule r⟩ ∨ x ∈ G.bodies.flatten := by
  rw [bodies_eq, List.flatten_cons, hS]
  rw [bodies_eq, List.flatten_cons] at hx
  simp only [substitute, List.mem_append, List.mem_cons] at hx ⊢
  tauto

/-- The neighbours of two symbols, and of the one that takes their place. -/
theorem Inv.cut (h : G.Inv exempt) {left right : List Sym} {a b : Sym}
    (hS : G.start = left.reverse ++ a :: b :: right) (r : ℕ) :
    Cut (Adjacent G.bodies) (Adjacent (G.substitute left a b right r).bodies)
      left.tail.head? left.head? a b ⟨G.used, .rule r⟩ right.head? right.tail.head? := by
  have hbodies : G.bodies = (left.reverse ++ a :: b :: right) :: G.rules.map Ring.body := by
    rw [bodies_eq, hS]
  have hcut := cut_adjacent (hbodies ▸ h.flatten_nodup)
    (z := ⟨G.used, .rule r⟩) fun hz => (h.tag_lt (hbodies ▸ hz)).ne rfl
  rwa [← hbodies] at hcut

/-- **Two symbols make way for a rule** that is above them and above the symbol
behind them. -/
theorem Inv.substitute (h : G.Inv exempt) {left right : List Sym} {a b : Sym} {R : Ring}
    (hS : G.start = left.reverse ++ a :: b :: right) (hR : R ∈ G.rules)
    (ha : above a.key (.rule R.rule)) (hb : above b.key (.rule R.rule))
    (hc : ∀ {x}, right.head? = some x → above x.key (.rule R.rule))
    (hqp : ∀ {x}, left.tail.head? = some x → ¬ exempt x)
    (hbex : ∀ {x}, right.head? = some x → ¬ exempt b) :
    (G.substitute left a b right R.rule).Inv fun x =>
      exempt x ∨ left.head? = some x ∨ x = ⟨G.used, .rule R.rule⟩ := by
  have hbodies : G.bodies = (left.reverse ++ a :: b :: right) :: G.rules.map Ring.body := by
    rw [bodies_eq, hS]
  have hnew : ∀ {x}, x ∈ G.bodies.flatten → x.tag ≠ G.used := fun hx => (h.tag_lt hx).ne
  refine ⟨h.two, ?_, fun hx => ?_, fun hR => ?_, h.rule_nodup, h.order, fun hx hk => ?_, ?_, ?_⟩
  · have hperm : ((G.substitute left a b right R.rule).bodies.flatten.map Sym.tag).Perm
        (G.used :: ((left.reverse ++ right) ++ (G.rules.map Ring.body).flatten).map Sym.tag) := by
      rw [bodies_eq, List.flatten_cons]
      simp only [Grammar.substitute, List.append_assoc, List.map_append, List.cons_append,
        List.map_cons]
      exact List.perm_middle
    have hsub : (((left.reverse ++ right) ++ (G.rules.map Ring.body).flatten)).Sublist
        G.bodies.flatten := by
      rw [hbodies, List.flatten_cons]
      refine List.Sublist.append (List.Sublist.append (List.Sublist.refl _) ?_)
        (List.Sublist.refl _)
      exact (List.sublist_cons_self b right).trans (List.sublist_cons_self a _)
    refine hperm.nodup_iff.mpr (List.nodup_cons.mpr ⟨fun hmem => ?_, h.nodup.sublist (hsub.map _)⟩)
    obtain ⟨x, hx, htag⟩ := List.mem_map.mp hmem
    exact hnew (hsub.subset hx) htag
  · rcases mem_flatten_substitute hS hx with rfl | hx
    · exact Nat.lt_succ_self _
    · exact Nat.lt_succ_of_lt (h.tag_lt hx)
  · exact ⟨(h.rule_lt hR).1, Nat.lt_succ_of_lt (h.rule_lt hR).2⟩
  · rcases mem_flatten_substitute hS hx with rfl | hx
    · cases hk
      exact ⟨R, hR, rfl⟩
    · exact h.closed hx hk
  · exact Nat.lt_succ_of_lt h.used_gt
  · exact h.indexed.replace (h.cut hS R.rule) not_above hqp hbex above_trans ha hb hc

theorem bodies_addRule (G : Grammar) (a b : Sym) :
    (G.addRule a b).bodies = G.bodies ++ [[⟨G.used + 2, a.key⟩, ⟨G.used + 3, b.key⟩]] := by
  rw [bodies_eq, bodies_eq, addRule, List.map_append]
  rfl

theorem mem_flatten_addRule {a b x : Sym} :
    x ∈ (G.addRule a b).bodies.flatten ↔ x ∈ G.bodies.flatten
      ∨ x = ⟨G.used + 2, a.key⟩ ∨ x = ⟨G.used + 3, b.key⟩ := by
  rw [bodies_addRule, List.flatten_append]
  simp

/-- **A rule is made** for two symbols. Its body is not in the index. -/
theorem Inv.addRule (h : G.Inv exempt) {a b : Sym} (ha : a ∈ G.bodies.flatten)
    (hb : b ∈ G.bodies.flatten) :
    (G.addRule a b).Inv fun x => exempt x ∨ x = ⟨G.used + 2, a.key⟩ := by
  have hused := h.used_gt
  have hrules : ∀ {R}, R ∈ (G.addRule a b).rules → R ∈ G.rules
      ∨ R = ⟨G.used, G.used + 1, [⟨G.used + 2, a.key⟩, ⟨G.used + 3, b.key⟩]⟩ := fun {R} hR => by
    simpa [Grammar.addRule] using hR
  have hclosed : ∀ {x r}, x ∈ G.bodies.flatten → x.key = .rule r →
      ∃ R ∈ (G.addRule a b).rules, R.rule = r := fun hx hk => by
    obtain ⟨R, hR, hr⟩ := h.closed hx hk
    exact ⟨R, List.mem_append_left _ hR, hr⟩
  have hlt : ∀ {x r}, x ∈ G.bodies.flatten → x.key = .rule r → r < G.used := fun hx hk => by
    obtain ⟨R, hR, rfl⟩ := h.closed hx hk
    exact (h.rule_lt hR).2
  refine ⟨fun hR => ?_, ?_, fun {x} hx => ?_, fun {R} hR => ?_, ?_, fun hR hx hk => ?_,
    fun hx hk => ?_, ?_, ?_⟩
  · rcases hrules hR with hR | rfl
    · exact h.two hR
    · exact ⟨_, _, rfl⟩
  · rw [bodies_addRule, List.flatten_append, List.map_append]
    refine List.Nodup.append h.nodup (by simp) ?_
    intro t ht ht'
    obtain ⟨x, hx, rfl⟩ := List.mem_map.mp ht
    have hxt := h.tag_lt hx
    simp at ht'
    omega
  · change x.tag < G.used + 4
    rcases mem_flatten_addRule.mp hx with hx | rfl | rfl
    · exact Nat.lt_add_right 4 (h.tag_lt hx)
    · exact Nat.add_lt_add_left (by decide) _
    · exact Nat.add_lt_add_left (by decide) _
  · change 1 < R.rule ∧ R.rule < G.used + 4
    rcases hrules hR with hR | rfl
    · exact ⟨(h.rule_lt hR).1, Nat.lt_add_right 4 (h.rule_lt hR).2⟩
    · exact ⟨hused, Nat.lt_add_of_pos_right (by decide)⟩
  · simp only [Grammar.addRule, List.map_append]
    refine List.Nodup.append h.rule_nodup (by simp) ?_
    intro t ht ht'
    obtain ⟨R, hR, rfl⟩ := List.mem_map.mp ht
    simp only [List.map_cons, List.map_nil, List.mem_singleton] at ht'
    exact (h.rule_lt hR).2.ne ht'
  · rcases hrules hR with hR | rfl
    · exact h.order hR hx hk
    · rcases List.mem_pair.mp hx with rfl | rfl
      · exact hlt ha hk
      · exact hlt hb hk
  · rcases mem_flatten_addRule.mp hx with hx | rfl | rfl
    · exact hclosed hx hk
    · exact hclosed ha hk
    · exact hclosed hb hk
  · exact Nat.lt_add_right 4 hused
  · refine (h.indexed.add (x := some ⟨G.used + 2, a.key⟩) (y := ⟨G.used + 3, b.key⟩) ?_ ?_).exempting
      ?_
    · intro u v
      rw [bodies_addRule, adjacent_append_pair, Option.some.injEq, eq_comm (b := u)]
    · intro v hv
      have := h.tag_lt (adjacent_mem hv).1
      simp only at this
      omega
    · rintro x y - hx (hex | hex)
      · exact hx (Or.inl hex)
      · exact hx (Or.inr (Option.some.inj hex).symm)

/-- **A pair is recorded** that is nowhere else, the exempt places aside. -/
theorem Inv.note (h : G.Inv exempt) {x y : Sym} (hxy : Adjacent G.bodies x y)
    (hother : ∀ {u v}, Adjacent G.bodies u v → ¬ exempt u → u ≠ x →
      (u.key, v.key) ≠ (x.key, y.key))
    (hbefore : ∀ {w}, Adjacent G.bodies w x → ¬ exempt w) :
    (G.note (some x) (some y)).Inv fun u => exempt u ∧ u ≠ x :=
  { h with
    indexed := h.indexed.record h.linear hxy hother fun hw =>
      ⟨hw.ne h.flatten_nodup, hbefore hw⟩ }

/-- A pair that is not in the index is nowhere else. -/
theorem Inv.note_of_none (h : G.Inv exempt) {x y : Sym} (hxy : Adjacent G.bodies x y)
    (hnone : G.index (x.key, y.key) = none)
    (hbefore : ∀ {w}, Adjacent G.bodies w x → ¬ exempt w) :
    (G.note (some x) (some y)).Inv fun u => exempt u ∧ u ≠ x := by
  refine h.note hxy (fun {u v} huv hu _ heq => ?_) hbefore
  have hcov := h.indexed.cover huv hu
  unfold Covered at hcov
  rw [heq, hnone] at hcov
  simp at hcov

@[simp] theorem start_note (G : Grammar) (p q : Option Sym) : (G.note p q).start = G.start := by
  cases p <;> cases q <;> rfl

@[simp] theorem rules_note (G : Grammar) (p q : Option Sym) : (G.note p q).rules = G.rules := by
  cases p <;> cases q <;> rfl

@[simp] theorem used_note (G : Grammar) (p q : Option Sym) : (G.note p q).used = G.used := by
  cases p <;> cases q <;> rfl

theorem bodies_note (G : Grammar) (p q : Option Sym) : (G.note p q).bodies = G.bodies := by
  rw [bodies_eq, bodies_eq, start_note, rules_note]

/-- The pair behind a symbol that may be missing is recorded. -/
theorem Inv.note_before (h : G.Inv exempt) {x : Option Sym} {y : Sym}
    (hxy : ∀ {u}, x = some u → Adjacent G.bodies u y)
    (hnone : ∀ {u}, x = some u → G.index (u.key, y.key) = none)
    (hbefore : ∀ {u w}, x = some u → Adjacent G.bodies w u → ¬ exempt w) :
    (G.note x (some y)).Inv fun u => exempt u ∧ x ≠ some u := by
  cases x with
  | none => exact h.exempting fun _ hu hex => hu ⟨hex, by simp⟩
  | some x =>
    refine (h.note_of_none (hxy rfl) (hnone rfl) (hbefore rfl)).exempting fun _ hu hex => hu ?_
    exact ⟨hex.1, fun heq => hex.2 (Option.some.inj heq).symm⟩

/-- **A character is appended** to a settled grammar. -/
theorem Inv.append (h : G.Settled) (c : UInt8) : (G.append c).Pending := by
  have hbodies : (G.append c).bodies = (G.start ++ [⟨G.used, .term c⟩]) :: G.rules.map Ring.body :=
    rfl
  have hmem : ∀ {x}, x ∈ (G.append c).bodies.flatten → x = ⟨G.used, .term c⟩
      ∨ x ∈ G.bodies.flatten := fun {x} hx => by
    rw [hbodies, List.flatten_cons] at hx
    rw [bodies_eq, List.flatten_cons]
    simp only [List.mem_append, List.mem_singleton] at hx ⊢
    tauto
  have hlast : (G.append c).lastPair = G.start.getLast? := by
    simp [lastPair, Grammar.append]
  have hnew : ∀ v, ¬ Adjacent G.bodies ⟨G.used, .term c⟩ v := fun v hv =>
    (h.tag_lt (adjacent_mem hv).1).ne rfl
  have hindexed : Indexed Sym.key above (Adjacent (G.append c).bodies)
      (fun x => (G.append c).lastPair = some x) G.index := by
    refine (h.indexed.add (x := G.start.getLast?) (y := ⟨G.used, .term c⟩) ?_ hnew).exempting ?_
    · intro u v
      rw [hbodies, adjacent_snoc, ← bodies_eq]
    · rintro x y - hx (hex | hex)
      · exact hex
      · exact hx (hlast.trans hex)
  refine ⟨⟨h.two, ?_, fun hx => ?_, fun hR => ?_, h.rule_nodup, h.order, fun hx hk => ?_, ?_,
    hindexed⟩, fun {d x} hx hT => ?_⟩
  · rw [hbodies, List.flatten_cons]
    have hperm : ((G.start ++ [(⟨G.used, .term c⟩ : Sym)]
        ++ (G.rules.map Ring.body).flatten).map Sym.tag).Perm
          (G.used :: G.bodies.flatten.map Sym.tag) := by
      rw [bodies_eq, List.flatten_cons, List.append_assoc, List.map_append, List.map_append,
        List.map_append]
      exact List.perm_middle
    refine hperm.nodup_iff.mpr (List.nodup_cons.mpr ⟨fun hmem => ?_, h.nodup⟩)
    obtain ⟨x, hx, htag⟩ := List.mem_map.mp hmem
    exact (h.tag_lt hx).ne htag
  · rcases hmem hx with rfl | hx
    · exact Nat.lt_succ_self _
    · exact Nat.lt_succ_of_lt (h.tag_lt hx)
  · exact ⟨(h.rule_lt hR).1, Nat.lt_succ_of_lt (h.rule_lt hR).2⟩
  · rcases hmem hx with rfl | hx
    · cases hk
    · exact h.closed hx hk
  · exact Nat.lt_succ_of_lt h.used_gt
  · -- The symbol was the last one, so that no pair started with it.
    rw [hlast] at hx
    obtain ⟨y, hy, -⟩ := h.indexed.sound hT
    obtain ⟨l, hl⟩ := List.getLast?_eq_some_iff.mp hx
    have hnodup := h.flatten_nodup
    rw [bodies_eq, hl] at hy hnodup
    exact not_adjacent_last hnodup hy

/-! ## Settling the last pair -/

theorem lastPair_eq {left : List Sym} {a b : Sym} (hS : G.start = left.reverse ++ [a, b]) :
    G.lastPair = some a := by
  simp [lastPair, hS]

namespace Pending

variable {left : List Sym} {a b : Sym} (h : G.Pending)

include h

/-- There is no last pair. -/
theorem settled_of_short (hshort : G.lastPair = none) : G.Settled :=
  h.inv.exempting fun _ _ hex => by simp [hshort] at hex

/-- The place that is named lies in a rule: its body is the last pair. -/
theorem body_eq {o : Sym} {R : Ring} (hI : G.index (a.key, b.key) = some o) (hR : R ∈ G.rules)
    (ho : R.body.head? = some o) : ∃ o', R.body = [o, o'] ∧ a.key = o.key ∧ b.key = o'.key := by
  obtain ⟨x, y, hxy⟩ := h.inv.two hR
  rw [hxy, List.head?_cons, Option.some.injEq] at ho
  rw [ho] at hxy
  have hadj : Adjacent G.bodies o y := by
    refine ⟨R.body, List.mem_cons_of_mem _ (List.mem_map_of_mem hR), [], [], ?_⟩
    rw [hxy]
    rfl
  have hkey := h.inv.indexed.key_eq hadj h.inv.linear hI
  rw [Prod.mk.injEq] at hkey
  exact ⟨y, hxy, hkey.1, hkey.2⟩

variable (hS : G.start = left.reverse ++ [a, b])

include hS

theorem adjacent : Adjacent G.bodies a b := (h.inv.cut hS 0).pair

/-- The last pair is new. -/
theorem record (hnone : G.index (a.key, b.key) = none) :
    (G.note (some a) (some b)).Settled := by
  have hpair := h.adjacent hS
  refine (h.inv.note_of_none hpair hnone fun {w} hw hex => ?_).exempting ?_
  · rw [lastPair_eq hS, Option.some.injEq] at hex
    exact hw.ne h.inv.flatten_nodup hex.symm
  · rintro x y - - ⟨hex, hne⟩
    rw [lastPair_eq hS, Option.some.injEq] at hex
    exact hne hex.symm

/-- The last pair overlaps the place that is named. -/
theorem overlap {o : Sym} (ho : left.head? = some o) (hI : G.index (a.key, b.key) = some o) :
    G.Settled := by
  have hoa : Adjacent G.bodies o a := (h.inv.cut hS 0).before.mpr ho
  have hindexed := h.inv.indexed.overlap hoa (h.adjacent hS) h.inv.linear hI
  refine { h.inv with indexed := hindexed.exempting ?_ }
  rintro x y - - ⟨hex, hne⟩
  rw [lastPair_eq hS, Option.some.injEq] at hex
  exact hne hex.symm

/-- **The last pair is the body of a rule**, and is replaced by it. -/
theorem reuse {o : Sym} {R : Ring} (hI : G.index (a.key, b.key) = some o) (hR : R ∈ G.rules)
    (ho : R.body.head? = some o) : (G.substitute left a b [] R.rule).Pending := by
  obtain ⟨o', hbody, hka, hkb⟩ := h.body_eq hI hR ho
  have hlast : (G.substitute left a b [] R.rule).lastPair = left.head? := by
    simp [lastPair, substitute]
  have hcut := h.inv.cut hS R.rule
  have hpair : ∀ {x}, G.lastPair = some x ↔ x = a := by
    intro x
    rw [lastPair_eq hS, Option.some.injEq, eq_comm]
  refine ⟨(h.inv.substitute hS hR ?_ ?_ ?_ ?_ ?_).exempting ?_, fun {d x} hx => ?_⟩
  · rw [hka]
    exact h.inv.above_body hR (by simp [hbody])
  · rw [hkb]
    exact h.inv.above_body hR (by simp [hbody])
  · simp
  · intro x hx hex
    cases left with
    | nil => cases hx
    | cons q left => exact (hcut.qp_ne hx rfl).2.1 (hpair.mp hex)
  · simp
  · -- Neither `a` nor the new symbol has a neighbour behind it any more.
    intro x y hxy hx
    rw [hlast] at hx
    rcases hcut.adj'.mp hxy with ⟨hadj, hxa, -, -⟩ | ⟨hq, -⟩ | ⟨-, hc⟩
    · rintro (hex | hq | rfl)
      · exact hxa (hpair.mp hex)
      · exact hx hq
      · exact hcut.fresh.2 hadj
    · exact absurd hq hx
    · cases hc
  · rw [hlast] at hx
    intro hT
    exact (replace_ne hcut h.inv.indexed hT).1 hx

end Pending

theorem bodies_replaceOld (G : Grammar) (pre : List Sym) (o o' : Sym) (right : List Sym)
    (a b : Sym) : (G.replaceOld pre o o' right a b).bodies
      = ((G.addRule a b).substitute pre o o' right G.used).bodies := by
  rw [Grammar.replaceOld, bodies_note, bodies_note]

theorem start_replaceOld (G : Grammar) (pre : List Sym) (o o' : Sym) (right : List Sym)
    (a b : Sym) : (G.replaceOld pre o o' right a b).start
      = pre.reverse ++ ⟨G.used + 4, .rule G.used⟩ :: right := by
  rw [replaceOld, start_note, start_note]
  rfl

theorem rules_replaceOld (G : Grammar) (pre : List Sym) (o o' : Sym) (right : List Sym)
    (a b : Sym) : (G.replaceOld pre o o' right a b).rules
      = G.rules ++ [⟨G.used, G.used + 1, [⟨G.used + 2, a.key⟩, ⟨G.used + 3, b.key⟩]⟩] := by
  rw [replaceOld, rules_note, rules_note]
  rfl

theorem used_replaceOld (G : Grammar) (pre : List Sym) (o o' : Sym) (right : List Sym)
    (a b : Sym) : (G.replaceOld pre o o' right a b).used = G.used + 5 := by
  rw [replaceOld, used_note, used_note]
  rfl

/-! ### A rule for the last pair

The pair stands at `o o'` and, at the end, at `a b`. The rule, its body and the two
symbols for it are new. -/

section Fresh

variable {pre mid : List Sym} {o o' a b : Sym} (h : G.Pending)
  (hS : G.start = pre.reverse ++ o :: o' :: (mid ++ [a, b]))

include hS

theorem fresh_lastPair {x : Sym} : G.lastPair = some x ↔ x = a := by
  have hstart : G.start = (mid.reverse ++ o' :: o :: pre).reverse ++ [a, b] := by simp [hS]
  rw [lastPair_eq hstart, Option.some.injEq, eq_comm]

theorem fresh_mem {x : Sym} (hx : x ∈ pre ∨ x = o ∨ x = o' ∨ x ∈ mid ∨ x = a ∨ x = b) :
    x ∈ G.bodies.flatten := by
  refine mem_flatten_of_mem_start ?_
  rw [hS]
  simpa using hx

theorem fresh_mem_behind {x : Sym} (hx : (mid ++ [a, b]).head? = some x) :
    x ∈ G.bodies.flatten := by
  refine fresh_mem hS ?_
  have hmem := List.mem_of_head? hx
  simp only [List.mem_append, List.mem_cons, List.not_mem_nil, or_false] at hmem
  tauto

namespace Pending

include h

theorem distinct :
    (∀ x ∈ pre, x ∉ mid ∧ x ≠ o ∧ x ≠ o' ∧ x ≠ a ∧ x ≠ b)
      ∧ (∀ x ∈ mid, x ≠ o ∧ x ≠ o' ∧ x ≠ a ∧ x ≠ b)
      ∧ o ≠ o' ∧ o ≠ a ∧ o ≠ b ∧ o' ≠ a ∧ o' ≠ b ∧ a ≠ b := by
  have hnodup := h.inv.start_nodup
  rw [hS] at hnodup
  simp only [List.nodup_append, List.nodup_cons, List.mem_reverse, List.mem_cons, List.mem_append,
    List.not_mem_nil, or_false, not_or] at hnodup
  obtain ⟨-, ⟨h₁, h₂, -, h₃, h₄⟩, h₅⟩ := hnodup
  grind

/-- The rule is made. -/
theorem addRule : (G.addRule a b).Inv fun x => x = a ∨ x = ⟨G.used + 2, a.key⟩ := by
  refine (h.inv.addRule (fresh_mem hS ?_) (fresh_mem hS ?_)).exempting fun _ hx => ?_
  · tauto
  · tauto
  · rwa [fresh_lastPair hS]

/-- The neighbours of the old occurrence, in the grammar with the rule. -/
theorem cut_old :
    Cut (Adjacent (G.addRule a b).bodies)
      (Adjacent ((G.addRule a b).substitute pre o o' (mid ++ [a, b]) G.used).bodies)
      pre.tail.head? pre.head? o o' ⟨G.used + 4, .rule G.used⟩ (mid ++ [a, b]).head?
      (mid ++ [a, b]).tail.head? :=
  (h.addRule hS).cut hS G.used

/-- The symbols before the old occurrence, and its second one, are not exempt. -/
theorem not_exempt_old {x : Sym} (hx : x ∈ pre ∨ x = o') :
    ¬ (x = a ∨ x = ⟨G.used + 2, a.key⟩) := by
  obtain ⟨hpre, -, -, -, -, ho', -, -⟩ := h.distinct hS
  rintro (hex | hex)
  · rcases hx with hx | rfl
    · exact (hpre x hx).2.2.2.1 hex
    · exact ho' hex
  · refine h.inv.ne_new (fresh_mem hS ?_) (Nat.le_add_right _ 2) a.key hex
    tauto

/-- The old occurrence makes way for the rule. -/
theorem replace_old :
    ((G.addRule a b).substitute pre o o' (mid ++ [a, b]) G.used).Inv fun x =>
      (x = a ∨ x = ⟨G.used + 2, a.key⟩) ∨ pre.head? = some x
        ∨ x = ⟨G.used + 4, .rule G.used⟩ := by
  have habove := fun {x} hx => h.inv.above_rule (x := x) hx le_rfl
  refine (h.addRule hS).substitute (R := ⟨G.used, G.used + 1, _⟩) hS
    (List.mem_append_right _ (List.mem_singleton_self _))
    (habove (fresh_mem hS ?_)) (habove (fresh_mem hS ?_)) (fun hx => habove (fresh_mem_behind hS hx))
    (fun hx => h.not_exempt_old hS (Or.inl ?_)) fun _ => h.not_exempt_old hS (Or.inr rfl)
  · tauto
  · tauto
  · exact List.mem_of_mem_tail (List.mem_of_head? hx)

/-- Only the new symbol stands for the rule. -/
theorem eq_of_key_old {x : Sym}
    (hx : x ∈ ((G.addRule a b).substitute pre o o' (mid ++ [a, b]) G.used).bodies.flatten)
    (hk : x.key = .rule G.used) : x = ⟨G.used + 4, .rule G.used⟩ := by
  rcases mem_flatten_substitute (G := G.addRule a b) hS hx with hx | hx
  · exact hx
  · rcases mem_flatten_addRule.mp hx with hx | rfl | rfl
    · exact absurd hk (h.inv.key_ne hx)
    · exact absurd hk (h.inv.key_ne (x := a) (fresh_mem hS (by tauto)))
    · exact absurd hk (h.inv.key_ne (x := b) (fresh_mem hS (by tauto)))

/-- What stands before the new symbol. -/
theorem before_old {x : Sym}
    (hx : Adjacent ((G.addRule a b).substitute pre o o' (mid ++ [a, b]) G.used).bodies x
      ⟨G.used + 4, .rule G.used⟩) : pre.head? = some x := by
  have hcut := h.cut_old hS
  rcases hcut.adj'.mp hx with ⟨hadj, -⟩ | ⟨hq, -⟩ | ⟨-, hc⟩
  · exact absurd hadj hcut.fresh.1
  · exact hq
  · exact absurd rfl (h.inv.ne_new (fresh_mem_behind hS hc) (Nat.le_add_right _ 4) _)

/-- The pair before the rule is new. -/
theorem index_before_old {k : Key} :
    ((G.addRule a b).substitute pre o o' (mid ++ [a, b]) G.used).index (k, .rule G.used)
      = none := by
  refine Option.eq_none_iff_forall_ne_some.mpr fun u hu => ?_
  obtain ⟨y, huy, hd⟩ := (h.replace_old hS).indexed.sound hu
  rw [Prod.mk.injEq] at hd
  rw [h.eq_of_key_old hS (adjacent_mem huy).2 hd.2.symm] at huy
  exact (replace_ne (h.cut_old hS) (h.addRule hS).indexed hu).1 (h.before_old hS huy)

/-- The pair behind the rule is new. -/
theorem index_behind_old {k : Key} :
    (((G.addRule a b).substitute pre o o' (mid ++ [a, b]) G.used).note pre.head?
      (some ⟨G.used + 4, .rule G.used⟩)).index (.rule G.used, k) = none := by
  have hcut := h.cut_old hS
  have hnone : ((G.addRule a b).substitute pre o o' (mid ++ [a, b]) G.used).index
      (.rule G.used, k) = none := by
    refine Option.eq_none_iff_forall_ne_some.mpr fun u hu => ?_
    obtain ⟨y, huy, hd⟩ := (h.replace_old hS).indexed.sound hu
    rw [Prod.mk.injEq] at hd
    rw [h.eq_of_key_old hS (adjacent_mem huy).1 hd.1.symm] at hu
    rcases replace_cases hcut (h.addRule hS).indexed hu with hT | hr
    · obtain ⟨v, hv, -⟩ := h.inv.indexed.sound hT
      exact h.inv.ne_new (adjacent_mem hv).1 (Nat.le_add_right _ 4) _ rfl
    · obtain ⟨⟨v, hv, -⟩, -⟩ := hcut.adj_of_restored hr
      exact hcut.fresh.2 hv
  cases hpre : pre.head? with
  | none => exact hnone
  | some q =>
    refine (Function.update_of_ne (fun hd => ?_) _ _).trans hnone
    rw [Prod.mk.injEq] at hd
    exact h.inv.key_ne (fresh_mem hS (Or.inl (List.mem_of_head? hpre))) hd.1.symm

/-- **The old occurrence is replaced**, and its two pairs are recorded. -/
theorem replaceOld :
    (G.replaceOld pre o o' (mid ++ [a, b]) a b).Inv fun x =>
      x = a ∨ x = ⟨G.used + 2, a.key⟩ := by
  have hcut := h.cut_old hS
  have hnew : ∀ {x}, x ∈ pre → x ≠ (⟨G.used + 4, .rule G.used⟩ : Sym) := fun hx =>
    h.inv.ne_new (fresh_mem hS (Or.inl hx)) (Nat.le_add_right _ 4) _
  have hbefore := (h.replace_old hS).note_before (x := pre.head?)
    (y := ⟨G.used + 4, .rule G.used⟩) (fun hu => hcut.adj'.mpr (Or.inr (Or.inl ⟨hu, rfl⟩)))
    (fun _ => h.index_before_old hS) (fun {u w} hu hw => ?_)
  · obtain ⟨c, hc⟩ : ∃ c, (mid ++ [a, b]).head? = some c := by
      cases mid <;> exact ⟨_, rfl⟩
    have hbehind := hbefore.note_of_none (x := ⟨G.used + 4, .rule G.used⟩) (y := c) ?_
      (h.index_behind_old hS) fun {w} hw => ?_
    · rw [Grammar.replaceOld, hc]
      refine hbehind.exempting fun _ hx hex => hx ?_
      tauto
    · rw [bodies_note]
      exact hcut.adj'.mpr (Or.inr (Or.inr ⟨rfl, hc⟩))
    · rw [bodies_note] at hw
      have hw' := h.before_old hS hw
      rintro ⟨-, hne⟩
      exact hne hw'
  · -- The symbol before `u` is one of `pre` too.
    have hqp : pre.tail.head? = some w := by
      rcases hcut.adj'.mp hw with ⟨hadj, -⟩ | ⟨-, hz⟩ | ⟨-, hc⟩
      · exact (hcut.before₂ hu).mp hadj
      · exact absurd hz (hnew (List.mem_of_head? hu))
      · exact absurd hu (hcut.c_ne hc).1
    have hw' : w ∈ pre := List.mem_of_mem_tail (List.mem_of_head? hqp)
    rintro (hex | hq | hz)
    · exact h.not_exempt_old hS (Or.inl hw') hex
    · exact (hcut.qp_ne hqp hu).1 (Option.some.inj (hq.symm.trans hu))
    · exact hnew hw' hz

/-- The neighbours of the last pair, behind the first replacement. -/
theorem cut_last :
    Cut (Adjacent (G.replaceOld pre o o' (mid ++ [a, b]) a b).bodies)
      (Adjacent ((G.replaceOld pre o o' (mid ++ [a, b]) a b).substitute
        (mid.reverse ++ ⟨G.used + 4, .rule G.used⟩ :: pre) a b [] G.used).bodies)
      (mid.reverse ++ ⟨G.used + 4, .rule G.used⟩ :: pre).tail.head?
      (mid.reverse ++ ⟨G.used + 4, .rule G.used⟩ :: pre).head? a b ⟨G.used + 5, .rule G.used⟩
      none none := by
  have hstart : (G.replaceOld pre o o' (mid ++ [a, b]) a b).start
      = (mid.reverse ++ ⟨G.used + 4, .rule G.used⟩ :: pre).reverse ++ a :: b :: [] := by
    simp [start_replaceOld]
  have hcut := (h.replaceOld hS).cut hstart G.used
  rwa [used_replaceOld] at hcut

/-- The symbols before the last pair are not exempt. -/
theorem not_exempt_last {x : Sym} (hx : x ∈ mid.reverse ++ ⟨G.used + 4, .rule G.used⟩ :: pre) :
    ¬ (x = a ∨ x = ⟨G.used + 2, a.key⟩) := by
  obtain ⟨hpre, hmid, -⟩ := h.distinct hS
  simp only [List.mem_append, List.mem_reverse, List.mem_cons] at hx
  rcases hx with hx | rfl | hx
  · rintro (hex | hex)
    · exact (hmid x hx).2.2.1 hex
    · exact h.inv.ne_new (fresh_mem hS (by tauto)) (Nat.le_add_right _ 2) a.key hex
  · rintro (hex | hex)
    · exact h.inv.ne_new (fresh_mem hS (x := a) (by tauto)) (Nat.le_add_right _ 4) _ hex.symm
    · simp at hex
  · exact h.not_exempt_old hS (Or.inl hx)

/-- The last pair makes way for the rule. -/
theorem replace_last :
    ((G.replaceOld pre o o' (mid ++ [a, b]) a b).substitute
      (mid.reverse ++ ⟨G.used + 4, .rule G.used⟩ :: pre) a b [] G.used).Inv fun x =>
        x = ⟨G.used + 2, a.key⟩
          ∨ (mid.reverse ++ ⟨G.used + 4, .rule G.used⟩ :: pre).head? = some x := by
  have hcut := h.cut_last hS
  have habove := fun {x} hx => h.inv.above_rule (x := x) hx le_rfl
  refine ((h.replaceOld hS).substitute
    (R := ⟨G.used, G.used + 1, [⟨G.used + 2, a.key⟩, ⟨G.used + 3, b.key⟩]⟩)
    (by simp [start_replaceOld]) (by simp [rules_replaceOld]) (habove (fresh_mem hS ?_))
    (habove (fresh_mem hS ?_)) (by simp) (fun hx => h.not_exempt_last hS ?_) (by simp)).exempting ?_
  · tauto
  · tauto
  · exact List.mem_of_mem_tail (List.mem_of_head? hx)
  · -- Neither `a` nor the new symbol has a neighbour behind it any more.
    intro x y hxy hx
    rcases hcut.adj'.mp hxy with ⟨hadj, hxa, -⟩ | ⟨hq, -⟩ | ⟨-, hc⟩
    · rintro ((hex | hex) | hq | rfl)
      · exact hxa hex
      · exact hx (Or.inl hex)
      · exact hx (Or.inr hq)
      · rw [used_replaceOld] at hadj
        exact hcut.fresh.2 hadj
    · exact absurd (Or.inr hq) hx
    · cases hc

/-- Only the two new symbols stand for the rule. -/
theorem eq_of_key_last {x : Sym}
    (hx : x ∈ ((G.replaceOld pre o o' (mid ++ [a, b]) a b).substitute
      (mid.reverse ++ ⟨G.used + 4, .rule G.used⟩ :: pre) a b [] G.used).bodies.flatten)
    (hk : x.key = .rule G.used) :
    x = ⟨G.used + 4, .rule G.used⟩ ∨ x = ⟨G.used + 5, .rule G.used⟩ := by
  rcases mem_flatten_substitute (by simp [start_replaceOld]) hx with hx | hx
  · rw [used_replaceOld] at hx
    exact Or.inr hx
  · rw [bodies_replaceOld] at hx
    exact Or.inl (h.eq_of_key_old hS hx hk)

/-- The pair before the second symbol for the rule is new: were it the pair before
the first one, the last pair with its predecessor would have been there before. -/
theorem index_last (ho : a.key = o.key) {q : Sym}
    (hq : (mid.reverse ++ ⟨G.used + 4, .rule G.used⟩ :: pre).head? = some q) :
    ((G.replaceOld pre o o' (mid ++ [a, b]) a b).substitute
      (mid.reverse ++ ⟨G.used + 4, .rule G.used⟩ :: pre) a b [] G.used).index
        (q.key, .rule G.used) = none := by
  have hcut := h.cut_last hS
  refine Option.eq_none_iff_forall_ne_some.mpr fun u hu => ?_
  obtain ⟨y, huy, hd⟩ := (h.replace_last hS).indexed.sound hu
  rw [Prod.mk.injEq] at hd
  rcases h.eq_of_key_last hS (adjacent_mem huy).2 hd.2.symm with rfl | rfl
  · have hpre : pre.head? = some u := by
      rcases hcut.adj'.mp huy with ⟨hadj, -⟩ | ⟨-, hz⟩ | ⟨-, hc⟩
      · rw [bodies_replaceOld] at hadj
        exact h.before_old hS hadj
      · simp at hz
      · cases hc
    have hmem := List.mem_of_head? hpre
    obtain ⟨hdpre, hdmid, -⟩ := h.distinct hS
    rcases List.eq_nil_or_concat' mid with rfl | ⟨mid', m, rfl⟩
    · rw [List.reverse_nil, List.nil_append, List.head?_cons, Option.some.injEq] at hq
      rw [← hq] at hd
      exact h.inv.key_ne (fresh_mem hS (Or.inl hmem)) hd.1.symm
    · simp only [List.reverse_append, List.reverse_cons, List.reverse_nil, List.nil_append,
        List.cons_append, List.head?_cons, Option.some.injEq] at hq
      subst hq
      have huo : Adjacent G.bodies u o := (h.inv.cut hS 0).before.mpr hpre
      have hma : Adjacent G.bodies m a := by
        have hstart : G.start = (m :: (mid'.reverse ++ o' :: o :: pre)).reverse ++ a :: b :: [] := by
          simp [hS]
        exact (h.inv.cut hstart 0).before.mpr rfl
      have hm : m ∈ mid' ++ [m] := by simp
      have hua : u ≠ a := (hdpre u hmem).2.2.2.1
      rcases h.inv.indexed.unique h.inv.linear not_above huo hma
        (mt (fresh_lastPair hS).mp hua) (mt (fresh_lastPair hS).mp (hdmid m hm).2.2.1)
        (by rw [ho, hd.1]) with heq | heq | heq
      · exact (hdpre u hmem).1 (heq ▸ hm)
      · exact (hdmid m hm).1 heq
      · exact hua heq
  · have hu' : (mid.reverse ++ ⟨G.used + 4, .rule G.used⟩ :: pre).head? = some u := by
      rcases hcut.adj'.mp huy with ⟨hadj, -⟩ | ⟨hq', -⟩ | ⟨-, hc⟩
      · exact absurd hadj hcut.fresh.1
      · exact hq'
      · cases hc
    exact (replace_ne hcut (h.replaceOld hS).indexed hu).1 hu'

omit h hS in
/-- The body of the rule. -/
theorem adjacent_body :
    Adjacent ((G.replaceOld pre o o' (mid ++ [a, b]) a b).substitute
      (mid.reverse ++ ⟨G.used + 4, .rule G.used⟩ :: pre) a b [] G.used).bodies
        ⟨G.used + 2, a.key⟩ ⟨G.used + 3, b.key⟩ := by
  refine ⟨_, List.mem_cons_of_mem _ (List.mem_map_of_mem (a := ⟨G.used, G.used + 1, _⟩) ?_),
    [], [], rfl⟩
  change _ ∈ (G.replaceOld pre o o' (mid ++ [a, b]) a b).rules
  rw [rules_replaceOld]
  exact List.mem_append_right _ (List.mem_singleton_self _)

/-- The pair is at no other place than the body of the rule. -/
theorem body_unique (hko : a.key = o.key) (hko' : b.key = o'.key) {u v : Sym}
    (huv : Adjacent ((G.replaceOld pre o o' (mid ++ [a, b]) a b).substitute
      (mid.reverse ++ ⟨G.used + 4, .rule G.used⟩ :: pre) a b [] G.used).bodies u v)
    (hu : u ≠ ⟨G.used + 2, a.key⟩) : (u.key, v.key) ≠ (a.key, b.key) := by
  have ha := h.inv.key_ne (x := a) (fresh_mem hS (by tauto))
  have hb := h.inv.key_ne (x := b) (fresh_mem hS (by tauto))
  intro hkey
  rw [Prod.mk.injEq] at hkey
  rcases (h.cut_last hS).adj'.mp huv with ⟨huv, hua, -, -⟩ | ⟨-, rfl⟩ | ⟨-, hc⟩
  · rw [bodies_replaceOld] at huv
    rcases (h.cut_old hS).adj'.mp huv with ⟨huv, huo, huo', hvo⟩ | ⟨-, rfl⟩ | ⟨rfl, -⟩
    · rw [bodies_addRule, adjacent_append_pair] at huv
      rcases huv with huv | ⟨heq, -⟩
      · have hoo : Adjacent G.bodies o o' := (h.inv.cut hS 0).pair
        rcases h.inv.indexed.unique h.inv.linear not_above huv hoo
          (mt (fresh_lastPair hS).mp hua) (mt (fresh_lastPair hS).mp (h.distinct hS).2.2.2.1)
          (by rw [hkey.1, hkey.2, hko, hko']) with heq | heq | heq
        · exact huo heq
        · exact hvo heq.symm
        · exact huo' heq
      · exact hu heq
    · exact hb hkey.2.symm
    · exact ha hkey.1.symm
  · exact hb hkey.2.symm
  · cases hc

/-- **A rule for the last pair**: nothing is left to be settled. -/
theorem fresh (hI : G.index (a.key, b.key) = some o) : (G.fresh pre o o' mid a b).Settled := by
  have hkey := h.inv.indexed.key_eq (h.inv.cut hS 0).pair h.inv.linear hI
  rw [Prod.mk.injEq] at hkey
  have hcut := h.cut_last hS
  have hinv := h.replace_last hS
  have hbody := @adjacent_body G pre mid o o' a b
  have hlast := hinv.note_before (fun hu => hcut.adj'.mpr (Or.inr (Or.inl ⟨hu, rfl⟩)))
    (fun hu => h.index_last hS hkey.1 hu) fun {u w} hu hw => ?_
  · refine (hlast.note (x := ⟨G.used + 2, a.key⟩) (y := ⟨G.used + 3, b.key⟩) ?_
      (fun {u v} huv _ hu => ?_) fun {w} hw => ?_).exempting ?_
    · rw [bodies_note]
      exact hbody
    · rw [bodies_note] at huv
      exact h.body_unique hS hkey.1 hkey.2 huv hu
    · rintro ⟨rfl | hex, hne⟩
      · exact hw.ne hlast.flatten_nodup rfl
      · exact hne hex
    · rintro x y - - ⟨⟨hex | hex, hne⟩, hne'⟩
      · exact hne' hex
      · exact hne hex
  · rintro (rfl | hex)
    · -- Behind the first symbol of the rule stands the second one.
      have heq := hinv.linear.succ_unique hw hbody
      have hmem := List.mem_of_head? hu
      simp only [List.mem_append, List.mem_reverse, List.mem_cons] at hmem
      rcases hmem with hmem | rfl | hmem
      · exact h.inv.ne_new (fresh_mem hS (by tauto)) (Nat.le_add_right _ 3) _ heq
      · simp at heq
      · exact h.inv.ne_new (fresh_mem hS (by tauto)) (Nat.le_add_right _ 3) _ heq
    · exact hw.ne hinv.flatten_nodup (Option.some.inj (hex.symm.trans hu))

end Pending

end Fresh

end Grammar
