import Hoco.GrammarInvariant
import Mathlib.Data.List.Induction

/-!
# Whole runs of the growing grammar

What settling the last pair can do is said once, by the relation `Settles`: its
cases are those of the recursion of `Grammar.settle`, each with what the invariant
adds – where the pair was found, and that its other occurrence lies before the
last pair. `settles_settle` is the only place where the search for that occurrence
is looked at; everything else is shown by induction on `Settles`.

The first such results are that the invariant is back in force when the last pair
is settled (`Settles.settled`), and that a grammar stands for the text that has
been read (`reads_build`).
-/

open PairIndex

namespace Grammar

/-- **Settling the last pair**: the grammar before, those in which a match was
made, and the grammar after. -/
inductive Settles : Grammar → List Grammar → Grammar → Prop
  /-- There is no pair. -/
  | short {G : Grammar} (hshort : G.lastPair = none) : Settles G [] G
  /-- The pair is new. -/
  | record {G : Grammar} {left : List Sym} {a b : Sym} (hS : G.start = left.reverse ++ [a, b])
      (hI : G.index (a.key, b.key) = none) : Settles G [] (G.note (some a) (some b))
  /-- The pair overlaps the place that is named. -/
  | overlap {G : Grammar} {left : List Sym} {a b o : Sym}
      (hS : G.start = left.reverse ++ [a, b]) (hI : G.index (a.key, b.key) = some o)
      (ho : left.head? = some o) : Settles G [] G
  /-- The pair is the body of a rule. -/
  | reuse {G G' : Grammar} {Gs : List Grammar} {left : List Sym} {a b o : Sym} {R : Ring}
      (hS : G.start = left.reverse ++ [a, b]) (hI : G.index (a.key, b.key) = some o)
      (hR : R ∈ G.rules) (ho : R.body.head? = some o)
      (hnext : Settles (G.substitute left a b [] R.rule) Gs G') : Settles G (G :: Gs) G'
  /-- The pair is at another place of the start sequence. -/
  | fresh {G : Grammar} {pre mid : List Sym} {o o' a b : Sym}
      (hS : G.start = pre.reverse ++ o :: o' :: (mid ++ [a, b]))
      (hI : G.index (a.key, b.key) = some o) : Settles G [G] (G.fresh pre o o' mid a b)

variable {G G' : Grammar} {Gs : List Grammar}

/-- **The invariant is back in force** when the last pair is settled. -/
theorem Settles.settled (hs : Settles G Gs G') (h : G.Pending) : G'.Settled := by
  induction hs with
  | short hshort => exact h.settled_of_short hshort
  | record hS hI => exact h.record hS hI
  | overlap hS hI ho => exact h.overlap hS ho hI
  | reuse hS hI hR ho hnext ih => exact ih (h.reuse hS hI hR ho)
  | fresh hS hI => exact h.fresh hS hI

theorem start_fresh (G : Grammar) (pre : List Sym) (o o' : Sym) (mid : List Sym) (a b : Sym) :
    (G.fresh pre o o' mid a b).start = pre.reverse
      ++ ⟨G.used + 4, .rule G.used⟩ :: (mid ++ [⟨G.used + 5, .rule G.used⟩]) := by
  rw [fresh, start_note, start_note, substitute, used_replaceOld]
  simp

theorem rules_fresh (G : Grammar) (pre : List Sym) (o o' : Sym) (mid : List Sym) (a b : Sym) :
    (G.fresh pre o o' mid a b).rules = G.rules
      ++ [⟨G.used, G.used + 1, [⟨G.used + 2, a.key⟩, ⟨G.used + 3, b.key⟩]⟩] := by
  rw [fresh, rules_note, rules_note, substitute, rules_replaceOld]

/-! ## The recursion settles -/

theorem locate_append {o y : Sym} {u v : List Sym} (hu : o ∉ u) (left : List Sym) :
    locate o left (u ++ o :: y :: v) = some (u.reverse ++ left, y, v) := by
  induction u generalizing left with
  | nil => simp [locate]
  | cons x u ih =>
    rw [List.mem_cons, not_or] at hu
    have hcons : ∃ x' l, u ++ o :: y :: v = x' :: l := by
      cases u <;> exact ⟨_, _, rfl⟩
    obtain ⟨x', l, hl⟩ := hcons
    rw [List.cons_append, hl, locate, if_neg (Ne.symm hu.1), ← hl, ih hu.2]
    simp

/-- The place that is named lies in a rule, or before the last pair of the start
sequence. -/
theorem Pending.place (h : G.Pending) {left : List Sym} {a b o : Sym}
    (hS : G.start = left.reverse ++ [a, b]) (hI : G.index (a.key, b.key) = some o)
    (ho : left.head? ≠ some o) (hno : ∀ R ∈ G.rules, R.body.head? ≠ some o) :
    ∃ (pre : List Sym) (o' : Sym) (mid : List Sym),
      G.start = pre.reverse ++ o :: o' :: (mid ++ [a, b]) := by
  have hoa : o ≠ a := by
    rintro rfl
    exact h.unnamed (lastPair_eq hS) hI
  obtain ⟨y, hoy, -⟩ := h.inv.indexed.sound hI
  rw [bodies_eq, adjacent_cons] at hoy
  rcases hoy with hoy | ⟨l, hl, u, v, huv⟩
  · rw [hS, adjIn_reverse_append] at hoy
    rcases hoy with ⟨u, v, huv⟩ | ⟨hleft, -⟩ | hab
    · exact ⟨u.reverse, y, v, by rw [hS, huv]; simp⟩
    · exact absurd hleft ho
    · simp only [adjIn_cons, List.head?_cons, List.head?_nil, reduceCtorEq, and_false,
        not_adjIn_nil, or_self, or_false] at hab
      exact absurd hab.1 hoa
  · obtain ⟨R, hR, rfl⟩ := List.mem_map.mp hl
    obtain ⟨x, x', hx⟩ := h.inv.two hR
    refine absurd ?_ (hno R hR)
    rw [hx] at huv ⊢
    cases u with
    | nil =>
      cases huv
      rfl
    | cons z u =>
      have hlength := congrArg List.length huv
      simp at hlength
      omega

/-- **The recursion of `settle`**, with enough fuel. -/
theorem settles_settle (h : G.Pending) {fuel : ℕ} (hfuel : G.start.length ≤ fuel) :
    Settles G (G.settle fuel).1 (G.settle fuel).2 := by
  induction fuel generalizing G with
  | zero =>
    refine .short ?_
    rw [lastPair, List.eq_nil_of_length_eq_zero (Nat.le_zero.mp hfuel)]
    rfl
  | succ fuel ih =>
    rw [settle]
    split
    · rename_i b a left hrev
      have hS : G.start = left.reverse ++ [a, b] := by
        rw [← List.reverse_reverse G.start, hrev]
        simp
      split
      · rename_i hI
        exact .record hS hI
      · rename_i o hI
        split
        · rename_i ho
          exact .overlap hS hI ho
        · rename_i ho
          split
          · rename_i R hfind
            have hR := List.mem_of_find?_eq_some hfind
            have hhead : R.body.head? = some o := by
              simpa using List.find?_some hfind
            refine .reuse hS hI hR hhead (ih (h.reuse hS hI hR hhead) ?_)
            rw [hS] at hfuel
            simp [Grammar.substitute] at hfuel ⊢
            omega
          · rename_i hfind
            have hno : ∀ R ∈ G.rules, R.body.head? ≠ some o := by
              simpa using hfind
            obtain ⟨pre, o', mid, hstart⟩ := h.place hS hI ho hno
            have hnodup := h.inv.start_nodup
            have hpre : o ∉ pre.reverse := by
              rw [hstart] at hnodup
              exact fun hmem => (List.nodup_append.mp hnodup).2.2 o hmem o (by simp) rfl
            have hlocate : locate o [] G.start = some (pre, o', mid ++ [a, b]) := by
              rw [hstart, locate_append hpre]
              simp
            rw [hlocate]
            simp only [List.dropLast_append_cons, List.dropLast_cons_cons, List.dropLast_singleton,
              List.append_nil]
            exact .fresh hstart hI
    · rename_i hrev
      refine .short ?_
      rw [lastPair]
      rcases hl : G.start.reverse with - | ⟨b, - | ⟨a, left⟩⟩
      · rfl
      · rfl
      · exact absurd hl (hrev b a left)

/-! ## Steps and runs -/

theorem init_settled : init.Settled where
  two hR := by cases hR
  nodup := List.nodup_nil
  tag_lt hx := by cases hx
  rule_lt hR := by cases hR
  rule_nodup := List.nodup_nil
  order hR := by cases hR
  closed hx := by cases hx
  used_gt := Nat.lt_succ_self 1
  indexed :=
    { sound := fun hT => by cases hT
      cover := fun hxy => absurd (adjacent_mem hxy).1 (by simp [bodies, rings, init])
      late := fun hT => by cases hT }

/-- **A step**: a character is appended, and the last pair is settled. -/
theorem settles_step (h : G.Settled) (c : UInt8) :
    Settles (G.append c) (G.step c).1 (G.step c).2 :=
  settles_settle (h.append c) le_rfl

theorem step_settled (h : G.Settled) (c : UInt8) : (G.step c).2.Settled :=
  (settles_step h c).settled (h.append c)

theorem build_concat (source : List UInt8) (c : UInt8) :
    build (source ++ [c]) = ((build source).1 ++ ((build source).2.step c).1,
      ((build source).2.step c).2) := by
  rw [build, List.foldl_append]
  rfl

/-- **The invariant holds of the grammar of every text.** -/
theorem build_settled (source : List UInt8) : (build source).2.Settled := by
  induction source using List.reverseRecOn with
  | nil => exact init_settled
  | append_singleton source c ih =>
    rw [build_concat]
    exact step_settled ih c

/-! ## The text of a grammar -/

/-- The text of a key, from the texts of the rules. -/
def textOf (val : ℕ → List UInt8) : Key → List UInt8
  | .term c => [c]
  | .rule r => val r

/-- The text of a sequence of symbols. -/
def text (val : ℕ → List UInt8) (l : List Sym) : List UInt8 := l.flatMap fun x => textOf val x.key

/-- **The grammar stands for `source`**, with the texts of the rules. -/
structure Reads (G : Grammar) (val : ℕ → List UInt8) (source : List UInt8) : Prop where
  rule : ∀ {R}, R ∈ G.rules → text val R.body = val R.rule
  start : text val G.start = source

theorem textOf_rule (val : ℕ → List UInt8) (r : ℕ) : textOf val (.rule r) = val r := rfl

theorem text_nil (val : ℕ → List UInt8) : text val [] = [] := rfl

theorem text_append (val : ℕ → List UInt8) (l r : List Sym) :
    text val (l ++ r) = text val l ++ text val r := List.flatMap_append

theorem text_cons (val : ℕ → List UInt8) (x : Sym) (l : List Sym) :
    text val (x :: l) = textOf val x.key ++ text val l := List.flatMap_cons

/-- The text of a rule to come does not matter. -/
theorem Inv.textOf_update {exempt : Sym → Prop} (h : G.Inv exempt) (val : ℕ → List UInt8)
    (t : List UInt8) {x : Sym} (hx : x ∈ G.bodies.flatten) :
    textOf (Function.update val G.used t) x.key = textOf val x.key := by
  have hne := h.key_ne hx
  cases hk : x.key with
  | term c => rfl
  | rule r =>
    rw [hk] at hne
    exact Function.update_of_ne (fun hr => hne (by rw [hr])) _ _

theorem Inv.text_update {exempt : Sym → Prop} (h : G.Inv exempt) (val : ℕ → List UInt8)
    (t : List UInt8) {l : List Sym} (hl : ∀ x ∈ l, x ∈ G.bodies.flatten) :
    text (Function.update val G.used t) l = text val l :=
  List.flatMap_congr fun x hx => h.textOf_update val t (hl x hx)

theorem Reads.append {val : ℕ → List UInt8} {source : List UInt8} (h : G.Reads val source)
    (c : UInt8) : (G.append c).Reads val (source ++ [c]) := by
  refine ⟨h.rule, ?_⟩
  rw [Grammar.append, text_append, h.start]
  rfl

/-- The rule for a pair stands for what the pair stands for. -/
theorem Reads.fresh {val : ℕ → List UInt8} {source : List UInt8} (h : G.Reads val source)
    (hp : G.Pending) {pre mid : List Sym} {o o' a b : Sym}
    (hS : G.start = pre.reverse ++ o :: o' :: (mid ++ [a, b]))
    (hI : G.index (a.key, b.key) = some o) :
    ∃ val', (G.fresh pre o o' mid a b).Reads val' source := by
  have hkey := hp.inv.indexed.key_eq (hp.inv.cut hS 0).pair hp.inv.linear hI
  rw [Prod.mk.injEq] at hkey
  have hpart := fun {x} => hp.inv.textOf_update val (textOf val a.key ++ textOf val b.key) (x := x)
  have hwhole := fun {l} => hp.inv.text_update val (textOf val a.key ++ textOf val b.key) (l := l)
  refine ⟨Function.update val G.used (textOf val a.key ++ textOf val b.key), ⟨fun {R} hR => ?_, ?_⟩⟩
  · rw [rules_fresh, List.mem_append, List.mem_singleton] at hR
    rcases hR with hR | rfl
    · rw [hwhole fun x hx => mem_flatten_of_mem_body hR hx, h.rule hR,
        Function.update_of_ne (hp.inv.rule_lt hR).2.ne]
    · rw [text_cons, text_cons, text_nil, List.append_nil, Function.update_self]
      rw [hpart (x := a) (fresh_mem hS (by tauto)), hpart (x := b) (fresh_mem hS (by tauto))]
  · rw [start_fresh, ← h.start, hS]
    simp only [text_append, text_cons, textOf_rule, Function.update_self, ← hkey.1, ← hkey.2]
    rw [hwhole fun x hx => fresh_mem hS (by simp at hx; tauto),
      hwhole fun x hx => fresh_mem hS (by tauto)]
    simp [text_nil]

/-- **Settling the last pair does not change the text.** -/
theorem Settles.reads (hs : Settles G Gs G') (hp : G.Pending) {val : ℕ → List UInt8}
    {source : List UInt8} (h : G.Reads val source) : ∃ val', G'.Reads val' source := by
  induction hs with
  | short hshort => exact ⟨val, h⟩
  | record hS hI => exact ⟨val, h.rule, h.start⟩
  | overlap hS hI ho => exact ⟨val, h⟩
  | reuse hS hI hR ho hnext ih =>
    obtain ⟨o', hbody, hka, hkb⟩ := hp.body_eq hI hR ho
    refine ih (hp.reuse hS hI hR ho) ⟨h.rule, ?_⟩
    rw [← h.start, hS, substitute, text_append, text_append, text_cons, text_cons, text_cons,
      textOf_rule, ← h.rule hR, hbody, text_cons, text_cons, hka, hkb, text_nil, List.append_nil,
      List.append_nil]
  | fresh hS hI => exact h.fresh hp hS hI

/-- **The grammar of a text stands for it.** -/
theorem reads_build (source : List UInt8) : ∃ val, (build source).2.Reads val source := by
  induction source using List.reverseRecOn with
  | nil => exact ⟨fun _ => [], ⟨fun hR => (List.not_mem_nil hR).elim, rfl⟩⟩
  | append_singleton source c ih =>
    obtain ⟨val, h⟩ := ih
    rw [build_concat]
    have hsettled := build_settled source
    exact (settles_step hsettled c).reads (hsettled.append c) (h.append c)

end Grammar
