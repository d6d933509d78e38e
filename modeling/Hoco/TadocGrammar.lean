import Hoco.GrammarRun

/-!
# The grammar that `tadoc_compress` builds

What the memory of `tadoc.c` says at a given time is put in terms of the memory
alone: the body of a rule is what one meets on the way from its guard to its guard
(`Body`), and the text of a rule is what its body becomes when every rule in it is
replaced by its own body, and so on (`Text`). `DigramsUnique` and `RuleUtility`
are the two properties that Sequitur is to maintain.

After every character the text of the start rule is what has been read, and no
pair of keys occurs at two places that do not overlap. That rules are used twice is
another matter: the number of references counts the guard too, and the test for a
rule that has one reference left never succeeds. So `RuleUtility` holds after every
character if and only if there is no match that leaves a rule with one use, and it
is lost at the first one.
-/

namespace GrammarHeap

open Triple PairIndex LinkedRing

/-! ## Reading the memory -/

/-- What a symbol stands for: the character, or the address of the rule. -/
def Symbol.reads (s : Symbol) : Grammar.Key :=
  if nonTerminal s then .rule s.key else .term (UInt8.ofNat s.value)

/-- What stands from a symbol on, up to the guard `g`. -/
inductive Walk (st : Store) (g : ℕ) : ℕ → List Grammar.Key → Prop
  | guard : Walk st g g []
  | symbol {a : ℕ} {s : Symbol} {keys : List Grammar.Key} (hs : st.symbols a = some s)
      (hne : a ≠ g) (hnext : Walk st g s.n keys) : Walk st g a (s.reads :: keys)

/-- **The body of a rule.** -/
def Body (st : Store) (r : ℕ) (keys : List Grammar.Key) : Prop :=
  ∃ R f, st.rules r = some R ∧ st.symbols R.guard = some f ∧ Walk st R.guard f.n keys

/-- **The text of a sequence**: every rule is replaced by its body. -/
inductive Spells (st : Store) : List Grammar.Key → List UInt8 → Prop
  | nil : Spells st [] []
  | term {c : UInt8} {keys : List Grammar.Key} {text : List UInt8} (hrest : Spells st keys text) :
      Spells st (.term c :: keys) (c :: text)
  | rule {r : ℕ} {body keys : List Grammar.Key} {inner text : List UInt8} (hr : Body st r body)
      (hbody : Spells st body inner) (hrest : Spells st keys text) :
      Spells st (.rule r :: keys) (inner ++ text)

/-- The text of a rule. -/
def Text (st : Store) (r : ℕ) (text : List UInt8) : Prop :=
  ∃ keys, Body st r keys ∧ Spells st keys text

/-- **No pair of adjacent keys occurs at two places that do not overlap.** -/
def DigramsUnique (st : Store) : Prop :=
  ∀ {a b : ℕ} {s t s' t' : Symbol}, st.symbols a = some s → st.symbols s.n = some t →
    ¬ st.IsGuard a → ¬ st.IsGuard s.n → st.symbols b = some s' → st.symbols s'.n = some t' →
    ¬ st.IsGuard b → ¬ st.IsGuard s'.n → s.key = s'.key → t.key = t'.key →
    a = b ∨ b = s.n ∨ a = s'.n

/-- **Every rule but the start rule is referred to by two symbols** that are no
guards. -/
def RuleUtility (st : Store) (S : ℕ) : Prop :=
  ∀ {r : ℕ} {X : Rule}, st.rules r = some X → r ≠ S → ∃ a b s t, a ≠ b
    ∧ st.symbols a = some s ∧ ¬ st.IsGuard a ∧ s.key = r
    ∧ st.symbols b = some t ∧ ¬ st.IsGuard b ∧ t.key = r

variable {cfg : Config} {st : Store} {G : Grammar}

theorem Walk.unique {g a : ℕ} {keys keys' : List Grammar.Key} (h : Walk st g a keys)
    (h' : Walk st g a keys') : keys = keys' := by
  induction h generalizing keys' with
  | guard =>
    cases h' with
    | guard => rfl
    | symbol hs hne hnext => exact absurd rfl hne
  | symbol hs hne hnext ih =>
    cases h' with
    | guard => exact absurd rfl hne
    | symbol hs' hne' hnext' =>
      rw [hs, Option.some.injEq] at hs'
      subst hs'
      rw [ih hnext']

theorem Body.unique {r : ℕ} {keys keys' : List Grammar.Key} (h : Body st r keys)
    (h' : Body st r keys') : keys = keys' := by
  obtain ⟨R, f, hR, hf, hwalk⟩ := h
  obtain ⟨R', f', hR', hf', hwalk'⟩ := h'
  rw [hR, Option.some.injEq] at hR'
  subst hR'
  rw [hf, Option.some.injEq] at hf'
  subst hf'
  exact hwalk.unique hwalk'

theorem Spells.unique {keys : List Grammar.Key} {text text' : List UInt8}
    (h : Spells st keys text) (h' : Spells st keys text') : text = text' := by
  induction h generalizing text' with
  | nil =>
    cases h'
    rfl
  | term hrest ih =>
    cases h' with
    | term hrest' => rw [ih hrest']
  | rule hr hbody hrest ihbody ihrest =>
    cases h' with
    | rule hr' hbody' hrest' =>
      obtain rfl := hr.unique hr'
      rw [ihbody hbody', ihrest hrest']

/-- A rule has no more than one text. -/
theorem Text.unique {r : ℕ} {text text' : List UInt8} (h : Text st r text)
    (h' : Text st r text') : text = text' := by
  obtain ⟨keys, hbody, hspells⟩ := h
  obtain ⟨keys', hbody', hspells'⟩ := h'
  obtain rfl := hbody.unique hbody'
  exact hspells.unique hspells'

/-! ## The memory of a grammar -/

/-- A key of the grammar, as it is read off the memory. -/
def Config.named (cfg : Config) : Grammar.Key → Grammar.Key
  | .term c => .term c
  | .rule r => .rule (cfg.address r)

theorem Config.ofNat_code_term (cfg : Config) (c : UInt8) :
    UInt8.ofNat (cfg.code (.term c) / 2) = c := by
  have hc := c.toNat_lt
  rw [code_term_eq]
  refine UInt8.toNat_inj.mp ?_
  rw [UInt8.toNat_ofNat']
  split_ifs <;> omega

/-- A value is taken twice on a list if and only if it is at two places. -/
theorem two_le_count_map_iff {α β : Type} [DecidableEq β] {l : List α} (hl : l.Nodup) {f : α → β}
    {b : β} : 2 ≤ (l.map f).count b ↔ ∃ x ∈ l, ∃ y ∈ l, x ≠ y ∧ f x = b ∧ f y = b := by
  constructor
  · intro h
    rw [← List.replicate_sublist_iff] at h
    obtain ⟨l', hsub, hl'⟩ := List.sublist_map_iff.mp h
    obtain ⟨x, y, rfl⟩ := List.length_eq_two.mp (by simpa using (congrArg List.length hl').symm)
    simp only [List.map_cons, List.map_nil, List.replicate, List.cons.injEq] at hl'
    refine ⟨x, hsub.subset (by simp), y, hsub.subset (by simp), ?_, hl'.1.symm, hl'.2.1.symm⟩
    simpa using hl.sublist hsub
  · rintro ⟨x, hx, y, hy, hxy, rfl, hb⟩
    have hsub : [x, y].Subperm l := List.subperm_of_subset (by simpa using hxy) (by simp [hx, hy])
    have hcount := hsub.countP_le fun z => f z == f x
    rw [List.count, List.countP_map]
    simpa [hb, Function.comp_def] using hcount

/-- The text of a sequence, from the texts of its rules. -/
theorem spells {val : ℕ → List UInt8} {l : List Grammar.Sym}
    (hl : ∀ x ∈ l, ∀ r, x.key = .rule r → Text st (cfg.address r) (val r)) :
    Spells st (l.map fun x => cfg.named x.key) (Grammar.text val l) := by
  induction l with
  | nil => exact .nil
  | cons x l ih =>
    have hrest := ih fun y hy => hl y (List.mem_cons_of_mem _ hy)
    rw [List.map_cons, Grammar.text_cons]
    cases hk : x.key with
    | term c => exact .term hrest
    | rule r =>
      obtain ⟨body, hbody, hinner⟩ := hl x List.mem_cons_self r hk
      exact .rule hbody hinner hrest

namespace Models

variable (h : Models cfg st G)

include h

/-- What is read off a symbol. -/
theorem reads_eq {x : Grammar.Sym} {n p : ℕ} (hx : x ∈ Placed G.rings)
    (hs : st.symbols (cfg.address x.tag) = some ⟨n, p, cfg.code x.key, cfg.code x.key / 2⟩) :
    Symbol.reads ⟨n, p, cfg.code x.key, cfg.code x.key / 2⟩ = cfg.named x.key := by
  unfold Symbol.reads
  cases hk : x.key with
  | term c =>
    rw [hk] at hs
    rw [if_neg (h.not_nonTerminal hs rfl), Config.named, cfg.ofNat_code_term]
  | rule r =>
    obtain ⟨R, hR, rfl⟩ := h.closed hx r hk
    rw [if_pos (h.nonTerminal_of_mem hR rfl), Config.named, Config.code]

/-- The rest of a body. -/
theorem walk {R : Grammar.Ring} (hR : R ∈ G.rings) (right : List Grammar.Sym)
    {left : List Grammar.Sym} (hbody : R.body = left.reverse ++ right) :
    Walk st (cfg.address R.guard)
      (behind (cfg.address R.guard) (right.map fun x => cfg.address x.tag))
      (right.map fun x => cfg.named x.key) := by
  induction right generalizing left with
  | nil => exact .guard
  | cons x right ih =>
    have hx : x ∈ Placed G.rings := placed_iff.mpr ⟨R, hR, by simp [hbody]⟩
    have hs := h.symbol_eq hR hbody
    have hbody' : R.body = (x :: left).reverse ++ right := by simp [hbody]
    show Walk st _ (cfg.address x.tag) (cfg.named x.key :: _)
    rw [← h.reads_eq hx hs]
    refine .symbol hs (fun heq => ?_) (ih hbody')
    exact h.not_isGuard hx (heq ▸ h.isGuard hR)

/-- **The body of a rule is that of the grammar.** -/
theorem body {R : Grammar.Ring} (hR : R ∈ G.rings) :
    Body st (cfg.address R.rule) (R.body.map fun x => cfg.named x.key) := by
  refine ⟨_, _, h.rule_eq hR, h.guard_eq hR, ?_⟩
  have hbody : R.body = ([] : List Grammar.Sym).reverse ++ R.body := rfl
  exact h.walk hR R.body hbody

/-- The texts of the rules, by induction on their numbers: a rule refers to earlier
ones. -/
theorem text_rule {exempt : Grammar.Sym → Prop} (hG : G.Inv exempt) {val : ℕ → List UInt8}
    {source : List UInt8} (hval : G.Reads val source) (n : ℕ) {R : Grammar.Ring}
    (hR : R ∈ G.rules) (hn : R.rule = n) : Text st (cfg.address n) (val n) := by
  induction n using Nat.strong_induction_on generalizing R with
  | _ n ih =>
    subst hn
    rw [← hval.rule hR]
    refine ⟨_, h.body (List.mem_cons_of_mem _ hR), spells fun x hx r hk => ?_⟩
    obtain ⟨R', hR', hr⟩ := hG.closed (Grammar.mem_flatten_of_mem_body hR hx) hk
    exact ih r (hG.order hR hx hk) hR' hr

/-- **The text of the start rule is the text that the grammar reads.** -/
theorem text {exempt : Grammar.Sym → Prop} (hG : G.Inv exempt) {val : ℕ → List UInt8}
    {source : List UInt8} (hval : G.Reads val source) : Text st (cfg.address 0) source := by
  rw [← hval.start]
  refine ⟨_, h.body start_mem, spells fun x hx r hk => ?_⟩
  obtain ⟨R, hR, hr⟩ := hG.closed (Grammar.mem_flatten_of_mem_start hx) hk
  exact h.text_rule hG hval r hR hr

/-- A symbol in memory that is no guard is one of the grammar. -/
theorem exists_sym {a : ℕ} {s : Symbol} (hs : st.symbols a = some s) (hg : ¬ st.IsGuard a) :
    ∃ R ∈ G.rings, ∃ (left : List Grammar.Sym) (x : _) (right : _),
      R.body = left.reverse ++ x :: right ∧ a = cfg.address x.tag ∧ s.key = cfg.code x.key
      ∧ s.n = behind (cfg.address R.guard) (right.map fun x => cfg.address x.tag) := by
  obtain ⟨c, hc, rfl⟩ := h.layout.cell_only hs
  obtain ⟨row, hrow, hc⟩ := List.mem_flatMap.mp hc
  obtain ⟨R, hR, rfl⟩ := List.mem_map.mp hrow
  rcases List.mem_cons.mp hc with rfl | hc
  · exact absurd (h.isGuard hR) hg
  · obtain ⟨x, hx, rfl⟩ := List.mem_map.mp hc
    obtain ⟨u, v, hbody⟩ := List.append_of_mem hx
    have hbody' : R.body = u.reverse.reverse ++ x :: v := by rw [List.reverse_reverse, hbody]
    have hs' := h.symbol_eq hR hbody'
    change st.symbols (cfg.address x.tag) = some s at hs
    rw [hs, Option.some.injEq] at hs'
    subst hs'
    exact ⟨R, hR, _, x, v, hbody', rfl, rfl, rfl⟩

/-- Neighbours in memory that are no guards are neighbours in the grammar. -/
theorem exists_pair {a : ℕ} {s t : Symbol} (hs : st.symbols a = some s)
    (ht : st.symbols s.n = some t) (hg : ¬ st.IsGuard a) (hg' : ¬ st.IsGuard s.n) :
    ∃ x y, Adjacent G.bodies x y ∧ x ∈ Placed G.rings ∧ y ∈ Placed G.rings
      ∧ a = cfg.address x.tag ∧ s.n = cfg.address y.tag
      ∧ s.key = cfg.code x.key ∧ t.key = cfg.code y.key := by
  obtain ⟨R, hR, left, x, right, hbody, ha, hk, hn⟩ := h.exists_sym hs hg
  cases right with
  | nil =>
    rw [hn] at hg'
    exact absurd (h.isGuard hR) hg'
  | cons y right =>
    have hbody' : R.body = (x :: left).reverse ++ y :: right := by simp [hbody]
    have hadj : AdjIn R.body x y := ⟨_, _, hbody⟩
    have hn' : s.n = cfg.address y.tag := hn
    have ht' := h.symbol_eq hR hbody'
    rw [hn', ht', Option.some.injEq] at ht
    subst ht
    exact ⟨x, y, ⟨R.body, List.mem_map_of_mem hR, hadj⟩, placed_iff.mpr ⟨R, hR, hadj.mem.1⟩,
      placed_iff.mpr ⟨R, hR, hadj.mem.2⟩, ha, hn', hk, rfl⟩

/-- **A settled grammar has every pair once.** -/
theorem digramsUnique (hG : G.Settled) : DigramsUnique st := by
  intro a b s t s' t' hs ht hg hgn hs' ht' hg' hgn' hk hk'
  obtain ⟨x, y, hxy, hx, hy, ha, hn, hsk, htk⟩ := h.exists_pair hs ht hg hgn
  obtain ⟨x', y', hxy', hx', hy', hb, hn', hsk', htk'⟩ := h.exists_pair hs' ht' hg' hgn'
  have hinj := code_injOn h.layout
  have hkey : (x.key, y.key) = (x'.key, y'.key) := by
    rw [hinj (h.closed hx) (h.closed hx') (by rw [← hsk, ← hsk', hk]),
      hinj (h.closed hy) (h.closed hy') (by rw [← htk, ← htk', hk'])]
  rw [ha, hb, hn, hn']
  rcases hG.indexed.unique hG.linear Grammar.not_above hxy hxy' id id hkey with rfl | rfl | rfl
  · exact Or.inl rfl
  · exact Or.inr (Or.inl rfl)
  · exact Or.inr (Or.inr rfl)

/-- **Every rule has two references in memory if and only if it has two in the
grammar.** -/
theorem ruleUtility_iff {exempt : Grammar.Sym → Prop} (hG : G.Inv exempt) :
    RuleUtility st (cfg.address 0) ↔ G.Useful := by
  have hnodup : (G.rings.flatMap Grammar.Ring.body).Nodup := by
    rw [List.flatMap_def]
    exact hG.flatten_nodup
  constructor
  · intro huse R hR
    have hmem : R ∈ G.rings := List.mem_cons_of_mem _ hR
    have hne : cfg.address R.rule ≠ cfg.address 0 := fun haddr => by
      have hlt := (hG.rule_lt hR).1
      rw [rule_address_inj h.layout hmem start_mem haddr] at hlt
      exact absurd hlt (Nat.not_lt_zero 1)
    have hkey : ∀ {a s}, st.symbols a = some s → ¬ st.IsGuard a → s.key = cfg.address R.rule →
        ∃ x ∈ G.rings.flatMap Grammar.Ring.body, a = cfg.address x.tag ∧ x.key = .rule R.rule := by
      intro a s hs hg hk
      obtain ⟨R', hR', left, x, right, hbody, ha, hsk, -⟩ := h.exists_sym hs hg
      have hx : x ∈ Placed G.rings := placed_iff.mpr ⟨R', hR', by simp [hbody]⟩
      have hrule : .rule R.rule ∈ Known G.rings := fun r hr => ⟨R, hmem, by injection hr⟩
      exact ⟨x, hx, ha, code_injOn h.layout (h.closed hx) hrule (hsk.symm.trans hk)⟩
    obtain ⟨a, b, s, t, hab, hs, hg, hk, ht, hg', hk'⟩ := huse (h.rule_eq hmem) hne
    obtain ⟨x, hx, ha, hxk⟩ := hkey hs hg hk
    obtain ⟨y, hy, hb, hyk⟩ := hkey ht hg' hk'
    rw [refs_eq]
    refine (two_le_count_map_iff hnodup).mpr ⟨x, hx, y, hy, fun heq => hab ?_, hxk, hyk⟩
    rw [ha, hb, heq]
  · intro huse r X hX hne
    obtain ⟨row, hrow, rfl⟩ := h.layout.rule_only hX
    obtain ⟨R, hR, rfl⟩ := List.mem_map.mp hrow
    have hR' : R ∈ G.rules := by
      rcases List.mem_cons.mp hR with rfl | hR
      · exact absurd rfl hne
      · exact hR
    have htwo := huse R hR'
    rw [refs_eq] at htwo
    obtain ⟨x, hx, y, hy, hxy, hxk, hyk⟩ := (two_le_count_map_iff hnodup).mp htwo
    obtain ⟨n, p, hs⟩ := (h.layout.cell (cell_mem_cells hx)).2
    obtain ⟨n', p', ht⟩ := (h.layout.cell (cell_mem_cells hy)).2
    refine ⟨_, _, _, _, fun haddr => hxy (h.address_injOn hx hy haddr), hs, h.not_isGuard hx, ?_,
      ht, h.not_isGuard hy, ?_⟩
    · show cfg.code x.key = _
      rw [hxk]
      rfl
    · show cfg.code y.key = _
      rw [hyk]
      rfl

end Models

/-! ## Runs -/

/-- The loop over two pieces of the text. -/
theorem tadocLoop_append (S : ℕ) (u v : List UInt8) :
    tadocLoop cfg S (u ++ v) = (do
      tadocLoop cfg S u
      tadocLoop cfg S v) := by
  induction u with
  | nil => rfl
  | cons c u ih => simp only [List.cons_append, tadocLoop, ih, bind_assoc]

/-- **What `tadoc_compress` has built after a part of the text is what it builds on
that part**; the loop goes on from there. -/
theorem tadocBuild_append {u : List UInt8} (hu : u ≠ []) (v : List UInt8) :
    tadocBuild cfg (u ++ v) = (do
      let S ← tadocBuild cfg u
      tadocLoop cfg S v
      return S) := by
  obtain ⟨c, u, rfl⟩ := List.exists_cons_of_ne_nil hu
  simp only [List.cons_append, tadocBuild, tadocLoop_append, bind_assoc, pure_bind]

/-- A run that returns has passed every part of the text. -/
theorem tadocBuild_of_prefix {u source : List UInt8} {S : ℕ}
    (hrun : tadocBuild cfg source (Store.init fun _ => 0) = .ok (S, st)) (hu : u <+: source)
    (hne : u ≠ []) : ∃ S' st', tadocBuild cfg u (Store.init fun _ => 0) = .ok (S', st') := by
  obtain ⟨v, rfl⟩ := hu
  rw [tadocBuild_append hne] at hrun
  obtain ⟨S', st', h, -⟩ := exists_of_bind_eq_ok hrun
  exact ⟨S', st', h⟩

/-- A machine that gives every block a page of its own. -/
def Config.plain (program : Program) : Config := ⟨program, fun n => 4096 * (n + 1), true⟩

theorem take_ne_nil {source : List UInt8} {i : ℕ} (hi : 1 ≤ i) (hle : i ≤ source.length) :
    source.take i ≠ [] := fun hnil => by
  have := congrArg List.length hnil
  rw [List.length_take, List.length_nil] at this
  omega

variable (address : ℕ → ℕ) (charSigned : Bool)

/-- **After every character the text of the start rule is what has been read**, and
nothing else is. -/
theorem ensures_text_tadocBuild (source : List UInt8) {i : ℕ} (hi : 1 ≤ i)
    (hle : i ≤ source.length) :
    Ensures outside (tadocBuild ⟨.tadoc, address, charSigned⟩ (source.take i))
      (Store.init fun _ => 0) fun S st => ∀ text, Text st S text ↔ text = source.take i := by
  refine (ensures_tadocBuild rfl (take_ne_nil hi hle)).mono ?_
  rintro _ st ⟨rfl, h⟩ text
  obtain ⟨val, hval⟩ := Grammar.reads_build (source.take i)
  have htext := h.text (Grammar.build_settled _) hval
  refine ⟨fun htext' => htext'.unique htext, ?_⟩
  rintro rfl
  exact htext

/-- The text "abcabc": a rule for "ab", one for "abc". -/
def abcabc : List UInt8 := [97, 98, 99, 97, 98, 99]

theorem exists_tadocBuild_abcabc :
    ∃ S st, tadocBuild (.plain .tadoc) abcabc (Store.init fun _ => 0) = .ok (S, st) :=
  exists_of_isOk (by decide +kernel)

theorem text_tadocBuild_abcabc :
    ∃ S st, tadocBuild (.plain .tadoc) abcabc (Store.init fun _ => 0) = .ok (S, st)
      ∧ Text st S abcabc := by
  obtain ⟨S, st, hrun⟩ := exists_tadocBuild_abcabc
  exact ⟨S, st, hrun, ((ensures_text_tadocBuild _ _ abcabc (i := 6) (by decide)
    (by decide)).of_ok hrun abcabc).mpr rfl⟩

/-- **After every character no pair of keys occurs at two places that do not
overlap.** -/
theorem ensures_digramsUnique_tadocBuild (source : List UInt8) {i : ℕ} (hi : 1 ≤ i)
    (hle : i ≤ source.length) :
    Ensures outside (tadocBuild ⟨.tadoc, address, charSigned⟩ (source.take i))
      (Store.init fun _ => 0) fun _ st => DigramsUnique st := by
  refine (ensures_tadocBuild rfl (take_ne_nil hi hle)).mono ?_
  rintro _ st ⟨-, h⟩
  exact h.digramsUnique (Grammar.build_settled _)

theorem digramsUnique_tadocBuild_abcabc :
    ∃ S st, tadocBuild (.plain .tadoc) abcabc (Store.init fun _ => 0) = .ok (S, st)
      ∧ DigramsUnique st := by
  obtain ⟨S, st, hrun⟩ := exists_tadocBuild_abcabc
  exact ⟨S, st, hrun, (ensures_digramsUnique_tadocBuild _ _ abcabc (i := 6) (by decide)
    (by decide)).of_ok hrun⟩

/-- After a run every rule has two references if and only if it has two in the
grammar of the text. -/
theorem ruleUtility_of_run {source : List UInt8} {S : ℕ} (hprog : cfg.program = .tadoc)
    (hne : source ≠ []) (hrun : tadocBuild cfg source (Store.init fun _ => 0) = .ok (S, st)) :
    RuleUtility st S ↔ (Grammar.build source).2.Useful := by
  obtain ⟨rfl, h⟩ := (ensures_tadocBuild hprog hne).of_ok hrun
  exact h.ruleUtility_iff (Grammar.build_settled source)

/-- **After every character all rules have two references if and only if no match
on the way is with a rule, in the first place, that has two**: such a rule has one
reference left, and it stays. -/
theorem ruleUtility_tadocBuild_iff {source : List UInt8} {S : ℕ}
    (hrun : tadocBuild ⟨.tadoc, address, charSigned⟩ source (Store.init fun _ => 0) = .ok (S, st)) :
    (∀ u, u <+: source → u ≠ [] → ∃ S st,
      tadocBuild ⟨.tadoc, address, charSigned⟩ u (Store.init fun _ => 0) = .ok (S, st)
        ∧ RuleUtility st S) ↔ Thrifty source := by
  rw [Thrifty, ← Grammar.useful_iff_not_spends]
  constructor
  · intro huse u hu
    by_cases hne : u = []
    · subst hne
      exact fun R hR => absurd hR List.not_mem_nil
    · obtain ⟨S, st, hrun', hutil⟩ := huse u hu hne
      exact (ruleUtility_of_run rfl hne hrun').mp hutil
  · intro huse u hu hne
    obtain ⟨S, st, hrun'⟩ := tadocBuild_of_prefix hrun hu hne
    exact ⟨S, st, hrun', (ruleUtility_of_run rfl hne hrun').mpr (huse u hu)⟩

theorem ruleUtility_tadocBuild_abab :
    ∃ S st, tadocBuild (.plain .tadoc) [97, 98, 97, 98] (Store.init fun _ => 0) = .ok (S, st)
      ∧ RuleUtility st S := by
  obtain ⟨S, st, hrun⟩ : ∃ S st,
      tadocBuild (.plain .tadoc) [97, 98, 97, 98] (Store.init fun _ => 0) = .ok (S, st) :=
    exists_of_isOk (by decide +kernel)
  exact (ruleUtility_tadocBuild_iff _ _ hrun).mpr (by decide) _ List.prefix_rfl (by decide)

/-- On "abcabc" the rule for "ab" has one reference, from the rule for "abc". -/
theorem not_ruleUtility_abcabc :
    ∃ S st, tadocBuild (.plain .tadoc) abcabc (Store.init fun _ => 0) = .ok (S, st)
      ∧ ¬ RuleUtility st S := by
  obtain ⟨S, st, hrun⟩ := exists_tadocBuild_abcabc
  refine ⟨S, st, hrun, ?_⟩
  rw [ruleUtility_of_run rfl (by decide) hrun]
  decide

end GrammarHeap
