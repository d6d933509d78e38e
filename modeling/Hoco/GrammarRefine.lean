import Hoco.GrammarLayout
import Hoco.GrammarUtility

/-!
# The memory of a grammar

This is the link between `Hoco.Grammar` and the programs. `Represents` says that
the memory of a program is that of a grammar: a symbol is in the block whose
number is its tag, and its key in memory is the code of its key, that is, the code
of a character or the address of a rule. The digram table is the index under these
names.

For each operation on the memory there is a result that says which change of the
grammar it makes: `ensures_destroy`, `ensures_insert`, `ensures_newRule`,
`ensures_note`. They are stated for the first of the rings, which can be any of
them (`Represents.perm`).
-/

namespace GrammarHeap

open Triple PairIndex LinkedRing OpenAddressing

/-- The key that a symbol has in memory. -/
def Config.code (cfg : Config) : Grammar.Key → ℕ
  | .term c => (cfg.charCode c * 2 + 1) % 2 ^ 64
  | .rule r => cfg.address r

def Config.cell (cfg : Config) (x : Grammar.Sym) : Cell := ⟨cfg.address x.tag, cfg.code x.key⟩

def Config.row (cfg : Config) (R : Grammar.Ring) : Row :=
  ⟨cfg.address R.rule, cfg.address R.guard, R.body.map cfg.cell⟩

/-- The keys that a symbol may have: characters, and rules that exist. -/
def Known (rings : List Grammar.Ring) : Set Grammar.Key :=
  {k | ∀ r, k = .rule r → ∃ R ∈ rings, R.rule = r}

/-- The symbols of all rings. -/
def Placed (rings : List Grammar.Ring) : Set Grammar.Sym := {x | x ∈ rings.flatMap Grammar.Ring.body}

/-- **The memory is that of the rings**, and the digram table is their index. -/
structure Represents (cfg : Config) (st : Store) (used : ℕ) (rings : List Grammar.Ring)
    (index : Index Grammar.Key Grammar.Sym) : Prop where
  layout : st.Layout cfg.bias (rings.map cfg.row)
  used_eq : st.used = used
  numRules_eq : st.numRules = rings.length
  closed : ∀ {x}, x ∈ Placed rings → x.key ∈ Known rings
  table : ∃ T, st.Table T
    ∧ Renames cfg.code (fun x => cfg.address x.tag) (Known rings) (Placed rings) index T

variable {cfg : Config} {st : Store} {used : ℕ} {rings : List Grammar.Ring}
  {index : Index Grammar.Key Grammar.Sym}

/-! ## Codes -/

theorem Config.code_term_eq (cfg : Config) (c : UInt8) :
    cfg.code (.term c) = if cfg.charSigned ∧ 128 ≤ c.toNat then 2 * c.toNat + 1 + (2 ^ 64 - 512)
      else 2 * c.toNat + 1 := by
  have hc := c.toNat_lt
  show (cfg.charCode c * 2 + 1) % 2 ^ 64 = _
  unfold Config.charCode
  split_ifs <;> omega

theorem Config.code_term (cfg : Config) (c : UInt8) : cfg.code (.term c) % 2 = 1
    ∧ (cfg.code (.term c) < 512 ∨ 2 ^ 64 - 256 ≤ cfg.code (.term c)) := by
  have hc := c.toNat_lt
  rw [code_term_eq]
  split_ifs <;> omega

theorem Config.code_term_injective (cfg : Config) {c c' : UInt8}
    (h : cfg.code (.term c) = cfg.code (.term c')) : c = c' := by
  have hc := c.toNat_lt
  have hc' := c'.toNat_lt
  rw [code_term_eq, code_term_eq] at h
  refine UInt8.toNat_inj.mp ?_
  split_ifs at h <;> omega

theorem placed_iff {x : Grammar.Sym} : x ∈ Placed rings ↔ ∃ R ∈ rings, x ∈ R.body :=
  List.mem_flatMap

theorem mem_rows {R : Grammar.Ring} (hR : R ∈ rings) : cfg.row R ∈ rings.map cfg.row :=
  List.mem_map_of_mem hR

theorem cell_mem_cells {x : Grammar.Sym} (hx : x ∈ Placed rings) :
    cfg.cell x ∈ cells (rings.map cfg.row) := by
  obtain ⟨R, hR, hx⟩ := placed_iff.mp hx
  exact mem_cells_of_body (mem_rows hR) (List.mem_map_of_mem hx)

/-- The addresses of the symbols are among those of the cells. -/
theorem addresses_sublist (cfg : Config) (rings : List Grammar.Ring) :
    ((rings.flatMap Grammar.Ring.body).map fun x => cfg.address x.tag).Sublist
      ((cells (rings.map cfg.row)).map Cell.addr) := by
  induction rings with
  | nil => exact List.Sublist.slnil
  | cons R rings ih =>
    rw [List.map_cons, cells, List.flatMap_cons, List.flatMap_cons, List.map_append,
      List.map_append]
    refine List.Sublist.append ?_ ih
    have hcells : ((cfg.row R).cells).map Cell.addr
        = cfg.address R.guard :: R.body.map fun x => cfg.address x.tag := by
      simp [Config.row, Row.cells, Config.cell]
    rw [hcells]
    exact List.sublist_cons_self _ _

section Layout

variable (h : st.Layout cfg.bias (rings.map cfg.row))

include h

/-- A rule that exists has an address that a block can have. -/
theorem userAddress_rule {R : Grammar.Ring} (hR : R ∈ rings) :
    userAddress (cfg.address R.rule) = true := (h.rule (mem_rows hR)).1

theorem rule_address_inj {R R' : Grammar.Ring} (hR : R ∈ rings) (hR' : R' ∈ rings)
    (haddr : cfg.address R.rule = cfg.address R'.rule) : R = R' := by
  have hnodup := h.rule_nodup
  rw [List.map_map] at hnodup
  exact List.inj_on_of_nodup_map hnodup hR hR' haddr

/-- Different keys have different codes. -/
theorem code_injOn : Set.InjOn cfg.code (Known rings) := by
  have hodd : ∀ {c r}, .rule r ∈ Known rings → cfg.code (.term c) ≠ cfg.code (.rule r) := by
    intro c r hr heq
    obtain ⟨R, hR, rfl⟩ := hr r rfl
    have huser := userAddress_iff.mp (userAddress_rule h hR)
    have hterm := cfg.code_term c
    rw [heq] at hterm
    change cfg.address R.rule % 2 = 1 ∧ _ at hterm
    omega
  rintro (c | r) hk (c' | r') hl heq
  · rw [cfg.code_term_injective heq]
  · exact absurd heq (hodd hl)
  · exact absurd heq.symm (hodd hk)
  · obtain ⟨R, hR, rfl⟩ := hk r rfl
    obtain ⟨R', hR', rfl⟩ := hl r' rfl
    rw [rule_address_inj h hR hR' heq]

end Layout

namespace Represents

variable (h : Represents cfg st used rings index)

include h

theorem address_injOn : Set.InjOn (fun x : Grammar.Sym => cfg.address x.tag) (Placed rings) :=
  fun _ hx _ hy haddr =>
    List.inj_on_of_nodup_map (h.layout.nodup.sublist (addresses_sublist cfg rings)) hx hy haddr

theorem goodKey {k : Grammar.Key} (hk : k ∈ Known rings) : st.GoodKey (cfg.code k) := by
  cases k with
  | term c => exact Or.inl (cfg.code_term c)
  | rule r =>
    obtain ⟨R, hR, rfl⟩ := hk r rfl
    exact Or.inr ⟨_, (h.layout.rule (mem_rows hR)).2⟩

theorem keyOf_eq {x : Grammar.Sym} (hx : x ∈ Placed rings) :
    st.keyOf (cfg.address x.tag) = cfg.code x.key := h.layout.keyOf_eq (cell_mem_cells hx)

/-- A key occurs in memory as often as in the rings. -/
theorem refsOf_rows {k : Grammar.Key} (hk : k ∈ Known rings) :
    refsOf (rings.map cfg.row) (cfg.code k)
      = ((rings.flatMap Grammar.Ring.body).map Grammar.Sym.key).count k := by
  have hbodies : (rings.map cfg.row).flatMap Row.body
      = (rings.flatMap Grammar.Ring.body).map cfg.cell := by
    rw [List.flatMap_map, List.map_flatMap]
    rfl
  rw [refsOf, hbodies, List.map_map, List.count, List.count, List.countP_map, List.countP_map]
  refine List.countP_congr fun x hx => ?_
  have heq := (code_injOn h.layout).eq_iff (h.closed hx) hk
  simpa [Config.cell] using heq

theorem perm {rings' : List Grammar.Ring} (hperm : rings.Perm rings') :
    Represents cfg st used rings' index := by
  have hknown : Known rings' = Known rings := by
    ext k
    simp only [Known, Set.mem_ofPred_eq, hperm.mem_iff]
  have hplaced : Placed rings' = Placed rings := by
    ext x
    simp only [placed_iff, hperm.mem_iff]
  refine ⟨h.layout.perm (hperm.map _), h.used_eq, ?_, ?_, ?_⟩
  · rw [h.numRules_eq, hperm.length_eq]
  · rw [hknown, hplaced]
    exact h.closed
  · rw [hknown, hplaced]
    exact h.table

end Represents

/-! ## The first ring -/

section First

variable {r g : ℕ} {left right body body' : List Grammar.Sym} {x : Grammar.Sym}

theorem row_cut (cfg : Config) (r g : ℕ) (left right : List Grammar.Sym) :
    cfg.row ⟨r, g, left.reverse ++ right⟩
      = ⟨cfg.address r, cfg.address g, (left.map cfg.cell).reverse ++ right.map cfg.cell⟩ := by
  simp [Config.row]

theorem row_around (cfg : Config) (r g : ℕ) (left : List Grammar.Sym) (x : Grammar.Sym)
    (right : List Grammar.Sym) : cfg.row ⟨r, g, left.reverse ++ x :: right⟩
      = ⟨cfg.address r, cfg.address g,
        (left.map cfg.cell).reverse ++ cfg.cell x :: right.map cfg.cell⟩ := by
  simp [Config.row]

theorem addr_map (cfg : Config) (l : List Grammar.Sym) :
    (l.map cfg.cell).map Cell.addr = l.map fun x => cfg.address x.tag := by
  simp [Config.cell]

theorem known_cons (r g : ℕ) (body body' : List Grammar.Sym) (rings : List Grammar.Ring) :
    Known (⟨r, g, body⟩ :: rings) = Known (⟨r, g, body'⟩ :: rings) := by
  ext k
  simp [Known]

theorem placed_cons : x ∈ Placed (⟨r, g, body⟩ :: rings) ↔ x ∈ body ∨ x ∈ Placed rings := by
  simp [Placed]

theorem placed_around {y : Grammar.Sym} :
    y ∈ Placed (⟨r, g, left.reverse ++ x :: right⟩ :: rings)
      ↔ y = x ∨ y ∈ Placed (⟨r, g, left.reverse ++ right⟩ :: rings) := by
  simp only [placed_cons, List.mem_append, List.mem_cons]
  tauto

/-- The symbols next to a place of the first ring. -/
theorem placed_head (hbody : body ⊆ body') {y : Grammar.Sym}
    (hy : y ∈ body.head? ∨ y ∈ body.tail.head?) : y ∈ Placed (⟨r, g, body'⟩ :: rings) := by
  refine placed_cons.mpr (Or.inl (hbody ?_))
  rcases hy with hy | hy
  · exact List.mem_of_mem_head? hy
  · exact List.mem_of_mem_tail (List.mem_of_mem_head? hy)

theorem head?_addr (cfg : Config) (l : List Grammar.Sym) :
    ((l.map cfg.cell).map Cell.addr).head? = l.head?.map fun x => cfg.address x.tag := by
  rw [addr_map, List.head?_map]

theorem tail_head?_addr (cfg : Config) (l : List Grammar.Sym) :
    ((l.map cfg.cell).map Cell.addr).tail.head?
      = l.tail.head?.map fun x => cfg.address x.tag := by
  rw [addr_map, ← List.map_tail, List.head?_map]

namespace Represents

theorem code_injOn_image (h : Represents cfg st used rings index) :
    Set.InjOn cfg.code (Grammar.Sym.key '' Placed rings) :=
  (code_injOn h.layout).mono fun _ ⟨_, hx, hk⟩ => hk ▸ h.closed hx

/-- **A symbol is destroyed.** -/
theorem ensures_destroy
    (h : Represents cfg st used (⟨r, g, left.reverse ++ x :: right⟩ :: rings) index) :
    Ensures outside (destroySymbol cfg (cfg.address x.tag)) st fun _ st' =>
      Represents cfg st' used (⟨r, g, left.reverse ++ right⟩ :: rings)
        (runAll (unlinkEdits Grammar.Sym.key left.tail.head? left.head? x right.head?
          right.tail.head?) index) := by
  obtain ⟨T, hT, hren⟩ := h.table
  have hlayout := h.layout
  rw [List.map_cons, row_around] at hlayout
  have hleft : left ⊆ left.reverse ++ x :: right := fun y hy => by simp [hy]
  have hright : right ⊆ left.reverse ++ x :: right := fun y hy => by simp [hy]
  refine (GrammarHeap.ensures_destroy cfg hlayout hT).mono ?_
  rintro - st' ⟨hlayout', hfreed, hused, hnum, hT'⟩
  refine ⟨?_, hused.trans h.used_eq, hnum.trans h.numRules_eq, fun hy => ?_, _, hT', ?_⟩
  · rw [List.map_cons, row_cut]
    exact hlayout'
  · rw [known_cons r g _ (left.reverse ++ x :: right)]
    exact h.closed (placed_around.mpr (Or.inr hy))
  · have hedits := hren.runAll (code_injOn h.layout) h.address_injOn fun e he =>
      within_unlinkEdits (fun _ => h.closed) (fun y hy => placed_head hleft (Or.inr hy))
        (fun y hy => placed_head hleft (Or.inl hy)) (placed_around.mpr (Or.inl rfl))
        (fun y hy => placed_head hright (Or.inl hy)) (fun y hy => placed_head hright (Or.inr hy)) he
    rw [map_unlinkEdits (fun _ => h.keyOf_eq) h.code_injOn_image
      (fun y hy => placed_head hleft (Or.inr hy)) (fun y hy => placed_head hleft (Or.inl hy))
      (placed_around.mpr (Or.inl rfl)) (fun y hy => placed_head hright (Or.inl hy))
      (fun y hy => placed_head hright (Or.inr hy))] at hedits
    rw [known_cons r g _ (left.reverse ++ x :: right), head?_addr, head?_addr, tail_head?_addr,
      tail_head?_addr]
    rw [head?_addr, head?_addr, tail_head?_addr, tail_head?_addr] at hT'
    refine hedits.restrict fun {d y} hy hd => ?_
    rcases placed_around.mp hy with rfl | hy
    · obtain ⟨s, -, hs, -⟩ := hT'.entry hd
      exact absurd (hfreed.symm.trans hs) (by simp)
    · exact hy

/-- **A new symbol is put in.** -/
theorem ensures_insert (h : Represents cfg st used (⟨r, g, left.reverse ++ right⟩ :: rings) index)
    {k : Grammar.Key} (hk : k ∈ Known (⟨r, g, left.reverse ++ right⟩ :: rings))
    (hne : k ≠ .rule r) (hnew : st.symbols (cfg.address used) = none)
    (huser : userAddress (cfg.address used) = true) :
    Ensures outside (insertAfter cfg
        (before (cfg.address g) (left.map fun x => cfg.address x.tag)) (cfg.address used))
      (st.withSymbol (cfg.address used) (cfg.code k)) fun _ st' =>
      Represents cfg st' (used + 1) (⟨r, g, left.reverse ++ ⟨used, k⟩ :: right⟩ :: rings)
        (runAll (linkEdits Grammar.Sym.key left.tail.head? left.head? right.head?) index) := by
  obtain ⟨T, hT, hren⟩ := h.table
  have hlayout := h.layout
  rw [List.map_cons, row_cut] at hlayout
  have hleft : left ⊆ left.reverse ++ right := fun y hy => by simp [hy]
  have hright : right ⊆ left.reverse ++ right := fun y hy => by simp [hy]
  have hrule : .rule r ∈ Known (⟨r, g, left.reverse ++ right⟩ :: rings) := fun r' hr' =>
    ⟨_, List.mem_cons_self, Grammar.Key.rule.inj hr'⟩
  have hcode : cfg.code k ≠ cfg.address r := fun heq => hne (code_injOn h.layout hk hrule heq)
  rw [← addr_map]
  refine (GrammarHeap.ensures_insert (x := cfg.cell ⟨used, k⟩) cfg hlayout hT hnew huser
    (h.goodKey hk) hcode).mono ?_
  rintro - st' ⟨hlayout', hused, hnum, hT'⟩
  refine ⟨?_, by rw [hused, h.used_eq], hnum.trans h.numRules_eq, fun hy => ?_, _, hT', ?_⟩
  · rw [List.map_cons, row_around]
    exact hlayout'
  · rw [known_cons r g _ (left.reverse ++ right)]
    rcases placed_around.mp hy with rfl | hy
    · exact hk
    · exact h.closed hy
  · have hedits := hren.runAll (code_injOn h.layout) h.address_injOn fun e he =>
      within_linkEdits (fun _ => h.closed) (fun y hy => placed_head hleft (Or.inr hy))
        (fun y hy => placed_head hleft (Or.inl hy)) (fun y hy => placed_head hright (Or.inl hy)) he
    rw [map_linkEdits (fun _ => h.keyOf_eq) h.code_injOn_image
      (fun y hy => placed_head hleft (Or.inr hy)) (fun y hy => placed_head hleft (Or.inl hy))
      (fun y hy => placed_head hright (Or.inl hy))] at hedits
    rw [known_cons r g _ (left.reverse ++ right), head?_addr, head?_addr, tail_head?_addr]
    exact hedits.mono (fun _ hx => hx) (fun _ hx => placed_around.mpr (Or.inr hx))
      (code_injOn h.layout)

/-- **A rule is made**, without symbols. -/
theorem ensures_newRule (h : Represents cfg st used rings index) :
    Ensures outside (genRule cfg) st fun a st' => a = cfg.address used
      ∧ Represents cfg st' (used + 2) (⟨used, used + 1, []⟩ :: rings) index := by
  obtain ⟨T, hT, hren⟩ := h.table
  refine (GrammarHeap.ensures_genRule cfg h.layout hT).mono ?_
  rintro a st' ⟨ha, hlayout', hused, hnum, hT'⟩
  rw [h.used_eq] at ha hlayout' hused
  have hknown : Known rings ⊆ Known (⟨used, used + 1, []⟩ :: rings) := fun k hk r hr => by
    obtain ⟨R, hR, hRr⟩ := hk r hr
    exact ⟨R, List.mem_cons_of_mem _ hR, hRr⟩
  have hplaced : ∀ {x}, x ∈ Placed (⟨used, used + 1, []⟩ :: rings) ↔ x ∈ Placed rings := by
    simp [placed_cons]
  have hlayout : st'.Layout cfg.bias ((⟨used, used + 1, []⟩ :: rings).map cfg.row) := by
    rw [ha] at hlayout'
    exact hlayout'
  refine ⟨ha, hlayout, hused, ?_, fun hx => hknown (h.closed (hplaced.mp hx)), T, hT', ?_⟩
  · rw [hnum, h.numRules_eq, List.length_cons]
    push_cast
    rfl
  · exact hren.mono hknown (fun _ hx => hplaced.mpr hx) (code_injOn hlayout)

end Represents

end First

/-! ## New symbols -/

namespace Represents

variable (h : Represents cfg st used rings index) {Q : ℕ → Store → Prop}

include h

/-- No rule has the code of a character. -/
theorem rules_code_term (c : UInt8) : st.rules (cfg.code (.term c)) = none := by
  cases hX : st.rules (cfg.code (.term c)) with
  | none => rfl
  | some X =>
    obtain ⟨R, hR, hr⟩ := h.layout.rule_only hX
    have huser := userAddress_iff.mp (h.layout.rule hR).1
    have hterm := cfg.code_term c
    omega

/-- A symbol with the code of a character is a terminal. -/
theorem not_nonTerminal {a : ℕ} {s : Symbol} (hs : st.symbols a = some s) {c : UInt8}
    (hk : s.key = cfg.code (.term c)) : ¬ nonTerminal s = true := by
  rw [h.layout.sane.nonTerminal_iff hs, hk, h.rules_code_term c]
  rintro ⟨X, hX⟩
  cases hX

/-- A symbol with the address of a rule is none. -/
theorem nonTerminal_of_mem {R : Grammar.Ring} (hR : R ∈ rings) {s : Symbol}
    (hk : s.key = cfg.address R.rule) : nonTerminal s = true := by
  have hrule := (h.layout.rule (mem_rows hR)).2
  change st.rules (cfg.address R.rule) = _ at hrule
  rw [← hk] at hrule
  exact h.layout.sane.nonTerminal_of_rule hrule

/-- A symbol for a character. -/
theorem ensures_genSymbol1 (c : UInt8)
    (hQ : st.symbols (cfg.address used) = none → userAddress (cfg.address used) = true →
      Q (cfg.address used) (st.withSymbol (cfg.address used) (cfg.code (.term c)))) :
    Ensures outside (genSymbol1 cfg (cfg.charCode c)) st Q := by
  refine GrammarHeap.ensures_genSymbol1 cfg _ (h.rules_code_term c) fun new hnew huser hsym _ => ?_
  rw [h.used_eq] at hnew
  rw [hnew] at huser hsym ⊢
  exact hQ hsym huser

/-- A symbol for a rule. -/
theorem ensures_genSymbol2 {R : Grammar.Ring} (hR : R ∈ rings)
    (hQ : st.symbols (cfg.address used) = none → userAddress (cfg.address used) = true →
      Q (cfg.address used) (st.withSymbol (cfg.address used) (cfg.code (.rule R.rule)))) :
    Ensures outside (genSymbol2 cfg (cfg.address R.rule)) st Q := by
  refine GrammarHeap.ensures_genSymbol2 cfg (h.layout.rule (mem_rows hR)).2
    fun new hnew huser hsym _ => ?_
  rw [h.used_eq] at hnew
  rw [hnew] at huser hsym ⊢
  exact hQ hsym huser

/-- A copy of a symbol. -/
theorem ensures_copySymbol {x : Grammar.Sym} (hx : x ∈ Placed rings)
    (hQ : st.symbols (cfg.address used) = none → userAddress (cfg.address used) = true →
      Q (cfg.address used) (st.withSymbol (cfg.address used) (cfg.code x.key))) :
    Ensures outside (copySymbol cfg (cfg.address x.tag)) st Q := by
  obtain ⟨-, n, p, hs⟩ := h.layout.cell (cell_mem_cells hx)
  change st.symbols (cfg.address x.tag) = some ⟨n, p, cfg.code x.key, cfg.code x.key / 2⟩ at hs
  rw [copySymbol, ensures_bind, ensures_loadSymbol hs]
  cases hk : x.key with
  | term c =>
    rw [hk] at hs hQ
    rw [if_neg (h.not_nonTerminal hs rfl)]
    have hterm := cfg.code_term c
    have hlt : cfg.code (.term c) < 2 ^ 64 := Nat.mod_lt _ (by decide)
    have hvalue : cfg.value ⟨n, p, cfg.code (.term c), cfg.code (.term c) / 2⟩
        = cfg.code (.term c) / 2 := by
      unfold Config.value
      cases cfg.program <;> rfl
    have hback : (cfg.code (.term c) / 2 * 2 + 1) % 2 ^ 64 = cfg.code (.term c) := by
      omega
    rw [hvalue]
    refine GrammarHeap.ensures_genSymbol1 cfg _ ?_ fun new hnew huser hsym _ => ?_
    · rw [hback]
      exact h.rules_code_term c
    · rw [h.used_eq] at hnew
      rw [hnew] at huser hsym ⊢
      rw [hback]
      exact hQ hsym huser
  | rule r =>
    rw [hk] at hs hQ
    obtain ⟨R, hR, rfl⟩ := h.closed hx r hk
    rw [if_pos (h.nonTerminal_of_mem hR rfl)]
    exact h.ensures_genSymbol2 hR hQ

end Represents

/-! ## Pairs of neighbours -/

namespace Represents

variable (h : Represents cfg st used rings index) {R : Grammar.Ring} {x y : Grammar.Sym}

include h

/-- The links of a symbol. -/
theorem symbol_eq {left right : List Grammar.Sym} (hR : R ∈ rings)
    (hbody : R.body = left.reverse ++ x :: right) :
    st.symbols (cfg.address x.tag)
      = some ⟨behind (cfg.address R.guard) (right.map fun x => cfg.address x.tag),
        before (cfg.address R.guard) (left.map fun x => cfg.address x.tag), cfg.code x.key,
        cfg.code x.key / 2⟩ := by
  have hlayout := (h.perm (List.perm_cons_erase hR)).layout
  rw [List.map_cons, Config.row, hbody, List.map_append, List.map_reverse, List.map_cons] at hlayout
  rw [← addr_map, ← addr_map]
  exact hlayout.symbol_body

/-- The links of a guard. -/
theorem guard_eq (hR : R ∈ rings) :
    st.symbols (cfg.address R.guard)
      = some ⟨behind (cfg.address R.guard) (R.body.map fun x => cfg.address x.tag),
        before (cfg.address R.guard) (R.body.map fun x => cfg.address x.tag).reverse,
        cfg.address R.rule, cfg.address R.rule / 2⟩ := by
  have hlayout := (h.perm (List.perm_cons_erase hR)).layout
  rw [← addr_map]
  exact hlayout.symbol_guard

theorem rule_eq (hR : R ∈ rings) : st.rules (cfg.address R.rule) = some ⟨cfg.address R.guard,
    refsOf (rings.map cfg.row) (cfg.address R.rule) + cfg.bias, 0⟩ := (h.layout.rule (mem_rows hR)).2

theorem ensures_first {ok : Stop → Prop} {Q : ℕ → Store → Prop} (hR : R ∈ rings) :
    Ensures ok (first (cfg.address R.rule)) st Q
      ↔ Q (behind (cfg.address R.guard) (R.body.map fun x => cfg.address x.tag)) st := by
  rw [first, ensures_bind, ensures_loadRule (h.rule_eq hR), ensures_bind]
  exact ensures_loadSymbol (h.guard_eq hR)

theorem ensures_last {ok : Stop → Prop} {Q : ℕ → Store → Prop} (hR : R ∈ rings) :
    Ensures ok (last (cfg.address R.rule)) st Q
      ↔ Q (before (cfg.address R.guard) (R.body.map fun x => cfg.address x.tag).reverse) st := by
  rw [last, ensures_bind, ensures_loadRule (h.rule_eq hR), ensures_bind]
  exact ensures_loadSymbol (h.guard_eq hR)

theorem isGuard (hR : R ∈ rings) : st.IsGuard (cfg.address R.guard) := h.layout.isGuard (mem_rows hR)

theorem not_isGuard (hx : x ∈ Placed rings) : ¬ st.IsGuard (cfg.address x.tag) := by
  obtain ⟨R, hR, hx⟩ := placed_iff.mp hx
  exact h.layout.not_isGuard (mem_rows hR) (List.mem_map_of_mem hx)

/-- A pair of neighbours in memory. -/
theorem pair_eq (hR : R ∈ rings) (hxy : AdjIn R.body x y) :
    ∃ s t, st.symbols (cfg.address x.tag) = some s ∧ s.n = cfg.address y.tag
      ∧ st.symbols s.n = some t ∧ s.key = cfg.code x.key ∧ t.key = cfg.code y.key := by
  obtain ⟨u, v, hbody⟩ := hxy
  have hx : R.body = u.reverse.reverse ++ x :: y :: v := by rwa [List.reverse_reverse]
  have hy : R.body = (u ++ [x]).reverse.reverse ++ y :: v := by simp [hbody]
  exact ⟨_, _, h.symbol_eq hR hx, rfl, h.symbol_eq hR hy, rfl, rfl⟩

/-- **The slot of a pair**: what it holds, and what it means to store into it. -/
theorem ensures_findDigram (hR : R ∈ rings) (hxy : AdjIn R.body x y) :
    Ensures outside (findDigram (cfg.address x.tag)) st fun i st' => st' = st
      ∧ (∀ o, index (x.key, y.key) = some o → st.hashTable i = cfg.address o.tag)
      ∧ (index (x.key, y.key) = none → st.hashTable i ≤ 1)
      ∧ Represents cfg { st with hashTable := Function.update st.hashTable i (cfg.address x.tag) }
        used rings (Function.update index (x.key, y.key) (some x)) := by
  obtain ⟨T, hT, hren⟩ := h.table
  obtain ⟨s, t, hs, hn, ht, hsk, htk⟩ := h.pair_eq hR hxy
  have hx : x ∈ Placed rings := placed_iff.mpr ⟨R, hR, hxy.mem.1⟩
  have hy : y ∈ Placed rings := placed_iff.mpr ⟨R, hR, hxy.mem.2⟩
  refine (hT.entries.ensures_findDigram hs ht).mono ?_
  rintro i st' ⟨rfl, hi⟩
  have heq : T (s.key, t.key) = (index (x.key, y.key)).map fun x => cfg.address x.tag := by
    rw [hsk, htk]
    exact hren.eq (d := (x.key, y.key)) (h.closed hx) (h.closed hy)
  refine ⟨rfl, fun o ho => ?_, fun hnone => ?_, ?_⟩
  · have := hi.2
    rw [heq, ho] at this
    exact this
  · have := hi.2
    rw [heq, hnone] at this
    exact this.1
  · have hrecord := hT.record h.layout.sane hs ht (h.not_isGuard hx) (hn ▸ h.not_isGuard hy) hi
    refine ⟨?_, h.used_eq, h.numRules_eq, h.closed, _, hrecord, ?_⟩
    · exact ⟨h.layout.nodup, h.layout.rule_nodup, h.layout.rule, h.layout.rule_only, h.layout.cell,
        h.layout.cell_only, h.layout.key, h.layout.ring, h.layout.apart⟩
    · rw [hsk, htk]
      exact hren.run (e := .record x (x.key, y.key)) (code_injOn h.layout) h.address_injOn
        ⟨hx, h.closed hx, h.closed hy⟩

/-- **A pair is recorded.** -/
theorem ensures_recordDigram (hR : R ∈ rings) (hxy : AdjIn R.body x y) :
    Ensures outside (recordDigram (cfg.address x.tag)) st fun _ st' =>
      Represents cfg st' used rings (Function.update index (x.key, y.key) (some x)) := by
  rw [recordDigram]
  refine (h.ensures_findDigram hR hxy).bind ?_
  rintro i _ ⟨rfl, -, -, hrep⟩
  rw [ensures_storeSlot]
  exact hrep

/-- A pair that is new is recorded by `checkPut`. -/
theorem ensures_checkPut_new (hR : R ∈ rings) (hxy : AdjIn R.body x y)
    (hnone : index (x.key, y.key) = none) (depth : ℕ) :
    Ensures outside (checkPut cfg (depth + 1) (cfg.address x.tag)) st fun b st' => b = false
      ∧ Represents cfg st' used rings (Function.update index (x.key, y.key) (some x)) := by
  obtain ⟨s, t, hs, hn, ht, -, -⟩ := h.pair_eq hR hxy
  have hx := h.not_isGuard (placed_iff.mpr ⟨R, hR, hxy.mem.1⟩)
  have hy := h.not_isGuard (placed_iff.mpr ⟨R, hR, hxy.mem.2⟩)
  rw [checkPut, ensures_bind, h.layout.sane.ensures_atGuard hs ht, hn]
  rw [if_neg (by simp [hx, hy])]
  refine (h.ensures_findDigram hR hxy).bind ?_
  rintro i _ ⟨rfl, -, hle, hrep⟩
  rw [ensures_bind, ensures_loadSlot, if_pos (hle hnone), ensures_bind, ensures_storeSlot]
  exact ⟨rfl, hrep⟩

/-- There is no pair at a guard, nor before one. -/
theorem ensures_checkPut_guard {Q : Bool → Store → Prop} {a : ℕ} {s : Symbol} {ok : Stop → Prop}
    (hs : st.symbols a = some s) (hg : st.IsGuard a ∨ st.IsGuard s.n) (hQ : Q false st)
    (depth : ℕ) : Ensures ok (checkPut cfg (depth + 1) a) st Q := by
  obtain ⟨t, ht, -⟩ := h.layout.linked.next hs
  rw [checkPut, ensures_bind, h.layout.sane.ensures_atGuard hs ht, if_pos (by simpa using hg)]
  exact hQ

end Represents

end GrammarHeap
