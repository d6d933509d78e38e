import Hoco.GrammarHeapLinks
import Hoco.LinkedRing
import Mathlib.Data.List.Count

/-!
# Rows of symbols in memory

The memory of the programs of `Hoco.GrammarHeap` between two operations, as a
list of rows: a row is a rule with the addresses and the keys of the symbols of
its ring. `Store.Layout` says that the memory consists of the given rows and of
nothing else, with the numbers of references that the rules are to have. In
`tadoc.c` the number is off by one, which is the parameter `bias`.

What is needed of the memory elsewhere follows from the layout (`Layout.linked`),
and the operations that change rows are specified by the layout before and behind
them: taking a symbol out (`ensures_destroy`), putting one in (`ensures_insert`)
and making a rule (`ensures_genRule`).
-/

namespace GrammarHeap

open Triple PairIndex LinkedRing

/-- A symbol in memory. -/
structure Cell where
  addr : ℕ
  key : ℕ

/-- A rule in memory: its address, that of its guard, and its symbols. -/
structure Row where
  rule : ℕ
  guard : ℕ
  body : List Cell

/-- The symbols of a row, the guard included. -/
def Row.cells (R : Row) : List Cell := ⟨R.guard, R.rule⟩ :: R.body

def cells (rows : List Row) : List Cell := rows.flatMap Row.cells

/-- The number of symbols with a key, guards aside. -/
def refsOf (rows : List Row) (k : ℕ) : ℕ := ((rows.flatMap Row.body).map Cell.key).count k

def nextOf (f : ℕ → Option Symbol) (a : ℕ) : Option ℕ := (f a).map Symbol.n

def prevOf (f : ℕ → Option Symbol) (a : ℕ) : Option ℕ := (f a).map Symbol.p

/-- What the number of references of a rule is off by. -/
def Config.bias (cfg : Config) : ℤ :=
  match cfg.program with
  | .tadoc => 1
  | .sequitur => 0

/-- **The memory consists of the given rows.** -/
structure Store.Layout (st : Store) (bias : ℤ) (rows : List Row) : Prop where
  nodup : ((cells rows).map Cell.addr).Nodup
  rule_nodup : (rows.map Row.rule).Nodup
  rule : ∀ {R}, R ∈ rows → userAddress R.rule = true
    ∧ st.rules R.rule = some ⟨R.guard, refsOf rows R.rule + bias, 0⟩
  rule_only : ∀ {r X}, st.rules r = some X → ∃ R ∈ rows, R.rule = r
  cell : ∀ {x}, x ∈ cells rows → userAddress x.addr = true
    ∧ ∃ n p, st.symbols x.addr = some ⟨n, p, x.key, x.key / 2⟩
  cell_only : ∀ {a s}, st.symbols a = some s → ∃ x ∈ cells rows, x.addr = a
  key : ∀ {x}, x ∈ cells rows → st.GoodKey x.key
  ring : ∀ {R}, R ∈ rows →
    IsRing (nextOf st.symbols) (prevOf st.symbols) R.guard (R.body.map Cell.addr)
  apart : ∀ {R x}, R ∈ rows → x ∈ R.body → x.key ≠ R.rule

/-! ## Links -/

section Links

variable {f : ℕ → Option Symbol} {l r a g : ℕ} {s : Symbol} {left right : List ℕ}

theorem nextOf_link_of_ne (ha : a ≠ l) : nextOf (link f l r) a = nextOf f a := by
  simp only [nextOf, link_apply, Option.map_map, Function.comp_def, if_neg ha]

theorem nextOf_link_self (hs : f l = some s) : nextOf (link f l r) l = some r := by
  rw [nextOf, link_of_some hs, Option.map_some, if_pos rfl]

theorem prevOf_link_of_ne (ha : a ≠ r) : prevOf (link f l r) a = prevOf f a := by
  simp only [prevOf, link_apply, Option.map_map, Function.comp_def, if_neg ha]

theorem prevOf_link_self (hs : f r = some s) : prevOf (link f l r) r = some l := by
  rw [prevOf, link_of_some hs, Option.map_some, if_pos rfl]

theorem nextOf_update_of_ne (ha : a ≠ l) (v : Option Symbol) :
    nextOf (Function.update f l v) a = nextOf f a := by
  rw [nextOf, Function.update_of_ne ha, nextOf]

theorem prevOf_update_of_ne (ha : a ≠ l) (v : Option Symbol) :
    prevOf (Function.update f l v) a = prevOf f a := by
  rw [prevOf, Function.update_of_ne ha, prevOf]

theorem exists_of_nextOf (h : nextOf f a = some r) : ∃ s, f a = some s ∧ s.n = r :=
  Option.map_eq_some_iff.mp h

theorem exists_of_prevOf (h : prevOf f a = some r) : ∃ s, f a = some s ∧ s.p = r :=
  Option.map_eq_some_iff.mp h

/-- The links of a ring out of which a symbol is taken. -/
theorem isRing_unlink (h : IsRing (nextOf f) (prevOf f) g (left.reverse ++ a :: right))
    (hnodup : (g :: (left.reverse ++ a :: right)).Nodup) :
    IsRing (nextOf (Function.update (link f (before g left) (behind g right)) a none))
      (prevOf (Function.update (link f (before g left) (behind g right)) a none)) g
      (left.reverse ++ right) := by
  obtain ⟨-, ⟨hp, -⟩, ⟨-, hn⟩, -⟩ := isRing_iff_around.mp h
  obtain ⟨s, hs, -⟩ := exists_of_nextOf hp
  obtain ⟨t, ht, -⟩ := exists_of_prevOf hn
  have hmiddle : (g :: (left.reverse ++ a :: right)).Perm (a :: g :: (left.reverse ++ right)) :=
    (List.perm_middle.cons g).trans (.swap ..)
  obtain ⟨ha, hnodup'⟩ := List.nodup_cons.mp (hmiddle.nodup_iff.mp hnodup)
  have hne : ∀ {b}, b ∈ g :: (left.reverse ++ right) → b ≠ a := fun {b} hb heq => ha (heq ▸ hb)
  have hbefore := hne (before_mem_cut g left right)
  have hbehind := hne (behind_mem_cut g left right)
  refine h.remove hnodup' (fun b hb hbp => ?_) (fun b hb hbn => ?_) ⟨?_, ?_⟩
  · rw [nextOf_update_of_ne (hne hb), nextOf_link_of_ne hbp]
  · rw [prevOf_update_of_ne (hne hb), prevOf_link_of_ne hbn]
  · rw [nextOf_update_of_ne hbefore, nextOf_link_self hs]
  · rw [prevOf_update_of_ne hbehind, prevOf_link_self ht]

/-- The links of a ring into which a symbol is put. -/
theorem isRing_link (h : IsRing (nextOf f) (prevOf f) g (left.reverse ++ right))
    (hnodup : (g :: (left.reverse ++ right)).Nodup) (ha : f a = none) :
    IsRing (nextOf (link (link (Function.update f a (some s)) a (behind g right)) (before g left) a))
      (prevOf (link (link (Function.update f a (some s)) a (behind g right)) (before g left) a)) g
      (left.reverse ++ a :: right) := by
  have hlive : ∀ {b}, b ∈ g :: (left.reverse ++ right) → b ≠ a ∧ ∃ t, f b = some t := by
    intro b hb
    obtain ⟨c, -, hc, -⟩ := h.exists_next hb
    obtain ⟨t, ht, -⟩ := exists_of_nextOf hc
    refine ⟨?_, t, ht⟩
    rintro rfl
    rw [ha] at ht
    cases ht
  obtain ⟨hbefore, t, ht⟩ := hlive (before_mem_cut g left right)
  obtain ⟨hbehind, u, hu⟩ := hlive (behind_mem_cut g left right)
  have ht' := (Function.update_of_ne hbefore (some s) f).trans ht
  have hu' := (Function.update_of_ne hbehind (some s) f).trans hu
  have ha' : Function.update f a (some s) a = some s := Function.update_self ..
  refine h.insert hnodup (fun b hb hbp => ?_) (fun b hb hbn => ?_) ⟨?_, ?_⟩ ⟨?_, ?_⟩
  · rw [nextOf_link_of_ne hbp, nextOf_link_of_ne (hlive hb).1, nextOf_update_of_ne (hlive hb).1]
  · rw [prevOf_link_of_ne (hlive hb).1, prevOf_link_of_ne hbn, prevOf_update_of_ne (hlive hb).1]
  · exact nextOf_link_self (link_of_some ht')
  · exact prevOf_link_self (link_of_some ha')
  · rw [nextOf_link_of_ne hbefore.symm, nextOf_link_self ha']
  · rw [prevOf_link_of_ne hbehind, prevOf_link_self hu']

end Links

/-! ## What follows from the layout -/

variable {st : Store} {bias : ℤ} {rows : List Row} {R : Row} {x y : Cell}

theorem mem_cells : x ∈ cells rows ↔ ∃ R ∈ rows, x ∈ R.cells := List.mem_flatMap

theorem mem_cells_of_body (hR : R ∈ rows) (hx : x ∈ R.body) : x ∈ cells rows :=
  mem_cells.mpr ⟨R, hR, List.mem_cons_of_mem _ hx⟩

theorem guard_mem_cells (hR : R ∈ rows) : ⟨R.guard, R.rule⟩ ∈ cells rows :=
  mem_cells.mpr ⟨R, hR, List.mem_cons_self⟩

theorem mem_addrs {a : ℕ} : a ∈ R.guard :: R.body.map Cell.addr ↔ ∃ x ∈ R.cells, x.addr = a := by
  simp [Row.cells, eq_comm]

namespace Store.Layout

variable (h : st.Layout bias rows)

include h

theorem eq_of_addr (hx : x ∈ cells rows) (hy : y ∈ cells rows) (haddr : x.addr = y.addr) : x = y :=
  List.inj_on_of_nodup_map h.nodup hx hy haddr

/-- Rows have no symbol in common. -/
theorem row_unique {R' : Row} (hR : R ∈ rows) (hR' : R' ∈ rows) (hx : x ∈ R.cells)
    (hx' : x ∈ R'.cells) : R = R' := by
  by_contra hne
  have hdisjoint := (List.nodup_flatMap.mp (h.nodup.of_map Cell.addr)).2
  have hsymm : Std.Symm (Function.onFun List.Disjoint Row.cells) := 
    ⟨fun _ _ hAB _ hx hx' => hAB hx' hx⟩
  exact hdisjoint.forall hR hR' hne hx hx'

theorem cells_nodup (hR : R ∈ rows) : R.cells.Nodup :=
  (List.nodup_flatMap.mp (h.nodup.of_map Cell.addr)).1 R hR

theorem addrs_nodup (hR : R ∈ rows) : (R.guard :: R.body.map Cell.addr).Nodup := by
  show (R.cells.map Cell.addr).Nodup
  refine (h.cells_nodup hR).map_on fun x hx y hy hxy => ?_
  exact h.eq_of_addr (mem_cells.mpr ⟨R, hR, hx⟩) (mem_cells.mpr ⟨R, hR, hy⟩) hxy

theorem exists_symbol (hx : x ∈ cells rows) :
    ∃ s, st.symbols x.addr = some s ∧ s.key = x.key := by
  obtain ⟨-, n, p, hs⟩ := h.cell hx
  exact ⟨_, hs, rfl⟩

theorem isGuard_iff {a : ℕ} : st.IsGuard a ↔ ∃ R ∈ rows, R.guard = a := by
  constructor
  · rintro ⟨r, X, hX, rfl⟩
    obtain ⟨R, hR, rfl⟩ := h.rule_only hX
    rw [(h.rule hR).2, Option.some.injEq] at hX
    exact ⟨R, hR, hX ▸ rfl⟩
  · rintro ⟨R, hR, rfl⟩
    exact ⟨R.rule, _, (h.rule hR).2, rfl⟩

theorem isGuard (hR : R ∈ rows) : st.IsGuard R.guard := h.isGuard_iff.mpr ⟨R, hR, rfl⟩

theorem not_isGuard (hR : R ∈ rows) (hx : x ∈ R.body) : ¬ st.IsGuard x.addr := by
  rw [h.isGuard_iff]
  rintro ⟨R', hR', haddr⟩
  have heq := h.eq_of_addr (guard_mem_cells hR') (mem_cells_of_body hR hx) haddr
  have hmem : (⟨R'.guard, R'.rule⟩ : Cell) ∈ R.body := heq ▸ hx
  obtain rfl := h.row_unique hR hR' (List.mem_cons_of_mem _ hmem) List.mem_cons_self
  exact (List.nodup_cons.mp (h.cells_nodup hR)).1 hmem

theorem keyOf_eq (hx : x ∈ cells rows) : st.keyOf x.addr = x.key := by
  obtain ⟨s, hs, hk⟩ := h.exists_symbol hx
  rw [Store.keyOf_eq hs, hk]

/-- The neighbours of a symbol are in its row. -/
theorem exists_next (hR : R ∈ rows) (hx : x ∈ R.cells) {s : Symbol}
    (hs : st.symbols x.addr = some s) :
    ∃ y ∈ R.cells, y.addr = s.n ∧ ∃ t, st.symbols y.addr = some t ∧ t.p = x.addr := by
  obtain ⟨a, ha, hn, hp⟩ := (h.ring hR).exists_next (mem_addrs.mpr ⟨x, hx, rfl⟩)
  obtain ⟨y, hy, rfl⟩ := mem_addrs.mp ha
  rw [nextOf, hs, Option.map_some, Option.some.injEq] at hn
  exact ⟨y, hy, hn.symm, Option.map_eq_some_iff.mp hp⟩

theorem exists_prev (hR : R ∈ rows) (hx : x ∈ R.cells) {s : Symbol}
    (hs : st.symbols x.addr = some s) :
    ∃ y ∈ R.cells, y.addr = s.p ∧ ∃ t, st.symbols y.addr = some t ∧ t.n = x.addr := by
  obtain ⟨a, ha, hn, hp⟩ := (h.ring hR).exists_prev (mem_addrs.mpr ⟨x, hx, rfl⟩)
  obtain ⟨y, hy, rfl⟩ := mem_addrs.mp ha
  rw [prevOf, hs, Option.map_some, Option.some.injEq] at hp
  exact ⟨y, hy, hp.symm, Option.map_eq_some_iff.mp hn⟩

theorem sane : st.Sane where
  rule hX := by
    obtain ⟨R, hR, rfl⟩ := h.rule_only hX
    obtain ⟨huser, hX'⟩ := h.rule hR
    rw [hX, Option.some.injEq] at hX'
    obtain ⟨g, hg, hgk⟩ := h.exists_symbol (guard_mem_cells hR)
    obtain ⟨y, -, hyp, l, hl, hln⟩ := h.exists_prev hR List.mem_cons_self hg
    rw [hX']
    exact ⟨huser, g, l, hg, hgk, hyp ▸ hl, hln⟩
  symbol hs := by
    obtain ⟨x, hx, rfl⟩ := h.cell_only hs
    obtain ⟨huser, n, p, hs'⟩ := h.cell hx
    rw [hs, Option.some.injEq] at hs'
    exact ⟨huser, hs' ▸ rfl⟩
  key hs := by
    obtain ⟨x, hx, rfl⟩ := h.cell_only hs
    obtain ⟨s', hs', hk⟩ := h.exists_symbol hx
    rw [hs, Option.some.injEq] at hs'
    rw [hs', hk]
    exact h.key hx

/-- Neighbours with one key are both guards or both none. -/
theorem isGuard_of_key (hR : R ∈ rows) (hx : x ∈ R.cells) (hy : y ∈ R.cells) (hk : x.key = y.key)
    (hg : st.IsGuard x.addr) : st.IsGuard y.addr := by
  rcases List.mem_cons.mp hx with rfl | hx
  · rcases List.mem_cons.mp hy with rfl | hy
    · exact hg
    · exact absurd hk.symm (h.apart hR hy)
  · exact absurd hg (h.not_isGuard hR hx)

/-- **What the operations need** follows. -/
theorem linked : st.Linked where
  sane := h.sane
  next hs := by
    obtain ⟨x, hx, rfl⟩ := h.cell_only hs
    obtain ⟨R, hR, hx⟩ := mem_cells.mp hx
    obtain ⟨y, -, hy, t, ht, htp⟩ := h.exists_next hR hx hs
    exact ⟨t, hy ▸ ht, htp⟩
  prev hs := by
    obtain ⟨x, hx, rfl⟩ := h.cell_only hs
    obtain ⟨R, hR, hx⟩ := mem_cells.mp hx
    obtain ⟨y, -, hy, t, ht, htn⟩ := h.exists_prev hR hx hs
    exact ⟨t, hy ▸ ht, htn⟩
  apart {a s t} hs ht hk := by
    obtain ⟨x, hx, rfl⟩ := h.cell_only hs
    obtain ⟨R, hR, hxR⟩ := mem_cells.mp hx
    obtain ⟨y, hyR, hy, -⟩ := h.exists_next hR hxR hs
    have hkx := h.keyOf_eq hx
    have hky := h.keyOf_eq (mem_cells.mpr ⟨R, hR, hyR⟩)
    rw [Store.keyOf_eq hs] at hkx
    rw [hy, Store.keyOf_eq ht] at hky
    rw [hkx, hky] at hk
    rw [← hy]
    exact ⟨h.isGuard_of_key hR hxR hyR hk, h.isGuard_of_key hR hyR hxR hk.symm⟩
  proper {a s} hs hg := by
    obtain ⟨x, hx, rfl⟩ := h.cell_only hs
    obtain ⟨R, hR, hxR⟩ := mem_cells.mp hx
    have hbody : x ∈ R.body := by
      rcases List.mem_cons.mp hxR with rfl | hx
      · exact absurd (h.isGuard hR) hg
      · exact hx
    obtain ⟨hn, hp, hsame⟩ := (h.ring hR).proper (h.addrs_nodup hR) (List.mem_map_of_mem hbody)
      (y := s.n) (z := s.p) (by rw [nextOf, hs]; rfl) (by rw [prevOf, hs]; rfl)
    exact ⟨hn, hp, fun heq => hsame heq ▸ h.isGuard hR⟩

theorem perm {rows' : List Row} (hperm : rows.Perm rows') : st.Layout bias rows' := by
  have hmem : ∀ {R}, R ∈ rows' ↔ R ∈ rows := fun {R} => hperm.mem_iff.symm
  have hcells := hperm.flatMap_right Row.cells
  have hrefs : ∀ k, refsOf rows' k = refsOf rows k := fun k =>
    ((hperm.flatMap_right Row.body).map Cell.key).count_eq k |>.symm
  have hcell : ∀ {x}, x ∈ cells rows' ↔ x ∈ cells rows := fun {x} => hcells.mem_iff.symm
  refine ⟨?nodup, ?rule_nodup, ?rule, ?rule_only, ?cell, ?cell_only, ?key, ?ring, ?apart⟩
  case nodup => exact (hcells.map Cell.addr).nodup_iff.mp h.nodup
  case rule_nodup => exact (hperm.map Row.rule).nodup_iff.mp h.rule_nodup
  case rule =>
    intro R hR
    rw [hrefs]
    exact h.rule (hmem.mp hR)
  case rule_only =>
    intro r X hX
    simp only [hmem]
    exact h.rule_only hX
  case cell => exact fun hx => h.cell (hcell.mp hx)
  case cell_only =>
    intro a s hs
    simp only [hcell]
    exact h.cell_only hs
  case key => exact fun hx => h.key (hcell.mp hx)
  case ring => exact fun hR => h.ring (hmem.mp hR)
  case apart => exact fun hR => h.apart (hmem.mp hR)

end Store.Layout

/-! ## The first row -/

namespace Store.Layout

variable {r g : ℕ} {left right body : List Cell}

/-- The links of the guard. -/
theorem symbol_guard (h : st.Layout bias (⟨r, g, body⟩ :: rows)) :
    st.symbols g = some ⟨behind g (body.map Cell.addr), before g (body.map Cell.addr).reverse, r,
      r / 2⟩ := by
  obtain ⟨-, n, p, hs⟩ := h.cell (guard_mem_cells List.mem_cons_self)
  obtain ⟨hn, hp⟩ := (h.ring List.mem_cons_self).closing
  rw [nextOf, hs, Option.map_some, Option.some.injEq] at hn
  rw [prevOf, hs, Option.map_some, Option.some.injEq] at hp
  rw [hs, ← hn, ← hp]

/-- The links of a symbol. -/
theorem symbol_body (h : st.Layout bias (⟨r, g, left.reverse ++ x :: right⟩ :: rows)) :
    st.symbols x.addr = some ⟨behind g (right.map Cell.addr), before g (left.map Cell.addr), x.key,
      x.key / 2⟩ := by
  obtain ⟨-, n, p, hs⟩ := h.cell (mem_cells_of_body (x := x) List.mem_cons_self (by simp))
  have hring := h.ring List.mem_cons_self
  simp only [List.map_append, List.map_reverse, List.map_cons] at hring
  obtain ⟨hn, hp⟩ := hring.around
  rw [nextOf, hs, Option.map_some, Option.some.injEq] at hn
  rw [prevOf, hs, Option.map_some, Option.some.injEq] at hp
  rw [hs, ← hn, ← hp]

section Cut

variable (h : st.Layout bias (⟨r, g, left.reverse ++ right⟩ :: rows))

include h

theorem item_before : st.item (before g (left.map Cell.addr)) = (left.map Cell.addr).head? := by
  cases left with
  | nil => exact item_of_isGuard (h.isGuard List.mem_cons_self)
  | cons y left => exact item_of_not_isGuard (h.not_isGuard List.mem_cons_self (by simp))

theorem item_behind : st.item (behind g (right.map Cell.addr)) = (right.map Cell.addr).head? := by
  cases right with
  | nil => exact item_of_isGuard (h.isGuard List.mem_cons_self)
  | cons y right => exact item_of_not_isGuard (h.not_isGuard List.mem_cons_self (by simp))

/-- The symbol before a place in the row. -/
theorem symbol_before : ∃ s, st.symbols (before g (left.map Cell.addr)) = some s
    ∧ s.n = behind g (right.map Cell.addr) ∧ (left = [] → s.key = r)
    ∧ (left ≠ [] → st.item s.p = (left.map Cell.addr).tail.head?) := by
  cases left with
  | nil => exact ⟨_, h.symbol_guard, rfl, fun _ => rfl, fun hne => absurd rfl hne⟩
  | cons y left =>
    rw [List.reverse_cons, List.append_assoc] at h
    exact ⟨_, h.symbol_body, rfl, fun hnil => absurd hnil (List.cons_ne_nil _ _),
      fun _ => h.item_before⟩

/-- The symbol behind a place in the row. -/
theorem symbol_behind : ∃ s, st.symbols (behind g (right.map Cell.addr)) = some s
    ∧ (right ≠ [] → st.item s.n = (right.map Cell.addr).tail.head?) := by
  cases right with
  | nil => exact ⟨_, h.symbol_guard, fun hne => absurd rfl hne⟩
  | cons y right =>
    refine ⟨_, h.symbol_body, fun _ => ?_⟩
    have hcut : st.Layout bias (⟨r, g, (y :: left).reverse ++ right⟩ :: rows) := by
      rwa [List.reverse_cons, List.append_assoc]
    exact hcut.item_behind

end Cut

/-! ## Taking a symbol out -/

theorem refsOf_cut (r g : ℕ) (left : List Cell) (x : Cell) (right : List Cell) (rows : List Row)
    (k : ℕ) : refsOf (⟨r, g, left.reverse ++ x :: right⟩ :: rows) k
      = refsOf (⟨r, g, left.reverse ++ right⟩ :: rows) k + if x.key = k then 1 else 0 := by
  simp only [refsOf, List.flatMap_cons, List.map_append, List.map_cons, List.count_append,
    List.count_cons, beq_iff_eq]
  omega

theorem cells_cut (r g : ℕ) (left : List Cell) (x : Cell) (right : List Cell) (rows : List Row) :
    (cells (⟨r, g, left.reverse ++ x :: right⟩ :: rows)).Perm
      (x :: cells (⟨r, g, left.reverse ++ right⟩ :: rows)) := by
  simp only [cells, List.flatMap_cons, Row.cells, List.cons_append, List.append_assoc]
  exact (List.perm_middle.cons _).trans (.swap ..)

/-- The rules of two layouts whose first rows differ in their bodies. -/
theorem rule_counted {body' : List Cell} {k : ℕ} {d : ℤ}
    (h : st.Layout bias (⟨r, g, body⟩ :: rows))
    (hrefs : ∀ k', (refsOf (⟨r, g, body'⟩ :: rows) k' : ℤ)
      = refsOf (⟨r, g, body⟩ :: rows) k' + if k' = k then d else 0)
    {R : Row} (hR : R ∈ (⟨r, g, body'⟩ : Row) :: rows) : userAddress R.rule = true
      ∧ st.counted k d R.rule
        = some ⟨R.guard, refsOf (⟨r, g, body'⟩ :: rows) R.rule + bias, 0⟩ := by
  have hold : userAddress R.rule = true
      ∧ st.rules R.rule = some ⟨R.guard, refsOf (⟨r, g, body⟩ :: rows) R.rule + bias, 0⟩ := by
    rcases List.mem_cons.mp hR with rfl | hR
    · exact h.rule (R := ⟨r, g, body⟩) List.mem_cons_self
    · exact h.rule (List.mem_cons_of_mem _ hR)
  refine ⟨hold.1, ?_⟩
  rw [counted_apply, hold.2, hrefs, Option.map_some, Int.add_right_comm]

theorem rule_only_counted {body' : List Cell} {k : ℕ} {d : ℤ}
    (h : st.Layout bias (⟨r, g, body⟩ :: rows)) {r' : ℕ} {X : Rule}
    (hX : st.counted k d r' = some X) : ∃ R ∈ (⟨r, g, body'⟩ : Row) :: rows, R.rule = r' := by
  obtain ⟨X', hX', -⟩ := counted_eq_some hX
  have hold := h.rule_only hX'
  rw [List.exists_mem_cons_iff] at hold ⊢
  exact hold

/-- The other rows have no address in common with the first one. -/
theorem ne_of_mem_row (h : st.Layout bias (⟨r, g, body⟩ :: rows)) (hR : R ∈ rows) {a b : ℕ}
    (ha : a ∈ R.guard :: R.body.map Cell.addr) (hb : b ∈ g :: body.map Cell.addr) : a ≠ b := by
  have hnodup := h.nodup
  rw [cells, List.flatMap_cons, List.map_append, List.nodup_append] at hnodup
  obtain ⟨x, hx, rfl⟩ := mem_addrs.mp ha
  exact (hnodup.2.2 b hb x.addr (List.mem_map_of_mem (mem_cells.mpr ⟨R, hR, hx⟩))).symm

theorem mem_addrs_cut {a : ℕ} (ha : a ∈ g :: ((left.map Cell.addr).reverse ++ right.map Cell.addr)) :
    a ∈ g :: (left.reverse ++ x :: right).map Cell.addr := by
  simp only [List.map_append, List.map_reverse, List.map_cons, List.mem_cons, List.mem_append]
    at ha ⊢
  tauto

/-- **A symbol is taken out of the first row.** -/
theorem remove (h : st.Layout bias (⟨r, g, left.reverse ++ x :: right⟩ :: rows))
    (slots : ℕ → ℕ) :
    Store.Layout { st with
      symbols := Function.update
        (link st.symbols (before g (left.map Cell.addr)) (behind g (right.map Cell.addr)))
        x.addr none
      rules := st.counted x.key (-1)
      hashTable := slots } bias (⟨r, g, left.reverse ++ right⟩ :: rows) := by
  have hcells := cells_cut r g left x right rows
  have hnodup := (hcells.map Cell.addr).nodup_iff.mp h.nodup
  rw [List.map_cons, List.nodup_cons] at hnodup
  have hmem : ∀ {y}, y ∈ cells (⟨r, g, left.reverse ++ right⟩ :: rows) →
      y ∈ cells (⟨r, g, left.reverse ++ x :: right⟩ :: rows) ∧ y.addr ≠ x.addr := fun {y} hy =>
    ⟨hcells.mem_iff.mpr (List.mem_cons_of_mem _ hy), fun heq =>
      hnodup.1 (heq ▸ List.mem_map_of_mem hy)⟩
  refine ⟨hnodup.2, h.rule_nodup, ?rule, ?rule_only, ?cell, ?cell_only, ?key, ?ring, ?apart⟩
  case rule =>
    refine h.rule_counted fun k => ?_
    rw [refsOf_cut]
    push_cast
    split_ifs <;> omega
  case rule_only => exact h.rule_only_counted
  case cell =>
    intro y hy
    obtain ⟨huser, n, p, hs⟩ := h.cell (hmem hy).1
    exact ⟨huser, _, _, (Function.update_of_ne (hmem hy).2 _ _).trans (link_of_some hs)⟩
  case cell_only =>
    intro a s hs
    have ha : a ≠ x.addr := by
      rintro rfl
      cases (Function.update_self ..).symm.trans hs
    obtain ⟨s', hs', -⟩ := Option.map_eq_some_iff.mp
      ((link_apply ..).symm.trans ((Function.update_of_ne ha _ _).symm.trans hs))
    obtain ⟨y, hy, rfl⟩ := h.cell_only hs'
    rcases List.mem_cons.mp (hcells.mem_iff.mp hy) with rfl | hy
    · exact absurd rfl ha
    · exact ⟨y, hy, rfl⟩
  case key => exact fun hy => (h.key (hmem hy).1).counted
  case ring =>
    intro R hR
    rcases List.mem_cons.mp hR with rfl | hR
    · have hring := h.ring List.mem_cons_self
      have haddrs := h.addrs_nodup List.mem_cons_self
      simp only [List.map_append, List.map_reverse, List.map_cons] at hring haddrs ⊢
      exact isRing_unlink hring haddrs
    · refine (h.ring (List.mem_cons_of_mem _ hR)).congr (fun a ha => ?_) fun a ha => ?_
      all_goals
        have hx := h.ne_of_mem_row hR ha (b := x.addr) (by simp)
        have hp := h.ne_of_mem_row hR ha (mem_addrs_cut (before_mem_cut g _ _))
        have hn := h.ne_of_mem_row hR ha (mem_addrs_cut (behind_mem_cut g _ _))
      · exact (nextOf_update_of_ne hx _).trans (nextOf_link_of_ne hp)
      · exact (prevOf_update_of_ne hx _).trans (prevOf_link_of_ne hn)
  case apart =>
    intro R y hR hy
    rcases List.mem_cons.mp hR with rfl | hR
    · refine h.apart (R := ⟨r, g, left.reverse ++ x :: right⟩) List.mem_cons_self ?_
      show y ∈ left.reverse ++ x :: right
      simp only [List.mem_append, List.mem_cons] at hy ⊢
      tauto
    · exact h.apart (List.mem_cons_of_mem _ hR) hy

/-- **A symbol is put into the first row.** -/
theorem insert (h : st.Layout bias (⟨r, g, left.reverse ++ right⟩ :: rows))
    (hnew : st.symbols x.addr = none) (huser : userAddress x.addr = true) (hkey : st.GoodKey x.key)
    (hne : x.key ≠ r) (slots : ℕ → ℕ) :
    Store.Layout { st.withSymbol x.addr x.key with
      symbols := link (link (st.withSymbol x.addr x.key).symbols x.addr
        (behind g (right.map Cell.addr))) (before g (left.map Cell.addr)) x.addr
      hashTable := slots } bias (⟨r, g, left.reverse ++ x :: right⟩ :: rows) := by
  have hcells := cells_cut r g left x right rows
  have hold : ∀ {a s}, st.symbols a = some s → a ≠ x.addr := by
    rintro a s hs rfl
    rw [hnew] at hs
    cases hs
  have hlive : ∀ {y}, y ∈ cells (⟨r, g, left.reverse ++ right⟩ :: rows) → y.addr ≠ x.addr := by
    intro y hy
    obtain ⟨s, hs, -⟩ := h.exists_symbol hy
    exact hold hs
  refine ⟨?nodup, h.rule_nodup, ?rule, ?rule_only, ?cell, ?cell_only, ?key, ?ring, ?apart⟩
  case nodup =>
    rw [(hcells.map Cell.addr).nodup_iff, List.map_cons, List.nodup_cons]
    refine ⟨fun hmem => ?_, h.nodup⟩
    obtain ⟨y, hy, haddr⟩ := List.mem_map.mp hmem
    exact hlive hy haddr
  case rule =>
    refine h.rule_counted fun k => ?_
    rw [refsOf_cut]
    push_cast
    split_ifs <;> omega
  case rule_only => exact h.rule_only_counted
  case cell =>
    intro y hy
    rcases List.mem_cons.mp (hcells.mem_iff.mp hy) with rfl | hy
    · exact ⟨huser, _, _, link_of_some (link_of_some withSymbol_self)⟩
    · obtain ⟨huser, n, p, hs⟩ := h.cell hy
      exact ⟨huser, _, _, link_of_some (link_of_some (withSymbol_of_some hnew hs))⟩
  case cell_only =>
    intro a s hs
    obtain ⟨s', hs', -⟩ := Option.map_eq_some_iff.mp ((link_apply ..).symm.trans hs)
    obtain ⟨s'', hs'', -⟩ := Option.map_eq_some_iff.mp ((link_apply ..).symm.trans hs')
    by_cases ha : a = x.addr
    · exact ⟨x, hcells.mem_iff.mpr List.mem_cons_self, ha.symm⟩
    · obtain ⟨y, hy, rfl⟩ := h.cell_only ((Function.update_of_ne ha _ _).symm.trans hs'')
      exact ⟨y, hcells.mem_iff.mpr (List.mem_cons_of_mem _ hy), rfl⟩
  case key =>
    intro y hy
    rcases List.mem_cons.mp (hcells.mem_iff.mp hy) with rfl | hy
    · exact hkey.counted
    · exact (h.key hy).counted
  case ring =>
    intro R hR
    rcases List.mem_cons.mp hR with rfl | hR
    · have hring := h.ring List.mem_cons_self
      have haddrs := h.addrs_nodup List.mem_cons_self
      simp only [List.map_append, List.map_reverse, List.map_cons] at hring haddrs ⊢
      exact isRing_link hring haddrs hnew
    · refine (h.ring (List.mem_cons_of_mem _ hR)).congr (fun a ha => ?_) fun a ha => ?_
      all_goals
        obtain ⟨y, hy, rfl⟩ := mem_addrs.mp ha
        have hx := hlive (mem_cells.mpr ⟨R, List.mem_cons_of_mem _ hR, hy⟩)
        have hp := h.ne_of_mem_row hR ha (b := before g (left.map Cell.addr))
          (by simpa using before_mem_cut g (left.map Cell.addr) (right.map Cell.addr))
        have hn := h.ne_of_mem_row hR ha (b := behind g (right.map Cell.addr))
          (by simpa using behind_mem_cut g (left.map Cell.addr) (right.map Cell.addr))
      · exact (nextOf_link_of_ne hp).trans
          ((nextOf_link_of_ne hx).trans (nextOf_update_of_ne hx _))
      · exact (prevOf_link_of_ne hx).trans
          ((prevOf_link_of_ne hn).trans (prevOf_update_of_ne hx _))
  case apart =>
    intro R y hR hy
    rcases List.mem_cons.mp hR with rfl | hR
    · have hy' : y = x ∨ y ∈ left.reverse ++ right := by
        simp only [List.mem_append, List.mem_cons] at hy ⊢
        tauto
      rcases hy' with rfl | hy
      · exact hne
      · exact h.apart (R := ⟨r, g, left.reverse ++ right⟩) List.mem_cons_self hy
    · exact h.apart (List.mem_cons_of_mem _ hR) hy

theorem GoodKey.update {k : ℕ} (h : st.GoodKey k) (r : ℕ) (X : Rule) {symbols : ℕ → Option Symbol}
    {slots : ℕ → ℕ} {numRules : ℤ} {used : ℕ} :
    Store.GoodKey ⟨symbols, Function.update st.rules r (some X), slots, numRules, used⟩ k := by
  rcases h with h | ⟨X', hX'⟩
  · exact Or.inl h
  · by_cases hk : k = r
    · exact Or.inr ⟨X, hk ▸ Function.update_self ..⟩
    · exact Or.inr ⟨X', (Function.update_of_ne hk _ _).trans hX'⟩

/-- The address of a rule to come is the key of no symbol. -/
theorem key_ne (h : st.Layout bias rows) (hrule : st.rules r = none) (huser : userAddress r = true)
    (hx : x ∈ cells rows) : x.key ≠ r := by
  rintro rfl
  rcases h.key hx with ⟨hodd, -⟩ | ⟨X, hX⟩
  · have := userAddress_iff.mp huser
    omega
  · rw [hrule] at hX
    cases hX

theorem refsOf_eq_zero (h : st.Layout bias rows) (hrule : st.rules r = none)
    (huser : userAddress r = true) : refsOf rows r = 0 := by
  refine List.count_eq_zero.mpr fun hmem => ?_
  obtain ⟨x, hx, hk⟩ := List.mem_map.mp hmem
  obtain ⟨R, hR, hx⟩ := List.mem_flatMap.mp hx
  exact h.key_ne hrule huser (mem_cells_of_body hR hx) hk

/-- **A rule without symbols is made.** -/
theorem newRow (h : st.Layout bias rows) (hrule : st.rules r = none) (huser : userAddress r = true)
    (hguard : st.symbols g = none) (huser' : userAddress g = true) (numRules : ℤ) (used : ℕ) :
    Store.Layout { st with
      symbols := Function.update st.symbols g (some ⟨g, g, r, r / 2⟩)
      rules := Function.update st.rules r (some ⟨g, bias, 0⟩)
      numRules := numRules
      used := used } bias (⟨r, g, []⟩ :: rows) := by
  have hself : Function.update st.symbols g (some ⟨g, g, r, r / 2⟩) g = some ⟨g, g, r, r / 2⟩ :=
    Function.update_self ..
  have hlive : ∀ {y}, y ∈ cells rows → y.addr ≠ g := by
    rintro y hy rfl
    obtain ⟨s, hs, -⟩ := h.exists_symbol hy
    rw [hguard] at hs
    cases hs
  have hold : ∀ {R}, R ∈ rows → R.rule ≠ r := by
    rintro R hR rfl
    rw [(h.rule hR).2] at hrule
    cases hrule
  have hcells : cells (⟨r, g, []⟩ :: rows) = ⟨g, r⟩ :: cells rows := rfl
  have hrefs : ∀ k, refsOf (⟨r, g, []⟩ :: rows) k = refsOf rows k := fun _ => rfl
  refine ⟨?nodup, ?rule_nodup, ?rule, ?rule_only, ?cell, ?cell_only, ?key, ?ring, ?apart⟩
  case nodup =>
    rw [hcells, List.map_cons, List.nodup_cons]
    refine ⟨fun hmem => ?_, h.nodup⟩
    obtain ⟨y, hy, haddr⟩ := List.mem_map.mp hmem
    exact hlive hy haddr
  case rule_nodup =>
    rw [List.map_cons, List.nodup_cons]
    refine ⟨fun hmem => ?_, h.rule_nodup⟩
    obtain ⟨R, hR, hr⟩ := List.mem_map.mp hmem
    exact hold hR hr
  case rule =>
    intro R hR
    rw [hrefs]
    rcases List.mem_cons.mp hR with rfl | hR
    · rw [h.refsOf_eq_zero hrule huser]
      refine ⟨huser, (Function.update_self ..).trans ?_⟩
      simp
    · exact ⟨(h.rule hR).1, (Function.update_of_ne (hold hR) _ _).trans (h.rule hR).2⟩
  case rule_only =>
    intro k X hX
    rw [List.exists_mem_cons_iff]
    by_cases hk : k = r
    · exact Or.inl hk.symm
    · exact Or.inr (h.rule_only ((Function.update_of_ne hk _ _).symm.trans hX))
  case cell =>
    intro y hy
    rcases List.mem_cons.mp (hcells ▸ hy) with rfl | hy
    · exact ⟨huser', _, _, hself⟩
    · obtain ⟨huser, n, p, hs⟩ := h.cell hy
      exact ⟨huser, n, p, (Function.update_of_ne (hlive hy) _ _).trans hs⟩
  case cell_only =>
    intro a s hs
    rw [hcells, List.exists_mem_cons_iff]
    by_cases ha : a = g
    · exact Or.inl ha.symm
    · exact Or.inr (h.cell_only ((Function.update_of_ne ha _ _).symm.trans hs))
  case key =>
    intro y hy
    rcases List.mem_cons.mp (hcells ▸ hy) with rfl | hy
    · exact Or.inr ⟨_, Function.update_self ..⟩
    · exact GoodKey.update (h.key hy) r _
  case ring =>
    intro R hR
    rcases List.mem_cons.mp hR with rfl | hR
    · exact isRing_nil.mpr ⟨congrArg _ hself, congrArg _ hself⟩
    · refine (h.ring hR).congr (fun a ha => ?_) fun a ha => ?_
      all_goals
        obtain ⟨y, hy, rfl⟩ := mem_addrs.mp ha
        have hy := hlive (mem_cells.mpr ⟨R, hR, hy⟩)
      · exact nextOf_update_of_ne hy _
      · exact prevOf_update_of_ne hy _
  case apart =>
    intro R y hR hy
    rcases List.mem_cons.mp hR with rfl | hR
    · cases hy
    · exact h.apart hR hy

end Store.Layout

/-! ## The operations -/

section Operations

variable (cfg : Config) {T : Index ℕ ℕ} {r g : ℕ} {left right : List Cell}

/-- **A symbol is destroyed.** -/
theorem ensures_destroy (h : st.Layout bias (⟨r, g, left.reverse ++ x :: right⟩ :: rows))
    (hT : st.Table T) :
    Ensures outside (destroySymbol cfg x.addr) st fun _ st' =>
      st'.Layout bias (⟨r, g, left.reverse ++ right⟩ :: rows) ∧ st'.symbols x.addr = none
        ∧ st'.used = st.used ∧ st'.numRules = st.numRules ∧ st'.Table (runAll (unlinkEdits st.keyOf
          (left.map Cell.addr).tail.head? (left.map Cell.addr).head? x.addr
          (right.map Cell.addr).head? (right.map Cell.addr).tail.head?) T) := by
  have hcut : st.Layout bias (⟨r, g, (x :: left).reverse ++ right⟩ :: rows) := by
    rwa [List.reverse_cons, List.append_assoc]
  obtain ⟨q, hq, -, -, hqp⟩ := h.symbol_before
  obtain ⟨b, hb, hbn⟩ := hcut.symbol_behind
  have hg : ¬ st.IsGuard x.addr := h.not_isGuard List.mem_cons_self (by simp)
  have hbefore : ∀ u v, unlinkEdits st.keyOf (st.item q.p) (left.map Cell.addr).head? x.addr u v
      = unlinkEdits st.keyOf (left.map Cell.addr).tail.head? (left.map Cell.addr).head? x.addr u
        v := by
    intro u v
    cases left with
    | nil => exact unlinkEdits_none_left ..
    | cons y left => rw [hqp (List.cons_ne_nil _ _)]
  have hbehind : ∀ u v, unlinkEdits st.keyOf u v x.addr (right.map Cell.addr).head? (st.item b.n)
      = unlinkEdits st.keyOf u v x.addr (right.map Cell.addr).head?
        (right.map Cell.addr).tail.head? := by
    intro u v
    cases right with
    | nil => exact unlinkEdits_none_right ..
    | cons y right => rw [hbn (List.cons_ne_nil _ _)]
  refine (h.linked.ensures_destroySymbol cfg hT h.symbol_body hq hb hg).mono ?_
  rintro - _ ⟨slots, rfl, hT'⟩
  rw [h.item_before, hcut.item_behind, hbefore, hbehind] at hT'
  exact ⟨h.remove slots, Function.update_self .., rfl, rfl, hT'⟩

/-- **A symbol is put into the first row.** -/
theorem ensures_insert (h : st.Layout bias (⟨r, g, left.reverse ++ right⟩ :: rows))
    (hT : st.Table T) (hnew : st.symbols x.addr = none) (huser : userAddress x.addr = true)
    (hkey : st.GoodKey x.key) (hne : x.key ≠ r) :
    Ensures outside (insertAfter cfg (before g (left.map Cell.addr)) x.addr)
      (st.withSymbol x.addr x.key) fun _ st' =>
      st'.Layout bias (⟨r, g, left.reverse ++ x :: right⟩ :: rows) ∧ st'.used = st.used + 1
        ∧ st'.numRules = st.numRules ∧ st'.Table (runAll (linkEdits st.keyOf
          (left.map Cell.addr).tail.head? (left.map Cell.addr).head?
          (right.map Cell.addr).head?) T) := by
  obtain ⟨s, hs, hsn, hsk, hsp⟩ := h.symbol_before
  have hbefore : ∀ u, linkEdits st.keyOf (st.item s.p) (left.map Cell.addr).head? u
      = linkEdits st.keyOf (left.map Cell.addr).tail.head? (left.map Cell.addr).head? u := by
    intro u
    cases left with
    | nil => exact (linkEdits_none_left ..).trans (linkEdits_none_left ..).symm
    | cons y left => rw [hsp (List.cons_ne_nil _ _)]
  refine (ensures_insertAfter cfg h.linked hT hnew huser hkey hs fun hg => ?_).mono ?_
  · cases left with
    | nil => exact hsk rfl ▸ hne
    | cons y left => exact absurd hg (h.not_isGuard List.mem_cons_self (by simp))
  · rintro - _ ⟨slots, rfl, hT'⟩
    rw [hsn, h.item_before, h.item_behind, hbefore] at hT'
    rw [hsn]
    exact ⟨h.insert hnew huser hkey hne slots, rfl, rfl, hT'⟩

/-- A guard that is new is in no entry of the table. -/
theorem Store.Table.newRow (hT : st.Table T) (hguard : st.symbols g = none) (s : Symbol) (c : ℤ)
    (numRules : ℤ) (used : ℕ) :
    Store.Table { st with
      symbols := Function.update st.symbols g (some s)
      rules := Function.update st.rules r (some ⟨g, c, 0⟩)
      numRules := numRules
      used := used } T where
  holds := hT.holds
  entry {d a} hd := by
    obtain ⟨s', t, hs, ht, hkey, hg, hg'⟩ := hT.entry hd
    have hne : ∀ {b u}, st.symbols b = some u → b ≠ g := by
      rintro b u hb rfl
      rw [hguard] at hb
      cases hb
    have hguards : ∀ {b u}, st.symbols b = some u → ¬ st.IsGuard b →
        ¬ ∃ r' X, Function.update st.rules r (some ⟨g, c, 0⟩) r' = some X ∧ X.guard = b := by
      rintro b u hb hgb ⟨r', X, hX, rfl⟩
      by_cases hr : r' = r
      · rw [hr, Function.update_self, Option.some.injEq] at hX
        exact hne hb (hX ▸ rfl)
      · rw [Function.update_of_ne hr] at hX
        exact hgb ⟨r', X, hX, rfl⟩
    exact ⟨s', t, (Function.update_of_ne (hne hs) _ _).trans hs,
      (Function.update_of_ne (hne ht) _ _).trans ht, hkey, hguards hs hg, hguards ht hg'⟩

/-- The last part of `genRule`. -/
theorem ensures_closeRule {Q : ℕ → Store → Prop} (hrule : st.rules r = some ⟨0, 1, 0⟩)
    (hguard : st.symbols g = some ⟨0, 0, r, r / 2⟩)
    (hQ : Q r { st with
      symbols := Function.update st.symbols g (some ⟨g, g, r, r / 2⟩)
      rules := Function.update st.rules r (some ⟨g, cfg.bias, 0⟩) }) :
    Ensures outside (do
      modifyRule r fun R => { R with guard := g }
      join cfg g g
      match cfg.program with
      | .tadoc => return r
      | .sequitur =>
        modifyRule r fun R => { R with count := 0, index := 0 }
        return r) st Q := by
  have hlink : link st.symbols g g = Function.update st.symbols g (some ⟨g, g, r, r / 2⟩) := by
    simp [link, setPrev, setNext, hguard]
  rw [ensures_bind, ensures_modifyRule hrule, ensures_bind, join, ensures_bind]
  have hguard' : Store.symbols { st with rules := Function.update st.rules r (some ⟨g, 1, 0⟩) } g
      = some ⟨0, 0, r, r / 2⟩ := hguard
  refine (ensures_leave_null cfg hguard' rfl g).mpr ((ensures_link hguard' hguard').mpr ?_)
  rw [hlink]
  unfold Config.bias at hQ
  cases hprog : cfg.program with
  | tadoc =>
    rw [hprog] at hQ
    exact hQ
  | sequitur =>
    rw [hprog] at hQ
    simp only
    rw [ensures_bind]
    refine (ensures_modifyRule (Function.update_self ..)).mpr ?_
    simp only [Function.update_idem]
    exact hQ

/-- **A rule is made.** -/
theorem ensures_genRule (h : st.Layout cfg.bias rows) (hT : st.Table T) :
    Ensures outside (genRule cfg) st fun r st' => r = cfg.address st.used
      ∧ st'.Layout cfg.bias (⟨r, cfg.address (st.used + 1), []⟩ :: rows) ∧ st'.used = st.used + 2
      ∧ st'.numRules = st.numRules + 1 ∧ st'.Table T := by
  rw [genRule, ensures_bind]
  refine ensures_malloc cfg fun huser hsym hrule => ?_
  rw [ensures_bind, ensures_modify, ensures_bind, storeRule, ensures_modify, ensures_bind]
  refine ensures_genSymbol2 cfg (R := ⟨0, 0, 0⟩) (Function.update_self ..) ?_
  rintro g hg huser' hguard -
  refine ensures_closeRule cfg ?_ Store.withSymbol_self ?_
  · simp [Store.withSymbol, Store.counted]
  · refine ⟨rfl, ?_, rfl, rfl, ?_⟩
    all_goals
      rw [hg] at huser' hguard ⊢
      simp only [Store.withSymbol, Store.counted, Function.update_idem]
    · exact h.newRow hrule huser hguard huser' _ _
    · exact hT.newRow hguard _ _ _ _

end Operations

end GrammarHeap
