import Hoco.HocotextCompare

/-!
# The aggregates min and max

`min` and `max` are declared with one function each, which serves to bring the
next row into a partial result and to combine two partial results:
`hocotext_smaller` and `hocotext_larger`. The server decides in which order the
rows come, how they are divided among its processes, and in which order the
partial results are combined. All of these are binary trees with the rows at
their leaves, and the result should not depend on the tree.

`hocotext_smaller` returns one of its operands, the *right* one if the two are
equal, so which datum comes out of a tie does depend on the tree. Its text does
not: comparison is a total preorder on the datums and an order on their texts,
and what comes out of any tree is one of the leaves and a least one.
-/

open TextOrder

/-! ## Trees of partial results -/

/-- **How rows are aggregated**: one row, or two partial results combined. -/
inductive Aggregation (α : Type) where
  | row (a : α)
  | combine (left right : Aggregation α)

namespace Aggregation

variable {α β : Type}

/-- The rows, in the order of the leaves. -/
def rows : Aggregation α → List α
  | row a => [a]
  | combine left right => left.rows ++ right.rows

/-- The result, when the rows are represented by `rep` and `f` combines. -/
def run (f : β → β → Run β) (rep : α → β) : Aggregation α → Run β
  | row a => .ok (rep a)
  | combine left right => do f (← left.run f rep) (← right.run f rep)

/-- **A function that returns the better one of two operands gives the best one of
all the rows**, in whatever tree. -/
theorem exists_run_eq {f : β → β → Run β} {rep : α → β} {le : α → α → Prop}
    (refl : ∀ a, le a a) (trans : ∀ {a b c}, le a b → le b c → le a c)
    (step : ∀ a b, ∃ c, (c = a ∨ c = b) ∧ f (rep a) (rep b) = .ok (rep c) ∧ le c a ∧ le c b)
    (t : Aggregation α) :
    ∃ c ∈ t.rows, t.run f rep = .ok (rep c) ∧ ∀ a ∈ t.rows, le c a := by
  induction t with
  | row a =>
    refine ⟨a, List.mem_singleton_self a, rfl, fun b hb => ?_⟩
    rw [List.mem_singleton.mp hb]
    exact refl a
  | combine left right ihl ihr =>
    obtain ⟨a, ha, hleft, hla⟩ := ihl
    obtain ⟨b, hb, hright, hlb⟩ := ihr
    obtain ⟨c, hc, hrun, hca, hcb⟩ := step a b
    refine ⟨c, ?_, by rw [run, hleft, hright]; exact hrun, fun d hd => ?_⟩
    · rw [rows, List.mem_append]
      rcases hc with rfl | rfl
      · exact Or.inl ha
      · exact Or.inr hb
    · rcases List.mem_append.mp hd with hd | hd
      · exact trans hca (hla d hd)
      · exact trans hcb (hlb d hd)

end Aggregation

/-! ## Comparison is an order -/

namespace Server

variable (sv : Server)

theorem order_self (t : List UInt8) : sv.order t t = .eq :=
  @Std.ReflCmp.compare_self _ (List.compareLex (compareOn sv.charVal)) inferInstance t

theorem isLE_order_trans {t u v : List UInt8} (htu : (sv.order t u).isLE)
    (huv : (sv.order u v).isLE) : (sv.order t v).isLE :=
  @Std.TransCmp.isLE_trans _ (List.compareLex (compareOn sv.charVal)) inferInstance t u v htu huv

theorem isLE_order_iff (t u : List UInt8) : (sv.order t u).isLE ↔ sv.order t u ≠ .gt := by
  cases sv.order t u <;> decide

/-- The same comparison, made the other way round. -/
theorem isLE_order_swap_iff (t u : List UInt8) : (sv.order u t).isLE ↔ sv.order t u ≠ .lt := by
  rw [order, textOrder_swap, order]
  cases textOrder sv.charVal t u <;> decide

/-- Texts that compare as equal are equal. -/
theorem eq_of_order_eq {t u : List UInt8} (h : sv.order t u = .eq) : t = u := by
  have : Std.LawfulEqCmp (compareOn sv.charVal) :=
    { compare_self := Std.ReflCmp.compare_self
      eq_of_compare := fun {a b} hab => sv.charVal_injective (Int.compare_eq_eq.mp hab) }
  exact @Std.LawfulEqCmp.eq_of_compare _ (List.compareLex (compareOn sv.charVal)) inferInstance t u h

end Server

/-! ## Stored values -/

/-- A value, and what lies behind its datum in memory. -/
structure StoredValue where
  value : HocoValue
  rest : Mem

namespace StoredValue

variable (sv : Server)

/-- The text of a stored value. -/
abbrev text (x : StoredValue) : List UInt8 := x.value.text

/-- The memory a stored value is passed as. -/
def mem (x : StoredValue) : Mem := x.value.datum sv ++ x.rest

variable {sv} {collid : Oid} (hcol : collid ≠ 0)

include hcol

theorem hocotextCmp_eq (x y : StoredValue) :
    sv.hocotextCmp (x.mem sv) (y.mem sv) collid = .ok (sign (sv.order x.text y.text)) := by
  rw [Server.hocotextCmp, mem, mem, HocoValue.dispatchCmp_eq sv x.value y.value x.rest y.rest hcol]
  rfl

theorem hocotextSmaller_eq (x y : StoredValue) :
    sv.hocotextSmaller (x.mem sv) (y.mem sv) collid
      = .ok ((if sv.order x.text y.text = .lt then x else y).mem sv) := by
  rw [Server.hocotextSmaller, mem, mem,
    HocoValue.dispatchCmp_eq sv x.value y.value x.rest y.rest hcol, Run.ok_bind]
  cases sv.order x.text y.text <;> rfl

theorem hocotextLarger_eq (x y : StoredValue) :
    sv.hocotextLarger (x.mem sv) (y.mem sv) collid
      = .ok ((if sv.order x.text y.text = .gt then x else y).mem sv) := by
  rw [Server.hocotextLarger, mem, mem,
    HocoValue.dispatchCmp_eq sv x.value y.value x.rest y.rest hcol, Run.ok_bind]
  cases sv.order x.text y.text <;> rfl

end StoredValue

/-! ## Least and greatest -/

namespace Server

variable (sv : Server)

/-- **The result of an aggregation with `f`**: one of the rows, whose comparison
with every row has a `good` outcome, and with the text that every other order
and tree of the same rows gives. -/
def Selects (f : Mem → Mem → Run Mem) (good : ℤ → Prop) (collid : Oid)
    (t : Aggregation StoredValue) : Prop :=
  ∃ x ∈ t.rows, t.run f (StoredValue.mem sv) = .ok (x.mem sv)
    ∧ (∀ y ∈ t.rows, ∃ c, sv.hocotextCmp (x.mem sv) (y.mem sv) collid = .ok c ∧ good c)
    ∧ ∀ u : Aggregation StoredValue, u.rows.Perm t.rows →
        ∃ y ∈ u.rows, u.run f (StoredValue.mem sv) = .ok (y.mem sv) ∧ y.text = x.text

variable {sv} {collid : Oid} {f : Mem → Mem → Run Mem} {good : ℤ → Prop}

/-- What a combining function has to do for its aggregations to be independent
of order and tree. -/
theorem selects_of_step {le : StoredValue → StoredValue → Prop} (refl : ∀ x, le x x)
    (trans : ∀ {x y z}, le x y → le y z → le x z)
    (antisymm : ∀ {x y}, le x y → le y x → x.text = y.text)
    (step : ∀ x y, ∃ z, (z = x ∨ z = y) ∧ f (x.mem sv) (y.mem sv) = .ok (z.mem sv)
      ∧ le z x ∧ le z y)
    (cmp : ∀ {x y}, le x y → ∃ c, sv.hocotextCmp (x.mem sv) (y.mem sv) collid = .ok c ∧ good c)
    (t : Aggregation StoredValue) : sv.Selects f good collid t := by
  obtain ⟨x, hx, hrun, hle⟩ := t.exists_run_eq refl trans step
  refine ⟨x, hx, hrun, fun y hy => cmp (hle y hy), fun u hperm => ?_⟩
  obtain ⟨y, hy, hrun', hle'⟩ := u.exists_run_eq refl trans step
  exact ⟨y, hy, hrun', antisymm (hle' x (hperm.mem_iff.mpr hx)) (hle y (hperm.mem_iff.mp hy))⟩

theorem isLE_order_antisymm {x y : StoredValue} (hxy : (sv.order x.text y.text).isLE)
    (hyx : (sv.order y.text x.text).isLE) : x.text = y.text := by
  rw [isLE_order_iff] at hxy
  rw [isLE_order_swap_iff] at hyx
  refine sv.eq_of_order_eq ?_
  cases ho : sv.order x.text y.text with
  | lt => exact absurd ho hyx
  | eq => rfl
  | gt => exact absurd ho hxy

theorem isLE_order_self (x : StoredValue) : (sv.order x.text x.text).isLE := by
  rw [sv.order_self]
  rfl

/-- **`min` and `max` do not depend on the order of the rows nor on how they are
divided and combined.** Whatever the tree, the result is one of the rows, it
compares as less than or equal to every row, respectively as greater than or
equal, and every other tree of the same rows in any order gives a result with
the same text. -/
theorem selects_hocotextSmaller_hocotextLarger (sv : Server) (t : Aggregation StoredValue)
    (collid : Oid) (hcol : collid ≠ 0) :
    sv.Selects (fun left right => sv.hocotextSmaller left right collid) (· ≤ 0) collid t
      ∧ sv.Selects (fun left right => sv.hocotextLarger left right collid) (0 ≤ ·) collid t := by
  constructor
  · refine @selects_of_step sv collid _ _ (fun x y => (sv.order x.text y.text).isLE)
      isLE_order_self sv.isLE_order_trans isLE_order_antisymm (fun x y => ?_) (fun {x y} hle => ?_) t
    · refine ⟨_, ?_, StoredValue.hocotextSmaller_eq hcol x y, ?_⟩
      · split
        · exact Or.inl rfl
        · exact Or.inr rfl
      · split
        · rename_i hlt
          exact ⟨isLE_order_self x, by rw [hlt]; rfl⟩
        · rename_i hge
          exact ⟨(sv.isLE_order_swap_iff _ _).mpr hge, isLE_order_self y⟩
    · refine ⟨_, StoredValue.hocotextCmp_eq hcol x y, ?_⟩
      have hgt := (sv.isLE_order_iff _ _).mp hle
      cases ho : sv.order x.text y.text with
      | lt => decide
      | eq => decide
      | gt => exact absurd ho hgt
  · refine @selects_of_step sv collid _ _ (fun x y => (sv.order y.text x.text).isLE)
      isLE_order_self (fun hxy hyz => sv.isLE_order_trans hyz hxy)
      (fun hxy hyx => (isLE_order_antisymm hxy hyx).symm) (fun x y => ?_) (fun {x y} hle => ?_) t
    · refine ⟨_, ?_, StoredValue.hocotextLarger_eq hcol x y, ?_⟩
      · split
        · exact Or.inl rfl
        · exact Or.inr rfl
      · split
        · rename_i hgt
          exact ⟨isLE_order_self x, (sv.isLE_order_swap_iff _ _).mpr (by rw [hgt]; decide)⟩
        · rename_i hle
          exact ⟨(sv.isLE_order_iff _ _).mpr hle, isLE_order_self y⟩
    · refine ⟨_, StoredValue.hocotextCmp_eq hcol x y, ?_⟩
      have hlt := (sv.isLE_order_swap_iff _ _).mp hle
      cases ho : sv.order x.text y.text with
      | lt => exact absurd ho hlt
      | eq => decide
      | gt => decide

/-- The smaller and the larger of a run and a plain text. -/
theorem selects_hocotextSmaller_hocotextLarger_two :
    (100 : Oid) ≠ 0 ∧ littleEndian.Selects
      (fun left right => littleEndian.hocotextSmaller left right 100) (· ≤ 0) 100
      (.combine (.row ⟨.rle [.run 97 0] (by decide) (by decide) (by decide), []⟩)
        (.row ⟨.plain [98] (by decide), []⟩)) :=
  ⟨by decide, (selects_hocotextSmaller_hocotextLarger littleEndian _ 100 (by decide)).1⟩

end Server
