import Mathlib.Data.List.Basic
import Mathlib.Data.Int.Order.Basic

/-!
# Three-way comparison of sequences

A comparison function in C returns a number whose sign is the answer. Here the
answer is an `Ordering`, the sequences are compared with `List.compareLex`, and
`sign` turns the answer into the number, always `-1`, `0` or `1`.

The elements are compared by a value `val`, which is injective in every use:
elements of equal value are equal, so the first difference of two sequences
decides.
-/

namespace TextOrder

/-- The number that stands for an ordering. -/
def sign : Ordering → ℤ
  | .lt => -1
  | .eq => 0
  | .gt => 1

theorem sign_swap (o : Ordering) : sign o.swap = -sign o := by
  cases o <;> rfl

theorem sign_injective {o o' : Ordering} (h : sign o = sign o') : o = o' := by
  cases o <;> cases o' <;> first | rfl | cases h

variable {α : Type} (val : α → ℤ)

/-- The lexicographic comparison of two sequences by the values of their
elements. -/
def textOrder (l r : List α) : Ordering := List.compareLex (compareOn val) l r

/-- Comparing the other way round gives the opposite answer. -/
theorem textOrder_swap (l r : List α) : textOrder val r l = (textOrder val l r).swap :=
  @Std.OrientedCmp.eq_swap _ (List.compareLex (compareOn val)) inferInstance r l

@[simp] theorem textOrder_nil_nil : textOrder val [] [] = .eq := List.compareLex_nil_nil

theorem textOrder_nil_left {r : List α} (h : r ≠ []) : textOrder val [] r = .lt := by
  obtain ⟨y, ys, rfl⟩ := List.exists_cons_of_ne_nil h
  exact List.compareLex_nil_cons

theorem textOrder_nil_right {l : List α} (h : l ≠ []) : textOrder val l [] = .gt := by
  obtain ⟨x, xs, rfl⟩ := List.exists_cons_of_ne_nil h
  exact List.compareLex_cons_nil

/-- **Equal heads can be left out.** -/
@[simp] theorem textOrder_cons_self (x : α) (l r : List α) :
    textOrder val (x :: l) (x :: r) = textOrder val l r := by
  unfold textOrder
  rw [List.compareLex_cons_cons, show compareOn val x x = .eq from Std.ReflCmp.compare_self]
  rfl

/-- **A common beginning can be left out.** -/
theorem textOrder_append_left (p l r : List α) :
    textOrder val (p ++ l) (p ++ r) = textOrder val l r := by
  induction p with
  | nil => rfl
  | cons x p ih => rw [List.cons_append, List.cons_append, textOrder_cons_self, ih]

/-- **The first difference decides.** -/
theorem textOrder_cons_of_ne {x y : α} (hxy : val x ≠ val y) (l r : List α) :
    textOrder val (x :: l) (y :: r) = compare (val x) (val y) := by
  unfold textOrder
  rw [List.compareLex_cons_cons]
  show (compare (val x) (val y)).then _ = _
  cases h : compare (val x) (val y) with
  | lt => rfl
  | eq => exact absurd (Int.compare_eq_eq.mp h) hxy
  | gt => rfl

variable {val}

/-- Unless `u` begins `l`, what follows `u` on the right makes no difference. -/
theorem textOrder_append_of_not_begins (hval : Function.Injective val) {l u : List α} (v : List α)
    (h : ¬ u <+: l) : textOrder val l (u ++ v) = textOrder val l u := by
  induction u generalizing l with
  | nil => exact absurd List.nil_prefix h
  | cons y u ih =>
    cases l with
    | nil => rfl
    | cons x l =>
      rw [List.cons_append]
      by_cases hxy : x = y
      · subst hxy
        rw [textOrder_cons_self, textOrder_cons_self]
        exact ih fun hpre => h (List.cons_prefix_cons.mpr ⟨rfl, hpre⟩)
      · have hne : val x ≠ val y := fun heq => hxy (hval heq)
        rw [textOrder_cons_of_ne val hne, textOrder_cons_of_ne val hne]

/-- **When the end of a text may be cut off on the right of a comparison**: what
is left of it does not begin the other text, or the other text is the greater
anyway. -/
theorem textOrder_append_eq_iff (hval : Function.Injective val) (l u : List α) {v : List α}
    (hv : v ≠ []) :
    textOrder val l u = textOrder val l (u ++ v)
      ↔ ¬ u <+: l ∨ textOrder val l (u ++ v) = .gt := by
  by_cases hpre : u <+: l
  · obtain ⟨e, rfl⟩ := hpre
    have hcut : textOrder val (u ++ e) u = textOrder val e [] := by
      have h := textOrder_append_left val u e []
      rwa [List.append_nil] at h
    rw [hcut, textOrder_append_left, or_iff_right (not_not.mpr (List.prefix_append u e))]
    cases e with
    | nil => rw [textOrder_nil_left val hv, textOrder_nil_nil]; decide
    | cons x e => rw [textOrder_nil_right val (List.cons_ne_nil x e), eq_comm]
  · exact iff_of_true (textOrder_append_of_not_begins hval v hpre).symm (Or.inl hpre)

end TextOrder
