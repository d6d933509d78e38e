import Mathlib.Data.List.Chain
import Mathlib.Data.List.Nodup

/-!
# Doubly linked rings

Items with a link to the next and to the previous one, arranged in rings. A ring
is given by its first item, which closes it, and by the list of the others:
`IsRing next prev g body` says that following the links from `g` one meets `body`
and then `g` again, and that the links back agree.

Taking an item out and putting one in between two neighbours is a matter of four
links. The part of a ring before the change is given in reverse, so that its last
item is the head of a list (`before`). What is shown of a change is that the ring
is one for the changed list (`IsRing.insert`, `IsRing.remove`), and that other
rings do not notice (`IsRing.congr`).
-/

namespace LinkedRing

variable {α : Type} {next prev next' prev' : α → Option α} {g x : α} {left right body : List α}

/-- Two items are linked both ways. -/
def Links (next prev : α → Option α) (x y : α) : Prop := next x = some y ∧ prev y = some x

/-- **A ring**: the item `g`, the others, and `g` again. -/
def IsRing (next prev : α → Option α) (g : α) (body : List α) : Prop :=
  (g :: (body ++ [g])).IsChain (Links next prev)

/-- The last item of the part before, given in reverse. -/
def before (g : α) (left : List α) : α := left.head?.getD g

/-- The first item of the part behind. -/
def behind (g : α) (right : List α) : α := right.head?.getD g

theorem before_mem (g : α) (left : List α) : before g left ∈ g :: left := by
  cases left <;> simp [before]

theorem behind_mem (g : α) (right : List α) : behind g right ∈ g :: right := by
  cases right <;> simp [behind]

theorem before_mem_of_ne_nil (g : α) {u : List α} (hu : u ≠ []) (v : List α) :
    before g (u ++ v) ∈ u := by
  cases u with
  | nil => exact absurd rfl hu
  | cons y u => exact List.mem_cons_self

theorem before_mem_cut (g : α) (left right : List α) :
    before g left ∈ g :: (left.reverse ++ right) := by
  have := before_mem g left
  simp only [List.mem_cons, List.mem_append, List.mem_reverse] at this ⊢
  tauto

theorem behind_mem_cut (g : α) (left right : List α) :
    behind g right ∈ g :: (left.reverse ++ right) := by
  have := behind_mem g right
  simp only [List.mem_cons, List.mem_append] at this ⊢
  tauto

theorem exists_append_before (g : α) (left : List α) :
    ∃ u, g :: left.reverse = u ++ [before g left] := by
  cases left with
  | nil => exact ⟨[], rfl⟩
  | cons y left => exact ⟨g :: left.reverse, by simp [before]⟩

theorem exists_behind_cons (g : α) (right : List α) :
    ∃ v, right ++ [g] = behind g right :: v := by
  cases right with
  | nil => exact ⟨[], rfl⟩
  | cons y right => exact ⟨right ++ [g], rfl⟩

/-- A ring cut at one place. -/
theorem isRing_iff_cut :
    IsRing next prev g (left.reverse ++ right) ↔ (g :: left.reverse).IsChain (Links next prev)
      ∧ Links next prev (before g left) (behind g right)
      ∧ (right ++ [g]).IsChain (Links next prev) := by
  obtain ⟨u, hu⟩ := exists_append_before g left
  obtain ⟨v, hv⟩ := exists_behind_cons g right
  rw [IsRing, List.append_assoc, ← List.cons_append, hu, hv, List.append_assoc,
    List.singleton_append, List.isChain_append_cons_cons]

/-- A ring cut on both sides of an item. -/
theorem isRing_iff_around :
    IsRing next prev g (left.reverse ++ x :: right)
      ↔ (g :: left.reverse).IsChain (Links next prev) ∧ Links next prev (before g left) x
        ∧ Links next prev x (behind g right) ∧ (right ++ [g]).IsChain (Links next prev) := by
  obtain ⟨v, hv⟩ := exists_behind_cons g right
  rw [isRing_iff_cut, List.cons_append, hv, List.isChain_cons_cons]
  rfl

/-- The neighbours of an item. -/
theorem IsRing.around (h : IsRing next prev g (left.reverse ++ x :: right)) :
    next x = some (behind g right) ∧ prev x = some (before g left) :=
  ⟨(isRing_iff_around.mp h).2.2.1.1, (isRing_iff_around.mp h).2.1.2⟩

/-- The neighbours of the item that closes the ring. -/
theorem IsRing.closing (h : IsRing next prev g body) :
    next g = some (behind g body) ∧ prev g = some (before g body.reverse) := by
  have hfirst : IsRing next prev g (([] : List α).reverse ++ body) := h
  have hlast : IsRing next prev g (body.reverse.reverse ++ []) := by
    rwa [List.reverse_reverse, List.append_nil]
  exact ⟨(isRing_iff_cut.mp hfirst).2.1.1, (isRing_iff_cut.mp hlast).2.1.2⟩

/-- Every item has a next one. -/
theorem IsRing.exists_next (h : IsRing next prev g body) (hx : x ∈ g :: body) :
    ∃ y ∈ g :: body, Links next prev x y := by
  rcases List.mem_cons.mp hx with rfl | hx
  · have hfirst : IsRing next prev x (([] : List α).reverse ++ body) := h
    exact ⟨_, behind_mem x body, (isRing_iff_cut.mp hfirst).2.1⟩
  · obtain ⟨u, right, rfl⟩ := List.append_of_mem hx
    rw [← List.reverse_reverse u] at h
    refine ⟨_, ?_, (isRing_iff_around.mp h).2.2.1⟩
    have := behind_mem g right
    simp only [List.mem_cons, List.mem_append] at this ⊢
    tauto

/-- Every item has a previous one. -/
theorem IsRing.exists_prev (h : IsRing next prev g body) (hx : x ∈ g :: body) :
    ∃ y ∈ g :: body, Links next prev y x := by
  rcases List.mem_cons.mp hx with rfl | hx
  · have hlast : IsRing next prev x (body.reverse.reverse ++ []) := by
      rwa [List.reverse_reverse, List.append_nil]
    refine ⟨_, ?_, (isRing_iff_cut.mp hlast).2.1⟩
    have := before_mem x body.reverse
    rwa [List.mem_cons, List.mem_reverse, ← List.mem_cons] at this
  · obtain ⟨u, right, rfl⟩ := List.append_of_mem hx
    rw [← List.reverse_reverse u] at h
    refine ⟨_, ?_, (isRing_iff_around.mp h).2.1⟩
    have := before_mem g u.reverse
    simp only [List.mem_cons, List.mem_append, List.mem_reverse] at this ⊢
    tauto

/-- The neighbours of an item are others, and differ unless both close the ring. -/
theorem IsRing.proper (h : IsRing next prev g body) (hnodup : (g :: body).Nodup) (hx : x ∈ body)
    {y z : α} (hy : next x = some y) (hz : prev x = some z) : y ≠ x ∧ z ≠ x ∧ (z = y → y = g) := by
  obtain ⟨u, right, rfl⟩ := List.append_of_mem hx
  rw [← List.reverse_reverse u] at h
  obtain ⟨hn, hp⟩ := h.around
  rw [hy, Option.some.injEq] at hn
  rw [hz, Option.some.injEq] at hp
  have hbefore := before_mem g u.reverse
  have hbehind := behind_mem g right
  rw [← hp, List.mem_cons, List.mem_reverse] at hbefore
  rw [← hn, List.mem_cons] at hbehind
  simp only [List.nodup_cons, List.nodup_append, List.mem_append, List.mem_cons, not_or] at hnodup
  obtain ⟨⟨hgu, hgx, hgr⟩, -, ⟨hxr, -⟩, hdisjoint⟩ := hnodup
  refine ⟨?_, ?_, ?_⟩
  · rintro rfl
    tauto
  · rintro rfl
    rcases hbefore with rfl | hu
    · exact hgx rfl
    · exact hdisjoint _ hu _ (Or.inl rfl) rfl
  · rintro rfl
    rcases hbehind with hg | hr
    · exact hg
    · rcases hbefore with hg | hu
      · exact hg
      · exact absurd rfl (hdisjoint _ hu _ (Or.inr hr))

/-- A ring of one. -/
theorem isRing_nil : IsRing next prev g [] ↔ next g = some g ∧ prev g = some g :=
  List.isChain_pair

/-- **A ring whose links are not touched.** -/
theorem IsRing.congr (h : IsRing next prev g body) (hn : ∀ y ∈ g :: body, next' y = next y)
    (hp : ∀ y ∈ g :: body, prev' y = prev y) : IsRing next' prev' g body := by
  refine List.IsChain.imp_of_mem_imp (fun a b ha hb hab => ?_) h
  have hmem : ∀ {y}, y ∈ g :: (body ++ [g]) → y ∈ g :: body := fun {y} hy => by
    simp only [List.mem_cons, List.mem_append, List.not_mem_nil, or_false] at hy ⊢
    tauto
  exact ⟨(hn a (hmem ha)).trans hab.1, (hp b (hmem hb)).trans hab.2⟩

/-- A chain is one for another relation that agrees on its neighbours, of which the
last item is never the first and the first item never the second. -/
theorem isChain_imp {R S : α → α → Prop} {l : List α} (h : l.IsChain R)
    (hRS : ∀ a ∈ l.dropLast, ∀ b ∈ l.tail, R a b → S a b) : l.IsChain S := by
  induction h with
  | nil => exact .nil
  | singleton a => exact .singleton a
  | cons_cons hab _ ih =>
    refine .cons_cons (hRS _ ?_ _ ?_ hab) (ih fun x hx y hy => hRS x ?_ y ?_)
    · exact List.mem_cons_self
    · exact List.mem_cons_self
    · exact List.mem_cons_of_mem _ hx
    · exact List.mem_of_mem_tail hy

section Change

variable (hnodup : (g :: (left.reverse ++ right)).Nodup)
  (hn : ∀ y ∈ g :: (left.reverse ++ right), y ≠ before g left → next' y = next y)
  (hp : ∀ y ∈ g :: (left.reverse ++ right), y ≠ behind g right → prev' y = prev y)

include hnodup hn hp

/-- The part before the change: only the link behind its last item is touched. -/
theorem isChain_before (h : (g :: left.reverse).IsChain (Links next prev)) :
    (g :: left.reverse).IsChain (Links next' prev') := by
  obtain ⟨u, hu⟩ := exists_append_before g left
  have hparts := List.nodup_append.mp (show ((g :: left.reverse) ++ right).Nodup from hnodup)
  refine isChain_imp h fun a ha b hb hab => ⟨(hn a ?_ ?_).trans hab.1, (hp b ?_ ?_).trans hab.2⟩
  · exact List.mem_append_left right (List.dropLast_subset _ ha)
  · rw [hu, List.dropLast_concat] at ha
    rintro rfl
    rw [hu] at hparts
    exact (List.nodup_append.mp hparts.1).2.2 _ ha _ (List.mem_singleton_self _) rfl
  · exact List.mem_append_left right (List.mem_of_mem_tail hb)
  · rintro rfl
    rcases List.mem_cons.mp (behind_mem g right) with hg | hr
    · rw [hg] at hb
      exact (List.nodup_cons.mp hparts.1).1 hb
    · exact hparts.2.2 _ (List.mem_of_mem_tail hb) _ hr rfl

/-- The part behind the change: only the link before its first item is touched. -/
theorem isChain_behind (h : (right ++ [g]).IsChain (Links next prev)) :
    (right ++ [g]).IsChain (Links next' prev') := by
  obtain ⟨v, hv⟩ := exists_behind_cons g right
  have hparts := List.nodup_append.mp (show ((g :: left.reverse) ++ right).Nodup from hnodup)
  have hmem : ∀ {y}, y ∈ right ++ [g] → y ∈ g :: (left.reverse ++ right) := fun {y} hy => by
    simp only [List.mem_cons, List.mem_append, List.not_mem_nil, or_false] at hy ⊢
    tauto
  have hrotated : (right ++ [g]).Nodup := by
    refine List.nodup_append.mpr ⟨hparts.2.1, List.nodup_singleton g, fun a ha b hb hab => ?_⟩
    rw [List.mem_singleton] at hb
    exact hparts.2.2 g List.mem_cons_self a ha (hab.trans hb).symm
  refine isChain_imp h fun a ha b hb hab => ⟨(hn a ?_ ?_).trans hab.1, (hp b ?_ ?_).trans hab.2⟩
  · exact hmem (List.dropLast_subset _ ha)
  · rw [List.dropLast_concat] at ha
    rintro rfl
    refine hparts.2.2 _ ?_ _ ha rfl
    rcases List.mem_cons.mp (before_mem g left) with hg | hl
    · rw [hg]
      exact List.mem_cons_self
    · exact List.mem_cons_of_mem _ (List.mem_reverse.mpr hl)
  · exact hmem (List.mem_of_mem_tail hb)
  · rw [hv] at hb hrotated
    rintro rfl
    exact (List.nodup_cons.mp hrotated).1 hb

/-- **An item is put in.** -/
theorem IsRing.insert (h : IsRing next prev g (left.reverse ++ right))
    (hbefore : Links next' prev' (before g left) x)
    (hbehind : Links next' prev' x (behind g right)) :
    IsRing next' prev' g (left.reverse ++ x :: right) := by
  obtain ⟨hl, -, hr⟩ := isRing_iff_cut.mp h
  exact isRing_iff_around.mpr
    ⟨isChain_before hnodup hn hp hl, hbefore, hbehind, isChain_behind hnodup hn hp hr⟩

/-- **An item is taken out.** -/
theorem IsRing.remove (h : IsRing next prev g (left.reverse ++ x :: right))
    (hlink : Links next' prev' (before g left) (behind g right)) :
    IsRing next' prev' g (left.reverse ++ right) := by
  obtain ⟨hl, -, -, hr⟩ := isRing_iff_around.mp h
  exact isRing_iff_cut.mpr
    ⟨isChain_before hnodup hn hp hl, hlink, isChain_behind hnodup hn hp hr⟩

end Change

end LinkedRing
