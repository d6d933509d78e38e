import Mathlib.Data.List.Nodup
import Mathlib.Data.List.Range

/-!
# Lists of the most recent positions

An index over the last `size` of `n` positions keeps, for each key, the list of
the positions with that key, the newest first (`recent`). When a position is
added, the oldest one leaves the window: it is the last item of the list of its
own key, and the new one becomes the first of the list of its.

Stored as nodes with a link to the next and to the previous one, such a list is
**linked** (`Linked`): it starts at a node, ends at a sentinel that is never
visited, and the links back agree. The two changes are a matter of a few links
(`Linked.unlink_last`, `Linked.push`), and a list does not notice what happens to
nodes that are not its own (`Linked.congr`).
-/

namespace RecencyLists

/-! ## Linked lists that end in a sentinel -/

section Linked

variable {ι : Type} {next prev next' prev' : ι → Option ι} {nil i x : ι} {before : Option ι}
  {xs : List ι}

/-- **The nodes from `i` on are `xs`**, and `before` is what the first of them
links back to. -/
def Linked (next prev : ι → Option ι) (nil : ι) : Option ι → ι → List ι → Prop
  | _, i, [] => i = nil
  | before, i, x :: xs =>
    i = x ∧ x ≠ nil ∧ prev x = before
      ∧ ∃ j, next x = some j ∧ Linked next prev nil (some x) j xs

namespace Linked

/-- A list depends on the links of its own nodes only. -/
theorem congr (h : Linked next prev nil before i xs) (hnext : ∀ z ∈ xs, next' z = next z)
    (hprev : ∀ z ∈ xs, prev' z = prev z) : Linked next' prev' nil before i xs := by
  induction xs generalizing before i with
  | nil => exact h
  | cons x xs ih =>
    obtain ⟨hi, hx, hb, j, hj, htail⟩ := h
    refine ⟨hi, hx, (hprev x List.mem_cons_self).trans hb, j,
      (hnext x List.mem_cons_self).trans hj, ?_⟩
    exact ih htail (fun z hz => hnext z (List.mem_cons_of_mem x hz))
      (fun z hz => hprev z (List.mem_cons_of_mem x hz))

/-- Where a list starts. -/
theorem start_cases (h : Linked next prev nil before i xs) : i = nil ∨ i ∈ xs := by
  cases xs with
  | nil => exact Or.inl h
  | cons x xs => exact Or.inr (h.1 ▸ List.mem_cons_self)

/-- The links of the last node. -/
theorem links_last (h : Linked next prev nil before i (xs ++ [x])) :
    prev x = xs.getLast?.or before ∧ next x = some nil := by
  induction xs generalizing before i with
  | nil =>
    obtain ⟨-, -, hb, j, hj, rfl⟩ := h
    exact ⟨hb, hj⟩
  | cons y xs ih =>
    obtain ⟨-, -, -, j, -, htail⟩ := h
    obtain ⟨hprev, hnext⟩ := ih htail
    refine ⟨hprev.trans ?_, hnext⟩
    rw [List.getLast?_cons]
    cases xs.getLast? <;> rfl

/-- **Taking the last node out**: the node before it becomes the last one. -/
theorem unlink_last [DecidableEq ι] (h : Linked next prev nil before i (xs ++ [x])) (hne : xs ≠ [])
    (hnodup : xs.Nodup)
    (hnext : ∀ z ∈ xs, next' z = if xs.getLast? = some z then some nil else next z)
    (hprev : ∀ z ∈ xs, prev' z = prev z) : Linked next' prev' nil before i xs := by
  induction xs generalizing before i with
  | nil => exact absurd rfl hne
  | cons y xs ih =>
    obtain ⟨hi, hy, hb, j, hj, htail⟩ := h
    refine ⟨hi, hy, (hprev y List.mem_cons_self).trans hb, ?_⟩
    rw [hnext y List.mem_cons_self]
    cases xs with
    | nil => exact ⟨nil, if_pos rfl, rfl⟩
    | cons z zs =>
      have hlast : ∀ w, (y :: z :: zs).getLast? = some w ↔ (z :: zs).getLast? = some w := by
        intro w
        rw [List.getLast?_cons_cons]
      have hnot : ¬ (y :: z :: zs).getLast? = some y := by
        intro hy'
        exact (List.nodup_cons.mp hnodup).1 (List.mem_of_getLast? ((hlast y).mp hy'))
      refine ⟨j, (if_neg hnot).trans hj, ih htail (List.cons_ne_nil z zs)
        (List.nodup_cons.mp hnodup).2 (fun w hw => ?_)
        (fun w hw => hprev w (List.mem_cons_of_mem y hw))⟩
      rw [hnext w (List.mem_cons_of_mem y hw)]
      exact if_congr (hlast w) rfl rfl

/-- **Putting a node in front**: the list it is put in front of links back to it. -/
theorem push [DecidableEq ι] (h : Linked next prev nil none i xs) (hx : x ≠ nil) (hnodup : xs.Nodup)
    (hnextx : next' x = some i) (hprevx : prev' x = none)
    (hnext : ∀ z ∈ xs, next' z = next z)
    (hprev : ∀ z ∈ xs, prev' z = if z = i then some x else prev z) :
    Linked next' prev' nil none x (x :: xs) := by
  refine ⟨rfl, hx, hprevx, i, hnextx, ?_⟩
  cases xs with
  | nil => exact h
  | cons y ys =>
    obtain ⟨rfl, hy, -, j, hj, htail⟩ := h
    refine ⟨rfl, hy, (hprev i List.mem_cons_self).trans (if_pos rfl), j,
      (hnext i List.mem_cons_self).trans hj, ?_⟩
    refine htail.congr (fun z hz => hnext z (List.mem_cons_of_mem i hz)) (fun z hz => ?_)
    rw [hprev z (List.mem_cons_of_mem i hz), if_neg]
    rintro rfl
    exact (List.nodup_cons.mp hnodup).1 hz

end Linked

end Linked

/-! ## The recent positions with a key -/

section Recent

variable {κ : Type} [DecidableEq κ] {key : ℕ → κ} {size n p : ℕ} {h : κ}

/-- **The positions with a key among the last `size` of `n`**, the newest first. -/
def recent (key : ℕ → κ) (size n : ℕ) (h : κ) : List ℕ :=
  ((List.range n).drop (n - size)).reverse.filter (fun p => key p = h)

theorem mem_recent : p ∈ recent key size n h ↔ (n - size ≤ p ∧ p < n) ∧ key p = h := by
  rw [recent, List.mem_filter, List.mem_reverse, decide_eq_true_eq, List.range_eq_range',
    List.drop_range', List.mem_range'_1]
  refine and_congr_left fun _ => ?_
  omega

theorem nodup_recent : (recent key size n h).Nodup :=
  ((List.nodup_reverse.mpr (List.nodup_range.sublist (List.drop_sublist _ _))).filter _)

theorem length_recent_le : (recent key size n h).length ≤ size := by
  refine (List.length_filter_le _ _).trans ?_
  rw [List.length_reverse, List.length_drop, List.length_range]
  omega

theorem recent_zero (h : κ) : recent key size 0 h = [] := by
  rw [recent, List.range_zero, List.drop_nil, List.reverse_nil, List.filter_nil]

/-- Before the window is full nothing leaves it. -/
theorem recent_of_le (hn : n ≤ size) (h : κ) :
    recent key (size + 1) n h = recent key size n h := by
  rw [recent, recent, Nat.sub_eq_zero_of_le hn, Nat.sub_eq_zero_of_le (Nat.le_succ_of_le hn)]

/-- **The oldest position of a full window** is the last one of the list of its
key. -/
theorem recent_of_lt (hn : size < n) (h : κ) :
    recent key (size + 1) n h
      = recent key size n h ++ if key (n - (size + 1)) = h then [n - (size + 1)] else [] := by
  have hdrop : (List.range n).drop (n - (size + 1))
      = (n - (size + 1)) :: (List.range n).drop (n - size) := by
    rw [List.drop_eq_getElem_cons (by rw [List.length_range]; omega), List.getElem_range,
      show n - (size + 1) + 1 = n - size by omega]
  rw [recent, hdrop, List.reverse_cons, List.filter_append, recent, List.filter_singleton]
  simp only [Bool.cond_decide]

/-- **A position that is added** becomes the first one of the list of its key. -/
theorem recent_succ (h : κ) :
    recent key (size + 1) (n + 1) h
      = if key n = h then n :: recent key size n h else recent key size n h := by
  rw [recent, List.range_succ, Nat.add_sub_add_right,
    List.drop_append_of_le_length (by rw [List.length_range]; omega), List.reverse_append,
    List.reverse_singleton, List.singleton_append, List.filter_cons, recent]
  simp only [decide_eq_true_eq]

end Recent

end RecencyLists
