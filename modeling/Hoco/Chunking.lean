import Mathlib.Data.List.Sort
import Mathlib.Algebra.Ring.Int.Defs
import Mathlib.Algebra.Ring.Nat

/-!
# A sequence cut into chunks

A long sequence is stored as chunks of one size, the last one perhaps shorter, each with
its number. `chunks` cuts, `flatten_chunks` says that nothing is lost, and
`flatten_drop_take_chunks` says that a stretch of consecutive chunks is a stretch of the
sequence, which is what makes it possible to read a part without the rest.

The numbered chunks may come back in any order. When the numbers are distinct, sorting
by them has only one outcome (`insertionSort_eq_of_perm`).
-/

namespace Chunking

variable {α : Type}

/-- The chunks of a sequence, cut with `fuel` steps. -/
def chunksFrom (k : ℕ) : ℕ → List α → List (List α)
  | 0, _ => []
  | fuel + 1, l => if l.isEmpty then [] else l.take k :: chunksFrom k fuel (l.drop k)

/-- **The chunks of a sequence.** -/
def chunks (k : ℕ) (l : List α) : List (List α) := chunksFrom k l.length l

section

variable {k : ℕ} (hk : 0 < k)

include hk

theorem chunksFrom_of_le {fuel : ℕ} {l : List α} (h : l.length ≤ fuel) :
    chunksFrom k fuel l = chunks k l := by
  induction fuel using Nat.strong_induction_on generalizing l with
  | _ fuel ih =>
    cases l with
    | nil => cases fuel <;> rfl
    | cons a l =>
      cases fuel with
      | zero => cases h
      | succ fuel =>
        have hdrop : ((a :: l).drop k).length ≤ l.length := by
          rw [List.length_drop, List.length_cons]
          omega
        have hlen : l.length ≤ fuel := Nat.le_of_succ_le_succ h
        rw [chunks, List.length_cons, chunksFrom, chunksFrom, ih fuel (Nat.lt_succ_self _)
          (Nat.le_trans hdrop hlen), ih l.length (by omega) hdrop]

/-- The first chunk, and the others. -/
theorem chunks_of_ne_nil {l : List α} (h : l ≠ []) :
    chunks k l = l.take k :: chunks k (l.drop k) := by
  cases l with
  | nil => exact absurd rfl h
  | cons a l =>
    rw [chunks, List.length_cons, chunksFrom, chunksFrom_of_le hk]
    · rfl
    · rw [List.length_drop, List.length_cons]
      omega

/-- **Nothing is lost.** -/
theorem flatten_chunks (l : List α) : (chunks k l).flatten = l := by
  induction hn : l.length using Nat.strong_induction_on generalizing l with
  | _ n ih =>
    subst hn
    by_cases hl : l = []
    · subst hl
      rfl
    · have hpos := List.length_pos_iff.mpr hl
      rw [chunks_of_ne_nil hk hl, List.flatten_cons,
        ih (l.drop k).length (by rw [List.length_drop]; omega) _ rfl, List.take_append_drop]

/-- The chunks from a number on are those of the rest. -/
theorem drop_chunks (l : List α) (i : ℕ) : (chunks k l).drop i = chunks k (l.drop (i * k)) := by
  induction i generalizing l with
  | zero => rw [Nat.zero_mul, List.drop_zero, List.drop_zero]
  | succ i ih =>
    by_cases hl : l = []
    · subst hl
      rw [List.drop_nil]
      exact List.drop_nil
    · rw [chunks_of_ne_nil hk hl, List.drop_succ_cons, ih, List.drop_drop, Nat.succ_mul,
        Nat.add_comm]

theorem flatten_take_chunks (l : List α) (n : ℕ) :
    ((chunks k l).take n).flatten = l.take (n * k) := by
  induction n generalizing l with
  | zero => rw [Nat.zero_mul, List.take_zero, List.take_zero, List.flatten_nil]
  | succ n ih =>
    by_cases hl : l = []
    · subst hl
      rw [List.take_nil]
      exact congrArg List.flatten List.take_nil
    · rw [chunks_of_ne_nil hk hl, List.take_succ_cons, List.flatten_cons, ih, Nat.succ_mul,
        Nat.add_comm, List.take_add]

/-- **Consecutive chunks are a stretch of the sequence.** -/
theorem flatten_drop_take_chunks (l : List α) (i n : ℕ) :
    (((chunks k l).drop i).take n).flatten = (l.drop (i * k)).take (n * k) := by
  rw [drop_chunks hk, flatten_take_chunks hk]

/-- The size of a chunk, from its number. -/
theorem length_of_getElem?_chunks {l c : List α} {i : ℕ} (h : (chunks k l)[i]? = some c) :
    c.length = min k (l.length - i * k) := by
  rw [← Nat.add_zero i, ← List.getElem?_drop, drop_chunks hk] at h
  by_cases hl : l.drop (i * k) = []
  · rw [hl] at h
    cases h
  · rw [chunks_of_ne_nil hk hl] at h
    cases h
    rw [List.length_take, List.length_drop]

/-- How many chunks there are. -/
theorem lt_length_chunks_iff (l : List α) (i : ℕ) :
    i < (chunks k l).length ↔ i * k < l.length := by
  have hempty : ∀ l : List α, chunks k l = [] ↔ l = [] := fun l => by
    refine ⟨fun h => ?_, fun h => by rw [h]; rfl⟩
    rw [← flatten_chunks hk l, h, List.flatten_nil]
  rw [← List.drop_eq_nil_iff.not.trans Nat.not_le, drop_chunks hk, hempty, List.drop_eq_nil_iff,
    Nat.not_le]

end

/-! ## A part of a list -/

/-- **The elements of `l` at the positions from `lo` to `hi`**, when `l` begins at the
position `base`. -/
def clip (lo hi base : ℕ) (l : List α) : List α := (l.take (hi - base)).drop (lo - base)

theorem length_clip (lo hi base : ℕ) (l : List α) :
    (clip lo hi base l).length = min (hi - base) l.length - (lo - base) := by
  rw [clip, List.length_drop, List.length_take]

/-- The part of a concatenation. -/
theorem clip_append (lo hi base : ℕ) (x t : List α) :
    clip lo hi base (x ++ t) = clip lo hi base x ++ clip lo hi (base + x.length) t := by
  rw [clip, List.take_append, List.drop_append, clip, clip, List.length_take]
  refine congrArg _ ?_
  by_cases h : hi - base < x.length
  · rw [Nat.sub_eq_zero_of_le (Nat.le_of_lt h), show hi - (base + x.length) = 0 by omega,
      List.take_zero, List.drop_nil, List.drop_nil]
  · rw [Nat.min_eq_right (Nat.not_lt.mp h), Nat.sub_add_eq, Nat.sub_add_eq]

theorem clip_eq_take_drop {lo base : ℕ} (h : base ≤ lo) (n : ℕ) (l : List α) :
    clip lo (lo + n) base l = (l.drop (lo - base)).take n := by
  rw [clip, List.take_drop, show lo - base + n = lo + n - base by omega]

/-! ## Numbered chunks in any order -/

/-- **Sorting by distinct numbers has one outcome.** -/
theorem insertionSort_eq_of_perm {l₁ l₂ : List (ℤ × α)} (h : l₁.Perm l₂)
    (hsorted : l₂.Pairwise fun a b => a.1 < b.1) :
    l₁.insertionSort (fun a b => a.1 ≤ b.1) = l₂ := by
  have hperm : (l₁.insertionSort (fun a b => a.1 ≤ b.1)).Perm l₂ :=
    (List.perm_insertionSort _ l₁).trans h
  have hle : (l₁.insertionSort (fun a b : ℤ × α => a.1 ≤ b.1)).Pairwise fun a b => a.1 ≤ b.1 :=
    haveI : Std.Total (fun a b : ℤ × α => a.1 ≤ b.1) := ⟨fun a b => Int.le_total a.1 b.1⟩
    haveI : IsTrans (ℤ × α) (fun a b => a.1 ≤ b.1) := ⟨fun _ _ _ => Int.le_trans⟩
    List.pairwise_insertionSort _ l₁
  have hne : (l₁.insertionSort (fun a b : ℤ × α => a.1 ≤ b.1)).Pairwise fun a b => a.1 ≠ b.1 :=
    (hperm.symm.pairwise_iff (fun h => Ne.symm h)).mp (hsorted.imp fun h => Int.ne_of_lt h)
  have hlt : (l₁.insertionSort (fun a b : ℤ × α => a.1 ≤ b.1)).Pairwise fun a b => a.1 < b.1 :=
    hle.imp₂ (fun _ _ h hne => by omega) hne
  exact hperm.eq_of_pairwise (fun a b _ _ hab hba => absurd hba (Int.not_lt.mpr (Int.le_of_lt hab)))
    hlt hsorted

end Chunking
