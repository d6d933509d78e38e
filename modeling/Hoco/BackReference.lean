import Mathlib.Data.List.Basic
import Mathlib.Algebra.Ring.Int.Defs
import Mathlib.Algebra.Ring.Nat

/-!
# Texts built from literals and references back

A text can be written as a sequence of **items**: a symbol that stands for
itself, or a reference that says "repeat `len` symbols, starting `off` symbols
back". A reference may reach into the symbols it is producing itself, when `len`
is larger than `off`; what it means is then a repetition with period `off`.

The meaning of a reference is stated without saying how the symbols are copied
(`Repeats`): the longer text begins with the shorter one, and behind it each
symbol is the one `off` places before. This determines the longer text
(`Repeats.eq_of_length`), it may be reached in steps of growing period
(`Repeats.double`), and it is what a match inside of a text says
(`Repeats.of_match`).
-/

namespace BackReference

variable {α : Type} {off n : ℕ} {out out₁ out₂ : List α}

/-- **The text `out₂` continues `out₁` with period `off`**, and the period lies
inside of the text that is continued. -/
structure Repeats (off : ℕ) (out₁ out₂ : List α) : Prop where
  pos : 0 < off
  reach : off ≤ out₁.length
  begins : out₁ <+: out₂
  period : ∀ i, out₁.length ≤ i → i < out₂.length → out₂[i]? = out₂[i - off]?

namespace Repeats

/-- **A continuation is determined by its length.** -/
theorem eq_of_length (h₁ : Repeats off out out₁) (h₂ : Repeats off out out₂)
    (hlen : out₁.length = out₂.length) : out₁ = out₂ := by
  refine List.ext_getElem? fun i => ?_
  induction i using Nat.strong_induction_on with
  | _ i ih =>
    rcases Nat.lt_or_ge i out.length with hi | hi
    · -- the text that is continued
      obtain ⟨s, rfl⟩ := h₁.begins
      obtain ⟨t, rfl⟩ := h₂.begins
      rw [List.getElem?_append_left hi, List.getElem?_append_left hi]
    · rcases Nat.lt_or_ge i out₁.length with hlt | hge
      · have hback : i - off < i := Nat.sub_lt (by have := h₁.pos; have := h₁.reach; omega) h₁.pos
        rw [h₁.period i hi hlt, h₂.period i hi (hlen ▸ hlt), ih (i - off) hback]
      · rw [List.getElem?_eq_none hge, List.getElem?_eq_none (hlen ▸ hge)]

/-- A beginning of a continuation is one. -/
theorem take (h : Repeats off out out₁) (hn : out.length ≤ n) : Repeats off out (out₁.take n) where
  pos := h.pos
  reach := h.reach
  begins := List.prefix_take_iff.mpr ⟨h.begins, hn⟩
  period := by
    intro i hi hlt
    rw [List.length_take] at hlt
    rw [List.getElem?_take_of_lt (by omega), List.getElem?_take_of_lt (by omega),
      h.period i hi (by omega)]

/-- **Copying no more than one period**: the symbols lie before the place where
they are copied to. -/
theorem append_take (hpos : 0 < off) (hreach : off ≤ out.length) {len : ℕ} (hlen : len ≤ off) :
    Repeats off out (out ++ (out.drop (out.length - off)).take len) where
  pos := hpos
  reach := hreach
  begins := List.prefix_append _ _
  period := by
    intro i hi hlt
    rw [List.length_append, List.length_take, List.length_drop] at hlt
    rw [List.getElem?_append_right hi, List.getElem?_append_left (by omega),
      List.getElem?_take_of_lt (by omega), List.getElem?_drop]
    congr 1
    omega

/-- **A continuation by one period and then by twice the period** is one by the
period. -/
theorem double (h₁ : Repeats off out out₁) (hlen : out₁.length = out.length + off)
    (h₂ : Repeats (off + off) out₁ out₂) : Repeats off out out₂ where
  pos := h₁.pos
  reach := h₁.reach
  begins := h₁.begins.trans h₂.begins
  period := by
    have hpos := h₁.pos
    have hreach := h₁.reach
    intro i
    induction i using Nat.strong_induction_on with
    | _ i ih =>
      intro hi hlt
      rcases Nat.lt_or_ge i out₁.length with hlt₁ | hge
      · obtain ⟨s, rfl⟩ := h₂.begins
        rw [List.getElem?_append_left hlt₁, List.getElem?_append_left (by omega)]
        exact h₁.period i hi hlt₁
      · -- one period back the text is where it is two periods back
        have hback := ih (i - off) (by omega) (by omega) (by omega)
        rw [h₂.period i hge hlt, hback, Nat.sub_sub]

/-- **A match inside of a text**: the text up to the end of the match continues
the text up to its start. -/
theorem of_match {text : List α} {i len : ℕ} (hpos : 0 < off) (hreach : off ≤ i)
    (hend : i + len ≤ text.length) (hmatch : ∀ k < len, text[i + k]? = text[i + k - off]?) :
    Repeats off (text.take i) (text.take (i + len)) where
  pos := hpos
  reach := by
    rw [List.length_take]
    omega
  begins := List.take_prefix_take_left (by omega)
  period := by
    intro j hj hlt
    rw [List.length_take] at hj hlt
    obtain ⟨k, rfl⟩ := Nat.exists_eq_add_of_le (show i ≤ j by omega)
    rw [List.getElem?_take_of_lt (by omega), List.getElem?_take_of_lt (by omega),
      hmatch k (by omega)]

end Repeats

/-! ## How far two texts agree -/

section Common

variable [DecidableEq α] {as bs : List α} {k : ℕ}

/-- The number of symbols that two texts have in common at their beginnings. -/
def commonLen : List α → List α → ℕ
  | a :: as, b :: bs => if a = b then commonLen as bs + 1 else 0
  | _, _ => 0

theorem commonLen_le_length (as bs : List α) : commonLen as bs ≤ as.length := by
  induction as generalizing bs with
  | nil => exact Nat.le_refl 0
  | cons a as ih =>
    cases bs with
    | nil => exact Nat.zero_le _
    | cons b bs =>
      rw [commonLen, List.length_cons]
      split
      · exact Nat.succ_le_succ (ih bs)
      · exact Nat.zero_le _

/-- Up to there the texts agree. -/
theorem getElem?_of_lt_commonLen (h : k < commonLen as bs) : as[k]? = bs[k]? := by
  induction as generalizing bs k with
  | nil => exact absurd h (Nat.not_lt_zero k)
  | cons a as ih =>
    cases bs with
    | nil => exact absurd h (Nat.not_lt_zero k)
    | cons b bs =>
      rw [commonLen] at h
      split at h
      · rename_i hab
        cases k with
        | zero => rw [hab, List.getElem?_cons_zero, List.getElem?_cons_zero]
        | succ k =>
          rw [List.getElem?_cons_succ, List.getElem?_cons_succ]
          exact ih (Nat.lt_of_succ_lt_succ h)
      · exact absurd h (Nat.not_lt_zero k)

/-- **Texts that agree on their first `k` symbols** agree so far and as far as what
is behind. -/
theorem commonLen_of_take_eq (has : k ≤ as.length) (hbs : k ≤ bs.length)
    (h : as.take k = bs.take k) :
    commonLen as bs = k + commonLen (as.drop k) (bs.drop k) := by
  induction k generalizing as bs with
  | zero => rw [List.drop_zero, List.drop_zero, Nat.zero_add]
  | succ k ih =>
    cases as with
    | nil => exact absurd has (Nat.not_succ_le_zero k)
    | cons a as =>
      cases bs with
      | nil => exact absurd hbs (Nat.not_succ_le_zero k)
      | cons b bs =>
        rw [List.take_succ_cons, List.take_succ_cons] at h
        obtain ⟨hab, htake⟩ := List.cons.inj h
        rw [commonLen, if_pos hab, ih (Nat.le_of_succ_le_succ has) (Nat.le_of_succ_le_succ hbs) htake,
          List.drop_succ_cons, List.drop_succ_cons]
        omega

/-- Texts that differ in their first `k` symbols agree on fewer. -/
theorem commonLen_lt_of_take_ne (h : as.take k ≠ bs.take k) : commonLen as bs < k := by
  induction k generalizing as bs with
  | zero => exact absurd (by rw [List.take_zero, List.take_zero]) h
  | succ k ih =>
    cases as with
    | nil => exact Nat.succ_pos k
    | cons a as =>
      cases bs with
      | nil => exact Nat.succ_pos k
      | cons b bs =>
        rw [commonLen]
        split
        · rename_i hab
          refine Nat.succ_lt_succ (ih fun htake => h ?_)
          rw [List.take_succ_cons, List.take_succ_cons, hab, htake]
        · exact Nat.succ_pos k

end Common

/-! ## Items -/

/-- An item of a text: a symbol, or a reference back. -/
inductive Item (α : Type) where
  | lit (a : α)
  | ref (off len : ℕ)
  deriving DecidableEq, Repr

/-- **The items continue the text `out` to the text `out'`.** -/
inductive Decodes : List α → List (Item α) → List α → Prop where
  | nil (out : List α) : Decodes out [] out
  | lit {out out' : List α} {items : List (Item α)} {a : α} :
      Decodes (out ++ [a]) items out' → Decodes out (.lit a :: items) out'
  | ref {out out₁ out' : List α} {items : List (Item α)} {off len : ℕ} :
      Repeats off out out₁ → out₁.length = out.length + len → Decodes out₁ items out' →
      Decodes out (.ref off len :: items) out'

namespace Decodes

variable {items items' : List (Item α)} {out' out'' : List α}

/-- Items one after the other. -/
theorem append (h : Decodes out items out') (h' : Decodes out' items' out'') :
    Decodes out (items ++ items') out'' := by
  induction h with
  | nil out => exact h'
  | lit _ ih => exact lit (ih h')
  | ref hrep hlen _ ih => exact ref hrep hlen (ih h')

/-- Items in two parts. -/
theorem exists_of_append (h : Decodes out (items ++ items') out'') :
    ∃ out', Decodes out items out' ∧ Decodes out' items' out'' := by
  induction items generalizing out with
  | nil => exact ⟨out, nil out, h⟩
  | cons item items ih =>
    cases h with
    | lit h =>
      obtain ⟨out', h₁, h₂⟩ := ih h
      exact ⟨out', lit h₁, h₂⟩
    | ref hrep hlen h =>
      obtain ⟨out', h₁, h₂⟩ := ih h
      exact ⟨out', ref hrep hlen h₁, h₂⟩

/-- The text only grows. -/
theorem length_le (h : Decodes out items out') : out.length ≤ out'.length := by
  induction h with
  | nil out => exact le_refl _
  | lit _ ih =>
    rw [List.length_append] at ih
    omega
  | ref _ hlen _ ih => omega

/-- Items that stand for at least one symbol each make it grow. -/
theorem length_lt (h : Decodes out items out') (hne : items ≠ [])
    (hlen : ∀ off len, .ref off len ∈ items → 0 < len) : out.length < out'.length := by
  cases h with
  | nil => exact absurd rfl hne
  | lit h =>
    have := h.length_le
    rw [List.length_append, List.length_singleton] at this
    omega
  | ref _ hout h =>
    have := h.length_le
    have := hlen _ _ List.mem_cons_self
    omega

end Decodes

end BackReference
