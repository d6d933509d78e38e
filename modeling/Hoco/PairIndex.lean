import Mathlib.Logic.Function.Basic
import Mathlib.Data.Nat.Notation
import Mathlib.Data.List.Nodup
import Mathlib.Data.Set.Function

/-!
# An index of adjacent pairs

Sequences of items are indexed by the pairs of keys that stand next to each
other in them: the index names, for a pair of keys, the first item of a place
where the pair occurs. In a stretch of three items with one key the pair occurs
twice, and only one of the two overlapping places can be named.

`Indexed` is what such an index is to satisfy: an entry names a place of its pair
(`sound`), every place that is not exempt is named or overlaps the place that is
(`cover`), and where the second of two overlapping places is named, an item with
a key above that of the three follows (`late`). It follows that a pair does not
occur at two places that do not overlap (`Indexed.unique`).

The index is kept up to date by edits. `replaceEdits` are those that are made
when two neighbours are taken out and one item is put in their place, and the
main result is that they keep the index (`Indexed.replace`), whatever the
sequences are: of the sequences only the relation of being adjacent is used.
-/

namespace PairIndex

variable {α κ : Type}

/-- An index, from pairs of keys to items. -/
abbrev Index (κ α : Type) := κ × κ → Option α

/-! ## Edits -/

/-- An edit of an index: an entry is forgotten if it is the given item, or
recorded in place of any other. -/
inductive Edit (κ α : Type) where
  | forget (x : α) (d : κ × κ)
  | record (x : α) (d : κ × κ)

section Run

variable [DecidableEq α] [DecidableEq κ]

def Edit.run : Edit κ α → Index κ α → Index κ α
  | forget x d, T => if T d = some x then Function.update T d none else T
  | record x d, T => Function.update T d (some x)

/-- Edits made one after the other. -/
def runAll (es : List (Edit κ α)) (T : Index κ α) : Index κ α :=
  es.foldl (fun T e => e.run T) T

theorem runAll_cons (e : Edit κ α) (es : List (Edit κ α)) (T : Index κ α) :
    runAll (e :: es) T = runAll es (e.run T) := rfl

theorem runAll_append (es fs : List (Edit κ α)) (T : Index κ α) :
    runAll (es ++ fs) T = runAll fs (runAll es T) := List.foldl_append ..

variable {es : List (Edit κ α)} {e : Edit κ α} {T : Index κ α} {d : κ × κ} {x : α}

theorem Edit.run_eq_some (h : e.run T d = some x) : T d = some x ∨ e = .record x d := by
  cases e with
  | forget y f =>
    rw [run] at h
    split at h
    · by_cases hd : d = f
      · rw [hd, Function.update_self] at h
        cases h
      · rw [Function.update_of_ne hd] at h
        exact Or.inl h
    · exact Or.inl h
  | record y f =>
    rw [run] at h
    by_cases hd : d = f
    · rw [hd, Function.update_self, Option.some.injEq] at h
      exact Or.inr (by rw [h, hd])
    · rw [Function.update_of_ne hd] at h
      exact Or.inl h

theorem Edit.run_of_ne (h : T d = some x) (hrec : ∀ y, e ≠ .record y d)
    (hfor : e ≠ .forget x d) : e.run T d = some x := by
  cases e with
  | forget y f =>
    rw [run]
    split
    · rename_i hf
      rw [Function.update_of_ne, h]
      rintro rfl
      rw [h, Option.some.injEq] at hf
      exact hfor (by rw [hf])
    · exact h
  | record y f =>
    rw [run, Function.update_of_ne, h]
    rintro rfl
    exact hrec y rfl

/-- An entry after some edits was there before or has been recorded. -/
theorem runAll_eq_some (h : runAll es T d = some x) : T d = some x ∨ .record x d ∈ es := by
  induction es generalizing T with
  | nil => exact Or.inl h
  | cons e es ih =>
    rcases ih h with h | h
    · rcases e.run_eq_some h with h | rfl
      · exact Or.inl h
      · exact Or.inr (List.mem_cons_self ..)
    · exact Or.inr (List.mem_cons_of_mem _ h)

/-- An entry that is neither forgotten nor replaced is kept. -/
theorem runAll_of_ne (h : T d = some x) (hrec : ∀ y, .record y d ∉ es)
    (hfor : .forget x d ∉ es) : runAll es T d = some x := by
  induction es generalizing T with
  | nil => exact h
  | cons e es ih =>
    refine ih (e.run_of_ne h (fun y hy => ?_) fun hy => ?_) (fun y hy => ?_) fun hy => ?_
    · exact hrec y (hy ▸ List.mem_cons_self ..)
    · exact hfor (hy ▸ List.mem_cons_self ..)
    · exact hrec y (List.mem_cons_of_mem _ hy)
    · exact hfor (List.mem_cons_of_mem _ hy)

/-- An entry that is recorded, and no other in its place, is there. -/
theorem runAll_of_record (hmem : .record x d ∈ es) (hrec : ∀ y, .record y d ∈ es → y = x)
    (hfor : .forget x d ∉ es) : runAll es T d = some x := by
  induction es generalizing T with
  | nil => cases hmem
  | cons e es ih =>
    by_cases hlater : .record x d ∈ es
    · exact ih hlater (fun y hy => hrec y (List.mem_cons_of_mem _ hy))
        fun hy => hfor (List.mem_cons_of_mem _ hy)
    · rcases List.mem_cons.mp hmem with rfl | hmem
      · rw [runAll_cons]
        refine runAll_of_ne (Function.update_self ..) (fun y hy => ?_)
          fun hy => hfor (List.mem_cons_of_mem _ hy)
        rw [hrec y (List.mem_cons_of_mem _ hy)] at hy
        exact hlater hy
      · exact absurd hmem hlater

/-- An entry that is forgotten and not recorded is not there. -/
theorem runAll_ne (hfor : .forget x d ∈ es) (hrec : .record x d ∉ es) :
    runAll es T d ≠ some x := by
  induction es generalizing T with
  | nil => cases hfor
  | cons e es ih =>
    rcases List.mem_cons.mp hfor with rfl | hfor
    · rw [runAll_cons]
      intro h
      rcases runAll_eq_some h with h | h
      · rw [Edit.run] at h
        split at h
        · rw [Function.update_self] at h
          cases h
        · rename_i hne
          exact hne h
      · exact hrec (List.mem_cons_of_mem _ h)
    · exact ih hfor fun h => hrec (List.mem_cons_of_mem _ h)

/-! ## Renaming

An index may name its keys and items in another way. As long as the names in use
are different, the edits are the same. -/

section Rename

variable {β μ : Type} [DecidableEq β] [DecidableEq μ]

def Edit.map (f : κ → μ) (g : α → β) : Edit κ α → Edit μ β
  | forget x d => .forget (g x) (f d.1, f d.2)
  | record x d => .record (g x) (f d.1, f d.2)

/-- An edit of items and keys that are in use. -/
def Edit.Within (K : Set κ) (S : Set α) : Edit κ α → Prop
  | forget x d => x ∈ S ∧ d.1 ∈ K ∧ d.2 ∈ K
  | record x d => x ∈ S ∧ d.1 ∈ K ∧ d.2 ∈ K

/-- **The index `U` is `T` under other names.** -/
structure Renames (f : κ → μ) (g : α → β) (K : Set κ) (S : Set α) (T : Index κ α)
    (U : Index μ β) : Prop where
  used : ∀ {d x}, T d = some x → d.1 ∈ K ∧ d.2 ∈ K ∧ x ∈ S
  eq : ∀ {d}, d.1 ∈ K → d.2 ∈ K → U (f d.1, f d.2) = (T d).map g
  only : ∀ {d y}, U d = some y → ∃ k l, k ∈ K ∧ l ∈ K ∧ d = (f k, f l)

variable {f : κ → μ} {g : α → β} {K : Set κ} {S : Set α} {U : Index μ β}

theorem Renames.run (h : Renames f g K S T U) (hf : Set.InjOn f K) (hg : Set.InjOn g S)
    (he : e.Within K S) : Renames f g K S (e.run T) ((e.map f g).run U) := by
  have hd : ∀ {d d' : κ × κ}, d.1 ∈ K → d.2 ∈ K → d'.1 ∈ K → d'.2 ∈ K →
      ((f d.1, f d.2) = (f d'.1, f d'.2) ↔ d = d') := by
    intro d d' h₁ h₂ h₁' h₂'
    rw [Prod.mk.injEq, hf.eq_iff h₁ h₁', hf.eq_iff h₂ h₂', Prod.ext_iff]
  cases e with
  | forget x d =>
    obtain ⟨hx, hd₁, hd₂⟩ := he
    have hiff : U (f d.1, f d.2) = some (g x) ↔ T d = some x := by
      rw [h.eq hd₁ hd₂, Option.map_eq_some_iff]
      constructor
      · rintro ⟨y, hy, hyx⟩
        rw [hy, hg (h.used hy).2.2 hx hyx]
      · exact fun hT => ⟨x, hT, rfl⟩
    by_cases hT : T d = some x
    · simp only [Edit.run, Edit.map, if_pos hT, if_pos (hiff.mpr hT)]
      refine ⟨fun {d' y} hy => ?_, fun {d'} h₁ h₂ => ?_, fun {d' y} hy => ?_⟩
      · by_cases hdd : d' = d
        · rw [hdd, Function.update_self] at hy
          cases hy
        · rw [Function.update_of_ne hdd] at hy
          exact h.used hy
      · by_cases hdd : d' = d
        · rw [hdd, Function.update_self, Function.update_self]
          rfl
        · rw [Function.update_of_ne hdd, Function.update_of_ne, h.eq h₁ h₂]
          rwa [Ne, hd h₁ h₂ hd₁ hd₂]
      · by_cases hdd : d' = (f d.1, f d.2)
        · exact ⟨d.1, d.2, hd₁, hd₂, hdd⟩
        · rw [Function.update_of_ne hdd] at hy
          exact h.only hy
    · simp only [Edit.run, Edit.map, if_neg hT, if_neg (mt hiff.mp hT)]
      exact h
  | record x d =>
    obtain ⟨hx, hd₁, hd₂⟩ := he
    simp only [Edit.run, Edit.map]
    refine ⟨fun {d' y} hy => ?_, fun {d'} h₁ h₂ => ?_, fun {d' y} hy => ?_⟩
    · by_cases hdd : d' = d
      · rw [hdd, Function.update_self, Option.some.injEq] at hy
        exact hdd ▸ ⟨hd₁, hd₂, hy ▸ hx⟩
      · rw [Function.update_of_ne hdd] at hy
        exact h.used hy
    · by_cases hdd : d' = d
      · rw [hdd, Function.update_self, Function.update_self]
        rfl
      · rw [Function.update_of_ne hdd, Function.update_of_ne, h.eq h₁ h₂]
        rwa [Ne, hd h₁ h₂ hd₁ hd₂]
    · by_cases hdd : d' = (f d.1, f d.2)
      · exact ⟨d.1, d.2, hd₁, hd₂, hdd⟩
      · rw [Function.update_of_ne hdd] at hy
        exact h.only hy

theorem Renames.runAll (h : Renames f g K S T U) (hf : Set.InjOn f K) (hg : Set.InjOn g S)
    (hes : ∀ e ∈ es, e.Within K S) :
    Renames f g K S (runAll es T) (PairIndex.runAll (es.map (Edit.map f g)) U) := by
  induction es generalizing T U with
  | nil => exact h
  | cons e es ih =>
    exact ih (h.run hf hg (hes e (List.mem_cons_self ..)))
      fun e' he' => hes e' (List.mem_cons_of_mem _ he')

omit [DecidableEq α] [DecidableEq κ] [DecidableEq β] [DecidableEq μ] in
/-- More names. -/
theorem Renames.mono (h : Renames f g K S T U) {K' : Set κ} {S' : Set α} (hK : K ⊆ K')
    (hS : S ⊆ S') (hf : Set.InjOn f K') : Renames f g K' S' T U where
  used hT := ⟨hK (h.used hT).1, hK (h.used hT).2.1, hS (h.used hT).2.2⟩
  eq {d} h₁ h₂ := by
    by_cases hd : d.1 ∈ K ∧ d.2 ∈ K
    · exact h.eq hd.1 hd.2
    · have hT : T d = none := by
        cases hT : T d with
        | none => rfl
        | some x => exact absurd ⟨(h.used hT).1, (h.used hT).2.1⟩ hd
      rw [hT, Option.map_none]
      cases hU : U (f d.1, f d.2) with
      | none => rfl
      | some y =>
        obtain ⟨k, l, hk, hl, heq⟩ := h.only hU
        rw [Prod.mk.injEq] at heq
        rw [hf h₁ (hK hk) heq.1, hf h₂ (hK hl) heq.2] at hd
        exact absurd ⟨hk, hl⟩ hd
  only hU := by
    obtain ⟨k, l, hk, hl, hd⟩ := h.only hU
    exact ⟨k, l, hK hk, hK hl, hd⟩

omit [DecidableEq α] [DecidableEq κ] [DecidableEq β] [DecidableEq μ] in
/-- Fewer items: those that no entry names can be left out. -/
theorem Renames.restrict (h : Renames f g K S T U) {S' : Set α}
    (hS : ∀ {d x}, x ∈ S → U d = some (g x) → x ∈ S') : Renames f g K S' T U where
  used {d x} hT := by
    obtain ⟨h₁, h₂, hx⟩ := h.used hT
    refine ⟨h₁, h₂, hS hx (d := (f d.1, f d.2)) ?_⟩
    rw [h.eq h₁ h₂, hT, Option.map_some]
  eq := h.eq
  only := h.only

end Rename

end Run

/-! ## The edits of a replacement -/

section Edits

variable [DecidableEq κ] (key : α → κ)

/-- The pair of two neighbours is forgotten. -/
def forgetPair : Option α → Option α → List (Edit κ α)
  | some x, some y => [.forget x (key x, key y)]
  | _, _ => []

/-- Of three neighbours with one key the first two are recorded. -/
def restoreFirst : Option α → Option α → Option α → List (Edit κ α)
  | some x, some y, some z =>
    if key x = key y ∧ key y = key z then [.record x (key x, key y)] else []
  | _, _, _ => []

/-- Of three neighbours with one key the last two are recorded. -/
def restoreSecond : Option α → Option α → Option α → List (Edit κ α)
  | some x, some y, some z =>
    if key x = key y ∧ key y = key z then [.record y (key y, key z)] else []
  | _, _, _ => []

/-- The edits when `a` is taken out from between `qp q` and `b c`. -/
def unlinkEdits (qp q : Option α) (a : α) (b c : Option α) : List (Edit κ α) :=
  forgetPair key q (some a) ++ restoreSecond key (some a) b c ++ restoreFirst key qp q (some a)
    ++ forgetPair key (some a) b

/-- The edits when an item is put in between `qp q` and `c`. -/
def linkEdits (qp q c : Option α) : List (Edit κ α) :=
  forgetPair key q c ++ restoreFirst key qp q c

/-- What stands before no item does not matter. -/
theorem unlinkEdits_none_left (qp : Option α) (a : α) (b c : Option α) :
    unlinkEdits key qp none a b c = unlinkEdits key none none a b c := by
  cases qp <;> rfl

theorem unlinkEdits_none_right (qp q : Option α) (a : α) (c : Option α) :
    unlinkEdits key qp q a none c = unlinkEdits key qp q a none none := by
  cases c <;> rfl

theorem linkEdits_none_left (qp c : Option α) : linkEdits key qp none c = [] := by
  cases qp <;> cases c <;> rfl

theorem linkEdits_congr {key key' : α → κ} {qp q c : Option α}
    (h : ∀ x, qp = some x ∨ q = some x ∨ c = some x → key x = key' x) :
    linkEdits key qp q c = linkEdits key' qp q c := by
  unfold linkEdits
  cases q with
  | none => cases qp <;> rfl
  | some y =>
    cases c with
    | none => cases qp <;> rfl
    | some z =>
      have hy := h y (by simp)
      have hz := h z (by simp)
      cases qp with
      | none => rw [forgetPair, forgetPair, hy, hz]; rfl
      | some x =>
        have hx := h x (by simp)
        rw [forgetPair, forgetPair, restoreFirst, restoreFirst, hx, hy, hz]

/-- The edits when one item takes the place of `a` and `b`. -/
def replaceEdits (qp q : Option α) (a b : α) (c cn : Option α) : List (Edit κ α) :=
  unlinkEdits key qp q a (some b) c ++ (unlinkEdits key qp q b c cn ++ linkEdits key qp q c)

variable {key} {e : Edit κ α} {d : κ × κ} {u : α} {qp q c cn : Option α} {a b : α}

omit [DecidableEq κ] in
theorem mem_forgetPair {p r : Option α} :
    e ∈ forgetPair key p r ↔ ∃ x y, p = some x ∧ r = some y ∧ e = .forget x (key x, key y) := by
  cases p <;> cases r <;> simp [forgetPair]

theorem mem_restoreFirst {p r s : Option α} :
    e ∈ restoreFirst key p r s ↔ ∃ x y z, p = some x ∧ r = some y ∧ s = some z
      ∧ key x = key y ∧ key y = key z ∧ e = .record x (key x, key y) := by
  cases p <;> cases r <;> cases s <;> simp [restoreFirst, and_assoc]

theorem mem_restoreSecond {p r s : Option α} :
    e ∈ restoreSecond key p r s ↔ ∃ x y z, p = some x ∧ r = some y ∧ s = some z
      ∧ key x = key y ∧ key y = key z ∧ e = .record y (key y, key z) := by
  cases p <;> cases r <;> cases s <;> simp [restoreSecond, and_assoc]

theorem record_mem_unlinkEdits {b c : Option α} :
    .record u d ∈ unlinkEdits key qp q a b c
      ↔ (∃ y, b = some u ∧ c = some y ∧ key a = key u ∧ key u = key y ∧ d = (key u, key y))
        ∨ ∃ y, qp = some u ∧ q = some y ∧ key u = key y ∧ key y = key a ∧ d = (key u, key y) := by
  simp only [unlinkEdits, List.mem_append, mem_forgetPair, mem_restoreFirst, mem_restoreSecond,
    reduceCtorEq, and_false, exists_false, false_or, or_false, Edit.record.injEq, Option.some.injEq]
  constructor
  · rintro (⟨x, y, z, rfl, rfl, rfl, hxy, hyz, rfl, rfl⟩ |
      ⟨x, y, z, rfl, rfl, rfl, hxy, hyz, rfl, rfl⟩)
    · exact Or.inl ⟨z, rfl, rfl, hxy, hyz, rfl⟩
    · exact Or.inr ⟨y, rfl, rfl, hxy, hyz, rfl⟩
  · rintro (⟨y, rfl, rfl, hxy, hyz, rfl⟩ | ⟨y, rfl, rfl, hxy, hyz, rfl⟩)
    · exact Or.inl ⟨a, u, y, rfl, rfl, rfl, hxy, hyz, rfl, rfl⟩
    · exact Or.inr ⟨u, y, a, rfl, rfl, rfl, hxy, hyz, rfl, rfl⟩

theorem record_mem_linkEdits :
    .record u d ∈ linkEdits key qp q c
      ↔ ∃ y z, qp = some u ∧ q = some y ∧ c = some z ∧ key u = key y ∧ key y = key z
        ∧ d = (key u, key y) := by
  simp only [linkEdits, List.mem_append, mem_forgetPair, mem_restoreFirst, reduceCtorEq, and_false,
    exists_false, false_or, Edit.record.injEq]
  constructor
  · rintro ⟨x, y, z, rfl, rfl, rfl, hxy, hyz, rfl, rfl⟩
    exact ⟨y, z, rfl, rfl, rfl, hxy, hyz, rfl⟩
  · rintro ⟨y, z, rfl, rfl, rfl, hxy, hyz, rfl⟩
    exact ⟨u, y, z, rfl, rfl, rfl, hxy, hyz, rfl, rfl⟩

/-- What a replacement may record in the last part: the pair before it, or the
pair behind it. -/
def Restored (key : α → κ) (qp q : Option α) (a b : α) (c cn : Option α) (u : α) (d : κ × κ) :
    Prop :=
  (∃ y, qp = some u ∧ q = some y ∧ key u = key y ∧ d = (key u, key y)
      ∧ (key y = key a ∨ key y = key b ∨ ∃ z, c = some z ∧ key y = key z))
    ∨ ∃ y, c = some u ∧ cn = some y ∧ key b = key u ∧ key u = key y ∧ d = (key u, key y)

theorem record_mem_replaceEdits :
    .record u d ∈ replaceEdits key qp q a b c cn
      ↔ (u = b ∧ ∃ y, c = some y ∧ key a = key b ∧ key b = key y ∧ d = (key b, key y))
        ∨ Restored key qp q a b c cn u d := by
  simp only [replaceEdits, List.mem_append, record_mem_unlinkEdits, record_mem_linkEdits, Restored,
    Option.some.injEq]
  constructor
  · rintro ((⟨y, rfl, rfl, h, h', rfl⟩ | ⟨y, rfl, rfl, h, h', rfl⟩)
      | (⟨y, rfl, rfl, h, h', rfl⟩ | ⟨y, rfl, rfl, h, h', rfl⟩)
      | ⟨y, z, rfl, rfl, rfl, h, h', rfl⟩)
    · exact Or.inl ⟨rfl, y, rfl, h, h', rfl⟩
    · exact Or.inr (Or.inl ⟨y, rfl, rfl, h, rfl, Or.inl h'⟩)
    · exact Or.inr (Or.inr ⟨y, rfl, rfl, h, h', rfl⟩)
    · exact Or.inr (Or.inl ⟨y, rfl, rfl, h, rfl, Or.inr (Or.inl h')⟩)
    · exact Or.inr (Or.inl ⟨y, rfl, rfl, h, rfl, Or.inr (Or.inr ⟨z, rfl, h'⟩)⟩)
  · rintro (⟨rfl, y, rfl, h, h', rfl⟩
      | ⟨y, rfl, rfl, h, rfl, h' | h' | ⟨z, rfl, h'⟩⟩ | ⟨y, rfl, rfl, h, h', rfl⟩)
    · exact Or.inl (Or.inl ⟨y, rfl, rfl, h, h', rfl⟩)
    · exact Or.inl (Or.inr ⟨y, rfl, rfl, h, h', rfl⟩)
    · exact Or.inr (Or.inl (Or.inr ⟨y, rfl, rfl, h, h', rfl⟩))
    · exact Or.inr (Or.inr ⟨y, z, rfl, rfl, rfl, h, h', rfl⟩)
    · exact Or.inr (Or.inl (Or.inl ⟨y, rfl, rfl, h, h', rfl⟩))

/-- A replacement forgets the pairs of `q`, `a` and `b` only. -/
theorem forget_mem_replaceEdits (h : .forget u d ∈ replaceEdits key qp q a b c cn) :
    q = some u ∨ u = a ∨ u = b := by
  simp only [replaceEdits, unlinkEdits, linkEdits, List.mem_append, mem_forgetPair,
    mem_restoreFirst, mem_restoreSecond, reduceCtorEq, and_false, exists_false, or_false,
    Edit.forget.injEq, Option.some.injEq] at h
  rcases h with (⟨x, y, h, -, rfl, -⟩ | ⟨x, y, h, -, rfl, -⟩)
    | (⟨x, y, h, -, rfl, -⟩ | ⟨x, y, h, -, rfl, -⟩) | ⟨x, y, h, -, rfl, -⟩
  · exact Or.inl h
  · exact Or.inr (Or.inl h.symm)
  · exact Or.inl h
  · exact Or.inr (Or.inr h.symm)
  · exact Or.inl h

section Within

variable {K : Set κ} {S : Set α} (hK : ∀ x ∈ S, key x ∈ K)

include hK

omit [DecidableEq κ] in
theorem within_forgetPair {p r : Option α} (hp : ∀ x ∈ p, x ∈ S) (hr : ∀ x ∈ r, x ∈ S)
    (he : e ∈ forgetPair key p r) : e.Within K S := by
  obtain ⟨x, y, rfl, rfl, rfl⟩ := mem_forgetPair.mp he
  exact ⟨hp x rfl, hK x (hp x rfl), hK y (hr y rfl)⟩

theorem within_restoreFirst {p r s : Option α} (hp : ∀ x ∈ p, x ∈ S) (hr : ∀ x ∈ r, x ∈ S)
    (he : e ∈ restoreFirst key p r s) : e.Within K S := by
  obtain ⟨x, y, z, rfl, rfl, -, -, -, rfl⟩ := mem_restoreFirst.mp he
  exact ⟨hp x rfl, hK x (hp x rfl), hK y (hr y rfl)⟩

theorem within_restoreSecond {p r s : Option α} (hr : ∀ x ∈ r, x ∈ S) (hs : ∀ x ∈ s, x ∈ S)
    (he : e ∈ restoreSecond key p r s) : e.Within K S := by
  obtain ⟨x, y, z, -, rfl, rfl, -, -, rfl⟩ := mem_restoreSecond.mp he
  exact ⟨hr y rfl, hK y (hr y rfl), hK z (hs z rfl)⟩

/-- The edits of a removal are within what is in use around it. -/
theorem within_unlinkEdits {b : Option α} (hqp : ∀ x ∈ qp, x ∈ S) (hq : ∀ x ∈ q, x ∈ S)
    (ha : a ∈ S) (hb : ∀ x ∈ b, x ∈ S) (hc : ∀ x ∈ c, x ∈ S)
    (he : e ∈ unlinkEdits key qp q a b c) : e.Within K S := by
  have ha' : ∀ x ∈ some a, x ∈ S := fun x hx => Option.mem_some_iff.mp hx ▸ ha
  simp only [unlinkEdits, List.mem_append] at he
  rcases he with ((he | he) | he) | he
  · exact within_forgetPair hK hq ha' he
  · exact within_restoreSecond hK hb hc he
  · exact within_restoreFirst hK hqp hq he
  · exact within_forgetPair hK ha' hb he

/-- The edits of an insertion are within what is in use around it. -/
theorem within_linkEdits (hqp : ∀ x ∈ qp, x ∈ S) (hq : ∀ x ∈ q, x ∈ S) (hc : ∀ x ∈ c, x ∈ S)
    (he : e ∈ linkEdits key qp q c) : e.Within K S := by
  rcases List.mem_append.mp he with he | he
  · exact within_forgetPair hK hq hc he
  · exact within_restoreFirst hK hqp hq he

end Within

section Rename

variable {β μ : Type} [DecidableEq μ] {f : κ → μ} {g : α → β} {key' : β → μ} {S : Set α}
  (hkey : ∀ x ∈ S, key' (g x) = f (key x)) (hf : Set.InjOn f (key '' S))

include hkey

omit [DecidableEq κ] [DecidableEq μ] in
theorem map_forgetPair {p r : Option α} (hp : ∀ x ∈ p, x ∈ S) (hr : ∀ x ∈ r, x ∈ S) :
    (forgetPair key p r).map (Edit.map f g) = forgetPair key' (p.map g) (r.map g) := by
  cases p with
  | none => rfl
  | some x =>
    cases r with
    | none => rfl
    | some y =>
      simp only [forgetPair, Option.map_some, List.map_cons, List.map_nil, Edit.map]
      rw [hkey x (hp x rfl), hkey y (hr y rfl)]

include hf

theorem map_restoreFirst {p r s : Option α} (hp : ∀ x ∈ p, x ∈ S) (hr : ∀ x ∈ r, x ∈ S)
    (hs : ∀ x ∈ s, x ∈ S) :
    (restoreFirst key p r s).map (Edit.map f g)
      = restoreFirst key' (p.map g) (r.map g) (s.map g) := by
  rcases p with - | x <;> rcases r with - | y <;> rcases s with - | z <;> try rfl
  have hx := hp x rfl
  have hy := hr y rfl
  have hz := hs z rfl
  simp only [restoreFirst, Option.map_some, hkey x hx, hkey y hy, hkey z hz,
    hf.eq_iff ⟨x, hx, rfl⟩ ⟨y, hy, rfl⟩, hf.eq_iff ⟨y, hy, rfl⟩ ⟨z, hz, rfl⟩]
  split_ifs <;> rfl

theorem map_restoreSecond {p r s : Option α} (hp : ∀ x ∈ p, x ∈ S) (hr : ∀ x ∈ r, x ∈ S)
    (hs : ∀ x ∈ s, x ∈ S) :
    (restoreSecond key p r s).map (Edit.map f g)
      = restoreSecond key' (p.map g) (r.map g) (s.map g) := by
  rcases p with - | x <;> rcases r with - | y <;> rcases s with - | z <;> try rfl
  have hx := hp x rfl
  have hy := hr y rfl
  have hz := hs z rfl
  simp only [restoreSecond, Option.map_some, hkey x hx, hkey y hy, hkey z hz,
    hf.eq_iff ⟨x, hx, rfl⟩ ⟨y, hy, rfl⟩, hf.eq_iff ⟨y, hy, rfl⟩ ⟨z, hz, rfl⟩]
  split_ifs <;> rfl

/-- The edits of a removal under other names. -/
theorem map_unlinkEdits {b : Option α} (hqp : ∀ x ∈ qp, x ∈ S) (hq : ∀ x ∈ q, x ∈ S) (ha : a ∈ S)
    (hb : ∀ x ∈ b, x ∈ S) (hc : ∀ x ∈ c, x ∈ S) :
    (unlinkEdits key qp q a b c).map (Edit.map f g)
      = unlinkEdits key' (qp.map g) (q.map g) (g a) (b.map g) (c.map g) := by
  have ha' : ∀ x ∈ some a, x ∈ S := fun x hx => Option.mem_some_iff.mp hx ▸ ha
  simp only [unlinkEdits, List.map_append, map_forgetPair hkey hq ha', map_forgetPair hkey ha' hb,
    map_restoreFirst hkey hf hqp hq ha', map_restoreSecond hkey hf ha' hb hc, Option.map_some]

/-- The edits of an insertion under other names. -/
theorem map_linkEdits (hqp : ∀ x ∈ qp, x ∈ S) (hq : ∀ x ∈ q, x ∈ S) (hc : ∀ x ∈ c, x ∈ S) :
    (linkEdits key qp q c).map (Edit.map f g)
      = linkEdits key' (qp.map g) (q.map g) (c.map g) := by
  simp only [linkEdits, List.map_append, map_forgetPair hkey hq hc,
    map_restoreFirst hkey hf hqp hq hc]

end Rename

end Edits

/-! ## What the index is to satisfy -/

variable {key : α → κ} {T : Index κ α} {d : κ × κ} {qp q c cn : Option α} {a b : α}

/-- An adjacency in which an item has at most one neighbour on either side. -/
structure Linear (Adj : α → α → Prop) : Prop where
  succ_unique : ∀ {x y y'}, Adj x y → Adj x y' → y = y'
  pred_unique : ∀ {x x' y}, Adj x y → Adj x' y → x = x'

/-- A place is named, or overlaps the place that is. -/
def Covered (key : α → κ) (Adj : α → α → Prop) (T : Index κ α) (x y : α) : Prop :=
  T (key x, key y) = some x
    ∨ key x = key y ∧ ((∃ w, Adj w x ∧ key w = key x ∧ T (key x, key y) = some w)
      ∨ ∃ v, Adj y v ∧ key v = key y ∧ T (key x, key y) = some y)

/-- **The index `T` of an adjacency**, but for the exempt places. -/
structure Indexed (key : α → κ) (above : κ → κ → Prop) (Adj : α → α → Prop) (exempt : α → Prop)
    (T : Index κ α) : Prop where
  sound : ∀ {d x}, T d = some x → ∃ y, Adj x y ∧ d = (key x, key y)
  cover : ∀ {x y}, Adj x y → ¬ exempt x → Covered key Adj T x y
  late : ∀ {k w x}, T (k, k) = some x → Adj w x → key w = k →
    ∃ y v, Adj x y ∧ Adj y v ∧ above k (key v)

variable {above : κ → κ → Prop} {Adj Adj' : α → α → Prop} {exempt exempt' : α → Prop}

namespace Indexed

variable (h : Indexed key above Adj exempt T)

include h

/-- Exempting more, or other places that are none. -/
theorem exempting (hex : ∀ {x y}, Adj x y → ¬ exempt' x → ¬ exempt x) :
    Indexed key above Adj exempt' T :=
  ⟨h.sound, fun hxy hx => h.cover hxy (hex hxy hx), h.late⟩

theorem key_eq {x y : α} (hxy : Adj x y) (hlin : Linear Adj) (hT : T d = some x) :
    d = (key x, key y) := by
  obtain ⟨y', hxy', rfl⟩ := h.sound hT
  rw [hlin.succ_unique hxy hxy']

/-- The second of two overlapping places is not named where a third one would
follow. -/
theorem not_late (hlin : Linear Adj) (habove : ∀ k, ¬ above k k) {w x y v : α} {k : κ}
    (hT : T (k, k) = some x) (hw : Adj w x) (hwk : key w = k) (hxy : Adj x y) (hyv : Adj y v) :
    key v ≠ k := by
  rintro rfl
  obtain ⟨y', v', hxy', hyv', hlt⟩ := h.late hT hw hwk
  rw [hlin.succ_unique hxy hxy'] at hyv
  rw [hlin.succ_unique hyv hyv'] at hlt
  exact habove _ hlt

/-- **No pair at two places that do not overlap.** Both places are covered by the
one that is named; it cannot lie between them, by `late`. -/
theorem unique (hlin : Linear Adj) (habove : ∀ k, ¬ above k k) {x y x' y' : α}
    (hxy : Adj x y) (hxy' : Adj x' y') (hx : ¬ exempt x) (hx' : ¬ exempt x')
    (hkey : (key x, key y) = (key x', key y')) : x = x' ∨ x' = y ∨ x = y' := by
  have hcov := h.cover hxy hx
  have hcov' := h.cover hxy' hx'
  unfold Covered at hcov hcov'
  rw [← hkey] at hcov'
  obtain ⟨hk, hk'⟩ := Prod.mk.injEq .. ▸ hkey
  rcases hcov with hT | ⟨heq, ⟨w, hw, hwk, hT⟩ | ⟨v, hv, hvk, hT⟩⟩ <;>
    rw [hT] at hcov' <;>
    simp only [Option.some.injEq] at hcov' <;>
    rcases hcov' with rfl | ⟨-, ⟨w', hw', hwk', rfl⟩ | ⟨v', hv', hvk', rfl⟩⟩
  · exact Or.inl rfl
  · exact Or.inr (Or.inl (hlin.succ_unique hw' hxy))
  · exact Or.inr (Or.inr rfl)
  · exact Or.inr (Or.inr (hlin.succ_unique hw hxy'))
  · exact Or.inl (hlin.succ_unique hw hw')
  · -- The chain is `x' w x y`, with `w` named.
    refine absurd heq.symm (h.not_late hlin habove (heq ▸ hT) hxy' ?_ hw hxy)
    rw [← hk, heq]
  · exact Or.inr (Or.inl rfl)
  · -- The chain is `x y x' y'`, with `y` named.
    refine absurd ?_ (h.not_late hlin habove (heq ▸ hT) hxy heq hw' hxy')
    exact hk'.symm
  · exact Or.inl (hlin.pred_unique hxy hxy')

/-- **A place is recorded** that shares its pair with no other place, the exempt
ones aside. -/
theorem record [DecidableEq α] [DecidableEq κ] (hlin : Linear Adj) {x y : α} (hxy : Adj x y)
    (hother : ∀ {u v}, Adj u v → ¬ exempt u → u ≠ x → (key u, key v) ≠ (key x, key y))
    (hbefore : ∀ {w}, Adj w x → w ≠ x ∧ ¬ exempt w) :
    Indexed key above Adj (fun u => exempt u ∧ u ≠ x)
      (Function.update T (key x, key y) (some x)) where
  sound {d u} hT := by
    by_cases hd : d = (key x, key y)
    · rw [hd, Function.update_self, Option.some.injEq] at hT
      exact hT ▸ ⟨y, hxy, hd⟩
    · rw [Function.update_of_ne hd] at hT
      exact h.sound hT
  cover {u v} huv hu := by
    unfold Covered
    by_cases hux : u = x
    · rw [hux] at huv ⊢
      rw [hlin.succ_unique huv hxy, Function.update_self]
      exact Or.inl rfl
    · have hex : ¬ exempt u := fun hex => hu ⟨hex, hux⟩
      rw [Function.update_of_ne (hother huv hex hux)]
      exact h.cover huv hex
  late {k w u} hT hw hwk := by
    by_cases hd : (k, k) = (key x, key y)
    · rw [hd, Function.update_self, Option.some.injEq] at hT
      obtain ⟨hkx, hky⟩ := Prod.mk.injEq .. ▸ hd
      obtain ⟨hne, hex⟩ := hbefore (hT ▸ hw)
      exact absurd (by rw [hwk, hkx, ← hky, hkx]) (hother (hT ▸ hw) hex hne)
    · rw [Function.update_of_ne hd] at hT
      exact h.late hT hw hwk

/-- **A new place**, exempt, if there is an item before the new one. -/
theorem add {x : Option α} {y : α} (hadj : ∀ {u v}, Adj' u v ↔ Adj u v ∨ x = some u ∧ v = y)
    (hnew : ∀ v, ¬ Adj y v) : Indexed key above Adj' (fun u => exempt u ∨ x = some u) T where
  sound hT := by
    obtain ⟨v, huv, hd⟩ := h.sound hT
    exact ⟨v, hadj.mpr (Or.inl huv), hd⟩
  cover {u v} huv hu := by
    rcases hadj.mp huv with huv | ⟨hx, -⟩
    · rcases h.cover huv fun hex => hu (Or.inl hex) with
        hT | ⟨heq, ⟨w, hw, hwk, hT⟩ | ⟨v', hv, hvk, hT⟩⟩
      · exact Or.inl hT
      · exact Or.inr ⟨heq, Or.inl ⟨w, hadj.mpr (Or.inl hw), hwk, hT⟩⟩
      · exact Or.inr ⟨heq, Or.inr ⟨v', hadj.mpr (Or.inl hv), hvk, hT⟩⟩
    · exact absurd (Or.inr hx) hu
  late hT hw hwk := by
    rcases hadj.mp hw with hw | ⟨-, rfl⟩
    · obtain ⟨y', v', hy, hv, hlt⟩ := h.late hT hw hwk
      exact ⟨y', v', hadj.mpr (Or.inl hy), hadj.mpr (Or.inl hv), hlt⟩
    · obtain ⟨v, hv, -⟩ := h.sound hT
      exact absurd hv (hnew v)

/-- A place that the named one overlaps on the left needs no exemption. -/
theorem overlap {x y z : α} (hxy : Adj x y) (hyz : Adj y z) (hlin : Linear Adj)
    (hT : T (key y, key z) = some x) : Indexed key above Adj (fun u => exempt u ∧ u ≠ y) T where
  sound := h.sound
  late := h.late
  cover {u v} huv hu := by
    by_cases huy : u = y
    · rw [huy] at huv ⊢
      rw [hlin.succ_unique huv hyz]
      obtain ⟨hkx, hky⟩ := Prod.mk.injEq .. ▸ h.key_eq hxy hlin hT
      exact Or.inr ⟨by rw [hky], Or.inl ⟨x, hxy, hkx.symm, hT⟩⟩
    · exact h.cover huv fun hex => hu ⟨hex, huy⟩

end Indexed

/-! ## Replacing two neighbours -/

/-- **Two neighbours `a b` make way for `z`**: the adjacency before and after, and
what stands on either side. -/
structure Cut (Adj Adj' : α → α → Prop) (qp q : Option α) (a b z : α) (c cn : Option α) :
    Prop where
  linear : Linear Adj
  pair : Adj a b
  before : ∀ {x}, Adj x a ↔ q = some x
  before₂ : ∀ {x y}, q = some y → (Adj x y ↔ qp = some x)
  after : ∀ {y}, Adj b y ↔ c = some y
  after₂ : ∀ {x y}, c = some x → (Adj x y ↔ cn = some y)
  a_ne_b : a ≠ b
  q_ne : ∀ {x}, q = some x → x ≠ a ∧ x ≠ b
  qp_ne : ∀ {x y}, qp = some x → q = some y → x ≠ y ∧ x ≠ a ∧ x ≠ b
  c_ne : ∀ {x}, c = some x → q ≠ some x ∧ qp ≠ some x ∧ x ≠ a ∧ x ≠ b
  adj' : ∀ {x y}, Adj' x y ↔ Adj x y ∧ x ≠ a ∧ x ≠ b ∧ y ≠ a ∨ q = some x ∧ y = z
    ∨ x = z ∧ c = some y
  fresh : ∀ {x}, ¬ Adj x z ∧ ¬ Adj z x

namespace Cut

variable {z : α} (cut : Cut Adj Adj' qp q a b z c cn)

include cut

/-- The neighbour of an item that stays is no item that goes. -/
theorem stays {x y : α} (hxy : Adj x y) (hq : q ≠ some x) (hxa : x ≠ a) (hxb : x ≠ b) :
    Adj' x y ∧ y ≠ a ∧ y ≠ b := by
  have hya : y ≠ a := by
    rintro rfl
    exact hq (cut.before.mp hxy)
  refine ⟨cut.adj'.mpr (Or.inl ⟨hxy, hxa, hxb, hya⟩), hya, ?_⟩
  rintro rfl
  exact hxa (cut.linear.pred_unique hxy cut.pair)

/-- A pair that is restored stands where it stood before. -/
theorem adj_of_restored {u : α} {d : κ × κ} (h : Restored key qp q a b c cn u d) :
    (∃ v, Adj u v ∧ Adj' u v ∧ d = (key u, key v)) ∧ q ≠ some u ∧ u ≠ a ∧ u ≠ b := by
  rcases h with ⟨y, hu, hy, -, hd, -⟩ | ⟨y, hu, hy, -, -, hd⟩
  · obtain ⟨huy, hua, hub⟩ := cut.qp_ne hu hy
    have hadj := (cut.before₂ hy).mpr hu
    have hq : q ≠ some u := fun hq => huy (Option.some.inj (hq.symm.trans hy))
    exact ⟨⟨y, hadj, (cut.stays hadj hq hua hub).1, hd⟩, hq, hua, hub⟩
  · obtain ⟨hq, -, hua, hub⟩ := cut.c_ne hu
    have hadj := (cut.after₂ hu).mpr hy
    exact ⟨⟨y, hadj, (cut.stays hadj hq hua hub).1, hd⟩, hq, hua, hub⟩

end Cut

section Replace

variable [DecidableEq α] [DecidableEq κ] {z : α} (cut : Cut Adj Adj' qp q a b z c cn)
  (h : Indexed key above Adj exempt T)

include cut h

/-- The items that lose their place are not named any more. -/
theorem replace_ne {d : κ × κ} {u : α} (hT : runAll (replaceEdits key qp q a b c cn) T d = some u) :
    q ≠ some u ∧ u ≠ a ∧ u ≠ b := by
  have hsome := runAll_eq_some hT
  rw [record_mem_replaceEdits] at hsome
  refine ⟨fun hq => ?_, ?_, ?_⟩
  · obtain ⟨hua, hub⟩ := cut.q_ne hq
    rcases hsome with hT' | ⟨rfl, -⟩ | hr
    · have hd := h.key_eq (cut.before.mpr hq) cut.linear hT'
      refine runAll_ne ?_ (fun hrec => ?_) hT
      · rw [hd, hq]
        simp [replaceEdits, unlinkEdits, forgetPair]
      · rcases record_mem_replaceEdits.mp hrec with ⟨rfl, -⟩ | hr
        · exact hub rfl
        · exact (cut.adj_of_restored hr).2.1 hq
    · exact hub rfl
    · exact (cut.adj_of_restored hr).2.1 hq
  · rintro rfl
    rcases hsome with hT' | ⟨rfl, -⟩ | hr
    · have hd := h.key_eq cut.pair cut.linear hT'
      refine runAll_ne ?_ (fun hrec => ?_) hT
      · rw [hd]
        simp [replaceEdits, unlinkEdits, forgetPair]
      · rcases record_mem_replaceEdits.mp hrec with ⟨hub, -⟩ | hr
        · exact cut.a_ne_b hub
        · exact (cut.adj_of_restored hr).2.2.1 rfl
    · exact cut.a_ne_b rfl
    · exact (cut.adj_of_restored hr).2.2.1 rfl
  · -- `b` may be recorded when `a` is taken out; it is forgotten when `b` itself is.
    rintro rfl
    obtain ⟨y, hc, hd⟩ : ∃ y, c = some y ∧ d = (key u, key y) := by
      rcases hsome with hT' | ⟨-, y, hc, -, -, hd⟩ | hr
      · obtain ⟨y, hy, hd⟩ := h.sound hT'
        exact ⟨y, cut.after.mp hy, hd⟩
      · exact ⟨y, hc, hd⟩
      · exact absurd rfl (cut.adj_of_restored hr).2.2.2
    rw [replaceEdits, runAll_append] at hT
    refine runAll_ne ?_ (fun hrec => ?_) hT
    · rw [hd, hc]
      simp [unlinkEdits, forgetPair]
    · have hr : Restored key qp q a u c cn u d := by
        rcases List.mem_append.mp hrec with hrec | hrec
        · rcases record_mem_unlinkEdits.mp hrec with
            ⟨y, hu, hy, h₁, h₂, hd⟩ | ⟨y, hu, hy, h₁, h₂, hd⟩
          · exact Or.inr ⟨y, hu, hy, h₁, h₂, hd⟩
          · exact Or.inl ⟨y, hu, hy, h₁, hd, Or.inr (Or.inl h₂)⟩
        · obtain ⟨y, z', hu, hy, hz, h₁, h₂, hd⟩ := record_mem_linkEdits.mp hrec
          exact Or.inl ⟨y, hu, hy, h₁, hd, Or.inr (Or.inr ⟨z', hz, h₂⟩)⟩
      exact (cut.adj_of_restored hr).2.2.2 rfl

/-- An entry after the replacement was there before, or is a restored pair. -/
theorem replace_cases {d : κ × κ} {u : α}
    (hT : runAll (replaceEdits key qp q a b c cn) T d = some u) :
    T d = some u ∨ Restored key qp q a b c cn u d := by
  rcases runAll_eq_some hT with hT' | hrec
  · exact Or.inl hT'
  · rcases record_mem_replaceEdits.mp hrec with ⟨hub, -⟩ | hr
    · exact absurd hub (replace_ne cut h hT).2.2
    · exact Or.inr hr

variable (habove : ∀ k, ¬ above k k) (hqp : ∀ {x}, qp = some x → ¬ exempt x)
  (hb : ∀ {x}, c = some x → ¬ exempt b)

include habove hqp hb

omit [DecidableEq α] [DecidableEq κ] in
/-- The pair before the replaced one is not the pair behind it. -/
theorem replace_exclusive {x y v : α} (hx : qp = some x) (hy : q = some y) (hv : c = some v) :
    (key x, key y) ≠ (key b, key v) := by
  intro hkey
  obtain ⟨-, -, hxb⟩ := cut.qp_ne hx hy
  rcases h.unique cut.linear habove ((cut.before₂ hy).mpr hx) (cut.after.mpr hv) (hqp hx) (hb hv)
    hkey with rfl | rfl | rfl
  · exact hxb rfl
  · exact (cut.q_ne hy).2 rfl
  · exact (cut.c_ne hv).2.1 hx

/-- A restored pair is there after the replacement. -/
theorem replace_of_restored {d : κ × κ} {u : α} (hr : Restored key qp q a b c cn u d) :
    runAll (replaceEdits key qp q a b c cn) T d = some u := by
  obtain ⟨-, hq, hua, hub⟩ := cut.adj_of_restored hr
  have hfor : .forget u d ∉ replaceEdits key qp q a b c cn := fun hf => by
    rcases forget_mem_replaceEdits hf with h | h | h
    · exact hq h
    · exact hua h
    · exact hub h
  rcases hr with ⟨y, hu, hy, huy, hd, hk⟩ | ⟨y, hu, hy, hbu, huy, hd⟩
  · refine runAll_of_record (record_mem_replaceEdits.mpr (Or.inr (Or.inl ⟨y, hu, hy, huy, hd, hk⟩)))
      (fun v hrec => ?_) hfor
    rcases record_mem_replaceEdits.mp hrec with
      ⟨-, w, hw, -, -, hd'⟩ | ⟨w, hv, -⟩ | ⟨w, hv, -, hbv, hvw, hd'⟩
    · exact absurd (hd.symm.trans hd') (replace_exclusive cut h habove hqp hb hu hy hw)
    · exact Option.some.inj (hv.symm.trans hu)
    · refine absurd ?_ (replace_exclusive cut h habove hqp hb hu hy hv)
      rw [← hd, hd', hbv, ← hvw]
  · -- Only the last two thirds of the edits count: `b` may be recorded before.
    rw [replaceEdits, runAll_append]
    refine runAll_of_record ?_ (fun v hrec => ?_) fun hf => hfor (List.mem_append_right _ hf)
    · exact List.mem_append_left _ (record_mem_unlinkEdits.mpr
        (Or.inl ⟨y, hu, hy, hbu, huy, hd⟩))
    · have hbefore : ∀ {w}, qp = some v → q = some w → d = (key v, key w) → v = u := by
        intro w hv hw hd'
        refine absurd ?_ (replace_exclusive cut h habove hqp hb hv hw hu)
        rw [← hd', hd, hbu, ← huy]
      rcases List.mem_append.mp hrec with hrec | hrec
      · rcases record_mem_unlinkEdits.mp hrec with ⟨w, hv, -⟩ | ⟨w, hv, hw, -, -, hd'⟩
        · exact Option.some.inj (hv.symm.trans hu)
        · exact hbefore hv hw hd'
      · obtain ⟨w, -, hv, hw, -, -, -, hd'⟩ := record_mem_linkEdits.mp hrec
        exact hbefore hv hw hd'

/-- **The places that stay are covered** after the replacement. -/
theorem replace_cover {u v : α} (huv : Adj u v) (hex : ¬ exempt u) (hq : q ≠ some u)
    (hua : u ≠ a) (hub : u ≠ b) :
    Covered key Adj' (runAll (replaceEdits key qp q a b c cn) T) u v := by
  obtain ⟨-, hva, hvb⟩ := cut.stays huv hq hua hub
  by_cases hrec : ∃ y, .record y (key u, key v) ∈ replaceEdits key qp q a b c cn
  · obtain ⟨y, hrec⟩ := hrec
    rcases record_mem_replaceEdits.mp hrec with ⟨rfl, w, hw, hay, hyw, hd⟩ | hr
    · -- The pair of `b` and its follower: only the place of that follower is left.
      rcases h.unique cut.linear habove huv (cut.after.mpr hw) hex (hb hw) hd with rfl | rfl | rfl
      · exact absurd rfl hub
      · exact absurd rfl hvb
      · refine Or.inl (replace_of_restored cut h habove hqp hb (Or.inr ⟨v, hw, ?_, hyw, ?_, rfl⟩))
        · exact (cut.after₂ hw).mp huv
        · rw [Prod.mk.injEq] at hd
          rw [hd.2]
    · have hT := replace_of_restored cut h habove hqp hb hr
      rcases hr with ⟨w, hy, hw, hyw, hd, -⟩ | ⟨w, hy, hw, hby, hyw, hd⟩
      · have hadj := (cut.before₂ hw).mpr hy
        rcases h.unique cut.linear habove huv hadj hex (hqp hy) hd with rfl | rfl | rfl
        · exact Or.inl hT
        · obtain ⟨hyw', hya, hyb⟩ := cut.qp_ne hy hw
          have hyq : q ≠ some y := fun hyq => hyw' (Option.some.inj (hyq.symm.trans hw))
          rw [Prod.mk.injEq] at hd
          exact Or.inr ⟨hd.1, Or.inr ⟨w, (cut.stays hadj hyq hya hyb).1, hyw.symm, hT⟩⟩
        · exact absurd hw hq
      · have hkey : (key u, key v) = (key b, key y) := by rw [hd, hby, ← hyw]
        rcases h.unique cut.linear habove huv (cut.after.mpr hy) hex (hb hy) hkey with
          rfl | rfl | rfl
        · exact absurd rfl hub
        · exact absurd rfl hvb
        · exact Or.inl hT
  · -- The entry of the pair is not replaced, and its item stays.
    have hkept : ∀ {t}, T (key u, key v) = some t → q ≠ some t → t ≠ a → t ≠ b →
        runAll (replaceEdits key qp q a b c cn) T (key u, key v) = some t := by
      intro t hT htq hta htb
      refine runAll_of_ne hT (fun y hy => hrec ⟨y, hy⟩) fun hf => ?_
      rcases forget_mem_replaceEdits hf with h | h | h
      · exact htq h
      · exact hta h
      · exact htb h
    rcases h.cover huv hex with hT | ⟨heq, ⟨w, hw, hwk, hT⟩ | ⟨v', hv, hvk, hT⟩⟩
    · exact Or.inl (hkept hT hq hua hub)
    · have hwq : q ≠ some w := fun hwq =>
        hua (cut.linear.succ_unique hw (cut.before.mpr hwq))
      have hwa : w ≠ a := by
        rintro rfl
        exact hub (cut.linear.succ_unique hw cut.pair)
      have hwb : w ≠ b := by
        rintro rfl
        have hc := cut.after.mp hw
        refine hrec ⟨u, record_mem_replaceEdits.mpr (Or.inr (Or.inr ⟨v, hc, ?_, hwk, heq, rfl⟩))⟩
        exact (cut.after₂ hc).mp huv
      exact Or.inr ⟨heq, Or.inl ⟨w, (cut.stays hw hwq hwa hwb).1, hwk, hkept hT hwq hwa hwb⟩⟩
    · have hvq : q ≠ some v := fun hvq => by
        have hv' : v' = a := cut.linear.succ_unique hv (cut.before.mpr hvq)
        refine hrec ⟨u, record_mem_replaceEdits.mpr (Or.inr (Or.inl
          ⟨v, (cut.before₂ hvq).mp huv, hvq, heq, rfl, Or.inl ?_⟩))⟩
        rw [← hvk, hv']
      exact Or.inr ⟨heq, Or.inr ⟨v', (cut.stays hv hvq hva hvb).1, hvk, hkept hT hvq hva hvb⟩⟩

/-- **The index is kept when two neighbours make way for one item** whose key is
above theirs and above that of the item behind them. The two places of the new
item are exempt. -/
theorem Indexed.replace (htrans : ∀ {k l m}, above k l → above l m → above k m)
    (hza : above (key a) (key z)) (hzb : above (key b) (key z))
    (hzc : ∀ {x}, c = some x → above (key x) (key z)) :
    Indexed key above Adj' (fun x => exempt x ∨ q = some x ∨ x = z)
      (runAll (replaceEdits key qp q a b c cn) T) where
  sound {d u} hT := by
    obtain ⟨hq, hua, hub⟩ := replace_ne cut h hT
    rcases replace_cases cut h hT with hT | hr
    · obtain ⟨v, huv, hd⟩ := h.sound hT
      exact ⟨v, (cut.stays huv hq hua hub).1, hd⟩
    · obtain ⟨⟨v, -, huv, hd⟩, -⟩ := cut.adj_of_restored hr
      exact ⟨v, huv, hd⟩
  cover {u v} huv hex := by
    rw [not_or, not_or] at hex
    obtain ⟨hex, hq, hz⟩ := hex
    rcases cut.adj'.mp huv with ⟨huv, hua, hub, -⟩ | ⟨hq', -⟩ | ⟨hz', -⟩
    · exact replace_cover cut h habove hqp hb huv hex hq hua hub
    · exact absurd hq' hq
    · exact absurd hz' hz
  late {k w u} hT hw hwk := by
    obtain ⟨hq, hua, hub⟩ := replace_ne cut h hT
    have hcases := replace_cases cut h hT
    -- An item that is named has a neighbour, and its key is `k`.
    obtain ⟨v, huv, hku⟩ : ∃ v, Adj u v ∧ k = key u := by
      rcases hcases with hT | hr
      · obtain ⟨v, huv, hd⟩ := h.sound hT
        exact ⟨v, huv, (Prod.mk.injEq .. ▸ hd).1⟩
      · obtain ⟨⟨v, huv, -, hd⟩, -⟩ := cut.adj_of_restored hr
        exact ⟨v, huv, (Prod.mk.injEq .. ▸ hd).1⟩
    rcases cut.adj'.mp hw with ⟨hw, hwa, hwb, -⟩ | ⟨-, rfl⟩ | ⟨rfl, hc⟩
    · rcases hcases with hT | ⟨y, hu, hy, -, hd, hk⟩ | ⟨y, hu, -⟩
      · obtain ⟨y, x, hy, hx, hlt⟩ := h.late hT hw hwk
        obtain ⟨hy', hya, hyb⟩ := cut.stays hy hq hua hub
        by_cases hxa : x = a
        · -- The item that followed was `a`; now `z` does.
          rw [hxa] at hx hlt
          exact ⟨y, z, hy', cut.adj'.mpr (Or.inr (Or.inl ⟨cut.before.mp hx, rfl⟩)),
            htrans hlt hza⟩
        · exact ⟨y, x, hy', cut.adj'.mpr (Or.inl ⟨hx, hya, hyb, hxa⟩), hlt⟩
      · have hadj := (cut.before₂ hy).mpr hu
        have hky : k = key y := (Prod.mk.injEq .. ▸ hd).2
        refine ⟨y, z, (cut.stays hadj hq hua hub).1,
          cut.adj'.mpr (Or.inr (Or.inl ⟨hy, rfl⟩)), ?_⟩
        rcases hk with hk | hk | ⟨x, hx, hk⟩
        · rw [hky, hk]
          exact hza
        · rw [hky, hk]
          exact hzb
        · rw [hky, hk]
          exact hzc hx
      · exact absurd (cut.linear.pred_unique hw (cut.after.mpr hu)) hwb
    · exact absurd huv cut.fresh.2
    · refine absurd (hzc hc) ?_
      rw [hwk, hku]
      exact habove _

end Replace

/-! ## Sequences -/

section Sequences

variable {α : Type}

/-- Two items stand next to each other in a sequence. -/
def AdjIn (l : List α) (x y : α) : Prop := ∃ u v, l = u ++ x :: y :: v

/-- Two items stand next to each other in one of the sequences. -/
def Adjacent (F : List (List α)) (x y : α) : Prop := ∃ l ∈ F, AdjIn l x y

theorem AdjIn.mem {l : List α} {x y : α} (h : AdjIn l x y) : x ∈ l ∧ y ∈ l := by
  obtain ⟨u, v, rfl⟩ := h
  simp

theorem adjacent_cons {l : List α} {F : List (List α)} {x y : α} :
    Adjacent (l :: F) x y ↔ AdjIn l x y ∨ Adjacent F x y := by
  simp [Adjacent]

@[simp] theorem not_adjIn_nil {x y : α} : ¬ AdjIn [] x y := fun h => List.not_mem_nil h.mem.1

theorem adjIn_cons {l : List α} {p x y : α} :
    AdjIn (p :: l) x y ↔ x = p ∧ l.head? = some y ∨ AdjIn l x y := by
  constructor
  · rintro ⟨u, v, h⟩
    cases u with
    | nil =>
      cases h
      exact Or.inl ⟨rfl, rfl⟩
    | cons p' u =>
      cases h
      exact Or.inr ⟨u, v, rfl⟩
  · rintro (⟨rfl, hy⟩ | ⟨u, v, rfl⟩)
    · obtain ⟨v, rfl⟩ := List.head?_eq_some_iff.mp hy
      exact ⟨[], v, rfl⟩
    · exact ⟨p :: u, v, rfl⟩

theorem adjIn_append {l r : List α} {x y : α} :
    AdjIn (l ++ r) x y
      ↔ AdjIn l x y ∨ (l.getLast? = some x ∧ r.head? = some y) ∨ AdjIn r x y := by
  induction l with
  | nil => simp
  | cons p l ih =>
    rw [List.cons_append, adjIn_cons, ih, adjIn_cons]
    cases l with
    | nil => simp [eq_comm]
    | cons q l => simp [or_assoc]

/-- The places around the end of the part before, which is given in reverse. -/
theorem adjIn_reverse_append {left r : List α} {x y : α} :
    AdjIn (left.reverse ++ r) x y
      ↔ AdjIn left.reverse x y ∨ (left.head? = some x ∧ r.head? = some y) ∨ AdjIn r x y := by
  rw [adjIn_append, List.getLast?_reverse]

theorem adjacent_mem {F : List (List α)} {x y : α} (h : Adjacent F x y) :
    x ∈ F.flatten ∧ y ∈ F.flatten := by
  obtain ⟨l, hl, hxy⟩ := h
  exact ⟨List.mem_flatten_of_mem hl hxy.mem.1, List.mem_flatten_of_mem hl hxy.mem.2⟩

theorem AdjIn.mem_dropLast {l : List α} {x y : α} (h : AdjIn l x y) : x ∈ l.dropLast := by
  obtain ⟨u, v, rfl⟩ := h
  simp

/-- The first item of a sequence may be repeated at its end. -/
theorem linear_cons {l : List α} {p : α} (hl : l.Nodup) (hp : p ∉ l.dropLast) :
    Linear (AdjIn (p :: l)) := by
  induction l generalizing p with
  | nil =>
    have hno : ∀ {x y}, ¬ AdjIn [p] x y := fun h => List.not_mem_nil h.mem_dropLast
    exact ⟨fun h => absurd h hno, fun h => absurd h hno⟩
  | cons q l ih =>
    obtain ⟨hq, hl⟩ := List.nodup_cons.mp hl
    have hrec := ih hl fun hmem => hq (List.dropLast_subset _ hmem)
    have hhead : ∀ {w}, ¬ AdjIn (q :: l) w q := by
      rintro w h
      rcases adjIn_cons.mp h with ⟨-, hlast⟩ | h
      · exact hq (List.mem_of_head? hlast)
      · exact hq h.mem.2
    refine ⟨fun {x y y'} h h' => ?_, fun {x x' y} h h' => ?_⟩
    · rcases adjIn_cons.mp h with ⟨hx, hy⟩ | h <;> rcases adjIn_cons.mp h' with ⟨hx', hy'⟩ | h'
      · exact Option.some.inj (hy.symm.trans hy')
      · exact absurd (hx ▸ h'.mem_dropLast) hp
      · exact absurd (hx' ▸ h.mem_dropLast) hp
      · exact hrec.succ_unique h h'
    · rcases adjIn_cons.mp h with ⟨hx, hy⟩ | h <;> rcases adjIn_cons.mp h' with ⟨hx', hy'⟩ | h'
      · exact hx.trans hx'.symm
      · cases hy
        exact absurd h' hhead
      · cases hy'
        exact absurd h hhead
      · exact hrec.pred_unique h h'

theorem AdjIn.linear {l : List α} (hl : l.Nodup) : Linear (AdjIn l) := by
  cases l with
  | nil => exact ⟨fun h => absurd h not_adjIn_nil, fun h => absurd h not_adjIn_nil⟩
  | cons p l =>
    obtain ⟨hp, hl⟩ := List.nodup_cons.mp hl
    exact linear_cons hl fun hmem => hp (List.dropLast_subset _ hmem)

/-- **Sequences without repetitions are linear.** -/
theorem Adjacent.linear {F : List (List α)} (hF : F.flatten.Nodup) : Linear (Adjacent F) := by
  induction F with
  | nil =>
    exact ⟨fun h => absurd (adjacent_mem h).1 List.not_mem_nil,
      fun h => absurd (adjacent_mem h).1 List.not_mem_nil⟩
  | cons l F ih =>
    rw [List.flatten_cons, List.nodup_append] at hF
    obtain ⟨hl, hF, hdisj⟩ := hF
    refine ⟨fun {x y y'} h h' => ?_, fun {x x' y} h h' => ?_⟩ <;>
      rcases adjacent_cons.mp h with h | h <;> rcases adjacent_cons.mp h' with h' | h'
    · exact (AdjIn.linear hl).succ_unique h h'
    · exact absurd rfl (hdisj _ h.mem.1 _ (adjacent_mem h').1)
    · exact absurd rfl (hdisj _ h'.mem.1 _ (adjacent_mem h).1)
    · exact (ih hF).succ_unique h h'
    · exact (AdjIn.linear hl).pred_unique h h'
    · exact absurd rfl (hdisj _ h.mem.2 _ (adjacent_mem h').2)
    · exact absurd rfl (hdisj _ h'.mem.2 _ (adjacent_mem h).2)
    · exact (ih hF).pred_unique h h'

theorem Adjacent.ne {F : List (List α)} (hF : F.flatten.Nodup) {x y : α} (h : Adjacent F x y) :
    x ≠ y := by
  obtain ⟨l, hl, u, v, rfl⟩ := h
  have hnodup := (List.nodup_flatten.mp hF).1 _ hl
  rintro rfl
  simp [List.nodup_append] at hnodup

/-- A sequence of two more. -/
theorem adjacent_append_pair {F : List (List α)} {p r x y : α} :
    Adjacent (F ++ [[p, r]]) x y ↔ Adjacent F x y ∨ x = p ∧ y = r := by
  have hpair : AdjIn [p, r] x y ↔ x = p ∧ y = r := by
    rw [adjIn_cons, adjIn_cons]
    simp [eq_comm]
  simp only [Adjacent, List.mem_append, List.mem_singleton, or_and_right, exists_or,
    exists_eq_left, hpair]

/-- The first sequence gets one more item. -/
theorem adjacent_snoc {l : List α} {F : List (List α)} {z x y : α} :
    Adjacent ((l ++ [z]) :: F) x y ↔ Adjacent (l :: F) x y ∨ l.getLast? = some x ∧ y = z := by
  rw [adjacent_cons, adjacent_cons, adjIn_append, adjIn_cons]
  simp [eq_comm, or_assoc, or_comm]

/-- Nothing follows the last item. -/
theorem not_adjacent_last {l : List α} {F : List (List α)} {z y : α}
    (hF : ((l ++ [z]) :: F).flatten.Nodup) : ¬ Adjacent ((l ++ [z]) :: F) z y := by
  have hperm : ((l ++ [z]) :: F).flatten.Perm (z :: (l :: F).flatten) := by
    rw [List.flatten_cons, List.flatten_cons, List.append_assoc]
    exact List.perm_middle
  have hz := (List.nodup_cons.mp (hperm.nodup_iff.mp hF)).1
  rw [adjacent_snoc]
  rintro (h | ⟨h, -⟩)
  · exact hz (adjacent_mem h).1
  · exact hz (List.mem_append_left _ (List.mem_of_getLast? h))

/-- **Two neighbours of the first sequence make way for a new item.** -/
theorem cut_adjacent {left right : List α} {a b z : α} {F : List (List α)}
    (hF : ((left.reverse ++ a :: b :: right) :: F).flatten.Nodup)
    (hz : z ∉ ((left.reverse ++ a :: b :: right) :: F).flatten) :
    Cut (Adjacent ((left.reverse ++ a :: b :: right) :: F))
      (Adjacent ((left.reverse ++ z :: right) :: F))
      left.tail.head? left.head? a b z right.head? right.tail.head? := by
  have hadj : ∀ x y, Adjacent ((left.reverse ++ a :: b :: right) :: F) x y
      ↔ AdjIn left.reverse x y ∨ (left.head? = some x ∧ y = a) ∨ (x = a ∧ y = b)
        ∨ (x = b ∧ right.head? = some y) ∨ AdjIn right x y ∨ Adjacent F x y := by
    intro x y
    rw [adjacent_cons, adjIn_reverse_append, adjIn_cons, adjIn_cons]
    simp only [List.head?_cons, Option.some.injEq, or_assoc, eq_comm]
  have hadj' : ∀ x y, Adjacent ((left.reverse ++ z :: right) :: F) x y
      ↔ AdjIn left.reverse x y ∨ (left.head? = some x ∧ y = z) ∨ (x = z ∧ right.head? = some y)
        ∨ AdjIn right x y ∨ Adjacent F x y := by
    intro x y
    rw [adjacent_cons, adjIn_reverse_append, adjIn_cons]
    simp only [List.head?_cons, Option.some.injEq, or_assoc, eq_comm]
  have hlin := Adjacent.linear hF
  simp only [List.flatten_cons, List.nodup_append, List.nodup_reverse, List.nodup_cons,
    List.mem_append, List.mem_reverse, List.mem_cons] at hF hz
  obtain ⟨⟨hleft, ⟨ha, hb, hright⟩, hlr⟩, -, hdisj⟩ := hF
  have hL : ∀ {x y}, AdjIn left.reverse x y → x ∈ left ∧ y ∈ left := fun h => by
    simpa using h.mem
  have hR : ∀ {x y}, AdjIn right x y → x ∈ right ∧ y ∈ right := fun h => h.mem
  have hG : ∀ {x y}, Adjacent F x y → x ∈ F.flatten ∧ y ∈ F.flatten := fun h => adjacent_mem h
  have hhead : ∀ {l : List α} {x}, l.head? = some x → x ∈ l := fun h => List.mem_of_head? h
  constructor
  case linear => exact hlin
  case pair => exact (hadj a b).mpr (by simp)
  case before => grind
  case before₂ =>
    intro x y hy
    obtain ⟨rest, rfl⟩ := List.head?_eq_some_iff.mp hy
    have hrest : AdjIn (y :: rest).reverse x y ↔ rest.head? = some x := by
      have hno : ¬ AdjIn rest.reverse x y := fun h =>
        (List.nodup_cons.mp hleft).1 (List.mem_reverse.mp h.mem.2)
      rw [List.reverse_cons, adjIn_reverse_append, adjIn_cons]
      simp [hno]
    grind
  case after => grind
  case after₂ =>
    intro x y hx
    obtain ⟨rest, rfl⟩ := List.head?_eq_some_iff.mp hx
    have hrest : AdjIn (x :: rest) x y ↔ rest.head? = some y := by
      have hno : ¬ AdjIn rest x y := fun h => (List.nodup_cons.mp hright).1 h.mem.1
      rw [adjIn_cons]
      simp [hno]
    grind
  case a_ne_b => grind
  case q_ne => grind
  case qp_ne =>
    intro x y hx hy
    obtain ⟨rest, rfl⟩ := List.head?_eq_some_iff.mp hy
    have hmem : x ∈ rest := hhead hx
    grind
  case c_ne =>
    intro x hx
    have hmem : left.tail.head? = some x → x ∈ left := fun h => List.mem_of_mem_tail (hhead h)
    grind
  case adj' => grind
  case fresh => grind

end Sequences

end PairIndex
