import Mathlib.Logic.Function.Basic
import Mathlib.Data.Int.GCD

/-!
# Open addressing with deleted slots

A table is a sequence of slots. A slot is empty (`0`), or deleted (`1`), or it
holds an entry, which is a number greater than one. The entries that may belong
to a key lie along its probe sequence, which starts at a place and advances by a
distance that both depend on the key.

`search` walks along a probe sequence until it meets an entry that it is told to
be the right one, or an empty slot; in that case it returns the last deleted
slot it has passed, or the empty one. It may never meet either: the sequence
visits the slots that agree with its start modulo the greatest common divisor of
the distance and the size (`Probing.exists_slot_eq_iff`), and whether a search ends
is decided by these slots alone (`Probing.search_ne_none_iff`).

`Holds` says that the slots hold a finite map. A search finds the entry of its
key or a slot where it may be put (`search_spec`), and writing to that slot
records an entry (`Holds.record`) or forgets it (`Holds.forget`).
-/

namespace OpenAddressing

/-- How the keys are probed. -/
structure Probing (κ : Type) where
  size : ℕ
  pos : 0 < size
  start : κ → ℕ
  jump : κ → ℕ

variable {κ : Type} (P : Probing κ)

/-- The `j`-th slot of the probe sequence of a key. -/
def Probing.slot (k : κ) (j : ℕ) : ℕ := (P.start k + j * P.jump k) % P.size

theorem Probing.slot_lt (k : κ) (j : ℕ) : P.slot k j < P.size := Nat.mod_lt _ P.pos

theorem Probing.slot_succ (k : κ) (j : ℕ) :
    P.slot k (j + 1) = (P.slot k j + P.jump k) % P.size := by
  rw [slot, slot, Nat.mod_add_mod, Nat.succ_mul, Nat.add_assoc]

/-- The sequence, counted from its first slot. -/
theorem Probing.slot_zero_add (k : κ) (j : ℕ) :
    (P.slot k 0 + j * P.jump k) % P.size = P.slot k j := by
  rw [slot, slot, Nat.zero_mul, Nat.add_zero, Nat.mod_add_mod]

/-- **The search** from slot `i` on, with the last deleted slot passed. -/
def search (size : ℕ) (slots : ℕ → ℕ) (hit : ℕ → Bool) (jump : ℕ) :
    ℕ → ℕ → Option ℕ → Option ℕ
  | 0, _, _ => none
  | fuel + 1, i, deleted =>
    if slots i = 0 then some (deleted.getD i)
    else if slots i = 1 then search size slots hit jump fuel ((i + jump) % size) (some i)
    else if hit (slots i) then some i
    else search size slots hit jump fuel ((i + jump) % size) deleted

/-- **The slots hold the map `T`**: every entry lies on the probe sequence of its
key with no empty slot before it, and there is nothing else in the table. -/
structure Holds (slots : ℕ → ℕ) (T : κ → Option ℕ) : Prop where
  entry_gt : ∀ {k a}, T k = some a → 1 < a
  found : ∀ {k a}, T k = some a →
    ∃ j, slots (P.slot k j) = a ∧ ∀ i < j, slots (P.slot k i) ≠ 0
  only : ∀ {i}, i < P.size → 1 < slots i → ∃ k, T k = some (slots i)
  slot_inj : ∀ {i j}, i < P.size → j < P.size → 1 < slots i → slots i = slots j → i = j
  key_inj : ∀ {k l a}, T k = some a → T l = some a → k = l

/-- The table that is empty throughout. -/
theorem holds_empty : Holds P (fun _ => 0) fun _ => none where
  entry_gt h := by cases h
  found h := by cases h
  only _ h := absurd h (by decide)
  slot_inj _ _ h := absurd h (by decide)
  key_inj h := by cases h

/-- **A slot for the key `k`**: the one that holds its entry, or one where the
entry may be put. -/
def SlotFor (slots : ℕ → ℕ) (T : κ → Option ℕ) (k : κ) (i : ℕ) : Prop :=
  i < P.size ∧ match T k with
    | some a => slots i = a
    | none => slots i ≤ 1 ∧ ∃ j, i = P.slot k j ∧ ∀ l < j, slots (P.slot k l) ≠ 0

variable {P} {slots : ℕ → ℕ} {T : κ → Option ℕ} {k : κ}

/-- **A search that ends has found a slot for its key.** The walk has passed
slots that are neither empty nor the one it looks for. -/
theorem search_spec (h : Holds P slots T) (hit : ℕ → Bool)
    (hhit : ∀ {l a}, T l = some a → (hit a = true ↔ T k = some a)) (fuel j : ℕ)
    (deleted : Option ℕ)
    (hpassed : ∀ l < j, slots (P.slot k l) ≠ 0 ∧ T k ≠ some (slots (P.slot k l)))
    (hdeleted : ∀ i, deleted = some i → slots i = 1 ∧ ∃ l < j, i = P.slot k l) :
    search P.size slots hit (P.jump k) fuel (P.slot k j) deleted = none
      ∨ ∃ i, search P.size slots hit (P.jump k) fuel (P.slot k j) deleted = some i
        ∧ SlotFor P slots T k i := by
  induction fuel generalizing j deleted with
  | zero => exact Or.inl rfl
  | succ fuel ih =>
    rw [search]
    by_cases hzero : slots (P.slot k j) = 0
    · rw [if_pos hzero]
      refine Or.inr ⟨_, rfl, ?_⟩
      -- The entry of the key cannot be further on, nor among the slots passed.
      have hnone : T k = none := by
        cases hk : T k with
        | none => rfl
        | some a =>
          obtain ⟨l, hl, hbefore⟩ := h.found hk
          have hgt := h.entry_gt hk
          rcases Nat.lt_trichotomy l j with hlt | rfl | hlt
          · exact absurd (hl ▸ hk) (hpassed l hlt).2
          · omega
          · exact absurd hzero (hbefore j hlt)
      unfold SlotFor
      rw [hnone]
      cases hdel : deleted with
      | none =>
        exact ⟨P.slot_lt k j, by simp [hzero], j, rfl, fun l hl => (hpassed l hl).1⟩
      | some i =>
        obtain ⟨hone, l, hlj, rfl⟩ := hdeleted i hdel
        exact ⟨P.slot_lt k l, by simp [hone], l, rfl,
          fun l' hl' => (hpassed l' (Nat.lt_trans hl' hlj)).1⟩
    · rw [if_neg hzero]
      by_cases hone : slots (P.slot k j) = 1
      · rw [if_pos hone, ← P.slot_succ]
        refine ih _ _ (fun l hl => ?_) fun i hi => ?_
        · rcases Nat.lt_succ_iff_lt_or_eq.mp hl with hl | rfl
          · exact hpassed l hl
          · exact ⟨hzero, fun hk => by have := h.entry_gt hk; omega⟩
        · cases hi
          exact ⟨hone, j, Nat.lt_succ_self j, rfl⟩
      · rw [if_neg hone]
        obtain ⟨l, hl⟩ := h.only (P.slot_lt k j) (by omega)
        by_cases hk : T k = some (slots (P.slot k j))
        · rw [if_pos ((hhit hl).mpr hk)]
          refine Or.inr ⟨_, rfl, P.slot_lt k j, ?_⟩
          rw [hk]
        · rw [if_neg fun hh => hk ((hhit hl).mp hh), ← P.slot_succ]
          refine ih _ _ (fun l hl => ?_) fun i hi => ?_
          · rcases Nat.lt_succ_iff_lt_or_eq.mp hl with hl | rfl
            · exact hpassed l hl
            · exact ⟨hzero, hk⟩
          · obtain ⟨hone, l, hlj, rfl⟩ := hdeleted i hi
            exact ⟨hone, l, Nat.lt_succ_of_lt hlj, rfl⟩

/-! ## Searches that end -/

/-- A search that meets the slot ends there. -/
def Ends (slots : ℕ → ℕ) (hit : ℕ → Bool) (i : ℕ) : Prop :=
  slots i = 0 ∨ slots i ≠ 1 ∧ hit (slots i) = true

/-- A search ends if it meets such a slot in time. -/
theorem search_ne_none_iff (hit : ℕ → Bool) {size i : ℕ} (hi : i < size) (jump fuel : ℕ)
    (deleted : Option ℕ) :
    search size slots hit jump fuel i deleted ≠ none
      ↔ ∃ j < fuel, Ends slots hit ((i + j * jump) % size) := by
  induction fuel generalizing i deleted with
  | zero => simp [search]
  | succ fuel ih =>
    have hstart : (i + 0 * jump) % size = i := by
      rw [Nat.zero_mul, Nat.add_zero, Nat.mod_eq_of_lt hi]
    by_cases hends : Ends slots hit i
    · refine iff_of_true ?_ ⟨0, Nat.succ_pos fuel, by rwa [hstart]⟩
      rw [search]
      by_cases hzero : slots i = 0
      · rw [if_pos hzero]
        exact Option.some_ne_none _
      · obtain ⟨hone, hhit⟩ := hends.resolve_left hzero
        rw [if_neg hzero, if_neg hone, if_pos hhit]
        exact Option.some_ne_none _
    · -- the search goes on from the next slot, and counts from there
      have hnext : (i + jump) % size < size := Nat.mod_lt _ (Nat.zero_lt_of_lt hi)
      have hshift : ∀ j, ((i + jump) % size + j * jump) % size = (i + (j + 1) * jump) % size :=
        fun j => by rw [Nat.mod_add_mod, Nat.succ_mul, Nat.add_assoc, Nat.add_comm jump]
      have hgo : (∃ j < fuel + 1, Ends slots hit ((i + j * jump) % size))
          ↔ ∃ j < fuel, Ends slots hit (((i + jump) % size + j * jump) % size) := by
        constructor
        · rintro ⟨j, hj, hj'⟩
          cases j with
          | zero => exact absurd (by rwa [hstart] at hj') hends
          | succ j => exact ⟨j, Nat.lt_of_succ_lt_succ hj, by rwa [hshift]⟩
        · rintro ⟨j, hj, hj'⟩
          exact ⟨j + 1, Nat.succ_lt_succ hj, by rwa [hshift] at hj'⟩
      unfold Ends at hends
      rw [not_or, not_and] at hends
      rw [hgo, search, if_neg hends.1]
      split
      · exact ih hnext _
      · rename_i hone
        rw [if_neg (hends.2 hone)]
        exact ih hnext _

namespace Probing

variable (P) (k)

/-- The slots that agree with the start of the sequence of a key modulo the greatest
common divisor of its distance and the size. -/
def Class (i : ℕ) : Prop :=
  i < P.size ∧ i % Nat.gcd (P.jump k) P.size = P.start k % Nat.gcd (P.jump k) P.size

theorem slot_mem_class (j : ℕ) : P.Class k (P.slot k j) := by
  refine ⟨P.slot_lt k j, ?_⟩
  have hjump : j * P.jump k % Nat.gcd (P.jump k) P.size = 0 :=
    Nat.mod_eq_zero_of_dvd ((Nat.gcd_dvd_left _ _).mul_left j)
  rw [slot, Nat.mod_mod_of_dvd _ (Nat.gcd_dvd_right _ _), Nat.add_mod, hjump, Nat.add_zero,
    Nat.mod_mod]

/-- **The probe sequence of a key visits its class**, all of it within as many steps as
there are slots. -/
theorem exists_slot_eq_iff (i : ℕ) : (∃ j < P.size, P.slot k j = i) ↔ P.Class k i := by
  constructor
  · rintro ⟨j, -, rfl⟩
    exact P.slot_mem_class k j
  · rintro ⟨hi, hmod⟩
    have hpos := P.pos
    rcases Nat.lt_or_ge (Nat.gcd (P.jump k) P.size) P.size with hlt | hge
    · obtain ⟨m, -, hm⟩ := Nat.exists_mul_mod_eq_gcd hlt
      -- the distance to go, which is a multiple of the divisor
      have hle : P.start k ≤ i + P.size * P.start k :=
        (Nat.le_mul_of_pos_left _ hpos).trans (Nat.le_add_left _ i)
      obtain ⟨c, hc⟩ : Nat.gcd (P.jump k) P.size ∣ i + P.size * P.start k - P.start k := by
        refine Nat.dvd_of_mod_eq_zero (Nat.sub_mod_eq_zero_of_mod_eq ?_)
        rw [Nat.add_mod, Nat.mod_eq_zero_of_dvd ((Nat.gcd_dvd_right _ _).mul_right _),
          Nat.add_zero, Nat.mod_mod, hmod]
      refine ⟨m * c % P.size, Nat.mod_lt _ hpos, ?_⟩
      have hstep : m * c % P.size * P.jump k % P.size
          = (i + P.size * P.start k - P.start k) % P.size := by
        rw [Nat.mod_mul_mod, hc, Nat.mul_right_comm, Nat.mul_comm m, ← Nat.mod_mul_mod, hm]
      rw [slot, Nat.add_mod, hstep, ← Nat.add_mod, Nat.add_sub_cancel' hle,
        Nat.add_mul_mod_self_left, Nat.mod_eq_of_lt hi]
    · -- the distance is a multiple of the size: the sequence stays at its start
      have heq : Nat.gcd (P.jump k) P.size = P.size :=
        Nat.le_antisymm (Nat.gcd_le_right _ hpos) hge
      refine ⟨0, hpos, ?_⟩
      rw [heq] at hmod
      rw [slot, Nat.zero_mul, Nat.add_zero, ← hmod, Nat.mod_eq_of_lt hi]

variable {k}

/-- **A search ends if and only if there is a slot in the class of its key at which it
ends**, and it takes no more steps than there are slots. -/
theorem search_ne_none_iff (hit : ℕ → Bool) (deleted : Option ℕ) :
    search P.size slots hit (P.jump k) P.size (P.slot k 0) deleted ≠ none
      ↔ ∃ i, P.Class k i ∧ Ends slots hit i := by
  rw [OpenAddressing.search_ne_none_iff hit (P.slot_lt k 0)]
  constructor
  · rintro ⟨j, -, hj⟩
    rw [P.slot_zero_add] at hj
    exact ⟨_, P.slot_mem_class k j, hj⟩
  · rintro ⟨i, hclass, hi⟩
    obtain ⟨j, hj, rfl⟩ := (P.exists_slot_eq_iff k i).mpr hclass
    exact ⟨j, hj, by rwa [P.slot_zero_add]⟩

/-- A search that does not end in as many steps as there are slots never does. -/
theorem search_eq_none {hit : ℕ → Bool} (h : ∀ i, P.Class k i → ¬ Ends slots hit i) (fuel : ℕ)
    (deleted : Option ℕ) :
    search P.size slots hit (P.jump k) fuel (P.slot k 0) deleted = none := by
  by_contra hne
  obtain ⟨j, -, hj⟩ := (OpenAddressing.search_ne_none_iff hit (P.slot_lt k 0) _ _ _).mp hne
  rw [P.slot_zero_add] at hj
  exact h _ (P.slot_mem_class k j) hj

end Probing

/-- **The entry of a key is found.** -/
theorem Holds.search_eq (h : Holds P slots T) {a : ℕ} (hk : T k = some a) (hit : ℕ → Bool)
    (hhit : ∀ {l b}, T l = some b → (hit b = true ↔ T k = some b)) :
    ∃ i, i < P.size ∧ slots i = a
      ∧ search P.size slots hit (P.jump k) P.size (P.slot k 0) none = some i := by
  obtain ⟨j, hj, -⟩ := h.found hk
  have hgt := h.entry_gt hk
  have hends : Ends slots hit (P.slot k j) := by
    refine Or.inr ⟨by omega, ?_⟩
    rw [hj]
    exact (hhit hk).mpr hk
  rcases search_spec h hit hhit P.size 0 none (fun l hl => absurd hl (Nat.not_lt_zero l))
    (fun i hi => by cases hi) with hnone | ⟨i, hi, hlt, hfor⟩
  · exact absurd hnone ((P.search_ne_none_iff hit none).mpr ⟨_, P.slot_mem_class k j, hends⟩)
  · rw [hk] at hfor
    exact ⟨i, hlt, hfor, hi⟩

variable {i : ℕ}

/-- No other key has its entry in a slot for `k`. -/
theorem SlotFor.ne_of_ne (hi : SlotFor P slots T k i) (h : Holds P slots T) {l : κ} {b : ℕ}
    (hl : T l = some b) (hlk : l ≠ k) : slots i ≠ b := by
  rintro rfl
  obtain ⟨-, hi⟩ := hi
  cases hk : T k with
  | none =>
    rw [hk] at hi
    have := h.entry_gt hl
    omega
  | some a =>
    rw [hk] at hi
    rw [← hi] at hk
    exact hlk (h.key_inj hl hk)

/-- An entry of the key is in the slot for it. -/
theorem SlotFor.eq_of_entry (hi : SlotFor P slots T k i) (h : Holds P slots T) {n : ℕ}
    (hn : n < P.size) (hgt : 1 < slots n) (hk : T k = some (slots n)) : n = i := by
  have hslot := hi.2
  rw [hk] at hslot
  exact h.slot_inj hn hi.1 hgt hslot.symm

/-- A slot for a key is on its probe sequence, with no empty slot before it. -/
theorem SlotFor.exists_eq_slot (hi : SlotFor P slots T k i) (h : Holds P slots T) :
    ∃ j, i = P.slot k j ∧ ∀ n < j, slots (P.slot k n) ≠ 0 := by
  obtain ⟨hlt, hi⟩ := hi
  cases hk : T k with
  | none =>
    rw [hk] at hi
    exact hi.2
  | some b =>
    rw [hk] at hi
    obtain ⟨j, hj, hbefore⟩ := h.found hk
    have hgt := h.entry_gt hk
    exact ⟨j, h.slot_inj hlt (P.slot_lt k j) (by omega) (by rw [hi, hj]), hbefore⟩

/-- A slot that is given something does not become empty. -/
theorem update_ne_zero {n v : ℕ} (hv : v ≠ 0) (hn : slots n ≠ 0) :
    Function.update slots i v n ≠ 0 := by
  by_cases hni : n = i
  · rwa [hni, Function.update_self]
  · rwa [Function.update_of_ne hni]

/-- The entries of other keys are found as before. -/
theorem SlotFor.found_of_ne (hi : SlotFor P slots T k i) (h : Holds P slots T) {v : ℕ} (hv : v ≠ 0)
    {l : κ} {b : ℕ} (hl : T l = some b) (hlk : l ≠ k) :
    ∃ j, Function.update slots i v (P.slot l j) = b
      ∧ ∀ n < j, Function.update slots i v (P.slot l n) ≠ 0 := by
  obtain ⟨j, hj, hbefore⟩ := h.found hl
  refine ⟨j, ?_, fun n hn => update_ne_zero hv (hbefore n hn)⟩
  rw [Function.update_of_ne, hj]
  rintro rfl
  exact hi.ne_of_ne h hl hlk hj

variable [DecidableEq κ]

/-- **Recording an entry** in a slot for its key. -/
theorem Holds.record (h : Holds P slots T) (hi : SlotFor P slots T k i) {a : ℕ} (ha : 1 < a)
    (hnew : ∀ l, T l = some a → l = k) :
    Holds P (Function.update slots i a) (Function.update T k (some a)) where
  entry_gt {l b} hl := by
    by_cases hlk : l = k
    · rw [hlk, Function.update_self, Option.some.injEq] at hl
      exact hl ▸ ha
    · rw [Function.update_of_ne hlk] at hl
      exact h.entry_gt hl
  found {l b} hl := by
    have hzero : a ≠ 0 := by omega
    by_cases hlk : l = k
    · rw [hlk, Function.update_self, Option.some.injEq] at hl
      obtain ⟨j, hj, hbefore⟩ := hi.exists_eq_slot h
      rw [hlk]
      refine ⟨j, ?_, fun n hn => update_ne_zero hzero (hbefore n hn)⟩
      rw [← hj, Function.update_self, hl]
    · rw [Function.update_of_ne hlk] at hl
      exact hi.found_of_ne h hzero hl hlk
  only {n} hn hgt := by
    by_cases hni : n = i
    · rw [hni, Function.update_self]
      exact ⟨k, Function.update_self ..⟩
    · rw [Function.update_of_ne hni] at hgt ⊢
      obtain ⟨l, hl⟩ := h.only hn hgt
      refine ⟨l, ?_⟩
      rw [Function.update_of_ne, hl]
      rintro rfl
      exact hni (hi.eq_of_entry h hn hgt hl)
  slot_inj {m n} hm hn hgt heq := by
    have hfresh : ∀ n, n < P.size → n ≠ i → slots n ≠ a := by
      rintro n hn hni rfl
      obtain ⟨l, hl⟩ := h.only hn ha
      rw [hnew l hl] at hl
      exact hni (hi.eq_of_entry h hn ha hl)
    by_cases hmi : m = i <;> by_cases hni : n = i
    · rw [hmi, hni]
    · rw [hmi, Function.update_self, Function.update_of_ne hni] at heq
      exact absurd heq.symm (hfresh n hn hni)
    · rw [hni, Function.update_self, Function.update_of_ne hmi] at heq
      exact absurd heq (hfresh m hm hmi)
    · rw [Function.update_of_ne hmi] at hgt heq
      rw [Function.update_of_ne hni] at heq
      exact h.slot_inj hm hn hgt heq
  key_inj {l m b} hl hm := by
    by_cases hlk : l = k <;> by_cases hmk : m = k
    · rw [hlk, hmk]
    · rw [hlk, Function.update_self, Option.some.injEq] at hl
      rw [Function.update_of_ne hmk, ← hl] at hm
      exact absurd (hnew m hm) hmk
    · rw [hmk, Function.update_self, Option.some.injEq] at hm
      rw [Function.update_of_ne hlk, ← hm] at hl
      exact absurd (hnew l hl) hlk
    · rw [Function.update_of_ne hlk] at hl
      rw [Function.update_of_ne hmk] at hm
      exact h.key_inj hl hm

/-- The entries that are left without those of a key are of other keys. -/
theorem ne_and_eq_of_update_none {l : κ} {b : ℕ} (hl : Function.update T k none l = some b) :
    l ≠ k ∧ T l = some b := by
  by_cases hlk : l = k
  · rw [hlk, Function.update_self] at hl
    cases hl
  · rw [Function.update_of_ne hlk] at hl
    exact ⟨hlk, hl⟩

/-- **A slot for a key is marked as deleted**, whether it holds an entry or not. -/
theorem Holds.vacate (h : Holds P slots T) (hi : SlotFor P slots T k i) :
    Holds P (Function.update slots i 1) (Function.update T k none) := by
  have hslot : ∀ {n}, 1 < Function.update slots i 1 n → n ≠ i ∧ 1 < slots n := by
    intro n hn
    by_cases hni : n = i
    · rw [hni, Function.update_self] at hn
      omega
    · rw [Function.update_of_ne hni] at hn
      exact ⟨hni, hn⟩
  refine ⟨fun hl => h.entry_gt (ne_and_eq_of_update_none hl).2, fun {l b} hl => ?_,
    fun {n} hn hgt => ?_, fun {m n} hm hn hgt heq => ?_, fun hl hm =>
      h.key_inj (ne_and_eq_of_update_none hl).2 (ne_and_eq_of_update_none hm).2⟩
  · obtain ⟨hlk, hl⟩ := ne_and_eq_of_update_none hl
    exact hi.found_of_ne h Nat.one_ne_zero hl hlk
  · obtain ⟨hni, hgt⟩ := hslot hgt
    obtain ⟨l, hl⟩ := h.only hn hgt
    refine ⟨l, ?_⟩
    rw [Function.update_of_ne, Function.update_of_ne hni, hl]
    rintro rfl
    exact hni (hi.eq_of_entry h hn hgt hl)
  · obtain ⟨hmi, hgt'⟩ := hslot hgt
    obtain ⟨hni, -⟩ := hslot (heq ▸ hgt)
    rw [Function.update_of_ne hmi, Function.update_of_ne hni] at heq
    exact h.slot_inj hm hn hgt' heq

end OpenAddressing
