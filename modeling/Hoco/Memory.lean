import Mathlib.Data.List.Basic
import Mathlib.Algebra.Ring.Int.Defs
import Mathlib.Algebra.Ring.Nat

/-!
# Memory behind a pointer, and how a function can end

The functions of the server work on `char *` pointers. A pointer is modelled
by the bytes that are mapped from it on, as a list: `load m i` reads the byte
at distance `i`, and reading past the last mapped byte is an access violation
rather than a value. The list is the memory and not the object. A datum that
is followed by other readable bytes is a prefix of its memory, and a function
that stays inside the datum is one that still runs when the memory is the
datum and nothing else.

A function that does not return ends in a **trap**: an access violation, an
error reported through `ereport`, or a call of `exit`.
-/

/-- The error codes that the modelled functions report. -/
inductive ErrCode where
  | indeterminateCollation
  | dataCorrupted
  | tooManyColumns
  | programLimitExceeded
  | featureNotSupported
  | internalError
  deriving DecidableEq, Repr

/-- An error report: its code and its texts. -/
structure ErrorReport where
  code : ErrCode
  message : String
  detail : Option String := none
  hint : Option String := none
  deriving DecidableEq, Repr

/-- How a function can end without returning. -/
inductive Trap where
  /-- An access to memory that is not mapped. -/
  | fault
  /-- `ereport(ERROR, ...)` or `elog(ERROR, ...)`. -/
  | ereport (report : ErrorReport)
  /-- `exit(0)`, after printing a line. -/
  | exit (printed : String)
  deriving DecidableEq, Repr

/-- The outcome of a function of the server. -/
abbrev Run (α : Type) := Except Trap α

@[simp] theorem Run.ok_bind {α β : Type} (a : α) (f : α → Run β) :
    ((Except.ok a : Run α) >>= f) = f a := rfl

@[simp] theorem Run.error_bind {α β : Type} (e : Trap) (f : α → Run β) :
    ((Except.error e : Run α) >>= f) = .error e := rfl

/-- A sequence returns when both parts do. -/
theorem Run.bind_eq_ok {α β : Type} {r : Run α} {f : α → Run β} {b : β} :
    (r >>= f) = .ok b ↔ ∃ a, r = .ok a ∧ f a = .ok b := by
  cases r with
  | error e => simp
  | ok a => simp

theorem Run.map_eq_ok {α β : Type} {r : Run α} {f : α → β} {b : β} :
    f <$> r = .ok b ↔ ∃ a, r = .ok a ∧ f a = b := by
  cases r with
  | error e => simp [Functor.map, Except.map]
  | ok a => simp [Functor.map, Except.map]

/-- The bytes mapped from a pointer on. -/
abbrev Mem := List UInt8

namespace Mem

/-- Reading one byte. -/
def load (m : Mem) (i : ℕ) : Run UInt8 :=
  match m[i]? with
  | some b => .ok b
  | none => .error .fault

/-- Reading the source of a `memcpy` of `k` bytes. Copying nothing reads
nothing. -/
def copy (m : Mem) (i k : ℕ) : Run (List UInt8) :=
  if k = 0 ∨ i + k ≤ m.length then .ok ((m.drop i).take k) else .error .fault

/-- Writing one byte. -/
def store (m : Mem) (i : ℕ) (b : UInt8) : Run Mem :=
  if i < m.length then .ok (m.set i b) else .error .fault

/-- Writing bytes one after the other, from distance `i` on. -/
def storeAll (m : Mem) (i : ℕ) : List UInt8 → Run Mem
  | [] => .ok m
  | b :: bs => do storeAll (← m.store i b) (i + 1) bs

/-- Reading the source of a `memcpy` whose distance and size were computed as signed
numbers. -/
def copyAt (m : Mem) (i k : ℤ) : Run (List UInt8) :=
  if i < 0 ∨ k < 0 then .error .fault else m.copy i.toNat k.toNat

/-- Writing bytes at a distance that was computed as a signed number. -/
def storeAt (m : Mem) (i : ℤ) (bs : List UInt8) : Run Mem :=
  if i < 0 then .error .fault else m.storeAll i.toNat bs

theorem copyAt_natCast (m : Mem) (i k : ℕ) : m.copyAt i k = m.copy i k :=
  if_neg (by omega)

theorem storeAt_natCast (m : Mem) (i : ℕ) (bs : List UInt8) : m.storeAt i bs = m.storeAll i bs :=
  if_neg (by omega)

/-- A byte that is mapped can be read. -/
theorem load_append (pre : Mem) (b : UInt8) (post : Mem) :
    load (pre ++ b :: post) pre.length = .ok b := by
  simp [load]

/-- Bytes that are mapped can be copied. -/
theorem copy_append (pre bs post : Mem) :
    copy (pre ++ (bs ++ post)) pre.length bs.length = .ok bs := by
  rw [copy, if_pos]
  · rw [List.drop_left, List.take_left]
  · right
    simp only [List.length_append]
    omega

/-- What lies behind a stretch of mapped bytes. -/
theorem drop_add {m bs post : Mem} {i : ℕ} (h : m.drop i = bs ++ post) :
    m.drop (i + bs.length) = post := by
  rw [← List.drop_drop, h, List.drop_left]

/-- Reading the byte a pointer points to. -/
theorem load_of_drop {m post : Mem} {b : UInt8} {i : ℕ} (h : m.drop i = b :: post) :
    load m i = .ok b := by
  have hb : m[i]? = some b := by rw [← List.head?_drop, h, List.head?_cons]
  simp only [load, hb]

/-- Reading at the end of what is mapped, or behind it. -/
theorem load_of_drop_nil {m : Mem} {i : ℕ} (h : m.drop i = []) : load m i = .error .fault := by
  have hb : m[i]? = none := by rw [← List.head?_drop, h, List.head?_nil]
  simp only [load, hb]

/-- A byte that was read is mapped. -/
theorem drop_of_load {m : Mem} {b : UInt8} {i : ℕ} (h : load m i = .ok b) :
    m.drop i = b :: m.drop (i + 1) := by
  unfold load at h
  split at h
  · rename_i c hc
    obtain ⟨hi, hget⟩ := List.getElem?_eq_some_iff.mp hc
    rw [List.drop_eq_getElem_cons hi, hget, Except.ok.inj h]
  · cases h

/-- Copying the bytes a pointer points to. -/
theorem copy_of_drop {m bs post : Mem} {i : ℕ} (h : m.drop i = bs ++ post) :
    copy m i bs.length = .ok bs := by
  have hlen : m.length - i = bs.length + post.length := by
    rw [← List.length_drop, h, List.length_append]
  rw [copy, if_pos (by omega), h, List.take_left]

/-- Bytes that were copied are mapped. -/
theorem drop_of_copy {m bs : Mem} {i k : ℕ} (h : copy m i k = .ok bs) :
    bs.length = k ∧ m.drop i = bs ++ m.drop (i + k) := by
  unfold copy at h
  split at h
  · rename_i hmap
    rw [← Except.ok.inj h, List.length_take, List.length_drop]
    refine ⟨by omega, ?_⟩
    rw [← List.drop_drop, List.take_append_drop]
  · cases h

/-- Reading fails in one way only. -/
theorem load_cases (m : Mem) (i : ℕ) : (∃ b, load m i = .ok b) ∨ load m i = .error .fault := by
  unfold load
  cases m[i]? with
  | some b => exact Or.inl ⟨b, rfl⟩
  | none => exact Or.inr rfl

theorem copy_cases (m : Mem) (i k : ℕ) :
    (∃ bs, copy m i k = .ok bs) ∨ copy m i k = .error .fault := by
  unfold copy
  split
  · exact Or.inl ⟨_, rfl⟩
  · exact Or.inr rfl

/-- **A byte can be read exactly when it is mapped.** -/
theorem exists_load_iff {m : Mem} {i : ℕ} : (∃ b, load m i = .ok b) ↔ i < m.length := by
  unfold load
  rcases Nat.lt_or_ge i m.length with hi | hi
  · rw [List.getElem?_eq_getElem hi]
    exact iff_of_true ⟨_, rfl⟩ hi
  · rw [List.getElem?_eq_none hi]
    refine iff_of_false ?_ (Nat.not_lt.mpr hi)
    rintro ⟨b, hb⟩
    cases hb

/-- **Bytes can be copied exactly when each of them is mapped.** -/
theorem exists_copy_iff {m : Mem} {i k : ℕ} :
    (∃ bs, copy m i k = .ok bs) ↔ ∀ j < k, i + j < m.length := by
  unfold copy
  split
  · rename_i hmap
    exact iff_of_true ⟨_, rfl⟩ fun j hj => by omega
  · rename_i hmap
    refine iff_of_false (by rintro ⟨bs, hbs⟩; cases hbs) fun h => ?_
    have hlast := h (k - 1) (by omega)
    omega

/-- What is mapped behind does not matter for a byte. -/
theorem load_append_of_lt {m : Mem} {i : ℕ} (hi : i < m.length) (rest : Mem) :
    load (m ++ rest) i = load m i := by
  rw [load, load, List.getElem?_append_left hi]

/-- What is mapped behind does not matter for bytes that are copied. -/
theorem copy_append_of_lt {m : Mem} {i k : ℕ} (h : ∀ j < k, i + j < m.length) (rest : Mem) :
    copy (m ++ rest) i k = copy m i k := by
  rcases Nat.eq_zero_or_pos k with rfl | hk
  · rw [copy, copy, if_pos (Or.inl rfl), if_pos (Or.inl rfl), List.take_zero, List.take_zero]
  · have hlast := h (k - 1) (by omega)
    have hlen : k ≤ (m.drop i).length := by
      rw [List.length_drop]
      omega
    rw [copy, copy, if_pos (by rw [List.length_append]; omega), if_pos (by omega),
      List.drop_append_of_le_length (by omega), List.take_append_of_le_length hlen]

/-- Writing over one byte. -/
theorem store_append (pre : Mem) (b c : UInt8) (post : Mem) :
    store (pre ++ b :: post) pre.length c = .ok (pre ++ c :: post) := by
  rw [store, if_pos (by rw [List.length_append, List.length_cons]; omega),
    List.set_append_right _ _ (Nat.le_refl _), Nat.sub_self, List.set_cons_zero]

/-- Writing over as many bytes as there are to write. -/
theorem storeAll_append_of_length (pre : Mem) {old bs : List UInt8} (h : old.length = bs.length)
    (post : Mem) : storeAll (pre ++ (old ++ post)) pre.length bs = .ok (pre ++ (bs ++ post)) := by
  induction bs generalizing pre old with
  | nil =>
    rw [List.length_nil, List.length_eq_zero_iff] at h
    rw [h]
    rfl
  | cons b bs ih =>
    cases old with
    | nil => cases h
    | cons o old =>
      have htail := ih (pre ++ [b]) (Nat.succ.inj h)
      rw [List.length_append, List.length_singleton, List.append_assoc, List.append_assoc] at htail
      rw [storeAll, List.cons_append, store_append, Run.ok_bind]
      exact htail

theorem storeAll_append (m : Mem) (i : ℕ) (bs cs : List UInt8) :
    m.storeAll i (bs ++ cs)
      = (m.storeAll i bs >>= fun m' => m'.storeAll (i + bs.length) cs) := by
  induction bs generalizing m i with
  | nil => rfl
  | cons b bs ih =>
    rw [List.cons_append, storeAll, storeAll]
    cases m.store i b with
    | error e => rfl
    | ok m' =>
      rw [Run.ok_bind, Run.ok_bind, ih, List.length_cons, Nat.add_assoc, Nat.add_comm 1]

/-- **Bytes can be written exactly when they end inside the block.** -/
theorem exists_storeAll_iff (m : Mem) (i : ℕ) {bs : List UInt8} (hne : bs ≠ []) :
    (∃ m', m.storeAll i bs = .ok m') ↔ i + bs.length ≤ m.length := by
  induction bs generalizing m i with
  | nil => exact absurd rfl hne
  | cons b bs ih =>
    rw [storeAll, store, List.length_cons]
    by_cases hi : i < m.length
    · rw [if_pos hi, Run.ok_bind]
      by_cases hbs : bs = []
      · subst hbs
        exact iff_of_true ⟨_, rfl⟩ hi
      · rw [ih (m.set i b) (i + 1) hbs, List.length_set]
        omega
    · rw [if_neg hi]
      refine iff_of_false ?_ (by omega)
      rintro ⟨m', h⟩
      cases h

/-! ## Writing from the front -/

/-- `out` written over the front of a memory. -/
def overlay (mem₀ : Mem) (out : List UInt8) : Mem := out ++ mem₀.drop out.length

section

variable {mem₀ : Mem} {out bs : List UInt8}

theorem store_overlay (h : out.length < mem₀.length) (b : UInt8) :
    (overlay mem₀ out).store out.length b = .ok (overlay mem₀ (out ++ [b])) := by
  rw [overlay, List.drop_eq_getElem_cons h, store_append, overlay, List.append_assoc,
    List.length_append, List.length_singleton]
  rfl

theorem storeAll_overlay (h : out.length + bs.length ≤ mem₀.length) :
    (overlay mem₀ out).storeAll out.length bs = .ok (overlay mem₀ (out ++ bs)) := by
  have hroom : ((mem₀.drop out.length).take bs.length).length = bs.length := by
    rw [List.length_take, List.length_drop]
    omega
  rw [overlay, ← List.take_append_drop bs.length (mem₀.drop out.length),
    storeAll_append_of_length out hroom, List.drop_drop, overlay, List.append_assoc,
    List.length_append]

theorem copy_overlay {i k : ℕ} (h : i + k ≤ out.length) :
    (overlay mem₀ out).copy i k = .ok ((out.drop i).take k) := by
  have hlen : ((out.drop i).take k).length = k := by
    rw [List.length_take, List.length_drop]
    omega
  have hsplit : (overlay mem₀ out).drop i
      = (out.drop i).take k ++ ((out.drop i).drop k ++ mem₀.drop out.length) := by
    rw [overlay, List.drop_append_of_le_length (by omega), ← List.append_assoc,
      List.take_append_drop]
  have hcopy := copy_of_drop hsplit
  rwa [hlen] at hcopy

theorem overlay_append (before room after written : Mem) (h : written.length ≤ room.length) :
    overlay (before ++ room ++ after) (before ++ written)
      = before ++ written ++ room.drop written.length ++ after := by
  rw [overlay, List.length_append, List.append_assoc before room after, ← List.drop_drop,
    List.drop_left, List.drop_append_of_le_length h]
  simp only [List.append_assoc]

theorem overlay_front (before room after : Mem) :
    overlay (before ++ room ++ after) before = before ++ room ++ after := by
  rw [overlay, List.append_assoc, List.drop_left]

theorem overlay_of_length (h : mem₀.length ≤ out.length) : overlay mem₀ out = out := by
  rw [overlay, List.drop_eq_nil_of_le h, List.append_nil]

end

end Mem
