import Mathlib.Data.List.Basic
import Mathlib.Algebra.Ring.Int.Defs
import Mathlib.Algebra.Ring.Nat

/-!
# Memory in blocks

The memory of a C program as the blocks it may access: the objects it has been
given and the blocks it has asked for. An access outside of all blocks has no
meaning, and the operations return nothing for it.

A block carries the bounds of the address space that programs have – not in
the first page, and below `2 ^ 47` – so that a null pointer, or a null pointer
with a small offset, is never inside a block (`load_of_lt`), and a request that
exceeds the address space is never met (`malloc_of_gt`).

Numbers are stored with their low byte first.
-/

namespace Blocks

/-- The first address behind the page that holds the null pointer. -/
abbrev lowest : ℕ := 4096

/-- The end of the address space. -/
abbrev addressEnd : ℕ := 2 ^ 47

/-- **A block**: its address and its bytes. -/
structure Block where
  base : ℕ
  bytes : List UInt8
  placed : lowest ≤ base ∧ base + bytes.length ≤ addressEnd

/-- The blocks in use. -/
abbrev Memory := List Block

namespace Block

/-- The block holds the byte at an address. -/
def Holds (b : Block) (a : ℕ) : Prop := b.base ≤ a ∧ a < b.base + b.bytes.length

instance (b : Block) (a : ℕ) : Decidable (b.Holds a) :=
  inferInstanceAs (Decidable (_ ∧ _))

/-- The block with the byte at an address changed, if it holds one there. -/
def put (b : Block) (a : ℕ) (v : UInt8) : Block where
  base := b.base
  bytes := if b.Holds a then b.bytes.set (a - b.base) v else b.bytes
  placed := by
    split
    · rw [List.length_set]
      exact b.placed
    · exact b.placed

/-- Two stretches of memory have no byte in common. -/
def Apart (b : Block) (base size : ℕ) : Prop :=
  base + size ≤ b.base ∨ b.base + b.bytes.length ≤ base

instance (b : Block) (base size : ℕ) : Decidable (b.Apart base size) :=
  inferInstanceAs (Decidable (_ ∨ _))

end Block

/-- Reading a byte. -/
def load (m : Memory) (a : ℕ) : Option UInt8 :=
  match m.find? fun b => b.Holds a with
  | some b => b.bytes[a - b.base]?
  | none => none

/-- Writing a byte. -/
def store (m : Memory) (a : ℕ) (v : UInt8) : Option Memory :=
  if ∃ b ∈ m, b.Holds a then some (m.map (·.put a v)) else none

/-- A block with given contents is added where there is room for it. -/
def place (m : Memory) (base : ℕ) (bytes : List UInt8) : Option Memory :=
  if h : (lowest ≤ base ∧ base + bytes.length ≤ addressEnd) ∧ ∀ b ∈ m, b.Apart base bytes.length then
    some (⟨base, bytes, h.1⟩ :: m)
  else none

/-- `malloc`, when the address of the next block is `base` and `junk` is what is
found there: a request that cannot be met there is answered with a null pointer.
The size is compared first, so that no list of that size is built. -/
def malloc (m : Memory) (base size : ℕ) (junk : ℕ → UInt8) : ℕ × Memory :=
  if base + size ≤ addressEnd then
    match place m base ((List.range size).map junk) with
    | some m' => (base, m')
    | none => (0, m)
  else (0, m)

/-- `free`: a null pointer is ignored, and any other has to be that of a block. -/
def free (m : Memory) (a : ℕ) : Option Memory :=
  if a = 0 then some m
  else if ∃ b ∈ m, b.base = a then some (m.filter fun b => b.base ≠ a) else none

/-- The number that bytes stand for. -/
def ofBytes (bs : List UInt8) : ℕ := bs.foldr (fun b n => b.toNat + 256 * n) 0

/-- The `k` low bytes of a number. -/
def toBytes : ℕ → ℕ → List UInt8
  | 0, _ => []
  | k + 1, n => UInt8.ofNat n :: toBytes k (n / 256)

/-- The value of a number of 32 bits as a signed one. -/
def signed32 (n : ℤ) : ℤ := Int.bmod n (2 ^ 32)

/-- The value of a number as an unsigned one of 64 bits. -/
def unsigned64 (n : ℤ) : ℕ := (n % 2 ^ 64).toNat

/-- **Nothing can be read in the first page.** -/
theorem load_of_lt (m : Memory) {a : ℕ} (h : a < lowest) : load m a = none := by
  unfold load
  have hnone : m.find? (fun b => b.Holds a) = none := by
    refine List.find?_eq_none.mpr fun b _ hb => ?_
    have hbase := b.placed.1
    have hle := (of_decide_eq_true hb).1
    omega
  rw [hnone]

/-- **Nothing can be written in the first page.** -/
theorem store_of_lt (m : Memory) {a : ℕ} (h : a < lowest) (v : UInt8) : store m a v = none := by
  unfold store
  rw [if_neg]
  rintro ⟨b, -, hb⟩
  have hbase := b.placed.1
  have hle := hb.1
  omega

theorem Block.holds_put (b : Block) (a c : ℕ) (v : UInt8) : (b.put a v).Holds c ↔ b.Holds c := by
  unfold Holds put
  split
  · rw [List.length_set]
  · rfl

theorem holds_of_find? {m : Memory} {a : ℕ} {b : Block}
    (h : m.find? (fun b => b.Holds a) = some b) : b.Holds a := by
  have hdec := List.find?_some h
  exact of_decide_eq_true hdec

/-- The block that holds a byte is the same one behind a write. -/
theorem find?_map_put (m : Memory) (a c : ℕ) (v : UInt8) :
    (m.map (·.put a v)).find? (fun b => b.Holds c)
      = (m.find? fun b => b.Holds c).map (·.put a v) := by
  rw [List.find?_map]
  congr 2
  funext b
  exact decide_eq_decide.mpr (b.holds_put a c v)

/-- **A byte that has been written is read.** -/
theorem load_store_self {m m' : Memory} {a : ℕ} {v : UInt8} (h : store m a v = some m') :
    load m' a = some v := by
  unfold store at h
  split at h
  · rename_i hex
    obtain ⟨b, hb, hholds⟩ := hex
    rw [← Option.some.inj h, load, find?_map_put]
    cases hfind : m.find? fun b => b.Holds a with
    | none => exact absurd (decide_eq_true hholds) (List.find?_eq_none.mp hfind b hb)
    | some d =>
      have hd : d.Holds a := holds_of_find? hfind
      have hlt : a - d.base < d.bytes.length := by
        have := hd.1
        have := hd.2
        omega
      simp only [Option.map_some, Block.put, if_pos hd, List.getElem?_set_self hlt]
  · cases h

/-- The other bytes are what they were. -/
theorem load_store_of_ne {m m' : Memory} {a c : ℕ} {v : UInt8} (h : store m a v = some m')
    (hne : c ≠ a) : load m' c = load m c := by
  unfold store at h
  split at h
  · rw [← Option.some.inj h, load, load, find?_map_put]
    cases hfind : m.find? fun b => b.Holds c with
    | none => rfl
    | some d =>
      have hd : d.Holds c := holds_of_find? hfind
      simp only [Option.map_some, Block.put]
      split
      · rename_i ha
        refine List.getElem?_set_ne ?_
        have := hd.1
        have := ha.1
        omega
      · rfl
  · cases h

/-- A new block does not touch the others. -/
theorem load_of_place {m m' : Memory} {base : ℕ} {bytes : List UInt8}
    (h : place m base bytes = some m') {a : ℕ} {v : UInt8} (hload : load m a = some v) :
    load m' a = some v := by
  unfold place at h
  split at h
  · rename_i hroom
    rw [← Option.some.inj h, load, List.find?_cons_of_neg]
    · exact hload
    · intro hholds
      have hnew : base ≤ a ∧ a < base + bytes.length := of_decide_eq_true hholds
      unfold load at hload
      split at hload
      · rename_i b hfind
        have hb : b.Holds a := holds_of_find? hfind
        have hend := hb.2
        have hbase := hb.1
        rcases hroom.2 b (List.mem_of_find?_eq_some hfind) with hapart | hapart <;> omega
      · cases hload
  · cases h

theorem load_of_malloc {m : Memory} {base size : ℕ} {junk : ℕ → UInt8} {a : ℕ} {v : UInt8}
    (hload : load m a = some v) : load (malloc m base size junk).2 a = some v := by
  unfold malloc
  split
  · split
    · rename_i hplace
      exact load_of_place hplace hload
    · exact hload
  · exact hload

/-- **A request beyond the address space is not met.** -/
theorem malloc_of_gt (m : Memory) (base : ℕ) {size : ℕ} (junk : ℕ → UInt8)
    (h : addressEnd < size) : malloc m base size junk = (0, m) := by
  unfold malloc
  rw [if_neg (by omega)]

/-! ## Where there is something -/

theorem exists_holds_of_load {m : Memory} {a : ℕ} {v : UInt8} (h : load m a = some v) :
    ∃ b ∈ m, b.Holds a := by
  unfold load at h
  split at h
  · rename_i b hfind
    exact ⟨b, List.mem_of_find?_eq_some hfind, holds_of_find? hfind⟩
  · cases h

theorem load_eq_none_iff {m : Memory} {a : ℕ} : load m a = none ↔ ∀ b ∈ m, ¬ b.Holds a := by
  constructor
  · intro h b hb hholds
    unfold load at h
    cases hfind : m.find? fun b => b.Holds a with
    | none => exact List.find?_eq_none.mp hfind b hb (decide_eq_true hholds)
    | some d =>
      obtain ⟨hbase, hlt⟩ : d.Holds a := holds_of_find? hfind
      rw [hfind] at h
      have hle := List.getElem?_eq_none_iff.mp h
      omega
  · intro h
    cases hload : load m a with
    | none => rfl
    | some v =>
      obtain ⟨b, hb, hholds⟩ := exists_holds_of_load hload
      exact absurd hholds (h b hb)

/-- Bytes are in the address space. -/
theorem bounds_of_load {m : Memory} {a : ℕ} {v : UInt8} (h : load m a = some v) :
    lowest ≤ a ∧ a < addressEnd := by
  obtain ⟨b, -, hbase, hlt⟩ := exists_holds_of_load h
  have hplaced := b.placed
  omega

/-- **Where there is a byte, one can be written.** -/
theorem exists_store {m : Memory} {a : ℕ} (h : load m a ≠ none) (v : UInt8) :
    ∃ m', store m a v = some m' := by
  rw [Ne, load_eq_none_iff] at h
  push Not at h
  exact ⟨_, if_pos h⟩

/-- Writing makes no room. -/
theorem load_store_eq_none {m m' : Memory} {a c : ℕ} {v : UInt8} (h : store m a v = some m')
    (hnone : load m c = none) : load m' c = none := by
  unfold store at h
  split at h
  · rw [← Option.some.inj h, load, find?_map_put]
    rw [load_eq_none_iff] at hnone
    have hfind : m.find? (fun b => b.Holds c) = none :=
      List.find?_eq_none.mpr fun b hb => by simpa using hnone b hb
    rw [hfind]
    rfl
  · cases h

/-- The address of a block is in the address space, or null. -/
theorem malloc_le (m : Memory) (base size : ℕ) (junk : ℕ → UInt8) :
    (malloc m base size junk).1 ≤ addressEnd := by
  unfold malloc
  split
  · split
    · dsimp only
      omega
    · exact Nat.zero_le _
  · exact Nat.zero_le _

/-- **A request that is met**: the block is at the address given, with what is found
there. -/
theorem load_malloc {m : Memory} {base size : ℕ} {junk : ℕ → UInt8}
    (h : (malloc m base size junk).1 ≠ 0) : (malloc m base size junk).1 = base
      ∧ ∀ i < size, load (malloc m base size junk).2 (base + i) = some (junk i) := by
  unfold malloc at h ⊢
  split at h
  · rename_i hle
    rw [if_pos hle]
    split at h
    · rename_i m' hplace
      refine ⟨rfl, fun i hi => ?_⟩
      unfold place at hplace
      split at hplace
      · rw [← Option.some.inj hplace, load, List.find?_cons_of_pos]
        · simp [hi]
        · simp [Block.Holds, hi]
      · cases hplace
    · exact absurd rfl h
  · exact absurd rfl h

/-- A new block adds nothing outside of it. -/
theorem load_malloc_eq_none {m : Memory} {base size c : ℕ} {junk : ℕ → UInt8}
    (hnone : load m c = none) (hc : c < base ∨ base + size ≤ c) :
    load (malloc m base size junk).2 c = none := by
  unfold malloc
  split
  · split
    · rename_i m' hplace
      unfold place at hplace
      split at hplace
      · rw [← Option.some.inj hplace]
        refine load_eq_none_iff.mpr fun b hb hholds => ?_
        rcases List.mem_cons.mp hb with rfl | hb
        · obtain ⟨hle, hlt⟩ := hholds
          simp only [List.length_map, List.length_range] at hle hlt
          omega
        · exact load_eq_none_iff.mp hnone b hb hholds
      · cases hplace
    · exact hnone
  · exact hnone

/-- **Nothing is in a block of size zero**, if nothing else is at its address. -/
theorem load_malloc_zero {m : Memory} {base : ℕ} (hnone : load m base = none)
    (junk : ℕ → UInt8) : load (malloc m base 0 junk).2 (malloc m base 0 junk).1 = none := by
  have hbase : load (malloc m base 0 junk).2 base = none :=
    load_malloc_eq_none hnone (Or.inr (Nat.le_refl base))
  by_cases hnull : (malloc m base 0 junk).1 = 0
  · rw [hnull]
    exact load_of_lt _ (by decide)
  · rwa [(load_malloc hnull).1]

/-! ## Numbers -/

@[simp] theorem length_toBytes (k n : ℕ) : (toBytes k n).length = k := by
  induction k generalizing n with
  | zero => rfl
  | succ k ih => rw [toBytes, List.length_cons, ih]

theorem ofBytes_toBytes (k n : ℕ) : ofBytes (toBytes k n) = n % 256 ^ k := by
  induction k generalizing n with
  | zero =>
    rw [Nat.pow_zero, Nat.mod_one]
    rfl
  | succ k ih =>
    show (UInt8.ofNat n).toNat + 256 * ofBytes (toBytes k (n / 256)) = _
    have hpow : 256 ^ (k + 1) = 256 * 256 ^ k := Nat.pow_succ'
    rw [ih, UInt8.toNat_ofNat', hpow, Nat.mod_mul]

theorem toBytes_ofBytes (bs : List UInt8) : toBytes bs.length (ofBytes bs) = bs := by
  induction bs with
  | nil => rfl
  | cons b bs ih =>
    have hb := b.toNat_lt
    show UInt8.ofNat (b.toNat + 256 * ofBytes bs) :: toBytes bs.length
      ((b.toNat + 256 * ofBytes bs) / 256) = _
    rw [Nat.add_mul_div_left _ _ (by decide), Nat.div_eq_of_lt hb, Nat.zero_add, ih]
    congr 1
    refine UInt8.toNat_inj.mp ?_
    rw [UInt8.toNat_ofNat']
    omega

theorem ofBytes_lt (bs : List UInt8) : ofBytes bs < 256 ^ bs.length := by
  have h := ofBytes_toBytes bs.length (ofBytes bs)
  rw [toBytes_ofBytes] at h
  rw [h]
  exact Nat.mod_lt _ (Nat.pow_pos (by decide))

theorem signed32_of_lt {n : ℤ} (h₀ : 0 ≤ n) (h : n < 2 ^ 31) : signed32 n = n := by
  unfold signed32
  exact Int.bmod_eq_of_le (by omega) (by omega)

theorem unsigned64_of_lt {n : ℤ} (h₀ : 0 ≤ n) (h : n < 2 ^ 64) : (unsigned64 n : ℤ) = n := by
  unfold unsigned64
  rw [Int.emod_eq_of_lt h₀ h, Int.toNat_of_nonneg h₀]

end Blocks
