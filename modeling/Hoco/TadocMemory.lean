import Hoco.TadocCalls

/-!
# What is in the memory of a process

The vocabulary in which the functions of the container are specified: that a number, a
pointer or a row of bytes is somewhere, and that there is room for bytes. Each operation on
memory has a rule for what it does to these, and loops have one for invariants.

A rule that says that an operation succeeds is stated for any kind of errors that is
admitted (`ensures_storeBytes_of_room`), one that says what holds when it does for all
errors.
-/

namespace Tadoc

open GrammarHeap (Stop)
open Blocks Triple

variable {mc : Machine} {p p' : Process} {a c : ℕ} {bs cs : List UInt8} {ok : Stop → Prop}

/-! ## Numbers in memory -/

/-- A number of four bytes. -/
def Process.HasInt (p : Process) (a n : ℕ) : Prop := n < 2 ^ 31 ∧ p.HasBytes a (toBytes 4 n)

/-- A pointer. -/
def Process.HasPtr (p : Process) (a n : ℕ) : Prop := n < 2 ^ 64 ∧ p.HasBytes a (toBytes 8 n)

instance (p : Process) (a n : ℕ) : Decidable (p.HasInt a n) :=
  inferInstanceAs (Decidable (_ ∧ _))

instance (p : Process) (a n : ℕ) : Decidable (p.HasPtr a n) :=
  inferInstanceAs (Decidable (_ ∧ _))

theorem ensures_loadInt {n : ℕ} (h : p.HasInt a n) {Q : ℤ → Process → Prop} :
    Ensures ok (loadInt a) p Q ↔ Q n p := by
  obtain ⟨hn, hbytes⟩ := h
  have hload : Ensures ok (loadBytes a 4) p (fun bs p => Q (signed32 (ofBytes bs)) p)
      ↔ Q (signed32 (ofBytes (toBytes 4 n))) p := ensures_loadBytes hbytes
  rw [loadInt, ensures_bind]
  refine hload.trans ?_
  rw [ofBytes_toBytes, Nat.mod_eq_of_lt (by omega), signed32_of_lt (by omega) (by omega)]

theorem keeps_loadPtr (a : ℕ) : Keeps id (loadPtr a) :=
  (keeps_loadBytes a 8).bind fun _ => keeps_pure _

theorem ensures_loadPtr {n : ℕ} (h : p.HasPtr a n) {Q : ℕ → Process → Prop} :
    Ensures ok (loadPtr a) p Q ↔ Q n p := by
  obtain ⟨hn, hbytes⟩ := h
  have hload : Ensures ok (loadBytes a 8) p (fun bs p => Q (ofBytes bs) p)
      ↔ Q (ofBytes (toBytes 8 n)) p := ensures_loadBytes hbytes
  rw [loadPtr, ensures_bind]
  refine hload.trans ?_
  rw [ofBytes_toBytes, Nat.mod_eq_of_lt (by omega)]

/-- Bytes are read in one way. -/
theorem Process.HasBytes.unique (h : p.HasBytes a bs) (h' : p.HasBytes a cs)
    (hlen : bs.length = cs.length) : bs = cs := by
  refine List.ext_getElem? fun i => ?_
  by_cases hi : i < bs.length
  · rw [← h i hi, h' i (hlen ▸ hi)]
  · rw [List.getElem?_eq_none (by omega), List.getElem?_eq_none (by omega)]

theorem Process.HasPtr.unique {n n' : ℕ} (h : p.HasPtr a n) (h' : p.HasPtr a n') : n = n' := by
  have heq := congrArg ofBytes (h.2.unique h'.2 (by simp))
  have hn := h.1
  have hn' := h'.1
  rwa [ofBytes_toBytes, ofBytes_toBytes, Nat.mod_eq_of_lt (by omega), Nat.mod_eq_of_lt (by omega)]
    at heq

/-- What is somewhere else stays. -/
theorem Process.HasBytes.stored (h : p.HasBytes c cs) (hs : p.Stored a bs p')
    (hapart : c + cs.length ≤ a ∨ a + bs.length ≤ c) : p'.HasBytes c cs := fun i hi => by
  rw [hs.others (by omega)]
  exact h i hi

/-- Zeros stay zeros when zeros are written. -/
theorem Process.HasBytes.zeros {k l : ℕ} (h : p.HasBytes c (List.replicate k 0))
    (hs : p.Stored a (List.replicate l 0) p') : p'.HasBytes c (List.replicate k 0) := fun i hi => by
  by_cases hin : c + i < a ∨ a + l ≤ c + i
  · rw [hs.others (by simpa using hin)]
    exact h i hi
  · have hbyte := hs.bytes (c + i - a) (by simp; omega)
    rw [List.length_replicate] at hi
    rw [Nat.add_sub_cancel' (by omega), List.getElem?_replicate, if_pos (by omega)] at hbyte
    rw [hbyte, List.getElem?_replicate, if_pos hi]

/-- There is room for bytes. -/
def Process.Room (p : Process) (a k : ℕ) : Prop := ∀ i < k, load p.memory (a + i) ≠ none

theorem Process.HasBytes.room (h : p.HasBytes a bs) : p.Room a bs.length := fun i hi => by
  rw [h i hi, List.getElem?_eq_getElem hi]
  exact Option.some_ne_none _

theorem Process.Room.stored {k : ℕ} (h : p.Room c k) (hs : p.Stored a bs p') : p'.Room c k := by
  intro i hi
  by_cases hin : c + i < a ∨ a + bs.length ≤ c + i
  · rw [hs.others hin]
    exact h i hi
  · have hroom := hs.bytes.room (c + i - a) (by omega)
    rwa [Nat.add_sub_cancel' (by omega)] at hroom

/-- Something is there, and a pointer in particular can be read. -/
theorem Process.Room.exists_hasPtr (h : p.Room a 8) : ∃ n, p.HasPtr a n := by
  have hbytes : p.HasBytes a ((List.range 8).map fun i => (load p.memory (a + i)).getD 0) := by
    intro i hi
    rw [List.length_map, List.length_range] at hi
    obtain ⟨v, hv⟩ := Option.ne_none_iff_exists'.mp (h i hi)
    simp [hi, hv]
  refine ⟨ofBytes ((List.range 8).map fun i => (load p.memory (a + i)).getD 0), ?_, ?_⟩
  · exact Nat.lt_of_lt_of_le (ofBytes_lt _) (by simp)
  · rwa [← toBytes_ofBytes (List.map _ _)] at hbytes

/-- **Where there is room, bytes can be written.** -/
theorem ensures_storeBytes_of_room (bs : List UInt8) :
    ∀ {a : ℕ} {p : Process}, p.Room a bs.length →
      Ensures ok (storeBytes a bs) p fun _ p' => p.Stored a bs p' := by
  induction bs with
  | nil => exact fun _ => ⟨fun i hi => absurd hi (Nat.not_lt_zero i), fun _ => rfl, id, rfl⟩
  | cons b bs ih =>
    intro a p h
    obtain ⟨memory, hstore⟩ := exists_store (h 0 (Nat.zero_lt_succ _)) b
    have hrest : Process.Room { p with memory := memory } (a + 1) bs.length := fun i hi => by
      rw [load_store_of_ne hstore (by omega), Nat.add_assoc, Nat.add_comm 1 i]
      exact h (i + 1) (Nat.succ_lt_succ hi)
    rw [Nat.add_zero] at hstore
    rw [storeBytes, ensures_bind, storeByte, ensures_bind, ensures_get, ensures_bind, hstore]
    exact (ih hrest).mono fun _ p' hp' => hp'.cons hstore

/-- A byte of an array. -/
theorem element_one {n : ℕ} (h : a + n < 2 ^ 64) : element a 1 (n : ℕ) = a + n := by
  unfold element unsigned64
  omega

theorem length_loadBytes (a k : ℕ) (p : Process) :
    Ensures (fun _ => True) (loadBytes a k) p fun bs p' => bs.length = k ∧ p' = p := by
  induction k generalizing a with
  | zero => exact ⟨rfl, rfl⟩
  | succ k ih =>
    rw [loadBytes, ensures_bind]
    refine ensures_of_keeps (keeps_loadByte a) fun b => ?_
    refine (ih (a + 1)).bind fun bs p' hbs => ?_
    exact ⟨congrArg Nat.succ hbs.1, hbs.2⟩

/-! ## Blocks -/

/-- The next block that is asked for, of the given size, is to be had. -/
def Machine.Meets (mc : Machine) (p : Process) (size : ℕ) : Prop :=
  (Blocks.malloc p.memory (mc.address p.heap.used) size (mc.junk p.heap.used)).1 ≠ 0

/-- Behind the next block, of the given size, there is one at an address at which there
is nothing else. -/
def Machine.Separate (mc : Machine) (p : Process) (size : ℕ) : Prop :=
  load p.memory (mc.address (p.heap.used + 1)) = none
    ∧ (mc.address (p.heap.used + 1) < mc.address p.heap.used
      ∨ mc.address p.heap.used + size ≤ mc.address (p.heap.used + 1))

instance (mc : Machine) (p : Process) (size : ℕ) : Decidable (mc.Meets p size) :=
  inferInstanceAs (Decidable (_ ≠ _))

instance (mc : Machine) (p : Process) (size : ℕ) : Decidable (mc.Separate p size) :=
  inferInstanceAs (Decidable (_ ∧ _))

/-- `malloc`, as what it returns and leaves. -/
def Process.malloced (mc : Machine) (p : Process) (size : ℕ) : ℕ × Process :=
  let block := Blocks.malloc p.memory (mc.address p.heap.used) size (mc.junk p.heap.used)
  (block.1, { p with heap := { p.heap with used := p.heap.used + 1 }, memory := block.2 })

theorem ensures_malloc {size : ℕ} {Q : ℕ → Process → Prop} :
    Ensures ok (malloc mc size) p Q ↔ Q (p.malloced mc size).1 (p.malloced mc size).2 := Iff.rfl

theorem Process.HasBytes.malloced (h : p.HasBytes a bs) (mc : Machine) (size : ℕ) :
    (p.malloced mc size).2.HasBytes a bs := fun i hi => by
  have hload := h i hi
  rw [List.getElem?_eq_getElem hi] at hload ⊢
  exact load_of_malloc hload

theorem Process.Room.malloced {k : ℕ} (h : p.Room a k) (mc : Machine) (size : ℕ) :
    (p.malloced mc size).2.Room a k := fun i hi => by
  obtain ⟨v, hv⟩ := Option.ne_none_iff_exists'.mp (h i hi)
  rw [Process.malloced, load_of_malloc hv]
  exact Option.some_ne_none v

/-- There is room in a block that has been handed out. -/
theorem Machine.Meets.room {size : ℕ} (h : mc.Meets p size) :
    (p.malloced mc size).2.Room (p.malloced mc size).1 size := fun i hi => by
  obtain ⟨hbase, hload⟩ := load_malloc h
  show load (Blocks.malloc _ _ _ _).2 ((Blocks.malloc _ _ _ _).1 + i) ≠ none
  rw [hbase, hload i hi]
  exact Option.some_ne_none _

/-! ## Loops -/

theorem forLoop_of_not_lt {σ : Type} {bound : M ℤ} {body : ℤ → σ → M σ} {i b : ℤ} {s : σ}
    {Q : σ → Process → Prop} (hbound : ∀ {R : ℤ → Process → Prop}, Ensures ok bound p R ↔ R b p)
    (hi : ¬ i < b) : Ensures ok (forLoop bound body intRange i s) p Q ↔ Q s p := by
  rw [show intRange = 2147483647 + 1 from rfl, forLoop, ensures_bind, hbound, if_neg hi]
  exact Iff.rfl

/-- **The rule for loops**: an invariant that a turn keeps and from which the end follows
as soon as the bound is reached. -/
theorem ensures_forLoop {σ : Type} {bound : M ℤ} {body : ℤ → σ → M σ}
    {I : ℤ → σ → Process → Prop} {Q : σ → Process → Prop}
    (hturn : ∀ i s p, I i s p → Ensures (fun _ => True) bound p fun b p' =>
      (i < b → Ensures (fun _ => True) (body i s) p' (I (i + 1))) ∧ (¬ i < b → Q s p')) :
    ∀ (fuel : ℕ) {i : ℤ} {s : σ} {p : Process}, I i s p →
      Ensures (fun _ => True) (forLoop bound body fuel i s) p Q := by
  intro fuel
  induction fuel with
  | zero => exact fun _ => trivial
  | succ fuel ih =>
    intro i s p hI
    rw [forLoop]
    refine (hturn i s p hI).bind fun b p' hb => ?_
    split
    · rename_i hlt
      exact (hb.1 hlt).bind fun s' p'' hI' => ih hI'
    · rename_i hge
      exact hb.2 hge

/-- An invariant of the variables of the loop alone. -/
theorem ensures_forLoop_of_turn {σ : Type} {bound : M ℤ} {body : ℤ → σ → M σ} {I : σ → Prop}
    (hturn : ∀ i s p, I s → Ensures (fun _ => True) (body i s) p fun s' _ => I s') {i : ℤ} {s : σ}
    (hs : I s) : Ensures (fun _ => True) (forLoop bound body intRange i s) p fun s' _ => I s' :=
  ensures_forLoop (I := fun _ s _ => I s)
    (fun i s _ hs => Ensures.trivial.mono fun _ p' _ => ⟨fun _ => hturn i s p' hs, fun _ => hs⟩)
    intRange hs

/-- Loops that differ in what they carry along. -/
theorem map_forLoop {σ τ : Type} (f : τ → σ) {bound : M ℤ} {body : ℤ → σ → M σ}
    {body' : ℤ → τ → M τ} (h : ∀ i t, f <$> body' i t = body i (f t)) (fuel : ℕ) (i : ℤ) (t : τ) :
    f <$> forLoop bound body' fuel i t = forLoop bound body fuel i (f t) := by
  induction fuel generalizing i t with
  | zero => rfl
  | succ fuel ih =>
    rw [forLoop, forLoop, map_bind]
    congr 1
    funext b
    split
    · rw [← h, map_bind, bind_map_left]
      simp only [ih]
    · exact map_pure f t

theorem bind_forLoop {σ τ β : Type} (f : τ → σ) {bound : M ℤ} {body : ℤ → σ → M σ}
    {body' : ℤ → τ → M τ} (h : ∀ i t, f <$> body' i t = body i (f t)) (fuel : ℕ) (i : ℤ) (t : τ)
    (k : σ → M β) :
    (forLoop bound body fuel i (f t) >>= k)
      = forLoop bound body' fuel i t >>= fun t' => k (f t') := by
  rw [← map_forLoop f h, bind_map_left]

end Tadoc
