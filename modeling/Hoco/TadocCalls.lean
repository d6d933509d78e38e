import Hoco.TadocContainer

/-!
# What the calls of `tadoc.c` come to

No call of `tadoc_compress` or `tadoc_decompress` returns.

`discover` files every rule in the array that the file-scope pointer `rules`
points to. The pointer is never set, so it is null, and the first rule – the start
rule, of which there always is one – is stored through it.

`tadoc_decompress` asks for its table of offsets with the file-scope `num_rules`
instead of the number it has just read. That is zero, since it is only counted up
by a compression, and one is subtracted behind the multiplication: the size is the
largest there is, the request is not met, and the table – whose first entry is the
length of the first record and read in any case – is at the null pointer.

What this means for a process that calls the functions is at the end of the module:
a process that is able to make a call has made none before (`reached_iff`), a round
trip never comes to its end, calls are not independent of each other as soon as
there is one, and no container is rejected.
-/

namespace Tadoc

open GrammarHeap (Stop)
open Blocks Triple

variable (mc : Machine)

/-! ## Calls -/

/-- A call of `tadoc_compress` with objects for the source and the destination. The
result is what is returned and what the destination holds then. -/
def compressCall (source dest : List UInt8) : M (ℤ × List UInt8) := do
  let s ← object mc source
  let d ← object mc dest
  let n ← tadocCompress mc s source.length d
  return (n, ← loadBytes d dest.length)

/-- A call of `tadoc_decompress` that checks for completeness. -/
def decompressCall (source dest : List UInt8) (rawsize : ℤ) : M (ℤ × List UInt8) := do
  let s ← object mc source
  let d ← object mc dest
  let n ← tadocDecompress mc s source.length d rawsize 1
  return (n, ← loadBytes d dest.length)

/-- A compression and the decompression of what it has written. -/
def roundTrip (source dest out : List UInt8) : M (ℤ × List UInt8) := do
  let s ← object mc source
  let d ← object mc dest
  let n ← tadocCompress mc s source.length d
  let o ← object mc out
  let written ← tadocDecompress mc d n o source.length 1
  return (written, ← loadBytes o source.length)

/-- Compressions one after the other. -/
def calls : List (List UInt8 × List UInt8) → M (List (ℤ × List UInt8))
  | [] => return []
  | (source, dest) :: rest => do
    let result ← compressCall mc source dest
    let results ← calls rest
    return result :: results

/-- **The states in which a process makes a call**: those that the calls before,
which have returned, have left. -/
inductive Reached : Process → Prop
  | fresh : Reached .fresh
  | compress {p p' : Process} {source dest : List UInt8} {result : ℤ × List UInt8} :
      Reached p → compressCall mc source dest p = .ok (result, p') → Reached p'
  | decompress {p p' : Process} {source dest : List UInt8} {rawsize : ℤ}
      {result : ℤ × List UInt8} :
      Reached p → decompressCall mc source dest rawsize p = .ok (result, p') → Reached p'

/-! ## The container of the document -/

/-- A record: for each reference its place among the symbols and the number of its
rule, and the symbols, with a placeholder for a reference. -/
structure Record where
  units : List (ℕ × ℕ)
  symbols : List UInt8

/-- The number of references, the references and the symbols. -/
def Record.bytes (r : Record) : List UInt8 :=
  toBytes 4 r.units.length ++ r.units.flatMap (fun u => toBytes 4 u.2 ++ toBytes 4 u.1) ++ r.symbols

/-- The text of the symbols from place `j` on, when the rules have the texts given. A
reference that is out of order, or behind the last symbol, has none. -/
def textFrom (sub : ℕ → Option (List UInt8)) :
    ℕ → List (ℕ × ℕ) → List UInt8 → Option (List UInt8)
  | _, [], bs => some bs
  | _, _ :: _, [] => none
  | j, u :: us, b :: bs =>
    if j = u.1 then do return (← sub u.2) ++ (← textFrom sub (j + 1) us bs)
    else do return b :: (← textFrom sub (j + 1) (u :: us) bs)

/-- The offsets of the records behind the first one. -/
def offsetsFrom : ℕ → List Record → List ℕ
  | offset, r :: s :: rs =>
    (offset + r.bytes.length) :: offsetsFrom (offset + r.bytes.length) (s :: rs)
  | _, _ => []

/-- The header, the table of offsets and the records. -/
def containerBytes (rs : List Record) : List UInt8 :=
  toBytes 4 rs.length ++ (offsetsFrom 0 rs).flatMap (toBytes 4) ++ rs.flatMap Record.bytes

/-- The text of a rule, if the references below it are nested no deeper than the
bound. -/
def ruleText (rs : List Record) : ℕ → ℕ → Option (List UInt8)
  | 0, _ => none
  | depth + 1, i => do
    let r ← rs[i]?
    textFrom (ruleText rs depth) 0 r.units r.symbols

/-- **A well-formed container** of a text: all numbers in it fit, and every rule has
a text, so that all references are in range and none leads back to its rule. -/
def Encodes (source text : List UInt8) : Prop :=
  source.length < 2 ^ 31 ∧ ∃ rs, source = containerBytes rs ∧
    (∀ i < rs.length, (ruleText rs rs.length i).isSome) ∧ ruleText rs rs.length 0 = some text

/-! ## What memory operations leave alone -/

/-- The file-scope variables, the digram table apart. -/
def Process.statics (p : Process) : ℕ × ℤ × ℤ := (p.rules, p.detectedRulesNum, p.heap.numRules)

/-- The file-scope variables that the grammar does not know. -/
def Process.detection (p : Process) : ℕ × ℤ := (p.rules, p.detectedRulesNum)

theorem keeps_orFault {α γ : Type} {f : Process → γ} (o : Option α) : Keeps f (orFault o) := by
  cases o with
  | some a => exact keeps_pure a
  | none => exact keeps_throw _

theorem keeps_loadByte (a : ℕ) : Keeps id (loadByte a) :=
  keeps_get.bind fun _ => keeps_orFault _

theorem keeps_loadBytes (a k : ℕ) : Keeps id (loadBytes a k) := by
  induction k generalizing a with
  | zero => exact keeps_pure _
  | succ k ih => exact (keeps_loadByte a).bind fun _ => (ih (a + 1)).bind fun _ => keeps_pure _

theorem keeps_loadInt (a : ℕ) : Keeps id (loadInt a) :=
  (keeps_loadBytes a 4).bind fun _ => keeps_pure _

theorem keeps_storeByte (a : ℕ) (v : UInt8) : Keeps Process.statics (storeByte a v) :=
  keeps_get.bind fun _ => (keeps_orFault _).bind fun _ _ => rfl

theorem keeps_storeBytes (a : ℕ) (bs : List UInt8) : Keeps Process.statics (storeBytes a bs) := by
  induction bs generalizing a with
  | nil => exact keeps_pure _
  | cons b bs ih => exact (keeps_storeByte a b).bind fun _ => ih (a + 1)

theorem keeps_malloc (size : ℕ) : Keeps Process.statics (malloc mc size) := fun _ => rfl

theorem keeps_object (bytes : List UInt8) : Keeps Process.statics (object mc bytes) := by
  refine Keeps.bind (fun _ => rfl) fun base => keeps_get.bind fun p => ?_
  split
  · exact Keeps.bind (fun _ => rfl) fun _ => keeps_pure _
  · exact keeps_throw _

theorem keeps_detection {α : Type} {c : M α} (h : Keeps Process.statics c) :
    Keeps Process.detection c := fun p =>
  (h p).mono fun _ _ hs => by
    simp only [Process.statics, Process.detection, Prod.mk.injEq] at *
    exact ⟨hs.1, hs.2.1⟩

theorem keeps_numRules {α : Type} {c : M α} (h : Keeps Process.statics c) :
    Keeps (fun p : Process => p.heap.numRules) c := fun p =>
  (h p).mono fun _ _ hs => by
    simp only [Process.statics, Prod.mk.injEq] at hs
    exact hs.2.2

theorem keeps_grammar {α : Type} (c : GrammarHeap.M α) : Keeps Process.detection (grammar c) := by
  intro p
  unfold Ensures grammar
  cases c p.heap <;> trivial

/-! ## Compression -/

/-- A word cannot be written through a null pointer. -/
theorem never_storeBytes {a : ℕ} (h : a < lowest) (b : UInt8) (bs : List UInt8) (p : Process) :
    Never (storeBytes a (b :: bs)) p := by
  refine (ensures_bind _).mpr ((ensures_bind _).mpr ((ensures_bind _).mpr ?_))
  show Ensures _ (orFault (store p.memory a b)) p _
  rw [store_of_lt p.memory h b]
  exact trivial

/-- **The first rule cannot be filed.** -/
theorem never_discover {p : Process} (h : p.detection = (0, 0)) (compressedData depth rule : ℕ) :
    Never (discover mc compressedData depth rule) p := by
  obtain ⟨hrules, hdetected⟩ := Prod.mk.inj h
  cases depth with
  | zero => exact trivial
  | succ depth =>
    refine (ensures_bind _).mpr ?_
    show Ensures _ _ p _
    refine (keeps_grammar _ p).bind fun _ q hq => ?_
    obtain ⟨hrules', -⟩ := Prod.mk.inj (hq.trans h)
    refine (ensures_bind _).mpr ((ensures_bind _).mpr ?_)
    show Ensures _ (storePtr (element q.rules 8 p.detectedRulesNum) rule) q _
    rw [hrules', hdetected]
    exact (never_storeBytes (by decide) _ _ q).mono fun _ _ hfalse => hfalse.elim

/-- `tadoc_compress` as far as the call of `discover`: the start rule, and the block that
the records are to be filed in. -/
def beforeDiscover (source : ℕ) (slen : ℤ) : M (ℕ × ℕ) := do
  initHashTable mc
  let text ← loadBytes source (max slen 1).toNat
  let S ← grammar (GrammarHeap.tadocBuild mc.config text)
  let compressedData ← malloc mc 24
  storeInt compressedData (← get).heap.numRules
  storePtr (compressedData + 16) (← malloc mc (unsigned64 (8 * (← get).heap.numRules)))
  storePtr (compressedData + 8) (← malloc mc (unsigned64 (4 * ((← get).heap.numRules - 1))))
  return (S, compressedData)

/-- That is how `tadoc_compress` begins. -/
theorem tadocCompress_eq (source : ℕ) (slen : ℤ) (dest : ℕ) :
    tadocCompress mc source slen dest = (do
      let x ← beforeDiscover mc source slen
      discover mc x.2 (← get).heap.used x.1
      displayCompressedData x.2
      let totalWriteBytes ← writeCompressedData dest x.2
      forLoop (return (← get).detectedRulesNum) (fun i _ => destroyDetected mc i) intRange 0 ()
      destroyCompressedData x.2
      return totalWriteBytes) := by
  simp only [tadocCompress, beforeDiscover, bind_assoc, pure_bind]

theorem keeps_beforeDiscover (source : ℕ) (slen : ℤ) :
    Keeps Process.detection (beforeDiscover mc source slen) := by
  have hmalloc := fun size => keeps_detection (keeps_malloc mc size)
  have hstore := fun a bs => keeps_detection (keeps_storeBytes a bs)
  refine Keeps.bind (fun _ => rfl) fun _ => (keeps_loadBytes _ _).of_id.bind fun _ =>
    (keeps_grammar _).bind fun _ => (hmalloc 24).bind fun _ => keeps_get.bind fun _ =>
    (hstore _ _).bind fun _ => keeps_get.bind fun _ => (hmalloc _).bind fun _ =>
    (hstore _ _).bind fun _ => keeps_get.bind fun _ => (hmalloc _).bind fun _ =>
    (hstore _ _).bind fun _ => keeps_pure _

/-- **`tadoc_compress` does not return.** -/
theorem never_tadocCompress {p : Process} (h : p.detection = (0, 0)) (source : ℕ) (slen : ℤ)
    (dest : ℕ) : Never (tadocCompress mc source slen dest) p := by
  rw [tadocCompress_eq]
  refine never_bind h (keeps_beforeDiscover mc source slen) fun x p h => ?_
  refine never_bind h keeps_get fun _ p h => ?_
  exact (never_discover mc h _ _ _).bind fun _ _ hfalse => hfalse.elim

/-! ## Decompression -/

/-- The bytes from an address on. -/
def Process.HasBytes (p : Process) (a : ℕ) (bs : List UInt8) : Prop :=
  ∀ i < bs.length, load p.memory (a + i) = bs[i]?

instance (p : Process) (a : ℕ) (bs : List UInt8) : Decidable (p.HasBytes a bs) :=
  inferInstanceAs (Decidable (∀ i < bs.length, load p.memory (a + i) = bs[i]?))

theorem Process.HasBytes.tail {p : Process} {a : ℕ} {b : UInt8} {bs : List UInt8}
    (h : p.HasBytes a (b :: bs)) : p.HasBytes (a + 1) bs := fun i hi => by
  rw [Nat.add_assoc, Nat.add_comm 1 i]
  exact h (i + 1) (Nat.succ_lt_succ hi)

theorem ensures_loadByte {ok : Stop → Prop} {p : Process} {a : ℕ} {v : UInt8}
    {Q : UInt8 → Process → Prop} (h : load p.memory a = some v) :
    Ensures ok (loadByte a) p Q ↔ Q v p := by
  rw [loadByte, ensures_bind, ensures_get, h]
  exact Iff.rfl

/-- Reading what is there. -/
theorem ensures_loadBytes {ok : Stop → Prop} {p : Process} {bs : List UInt8} :
    ∀ {a : ℕ} {Q : List UInt8 → Process → Prop}, p.HasBytes a bs →
      (Ensures ok (loadBytes a bs.length) p Q ↔ Q bs p) := by
  induction bs with
  | nil => exact fun _ => Iff.rfl
  | cons b bs ih =>
    intro a Q h
    have hb : load p.memory a = some b := h 0 (Nat.zero_lt_succ _)
    rw [List.length_cons, loadBytes, ensures_bind, ensures_loadByte hb, ensures_bind, ih h.tail]
    exact Iff.rfl

/-- **Bytes that have been written are there**, and the others are what they were. -/
structure Process.Stored (p : Process) (a : ℕ) (bs : List UInt8) (p' : Process) : Prop where
  bytes : p'.HasBytes a bs
  others : ∀ {c}, c < a ∨ a + bs.length ≤ c → load p'.memory c = load p.memory c
  nothing : ∀ {c}, load p.memory c = none → load p'.memory c = none
  heap_eq : p'.heap = p.heap

/-- A byte, and those behind it. -/
theorem Process.Stored.cons {p p' : Process} {memory : Memory} {a : ℕ} {b : UInt8}
    {bs : List UInt8} (hstore : store p.memory a b = some memory)
    (h : Process.Stored { p with memory := memory } (a + 1) bs p') : p.Stored a (b :: bs) p' where
  bytes i hi := by
    cases i with
    | zero =>
      rw [Nat.add_zero, h.others (Or.inl (Nat.lt_succ_self a))]
      exact load_store_self hstore
    | succ i =>
      rw [← Nat.add_assoc, Nat.add_right_comm]
      exact h.bytes i (Nat.lt_of_succ_lt_succ hi)
  others {c} hc := by
    rw [List.length_cons] at hc
    rw [h.others (by omega)]
    exact load_store_of_ne hstore (by omega)
  nothing hc := h.nothing (load_store_eq_none hstore hc)
  heap_eq := h.heap_eq

theorem ensures_storeBytes (bs : List UInt8) :
    ∀ (a : ℕ) (p : Process),
      Ensures (fun _ => True) (storeBytes a bs) p fun _ p' => p.Stored a bs p' := by
  induction bs with
  | nil =>
    exact fun a p => ⟨fun i hi => absurd hi (Nat.not_lt_zero i), fun _ => rfl, fun hc => hc, rfl⟩
  | cons b bs ih =>
    intro a p
    rw [storeBytes, ensures_bind, storeByte, ensures_bind, ensures_get, ensures_bind]
    cases hstore : store p.memory a b with
    | none => exact trivial
    | some memory =>
      exact (ih (a + 1) { p with memory := memory }).mono fun _ p' hp' => hp'.cons hstore

/-- A null pointer that is stored somewhere. -/
def Process.HasNull (p : Process) (a : ℕ) : Prop := p.HasBytes a (toBytes 8 0)

theorem ensures_loadPtr_null {p : Process} {a : ℕ} (h : p.HasNull a) {Q : ℕ → Process → Prop} :
    Ensures (fun _ => True) (loadPtr a) p Q ↔ Q 0 p := by
  rw [loadPtr, ensures_bind]
  exact ensures_loadBytes h

/-- **An offset cannot be copied to a table at the null pointer.** -/
theorem never_readOffset {p : Process} {compressedData : ℕ} (h : p.HasNull (compressedData + 8))
    (source : ℕ) : Never (readOffset compressedData source 0) p := by
  refine never_bind rfl (keeps_loadInt _) fun offset q hq => ?_
  obtain rfl : q = p := hq
  refine (ensures_bind _).mpr ((ensures_loadPtr_null h).mpr ?_)
  exact never_storeBytes (by decide) _ _ q

/-- Nor can the length of the first record be read from it. -/
theorem never_loadInt {a : ℕ} (h : a < lowest) (p : Process) : Never (loadInt a) p := by
  rw [Never, loadInt, ensures_bind, loadBytes, ensures_bind, loadByte, ensures_bind, ensures_get,
    load_of_lt p.memory h]
  exact trivial

/-- The loop over the table is not entered, or does not end. -/
theorem ensures_readOffsets {p : Process} {compressedData : ℕ}
    (h : p.HasNull (compressedData + 8)) (source : ℕ) {Q : Unit → Process → Prop} (hQ : Q () p) :
    Ensures (fun _ => True) (forLoop (do return (← loadInt compressedData) - 1)
      (fun i _ => readOffset compressedData source i) intRange 0 ()) p Q := by
  rw [show intRange = 2147483647 + 1 from rfl, forLoop, ensures_bind]
  have hbound : Keeps id (do return (← loadInt compressedData) - 1 : M ℤ) :=
    (keeps_loadInt _).bind fun _ => keeps_pure _
  refine (hbound p).mono fun count q hq => ?_
  obtain rfl : q = p := hq
  split
  · exact (never_readOffset h source).bind fun _ _ hfalse => hfalse.elim
  · exact hQ

theorem ensures_malloc_of_gt {p : Process} {size : ℕ} (h : addressEnd < size)
    {Q : ℕ → Process → Prop} : Ensures (fun _ => True) (malloc mc size) p Q
      ↔ Q 0 { p with heap := { p.heap with used := p.heap.used + 1 } } := by
  show Q (Blocks.malloc p.memory _ size _).1 { p with
      heap := { p.heap with used := p.heap.used + 1 }
      memory := (Blocks.malloc p.memory _ size _).2 } ↔ _
  rw [malloc_of_gt _ _ _ h]

/-- What is stored stays when a block is asked for. -/
theorem ensures_malloc_hasNull {p : Process} {a : ℕ} (h : p.HasNull a) (size : ℕ) :
    Ensures (fun _ => True) (malloc mc size) p fun _ p' => p'.HasNull a := by
  intro i hi
  have hload := h i hi
  rw [List.getElem?_eq_getElem hi] at hload ⊢
  exact load_of_malloc hload

/-- **`tadoc_decompress` does not return** while `num_rules` is zero. -/
theorem never_tadocDecompress {p : Process} (h : p.heap.numRules = 0) (source : ℕ) (slen : ℤ)
    (dest : ℕ) (rawsize checkComplete : ℤ) :
    Never (tadocDecompress mc source slen dest rawsize checkComplete) p := by
  refine never_bind (s := p) h (keeps_numRules (keeps_malloc mc 24)) fun compressedData p h => ?_
  refine never_bind (s := p) h (keeps_numRules (keeps_loadInt _).of_id) fun count p h => ?_
  refine never_bind (s := p) h (keeps_numRules (keeps_storeBytes _ _)) fun _ p h => ?_
  -- The table of offsets is at the null pointer.
  rw [Never, ensures_bind, ensures_get, h, ensures_bind, ensures_malloc_of_gt mc (by decide),
    ensures_bind]
  refine (ensures_storeBytes _ _ _).mono fun _ p hp => ?_
  have hnull : p.HasNull (compressedData + 8) := hp.bytes
  refine (ensures_bind _).mpr (ensures_readOffsets hnull source ?_)
  refine never_bind (f := id) rfl (keeps_loadInt _) fun count q hq => ?_
  obtain rfl : q = p := hq
  refine (ensures_malloc_hasNull mc hnull _).bind fun ruleArray p hnull => ?_
  refine (ensures_storeBytes _ _ p).bind fun _ q hq => ?_
  have hnull' : q.HasNull (compressedData + 8) := by
    intro i hi
    have hi8 : i < 8 := hi
    rw [hq.others (Or.inl (by omega))]
    exact hnull i hi
  refine never_bind (f := id) rfl (keeps_loadInt _) fun count r hr => ?_
  obtain rfl : r = q := hr
  refine (ensures_bind _).mpr ((ensures_loadPtr_null hnull').mpr ?_)
  exact (never_loadInt (by decide) r).bind fun _ _ hfalse => hfalse.elim

/-! ## Processes -/

theorem never_compressCall {p : Process} (h : p.detection = (0, 0)) (source dest : List UInt8) :
    Never (compressCall mc source dest) p := by
  refine never_bind h (keeps_detection (keeps_object mc _)) fun s p h => ?_
  refine never_bind h (keeps_detection (keeps_object mc _)) fun d p h => ?_
  exact (never_tadocCompress mc h _ _ _).bind fun _ _ hfalse => hfalse.elim

theorem never_decompressCall {p : Process} (h : p.heap.numRules = 0) (source dest : List UInt8)
    (rawsize : ℤ) : Never (decompressCall mc source dest rawsize) p := by
  refine never_bind (s := p) h (keeps_numRules (keeps_object mc _)) fun s p h => ?_
  refine never_bind (s := p) h (keeps_numRules (keeps_object mc _)) fun d p h => ?_
  exact (never_tadocDecompress mc h _ _ _ _ _).bind fun _ _ hfalse => hfalse.elim

/-- **A process that makes a call has made none before.** -/
theorem reached_iff {p : Process} : Reached mc p ↔ p = .fresh := by
  constructor
  · intro h
    induction h with
    | fresh => rfl
    | compress _ hcall ih =>
      rw [ih] at hcall
      exact absurd hcall ((never_compressCall mc rfl _ _).ne_ok _)
    | decompress _ hcall ih =>
      rw [ih] at hcall
      exact absurd hcall ((never_decompressCall mc rfl _ _ _).ne_ok _)
  · rintro rfl
    exact .fresh

/-- Addresses a page apart, and memory that is cleared. -/
def Machine.plain : Machine := ⟨fun n => 4096 * (n + 1), fun _ _ => 0, fun _ _ => 0, true, 100⟩

/-- **No round trip comes to its end**: in every process, with buffers of any size,
and for every source. -/
theorem roundTrip_ne {p : Process} (hp : Reached mc p) (source dest out : List UInt8) :
    (roundTrip mc source dest out).run' p ≠ .ok (source.length, source) := by
  obtain rfl := (reached_iff mc).mp hp
  have h : Process.fresh.detection = (0, 0) := rfl
  refine Never.run'_ne_ok ?_ _
  refine never_bind h (keeps_detection (keeps_object mc _)) fun s p h => ?_
  refine never_bind h (keeps_detection (keeps_object mc _)) fun d p h => ?_
  exact (never_tadocCompress mc h _ _ _).bind fun _ _ hfalse => hfalse.elim

theorem roundTrip_ne_one : Reached .plain .fresh ∧
    (roundTrip .plain [97] (List.replicate 100 0) [0]).run' .fresh ≠ .ok (1, [97]) :=
  ⟨.fresh, roundTrip_ne .plain .fresh [97] _ _⟩

/-- The source of one character: the start rule is stored through the null pointer. -/
theorem not_forall_roundTrip :
    ¬ ∀ (mc : Machine) (source dest out : List UInt8), source ≠ [] →
      100 * source.length ≤ dest.length → source.length ≤ out.length →
      (roundTrip mc source dest out).run' .fresh = .ok (source.length, source) := by
  intro h
  have hbad := h .plain [97] (List.replicate 100 0) [0] (by decide) (by decide) (by decide)
  have hrun : (roundTrip .plain [97] (List.replicate 100 0) [0]).run' .fresh = .error .fault := by
    decide +kernel
  rw [hrun] at hbad
  cases hbad

/-- Every call of a sequence returns, and with the result it has in a fresh process. -/
def Independent (cs : List (List UInt8 × List UInt8)) : Prop :=
  ∃ results, (calls mc cs).run' .fresh = .ok results ∧
    List.Forall₂ (fun c result => (compressCall mc c.1 c.2).run' .fresh = .ok result) cs results

/-- **Calls are independent when there is none**: already the first one does not
return, and no other is made. -/
theorem independent_iff_nil (cs : List (List UInt8 × List UInt8)) :
    Independent mc cs ↔ cs = [] := by
  constructor
  · rintro ⟨results, -, hall⟩
    cases hall with
    | nil => rfl
    | cons hcall _ => exact absurd hcall ((never_compressCall mc rfl _ _).run'_ne_ok _)
  · rintro rfl
    exact ⟨[], rfl, .nil⟩

/-- A single call. -/
theorem not_forall_independent :
    ¬ ∀ (mc : Machine) (cs : List (List UInt8 × List UInt8)),
      (∀ c ∈ cs, c.1 ≠ [] ∧ 100 * c.1.length ≤ c.2.length) → Independent mc cs := by
  intro h
  obtain ⟨results, -, hall⟩ := h .plain [([97], List.replicate 100 0)] (by decide)
  have hrun : (compressCall .plain [97] (List.replicate 100 0)).run' .fresh = .error .fault := by
    decide +kernel
  cases hall with
  | cons hcall _ =>
    rw [hrun] at hcall
    cases hcall

/-- The decompression returns, without an access outside its source, its destination
and its own blocks, and what is not a container of a text of the size asked for is
answered with `-1`. -/
def Rejects (p : Process) (source dest : List UInt8) (rawsize : ℤ) : Prop :=
  ∃ result out, (decompressCall mc source dest rawsize).run' p = .ok (result, out) ∧
    (result ≠ -1 → ∃ text, Encodes source text ∧ text.length = rawsize)

/-- **Nothing is rejected**, nor is anything accepted: in every process, for every
source and every size. -/
theorem not_rejects {p : Process} (hp : Reached mc p) (source dest : List UInt8) (rawsize : ℤ) :
    ¬ Rejects mc p source dest rawsize := by
  obtain rfl := (reached_iff mc).mp hp
  rintro ⟨result, out, hcall, -⟩
  exact (never_decompressCall mc rfl source dest rawsize).run'_ne_ok _ hcall

theorem not_rejects_header : Reached .plain .fresh ∧ ¬ Rejects .plain .fresh [1, 0, 0, 0] [0] 1 :=
  ⟨.fresh, not_rejects .plain .fresh _ _ _⟩

/-- A header alone, of one rule: the length of its record is read through the null
pointer. -/
theorem not_forall_rejects :
    ¬ ∀ (mc : Machine) (source dest : List UInt8),
      Rejects mc .fresh source dest dest.length := by
  intro h
  obtain ⟨result, out, hcall, -⟩ := h .plain [1, 0, 0, 0] [0]
  have hrun : (decompressCall .plain [1, 0, 0, 0] [0] 1).run' .fresh = .error .fault := by
    decide +kernel
  rw [show ((([0] : List UInt8).length : ℕ) : ℤ) = 1 from rfl, hrun] at hcall
  cases hcall

end Tadoc
