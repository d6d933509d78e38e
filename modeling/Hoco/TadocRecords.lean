import Hoco.TadocMemory
import Hoco.TadocGrammar

/-!
# Records of rules, written and read

What the functions of the container make of the records of rules, apart from what the
calls come to (`Hoco.TadocCalls`).

One record: `writeRuleData` writes the references from the beginning of the destination
on, over the header, and `readRuleData` asks for as many bytes for the symbols as there
are references, and copies as many. So a record comes back if there is nothing in it, and
only then (`roundTrips_iff`). Where the parts are written is seen from a run of the
function that lists the addresses it stores to (`writeRuleStores`), and that it does
nothing else is `writeRuleData_eq`.

All records: `writeCompressedData` takes the size of the table for the address at which
the first record is to be, and `tadoc_decompress` expects it at an eighth of that size
behind the beginning. The two are to be the same only where the record would be inside of
the table, so writer and reader never agree (`not_layoutAgrees`). For this the functions
are run with a list of the ranges that the records are written to and read from
(`writeRanges`, `readRanges`); that they do nothing else is `writeCompressedData_eq` and
`tadocDecompress_eq`.

The rules: `discover` describes the grammar in records and `restore` expands the first of
them. What is expected of them is `Restores`, and no grammar that `tadoc_compress` has
built has it, since the first rule cannot be filed (`not_restores`).
-/

namespace Tadoc

open GrammarHeap (Stop)
open Blocks Triple

variable {mc : Machine} {p p' : Process} {a : ℕ} {ok : Stop → Prop}

/-! ## Records -/

/-- A reference in memory: the number of the rule, and its place. -/
def unitBytes (u : ℕ × ℕ) : List UInt8 := toBytes 4 u.2 ++ toBytes 4 u.1

/-- **A record in memory.** -/
structure Process.HasRecord (p : Process) (ruleData : ℕ) (r : Record) : Prop where
  numSubrules : p.HasInt ruleData r.units.length
  table : ∃ t, p.HasPtr (ruleData + 8) t ∧ p.HasBytes t (r.units.flatMap unitBytes)
  symbolArray : ∃ s, p.HasPtr (ruleData + 16) s ∧ p.HasBytes s r.symbols
  numSymbols : p.HasInt (ruleData + 24) r.symbols.length

theorem Record.length_bytes (r : Record) :
    r.bytes.length = 4 + 8 * r.units.length + r.symbols.length := by
  simp [Record.bytes, List.length_flatMap, Nat.mul_comm, Nat.add_assoc]

/-- `storeBytes`, which adds the addresses it stores to to a list. -/
def storeListed (a : ℕ) (bs : List UInt8) (stores : List ℕ) : M (List ℕ) := do
  storeBytes a bs
  return stores ++ List.range' a bs.length

/-- `writeUnit` with the addresses it stores to. -/
def writeUnitStores (dest ruleData : ℕ) (i : ℤ) (stores : List ℕ) : M (List ℕ) := do
  storeListed (element dest 8 i) (← loadBytes (element (← loadPtr (ruleData + 8)) 8 i) 8) stores

/-- `writeRuleData` with the addresses it stores to, in the order of the stores. -/
def writeRuleStores (dest ruleData : ℕ) : M (ℤ × List ℕ) := do
  let stores ← storeListed dest (toBytes 4 (unsigned64 (← loadInt ruleData))) []
  let stores ← forLoop (loadInt ruleData) (writeUnitStores dest ruleData) intRange 0 stores
  let symbolArrayStart := element dest 1 (unsigned64 (4 + 8 * (← loadInt ruleData)))
  let symbolArray ← loadPtr (ruleData + 16)
  let symbols ← loadBytes symbolArray (unsigned64 (← loadInt (ruleData + 24)))
  let stores ← storeListed symbolArrayStart symbols stores
  return (signed32 (4 + 8 * (← loadInt ruleData) + (← loadInt (ruleData + 24))), stores)

/-- The addresses are those of `writeRuleData`. -/
theorem writeRuleData_eq (dest ruleData : ℕ) :
    writeRuleData dest ruleData = Prod.fst <$> writeRuleStores dest ruleData := by
  have hturn : ∀ i stores, (fun _ => ()) <$> writeUnitStores dest ruleData i stores
      = writeUnit dest ruleData i := fun i stores => by
    simp only [writeUnitStores, storeListed, writeUnit, map_bind, map_pure, bind_pure_unit]
  simp only [writeRuleData, writeRuleStores, storeListed, storeInt, memcpy, map_bind, map_pure,
    bind_assoc, pure_bind]
  refine bind_congr fun n => bind_congr fun _ => ?_
  exact bind_forLoop (fun _ => ()) hturn _ _ _ _

/-- **A record comes back**: the write returns, and behind it the read of as many bytes
returns a record with the same number of references, the same references and the same
symbols; and the header, the references and the symbols have been stored one behind the
other, to these bytes and no byte twice. -/
def RoundTrips (mc : Machine) (p : Process) (dest ruleData : ℕ) (r : Record) : Prop :=
  ∃ n stores p', writeRuleStores dest ruleData p = .ok ((n, stores), p')
    ∧ (∃ a p'', readRuleData mc dest n p' = .ok (a, p'') ∧ p''.HasRecord a r)
    ∧ stores = List.range' dest n.toNat

/-- The first addresses of a record with references: the header, and the header again. -/
def overwritten (dest : ℕ) : List ℕ := List.range' dest 4 ++ List.range' (element dest 8 0) 8

theorem overwritten_append_ne (dest : ℕ) (rest : List ℕ) (n : ℕ) :
    overwritten dest ++ rest ≠ List.range' dest n := by
  intro heq
  have hfour : (overwritten dest ++ rest)[4]? = some (element dest 8 0) := by
    simp [overwritten, List.range']
  rw [heq] at hfour
  obtain ⟨hlt, hget⟩ := List.getElem?_eq_some_iff.mp hfour
  rw [List.getElem_range', element, unsigned64] at hget
  omega

/-- **The first reference is stored over the header**, whatever follows, where the number
of references is not itself stored over. -/
theorem ensures_overwritten {dest ruleData k : ℕ} (hk : p.HasInt ruleData k) (hpos : 0 < k)
    (hapart : ruleData + 4 ≤ dest ∨ dest + 4 ≤ ruleData) :
    Ensures (fun _ => True) (writeRuleStores dest ruleData) p fun x _ =>
      ∃ rest, x.2 = overwritten dest ++ rest := by
  rw [writeRuleStores, ensures_bind, ensures_loadInt hk, storeListed, ensures_bind, ensures_bind]
  refine (ensures_storeBytes _ _ _).mono fun _ p₁ h₁ => ?_
  have hk₁ : p₁.HasInt ruleData k := ⟨hk.1, hk.2.stored h₁ (by simpa using hapart)⟩
  -- a turn of the loop adds addresses behind those that are there
  have hturn : ∀ (i : ℤ) (stores : List ℕ) (q : Process),
      Ensures (fun _ => True) (writeUnitStores dest ruleData i stores) q fun stores' _ =>
        stores' = stores ++ List.range' (element dest 8 i) 8 := by
    intro i stores q
    rw [writeUnitStores, ensures_bind]
    refine ensures_of_keeps (keeps_loadPtr _) fun t => ?_
    refine (length_loadBytes _ 8 q).bind ?_
    rintro bs _ ⟨hlen, rfl⟩
    rw [storeListed, hlen]
    exact ensures_bind_of_forall fun _ _ => rfl
  rw [length_toBytes, List.nil_append]
  refine (ensures_forLoop
    (I := fun i stores q => i = 0 ∧ stores = List.range' dest 4 ∧ q.HasInt ruleData k
      ∨ ∃ rest, stores = overwritten dest ++ rest)
    (Q := fun stores _ => ∃ rest, stores = overwritten dest ++ rest)
    (fun i stores q hI => ?_) intRange (Or.inl ⟨rfl, rfl, hk₁⟩)).bind fun stores p₂ hs => ?_
  · rcases hI with ⟨rfl, rfl, hk⟩ | ⟨rest, rfl⟩
    · refine (ensures_loadInt hk).mpr ⟨fun _ => ?_, fun hno => absurd hpos (by omega)⟩
      refine (hturn 0 _ q).mono fun stores' _ hs => Or.inr ⟨[], ?_⟩
      rw [hs, List.append_nil, overwritten]
    · refine Ensures.trivial.mono fun b q' _ => ⟨fun _ => ?_, fun _ => ⟨rest, rfl⟩⟩
      refine (hturn i _ q').mono fun stores' _ hs => Or.inr ?_
      exact ⟨rest ++ List.range' (element dest 8 i) 8, by rw [hs, List.append_assoc]⟩
  · obtain ⟨rest, rfl⟩ := hs
    refine ensures_bind_of_forall fun _ _ => ensures_bind_of_forall fun _ _ =>
      ensures_bind_of_forall fun _ _ => ensures_bind_of_forall fun symbols _ => ?_
    rw [storeListed, ensures_bind]
    refine ensures_bind_of_forall fun _ _ => ?_
    exact ensures_bind_of_forall fun _ _ => ensures_bind_of_forall fun _ _ =>
      ⟨_, List.append_assoc ..⟩

/-- **What is read of a record whose header is zero**: no symbol is copied, whatever the
length is. -/
theorem ensures_readRuleData {dest : ℕ} (hdest : p.HasInt dest 0) (hmeets : mc.Meets p 32)
    (hsep : mc.Separate p 32) (n : ℤ) :
    Ensures ok (readRuleData mc dest n) p fun a p' => p'.HasInt a 0
      ∧ (∃ t, p'.HasPtr (a + 8) t) ∧ (∃ s, p'.HasPtr (a + 16) s ∧ load p'.memory s = none)
      ∧ p'.HasBytes (a + 24) (toBytes 4 (unsigned64 (n - 4))) := by
  have hroom := hmeets.room
  have hnothing : load (p.malloced mc 32).2.memory (mc.address (p.heap.used + 1)) = none :=
    load_malloc_eq_none hsep.1 hsep.2
  have hused : (p.malloced mc 32).2.heap.used = p.heap.used + 1 := rfl
  have hdest₁ : (p.malloced mc 32).2.HasInt dest 0 := ⟨hdest.1, hdest.2.malloced mc 32⟩
  rw [readRuleData, ensures_bind, ensures_malloc]
  generalize (p.malloced mc 32).1 = a, (p.malloced mc 32).2 = p₁ at *
  rw [ensures_bind, ensures_loadInt hdest₁]
  refine (ensures_storeBytes_of_room _ fun i hi => hroom i (by simp at hi; omega)).bind
    fun _ p₂ h₂ => ?_
  have hzero : p₂.HasInt a 0 := ⟨by decide, h₂.bytes⟩
  rw [ensures_bind, forLoop_of_not_lt (b := 0) (ensures_loadInt hzero) (by decide), ensures_bind,
    ensures_loadInt hzero]
  -- the number of symbols is what is left of the length
  have hroom₂ := hroom.stored h₂
  refine (ensures_storeBytes_of_room _ fun i hi => ?_).bind fun _ p₃ h₃ => ?_
  · rw [Nat.add_assoc]
    exact hroom₂ (24 + i) (by simp at hi; omega)
  have hzero₃ : p₃.HasInt a 0 := ⟨hzero.1, hzero.2.stored h₃ (by simp)⟩
  -- and as many bytes are asked for as there are references
  rw [ensures_bind, ensures_loadInt hzero₃, ensures_bind, ensures_malloc,
    show unsigned64 ((0 : ℕ) : ℤ) = 0 from rfl]
  have hnothing₃ : load p₃.memory (mc.address p₃.heap.used) = none := by
    rw [h₃.heap_eq, h₂.heap_eq, hused]
    exact h₃.nothing (h₂.nothing hnothing)
  have hempty : load (p₃.malloced mc 0).2.memory (p₃.malloced mc 0).1 = none :=
    load_malloc_zero hnothing₃ _
  have hs : (p₃.malloced mc 0).1 < 2 ^ 64 :=
    Nat.lt_of_le_of_lt (malloc_le _ _ _ _) (by decide)
  have hroom₄ := (hroom₂.stored h₃).malloced mc 0
  have hzero₄ := hzero₃.2.malloced mc 0
  have hnum₄ := h₃.bytes.malloced mc 0
  generalize (p₃.malloced mc 0).1 = s, (p₃.malloced mc 0).2 = p₄ at *
  refine (ensures_storeBytes_of_room _ fun i hi => ?_).bind fun _ p₅ h₅ => ?_
  · rw [Nat.add_assoc]
    exact hroom₄ (16 + i) (by simp at hi; omega)
  have hzero₅ : p₅.HasInt a 0 := ⟨by decide, hzero₄.stored h₅ (by simp)⟩
  have hptr : p₅.HasPtr (a + 16) s := ⟨hs, h₅.bytes⟩
  rw [ensures_bind, ensures_loadPtr hptr, ensures_bind, ensures_loadInt hzero₅]
  refine ⟨hzero₅, Process.Room.exists_hasPtr fun i hi => ?_, ⟨s, hptr, h₅.nothing hempty⟩,
    hnum₄.stored h₅ (by simp)⟩
  rw [Nat.add_assoc]
  exact (hroom₄.stored h₅) (8 + i) (by omega)

/-- **What is written of a record without references**: a header that is zero, and the
symbols behind it, wherever the destination is. -/
theorem ensures_writeRuleStores {dest ruleData m : ℕ} (hk : p.HasInt ruleData 0)
    (hm : p.HasInt (ruleData + 24) m) :
    Ensures (fun _ => True) (writeRuleStores dest ruleData) p fun x p' =>
      p'.HasInt dest 0 ∧ (m = 0 → x = (4, List.range' dest 4)) := by
  rw [writeRuleStores, ensures_bind, ensures_loadInt hk, storeListed, ensures_bind, ensures_bind]
  refine (ensures_storeBytes _ _ _).mono fun _ p₁ h₁ => ?_
  -- zeros are written, so what was zero is still zero
  have hzero : ∀ {c}, p.HasInt c 0 → p₁.HasInt c 0 := fun {c} hc => by
    have hc' : p.HasBytes c (List.replicate 4 0) := hc.2
    have h₁' : p.Stored dest (List.replicate 4 0) p₁ := h₁
    exact ⟨hc.1, hc'.zeros h₁'⟩
  have hk₁ := hzero hk
  have hdest₁ : p₁.HasInt dest 0 := ⟨hk.1, h₁.bytes⟩
  have hlt : dest < 2 ^ 47 := (bounds_of_load (hdest₁.2 0 (by simp))).2
  rw [length_toBytes, List.nil_append, ensures_pure, ensures_bind,
    forLoop_of_not_lt (b := 0) (ensures_loadInt hk₁) (by decide), ensures_bind,
    ensures_loadInt hk₁, ensures_bind]
  refine ensures_of_keeps (keeps_loadPtr _) fun src => ?_
  rw [ensures_bind]
  by_cases hm₀ : m = 0
  · have hm₁ := hzero (hm₀ ▸ hm)
    rw [ensures_loadInt hm₁, show unsigned64 ((0 : ℕ) : ℤ) = 0 from rfl, loadBytes, pure_bind,
      storeListed, storeBytes, pure_bind, pure_bind, ensures_bind, ensures_loadInt hk₁,
      ensures_bind, ensures_loadInt hm₁]
    exact ⟨hdest₁, fun _ => Prod.ext
      (show signed32 (4 + 8 * ((0 : ℕ) : ℤ) + ((0 : ℕ) : ℤ)) = 4 by decide) (List.append_nil _)⟩
  · refine ensures_of_keeps (keeps_loadInt _) fun len => ?_
    rw [ensures_bind]
    refine ensures_of_keeps (keeps_loadBytes _ _) fun bs => ?_
    rw [storeListed, ensures_bind, ensures_bind]
    refine (ensures_storeBytes _ _ _).mono fun _ p₂ h₂ => ?_
    have hdest₂ : p₂.HasInt dest 0 := ⟨hdest₁.1, hdest₁.2.stored h₂ (Or.inl ?_)⟩
    · rw [ensures_pure, ensures_bind]
      refine ensures_of_keeps (keeps_loadInt _) fun k => ?_
      rw [ensures_bind]
      exact ensures_of_keeps (keeps_loadInt _) fun k => ⟨hdest₂, fun h => absurd h hm₀⟩
    · have hstart : element dest 1 (unsigned64 (4 + 8 * ((0 : ℕ) : ℤ))) = dest + 4 :=
        element_one (n := 4) (by omega)
      rw [length_toBytes, hstart]

/-- **A record comes back if there is nothing in it**, and only then, when the destination
is not where the record keeps the number of its references. -/
theorem roundTrips_iff {dest ruleData : ℕ} {r : Record} {n : ℤ} (hrec : p.HasRecord ruleData r)
    (hapart : ruleData + 4 ≤ dest ∨ dest + 4 ≤ ruleData)
    (hwrite : writeRuleData dest ruleData p = .ok (n, p')) (hmeets : mc.Meets p' 32)
    (hsep : mc.Separate p' 32) :
    RoundTrips mc p dest ruleData r ↔ r.units = [] ∧ r.symbols = [] := by
  obtain ⟨stores, hstores⟩ : ∃ stores, writeRuleStores dest ruleData p = .ok ((n, stores), p') := by
    rw [writeRuleData_eq, map_eq_pure_bind] at hwrite
    obtain ⟨x, t, hx, hret⟩ := exists_of_bind_eq_ok hwrite
    cases hret
    exact ⟨x.2, hx⟩
  by_cases hunits : r.units = []
  · have hk : p.HasInt ruleData 0 := by
      have hk := hrec.numSubrules
      rwa [hunits] at hk
    obtain ⟨hdest, hempty⟩ := (ensures_writeRuleStores hk hrec.numSymbols).of_ok hstores
    constructor
    · rintro ⟨n', stores', q, hstores', ⟨a, p'', hread, hrec'⟩, -⟩
      obtain ⟨⟨rfl, rfl⟩, rfl⟩ : (n' = n ∧ stores' = stores) ∧ q = p' := by
        rw [hstores] at hstores'
        cases hstores'
        exact ⟨⟨rfl, rfl⟩, rfl⟩
      refine ⟨hunits, ?_⟩
      have hpost : Ensures (fun _ => True) (readRuleData mc dest n') q _ :=
        ensures_readRuleData hdest hmeets hsep n'
      obtain ⟨-, -, ⟨s, hs, hnone⟩, -⟩ := hpost.of_ok hread
      obtain ⟨s', hs', hbytes⟩ := hrec'.symbolArray
      obtain rfl := hs.unique hs'
      -- a symbol would have to be in the block of size zero
      refine List.length_eq_zero_iff.mp (Nat.eq_zero_of_not_pos fun hpos => ?_)
      exact hbytes.room 0 hpos hnone
    · rintro ⟨-, hsymbols⟩
      obtain ⟨units, symbols⟩ := r
      subst hunits hsymbols
      cases hempty rfl
      have hpost : Ensures (fun _ => False) (readRuleData mc dest 4) p' _ :=
        ensures_readRuleData hdest hmeets hsep 4
      obtain ⟨a, p'', hread, hsub, ⟨t, ht⟩, ⟨s, hs, -⟩, hnum⟩ :=
        hpost.exists_ok fun _ h => h.elim
      have hnothing : ∀ b, p''.HasBytes b [] := fun b i hi => absurd hi (Nat.not_lt_zero i)
      exact ⟨4, _, p', hstores,
        ⟨a, p'', hread, hsub, ⟨t, ht, hnothing t⟩, ⟨s, hs, hnothing s⟩, by decide, hnum⟩, rfl⟩
  · -- the stores are not one behind the other
    refine iff_of_false ?_ fun h => hunits h.1
    rintro ⟨n', stores', q, hstores', -, hrange⟩
    obtain ⟨rest, hrest⟩ := (ensures_overwritten hrec.numSubrules
      (List.length_pos_iff.mpr hunits) hapart).of_ok hstores'
    exact overwritten_append_ne dest rest _ (hrest.symm.trans hrange)

/-- A block with the fields of a record, for which the table and the symbols are at
given addresses. -/
def recordBlock (r : Record) (t s : ℕ) : List UInt8 :=
  toBytes 8 r.units.length ++ toBytes 8 t ++ toBytes 8 s ++ toBytes 8 r.symbols.length

/-- A process with a record without references and symbols, and room to write it to. -/
def emptyRecord : Process :=
  { Process.fresh with memory :=
    [⟨1048576, recordBlock ⟨[], []⟩ 0 0, by decide⟩, ⟨4194304, List.replicate 16 0, by decide⟩] }

theorem roundTrips_emptyRecord : RoundTrips .plain emptyRecord 4194304 1048576 ⟨[], []⟩ := by
  obtain ⟨n, p', hwrite, hroom⟩ : ∃ n p', writeRuleData 4194304 1048576 emptyRecord = .ok (n, p')
      ∧ decide (Machine.plain.Meets p' 32 ∧ Machine.plain.Separate p' 32) = true :=
    exists_of_check (by decide +kernel)
  obtain ⟨hmeets, hsep⟩ := of_decide_eq_true hroom
  have hrec : emptyRecord.HasRecord 1048576 ⟨[], []⟩ :=
    ⟨by decide, ⟨0, by decide, by decide⟩, ⟨0, by decide, by decide⟩, by decide⟩
  exact (roundTrips_iff hrec (Or.inl (by decide)) hwrite hmeets hsep).mpr ⟨rfl, rfl⟩

/-- A process with a record of one reference, to the rule with the number 5. -/
def oneReference : Process :=
  { Process.fresh with memory :=
    [⟨1048576, recordBlock ⟨[(0, 5)], [36]⟩ 2097152 3145728, by decide⟩,
      ⟨2097152, unitBytes (0, 5), by decide⟩, ⟨3145728, [36], by decide⟩,
      ⟨4194304, List.replicate 16 0, by decide⟩] }

/-- One reference is written over the header: the number of references is read as the
number of the rule, and the reader stores the first of them through a pointer that nothing
has set. -/
theorem exists_not_roundTrips :
    oneReference.HasRecord 1048576 ⟨[(0, 5)], [36]⟩
      ∧ (∃ n p', writeRuleData 4194304 1048576 oneReference = .ok (n, p')
        ∧ Machine.plain.Meets p' 32 ∧ Machine.plain.Separate p' 32 ∧ p'.HasInt 4194304 5
        ∧ (readRuleData .plain 4194304 n).run' p' = .error .fault)
      ∧ ¬ RoundTrips .plain oneReference 4194304 1048576 ⟨[(0, 5)], [36]⟩ := by
  obtain ⟨⟨n, stores⟩, p', hstores, hchecks⟩ : ∃ x p',
      writeRuleStores 4194304 1048576 oneReference = .ok (x, p')
        ∧ decide ((Machine.plain.Meets p' 32 ∧ Machine.plain.Separate p' 32
          ∧ p'.HasInt 4194304 5)
          ∧ (readRuleData .plain 4194304 x.1).run' p' = .error .fault) = true :=
    exists_of_check (by decide +kernel)
  obtain ⟨⟨hmeets, hsep, hfive⟩, hfault⟩ := of_decide_eq_true hchecks
  have hwrite : writeRuleData 4194304 1048576 oneReference = .ok (n, p') := by
    rw [writeRuleData_eq, map_eq_pure_bind, bind_eq_of_ok hstores]
    rfl
  have hrec : oneReference.HasRecord 1048576 ⟨[(0, 5)], [36]⟩ :=
    ⟨by decide, ⟨2097152, by decide, by decide⟩, ⟨3145728, by decide, by decide⟩, by decide⟩
  refine ⟨hrec, ⟨n, p', hwrite, hmeets, hsep, hfive, hfault⟩, ?_⟩
  rintro ⟨n', stores', q, hstores', ⟨a, p'', hread, -⟩, -⟩
  rw [hstores] at hstores'
  cases hstores'
  exact ne_ok_of_run'_eq_error hfault _ hread

/-! ## Where the records are -/

/-- Records in memory, with the array that leads to them. -/
structure Process.HasRecords (p : Process) (compressedData : ℕ) (rs : List Record) : Prop where
  numRules : p.HasInt compressedData rs.length
  ruleArray : ∃ array, p.HasPtr (compressedData + 16) array ∧ ∀ {i r}, rs[i]? = some r →
    ∃ ruleData, p.HasPtr (array + 8 * i) ruleData ∧ p.HasRecord ruleData r

/-- `writeRecord`, with the range of every record: where it is written, and the length
that is returned. -/
def writeRangesTurn (dest compressedData start : ℕ) (i : ℤ) (s : ℕ × List (ℕ × ℤ)) :
    M (ℕ × List (ℕ × ℤ)) := do
  let distance : ℤ := (s.1 : ℤ) - start
  storeInt (element (← loadPtr (compressedData + 8)) 4 i) distance
  storeInt (element dest 4 (i + 1)) distance
  let writeBytes ← writeRuleData s.1 (← recordAt compressedData (i + 1))
  return (element s.1 1 writeBytes, s.2 ++ [(s.1, writeBytes)])

/-- `writeCompressedData` with the ranges of the records. -/
def writeRanges (dest compressedData : ℕ) : M (ℤ × List (ℕ × ℤ)) := do
  storeInt dest (← loadInt compressedData)
  let start := unsigned64 (4 * (← loadInt compressedData))
  let firstLen ← writeRuleData start (← recordAt compressedData 0)
  let s ← forLoop (return (← loadInt compressedData) - 1)
    (writeRangesTurn dest compressedData start) intRange 0
    (element start 1 firstLen, [(start, firstLen)])
  return (signed32 ((s.1 : ℤ) - dest), s.2)

/-- `readRecord`, with the range that every record is read from. -/
def readRangesTurn (mc : Machine) (compressedData start : ℕ) (i : ℤ) (ranges : List (ℕ × ℤ)) :
    M (List (ℕ × ℤ)) := do
  let after ← loadInt (element (← loadPtr (compressedData + 8)) 4 i)
  let before ← loadInt (element (← loadPtr (compressedData + 8)) 4 (i - 1))
  let ruleData ← readRuleData mc (element start 1 before) (signed32 (after - before))
  storePtr (element (← loadPtr (compressedData + 16)) 8 i) ruleData
  return ranges ++ [(element start 1 before, signed32 (after - before))]

/-- `tadoc_decompress` as far as the records: the header and the table of offsets are
read, and there is an array for the records. -/
def readTable (mc : Machine) (source : ℕ) : M ℕ := do
  let compressedData ← malloc mc 24
  storeInt compressedData (← loadInt source)
  storePtr (compressedData + 8) (← malloc mc (unsigned64 (4 * (← get).heap.numRules - 1)))
  forLoop (return (← loadInt compressedData) - 1) (fun i _ => readOffset compressedData source i)
    intRange 0 ()
  storePtr (compressedData + 16) (← malloc mc (unsigned64 (8 * (← loadInt compressedData))))
  return compressedData

/-- The first record, and the range it is read from. -/
def readFirst (mc : Machine) (source compressedData : ℕ) : M (ℕ × ℤ) := do
  let tableSize := unsigned64 (4 * (← loadInt compressedData))
  let start := element source 1 ((tableSize / 8 : ℕ) : ℤ)
  let firstLen ← loadInt (← loadPtr (compressedData + 8))
  let first ← readRuleData mc start firstLen
  storePtr (← loadPtr (compressedData + 16)) first
  return (start, firstLen)

/-- `tadoc_decompress` as far as all records are read, with the ranges they are read
from. -/
def readRanges (mc : Machine) (source : ℕ) : M (ℕ × List (ℕ × ℤ)) := do
  let compressedData ← readTable mc source
  let first ← readFirst mc source compressedData
  let ranges ← forLoop (loadInt compressedData) (readRangesTurn mc compressedData first.1) intRange
    1 [first]
  return (compressedData, ranges)

/-- The ranges are those of `writeCompressedData`. -/
theorem writeCompressedData_eq (dest compressedData : ℕ) :
    writeCompressedData dest compressedData = Prod.fst <$> writeRanges dest compressedData := by
  have hturn : ∀ start i s, Prod.fst <$> writeRangesTurn dest compressedData start i s
      = writeRecord dest compressedData start i s.1 := fun start i s => by
    simp only [writeRangesTurn, writeRecord, map_bind, map_pure]
  simp only [writeCompressedData, writeRanges, map_bind, map_pure]
  refine bind_congr fun n => bind_congr fun _ => bind_congr fun count => bind_congr fun _ =>
    bind_congr fun firstLen => ?_
  exact bind_forLoop Prod.fst (hturn _) _ _ (_, [(_, firstLen)]) _

/-- The ranges are those of `tadoc_decompress`. -/
theorem tadocDecompress_eq (source : ℕ) (slen : ℤ) (dest : ℕ) (rawsize checkComplete : ℤ) :
    tadocDecompress mc source slen dest rawsize checkComplete = (do
      let r ← readRanges mc source
      displayCompressedData r.1
      let writeBytes ← restore r.1 mc.stack dest (← recordAt r.1 0)
      destroyCompressedData r.1
      return writeBytes) := by
  have hturn : ∀ compressedData start i s,
      (fun _ => ()) <$> readRangesTurn mc compressedData start i s
        = readRecord mc compressedData start i := fun compressedData start i s => by
    simp only [readRangesTurn, readRecord, map_bind, map_pure, bind_pure_unit]
  have hparts : tadocDecompress mc source slen dest rawsize checkComplete = (do
      let compressedData ← readTable mc source
      let first ← readFirst mc source compressedData
      forLoop (loadInt compressedData) (fun i _ => readRecord mc compressedData first.1 i)
        intRange 1 ()
      displayCompressedData compressedData
      let writeBytes ← restore compressedData mc.stack dest (← recordAt compressedData 0)
      destroyCompressedData compressedData
      return writeBytes) := by
    simp only [tadocDecompress, readTable, readFirst, bind_assoc, pure_bind]
  simp only [hparts, readRanges, bind_assoc, pure_bind]
  refine bind_congr fun compressedData => bind_congr fun first => ?_
  exact bind_forLoop (fun _ => ()) (hturn compressedData first.1) _ _ [first] _

/-- Ranges that follow each other, from one address to another. -/
def Follows : ℕ → List (ℕ × ℤ) → ℕ → Prop
  | a, [], b => a = b
  | a, x :: xs, b => x.1 = a ∧ Follows (element a 1 x.2) xs b

theorem Follows.append {a b : ℕ} {xs : List (ℕ × ℤ)} (h : Follows a xs b) (n : ℤ) :
    Follows a (xs ++ [(b, n)]) (element b 1 n) := by
  induction xs generalizing a with
  | nil =>
    obtain rfl : a = b := h
    exact ⟨rfl, rfl⟩
  | cons x xs ih => exact ⟨h.1, ih h.2⟩

/-- **The records are written one behind the other from the address on that is the size of
a table**, wherever the destination is. -/
theorem ensures_writeRanges {dest compressedData n : ℕ} (hn : p.HasInt compressedData n)
    (hapart : compressedData + 4 ≤ dest ∨ dest + 4 ≤ compressedData) :
    Ensures (fun _ => True) (writeRanges dest compressedData) p fun x _ =>
      (lowest ≤ dest ∧ dest < addressEnd)
        ∧ ∃ len rest b, x.2 = (4 * n, len) :: rest ∧ Follows (4 * n) x.2 b
          ∧ x.1 = signed32 ((b : ℤ) - dest) := by
  have hstart : unsigned64 (4 * (n : ℤ)) = 4 * n := by
    have hn := hn.1
    have := unsigned64_of_lt (n := 4 * n) (by omega) (by omega)
    omega
  rw [writeRanges, ensures_bind, ensures_loadInt hn]
  refine (ensures_storeBytes _ _ _).bind fun _ p₁ h₁ => ?_
  have hn₁ : p₁.HasInt compressedData n := ⟨hn.1, hn.2.stored h₁ (by simpa using hapart)⟩
  have hdest := bounds_of_load (h₁.bytes 0 (by simp))
  rw [Nat.add_zero] at hdest
  rw [ensures_bind, ensures_loadInt hn₁, hstart]
  refine ensures_bind_of_forall fun ruleData p₂ => ensures_bind_of_forall fun firstLen p₃ => ?_
  have hfirst : Follows (4 * n) [(4 * n, firstLen)] (element (4 * n) 1 firstLen) := ⟨rfl, rfl⟩
  refine (ensures_forLoop_of_turn
    (I := fun s => Follows (4 * n) s.2 s.1 ∧ ∃ rest, s.2 = (4 * n, firstLen) :: rest)
    (fun i s q hs => ?_) ⟨hfirst, [], rfl⟩).bind fun s p₄ hs => ?_
  · obtain ⟨hfollows, rest, hrest⟩ := hs
    refine ensures_bind_of_forall fun _ _ => ensures_bind_of_forall fun _ _ =>
      ensures_bind_of_forall fun _ _ => ensures_bind_of_forall fun _ _ =>
      ensures_bind_of_forall fun writeBytes _ => ⟨hfollows.append writeBytes, ?_⟩
    exact ⟨rest ++ [(s.1, writeBytes)], by rw [hrest, List.cons_append]⟩
  · obtain ⟨hfollows, rest, hrest⟩ := hs
    exact ⟨hdest, firstLen, rest, s.1, hrest, hfollows, rfl⟩

/-- **The first record is read behind the beginning of the source.** -/
theorem ensures_readFirst (source compressedData : ℕ) :
    Ensures (fun _ => True) (readFirst mc source compressedData) p fun x _ =>
      ∃ q < 2 ^ 61, x.1 = element source 1 (q : ℕ) := by
  refine ensures_bind_of_forall fun count _ => ensures_bind_of_forall fun _ _ =>
    ensures_bind_of_forall fun firstLen _ => ensures_bind_of_forall fun _ _ =>
    ensures_bind_of_forall fun _ _ => ensures_bind_of_forall fun _ _ =>
    ⟨unsigned64 (4 * count) / 8, ?_, rfl⟩
  unfold unsigned64
  omega

/-- The range of the first record is the first one. -/
theorem ensures_readRanges (source : ℕ) :
    Ensures (fun _ => True) (readRanges mc source) p fun x _ =>
      ∃ q len rest, q < 2 ^ 61 ∧ x.2 = (element source 1 (q : ℕ), len) :: rest := by
  refine ensures_bind_of_forall fun compressedData p₁ => ?_
  refine (ensures_readFirst source compressedData).bind fun first p₂ hfirst => ?_
  refine (ensures_forLoop_of_turn (I := fun s => ∃ rest, s = first :: rest)
    (fun i s q hs => ?_) ⟨[], rfl⟩).bind fun s p₃ hs => ?_
  · obtain ⟨rest, rfl⟩ := hs
    exact ensures_bind_of_forall fun _ _ => ensures_bind_of_forall fun _ _ =>
      ensures_bind_of_forall fun _ _ => ensures_bind_of_forall fun _ _ =>
      ensures_bind_of_forall fun _ _ => ensures_bind_of_forall fun _ _ =>
      ensures_bind_of_forall fun _ _ => ⟨_, rfl⟩
  · obtain ⟨rest, rfl⟩ := hs
    obtain ⟨q, hq, hstart⟩ := hfirst
    exact ⟨q, first.2, rest, hq, by rw [← hstart]⟩

/-- Ranges without a byte in common. -/
def Apart (x y : ℕ × ℤ) : Prop := x.1 + x.2 ≤ y.1 ∨ y.1 + y.2 ≤ x.1

/-- **Writer and reader agree on the layout**: from what `writeCompressedData` has
written, `tadoc_decompress` reads every record where it is, with its length; the total
length is that of all parts, and header, table and records are inside of the destination
and have no byte in common. -/
def LayoutAgrees (mc : Machine) (p : Process) (dest compressedData : ℕ) (rs : List Record) : Prop :=
  ∃ total ranges p₁ compressedData' p₂,
    writeRanges dest compressedData p = .ok ((total, ranges), p₁)
      ∧ readRanges mc dest p₁ = .ok ((compressedData', ranges), p₂)
      ∧ ranges.map Prod.snd = rs.map (fun r => (r.bytes.length : ℤ))
      ∧ total = 4 * rs.length + (ranges.map Prod.snd).sum
      ∧ (∀ x ∈ ranges, dest ≤ x.1 ∧ x.1 + x.2 ≤ dest + total)
      ∧ ((dest, 4) :: (dest + 4, 4 * ((rs.length : ℤ) - 1)) :: ranges).Pairwise Apart

/-- **Writer and reader never agree.** -/
theorem not_layoutAgrees {dest compressedData : ℕ} {rs : List Record}
    (hrecs : p.HasRecords compressedData rs) (hne : rs ≠ [])
    (hapart : compressedData + 4 ≤ dest ∨ dest + 4 ≤ compressedData) :
    ¬ LayoutAgrees mc p dest compressedData rs := by
  rintro ⟨total, ranges, p₁, compressedData', p₂, hwrite, hread, hlens, -, -, hpairwise⟩
  obtain ⟨⟨hlow, hhigh⟩, len, rest, -, rfl, -⟩ :=
    (ensures_writeRanges hrecs.numRules hapart).of_ok hwrite
  obtain ⟨q, len', rest', hq, heq⟩ := (ensures_readRanges dest).of_ok hread
  obtain ⟨r, rs, rfl⟩ := List.exists_cons_of_ne_nil hne
  -- the first record begins where it is read, which is not before the destination
  have hfirst : 4 * (r :: rs).length = dest + q := by
    rw [← element_one (Nat.lt_of_lt_of_le (Nat.add_lt_add hhigh hq) (by decide))]
    exact congrArg Prod.fst (List.cons.inj heq).1
  have hlen : len = r.bytes.length := (List.cons.inj hlens).1
  have hpos := r.length_bytes
  -- so it overlaps the header, or the table
  obtain ⟨hheader, htable⟩ := List.pairwise_cons.mp hpairwise
  have hheader := hheader _ (List.mem_cons_of_mem _ List.mem_cons_self)
  have htable := (List.pairwise_cons.mp htable).1 _ List.mem_cons_self
  have hdest : 0 < dest := Nat.lt_of_lt_of_le (by decide) hlow
  simp only [Apart] at hheader htable
  omega

/-- A process with one record, of one character. -/
def oneRecord : Process :=
  { Process.fresh with memory :=
    [⟨1048576, recordBlock ⟨[], [97]⟩ 0 3145728, by decide⟩, ⟨3145728, [97], by decide⟩,
      ⟨4194304, List.replicate 16 0, by decide⟩, ⟨5242880, toBytes 8 1048576, by decide⟩,
      ⟨6291456, toBytes 8 1 ++ toBytes 8 0 ++ toBytes 8 5242880, by decide⟩] }

theorem hasRecords_oneRecord : oneRecord.HasRecords 6291456 [⟨[], [97]⟩] := by
  have hrec : oneRecord.HasRecord 1048576 ⟨[], [97]⟩ :=
    ⟨by decide, ⟨0, by decide, by decide⟩, ⟨3145728, by decide, by decide⟩, by decide⟩
  refine ⟨by decide, 5242880, by decide, fun {i r} hr => ?_⟩
  cases i with
  | zero =>
    obtain rfl : _ = r := Option.some.inj hr
    exact ⟨1048576, by decide, hrec⟩
  | succ i => cases hr

theorem not_layoutAgrees_oneRecord :
    oneRecord.HasRecords 6291456 [⟨[], [97]⟩]
      ∧ ¬ LayoutAgrees .plain oneRecord 4194304 6291456 [⟨[], [97]⟩] :=
  ⟨hasRecords_oneRecord,
    not_layoutAgrees hasRecords_oneRecord (List.cons_ne_nil _ _) (Or.inr (by decide))⟩

/-- The one record is to be written to the address 4. -/
theorem exists_not_layoutAgrees :
    ∃ p dest compressedData, p.HasRecords compressedData [⟨[], [97]⟩]
      ∧ (writeCompressedData dest compressedData).run' p = .error .fault
      ∧ ¬ LayoutAgrees .plain p dest compressedData [⟨[], [97]⟩] := by
  refine ⟨oneRecord, 4194304, 6291456, hasRecords_oneRecord, by decide +kernel, ?_⟩
  rintro ⟨total, ranges, p₁, compressedData', p₂, hwrite, -⟩
  have hrun : (writeRanges 4194304 6291456).run' oneRecord = .error .fault := by decide +kernel
  exact ne_ok_of_run'_eq_error hrun _ hwrite

/-! ## Discovering rules -/

/-- The record of a body, when the rules have the numbers given: the characters, with a
placeholder for a rule, and the place and the number of every rule in order. -/
def recordOf (index : ℕ → ℕ) (keys : List Grammar.Key) : Record where
  units := keys.zipIdx.filterMap fun x =>
    match x.1 with
    | .rule r => some (x.2, index r)
    | .term _ => none
  symbols := keys.map fun
    | .rule _ => 36
    | .term c => c

/-- **The rules are discovered**: those that are in memory have different numbers, with
zero for the start rule, and the records are those of their bodies, at their numbers. -/
structure Discovered (p p' : Process) (S compressedData : ℕ) (index : ℕ → ℕ) : Prop where
  start : index S = 0
  rule : ∀ {r R}, p.heap.rules r = some R →
    p'.heap.rules r = some { R with index := index r } ∧ (index r : ℤ) < p.heap.numRules
  distinct : ∀ {r r' R R'}, p.heap.rules r = some R → p.heap.rules r' = some R' →
    index r = index r' → r = r'
  records : ∃ rs, p'.HasRecords compressedData rs ∧ (rs.length : ℤ) = p.heap.numRules
    ∧ ∀ {r keys}, GrammarHeap.Body p.heap r keys → rs[index r]? = some (recordOf index keys)

/-- **`discover` and `restore` give the text of the start rule back.** -/
def Restores (mc : Machine) (p : Process) (S compressedData out : ℕ) : Prop :=
  ∃ index p₁, discover mc compressedData p.heap.used S p = .ok ((), p₁)
    ∧ Discovered p p₁ S compressedData index
    ∧ ∃ array first depth text p₂, p₁.HasPtr (compressedData + 16) array ∧ p₁.HasPtr array first
      ∧ GrammarHeap.Text p.heap S text
      ∧ restore compressedData depth out first p₁ = .ok ((text.length : ℤ), p₂)
      ∧ p₂.HasBytes out text

/-- `tadoc_compress` as far as the call of `discover`, with an object for the source. -/
def buildCall (mc : Machine) (source : List UInt8) : M (ℕ × ℕ) := do
  beforeDiscover mc (← object mc source) source.length

/-- **No grammar is restored**: whatever `tadoc_compress` has built, and whatever is found
in memory, the start rule is filed through the null pointer. -/
theorem not_restores {p₀ : Process} (hp : Reached mc p₀) {source : List UInt8}
    {S compressedData : ℕ} (hrun : buildCall mc source p₀ = .ok ((S, compressedData), p))
    (out : ℕ) : ¬ Restores mc p S compressedData out := by
  obtain rfl := (reached_iff mc).mp hp
  rintro ⟨index, p₁, hdiscover, -⟩
  have hkeeps : Keeps Process.detection (buildCall mc source) :=
    (keeps_detection (keeps_object mc source)).bind fun s => keeps_beforeDiscover mc s _
  have hdetection : p.detection = (0, 0) := (hkeeps .fresh).of_ok hrun
  exact (never_discover mc hdetection _ _ _).ne_ok _ hdiscover

theorem not_restores_one :
    ∃ S compressedData p, buildCall .plain [97] .fresh = .ok ((S, compressedData), p)
      ∧ ¬ Restores .plain p S compressedData 0 := by
  obtain ⟨⟨S, compressedData⟩, p, hrun⟩ : ∃ x p, buildCall .plain [97] .fresh = .ok (x, p) :=
    exists_of_isOk (by decide +kernel)
  exact ⟨S, compressedData, p, hrun, not_restores .fresh hrun 0⟩

/-- The grammar of one character: the start rule is not filed. -/
theorem exists_not_restores :
    ∃ S compressedData p, buildCall .plain [97] .fresh = .ok ((S, compressedData), p)
      ∧ (discover .plain compressedData p.heap.used S).run' p = .error .fault
      ∧ ∀ out, ¬ Restores .plain p S compressedData out := by
  obtain ⟨⟨S, compressedData⟩, p, hrun, hfault⟩ : ∃ x p, buildCall .plain [97] .fresh = .ok (x, p)
      ∧ decide ((discover .plain x.2 p.heap.used x.1).run' p = .error .fault) = true :=
    exists_of_check (by decide +kernel)
  have hfault := of_decide_eq_true hfault
  refine ⟨S, compressedData, p, hrun, hfault, ?_⟩
  rintro out ⟨index, p₁, hdiscover, -⟩
  exact ne_ok_of_run'_eq_error hfault _ hdiscover

end Tadoc
