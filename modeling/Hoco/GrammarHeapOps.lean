import Hoco.GrammarHeap
import Hoco.OpenAddressing
import Hoco.PairIndex

/-!
# What the operations on the heap do

The operations of `Hoco.GrammarHeap` are specified here one by one, in terms of
addresses and keys. `Store.Sane` is what they need to know of the memory to run
without a fault; it holds at every point between two writes, also while a ring is
being taken apart. `Store.Table` says that the digram table holds a map from
digrams to symbols, and the operations that touch the table are specified by the
edits they make to that map.

Two things can stop an operation on a sane memory: a lookup that does not end,
and a request for a block that is not met. `outside` admits these and no others.
-/

namespace GrammarHeap

open Triple PairIndex OpenAddressing

/-- The stops that are not the doing of the program. -/
def outside (e : Stop) : Prop := e = .endless ∨ e = .memory

/-! ## Loads and stores -/

section Memory

variable {ok : Stop → Prop} {st : Store} {a r : ℕ} {s : Symbol} {R : Rule}

theorem loadSymbol_eq (h : st.symbols a = some s) : loadSymbol a st = .ok (s, st) := by
  have hget : (get : M Store) st = .ok (st, st) := rfl
  rw [loadSymbol, bind_eq_of_ok hget, h]
  rfl

theorem ensures_loadSymbol {Q : Symbol → Store → Prop} (h : st.symbols a = some s) :
    Ensures ok (loadSymbol a) st Q ↔ Q s st := by
  simp [loadSymbol, h]

theorem ensures_loadRule {Q : Rule → Store → Prop} (h : st.rules r = some R) :
    Ensures ok (loadRule r) st Q ↔ Q R st := by
  simp [loadRule, h]

theorem ensures_modifySymbol {Q : Unit → Store → Prop} {f : Symbol → Symbol}
    (h : st.symbols a = some s) :
    Ensures ok (modifySymbol a f) st Q
      ↔ Q () { st with symbols := Function.update st.symbols a (some (f s)) } := by
  simp [modifySymbol, storeSymbol, ensures_loadSymbol h]

theorem ensures_modifyRule {Q : Unit → Store → Prop} {f : Rule → Rule}
    (h : st.rules r = some R) :
    Ensures ok (modifyRule r f) st Q
      ↔ Q () { st with rules := Function.update st.rules r (some (f R)) } := by
  simp [modifyRule, storeRule, ensures_loadRule h]

@[simp] theorem ensures_loadSlot {Q : ℕ → Store → Prop} (i : ℕ) :
    Ensures ok (loadSlot i) st Q ↔ Q (st.hashTable i) st := by
  simp [loadSlot]

@[simp] theorem ensures_storeSlot {Q : Unit → Store → Prop} (i v : ℕ) :
    Ensures ok (storeSlot i v) st Q
      ↔ Q () { st with hashTable := Function.update st.hashTable i v } := by
  simp [storeSlot]

end Memory

/-! ## Sane memory -/

/-- The symbol is the guard of a rule. -/
def Store.IsGuard (st : Store) (a : ℕ) : Prop := ∃ r R, st.rules r = some R ∧ R.guard = a

open scoped Classical in
/-- A symbol, unless it is a guard. -/
noncomputable def Store.item (st : Store) (a : ℕ) : Option ℕ :=
  if st.IsGuard a then none else some a

/-- The key of a symbol. -/
def Store.keyOf (st : Store) (a : ℕ) : ℕ := ((st.symbols a).map Symbol.key).getD 0

/-- **What the operations rely on**: a rule has a guard that refers to it and that
is behind the last symbol, and the key of a symbol is the code of a character or
the address of a rule. -/
structure Store.Sane (st : Store) : Prop where
  rule : ∀ {r R}, st.rules r = some R → userAddress r = true
    ∧ ∃ g l, st.symbols R.guard = some g ∧ g.key = r ∧ st.symbols g.p = some l ∧ l.n = R.guard
  symbol : ∀ {a s}, st.symbols a = some s → userAddress a = true ∧ s.value = s.key / 2
  key : ∀ {a s}, st.symbols a = some s →
    s.key % 2 = 1 ∧ (s.key < 512 ∨ 2 ^ 64 - 256 ≤ s.key) ∨ ∃ R, st.rules s.key = some R

variable {st : Store} {a b : ℕ} {s t : Symbol}

theorem Store.item_of_isGuard (h : st.IsGuard a) : st.item a = none := if_pos h

theorem Store.item_of_not_isGuard (h : ¬ st.IsGuard a) : st.item a = some a := if_neg h

theorem Store.eq_of_item (h : st.item a = some b) : a = b := by
  by_cases hg : st.IsGuard a
  · rw [item_of_isGuard hg] at h
    cases h
  · rw [item_of_not_isGuard hg] at h
    exact Option.some.inj h

theorem Store.keyOf_eq (h : st.symbols a = some s) : st.keyOf a = s.key := by
  rw [keyOf, h]
  rfl

theorem userAddress_iff : userAddress a = true ↔ a % 8 = 0 ∧ 4096 ≤ a ∧ a < 2 ^ 47 := by
  simp [userAddress]

namespace Store.Sane

variable (h : st.Sane)

include h

theorem address_gt (hs : st.symbols a = some s) : 1 < a := by
  have := (userAddress_iff.mp (h.symbol hs).1).2.1
  omega

theorem nonTerminal_of_rule {R : Rule} (hR : st.rules s.key = some R) : nonTerminal s = true := by
  have := userAddress_iff.mp (h.rule hR).1
  simp [nonTerminal]
  omega

theorem nonTerminal_iff (hs : st.symbols a = some s) :
    nonTerminal s = true ↔ ∃ R, st.rules s.key = some R := by
  constructor
  · intro hn
    rcases h.key hs with ⟨hodd, -⟩ | hR
    · simp [nonTerminal] at hn
      omega
    · exact hR
  · rintro ⟨R, hR⟩
    exact h.nonTerminal_of_rule hR

/-- The two programs compare the same values: those that are equal come from equal
keys. -/
theorem value_eq_iff (cfg : Config) (hs : st.symbols a = some s) (ht : st.symbols b = some t) :
    cfg.value s = cfg.value t ↔ s.key = t.key := by
  have hval : ∀ {a s}, st.symbols a = some s → cfg.value s = s.key / 2 := fun {a s} hs => by
    unfold Config.value
    cases cfg.program with
    | tadoc => exact (h.symbol hs).2
    | sequitur => rfl
  rw [hval hs, hval ht]
  have hrange : ∀ {a s}, st.symbols a = some s →
      s.key % 2 = 1 ∧ (s.key < 512 ∨ 2 ^ 64 - 256 ≤ s.key)
        ∨ s.key % 2 = 0 ∧ 4096 ≤ s.key ∧ s.key < 2 ^ 47 := fun {a s} hs => by
    rcases h.key hs with hodd | ⟨R, hR⟩
    · exact Or.inl hodd
    · have := userAddress_iff.mp (h.rule hR).1
      omega
  have hs' := hrange hs
  have ht' := hrange ht
  constructor <;> intro heq <;> omega

open scoped Classical in
/-- **`isGuard` tells the guards.** -/
theorem ensures_isGuard {ok : Stop → Prop} {Q : Bool → Store → Prop}
    (hs : st.symbols a = some s) :
    Ensures ok (isGuard a) st Q ↔ Q (decide (st.IsGuard a)) st := by
  rw [isGuard, ensures_bind, ensures_loadSymbol hs]
  by_cases hn : nonTerminal s = true
  · obtain ⟨R, hR⟩ := (h.nonTerminal_iff hs).mp hn
    obtain ⟨-, g, l, hg, -, hl, hln⟩ := h.rule hR
    rw [if_pos hn]
    simp only [last, ensures_bind, ensures_loadRule hR, ensures_loadSymbol hg, ensures_pure,
      ensures_loadSymbol hl, hln]
    have hiff : R.guard = a ↔ st.IsGuard a := by
      constructor
      · exact fun heq => ⟨s.key, R, hR, heq⟩
      · rintro ⟨r, R', hR', rfl⟩
        obtain ⟨-, g', -, hg', hkey, -⟩ := h.rule hR'
        rw [hs, Option.some.injEq] at hg'
        rw [hg', hkey, hR', Option.some.injEq] at hR
        rw [hR]
    rw [decide_eq_decide.mpr hiff]
  · have hno : ¬ st.IsGuard a := by
      rintro ⟨r, R, hR, rfl⟩
      obtain ⟨-, g, -, hg, hkey, -⟩ := h.rule hR
      rw [hs, Option.some.injEq] at hg
      rw [← hkey, ← hg] at hR
      exact hn (h.nonTerminal_of_rule hR)
    rw [if_neg hn, decide_eq_false hno]
    rfl

open scoped Classical in
theorem ensures_atGuard {ok : Stop → Prop} {Q : Bool → Store → Prop}
    (hs : st.symbols a = some s) (ht : st.symbols s.n = some t) :
    Ensures ok (atGuard a) st Q ↔ Q (decide (st.IsGuard a ∨ st.IsGuard s.n)) st := by
  rw [atGuard, ensures_bind, h.ensures_isGuard hs]
  by_cases hg : st.IsGuard a
  · simp [hg]
  · simp only [hg, decide_false, Bool.false_eq_true, ↓reduceIte, false_or]
    rw [ensures_bind, ensures_loadSymbol hs, h.ensures_isGuard ht]

end Store.Sane

/-! ## The digram table -/

/-- The probe sequences of `findDigram`. -/
def probing : Probing (ℕ × ℕ) where
  size := prime
  pos := by decide
  start d := hashStart d.1 d.2
  jump d := hashJump d.1

theorem hashStart_eq_slot (one two : ℕ) : hashStart one two = probing.slot (one, two) 0 := by
  show _ = (hashStart one two + 0 * _) % prime
  rw [Nat.zero_mul, Nat.add_zero, hashStart, Nat.mod_mod]

/-- The symbol is the first of a digram with these keys. -/
def Store.starts (st : Store) (one two m : ℕ) : Bool :=
  match st.symbols m with
  | none => false
  | some s =>
    match st.symbols s.n with
    | none => false
    | some t => s.key = one ∧ t.key = two

theorem Store.starts_eq (hs : st.symbols a = some s) (ht : st.symbols s.n = some t)
    (one two : ℕ) : st.starts one two a = decide (s.key = one ∧ t.key = two) := by
  unfold starts
  rw [hs]
  show (match st.symbols s.n with | none => _ | some t => _) = _
  rw [ht]

/-- The entries of the table are symbols in memory, and so are those behind them. -/
def Store.LiveSlots (st : Store) : Prop :=
  ∀ i < prime, 1 < st.hashTable i →
    ∃ s t, st.symbols (st.hashTable i) = some s ∧ st.symbols s.n = some t

/-- **The loop of `findDigram` is a search of the table.** -/
theorem Store.LiveSlots.probe_eq (h : st.LiveSlots) (one two jump fuel : ℕ) {i : ℕ}
    (hi : i < prime) (insert : Option ℕ) :
    probe one two jump fuel i insert st
      = match search prime st.hashTable (st.starts one two) jump fuel i insert with
        | some j => .ok (j, st)
        | none => .error .endless := by
  induction fuel generalizing i insert with
  | zero => rfl
  | succ fuel ih =>
    have hnext : (i + jump) % prime < prime := Nat.mod_lt _ (by decide)
    rw [probe, search, bind_eq_of_ok (show loadSlot i st = .ok (st.hashTable i, st) from rfl)]
    by_cases hzero : st.hashTable i = 0
    · rw [if_pos hzero, if_pos hzero]
      rfl
    by_cases hone : st.hashTable i = 1
    · rw [if_neg hzero, if_pos hone, if_neg hzero, if_pos hone]
      exact ih hnext _
    obtain ⟨s, t, hs, ht⟩ := h i hi (by omega)
    rw [if_neg hzero, if_neg hone, if_neg hzero, if_neg hone, bind_eq_of_ok (loadSymbol_eq hs),
      starts_eq hs ht]
    by_cases hkey : s.key = one
    · rw [if_pos hkey, bind_eq_of_ok (loadSymbol_eq ht)]
      by_cases hkey' : t.key = two
      · rw [if_pos hkey', if_pos (decide_eq_true ⟨hkey, hkey'⟩)]
        rfl
      · rw [if_neg hkey', if_neg (by simp [hkey'])]
        exact ih hnext _
    · rw [if_neg hkey, if_neg (by simp [hkey])]
      exact ih hnext _

/-- The slot that a lookup comes to, if it ends in as many steps. -/
def Store.lookup (st : Store) (one two fuel : ℕ) : Option ℕ :=
  search probing.size st.hashTable (st.starts one two) (probing.jump (one, two)) fuel
    (probing.slot (one, two) 0) none

/-- The loop of `findDigram` from its first slot on. -/
theorem Store.LiveSlots.probe_eq_lookup (h : st.LiveSlots) (one two fuel : ℕ) :
    probe one two (hashJump one) fuel (hashStart one two) none st
      = match st.lookup one two fuel with
        | some j => .ok (j, st)
        | none => .error .endless := by
  rw [hashStart_eq_slot]
  exact h.probe_eq one two _ fuel (probing.slot_lt _ _) none

/-- **The digram table holds the map `T`**, whose entries are the first symbols of
their digrams; a guard is in none. -/
structure Store.Table (st : Store) (T : Index ℕ ℕ) : Prop where
  holds : Holds probing st.hashTable T
  entry : ∀ {d a}, T d = some a → ∃ s t, st.symbols a = some s ∧ st.symbols s.n = some t
    ∧ d = (s.key, t.key) ∧ ¬ st.IsGuard a ∧ ¬ st.IsGuard s.n

/-- The same without regard to guards, which is all that a lookup needs. -/
structure Store.Entries (st : Store) (T : Index ℕ ℕ) : Prop where
  holds : Holds probing st.hashTable T
  pair : ∀ {d a}, T d = some a → ∃ s t, st.symbols a = some s ∧ st.symbols s.n = some t
    ∧ d = (s.key, t.key)

theorem Store.Table.entries {T : Index ℕ ℕ} (h : st.Table T) : st.Entries T where
  holds := h.holds
  pair hd := by
    obtain ⟨s, t, hs, ht, hkey, -⟩ := h.entry hd
    exact ⟨s, t, hs, ht, hkey⟩

namespace Store.Entries

variable {T : Index ℕ ℕ} (h : st.Entries T)

include h

theorem key_eq {d : ℕ × ℕ} (hs : st.symbols a = some s) (ht : st.symbols s.n = some t)
    (hT : T d = some a) : d = (s.key, t.key) := by
  obtain ⟨s', t', hs', ht', hd⟩ := h.pair hT
  rw [hs, Option.some.injEq] at hs'
  rw [← hs', ht, Option.some.injEq] at ht'
  rw [hd, ← hs', ← ht']

theorem liveSlots : st.LiveSlots := fun i hi hgt => by
  obtain ⟨d, hd⟩ := h.holds.only (i := i) hi hgt
  obtain ⟨s, t, hs, ht, -⟩ := h.pair hd
  exact ⟨s, t, hs, ht⟩

/-- Of the entries, the lookup of a digram stops at its own. -/
theorem starts_iff {d : ℕ × ℕ} (hT : T d = some a) (one two : ℕ) :
    st.starts one two a = true ↔ T (one, two) = some a := by
  obtain ⟨s, t, hs, ht, hd⟩ := h.pair hT
  rw [starts_eq hs ht, decide_eq_true_iff]
  constructor
  · rintro ⟨rfl, rfl⟩
    rwa [← hd]
  · intro he
    have heq := h.key_eq hs ht he
    rw [Prod.mk.injEq] at heq
    exact ⟨heq.1.symm, heq.2.symm⟩

/-- **`findDigram` finds a slot for the digram of its symbol**, if it ends. -/
theorem ensures_findDigram (hs : st.symbols a = some s) (ht : st.symbols s.n = some t) :
    Ensures outside (findDigram a) st fun i st' => st' = st
      ∧ SlotFor probing st.hashTable T (s.key, t.key) i := by
  have hspec : st.lookup s.key t.key prime = none
      ∨ ∃ i, st.lookup s.key t.key prime = some i
        ∧ SlotFor probing st.hashTable T (s.key, t.key) i :=
    search_spec h.holds _ (fun hl => h.starts_iff hl _ _) prime 0 none
      (fun l hl => absurd hl (Nat.not_lt_zero l)) (fun i hi => by cases hi)
  rw [findDigram, ensures_bind, ensures_loadSymbol hs, ensures_bind, ensures_loadSymbol ht,
    Ensures, h.liveSlots.probe_eq_lookup]
  rcases hspec with hnone | ⟨i, hi, hfor⟩
  · rw [hnone]
    exact Or.inl rfl
  · rw [hi]
    exact ⟨rfl, hfor⟩

/-- **The entry of a digram is found** from its symbol. -/
theorem findDigram_eq (hs : st.symbols a = some s) (ht : st.symbols s.n = some t)
    (hT : T (s.key, t.key) = some a) :
    ∃ i, i < prime ∧ st.hashTable i = a ∧ findDigram a st = .ok (i, st) := by
  obtain ⟨i, hi, hia, hsearch⟩ : ∃ i, i < prime ∧ st.hashTable i = a
      ∧ st.lookup s.key t.key prime = some i :=
    h.holds.search_eq hT _ fun hl => h.starts_iff hl _ _
  refine ⟨i, hi, hia, ?_⟩
  rw [findDigram, bind_eq_of_ok (loadSymbol_eq hs), bind_eq_of_ok (loadSymbol_eq ht),
    h.liveSlots.probe_eq_lookup, hsearch]

end Store.Entries

namespace Store.Table

variable {T : Index ℕ ℕ} (h : st.Table T)

include h

/-- The slot of a digram gets its symbol. -/
theorem record (hsane : st.Sane) (hs : st.symbols a = some s) (ht : st.symbols s.n = some t)
    (hg : ¬ st.IsGuard a) (hg' : ¬ st.IsGuard s.n) {i : ℕ}
    (hi : SlotFor probing st.hashTable T (s.key, t.key) i) :
    Store.Table { st with hashTable := Function.update st.hashTable i a }
      ((Edit.record a (s.key, t.key)).run T) where
  holds := h.holds.record hi (hsane.address_gt hs) fun d hd => h.entries.key_eq hs ht hd
  entry {d b} hd := by
    rcases Edit.run_eq_some hd with hd | heq
    · exact h.entry hd
    · cases heq
      exact ⟨s, t, hs, ht, rfl, hg, hg'⟩

/-- **Recording**: the entry of the digram becomes its symbol. -/
theorem ensures_recordDigram (hsane : st.Sane) (hs : st.symbols a = some s)
    (ht : st.symbols s.n = some t) (hg : ¬ st.IsGuard a) (hg' : ¬ st.IsGuard s.n) :
    Ensures outside (recordDigram a) st fun _ st' =>
      ∃ slots, st' = { st with hashTable := slots }
        ∧ st'.Table ((Edit.record a (s.key, t.key)).run T) := by
  rw [recordDigram]
  refine (h.entries.ensures_findDigram hs ht).bind ?_
  rintro i st' ⟨rfl, hi⟩
  rw [ensures_storeSlot]
  exact ⟨_, rfl, h.record hsane hs ht hg hg' hi⟩

/-- **Deleting**: the entry of the digram is forgotten if it is the symbol. -/
theorem ensures_deleteDigram (hsane : st.Sane) (hs : st.symbols a = some s)
    (ht : st.symbols s.n = some t) :
    Ensures outside (deleteDigram a) st fun _ st' =>
      ∃ slots, st' = { st with hashTable := slots }
        ∧ st'.Table (runAll (forgetPair st.keyOf (st.item a) (st.item s.n)) T) := by
  rw [deleteDigram, ensures_bind, hsane.ensures_atGuard hs ht]
  by_cases hg : st.IsGuard a ∨ st.IsGuard s.n
  · rw [if_pos (by simpa using hg)]
    refine ⟨st.hashTable, rfl, ?_⟩
    have hnone : forgetPair st.keyOf (st.item a) (st.item s.n) = [] := by
      rcases hg with hg | hg
      · rw [item_of_isGuard hg]
        rfl
      · rw [item_of_isGuard hg]
        cases st.item a <;> rfl
    rw [hnone]
    exact h
  · rw [if_neg (by simpa using hg)]
    rw [not_or] at hg
    rw [item_of_not_isGuard hg.1, item_of_not_isGuard hg.2, forgetPair, keyOf_eq hs, keyOf_eq ht]
    refine (h.entries.ensures_findDigram hs ht).bind ?_
    rintro i st' ⟨rfl, hi⟩
    rw [ensures_bind, ensures_loadSlot, runAll, List.foldl_cons, List.foldl_nil, Edit.run]
    by_cases hT : T (s.key, t.key) = some a
    · have hia : st'.hashTable i = a := by
        have := hi.2
        rwa [hT] at this
      rw [if_pos hia, if_pos hT, ensures_storeSlot]
      refine ⟨_, rfl, h.holds.vacate hi, fun {d b} hd => ?_⟩
      exact h.entry (a := b) (d := d) (ne_and_eq_of_update_none hd).2
    · have hia : st'.hashTable i ≠ a := by
        intro hia
        obtain ⟨hlt, hi⟩ := hi
        obtain ⟨d, hd⟩ := h.holds.only (i := i) hlt (hia ▸ hsane.address_gt hs)
        rw [hia] at hd
        exact hT (h.entries.key_eq hs ht hd ▸ hd)
      rw [if_neg hia, if_neg hT]
      exact ⟨st'.hashTable, rfl, h⟩

/-- A symbol whose digram has been forgotten, and that has not been recorded, is
not in the table. -/
theorem ne_of_forget {edits : List (Edit ℕ ℕ)} (hs : st.symbols a = some s)
    (hforget : ∀ e ∈ forgetPair st.keyOf (st.item a) (st.item s.n), e ∈ edits)
    (hrecord : ∀ d, .record a d ∉ edits) (d : ℕ × ℕ) : runAll edits T d ≠ some a := by
  intro hd
  rcases runAll_eq_some hd with hT | hmem
  · obtain ⟨s', t, hs', ht, hkey, hg, hg'⟩ := h.entry hT
    rw [hs, Option.some.injEq] at hs'
    rw [← hs'] at ht hg'
    rw [item_of_not_isGuard hg, item_of_not_isGuard hg', forgetPair, keyOf_eq hs, keyOf_eq ht]
      at hforget
    rw [← hs'] at hkey
    refine runAll_ne (T := T) (hforget _ (List.mem_singleton_self _)) (hrecord _) ?_
    rw [← hkey]
    exact hd
  · exact hrecord d hmem

end Store.Table

/-! ## Links -/

def setNext (f : ℕ → Option Symbol) (a v : ℕ) : ℕ → Option Symbol :=
  Function.update f a ((f a).map fun s => { s with n := v })

def setPrev (f : ℕ → Option Symbol) (a v : ℕ) : ℕ → Option Symbol :=
  Function.update f a ((f a).map fun s => { s with p := v })

/-- The links that `join` makes. -/
def link (f : ℕ → Option Symbol) (left right : ℕ) : ℕ → Option Symbol :=
  setPrev (setNext f left right) right left

theorem link_apply (f : ℕ → Option Symbol) (left right a : ℕ) :
    link f left right a = (f a).map fun s =>
      ⟨if a = left then right else s.n, if a = right then left else s.p, s.key, s.value⟩ := by
  have hnext : ∀ a, setNext f left right a
      = (f a).map fun s => ⟨if a = left then right else s.n, s.p, s.key, s.value⟩ := by
    intro a
    unfold setNext
    by_cases ha : a = left
    · simp [ha]
    · simp [ha]
  unfold link setPrev
  by_cases ha : a = right
  · rw [ha, Function.update_self, hnext, Option.map_map]
    simp [Function.comp_def]
  · rw [Function.update_of_ne ha, hnext]
    simp [ha]

theorem link_of_some {f : ℕ → Option Symbol} {left right a : ℕ} {s : Symbol} (hs : f a = some s) :
    link f left right a = some
      ⟨if a = left then right else s.n, if a = right then left else s.p, s.key, s.value⟩ := by
  rw [link_apply, hs, Option.map_some]

/-- The last two lines of `join`. -/
theorem ensures_link {ok : Stop → Prop} {Q : Unit → Store → Prop} {left right : ℕ} {l r : Symbol}
    (hl : st.symbols left = some l) (hr : st.symbols right = some r) :
    Ensures ok (do
        modifySymbol left fun s => { s with n := right }
        modifySymbol right fun s => { s with p := left }) st Q
      ↔ Q () { st with symbols := link st.symbols left right } := by
  have hr' : ∃ r', setNext st.symbols left right right = some r' := by
    unfold setNext
    by_cases heq : right = left
    · rw [heq, Function.update_self, hl]
      exact ⟨_, rfl⟩
    · rw [Function.update_of_ne heq]
      exact ⟨r, hr⟩
  obtain ⟨r', hr'⟩ := hr'
  rw [ensures_bind, ensures_modifySymbol hl]
  have hnext : Function.update st.symbols left (some { l with n := right })
      = setNext st.symbols left right := by
    rw [setNext, hl]
    rfl
  have hright : Store.symbols { st with symbols := setNext st.symbols left right } right
      = some r' := hr'
  rw [hnext, ensures_modifySymbol hright, link, setPrev, hr']
  rfl

theorem Store.Sane.withTable (h : st.Sane) (slots : ℕ → ℕ) :
    Store.Sane { st with hashTable := slots } := ⟨h.rule, h.symbol, h.key⟩

/-- Links are safe unless they part a guard from the last symbol before it. -/
theorem Store.Sane.link (h : st.Sane) {left right : ℕ} {l : Symbol} (hl : st.symbols left = some l)
    (hlast : ∀ {r R g}, st.rules r = some R → st.symbols R.guard = some g → g.p = left →
      R.guard = right) :
    Store.Sane { st with symbols := GrammarHeap.link st.symbols left right } where
  rule {r R} hR := by
    obtain ⟨hr, g, m, hg, hgr, hm, hmn⟩ := h.rule hR
    by_cases hgr' : R.guard = right
    · exact ⟨hr, _, _, link_of_some hg, hgr, (congrArg _ (if_pos hgr')).trans (link_of_some hl),
        (if_pos rfl).trans hgr'.symm⟩
    · exact ⟨hr, _, _, link_of_some hg, hgr, (congrArg _ (if_neg hgr')).trans (link_of_some hm),
        (if_neg fun hleft => hgr' (hlast hR hg hleft)).trans hmn⟩
  symbol {a s} hs := by
    obtain ⟨s', hs', rfl⟩ := Option.map_eq_some_iff.mp ((link_apply ..).symm.trans hs)
    have := h.symbol hs'
    exact this
  key {a s} hs := by
    obtain ⟨s', hs', rfl⟩ := Option.map_eq_some_iff.mp ((link_apply ..).symm.trans hs)
    have := h.key hs'
    exact this

/-- Links do not touch the entries of the table, if the left symbol is none. -/
theorem Store.Table.link {T : Index ℕ ℕ} (h : st.Table T) {left right : ℕ}
    (hleft : ∀ d, T d ≠ some left) :
    Store.Table { st with symbols := GrammarHeap.link st.symbols left right } T where
  holds := h.holds
  entry {d a} hd := by
    obtain ⟨s, t, hs, ht, rfl, hg, hg'⟩ := h.entry hd
    have ha : a ≠ left := by
      rintro rfl
      exact hleft _ hd
    have hn : (if a = left then right else s.n) = s.n := if_neg ha
    refine ⟨_, _, link_of_some hs, (congrArg _ hn).trans (link_of_some ht), rfl, hg, ?_⟩
    show ¬ st.IsGuard (if a = left then right else s.n)
    rwa [hn]

section Join

variable (cfg : Config) {T : Index ℕ ℕ} (h : st.Table T) (hsane : st.Sane) {left right : ℕ}
  {l ln lp r rn rp : Symbol}

theorem ensures_keepRight_null {ok : Stop → Prop} {Q : Unit → Store → Prop}
    (hr : st.symbols right = some r) (hp : r.p = 0) :
    Ensures ok (keepRight cfg right) st Q ↔ Q () st := by
  rw [keepRight, ensures_bind, ensures_loadSymbol hr, if_neg (by simp [hp])]
  rfl

include h hsane

/-- The triple around the right symbol: its last two symbols are recorded. -/
theorem ensures_keepRight (hr : st.symbols right = some r) (hp : st.symbols r.p = some rp)
    (hn : st.symbols r.n = some rn)
    (hg : rp.key = r.key → r.key = rn.key →
      ¬ st.IsGuard r.p ∧ ¬ st.IsGuard right ∧ ¬ st.IsGuard r.n) :
    Ensures outside (keepRight cfg right) st fun _ st' =>
      ∃ slots, st' = { st with hashTable := slots } ∧ st'.Table (runAll
        (restoreSecond st.keyOf (st.item r.p) (st.item right) (st.item r.n)) T) := by
  have hp0 := hsane.address_gt hp
  have hn0 := hsane.address_gt hn
  rw [keepRight, ensures_bind, ensures_loadSymbol hr, if_pos ⟨by omega, by omega⟩, ensures_bind,
    ensures_loadSymbol hp]
  simp only [hsane.value_eq_iff cfg hr hp]
  by_cases hk : rp.key = r.key ∧ r.key = rn.key
  · obtain ⟨hg₁, hg₂, hg₃⟩ := hg hk.1 hk.2
    rw [if_pos hk.1.symm, ensures_bind, ensures_loadSymbol hn]
    simp only [hsane.value_eq_iff cfg hr hn]
    rw [if_pos hk.2, Store.item_of_not_isGuard hg₁, Store.item_of_not_isGuard hg₂,
      Store.item_of_not_isGuard hg₃, restoreSecond, Store.keyOf_eq hp, Store.keyOf_eq hr,
      Store.keyOf_eq hn, if_pos hk]
    exact h.ensures_recordDigram hsane hr hn hg₂ hg₃
  · have hnone : restoreSecond st.keyOf (st.item r.p) (st.item right) (st.item r.n) = [] := by
      unfold Store.item
      split_ifs
      all_goals first
        | rfl
        | rw [restoreSecond, Store.keyOf_eq hp, Store.keyOf_eq hr, Store.keyOf_eq hn, if_neg hk]
    rw [hnone]
    by_cases hk' : r.key = rp.key
    · rw [if_pos hk', ensures_bind, ensures_loadSymbol hn]
      simp only [hsane.value_eq_iff cfg hr hn]
      rw [if_neg fun hk'' => hk ⟨hk'.symm, hk''⟩]
      exact ⟨st.hashTable, rfl, h⟩
    · rw [if_neg hk']
      exact ⟨st.hashTable, rfl, h⟩

/-- The triple around the left symbol: its first two symbols are recorded. -/
theorem ensures_keepLeft (hl : st.symbols left = some l) (hp : st.symbols l.p = some lp)
    (hn : st.symbols l.n = some ln) (hback : lp.n = left)
    (hg : lp.key = l.key → l.key = ln.key →
      ¬ st.IsGuard l.p ∧ ¬ st.IsGuard left ∧ ¬ st.IsGuard l.n) :
    Ensures outside (keepLeft cfg left) st fun _ st' =>
      ∃ slots, st' = { st with hashTable := slots } ∧ st'.Table (runAll
        (restoreFirst st.keyOf (st.item l.p) (st.item left) (st.item l.n)) T) := by
  have hp0 := hsane.address_gt hp
  have hn0 := hsane.address_gt hn
  rw [keepLeft, ensures_bind, ensures_loadSymbol hl, if_pos ⟨by omega, by omega⟩, ensures_bind,
    ensures_loadSymbol hn]
  simp only [hsane.value_eq_iff cfg hl hn]
  by_cases hk : lp.key = l.key ∧ l.key = ln.key
  · obtain ⟨hg₁, hg₂, hg₃⟩ := hg hk.1 hk.2
    rw [if_pos hk.2, ensures_bind, ensures_loadSymbol hp]
    simp only [hsane.value_eq_iff cfg hl hp]
    rw [if_pos hk.1.symm, Store.item_of_not_isGuard hg₁, Store.item_of_not_isGuard hg₂,
      Store.item_of_not_isGuard hg₃, restoreFirst, Store.keyOf_eq hp, Store.keyOf_eq hl,
      Store.keyOf_eq hn, if_pos hk]
    rw [← hback] at hl hg₂
    exact h.ensures_recordDigram hsane hp hl hg₁ hg₂
  · have hnone : restoreFirst st.keyOf (st.item l.p) (st.item left) (st.item l.n) = [] := by
      unfold Store.item
      split_ifs
      all_goals first
        | rfl
        | rw [restoreFirst, Store.keyOf_eq hp, Store.keyOf_eq hl, Store.keyOf_eq hn, if_neg hk]
    rw [hnone]
    by_cases hk' : l.key = ln.key
    · rw [if_pos hk', ensures_bind, ensures_loadSymbol hp]
      simp only [hsane.value_eq_iff cfg hl hp]
      rw [if_neg fun hk'' => hk ⟨hk''.symm, hk'⟩]
      exact ⟨st.hashTable, rfl, h⟩
    · rw [if_neg hk']
      exact ⟨st.hashTable, rfl, h⟩

/-- **What `join` does to the table**, from what it does about the triple on the
right. -/
theorem ensures_leave {edits : List (Edit ℕ ℕ)} (hl : st.symbols left = some l)
    (hn : st.symbols l.n = some ln) (hp : st.symbols l.p = some lp) (hback : lp.n = left)
    (hg : lp.key = l.key → l.key = ln.key →
      ¬ st.IsGuard l.p ∧ ¬ st.IsGuard left ∧ ¬ st.IsGuard l.n)
    (hright : ∀ {slots T}, Store.Table { st with hashTable := slots } T →
      Ensures outside (keepRight cfg right) { st with hashTable := slots } fun _ st' =>
        ∃ slots', st' = { st with hashTable := slots' } ∧ st'.Table (runAll edits T)) :
    Ensures outside (leave cfg left right) st fun _ st' =>
      ∃ slots, st' = { st with hashTable := slots }
        ∧ st'.Table (runAll (forgetPair st.keyOf (st.item left) (st.item l.n) ++ edits
          ++ restoreFirst st.keyOf (st.item l.p) (st.item left) (st.item l.n)) T) := by
  have hn0 := hsane.address_gt hn
  rw [leave, ensures_bind, ensures_loadSymbol hl, if_pos (by omega)]
  refine (h.ensures_deleteDigram hsane hl hn).bind ?_
  rintro - _ ⟨slots, rfl, h₁⟩
  refine (hright h₁).bind ?_
  rintro - _ ⟨slots', rfl, h₂⟩
  refine (ensures_keepLeft cfg h₂ (hsane.withTable slots') hl hp hn hback hg).mono ?_
  rintro - _ ⟨slots'', rfl, h₃⟩
  refine ⟨slots'', rfl, ?_⟩
  rw [runAll_append, runAll_append]
  exact h₃

omit h hsane in
/-- **Joining**, from what is done to the table before. -/
theorem ensures_join {T' : Index ℕ ℕ}
    (hleave : Ensures outside (leave cfg left right) st fun _ st' =>
      ∃ slots, st' = { st with hashTable := slots } ∧ st'.Table T')
    (hl : st.symbols left = some l) (hr : st.symbols right = some r)
    (hleft : ∀ d, T' d ≠ some left) :
    Ensures outside (join cfg left right) st fun _ st' =>
      ∃ slots, st' = { st with symbols := link st.symbols left right, hashTable := slots }
        ∧ st'.Table T' := by
  rw [join]
  refine hleave.bind ?_
  rintro - _ ⟨slots, rfl, h'⟩
  have hl' : Store.symbols { st with hashTable := slots } left = some l := hl
  exact (ensures_link hl' hr).mpr ⟨slots, rfl, h'.link hleft⟩

end Join

end GrammarHeap
