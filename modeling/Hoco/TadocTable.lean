import Hoco.TadocGrammar

/-!
# The digram table of `tadoc.c`

Three things are known of the digram table and of the recursion that keeps it.

**When a lookup ends.** `findDigram` walks through the table in steps of seventeen
less the first key modulo seventeen, and stops at the digram or at an empty slot. The
size of the table, `PRIME`, is not a prime: it is seventeen times `133267`. A step of
one to sixteen slots reaches the whole table, but a step of seventeen – for a first
key that seventeen divides – reaches the slots that agree with the first one modulo
seventeen and no others. If none of these is empty and none holds the digram, the
lookup does not end, however many empty slots there are elsewhere
(`lookup_ends_iff`).

**What the slots hold.** Where the lookups do end, the table is sound after every
character (`ensures_tableSound_tadocBuild`): an entry is a symbol in use, the lookup of
its digram leads back to its slot, and every pair of neighbours is found.

**That the recursion ends.** The depth of the recursion between `check_put`, `match`
and `substitute` is bounded by the number of blocks, and no symbol is used that has
been freed (`ensures_checkTail_tadocBuild`).
-/

namespace GrammarHeap

open Triple PairIndex OpenAddressing

variable {cfg : Config} {st : Store} {G : Grammar}

/-! ## Lookups that end -/

/-- The slot is empty, or it holds the digram that is sought. -/
def Store.Stops (st : Store) (one two i : ℕ) : Prop :=
  st.hashTable i = 0 ∨ 1 < st.hashTable i ∧ st.starts one two (st.hashTable i) = true

theorem ends_iff_stops {one two i : ℕ} :
    Ends st.hashTable (st.starts one two) i ↔ st.Stops one two i := by
  unfold Ends Store.Stops
  constructor
  · rintro (hzero | ⟨hone, hhit⟩)
    · exact Or.inl hzero
    · by_cases hzero : st.hashTable i = 0
      · exact Or.inl hzero
      · exact Or.inr ⟨by omega, hhit⟩
  · rintro (hzero | ⟨hgt, hhit⟩)
    · exact Or.inl hzero
    · exact Or.inr ⟨by omega, hhit⟩

/-- Steps of one to sixteen slots share no divisor with the size of the table, but a
step of seventeen slots does. -/
theorem gcd_hashJump (one : ℕ) :
    Nat.gcd (hashJump one) prime = if one % 17 = 0 then 17 else 1 := by
  have hall : ∀ r < 17, Nat.gcd (17 - r) prime = if r = 0 then 17 else 1 := by decide +kernel
  exact hall (one % 17) (Nat.mod_lt _ (by decide))

/-- The slots that the lookup of a digram can reach. -/
theorem class_iff {one two i : ℕ} :
    probing.Class (one, two) i
      ↔ i < prime ∧ (one % 17 = 0 → i % 17 = hashStart one two % 17) := by
  show i < prime ∧ i % Nat.gcd (hashJump one) prime
    = hashStart one two % Nat.gcd (hashJump one) prime ↔ _
  rw [gcd_hashJump]
  by_cases h : one % 17 = 0
  · rw [if_pos h]
    exact and_congr_right fun _ => ⟨fun hi _ => hi, fun hi => hi h⟩
  · rw [if_neg h, Nat.mod_one, Nat.mod_one]
    exact and_congr_right fun _ => ⟨fun _ hone => absurd hone h, fun _ => rfl⟩

/-- **The loop of `findDigram` ends after at most `PRIME` steps**, at a slot that is
empty or holds the digram. -/
def Store.LookupEnds (st : Store) (one two : ℕ) : Prop :=
  (∃ i, probe one two (hashJump one) prime (hashStart one two) none st = .ok (i, st))
    ∧ ∃ k < prime, st.Stops one two ((hashStart one two + k * hashJump one) % prime)

theorem lookup_ne_none_iff {one two : ℕ} :
    st.lookup one two prime ≠ none
      ↔ ∃ i, (i < prime ∧ (one % 17 = 0 → i % 17 = hashStart one two % 17))
        ∧ st.Stops one two i := by
  simp only [← class_iff, ← ends_iff_stops]
  exact probing.search_ne_none_iff (st.starts one two) none

/-- **Where a lookup can stop** is in its class. -/
theorem Store.LiveSlots.lookupEnds_iff (h : st.LiveSlots) (one two : ℕ) :
    st.LookupEnds one two
      ↔ ∃ i, (i < prime ∧ (one % 17 = 0 → i % 17 = hashStart one two % 17))
        ∧ st.Stops one two i := by
  rw [LookupEnds, h.probe_eq_lookup]
  constructor
  · rintro ⟨⟨i, hi⟩, -⟩
    refine lookup_ne_none_iff.mp fun hnone => ?_
    rw [hnone] at hi
    cases hi
  · rintro ⟨i, hclass, hstop⟩
    obtain ⟨j, hj⟩ := Option.ne_none_iff_exists'.mp (lookup_ne_none_iff.mpr ⟨i, hclass, hstop⟩)
    obtain ⟨k, hk, rfl⟩ := (probing.exists_slot_eq_iff (one, two) i).mpr (class_iff.mpr hclass)
    rw [hj]
    exact ⟨⟨j, rfl⟩, k, hk, hstop⟩

/-- A lookup that cannot stop goes on for ever. -/
theorem Store.LiveSlots.probe_eq_endless (h : st.LiveSlots) {one two : ℕ}
    (hnever : ∀ i, i < prime → (one % 17 = 0 → i % 17 = hashStart one two % 17) →
      ¬ st.Stops one two i) (fuel : ℕ) :
    probe one two (hashJump one) fuel (hashStart one two) none st = .error .endless := by
  have hnone : st.lookup one two fuel = none :=
    probing.search_eq_none (fun i hi hends =>
      hnever i (class_iff.mp hi).1 (class_iff.mp hi).2 (ends_iff_stops.mp hends)) fuel none
  rw [h.probe_eq_lookup, hnone]

/-- **When a lookup ends**, in a table with an empty slot: if seventeen does not divide
the first key, and else if among the slots that agree modulo seventeen with the first
one there is an empty one or one with the digram. -/
theorem lookup_ends_iff (hlive : st.LiveSlots) (hroom : ∃ i < prime, st.hashTable i = 0)
    (one two : ℕ) :
    st.LookupEnds one two
      ↔ one % 17 ≠ 0 ∨ ∃ i < prime, i % 17 = hashStart one two % 17 ∧ st.Stops one two i := by
  rw [hlive.lookupEnds_iff]
  by_cases h : one % 17 = 0
  · constructor
    · rintro ⟨i, ⟨hi, hmod⟩, hstop⟩
      exact Or.inr ⟨i, hi, hmod h, hstop⟩
    · rintro (hne | ⟨i, hi, hmod, hstop⟩)
      · exact absurd h hne
      · exact ⟨i, ⟨hi, fun _ => hmod⟩, hstop⟩
  · refine iff_of_true ?_ (Or.inl h)
    obtain ⟨i, hi, hzero⟩ := hroom
    exact ⟨i, ⟨hi, fun hone => absurd hone h⟩, Or.inl hzero⟩

/-- A table in which every seventeenth slot has been deleted and all others are empty. -/
def worn : Store := Store.init fun i => if i % 17 = 8 then 1 else 0

/-- The same with the characters "*a" in memory, and entered in the second slot that the
lookup for them comes to. -/
def wornWithEntry : Store :=
  { worn with
    symbols := fun a => if a = 2 then some ⟨3, 0, 85, 42⟩ else if a = 3 then some ⟨0, 2, 195, 97⟩
      else none
    hashTable := fun i => if i = hashStart 85 195 + 17 then 2 else worn.hashTable i }

theorem liveSlots_wornWithEntry : wornWithEntry.LiveSlots := fun i _ hgt => by
  change 1 < if i = hashStart 85 195 + 17 then 2 else if i % 17 = 8 then 1 else 0 at hgt
  split at hgt
  · rename_i hi
    subst hi
    exact ⟨⟨3, 0, 85, 42⟩, ⟨0, 2, 195, 97⟩, by decide +kernel, by decide +kernel⟩
  · split at hgt <;> omega

/-- The lookup of "*a" passes a deleted slot and ends at the entry. -/
theorem lookup_ends_wornWithEntry :
    wornWithEntry.hashTable (hashStart 85 195) = 1 ∧ wornWithEntry.LookupEnds 85 195 :=
  ⟨by decide +kernel, (lookup_ends_iff liveSlots_wornWithEntry ⟨0, by decide, by decide +kernel⟩
    85 195).mpr (Or.inr ⟨hashStart 85 195 + 17, by decide +kernel, by decide +kernel,
      Or.inr ⟨by decide +kernel, by decide +kernel⟩⟩)⟩

theorem liveSlots_worn : worn.LiveSlots := fun i _ hgt => by
  change 1 < if i % 17 = 8 then 1 else 0 at hgt
  split at hgt <;> omega

/-- **The characters "*a" are never found not to be in this table**, of which more than
two million slots are empty. -/
theorem exists_lookup_endless :
    ∃ st : Store, st.LiveSlots ∧ (∃ i < prime, st.hashTable i = 0) ∧ ¬ st.LookupEnds 85 195
      ∧ ∀ fuel, probe 85 195 (hashJump 85) fuel (hashStart 85 195) none st = .error .endless := by
  have hnever : ∀ i, i < prime → ((85 : ℕ) % 17 = 0 → i % 17 = hashStart 85 195 % 17) →
      ¬ worn.Stops 85 195 i := by
    intro i _ hmod hstop
    have hone : worn.hashTable i = 1 := if_pos (hmod (by decide))
    rw [Store.Stops, hone] at hstop
    omega
  refine ⟨worn, liveSlots_worn, ⟨0, by decide, rfl⟩, ?_, liveSlots_worn.probe_eq_endless hnever⟩
  rw [liveSlots_worn.lookupEnds_iff]
  rintro ⟨i, ⟨hi, hmod⟩, hstop⟩
  exact hnever i hi hmod hstop

/-! ## What the slots hold -/

/-- The symbols of a body, one after the other from the guard. -/
inductive InBody (st : Store) (guard : ℕ) : ℕ → Prop
  | first {g : Symbol} : st.symbols guard = some g → g.n ≠ guard → InBody st guard g.n
  | next {a : ℕ} {s : Symbol} : InBody st guard a → st.symbols a = some s → s.n ≠ guard →
      InBody st guard s.n

/-- **A sound digram table.** -/
structure Store.TableSound (st : Store) : Prop where
  /-- An entry is a symbol of a rule in use, neither it nor the one behind it is a
  guard, and the lookup of the digram they make leads to the slot. -/
  slot : ∀ {i}, i < prime → 1 < st.hashTable i →
    ∃ s t, st.symbols (st.hashTable i) = some s ∧ st.symbols s.n = some t
      ∧ (∃ r R, st.rules r = some R ∧ InBody st R.guard (st.hashTable i))
      ∧ ¬ st.IsGuard (st.hashTable i) ∧ ¬ st.IsGuard s.n
      ∧ findDigram (st.hashTable i) st = .ok (i, st)
  /-- No two slots have the same digram. -/
  distinct : ∀ {i j one two}, i < prime → j < prime → 1 < st.hashTable i → 1 < st.hashTable j →
    st.starts one two (st.hashTable i) = true → st.starts one two (st.hashTable j) = true → i = j
  /-- Neighbours that are no guards are recorded, at their own place or at one of the
  same digram that overlaps it. -/
  cover : ∀ {a s t}, st.symbols a = some s → st.symbols s.n = some t →
    ¬ st.IsGuard a → ¬ st.IsGuard s.n →
    ∃ i b, i < prime ∧ st.hashTable i = b ∧ st.starts s.key t.key b = true
      ∧ (b = a ∨ b = s.n ∨ ∃ s', st.symbols b = some s' ∧ s'.n = a)

namespace Models

variable (h : Models cfg st G)

include h

theorem inBody {R : Grammar.Ring} (hR : R ∈ G.rings) (left : List Grammar.Sym) {x : Grammar.Sym}
    {right : List Grammar.Sym} (hbody : R.body = left.reverse ++ x :: right) :
    InBody st (cfg.address R.guard) (cfg.address x.tag) := by
  have hne : ∀ {y}, y ∈ R.body → cfg.address y.tag ≠ cfg.address R.guard := fun hy heq =>
    h.not_isGuard (placed_iff.mpr ⟨R, hR, hy⟩) (heq ▸ h.isGuard hR)
  induction left generalizing x right with
  | nil =>
    have hg := h.guard_eq hR
    rw [hbody] at hg
    exact .first hg (hne (by simp [hbody]))
  | cons y left ih =>
    have hbody' : R.body = left.reverse ++ y :: x :: right := by simp [hbody]
    exact .next (ih hbody') (h.symbol_eq hR hbody') (hne (by simp [hbody]))

/-- The entries of the index, in the table. -/
theorem exists_slot {T : Index ℕ ℕ} (hT : st.Table T)
    (hren : Renames cfg.code (fun x => cfg.address x.tag) (Known G.rings) (Placed G.rings) G.index
      T) {x y z : Grammar.Sym} (hx : x ∈ Placed G.rings) (hy : y ∈ Placed G.rings)
    (hz : G.index (x.key, y.key) = some z) :
    ∃ i, i < prime ∧ st.hashTable i = cfg.address z.tag
      ∧ st.starts (cfg.code x.key) (cfg.code y.key) (cfg.address z.tag) = true := by
  have heq : T (cfg.code x.key, cfg.code y.key) = some (cfg.address z.tag) := by
    rw [hren.eq (d := (x.key, y.key)) (h.closed hx) (h.closed hy), hz]
    rfl
  obtain ⟨j, hj, -⟩ := hT.holds.found heq
  exact ⟨_, probing.slot_lt _ j, hj, (hT.entries.starts_iff heq _ _).mpr heq⟩

/-- **A settled grammar has a sound table.** -/
theorem tableSound (hG : G.Settled) : st.TableSound := by
  obtain ⟨T, hT, hren⟩ := h.table
  have hown : ∀ {i}, i < prime → 1 < st.hashTable i → ∃ s t,
      st.symbols (st.hashTable i) = some s ∧ st.symbols s.n = some t
        ∧ T (s.key, t.key) = some (st.hashTable i)
        ∧ ¬ st.IsGuard (st.hashTable i) ∧ ¬ st.IsGuard s.n := fun {i} hi hgt => by
    obtain ⟨d, hd⟩ := hT.holds.only (i := i) hi hgt
    obtain ⟨s, t, hs, ht, rfl, hg, hg'⟩ := hT.entry hd
    exact ⟨s, t, hs, ht, hd, hg, hg'⟩
  refine ⟨fun {i} hi hgt => ?_, fun {i j one two} hi hj hgt hgt' hst hst' => ?_,
    fun {a s t} hs ht hg hg' => ?_⟩
  · obtain ⟨s, t, hs, ht, hd, hg, hg'⟩ := hown hi hgt
    obtain ⟨R, hR, left, x, right, hbody, hx, -⟩ := h.exists_sym hs hg
    refine ⟨s, t, hs, ht, ⟨_, _, h.rule_eq hR, ?_⟩, hg, hg', ?_⟩
    · rw [hx]
      exact h.inBody hR left hbody
    · obtain ⟨j, hj, hja, hfind⟩ := hT.entries.findDigram_eq hs ht hd
      rwa [← hT.holds.slot_inj hi hj hgt hja.symm] at hfind
  · obtain ⟨s, t, -, -, hd, -⟩ := hown hi hgt
    obtain ⟨s', t', -, -, hd', -⟩ := hown hj hgt'
    have heq := (hT.entries.starts_iff hd one two).mp hst
    rw [(hT.entries.starts_iff hd' one two).mp hst', Option.some.injEq] at heq
    exact hT.holds.slot_inj hi hj hgt heq.symm
  · obtain ⟨x, y, hxy, hx, hy, rfl, hn, hsk, htk⟩ := h.exists_pair hs ht hg hg'
    rw [hsk, htk, hn]
    rcases hG.indexed.cover hxy id with hown | ⟨-, ⟨w, hw, -, hown⟩ | ⟨v, -, -, hown⟩⟩
    · obtain ⟨i, hi, hslot, hst⟩ := h.exists_slot hT hren hx hy hown
      exact ⟨i, _, hi, hslot, hst, Or.inl rfl⟩
    · -- the place before, of which this one is the second half
      obtain ⟨i, hi, hslot, hst⟩ := h.exists_slot hT hren hx hy hown
      obtain ⟨_, hbody, hadj⟩ := hw
      obtain ⟨R, hR, rfl⟩ := List.mem_map.mp hbody
      obtain ⟨s', -, hs', hn', -⟩ := h.pair_eq hR hadj
      exact ⟨i, _, hi, hslot, hst, Or.inr (Or.inr ⟨s', hs', hn'⟩)⟩
    · obtain ⟨i, hi, hslot, hst⟩ := h.exists_slot hT hren hx hy hown
      exact ⟨i, _, hi, hslot, hst, Or.inr (Or.inl rfl)⟩

end Models

variable (address : ℕ → ℕ) (charSigned : Bool)

/-- **After every character the digram table is sound.** -/
theorem ensures_tableSound_tadocBuild (source : List UInt8) {i : ℕ} (hi : 1 ≤ i)
    (hle : i ≤ source.length) :
    Ensures outside (tadocBuild ⟨.tadoc, address, charSigned⟩ (source.take i))
      (Store.init fun _ => 0) fun _ st => st.TableSound := by
  refine (ensures_tadocBuild rfl (take_ne_nil hi hle)).mono ?_
  rintro _ st ⟨-, h⟩
  exact h.tableSound (Grammar.build_settled _)

theorem tableSound_tadocBuild_abcabc :
    ∃ S st, tadocBuild (.plain .tadoc) abcabc (Store.init fun _ => 0) = .ok (S, st)
      ∧ st.TableSound := by
  obtain ⟨S, st, hrun⟩ := exists_tadocBuild_abcabc
  exact ⟨S, st, hrun, (ensures_tableSound_tadocBuild _ _ abcabc (i := 6) (by decide)
    (by decide)).of_ok hrun⟩

/-! ## The recursion -/

/-- **The recursion ends.** When a character has been appended and `check_put` is called
for it, a depth of as many calls as there are blocks is enough, and so is any other
bound from there on: the call returns, unless a lookup does not end or a block is not
to be had. It does not use a symbol or a rule that is not in memory. The block of the
digram table has been given to the program with nothing in it. -/
theorem ensures_checkTail_tadocBuild {table : ℕ → ℕ} (hempty : table = fun _ => 0)
    {source : List UInt8} {S : ℕ} {st st' : Store} (c : UInt8)
    (hrun : tadocBuild ⟨.tadoc, address, charSigned⟩ source (Store.init table) = .ok (S, st))
    (happend : appendChar ⟨.tadoc, address, charSigned⟩ S c st = .ok ((), st')) {depth : ℕ}
    (hdepth : st'.used ≤ depth) :
    Ensures outside (checkTail ⟨.tadoc, address, charSigned⟩ depth S) st' fun _ _ => True := by
  subst hempty
  have hne : source ≠ [] := by
    rintro rfl
    cases hrun
  obtain ⟨rfl, h⟩ := (ensures_tadocBuild rfl hne).of_ok hrun
  have h' := (h.ensures_appendChar c).of_ok happend
  have hG := Grammar.build_settled source
  refine ((ensures_checkTail (Grammar.settles_step hG c) (hG.append c) h' (fun hseq => ?_)
    (by simp [Grammar.append]) hdepth).weaken fun _ he => ?_).mono fun _ _ _ => trivial
  · cases hseq
  · exact he.resolve_right fun hseq => by cases hseq.1

/-- The last character of "abab" closes a digram that has been seen, and `check_put` makes a
rule of it. -/
theorem checkTail_tadocBuild_abab :
    ∃ S st st', tadocBuild (.plain .tadoc) [97, 98, 97] (Store.init fun _ => 0) = .ok (S, st)
      ∧ appendChar (.plain .tadoc) S 98 st = .ok ((), st')
      ∧ Ensures outside (checkTail (.plain .tadoc) st'.used S) st' fun _ _ => True := by
  obtain ⟨S, st, hrun⟩ : ∃ S st,
      tadocBuild (.plain .tadoc) [97, 98, 97] (Store.init fun _ => 0) = .ok (S, st) :=
    exists_of_isOk (by decide +kernel)
  obtain ⟨_, st', happend⟩ : ∃ u st', (do
      let S ← tadocBuild (.plain .tadoc) [97, 98, 97]
      appendChar (.plain .tadoc) S 98) (Store.init fun _ => 0) = .ok (u, st') :=
    exists_of_isOk (by decide +kernel)
  rw [bind_eq_of_ok hrun] at happend
  exact ⟨S, st, st', hrun, happend,
    ensures_checkTail_tadocBuild _ _ rfl 98 hrun happend (Nat.le_refl _)⟩

end GrammarHeap
