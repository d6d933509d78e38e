import Hoco.TextOrder
import Hoco.Toast

/-!
# Comparing texts without decompressing them

`hocotext_cmp` and the six operators look at the forms of their two operands
and call one of three functions: `hocotext_hoco_cmp` when both are compressed,
`hocotext_mixed_cmp` when one is, `hocotext_common_cmp` when neither is. The
first two read the payload token by token. The bytes of the current token that
are not yet compared form a **window**: `cur_lef_p` with `lef_count` in the
source, a list here.

A loop of these functions can end the function as well as the loop, at the
first difference. `Exit` tells the two apart.

## What the comparisons compute

Every comparison is the lexicographic one, by the values of `char`, on the
bytes the operands stand for (`TextOrder.textOrder`). For the two functions on
compressed operands this is a statement about token streams. `Feeds` says that
a token sequence lies between the read position and the end of the payload;
each turn of a loop consumes one of its tokens, and the text that is still to
be compared is the window followed by what the remaining tokens stand for.

The mixed comparison is stated for *any* end of the plain operand, also one
that is not the end of its data (`scan`), since the function takes the end from
the four-byte header whatever form the operand has.
-/

open Rle TextOrder

/-- The type of object identifiers. -/
abbrev Oid := UInt32

/-- The check all of the functions make first, with the same texts. -/
def checkCollation (collid : Oid) : Run Unit :=
  if collid ≠ 0 then .ok ()
  else .error (.ereport {
    code := .indeterminateCollation
    message := "could not determine which collation to use for hocotext_extract() function"
    hint := some "Use the COLLATE clause to set the collation explicitly." })

/-- How a loop ends: the function returns, or goes on behind the loop. -/
inductive Exit (σ : Type) where
  | ret (v : ℤ)
  | fall (s : σ)

namespace Server

variable (sv : Server)

/-! ## The functions -/

/-- The value of a `char`. -/
def charVal (b : UInt8) : ℤ :=
  if sv.charSigned ∧ 128 ≤ b.toNat then b.toNat - 256 else b.toNat

/-- `a > b ? 1 : (a == b ? 0 : -1)`. -/
def charCmp (a b : UInt8) : ℤ :=
  if sv.charVal a > sv.charVal b then 1 else if sv.charVal a = sv.charVal b then 0 else -1

/-- The same with the operands exchanged: `a > b ? -1 : (a == b ? 0 : 1)`. -/
def exchangedCharCmp (a b : UInt8) : ℤ :=
  if sv.charVal a > sv.charVal b then -1 else if sv.charVal a = sv.charVal b then 0 else 1

/-- Reading the token at `p` into a window: the bytes of the window, and the
position behind the token. -/
def readToken (m : Mem) (p : ℕ) : Run (ℕ × List UInt8) := do
  let mark ← m.load p
  if 128 ≤ mark.toNat then
    let count := (mark &&& 0x7F).toNat + threshold
    let b ← m.load (p + 1)
    return (p + 2, List.replicate count b)
  else
    let count := mark.toNat
    let bytes ← m.copy (p + 1) count
    return (p + 1 + count, bytes)

/-- The start of a turn: an empty window is filled with the next token. -/
def refill (m : Mem) (p : ℕ) (cur : List UInt8) : Run (ℕ × List UInt8) :=
  if cur = [] then readToken m p else .ok (p, cur)

/-- The inner loop of `hocotext_hoco_cmp`: equal bytes are taken off both
windows. -/
def matchWindows : List UInt8 → List UInt8 → Exit (List UInt8 × List UInt8)
  | l :: lef, r :: righ =>
    if l = r then matchWindows lef righ else .ret (sv.charCmp l r)
  | lef, righ => .fall (lef, righ)

/-- The variables of `hocotext_hoco_cmp`: the read positions and the
windows. -/
structure HocoState where
  lefp : ℕ
  curLef : List UInt8
  righp : ℕ
  curRigh : List UInt8

/-- The loops of `hocotext_hoco_cmp`, which differ in their condition. The
second and the third loop have no code to fill the one window that their
condition says is not empty. -/
def hocoLoop (left right : Mem) (goOn : HocoState → Bool) :
    ℕ → HocoState → Run (Exit HocoState)
  | 0, s => .ok (.fall s)
  | fuel + 1, s =>
    if goOn s then do
      let (lefp, curLef) ← refill left s.lefp s.curLef
      let (righp, curRigh) ← refill right s.righp s.curRigh
      match sv.matchWindows curLef curRigh with
      | .ret v => return .ret v
      | .fall (curLef, curRigh) =>
        hocoLoop left right goOn fuel { lefp, curLef, righp, curRigh }
    else .ok (.fall s)

/-- **`hocotext_hoco_cmp`.** -/
def hocotextHocoCmp (left right : Mem) (collid : Oid) : Run ℤ := do
  checkCollation collid
  let lefend ← sv.varsizeAny left
  let righend ← sv.varsizeAny right
  let fuel := lefend + righend
  match ← sv.hocoLoop left right (fun s => s.lefp < lefend ∧ s.righp < righend) fuel
      ⟨varhdrszCompressed, [], varhdrszCompressed, []⟩ with
  | .ret v => return v
  | .fall s =>
  match ← sv.hocoLoop left right (fun s => s.lefp < lefend ∧ s.curRigh ≠ []) fuel s with
  | .ret v => return v
  | .fall s =>
  match ← sv.hocoLoop left right (fun s => s.righp < righend ∧ s.curLef ≠ []) fuel s with
  | .ret v => return v
  | .fall s =>
    if s.lefp < lefend ∨ s.curLef ≠ [] then return 1
    else if s.righp < righend ∨ s.curRigh ≠ [] then return -1
    else return 0

/-- The inner loop of `hocotext_mixed_cmp`, which is also the loop behind the
outer one: equal bytes are taken off the window and off the plain operand. -/
def mixedWindow (righ : Mem) (righend : ℕ) (exchange : Bool) :
    List UInt8 → ℕ → Run (Exit (List UInt8 × ℕ))
  | [], righp => .ok (.fall ([], righp))
  | l :: lef, righp =>
    if righp < righend then do
      let r ← righ.load righp
      if l = r then mixedWindow righ righend exchange lef (righp + 1)
      else return .ret (if exchange then sv.exchangedCharCmp l r else sv.charCmp l r)
    else .ok (.fall (l :: lef, righp))

/-- The variables of `hocotext_mixed_cmp`. -/
structure MixedState where
  lefp : ℕ
  curLef : List UInt8
  righp : ℕ

/-- The outer loop of `hocotext_mixed_cmp`. -/
def mixedLoop (lef righ : Mem) (lefend righend : ℕ) (exchange : Bool) :
    ℕ → MixedState → Run (Exit MixedState)
  | 0, s => .ok (.fall s)
  | fuel + 1, s =>
    if s.lefp < lefend ∧ s.righp < righend then do
      let (lefp, curLef) ← refill lef s.lefp s.curLef
      match ← sv.mixedWindow righ righend exchange curLef s.righp with
      | .ret v => return .ret v
      | .fall (curLef, righp) =>
        mixedLoop lef righ lefend righend exchange fuel { lefp, curLef, righp }
    else .ok (.fall s)

/-- The body of `hocotext_mixed_cmp` behind its outer loop. -/
def mixedRest (righ : Mem) (lefend righend : ℕ) (exchange : Bool) (s : MixedState) :
    Run ℤ := do
  match ← sv.mixedWindow righ righend exchange s.curLef s.righp with
  | .ret v => return v
  | .fall (curLef, righp) =>
    if s.lefp < lefend ∨ curLef ≠ [] then return (if exchange then -1 else 1)
    else if righp < righend then return (if exchange then 1 else -1)
    else return 0

/-- The body of `hocotext_mixed_cmp` from its outer loop on. -/
def mixedFrom (lef righ : Mem) (lefend righend : ℕ) (exchange : Bool) (fuel : ℕ)
    (s : MixedState) : Run ℤ := do
  match ← sv.mixedLoop lef righ lefend righend exchange fuel s with
  | .ret v => return v
  | .fall s => sv.mixedRest righ lefend righend exchange s

/-- **`hocotext_mixed_cmp`.** The end of the plain operand is read with
`VARSIZE`, the macro for a four-byte header. -/
def hocotextMixedCmp (left right : Mem) (collid : Oid) : Run ℤ := do
  let exchange ← if ← sv.varattIsCompressed left then pure false
    else sv.varattIsCompressed right
  let lef := if exchange then right else left
  let righ := if exchange then left else right
  let lefend ← sv.varsizeAny lef
  let righp := sv.vardataAny (← righ.load 0)
  let righend ← sv.varsize4B righ
  checkCollation collid
  sv.mixedFrom lef righ lefend righend exchange lefend ⟨varhdrszCompressed, [], righp⟩

/-- The loop of `hocotext_common_cmp`. -/
def commonLoop (left right : Mem) (lefend righend : ℕ) :
    ℕ → ℕ → ℕ → Run (Exit (ℕ × ℕ))
  | 0, lefp, righp => .ok (.fall (lefp, righp))
  | fuel + 1, lefp, righp =>
    if lefp < lefend ∧ righp < righend then do
      let l ← left.load lefp
      let r ← right.load righp
      if l = r then commonLoop left right lefend righend fuel (lefp + 1) (righp + 1)
      else return .ret (sv.charCmp l r)
    else .ok (.fall (lefp, righp))

/-- The body of `hocotext_common_cmp` from its loop on. -/
def commonFrom (left right : Mem) (lefend righend fuel lefp righp : ℕ) : Run ℤ := do
  match ← sv.commonLoop left right lefend righend fuel lefp righp with
  | .ret v => return v
  | .fall (lefp, righp) =>
    if lefp < lefend then return 1
    else if righp < righend then return -1
    else return 0

/-- **`hocotext_common_cmp`.** -/
def hocotextCommonCmp (left right : Mem) (collid : Oid) : Run ℤ := do
  let lefp := sv.vardataAny (← left.load 0)
  let lefend ← sv.varsizeAny left
  let righp := sv.vardataAny (← right.load 0)
  let righend ← sv.varsizeAny right
  checkCollation collid
  sv.commonFrom left right lefend righend lefend lefp righp

/-- `hocotext_fetch_toasted_attr`. -/
def hocotextFetchToastedAttr (attr : Mem) : Run Mem := do
  if ← sv.hasKnownTag attr then sv.fetchExternal attr
  else if ← sv.varattIsCompressed attr then return attr
  else if ← sv.varattIsShort attr then sv.unpackShort attr
  else return attr

/-- **`hocotext_datum_packed`**: a short datum passes through unchanged. -/
def hocotextDatumPacked (datum : Mem) : Run Mem := do
  if (← sv.varattIsCompressed datum) || (← sv.varattIsExternal datum) then
    sv.hocotextFetchToastedAttr datum
  else return datum

/-- The body that `hocotext_cmp`, the operators and the two aggregates share:
the three-way result, and the two datums it was computed on. -/
def dispatchCmp (left right : Mem) (collid : Oid) : Run (ℤ × Mem × Mem) := do
  let leftDatum ← sv.hocotextDatumPacked left
  let rightDatum ← sv.hocotextDatumPacked right
  let isCompLef ← sv.varattIsCompressed leftDatum
  let isCompRigh ← sv.varattIsCompressed rightDatum
  let result ←
    if isCompLef && isCompRigh then sv.hocotextHocoCmp leftDatum rightDatum collid
    else if isCompLef || isCompRigh then sv.hocotextMixedCmp leftDatum rightDatum collid
    else sv.hocotextCommonCmp leftDatum rightDatum collid
  return (result, leftDatum, rightDatum)

/-- **`hocotext_cmp`.** -/
def hocotextCmp (left right : Mem) (collid : Oid) : Run ℤ :=
  return (← sv.dispatchCmp left right collid).1

/-- `hocotext_eq`. -/
def hocotextEq (left right : Mem) (collid : Oid) : Run Bool :=
  return decide ((← sv.dispatchCmp left right collid).1 = 0)

/-- `hocotext_nq`. -/
def hocotextNq (left right : Mem) (collid : Oid) : Run Bool :=
  return decide ((← sv.dispatchCmp left right collid).1 ≠ 0)

/-- `hocotext_lt`. -/
def hocotextLt (left right : Mem) (collid : Oid) : Run Bool :=
  return decide ((← sv.dispatchCmp left right collid).1 < 0)

/-- `hocotext_le`. -/
def hocotextLe (left right : Mem) (collid : Oid) : Run Bool :=
  return decide ((← sv.dispatchCmp left right collid).1 ≤ 0)

/-- `hocotext_gt`. -/
def hocotextGt (left right : Mem) (collid : Oid) : Run Bool :=
  return decide ((← sv.dispatchCmp left right collid).1 > 0)

/-- `hocotext_ge`. -/
def hocotextGe (left right : Mem) (collid : Oid) : Run Bool :=
  return decide ((← sv.dispatchCmp left right collid).1 ≥ 0)

/-- `hocotext_smaller`. -/
def hocotextSmaller (left right : Mem) (collid : Oid) : Run Mem := do
  let (result, leftDatum, rightDatum) ← sv.dispatchCmp left right collid
  return if result < 0 then leftDatum else rightDatum

/-- `hocotext_larger`. -/
def hocotextLarger (left right : Mem) (collid : Oid) : Run Mem := do
  let (result, leftDatum, rightDatum) ← sv.dispatchCmp left right collid
  return if result > 0 then leftDatum else rightDatum

/-! ## Characters -/

theorem charVal_injective {a b : UInt8} (h : sv.charVal a = sv.charVal b) : a = b := by
  have ha := a.toNat_lt
  have hb := b.toNat_lt
  unfold charVal at h
  rw [← UInt8.toNat_inj]
  cases hs : sv.charSigned <;>
    simp only [hs, Bool.false_eq_true, false_and, true_and, ↓reduceIte] at h
  · omega
  · split at h <;> split at h <;> omega

/-- The comparison of two texts by the values of their characters. -/
abbrev order (l r : List UInt8) : Ordering := textOrder sv.charVal l r

/-- **At the first difference the comparison of the characters is the
comparison of the texts.** -/
theorem charCmp_eq_sign {a b : UInt8} (h : a ≠ b) (l r : List UInt8) :
    sv.charCmp a b = sign (sv.order (a :: l) (b :: r)) := by
  have hne : sv.charVal a ≠ sv.charVal b := fun hval => h (sv.charVal_injective hval)
  rw [order, textOrder_cons_of_ne sv.charVal hne, charCmp, Int.compare_eq_ite_lt]
  rcases lt_or_gt_of_ne hne with hlt | hgt
  · rw [if_neg (by omega), if_neg hne, if_pos hlt]
    rfl
  · rw [if_pos hgt, if_neg (by omega), if_pos hgt]
    rfl

theorem exchangedCharCmp_eq_neg (a b : UInt8) : sv.exchangedCharCmp a b = -sv.charCmp a b := by
  unfold exchangedCharCmp charCmp
  split
  · rfl
  · split <;> rfl

/-! ## Token streams -/

/-- **What is left of a payload**: the tokens between the read position `p` and
the end `e`. -/
structure Feeds (m : Mem) (p e : ℕ) (ts : List Token) : Prop where
  nonempty : AllNonempty ts
  stops : p + (encode ts).length = e
  mapped : ∃ rest, m.drop p = encode ts ++ rest

namespace Feeds

variable {m : Mem} {p e : ℕ}

theorem lt_iff {ts : List Token} (h : Feeds m p e ts) : p < e ↔ ts ≠ [] := by
  have hstop := h.stops
  rw [ne_eq, ← encode_eq_nil_iff, ← List.length_eq_zero_iff]
  omega

/-- A token takes at least one byte of the payload. -/
theorem length_le {ts : List Token} (h : Feeds m p e ts) : ts.length ≤ e := by
  have hlen := length_le_encode_length ts
  have hstop := h.stops
  omega

/-- **Reading the next token**: the window is what the token stands for, and
the other tokens are left. -/
theorem readToken_eq {t : Token} {ts : List Token} (h : Feeds m p e (t :: ts)) :
    ∃ p', readToken m p = .ok (p', t.expand) ∧ Feeds m p' e ts := by
  obtain ⟨rest, hm⟩ := h.mapped
  have hstop := h.stops
  have hne := ((allNonempty_cons t ts).mp h.nonempty).2
  rw [encode_cons, List.append_assoc] at hm
  rw [encode_cons, List.length_append] at hstop
  refine ⟨p + t.encode.length, ?_, hne, by omega, rest, Mem.drop_add hm⟩
  unfold readToken
  cases t with
  | lit bs fits =>
    have hmark := lit_mark_toNat fits
    have hsmall : ¬ 128 ≤ bs.length := by
      simp only [maxSingleStoreSize] at fits
      omega
    have hbs : m.drop (p + 1) = bs ++ (encode ts ++ rest) := @Mem.drop_add _ [_] _ _ hm
    rw [Mem.load_of_drop hm]
    show (if 128 ≤ (UInt8.ofNat bs.length).toNat then _ else _) = _
    rw [hmark, if_neg hsmall, Mem.copy_of_drop hbs]
    show Except.ok (p + 1 + bs.length, bs) = Except.ok (p + (bs.length + 1), bs)
    rw [Nat.add_assoc, Nat.add_comm 1]
  | run b k =>
    have hb : m.drop (p + 1) = b :: (encode ts ++ rest) := @Mem.drop_add _ [_] _ _ hm
    rw [Mem.load_of_drop hm]
    show (if 128 ≤ (UInt8.ofNat (128 + k)).toNat then _ else _) = _
    rw [run_mark_toNat, if_pos (by omega), Mem.load_of_drop hb, run_mark_and]
    rfl

end Feeds

/-! ## Both operands compressed -/

/-- **The inner loop either finds the first difference, or leaves at most one
window with bytes in it and takes nothing off the answer.** -/
theorem matchWindows_cases (l r : List UInt8) :
    (∃ v, sv.matchWindows l r = .ret v ∧ ∀ x y, sign (sv.order (l ++ x) (r ++ y)) = v)
      ∨ ∃ l' r', sv.matchWindows l r = .fall (l', r') ∧ (l' = [] ∨ r' = [])
          ∧ ∀ x y, sv.order (l ++ x) (r ++ y) = sv.order (l' ++ x) (r' ++ y) := by
  induction l generalizing r with
  | nil => exact Or.inr ⟨[], r, rfl, Or.inl rfl, fun _ _ => rfl⟩
  | cons a l ih =>
    cases r with
    | nil => exact Or.inr ⟨a :: l, [], rfl, Or.inr rfl, fun _ _ => rfl⟩
    | cons b r =>
      rw [matchWindows]
      by_cases hab : a = b
      · subst hab
        rw [if_pos rfl]
        simpa only [List.cons_append, order, textOrder_cons_self] using ih r
      · rw [if_neg hab]
        exact Or.inl ⟨_, rfl, fun x y => (sv.charCmp_eq_sign hab (l ++ x) (r ++ y)).symm⟩

section Hoco

variable {left right : Mem} {lefend righend : ℕ}

/-- The state of the comparison: what is left of the two payloads, with the
answer `o` on what is still to be compared. -/
structure HocoState.Compares (left right : Mem) (lefend righend : ℕ) (s : HocoState)
    (tl tr : List Token) (o : Ordering) : Prop where
  lef : Feeds left s.lefp lefend tl
  righ : Feeds right s.righp righend tr
  window : s.curLef = [] ∨ s.curRigh = []
  answer : sv.order (s.curLef ++ expand tl) (s.curRigh ++ expand tr) = o

/-- Filling a window moves bytes from the stream to the window. -/
theorem refill_eq {m : Mem} {p e : ℕ} {cur : List UInt8} {ts : List Token}
    (h : Feeds m p e ts) (hcur : cur = [] → p < e) :
    ∃ p' cur' ts', refill m p cur = .ok (p', cur') ∧ Feeds m p' e ts'
      ∧ cur' ++ expand ts' = cur ++ expand ts ∧ ts'.length ≤ ts.length
      ∧ (cur = [] → ts'.length < ts.length) := by
  unfold refill
  by_cases hnil : cur = []
  · rw [if_pos hnil]
    obtain ⟨t, ts', rfl⟩ := List.exists_cons_of_ne_nil (h.lt_iff.mp (hcur hnil))
    obtain ⟨p', hread, hfeeds⟩ := h.readToken_eq
    refine ⟨p', t.expand, ts', hread, hfeeds, ?_, ?_, fun _ => ?_⟩
    · rw [hnil, expand_cons, List.nil_append]
    · rw [List.length_cons]
      omega
    · rw [List.length_cons]
      omega
  · rw [if_neg hnil]
    exact ⟨p, cur, ts, rfl, h, rfl, Nat.le_refl _, fun h' => absurd h' hnil⟩

/-- A turn of the loop, once the windows are filled. -/
theorem hocoLoop_turn {goOn : HocoState → Bool} {s : HocoState} (hgo : goOn s = true)
    {p q : ℕ} {cur cur' : List UInt8} (hl : refill left s.lefp s.curLef = .ok (p, cur))
    (hr : refill right s.righp s.curRigh = .ok (q, cur')) (fuel : ℕ) :
    sv.hocoLoop left right goOn (fuel + 1) s = match sv.matchWindows cur cur' with
      | .ret v => .ok (.ret v)
      | .fall (l, r) => sv.hocoLoop left right goOn fuel ⟨p, l, q, r⟩ := by
  rw [hocoLoop, if_pos hgo, hl, hr]
  rfl

/-- **One of the loops of `hocotext_hoco_cmp`**, run with enough fuel: it
returns the answer, or its condition fails and the answer is still the one on
what is left. -/
theorem hocoLoop_spec (goOn : HocoState → Bool)
    (hgo : ∀ s, goOn s = true →
      (s.curLef = [] → s.lefp < lefend) ∧ (s.curRigh = [] → s.righp < righend))
    (o : Ordering) (fuel : ℕ) (s : HocoState) (tl tr : List Token)
    (h : s.Compares sv left right lefend righend tl tr o)
    (hfuel : tl.length + tr.length ≤ fuel) :
    sv.hocoLoop left right goOn fuel s = .ok (.ret (sign o))
      ∨ ∃ s' tl' tr', sv.hocoLoop left right goOn fuel s = .ok (.fall s')
          ∧ s'.Compares sv left right lefend righend tl' tr' o ∧ goOn s' = false
          ∧ tl'.length ≤ tl.length ∧ tr'.length ≤ tr.length := by
  -- every turn fills an empty window, so the number of unread tokens decreases
  induction fuel generalizing s tl tr with
  | zero =>
    refine Or.inr ⟨s, tl, tr, rfl, h, ?_, Nat.le_refl _, Nat.le_refl _⟩
    rw [Bool.eq_false_iff]
    intro htrue
    have htl : tl = [] := List.length_eq_zero_iff.mp (by omega)
    have htr : tr = [] := List.length_eq_zero_iff.mp (by omega)
    rcases h.window with hw | hw
    · exact h.lef.lt_iff.mp ((hgo s htrue).1 hw) htl
    · exact h.righ.lt_iff.mp ((hgo s htrue).2 hw) htr
  | succ fuel ih =>
    by_cases htrue : goOn s = true
    · obtain ⟨p, cur, tl', hl, hfl, hexpl, hlenl, hltl⟩ := refill_eq h.lef (hgo s htrue).1
      obtain ⟨q, cur', tr', hr, hfr, hexpr, hlenr, hltr⟩ := refill_eq h.righ (hgo s htrue).2
      have hlen : tl'.length + tr'.length ≤ fuel := by
        rcases h.window with hw | hw
        · have := hltl hw
          omega
        · have := hltr hw
          omega
      have hans := h.answer
      rw [← hexpl, ← hexpr] at hans
      rw [sv.hocoLoop_turn htrue hl hr]
      rcases sv.matchWindows_cases cur cur' with ⟨v, hret, hv⟩ | ⟨l', r', hfall, hw, heq⟩
      · rw [hret]
        exact Or.inl (by rw [← hans, hv])
      · rw [hfall]
        rcases ih ⟨p, l', q, r'⟩ tl' tr' ⟨hfl, hfr, hw, by rw [← heq, hans]⟩ hlen with
          hret | ⟨s', tl'', tr'', hrun, hcmp, hstop, hlen₁, hlen₂⟩
        · exact Or.inl hret
        · exact Or.inr ⟨s', tl'', tr'', hrun, hcmp, hstop, by omega, by omega⟩
    · rw [hocoLoop, if_neg htrue]
      exact Or.inr ⟨s, tl, tr, rfl, h, Bool.eq_false_iff.mpr htrue, Nat.le_refl _, Nat.le_refl _⟩

theorem hocoLoop_skip {goOn : HocoState → Bool} {s : HocoState} (hgo : goOn s = false)
    (fuel : ℕ) : sv.hocoLoop left right goOn fuel s = .ok (.fall s) := by
  cases fuel with
  | zero => rfl
  | succ fuel => rw [hocoLoop, hgo, if_neg Bool.false_ne_true]

/-- **What is left when all three loops are over decides**: at most one operand
has bytes left, and the sign says which. -/
theorem HocoState.Compares.leftover {s : HocoState} {tl tr : List Token} {o : Ordering}
    (h : s.Compares sv left right lefend righend tl tr o)
    (h₁ : ¬ (s.lefp < lefend ∧ s.righp < righend))
    (h₂ : ¬ (s.lefp < lefend ∧ s.curRigh ≠ []))
    (h₃ : ¬ (s.righp < righend ∧ s.curLef ≠ [])) :
    sign o = if s.lefp < lefend ∨ s.curLef ≠ [] then 1
      else if s.righp < righend ∨ s.curRigh ≠ [] then -1 else 0 := by
  have hwin := h.window
  have hans := h.answer
  have hexpl : expand tl = [] ↔ ¬ s.lefp < lefend := by
    rw [expand_eq_nil_iff h.lef.nonempty, h.lef.lt_iff, not_not]
  have hexpr : expand tr = [] ↔ ¬ s.righp < righend := by
    rw [expand_eq_nil_iff h.righ.nonempty, h.righ.lt_iff, not_not]
  have hlef : s.curLef ++ expand tl = [] ↔ ¬ (s.lefp < lefend ∨ s.curLef ≠ []) := by
    rw [List.append_eq_nil_iff, hexpl, not_or, ne_eq, not_not, and_comm]
  have hrigh : s.curRigh ++ expand tr = [] ↔ ¬ (s.righp < righend ∨ s.curRigh ≠ []) := by
    rw [List.append_eq_nil_iff, hexpr, not_or, ne_eq, not_not, and_comm]
  rw [← hans]
  by_cases hl : s.lefp < lefend ∨ s.curLef ≠ []
  · have hr : s.curRigh ++ expand tr = [] := by
      rw [hrigh]
      rintro (hr | hr)
      · exact hl.elim (fun hl => h₁ ⟨hl, hr⟩) (fun hl => h₃ ⟨hr, hl⟩)
      · exact hl.elim (fun hl => h₂ ⟨hl, hr⟩) (fun hl => hwin.elim hl hr)
    rw [if_pos hl, hr, order, textOrder_nil_right _ (fun hnil => hlef.mp hnil hl)]
    rfl
  · rw [if_neg hl, hlef.mpr hl]
    by_cases hr : s.righp < righend ∨ s.curRigh ≠ []
    · rw [if_pos hr, order, textOrder_nil_left _ (fun hnil => hrigh.mp hnil hr)]
      rfl
    · rw [if_neg hr, hrigh.mpr hr, order, textOrder_nil_nil]
      rfl

/-- **`hocotext_hoco_cmp` on two payloads compares the texts they stand
for.** -/
theorem hocotextHocoCmp_eq {collid : Oid} (hcol : collid ≠ 0) {tl tr : List Token}
    (hlefend : sv.varsizeAny left = .ok lefend) (hrighend : sv.varsizeAny right = .ok righend)
    (hl : Feeds left varhdrszCompressed lefend tl)
    (hr : Feeds right varhdrszCompressed righend tr) :
    sv.hocotextHocoCmp left right collid = .ok (sign (sv.order (expand tl) (expand tr))) := by
  have hfuel : ∀ tl' tr' : List Token, tl'.length ≤ tl.length → tr'.length ≤ tr.length →
      tl'.length + tr'.length ≤ lefend + righend := by
    have := hl.length_le
    have := hr.length_le
    omega
  have hstart : HocoState.Compares sv left right lefend righend
      ⟨varhdrszCompressed, [], varhdrszCompressed, []⟩ tl tr (sv.order (expand tl) (expand tr)) :=
    ⟨hl, hr, Or.inl rfl, rfl⟩
  unfold hocotextHocoCmp
  simp only [checkCollation, if_pos hcol, hlefend, hrighend, Run.ok_bind]
  rcases sv.hocoLoop_spec (fun s => decide (s.lefp < lefend ∧ s.righp < righend))
      (fun s hs => ⟨fun _ => (of_decide_eq_true hs).1, fun _ => (of_decide_eq_true hs).2⟩)
      _ _ _ tl tr hstart (hfuel tl tr (Nat.le_refl _) (Nat.le_refl _)) with
    hret | ⟨s₁, tl₁, tr₁, hrun₁, hcmp₁, hstop₁, hlenl₁, hlenr₁⟩
  · rw [hret]
    rfl
  rw [hrun₁]
  simp only [Run.ok_bind]
  have h₁ := of_decide_eq_false hstop₁
  by_cases hlef : s₁.lefp < lefend
  · -- the left payload is longer: the second loop compares it with the right window
    rcases sv.hocoLoop_spec (fun s => decide (s.lefp < lefend ∧ s.curRigh ≠ []))
        (fun s hs => ⟨fun _ => (of_decide_eq_true hs).1,
          fun hnil => absurd hnil (of_decide_eq_true hs).2⟩)
        _ _ _ tl₁ tr₁ hcmp₁ (hfuel tl₁ tr₁ hlenl₁ hlenr₁) with
      hret | ⟨s₂, tl₂, tr₂, hrun₂, hcmp₂, hstop₂, hlenl₂, hlenr₂⟩
    · rw [hret]
      rfl
    have hrigh : ¬ s₂.righp < righend := by
      have htr₁ : ¬ s₁.righp < righend := fun hlt => h₁ ⟨hlef, hlt⟩
      rw [hcmp₁.righ.lt_iff, ← List.length_pos_iff] at htr₁
      rw [hcmp₂.righ.lt_iff, ← List.length_pos_iff]
      omega
    rw [hrun₂]
    simp only [Run.ok_bind]
    rw [sv.hocoLoop_skip (by simp [hrigh])]
    simp only [Run.ok_bind]
    rw [hcmp₂.leftover sv (fun h => hrigh h.2) (of_decide_eq_false hstop₂) (fun h => hrigh h.1)]
    split_ifs <;> rfl
  · -- the left payload is used up: the third loop compares its window with the right one
    rw [sv.hocoLoop_skip (by simp [hlef])]
    simp only [Run.ok_bind]
    rcases sv.hocoLoop_spec (fun s => decide (s.righp < righend ∧ s.curLef ≠ []))
        (fun s hs => ⟨fun hnil => absurd hnil (of_decide_eq_true hs).2,
          fun _ => (of_decide_eq_true hs).1⟩)
        _ _ _ tl₁ tr₁ hcmp₁ (hfuel tl₁ tr₁ hlenl₁ hlenr₁) with
      hret | ⟨s₃, tl₃, tr₃, hrun₃, hcmp₃, hstop₃, hlenl₃, hlenr₃⟩
    · rw [hret]
      rfl
    have hlef₃ : ¬ s₃.lefp < lefend := by
      rw [hcmp₁.lef.lt_iff, ← List.length_pos_iff] at hlef
      rw [hcmp₃.lef.lt_iff, ← List.length_pos_iff]
      omega
    rw [hrun₃]
    simp only [Run.ok_bind]
    rw [hcmp₃.leftover sv (fun h => hlef₃ h.1) (fun h => hlef₃ h.1) (of_decide_eq_false hstop₃)]
    split_ifs <;> rfl

end Hoco

/-! ## One operand compressed -/

/-- **What the mixed comparison computes**: the text is compared with the `n`
bytes from a pointer on, of which `avail` are mapped. -/
def scan : List UInt8 → Mem → ℕ → Run ℤ
  | [], _, 0 => .ok 0
  | [], _, _ + 1 => .ok (-1)
  | _ :: _, _, 0 => .ok 1
  | _ :: _, [], _ + 1 => .error .fault
  | x :: e, y :: avail, n + 1 =>
    if x = y then scan e avail n else .ok (sv.charCmp x y)

/-- Where all the bytes are mapped, the scan is the comparison with them. -/
theorem scan_eq_order (e : List UInt8) (avail : Mem) (n : ℕ) (hn : n ≤ avail.length) :
    sv.scan e avail n = .ok (sign (sv.order e (avail.take n))) := by
  induction n generalizing e avail with
  | zero =>
    cases e with
    | nil => rfl
    | cons x e => rfl
  | succ n ih =>
    obtain ⟨y, avail, rfl⟩ := List.exists_cons_of_length_pos (by omega : 0 < avail.length)
    rw [List.take_succ_cons]
    cases e with
    | nil => rfl
    | cons x e =>
      rw [scan]
      by_cases hxy : x = y
      · subst hxy
        rw [if_pos rfl, ih e avail (by simpa using hn), order, order, textOrder_cons_self]
      · rw [if_neg hxy, sv.charCmp_eq_sign hxy e (avail.take n)]

theorem scan_nil (avail : Mem) (n : ℕ) :
    sv.scan [] avail n = .ok (if 0 < n then -1 else 0) := by
  cases n with
  | zero => rfl
  | succ n => rfl

theorem scan_zero {e : List UInt8} (h : e ≠ []) (avail : Mem) : sv.scan e avail 0 = .ok 1 := by
  obtain ⟨x, e, rfl⟩ := List.exists_cons_of_ne_nil h
  rfl

/-- The sign of an answer when the operands were exchanged. -/
def exchanged (exchange : Bool) (v : ℤ) : ℤ := if exchange then -v else v

section Mixed

variable {lef righ : Mem} {lefend righend : ℕ} (exchange : Bool)

/-- **The inner loop of the mixed comparison** ends the scan, or takes the same
bytes off both sides until one of them is used up. -/
theorem mixedWindow_cases (righ : Mem) (righend : ℕ) (cur : List UInt8) (righp : ℕ) :
    (∃ r : Run ℤ, sv.mixedWindow righ righend exchange cur righp
          = (fun v => .ret (exchanged exchange v)) <$> r
        ∧ ∀ more, sv.scan (cur ++ more) (righ.drop righp) (righend - righp) = r)
      ∨ ∃ cur' righp', sv.mixedWindow righ righend exchange cur righp = .ok (.fall (cur', righp'))
          ∧ (cur' = [] ∨ righend ≤ righp') ∧ (righend ≤ righp → righend ≤ righp')
          ∧ ∀ more, sv.scan (cur ++ more) (righ.drop righp) (righend - righp)
              = sv.scan (cur' ++ more) (righ.drop righp') (righend - righp') := by
  induction cur generalizing righp with
  | nil => exact Or.inr ⟨[], righp, rfl, Or.inl rfl, id, fun _ => rfl⟩
  | cons l cur ih =>
    rw [mixedWindow]
    by_cases hlt : righp < righend
    · rw [if_pos hlt]
      obtain ⟨n, hn⟩ := Nat.exists_eq_add_of_lt hlt
      have hsub : righend - righp = n + 1 := by omega
      have hsub' : righend - (righp + 1) = n := by omega
      cases hdrop : righ.drop righp with
      | nil =>
        rw [Mem.load_of_drop_nil hdrop, hsub]
        exact Or.inl ⟨.error .fault, rfl, fun more => rfl⟩
      | cons r avail =>
        have hdrop' : righ.drop (righp + 1) = avail := @Mem.drop_add _ [r] _ _ hdrop
        rw [Mem.load_of_drop hdrop, Run.ok_bind, hsub]
        by_cases hlr : l = r
        · subst hlr
          have hscan : ∀ more, sv.scan (l :: cur ++ more) (l :: avail) (n + 1)
              = sv.scan (cur ++ more) (righ.drop (righp + 1)) (righend - (righp + 1)) := by
            intro more
            rw [List.cons_append, scan, if_pos rfl, hdrop', hsub']
          simp only [if_pos, hscan]
          rcases ih (righp + 1) with hend | ⟨cur', righp', hrun, hused, hpast, heq⟩
          · exact Or.inl hend
          · exact Or.inr ⟨cur', righp', hrun, hused, fun h => absurd hlt (by omega), heq⟩
        · refine Or.inl ⟨.ok (sv.charCmp l r), ?_, fun more => ?_⟩
          · rw [if_neg hlr, exchangedCharCmp_eq_neg]
            rfl
          · rw [List.cons_append, scan, if_neg hlr]
    · rw [if_neg hlt]
      exact Or.inr ⟨l :: cur, righp, rfl, Or.inr (by omega), id, fun _ => rfl⟩

/-- Behind the outer loop one of the operands has no bytes left but those of
the window. -/
theorem mixedRest_eq_scan (s : MixedState) (ts : List Token)
    (h : Feeds lef s.lefp lefend ts) (hstop : ¬ (s.lefp < lefend ∧ s.righp < righend)) :
    sv.mixedRest righ lefend righend exchange s
      = exchanged exchange
          <$> sv.scan (s.curLef ++ expand ts) (righ.drop s.righp) (righend - s.righp) := by
  have hexp : expand ts = [] ↔ ¬ s.lefp < lefend := by
    rw [expand_eq_nil_iff h.nonempty, h.lt_iff, not_not]
  unfold mixedRest
  rcases sv.mixedWindow_cases exchange righ righend s.curLef s.righp with
    ⟨r, hrun, hscan⟩ | ⟨cur, righp, hrun, hused, hpast, hscan⟩
  · rw [hrun, hscan (expand ts)]
    cases r <;> rfl
  · rw [hrun, hscan (expand ts), Run.ok_bind]
    by_cases hmore : s.lefp < lefend ∨ cur ≠ []
    · -- bytes of the compressed operand are left, so none of the plain one are
      have hend : righend - righp = 0 := by
        rcases hmore with hmore | hmore
        · have := hpast (Nat.le_of_not_lt fun hlt => hstop ⟨hmore, hlt⟩)
          omega
        · have := hused.resolve_left hmore
          omega
      have hne : cur ++ expand ts ≠ [] := by
        intro hnil
        rw [List.append_eq_nil_iff, hexp] at hnil
        exact hmore.elim hnil.2 (fun hcur => hcur hnil.1)
      simp only [if_pos hmore, hend, sv.scan_zero hne]
      cases exchange <;> rfl
    · rw [not_or, not_not] at hmore
      rw [hmore.2, hexp.mpr hmore.1, List.append_nil, scan_nil]
      simp only [hmore.1, ne_eq, not_true_eq_false, or_self, ↓reduceIte, Nat.sub_pos_iff_lt]
      by_cases hlt : righp < righend
      · rw [if_pos hlt, if_pos hlt]
        cases exchange <;> rfl
      · rw [if_neg hlt, if_neg hlt]
        cases exchange <;> rfl

/-- **The mixed comparison is a scan** of the text the tokens stand for. -/
theorem mixedFrom_eq_scan (fuel : ℕ) (s : MixedState) (ts : List Token)
    (h : Feeds lef s.lefp lefend ts) (hwin : s.curLef = [] ∨ righend ≤ s.righp)
    (hfuel : ts.length ≤ fuel) :
    sv.mixedFrom lef righ lefend righend exchange fuel s
      = exchanged exchange
          <$> sv.scan (s.curLef ++ expand ts) (righ.drop s.righp) (righend - s.righp) := by
  -- the window is empty at the start of every turn, so a turn reads one token
  induction fuel generalizing s ts with
  | zero =>
    have hts : ts = [] := List.length_eq_zero_iff.mp (by omega)
    exact sv.mixedRest_eq_scan exchange s ts h (fun hgo => h.lt_iff.mp hgo.1 hts)
  | succ fuel ih =>
    by_cases hgo : s.lefp < lefend ∧ s.righp < righend
    · have hcur : s.curLef = [] := hwin.resolve_right (by omega)
      obtain ⟨t, ts, rfl⟩ := List.exists_cons_of_ne_nil (h.lt_iff.mp hgo.1)
      obtain ⟨p, hread, hfeeds⟩ := h.readToken_eq
      unfold mixedFrom mixedLoop
      rw [if_pos hgo, refill, if_pos hcur, hread, Run.ok_bind, hcur, List.nil_append, expand_cons]
      rcases sv.mixedWindow_cases exchange righ righend t.expand s.righp with
        ⟨r, hrun, hscan⟩ | ⟨cur, righp, hrun, hused, -, hscan⟩
      · simp only [hrun, hscan (expand ts)]
        cases r <;> rfl
      · simp only [hrun, hscan (expand ts), Run.ok_bind]
        exact ih ⟨p, cur, righp⟩ ts hfeeds hused (by simpa using hfuel)
    · unfold mixedFrom mixedLoop
      rw [if_neg hgo]
      exact sv.mixedRest_eq_scan exchange s ts h hgo

end Mixed

/-! ## No operand compressed -/

/-- When one of the operands is used up, the other decides. -/
theorem commonFrom_stop {lefend righend lefp righp : ℕ} (left right : Mem)
    (hstop : ¬ (lefp < lefend ∧ righp < righend)) (fuel : ℕ) :
    sv.commonFrom left right lefend righend fuel lefp righp
      = .ok (if lefp < lefend then 1 else if righp < righend then -1 else 0) := by
  have hloop : sv.commonLoop left right lefend righend fuel lefp righp
      = .ok (.fall (lefp, righp)) := by
    cases fuel with
    | zero => rfl
    | succ fuel => rw [commonLoop, if_neg hstop]
  unfold commonFrom
  simp only [hloop, Run.ok_bind]
  split_ifs <;> rfl

/-- **The plain comparison** of two stretches of memory. -/
theorem commonFrom_eq {left right : Mem} (a b : List UInt8) (fuel lefp righp : ℕ) {ra rb : Mem}
    (hl : left.drop lefp = a ++ ra) (hr : right.drop righp = b ++ rb) (hfuel : a.length ≤ fuel) :
    sv.commonFrom left right (lefp + a.length) (righp + b.length) fuel lefp righp
      = .ok (sign (sv.order a b)) := by
  induction a generalizing b fuel lefp righp with
  | nil =>
    rw [sv.commonFrom_stop left right (by simp), if_neg (by simp)]
    cases b with
    | nil => simp [sign]
    | cons y b => simp [sign, textOrder_nil_left]
  | cons x a ih =>
    cases b with
    | nil =>
      rw [sv.commonFrom_stop left right (by simp), if_pos (by simp)]
      rfl
    | cons y b =>
      cases fuel with
      | zero => simp at hfuel
      | succ fuel =>
        unfold commonFrom commonLoop
        rw [if_pos (by simp), Mem.load_of_drop hl, Mem.load_of_drop hr, Run.ok_bind, Run.ok_bind]
        by_cases hxy : x = y
        · subst hxy
          have hl' : left.drop (lefp + 1) = a ++ ra := @Mem.drop_add _ [x] _ _ hl
          have hr' : right.drop (righp + 1) = b ++ rb := @Mem.drop_add _ [x] _ _ hr
          have hrec := ih b fuel (lefp + 1) (righp + 1) hl' hr' (by simpa using hfuel)
          rw [if_pos rfl, order, textOrder_cons_self, ← hrec, List.length_cons, List.length_cons,
            Nat.add_right_comm lefp, Nat.add_right_comm righp]
          rfl
        · rw [if_neg hxy, sv.charCmp_eq_sign hxy a b]
          rfl

/-! ## The functions on datums -/

/-- **An RLE payload in a compressed datum.** -/
structure HasPayload (m : Mem) (ts : List Token) : Prop where
  header : sv.HasHeader m .compressed (varhdrszCompressed + (encode ts).length)
  feeds : Feeds m varhdrszCompressed (varhdrszCompressed + (encode ts).length) ts

theorem hasPayload_compressedDatum {ts : List Token} (hne : AllNonempty ts)
    (fits : (encode ts).length + 8 < 2 ^ 30) (method rawsize : ℕ) (rest : Mem) :
    sv.HasPayload (sv.compressedDatum method rawsize (encode ts) ++ rest) ts where
  header := by
    rw [Nat.add_comm]
    exact sv.hasHeader_compressedDatum fits method rawsize rest
  feeds := ⟨hne, rfl, rest, sv.drop_compressedDatum method rawsize (encode ts) rest⟩

section Datums

variable {sv} {collid : Oid} {left right : Mem}

theorem checkCollation_eq (hcol : collid ≠ 0) : checkCollation collid = .ok () := if_pos hcol

/-- A text passes through `hocotext_datum_packed` in the form it has. -/
theorem HasText.datumPacked {m : Mem} {form : Form} {t : List UInt8} (h : sv.HasText m form t) :
    sv.hocotextDatumPacked m = .ok m := by
  rw [hocotextDatumPacked, h.header.varattIsCompressed_eq, Run.ok_bind,
    h.header.varattIsExternal_eq, Run.ok_bind, decide_eq_false h.uncompressed]
  rfl

/-- A compressed datum passes through `hocotext_datum_packed` unchanged. -/
theorem HasHeader.datumPacked_of_compressed {m : Mem} {size : ℕ}
    (h : sv.HasHeader m .compressed size) : sv.hocotextDatumPacked m = .ok m := by
  rw [hocotextDatumPacked, h.varattIsCompressed_eq, Run.ok_bind, h.varattIsExternal_eq,
    Run.ok_bind, hocotextFetchToastedAttr, h.hasKnownTag_eq, h.varattIsCompressed_eq]
  rfl

/-- Scanning up to the end of a text compares with the text. -/
theorem HasText.scan_eq {m : Mem} {form : Form} {t : List UInt8} (h : sv.HasText m form t)
    (e : List UInt8) :
    sv.scan e (m.drop form.dataOffset) (form.dataOffset + t.length - form.dataOffset)
      = .ok (sign (sv.order e t)) := by
  obtain ⟨rest, hmap⟩ := h.mapped
  rw [Nat.add_sub_cancel_left, hmap, sv.scan_eq_order e (t ++ rest) t.length (by simp),
    List.take_left]

/-- The same when the operands were exchanged. -/
theorem HasText.neg_scan_eq {m : Mem} {form : Form} {t : List UInt8} (h : sv.HasText m form t)
    (e : List UInt8) :
    (fun v => -v)
        <$> sv.scan e (m.drop form.dataOffset) (form.dataOffset + t.length - form.dataOffset)
      = .ok (sign (sv.order t e)) := by
  rw [h.scan_eq, order, textOrder_swap, sign_swap]
  exact congrArg Except.ok (Int.neg_neg _)

/-- The plain comparison of two texts, in whichever forms. -/
theorem HasText.hocotextCommonCmp_eq {f g : Form} {t u : List UInt8}
    (hl : sv.HasText left f t) (hr : sv.HasText right g u) (collid : Oid) :
    sv.hocotextCommonCmp left right collid
      = (checkCollation collid >>= fun _ => .ok (sign (sv.order t u))) := by
  obtain ⟨b, hb, hoff⟩ := hl.header.vardataAny_eq hl.uncompressed
  obtain ⟨c, hc, hoff'⟩ := hr.header.vardataAny_eq hr.uncompressed
  obtain ⟨restl, hmapl⟩ := hl.mapped
  obtain ⟨restr, hmapr⟩ := hr.mapped
  rw [hocotextCommonCmp, hb, hl.header.varsizeAny_eq, hc, hr.header.varsizeAny_eq]
  simp only [Run.ok_bind, hoff, hoff', sv.commonFrom_eq t u _ _ _ hmapl hmapr (Nat.le_add_left _ _)]

theorem HasPayload.hocotextHocoCmp_eq (hcol : collid ≠ 0) {tl tr : List Token}
    (hl : sv.HasPayload left tl) (hr : sv.HasPayload right tr) :
    sv.hocotextHocoCmp left right collid = .ok (sign (sv.order (expand tl) (expand tr))) :=
  sv.hocotextHocoCmp_eq hcol hl.header.varsizeAny_eq hr.header.varsizeAny_eq hl.feeds hr.feeds

/-- **The mixed comparison, with the compressed operand on the left.** The end
of the other operand is what `VARSIZE` reads. -/
theorem HasPayload.hocotextMixedCmp_left {ts : List Token} {form : Form} {size : ℕ}
    (hl : sv.HasPayload left ts) (hr : sv.HasHeader right form size)
    (hform : form ≠ .compressed) (collid : Oid) :
    sv.hocotextMixedCmp left right collid
      = (sv.varsize4B right >>= fun righend => checkCollation collid >>= fun _ =>
          sv.scan (expand ts) (right.drop form.dataOffset) (righend - form.dataOffset)) := by
  obtain ⟨c, hc, hoff⟩ := hr.vardataAny_eq hform
  unfold hocotextMixedCmp
  simp only [hl.header.varattIsCompressed_eq, Run.ok_bind, decide_true, ↓reduceIte, pure_bind,
    Bool.false_eq_true, hl.header.varsizeAny_eq, hc, hoff]
  refine congrArg (sv.varsize4B right >>= ·) (funext fun righend => ?_)
  refine congrArg (checkCollation collid >>= ·) (funext fun _ => ?_)
  rw [sv.mixedFrom_eq_scan false _ _ ts hl.feeds (Or.inl rfl) hl.feeds.length_le]
  exact id_map _

/-- **The mixed comparison, with the compressed operand on the right.** -/
theorem HasPayload.hocotextMixedCmp_right {ts : List Token} {form : Form} {size : ℕ}
    (hr : sv.HasPayload right ts) (hl : sv.HasHeader left form size)
    (hform : form ≠ .compressed) (collid : Oid) :
    sv.hocotextMixedCmp left right collid
      = (sv.varsize4B left >>= fun lefend => checkCollation collid >>= fun _ =>
          (fun v => -v)
            <$> sv.scan (expand ts) (left.drop form.dataOffset) (lefend - form.dataOffset)) := by
  obtain ⟨c, hc, hoff⟩ := hl.vardataAny_eq hform
  unfold hocotextMixedCmp
  simp only [hl.varattIsCompressed_eq, hr.header.varattIsCompressed_eq, Run.ok_bind, decide_true,
    decide_eq_false hform, ↓reduceIte, Bool.false_eq_true, hr.header.varsizeAny_eq, hc, hoff]
  refine congrArg (sv.varsize4B left >>= ·) (funext fun lefend => ?_)
  refine congrArg (checkCollation collid >>= ·) (funext fun _ => ?_)
  rw [sv.mixedFrom_eq_scan true _ _ ts hr.feeds (Or.inl rfl) hr.feeds.length_le]
  rfl

/-! ## Which function the forms lead to -/

theorem HasText.dispatchCmp_text {f g : Form} {t u : List UInt8} (hl : sv.HasText left f t)
    (hr : sv.HasText right g u) (collid : Oid) :
    sv.dispatchCmp left right collid
      = (fun v => (v, left, right)) <$> sv.hocotextCommonCmp left right collid := by
  unfold dispatchCmp
  simp only [hl.datumPacked, hr.datumPacked, hl.header.varattIsCompressed_eq,
    hr.header.varattIsCompressed_eq, Run.ok_bind, decide_eq_false hl.uncompressed,
    decide_eq_false hr.uncompressed]
  rfl

theorem HasText.dispatchCmp_payload {f : Form} {t : List UInt8} {us : List Token}
    (hl : sv.HasText left f t) (hr : sv.HasPayload right us) (collid : Oid) :
    sv.dispatchCmp left right collid
      = (fun v => (v, left, right)) <$> sv.hocotextMixedCmp left right collid := by
  unfold dispatchCmp
  simp only [hl.datumPacked, hr.header.datumPacked_of_compressed, hl.header.varattIsCompressed_eq,
    hr.header.varattIsCompressed_eq, Run.ok_bind, decide_eq_false hl.uncompressed]
  rfl

theorem HasPayload.dispatchCmp_text {ts : List Token} {g : Form} {u : List UInt8}
    (hl : sv.HasPayload left ts) (hr : sv.HasText right g u) (collid : Oid) :
    sv.dispatchCmp left right collid
      = (fun v => (v, left, right)) <$> sv.hocotextMixedCmp left right collid := by
  unfold dispatchCmp
  simp only [hr.datumPacked, hl.header.datumPacked_of_compressed, hl.header.varattIsCompressed_eq,
    hr.header.varattIsCompressed_eq, Run.ok_bind, decide_eq_false hr.uncompressed]
  rfl

theorem HasPayload.dispatchCmp_payload {ts us : List Token} (hl : sv.HasPayload left ts)
    (hr : sv.HasPayload right us) (collid : Oid) :
    sv.dispatchCmp left right collid
      = (fun v => (v, left, right)) <$> sv.hocotextHocoCmp left right collid := by
  unfold dispatchCmp
  simp only [hl.header.datumPacked_of_compressed, hr.header.datumPacked_of_compressed,
    hl.header.varattIsCompressed_eq, hr.header.varattIsCompressed_eq, Run.ok_bind]
  rfl

end Datums

end Server

/-! ## Values -/

/-- **A value of the type**: a text stored plain, or as a payload of non-empty
tokens. The sizes fit their headers, and so does the size of the text. -/
inductive HocoValue where
  | plain (t : List UInt8) (fits : t.length + 4 < 2 ^ 30)
  | rle (ts : List Token) (nonempty : AllNonempty ts) (fits : (encode ts).length + 8 < 2 ^ 30)
      (raw : (expand ts).length + 4 < 2 ^ 30)

namespace HocoValue

/-- The text a value stands for. -/
def text : HocoValue → List UInt8
  | plain t _ => t
  | rle ts _ _ _ => expand ts

/-- The datum a value is stored as. -/
def datum (sv : Server) : HocoValue → Mem
  | plain t _ => sv.plainDatum t
  | rle ts _ _ _ => sv.compressedDatum toastRleCompressionId (expand ts).length (encode ts)

theorem text_length (x : HocoValue) : x.text.length + 4 < 2 ^ 30 := by
  cases x with
  | plain t fits => exact fits
  | rle ts nonempty fits raw => exact raw

variable (sv : Server)

/-- **Every pair of values is compared as their texts**, whichever of the three
functions the forms lead to. -/
theorem dispatchCmp_eq (x y : HocoValue) (restx resty : Mem) {collid : Oid} (hcol : collid ≠ 0) :
    sv.dispatchCmp (x.datum sv ++ restx) (y.datum sv ++ resty) collid
      = .ok (sign (sv.order x.text y.text), x.datum sv ++ restx, y.datum sv ++ resty) := by
  cases x with
  | plain t fitst =>
    have hx := sv.hasText_plainDatum fitst restx
    have hreads : sv.varsize4B (sv.plainDatum t ++ restx) = _ := hx.header.reads
    cases y with
    | plain u fitsu =>
      have hy := sv.hasText_plainDatum fitsu resty
      rw [datum, datum, hx.dispatchCmp_text hy, hx.hocotextCommonCmp_eq hy,
        Server.checkCollation_eq hcol]
      rfl
    | rle us neu fitsu rawu =>
      have hy := sv.hasPayload_compressedDatum neu fitsu toastRleCompressionId
        (expand us).length resty
      rw [datum, datum, hx.dispatchCmp_payload hy,
        hy.hocotextMixedCmp_right hx.header hx.uncompressed, hreads, Run.ok_bind,
        Server.checkCollation_eq hcol, Run.ok_bind, hx.neg_scan_eq]
      rfl
  | rle ts net fitst rawt =>
    have hx := sv.hasPayload_compressedDatum net fitst toastRleCompressionId
      (expand ts).length restx
    cases y with
    | plain u fitsu =>
      have hy := sv.hasText_plainDatum fitsu resty
      have hreads : sv.varsize4B (sv.plainDatum u ++ resty) = _ := hy.header.reads
      rw [datum, datum, hx.dispatchCmp_text hy,
        hx.hocotextMixedCmp_left hy.header hy.uncompressed, hreads, Run.ok_bind,
        Server.checkCollation_eq hcol, Run.ok_bind, hy.scan_eq]
      rfl
    | rle us neu fitsu rawu =>
      have hy := sv.hasPayload_compressedDatum neu fitsu toastRleCompressionId
        (expand us).length resty
      rw [datum, datum, hx.dispatchCmp_payload hy, hx.hocotextHocoCmp_eq hcol hy]
      rfl

/-- **Comparison on stored values agrees with plain comparison on the texts**:
`hocotext_cmp` returns what `hocotext_common_cmp` returns on the two texts in
full, which is their lexicographic comparison, and every operator returns its
predicate of that. -/
theorem hocotextCmp_eq_hocotextCommonCmp (x y : HocoValue) (restx resty restt restu : Mem)
    (collid : Oid) (hcol : collid ≠ 0) :
    ∃ c : ℤ, c = sign (sv.order x.text y.text)
      ∧ sv.hocotextCommonCmp (sv.plainDatum x.text ++ restt) (sv.plainDatum y.text ++ restu)
          collid = .ok c
      ∧ sv.hocotextCmp (x.datum sv ++ restx) (y.datum sv ++ resty) collid = .ok c
      ∧ sv.hocotextEq (x.datum sv ++ restx) (y.datum sv ++ resty) collid = .ok (decide (c = 0))
      ∧ sv.hocotextNq (x.datum sv ++ restx) (y.datum sv ++ resty) collid = .ok (decide (c ≠ 0))
      ∧ sv.hocotextLt (x.datum sv ++ restx) (y.datum sv ++ resty) collid = .ok (decide (c < 0))
      ∧ sv.hocotextLe (x.datum sv ++ restx) (y.datum sv ++ resty) collid = .ok (decide (c ≤ 0))
      ∧ sv.hocotextGt (x.datum sv ++ restx) (y.datum sv ++ resty) collid = .ok (decide (c > 0))
      ∧ sv.hocotextGe (x.datum sv ++ restx) (y.datum sv ++ resty) collid
          = .ok (decide (c ≥ 0)) := by
  have hcommon := (sv.hasText_plainDatum x.text_length restt).hocotextCommonCmp_eq
    (sv.hasText_plainDatum y.text_length restu) collid
  rw [Server.checkCollation_eq hcol, Run.ok_bind] at hcommon
  refine ⟨_, rfl, hcommon, ?_⟩
  simp only [Server.hocotextCmp, Server.hocotextEq, Server.hocotextNq, Server.hocotextLt,
    Server.hocotextLe, Server.hocotextGt, Server.hocotextGe,
    dispatchCmp_eq sv x y restx resty hcol, Run.ok_bind]
  exact ⟨rfl, rfl, rfl, rfl, rfl, rfl, rfl⟩

/-- A run of three against a text of four: the shorter is the smaller. -/
theorem hocotextCmp_eq_hocotextCommonCmp_run :
    (100 : Oid) ≠ 0 ∧ Server.littleEndian.hocotextLt
      (datum .littleEndian (rle [.run 97 0] (by decide) (by decide) (by decide)))
      (datum .littleEndian (plain [97, 97, 97, 97] (by decide))) 100 = .ok true := by
  refine ⟨by decide, ?_⟩
  obtain ⟨c, hc, -, -, -, -, hlt, -⟩ := hocotextCmp_eq_hocotextCommonCmp .littleEndian
    (rle [.run 97 0] (by decide) (by decide) (by decide)) (plain [97, 97, 97, 97] (by decide))
    [] [] [] [] 100 (by decide)
  have hval : c = -1 := hc.trans (by decide)
  rw [hval, List.append_nil, List.append_nil] at hlt
  exact hlt

end HocoValue
