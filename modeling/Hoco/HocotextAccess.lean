import Hoco.HocotextLocate

/-!
# What the comparisons touch

`hocotext_hoco_cmp` and `hocotext_mixed_cmp` copy every token of a payload into a
window of 131 bytes and compare from there. In `Hoco.HocotextCompare` the bytes of a
window that are not yet compared are a list. Here the window is a block of memory with
an index, and the functions are run with a trace of what they touch: the bytes of
the two operands, by the distance from the start of the datum, and the bytes of the
windows, by their index.

The functions have the names they have there, in the namespace `Walk`. The trace
starts where the walk does, behind the header, which is read before. That they compute
the same is `Walk.result_hocotextHocoCmp` and `Walk.result_hocotextMixedCmp`.

The windows are large enough for any mark, whatever it marks: a run has 130 bytes at
most, and the terminator goes behind it. For the bytes of an operand it matters that
the payload is one of tokens, and nothing else. `Paced` is what is needed: from a
position before the end, the next token lies inside and leads to such a position again
or to the end. A well-formed payload has it (`Feeds.paced`), and so has any memory of
which nothing is asked, which is why the other operand can be anything.

The loops are cut off after a number of turns that they do not reach
(`Walk.hocoFrom_eq_of_le`, `Walk.mixedFrom_eq_of_le`), again for any operands, so that
the traces are complete.
-/

open Rle

/-- A window: the 131 bytes `cur_lef` points to, the index of `cur_lef_p`, and
`lef_count`. -/
structure Window where
  bytes : Block
  pos : ℕ
  count : ℕ

namespace Window

/-- The bytes of a window that are not yet compared. -/
def rest (w : Window) : List UInt8 := (List.range w.count).map fun i => w.bytes (w.pos + i)

/-- `cur_lef_p++` and `lef_count--`. -/
def next (w : Window) : Window := ⟨w.bytes, w.pos + 1, w.count - 1⟩

/-- A window that is allocated and not filled. -/
def fresh (bytes : Block) : Window := ⟨bytes, 0, 0⟩

theorem rest_eq_nil_iff {w : Window} : w.rest = [] ↔ w.count = 0 := by
  rw [rest, List.map_eq_nil_iff, List.range_eq_nil]

theorem count_pos_iff {w : Window} : w.count > 0 ↔ w.rest ≠ [] := by
  rw [ne_eq, rest_eq_nil_iff]
  omega

theorem rest_of_pos {w : Window} (h : 0 < w.count) : w.rest = w.bytes w.pos :: w.next.rest := by
  obtain ⟨n, hn⟩ := Nat.exists_eq_add_of_lt h
  rw [Nat.zero_add] at hn
  rw [rest, rest, next, hn, List.range_succ_eq_map, List.map_cons, List.map_map, Nat.add_sub_cancel]
  refine congrArg (w.bytes w.pos :: ·) (List.map_congr_left fun i _ => ?_)
  show w.bytes (w.pos + (i + 1)) = w.bytes (w.pos + 1 + i)
  rw [Nat.add_assoc, Nat.add_comm 1]

/-- Bytes stored at the start of a window, whatever is stored behind them. -/
theorem rest_store (block : Block) (bytes more : List UInt8) :
    rest ⟨(block.store 0 bytes).store bytes.length more, 0, bytes.length⟩ = bytes := by
  refine List.ext_getElem (by simp [rest]) fun i hi hi' => ?_
  simp [rest, Block.store, hi', Nat.not_le.mpr hi']

end Window

/-- Storing bytes one after the other. -/
theorem Block.store_cons (block : Block) (i : ℕ) (b : UInt8) (bs : List UInt8) :
    block.store i (b :: bs) = (block.store i [b]).store (i + 1) bs := by
  funext j
  unfold Block.store
  rcases Nat.lt_trichotomy i j with hlt | rfl | hgt
  · obtain ⟨n, rfl⟩ := Nat.exists_eq_add_of_lt hlt
    rw [if_pos (by omega), if_pos (by omega), if_pos (by omega),
      show i + n + 1 - i = n + 1 by omega, show i + n + 1 - (i + 1) = n by omega]
    simp
  · rw [if_pos (Nat.le_refl i), if_neg (by omega), if_pos (Nat.le_refl i), Nat.sub_self]
    rfl
  · rw [if_neg (by omega), if_neg (by omega), if_neg (by omega)]

theorem Block.store_nil (block : Block) (i : ℕ) : block.store i [] = block := by
  funext j
  simp [Block.store]

/-- A mapping of the state behind a loop. -/
def Exit.map {σ τ : Type} (f : σ → τ) : Exit σ → Exit τ
  | .ret v => .ret v
  | .fall s => .fall (f s)

/-- Two programs that go on in the same way from corresponding results. -/
theorem Run.bind_eq_of_map_eq {α β γ : Type} {r : Run α} {r' : Run β} {f : α → β}
    {k : α → Run γ} {k' : β → Run γ} (h : f <$> r = r') (hk : ∀ a, k a = k' (f a)) :
    r >>= k = r' >>= k' := by
  subst h
  cases r with
  | error e => rfl
  | ok a => exact hk a

namespace Server

namespace Walk

open Traced

/-! ## The functions -/

/-- Reading a byte of a window. -/
def loadWindow (side : Side) (block : Block) (i : ℕ) : Walk UInt8 := do
  touch [.window side i]
  return block i

/-- Storing bytes in a window. -/
def storeWindow (side : Side) (block : Block) (i : ℕ) (bytes : List UInt8) : Walk Block := do
  touch ((List.range bytes.length).map fun j => .window side (i + j))
  return block.store i bytes

/-- The macro `repeat_buf_copy`, from a byte of an operand to a window. -/
def repeatBufCopy (side : Side) (m : Mem) (p : ℕ) : ℕ → ℕ → Block → Walk Block
  | 0, _, block => return block
  | count + 1, i, block => do
    let b ← load side m p
    let block ← storeWindow side block i [b]
    repeatBufCopy side m p count (i + 1) block

/-- Reading the token at `p` into a window. In the second loop of `hocotext_hoco_cmp`
a literal is not terminated. -/
def readToken (side : Side) (m : Mem) (terminated : Bool) (p : ℕ) (block : Block) :
    Walk (ℕ × Window) := do
  let mark ← loadMark side m p
  let count := markCount mark
  if markIsRun mark then
    let block ← repeatBufCopy side m (p + 1) count 0 block
    let block ← storeWindow side block count [0]
    return (p + 2, ⟨block, 0, count⟩)
  else
    let bytes ← copy side m (p + 1) count
    let block ← storeWindow side block 0 bytes
    let block ← if terminated then storeWindow side block count [0] else pure block
    return (p + 1 + count, ⟨block, 0, count⟩)

/-- The start of a turn. -/
def refill (side : Side) (m : Mem) (terminated : Bool) (p : ℕ) (w : Window) : Walk (ℕ × Window) :=
  if w.count = 0 then readToken side m terminated p w.bytes else return (p, w)

variable (sv : Server)

/-- The inner loop of `hocotext_hoco_cmp`. It makes as many turns as the left window
has bytes, at most. -/
def matchWindows : ℕ → Window → Window → Walk (Exit (Window × Window))
  | 0, lef, righ => return .fall (lef, righ)
  | turns + 1, lef, righ =>
    if lef.count > 0 ∧ righ.count > 0 then do
      let l ← loadWindow .left lef.bytes lef.pos
      let r ← loadWindow .right righ.bytes righ.pos
      if l = r then matchWindows turns lef.next righ.next
      else return .ret (sv.charCmp l r)
    else return .fall (lef, righ)

/-- The variables of `hocotext_hoco_cmp`. -/
structure HocoWalk where
  lefp : ℕ
  lef : Window
  righp : ℕ
  righ : Window

/-- The state with the windows as lists. -/
def HocoWalk.state (s : HocoWalk) : HocoState := ⟨s.lefp, s.lef.rest, s.righp, s.righ.rest⟩

/-- The loops of `hocotext_hoco_cmp`. -/
def hocoLoop (left right : Mem) (terminated : Bool) (goOn : HocoWalk → Bool) :
    ℕ → HocoWalk → Walk (Exit HocoWalk)
  | 0, s => return .fall s
  | fuel + 1, s =>
    if goOn s then do
      let (lefp, lef) ← refill .left left terminated s.lefp s.lef
      let (righp, righ) ← refill .right right true s.righp s.righ
      match ← matchWindows sv lef.count lef righ with
      | .ret v => return .ret v
      | .fall (lef, righ) => hocoLoop left right terminated goOn fuel { lefp, lef, righp, righ }
    else return .fall s

/-- The body of `hocotext_hoco_cmp` from its first loop on. -/
def hocoFrom (left right : Mem) (lefend righend fuel : ℕ) (s : HocoWalk) : Walk ℤ := do
  match ← hocoLoop sv left right true (fun s => s.lefp < lefend ∧ s.righp < righend) fuel s with
  | .ret v => return v
  | .fall s =>
  match ← hocoLoop sv left right false (fun s => s.lefp < lefend ∧ s.righ.count > 0) fuel s with
  | .ret v => return v
  | .fall s =>
  match ← hocoLoop sv left right true (fun s => s.righp < righend ∧ s.lef.count > 0) fuel s with
  | .ret v => return v
  | .fall s =>
    if s.lefp < lefend ∨ s.lef.count > 0 then return 1
    else if s.righp < righend ∨ s.righ.count > 0 then return -1
    else return 0

/-- **`hocotext_hoco_cmp`**, with what the blocks for the windows hold. -/
def hocotextHocoCmp (curLef curRigh : Block) (left right : Mem) (collid : Oid) : Walk ℤ := do
  lift (checkCollation collid)
  let lefend ← lift (sv.varsizeAny left)
  let righend ← lift (sv.varsizeAny right)
  hocoFrom sv left right lefend righend (lefend + righend)
    ⟨varhdrszCompressed, .fresh curLef, varhdrszCompressed, .fresh curRigh⟩

/-- The side of the compressed operand of `hocotext_mixed_cmp`. -/
def lefSide (exchange : Bool) : Side := if exchange then .right else .left

/-- The side of the plain one. -/
def righSide (exchange : Bool) : Side := if exchange then .left else .right

/-- The inner loop of `hocotext_mixed_cmp`, and the one behind the outer loop. -/
def mixedWindow (righ : Mem) (righend : ℕ) (exchange : Bool) :
    ℕ → Window → ℕ → Walk (Exit (Window × ℕ))
  | 0, lef, righp => return .fall (lef, righp)
  | turns + 1, lef, righp =>
    if lef.count > 0 ∧ righp < righend then do
      let l ← loadWindow (lefSide exchange) lef.bytes lef.pos
      let r ← load (righSide exchange) righ righp
      if l = r then mixedWindow righ righend exchange turns lef.next (righp + 1)
      else return .ret (if exchange then sv.exchangedCharCmp l r else sv.charCmp l r)
    else return .fall (lef, righp)

/-- The variables of `hocotext_mixed_cmp`. -/
structure MixedWalk where
  lefp : ℕ
  lef : Window
  righp : ℕ

/-- The state with the window as a list. -/
def MixedWalk.state (s : MixedWalk) : MixedState := ⟨s.lefp, s.lef.rest, s.righp⟩

/-- The outer loop of `hocotext_mixed_cmp`. -/
def mixedLoop (lef righ : Mem) (lefend righend : ℕ) (exchange : Bool) :
    ℕ → MixedWalk → Walk (Exit MixedWalk)
  | 0, s => return .fall s
  | fuel + 1, s =>
    if s.lefp < lefend ∧ s.righp < righend then do
      let (lefp, w) ← refill (lefSide exchange) lef true s.lefp s.lef
      match ← mixedWindow sv righ righend exchange w.count w s.righp with
      | .ret v => return .ret v
      | .fall (w, righp) => mixedLoop lef righ lefend righend exchange fuel ⟨lefp, w, righp⟩
    else return .fall s

/-- The body of `hocotext_mixed_cmp` behind its outer loop. -/
def mixedRest (righ : Mem) (lefend righend : ℕ) (exchange : Bool) (s : MixedWalk) : Walk ℤ := do
  match ← mixedWindow sv righ righend exchange s.lef.count s.lef s.righp with
  | .ret v => return v
  | .fall (lef, righp) =>
    if s.lefp < lefend ∨ lef.count > 0 then return (if exchange then -1 else 1)
    else if righp < righend then return (if exchange then 1 else -1)
    else return 0

/-- The body of `hocotext_mixed_cmp` from its outer loop on. -/
def mixedFrom (lef righ : Mem) (lefend righend : ℕ) (exchange : Bool) (fuel : ℕ)
    (s : MixedWalk) : Walk ℤ := do
  match ← mixedLoop sv lef righ lefend righend exchange fuel s with
  | .ret v => return v
  | .fall s => mixedRest sv righ lefend righend exchange s

/-- **`hocotext_mixed_cmp`**, with what the block for the window holds. -/
def hocotextMixedCmp (cur : Block) (left right : Mem) (collid : Oid) : Walk ℤ := do
  let exchange ← lift (do
    if ← sv.varattIsCompressed left then pure false else sv.varattIsCompressed right)
  let lef := if exchange then right else left
  let righ := if exchange then left else right
  let lefend ← lift (sv.varsizeAny lef)
  let righp := sv.vardataAny (← lift (righ.load 0))
  let righend ← lift (sv.varsize4B righ)
  lift (checkCollation collid)
  mixedFrom sv lef righ lefend righend exchange lefend ⟨varhdrszCompressed, .fresh cur, righp⟩

/-- **`hocotext_cmp`**, with what the blocks for the windows hold. There is a trace of the
comparisons that walk over tokens. -/
def hocotextCmp (curLef curRigh : Block) (left right : Mem) (collid : Oid) : Walk ℤ := do
  let leftDatum ← lift (sv.hocotextDatumPacked left)
  let rightDatum ← lift (sv.hocotextDatumPacked right)
  let isCompLef ← lift (sv.varattIsCompressed leftDatum)
  let isCompRigh ← lift (sv.varattIsCompressed rightDatum)
  if isCompLef && isCompRigh then hocotextHocoCmp sv curLef curRigh leftDatum rightDatum collid
  else if isCompLef || isCompRigh then hocotextMixedCmp sv curLef leftDatum rightDatum collid
  else lift (sv.hocotextCommonCmp leftDatum rightDatum collid)

/-! ## The functions compute what they did -/

section Results

variable {m left right : Mem} {side : Side} {p : ℕ}

@[simp] theorem result_loadWindow (block : Block) (i : ℕ) :
    (loadWindow side block i).result = .ok (block i) := rfl

@[simp] theorem result_storeWindow (block : Block) (i : ℕ) (bytes : List UInt8) :
    (storeWindow side block i bytes).result = .ok (block.store i bytes) := rfl

theorem result_repeatBufCopy {b : UInt8} (hb : m.load p = .ok b) (count i : ℕ) (block : Block) :
    (repeatBufCopy side m p count i block).result
      = .ok (block.store i (List.replicate count b)) := by
  induction count generalizing i block with
  | zero => rw [List.replicate_zero, Block.store_nil]; rfl
  | succ count ih =>
    rw [repeatBufCopy, result_bind, result_load, hb, Run.ok_bind, result_bind, result_storeWindow,
      Run.ok_bind, ih, List.replicate_succ, ← Block.store_cons]

/-- **Reading a token into the window** gives the bytes it stands for. -/
theorem result_readToken (terminated : Bool) (block : Block) :
    (fun r => (r.1, r.2.rest)) <$> (readToken side m terminated p block).result
      = Server.readToken m p := by
  unfold readToken Server.readToken
  rw [result_bind, result_loadMark]
  cases m.load p with
  | error e => rfl
  | ok mark =>
    simp only [Run.ok_bind, markCount, markIsRun]
    by_cases hrun : 128 ≤ mark.toNat
    · simp only [hrun, decide_true, if_true]
      cases hb : m.load (p + 1) with
      | error e =>
        rw [result_bind, Nat.add_comm _ threshold, threshold, Nat.add_comm 3, repeatBufCopy,
          result_bind, result_load, hb]
        rfl
      | ok b =>
        rw [result_bind, result_repeatBufCopy hb]
        have hrest := Window.rest_store block
          (List.replicate ((mark &&& 0x7F).toNat + threshold) b) [0]
        rw [List.length_replicate] at hrest
        exact congrArg (fun l => Except.ok (p + 2, l)) hrest
    · have hmask : (mark &&& 0x7F).toNat = mark.toNat := by
        rw [UInt8.toNat_and, show (0x7F : UInt8).toNat = 2 ^ 7 - 1 from rfl,
          Nat.and_two_pow_sub_one_eq_mod]
        omega
      simp only [hrun, decide_false, Bool.false_eq_true, if_false, hmask]
      rw [result_bind, result_copy]
      cases hbytes : m.copy (p + 1) mark.toNat with
      | error e => rfl
      | ok bytes =>
        have hlen := (Mem.drop_of_copy hbytes).1
        have hrest := Window.rest_store block bytes
        rw [hlen] at hrest
        cases terminated with
        | true => exact congrArg (fun l => Except.ok (p + 1 + mark.toNat, l)) (hrest [0])
        | false =>
          have hrest := hrest []
          rw [Block.store_nil] at hrest
          exact congrArg (fun l => Except.ok (p + 1 + mark.toNat, l)) hrest

theorem result_refill (terminated : Bool) (w : Window) :
    (fun r => (r.1, r.2.rest)) <$> (refill side m terminated p w).result
      = Server.refill m p w.rest := by
  unfold refill Server.refill
  by_cases hzero : w.count = 0
  · rw [if_pos hzero, if_pos (Window.rest_eq_nil_iff.mpr hzero)]
    exact result_readToken terminated w.bytes
  · rw [if_neg hzero, if_neg (mt Window.rest_eq_nil_iff.mp hzero)]
    rfl

/-- **The comparison of the windows** is the one of the bytes in them. -/
theorem result_matchWindows (turns : ℕ) (lef righ : Window) (hturns : lef.count ≤ turns) :
    Exit.map (fun r => (r.1.rest, r.2.rest)) <$> (matchWindows sv turns lef righ).result
      = .ok (sv.matchWindows lef.rest righ.rest) := by
  induction turns generalizing lef righ with
  | zero =>
    rw [Window.rest_eq_nil_iff.mpr (Nat.le_zero.mp hturns)]
    show Except.ok (Exit.fall (lef.rest, righ.rest)) = _
    rw [Window.rest_eq_nil_iff.mpr (Nat.le_zero.mp hturns), Server.matchWindows]
    simp
  | succ turns ih =>
    rw [matchWindows]
    by_cases hboth : lef.count > 0 ∧ righ.count > 0
    · rw [if_pos hboth, result_bind, result_loadWindow, Run.ok_bind, result_bind,
        result_loadWindow, Run.ok_bind, Window.rest_of_pos hboth.1, Window.rest_of_pos hboth.2,
        Server.matchWindows]
      by_cases heq : lef.bytes lef.pos = righ.bytes righ.pos
      · rw [if_pos heq, if_pos heq]
        exact ih lef.next righ.next (show lef.count - 1 ≤ turns by omega)
      · rw [if_neg heq, if_neg heq]
        rfl
    · rw [if_neg hboth]
      show Except.ok (Exit.fall (lef.rest, righ.rest)) = _
      rcases Nat.eq_zero_or_pos lef.count with hzero | hpos
      · rw [Window.rest_eq_nil_iff.mpr hzero, Server.matchWindows]
        simp
      · have hzero : righ.count = 0 := by omega
        rw [Window.rest_eq_nil_iff.mpr hzero, Server.matchWindows]
        simp

/-- **A loop of `hocotext_hoco_cmp`** goes through the states it went through. -/
theorem result_hocoLoop {goOn : HocoWalk → Bool} {goOn' : HocoState → Bool}
    (hgo : ∀ s : HocoWalk, goOn s = goOn' s.state) (terminated : Bool) (fuel : ℕ) (s : HocoWalk) :
    Exit.map HocoWalk.state <$> (hocoLoop sv left right terminated goOn fuel s).result
      = sv.hocoLoop left right goOn' fuel s.state := by
  induction fuel generalizing s with
  | zero => rfl
  | succ fuel ih =>
    rw [hocoLoop, Server.hocoLoop, ← hgo]
    split
    · rw [result_bind, map_bind]
      refine Run.bind_eq_of_map_eq (result_refill terminated s.lef) fun r => ?_
      obtain ⟨lefp, lef⟩ := r
      rw [result_bind, map_bind]
      refine Run.bind_eq_of_map_eq (result_refill true s.righ) fun r => ?_
      obtain ⟨righp, righ⟩ := r
      have hmatch := result_matchWindows sv lef.count lef righ (Nat.le_refl _)
      rw [result_bind]
      cases hres : (matchWindows sv lef.count lef righ).result with
      | error e =>
        rw [hres] at hmatch
        cases hmatch
      | ok e =>
        rw [hres] at hmatch
        simp only [← Except.ok.inj hmatch, Run.ok_bind]
        cases e with
        | ret v => rfl
        | fall w => exact ih ⟨lefp, w.1, righp, w.2⟩
    · rfl

/-- **`hocotext_hoco_cmp` with windows of bytes returns what it did**, whatever the
windows hold at first. -/
theorem result_hocotextHocoCmp (curLef curRigh : Block) (left right : Mem) (collid : Oid) :
    (hocotextHocoCmp sv curLef curRigh left right collid).result
      = sv.hocotextHocoCmp left right collid := by
  unfold hocotextHocoCmp hocoFrom Server.hocotextHocoCmp
  simp only [result_bind, result_lift]
  refine bind_congr fun _ => bind_congr fun lefend => bind_congr fun righend => ?_
  refine Run.bind_eq_of_map_eq (f := Exit.map HocoWalk.state) ?_ fun e => ?_
  · refine result_hocoLoop sv ?_ true _ _
    exact fun s => rfl
  cases e with
  | ret v => rfl
  | fall s =>
  refine (result_bind).trans (Run.bind_eq_of_map_eq (result_hocoLoop sv
    (fun s => decide_eq_decide.mpr (and_congr_right fun _ => Window.count_pos_iff)) false _ s)
    fun e => ?_)
  cases e with
  | ret v => rfl
  | fall s =>
  refine (result_bind).trans (Run.bind_eq_of_map_eq (result_hocoLoop sv
    (fun s => decide_eq_decide.mpr (and_congr_right fun _ => Window.count_pos_iff)) true _ s)
    fun e => ?_)
  cases e with
  | ret v => rfl
  | fall s =>
    simp only [Window.count_pos_iff, Exit.map, HocoWalk.state]
    split_ifs <;> rfl

/-- The same for the window and the plain operand. -/
theorem result_mixedWindow (righ : Mem) (righend : ℕ) (exchange : Bool) (turns : ℕ)
    (lef : Window) (righp : ℕ) (hturns : lef.count ≤ turns) :
    Exit.map (fun r => (r.1.rest, r.2))
        <$> (mixedWindow sv righ righend exchange turns lef righp).result
      = sv.mixedWindow righ righend exchange lef.rest righp := by
  induction turns generalizing lef righp with
  | zero =>
    show Except.ok (Exit.fall (lef.rest, righp)) = _
    rw [Window.rest_eq_nil_iff.mpr (Nat.le_zero.mp hturns)]
    rfl
  | succ turns ih =>
    rw [mixedWindow]
    rcases Nat.eq_zero_or_pos lef.count with hzero | hpos
    · rw [if_neg (by omega)]
      show Except.ok (Exit.fall (lef.rest, righp)) = _
      rw [Window.rest_eq_nil_iff.mpr hzero]
      rfl
    · by_cases hlt : righp < righend
      · rw [if_pos ⟨hpos, hlt⟩, result_bind, result_loadWindow, Run.ok_bind, result_bind,
          result_load, Window.rest_of_pos hpos, Server.mixedWindow, if_pos hlt]
        cases righ.load righp with
        | error e => rfl
        | ok r =>
          simp only [Run.ok_bind]
          by_cases heq : lef.bytes lef.pos = r
          · rw [if_pos heq, if_pos heq]
            exact ih lef.next (righp + 1) (show lef.count - 1 ≤ turns by omega)
          · rw [if_neg heq, if_neg heq]
            rfl
      · rw [if_neg (fun h => hlt h.2), Window.rest_of_pos hpos, Server.mixedWindow, if_neg hlt,
          ← Window.rest_of_pos hpos]
        rfl

theorem result_mixedLoop (lef righ : Mem) (lefend righend : ℕ) (exchange : Bool) (fuel : ℕ)
    (s : MixedWalk) :
    Exit.map MixedWalk.state <$> (mixedLoop sv lef righ lefend righend exchange fuel s).result
      = sv.mixedLoop lef righ lefend righend exchange fuel s.state := by
  induction fuel generalizing s with
  | zero => rfl
  | succ fuel ih =>
    rw [mixedLoop, Server.mixedLoop]
    by_cases hgo : s.lefp < lefend ∧ s.righp < righend
    · rw [if_pos hgo, if_pos (show s.state.lefp < lefend ∧ s.state.righp < righend from hgo),
        result_bind, map_bind]
      refine Run.bind_eq_of_map_eq (result_refill true s.lef) fun r => ?_
      obtain ⟨lefp, w⟩ := r
      rw [result_bind, map_bind]
      refine Run.bind_eq_of_map_eq
        (result_mixedWindow sv righ righend exchange w.count w s.righp (Nat.le_refl _)) fun e => ?_
      cases e with
      | ret v => rfl
      | fall r => exact ih ⟨lefp, r.1, r.2⟩
    · rw [if_neg hgo, if_neg (show ¬ (s.state.lefp < lefend ∧ s.state.righp < righend) from hgo)]
      rfl

theorem result_mixedFrom (lef righ : Mem) (lefend righend : ℕ) (exchange : Bool) (fuel : ℕ)
    (s : MixedWalk) :
    (mixedFrom sv lef righ lefend righend exchange fuel s).result
      = sv.mixedFrom lef righ lefend righend exchange fuel s.state := by
  unfold mixedFrom Server.mixedFrom
  rw [result_bind]
  refine Run.bind_eq_of_map_eq (result_mixedLoop sv _ _ _ _ _ _ _) fun e => ?_
  cases e with
  | ret v => rfl
  | fall s =>
    show (mixedRest sv _ _ _ _ s).result = sv.mixedRest _ _ _ _ s.state
    unfold mixedRest Server.mixedRest
    rw [result_bind]
    refine Run.bind_eq_of_map_eq
      (result_mixedWindow sv _ _ _ _ s.lef s.righp (Nat.le_refl _)) fun e => ?_
    cases e with
    | ret v => rfl
    | fall r =>
      simp only [Window.count_pos_iff, Exit.map, MixedWalk.state]
      split_ifs <;> rfl

/-- **`hocotext_mixed_cmp` with a window of bytes returns what it did.** -/
theorem result_hocotextMixedCmp (cur : Block) (left right : Mem) (collid : Oid) :
    (hocotextMixedCmp sv cur left right collid).result
      = sv.hocotextMixedCmp left right collid := by
  unfold hocotextMixedCmp Server.hocotextMixedCmp
  simp only [result_bind, result_lift, bind_assoc, result_mixedFrom]
  refine bind_congr fun isCompressed => ?_
  cases isCompressed <;> rfl

/-- **So does `hocotext_cmp`.** -/
theorem result_hocotextCmp (curLef curRigh : Block) (left right : Mem) (collid : Oid) :
    (hocotextCmp sv curLef curRigh left right collid).result
      = sv.hocotextCmp left right collid := by
  unfold hocotextCmp Server.hocotextCmp dispatchCmp
  simp only [result_bind, result_lift, bind_assoc]
  refine bind_congr fun leftDatum => bind_congr fun rightDatum => bind_congr fun isCompLef =>
    bind_congr fun isCompRigh => ?_
  have hfst : ∀ r : Run ℤ,
      r = (r >>= fun v => pure (v, leftDatum, rightDatum)) >>= fun x => pure x.1 := fun r => by
    cases r <;> rfl
  cases isCompLef <;> cases isCompRigh
  · exact hfst _
  · exact (result_hocotextMixedCmp ..).trans (hfst _)
  · exact (result_hocotextMixedCmp ..).trans (hfst _)
  · exact (result_hocotextHocoCmp ..).trans (hfst _)

end Results

/-! ## The fuel is enough

Every turn of a loop reads a token, or ends the loop. With more fuel the functions are
therefore the same, traces included. This needs nothing of the operands. -/

section Fuel

variable {m left right : Mem} {side : Side} {terminated : Bool} {p : ℕ}

theorem lt_of_readToken {block : Block} {r : ℕ × Window}
    (h : (readToken side m terminated p block).result = .ok r) : p < r.1 := by
  have hread := (@result_readToken m side p terminated block).symm
  rw [h] at hread
  unfold Server.readToken at hread
  obtain ⟨mark, -, hread⟩ := Run.bind_eq_ok.mp hread
  split at hread
  · obtain ⟨b, -, hb⟩ := Run.bind_eq_ok.mp hread
    have hnext := congrArg Prod.fst (Except.ok.inj hb)
    dsimp only at hnext
    omega
  · obtain ⟨bytes, -, hbytes⟩ := Run.bind_eq_ok.mp hread
    have hnext := congrArg Prod.fst (Except.ok.inj hbytes)
    dsimp only at hnext
    omega

/-- Where the window is empty, the start of a turn reads a token. -/
theorem le_of_refill {w : Window} {r : ℕ × Window}
    (h : (refill side m terminated p w).result = .ok r) : p ≤ r.1 ∧ (w.count = 0 → p < r.1) := by
  unfold refill at h
  split at h
  · have hlt := lt_of_readToken h
    exact ⟨by omega, fun _ => hlt⟩
  · rename_i hpos
    cases h
    exact ⟨Nat.le_refl p, fun hzero => absurd hzero hpos⟩

/-- The inner loop leaves at most one window with bytes in it. -/
theorem count_of_matchWindows {turns : ℕ} {lef righ l r : Window} (hturns : lef.count ≤ turns)
    (h : (matchWindows sv turns lef righ).result = .ok (.fall (l, r))) :
    l.count = 0 ∨ r.count = 0 := by
  induction turns generalizing lef righ with
  | zero =>
    cases h
    exact Or.inl (Nat.le_zero.mp hturns)
  | succ turns ih =>
    rw [matchWindows] at h
    split at h
    · simp only [result_bind, result_loadWindow, Run.ok_bind] at h
      split at h
      · exact ih (show lef.count - 1 ≤ turns by omega) h
      · cases h
    · cases h
      omega

/-- At most one of the windows has bytes in it. -/
def HocoWalk.Drained (s : HocoWalk) : Prop := s.lef.count = 0 ∨ s.righ.count = 0

theorem drained_of_hocoLoop {goOn : HocoWalk → Bool} {fuel : ℕ} {s s' : HocoWalk}
    (hs : s.Drained)
    (h : (hocoLoop sv left right terminated goOn fuel s).result = .ok (.fall s')) :
    s'.Drained := by
  induction fuel generalizing s with
  | zero =>
    cases h
    exact hs
  | succ fuel ih =>
    rw [hocoLoop] at h
    split at h
    · simp only [result_bind] at h
      obtain ⟨⟨lefp, lef⟩, -, h⟩ := Run.bind_eq_ok.mp h
      obtain ⟨⟨righp, righ⟩, -, h⟩ := Run.bind_eq_ok.mp h
      obtain ⟨e, hmatch, h⟩ := Run.bind_eq_ok.mp h
      cases e with
      | ret v => cases h
      | fall w => exact ih (count_of_matchWindows sv (Nat.le_refl _) hmatch) h
    · cases h
      exact hs

/-- **A loop of `hocotext_hoco_cmp` ends by its own test.** -/
theorem hocoLoop_eq_of_le {lefend righend : ℕ} {goOn : HocoWalk → Bool}
    (hgo : ∀ s, goOn s = true →
      (s.lef.count = 0 → s.lefp < lefend) ∧ (s.righ.count = 0 → s.righp < righend))
    {fuel fuel' : ℕ} {s : HocoWalk} (hs : s.Drained)
    (hfuel : (lefend - s.lefp) + (righend - s.righp) ≤ fuel) (hle : fuel ≤ fuel') :
    hocoLoop sv left right terminated goOn fuel' s
      = hocoLoop sv left right terminated goOn fuel s := by
  induction fuel generalizing fuel' s with
  | zero =>
    have hstop : ¬ goOn s = true := by
      intro htrue
      obtain ⟨hl, hr⟩ := hgo s htrue
      rcases hs with hs | hs
      · have := hl hs
        omega
      · have := hr hs
        omega
    cases fuel' with
    | zero => rfl
    | succ fuel' => rw [hocoLoop, hocoLoop, if_neg hstop]
  | succ fuel ih =>
    obtain ⟨fuel', rfl⟩ : ∃ f, fuel' = f + 1 := ⟨fuel' - 1, by omega⟩
    rw [hocoLoop, hocoLoop]
    split
    · rename_i htrue
      obtain ⟨hl, hr⟩ := hgo s htrue
      refine bind_congr_of_ok fun r hlef => ?_
      obtain ⟨lefp, lef⟩ := r
      refine bind_congr_of_ok fun r hrigh => ?_
      obtain ⟨righp, righ⟩ := r
      refine bind_congr_of_ok fun e he => ?_
      have hlefp := le_of_refill hlef
      have hrighp := le_of_refill hrigh
      dsimp only at hlefp hrighp
      cases e with
      | ret v => rfl
      | fall w =>
        refine ih (count_of_matchWindows sv (Nat.le_refl _) he) ?_ (by omega)
        show (lefend - lefp) + (righend - righp) ≤ fuel
        rcases hs with hs | hs
        · have := hl hs
          have := hlefp.2 hs
          omega
        · have := hr hs
          have := hrighp.2 hs
          omega
    · rfl

/-- **More fuel does not change `hocotext_hoco_cmp`.** -/
theorem hocoFrom_eq_of_le {lefend righend fuel : ℕ} (hfuel : lefend + righend ≤ fuel)
    {s : HocoWalk} (hs : s.Drained) :
    hocoFrom sv left right lefend righend fuel s
      = hocoFrom sv left right lefend righend (lefend + righend) s := by
  have hstop : ∀ s : HocoWalk,
      (lefend - s.lefp) + (righend - s.righp) ≤ lefend + righend := fun s => by omega
  unfold hocoFrom
  rw [hocoLoop_eq_of_le sv (fun s hs => ?_) hs (hstop s) hfuel]
  · refine bind_congr_of_ok fun e he => ?_
    cases e with
    | ret v => rfl
    | fall s =>
    have hs := drained_of_hocoLoop sv hs he
    dsimp only
    rw [hocoLoop_eq_of_le sv (fun s hs => ?_) hs (hstop s) hfuel]
    · refine bind_congr_of_ok fun e he => ?_
      cases e with
      | ret v => rfl
      | fall s =>
      have hs := drained_of_hocoLoop sv hs he
      dsimp only
      rw [hocoLoop_eq_of_le sv (fun s hs => ?_) hs (hstop s) hfuel]
      have hs := of_decide_eq_true hs
      exact ⟨fun hzero => absurd hs.2 (by omega), fun _ => hs.1⟩
    · have hs := of_decide_eq_true hs
      exact ⟨fun _ => hs.1, fun hzero => absurd hs.2 (by omega)⟩
  · exact ⟨fun _ => (of_decide_eq_true hs).1, fun _ => (of_decide_eq_true hs).2⟩

/-- The inner loop of `hocotext_mixed_cmp` uses up the window or the plain operand. -/
theorem used_of_mixedWindow {righ : Mem} {righend turns righp righp' : ℕ} {exchange : Bool}
    {lef w : Window} (hturns : lef.count ≤ turns)
    (h : (mixedWindow sv righ righend exchange turns lef righp).result
      = .ok (.fall (w, righp'))) : w.count = 0 ∨ righend ≤ righp' := by
  induction turns generalizing lef righp with
  | zero =>
    cases h
    exact Or.inl (Nat.le_zero.mp hturns)
  | succ turns ih =>
    rw [mixedWindow] at h
    split at h
    · simp only [result_bind, result_loadWindow, result_load, Run.ok_bind] at h
      obtain ⟨r, -, h⟩ := Run.bind_eq_ok.mp h
      split at h
      · exact ih (show lef.count - 1 ≤ turns by omega) h
      · cases h
    · cases h
      omega

/-- **The outer loop of `hocotext_mixed_cmp` ends by its own test.** -/
theorem mixedLoop_eq_of_le {lef righ : Mem} {lefend righend fuel fuel' : ℕ} {exchange : Bool}
    {s : MixedWalk} (hs : s.lef.count = 0 ∨ righend ≤ s.righp) (hfuel : lefend - s.lefp ≤ fuel)
    (hle : fuel ≤ fuel') :
    mixedLoop sv lef righ lefend righend exchange fuel' s
      = mixedLoop sv lef righ lefend righend exchange fuel s := by
  induction fuel generalizing fuel' s with
  | zero =>
    cases fuel' with
    | zero => rfl
    | succ fuel' => rw [mixedLoop, mixedLoop, if_neg (by omega)]
  | succ fuel ih =>
    obtain ⟨fuel', rfl⟩ : ∃ f, fuel' = f + 1 := ⟨fuel' - 1, by omega⟩
    rw [mixedLoop, mixedLoop]
    split
    · rename_i hgo
      refine bind_congr_of_ok fun r hlef => ?_
      obtain ⟨lefp, w⟩ := r
      refine bind_congr_of_ok fun e he => ?_
      have hlefp := (le_of_refill hlef).2 (hs.resolve_right (by omega))
      dsimp only at hlefp
      cases e with
      | ret v => rfl
      | fall r =>
        refine ih (used_of_mixedWindow sv (Nat.le_refl _) he) ?_ (by omega)
        show lefend - lefp ≤ fuel
        omega
    · rfl

/-- **More fuel does not change `hocotext_mixed_cmp`.** -/
theorem mixedFrom_eq_of_le {lef righ : Mem} {lefend righend fuel : ℕ} {exchange : Bool}
    (hfuel : lefend ≤ fuel) {s : MixedWalk} (hs : s.lef.count = 0) :
    mixedFrom sv lef righ lefend righend exchange fuel s
      = mixedFrom sv lef righ lefend righend exchange lefend s := by
  unfold mixedFrom
  rw [mixedLoop_eq_of_le sv (Or.inl hs) (Nat.sub_le _ _) hfuel]

end Fuel

/-! ## What is touched -/

/-- The size of a window. -/
def windowSize : ℕ := 131

/-- **An access that is in order**: to a byte of an operand that is one of those that may
be read, or to an index inside a window. -/
def Admits (inside : Side → ℕ → Prop) : Access → Prop
  | .byte side i => inside side i
  | .mark side i => inside side i
  | .window _ i => i < windowSize

/-- The bytes of a window that are not yet compared lie inside of it, with one more
behind them. -/
def Fits (w : Window) : Prop := w.pos + w.count < windowSize

/-- What holds of the state behind a loop, if the loop is what ends. -/
def Falls {σ : Type} (P : σ → Prop) : Exit σ → Prop
  | .ret _ => True
  | .fall s => P s

/-- **An operand can be walked over token by token**: from a position that is reached
and lies before the end, the mark and the data behind it are bytes that may be read, and
the position behind them is reached too. -/
structure Paced (m : Mem) (e : ℕ) (inside reached : ℕ → Prop) : Prop where
  mark : ∀ {p : ℕ}, reached p → p < e → inside p
  data : ∀ {p : ℕ} {mark : UInt8}, reached p → p < e → m.load p = .ok mark →
    ∀ i, p < i → i < p + markSize mark → inside i
  next : ∀ {p : ℕ} {mark : UInt8}, reached p → p < e → m.load p = .ok mark →
    reached (p + markSize mark)

/-- Where everything may be read there is nothing to show. -/
theorem paced_of_forall {m : Mem} {e : ℕ} {inside : ℕ → Prop} (h : ∀ i, inside i) :
    Paced m e inside fun _ => True :=
  ⟨fun _ _ => h _, fun _ _ _ _ _ _ => h _, fun _ _ _ => True.intro⟩

theorem markSize_tokenMark (t : Token) : markSize (tokenMark t) = t.encode.length := by
  rw [markSize, markIsRun_tokenMark, markCount_tokenMark]
  cases t <;> rfl

/-- A position in a payload that ends at `e`, with tokens from there to the end. -/
def Reached (m : Mem) (e p : ℕ) : Prop := varhdrszCompressed ≤ p ∧ ∃ ts, Feeds m p e ts

/-- **A payload can be walked over** without a byte outside of it. -/
theorem Feeds.paced (m : Mem) (e : ℕ) :
    Paced m e (fun i => varhdrszCompressed ≤ i ∧ i < e) (Reached m e) := by
  -- the token that starts at a position that is reached, and what is behind it
  have htoken : ∀ {p mark}, (∃ ts, Feeds m p e ts) → p < e → m.load p = .ok mark →
      ∃ ts, Feeds m (p + markSize mark) e ts := by
    rintro p mark ⟨ts, hfeeds⟩ hlt hmark
    obtain ⟨t, ts, rfl⟩ := List.exists_cons_of_ne_nil (hfeeds.lt_iff.mp hlt)
    obtain ⟨rest, hm⟩ := hfeeds.mapped
    have hstop := hfeeds.stops
    rw [encode_cons, List.append_assoc] at hm
    rw [encode_cons, List.length_append] at hstop
    have hload := hm
    rw [encode_eq_mark_cons, List.cons_append] at hload
    rw [Mem.load_of_drop hload] at hmark
    cases hmark
    rw [markSize_tokenMark]
    exact ⟨ts, ((allNonempty_cons t ts).mp hfeeds.nonempty).2, by omega, rest, Mem.drop_add hm⟩
  refine ⟨fun hp hlt => ⟨hp.1, hlt⟩, fun hp hlt hmark i hi hi' => ?_, fun hp hlt hmark => ?_⟩
  · obtain ⟨ts, hfeeds⟩ := htoken hp.2 hlt hmark
    have hstop := hfeeds.stops
    have hge := hp.1
    exact ⟨by omega, by omega⟩
  · exact ⟨Nat.le_trans hp.1 (Nat.le_add_right _ _), htoken hp.2 hlt hmark⟩

section Touches

variable {inside : Side → ℕ → Prop} {m left right : Mem} {side : Side}

theorem touches_load {i : ℕ} {Q : UInt8 → Prop} :
    Touches (Admits inside) (load side m i) Q
      ↔ inside side i ∧ ∀ b, m.load i = .ok b → Q b := by
  simp [load, Admits]

theorem touches_loadMark {i : ℕ} {Q : UInt8 → Prop} :
    Touches (Admits inside) (loadMark side m i) Q
      ↔ inside side i ∧ ∀ b, m.load i = .ok b → Q b := by
  simp [loadMark, Admits]

theorem touches_copy {i k : ℕ} {Q : List UInt8 → Prop} :
    Touches (Admits inside) (copy side m i k) Q
      ↔ (∀ j < k, inside side (i + j)) ∧ ∀ bytes, m.copy i k = .ok bytes → Q bytes := by
  simp [copy, Admits]

theorem touches_loadWindow {block : Block} {i : ℕ} {Q : UInt8 → Prop} :
    Touches (Admits inside) (loadWindow side block i) Q ↔ i < windowSize ∧ Q (block i) := by
  simp [loadWindow, Admits]

theorem touches_storeWindow {block : Block} {i : ℕ} {bytes : List UInt8} {Q : Block → Prop} :
    Touches (Admits inside) (storeWindow side block i bytes) Q
      ↔ (∀ j < bytes.length, i + j < windowSize) ∧ Q (block.store i bytes) := by
  simp [storeWindow, Admits]

theorem touches_repeatBufCopy {p : ℕ} (hp : inside side p) (count i : ℕ) (block : Block)
    (hfits : i + count ≤ windowSize) :
    Touches (Admits inside) (repeatBufCopy side m p count i block) fun _ => True := by
  induction count generalizing i block with
  | zero => exact touches_pure.mpr True.intro
  | succ count ih =>
    rw [repeatBufCopy, touches_bind, touches_load]
    refine ⟨hp, fun b _ => ?_⟩
    rw [touches_bind, touches_storeWindow]
    refine ⟨fun j hj => ?_, ih (i + 1) _ (by omega)⟩
    rw [List.length_singleton] at hj
    omega

/-- **A token is read from inside the operand, and fits the window**, whatever its
mark. -/
theorem touches_readToken {e p : ℕ} {reached : ℕ → Prop} (h : Paced m e (inside side) reached)
    (hp : reached p) (hlt : p < e) (terminated : Bool) (block : Block) :
    Touches (Admits inside) (readToken side m terminated p block)
      fun r => reached r.1 ∧ Fits r.2 := by
  unfold readToken
  rw [touches_bind, touches_loadMark]
  refine ⟨h.mark hp hlt, fun mark hmark => ?_⟩
  have hdata := h.data hp hlt hmark
  have hnext := h.next hp hlt hmark
  have hcount := markCount_le mark
  simp only [maxRepeatedSize] at hcount
  rw [markSize] at hdata hnext
  by_cases hrun : markIsRun mark = true
  · rw [if_pos hrun] at hdata hnext ⊢
    have hrep := touches_repeatBufCopy (m := m) (hdata (p + 1) (by omega) (by omega))
      (markCount mark) 0 block (by rw [windowSize]; omega)
    refine hrep.bind fun block _ => ?_
    rw [touches_bind, touches_storeWindow]
    refine ⟨fun j hj => ?_, touches_pure.mpr ⟨hnext, ?_⟩⟩
    · rw [List.length_singleton] at hj
      rw [windowSize]
      omega
    · show 0 + markCount mark < 131
      omega
  · rw [if_neg hrun] at hdata hnext ⊢
    rw [touches_bind, touches_copy]
    refine ⟨fun j hj => hdata _ (by omega) (by omega), fun bytes hbytes => ?_⟩
    have hlen := (Mem.drop_of_copy hbytes).1
    rw [touches_bind, touches_storeWindow]
    refine ⟨fun j hj => by rw [windowSize]; omega, ?_⟩
    have hend : ∀ block, Touches (Admits inside)
        (pure (p + 1 + markCount mark, ⟨block, 0, markCount mark⟩) : Walk (ℕ × Window))
          fun r => reached r.1 ∧ Fits r.2 := by
      intro block
      refine touches_pure.mpr ⟨?_, show 0 + markCount mark < 131 by omega⟩
      rwa [Nat.add_assoc, Nat.add_comm 1]
    cases terminated with
    | true =>
      rw [if_pos rfl, touches_bind, touches_storeWindow]
      refine ⟨fun j hj => ?_, hend _⟩
      rw [List.length_singleton] at hj
      rw [windowSize]
      omega
    | false =>
      rw [if_neg Bool.false_ne_true, touches_bind, touches_pure]
      exact hend _

theorem touches_refill {e p : ℕ} {reached : ℕ → Prop} (h : Paced m e (inside side) reached)
    (hp : reached p) {w : Window} (hw : Fits w) (hlt : w.count = 0 → p < e) (terminated : Bool) :
    Touches (Admits inside) (refill side m terminated p w) fun r => reached r.1 ∧ Fits r.2 := by
  unfold refill
  split
  · rename_i hzero
    exact touches_readToken h hp (hlt hzero) terminated w.bytes
  · exact touches_pure.mpr ⟨hp, hw⟩

theorem Fits.next {w : Window} (h : Fits w) (hpos : w.count > 0) :
    w.pos < windowSize ∧ Fits w.next := by
  unfold Fits at h
  refine ⟨by omega, ?_⟩
  show w.pos + 1 + (w.count - 1) < windowSize
  omega

theorem touches_matchWindows (turns : ℕ) {lef righ : Window} (hl : Fits lef) (hr : Fits righ) :
    Touches (Admits inside) (matchWindows sv turns lef righ)
      (Falls fun r => Fits r.1 ∧ Fits r.2) := by
  induction turns generalizing lef righ with
  | zero => exact touches_pure.mpr ⟨hl, hr⟩
  | succ turns ih =>
    rw [matchWindows]
    split
    · rename_i hboth
      obtain ⟨hlpos, hlnext⟩ := hl.next hboth.1
      obtain ⟨hrpos, hrnext⟩ := hr.next hboth.2
      rw [touches_bind, touches_loadWindow]
      refine ⟨hlpos, ?_⟩
      rw [touches_bind, touches_loadWindow]
      refine ⟨hrpos, ?_⟩
      split
      · exact ih hlnext hrnext
      · exact touches_pure.mpr True.intro
    · exact touches_pure.mpr ⟨hl, hr⟩

/-- The state of the comparison: both positions are reached, and what is in the windows
lies inside of them. -/
structure HocoWalk.Safe (reachedL reachedR : ℕ → Prop) (s : HocoWalk) : Prop where
  lefp : reachedL s.lefp
  lef : Fits s.lef
  righp : reachedR s.righp
  righ : Fits s.righ

/-- **A loop of `hocotext_hoco_cmp` keeps inside**: every turn does. -/
theorem touches_hocoLoop {lefend righend : ℕ} {reachedL reachedR : ℕ → Prop}
    (hl : Paced left lefend (inside .left) reachedL)
    (hr : Paced right righend (inside .right) reachedR) {goOn : HocoWalk → Bool}
    (hgo : ∀ s, goOn s = true →
      (s.lef.count = 0 → s.lefp < lefend) ∧ (s.righ.count = 0 → s.righp < righend))
    (terminated : Bool) (fuel : ℕ) {s : HocoWalk} (hs : s.Safe reachedL reachedR) :
    Touches (Admits inside) (hocoLoop sv left right terminated goOn fuel s)
      (Falls fun s => s.Safe reachedL reachedR) := by
  induction fuel generalizing s with
  | zero => exact touches_pure.mpr hs
  | succ fuel ih =>
    rw [hocoLoop]
    split
    · rename_i htrue
      obtain ⟨hltl, hltr⟩ := hgo s htrue
      refine (touches_refill hl hs.lefp hs.lef hltl terminated).bind ?_
      rintro ⟨lefp, lef⟩ ⟨hlefp, hlef⟩
      refine (touches_refill hr hs.righp hs.righ hltr true).bind ?_
      rintro ⟨righp, righ⟩ ⟨hrighp, hrigh⟩
      refine (touches_matchWindows sv lef.count hlef hrigh).bind ?_
      rintro (v | ⟨lef, righ⟩) hfits
      · exact touches_pure.mpr True.intro
      · exact ih ⟨hlefp, hfits.1, hrighp, hfits.2⟩
    · exact touches_pure.mpr hs

theorem fits_fresh (block : Block) : Fits (.fresh block) := by
  show 0 + 0 < 131
  decide

/-- **`hocotext_hoco_cmp` keeps inside operands that can be walked over.** -/
theorem touches_hocotextHocoCmp {reachedL reachedR : ℕ → Prop}
    (hl : ∀ e, sv.varsizeAny left = .ok e → Paced left e (inside .left) reachedL)
    (hr : ∀ e, sv.varsizeAny right = .ok e → Paced right e (inside .right) reachedR)
    (hlefp : reachedL varhdrszCompressed) (hrighp : reachedR varhdrszCompressed)
    (curLef curRigh : Block) (collid : Oid) :
    Touches (Admits inside) (hocotextHocoCmp sv curLef curRigh left right collid)
      fun _ => True := by
  unfold hocotextHocoCmp hocoFrom
  simp only [touches_bind, touches_lift]
  intro _ _ lefend hlefend righend hrighend
  have hl := hl lefend hlefend
  have hr := hr righend hrighend
  have hstart : HocoWalk.Safe reachedL reachedR
      ⟨varhdrszCompressed, .fresh curLef, varhdrszCompressed, .fresh curRigh⟩ :=
    ⟨hlefp, fits_fresh curLef, hrighp, fits_fresh curRigh⟩
  refine (touches_hocoLoop sv hl hr (fun s hs => ?_) true _ hstart).mono ?_
  · exact ⟨fun _ => (of_decide_eq_true hs).1, fun _ => (of_decide_eq_true hs).2⟩
  rintro (v | s) hs
  · exact touches_pure.mpr True.intro
  -- behind the first loop one of the windows is not filled any more
  refine (touches_hocoLoop sv hl hr (fun s hs => ?_) false _ hs).bind ?_
  · have hs := of_decide_eq_true hs
    exact ⟨fun _ => hs.1, fun hzero => absurd hs.2 (by omega)⟩
  rintro (v | s) hs
  · exact touches_pure.mpr True.intro
  refine (touches_hocoLoop sv hl hr (fun s hs => ?_) true _ hs).bind ?_
  · have hs := of_decide_eq_true hs
    exact ⟨fun hzero => absurd hs.2 (by omega), fun _ => hs.1⟩
  rintro (v | s) hs
  · exact touches_pure.mpr True.intro
  · dsimp only
    split_ifs
    all_goals exact touches_pure.mpr True.intro

/-- The inner loop of `hocotext_mixed_cmp`. Of the plain operand any byte may be read. -/
theorem touches_mixedWindow {exchange : Bool} (hplain : ∀ i, inside (righSide exchange) i)
    (righ : Mem) (righend turns : ℕ) {lef : Window} (hl : Fits lef) (righp : ℕ) :
    Touches (Admits inside) (mixedWindow sv righ righend exchange turns lef righp)
      (Falls fun r => Fits r.1) := by
  induction turns generalizing lef righp with
  | zero => exact touches_pure.mpr hl
  | succ turns ih =>
    rw [mixedWindow]
    split
    · rename_i hboth
      obtain ⟨hpos, hnext⟩ := hl.next hboth.1
      rw [touches_bind, touches_loadWindow]
      refine ⟨hpos, ?_⟩
      rw [touches_bind, touches_load]
      refine ⟨hplain righp, fun r _ => ?_⟩
      split
      · exact ih hnext (righp + 1)
      · exact touches_pure.mpr True.intro
    · exact touches_pure.mpr hl

/-- **The outer loop of `hocotext_mixed_cmp` keeps inside.** -/
theorem touches_mixedLoop {exchange : Bool} (hplain : ∀ i, inside (righSide exchange) i)
    {lef righ : Mem} {lefend righend : ℕ} {reached : ℕ → Prop}
    (h : Paced lef lefend (inside (lefSide exchange)) reached) (fuel : ℕ) {s : MixedWalk}
    (hlefp : reached s.lefp) (hlef : Fits s.lef) :
    Touches (Admits inside) (mixedLoop sv lef righ lefend righend exchange fuel s)
      (Falls fun s => Fits s.lef) := by
  induction fuel generalizing s with
  | zero => exact touches_pure.mpr hlef
  | succ fuel ih =>
    rw [mixedLoop]
    split
    · rename_i hgo
      refine (touches_refill h hlefp hlef (fun _ => hgo.1) true).bind ?_
      rintro ⟨lefp, w⟩ ⟨hlefp, hw⟩
      refine (touches_mixedWindow sv hplain righ righend w.count hw s.righp).bind ?_
      rintro (v | ⟨w, righp⟩) hw
      · exact touches_pure.mpr True.intro
      · exact ih hlefp hw
    · exact touches_pure.mpr hlef

/-- **`hocotext_mixed_cmp` keeps inside a compressed operand that can be walked over.** -/
theorem touches_hocotextMixedCmp {reached : ℕ → Prop} (hlefp : reached varhdrszCompressed)
    (h : ∀ exchange, (do
        if ← sv.varattIsCompressed left then pure false
        else sv.varattIsCompressed right : Run Bool) = .ok exchange →
      (∀ i, inside (righSide exchange) i) ∧
        ∀ e, sv.varsizeAny (if exchange then right else left) = .ok e →
          Paced (if exchange then right else left) e (inside (lefSide exchange)) reached)
    (cur : Block) (collid : Oid) :
    Touches (Admits inside) (hocotextMixedCmp sv cur left right collid) fun _ => True := by
  unfold hocotextMixedCmp
  simp only [touches_bind, touches_lift]
  intro exchange hexchange lefend hlefend b _ righend _ _ _
  obtain ⟨hplain, hpaced⟩ := h exchange hexchange
  refine (touches_mixedLoop sv hplain (hpaced lefend hlefend) lefend hlefp
    (fits_fresh cur)).bind ?_
  rintro (v | s) hs
  · exact touches_pure.mpr True.intro
  refine (touches_mixedWindow sv hplain _ righend s.lef.count hs s.righp).bind ?_
  rintro (v | ⟨w, righp⟩) -
  · exact touches_pure.mpr True.intro
  · dsimp only
    split_ifs
    all_goals exact touches_pure.mpr True.intro

end Touches

/-! ## Operands with a payload -/

/-- **The bytes of one operand are read from its payload only**, between the header and
the end of the datum, and the windows are not left. -/
def Inside (side : Side) (size : ℕ) : Access → Prop :=
  Admits fun s i => s = side → varhdrszCompressed ≤ i ∧ i < size

theorem Paced.mono {m : Mem} {e : ℕ} {inside inside' reached : ℕ → Prop}
    (h : Paced m e inside reached) (hin : ∀ i, inside i → inside' i) :
    Paced m e inside' reached :=
  ⟨fun hp hlt => hin _ (h.mark hp hlt),
    fun hp hlt hmark i hi hi' => hin i (h.data hp hlt hmark i hi hi'), h.next⟩

section Payload

variable {sv} {m : Mem} {ts : List Token} (h : sv.HasPayload m ts)

include h

theorem paced_of_hasPayload {inside : ℕ → Prop}
    (hin : ∀ i, varhdrszCompressed ≤ i → i < varhdrszCompressed + (encode ts).length → inside i)
    (e : ℕ) (he : sv.varsizeAny m = .ok e) :
    Paced m e inside (Reached m (varhdrszCompressed + (encode ts).length)) := by
  rw [h.header.varsizeAny_eq] at he
  cases he
  exact (Feeds.paced m _).mono fun i hi => hin i hi.1 hi.2

theorem reached_of_hasPayload :
    Reached m (varhdrszCompressed + (encode ts).length) varhdrszCompressed :=
  ⟨Nat.le_refl _, ts, h.feeds⟩

variable (other : Mem) (collid : Oid)

/-- **`hocotext_hoco_cmp` with a payload on the left**, whatever is on the right. -/
theorem inside_hocotextHocoCmp_left (curLef curRigh : Block) :
    ∀ a ∈ (hocotextHocoCmp sv curLef curRigh m other collid).trace,
      Inside .left (varhdrszCompressed + (encode ts).length) a := by
  refine (touches_hocotextHocoCmp sv (paced_of_hasPayload h fun i hge hlt _ => ⟨hge, hlt⟩)
    (fun e _ => paced_of_forall fun i hside => ?_) (reached_of_hasPayload h) True.intro
    curLef curRigh collid).1
  cases hside

/-- The same with the payload on the right. -/
theorem inside_hocotextHocoCmp_right (curLef curRigh : Block) :
    ∀ a ∈ (hocotextHocoCmp sv curLef curRigh other m collid).trace,
      Inside .right (varhdrszCompressed + (encode ts).length) a := by
  refine (touches_hocotextHocoCmp sv (fun e _ => paced_of_forall fun i hside => ?_)
    (paced_of_hasPayload h fun i hge hlt _ => ⟨hge, hlt⟩) True.intro (reached_of_hasPayload h)
    curLef curRigh collid).1
  cases hside

/-- **`hocotext_mixed_cmp` with a payload on the left.** -/
theorem inside_hocotextMixedCmp_left (cur : Block) :
    ∀ a ∈ (hocotextMixedCmp sv cur m other collid).trace,
      Inside .left (varhdrszCompressed + (encode ts).length) a := by
  refine (touches_hocotextMixedCmp sv (reached_of_hasPayload h) (fun exchange hexchange => ?_)
    cur collid).1
  rw [h.header.varattIsCompressed_eq] at hexchange
  cases hexchange
  refine ⟨fun i hside => ?_, paced_of_hasPayload h fun i hge hlt _ => ⟨hge, hlt⟩⟩
  cases hside

/-- The same with the payload on the right, if the other operand is not compressed. -/
theorem inside_hocotextMixedCmp_right (hother : sv.varattIsCompressed other ≠ .ok true)
    (cur : Block) :
    ∀ a ∈ (hocotextMixedCmp sv cur other m collid).trace,
      Inside .right (varhdrszCompressed + (encode ts).length) a := by
  refine (touches_hocotextMixedCmp sv (reached_of_hasPayload h) (fun exchange hexchange => ?_)
    cur collid).1
  obtain ⟨isCompressed, hleft, hexchange⟩ := Run.bind_eq_ok.mp hexchange
  cases isCompressed with
  | true => exact absurd hleft hother
  | false =>
    rw [if_neg Bool.false_ne_true, h.header.varattIsCompressed_eq] at hexchange
    cases hexchange
    refine ⟨fun i hside => ?_, paced_of_hasPayload h fun i hge hlt _ => ⟨hge, hlt⟩⟩
    cases hside

end Payload

end Walk

end Server
