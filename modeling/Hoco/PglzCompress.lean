import Hoco.PglzHistory
import Hoco.PglzStream
import Hoco.RleSize

/-!
# The default compressor

`pglzCompress` follows `pglz_compress`. It walks over the source, asks the history
for a match at each position it comes to, and writes a tag for a match and the byte
itself otherwise. The output goes directly to `dest`, with one detour: the control
byte of a group is kept aside until the next group starts, and its place in the
output is remembered (`ctrlp`), or is a dummy before the first group. The function
gives up when the output has reached the size it has to stay below, and also when it
has written so much without a match.

Everything that can go wrong is a fault here: a byte read behind the source, a byte
written behind `dest`, a null pointer followed, a list of the history that does not
end. The main statement is that nothing does, for a `dest` of the size its callers
allocate, and that the function computes what it computes without pointers
(`pglzCompress_eq`): the sequence of items `parse`, stored as a stream. What the
static arrays held before does not occur in it. The items stand for the source, so
that the decompressor returns it.
-/

open BackReference RecencyLists

namespace Pglz

/-! ## The functions -/

/-- `PGLZ_Strategy`. -/
structure PglzStrategy extends Rle.Strategy where
  /-- The size of output without a match at which to give up. -/
  firstSuccessBy : ℤ
  /-- The length at which a match is good enough. -/
  matchSizeGood : ℤ
  /-- The percentage by which that length is lowered at each entry. -/
  matchSizeDrop : ℤ

/-- `PGLZ_strategy_default`. -/
def pglzStrategyDefault : PglzStrategy where
  minInputSize := 32
  maxInputSize := Rle.intMax
  minCompRate := 25
  firstSuccessBy := 1024
  matchSizeGood := 128
  matchSizeDrop := 10

/-- `good_match`, brought into the range `17..273`. -/
def goodMatch (strategy : PglzStrategy) : ℕ :=
  if strategy.matchSizeGood > pglzMaxMatch then pglzMaxMatch
  else if strategy.matchSizeGood < 17 then 17
  else strategy.matchSizeGood.toNat

/-- `good_drop`, brought into the range `0..100`. -/
def goodDrop (strategy : PglzStrategy) : ℕ :=
  if strategy.matchSizeDrop < 0 then 0
  else if strategy.matchSizeDrop > 100 then 100
  else strategy.matchSizeDrop.toNat

/-- `hashsz`. -/
def hashsz (slen : ℕ) : ℕ :=
  if slen < 128 then 512
  else if slen < 256 then 1024
  else if slen < 512 then 2048
  else if slen < 1024 then 4096
  else 8192

theorem hashsz_sub_one_lt (slen : ℕ) : hashsz slen - 1 < pglzMaxHistoryLists := by
  unfold hashsz
  repeat' split
  all_goals decide

/-- `mask`. -/
def hashMask (slen : ℕ) : HIndex := ⟨hashsz slen - 1, hashsz_sub_one_lt slen⟩

/-- The output: `dest`, the place to write next, and the control byte that is kept
aside, with its place. A `ctrlp` of `none` points to `ctrl_dummy`. -/
@[ext]
structure Output where
  dest : Mem
  bp : ℕ
  ctrlp : Option ℕ
  ctrlb : UInt8
  ctrl : UInt8

/-- `*ctrlp = ctrlb`. -/
def Output.storeCtrl (o : Output) : Run Mem :=
  match o.ctrlp with
  | none => .ok o.dest
  | some i => o.dest.store i o.ctrlb

/-- `pglz_out_ctrl`. -/
def pglzOutCtrl (o : Output) : Run Output :=
  if o.ctrl &&& 0xff = 0 then do
    return { dest := ← o.storeCtrl, bp := o.bp + 1, ctrlp := some o.bp, ctrlb := 0, ctrl := 1 }
  else .ok o

/-- `pglz_out_literal`. -/
def pglzOutLiteral (o : Output) (byte : UInt8) : Run Output := do
  let o ← pglzOutCtrl o
  return { o with dest := ← o.dest.store o.bp byte, bp := o.bp + 1, ctrl := o.ctrl <<< 1 }

/-- The bytes that `pglz_out_tag` stores. The offset is an `int`. -/
def tagBytes (len : ℕ) (off : ℤ) : List UInt8 :=
  let off : ℕ := (off % 2 ^ 32).toNat
  if len > 17 then
    [UInt8.ofNat ((off &&& 0xf00) >>> 4 ||| 0x0f), UInt8.ofNat (off &&& 0xff),
      UInt8.ofNat (len - 18)]
  else [UInt8.ofNat ((off &&& 0xf00) >>> 4 ||| (len - 3)), UInt8.ofNat (off &&& 0xff)]

/-- `pglz_out_tag`. -/
def pglzOutTag (o : Output) (len : ℕ) (off : ℤ) : Run Output := do
  let o ← pglzOutCtrl o
  return { o with
    ctrlb := o.ctrlb ||| o.ctrl
    ctrl := o.ctrl <<< 1
    dest := ← o.dest.storeAll o.bp (tagBytes len off)
    bp := o.bp + (tagBytes len off).length }

/-- The state of the loop of `pglz_compress`. -/
structure CompressState where
  hist : History
  out : Output
  dp : ℕ
  foundMatch : Bool

section

variable (charSigned : Bool) (source : Mem) (slen : ℕ) (strategy : PglzStrategy)

/-- Whether the loop gives up, with so many bytes written. -/
def givesUp (written : ℕ) (foundMatch : Bool) : Bool :=
  Rle.resultMax slen strategy.toStrategy ≤ written
    || !foundMatch && strategy.firstSuccessBy ≤ written

/-- One turn of the loop: a match and its positions, or a byte and its position. -/
def compressTurn (st : CompressState) : Run CompressState := do
  match ← pglzFindMatch charSigned source slen (hashMask slen) st.hist.toWork st.dp
    (goodMatch strategy) (goodDrop strategy) with
  | some (len, off) =>
    let out ← pglzOutTag st.out len off
    let hist ← histAddLoop charSigned source slen (hashMask slen) len st.hist st.dp
    return { hist := hist, out := out, dp := st.dp + len, foundMatch := true }
  | none =>
    let out ← pglzOutLiteral st.out (← source.load st.dp)
    let hist ← pglzHistAdd charSigned source slen (hashMask slen) st.hist st.dp
    return { hist := hist, out := out, dp := st.dp + 1, foundMatch := st.foundMatch }

/-- The loop: the state it ends in, and whether it has come to the end of the source. -/
def compressLoop : ℕ → CompressState → Run (Bool × CompressState)
  | 0, _ => .error .fault
  | fuel + 1, st =>
    if st.dp < slen then
      if givesUp slen strategy st.out.bp st.foundMatch then .ok (false, st)
      else do compressLoop fuel (← compressTurn charSigned source slen strategy st)
    else .ok (true, st)

end

/-- **`pglz_compress`**: the return value, and what `dest` and the static arrays hold
afterwards. -/
def pglzCompress (charSigned : Bool) (w : Work) (source : Mem) (slen : ℕ) (dest : Mem)
    (strategy : Option PglzStrategy) : Run (ℤ × Mem × Work) := do
  let strategy := strategy.getD pglzStrategyDefault
  if strategy.matchSizeGood ≤ 0 ∨ (slen : ℤ) < strategy.minInputSize
      ∨ (slen : ℤ) > strategy.maxInputSize then
    return (-1, dest, w)
  else
    let (done, st) ← compressLoop charSigned source slen strategy (slen + 1)
      { hist := .start (hashMask slen) w, out := ⟨dest, 0, none, 0, 0⟩, dp := 0, foundMatch := false }
    if done then
      let dest ← st.out.storeCtrl
      if Rle.resultMax slen strategy.toStrategy ≤ st.out.bp then
        return (-1, dest, st.hist.toWork)
      else return (st.out.bp, dest, st.hist.toWork)
    else return (-1, st.out.dest, st.hist.toWork)

/-! ## The items of a source -/

section

variable (charSigned : Bool) (source : Mem) (slen : ℕ) (strategy : PglzStrategy)

/-- The number of bytes an item stands for. -/
def span : Item UInt8 → ℕ
  | .lit _ => 1
  | .ref _ len => len

/-- Whether an item is a reference. -/
def isRef : Item UInt8 → Bool
  | .lit _ => false
  | .ref _ _ => true

/-- The item that is written at a position. -/
def nextItem (dp : ℕ) : Item UInt8 :=
  (findAt charSigned source slen (hashMask slen) dp (goodMatch strategy) (goodDrop strategy)).elim
    (.lit (source.getD dp 0)) fun best => .ref best.2 best.1

/-- The items that are written for the source from a position on, behind those that
are written already, or nothing where the function gives up. -/
def parseFrom : ℕ → ℕ → List (Item UInt8) → Bool → Option (List (Item UInt8))
  | 0, _, _, _ => none
  | fuel + 1, dp, its, foundMatch =>
    if dp < slen then
      if givesUp slen strategy (stream its).length foundMatch then none
      else
        let item := nextItem charSigned source slen strategy dp
        parseFrom fuel (dp + span item) (its ++ [item]) (foundMatch || isRef item)
    else some its

/-- **What is written for a source**: a sequence of items, or nothing where the
function returns `-1`. -/
def parse : Option (List (Item UInt8)) :=
  if strategy.matchSizeGood ≤ 0 ∨ (slen : ℤ) < strategy.minInputSize
      ∨ (slen : ℤ) > strategy.maxInputSize then none
  else
    (parseFrom charSigned source slen strategy (slen + 1) 0 [] false).filter
      fun its => (stream its).length < Rle.resultMax slen strategy.toStrategy

end

/-! ## Writing items -/

/-- The mask and the shift of a tag, as arithmetic. -/
theorem and_shiftRight_or {off k : ℕ} (hoff : off < 4096) (hk : k < 16) :
    (off &&& 0xf00) >>> 4 ||| k = off / 256 * 16 + k := by
  have hshift : ∀ (a : Fin 16) (b : Fin 256), ((a.val * 256 + b.val) &&& 0xf00) >>> 4 = a.val * 16 := by
    decide +kernel
  have hor : ∀ a k : Fin 16, a.val * 16 ||| k.val = a.val * 16 + k.val := by decide +kernel
  have hsplit := hshift ⟨off / 256, by omega⟩ ⟨off % 256, by omega⟩
  rw [Nat.div_add_mod'] at hsplit
  rw [hsplit]
  exact hor ⟨off / 256, by omega⟩ ⟨k, hk⟩

/-- The bytes of a tag are those of the item. -/
theorem tagBytes_eq {off len : ℕ} (h : Storable (.ref off len)) :
    tagBytes len (off : ℤ) = itemBytes (.ref off len) := by
  obtain ⟨hoff, hmin, hmax⟩ := h
  have hnat : ((off : ℤ) % 2 ^ 32).toNat = off := by omega
  have hlow : UInt8.ofNat (off &&& 0xff) = UInt8.ofNat off := by
    rw [← UInt8.toNat_inj, UInt8.toNat_ofNat', UInt8.toNat_ofNat',
      show (0xff : ℕ) = 2 ^ 8 - 1 from rfl, Nat.and_two_pow_sub_one_eq_mod, Nat.mod_mod]
  rw [tagBytes, itemBytes, hnat, hlow]
  by_cases hlong : len > 17
  · rw [if_pos hlong, if_pos hlong, and_shiftRight_or hoff (by decide)]
  · rw [if_neg hlong, if_neg hlong, and_shiftRight_or hoff (by omega)]

/-- The output with the groups `full` and a group that is open. The byte `x` keeps the
place of the control byte. -/
def Output.opened (full group : List (Item UInt8)) (x : UInt8) (rest : Mem) : Output where
  dest := stream full ++ x :: (groupBytes group ++ rest)
  bp := (stream full).length + ((groupBytes group).length + 1)
  ctrlp := some (stream full).length
  ctrlb := UInt8.ofNat (control group)
  ctrl := UInt8.ofNat (2 ^ group.length)

/-- **The output after some items.** -/
inductive Wrote : Output → List (Item UInt8) → Prop where
  | start (dest : Mem) : Wrote ⟨dest, 0, none, 0, 0⟩ []
  | group {full group : List (Item UInt8)} (hfull : 8 ∣ full.length) (hne : group ≠ [])
      (hlen : group.length ≤ 8) (x : UInt8) (rest : Mem) :
      Wrote (.opened full group x rest) (full ++ group)

theorem stream_append_group {full group : List (Item UInt8)} (hfull : 8 ∣ full.length)
    (hne : group ≠ []) (hlen : group.length ≤ 8) :
    stream (full ++ group)
      = stream full ++ UInt8.ofNat (control group) :: groupBytes group := by
  have := @stream_cons_group group [] hne (Or.inr ⟨hlen, rfl⟩)
  rw [List.append_nil, stream_nil, List.append_nil] at this
  rw [stream_append hfull, this]

section

variable {full group : List (Item UInt8)} {item : Item UInt8} {old rest : Mem}

theorem groupBytes_concat : groupBytes (group ++ [item]) = groupBytes group ++ itemBytes item := by
  rw [groupBytes, List.flatMap_append, List.flatMap_singleton]
  rfl

/-- The bytes of an item go behind those of the group. -/
theorem opened_storeAll (x : UInt8) (hold : old.length = (itemBytes item).length) :
    (Output.opened full group x (old ++ rest)).dest.storeAll
        (Output.opened full group x (old ++ rest)).bp (itemBytes item)
      = .ok (Output.opened full (group ++ [item]) x rest).dest := by
  have := Mem.storeAll_append_of_length (stream full ++ x :: groupBytes group) hold rest
  simp only [Output.opened, groupBytes_concat, List.append_assoc, List.cons_append,
    List.length_append, List.length_cons] at this ⊢
  exact this

theorem opened_bp (x : UInt8) :
    (Output.opened full group x (old ++ rest)).bp + (itemBytes item).length
      = (Output.opened full (group ++ [item]) x rest).bp := by
  simp only [Output.opened, groupBytes_concat, List.length_append]
  omega

/-- The control bit moves on. -/
theorem opened_ctrl (x : UInt8) (hlen : group.length < 8) :
    (Output.opened full group x (old ++ rest)).ctrl <<< 1
      = (Output.opened full (group ++ [item]) x rest).ctrl := by
  have : ∀ k : Fin 8, UInt8.ofNat (2 ^ k.val) <<< 1 = UInt8.ofNat (2 ^ (k.val + 1)) := by decide
  simp only [Output.opened, List.length_append, List.length_singleton]
  exact this ⟨group.length, hlen⟩

/-- A control bit that is set. -/
theorem ofNat_control_or (off len : ℕ) :
    UInt8.ofNat (control group) ||| UInt8.ofNat (2 ^ group.length)
      = UInt8.ofNat (control (group ++ [.ref off len])) := by
  have hor := Nat.two_pow_add_eq_or_of_lt (control_lt group) 1
  rw [Nat.mul_one] at hor
  rw [control_concat, controlBit, Nat.one_mul, Nat.add_comm, hor, ← UInt8.ofNat_or, Nat.or_comm]

end

namespace Wrote

variable {o : Output} {its : List (Item UInt8)}

/-- What is written is as long as the stream. -/
theorem bp_eq (h : Wrote o its) : o.bp = (stream its).length := by
  cases h with
  | start dest => rfl
  | group hfull hne hlen x rest =>
    rw [stream_append_group hfull hne hlen, List.length_append, List.length_cons]
    rfl

/-- **With the last control byte the output is the stream.** -/
theorem storeCtrl (h : Wrote o its) :
    ∃ dest, o.storeCtrl = .ok dest ∧ dest.length = o.dest.length ∧ dest.take o.bp = stream its := by
  cases h with
  | start dest => exact ⟨dest, rfl, rfl, rfl⟩
  | @group full group hfull hne hlen x rest =>
    refine ⟨_, Mem.store_append _ _ _ _, ?_, ?_⟩
    · simp [Output.opened]
    · rw [stream_append_group hfull hne hlen]
      show (stream full ++ UInt8.ofNat (control group) :: (groupBytes group ++ rest)).take _ = _
      rw [← List.cons_append, ← List.append_assoc]
      refine List.take_left' ?_
      rw [List.length_append, List.length_cons]
      rfl

/-- **A group is open when an item is written**, the last one or a new one. -/
theorem pglzOutCtrl (h : Wrote o its) (hroom : o.bp < o.dest.length) :
    ∃ full group x rest, its = full ++ group ∧ 8 ∣ full.length ∧ group.length < 8
      ∧ Pglz.pglzOutCtrl o = .ok (.opened full group x rest)
      ∧ (Output.opened full group x rest).dest.length = o.dest.length
      ∧ (Output.opened full group x rest).bp ≤ o.bp + 1 := by
  cases h with
  | start dest =>
    cases dest with
    | nil => exact absurd hroom (Nat.lt_irrefl 0)
    | cons x rest =>
      refine ⟨[], [], x, rest, rfl, Nat.dvd_zero 8, by decide, ?_, rfl, Nat.le_refl _⟩
      rw [Pglz.pglzOutCtrl, if_pos (show (0 : UInt8) &&& 0xff = 0 by decide)]
      rfl
  | @group full group hfull hne hlen x rest =>
    rcases Nat.lt_or_ge group.length 8 with hlt | hge
    · refine ⟨full, group, x, rest, rfl, hfull, hlt, if_neg ?_, rfl, Nat.le_succ _⟩
      have : ∀ k : Fin 8, ¬ UInt8.ofNat (2 ^ k.val) &&& 0xff = 0 := by decide
      exact this ⟨group.length, hlt⟩
    · -- the group is full: its control byte is written, and the next one gets its place
      have hlen8 : group.length = 8 := Nat.le_antisymm hlen hge
      have hstream := stream_append_group hfull hne hlen
      have hctrl : (Output.opened full group x rest).ctrl &&& 0xff = 0 := by
        show UInt8.ofNat (2 ^ group.length) &&& 0xff = 0
        rw [hlen8]
        decide
      cases rest with
      | nil =>
        exfalso
        simp [Output.opened] at hroom
      | cons y rest =>
        have hstore : (Output.opened full group x (y :: rest)).storeCtrl
            = .ok (stream (full ++ group) ++ y :: rest) := by
          rw [hstream, List.append_assoc, List.cons_append]
          exact Mem.store_append _ _ _ _
        refine ⟨full ++ group, [], y, rest, (List.append_nil _).symm, ?_, by decide, ?_, ?_, ?_⟩
        · rw [List.length_append, hlen8]
          exact Nat.dvd_add hfull (Nat.dvd_refl 8)
        · rw [Pglz.pglzOutCtrl, if_pos hctrl, hstore]
          have hbp : (Output.opened full group x (y :: rest)).bp = (stream (full ++ group)).length := by
            rw [hstream, List.length_append, List.length_cons]
            rfl
          simp only [Run.ok_bind, hbp]
          rfl
        · simp [Output.opened, hstream, groupBytes]
        · simp [Output.opened, hstream, groupBytes]

/-- The place that an item takes. -/
theorem exists_old {rest : Mem} {full group : List (Item UInt8)} {x : UInt8} {n k : ℕ}
    (hlen : (Output.opened full group x rest).dest.length = n)
    (hroom : (Output.opened full group x rest).bp + k ≤ n) :
    ∃ old rest', rest = old ++ rest' ∧ old.length = k := by
  refine ⟨rest.take k, rest.drop k, (List.take_append_drop k rest).symm, ?_⟩
  simp only [Output.opened, List.length_append, List.length_cons] at hlen hroom
  rw [List.length_take]
  omega

/-- An item behind the group leaves the output as long as it was. -/
theorem length_opened {full group : List (Item UInt8)} {item : Item UInt8} {x : UInt8}
    {old rest : Mem} (hold : old.length = (itemBytes item).length) :
    (Output.opened full (group ++ [item]) x rest).dest.length
      = (Output.opened full group x (old ++ rest)).dest.length := by
  simp only [Output.opened, groupBytes_concat, List.length_append, List.length_cons]
  omega

/-- **A literal is written.** -/
theorem pglzOutLiteral (h : Wrote o its) (b : UInt8) (hroom : o.bp + 2 ≤ o.dest.length) :
    ∃ o', Pglz.pglzOutLiteral o b = .ok o' ∧ Wrote o' (its ++ [.lit b])
      ∧ o'.dest.length = o.dest.length := by
  obtain ⟨full, group, x, rest, rfl, hfull, hlen, hctrl, hdest, hbp⟩ := h.pglzOutCtrl (by omega)
  obtain ⟨old, rest, rfl, hold⟩ := @exists_old rest full group x _ 1 hdest (by omega)
  have hold' : old.length = (itemBytes (.lit b)).length := hold
  refine ⟨.opened full (group ++ [.lit b]) x rest, ?_, ?_, (length_opened hold').trans hdest⟩
  · obtain ⟨dest, hstore, hdest'⟩ := Run.bind_eq_ok.mp (@opened_storeAll full group _ old rest x hold')
    rw [Pglz.pglzOutLiteral, hctrl, Run.ok_bind, hstore]
    refine congrArg Except.ok (Output.ext (Except.ok.inj hdest')
      (@opened_bp full group (.lit b) old rest x) rfl ?_ (opened_ctrl x hlen))
    show UInt8.ofNat (control group) = UInt8.ofNat (control (group ++ [.lit b]))
    rw [control_concat, controlBit, Nat.zero_mul, Nat.add_zero]
  · rw [List.append_assoc]
    exact Wrote.group hfull (by simp) (by rw [List.length_append, List.length_singleton]; omega) x
      rest

/-- **A tag is written.** -/
theorem pglzOutTag (h : Wrote o its) {off len : ℕ} (hst : Storable (.ref off len))
    (hroom : o.bp + 4 ≤ o.dest.length) :
    ∃ o', Pglz.pglzOutTag o len (off : ℤ) = .ok o' ∧ Wrote o' (its ++ [.ref off len])
      ∧ o'.dest.length = o.dest.length := by
  obtain ⟨full, group, x, rest, rfl, hfull, hlen, hctrl, hdest, hbp⟩ := h.pglzOutCtrl (by omega)
  have hsize : (itemBytes (.ref off len)).length ≤ 3 := by
    rw [itemBytes]
    split <;> simp
  obtain ⟨old, rest, rfl, hold⟩ :=
    @exists_old rest full group x _ (itemBytes (.ref off len)).length hdest (by omega)
  refine ⟨.opened full (group ++ [.ref off len]) x rest, ?_, ?_, (length_opened hold).trans hdest⟩
  · rw [Pglz.pglzOutTag, hctrl, Run.ok_bind, tagBytes_eq hst, opened_storeAll x hold]
    exact congrArg Except.ok (Output.ext rfl (opened_bp x) rfl (ofNat_control_or off len)
      (opened_ctrl x hlen))
  · rw [List.append_assoc]
    exact Wrote.group hfull (by simp) (by rw [List.length_append, List.length_singleton]; omega) x
      rest

end Wrote

/-! ## The loop -/

section

variable {charSigned : Bool} {source : Mem} {slen : ℕ} {strategy : PglzStrategy}

variable (charSigned source slen) in
/-- **The state of the loop after some items**: the history is that of the bytes read,
the output that of the items, and the items stand for the bytes read. -/
structure Reached (st : CompressState) (its : List (Item UInt8)) (size : ℕ) : Prop where
  tracks : Tracks charSigned source slen (hashMask slen) st.dp st.hist
  wrote : Wrote st.out its
  decodes : Decodes [] its (source.take st.dp)
  storable : ∀ it ∈ its, Storable it
  dp_le : st.dp ≤ slen
  size : st.out.dest.length = size

namespace Reached

variable {st : CompressState} {its : List (Item UInt8)} {size : ℕ}

/-- **A turn of the loop writes the next item.** -/
theorem compressTurn (h : Reached charSigned source slen st its size)
    (hmapped : slen ≤ source.length) (hdp : st.dp < slen) (hroom : st.out.bp + 4 ≤ size) :
    ∃ st', Pglz.compressTurn charSigned source slen strategy st = .ok st'
      ∧ Reached charSigned source slen st'
        (its ++ [nextItem charSigned source slen strategy st.dp]) size
      ∧ (0 < span (nextItem charSigned source slen strategy st.dp)
        ∧ st'.dp = st.dp + span (nextItem charSigned source slen strategy st.dp))
      ∧ st'.foundMatch
        = (st.foundMatch || isRef (nextItem charSigned source slen strategy st.dp)) := by
  have hstorable : ∀ {item : Item UInt8}, Storable item → ∀ it ∈ its ++ [item], Storable it := by
    intro item hitem it hit
    rcases List.mem_append.mp hit with hit | hit
    · exact h.storable it hit
    · rw [List.mem_singleton.mp hit]
      exact hitem
  rw [nextItem, Pglz.compressTurn, h.tracks.pglzFindMatch hmapped hdp, Run.ok_bind]
  cases hfind : findAt charSigned source slen (hashMask slen) st.dp (goodMatch strategy)
    (goodDrop strategy) with
  | none =>
    obtain ⟨b, hb⟩ := Mem.exists_load_iff.mpr (show st.dp < source.length by omega)
    have hdrop := Mem.drop_of_load hb
    have hgetD : source.getD st.dp 0 = b := by
      rw [List.getD_eq_getElem?_getD, ← List.head?_drop, hdrop]
      rfl
    have htake : source.take st.dp ++ [b] = source.take (st.dp + 1) := by
      rw [List.take_add_one, ← List.head?_drop, hdrop]
      rfl
    obtain ⟨out, hout, hwrote, hsize⟩ := h.wrote.pglzOutLiteral b (by rw [h.size]; omega)
    obtain ⟨hist, hhist, htracks⟩ := h.tracks.pglzHistAdd hmapped hdp
    simp only [hgetD, Option.map_none, hb, hout, hhist, Run.ok_bind]
    refine ⟨_, rfl, ⟨htracks, hwrote, ?_, hstorable trivial, hdp, hsize.trans h.size⟩,
      ⟨Nat.one_pos, rfl⟩, (Bool.or_false _).symm⟩
    exact h.decodes.append (.lit (htake ▸ .nil _))
  | some best =>
    obtain ⟨len, off⟩ := best
    obtain ⟨hlen, hmatch⟩ := isMatch_of_findAt hmapped hdp hfind
    dsimp only at hlen hmatch
    have hfits := hmatch.fits
    have hinside := hmatch.inside
    rw [List.length_take, Nat.min_eq_left hmapped] at hinside
    have hst : Storable (.ref off len) := ⟨by omega, by omega, hmatch.max⟩
    obtain ⟨out, hout, hwrote, hsize⟩ := h.wrote.pglzOutTag hst (by rw [h.size]; exact hroom)
    obtain ⟨hist, hhist, htracks⟩ := h.tracks.histAddLoop hmapped hinside
    simp only [Option.map_some, hout, hhist, Run.ok_bind]
    refine ⟨_, rfl, ⟨htracks, hwrote, ?_, hstorable hst, hinside, hsize.trans h.size⟩,
      ⟨show 0 < len by omega, rfl⟩, (Bool.or_true _).symm⟩
    have hrep := Repeats.of_match hmatch.pos hmatch.reach hmatch.inside hmatch.agrees
    rw [List.take_take, List.take_take, Nat.min_eq_left h.dp_le, Nat.min_eq_left hinside] at hrep
    refine h.decodes.append (.ref hrep ?_ (.nil _))
    rw [List.length_take, List.length_take]
    omega

/-- **The loop writes the items of the source**, as far as it comes. -/
theorem compressLoop (h : Reached charSigned source slen st its size)
    (hmapped : slen ≤ source.length) (hlen : (slen : ℤ) ≤ Rle.intMax) (hsize : slen + 4 ≤ size)
    {fuel : ℕ} (hfuel : slen - st.dp < fuel) :
    ∃ st' its', Pglz.compressLoop charSigned source slen strategy fuel st
        = .ok ((parseFrom charSigned source slen strategy fuel st.dp its st.foundMatch).isSome, st')
      ∧ Reached charSigned source slen st' its' size
      ∧ ∀ its'' ∈ parseFrom charSigned source slen strategy fuel st.dp its st.foundMatch,
        its'' = its' ∧ st'.dp = slen := by
  induction fuel generalizing st its with
  | zero => exact absurd hfuel (Nat.not_lt_zero _)
  | succ fuel ih =>
    rw [Pglz.compressLoop, parseFrom, h.wrote.bp_eq]
    by_cases hdp : st.dp < slen
    · rw [if_pos hdp, if_pos hdp]
      by_cases hup : givesUp slen strategy (stream its).length st.foundMatch = true
      · rw [if_pos hup, if_pos hup]
        exact ⟨st, its, rfl, h, fun _ h => by cases h⟩
      · -- there is room for four more bytes
        have hroom : st.out.bp + 4 ≤ size := by
          have hbound := (Rle.resultProduct_bounds (Int.natCast_nonneg slen) hlen
            strategy.toStrategy).2.2
          rw [givesUp, Bool.not_eq_true, Bool.or_eq_false_iff, decide_eq_false_iff_not] at hup
          have := hup.1
          rw [h.wrote.bp_eq]
          omega
        obtain ⟨st', hturn, h', ⟨hspan, hdp'⟩, hfound⟩ :=
          @Reached.compressTurn charSigned source slen strategy st its size h hmapped hdp hroom
        have htail := ih h' (by omega)
        rw [hdp', hfound] at htail
        rw [if_neg hup, if_neg hup, hturn, Run.ok_bind]
        exact htail
    · rw [if_neg hdp, if_neg hdp]
      have := h.dp_le
      exact ⟨st, its, rfl, h, fun _ h => ⟨(Option.some.inj h).symm, by omega⟩⟩

end Reached

/-- **`pglz_compress` writes the stream of the items of the source**, and these stand for
it. It does so whatever the static arrays hold, and without leaving the source or a `dest`
with room for four bytes more than the source has. -/
theorem exists_pglzCompress_eq (w : Work) (dest : Mem) (given : Option PglzStrategy)
    (hmapped : slen ≤ source.length) (hlen : (slen : ℤ) ≤ Rle.intMax)
    (hdest : slen + 4 ≤ dest.length) :
    ∃ dest' w', pglzCompress charSigned w source slen dest given
        = .ok ((parse charSigned source slen (given.getD pglzStrategyDefault)).elim (-1)
          (fun its => ((stream its).length : ℤ)), dest', w')
      ∧ dest'.length = dest.length
      ∧ ∀ its ∈ parse charSigned source slen (given.getD pglzStrategyDefault),
        dest'.take (stream its).length = stream its ∧ Decodes [] its (source.take slen)
          ∧ (∀ it ∈ its, Storable it) ∧ (stream its).length < slen := by
  obtain ⟨strategy, hstrategy⟩ : ∃ strategy, given.getD pglzStrategyDefault = strategy := ⟨_, rfl⟩
  rw [pglzCompress, parse, hstrategy]
  by_cases hrange : strategy.matchSizeGood ≤ 0 ∨ (slen : ℤ) < strategy.minInputSize
      ∨ (slen : ℤ) > strategy.maxInputSize
  · rw [if_pos hrange, if_pos hrange]
    exact ⟨dest, w, rfl, rfl, fun _ h => by cases h⟩
  · rw [if_neg hrange, if_neg hrange]
    have hstart : Reached charSigned source slen
        { hist := .start (hashMask slen) w, out := ⟨dest, 0, none, 0, 0⟩, dp := 0,
          foundMatch := false } [] dest.length :=
      ⟨.start w, .start dest, .nil [], fun _ h => (List.not_mem_nil h).elim, Nat.zero_le _, rfl⟩
    obtain ⟨st, its, hloop, h, hits⟩ := @Reached.compressLoop charSigned source slen strategy _ _ _
      hstart hmapped hlen hdest (slen + 1) (Nat.lt_succ_self _)
    dsimp only at hloop hits
    have hbound := (Rle.resultProduct_bounds (Int.natCast_nonneg slen) hlen strategy.toStrategy).2.2
    rw [hloop, Run.ok_bind]
    cases hparse : parseFrom charSigned source slen strategy (slen + 1) 0 [] false with
    | none => exact ⟨st.out.dest, st.hist.toWork, rfl, h.size, fun _ h => by cases h⟩
    | some its' =>
      obtain ⟨rfl, hdp⟩ := hits its' hparse
      obtain ⟨dest', hstore, hlen', htake⟩ := h.wrote.storeCtrl
      rw [h.wrote.bp_eq] at htake
      have hdecodes := h.decodes
      rw [hdp] at hdecodes
      simp only [Option.isSome_some, if_true, hstore, Run.ok_bind, h.wrote.bp_eq]
      rw [Option.filter_some]
      by_cases hmax : Rle.resultMax slen strategy.toStrategy ≤ (stream its').length
      · rw [if_pos hmax, if_neg (by simpa using hmax)]
        exact ⟨dest', _, rfl, hlen'.trans h.size, fun _ h => by cases h⟩
      · rw [if_neg hmax, if_pos (by simpa using hmax)]
        refine ⟨dest', _, rfl, hlen'.trans h.size, fun its'' h'' => ?_⟩
        cases h''
        exact ⟨htake, hdecodes, h.storable, by omega⟩

/-- **The compressor stays inside of its buffers.** With just the source and a `dest` of
the size that `PGLZ_MAX_OUTPUT` gives it, every read and every write succeeds, every list
of the history ends, and the result is `-1` or smaller than the source. -/
theorem exists_pglzCompress_inside (w : Work) (dest : Mem) (given : Option PglzStrategy)
    (hlen : (source.length : ℤ) ≤ Rle.intMax) (hdest : dest.length = source.length + 4) :
    ∃ v dest' w', pglzCompress charSigned w source source.length dest given = .ok (v, dest', w')
      ∧ dest'.length = dest.length ∧ (v = -1 ∨ 0 ≤ v ∧ v < source.length) := by
  obtain ⟨dest', w', hrun, hsize, hits⟩ :=
    @exists_pglzCompress_eq charSigned source source.length w dest given (Nat.le_refl _) hlen
      (by omega)
  refine ⟨_, dest', w', hrun, hsize, ?_⟩
  cases hparse : parse charSigned source source.length (given.getD pglzStrategyDefault) with
  | none => exact Or.inl rfl
  | some its =>
    have := (hits its hparse).2.2.2
    exact Or.inr ⟨Int.natCast_nonneg _, by simpa using this⟩

/-- Forty equal bytes, into a `dest` of 44. -/
theorem exists_pglzCompress_inside_replicate :
    ∃ v dest' w', pglzCompress true .zero (List.replicate 40 97)
        ((List.replicate 40 (97 : UInt8)).length) (List.replicate 44 0) none = .ok (v, dest', w')
      ∧ dest'.length = (List.replicate 44 (0 : UInt8)).length
      ∧ (v = -1 ∨ 0 ≤ v ∧ v < (List.replicate 40 (97 : UInt8)).length) :=
  exists_pglzCompress_inside .zero (List.replicate 44 0) none (by decide) (by decide)

/-- **The default method loses nothing.** Whatever the strategy, the platform and the
contents of the static arrays and of `dest`: when `pglz_compress` returns a size, the
decompressor turns so many bytes of `dest` back into the source. -/
theorem exists_pglzDecompress_pglzCompress (w : Work) (dest : Mem) (given : Option PglzStrategy)
    (hlen : (source.length : ℤ) ≤ Rle.intMax) (hdest : dest.length = source.length + 4) :
    ∃ v dest' w', pglzCompress charSigned w source source.length dest given = .ok (v, dest', w')
      ∧ (v ≠ -1 → pglzDecompress dest' v source.length true = .ok (source.length, source)) := by
  obtain ⟨dest', w', hrun, -, hits⟩ :=
    @exists_pglzCompress_eq charSigned source source.length w dest given (Nat.le_refl _) hlen
      (by omega)
  refine ⟨_, dest', w', hrun, ?_⟩
  cases hparse : parse charSigned source source.length (given.getD pglzStrategyDefault) with
  | none => exact fun h => absurd rfl h
  | some its =>
    intro _
    obtain ⟨htake, hdec, hst, -⟩ := hits its hparse
    rw [List.take_length] at hdec
    have hsplit : stream its ++ dest'.drop (stream its).length = dest' := by
      conv_rhs => rw [← List.take_append_drop (stream its).length dest', htake]
    have hdecompress := pglzDecompress_stream hdec hst (dest'.drop (stream its).length) true
    rwa [hsplit] at hdecompress

/-- Forty equal bytes, there and back. -/
theorem exists_pglzDecompress_pglzCompress_replicate :
    ∃ v dest' w', pglzCompress true .zero (List.replicate 40 97)
        ((List.replicate 40 (97 : UInt8)).length) (List.replicate 44 0) none = .ok (v, dest', w')
      ∧ (v ≠ -1 → pglzDecompress dest' v (List.replicate 40 (97 : UInt8)).length true
        = .ok ((List.replicate 40 (97 : UInt8)).length, List.replicate 40 97)) :=
  exists_pglzDecompress_pglzCompress .zero (List.replicate 44 0) none (by decide) (by decide)

set_option maxRecDepth 100000 in
/-- They are stored as a literal and a tag. -/
example : (fun r => (r.1, r.2.1.take 5))
      <$> pglzCompress true .zero (List.replicate 40 97) 40 (List.replicate 44 0) none
    = .ok (5, [0x02, 0x61, 0x0f, 0x01, 0x15]) := by decide +kernel

end

/-! ## Successive calls

The static arrays are never cleared as a whole, and the next call finds what the last one
left in them. -/

/-- A call of `pglz_compress`, with a `dest` of the size it needs. -/
structure Call where
  source : List UInt8
  dest : Mem
  strategy : Option PglzStrategy
  fits : (source.length : ℤ) ≤ Rle.intMax
  room : dest.length = source.length + 4

/-- The result of a call: the return value and so many bytes of `dest`. -/
def Call.run (charSigned : Bool) (w : Work) (c : Call) : Run ((ℤ × List UInt8) × Work) :=
  (fun r => ((r.1, r.2.1.take r.1.toNat), r.2.2))
    <$> pglzCompress charSigned w c.source c.source.length c.dest c.strategy

/-- The results of calls that follow each other. -/
def runCalls (charSigned : Bool) : Work → List Call → Run (List (ℤ × List UInt8))
  | _, [] => .ok []
  | w, c :: calls => do
    let (r, w) ← c.run charSigned w
    return r :: (← runCalls charSigned w calls)

/-- The result of a call, from the items of its source. -/
def Call.result (charSigned : Bool) (c : Call) : ℤ × List UInt8 :=
  (parse charSigned c.source c.source.length (c.strategy.getD pglzStrategyDefault)).elim (-1, [])
    fun its => ((stream its).length, stream its)

/-- What a call returns does not depend on the arrays, nor on what `dest` held. -/
theorem Call.run_eq (charSigned : Bool) (w : Work) (c : Call) :
    ∃ w', c.run charSigned w = .ok (c.result charSigned, w') := by
  obtain ⟨dest', w', hrun, -, hits⟩ :=
    @exists_pglzCompress_eq charSigned c.source c.source.length w c.dest c.strategy
      (Nat.le_refl _) c.fits (Nat.le_of_eq c.room.symm)
  refine ⟨w', ?_⟩
  rw [Call.run, hrun, Call.result]
  refine congrArg Except.ok (Prod.ext ?_ rfl)
  cases hparse : parse charSigned c.source c.source.length
    (c.strategy.getD pglzStrategyDefault) with
  | none => rfl
  | some its => exact Prod.ext rfl (hits its hparse).1

/-- **Successive compressions are independent.** In any sequence of calls each one returns
the value and writes the bytes that it does in a process of its own, whatever the arrays
hold there and whatever the calls before it left in them. -/
theorem exists_runCalls_eq (charSigned : Bool) (w₀ w : Work) (calls : List Call) :
    ∃ rs, runCalls charSigned w calls = .ok rs
      ∧ List.Forall₂ (fun c r => ∃ w', Call.run charSigned w₀ c = .ok (r, w')) calls rs := by
  induction calls generalizing w with
  | nil => exact ⟨[], rfl, .nil⟩
  | cons c calls ih =>
    obtain ⟨w', hw'⟩ := c.run_eq charSigned w
    obtain ⟨rs, hrs, hall⟩ := ih w'
    refine ⟨c.result charSigned :: rs, ?_, .cons (c.run_eq charSigned w₀) hall⟩
    simp only [runCalls, hw', Run.ok_bind, hrs]
    rfl

end Pglz
