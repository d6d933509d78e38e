import Mathlib.Data.Nat.Bitwise
import Hoco.Toast
import Hoco.ToastStore

/-!
# Rows as bytes

A row is a header with a bitmap of its nulls, and then its values one after the other,
each aligned as its type asks. `heapFillTuple` follows `heap_fill_tuple`, which writes a
row, and `heapDeformTuple` follows `heap_deform_tuple`, which takes one apart. This module
has the two and the bitmap; what is written is said in `HeapTupleFill`, and that it is read
again in `HeapTupleDeform`.

Two things make this more than a concatenation. A datum with a four-byte header that is
small is written with a one-byte header, and that one is not aligned. So whoever reads the
row cannot tell from the type where the next value starts: it looks at the next byte, and
takes a zero for padding (`attAlignPointer`). And offsets that are the same in every row
are remembered in the descriptor, across rows (`attcacheoff`), which only works as long as
nothing that varies came before.

A datum is given by its bytes, whether it is passed by value or by reference. A pointer to
an expanded object is not written as it is: the object is flattened into the row. The
memory of a row is modelled with its size: a write behind its end is a fault, so that a row
that is filled without one has stayed in the memory that `heap_compute_data_size` asked for.
-/

/-! ## Attributes -/

/-- `attlen`: positive for a type of fixed size, `-1` and `-2` for the others. -/
inductive AttLen where
  | fixed (n : ℕ)
  | varlena
  | cstring
  deriving DecidableEq

/-- `attalign`. -/
inductive Align where
  | char
  | short
  | int
  | double
  deriving DecidableEq

/-- The alignments, in bytes. -/
def Align.bytes : Align → ℕ
  | char => 1
  | short => 2
  | int => 4
  | double => 8

/-- `attstorage`. -/
inductive Storage where
  | plain
  | external
  | extended
  | main
  deriving DecidableEq

/-- **A column of a table**, with the value that rows have for it that are older than the
column. A C string is never aligned. -/
structure Attribute where
  attlen : AttLen
  attalign : Align
  attstorage : Storage
  attcompression : Char
  attmissing : Option Mem
  cstring_align : attlen = .cstring → attalign = .char

theorem cstring_align_of_varlena (align : Align) : AttLen.varlena = .cstring → align = .char := by
  intro h
  cases h

/-- `ATT_IS_PACKABLE`. -/
def Attribute.isPackable (att : Attribute) : Bool :=
  att.attlen = .varlena && att.attstorage ≠ .plain

/-- Whether the size of a value varies. -/
def Attribute.varies (att : Attribute) : Bool := att.attlen = .varlena || att.attlen = .cstring

/-- `att_align_nominal`. -/
def attAlignNominal (off : ℕ) (attalign : Align) : ℕ :=
  (off + (attalign.bytes - 1)) / attalign.bytes * attalign.bytes

/-- `att_align_pointer`, at an offset into the data of a row. -/
def attAlignPointer (off : ℕ) (attalign : Align) (data : Mem) : Run ℕ :=
  return if (← data.load off) ≠ 0 then off else attAlignNominal off attalign

/-- `strlen`. -/
def strlen (s : Mem) : Run ℕ := if 0 ∈ s then .ok (s.idxOf 0) else .error .fault

namespace Server

variable (sv : Server)

/-- `VARATT_CONVERTED_SHORT_SIZE`. -/
def varattConvertedShortSize (val : Mem) : Run ℕ :=
  return ((← sv.varsize4B val) + 2 ^ 32 - 4 + 1) % 2 ^ 32

/-- `VARATT_CAN_MAKE_SHORT`. -/
def varattCanMakeShort (val : Mem) : Run Bool := do
  if sv.is4BU (← val.load 0) then return (← sv.varattConvertedShortSize val) ≤ 0x7F
  else return false

/-- Whether a value is going to be written with a short header. -/
def packs (att : Attribute) (val : Mem) : Run Bool :=
  if att.isPackable then sv.varattCanMakeShort val else .ok false

/-- `att_align_datum`. -/
def attAlignDatum (off : ℕ) (att : Attribute) (val : Mem) : Run ℕ := do
  if att.attlen = .varlena then
    if ← sv.varattIsShort val then return off else return attAlignNominal off att.attalign
  else return attAlignNominal off att.attalign

/-- `att_addlength_pointer`. -/
def attAddlengthPointer (off : ℕ) (att : Attribute) (val : Mem) : Run ℕ :=
  match att.attlen with
  | .fixed n => .ok (off + n)
  | .varlena => return off + (← sv.varsizeAny val)
  | .cstring => return off + ((← strlen val) + 1)

/-- `VARATT_IS_EXTERNAL_EXPANDED`. -/
def varattIsExternalExpanded (val : Mem) : Run Bool := do
  if ← sv.varattIsExternal val then return (← val.load 1) &&& 0xFE == 2 else return false

/-- Whether a value is a pointer to an object that is going to be flattened. -/
def flattens (att : Attribute) (val : Mem) : Run Bool :=
  if att.attlen = .varlena then sv.varattIsExternalExpanded val else .ok false

/-! ## Writing a row -/

/-- What `heap_compute_data_size` adds for one value. -/
def addDataSize (att : Attribute) (val : Mem) (dataLength : ℕ) : Run ℕ := do
  if ← sv.packs att val then return dataLength + (← sv.varattConvertedShortSize val)
  else if ← sv.flattens att val then
    return attAlignNominal dataLength att.attalign + (← sv.flatten val).length
  else sv.attAddlengthPointer (← sv.attAlignDatum dataLength att val) att val

/-- The loop of `heap_compute_data_size`. -/
def computeDataSizeFrom : List (Attribute × Option Mem) → ℕ → Run ℕ
  | [], dataLength => .ok dataLength
  | (_, none) :: cols, dataLength => computeDataSizeFrom cols dataLength
  | (att, some val) :: cols, dataLength => do
    computeDataSizeFrom cols (← sv.addDataSize att val dataLength)

/-- `heap_compute_data_size`. -/
def heapComputeDataSize (cols : List (Attribute × Option Mem)) : Run ℕ :=
  sv.computeDataSizeFrom cols 0

end Server

/-- The null bitmap while it is written: its memory, the byte that was written last, and
the bit of it. -/
structure NullBits where
  bits : Mem
  bitP : ℤ
  bitmask : ℕ

/-- `HIGHBIT`. -/
abbrev highbit : ℕ := 0x80

/-- The next bit of the bitmap, in a new byte when the last one is full. -/
def NullBits.advance (nb : NullBits) : Run NullBits :=
  if nb.bitmask ≠ highbit then .ok { nb with bitmask := nb.bitmask <<< 1 }
  else (⟨·, nb.bitP + 1, 1⟩) <$> nb.bits.storeAt (nb.bitP + 1) [0]

/-- The part of `fill_val` for the bitmap. -/
def NullBits.fill (nb : NullBits) (isnull : Bool) : Run NullBits := do
  let nb ← nb.advance
  if isnull then return nb
  else
    let b ← nb.bits.load nb.bitP.toNat
    return { nb with bits := ← nb.bits.storeAt nb.bitP [b ||| UInt8.ofNat nb.bitmask] }

/-- A row while it is written: the bitmap, if it has one, the memory of its data and the
place in it, and the bits of `t_infomask` that tell what is in the row. -/
structure FillState where
  nulls : Option NullBits
  mem : Mem
  data : ℕ
  hasnull : Bool
  hasvarwidth : Bool
  hasexternal : Bool

namespace Server

variable (sv : Server)

/-- The bytes that `fill_val` writes for a value, the place where they go, and whether they
are a pointer. -/
def fillBytes (att : Attribute) (val : Mem) (data : ℕ) : Run (List UInt8 × ℕ × Bool) := do
  match att.attlen with
  | .fixed n => return (← val.copy 0 n, attAlignNominal data att.attalign, false)
  | .varlena =>
    if ← sv.varattIsExternal val then
      if ← sv.varattIsExternalExpanded val then
        return (← sv.flatten val, attAlignNominal data att.attalign, false)
      else return (← val.copy 0 (← varsizeExternal val), data, true)
    else if ← sv.varattIsShort val then
      return (← val.copy 0 (← sv.varsize1B val), data, false)
    else if ← sv.packs att val then
      let dataLength ← sv.varattConvertedShortSize val
      return (sv.setVarsizeShort dataLength :: (← val.copy 4 (dataLength - 1)), data, false)
    else return (← val.copy 0 (← sv.varsize4B val), attAlignNominal data att.attalign, false)
  | .cstring => return (← val.copy 0 ((← strlen val) + 1), data, false)

/-- `fill_val`. Without a bitmap the value is taken to be there. -/
def fillVal (st : FillState) (att : Attribute) (datum : Option Mem) : Run FillState := do
  let nulls ← st.nulls.elim (.ok none) fun nb => some <$> nb.fill datum.isNone
  if nulls.isSome && datum.isNone then return { st with nulls := nulls, hasnull := true }
  else
    let val ← datum.elim (.error .fault) .ok
    let (bytes, start, external) ← sv.fillBytes att val st.data
    let mem ← st.mem.storeAll start bytes
    return {
      nulls := nulls
      mem := mem
      data := start + bytes.length
      hasnull := st.hasnull
      hasvarwidth := st.hasvarwidth || att.varies
      hasexternal := st.hasexternal || external }

/-- The loop of `heap_fill_tuple`. -/
def fillVals : FillState → List (Attribute × Option Mem) → Run FillState
  | st, [] => .ok st
  | st, (att, datum) :: cols => do fillVals (← sv.fillVal st att datum) cols

end Server

/-- A row: the number of its values, its null bitmap, its data, and what `t_infomask` tells
about them. -/
structure HeapTuple where
  natts : ℕ
  hasnull : Bool
  hasexternal : Bool
  bits : Mem
  data : Mem

/-- `BITMAPLEN`. -/
def bitmaplen (natts : ℕ) : ℕ := (natts + 7) / 8

/-- `MAXALIGN`. -/
def maxalign (n : ℕ) : ℕ := (n + 7) / 8 * 8

/-- `SizeofHeapTupleHeader`. -/
abbrev sizeofHeapTupleHeader : ℕ := 23

/-- The size of the header of a row, with its bitmap. -/
def headerLen (hasnulls : Bool) (natts : ℕ) : ℕ :=
  maxalign (if hasnulls then sizeofHeapTupleHeader + bitmaplen natts else sizeofHeapTupleHeader)

/-- `t_len`. -/
def HeapTuple.tLen (tup : HeapTuple) : ℕ := headerLen tup.hasnull tup.natts + tup.data.length

namespace Server

variable (sv : Server)

/-- **`heap_fill_tuple`**, with the memory for the data that its caller has cleared. -/
def heapFillTuple (hasnulls : Bool) (dataSize : ℕ) (cols : List (Attribute × Option Mem)) :
    Run HeapTuple := do
  let nulls :=
    if hasnulls then some ⟨List.replicate (bitmaplen cols.length) 0, -1, highbit⟩ else none
  let st ← sv.fillVals ⟨nulls, List.replicate dataSize 0, 0, false, false, false⟩ cols
  return ⟨cols.length, st.hasnull, st.hasexternal, st.nulls.elim [] NullBits.bits, st.mem⟩

/-- **Building a row**, as `heap_form_tuple` and the toaster do: the size of the data is
worked out, memory is asked for and cleared, with `extra` bytes in front of the row, and
`heap_fill_tuple` writes to it. -/
def buildTuple (extra : ℕ) (hasnulls : Bool) (cols : List (Attribute × Option Mem)) :
    Run HeapTuple := do
  let dataLen ← sv.heapComputeDataSize cols
  palloc (extra + (headerLen hasnulls cols.length + dataLen) : ℕ)
  sv.heapFillTuple hasnulls dataLen cols

/-- `HEAPTUPLESIZE`. -/
abbrev heaptuplesize : ℕ := 24

/-- `MaxTupleAttributeNumber`. -/
abbrev maxTupleAttributeNumber : ℕ := 1664

/-- **`heap_form_tuple`.** -/
def heapFormTuple (cols : List (Attribute × Option Mem)) : Run HeapTuple :=
  if cols.length > maxTupleAttributeNumber then
    .error (.ereport {
      code := .tooManyColumns
      message := "number of columns (" ++ toString cols.length ++ ") exceeds limit ("
        ++ toString maxTupleAttributeNumber ++ ")" })
  else sv.buildTuple heaptuplesize (cols.any fun col => col.2.isNone) cols

end Server

/-! ## Taking a row apart -/

/-- `att_isnull`. -/
def attIsnull (attnum : ℕ) (bits : Mem) : Run Bool :=
  return (← bits.load (attnum / 8)).toNat &&& (1 <<< (attnum % 8)) == 0

/-- A descriptor: its attributes, with `attcacheoff`. -/
abbrev TupleDesc := List (Attribute × Option ℕ)

/-- Where `heap_deform_tuple` looks for a value that is not null: the offset, and what
becomes of `attcacheoff` and of `slow`. -/
def deformOffset (data : Mem) (att : Attribute) (attcacheoff : Option ℕ) (off : ℕ) (slow : Bool) :
    Run (ℕ × Option ℕ × Bool) :=
  if !slow && attcacheoff.isSome then .ok (attcacheoff.getD 0, attcacheoff, slow)
  else if att.attlen = .varlena then
    if !slow && off = attAlignNominal off att.attalign then .ok (off, some off, slow)
    else (fun off => (off, attcacheoff, true)) <$> attAlignPointer off att.attalign data
  else
    let off := attAlignNominal off att.attalign
    .ok (off, if slow then attcacheoff else some off, slow)

namespace Server

variable (sv : Server)

/-- The first loop of `heap_deform_tuple`: the values, and the offsets remembered. -/
def deformLoop (tup : HeapTuple) : TupleDesc → ℕ → ℕ → Bool → Run (List (Option Mem × Option ℕ))
  | [], _, _, _ => .ok []
  | (att, attcacheoff) :: desc, attnum, off, slow => do
    if ← (if tup.hasnull then attIsnull attnum tup.bits else .ok false) then
      let rest ← deformLoop tup desc (attnum + 1) off true
      return (none, attcacheoff) :: rest
    else
      let (off, attcacheoff, slow) ← deformOffset tup.data att attcacheoff off slow
      let next ← sv.attAddlengthPointer off att (tup.data.drop off)
      let val ← tup.data.copy off (next - off)
      let rest ← deformLoop tup desc (attnum + 1) next (slow || att.varies)
      return (some val, attcacheoff) :: rest

/-- **`heap_deform_tuple`**: the values of a row, and the descriptor after it. -/
def heapDeformTuple (tup : HeapTuple) (desc : TupleDesc) : Run (List (Option Mem) × TupleDesc) := do
  let natts := min tup.natts desc.length
  let found ← sv.deformLoop tup (desc.take natts) 0 0 false
  return (found.map Prod.fst ++ (desc.drop natts).map fun col => col.1.attmissing,
    (desc.take natts).zipWith (fun col r => (col.1, r.2)) found ++ desc.drop natts)

end Server

/-! ## The null bitmap -/

/-- A bit of the bitmap. -/
def bitAt (bits : Mem) (i : ℕ) : Bool := (bits.getD (i / 8) 0).toNat.testBit (i % 8)

theorem bitAt_set (bits : Mem) {k : ℕ} (hk : k < bits.length) (b : UInt8) (i : ℕ) :
    bitAt (bits.set k b) i = if i / 8 = k then b.toNat.testBit (i % 8) else bitAt bits i := by
  unfold bitAt
  rw [List.getD_eq_getElem?_getD, List.getD_eq_getElem?_getD, List.getElem?_set]
  by_cases h : i / 8 = k
  · rw [if_pos h.symm, if_pos hk, if_pos h]
    rfl
  · rw [if_neg (Ne.symm h), if_neg h]

theorem storeAt_singleton {m : Mem} {i : ℕ} (hi : i < m.length) (b : UInt8) :
    m.storeAt i [b] = .ok (m.set i b) := by
  rw [Mem.storeAt_natCast, Mem.storeAll, Mem.store, if_pos hi]
  rfl

/-- **What has been written to the bitmap**: the bits of the values so far, and no other
bit of the byte that was begun. -/
structure NullBits.Holds (nb : NullBits) (isnull : List Bool) (size : ℕ) : Prop where
  length_eq : nb.bits.length = size
  bitP_eq : nb.bitP = ((isnull.length + 7) / 8 : ℕ) - 1
  bitmask_eq : nb.bitmask = 2 ^ ((isnull.length + 7) % 8)
  written : ∀ i null, isnull[i]? = some null → bitAt nb.bits i = !null
  clear : ∀ i, isnull.length ≤ i → i < (isnull.length + 7) / 8 * 8 → bitAt nb.bits i = false

namespace NullBits.Holds

variable {nb : NullBits} {isnull : List Bool} {size : ℕ}

/-- Going on to the next bit. -/
theorem advance (h : nb.Holds isnull size) (hroom : isnull.length / 8 < size) :
    ∃ bits, nb.advance = .ok ⟨bits, (isnull.length / 8 : ℕ), 2 ^ (isnull.length % 8)⟩
      ∧ bits.length = size
      ∧ (∀ i null, isnull[i]? = some null → bitAt bits i = !null)
      ∧ ∀ i, isnull.length ≤ i → i < (isnull.length / 8 + 1) * 8 → bitAt bits i = false := by
  have hP := h.bitP_eq
  unfold NullBits.advance
  by_cases hfull : isnull.length % 8 = 0
  · -- a new byte
    have hmask : nb.bitmask = highbit := by
      rw [h.bitmask_eq, show (isnull.length + 7) % 8 = 7 by omega]
      rfl
    have hroom' : isnull.length / 8 < nb.bits.length := h.length_eq.symm ▸ hroom
    rw [if_neg (not_not_intro hmask), show nb.bitP + 1 = ((isnull.length / 8 : ℕ) : ℤ) by omega,
      storeAt_singleton hroom', hfull]
    refine ⟨nb.bits.set (isnull.length / 8) 0, rfl, ?_, fun i null hi => ?_, fun i hi hlt => ?_⟩
    · rw [List.length_set]
      exact h.length_eq
    · have hlt := (List.getElem?_eq_some_iff.mp hi).1
      rw [bitAt_set _ hroom', if_neg (by omega)]
      exact h.written i null hi
    · rw [bitAt_set _ hroom', if_pos (by omega)]
      exact Nat.zero_testBit _
  · have hmask : nb.bitmask <<< 1 = 2 ^ (isnull.length % 8) := by
      rw [h.bitmask_eq, Nat.shiftLeft_eq, ← Nat.pow_succ]
      exact congrArg (2 ^ ·) (by omega)
    have hne : nb.bitmask ≠ highbit := by
      rw [h.bitmask_eq]
      intro heq
      have := Nat.pow_right_injective (Nat.le_refl 2) (heq.trans (by decide : highbit = 2 ^ 7))
      omega
    rw [if_pos hne, hmask, show nb.bitP = ((isnull.length / 8 : ℕ) : ℤ) by omega]
    exact ⟨nb.bits, rfl, h.length_eq, h.written, fun i hi hlt => h.clear i hi (by omega)⟩

/-- **One value**: its bit is written. -/
theorem fill (h : nb.Holds isnull size) (hroom : isnull.length / 8 < size) (null : Bool) :
    ∃ nb', nb.fill null = .ok nb' ∧ nb'.Holds (isnull ++ [null]) size := by
  obtain ⟨bits, hnext, hlen, hwritten, hclear⟩ := h.advance hroom
  have hk : isnull.length / 8 < bits.length := hlen.symm ▸ hroom
  have hlast : ∀ {i} {x : Bool}, (isnull ++ [null])[i]? = some x →
      isnull[i]? = some x ∨ i = isnull.length ∧ x = null := by
    intro i x hi
    rcases Nat.lt_or_ge i isnull.length with hlt | hge
    · rw [List.getElem?_append_left hlt] at hi
      exact Or.inl hi
    · rw [List.getElem?_append_right hge] at hi
      have hz : i - isnull.length = 0 := by
        have := (List.getElem?_eq_some_iff.mp hi).1
        rw [List.length_singleton] at this
        omega
      rw [hz] at hi
      exact Or.inr ⟨by omega, (Option.some.inj hi).symm⟩
  have hP : ((isnull.length / 8 : ℕ) : ℤ) = (((isnull ++ [null]).length + 7) / 8 : ℕ) - 1 := by
    rw [List.length_append, List.length_singleton]
    omega
  have hmask : 2 ^ (isnull.length % 8) = 2 ^ (((isnull ++ [null]).length + 7) % 8) := by
    rw [List.length_append, List.length_singleton]
    exact congrArg (2 ^ ·) (by omega)
  unfold NullBits.fill
  rw [hnext, Run.ok_bind]
  cases null with
  | true =>
    refine ⟨_, rfl, hlen, hP, hmask, fun i x hi => ?_, fun i hi hlt => ?_⟩
    · rcases hlast hi with hi | ⟨rfl, rfl⟩
      · exact hwritten i x hi
      · exact hclear _ (Nat.le_refl _) (by omega)
    · rw [List.length_append, List.length_singleton] at hi hlt
      exact hclear i (by omega) (by omega)
  | false =>
    obtain ⟨b, hb⟩ := Mem.exists_load_iff.mpr hk
    have hbyte : bits.getD (isnull.length / 8) 0 = b := by
      have hdrop := Mem.drop_of_load hb
      rw [List.getD_eq_getElem?_getD, ← List.head?_drop, hdrop]
      rfl
    have hpow : (UInt8.ofNat (2 ^ (isnull.length % 8))).toNat = 2 ^ (isnull.length % 8) := by
      rw [UInt8.toNat_ofNat']
      exact Nat.mod_eq_of_lt (Nat.pow_lt_pow_right (by decide) (Nat.mod_lt _ (by decide)))
    rw [if_neg Bool.false_ne_true, Int.toNat_natCast, hb, Run.ok_bind, storeAt_singleton hk]
    -- the bit is set, and the others of its byte stay
    have hset : ∀ i, bitAt (bits.set (isnull.length / 8)
        (b ||| UInt8.ofNat (2 ^ (isnull.length % 8)))) i
        = (bitAt bits i || decide (i = isnull.length)) := by
      intro i
      rw [bitAt_set _ hk]
      split
      · rename_i hi
        rw [UInt8.toNat_or, hpow, Nat.testBit_or, Nat.testBit_two_pow]
        unfold bitAt
        rw [hi, hbyte]
        refine congrArg _ (decide_eq_decide.mpr ?_)
        omega
      · rename_i hi
        rw [decide_eq_false (by rintro rfl; exact hi rfl), Bool.or_false]
    refine ⟨_, rfl, by rw [List.length_set]; exact hlen, hP, hmask, fun i x hi => ?_,
      fun i hi hlt => ?_⟩
    · rw [hset]
      rcases hlast hi with hi | ⟨rfl, rfl⟩
      · have := (List.getElem?_eq_some_iff.mp hi).1
        rw [hwritten i x hi, decide_eq_false (by omega), Bool.or_false]
      · rw [decide_eq_true rfl, Bool.or_true]
        rfl
    · rw [List.length_append, List.length_singleton] at hi hlt
      rw [hset, hclear i (by omega) (by omega), decide_eq_false (by omega)]
      rfl

/-- **The bitmap tells which values are null.** -/
theorem attIsnull_eq (h : nb.Holds isnull size) {i : ℕ} {null : Bool}
    (hi : isnull[i]? = some null) (hsize : isnull.length ≤ size * 8) :
    attIsnull i nb.bits = .ok null := by
  have hlt := (List.getElem?_eq_some_iff.mp hi).1
  have hk : i / 8 < nb.bits.length := by
    rw [h.length_eq]
    omega
  obtain ⟨b, hb⟩ := Mem.exists_load_iff.mpr hk
  have hbyte : nb.bits.getD (i / 8) 0 = b := by
    rw [List.getD_eq_getElem?_getD, ← List.head?_drop, Mem.drop_of_load hb]
    rfl
  have hbit := h.written i null hi
  unfold bitAt at hbit
  rw [hbyte] at hbit
  rw [attIsnull, hb, Run.ok_bind, Nat.one_shiftLeft, Nat.and_two_pow, hbit]
  refine congrArg Except.ok ?_
  cases null with
  | true => rw [Bool.not_true, Bool.toNat_false, Nat.zero_mul]; rfl
  | false =>
    rw [Bool.not_false, Bool.toNat_true, Nat.one_mul]
    exact beq_eq_false_iff_ne.mpr (Nat.pos_iff_ne_zero.mp (Nat.two_pow_pos _))

end NullBits.Holds
