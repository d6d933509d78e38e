import Hoco.HocotextWalk

/-!
# Extracting a substring

`hocotext_extract` works on the payload of a compressed datum
(`hocotext_hoco_extract`), `text_extract` decompresses the datum first and then
copies (`hocotext_common_extract`).

The result of either is built in a fresh block. `palloc` does not clear it, and
both functions ask `VARDATA_ANY` where its data starts *before* they store a
header there: the answer depends on what the block happened to hold. The
contents of a fresh block are therefore an argument of the functions (`Block`),
as are the mapped bytes behind the source (`Mem`).

The scan of the payload has two loops, one that walks to the offset and one
that copies. `ExtractState` has their variables. The second loop expects `sp` at
the data of the token that `type` and `count` describe, and ends every turn by
reading the next mark.

The functions are written with the trace of what they read (`Walk`), and a function
without it is what the one with it comes to.
-/

open Rle TextOrder

/-- What a block of memory holds, by distance from its start. -/
abbrev Block := ℕ → UInt8

namespace Block

/-- Storing bytes from a position on. -/
def store (block : Block) (i : ℕ) (bytes : List UInt8) : Block :=
  fun j => if i ≤ j then bytes[j - i]?.getD (block j) else block j

/-- The first `size` bytes of a block. -/
def mem (block : Block) (size : ℕ) : Mem := (List.range size).map block

/-- Bytes stored at the start of a block are the first of its bytes. -/
theorem mem_store_zero (block : Block) (bytes : List UInt8) (n : ℕ) :
    (block.store 0 bytes).mem (bytes.length + n)
      = bytes ++ (List.range n).map fun i => block (bytes.length + i) := by
  unfold mem
  rw [List.range_add, List.map_append, List.map_map]
  congr 1
  · refine List.ext_getElem (by simp) fun i hi hi' => ?_
    simp [store, hi']
  · refine List.map_congr_left fun i _ => ?_
    simp [store]

end Block

/-- The high bit of a mark. -/
def markIsRun (mark : UInt8) : Bool := 128 ≤ mark.toNat

/-- The number of bytes a mark announces. -/
def markCount (mark : UInt8) : ℕ :=
  if markIsRun mark then (mark &&& 0x7F).toNat + threshold else (mark &&& 0x7F).toNat

namespace Server

variable (sv : Server)

/-! ## The functions -/

/-- The end of both functions: the bytes are stored at `VARDATA_ANY` of the
fresh block, with a terminator, and then the header is. -/
def resultDatum (fresh : Block) (len : ℕ) (bytes : List UInt8) : Mem :=
  ((fresh.store (sv.vardataAny (fresh 0)) (bytes ++ [0])).store 0
    (sv.setVarsize (bytes.length + 4))).mem (len + 14)

/-- The variables of `hocotext_hoco_extract`: `repeated` is its `type`, and
`out` are the bytes stored through `dp`. -/
structure ExtractState where
  sp : ℕ
  curOffset : ℕ
  count : ℕ
  repeated : Bool
  out : List UInt8

namespace Walk

open Traced

/-- The macro `repeat_buf_copy`, from a byte of the source: the bytes that are stored.
The byte is read in every turn. -/
def repeatByte (source : Mem) (sp : ℕ) : ℕ → Walk (List UInt8)
  | 0 => return []
  | count + 1 => do
    let b ← load .left source sp
    let bytes ← repeatByte source sp count
    return b :: bytes

/-- Copying `count` bytes of a token whose data is at `sp`: the bytes, and the
position behind the data. -/
def readChunk (source : Mem) (repeated : Bool) (count sp : ℕ) : Walk (List UInt8 × ℕ) :=
  if repeated then do
    let bytes ← repeatByte source sp count
    return (bytes, sp + 1)
  else do
    let bytes ← copy .left source sp count
    return (bytes, sp + count)

/-- The first test of a turn, which is meant to read the mark of the first
token: it compares `sp` with the address of `vl_dat`, four bytes into the datum,
where it never is. -/
def currentToken (source : Mem) (s : ExtractState) : Walk (Bool × ℕ) :=
  if s.sp = 4 then do
    let mark ← loadMark .left source s.sp
    return (markIsRun mark, markCount mark)
  else return (s.repeated, s.count)

/-- The loop that walks to the offset. Every turn reads a mark further on, so
it ends, in a fault at the latest. -/
def locateLoop (source : Mem) (offset : ℤ) : ℕ → ExtractState → Walk ExtractState
  | 0, _ => lift (.error .fault)
  | fuel + 1, s =>
    if (s.curOffset : ℤ) < offset then do
      let mark ← loadMark .left source s.sp
      let repeated := markIsRun mark
      let count := markCount mark
      let left := (offset - s.curOffset).toNat
      let reach : Bool := offset - (count + s.curOffset) ≤ 0
      locateLoop source offset fuel {
        sp := s.sp + if repeated then (if reach then 1 else 2)
          else (if reach then left + 1 else count + 1)
        curOffset := s.curOffset + if reach then left else count
        count := count - if reach then left else 0
        repeated
        out := s.out }
    else return s

/-- The loop that copies. Its tests are on 32-bit integers, which wrap around. -/
def copyLoop (source : Mem) (offset len : ℤ) (rawsize : ℕ) :
    ℕ → ExtractState → Walk ExtractState
  | 0, _ => lift (.error .fault)
  | fuel + 1, s =>
    if int32 (s.curOffset - offset) < len ∧ s.curOffset < rawsize then do
      let (repeated, count) ← currentToken source s
      let count := if int32 (count + s.curOffset - offset) > len
        then (int32 (len + offset - s.curOffset)).toNat else count
      let (bytes, sp) ← readChunk source repeated count s.sp
      let mark ← loadMark .left source sp
      copyLoop source offset len rawsize fuel {
        sp := sp + 1
        curOffset := s.curOffset + count
        count := markCount mark
        repeated := markIsRun mark
        out := s.out ++ bytes }
    else return s

/-- The two loops, one after the other. -/
def scan (source : Mem) (offset len : ℤ) (rawsize fuel : ℕ) : Walk ExtractState := do
  let s ← locateLoop source offset fuel ⟨varhdrszCompressed, 0, 0, true, []⟩
  copyLoop source offset len rawsize fuel s

/-- `hocotext_hoco_extract` as far as the bytes that are stored: none are, and it returns
`NULL`, after it has printed `Error: wrong extraction result`. -/
def hocoBytes (source : Mem) (offset len : ℤ) (collid : Oid) : Walk (Option (List UInt8)) := do
  lift (palloc (int32 (len + 14)))
  let rawsize ← lift (sv.vardataCompressedGetExtsize source)
  lift (checkCollation collid)
  if len < 0 then lift (.error (.exit "Error: Bad extraction start offset\n"))
  else
    let s ← scan source offset len rawsize (source.length + 1)
    if (s.out.length : ℤ) ≠ len ∨ s.curOffset = rawsize then return none
    else return some s.out

/-- **`hocotext_hoco_extract`**, with what it reads. -/
def hocotextHocoExtract (fresh : Block) (source : Mem) (offset len : ℤ) (collid : Oid) :
    Walk (Option Mem) := do
  let bytes ← hocoBytes sv source offset len collid
  return bytes.map (sv.resultDatum fresh len.toNat)

end Walk

/-- What `Walk.readChunk` comes to. -/
def readChunk (source : Mem) (repeated : Bool) (count sp : ℕ) : Run (List UInt8 × ℕ) :=
  (Walk.readChunk source repeated count sp).result

/-- What the loop that walks to the offset comes to. -/
def locateLoop (source : Mem) (offset : ℤ) (fuel : ℕ) (s : ExtractState) : Run ExtractState :=
  (Walk.locateLoop source offset fuel s).result

/-- What the loop that copies comes to. -/
def copyLoop (source : Mem) (offset len : ℤ) (rawsize fuel : ℕ) (s : ExtractState) :
    Run ExtractState :=
  (Walk.copyLoop source offset len rawsize fuel s).result

/-- The bytes that `hocotext_hoco_extract` copies. -/
def hocoBytes (source : Mem) (offset len : ℤ) (collid : Oid) : Run (Option (List UInt8)) :=
  (Walk.hocoBytes sv source offset len collid).result

/-- **`hocotext_hoco_extract`.** -/
def hocotextHocoExtract (fresh : Block) (source : Mem) (offset len : ℤ) (collid : Oid) :
    Run (Option Mem) :=
  (Walk.hocotextHocoExtract sv fresh source offset len collid).result

/-- `hocotext_common_extract` as far as the bytes that are copied. The end of the source is
read with `VARSIZE`, the macro for a four-byte header. A negative size makes `memcpy`
read without end. -/
def commonBytes (source : Mem) (offset len : ℤ) (collid : Oid) : Run (Option (List UInt8)) := do
  palloc (int32 (len + 14))
  let sp := sv.vardataAny (← source.load 0)
  let srcend ← sv.varsize4B source
  checkCollation collid
  if (offset % 2 ^ 64).toNat > (← sv.varsizeAnyExhdr source) then return none
  else
    let resultLen := if (srcend : ℤ) - (sp + offset) < len then (srcend : ℤ) - (sp + offset) else len
    if resultLen < 0 then .error .fault
    else
      let bytes ← source.copy (sp + offset).toNat resultLen.toNat
      return some bytes

/-- **`hocotext_common_extract`.** -/
def hocotextCommonExtract (fresh : Block) (source : Mem) (offset len : ℤ) (collid : Oid) :
    Run (Option Mem) :=
  Option.map (sv.resultDatum fresh len.toNat) <$> sv.commonBytes source offset len collid

/-- **`hocotext_extract`.** -/
def hocotextExtract (fresh : Block) (source : Mem) (offset len : ℤ) (collid : Oid) :
    Run (Option Mem) := do
  let sourceStr ← sv.hocotextDatumPacked source
  if ← sv.varattIsCompressed sourceStr then
    sv.hocotextHocoExtract fresh sourceStr offset len collid
  else sv.hocotextCommonExtract fresh sourceStr offset len collid

/-- **`text_extract`.** -/
def textExtract (fresh : Block) (source : Mem) (offset len : ℤ) (collid : Oid) :
    Run (Option Mem) := do
  sv.hocotextCommonExtract fresh (← sv.pgDetoastDatumPacked source) offset len collid

/-! ## The functions without their traces -/

theorem result_repeatByte (source : Mem) (sp count : ℕ) :
    (Walk.repeatByte source sp count).result
      = if count = 0 then .ok [] else List.replicate count <$> source.load sp := by
  induction count with
  | zero => rfl
  | succ count ih =>
    rw [Walk.repeatByte, if_neg (Nat.succ_ne_zero count)]
    simp only [Traced.result_bind, Walk.result_load, ih, Traced.result_pure]
    cases source.load sp with
    | error e => rfl
    | ok b =>
      by_cases hcount : count = 0
      · rw [if_pos hcount, hcount]
        rfl
      · rw [if_neg hcount]
        rfl

/-- A run of no bytes is not read. -/
theorem readChunk_eq (source : Mem) (repeated : Bool) (count sp : ℕ) :
    readChunk source repeated count sp = if repeated then
        if count = 0 then .ok ([], sp + 1)
        else (fun b => (List.replicate count b, sp + 1)) <$> source.load sp
      else (fun bytes => (bytes, sp + count)) <$> source.copy sp count := by
  unfold readChunk
  cases repeated with
  | true =>
    rw [Walk.readChunk, if_pos rfl, if_pos rfl, Traced.result_bind, result_repeatByte]
    by_cases hcount : count = 0
    · rw [if_pos hcount, if_pos hcount]
      rfl
    · rw [if_neg hcount, if_neg hcount]
      cases source.load sp <;> rfl
  | false =>
    rw [Walk.readChunk, if_neg Bool.false_ne_true, if_neg Bool.false_ne_true, Traced.result_bind,
      Walk.result_copy]
    cases source.copy sp count <;> rfl

/-- A turn of the walk to the offset. -/
theorem locateLoop_eq (source : Mem) (offset : ℤ) (fuel : ℕ) (s : ExtractState) :
    locateLoop source offset (fuel + 1) s
      = if (s.curOffset : ℤ) < offset then do
          let mark ← source.load s.sp
          let count := markCount mark
          let left := (offset - s.curOffset).toNat
          let reach : Bool := offset - (count + s.curOffset) ≤ 0
          locateLoop source offset fuel {
            sp := s.sp + if markIsRun mark then (if reach then 1 else 2)
              else (if reach then left + 1 else count + 1)
            curOffset := s.curOffset + if reach then left else count
            count := count - if reach then left else 0
            repeated := markIsRun mark
            out := s.out }
        else .ok s := by
  unfold locateLoop
  rw [Walk.locateLoop]
  split
  · rw [Traced.result_bind, Walk.result_loadMark]
  · rfl

/-- A turn of the copying loop. -/
theorem copyLoop_eq (source : Mem) (offset len : ℤ) (rawsize fuel : ℕ) (s : ExtractState) :
    copyLoop source offset len rawsize (fuel + 1) s
      = if int32 (s.curOffset - offset) < len ∧ s.curOffset < rawsize then do
          let (repeated, count) ← (Walk.currentToken source s).result
          let count := if int32 (count + s.curOffset - offset) > len
            then (int32 (len + offset - s.curOffset)).toNat else count
          let (bytes, sp) ← readChunk source repeated count s.sp
          let mark ← source.load sp
          copyLoop source offset len rawsize fuel {
            sp := sp + 1
            curOffset := s.curOffset + count
            count := markCount mark
            repeated := markIsRun mark
            out := s.out ++ bytes }
        else .ok s := by
  unfold copyLoop readChunk
  rw [Walk.copyLoop]
  split
  · simp only [Traced.result_bind, Walk.result_loadMark]
  · rfl

/-- Where the first test of a turn is not met, the token is the one that was read before. -/
theorem result_currentToken {s : ExtractState} (hsp : s.sp ≠ 4) (source : Mem) :
    (Walk.currentToken source s).result = .ok (s.repeated, s.count) := by
  rw [Walk.currentToken, if_neg hsp]
  rfl

theorem result_scan (source : Mem) (offset len : ℤ) (rawsize fuel : ℕ) :
    (Walk.scan source offset len rawsize fuel).result
      = locateLoop source offset fuel ⟨varhdrszCompressed, 0, 0, true, []⟩
        >>= copyLoop source offset len rawsize fuel :=
  Traced.result_bind

/-- The bytes that are stored, check by check. -/
theorem hocoBytes_eq (source : Mem) (offset len : ℤ) (collid : Oid) :
    sv.hocoBytes source offset len collid = (do
      palloc (int32 (len + 14))
      let rawsize ← sv.vardataCompressedGetExtsize source
      checkCollation collid
      if len < 0 then .error (.exit "Error: Bad extraction start offset\n")
      else
        let s ← locateLoop source offset (source.length + 1) ⟨varhdrszCompressed, 0, 0, true, []⟩
        let s ← copyLoop source offset len rawsize (source.length + 1) s
        if (s.out.length : ℤ) ≠ len ∨ s.curOffset = rawsize then return none
        else return some s.out) := by
  unfold hocoBytes Walk.hocoBytes
  simp only [Traced.result_bind, Traced.result_lift]
  refine bind_congr fun _ => bind_congr fun rawsize => bind_congr fun _ => ?_
  split
  · rfl
  · rw [Traced.result_bind, result_scan, bind_assoc]
    refine bind_congr fun s => bind_congr fun s' => ?_
    split <;> rfl

/-- **The block only comes in when the bytes are placed.** -/
theorem hocotextHocoExtract_eq_map (fresh : Block) (source : Mem) (offset len : ℤ) (collid : Oid) :
    sv.hocotextHocoExtract fresh source offset len collid
      = Option.map (sv.resultDatum fresh len.toNat) <$> sv.hocoBytes source offset len collid := by
  unfold hocotextHocoExtract Walk.hocotextHocoExtract hocoBytes
  rw [Traced.result_bind]
  cases (Walk.hocoBytes sv source offset len collid).result <;> rfl

/-! ## Reading a result -/

/-- The text of a datum that is not compressed, as any of its readers takes
it. -/
def readText (m : Mem) : Run (List UInt8) := do
  let off := sv.vardataAny (← m.load 0)
  let size ← sv.varsizeAny m
  m.copy off (size - off)

/-- The outcome of an extraction: a text, or none for `NULL`. -/
def textOutcome (r : Run (Option Mem)) : Run (Option (List UInt8)) := do
  match ← r with
  | none => return none
  | some m => return some (← sv.readText m)

theorem HasText.readText_eq {sv : Server} {m : Mem} {form : Form} {t : List UInt8}
    (h : sv.HasText m form t) : sv.readText m = .ok t := by
  obtain ⟨b, hb, hoff⟩ := h.header.vardataAny_eq h.uncompressed
  obtain ⟨rest, hmap⟩ := h.mapped
  rw [readText, hb, h.header.varsizeAny_eq]
  simp only [Run.ok_bind, hoff]
  rw [Nat.add_sub_cancel_left, Mem.copy_of_drop hmap]

/-- The bytes that stand where the data of the result is read, once `w` is
stored at `VARDATA_ANY` of the fresh block. -/
def landed (fresh : Block) (w : List UInt8) : List UInt8 :=
  (List.range w.length).map fun i =>
    (fresh.store (sv.vardataAny (fresh 0)) (w ++ [0])) (4 + i)

theorem landed_length (fresh : Block) (w : List UInt8) : (sv.landed fresh w).length = w.length := by
  simp [landed]

/-- **Stored bytes are read as the text `w`**: the fresh block has the mark of a
four-byte header and the bytes are `w`, or it has the mark of a short one, and
then `w` is what is found three bytes further on, where the bytes are followed
by the terminator and by two bytes of the fresh block. -/
def Lands (fresh : Block) (out w : List UInt8) : Prop :=
  out.length = w.length
    ∧ if sv.vardataAny (fresh 0) = 4 then out = w
      else ∀ i < w.length,
        (out ++ [0, fresh (out.length + 2), fresh (out.length + 3)])[i + 3]? = w[i]?

theorem landed_getElem? (fresh : Block) (out : List UInt8) {i : ℕ} (hi : i < out.length) :
    (sv.landed fresh out)[i]? = if sv.vardataAny (fresh 0) = 4 then out[i]?
      else (out ++ [0, fresh (out.length + 2), fresh (out.length + 3)])[i + 3]? := by
  have hget : (sv.landed fresh out)[i]?
      = some ((fresh.store (sv.vardataAny (fresh 0)) (out ++ [0])) (4 + i)) := by
    rw [landed, List.getElem?_map, List.getElem?_range hi]
    rfl
  rw [hget]
  split
  · rename_i hoff
    rw [hoff, Block.store, if_pos (by omega), Nat.add_sub_cancel_left,
      List.getElem?_append_left hi, List.getElem?_eq_getElem hi]
    rfl
  · rename_i hoff
    have hoff₁ : sv.vardataAny (fresh 0) = 1 := by
      unfold vardataAny at hoff ⊢
      split at hoff
      · rw [if_pos ‹_›]
      · exact absurd rfl hoff
    rw [hoff₁, Block.store, if_pos (by omega), show 4 + i - 1 = i + 3 by omega]
    -- the terminator and the two bytes behind it are the only ones not copied
    rcases Nat.lt_or_ge (i + 3) out.length with hlt | hge
    · rw [List.getElem?_append_left hlt, List.getElem?_append_left hlt,
        List.getElem?_eq_getElem hlt]
      rfl
    · obtain ⟨d, hd⟩ := Nat.exists_eq_add_of_le hge
      have hd3 : d < 3 := by omega
      rw [List.getElem?_append_right hge, List.getElem?_append_right hge, hd,
        Nat.add_sub_cancel_left]
      match d, hd3, hd with
      | 0, _, _ => rfl
      | 1, _, hd => rw [show out.length + 2 = 4 + i by omega]; rfl
      | 2, _, hd => rw [show out.length + 3 = 4 + i by omega]; rfl

theorem landed_eq_iff (fresh : Block) (out w : List UInt8) :
    sv.landed fresh out = w ↔ sv.Lands fresh out w := by
  have hlen := sv.landed_length fresh out
  unfold Lands
  constructor
  · rintro rfl
    refine ⟨hlen.symm, ?_⟩
    split
    · rename_i hoff
      refine List.ext_getElem? fun i => ?_
      rcases Nat.lt_or_ge i out.length with hi | hi
      · rw [sv.landed_getElem? fresh out hi, if_pos hoff]
      · rw [List.getElem?_eq_none hi, List.getElem?_eq_none (by omega)]
    · rename_i hoff
      intro i hi
      rw [sv.landed_getElem? fresh out (by omega), if_neg hoff]
  · rintro ⟨hsame, hbytes⟩
    refine List.ext_getElem? fun i => ?_
    rcases Nat.lt_or_ge i out.length with hi | hi
    · rw [sv.landed_getElem? fresh out hi]
      split
      · rename_i hoff
        rw [if_pos hoff] at hbytes
        rw [hbytes]
      · rename_i hoff
        rw [if_neg hoff] at hbytes
        exact hbytes i (by omega)
    · rw [List.getElem?_eq_none (by omega), List.getElem?_eq_none (by omega)]

/-- A result is a plain datum of the bytes that landed, and then the rest of its
block. -/
theorem exists_resultDatum_eq (fresh : Block) {len : ℕ} {w : List UInt8} (hlen : w.length ≤ len) :
    ∃ rest, sv.resultDatum fresh len w = sv.plainDatum (sv.landed fresh w) ++ rest := by
  have hhdr : (sv.setVarsize (w.length + 4)).length = 4 := sv.wordBytes_length _
  refine ⟨(List.range (len + 10 - w.length)).map fun i =>
    (fresh.store (sv.vardataAny (fresh 0)) (w ++ [0])) (4 + (w.length + i)), ?_⟩
  rw [resultDatum, show len + 14 = (sv.setVarsize (w.length + 4)).length + (len + 10) by
    omega, Block.mem_store_zero, hhdr, plainDatum, landed_length, List.append_assoc]
  refine congrArg (sv.setVarsize (w.length + 4) ++ ·) ?_
  rw [show len + 10 = w.length + (len + 10 - w.length) by omega, List.range_add,
    List.map_append, List.map_map, Nat.add_sub_cancel_left]
  rfl

theorem hasText_resultDatum (fresh : Block) {len : ℕ} {w : List UInt8} (hlen : w.length ≤ len)
    (fits : w.length + 4 < 2 ^ 30) :
    sv.HasText (sv.resultDatum fresh len w) .plain (sv.landed fresh w) := by
  obtain ⟨rest, hrest⟩ := sv.exists_resultDatum_eq fresh hlen
  rw [hrest]
  exact sv.hasText_plainDatum (by rw [landed_length]; exact fits) rest

end Server
