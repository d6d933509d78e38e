import Hoco.NewOid
import Hoco.PglzSlice
import Hoco.ToastSlice
import Hoco.ToastStore

/-!
# Out-of-line datums

A row holds, in place of a value that was moved out, a pointer: the id of the value, the
table it is in, and what the datum was like before (`VarattExternal`). This module is
about reading such a datum: all of it (`toast_fetch_datum`), a stretch of it
(`toast_fetch_datum_slice`), and just what its pointer tells (`toast_raw_datum_size`,
`toast_get_compression_id`). `StoreServer.overStore` puts these functions in the place that
`detoast_attr` and `detoast_attr_slice` have for them.

`Refers` says that a pointer stands for a value in the tables as they are. The results say
that moving a value out of line cannot be noticed: for every pointer that refers to a
value, `detoast_attr` returns what it returns for the value in place
(`Refers.detoastAttr_eq`), and so does `detoast_attr_slice`
(`Refers.detoastAttrSlice_eq`). For a value that is compressed by the default method the
second is not a rearrangement. Only a beginning of its data is fetched, as much as
`pglz_maximum_compressed_size` says, under a header that still has the size of the whole
text, and then it is decompressed as a slice, or as a whole when the slice covers it.
-/

open Chunking

/-! ## Pointers -/

/-- `varatt_external`. -/
structure VarattExternal where
  vaRawsize : ℤ
  vaExtinfo : ℕ
  vaValueid : ℕ
  vaToastrelid : ℕ
  deriving DecidableEq

namespace VarattExternal

variable (p : VarattExternal)

/-- `VARATT_EXTERNAL_GET_EXTSIZE`. -/
def getExtsize : ℕ := p.vaExtinfo % 2 ^ 30

/-- `VARATT_EXTERNAL_GET_COMPRESS_METHOD`. -/
def getCompressMethod : ℕ := p.vaExtinfo / 2 ^ 30

/-- `VARATT_EXTERNAL_IS_COMPRESSED`. The comparison is on unsigned numbers. -/
def isCompressed : Bool := (p.getExtsize : ℤ) < (p.vaRawsize - 4) % 2 ^ 32

end VarattExternal

/-- `VARTAG_ONDISK`. -/
abbrev vartagOndisk : UInt8 := 18

namespace Server

variable (sv : Server)

/-- The bytes of a pointer. -/
def toastPointer (p : VarattExternal) : Mem :=
  (if sv.bigEndian then 0x80 else 0x01) :: vartagOndisk ::
    (sv.wordBytes (p.vaRawsize % 2 ^ 32).toNat ++ (sv.wordBytes p.vaExtinfo
      ++ (sv.wordBytes p.vaValueid ++ sv.wordBytes p.vaToastrelid)))

/-- `VARATT_IS_EXTERNAL_ONDISK`. -/
def varattIsExternalOndisk (attr : Mem) : Run Bool := do
  if sv.is1BE (← attr.load 0) then return (← attr.load 1) == vartagOndisk else return false

/-- `VARATT_EXTERNAL_GET_POINTER`. -/
def varattExternalGetPointer (attr : Mem) : Run VarattExternal := do
  let vaRawsize ← sv.loadWord attr 2
  let vaExtinfo ← sv.loadWord attr 6
  let vaValueid ← sv.loadWord attr 10
  let vaToastrelid ← sv.loadWord attr 14
  return ⟨int32 vaRawsize, vaExtinfo, vaValueid, vaToastrelid⟩

end Server

/-! ## Fetching -/

/-- **The toast tables**, by their OIDs, and the counter that OIDs are taken from. -/
structure Store where
  nextOid : ℕ
  rels : ℕ → Option ToastRel

/-- `table_open`, on a toast table. -/
def Store.tableOpen (st : Store) (relid : ℕ) : Run ToastRel :=
  (st.rels relid).elim
    (.error (.ereport {
      code := .internalError
      message := "could not open relation with OID " ++ toString relid }))
    .ok

theorem Store.tableOpen_of_rels {st : Store} {relid : ℕ} {rel : ToastRel}
    (h : st.rels relid = some rel) : st.tableOpen relid = .ok rel := by
  rw [Store.tableOpen, h]
  rfl

/-- A server, with what the memory that `palloc` returns happens to hold, and how it runs. -/
structure StoreServer extends SliceServer where
  fresh : ℕ → Mem
  fresh_length : ∀ n, (fresh n).length = n
  oids : OidMode

namespace StoreServer

/-- A little-endian server under a postmaster, whose memory is cleared. -/
def littleEndian : StoreServer where
  toSliceServer := .littleEndian
  fresh := fun n => List.replicate n 0
  fresh_length := fun _ => List.length_replicate
  oids := .underPostmaster

variable (sv : StoreServer) (st : Store)

/-- The header that a fetched datum gets. -/
def fetchedHeader (p : VarattExternal) (size : ℕ) : List UInt8 :=
  if p.isCompressed then sv.setVarsizeCompressed (size + 4) else sv.setVarsize (size + 4)

/-- `toast_fetch_datum`. -/
def toastFetchDatum (attr : Mem) : Run Mem := do
  if ← sv.varattIsExternalOndisk attr then
    let p ← sv.varattExternalGetPointer attr
    let attrsize := p.getExtsize
    palloc (attrsize + 4)
    let result := sv.fetchedHeader p attrsize ++ sv.fresh attrsize
    if attrsize = 0 then return result
    else
      let toastrel ← st.tableOpen p.vaToastrelid
      sv.heapFetchToastSlice p.vaValueid attrsize 0 attrsize toastrel result
  else
    .error (.ereport {
      code := .internalError
      message := "toast_fetch_datum shouldn't be called for non-ondisk datums" })

/-- The stretch that `toast_fetch_datum_slice` fetches: its offset and its length. -/
def fetchBounds (p : VarattExternal) (sliceoffset slicelength : ℤ) : ℤ × ℤ :=
  let attrsize : ℤ := p.getExtsize
  let (sliceoffset, slicelength) :=
    if attrsize ≤ sliceoffset then (0, 0) else (sliceoffset, slicelength)
  -- a beginning of compressed data has the word with the raw size in front
  let slicelength := if p.isCompressed ∧ 0 < slicelength then slicelength + 4 else slicelength
  if attrsize < sliceoffset + slicelength ∨ slicelength < 0 then
    (sliceoffset, attrsize - sliceoffset)
  else (sliceoffset, slicelength)

/-- `toast_fetch_datum_slice`. -/
def toastFetchDatumSlice (attr : Mem) (sliceoffset slicelength : ℤ) : Run Mem := do
  if ← sv.varattIsExternalOndisk attr then
    let p ← sv.varattExternalGetPointer attr
    let (sliceoffset, slicelength) := fetchBounds p sliceoffset slicelength
    palloc (slicelength + 4)
    let result := sv.fetchedHeader p slicelength.toNat ++ sv.fresh slicelength.toNat
    if slicelength = 0 then return result
    else
      let toastrel ← st.tableOpen p.vaToastrelid
      sv.heapFetchToastSlice p.vaValueid p.getExtsize sliceoffset slicelength toastrel result
  else
    .error (.ereport {
      code := .internalError
      message := "toast_fetch_datum_slice shouldn't be called for non-ondisk datums" })

/-- `max_size`: how much of compressed data is fetched for a beginning of the text. -/
def maxSize (p : VarattExternal) (slicelimit : ℤ) : ℤ :=
  if p.getCompressMethod = toastPglzCompressionId then
    Pglz.pglzMaximumCompressedSize slicelimit p.getExtsize
  else p.getExtsize

/-- The first branch of `detoast_attr_slice`, for a datum in a toast table, and what
follows it. -/
def ondiskSlice (attr : Mem) (sliceoffset slicelength : ℤ) : Run Mem := do
  let slicelimit := if slicelength < 0 then -1 else sliceoffset + slicelength
  let p ← sv.varattExternalGetPointer attr
  if !p.isCompressed then sv.toastFetchDatumSlice st attr sliceoffset slicelength
  else if 0 ≤ slicelimit then
    let preslice ← sv.toastFetchDatumSlice st attr 0 (maxSize p slicelimit)
    let preslice ←
      if ← sv.varattIsCompressed preslice then sv.toastDecompressDatumSlice preslice slicelimit
      else pure preslice
    sv.cutSlice preslice sliceoffset slicelength slicelimit
  else
    let preslice ← sv.toastFetchDatum st attr
    let preslice ←
      if ← sv.varattIsCompressed preslice then sv.toastDecompressDatum preslice else pure preslice
    sv.cutSlice preslice sliceoffset slicelength slicelimit

/-- **The server over toast tables**: `detoast_attr` and `detoast_attr_slice` find what is
in them. Pointers to memory are as before. -/
def overStore : SliceServer where
  toServer := {
    sv.toServer with
    fetchExternal := fun attr => do
      if ← sv.varattIsExternalOndisk attr then sv.toastFetchDatum st attr
      else sv.fetchExternal attr }
  externalSlice := fun attr sliceoffset slicelength => do
    if ← sv.varattIsExternalOndisk attr then sv.ondiskSlice st attr sliceoffset slicelength
    else sv.externalSlice attr sliceoffset slicelength
  lz4DecompressSafePartial := sv.lz4DecompressSafePartial

/-! ## What a pointer tells -/

/-- `toast_raw_datum_size`, on a datum that is not a pointer to memory. -/
def toastRawDatumSize (attr : Mem) : Run ℤ := do
  if ← sv.varattIsExternalOndisk attr then
    return (← sv.varattExternalGetPointer attr).vaRawsize
  else if ← sv.varattIsCompressed attr then
    return (← sv.vardataCompressedGetExtsize attr : ℕ) + 4
  else if ← sv.varattIsShort attr then return (← sv.varsize1B attr : ℕ) - 1 + 4
  else return (← sv.varsize4B attr : ℕ)

/-- `toast_datum_size`, on a datum that is not a pointer to memory. -/
def toastDatumSize (attr : Mem) : Run ℕ := do
  if ← sv.varattIsExternalOndisk attr then
    return (← sv.varattExternalGetPointer attr).getExtsize
  else if ← sv.varattIsShort attr then sv.varsize1B attr
  else sv.varsize4B attr

/-- `TOAST_INVALID_COMPRESSION_ID`. -/
abbrev toastInvalidCompressionId : ℕ := 2

/-- `toast_get_compression_id`. -/
def toastGetCompressionId (attr : Mem) : Run ℕ := do
  if ← sv.varattIsExternalOndisk attr then
    let p ← sv.varattExternalGetPointer attr
    return if p.isCompressed then p.getCompressMethod else toastInvalidCompressionId
  else if ← sv.varattIsCompressed attr then sv.toastCompressMethod attr
  else return toastInvalidCompressionId

end StoreServer

/-! ## Values, and what a pointer refers to -/

/-- **A value that is in place**: plain, short, or compressed, with the bounds that its
header has, and smaller than the text when it is compressed. -/
inductive Value where
  | plain (t : List UInt8) (fits : t.length + 4 < 2 ^ 30)
  | short (t : List UInt8) (fits : t.length ≤ 126)
  | compressed (method rawsize : ℕ) (payload : List UInt8) (known : method < 4)
      (raw : rawsize < 2 ^ 30) (saves : payload.length + 8 < rawsize)

namespace Value

variable (sv : Server)

/-- The datum of a value. -/
def datum : Value → Mem
  | plain t _ => sv.plainDatum t
  | short t _ => sv.shortDatum t
  | compressed method rawsize payload _ _ _ => sv.compressedDatum method rawsize payload

/-- The bytes that are stored for a value. Those of a compressed one begin with the word
that has its raw size. -/
def stored : Value → List UInt8
  | plain t _ => t
  | short t _ => t
  | compressed method rawsize payload _ _ _ => sv.wordBytes (rawsize + method * 2 ^ 30) ++ payload

/-- The size of the text of a value. -/
def rawsize : Value → ℕ
  | plain t _ => t.length
  | short t _ => t.length
  | compressed _ rawsize _ _ _ _ => rawsize

/-- The method of a compressed value. -/
def method : Value → Option ℕ
  | plain _ _ => none
  | short _ _ => none
  | compressed method _ _ _ _ _ => some method

/-- The form of the datum of a value. -/
def form : Value → Server.Form
  | plain _ _ => .plain
  | short _ _ => .short
  | compressed _ _ _ _ _ _ => .compressed

/-- The size of the header that the stored bytes have in place. -/
def headerLength : Value → ℕ
  | plain _ _ => 4
  | short _ _ => 1
  | compressed _ _ _ _ _ _ => 4

/-- The datum that fetching a value returns: as it was, but never short. -/
def fetched : Value → Mem
  | plain t _ => sv.plainDatum t
  | short t _ => sv.plainDatum t
  | compressed method rawsize payload _ _ _ => sv.compressedDatum method rawsize payload

/-- The pointer to a value. -/
def pointer (v : Value) (valueid relid : ℕ) : VarattExternal :=
  ⟨v.rawsize + 4, (v.stored sv).length + v.method.getD 0 * 2 ^ 30, valueid, relid⟩

theorem length_stored_lt (v : Value) : (v.stored sv).length + 4 < 2 ^ 30 := by
  cases v with
  | plain t fits => exact fits
  | short t fits =>
    rw [stored]
    omega
  | compressed method rawsize payload known raw saves =>
    rw [stored, List.length_append, sv.wordBytes_length]
    omega

theorem hasHeader_datum (v : Value) :
    sv.HasHeader (v.datum sv) v.form ((v.stored sv).length + v.headerLength) := by
  cases v with
  | plain t fits =>
    have hheader := sv.hasHeader_plainDatum fits []
    rwa [List.append_nil] at hheader
  | short t fits =>
    have hheader := sv.hasHeader_shortDatum fits []
    rwa [List.append_nil] at hheader
  | compressed method rawsize payload known raw saves =>
    have hheader := sv.hasHeader_compressedDatum (show payload.length + 8 < 2 ^ 30 by omega) method
      rawsize []
    rw [List.append_nil, Nat.add_comm] at hheader
    rw [stored, List.length_append, sv.wordBytes_length, headerLength,
      show 4 + payload.length + 4 = 8 + payload.length by omega]
    exact hheader

theorem rawsize_lt (v : Value) : v.rawsize + 4 < 2 ^ 31 := by
  cases v <;> simp only [rawsize] <;> omega

theorem method_lt (v : Value) : v.method.getD 0 < 4 := by
  cases v with
  | plain t fits => exact Nat.succ_pos 3
  | short t fits => exact Nat.succ_pos 3
  | compressed method rawsize payload known raw saves => exact known

variable (valueid relid : ℕ)

theorem getExtsize_pointer (v : Value) :
    (v.pointer sv valueid relid).getExtsize = (v.stored sv).length := by
  have := v.length_stored_lt sv
  rw [VarattExternal.getExtsize, pointer]
  dsimp only
  omega

theorem getCompressMethod_pointer (v : Value) :
    (v.pointer sv valueid relid).getCompressMethod = v.method.getD 0 := by
  have := v.length_stored_lt sv
  rw [VarattExternal.getCompressMethod, pointer]
  dsimp only
  omega

/-- The sizes in a pointer tell whether the value is compressed. -/
theorem isCompressed_pointer (v : Value) :
    (v.pointer sv valueid relid).isCompressed = v.method.isSome := by
  have hlt := v.rawsize_lt
  rw [VarattExternal.isCompressed, getExtsize_pointer, pointer,
    show ((v.rawsize : ℤ) + 4 - 4) % 2 ^ 32 = v.rawsize by omega]
  cases v with
  | plain t fits => simp [stored, rawsize, method]
  | short t fits => simp [stored, rawsize, method]
  | compressed m raw payload known hraw saves =>
    simp only [stored, rawsize, method, List.length_append, sv.wordBytes_length,
      Option.isSome_some, decide_eq_true_eq]
    omega

/-- Only a compressed value is marked as one. -/
theorem varattIsCompressed_datum (v : Value) :
    sv.varattIsCompressed (v.datum sv) = .ok v.method.isSome := by
  rw [(v.hasHeader_datum sv).varattIsCompressed_eq]
  cases v <;> rfl

theorem varattIsCompressed_fetched (v : Value) :
    sv.varattIsCompressed (v.fetched sv) = .ok v.method.isSome := by
  cases v with
  | plain t fits => exact (plain t fits).varattIsCompressed_datum sv
  | short t fits => exact (plain t (by omega)).varattIsCompressed_datum sv
  | compressed m raw payload known hraw saves =>
    exact (compressed m raw payload known hraw saves).varattIsCompressed_datum sv

/-- Values in place are no pointers. -/
theorem hasKnownTag_datum (v : Value) : sv.hasKnownTag (v.datum sv) = .ok false :=
  (v.hasHeader_datum sv).hasKnownTag_eq

theorem varattIsExternalOndisk_datum (v : Value) :
    sv.varattIsExternalOndisk (v.datum sv) = .ok false := by
  obtain ⟨b, hb, -, -, hext⟩ := (v.hasHeader_datum sv).first
  rw [Server.varattIsExternalOndisk, hb, Run.ok_bind, hext]
  rfl

theorem varattIsShort_datum (v : Value) :
    sv.varattIsShort (v.datum sv) = .ok (decide (v.form = .short)) := by
  obtain ⟨b, hb, -, hshort, -⟩ := (v.hasHeader_datum sv).first
  rw [Server.varattIsShort, hb, Run.ok_bind, hshort]
  rfl

/-- What `detoast_attr` does with a value in place. -/
theorem detoastAttr_datum (v : Value) :
    sv.detoastAttr (v.datum sv)
      = if v.method.isSome then sv.toastDecompressDatum (v.fetched sv) else .ok (v.fetched sv) := by
  rw [Server.detoastAttr, v.hasKnownTag_datum, Run.ok_bind, v.varattIsCompressed_datum, Run.ok_bind,
    v.varattIsShort_datum, Run.ok_bind]
  cases v with
  | plain t fits => rfl
  | short t fits =>
    have hsize : sv.varsize1B (sv.shortDatum t) = .ok (t.length + 1) :=
      ((short t fits).hasHeader_datum sv).reads
    have hdata : (t.length + 1 + 2 ^ 64 - 1) % 2 ^ 64 = t.length := by omega
    have hcopy : (sv.shortDatum t).copy 1 t.length = .ok t :=
      Mem.copy_of_drop (show (sv.shortDatum t).drop 1 = t ++ [] by rw [List.append_nil]; rfl)
    show sv.unpackShort (sv.shortDatum t) = _
    rw [Server.unpackShort, hsize, Run.ok_bind]
    dsimp only
    rw [hdata, palloc_of_le (by omega) (by simp only [maxAllocSize]; omega), Run.ok_bind, hcopy]
    rfl
  | compressed m raw payload known hraw saves => rfl

end Value

namespace Server

variable (sv : Server)

/-- What `varattExternalGetPointer` reads is what `toastPointer` wrote. -/
theorem varattExternalGetPointer_toastPointer {p : VarattExternal} (hraw : 0 ≤ p.vaRawsize)
    (hraw' : p.vaRawsize < 2 ^ 31) (hext : p.vaExtinfo < 2 ^ 32) (hid : p.vaValueid < 2 ^ 32)
    (hrel : p.vaToastrelid < 2 ^ 32) :
    sv.varattExternalGetPointer (sv.toastPointer p) = .ok p := by
  have hnext : ∀ {i w : ℕ} {post : Mem}, (sv.toastPointer p).drop i = sv.wordBytes w ++ post →
      (sv.toastPointer p).drop (i + 4) = post := by
    intro i w post h
    have hdrop := Mem.drop_add h
    rwa [sv.wordBytes_length] at hdrop
  have h₂ : (sv.toastPointer p).drop 2 = sv.wordBytes (p.vaRawsize % 2 ^ 32).toNat
      ++ (sv.wordBytes p.vaExtinfo ++ (sv.wordBytes p.vaValueid ++ sv.wordBytes p.vaToastrelid)) :=
    rfl
  have h₆ := hnext h₂
  have h₁₀ := hnext h₆
  have h₁₄ := hnext h₁₀
  rw [← List.append_nil (sv.wordBytes p.vaToastrelid)] at h₁₄
  have hsigned : int32 ((p.vaRawsize % 2 ^ 32).toNat : ℕ) = p.vaRawsize := by
    rw [int32_eq_self (by omega) (by omega)]
    omega
  rw [varattExternalGetPointer, sv.loadWord_wordBytes h₂ (by omega), Run.ok_bind,
    sv.loadWord_wordBytes h₆ hext, Run.ok_bind, sv.loadWord_wordBytes h₁₀ hid, Run.ok_bind,
    sv.loadWord_wordBytes h₁₄ hrel, Run.ok_bind, hsigned]
  rfl

theorem load_toastPointer (p : VarattExternal) :
    ∃ b, (sv.toastPointer p).load 0 = .ok b ∧ sv.is1BE b = true := by
  refine ⟨_, rfl, ?_⟩
  rw [is1BE]
  cases sv.bigEndian <;> rfl

theorem varattIsExternalOndisk_toastPointer (p : VarattExternal) :
    sv.varattIsExternalOndisk (sv.toastPointer p) = .ok true := by
  obtain ⟨b, hb, hext⟩ := sv.load_toastPointer p
  rw [varattIsExternalOndisk, hb, Run.ok_bind, hext]
  rfl

theorem hasKnownTag_toastPointer (p : VarattExternal) :
    sv.hasKnownTag (sv.toastPointer p) = .ok true := by
  obtain ⟨b, hb, hext⟩ := sv.load_toastPointer p
  rw [hasKnownTag, hb, Run.ok_bind, hext]
  rfl

end Server

namespace StoreServer

variable (sv : StoreServer) (st : Store)

/-- **A pointer refers to a value**: it is the pointer that is made for it, and the bytes of
the value are stored under its id. -/
structure Refers (attr : Mem) (v : Value) (valueid relid : ℕ) : Prop where
  pointer : attr = sv.toastPointer (v.pointer sv.toServer valueid relid)
  valueid_lt : valueid < 2 ^ 32
  relid_lt : relid < 2 ^ 32
  stored : ∃ rel, st.rels relid = some rel ∧ sv.Stores rel valueid (v.stored sv.toServer)

theorem length_fetchedHeader (p : VarattExternal) (size : ℕ) :
    (sv.fetchedHeader p size).length = 4 := by
  rw [fetchedHeader]
  split <;> exact sv.wordBytes_length _

/-- The header and the bytes of a value are the datum that fetching returns. -/
theorem fetchedHeader_append_stored (v : Value) (valueid relid : ℕ) :
    sv.fetchedHeader (v.pointer sv.toServer valueid relid) (v.stored sv.toServer).length
      ++ v.stored sv.toServer = v.fetched sv.toServer := by
  rw [fetchedHeader, v.isCompressed_pointer]
  cases v with
  | plain t fits => rfl
  | short t fits => rfl
  | compressed method rawsize payload known raw saves =>
    simp only [Value.method, Option.isSome_some, ↓reduceIte]
    rw [Value.stored, Value.fetched, Server.compressedDatum, List.length_append,
      sv.wordBytes_length, ← List.append_assoc,
      show 4 + payload.length + 4 = payload.length + Server.varhdrszCompressed by
        simp only [Server.varhdrszCompressed]; omega]

namespace Refers

variable {sv st} {attr : Mem} {v : Value} {valueid relid : ℕ} (h : sv.Refers st attr v valueid relid)

include h

theorem varattIsExternalOndisk_eq : sv.varattIsExternalOndisk attr = .ok true := by
  rw [h.pointer]
  exact sv.varattIsExternalOndisk_toastPointer _

theorem hasKnownTag_eq : sv.hasKnownTag attr = .ok true := by
  rw [h.pointer]
  exact sv.hasKnownTag_toastPointer _

theorem varattExternalGetPointer_eq :
    sv.varattExternalGetPointer attr = .ok (v.pointer sv.toServer valueid relid) := by
  have hraw := v.rawsize_lt
  have hstored := v.length_stored_lt sv.toServer
  have hmethod := v.method_lt
  rw [h.pointer]
  refine sv.varattExternalGetPointer_toastPointer ?_ ?_ ?_ h.valueid_lt h.relid_lt <;>
    simp only [Value.pointer] <;> omega

/-- A stretch that is not empty. -/
theorem exists_heapFetchToastSlice_eq :
    ∃ rel, st.tableOpen relid = .ok rel ∧ ∀ {o l : ℕ}, 0 < l →
      o + l ≤ (v.stored sv.toServer).length → ∀ p : VarattExternal,
      sv.heapFetchToastSlice valueid (v.stored sv.toServer).length o l rel
          (sv.fetchedHeader p l ++ sv.fresh l)
        = .ok (sv.fetchedHeader p l ++ ((v.stored sv.toServer).drop o).take l) := by
  obtain ⟨rel, hrel, hstores⟩ := h.stored
  refine ⟨rel, Store.tableOpen_of_rels hrel, fun hl hle p => ?_⟩
  exact hstores.heapFetchToastSlice_eq hl hle (sv.length_fetchedHeader p _) (sv.fresh_length _)

/-- **Fetching returns the datum**, with a long header. -/
theorem toastFetchDatum_eq : sv.toastFetchDatum st attr = .ok (v.fetched sv.toServer) := by
  obtain ⟨rel, hopen, hfetch⟩ := h.exists_heapFetchToastSlice_eq
  have hlt := v.length_stored_lt sv.toServer
  rw [toastFetchDatum, h.varattIsExternalOndisk_eq, Run.ok_bind, if_pos rfl,
    h.varattExternalGetPointer_eq, Run.ok_bind]
  dsimp only
  rw [v.getExtsize_pointer, palloc_of_le (by omega) (by simp only [maxAllocSize]; omega),
    Run.ok_bind, ← sv.fetchedHeader_append_stored v valueid relid]
  by_cases hempty : (v.stored sv.toServer).length = 0
  · rw [if_pos hempty, hempty, List.length_eq_zero_iff.mp hempty,
      List.length_eq_zero_iff.mp (sv.fresh_length 0)]
    rfl
  · rw [if_neg hempty, show (v.pointer sv.toServer valueid relid).vaToastrelid = relid from rfl,
      hopen, Run.ok_bind, show (v.pointer sv.toServer valueid relid).vaValueid = valueid from rfl]
    have hall := @hfetch 0 (v.stored sv.toServer).length (by omega) (by omega)
      (v.pointer sv.toServer valueid relid)
    rwa [List.drop_zero, List.take_length] at hall

/-- **Fetching a stretch returns it.** -/
theorem toastFetchDatumSlice_eq {sliceoffset slicelength : ℤ} {o l : ℕ}
    (hbounds : fetchBounds (v.pointer sv.toServer valueid relid) sliceoffset slicelength
      = ((o : ℤ), (l : ℤ)))
    (hle : o + l ≤ (v.stored sv.toServer).length) :
    sv.toastFetchDatumSlice st attr sliceoffset slicelength
      = .ok (sv.fetchedHeader (v.pointer sv.toServer valueid relid) l
        ++ ((v.stored sv.toServer).drop o).take l) := by
  obtain ⟨rel, hopen, hfetch⟩ := h.exists_heapFetchToastSlice_eq
  have hlt := v.length_stored_lt sv.toServer
  rw [toastFetchDatumSlice, h.varattIsExternalOndisk_eq, Run.ok_bind, if_pos rfl,
    h.varattExternalGetPointer_eq, Run.ok_bind, hbounds]
  dsimp only
  rw [palloc_of_le (by omega) (by simp only [maxAllocSize]; omega), Run.ok_bind, Int.toNat_natCast]
  by_cases hempty : l = 0
  · subst hempty
    rw [if_pos (show ((0 : ℕ) : ℤ) = 0 from rfl), List.length_eq_zero_iff.mp (sv.fresh_length 0),
      List.take_zero]
    rfl
  · rw [if_neg (by omega), show (v.pointer sv.toServer valueid relid).vaToastrelid = relid from rfl,
      hopen, Run.ok_bind, v.getExtsize_pointer]
    exact hfetch (by omega) hle _

/-- **Moving a value out of line does not change what it stands for**: `detoast_attr`
returns for the pointer what it returns for the value in place, in every form and for
every method, errors of the decompressors included. -/
theorem detoastAttr_eq : (sv.overStore st).detoastAttr attr = sv.detoastAttr (v.datum sv.toServer) := by
  have hknown : (sv.overStore st).hasKnownTag attr = .ok true := h.hasKnownTag_eq
  have hfetch : (sv.overStore st).fetchExternal attr = .ok (v.fetched sv.toServer) := by
    show (sv.varattIsExternalOndisk attr >>= fun ondisk =>
      if ondisk = true then sv.toastFetchDatum st attr else sv.fetchExternal attr) = _
    rw [h.varattIsExternalOndisk_eq, Run.ok_bind, if_pos rfl, h.toastFetchDatum_eq]
  have hcompressed : (sv.overStore st).varattIsCompressed (v.fetched sv.toServer)
      = .ok v.method.isSome := v.varattIsCompressed_fetched sv.toServer
  rw [v.detoastAttr_datum, Server.detoastAttr, hknown, Run.ok_bind, if_pos rfl, hfetch, Run.ok_bind,
    hcompressed, Run.ok_bind]
  rfl

end Refers

/-- Forty equal bytes, compressed by the default method. -/
def fortyBytes : Value :=
  .compressed toastPglzCompressionId 40 [0x02, 0x61, 0x0f, 0x01, 0x15] (by decide) (by decide)
    (by decide)

/-- A toast table with that value. -/
def oneValue : Store where
  nextOid := 16385
  rels := fun r => if r = 1 then
      some ⟨"pg_toast_1", [⟨16384, 0,
        Server.littleEndian.plainDatum (fortyBytes.stored .littleEndian), false⟩]⟩
    else none

theorem refers_fortyBytes : littleEndian.Refers oneValue
    (Server.littleEndian.toastPointer (fortyBytes.pointer .littleEndian 16384 1)) fortyBytes 16384 1 where
  pointer := rfl
  valueid_lt := by decide
  relid_lt := by decide
  stored := ⟨_, rfl, List.Perm.refl _⟩

theorem detoastAttr_fortyBytes :
    littleEndian.detoastAttr (fortyBytes.datum littleEndian.toServer)
      = .ok (Server.littleEndian.plainDatum (List.replicate 40 0x61)) := by
  decide +kernel

end StoreServer

/-! ## Slices -/

namespace SliceServer

variable (sv : SliceServer)

/-- **What is cut out of a datum that holds its text as it is**, with a header of either
size. -/
theorem cutSlice_of_hasText {m : Mem} {form : Server.Form} {t : List UInt8}
    (h : sv.HasText m form t) {sliceoffset slicelength slicelimit : ℤ} (hoff : 0 ≤ sliceoffset)
    (hlimit : 0 ≤ slicelength → slicelimit = sliceoffset + slicelength) :
    sv.cutSlice m sliceoffset slicelength slicelimit
      = .ok (sv.plainDatum (slice t sliceoffset slicelength)) := by
  have hfits := h.fits
  obtain ⟨b, hb, -, hshort, -⟩ := h.header.first
  obtain ⟨rest, hmapped⟩ := h.mapped
  -- cutting `k` bytes at `off` out of the text
  have hcut : ∀ off k : ℤ, 0 ≤ off → 0 ≤ k → off + k ≤ t.length →
      (palloc (int32 (k + 4)) >>= fun _ =>
          m.copy ((form.dataOffset : ℤ) + off).toNat k.toNat >>= fun bytes =>
            (.ok (sv.setVarsize (k.toNat + 4) ++ bytes) : Run Mem))
        = .ok (sv.plainDatum ((t.drop off.toNat).take k.toNat)) := by
    intro off k hoff₀ hk₀ hle
    have hlen : ((t.drop off.toNat).take k.toNat).length = k.toNat := by
      rw [List.length_take, List.length_drop]
      omega
    have hdrop : m.drop ((form.dataOffset : ℤ) + off).toNat
        = (t.drop off.toNat).take k.toNat ++ ((t.drop off.toNat).drop k.toNat ++ rest) := by
      rw [show ((form.dataOffset : ℤ) + off).toNat = form.dataOffset + off.toNat by omega,
        ← List.drop_drop, hmapped, List.drop_append_of_le_length (by omega), ← List.append_assoc,
        List.take_append_drop]
    have hcopy := Mem.copy_of_drop hdrop
    rw [hlen] at hcopy
    rw [int32_eq_self (by omega) (by omega),
      palloc_of_le (by omega) (by simp only [maxAllocSize]; omega), Run.ok_bind, hcopy, Run.ok_bind,
      Server.plainDatum, hlen]
  -- the stretch that is cut, when the size of the text has been read
  have hstretch : (fun p : ℤ × ℤ => palloc (int32 (p.2 + 4)) >>= fun _ =>
        m.copy ((form.dataOffset : ℤ) + p.1).toNat p.2.toNat >>= fun bytes =>
          (.ok (sv.setVarsize (p.2.toNat + 4) ++ bytes) : Run Mem))
      (if (t.length : ℤ) ≤ sliceoffset then (0, 0)
        else if slicelength < 0 ∨ (t.length : ℤ) < slicelimit then
          (sliceoffset, (t.length : ℤ) - sliceoffset)
        else (sliceoffset, slicelength))
      = .ok (sv.plainDatum (slice t sliceoffset slicelength)) := by
    dsimp only
    unfold slice
    split
    · rename_i hpast
      have hnone : t.drop sliceoffset.toNat = [] := List.drop_eq_nil_iff.mpr (by omega)
      rw [hnone, List.take_nil, ite_self]
      exact hcut 0 0 (by omega) (by omega) (by omega)
    · split
      · refine (hcut sliceoffset (t.length - sliceoffset) hoff (by omega) (by omega)).trans ?_
        have hlen : (t.drop sliceoffset.toNat).length = (t.length - sliceoffset).toNat := by
          rw [List.length_drop]
          omega
        rw [← hlen, List.take_length]
        split
        · rfl
        · rw [List.take_of_length_le (by omega)]
      · rename_i hrest
        rw [not_or, Int.not_lt] at hrest
        rw [if_neg (by omega)]
        exact hcut sliceoffset slicelength hoff hrest.1 (by omega)
  rw [← hstretch]
  have hreads := h.header.reads
  unfold cutSlice
  rw [Server.varattIsShort, hb, Run.ok_bind, hshort]
  cases form with
  | plain =>
    rw [if_neg (by decide)] at hreads
    simp only [reduceCtorEq, decide_false, Bool.false_eq_true, ↓reduceIte, pure_bind, hreads,
      Run.ok_bind, Server.Form.dataOffset, show ((4 + t.length : ℕ) : ℤ) - 4 = t.length by omega]
    rfl
  | compressed => exact absurd rfl h.uncompressed
  | short =>
    rw [if_pos rfl] at hreads
    simp only [decide_true, ↓reduceIte, pure_bind, hreads, Run.ok_bind, Server.Form.dataOffset,
      show ((1 + t.length : ℕ) : ℤ) - 1 = t.length by omega]
    rfl

/-- The length that `detoast_attr_slice` goes on with: `-1` when the sum overflows. -/
def slicelengthOf (sliceoffset slicelength : ℤ) : ℤ :=
  if slicelength < 0 then slicelength
  else if Rle.intMax < sliceoffset + slicelength then -1
  else slicelength

/-- `slicelimit`, from that length. -/
def slicelimitOf (sliceoffset slicelength : ℤ) : ℤ :=
  if slicelength < 0 then -1 else sliceoffset + slicelength

/-- What `detoast_attr_slice` does once a datum is in place. -/
def slicePreslice (preslice : Mem) (sliceoffset slicelength : ℤ) : Run Mem :=
  sv.varattIsCompressed preslice >>= fun compressed =>
    (if compressed then
      if 0 ≤ slicelimitOf sliceoffset slicelength then
        sv.toastDecompressDatumSlice preslice (slicelimitOf sliceoffset slicelength)
      else sv.toastDecompressDatum preslice
    else .ok preslice) >>= fun preslice =>
      sv.cutSlice preslice sliceoffset slicelength (slicelimitOf sliceoffset slicelength)

/-- The two ways of `detoast_attr_slice`. -/
theorem detoastAttrSlice_eq_ite {attr : Mem} {known : Bool}
    (hknown : sv.hasKnownTag attr = .ok known) {sliceoffset : ℤ} (hoff : 0 ≤ sliceoffset)
    (slicelength : ℤ) :
    sv.detoastAttrSlice attr sliceoffset slicelength
      = if known then sv.externalSlice attr sliceoffset (slicelengthOf sliceoffset slicelength)
        else sv.slicePreslice attr sliceoffset (slicelengthOf sliceoffset slicelength) := by
  have hpair : (if slicelength < 0 then (slicelength, (-1 : ℤ))
        else if Rle.intMax < sliceoffset + slicelength then (-1, -1)
        else (slicelength, sliceoffset + slicelength))
      = (slicelengthOf sliceoffset slicelength,
        slicelimitOf sliceoffset (slicelengthOf sliceoffset slicelength)) := by
    unfold slicelimitOf slicelengthOf
    split
    · rfl
    · split <;> rfl
  rw [detoastAttrSlice, if_neg (Int.not_lt.mpr hoff), hpair]
  dsimp only
  rw [hknown, Run.ok_bind]
  cases known with
  | true => rfl
  | false =>
    simp only [Bool.false_eq_true, ↓reduceIte]
    rw [slicePreslice]
    cases sv.varattIsCompressed attr with
    | error e => rfl
    | ok compressed =>
      cases compressed with
      | false => rfl
      | true =>
        simp only [Run.ok_bind, ↓reduceIte]
        split <;> rfl

section

variable {method rawsize : ℕ} {payload : List UInt8} (fits : payload.length + 8 < 2 ^ 30)

include fits

/-- The arguments that a decompressor takes from a compressed datum. -/
theorem decompressDatumSliceWith_compressedDatum
    (decompress : Mem → ℤ → ℤ → Run (ℤ × List UInt8)) (corrupt : String) (slicelength : ℤ) :
    sv.decompressDatumSliceWith decompress corrupt (sv.compressedDatum method rawsize payload)
        slicelength
      = (palloc (int32 (slicelength + 4)) >>= fun _ =>
        decompress payload payload.length slicelength >>= fun r =>
          if r.1 < 0 then .error (.ereport { code := .dataCorrupted, message := corrupt })
          else .ok (sv.setVarsize (r.1.toNat + 4) ++ r.2)) := by
  have hheader := sv.hasHeader_compressedDatum fits method rawsize []
  have hdrop := sv.drop_compressedDatum method rawsize payload []
  rw [List.append_nil] at hheader hdrop
  rw [List.append_nil] at hdrop
  have hreads : sv.varsize4B (sv.compressedDatum method rawsize payload)
      = .ok (payload.length + 8) := hheader.reads
  rw [decompressDatumSliceWith]
  refine congrArg (palloc (int32 (slicelength + 4)) >>= ·) (funext fun _ => ?_)
  rw [hreads, Run.ok_bind, hdrop,
    show ((payload.length + 8 : ℕ) : ℤ) - (Server.varhdrszCompressed : ℕ) = payload.length by
      simp only [Server.varhdrszCompressed]
      omega]
  rfl

/-- What it means that a value of the default method can be decompressed. -/
theorem exists_pglzDecompress_of_toastDecompressDatum (raw : rawsize < 2 ^ 30) {full : Mem}
    (h : sv.toastDecompressDatum (sv.compressedDatum toastPglzCompressionId rawsize payload)
      = .ok full) :
    ∃ v out, Pglz.pglzDecompress payload payload.length rawsize true = .ok (v, out) ∧ v ≠ -1 := by
  have hheader := sv.hasHeader_compressedDatum fits toastPglzCompressionId rawsize []
  have hdrop := sv.drop_compressedDatum toastPglzCompressionId rawsize payload []
  have hmethod := sv.toastCompressMethod_compressedDatum (show toastPglzCompressionId < 4 by decide)
    raw payload []
  have hext := sv.vardataCompressedGetExtsize_compressedDatum
    (show toastPglzCompressionId < 4 by decide) raw payload []
  rw [List.append_nil] at hheader hdrop hmethod hext
  rw [List.append_nil] at hdrop
  have hreads : sv.varsize4B (sv.compressedDatum toastPglzCompressionId rawsize payload)
      = .ok (payload.length + 8) := hheader.reads
  rw [Server.toastDecompressDatum, hmethod, Run.ok_bind, if_pos rfl, Server.pglzDecompressDatum,
    Server.decompressDatumWith, hext, Run.ok_bind] at h
  obtain ⟨-, -, h⟩ := Run.bind_eq_ok.mp h
  rw [hreads, Run.ok_bind, hdrop,
    show ((payload.length + 8 : ℕ) : ℤ) - (Server.varhdrszCompressed : ℕ) = payload.length by
      simp only [Server.varhdrszCompressed]
      omega] at h
  obtain ⟨⟨v, out⟩, hrun, h⟩ := Run.bind_eq_ok.mp h
  refine ⟨v, out, hrun, ?_⟩
  rintro rfl
  dsimp only at h
  rw [if_pos (show (-1 : ℤ) < 0 by decide)] at h
  cases h

/-- **A beginning of the data is enough for a beginning of the text**, also when what is
asked for is more than all of it. -/
theorem toastDecompressDatumSlice_take (raw : rawsize < 2 ^ 30) {full : Mem}
    (h : sv.toastDecompressDatum (sv.compressedDatum toastPglzCompressionId rawsize payload)
      = .ok full) {n : ℕ} (hn : (n : ℤ) ≤ Rle.intMax) {k : ℕ}
    (hk : (k : ℤ) = Pglz.pglzMaximumCompressedSize n payload.length) :
    sv.toastDecompressDatumSlice
        (sv.compressedDatum toastPglzCompressionId rawsize (payload.take k)) n
      = sv.toastDecompressDatumSlice
        (sv.compressedDatum toastPglzCompressionId rawsize payload) n := by
  obtain ⟨v, out, hrun, hv⟩ := exists_pglzDecompress_of_toastDecompressDatum sv fits raw h
  simp only [Rle.intMax] at hn
  by_cases hall : rawsize ≤ n
  · -- all of the text: then the data are not longer than that
    rw [Pglz.pglzMaximumCompressedSize_eq_of_complete hrun hv hall] at hk
    rw [List.take_of_length_le (by omega)]
  · have hle : k ≤ payload.length := by
      rw [Pglz.pglzMaximumCompressedSize_natCast] at hk
      omega
    have hlen : (payload.take k).length = k := by
      rw [List.length_take]
      omega
    have hslice : ∀ p : List UInt8, p.length + 8 < 2 ^ 30 →
        sv.toastDecompressDatumSlice (sv.compressedDatum toastPglzCompressionId rawsize p) n
          = sv.pglzDecompressDatumSlice (sv.compressedDatum toastPglzCompressionId rawsize p) n := by
      intro p hp
      have hmethod := sv.toastCompressMethod_compressedDatum
        (show toastPglzCompressionId < 4 by decide) raw p []
      have hext := sv.vardataCompressedGetExtsize_compressedDatum
        (show toastPglzCompressionId < 4 by decide) raw p []
      rw [List.append_nil] at hmethod hext
      rw [toastDecompressDatumSlice, hext, Run.ok_bind, if_neg (by omega), hmethod, Run.ok_bind,
        if_pos rfl]
    have hlong := Pglz.pglzDecompress_take hrun hv (show n ≤ rawsize by omega)
    have hshort := @Pglz.pglzDecompress_short payload (payload.take k) payload.length k rawsize n
      (by omega) (fun j hj => by
        have hload := @Mem.load_append_of_lt (payload.take k) j (by rw [hlen]; omega)
          (payload.drop k)
        rwa [List.take_append_drop, eq_comm] at hload) (by omega)
      (by rw [Pglz.pglzMaximumCompressedSize_natCast] at hk; omega) true v out hrun hv
    rw [hslice _ (by rw [hlen]; omega), hslice _ fits, pglzDecompressDatumSlice,
      pglzDecompressDatumSlice,
      decompressDatumSliceWith_compressedDatum sv (show (payload.take k).length + 8 < 2 ^ 30 by
        rw [hlen]; omega), decompressDatumSliceWith_compressedDatum sv fits, hlen]
    simp only [Int.toNat_natCast, hlong, hshort]

end

end SliceServer

/-- A value that is not compressed holds its text as it is. -/
theorem Value.hasText_datum (sv : Server) {v : Value} (h : v.method = none) :
    ∃ form, sv.HasText (v.datum sv) form (v.stored sv) := by
  cases v with
  | plain t fits =>
    have htext := sv.hasText_plainDatum fits []
    rw [List.append_nil] at htext
    exact ⟨_, htext⟩
  | short t fits =>
    have htext := sv.hasText_shortDatum fits []
    rw [List.append_nil] at htext
    exact ⟨_, htext⟩
  | compressed method rawsize payload known raw saves => cases h

namespace StoreServer.Refers

variable {sv : StoreServer} {st : Store} {attr : Mem} {v : Value} {valueid relid : ℕ}
  (h : sv.Refers st attr v valueid relid)

include h

/-- A slice of a value that is not compressed is fetched as it is. -/
theorem ondiskSlice_of_method_eq_none (hmethod : v.method = none) {sliceoffset : ℤ}
    (hoff : 0 ≤ sliceoffset) (slicelength : ℤ) :
    sv.ondiskSlice st attr sliceoffset slicelength
      = .ok (sv.plainDatum (SliceServer.slice (v.stored sv.toServer) sliceoffset slicelength)) := by
  have hplain : (v.pointer sv.toServer valueid relid).isCompressed = false := by
    rw [v.isCompressed_pointer, hmethod]
    rfl
  -- a stretch of the bytes, under a plain header
  have hfetch : ∀ {o l : ℕ}, fetchBounds (v.pointer sv.toServer valueid relid) sliceoffset
      slicelength = ((o : ℤ), (l : ℤ)) → o + l ≤ (v.stored sv.toServer).length →
      sv.toastFetchDatumSlice st attr sliceoffset slicelength
        = .ok (sv.plainDatum (((v.stored sv.toServer).drop o).take l)) := by
    intro o l hbounds hle
    have hlen : (((v.stored sv.toServer).drop o).take l).length = l := by
      rw [List.length_take, List.length_drop]
      omega
    rw [h.toastFetchDatumSlice_eq hbounds hle, fetchedHeader, hplain, Server.plainDatum, hlen]
    rfl
  rw [ondiskSlice, h.varattExternalGetPointer_eq, Run.ok_bind, hplain]
  simp only [Bool.not_false, ↓reduceIte]
  unfold SliceServer.slice
  have hbounds : fetchBounds (v.pointer sv.toServer valueid relid) sliceoffset slicelength
      = if ((v.stored sv.toServer).length : ℤ) ≤ sliceoffset then (0, 0)
        else if ((v.stored sv.toServer).length : ℤ) < sliceoffset + slicelength ∨ slicelength < 0 then
          (sliceoffset, (v.stored sv.toServer).length - sliceoffset)
        else (sliceoffset, slicelength) := by
    unfold fetchBounds
    rw [v.getExtsize_pointer, hplain]
    simp only [Bool.false_eq_true, false_and, ↓reduceIte]
    split
    · rw [if_neg (by omega)]
    · rfl
  by_cases hpast : ((v.stored sv.toServer).length : ℤ) ≤ sliceoffset
  · have hnone : (v.stored sv.toServer).drop sliceoffset.toNat = [] :=
      List.drop_eq_nil_iff.mpr (by omega)
    rw [if_pos hpast] at hbounds
    rw [@hfetch 0 0 hbounds (Nat.zero_le _), hnone, List.take_nil, ite_self, List.take_zero]
  · rw [if_neg hpast] at hbounds
    by_cases hrest : ((v.stored sv.toServer).length : ℤ) < sliceoffset + slicelength
        ∨ slicelength < 0
    · rw [if_pos hrest] at hbounds
      rw [@hfetch sliceoffset.toNat ((v.stored sv.toServer).length - sliceoffset.toNat)
        (by rw [hbounds]; exact Prod.ext (by dsimp only; omega) (by dsimp only; omega)) (by omega),
        ← List.length_drop, List.take_length]
      split
      · rfl
      · rw [List.take_of_length_le (by rw [List.length_drop]; omega)]
    · rw [if_neg hrest] at hbounds
      rw [not_or, Int.not_lt, Int.not_lt] at hrest
      rw [if_neg (by omega), @hfetch sliceoffset.toNat slicelength.toNat
        (by rw [hbounds]; exact Prod.ext (by dsimp only; omega) (by dsimp only; omega)) (by omega)]

omit h in
/-- A beginning of compressed data, with the word in front of them. -/
theorem fetchBounds_of_isCompressed {p : VarattExternal} (hc : p.isCompressed = true)
    (hpos : 0 < p.getExtsize) {size : ℤ} (hsize : 0 < size) :
    fetchBounds p 0 size = (0, min (size + 4) p.getExtsize) := by
  unfold fetchBounds
  dsimp only
  rw [if_neg (show ¬ (p.getExtsize : ℤ) ≤ 0 by omega), hc]
  simp only [true_and]
  rw [if_pos hsize]
  split <;> exact Prod.ext rfl (by dsimp only; omega)

omit h in
theorem slicelimitOf_le (sliceoffset slicelength : ℤ) :
    SliceServer.slicelimitOf sliceoffset (SliceServer.slicelengthOf sliceoffset slicelength)
      ≤ Rle.intMax := by
  unfold SliceServer.slicelimitOf SliceServer.slicelengthOf
  simp only [Rle.intMax]
  repeat' split
  all_goals omega

/-- The two levels agree on a value that is not compressed. -/
theorem slicePreslice_of_method_eq_none (hmethod : v.method = none) {sliceoffset : ℤ}
    (hoff : 0 ≤ sliceoffset) (slicelength : ℤ) :
    sv.ondiskSlice st attr sliceoffset slicelength
      = sv.slicePreslice (v.datum sv.toServer) sliceoffset slicelength := by
  obtain ⟨form, htext⟩ := v.hasText_datum sv.toServer hmethod
  rw [h.ondiskSlice_of_method_eq_none hmethod hoff, SliceServer.slicePreslice,
    htext.header.varattIsCompressed_eq, Run.ok_bind, decide_eq_false htext.uncompressed,
    if_neg Bool.false_ne_true, Run.ok_bind, sv.cutSlice_of_hasText htext hoff]
  intro hlen
  exact if_neg (Int.not_lt.mpr hlen)

/-- **How much of a compressed value is fetched** for a beginning of its text. -/
theorem toastFetchDatumSlice_maxSize {method rawsize : ℕ} {payload : List UInt8} {known raw saves}
    (hv : v = .compressed method rawsize payload known raw saves) (n : ℕ) :
    ∃ k : ℕ, ((k : ℤ) = if method = toastPglzCompressionId then
          Pglz.pglzMaximumCompressedSize n payload.length else payload.length)
      ∧ sv.toastFetchDatumSlice st attr 0 (maxSize (v.pointer sv.toServer valueid relid) n)
        = .ok (sv.compressedDatum method rawsize (payload.take k)) := by
  subst hv
  have hlen : (Value.stored sv.toServer (.compressed method rawsize payload known raw saves)).length
      = 4 + payload.length := by
    rw [Value.stored, List.length_append, sv.wordBytes_length]
  have hcompressed : (Value.pointer sv.toServer (.compressed method rawsize payload known raw saves)
      valueid relid).isCompressed = true := by
    rw [Value.isCompressed_pointer]
    rfl
  obtain ⟨k, hk⟩ : ∃ k : ℕ, (k : ℤ) = if method = toastPglzCompressionId then
      Pglz.pglzMaximumCompressedSize n payload.length else payload.length := by
    split
    · rw [Pglz.pglzMaximumCompressedSize_natCast]
      exact ⟨min (n + (n + 7) / 8 + 2) payload.length, by omega⟩
    · exact ⟨payload.length, rfl⟩
  refine ⟨k, hk, ?_⟩
  have hle : k ≤ payload.length := by
    rw [Pglz.pglzMaximumCompressedSize_natCast] at hk
    split at hk <;> omega
  have hbounds : fetchBounds (Value.pointer sv.toServer
        (.compressed method rawsize payload known raw saves) valueid relid) 0
        (maxSize (Value.pointer sv.toServer (.compressed method rawsize payload known raw saves)
          valueid relid) n) = (((0 : ℕ) : ℤ), ((4 + k : ℕ) : ℤ)) := by
    have hsize : maxSize (Value.pointer sv.toServer
        (.compressed method rawsize payload known raw saves) valueid relid) n
        = if method = toastPglzCompressionId then
            Pglz.pglzMaximumCompressedSize n ((4 + payload.length : ℕ) : ℤ)
          else ((4 + payload.length : ℕ) : ℤ) := by
      unfold maxSize
      rw [Value.getExtsize_pointer, Value.getCompressMethod_pointer, hlen]
      rfl
    rw [Pglz.pglzMaximumCompressedSize_natCast] at hk hsize
    rw [fetchBounds_of_isCompressed hcompressed (by rw [Value.getExtsize_pointer, hlen]; omega)
      (by rw [hsize]; split <;> omega), Value.getExtsize_pointer, hlen, hsize]
    refine Prod.ext rfl ?_
    dsimp only
    split at hk
    · rename_i hpglz
      rw [if_pos hpglz]
      omega
    · rename_i hpglz
      rw [if_neg hpglz]
      omega
  rw [h.toastFetchDatumSlice_eq hbounds (by rw [hlen]; omega), fetchedHeader, hcompressed,
    if_pos rfl, Server.compressedDatum, List.drop_zero, Value.stored, List.take_append,
    sv.wordBytes_length, Nat.add_sub_cancel_left,
    List.take_of_length_le (by rw [sv.wordBytes_length]; omega), ← List.append_assoc,
    List.length_take, Nat.min_eq_left hle,
    show 4 + k + 4 = k + Server.varhdrszCompressed by simp only [Server.varhdrszCompressed]; omega]

/-- A slice of a compressed value: what is fetched is then treated as if it had been in
place. -/
theorem ondiskSlice_of_isCompressed
    (hc : (v.pointer sv.toServer valueid relid).isCompressed = true) (sliceoffset slicelength : ℤ) :
    sv.ondiskSlice st attr sliceoffset slicelength
      = if 0 ≤ SliceServer.slicelimitOf sliceoffset slicelength then
          sv.toastFetchDatumSlice st attr 0 (maxSize (v.pointer sv.toServer valueid relid)
            (SliceServer.slicelimitOf sliceoffset slicelength)) >>= fun preslice =>
          sv.slicePreslice preslice sliceoffset slicelength
        else sv.toastFetchDatum st attr >>= fun preslice =>
          sv.slicePreslice preslice sliceoffset slicelength := by
  rw [ondiskSlice, h.varattExternalGetPointer_eq, Run.ok_bind, hc]
  simp only [Bool.not_true, Bool.false_eq_true, ↓reduceIte]
  show (if 0 ≤ SliceServer.slicelimitOf sliceoffset slicelength then _ else _) = _
  split
  · rename_i hpos
    refine congrArg (_ >>= ·) (funext fun preslice => ?_)
    rw [SliceServer.slicePreslice]
    refine congrArg (_ >>= ·) (funext fun compressed => ?_)
    cases compressed with
    | false => rfl
    | true =>
      simp only [↓reduceIte, if_pos hpos]
      rfl
  · rename_i hneg
    refine congrArg (_ >>= ·) (funext fun preslice => ?_)
    rw [SliceServer.slicePreslice]
    refine congrArg (_ >>= ·) (funext fun compressed => ?_)
    cases compressed with
    | false => rfl
    | true =>
      simp only [↓reduceIte, if_neg hneg]
      rfl

/-- **A slice of a value that was moved out of line is the slice of the value in place**:
`detoast_attr_slice` returns the same for both, for every non-negative offset and every
length, whatever the method. A value of the default method has to be one that can be
decompressed; of the others all the data are fetched. -/
theorem detoastAttrSlice_eq
    (hpglz : v.method = some toastPglzCompressionId →
      ∃ full, sv.detoastAttr (v.datum sv.toServer) = .ok full)
    {sliceoffset : ℤ} (hoff : 0 ≤ sliceoffset) (slicelength : ℤ) :
    (sv.overStore st).detoastAttrSlice attr sliceoffset slicelength
      = sv.detoastAttrSlice (v.datum sv.toServer) sliceoffset slicelength := by
  have hknown : (sv.overStore st).hasKnownTag attr = .ok true := h.hasKnownTag_eq
  have hexternal : ∀ o l, (sv.overStore st).externalSlice attr o l = sv.ondiskSlice st attr o l := by
    intro o l
    show (sv.varattIsExternalOndisk attr >>= fun ondisk =>
      if ondisk = true then sv.ondiskSlice st attr o l else sv.externalSlice attr o l) = _
    rw [h.varattIsExternalOndisk_eq, Run.ok_bind, if_pos rfl]
  rw [(sv.overStore st).detoastAttrSlice_eq_ite hknown hoff, if_pos rfl, hexternal,
    sv.detoastAttrSlice_eq_ite (v.hasKnownTag_datum sv.toServer) hoff, if_neg Bool.false_ne_true]
  have hlimit := slicelimitOf_le sliceoffset slicelength
  generalize SliceServer.slicelengthOf sliceoffset slicelength = len at hlimit ⊢
  cases v with
  | plain t fits => exact h.slicePreslice_of_method_eq_none rfl hoff len
  | short t fits => exact h.slicePreslice_of_method_eq_none rfl hoff len
  | compressed method rawsize payload known raw saves =>
    have hheader : ∀ k, sv.varattIsCompressed (sv.compressedDatum method rawsize (payload.take k))
        = .ok true := fun k => by
      have hfits : (payload.take k).length + 8 < 2 ^ 30 := by
        rw [List.length_take]
        omega
      have hheader := sv.hasHeader_compressedDatum hfits method rawsize []
      rw [List.append_nil] at hheader
      exact hheader.varattIsCompressed_eq
    have hwhole := hheader payload.length
    rw [List.take_length] at hwhole
    rw [h.ondiskSlice_of_isCompressed (by rw [Value.isCompressed_pointer]; rfl)]
    split
    · rename_i hpos
      obtain ⟨n, hn⟩ := Int.eq_ofNat_of_zero_le hpos
      obtain ⟨k, hk, hfetch⟩ := h.toastFetchDatumSlice_maxSize rfl n
      rw [hn, hfetch, Run.ok_bind, SliceServer.slicePreslice, SliceServer.slicePreslice, hheader k,
        Value.datum, hwhole, Run.ok_bind, Run.ok_bind, if_pos rfl, if_pos rfl, if_pos hpos, hn,
        if_pos (Int.natCast_nonneg n)]
      refine congrArg (· >>= fun preslice => sv.cutSlice preslice sliceoffset len n) ?_
      split at hk
      · rename_i hmethod
        subst hmethod
        obtain ⟨full, hfull⟩ := hpglz rfl
        rw [Value.detoastAttr_datum] at hfull
        exact sv.toastDecompressDatumSlice_take (by omega) raw hfull (by omega) hk
      · rw [List.take_of_length_le (by omega)]
    · rw [h.toastFetchDatum_eq, Run.ok_bind]
      rfl

omit h in
/-- A slice of forty equal bytes. -/
theorem detoastAttrSlice_eq_fortyBytes :
    (littleEndian.overStore oneValue).detoastAttrSlice
        (Server.littleEndian.toastPointer (fortyBytes.pointer .littleEndian 16384 1)) 3 5
      = littleEndian.detoastAttrSlice (fortyBytes.datum .littleEndian) 3 5 :=
  refers_fortyBytes.detoastAttrSlice_eq (fun _ => ⟨_, detoastAttr_fortyBytes⟩) (by decide) 5

omit h in
/-- The method of a value in place. -/
theorem toastGetCompressionId_datum (v : Value) :
    sv.toastGetCompressionId (v.datum sv.toServer)
      = .ok (v.method.getD toastInvalidCompressionId) := by
  rw [toastGetCompressionId, v.varattIsExternalOndisk_datum, Run.ok_bind,
    if_neg Bool.false_ne_true, v.varattIsCompressed_datum, Run.ok_bind]
  cases v with
  | plain t fits => rfl
  | short t fits => rfl
  | compressed method rawsize payload known raw saves =>
    have hmethod := sv.toastCompressMethod_compressedDatum known raw payload []
    rw [List.append_nil] at hmethod
    exact hmethod

/-- And that of one out of line. -/
theorem toastGetCompressionId_eq :
    sv.toastGetCompressionId attr = .ok (v.method.getD toastInvalidCompressionId) := by
  rw [toastGetCompressionId, h.varattIsExternalOndisk_eq, Run.ok_bind, if_pos rfl,
    h.varattExternalGetPointer_eq, Run.ok_bind, v.isCompressed_pointer, v.getCompressMethod_pointer]
  cases v <;> rfl

/-- **A pointer tells what the value tells**: without any table being read,
`toast_raw_datum_size` and `toast_get_compression_id` return for a pointer what they return
for the value in place, and `toast_datum_size` as much less as the header of the value
takes. -/
theorem sizes_eq :
    sv.toastRawDatumSize attr = sv.toastRawDatumSize (v.datum sv.toServer)
      ∧ sv.toastGetCompressionId attr = sv.toastGetCompressionId (v.datum sv.toServer)
      ∧ ∃ size, sv.toastDatumSize attr = .ok size
        ∧ sv.toastDatumSize (v.datum sv.toServer) = .ok (size + v.headerLength) := by
  have hreads := (v.hasHeader_datum sv.toServer).reads
  have hpointer := h.varattExternalGetPointer_eq
  have hondisk := h.varattIsExternalOndisk_eq
  refine ⟨?_, ?_, (v.stored sv.toServer).length, ?_, ?_⟩
  · rw [toastRawDatumSize, hondisk, Run.ok_bind, if_pos rfl, hpointer, Run.ok_bind, toastRawDatumSize,
      v.varattIsExternalOndisk_datum, Run.ok_bind, if_neg Bool.false_ne_true,
      v.varattIsCompressed_datum, Run.ok_bind]
    cases v with
    | plain t fits =>
      have hsize : sv.varsize4B (sv.plainDatum t) = .ok (t.length + 4) := hreads
      rw [Value.varattIsShort_datum, Value.datum]
      show _ = (sv.varsize4B (sv.plainDatum t) >>= fun size => (.ok (size : ℤ) : Run ℤ))
      rw [hsize]
      rfl
    | short t fits =>
      have hsize : sv.varsize1B (sv.shortDatum t) = .ok (t.length + 1) := hreads
      rw [Value.varattIsShort_datum, Value.datum]
      show _ = (sv.varsize1B (sv.shortDatum t) >>= fun size =>
        (.ok ((size : ℤ) - 1 + 4) : Run ℤ))
      rw [hsize]
      refine congrArg Except.ok ?_
      simp only [Value.pointer, Value.rawsize]
      omega
    | compressed method rawsize payload known raw saves =>
      have hext := sv.vardataCompressedGetExtsize_compressedDatum known raw payload []
      rw [List.append_nil] at hext
      show _ = (sv.vardataCompressedGetExtsize (sv.compressedDatum method rawsize payload)
        >>= fun size => (.ok ((size : ℤ) + 4) : Run ℤ))
      rw [hext]
      rfl
  · rw [h.toastGetCompressionId_eq, toastGetCompressionId_datum]
  · rw [toastDatumSize, hondisk, Run.ok_bind, if_pos rfl, hpointer, Run.ok_bind,
      v.getExtsize_pointer]
    rfl
  · rw [toastDatumSize, v.varattIsExternalOndisk_datum, Run.ok_bind, if_neg Bool.false_ne_true,
      v.varattIsShort_datum, Run.ok_bind]
    simpa using hreads

omit h in
/-- For forty equal bytes. -/
theorem sizes_eq_fortyBytes :
    littleEndian.toastRawDatumSize
          (Server.littleEndian.toastPointer (fortyBytes.pointer .littleEndian 16384 1))
        = littleEndian.toastRawDatumSize (fortyBytes.datum .littleEndian)
      ∧ littleEndian.toastGetCompressionId
          (Server.littleEndian.toastPointer (fortyBytes.pointer .littleEndian 16384 1))
        = littleEndian.toastGetCompressionId (fortyBytes.datum .littleEndian)
      ∧ ∃ size, littleEndian.toastDatumSize
          (Server.littleEndian.toastPointer (fortyBytes.pointer .littleEndian 16384 1)) = .ok size
        ∧ littleEndian.toastDatumSize (fortyBytes.datum .littleEndian)
          = .ok (size + fortyBytes.headerLength) :=
  refers_fortyBytes.sizes_eq

end StoreServer.Refers
