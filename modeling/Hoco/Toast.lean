import Hoco.Pglz
import Hoco.RleCompress
import Hoco.RleDecompress
import Hoco.Varlena

/-!
# Compressing and decompressing datums

A datum that is worth it is compressed with one of three methods
(`toast_compress_datum`), and decompressed again when a function asks for it
(`pg_detoast_datum_packed`). The method is recorded in the second word of the
compressed datum, and the decompressor is chosen by it.

The functions that fill a compressed datum leave that word to their caller, so
here they return the payload.
-/

open Rle

/-- `MaxAllocSize`. -/
abbrev maxAllocSize : ℕ := 0x3FFFFFFF

/-- The checks of `palloc`. Its argument is unsigned. -/
def palloc (size : ℤ) : Run Unit :=
  let size := (size % 2 ^ 64).toNat
  if size ≤ maxAllocSize then .ok ()
  else .error (.ereport {
    code := .internalError
    message := "invalid memory alloc request size " ++ toString size })

theorem palloc_of_le {size : ℤ} (h₀ : 0 ≤ size) (h : size ≤ maxAllocSize) :
    palloc size = .ok () := by
  simp only [maxAllocSize] at h
  unfold palloc
  rw [Int.emod_eq_of_lt h₀ (by omega)]
  exact if_pos (by simp only [maxAllocSize]; omega)

/-- Too large a size, also one that is too large because a negative number was
converted to it. -/
theorem palloc_of_gt {size : ℤ} (h : maxAllocSize < size % 2 ^ 64) :
    ∃ report, palloc size = .error (.ereport report) := by
  simp only [maxAllocSize] at h
  unfold palloc
  exact ⟨_, if_neg (by simp only [maxAllocSize]; omega)⟩

/-- `TOAST_PGLZ_COMPRESSION_ID`. -/
abbrev toastPglzCompressionId : ℕ := 0

/-- `TOAST_LZ4_COMPRESSION_ID`. -/
abbrev toastLz4CompressionId : ℕ := 1

/-- `TOAST_RLE_COMPRESSION_ID`. -/
abbrev toastRleCompressionId : ℕ := 3

/-- `NO_LZ4_SUPPORT`. -/
def noLz4Support {α : Type} : Run α :=
  .error (.ereport {
    code := .featureNotSupported
    message := "compression method lz4 not supported"
    detail := some "This functionality requires the server to be built with lz4 support." })

namespace Server

variable (sv : Server)

/-! ## Compression -/

/-- The data of a datum that is not compressed. -/
def datumData (value : Mem) (valsize : ℕ) : Run (List UInt8) := do
  value.copy (sv.vardataAny (← value.load 0)) valsize

/-- The body that `pglz_compress_datum` and `rle_compress_datum` share: sizes
the strategy does not admit are not tried. -/
def compressDatumWith (compress : List UInt8 → Option (List UInt8)) (value : Mem) :
    Run (Option (List UInt8)) := do
  let valsize ← sv.varsizeAnyExhdr value
  if int32 valsize < 32 ∨ int32 valsize > intMax then return none
  palloc (int32 valsize + 4 + varhdrszCompressed)
  return compress (← sv.datumData value valsize)

/-- `pglz_compress_datum`. -/
def pglzCompressDatum (value : Mem) : Run (Option (List UInt8)) :=
  sv.compressDatumWith sv.pglzCompress value

/-- `rle_compress_datum`. -/
def rleCompressDatum (value : Mem) : Run (Option (List UInt8)) :=
  sv.compressDatumWith (rleCompress · none) value

/-- `lz4_compress_datum`. -/
def lz4CompressDatum (value : Mem) : Run (Option (List UInt8)) := do
  match sv.lz4 with
  | none => noLz4Support
  | some lz4 =>
    let valsize ← sv.varsizeAnyExhdr value
    let maxSize := lz4.compressBound (int32 valsize)
    palloc (maxSize + varhdrszCompressed)
    let (len, payload) := lz4.compressDefault (← sv.datumData value valsize) maxSize
    if len ≤ 0 then
      .error (.ereport { code := .internalError, message := "lz4 compression failed" })
    else if len > int32 valsize then return none
    else return some payload

/-- The switch of `toast_compress_datum`: the payload, and the id of the
method. -/
def compressByMethod (value : Mem) (cmethod : Char) : Run (Option (List UInt8) × ℕ) :=
  if cmethod = 'p' then (·, toastPglzCompressionId) <$> sv.pglzCompressDatum value
  else if cmethod = 'l' then (·, toastLz4CompressionId) <$> sv.lz4CompressDatum value
  else if cmethod = 'r' then (·, toastRleCompressionId) <$> sv.rleCompressDatum value
  else .error (.ereport {
    code := .internalError
    message := "invalid compression method " ++ toString cmethod })

/-- The method a datum is compressed with: the default one, if none is named. -/
def effectiveMethod (cmethod : Char) : Char :=
  if cmethod = Char.ofNat 0 then sv.defaultToastCompression else cmethod

/-- **`toast_compress_datum`.** The comparison that decides whether the result
is kept is on unsigned words. -/
def toastCompressDatum (value : Mem) (cmethod : Char) : Run (Option Mem) := do
  let valsize ← sv.varsizeAnyExhdr value
  let (tmp, cmid) ← sv.compressByMethod value (sv.effectiveMethod cmethod)
  match tmp with
  | none => return none
  | some payload =>
    if payload.length + varhdrszCompressed < (valsize + 2 ^ 32 - 2) % 2 ^ 32 then
      return some (sv.compressedDatum cmid valsize payload)
    else return none

/-! ## Decompression -/

/-- The body that the three decompressors of datums share. -/
def decompressDatumWith (decompress : Mem → ℤ → ℕ → Run (ℤ × List UInt8)) (corrupt : String)
    (value : Mem) : Run Mem := do
  let extsize ← sv.vardataCompressedGetExtsize value
  palloc (extsize + 4)
  let slen : ℤ := (← sv.varsize4B value : ℕ) - varhdrszCompressed
  let (rawsize, out) ← decompress (value.drop varhdrszCompressed) slen extsize
  if rawsize < 0 then .error (.ereport { code := .dataCorrupted, message := corrupt })
  else return sv.setVarsize (rawsize.toNat + 4) ++ out

/-- `pglz_decompress_datum`. -/
def pglzDecompressDatum (value : Mem) : Run Mem :=
  sv.decompressDatumWith (fun source slen rawsize => Pglz.pglzDecompress source slen rawsize true)
    "compressed pglz data is corrupt" value

/-- `rle_decompress_datum`. -/
def rleDecompressDatum (value : Mem) : Run Mem :=
  sv.decompressDatumWith (fun source slen rawsize => rleDecompress source slen rawsize true)
    "compressed rle data is corrupt" value

/-- `lz4_decompress_datum`. -/
def lz4DecompressDatum (value : Mem) : Run Mem :=
  match sv.lz4 with
  | none => noLz4Support
  | some lz4 =>
    sv.decompressDatumWith (fun source slen rawsize => lz4.decompressSafe source slen rawsize)
      "compressed lz4 data is corrupt" value

/-- `toast_decompress_datum`. -/
def toastDecompressDatum (attr : Mem) : Run Mem := do
  let cmid ← sv.toastCompressMethod attr
  if cmid = toastPglzCompressionId then sv.pglzDecompressDatum attr
  else if cmid = toastLz4CompressionId then sv.lz4DecompressDatum attr
  else if cmid = toastRleCompressionId then sv.rleDecompressDatum attr
  else .error (.ereport {
    code := .internalError
    message := "invalid compression method id " ++ toString cmid })

/-- The branch of `detoast_attr` for a short datum, which
`hocotext_fetch_toasted_attr` has too: the data behind a four-byte header. -/
def unpackShort (attr : Mem) : Run Mem := do
  let dataSize : ℕ := ((← sv.varsize1B attr) + 2 ^ 64 - 1) % 2 ^ 64
  palloc (dataSize + 4)
  let data ← attr.copy 1 dataSize
  return sv.setVarsize (dataSize + 4) ++ data

/-- Whether a datum is a pointer with one of the tags the server knows. -/
def hasKnownTag (attr : Mem) : Run Bool := do
  if sv.is1BE (← attr.load 0) then return vartagSize (← attr.load 1) != 0 else return false

/-- `detoast_attr`. -/
def detoastAttr (attr : Mem) : Run Mem := do
  if ← sv.hasKnownTag attr then
    let fetched ← sv.fetchExternal attr
    if ← sv.varattIsCompressed fetched then sv.toastDecompressDatum fetched
    else return fetched
  else if ← sv.varattIsCompressed attr then sv.toastDecompressDatum attr
  else if ← sv.varattIsShort attr then sv.unpackShort attr
  else return attr

/-- **`pg_detoast_datum_packed`.** -/
def pgDetoastDatumPacked (datum : Mem) : Run Mem := do
  if (← sv.varattIsCompressed datum) || (← sv.varattIsExternal datum) then sv.detoastAttr datum
  else return datum

/-! ## Decompressing a run length encoded datum -/

/-- The second word of a compressed datum. -/
theorem loadWord_compressedDatum {method rawsize : ℕ} (hmethod : method < 4)
    (hraw : rawsize < 2 ^ 30) (payload rest : Mem) :
    sv.loadWord (sv.compressedDatum method rawsize payload ++ rest) 4
      = .ok (rawsize + method * 2 ^ 30) := by
  have hdrop : (sv.compressedDatum method rawsize payload ++ rest).drop 4
      = sv.wordBytes (rawsize + method * 2 ^ 30) ++ (payload ++ rest) := by
    rw [compressedDatum, List.append_assoc, List.append_assoc]
    exact List.drop_left' (sv.wordBytes_length _)
  exact sv.loadWord_wordBytes hdrop (by omega)

theorem vardataCompressedGetExtsize_compressedDatum {method rawsize : ℕ} (hmethod : method < 4)
    (hraw : rawsize < 2 ^ 30) (payload rest : Mem) :
    sv.vardataCompressedGetExtsize (sv.compressedDatum method rawsize payload ++ rest)
      = .ok rawsize := by
  rw [vardataCompressedGetExtsize, sv.loadWord_compressedDatum hmethod hraw]
  refine congrArg Except.ok ?_
  omega

theorem toastCompressMethod_compressedDatum {method rawsize : ℕ} (hmethod : method < 4)
    (hraw : rawsize < 2 ^ 30) (payload rest : Mem) :
    sv.toastCompressMethod (sv.compressedDatum method rawsize payload ++ rest) = .ok method := by
  rw [toastCompressMethod, sv.loadWord_compressedDatum hmethod hraw]
  refine congrArg Except.ok ?_
  omega

/-- A compressed datum is not a pointer to an out-of-line one. -/
theorem HasHeader.hasKnownTag_eq {sv : Server} {m : Mem} {form : Form} {size : ℕ}
    (h : sv.HasHeader m form size) : sv.hasKnownTag m = .ok false := by
  obtain ⟨b, hb, -, -, he⟩ := h.first
  rw [hasKnownTag, hb, Run.ok_bind, he]
  rfl

/-- **Asking for a run length encoded datum yields the text of its payload**,
as a plain datum. -/
theorem pgDetoastDatumPacked_rle {ts : List Token} (hne : AllNonempty ts)
    (fits : (encode ts).length + 8 < 2 ^ 30) (raw : (expand ts).length < 2 ^ 30) (rest : Mem) :
    sv.pgDetoastDatumPacked
        (sv.compressedDatum toastRleCompressionId (expand ts).length (encode ts) ++ rest)
      = do
        palloc ((expand ts).length + 4)
        return sv.plainDatum (expand ts) := by
  have hheader := sv.hasHeader_compressedDatum fits toastRleCompressionId (expand ts).length rest
  have hmethod : toastRleCompressionId < 4 := by decide
  unfold pgDetoastDatumPacked detoastAttr toastDecompressDatum rleDecompressDatum
    decompressDatumWith
  simp only [hheader.varattIsCompressed_eq, hheader.varattIsExternal_eq, hheader.hasKnownTag_eq,
    Run.ok_bind, sv.toastCompressMethod_compressedDatum hmethod raw,
    sv.vardataCompressedGetExtsize_compressedDatum hmethod raw]
  show (do palloc ((expand ts).length + 4); _) = _
  refine congrArg (palloc ((expand ts).length + 4) >>= ·) (funext fun _ => ?_)
  rw [show sv.varsize4B _ = _ from hheader.reads]
  simp only [Run.ok_bind, sv.drop_compressedDatum]
  rw [show (((encode ts).length + 8 : ℕ) : ℤ) - (varhdrszCompressed : ℕ) = (encode ts).length by
    simp only [varhdrszCompressed]
    omega, rleDecompress_encode hne rest true, Run.ok_bind, if_neg (by omega), Int.toNat_natCast]
  rfl

/-- A datum that is neither compressed nor out of line is left as it is. -/
theorem HasText.pgDetoastDatumPacked_eq {sv : Server} {m : Mem} {form : Form} {t : List UInt8}
    (h : sv.HasText m form t) : sv.pgDetoastDatumPacked m = .ok m := by
  rw [pgDetoastDatumPacked, h.header.varattIsCompressed_eq, Run.ok_bind,
    h.header.varattIsExternal_eq, Run.ok_bind, decide_eq_false h.uncompressed]
  rfl

end Server

/-! ## Run length encoded payloads -/

/-- **A run length encoded payload**: a sequence of tokens, empty ones included,
and with the size of the text they stand for within the bounds of a header. -/
structure RlePayload where
  tokens : List Token
  fits : (encode tokens).length + 8 < 2 ^ 30
  raw : (expand tokens).length < 2 ^ 30

namespace RlePayload

variable (sv : Server) (x : RlePayload) (rest : Mem)

/-- The text of a payload. -/
def text : List UInt8 := expand x.tokens

/-- The datum with a payload. -/
def datum : Mem := sv.compressedDatum toastRleCompressionId x.text.length (encode x.tokens)

theorem hasHeader : sv.HasHeader (x.datum sv ++ rest) .compressed ((encode x.tokens).length + 8) :=
  sv.hasHeader_compressedDatum x.fits _ _ rest

theorem drop_datum : (x.datum sv ++ rest).drop Server.varhdrszCompressed = encode x.tokens ++ rest :=
  sv.drop_compressedDatum _ _ _ rest

theorem extsize : sv.vardataCompressedGetExtsize (x.datum sv ++ rest) = .ok x.text.length :=
  sv.vardataCompressedGetExtsize_compressedDatum (by decide) x.raw _ rest

end RlePayload
