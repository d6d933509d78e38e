import Hoco.RleStream
import Hoco.Toast

/-!
# Reading a part of a compressed datum

`detoast_attr_slice` returns the bytes of a datum from an offset on, at most so
many as asked for. For a compressed datum it does not decompress everything:
the decompressors can be asked for the front of a text only
(`toast_decompress_datum_slice`), and the slice is cut from that.

The run length decompressor works in whole tokens, so the front it returns ends
with a token and is longer than asked for unless a token happens to end there
(`rleDecompressDatumSlice_iff`). The second cut, in `detoast_attr_slice`, makes
up for it: a slice read this way is the slice of the whole text
(`detoastAttrSlice_eq_slice`). Between the two lies one fact, that the front
reaches at least as far as it was asked to (`exists_front`).
-/

open Rle

namespace Rle

/-! ## The front of a token sequence -/

/-- **The tokens that are read when `n` bytes are asked for**: the shortest
beginning of the sequence that stands for so many. -/
theorem exists_front {ts : List Token} {n : ℕ} (h : n ≤ (expand ts).length) :
    ∃ us vs, ts = us ++ vs ∧ n ≤ (expand us).length
      ∧ ∀ ws t zs, us = ws ++ t :: zs → (expand ws).length < n := by
  induction ts generalizing n with
  | nil => exact ⟨[], [], rfl, h, fun ws t zs hus => by simp at hus⟩
  | cons t ts ih =>
    rcases Nat.eq_zero_or_pos n with hn | hn
    · exact ⟨[], t :: ts, rfl, by omega, fun ws t zs hus => by simp at hus⟩
    · rw [expand_cons, List.length_append] at h
      obtain ⟨us, vs, rfl, hreach, hshort⟩ := @ih (n - t.expand.length) (by omega)
      by_cases hdone : n ≤ t.expand.length
      · refine ⟨[t], us ++ vs, rfl, by simpa using hdone, fun ws u zs hus => ?_⟩
        cases ws with
        | nil => exact hn
        | cons w ws => simp at hus
      · refine ⟨t :: us, vs, rfl, by rw [expand_cons, List.length_append]; omega,
          fun ws u zs hus => ?_⟩
        cases ws with
        | nil => exact hn
        | cons w ws =>
          obtain ⟨rfl, htail⟩ := List.cons.inj hus
          have hlt := hshort ws u zs htail
          rw [expand_cons, List.length_append]
          omega

/-- **Asked for the front of a text, the decompressor returns the tokens that
reach so far**, as a whole. -/
theorem rleDecompress_front {us vs : List Token} {n : ℕ} (hreach : n ≤ (expand us).length)
    (hshort : ∀ ws t zs, us = ws ++ t :: zs → (expand ws).length < n) (post : Mem) :
    rleDecompress (encode (us ++ vs) ++ post) (encode (us ++ vs)).length n false
      = .ok ((expand us).length, expand us) := by
  have hstart : Started (encode (us ++ vs)).length n 0 0 us := by
    refine started_iff.mpr fun ws t zs hus => ⟨?_, ?_⟩
    · have hmark : 0 < t.encode.length := List.length_pos_iff.mpr t.encode_ne_nil
      rw [hus]
      simp only [encode_append, encode_cons, List.length_append]
      omega
    · have hlt := hshort ws t zs hus
      omega
  have hfuel : us.length ≤ (encode (us ++ vs)).length := by
    have h := length_le_encode_length us
    rw [encode_append, List.length_append]
    omega
  have hloop := @decompressLoop_of_started (encode (us ++ vs) ++ post) (encode (us ++ vs)).length
    n us (encode vs ++ post) (encode (us ++ vs)).length 0 []
    (by rw [List.drop_zero, encode_append, List.append_assoc]) hstart hfuel
    (by rw [List.length_nil]; omega)
  rw [Nat.zero_add, List.nil_append] at hloop
  exact rleDecompress_eq_ok_iff.mpr ⟨_, hloop, (if_neg (by simp)).symm⟩

/-- The tokens read are just enough exactly when a token ends there. -/
theorem front_exact_iff {us vs : List Token} {n : ℕ} (hreach : n ≤ (expand us).length)
    (hshort : ∀ ws t zs, us = ws ++ t :: zs → (expand ws).length < n) :
    (expand us).length = n ↔ ∃ ws zs, us ++ vs = ws ++ zs ∧ (expand ws).length = n := by
  constructor
  · intro h
    exact ⟨us, vs, rfl, h⟩
  · rintro ⟨ws, zs, heq, hn⟩
    rcases List.append_eq_append_iff.mp heq with ⟨ys, rfl, -⟩ | ⟨ys, rfl, -⟩
    · rw [expand_append, List.length_append] at hn
      omega
    · cases ys with
      | nil => rwa [List.append_nil]
      | cons y ys =>
        have hlt := hshort ws y ys rfl
        omega

end Rle

/-! ## The functions -/

/-- What slices need from their surroundings besides a `Server`. -/
structure SliceServer extends Server where
  /-- What `detoast_attr_slice` returns for an out-of-line datum. -/
  externalSlice : Mem → ℤ → ℤ → Run Mem
  /-- `LZ4_decompress_safe_partial`, if the library has version 1.8.3 or later. -/
  lz4DecompressSafePartial : Option (Mem → ℤ → ℤ → Run (ℤ × List UInt8))

namespace SliceServer

/-- The server `littleEndian`, which has no out-of-line values and no LZ4. -/
def littleEndian : SliceServer where
  toServer := .littleEndian
  externalSlice := fun _ _ _ => .error .fault
  lz4DecompressSafePartial := none

variable (sv : SliceServer)

/-- The body that the three decompressors of slices share. -/
def decompressDatumSliceWith (decompress : Mem → ℤ → ℤ → Run (ℤ × List UInt8)) (corrupt : String)
    (value : Mem) (slicelength : ℤ) : Run Mem := do
  palloc (int32 (slicelength + 4))
  let slen : ℤ := (← sv.varsize4B value : ℕ) - Server.varhdrszCompressed
  let (rawsize, out) ← decompress (value.drop Server.varhdrszCompressed) slen slicelength
  if rawsize < 0 then .error (.ereport { code := .dataCorrupted, message := corrupt })
  else return sv.setVarsize (rawsize.toNat + 4) ++ out

/-- `pglz_decompress_datum_slice`. -/
def pglzDecompressDatumSlice (value : Mem) (slicelength : ℤ) : Run Mem :=
  sv.decompressDatumSliceWith
    (fun source slen rawsize => Pglz.pglzDecompress source slen rawsize.toNat false)
    "compressed pglz data is corrupt" value slicelength

/-- `rle_decompress_datum_slice`. -/
def rleDecompressDatumSlice (value : Mem) (slicelength : ℤ) : Run Mem :=
  sv.decompressDatumSliceWith (fun source slen rawsize => rleDecompress source slen rawsize false)
    "compressed rle data is corrupt" value slicelength

/-- `lz4_decompress_datum_slice`. -/
def lz4DecompressDatumSlice (value : Mem) (slicelength : ℤ) : Run Mem :=
  match sv.lz4, sv.lz4DecompressSafePartial with
  | none, _ => noLz4Support
  | some _, none => sv.lz4DecompressDatum value
  | some _, some decompressSafePartial =>
    sv.decompressDatumSliceWith decompressSafePartial "compressed lz4 data is corrupt" value
      slicelength

/-- `toast_decompress_datum_slice`. A slice that covers the whole text is not
treated as one. -/
def toastDecompressDatumSlice (attr : Mem) (slicelength : ℤ) : Run Mem := do
  let extsize ← sv.vardataCompressedGetExtsize attr
  if (extsize : ℤ) ≤ slicelength % 2 ^ 32 then sv.toastDecompressDatum attr
  else
    let cmid ← sv.toastCompressMethod attr
    if cmid = toastPglzCompressionId then sv.pglzDecompressDatumSlice attr slicelength
    else if cmid = toastLz4CompressionId then sv.lz4DecompressDatumSlice attr slicelength
    else if cmid = toastRleCompressionId then sv.rleDecompressDatumSlice attr slicelength
    else .error (.ereport {
      code := .internalError
      message := "invalid compression method id " ++ toString cmid })

/-- The end of `detoast_attr_slice`: the slice is cut out of a datum that is not
compressed. -/
def cutSlice (preslice : Mem) (sliceoffset slicelength slicelimit : ℤ) : Run Mem := do
  let short ← sv.varattIsShort preslice
  let attrdata := if short then 1 else 4
  let attrsize : ℤ := (← if short then sv.varsize1B preslice else sv.varsize4B preslice : ℕ)
    - attrdata
  let (sliceoffset, slicelength) :=
    if attrsize ≤ sliceoffset then (0, 0)
    else if slicelength < 0 ∨ attrsize < slicelimit then (sliceoffset, attrsize - sliceoffset)
    else (sliceoffset, slicelength)
  palloc (int32 (slicelength + 4))
  let data ← preslice.copy (attrdata + sliceoffset).toNat slicelength.toNat
  return sv.setVarsize (slicelength.toNat + 4) ++ data

/-- **`detoast_attr_slice`.** A sum of offset and length that overflows is a
request for everything behind the offset, like a negative length. -/
def detoastAttrSlice (attr : Mem) (sliceoffset slicelength : ℤ) : Run Mem := do
  if sliceoffset < 0 then
    .error (.ereport {
      code := .internalError
      message := "invalid sliceoffset: " ++ toString sliceoffset })
  else
    let (slicelength, slicelimit) : ℤ × ℤ :=
      if slicelength < 0 then (slicelength, -1)
      else if intMax < sliceoffset + slicelength then (-1, -1)
      else (slicelength, sliceoffset + slicelength)
    if ← sv.hasKnownTag attr then sv.externalSlice attr sliceoffset slicelength
    else
      let preslice ←
        if ← sv.varattIsCompressed attr then
          if 0 ≤ slicelimit then sv.toastDecompressDatumSlice attr slicelimit
          else sv.toastDecompressDatum attr
        else pure attr
      sv.cutSlice preslice sliceoffset slicelength slicelimit

/-! ## Cutting a slice -/

/-- The slice of a text: everything behind the offset if the length is
negative, and otherwise as many bytes as there are, up to the length. -/
def slice (data : List UInt8) (sliceoffset slicelength : ℤ) : List UInt8 :=
  if slicelength < 0 then data.drop sliceoffset.toNat
  else (data.drop sliceoffset.toNat).take slicelength.toNat

/-- **What is cut out of a plain datum**, when the limit goes with the length. -/
theorem cutSlice_plainDatum {data : List UInt8} (hdata : data.length + 4 ≤ maxAllocSize)
    {sliceoffset slicelength slicelimit : ℤ} (hoff : 0 ≤ sliceoffset)
    (hlimit : 0 ≤ slicelength → slicelimit = sliceoffset + slicelength) :
    sv.cutSlice (sv.plainDatum data) sliceoffset slicelength slicelimit
      = .ok (sv.plainDatum (slice data sliceoffset slicelength)) := by
  simp only [maxAllocSize] at hdata
  have htext := sv.hasText_plainDatum (show data.length + 4 < 2 ^ 30 by omega) []
  rw [List.append_nil] at htext
  obtain ⟨b, hb, -, hshort, -⟩ := htext.header.first
  have hreads : sv.varsize4B (sv.plainDatum data) = .ok (4 + data.length) := htext.header.reads
  -- cutting `k` bytes at `off` out of the data
  have hcut : ∀ off k : ℤ, 0 ≤ off → 0 ≤ k → off + k ≤ data.length →
      (palloc (int32 (k + 4)) >>= fun _ =>
          (sv.plainDatum data).copy (4 + off).toNat k.toNat >>= fun bytes =>
            (.ok (sv.setVarsize (k.toNat + 4) ++ bytes) : Run Mem))
        = .ok (sv.plainDatum ((data.drop off.toNat).take k.toNat)) := by
    intro off k hoff₀ hk₀ hle
    have halloc : palloc (int32 (k + 4)) = .ok () := by
      rw [int32, Int.bmod_eq_of_le (by omega) (by omega)]
      exact palloc_of_le (by omega) (by simp only [maxAllocSize]; omega)
    have hlen : ((data.drop off.toNat).take k.toNat).length = k.toNat := by
      rw [List.length_take, List.length_drop]
      omega
    have hdrop : (sv.plainDatum data).drop (4 + off).toNat
        = (data.drop off.toNat).take k.toNat ++ (data.drop off.toNat).drop k.toNat := by
      rw [List.take_append_drop, show (4 + off).toNat = 4 + off.toNat by omega, ← List.drop_drop]
      refine congrArg (List.drop off.toNat) ?_
      rw [Server.plainDatum, Server.setVarsize]
      exact List.drop_left' (sv.wordBytes_length _)
    have hcopy := Mem.copy_of_drop hdrop
    rw [hlen] at hcopy
    rw [halloc, Run.ok_bind, hcopy, Run.ok_bind, Server.plainDatum, hlen]
  have hsize : ((4 + data.length : ℕ) : ℤ) - 4 = data.length := by omega
  have hplain : sv.varattIsShort (sv.plainDatum data) = .ok false := by
    rw [Server.varattIsShort, hb, Run.ok_bind, hshort]
    rfl
  unfold cutSlice
  simp only [hplain, Run.ok_bind, Bool.false_eq_true, ↓reduceIte, hreads, hsize]
  unfold slice
  by_cases hpast : (data.length : ℤ) ≤ sliceoffset
  · have hnone : data.drop sliceoffset.toNat = [] := List.drop_eq_nil_iff.mpr (by omega)
    rw [hnone, List.take_nil, ite_self]
    simp only [if_pos hpast]
    exact hcut 0 0 (by omega) (by omega) (by omega)
  · simp only [if_neg hpast]
    by_cases hrest : slicelength < 0 ∨ (data.length : ℤ) < slicelimit
    · simp only [if_pos hrest]
      refine (hcut sliceoffset (data.length - sliceoffset) hoff (by omega) (by omega)).trans ?_
      have hlen : (data.drop sliceoffset.toNat).length = (data.length - sliceoffset).toNat := by
        rw [List.length_drop]
        omega
      rw [← hlen, List.take_length]
      split
      · rfl
      · rw [List.take_of_length_le (by omega)]
    · simp only [if_neg hrest]
      rw [not_or, Int.not_lt] at hrest
      rw [if_neg (by omega)]
      exact hcut sliceoffset slicelength hoff hrest.1 (by omega)

/-! ## Slices of a run length encoded datum -/

section Rle

variable {sv} {payload : List UInt8} {rawsize : ℕ} (fits : payload.length + 8 < 2 ^ 30)
  (raw : rawsize < 2 ^ 30) (rest : Mem)

include fits

/-- The arguments that the decompressors of datums take from the header. -/
theorem slen_eq :
    sv.varsize4B (sv.compressedDatum toastRleCompressionId rawsize payload ++ rest)
      = .ok (payload.length + 8) :=
  (sv.hasHeader_compressedDatum fits toastRleCompressionId rawsize rest).reads

/-- `rle_decompress_datum_slice` on a payload. -/
theorem rleDecompressDatumSlice_eq {slicelength : ℤ} {v : ℕ} {out : List UInt8}
    (h : rleDecompress (payload ++ rest) payload.length slicelength false = .ok (v, out)) :
    sv.rleDecompressDatumSlice
        (sv.compressedDatum toastRleCompressionId rawsize payload ++ rest) slicelength
      = (palloc (int32 (slicelength + 4)) >>= fun _ => .ok (sv.setVarsize (v + 4) ++ out)) := by
  unfold rleDecompressDatumSlice decompressDatumSliceWith
  refine congrArg (palloc (int32 (slicelength + 4)) >>= ·) (funext fun _ => ?_)
  rw [slen_eq fits rest, Run.ok_bind, sv.drop_compressedDatum,
    show ((payload.length + 8 : ℕ) : ℤ) - (Server.varhdrszCompressed : ℕ) = payload.length by
      simp only [Server.varhdrszCompressed]
      omega]
  simp only [h, Run.ok_bind]
  rw [if_neg (by omega)]
  rfl

include raw

/-- **A datum is decompressed when its payload is a well-formed encoding** of as
many bytes as the header says, and they can be allocated. -/
theorem toastDecompressDatum_eq_ok_iff {full : Mem} :
    sv.toastDecompressDatum (sv.compressedDatum toastRleCompressionId rawsize payload ++ rest)
        = .ok full
      ↔ rawsize + 4 ≤ maxAllocSize
        ∧ ∃ ts, WellFormed payload rawsize ts ∧ full = sv.plainDatum (expand ts) := by
  have hmethod : toastRleCompressionId < 4 := by decide
  unfold Server.toastDecompressDatum Server.rleDecompressDatum Server.decompressDatumWith
  rw [sv.toastCompressMethod_compressedDatum hmethod raw, Run.ok_bind, if_neg (by decide),
    if_neg (by decide), if_pos rfl, sv.vardataCompressedGetExtsize_compressedDatum hmethod raw,
    Run.ok_bind, slen_eq fits rest]
  by_cases halloc : rawsize + 4 ≤ maxAllocSize
  · rw [palloc_of_le (by omega) (by omega), Run.ok_bind, Run.ok_bind, sv.drop_compressedDatum,
      show ((payload.length + 8 : ℕ) : ℤ) - (Server.varhdrszCompressed : ℕ) = payload.length by
        simp only [Server.varhdrszCompressed]
        omega]
    dsimp only
    by_cases hwf : ∃ ts, WellFormed payload rawsize ts
    · obtain ⟨ts, hts⟩ := hwf
      rw [hts.rleDecompress_eq rest, Run.ok_bind, if_neg (by omega), Int.toNat_natCast]
      have hplain : sv.setVarsize (rawsize + 4) ++ expand ts = sv.plainDatum (expand ts) := by
        rw [Server.plainDatum, hts.total]
      rw [hplain]
      constructor
      · intro h
        cases h
        exact ⟨halloc, ts, hts, rfl⟩
      · rintro ⟨-, us, hus, rfl⟩
        have hsame := (hts.rleDecompress_eq []).symm.trans (hus.rleDecompress_eq [])
        rw [(Prod.mk.inj (Except.ok.inj hsame)).2]
        rfl
    · refine iff_of_false (fun h => ?_) (fun h => hwf ⟨h.2.choose, h.2.choose_spec.1⟩)
      rcases rleDecompress_eq_of_not_wellFormed hwf rest with ⟨out, hout⟩ | ⟨hfault, -⟩
      · rw [hout, Run.ok_bind, if_pos (show (-1 : ℤ) < 0 by decide)] at h
        cases h
      · rw [hfault] at h
        cases h
  · obtain ⟨report, herror⟩ : ∃ report, palloc (rawsize + 4) = .error (.ereport report) := by
      refine palloc_of_gt ?_
      simp only [maxAllocSize] at halloc ⊢
      omega
    rw [herror]
    exact iff_of_false (fun h => by cases h) (fun h => halloc h.1)

/-- What `toast_decompress_datum_slice` returns when the datum can be
decompressed as a whole: a beginning of the text that reaches the limit, or all
of it. -/
theorem exists_toastDecompressDatumSlice_eq {ts : List Token} (hts : WellFormed payload rawsize ts)
    (halloc : rawsize + 4 ≤ maxAllocSize) {slicelimit : ℤ} (hlimit : 0 ≤ slicelimit)
    (hint : slicelimit ≤ intMax) :
    ∃ front behind, expand ts = front ++ behind
      ∧ (slicelimit ≤ front.length ∨ behind = [])
      ∧ sv.toastDecompressDatumSlice
          (sv.compressedDatum toastRleCompressionId rawsize payload ++ rest) slicelimit
        = .ok (sv.plainDatum front) := by
  have hmethod : toastRleCompressionId < 4 := by decide
  simp only [maxAllocSize] at halloc
  simp only [intMax] at hint
  unfold toastDecompressDatumSlice
  rw [sv.vardataCompressedGetExtsize_compressedDatum hmethod raw, Run.ok_bind,
    Int.emod_eq_of_lt hlimit (by omega)]
  by_cases hall : (rawsize : ℤ) ≤ slicelimit
  · rw [if_pos hall]
    exact ⟨expand ts, [], (List.append_nil _).symm, Or.inr rfl,
      (toastDecompressDatum_eq_ok_iff fits raw rest).mpr ⟨halloc, ts, hts, rfl⟩⟩
  · obtain ⟨n, rfl⟩ := Int.eq_ofNat_of_zero_le hlimit
    obtain ⟨us, vs, rfl, hreach, hshort⟩ := @exists_front ts n (by rw [hts.total]; omega)
    have hfront := @rleDecompress_front us vs n hreach hshort rest
    rw [← hts.source_eq] at hfront
    rw [if_neg hall, sv.toastCompressMethod_compressedDatum hmethod raw, Run.ok_bind,
      if_neg (by decide), if_neg (by decide), if_pos rfl,
      rleDecompressDatumSlice_eq fits rest hfront, int32,
      Int.bmod_eq_of_le (by omega) (by omega),
      palloc_of_le (by omega) (by simp only [maxAllocSize]; omega), Run.ok_bind]
    exact ⟨expand us, expand vs, expand_append us vs, Or.inl (by omega), rfl⟩

end Rle

/-- A slice that a beginning of the text covers is a slice of that beginning. -/
theorem slice_append {front : List UInt8} {sliceoffset slicelength : ℤ} (hoff : 0 ≤ sliceoffset)
    (hlen : 0 ≤ slicelength) (hreach : sliceoffset + slicelength ≤ front.length)
    (behind : List UInt8) :
    slice (front ++ behind) sliceoffset slicelength = slice front sliceoffset slicelength := by
  unfold slice
  rw [if_neg (by omega), if_neg (by omega), List.drop_append_of_le_length (by omega),
    List.take_append_of_le_length (by rw [List.length_drop]; omega)]

/-- A slice whose length cannot be exhausted is all that is behind the offset. -/
theorem slice_of_le {data : List UInt8} {sliceoffset slicelength : ℤ} (hoff : 0 ≤ sliceoffset)
    (h : data.length ≤ sliceoffset + slicelength) :
    slice data sliceoffset slicelength = slice data sliceoffset (-1) := by
  unfold slice
  rw [if_pos (show (-1 : ℤ) < 0 by decide)]
  split
  · rfl
  · exact List.take_of_length_le (by rw [List.length_drop]; omega)

/-- **A slice that is read from a run length encoded datum is the slice of the
whole text.** Whenever `detoast_attr` returns a datum, `detoast_attr_slice`
returns the datum of the slice of its text, for every non-negative offset and
every length: a negative one, and one whose sum with the offset overflows,
included. -/
theorem detoastAttrSlice_eq_slice {payload : List UInt8} {rawsize : ℕ}
    (fits : payload.length + 8 < 2 ^ 30) (raw : rawsize < 2 ^ 30) (rest : Mem) {full : Mem}
    (hfull : sv.detoastAttr (sv.compressedDatum toastRleCompressionId rawsize payload ++ rest)
      = .ok full)
    (sliceoffset slicelength : ℤ) (hoff : 0 ≤ sliceoffset) :
    ∃ data, full = sv.plainDatum data ∧ data.length = rawsize
      ∧ sv.detoastAttrSlice (sv.compressedDatum toastRleCompressionId rawsize payload ++ rest)
          sliceoffset slicelength = .ok (sv.plainDatum (slice data sliceoffset slicelength)) := by
  have hheader := sv.hasHeader_compressedDatum fits toastRleCompressionId rawsize rest
  rw [Server.detoastAttr, hheader.hasKnownTag_eq, Run.ok_bind, if_neg (by decide),
    hheader.varattIsCompressed_eq, Run.ok_bind, if_pos (by decide)] at hfull
  obtain ⟨halloc, ts, hts, rfl⟩ := (toastDecompressDatum_eq_ok_iff fits raw rest).mp hfull
  refine ⟨expand ts, rfl, hts.total, ?_⟩
  have hcut := fun {off len lim : ℤ} => @cutSlice_plainDatum sv (expand ts)
    (by rw [hts.total]; exact halloc) off len lim
  unfold detoastAttrSlice
  simp only [hheader.hasKnownTag_eq, hheader.varattIsCompressed_eq, Run.ok_bind, Bool.false_eq_true,
    ↓reduceIte, decide_true, if_neg (show ¬ sliceoffset < 0 by omega)]
  by_cases hneg : slicelength < 0
  · simp only [if_pos hneg, hfull, Run.ok_bind, if_neg (show ¬ (0 : ℤ) ≤ -1 by decide)]
    exact hcut hoff (by omega)
  · simp only [if_neg hneg]
    by_cases hover : intMax < sliceoffset + slicelength
    · simp only [if_pos hover, hfull, Run.ok_bind, if_neg (show ¬ (0 : ℤ) ≤ -1 by decide)]
      have hshort : ((expand ts).length : ℤ) ≤ sliceoffset + slicelength := by
        simp only [intMax] at hover
        rw [hts.total]
        omega
      rw [hcut hoff (by omega), slice_of_le hoff hshort]
    · obtain ⟨front, behind, heq, hreach, hfront⟩ := exists_toastDecompressDatumSlice_eq fits raw
        rest hts halloc (show 0 ≤ sliceoffset + slicelength by omega) (Int.not_lt.mp hover)
      simp only [if_neg hover, if_pos (show 0 ≤ sliceoffset + slicelength by omega)]
      have hfrontLen : front.length ≤ (expand ts).length := by
        rw [heq, List.length_append]
        omega
      rw [hfront, Run.ok_bind,
        sv.cutSlice_plainDatum (by rw [hts.total] at hfrontLen; omega) hoff (fun _ => rfl), heq]
      rcases hreach with hreach | rfl
      · rw [slice_append hoff (by omega) hreach]
      · rw [List.append_nil]

/-- Two bytes out of the middle of a run of four. -/
theorem detoastAttrSlice_eq_slice_run :
    ∃ data, littleEndian.plainDatum [97, 97, 97, 97] = littleEndian.plainDatum data
      ∧ littleEndian.detoastAttrSlice
          (littleEndian.compressedDatum toastRleCompressionId 4 [129, 97] ++ []) 1 2
        = .ok (littleEndian.plainDatum (slice data 1 2)) := by
  obtain ⟨data, hfull, -, hslice⟩ := @detoastAttrSlice_eq_slice littleEndian [129, 97] 4
    (by decide) (by decide) [] (littleEndian.plainDatum [97, 97, 97, 97]) (by decide) 1 2
    (by decide)
  exact ⟨data, hfull, hslice⟩

end SliceServer

/-! ## The front of a text -/

namespace RlePayload

variable (sv : SliceServer) (x : RlePayload) (rest : Mem)

/-- **Decompression of a slice returns the bytes that were asked for exactly when
a token ends there**, and the datum can be allocated. -/
theorem rleDecompressDatumSlice_iff (n : Fin x.text.length) :
    (rleDecompress (encode x.tokens ++ rest) (encode x.tokens).length n.val false
          = .ok (n.val, x.text.take n)
        ∧ sv.rleDecompressDatumSlice (x.datum sv.toServer ++ rest) n.val
          = .ok (sv.plainDatum (x.text.take n)))
      ↔ (∃ us vs, x.tokens = us ++ vs ∧ (expand us).length = n) ∧ n + 4 ≤ maxAllocSize := by
  obtain ⟨n, hlt⟩ := n
  dsimp only
  obtain ⟨us, vs, hts, hreach, hshort⟩ := @exists_front x.tokens n hlt.le
  have hfront := @rleDecompress_front us vs n hreach hshort rest
  rw [← hts] at hfront
  have hexact := @front_exact_iff us vs n hreach hshort
  rw [← hts] at hexact
  have hraw : x.text.length < 2 ^ 30 := x.raw
  have hint : int32 ((n : ℤ) + 4) = n + 4 := by
    rw [int32]
    exact Int.bmod_eq_of_le (by omega) (by omega)
  rw [← hexact, hfront, datum, SliceServer.rleDecompressDatumSlice_eq x.fits rest hfront, hint]
  constructor
  · rintro ⟨hrun, hdatum⟩
    refine ⟨?_, ?_⟩
    · have hv := (Prod.mk.inj (Except.ok.inj hrun)).1
      omega
    · by_contra hgt
      obtain ⟨report, herror⟩ : ∃ report, palloc ((n : ℤ) + 4) = .error (.ereport report) := by
        refine palloc_of_gt ?_
        simp only [maxAllocSize] at hgt ⊢
        omega
      rw [herror] at hdatum
      cases hdatum
  · rintro ⟨hn, hle⟩
    have htake : x.text.take n = expand us := by
      rw [text, hts, expand_append, ← hn, List.take_left]
    rw [htake, palloc_of_le (by omega) (by omega), Run.ok_bind, hn, Server.plainDatum, hn]
    exact ⟨rfl, rfl⟩

/-- **Decompression of a slice does not always return the bytes that were asked
for**: asked for one byte of a run of three, it returns the run. -/
theorem not_forall_rleDecompressDatumSlice :
    ¬ ∀ (sv : SliceServer) (x : RlePayload) (rest : Mem) (n : Fin x.text.length),
      rleDecompress (encode x.tokens ++ rest) (encode x.tokens).length n.val false
          = .ok (n.val, x.text.take n)
        ∧ sv.rleDecompressDatumSlice (x.datum sv.toServer ++ rest) n.val
          = .ok (sv.plainDatum (x.text.take n)) := by
  intro h
  have hbad := (h .littleEndian ⟨[.run 97 0], by decide, by decide⟩ [] ⟨1, by decide⟩).1
  have hrun : rleDecompress (encode [.run 97 0] ++ []) (encode [.run 97 0]).length 1 false
      = .ok (3, [97, 97, 97]) := by decide
  exact absurd (hrun.symm.trans hbad) (by decide)

end RlePayload
