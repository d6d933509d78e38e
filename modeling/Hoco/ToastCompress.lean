import Hoco.HocotextMethod
import Hoco.PglzCompress
import Hoco.RleRoundTrip

/-!
# Compressing a datum and asking for it again

`toast_compress_datum` compresses a datum with the method of its column, and `detoast_attr`
decompresses it by the method that the datum names. For each method what is asked of the
compressor is that its decompressor restores the text (`UsesPglz`, `Lz4.Restores`). The
method of the server itself is the function of the source here, and not any more a
parameter: `UsesPglz` says that what a server compresses with is `pglz_compress`, and that
is enough, since the round trip of that function has been proved.

Run length encoding is the method where this is not so. A text comes back exactly when its
literals fit; any other text that was stored by that method cannot be read any more.
-/

open Rle

/-- What is asked of the LZ4 library. -/
def Lz4.Restores (lz4 : Lz4) : Prop :=
  ∀ t bound, 0 < (lz4.compressDefault t bound).1 →
    lz4.decompressSafe (lz4.compressDefault t bound).2 (lz4.compressDefault t bound).2.length
      t.length = .ok (t.length, t)

namespace Server

variable (sv : Server)

/-- **The server compresses with `pglz_compress`**, as `pglz_compress_datum` calls it: into
a buffer of the size that it needs, with the default strategy, and with whatever the
static arrays and the buffer hold. -/
def UsesPglz : Prop :=
  ∀ (t : List UInt8) (w : Pglz.Work) (dest : Mem), (t.length : ℤ) ≤ intMax →
    dest.length = t.length + 4 →
    ∃ v dest' w', Pglz.pglzCompress sv.charSigned w t t.length dest none = .ok (v, dest', w')
      ∧ sv.pglzCompress t = if v < 0 then none else some (dest'.take v.toNat)

/-- The server that does. -/
def withPglz : Server :=
  { sv with
    pglzCompress := fun t =>
      (Pglz.parse sv.charSigned t t.length Pglz.pglzStrategyDefault).map Pglz.stream }

theorem usesPglz_withPglz : sv.withPglz.UsesPglz := by
  intro t w dest hlen hdest
  obtain ⟨dest', w', hrun, -, hits⟩ :=
    @Pglz.exists_pglzCompress_eq sv.charSigned t t.length w dest none (Nat.le_refl _) hlen
      (Nat.le_of_eq hdest.symm)
  refine ⟨_, dest', w', hrun, ?_⟩
  show (Pglz.parse sv.charSigned t t.length (Option.getD none Pglz.pglzStrategyDefault)).map
    Pglz.stream = _
  cases hparse : Pglz.parse sv.charSigned t t.length (Option.getD none Pglz.pglzStrategyDefault) with
  | none => rfl
  | some its =>
    rw [Option.map_some, Option.elim_some, if_neg (by omega), Int.toNat_natCast, (hits its hparse).1]

variable {sv}

/-- What such a server stores can be decompressed. -/
theorem UsesPglz.pglzDecompress_eq (h : sv.UsesPglz) {t payload : List UInt8}
    (hlen : (t.length : ℤ) ≤ intMax) (hpayload : sv.pglzCompress t = some payload) :
    Pglz.pglzDecompress payload payload.length t.length true = .ok (t.length, t) := by
  obtain ⟨dest', w', hrun, -, hits⟩ :=
    @Pglz.exists_pglzCompress_eq sv.charSigned t t.length .zero (List.replicate (t.length + 4) 0)
      none (Nat.le_refl _) hlen (Nat.le_of_eq List.length_replicate.symm)
  obtain ⟨v, dest'', w'', hrun', hsame⟩ := h t .zero (List.replicate (t.length + 4) 0) hlen
    List.length_replicate
  rw [hrun] at hrun'
  cases hrun'
  rw [hpayload] at hsame
  cases hparse : Pglz.parse sv.charSigned t t.length (Option.getD none Pglz.pglzStrategyDefault) with
  | none =>
    rw [hparse] at hsame
    cases hsame
  | some its =>
    obtain ⟨htake, hdec, hst, -⟩ := hits its hparse
    rw [hparse, Option.elim_some, if_neg (by omega), Int.toNat_natCast, htake] at hsame
    cases hsame
    rw [List.take_length] at hdec
    have hdecompress := Pglz.pglzDecompress_stream hdec hst [] true
    rwa [List.append_nil] at hdecompress

/-! ## What is stored -/

/-- The ids of the methods fit into two bits. -/
theorem lt_of_compressByMethod {value : Mem} {cmethod : Char} {tmp : Option (List UInt8)} {cmid : ℕ}
    (h : sv.compressByMethod value cmethod = .ok (tmp, cmid)) : cmid < 4 := by
  unfold compressByMethod at h
  split at h
  · obtain ⟨_, -, heq⟩ := Run.map_eq_ok.mp h
    cases heq
    decide
  · split at h
    · obtain ⟨_, -, heq⟩ := Run.map_eq_ok.mp h
      cases heq
      decide
    · split at h
      · obtain ⟨_, -, heq⟩ := Run.map_eq_ok.mp h
        cases heq
        decide
      · cases h

/-- Run length encoding has its own id. -/
theorem cmid_of_compressByMethod_rle {value : Mem} {tmp : Option (List UInt8)} {cmid : ℕ}
    (h : sv.compressByMethod value 'r' = .ok (tmp, cmid)) : cmid = toastRleCompressionId := by
  rw [compressByMethod, if_neg (by decide), if_neg (by decide), if_pos rfl] at h
  obtain ⟨_, -, heq⟩ := Run.map_eq_ok.mp h
  cases heq
  rfl

section

variable {value d : Mem} {form : Form} {t : List UInt8} (h : sv.HasText value form t)

include h

/-- The methods that have bounds for the size: what they return is what the compressor
returns on the text. -/
theorem HasText.of_compressDatumWith {compress : List UInt8 → Option (List UInt8)}
    {payload : List UInt8} (hrun : sv.compressDatumWith compress value = .ok (some payload)) :
    compress t = some payload := by
  have hexhdr := h.header.varsizeAnyExhdr_eq h.uncompressed (Nat.le_add_right _ _)
  rw [Nat.add_sub_cancel_left] at hexhdr
  rw [compressDatumWith, hexhdr, Run.ok_bind] at hrun
  split at hrun
  · cases hrun
  · obtain ⟨-, -, hrun⟩ := Run.bind_eq_ok.mp hrun
    rw [h.datumData_eq] at hrun
    exact Except.ok.inj hrun

/-- They do not try a text of less than 32 bytes. -/
theorem HasText.le_of_compressDatumWith {compress : List UInt8 → Option (List UInt8)}
    {payload : List UInt8} (hrun : sv.compressDatumWith compress value = .ok (some payload)) :
    32 ≤ t.length := by
  have hfits := h.fits
  have hexhdr := h.header.varsizeAnyExhdr_eq h.uncompressed (Nat.le_add_right _ _)
  rw [Nat.add_sub_cancel_left] at hexhdr
  rw [compressDatumWith, hexhdr, Run.ok_bind, int32_eq_self (by omega) (by omega)] at hrun
  split at hrun
  · cases hrun
  · rename_i hadmitted
    omega

/-- The same for the library. -/
theorem HasText.of_lz4CompressDatum {payload : List UInt8}
    (hrun : sv.lz4CompressDatum value = .ok (some payload)) :
    ∃ lz4 bound, sv.lz4 = some lz4 ∧ 0 < (lz4.compressDefault t bound).1
      ∧ (lz4.compressDefault t bound).2 = payload := by
  have hexhdr := h.header.varsizeAnyExhdr_eq h.uncompressed (Nat.le_add_right _ _)
  rw [Nat.add_sub_cancel_left] at hexhdr
  unfold lz4CompressDatum at hrun
  split at hrun
  · cases hrun
  · rename_i lz4 hlz4
    rw [hexhdr, Run.ok_bind] at hrun
    obtain ⟨-, -, hrun⟩ := Run.bind_eq_ok.mp hrun
    rw [h.datumData_eq, Run.ok_bind] at hrun
    dsimp only at hrun
    split at hrun
    · cases hrun
    · split at hrun
      · cases hrun
      · rename_i hpos _
        exact ⟨lz4, _, hlz4, Int.not_le.mp hpos, Option.some.inj (Except.ok.inj hrun)⟩

/-- The methods that are built in return on every text but the largest. -/
theorem HasText.exists_toastCompressDatum_eq {cmethod : Char}
    (hmethod : sv.effectiveMethod cmethod = 'p' ∨ sv.effectiveMethod cmethod = 'r')
    (hlen : (t.length : ℤ) + 12 ≤ maxAllocSize) :
    ∃ r, sv.toastCompressDatum value cmethod = .ok r := by
  have hexhdr := h.header.varsizeAnyExhdr_eq h.uncompressed (Nat.le_add_right _ _)
  rw [Nat.add_sub_cancel_left] at hexhdr
  have hfits := h.fits
  have hwith : ∀ compress, ∃ r, sv.compressDatumWith compress value = .ok r := by
    intro compress
    rw [compressDatumWith, hexhdr, Run.ok_bind]
    split
    · exact ⟨_, rfl⟩
    · rw [int32_eq_self (by omega) (by omega),
        palloc_of_le (by omega) (by simp only [varhdrszCompressed]; omega), h.datumData_eq]
      exact ⟨_, rfl⟩
  have hby : ∃ r, sv.compressByMethod value (sv.effectiveMethod cmethod) = .ok r := by
    rw [compressByMethod]
    rcases hmethod with hmethod | hmethod
    · obtain ⟨r, hr⟩ := hwith sv.pglzCompress
      rw [hmethod, if_pos rfl, pglzCompressDatum, hr]
      exact ⟨_, rfl⟩
    · obtain ⟨r, hr⟩ := hwith (rleCompress · none)
      rw [hmethod, if_neg (by decide), if_neg (by decide), if_pos rfl, rleCompressDatum, hr]
      exact ⟨_, rfl⟩
  obtain ⟨⟨tmp, cmid⟩, hby⟩ := hby
  rw [toastCompressDatum, hexhdr, Run.ok_bind, hby, Run.ok_bind]
  cases tmp with
  | none => exact ⟨_, rfl⟩
  | some payload =>
    dsimp only
    split <;> exact ⟨_, rfl⟩

/-- What any method compresses has two bytes or more, if what the library does. -/
theorem HasText.two_le_of_compressByMethod {method : Char} (hlong : method = 'l' → 2 ≤ t.length)
    {payload : List UInt8} {cmid : ℕ}
    (hrun : sv.compressByMethod value method = .ok (some payload, cmid)) : 2 ≤ t.length := by
  unfold compressByMethod at hrun
  split at hrun
  · obtain ⟨tmp, htmp, heq⟩ := Run.map_eq_ok.mp hrun
    cases heq
    exact Nat.le_trans (by decide) (h.le_of_compressDatumWith htmp)
  · split at hrun
    · exact hlong ‹_›
    · split at hrun
      · obtain ⟨tmp, htmp, heq⟩ := Run.map_eq_ok.mp hrun
        cases heq
        exact Nat.le_trans (by decide) (h.le_of_compressDatumWith htmp)
      · cases hrun

/-- **What `toast_compress_datum` stores for a text**: a compressed datum with the method,
the size of the text and what the compressor returned, and smaller than the text by more
than two bytes. For a text of less than two bytes the difference that the size is compared
with wraps around; only the library is asked to compress such a text. -/
theorem HasText.of_toastCompressDatum {cmethod : Char}
    (hlong : sv.effectiveMethod cmethod = 'l' → 2 ≤ t.length)
    (hstored : sv.toastCompressDatum value cmethod = .ok (some d)) :
    ∃ payload cmid, sv.compressByMethod value (sv.effectiveMethod cmethod)
        = .ok (some payload, cmid)
      ∧ payload.length + 10 < t.length ∧ d = sv.compressedDatum cmid t.length payload := by
  have hlt := h.fits
  have hexhdr := h.header.varsizeAnyExhdr_eq h.uncompressed (Nat.le_add_right _ _)
  rw [Nat.add_sub_cancel_left] at hexhdr
  rw [toastCompressDatum, hexhdr, Run.ok_bind] at hstored
  obtain ⟨⟨tmp, cmid⟩, htmp, hstored⟩ := Run.bind_eq_ok.mp hstored
  cases tmp with
  | none => cases hstored
  | some payload =>
    dsimp only at hstored
    split at hstored
    · rename_i hsaves
      cases hstored
      have htwo := h.two_le_of_compressByMethod hlong htmp
      refine ⟨payload, cmid, htmp, ?_, rfl⟩
      simp only [varhdrszCompressed] at hsaves
      omega
    · cases hstored

end

/-! ## Asking for it -/

/-- What a decompressor gets from a compressed datum, and what becomes of its result. -/
theorem decompressDatumWith_compressedDatum {method rawsize : ℕ} {payload : List UInt8}
    (hmethod : method < 4) (fits : payload.length + 8 < 2 ^ 30) (raw : rawsize + 4 < 2 ^ 30)
    (decompress : Mem → ℤ → ℕ → Run (ℤ × List UInt8)) (corrupt : String) :
    sv.decompressDatumWith decompress corrupt (sv.compressedDatum method rawsize payload)
      = (decompress payload payload.length rawsize >>= fun r =>
          if r.1 < 0 then .error (.ereport { code := .dataCorrupted, message := corrupt })
          else .ok (sv.setVarsize (r.1.toNat + 4) ++ r.2)) := by
  have hheader := sv.hasHeader_compressedDatum fits method rawsize []
  have hdrop := sv.drop_compressedDatum method rawsize payload []
  have hext := sv.vardataCompressedGetExtsize_compressedDatum hmethod
    (show rawsize < 2 ^ 30 by omega) payload []
  rw [List.append_nil] at hheader hdrop hext
  rw [List.append_nil] at hdrop
  have hreads : sv.varsize4B (sv.compressedDatum method rawsize payload)
      = .ok (payload.length + 8) := hheader.reads
  rw [decompressDatumWith, hext, Run.ok_bind,
    palloc_of_le (by omega) (by simp only [maxAllocSize]; omega), Run.ok_bind, hreads, Run.ok_bind,
    hdrop, show ((payload.length + 8 : ℕ) : ℤ) - (varhdrszCompressed : ℕ) = payload.length by
      simp only [varhdrszCompressed]
      omega]
  rfl

/-- `detoast_attr` on a compressed datum. -/
theorem detoastAttr_compressedDatum {method rawsize : ℕ} {payload : List UInt8}
    (hmethod : method < 4) (fits : payload.length + 8 < 2 ^ 30) (raw : rawsize + 4 < 2 ^ 30) :
    sv.detoastAttr (sv.compressedDatum method rawsize payload)
      = if method = toastPglzCompressionId then
          sv.pglzDecompressDatum (sv.compressedDatum method rawsize payload)
        else if method = toastLz4CompressionId then
          sv.lz4DecompressDatum (sv.compressedDatum method rawsize payload)
        else if method = toastRleCompressionId then
          sv.rleDecompressDatum (sv.compressedDatum method rawsize payload)
        else .error (.ereport {
          code := .internalError
          message := "invalid compression method id " ++ toString method }) := by
  have hheader := sv.hasHeader_compressedDatum fits method rawsize []
  have hcmid := sv.toastCompressMethod_compressedDatum hmethod (show rawsize < 2 ^ 30 by omega)
    payload []
  rw [List.append_nil] at hheader hcmid
  rw [detoastAttr, hheader.hasKnownTag_eq, Run.ok_bind, if_neg Bool.false_ne_true,
    hheader.varattIsCompressed_eq, Run.ok_bind, decide_eq_true rfl, if_pos rfl,
    toastDecompressDatum, hcmid]
  rfl

/-- A decompressor that restores the text. -/
theorem decompressDatumWith_eq_plainDatum {method : ℕ} {t payload : List UInt8}
    (hmethod : method < 4) (fits : payload.length + 8 < 2 ^ 30) (raw : t.length + 4 < 2 ^ 30)
    {decompress : Mem → ℤ → ℕ → Run (ℤ × List UInt8)}
    (hrun : decompress payload payload.length t.length = .ok (t.length, t)) (corrupt : String) :
    sv.decompressDatumWith decompress corrupt (sv.compressedDatum method t.length payload)
      = .ok (sv.plainDatum t) := by
  rw [decompressDatumWith_compressedDatum hmethod fits raw, hrun, Run.ok_bind]
  dsimp only
  rw [if_neg (by omega), Int.toNat_natCast]
  rfl

section

variable {value d : Mem} {form : Form} {t : List UInt8} (h : sv.HasText value form t)
  {cmethod : Char} (hlong : sv.effectiveMethod cmethod = 'l' → 2 ≤ t.length)
  (hstored : sv.toastCompressDatum value cmethod = .ok (some d))

include h hlong hstored

/-- **What was compressed without run length encoding is read again**, and with it if the
literals of the text fit. -/
theorem HasText.detoastAttr_of_toastCompressDatum (hpglz : sv.UsesPglz)
    (hlz4 : ∀ lz4 ∈ sv.lz4, lz4.Restores)
    (hrle : sv.effectiveMethod cmethod = 'r' → LiteralsFit t) :
    sv.detoastAttr d = .ok (sv.plainDatum t) := by
  have hraw := h.fits
  obtain ⟨payload, cmid, hcompress, hsaves, rfl⟩ := h.of_toastCompressDatum hlong hstored
  have hfits : payload.length + 8 < 2 ^ 30 := by omega
  rw [compressByMethod] at hcompress
  split at hcompress
  · obtain ⟨tmp, htmp, heq⟩ := Run.map_eq_ok.mp hcompress
    cases heq
    have hrun := hpglz.pglzDecompress_eq (by simp only [intMax]; omega) (h.of_compressDatumWith htmp)
    rw [detoastAttr_compressedDatum (by decide) hfits hraw, if_pos rfl]
    exact decompressDatumWith_eq_plainDatum (by decide) hfits hraw hrun _
  · split at hcompress
    · obtain ⟨tmp, htmp, heq⟩ := Run.map_eq_ok.mp hcompress
      cases heq
      obtain ⟨lz4, bound, hlib, hpos, rfl⟩ := h.of_lz4CompressDatum htmp
      have hrun := hlz4 lz4 hlib t bound hpos
      rw [detoastAttr_compressedDatum (by decide) hfits hraw, if_neg (by decide), if_pos rfl,
        lz4DecompressDatum, hlib]
      exact decompressDatumWith_eq_plainDatum (by decide) hfits hraw hrun _
    · split at hcompress
      · rename_i hmethod
        obtain ⟨tmp, htmp, heq⟩ := Run.map_eq_ok.mp hcompress
        cases heq
        obtain ⟨ts, hne, rfl, hexp⟩ :=
          exists_tokens_of_literalsFit (h.of_compressDatumWith htmp) (hrle hmethod)
        have hrun := rleDecompress_encode hne [] true
        rw [List.append_nil, hexp] at hrun
        rw [detoastAttr_compressedDatum (by decide) hfits hraw, if_neg (by decide),
          if_neg (by decide), if_pos rfl]
        exact decompressDatumWith_eq_plainDatum (by decide) hfits hraw hrun _
      · cases hcompress

/-- **A text whose literals do not fit is lost when it is run length encoded.** -/
theorem HasText.detoastAttr_of_not_literalsFit (hmethod : sv.effectiveMethod cmethod = 'r')
    (hfit : ¬ LiteralsFit t) :
    sv.detoastAttr d = .error (.ereport {
      code := .dataCorrupted
      message := "compressed rle data is corrupt" }) := by
  have hraw := h.fits
  obtain ⟨payload, cmid, hcompress, hsaves, rfl⟩ := h.of_toastCompressDatum hlong hstored
  have hfits : payload.length + 8 < 2 ^ 30 := by omega
  rw [hmethod, compressByMethod, if_neg (by decide), if_neg (by decide), if_pos rfl] at hcompress
  obtain ⟨tmp, htmp, heq⟩ := Run.map_eq_ok.mp hcompress
  cases heq
  obtain ⟨ts, -, rfl, hlt⟩ := exists_tokens_of_not_literalsFit (h.of_compressDatumWith htmp) hfit
  have hrun := rleDecompress_encode_of_lt [] (show ((expand ts).length : ℤ) < t.length by omega)
  rw [List.append_nil] at hrun
  rw [detoastAttr_compressedDatum (by decide) hfits hraw, if_neg (by decide), if_neg (by decide),
    if_pos rfl, rleDecompressDatum, decompressDatumWith_compressedDatum (by decide) hfits hraw, hrun]
  rfl

/-- **A text that was compressed can be read again, unless it was run length encoded and its
literals do not fit.** Whatever the method of the column, `detoast_attr` returns for the
datum that `toast_compress_datum` stored a plain datum with the text; for run length
encoding it does so exactly for the texts whose literals fit, and reports every other text
as corrupt. -/
theorem HasText.detoastAttr_toastCompressDatum_iff (hpglz : sv.UsesPglz)
    (hlz4 : ∀ lz4 ∈ sv.lz4, lz4.Restores) :
    (sv.detoastAttr d = .ok (sv.plainDatum t)
        ↔ (sv.effectiveMethod cmethod = 'r' → LiteralsFit t))
      ∧ (¬ (sv.effectiveMethod cmethod = 'r' → LiteralsFit t) →
        sv.detoastAttr d = .error (.ereport {
          code := .dataCorrupted
          message := "compressed rle data is corrupt" })) := by
  by_cases hrle : sv.effectiveMethod cmethod = 'r' → LiteralsFit t
  · have hread := h.detoastAttr_of_toastCompressDatum hlong hstored hpglz hlz4 hrle
    exact ⟨iff_of_true hread hrle, fun hnot => absurd hrle hnot⟩
  · obtain ⟨hmethod, hfit⟩ := Classical.not_imp.mp hrle
    have herror := h.detoastAttr_of_not_literalsFit hlong hstored hmethod hfit
    refine ⟨iff_of_false (fun hread => ?_) hrle, fun _ => herror⟩
    rw [herror] at hread
    cases hread

end

/-- A text whose literals do not fit: two equal bytes fall on the end of a full buffer. -/
def lossy : List UInt8 :=
  (List.replicate 63 [1, 2]).flatten ++ [3, 3] ++ List.replicate 200 4

/-- Forty equal bytes in a column that names no method and in one with run length encoding,
and a text that is lost in the latter. -/
theorem detoastAttr_toastCompressDatum_iff_methods :
    (∃ d, littleEndian.withPglz.toastCompressDatum
          (littleEndian.withPglz.plainDatum (List.replicate 40 0x61) ++ []) (Char.ofNat 0)
          = .ok (some d)
        ∧ littleEndian.withPglz.detoastAttr d
          = .ok (littleEndian.withPglz.plainDatum (List.replicate 40 0x61)))
      ∧ (∃ d, littleEndian.withPglz.toastCompressDatum
          (littleEndian.withPglz.plainDatum (List.replicate 40 0x61) ++ []) 'r' = .ok (some d)
        ∧ littleEndian.withPglz.detoastAttr d
          = .ok (littleEndian.withPglz.plainDatum (List.replicate 40 0x61)))
      ∧ ∃ d, littleEndian.withPglz.toastCompressDatum
          (littleEndian.withPglz.plainDatum lossy ++ []) 'r' = .ok (some d)
        ∧ littleEndian.withPglz.detoastAttr d = .error (.ereport {
          code := .dataCorrupted
          message := "compressed rle data is corrupt" }) := by
  have hlz4 : ∀ lz4 ∈ littleEndian.withPglz.lz4, lz4.Restores := fun lz4 hlib => by cases hlib
  have hpglz := usesPglz_withPglz littleEndian
  have hnone : littleEndian.withPglz.effectiveMethod (Char.ofNat 0) ≠ 'r' := by decide
  obtain ⟨d₁, hd₁⟩ : ∃ d, littleEndian.withPglz.toastCompressDatum
      (littleEndian.withPglz.plainDatum (List.replicate 40 0x61) ++ []) (Char.ofNat 0)
      = .ok (some d) := ⟨littleEndian.withPglz.compressedDatum toastPglzCompressionId 40
        [0x02, 0x61, 0x0f, 0x01, 0x15], by decide +kernel⟩
  obtain ⟨d₂, hd₂⟩ : ∃ d, littleEndian.withPglz.toastCompressDatum
      (littleEndian.withPglz.plainDatum (List.replicate 40 0x61) ++ []) 'r' = .ok (some d) :=
    ⟨littleEndian.withPglz.compressedDatum toastRleCompressionId 40 [0xa5, 0x61],
      by decide +kernel⟩
  obtain ⟨d₃, hd₃⟩ : ∃ d, littleEndian.withPglz.toastCompressDatum
      (littleEndian.withPglz.plainDatum lossy ++ []) 'r' = .ok (some d) :=
    ⟨littleEndian.withPglz.compressedDatum toastRleCompressionId 328
      (127 :: (List.replicate 63 [1, 2]).flatten ++ [3] ++ [0xff, 4, 0xc3, 4]), by decide +kernel⟩
  have h := hasText_plainDatum littleEndian.withPglz
    (show (List.replicate 40 (0x61 : UInt8)).length + 4 < 2 ^ 30 by decide) []
  have hfits : lossy.length + 4 < 2 ^ 30 := by decide +kernel
  have hlossy := hasText_plainDatum littleEndian.withPglz hfits []
  have hnot : ¬ LiteralsFit lossy := by decide +kernel
  have hrle : littleEndian.withPglz.effectiveMethod 'r' = 'r' := rfl
  have hlost := (hlossy.detoastAttr_toastCompressDatum_iff (by decide) hd₃ hpglz hlz4).2
    (Classical.not_imp.mpr ⟨hrle, hnot⟩)
  exact ⟨⟨d₁, hd₁, (h.detoastAttr_toastCompressDatum_iff (by decide) hd₁ hpglz hlz4).1.mpr
      fun hr => absurd hr hnone⟩,
    ⟨d₂, hd₂, (h.detoastAttr_toastCompressDatum_iff (by decide) hd₂ hpglz hlz4).1.mpr
      fun _ => by decide +kernel⟩,
    ⟨d₃, hd₃, hlost⟩⟩

end Server
