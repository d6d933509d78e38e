import Hoco.HocotextAccess
import Hoco.HocotextShort

/-!
# Values compressed with the default method

A column that names no method is compressed with `pglz`, and the method is
recorded in the datum. `hocotext_cmp` asks only whether its operand is
compressed, and hands it to a function that reads the payload as run length
tokens.

The comparison of a `pglz` datum with a plain text is right, without taking the
payload for tokens, only where it does not come to read the payload at all. What it takes
for tokens is seen from the marks in its trace.
-/

open Rle TextOrder

namespace Server

variable {sv : Server}

/-! ## What is stored -/

/-- The data of a text, as the compressors read it. -/
theorem HasText.datumData_eq {m : Mem} {form : Form} {t : List UInt8} (h : sv.HasText m form t) :
    sv.datumData m t.length = .ok t := by
  obtain ⟨b, hb, hoff⟩ := h.header.vardataAny_eq h.uncompressed
  obtain ⟨rest, hmap⟩ := h.mapped
  rw [datumData, hb, Run.ok_bind, hoff, Mem.copy_of_drop hmap]

/-- **A text stored with `pglz`** is a compressed datum of what the compressor
returned, marked with the method. -/
theorem HasText.toastCompressDatum_pglz {value d : Mem} {form : Form} {t : List UInt8}
    (h : sv.HasText value form t) {cmethod : Char} (hmethod : sv.effectiveMethod cmethod = 'p')
    (hstored : sv.toastCompressDatum value cmethod = .ok (some d)) :
    ∃ payload, sv.pglzCompress t = some payload ∧ 32 ≤ t.length
      ∧ payload.length + 8 < t.length
      ∧ d = sv.compressedDatum toastPglzCompressionId t.length payload := by
  have hlt := h.header.size_lt
  have hexhdr := h.header.varsizeAnyExhdr_eq h.uncompressed (Nat.le_add_right _ _)
  rw [Nat.add_sub_cancel_left] at hexhdr
  have hint : int32 t.length = t.length := int32_of_lt (by omega) (by omega)
  rw [toastCompressDatum, hexhdr, Run.ok_bind, hmethod, compressByMethod, if_pos rfl] at hstored
  obtain ⟨⟨tmp, cmid⟩, htmp, hstored⟩ := Run.bind_eq_ok.mp hstored
  obtain ⟨tmp', hpglz, heq⟩ := Run.map_eq_ok.mp htmp
  cases heq
  rw [pglzCompressDatum, compressDatumWith, hexhdr, Run.ok_bind, hint] at hpglz
  cases tmp with
  | none => cases hstored
  | some payload =>
    split at hpglz
    · cases hpglz
    · rename_i hsuited
      obtain ⟨-, -, hpglz⟩ := Run.bind_eq_ok.mp hpglz
      rw [h.datumData_eq] at hpglz
      simp only [varhdrszCompressed] at hstored
      split at hstored
      · refine ⟨payload, Except.ok.inj hpglz, by omega, by omega, ?_⟩
        exact (Option.some.inj (Except.ok.inj hstored)).symm
      · cases hstored

/-! ## Comparing it -/

section Compare

variable {left right : Mem} {u : List UInt8} {lefend : ℕ} (curLef curRigh : Block)

/-- **The comparison of a compressed datum with a plain text** looks at the form
of the datum only, and goes on to the loops of the mixed comparison. -/
theorem HasHeader.walk_hocotextCmp (hl : sv.HasHeader left .compressed lefend)
    (hr : sv.HasText right .plain u) (collid : Oid) :
    Walk.hocotextCmp sv curLef curRigh left right collid
      = (Traced.lift (checkCollation collid) >>= fun _ => Walk.mixedFrom sv left right lefend
          (4 + u.length) false lefend ⟨varhdrszCompressed, .fresh curLef, 4⟩) := by
  obtain ⟨c, hc, hoff⟩ := hr.header.vardataAny_eq hr.uncompressed
  have hreads : sv.varsize4B right = _ := hr.header.reads
  have hmixed : Walk.hocotextCmp sv curLef curRigh left right collid
      = Walk.hocotextMixedCmp sv curLef left right collid := by
    unfold Walk.hocotextCmp
    simp only [hr.datumPacked, hl.datumPacked_of_compressed, hl.varattIsCompressed_eq,
      hr.header.varattIsCompressed_eq, Traced.lift_ok_bind, decide_eq_false hr.uncompressed]
    rfl
  have hpure : (pure false : Run Bool) = .ok false := rfl
  rw [hmixed]
  unfold Walk.hocotextMixedCmp
  simp only [hl.varattIsCompressed_eq, Run.ok_bind, decide_true, ↓reduceIte, hpure,
    Traced.lift_ok_bind, Bool.false_eq_true, hl.varsizeAny_eq, hc, hoff, hreads]
  rfl

/-- **Against the empty text** nothing is read: that there is a payload is enough. -/
theorem walk_mixedFrom_nil (left right : Mem) (hpayload : varhdrszCompressed < lefend)
    (fuel : ℕ) :
    Walk.mixedFrom sv left right lefend 4 false fuel ⟨varhdrszCompressed, .fresh curLef, 4⟩
      = pure 1 := by
  have hloop : Walk.mixedLoop sv left right lefend 4 false fuel
      ⟨varhdrszCompressed, .fresh curLef, 4⟩
        = pure (.fall ⟨varhdrszCompressed, .fresh curLef, 4⟩) := by
    cases fuel with
    | zero => rfl
    | succ fuel => rw [Walk.mixedLoop, if_neg fun h => Nat.lt_irrefl 4 h.2]
  rw [Walk.mixedFrom, hloop]
  show Walk.mixedRest sv right lefend 4 false ⟨varhdrszCompressed, .fresh curLef, 4⟩ = _
  show (if varhdrszCompressed < lefend ∨ _ then pure _ else _ : Walk ℤ) = _
  rw [if_pos (Or.inl hpayload)]
  rfl

/-- **Against any other text** the first byte of the payload is read as a mark. -/
theorem mark_mem_walk_mixedFrom (left right : Mem) (hpayload : varhdrszCompressed < lefend)
    {righend : ℕ} (hright : 4 < righend) :
    Access.mark .left varhdrszCompressed ∈ (Walk.mixedFrom sv left right lefend righend false
      lefend ⟨varhdrszCompressed, .fresh curLef, 4⟩).trace := by
  obtain ⟨fuel, rfl⟩ : ∃ f, lefend = f + 1 := ⟨lefend - 1, by omega⟩
  rw [Walk.mixedFrom, Walk.mixedLoop, if_pos ⟨hpayload, hright⟩]
  refine Traced.mem_trace_bind (Traced.mem_trace_bind ?_)
  rw [Walk.refill, if_pos (show (Window.fresh curLef).count = 0 from rfl), Walk.readToken]
  refine Traced.mem_trace_bind ?_
  exact Traced.mem_trace_bind (List.mem_singleton_self _)

end Compare

/-- **The method is respected** in the comparison of a datum on the left: its bytes are taken
for marks of tokens only if run length encoding is the method that it records. -/
def ReadsByMethod (left right : Mem) (collid : Oid) : Prop :=
  ∀ curLef curRigh i,
    Access.mark .left i ∈ (Walk.hocotextCmp sv curLef curRigh left right collid).trace →
      sv.toastCompressMethod left = .ok toastRleCompressionId

end Server

/-- **When a `pglz` datum is compared right**: the comparison fails on the
collation, as it should, or the other text is empty.

The datum `d` is what `toast_compress_datum` stores for the text `t`, and of the
method it is only used that its decompressor gives back the text. The property
is that the comparison with `u` gives what the plain comparison of `t` with `u`
gives, and that no byte of the datum is taken for a mark, since its method is
another one. -/
theorem hocotextCmp_pglz_iff (sv : Server) {value d : Mem} {form : Server.Form}
    {t u : List UInt8} (cmethod : Char) (restd restt restu : Mem) (collid : Oid)
    (hvalue : sv.HasText value form t) (hmethod : sv.effectiveMethod cmethod = 'p')
    (hstored : sv.toastCompressDatum value cmethod = .ok (some d))
    (hpglz : ∀ payload, sv.pglzCompress t = some payload →
      Pglz.pglzDecompress payload payload.length t.length true = .ok (t.length, t))
    (hu : u.length + 4 < 2 ^ 30) :
    (sv.hocotextCmp (d ++ restd) (sv.plainDatum u ++ restu) collid
          = sv.hocotextCommonCmp (sv.plainDatum t ++ restt) (sv.plainDatum u ++ restu) collid
        ∧ sv.ReadsByMethod (d ++ restd) (sv.plainDatum u ++ restu) collid)
      ↔ collid = 0 ∨ u = [] := by
  obtain ⟨payload, hcompress, hlong, hshorter, rfl⟩ :=
    hvalue.toastCompressDatum_pglz hmethod hstored
  have hne : payload ≠ [] := Pglz.ne_nil_of_pglzDecompress (by omega) (hpglz payload hcompress)
  have hpayload : Server.varhdrszCompressed < payload.length + 8 :=
    Nat.lt_add_of_pos_left (List.length_pos_iff.mpr hne)
  have htfits := hvalue.fits
  have hfits : payload.length + 8 < 2 ^ 30 := by omega
  have hru := sv.hasText_plainDatum hu restu
  have hcommon := (sv.hasText_plainDatum htfits restt).hocotextCommonCmp_eq hru collid
  have hwalk := fun curLef curRigh => (sv.hasHeader_compressedDatum hfits toastPglzCompressionId
    t.length restd).walk_hocotextCmp curLef curRigh hru collid
  have hvalue := congrArg Traced.result (hwalk (fun _ => 0) (fun _ => 0))
  rw [Server.Walk.result_hocotextCmp] at hvalue
  rw [hcommon, hvalue, Server.ReadsByMethod]
  simp only [hwalk]
  by_cases hcol : collid = 0
  · -- Both comparisons stop at the collation.
    rw [hcol]
    exact iff_of_true ⟨rfl, fun _ _ _ hmem => absurd hmem List.not_mem_nil⟩ (Or.inl rfl)
  simp only [Server.checkCollation_eq hcol, Run.ok_bind, Traced.lift_ok_bind]
  cases u with
  | nil =>
    have hnil := fun curLef => @Server.walk_mixedFrom_nil sv _ curLef
      (sv.compressedDatum toastPglzCompressionId t.length payload ++ restd)
      (sv.plainDatum [] ++ restu) hpayload (payload.length + 8)
    simp only [List.length_nil, Nat.add_zero, hnil]
    refine iff_of_true ⟨?_, fun _ _ _ hmem => absurd hmem List.not_mem_nil⟩ (Or.inr trivial)
    rw [Server.order, textOrder_nil_right _ (List.ne_nil_of_length_pos (by omega))]
    rfl
  | cons c u =>
    refine iff_of_false (fun h => ?_) (by simp [hcol])
    have hrle := h.2 (fun _ => 0) (fun _ => 0) _
      (Server.mark_mem_walk_mixedFrom _ _ _ hpayload (by simp))
    rw [sv.toastCompressMethod_compressedDatum (by decide) (by omega)] at hrle
    cases hrle

/-- A server whose compressor stores runs of forty `a`. -/
def pglzServer : Server :=
  { Server.littleEndian with pglzCompress := fun _ => some [0x02, 0x61, 0x0f, 0x01, 0x15] }

/-- Forty `a`. -/
def forty : List UInt8 := List.replicate 40 0x61

/-- What `pglzServer` stores for `forty`. -/
def fortyDatum : Mem :=
  pglzServer.compressedDatum toastPglzCompressionId 40 [0x02, 0x61, 0x0f, 0x01, 0x15]

theorem toastCompressDatum_forty :
    pglzServer.toastCompressDatum (pglzServer.plainDatum forty) (Char.ofNat 0)
      = .ok (some fortyDatum) := by
  decide +kernel

theorem pglzDecompress_forty (payload : List UInt8)
    (h : pglzServer.pglzCompress forty = some payload) :
    Pglz.pglzDecompress payload payload.length forty.length true = .ok (forty.length, forty) := by
  cases h
  decide +kernel

/-- The datum of `forty` is not compared right with `forty`. -/
theorem hocotextCmp_pglz_forty :
    ¬ (pglzServer.hocotextCmp (fortyDatum ++ []) (pglzServer.plainDatum forty ++ []) 100
          = pglzServer.hocotextCommonCmp (pglzServer.plainDatum forty ++ [])
            (pglzServer.plainDatum forty ++ []) 100
        ∧ pglzServer.ReadsByMethod (fortyDatum ++ []) (pglzServer.plainDatum forty ++ []) 100) := by
  have hvalue := pglzServer.hasText_plainDatum (show forty.length + 4 < 2 ^ 30 by decide) []
  have hstored : pglzServer.toastCompressDatum (pglzServer.plainDatum forty ++ []) (Char.ofNat 0)
      = .ok (some fortyDatum) := by
    rw [List.append_nil, toastCompressDatum_forty]
  rw [hocotextCmp_pglz_iff pglzServer (Char.ofNat 0) [] [] [] 100 hvalue rfl hstored
    pglzDecompress_forty (by decide)]
  decide

/-- **The recorded method is not respected**: forty `a` stored with `pglz`
compare smaller than forty `a`. -/
theorem not_forall_hocotextCmp_pglz :
    ¬ ∀ (sv : Server) (t u : List UInt8) (d : Mem),
      t.length + 4 < 2 ^ 30 → u.length + 4 < 2 ^ 30 → sv.effectiveMethod (Char.ofNat 0) = 'p' →
      sv.toastCompressDatum (sv.plainDatum t) (Char.ofNat 0) = .ok (some d) →
      (∀ payload, sv.pglzCompress t = some payload →
        Pglz.pglzDecompress payload payload.length t.length true = .ok (t.length, t)) →
      sv.hocotextCmp d (sv.plainDatum u) 100
        = sv.hocotextCommonCmp (sv.plainDatum t) (sv.plainDatum u) 100 := by
  intro h
  have hbad := h pglzServer forty forty fortyDatum (by decide) (by decide) rfl
    toastCompressDatum_forty pglzDecompress_forty
  revert hbad
  decide +kernel
