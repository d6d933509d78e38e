import Hoco.HocotextLocate

/-!
# The outcomes of an extraction

What `hocotext_extract` and `text_extract` return, for a text in any of its forms and for a
run length encoded datum, and when the two agree (`RleDatum.hocotextExtract_textExtract_iff`).
-/

open Rle TextOrder

namespace Server

variable (sv : Server)

/-! ## The outcomes -/

/-- What extraction is for: no text behind the end, and otherwise the bytes
from the offset on, as many as there are. -/
def window (text : List UInt8) (offset len : ℕ) : Option (List UInt8) :=
  if text.length < offset then none else some ((text.drop offset).take len)

theorem int32_of_lt {x : ℤ} (h₀ : 0 ≤ x) (h : x < 2 ^ 31) : int32 x = x :=
  int32_eq_self (by omega) h

/-- **A result that is too long to allocate is an error** of both functions, and
so is a length far below zero. -/
theorem palloc_result_int {len : ℤ} (h₀ : -2 ^ 31 ≤ len) (h : len < 2 ^ 31) :
    (-14 ≤ len ∧ len + 14 ≤ maxAllocSize ∧ palloc (int32 (len + 14)) = .ok ())
      ∨ ¬ (-14 ≤ len ∧ len + 14 ≤ maxAllocSize)
        ∧ ∃ report, palloc (int32 (len + 14)) = .error (.ereport report) := by
  have hbmod : int32 (len + 14) = len + 14 ∨ int32 (len + 14) = len + 14 - 2 ^ 32 := by
    rw [int32, Int.bmod_def]
    split <;> omega
  by_cases hle : -14 ≤ len ∧ len + 14 ≤ maxAllocSize
  · refine Or.inl ⟨hle.1, hle.2, ?_⟩
    simp only [maxAllocSize] at hle
    rw [int32_of_lt (by omega) (by omega)]
    exact palloc_of_le (by omega) (by simp only [maxAllocSize]; omega)
  · refine Or.inr ⟨hle, palloc_of_gt ?_⟩
    simp only [maxAllocSize] at hle ⊢
    omega

/-- The same for a length that is not negative. -/
theorem palloc_result {len : ℕ} (hlen : len < 2 ^ 31) :
    (len + 14 ≤ maxAllocSize ∧ palloc (int32 (len + 14)) = .ok ())
      ∨ ¬ len + 14 ≤ maxAllocSize
        ∧ ∃ report, palloc (int32 (len + 14)) = .error (.ereport report) := by
  rcases @palloc_result_int len (by omega) (by omega) with ⟨-, hle, hok⟩ | ⟨hgt, herror⟩
  · exact Or.inl ⟨by omega, hok⟩
  · exact Or.inr ⟨by omega, herror⟩

section Outcomes

variable {sv} {collid : Oid} {len offset : ℕ}

/-- **`hocotext_common_extract` on a text in either form.** The end of the text
is taken from what `VARSIZE` reads. -/
theorem HasText.hocotextCommonExtract_eq {m : Mem} {form : Form} {t : List UInt8}
    (h : sv.HasText m form t) (fresh : Block) (hoffset : offset < 2 ^ 31) (len : ℕ)
    (collid : Oid) :
    sv.hocotextCommonExtract fresh m offset len collid
      = (palloc (int32 (len + 14)) >>= fun _ => sv.varsize4B m >>= fun srcend =>
          checkCollation collid >>= fun _ =>
        if t.length < offset then .ok none
        else if srcend < form.dataOffset + offset then .error .fault
        else (fun bytes => some (sv.resultDatum fresh len bytes))
          <$> m.copy (form.dataOffset + offset)
            (min (srcend - (form.dataOffset + offset)) len)) := by
  obtain ⟨b, hb, hoff⟩ := h.header.vardataAny_eq h.uncompressed
  have hexhdr := h.header.varsizeAnyExhdr_eq h.uncompressed (Nat.le_add_right _ _)
  rw [Nat.add_sub_cancel_left] at hexhdr
  have hmod : ((offset : ℤ) % 2 ^ 64).toNat = offset := by omega
  unfold hocotextCommonExtract commonBytes
  simp only [map_bind, hb, hexhdr, Run.ok_bind, hoff, hmod]
  refine congrArg (palloc (int32 (len + 14)) >>= ·) (funext fun _ => ?_)
  refine congrArg (sv.varsize4B m >>= ·) (funext fun srcend => ?_)
  refine congrArg (checkCollation collid >>= ·) (funext fun _ => ?_)
  split
  · rfl
  · by_cases hneg : srcend < form.dataOffset + offset
    · rw [if_pos hneg, if_pos (by split <;> omega)]
      rfl
    · have hres : (if (srcend : ℤ) - ((form.dataOffset : ℕ) + (offset : ℕ)) < len
          then (srcend : ℤ) - ((form.dataOffset : ℕ) + (offset : ℕ)) else (len : ℤ))
          = (min (srcend - (form.dataOffset + offset)) len : ℕ) := by
        split <;> omega
      rw [if_neg hneg, hres, if_neg (by omega), Int.toNat_natCast, Int.toNat_natCast,
        show ((form.dataOffset : ℤ) + (offset : ℤ)).toNat = form.dataOffset + offset by omega,
        map_bind]
      rfl

/-- **`hocotext_common_extract` on a text in a plain datum.** -/
theorem HasText.textOutcome_commonExtract {m : Mem} {t : List UInt8} (h : sv.HasText m .plain t)
    (fresh : Block) (hcol : collid ≠ 0) (hoffset : offset < 2 ^ 31) (hlen : len + 14 ≤ maxAllocSize)
    (halloc : palloc (int32 (len + 14)) = .ok ()) :
    sv.textOutcome (sv.hocotextCommonExtract fresh m offset len collid)
      = .ok ((window t offset len).map (sv.landed fresh)) := by
  obtain ⟨rest, hmap⟩ := h.mapped
  have hreads : sv.varsize4B m = _ := h.header.reads
  rw [h.hocotextCommonExtract_eq fresh hoffset, halloc, Run.ok_bind, hreads, Run.ok_bind,
    checkCollation_eq hcol, Run.ok_bind, window]
  by_cases hpast : t.length < offset
  · rw [if_pos hpast, if_pos hpast]
    rfl
  · rw [if_neg hpast, if_neg hpast, if_neg (by omega)]
    have hdrop : m.drop (Form.plain.dataOffset + offset)
        = (t.drop offset).take len ++ ((t.drop offset).drop len ++ rest) := by
      rw [← List.drop_drop, hmap, List.drop_append_of_le_length (by omega), ← List.append_assoc,
        List.take_append_drop]
    have hbytes : ((t.drop offset).take len).length
        = min (Form.plain.dataOffset + t.length - (Form.plain.dataOffset + offset)) len := by
      rw [List.length_take, List.length_drop]
      omega
    have hcopy := Mem.copy_of_drop hdrop
    simp only [maxAllocSize] at hlen
    have hread := (@hasText_resultDatum sv fresh len ((t.drop offset).take len) (by omega)
      (by omega)).readText_eq
    rw [hbytes] at hcopy
    rw [hcopy]
    show (do let x ← sv.readText (sv.resultDatum fresh len ((t.drop offset).take len)); _) = _
    rw [hread]
    rfl

/-- **The end of `hocotext_hoco_extract`**, from the state in which the offset is
reached: it returns a text exactly when the copying loop fills the window and
does not arrive at the end of the whole text. -/
theorem textOutcome_hocoExtract_eq_some_iff {source : Mem} {rawsize : ℕ} {s : ExtractState}
    (fresh : Block) (hcol : collid ≠ 0) (hext : sv.vardataCompressedGetExtsize source = .ok rawsize)
    (hlen : len + 14 ≤ maxAllocSize) (halloc : palloc (int32 (len + 14)) = .ok ())
    (hloc : locateLoop source offset (source.length + 1) ⟨varhdrszCompressed, 0, 0, true, []⟩
      = .ok s)
    (hcur : s.curOffset = offset) (hout : s.out = []) (w : List UInt8) :
    sv.textOutcome (sv.hocotextHocoExtract fresh source offset len collid) = .ok (some w)
      ↔ offset + len ≠ rawsize ∧ ∃ s', copyLoop source offset len rawsize (source.length + 1) s
          = .ok s' ∧ s'.out.length = len ∧ sv.landed fresh s'.out = w := by
  simp only [maxAllocSize] at hlen
  rw [hocotextHocoExtract_eq_map, hocoBytes_eq]
  unfold textOutcome
  simp only [map_bind, halloc, hext, checkCollation_eq hcol, Run.ok_bind, hloc,
    if_neg (show ¬ (len : ℤ) < 0 by omega)]
  constructor
  · intro h
    obtain ⟨r, hr, h⟩ := Run.bind_eq_ok.mp h
    obtain ⟨s', hcopy, hr⟩ := Run.bind_eq_ok.mp hr
    obtain ⟨more, hmore, hcur'⟩ := copyLoop_out hcopy
    rw [hout, List.nil_append] at hmore
    split at hr
    · cases hr
      cases h
    · rename_i hfull
      rw [not_or, not_not] at hfull
      cases hr
      have hfilled : s'.out.length = len := by omega
      obtain ⟨w', hread, hw⟩ := Run.bind_eq_ok.mp h
      rw [Int.toNat_natCast, (sv.hasText_resultDatum fresh (Nat.le_of_eq hfilled)
        (by omega)).readText_eq] at hread
      cases hread
      cases hw
      refine ⟨?_, s', hcopy, hfilled, rfl⟩
      rw [← hmore, hcur] at hcur'
      omega
  · rintro ⟨hne, s', hcopy, hfilled, rfl⟩
    obtain ⟨more, hmore, hcur'⟩ := copyLoop_out hcopy
    rw [hout, List.nil_append] at hmore
    rw [← hmore, hcur] at hcur'
    rw [hcopy, Run.ok_bind, if_neg (by omega)]
    show (do let x ← sv.readText (sv.resultDatum fresh (len : ℤ).toNat s'.out); _) = _
    rw [Int.toNat_natCast, (sv.hasText_resultDatum fresh (Nat.le_of_eq hfilled)
      (by omega)).readText_eq]
    rfl

end Outcomes

end Server

/-! ## Extraction from a payload -/

namespace RlePayload

variable (sv : Server) (x : RlePayload) (rest : Mem)

/-- The state in which the walk to the offset starts. -/
abbrev start : Server.ExtractState := ⟨Server.varhdrszCompressed, 0, 0, true, []⟩

theorem tokens_length_lt : x.tokens.length < (x.datum sv ++ rest).length + 1 := by
  have hlen := congrArg List.length (x.drop_datum sv rest)
  have htokens := length_le_encode_length x.tokens
  rw [List.length_drop, @List.length_append _ (encode x.tokens)] at hlen
  omega

/-- The walk to an offset in the text. -/
theorem exists_located {offset fuel : ℕ} (hpos : 0 < offset) (hle : offset ≤ x.text.length)
    (hfuel : x.tokens.length < fuel) :
    ∃ s pre t post k, Server.locateLoop (x.datum sv ++ rest) offset fuel start = .ok s
      ∧ x.tokens = pre ++ t :: post ∧ (expand pre).length + k = offset ∧ s.curOffset = offset
      ∧ s.out = [] ∧ Server.varhdrszCompressed < s.sp
      ∧ s.Inside (x.datum sv ++ rest) t k post rest :=
  Server.locateLoop_encode x.tokens rest fuel start hpos hle (Nat.zero_add offset)
    (x.drop_datum sv rest) hfuel

/-- The walk ends at any offset up to the end of the text. -/
theorem exists_locateLoop_eq {offset fuel : ℕ} (hle : offset ≤ x.text.length)
    (hfuel : x.tokens.length < fuel) :
    ∃ s, Server.locateLoop (x.datum sv ++ rest) offset fuel start = .ok s
      ∧ s.curOffset = offset ∧ s.out = [] := by
  rcases Nat.eq_zero_or_pos offset with hzero | hpos
  · obtain ⟨fuel, rfl⟩ : ∃ f, fuel = f + 1 := ⟨fuel - 1, by omega⟩
    exact ⟨start, Server.locateLoop_stop (by omega) _, hzero.symm, rfl⟩
  · obtain ⟨s, -, -, -, -, hloc, -, -, hcur, hout, -⟩ := x.exists_located sv rest hpos hle hfuel
    exact ⟨s, hloc, hcur, hout⟩

/-- What is left of the text where the walk has ended. -/
theorem drop_text {pre post : List Token} {t : Token} {k offset : ℕ}
    (htokens : x.tokens = pre ++ t :: post) (hoff : (expand pre).length + k = offset)
    (hk : k ≤ t.expand.length) : x.text.drop offset = t.expand.drop k ++ expand post := by
  rw [text, htokens, expand_append, expand_cons, ← hoff, ← List.drop_drop, List.drop_left,
    List.drop_append_of_le_length hk]

section Located

variable {x rest} {pre post : List Token} {t : Token} {k offset : ℕ}
  (htokens : x.tokens = pre ++ t :: post) (hoff : (expand pre).length + k = offset)

include htokens hoff

theorem text_length_of_located (hk : k ≤ t.expand.length) :
    x.text.length = offset + (t.expand.length - k + (expand post).length) := by
  rw [text, htokens, expand_append, expand_cons, List.length_append, List.length_append]
  omega

/-- **What is spelled from where the walk has ended**: the beginnings of what is left of
the text, where there is a byte to read behind them. -/
theorem spellsFrom_located_iff {source : Mem} {s : Server.ExtractState}
    (hinside : s.Inside source t k post rest) {w : List UInt8} (hw : w ≠ [])
    (hlt : offset + w.length < x.text.length) :
    Server.SpellsFrom s.repeated s.count (source.drop s.sp) w
      ↔ w <+: x.text.drop offset
        ∧ (rest ≠ [] ∨ Server.endsInLastRun x.tokens (offset + w.length) = false) := by
  have hk := hinside.within
  have htotal := text_length_of_located htokens hoff hk
  have hends := Server.endsInLastRun_append pre t post (k + w.length)
  rw [← htokens, ← Nat.add_assoc, hoff] at hends
  rw [hinside.repeated, hinside.count, hinside.mapped,
    Server.spellsFrom_token_iff t k post rest hw hk (by omega)
      (fun w' hlt' => Server.spells_encode_iff post rest hlt'),
    x.drop_text htokens hoff hk, hends]

end Located

section Outcome

variable {sv x rest} {offset len : ℕ} {collid : Oid} (fresh : Block) (hcol : collid ≠ 0)
  (halloc : palloc (int32 (len + 14)) = .ok ())

include hcol halloc

/-- **Behind the end of the text** the walk goes on over the bytes behind the
datum, and the function returns `NULL` if it gets through and has something to
copy. -/
theorem hocoOutcome_of_lt (hlt : x.text.length < offset) :
    sv.textOutcome (sv.hocotextHocoExtract fresh (x.datum sv ++ rest) offset len collid)
        = .ok none
      ↔ 0 < len ∧ Server.Hops rest (offset - x.text.length) := by
  have hhops := Server.hops_encode_append_iff x.tokens rest hlt
  rw [← x.drop_datum sv rest] at hhops
  rw [Server.hocotextHocoExtract_eq_map, Server.hocoBytes_eq]
  unfold Server.textOutcome
  simp only [halloc, x.extsize sv rest, Server.checkCollation_eq hcol, Run.ok_bind,
    if_neg (show ¬ (len : ℤ) < 0 by omega)]
  by_cases h : Server.Hops rest (offset - x.text.length)
  · obtain ⟨s, hloc, hcur, hout⟩ := Server.locateLoop_of_hops (hhops.mpr h) (by omega)
      ((x.datum sv ++ rest).length + 1) start rfl (Nat.zero_add offset) (by omega)
    rw [hloc, Run.ok_bind, Server.copyLoop_stop (by omega), Run.ok_bind, hout]
    by_cases hzero : 0 < len
    · rw [if_pos (Or.inl (by rw [List.length_nil]; omega))]
      exact iff_of_true rfl ⟨hzero, h⟩
    · rw [if_neg (by rw [List.length_nil]; omega)]
      refine iff_of_false (fun hnone => ?_) (fun hand => hzero hand.1)
      obtain ⟨t, ht, hnone⟩ := Run.bind_eq_ok.mp hnone
      cases ht
      obtain ⟨t, -, ht⟩ := Run.bind_eq_ok.mp hnone
      cases ht
  · have hfault := Server.locateLoop_of_not_hops ((x.datum sv ++ rest).length + 1) start
      (show 0 < offset by omega) (Nat.zero_add offset) (fun h' => h (hhops.mp h'))
    rw [hfault]
    exact iff_of_false (fun h' => by cases h') (fun hand => h hand.2)

variable (hlen : len + 14 ≤ maxAllocSize)

include hlen

/-- **A window of no bytes** is extracted as long as it is not at the end. -/
theorem hocoOutcome_of_len_zero (hle : offset ≤ x.text.length) (hzero : len = 0) :
    sv.textOutcome (sv.hocotextHocoExtract fresh (x.datum sv ++ rest) offset len collid)
        = .ok (some ((x.text.drop offset).take len))
      ↔ offset < x.text.length := by
  obtain ⟨s, hloc, hcur, hout⟩ := x.exists_locateLoop_eq sv rest hle (x.tokens_length_lt sv rest)
  rw [Server.textOutcome_hocoExtract_eq_some_iff fresh hcol (x.extsize sv rest) hlen halloc hloc
    hcur hout]
  constructor
  · rintro ⟨hne, -⟩
    omega
  · intro hlt
    have hhere : int32 ((s.curOffset : ℤ) - offset) = 0 := by
      rw [hcur, Int.sub_self]
      rfl
    refine ⟨by omega, s, Server.copyLoop_stop (by omega), by rw [hout, hzero]; rfl, ?_⟩
    rw [hout, hzero]
    rfl

/-- **A window behind the start of the text** is extracted when it ends before
the end of the text, up to the byte that the loop reads ahead. -/
theorem hocoOutcome_of_pos (hle : offset ≤ x.text.length) (hpos : 0 < offset) (hwin : 0 < len) :
    sv.textOutcome (sv.hocotextHocoExtract fresh (x.datum sv ++ rest) offset len collid)
        = .ok (some ((x.text.drop offset).take len))
      ↔ offset + len < x.text.length
        ∧ (rest ≠ [] ∨ Server.endsInLastRun x.tokens (offset + len) = false)
        ∧ sv.Lands fresh ((x.text.drop offset).take len) ((x.text.drop offset).take len) := by
  obtain ⟨s, pre, t, post, k, hloc, htokens, hoff, hcur, hout, hsp, hinside⟩ :=
    x.exists_located sv rest hpos hle (x.tokens_length_lt sv rest)
  have htotal : (x.text.drop offset).length = x.text.length - offset := List.length_drop
  -- what the loop copies is a beginning of what is left of the text
  have hspells : offset + len < x.text.length → ∀ out : List UInt8, out.length = len →
      ((∃ s', Server.copyLoop (x.datum sv ++ rest) offset len x.text.length
            ((x.datum sv ++ rest).length + 1) s = .ok s' ∧ s'.out = out)
        ↔ out = (x.text.drop offset).take len
          ∧ (rest ≠ [] ∨ Server.endsInLastRun x.tokens (offset + len) = false)) := by
    intro hlt out hlenout
    have hne : out ≠ [] := List.length_pos_iff.mp (by omega)
    have hraw : x.text.length < 2 ^ 30 := x.raw
    have hiff := @Server.copyLoop_iff (x.datum sv ++ rest) x.text.length offset len (by omega)
      (by omega) (by omega) ((x.datum sv ++ rest).length + 1) s out hne
      (Nat.lt_trans (by decide) hsp) hinside.count_le (by omega)
      (show s.curOffset + out.length = offset + len by omega)
      (show s.curOffset + out.length < x.text.length by omega) (by omega)
    rw [Server.copies_iff_of_out_nil hout,
      spellsFrom_located_iff htokens hoff hinside hne (by omega), hlenout,
      List.prefix_iff_eq_take, hlenout] at hiff
    exact hiff
  rw [Server.textOutcome_hocoExtract_eq_some_iff fresh hcol (x.extsize sv rest) hlen halloc hloc
    hcur hout]
  constructor
  · rintro ⟨hne, s', hcopy, hfilled, hland⟩
    have hlenw := congrArg List.length hland
    rw [Server.landed_length, List.length_take, htotal] at hlenw
    have hlt : offset + len < x.text.length := by omega
    obtain ⟨hw, hcond⟩ := (hspells hlt s'.out hfilled).mp ⟨s', hcopy, rfl⟩
    rw [hw] at hland
    exact ⟨hlt, hcond, (sv.landed_eq_iff fresh _ _).mp hland⟩
  · rintro ⟨hlt, hcond, hlands⟩
    have hlenw : ((x.text.drop offset).take len).length = len := by
      rw [List.length_take, htotal]
      omega
    obtain ⟨s', hcopy, hs'⟩ := (hspells hlt _ hlenw).mpr ⟨rfl, hcond⟩
    refine ⟨by omega, s', hcopy, by rw [hs', hlenw], ?_⟩
    rw [hs']
    exact (sv.landed_eq_iff fresh _ _).mpr hlands

/-- **At the start of the text** the first byte of the payload is skipped, and
what follows is read as tokens. -/
theorem hocoOutcome_of_offset_zero (hzero : offset = 0) (hwin : 0 < len) :
    sv.textOutcome (sv.hocotextHocoExtract fresh (x.datum sv ++ rest) offset len collid)
        = .ok (some ((x.text.drop offset).take len))
      ↔ len < x.text.length
        ∧ ∃ out, Server.Spells ((encode x.tokens ++ rest).drop 1) out
            ∧ sv.Lands fresh out ((x.text.drop offset).take len) := by
  subst hzero
  have hspells : len < x.text.length → ∀ out : List UInt8, out.length = len →
      ((∃ s', Server.copyLoop (x.datum sv ++ rest) (0 : ℕ) len x.text.length
            ((x.datum sv ++ rest).length + 1) start = .ok s' ∧ s'.out = out)
        ↔ Server.Spells ((encode x.tokens ++ rest).drop 1) out) := by
    intro hlt out hlenout
    have hne : out ≠ [] := List.length_pos_iff.mp (by omega)
    have hraw : x.text.length < 2 ^ 30 := x.raw
    have hiff := @Server.copyLoop_iff (x.datum sv ++ rest) x.text.length 0 len (by omega)
      (by omega) (by omega) ((x.datum sv ++ rest).length + 1) start out hne (by decide) (by decide)
      (by decide) (show 0 + out.length = 0 + len by omega)
      (show 0 + out.length < x.text.length by omega) (by omega)
    rw [Server.copies_iff_of_out_nil rfl, Server.spellsFrom_zero_iff, x.drop_datum sv rest] at hiff
    exact hiff
  rw [Server.textOutcome_hocoExtract_eq_some_iff fresh hcol (x.extsize sv rest) hlen halloc
    (Server.locateLoop_stop (Nat.zero_le _) _) rfl rfl, List.drop_zero, Nat.zero_add]
  constructor
  · rintro ⟨hne, s', hcopy, hfilled, hland⟩
    have hlenw := congrArg List.length hland
    rw [Server.landed_length, List.length_take] at hlenw
    have hlt : len < x.text.length := by omega
    exact ⟨hlt, s'.out, (hspells hlt _ hfilled).mp ⟨s', hcopy, rfl⟩,
      (sv.landed_eq_iff fresh _ _).mp hland⟩
  · rintro ⟨hlt, out, hsp, hlands⟩
    have hlenout : out.length = len := by
      rw [hlands.1, List.length_take]
      omega
    obtain ⟨s', hcopy, hs'⟩ := (hspells hlt out hlenout).mpr hsp
    refine ⟨by omega, s', hcopy, by rw [hs', hlenout], ?_⟩
    rw [hs']
    exact (sv.landed_eq_iff fresh _ _).mpr hlands

end Outcome

end RlePayload

/-! ## Run length encoded datums -/

/-- **A run length encoded datum**: a payload of non-empty tokens and the size
of the text they stand for, both within the bounds of the header. -/
structure RleDatum where
  tokens : List Token
  nonempty : AllNonempty tokens
  fits : (encode tokens).length + 8 < 2 ^ 30
  raw : (expand tokens).length < 2 ^ 30

namespace RleDatum

variable (sv : Server) (x : RleDatum) (rest : Mem)

/-- The payload of a datum. -/
def toPayload : RlePayload := ⟨x.tokens, x.fits, x.raw⟩

/-- The text of a datum. -/
def text : List UInt8 := expand x.tokens

/-- The bytes of a datum. -/
def datum : Mem := sv.compressedDatum toastRleCompressionId x.text.length (encode x.tokens)

theorem hocotextExtract_eq (fresh : Block) (offset len : ℤ) (collid : Oid) :
    sv.hocotextExtract fresh (x.datum sv ++ rest) offset len collid
      = sv.hocotextHocoExtract fresh (x.datum sv ++ rest) offset len collid := by
  have h : sv.HasHeader (x.datum sv ++ rest) _ _ := x.toPayload.hasHeader sv rest
  rw [Server.hocotextExtract, h.datumPacked_of_compressed, Run.ok_bind, h.varattIsCompressed_eq]
  rfl

/-! ## When the two extractions agree -/

/-- **When extraction from the payload gives the text it should.** The sizes can
be allocated, and one of four things holds:

* the offset is behind the end, there is something to copy, and the bytes behind
  the datum have marks to go by up to the offset;
* there is nothing to copy, and the offset is before the end;
* the window is neither at the start nor does it reach the end, and there is a
  byte to read behind it;
* the window is at the start and does not reach the end, and the payload read
  from its second byte on happens to give the right bytes.

Where bytes are copied, the fresh blocks of the two results put them where they
are read. -/
def ExtractAgrees (rest : Mem) (fresh fresh' : Block) (offset len : ℕ) (collid : Oid) : Prop :=
  collid ≠ 0 ∧ x.text.length + 4 ≤ maxAllocSize ∧ len + 14 ≤ maxAllocSize
    ∧ (x.text.length < offset ∧ 0 < len ∧ Server.Hops rest (offset - x.text.length)
      ∨ offset < x.text.length ∧ len = 0
      ∨ 0 < offset ∧ 0 < len ∧ offset + len < x.text.length
        ∧ (rest ≠ [] ∨ Server.endsInLastRun x.tokens (offset + len) = false)
        ∧ sv.Lands fresh ((x.text.drop offset).take len) ((x.text.drop offset).take len)
        ∧ sv.Lands fresh' ((x.text.drop offset).take len) ((x.text.drop offset).take len)
      ∨ offset = 0 ∧ 0 < len ∧ len < x.text.length
        ∧ (∃ out, Server.Spells ((encode x.tokens ++ rest).drop 1) out
            ∧ sv.Lands fresh out (x.text.take len))
        ∧ sv.Lands fresh' (x.text.take len) (x.text.take len))

/-- `text_extract` on a run length encoded datum. -/
theorem textExtract_eq (fresh : Block) (offset len : ℤ) (collid : Oid) :
    sv.textExtract fresh (x.datum sv ++ rest) offset len collid
      = (palloc (x.text.length + 4) >>= fun _ =>
        sv.hocotextCommonExtract fresh (sv.plainDatum x.text) offset len collid) := by
  rw [Server.textExtract, datum, text, sv.pgDetoastDatumPacked_rle x.nonempty x.fits x.raw]
  cases palloc ((expand x.tokens).length + 4) <;> rfl

section Agree

variable {sv x rest} {offset len : ℕ} {collid : Oid} {fresh fresh' : Block}

/-- The part of `ExtractAgrees` that is left once the checks of the arguments
are passed. -/
theorem agree_iff_of_checks (hcol : collid ≠ 0) (hraw : x.text.length + 4 ≤ maxAllocSize)
    (hlen : len + 14 ≤ maxAllocSize) (halloc : palloc (int32 (len + 14)) = .ok ())
    (hoffset : offset < 2 ^ 31) :
    (sv.textOutcome (sv.hocotextHocoExtract fresh (x.datum sv ++ rest) offset len collid)
          = .ok (Server.window x.text offset len)
        ∧ sv.textOutcome (sv.hocotextCommonExtract fresh' (sv.plainDatum x.text) offset len collid)
          = .ok (Server.window x.text offset len))
      ↔ x.ExtractAgrees sv rest fresh fresh' offset len collid := by
  have hcommon := (sv.hasText_plainDatum (show x.text.length + 4 < 2 ^ 30 by
    simp only [maxAllocSize] at hraw
    omega) []).textOutcome_commonExtract fresh' hcol hoffset hlen halloc
  rw [List.append_nil] at hcommon
  rw [hcommon]
  unfold ExtractAgrees Server.window
  by_cases hpast : x.text.length < offset
  · have hnone : sv.textOutcome (sv.hocotextHocoExtract fresh (x.datum sv ++ rest) offset len collid)
        = .ok none ↔ 0 < len ∧ Server.Hops rest (offset - x.text.length) :=
      @RlePayload.hocoOutcome_of_lt sv x.toPayload rest offset len collid fresh hcol halloc hpast
    rw [if_pos hpast, hnone]
    constructor
    · rintro ⟨⟨hpos, hhops⟩, -⟩
      exact ⟨hcol, hraw, hlen, Or.inl ⟨hpast, hpos, hhops⟩⟩
    · rintro ⟨-, -, -, ⟨-, hpos, hhops⟩ | h | h | h⟩
      · exact ⟨⟨hpos, hhops⟩, rfl⟩
      all_goals omega
  · rw [if_neg hpast, Option.map_some, Except.ok.injEq, Option.some.injEq, sv.landed_eq_iff]
    rw [Nat.not_lt] at hpast
    rcases Nat.eq_zero_or_pos len with hzero | hpos
    · have hlands : sv.Lands fresh' ((x.text.drop offset).take len)
          ((x.text.drop offset).take len) := by
        rw [hzero, List.take_zero, ← sv.landed_eq_iff]
        rfl
      have hempty : sv.textOutcome
            (sv.hocotextHocoExtract fresh (x.datum sv ++ rest) offset len collid)
          = .ok (some ((x.text.drop offset).take len)) ↔ offset < x.text.length :=
        @RlePayload.hocoOutcome_of_len_zero sv x.toPayload rest offset len collid fresh hcol halloc
          hlen hpast hzero
      rw [hempty]
      constructor
      · rintro ⟨hlt, -⟩
        exact ⟨hcol, hraw, hlen, Or.inr (Or.inl ⟨hlt, hzero⟩)⟩
      · rintro ⟨-, -, -, h | h | h | h⟩
        · omega
        · exact ⟨h.1, hlands⟩
        all_goals omega
    · rcases Nat.eq_zero_or_pos offset with hstart | hbehind
      · have hfirst : sv.textOutcome
              (sv.hocotextHocoExtract fresh (x.datum sv ++ rest) offset len collid)
            = .ok (some ((x.text.drop offset).take len))
              ↔ len < x.text.length ∧ ∃ out, Server.Spells ((encode x.tokens ++ rest).drop 1) out
                ∧ sv.Lands fresh out ((x.text.drop offset).take len) :=
          @RlePayload.hocoOutcome_of_offset_zero sv x.toPayload rest offset len collid fresh hcol
            halloc hlen hstart hpos
        rw [hfirst, hstart, List.drop_zero]
        constructor
        · rintro ⟨⟨hlt, hspells⟩, hlands⟩
          exact ⟨hcol, hraw, hlen, Or.inr (Or.inr (Or.inr ⟨rfl, hpos, hlt, hspells, hlands⟩))⟩
        · rintro ⟨-, -, -, h | h | h | ⟨-, -, hlt, hspells, hlands⟩⟩
          · omega
          · omega
          · omega
          · exact ⟨⟨hlt, hspells⟩, hlands⟩
      · have hinner : sv.textOutcome
              (sv.hocotextHocoExtract fresh (x.datum sv ++ rest) offset len collid)
            = .ok (some ((x.text.drop offset).take len))
              ↔ offset + len < x.text.length
                ∧ (rest ≠ [] ∨ Server.endsInLastRun x.tokens (offset + len) = false)
                ∧ sv.Lands fresh ((x.text.drop offset).take len) ((x.text.drop offset).take len) :=
          @RlePayload.hocoOutcome_of_pos sv x.toPayload rest offset len collid fresh hcol halloc
            hlen hpast hbehind hpos
        rw [hinner]
        constructor
        · rintro ⟨⟨hlt, hahead, hlands⟩, hlands'⟩
          exact ⟨hcol, hraw, hlen,
            Or.inr (Or.inr (Or.inl ⟨hbehind, hpos, hlt, hahead, hlands, hlands'⟩))⟩
        · rintro ⟨-, -, -, h | h | ⟨-, -, hlt, hahead, hlands, hlands'⟩ | h⟩
          · omega
          · omega
          · exact ⟨⟨hlt, hahead, hlands⟩, hlands'⟩
          · omega

end Agree

/-- **Extraction from the payload agrees with extraction from the decompressed
text, and both give the window, exactly under `ExtractAgrees`**, for every
datum, every contents of the memory behind it and of the two fresh blocks, and
all non-negative arguments. -/
theorem hocotextExtract_textExtract_iff (fresh fresh' : Block) (offset len : Fin (2 ^ 31))
    (collid : Oid) :
    (sv.textOutcome (sv.hocotextExtract fresh (x.datum sv ++ rest) offset.val len.val collid)
          = .ok (Server.window x.text offset len)
        ∧ sv.textOutcome (sv.textExtract fresh' (x.datum sv ++ rest) offset.val len.val collid)
          = .ok (Server.window x.text offset len))
      ↔ x.ExtractAgrees sv rest fresh fresh' offset len collid := by
  rw [x.hocotextExtract_eq, x.textExtract_eq]
  by_cases hraw : x.text.length + 4 ≤ maxAllocSize
  · have hok : palloc (x.text.length + 4) = .ok () := palloc_of_le (by omega) (by omega)
    rw [hok, Run.ok_bind]
    rcases Server.palloc_result len.isLt with ⟨hlen, halloc⟩ | ⟨hlen, report, halloc⟩
    · by_cases hcol : collid = 0
      · refine iff_of_false (fun h => ?_) (fun h => h.1 hcol)
        have hhoco := h.1
        rw [Server.hocotextHocoExtract_eq_map, Server.hocoBytes_eq, halloc,
          show sv.vardataCompressedGetExtsize (x.datum sv ++ rest) = .ok x.text.length from
            x.toPayload.extsize sv rest, checkCollation,
          if_neg (not_not.mpr hcol)] at hhoco
        cases hhoco
      · exact agree_iff_of_checks hcol hraw hlen halloc offset.isLt
    · refine iff_of_false (fun h => ?_) (fun h => hlen h.2.2.1)
      have hhoco := h.1
      rw [Server.hocotextHocoExtract_eq_map, Server.hocoBytes_eq, halloc] at hhoco
      cases hhoco
  · obtain ⟨report, herror⟩ : ∃ report, palloc (x.text.length + 4) = .error (.ereport report) := by
      have hlt : x.text.length < 2 ^ 30 := x.raw
      refine palloc_of_gt ?_
      simp only [maxAllocSize] at hraw ⊢
      omega
    rw [herror]
    exact iff_of_false (fun h => by cases h.2) (fun h => hraw h.2.1)

/-- A datum of one literal, `abcdef`. -/
def abcdef : RleDatum where
  tokens := [.lit [97, 98, 99, 100, 101, 102] (by decide)]
  nonempty := by decide
  fits := by decide
  raw := by decide

/-- **The two extractions do not always agree**: on the first two bytes of
`abcdef`, with cleared blocks for the results, the scan of the payload takes the
letter `a` for a mark. -/
theorem not_forall_hocotextExtract_textExtract :
    ¬ ∀ (sv : Server) (x : RleDatum) (rest : Mem) (fresh fresh' : Block)
        (offset len : Fin (2 ^ 31)) (collid : Oid), collid ≠ 0 →
      sv.textOutcome (sv.hocotextExtract fresh (x.datum sv ++ rest) offset.val len.val collid)
          = .ok (Server.window x.text offset len)
        ∧ sv.textOutcome (sv.textExtract fresh' (x.datum sv ++ rest) offset.val len.val collid)
          = .ok (Server.window x.text offset len) := by
  intro h
  have hbad := (h .littleEndian abcdef [] (fun _ => 0) (fun _ => 0) 0 2 100 (by decide)).1
  have hrun : Server.littleEndian.textOutcome (Server.littleEndian.hocotextExtract (fun _ => 0)
      (abcdef.datum .littleEndian ++ []) 0 2 100) = .ok (some [98, 99]) := by decide +kernel
  rw [show ((0 : Fin (2 ^ 31)).val : ℤ) = 0 from rfl, show ((2 : Fin (2 ^ 31)).val : ℤ) = 2 from rfl,
    hrun] at hbad
  exact absurd hbad (by decide)

end RleDatum
