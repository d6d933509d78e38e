import Hoco.HocotextOutcome

/-!
# Texts with a short header

A text of at most 126 bytes can be stored with a header of one byte, and
`hocotext_datum_packed` passes such a datum on as it is. The functions behind it
find the start of the data with `VARDATA_ANY`, which knows both forms. For the
end, `hocotext_common_cmp` uses `VARSIZE_ANY`, which knows both forms too, but
`hocotext_mixed_cmp` and `hocotext_common_extract` use `VARSIZE`. On a short
datum `VARSIZE` takes the header and the first three bytes of the data for a
four-byte header (`misreadSize`).

That a function touches only bytes of the datum is stated by running it where
nothing else is mapped: the results are compared for every `rest` behind the
short datum, also the empty one.
-/

open Rle TextOrder

/-- A text short enough for a header of one byte. -/
structure ShortText where
  bytes : List UInt8
  fits : bytes.length ≤ 126

namespace Server

variable (sv : Server)

/-- **What `VARSIZE` reads on a short datum** of at least three bytes of data. -/
def misreadSize (t : List UInt8) : ℕ :=
  let w := sv.word (sv.setVarsizeShort (t.length + 1)) (t.getD 0 0) (t.getD 1 0) (t.getD 2 0)
  if sv.bigEndian then w % 2 ^ 30 else w / 4 % 2 ^ 30

theorem varsize4B_shortDatum {t : List UInt8} (h : 3 ≤ t.length) (rest : Mem) :
    sv.varsize4B (sv.shortDatum t ++ rest) = .ok (sv.misreadSize t) := by
  match t, h with
  | a :: b :: c :: t, _ => rfl

/-- A datum with less data is too short for `VARSIZE`. -/
theorem varsize4B_shortDatum_of_lt {t : List UInt8} (h : t.length < 3) :
    sv.varsize4B (sv.shortDatum t ++ []) = .error .fault := by
  match t, h with
  | [], _ => rfl
  | [a], _ => rfl
  | [a, b], _ => rfl

/-! ## Scanning to the wrong end -/

/-- A common beginning can be left out of a scan. -/
theorem scan_append (p e : List UInt8) (avail : Mem) (n : ℕ) :
    sv.scan (p ++ e) (p ++ avail) (p.length + n) = sv.scan e avail n := by
  induction p with
  | nil => rw [List.nil_append, List.nil_append, List.length_nil, Nat.zero_add]
  | cons x p ih =>
    rw [List.cons_append, List.cons_append, List.length_cons, Nat.add_right_comm, scan, if_pos rfl,
      ih]

/-- Where the texts differ, or the scanned one ends first, the scan does not
come to the wrong end. -/
theorem scan_of_not_begins {e t : List UInt8} (h : ¬ t <+: e) (rest : Mem) {n : ℕ}
    (hn : t.length ≤ n) : sv.scan e (t ++ rest) n = .ok (sign (sv.order e t)) := by
  induction t generalizing e n with
  | nil => exact absurd List.nil_prefix h
  | cons y t ih =>
    obtain ⟨n, rfl⟩ : ∃ k, n = k + 1 := ⟨n - 1, by simp at hn; omega⟩
    cases e with
    | nil => rfl
    | cons x e =>
      rw [List.cons_append, scan]
      by_cases hxy : x = y
      · subst hxy
        rw [if_pos rfl, order, textOrder_cons_self]
        exact ih (fun hpre => h (List.cons_prefix_cons.mpr ⟨rfl, hpre⟩)) (by simpa using hn)
      · rw [if_neg hxy, sv.charCmp_eq_sign hxy e t]

/-- **When a scan that stops at the wrong end `m` gives the right answer**, also
with nothing mapped behind the text. -/
theorem forall_scan_eq_iff (e t : List UInt8) (m : ℕ) :
    (∀ rest, sv.scan e (t ++ rest) m = .ok (sign (sv.order e t)))
      ↔ m = t.length ∨ t.length < m ∧ ¬ t <+: e
        ∨ m < t.length ∧ (¬ t.take m <+: e ∨ sv.order e t = .gt) := by
  have hinj : Function.Injective sv.charVal := fun _ _ h => sv.charVal_injective h
  rcases Nat.lt_trichotomy m t.length with hlt | heq | hgt
  · have hdrop : t.drop m ≠ [] := by
      rw [ne_eq, List.drop_eq_nil_iff]
      omega
    have hcut := textOrder_append_eq_iff hinj e (t.take m) hdrop
    rw [List.take_append_drop] at hcut
    have hscan : ∀ rest, sv.scan e (t ++ rest) m = .ok (sign (sv.order e (t.take m))) := by
      intro rest
      rw [sv.scan_eq_order e (t ++ rest) m (by rw [List.length_append]; omega),
        List.take_append_of_le_length (by omega)]
    constructor
    · intro h
      have hsign := Except.ok.inj ((hscan []).symm.trans (h []))
      exact Or.inr (Or.inr ⟨hlt, hcut.mp (sign_injective hsign)⟩)
    · rintro (h | h | ⟨-, h⟩) rest
      · omega
      · omega
      · rw [hscan rest, order, hcut.mpr h]
  · refine iff_of_true (fun rest => ?_) (Or.inl heq)
    rw [sv.scan_eq_order e (t ++ rest) m (by rw [List.length_append]; omega), heq, List.take_left]
  · constructor
    · intro h
      refine Or.inr (Or.inl ⟨hgt, ?_⟩)
      rintro ⟨e', rfl⟩
      -- the scan is past the text: it is one short, or reads what is not mapped
      obtain ⟨k, rfl⟩ := Nat.exists_eq_add_of_lt hgt
      have hbad := h []
      rw [Nat.add_assoc, scan_append] at hbad
      cases e' with
      | nil =>
        rw [List.append_nil, order, show textOrder sv.charVal t t = .eq by
          have h := textOrder_append_left sv.charVal t [] []
          rwa [List.append_nil, textOrder_nil_nil] at h] at hbad
        cases hbad
      | cons x e' => cases hbad
    · rintro (h | ⟨-, h⟩ | h) rest
      · omega
      · exact sv.scan_of_not_begins h rest (by omega)
      · omega

end Server

namespace ShortText

variable (sv : Server) (t : ShortText)

/-! ## Comparison -/

/-- The end that `VARSIZE` gives does not change the comparison with `e`: it is
the right end, or it is too far and the text does not begin `e`, or it is too
near and what is left of the text does not begin `e` or `e` is the greater
anyway. -/
def EndHarmless (e : List UInt8) : Prop :=
  sv.misreadSize t.bytes - 1 = t.bytes.length
    ∨ t.bytes.length < sv.misreadSize t.bytes - 1 ∧ ¬ t.bytes <+: e
    ∨ sv.misreadSize t.bytes - 1 < t.bytes.length
      ∧ (¬ t.bytes.take (sv.misreadSize t.bytes - 1) <+: e ∨ sv.order e t.bytes = .gt)

/-- **When comparison does not depend on the form of the text**: the other
operand is plain, or the text has the three bytes that `VARSIZE` reads and the
end it gives is harmless. -/
def CmpAgrees (collid : Oid) : HocoValue → Prop
  | .plain _ _ => True
  | .rle us _ _ _ =>
    3 ≤ t.bytes.length ∧ (collid = 0 ∨ t.EndHarmless sv (expand us))

theorem plain_fits : t.bytes.length + 4 < 2 ^ 30 := by
  have := t.fits
  omega

variable {sv t}

/-- The result of `hocotext_cmp` is that of the function it calls. -/
theorem hocotextCmp_of_dispatch {left right : Mem} {collid : Oid} {r : Run ℤ}
    (h : sv.dispatchCmp left right collid = (fun v => (v, left, right)) <$> r) :
    sv.hocotextCmp left right collid = r := by
  rw [Server.hocotextCmp, h]
  cases r <;> rfl

/-- A comparison that stops with an error of the collation does so for both
forms; otherwise the scan has to give the answer. -/
theorem checkCollation_bind_eq_iff {collid : Oid} (r : Run ℤ) (v : ℤ) :
    (checkCollation collid >>= fun _ => r) = (checkCollation collid >>= fun _ => .ok v)
      ↔ collid = 0 ∨ r = .ok v := by
  by_cases h : collid = 0
  · rw [checkCollation, if_neg (not_not.mpr h)]
    exact iff_of_true rfl (Or.inl h)
  · rw [Server.checkCollation_eq h, or_iff_right h]
    rfl

theorem neg_map_eq_iff (r : Run ℤ) (v : ℤ) :
    (fun x => -x) <$> r = .ok (-v) ↔ r = .ok v := by
  rw [Run.map_eq_ok]
  constructor
  · rintro ⟨x, rfl, hx⟩
    rw [Int.neg_inj.mp hx]
  · rintro rfl
    exact ⟨v, rfl, rfl⟩

variable (sv t)

/-- **Comparison with a compressed operand**, whichever side it is on. -/
theorem forall_cmp_rle_iff {us : List Token} {m : Mem} (hm : sv.HasPayload m us) (restp : Mem)
    (collid : Oid) :
    (∀ rest, sv.hocotextCmp (sv.shortDatum t.bytes ++ rest) m collid
          = sv.hocotextCmp (sv.plainDatum t.bytes ++ restp) m collid
        ∧ sv.hocotextCmp m (sv.shortDatum t.bytes ++ rest) collid
          = sv.hocotextCmp m (sv.plainDatum t.bytes ++ restp) collid)
      ↔ 3 ≤ t.bytes.length ∧ (collid = 0 ∨ t.EndHarmless sv (expand us)) := by
  have hp := sv.hasText_plainDatum t.plain_fits restp
  have hreads : sv.varsize4B (sv.plainDatum t.bytes ++ restp) = _ := hp.header.reads
  have hs : ∀ rest, sv.HasText (sv.shortDatum t.bytes ++ rest) .short t.bytes :=
    fun rest => sv.hasText_shortDatum t.fits rest
  -- the plain form, on either side
  have hplain : sv.hocotextCmp (sv.plainDatum t.bytes ++ restp) m collid
      = (checkCollation collid >>= fun _ => .ok (sign (sv.order t.bytes (expand us)))) := by
    rw [hocotextCmp_of_dispatch (hp.dispatchCmp_payload hm collid),
      hm.hocotextMixedCmp_right hp.header hp.uncompressed, hreads, Run.ok_bind, hp.neg_scan_eq]
  have hplain' : sv.hocotextCmp m (sv.plainDatum t.bytes ++ restp) collid
      = (checkCollation collid >>= fun _ => .ok (sign (sv.order (expand us) t.bytes))) := by
    rw [hocotextCmp_of_dispatch (hm.dispatchCmp_text hp collid),
      hm.hocotextMixedCmp_left hp.header hp.uncompressed, hreads, Run.ok_bind, hp.scan_eq]
  rcases Nat.lt_or_ge t.bytes.length 3 with hfew | hmany
  · refine iff_of_false (fun h => ?_) (by omega)
    have hbad := (h []).2
    rw [hplain', hocotextCmp_of_dispatch (hm.dispatchCmp_text (hs []) collid),
      hm.hocotextMixedCmp_left (hs []).header (hs []).uncompressed,
      sv.varsize4B_shortDatum_of_lt hfew, Run.error_bind, checkCollation] at hbad
    split at hbad <;> cases hbad
  · have hshort : ∀ rest, sv.hocotextCmp (sv.shortDatum t.bytes ++ rest) m collid
        = (checkCollation collid >>= fun _ => (fun v => -v)
          <$> sv.scan (expand us) (t.bytes ++ rest) (sv.misreadSize t.bytes - 1)) := by
      intro rest
      rw [hocotextCmp_of_dispatch ((hs rest).dispatchCmp_payload hm collid),
        hm.hocotextMixedCmp_right (hs rest).header (hs rest).uncompressed,
        sv.varsize4B_shortDatum hmany, Run.ok_bind]
      rfl
    have hshort' : ∀ rest, sv.hocotextCmp m (sv.shortDatum t.bytes ++ rest) collid
        = (checkCollation collid >>= fun _ =>
          sv.scan (expand us) (t.bytes ++ rest) (sv.misreadSize t.bytes - 1)) := by
      intro rest
      rw [hocotextCmp_of_dispatch (hm.dispatchCmp_text (hs rest) collid),
        hm.hocotextMixedCmp_left (hs rest).header (hs rest).uncompressed,
        sv.varsize4B_shortDatum hmany, Run.ok_bind]
      rfl
    rw [and_iff_right hmany, EndHarmless, ← sv.forall_scan_eq_iff]
    simp only [hshort, hshort', hplain, hplain', checkCollation_bind_eq_iff]
    rw [Server.order, textOrder_swap sv.charVal (expand us) t.bytes, sign_swap]
    simp only [neg_map_eq_iff, and_self]
    by_cases hcol : collid = 0
    · simp [hcol]
    · simp [hcol]

/-! ## Extraction -/

/-- **When extraction does not depend on the form of the text**: it fails before
it looks at the text, or the text has the three bytes that `VARSIZE` reads, and
the offset is behind its end or the end that `VARSIZE` gives leaves as many
bytes of the window as there are. -/
def ExtractAgrees (offset len : ℕ) (collid : Oid) : Prop :=
  maxAllocSize < len + 14
    ∨ 3 ≤ t.bytes.length
      ∧ (collid = 0 ∨ t.bytes.length < offset
        ∨ 1 + offset ≤ sv.misreadSize t.bytes
          ∧ min (sv.misreadSize t.bytes - (1 + offset)) len = min (t.bytes.length - offset) len)

variable {sv t} in
/-- Both extractions are the plain one on a text that is not compressed. -/
theorem extract_eq_common {m : Mem} {form : Server.Form} {u : List UInt8}
    (h : sv.HasText m form u) (fresh : Block) (offset len : ℤ) (collid : Oid) :
    sv.hocotextExtract fresh m offset len collid
        = sv.hocotextCommonExtract fresh m offset len collid
      ∧ sv.textExtract fresh m offset len collid
        = sv.hocotextCommonExtract fresh m offset len collid := by
  constructor
  · rw [Server.hocotextExtract, h.datumPacked, Run.ok_bind, h.header.varattIsCompressed_eq,
      decide_eq_false h.uncompressed]
    rfl
  · rw [Server.textExtract, h.pgDetoastDatumPacked_eq, Run.ok_bind]

/-- The outcome of a copy that succeeds. -/
theorem textOutcome_copy {m : Mem} (fresh : Block) {i k len : ℕ} {bytes : List UInt8}
    (hcopy : m.copy i k = .ok bytes) (hk : k ≤ len) (hlen : len + 14 ≤ maxAllocSize) :
    sv.textOutcome ((fun bytes => some (sv.resultDatum fresh len bytes)) <$> m.copy i k)
      = .ok (some (sv.landed fresh bytes)) := by
  have hbytes := (Mem.drop_of_copy hcopy).1
  simp only [maxAllocSize] at hlen
  have hread := (@Server.hasText_resultDatum sv fresh len bytes (by omega) (by omega)).readText_eq
  rw [hcopy]
  show (do let x ← sv.readText (sv.resultDatum fresh len bytes); _) = _
  rw [hread]
  rfl

/-- **Where the end that `VARSIZE` gives is not the end of the text**, the window
has another length, or is not all mapped. -/
theorem copy_short_iff (fresh : Block) {offset len srcend : ℕ} (hoffset : offset ≤ t.bytes.length)
    (hlen : len + 14 ≤ maxAllocSize) :
    (∀ rest, sv.textOutcome ((fun bytes => some (sv.resultDatum fresh len bytes))
        <$> (sv.shortDatum t.bytes ++ rest).copy (1 + offset) (min (srcend - (1 + offset)) len))
      = .ok (some (sv.landed fresh ((t.bytes.drop offset).take len))))
      ↔ min (srcend - (1 + offset)) len = min (t.bytes.length - offset) len := by
  have hwin : ((t.bytes.drop offset).take len).length = min (t.bytes.length - offset) len := by
    rw [List.length_take, List.length_drop, Nat.min_comm]
  constructor
  · intro h
    obtain ⟨r, hr, hsome⟩ := Run.bind_eq_ok.mp (h [])
    obtain ⟨bytes, hcopy, rfl⟩ := Run.map_eq_ok.mp hr
    have houtcome := textOutcome_copy sv fresh hcopy (Nat.min_le_right _ _) hlen
    rw [h []] at houtcome
    have hsame := congrArg List.length (Option.some.inj (Except.ok.inj houtcome))
    rw [Server.landed_length, Server.landed_length, hwin, (Mem.drop_of_copy hcopy).1] at hsame
    exact hsame.symm
  · intro h rest
    have hdrop : (sv.shortDatum t.bytes ++ rest).drop (1 + offset)
        = (t.bytes.drop offset).take len ++ ((t.bytes.drop offset).drop len ++ rest) := by
      rw [← List.drop_drop, ← List.append_assoc, List.take_append_drop]
      exact List.drop_append_of_le_length hoffset
    have hcopy := Mem.copy_of_drop hdrop
    rw [hwin, ← h] at hcopy
    exact textOutcome_copy sv fresh hcopy (Nat.min_le_right _ _) hlen

theorem forall_extract_iff (fresh : Block) (restp : Mem) {offset len : ℕ} (collid : Oid)
    (hoffset : offset < 2 ^ 31) (hlen : len < 2 ^ 31) :
    (∀ rest, sv.textOutcome (sv.hocotextCommonExtract fresh (sv.shortDatum t.bytes ++ rest)
          offset len collid)
        = sv.textOutcome (sv.hocotextCommonExtract fresh (sv.plainDatum t.bytes ++ restp)
          offset len collid))
      ↔ t.ExtractAgrees sv offset len collid := by
  have hp := sv.hasText_plainDatum t.plain_fits restp
  have hreads : sv.varsize4B (sv.plainDatum t.bytes ++ restp) = _ := hp.header.reads
  have hs : ∀ rest, sv.HasText (sv.shortDatum t.bytes ++ rest) .short t.bytes :=
    fun rest => sv.hasText_shortDatum t.fits rest
  unfold ExtractAgrees
  rcases Server.palloc_result hlen with ⟨hsmall, halloc⟩ | ⟨hbig, report, herror⟩
  · rw [or_iff_right (by omega)]
    rcases Nat.lt_or_ge t.bytes.length 3 with hfew | hmany
    · refine iff_of_false (fun h => ?_) (by omega)
      have hbad := h []
      rw [(hs []).hocotextCommonExtract_eq fresh hoffset, halloc, Run.ok_bind,
        sv.varsize4B_shortDatum_of_lt hfew] at hbad
      by_cases hcol : collid = 0
      · rw [hp.hocotextCommonExtract_eq fresh hoffset, halloc, Run.ok_bind, hreads,
          checkCollation, if_neg (not_not.mpr hcol)] at hbad
        cases hbad
      · rw [hp.textOutcome_commonExtract fresh hcol hoffset hsmall halloc] at hbad
        cases hbad
    · have hshort : ∀ rest, sv.hocotextCommonExtract fresh (sv.shortDatum t.bytes ++ rest)
            offset len collid = _ := fun rest => by
        rw [(hs rest).hocotextCommonExtract_eq fresh hoffset, halloc, Run.ok_bind,
          sv.varsize4B_shortDatum hmany, Run.ok_bind]
      rw [and_iff_right hmany]
      by_cases hcol : collid = 0
      · refine iff_of_true (fun rest => ?_) (Or.inl hcol)
        rw [hshort rest, hp.hocotextCommonExtract_eq fresh hoffset, halloc, Run.ok_bind, hreads,
          checkCollation, if_neg (not_not.mpr hcol)]
        rfl
      · simp only [hshort, Server.checkCollation_eq hcol, Run.ok_bind,
          hp.textOutcome_commonExtract fresh hcol hoffset hsmall halloc, Server.window]
        rw [or_iff_right hcol]
        by_cases hpast : t.bytes.length < offset
        · simp only [if_pos hpast]
          exact iff_of_true (fun _ => rfl) (Or.inl hpast)
        · simp only [if_neg hpast]
          rw [or_iff_right hpast]
          by_cases hend : sv.misreadSize t.bytes < Server.Form.short.dataOffset + offset
          · simp only [if_pos hend]
            refine iff_of_false (fun h => ?_) (fun h => absurd h.1 (Nat.not_le.mpr hend))
            cases h []
          · simp only [if_neg hend]
            rw [and_iff_right (show 1 + offset ≤ _ from Nat.not_lt.mp hend)]
            exact copy_short_iff sv t fresh (by omega) hsmall
  · refine iff_of_true (fun rest => ?_) (Or.inl (by omega))
    rw [(hs rest).hocotextCommonExtract_eq fresh hoffset, hp.hocotextCommonExtract_eq fresh hoffset,
      herror]
    rfl

/-! ## When the form makes no difference -/

/-- **The results on a text do not depend on the size of its header exactly
under `CmpAgrees` and `ExtractAgrees`**: comparison with every value on either
side, and both extractions for all non-negative arguments, where the short
datum may be all that is mapped. -/
theorem short_eq_plain_iff (y : HocoValue) (restp resty : Mem) (fresh : Block)
    (offset len : Fin (2 ^ 31)) (collid : Oid) :
    ((∀ rest, sv.hocotextCmp (sv.shortDatum t.bytes ++ rest) (y.datum sv ++ resty) collid
            = sv.hocotextCmp (sv.plainDatum t.bytes ++ restp) (y.datum sv ++ resty) collid
          ∧ sv.hocotextCmp (y.datum sv ++ resty) (sv.shortDatum t.bytes ++ rest) collid
            = sv.hocotextCmp (y.datum sv ++ resty) (sv.plainDatum t.bytes ++ restp) collid)
        ↔ t.CmpAgrees sv collid y)
      ∧ ((∀ rest, sv.textOutcome (sv.hocotextExtract fresh (sv.shortDatum t.bytes ++ rest)
                offset.val len.val collid)
              = sv.textOutcome (sv.hocotextExtract fresh (sv.plainDatum t.bytes ++ restp)
                offset.val len.val collid)
            ∧ sv.textOutcome (sv.textExtract fresh (sv.shortDatum t.bytes ++ rest)
                offset.val len.val collid)
              = sv.textOutcome (sv.textExtract fresh (sv.plainDatum t.bytes ++ restp)
                offset.val len.val collid))
        ↔ t.ExtractAgrees sv offset len collid) := by
  have hp := sv.hasText_plainDatum t.plain_fits restp
  have hs : ∀ rest, sv.HasText (sv.shortDatum t.bytes ++ rest) .short t.bytes :=
    fun rest => sv.hasText_shortDatum t.fits rest
  constructor
  · cases y with
    | plain u fitsu =>
      have hy := sv.hasText_plainDatum fitsu resty
      refine iff_of_true (fun rest => ⟨?_, ?_⟩) trivial
      · rw [HocoValue.datum, hocotextCmp_of_dispatch ((hs rest).dispatchCmp_text hy collid),
          hocotextCmp_of_dispatch (hp.dispatchCmp_text hy collid),
          (hs rest).hocotextCommonCmp_eq hy, hp.hocotextCommonCmp_eq hy]
      · rw [HocoValue.datum, hocotextCmp_of_dispatch (hy.dispatchCmp_text (hs rest) collid),
          hocotextCmp_of_dispatch (hy.dispatchCmp_text hp collid),
          hy.hocotextCommonCmp_eq (hs rest), hy.hocotextCommonCmp_eq hp]
    | rle us neu fitsu rawu =>
      exact t.forall_cmp_rle_iff sv (sv.hasPayload_compressedDatum neu fitsu
        toastRleCompressionId (expand us).length resty) restp collid
  · rw [← t.forall_extract_iff sv fresh restp collid offset.isLt len.isLt]
    refine forall_congr' fun rest => ?_
    rw [(extract_eq_common (hs rest) fresh _ _ collid).1,
      (extract_eq_common (hs rest) fresh _ _ collid).2,
      (extract_eq_common hp fresh _ _ collid).1, (extract_eq_common hp fresh _ _ collid).2]
    exact and_self_iff

/-- The text `abc`. -/
def abc : ShortText := ⟨[97, 98, 99], by decide⟩

/-- **The form does make a difference**: compared with its own compressed form,
`abc` is equal with a long header and greater with a short one. -/
theorem not_forall_short_eq_plain :
    ¬ ∀ (sv : Server) (t : ShortText) (y : HocoValue) (restp resty rest : Mem) (collid : Oid),
      collid ≠ 0 →
        sv.hocotextCmp (sv.shortDatum t.bytes ++ rest) (y.datum sv ++ resty) collid
          = sv.hocotextCmp (sv.plainDatum t.bytes ++ restp) (y.datum sv ++ resty) collid := by
  intro h
  have hbad := h .littleEndian abc
    (.rle [.lit [97, 98, 99] (by decide)] (by decide) (by decide) (by decide)) [] [] [] 100
    (by decide)
  revert hbad
  decide

end ShortText
