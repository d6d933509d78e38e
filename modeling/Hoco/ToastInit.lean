import Hoco.ToastRow

/-!
# What the toaster starts with

`toast_tuple_init` looks at every column of a new row. A pointer that the row which is
replaced had in the same column is kept; any other pointer belongs to some other row, and
its value is fetched. Afterwards every column stands for its text (`ColumnOk`), and every
pointer of the old row is kept or marked for deletion.

A value that was fetched may be moved out again. When a table is rewritten that is done
under its old number, and then it matters that the value is the one that the number was
given for, or what comes of compressing it (`Origin`).
-/

open Rle

namespace ToastColumn

/-- The value of the old row that goes with a column. -/
def deleted (col : ToastColumn) : Option Mem := if col.needsDeleteOld then col.oldvalue else none

/-- What the rounds leave as it is. -/
def frame (col : ToastColumn) : Attribute × (Bool × Option Mem) × Bool :=
  (col.att, (col.needsDeleteOld, col.oldvalue), col.value.isNone)

end ToastColumn

/-- The values of the old row that go. -/
def deletedValues (cols : List ToastColumn) : List Mem := cols.flatMap fun col => col.deleted.toList

namespace StoreServer

/-! ## The columns of a row while it is toasted -/

section

variable (sv : StoreServer) (src : Attribute → Handle → Prop)

/-- **Where a value came from.** It is as it was fetched, and if it is not to be compressed
then for a reason; or it is what was fetched, compressed. The pointers that a column may
have had are those that `src` allows. -/
inductive Origin (col : ToastColumn) (v : Value) : Mem → Prop where
  | fetched {h : Handle} (hsrc : src col.att h) (hv : v = h.value.unpacked)
      (hkept : col.incompressible = true → col.att.attstorage = .external
        ∨ sv.toastCompressDatum (v.datum sv.toServer) col.att.attcompression = .ok none) :
      Origin col v h.attr
  | compressed {h : Handle} (hsrc : src col.att h) (hmethod : h.value.method = none)
      (hstorage : col.att.attstorage ≠ .external) (hsome : v.method.isSome = true)
      (hrun : sv.toastCompressDatum (h.value.unpacked.datum sv.toServer) col.att.attcompression
        = .ok (some (v.datum sv.toServer))) : Origin col v h.attr

/-- A value in place that the toaster may work on. -/
structure Open (col : ToastColumn) (v : Value) (t : List UInt8) : Prop where
  varlena : col.att.attlen = .varlena
  value_eq : col.value = some (v.datum sv.toServer)
  text : sv.Text v t
  size_eq : col.taiSize = (v.datum sv.toServer).length
  plain : col.ignore = true ↔ col.att.attstorage = .plain
  origin : col.ignore = false → ∀ old ∈ col.taiOldexternal, sv.Origin src col v old

/-- **A column stands for its text**, and is left alone when it is not in place. -/
inductive ColumnOk (hs : List Handle) : ToastColumn → Option (List UInt8) → Prop where
  | inPlace {col : ToastColumn} {v : Value} {t : List UInt8} (h : Open sv src col v t) :
      ColumnOk hs col (some t)
  | done {col : ToastColumn} {t : Option (List UInt8)} (hignore : col.ignore = true)
      (h : Option.Rel (sv.Carries hs col.att) col.value t)
      (hout : col.att.attlen = .varlena → sv.ref col.att col.value = col.value) :
      ColumnOk hs col t

/-- **What a column has to be like for the toaster**: its value stands for the text, and so
does the old one for any, when the pointers are `hs₀`. Pointers that are kept have to be
among `hs`. -/
structure InputOk (hs₀ hs : List Handle) (col : Attribute × Option (Option Mem) × Option Mem)
    (t : Option (List UInt8)) : Prop where
  old : ∀ m ∈ col.2.1.join, hs₀ ⊆ hs ∧ ∃ t, sv.Carries hs₀ col.1 m t
  new : Option.Rel (sv.Carries hs₀ col.1) col.2.2 t
  source : ∀ h ∈ hs₀, sv.ref col.1 col.2.2 = some h.attr → src col.1 h

/-- **What a turn of `toast_tuple_init` returns**: the column stands for its text, and the
pointer of the old row, if there is one, is either kept or marked for deletion. -/
structure Initial (hs : List Handle) (att : Attribute) (old value : Option Mem)
    (t : Option (List UInt8)) (r : ToastColumn × Bool × Bool) : Prop where
  att_eq : r.1.att = att
  column : sv.ColumnOk src hs r.1 t
  hasnull_eq : r.2.1 = value.isNone
  unchanged : r.2.2 = false → r.1.value = value
  null_eq : r.1.value.isNone = value.isNone
  needs : r.1.needsDeleteOld = true → r.1.oldvalue.isSome = true
  refs_eq : (sv.ref att old).toList = (sv.ref att r.1.value).toList ++ r.1.deleted.toList

/-- **What `toast_tuple_init` returns.** -/
structure InitialRow (hs : List Handle)
    (input : List (Attribute × Option (Option Mem) × Option Mem))
    (texts : List (Option (List UInt8))) (r : List ToastColumn × Bool × Bool) : Prop where
  atts_eq : r.1.map ToastColumn.att = input.map Prod.fst
  columns : List.Forall₂ (sv.ColumnOk src hs) r.1 texts
  hasNulls_eq : r.2.1 = input.any fun col => col.2.2.isNone
  unchanged : r.2.2 = false → r.1.map ToastColumn.value = input.map fun col => col.2.2
  nulls_eq : (r.1.map fun col => col.value.isNone) = input.map fun col => col.2.2.isNone
  needs : ∀ col ∈ r.1, col.needsDeleteOld = true → col.oldvalue.isSome = true
  refs_perm : (sv.refs (input.map fun col => (col.1, col.2.1.join))).Perm
    (sv.refs (r.1.map ToastColumn.entry) ++ deletedValues r.1)

end

variable {sv : StoreServer} {src : Attribute → Handle → Prop} {hs₀ hs hs' : List Handle}
  {att : Attribute} {m : Mem} {t : List UInt8}

theorem ColumnOk.of_subset {col : ToastColumn} {t : Option (List UInt8)}
    (h : sv.ColumnOk src hs col t) (hsub : hs ⊆ hs') : sv.ColumnOk src hs' col t := by
  cases h with
  | inPlace h => exact .inPlace h
  | done hignore h hout =>
    exact .done hignore (rel_mono (fun _ _ hm => hm.of_subset hsub) h) hout

theorem ColumnOk.column {col : ToastColumn} {t : Option (List UInt8)}
    (h : sv.ColumnOk src hs col t) : sv.Column hs col.entry t := by
  cases h with
  | inPlace h =>
    unfold Column ToastColumn.entry
    rw [h.value_eq]
    exact .some (.inPlace h.varlena h.text)
  | done hignore h hout => exact h

/-! ## The old value of a column -/

/-- **What `toast_tuple_init` finds out about a value of the old row.** -/
theorem oldFate_eq {oldvalue : Option (Option Mem)} {value : Option Mem}
    (hold : ∀ m ∈ oldvalue.join, ∃ t, sv.Carries hs att m t)
    (hnew : ∀ m ∈ value, ∃ t, sv.Carries hs att m t) :
    sv.oldFate att oldvalue value = .ok (
      if sv.ref att oldvalue.join = none then .absent
      else if oldvalue.join = value then .same else .changed) := by
  have hondisk : ∀ {g : Handle}, g.PointsTo sv → sv.varattIsExternalOndisk g.attr = .ok true :=
    fun hpoints => hpoints ▸ sv.varattIsExternalOndisk_toastPointer _
  have hcopy : ∀ {g : Handle}, g.PointsTo sv → g.attr.copy 0 18 = .ok g.attr := by
    intro g hpoints
    have hself := Server.copy_self g.attr
    have hlen : g.attr.length = 18 := hpoints ▸ sv.length_toastPointer _
    rwa [hlen] at hself
  unfold oldFate
  cases hjoin : oldvalue.join with
  | none => rw [ref_none, if_pos rfl]; rfl
  | some m =>
    obtain ⟨t, ht⟩ := hold m hjoin
    rw [Option.elim_some]
    cases ht with
    | other hlen hfits => rw [if_neg hlen, ref_of_ne_varlena hlen, if_pos rfl]
    | @inPlace v t hlen ht =>
      rw [if_pos hlen, v.varattIsExternalOndisk_datum, Run.ok_bind, ref_datum, if_pos rfl]
      rfl
    | @moved h t hlen hmem hpoints ht =>
      rw [if_pos hlen, hondisk hpoints, Run.ok_bind, if_pos rfl, ref_attr hlen hpoints,
        if_neg (Option.some_ne_none _)]
      cases value with
      | none => rfl
      | some newValue =>
        rw [oldDiffers, Option.elim_some]
        obtain ⟨t', ht'⟩ := hnew newValue rfl
        cases ht' with
        | other hlen' _ => exact absurd hlen hlen'
        | @inPlace v t' _ _ =>
          have hne : (some h.attr) ≠ some (v.datum sv.toServer) := by
            intro heq
            have hext := sv.startsExternal_toastPointer
              (h.value.pointer sv.toServer h.valueid h.relid)
            rw [← hpoints, Option.some.inj heq, v.startsExternal_datum] at hext
            cases hext
          rw [v.varattIsExternalOndisk_datum, Run.ok_bind, if_neg Bool.false_ne_true, if_neg hne]
          rfl
        | @moved g t' _ _ hpoints' _ =>
          have hsize : Server.varsizeExternal h.attr = .ok 18 :=
            hpoints ▸ sv.varsizeExternal_toastPointer _
          rw [hondisk hpoints', Run.ok_bind, if_pos rfl, hsize, Run.ok_bind, hcopy hpoints,
            Run.ok_bind, hcopy hpoints', Run.ok_bind]
          by_cases hsame : h.attr = g.attr
          · rw [if_pos (congrArg some hsame), hsame, bne_self_eq_false]
            rfl
          · rw [if_neg fun heq => hsame (Option.some.inj heq), bne_iff_ne.mpr hsame]
            rfl

/-! ## The value of a column -/

section

variable {st : Store}

/-- What was moved out is fetched with a header of four bytes. -/
theorem Refers.detoastExternalAttr_eq {v : Value} {valueid relid : ℕ}
    (h : sv.Refers st m v valueid relid) :
    sv.detoastExternalAttr st m = .ok (v.unpacked.datum sv.toServer) := by
  rw [detoastExternalAttr, h.varattIsExternalOndisk_eq, Run.ok_bind, if_pos rfl,
    h.toastFetchDatum_eq, Value.datum_unpacked]

section

variable {h : Handle} (hrefers : sv.Refers st h.attr h.value h.valueid h.relid)
  (ht : sv.Text h.value t) {plain : Bool}

include hrefers ht

/-- What is fetched for a value of another row has its text. -/
theorem of_fetchForeign_eq (hrun : sv.fetchForeign st plain h.attr = .ok m) :
    ∃ v : Value, m = v.datum sv.toServer ∧ sv.Text v t
      ∧ (plain = false → v = h.value.unpacked) := by
  cases plain with
  | true =>
    have hread := hrefers.detoastAttr_eq.symm.trans hrun
    have hplain := (ht.reads_of_eq_ok hread).symm.trans hread
    exact ⟨.plain t ht.fits, (Except.ok.inj hplain).symm, text_plain ht.fits,
      fun hp => by cases hp⟩
  | false =>
    have hfetch := hrefers.detoastExternalAttr_eq.symm.trans hrun
    exact ⟨h.value.unpacked, (Except.ok.inj hfetch).symm, ht.unpacked, fun _ => rfl⟩

/-- Only a text that was lost cannot be fetched in a column that is `PLAIN`. -/
theorem exists_fetchForeign_eq (hplain : plain = true → LiteralsFit t) :
    ∃ m, sv.fetchForeign st plain h.attr = .ok m := by
  cases plain with
  | true =>
    exact ⟨_, hrefers.detoastAttr_eq.trans (ht.reads_of_literalsFit (hplain rfl))⟩
  | false => exact ⟨_, hrefers.detoastExternalAttr_eq⟩

end

variable (hrefers : ∀ h ∈ hs₀, sv.Refers st h.attr h.value h.valueid h.relid)

include hrefers

/-- **A value that is not kept as it is**: it is in place afterwards. -/
theorem of_initValue_eq {col : ToastColumn} {t : Option (List UInt8)}
    (hnew : Option.Rel (sv.Carries hs₀ col.att) col.value t)
    (hsrc : ∀ h ∈ hs₀, sv.ref col.att col.value = some h.attr → src col.att h)
    (hignore : col.ignore = true) (hinc : col.incompressible = false)
    (hext : col.taiOldexternal = none) {r : ToastColumn × Bool × Bool}
    (hrun : sv.initValue st col = .ok r) (hs : List Handle) :
    r.1.att = col.att ∧ r.1.oldvalue = col.oldvalue
      ∧ r.1.needsDeleteOld = col.needsDeleteOld ∧ sv.ColumnOk src hs r.1 t
      ∧ r.2.1 = col.value.isNone ∧ (r.2.2 = false → r.1.value = col.value)
      ∧ r.1.value.isNone = col.value.isNone ∧ sv.ref col.att r.1.value = none := by
  cases hval : col.value with
  | none =>
    rw [initValue, hval] at hrun
    cases hrun
    rw [hval] at hnew
    cases hnew
    refine ⟨rfl, rfl, rfl, .done hignore ?_ fun _ => ?_, rfl, fun _ => hval, by rw [hval],
      by rw [hval, ref_none]⟩
    · rw [hval]
      exact .none
    · rw [hval, ref_none]
  | some m =>
    rw [initValue, hval, Option.elim_some] at hrun
    rw [hval] at hnew hsrc
    cases hnew with
    | @some _ t hnew =>
    cases hnew with
    | other hlen hfits =>
      rw [if_neg hlen] at hrun
      cases hrun
      refine ⟨rfl, rfl, rfl, .done hignore ?_ fun hlen' => absurd hlen' hlen, rfl, fun _ => hval,
        by rw [hval], ref_of_ne_varlena hlen _⟩
      rw [hval]
      exact .some (.other hlen hfits)
    | @inPlace v t hlen ht =>
      rw [if_pos hlen, initVarlena, v.varattIsExternal_datum, Run.ok_bind,
        if_neg Bool.false_ne_true, v.varsizeAny_datum] at hrun
      cases hrun
      refine ⟨rfl, rfl, rfl,
        .inPlace ⟨hlen, hval, ht, rfl, decide_eq_true_iff, fun _ old hold => ?_⟩,
        rfl, fun _ => hval, by rw [hval], by rw [hval, ref_datum]⟩
      rw [hext] at hold
      cases hold
    | @moved h t hlen hmem hpoints ht =>
      rw [if_pos hlen, initVarlena, (show sv.varattIsExternal h.attr = .ok true from
        hpoints ▸ sv.varattIsExternal_toastPointer _), Run.ok_bind, if_pos rfl] at hrun
      obtain ⟨fetched, hfetch, hrun⟩ := Run.bind_eq_ok.mp hrun
      obtain ⟨v, rfl, hv, hunpacked⟩ := of_fetchForeign_eq (hrefers h hmem) ht hfetch
      rw [v.varsizeAny_datum, Run.ok_bind] at hrun
      cases hrun
      refine ⟨rfl, rfl, rfl,
        .inPlace ⟨hlen, rfl, hv, rfl, decide_eq_true_iff, fun hplain old hold => ?_⟩,
        rfl, (fun hch => by cases hch), rfl, ref_datum v⟩
      cases hold
      refine .fetched (hsrc h hmem (ref_attr hlen hpoints)) (hunpacked hplain) fun hinc' => ?_
      rw [hinc] at hinc'
      cases hinc'

theorem exists_initValue_eq {col : ToastColumn} {t : Option (List UInt8)}
    (hnew : Option.Rel (sv.Carries hs₀ col.att) col.value t)
    (hplain : col.att.attlen = .varlena → col.att.attstorage = .plain → ∀ x ∈ t, LiteralsFit x) :
    ∃ r, sv.initValue st col = .ok r := by
  unfold initValue
  cases hval : col.value with
  | none => exact ⟨_, rfl⟩
  | some m =>
    rw [hval] at hnew
    rw [Option.elim_some]
    cases hnew with
    | @some _ t hnew =>
    cases hnew with
    | other hlen hfits =>
      rw [if_neg hlen]
      exact ⟨_, rfl⟩
    | @inPlace v t hlen ht =>
      rw [if_pos hlen, initVarlena, v.varattIsExternal_datum, Run.ok_bind,
        if_neg Bool.false_ne_true, v.varsizeAny_datum]
      exact ⟨_, rfl⟩
    | @moved h t hlen hmem hpoints ht =>
      obtain ⟨fetched, hfetch⟩ := exists_fetchForeign_eq (hrefers h hmem) ht
        fun hp : decide (col.att.attstorage = .plain) = true =>
          hplain hlen (of_decide_eq_true hp) t rfl
      obtain ⟨v, rfl, -⟩ := of_fetchForeign_eq (hrefers h hmem) ht hfetch
      rw [if_pos hlen, initVarlena, (show sv.varattIsExternal h.attr = .ok true from
        hpoints ▸ sv.varattIsExternal_toastPointer _), Run.ok_bind, if_pos rfl, hfetch, Run.ok_bind,
        v.varsizeAny_datum]
      exact ⟨_, rfl⟩

end

/-! ## All columns -/

theorem carries_of_rel {value : Option Mem} {t : Option (List UInt8)}
    (h : Option.Rel (sv.Carries hs att) value t) : ∀ m ∈ value, ∃ t, sv.Carries hs att m t := by
  intro m hm
  cases h with
  | none => cases hm
  | some h =>
    cases hm
    exact ⟨_, h⟩

section

variable {st : Store} (hrefers : ∀ h ∈ hs₀, sv.Refers st h.attr h.value h.valueid h.relid)

include hrefers

/-- **One turn of `toast_tuple_init`.** -/
theorem of_initColumn_eq {oldvalue : Option (Option Mem)} {value : Option Mem}
    {t : Option (List UInt8)} (h : sv.InputOk src hs₀ hs (att, oldvalue, value) t)
    {r : ToastColumn × Bool × Bool} (hrun : sv.initColumn st att oldvalue value = .ok r) :
    sv.Initial src hs att oldvalue.join value t r := by
  rw [initColumn, oldFate_eq (fun m hm => (h.old m hm).2) (carries_of_rel h.new), Run.ok_bind]
    at hrun
  dsimp only at hrun
  by_cases habsent : sv.ref att oldvalue.join = none
  · rw [if_pos habsent, if_neg (by decide)] at hrun
    obtain ⟨hatt, -, hneeds, hok, hisnull, hsame, hnull, href⟩ :=
      of_initValue_eq hrefers (t := t) h.new h.source rfl rfl rfl hrun hs
    refine ⟨hatt, hok, hisnull, hsame, hnull, fun hneed => ?_, ?_⟩
    · rw [hneeds] at hneed
      cases hneed
    · rw [habsent, href, ToastColumn.deleted, hneeds]
      rfl
  · have hsome : oldvalue.join.isSome = true := by
      cases hjoin : oldvalue.join with
      | none =>
        rw [hjoin, ref_none] at habsent
        exact absurd rfl habsent
      | some m => rfl
    rw [if_neg habsent] at hrun
    by_cases hsame : oldvalue.join = value
    · rw [if_pos hsame, if_pos rfl] at hrun
      cases hrun
      obtain ⟨m, hm⟩ := Option.isSome_iff_exists.mp hsome
      have hnull : value.isNone = false := by
        rw [← hsame, hm]
        rfl
      have hcarries := rel_mono (fun _ _ hc => hc.of_subset (h.old m hm).1) h.new
      refine ⟨rfl, .done rfl hcarries fun _ => ref_eq_self (hsame ▸ habsent), hnull.symm,
        fun _ => rfl, rfl, fun _ => hsome, ?_⟩
      rw [hsame]
      exact (List.append_nil _).symm
    · rw [if_neg hsame, if_neg (by decide)] at hrun
      obtain ⟨hatt, hold, hneeds, hok, hisnull, hsame, hnull, href⟩ :=
        of_initValue_eq hrefers (t := t) h.new h.source rfl rfl rfl hrun hs
      refine ⟨hatt, hok, hisnull, hsame, hnull, fun _ => hold ▸ hsome, ?_⟩
      rw [href, ToastColumn.deleted, hneeds, hold, ref_eq_self habsent]
      rfl

theorem exists_initColumn_eq {oldvalue : Option (Option Mem)} {value : Option Mem}
    {t : Option (List UInt8)} (h : sv.InputOk src hs₀ hs (att, oldvalue, value) t)
    (hplain : att.attlen = .varlena → att.attstorage = .plain → ∀ x ∈ t, LiteralsFit x) :
    ∃ r, sv.initColumn st att oldvalue value = .ok r := by
  rw [initColumn, oldFate_eq (fun m hm => (h.old m hm).2) (carries_of_rel h.new), Run.ok_bind]
  generalize (if sv.ref att oldvalue.join = none then OldFate.absent
    else if oldvalue.join = value then .same else .changed) = fate
  dsimp only
  split
  · exact ⟨_, rfl⟩
  · exact exists_initValue_eq (t := t) hrefers h.new hplain

/-- **`toast_tuple_init`**: every column stands for its text, and every pointer of the old
row is either kept or marked for deletion. -/
theorem of_toastTupleInit_eq {input : List (Attribute × Option (Option Mem) × Option Mem)}
    {texts : List (Option (List UInt8))} (h : List.Forall₂ (sv.InputOk src hs₀ hs) input texts)
    {r : List ToastColumn × Bool × Bool} (hrun : sv.toastTupleInit st input = .ok r) :
    sv.InitialRow src hs input texts r := by
  induction h generalizing r with
  | nil =>
    cases hrun
    exact ⟨rfl, .nil, rfl, fun _ => rfl, rfl, List.forall_mem_nil _, .nil⟩
  | @cons col t input texts hcol hrest ih =>
    obtain ⟨att, oldvalue, value⟩ := col
    rw [toastTupleInit] at hrun
    obtain ⟨⟨col, isnull, changed⟩, hcolumn, hrun⟩ := Run.bind_eq_ok.mp hrun
    obtain ⟨⟨cols, hasNulls, needsChange⟩, hcolumns, hrun⟩ := Run.bind_eq_ok.mp hrun
    cases hrun
    obtain ⟨hatt, hok, hisnull, hsame, hnull, hneeds, href⟩ := of_initColumn_eq hrefers hcol hcolumn
    obtain ⟨hatts, hoks, hasnull, hsames, hnulls, hneeds', hrefs⟩ := ih hcolumns
    dsimp only at *
    refine ⟨congrArg₂ (· :: ·) hatt hatts, .cons hok hoks, congrArg₂ (· || ·) hisnull hasnull,
      fun hch => ?_, congrArg₂ (· :: ·) hnull hnulls,
      List.forall_mem_cons.mpr ⟨hneeds, hneeds'⟩, ?_⟩
    · rw [Bool.or_eq_false_iff] at hch
      exact congrArg₂ (· :: ·) (hsame hch.1) (hsames hch.2)
    · rw [List.perm_iff_count] at hrefs ⊢
      intro m
      have hm := hrefs m
      simp only [refs, deletedValues, List.map_cons, List.flatMap_cons, List.count_append] at hm ⊢
      rw [href, List.count_append]
      simp only [ToastColumn.entry, hatt] at hm ⊢
      omega

theorem exists_toastTupleInit_eq {input : List (Attribute × Option (Option Mem) × Option Mem)}
    {texts : List (Option (List UInt8))} (h : List.Forall₂ (sv.InputOk src hs₀ hs) input texts)
    (hplain : ∀ p ∈ (input.map Prod.fst).zip texts, p.1.attlen = .varlena →
      p.1.attstorage = .plain → ∀ x ∈ p.2, LiteralsFit x) :
    ∃ r, sv.toastTupleInit st input = .ok r := by
  induction h with
  | nil => exact ⟨_, rfl⟩
  | @cons col t input texts hcol hrest ih =>
    obtain ⟨att, oldvalue, value⟩ := col
    obtain ⟨r, hr⟩ := exists_initColumn_eq hrefers hcol (hplain (att, t) List.mem_cons_self)
    obtain ⟨r', hr'⟩ := ih fun p hp => hplain p (List.mem_cons_of_mem _ hp)
    rw [toastTupleInit, hr, Run.ok_bind, hr']
    exact ⟨_, rfl⟩

end

end StoreServer
