import Hoco.Toaster

/-!
# Tables over time

Rows are inserted, updated and deleted, and each time the heap decides whether the toaster
has to look at them: `heap_prepare_insert` and `heap_update` go by the size of the row and
by the flag that says that a row has values out of line, `heap_delete` by the flag alone.
The toast tables are cleaned up in between, and others take OIDs.

`Tables.Step` says this in terms of the code only: the toast store, and for each row its
bytes and the texts that were asked for. A statement may put any value in place into a row
that can be read, or an object that has to be flattened; and it may copy whatever it finds in
some row, of the same table or of another one, which is what `UPDATE` does with the columns
that it does not set, and what `INSERT` does that takes its values from a `SELECT`.
`Tables.Accounted` relates such tables to a session of the toast store in which the live
pointers are those of the rows, each of them once.

Whether a text is read again is another question. One that was run length encoded though its
literals do not fit is reported as corrupt, and `ReadsAs` leaves just this way out.
-/

open Rle

/-- `TOAST_TUPLE_THRESHOLD`. -/
abbrev toastTupleThreshold : ℕ := 2032

namespace StoreServer

variable (sv : StoreServer)

/-- What `heap_prepare_insert` does with a row of an ordinary table. -/
def heapPrepareInsert (st : Store) (rel : HeapRelation) (tup : HeapTuple) :
    Run (Store × HeapTuple) :=
  if tup.hasexternal ∨ toastTupleThreshold < tup.tLen then
    sv.heapToastInsertOrUpdate st rel tup none
  else .ok (st, tup)

/-- What `heap_update` does: `need_toast`, and the row that is stored. -/
def heapUpdateToast (st : Store) (rel : HeapRelation) (oldtup newtup : HeapTuple) :
    Run (Store × HeapTuple) :=
  if oldtup.hasexternal ∨ newtup.hasexternal ∨ toastTupleThreshold < newtup.tLen then
    sv.heapToastInsertOrUpdate st rel newtup (some oldtup)
  else .ok (st, newtup)

/-- What `heap_delete` and, for an insertion that is taken back, `heap_abort_speculative`
do. -/
def heapDeleteToast (st : Store) (rel : HeapRelation) (tup : HeapTuple) (isSpeculative : Bool) :
    Run Store :=
  if tup.hasexternal then sv.heapToastDelete st rel tup isSpeculative else .ok st

/-- `pg_detoast_datum`. -/
def pgDetoastDatum (st : Store) (datum : Mem) : Run Mem := do
  if sv.is4BU (← datum.load 0) then return datum else (sv.overStore st).detoastAttr datum

/-- What a statement reads of a column. -/
def readColumn (st : Store) (col : Attribute × Option Mem) : Run (Option Mem) :=
  match col.2 with
  | none => .ok none
  | some m => some <$> if col.1.attlen = .varlena then sv.pgDetoastDatum st m else .ok m

/-- What a statement reads of a row. -/
def readRow (st : Store) (rel : HeapRelation) (tup : HeapTuple) : Run (List (Option Mem)) := do
  let (values, _) ← sv.heapDeformTuple tup (rel.rdAtt.map (·, none))
  (rel.rdAtt.zip values).mapM (sv.readColumn st)

/-- A text, the way a statement gets it. -/
def shown (att : Attribute) (t : List UInt8) : Mem :=
  if att.attlen = .varlena then sv.plainDatum t else t

/-- **A column is read as its text**, or else the text was lost: it is reported as corrupt, the
value says of itself that it is run length encoded, and the literals of the text do not fit. -/
inductive ReadsAs (st : Store) (col : Attribute × Option Mem) : Option (List UInt8) → Prop where
  | text {t : Option (List UInt8)} (h : sv.readColumn st col = .ok (t.map (sv.shown col.1))) :
      ReadsAs st col t
  | lost {m : Mem} {t : List UInt8} (hlen : col.1.attlen = .varlena) (hvalue : col.2 = some m)
      (hmethod : sv.toastGetCompressionId m = .ok toastRleCompressionId)
      (hliterals : ¬ LiteralsFit t) (h : sv.readColumn st col = .error rleCorrupt) :
      ReadsAs st col (some t)

/-- The literals of all texts fit. -/
def AllLiteralsFit (rel : HeapRelation) (texts : List (Option (List UInt8))) : Prop :=
  ∀ p ∈ rel.rdAtt.zip texts, p.1.attlen = .varlena → ∀ t ∈ p.2, LiteralsFit t

end StoreServer

/-! ## Tables -/

/-- A row of some table, and the texts that were asked for. -/
structure TableRow where
  rel : HeapRelation
  tup : HeapTuple
  texts : List (Option (List UInt8))

/-- **The toast store, and the rows of all tables**, in any order. -/
structure Tables where
  store : Store
  rows : List TableRow

namespace Tables

variable (sv : StoreServer)

/-- The pointers of a row. -/
def pointersOf (row : TableRow) : List Mem :=
  match sv.heapDeformTuple row.tup (row.rel.rdAtt.map (·, none)) with
  | .ok (values, _) => sv.rowRefs row.rel values
  | .error _ => []

/-- **A value that a statement may put into a row**, and the text that it stands for. -/
inductive Given (rows : List TableRow) (att : Attribute) : Mem → List UInt8 → Prop where
  | other {m : Mem} (hlen : att.attlen ≠ .varlena) (hfits : sv.Fits att m) : Given rows att m m
  | inPlace {v : Value} {t : List UInt8} (hlen : att.attlen = .varlena) (ht : sv.Text v t)
      (hreads : sv.Reads v t) : Given rows att (v.datum sv.toServer) t
  | object {m : Mem} {t : List UInt8} (hlen : att.attlen = .varlena)
      (hsize : sv.varsizeAny m = .ok m.length) (hexp : sv.startsExpanded m = true)
      (hflat : sv.flatten m = .ok (sv.plainDatum t)) (fits : t.length + 4 < 2 ^ 30) :
      Given rows att m t
  | copied {row : TableRow} {values : List (Option Mem)} {desc : TupleDesc} {i : ℕ}
      {att' : Attribute} {m : Mem} {t : List UInt8} (hlen : att.attlen = .varlena)
      (hrow : row ∈ rows)
      (hdeform : sv.heapDeformTuple row.tup (row.rel.rdAtt.map (·, none)) = .ok (values, desc))
      (hcol : (row.rel.rdAtt.zip values)[i]? = some (att', some m))
      (hlen' : att'.attlen = .varlena) (ht : row.texts[i]? = some (some t)) :
      Given rows att m t

/-- A row that a statement forms. -/
structure Formed (rows : List TableRow) (rel : HeapRelation) (newtup : HeapTuple)
    (texts : List (Option (List UInt8))) : Prop where
  ordinary : rel.rdToastoid = 0 ∧ rel.reltoastrelid < 2 ^ 32
  formed : ∃ cols, cols.map Prod.fst = rel.rdAtt
    ∧ List.Forall₂ (fun col t => Option.Rel (Given sv rows col.1) col.2 t) cols texts
    ∧ sv.heapFormTuple cols = .ok newtup

/-- **What can happen.** -/
inductive Step : Tables → Tables → Prop where
  | insert {T : Tables} {rel : HeapRelation} {newtup tup : HeapTuple}
      {texts : List (Option (List UInt8))} {st : Store} (hform : Formed sv T.rows rel newtup texts)
      (hrun : sv.heapPrepareInsert T.store rel newtup = .ok (st, tup)) :
      Step T ⟨st, ⟨rel, tup, texts⟩ :: T.rows⟩
  | update {T : Tables} {old : TableRow} {rest : List TableRow} {newtup tup : HeapTuple}
      {texts : List (Option (List UInt8))} {st : Store} (hrows : T.rows.Perm (old :: rest))
      (hform : Formed sv T.rows old.rel newtup texts)
      (hrun : sv.heapUpdateToast T.store old.rel old.tup newtup = .ok (st, tup)) :
      Step T ⟨st, ⟨old.rel, tup, texts⟩ :: rest⟩
  | delete {T : Tables} {old : TableRow} {rest : List TableRow} {st : Store} {isSpeculative : Bool}
      (hrows : T.rows.Perm (old :: rest))
      (hrun : sv.heapDeleteToast T.store old.rel old.tup isSpeculative = .ok st) :
      Step T ⟨st, rest⟩
  | vacuum {T : Tables} (relid : ℕ) (keep : ToastRow → Bool) :
      Step T ⟨T.store.vacuum relid keep, T.rows⟩
  | counter {T : Tables} {nextOid : ℕ} (hnext : nextOid < 2 ^ 32) :
      Step T ⟨{ T.store with nextOid := nextOid }, T.rows⟩

/-- No rows, empty toast tables, and a server that assigns OIDs. -/
structure Start (T : Tables) : Prop where
  normal : sv.oids.Normal
  counter : T.store.nextOid < 2 ^ 32
  empty : ∀ relid rel, T.store.rels relid = some rel → rel.rows = []
  rows : T.rows = []

/-- The tables that can come about. -/
def Reachable (T : Tables) : Prop :=
  ∃ T₀ : Tables, Start sv T₀ ∧ Relation.ReflTransGen (Step sv) T₀ T

/-- **The live values of a session are those of the rows, and each of them belongs to one
row.** -/
structure Accounted (T : Tables) (s : Session) : Prop where
  store_eq : s.store = T.store
  reachable : Session.Reachable sv s
  rows : ∀ row ∈ T.rows, ∃ values, sv.Row row.rel s.live row.tup values row.texts
  live : s.liveAttrs.Perm (T.rows.flatMap (pointersOf sv))

end Tables

namespace StoreServer

variable {sv : StoreServer} {s s' : Session} {hs : List Handle} {rel : HeapRelation}
  {tup : HeapTuple} {values : List (Option Mem)} {texts : List (Option (List UInt8))}

theorem Row.pointersOf_eq (h : sv.Row rel hs tup values texts) :
    Tables.pointersOf sv ⟨rel, tup, texts⟩ = sv.rowRefs rel values := by
  obtain ⟨desc, hdeform⟩ := h.deform
  rw [Tables.pointersOf]
  dsimp only
  rw [hdeform]

/-- A row stands for its texts while its pointers are live. -/
theorem Row.of_keeps (h : sv.Row rel s.live tup values texts) (hkeeps : s.Keeps s')
    (hlive : sv.rowRefs rel values ⊆ s'.liveAttrs) : sv.Row rel s'.live tup values texts :=
  ⟨h.deform, h.length_eq, Column.of_keeps h.carries hkeeps hlive, h.external⟩

/-- The flag tells whether there are pointers. -/
theorem Row.rowRefs_eq_nil (h : sv.Row rel hs tup values texts) (hno : tup.hasexternal = false) :
    sv.rowRefs rel values = [] := by
  have hext := h.external
  rw [hno, anyExternal_eq, eq_comm, Bool.not_eq_false', List.isEmpty_iff] at hext
  exact hext

theorem deleteAll_append (isSpeculative : Bool) (st : Store) (ms ns : List Mem) :
    sv.deleteAll isSpeculative st (ms ++ ns)
      = (sv.deleteAll isSpeculative st ms >>= fun st => sv.deleteAll isSpeculative st ns) := by
  induction ms generalizing st with
  | nil => rfl
  | cons m ms ih =>
    rw [List.cons_append, deleteAll, deleteAll, bind_assoc]
    exact congrArg (sv.toastDeleteDatum st m isSpeculative >>= ·) (funext ih)

/-- One turn of the loop of `toast_delete_external`. -/
theorem deleteExternal_eq {att : Attribute} {value : Option Mem} {t : Option (List UInt8)}
    (hcol : sv.Column hs (att, value) t) (isSpeculative : Bool) (st : Store) :
    sv.deleteExternal isSpeculative st att value
      = sv.deleteAll isSpeculative st (sv.ref att value).toList := by
  rw [deleteExternal]
  cases hcol with
  | none =>
    rw [ref_none]
    split <;> rfl
  | some hc =>
    cases hc with
    | other hlen hfits =>
      rw [if_neg hlen, ref_of_ne_varlena hlen]
      rfl
    | @inPlace v t hlen ht =>
      rw [if_pos hlen, Option.elim_some, v.varattIsExternalOndisk_datum, ref_datum]
      rfl
    | @moved h t hlen hmem hpoints ht =>
      rw [if_pos hlen, Option.elim_some, (show sv.varattIsExternalOndisk h.attr = .ok true from
        hpoints ▸ sv.varattIsExternalOndisk_toastPointer _), Run.ok_bind, if_pos rfl,
        ref_attr hlen hpoints, Option.toList_some, deleteAll]
      cases sv.toastDeleteDatum st h.attr isSpeculative <;> rfl

/-- **`toast_delete_external`** deletes the pointers of a row. -/
theorem toastDeleteExternal_eq {cols : List (Attribute × Option Mem)}
    (hcols : List.Forall₂ (sv.Column hs) cols texts) (isSpeculative : Bool) (st : Store) :
    sv.toastDeleteExternal isSpeculative st cols
      = sv.deleteAll isSpeculative st (sv.refs cols) := by
  induction hcols generalizing st with
  | nil => rfl
  | @cons col t cols texts hcol hrest ih =>
    obtain ⟨att, value⟩ := col
    rw [toastDeleteExternal, deleteExternal_eq hcol, refs, List.flatMap_cons, deleteAll_append]
    exact congrArg (sv.deleteAll isSpeculative st (sv.ref att value).toList >>= ·) (funext ih)

/-- **`heap_delete`** deletes the pointers of a row, whether it looks for them or not. -/
theorem Row.heapDeleteToast_eq (h : sv.Row rel hs tup values texts) (isSpeculative : Bool)
    (st : Store) :
    sv.heapDeleteToast st rel tup isSpeculative
      = sv.deleteAll isSpeculative st (sv.rowRefs rel values) := by
  unfold heapDeleteToast
  cases hext : tup.hasexternal with
  | false =>
    rw [h.rowRefs_eq_nil hext]
    rfl
  | true =>
    obtain ⟨desc, hdeform⟩ := h.deform
    rw [if_pos rfl, heapToastDelete, hdeform, Run.ok_bind]
    exact toastDeleteExternal_eq h.carries isSpeculative st

/-! ## Reading -/

/-- **What is in place is read without the tables.** -/
theorem pgDetoastDatum_datum (v : Value) (st : Store) :
    sv.pgDetoastDatum st (v.datum sv.toServer) = sv.detoastAttr (v.datum sv.toServer) := by
  obtain ⟨b, hb, hcomp, hshort, -⟩ := (v.hasHeader_datum sv.toServer).first
  rw [pgDetoastDatum, hb, Run.ok_bind]
  split
  · rename_i hplain
    -- a header of four bytes, and nothing compressed
    rw [sv.is4BU_eq, hcomp, hshort] at hplain
    cases v with
    | plain t' fits => exact ((Value.plain t' fits).detoastAttr_datum sv.toServer).symm
    | short t' fits => cases hplain
    | compressed method rawsize payload known raw saves => cases hplain
  · exact detoastAttr_overStore_datum v st

/-- **A pointer is read like the value.** -/
theorem Refers.pgDetoastDatum_eq {st : Store} {m : Mem} {v : Value} {valueid relid : ℕ}
    (h : sv.Refers st m v valueid relid) :
    sv.pgDetoastDatum st m = sv.detoastAttr (v.datum sv.toServer) := by
  obtain ⟨b, hb, hext⟩ := sv.load_toastPointer (v.pointer sv.toServer valueid relid)
  have hplain : sv.is4BU b = false := by
    have hshort : sv.is1B b = true := sv.is1B_of_is1BE hext
    rw [sv.is4BU_eq, hshort, Bool.not_true, Bool.and_false]
  rw [pgDetoastDatum, h.pointer, hb, Run.ok_bind, hplain, if_neg Bool.false_ne_true, ← h.pointer,
    h.detoastAttr_eq]

/-- A value that stands for a text, in place or not, is read as the text unless that was
lost. -/
theorem Text.readsAs {v : Value} {t : List UInt8} (ht : sv.Text v t) {att : Attribute} {m : Mem}
    (hlen : att.attlen = .varlena) {st : Store}
    (hread : sv.pgDetoastDatum st m = sv.detoastAttr (v.datum sv.toServer))
    (hid : sv.toastGetCompressionId m = .ok (v.method.getD toastInvalidCompressionId)) :
    sv.ReadsAs st (att, some m) (some t) := by
  have hcol : sv.readColumn st (att, some m)
      = some <$> sv.detoastAttr (v.datum sv.toServer) := by
    simp only [readColumn, if_pos hlen, hread]
  rcases ht.reads with hreads | hlost
  · refine .text (hcol.trans ?_)
    simp only [shown, if_pos hlen, Option.map_some]
    rw [hreads]
    rfl
  · refine .lost hlen rfl ?_ hlost.literals (hcol.trans ?_)
    · rw [hid, hlost.method]
      rfl
    · rw [hlost.corrupt]
      rfl

section

variable {st : Store} (hrefers : ∀ g ∈ hs, sv.Refers st g.attr g.value g.valueid g.relid)

include hrefers

/-- A column that stands for a text is read as the text unless that was lost. -/
theorem Column.readsAs {col : Attribute × Option Mem} {t : Option (List UInt8)}
    (h : sv.Column hs col t) : sv.ReadsAs st col t := by
  obtain ⟨att, value⟩ := col
  cases h with
  | none => exact .text rfl
  | some hc =>
    cases hc with
    | other hlen hfits =>
      refine .text ?_
      simp only [readColumn, if_neg hlen, shown, Option.map_some]
      rfl
    | @inPlace v t hlen ht =>
      exact ht.readsAs hlen (pgDetoastDatum_datum v st) (Refers.toastGetCompressionId_datum v)
    | @moved h t hlen hmem hpoints ht =>
      exact ht.readsAs hlen (hrefers h hmem).pgDetoastDatum_eq
        (hrefers h hmem).toastGetCompressionId_eq

/-- **Every column of a row is read as its text unless that was lost.** -/
theorem Row.readsAs (h : sv.Row rel hs tup values texts) :
    List.Forall₂ (sv.ReadsAs st) (rel.rdAtt.zip values) texts :=
  h.carries.imp fun _ _ hc => hc.readsAs hrefers

end

/-- Texts whose literals fit are not lost. -/
theorem ReadsAs.readColumn_eq {st : Store} {col : Attribute × Option Mem}
    {t : Option (List UInt8)} (h : sv.ReadsAs st col t)
    (hfit : col.1.attlen = .varlena → ∀ x ∈ t, LiteralsFit x) :
    sv.readColumn st col = .ok (t.map (sv.shown col.1)) := by
  cases h with
  | text h => exact h
  | lost hlen hvalue hmethod hliterals h => exact absurd (hfit hlen _ rfl) hliterals

/-- **A row whose literals fit is read as its texts.** -/
theorem readRow_eq_of_readsAs {st : Store} {desc : TupleDesc}
    (hdeform : sv.heapDeformTuple tup (rel.rdAtt.map (·, none)) = .ok (values, desc))
    (hlength : values.length = rel.rdAtt.length)
    (hreads : List.Forall₂ (sv.ReadsAs st) (rel.rdAtt.zip values) texts)
    (hfit : AllLiteralsFit rel texts) :
    sv.readRow st rel tup
      = .ok (List.zipWith (fun att t => t.map (sv.shown att)) rel.rdAtt texts) := by
  rw [readRow, hdeform, Run.ok_bind]
  dsimp only
  have hcols : ∀ {cols : List (Attribute × Option Mem)} {texts : List (Option (List UInt8))},
      List.Forall₂ (sv.ReadsAs st) cols texts →
      (∀ p ∈ (cols.map Prod.fst).zip texts, p.1.attlen = .varlena → ∀ t ∈ p.2, LiteralsFit t) →
      cols.mapM (sv.readColumn st)
        = .ok (List.zipWith (fun att t => t.map (sv.shown att)) (cols.map Prod.fst) texts) := by
    intro cols texts hcols
    induction hcols with
    | nil => exact fun _ => rfl
    | @cons col t cols texts hcol _ ih =>
      intro hfit
      rw [List.mapM_cons, hcol.readColumn_eq (hfit (col.1, t) List.mem_cons_self), Run.ok_bind,
        ih fun p hp => hfit p (List.mem_cons_of_mem _ hp)]
      rfl
  have hfst : (rel.rdAtt.zip values).map Prod.fst = rel.rdAtt :=
    List.map_fst_zip (Nat.le_of_eq hlength.symm)
  have hrow := hcols hreads (hfst.symm ▸ hfit)
  rwa [hfst] at hrow

end StoreServer

/-! ## One step -/

namespace Tables

variable {sv : StoreServer} {T T' : Tables} {s s' : Session} {rel : HeapRelation}
  {newtup tup : HeapTuple} {values : List (Option Mem)} {texts : List (Option (List UInt8))}

theorem Start.accounted (h : Start sv T) : Accounted sv T ⟨T.store, []⟩ where
  store_eq := rfl
  reachable := ⟨_, ⟨h.normal, h.counter, h.empty, rfl⟩, .refl⟩
  rows := by simp [h.rows]
  live := by simp [h.rows, Session.liveAttrs, Session.live]

namespace Accounted

variable (h : Accounted sv T s)

include h

theorem sound : Session.Sound sv s := h.reachable.sound

/-- What a statement may put into a row stands for its text. -/
theorem brought_of_given {att : Attribute} {m : Mem} {t : List UInt8}
    (hg : Given sv T.rows att m t) : sv.Brought s.live att m t := by
  cases hg with
  | other hlen hfits => exact .value (.other hlen hfits)
  | inPlace hlen ht hreads => exact .value (.inPlace hlen ht)
  | object hlen hsize hexp hflat fits => exact .object hlen hsize hexp hflat fits
  | @copied row values desc i att' m t hlen hrow hdeform hcol hlen' ht =>
    obtain ⟨values', hrow⟩ := h.rows row hrow
    obtain ⟨desc', hdeform'⟩ := hrow.deform
    rw [hdeform] at hdeform'
    cases hdeform'
    obtain ⟨t', ht', hc, -⟩ := exists_forall₂_set hrow.carries hcol
    rw [ht] at ht'
    cases ht'
    cases hc with
    | some hc =>
    cases hc with
    | other hno _ => exact absurd hlen' hno
    | inPlace _ htext => exact .value (.inPlace hlen htext)
    | moved _ hmem hpoints htext => exact .value (.moved hlen hmem hpoints htext)

/-- A row that a statement forms stands for its texts. -/
theorem exists_row_of_formed (hform : Formed sv T.rows rel newtup texts) :
    ∃ values, sv.Row rel s.live newtup values texts := by
  obtain ⟨cols, hatts, hcols, hrun⟩ := hform.formed
  have hcols' : List.Forall₂ (sv.NewColumn s.live) cols texts :=
    hcols.imp fun _ _ hc => rel_mono (fun _ _ => h.brought_of_given) hc
  obtain ⟨values, hrow, -⟩ := StoreServer.exists_row_of_holds hatts hcols'
    ((StoreServer.NewColumn.allFit hcols').holds_of_heapFormTuple_eq hrun)
  exact ⟨values, hrow⟩

/-- **A new list of rows is accounted for** when its pointers are those that are live. -/
theorem of_keeps (hs' : Session.Reachable sv s') (hkeeps : s.Keeps s') (fresh : List TableRow)
    (hfresh : ∀ row ∈ fresh, ∃ values, sv.Row row.rel s'.live row.tup values row.texts)
    {rest : List TableRow} (hrest : rest ⊆ T.rows)
    (hlive : s'.liveAttrs.Perm ((fresh ++ rest).flatMap (pointersOf sv))) :
    Accounted sv ⟨s'.store, fresh ++ rest⟩ s' where
  store_eq := rfl
  reachable := hs'
  rows := by
    intro row hrow
    rcases List.mem_append.mp hrow with hrow | hrow
    · exact hfresh row hrow
    · obtain ⟨values, hr⟩ := h.rows row (hrest hrow)
      refine ⟨values, hr.of_keeps hkeeps fun m hm => ?_⟩
      refine hlive.mem_iff.mpr (List.mem_flatMap.mpr ⟨row, List.mem_append_right _ hrow, ?_⟩)
      rw [show pointersOf sv row = _ from hr.pointersOf_eq]
      exact hm
  live := hlive

/-- The pointers of one row, and of the others. -/
theorem live_perm {old : TableRow} {rest : List TableRow} (hrows : T.rows.Perm (old :: rest)) :
    s.liveAttrs.Perm (pointersOf sv old ++ rest.flatMap (pointersOf sv)) :=
  h.live.trans (hrows.flatMap_right (pointersOf sv))

/-- Inserting. -/
theorem insert (hl : sv.Lossless) (hform : Formed sv T.rows rel newtup texts) {st : Store}
    (hrun : sv.heapPrepareInsert T.store rel newtup = .ok (st, tup)) :
    ∃ s', Accounted sv ⟨st, ⟨rel, tup, texts⟩ :: T.rows⟩ s' := by
  obtain ⟨values, hnew⟩ := h.exists_row_of_formed hform
  rw [← h.store_eq, StoreServer.heapPrepareInsert] at hrun
  split at hrun
  · obtain ⟨s', values', rfl, htoasted⟩ := StoreServer.of_heapToastInsertOrUpdate_eq hl
      hform.ordinary.1 hform.ordinary.2 h.sound hnew
      (show sv.OldRow rel s.live none none from .none) List.nil_subperm hrun
    have hs' := h.reachable.of_steps htoasted.steps
    refine ⟨s', h.of_keeps hs' (htoasted.persists.keeps hs'.sound) [⟨rel, tup, texts⟩]
      (List.forall_mem_singleton.mpr ⟨values', htoasted.row⟩) (List.Subset.refl _) ?_⟩
    rw [List.singleton_append, List.flatMap_cons, htoasted.row.pointersOf_eq]
    have hlive := htoasted.live
    rw [show sv.oldRefs rel none = [] from rfl, List.append_nil] at hlive
    exact hlive.trans ((h.live.append_right _).trans List.perm_append_comm)
  · rename_i hsmall
    rw [not_or, Bool.not_eq_true] at hsmall
    cases hrun
    refine ⟨s, h.of_keeps h.reachable ((Session.Persists.refl s).keeps h.sound) [⟨rel, newtup, texts⟩]
      (List.forall_mem_singleton.mpr ⟨values, hnew⟩) (List.Subset.refl _) ?_⟩
    rw [List.singleton_append, List.flatMap_cons, hnew.pointersOf_eq, hnew.rowRefs_eq_nil hsmall.1]
    exact h.live

/-- Updating. -/
theorem update (hl : sv.Lossless) {old : TableRow} {rest : List TableRow}
    (hrows : T.rows.Perm (old :: rest)) (hform : Formed sv T.rows old.rel newtup texts) {st : Store}
    (hrun : sv.heapUpdateToast T.store old.rel old.tup newtup = .ok (st, tup)) :
    ∃ s', Accounted sv ⟨st, ⟨old.rel, tup, texts⟩ :: rest⟩ s' := by
  obtain ⟨values, hnew⟩ := h.exists_row_of_formed hform
  obtain ⟨oldvalues, hold⟩ := h.rows old (hrows.mem_iff.mpr List.mem_cons_self)
  have hrest : rest ⊆ T.rows := fun row hrow => hrows.mem_iff.mpr (List.mem_cons_of_mem _ hrow)
  have hlive₀ := h.live_perm hrows
  rw [show pointersOf sv old = _ from hold.pointersOf_eq] at hlive₀
  rw [← h.store_eq, StoreServer.heapUpdateToast] at hrun
  split at hrun
  · obtain ⟨s', values', rfl, htoasted⟩ := StoreServer.of_heapToastInsertOrUpdate_eq hl
      hform.ordinary.1 hform.ordinary.2 h.sound hnew
      (show sv.OldRow old.rel s.live (some old.tup) (some oldvalues) from .some ⟨_, hold⟩)
      ((List.sublist_append_left _ _).subperm.trans hlive₀.symm.subperm) hrun
    have hs' := h.reachable.of_steps htoasted.steps
    refine ⟨s', h.of_keeps hs' (htoasted.persists.keeps hs'.sound) [⟨old.rel, tup, texts⟩]
      (List.forall_mem_singleton.mpr ⟨values', htoasted.row⟩) hrest ?_⟩
    rw [List.singleton_append, List.flatMap_cons, htoasted.row.pointersOf_eq]
    -- the pointers of the old row go on both sides
    have hlive : (s'.liveAttrs ++ sv.rowRefs old.rel oldvalues).Perm
        (s.liveAttrs ++ sv.rowRefs old.rel values') := htoasted.live
    rw [List.perm_iff_count] at hlive hlive₀ ⊢
    intro m
    have := hlive m
    have := hlive₀ m
    simp only [List.count_append] at *
    omega
  · rename_i hsmall
    rw [not_or, not_or, Bool.not_eq_true, Bool.not_eq_true] at hsmall
    cases hrun
    refine ⟨s, h.of_keeps h.reachable ((Session.Persists.refl s).keeps h.sound)
      [⟨old.rel, newtup, texts⟩] (List.forall_mem_singleton.mpr ⟨values, hnew⟩) hrest ?_⟩
    rw [hold.rowRefs_eq_nil hsmall.1] at hlive₀
    rw [List.singleton_append, List.flatMap_cons, hnew.pointersOf_eq,
      hnew.rowRefs_eq_nil hsmall.2.1]
    exact hlive₀

/-- Deleting, which always succeeds. -/
theorem exists_delete {old : TableRow} {rest : List TableRow} (hrows : T.rows.Perm (old :: rest))
    (isSpeculative : Bool) :
    ∃ s', sv.heapDeleteToast T.store old.rel old.tup isSpeculative = .ok s'.store
      ∧ Accounted sv ⟨s'.store, rest⟩ s' := by
  obtain ⟨oldvalues, hold⟩ := h.rows old (hrows.mem_iff.mpr List.mem_cons_self)
  have hrest : rest ⊆ T.rows := fun row hrow => hrows.mem_iff.mpr (List.mem_cons_of_mem _ hrow)
  have hlive₀ := h.live_perm hrows
  rw [show pointersOf sv old = _ from hold.pointersOf_eq] at hlive₀
  obtain ⟨s', hrun, hsteps, herased, hlive⟩ := h.sound.exists_deleteAll_eq
    ((List.sublist_append_left _ _).subperm.trans hlive₀.symm.subperm) isSpeculative
  have hs' := h.reachable.of_steps hsteps
  rw [← hold.heapDeleteToast_eq, h.store_eq] at hrun
  refine ⟨s', hrun, h.of_keeps hs' (herased.keeps h.sound hs'.sound) [] (List.forall_mem_nil _)
    hrest ?_⟩
  exact (List.perm_append_left_iff _).mp (hlive.symm.trans hlive₀)

/-- Cleaning up. -/
theorem vacuum (relid : ℕ) (keep : ToastRow → Bool) :
    ∃ s', Accounted sv ⟨T.store.vacuum relid keep, T.rows⟩ s' := by
  have hs' := h.reachable.of_steps (.single (.vacuum relid keep))
  have hlive : Session.liveAttrs ⟨s.store.vacuum relid keep,
      s.handles.filter (Handle.survives s.store relid keep)⟩ = s.liveAttrs := by
    rw [Session.liveAttrs, Session.live, List.filter_filter, Session.liveAttrs, Session.live]
    refine congrArg (List.map Handle.attr) (List.filter_congr fun g hg => ?_)
    cases hlive : g.live with
    | false => rfl
    | true => rw [h.sound.survives_of_live hg hlive relid keep, Bool.and_true]
  rw [← h.store_eq]
  refine ⟨_, h.of_keeps hs' (h.sound.keeps_of_subset fun _ hg => (List.mem_filter.mp hg).1) []
    (List.forall_mem_nil _) (List.Subset.refl _) ?_⟩
  rw [hlive]
  exact h.live

/-- **One step keeps the accounts.** -/
theorem step (hl : sv.Lossless) (hstep : Step sv T T') : ∃ s', Accounted sv T' s' := by
  cases hstep with
  | insert hform hrun => exact h.insert hl hform hrun
  | update hrows hform hrun => exact h.update hl hrows hform hrun
  | @delete old rest st isSpeculative hrows hrun =>
    obtain ⟨s', hrun', hacc⟩ := h.exists_delete hrows isSpeculative
    rw [hrun] at hrun'
    cases hrun'
    exact ⟨s', hacc⟩
  | vacuum relid keep => exact h.vacuum relid keep
  | @counter nextOid hnext =>
    have hs' := h.reachable.of_steps (.single (.counter hnext))
    have hacc := h.of_keeps hs' (h.sound.keeps_of_subset (List.Subset.refl _)) []
      (List.forall_mem_nil _) (List.Subset.refl T.rows) h.live
    rw [← h.store_eq]
    exact ⟨_, hacc⟩

end Accounted

/-! ## Every run -/

/-- **In every run the accounts are kept.** -/
theorem Reachable.exists_accounted (hl : sv.Lossless) (h : Reachable sv T) :
    ∃ s, Accounted sv T s := by
  obtain ⟨T₀, hstart, hrun⟩ := h
  induction hrun with
  | refl => exact ⟨_, hstart.accounted⟩
  | tail _ hstep ih =>
    obtain ⟨s, hs⟩ := ih
    exact hs.step hl hstep

/-- Every column of every row is read as its text, unless that was lost. -/
theorem Reachable.readsAs (hl : sv.Lossless) (h : Reachable sv T) :
    ∀ row ∈ T.rows, ∃ values desc,
      sv.heapDeformTuple row.tup (row.rel.rdAtt.map (·, none)) = .ok (values, desc)
      ∧ values.length = row.rel.rdAtt.length
      ∧ List.Forall₂ (sv.ReadsAs T.store) (row.rel.rdAtt.zip values) row.texts := by
  intro row hrow
  obtain ⟨s, hs⟩ := h.exists_accounted hl
  obtain ⟨values, hr⟩ := hs.rows row hrow
  obtain ⟨desc, hdeform⟩ := hr.deform
  refine ⟨values, desc, hdeform, hr.length_eq, ?_⟩
  exact hs.store_eq ▸ hr.readsAs fun g hg => hs.sound.refers_of_mem_live hg

/-- A long text in a table. -/
theorem exists_reachable_longText : ∃ (T : Tables) (row : TableRow),
    Reachable StoreServer.littleEndianPglz T ∧ row ∈ T.rows ∧ row.rel = StoreServer.textTable
      ∧ row.texts = [some StoreServer.longText] := by
  have hsound : Session.Sound StoreServer.littleEndianPglz Session.oneTable :=
    (Session.oneTable_start OidMode.underPostmaster_normal).sound
  have hcols := StoreServer.forall₂_column_longText Session.oneTable.live
  obtain ⟨newtup, hrun, hholds⟩ := (StoreServer.Column.allFit hcols).exists_heapFormTuple_eq
    (by decide) ((StoreServer.Column.allocSize_le hcols _).trans StoreServer.rowSizeBound_longText)
  obtain ⟨values, hnew, -⟩ := @StoreServer.exists_row_of_holds _ _ StoreServer.textTable _ _ _ rfl
    (hcols.imp fun _ _ hc => hc.newColumn) hholds
  have hform : Formed StoreServer.littleEndianPglz [] StoreServer.textTable newtup
      [some StoreServer.longText] :=
    ⟨⟨rfl, by decide⟩, _, rfl,
      .cons (.some (.inPlace (v := .plain StoreServer.longText StoreServer.longText_fits) rfl
        (StoreServer.text_plain StoreServer.longText_fits)
        (StoreServer.reads_plain StoreServer.longText_fits))) .nil, hrun⟩
  have hrun : ∃ st tup, StoreServer.littleEndianPglz.heapPrepareInsert Session.oneTable.store
      StoreServer.textTable newtup = .ok (st, tup) := by
    rw [StoreServer.heapPrepareInsert]
    split
    · obtain ⟨s', tup, _, hrun, -⟩ := StoreServer.exists_heapToastInsertOrUpdate_eq
        StoreServer.lossless_littleEndianPglz rfl (by decide) hsound hnew
        (.none : StoreServer.littleEndianPglz.OldRow StoreServer.textTable
          Session.oneTable.live none none) List.nil_subperm
        (StoreServer.compressorsReturn_longText (List.forall_mem_singleton.mpr rfl))
        (fun _ => StoreServer.room_oneTable) (StoreServer.plainReadable_of_forall_ne
          (List.forall_mem_singleton.mpr (by decide)) _) StoreServer.rowSizeBound_longText
      exact ⟨_, _, hrun⟩
    · exact ⟨_, _, rfl⟩
  obtain ⟨st, tup, hrun⟩ := hrun
  have hempty : Session.Start StoreServer.littleEndianPglz Session.oneTable :=
    Session.oneTable_start OidMode.underPostmaster_normal
  have hstart : Start StoreServer.littleEndianPglz ⟨Session.oneTable.store, []⟩ :=
    ⟨hempty.normal, hempty.counter, hempty.empty, rfl⟩
  exact ⟨_, _, ⟨_, hstart, .single (.insert hform hrun)⟩, List.mem_cons_self, rfl, rfl⟩

/-- **Whatever happens to the tables, a row is read as the texts that were put into it**, or it
is reported as corrupt because of a text that was lost when it was run length encoded. Rows
may be inserted, updated and deleted in any order, copy each other's values, and have
them compressed and moved out of line as the sizes of the rows demand; the toast tables may
be cleaned up at any time. If the literals of all texts of a row fit, nothing is lost. -/
theorem Reachable.readRow_eq_texts (hl : sv.Lossless) (h : Reachable sv T) :
    ∀ row ∈ T.rows, row.texts.length = row.rel.rdAtt.length
      ∧ (∃ values desc,
        sv.heapDeformTuple row.tup (row.rel.rdAtt.map (·, none)) = .ok (values, desc)
        ∧ List.Forall₂ (sv.ReadsAs T.store) (row.rel.rdAtt.zip values) row.texts)
      ∧ (StoreServer.AllLiteralsFit row.rel row.texts → sv.readRow T.store row.rel row.tup
        = .ok (List.zipWith (fun att t => t.map (sv.shown att)) row.rel.rdAtt row.texts)) := by
  intro row hrow
  obtain ⟨values, desc, hdeform, hlength, hreads⟩ := h.readsAs hl row hrow
  refine ⟨?_, ⟨values, desc, hdeform, hreads⟩,
    StoreServer.readRow_eq_of_readsAs hdeform hlength hreads⟩
  rw [← hreads.length_eq, List.length_zip, hlength, Nat.min_self]

theorem allLiteralsFit_longText :
    StoreServer.AllLiteralsFit StoreServer.textTable [some StoreServer.longText] := by
  intro p hp _ t ht
  obtain ⟨att, x⟩ := p
  obtain rfl := List.mem_singleton.mp (List.of_mem_zip hp).2
  cases ht
  decide +kernel

/-- A long text is read. -/
theorem Reachable.readRow_eq_texts_longText : ∃ (T : Tables) (row : TableRow),
    row ∈ T.rows ∧ StoreServer.littleEndianPglz.readRow T.store row.rel row.tup
      = .ok [some (StoreServer.littleEndianPglz.plainDatum StoreServer.longText)] := by
  obtain ⟨T, row, hT, hrow, hrel, htexts⟩ := exists_reachable_longText
  have hread := (hT.readRow_eq_texts StoreServer.lossless_littleEndianPglz row hrow).2.2
  rw [hrel, htexts] at hread
  exact ⟨T, row, hrow, hrel ▸ hread allLiteralsFit_longText⟩

/-- **The toast tables hold what the rows need, and nothing else.** No pointer is in two rows,
or in two columns of one; every chunk that is alive belongs to a pointer of a row; and the
values of a row can be deleted at any time. -/
theorem Reachable.pointers_owned (hl : sv.Lossless) (h : Reachable sv T) :
    (T.rows.flatMap (pointersOf sv)).Nodup
    ∧ (∀ relid rel, T.store.rels relid = some rel → ∀ chunk ∈ rel.rows, chunk.dead = false →
      ∃ row ∈ T.rows, ∃ m ∈ pointersOf sv row, ∃ p, sv.varattExternalGetPointer m = .ok p
        ∧ p.vaToastrelid = relid ∧ p.vaValueid = chunk.chunkId)
    ∧ ∀ row ∈ T.rows, ∀ isSpeculative,
      ∃ st, sv.heapDeleteToast T.store row.rel row.tup isSpeculative = .ok st := by
  obtain ⟨s, hs⟩ := h.exists_accounted hl
  refine ⟨hs.live.nodup_iff.mp hs.sound.nodup_liveAttrs, ?_, ?_⟩
  · intro relid rel hrel chunk hchunk halive
    obtain ⟨g, hg, hlive, hkey⟩ := hs.sound.owned relid rel (hs.store_eq ▸ hrel) chunk hchunk halive
    have hmem : g.attr ∈ T.rows.flatMap (pointersOf sv) := hs.live.mem_iff.mp
      (Session.mem_liveAttrs.mpr ⟨g, Session.mem_live.mpr ⟨hg, hlive⟩, rfl⟩)
    obtain ⟨row, hrow, hm⟩ := List.mem_flatMap.mp hmem
    refine ⟨row, hrow, g.attr, hm, _, (hs.sound.refers g hg).varattExternalGetPointer_eq, ?_, ?_⟩
    · exact congrArg Prod.fst hkey
    · exact congrArg Prod.snd hkey
  · intro row hrow isSpeculative
    obtain ⟨before, after, hsplit⟩ := List.append_of_mem hrow
    obtain ⟨s', hrun, -⟩ := hs.exists_delete (hsplit ▸ List.perm_middle) isSpeculative
    exact ⟨s'.store, hrun⟩

/-- With a long text. -/
theorem Reachable.pointers_owned_longText : ∃ T : Tables, T.rows ≠ []
    ∧ (T.rows.flatMap (pointersOf StoreServer.littleEndianPglz)).Nodup
    ∧ (∀ relid rel, T.store.rels relid = some rel → ∀ chunk ∈ rel.rows, chunk.dead = false →
      ∃ row ∈ T.rows, ∃ m ∈ pointersOf StoreServer.littleEndianPglz row,
        ∃ p, StoreServer.littleEndianPglz.varattExternalGetPointer m = .ok p
          ∧ p.vaToastrelid = relid ∧ p.vaValueid = chunk.chunkId)
    ∧ ∀ row ∈ T.rows, ∀ isSpeculative, ∃ st,
      StoreServer.littleEndianPglz.heapDeleteToast T.store row.rel row.tup isSpeculative
        = .ok st := by
  obtain ⟨T, row, hT, hrow, -⟩ := exists_reachable_longText
  exact ⟨T, List.ne_nil_of_mem hrow, hT.pointers_owned StoreServer.lossless_littleEndianPglz⟩

end Tables
