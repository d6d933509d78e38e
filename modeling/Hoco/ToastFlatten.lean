import Hoco.ToastTable

/-!
# Rows without toast tables

A row that leaves its table must not take pointers along: `toast_flatten_tuple` and
`toast_build_flattened_tuple` replace them by what they point to, for the caches, and
`toast_flatten_tuple_to_datum`, which makes a composite value of a row, decompresses the
values as well. The loops of the three differ in which values they replace, and by what
(`flattenColumn`), and in how the row is formed afterwards.

What is to be shown is that such a row is one by itself: it is read as the row it was made
from was read, in whatever state the toast tables are by then
(`Flattens.exists_flattenTuple_eq`). In the terms of `Column`, its values stand for the texts
without any pointers.
-/

namespace StoreServer

variable (sv : StoreServer)

/-- One value of the loops: `extended` tells whether it is replaced, by what `detoast` returns. -/
def flattenValue (extended : Mem → Run Bool) (detoast : Mem → Run Mem) (value : Mem) : Run Mem := do
  if ← extended value then detoast value else return value

/-- One turn of the loops. -/
def flattenColumn (extended : Mem → Run Bool) (detoast : Mem → Run Mem)
    (col : Attribute × Option Mem) : Run (Attribute × Option Mem) :=
  col.2.elim (.ok col) fun m =>
    if col.1.attlen = .varlena then (fun m => (col.1, some m)) <$> flattenValue extended detoast m
    else .ok col

/-- The loop, and the row that is formed from the values. -/
def flattenTuple (extended : Mem → Run Bool) (detoast : Mem → Run Mem)
    (form : List (Attribute × Option Mem) → Run HeapTuple)
    (cols : List (Attribute × Option Mem)) : Run HeapTuple := do
  form (← cols.mapM (flattenColumn extended detoast))

/-- `toast_build_flattened_tuple`. -/
def toastBuildFlattenedTuple (st : Store) (cols : List (Attribute × Option Mem)) : Run HeapTuple :=
  flattenTuple sv.varattIsExternal (sv.detoastExternalAttr st) sv.heapFormTuple cols

/-- **`toast_flatten_tuple`.** -/
def toastFlattenTuple (st : Store) (tup : HeapTuple) (atts : List Attribute) : Run HeapTuple := do
  let (values, _) ← sv.heapDeformTuple tup (atts.map (·, none))
  flattenTuple sv.varattIsExternal (sv.detoastExternalAttr st) sv.heapFormTuple (atts.zip values)

/-- Whether a value is out of line or compressed. -/
def isToasted (value : Mem) : Run Bool := do
  if ← sv.varattIsExternal value then return true else sv.varattIsCompressed value

/-- How `toast_flatten_tuple_to_datum` forms a row, without what goes before the header. -/
def formDatum (cols : List (Attribute × Option Mem)) : Run HeapTuple :=
  sv.buildTuple 0 (cols.any fun col => col.2.isNone) cols

/-- **`toast_flatten_tuple_to_datum`.** -/
def toastFlattenTupleToDatum (st : Store) (tup : HeapTuple) (atts : List Attribute) :
    Run HeapTuple := do
  let (values, _) ← sv.heapDeformTuple tup (atts.map (·, none))
  flattenTuple sv.isToasted (sv.overStore st).detoastAttr sv.formDatum (atts.zip values)

/-- **A row that can do without toast tables**: it has no pointers, and whatever the tables
are like, it is read as another one was. -/
structure FlatRow (st : Store) (rel : HeapRelation) (tup flat : HeapTuple) : Prop where
  hasexternal : flat.hasexternal = false
  reads : ∀ st', sv.readRow st' rel flat = sv.readRow st rel tup

/-- No value of a row is compressed. -/
def NoneCompressed (rel : HeapRelation) (flat : HeapTuple) : Prop :=
  ∃ values desc, sv.heapDeformTuple flat (rel.rdAtt.map (·, none)) = .ok (values, desc)
    ∧ ∀ col ∈ rel.rdAtt.zip values, col.1.attlen = .varlena →
      ∀ m ∈ col.2, sv.varattIsCompressed m = .ok false

variable {sv} {hs : List Handle} {st : Store} {rel : HeapRelation} {tup : HeapTuple}
  {values : List (Option Mem)} {texts : List (Option (List UInt8))}
  {cols : List (Attribute × Option Mem)}

/-! ## The values -/

/-- **What takes the place of a value**: a value in place with its text, that is read as the
value was, and of a kind that depends on the loop. It may be that this can be had of some
values only. -/
def Flattens (sv : StoreServer) (hs : List Handle) (st : Store) (extended : Mem → Run Bool)
    (detoast : Mem → Run Mem) (able : Mem → Prop) (kind : Value → Prop) : Prop :=
  ∀ (att : Attribute) (m : Mem) (t : List UInt8), att.attlen = .varlena → sv.Carries hs att m t →
    able m → ∃ v : Value, flattenValue extended detoast m = .ok (v.datum sv.toServer)
      ∧ sv.Text v t ∧ sv.detoastAttr (v.datum sv.toServer) = sv.pgDetoastDatum st m ∧ kind v

section

variable (hrefers : ∀ h ∈ hs, sv.Refers st h.attr h.value h.valueid h.relid)

include hrefers

/-- `toast_flatten_tuple` replaces pointers by what was moved out. -/
theorem flattens_detoastExternalAttr :
    sv.Flattens hs st sv.varattIsExternal (sv.detoastExternalAttr st) (fun _ => True)
      fun _ => True := by
  intro att m t hlen hc _
  cases hc with
  | other hne _ => exact absurd hlen hne
  | @inPlace v t _ ht =>
    refine ⟨v, ?_, ht, (pgDetoastDatum_datum v st).symm, trivial⟩
    rw [flattenValue, v.varattIsExternal_datum, Run.ok_bind, if_neg Bool.false_ne_true]
    rfl
  | @moved h t _ hmem hpoints ht =>
    have hread := (hrefers h hmem).pgDetoastDatum_eq
    refine ⟨h.value.unpacked, ?_, ht.unpacked, h.value.detoastAttr_unpacked.trans hread.symm,
      trivial⟩
    rw [flattenValue, (show sv.varattIsExternal h.attr = .ok true from
      hpoints ▸ sv.varattIsExternal_toastPointer _), Run.ok_bind, if_pos rfl]
    exact (hrefers h hmem).detoastExternalAttr_eq

/-- `toast_flatten_tuple_to_datum` leaves nothing compressed, and needs to read everything. -/
theorem flattens_detoastAttr :
    sv.Flattens hs st sv.isToasted (sv.overStore st).detoastAttr
      (fun m => ∃ d, sv.pgDetoastDatum st m = .ok d) fun v => v.method = none := by
  intro att m t hlen hc ⟨d, hable⟩
  cases hc with
  | other hne _ => exact absurd hlen hne
  | @inPlace v t _ ht =>
    rw [pgDetoastDatum_datum] at hable ⊢
    have hreads := ht.reads_of_eq_ok hable
    have htest : sv.isToasted (v.datum sv.toServer) = .ok v.method.isSome := by
      rw [isToasted, v.varattIsExternal_datum, Run.ok_bind, if_neg Bool.false_ne_true]
      exact v.varattIsCompressed_datum sv.toServer
    rw [flattenValue, htest, Run.ok_bind]
    cases hmethod : v.method with
    | none => exact ⟨v, rfl, ht, rfl, hmethod⟩
    | some method =>
      refine ⟨.plain t ht.fits, ?_, text_plain ht.fits, ?_, rfl⟩
      · exact (detoastAttr_overStore_datum v st).trans hreads
      · exact (reads_plain ht.fits).trans hreads.symm
  | @moved h t _ hmem hpoints ht =>
    have hrefers' := hrefers h hmem
    rw [hrefers'.pgDetoastDatum_eq] at hable ⊢
    have hreads := ht.reads_of_eq_ok hable
    refine ⟨.plain t ht.fits, ?_, text_plain ht.fits, (reads_plain ht.fits).trans hreads.symm, rfl⟩
    rw [flattenValue, isToasted, (show sv.varattIsExternal h.attr = .ok true from
      hpoints ▸ sv.varattIsExternal_toastPointer _), Run.ok_bind, if_pos rfl]
    exact hrefers'.detoastAttr_eq.trans hreads

end

/-! ## The columns -/

/-- **What the loop makes of a column**: the value stands for the text without any pointers,
and is read as before. -/
structure FlatColumn (sv : StoreServer) (st : Store) (kind : Value → Prop)
    (col flat : Attribute × Option Mem) (t : Option (List UInt8)) : Prop where
  att_eq : flat.1 = col.1
  column : sv.Column [] flat t
  reads : ∀ st', sv.readColumn st' flat = sv.readColumn st col
  kind : flat.1.attlen = .varlena → ∀ m ∈ flat.2, ∃ v : Value, m = v.datum sv.toServer ∧ kind v

section

variable {extended : Mem → Run Bool} {detoast : Mem → Run Mem} {able : Mem → Prop}
  {kind : Value → Prop} (h : sv.Flattens hs st extended detoast able kind)

include h

/-- One turn of the loop. -/
theorem Flattens.exists_flattenColumn_eq {col : Attribute × Option Mem} {t : Option (List UInt8)}
    (hcol : sv.Column hs col t) (hable : col.1.attlen = .varlena → ∀ m ∈ col.2, able m) :
    ∃ flat, flattenColumn extended detoast col = .ok flat ∧ sv.FlatColumn st kind col flat t := by
  obtain ⟨att, value⟩ := col
  cases hcol with
  | none => exact ⟨_, rfl, rfl, .none, fun _ => rfl, fun _ _ hm => by cases hm⟩
  | @some m t hc =>
    by_cases hlen : att.attlen = .varlena
    · obtain ⟨v, hrun, ht, hread, hv⟩ := h att m t hlen hc (hable hlen m rfl)
      refine ⟨(att, some (v.datum sv.toServer)), ?_, rfl, .some (.inPlace hlen ht), fun st' => ?_,
        fun _ m hm => ?_⟩
      · rw [flattenColumn, Option.elim_some, if_pos hlen, hrun]
        rfl
      · simp only [readColumn, if_pos hlen, pgDetoastDatum_datum, hread]
      · cases hm
        exact ⟨v, rfl, hv⟩
    · refine ⟨(att, some m), if_neg hlen, rfl, ?_, fun st' => ?_, fun h => absurd h hlen⟩
      · cases hc with
        | other _ hfits => exact .some (.other hlen hfits)
        | inPlace h _ => exact absurd h hlen
        | moved h _ _ _ => exact absurd h hlen
      · simp only [readColumn, if_neg hlen]

/-- **The loop.** -/
theorem Flattens.exists_mapM_eq (hcols : List.Forall₂ (sv.Column hs) cols texts)
    (hable : ∀ col ∈ cols, col.1.attlen = .varlena → ∀ m ∈ col.2, able m) :
    ∃ flats, cols.mapM (flattenColumn extended detoast) = .ok flats
      ∧ flats.map Prod.fst = cols.map Prod.fst ∧ List.Forall₂ (sv.Column []) flats texts
      ∧ (∀ st', flats.map (sv.readColumn st') = cols.map (sv.readColumn st))
      ∧ ∀ flat ∈ flats, flat.1.attlen = .varlena →
        ∀ m ∈ flat.2, ∃ v : Value, m = v.datum sv.toServer ∧ kind v := by
  induction hcols with
  | nil =>
    exact ⟨[], rfl, rfl, .nil, fun _ => List.map_nil.trans List.map_nil.symm,
      List.forall_mem_nil _⟩
  | @cons col t cols texts hcol _ ih =>
    obtain ⟨rest, hrest, hatts, hflat, hreads, hkind⟩ :=
      ih fun c hc => hable c (List.mem_cons_of_mem _ hc)
    obtain ⟨flat, hrun, hone⟩ := h.exists_flattenColumn_eq hcol (hable col List.mem_cons_self)
    refine ⟨flat :: rest, ?_, congrArg₂ (· :: ·) hone.att_eq hatts, .cons hone.column hflat,
      fun st' => congrArg₂ (· :: ·) (hone.reads st') (hreads st'),
      List.forall_mem_cons.mpr ⟨hone.kind, hkind⟩⟩
    rw [List.mapM_cons, hrun, Run.ok_bind, hrest]
    rfl

end

/-- What is in place without any pointers has none. -/
theorem refs_eq_nil_of_forall₂ (hcols : List.Forall₂ (sv.Column []) cols texts) :
    sv.refs cols = [] := by
  induction hcols with
  | nil => rfl
  | @cons col t cols texts hcol _ ih =>
    obtain ⟨att, value⟩ := col
    rw [refs, List.flatMap_cons, List.append_eq_nil_iff]
    refine ⟨?_, ih⟩
    cases hcol with
    | none => rw [ref_none, Option.toList_none]
    | some hc =>
      cases hc with
      | other hlen _ => rw [ref_of_ne_varlena hlen, Option.toList_none]
      | inPlace _ _ => rw [ref_datum, Option.toList_none]
      | moved _ hmem _ _ => cases hmem

/-- A value in place is stored as one, and a short header is the only change. -/
theorem exists_stored_datum (att : Attribute) (v : Value) :
    ∃ v' : Value, sv.stored att (v.datum sv.toServer) = v'.datum sv.toServer
      ∧ v'.method = v.method
      ∧ sv.detoastAttr (v'.datum sv.toServer) = sv.detoastAttr (v.datum sv.toServer) := by
  have hstored := Server.stored_of_not_expanded
    (@Server.not_object sv.toServer _ v.startsExpanded_datum att)
  split at hstored
  · rename_i hpack
    simp only [Bool.and_eq_true, decide_eq_true_eq, v.startsPlain_datum] at hpack
    obtain ⟨t, fits, rfl⟩ : ∃ t fits, v = .plain t fits := by
      cases v with
      | plain t fits => exact ⟨t, fits, rfl⟩
      | short t fits => cases hpack.2.1
      | compressed method rawsize payload known raw saves => cases hpack.2.1
    have hshort : t.length ≤ 126 := by
      have hle := hpack.2.2
      rw [Value.length_datum] at hle
      simp only [Value.stored, Value.headerLength] at hle
      omega
    have hdrop : ((Value.plain t fits).datum sv.toServer).drop 4 = t := by
      rw [Value.datum, Server.plainDatum]
      exact List.drop_left' (sv.wordBytes_length _)
    rw [hdrop] at hstored
    refine ⟨.short t hshort, hstored, rfl, ?_⟩
    exact ((Value.short t hshort).detoastAttr_datum sv.toServer).trans
      ((Value.plain t fits).detoastAttr_datum sv.toServer).symm
  · exact ⟨v, hstored, rfl, rfl⟩

/-- Columns without pointers are read as they were before they got short headers. -/
theorem readColumn_stored (hcols : List.Forall₂ (sv.Column []) cols texts) (st : Store) :
    (sv.storedColumns cols).map (sv.readColumn st) = cols.map (sv.readColumn st) := by
  induction hcols with
  | nil => rfl
  | @cons col t cols texts hcol _ ih =>
    refine congrArg₂ (· :: ·) ?_ ih
    obtain ⟨att, value⟩ := col
    cases hcol with
    | none => rfl
    | some hc =>
      cases hc with
      | other hlen hfits =>
        simp only [Option.map_some]
        rw [Server.stored_of_ne_varlena hlen]
      | @inPlace v t hlen ht =>
        obtain ⟨v', hstored, -, hread⟩ := @exists_stored_datum sv att v
        simp only [Option.map_some, readColumn, if_pos hlen]
        rw [hstored, pgDetoastDatum_datum, pgDetoastDatum_datum, hread]
      | moved _ hmem _ _ => cases hmem

/-- A row is read column by column. -/
theorem readRow_eq_mapM {desc : TupleDesc}
    (hdeform : sv.heapDeformTuple tup (rel.rdAtt.map (·, none)) = .ok (values, desc)) :
    sv.readRow st rel tup = ((rel.rdAtt.zip values).map (sv.readColumn st)).mapM id := by
  rw [readRow, hdeform, Run.ok_bind, List.mapM_map]
  rfl

/-! ## The row -/

/-- **A flattened row is read by itself as the row was**, if it can be formed. -/
theorem Flattens.exists_flattenTuple_eq {extended : Mem → Run Bool} {detoast : Mem → Run Mem}
    {able : Mem → Prop} {kind : Value → Prop} (h : sv.Flattens hs st extended detoast able kind)
    (hrow : sv.Row rel hs tup values texts)
    (hable : ∀ col ∈ rel.rdAtt.zip values, col.1.attlen = .varlena → ∀ m ∈ col.2, able m)
    {form : List (Attribute × Option Mem) → Run HeapTuple}
    (hform : ∀ {cols}, cols.map Prod.fst = rel.rdAtt → List.Forall₂ (sv.Column []) cols texts →
      ∃ flat, form cols = .ok flat ∧ sv.Holds flat cols) :
    ∃ flat, flattenTuple extended detoast form (rel.rdAtt.zip values) = .ok flat
      ∧ sv.FlatRow st rel tup flat
      ∧ ((∀ v, kind v → v.method = none) → sv.NoneCompressed rel flat) := by
  obtain ⟨flats, hloop, hatts, hflat, hreads, hkind⟩ := h.exists_mapM_eq hrow.carries hable
  rw [List.map_fst_zip (Nat.le_of_eq hrow.length_eq.symm)] at hatts
  obtain ⟨flat, hformed, hholds⟩ := hform hatts hflat
  have hnew : List.Forall₂ (sv.NewColumn []) flats texts := hflat.imp fun _ _ hc => hc.newColumn
  obtain ⟨fvalues, hfrow, hzip⟩ := exists_row_of_holds hatts hnew hholds
  obtain ⟨desc, hdeform⟩ := hrow.deform
  obtain ⟨fdesc, hfdeform⟩ := hfrow.deform
  refine ⟨flat, ?_, ⟨?_, fun st' => ?_⟩, fun hnone => ?_⟩
  · rw [flattenTuple, hloop, Run.ok_bind, hformed]
  · rw [hholds.hasexternal_eq, anyExternal_eq, refs_eq_nil_of_forall₂ hflat]
    rfl
  · rw [readRow_eq_mapM hfdeform, readRow_eq_mapM hdeform, hzip, readColumn_stored hflat, hreads]
  · refine ⟨fvalues, fdesc, hfdeform, fun col hcol hlen m hm => ?_⟩
    rw [hzip] at hcol
    obtain ⟨fcol, hfcol, rfl⟩ := List.mem_map.mp hcol
    obtain ⟨m', hm', rfl⟩ := Option.mem_map.mp hm
    obtain ⟨v, rfl, hv⟩ := hkind fcol hfcol hlen m' hm'
    obtain ⟨v', hstored, hmethod, -⟩ := @exists_stored_datum sv fcol.1 v
    rw [hstored, v'.varattIsCompressed_datum, hmethod, hnone v hv]
    rfl

/-- What can be read of a row can be read of its columns. -/
theorem exists_pgDetoastDatum_of_readRow {desc : TupleDesc}
    (hdeform : sv.heapDeformTuple tup (rel.rdAtt.map (·, none)) = .ok (values, desc))
    {r : List (Option Mem)} (hread : sv.readRow st rel tup = .ok r) :
    ∀ col ∈ rel.rdAtt.zip values, col.1.attlen = .varlena → ∀ m ∈ col.2,
      ∃ d, sv.pgDetoastDatum st m = .ok d := by
  rw [readRow, hdeform, Run.ok_bind] at hread
  dsimp only at hread
  generalize rel.rdAtt.zip values = cols at hread
  induction cols generalizing r with
  | nil => exact List.forall_mem_nil _
  | cons col cols ih =>
    rw [List.mapM_cons] at hread
    obtain ⟨value, hvalue, hread⟩ := Run.bind_eq_ok.mp hread
    obtain ⟨rest, hrest, -⟩ := Run.bind_eq_ok.mp hread
    refine List.forall_mem_cons.mpr ⟨fun hlen m hm => ?_, ih hrest⟩
    have hm' : col.2 = some m := hm
    simp only [readColumn, hm', if_pos hlen] at hvalue
    obtain ⟨d, hd, -⟩ := Run.map_eq_ok.mp hvalue
    exact ⟨d, hd⟩

end StoreServer

/-! ## The rows of tables -/

namespace Tables

variable {sv : StoreServer} {T : Tables}

/-- **A row that was flattened outlives the toast tables.** A row of a table that has no more
columns and is no larger, with all its values in place, than `heap_form_tuple` allows can be
flattened by `toast_flatten_tuple`, and its values by `toast_build_flattened_tuple`. The
result has no pointers, and in every later state of the toast tables, or of others, it is
read as the row is now. If the row can be read at all, this holds for
`toast_flatten_tuple_to_datum` too, which leaves nothing compressed besides. -/
theorem Reachable.exists_flatRow (hl : sv.Lossless) (h : Reachable sv T) :
    ∀ row ∈ T.rows, row.rel.rdAtt.length ≤ Server.maxTupleAttributeNumber →
      Server.heaptuplesize + StoreServer.rowSizeBound row.texts ≤ maxAllocSize →
      (∃ flat, sv.toastFlattenTuple T.store row.tup row.rel.rdAtt = .ok flat
        ∧ sv.FlatRow T.store row.rel row.tup flat)
      ∧ (∃ values desc flat,
        sv.heapDeformTuple row.tup (row.rel.rdAtt.map (·, none)) = .ok (values, desc)
        ∧ sv.toastBuildFlattenedTuple T.store (row.rel.rdAtt.zip values) = .ok flat
        ∧ sv.FlatRow T.store row.rel row.tup flat)
      ∧ ((∃ r, sv.readRow T.store row.rel row.tup = .ok r) →
        ∃ flat, sv.toastFlattenTupleToDatum T.store row.tup row.rel.rdAtt = .ok flat
          ∧ sv.FlatRow T.store row.rel row.tup flat ∧ sv.NoneCompressed row.rel flat) := by
  intro row hrow hnatts hsize
  obtain ⟨s, hs⟩ := h.exists_accounted hl
  obtain ⟨values, hr⟩ := hs.rows row hrow
  obtain ⟨desc, hdeform⟩ := hr.deform
  have hrefers : ∀ g ∈ s.live, sv.Refers T.store g.attr g.value g.valueid g.relid :=
    fun g hg => hs.store_eq ▸ hs.sound.refers_of_mem_live hg
  obtain ⟨flat, hflat, hrow₁, -⟩ :=
    (StoreServer.flattens_detoastExternalAttr hrefers).exists_flattenTuple_eq hr
      (fun _ _ _ _ _ => trivial) fun hatts hcols =>
        (StoreServer.Column.allFit hcols).exists_heapFormTuple_eq
          (by rwa [← hatts, List.length_map] at hnatts)
          ((StoreServer.Column.allocSize_le hcols _).trans hsize)
  refine ⟨⟨flat, ?_, hrow₁⟩, ⟨values, desc, flat, hdeform, hflat, hrow₁⟩, fun ⟨r, hread⟩ => ?_⟩
  · rw [StoreServer.toastFlattenTuple, hdeform, Run.ok_bind]
    exact hflat
  · obtain ⟨datum, hdatum, hrow₂, hnone⟩ :=
      (StoreServer.flattens_detoastAttr hrefers).exists_flattenTuple_eq hr
        (StoreServer.exists_pgDetoastDatum_of_readRow hdeform hread) fun _ hcols =>
          (StoreServer.Column.allFit hcols).exists_buildTuple_eq
            ((StoreServer.Column.allocSize_le hcols 0).trans
              ((Nat.add_le_add_right (Nat.zero_le _) _).trans hsize))
    refine ⟨datum, ?_, hrow₂, hnone fun _ hv => hv⟩
    rw [StoreServer.toastFlattenTupleToDatum, hdeform, Run.ok_bind]
    exact hdatum

/-- A row with a long text. -/
theorem Reachable.exists_flatRow_longText : ∃ (T : Tables) (row : TableRow),
    row ∈ T.rows ∧ row.texts = [some StoreServer.longText]
      ∧ (∃ flat, StoreServer.littleEndianPglz.toastFlattenTuple T.store row.tup row.rel.rdAtt
          = .ok flat ∧ StoreServer.littleEndianPglz.FlatRow T.store row.rel row.tup flat)
      ∧ ∃ flat, StoreServer.littleEndianPglz.toastFlattenTupleToDatum T.store row.tup row.rel.rdAtt
          = .ok flat ∧ StoreServer.littleEndianPglz.FlatRow T.store row.rel row.tup flat
        ∧ StoreServer.littleEndianPglz.NoneCompressed row.rel flat := by
  obtain ⟨T, row, hT, hrow, hrel, htexts⟩ := exists_reachable_longText
  obtain ⟨hflat, -, hdatum⟩ := hT.exists_flatRow StoreServer.lossless_littleEndianPglz row hrow
    (hrel ▸ by decide) (htexts ▸ StoreServer.rowSizeBound_longText)
  obtain ⟨values, desc, hdeform, hlength, hreads⟩ :=
    hT.readsAs StoreServer.lossless_littleEndianPglz row hrow
  refine ⟨T, row, hrow, htexts, hflat, hdatum ⟨_, StoreServer.readRow_eq_of_readsAs hdeform hlength
    hreads ?_⟩⟩
  rw [hrel, htexts]
  exact allLiteralsFit_longText

end Tables
