import Mathlib.Data.Finset.Card
import Hoco.ToasterRounds

/-!
# The toaster keeps every text

`heap_toast_insert_or_update` takes a row apart, looks at its columns, makes it smaller in
four rounds, and puts it together again. What holds when the rounds are over
(`RoundsOver`) does not depend on what the toaster was called for. For a row that is
inserted, or replaces another one, the values that are not needed any more are deleted
afterwards, and what is live in the toast store is accounted for (`Toasted`).
-/

open Rle

namespace StoreServer

variable {sv : StoreServer} {src : Attribute → Handle → Prop} {s s' : Session} {st st' : Store}
  {hs₀ hs : List Handle} {col : ToastColumn} {cols : List ToastColumn}

/-! ## Before and after the rounds -/

/-- **`toast_tuple_cleanup`** deletes what was marked. -/
theorem toastTupleCleanup_eq
    (hneeds : ∀ col ∈ cols, col.needsDeleteOld = true → col.oldvalue.isSome = true) (st : Store) :
    sv.toastTupleCleanup st cols = sv.deleteAll false st (deletedValues cols) := by
  induction cols generalizing st with
  | nil => rfl
  | cons col cols ih =>
    have hneeds' := fun c hc => hneeds c (List.mem_cons_of_mem _ hc)
    rw [toastTupleCleanup, cleanupColumn, deletedValues, List.flatMap_cons, ToastColumn.deleted]
    cases hneed : col.needsDeleteOld with
    | false => exact ih hneeds' st
    | true =>
      obtain ⟨m, hm⟩ := Option.isSome_iff_exists.mp (hneeds col List.mem_cons_self hneed)
      rw [if_pos rfl, if_pos rfl, hm, Option.elim_some]
      exact congrArg (sv.toastDeleteDatum st m false >>= ·) (funext fun st => ih hneeds' st)

/-- The pointers that a row of a table has. -/
def rowRefs (sv : StoreServer) (rel : HeapRelation) (values : List (Option Mem)) : List Mem :=
  sv.refs (rel.rdAtt.zip values)

/-- What is read off the columns that the toaster starts with. -/
theorem map_zip_zip {atts : List Attribute} {olds : List (Option (Option Mem))}
    {values : List (Option Mem)} (holds : olds.length = atts.length)
    (hvalues : values.length = atts.length) :
    (atts.zip (olds.zip values)).map Prod.fst = atts
      ∧ (atts.zip (olds.zip values)).map (fun col => col.2.2) = values
      ∧ (atts.zip (olds.zip values)).map (fun col => (col.1, col.2.1.join))
        = atts.zip (olds.map Option.join) := by
  induction atts generalizing olds values with
  | nil =>
    obtain rfl := List.length_eq_zero_iff.mp hvalues
    exact ⟨rfl, rfl, rfl⟩
  | cons att atts ih =>
    obtain ⟨old, olds, rfl⟩ := List.exists_cons_of_length_eq_add_one holds
    obtain ⟨value, values, rfl⟩ := List.exists_cons_of_length_eq_add_one hvalues
    obtain ⟨h₁, h₂, h₃⟩ := ih (Nat.succ.inj holds) (Nat.succ.inj hvalues)
    exact ⟨congrArg (att :: ·) h₁, congrArg (value :: ·) h₂, congrArg ((att, old.join) :: ·) h₃⟩

/-- The columns that the toaster starts with. -/
theorem forall₂_inputOk {atts : List Attribute} {olds : List (Option (Option Mem))}
    {values : List (Option Mem)} {texts : List (Option (List UInt8))}
    (holds : olds.length = atts.length) (hvalues : values.length = atts.length)
    (hnew : List.Forall₂ (sv.Column hs₀) (atts.zip values) texts)
    (hold : ∀ p ∈ atts.zip olds, ∀ m ∈ p.2.join, hs₀ ⊆ hs ∧ ∃ t, sv.Carries hs₀ p.1 m t)
    (hsrc : ∀ col ∈ atts.zip values, ∀ h ∈ hs₀, sv.ref col.1 col.2 = some h.attr → src col.1 h) :
    List.Forall₂ (sv.InputOk src hs₀ hs) (atts.zip (olds.zip values)) texts := by
  induction atts generalizing olds values texts with
  | nil =>
    cases hnew
    exact .nil
  | cons att atts ih =>
    obtain ⟨old, olds, rfl⟩ := List.exists_cons_of_length_eq_add_one holds
    obtain ⟨value, values, rfl⟩ := List.exists_cons_of_length_eq_add_one hvalues
    rw [List.zip_cons_cons] at hnew hsrc
    cases hnew with
    | cons hcol hrest =>
    rw [List.zip_cons_cons, List.zip_cons_cons]
    refine .cons ⟨hold (att, old) List.mem_cons_self, hcol,
      hsrc (att, value) List.mem_cons_self⟩ (ih ?_ ?_ hrest ?_ ?_)
    · exact Nat.succ.inj holds
    · exact Nat.succ.inj hvalues
    · exact fun p hp => hold p (List.mem_cons_of_mem _ hp)
    · exact fun p hp => hsrc p (List.mem_cons_of_mem _ hp)

section

variable {rel : HeapRelation} {saver : sv.Saver rel.toRelation src} {task : ToastTask}
  {ts : ToastState} {newtup tup : HeapTuple} {olds : List (Option (Option Mem))}
  {values : List (Option Mem)} {texts : List (Option (List UInt8))}

/-- **What the rounds start with.** -/
theorem InitialRow.toasting {input : List (Attribute × Option (Option Mem) × Option Mem)}
    {r : List ToastColumn × Bool × Bool} (h : sv.InitialRow src s.live input texts r)
    (hworld : saver.World s st) :
    Toasting saver ⟨s, st, texts, r.1.map ToastColumn.frame, input.map fun col => col.2.2,
      sv.refs (r.1.map ToastColumn.entry)⟩ s ⟨st, r.1, r.2.2⟩ where
  world := hworld
  columns := h.columns
  frame_eq := rfl
  unchanged := h.unchanged
  grown := ⟨[], [], rfl, List.forall_mem_nil _, fun _ => rfl, .refl _⟩
  room := fun _ hroom => saver.room_mono hroom (Nat.le_add_right _ _)

/-- What the rounds leave as it was. -/
theorem Toasting.frame_facts (h : Toasting saver task s ts)
    (hframes : task.frames = cols.map ToastColumn.frame) :
    (ts.cols.map ToastColumn.entry).map Prod.fst = cols.map ToastColumn.att
      ∧ ((ts.cols.map ToastColumn.entry).any fun col => col.2.isNone)
        = ((cols.map fun col => col.value.isNone).any id)
      ∧ deletedValues ts.cols = deletedValues cols
      ∧ ((∀ col ∈ cols, col.needsDeleteOld = true → col.oldvalue.isSome = true) →
        ∀ col ∈ ts.cols, col.needsDeleteOld = true → col.oldvalue.isSome = true) := by
  have hframe := h.frame_eq.trans hframes
  -- every field of the frames
  have hfield : ∀ {α : Type} (f : Attribute × (Bool × Option Mem) × Bool → α),
      ts.cols.map (fun col => f col.frame) = cols.map (fun col => f col.frame) := by
    intro α f
    have := congrArg (List.map f) hframe
    rwa [List.map_map, List.map_map] at this
  refine ⟨?_, ?_, ?_, fun hneeds col hcol hneed => ?_⟩
  · rw [List.map_map]
    exact hfield Prod.fst
  · rw [List.any_map, List.any_map]
    have hnull := congrArg (List.any · id) (hfield fun f => f.2.2)
    simp only [List.any_map] at hnull
    exact hnull
  · have hdel := congrArg List.flatten
      (hfield fun f => (if f.2.1.1 then f.2.1.2 else none).toList)
    rw [← List.flatMap_def, ← List.flatMap_def] at hdel
    exact hdel
  · have hmem : col.frame ∈ cols.map ToastColumn.frame := hframe ▸ List.mem_map_of_mem hcol
    obtain ⟨c, hc, hceq⟩ := List.mem_map.mp hmem
    have hold : (c.needsDeleteOld, c.oldvalue) = (col.needsDeleteOld, col.oldvalue) :=
      congrArg (fun f => f.2.1) hceq
    obtain ⟨hn, ho⟩ := Prod.mk.inj hold
    exact ho ▸ hneeds c hc (hn.trans hneed)

/-- The row that is stored holds the columns, or nothing has been done. -/
def Result (sv : StoreServer) (rel : HeapRelation) (newtup : HeapTuple) (values : List (Option Mem))
    (entries : List (Attribute × Option Mem)) (tup : HeapTuple) (values' : List (Option Mem)) :
    Prop :=
  sv.Holds tup entries ∧ rel.rdAtt.zip values' = sv.storedColumns entries
    ∨ tup = newtup ∧ values' = values ∧ entries = rel.rdAtt.zip values

/-- **The row that is stored.** -/
theorem Toasting.of_resultTuple_eq (h : Toasting saver task s ts)
    (hnew : sv.Row rel hs₀ newtup task.values task.texts)
    (hatts : (ts.cols.map ToastColumn.entry).map Prod.fst = rel.rdAtt) {hasNulls : Bool}
    (hnulls : ((ts.cols.map ToastColumn.entry).any fun col => col.2.isNone) = hasNulls)
    (hrun : sv.resultTuple hasNulls newtup ts = .ok tup) :
    ∃ values, sv.Row rel s.live tup values task.texts
      ∧ sv.rowRefs rel values = sv.refs (ts.cols.map ToastColumn.entry)
      ∧ sv.Result rel newtup task.values (ts.cols.map ToastColumn.entry) tup values := by
  have hcols := h.forall₂_column
  have hcols' : List.Forall₂ (sv.NewColumn s.live) (ts.cols.map ToastColumn.entry) task.texts :=
    hcols.imp fun _ _ hc => hc.newColumn
  cases hchange : ts.needsChange with
  | true =>
    rw [resultTuple, hchange, if_pos rfl, ← hnulls] at hrun
    have hholds := (Column.allFit hcols).holds_of_buildTuple_eq hrun
    obtain ⟨values, hrow, hzip⟩ := exists_row_of_holds hatts hcols' hholds
    refine ⟨values, hrow, ?_, Or.inl ⟨hholds, hzip⟩⟩
    rw [rowRefs, hzip]
    exact (NewColumn.stored hcols').2
  | false =>
    rw [resultTuple, hchange] at hrun
    cases hrun
    have hentries : ts.cols.map ToastColumn.entry = rel.rdAtt.zip task.values := by
      rw [← hatts, ← h.unchanged hchange, List.map_map, List.zip_map']
      rfl
    refine ⟨task.values, ⟨hnew.deform, hnew.length_eq, ?_, hnew.external⟩, ?_,
      Or.inr ⟨rfl, rfl, hentries⟩⟩
    · rw [← hentries]
      exact hcols
    · rw [rowRefs, hentries]

/-- It can be formed, if it is not too large. -/
theorem Toasting.exists_resultTuple_eq (h : Toasting saver task s ts) {hasNulls : Bool}
    (hnulls : ((ts.cols.map ToastColumn.entry).any fun col => col.2.isNone) = hasNulls)
    (hsize : Server.heaptuplesize + rowSizeBound task.texts ≤ maxAllocSize) (newtup : HeapTuple) :
    ∃ tup, sv.resultTuple hasNulls newtup ts = .ok tup := by
  have hcols := h.forall₂_column
  unfold resultTuple
  split
  · obtain ⟨tup, htup, -⟩ := (Column.allFit hcols).exists_buildTuple_eq
      ((Column.allocSize_le hcols Server.heaptuplesize).trans hsize)
    exact ⟨tup, hnulls ▸ htup⟩
  · exact ⟨newtup, rfl⟩

/-! ## When the rounds are over -/

/-- **What holds when the rounds are over**: the row stands for its texts; what it refers to
has been kept or saved; and the pointers of the old row are kept or about to be deleted. -/
structure RoundsOver (saver : sv.Saver rel.toRelation src) (s : Session) (st : Store)
    (newtup : HeapTuple) (olds : List (Option (Option Mem))) (values : List (Option Mem))
    (texts : List (Option (List UInt8))) (s' : Session) (ts : ToastState) (tup : HeapTuple)
    (values' : List (Option Mem)) : Prop where
  toasting : ∃ kept,
    Toasting saver ⟨s, st, texts, ts.cols.map ToastColumn.frame, values, kept⟩ s' ts
    ∧ (sv.refs (rel.rdAtt.zip (olds.map Option.join))).Perm (kept ++ deletedValues ts.cols)
  needs : ∀ col ∈ ts.cols, col.needsDeleteOld = true → col.oldvalue.isSome = true
  atts_eq : (ts.cols.map ToastColumn.entry).map Prod.fst = rel.rdAtt
  row : sv.Row rel s'.live tup values' texts
  refs_eq : sv.rowRefs rel values' = sv.refs (ts.cols.map ToastColumn.entry)
  result : sv.Result rel newtup values (ts.cols.map ToastColumn.entry) tup values'
  nulls_eq : ((ts.cols.map ToastColumn.entry).any fun col => col.2.isNone)
    = values.any Option.isNone
  ends : rel.reltoastrelid ≠ 0 →
    maxDataLen (rel.getToastTupleTarget defaultToastTupleTarget)
        (headerLen (values.any Option.isNone) rel.rdAtt.length)
      ≤ maxDataLen toastTupleTargetMain (headerLen (values.any Option.isNone) rel.rdAtt.length) →
    (sv.DataFits (maxDataLen (rel.getToastTupleTarget defaultToastTupleTarget)
        (headerLen (values.any Option.isNone) rel.rdAtt.length)) ts
      ∨ sv.Settled false false ts.cols)
    ∧ (sv.DataFits (maxDataLen toastTupleTargetMain
        (headerLen (values.any Option.isNone) rel.rdAtt.length)) ts
      ∨ sv.Settled false true ts.cols)

variable (hl : sv.Lossless)
  (hmain : ¬saver.Fresh → maxDataLen (rel.getToastTupleTarget defaultToastTupleTarget)
      (headerLen (values.any Option.isNone) rel.rdAtt.length)
    ≤ maxDataLen toastTupleTargetMain (headerLen (values.any Option.isNone) rel.rdAtt.length))
  (hrefers : ∀ h ∈ hs₀, sv.Refers st h.attr h.value h.valueid h.relid)
  (hworld : saver.World s st) (hnew : sv.Row rel hs₀ newtup values texts)
  (holds : olds.length = rel.rdAtt.length)
  (hinput : List.Forall₂ (sv.InputOk src hs₀ s.live) (rel.rdAtt.zip (olds.zip values)) texts)

include holds hnew in
/-- What the columns that the rounds start with have of the row. -/
theorem InitialRow.facts {r : List ToastColumn × Bool × Bool}
    (h : sv.InitialRow src s.live (rel.rdAtt.zip (olds.zip values)) texts r) :
    r.1.map ToastColumn.att = rel.rdAtt ∧ r.2.1 = values.any Option.isNone
      ∧ ((r.1.map fun col => col.value.isNone).any id) = values.any Option.isNone
      ∧ (sv.refs (rel.rdAtt.zip (olds.map Option.join))).Perm
        (sv.refs (r.1.map ToastColumn.entry) ++ deletedValues r.1) := by
  obtain ⟨hfst, hsnd, hjoin⟩ := map_zip_zip holds hnew.length_eq
  have hany : ((rel.rdAtt.zip (olds.zip values)).any fun col => col.2.2.isNone)
      = values.any Option.isNone := by
    rw [← hsnd, List.any_map]
    simp only [hsnd]
    rfl
  refine ⟨h.atts_eq.trans hfst, h.hasNulls_eq.trans hany, ?_, hjoin ▸ h.refs_perm⟩
  rw [h.nulls_eq, List.any_map]
  exact hany

include hl hmain hrefers hworld hnew holds hinput

/-- **From the beginning to the end of the rounds.** -/
theorem exists_roundsOver {r : List ToastColumn × Bool × Bool} {ts : ToastState}
    (hinit : sv.toastTupleInit st (rel.rdAtt.zip (olds.zip values)) = .ok r)
    (hrounds : sv.toastRounds rel (headerLen r.2.1 rel.rdAtt.length) ⟨st, r.1, r.2.2⟩ = .ok ts)
    (hresult : sv.resultTuple r.2.1 newtup ts = .ok tup) :
    ∃ s' values', RoundsOver saver s st newtup olds values texts s' ts tup values' := by
  have hrow := of_toastTupleInit_eq hrefers hinput hinit
  obtain ⟨hatts, hnulls, hany, hrefs⟩ := hrow.facts hnew holds
  have hstart := hrow.toasting hworld
  rw [(map_zip_zip holds hnew.length_eq).2.1] at hstart
  rw [hnulls] at hrounds hresult
  obtain ⟨s', h, hends⟩ := hstart.of_toastRounds_eq hl hmain hrounds
  obtain ⟨hatts', hnulls', hdeleted, hneeds⟩ := h.frame_facts rfl
  rw [hatts] at hatts'
  rw [hany] at hnulls'
  rw [← hdeleted] at hrefs
  obtain ⟨values', hrow', hrefs', hres⟩ := h.of_resultTuple_eq hnew hatts' hnulls' hresult
  refine ⟨s', values', ⟨_, ?_, hrefs⟩, hneeds hrow.needs, hatts', hrow', hrefs', hres, hnulls',
    hends⟩
  rw [h.frame_eq]
  exact h

/-- What has happened when the toaster returns. -/
theorem of_toastRow_eq (hrun : sv.toastRow st rel newtup olds values = .ok (st', tup)) :
    ∃ s' ts values', RoundsOver saver s st newtup olds values texts s' ts tup values'
      ∧ sv.toastTupleCleanup ts.store ts.cols = .ok st' := by
  rw [toastRow] at hrun
  obtain ⟨r, hinit, hrun⟩ := Run.bind_eq_ok.mp hrun
  obtain ⟨ts, hrounds, hrun⟩ := Run.bind_eq_ok.mp hrun
  obtain ⟨tup', hresult, hrun⟩ := Run.bind_eq_ok.mp hrun
  obtain ⟨st'', hcleanup, hrun⟩ := Run.bind_eq_ok.mp hrun
  cases hrun
  obtain ⟨s', values', hover⟩ :=
    exists_roundsOver hl hmain hrefers hworld hnew holds hinput hinit hrounds hresult
  exact ⟨s', ts, values', hover, hcleanup⟩

/-- **Everything up to the end of the rounds succeeds**, if the compressors return, there is
room for as many values as there are columns, the row is not too large to be formed, and
what has to be fetched for a column that is `PLAIN` can be read. -/
theorem exists_toastRow_eq (hc : sv.CompressorsReturn rel.rdAtt texts)
    (hroom : rel.reltoastrelid ≠ 0 → saver.Room st rel.rdAtt.length)
    (hplain : ∀ p ∈ rel.rdAtt.zip texts, p.1.attlen = .varlena → p.1.attstorage = .plain →
      ∀ x ∈ p.2, LiteralsFit x)
    (hsize : Server.heaptuplesize + rowSizeBound texts ≤ maxAllocSize) :
    ∃ s' ts tup values', RoundsOver saver s st newtup olds values texts s' ts tup values'
      ∧ sv.toastRow st rel newtup olds values
        = (fun st' => (st', tup)) <$> sv.toastTupleCleanup ts.store ts.cols := by
  obtain ⟨hfst, hsnd, -⟩ := map_zip_zip holds hnew.length_eq
  obtain ⟨r, hinit⟩ := exists_toastTupleInit_eq hrefers hinput (hfst.symm ▸ hplain)
  have hrow := of_toastTupleInit_eq hrefers hinput hinit
  obtain ⟨hatts, hnulls, hany, -⟩ := hrow.facts hnew holds
  have hstart := hrow.toasting hworld
  rw [hsnd] at hstart
  have hlen : texts.length = rel.rdAtt.length := by
    rw [← hnew.carries.length_eq, List.length_zip, hnew.length_eq, Nat.min_self]
  have hatts' : (r.1.map ToastColumn.frame).map Prod.fst = rel.rdAtt := by
    rw [List.map_map]
    exact hatts
  obtain ⟨ts, hrounds⟩ := hstart.exists_toastRounds_eq hl hmain (hatts'.symm ▸ hc)
    (hlen.symm ▸ hroom)
  obtain ⟨s', h, -⟩ := hstart.of_toastRounds_eq hl hmain hrounds
  obtain ⟨tup, hresult⟩ := h.exists_resultTuple_eq ((h.frame_facts rfl).2.1.trans hany) hsize newtup
  rw [← hnulls] at hrounds hresult
  obtain ⟨s', values', hover⟩ :=
    exists_roundsOver hl hmain hrefers hworld hnew holds hinput hinit hrounds hresult
  refine ⟨s', ts, tup, values', hover, ?_⟩
  rw [toastRow, hinit, Run.ok_bind]
  dsimp only
  rw [hrounds, Run.ok_bind, hresult, Run.ok_bind]
  cases sv.toastTupleCleanup ts.store ts.cols <;> rfl

end

end StoreServer

/-! ## Ordinary rows -/

/-- There are `n` ids to be had in a table. -/
def Store.Room (st : Store) (relid n : ℕ) : Prop :=
  ∃ rel, st.rels relid = some rel ∧ ∃ free : Finset ℕ, n ≤ free.card ∧
    ∀ o ∈ free, rel.valueidExists o = false ∧ firstNormalObjectId ≤ o ∧ o < 2 ^ 32

theorem Store.Room.mono {st : Store} {relid m n : ℕ} (h : st.Room relid n) (hle : m ≤ n) :
    st.Room relid m := by
  obtain ⟨rel, hrel, free, hcard, hfree⟩ := h
  exact ⟨rel, hrel, free, hle.trans hcard, hfree⟩

namespace StoreServer

variable {sv : StoreServer} {s s' : Session} {st st' : Store} {v : Value} {t : List UInt8}
  {col : ToastColumn}

/-- Outside of a rewrite it does not matter where a value came from. -/
theorem toastSaveDatum_oldexternal {rel : Relation} (hrel : rel.rdToastoid = 0) (st : Store)
    (value : Mem) (oldexternal : Option Mem) :
    sv.toastSaveDatum st rel value oldexternal
      = sv.toastSaveDatum st ⟨rel.reltoastrelid, 0⟩ value none := by
  obtain ⟨relid, oid⟩ := rel
  obtain rfl : oid = 0 := hrel
  simp only [toastSaveDatum, chooseValueid, ↓reduceIte]

/-- What is saved for an ordinary row is saved in the session. -/
def OrdinaryWorld (sv : StoreServer) (start s : Session) (st : Store) : Prop :=
  st = s.store ∧ Relation.ReflTransGen (Session.Step sv) start s ∧ Session.Sound sv s

/-- Saving takes one id. -/
theorem valueidExists_saved {toastrel : ToastRel} {o valueid : ℕ} (hne : o ≠ valueid)
    (hunused : toastrel.valueidExists o = false) (chunks : List (List UInt8)) :
    ToastRel.valueidExists
      { toastrel with rows := toastrel.rows ++ sv.chunkRows valueid 0 chunks } o = false := by
  unfold ToastRel.valueidExists at hunused ⊢
  rw [List.any_append, hunused, Bool.false_or, List.any_eq_false]
  intro row hrow
  rw [(sv.of_mem_chunkRows hrow).1, beq_iff_eq]
  exact hne.symm

section

variable {rel : Relation} (hrel : rel.rdToastoid = 0) {start : Session} {n : ℕ}

include hrel

theorem OrdinaryWorld.save (hlt : rel.reltoastrelid < 2 ^ 32) (h : OrdinaryWorld sv start s st)
    (ht : sv.Text v t) (hbytes : v.stored sv.toServer ≠ []) {old : Option Mem} {attr : Mem}
    (hrun : sv.toastSaveDatum st rel (v.datum sv.toServer) old = .ok (attr, st')) :
    ∃ s' h, OrdinaryWorld sv start s' st' ∧ h ∈ s'.live ∧ h.attr = attr ∧ h.PointsTo sv
      ∧ sv.Text h.value t ∧ s'.handles = h :: s.handles := by
  obtain ⟨rfl, hsteps, hs⟩ := h
  rw [toastSaveDatum_oldexternal hrel] at hrun
  obtain ⟨s', g, rfl, hhandles, rfl, rfl, hlive, hstep⟩ :=
    hs.exists_of_toastSaveDatum hlt hbytes hrun
  have hg : g ∈ s'.handles := hhandles ▸ List.mem_cons_self
  exact ⟨s', g, ⟨rfl, hsteps.tail hstep, hs.step hstep⟩, Session.mem_live.mpr ⟨hg, hlive⟩, rfl,
    (hs.step hstep).pointsTo hg, ht, hhandles⟩

/-- There is an id as long as there is room. -/
theorem OrdinaryWorld.exists_save (h : OrdinaryWorld sv start s st)
    (hroom : st.Room rel.reltoastrelid (n + 1)) (v : Value) (old : Option Mem) :
    ∃ r, sv.toastSaveDatum st rel (v.datum sv.toServer) old = .ok r := by
  obtain ⟨rfl, -, hs⟩ := h
  obtain ⟨toastrel, hget, free, hcard, hfree⟩ := hroom
  obtain ⟨o, ho⟩ := Finset.card_pos.mp (Nat.lt_of_lt_of_le (Nat.succ_pos n) hcard)
  obtain ⟨hunused, hrange⟩ := hfree o ho
  obtain ⟨valueid, nextOid, hsave⟩ :=
    sv.exists_toastSaveDatum_eq hs.normal hget hs.counter hunused hrange v
  rw [toastSaveDatum_oldexternal hrel, hsave]
  exact ⟨_, rfl⟩

theorem OrdinaryWorld.room_save (h : OrdinaryWorld sv start s st)
    (hroom : st.Room rel.reltoastrelid (n + 1)) {old : Option Mem} {attr : Mem}
    (hrun : sv.toastSaveDatum st rel (v.datum sv.toServer) old = .ok (attr, st')) :
    st'.Room rel.reltoastrelid n := by
  obtain ⟨rfl, -, hs⟩ := h
  rw [toastSaveDatum_oldexternal hrel] at hrun
  obtain ⟨toastrel, valueid, nextOid, hget, -, -, rfl, rfl⟩ :=
    sv.of_toastSaveDatum_eq hs.normal hs.counter hrun
  obtain ⟨toastrel', hget', free, hcard, hfree⟩ := hroom
  obtain rfl : toastrel = toastrel' := Option.some.inj (hget.symm.trans hget')
  refine ⟨_, if_pos rfl, free.erase valueid, ?_, fun o ho => ?_⟩
  · have := @Finset.pred_card_le_card_erase _ free valueid _
    omega
  · obtain ⟨hne, ho⟩ := Finset.mem_erase.mp ho
    obtain ⟨hunused, hrange⟩ := hfree o ho
    exact ⟨valueidExists_saved hne hunused _, hrange⟩

end

/-- **How values are saved for an ordinary row**: each of them anew. -/
def ordinarySaver (sv : StoreServer) (start : Session) (rel : Relation) (hrel : rel.rdToastoid = 0)
    (hlt : rel.reltoastrelid < 2 ^ 32) : sv.Saver rel fun _ _ => True where
  World := OrdinaryWorld sv start
  Room st n := st.Room rel.reltoastrelid n
  Fresh := True
  save h hopen _ hbytes _ hrun := by
    obtain ⟨s', g, hworld, hg, hattr, hpoints, ht, hhandles⟩ :=
      h.save hrel hlt hopen.text hbytes hrun
    exact ⟨s', g, hworld, hg, hattr, hpoints, ht, Or.inl hhandles⟩
  exists_save h hroom _ _ := h.exists_save hrel hroom _ _
  room_save h hroom _ _ hrun := h.room_save hrel hroom hrun
  room_mono h hle := h.mono hle

/-! ## The row that is replaced -/

section

variable {rel : HeapRelation} {hs : List Handle} {newtup tup : HeapTuple}
  {oldtup : Option HeapTuple} {values : List (Option Mem)}
  {oldvalues : Option (List (Option Mem))} {texts : List (Option (List UInt8))}

/-- The row that is replaced, if there is one, and its values. -/
def OldRow (sv : StoreServer) (rel : HeapRelation) (hs : List Handle) (oldtup : Option HeapTuple)
    (oldvalues : Option (List (Option Mem))) : Prop :=
  Option.Rel (fun tup values => ∃ texts, sv.Row rel hs tup values texts) oldtup oldvalues

/-- The pointers that it has. -/
def oldRefs (sv : StoreServer) (rel : HeapRelation) (oldvalues : Option (List (Option Mem))) :
    List Mem :=
  oldvalues.elim [] (sv.rowRefs rel)

/-- Its values, for the toaster. -/
def oldColumns (rel : HeapRelation) (oldvalues : Option (List (Option Mem))) :
    List (Option (Option Mem)) :=
  oldvalues.elim (rel.rdAtt.map fun _ => none) (·.map some)

theorem heapToastInsertOrUpdate_eq (hnew : sv.Row rel hs newtup values texts)
    (hold : sv.OldRow rel hs oldtup oldvalues) (st : Store) :
    sv.heapToastInsertOrUpdate st rel newtup oldtup
      = sv.toastRow st rel newtup (oldColumns rel oldvalues) values := by
  obtain ⟨desc, hdeform⟩ := hnew.deform
  rw [heapToastInsertOrUpdate, hdeform, Run.ok_bind]
  cases hold with
  | none => rfl
  | some hrow =>
    obtain ⟨oldtexts, hrow⟩ := hrow
    obtain ⟨desc', hdeform'⟩ := hrow.deform
    dsimp only
    rw [Option.elim_some, hdeform']
    rfl

theorem refs_zip_map_none (atts : List Attribute) :
    sv.refs (atts.zip (atts.map fun _ => none)) = [] := by
  induction atts with
  | nil => rfl
  | cons att atts ih =>
    rw [List.map_cons, List.zip_cons_cons, refs, List.flatMap_cons, ref_none]
    exact ih

theorem OldRow.length_oldColumns (hold : sv.OldRow rel hs oldtup oldvalues) :
    (oldColumns rel oldvalues).length = rel.rdAtt.length := by
  cases hold with
  | none => exact List.length_map _
  | some hrow =>
    obtain ⟨oldtexts, hrow⟩ := hrow
    exact (List.length_map _).trans hrow.length_eq

theorem OldRow.refs_eq (hold : sv.OldRow rel hs oldtup oldvalues) :
    sv.refs (rel.rdAtt.zip ((oldColumns rel oldvalues).map Option.join))
      = sv.oldRefs rel oldvalues := by
  cases hold with
  | none =>
    show sv.refs (rel.rdAtt.zip ((rel.rdAtt.map fun _ => none).map Option.join)) = []
    rw [List.map_map]
    exact refs_zip_map_none rel.rdAtt
  | @some _ oldvalues hrow =>
    show sv.refs (rel.rdAtt.zip ((oldvalues.map some).map Option.join)) = _
    rw [List.map_map]
    exact congrArg (fun l => sv.refs (rel.rdAtt.zip l)) (List.map_id oldvalues)

/-- Where there is no row that is replaced there are no old values. -/
theorem join_eq_none_of_mem_oldColumns {p : Attribute × Option (Option Mem)}
    (hp : p ∈ rel.rdAtt.zip (oldColumns rel none)) : p.2.join = none := by
  have hnone : p.2 ∈ rel.rdAtt.map fun _ => (none : Option (Option Mem)) := (List.of_mem_zip hp).2
  obtain ⟨-, -, hnone⟩ := List.mem_map.mp hnone
  rw [← hnone]
  rfl

theorem OldRow.carries (hold : sv.OldRow rel hs oldtup oldvalues) :
    ∀ p ∈ rel.rdAtt.zip (oldColumns rel oldvalues), ∀ m ∈ p.2.join,
      ∃ t, sv.Carries hs p.1 m t := by
  intro p hp m hm
  cases hold with
  | none =>
    rw [join_eq_none_of_mem_oldColumns hp] at hm
    cases hm
  | @some _ oldvalues hrow =>
    obtain ⟨oldtexts, hrow⟩ := hrow
    have hp' : p ∈ (rel.rdAtt.zip oldvalues).map (Prod.map id some) := by
      rw [← List.zip_map_right]
      exact hp
    obtain ⟨col, hcol, rfl⟩ := List.mem_map.mp hp'
    obtain ⟨i, hi⟩ := List.getElem?_of_mem hcol
    obtain ⟨t, -, ht, -⟩ := exists_forall₂_set hrow.carries hi
    exact carries_of_rel ht m hm

/-! ## The whole -/

/-- **What the toaster has done with a row**: the store went on by saves and deletions, the
row stands for its texts, and the values that are live and the pointers of the row that
was replaced are together those that were live and the pointers of the row. -/
structure Toasted (sv : StoreServer) (rel : HeapRelation) (s : Session)
    (texts : List (Option (List UInt8))) (old : List Mem) (s' : Session) (tup : HeapTuple)
    (values : List (Option Mem)) : Prop where
  steps : Relation.ReflTransGen (Session.Step sv) s s'
  persists : s.Persists s'
  row : sv.Row rel s'.live tup values texts
  live : (s'.liveAttrs ++ old).Perm (s.liveAttrs ++ sv.rowRefs rel values)

/-- What is live when the rounds are over. -/
theorem RoundsOver.liveAttrs_perm {src : Attribute → Handle → Prop}
    {saver : sv.Saver rel.toRelation src} {olds : List (Option (Option Mem))} {ts : ToastState}
    {values' : List (Option Mem)}
    (h : RoundsOver saver s st newtup olds values texts s' ts tup values') (hfresh : saver.Fresh) :
    (∃ new, s'.handles = new ++ s.handles) ∧ ∃ kept,
      (sv.refs (rel.rdAtt.zip (olds.map Option.join))).Perm (kept ++ deletedValues ts.cols)
      ∧ (s'.liveAttrs ++ kept).Perm (s.liveAttrs ++ sv.rowRefs rel values') := by
  obtain ⟨kept, htoasting, holds⟩ := h.toasting
  obtain ⟨new, reused, hhandles, hlive, hno, hrefs⟩ := htoasting.grown
  obtain rfl := hno hfresh
  refine ⟨⟨new, hhandles⟩, kept, holds, ?_⟩
  have hattrs : s'.liveAttrs = new.map Handle.attr ++ s.liveAttrs := by
    rw [Session.liveAttrs, Session.live, hhandles, List.filter_append, List.map_append,
      List.filter_eq_self.mpr hlive]
    rfl
  rw [h.refs_eq, hattrs, List.append_assoc]
  exact (List.perm_append_comm_assoc _ _ _).trans (hrefs.symm.append_left _)

variable (hl : sv.Lossless) (hrel : rel.rdToastoid = 0) (hlt : rel.reltoastrelid < 2 ^ 32)
  (hsound : Session.Sound sv s) (hnew : sv.Row rel s.live newtup values texts)
  (hold : sv.OldRow rel s.live oldtup oldvalues)
  (hsub : (sv.oldRefs rel oldvalues).Subperm s.liveAttrs)

include hold hsub in
/-- **From the end of the rounds to the end**: what is to be deleted can be. -/
theorem RoundsOver.exists_toasted {ts : ToastState} {values' : List (Option Mem)}
    (h : RoundsOver (sv.ordinarySaver s rel.toRelation hrel hlt) s s.store newtup
      (oldColumns rel oldvalues) values texts s' ts tup values') :
    ∃ s'', sv.toastTupleCleanup ts.store ts.cols = .ok s''.store
      ∧ sv.Toasted rel s texts (sv.oldRefs rel oldvalues) s'' tup values' := by
  obtain ⟨⟨new, hhandles⟩, kept, hkept, hlive⟩ := h.liveAttrs_perm trivial
  obtain ⟨_, htoasting, -⟩ := h.toasting
  obtain ⟨hstore, hsteps, hs'⟩ := htoasting.world
  rw [hold.refs_eq] at hkept
  have hold' := List.perm_iff_count.mp hkept
  have hsub' : ∀ m, (sv.oldRefs rel oldvalues).count m ≤ s.liveAttrs.count m :=
    fun m => hsub.count_le m
  have hlive' := List.perm_iff_count.mp hlive
  simp only [List.count_append] at hold' hlive'
  have hdeleted : (deletedValues ts.cols).Subperm s'.liveAttrs := by
    rw [List.subperm_ext_iff]
    intro m _
    have := hlive' m
    have := hold' m
    have := hsub' m
    omega
  obtain ⟨s'', hcleanup, hsteps', hpers, hperm⟩ := hs'.exists_deleteAll_eq hdeleted false
  rw [← toastTupleCleanup_eq h.needs] at hcleanup
  have hcount := List.perm_iff_count.mp hperm
  simp only [List.count_append] at hcount
  have hrowlive : sv.rowRefs rel values' ⊆ s''.liveAttrs := by
    intro m hm
    have := List.count_pos_iff.mpr hm
    refine List.count_pos_iff.mp ?_
    have := hlive' m
    have := hold' m
    have := hsub' m
    have := hcount m
    omega
  have hsound'' := hs'.of_steps hsteps'
  have hgrown : s.Persists s' := fun g hg => ⟨g.live, hhandles ▸ List.mem_append_right new hg⟩
  refine ⟨s'', hstore ▸ hcleanup, hsteps.trans hsteps', hgrown.trans hpers,
    ⟨h.row.deform, h.row.length_eq, ?_, h.row.external⟩, ?_⟩
  · exact Column.of_keeps h.row.carries (hpers.keeps hs' hsound'') hrowlive
  · rw [List.perm_iff_count]
    intro m
    simp only [List.count_append]
    have := hlive' m
    have := hold' m
    have := hcount m
    omega

include hnew hold in
/-- The columns of an ordinary row. -/
theorem OldRow.inputOk :
    List.Forall₂ (sv.InputOk (fun _ _ => True) s.live s.live)
      (rel.rdAtt.zip ((oldColumns rel oldvalues).zip values)) texts :=
  forall₂_inputOk hold.length_oldColumns hnew.length_eq hnew.carries
    (fun p hp m hm => ⟨List.Subset.refl _, hold.carries p hp m hm⟩) fun _ _ _ _ _ => trivial

include hl hsound hnew hold in
/-- What has happened up to the end of the rounds when the toaster returns. -/
theorem exists_roundsOver_of_heapToastInsertOrUpdate_eq
    (hrun : sv.heapToastInsertOrUpdate s.store rel newtup oldtup = .ok (st, tup)) :
    ∃ s' ts values', RoundsOver (sv.ordinarySaver s rel.toRelation hrel hlt) s s.store newtup
        (oldColumns rel oldvalues) values texts s' ts tup values'
      ∧ sv.toastTupleCleanup ts.store ts.cols = .ok st := by
  rw [heapToastInsertOrUpdate_eq hnew hold] at hrun
  exact of_toastRow_eq hl (fun hno => absurd trivial hno) (fun h hh => hsound.refers_of_mem_live hh)
    ⟨rfl, .refl, hsound⟩ hnew hold.length_oldColumns (hold.inputOk hnew) hrun

include hl hrel hlt hsound hnew hold hsub

/-- What has happened when the toaster returns. -/
theorem of_heapToastInsertOrUpdate_eq
    (hrun : sv.heapToastInsertOrUpdate s.store rel newtup oldtup = .ok (st, tup)) :
    ∃ s' values', s'.store = st
      ∧ sv.Toasted rel s texts (sv.oldRefs rel oldvalues) s' tup values' := by
  obtain ⟨s₁, ts, values', hover, hcleanup⟩ :=
    exists_roundsOver_of_heapToastInsertOrUpdate_eq hl hrel hlt hsound hnew hold hrun
  obtain ⟨s', hcleanup', htoasted⟩ := hover.exists_toasted hrel hlt hold hsub
  rw [hcleanup] at hcleanup'
  cases hcleanup'
  exact ⟨s', values', rfl, htoasted⟩

/-- The texts of the columns that are `PLAIN` can be read, whatever happened to them. -/
def PlainReadable (rel : HeapRelation) (texts : List (Option (List UInt8))) : Prop :=
  ∀ p ∈ rel.rdAtt.zip texts, p.1.attlen = .varlena → p.1.attstorage = .plain →
    ∀ x ∈ p.2, LiteralsFit x

/-- It returns when the compressors return, there are as many ids to be had as columns, and
the row is not too large to be formed. -/
theorem exists_heapToastInsertOrUpdate_eq (hc : sv.CompressorsReturn rel.rdAtt texts)
    (hroom : rel.reltoastrelid ≠ 0 → s.store.Room rel.reltoastrelid rel.rdAtt.length)
    (hplain : PlainReadable rel texts)
    (hsize : Server.heaptuplesize + rowSizeBound texts ≤ maxAllocSize) :
    ∃ s' tup values', sv.heapToastInsertOrUpdate s.store rel newtup oldtup = .ok (s'.store, tup)
      ∧ sv.Toasted rel s texts (sv.oldRefs rel oldvalues) s' tup values' := by
  have hworld : (sv.ordinarySaver s rel.toRelation hrel hlt).World s s.store := ⟨rfl, .refl, hsound⟩
  obtain ⟨s₁, ts, tup, values', hover, hrun⟩ := exists_toastRow_eq hl
    (fun hno => absurd trivial hno) (fun h hh => hsound.refers_of_mem_live hh) hworld hnew
    hold.length_oldColumns (hold.inputOk hnew) hc hroom hplain hsize
  obtain ⟨s', hcleanup, htoasted⟩ := hover.exists_toasted hrel hlt hold hsub
  refine ⟨s', tup, values', ?_, htoasted⟩
  rw [heapToastInsertOrUpdate_eq hnew hold, hrun, hcleanup]
  rfl

end

/-! ## How large the row is -/

section

variable {rel : HeapRelation} {newtup tup : HeapTuple} {values values' : List (Option Mem)}

/-- Every value of the columns that a round is for is out of line, or small. -/
def NothingLeft (sv : StoreServer) (checkMain : Bool) (cols : List (Attribute × Option Mem)) :
    Prop :=
  ∀ col ∈ cols, col.1.attlen = .varlena → storageSuits checkMain col.1 = true →
    ∀ m ∈ col.2, sv.startsExternal m = true ∨ (m.length : ℤ) ≤ minToastSize

theorem startsExternal_of_ref {att : Attribute} {m : Mem} (h : sv.ref att (some m) = some m) :
    sv.startsExternal m = true := by
  unfold ref at h
  split at h
  · rw [Option.filter_some] at h
    split at h
    · assumption
    · cases h
  · cases h

/-- What is settled is out of line, or small. -/
theorem Toasting.nothingLeft {src : Attribute → Handle → Prop}
    {saver : sv.Saver rel.toRelation src} {task : ToastTask} {ts : ToastState} {checkMain : Bool}
    (h : Toasting saver task s ts) (hsettled : sv.Settled false checkMain ts.cols) :
    sv.NothingLeft checkMain (ts.cols.map ToastColumn.entry) := by
  intro entry hentry hlen hstorage m hm
  obtain ⟨col, hcol, rfl⟩ := List.mem_map.mp hentry
  obtain ⟨i, hi⟩ := List.getElem?_of_mem hcol
  obtain ⟨t, -, hok, -⟩ := exists_forall₂_set h.columns hi
  have hvalue : col.value = some m := hm
  cases hok with
  | done hignore hrel hout =>
    rw [hvalue] at hout
    exact Or.inl (startsExternal_of_ref (hout hlen))
  | inPlace hopen =>
    have hignore : col.ignore = false := by
      by_contra hignore
      have hplain := hopen.plain.mp (Bool.not_eq_false _ ▸ hignore)
      unfold storageSuits ToastColumn.entry at hstorage
      dsimp only at hstorage
      rw [hplain] at hstorage
      cases checkMain <;> cases hstorage
    have hsuits : sv.suits false checkMain col = true := by
      rw [hopen.suits_eq, hignore]
      exact hstorage
    have hsize := hsettled col hcol hsuits
    rw [hopen.size_eq] at hsize
    rw [hopen.value_eq] at hvalue
    cases hvalue
    exact Or.inr hsize

theorem NothingLeft.stored {checkMain : Bool} {cols : List (Attribute × Option Mem)}
    (hno : sv.NoObjects cols) (h : sv.NothingLeft checkMain cols) :
    sv.NothingLeft checkMain (sv.storedColumns cols) := by
  intro col hcol hlen hstorage m hm
  obtain ⟨⟨att, value⟩, hcol', rfl⟩ := List.mem_map.mp hcol
  obtain ⟨m', hm', rfl⟩ := Option.map_eq_some_iff.mp hm
  refine (h (att, value) hcol' hlen hstorage m' hm').imp (fun hext => ?_) fun hsmall => ?_
  · rw [Server.stored_of_startsExternal hext]
    exact hext
  · exact (Int.ofNat_le.mpr (length_stored_le (hno (att, value) hcol' m' hm'))).trans hsmall

/-- The columns of a row have no objects. -/
theorem Column.noObjects {hs : List Handle} {cols : List (Attribute × Option Mem)}
    {texts : List (Option (List UInt8))} (h : List.Forall₂ (sv.Column hs) cols texts) :
    sv.NoObjects cols := by
  intro col hcol m hm
  obtain ⟨i, hi⟩ := List.getElem?_of_mem hcol
  obtain ⟨t, -, ht, -⟩ := exists_forall₂_set h hi
  obtain ⟨t', hc⟩ := carries_of_rel ht m hm
  exact hc.not_object

/-- The size of a row. -/
theorem tLen_of_holds {cols : List (Attribute × Option Mem)} (h : sv.Holds tup cols) :
    tup.tLen = headerLen (cols.any fun col => col.2.isNone) cols.length
      + (sv.layout cols []).length := by
  rw [HeapTuple.tLen, h.hasnull_eq, h.natts_eq, h.data_eq]

/-- It is the same when its values are taken as they are stored. -/
theorem NoObjects.tLen_of_holds {cols : List (Attribute × Option Mem)} (hno : sv.NoObjects cols)
    (h : sv.Holds tup cols) :
    tup.tLen = headerLen ((sv.storedColumns cols).any fun col => col.2.isNone)
      (sv.storedColumns cols).length + (sv.layout (sv.storedColumns cols) []).length := by
  rw [StoreServer.tLen_of_holds h, hno.layout_storedColumns, storedColumns, List.any_map,
    List.length_map]
  congr 3
  exact funext fun col => Option.isNone_map.symm

/-- What a page can hold is not less than a target that is not beyond it. -/
theorem maxDataLen_le_main {target hoff : ℕ} (hhoff : hoff ≤ target)
    (htarget : target ≤ toastTupleTargetMain) :
    maxDataLen target hoff ≤ maxDataLen toastTupleTargetMain hoff := by
  unfold maxDataLen
  simp only [toastTupleTargetMain] at htarget ⊢
  omega

/-- **How large the row is when the rounds are over.** -/
theorem RoundsOver.nothingLeft {src : Attribute → Handle → Prop}
    {saver : sv.Saver rel.toRelation src} {olds : List (Option (Option Mem))} {ts : ToastState}
    {texts : List (Option (List UInt8))}
    (h : RoundsOver saver s st newtup olds values texts s' ts tup values')
    {ncols : List (Attribute × Option Mem)} (hform : sv.Holds newtup ncols)
    (hno : sv.NoObjects ncols) (hzip : rel.rdAtt.zip values = sv.storedColumns ncols)
    (htoast : rel.reltoastrelid ≠ 0)
    (hhoff : headerLen (values.any Option.isNone) rel.rdAtt.length
      ≤ rel.getToastTupleTarget defaultToastTupleTarget)
    (htarget : rel.getToastTupleTarget defaultToastTupleTarget ≤ toastTupleTargetMain) :
    (tup.tLen ≤ rel.getToastTupleTarget defaultToastTupleTarget
        ∨ sv.NothingLeft false (rel.rdAtt.zip values'))
      ∧ (tup.tLen ≤ toastTupleTargetMain ∨ sv.NothingLeft true (rel.rdAtt.zip values')) := by
  obtain ⟨_, htoasting, -⟩ := h.toasting
  have hcols := htoasting.forall₂_column
  have hsize : tup.tLen = headerLen ((ts.cols.map ToastColumn.entry).any fun col => col.2.isNone)
      (ts.cols.map ToastColumn.entry).length
        + (sv.layout (ts.cols.map ToastColumn.entry) []).length := by
    rcases h.result with ⟨hholds, -⟩ | ⟨rfl, -, hentries⟩
    · exact tLen_of_holds hholds
    · rw [hentries, hzip]
      exact hno.tLen_of_holds hform
  have hleft : ∀ {checkMain}, sv.Settled false checkMain ts.cols →
      sv.NothingLeft checkMain (rel.rdAtt.zip values') := by
    intro checkMain hsettled
    have hleft := htoasting.nothingLeft hsettled
    rcases h.result with ⟨-, hstored⟩ | ⟨-, rfl, hentries⟩
    · exact hstored ▸ hleft.stored (Column.noObjects hcols)
    · exact hentries ▸ hleft
  have hlen : (ts.cols.map ToastColumn.entry).length = rel.rdAtt.length := by
    have hlen := congrArg List.length h.atts_eq
    rwa [List.length_map] at hlen
  rw [h.nulls_eq, hlen] at hsize
  have hfits : ∀ {target}, headerLen (values.any Option.isNone) rel.rdAtt.length ≤ target →
      target ≤ toastTupleTargetMain → sv.DataFits (maxDataLen target
        (headerLen (values.any Option.isNone) rel.rdAtt.length)) ts → tup.tLen ≤ target := by
    rintro target hle hmain ⟨n, hn, hsmall⟩
    rw [htoasting.dataSize_eq] at hn
    cases hn
    unfold maxDataLen at hsmall
    simp only [toastTupleTargetMain] at hmain
    omega
  obtain ⟨hfirst, hmain⟩ := h.ends htoast (maxDataLen_le_main hhoff htarget)
  exact ⟨hfirst.imp (hfits hhoff htarget) hleft,
    hmain.imp (hfits (hhoff.trans htarget) (Nat.le_refl _)) hleft⟩

end

/-- **The toaster keeps every text, leaves no value behind, and makes the row as small as it
can.** A row is formed from values that stand for texts, and is inserted or replaces
another one. When the compressors return, there are as many ids to be had as columns, and
the texts are not too large for a row to be formed, the toaster returns a row that stands
for the same texts, whatever was compressed and moved out of line. What is live in the
toast store afterwards is what was live before, with the pointers of the new row in the
place of those of the old one. And unless a value was an object, the row is not larger than
the target of the table, or every value of a column that is `EXTENDED` or `EXTERNAL` is out
of line or takes no more room than a pointer; the same holds for the columns that are
`MAIN`, and the size that a page can hold. -/
theorem exists_toasted_of_heapFormTuple {rel : HeapRelation} {newtup : HeapTuple}
    {oldtup : Option HeapTuple} {oldvalues : Option (List (Option Mem))}
    {ncols : List (Attribute × Option Mem)} {texts : List (Option (List UInt8))}
    (hl : sv.Lossless) (hrel : rel.rdToastoid = 0) (hlt : rel.reltoastrelid < 2 ^ 32)
    (hs : Session.Sound sv s) (hatts : ncols.map Prod.fst = rel.rdAtt)
    (hcols : List.Forall₂ (sv.NewColumn s.live) ncols texts)
    (hform : sv.heapFormTuple ncols = .ok newtup)
    (hold : sv.OldRow rel s.live oldtup oldvalues)
    (hsub : (sv.oldRefs rel oldvalues).Subperm s.liveAttrs)
    (hc : sv.CompressorsReturn rel.rdAtt texts)
    (hroom : rel.reltoastrelid ≠ 0 → s.store.Room rel.reltoastrelid rel.rdAtt.length)
    (hplain : PlainReadable rel texts)
    (hsize : Server.heaptuplesize + rowSizeBound texts ≤ maxAllocSize) :
    ∃ s' tup values, sv.heapToastInsertOrUpdate s.store rel newtup oldtup = .ok (s'.store, tup)
      ∧ sv.Toasted rel s texts (sv.oldRefs rel oldvalues) s' tup values
      ∧ (rel.reltoastrelid ≠ 0 → sv.NoObjects ncols →
        headerLen (ncols.any fun col => col.2.isNone) rel.rdAtt.length
          ≤ rel.getToastTupleTarget defaultToastTupleTarget →
        rel.getToastTupleTarget defaultToastTupleTarget ≤ toastTupleTargetMain →
        (tup.tLen ≤ rel.getToastTupleTarget defaultToastTupleTarget
          ∨ sv.NothingLeft false (rel.rdAtt.zip values))
        ∧ (tup.tLen ≤ toastTupleTargetMain ∨ sv.NothingLeft true (rel.rdAtt.zip values))) := by
  have hholds := (NewColumn.allFit hcols).holds_of_heapFormTuple_eq hform
  obtain ⟨values₀, hnew, hzip⟩ := exists_row_of_holds hatts hcols hholds
  obtain ⟨s', tup, values, hrun, htoasted⟩ :=
    exists_heapToastInsertOrUpdate_eq hl hrel hlt hs hnew hold hsub hc hroom hplain hsize
  refine ⟨s', tup, values, hrun, htoasted, fun htoast hno hhoff htarget => ?_⟩
  have hnulls : (ncols.any fun col => col.2.isNone) = values₀.any Option.isNone := by
    have hzip' : (rel.rdAtt.zip values₀).map Prod.snd
        = ncols.map fun col => col.2.map (sv.stored col.1) := by
      rw [hzip, storedColumns, List.map_map]
      rfl
    rw [List.map_snd_zip (Nat.le_of_eq hnew.length_eq)] at hzip'
    rw [hzip', List.any_map]
    exact congrArg (List.any ncols) (funext fun col => Option.isNone_map.symm)
  rw [hnulls] at hhoff
  obtain ⟨s₁, ts, values', hover, -⟩ :=
    exists_roundsOver_of_heapToastInsertOrUpdate_eq hl hrel hlt hs hnew hold hrun
  obtain ⟨desc, hdeform⟩ := htoasted.row.deform
  obtain ⟨desc', hdeform'⟩ := hover.row.deform
  rw [hdeform] at hdeform'
  cases hdeform'
  exact hover.nothingLeft hholds hno hzip htoast hhoff htarget

/-- A little-endian server that compresses with `pglz_compress`. -/
def littleEndianPglz : StoreServer :=
  { littleEndian with toServer := Server.littleEndian.withPglz }

theorem lossless_littleEndianPglz : littleEndianPglz.Lossless :=
  ⟨Server.littleEndian.usesPglz_withPglz, fun _ hlib => by cases hlib⟩

/-- A table with one column of texts. -/
def textTable : HeapRelation :=
  ⟨⟨1, 0⟩, none,
    [⟨.varlena, .int, .extended, Char.ofNat 0, none, cstring_align_of_varlena .int⟩]⟩

/-- A text of three thousand bytes. -/
def longText : List UInt8 := List.replicate 3000 97

theorem longText_fits : longText.length + 4 < 2 ^ 30 := by
  rw [longText, List.length_replicate]
  decide

/-- The text is the value of a new row. -/
theorem forall₂_column_longText (hs : List Handle) :
    List.Forall₂ (littleEndianPglz.Column hs)
      (textTable.rdAtt.zip [some (littleEndianPglz.plainDatum longText)]) [some longText] :=
  .cons (.some (.inPlace (v := .plain longText longText_fits) rfl (text_plain longText_fits))) .nil

theorem compressorsReturn_longText {atts : List Attribute}
    (hmethod : ∀ att ∈ atts, littleEndianPglz.effectiveMethod att.attcompression = 'p') :
    littleEndianPglz.CompressorsReturn atts [some longText] := by
  refine compressorsReturn_of_builtin (fun att hatt => Or.inl (hmethod att hatt))
    fun x hx t ht => ?_
  obtain rfl := List.mem_singleton.mp hx
  cases ht
  rw [longText, List.length_replicate]
  decide

theorem plainReadable_of_forall_ne {rel : HeapRelation}
    (h : ∀ att ∈ rel.rdAtt, att.attstorage ≠ .plain) (texts : List (Option (List UInt8))) :
    PlainReadable rel texts :=
  fun p hp _ hplain => absurd hplain (h p.1 (List.of_mem_zip hp).1)

/-- The text is far from too large for a row. -/
theorem rowSizeBound_longText :
    Server.heaptuplesize + rowSizeBound [some longText] ≤ maxAllocSize := by
  have hlen : longText.length = 3000 := List.length_replicate
  simp only [rowSizeBound, roomFor, List.map_cons, List.map_nil, Option.elim_some, hlen]
  decide

theorem room_oneTable : Session.oneTable.store.Room 1 1 :=
  ⟨⟨"pg_toast_1", []⟩, rfl, {firstNormalObjectId}, by decide, fun o ho => by
    rw [Finset.mem_singleton.mp ho]
    exact ⟨rfl, by decide, by decide⟩⟩

/-- The text is inserted into an empty table. -/
theorem exists_toasted_of_heapFormTuple_longText :
    ∃ newtup s' tup values,
      littleEndianPglz.heapFormTuple
          (textTable.rdAtt.zip [some (littleEndianPglz.plainDatum longText)]) = .ok newtup
      ∧ littleEndianPglz.heapToastInsertOrUpdate Session.oneTable.store textTable newtup none
        = .ok (s'.store, tup)
      ∧ littleEndianPglz.Toasted textTable Session.oneTable [some longText] [] s' tup values
      ∧ (tup.tLen ≤ 2032 ∨ littleEndianPglz.NothingLeft false (textTable.rdAtt.zip values)) := by
  have hsound : Session.Sound littleEndianPglz Session.oneTable :=
    (Session.oneTable_start OidMode.underPostmaster_normal).sound
  have hcols := forall₂_column_longText Session.oneTable.live
  obtain ⟨newtup, hform, -⟩ := (Column.allFit hcols).exists_heapFormTuple_eq (by decide)
    ((Column.allocSize_le hcols _).trans rowSizeBound_longText)
  have hold : littleEndianPglz.OldRow textTable Session.oneTable.live none none := .none
  obtain ⟨s', tup, values, hrun, htoasted, hsize⟩ := exists_toasted_of_heapFormTuple
    lossless_littleEndianPglz rfl (by decide) hsound rfl (hcols.imp fun _ _ hc => hc.newColumn)
    hform hold List.nil_subperm (compressorsReturn_longText (List.forall_mem_singleton.mpr rfl))
    (fun _ => room_oneTable)
    (plainReadable_of_forall_ne (List.forall_mem_singleton.mpr (by decide)) _)
    rowSizeBound_longText
  exact ⟨newtup, s', tup, values, hform, hrun, htoasted,
    (hsize (by decide) (Column.noObjects hcols) (by decide) (by decide)).1⟩

end StoreServer
