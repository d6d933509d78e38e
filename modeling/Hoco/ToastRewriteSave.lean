import Hoco.ToastTable

/-!
# Saving values while a table is rewritten

`CLUSTER` and `VACUUM FULL` write every version of every row anew, to a new table with a new
toast table. When that is done the files of the two toast tables are swapped, so that the
pointers have to have the OID of the old one from the beginning: `rd_toastoid` tells
`toast_save_datum` so. It also makes it keep the number that a value had.

A row that is rewritten goes through the toaster like any other. Its values are fetched, as
they belong to no old row, and only those that do not fit are moved out again, after an
attempt to compress them. So what is stored under an old number need not be what was stored
there before; and several versions of a row may refer to one value, of which the first one
that is moved out is stored and the others only get the pointer. That this is the same value
each time is not obvious: it depends on the value having been through the same rounds before
it is moved out, in a column with the same options (`moved`). A value that was not out of
line before, or in another toast table, needs a number that will not be met again, neither in
the new table nor among the values that are still to come from the old one.

`Rewrite.World` is what holds while rows are written, in any order, and `Rewrite.saver` is
what the toaster has to know of it.
-/

open Chunking

namespace StoreServer

/-- **What a value of the old table is when it is moved out again**: compressed, if it was or
can be. -/
def moved (sv : StoreServer) (att : Attribute) (h : Handle) : Mem :=
  let value := h.value.unpacked.datum sv.toServer
  if att.attstorage = .external ∨ h.value.method.isSome = true then value
  else ((sv.toastCompressDatum value att.attcompression).toOption.join).getD value

/-- A version of a row, with its values and the texts that they stand for. -/
structure RowVersion where
  tup : HeapTuple
  values : List (Option Mem)
  texts : List (Option (List UInt8))

/-- **A table that is to be rewritten**: the toast store as it can come about, the new table,
whose toast table is empty and which knows the OID of the old one, and the versions of rows.
They may have been deleted, as long as their values have not been cleaned up. -/
structure Rewrite (sv : StoreServer) where
  session : Session
  rel : HeapRelation
  oldrel : ToastRel
  newrel : ToastRel
  versions : List RowVersion
  reachable : Session.Reachable sv session
  old_ne_zero : rel.rdToastoid ≠ 0
  old_lt : rel.rdToastoid < 2 ^ 32
  new_ne_old : rel.reltoastrelid ≠ rel.rdToastoid
  rels_old : session.store.rels rel.rdToastoid = some oldrel
  rels_new : session.store.rels rel.reltoastrelid = some newrel
  empty : newrel.rows = []
  natts_le : rel.rdAtt.length ≤ Server.maxTupleAttributeNumber
  header_le : headerLen true rel.rdAtt.length ≤ rel.getToastTupleTarget defaultToastTupleTarget
  target_le : rel.getToastTupleTarget defaultToastTupleTarget ≤ toastTupleTargetMain
  rows : ∀ row ∈ versions, sv.Row rel session.handles row.tup row.values row.texts
  compressors : ∀ row ∈ versions, sv.CompressorsReturn rel.rdAtt row.texts
  readable : ∀ row ∈ versions, PlainReadable rel row.texts
  size_le : ∀ row ∈ versions, Server.heaptuplesize + rowSizeBound row.texts ≤ maxAllocSize
  /-- Versions share a value in columns of the same kind only. -/
  shared : ∀ row ∈ versions, ∀ row' ∈ versions, ∀ col ∈ rel.rdAtt.zip row.values,
    ∀ col' ∈ rel.rdAtt.zip row'.values, sv.ref col.1 col.2 ≠ none →
    sv.ref col.1 col.2 = sv.ref col'.1 col'.2 → col.1 = col'.1

namespace Rewrite

variable {sv : StoreServer} (w : sv.Rewrite)

/-- The toast table of the old table. -/
abbrev old : ℕ := w.rel.rdToastoid

/-- The toast table of the new table. -/
abbrev new : ℕ := w.rel.reltoastrelid

/-- A value that a version has in a column like this. -/
def Source (att : Attribute) (h : Handle) : Prop :=
  h ∈ w.session.handles ∧ ∃ row ∈ w.versions, ∃ col ∈ w.rel.rdAtt.zip row.values,
    col.1 = att ∧ sv.ref col.1 col.2 = some h.attr

/-- **A value in the new toast table.** Its number is the one that it had, or one that the old
table does not have. -/
structure Copied (g : Handle) : Prop where
  live : g.live = true
  relid_eq : g.relid = w.old
  pointsTo : g.PointsTo sv
  valueid_lt : g.valueid < 2 ^ 32
  bytes : g.value.stored sv.toServer ≠ []
  origin : (∃ att h, w.Source att h ∧ h.relid = w.old ∧ h.valueid = g.valueid
      ∧ g.value.datum sv.toServer = sv.moved att h)
    ∨ w.oldrel.valueidExists g.valueid = false

/-- **While rows are written**: the pointers of the session are those into the new toast
table, and it has no other rows. -/
structure World (s : Session) (st : Store) : Prop where
  counter : st.nextOid < 2 ^ 32
  others : ∀ r, r ≠ w.new → st.rels r = w.session.store.rels r
  table : ∃ rel, st.rels w.new = some rel
    ∧ (∀ row ∈ rel.rows, ∃ h ∈ s.handles, row.chunkId = h.valueid)
    ∧ ∀ h ∈ s.handles, sv.Stores rel h.valueid (h.value.stored sv.toServer)
  copied : ∀ h ∈ s.handles, w.Copied h

/-- There are `n` ids to be had that neither table has. -/
def Room (st : Store) (n : ℕ) : Prop :=
  ∃ rel, st.rels w.new = some rel ∧ ∃ free : Finset ℕ, n ≤ free.card ∧
    ∀ o ∈ free, (rel.valueidExists o = false ∧ w.oldrel.valueidExists o = false)
      ∧ firstNormalObjectId ≤ o ∧ o < 2 ^ 32

/-- **What `toast_save_datum` can do with a column**: the value is there already; it is stored
under the number that it had; it is stored under a new one; or there is none. -/
inductive Saves (st : Store) (rel : ToastRel) (col : ToastColumn) (v : Value) :
    Run (Mem × Store) → Prop where
  | again {h : Handle} (hsrc : w.Source col.att h) (hrelid : h.relid = w.old)
      (hmoved : sv.Tried col → v.datum sv.toServer = sv.moved col.att h)
      (hexists : rel.valueidExists h.valueid = true) :
      Saves st rel col v (.ok (sv.toastPointer (v.pointer sv.toServer h.valueid w.old),
        st.setRows w.new rel rel.rows))
  | kept {h : Handle} (hsrc : w.Source col.att h) (hrelid : h.relid = w.old)
      (hmoved : sv.Tried col → v.datum sv.toServer = sv.moved col.att h)
      (hfree : rel.valueidExists h.valueid = false) :
      Saves st rel col v (.ok (sv.toastPointer (v.pointer sv.toServer h.valueid w.old),
        sv.saved st w.new rel v h.valueid st.nextOid))
  | new {valueid nextOid : ℕ}
      (hfound : sv.oids.newOidInBoth rel.valueidExists w.oldrel.valueidExists (2 ^ 32) st.nextOid
        = .ok (some (valueid, nextOid))) :
      Saves st rel col v (.ok (sv.toastPointer (v.pointer sv.toServer valueid w.old),
        sv.saved st w.new rel v valueid nextOid))
  | failed {trap : Trap}
      (hnone : ∀ found, sv.oids.newOidInBoth rel.valueidExists w.oldrel.valueidExists (2 ^ 32)
        st.nextOid ≠ .ok (some found)) :
      Saves st rel col v (.error trap)

end Rewrite

/-! ## The value under a number -/

section

variable {sv : StoreServer} {src : Attribute → Handle → Prop} {col : ToastColumn} {v w : Value}
  {t : List UInt8}

/-- What the bytes of a value in place tell. -/
theorem pointer_eq_of_datum_eq (h : v.datum sv.toServer = w.datum sv.toServer)
    (valueid relid : ℕ) :
    v.pointer sv.toServer valueid relid = w.pointer sv.toServer valueid relid := by
  have hextent := sv.saveExtent_datum v valueid relid
  rw [h, sv.saveExtent_datum w valueid relid] at hextent
  simp only [Except.ok.injEq, SaveExtent.mk.injEq] at hextent
  obtain ⟨-, -, hraw, hinfo⟩ := hextent
  simp only [Value.pointer, VarattExternal.mk.injEq, and_true]
  exact ⟨hraw.symm, hinfo.symm⟩

theorem Text.of_datum_eq (ht : sv.Text v t) (h : v.datum sv.toServer = w.datum sv.toServer) :
    sv.Text w t := by
  have hextent := sv.saveExtent_datum v 0 0
  rw [h, sv.saveExtent_datum w 0 0] at hextent
  simp only [Except.ok.injEq, SaveExtent.mk.injEq, Value.pointer] at hextent
  obtain ⟨-, hlen, hraw, hinfo⟩ := hextent
  have hsome := Value.varattIsCompressed_datum sv.toServer v
  rw [h, w.varattIsCompressed_datum] at hsome
  have hmethod : w.method = v.method := by
    have hget : w.method.getD 0 = v.method.getD 0 := by omega
    cases hv : v.method <;> cases hw : w.method <;> simp_all
  refine ⟨ht.reads.imp (fun hreads => ?_) fun hlost => ⟨hmethod.trans hlost.method,
    hlost.literals, h ▸ hlost.corrupt⟩, ?_, ht.fits⟩
  · exact (congrArg sv.detoastAttr h.symm).trans hreads
  · have := ht.rawsize_eq
    omega

/-- A column that is not ignored has been tried only if it cannot be compressed or is. -/
theorem Open.of_tried (h : sv.Open src col v t) (hignore : col.ignore = false)
    (htried : sv.Tried col) : (col.incompressible || v.method.isSome) = true := by
  have hstorage : ∃ checkMain, storageSuits checkMain col.att = true := by
    unfold storageSuits
    cases hs : col.att.attstorage with
    | plain =>
      rw [h.plain.mpr hs] at hignore
      cases hignore
    | external => exact ⟨false, rfl⟩
    | extended => exact ⟨false, rfl⟩
    | main => exact ⟨true, rfl⟩
  obtain ⟨checkMain, hsuits⟩ := hstorage
  have hno := htried checkMain
  rw [h.suits_eq, hignore, hsuits] at hno
  cases hor : (col.incompressible || v.method.isSome) with
  | true => rfl
  | false =>
    rw [hor] at hno
    cases hno

/-- **What is moved out under an old number depends on the number and the column only.** -/
theorem Open.exists_moved (h : sv.Open src col v t) (hignore : col.ignore = false) {m : Mem}
    (hold : col.taiOldexternal = some m) :
    ∃ g, src col.att g ∧ g.attr = m
      ∧ (sv.Tried col → v.datum sv.toServer = sv.moved col.att g) := by
  cases h.origin hignore m hold with
  | @fetched g hsrc hv hkept =>
    refine ⟨g, hsrc, rfl, fun htried => ?_⟩
    have hor := h.of_tried hignore htried
    unfold moved
    subst hv
    by_cases hwas : col.att.attstorage = .external ∨ g.value.method.isSome = true
    · exact (if_pos hwas).symm
    · obtain ⟨hext, hmethod⟩ := not_or.mp hwas
      rw [g.value.method_unpacked, Bool.or_eq_true] at hor
      have hnone := (hkept (hor.resolve_right hmethod)).resolve_left hext
      rw [if_neg hwas, hnone]
      rfl
  | @compressed g hsrc hmethod hstorage hsome hrun =>
    refine ⟨g, hsrc, rfl, fun _ => ?_⟩
    have hwas : ¬(col.att.attstorage = .external ∨ g.value.method.isSome = true) := by
      rw [hmethod]
      exact fun hor => hor.elim hstorage fun hno => by cases hno
    unfold moved
    rw [if_neg hwas, hrun]
    rfl

end

namespace Rewrite

variable {sv : StoreServer} {w : sv.Rewrite} {s s' : Session} {st st' : Store}
  {col : ToastColumn} {v : Value} {t : List UInt8} {rel : ToastRel} {n : ℕ}

/-! ## Saving a value -/

theorem Source.mem {att : Attribute} {h : Handle} (hsrc : w.Source att h) :
    h ∈ w.session.handles := hsrc.1

/-- A value belongs to columns of one kind. -/
theorem Source.att_eq {att att' : Attribute} {h : Handle} (hsrc : w.Source att h)
    (hsrc' : w.Source att' h) : att = att' := by
  obtain ⟨-, row, hrow, col, hcol, rfl, href⟩ := hsrc
  obtain ⟨-, row', hrow', col', hcol', rfl, href'⟩ := hsrc'
  exact w.shared row hrow row' hrow' col hcol col' hcol' (href ▸ Option.some_ne_none _)
    (href.trans href'.symm)

/-- No value is in the new table when the rewrite starts. -/
theorem relid_ne_new {h : Handle} (hmem : h ∈ w.session.handles) : h.relid ≠ w.new := by
  intro heq
  obtain ⟨rel, hrel, hstores⟩ := (w.reachable.sound.refers h hmem).stored
  rw [heq, w.rels_new] at hrel
  cases hrel
  have hexists := hstores.valueidExists (w.reachable.sound.bytes h hmem)
  rw [ToastRel.valueidExists, w.empty] at hexists
  cases hexists

/-- **The old table is as it was.** -/
theorem World.refers (hworld : w.World s st) {h : Handle} (hmem : h ∈ w.session.handles) :
    sv.Refers st h.attr h.value h.valueid h.relid := by
  have hrefers := w.reachable.sound.refers h hmem
  obtain ⟨rel, hrel, hstores⟩ := hrefers.stored
  exact ⟨hrefers.pointer, hrefers.valueid_lt, hrefers.relid_lt,
    ⟨rel, (hworld.others _ (w.relid_ne_new hmem)).trans hrel, hstores⟩⟩

/-- A value that is in the new table already is not stored again. -/
theorem toastSaveDatum_eq_of_exists (hrel : st.rels w.new = some rel)
    {oldexternal : Option Mem} {valueid : ℕ}
    (hchoose : sv.chooseValueid st w.rel.toRelation rel oldexternal (v.stored sv.toServer).length
      = .ok (valueid, st.nextOid, 0)) :
    sv.toastSaveDatum st w.rel.toRelation (v.datum sv.toServer) oldexternal
      = .ok (sv.toastPointer (v.pointer sv.toServer valueid w.old),
        st.setRows w.new rel rel.rows) := by
  rw [toastSaveDatum, Store.tableOpen_of_rels hrel, Run.ok_bind, sv.saveExtent_datum v valueid 0,
    Run.ok_bind]
  dsimp only
  rw [hchoose, Run.ok_bind, if_pos w.old_ne_zero]
  rfl

/-- Nothing is saved if there is no number. -/
theorem toastSaveDatum_eq_error (hrel : st.rels w.new = some rel) {oldexternal : Option Mem}
    {trap : Trap}
    (hchoose : sv.chooseValueid st w.rel.toRelation rel oldexternal (v.stored sv.toServer).length
      = .error trap) :
    sv.toastSaveDatum st w.rel.toRelation (v.datum sv.toServer) oldexternal = .error trap := by
  rw [toastSaveDatum, Store.tableOpen_of_rels hrel, Run.ok_bind, sv.saveExtent_datum v 0 0,
    Run.ok_bind]
  dsimp only
  rw [hchoose]
  rfl

/-- A value gets a new number if it was not in the old table. -/
theorem World.saves_new (hworld : w.World s st) (hrel : st.rels w.new = some rel)
    {oldexternal : Option Mem}
    (hold : ∀ m ∈ oldexternal, ∃ p, sv.varattExternalGetPointer m = .ok p
      ∧ p.vaToastrelid ≠ w.old) (col : ToastColumn) (v : Value) :
    w.Saves st rel col v
      (sv.toastSaveDatum st w.rel.toRelation (v.datum sv.toServer) oldexternal) := by
  have hopen := Store.tableOpen_of_rels ((hworld.others w.old w.new_ne_old.symm).trans w.rels_old)
  have hchoose : sv.chooseValueid st w.rel.toRelation rel oldexternal (v.stored sv.toServer).length
      = (st.tableOpen w.old >>= fun oldrel =>
        sv.oids.newOidInBoth rel.valueidExists oldrel.valueidExists (2 ^ 32) st.nextOid
          >>= fun found => found.elim (.error .fault) fun found =>
            .ok (found.1, found.2, ((v.stored sv.toServer).length : ℤ))) := by
    rw [chooseValueid, if_neg w.old_ne_zero]
    cases oldexternal with
    | none => rfl
    | some m =>
      obtain ⟨p, hp, hother⟩ := hold m rfl
      rw [Option.elim_some, hp, Run.ok_bind, if_neg hother]
      rfl
  rw [hopen, Run.ok_bind] at hchoose
  cases hfound : sv.oids.newOidInBoth rel.valueidExists w.oldrel.valueidExists (2 ^ 32)
      st.nextOid with
  | error trap =>
    rw [hfound] at hchoose
    rw [toastSaveDatum_eq_error hrel hchoose]
    refine .failed fun found hno => ?_
    rw [hfound] at hno
    cases hno
  | ok found =>
    rw [hfound, Run.ok_bind] at hchoose
    cases found with
    | none =>
      rw [toastSaveDatum_eq_error hrel hchoose]
      refine .failed fun found hno => ?_
      rw [hfound] at hno
      cases hno
    | some found =>
      rw [sv.toastSaveDatum_eq hrel hchoose, if_pos w.old_ne_zero]
      exact .new hfound

/-- **What `toast_save_datum` does with a column.** -/
theorem World.saves (hworld : w.World s st) (hrel : st.rels w.new = some rel)
    (hopen : sv.Open w.Source col v t) (hignore : col.ignore = false) :
    w.Saves st rel col v
      (sv.toastSaveDatum st w.rel.toRelation (v.datum sv.toServer) col.taiOldexternal) := by
  cases hold : col.taiOldexternal with
  | none => exact hworld.saves_new hrel (fun m hm => by cases hm) col v
  | some m =>
    obtain ⟨h, hsrc, rfl, hmoved⟩ := hopen.exists_moved hignore hold
    have hpointer := (hworld.refers hsrc.mem).varattExternalGetPointer_eq
    by_cases hrelid : h.relid = w.old
    · have hchoose : sv.chooseValueid st w.rel.toRelation rel (some h.attr)
          (v.stored sv.toServer).length
            = .ok (h.valueid, st.nextOid,
              if rel.valueidExists h.valueid then 0 else (v.stored sv.toServer).length) := by
        rw [chooseValueid, if_neg w.old_ne_zero, Option.elim_some, hpointer, Run.ok_bind,
          if_pos (show (h.value.pointer sv.toServer h.valueid h.relid).vaToastrelid = w.old from
            hrelid)]
        exact if_pos (w.reachable.valueid_ne_zero h hsrc.mem)
      cases hexists : rel.valueidExists h.valueid with
      | true =>
        rw [hexists, if_pos rfl] at hchoose
        rw [toastSaveDatum_eq_of_exists hrel hchoose]
        exact .again hsrc hrelid hmoved hexists
      | false =>
        rw [hexists, if_neg Bool.false_ne_true] at hchoose
        rw [sv.toastSaveDatum_eq hrel hchoose, if_pos w.old_ne_zero]
        exact .kept hsrc hrelid hmoved hexists
    · refine hworld.saves_new hrel (fun m hm => ?_) col v
      cases hm
      exact ⟨_, hpointer, hrelid⟩

/-- **Storing a value under a number that the new table does not have.** -/
theorem World.saved (hworld : w.World s st) (hrel : st.rels w.new = some rel) {valueid nextOid : ℕ}
    (hfree : rel.valueidExists valueid = false) (hnext : nextOid < 2 ^ 32)
    (hbytes : v.stored sv.toServer ≠ []) (hlt : valueid < 2 ^ 32)
    (horigin : (∃ att h, w.Source att h ∧ h.relid = w.old ∧ h.valueid = valueid
        ∧ v.datum sv.toServer = sv.moved att h)
      ∨ w.oldrel.valueidExists valueid = false) :
    w.World ⟨sv.saved st w.new rel v valueid nextOid,
      ⟨sv.toastPointer (v.pointer sv.toServer valueid w.old), v, valueid, w.old, true⟩ :: s.handles⟩
      (sv.saved st w.new rel v valueid nextOid) := by
  obtain ⟨rel', hrel', hrows, hstores⟩ := hworld.table
  rw [hrel] at hrel'
  cases hrel'
  refine ⟨hnext, fun r hr => (if_neg hr).trans (hworld.others r hr), ⟨_, if_pos rfl, ?_, ?_⟩,
    List.forall_mem_cons.mpr ⟨⟨rfl, rfl, rfl, hlt, hbytes, horigin⟩, hworld.copied⟩⟩
  · intro row hrow
    rcases List.mem_append.mp hrow with hrow | hrow
    · obtain ⟨h, hh, hid⟩ := hrows row hrow
      exact ⟨h, List.mem_cons_of_mem _ hh, hid⟩
    · exact ⟨_, List.mem_cons_self, (sv.of_mem_chunkRows hrow).1⟩
  · refine List.forall_mem_cons.mpr ⟨Server.stores_append hfree, fun h hh =>
      (hstores h hh).congr ?_⟩
    -- the values that were there have other numbers
    have hother : h.valueid ≠ valueid := by
      intro heq
      have huse := (hstores h hh).valueidExists (hworld.copied h hh).bytes
      rw [heq, hfree] at huse
      cases huse
    have hnone : (sv.chunkRows valueid 0 (chunks toastMaxChunkSize (v.stored sv.toServer))).filter
        (fun row => row.chunkId = h.valueid) = [] := by
      rw [List.filter_eq_nil_iff]
      intro row hrow
      rw [(sv.of_mem_chunkRows hrow).1, decide_eq_true_eq]
      exact hother.symm
    rw [List.filter_append, hnone, List.append_nil]

/-- A table that is written back as it is. -/
theorem World.setRows_self (hworld : w.World s st) (hrel : st.rels w.new = some rel) :
    w.World s (st.setRows w.new rel rel.rows) := by
  obtain ⟨rel', hrel', htable⟩ := hworld.table
  rw [hrel] at hrel'
  cases hrel'
  exact ⟨hworld.counter, fun r hr => (if_neg hr).trans (hworld.others r hr),
    ⟨rel, if_pos rfl, htable⟩, hworld.copied⟩

/-- **The value that is there under an old number is the one that was to be moved out.** -/
theorem World.exists_datum_eq (hworld : w.World s st) (hrel : st.rels w.new = some rel)
    {att : Attribute} {h : Handle} (hsrc : w.Source att h) (hrelid : h.relid = w.old)
    (hexists : rel.valueidExists h.valueid = true) :
    ∃ g ∈ s.handles, g.valueid = h.valueid ∧ g.value.datum sv.toServer = sv.moved att h := by
  have hsound := w.reachable.sound
  obtain ⟨rel', hrel', hrows, -⟩ := hworld.table
  rw [hrel] at hrel'
  cases hrel'
  obtain ⟨row, hrow, hrowid⟩ := List.any_eq_true.mp hexists
  obtain ⟨g, hg, hgid⟩ := hrows row hrow
  have hsame : g.valueid = h.valueid := hgid.symm.trans (beq_iff_eq.mp hrowid)
  refine ⟨g, hg, hsame, ?_⟩
  rcases (hworld.copied g hg).origin with ⟨att', h', hsrc', hrelid', hid', hdatum⟩ | hnone
  · obtain rfl : h' = h := List.inj_on_of_nodup_map hsound.distinct hsrc'.mem hsrc.mem
      (Prod.ext (hrelid'.trans hrelid.symm) (hid'.trans hsame))
    rwa [hsrc.att_eq hsrc']
  · -- a new number is none of the old table
    obtain ⟨oldrel, holdrel, hstores⟩ := (hsound.refers h hsrc.mem).stored
    rw [hrelid, w.rels_old] at holdrel
    cases holdrel
    have huse := hstores.valueidExists (hsound.bytes h hsrc.mem)
    rw [← hsame, hnone] at huse
    cases huse

/-- **Saving a value.** -/
theorem World.save (hworld : w.World s st) (hopen : sv.Open w.Source col v t)
    (hignore : col.ignore = false) (hbytes : v.stored sv.toServer ≠ []) (htried : sv.Tried col)
    {attr : Mem}
    (hrun : sv.toastSaveDatum st w.rel.toRelation (v.datum sv.toServer) col.taiOldexternal
      = .ok (attr, st')) :
    ∃ s' h, w.World s' st' ∧ h ∈ s'.live ∧ h.attr = attr ∧ h.PointsTo sv ∧ sv.Text h.value t
      ∧ (s'.handles = h :: s.handles ∨ s'.handles = s.handles) := by
  obtain ⟨rel, hrel, -⟩ := hworld.table
  have hsaves := hworld.saves hrel hopen hignore
  rw [hrun] at hsaves
  cases hsaves with
  | @again h hsrc hrelid hmoved hexists =>
    obtain ⟨g, hg, hid, hdatum⟩ := hworld.exists_datum_eq hrel hsrc hrelid hexists
    have hcopied := hworld.copied g hg
    have hsame : v.datum sv.toServer = g.value.datum sv.toServer :=
      (hmoved htried).trans hdatum.symm
    refine ⟨s, g, hworld.setRows_self hrel, Session.mem_live.mpr ⟨hg, hcopied.live⟩, ?_,
      hcopied.pointsTo, hopen.text.of_datum_eq hsame, Or.inr rfl⟩
    rw [hcopied.pointsTo, hid, hcopied.relid_eq, pointer_eq_of_datum_eq hsame]
  | @kept h hsrc hrelid hmoved hfree =>
    have hlt := (hworld.refers hsrc.mem).valueid_lt
    exact ⟨_, _, hworld.saved hrel hfree hworld.counter hbytes hlt
      (Or.inl ⟨col.att, h, hsrc, hrelid, rfl, hmoved htried⟩),
      Session.mem_live.mpr ⟨List.mem_cons_self, rfl⟩, rfl, rfl, hopen.text, Or.inl rfl⟩
  | @new valueid nextOid hfound =>
    obtain ⟨hfree, hfreeOld, hlt, hnext⟩ :=
      OidMode.of_newOidInBoth_eq w.reachable.sound.normal hworld.counter hfound
    exact ⟨_, _, hworld.saved hrel hfree hnext hbytes hlt (Or.inr hfreeOld),
      Session.mem_live.mpr ⟨List.mem_cons_self, rfl⟩, rfl, rfl, hopen.text, Or.inl rfl⟩

theorem Room.mono {m : ℕ} (h : w.Room st n) (hle : m ≤ n) : w.Room st m := by
  obtain ⟨rel, hrel, free, hcard, hfree⟩ := h
  exact ⟨rel, hrel, free, hle.trans hcard, hfree⟩

/-- There is a number as long as there is room. -/
theorem World.exists_save (hworld : w.World s st) (hroom : w.Room st (n + 1))
    (hopen : sv.Open w.Source col v t) (hignore : col.ignore = false) :
    ∃ r, sv.toastSaveDatum st w.rel.toRelation (v.datum sv.toServer) col.taiOldexternal
      = .ok r := by
  obtain ⟨rel, hrel, free, hcard, hfree⟩ := hroom
  have hsaves := hworld.saves hrel hopen hignore
  cases hrun : sv.toastSaveDatum st w.rel.toRelation (v.datum sv.toServer)
      col.taiOldexternal with
  | ok r => exact ⟨r, rfl⟩
  | error trap =>
    rw [hrun] at hsaves
    cases hsaves with
    | failed hnone =>
    obtain ⟨o, ho⟩ := Finset.card_pos.mp (Nat.lt_of_lt_of_le (Nat.succ_pos n) hcard)
    obtain ⟨⟨hunused, hunusedOld⟩, hrange⟩ := hfree o ho
    obtain ⟨found, hfound⟩ := OidMode.exists_newOidInBoth_of_free w.reachable.sound.normal hunused
      hunusedOld hrange hworld.counter (OidMode.oidDistance_lt hrange.2)
    exact absurd hfound (hnone found)

/-- Saving takes one number at most. -/
theorem World.room_save (hworld : w.World s st) (hroom : w.Room st (n + 1))
    (hopen : sv.Open w.Source col v t) (hignore : col.ignore = false) {attr : Mem}
    (hrun : sv.toastSaveDatum st w.rel.toRelation (v.datum sv.toServer) col.taiOldexternal
      = .ok (attr, st')) : w.Room st' n := by
  obtain ⟨rel, hrel, free, hcard, hfree⟩ := hroom
  have herase : ∀ valueid nextOid, w.Room (sv.saved st w.new rel v valueid nextOid) n := by
    intro valueid nextOid
    refine ⟨_, if_pos rfl, free.erase valueid, ?_, fun o ho => ?_⟩
    · have := @Finset.pred_card_le_card_erase _ free valueid _
      omega
    · obtain ⟨hne, ho⟩ := Finset.mem_erase.mp ho
      obtain ⟨⟨hunused, hunusedOld⟩, hrange⟩ := hfree o ho
      exact ⟨⟨valueidExists_saved hne hunused _, hunusedOld⟩, hrange⟩
  have hsaves := hworld.saves hrel hopen hignore
  rw [hrun] at hsaves
  cases hsaves with
  | again hsrc hrelid hmoved hexists =>
    exact ⟨rel, if_pos rfl, free, (Nat.le_succ n).trans hcard, hfree⟩
  | kept hsrc hrelid hmoved hunused => exact herase _ _
  | new hfound => exact herase _ _

/-- **How values are saved in a rewrite**: one that is there already is not saved again. -/
def saver (w : sv.Rewrite) : sv.Saver w.rel.toRelation w.Source where
  World := w.World
  Room := w.Room
  Fresh := False
  save hworld hopen hignore hbytes htried hrun := by
    obtain ⟨s', h, hworld', hh, hattr, hpoints, ht, hgrown⟩ :=
      hworld.save hopen hignore hbytes (htried id) hrun
    exact ⟨s', h, hworld', hh, hattr, hpoints, ht, hgrown.imp_right fun heq => ⟨id, heq⟩⟩
  exists_save hworld hroom hopen hignore := hworld.exists_save hroom hopen hignore
  room_save hworld hroom hopen hignore hrun := hworld.room_save hroom hopen hignore hrun
  room_mono h hle := h.mono hle

end Rewrite

end StoreServer
