import Mathlib.Data.List.Flatten
import Hoco.ToastRewriteSave

/-!
# Rewriting a table

The versions of the rows of a table are taken apart and put together again one by one
(`reform_and_rewrite_tuple`), given to the toaster if they are large or have values out of
line, and refused if they are too big for a page even so (`raw_heap_insert`). In the end the
files of the toast tables are swapped. What the toaster does is known from `Rewrite.saver`;
here it is said of a row, of all rows, and of the table that comes out. The rows of any table
that can come about are such versions (`Tables.Reachable.exists_rewrite`), and there may be
others, which have been deleted.
-/

open Rle

namespace StoreServer

section

variable (sv : StoreServer)

end

namespace Rewrite

variable {sv : StoreServer} {w : sv.Rewrite} {s s' : Session} {st st' : Store}

/-! ## Writing a row -/

/-- **What writing a row has done**: it stands for its texts, is not larger than they need, and
what is new in the toast table belongs to it. -/
structure Wrote (w : sv.Rewrite) (s : Session) (texts : List (Option (List UInt8))) (s' : Session)
    (st' : Store) (tup : HeapTuple) (values : List (Option Mem)) : Prop where
  world : w.World s' st'
  row : sv.Row w.rel s'.live tup values texts
  grown : s.handles ⊆ s'.handles
  owned : ∀ h ∈ s'.handles, h ∈ s.handles ∨ h.attr ∈ sv.rowRefs w.rel values
  size_le : tup.tLen ≤ rowSizeBound texts

/-- A row that was formed from its columns is not larger than its texts need. -/
theorem tLen_le_of_holds {hs : List Handle} {tup : HeapTuple}
    {cols : List (Attribute × Option Mem)} {texts : List (Option (List UInt8))}
    (hcols : List.Forall₂ (sv.Column hs) cols texts) (h : sv.Holds tup cols) :
    tup.tLen ≤ rowSizeBound texts := by
  have hle := Column.allocSize_le hcols 0
  rw [Server.allocSize, Nat.zero_add, Nat.zero_add] at hle
  rw [tLen_of_holds h]
  exact hle

theorem maxalign_le {m n : ℕ} (h : m ≤ n) : maxalign m ≤ maxalign n :=
  Nat.mul_le_mul_right 8 (Nat.div_le_div_right (Nat.add_le_add_right h 7))

/-- The header is largest if there are nulls. -/
theorem headerLen_le (hasnulls : Bool) (natts : ℕ) :
    headerLen hasnulls natts ≤ headerLen true natts := by
  cases hasnulls with
  | true => exact Nat.le_refl _
  | false => exact maxalign_le (Nat.le_add_right _ _)

section

variable {row : RowVersion} {newtup : HeapTuple} {values : List (Option Mem)}

/-- **A version is put together again.** -/
theorem exists_heapFormTuple_eq (hrow : row ∈ w.versions) :
    ∃ newtup values, sv.heapFormTuple (w.rel.rdAtt.zip row.values) = .ok newtup
      ∧ sv.Row w.rel w.session.handles newtup values row.texts
      ∧ newtup.tLen ≤ rowSizeBound row.texts
      ∧ ∀ col ∈ w.rel.rdAtt.zip values, ∀ h ∈ w.session.handles,
        sv.ref col.1 col.2 = some h.attr → w.Source col.1 h := by
  have hr := w.rows row hrow
  have hcols : List.Forall₂ (sv.NewColumn w.session.handles) (w.rel.rdAtt.zip row.values)
      row.texts := hr.carries.imp fun _ _ hc => hc.newColumn
  have hlen : (w.rel.rdAtt.zip row.values).length = w.rel.rdAtt.length := by
    rw [List.length_zip, hr.length_eq, Nat.min_self]
  obtain ⟨newtup, hform, hholds⟩ := (Column.allFit hr.carries).exists_heapFormTuple_eq
    (hlen.symm ▸ w.natts_le) ((Column.allocSize_le hr.carries _).trans (w.size_le row hrow))
  obtain ⟨values, hnew, hzip⟩ := exists_row_of_holds
    (List.map_fst_zip (Nat.le_of_eq hr.length_eq.symm)) hcols hholds
  refine ⟨newtup, values, hform, hnew, tLen_le_of_holds hr.carries hholds,
    fun col hcol h hmem href => ?_⟩
  rw [hzip] at hcol
  obtain ⟨col', hcol', rfl⟩ := List.mem_map.mp hcol
  obtain ⟨i, hi⟩ := List.getElem?_of_mem hcol'
  obtain ⟨t, -, ht, -⟩ := exists_forall₂_set hcols hi
  exact ⟨hmem, row, hrow, col', hcol', rfl, ht.column_stored.2.symm.trans href⟩

variable (hl : sv.Lossless) (hworld : w.World s st) (hrow : row ∈ w.versions)
  (hnew : sv.Row w.rel w.session.handles newtup values row.texts)
  (hsize : newtup.tLen ≤ rowSizeBound row.texts)
  (hsrc : ∀ col ∈ w.rel.rdAtt.zip values, ∀ h ∈ w.session.handles,
    sv.ref col.1 col.2 = some h.attr → w.Source col.1 h)
  (hroom : w.Room st w.rel.rdAtt.length)

include hl hworld hrow hnew hsize hsrc hroom

/-- **The toaster, in a rewrite.** -/
theorem exists_heapToastInsertOrUpdate_eq :
    ∃ s' st' tup values',
      sv.heapToastInsertOrUpdate st w.rel newtup none = .ok (st', tup)
      ∧ w.Wrote s row.texts s' st' tup values'
      ∧ ∀ n, w.Room st (n + w.rel.rdAtt.length) → w.Room st' n := by
  have hold : sv.OldRow w.rel w.session.handles none none := .none
  have hinput : List.Forall₂ (sv.InputOk w.Source w.session.handles s.live)
      (w.rel.rdAtt.zip ((oldColumns w.rel none).zip values)) row.texts := by
    refine forall₂_inputOk hold.length_oldColumns hnew.length_eq hnew.carries
      (fun p hp m hm => ?_) hsrc
    rw [join_eq_none_of_mem_oldColumns hp] at hm
    cases hm
  have hheader := (headerLen_le (values.any Option.isNone) w.rel.rdAtt.length).trans w.header_le
  have hsaver : w.saver.World s st := hworld
  obtain ⟨s', ts, tup, values', hover, hrun⟩ := exists_toastRow_eq hl
    (fun _ => maxDataLen_le_main hheader w.target_le) (fun h hh => hworld.refers hh) hsaver hnew
    hold.length_oldColumns hinput (w.compressors row hrow) (fun _ => hroom) (w.readable row hrow)
    (w.size_le row hrow)
  obtain ⟨kept, htoasting, hkept⟩ := hover.toasting
  obtain ⟨new, reused, hhandles, -, -, hrefs⟩ := htoasting.grown
  -- nothing is kept from an old row, and nothing is deleted
  rw [hold.refs_eq] at hkept
  obtain ⟨rfl, hdeleted⟩ := List.append_eq_nil_iff.mp (List.nil_perm.mp hkept)
  have hcleanup : sv.toastTupleCleanup ts.store ts.cols = .ok ts.store := by
    rw [toastTupleCleanup_eq hover.needs, hdeleted]
    rfl
  rw [hcleanup] at hrun
  refine ⟨s', ts.store, tup, values', (heapToastInsertOrUpdate_eq hnew hold st).trans hrun,
    ⟨htoasting.world, hover.row, ?_, fun h hh => ?_, ?_⟩, fun n hn => ?_⟩
  · rw [hhandles]
    exact List.subset_append_right _ _
  · rw [hhandles] at hh
    refine (List.mem_append.mp hh).symm.imp_right fun hh => ?_
    rw [hover.refs_eq]
    exact hrefs.mem_iff.mpr (List.mem_append_left _ (List.mem_map_of_mem hh))
  · rcases hover.result with ⟨hholds, -⟩ | ⟨rfl, -⟩
    · exact tLen_le_of_holds htoasting.forall₂_column hholds
    · exact hsize
  · have hcount : ts.cols.countP ToastColumn.ignore ≤ w.rel.rdAtt.length := by
      refine List.countP_le_length.trans (Nat.le_of_eq ?_)
      have hlen := congrArg List.length hover.atts_eq
      rwa [List.length_map, List.length_map] at hlen
    exact htoasting.room n (hn.mono (Nat.add_le_add_left hcount n))

end

end Rewrite

end StoreServer

/-! ## Tables that can be rewritten -/

/-- What is in the lists of two elements is in one list twice. -/
theorem eq_of_mem_of_nodup_flatMap {α β : Type*} {f : α → List β} {l : List α}
    (h : (l.flatMap f).Nodup) {a b : α} (ha : a ∈ l) (hb : b ∈ l) {x : β} (hxa : x ∈ f a)
    (hxb : x ∈ f b) : a = b := by
  by_contra hne
  have hsymm : Std.Symm (Function.onFun List.Disjoint f) := ⟨fun _ _ hd => hd.symm⟩
  exact (List.nodup_flatMap.mp h).2.forall ha hb hne hxa hxb

namespace Tables

open StoreServer

variable {sv : StoreServer} {T : Tables}

/-- A row, with its values. -/
def versionOf (sv : StoreServer) (row : TableRow) : RowVersion :=
  ⟨row.tup, ((sv.heapDeformTuple row.tup (row.rel.rdAtt.map (·, none))).toOption.map
    Prod.fst).getD [], row.texts⟩

theorem values_versionOf {hs : List Handle} {row : TableRow} {values : List (Option Mem)}
    (h : sv.Row row.rel hs row.tup values row.texts) : (versionOf sv row).values = values := by
  obtain ⟨desc, hdeform⟩ := h.deform
  unfold versionOf
  rw [hdeform]
  rfl

/-- **The rows of any table that can come about can be rewritten**: they stand for their texts,
and no pointer is in two of them. -/
theorem Reachable.exists_rewrite (hl : sv.Lossless) (h : Reachable sv T) {rel : HeapRelation}
    {oldrel newrel : ToastRel} {rows : List TableRow} (hrows : rows.Sublist T.rows)
    (hatts : ∀ row ∈ rows, row.rel.rdAtt = rel.rdAtt)
    (hold : rel.rdToastoid ≠ 0 ∧ rel.rdToastoid < 2 ^ 32)
    (hne : rel.reltoastrelid ≠ rel.rdToastoid)
    (holdrel : T.store.rels rel.rdToastoid = some oldrel)
    (hnewrel : T.store.rels rel.reltoastrelid = some newrel) (hempty : newrel.rows = [])
    (hnatts : rel.rdAtt.length ≤ Server.maxTupleAttributeNumber)
    (hheader : headerLen true rel.rdAtt.length ≤ rel.getToastTupleTarget defaultToastTupleTarget)
    (htarget : rel.getToastTupleTarget defaultToastTupleTarget ≤ toastTupleTargetMain)
    (htexts : ∀ row ∈ rows, sv.CompressorsReturn rel.rdAtt row.texts
      ∧ PlainReadable rel row.texts
      ∧ Server.heaptuplesize + rowSizeBound row.texts ≤ maxAllocSize) :
    ∃ w : sv.Rewrite, w.session.store = T.store ∧ w.rel = rel
      ∧ w.versions = rows.map (versionOf sv) := by
  obtain ⟨s, hs⟩ := h.exists_accounted hl
  have hrow : ∀ row ∈ rows,
      sv.Row rel s.handles row.tup (versionOf sv row).values row.texts
        ∧ pointersOf sv row = sv.refs (rel.rdAtt.zip (versionOf sv row).values) := by
    intro row hrow
    obtain ⟨values, hr⟩ := hs.rows row (hrows.subset hrow)
    rw [values_versionOf hr, show pointersOf sv row = _ from hr.pointersOf_eq, rowRefs,
      hatts row hrow]
    obtain ⟨hdeform, hlength, hcarries, hexternal⟩ := hr
    rw [hatts row hrow] at hdeform hlength hcarries hexternal
    exact ⟨⟨hdeform, hlength,
      hcarries.imp fun _ _ hc => hc.of_subset fun _ hg => (Session.mem_live.mp hg).1,
      hexternal⟩, rfl⟩
  -- all columns of all rows have each pointer once
  have hnodup : ((rows.flatMap fun row => rel.rdAtt.zip (versionOf sv row).values).flatMap
      fun col => (sv.ref col.1 col.2).toList).Nodup := by
    rw [List.flatMap_assoc]
    have hsame := List.flatMap_congr fun row hmem => ((hrow row hmem).2).symm
    exact hsame ▸ (hrows.flatMap (pointersOf sv)).nodup
      (hs.live.nodup_iff.mp hs.sound.nodup_liveAttrs)
  refine ⟨⟨s, rel, oldrel, newrel, rows.map (versionOf sv), hs.reachable, hold.1, hold.2, hne,
    hs.store_eq ▸ holdrel, hs.store_eq ▸ hnewrel, hempty, hnatts, hheader, htarget,
    List.forall_mem_map.mpr fun row hmem => (hrow row hmem).1,
    List.forall_mem_map.mpr fun row hmem => (htexts row hmem).1,
    List.forall_mem_map.mpr fun row hmem => (htexts row hmem).2.1,
    List.forall_mem_map.mpr fun row hmem => (htexts row hmem).2.2, ?_⟩, hs.store_eq, rfl, rfl⟩
  refine List.forall_mem_map.mpr fun row hmem => List.forall_mem_map.mpr fun row' hmem' => ?_
  intro col hcol col' hcol' hsome href
  obtain ⟨m, hm⟩ := Option.ne_none_iff_exists'.mp hsome
  have heq := eq_of_mem_of_nodup_flatMap hnodup (List.mem_flatMap.mpr ⟨row, hmem, hcol⟩)
    (List.mem_flatMap.mpr ⟨row', hmem', hcol'⟩) (Option.mem_toList.mpr hm)
    (Option.mem_toList.mpr (href ▸ hm))
  exact congrArg Prod.fst heq

end Tables
