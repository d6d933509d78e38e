import Mathlib.Logic.Relation
import Hoco.ToastSave

/-!
# A toast store over time

`Session` is a toast store together with the pointers that have been handed out, and
`Session.Step` says what can happen to it: a value is saved; a pointer is deleted, or taken
back when the insertion of its row was speculative; dead rows are cleaned up, some or all
of them, at any time; and others take OIDs from the counter. A pointer that was deleted is
there until a row of it is cleaned up. What holds after any sequence of such steps is
`Session.Sound`: every pointer that is live, or deleted and not cleaned up, refers to its
value; no two of them have the same id; and every row that is alive belongs to a live
pointer.

Only values with at least one byte are saved, as the toaster does. A value without bytes
has no row that would keep its id from being given away once the counter has come around.
-/

open Chunking

/-- A pointer that was handed out, and what it was handed out for. -/
structure Handle where
  attr : Mem
  value : Value
  valueid : ℕ
  relid : ℕ
  /-- It has not been deleted. -/
  live : Bool

/-- What must not be the same for two values. -/
def Handle.key (h : Handle) : ℕ × ℕ := (h.relid, h.valueid)

/-- Cleaning up a table leaves all rows of the pointer. -/
def Handle.survives (st : Store) (relid : ℕ) (keep : ToastRow → Bool) (h : Handle) : Bool :=
  h.relid != relid || (st.rels relid).elim true fun rel =>
    rel.rows.all fun row => row.chunkId != h.valueid || (!row.dead || keep row)

/-- **The tables, and the pointers into them**, in any order. -/
structure Session where
  store : Store
  handles : List Handle

/-- A step leaves every row of a pointer. -/
def Handle.Kept (h : Handle) (s s' : Session) : Prop :=
  ∀ rel, s.store.rels h.relid = some rel → ∃ rel', s'.store.rels h.relid = some rel'
    ∧ ∀ row ∈ rel.rows, row.chunkId = h.valueid → row ∈ rel'.rows

namespace Session

variable (sv : StoreServer)

/-- A store whose tables are empty, and a server that assigns OIDs. -/
structure Start (s : Session) : Prop where
  normal : sv.oids.Normal
  counter : s.store.nextOid < 2 ^ 32
  empty : ∀ relid rel, s.store.rels relid = some rel → rel.rows = []
  handles : s.handles = []

/-- **What can happen.** -/
inductive Step : Session → Session → Prop where
  | save {s : Session} {attr : Mem} {st : Store} {p : VarattExternal} (relid : ℕ) (v : Value)
      (hrelid : relid < 2 ^ 32) (hbytes : v.stored sv.toServer ≠ [])
      (hrun : sv.toastSaveDatum s.store ⟨relid, 0⟩ (v.datum sv.toServer) none = .ok (attr, st))
      (hpointer : sv.varattExternalGetPointer attr = .ok p) :
      Step s ⟨st, ⟨attr, v, p.vaValueid, relid, true⟩ :: s.handles⟩
  | delete {s : Session} {h : Handle} {rest : List Handle} {st : Store}
      (hhandles : s.handles.Perm (h :: rest)) (hlive : h.live = true)
      (hrun : sv.toastDeleteDatum s.store h.attr false = .ok st) :
      Step s ⟨st, { h with live := false } :: rest⟩
  | retract {s : Session} {h : Handle} {rest : List Handle} {st : Store}
      (hhandles : s.handles.Perm (h :: rest)) (hlive : h.live = true)
      (hrun : sv.toastDeleteDatum s.store h.attr true = .ok st) :
      Step s ⟨st, rest⟩
  | vacuum {s : Session} (relid : ℕ) (keep : ToastRow → Bool) :
      Step s ⟨s.store.vacuum relid keep, s.handles.filter (Handle.survives s.store relid keep)⟩
  | counter {s : Session} {nextOid : ℕ} (hnext : nextOid < 2 ^ 32) :
      Step s ⟨{ s.store with nextOid := nextOid }, s.handles⟩

/-- The sessions that can come about. -/
def Reachable (s : Session) : Prop :=
  ∃ s₀ : Session, Start sv s₀ ∧ Relation.ReflTransGen (Step sv) s₀ s

/-- **What holds at every time.** -/
structure Sound (s : Session) : Prop where
  normal : sv.oids.Normal
  counter : s.store.nextOid < 2 ^ 32
  refers : ∀ h ∈ s.handles, sv.Refers s.store h.attr h.value h.valueid h.relid
  bytes : ∀ h ∈ s.handles, h.value.stored sv.toServer ≠ []
  dead : ∀ h ∈ s.handles, ∀ rel, s.store.rels h.relid = some rel →
    ∀ row ∈ rel.rows, row.chunkId = h.valueid → row.dead = !h.live
  distinct : (s.handles.map Handle.key).Nodup
  owned : ∀ relid rel, s.store.rels relid = some rel → ∀ row ∈ rel.rows, row.dead = false →
    ∃ h ∈ s.handles, h.live = true ∧ h.key = (relid, row.chunkId)

end Session

/-! ## Tables that change -/

theorem Store.of_rels_setRows {st : Store} {relid r : ℕ} {rel rel' : ToastRel} {rows : List ToastRow}
    (h : (st.setRows relid rel rows).rels r = some rel') :
    (r ≠ relid ∧ st.rels r = some rel') ∨ (r = relid ∧ rel'.rows = rows) := by
  unfold Store.setRows at h
  dsimp only at h
  split at h
  · rename_i hr
    cases h
    exact Or.inr ⟨hr, rfl⟩
  · rename_i hr
    exact Or.inl ⟨hr, h⟩

namespace StoreServer

variable {sv : StoreServer} {st : Store} {attr : Mem} {v : Value} {valueid relid r : ℕ}
  {rel : ToastRel} {rows : List ToastRow}

/-- A pointer keeps what it refers to when the rows with its id keep their columns. -/
theorem Refers.setRows (h : sv.Refers st attr v valueid r) (hrel : st.rels relid = some rel)
    (hsame : r = relid → (rows.filter fun row => row.chunkId = valueid).map ToastRow.columns
      = (rel.rows.filter fun row => row.chunkId = valueid).map ToastRow.columns) (nextOid : ℕ) :
    sv.Refers { st.setRows relid rel rows with nextOid := nextOid } attr v valueid r where
  pointer := h.pointer
  valueid_lt := h.valueid_lt
  relid_lt := h.relid_lt
  stored := by
    obtain ⟨old, hold, hstores⟩ := h.stored
    by_cases hr : r = relid
    · obtain rfl : rel = old := Option.some.inj (hrel ▸ hr ▸ hold)
      exact ⟨{ rel with rows := rows }, if_pos hr, hstores.congr (hsame hr)⟩
    · exact ⟨old, (if_neg hr).trans hold, hstores⟩

/-- **A pointer that `toast_save_datum` returns refers to the value.** -/
theorem refers_saved (hfree : rel.valueidExists valueid = false) (hid : valueid < 2 ^ 32)
    (hrelid : relid < 2 ^ 32) (v : Value) (nextOid : ℕ) :
    sv.Refers (sv.saved st relid rel v valueid nextOid)
      (sv.toastPointer (v.pointer sv.toServer valueid relid)) v valueid relid where
  pointer := rfl
  valueid_lt := hid
  relid_lt := hrelid
  stored := ⟨_, if_pos rfl, Server.stores_append hfree⟩

/-- A row of a value has its id in use. -/
theorem Refers.valueidExists (h : sv.Refers st attr v valueid relid)
    (hbytes : v.stored sv.toServer ≠ []) (hrel : st.rels relid = some rel) :
    rel.valueidExists valueid = true := by
  obtain ⟨old, hold, hstores⟩ := h.stored
  obtain rfl : rel = old := Option.some.inj (hrel ▸ hold)
  exact hstores.valueidExists hbytes

/-- What `toast_delete_datum` does with a pointer. -/
theorem Refers.toastDeleteDatum_eq (h : sv.Refers st attr v valueid relid)
    (hrel : st.rels relid = some rel) (isSpeculative : Bool) :
    sv.toastDeleteDatum st attr isSpeculative
      = if isSpeculative then
          .ok (st.setRows relid rel (rel.rows.filter fun row => row.chunkId != valueid))
        else if rel.rows.any fun row => row.chunkId == valueid && row.dead then
          .error (.ereport { code := .internalError, message := "tuple concurrently deleted" })
        else
          .ok (st.setRows relid rel (rel.rows.map fun row =>
            if row.chunkId = valueid then { row with dead := true } else row)) := by
  rw [toastDeleteDatum, h.varattIsExternalOndisk_eq, Run.ok_bind, if_pos rfl,
    h.varattExternalGetPointer_eq, Run.ok_bind,
    show (v.pointer sv.toServer valueid relid).vaToastrelid = relid from rfl,
    Store.tableOpen_of_rels hrel, Run.ok_bind]
  rfl

end StoreServer

/-! ## One step -/

namespace Session

variable {sv : StoreServer} {s : Session}

theorem Start.sound (h : Start sv s) : Sound sv s where
  normal := h.normal
  counter := h.counter
  refers := by simp [h.handles]
  bytes := by simp [h.handles]
  dead := by simp [h.handles]
  distinct := by simp [h.handles]
  owned := fun relid rel hrel row hrow => by simp [h.empty relid rel hrel] at hrow

/-- Saving. -/
theorem Sound.save (hs : Sound sv s) {relid valueid nextOid : ℕ} {rel : ToastRel}
    (hrel : s.store.rels relid = some rel) (hfree : rel.valueidExists valueid = false)
    (hid : valueid < 2 ^ 32) (hrelid : relid < 2 ^ 32) (hnext : nextOid < 2 ^ 32) {v : Value}
    (hbytes : v.stored sv.toServer ≠ []) :
    Sound sv ⟨sv.saved s.store relid rel v valueid nextOid,
      ⟨sv.toastPointer (v.pointer sv.toServer valueid relid), v, valueid, relid, true⟩ ::
        s.handles⟩ := by
  have hnew : ∀ row ∈ sv.chunkRows valueid 0 (chunks toastMaxChunkSize (v.stored sv.toServer)),
      row.chunkId = valueid ∧ row.dead = false := fun row => sv.of_mem_chunkRows
  have hold : ∀ row ∈ rel.rows, row.chunkId ≠ valueid := fun row hrow => by
    simpa using List.any_eq_false.mp hfree row hrow
  -- an id that a pointer has is in use
  have hother : ∀ h ∈ s.handles, h.relid = relid → h.valueid ≠ valueid := by
    rintro h hmem rfl rfl
    have huse := (hs.refers h hmem).valueidExists (hs.bytes h hmem) hrel
    rw [hfree] at huse
    cases huse
  refine ⟨hs.normal, hnext, ?_, ?_, ?_, ?_, ?_⟩
  · intro h hmem
    rcases List.mem_cons.mp hmem with rfl | hmem
    · exact StoreServer.refers_saved hfree hid hrelid v nextOid
    · refine (hs.refers h hmem).setRows hrel (fun hr => ?_) nextOid
      have hnone : (sv.chunkRows valueid 0 (chunks toastMaxChunkSize (v.stored sv.toServer))).filter
          (fun row => row.chunkId = h.valueid) = [] := by
        rw [List.filter_eq_nil_iff]
        intro row hrow
        rw [(hnew row hrow).1, decide_eq_true_eq]
        exact (hother h hmem hr).symm
      rw [List.filter_append, hnone, List.append_nil]
  · intro h hmem
    rcases List.mem_cons.mp hmem with rfl | hmem
    · exact hbytes
    · exact hs.bytes h hmem
  · intro h hmem rel' hrel' row hrow hrowid
    rcases Store.of_rels_setRows hrel' with ⟨hr, hsame⟩ | ⟨hr, hrows⟩
    · rcases List.mem_cons.mp hmem with rfl | hmem
      · exact absurd rfl hr
      · exact hs.dead h hmem rel' hsame row hrow hrowid
    · rw [hrows, List.mem_append] at hrow
      rcases List.mem_cons.mp hmem with rfl | hmem
      · exact hrow.elim (fun hrow => absurd hrowid (hold row hrow)) fun hrow => (hnew row hrow).2
      · rcases hrow with hrow | hrow
        · exact hs.dead h hmem rel (hr ▸ hrel) row hrow hrowid
        · exact absurd (hrowid.symm.trans (hnew row hrow).1) (hother h hmem hr)
  · rw [List.map_cons, List.nodup_cons]
    refine ⟨fun hmem => ?_, hs.distinct⟩
    obtain ⟨h, hmem, hkey⟩ := List.mem_map.mp hmem
    exact hother h hmem (congrArg Prod.fst hkey) (congrArg Prod.snd hkey)
  · intro r rel' hrel' row hrow hlive
    rcases Store.of_rels_setRows hrel' with ⟨-, hsame⟩ | ⟨rfl, hrows⟩
    · obtain ⟨h, hmem, hh⟩ := hs.owned r rel' hsame row hrow hlive
      exact ⟨h, List.mem_cons_of_mem _ hmem, hh⟩
    · rw [hrows, List.mem_append] at hrow
      rcases hrow with hrow | hrow
      · obtain ⟨h, hmem, hh⟩ := hs.owned r rel hrel row hrow hlive
        exact ⟨h, List.mem_cons_of_mem _ hmem, hh⟩
      · exact ⟨_, List.mem_cons_self, rfl, congrArg (r, ·) (hnew row hrow).1.symm⟩

/-- The handles that are not `h` have other ids. -/
theorem Sound.key_ne (hs : Sound sv s) {h : Handle} {rest : List Handle}
    (hhandles : s.handles.Perm (h :: rest)) {g : Handle} (hg : g ∈ rest) : g.key ≠ h.key := by
  have hnodup := (hhandles.map Handle.key).nodup_iff.mp hs.distinct
  rw [List.map_cons, List.nodup_cons] at hnodup
  exact fun hkey => hnodup.1 (hkey ▸ List.mem_map_of_mem hg)

/-- **A live pointer can be deleted.** -/
theorem Sound.toastDeleteDatum_eq (hs : Sound sv s) {h : Handle} (hmem : h ∈ s.handles)
    (hlive : h.live = true) {rel : ToastRel} (hrel : s.store.rels h.relid = some rel) :
    sv.toastDeleteDatum s.store h.attr false
      = .ok (s.store.setRows h.relid rel (rel.rows.map fun row =>
          if row.chunkId = h.valueid then { row with dead := true } else row)) := by
  have hnone : (rel.rows.any fun row => row.chunkId == h.valueid && row.dead) = false := by
    rw [List.any_eq_false]
    intro row hrow hboth
    rw [Bool.and_eq_true, beq_iff_eq] at hboth
    have hdead := hs.dead h hmem rel hrel row hrow hboth.1
    rw [hlive, hboth.2] at hdead
    cases hdead
  rw [(hs.refers h hmem).toastDeleteDatum_eq hrel, if_neg Bool.false_ne_true, hnone,
    if_neg Bool.false_ne_true]

/-- Deleting. The rows stay, for those who still have the pointer. -/
theorem Sound.delete (hs : Sound sv s) {h : Handle} {rest : List Handle}
    (hhandles : s.handles.Perm (h :: rest)) {rel : ToastRel}
    (hrel : s.store.rels h.relid = some rel) :
    Sound sv ⟨s.store.setRows h.relid rel (rel.rows.map fun row =>
        if row.chunkId = h.valueid then { row with dead := true } else row),
      { h with live := false } :: rest⟩ := by
  have hmem : ∀ {g}, g ∈ h :: rest → g ∈ s.handles := fun hg => hhandles.mem_iff.mpr hg
  -- marking a row changes neither its id nor what a scan returns
  have hcolumns : ∀ id, ((rel.rows.map fun row =>
      if row.chunkId = h.valueid then { row with dead := true } else row).filter
        fun row => row.chunkId = id).map ToastRow.columns
      = (rel.rows.filter fun row => row.chunkId = id).map ToastRow.columns := by
    intro id
    rw [List.filter_map, List.map_map]
    refine congrArg₂ List.map (funext fun row => ?_) (List.filter_congr fun row _ => ?_) <;>
      simp only [Function.comp_apply] <;> split <;> rfl
  have hrefers : ∀ {g}, g ∈ h :: rest → _ := fun {g} hg =>
    (hs.refers g (hmem hg)).setRows hrel (fun _ => hcolumns g.valueid) s.store.nextOid
  refine ⟨hs.normal, hs.counter, ?_, ?_, ?_, ?_, ?_⟩
  · intro g hg
    rcases List.mem_cons.mp hg with rfl | hg
    · exact @hrefers h List.mem_cons_self
    · exact hrefers (List.mem_cons_of_mem _ hg)
  · intro g hg
    rcases List.mem_cons.mp hg with rfl | hg
    · exact hs.bytes h (hmem List.mem_cons_self)
    · exact hs.bytes g (hmem (List.mem_cons_of_mem _ hg))
  · intro g hg rel' hrel' row hrow hrowid
    rcases Store.of_rels_setRows hrel' with ⟨hr, hsame⟩ | ⟨hr, hrows⟩
    · rcases List.mem_cons.mp hg with rfl | hg
      · exact absurd rfl hr
      · exact hs.dead g (hmem (List.mem_cons_of_mem _ hg)) rel' hsame row hrow hrowid
    · rw [hrows, List.mem_map] at hrow
      obtain ⟨old, hold, rfl⟩ := hrow
      rcases List.mem_cons.mp hg with rfl | hg
      · by_cases hsame : old.chunkId = h.valueid
        · rw [if_pos hsame]
          rfl
        · rw [if_neg hsame] at hrowid
          exact absurd hrowid hsame
      · have hne := hs.key_ne hhandles hg
        have hother : old.chunkId ≠ h.valueid := by
          intro hsame
          rw [if_pos hsame] at hrowid
          exact hne (Prod.ext hr (hrowid.symm.trans hsame))
        rw [if_neg hother] at hrowid ⊢
        exact hs.dead g (hmem (List.mem_cons_of_mem _ hg)) rel (hr ▸ hrel) old hold hrowid
  · exact (hhandles.map Handle.key).nodup_iff.mp hs.distinct
  · intro r rel' hrel' row hrow hlive
    have hkeep : ∀ {old}, s.store.rels r = some old → row ∈ old.rows →
        (r, row.chunkId) ≠ h.key →
        ∃ g ∈ { h with live := false } :: rest, g.live = true ∧ g.key = (r, row.chunkId) := by
      intro old hold hrow hne
      obtain ⟨g, hg, hglive, hkey⟩ := hs.owned r old hold row hrow hlive
      rcases List.mem_cons.mp (hhandles.mem_iff.mp hg) with rfl | hg
      · exact absurd hkey.symm hne
      · exact ⟨g, List.mem_cons_of_mem _ hg, hglive, hkey⟩
    rcases Store.of_rels_setRows hrel' with ⟨hr, hsame⟩ | ⟨rfl, hrows⟩
    · exact hkeep hsame hrow fun hkey => hr (congrArg Prod.fst hkey)
    · rw [hrows, List.mem_map] at hrow
      obtain ⟨old, hold, rfl⟩ := hrow
      by_cases hsame : old.chunkId = h.valueid
      · rw [if_pos hsame] at hlive
        cases hlive
      · rw [if_neg hsame] at hlive hkeep ⊢
        exact hkeep hrel hold fun hkey => hsame (congrArg Prod.snd hkey)

/-- Rows that go away without a pointer to them: the rest is as sound as before. -/
theorem Sound.remove (hs : Sound sv s) {relid : ℕ} {rel : ToastRel}
    (hrel : s.store.rels relid = some rel) {keep : ToastRow → Bool} {handles : List Handle}
    (hsub : handles.Subperm s.handles)
    (hkept : ∀ h ∈ handles, h.relid = relid → ∀ row ∈ rel.rows, row.chunkId = h.valueid →
      keep row = true)
    (hstay : ∀ h ∈ s.handles, h.live = true →
      (∃ row ∈ rel.rows, keep row = true ∧ h.key = (relid, row.chunkId)) ∨ h.relid ≠ relid →
      h ∈ handles) :
    Sound sv ⟨s.store.setRows relid rel (rel.rows.filter keep), handles⟩ where
  normal := hs.normal
  counter := hs.counter
  refers := by
    intro h hh
    refine (hs.refers h (hsub.subset hh)).setRows hrel (fun hr => ?_) s.store.nextOid
    rw [List.filter_filter]
    refine congrArg (List.map _) (List.filter_congr fun row hrow => ?_)
    by_cases hid : row.chunkId = h.valueid
    · simp [hid, hkept h hh hr row hrow hid]
    · simp [hid]
  bytes := fun h hh => hs.bytes h (hsub.subset hh)
  dead := by
    intro h hh rel' hrel' row hrow hid
    rcases Store.of_rels_setRows hrel' with ⟨-, hsame⟩ | ⟨hr, hrows⟩
    · exact hs.dead h (hsub.subset hh) rel' hsame row hrow hid
    · rw [hrows] at hrow
      exact hs.dead h (hsub.subset hh) rel (hr ▸ hrel) row (List.mem_of_mem_filter hrow) hid
  distinct := by
    obtain ⟨l, hperm, hl⟩ := hsub
    exact (hperm.map Handle.key).nodup_iff.mp (hs.distinct.sublist (hl.map Handle.key))
  owned := by
    intro r rel' hrel' row hrow hlive
    rcases Store.of_rels_setRows hrel' with ⟨hr, hsame⟩ | ⟨rfl, hrows⟩
    · obtain ⟨h, hmem, hhlive, hkey⟩ := hs.owned r rel' hsame row hrow hlive
      refine ⟨h, hstay h hmem hhlive (Or.inr ?_), hhlive, hkey⟩
      rwa [show h.relid = r from congrArg Prod.fst hkey]
    · rw [hrows, List.mem_filter] at hrow
      obtain ⟨h, hmem, hhlive, hkey⟩ := hs.owned r rel hrel row hrow.1 hlive
      exact ⟨h, hstay h hmem hhlive (Or.inl ⟨row, hrow.1, hrow.2, hkey⟩), hhlive, hkey⟩

/-- Taking back: the rows of the pointer go. -/
theorem Sound.retract (hs : Sound sv s) {h : Handle} {rest : List Handle}
    (hhandles : s.handles.Perm (h :: rest)) {rel : ToastRel}
    (hrel : s.store.rels h.relid = some rel) :
    Sound sv ⟨s.store.setRows h.relid rel (rel.rows.filter fun row => row.chunkId != h.valueid),
      rest⟩ := by
  refine hs.remove hrel ((List.sublist_cons_self h rest).subperm.trans hhandles.symm.subperm) ?_ ?_
  · intro g hg hr row hrow hid
    rw [bne_iff_ne, hid]
    exact fun hsame => hs.key_ne hhandles hg (Prod.ext hr hsame)
  · intro g hg hlive hstays
    refine (List.mem_cons.mp (hhandles.mem_iff.mp hg)).resolve_left ?_
    rintro rfl
    rcases hstays with ⟨row, -, hne, hkey⟩ | hr
    · rw [bne_iff_ne] at hne
      exact hne (congrArg Prod.snd hkey).symm
    · exact hr rfl

/-- A live pointer has no row that is cleaned up. -/
theorem Sound.survives_of_live (hs : Sound sv s) {h : Handle} (hmem : h ∈ s.handles)
    (hlive : h.live = true) (relid : ℕ) (keep : ToastRow → Bool) :
    h.survives s.store relid keep = true := by
  unfold Handle.survives
  by_cases hr : h.relid = relid
  · subst hr
    cases hrel : s.store.rels h.relid with
    | none => exact Bool.or_true _
    | some rel =>
      rw [bne_self_eq_false, Bool.false_or, Option.elim_some, List.all_eq_true]
      intro row hrow
      by_cases hid : row.chunkId = h.valueid
      · rw [hs.dead h hmem rel hrel row hrow hid, hlive]
        exact Bool.or_true _
      · rw [bne_iff_ne.mpr hid]
        rfl
  · rw [bne_iff_ne.mpr hr]
    rfl

/-- Cleaning up: dead rows go, and the pointers that had one of them. -/
theorem Sound.vacuum (hs : Sound sv s) (relid : ℕ) (keep : ToastRow → Bool) :
    Sound sv ⟨s.store.vacuum relid keep, s.handles.filter (Handle.survives s.store relid keep)⟩ := by
  cases hrel : s.store.rels relid with
  | none =>
    have hall : s.handles.filter (Handle.survives s.store relid keep) = s.handles := by
      rw [List.filter_eq_self]
      intro h _
      rw [Handle.survives, hrel]
      exact Bool.or_true _
    rw [Store.vacuum, hrel, hall]
    exact hs
  | some rel =>
    rw [Store.vacuum, hrel]
    refine hs.remove hrel List.filter_sublist.subperm ?_ ?_
    · intro h hh hr row hrow hid
      have hstays := (List.mem_filter.mp hh).2
      rw [Handle.survives, hrel, hr, bne_self_eq_false, Bool.false_or, Option.elim_some,
        List.all_eq_true] at hstays
      have hrow' := hstays row hrow
      rw [hid, bne_self_eq_false, Bool.false_or] at hrow'
      exact hrow'
    · intro h hmem hlive _
      exact List.mem_filter.mpr ⟨hmem, hs.survives_of_live hmem hlive relid keep⟩

/-- **One step keeps the session sound.** -/
theorem Sound.step (hs : Sound sv s) {s' : Session} (hstep : Step sv s s') : Sound sv s' := by
  cases hstep with
  | save relid v hrelid hbytes hrun hpointer =>
    obtain ⟨rel, valueid, nextOid, hrel, hfree, ⟨hid, hnext, -⟩, rfl, rfl⟩ :=
      sv.of_toastSaveDatum_eq hs.normal hs.counter hrun
    have hrefers : sv.Refers (sv.saved s.store relid rel v valueid nextOid) _ v valueid relid :=
      StoreServer.refers_saved hfree hid hrelid v nextOid
    rw [hrefers.varattExternalGetPointer_eq] at hpointer
    cases hpointer
    exact hs.save hrel hfree hid hrelid hnext hbytes
  | delete hhandles hlive hrun =>
    have hmem := hhandles.mem_iff.mpr List.mem_cons_self
    obtain ⟨rel, hrel, -⟩ := (hs.refers _ hmem).stored
    rw [hs.toastDeleteDatum_eq hmem hlive hrel] at hrun
    cases hrun
    exact hs.delete hhandles hrel
  | retract hhandles hlive hrun =>
    obtain ⟨rel, hrel, -⟩ := (hs.refers _ (hhandles.mem_iff.mpr List.mem_cons_self)).stored
    rw [(hs.refers _ (hhandles.mem_iff.mpr List.mem_cons_self)).toastDeleteDatum_eq hrel,
      if_pos rfl] at hrun
    cases hrun
    exact hs.retract hhandles hrel
  | vacuum relid keep => exact hs.vacuum relid keep
  | counter hnext =>
    exact ⟨hs.normal, hnext, fun h hmem => ⟨(hs.refers h hmem).pointer, (hs.refers h hmem).valueid_lt,
      (hs.refers h hmem).relid_lt, (hs.refers h hmem).stored⟩, hs.bytes, hs.dead, hs.distinct,
      hs.owned⟩

/-- No pointer gets the number zero. -/
theorem Sound.step_valueid_ne_zero (hs : Sound sv s) (hids : ∀ h ∈ s.handles, h.valueid ≠ 0)
    {s' : Session} (hstep : Step sv s s') : ∀ h ∈ s'.handles, h.valueid ≠ 0 := by
  cases hstep with
  | save relid v hrelid hbytes hrun hpointer =>
    obtain ⟨rel, valueid, nextOid, -, hfree, ⟨hid, -, hne⟩, rfl, rfl⟩ :=
      sv.of_toastSaveDatum_eq hs.normal hs.counter hrun
    have hrefers :=
      @StoreServer.refers_saved sv s.store valueid relid rel hfree hid hrelid v nextOid
    rw [hrefers.varattExternalGetPointer_eq] at hpointer
    cases hpointer
    exact List.forall_mem_cons.mpr ⟨hne, hids⟩
  | delete hhandles hlive hrun =>
    have hrest := List.forall_mem_cons.mp fun h hh => hids h (hhandles.mem_iff.mpr hh)
    exact List.forall_mem_cons.mpr hrest
  | retract hhandles hlive hrun =>
    exact fun h hh => hids h (hhandles.mem_iff.mpr (List.mem_cons_of_mem _ hh))
  | vacuum relid keep => exact fun h hh => hids h (List.mem_of_mem_filter hh)
  | counter hnext => exact hids

/-- A value can be saved whenever there is an id for it. -/
theorem Sound.exists_save (hs : Sound sv s) {relid o : ℕ} {rel : ToastRel}
    (hrelid : relid < 2 ^ 32) (hrel : s.store.rels relid = some rel)
    (hfree : rel.valueidExists o = false) (ho : firstNormalObjectId ≤ o ∧ o < 2 ^ 32) {v : Value}
    (hbytes : v.stored sv.toServer ≠ []) :
    ∃ st h, Step sv s ⟨st, h :: s.handles⟩ ∧ h.value = v ∧ h.relid = relid ∧ h.live = true := by
  obtain ⟨valueid, nextOid, hrun⟩ := sv.exists_toastSaveDatum_eq hs.normal hrel hs.counter hfree ho v
  obtain ⟨rel', valueid', nextOid', hrel', hfree', ⟨hid, -⟩, hattr, hst⟩ :=
    sv.of_toastSaveDatum_eq hs.normal hs.counter hrun
  have hrefers := @StoreServer.refers_saved sv s.store valueid' relid rel' hfree' hid hrelid v nextOid'
  rw [hattr] at hrun
  exact ⟨_, _, .save relid v hrelid hbytes hrun hrefers.varattExternalGetPointer_eq, rfl, rfl, rfl⟩

/-! ## After a deletion -/

/-- **A live pointer can be deleted**, and is known as deleted afterwards. -/
theorem Sound.exists_delete (hs : Sound sv s) {h : Handle} (hmem : h ∈ s.handles)
    (hlive : h.live = true) :
    ∃ s', Step sv s s' ∧ sv.toastDeleteDatum s.store h.attr false = .ok s'.store
      ∧ { h with live := false } ∈ s'.handles := by
  obtain ⟨rel, hrel, -⟩ := (hs.refers h hmem).stored
  obtain ⟨before, after, hsplit⟩ := List.append_of_mem hmem
  have hrun := hs.toastDeleteDatum_eq hmem hlive hrel
  exact ⟨_, .delete (hsplit ▸ List.perm_middle) hlive hrun, hrun, List.mem_cons_self⟩

/-- A step that leaves every row of a deleted pointer leaves the pointer. -/
theorem Step.mem_of_kept {s' : Session} (hstep : Step sv s s') {h : Handle} (hmem : h ∈ s.handles)
    (hdead : h.live = false) (hkept : h.Kept s s') : h ∈ s'.handles := by
  -- the pointer that is deleted, or taken back, is another one
  have hother : ∀ {g : Handle} {rest}, s.handles.Perm (g :: rest) → g.live = true → h ∈ rest := by
    intro g rest hperm hlive
    refine (List.mem_cons.mp (hperm.mem_iff.mp hmem)).resolve_left ?_
    rintro rfl
    rw [hlive] at hdead
    cases hdead
  cases hstep with
  | save relid v hrelid hbytes hrun hpointer => exact List.mem_cons_of_mem _ hmem
  | delete hhandles hlive hrun => exact List.mem_cons_of_mem _ (hother hhandles hlive)
  | retract hhandles hlive hrun => exact hother hhandles hlive
  | counter hnext => exact hmem
  | vacuum relid keep =>
    refine List.mem_filter.mpr ⟨hmem, ?_⟩
    unfold Handle.survives
    by_cases hr : h.relid = relid
    · subst hr
      cases hrel : s.store.rels h.relid with
      | none => exact Bool.or_true _
      | some rel =>
        rw [bne_self_eq_false, Bool.false_or, Option.elim_some, List.all_eq_true]
        intro row hrow
        by_cases hid : row.chunkId = h.valueid
        · obtain ⟨rel', hrel', hrows⟩ := hkept rel hrel
          have hrow' := hrows row hrow hid
          simp only [Store.vacuum, hrel, Option.elim_some] at hrel'
          rcases Store.of_rels_setRows hrel' with ⟨hne, -⟩ | ⟨-, heq⟩
          · exact absurd rfl hne
          · rw [heq, List.mem_filter] at hrow'
            rw [hrow'.2]
            exact Bool.or_true _
        · rw [bne_iff_ne.mpr hid]
          rfl
    · rw [bne_iff_ne.mpr hr]
      rfl

/-- And so does a run of such steps. -/
theorem Sound.mem_of_kept {s' : Session} (hs : Sound sv s) {h : Handle}
    (hmem : { h with live := false } ∈ s.handles)
    (hsteps : Relation.ReflTransGen (fun a b => Step sv a b ∧ h.Kept a b) s s') :
    Sound sv s' ∧ { h with live := false } ∈ s'.handles := by
  induction hsteps with
  | refl => exact ⟨hs, hmem⟩
  | tail _ hstep ih => exact ⟨ih.1.step hstep.1, hstep.1.mem_of_kept ih.2 rfl hstep.2⟩

/-! ## Every run -/

/-- **Every session that can come about is sound.** -/
theorem Reachable.sound (hs : Reachable sv s) : Sound sv s := by
  obtain ⟨s₀, hstart, hrun⟩ := hs
  induction hrun with
  | refl => exact hstart.sound
  | tail _ hstep ih => exact ih.step hstep

theorem Reachable.of_steps (hs : Reachable sv s) {s' : Session}
    (hsteps : Relation.ReflTransGen (Step sv) s s') : Reachable sv s' := by
  obtain ⟨s₀, hstart, hrun⟩ := hs
  exact ⟨s₀, hstart, hrun.trans hsteps⟩

theorem Reachable.valueid_ne_zero (hs : Reachable sv s) : ∀ h ∈ s.handles, h.valueid ≠ 0 := by
  obtain ⟨s₀, hstart, hrun⟩ := hs
  induction hrun with
  | refl =>
    rw [hstart.handles]
    exact List.forall_mem_nil _
  | tail hrun hstep ih =>
    exact (Reachable.sound ⟨s₀, hstart, hrun⟩).step_valueid_ne_zero ih hstep

/-- One empty table. -/
def oneTable : Session :=
  ⟨⟨firstNormalObjectId, fun r => if r = 1 then some ⟨"pg_toast_1", []⟩ else none⟩, []⟩

theorem oneTable_start (hmode : sv.oids.Normal) : Start sv oneTable := by
  refine ⟨hmode, by decide, fun relid rel hrel => ?_, rfl⟩
  simp only [oneTable, Option.ite_none_right_eq_some] at hrel
  cases hrel.2
  rfl

/-- A text of three bytes in that table. -/
theorem exists_reachable_abc :
    ∃ s : Session, Reachable .littleEndian s ∧ ∃ h ∈ s.handles,
      h.value = .plain [97, 98, 99] (by decide) ∧ h.live = true := by
  have hstart : Start .littleEndian oneTable := oneTable_start OidMode.underPostmaster_normal
  obtain ⟨st, h, hstep, hvalue, -, hlive⟩ := @Sound.exists_save _ _ hstart.sound 1
    firstNormalObjectId ⟨"pg_toast_1", []⟩ (by decide) rfl rfl (by decide)
    (.plain [97, 98, 99] (by decide)) (by decide)
  exact ⟨_, ⟨oneTable, hstart, .single hstep⟩, h, List.mem_cons_self, hvalue, hlive⟩

/-- The text is deleted, and a clean-up leaves it. -/
theorem exists_reachable_deleted :
    ∃ s : Session, Reachable .littleEndian s ∧ ∃ h ∈ s.handles, h.live = false := by
  obtain ⟨s₀, ⟨start, hstart, hrun⟩, h, hmem, -, hlive⟩ := exists_reachable_abc
  have hs₀ : Reachable .littleEndian s₀ := ⟨start, hstart, hrun⟩
  obtain ⟨s₁, hstep, -, hdead⟩ := hs₀.sound.exists_delete hmem hlive
  have hclean := @Step.vacuum .littleEndian s₁ h.relid fun _ => true
  refine ⟨_, ⟨start, hstart, (hrun.tail hstep).tail hclean⟩, { h with live := false }, ?_, rfl⟩
  refine List.mem_filter.mpr ⟨hdead, ?_⟩
  rw [Handle.survives]
  cases s₁.store.rels h.relid <;> simp

/-- **No value is lost or mistaken for another one**: after any sequence of saves, deletions,
speculative insertions taken back and clean-ups of any extent, in any order, and wherever
the counter has wrapped around, `detoast_attr` returns what it returns for the value that was
saved, for every pointer that was not taken back and that has not lost a row to a clean-up. -/
theorem Reachable.detoastAttr_attr (hs : Reachable sv s) :
    ∀ h ∈ s.handles, (sv.overStore s.store).detoastAttr h.attr
      = sv.detoastAttr (h.value.datum sv.toServer) :=
  fun h hmem => (hs.sound.refers h hmem).detoastAttr_eq

/-- In a session with a value that was deleted, and that a clean-up has left. -/
theorem Reachable.detoastAttr_attr_abc :
    ∃ s : Session, (∃ h ∈ s.handles, h.live = false) ∧ ∀ h ∈ s.handles,
      (StoreServer.littleEndian.overStore s.store).detoastAttr h.attr
        = StoreServer.littleEndian.detoastAttr (h.value.datum StoreServer.littleEndian.toServer) := by
  obtain ⟨s, hs, hdead⟩ := exists_reachable_deleted
  exact ⟨s, hdead, hs.detoastAttr_attr⟩

/-- **No row is left behind, none is deleted twice, and none is missed too early**: every row
that is alive belongs to exactly one pointer that is live; deleting that pointer succeeds,
and leaves no row of the value alive; and whatever is done afterwards, the pointer is read as
before until a row of it is removed. -/
theorem Reachable.owned_and_deletable (hs : Reachable sv s) :
    (∀ relid rel, s.store.rels relid = some rel → ∀ row ∈ rel.rows, row.dead = false →
      ∃! h, h ∈ s.handles ∧ h.live = true ∧ h.relid = relid ∧ h.valueid = row.chunkId)
    ∧ ∀ h ∈ s.handles, h.live = true → ∃ s₁, Step sv s s₁
      ∧ sv.toastDeleteDatum s.store h.attr false = .ok s₁.store
      ∧ (∀ rel, s₁.store.rels h.relid = some rel → ∀ row ∈ rel.rows, row.chunkId = h.valueid →
        row.dead = true)
      ∧ ∀ s₂, Relation.ReflTransGen (fun a b => Step sv a b ∧ h.Kept a b) s₁ s₂ →
        (sv.overStore s₂.store).detoastAttr h.attr = sv.detoastAttr (h.value.datum sv.toServer) := by
  have hsound := hs.sound
  refine ⟨fun relid rel hrel row hrow hlive => ?_, fun h hmem hlive => ?_⟩
  · obtain ⟨h, hmem, hhlive, hkey⟩ := hsound.owned relid rel hrel row hrow hlive
    refine ⟨h, ⟨hmem, hhlive, congrArg Prod.fst hkey, congrArg Prod.snd hkey⟩, ?_⟩
    rintro g ⟨hg, -, hgrel, hgid⟩
    refine List.inj_on_of_nodup_map hsound.distinct hg hmem ?_
    exact (Prod.ext hgrel hgid : g.key = (relid, row.chunkId)).trans hkey.symm
  · obtain ⟨s₁, hstep, hrun, hdead⟩ := hsound.exists_delete hmem hlive
    have hs₁ := hsound.step hstep
    refine ⟨s₁, hstep, hrun, hs₁.dead _ hdead, fun s₂ hsteps => ?_⟩
    obtain ⟨hs₂, hdead₂⟩ := hs₁.mem_of_kept hdead hsteps
    exact (hs₂.refers _ hdead₂).detoastAttr_eq

/-- In a session with a live value. -/
theorem Reachable.owned_and_deletable_abc :
    ∃ s : Session, (∃ h ∈ s.handles, h.live = true)
      ∧ (∀ relid rel, s.store.rels relid = some rel → ∀ row ∈ rel.rows, row.dead = false →
        ∃! h, h ∈ s.handles ∧ h.live = true ∧ h.relid = relid ∧ h.valueid = row.chunkId)
      ∧ ∀ h ∈ s.handles, h.live = true → ∃ s₁, Step .littleEndian s s₁
        ∧ StoreServer.littleEndian.toastDeleteDatum s.store h.attr false = .ok s₁.store
        ∧ (∀ rel, s₁.store.rels h.relid = some rel → ∀ row ∈ rel.rows, row.chunkId = h.valueid →
          row.dead = true)
        ∧ ∀ s₂, Relation.ReflTransGen (fun a b => Step .littleEndian a b ∧ h.Kept a b) s₁ s₂ →
          (StoreServer.littleEndian.overStore s₂.store).detoastAttr h.attr
            = StoreServer.littleEndian.detoastAttr
              (h.value.datum StoreServer.littleEndian.toServer) := by
  obtain ⟨s, hs, h, hmem, -, hlive⟩ := exists_reachable_abc
  exact ⟨s, ⟨h, hmem, hlive⟩, hs.owned_and_deletable⟩

end Session
