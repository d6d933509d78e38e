import Hoco.ToastTuple

/-!
# What a row stands for

The values of a row are bytes, and the same text can be in a row in many forms: plain, with
a short header, compressed, or as a pointer to any of these. `Carries` says that a value
stands for a text, when certain pointers are known; the columns that are no varlenas stand
for their bytes. Compressing is not always the way back: a text whose literals do not fit the
run length encoding is stored in a form that is reported as corrupt when it is read. Such a
value stands for its text all the same, as one that was lost (`Lost`).

That the toaster keeps every text is one half of what there is to say. The other half is
about the store. A row refers to values in it (`refs`), and the session knows which ones
are live (`liveAttrs`). The toaster saves, and deletes, and keeps what it finds; whatever
it does, the values that are live afterwards and the references of the row that was
replaced are together those that were live before and the references of the new row. So if
every live value belonged to exactly one row, it does so again: nothing leaks, and nothing
is deleted that is still referred to.
-/

open Rle

theorem exists_forall₂_set {α β : Type*} {R : α → β → Prop} {l₁ : List α} {l₂ : List β} {i : ℕ}
    {a : α} (h : List.Forall₂ R l₁ l₂) (ha : l₁[i]? = some a) :
    ∃ b, l₂[i]? = some b ∧ R a b ∧ ∀ a', R a' b → List.Forall₂ R (l₁.set i a') l₂ := by
  induction h generalizing i with
  | nil => cases ha
  | @cons x y xs ys hxy hrest ih =>
    cases i with
    | zero =>
      cases ha
      exact ⟨y, rfl, hxy, fun a' ha' => .cons ha' hrest⟩
    | succ i =>
      obtain ⟨b, hget, hb, hset⟩ := ih ha
      exact ⟨b, hget, hb, fun a' ha' => .cons hxy (hset a' ha')⟩

theorem rel_mono {α β : Type*} {R S : α → β → Prop} (hsub : ∀ a b, R a b → S a b) {x : Option α}
    {y : Option β} (h : Option.Rel R x y) : Option.Rel S x y := by
  cases h with
  | none => exact .none
  | some h => exact .some (hsub _ _ h)

namespace Value

variable {sv : Server}

theorem length_datum (v : Value) :
    (v.datum sv).length = (v.stored sv).length + v.headerLength := by
  cases v with
  | plain t fits =>
    rw [datum, Server.plainDatum, Server.setVarsize, List.length_append, sv.wordBytes_length,
      stored, headerLength, Nat.add_comm]
  | short t fits => rfl
  | compressed method rawsize payload known raw saves =>
    rw [datum, Server.compressedDatum, Server.setVarsizeCompressed, stored, headerLength]
    simp only [List.length_append, sv.wordBytes_length]
    omega

/-- No form is larger than the plain one. -/
theorem length_datum_le (v : Value) : (v.datum sv).length ≤ v.rawsize + 4 := by
  rw [length_datum]
  cases v with
  | plain t fits => exact Nat.le_refl _
  | short t fits =>
    simp only [stored, headerLength, Value.rawsize]
    omega
  | compressed method rawsize payload known raw saves =>
    rw [stored, headerLength, List.length_append, sv.wordBytes_length]
    simp only [Value.rawsize]
    omega

theorem varsizeAny_datum (v : Value) : sv.varsizeAny (v.datum sv) = .ok (v.datum sv).length := by
  rw [(v.hasHeader_datum sv).varsizeAny_eq, v.length_datum]

theorem varattIsExternal_datum (v : Value) : sv.varattIsExternal (v.datum sv) = .ok false := by
  obtain ⟨b, hb, -, -, hext⟩ := (v.hasHeader_datum sv).first
  rw [Server.varattIsExternal, hb, Run.ok_bind, hext]
  rfl

theorem startsExpanded_datum (v : Value) : sv.startsExpanded (v.datum sv) = false :=
  Server.startsExpanded_of_hasHeader (v.hasHeader_datum sv)

theorem startsExternal_datum (v : Value) : sv.startsExternal (v.datum sv) = false := by
  obtain ⟨b, hb, -, -, hext⟩ := (v.hasHeader_datum sv).first
  have hdrop := Mem.drop_of_load hb
  rw [List.drop_zero] at hdrop
  rw [Server.startsExternal, v.startsExpanded_datum, hdrop]
  exact (Bool.and_true _).trans hext

theorem startsPlain_datum (v : Value) :
    sv.startsPlain (v.datum sv) = decide (v.form = .plain) := by
  obtain ⟨b, hb, hcomp, hshort, -⟩ := (v.hasHeader_datum sv).first
  have hdrop := Mem.drop_of_load hb
  rw [List.drop_zero] at hdrop
  rw [Server.startsPlain, hdrop]
  show sv.is4BU b = _
  rw [sv.is4BU_eq, hcomp, hshort]
  cases v <;> rfl

theorem headerLength_le (v : Value) : v.headerLength ≤ 4 := by
  cases v <;> simp [headerLength]

theorem varsize4B_datum {v : Value} (h : v.form ≠ .short) :
    sv.varsize4B (v.datum sv) = .ok (v.datum sv).length := by
  have hreads := (v.hasHeader_datum sv).reads
  rw [v.length_datum]
  cases v with
  | plain t fits => exact hreads
  | short t fits => exact absurd rfl h
  | compressed method rawsize payload known raw saves => exact hreads

theorem form_ne_short {v : Value} (h : v.method.isSome = true) : v.form ≠ .short := by
  cases v with
  | plain t fits => cases h
  | short t fits => cases h
  | compressed method rawsize payload known raw saves => exact fun hform => by cases hform

theorem stored_ne_nil {v : Value} (h : v.method.isSome = true) : v.stored sv ≠ [] := by
  cases v with
  | plain t fits => cases h
  | short t fits => cases h
  | compressed method rawsize payload known raw saves =>
    refine List.ne_nil_of_length_pos ?_
    rw [stored, List.length_append, sv.wordBytes_length]
    omega

theorem fits_of_short {t : List UInt8} (fits : t.length ≤ 126) : t.length + 4 < 2 ^ 30 := by
  omega

/-- The value with a header of four bytes. -/
def unpacked : Value → Value
  | plain t fits => plain t fits
  | short t fits => plain t (fits_of_short fits)
  | compressed method rawsize payload known raw saves =>
    compressed method rawsize payload known raw saves

theorem datum_unpacked (v : Value) : v.unpacked.datum sv = v.fetched sv := by
  cases v <;> rfl

theorem method_unpacked (v : Value) : v.unpacked.method = v.method := by
  cases v <;> rfl

theorem rawsize_unpacked (v : Value) : v.unpacked.rawsize = v.rawsize := by
  cases v <;> rfl

theorem detoastAttr_unpacked (v : Value) :
    sv.detoastAttr (v.unpacked.datum sv) = sv.detoastAttr (v.datum sv) := by
  rw [v.detoastAttr_datum, v.unpacked.detoastAttr_datum]
  cases v <;> rfl

end Value

/-! ## Texts -/

/-- What `rle_decompress_datum` reports. -/
def rleCorrupt : Trap :=
  .ereport { code := .dataCorrupted, message := "compressed rle data is corrupt" }

namespace StoreServer

variable (sv : StoreServer)

/-- **A value in place is read as a text** by `detoast_attr`. -/
def Reads (v : Value) (t : List UInt8) : Prop :=
  sv.detoastAttr (v.datum sv.toServer) = .ok (sv.plainDatum t)

/-- **A text was lost**: it was run length encoded, though its literals do not fit. -/
structure Lost (v : Value) (t : List UInt8) : Prop where
  method : v.method = some toastRleCompressionId
  literals : ¬ LiteralsFit t
  corrupt : sv.detoastAttr (v.datum sv.toServer) = .error rleCorrupt

/-- **A value in place stands for a text**: it was made from the text, and is read as the
text unless that was lost. -/
structure Text (v : Value) (t : List UInt8) : Prop where
  reads : sv.Reads v t ∨ sv.Lost v t
  rawsize_eq : v.rawsize = t.length
  fits : t.length + 4 < 2 ^ 30

variable {sv}

/-- A value in place is read without the tables. -/
theorem detoastAttr_overStore_datum (v : Value) (st : Store) :
    (sv.overStore st).detoastAttr (v.datum sv.toServer) = sv.detoastAttr (v.datum sv.toServer) :=
  (v.detoastAttr_datum (sv.overStore st).toServer).trans (v.detoastAttr_datum sv.toServer).symm

theorem reads_plain {t : List UInt8} (fits : t.length + 4 < 2 ^ 30) : sv.Reads (.plain t fits) t :=
  (Value.plain t fits).detoastAttr_datum sv.toServer

theorem text_plain {t : List UInt8} (fits : t.length + 4 < 2 ^ 30) : sv.Text (.plain t fits) t :=
  ⟨Or.inl (reads_plain fits), rfl, fits⟩

theorem text_short {t : List UInt8} (fits : t.length ≤ 126) : sv.Text (.short t fits) t :=
  ⟨Or.inl ((Value.short t fits).detoastAttr_datum sv.toServer), rfl, Value.fits_of_short fits⟩

namespace Text

variable {v : Value} {t : List UInt8} (h : sv.Text v t)

include h

/-- Only a text whose literals do not fit can be lost. -/
theorem reads_of_literalsFit (hfit : LiteralsFit t) : sv.Reads v t :=
  h.reads.resolve_right fun hlost => hlost.literals hfit

/-- What is read at all is read as the text. -/
theorem reads_of_eq_ok {m : Mem} (hread : sv.detoastAttr (v.datum sv.toServer) = .ok m) :
    sv.Reads v t := by
  refine h.reads.resolve_right fun hlost => ?_
  rw [hlost.corrupt] at hread
  cases hread

theorem length_le : (v.datum sv.toServer).length ≤ t.length + 4 :=
  h.rawsize_eq ▸ v.length_datum_le

theorem unpacked : sv.Text v.unpacked t := by
  refine ⟨h.reads.imp (fun hreads => ?_) fun hlost => ⟨?_, hlost.literals, ?_⟩, ?_, h.fits⟩
  · exact v.detoastAttr_unpacked.trans hreads
  · exact v.method_unpacked.trans hlost.method
  · exact v.detoastAttr_unpacked.trans hlost.corrupt
  · exact v.rawsize_unpacked.trans h.rawsize_eq

/-- What is not compressed has its text as it is. -/
theorem eq_stored (hmethod : v.method = none) : t = v.stored sv.toServer := by
  have hreads : sv.detoastAttr (v.datum sv.toServer) = .ok (sv.plainDatum t) := by
    refine h.reads.resolve_right fun hlost => ?_
    rw [hlost.method] at hmethod
    cases hmethod
  rw [v.detoastAttr_datum, hmethod] at hreads
  have hplain : v.fetched sv.toServer = sv.plainDatum (v.stored sv.toServer) := by
    cases v with
    | plain t fits => rfl
    | short t fits => rfl
    | compressed method rawsize payload known raw saves => cases hmethod
  have heq : sv.plainDatum (v.stored sv.toServer) = sv.plainDatum t :=
    hplain ▸ Except.ok.inj hreads
  have hlen : ∀ t' : List UInt8, (sv.setVarsize (t'.length + 4)).length = 4 :=
    fun t' => sv.wordBytes_length _
  exact (List.append_inj_right heq ((hlen _).trans (hlen _).symm)).symm

/-- **A compressed text stands for the text.** -/
theorem exists_of_toastCompressDatum (hmethod : v.method = none)
    (hlong : 24 < (v.datum sv.toServer).length) (hpglz : sv.UsesPglz)
    (hlz4 : ∀ lz4 ∈ sv.lz4, lz4.Restores) {cmethod : Char} {d : Mem}
    (hrun : sv.toastCompressDatum (v.datum sv.toServer) cmethod = .ok (some d)) :
    ∃ v' : Value, d = v'.datum sv.toServer ∧ sv.Text v' t ∧ v'.method.isSome = true := by
  obtain ⟨form, htext⟩ := Value.hasText_datum sv.toServer hmethod
  rw [← h.eq_stored hmethod] at htext
  have hlen : 2 ≤ t.length := by
    rw [v.length_datum, ← h.eq_stored hmethod] at hlong
    have := v.headerLength_le
    omega
  have hfits := h.fits
  obtain ⟨payload, cmid, hcompress, hsaves, rfl⟩ := htext.of_toastCompressDatum (fun _ => hlen) hrun
  refine ⟨.compressed cmid t.length payload (Server.lt_of_compressByMethod hcompress) (by omega)
    (by omega), rfl, ⟨?_, rfl, hfits⟩, rfl⟩
  by_cases hrle : sv.effectiveMethod cmethod = 'r' → LiteralsFit t
  · exact Or.inl (htext.detoastAttr_of_toastCompressDatum (fun _ => hlen) hrun hpglz hlz4 hrle)
  · obtain ⟨hr, hfit⟩ := Classical.not_imp.mp hrle
    refine Or.inr ⟨?_, hfit, htext.detoastAttr_of_not_literalsFit (fun _ => hlen) hrun hr hfit⟩
    rw [hr] at hcompress
    exact congrArg some (Server.cmid_of_compressByMethod_rle hcompress)

end Text

end StoreServer

/-! ## Pointers -/

namespace Server

variable (sv : Server) (p : VarattExternal)

theorem startsExternal_toastPointer : sv.startsExternal (sv.toastPointer p) = true := by
  obtain ⟨b, hb, hext⟩ := sv.load_toastPointer p
  have hdrop := Mem.drop_of_load hb
  rw [List.drop_zero] at hdrop
  have hfirst : ((sv.toastPointer p).head?.map sv.is1BE).getD false = true := by
    rw [hdrop]
    exact hext
  rw [startsExternal, startsExpanded, hfirst]
  rfl

theorem length_toastPointer : (sv.toastPointer p).length = 18 := by
  rw [toastPointer]
  simp only [List.length_cons, List.length_append, sv.wordBytes_length]

theorem varsizeExternal_toastPointer : varsizeExternal (sv.toastPointer p) = .ok 18 := rfl

theorem varattIsExternal_toastPointer : sv.varattIsExternal (sv.toastPointer p) = .ok true := by
  obtain ⟨b, hb, hext⟩ := sv.load_toastPointer p
  rw [varattIsExternal, hb, Run.ok_bind, hext]
  rfl

theorem varsizeAny_toastPointer :
    sv.varsizeAny (sv.toastPointer p) = .ok (sv.toastPointer p).length := by
  obtain ⟨b, hb, hext⟩ := sv.load_toastPointer p
  rw [varsizeAny, hb, Run.ok_bind, hext, if_pos rfl, varsizeExternal_toastPointer,
    length_toastPointer]

end Server

/-- The pointer is what `toast_save_datum` makes for the value. -/
def Handle.PointsTo (sv : StoreServer) (h : Handle) : Prop :=
  h.attr = sv.toastPointer (h.value.pointer sv.toServer h.valueid h.relid)

/-! ## Live values -/

/-- Values are deleted one after the other. -/
def StoreServer.deleteAll (sv : StoreServer) (isSpeculative : Bool) : Store → List Mem → Run Store
  | st, [] => .ok st
  | st, m :: ms => do deleteAll sv isSpeculative (← sv.toastDeleteDatum st m isSpeculative) ms

namespace Session

/-- What is live. -/
def live (s : Session) : List Handle := s.handles.filter Handle.live

/-- The pointers that are live. -/
def liveAttrs (s : Session) : List Mem := s.live.map Handle.attr

/-- No pointer is forgotten, though it may be deleted. -/
def Persists (s s' : Session) : Prop := ∀ h ∈ s.handles, ∃ b, { h with live := b } ∈ s'.handles

/-- What was live and is live is the same. -/
def Keeps (s s' : Session) : Prop := ∀ h ∈ s.live, h.attr ∈ s'.liveAttrs → h ∈ s'.live

/-- What deletions leave: pointers that are deleted, or none when they are taken back. -/
def Erased (isSpeculative : Bool) (s s' : Session) : Prop :=
  if isSpeculative then s'.handles ⊆ s.handles else Persists s s'

variable {sv : StoreServer} {s s' s'' : Session}

theorem mem_live {h : Handle} : h ∈ s.live ↔ h ∈ s.handles ∧ h.live = true := List.mem_filter

theorem mem_liveAttrs {m : Mem} : m ∈ s.liveAttrs ↔ ∃ h ∈ s.live, h.attr = m := List.mem_map

theorem Persists.refl (s : Session) : Persists s s := fun h hmem => ⟨h.live, hmem⟩

theorem Persists.trans (h₁ : Persists s s') (h₂ : Persists s' s'') : Persists s s'' := by
  intro h hmem
  obtain ⟨b, hb⟩ := h₁ h hmem
  exact h₂ { h with live := b } hb

theorem Sound.pointsTo (hs : Sound sv s) {h : Handle} (hmem : h ∈ s.handles) : h.PointsTo sv :=
  (hs.refers h hmem).pointer

/-- What is live can be fetched. -/
theorem Sound.refers_of_mem_live (hs : Sound sv s) {h : Handle} (hmem : h ∈ s.live) :
    sv.Refers s.store h.attr h.value h.valueid h.relid :=
  hs.refers h (mem_live.mp hmem).1

/-- **A pointer tells what it was handed out for.** -/
theorem Sound.eq_of_attr_eq (hs : Sound sv s) {g h : Handle} (hg : g ∈ s.handles)
    (hh : h ∈ s.handles) (hattr : g.attr = h.attr) : g = h := by
  have hgp := (hs.refers g hg).varattExternalGetPointer_eq
  rw [hattr, (hs.refers h hh).varattExternalGetPointer_eq] at hgp
  have hp := Except.ok.inj hgp
  refine List.inj_on_of_nodup_map hs.distinct hg hh ?_
  exact Prod.ext (congrArg VarattExternal.vaToastrelid hp).symm
    (congrArg VarattExternal.vaValueid hp).symm

theorem Sound.nodup_liveAttrs (hs : Sound sv s) : s.liveAttrs.Nodup := by
  refine List.Nodup.map_on (fun g hg h hh hattr => ?_) (hs.distinct.of_map.filter _)
  exact hs.eq_of_attr_eq (List.mem_of_mem_filter hg) (List.mem_of_mem_filter hh) hattr

theorem Sound.of_steps (hs : Sound sv s) (hsteps : Relation.ReflTransGen (Step sv) s s') :
    Sound sv s' := by
  induction hsteps with
  | refl => exact hs
  | tail _ hstep ih => exact ih.step hstep

/-- **What saving a value adds to a session.** -/
theorem Sound.exists_of_toastSaveDatum (hs : Sound sv s) {relid : ℕ} (hrelid : relid < 2 ^ 32)
    {v : Value} (hbytes : v.stored sv.toServer ≠ []) {attr : Mem} {st : Store}
    (hrun : sv.toastSaveDatum s.store ⟨relid, 0⟩ (v.datum sv.toServer) none = .ok (attr, st)) :
    ∃ s' h, s'.store = st ∧ s'.handles = h :: s.handles ∧ h.attr = attr ∧ h.value = v
      ∧ h.live = true ∧ Step sv s s' := by
  obtain ⟨rel, valueid, nextOid, -, hfree, ⟨hid, -⟩, rfl, rfl⟩ :=
    sv.of_toastSaveDatum_eq hs.normal hs.counter hrun
  have hrefers := @StoreServer.refers_saved sv s.store valueid relid rel hfree hid hrelid v nextOid
  exact ⟨_, _, rfl, rfl, rfl, rfl, rfl,
    .save relid v hrelid hbytes hrun hrefers.varattExternalGetPointer_eq⟩

/-- A live pointer, before the others. -/
theorem exists_perm_of_mem_liveAttrs {m : Mem} (hm : m ∈ s.liveAttrs) :
    ∃ h rest, h ∈ s.handles ∧ h.live = true ∧ h.attr = m ∧ s.handles.Perm (h :: rest)
      ∧ s.liveAttrs.Perm (m :: (rest.filter Handle.live).map Handle.attr) := by
  obtain ⟨h, hmem, rfl⟩ := mem_liveAttrs.mp hm
  obtain ⟨hmem, hlive⟩ := mem_live.mp hmem
  obtain ⟨before, after, hsplit⟩ := List.append_of_mem hmem
  have hperm : s.handles.Perm (h :: (before ++ after)) := hsplit ▸ List.perm_middle
  refine ⟨h, before ++ after, hmem, hlive, rfl, hperm, ?_⟩
  have hlives := (hperm.filter Handle.live).map Handle.attr
  rwa [List.filter_cons_of_pos hlive, List.map_cons] at hlives

theorem Persists.keeps (h : Persists s s') (hs' : Sound sv s') : Keeps s s' := by
  intro g hg hattr
  obtain ⟨hg, hlive⟩ := mem_live.mp hg
  obtain ⟨b, hb⟩ := h g hg
  obtain ⟨g', hg', hattr'⟩ := mem_liveAttrs.mp hattr
  obtain ⟨hg', hlive'⟩ := mem_live.mp hg'
  obtain rfl : g' = { g with live := b } := hs'.eq_of_attr_eq hg' hb hattr'
  obtain rfl : b = true := hlive'
  rw [← hlive] at hg'
  exact mem_live.mpr ⟨hg', hlive⟩

theorem Sound.keeps_of_subset (hs : Sound sv s) (hsub : s'.handles ⊆ s.handles) : Keeps s s' := by
  intro g hg hattr
  obtain ⟨g', hg', hattr'⟩ := mem_liveAttrs.mp hattr
  have hmem := hsub (mem_live.mp hg').1
  exact hs.eq_of_attr_eq hmem (mem_live.mp hg).1 hattr' ▸ hg'

theorem Erased.keeps {isSpeculative : Bool} (h : Erased isSpeculative s s') (hs : Sound sv s)
    (hs' : Sound sv s') : Keeps s s' := by
  unfold Erased at h
  split at h
  · exact hs.keeps_of_subset h
  · exact h.keeps hs'

theorem Erased.refl (isSpeculative : Bool) (s : Session) : Erased isSpeculative s s := by
  unfold Erased
  split
  · exact List.Subset.refl _
  · exact .refl s

theorem Erased.trans {isSpeculative : Bool} (h₁ : Erased isSpeculative s s')
    (h₂ : Erased isSpeculative s' s'') : Erased isSpeculative s s'' := by
  unfold Erased at h₁ h₂ ⊢
  split at h₁
  · rename_i hspec
    rw [if_pos hspec] at h₂ ⊢
    exact fun g hg => h₁ (h₂ hg)
  · rename_i hspec
    rw [if_neg hspec] at h₂ ⊢
    exact h₁.trans h₂

/-- **Deleting a live pointer**, or taking it back. -/
theorem Sound.exists_toastDeleteDatum_eq (hs : Sound sv s) {m : Mem} (hm : m ∈ s.liveAttrs)
    (isSpeculative : Bool) :
    ∃ s', sv.toastDeleteDatum s.store m isSpeculative = .ok s'.store ∧ Step sv s s'
      ∧ s.liveAttrs.Perm (m :: s'.liveAttrs) ∧ Erased isSpeculative s s' := by
  obtain ⟨h, rest, hmem, hlive, rfl, hperm, hlives⟩ := exists_perm_of_mem_liveAttrs hm
  obtain ⟨rel, hrel, -⟩ := (hs.refers h hmem).stored
  cases isSpeculative with
  | false =>
    have hrun := hs.toastDeleteDatum_eq hmem hlive hrel
    refine ⟨_, hrun, .delete hperm hlive hrun, hlives, fun g hg => ?_⟩
    rcases List.mem_cons.mp (hperm.mem_iff.mp hg) with rfl | hg
    · exact ⟨false, List.mem_cons_self⟩
    · exact ⟨g.live, List.mem_cons_of_mem _ hg⟩
  | true =>
    have hrun := (hs.refers h hmem).toastDeleteDatum_eq hrel true
    rw [if_pos rfl] at hrun
    exact ⟨_, hrun, .retract hperm hlive hrun, hlives,
      fun g hg => hperm.mem_iff.mpr (List.mem_cons_of_mem _ hg)⟩

/-- **Deleting live pointers**, each of them once. -/
theorem Sound.exists_deleteAll_eq (hs : Sound sv s) {ms : List Mem} (hsub : ms.Subperm s.liveAttrs)
    (isSpeculative : Bool) :
    ∃ s', sv.deleteAll isSpeculative s.store ms = .ok s'.store
      ∧ Relation.ReflTransGen (Step sv) s s' ∧ Erased isSpeculative s s'
      ∧ s.liveAttrs.Perm (ms ++ s'.liveAttrs) := by
  induction ms generalizing s with
  | nil => exact ⟨s, rfl, .refl, .refl _ s, .refl _⟩
  | cons m ms ih =>
    obtain ⟨s₁, hdelete, hstep, hlive, herased⟩ :=
      hs.exists_toastDeleteDatum_eq (hsub.subset List.mem_cons_self) isSpeculative
    have hsub₁ : ms.Subperm s₁.liveAttrs :=
      (List.subperm_cons m).mp (hsub.trans hlive.subperm)
    obtain ⟨s', hrun, hsteps, herased', hlive'⟩ := ih (hs.step hstep) hsub₁
    refine ⟨s', ?_, .head hstep hsteps, herased.trans herased', hlive.trans (hlive'.cons m)⟩
    rw [StoreServer.deleteAll, hdelete]
    exact hrun

end Session

/-! ## What a value of a row stands for -/

namespace StoreServer

variable (sv : StoreServer)

/-- **A value of a column stands for a text**, if `hs` are the pointers that there are. -/
inductive Carries (hs : List Handle) (att : Attribute) : Mem → List UInt8 → Prop where
  /-- The bytes, if the column is no varlena. -/
  | other {m : Mem} (hlen : att.attlen ≠ .varlena) (hfits : sv.Fits att m) : Carries hs att m m
  /-- A value in place. -/
  | inPlace {v : Value} {t : List UInt8} (hlen : att.attlen = .varlena) (ht : sv.Text v t) :
      Carries hs att (v.datum sv.toServer) t
  /-- A value out of line. -/
  | moved {h : Handle} {t : List UInt8} (hlen : att.attlen = .varlena) (hmem : h ∈ hs)
      (hpoints : h.PointsTo sv) (ht : sv.Text h.value t) : Carries hs att h.attr t

/-- **A value that a row is formed from stands for a text**: it may be an object. -/
inductive Brought (hs : List Handle) (att : Attribute) : Mem → List UInt8 → Prop where
  | value {m : Mem} {t : List UInt8} (h : Carries sv hs att m t) : Brought hs att m t
  | object {m : Mem} {t : List UInt8} (hlen : att.attlen = .varlena)
      (hsize : sv.varsizeAny m = .ok m.length) (hexp : sv.startsExpanded m = true)
      (hflat : sv.flatten m = .ok (sv.plainDatum t)) (fits : t.length + 4 < 2 ^ 30) :
      Brought hs att m t

/-- The pointer that a column of a row has. -/
def ref (att : Attribute) (value : Option Mem) : Option Mem :=
  if att.attlen = .varlena then value.filter sv.startsExternal else none

/-- **The pointers that a row has.** -/
def refs (cols : List (Attribute × Option Mem)) : List Mem :=
  cols.flatMap fun col => (sv.ref col.1 col.2).toList

variable {sv} {hs hs' : List Handle} {att : Attribute} {m : Mem} {t : List UInt8}

theorem ref_of_not_startsExternal (h : sv.startsExternal m = false) :
    sv.ref att (some m) = none := by
  unfold ref
  rw [Option.filter_some, h]
  exact ite_self _

theorem ref_datum (v : Value) : sv.ref att (some (v.datum sv.toServer)) = none :=
  ref_of_not_startsExternal v.startsExternal_datum

theorem ref_of_ne_varlena (hlen : att.attlen ≠ .varlena) (value : Option Mem) :
    sv.ref att value = none := if_neg hlen

theorem ref_none (att : Attribute) : sv.ref att none = none := ite_self _

theorem ref_eq_self {value : Option Mem} (h : sv.ref att value ≠ none) :
    sv.ref att value = value := by
  unfold ref at h ⊢
  split at h
  · rename_i hlen
    rw [if_pos hlen]
    cases value with
    | none => rfl
    | some m =>
      rw [Option.filter_some] at h ⊢
      split at h
      · rename_i hext
        exact if_pos hext
      · exact absurd rfl h
  · exact absurd rfl h

theorem ref_attr (hlen : att.attlen = .varlena) {h : Handle} (hpoints : h.PointsTo sv) :
    sv.ref att (some h.attr) = some h.attr := by
  rw [ref, if_pos hlen, Option.filter_some, hpoints, sv.startsExternal_toastPointer, if_pos rfl]

theorem length_stored_le (hexp : ¬(att.attlen = .varlena ∧ sv.startsExpanded m = true)) :
    (sv.stored att m).length ≤ m.length := by
  rw [Server.stored_of_not_expanded hexp]
  split
  · rename_i hpack
    cases m with
    | nil => simp [Server.startsPlain] at hpack
    | cons b m' =>
      rw [Server.shortDatum, List.length_cons, List.length_drop, List.length_cons]
      omega
  · exact Nat.le_refl _

theorem stored_stored (hexp : ¬(att.attlen = .varlena ∧ sv.startsExpanded m = true)) :
    sv.stored att (sv.stored att m) = sv.stored att m := by
  by_cases hpack : (att.isPackable && (sv.startsPlain m && m.length ≤ 130)) = true
  · have hstored : sv.stored att m = sv.shortDatum (m.drop 4) :=
      (Server.stored_of_not_expanded hexp).trans (if_pos hpack)
    simp only [Bool.and_eq_true, decide_eq_true_eq] at hpack
    have hshort : (m.drop 4).length ≤ 126 := by
      rw [List.length_drop]
      omega
    rw [hstored]
    exact Server.stored_of_startsShort (Server.startsShort_shortDatum hshort)
      (Value.startsExpanded_datum (.short (m.drop 4) hshort))
  · have hstored : sv.stored att m = m :=
      (Server.stored_of_not_expanded hexp).trans (if_neg hpack)
    rw [hstored, hstored]

namespace Carries

/-- No value of a row is an object. -/
theorem not_object (h : sv.Carries hs att m t) :
    ¬(att.attlen = .varlena ∧ sv.startsExpanded m = true) := by
  cases h with
  | other hlen hfits => exact fun hboth => hlen hboth.1
  | inPlace hlen ht => exact Server.not_object (Value.startsExpanded_datum _) att
  | moved hlen hmem hpoints ht =>
    refine Server.not_object (Server.startsExpanded_of_startsExternal ?_) att
    rw [hpoints]
    exact sv.startsExternal_toastPointer _

/-- Every value is as large as its column or its header says. -/
theorem fits (h : sv.Carries hs att m t) : sv.Fits att m := by
  have hnot := h.not_object
  cases h with
  | other hlen hfits => exact hfits
  | inPlace hlen ht =>
    unfold Server.Fits
    rw [hlen]
    exact ⟨Value.varsizeAny_datum _, fun hexp => absurd ⟨hlen, hexp⟩ hnot⟩
  | moved hlen hmem hpoints ht =>
    unfold Server.Fits
    rw [hlen]
    refine ⟨?_, fun hexp => absurd ⟨hlen, hexp⟩ hnot⟩
    rw [hpoints]
    exact sv.varsizeAny_toastPointer _

/-- No value is larger than its text and what a pointer takes. -/
theorem length_le (h : sv.Carries hs att m t) : m.length ≤ t.length + 18 := by
  cases h with
  | other hlen hfits => exact Nat.le_add_right _ _
  | inPlace hlen ht => exact ht.length_le.trans (Nat.add_le_add_left (by decide) _)
  | moved hlen hmem hpoints ht =>
    rw [hpoints, sv.length_toastPointer]
    exact Nat.le_add_left _ _

theorem of_subset (h : sv.Carries hs att m t) (hsub : hs ⊆ hs') : sv.Carries hs' att m t := by
  cases h with
  | other hlen hfits => exact .other hlen hfits
  | inPlace hlen ht => exact .inPlace hlen ht
  | moved hlen hmem hpoints ht => exact .moved hlen (hsub hmem) hpoints ht

/-- What a pointer refers to stays while it is live. -/
theorem of_keeps {s s' : Session} (h : sv.Carries s.live att m t) (hkeeps : s.Keeps s')
    (hlive' : ∀ r ∈ sv.ref att (some m), r ∈ s'.liveAttrs) : sv.Carries s'.live att m t := by
  cases h with
  | other hlen hfits => exact .other hlen hfits
  | inPlace hlen ht => exact .inPlace hlen ht
  | @moved h t hlen hmem hpoints ht =>
    exact .moved hlen (hkeeps h hmem (hlive' _ (ref_attr hlen hpoints))) hpoints ht

/-- A short header does not change the text. -/
theorem stored (h : sv.Carries hs att m t) :
    sv.Carries hs att (sv.stored att m) t
      ∧ sv.ref att (some (sv.stored att m)) = sv.ref att (some m) := by
  have hstored := Server.stored_of_not_expanded h.not_object
  by_cases hpack : (att.isPackable && (sv.startsPlain m && m.length ≤ 130)) = true
  · rw [if_pos hpack] at hstored
    simp only [Attribute.isPackable, Bool.and_eq_true, decide_eq_true_eq] at hpack
    cases h with
    | other hlen hfits => exact absurd hpack.1.1 hlen
    | moved hlen hmem hpoints ht =>
      have hsame := @Server.stored_of_startsExternal sv.toServer att _
        (hpoints ▸ sv.startsExternal_toastPointer _)
      rw [hsame]
      exact ⟨.moved hlen hmem hpoints ht, rfl⟩
    | @inPlace v t hlen ht =>
      rw [v.startsPlain_datum, decide_eq_true_eq] at hpack
      obtain ⟨t', fits, rfl⟩ : ∃ t' fits, v = .plain t' fits := by
        cases v with
        | plain t' fits => exact ⟨t', fits, rfl⟩
        | short t' fits => cases hpack.2.1
        | compressed method rawsize payload known raw saves => cases hpack.2.1
      obtain rfl : t = t' := ht.eq_stored rfl
      have hshort : t.length ≤ 126 := by
        have hle := hpack.2.2
        rw [Value.length_datum] at hle
        simp only [Value.stored, Value.headerLength] at hle
        omega
      have hdrop : ((Value.plain t fits).datum sv.toServer).drop 4 = t := by
        rw [Value.datum, Server.plainDatum]
        exact List.drop_left' (sv.wordBytes_length _)
      rw [hstored, hdrop, ref_datum]
      exact ⟨.inPlace (v := .short t hshort) hlen (text_short hshort),
        ref_datum (.short t hshort)⟩
  · rw [if_neg hpack] at hstored
    rw [hstored]
    exact ⟨h, rfl⟩

end Carries

namespace Brought

/-- What an object is flattened to. -/
theorem flatForm_eq (hflat : sv.flatten m = .ok (sv.plainDatum t)) :
    sv.flatForm m = sv.plainDatum t := by
  rw [Server.flatForm, hflat]
  rfl

theorem fits (h : sv.Brought hs att m t) : sv.Fits att m := by
  cases h with
  | value h => exact h.fits
  | object hlen hsize hexp hflat fits =>
    unfold Server.Fits
    rw [hlen]
    refine ⟨hsize, fun _ => ?_⟩
    rw [flatForm_eq hflat]
    exact ⟨hflat, (Value.plain t fits).startsPlain_datum,
      Value.varsize4B_datum (v := .plain t fits) fun hform => by cases hform⟩

/-- What is stored is no object any more. -/
theorem stored (h : sv.Brought hs att m t) :
    sv.Carries hs att (sv.stored att m) t
      ∧ sv.ref att (some (sv.stored att m)) = sv.ref att (some m) := by
  cases h with
  | value h => exact h.stored
  | object hlen hsize hexp hflat fits =>
    have hno : sv.startsExternal m = false := by
      rw [Server.startsExternal, hexp]
      exact Bool.and_false _
    rw [Server.stored_of_expanded hlen hexp, flatForm_eq hflat, ref_of_not_startsExternal hno]
    exact ⟨.inPlace (v := .plain t fits) hlen (text_plain fits), ref_datum (.plain t fits)⟩

end Brought

/-! ## Rows -/

/-- A column of a row stands for a text, or is null. -/
def Column (sv : StoreServer) (hs : List Handle) (col : Attribute × Option Mem)
    (t : Option (List UInt8)) : Prop :=
  Option.Rel (sv.Carries hs col.1) col.2 t

/-- A column of a row that is going to be formed does, or is null. -/
def NewColumn (sv : StoreServer) (hs : List Handle) (col : Attribute × Option Mem)
    (t : Option (List UInt8)) : Prop :=
  Option.Rel (sv.Brought hs col.1) col.2 t

/-- **A row stands for texts**: its values are these, as `heap_deform_tuple` finds them, they
stand for the texts, and the row is marked if one of them is a pointer. -/
structure Row (sv : StoreServer) (rel : HeapRelation) (hs : List Handle) (tup : HeapTuple)
    (values : List (Option Mem)) (texts : List (Option (List UInt8))) : Prop where
  deform : ∃ desc, sv.heapDeformTuple tup (rel.rdAtt.map (·, none)) = .ok (values, desc)
  length_eq : values.length = rel.rdAtt.length
  carries : List.Forall₂ (sv.Column hs) (rel.rdAtt.zip values) texts
  external : tup.hasexternal = sv.anyExternal (rel.rdAtt.zip values)

/-- What the data of a row for these texts take at most. -/
def roomFor (texts : List (Option (List UInt8))) : ℕ :=
  (texts.map fun t => t.elim 0 fun t => t.length + 25).sum

/-- What a row for these texts takes at most. -/
def rowSizeBound (texts : List (Option (List UInt8))) : ℕ :=
  headerLen (texts.any Option.isNone) texts.length + roomFor texts

variable {rel : HeapRelation} {cols : List (Attribute × Option Mem)}
  {texts : List (Option (List UInt8))}

theorem anyExternal_eq (cols : List (Attribute × Option Mem)) :
    sv.anyExternal cols = !(sv.refs cols).isEmpty := by
  induction cols with
  | nil => rfl
  | cons col cols ih =>
    obtain ⟨att, value⟩ := col
    have happend : ∀ l : List Mem, (!(l ++ sv.refs cols).isEmpty)
        = (!l.isEmpty || !(sv.refs cols).isEmpty) := by
      intro l
      cases l <;> rfl
    rw [Server.anyExternal, List.any_cons, refs, List.flatMap_cons]
    refine Eq.trans (congrArg₂ (· || ·) ?_ ih) (happend _).symm
    unfold ref
    split
    · rename_i hlen
      rw [decide_eq_true hlen, Bool.true_and]
      cases value with
      | none => rfl
      | some m =>
        rw [Option.any_some, Option.filter_some]
        cases sv.startsExternal m <;> rfl
    · rename_i hlen
      rw [decide_eq_false hlen]
      rfl

theorem Column.newColumn {col : Attribute × Option Mem} {t : Option (List UInt8)}
    (h : sv.Column hs col t) : sv.NewColumn hs col t :=
  rel_mono (fun _ _ hc => .value hc) h

theorem NewColumn.allFit (h : List.Forall₂ (sv.NewColumn hs) cols texts) : sv.AllFit cols := by
  intro col hcol m hm
  obtain ⟨i, hi⟩ := List.getElem?_of_mem hcol
  obtain ⟨t, -, ht, -⟩ := exists_forall₂_set h hi
  have hvalue : col.2 = some m := hm
  unfold NewColumn at ht
  rw [hvalue] at ht
  cases ht with
  | some hc => exact hc.fits

theorem Column.allFit (h : List.Forall₂ (sv.Column hs) cols texts) : sv.AllFit cols :=
  NewColumn.allFit (h.imp fun _ _ hc => hc.newColumn)

/-- Columns keep what they stand for while their pointers are live. -/
theorem Column.of_keeps {s s' : Session} (h : List.Forall₂ (sv.Column s.live) cols texts)
    (hkeeps : s.Keeps s') (hlive : sv.refs cols ⊆ s'.liveAttrs) :
    List.Forall₂ (sv.Column s'.live) cols texts := by
  induction h with
  | nil => exact .nil
  | @cons col t cols texts hcol hrest ih =>
    rw [refs, List.flatMap_cons, List.append_subset] at hlive
    refine .cons ?_ (ih hlive.2)
    obtain ⟨att, value⟩ := col
    cases hcol with
    | none => exact .none
    | some hc =>
      exact .some (hc.of_keeps hkeeps fun r hr => hlive.1 (Option.mem_toList.mpr hr))

theorem Column.of_subset {col : Attribute × Option Mem} {t : Option (List UInt8)}
    (h : sv.Column hs col t) (hsub : hs ⊆ hs') : sv.Column hs' col t :=
  rel_mono (fun _ _ hc => hc.of_subset hsub) h

/-- The columns as they are in the row. -/
def storedColumns (sv : StoreServer) (cols : List (Attribute × Option Mem)) :
    List (Attribute × Option Mem) :=
  cols.map fun col => (col.1, col.2.map (sv.stored col.1))

/-- No column has an object. -/
def NoObjects (sv : StoreServer) (cols : List (Attribute × Option Mem)) : Prop :=
  ∀ col ∈ cols, ∀ m ∈ col.2, ¬(col.1.attlen = .varlena ∧ sv.startsExpanded m = true)

/-- Values that have got short headers take the same room. An object does not: what it was
flattened to may get a short header when the row is formed anew. -/
theorem NoObjects.layout_storedColumns (h : sv.NoObjects cols) (data : Mem) :
    sv.layout (sv.storedColumns cols) data = sv.layout cols data := by
  induction cols generalizing data with
  | nil => rfl
  | cons col cols ih =>
    have hrest : sv.NoObjects cols := fun c hc => h c (List.mem_cons_of_mem _ hc)
    obtain ⟨att, _ | m⟩ := col
    · exact ih hrest data
    · show sv.layout (sv.storedColumns cols) (sv.place att data (sv.stored att (sv.stored att m)))
        = sv.layout cols (sv.place att data (sv.stored att m))
      rw [stored_stored (h (att, some m) List.mem_cons_self m rfl), ih hrest]

/-- A column as it is in the row. -/
theorem NewColumn.column_stored {col : Attribute × Option Mem} {t : Option (List UInt8)}
    (h : sv.NewColumn hs col t) :
    sv.Column hs (col.1, col.2.map (sv.stored col.1)) t
      ∧ sv.ref col.1 (col.2.map (sv.stored col.1)) = sv.ref col.1 col.2 := by
  obtain ⟨att, value⟩ := col
  cases h with
  | none => exact ⟨.none, rfl⟩
  | some hc =>
    obtain ⟨hstored, href⟩ := hc.stored
    exact ⟨.some hstored, href⟩

theorem NewColumn.stored (h : List.Forall₂ (sv.NewColumn hs) cols texts) :
    List.Forall₂ (sv.Column hs) (sv.storedColumns cols) texts
      ∧ sv.refs (sv.storedColumns cols) = sv.refs cols := by
  induction h with
  | nil => exact ⟨.nil, rfl⟩
  | @cons col t cols texts hcol hrest ih =>
    obtain ⟨hcolumn, href⟩ := hcol.column_stored
    exact ⟨.cons hcolumn ih.1, congrArg₂ (· ++ ·) (congrArg Option.toList href) ih.2⟩

/-- Which columns are null. -/
theorem NewColumn.map_isNone_eq (h : List.Forall₂ (sv.NewColumn hs) cols texts) :
    (cols.map fun col => col.2.isNone) = texts.map Option.isNone := by
  induction h with
  | nil => rfl
  | @cons col t cols texts hcol _ ih =>
    rw [List.map_cons, List.map_cons, ih]
    obtain ⟨att, value⟩ := col
    cases hcol <;> rfl

theorem NewColumn.any_isNone_eq (h : List.Forall₂ (sv.NewColumn hs) cols texts) :
    (cols.any fun col => col.2.isNone) = texts.any Option.isNone := by
  have heq := congrArg (List.any · id) (NewColumn.map_isNone_eq h)
  simp only [List.any_map] at heq
  exact heq

/-- **A row is not larger than its texts**, and what the columns take besides. -/
theorem Column.allocSize_le (h : List.Forall₂ (sv.Column hs) cols texts) (extra : ℕ) :
    sv.allocSize extra cols ≤ extra + rowSizeBound texts := by
  have hnew : List.Forall₂ (sv.NewColumn hs) cols texts := h.imp fun _ _ hc => hc.newColumn
  have hsum : (cols.map fun col => col.2.elim 0 fun m => (sv.stored col.1 m).length + 7).sum
      ≤ roomFor texts := by
    induction h with
    | nil => exact Nat.le_refl _
    | @cons col t cols texts hcol hrest ih =>
      have htail := ih (hrest.imp fun _ _ hc => hc.newColumn)
      obtain ⟨att, value⟩ := col
      unfold roomFor at htail ⊢
      rw [List.map_cons, List.map_cons, List.sum_cons, List.sum_cons]
      refine Nat.add_le_add ?_ htail
      cases hcol with
      | none => exact Nat.le_refl _
      | @some m t hc =>
        have hle : (sv.stored att m).length ≤ m.length := length_stored_le hc.not_object
        have hle' := hc.length_le
        simp only [Option.elim_some]
        omega
  have hlayout := @Server.length_layout_le sv.toServer cols []
  rw [Server.allocSize, rowSizeBound, NewColumn.any_isNone_eq hnew, hnew.length_eq]
  rw [List.length_nil] at hlayout
  omega

/-- **A row that holds values stands for what they stand for**, and has their pointers. -/
theorem exists_row_of_holds {tup : HeapTuple} (hatts : cols.map Prod.fst = rel.rdAtt)
    (hcols : List.Forall₂ (sv.NewColumn hs) cols texts) (hholds : sv.Holds tup cols) :
    ∃ values, sv.Row rel hs tup values texts
      ∧ rel.rdAtt.zip values = sv.storedColumns cols := by
  have hlen : cols.length = rel.rdAtt.length := by rw [← hatts, List.length_map]
  have hagree : Server.Agree (rel.rdAtt.map (·, none)) cols := by
    have hsame : (rel.rdAtt.map fun att => (att, (none : Option ℕ))).map Prod.fst
        = cols.map Prod.fst := by
      rw [List.map_map, hatts]
      exact List.map_id _
    rw [Server.Agree, hsame, hlen, List.length_map]
  obtain ⟨desc, hdeform, -⟩ := hholds.exists_heapDeformTuple_eq (NewColumn.allFit hcols) hagree
    (Server.cacheOk_of_forall_none (by
      intro col hcol
      obtain ⟨att, -, rfl⟩ := List.mem_map.mp hcol
      rfl))
  have hread : sv.readAs (rel.rdAtt.map (·, none)) cols
      = cols.map fun col => col.2.map (sv.stored col.1) := by
    rw [Server.readAs, List.length_map, ← hlen, List.take_length, hlen,
      List.drop_of_length_le (by rw [List.length_map]), List.map_nil, List.append_nil]
  have hzip : rel.rdAtt.zip (cols.map fun col => col.2.map (sv.stored col.1))
      = sv.storedColumns cols := by
    rw [← hatts, List.zip_map', storedColumns]
  obtain ⟨hstored, hrefs⟩ := NewColumn.stored hcols
  rw [hread] at hdeform
  refine ⟨_, ⟨⟨desc, hdeform⟩, by rw [List.length_map, hlen], ?_, ?_⟩, hzip⟩
  · rw [hzip]
    exact hstored
  · rw [hzip, hholds.hasexternal_eq, anyExternal_eq, anyExternal_eq, hrefs]

end StoreServer
