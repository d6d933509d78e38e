import Mathlib.Data.List.Count
import Hoco.ToastInit

/-!
# A turn of the toaster

The rounds of `heap_toast_insert_or_update` are made of turns. A turn looks for the largest
column that is suited and compresses its value, or moves it out of line, or does one after
the other. `Toasting` is what holds before and after every turn: the columns stand for the
texts of the row, and what the row refers to is what it kept and what was saved for it.

How a value is saved depends on what the toaster is called for. An ordinary row gets a new
number for every value; when a table is rewritten, a value keeps its number and is stored
only once. What the turns need of it is the same in both cases (`Saver`).
-/

open Rle

/-! ## Lists with one element replaced -/

theorem map_set_eq_self {α β : Type*} {f : α → β} {l : List α} {i : ℕ} {a a' : α}
    (ha : l[i]? = some a) (hf : f a' = f a) : (l.set i a').map f = l.map f := by
  obtain ⟨hi, rfl⟩ := List.getElem?_eq_some_iff.mp ha
  rw [List.map_set, hf, ← List.map_set, List.set_getElem_self]

theorem countP_set_add {α : Type*} (p : α → Bool) {l : List α} {i : ℕ} {a : α}
    (ha : l[i]? = some a) (a' : α) :
    (l.set i a').countP p + (p a).toNat = l.countP p + (p a').toNat := by
  induction l generalizing i with
  | nil => cases ha
  | cons x xs ih =>
    cases i with
    | zero =>
      cases ha
      rw [List.set_cons_zero, List.countP_cons, List.countP_cons]
      cases p a <;> cases p a' <;> rfl
    | succ i =>
      have := ih ha
      simp only [List.set_cons_succ, List.countP_cons]
      omega

theorem flatMap_set_perm {α β : Type*} {f : α → List β} {l : List α} {i : ℕ} {a : α}
    (ha : l[i]? = some a) (hnil : f a = []) (a' : α) :
    ((l.set i a').flatMap f).Perm (f a' ++ l.flatMap f) := by
  induction l generalizing i with
  | nil => cases ha
  | cons x xs ih =>
    cases i with
    | zero =>
      cases ha
      rw [List.set_cons_zero, List.flatMap_cons, List.flatMap_cons, hnil, List.nil_append]
    | succ i =>
      rw [List.set_cons_succ, List.flatMap_cons, List.flatMap_cons]
      exact ((ih ha).append_left _).trans (List.perm_append_comm_assoc _ _ _)

theorem Session.live_subset {s s' : Session} (h : s.handles ⊆ s'.handles) : s.live ⊆ s'.live :=
  List.filter_subset _ h

namespace StoreServer

variable {sv : StoreServer} {src : Attribute → Handle → Prop} {hs : List Handle}
  {s s' : Session} {col : ToastColumn} {cols : List ToastColumn}

/-! ## Columns that are suited -/

/-- Whether a column is suited, for a round. -/
def suits (sv : StoreServer) (forCompression checkMain : Bool) (col : ToastColumn) : Bool :=
  match sv.isCandidate col forCompression checkMain with
  | .ok suited => suited
  | .error _ => false

/-- The storage that a round is for. -/
def storageSuits (checkMain : Bool) (att : Attribute) : Bool :=
  if checkMain then att.attstorage = .main
  else att.attstorage = .extended || att.attstorage = .external

/-- The column is not to be compressed, or not any more. -/
def Tried (sv : StoreServer) (col : ToastColumn) : Prop :=
  ∀ checkMain, sv.suits true checkMain col = false

section

variable {forCompression checkMain : Bool}

theorem isCandidate_of_ignore (hignore : col.ignore = true) :
    sv.isCandidate col forCompression checkMain = .ok false := by
  rw [isCandidate, hignore]
  rfl

theorem suits_of_ignore (hignore : col.ignore = true) :
    sv.suits forCompression checkMain col = false := by
  rw [suits, isCandidate_of_ignore hignore]

/-- A round for the one storage is not for the other. -/
theorem storageSuits_not (h : storageSuits checkMain col.att = true) :
    storageSuits (!checkMain) col.att = false := by
  unfold storageSuits at h ⊢
  cases checkMain with
  | true =>
    simp only [↓reduceIte, decide_eq_true_eq] at h
    simp [h]
  | false =>
    simp only [Bool.false_eq_true, ↓reduceIte, Bool.or_eq_true, decide_eq_true_eq] at h
    rcases h with h | h <;> simp [h]

/-- Which columns in place are suited. -/
theorem Open.isCandidate_eq {v : Value} {t : List UInt8} (h : sv.Open src col v t) :
    sv.isCandidate col forCompression checkMain
      = .ok (!col.ignore && !(forCompression && (col.incompressible || v.method.isSome))
        && storageSuits checkMain col.att) := by
  unfold isCandidate
  rw [h.value_eq, Option.elim_some, Run.ok_bind, v.varattIsExternal_datum, Run.ok_bind,
    if_neg Bool.false_ne_true, v.varattIsCompressed_datum]
  cases col.ignore with
  | true => rfl
  | false =>
    cases forCompression with
    | false => rfl
    | true =>
      cases col.incompressible with
      | true => rfl
      | false =>
        cases v.method.isSome with
        | true => rfl
        | false => rfl

theorem Open.suits_eq {v : Value} {t : List UInt8} (h : sv.Open src col v t) :
    sv.suits forCompression checkMain col
      = (!col.ignore && !(forCompression && (col.incompressible || v.method.isSome))
        && storageSuits checkMain col.att) := by
  rw [suits, h.isCandidate_eq]

/-- A column in place has been tried if it cannot be compressed or is compressed. -/
theorem Open.tried {v : Value} {t : List UInt8} (h : sv.Open src col v t)
    (hor : (col.incompressible || v.method.isSome) = true) : sv.Tried col := by
  intro checkMain
  rw [h.suits_eq, hor]
  simp

/-- Whether a column is suited can be told. -/
theorem ColumnOk.isCandidate_eq {t : Option (List UInt8)} (h : sv.ColumnOk src hs col t) :
    sv.isCandidate col forCompression checkMain = .ok (sv.suits forCompression checkMain col) := by
  cases h with
  | done hignore h hout => rw [isCandidate_of_ignore hignore, suits_of_ignore hignore]
  | inPlace h => rw [h.isCandidate_eq, h.suits_eq]

/-- A column that is suited is in place, and not compressed if it is to be. -/
theorem ColumnOk.of_suits {t : Option (List UInt8)} (h : sv.ColumnOk src hs col t)
    (hsuits : sv.suits forCompression checkMain col = true) :
    storageSuits checkMain col.att = true ∧ col.ignore = false ∧ ∃ v t', t = some t'
      ∧ sv.Open src col v t' ∧ (forCompression = true → v.method = none) := by
  cases h with
  | done hignore h hout =>
    rw [suits_of_ignore hignore] at hsuits
    cases hsuits
  | @inPlace v t h =>
    rw [h.suits_eq, Bool.and_eq_true, Bool.and_eq_true, Bool.not_eq_true'] at hsuits
    refine ⟨hsuits.2, hsuits.1.1, v, t, rfl, h, ?_⟩
    rintro rfl
    cases hm : v.method with
    | none => rfl
    | some cmid => simp [hm] at hsuits

/-- **The search for the largest column** returns one that is suited and larger than what
it started with, or nothing when there is none. -/
theorem exists_findBiggestFrom_eq
    (hall : ∀ col ∈ cols, ∃ t, sv.ColumnOk src hs col t) (k : ℕ) (best : Option ℕ) (size : ℤ) :
    ∃ r, sv.findBiggestFrom forCompression checkMain cols k best size = .ok r
      ∧ (r = best ∨ ∃ i col, r = some (k + i) ∧ cols[i]? = some col
        ∧ sv.suits forCompression checkMain col = true ∧ size < col.taiSize)
      ∧ (r = none → best = none ∧ ∀ col ∈ cols,
        sv.suits forCompression checkMain col = true → col.taiSize ≤ size) := by
  induction cols generalizing k best size with
  | nil => exact ⟨best, rfl, Or.inl rfl, fun h => ⟨h, by simp⟩⟩
  | cons col cols ih =>
    obtain ⟨t, hcol⟩ := hall col List.mem_cons_self
    have hrest : ∀ c ∈ cols, ∃ t, sv.ColumnOk src hs c t :=
      fun c hc => hall c (List.mem_cons_of_mem _ hc)
    rw [findBiggestFrom, hcol.isCandidate_eq, Run.ok_bind]
    by_cases hbetter : (sv.suits forCompression checkMain col && decide (col.taiSize > size)) = true
    · rw [if_pos hbetter]
      rw [Bool.and_eq_true, decide_eq_true_eq] at hbetter
      obtain ⟨r, hrun, hfound, hnone⟩ := ih hrest (k + 1) (some k) col.taiSize
      refine ⟨r, hrun, Or.inr ?_, fun h => absurd (hnone h).1 (Option.some_ne_none k)⟩
      rcases hfound with rfl | ⟨i, c, rfl, hc, hsuits, hlt⟩
      · exact ⟨0, col, rfl, rfl, hbetter⟩
      · exact ⟨i + 1, c, by rw [Nat.add_assoc, Nat.add_comm 1 i], hc, hsuits,
          Int.lt_trans hbetter.2 hlt⟩
    · rw [if_neg hbetter]
      rw [Bool.and_eq_true, decide_eq_true_eq, not_and, Int.not_lt] at hbetter
      obtain ⟨r, hrun, hfound, hnone⟩ := ih hrest (k + 1) best size
      refine ⟨r, hrun, hfound.imp_right ?_, fun h => ⟨(hnone h).1, fun c hc => ?_⟩⟩
      · rintro ⟨i, c, rfl, hc⟩
        exact ⟨i + 1, c, by rw [Nat.add_assoc, Nat.add_comm 1 i], hc⟩
      · rcases List.mem_cons.mp hc with rfl | hc
        · exact hbetter
        · exact (hnone h).2 c hc

/-- `toast_tuple_find_biggest_attribute`. -/
theorem exists_toastTupleFindBiggestAttribute_eq {texts : List (Option (List UInt8))}
    (hall : List.Forall₂ (sv.ColumnOk src hs) cols texts) (forCompression checkMain : Bool) :
    ∃ r, sv.toastTupleFindBiggestAttribute cols forCompression checkMain = .ok r
      ∧ (∀ i ∈ r, ∃ col, cols[i]? = some col ∧ sv.suits forCompression checkMain col = true
        ∧ minToastSize < col.taiSize)
      ∧ (r = none → ∀ col ∈ cols, sv.suits forCompression checkMain col = true →
        col.taiSize ≤ minToastSize) := by
  have hall' : ∀ col ∈ cols, ∃ t, sv.ColumnOk src hs col t := by
    intro col hcol
    obtain ⟨i, hi⟩ := List.getElem?_of_mem hcol
    obtain ⟨t, -, ht, -⟩ := exists_forall₂_set hall hi
    exact ⟨t, ht⟩
  obtain ⟨r, hrun, hfound, hnone⟩ := exists_findBiggestFrom_eq hall' 0 none minToastSize
  refine ⟨r, hrun, fun i hi => ?_, fun h => (hnone h).2⟩
  rcases hfound with rfl | ⟨j, col, rfl, hcol⟩
  · cases hi
  · cases hi
    exact ⟨col, by rw [Nat.zero_add]; exact hcol.1, hcol.2⟩

end

/-! ## Saving -/

/-- **How values are saved.** `World` relates what the toaster does to a session: saving a
value in place adds a pointer to it, which stands for its text. If not every value is saved
anew (`Fresh`), the pointer may also be one that is there already; but then the value must
have been tried. `Room` is how many values can be saved. -/
structure Saver (sv : StoreServer) (rel : Relation) (src : Attribute → Handle → Prop) where
  World : Session → Store → Prop
  Room : Store → ℕ → Prop
  Fresh : Prop
  save : ∀ {s : Session} {st st' : Store} {col : ToastColumn} {v : Value} {t : List UInt8}
    {attr : Mem}, World s st → sv.Open src col v t → col.ignore = false →
    v.stored sv.toServer ≠ [] → (¬Fresh → sv.Tried col) →
    sv.toastSaveDatum st rel (v.datum sv.toServer) col.taiOldexternal = .ok (attr, st') →
    ∃ s' h, World s' st' ∧ h ∈ s'.live ∧ h.attr = attr ∧ h.PointsTo sv ∧ sv.Text h.value t
      ∧ (s'.handles = h :: s.handles ∨ ¬Fresh ∧ s'.handles = s.handles)
  exists_save : ∀ {s : Session} {st : Store} {n : ℕ} {col : ToastColumn} {v : Value}
    {t : List UInt8}, World s st → Room st (n + 1) → sv.Open src col v t → col.ignore = false →
    ∃ r, sv.toastSaveDatum st rel (v.datum sv.toServer) col.taiOldexternal = .ok r
  room_save : ∀ {s : Session} {st st' : Store} {n : ℕ} {col : ToastColumn} {v : Value}
    {t : List UInt8} {attr : Mem}, World s st → Room st (n + 1) → sv.Open src col v t →
    col.ignore = false →
    sv.toastSaveDatum st rel (v.datum sv.toServer) col.taiOldexternal = .ok (attr, st') →
    Room st' n
  room_mono : ∀ {st : Store} {m n : ℕ}, Room st n → m ≤ n → Room st m

/-- What the toaster is at: the session and the tables it found, the texts of the row, what
its columns are like, its values at first, and the pointers it keeps. -/
structure ToastTask where
  start : Session
  store : Store
  texts : List (Option (List UInt8))
  frames : List (Attribute × (Bool × Option Mem) × Bool)
  values : List (Option Mem)
  kept : List Mem

/-- **What holds while a row is toasted.** -/
structure Toasting {rel : Relation} (saver : sv.Saver rel src) (task : ToastTask) (s : Session)
    (ts : ToastState) : Prop where
  world : saver.World s ts.store
  columns : List.Forall₂ (sv.ColumnOk src s.live) ts.cols task.texts
  frame_eq : ts.cols.map ToastColumn.frame = task.frames
  unchanged : ts.needsChange = false → ts.cols.map ToastColumn.value = task.values
  grown : ∃ new reused, s.handles = new ++ task.start.handles ∧ (∀ h ∈ new, h.live = true)
    ∧ (saver.Fresh → reused = [])
    ∧ (sv.refs (ts.cols.map ToastColumn.entry)).Perm
      (new.map Handle.attr ++ (reused ++ task.kept))
  room : ∀ n, saver.Room task.store (n + ts.cols.countP ToastColumn.ignore) →
    saver.Room ts.store n

/-- What is needed for compressed values to be read again. -/
structure Lossless (sv : StoreServer) : Prop where
  pglz : sv.UsesPglz
  lz4 : ∀ lz4 ∈ sv.lz4, lz4.Restores

variable {rel : Relation} {saver : sv.Saver rel src} {task : ToastTask} {ts ts' : ToastState}
  {i : ℕ} {v : Value} {t : List UInt8}

/-- A column gets a pointer, or none as before. -/
theorem refs_set_perm (hcol : cols[i]? = some col) (href : sv.ref col.att col.value = none)
    (col' : ToastColumn) :
    (sv.refs ((cols.set i col').map ToastColumn.entry)).Perm
      ((sv.ref col'.att col'.value).toList ++ sv.refs (cols.map ToastColumn.entry)) := by
  rw [refs, refs, List.flatMap_map, List.flatMap_map]
  exact flatMap_set_perm hcol (congrArg Option.toList href) col'

/-- The columns, when one of them is replaced. -/
theorem Toasting.forall₂_set (h : Toasting saver task s ts) (hcol : ts.cols[i]? = some col)
    (htext : task.texts[i]? = some (some t)) (hsub : s.handles ⊆ s'.handles) {col' : ToastColumn}
    (hok : sv.ColumnOk src s'.live col' (some t)) :
    List.Forall₂ (sv.ColumnOk src s'.live) (ts.cols.set i col') task.texts := by
  obtain ⟨t', ht', -, hset⟩ := exists_forall₂_set
    (h.columns.imp fun _ _ hc => hc.of_subset (Session.live_subset hsub)) hcol
  obtain rfl : some t = t' := Option.some.inj (htext.symm.trans ht')
  exact hset col' hok

/-- A column is replaced by one that is in place as well. -/
theorem Toasting.replace (h : Toasting saver task s ts) (hcol : ts.cols[i]? = some col)
    (htext : task.texts[i]? = some (some t)) (hopen : sv.Open src col v t) {col' : ToastColumn}
    {v' : Value} (hopen' : sv.Open src col' v' t) (hatt : col'.att = col.att)
    (hneeds : col'.needsDeleteOld = col.needsDeleteOld) (hold : col'.oldvalue = col.oldvalue)
    (hignore : col'.ignore = col.ignore) {needsChange : Bool}
    (hchange : needsChange = false → ts.needsChange = false ∧ col'.value = col.value) :
    Toasting saver task s ⟨ts.store, ts.cols.set i col', needsChange⟩ where
  world := h.world
  columns := h.forall₂_set hcol htext (List.Subset.refl _) (.inPlace hopen')
  frame_eq := by
    rw [← h.frame_eq]
    refine map_set_eq_self hcol ?_
    rw [ToastColumn.frame, ToastColumn.frame, hatt, hneeds, hold, hopen.value_eq, hopen'.value_eq]
    rfl
  unchanged := by
    intro hno
    obtain ⟨hbefore, hsame⟩ := hchange hno
    rw [← h.unchanged hbefore]
    exact map_set_eq_self hcol hsame
  grown := by
    obtain ⟨new, reused, hhandles, hlive, hfresh, hrefs⟩ := h.grown
    have hset := refs_set_perm hcol (hopen.value_eq ▸ ref_datum v) col'
    rw [hopen'.value_eq, ref_datum] at hset
    exact ⟨new, reused, hhandles, hlive, hfresh, hset.trans hrefs⟩
  room := by
    intro n hroom
    have hcount := countP_set_add ToastColumn.ignore hcol col'
    rw [hignore] at hcount
    refine h.room n ?_
    rwa [show ts.cols.countP ToastColumn.ignore = (ts.cols.set i col').countP ToastColumn.ignore by
      omega]

/-! ## Moving out of line -/

/-- `toast_tuple_externalize`, on a column in place. -/
theorem Open.externalizeStep_eq (hopen : sv.Open src col v t) (hcol : ts.cols[i]? = some col) :
    sv.externalizeStep rel ts i
      = (fun r : Mem × Store => ⟨r.2, ts.cols.set i { col with value := some r.1, ignore := true },
          true⟩) <$> sv.toastSaveDatum ts.store rel (v.datum sv.toServer) col.taiOldexternal := by
  rw [externalizeStep, hcol, Option.elim_some, Run.ok_bind, externalize, hopen.value_eq,
    Option.elim_some, Run.ok_bind]
  cases sv.toastSaveDatum ts.store rel (v.datum sv.toServer) col.taiOldexternal <;> rfl

/-- **Moving a column out of line.** -/
theorem Toasting.of_externalizeStep_eq (h : Toasting saver task s ts)
    (hcol : ts.cols[i]? = some col) (htext : task.texts[i]? = some (some t))
    (hopen : sv.Open src col v t) (hignore : col.ignore = false)
    (hbytes : v.stored sv.toServer ≠ []) (htried : ¬saver.Fresh → sv.Tried col)
    (hrun : sv.externalizeStep rel ts i = .ok ts') :
    ∃ s' col', ts'.cols = ts.cols.set i col' ∧ col'.ignore = true ∧ Toasting saver task s' ts' := by
  rw [hopen.externalizeStep_eq hcol] at hrun
  obtain ⟨⟨attr, st⟩, hsave, rfl⟩ := Run.map_eq_ok.mp hrun
  obtain ⟨s', g, hworld, hg, rfl, hpoints, hgt, hgrown⟩ :=
    saver.save h.world hopen hignore hbytes htried hsave
  have hsub : s.handles ⊆ s'.handles := by
    rcases hgrown with hgrown | ⟨-, hgrown⟩
    · exact hgrown ▸ List.subset_cons_self g s.handles
    · exact hgrown ▸ List.Subset.refl _
  have href : sv.ref col.att (some g.attr) = some g.attr := ref_attr hopen.varlena hpoints
  refine ⟨s', _, rfl, rfl, hworld, ?_, ?_, (fun hno => by cases hno), ?_, ?_⟩
  · exact h.forall₂_set hcol htext hsub
      (.done rfl (.some (.moved hopen.varlena hg hpoints hgt)) fun _ => href)
  · rw [← h.frame_eq]
    refine map_set_eq_self hcol ?_
    rw [ToastColumn.frame, ToastColumn.frame, hopen.value_eq]
    rfl
  · -- one pointer more that the row has: a new one, or one that was there
    obtain ⟨new, reused, hhandles, hlive, hfresh, hrefs⟩ := h.grown
    have hset := refs_set_perm hcol (hopen.value_eq ▸ ref_datum v)
      { col with value := some g.attr, ignore := true }
    rw [href, Option.toList_some] at hset
    replace hset := hset.trans (hrefs.append_left [g.attr])
    rcases hgrown with hgrown | ⟨hold, hgrown⟩
    · refine ⟨g :: new, reused, ?_, List.forall_mem_cons.mpr ⟨(Session.mem_live.mp hg).2, hlive⟩,
        hfresh, hset⟩
      rw [hgrown, hhandles, List.cons_append]
    · refine ⟨new, g.attr :: reused, hgrown.trans hhandles, hlive, fun hf => absurd hf hold,
        hset.trans ?_⟩
      exact List.perm_append_comm_assoc _ _ _
  · intro n hroom
    have hcount := countP_set_add ToastColumn.ignore hcol
      { col with value := some g.attr, ignore := true }
    rw [hignore] at hcount
    simp only [Bool.toNat_false, Bool.toNat_true] at hcount
    refine saver.room_save h.world (h.room (n + 1) ?_) hopen hignore hsave
    rwa [Nat.add_assoc, Nat.add_comm 1, ← hcount]

/-- A column can be moved out when there is room for as many values as there are columns. -/
theorem Toasting.exists_externalizeStep_eq (h : Toasting saver task s ts)
    (hroom : saver.Room task.store task.texts.length)
    (hcol : ts.cols[i]? = some col) (hopen : sv.Open src col v t) (hignore : col.ignore = false) :
    ∃ ts', sv.externalizeStep rel ts i = .ok ts' := by
  have hlt : ts.cols.countP ToastColumn.ignore < task.texts.length := by
    rw [← h.columns.length_eq]
    exact List.countP_lt_length_iff.mpr ⟨col, List.mem_of_getElem? hcol, hignore⟩
  have hleft : saver.Room ts.store 1 := by
    refine h.room 1 (saver.room_mono hroom ?_)
    omega
  obtain ⟨r, hsave⟩ := saver.exists_save h.world hleft hopen hignore
  rw [hopen.externalizeStep_eq hcol, hsave]
  exact ⟨_, rfl⟩

/-! ## Compressing -/

theorem Open.lt_length (h : sv.Open src col v t) (hsize : minToastSize < col.taiSize) :
    24 < (v.datum sv.toServer).length := by
  rw [h.size_eq] at hsize
  simp only [minToastSize] at hsize
  omega

theorem Open.stored_ne_nil (h : sv.Open src col v t) (hsize : minToastSize < col.taiSize) :
    v.stored sv.toServer ≠ [] := by
  have hlong := h.lt_length hsize
  have := v.headerLength_le
  rw [v.length_datum] at hlong
  refine List.ne_nil_of_length_pos ?_
  omega

/-- Where a value came from is still known when it could not be compressed. -/
theorem Origin.incompressible {old : Mem} (h : sv.Origin src col v old)
    (hwhy : col.att.attstorage = .external
      ∨ sv.toastCompressDatum (v.datum sv.toServer) col.att.attcompression = .ok none) :
    sv.Origin src { col with incompressible := true } v old := by
  cases h with
  | fetched hsrc hv hkept => exact .fetched hsrc hv fun _ => hwhy
  | compressed hsrc hmethod hstorage hsome hrun =>
    exact .compressed hsrc hmethod hstorage hsome hrun

/-- And when it was. -/
theorem Origin.compress {old : Mem} (h : sv.Origin src col v old) (hmethod : v.method = none)
    (hstorage : col.att.attstorage ≠ .external) {v' : Value} (hsome : v'.method.isSome = true)
    (hrun : sv.toastCompressDatum (v.datum sv.toServer) col.att.attcompression
      = .ok (some (v'.datum sv.toServer))) {col' : ToastColumn} (hatt : col'.att = col.att) :
    sv.Origin src col' v' old := by
  cases h with
  | fetched hsrc hv hkept =>
    subst hv
    rw [Value.method_unpacked] at hmethod
    rw [← hatt] at hsrc hstorage hrun
    exact .compressed hsrc hmethod hstorage hsome hrun
  | compressed hsrc _ _ hsome' _ =>
    rw [hmethod] at hsome'
    cases hsome'

/-- A column that is marked as not to be compressed. -/
theorem Open.mark (h : sv.Open src col v t) (hwhy : col.att.attstorage = .external
      ∨ sv.toastCompressDatum (v.datum sv.toServer) col.att.attcompression = .ok none) :
    sv.Open src { col with incompressible := true } v t :=
  ⟨h.varlena, h.value_eq, h.text, h.size_eq, h.plain,
    fun hignore old hold => (h.origin hignore old hold).incompressible hwhy⟩

/-- **`toast_tuple_try_compression`** leaves the column in place, with its text, and not to
be compressed again. -/
theorem Open.of_tryCompression_eq (hl : sv.Lossless) (h : sv.Open src col v t)
    (hmethod : v.method = none) (hstorage : col.att.attstorage ≠ .external)
    (hsize : minToastSize < col.taiSize) {col' : ToastColumn} {changed : Bool}
    (hrun : sv.tryCompression col = .ok (col', changed)) :
    ∃ v', sv.Open src col' v' t ∧ v'.stored sv.toServer ≠ [] ∧ col'.att = col.att
      ∧ col'.needsDeleteOld = col.needsDeleteOld ∧ col'.oldvalue = col.oldvalue
      ∧ col'.ignore = col.ignore ∧ (changed = false → col'.value = col.value)
      ∧ sv.Tried col' := by
  rw [tryCompression, h.value_eq, Option.elim_some, Run.ok_bind] at hrun
  obtain ⟨compressed, hcompress, hrun⟩ := Run.bind_eq_ok.mp hrun
  cases compressed with
  | none =>
    cases hrun
    have hopen := h.mark (Or.inr hcompress)
    rw [← h.value_eq]
    exact ⟨v, hopen, h.stored_ne_nil hsize, rfl, rfl, rfl, rfl, fun _ => rfl, hopen.tried rfl⟩
  | some d =>
    obtain ⟨v', rfl, htext, hsome⟩ := h.text.exists_of_toastCompressDatum hmethod
      (h.lt_length hsize) hl.pglz hl.lz4 hcompress
    rw [Option.elim_some, Value.varsize4B_datum (Value.form_ne_short hsome), Run.ok_bind] at hrun
    cases hrun
    have hopen : sv.Open src { col with
        value := some (v'.datum sv.toServer)
        taiSize := ((v'.datum sv.toServer).length : ℕ) } v' t :=
      ⟨h.varlena, rfl, htext, rfl, h.plain, fun hignore old hold =>
        (h.origin hignore old hold).compress hmethod hstorage hsome hcompress rfl⟩
    refine ⟨v', hopen, Value.stored_ne_nil hsome, rfl, rfl, rfl, rfl, (fun hno => by cases hno),
      hopen.tried ?_⟩
    rw [hsome]
    exact Bool.or_true _

/-- A turn of the third round. -/
theorem Toasting.of_compressionStep_eq (hl : sv.Lossless) (h : Toasting saver task s ts)
    (hcol : ts.cols[i]? = some col) (htext : task.texts[i]? = some (some t))
    (hopen : sv.Open src col v t) (hmethod : v.method = none)
    (hstorage : col.att.attstorage ≠ .external) (hsize : minToastSize < col.taiSize)
    (hrun : sv.compressionStep ts i = .ok ts') :
    ∃ col' v', ts'.cols = ts.cols.set i col' ∧ sv.Open src col' v' t ∧ v'.stored sv.toServer ≠ []
      ∧ col'.ignore = col.ignore ∧ sv.Tried col' ∧ Toasting saver task s ts' := by
  rw [compressionStep, hcol, Option.elim_some, Run.ok_bind] at hrun
  obtain ⟨⟨col', changed⟩, htry, hrun⟩ := Run.bind_eq_ok.mp hrun
  obtain ⟨v', hopen', hbytes, hatt, hneeds, hold, hignore, hsame, htried⟩ :=
    hopen.of_tryCompression_eq hl hmethod hstorage hsize htry
  cases hrun
  refine ⟨col', v', rfl, hopen', hbytes, hignore, htried, ?_⟩
  refine h.replace hcol htext hopen hopen' hatt hneeds hold hignore fun hno => ?_
  rw [Bool.or_eq_false_iff] at hno
  exact ⟨hno.1, hsame hno.2⟩

/-- The beginning of a turn of the first round. -/
theorem Toasting.of_compressOrMark_eq (hl : sv.Lossless) (h : Toasting saver task s ts)
    (hcol : ts.cols[i]? = some col) (htext : task.texts[i]? = some (some t))
    (hopen : sv.Open src col v t) (hmethod : v.method = none)
    (hstorage : storageSuits false col.att = true) (hsize : minToastSize < col.taiSize)
    (hrun : sv.compressOrMark ts i = .ok ts') :
    ∃ col' v', ts'.cols = ts.cols.set i col' ∧ sv.Open src col' v' t ∧ v'.stored sv.toServer ≠ []
      ∧ col'.ignore = col.ignore ∧ sv.Tried col' ∧ Toasting saver task s ts' := by
  rw [compressOrMark, hcol, Option.elim_some, Run.ok_bind] at hrun
  split at hrun
  · rename_i hext
    refine h.of_compressionStep_eq hl hcol htext hopen hmethod (fun hno => ?_) hsize hrun
    rw [hext] at hno
    cases hno
  · rename_i hext
    cases hrun
    have hexternal : col.att.attstorage = .external := by
      simpa [storageSuits, hext] using hstorage
    have hopen' := hopen.mark (Or.inl hexternal)
    exact ⟨_, v, rfl, hopen', hopen.stored_ne_nil hsize, rfl, hopen'.tried rfl,
      h.replace hcol htext hopen hopen' rfl rfl rfl rfl fun hno => ⟨hno, rfl⟩⟩

theorem getElem?_set_of_getElem? {i : ℕ} (hcol : cols[i]? = some col) (col' : ToastColumn) :
    (cols.set i col')[i]? = some col' :=
  List.getElem?_set_self (List.getElem?_eq_some_iff.mp hcol).1

/-- **A turn of the first round.** -/
theorem Toasting.of_firstStep_eq (hl : sv.Lossless) (h : Toasting saver task s ts)
    (hcol : ts.cols[i]? = some col) (htext : task.texts[i]? = some (some t))
    (hopen : sv.Open src col v t) (hignore : col.ignore = false) (hmethod : v.method = none)
    (hstorage : storageSuits false col.att = true) (hsize : minToastSize < col.taiSize)
    {maxDataLen : ℕ} (hrun : sv.firstStep rel maxDataLen ts i = .ok ts') :
    ∃ s' col', ts'.cols = ts.cols.set i col' ∧ sv.suits true false col' = false
      ∧ Toasting saver task s' ts' := by
  rw [firstStep] at hrun
  obtain ⟨ts₁, hfirst, hrun⟩ := Run.bind_eq_ok.mp hrun
  obtain ⟨col₁, v₁, hcols, hopen₁, hbytes, hignore₁, htried, h₁⟩ :=
    h.of_compressOrMark_eq hl hcol htext hopen hmethod hstorage hsize hfirst
  have hcol₁ : ts₁.cols[i]? = some col₁ := hcols ▸ getElem?_set_of_getElem? hcol col₁
  rw [hcol₁, Option.elim_some, Run.ok_bind] at hrun
  split at hrun
  · obtain ⟨s', col', hcols', hignore', h'⟩ := h₁.of_externalizeStep_eq hcol₁ htext hopen₁
      (hignore₁.trans hignore) hbytes (fun _ => htried) hrun
    exact ⟨s', col', by rw [hcols', hcols, List.set_set], suits_of_ignore hignore', h'⟩
  · cases hrun
    exact ⟨s, col₁, hcols, htried false, h₁⟩

/-! ## Turns succeed -/

/-- The compressors return on the texts of the row. -/
def CompressorsReturn (sv : StoreServer) (atts : List Attribute)
    (texts : List (Option (List UInt8))) : Prop :=
  ∀ p ∈ atts.zip texts, ∀ t ∈ p.2, ∀ v : Value, v.method = none → sv.Text v t →
    ∃ r, sv.toastCompressDatum (v.datum sv.toServer) p.1.attcompression = .ok r

/-- The built-in methods return on every text but the largest. -/
theorem compressorsReturn_of_builtin {atts : List Attribute} {texts : List (Option (List UInt8))}
    (hmethod : ∀ att ∈ atts, sv.effectiveMethod att.attcompression = 'p'
      ∨ sv.effectiveMethod att.attcompression = 'r')
    (hlen : ∀ x ∈ texts, ∀ t ∈ x, (t.length : ℤ) + 12 ≤ maxAllocSize) :
    sv.CompressorsReturn atts texts := by
  intro p hp t ht v hv htext
  obtain ⟨hatt, htexts⟩ := List.of_mem_zip hp
  obtain ⟨form, hform⟩ := Value.hasText_datum sv.toServer hv
  rw [← htext.eq_stored hv] at hform
  exact hform.exists_toastCompressDatum_eq (hmethod p.1 hatt) (hlen p.2 htexts t ht)

section

variable (hl : sv.Lossless) (hc : sv.CompressorsReturn (task.frames.map Prod.fst) task.texts)

include hl hc

theorem Toasting.exists_compressionStep_eq (h : Toasting saver task s ts)
    (hcol : ts.cols[i]? = some col) (htext : task.texts[i]? = some (some t))
    (hopen : sv.Open src col v t) (hmethod : v.method = none) (hsize : minToastSize < col.taiSize) :
    ∃ ts', sv.compressionStep ts i = .ok ts' := by
  have hatt : (task.frames.map Prod.fst)[i]? = some col.att := by
    rw [← h.frame_eq, List.getElem?_map, List.getElem?_map, hcol]
    rfl
  have hzip : ((task.frames.map Prod.fst).zip task.texts)[i]? = some (col.att, some t) :=
    List.getElem?_zip_eq_some.mpr ⟨hatt, htext⟩
  obtain ⟨r, hr⟩ := hc _ (List.mem_of_getElem? hzip) t rfl v hmethod hopen.text
  rw [compressionStep, hcol, Option.elim_some, Run.ok_bind, tryCompression, hopen.value_eq,
    Option.elim_some, Run.ok_bind, hr, Run.ok_bind]
  cases r with
  | none => exact ⟨_, rfl⟩
  | some d =>
    obtain ⟨v', rfl, -, hsome⟩ := hopen.text.exists_of_toastCompressDatum hmethod
      (hopen.lt_length hsize) hl.pglz hl.lz4 hr
    rw [Option.elim_some, Value.varsize4B_datum (Value.form_ne_short hsome)]
    exact ⟨_, rfl⟩

theorem Toasting.exists_firstStep_eq
    (hroom : rel.reltoastrelid ≠ 0 → saver.Room task.store task.texts.length)
    (h : Toasting saver task s ts) (hcol : ts.cols[i]? = some col)
    (htext : task.texts[i]? = some (some t)) (hopen : sv.Open src col v t)
    (hignore : col.ignore = false) (hmethod : v.method = none)
    (hstorage : storageSuits false col.att = true) (hsize : minToastSize < col.taiSize)
    (maxDataLen : ℕ) : ∃ ts', sv.firstStep rel maxDataLen ts i = .ok ts' := by
  have hfirst : ∃ ts₁, sv.compressOrMark ts i = .ok ts₁ := by
    rw [compressOrMark, hcol, Option.elim_some, Run.ok_bind]
    split
    · exact h.exists_compressionStep_eq hl hc hcol htext hopen hmethod hsize
    · exact ⟨_, rfl⟩
  obtain ⟨ts₁, hfirst⟩ := hfirst
  obtain ⟨col₁, v₁, hcols, hopen₁, -, hignore₁, -, h₁⟩ :=
    h.of_compressOrMark_eq hl hcol htext hopen hmethod hstorage hsize hfirst
  have hcol₁ : ts₁.cols[i]? = some col₁ := hcols ▸ getElem?_set_of_getElem? hcol col₁
  rw [firstStep, hfirst, Run.ok_bind, hcol₁, Option.elim_some, Run.ok_bind]
  split
  · rename_i hlarge
    exact h₁.exists_externalizeStep_eq (hroom hlarge.2) hcol₁ hopen₁ (hignore₁.trans hignore)
  · exact ⟨_, rfl⟩

end

end StoreServer
