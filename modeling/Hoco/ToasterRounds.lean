import Hoco.ToasterTurn

/-!
# The rounds of the toaster

A turn takes one column that is suited and leaves it unsuited, so that a round ends
(`exists_toastRound_eq`). What every turn keeps, a round keeps (`of_toastRound_eq`); when it
is over, the row fits or no column that is suited is larger than a pointer.

The order of the rounds matters. A value is moved out of line only when the round before
has left nothing to be compressed, so that every value which is moved out has been tried.
This is what the invariants of the second and the fourth round are for.
-/

open Rle

namespace StoreServer

variable {sv : StoreServer} {src : Attribute → Handle → Prop} {s s' : Session}
  {col : ToastColumn} {cols : List ToastColumn} {ts ts' : ToastState} {i : ℕ}

/-! ## One round -/

section

variable {maxDataLen fuel : ℕ} {enabled forCompression checkMain : Bool}
  {step : ToastState → ℕ → Run ToastState} {P : ToastState → Prop}

/-- **The turns of a round keep** a property, and leave one column less that is suited. -/
def TurnsKeep (sv : StoreServer) (maxDataLen : ℕ) (enabled forCompression checkMain : Bool)
    (step : ToastState → ℕ → Run ToastState) (P : ToastState → Prop) : Prop :=
  ∀ {ts i ts' n}, P ts → sv.dataSize ts = .ok n → maxDataLen < n → enabled = true →
    sv.toastTupleFindBiggestAttribute ts.cols forCompression checkMain = .ok (some i) →
    step ts i = .ok ts' → P ts' ∧ ts'.cols.countP (sv.suits forCompression checkMain)
      < ts.cols.countP (sv.suits forCompression checkMain)

/-- **What every turn keeps, a round keeps**; and when it is over, the row fits or no column
is suited any more. -/
theorem of_toastRound_eq
    (hkeep : sv.TurnsKeep maxDataLen enabled forCompression checkMain step P) (hP : P ts)
    (hrun : sv.toastRound maxDataLen enabled forCompression checkMain step fuel ts = .ok ts') :
    P ts' ∧ (enabled = true → (∃ n, sv.dataSize ts' = .ok n ∧ n ≤ maxDataLen)
      ∨ sv.toastTupleFindBiggestAttribute ts'.cols forCompression checkMain = .ok none) := by
  induction fuel generalizing ts with
  | zero => cases hrun
  | succ fuel ih =>
    rw [toastRound] at hrun
    obtain ⟨n, hsize, hrun⟩ := Run.bind_eq_ok.mp hrun
    split at hrun
    · rename_i hlarge
      obtain ⟨biggest, hfind, hrun⟩ := Run.bind_eq_ok.mp hrun
      cases biggest with
      | none =>
        cases hrun
        exact ⟨hP, fun _ => Or.inr hfind⟩
      | some i =>
        obtain ⟨ts₁, hturn, hrun⟩ := Run.bind_eq_ok.mp hrun
        exact ih (hkeep hP hsize hlarge.1 hlarge.2 hfind hturn).1 hrun
    · rename_i hfits
      cases hrun
      refine ⟨hP, fun henabled => Or.inl ⟨n, hsize, ?_⟩⟩
      exact Nat.not_lt.mp fun hlt => hfits ⟨hlt, henabled⟩

/-- **A round ends**, if every turn succeeds and leaves fewer columns that are suited. -/
theorem exists_toastRound_eq
    (hkeep : sv.TurnsKeep maxDataLen enabled forCompression checkMain step P)
    (hsize : ∀ {ts}, P ts → ∃ n, sv.dataSize ts = .ok n)
    (hfind : ∀ {ts}, P ts →
      ∃ r, sv.toastTupleFindBiggestAttribute ts.cols forCompression checkMain = .ok r)
    (hstep : ∀ {ts i}, P ts → enabled = true →
      sv.toastTupleFindBiggestAttribute ts.cols forCompression checkMain = .ok (some i) →
      ∃ ts', step ts i = .ok ts') (hP : P ts)
    (hfuel : ts.cols.countP (sv.suits forCompression checkMain) < fuel) :
    ∃ ts', sv.toastRound maxDataLen enabled forCompression checkMain step fuel ts = .ok ts' := by
  induction fuel generalizing ts with
  | zero => cases hfuel
  | succ fuel ih =>
    obtain ⟨n, hn⟩ := hsize hP
    rw [toastRound, hn, Run.ok_bind]
    split
    · rename_i hlarge
      obtain ⟨biggest, hbiggest⟩ := hfind hP
      rw [hbiggest, Run.ok_bind]
      cases biggest with
      | none => exact ⟨ts, rfl⟩
      | some i =>
        obtain ⟨ts₁, hturn⟩ := hstep hP hlarge.2 hbiggest
        obtain ⟨hP₁, hless⟩ := hkeep hP hn hlarge.1 hlarge.2 hbiggest hturn
        rw [Option.elim_some, hturn, Run.ok_bind]
        exact ih hP₁ (by omega)
    · exact ⟨ts, rfl⟩

end

/-! ## What a turn finds -/

variable {rel : HeapRelation} {saver : sv.Saver rel.toRelation src} {task : ToastTask}

/-- The column that a turn is about. -/
theorem Toasting.of_find {forCompression checkMain : Bool} (h : Toasting saver task s ts)
    (hfind : sv.toastTupleFindBiggestAttribute ts.cols forCompression checkMain = .ok (some i)) :
    ∃ col v t, ts.cols[i]? = some col ∧ minToastSize < col.taiSize
      ∧ task.texts[i]? = some (some t) ∧ sv.suits forCompression checkMain col = true
      ∧ storageSuits checkMain col.att = true ∧ col.ignore = false ∧ sv.Open src col v t
      ∧ (forCompression = true → v.method = none) := by
  obtain ⟨r, hr, hfound, -⟩ :=
    exists_toastTupleFindBiggestAttribute_eq h.columns forCompression checkMain
  rw [hfind] at hr
  cases hr
  obtain ⟨col, hcol, hsuits, hsize⟩ := hfound i rfl
  obtain ⟨t, ht, hok, -⟩ := exists_forall₂_set h.columns hcol
  obtain ⟨hstorage, hignore, v, t', rfl, hopen, hmethod⟩ := hok.of_suits hsuits
  exact ⟨col, v, t', hcol, hsize, ht, hsuits, hstorage, hignore, hopen, hmethod⟩

/-- The columns while the row is toasted. -/
theorem Toasting.forall₂_column (h : Toasting saver task s ts) :
    List.Forall₂ (sv.Column s.live) (ts.cols.map ToastColumn.entry) task.texts := by
  rw [List.forall₂_map_left_iff]
  exact h.columns.imp fun _ _ hc => hc.column

/-- The size of the data can be worked out. -/
theorem Toasting.dataSize_eq (h : Toasting saver task s ts) :
    sv.dataSize ts = .ok (sv.layout (ts.cols.map ToastColumn.entry) []).length :=
  (Column.allFit h.forall₂_column).heapComputeDataSize_eq

/-- Columns that a turn replaces are of the same column of the table. -/
theorem Toasting.att_eq (h : Toasting saver task s ts) (h' : Toasting saver task s' ts')
    (hcol : ts.cols[i]? = some col) {col' : ToastColumn} (hcol' : ts'.cols[i]? = some col') :
    col'.att = col.att := by
  have hframe := congrArg (·[i]?) (h'.frame_eq.trans h.frame_eq.symm)
  simp only [List.getElem?_map, hcol, hcol', Option.map_some, Option.some.injEq] at hframe
  exact congrArg Prod.fst hframe

/-- The data of the row are not larger than this. -/
def DataFits (sv : StoreServer) (maxDataLen : ℕ) (ts : ToastState) : Prop :=
  ∃ n, sv.dataSize ts = .ok n ∧ n ≤ maxDataLen

/-- Nothing is suited that is large. -/
def Settled (sv : StoreServer) (forCompression checkMain : Bool) (cols : List ToastColumn) : Prop :=
  ∀ col ∈ cols, sv.suits forCompression checkMain col = true → col.taiSize ≤ minToastSize

/-- When a row is too large, it has not been settled by its size. -/
theorem settled_of_lt {target n : ℕ} {forCompression checkMain : Bool}
    (h : sv.DataFits target ts ∨ sv.Settled forCompression checkMain ts.cols)
    (hsize : sv.dataSize ts = .ok n) (hlarge : target < n) :
    sv.Settled forCompression checkMain ts.cols := by
  refine h.resolve_left ?_
  rintro ⟨n', hn', hle⟩
  rw [hsize] at hn'
  cases hn'
  omega

theorem Toasting.settled_of_find {forCompression checkMain : Bool} (h : Toasting saver task s ts)
    (hfind : sv.toastTupleFindBiggestAttribute ts.cols forCompression checkMain = .ok none) :
    sv.Settled forCompression checkMain ts.cols := by
  obtain ⟨r, hr, -, hnone⟩ :=
    exists_toastTupleFindBiggestAttribute_eq h.columns forCompression checkMain
  rw [hfind] at hr
  cases hr
  exact hnone rfl

theorem Settled.set {forCompression checkMain : Bool} {col' : ToastColumn}
    (h : sv.Settled forCompression checkMain cols)
    (hsuits : sv.suits forCompression checkMain col' = false) (i : ℕ) :
    sv.Settled forCompression checkMain (cols.set i col') := by
  intro c hc hsuits'
  rcases List.mem_or_eq_of_mem_set hc with hc | rfl
  · exact h c hc hsuits'
  · rw [hsuits] at hsuits'
    cases hsuits'

/-- **A column that is moved out has been tried**, when the round before has settled. -/
theorem Settled.tried {checkMain : Bool} {v : Value} {t : List UInt8}
    (h : sv.Settled true checkMain ts.cols) (hcol : ts.cols[i]? = some col)
    (hopen : sv.Open src col v t) (hstorage : storageSuits checkMain col.att = true)
    (hsize : minToastSize < col.taiSize) : sv.Tried col := by
  intro checkMain'
  by_cases hsame : checkMain' = checkMain
  · rw [hsame]
    by_contra hsuits
    exact Int.not_le.mpr hsize (h col (List.mem_of_getElem? hcol) (Bool.not_eq_false _ ▸ hsuits))
  · obtain rfl : checkMain' = !checkMain := Bool.eq_not_of_ne hsame
    rw [hopen.suits_eq, storageSuits_not hstorage, Bool.and_false]

/-! ## What a turn does -/

/-- **What a turn does**: it keeps what holds, and replaces a column that is suited by one
that is not. -/
structure Turned (saver : sv.Saver rel.toRelation src) (task : ToastTask)
    (forCompression checkMain : Bool) (ts : ToastState) (s' : Session) (ts' : ToastState) :
    Prop where
  holds : Toasting saver task s' ts'
  replaced : ∃ i col col', ts.cols[i]? = some col ∧ ts'.cols = ts.cols.set i col'
    ∧ sv.suits forCompression checkMain col = true
    ∧ sv.suits forCompression checkMain col' = false ∧ storageSuits checkMain col'.att = true

theorem Turned.less {forCompression checkMain : Bool}
    (ht : Turned saver task forCompression checkMain ts s' ts') :
    ts'.cols.countP (sv.suits forCompression checkMain)
      < ts.cols.countP (sv.suits forCompression checkMain) := by
  obtain ⟨i, col, col', hcol, hcols, hsuits, hsuits', -⟩ := ht.replaced
  have hcount := countP_set_add (sv.suits forCompression checkMain) hcol col'
  rw [hsuits, hsuits', Bool.toNat_true, Bool.toNat_false] at hcount
  rw [hcols]
  omega

/-- What may be moved out may be compressed before. -/
theorem ColumnOk.suits_of_suits {hs : List Handle} {t : Option (List UInt8)}
    (h : sv.ColumnOk src hs col t) {forCompression checkMain : Bool}
    (hsuits : sv.suits forCompression checkMain col = false) :
    sv.suits true checkMain col = false := by
  cases h with
  | done hignore h hout => exact suits_of_ignore hignore
  | inPlace h =>
    rw [h.suits_eq] at hsuits ⊢
    cases forCompression with
    | true => exact hsuits
    | false =>
      simp only [Bool.false_and, Bool.not_false, Bool.and_true] at hsuits
      rw [Bool.and_right_comm, hsuits, Bool.false_and]

/-- Nothing that is large becomes suited by a turn. -/
theorem Turned.settled {forCompression checkMain : Bool}
    (ht : Turned saver task forCompression checkMain ts s' ts')
    (h : sv.Settled true checkMain ts.cols) : sv.Settled true checkMain ts'.cols := by
  obtain ⟨i, col, col', hcol, hcols, -, hsuits', -⟩ := ht.replaced
  have hcol' : ts'.cols[i]? = some col' := hcols ▸ getElem?_set_of_getElem? hcol col'
  obtain ⟨t, -, hok, -⟩ := exists_forall₂_set ht.holds.columns hcol'
  exact hcols ▸ h.set (hok.suits_of_suits hsuits') i

/-- A turn for a column that is `MAIN` does not make another one suited. -/
theorem Turned.settled_other {forCompression : Bool}
    (ht : Turned saver task forCompression true ts s' ts')
    (h : sv.Settled false false ts.cols) : sv.Settled false false ts'.cols := by
  obtain ⟨i, col, col', hcol, hcols, -, -, hstorage⟩ := ht.replaced
  have hcol' : ts'.cols[i]? = some col' := hcols ▸ getElem?_set_of_getElem? hcol col'
  obtain ⟨t, -, hok, -⟩ := exists_forall₂_set ht.holds.columns hcol'
  refine hcols ▸ h.set ?_ i
  by_contra hsuits
  have hother := (hok.of_suits (Bool.not_eq_false _ ▸ hsuits)).1
  rw [show false = !true from rfl, storageSuits_not hstorage] at hother
  cases hother

section

variable {maxDataLen : ℕ} {checkMain : Bool}

theorem Toasting.firstStep_turned (hl : sv.Lossless) (h : Toasting saver task s ts)
    (hfind : sv.toastTupleFindBiggestAttribute ts.cols true false = .ok (some i))
    (hturn : sv.firstStep rel.toRelation maxDataLen ts i = .ok ts') :
    ∃ s', Turned saver task true false ts s' ts' := by
  obtain ⟨col, v, t, hcol, hsize, ht, hsuits, hstorage, hignore, hopen, hmethod⟩ := h.of_find hfind
  obtain ⟨s', col', hcols, hsuits', h'⟩ :=
    h.of_firstStep_eq hl hcol ht hopen hignore (hmethod rfl) hstorage hsize hturn
  have hatt := h.att_eq h' hcol (hcols ▸ getElem?_set_of_getElem? hcol col')
  exact ⟨s', h', i, col, col', hcol, hcols, hsuits, hsuits', hatt ▸ hstorage⟩

theorem Toasting.externalizeStep_turned (h : Toasting saver task s ts)
    (hsettled : ¬saver.Fresh → sv.Settled true checkMain ts.cols)
    (hfind : sv.toastTupleFindBiggestAttribute ts.cols false checkMain = .ok (some i))
    (hturn : sv.externalizeStep rel.toRelation ts i = .ok ts') :
    ∃ s', Turned saver task false checkMain ts s' ts' := by
  obtain ⟨col, v, t, hcol, hsize, ht, hsuits, hstorage, hignore, hopen, -⟩ := h.of_find hfind
  obtain ⟨s', col', hcols, hignore', h'⟩ := h.of_externalizeStep_eq hcol ht hopen hignore
    (hopen.stored_ne_nil hsize) (fun hno => (hsettled hno).tried hcol hopen hstorage hsize) hturn
  have hatt := h.att_eq h' hcol (hcols ▸ getElem?_set_of_getElem? hcol col')
  exact ⟨s', h', i, col, col', hcol, hcols, hsuits, suits_of_ignore hignore', hatt ▸ hstorage⟩

theorem Toasting.compressionStep_turned (hl : sv.Lossless) (h : Toasting saver task s ts)
    (hfind : sv.toastTupleFindBiggestAttribute ts.cols true true = .ok (some i))
    (hturn : sv.compressionStep ts i = .ok ts') : Turned saver task true true ts s ts' := by
  obtain ⟨col, v, t, hcol, hsize, ht, hsuits, hstorage, -, hopen, hmethod⟩ := h.of_find hfind
  have hmain : col.att.attstorage ≠ .external := by
    intro hno
    simp [storageSuits, hno] at hstorage
  obtain ⟨col', -, hcols, -, -, -, htried, h'⟩ :=
    h.of_compressionStep_eq hl hcol ht hopen (hmethod rfl) hmain hsize hturn
  have hatt := h.att_eq h' hcol (hcols ▸ getElem?_set_of_getElem? hcol col')
  exact ⟨h', i, col, col', hcol, hcols, hsuits, htried true, hatt ▸ hstorage⟩

end

/-! ## All rounds -/

section

variable (saver : sv.Saver rel.toRelation src) (task : ToastTask) (target targetMain : ℕ)

/-- What holds in the first round. -/
def FirstOk (ts : ToastState) : Prop := ∃ s, Toasting saver task s ts

/-- In the second round what can be compressed has been, unless the row fits. -/
def SecondOk (ts : ToastState) : Prop :=
  ∃ s, Toasting saver task s ts
    ∧ (¬saver.Fresh → sv.DataFits target ts ∨ sv.Settled true false ts.cols)

/-- In the third round what is not `MAIN` is out of line, unless the row fits. -/
def ThirdOk (ts : ToastState) : Prop :=
  ∃ s, Toasting saver task s ts
    ∧ (rel.reltoastrelid ≠ 0 → sv.DataFits target ts ∨ sv.Settled false false ts.cols)

/-- In the fourth round what is `MAIN` has been compressed as well. -/
def FourthOk (ts : ToastState) : Prop :=
  ∃ s, Toasting saver task s ts
    ∧ (rel.reltoastrelid ≠ 0 → target ≤ targetMain →
      sv.DataFits target ts ∨ sv.Settled false false ts.cols)
    ∧ (¬saver.Fresh → sv.DataFits target ts ∨ sv.Settled true true ts.cols)

variable {saver task target targetMain}

theorem firstStep_keeps (hl : sv.Lossless) :
    sv.TurnsKeep target true true false (sv.firstStep rel.toRelation target)
      (FirstOk saver task) := by
  rintro ts i ts' n ⟨s, h⟩ - - - hfind hturn
  obtain ⟨s', hturned⟩ := h.firstStep_turned hl hfind hturn
  exact ⟨⟨s', hturned.holds⟩, hturned.less⟩

theorem second_keeps {enabled : Bool} :
    sv.TurnsKeep target enabled false false (sv.externalizeStep rel.toRelation)
      (SecondOk saver task target) := by
  rintro ts i ts' n ⟨s, h, hend⟩ hsize hlarge - hfind hturn
  have hsettled : ¬saver.Fresh → sv.Settled true false ts.cols :=
    fun hno => settled_of_lt (hend hno) hsize hlarge
  obtain ⟨s', hturned⟩ := h.externalizeStep_turned hsettled hfind hturn
  exact ⟨⟨s', hturned.holds, fun hno => Or.inr (hturned.settled (hsettled hno))⟩, hturned.less⟩

theorem third_keeps (hl : sv.Lossless) :
    sv.TurnsKeep target true true true sv.compressionStep (ThirdOk saver task target) := by
  rintro ts i ts' n ⟨s, h, hend⟩ hsize hlarge - hfind hturn
  have hturned := h.compressionStep_turned hl hfind hturn
  exact ⟨⟨s, hturned.holds, fun htoast =>
    Or.inr (hturned.settled_other (settled_of_lt (hend htoast) hsize hlarge))⟩, hturned.less⟩

theorem fourth_keeps (hmain : ¬saver.Fresh → target ≤ targetMain) {enabled : Bool} :
    sv.TurnsKeep targetMain enabled false true (sv.externalizeStep rel.toRelation)
      (FourthOk saver task target targetMain) := by
  rintro ts i ts' n ⟨s, h, hend, hend'⟩ hsize hlarge - hfind hturn
  have hsettled : ¬saver.Fresh → sv.Settled true true ts.cols :=
    fun hno => settled_of_lt (hend' hno) hsize (Nat.lt_of_le_of_lt (hmain hno) hlarge)
  obtain ⟨s', hturned⟩ := h.externalizeStep_turned hsettled hfind hturn
  refine ⟨⟨s', hturned.holds, fun htoast hle => Or.inr ?_, fun hno =>
    Or.inr (hturned.settled (hsettled hno))⟩, hturned.less⟩
  exact hturned.settled_other
    (settled_of_lt (hend htoast hle) hsize (Nat.lt_of_le_of_lt hle hlarge))

/-- Between the rounds. -/
theorem FirstOk.secondOk (h : FirstOk saver task ts)
    (hend : (∃ n, sv.dataSize ts = .ok n ∧ n ≤ target)
      ∨ sv.toastTupleFindBiggestAttribute ts.cols true false = .ok none) :
    SecondOk saver task target ts := by
  obtain ⟨s, h⟩ := h
  exact ⟨s, h, fun _ => hend.imp id h.settled_of_find⟩

theorem SecondOk.thirdOk (h : SecondOk saver task target ts)
    (hend : decide (rel.reltoastrelid ≠ 0) = true → (∃ n, sv.dataSize ts = .ok n ∧ n ≤ target)
      ∨ sv.toastTupleFindBiggestAttribute ts.cols false false = .ok none) :
    ThirdOk saver task target ts := by
  obtain ⟨s, h, -⟩ := h
  exact ⟨s, h, fun htoast => (hend (decide_eq_true htoast)).imp id h.settled_of_find⟩

theorem ThirdOk.fourthOk (h : ThirdOk saver task target ts)
    (hend : (∃ n, sv.dataSize ts = .ok n ∧ n ≤ target)
      ∨ sv.toastTupleFindBiggestAttribute ts.cols true true = .ok none) :
    FourthOk saver task target targetMain ts := by
  obtain ⟨s, h, hend'⟩ := h
  exact ⟨s, h, fun htoast _ => hend' htoast, fun _ => hend.imp id h.settled_of_find⟩

end

section

variable (hl : sv.Lossless) {hoff : ℕ} (hmain : ¬saver.Fresh →
  maxDataLen (rel.getToastTupleTarget defaultToastTupleTarget) hoff
    ≤ maxDataLen toastTupleTargetMain hoff)

include hl hmain

/-- **The four rounds keep every text**; and when they are over the row fits, or what could
be moved out of line is out or small. For the columns that are `MAIN` the limit is the
larger one. -/
theorem Toasting.of_toastRounds_eq (h : Toasting saver task s ts)
    (hrun : sv.toastRounds rel hoff ts = .ok ts') :
    ∃ s', Toasting saver task s' ts' ∧ (rel.reltoastrelid ≠ 0 →
      maxDataLen (rel.getToastTupleTarget defaultToastTupleTarget) hoff
        ≤ maxDataLen toastTupleTargetMain hoff →
      (sv.DataFits (maxDataLen (rel.getToastTupleTarget defaultToastTupleTarget) hoff) ts'
          ∨ sv.Settled false false ts'.cols)
      ∧ (sv.DataFits (maxDataLen toastTupleTargetMain hoff) ts'
          ∨ sv.Settled false true ts'.cols)) := by
  rw [toastRounds] at hrun
  generalize maxDataLen (rel.getToastTupleTarget defaultToastTupleTarget) hoff = target
    at hrun hmain ⊢
  generalize maxDataLen toastTupleTargetMain hoff = targetMain at hrun hmain ⊢
  obtain ⟨ts₁, hrun₁, hrun⟩ := Run.bind_eq_ok.mp hrun
  obtain ⟨ts₂, hrun₂, hrun⟩ := Run.bind_eq_ok.mp hrun
  obtain ⟨ts₃, hrun₃, hrun₄⟩ := Run.bind_eq_ok.mp hrun
  obtain ⟨h₁, hend₁⟩ := of_toastRound_eq (firstStep_keeps hl) ⟨s, h⟩ hrun₁
  obtain ⟨h₂, hend₂⟩ := of_toastRound_eq second_keeps (h₁.secondOk (hend₁ rfl)) hrun₂
  obtain ⟨h₃, hend₃⟩ := of_toastRound_eq (third_keeps hl) (h₂.thirdOk hend₂) hrun₃
  obtain ⟨⟨s₄, h₄, hend, -⟩, hend₄⟩ :=
    of_toastRound_eq (fourth_keeps hmain) (h₃.fourthOk (hend₃ rfl)) hrun₄
  exact ⟨s₄, h₄, fun htoast hle => ⟨hend htoast hle,
    (hend₄ (decide_eq_true htoast)).imp id h₄.settled_of_find⟩⟩

/-- **The rounds end**, and succeed when there is room for as many values as there are
columns. -/
theorem Toasting.exists_toastRounds_eq
    (hc : sv.CompressorsReturn (task.frames.map Prod.fst) task.texts)
    (hroom : rel.reltoastrelid ≠ 0 → saver.Room task.store task.texts.length)
    (h : Toasting saver task s ts) : ∃ ts', sv.toastRounds rel hoff ts = .ok ts' := by
  rw [toastRounds]
  generalize maxDataLen (rel.getToastTupleTarget defaultToastTupleTarget) hoff = target at hmain ⊢
  generalize maxDataLen toastTupleTargetMain hoff = targetMain at hmain ⊢
  have hsize : ∀ {s' ts'}, Toasting saver task s' ts' → ∃ n, sv.dataSize ts' = .ok n :=
    fun h' => ⟨_, h'.dataSize_eq⟩
  have hfind : ∀ {s' ts'} forCompression checkMain, Toasting saver task s' ts' →
      ∃ r, sv.toastTupleFindBiggestAttribute ts'.cols forCompression checkMain = .ok r := by
    intro s' ts' forCompression checkMain h'
    obtain ⟨r, hr, -⟩ :=
      exists_toastTupleFindBiggestAttribute_eq h'.columns forCompression checkMain
    exact ⟨r, hr⟩
  have hfuel : ∀ {s' ts'} p, Toasting saver task s' ts' →
      ts'.cols.countP p < ts.cols.length + 1 := by
    intro s' ts' p h'
    have hlen := h'.columns.length_eq.trans h.columns.length_eq.symm
    have := @List.countP_le_length _ p ts'.cols
    omega
  have hmove : ∀ {s' ts' i checkMain}, Toasting saver task s' ts' →
      decide (rel.reltoastrelid ≠ 0) = true →
      sv.toastTupleFindBiggestAttribute ts'.cols false checkMain = .ok (some i) →
      ∃ ts'', sv.externalizeStep rel.toRelation ts' i = .ok ts'' := by
    intro s' ts' i checkMain h' htoast hbiggest
    obtain ⟨col, v, t, hcol, -, -, -, -, hignore, hopen, -⟩ := h'.of_find hbiggest
    exact h'.exists_externalizeStep_eq (hroom (of_decide_eq_true htoast)) hcol hopen hignore
  have hkeep₁ := @firstStep_keeps sv src rel saver task target hl
  have hkeep₂ := @second_keeps sv src rel saver task target (decide (rel.reltoastrelid ≠ 0))
  have hkeep₃ := @third_keeps sv src rel saver task target hl
  have hkeep₄ := @fourth_keeps sv src rel saver task target targetMain hmain
    (decide (rel.reltoastrelid ≠ 0))
  obtain ⟨ts₁, hrun₁⟩ := exists_toastRound_eq hkeep₁
    (fun ⟨_, h'⟩ => hsize h') (fun ⟨_, h'⟩ => hfind true false h')
    (by
      rintro ts' i ⟨s', h'⟩ - hbiggest
      obtain ⟨col, v, t, hcol, hsize, ht, -, hstorage, hignore, hopen, hmethod⟩ :=
        h'.of_find hbiggest
      exact h'.exists_firstStep_eq hl hc hroom hcol ht hopen hignore (hmethod rfl) hstorage hsize
        target)
    ⟨s, h⟩ (hfuel _ h)
  obtain ⟨⟨s₁, h₁⟩, hend₁⟩ := of_toastRound_eq hkeep₁ ⟨s, h⟩ hrun₁
  have hsecond := FirstOk.secondOk ⟨s₁, h₁⟩ (hend₁ rfl)
  obtain ⟨ts₂, hrun₂⟩ := exists_toastRound_eq hkeep₂
    (fun ⟨_, h', _⟩ => hsize h') (fun ⟨_, h', _⟩ => hfind false false h')
    (fun ⟨_, h', _⟩ => hmove h') hsecond (hfuel _ h₁)
  obtain ⟨h₂, hend₂⟩ := of_toastRound_eq hkeep₂ hsecond hrun₂
  obtain ⟨s₂, h₂', hend₂'⟩ := h₂.thirdOk hend₂
  obtain ⟨ts₃, hrun₃⟩ := exists_toastRound_eq hkeep₃
    (fun ⟨_, h', _⟩ => hsize h') (fun ⟨_, h', _⟩ => hfind true true h')
    (by
      rintro ts' i ⟨s', h', -⟩ - hbiggest
      obtain ⟨col, v, t, hcol, hsize, ht, -, -, -, hopen, hmethod⟩ := h'.of_find hbiggest
      exact h'.exists_compressionStep_eq hl hc hcol ht hopen (hmethod rfl) hsize)
    ⟨s₂, h₂', hend₂'⟩ (hfuel _ h₂')
  obtain ⟨h₃, hend₃⟩ := of_toastRound_eq hkeep₃ (h₂.thirdOk hend₂) hrun₃
  obtain ⟨s₃, h₃', hends₃⟩ : FourthOk saver task target targetMain ts₃ := h₃.fourthOk (hend₃ rfl)
  obtain ⟨ts₄, hrun₄⟩ := exists_toastRound_eq hkeep₄
    (fun ⟨_, h', _⟩ => hsize h') (fun ⟨_, h', _⟩ => hfind false true h')
    (fun ⟨_, h', _⟩ => hmove h') ⟨s₃, h₃', hends₃⟩ (hfuel _ h₃')
  refine ⟨ts₄, ?_⟩
  rw [hrun₁, Run.ok_bind, hrun₂, Run.ok_bind, hrun₃, Run.ok_bind]
  exact hrun₄

end

end StoreServer
