import Hoco.HeapTupleFill

/-!
# Reading rows

`heap_deform_tuple` finds the values of a row as they were stored. It relies on the bytes of
the row for where a value starts (`attAlignPointer_place`), and on offsets that it remembers
in the descriptor from one row to the next; which of these are good for which rows is said
by `CacheOk`.
-/

namespace Server

variable {sv : Server} {att : Attribute} {m : Mem}

/-! ## Taking a row apart -/

/-- The end of a column of fixed size, if all before it are. -/
def nextFixed (att : Attribute) (o : Option ℕ) : Option ℕ :=
  match att.attlen with
  | .fixed n => o.map fun off => attAlignNominal off att.attalign + n
  | _ => none

/-- **What a remembered offset is good for**: it is where the value starts in every row that
has no null and nothing of varying size before, however the value itself is aligned. -/
def EntryOk (o : Option ℕ) (att : Attribute) (attcacheoff : Option ℕ) : Prop :=
  ∀ x ∈ attcacheoff, ∃ off ∈ o, x = attAlignNominal off att.attalign
    ∧ (att.attlen = .varlena → x = off)

/-- Every offset that a descriptor remembers is good. -/
def CacheOk : Option ℕ → TupleDesc → Prop
  | _, [] => True
  | o, (att, attcacheoff) :: desc => EntryOk o att attcacheoff ∧ CacheOk (nextFixed att o) desc

/-- A descriptor that remembers nothing. -/
theorem cacheOk_of_forall_none {o : Option ℕ} {desc : TupleDesc} (h : ∀ col ∈ desc, col.2 = none) :
    CacheOk o desc := by
  induction desc generalizing o with
  | nil => trivial
  | cons col desc ih =>
    obtain ⟨att, c⟩ := col
    obtain rfl : c = none := h _ List.mem_cons_self
    exact ⟨nofun, ih fun col hcol => h col (List.mem_cons_of_mem _ hcol)⟩

/-- **A byte tells padding from a value**: a zero behind the last value is padding, or the
first byte of a value that is aligned there. -/
theorem attAlignPointer_place {s d : Mem} (hs : sv.Fits att s) (hlen : att.attlen = .varlena)
    (rest : Mem) :
    attAlignPointer d.length att.attalign (sv.place att d s ++ rest)
      = .ok (sv.start att s d.length) := by
  have hle := sv.le_start att s d.length
  unfold Fits at hs
  rw [hlen] at hs
  obtain ⟨b, s', rfl, -⟩ := varlena_cases hs.1
  rw [attAlignPointer, place]
  rcases Nat.eq_or_lt_of_le hle with heq | hlt
  · -- nothing between
    have hload : Mem.load (d ++ (List.replicate (sv.start att (b :: s') d.length - d.length) 0
        ++ b :: s') ++ rest) d.length = .ok b := by
      rw [← heq, Nat.sub_self, List.replicate_zero, List.nil_append, List.append_assoc]
      exact Mem.load_append d b _
    rw [hload, Run.ok_bind]
    refine congrArg Except.ok ?_
    split
    · exact heq
    · rename_i hzero
      rw [not_not] at hzero
      refine (if_neg fun hh => ?_).symm
      have hshort : sv.is1B b = true := hh.2
      rw [hzero, is1B_eq] at hshort
      revert hshort
      cases sv.bigEndian <;> decide
  · -- the padding
    have hnext : sv.start att (b :: s') d.length = attAlignNominal d.length att.attalign := by
      unfold start at hlt ⊢
      split at hlt
      · exact absurd hlt (Nat.lt_irrefl _)
      · rename_i hh
        exact if_neg hh
    obtain ⟨k, hk⟩ : ∃ k, sv.start att (b :: s') d.length - d.length = k + 1 :=
      ⟨sv.start att (b :: s') d.length - d.length - 1, by omega⟩
    have hload : Mem.load (d ++ (List.replicate (sv.start att (b :: s') d.length - d.length) 0
        ++ b :: s') ++ rest) d.length = .ok 0 := by
      rw [hk, List.replicate_succ, List.append_assoc]
      exact Mem.load_append d 0 _
    rw [hload, Run.ok_bind, hnext]
    rfl

/-- **Where the reader looks is where the value is.** -/
theorem exists_deformOffset_eq {s rest d : Mem} (hs : sv.Fits att s) {o attcacheoff : Option ℕ}
    (hentry : EntryOk o att attcacheoff) {slow : Bool} (hfast : slow = false → o = some d.length) :
    ∃ c slow', deformOffset (sv.place att d s ++ rest) att attcacheoff d.length slow
        = .ok (sv.start att s d.length, c, slow')
      ∧ EntryOk o att c ∧ (slow' = false → slow = false) := by
  unfold deformOffset
  by_cases hcached : (!slow && attcacheoff.isSome) = true
  · rw [if_pos hcached]
    rw [Bool.and_eq_true, Bool.not_eq_true'] at hcached
    obtain ⟨x, rfl⟩ := Option.isSome_iff_exists.mp hcached.2
    obtain ⟨off, hoff, hx, hvar⟩ := hentry x rfl
    rw [hfast hcached.1] at hoff
    cases hoff
    refine ⟨some x, slow, ?_, hentry, id⟩
    rw [Option.getD_some, start]
    split
    · rename_i hh
      rw [hvar hh.1]
    · rw [hx]
  · rw [if_neg hcached]
    by_cases hlen : att.attlen = .varlena
    · rw [if_pos hlen]
      by_cases haligned : (!slow && decide (d.length = attAlignNominal d.length att.attalign)) = true
      · rw [if_pos haligned]
        rw [Bool.and_eq_true, Bool.not_eq_true', decide_eq_true_eq] at haligned
        refine ⟨some d.length, slow, ?_, ?_, id⟩
        · rw [start, ← haligned.2, ite_self]
        · intro x hx
          cases hx
          exact ⟨d.length, hfast haligned.1, haligned.2, fun _ => rfl⟩
      · rw [if_neg haligned]
        refine ⟨attcacheoff, true, ?_, hentry, fun h => by cases h⟩
        rw [attAlignPointer_place hs hlen]
        rfl
    · rw [if_neg hlen, start_of_ne_varlena hlen]
      refine ⟨_, slow, rfl, ?_, id⟩
      cases slow with
      | true => exact hentry
      | false =>
        intro x hx
        cases hx
        exact ⟨d.length, hfast rfl, rfl, fun h => absurd h hlen⟩

/-- The attributes of a descriptor, with the offsets that were remembered last. -/
def remember (desc : TupleDesc) (found : List (Option Mem × Option ℕ)) : TupleDesc :=
  desc.zipWith (fun col r => (col.1, r.2)) found

/-- **The loop of `heap_deform_tuple`** finds the values of a row, as they are stored, and
remembers offsets that are good, whatever good offsets were remembered before. -/
theorem AllFit.exists_deformLoop_eq {cols : List (Attribute × Option Mem)} (h : sv.AllFit cols)
    {tup : HeapTuple} {d rest : Mem} (hdata : tup.data = sv.layout cols d ++ rest) {k : ℕ}
    (hnulls : ∀ i null, (cols.map fun col => col.2.isNone)[i]? = some null →
      (if tup.hasnull then attIsnull (k + i) tup.bits else .ok false) = .ok null)
    {desc : TupleDesc} (hatts : desc.map Prod.fst = cols.map Prod.fst) {o : Option ℕ}
    (hcache : CacheOk o desc) {slow : Bool} (hfast : slow = false → o = some d.length) :
    ∃ found, sv.deformLoop tup desc k d.length slow = .ok found
      ∧ found.map Prod.fst = cols.map (fun col => col.2.map (sv.stored col.1))
      ∧ CacheOk o (remember desc found) := by
  induction cols generalizing d k desc o slow with
  | nil =>
    obtain rfl : desc = [] := List.map_eq_nil_iff.mp hatts
    exact ⟨[], rfl, rfl, trivial⟩
  | cons col cols ih =>
    cases desc with
    | nil => cases hatts
    | cons entry desc =>
      obtain ⟨att, c⟩ := entry
      obtain ⟨att', val⟩ := col
      obtain ⟨hatt, hatts'⟩ := List.cons.inj hatts
      obtain rfl : att = att' := hatt
      obtain ⟨hentry, hcache⟩ := hcache
      have hnull := hnulls 0 val.isNone rfl
      rw [Nat.add_zero] at hnull
      have hnulls' : ∀ i null, (cols.map fun col => col.2.isNone)[i]? = some null →
          (if tup.hasnull then attIsnull (k + 1 + i) tup.bits else .ok false) = .ok null := by
        intro i null hi
        rw [Nat.add_assoc, Nat.add_comm 1 i]
        exact hnulls (i + 1) null hi
      cases val with
      | none =>
        obtain ⟨found, hrun, hvals, hcache'⟩ := @ih h.tail d hdata (k + 1) hnulls' desc hatts' _ hcache
          true fun hno => by cases hno
        refine ⟨(none, c) :: found, ?_, ?_, hentry, hcache'⟩
        · rw [deformLoop, hnull, Run.ok_bind, show (none : Option Mem).isNone = true from rfl,
            if_pos rfl, hrun]
          rfl
        · rw [List.map_cons, hvals]
          rfl
      | some m =>
        have hm : sv.Fits att m := h _ List.mem_cons_self m rfl
        obtain ⟨tail, htail⟩ := @exists_layout_eq sv cols (sv.place att d (sv.stored att m))
        have hplaced : tup.data = sv.place att d (sv.stored att m) ++ (tail ++ rest) := by
          rw [hdata, layout, htail, List.append_assoc]
        obtain ⟨c', slow', hoff, hentry', hslow⟩ :=
          @exists_deformOffset_eq sv att (sv.stored att m) (tail ++ rest) d hm.stored o c hentry slow
            hfast
        have hdrop : tup.data.drop (sv.start att (sv.stored att m) d.length)
            = sv.stored att m ++ (tail ++ rest) := by
          have hle := sv.le_start att (sv.stored att m) d.length
          rw [hplaced, place, List.append_assoc, List.append_assoc, ← List.append_assoc d]
          refine List.drop_left' ?_
          rw [List.length_append, List.length_replicate]
          omega
        have hfast' : (slow' || att.varies) = false →
            nextFixed att o = some (sv.place att d (sv.stored att m)).length := by
          intro hh
          rw [Bool.or_eq_false_iff] at hh
          have hfits := hm.stored
          unfold Fits at hfits
          unfold nextFixed
          cases hlen : att.attlen with
          | fixed n =>
            have hvar : att.attlen ≠ .varlena := by
              intro hno
              rw [hlen] at hno
              cases hno
            rw [hlen] at hfits
            rw [hfast (hslow hh.1), length_place, start_of_ne_varlena hvar, hfits]
            rfl
          | varlena => simp [Attribute.varies, hlen] at hh
          | cstring => simp [Attribute.varies, hlen] at hh
        obtain ⟨found, hrun, hvals, hcache'⟩ := @ih h.tail (sv.place att d (sv.stored att m)) hdata
          (k + 1) hnulls' desc hatts' _ hcache (slow' || att.varies) hfast'
        rw [length_place] at hrun
        refine ⟨(some (sv.stored att m), c') :: found, ?_, ?_, hentry', hcache'⟩
        · rw [deformLoop, hnull, Run.ok_bind, show (some m).isNone = false from rfl,
            if_neg Bool.false_ne_true, hplaced, hoff, Run.ok_bind]
          dsimp only
          rw [← hplaced, hdrop, hm.stored.attAddlengthPointer_eq, Run.ok_bind,
            Nat.add_sub_cancel_left, Mem.copy_of_drop hdrop, Run.ok_bind, hrun]
          rfl
        · rw [List.map_cons, hvals]
          rfl

theorem cacheOk_append {o : Option ℕ} {desc desc' : TupleDesc} :
    CacheOk o (desc ++ desc') ↔ CacheOk o desc
      ∧ CacheOk ((desc.map Prod.fst).foldl (fun o att => nextFixed att o) o) desc' := by
  induction desc generalizing o with
  | nil => exact ⟨fun h => ⟨trivial, h⟩, fun h => h.2⟩
  | cons col desc ih =>
    rw [List.cons_append, CacheOk, CacheOk, ih, and_assoc]
    rfl

theorem map_fst_remember {desc : TupleDesc} {found : List (Option Mem × Option ℕ)}
    (h : desc.length = found.length) : (remember desc found).map Prod.fst = desc.map Prod.fst := by
  induction desc generalizing found with
  | nil => rfl
  | cons col desc ih =>
    cases found with
    | nil => cases h
    | cons r found =>
      rw [remember, List.zipWith_cons_cons, List.map_cons, List.map_cons]
      exact congrArg (col.1 :: ·) (ih (Nat.succ.inj h))

/-- **What a descriptor reads from a row**: the values as they are stored, and for columns
that the row does not have the values that older rows have. -/
def readAs (sv : Server) (desc : TupleDesc) (cols : List (Attribute × Option Mem)) :
    List (Option Mem) :=
  (cols.take desc.length).map (fun col => col.2.map (sv.stored col.1))
    ++ (desc.drop cols.length).map fun col => col.1.attmissing

/-- The columns that a row and a descriptor both have are the same. -/
def Agree (desc : TupleDesc) (cols : List (Attribute × Option Mem)) : Prop :=
  (desc.map Prod.fst).take cols.length = (cols.map Prod.fst).take desc.length

/-- **A row reads as it was written.** -/
theorem Holds.exists_heapDeformTuple_eq {tup : HeapTuple} {cols : List (Attribute × Option Mem)}
    (h : sv.Holds tup cols) (hfit : sv.AllFit cols) {desc : TupleDesc} (hagree : Agree desc cols)
    (hcache : CacheOk (some 0) desc) :
    ∃ desc', sv.heapDeformTuple tup desc = .ok (sv.readAs desc cols, desc')
      ∧ desc'.map Prod.fst = desc.map Prod.fst ∧ CacheOk (some 0) desc' := by
  -- the columns that are read, and those behind them
  obtain ⟨n, hn⟩ : ∃ n, n = min cols.length desc.length := ⟨_, rfl⟩
  have htake : desc.take n = desc.take cols.length := by
    rw [hn, List.take_eq_take_iff]
    omega
  have htake' : cols.take n = cols.take desc.length := by
    rw [hn, List.take_eq_take_iff]
    omega
  have hdrop : desc.drop n = desc.drop cols.length := by
    rcases Nat.le_total cols.length desc.length with hle | hle
    · rw [hn, Nat.min_eq_left hle]
    · rw [hn, Nat.min_eq_right hle, List.drop_length, List.drop_eq_nil_of_le hle]
  have hatts : (desc.take n).map Prod.fst = (cols.take n).map Prod.fst := by
    rw [htake, htake', List.map_take, List.map_take]
    exact hagree
  have hfit' : sv.AllFit (cols.take n) := fun col hcol => hfit col (List.mem_of_mem_take hcol)
  obtain ⟨rest, hdata⟩ : ∃ rest, tup.data = sv.layout (cols.take n) [] ++ rest := by
    obtain ⟨rest, hrest⟩ := @exists_layout_eq sv (cols.drop n) (sv.layout (cols.take n) [])
    rw [← layout_append, List.take_append_drop] at hrest
    exact ⟨rest, h.data_eq.trans hrest⟩
  have hnulls : ∀ i null, ((cols.take n).map fun col => col.2.isNone)[i]? = some null →
      (if tup.hasnull then attIsnull (0 + i) tup.bits else .ok false) = .ok null := by
    intro i null hi
    rw [Nat.zero_add]
    refine h.nulls i null ?_
    rw [List.map_take, List.getElem?_take] at hi
    split at hi
    · exact hi
    · cases hi
  rw [← List.take_append_drop n desc, cacheOk_append] at hcache
  obtain ⟨found, hrun, hvals, hcache'⟩ := @AllFit.exists_deformLoop_eq sv _ hfit' tup [] rest hdata 0
    hnulls (desc.take n) hatts (some 0) hcache.1 false fun _ => rfl
  have hlen : (desc.take n).length = found.length := by
    have h₁ := congrArg List.length hvals
    have h₂ := congrArg List.length hatts
    rw [List.length_map, List.length_map] at h₁ h₂
    exact h₂.trans h₁.symm
  have hfst := map_fst_remember hlen
  refine ⟨remember (desc.take n) found ++ desc.drop n, ?_, ?_, ?_⟩
  · rw [List.length_nil] at hrun
    rw [heapDeformTuple, h.natts_eq, ← hn, hrun, Run.ok_bind, hvals, readAs, ← htake', ← hdrop]
    rfl
  · rw [List.map_append, hfst, ← List.map_append, List.take_append_drop]
  · rw [cacheOk_append, hfst]
    exact ⟨hcache', hcache.2⟩

/-- Rows that are taken apart one after the other. -/
def deformAll (sv : Server) : TupleDesc → List HeapTuple → Run (List (List (Option Mem)))
  | _, [] => .ok []
  | desc, tup :: tups => do
    let (vals, desc) ← sv.heapDeformTuple tup desc
    return vals :: (← deformAll sv desc tups)

/-- **Every row reads as it was written, whatever rows were read before it.** Rows are
written inside of the memory that was worked out for them, and objects are flattened on the
way. They are then read, one after the other, with one descriptor, which may have fewer
columns than a row or more, and which remembers offsets from each row to the next: with
nulls and values of any size in any of the rows, the values of each are found as they were
stored. -/
theorem exists_deformAll_heapFillTuple {rows : List (List (Attribute × Option Mem))}
    (hfit : ∀ cols ∈ rows, sv.AllFit cols) {desc : TupleDesc}
    (hagree : ∀ cols ∈ rows, Agree desc cols)
    (hcache : ∀ col ∈ desc, col.2 = none) :
    ∃ tups, List.Forall₂ (fun cols tup => ∃ dataSize, sv.heapComputeDataSize cols = .ok dataSize
        ∧ sv.heapFillTuple (cols.any fun col => col.2.isNone) dataSize cols = .ok tup) rows tups
      ∧ sv.deformAll desc tups = .ok (rows.map (sv.readAs desc)) := by
  have hgood : CacheOk (some 0) desc := cacheOk_of_forall_none hcache
  clear hcache
  induction rows generalizing desc with
  | nil => exact ⟨[], .nil, rfl⟩
  | cons cols rows ih =>
    have hfits := hfit cols List.mem_cons_self
    obtain ⟨tup, hfill, hholds⟩ := hfits.exists_heapFillTuple_eq
    obtain ⟨desc', hdeform, hatts, hgood'⟩ :=
      hholds.exists_heapDeformTuple_eq hfits (hagree cols List.mem_cons_self) hgood
    -- the descriptor differs in what it remembers
    have hlen : desc'.length = desc.length := by
      rw [← List.length_map Prod.fst, hatts, List.length_map]
    have hsame : ∀ cols, sv.readAs desc' cols = sv.readAs desc cols := by
      intro cols
      have hmissing : ∀ desc : TupleDesc, (desc.drop cols.length).map (fun col => col.1.attmissing)
          = ((desc.map Prod.fst).drop cols.length).map Attribute.attmissing := by
        intro desc
        rw [← List.map_drop, List.map_map]
        rfl
      rw [readAs, readAs, hlen, hmissing, hmissing, hatts]
    obtain ⟨tups, hall, hrest⟩ := @ih (fun c hc => hfit c (List.mem_cons_of_mem _ hc)) desc'
      (fun c hc => by
        have h := hagree c (List.mem_cons_of_mem _ hc)
        unfold Agree at h ⊢
        rwa [hatts, hlen])
      hgood'
    refine ⟨tup :: tups, .cons ⟨_, hfits.heapComputeDataSize_eq, hfill⟩ hall, ?_⟩
    rw [List.map_congr_left fun c _ => hsame c] at hrest
    rw [deformAll, hdeform, Run.ok_bind]
    dsimp only
    rw [hrest]
    rfl

/-- A byte, a text and a word. -/
def byteTextWord : List Attribute :=
  [⟨.fixed 1, .char, .plain, Char.ofNat 0, none, nofun⟩,
    ⟨.varlena, .int, .extended, Char.ofNat 0, none, nofun⟩,
    ⟨.fixed 4, .int, .plain, Char.ofNat 0, none, nofun⟩]

/-- A server that flattens every object to the same text. -/
def flattensToText : Server :=
  { littleEndian with flatten := fun _ => .ok (littleEndian.plainDatum [120, 121]) }

/-- A row with a text, one with a null in its place, and one with an object. -/
def threeRows : List (List (Attribute × Option Mem)) :=
  [byteTextWord.zip [some [1], some (littleEndian.plainDatum [97, 98, 99]), some [1, 2, 3, 4]],
    byteTextWord.zip [some [2], none, some [5, 6, 7, 8]],
    byteTextWord.zip [some [3], some [1, 2, 0, 0, 0, 0, 0, 0, 0, 0], some [5, 6, 7, 8]]]

theorem allFit_threeRows : ∀ cols ∈ threeRows, flattensToText.AllFit cols := by
  have hword : ∀ {att : Attribute} {m : Mem} {n : ℕ}, att.attlen = .fixed n → m.length = n →
      flattensToText.Fits att m := by
    intro att m n hlen hm
    unfold Fits
    rw [hlen]
    exact hm
  have htext : ∀ {att : Attribute} {m : Mem}, att.attlen = .varlena →
      flattensToText.varsizeAny m = .ok m.length → flattensToText.Fits att m := by
    intro att m hlen hm
    unfold Fits
    rw [hlen]
    exact ⟨hm, fun _ => ⟨rfl, rfl, rfl⟩⟩
  intro cols hcols col hcol m hm
  simp only [threeRows, byteTextWord, List.zip_cons_cons, List.zip_nil_right, List.mem_cons,
    List.not_mem_nil, or_false] at hcols
  rcases hcols with rfl | rfl | rfl <;>
    simp only [List.mem_cons, List.not_mem_nil, or_false] at hcol <;>
    rcases hcol with rfl | rfl | rfl <;> cases hm <;>
    first
      | exact hword rfl rfl
      | exact htext rfl rfl

theorem exists_deformAll_threeRows :
    ∃ tups, List.Forall₂ (fun cols tup => ∃ dataSize,
          flattensToText.heapComputeDataSize cols = .ok dataSize
          ∧ flattensToText.heapFillTuple (cols.any fun col => col.2.isNone) dataSize cols = .ok tup)
        threeRows tups
      ∧ flattensToText.deformAll (byteTextWord.map (·, none)) tups
        = .ok (threeRows.map (flattensToText.readAs (byteTextWord.map (·, none)))) :=
  exists_deformAll_heapFillTuple allFit_threeRows (by simp [threeRows, byteTextWord, Agree])
    (by simp)

/-- The text is stored with a short header, and not aligned. -/
example : (fun tup => tup.data) <$> flattensToText.heapFormTuple
      (byteTextWord.zip [some [1], some (littleEndian.plainDatum [97, 98, 99]), some [1, 2, 3, 4]])
    = .ok [1, 9, 97, 98, 99, 0, 0, 0, 1, 2, 3, 4] := by decide +kernel

/-- An object is aligned, and keeps its header. -/
example : (fun tup => (tup.data, tup.hasexternal)) <$> flattensToText.heapFormTuple
      (byteTextWord.zip [some [3], some [1, 2, 0, 0, 0, 0, 0, 0, 0, 0], some [5, 6, 7, 8]])
    = .ok ([3, 0, 0, 0, 24, 0, 0, 0, 120, 121, 0, 0, 5, 6, 7, 8], false) := by decide +kernel

end Server
