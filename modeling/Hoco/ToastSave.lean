import Hoco.ToastExternal

/-!
# Moving values out of line, and back into nothing

`toast_save_datum` gives a value an id, cuts it into chunks and returns the pointer;
`toast_delete_datum` deletes the chunks of a pointer. Deleted rows stay until they are
cleaned up, and a scan for toast data sees them (`SnapshotToast`), so that a reader who
still holds the pointer reads the value. The id must then not be given to another value,
and the search for an id looks at all rows for that reason (`SnapshotAny`).
-/

open Chunking

/-! ## Saving -/

/-- `toastrel_valueid_exists`. Rows that have been deleted count. -/
def ToastRel.valueidExists (rel : ToastRel) (valueid : ℕ) : Bool :=
  rel.rows.any fun row => row.chunkId == valueid

/-- What `toast_save_datum` takes from the relation: its toast table, and the OID that
pointers are to have instead while it is being rewritten (zero otherwise). -/
structure Relation where
  reltoastrelid : ℕ
  rdToastoid : ℕ

/-- What `toast_save_datum` reads off a datum. -/
structure SaveExtent where
  dataP : ℕ
  dataTodo : ℤ
  vaRawsize : ℤ
  vaExtinfo : ℕ

/-- The table with its rows replaced. -/
def Store.setRows (st : Store) (relid : ℕ) (rel : ToastRel) (rows : List ToastRow) : Store :=
  { st with rels := fun r => if r = relid then some { rel with rows := rows } else st.rels r }

namespace StoreServer

variable (sv : StoreServer)

/-- The data of a datum, and the sizes that its pointer gets. -/
def saveExtent (value : Mem) : Run SaveExtent := do
  if ← sv.varattIsShort value then
    let dataTodo : ℤ := (← sv.varsize1B value : ℕ) - 1
    return ⟨1, dataTodo, dataTodo + 4, (dataTodo % 2 ^ 32).toNat⟩
  else if ← sv.varattIsCompressed value then
    let dataTodo : ℤ := (← sv.varsize4B value : ℕ) - 4
    let extsize ← sv.vardataCompressedGetExtsize value
    let cmid ← sv.toastCompressMethod value
    return ⟨4, dataTodo, extsize + 4, (dataTodo % 2 ^ 32).toNat ||| cmid <<< 30⟩
  else
    let size ← sv.varsize4B value
    return ⟨4, (size : ℤ) - 4, size, (((size : ℤ) - 4) % 2 ^ 32).toNat⟩

/-- The id of a value, the counter after it, and how many bytes are to be stored: none, if
the value is in the new table already. -/
def chooseValueid (st : Store) (rel : Relation) (toastrel : ToastRel) (oldexternal : Option Mem)
    (dataTodo : ℤ) : Run (ℕ × ℕ × ℤ) := do
  if rel.rdToastoid = 0 then
    let found ← sv.oids.getNewOidWithIndex toastrel.valueidExists (2 ^ 32) st.nextOid
    -- when all OIDs are in use the search does not end
    found.elim (.error .fault) fun found => .ok (found.1, found.2, dataTodo)
  else
    let (vaValueid, dataTodo) ← oldexternal.elim (.ok (0, dataTodo)) fun old => do
      let p ← sv.varattExternalGetPointer old
      return if p.vaToastrelid = rel.rdToastoid then
          (p.vaValueid, if toastrel.valueidExists p.vaValueid then 0 else dataTodo)
        else (0, dataTodo)
    if vaValueid ≠ 0 then return (vaValueid, st.nextOid, dataTodo)
    else
      let oldrel ← st.tableOpen rel.rdToastoid
      let found ← sv.oids.newOidInBoth toastrel.valueidExists oldrel.valueidExists (2 ^ 32) st.nextOid
      found.elim (.error .fault) fun found => .ok (found.1, found.2, dataTodo)

/-- The loop that cuts the data into chunks and inserts them. -/
def saveChunks (valueid : ℕ) (value : Mem) :
    ℕ → ℕ → ℤ → ℤ → List ToastRow → Run (List ToastRow)
  | 0, _, _, _, rows => .ok rows
  | fuel + 1, dataP, dataTodo, chunkSeq, rows =>
    if dataTodo > 0 then do
      let chunkSize := (min (toastMaxChunkSize : ℤ) dataTodo).toNat
      let chunk ← value.copy dataP chunkSize
      saveChunks valueid value fuel (dataP + chunkSize) (dataTodo - chunkSize) (chunkSeq + 1)
        (rows ++ [⟨valueid, chunkSeq, sv.plainDatum chunk, false⟩])
    else .ok rows

/-- **`toast_save_datum`**: the pointer, and the tables with the value in them. -/
def toastSaveDatum (st : Store) (rel : Relation) (value : Mem) (oldexternal : Option Mem) :
    Run (Mem × Store) := do
  let toastrel ← st.tableOpen rel.reltoastrelid
  let extent ← sv.saveExtent value
  let vaToastrelid := if rel.rdToastoid ≠ 0 then rel.rdToastoid else rel.reltoastrelid
  let (vaValueid, nextOid, dataTodo) ←
    sv.chooseValueid st rel toastrel oldexternal extent.dataTodo
  let rows ← sv.saveChunks vaValueid value dataTodo.toNat extent.dataP dataTodo 0 toastrel.rows
  return (sv.toastPointer ⟨extent.vaRawsize, extent.vaExtinfo, vaValueid, vaToastrelid⟩,
    { st.setRows rel.reltoastrelid toastrel rows with nextOid := nextOid })

/-! ## Deleting, and cleaning up -/

/-- **`toast_delete_datum`.** A row that has been deleted by a transaction that is over
cannot be deleted again; the rows of a speculative insertion are taken back. -/
def toastDeleteDatum (st : Store) (value : Mem) (isSpeculative : Bool) : Run Store := do
  if ← sv.varattIsExternalOndisk value then
    let p ← sv.varattExternalGetPointer value
    let toastrel ← st.tableOpen p.vaToastrelid
    if isSpeculative then
      return st.setRows p.vaToastrelid toastrel
        (toastrel.rows.filter fun row => row.chunkId != p.vaValueid)
    else if toastrel.rows.any fun row => row.chunkId == p.vaValueid && row.dead then
      .error (.ereport { code := .internalError, message := "tuple concurrently deleted" })
    else
      return st.setRows p.vaToastrelid toastrel
        (toastrel.rows.map fun row =>
          if row.chunkId = p.vaValueid then { row with dead := true } else row)
  else return st

end StoreServer

/-- Cleaning up a toast table: of the dead rows, those that `keep` does not hold back are
removed. -/
def Store.vacuum (st : Store) (relid : ℕ) (keep : ToastRow → Bool) : Store :=
  (st.rels relid).elim st fun rel =>
    st.setRows relid rel (rel.rows.filter fun row => !row.dead || keep row)

/-! ## What saving does -/

namespace Server

variable (sv : Server)

/-- The rows of chunks, the first of which has the number `c`. -/
def chunkRows (valueid c : ℕ) : List (List UInt8) → List ToastRow
  | [] => []
  | t :: ts => ⟨valueid, c, sv.plainDatum t, false⟩ :: chunkRows valueid (c + 1) ts

theorem map_columns_chunkRows (valueid c : ℕ) (ts : List (List UInt8)) :
    (sv.chunkRows valueid c ts).map ToastRow.columns = sv.chunkColumns c ts := by
  induction ts generalizing c with
  | nil => rfl
  | cons t ts ih =>
    rw [chunkRows, List.map_cons, ih]
    rfl

theorem of_mem_chunkRows {valueid c : ℕ} {ts : List (List UInt8)} {row : ToastRow}
    (h : row ∈ sv.chunkRows valueid c ts) : row.chunkId = valueid ∧ row.dead = false := by
  induction ts generalizing c with
  | nil => cases h
  | cons t ts ih =>
    rcases List.mem_cons.mp h with rfl | h
    · exact ⟨rfl, rfl⟩
    · exact ih h

section

variable {sv} {rel : ToastRel} {valueid : ℕ} {data : List UInt8}

/-- **A value under an id that is not in use is stored.** -/
theorem stores_append (hfree : rel.valueidExists valueid = false) :
    sv.Stores { rel with
      rows := rel.rows ++ sv.chunkRows valueid 0 (chunks toastMaxChunkSize data) } valueid data := by
  have hold : (rel.rows.filter fun row => row.chunkId = valueid) = [] := by
    rw [List.filter_eq_nil_iff]
    intro row hrow
    have := List.any_eq_false.mp hfree row hrow
    simpa using this
  have hnew : (sv.chunkRows valueid 0 (chunks toastMaxChunkSize data)).filter
      (fun row => row.chunkId = valueid) = sv.chunkRows valueid 0 (chunks toastMaxChunkSize data) := by
    rw [List.filter_eq_self]
    intro row hrow
    exact decide_eq_true (sv.of_mem_chunkRows hrow).1
  unfold Stores
  rw [List.filter_append, hold, hnew, List.nil_append, map_columns_chunkRows]

/-- What is stored depends on the rows with the id. -/
theorem Stores.congr (h : sv.Stores rel valueid data) {rel' : ToastRel}
    (hsame : (rel'.rows.filter fun row => row.chunkId = valueid).map ToastRow.columns
      = (rel.rows.filter fun row => row.chunkId = valueid).map ToastRow.columns) :
    sv.Stores rel' valueid data := by
  unfold Stores
  rw [hsame]
  exact h

/-- Data that are not empty have a row. -/
theorem Stores.valueidExists (h : sv.Stores rel valueid data) (hne : data ≠ []) :
    rel.valueidExists valueid = true := by
  by_contra hnone
  have hrows : (rel.rows.filter fun row => row.chunkId = valueid) = [] := by
    rw [List.filter_eq_nil_iff]
    intro row hrow hid
    refine hnone (List.any_eq_true.mpr ⟨row, hrow, ?_⟩)
    simpa using hid
  have hlen := h.length_eq
  rw [hrows, List.map_nil, List.length_nil, length_chunkColumns, chunks_of_ne_nil (by decide) hne]
    at hlen
  cases hlen

end

end Server

namespace StoreServer

variable (sv : StoreServer)

/-- **The loop inserts the chunks.** -/
theorem saveChunks_eq {valueid : ℕ} {value data post : Mem} {fuel dataP c : ℕ}
    (hdata : value.drop dataP = data ++ post) (hfuel : data.length ≤ fuel)
    (rows : List ToastRow) :
    sv.saveChunks valueid value fuel dataP data.length c rows
      = .ok (rows ++ sv.chunkRows valueid c (chunks toastMaxChunkSize data)) := by
  induction fuel generalizing dataP data c rows with
  | zero =>
    rw [List.length_eq_zero_iff.mp (Nat.le_zero.mp hfuel), saveChunks]
    exact congrArg Except.ok (List.append_nil rows).symm
  | succ fuel ih =>
    rw [saveChunks]
    by_cases hne : data = []
    · subst hne
      rw [if_neg (by rw [List.length_nil]; omega)]
      exact congrArg Except.ok (List.append_nil rows).symm
    · have hpos := List.length_pos_iff.mpr hne
      have hsize : (min (toastMaxChunkSize : ℤ) data.length).toNat
          = (data.take toastMaxChunkSize).length := by
        rw [List.length_take]
        omega
      have hsplit : value.drop dataP
          = data.take toastMaxChunkSize ++ (data.drop toastMaxChunkSize ++ post) := by
        rw [hdata, ← List.append_assoc, List.take_append_drop]
      have hrest : (data.length : ℤ) - ((data.take toastMaxChunkSize).length : ℕ)
          = (data.drop toastMaxChunkSize).length := by
        rw [List.length_take, List.length_drop]
        omega
      have hle : (data.drop toastMaxChunkSize).length ≤ fuel := by
        rw [List.length_drop]
        simp only [toastMaxChunkSize]
        omega
      rw [if_pos (by omega)]
      dsimp only
      rw [hsize, Mem.copy_of_drop hsplit, Run.ok_bind, hrest]
      have hnext := @ih (data.drop toastMaxChunkSize)
        (dataP + (data.take toastMaxChunkSize).length) (c + 1) (Mem.drop_add hsplit) hle
        (rows ++ [⟨valueid, c, sv.plainDatum (data.take toastMaxChunkSize), false⟩])
      rw [List.append_assoc] at hnext
      rw [chunks_of_ne_nil (by decide) hne]
      exact hnext

/-- What `toast_save_datum` reads off a value is what its pointer says. -/
theorem saveExtent_datum (v : Value) (valueid relid : ℕ) :
    sv.saveExtent (v.datum sv.toServer)
      = .ok ⟨v.headerLength, (v.stored sv.toServer).length, v.rawsize + 4,
        (v.pointer sv.toServer valueid relid).vaExtinfo⟩ := by
  have hlt := v.length_stored_lt sv.toServer
  have hreads := (v.hasHeader_datum sv.toServer).reads
  rw [saveExtent, v.varattIsShort_datum, Run.ok_bind]
  cases v with
  | plain t fits =>
    have hsize : sv.varsize4B (sv.plainDatum t) = .ok (t.length + 4) := hreads
    rw [Value.varattIsCompressed_datum]
    show (sv.varsize4B (sv.plainDatum t) >>= fun size => (.ok ⟨4, (size : ℤ) - 4, size,
      (((size : ℤ) - 4) % 2 ^ 32).toNat⟩ : Run SaveExtent)) = _
    rw [hsize, Run.ok_bind]
    simp only [Value.stored] at hlt
    refine congrArg Except.ok ?_
    simp only [Value.headerLength, Value.stored, Value.rawsize, Value.pointer, Value.method,
      Option.getD_none, SaveExtent.mk.injEq, true_and]
    omega
  | short t fits =>
    have hsize : sv.varsize1B (sv.shortDatum t) = .ok (t.length + 1) := hreads
    show (sv.varsize1B (sv.shortDatum t) >>= fun size => (.ok ⟨1, (size : ℤ) - 1,
      (size : ℤ) - 1 + 4, (((size : ℤ) - 1) % 2 ^ 32).toNat⟩ : Run SaveExtent)) = _
    rw [hsize, Run.ok_bind]
    simp only [Value.stored] at hlt
    refine congrArg Except.ok ?_
    simp only [Value.headerLength, Value.stored, Value.rawsize, Value.pointer, Value.method,
      Option.getD_none, SaveExtent.mk.injEq, true_and]
    omega
  | compressed method rawsize payload known raw saves =>
    have hsize : sv.varsize4B (sv.compressedDatum method rawsize payload)
        = .ok ((Value.stored sv.toServer
          (.compressed method rawsize payload known raw saves)).length + 4) := hreads
    have hext := sv.vardataCompressedGetExtsize_compressedDatum known raw payload []
    have hmethod := sv.toastCompressMethod_compressedDatum known raw payload []
    rw [List.append_nil] at hext hmethod
    rw [Value.varattIsCompressed_datum]
    show (sv.varsize4B (sv.compressedDatum method rawsize payload) >>= fun size =>
      sv.vardataCompressedGetExtsize (sv.compressedDatum method rawsize payload) >>= fun extsize =>
      sv.toastCompressMethod (sv.compressedDatum method rawsize payload) >>= fun cmid =>
        (.ok ⟨4, (size : ℤ) - 4, (extsize : ℤ) + 4,
          (((size : ℤ) - 4) % 2 ^ 32).toNat ||| cmid <<< 30⟩ : Run SaveExtent)) = _
    rw [hsize, Run.ok_bind, hext, Run.ok_bind, hmethod, Run.ok_bind]
    simp only [Value.headerLength, Value.rawsize, Value.pointer, Value.method, Option.getD_some]
    generalize Value.stored sv.toServer (.compressed method rawsize payload known raw saves) = data
      at hlt ⊢
    have hbits : data.length ||| method <<< 30 = data.length + method * 2 ^ 30 := by
      rw [Nat.or_comm, ← Nat.shiftLeft_add_eq_or_of_lt (by omega), Nat.shiftLeft_eq, Nat.add_comm]
    have htodo : ((data.length + 4 : ℕ) : ℤ) - 4 = (data.length : ℤ) := by omega
    have hword : ((data.length : ℤ) % 2 ^ 32).toNat = data.length := by omega
    rw [htodo, hword, hbits]

/-- The stored bytes lie behind the header. -/
theorem drop_datum (v : Value) :
    (v.datum sv.toServer).drop v.headerLength = v.stored sv.toServer ++ [] := by
  rw [List.append_nil]
  cases v with
  | plain t fits =>
    rw [Value.datum, Server.plainDatum, Server.setVarsize]
    exact List.drop_left' (sv.wordBytes_length _)
  | short t fits => rfl
  | compressed method rawsize payload known raw saves =>
    rw [Value.datum, Server.compressedDatum, Server.setVarsizeCompressed, List.append_assoc]
    exact List.drop_left' (sv.wordBytes_length _)

/-- The tables after a value has been saved under an id. -/
def saved (st : Store) (relid : ℕ) (rel : ToastRel) (v : Value) (valueid nextOid : ℕ) : Store :=
  { st.setRows relid rel (rel.rows
      ++ sv.chunkRows valueid 0 (chunks toastMaxChunkSize (v.stored sv.toServer))) with
    nextOid := nextOid }

/-- **What `toast_save_datum` does with a value**, when an id has been chosen. -/
theorem toastSaveDatum_eq {st : Store} {rel : Relation} {toastrel : ToastRel}
    (hrel : st.rels rel.reltoastrelid = some toastrel) {v : Value} {oldexternal : Option Mem}
    {valueid nextOid : ℕ}
    (hchoose : sv.chooseValueid st rel toastrel oldexternal (v.stored sv.toServer).length
      = .ok (valueid, nextOid, (v.stored sv.toServer).length)) :
    sv.toastSaveDatum st rel (v.datum sv.toServer) oldexternal
      = .ok (sv.toastPointer (v.pointer sv.toServer valueid
          (if rel.rdToastoid ≠ 0 then rel.rdToastoid else rel.reltoastrelid)),
        sv.saved st rel.reltoastrelid toastrel v valueid nextOid) := by
  rw [toastSaveDatum, Store.tableOpen_of_rels hrel, Run.ok_bind, sv.saveExtent_datum v valueid 0,
    Run.ok_bind]
  dsimp only
  rw [hchoose, Run.ok_bind]
  dsimp only
  rw [Int.toNat_natCast, show (0 : ℤ) = ((0 : ℕ) : ℤ) from rfl,
    sv.saveChunks_eq (sv.drop_datum v) (Nat.le_refl _)]
  rfl

/-- In a table that is not rewritten: a value is saved whenever there is an id for it. -/
theorem exists_toastSaveDatum_eq (hmode : sv.oids.Normal) {st : Store} {relid : ℕ} {toastrel : ToastRel}
    (hrel : st.rels relid = some toastrel) (hnext : st.nextOid < 2 ^ 32) {o : ℕ}
    (hfree : toastrel.valueidExists o = false) (ho : firstNormalObjectId ≤ o ∧ o < 2 ^ 32)
    (v : Value) :
    ∃ valueid nextOid, sv.toastSaveDatum st ⟨relid, 0⟩ (v.datum sv.toServer) none
      = .ok (sv.toastPointer (v.pointer sv.toServer valueid relid),
        sv.saved st relid toastrel v valueid nextOid) := by
  obtain ⟨valueid, nextOid, hfound, -⟩ :=
    OidMode.exists_getNewOidWithIndex_of_free hmode hfree ho hnext
  refine ⟨valueid, nextOid, sv.toastSaveDatum_eq hrel ?_⟩
  rw [chooseValueid, if_pos rfl, hfound]
  rfl

/-- **What has happened when a value was saved.** -/
theorem of_toastSaveDatum_eq (hmode : sv.oids.Normal) {st st' : Store} {relid : ℕ}
    (hnext : st.nextOid < 2 ^ 32) {v : Value} {attr : Mem}
    (h : sv.toastSaveDatum st ⟨relid, 0⟩ (v.datum sv.toServer) none = .ok (attr, st')) :
    ∃ toastrel valueid nextOid, st.rels relid = some toastrel
      ∧ toastrel.valueidExists valueid = false
      ∧ (valueid < 2 ^ 32 ∧ nextOid < 2 ^ 32 ∧ valueid ≠ 0)
      ∧ attr = sv.toastPointer (v.pointer sv.toServer valueid relid)
      ∧ st' = sv.saved st relid toastrel v valueid nextOid := by
  cases hrel : st.rels relid with
  | none =>
    rw [toastSaveDatum, Store.tableOpen, hrel] at h
    cases h
  | some toastrel =>
    have hrun := h
    rw [toastSaveDatum, Store.tableOpen_of_rels hrel, Run.ok_bind, sv.saveExtent_datum v 0 0,
      Run.ok_bind] at hrun
    dsimp only at hrun
    rw [chooseValueid, if_pos rfl] at hrun
    obtain ⟨_, hchoose, -⟩ := Run.bind_eq_ok.mp hrun
    obtain ⟨found, hfound, hchoose⟩ := Run.bind_eq_ok.mp hchoose
    cases found with
    | none => cases hchoose
    | some found =>
      obtain ⟨valueid, nextOid⟩ := found
      obtain ⟨hfree, hid, hlt⟩ := OidMode.of_getNewOidWithIndex_eq hmode hnext hfound
      have hsave := @toastSaveDatum_eq sv st ⟨relid, 0⟩ toastrel hrel v none valueid nextOid (by
        rw [chooseValueid, if_pos rfl, hfound]
        rfl)
      rw [hsave] at h
      cases h
      exact ⟨toastrel, valueid, nextOid, rfl, hfree, ⟨hid, hlt⟩, rfl, rfl⟩

end StoreServer
