import Hoco.HeapTupleDeform
import Hoco.ToastCompress
import Hoco.ToastRun

/-!
# The toaster

A row that is too large is made smaller before it is stored
(`heap_toast_insert_or_update`): its values are compressed, and moved out of line, the
largest first, in four rounds, until the row fits or nothing is left to be done. On the
way the values of the row that it replaces are looked after. A pointer that the new row
still has is kept; the other values of the old row are deleted at the end; and a value that
the new row refers to but that belongs to some other row is fetched and stored anew.

The flags that say what is to be freed are left out, as freeing is.
-/

open Rle

/-! ## The columns of a row -/

/-- What the toaster takes from a table: where its large values go, `toast_tuple_target` if
it is set, and its columns. -/
structure HeapRelation extends Relation where
  toastTupleTarget : Option ℕ
  rdAtt : List Attribute

/-- `RelationGetToastTupleTarget`. -/
def HeapRelation.getToastTupleTarget (rel : HeapRelation) (defaulttarg : ℕ) : ℕ :=
  rel.toastTupleTarget.getD defaulttarg

/-- **A column of a row while it is toasted**: its value, its value in the row that is
replaced, and what `ToastAttrInfo` has about it. -/
structure ToastColumn where
  att : Attribute
  value : Option Mem
  oldvalue : Option Mem
  taiOldexternal : Option Mem
  taiSize : ℤ
  /-- `TOASTCOL_NEEDS_DELETE_OLD` -/
  needsDeleteOld : Bool
  /-- `TOASTCOL_IGNORE` -/
  ignore : Bool
  /-- `TOASTCOL_INCOMPRESSIBLE` -/
  incompressible : Bool

/-- The column and its value. -/
def ToastColumn.entry (col : ToastColumn) : Attribute × Option Mem := (col.att, col.value)

/-- A row while it is toasted: the tables, its columns, and `TOAST_NEEDS_CHANGE`. -/
structure ToastState where
  store : Store
  cols : List ToastColumn
  needsChange : Bool

/-- What `toast_tuple_init` finds out about the value in the row that is replaced. -/
inductive OldFate where
  /-- There is none, or it is not in a toast table. -/
  | absent
  /-- It is not needed any more. -/
  | changed
  /-- The new row refers to it. -/
  | same
  deriving DecidableEq

namespace StoreServer

variable (sv : StoreServer)

/-- `detoast_external_attr`. -/
def detoastExternalAttr (st : Store) (attr : Mem) : Run Mem := do
  if ← sv.varattIsExternalOndisk attr then sv.toastFetchDatum st attr
  else if ← sv.hasKnownTag attr then sv.fetchExternal attr
  else return attr

/-- Whether a value in a toast table is not the new one. -/
def oldDiffers (oldValue : Mem) (value : Option Mem) : Run Bool :=
  value.elim (.ok true) fun newValue => do
    if ← sv.varattIsExternalOndisk newValue then
      let size ← Server.varsizeExternal oldValue
      return (← oldValue.copy 0 size) != (← newValue.copy 0 size)
    else return true

/-- The first part of the loop of `toast_tuple_init`. For an insertion there are no old
values. -/
def oldFate (att : Attribute) (oldvalue : Option (Option Mem)) (value : Option Mem) : Run OldFate :=
  oldvalue.join.elim (.ok .absent) fun oldValue =>
    if att.attlen = .varlena then do
      if ← sv.varattIsExternalOndisk oldValue then
        return if ← sv.oldDiffers oldValue value then .changed else .same
      else return .absent
    else .ok .absent

/-- What is taken for a value that belongs to another row: as it was moved out, or all of
it if the column is `PLAIN`. -/
def fetchForeign (st : Store) (plain : Bool) (newValue : Mem) : Run Mem :=
  if plain then (sv.overStore st).detoastAttr newValue else sv.detoastExternalAttr st newValue

/-- The second part of the loop of `toast_tuple_init`, for a varlena: the column, whether it
is null, and whether its value was replaced. -/
def initVarlena (st : Store) (col : ToastColumn) (newValue : Mem) :
    Run (ToastColumn × Bool × Bool) := do
  let plain : Bool := col.att.attstorage = .plain
  if ← sv.varattIsExternal newValue then
    let fetched ← sv.fetchForeign st plain newValue
    let size ← sv.varsizeAny fetched
    return ({ col with
      value := some fetched, taiOldexternal := some newValue, taiSize := size,
      ignore := plain }, false, true)
  else
    let size ← sv.varsizeAny newValue
    return ({ col with taiSize := size, ignore := plain }, false, false)

/-- The second part of the loop, for any column. -/
def initValue (st : Store) (col : ToastColumn) : Run (ToastColumn × Bool × Bool) :=
  col.value.elim (.ok (col, true, false)) fun newValue =>
    if col.att.attlen = .varlena then sv.initVarlena st col newValue else .ok (col, false, false)

/-- One turn of the loop of `toast_tuple_init`. -/
def initColumn (st : Store) (att : Attribute) (oldvalue : Option (Option Mem))
    (value : Option Mem) : Run (ToastColumn × Bool × Bool) := do
  let fate ← sv.oldFate att oldvalue value
  let col : ToastColumn := {
    att := att, value := value, oldvalue := oldvalue.join, taiOldexternal := none, taiSize := 0,
    needsDeleteOld := fate = .changed, ignore := true, incompressible := false }
  if fate = .same then return (col, false, false) else sv.initValue st col

/-- **`toast_tuple_init`**: the columns, whether one is null, and whether a value was
replaced. -/
def toastTupleInit (st : Store) :
    List (Attribute × Option (Option Mem) × Option Mem) → Run (List ToastColumn × Bool × Bool)
  | [] => .ok ([], false, false)
  | (att, oldvalue, value) :: rest => do
    let (col, isnull, changed) ← sv.initColumn st att oldvalue value
    let (cols, hasNulls, needsChange) ← toastTupleInit st rest
    return (col :: cols, isnull || hasNulls, changed || needsChange)

/-! ## Looking for the largest -/

/-- The conditions of `toast_tuple_find_biggest_attribute`, except for the size. -/
def isCandidate (col : ToastColumn) (forCompression checkMain : Bool) : Run Bool :=
  if col.ignore || (forCompression && col.incompressible) then .ok false
  else do
    let value ← col.value.elim (.error .fault) .ok
    if ← sv.varattIsExternal value then return false
    else if ← (if forCompression then sv.varattIsCompressed value else .ok false) then return false
    else
      return if checkMain then col.att.attstorage = .main
        else col.att.attstorage = .extended || col.att.attstorage = .external

/-- The loop of `toast_tuple_find_biggest_attribute`. -/
def findBiggestFrom (forCompression checkMain : Bool) :
    List ToastColumn → ℕ → Option ℕ → ℤ → Run (Option ℕ)
  | [], _, biggestAttno, _ => .ok biggestAttno
  | col :: cols, i, biggestAttno, biggestSize => do
    if (← sv.isCandidate col forCompression checkMain) && col.taiSize > biggestSize then
      findBiggestFrom forCompression checkMain cols (i + 1) (some i) col.taiSize
    else findBiggestFrom forCompression checkMain cols (i + 1) biggestAttno biggestSize

/-- `MAXALIGN(TOAST_POINTER_SIZE)`. -/
abbrev minToastSize : ℤ := 24

/-- `toast_tuple_find_biggest_attribute`. -/
def toastTupleFindBiggestAttribute (cols : List ToastColumn) (forCompression checkMain : Bool) :
    Run (Option ℕ) :=
  sv.findBiggestFrom forCompression checkMain cols 0 none minToastSize

/-! ## Making it smaller -/

/-- `toast_tuple_try_compression`, on one column: the column, and whether it was changed. -/
def tryCompression (col : ToastColumn) : Run (ToastColumn × Bool) := do
  let value ← col.value.elim (.error .fault) .ok
  let compressed ← sv.toastCompressDatum value col.att.attcompression
  compressed.elim (.ok ({ col with incompressible := true }, false)) fun newValue => do
    let size ← sv.varsize4B newValue
    return ({ col with value := some newValue, taiSize := size }, true)

/-- `toast_tuple_externalize`, on one column. -/
def externalize (st : Store) (rel : Relation) (col : ToastColumn) : Run (Store × ToastColumn) := do
  let value ← col.value.elim (.error .fault) .ok
  let (attr, st) ← sv.toastSaveDatum st rel value col.taiOldexternal
  return (st, { col with value := some attr, ignore := true })

/-- What is done with the largest column in the second and in the fourth round. -/
def externalizeStep (rel : Relation) (s : ToastState) (i : ℕ) : Run ToastState := do
  let col ← s.cols[i]?.elim (.error .fault) .ok
  let (st, col) ← sv.externalize s.store rel col
  return ⟨st, s.cols.set i col, true⟩

/-- What is done with it in the third round. -/
def compressionStep (s : ToastState) (i : ℕ) : Run ToastState := do
  let col ← s.cols[i]?.elim (.error .fault) .ok
  let (col, changed) ← sv.tryCompression col
  return ⟨s.store, s.cols.set i col, s.needsChange || changed⟩

/-- What is done with it at first in the first round: it is compressed, if it may be. -/
def compressOrMark (s : ToastState) (i : ℕ) : Run ToastState := do
  let col ← s.cols[i]?.elim (.error .fault) .ok
  if col.att.attstorage = .extended then sv.compressionStep s i
  else return { s with cols := s.cols.set i { col with incompressible := true } }

/-- And then it is moved out at once, if it is still too large by itself. -/
def firstStep (rel : Relation) (maxDataLen : ℕ) (s : ToastState) (i : ℕ) : Run ToastState := do
  let s ← sv.compressOrMark s i
  let col ← s.cols[i]?.elim (.error .fault) .ok
  if col.taiSize > maxDataLen ∧ rel.reltoastrelid ≠ 0 then sv.externalizeStep rel s i else return s

/-- The size of the data of the row as it is. -/
def dataSize (s : ToastState) : Run ℕ :=
  sv.heapComputeDataSize (s.cols.map ToastColumn.entry)

/-- **A round**: while the row is too large, the largest column that is suited is treated.
Every turn leaves one such column less (`exists_toastRound_eq`), so that there are at most as many
turns as columns. -/
def toastRound (maxDataLen : ℕ) (enabled forCompression checkMain : Bool)
    (step : ToastState → ℕ → Run ToastState) : ℕ → ToastState → Run ToastState
  | 0, _ => .error .fault
  | fuel + 1, s => do
    if (← sv.dataSize s) > maxDataLen ∧ enabled then
      let biggest ← sv.toastTupleFindBiggestAttribute s.cols forCompression checkMain
      biggest.elim (.ok s) fun i => do
        let s ← step s i
        toastRound maxDataLen enabled forCompression checkMain step fuel s
    else return s

/-- `TOAST_TUPLE_TARGET`, with blocks of 8192 bytes. -/
abbrev defaultToastTupleTarget : ℕ := 2032

/-- `TOAST_TUPLE_TARGET_MAIN`. -/
abbrev toastTupleTargetMain : ℕ := 8160

/-- A target for the size of a row, less its header. -/
def maxDataLen (target hoff : ℕ) : ℕ := (target + 2 ^ 64 - hoff) % 2 ^ 64

/-- The four rounds. -/
def toastRounds (rel : HeapRelation) (hoff : ℕ) (s : ToastState) : Run ToastState := do
  let target := maxDataLen (rel.getToastTupleTarget defaultToastTupleTarget) hoff
  let hasToast : Bool := rel.reltoastrelid ≠ 0
  let fuel := s.cols.length + 1
  let s ← sv.toastRound target true true false (sv.firstStep rel.toRelation target) fuel s
  let s ← sv.toastRound target hasToast false false (sv.externalizeStep rel.toRelation) fuel s
  let s ← sv.toastRound target true true true sv.compressionStep fuel s
  sv.toastRound (maxDataLen toastTupleTargetMain hoff) hasToast false true
    (sv.externalizeStep rel.toRelation) fuel s

/-- The value that a column had in the old row, if it is not needed any more. -/
def cleanupColumn (st : Store) (col : ToastColumn) : Run Store :=
  if col.needsDeleteOld then
    col.oldvalue.elim (.error .fault) fun oldValue => sv.toastDeleteDatum st oldValue false
  else .ok st

/-- `toast_tuple_cleanup`. -/
def toastTupleCleanup : Store → List ToastColumn → Run Store
  | st, [] => .ok st
  | st, col :: cols => do toastTupleCleanup (← sv.cleanupColumn st col) cols

/-- The row that is stored: a new one, if anything was done. -/
def resultTuple (hasNulls : Bool) (newtup : HeapTuple) (s : ToastState) : Run HeapTuple :=
  if s.needsChange then
    sv.buildTuple Server.heaptuplesize hasNulls (s.cols.map ToastColumn.entry)
  else .ok newtup

/-- `heap_toast_insert_or_update`, once the rows have been taken apart. -/
def toastRow (st : Store) (rel : HeapRelation) (newtup : HeapTuple)
    (olds : List (Option (Option Mem))) (values : List (Option Mem)) : Run (Store × HeapTuple) := do
  let (cols, hasNulls, needsChange) ← sv.toastTupleInit st (rel.rdAtt.zip (olds.zip values))
  let s ← sv.toastRounds rel (headerLen hasNulls rel.rdAtt.length) ⟨st, cols, needsChange⟩
  let tup ← sv.resultTuple hasNulls newtup s
  let st ← sv.toastTupleCleanup s.store s.cols
  return (st, tup)

/-- **`heap_toast_insert_or_update`**: the tables, and the row that is to be stored. -/
def heapToastInsertOrUpdate (st : Store) (rel : HeapRelation) (newtup : HeapTuple)
    (oldtup : Option HeapTuple) : Run (Store × HeapTuple) := do
  let desc : TupleDesc := rel.rdAtt.map (·, none)
  let (values, _) ← sv.heapDeformTuple newtup desc
  let oldvalues ← oldtup.elim (.ok none) fun oldtup => do
    let (oldvalues, _) ← sv.heapDeformTuple oldtup desc
    return some oldvalues
  sv.toastRow st rel newtup (oldvalues.elim (rel.rdAtt.map fun _ => none) (·.map some)) values

/-- One turn of the loop of `toast_delete_external`. -/
def deleteExternal (isSpeculative : Bool) (st : Store) (att : Attribute) (value : Option Mem) :
    Run Store :=
  if att.attlen = .varlena then
    value.elim (.ok st) fun value => do
      if ← sv.varattIsExternalOndisk value then sv.toastDeleteDatum st value isSpeculative
      else return st
  else .ok st

/-- `toast_delete_external`. -/
def toastDeleteExternal (isSpeculative : Bool) : Store → List (Attribute × Option Mem) → Run Store
  | st, [] => .ok st
  | st, (att, value) :: cols => do
    toastDeleteExternal isSpeculative (← sv.deleteExternal isSpeculative st att value) cols

/-- **`heap_toast_delete`.** -/
def heapToastDelete (st : Store) (rel : HeapRelation) (oldtup : HeapTuple) (isSpeculative : Bool) :
    Run Store := do
  let (values, _) ← sv.heapDeformTuple oldtup (rel.rdAtt.map (·, none))
  sv.toastDeleteExternal isSpeculative st (rel.rdAtt.zip values)

end StoreServer
