import Hoco.Chunking
import Hoco.Varlena

/-!
# Values in a toast table

A value that is too large for its row is stored in a table of its own, cut into chunks:
each row of that table holds the id of the value, the number of the chunk and the chunk
(`ToastRow`). `heapFetchToastSlice` follows `heap_fetch_toast_slice`, which reads a
stretch of a value back: it works out which chunks the stretch lies in, asks the index for
just these, and copies from each what belongs to the stretch, after checks on the number
and the size of every chunk.

The rows come in the order of the index, whatever order they lie in (`ToastRel.scan`).
`SnapshotToast` sees a row also when it has been deleted, as long as it has not been
removed, so that a scan does not look at `dead`.

What the checks amount to is said once, for any table whose chunks are inline datums
(`heapFetchToastSlice_eq_ok_iff`): the stretch is returned exactly when the rows found
are the chunks that the size of the value calls for, each of its size and none missing,
and then it is the stretch of their concatenation. Nothing that `palloc` left in the
result is returned, and in every other case an error is reported.
-/

open Chunking

/-- `TOAST_MAX_CHUNK_SIZE`, with blocks of 8192 bytes. -/
abbrev toastMaxChunkSize : ℕ := 1996

/-- A row of a toast table. -/
structure ToastRow where
  chunkId : ℕ
  chunkSeq : ℤ
  chunkData : Mem
  /-- The row has been deleted, and is still there. -/
  dead : Bool
  deriving DecidableEq

/-- A toast table: its name, and its rows as they lie. -/
structure ToastRel where
  relname : String
  rows : List ToastRow

/-- The second and the third column, which a scan returns. -/
def ToastRow.columns (row : ToastRow) : ℤ × Mem := (row.chunkSeq, row.chunkData)

/-- The scan keys on the number of the chunk. -/
inductive ChunkKey where
  | all
  | one (chunk : ℤ)
  | range (first last : ℤ)

/-- The numbers that a scan key admits. -/
def ChunkKey.admits : ChunkKey → ℤ → Bool
  | all, _ => true
  | one chunk, c => c == chunk
  | range first last, c => first ≤ c && c ≤ last

/-- The rows of a value that a scan returns, in the order of the index. -/
def ToastRel.scan (rel : ToastRel) (valueid : ℕ) (key : ChunkKey) : List (ℤ × Mem) :=
  ((rel.rows.filter fun row => row.chunkId = valueid && key.admits row.chunkSeq).map
    ToastRow.columns).insertionSort fun a b => a.1 ≤ b.1

/-! ## The chunks of a stretch -/

section

variable (attrsize sliceoffset slicelength : ℤ)

/-- `totalchunks`. -/
def totalchunks : ℤ := (attrsize - 1).tdiv toastMaxChunkSize + 1

/-- `startchunk`. -/
def startchunk : ℤ := sliceoffset.tdiv toastMaxChunkSize

/-- `endchunk`. -/
def endchunk : ℤ := (sliceoffset + slicelength - 1).tdiv toastMaxChunkSize

/-- `expected_size`. -/
def expectedSize (curchunk : ℤ) : ℤ :=
  if curchunk < totalchunks attrsize - 1 then toastMaxChunkSize
  else attrsize - (totalchunks attrsize - 1) * toastMaxChunkSize

/-- The keys of the scan. -/
def chunkKey : ChunkKey :=
  if startchunk sliceoffset = 0 ∧ endchunk sliceoffset slicelength = totalchunks attrsize - 1 then
    .all
  else if startchunk sliceoffset = endchunk sliceoffset slicelength then
    .one (startchunk sliceoffset)
  else .range (startchunk sliceoffset) (endchunk sliceoffset slicelength)

/-- `chcpystrt`. -/
def chcpystrt (curchunk : ℤ) : ℤ :=
  if curchunk = startchunk sliceoffset then sliceoffset.tmod toastMaxChunkSize else 0

/-- `chcpyend`. -/
def chcpyend (curchunk chunksize : ℤ) : ℤ :=
  if curchunk = endchunk sliceoffset slicelength then
    (sliceoffset + slicelength - 1).tmod toastMaxChunkSize
  else chunksize - 1

end

/-! ## Reading -/

/-- An error about the rows of a value. -/
def corruptToast (message : String) (valueid : ℕ) (relname : String) : Trap :=
  .ereport {
    code := .dataCorrupted
    message := message ++ " for toast value " ++ toString valueid ++ " in " ++ relname }

namespace Server

variable (sv : Server)

/-- The first byte of a plain datum. -/
def is4BU (b : UInt8) : Bool :=
  if sv.bigEndian then b &&& 0xC0 == 0x00 else b &&& 0x03 == 0x00

/-- The size of a chunk, and the distance of its data. -/
def chunkExtent (relname : String) (valueid : ℕ) (chunk : Mem) : Run (ℤ × ℕ) := do
  let b ← chunk.load 0
  if sv.is4BU b then return ((← sv.varsize4B chunk : ℕ) - 4, 4)
  else if sv.is1B b then return ((← sv.varsize1B chunk : ℕ) - 1, 1)
  else
    .error (.ereport {
      code := .internalError
      message := "found toasted toast chunk for toast value " ++ toString valueid ++ " in "
        ++ relname })

section

variable (relname : String) (valueid : ℕ) (attrsize sliceoffset slicelength : ℤ)

/-- One turn of the loop of `heap_fetch_toast_slice`. -/
def fetchChunk (row : ℤ × Mem) (expectedchunk : ℤ) (result : Mem) : Run Mem := do
  let (curchunk, chunk) := row
  let (chunksize, chunkdata) ← sv.chunkExtent relname valueid chunk
  if curchunk ≠ expectedchunk then
    .error (corruptToast ("unexpected chunk number " ++ toString curchunk ++ " (expected "
      ++ toString expectedchunk ++ ")") valueid relname)
  else if curchunk > endchunk sliceoffset slicelength then
    .error (corruptToast ("unexpected chunk number " ++ toString curchunk ++ " (out of range "
      ++ toString (startchunk sliceoffset) ++ ".." ++ toString (endchunk sliceoffset slicelength)
      ++ ")") valueid relname)
  else if chunksize ≠ expectedSize attrsize curchunk then
    .error (corruptToast ("unexpected chunk size " ++ toString chunksize ++ " (expected "
      ++ toString (expectedSize attrsize curchunk) ++ ") in chunk " ++ toString curchunk ++ " of "
      ++ toString (totalchunks attrsize)) valueid relname)
  else
    let strt := chcpystrt sliceoffset curchunk
    let last := chcpyend sliceoffset slicelength curchunk chunksize
    let bytes ← chunk.copyAt (chunkdata + strt) (last - strt + 1)
    result.storeAt (4 + (curchunk * toastMaxChunkSize - sliceoffset) + strt) bytes

/-- The loop: the number of the chunk that would come next, and the result. -/
def fetchChunks : List (ℤ × Mem) → ℤ → Mem → Run (ℤ × Mem)
  | [], expectedchunk, result => .ok (expectedchunk, result)
  | row :: rows, expectedchunk, result => do
    let result ← sv.fetchChunk relname valueid attrsize sliceoffset slicelength row expectedchunk
      result
    fetchChunks rows (expectedchunk + 1) result

/-- **`heap_fetch_toast_slice`**: `result` with the stretch in it. -/
def heapFetchToastSlice (rel : ToastRel) (result : Mem) : Run Mem := do
  let rows := rel.scan valueid (chunkKey attrsize sliceoffset slicelength)
  let (expectedchunk, result) ←
    sv.fetchChunks rel.relname valueid attrsize sliceoffset slicelength rows
      (startchunk sliceoffset) result
  if expectedchunk ≠ endchunk sliceoffset slicelength + 1 then
    .error (corruptToast ("missing chunk number " ++ toString expectedchunk) valueid rel.relname)
  else return result

end

end Server

/-! ## The numbers of a stretch -/

section

variable {A off len c : ℕ}

/-- The size of a chunk of a value of `A` bytes. -/
def chunkLen (A c : ℕ) : ℕ := min toastMaxChunkSize (A - c * toastMaxChunkSize)

theorem startchunk_natCast (off : ℕ) : startchunk off = ((off / toastMaxChunkSize : ℕ) : ℤ) := by
  rw [startchunk, Int.tdiv_eq_ediv_of_nonneg (Int.natCast_nonneg _)]
  rfl

theorem endchunk_natCast (hlen : 0 < len) :
    endchunk off len = (((off + len - 1) / toastMaxChunkSize : ℕ) : ℤ) := by
  rw [endchunk, Int.tdiv_eq_ediv_of_nonneg (by omega)]
  simp only [toastMaxChunkSize]
  omega

theorem totalchunks_natCast (hA : 0 < A) :
    totalchunks A = (((A - 1) / toastMaxChunkSize + 1 : ℕ) : ℤ) := by
  rw [totalchunks, Int.tdiv_eq_ediv_of_nonneg (by omega)]
  simp only [toastMaxChunkSize]
  omega

theorem expectedSize_natCast (hc : c * toastMaxChunkSize < A) :
    expectedSize A c = chunkLen A c := by
  rw [expectedSize, totalchunks_natCast (by omega), chunkLen]
  simp only [toastMaxChunkSize] at hc ⊢
  split <;> omega

/-- What is copied from a chunk begins where the stretch begins, or at its front. -/
theorem chcpystrt_natCast (hfirst : off / toastMaxChunkSize ≤ c) :
    chcpystrt off c = ((off - c * toastMaxChunkSize : ℕ) : ℤ) := by
  rw [chcpystrt, startchunk_natCast, Int.tmod_eq_emod_of_nonneg (Int.natCast_nonneg _)]
  simp only [toastMaxChunkSize] at *
  split <;> omega

/-- It ends where the stretch ends, or with the chunk. -/
theorem chcpyend_natCast (hlen : 0 < len) (hend : off + len ≤ A)
    (hlast : c ≤ (off + len - 1) / toastMaxChunkSize) :
    chcpyend off len c (chunkLen A c) + 1
      = ((min (off + len - c * toastMaxChunkSize) (chunkLen A c) : ℕ) : ℤ) := by
  rw [chcpyend, endchunk_natCast hlen, chunkLen, Int.tmod_eq_emod_of_nonneg (by omega)]
  simp only [toastMaxChunkSize] at *
  split <;> omega

end

/-! ## What a scan must find -/

namespace Server

variable (sv : Server)

theorem is4BU_eq (b : UInt8) : sv.is4BU b = (!sv.is4BC b && !sv.is1B b) := by
  obtain ⟨⟨h₁, -⟩, h₂, -⟩ := toNat_and_masks b
  have h₃ := b.toNat_lt
  rw [is4BC_eq, is1B_eq, is4BU, Bool.eq_iff_iff]
  cases sv.bigEndian <;>
    simp only [Bool.false_eq_true, ↓reduceIte, beq_iff_eq, Bool.and_eq_true, Bool.not_eq_true',
      decide_eq_false_iff_not, ← UInt8.toNat_inj, h₁, h₂, UInt8.toNat_ofNat] <;>
    omega

/-- The size and the data of a chunk with a header of either size. -/
theorem HasHeader.chunkExtent_eq {sv : Server} {m : Mem} {form : Form} {size : ℕ}
    (h : sv.HasHeader m form size) (hform : form ≠ .compressed) (relname : String) (valueid : ℕ) :
    sv.chunkExtent relname valueid m = .ok ((size : ℤ) - form.dataOffset, form.dataOffset) := by
  obtain ⟨b, hb, hc, hs, -⟩ := h.first
  have hreads := h.reads
  rw [chunkExtent, hb, Run.ok_bind, is4BU_eq, hc, hs]
  cases form with
  | plain =>
    rw [if_neg (by decide)] at hreads
    rw [if_pos (by decide), hreads]
    rfl
  | compressed => exact absurd rfl hform
  | short =>
    rw [if_pos rfl] at hreads
    rw [if_neg (by decide), if_pos (by decide), hreads]
    rfl

/-- A compressed chunk is reported. -/
theorem HasHeader.chunkExtent_compressed {sv : Server} {m : Mem} {size : ℕ}
    (h : sv.HasHeader m .compressed size) (relname : String) (valueid : ℕ) :
    ∃ report, sv.chunkExtent relname valueid m = .error (.ereport report) := by
  obtain ⟨b, hb, hc, hs, -⟩ := h.first
  rw [chunkExtent, hb, Run.ok_bind, is4BU_eq, hc, hs]
  exact ⟨_, rfl⟩

/-- **An inline datum and nothing else**: its data are what is behind its header. -/
def IsInline (m : Mem) : Prop :=
  ∃ form t, sv.HasHeader m form (form.dataOffset + t.length) ∧ m.drop form.dataOffset = t

/-- **The chunks of a value of `A` bytes**, from the number `c` on, in the rows of a scan. -/
inductive Chunks (A : ℕ) : ℕ → List (ℤ × Mem) → List (List UInt8) → Prop where
  | nil (c : ℕ) : Chunks A c [] []
  | cons {c : ℕ} {m : Mem} {form : Form} {t : List UInt8} {rows : List (ℤ × Mem)}
      {ts : List (List UInt8)} (text : sv.HasText m form t) (size : t.length = chunkLen A c)
      (next : Chunks A (c + 1) rows ts) : Chunks A c ((c, m) :: rows) (t :: ts)

section

variable {sv} {relname : String} {valueid A off len : ℕ} (hlen : 0 < len) (hend : off + len ≤ A)

include hlen hend

/-- **One chunk**: the part of it that lies in the stretch is written behind what was
written before. -/
theorem fetchChunk_eq {c : ℕ} (hfirst : off / toastMaxChunkSize ≤ c)
    (hlast : c ≤ (off + len - 1) / toastMaxChunkSize) {m : Mem} {form : Form} {t : List UInt8}
    (htext : sv.HasText m form t) (hsize : t.length = chunkLen A c) {result : Mem}
    (hresult : result.length = 4 + len) {before : List UInt8}
    (hbefore : before.length = c * toastMaxChunkSize - off) {hdr : List UInt8}
    (hhdr : hdr.length = 4) :
    sv.fetchChunk relname valueid A off len (c, m) c (Mem.overlay result (hdr ++ before))
      = .ok (Mem.overlay result
        (hdr ++ (before ++ clip off (off + len) (c * toastMaxChunkSize) t))) := by
  obtain ⟨rest, hmapped⟩ := htext.mapped
  have hin : c * toastMaxChunkSize < A := by
    simp only [toastMaxChunkSize] at *
    omega
  have hcopied : ∀ n p : ℕ, p ≤ n → n ≤ t.length →
      m.copy (form.dataOffset + p) (n - p) = .ok ((t.take n).drop p) := by
    intro n p hp hn
    have hlen' : ((t.take n).drop p).length = n - p := by
      rw [List.length_drop, List.length_take]
      omega
    have hdrop : m.drop (form.dataOffset + p) = (t.take n).drop p ++ (t.drop n ++ rest) := by
      rw [← List.drop_drop, hmapped, List.drop_append_of_le_length (by omega), ← List.append_assoc]
      refine congrArg (· ++ rest) ?_
      conv_lhs => rw [← List.take_append_drop n t]
      rw [List.drop_append_of_le_length (by rw [List.length_take]; omega)]
    have hcopy := Mem.copy_of_drop hdrop
    rwa [hlen'] at hcopy
  have hstrt := @chcpystrt_natCast off c hfirst
  have hlast' := chcpyend_natCast hlen hend hlast
  have hnum : ((form.dataOffset + t.length : ℕ) : ℤ) - (form.dataOffset : ℕ) = (chunkLen A c : ℕ) := by
    omega
  have hp : off - c * toastMaxChunkSize ≤ min (off + len - c * toastMaxChunkSize) t.length := by
    rw [hsize, chunkLen]
    simp only [toastMaxChunkSize] at *
    omega
  have hclip : (t.take (min (off + len - c * toastMaxChunkSize) t.length)).drop
      (off - c * toastMaxChunkSize) = clip off (off + len) (c * toastMaxChunkSize) t := by
    rw [clip, ← List.take_take, List.take_length]
  rw [fetchChunk]
  dsimp only
  rw [htext.header.chunkExtent_eq htext.uncompressed, Run.ok_bind]
  dsimp only
  rw [hnum, if_neg (by omega), if_neg (by rw [endchunk_natCast hlen]; omega),
    if_neg (by rw [expectedSize_natCast hin]; omega), hstrt,
    show (form.dataOffset : ℤ) + ((off - c * toastMaxChunkSize : ℕ) : ℤ)
      = ((form.dataOffset + (off - c * toastMaxChunkSize) : ℕ) : ℤ) by omega,
    show chcpyend off len c (chunkLen A c) - ((off - c * toastMaxChunkSize : ℕ) : ℤ) + 1
      = ((min (off + len - c * toastMaxChunkSize) t.length - (off - c * toastMaxChunkSize) : ℕ) : ℤ) by
        omega,
    Mem.copyAt_natCast, hcopied _ _ hp (Nat.min_le_right _ _), Run.ok_bind, hclip,
    show 4 + ((c : ℤ) * (toastMaxChunkSize : ℕ) - off) + ((off - c * toastMaxChunkSize : ℕ) : ℤ)
      = (((hdr ++ before).length : ℕ) : ℤ) by
        rw [List.length_append]
        simp only [toastMaxChunkSize] at *
        omega,
    Mem.storeAt_natCast, Mem.storeAll_overlay, List.append_assoc]
  rw [List.length_append, length_clip]
  simp only [toastMaxChunkSize] at *
  omega

/-- What has been written after a chunk that is not the last one. -/
theorem length_append_clip {c : ℕ} (hfirst : off / toastMaxChunkSize ≤ c)
    (hlast : c < (off + len - 1) / toastMaxChunkSize) {t : List UInt8}
    (hsize : t.length = chunkLen A c) {before : List UInt8}
    (hbefore : before.length = c * toastMaxChunkSize - off) :
    t.length = toastMaxChunkSize
      ∧ (before ++ clip off (off + len) (c * toastMaxChunkSize) t).length
        = (c + 1) * toastMaxChunkSize - off := by
  rw [List.length_append, length_clip, hbefore, hsize, chunkLen]
  simp only [toastMaxChunkSize] at *
  omega

/-- **The whole loop**: the parts of the chunks are written one behind the other. -/
theorem fetchChunks_eq {c : ℕ} {rows : List (ℤ × Mem)} {ts : List (List UInt8)}
    (h : sv.Chunks A c rows ts) (hfirst : off / toastMaxChunkSize ≤ c)
    (hroom : c + rows.length ≤ (off + len - 1) / toastMaxChunkSize + 1) {result : Mem}
    (hresult : result.length = 4 + len) {hdr : List UInt8} (hhdr : hdr.length = 4)
    {before : List UInt8}
    (hbefore : c ≤ (off + len - 1) / toastMaxChunkSize →
      before.length = c * toastMaxChunkSize - off) :
    sv.fetchChunks relname valueid A off len rows c (Mem.overlay result (hdr ++ before))
      = .ok ((c + rows.length : ℕ), Mem.overlay result
        (hdr ++ (before ++ clip off (off + len) (c * toastMaxChunkSize) ts.flatten))) := by
  induction h generalizing before with
  | nil c =>
    rw [fetchChunks, List.flatten_nil, clip, List.take_nil, List.drop_nil, List.append_nil]
    rfl
  | @cons c m form t rows ts htext hsize next ih =>
    rw [List.length_cons] at hroom
    have hlast : c ≤ (off + len - 1) / toastMaxChunkSize := by omega
    rw [fetchChunks, fetchChunk_eq hlen hend hfirst hlast htext hsize hresult (hbefore hlast) hhdr,
      Run.ok_bind]
    have hnext := ih (by omega) (by omega) (fun hle =>
      (length_append_clip hlen hend hfirst (by omega) hsize (hbefore hlast)).2)
    have hclip : clip off (off + len) (c * toastMaxChunkSize) (t :: ts).flatten
        = clip off (off + len) (c * toastMaxChunkSize) t
          ++ clip off (off + len) ((c + 1) * toastMaxChunkSize) ts.flatten := by
      rw [List.flatten_cons, clip_append]
      cases next with
      | nil => simp [clip]
      | cons htext' hsize' next' =>
        rw [List.length_cons] at hroom
        rw [(length_append_clip hlen hend hfirst (by omega) hsize (hbefore hlast)).1, Nat.succ_mul]
    rw [hclip, ← List.append_assoc before, List.length_cons,
      show c + (rows.length + 1) = c + 1 + rows.length by omega]
    exact hnext

/-- **Inline chunks are the expected ones, or an error is reported.** -/
theorem fetchChunks_cases {c : ℕ} {rows : List (ℤ × Mem)} (hinline : ∀ row ∈ rows, sv.IsInline row.2)
    (hfirst : off / toastMaxChunkSize ≤ c) {result : Mem} (hresult : result.length = 4 + len)
    {hdr : List UInt8} (hhdr : hdr.length = 4) {before : List UInt8}
    (hbefore : c ≤ (off + len - 1) / toastMaxChunkSize →
      before.length = c * toastMaxChunkSize - off) :
    (∃ ts, sv.Chunks A c rows ts
        ∧ (rows = [] ∨ c + rows.length ≤ (off + len - 1) / toastMaxChunkSize + 1))
      ∨ ∃ report, sv.fetchChunks relname valueid A off len rows c
        (Mem.overlay result (hdr ++ before)) = .error (.ereport report) := by
  induction rows generalizing c before with
  | nil => exact Or.inl ⟨[], .nil c, Or.inl rfl⟩
  | cons row rows ih =>
    obtain ⟨q, m⟩ := row
    obtain ⟨form, t, hheader, hdata⟩ := hinline (q, m) List.mem_cons_self
    by_cases hform : form = .compressed
    · subst hform
      obtain ⟨report, herror⟩ := hheader.chunkExtent_compressed relname valueid
      refine Or.inr ⟨report, ?_⟩
      rw [fetchChunks, fetchChunk]
      dsimp only
      rw [herror]
      rfl
    · have hstep : ∀ hbad : q ≠ c ∨ q > endchunk off len ∨ (t.length : ℤ) ≠ expectedSize A q,
          ∃ report, sv.fetchChunks relname valueid A off len ((q, m) :: rows) c
            (Mem.overlay result (hdr ++ before)) = .error (.ereport report) := by
        intro hbad
        rw [fetchChunks, fetchChunk]
        dsimp only
        rw [hheader.chunkExtent_eq hform, Run.ok_bind]
        dsimp only
        rw [show ((form.dataOffset + t.length : ℕ) : ℤ) - (form.dataOffset : ℕ) = t.length by omega]
        split
        · exact ⟨_, rfl⟩
        · split
          · exact ⟨_, rfl⟩
          · split
            · exact ⟨_, rfl⟩
            · rename_i h₁ h₂ h₃
              exact absurd hbad (by rintro (h | h | h) <;> contradiction)
      by_cases hbad : q ≠ c ∨ q > endchunk off len ∨ (t.length : ℤ) ≠ expectedSize A q
      · exact Or.inr (hstep hbad)
      · rw [not_or, not_or, not_not, not_not, endchunk_natCast hlen] at hbad
        obtain ⟨rfl, hlast, hsize⟩ := hbad
        have hlast' : c ≤ (off + len - 1) / toastMaxChunkSize := by omega
        have hin : c * toastMaxChunkSize < A := by
          simp only [toastMaxChunkSize] at *
          omega
        rw [expectedSize_natCast hin] at hsize
        have hsize' : t.length = chunkLen A c := by omega
        have htext : sv.HasText m form t := ⟨hheader, hform, [], by rw [hdata, List.append_nil]⟩
        rcases @ih (c + 1) (fun row hrow => hinline row (List.mem_cons_of_mem _ hrow)) (by omega)
            (before ++ clip off (off + len) (c * toastMaxChunkSize) t)
            (fun hle => (length_append_clip hlen hend hfirst (by omega) hsize' (hbefore hlast')).2)
          with ⟨ts, hts, hroom⟩ | ⟨report, herror⟩
        · refine Or.inl ⟨t :: ts, .cons htext hsize' hts, Or.inr ?_⟩
          rw [List.length_cons]
          rcases hroom with rfl | hroom
          · rw [List.length_nil]
            omega
          · omega
        · refine Or.inr ⟨report, ?_⟩
          rw [fetchChunks, fetchChunk_eq hlen hend hfirst hlast' htext hsize' hresult
            (hbefore hlast') hhdr, Run.ok_bind]
          exact herror

omit hlen hend in
/-- How many bytes the chunks have. -/
theorem Chunks.length_flatten {c : ℕ} {rows : List (ℤ × Mem)} {ts : List (List UInt8)}
    (h : sv.Chunks A c rows ts) :
    ts.flatten.length = min (rows.length * toastMaxChunkSize) (A - c * toastMaxChunkSize) := by
  induction h with
  | nil c => simp
  | @cons c m form t rows ts htext hsize next ih =>
    rw [List.flatten_cons, List.length_append, ih, hsize, chunkLen, List.length_cons]
    simp only [toastMaxChunkSize]
    omega

/-- **When the scan finds the chunks**, the stretch is cut out of them. -/
theorem heapFetchToastSlice_eq {rel : ToastRel} {ts : List (List UInt8)}
    (h : sv.Chunks A (off / toastMaxChunkSize) (rel.scan valueid (chunkKey A off len)) ts)
    (hall : off / toastMaxChunkSize + (rel.scan valueid (chunkKey A off len)).length
      = (off + len - 1) / toastMaxChunkSize + 1)
    {hdr junk : List UInt8} (hhdr : hdr.length = 4) (hjunk : junk.length = len) :
    sv.heapFetchToastSlice valueid A off len rel (hdr ++ junk)
      = .ok (hdr ++ (ts.flatten.drop (off % toastMaxChunkSize)).take len) := by
  have hfront : Mem.overlay (hdr ++ junk) (hdr ++ []) = hdr ++ junk := by
    rw [Mem.overlay, List.append_nil, List.drop_left]
  have hloop := @fetchChunks_eq sv rel.relname valueid A off len hlen hend _ _ _ h (Nat.le_refl _)
    (Nat.le_of_eq hall) (hdr ++ junk) (by rw [List.length_append]; omega) hdr hhdr []
    (fun _ => by rw [List.length_nil]; simp only [toastMaxChunkSize]; omega)
  rw [hfront, List.nil_append, clip_eq_take_drop (Nat.div_mul_le_self _ _),
    show off - off / toastMaxChunkSize * toastMaxChunkSize = off % toastMaxChunkSize by
      simp only [toastMaxChunkSize]; omega, Mem.overlay_of_length] at hloop
  · rw [heapFetchToastSlice]
    dsimp only
    rw [startchunk_natCast, hloop, Run.ok_bind]
    dsimp only
    rw [if_neg (by rw [endchunk_natCast hlen]; omega)]
    rfl
  · rw [List.length_append, List.length_append, List.length_take, List.length_drop,
      h.length_flatten]
    simp only [toastMaxChunkSize] at *
    omega

/-- The rows are the chunks, all of them, or an error is reported. -/
theorem heapFetchToastSlice_cases {rel : ToastRel}
    (hinline : ∀ row ∈ rel.rows, sv.IsInline row.chunkData) {hdr junk : List UInt8}
    (hhdr : hdr.length = 4) (hjunk : junk.length = len) :
    (∃ ts, sv.Chunks A (off / toastMaxChunkSize) (rel.scan valueid (chunkKey A off len)) ts
        ∧ off / toastMaxChunkSize + (rel.scan valueid (chunkKey A off len)).length
          = (off + len - 1) / toastMaxChunkSize + 1)
      ∨ ∃ report, sv.heapFetchToastSlice valueid A off len rel (hdr ++ junk)
        = .error (.ereport report) := by
  have hrows : ∀ row ∈ rel.scan valueid (chunkKey A off len), sv.IsInline row.2 := by
    intro row hrow
    rw [ToastRel.scan, List.mem_insertionSort, List.mem_map] at hrow
    obtain ⟨r, hr, rfl⟩ := hrow
    exact hinline r (List.mem_of_mem_filter hr)
  have hfront : Mem.overlay (hdr ++ junk) (hdr ++ []) = hdr ++ junk := by
    rw [Mem.overlay, List.append_nil, List.drop_left]
  have hs : off / toastMaxChunkSize ≤ (off + len - 1) / toastMaxChunkSize :=
    Nat.div_le_div_right (by omega)
  have hresult : (hdr ++ junk).length = 4 + len := by
    rw [List.length_append]
    omega
  have hstart : ∀ _ : off / toastMaxChunkSize ≤ (off + len - 1) / toastMaxChunkSize,
      ([] : List UInt8).length = off / toastMaxChunkSize * toastMaxChunkSize - off := fun _ => by
    rw [List.length_nil]
    simp only [toastMaxChunkSize]
    omega
  rw [heapFetchToastSlice]
  dsimp only
  rw [startchunk_natCast]
  rcases @fetchChunks_cases sv rel.relname valueid A off len hlen hend _ _ hrows (Nat.le_refl _)
    (hdr ++ junk) hresult hdr hhdr [] hstart with ⟨ts, hts, hroom⟩ | ⟨report, herror⟩
  · by_cases hall : off / toastMaxChunkSize + (rel.scan valueid (chunkKey A off len)).length
        = (off + len - 1) / toastMaxChunkSize + 1
    · exact Or.inl ⟨ts, hts, hall⟩
    · -- a chunk is missing at the end
      have hroom' : off / toastMaxChunkSize + (rel.scan valueid (chunkKey A off len)).length
          ≤ (off + len - 1) / toastMaxChunkSize + 1 := by
        rcases hroom with hnil | hroom
        · rw [hnil, List.length_nil]
          omega
        · exact hroom
      have hloop := @fetchChunks_eq sv rel.relname valueid A off len hlen hend _ _ _ hts
        (Nat.le_refl _) hroom' (hdr ++ junk) hresult hdr hhdr [] hstart
      rw [hfront] at hloop
      refine Or.inr ?_
      rw [hloop, Run.ok_bind]
      dsimp only
      rw [if_pos (by rw [endchunk_natCast hlen]; omega)]
      exact ⟨_, rfl⟩
  · rw [hfront] at herror
    refine Or.inr ⟨report, ?_⟩
    rw [herror]
    rfl

/-- **What `heap_fetch_toast_slice` accepts.** When the chunks in the table are inline
datums, a stretch of a value is returned exactly when the rows found by the scan are the
chunks it lies in, in order and none missing, each of the size that the size of the value
calls for; what is returned is then the stretch of their concatenation, and no byte of the
fresh memory. In every other case an error is reported. -/
theorem heapFetchToastSlice_eq_ok_iff {rel : ToastRel}
    (hinline : ∀ row ∈ rel.rows, sv.IsInline row.chunkData) {hdr junk : List UInt8}
    (hhdr : hdr.length = 4) (hjunk : junk.length = len) :
    (∀ r, sv.heapFetchToastSlice valueid A off len rel (hdr ++ junk) = .ok r
      ↔ ∃ ts, sv.Chunks A (off / toastMaxChunkSize) (rel.scan valueid (chunkKey A off len)) ts
        ∧ off / toastMaxChunkSize + (rel.scan valueid (chunkKey A off len)).length
          = (off + len - 1) / toastMaxChunkSize + 1
        ∧ r = hdr ++ (ts.flatten.drop (off % toastMaxChunkSize)).take len)
      ∧ ((∃ r, sv.heapFetchToastSlice valueid A off len rel (hdr ++ junk) = .ok r)
        ∨ ∃ report, sv.heapFetchToastSlice valueid A off len rel (hdr ++ junk)
          = .error (.ereport report)) := by
  have hcases := @heapFetchToastSlice_cases sv valueid A off len hlen hend rel hinline hdr junk
    hhdr hjunk
  constructor
  · intro r
    constructor
    · intro h
      rcases hcases with ⟨ts, hts, hall⟩ | ⟨report, herror⟩
      · rw [heapFetchToastSlice_eq hlen hend hts hall hhdr hjunk] at h
        exact ⟨ts, hts, hall, (Except.ok.inj h).symm⟩
      · rw [herror] at h
        cases h
    · rintro ⟨ts, hts, hall, rfl⟩
      exact heapFetchToastSlice_eq hlen hend hts hall hhdr hjunk
  · rcases hcases with ⟨ts, hts, hall⟩ | herror
    · exact Or.inl ⟨_, heapFetchToastSlice_eq hlen hend hts hall hhdr hjunk⟩
    · exact Or.inr herror

end

/-- The two chunks of a value of 1999 bytes, the second of which lies first. -/
def twoChunks : ToastRel where
  relname := "pg_toast_1"
  rows := [⟨16384, 1, littleEndian.plainDatum [98, 99, 100], false⟩,
    ⟨16384, 0, littleEndian.plainDatum (List.replicate 1996 97), false⟩]

theorem isInline_twoChunks : ∀ row ∈ twoChunks.rows, littleEndian.IsInline row.chunkData := by
  have hinline : ∀ t : List UInt8, t.length + 4 < 2 ^ 30 →
      littleEndian.IsInline (littleEndian.plainDatum t) := fun t fits => by
    have hheader := littleEndian.hasHeader_plainDatum fits []
    rw [List.append_nil, Nat.add_comm] at hheader
    exact ⟨.plain, t, hheader, rfl⟩
  intro row hrow
  rcases List.mem_cons.mp hrow with rfl | hrow
  · exact hinline _ (by decide)
  · cases List.mem_singleton.mp hrow
    exact hinline _ (by rw [List.length_replicate]; decide)

theorem chunks_twoChunks :
    littleEndian.Chunks 1999 (1994 / toastMaxChunkSize)
      (twoChunks.scan 16384 (chunkKey (1999 : ℕ) (1994 : ℕ) (4 : ℕ)))
      [List.replicate 1996 97, [98, 99, 100]] := by
  have hkey : chunkKey (1999 : ℕ) (1994 : ℕ) (4 : ℕ) = .all := if_pos (by decide)
  have hfirst : 1994 / toastMaxChunkSize = 0 := by decide
  have hscan : twoChunks.scan 16384 .all
      = [(((0 : ℕ) : ℤ), littleEndian.plainDatum (List.replicate 1996 97) ++ []),
        (((1 : ℕ) : ℤ), littleEndian.plainDatum [98, 99, 100] ++ [])] := by
    decide +kernel
  rw [hkey, hfirst, hscan]
  exact .cons (hasText_plainDatum _ (by rw [List.length_replicate]; decide) [])
    (List.length_replicate.trans (by decide))
    (.cons (hasText_plainDatum _ (by decide) []) (by decide) (.nil _))

/-- The stretch of four bytes in their middle. -/
theorem heapFetchToastSlice_eq_ok_iff_twoChunks :
    littleEndian.heapFetchToastSlice 16384 (1999 : ℕ) (1994 : ℕ) (4 : ℕ) twoChunks
      ([0, 0, 0, 0] ++ [0, 0, 0, 0]) = .ok ([0, 0, 0, 0] ++ [97, 97, 98, 99]) := by
  have hiff := (@heapFetchToastSlice_eq_ok_iff littleEndian 16384 1999 1994 4 (by decide) (by decide)
    twoChunks isInline_twoChunks [0, 0, 0, 0] [0, 0, 0, 0] rfl rfl).1
  refine (hiff _).mpr ⟨_, chunks_twoChunks, ?_, ?_⟩
  · decide +kernel
  · decide +kernel

/-! ## What a table stores -/

/-- The second and the third column of chunks, the first of which has the number `c`. -/
def chunkColumns (c : ℕ) : List (List UInt8) → List (ℤ × Mem)
  | [] => []
  | t :: ts => (c, sv.plainDatum t) :: chunkColumns (c + 1) ts

/-- **A table stores data under an id**: the rows with the id are the chunks of the data,
in whatever order they lie and whatever lies between them. -/
def Stores (rel : ToastRel) (valueid : ℕ) (data : List UInt8) : Prop :=
  ((rel.rows.filter fun row => row.chunkId = valueid).map ToastRow.columns).Perm
    (sv.chunkColumns 0 (chunks toastMaxChunkSize data))

theorem length_chunkColumns (c : ℕ) (ts : List (List UInt8)) :
    (sv.chunkColumns c ts).length = ts.length := by
  induction ts generalizing c with
  | nil => rfl
  | cons t ts ih => rw [chunkColumns, List.length_cons, ih, List.length_cons]

theorem le_of_mem_chunkColumns {c : ℕ} {ts : List (List UInt8)} {row : ℤ × Mem}
    (h : row ∈ sv.chunkColumns c ts) : (c : ℤ) ≤ row.1 ∧ row.1 < c + ts.length := by
  induction ts generalizing c with
  | nil => cases h
  | cons t ts ih =>
    rw [List.length_cons]
    rcases List.mem_cons.mp h with rfl | h
    · dsimp only
      omega
    · have := ih h
      omega

theorem pairwise_chunkColumns (c : ℕ) (ts : List (List UInt8)) :
    (sv.chunkColumns c ts).Pairwise fun a b => a.1 < b.1 := by
  induction ts generalizing c with
  | nil => exact .nil
  | cons t ts ih =>
    refine .cons (fun row hrow => ?_) (ih (c + 1))
    have := sv.le_of_mem_chunkColumns hrow
    dsimp only
    omega

/-- The chunks between two numbers. -/
theorem filter_chunkColumns (first last c : ℕ) (ts : List (List UInt8)) :
    (sv.chunkColumns c ts).filter (fun row => (first : ℤ) ≤ row.1 && row.1 ≤ (last : ℤ))
      = sv.chunkColumns (max c first) ((ts.drop (first - c)).take (last + 1 - max c first)) := by
  induction ts generalizing c with
  | nil => simp [chunkColumns]
  | cons t ts ih =>
    rw [chunkColumns, List.filter_cons, ih]
    dsimp only
    by_cases hfirst : first ≤ c
    · rw [Nat.max_eq_left hfirst, Nat.max_eq_left (show first ≤ c + 1 by omega),
        Nat.sub_eq_zero_of_le hfirst, Nat.sub_eq_zero_of_le (show first ≤ c + 1 by omega),
        List.drop_zero, List.drop_zero]
      by_cases hlast : c ≤ last
      · rw [if_pos (by simp; omega), show last + 1 - c = last + 1 - (c + 1) + 1 by omega,
          List.take_succ_cons, chunkColumns]
      · rw [if_neg (by simp; omega), show last + 1 - (c + 1) = 0 by omega,
          show last + 1 - c = 0 by omega]
        rfl
    · rw [if_neg (by simp; omega), Nat.max_eq_right (show c ≤ first by omega),
        Nat.max_eq_right (show c + 1 ≤ first by omega),
        show first - c = first - (c + 1) + 1 by omega, List.drop_succ_cons]

section

variable {sv} {rel : ToastRel} {valueid off len : ℕ} {data : List UInt8}

/-- What a scan finds of the data that are stored. -/
theorem Stores.scan_eq (h : sv.Stores rel valueid data) (key : ChunkKey) :
    rel.scan valueid key
      = (sv.chunkColumns 0 (chunks toastMaxChunkSize data)).filter fun row => key.admits row.1 := by
  have hsplit : (rel.rows.filter fun row => row.chunkId = valueid && key.admits row.chunkSeq).map
      ToastRow.columns
      = ((rel.rows.filter fun row => row.chunkId = valueid).map ToastRow.columns).filter
        fun row => key.admits row.1 := by
    rw [List.filter_map, List.filter_filter]
    refine congrArg (List.map ToastRow.columns) (List.filter_congr fun row _ => ?_)
    rw [Bool.and_comm]
    rfl
  rw [ToastRel.scan, hsplit]
  exact insertionSort_eq_of_perm (h.filter _) ((sv.pairwise_chunkColumns _ _).filter _)

/-- **The scan for a stretch finds its chunks** and no others, with each kind of key. -/
theorem Stores.scan_chunkKey (h : sv.Stores rel valueid data) (hlen : 0 < len)
    (hend : off + len ≤ data.length) :
    rel.scan valueid (chunkKey data.length off len)
      = sv.chunkColumns (off / toastMaxChunkSize)
        (((chunks toastMaxChunkSize data).drop (off / toastMaxChunkSize)).take
          ((off + len - 1) / toastMaxChunkSize + 1 - off / toastMaxChunkSize)) := by
  have hrange := sv.filter_chunkColumns (off / toastMaxChunkSize)
    ((off + len - 1) / toastMaxChunkSize) 0 (chunks toastMaxChunkSize data)
  rw [Nat.zero_max, Nat.sub_zero] at hrange
  rw [h.scan_eq, ← hrange]
  refine List.filter_congr fun row hrow => ?_
  obtain ⟨hpos, hlt⟩ := sv.le_of_mem_chunkColumns hrow
  have hcount := @lt_length_chunks_iff UInt8 toastMaxChunkSize (by decide) data
    ((data.length - 1) / toastMaxChunkSize + 1)
  rw [chunkKey, startchunk_natCast, endchunk_natCast hlen, totalchunks_natCast (by omega)]
  rw [Bool.eq_iff_iff]
  split
  · simp only [ChunkKey.admits, toastMaxChunkSize, true_iff, Bool.and_eq_true,
      decide_eq_true_eq] at *
    omega
  · split
    · simp only [ChunkKey.admits, beq_iff_eq, Bool.and_eq_true, decide_eq_true_eq]
      omega
    · rfl

/-- Chunks of the right sizes are what a reader expects. -/
theorem chunks_chunkColumns {A c : ℕ} {ts : List (List UInt8)}
    (h : ∀ i t, ts[i]? = some t → t.length = chunkLen A (c + i)) :
    sv.Chunks A c (sv.chunkColumns c ts) ts := by
  induction ts generalizing c with
  | nil => exact .nil c
  | cons t ts ih =>
    have hsize : t.length = chunkLen A c := h 0 t rfl
    have htext := sv.hasText_plainDatum (show t.length + 4 < 2 ^ 30 by
      rw [hsize, chunkLen]
      simp only [toastMaxChunkSize]
      omega) []
    rw [List.append_nil] at htext
    refine .cons htext hsize (ih fun i t' ht' => ?_)
    rw [h (i + 1) t' ht', Nat.add_assoc, Nat.add_comm i 1]

/-- **What is stored is read back**: any stretch of the data, whatever else the table has
and in whatever order its rows lie. -/
theorem Stores.heapFetchToastSlice_eq (h : sv.Stores rel valueid data) (hlen : 0 < len)
    (hend : off + len ≤ data.length) {hdr junk : List UInt8} (hhdr : hdr.length = 4)
    (hjunk : junk.length = len) :
    sv.heapFetchToastSlice valueid data.length off len rel (hdr ++ junk)
      = .ok (hdr ++ (data.drop off).take len) := by
  have hscan := h.scan_chunkKey hlen hend
  have hpos : 0 < toastMaxChunkSize := by decide
  have hchunks : sv.Chunks data.length (off / toastMaxChunkSize)
      (rel.scan valueid (chunkKey data.length off len))
      (((chunks toastMaxChunkSize data).drop (off / toastMaxChunkSize)).take
        ((off + len - 1) / toastMaxChunkSize + 1 - off / toastMaxChunkSize)) := by
    rw [hscan]
    refine chunks_chunkColumns fun i t ht => ?_
    rw [List.getElem?_take] at ht
    split at ht
    · rw [List.getElem?_drop] at ht
      exact length_of_getElem?_chunks hpos ht
    · cases ht
  have hcount : off / toastMaxChunkSize + (rel.scan valueid (chunkKey data.length off len)).length
      = (off + len - 1) / toastMaxChunkSize + 1 := by
    have hlast := (lt_length_chunks_iff hpos data ((off + len - 1) / toastMaxChunkSize)).mpr
      (by simp only [toastMaxChunkSize]; omega)
    have hs : off / toastMaxChunkSize ≤ (off + len - 1) / toastMaxChunkSize :=
      Nat.div_le_div_right (by omega)
    rw [hscan, length_chunkColumns, List.length_take, List.length_drop]
    omega
  rw [Server.heapFetchToastSlice_eq hlen hend hchunks hcount hhdr hjunk,
    flatten_drop_take_chunks hpos]
  refine congrArg (fun bs => Except.ok (hdr ++ bs)) ?_
  rw [List.drop_take, List.drop_drop, List.take_take, Nat.div_add_mod', Nat.min_eq_left]
  simp only [toastMaxChunkSize] at *
  omega

end

end Server
