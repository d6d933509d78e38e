import Mathlib.Data.List.TakeWhile
import Hoco.RleToken

/-!
# The run length compressor

`rleCompress` follows `rle_compress`. The compressor walks the source with a
read position `dp` and a write position `bp`, and keeps between the two a
**staging buffer** of literal bytes that have been read but not written yet.
The three pointers are modelled by what lies before or after them: the bytes
still to read, the bytes staged, the bytes written. Nothing depends on where
the buffers lie in memory.

The buffer is emptied on three occasions: before a run token, when it has
reached the literal limit, and at the end. The second occasion is the
delicate one. Bytes are staged one or two at a time and the limit is tested
only afterwards, so the buffer can hold one byte more than a literal token
takes; `store_single_buf` moves what is left over to the front of the buffer
and then resets the write position to the front as well, over the byte it has
just saved. The model does the same: the left-over byte is gone.

The second half of the module says what the loop does to its source without
the buffers. A source falls into **pieces** – a run emitted as run tokens, or
one or two bytes staged together, the last bytes of the source staged as they
are – and one turn of the loop handles one piece (`flushFull_stage_eq_put`).
-/

/-- The 32-bit signed value of an integer. -/
def int32 (x : ℤ) : ℤ := Int.bmod x (2 ^ 32)

theorem int32_eq_self {x : ℤ} (h₀ : -2 ^ 31 ≤ x) (h : x < 2 ^ 31) : int32 x = x :=
  Int.bmod_eq_of_le (by omega) (by omega)

/-- A number that is too large wraps around. -/
theorem int32_eq_sub {x : ℤ} (h₀ : 2 ^ 31 ≤ x) (h : x < 2 ^ 32 + 2 ^ 31) :
    int32 x = x - 2 ^ 32 := by
  rw [int32, Int.bmod_def]
  split <;> omega

namespace Rle

/-- The largest value of a C `int`. -/
def intMax : ℤ := 2147483647

/-- When to try compression at all, and how much it has to save. -/
structure Strategy where
  /-- Sources shorter than this are not compressed. -/
  minInputSize : ℤ
  /-- Sources longer than this are not compressed. -/
  maxInputSize : ℤ
  /-- The percentage that compression has to save. -/
  minCompRate : ℤ

/-- The strategy in force when the caller gives none. -/
def rleDefaultStrategy : Strategy := ⟨32, intMax, 25⟩

/-- The state of the compression loop. -/
structure CompressState where
  /-- The source bytes from `dp` to `dend`. -/
  dp : List UInt8
  /-- The staged bytes, from `buf_base` to `buf`. -/
  buf : List UInt8
  /-- The bytes written, from `bstart` to `bp`. -/
  out : List UInt8

/-- The macro `buf_copy_ctrl`: one byte moves from the source to the staging
buffer. -/
def bufCopyCtrl (st : CompressState) : CompressState :=
  { st with dp := st.dp.drop 1, buf := st.buf ++ st.dp.take 1 }

/-- The macro `store_single_buf`: the staged bytes become a literal token. -/
def storeSingleBuf (reachMax : Bool) (st : CompressState) : CompressState :=
  if reachMax then
    -- what the token does not take is copied to the front of the buffer, and
    -- then `buf` is set to the front too: the next byte overwrites the copy
    { st with
      buf := []
      out := st.out ++ UInt8.ofNat maxSingleStoreSize :: st.buf.take maxSingleStoreSize }
  else
    { st with
      buf := []
      out := st.out ++ UInt8.ofNat st.buf.length :: st.buf }

/-- The inner loop that measures a run: `curIndex` grows while the byte after
the two already known to agree agrees as well. -/
def scanRun (dp : List UInt8) : ℕ → ℕ → ℕ
  | 0, curIndex => curIndex
  | fuel + 1, curIndex =>
    if curIndex + 2 < dp.length ∧ dp[curIndex + 1]? = dp[curIndex + 2]? then
      scanRun dp fuel (curIndex + 1)
    else curIndex

/-- The emission loop: run tokens of at most `maxRepeatedSize` copies while
the counter, which runs two below the bytes left, is positive. -/
def emitRun (curChar : UInt8) : ℕ → ℤ → CompressState → CompressState
  | 0, _, st => st
  | fuel + 1, curIndex, st =>
    if curIndex > 0 then
      emitRun curChar fuel (curIndex - maxRepeatedSize)
        { st with
          dp := st.dp.drop
            (if curIndex + 2 > maxRepeatedSize then maxRepeatedSize else (curIndex + 2).toNat)
          out := st.out ++
            [UInt8.ofNat
              ((if curIndex + 2 > maxRepeatedSize then maxRepeatedSize - threshold
                else (curIndex + 2 - threshold).toNat) ||| 128), curChar] }
    else st

/-- The body of the main loop up to the test of the buffer: emit the run that
starts here, or stage the one or two bytes that are not a run. -/
def stage (st : CompressState) : CompressState :=
  match st.dp with
  | a :: b :: c :: _ =>
    if a = b then
      if b = c then
        let curIndex := scanRun st.dp st.dp.length 1
        emitRun a curIndex curIndex (if st.buf ≠ [] then storeSingleBuf false st else st)
      else bufCopyCtrl (bufCopyCtrl st)
    else bufCopyCtrl st
  | _ => st

/-- The test after staging: a buffer that has reached the limit is written. -/
def flushFull (st : CompressState) : CompressState :=
  if maxSingleStoreSize ≤ st.buf.length then storeSingleBuf true st else st

/-- The main loop. It leaves with an error, and the bytes written so far, when
the output has already reached the size allowed. -/
def compressLoop (resultMax : ℤ) : ℕ → CompressState → Except CompressState CompressState
  | 0, st => .ok st
  | fuel + 1, st =>
    if threshold ≤ st.dp.length then
      if resultMax ≤ st.out.length then .error st
      else compressLoop resultMax fuel (flushFull (stage st))
    else .ok st

/-- What follows the main loop: the last bytes of the source are staged
together, and the buffer is written. -/
def storeTail (st : CompressState) : CompressState :=
  let st := flushFull { st with dp := [], buf := st.buf ++ st.dp }
  if st.buf ≠ [] then storeSingleBuf false st else st

/-- The percentage to save, brought into the range `0..99`. -/
def needRate (strategy : Strategy) : ℤ :=
  if strategy.minCompRate < 0 then 0
  else if strategy.minCompRate > 99 then 99
  else strategy.minCompRate

/-- The size the output has to stay below. -/
def resultMax (slen : ℤ) (strategy : Strategy) : ℤ :=
  if slen > intMax / 100 then slen / 100 * (100 - needRate strategy)
  else slen * (100 - needRate strategy) / 100

/-- **`rle_compress`**: what it returns, and the bytes it has written to `dest`. The size
of the output is kept in an `int32`, and compared as one. -/
def rleCompressResult (source : List UInt8) (strategy : Option Strategy) : ℤ × List UInt8 :=
  let strategy := strategy.getD rleDefaultStrategy
  let slen : ℤ := source.length
  if slen < strategy.minInputSize ∨ slen > strategy.maxInputSize then (-1, [])
  else
    match compressLoop (resultMax slen strategy) source.length ⟨source, [], []⟩ with
    | .error st => (-1, st.out)
    | .ok st =>
      let st := storeTail st
      let resultSize := int32 st.out.length
      if resultMax slen strategy ≤ resultSize then (-1, st.out) else (resultSize, st.out)

/-- `rle_compress` as its caller takes it: the bytes written to `dest`, or nothing where
what is returned is negative. -/
def rleCompress (source : List UInt8) (strategy : Option Strategy) : Option (List UInt8) :=
  let result := rleCompressResult source strategy
  if result.1 < 0 then none else some result.2

/-! ## The pieces of a source -/

/-- How many bytes at the front of a string agree with its first byte. -/
def runLength : List UInt8 → ℕ
  | [] => 0
  | a :: dp => (dp.takeWhile (fun x => decide (x = a))).length + 1

/-- How many bytes of a run of `m` the run tokens take: what is left over from
whole tokens is taken too unless it is shorter than the shortest run. -/
def runCover (m : ℕ) : ℕ :=
  if m % maxRepeatedSize < threshold then m - m % maxRepeatedSize else m

/-- The run tokens for a run of `m` copies of `b`. -/
def runTokens (b : UInt8) (m : ℕ) : List Token :=
  List.replicate (m / maxRepeatedSize) (Token.run b 127) ++
    if m % maxRepeatedSize < threshold then []
    else [Token.run b (Fin.ofNat 128 (m % maxRepeatedSize - threshold))]

/-- A piece of the source: what one turn of the loop, or the tail, handles. -/
inductive Piece where
  /-- A run of `m ≥ 3` copies of a byte, of which run tokens take `runCover m`. -/
  | run (b : UInt8) (m : ℕ)
  /-- Bytes staged together: a single byte, an equal pair, or the tail. -/
  | staged (bs : List UInt8)

/-- The source bytes a piece accounts for. -/
def Piece.bytes : Piece → List UInt8
  | .run b m => List.replicate (runCover m) b
  | .staged bs => bs

/-- The pieces of a source, in order. The first argument bounds the number of
pieces before the tail; the length of the source is always enough. -/
def piecesFrom : ℕ → List UInt8 → List Piece
  | 0, dp => [.staged dp]
  | fuel + 1, a :: b :: c :: dp =>
    if a = b then
      if b = c then
        .run a (runLength (a :: b :: c :: dp)) ::
          piecesFrom fuel ((a :: b :: c :: dp).drop (runCover (runLength (a :: b :: c :: dp))))
      else .staged [a, b] :: piecesFrom fuel (c :: dp)
    else .staged [a] :: piecesFrom fuel (b :: c :: dp)
  | _ + 1, dp => [.staged dp]

/-- The pieces of a whole source. -/
def pieces (source : List UInt8) : List Piece := piecesFrom source.length source

/-- What handling a piece does to the staged and the written bytes. -/
def putPiece (s : List UInt8 × List UInt8) : Piece → List UInt8 × List UInt8
  | .run b m =>
    ([], s.2 ++ (if s.1 = [] then [] else UInt8.ofNat s.1.length :: s.1)
      ++ encode (runTokens b m))
  | .staged bs =>
    if maxSingleStoreSize ≤ (s.1 ++ bs).length then
      ([], s.2 ++ UInt8.ofNat maxSingleStoreSize :: (s.1 ++ bs).take maxSingleStoreSize)
    else (s.1 ++ bs, s.2)

/-- What the end of the compression does: the staged bytes become the last
token. -/
def finish (s : List UInt8 × List UInt8) : List UInt8 :=
  s.2 ++ if s.1 = [] then [] else UInt8.ofNat s.1.length :: s.1

/-! ## The inner loops -/

/-- The front run of a string, split off. -/
theorem eq_replicate_append_of_runLength (a : UInt8) (dp : List UInt8) :
    ∃ rest, a :: dp = List.replicate (runLength (a :: dp)) a ++ rest ∧ rest.head? ≠ some a := by
  refine ⟨dp.dropWhile (fun x => decide (x = a)), ?_, ?_⟩
  · have htake : dp.takeWhile (fun x => decide (x = a))
        = List.replicate (dp.takeWhile (fun x => decide (x = a))).length a := by
      refine List.eq_replicate_iff.mpr ⟨rfl, fun x hx => ?_⟩
      simpa using List.mem_takeWhile_imp hx
    show a :: dp = List.replicate ((dp.takeWhile (fun x => decide (x = a))).length + 1) a ++ _
    rw [List.replicate_succ, ← htake, List.cons_append, List.takeWhile_append_dropWhile]
  · intro h
    have hne : dp.dropWhile (fun x => decide (x = a)) ≠ [] := by
      intro hnil
      rw [hnil] at h
      exact absurd h (by simp)
    have hfalse := List.head_dropWhile_not (fun x => decide (x = a)) hne
    rw [List.head?_eq_some_head hne] at h
    rw [Option.some.inj h] at hfalse
    simp at hfalse

/-- **The measuring loop finds the run**: started inside a run of `m` bytes it
stops two below `m`. -/
theorem scanRun_eq {a : UInt8} {m : ℕ} {rest : List UInt8} (hrest : rest.head? ≠ some a) :
    ∀ (fuel i : ℕ), i + 2 ≤ m → m ≤ fuel + i + 2 →
      scanRun (List.replicate m a ++ rest) fuel i = m - 2 := by
  intro fuel
  induction fuel with
  | zero =>
    intro i h₁ h₂
    rw [scanRun]
    omega
  | succ fuel ih =>
    intro i h₁ h₂
    have hfst : (List.replicate m a ++ rest)[i + 1]? = some a := by
      rw [List.getElem?_append_left (by rw [List.length_replicate]; omega)]
      exact List.getElem?_replicate_of_lt (by omega)
    rw [scanRun, hfst]
    rcases Nat.lt_or_ge (i + 2) m with hlt | hge
    · have hsnd : (List.replicate m a ++ rest)[i + 2]? = some a := by
        rw [List.getElem?_append_left (by rw [List.length_replicate]; omega)]
        exact List.getElem?_replicate_of_lt hlt
      rw [hsnd, if_pos ⟨by rw [List.length_append, List.length_replicate]; omega, rfl⟩]
      exact ih (i + 1) (by omega) (by omega)
    · -- the run ends here: the next byte is missing or another one
      have hsnd : (List.replicate m a ++ rest)[i + 2]? ≠ some a := by
        rw [List.getElem?_append_right (by rw [List.length_replicate]; omega),
          List.length_replicate, show i + 2 - m = 0 by omega, ← List.head?_eq_getElem?]
        exact hrest
      rw [if_neg (fun h => hsnd h.2.symm)]
      omega

theorem runCover_le (m : ℕ) : runCover m ≤ m := by
  unfold runCover
  split <;> omega

/-- Past a whole token the run is a shorter run. -/
theorem runCover_of_gt {m : ℕ} (h : maxRepeatedSize < m) :
    runCover m = maxRepeatedSize + runCover (m - maxRepeatedSize) := by
  simp only [runCover, maxRepeatedSize, threshold] at *
  split <;> split <;> omega

/-- A run that fits one token is taken whole. -/
theorem runCover_of_le {m : ℕ} (h₁ : threshold ≤ m) (h₂ : m ≤ maxRepeatedSize) :
    runCover m = m := by
  simp only [runCover, maxRepeatedSize, threshold] at *
  split <;> omega

theorem runCover_of_lt {m : ℕ} (h : m < threshold) : runCover m = 0 := by
  simp only [runCover, maxRepeatedSize, threshold] at *
  split <;> omega

theorem runTokens_of_gt (b : UInt8) {m : ℕ} (h : maxRepeatedSize < m) :
    runTokens b m = Token.run b 127 :: runTokens b (m - maxRepeatedSize) := by
  have hdiv : m / maxRepeatedSize = (m - maxRepeatedSize) / maxRepeatedSize + 1 := by
    simp only [maxRepeatedSize] at *
    omega
  have hmod : m % maxRepeatedSize = (m - maxRepeatedSize) % maxRepeatedSize := by
    simp only [maxRepeatedSize] at *
    omega
  unfold runTokens
  rw [hdiv, List.replicate_succ, List.cons_append, hmod]

/-- A run that fits one token is one token. -/
theorem runTokens_of_le (b : UInt8) {m : ℕ} (h₁ : threshold ≤ m) (h₂ : m ≤ maxRepeatedSize) :
    runTokens b m = [Token.run b (Fin.ofNat 128 (m - threshold))] := by
  unfold runTokens
  simp only [maxRepeatedSize, threshold] at *
  rcases Nat.lt_or_ge m 130 with hlt | hge
  · rw [Nat.div_eq_of_lt hlt, Nat.mod_eq_of_lt hlt, if_neg (by omega)]
    rfl
  · obtain rfl : m = 130 := by omega
    rfl

theorem runTokens_of_lt (b : UInt8) {m : ℕ} (h : m < threshold) : runTokens b m = [] := by
  unfold runTokens
  simp only [maxRepeatedSize, threshold] at *
  rw [Nat.div_eq_of_lt (by omega), Nat.mod_eq_of_lt (by omega), if_pos h]
  rfl

/-- The run tokens stand for the bytes they take. -/
theorem expand_runTokens (b : UInt8) (m : ℕ) :
    expand (runTokens b m) = List.replicate (runCover m) b := by
  induction m using Nat.strongRecOn with
  | _ m ih =>
    rcases Nat.lt_or_ge m threshold with hlt | hge
    · rw [runTokens_of_lt b hlt, runCover_of_lt hlt]
      rfl
    · rcases Nat.lt_or_ge maxRepeatedSize m with hgt | hle
      · rw [runTokens_of_gt b hgt, runCover_of_gt hgt, expand_cons,
          ih _ (by simp only [maxRepeatedSize] at *; omega), List.replicate_add]
        rfl
      · have hk : (Fin.ofNat 128 (m - threshold) : ℕ) = m - threshold := by
          rw [Fin.val_ofNat]
          simp only [maxRepeatedSize, threshold] at *
          omega
        rw [runTokens_of_le b hge hle, runCover_of_le hge hle]
        show List.replicate ((Fin.ofNat 128 (m - threshold) : ℕ) + threshold) b ++ [] = _
        rw [hk, List.append_nil, Nat.sub_add_cancel hge]

theorem allNonempty_runTokens (b : UInt8) (m : ℕ) : AllNonempty (runTokens b m) := by
  intro t ht
  unfold runTokens at ht
  rcases List.mem_append.mp ht with h | h
  · rw [List.eq_of_mem_replicate h]
    exact Token.nonempty_run b 127
  · split at h
    · exact absurd h (by simp)
    · rw [List.mem_singleton.mp h]
      exact Token.nonempty_run b _

/-- The mark of a run token is its seven-bit count with the high bit set. -/
theorem run_mark {k : ℕ} (h : k < 128) :
    UInt8.ofNat (k ||| 128) = UInt8.ofNat (128 + k) := by
  have hor : k ||| 128 = 128 + k := by
    have := Nat.two_pow_add_eq_or_of_lt (i := 7) h 1
    rw [Nat.or_comm]
    simpa using this.symm
  rw [hor]

/-- **The emission loop writes the run tokens of its run**, and moves past
exactly the bytes they stand for. -/
theorem emitRun_eq (c : UInt8) :
    ∀ (fuel m : ℕ) (st : CompressState), m ≤ fuel + 2 →
      emitRun c fuel ((m : ℤ) - 2) st
        = { st with dp := st.dp.drop (runCover m), out := st.out ++ encode (runTokens c m) } := by
  intro fuel
  induction fuel with
  | zero =>
    intro m st hm
    have hlt : m < threshold := by simp only [threshold]; omega
    rw [emitRun, runCover_of_lt hlt, runTokens_of_lt c hlt]
    simp
  | succ fuel ih =>
    intro m st hm
    rw [emitRun]
    rcases Nat.lt_or_ge m threshold with hlt | hge
    · rw [if_neg (by simp only [threshold] at hlt; omega), runCover_of_lt hlt,
        runTokens_of_lt c hlt]
      simp
    · rw [if_pos (by simp only [threshold] at hge; omega), show (m : ℤ) - 2 + 2 = m by omega]
      rcases Nat.lt_or_ge maxRepeatedSize m with hgt | hle
      · -- a full token, and the same loop on what is left
        have hz : (maxRepeatedSize : ℤ) < m := by exact_mod_cast hgt
        rw [if_pos hz, if_pos hz,
          show (m : ℤ) - 2 - maxRepeatedSize = ((m - maxRepeatedSize : ℕ) : ℤ) - 2 by
            simp only [maxRepeatedSize] at *; omega,
          ih _ _ (by simp only [maxRepeatedSize] at *; omega), runCover_of_gt hgt,
          runTokens_of_gt c hgt]
        simp only [encode_cons, List.drop_drop, List.append_assoc]
        rfl
      · -- the last token; the counter drops below zero and the loop stops
        have hz : ¬ (maxRepeatedSize : ℤ) < m := by exact_mod_cast Nat.not_lt.mpr hle
        have hstop : ∀ st', emitRun c fuel ((m : ℤ) - 2 - maxRepeatedSize) st' = st' := by
          intro st'
          cases fuel with
          | zero => rfl
          | succ fuel =>
            rw [emitRun, if_neg (by simp only [maxRepeatedSize] at *; omega)]
        have hk : m - threshold < 128 := by
          simp only [maxRepeatedSize, threshold] at *
          omega
        rw [if_neg hz, if_neg hz, hstop, runCover_of_le hge hle, runTokens_of_le c hge hle,
          show ((m : ℤ) - threshold).toNat = m - threshold by omega, run_mark hk]
        simp only [Int.toNat_natCast, encode_cons, encode_nil, List.append_nil, Token.encode,
          Fin.val_ofNat, Nat.mod_eq_of_lt hk]

/-! ## The main loop handles piece after piece -/

/-- A piece handled in full, on the state of the loop. -/
def CompressState.put (st : CompressState) (p : Piece) (dp : List UInt8) : CompressState :=
  ⟨dp, (putPiece (st.buf, st.out) p).1, (putPiece (st.buf, st.out) p).2⟩

/-- A buffer below the limit is left alone, a full one is written. -/
theorem flushFull_stage_staged (st : CompressState) (bs dp : List UInt8) :
    flushFull { st with dp := dp, buf := st.buf ++ bs } = st.put (.staged bs) dp := by
  simp only [flushFull, CompressState.put, putPiece, storeSingleBuf]
  split <;> rfl

/-- **One turn of the loop on a run** writes the staged bytes and then the run
tokens. -/
theorem flushFull_stage_run (st : CompressState) (a : UInt8) (dp : List UInt8)
    (hdp : st.dp = a :: a :: a :: dp) :
    flushFull (stage st)
      = st.put (.run a (runLength st.dp)) (st.dp.drop (runCover (runLength st.dp))) := by
  obtain ⟨rest, hsplit, hrest⟩ := eq_replicate_append_of_runLength a (a :: a :: dp)
  rw [← hdp] at hsplit
  have hm : 3 ≤ runLength st.dp := by
    rw [hdp]
    simp [runLength]
  have hlen : runLength st.dp ≤ st.dp.length := by
    have h := congrArg List.length hsplit
    rw [List.length_append, List.length_replicate] at h
    omega
  have hscan : scanRun st.dp st.dp.length 1 = runLength st.dp - 2 := by
    have h := scanRun_eq hrest st.dp.length 1 (m := runLength st.dp) (by omega) (by omega)
    rwa [← hsplit] at h
  have hstage : stage st
      = emitRun a (scanRun st.dp st.dp.length 1) (scanRun st.dp st.dp.length 1 : ℕ)
          (if st.buf ≠ [] then storeSingleBuf false st else st) := by
    rw [stage, hdp]
    simp
  rw [hstage, hscan, show ((runLength st.dp - 2 : ℕ) : ℤ) = (runLength st.dp : ℤ) - 2 by omega,
    emitRun_eq a _ _ _ (by omega)]
  by_cases hbuf : st.buf = []
  · simp [flushFull, CompressState.put, putPiece, hbuf, maxSingleStoreSize]
  · simp [flushFull, CompressState.put, putPiece, hbuf, maxSingleStoreSize, storeSingleBuf]

/-- **One turn of the loop handles one piece**: it puts the piece, moves past
its bytes, and leaves the later pieces to the later turns. -/
theorem flushFull_stage_eq_put (st : CompressState) (hlen : threshold ≤ st.dp.length) :
    ∃ p dp', flushFull (stage st) = st.put p dp' ∧ dp'.length < st.dp.length ∧
      ∀ fuel, piecesFrom (fuel + 1) st.dp = p :: piecesFrom fuel dp' := by
  match hdp : st.dp with
  | [] | [_] | [_, _] => simp [hdp, threshold] at hlen
  | a :: b :: c :: dp =>
    by_cases hab : a = b
    · subst hab
      by_cases hbc : a = c
      · subst hbc
        have hm : 3 ≤ runLength (a :: a :: a :: dp) := by simp [runLength]
        have hpos : 0 < runCover (runLength (a :: a :: a :: dp)) := by
          simp only [runCover, maxRepeatedSize, threshold]
          split <;> omega
        refine ⟨_, _, hdp ▸ flushFull_stage_run st a dp hdp, ?_, fun fuel => ?_⟩
        · rw [List.length_drop]
          simp only [List.length_cons]
          omega
        · rw [piecesFrom, if_pos rfl, if_pos rfl]
      · refine ⟨.staged [a, a], c :: dp, ?_, by simp, fun fuel => ?_⟩
        · rw [← flushFull_stage_staged st [a, a] (c :: dp)]
          simp [stage, hdp, hbc, bufCopyCtrl]
        · rw [piecesFrom, if_pos rfl, if_neg hbc]
    · refine ⟨.staged [a], b :: c :: dp, ?_, by simp, fun fuel => ?_⟩
      · rw [← flushFull_stage_staged st [a] (b :: c :: dp)]
        simp [stage, hdp, hab, bufCopyCtrl]
      · rw [piecesFrom, if_neg hab]

/-- The tail puts the last bytes and finishes. -/
theorem storeTail_out (st : CompressState) :
    (storeTail st).out = finish (putPiece (st.buf, st.out) (.staged st.dp)) := by
  unfold storeTail
  rw [flushFull_stage_staged st st.dp []]
  unfold finish CompressState.put storeSingleBuf
  by_cases h : (putPiece (st.buf, st.out) (.staged st.dp)).1 = []
  · simp [h]
  · simp [h]

/-- With fewer bytes than a run left there is only the tail. -/
theorem piecesFrom_of_lt (fuel : ℕ) {dp : List UInt8} (h : dp.length < threshold) :
    piecesFrom fuel dp = [.staged dp] := by
  match fuel, dp with
  | 0, _ => rfl
  | _ + 1, [] | _ + 1, [_] | _ + 1, [_, _] => rfl
  | _ + 1, _ :: _ :: _ :: _ =>
    simp only [List.length_cons, threshold] at h
    omega

/-- **The loop and the tail write what the pieces give.** Where the loop does
not give up, the output is that of the pieces put one after the other, for any
bound on the number of turns. -/
theorem storeTail_out_of_compressLoop (limit : ℤ) :
    ∀ (fuel : ℕ) (st st' : CompressState), compressLoop limit fuel st = .ok st' →
      (storeTail st').out
        = finish ((piecesFrom fuel st.dp).foldl putPiece (st.buf, st.out)) := by
  intro fuel
  induction fuel with
  | zero =>
    intro st st' h
    rw [compressLoop] at h
    cases h
    exact storeTail_out st
  | succ fuel ih =>
    intro st st' h
    rw [compressLoop] at h
    split at h
    · rename_i hlen
      split at h
      · cases h
      · obtain ⟨p, dp', hput, -, hpieces⟩ := flushFull_stage_eq_put st hlen
        rw [hput] at h
        rw [hpieces]
        exact ih _ _ h
    · rename_i hlen
      cases h
      rw [piecesFrom_of_lt _ (Nat.not_le.mp hlen)]
      exact storeTail_out st

/-- The bound on the turns is never what ends the loop: it ends when fewer
bytes than a run are left. -/
theorem compressLoop_dp_length (limit : ℤ) :
    ∀ (fuel : ℕ) (st st' : CompressState), compressLoop limit fuel st = .ok st' →
      st.dp.length ≤ fuel → st'.dp.length < threshold := by
  intro fuel
  induction fuel with
  | zero =>
    intro st st' h hfuel
    rw [compressLoop] at h
    cases h
    simp only [threshold]
    omega
  | succ fuel ih =>
    intro st st' h hfuel
    rw [compressLoop] at h
    split at h
    · rename_i hlen
      split at h
      · cases h
      · obtain ⟨p, dp', hput, hlt, -⟩ := flushFull_stage_eq_put st hlen
        rw [hput] at h
        refine ih _ _ h ?_
        show dp'.length ≤ fuel
        omega
    · rename_i hlen
      cases h
      exact Nat.not_le.mp hlen

/-- **A compression that succeeds** is one of a source that the strategy admits, and its
loop has come to the end. -/
theorem of_rleCompress_eq_some {source dest : List UInt8} {strategy : Option Strategy}
    (h : rleCompress source strategy = some dest) :
    ¬ ((source.length : ℤ) < (strategy.getD rleDefaultStrategy).minInputSize
        ∨ (source.length : ℤ) > (strategy.getD rleDefaultStrategy).maxInputSize)
      ∧ ∃ st, compressLoop (resultMax source.length (strategy.getD rleDefaultStrategy))
          source.length ⟨source, [], []⟩ = .ok st ∧ (storeTail st).out = dest := by
  unfold rleCompress at h
  simp only at h
  by_cases hneg : (rleCompressResult source strategy).1 < 0
  · rw [if_pos hneg] at h
    cases h
  rw [if_neg hneg] at h
  have hout := Option.some.inj h
  unfold rleCompressResult at hneg hout
  simp only at hneg hout
  by_cases hsuited : (source.length : ℤ) < (strategy.getD rleDefaultStrategy).minInputSize
      ∨ (source.length : ℤ) > (strategy.getD rleDefaultStrategy).maxInputSize
  · rw [if_pos hsuited] at hneg
    exact absurd (by decide) hneg
  rw [if_neg hsuited] at hneg hout
  refine ⟨hsuited, ?_⟩
  cases hloop : compressLoop (resultMax source.length (strategy.getD rleDefaultStrategy))
      source.length ⟨source, [], []⟩ with
  | error st =>
    rw [hloop] at hneg
    exact absurd (show (-1 : ℤ) < 0 by decide) hneg
  | ok st =>
    rw [hloop] at hout
    refine ⟨st, rfl, ?_⟩
    simp only at hout
    split at hout <;> exact hout

/-- **What the compressor writes**, when it succeeds: the output of the pieces
of its source. -/
theorem rleCompress_eq_some {source dest : List UInt8} {strategy : Option Strategy}
    (h : rleCompress source strategy = some dest) :
    dest = finish ((pieces source).foldl putPiece ([], [])) := by
  obtain ⟨-, st, hloop, rfl⟩ := of_rleCompress_eq_some h
  exact storeTail_out_of_compressLoop _ _ _ _ hloop

end Rle
