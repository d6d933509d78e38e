import Mathlib.Data.List.Chain
import Hoco.RleBounds

/-!
# The size of the output

`rle_compress` tests the size of its output twice.

The test at the top of the main loop saves work and nothing else. It looks at the bytes
written only, and what is written stays, so a loop that is left early would have ended
with at least as much. `encodeLoop` is the loop without the test.

For the test at the end the size is first put into an `int32`. The source has `INT_MAX`
bytes at most, but a literal of 127 bytes is written as 128, so its encoding can have more
than an `int32` holds, and then a negative size is compared and returned. The other test
does not always come before that: it sees the output as it was before the last turn, and up
to 131 bytes are written behind it. So the tests do what they should unless the size wraps
around (`exitsSafely_iff`), and there is a source for which it does, when nothing has to be
saved (`brink`).
-/

namespace Rle

/-! ## The loop without the test of the output -/

/-- The main loop as it would be without its first statement. -/
def encodeLoop : ℕ → CompressState → CompressState
  | 0, st => st
  | fuel + 1, st =>
    if threshold ≤ st.dp.length then encodeLoop fuel (flushFull (stage st)) else st

/-- The encoding of a source, whatever its size. -/
def rleEncode (source : List UInt8) : List UInt8 :=
  (storeTail (encodeLoop source.length ⟨source, [], []⟩)).out

/-- What is written stays. -/
theorem exists_putPiece_eq (s : List UInt8 × List UInt8) (p : Piece) :
    ∃ bs, (putPiece s p).2 = s.2 ++ bs := by
  cases p with
  | run b m => exact ⟨_, List.append_assoc ..⟩
  | staged bs =>
    rw [putPiece]
    split
    · exact ⟨_, rfl⟩
    · exact ⟨[], (List.append_nil _).symm⟩

theorem out_length_le_flushFull_stage {st : CompressState} (h : threshold ≤ st.dp.length) :
    st.out.length ≤ (flushFull (stage st)).out.length := by
  obtain ⟨p, dp', hput, -, -⟩ := flushFull_stage_eq_put st h
  obtain ⟨bs, hbs⟩ := exists_putPiece_eq (st.buf, st.out) p
  rw [hput]
  show _ ≤ (putPiece (st.buf, st.out) p).2.length
  rw [hbs, List.length_append]
  exact Nat.le_add_right _ _

theorem out_length_le_encodeLoop (fuel : ℕ) (st : CompressState) :
    st.out.length ≤ (encodeLoop fuel st).out.length := by
  induction fuel generalizing st with
  | zero => exact Nat.le_refl _
  | succ fuel ih =>
    rw [encodeLoop]
    split
    · rename_i hlen
      exact (out_length_le_flushFull_stage hlen).trans (ih _)
    · exact Nat.le_refl _

theorem out_length_le_storeTail (st : CompressState) :
    st.out.length ≤ (storeTail st).out.length := by
  obtain ⟨bs, hbs⟩ := exists_putPiece_eq (st.buf, st.out) (.staged st.dp)
  rw [storeTail_out, finish, List.length_append, hbs, List.length_append, Nat.add_assoc]
  exact Nat.le_add_right _ _

/-- The bound on the turns is not what ends the loop. -/
theorem encodeLoop_dp_length (fuel : ℕ) (st : CompressState) (h : st.dp.length ≤ fuel) :
    (encodeLoop fuel st).dp.length < threshold := by
  induction fuel generalizing st with
  | zero => exact Nat.lt_of_le_of_lt h (by decide)
  | succ fuel ih =>
    rw [encodeLoop]
    split
    · rename_i hlen
      obtain ⟨p, dp', hput, hlt, -⟩ := flushFull_stage_eq_put st hlen
      refine ih _ ?_
      rw [hput]
      exact Nat.le_of_lt_succ (Nat.lt_of_lt_of_le hlt h)
    · rename_i hlen
      exact Nat.not_le.mp hlen

/-- **The loop with the test** ends in the same state, or it is left when the bytes
written have reached the limit, and the other loop writes no fewer. -/
theorem compressLoop_eq (limit : ℤ) (fuel : ℕ) (st : CompressState) :
    compressLoop limit fuel st = .ok (encodeLoop fuel st)
      ∨ (∃ st', compressLoop limit fuel st = .error st')
        ∧ limit ≤ (encodeLoop fuel st).out.length := by
  induction fuel generalizing st with
  | zero => exact Or.inl rfl
  | succ fuel ih =>
    rw [compressLoop, encodeLoop]
    by_cases hlen : threshold ≤ st.dp.length
    · rw [if_pos hlen, if_pos hlen]
      by_cases hlimit : limit ≤ st.out.length
      · rw [if_pos hlimit]
        refine Or.inr ⟨⟨st, rfl⟩, Int.le_trans hlimit (Int.ofNat_le.mpr ?_)⟩
        exact (out_length_le_flushFull_stage hlen).trans (out_length_le_encodeLoop _ _)
      · rw [if_neg hlimit]
        exact ih _
    · rw [if_neg hlen, if_neg hlen]
      exact Or.inl rfl

/-! ## The size allowed -/

theorem needRate_eq (strategy : Strategy) :
    needRate strategy = max 0 (min 99 strategy.minCompRate) := by
  unfold needRate
  split
  · omega
  · split <;> omega

/-- The product that `result_max` is computed from: of the hundredth part of the
length where the whole length would be too large. -/
def resultProduct (slen : ℤ) (strategy : Strategy) : ℤ :=
  if slen > intMax / 100 then slen / 100 * (100 - needRate strategy)
  else slen * (100 - needRate strategy)

theorem resultMax_eq (slen : ℤ) (strategy : Strategy) :
    resultMax slen strategy = if slen > intMax / 100 then resultProduct slen strategy
      else resultProduct slen strategy / 100 := by
  unfold resultMax resultProduct
  split <;> rfl

/-- **The computation of `result_max` stays in the range of an `int`**, and its result
in that of the source. -/
theorem resultProduct_bounds {slen : ℤ} (h₀ : 0 ≤ slen) (h₁ : slen ≤ intMax)
    (strategy : Strategy) :
    (0 ≤ resultProduct slen strategy ∧ resultProduct slen strategy ≤ intMax)
      ∧ 0 ≤ resultMax slen strategy ∧ resultMax slen strategy ≤ slen := by
  obtain ⟨hr₀, hr₁⟩ : 1 ≤ 100 - needRate strategy ∧ 100 - needRate strategy ≤ 100 := by
    rw [needRate_eq]
    omega
  have hbound : ∀ {n : ℤ}, 0 ≤ n → 0 ≤ n * (100 - needRate strategy)
      ∧ n * (100 - needRate strategy) ≤ n * 100 := fun hn =>
    ⟨Int.mul_nonneg hn (by omega), Int.mul_le_mul_of_nonneg_left hr₁ hn⟩
  rw [resultMax_eq, resultProduct]
  unfold intMax at *
  split
  · obtain ⟨hlow, hhigh⟩ := hbound (n := slen / 100) (by omega)
    omega
  · obtain ⟨hlow, hhigh⟩ := hbound h₀
    omega

/-! ## How large the encoding is -/

/-- The encoding is the output of the pieces of the source. -/
theorem rleEncode_eq (source : List UInt8) :
    rleEncode source = finish ((pieces source).foldl putPiece ([], [])) := by
  -- a limit that is not reached
  obtain ⟨st, hst⟩ : ∃ st, encodeLoop source.length ⟨source, [], []⟩ = st := ⟨_, rfl⟩
  rcases compressLoop_eq (st.out.length + 1) source.length ⟨source, [], []⟩ with hloop | ⟨-, hle⟩
  · rw [rleEncode]
    exact storeTail_out_of_compressLoop _ _ _ _ hloop
  · rw [hst] at hle
    omega

theorem runTokens_length_le (b : UInt8) (m : ℕ) : (runTokens b m).length ≤ runCover m := by
  unfold runTokens runCover
  split
  · simp only [List.append_nil, List.length_replicate, maxRepeatedSize]
    omega
  · rename_i hge
    simp only [List.length_append, List.length_replicate, List.length_singleton, maxRepeatedSize,
      threshold] at *
    omega

/-- A piece is written with two bytes for each of its own at most. -/
theorem putSize_le (k n : ℕ) (p : Piece) :
    (putSize k n p).2 + 2 * (putSize k n p).1 ≤ n + 2 * k + 2 * p.bytes.length := by
  cases p with
  | run b m =>
    have htokens := runTokens_length_le b m
    have hliteral : literalSize k ≤ 2 * k := by
      unfold literalSize
      split <;> omega
    simp only [putSize, Piece.bytes, List.length_replicate]
    omega
  | staged bs =>
    simp only [putSize, Piece.bytes, maxSingleStoreSize]
    split <;> simp only <;> omega

theorem sizesFrom_le (s : ℕ × ℕ) (ps : List Piece) :
    (sizesFrom s ps).2 + 2 * (sizesFrom s ps).1 ≤ s.2 + 2 * s.1 + 2 * size ps := by
  induction ps generalizing s with
  | nil => simp [sizesFrom]
  | cons p ps ih =>
    have hput := putSize_le s.1 s.2 p
    have hrest := ih (putSize s.1 s.2 p)
    have hsize : size (p :: ps) = p.bytes.length + size ps := rfl
    have hcons : sizesFrom s (p :: ps) = sizesFrom (putSize s.1 s.2 p) ps := rfl
    rw [hcons, hsize]
    omega

theorem foldl_putPiece_length (s : List UInt8 × List UInt8) (ps : List Piece) :
    ((ps.foldl putPiece s).1.length, (ps.foldl putPiece s).2.length)
      = sizesFrom (s.1.length, s.2.length) ps := by
  induction ps generalizing s with
  | nil => rfl
  | cons p ps ih =>
    rw [List.foldl_cons, ih]
    exact congrArg (sizesFrom · ps) (putPiece_length s p)

/-- The length of the encoding, from the lengths of the pieces. -/
theorem length_rleEncode (source : List UInt8) :
    (rleEncode source).length
      = (sizesFrom (0, 0) (pieces source)).2 + literalSize (sizesFrom (0, 0) (pieces source)).1 := by
  have hlength := foldl_putPiece_length ([], []) (pieces source)
  rw [List.length_nil] at hlength
  rw [rleEncode_eq, finish_length, ← hlength]

theorem length_rleEncode_le (source : List UInt8) :
    (rleEncode source).length ≤ 2 * source.length := by
  have hle := sizesFrom_le (0, 0) (pieces source)
  have hsize : size (pieces source) = source.length :=
    (pieced_piecesFrom source.length source (Nat.le_refl _)).2
  have hliteral : ∀ k, literalSize k ≤ 2 * k := fun k => by
    unfold literalSize
    split <;> omega
  have hlast := hliteral (sizesFrom (0, 0) (pieces source)).1
  rw [length_rleEncode]
  simp only at hle
  omega

/-! ## What is returned -/

section Result

variable (source : List UInt8) (given : Option Strategy)

/-- The strategy does not admit the length of the source. -/
def Unsuited : Prop :=
  (source.length : ℤ) < (given.getD rleDefaultStrategy).minInputSize
    ∨ (source.length : ℤ) > (given.getD rleDefaultStrategy).maxInputSize

/-- The encoding has reached the size allowed. -/
def TooLong : Prop :=
  resultMax source.length (given.getD rleDefaultStrategy) ≤ (rleEncode source).length

/-- **The early exit changes nothing but effort**: what is returned is `-1` where the
strategy does not admit the source or the encoding – that of the loop that goes on until
there are too few bytes left for a run – has reached `result_max`, and there only; otherwise
it is the length of the encoding, and the encoding has been written. -/
def ExitsSafely : Prop :=
  ((rleCompressResult source given).1 = -1 ↔ Unsuited source given ∨ TooLong source given)
    ∧ (¬ (Unsuited source given ∨ TooLong source given) →
      rleCompressResult source given = (((rleEncode source).length : ℤ), rleEncode source))

/-- The loop is not left early. -/
def ReachesEnd : Prop :=
  ∃ st, compressLoop (resultMax source.length (given.getD rleDefaultStrategy)) source.length
    ⟨source, [], []⟩ = .ok st

/-- **The size wraps around**: the loop comes to the end of a source that the strategy
admits, and the encoding is longer than an `int32` can say. -/
def SizeWraps : Prop :=
  ¬ Unsuited source given ∧ ReachesEnd source given ∧ 2 ^ 31 ≤ (rleEncode source).length

variable {source given}

theorem rleCompressResult_of_unsuited (h : Unsuited source given) :
    rleCompressResult source given = (-1, []) := if_pos h

/-- Where the loop is left early, the encoding is too long as well. -/
theorem rleCompressResult_of_not_reachesEnd (h : ¬ Unsuited source given)
    (hend : ¬ ReachesEnd source given) :
    (rleCompressResult source given).1 = -1 ∧ TooLong source given := by
  rcases compressLoop_eq (resultMax source.length (given.getD rleDefaultStrategy)) source.length
    ⟨source, [], []⟩ with hloop | ⟨⟨st, hloop⟩, hlimit⟩
  · exact absurd ⟨_, hloop⟩ hend
  · constructor
    · unfold Unsuited at h
      unfold rleCompressResult
      simp only
      rw [if_neg h, hloop]
    · exact Int.le_trans hlimit (Int.ofNat_le.mpr (out_length_le_storeTail _))

/-- Behind the loop, the size is the `int32` of the length of the encoding. -/
theorem rleCompressResult_of_reachesEnd (h : ¬ Unsuited source given)
    (hend : ReachesEnd source given) :
    rleCompressResult source given
      = if resultMax source.length (given.getD rleDefaultStrategy)
            ≤ int32 (rleEncode source).length then (-1, rleEncode source)
        else (int32 (rleEncode source).length, rleEncode source) := by
  obtain ⟨st, hst⟩ := hend
  obtain rfl : st = encodeLoop source.length ⟨source, [], []⟩ := by
    rcases compressLoop_eq (resultMax source.length (given.getD rleDefaultStrategy)) source.length
      ⟨source, [], []⟩ with hloop | ⟨⟨st', hloop⟩, -⟩
    · rw [hst] at hloop
      exact Except.ok.inj hloop
    · rw [hst] at hloop
      cases hloop
  unfold Unsuited at h
  unfold rleCompressResult
  simp only
  rw [if_neg h, hst]
  rfl

/-- A size that wraps around is returned as a negative number other than `-1`. -/
theorem SizeWraps.rleCompressResult_eq (h : SizeWraps source given)
    (hslen : (source.length : ℤ) ≤ intMax) :
    rleCompressResult source given = (((rleEncode source).length : ℤ) - 2 ^ 32, rleEncode source)
      ∧ ((rleEncode source).length : ℤ) - 2 ^ 32 < -1 := by
  obtain ⟨hsuited, hend, hlong⟩ := h
  have hle := length_rleEncode_le source
  have hmax := (resultProduct_bounds (Int.natCast_nonneg source.length) hslen
    (given.getD rleDefaultStrategy)).2.1
  unfold intMax at hslen
  rw [rleCompressResult_of_reachesEnd hsuited hend, int32_eq_sub (by omega) (by omega),
    if_neg (by omega)]
  exact ⟨rfl, by omega⟩

/-- The encoding is too long, and what is returned does not say so. -/
theorem SizeWraps.not_exitsSafely (h : SizeWraps source given)
    (hslen : (source.length : ℤ) ≤ intMax) : ¬ ExitsSafely source given := by
  intro hsafe
  obtain ⟨hresult, hneg⟩ := h.rleCompressResult_eq hslen
  have hlong := h.2.2
  have htoolong : TooLong source given := by
    have hmax := (resultProduct_bounds (Int.natCast_nonneg source.length) hslen
      (given.getD rleDefaultStrategy)).2.2
    unfold TooLong intMax at *
    omega
  have hminus := hsafe.1.mpr (Or.inr htoolong)
  rw [hresult] at hminus
  exact absurd hminus (Int.ne_of_lt hneg)

/-- **When the early exit changes nothing but effort**: unless the size wraps around. For
every source, the loop that is not left early ends when there are too few bytes left for a
run; the rate is brought into `0..99`; and for no length does the computation of `result_max`
leave the range of an `int` or its result exceed the length. -/
theorem exitsSafely_iff (hslen : (source.length : ℤ) ≤ intMax) :
    (ExitsSafely source given ↔ ¬ SizeWraps source given)
      ∧ (encodeLoop source.length ⟨source, [], []⟩).dp.length < threshold
      ∧ needRate (given.getD rleDefaultStrategy)
        = max 0 (min 99 (given.getD rleDefaultStrategy).minCompRate)
      ∧ ∀ slen : ℤ, 0 ≤ slen → slen ≤ intMax →
        (0 ≤ resultProduct slen (given.getD rleDefaultStrategy)
          ∧ resultProduct slen (given.getD rleDefaultStrategy) ≤ intMax)
        ∧ 0 ≤ resultMax slen (given.getD rleDefaultStrategy)
        ∧ resultMax slen (given.getD rleDefaultStrategy) ≤ slen := by
  refine ⟨?_, encodeLoop_dp_length _ _ (Nat.le_refl _), needRate_eq _,
    fun slen h₀ h₁ => resultProduct_bounds h₀ h₁ _⟩
  by_cases hunsuited : Unsuited source given
  · refine iff_of_true ⟨?_, fun h => absurd (Or.inl hunsuited) h⟩ fun h => h.1 hunsuited
    exact iff_of_true (by rw [rleCompressResult_of_unsuited hunsuited]) (Or.inl hunsuited)
  by_cases hend : ReachesEnd source given
  · by_cases hlong : 2 ^ 31 ≤ (rleEncode source).length
    · have hwraps : SizeWraps source given := ⟨hunsuited, hend, hlong⟩
      exact iff_of_false (hwraps.not_exitsSafely hslen) (not_not.mpr hwraps)
    · -- the size is the length
      refine iff_of_true ?_ fun h => hlong h.2.2
      have hsize : int32 ((rleEncode source).length : ℤ) = (rleEncode source).length :=
        int32_eq_self (by omega) (by omega)
      have hresult := rleCompressResult_of_reachesEnd hunsuited hend
      rw [hsize] at hresult
      unfold ExitsSafely
      simp only [hresult, hunsuited, false_or]
      unfold TooLong
      split
      · rename_i htoolong
        exact ⟨iff_of_true rfl htoolong, fun h => absurd htoolong h⟩
      · rename_i htoolong
        exact ⟨iff_of_false (by simp only; omega) htoolong, fun _ => rfl⟩
  · obtain ⟨hresult, htoolong⟩ := rleCompressResult_of_not_reachesEnd hunsuited hend
    refine iff_of_true ⟨?_, fun h => absurd (Or.inr htoolong) h⟩ fun h => hend h.2.1
    exact iff_of_true hresult (Or.inr htoolong)

end Result

/-- Nine bytes of which half have to be saved: the loop is left in front of the third
run, and its encoding would have been too long. -/
theorem exitsSafely_nine :
    rleCompressResult [97, 97, 97, 98, 98, 98, 99, 99, 99] (some ⟨0, 100, 50⟩)
        = (-1, [128, 97, 128, 98])
      ∧ rleEncode [97, 97, 97, 98, 98, 98, 99, 99, 99] = [128, 97, 128, 98, 128, 99]
      ∧ ExitsSafely [97, 97, 97, 98, 98, 98, 99, 99, 99] (some ⟨0, 100, 50⟩) := by
  have hencode : rleEncode [97, 97, 97, 98, 98, 98, 99, 99, 99] = [128, 97, 128, 98, 128, 99] := by
    decide
  refine ⟨by decide, hencode, (exitsSafely_iff (by decide)).1.mpr fun h => ?_⟩
  have hlong := h.2.2
  rw [hencode] at hlong
  exact absurd hlong (by decide)

/-! ## A source whose size wraps around -/

/-- **The loop comes to the end** when the output has not reached the limit before its last
turn. -/
theorem compressLoop_of_lt {limit : ℤ} {p : Piece} {bs : List UInt8} (fuel : ℕ)
    (st : CompressState) (ps : List Piece) (hpieces : piecesFrom fuel st.dp = ps ++ [p, .staged bs])
    (hlt : ((sizesFrom (st.buf.length, st.out.length) ps).2 : ℤ) < limit) :
    ∃ st', compressLoop limit fuel st = .ok st' := by
  induction fuel generalizing st ps with
  | zero => exact ⟨st, rfl⟩
  | succ fuel ih =>
    rw [compressLoop]
    by_cases hlen : threshold ≤ st.dp.length
    · have hle : st.out.length ≤ (sizesFrom (st.buf.length, st.out.length) ps).2 :=
        le_sizesFrom (st.buf.length, st.out.length) ps
      obtain ⟨p', dp', hput, -, hcons⟩ := flushFull_stage_eq_put st hlen
      rw [hcons] at hpieces
      rw [if_pos hlen, if_neg (by omega), hput]
      cases ps with
      | nil =>
        -- the last turn: behind it there is only the tail
        obtain ⟨-, htail⟩ := List.cons.inj hpieces
        cases fuel with
        | zero => exact ⟨_, rfl⟩
        | succ fuel =>
          have hshort : ¬ threshold ≤ (st.put p' dp').dp.length := fun hlen' => by
            obtain ⟨p'', dp'', -, -, hcons'⟩ := flushFull_stage_eq_put (st.put p' dp') hlen'
            have hnil := (List.cons.inj ((hcons' fuel).symm.trans htail)).2
            exact piecesFrom_ne_nil _ _ hnil
          rw [compressLoop, if_neg hshort]
          exact ⟨_, rfl⟩
      | cons p'' ps =>
        obtain ⟨rfl, htail⟩ := List.cons.inj hpieces
        refine ih (st.put p' dp') ps htail ?_
        have hsize := putPiece_length (st.buf, st.out) p'
        have hnext : sizesFrom ((st.put p' dp').buf.length, (st.put p' dp').out.length) ps
            = sizesFrom (st.buf.length, st.out.length) (p' :: ps) :=
          congrArg (sizesFrom · ps) hsize
        rwa [hnext]
    · rw [if_neg hlen]
      exact ⟨st, rfl⟩

/-- Every byte staged by itself. -/
def singles (bs : List UInt8) : List Piece := bs.map fun b => .staged [b]

/-- **Bytes that all differ from the next one are staged one by one.** -/
theorem piecesFrom_of_isChain (fuel : ℕ) {rest : List UInt8} (hrest : 2 ≤ rest.length)
    (bs : List UInt8) (hchain : (bs ++ rest.take 1).IsChain (· ≠ ·)) :
    piecesFrom (bs.length + fuel) (bs ++ rest) = singles bs ++ piecesFrom fuel rest := by
  obtain ⟨c, d, rest, rfl⟩ : ∃ c d rest', rest = c :: d :: rest' := by
    rcases rest with _ | ⟨c, _ | ⟨d, rest⟩⟩
    · simp at hrest
    · simp at hrest
    · exact ⟨c, d, rest, rfl⟩
  induction bs with
  | nil => rw [List.length_nil, Nat.zero_add]; rfl
  | cons x bs ih =>
    have htail : (bs ++ [c]).IsChain (· ≠ ·) := by
      rw [List.cons_append] at hchain
      exact hchain.tail
    obtain ⟨y, z, more, hmore, hne⟩ : ∃ y z more, bs ++ c :: d :: rest = y :: z :: more ∧ x ≠ y := by
      rcases bs with _ | ⟨y, _ | ⟨z, bs⟩⟩
      · exact ⟨c, d, rest, rfl, (List.isChain_cons_cons.mp hchain).1⟩
      · exact ⟨y, c, d :: rest, rfl, (List.isChain_cons_cons.mp hchain).1⟩
      · exact ⟨y, z, bs ++ c :: d :: rest, rfl, (List.isChain_cons_cons.mp hchain).1⟩
    have hrest := ih htail
    rw [hmore] at hrest
    rw [List.length_cons, Nat.add_right_comm, List.cons_append, hmore, piecesFrom, if_neg hne, hrest]
    rfl

theorem runLength_replicate {a : UInt8} {m : ℕ} {rest : List UInt8} (hm : 0 < m)
    (hrest : rest.head? ≠ some a) : runLength (List.replicate m a ++ rest) = m := by
  obtain ⟨m, rfl⟩ : ∃ m', m = m' + 1 := ⟨m - 1, by omega⟩
  have hstop : rest.takeWhile (fun x => decide (x = a)) = [] := by
    cases rest with
    | nil => rfl
    | cons b rest =>
      have hne : b ≠ a := fun h => hrest (by rw [h]; rfl)
      rw [List.takeWhile_cons_of_neg (by simpa using hne)]
  rw [List.replicate_succ, List.cons_append, runLength, List.takeWhile_append_of_pos
    (fun x hx => decide_eq_true (List.eq_of_mem_replicate hx)), hstop, List.append_nil,
    List.length_replicate]

/-- **Whole tokens of a run**, with something else behind them. -/
theorem piecesFrom_run (fuel : ℕ) {a : UInt8} {r : ℕ} {rest : List UInt8} (hr : 0 < r)
    (hrest : rest.head? ≠ some a) :
    piecesFrom (fuel + 1) (List.replicate (maxRepeatedSize * r) a ++ rest)
      = .run a (maxRepeatedSize * r) :: piecesFrom fuel rest := by
  have hlength := runLength_replicate (m := maxRepeatedSize * r) (Nat.mul_pos (by decide) hr) hrest
  have hcover : runCover (maxRepeatedSize * r) = maxRepeatedSize * r := by
    rw [runCover, Nat.mul_mod_right, if_pos (by decide), Nat.sub_zero]
  obtain ⟨m, hm⟩ : ∃ m, maxRepeatedSize * r = m + 3 := ⟨maxRepeatedSize * r - 3, by
    simp only [maxRepeatedSize]; omega⟩
  obtain ⟨dp, hdp⟩ : ∃ dp, List.replicate (maxRepeatedSize * r) a ++ rest = a :: a :: a :: dp :=
    ⟨List.replicate m a ++ rest, by rw [hm]; rfl⟩
  have hdrop : (a :: a :: a :: dp).drop (maxRepeatedSize * r) = rest := by
    rw [← hdp, List.drop_left' List.length_replicate]
  rw [hdp] at hlength ⊢
  rw [piecesFrom, if_pos rfl, if_pos rfl, hlength, hcover, hdrop]

/-- **Bytes staged one by one** are written in full literals. -/
theorem sizesFrom_singles (bs : List UInt8) (s : ℕ × ℕ) (hs : s.1 < 127) :
    sizesFrom s (singles bs)
      = ((s.1 + bs.length) % 127, s.2 + 128 * ((s.1 + bs.length) / 127)) := by
  induction bs generalizing s with
  | nil =>
    rw [List.length_nil, Nat.add_zero, Nat.mod_eq_of_lt hs, Nat.div_eq_of_lt hs]
    rfl
  | cons b bs ih =>
    have hcons : sizesFrom s (singles (b :: bs))
        = sizesFrom (if 127 ≤ s.1 + 1 then (0, s.2 + 128) else (s.1 + 1, s.2)) (singles bs) := rfl
    rw [hcons, List.length_cons]
    split
    · rw [ih _ (by simp only; omega)]
      exact Prod.ext (by simp only; omega) (by simp only; omega)
    · rw [ih _ (by simp only; omega)]
      exact Prod.ext (by simp only; omega) (by simp only; omega)

/-- Two bytes in turn. -/
def alternating (a b : UInt8) : ℕ → List UInt8
  | 0 => []
  | n + 1 => a :: alternating b a n

theorem length_alternating (a b : UInt8) (n : ℕ) : (alternating a b n).length = n := by
  induction n generalizing a b with
  | zero => rfl
  | succ n ih => rw [alternating, List.length_cons, ih]

theorem mem_alternating {a b x : UInt8} {n : ℕ} (h : x ∈ alternating a b n) : x = a ∨ x = b := by
  induction n generalizing a b with
  | zero => cases h
  | succ n ih =>
    rcases List.mem_cons.mp h with h | h
    · exact Or.inl h
    · exact (ih h).symm

theorem isChain_alternating {a b : UInt8} (h : a ≠ b) (n : ℕ) :
    (alternating a b n).IsChain (· ≠ ·) := by
  induction n generalizing a b with
  | zero => exact List.isChain_nil
  | succ n ih =>
    cases n with
    | zero => exact List.isChain_singleton a
    | succ n => exact List.isChain_cons_cons.mpr ⟨h, ih h.symm⟩

/-- **A source that wraps the size around**, for the right numbers: a few bytes for a
literal that is not full, a long run, and bytes for full literals with two more behind
them. -/
def brink (q r k : ℕ) : List UInt8 :=
  alternating 1 2 q
    ++ (List.replicate (maxRepeatedSize * r) 0 ++ alternating 1 2 (127 * k + 2))

theorem length_brink (q r k : ℕ) :
    (brink q r k).length = q + (130 * r + (127 * k + 2)) := by
  simp only [brink, List.length_append, List.length_replicate, length_alternating]

/-- The pieces of the source, with the last two of them split off. -/
theorem exists_pieces_brink {q r k : ℕ} (hr : 0 < r) (hk : 0 < k) :
    ∃ lits last tail, lits.length = 127 * k - 1 ∧ tail.length = 2
      ∧ pieces (brink q r k)
        = (singles (alternating 1 2 q) ++ .run 0 (maxRepeatedSize * r) :: singles lits)
          ++ [.staged [last], .staged tail] := by
  obtain ⟨w, hw⟩ : ∃ w, alternating 1 2 (127 * k + 2) = w := ⟨_, rfl⟩
  have hlen : w.length = 127 * k + 2 := by rw [← hw, length_alternating]
  have hhead : w.head? = some 1 := by rw [← hw]; rfl
  have hchain : w.IsChain (· ≠ ·) := by
    rw [← hw]
    exact isChain_alternating (by decide) _
  have htail : (w.drop (127 * k)).length = 2 := by rw [List.length_drop]; omega
  have htake : (w.take (127 * k)).length = 127 * k := by rw [List.length_take]; omega
  have hfull : piecesFrom (127 * k + (130 * r + 1)) w
      = singles (w.take (127 * k)) ++ [.staged (w.drop (127 * k))] := by
    have hpieces := piecesFrom_of_isChain (130 * r + 1) (Nat.le_of_eq htail.symm)
      (w.take (127 * k)) (by rw [← List.take_add]; exact hchain.take _)
    rwa [htake, List.take_append_drop,
      piecesFrom_of_lt _ (show (w.drop (127 * k)).length < threshold by rw [htail]; decide)] at hpieces
  have hseam : (alternating 1 2 q ++ (List.replicate (maxRepeatedSize * r) 0 ++ w).take 1).IsChain
      (· ≠ ·) := by
    obtain ⟨m, hm⟩ : ∃ m, maxRepeatedSize * r = m + 1 := ⟨maxRepeatedSize * r - 1, by
      simp only [maxRepeatedSize]; omega⟩
    rw [hm, List.replicate_succ, List.cons_append, List.take_succ_cons, List.take_zero]
    refine List.isChain_append.mpr ⟨isChain_alternating (by decide) q, List.isChain_singleton 0,
      fun x hx y hy => ?_⟩
    cases hy
    rcases mem_alternating (List.mem_of_getLast? hx) with rfl | rfl <;> decide
  have hne : w.take (127 * k) ≠ [] := by
    rw [← List.length_pos_iff]
    omega
  refine ⟨(w.take (127 * k)).dropLast, (w.take (127 * k)).getLast hne, w.drop (127 * k), ?_, htail,
    ?_⟩
  · rw [List.length_dropLast, htake]
  · have hrun := piecesFrom_run (127 * k + (130 * r + 1)) (a := 0) hr
      (show w.head? ≠ some 0 by rw [hhead]; decide)
    have hlong : 2 ≤ (List.replicate (maxRepeatedSize * r) 0 ++ w).length := by
      rw [List.length_append]
      omega
    have hfirst := piecesFrom_of_isChain (127 * k + (130 * r + 1) + 1) hlong (alternating 1 2 q) hseam
    have hfuel : q + (130 * r + (127 * k + 2)) = q + (127 * k + (130 * r + 1) + 1) := by omega
    rw [length_alternating, hrun, hfull, ← List.dropLast_append_getLast hne] at hfirst
    rw [pieces, length_brink, brink, hw, hfuel, hfirst]
    simp [singles]

theorem sizesFrom_append (s : ℕ × ℕ) (ps qs : List Piece) :
    sizesFrom s (ps ++ qs) = sizesFrom (sizesFrom s ps) qs := List.foldl_append

/-- The bytes written for the source: in front of the last turn of the loop, and in all. -/
theorem exists_sizes_brink {q r k : ℕ} (hq : 0 < q) (hq' : q < 127) (hr : 0 < r) (hk : 0 < k) :
    (∃ ps last tail, pieces (brink q r k) = ps ++ [.staged [last], .staged tail]
        ∧ (sizesFrom (0, 0) ps).2 = q + 1 + 2 * r + 128 * (k - 1))
      ∧ (rleEncode (brink q r k)).length = q + 1 + 2 * r + 128 * k + 3 := by
  obtain ⟨lits, last, tail, hlits, htail, hpieces⟩ := exists_pieces_brink (q := q) hr hk
  have htokens : (runTokens 0 (maxRepeatedSize * r)).length = r := by
    rw [runTokens, Nat.mul_mod_right, if_pos (by decide), List.append_nil, List.length_replicate,
      Nat.mul_div_cancel_left _ (by decide)]
  have hrun : sizesFrom (0, 0)
      (singles (alternating 1 2 q) ++ .run 0 (maxRepeatedSize * r) :: singles lits)
        = (126, q + 1 + 2 * r + 128 * (k - 1)) := by
    rw [sizesFrom_append, sizesFrom_singles _ _ (by decide), length_alternating]
    show sizesFrom (putSize _ _ (.run 0 (maxRepeatedSize * r))) (singles lits) = _
    rw [putSize, htokens, sizesFrom_singles _ _ (Nat.zero_lt_succ 126), hlits, literalSize,
      if_neg (by simp only; omega)]
    exact Prod.ext (by simp only; omega) (by simp only; omega)
  refine ⟨⟨_, last, tail, hpieces, by rw [hrun]⟩, ?_⟩
  rw [length_rleEncode, hpieces, sizesFrom_append, hrun]
  have hlast : sizesFrom (126, q + 1 + 2 * r + 128 * (k - 1)) [.staged [last], .staged tail]
      = (2, q + 1 + 2 * r + 128 * (k - 1) + 128) := by
    show putSize 0 _ (.staged tail) = _
    rw [putSize, htail]
    rfl
  rw [hlast]
  show q + 1 + 2 * r + 128 * (k - 1) + 128 + 3 = _
  omega

/-- **The size of the source's encoding wraps around** when it is too large for an `int32`,
and the limit is not reached before the last turn of the loop. -/
theorem sizeWraps_brink {q r k : ℕ} {given : Option Strategy} (hq : 0 < q) (hq' : q < 127)
    (hr : 0 < r) (hk : 0 < k) (hsuited : ¬ Unsuited (brink q r k) given)
    (hlimit : ((q + 1 + 2 * r + 128 * (k - 1) : ℕ) : ℤ)
      < resultMax (brink q r k).length (given.getD rleDefaultStrategy))
    (hlong : 2 ^ 31 ≤ q + 1 + 2 * r + 128 * k + 3) : SizeWraps (brink q r k) given := by
  obtain ⟨⟨ps, last, tail, hpieces, hsize⟩, hlen⟩ := exists_sizes_brink hq hq' hr hk
  refine ⟨hsuited, ?_, by rw [hlen]; exact hlong⟩
  refine compressLoop_of_lt _ ⟨brink q r k, [], []⟩ ps hpieces ?_
  rw [← hsize] at hlimit
  exact hlimit

/-- **Two gigabytes, of which nothing has to be saved**: the encoding has two bytes more
than the source, and the size of it is returned as `-2147483648`. -/
theorem exists_not_exitsSafely :
    ∃ (source : List UInt8) (strategy : Strategy), (source.length : ℤ) = 2147483646
      ∧ strategy = ⟨32, intMax, 0⟩
      ∧ (rleCompressResult source (some strategy)).1 = -2147483648
      ∧ (rleEncode source).length = 2147483648
      ∧ ¬ ExitsSafely source (some strategy) := by
  have hlength : ((brink 28 131056 16775168).length : ℤ) = 2147483646 := by
    rw [length_brink]
    rfl
  have hencode : (rleEncode (brink 28 131056 16775168)).length = 2147483648 :=
    (exists_sizes_brink (by decide) (by decide) (by decide) (by decide)).2
  have hslen : ((brink 28 131056 16775168).length : ℤ) ≤ intMax := by
    rw [hlength]
    decide
  have hwraps : SizeWraps (brink 28 131056 16775168) (some ⟨32, intMax, 0⟩) := by
    refine sizeWraps_brink (by decide) (by decide) (by decide) (by decide) ?_ ?_ (by decide)
    · rw [Unsuited, hlength]
      decide
    · rw [hlength]
      decide
  refine ⟨brink 28 131056 16775168, ⟨32, intMax, 0⟩, hlength, rfl, ?_, hencode,
    hwraps.not_exitsSafely hslen⟩
  rw [(hwraps.rleCompressResult_eq hslen).1, hencode]
  rfl

end Rle
