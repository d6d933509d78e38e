import Hoco.RleBounds

/-!
# How full the staging buffer gets

The staging buffer of `rle_compress` is allocated with the size of the longest
literal, 127 bytes, and nothing is tested before a byte is stored there: the
test comes when the one or two bytes of a turn are in the buffer, and for the
last bytes of the source when all of them are.

`rleCompressPoints` lists the states that a run passes through, with one for
every time that `buf` is moved. That the last of them is the state the function
ends in (`getLast?_loopPoints`) is what makes the list one of the function's own
states.

Between two turns the buffer holds 126 bytes at most, so a single byte always
fits. Two bytes do not if there are 126: an equal pair that does not start a
run, or the last two bytes of the source. A source **overfills** the buffer when
this happens before the loop gives up (`rleCompressPoints_le_iff`). At the tail
the loop has not tested the output after its last turn, but a turn that leaves
bytes in the buffer has written none, so the test it made still speaks of the
output there is.
-/

namespace Rle

/-! ## The points of a run -/

/-- The states a turn passes through, up to its test of the buffer. The emission
loop does not touch the buffer and counts as one statement. -/
def stagePoints (st : CompressState) : List CompressState :=
  match st.dp with
  | a :: b :: c :: _ =>
    if a = b then
      if b = c then [if st.buf ≠ [] then storeSingleBuf false st else st, stage st]
      else [bufCopyCtrl st, bufCopyCtrl (bufCopyCtrl st)]
    else [bufCopyCtrl st]
  | _ => []

/-- The states behind the main loop: the last bytes are copied, a full buffer is
written, and so is what is left in it. -/
def tailPoints (st : CompressState) : List CompressState :=
  let copied := { st with dp := [], buf := st.buf ++ st.dp }
  [copied, flushFull copied, storeTail st]

/-- The states of the main loop and of what follows it. -/
def loopPoints (resultMax : ℤ) : ℕ → CompressState → List CompressState
  | 0, st => st :: tailPoints st
  | fuel + 1, st =>
    if threshold ≤ st.dp.length then
      if resultMax ≤ st.out.length then [st]
      else st :: (stagePoints st ++ loopPoints resultMax fuel (flushFull (stage st)))
    else st :: tailPoints st

/-- **The points of a run of `rle_compress`.** A source that the strategy does not
admit is left alone, with the buffer as it was allocated. -/
def rleCompressPoints (source : List UInt8) (strategy : Option Strategy) : List CompressState :=
  let strategy := strategy.getD rleDefaultStrategy
  let slen : ℤ := source.length
  if slen < strategy.minInputSize ∨ slen > strategy.maxInputSize then [⟨source, [], []⟩]
  else loopPoints (resultMax slen strategy) source.length ⟨source, [], []⟩

/-- **The last point of the loop is where it ends.** -/
theorem getLast?_loopPoints (limit : ℤ) (fuel : ℕ) (st : CompressState) :
    (loopPoints limit fuel st).getLast? = some (match compressLoop limit fuel st with
      | .error st => st
      | .ok st => storeTail st) := by
  induction fuel generalizing st with
  | zero => rfl
  | succ fuel ih =>
    rw [loopPoints, compressLoop]
    split
    · split
      · rfl
      · rw [List.getLast?_cons, List.getLast?_append, ih]
        rfl
    · rfl

/-- Where the compression succeeds, its output is what has been written at the
last point. -/
theorem exists_getLast?_of_rleCompress {source dest : List UInt8} {strategy : Option Strategy}
    (h : rleCompress source strategy = some dest) :
    ∃ st, (rleCompressPoints source strategy).getLast? = some st ∧ st.out = dest := by
  obtain ⟨hsuited, st, hloop, rfl⟩ := of_rleCompress_eq_some h
  refine ⟨storeTail st, ?_, rfl⟩
  unfold rleCompressPoints
  simp only
  rw [if_neg hsuited, getLast?_loopPoints, hloop]

/-! ## Sources that overfill the buffer -/

/-- **The pieces overfill the buffer**: two bytes are staged together when there are
126 in it, and the output has not reached the limit. -/
def OverfillsFrom (limit : ℤ) (s : ℕ × ℕ) (ps : List Piece) : Prop :=
  ∃ pre bs post, ps = pre ++ .staged bs :: post ∧ bs.length = 2
    ∧ (sizesFrom s pre).1 = 126 ∧ ((sizesFrom s pre).2 : ℤ) < limit

/-- **A source overfills the buffer**: it is admitted by the strategy, and its pieces
do. -/
def Overfills (source : List UInt8) (strategy : Option Strategy) : Prop :=
  let strategy := strategy.getD rleDefaultStrategy
  (strategy.minInputSize ≤ source.length ∧ (source.length : ℤ) ≤ strategy.maxInputSize)
    ∧ OverfillsFrom (resultMax source.length strategy) (0, 0) (pieces source)

section Overfills

variable {limit : ℤ} {s : ℕ × ℕ} {p : Piece} {ps : List Piece}

theorem not_overfillsFrom_nil : ¬ OverfillsFrom limit s [] := by
  rintro ⟨pre, bs, post, hnil, -⟩
  exact List.append_ne_nil_of_right_ne_nil _ (List.cons_ne_nil _ _) hnil.symm

/-- The buffer is overfilled by the first piece, or by the others behind it. -/
theorem overfillsFrom_cons : OverfillsFrom limit s (p :: ps)
    ↔ ((∃ bs, p = .staged bs ∧ bs.length = 2) ∧ s.1 = 126 ∧ (s.2 : ℤ) < limit)
      ∨ OverfillsFrom limit (putSize s.1 s.2 p) ps := by
  constructor
  · rintro ⟨pre, bs, post, hps, htwo, hfull, hlimit⟩
    cases pre with
    | nil =>
      obtain ⟨rfl, rfl⟩ := List.cons.inj hps
      exact Or.inl ⟨⟨bs, rfl, htwo⟩, hfull, hlimit⟩
    | cons q pre =>
      obtain ⟨rfl, rfl⟩ := List.cons.inj hps
      exact Or.inr ⟨pre, bs, post, rfl, htwo, hfull, hlimit⟩
  · rintro (⟨⟨bs, rfl, htwo⟩, hfull, hlimit⟩ | ⟨pre, bs, post, rfl, htwo, hfull, hlimit⟩)
    · exact ⟨[], bs, ps, rfl, htwo, hfull, hlimit⟩
    · exact ⟨p :: pre, bs, post, rfl, htwo, hfull, hlimit⟩

theorem overfillsFrom_tail {bs : List UInt8} : OverfillsFrom limit s [.staged bs]
    ↔ bs.length = 2 ∧ s.1 = 126 ∧ (s.2 : ℤ) < limit := by
  rw [overfillsFrom_cons]
  constructor
  · rintro (⟨⟨_, hbs, htwo⟩, hfull⟩ | h)
    · cases hbs
      exact ⟨htwo, hfull⟩
    · exact absurd h not_overfillsFrom_nil
  · rintro ⟨htwo, hfull⟩
    exact Or.inl ⟨⟨bs, rfl, htwo⟩, hfull⟩

theorem not_overfillsFrom_of_le (h : limit ≤ s.2) : ¬ OverfillsFrom limit s ps := by
  rintro ⟨pre, bs, post, -, -, -, hlimit⟩
  have hle := le_sizesFrom s pre
  omega

end Overfills

/-! ## One turn -/

theorem emitRun_buf (c : UInt8) (fuel : ℕ) (i : ℤ) (st : CompressState) :
    (emitRun c fuel i st).buf = st.buf := by
  induction fuel generalizing i st with
  | zero => rfl
  | succ fuel ih =>
    rw [emitRun]
    split
    · rw [ih]
    · rfl

/-- **A turn goes past the end of the buffer** when it stages two bytes and there are
126 in it, and in no other way. -/
theorem stagePoints_le_iff {st : CompressState} {fuel : ℕ} {p : Piece} {ps : List Piece}
    (hlen : threshold ≤ st.dp.length) (hpieces : piecesFrom (fuel + 1) st.dp = p :: ps)
    (hbuf : st.buf.length < maxSingleStoreSize) :
    (∀ q ∈ stagePoints st, q.buf.length ≤ maxSingleStoreSize)
      ↔ ¬ ((∃ bs, p = .staged bs ∧ bs.length = 2) ∧ st.buf.length = 126) := by
  match hdp : st.dp with
  | [] | [_] | [_, _] => simp [hdp, threshold] at hlen
  | a :: b :: c :: dp =>
    rw [hdp, piecesFrom] at hpieces
    by_cases hab : a = b
    · by_cases hbc : b = c
      · -- the run leaves an empty buffer
        rw [if_pos hab, if_pos hbc] at hpieces
        obtain ⟨rfl, -⟩ := List.cons.inj hpieces
        have hempty : (if st.buf ≠ [] then storeSingleBuf false st else st).buf = [] := by
          by_cases hnil : st.buf = []
          · rw [if_neg (not_not.mpr hnil), hnil]
          · rw [if_pos hnil]
            rfl
        have hstage : (stage st).buf = [] := by
          rw [stage, hdp]
          simp only [if_pos hab, if_pos hbc]
          rw [emitRun_buf, hempty]
        refine iff_of_true (fun q hq => ?_) (by rintro ⟨⟨bs, hbs, -⟩, -⟩; cases hbs)
        simp only [stagePoints, hdp, if_pos hab, if_pos hbc, List.mem_cons, List.not_mem_nil,
          or_false] at hq
        rcases hq with rfl | rfl
        · rw [hempty]
          exact Nat.zero_le _
        · rw [hstage]
          exact Nat.zero_le _
      · rw [if_pos hab, if_neg hbc] at hpieces
        obtain ⟨rfl, -⟩ := List.cons.inj hpieces
        simp only [stagePoints, hdp, if_pos hab, if_neg hbc, List.mem_cons, List.not_mem_nil,
          or_false, forall_eq_or_imp, forall_eq, bufCopyCtrl, List.take_succ_cons, List.take_zero,
          List.drop_succ_cons, List.drop_zero, List.length_append, List.length_cons,
          List.length_nil, Piece.staged.injEq, maxSingleStoreSize] at hbuf ⊢
        constructor
        · rintro ⟨-, htwo⟩ ⟨-, hfull⟩
          omega
        · intro h
          have hfull : st.buf.length ≠ 126 := fun hfull => h ⟨⟨_, rfl, rfl⟩, hfull⟩
          omega
    · rw [if_neg hab] at hpieces
      obtain ⟨rfl, -⟩ := List.cons.inj hpieces
      refine iff_of_true (fun q hq => ?_) ?_
      · simp only [stagePoints, hdp, if_neg hab, List.mem_singleton] at hq
        rw [hq]
        simp only [bufCopyCtrl, hdp, List.take_succ_cons, List.take_zero, List.length_append,
          List.length_cons, List.length_nil]
        omega
      · rintro ⟨⟨bs, hbs, htwo⟩, -⟩
        cases hbs
        cases htwo

/-- The same for the tail. -/
theorem tailPoints_le_iff {st : CompressState} (hlen : st.dp.length < threshold)
    (hbuf : st.buf.length < maxSingleStoreSize) :
    (∀ q ∈ tailPoints st, q.buf.length ≤ maxSingleStoreSize)
      ↔ ¬ (st.dp.length = 2 ∧ st.buf.length = 126) := by
  have hflush : ∀ q : CompressState, (flushFull q).buf.length ≤ maxSingleStoreSize := by
    intro q
    unfold flushFull
    split
    · exact Nat.zero_le _
    · omega
  have htail : (storeTail st).buf.length ≤ maxSingleStoreSize := by
    unfold storeTail
    simp only
    split
    · exact Nat.zero_le _
    · exact hflush _
  simp only [tailPoints, List.mem_cons, List.not_mem_nil, or_false, forall_eq_or_imp, forall_eq,
    List.length_append, hflush, htail, and_true]
  simp only [threshold, maxSingleStoreSize] at *
  omega

/-- Behind a turn there is room for a byte, and where bytes are staged none have been
written. -/
theorem putPiece_staged (s : List UInt8 × List UInt8) (p : Piece) :
    (putPiece s p).1.length < maxSingleStoreSize
      ∧ ((putPiece s p).1 ≠ [] → (putPiece s p).2 = s.2) := by
  cases p with
  | run b m => exact ⟨by simp [putPiece], fun h => absurd rfl h⟩
  | staged bs =>
    rw [putPiece]
    split
    · exact ⟨by simp, fun h => absurd rfl h⟩
    · rename_i hroom
      exact ⟨Nat.not_le.mp hroom, fun _ => rfl⟩

/-! ## The whole run -/

/-- **The buffer holds what is stored there as long as the pieces do not overfill
it**, from any state between two turns. -/
theorem loopPoints_le_iff (limit : ℤ) (fuel : ℕ) (st : CompressState)
    (hfuel : st.dp.length ≤ fuel) (hbuf : st.buf.length < maxSingleStoreSize)
    (htested : st.buf ≠ [] → (st.out.length : ℤ) < limit) :
    (∀ q ∈ loopPoints limit fuel st, q.buf.length ≤ maxSingleStoreSize)
      ↔ ¬ OverfillsFrom limit (st.buf.length, st.out.length) (piecesFrom fuel st.dp) := by
  have hsplit : ∀ {st : CompressState} {qs : List CompressState},
      st.buf.length < maxSingleStoreSize →
      ((∀ q ∈ st :: qs, q.buf.length ≤ maxSingleStoreSize)
        ↔ ∀ q ∈ qs, q.buf.length ≤ maxSingleStoreSize) := by
    intro st qs hbuf
    rw [List.forall_mem_cons]
    exact and_iff_right hbuf.le
  have htail : ∀ {st : CompressState}, st.dp.length < threshold →
      st.buf.length < maxSingleStoreSize → (st.buf ≠ [] → (st.out.length : ℤ) < limit) →
      ((∀ q ∈ st :: tailPoints st, q.buf.length ≤ maxSingleStoreSize)
        ↔ ¬ OverfillsFrom limit (st.buf.length, st.out.length) [.staged st.dp]) := by
    intro st hlen hbuf htested
    rw [hsplit hbuf, tailPoints_le_iff hlen hbuf, overfillsFrom_tail]
    refine not_congr (and_congr_right fun _ => ?_)
    refine ⟨fun hfull => ⟨hfull, htested ?_⟩, fun h => h.1⟩
    rw [← List.length_pos_iff]
    omega
  induction fuel generalizing st with
  | zero => exact htail (Nat.lt_of_le_of_lt hfuel (by decide)) hbuf htested
  | succ fuel ih =>
    rw [loopPoints]
    rcases Nat.lt_or_ge st.dp.length threshold with hlt | hge
    · rw [if_neg (Nat.not_le.mpr hlt), piecesFrom_of_lt _ hlt]
      exact htail hlt hbuf htested
    · rw [if_pos hge]
      by_cases hstop : limit ≤ st.out.length
      · rw [if_pos hstop]
        exact iff_of_true ((hsplit hbuf).mpr fun q hq => absurd hq List.not_mem_nil)
          (not_overfillsFrom_of_le hstop)
      · obtain ⟨p, dp', hput, hless, hpieces⟩ := flushFull_stage_eq_put st hge
        obtain ⟨hroom, hsame⟩ := putPiece_staged (st.buf, st.out) p
        have hsize := putPiece_length (st.buf, st.out) p
        have hrest := ih (st.put p dp') (show dp'.length ≤ fuel by omega) hroom fun hne => by
          show ((putPiece (st.buf, st.out) p).2.length : ℤ) < limit
          rw [hsame hne]
          exact Int.not_le.mp hstop
        rw [if_neg hstop, hsplit hbuf, List.forall_mem_append, hput, hpieces fuel,
          overfillsFrom_cons, not_or, ← hsize]
        refine and_congr ((stagePoints_le_iff hge (hpieces fuel) hbuf).trans ?_) hrest
        refine not_congr (and_congr_right fun _ => ?_)
        exact ⟨fun hfull => ⟨hfull, Int.not_le.mp hstop⟩, fun h => h.1⟩

/-- **The staging buffer never holds more than it was allocated for, unless the source
overfills it**, at any point of any run. -/
theorem rleCompressPoints_le_iff (source : List UInt8) (strategy : Option Strategy) :
    (∀ st ∈ rleCompressPoints source strategy, st.buf.length ≤ maxSingleStoreSize)
      ↔ ¬ Overfills source strategy := by
  unfold rleCompressPoints Overfills
  simp only
  split
  · refine iff_of_true (fun st hst => ?_) (fun h => by omega)
    rw [List.mem_singleton.mp hst]
    exact Nat.zero_le _
  · rename_i hsuited
    have hloop := loopPoints_le_iff (resultMax source.length (strategy.getD rleDefaultStrategy))
      source.length ⟨source, [], []⟩ (Nat.le_refl _) (Nat.zero_lt_succ _) (fun h => absurd rfl h)
    exact hloop.trans (not_congr ⟨fun h => ⟨by omega, h⟩, fun h => h.2⟩)

/-- Two bytes stored behind `126`: no two neighbours agree in the first `126` bytes of the
source, and the last two are copied to the buffer together. -/
theorem not_forall_rleCompressPoints_le :
    ¬ ∀ (source : List UInt8) (strategy : Option Strategy),
      ∀ st ∈ rleCompressPoints source strategy, st.buf.length ≤ maxSingleStoreSize := by
  intro h
  have hpoints := h ((List.replicate 64 [1, 2]).flatten) none
  exact absurd hpoints (by decide +kernel)

end Rle
