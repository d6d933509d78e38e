import Hoco.RleCompress

/-!
# How far the compressor writes

`rle_compress` is given a buffer of `PGLZ_MAX_OUTPUT(slen)` bytes, four more
than its source, and tests the output against the wanted size only at the top
of its loop. Whatever the last turn of the loop and the tail write is written
unchecked, and so is the terminator. `rleCompressStores` counts the bytes
stored, also where the function gives up.

The count depends on lengths alone. What matters is the **excess**: the bytes
written, staged and still to read, less the length of the source. A turn of
the loop raises it by at most one, and only by writing a full literal token;
a run lowers it, unless it is a shortest run that closes a literal token. The
loop gives up at three quarters of the source, so a large excess can only be
reached on a source so short that it cannot be written at all – with one
exception. Three full literal tokens, nothing before them that lowers the
excess, and one or two bytes left for the tail, make an excess of three, a
fourth mark and the terminator: one byte more than there is room for. A source
`Brims` when it is of this form, and these are the only ones that overrun
(`rleCompressStores_le_iff`).
-/

namespace Rle

/-- The macro `PGLZ_MAX_OUTPUT`: the space the callers of the compressor
allocate. -/
def pglzMaxOutput (dlen : ℕ) : ℕ := dlen + 4

/-- **The bytes `rle_compress` stores through `dest`**: those of the tokens,
and the terminator when the end is reached. -/
def rleCompressStores (source : List UInt8) (strategy : Option Strategy) : ℕ :=
  let strategy := strategy.getD rleDefaultStrategy
  let slen : ℤ := source.length
  if slen < strategy.minInputSize ∨ slen > strategy.maxInputSize then 0
  else
    match compressLoop (resultMax slen strategy) source.length ⟨source, [], []⟩ with
    | .error st => st.out.length
    | .ok st => (storeTail st).out.length + 1

/-- Where the compression succeeds the bytes stored are its output and the
terminator. -/
theorem rleCompressStores_of_eq_some {source dest : List UInt8} {strategy : Option Strategy}
    (h : rleCompress source strategy = some dest) :
    rleCompressStores source strategy = dest.length + 1 := by
  obtain ⟨hsuited, st, hloop, rfl⟩ := of_rleCompress_eq_some h
  unfold rleCompressStores
  simp only
  rw [if_neg hsuited, hloop]

/-! ## The count, piece by piece -/

/-- The length of the token for `k` staged bytes, which is none for none. -/
def literalSize (k : ℕ) : ℕ := if k = 0 then 0 else k + 1

/-- What handling a piece does to the number of bytes staged and written. -/
def putSize (k n : ℕ) : Piece → ℕ × ℕ
  | .run b m => (0, n + literalSize k + 2 * (runTokens b m).length)
  | .staged bs =>
    if maxSingleStoreSize ≤ k + bs.length then (0, n + (maxSingleStoreSize + 1))
    else (k + bs.length, n)

/-- The bytes staged and the bytes written behind some pieces. -/
def sizesFrom (s : ℕ × ℕ) (ps : List Piece) : ℕ × ℕ := ps.foldl (fun s p => putSize s.1 s.2 p) s

/-- The bytes stored when the pieces are handled one after the other, from `k`
staged and `n` written bytes, with the test before each piece but the last. -/
def storesFrom (limit : ℤ) : ℕ → ℕ → List Piece → ℕ
  | _, n, [] => n
  | k, n, [p] => (putSize k n p).2 + literalSize (putSize k n p).1 + 1
  | k, n, p :: q :: ps =>
    if limit ≤ n then n else storesFrom limit (putSize k n p).1 (putSize k n p).2 (q :: ps)

theorem encode_runTokens_length (b : UInt8) (m : ℕ) :
    (encode (runTokens b m)).length = 2 * (runTokens b m).length := by
  have hall : ∀ ts : List Token, (∀ t ∈ ts, ∃ k, t = .run b k) →
      (encode ts).length = 2 * ts.length := by
    intro ts
    induction ts with
    | nil => intro _; rfl
    | cons t ts ih =>
      intro h
      obtain ⟨k, rfl⟩ := h t List.mem_cons_self
      rw [encode_cons, List.length_append, ih fun t ht => h t (List.mem_cons_of_mem _ ht),
        List.length_cons]
      simp only [Token.encode, List.length_cons, List.length_nil]
      omega
  refine hall _ fun t ht => ?_
  unfold runTokens at ht
  rcases List.mem_append.mp ht with h | h
  · exact ⟨_, List.eq_of_mem_replicate h⟩
  · split at h
    · exact absurd h (by simp)
    · exact ⟨_, List.mem_singleton.mp h⟩

/-- The literal token for the staged bytes, where there are any. -/
theorem literal_length (buf : List UInt8) :
    (if buf = [] then [] else UInt8.ofNat buf.length :: buf).length = literalSize buf.length := by
  cases buf <;> rfl

/-- **The lengths of a piece handled** are those `putSize` computes. -/
theorem putPiece_length (s : List UInt8 × List UInt8) (p : Piece) :
    ((putPiece s p).1.length, (putPiece s p).2.length) = putSize s.1.length s.2.length p := by
  cases p with
  | run b m =>
    simp only [putPiece, putSize, List.length_append, List.length_nil, literal_length,
      encode_runTokens_length]
  | staged bs =>
    simp only [putPiece, putSize, List.length_append]
    split
    · rename_i hfull
      simp only [List.length_append, List.length_cons, List.length_take, List.length_nil]
      rw [Nat.min_eq_left hfull]
    · rw [List.length_append]

theorem finish_length (s : List UInt8 × List UInt8) :
    (finish s).length = s.2.length + literalSize s.1.length := by
  rw [finish, List.length_append, literal_length]

/-- What is written stays. -/
theorem le_sizesFrom (s : ℕ × ℕ) (ps : List Piece) : s.2 ≤ (sizesFrom s ps).2 := by
  induction ps generalizing s with
  | nil => exact Nat.le_refl _
  | cons p ps ih =>
    refine Nat.le_trans ?_ (ih (putSize s.1 s.2 p))
    cases p with
    | run b m =>
      simp only [putSize]
      omega
    | staged bs =>
      simp only [putSize]
      split
      · exact Nat.le_add_right _ _
      · exact Nat.le_refl _

/-- The bytes stored by the loop and what follows it. -/
def loopStores : Except CompressState CompressState → ℕ
  | .error st => st.out.length
  | .ok st => (storeTail st).out.length + 1

theorem loopStores_tail (st : CompressState) (limit : ℤ) :
    loopStores (.ok st) = storesFrom limit st.buf.length st.out.length [.staged st.dp] := by
  have hput := putPiece_length (st.buf, st.out) (.staged st.dp)
  rw [loopStores, storeTail_out, finish_length, storesFrom, ← hput]

/-- There is always a piece: the tail. -/
theorem piecesFrom_ne_nil (fuel : ℕ) (dp : List UInt8) : piecesFrom fuel dp ≠ [] := by
  unfold piecesFrom
  split
  · exact List.cons_ne_nil _ _
  · split
    · split <;> exact List.cons_ne_nil _ _
    · exact List.cons_ne_nil _ _
  · exact List.cons_ne_nil _ _

/-- **The loop stores what its pieces count**, when it is given a turn for
every byte. -/
theorem loopStores_compressLoop (limit : ℤ) :
    ∀ (fuel : ℕ) (st : CompressState), st.dp.length ≤ fuel →
      loopStores (compressLoop limit fuel st)
        = storesFrom limit st.buf.length st.out.length (piecesFrom fuel st.dp) := by
  intro fuel
  induction fuel with
  | zero => intro st _; exact loopStores_tail st limit
  | succ fuel ih =>
    intro st hfuel
    rw [compressLoop]
    rcases Nat.lt_or_ge st.dp.length threshold with hlt | hge
    · rw [if_neg (Nat.not_le.mpr hlt), piecesFrom_of_lt _ hlt]
      exact loopStores_tail st limit
    · obtain ⟨p, dp', hput, hlen, hpieces⟩ := flushFull_stage_eq_put st hge
      obtain ⟨q, ps, hq⟩ := List.exists_cons_of_ne_nil (piecesFrom_ne_nil fuel dp')
      rw [if_pos hge, hpieces, hput, hq, storesFrom]
      split
      · rfl
      · have hsize := putPiece_length (st.buf, st.out) p
        rw [ih (st.put p dp') (show dp'.length ≤ fuel by omega), ← hsize, ← hq]
        rfl

theorem rleCompressStores_eq (source : List UInt8) (strategy : Option Strategy) :
    rleCompressStores source strategy
      = if (source.length : ℤ) < (strategy.getD rleDefaultStrategy).minInputSize ∨
          (source.length : ℤ) > (strategy.getD rleDefaultStrategy).maxInputSize then 0
        else storesFrom (resultMax source.length (strategy.getD rleDefaultStrategy)) 0 0
          (pieces source) := by
  have hloop := loopStores_compressLoop
    (resultMax source.length (strategy.getD rleDefaultStrategy)) source.length ⟨source, [], []⟩
    (Nat.le_refl _)
  unfold rleCompressStores
  simp only
  split
  · rfl
  · rw [pieces]
    refine Eq.trans ?_ hloop
    rw [loopStores.eq_def]

/-! ## The shape of the pieces -/

/-- The bytes a list of pieces accounts for. -/
def size (ps : List Piece) : ℕ := (ps.map fun p => p.bytes.length).sum

/-- The pieces of a source: runs long enough for a token, one or two bytes
staged together, and a tail of at most two bytes. -/
inductive Pieced : List Piece → Prop
  | tail (bs : List UInt8) : bs.length < threshold → Pieced [.staged bs]
  | run (b : UInt8) (m : ℕ) {ps : List Piece} : threshold ≤ m → Pieced ps → Pieced (.run b m :: ps)
  | staged (bs : List UInt8) {ps : List Piece} : bs.length < threshold → Pieced ps →
      Pieced (.staged bs :: ps)

theorem Pieced.ne_nil {ps : List Piece} (h : Pieced ps) : ps ≠ [] := by
  cases h <;> exact List.cons_ne_nil _ _

@[simp] theorem size_nil : size [] = 0 := rfl

@[simp] theorem size_run (b : UInt8) (m : ℕ) (ps : List Piece) :
    size (.run b m :: ps) = runCover m + size ps := by
  simp [size, Piece.bytes]

@[simp] theorem size_staged (bs : List UInt8) (ps : List Piece) :
    size (.staged bs :: ps) = bs.length + size ps := by
  simp [size, Piece.bytes]

theorem Pieced.size_lt_of_length_eq_one {ps : List Piece} (h : Pieced ps) (hlen : ps.length = 1) :
    size ps < threshold := by
  cases h with
  | tail bs hbs => rwa [size_staged, size_nil, Nat.add_zero]
  | run _ _ _ h | staged _ _ h =>
    rw [List.length_cons, Nat.add_eq_right, List.length_eq_zero_iff] at hlen
    exact absurd hlen h.ne_nil

theorem pieced_piecesFrom :
    ∀ (fuel : ℕ) (dp : List UInt8), dp.length ≤ fuel →
      Pieced (piecesFrom fuel dp) ∧ size (piecesFrom fuel dp) = dp.length := by
  intro fuel
  induction fuel with
  | zero =>
    intro dp h
    rw [List.length_eq_zero_iff.mp (Nat.le_zero.mp h)]
    exact ⟨.tail [] (by decide), rfl⟩
  | succ fuel ih =>
    intro dp h
    rcases dp with _ | ⟨a, _ | ⟨b, _ | ⟨c, dp⟩⟩⟩
    · exact ⟨.tail _ (by simp), rfl⟩
    · exact ⟨.tail _ (by simp [threshold]), rfl⟩
    · exact ⟨.tail _ (by simp [threshold]), rfl⟩
    · simp only [List.length_cons] at h
      rw [piecesFrom]
      split
      · rename_i hab
        split
        · rename_i hbc
          subst hab hbc
          have hm : threshold ≤ runLength (a :: a :: a :: dp) := by
            simp [runLength, threshold]
          have hpos : 0 < runCover (runLength (a :: a :: a :: dp)) := by
            simp only [runCover, maxRepeatedSize, threshold] at *
            split <;> omega
          have hle : runCover (runLength (a :: a :: a :: dp)) ≤ (a :: a :: a :: dp).length := by
            refine Nat.le_trans (runCover_le _) ?_
            obtain ⟨rest, hsplit, -⟩ := eq_replicate_append_of_runLength a (a :: a :: dp)
            have hlen := congrArg List.length hsplit
            rw [List.length_append, List.length_replicate] at hlen
            omega
          obtain ⟨hp, hs⟩ := ih
            ((a :: a :: a :: dp).drop (runCover (runLength (a :: a :: a :: dp)))) (by
              rw [List.length_drop]
              simp only [List.length_cons]
              omega)
          refine ⟨.run _ _ hm hp, ?_⟩
          rw [size_run, hs, List.length_drop]
          omega
        · obtain ⟨hp, hs⟩ := ih (c :: dp) (by simp only [List.length_cons]; omega)
          refine ⟨.staged _ (by simp [threshold]) hp, ?_⟩
          rw [size_staged, hs]
          simp only [List.length_cons, List.length_nil]
          omega
      · obtain ⟨hp, hs⟩ := ih (b :: c :: dp) (by simp only [List.length_cons]; omega)
        refine ⟨.staged _ (by simp [threshold]) hp, ?_⟩
        rw [size_staged, hs]
        simp only [List.length_cons, List.length_nil]
        omega

/-- The bytes a run takes, by the number of its tokens: all but the last token
are full, and only the shortest run comes to three bytes a token. -/
theorem runTokens_length_bounds (b : UInt8) {m : ℕ} (h : threshold ≤ m) :
    1 ≤ (runTokens b m).length ∧
      maxRepeatedSize * (runTokens b m).length + threshold ≤ runCover m + maxRepeatedSize ∧
      (m = threshold → runCover m = threshold ∧ (runTokens b m).length = 1) ∧
      (m ≠ threshold → 4 ≤ runCover m) := by
  simp only [runTokens, runCover, List.length_append, List.length_replicate, maxRepeatedSize,
    threshold] at *
  split
  · simp only [List.length_nil]
    omega
  · simp only [List.length_cons, List.length_nil]
    omega

/-! ## Who overruns -/

/-- **A source brims**: from a state with `full` full literal tokens written
and `k` bytes staged, what is left is staged until three literal tokens have
been filled exactly, interrupted by shortest runs only and by those only when
bytes are staged; a tail is left, and the source is short enough for the loop
to reach it. -/
def Brims (slen : ℕ) : ℕ → ℕ → List Piece → Prop
  | _, _, [] => False
  | full, k, .run _ m :: ps => k ≠ 0 ∧ m = threshold ∧ Brims slen full 0 ps
  | full, k, .staged bs :: ps =>
    if k + bs.length = maxSingleStoreSize then
      if full = 2 then ∃ tail, tail ≠ [] ∧ ps = [.staged tail] ∧ slen ≤ 496 + 4 * tail.length
      else Brims slen (full + 1) 0 ps
    else k + bs.length < maxSingleStoreSize ∧ Brims slen full (k + bs.length) ps

/-- A tail alone never brims: there is no piece behind it. -/
theorem not_brims_tail (slen full k : ℕ) (bs : List UInt8) :
    ¬ Brims slen full k [.staged bs] := by
  rw [Brims]
  split
  · split
    · rintro ⟨_, -, hnil, -⟩
      exact absurd hnil.symm (List.cons_ne_nil _ _)
    · exact not_false
  · exact fun h => h.2

/-- A source that brims has a whole literal token and its tail still to come. -/
theorem Brims.exists_tail {slen : ℕ} {ps : List Piece} (hp : Pieced ps) :
    ∀ {full k : ℕ}, Brims slen full k ps →
      ∃ t, t < threshold ∧ slen ≤ 496 + 4 * t ∧ maxSingleStoreSize + t ≤ k + size ps := by
  induction hp with
  | tail bs _ => exact fun h => absurd h (not_brims_tail _ _ _ _)
  | run b m _ hp ih =>
    intro full k h
    rw [Brims] at h
    obtain ⟨t, h₁, h₂, h₃⟩ := ih h.2.2
    refine ⟨t, h₁, h₂, ?_⟩
    rw [size_run]
    omega
  | staged bs _ hp ih =>
    intro full k h
    rw [Brims] at h
    rw [size_staged]
    split at h
    · split at h
      · obtain ⟨tail, -, rfl, hs⟩ := h
        have ht := hp.size_lt_of_length_eq_one rfl
        rw [size_staged, size_nil] at ht ⊢
        exact ⟨tail.length, ht, hs, by omega⟩
      · obtain ⟨t, h₁, h₂, h₃⟩ := ih h
        exact ⟨t, h₁, h₂, by omega⟩
    · obtain ⟨t, h₁, h₂, h₃⟩ := ih h.2
      exact ⟨t, h₁, h₂, by omega⟩

/-- **The tail adds a mark and the terminator at most** to the excess. -/
theorem storesFrom_tail_le (limit : ℤ) {k n s : ℕ} {e : ℤ} {bs : List UInt8}
    (he : (n + k + bs.length : ℤ) = s + e) :
    (storesFrom limit k n [.staged bs] : ℤ) ≤ s + e + 2 := by
  simp only [storesFrom, putSize, literalSize, maxSingleStoreSize]
  split
  · rw [if_pos rfl]
    omega
  · dsimp only
    split <;> omega

/-- A piece that is not the last is handled unless the loop gives up. -/
theorem storesFrom_cons (limit : ℤ) (k n : ℕ) (p : Piece) {ps : List Piece} (h : ps ≠ []) :
    storesFrom limit k n (p :: ps)
      = if limit ≤ n then n else storesFrom limit (putSize k n p).1 (putSize k n p).2 ps := by
  obtain ⟨q, ps, rfl⟩ := List.exists_cons_of_ne_nil h
  rw [storesFrom]

/-- **Away from the brim the buffer is large enough.** The excess `e` is paid
for by the bytes written, 128 for every unit and, until three units are
reached, 128 more: then either the loop gives up in time or the source is so
long that three quarters of it leave room. -/
theorem storesFrom_le_of_paid {limit : ℤ} {s : ℕ} (hlimit : 4 * limit ≤ 3 * s)
    {ps : List Piece} (hp : Pieced ps) :
    ∀ {k n : ℕ} {e : ℤ}, k < maxSingleStoreSize → (n + k + size ps : ℤ) = s + e →
      128 * e ≤ n → n ≤ s + 4 → (128 * (e + 1) ≤ n ∨ 384 ≤ n) →
      (ps.length = 1 → e ≤ 2) → storesFrom limit k n ps ≤ s + 4 := by
  induction hp with
  | tail bs hbs =>
    intro k n e hk he _ _ _ hlast
    rw [size_staged, size_nil, Nat.add_zero] at he
    have htail := storesFrom_tail_le limit he
    have hle := hlast rfl
    omega
  | run b m hm hp ih =>
    intro k n e hk he hpaid hn hmore _
    rename_i ps
    rw [storesFrom_cons _ _ _ _ hp.ne_nil]
    split
    · exact hn
    rename_i hgo
    obtain ⟨hone, hcover, -, -⟩ := runTokens_length_bounds b hm
    have hlast := hp.size_lt_of_length_eq_one
    rw [size_run] at he
    have hlit : literalSize k ≤ k + 1 := by unfold literalSize; split <;> omega
    simp only [putSize, threshold, maxRepeatedSize, maxSingleStoreSize] at *
    exact ih (e := e + literalSize k - k + 2 * (runTokens b m).length - runCover m)
      (by decide) (by omega) (by omega) (by omega) (by omega) (by omega)
  | staged bs hbs hp ih =>
    intro k n e hk he hpaid hn hmore _
    rename_i ps
    rw [storesFrom_cons _ _ _ _ hp.ne_nil]
    split
    · exact hn
    rename_i hgo
    have hlast := hp.size_lt_of_length_eq_one
    rw [size_staged] at he
    simp only [putSize, threshold, maxSingleStoreSize] at *
    split
    · exact ih (e := e + 128 - k - bs.length) (by simp) (by omega) (by omega) (by omega)
        (by omega) (by omega)
    · exact ih (e := e) (by omega) (by omega) hpaid hn hmore (by omega)

/-- Where the loop gives up there was no overrun to come. -/
theorem not_brims_of_limit_le {limit : ℤ} {s : ℕ} (hshort : s ≤ 504 → limit = 3 * s / 4)
    {ps : List Piece} (hp : Pieced ps) {full k n : ℕ} (hfull : full ≤ 2)
    (he : n + k + size ps = s + full) (hstop : limit ≤ n) : ¬ Brims s full k ps := by
  intro h
  obtain ⟨t, ht, hs, hlen⟩ := h.exists_tail hp
  simp only [threshold, maxSingleStoreSize] at *
  have hlimit := hshort (by omega)
  omega

/-- After the third full token only a tail overruns, by its mark and the
terminator; further pieces put the source beyond the size allowed. -/
theorem storesFrom_le_iff_of_third {limit : ℤ} {s : ℕ} (hlimit : 4 * limit ≤ 3 * s)
    {ps : List Piece} (hp : Pieced ps) {n : ℕ} (he : n + 128 + size ps = s + 3) (hn : 256 ≤ n)
    (hgo : ¬ limit ≤ n) :
    storesFrom limit 0 (n + 128) ps ≤ s + 4 ↔
      ¬ ∃ tail, tail ≠ [] ∧ ps = [.staged tail] ∧ s ≤ 496 + 4 * tail.length := by
  have hmany : ∀ p qs, ps = p :: qs → qs ≠ [] → (storesFrom limit 0 (n + 128) ps ≤ s + 4 ↔
      ¬ ∃ tail, tail ≠ [] ∧ ps = [.staged tail] ∧ s ≤ 496 + 4 * tail.length) := by
    rintro p qs rfl hqs
    have hlen := List.length_pos_of_ne_nil hqs
    refine iff_of_true ?_ (by rintro ⟨_, _, h, _⟩; exact hqs (List.cons.inj h).2)
    refine storesFrom_le_of_paid hlimit hp (e := 3) (by simp) ?_ ?_ (by omega) (by omega) ?_
    · omega
    · omega
    · rw [List.length_cons]
      omega
  cases hp with
  | tail tail ht =>
    rw [size_staged, size_nil] at he
    simp only [storesFrom, putSize, literalSize, Nat.zero_add, maxSingleStoreSize, threshold] at *
    rw [if_neg (by omega)]
    constructor
    · rintro h ⟨_, hne, heq, -⟩
      obtain rfl := Piece.staged.inj (List.cons.inj heq).1
      rw [if_neg (fun hz => hne (List.length_eq_zero_iff.mp hz))] at h
      omega
    · intro h
      have hnil : tail = [] := by
        by_contra hne
        exact h ⟨tail, hne, rfl, by omega⟩
      subst hnil
      simp only [List.length_nil, if_true] at *
      omega
  | run b m hm hps => exact hmany _ _ rfl hps.ne_nil
  | staged bs hbs hps => exact hmany _ _ rfl hps.ne_nil

/-- **On the brim**: as long as every unit of the excess is a full literal
token, two at most, the pieces left overrun exactly when they brim. -/
theorem storesFrom_le_iff {limit : ℤ} {s : ℕ} (hlimit : 4 * limit ≤ 3 * s)
    (hshort : s ≤ 504 → limit = 3 * s / 4) {ps : List Piece} (hp : Pieced ps) :
    ∀ {full k n : ℕ}, full ≤ 2 → k < maxSingleStoreSize → n + k + size ps = s + full →
      128 * full ≤ n → (storesFrom limit k n ps ≤ s + 4 ↔ ¬ Brims s full k ps) := by
  induction hp with
  | tail bs hbs =>
    intro full k n hfull hk he _
    rw [size_staged, size_nil, Nat.add_zero] at he
    have htail : (storesFrom limit k n [.staged bs] : ℤ) ≤ s + full + 2 :=
      storesFrom_tail_le limit (by omega)
    exact iff_of_true (by omega) (not_brims_tail _ _ _ _)
  | run b m hm hp ih =>
    intro full k n hfull hk he hpaid
    rw [storesFrom_cons _ _ _ _ hp.ne_nil]
    split
    · rename_i hstop
      exact iff_of_true (by omega) (not_brims_of_limit_le hshort (.run b m hm hp) hfull he hstop)
    obtain ⟨hone, hcover, hshortest, hlonger⟩ := runTokens_length_bounds b hm
    rw [size_run] at he
    by_cases hsame : k ≠ 0 ∧ m = threshold
    · -- the run pays for the mark of the staged bytes, and no more
      obtain ⟨hk0, hm3⟩ := hsame
      obtain ⟨hcov, htok⟩ := hshortest hm3
      rw [Brims]
      simp only [putSize, literalSize, if_neg hk0, htok, hcov, threshold] at *
      rw [ih hfull (by simp) (by omega) (by omega)]
      exact not_congr ⟨fun h => ⟨hk0, hm3, h⟩, fun h => h.2.2⟩
    · -- the run lowers the excess
      refine iff_of_true ?_ (fun h => hsame ⟨h.1, h.2.1⟩)
      have hlast := hp.size_lt_of_length_eq_one
      have hless : literalSize k + 2 * (runTokens b m).length + 1 ≤ k + runCover m := by
        simp only [literalSize, maxRepeatedSize, threshold] at *
        split
        · omega
        · rename_i hk0
          have hfour := hlonger (fun hm3 => hsame ⟨hk0, hm3⟩)
          omega
      exact storesFrom_le_of_paid hlimit hp
        (e := full + literalSize k - k + 2 * (runTokens b m).length - runCover m)
        (by simp [putSize]) (by simp only [putSize]; omega) (by simp only [putSize]; omega)
        (by simp only [putSize]; omega) (by simp only [putSize]; omega)
        (by simp only [threshold] at hlast; omega)
  | staged bs hbs hp ih =>
    intro full k n hfull hk he hpaid
    rw [storesFrom_cons _ _ _ _ hp.ne_nil]
    split
    · rename_i hstop
      exact iff_of_true (by omega) (not_brims_of_limit_le hshort (.staged bs hbs hp) hfull he hstop)
    rename_i hgo
    have hlast := hp.size_lt_of_length_eq_one
    rw [size_staged] at he
    rw [Brims]
    simp only [threshold, maxSingleStoreSize] at *
    split
    · rename_i hexact
      simp only [putSize, maxSingleStoreSize, if_pos (Nat.le_of_eq hexact.symm)]
      split
      · -- the third full token: only a tail behind it can overrun
        exact storesFrom_le_iff_of_third hlimit hp (by omega) (by omega) hgo
      · exact ih (by omega) (by simp) (by omega) (by omega)
    · rename_i hexact
      by_cases hroom : k + bs.length < 127
      · simp only [putSize, maxSingleStoreSize, if_neg (Nat.not_le.mpr hroom)]
        rw [ih hfull hroom (by omega) hpaid]
        exact not_congr ⟨fun h => ⟨hroom, h⟩, fun h => h.2⟩
      · -- a pair straddles the limit, and its second byte is lost
        refine iff_of_true ?_ (fun h => hroom h.1)
        simp only [putSize, maxSingleStoreSize, if_pos (Nat.not_lt.mp hroom)]
        exact storesFrom_le_of_paid hlimit hp (e := full) (by simp) (by omega) (by omega)
          (by omega) (by omega) (by omega)

/-! ## The bound -/

/-- The default strategy asks for a quarter to be saved. -/
theorem resultMax_default (s : ℕ) :
    4 * resultMax s rleDefaultStrategy ≤ 3 * s ∧
      (s ≤ 504 → resultMax s rleDefaultStrategy = 3 * s / 4) := by
  have hrate : needRate rleDefaultStrategy = 25 := by decide
  simp only [resultMax, hrate, intMax]
  split <;> omega

/-- **The compressor stays within its buffer unless its source brims.** -/
theorem rleCompressStores_le_iff (source : List UInt8) :
    rleCompressStores source none ≤ pglzMaxOutput source.length ↔
      ¬ Brims source.length 0 0 (pieces source) := by
  obtain ⟨hp, hsize⟩ := pieced_piecesFrom source.length source (Nat.le_refl _)
  obtain ⟨hlimit, hshort⟩ := resultMax_default source.length
  rw [rleCompressStores_eq, pglzMaxOutput]
  split
  · -- a source too short or too long for the strategy does not brim either
    rename_i hsuited
    refine iff_of_true (by omega) fun h => ?_
    obtain ⟨t, ht, hs, hlen⟩ := h.exists_tail hp
    simp only [Option.getD_none, rleDefaultStrategy, intMax, threshold, maxSingleStoreSize] at *
    omega
  · exact storesFrom_le_iff hlimit hshort hp (by omega) (by simp) (by omega) (by omega)

/-- A source of 383 bytes no two neighbours of which agree: three full literal
tokens, the last two bytes with their mark, and the terminator come to 388
bytes, one more than the buffer has. -/
theorem not_forall_rleCompressStores_le :
    ¬ ∀ source : List UInt8, rleDefaultStrategy.minInputSize ≤ source.length →
      (source.length : ℤ) ≤ rleDefaultStrategy.maxInputSize →
      rleCompressStores source none ≤ pglzMaxOutput source.length := by
  intro h
  have hstores := h ((List.replicate 191 [1, 2]).flatten ++ [1]) (by decide +kernel)
    (by decide +kernel)
  exact absurd hstores (by decide +kernel)

end Rle
