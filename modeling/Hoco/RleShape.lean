import Hoco.RleCompress

/-!
# The shape of what the compressor writes

Two facts about the output of `rle_compress` that do not ask whether it can be
read back.

The emission loop splits a run without remainder worth a token: its counter runs
two below the bytes left and is lowered by a whole token also for the last one,
and what it leaves is shorter than a run (`emitRun_split`).

The tokens are **tight**: a literal has no three equal bytes in a row. A byte is
staged only when it, or the pair it belongs to, is followed by another one, so the
last staged byte never agrees with the next one to be read – until the buffer is
empty, after a run or when it was full. `Staging` is this invariant, and it survives
a full buffer also where a byte is lost.
-/

namespace Rle

/-! ## Splitting a run -/

/-- What the run tokens leave of a run is shorter than a run. -/
theorem le_runCover_add (m : ℕ) : m ≤ runCover m + 2 := by
  simp only [runCover, maxRepeatedSize, threshold]
  split <;> omega

theorem mem_runTokens {b : UInt8} {m : ℕ} {t : Token} (h : t ∈ runTokens b m) :
    ∃ k, t = .run b k := by
  unfold runTokens at h
  rcases List.mem_append.mp h with h | h
  · exact ⟨127, List.eq_of_mem_replicate h⟩
  · split at h
    · exact absurd h List.not_mem_nil
    · exact ⟨_, List.mem_singleton.mp h⟩

/-- **Run splitting is exact.** At a maximal run of at least three bytes, with the
counter that the measuring loop has found, the emission loop ends – any bound on its
turns from the counter on gives the same state – and has written run tokens of its
byte only. They stand for the bytes the loop has moved past, all of them in the run,
and at most two bytes of it are left. -/
theorem emitRun_split {a : UInt8} {L : ℕ} {rest : List UInt8} (hL : threshold ≤ L)
    (hrest : rest.head? ≠ some a) (st : CompressState)
    (hdp : st.dp = List.replicate L a ++ rest) :
    ∃ ts k, (∀ fuel, L - 2 ≤ fuel → emitRun a fuel (scanRun st.dp st.dp.length 1) st
        = { st with dp := st.dp.drop k, out := st.out ++ encode ts })
      ∧ (∀ t ∈ ts, ∃ n, 3 ≤ n ∧ n ≤ 130 ∧ t.expand = List.replicate n a
        ∧ t.encode = [UInt8.ofNat (128 + (n - 3)), a])
      ∧ expand ts = List.replicate k a ∧ k ≤ L
      ∧ (L - k = 0 ∨ L - k = 1 ∨ L - k = 2) := by
  have hthree : 3 ≤ L := hL
  have hscan : scanRun st.dp st.dp.length 1 = L - 2 := by
    rw [hdp]
    refine scanRun_eq hrest _ 1 hL ?_
    rw [List.length_append, List.length_replicate]
    omega
  refine ⟨runTokens a L, runCover L, fun fuel hfuel => ?_, fun t ht => ?_, expand_runTokens a L,
    runCover_le L, ?_⟩
  · rw [hscan, show ((L - 2 : ℕ) : ℤ) = (L : ℤ) - 2 by omega]
    exact emitRun_eq a fuel L st (by omega)
  · obtain ⟨k, rfl⟩ := mem_runTokens ht
    refine ⟨k + 3, by omega, by omega, rfl, ?_⟩
    rw [Nat.add_sub_cancel]
    rfl
  · have hle := runCover_le L
    have hge := le_runCover_add L
    omega

/-- A run of `131` bytes: one full token, and a byte is left. -/
theorem emitRun_split_long : ∃ ts k,
    (∀ fuel, 129 ≤ fuel →
      emitRun 97 fuel (scanRun (List.replicate 131 97 ++ [98]) 132 1)
          ⟨List.replicate 131 97 ++ [98], [], []⟩
        = ⟨List.drop k (List.replicate 131 97 ++ [98] : List UInt8), [], encode ts⟩)
      ∧ (∀ t ∈ ts, ∃ n, 3 ≤ n ∧ n ≤ 130 ∧ t.expand = List.replicate n 97
        ∧ t.encode = [UInt8.ofNat (128 + (n - 3)), 97])
      ∧ expand ts = List.replicate k 97 ∧ k ≤ 131
      ∧ (131 - k = 0 ∨ 131 - k = 1 ∨ 131 - k = 2) :=
  emitRun_split (by decide) (by decide) ⟨List.replicate 131 97 ++ [98], [], []⟩ rfl

/-! ## Tight tokens -/

/-- No byte occurs three times in a row. -/
def NoTriple (bs : List UInt8) : Prop :=
  ∀ i x, ¬ (bs[i]? = some x ∧ bs[i + 1]? = some x ∧ bs[i + 2]? = some x)

theorem noTriple_of_length_lt {bs : List UInt8} (h : bs.length < threshold) : NoTriple bs := by
  rintro i x ⟨-, -, hx⟩
  obtain ⟨hlt, -⟩ := List.getElem?_eq_some_iff.mp hx
  simp only [threshold] at h
  omega

theorem NoTriple.take {bs : List UInt8} (h : NoTriple bs) (n : ℕ) : NoTriple (bs.take n) := by
  rintro i x ⟨h₀, h₁, h₂⟩
  have hold : ∀ {j}, (bs.take n)[j]? = some x → bs[j]? = some x := fun {j} hj => by
    rw [List.getElem?_take] at hj
    split at hj
    · exact hj
    · cases hj
  exact h i x ⟨hold h₀, hold h₁, hold h₂⟩

/-- Where the last byte of the one and the first byte of the other differ, there is
no triple across. -/
theorem NoTriple.append {bs cs : List UInt8} (hb : NoTriple bs) (hc : NoTriple cs)
    (h : ∀ x, bs.getLast? = some x → cs.head? ≠ some x) : NoTriple (bs ++ cs) := by
  rintro i x ⟨h₀, h₁, h₂⟩
  have hleft : ∀ {j}, j < bs.length → (bs ++ cs)[j]? = some x → bs[j]? = some x :=
    fun {j} hj hx => by rwa [List.getElem?_append_left hj] at hx
  have hright : ∀ {j}, bs.length ≤ j → (bs ++ cs)[j]? = some x → cs[j - bs.length]? = some x :=
    fun {j} hj hx => by rwa [List.getElem?_append_right hj] at hx
  -- a triple across has its byte on both sides of the seam
  have hseam : ∀ {j}, j + 1 = bs.length → (bs ++ cs)[j]? = some x → (bs ++ cs)[j + 1]? ≠ some x :=
    fun {j} hj hx hx' => by
      refine h x ?_ ?_
      · rw [List.getLast?_eq_getElem?, ← hj]
        exact hleft (by omega) hx
      · rw [List.head?_eq_getElem?]
        have hzero := hright (j := j + 1) (by omega) hx'
        rwa [hj, Nat.sub_self] at hzero
  rcases Nat.lt_or_ge (i + 2) bs.length with hlt | hge
  · exact hb i x ⟨hleft (by omega) h₀, hleft (by omega) h₁, hleft hlt h₂⟩
  · rcases Nat.lt_or_ge i bs.length with hlt | hge'
    · obtain hi | hi : i + 1 = bs.length ∨ i + 1 + 1 = bs.length := by omega
      · exact hseam hi h₀ h₁
      · exact hseam hi h₁ h₂
    · refine hc (i - bs.length) x ⟨hright hge' h₀, ?_, ?_⟩
      · rw [← Nat.sub_add_comm hge']
        exact hright (by omega) h₁
      · rw [← Nat.sub_add_comm hge']
        exact hright (by omega) h₂

/-- **A token as the compressor writes it**: a literal of at least one byte and without
a triple, or three to 130 copies of a byte. -/
def Token.Tight : Token → Prop
  | lit bs _ => (1 ≤ bs.length ∧ bs.length ≤ 127) ∧ NoTriple bs
  | run b k => ∃ n, (3 ≤ n ∧ n ≤ 130) ∧ (run b k).expand = List.replicate n b

theorem Token.tight_run (b : UInt8) (k : Fin 128) : (run b k).Tight :=
  ⟨k + 3, ⟨by omega, by omega⟩, rfl⟩

theorem Token.Tight.nonempty {t : Token} (h : t.Tight) : t.Nonempty := by
  cases t with
  | lit bs fits => exact List.length_pos_iff.mp h.1.1
  | run b k => exact nonempty_run b k

/-- The bytes are the encoding of tight tokens. -/
def TightBytes (out : List UInt8) : Prop := ∃ ts, out = encode ts ∧ ∀ t ∈ ts, t.Tight

theorem TightBytes.append {out out' : List UInt8} (h : TightBytes out) (h' : TightBytes out') :
    TightBytes (out ++ out') := by
  obtain ⟨ts, rfl, hts⟩ := h
  obtain ⟨us, rfl, hus⟩ := h'
  refine ⟨ts ++ us, (encode_append ts us).symm, fun t ht => ?_⟩
  exact (List.mem_append.mp ht).elim (hts t) (hus t)

/-- A literal without a triple. -/
theorem tightBytes_literal {bs : List UInt8} (hne : bs ≠ [])
    (hlen : bs.length ≤ maxSingleStoreSize) (h : NoTriple bs) :
    TightBytes (UInt8.ofNat bs.length :: bs) := by
  refine ⟨[.lit bs hlen], (List.append_nil _).symm, fun t ht => ?_⟩
  rw [List.mem_singleton.mp ht]
  exact ⟨⟨List.length_pos_iff.mpr hne, hlen⟩, h⟩

theorem tightBytes_runTokens (b : UInt8) (m : ℕ) : TightBytes (encode (runTokens b m)) := by
  refine ⟨_, rfl, fun t ht => ?_⟩
  obtain ⟨k, rfl⟩ := mem_runTokens ht
  exact Token.tight_run b k

/-- **The invariant of the staging buffer**, with `dp` still to be read. -/
structure Staging (buf dp : List UInt8) : Prop where
  noTriple : NoTriple buf
  length_lt : buf.length < maxSingleStoreSize
  seam : ∀ x, buf.getLast? = some x → dp.head? ≠ some x

theorem staging_nil (dp : List UInt8) : Staging [] dp :=
  ⟨noTriple_of_length_lt (by decide), by decide, fun x hx => by cases hx⟩

/-- The staged bytes as the last token, or as none. -/
theorem Staging.tightBytes {buf dp : List UInt8} (h : Staging buf dp) :
    TightBytes (if buf = [] then [] else UInt8.ofNat buf.length :: buf) := by
  split
  · exact ⟨[], rfl, fun t ht => absurd ht List.not_mem_nil⟩
  · rename_i hne
    exact tightBytes_literal hne (Nat.le_of_lt h.length_lt) h.noTriple

variable {s : List UInt8 × List UInt8}

/-- A run closes the literal and is written itself. -/
theorem TightBytes.put_run (h : TightBytes s.2) {dp : List UInt8} (hs : Staging s.1 dp) (b : UInt8)
    (m : ℕ) : TightBytes (putPiece s (.run b m)).2 :=
  (h.append hs.tightBytes).append (tightBytes_runTokens b m)

/-- Bytes are staged in front of one that differs from the last of them. A full buffer
is written as far as a literal takes it, and nothing of it stays. -/
theorem Staging.put_staged {bs dp : List UInt8} (hs : Staging s.1 (bs ++ dp))
    (hout : TightBytes s.2) (hne : bs ≠ []) (hbs : NoTriple bs)
    (hdp : ∀ x, bs.getLast? = some x → dp.head? ≠ some x) :
    Staging (putPiece s (.staged bs)).1 dp ∧ TightBytes (putPiece s (.staged bs)).2 := by
  have hseam : ∀ x, s.1.getLast? = some x → bs.head? ≠ some x := fun x hx hhead =>
    hs.seam x hx (by rw [List.head?_append_of_ne_nil _ hne, hhead])
  have hno : NoTriple (s.1 ++ bs) := hs.noTriple.append hbs hseam
  rw [putPiece]
  split
  · rename_i hfull
    refine ⟨staging_nil dp, hout.append ?_⟩
    have hlen : ((s.1 ++ bs).take maxSingleStoreSize).length = maxSingleStoreSize := by
      rw [List.length_take, Nat.min_eq_left hfull]
    have hne' : (s.1 ++ bs).take maxSingleStoreSize ≠ [] := fun hnil => by
      rw [hnil] at hlen
      cases hlen
    have htight := tightBytes_literal hne' (Nat.le_of_eq hlen) (hno.take _)
    rwa [hlen] at htight
  · rename_i hfull
    refine ⟨⟨hno, Nat.not_le.mp hfull, fun x hx => hdp x ?_⟩, hout⟩
    rwa [List.getLast?_append_of_ne_nil _ hne] at hx

/-- The tail and the last token. -/
theorem Staging.tightBytes_finish {dp : List UInt8} (hs : Staging s.1 dp) (hout : TightBytes s.2)
    (hlen : dp.length < threshold) : TightBytes (finish (putPiece s (.staged dp))) := by
  rcases dp with _ | ⟨a, dp⟩
  · rw [putPiece, List.append_nil, if_neg (Nat.not_le.mpr hs.length_lt)]
    exact hout.append hs.tightBytes
  · rw [← List.append_nil (a :: dp)] at hs
    obtain ⟨hs', hout'⟩ := hs.put_staged hout (List.cons_ne_nil a dp) (noTriple_of_length_lt hlen)
      fun x _ hx => by cases hx
    exact hout'.append hs'.tightBytes

/-- **Piece after piece the tokens are tight.** -/
theorem tightBytes_piecesFrom (fuel : ℕ) (dp : List UInt8) (hfuel : dp.length ≤ fuel)
    (hs : Staging s.1 dp) (hout : TightBytes s.2) :
    TightBytes (finish ((piecesFrom fuel dp).foldl putPiece s)) := by
  induction fuel generalizing dp s with
  | zero =>
    obtain rfl : dp = [] := List.length_eq_zero_iff.mp (Nat.le_zero.mp hfuel)
    exact hs.tightBytes_finish hout (by decide)
  | succ fuel ih =>
    rcases dp with _ | ⟨a, _ | ⟨b, _ | ⟨c, dp⟩⟩⟩
    · exact hs.tightBytes_finish hout (by simp [threshold])
    · exact hs.tightBytes_finish hout (by simp [threshold])
    · exact hs.tightBytes_finish hout (by simp [threshold])
    · simp only [List.length_cons] at hfuel
      rw [piecesFrom]
      split
      · rename_i hab
        subst hab
        split
        · -- a run: the buffer is empty afterwards
          refine ih _ ?_ (staging_nil _) (hout.put_run hs a _)
          rename_i hbc
          subst hbc
          have hm : 3 ≤ runLength (a :: a :: a :: dp) := by simp [runLength]
          have hge := le_runCover_add (runLength (a :: a :: a :: dp))
          rw [List.length_drop]
          simp only [List.length_cons]
          omega
        · -- a pair in front of another byte
          rename_i hbc
          have hpair : Staging s.1 ([a, a] ++ c :: dp) := hs
          obtain ⟨hs', hout'⟩ := hpair.put_staged hout (List.cons_ne_nil _ _)
            (noTriple_of_length_lt (Nat.lt_succ_self 2)) fun x hx hc => by
              cases hx
              cases hc
              exact hbc rfl
          exact ih _ (by simp only [List.length_cons]; omega) hs' hout'
      · -- a single byte in front of another one
        rename_i hab
        have hsingle : Staging s.1 ([a] ++ b :: c :: dp) := hs
        obtain ⟨hs', hout'⟩ := hsingle.put_staged hout (List.cons_ne_nil _ _)
          (noTriple_of_length_lt (Nat.lt_succ_of_lt Nat.one_lt_two)) fun x hx hb => by
            cases hx
            cases hb
            exact hab rfl
        exact ih _ (by simp only [List.length_cons]; omega) hs' hout'

/-- **The shape of the output.** What the compressor writes, when it succeeds, are
tokens all of which are tight; in particular none is empty. -/
theorem exists_tight_of_rleCompress {source dest : List UInt8} {strategy : Option Strategy}
    (h : rleCompress source strategy = some dest) :
    ∃ ts, dest = encode ts ∧ (∀ t ∈ ts, t.Tight) ∧ AllNonempty ts := by
  obtain ⟨ts, hts, htight⟩ : TightBytes dest := by
    rw [rleCompress_eq_some h]
    exact tightBytes_piecesFrom _ _ (Nat.le_refl _) (staging_nil _)
      ⟨[], rfl, fun t ht => absurd ht List.not_mem_nil⟩
  exact ⟨ts, hts, htight, fun t ht => (htight t ht).nonempty⟩

theorem exists_tight_of_rleCompress_run : ∃ ts,
    [165, 97] = encode ts ∧ (∀ t ∈ ts, t.Tight) ∧ AllNonempty ts := by
  have hrun : rleCompress (List.replicate 40 97) none = some [165, 97] := by decide
  exact exists_tight_of_rleCompress hrun

end Rle
