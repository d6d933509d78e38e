import Hoco.RleCompress
import Hoco.RleDecompress

/-!
# Compression and decompression

What the compressor writes is a sequence of non-empty tokens, so the
decompressor reads all of it back. Whether it reads back the *source* depends
on one thing: whether the staging buffer ever held more bytes than a literal
token takes. A buffer of 126 bytes that receives two bytes at once is written
as a literal of 127, and the byte left over is lost.

`LiteralsFit` states the condition on the source alone: its pieces are
measured against the buffer, which starts empty, is emptied by a run and
starts over whenever it is exactly full. `rleDecompress_rleCompress_iff` says
that the round trip succeeds precisely for these sources. Where it fails it
fails visibly – the tokens stand for fewer bytes than the source has, and the
completeness check of the decompressor rejects them.
-/

namespace Rle

/-- The pieces fit the buffer, which holds `k` bytes: no bytes staged together
take it past the literal limit. -/
def FitsFrom : ℕ → List Piece → Prop
  | _, [] => True
  | _, .run _ _ :: ps => FitsFrom 0 ps
  | k, .staged bs :: ps =>
    k + bs.length ≤ maxSingleStoreSize ∧ FitsFrom ((k + bs.length) % maxSingleStoreSize) ps

instance decidableFitsFrom : ∀ (k : ℕ) (ps : List Piece), Decidable (FitsFrom k ps)
  | _, [] => .isTrue trivial
  | _, .run _ _ :: ps => decidableFitsFrom 0 ps
  | k, .staged bs :: ps =>
    have := decidableFitsFrom ((k + bs.length) % maxSingleStoreSize) ps
    inferInstanceAs (Decidable (_ ∧ _))

/-- **The literals of a source fit the staging buffer**: no equal pair, and
not the last two bytes of the source, are staged when the buffer already holds
126 bytes. -/
def LiteralsFit (source : List UInt8) : Prop := FitsFrom 0 (pieces source)

instance : DecidablePred LiteralsFit := fun source => decidableFitsFrom 0 (pieces source)

/-! ## The pieces make up the source -/

theorem flatMap_bytes_piecesFrom (fuel : ℕ) (dp : List UInt8) :
    (piecesFrom fuel dp).flatMap Piece.bytes = dp := by
  induction fuel generalizing dp with
  | zero => simp [piecesFrom, Piece.bytes]
  | succ fuel ih =>
    rcases dp with _ | ⟨a, _ | ⟨b, _ | ⟨c, dp⟩⟩⟩
    · simp [piecesFrom, Piece.bytes]
    · simp [piecesFrom, Piece.bytes]
    · simp [piecesFrom, Piece.bytes]
    · rw [piecesFrom]
      split
      · split
        · rename_i hab hbc
          obtain ⟨rest, hsplit, -⟩ := eq_replicate_append_of_runLength a (b :: c :: dp)
          have hcover : List.replicate (runCover (runLength (a :: b :: c :: dp))) a
              = (a :: b :: c :: dp).take (runCover (runLength (a :: b :: c :: dp))) := by
            conv_rhs => arg 2; rw [hsplit]
            rw [List.take_append_of_le_length (by rw [List.length_replicate]; exact runCover_le _),
              List.take_replicate, Nat.min_eq_left (runCover_le _)]
          rw [List.flatMap_cons, ih, Piece.bytes, hcover, List.take_append_drop]
        · rename_i hab _
          rw [List.flatMap_cons, ih, Piece.bytes, hab]
          rfl
      · rw [List.flatMap_cons, ih]
        rfl

theorem flatMap_bytes_pieces (source : List UInt8) :
    (pieces source).flatMap Piece.bytes = source :=
  flatMap_bytes_piecesFrom _ _

/-! ## What the written and the staged bytes stand for -/

/-- The written bytes are the encoding of `ts`, and the staged bytes are fewer
than a full literal. -/
structure Represents (ts : List Token) (s : List UInt8 × List UInt8) : Prop where
  out_eq : s.2 = encode ts
  nonempty : AllNonempty ts
  buf_lt : s.1.length < maxSingleStoreSize

/-- The staged bytes as the tokens they are written as. -/
theorem exists_tokens_of_staged {buf : List UInt8} (h : buf.length < maxSingleStoreSize) :
    ∃ ts, AllNonempty ts ∧ expand ts = buf ∧
      encode ts = (if buf = [] then [] else UInt8.ofNat buf.length :: buf) := by
  by_cases hbuf : buf = []
  · exact ⟨[], by simp, by simp [hbuf], by simp [hbuf]⟩
  · refine ⟨[.lit buf (by omega)], ?_, by simp [Token.expand], by simp [Token.encode, hbuf]⟩
    simpa [Token.Nonempty, Token.expand] using hbuf

/-- **A run is written behind the staged bytes**, and nothing is lost. -/
theorem Represents.put_run {ts : List Token} {s : List UInt8 × List UInt8}
    (h : Represents ts s) (b : UInt8) (m : ℕ) :
    ∃ ts', Represents ts' (putPiece s (.run b m)) ∧ (putPiece s (.run b m)).1 = [] ∧
      expand ts' ++ (putPiece s (.run b m)).1
        = expand ts ++ s.1 ++ (Piece.run b m).bytes := by
  obtain ⟨us, hne, hexp, henc⟩ := exists_tokens_of_staged h.buf_lt
  refine ⟨ts ++ us ++ runTokens b m, ⟨?_, ?_, by simp [putPiece, maxSingleStoreSize]⟩, rfl, ?_⟩
  · rw [putPiece, h.out_eq, ← henc, encode_append, encode_append]
  · simp [allNonempty_append, h.nonempty, hne, allNonempty_runTokens]
  · rw [putPiece, expand_append, expand_append, hexp, expand_runTokens, Piece.bytes,
      List.append_nil]

/-- **Bytes that fit are kept**, and the buffer starts over when they fill it
exactly. -/
theorem Represents.put_staged {ts : List Token} {s : List UInt8 × List UInt8}
    (h : Represents ts s) {bs : List UInt8} (hfit : s.1.length + bs.length ≤ maxSingleStoreSize) :
    ∃ ts', Represents ts' (putPiece s (.staged bs)) ∧
      (putPiece s (.staged bs)).1.length = (s.1.length + bs.length) % maxSingleStoreSize ∧
      expand ts' ++ (putPiece s (.staged bs)).1 = expand ts ++ s.1 ++ bs := by
  by_cases hfull : maxSingleStoreSize ≤ (s.1 ++ bs).length
  · have hlen : (s.1 ++ bs).length = maxSingleStoreSize := by
      rw [List.length_append] at *
      omega
    have htake : (s.1 ++ bs).take maxSingleStoreSize = s.1 ++ bs := by
      rw [← hlen, List.take_length]
    refine ⟨ts ++ [.lit (s.1 ++ bs) (by omega)], ⟨?_, ?_, ?_⟩, ?_, ?_⟩
    · rw [putPiece, if_pos hfull, h.out_eq, encode_append, htake]
      simp only [encode_cons, encode_nil, List.append_nil, Token.encode, hlen]
    · rw [allNonempty_append]
      refine ⟨h.nonempty, ?_⟩
      have hne : s.1 ++ bs ≠ [] := by
        intro hnil
        rw [hnil] at hlen
        simp [maxSingleStoreSize] at hlen
      simpa [Token.Nonempty, Token.expand] using hne
    · rw [putPiece, if_pos hfull]
      simp [maxSingleStoreSize]
    · rw [putPiece, if_pos hfull, ← List.length_append, hlen, Nat.mod_self]
      rfl
    · rw [putPiece, if_pos hfull, expand_append]
      simp [Token.expand]
  · have hlt : s.1.length + bs.length < maxSingleStoreSize := by
      rw [List.length_append] at hfull
      omega
    refine ⟨ts, ⟨?_, h.nonempty, ?_⟩, ?_, ?_⟩
    · rw [putPiece, if_neg hfull, h.out_eq]
    · rw [putPiece, if_neg hfull, List.length_append]
      exact hlt
    · rw [putPiece, if_neg hfull, List.length_append, Nat.mod_eq_of_lt hlt]
    · rw [putPiece, if_neg hfull, List.append_assoc]

/-- **Bytes that do not fit lose their last**: what is written and staged
stands for fewer bytes than were handled. -/
theorem Represents.put_staged_of_lt {ts : List Token} {s : List UInt8 × List UInt8}
    (h : Represents ts s) {bs : List UInt8} (hover : maxSingleStoreSize < s.1.length + bs.length) :
    ∃ ts', Represents ts' (putPiece s (.staged bs)) ∧
      (expand ts' ++ (putPiece s (.staged bs)).1).length
        < (expand ts ++ s.1).length + bs.length := by
  have hfull : maxSingleStoreSize ≤ (s.1 ++ bs).length := by
    rw [List.length_append]
    omega
  have htake : ((s.1 ++ bs).take maxSingleStoreSize).length = maxSingleStoreSize := by
    rw [List.length_take, Nat.min_eq_left hfull]
  refine ⟨ts ++ [.lit ((s.1 ++ bs).take maxSingleStoreSize) (by omega)], ⟨?_, ?_, ?_⟩, ?_⟩
  · rw [putPiece, if_pos hfull, h.out_eq, encode_append]
    simp only [encode_cons, encode_nil, List.append_nil, Token.encode, htake]
  · rw [allNonempty_append]
    refine ⟨h.nonempty, ?_⟩
    have hne : (s.1 ++ bs).take maxSingleStoreSize ≠ [] := by
      intro hnil
      rw [hnil] at htake
      simp [maxSingleStoreSize] at htake
    simpa [Token.Nonempty, Token.expand] using hne
  · rw [putPiece, if_pos hfull]
    simp [maxSingleStoreSize]
  · rw [putPiece, if_pos hfull, expand_append]
    simp only [expand_cons, expand_nil, Token.expand, List.append_nil, List.length_append, htake]
    omega

/-! ## All the pieces -/

/-- Every piece keeps the representation, and none adds bytes of its own. -/
theorem Represents.put {ts : List Token} {s : List UInt8 × List UInt8} (h : Represents ts s)
    (p : Piece) :
    ∃ ts', Represents ts' (putPiece s p) ∧
      (expand ts' ++ (putPiece s p).1).length ≤ (expand ts ++ s.1).length + p.bytes.length := by
  cases p with
  | run b m =>
    obtain ⟨ts', hts', -, hexp⟩ := h.put_run b m
    exact ⟨ts', hts', by rw [hexp, List.length_append]⟩
  | staged bs =>
    rcases Nat.lt_or_ge maxSingleStoreSize (s.1.length + bs.length) with hover | hfit
    · obtain ⟨ts', hts', hlt⟩ := h.put_staged_of_lt hover
      exact ⟨ts', hts', le_of_lt hlt⟩
    · obtain ⟨ts', hts', -, hexp⟩ := h.put_staged hfit
      exact ⟨ts', hts', by rw [hexp, List.length_append]; rfl⟩

/-- The pieces never stand for more bytes than they are made of. -/
theorem Represents.foldl_le (ps : List Piece) :
    ∀ {ts : List Token} {s : List UInt8 × List UInt8}, Represents ts s →
      ∃ ts', Represents ts' (ps.foldl putPiece s) ∧
        (expand ts' ++ (ps.foldl putPiece s).1).length
          ≤ (expand ts ++ s.1).length + (ps.flatMap Piece.bytes).length := by
  induction ps with
  | nil =>
    intro ts s h
    exact ⟨ts, h, by simp⟩
  | cons p ps ih =>
    intro ts s h
    obtain ⟨ts', h', hle⟩ := h.put p
    obtain ⟨ts'', h'', hle'⟩ := ih h'
    refine ⟨ts'', h'', ?_⟩
    rw [List.foldl_cons, List.flatMap_cons, @List.length_append _ p.bytes]
    omega

/-- **Pieces that fit are kept in order.** -/
theorem Represents.foldl_of_fits (ps : List Piece) :
    ∀ {ts : List Token} {s : List UInt8 × List UInt8}, Represents ts s →
      FitsFrom s.1.length ps →
      ∃ ts', Represents ts' (ps.foldl putPiece s) ∧
        expand ts' ++ (ps.foldl putPiece s).1 = expand ts ++ s.1 ++ ps.flatMap Piece.bytes := by
  induction ps with
  | nil =>
    intro ts s h _
    exact ⟨ts, h, by simp⟩
  | cons p ps ih =>
    intro ts s h hfits
    cases p with
    | run b m =>
      obtain ⟨ts', h', hnil, hexp⟩ := h.put_run b m
      obtain ⟨ts'', h'', hexp'⟩ := ih h' (by rw [hnil]; exact hfits)
      exact ⟨ts'', h'', by rw [List.foldl_cons, hexp', hexp, List.flatMap_cons,
        List.append_assoc (expand ts ++ s.1)]⟩
    | staged bs =>
      obtain ⟨ts', h', hlen, hexp⟩ := h.put_staged hfits.1
      obtain ⟨ts'', h'', hexp'⟩ := ih h' (by rw [hlen]; exact hfits.2)
      exact ⟨ts'', h'', by rw [List.foldl_cons, hexp', hexp, List.flatMap_cons,
        List.append_assoc (expand ts ++ s.1)]; rfl⟩

/-- **Pieces that do not fit lose a byte**, and what is lost never comes
back. -/
theorem Represents.foldl_of_not_fits (ps : List Piece) :
    ∀ {ts : List Token} {s : List UInt8 × List UInt8}, Represents ts s →
      ¬ FitsFrom s.1.length ps →
      ∃ ts', Represents ts' (ps.foldl putPiece s) ∧
        (expand ts' ++ (ps.foldl putPiece s).1).length
          < (expand ts ++ s.1).length + (ps.flatMap Piece.bytes).length := by
  induction ps with
  | nil =>
    intro ts s _ hfits
    exact absurd trivial hfits
  | cons p ps ih =>
    intro ts s h hfits
    rw [List.foldl_cons, List.flatMap_cons, @List.length_append _ p.bytes]
    cases p with
    | run b m =>
      obtain ⟨ts', h', hnil, hexp⟩ := h.put_run b m
      obtain ⟨ts'', h'', hlt⟩ := ih h' (by rw [hnil]; exact hfits)
      rw [hexp, @List.length_append _ (expand ts ++ s.1)] at hlt
      exact ⟨ts'', h'', by omega⟩
    | staged bs =>
      rcases Nat.lt_or_ge maxSingleStoreSize (s.1.length + bs.length) with hover | hfit
      · -- the byte is lost here; the later pieces add nothing of their own
        obtain ⟨ts', h', hlt⟩ := h.put_staged_of_lt hover
        obtain ⟨ts'', h'', hle⟩ := h'.foldl_le ps
        refine ⟨ts'', h'', ?_⟩
        show _ < _ + (bs.length + _)
        omega
      · obtain ⟨ts', h', hlen, hexp⟩ := h.put_staged hfit
        obtain ⟨ts'', h'', hlt⟩ := ih h' (by rw [hlen]; exact fun hps => hfits ⟨hfit, hps⟩)
        rw [hexp, @List.length_append _ (expand ts ++ s.1)] at hlt
        refine ⟨ts'', h'', ?_⟩
        show _ < _ + (bs.length + _)
        omega

/-- The output finished: the staged bytes are one more token. -/
theorem Represents.finish_eq {ts : List Token} {s : List UInt8 × List UInt8}
    (h : Represents ts s) :
    ∃ ts', AllNonempty ts' ∧ finish s = encode ts' ∧ expand ts' = expand ts ++ s.1 := by
  obtain ⟨us, hne, hexp, henc⟩ := exists_tokens_of_staged h.buf_lt
  refine ⟨ts ++ us, (allNonempty_append ts us).mpr ⟨h.nonempty, hne⟩, ?_, ?_⟩
  · rw [finish, h.out_eq, ← henc, encode_append]
  · rw [expand_append, hexp]

theorem represents_nil : Represents [] ([], []) :=
  ⟨rfl, by simp, by simp [maxSingleStoreSize]⟩

/-! ## The round trip -/

/-- A source whose literals fit is encoded by tokens that stand for it. -/
theorem exists_tokens_of_literalsFit {source dest : List UInt8} {strategy : Option Strategy}
    (h : rleCompress source strategy = some dest) (hfit : LiteralsFit source) :
    ∃ ts, AllNonempty ts ∧ dest = encode ts ∧ expand ts = source := by
  obtain ⟨ts, hts, hexp⟩ := represents_nil.foldl_of_fits (pieces source) hfit
  obtain ⟨ts', hne, hfin, hexp'⟩ := hts.finish_eq
  refine ⟨ts', hne, (rleCompress_eq_some h).trans hfin, ?_⟩
  rw [hexp', hexp, flatMap_bytes_pieces]
  rfl

/-- Any other source is encoded by tokens that stand for fewer bytes than it
has. -/
theorem exists_tokens_of_not_literalsFit {source dest : List UInt8}
    {strategy : Option Strategy} (h : rleCompress source strategy = some dest)
    (hfit : ¬ LiteralsFit source) :
    ∃ ts, AllNonempty ts ∧ dest = encode ts ∧ (expand ts).length < source.length := by
  obtain ⟨ts, hts, hlt⟩ := represents_nil.foldl_of_not_fits (pieces source) hfit
  obtain ⟨ts', hne, hfin, hexp'⟩ := hts.finish_eq
  refine ⟨ts', hne, (rleCompress_eq_some h).trans hfin, ?_⟩
  rw [flatMap_bytes_pieces] at hlt
  rw [hexp']
  simpa using hlt

/-- **The round trip succeeds exactly when the literals fit.** Decompressing
what the compressor wrote, with whatever bytes behind it, returns the length
of the source and its bytes if and only if no two bytes staged together meet a
buffer of 126. -/
theorem rleDecompress_rleCompress_iff (source dest : List UInt8) (strategy : Option Strategy)
    (post : Mem) (h : rleCompress source strategy = some dest) :
    (∃ out, rleDecompress (dest ++ post) dest.length source.length true
        = .ok (source.length, out) ∧ out.take source.length = source)
      ↔ LiteralsFit source := by
  constructor
  · rintro ⟨out, hrun, -⟩
    by_contra hfit
    obtain ⟨ts, -, rfl, hlt⟩ := exists_tokens_of_not_literalsFit h hfit
    rw [rleDecompress_encode_of_lt post (by exact_mod_cast hlt)] at hrun
    have hret := congrArg Prod.fst (Except.ok.inj hrun)
    simp only at hret
    omega
  · intro hfit
    obtain ⟨ts, hne, rfl, hexp⟩ := exists_tokens_of_literalsFit h hfit
    refine ⟨source, ?_, List.take_length⟩
    rw [← hexp]
    exact rleDecompress_encode hne post true

/-- A short run, compressed with the default strategy. -/
theorem rleDecompress_rleCompress_iff_run :
    rleCompress (List.replicate 40 97) none = some [165, 97] ∧
      ((∃ out, rleDecompress ([165, 97] ++ [0]) 2 40 true = .ok (40, out) ∧
          out.take 40 = List.replicate 40 97)
        ↔ LiteralsFit (List.replicate 40 97)) :=
  have h : rleCompress (List.replicate 40 97) none = some [165, 97] := by decide
  ⟨h, rleDecompress_rleCompress_iff (List.replicate 40 97) [165, 97] none [0] h⟩

/-- A source whose round trip fails: 126 single bytes, a pair, and a run long
enough to make compression worth it. -/
def splitPair : List UInt8 :=
  (List.replicate 63 [1, 2]).flatten ++ [5, 5] ++ List.replicate 130 97

/-- **The round trip fails on a pair that meets a buffer of 126 bytes**: the
compressor succeeds, and the decompressor rejects what it wrote. -/
theorem not_forall_rleDecompress_rleCompress :
    ¬ ∀ (source dest : List UInt8) (strategy : Option Strategy) (post : Mem),
      rleCompress source strategy = some dest →
      ∃ out, rleDecompress (dest ++ post) dest.length source.length true
        = .ok (source.length, out) ∧ out.take source.length = source := by
  intro hall
  have hcomp : (rleCompress splitPair none).isSome = true := by decide +kernel
  obtain ⟨dest, hdest⟩ := Option.isSome_iff_exists.mp hcomp
  obtain ⟨out, hrun, -⟩ := hall splitPair dest none [] hdest
  obtain ⟨ts, -, rfl, hlt⟩ := exists_tokens_of_not_literalsFit hdest (by decide +kernel)
  rw [rleDecompress_encode_of_lt [] (by exact_mod_cast hlt)] at hrun
  have hret := congrArg Prod.fst (Except.ok.inj hrun)
  simp only at hret
  omega

end Rle
