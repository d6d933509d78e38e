import Hoco.RleDecompress

/-!
# The decompressor on arbitrary bytes

The specification of `rle_decompress` that its callers use is about payloads the
compressor wrote. This module says what the function does on any bytes at all:
on a payload cut off in the middle of a token, on tokens that stand for nothing,
on tokens behind the one that fills the destination, and when it is asked for a
part of the text only.

All of it rests on one description of the loop. Whatever it reads, it reads a
sequence of whole tokens, each of which **started**: before the end of the
source, and before the end of the destination. `decompressLoop_of_started` says
that such a sequence is read to its end, and `decompressLoop_inv` that there is
no other way for the loop to return. Whether the last token also *ended* before
either end is never tested, and the results below are what follows:

* with the test for completeness, the bytes that are accepted are the well-formed
  encodings and no others, whatever lies behind the source;
* the accesses stay inside the two buffers only when the source is a sequence of
  tokens that leaves room in the destination for the terminator.
-/

namespace Rle

/-! ## One token -/

/-- **A mark, and enough bytes behind it, are a token.** -/
theorem exists_token {m : Mem} (h : maxSingleStoreSize < m.length) :
    ∃ (t : Token) (post : Mem), m = t.encode ++ post := by
  simp only [maxSingleStoreSize] at h
  cases m with
  | nil => exact absurd h (by simp)
  | cons mark m =>
    rw [List.length_cons] at h
    have hmark := mark.toNat_lt
    by_cases hrun : 128 ≤ mark.toNat
    · cases m with
      | nil => exact absurd h (by simp)
      | cons b m =>
        refine ⟨.run b ⟨mark.toNat - 128, by omega⟩, m, ?_⟩
        show mark :: b :: m = UInt8.ofNat (128 + (mark.toNat - 128)) :: b :: m
        rw [Nat.add_sub_cancel' hrun, UInt8.ofNat_toNat]
    · have hlen : (m.take mark.toNat).length = mark.toNat := by
        rw [List.length_take]
        omega
      refine ⟨.lit (m.take mark.toNat) (by simp only [maxSingleStoreSize]; omega),
        m.drop mark.toNat, ?_⟩
      show mark :: m = UInt8.ofNat (m.take mark.toNat).length :: _ ++ _
      rw [hlen, UInt8.ofNat_toNat, List.cons_append, List.take_append_drop]

/-- A token at the read position is read, and the loop goes on behind it. -/
theorem decompressLoop_of_drop {source post : Mem} {t : Token} {sp : ℕ}
    (hdrop : source.drop sp = t.encode ++ post) {slen rawsize : ℤ} {out : List UInt8}
    (hs : (sp : ℤ) < slen) (hr : (out.length : ℤ) < rawsize) (fuel : ℕ) :
    decompressLoop source slen rawsize (fuel + 1) sp out
      = decompressLoop source slen rawsize fuel (sp + t.encode.length) (out ++ t.expand) := by
  have hsp : sp < source.length := by
    have hmark : 0 < t.encode.length := List.length_pos_iff.mpr t.encode_ne_nil
    have hlen := congrArg List.length hdrop
    rw [List.length_drop, List.length_append] at hlen
    omega
  have hpre : (source.take sp).length = sp := by
    rw [List.length_take]
    omega
  have h := decompressLoop_token (source.take sp) post t slen rawsize fuel out (by omega) hr
  rwa [← hdrop, List.take_append_drop, hpre] at h

/-- **The loop reads a token, or reads behind what is mapped.** -/
theorem exists_token_or_fault (source : Mem) {slen rawsize : ℤ} {sp : ℕ} {out : List UInt8}
    (hs : (sp : ℤ) < slen) (hr : (out.length : ℤ) < rawsize) (fuel : ℕ) :
    (∃ (t : Token) (post : Mem), source.drop sp = t.encode ++ post)
      ∨ decompressLoop source slen rawsize (fuel + 1) sp out = .error .fault := by
  rw [decompressLoop, if_pos ⟨hs, hr⟩]
  rcases source.load_cases sp with ⟨mark, hmark⟩ | hmark
  · have hdrop := Mem.drop_of_load hmark
    have hlt := mark.toNat_lt
    rw [hmark, Run.ok_bind]
    by_cases hrun : 128 ≤ mark.toNat
    · rw [if_pos hrun]
      rcases source.load_cases (sp + 1) with ⟨b, hb⟩ | hb
      · refine Or.inl ⟨.run b ⟨mark.toNat - 128, by omega⟩, source.drop (sp + 2), ?_⟩
        show _ = UInt8.ofNat (128 + (mark.toNat - 128)) :: b :: source.drop (sp + 2)
        rw [hdrop, Mem.drop_of_load hb, Nat.add_sub_cancel' hrun, UInt8.ofNat_toNat]
      · rw [hb]
        exact Or.inr rfl
    · rw [if_neg hrun]
      rcases source.copy_cases (sp + 1) mark.toNat with ⟨bs, hbs⟩ | hbs
      · obtain ⟨hlen, hbytes⟩ := Mem.drop_of_copy hbs
        refine Or.inl ⟨.lit bs (by simp only [maxSingleStoreSize]; omega),
          source.drop (sp + 1 + mark.toNat), ?_⟩
        show _ = UInt8.ofNat bs.length :: bs ++ _
        rw [hdrop, hbytes, hlen, UInt8.ofNat_toNat, List.cons_append]
      · simp only [hbs]
        exact Or.inr rfl
  · rw [hmark]
    exact Or.inr rfl

/-! ## The tokens that started -/

/-- The tokens of a sequence all start before the end of the source and before
the end of the destination, when the first is read at `sp` and written at
`dp`. -/
def Started (slen rawsize : ℤ) : ℕ → ℕ → List Token → Prop
  | _, _, [] => True
  | sp, dp, t :: ts => (sp : ℤ) < slen ∧ (dp : ℤ) < rawsize
      ∧ Started slen rawsize (sp + t.encode.length) (dp + t.expand.length) ts

/-- Where each token starts, by what comes before it. -/
theorem started_iff {slen rawsize : ℤ} {ts : List Token} : ∀ {sp dp : ℕ},
    Started slen rawsize sp dp ts
      ↔ ∀ us t vs, ts = us ++ t :: vs → ((sp + (encode us).length : ℕ) : ℤ) < slen
          ∧ ((dp + (expand us).length : ℕ) : ℤ) < rawsize := by
  induction ts with
  | nil =>
    intro sp dp
    exact iff_of_true trivial fun us t vs h => by simp at h
  | cons t ts ih =>
    intro sp dp
    rw [Started, ih]
    constructor
    · rintro ⟨hs, hr, hts⟩ us u vs heq
      cases us with
      | nil => exact ⟨hs, hr⟩
      | cons w us =>
        obtain ⟨rfl, htail⟩ := List.cons.inj heq
        have h := hts us u vs htail
        simp only [encode_cons, expand_cons, List.length_append]
        omega
    · intro h
      refine ⟨(h [] t ts rfl).1, (h [] t ts rfl).2, fun us u vs heq => ?_⟩
      have h' := h (t :: us) u vs (by rw [heq]; rfl)
      simp only [encode_cons, expand_cons, List.length_append] at h'
      omega

/-- **Tokens that started are read**, and the loop stops where no other can
start. -/
theorem decompressLoop_of_started {source : Mem} {slen rawsize : ℤ} {ts : List Token} :
    ∀ {post : Mem} {fuel sp : ℕ} {out : List UInt8}, source.drop sp = encode ts ++ post →
      Started slen rawsize sp out.length ts → ts.length ≤ fuel →
      ¬ (((sp + (encode ts).length : ℕ) : ℤ) < slen
        ∧ ((out.length + (expand ts).length : ℕ) : ℤ) < rawsize) →
      decompressLoop source slen rawsize fuel sp out
        = .ok (sp + (encode ts).length, out ++ expand ts) := by
  induction ts with
  | nil =>
    intro post fuel sp out _ _ _ hstop
    cases fuel with
    | zero => simp [decompressLoop]
    | succ fuel =>
      rw [decompressLoop, if_neg (show ¬ ((sp : ℤ) < slen ∧ (out.length : ℤ) < rawsize) from hstop)]
      simp
  | cons t ts ih =>
    intro post fuel sp out hdrop hstart hfuel hstop
    obtain ⟨hs, hr, hts⟩ := hstart
    obtain ⟨fuel, rfl⟩ : ∃ f, fuel = f + 1 := ⟨fuel - 1, by simp at hfuel; omega⟩
    rw [encode_cons, List.append_assoc] at hdrop
    rw [encode_cons, expand_cons, List.length_append, List.length_append] at hstop
    rw [decompressLoop_of_drop hdrop hs hr fuel,
      ih (Mem.drop_add hdrop) (by rw [List.length_append]; exact hts) (by simpa using hfuel)
        (by rw [List.length_append]; omega)]
    simp only [encode_cons, expand_cons, List.length_append, List.append_assoc, Nat.add_assoc]

/-- **The loop returns in no other way**, and when it does not return it was
about to read a token that is not all mapped. -/
theorem decompressLoop_inv {source : Mem} {slen rawsize : ℤ} :
    ∀ {fuel sp : ℕ} {out : List UInt8}, slen ≤ sp + fuel →
      ∃ (ts : List Token) (post : Mem), source.drop sp = encode ts ++ post
        ∧ Started slen rawsize sp out.length ts
        ∧ (decompressLoop source slen rawsize fuel sp out
              = .ok (sp + (encode ts).length, out ++ expand ts)
            ∧ ¬ (((sp + (encode ts).length : ℕ) : ℤ) < slen
              ∧ ((out.length + (expand ts).length : ℕ) : ℤ) < rawsize)
          ∨ decompressLoop source slen rawsize fuel sp out = .error .fault
            ∧ ((sp + (encode ts).length : ℕ) : ℤ) < slen
            ∧ ¬ ∃ (t : Token) (post' : Mem), post = t.encode ++ post') := by
  intro fuel
  induction fuel with
  | zero =>
    intro sp out hfuel
    refine ⟨[], source.drop sp, rfl, trivial, Or.inl ⟨by simp [decompressLoop], ?_⟩⟩
    simp only [encode_nil, List.length_nil]
    omega
  | succ fuel ih =>
    intro sp out hfuel
    by_cases hguard : (sp : ℤ) < slen ∧ (out.length : ℤ) < rawsize
    · by_cases htoken : ∃ (t : Token) (post : Mem), source.drop sp = t.encode ++ post
      · obtain ⟨t, post, hdrop⟩ := htoken
        have hmark : 0 < t.encode.length := List.length_pos_iff.mpr t.encode_ne_nil
        obtain ⟨ts, post', hrest, hstart, hcase⟩ :=
          @ih (sp + t.encode.length) (out ++ t.expand) (by omega)
        rw [Mem.drop_add hdrop] at hrest
        rw [List.length_append] at hstart
        refine ⟨t :: ts, post', by rw [hdrop, hrest, encode_cons, List.append_assoc],
          ⟨hguard.1, hguard.2, hstart⟩, ?_⟩
        rw [decompressLoop_of_drop hdrop hguard.1 hguard.2 fuel]
        simp only [encode_cons, expand_cons, List.length_append, ← List.append_assoc,
          ← Nat.add_assoc] at hcase ⊢
        exact hcase
      · rcases exists_token_or_fault source hguard.1 hguard.2 fuel with h | h
        · exact absurd h htoken
        · exact ⟨[], source.drop sp, rfl, trivial, Or.inr ⟨h, hguard.1, htoken⟩⟩
    · refine ⟨[], source.drop sp, rfl, trivial, Or.inl ⟨?_, hguard⟩⟩
      rw [decompressLoop, if_neg hguard]
      simp

/-- The loop over a whole source, followed by any bytes. -/
theorem decompressLoop_source_inv (source post : Mem) (rawsize : ℤ) :
    ∃ (ts : List Token) (behind : Mem), source ++ post = encode ts ++ behind
      ∧ Started source.length rawsize 0 0 ts
      ∧ (decompressLoop (source ++ post) source.length rawsize source.length 0 []
            = .ok ((encode ts).length, expand ts)
          ∧ ¬ ((encode ts).length < source.length ∧ ((expand ts).length : ℤ) < rawsize)
        ∨ decompressLoop (source ++ post) source.length rawsize source.length 0 []
            = .error .fault
          ∧ (encode ts).length < source.length
          ∧ ¬ ∃ (t : Token) (post' : Mem), behind = t.encode ++ post') := by
  obtain ⟨ts, behind, hdrop, hstart, hcase⟩ :=
    @decompressLoop_inv (source ++ post) source.length rawsize source.length 0 [] (by omega)
  refine ⟨ts, behind, hdrop, hstart, ?_⟩
  simp only [Nat.zero_add, List.nil_append, List.length_nil, Int.ofNat_lt] at hcase
  exact hcase

/-- What is returned, once the loop has. -/
theorem rleDecompress_eq_ok_iff {source : Mem} {slen rawsize : ℤ} {checkComplete : Bool} {v : ℤ}
    {out : List UInt8} :
    rleDecompress source slen rawsize checkComplete = .ok (v, out)
      ↔ ∃ sp, decompressLoop source slen rawsize slen.toNat 0 [] = .ok (sp, out)
        ∧ v = if checkComplete ∧ ((out.length : ℤ) ≠ rawsize ∨ (sp : ℤ) ≠ slen) then -1
          else (out.length : ℤ) := by
  have hreturn : ∀ (sp : ℕ) (out' : List UInt8),
      (if checkComplete ∧ ((out'.length : ℤ) ≠ rawsize ∨ (sp : ℤ) ≠ slen) then
          (.ok (-1, out') : Run (ℤ × List UInt8)) else .ok (out'.length, out'))
        = .ok (if checkComplete ∧ ((out'.length : ℤ) ≠ rawsize ∨ (sp : ℤ) ≠ slen) then -1
          else (out'.length : ℤ), out') := by
    intro sp out'
    split <;> rfl
  rw [rleDecompress, Run.bind_eq_ok]
  constructor
  · rintro ⟨⟨sp, out'⟩, hloop, h⟩
    have h' := (hreturn sp out').symm.trans h
    cases h'
    exact ⟨sp, hloop, rfl⟩
  · rintro ⟨sp, hloop, rfl⟩
    exact ⟨(sp, out), hloop, hreturn sp out⟩

/-! ## What is accepted -/

/-- **A well-formed encoding of `rawsize` bytes**: the source is a sequence of
tokens that stand for so many bytes, and none of them starts when the bytes are
already complete. -/
structure WellFormed (source : Mem) (rawsize : ℕ) (ts : List Token) : Prop where
  source_eq : source = encode ts
  total : (expand ts).length = rawsize
  starts : ∀ us t vs, ts = us ++ t :: vs → (expand us).length < rawsize

/-- The tokens of a well-formed encoding all start in time. -/
theorem WellFormed.started {source : Mem} {rawsize : ℕ} {ts : List Token}
    (h : WellFormed source rawsize ts) : Started source.length rawsize 0 0 ts := by
  refine started_iff.mpr fun us t vs heq => ⟨?_, ?_⟩
  · have hmark : 0 < t.encode.length := List.length_pos_iff.mpr t.encode_ne_nil
    have hlen : source.length = (encode us).length + (t.encode.length + (encode vs).length) := by
      rw [h.source_eq, heq, encode_append, encode_cons, List.length_append, List.length_append]
    omega
  · have hlt := h.starts us t vs heq
    omega

/-- **A well-formed encoding is accepted**, and expanded. -/
theorem WellFormed.rleDecompress_eq {source : Mem} {rawsize : ℕ} {ts : List Token}
    (h : WellFormed source rawsize ts) (post : Mem) :
    rleDecompress (source ++ post) source.length rawsize true = .ok (rawsize, expand ts) := by
  have hlen : source.length = (encode ts).length := congrArg List.length h.source_eq
  have hloop := @decompressLoop_of_started (source ++ post) source.length rawsize ts post
    source.length 0 [] (by rw [List.drop_zero, ← h.source_eq]) h.started
    (by rw [hlen]; exact length_le_encode_length ts) (by rw [hlen, Nat.zero_add]; omega)
  rw [Nat.zero_add, List.nil_append] at hloop
  refine rleDecompress_eq_ok_iff.mpr ⟨_, hloop, ?_⟩
  rw [if_neg (by rw [h.total, hlen]; simp), h.total]

/-- **Nothing else is accepted**: where the function returns, it returns `-1`
for a source that is not a well-formed encoding. -/
theorem rleDecompress_eq_of_not_wellFormed {source : Mem} {rawsize : ℕ}
    (h : ¬ ∃ ts, WellFormed source rawsize ts) (post : Mem) :
    (∃ out, rleDecompress (source ++ post) source.length rawsize true = .ok (-1, out))
      ∨ rleDecompress (source ++ post) source.length rawsize true = .error .fault
        ∧ post.length < maxSingleStoreSize := by
  obtain ⟨ts, behind, hsource, hstart, ⟨hloop, hstop⟩ | ⟨hloop, hlt, hno⟩⟩ :=
    decompressLoop_source_inv source post rawsize
  · left
    refine ⟨expand ts, rleDecompress_eq_ok_iff.mpr ⟨_, hloop, (if_pos ⟨rfl, ?_⟩).symm⟩⟩
    by_contra hboth
    simp only [not_or, not_not, Int.natCast_inj] at hboth
    refine h ⟨ts, ?_, hboth.1, fun us t vs heq => ?_⟩
    · exact (List.append_inj hsource hboth.2.symm).1
    · have := (started_iff.mp hstart us t vs heq).2
      omega
  · right
    refine ⟨by rw [rleDecompress, Int.toNat_natCast, hloop]; rfl, ?_⟩
    by_contra hmapped
    have hlen := congrArg List.length hsource
    rw [List.length_append, List.length_append] at hlen
    exact hno (exists_token (by omega))

/-- **`rle_decompress` with the test for completeness accepts exactly the
well-formed encodings.** For every source and size there is one verdict: it is
the size if the source is a well-formed encoding, and `-1` otherwise. No byte
behind the source changes it, and a token that is cut off reads at most
`maxSingleStoreSize` of them; when those can be read the function returns. On a
well-formed encoding it returns whatever is mapped there, with the bytes the
tokens stand for. -/
theorem rleDecompress_verdict (source : Mem) (rawsize : ℕ) :
    ∃ verdict : ℤ, (verdict = rawsize ↔ ∃ ts, WellFormed source rawsize ts)
      ∧ (verdict ≠ rawsize → verdict = -1)
      ∧ ∀ post : Mem,
        (maxSingleStoreSize ≤ post.length →
          ∃ out, rleDecompress (source ++ post) source.length rawsize true = .ok (verdict, out))
        ∧ (∀ v out, rleDecompress (source ++ post) source.length rawsize true = .ok (v, out) →
          v = verdict)
        ∧ (∀ ts, WellFormed source rawsize ts →
          rleDecompress (source ++ post) source.length rawsize true
            = .ok (rawsize, expand ts)) := by
  by_cases hwf : ∃ ts, WellFormed source rawsize ts
  · obtain ⟨ts, hts⟩ := hwf
    refine ⟨rawsize, iff_of_true rfl ⟨ts, hts⟩, fun h => absurd rfl h, fun post => ?_⟩
    refine ⟨fun _ => ⟨expand ts, hts.rleDecompress_eq post⟩, fun v out hv => ?_,
      fun us hus => hus.rleDecompress_eq post⟩
    rw [hts.rleDecompress_eq post] at hv
    cases hv
    rfl
  · refine ⟨-1, iff_of_false (by omega) hwf, fun _ => rfl, fun post => ?_⟩
    refine ⟨fun hmapped => ?_, fun v out hv => ?_, fun us hus => absurd ⟨us, hus⟩ hwf⟩
    · rcases rleDecompress_eq_of_not_wellFormed hwf post with h | ⟨-, h⟩
      · exact h
      · omega
    · rcases rleDecompress_eq_of_not_wellFormed hwf post with ⟨out', h⟩ | ⟨h, -⟩
      · rw [h] at hv
        cases hv
        rfl
      · rw [h] at hv
        cases hv

/-- A run of three bytes is accepted, also when nothing is mapped behind it. -/
theorem rleDecompress_verdict_run :
    WellFormed [128, 97] 3 [.run 97 0]
      ∧ rleDecompress ([128, 97] ++ []) 2 3 true = .ok (3, [97, 97, 97]) := by
  have hwf : WellFormed [128, 97] 3 [.run 97 0] := by
    refine ⟨by decide, by decide, fun us t vs h => ?_⟩
    cases us with
    | nil => decide
    | cons u us => simp at h
  obtain ⟨verdict, -, -, h⟩ := rleDecompress_verdict [128, 97] 3
  exact ⟨hwf, (h []).2.2 _ hwf⟩

/-! ## What is accessed

`rleDecompress` keeps all the bytes that are stored, wherever they land. Here
the destination is a block of its own, and a store outside it faults. -/

/-- The decompression loop with its stores, at the write position `dp` of
`dest`. -/
def decompressLoopInto (source : Mem) (slen rawsize : ℤ) :
    ℕ → ℕ → ℕ → Mem → Run (ℕ × ℕ × Mem)
  | 0, sp, dp, dest => .ok (sp, dp, dest)
  | fuel + 1, sp, dp, dest =>
    if (sp : ℤ) < slen ∧ (dp : ℤ) < rawsize then do
      let mark ← source.load sp
      if 128 ≤ mark.toNat then
        let repeatCount := (mark &&& 0x7F).toNat + threshold
        let curData ← source.load (sp + 1)
        let dest ← dest.storeAll dp (List.replicate repeatCount curData)
        decompressLoopInto source slen rawsize fuel (sp + 2) (dp + repeatCount) dest
      else
        let singleCount := mark.toNat
        let bytes ← source.copy (sp + 1) singleCount
        let dest ← dest.storeAll dp bytes
        decompressLoopInto source slen rawsize fuel (sp + 1 + singleCount) (dp + singleCount) dest
    else .ok (sp, dp, dest)

/-- **`rle_decompress` into a block**: the return value and the block. -/
def rleDecompressInto (source : Mem) (slen : ℤ) (dest : Mem) (rawsize : ℤ)
    (checkComplete : Bool) : Run (ℤ × Mem) := do
  let (sp, dp, dest) ← decompressLoopInto source slen rawsize slen.toNat 0 0 dest
  let dest ← dest.store dp 0
  if checkComplete ∧ ((dp : ℤ) ≠ rawsize ∨ (sp : ℤ) ≠ slen) then
    return (-1, dest)
  else
    return (dp, dest)

/-- The loop only adds to what is stored. -/
theorem decompressLoop_out {source : Mem} {slen rawsize : ℤ} {sp' : ℕ} {out' : List UInt8} :
    ∀ {fuel sp : ℕ} {out : List UInt8},
      decompressLoop source slen rawsize fuel sp out = .ok (sp', out') →
      ∃ more, out' = out ++ more := by
  intro fuel
  induction fuel with
  | zero =>
    intro sp out h
    cases h
    exact ⟨[], (List.append_nil _).symm⟩
  | succ fuel ih =>
    intro sp out h
    rw [decompressLoop] at h
    split at h
    · obtain ⟨mark, -, h⟩ := Run.bind_eq_ok.mp h
      split at h
      · obtain ⟨b, -, h⟩ := Run.bind_eq_ok.mp h
        obtain ⟨more, rfl⟩ := ih h
        exact ⟨_, List.append_assoc _ _ _⟩
      · obtain ⟨bs, -, h⟩ := Run.bind_eq_ok.mp h
        obtain ⟨more, rfl⟩ := ih h
        exact ⟨_, List.append_assoc _ _ _⟩
    · cases h
      exact ⟨[], (List.append_nil _).symm⟩

/-- **The loop with its stores is the loop, and then the stores**: it returns
when the loop does and the new bytes all land in the block. -/
theorem decompressLoopInto_eq_ok_iff {source : Mem} {slen rawsize : ℤ} {sp' dp' : ℕ}
    {dest' : Mem} : ∀ {fuel sp : ℕ} {dest : Mem} (out : List UInt8),
    decompressLoopInto source slen rawsize fuel sp out.length dest = .ok (sp', dp', dest')
      ↔ ∃ more, decompressLoop source slen rawsize fuel sp out = .ok (sp', out ++ more)
          ∧ dp' = out.length + more.length ∧ dest.storeAll out.length more = .ok dest' := by
  intro fuel
  -- a loop that stops at once stores nothing
  have hstop : ∀ (sp : ℕ) (dest : Mem) (out : List UInt8),
      (.ok (sp, out.length, dest) : Run (ℕ × ℕ × Mem)) = .ok (sp', dp', dest')
        ↔ ∃ more, (.ok (sp, out) : Run (ℕ × List UInt8)) = .ok (sp', out ++ more)
          ∧ dp' = out.length + more.length ∧ dest.storeAll out.length more = .ok dest' := by
    intro sp dest out
    constructor
    · intro h
      cases h
      exact ⟨[], by rw [List.append_nil], rfl, rfl⟩
    · rintro ⟨more, hloop, rfl, hstore⟩
      obtain ⟨rfl, hmore⟩ := Prod.mk.inj (Except.ok.inj hloop)
      rw [List.self_eq_append_right.mp hmore] at hstore ⊢
      cases hstore
      rfl
  induction fuel with
  | zero => exact fun {sp dest} out => hstop sp dest out
  | succ fuel ih =>
    intro sp dest out
    -- one turn stores `bytes`, and the rest of the run stores `more` behind them
    have hturn : ∀ (bytes : List UInt8) (sp₁ : ℕ),
        (dest.storeAll out.length bytes >>= fun dest₁ =>
            decompressLoopInto source slen rawsize fuel sp₁ (out.length + bytes.length) dest₁)
          = .ok (sp', dp', dest')
        ↔ ∃ more, decompressLoop source slen rawsize fuel sp₁ (out ++ bytes)
              = .ok (sp', out ++ more)
            ∧ dp' = out.length + more.length ∧ dest.storeAll out.length more = .ok dest' := by
      intro bytes sp₁
      rw [Run.bind_eq_ok]
      constructor
      · rintro ⟨dest₁, hstore, hrest⟩
        rw [← List.length_append] at hrest
        obtain ⟨more, hloop, hdp, hmore⟩ := (ih (out ++ bytes)).mp hrest
        refine ⟨bytes ++ more, by rw [hloop, List.append_assoc], ?_, ?_⟩
        · rw [hdp, List.length_append, List.length_append, Nat.add_assoc]
        · rw [Mem.storeAll_append, hstore, Run.ok_bind, ← List.length_append, hmore]
      · rintro ⟨more, hloop, hdp, hstore⟩
        obtain ⟨more', hmore'⟩ := decompressLoop_out hloop
        rw [List.append_assoc] at hmore'
        obtain rfl := List.append_cancel_left hmore'
        rw [Mem.storeAll_append, Run.bind_eq_ok] at hstore
        obtain ⟨dest₁, hbytes, hmore⟩ := hstore
        refine ⟨dest₁, hbytes, ?_⟩
        rw [← List.length_append, ih (out ++ bytes)]
        rw [List.length_append] at hdp ⊢
        exact ⟨more', by rw [hloop, List.append_assoc], by rw [hdp, Nat.add_assoc], hmore⟩
    rw [decompressLoopInto, decompressLoop]
    by_cases hguard : (sp : ℤ) < slen ∧ (out.length : ℤ) < rawsize
    · rw [if_pos hguard, if_pos hguard]
      rcases source.load_cases sp with ⟨mark, hmark⟩ | hmark
      · rw [hmark, Run.ok_bind, Run.ok_bind]
        by_cases hrun : 128 ≤ mark.toNat
        · rw [if_pos hrun, if_pos hrun]
          rcases source.load_cases (sp + 1) with ⟨b, hb⟩ | hb
          · have h := hturn (List.replicate ((mark &&& 0x7F).toNat + threshold) b) (sp + 2)
            rw [List.length_replicate] at h
            rw [hb]
            exact h
          · rw [hb]
            exact iff_of_false (fun h => by cases h) (by rintro ⟨_, h, _⟩; cases h)
        · rw [if_neg hrun, if_neg hrun]
          rcases source.copy_cases (sp + 1) mark.toNat with ⟨bs, hbs⟩ | hbs
          · have h := hturn bs (sp + 1 + mark.toNat)
            rw [(Mem.drop_of_copy hbs).1] at h
            simp only [hbs]
            exact h
          · simp only [hbs]
            exact iff_of_false (fun h => by cases h) (by rintro ⟨_, h, _⟩; cases h)
      · rw [hmark]
        exact iff_of_false (fun h => by cases h) (by rintro ⟨_, h, _⟩; cases h)
    · rw [if_neg hguard, if_neg hguard]
      exact hstop sp dest out

/-- **`rle_decompress` into a block is `rle_decompress`, and then the stores** of
its bytes and of the terminator. -/
theorem exists_rleDecompressInto_iff (source : Mem) (slen : ℤ) (dest : Mem) (rawsize : ℤ)
    (checkComplete : Bool) :
    (∃ r, rleDecompressInto source slen dest rawsize checkComplete = .ok r)
      ↔ ∃ v out, rleDecompress source slen rawsize checkComplete = .ok (v, out)
          ∧ ∃ dest', dest.storeAll 0 (out ++ [0]) = .ok dest' := by
  have hloop : ∀ sp dp dest', decompressLoopInto source slen rawsize slen.toNat 0 0 dest
      = .ok (sp, dp, dest')
        ↔ ∃ out, decompressLoop source slen rawsize slen.toNat 0 [] = .ok (sp, out)
          ∧ dp = out.length ∧ dest.storeAll 0 out = .ok dest' := by
    intro sp dp dest'
    have h := @decompressLoopInto_eq_ok_iff source slen rawsize sp dp dest' slen.toNat 0 dest []
    simpa only [List.length_nil, List.nil_append, Nat.zero_add] using h
  have hstore : ∀ (m : Mem) (i : ℕ), m.storeAll i [0] = m.store i 0 := fun m i => by
    rw [Mem.storeAll]
    cases m.store i 0 <;> rfl
  constructor
  · rintro ⟨r, hr⟩
    obtain ⟨⟨sp, dp, dest₁⟩, hrun, hr⟩ := Run.bind_eq_ok.mp hr
    obtain ⟨dest₂, hlast, -⟩ := Run.bind_eq_ok.mp hr
    obtain ⟨out, hout, rfl, hbytes⟩ := (hloop _ _ _).mp hrun
    refine ⟨_, out, rleDecompress_eq_ok_iff.mpr ⟨sp, hout, rfl⟩, dest₂, ?_⟩
    rw [Mem.storeAll_append, hbytes, Run.ok_bind, Nat.zero_add, hstore]
    exact hlast
  · rintro ⟨v, out, hv, dest', hdest⟩
    obtain ⟨sp, hrun, -⟩ := rleDecompress_eq_ok_iff.mp hv
    rw [Mem.storeAll_append, Run.bind_eq_ok, Nat.zero_add] at hdest
    obtain ⟨dest₁, hbytes, hlast⟩ := hdest
    rw [hstore] at hlast
    rw [rleDecompressInto, (hloop sp out.length dest₁).mpr ⟨out, hrun, rfl, hbytes⟩, Run.ok_bind]
    simp only [hlast, Run.ok_bind]
    by_cases hcheck : checkComplete ∧ ((out.length : ℤ) ≠ rawsize ∨ (sp : ℤ) ≠ slen)
    · exact ⟨_, if_pos hcheck⟩
    · exact ⟨_, if_neg hcheck⟩

/-- **The accesses stay inside the buffers exactly when the source is a sequence
of whole tokens that stand for fewer bytes than the destination has.** Nothing
but the source and the destination is mapped, so that every access outside them
faults. -/
theorem exists_rleDecompressInto_eq_ok_iff (source dest : Mem) (checkComplete : Bool) :
    (∃ r, rleDecompressInto source source.length dest dest.length checkComplete = .ok r)
      ↔ ∃ ts, source = encode ts ∧ (expand ts).length < dest.length := by
  have hstore : ∀ out : List UInt8, (∃ dest', dest.storeAll 0 (out ++ [0]) = .ok dest')
      ↔ out.length < dest.length := by
    intro out
    rw [Mem.exists_storeAll_iff dest 0 (by simp), List.length_append, List.length_singleton,
      Nat.zero_add]
    exact Iff.rfl
  simp only [exists_rleDecompressInto_iff, hstore]
  constructor
  · rintro ⟨v, out, hrun, hlt⟩
    obtain ⟨sp, hrun, -⟩ := rleDecompress_eq_ok_iff.mp hrun
    rw [Int.toNat_natCast] at hrun
    obtain ⟨ts, behind, hsource, -, ⟨hloop, hstop⟩ | ⟨hloop, -⟩⟩ :=
      decompressLoop_source_inv source [] dest.length
    · rw [List.append_nil] at hloop hsource
      obtain ⟨-, rfl⟩ := Prod.mk.inj (Except.ok.inj (hloop.symm.trans hrun))
      have hlen := congrArg List.length hsource
      rw [List.length_append] at hlen
      obtain rfl : behind = [] := List.length_eq_zero_iff.mp (by omega)
      exact ⟨ts, by rw [hsource, List.append_nil], hlt⟩
    · rw [List.append_nil, hrun] at hloop
      cases hloop
  · rintro ⟨ts, rfl, hlt⟩
    have hloop := decompressLoop_encode_of_lt ts [] [] (encode ts).length [] dest.length
      (length_le_encode_length ts) (by rw [List.length_nil]; omega)
    simp only [List.nil_append, List.append_nil, List.length_nil, Nat.zero_add] at hloop
    exact ⟨_, expand ts, rleDecompress_eq_ok_iff.mpr ⟨_, hloop, rfl⟩, hlt⟩

/-- **The decompressor leaves its buffers**: asked for exactly the three bytes
that a run stands for, it stores the terminator behind them. -/
theorem not_forall_exists_rleDecompressInto :
    ¬ ∀ (source dest : Mem) (checkComplete : Bool), ∃ r,
      rleDecompressInto source source.length dest dest.length checkComplete = .ok r := by
  intro h
  obtain ⟨r, hr⟩ := h [128, 97] [0, 0, 0] true
  have hfault : rleDecompressInto [128, 97] 2 [0, 0, 0] 3 true = .error .fault := by decide
  exact absurd (hfault.symm.trans hr) (by simp)

end Rle
