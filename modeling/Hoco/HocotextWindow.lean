import Hoco.HocotextOutcome

/-!
# Windows, and what they leave to chance

Two more facts about extraction. A window that lies strictly inside the text is
extracted as it should be, whatever the tokens are; only the loop reads one byte
too many, and that byte may be one behind the datum
(`hocotextHocoExtract_interior_iff`). And both functions place the bytes they
copy by a byte of the fresh block, so that with two blocks of different contents
the results differ *whenever* there is anything to place
(`extract_independent_iff`).

The second fact rests on how the functions are put together: of the bytes they copy
(`hocoBytes`, `commonBytes`), which do not depend on the block, and the datum that is
built of them. What is left is to say from the arguments alone whether there are bytes to
copy. For the plain function that is a comparison with the size of the text. For
the scan of the payload it is one within the text; a window at the start depends
on how the payload reads from its second byte on, and so does the least integer
as an offset, the only negative one that copies anything.
-/

open Rle TextOrder

namespace Server

variable (sv : Server)

/-! ## The bytes that are copied -/

/-- A scan that returns bytes returns as many as were asked for. -/
theorem hocoBytes_length {sv : Server} {source : Mem} {offset len : ℤ} {collid : Oid}
    {w : List UInt8} (h : sv.hocoBytes source offset len collid = .ok (some w)) :
    (w.length : ℤ) = len ∧ palloc (int32 (len + 14)) = .ok () := by
  rw [hocoBytes_eq] at h
  obtain ⟨_, halloc, h⟩ := Run.bind_eq_ok.mp h
  obtain ⟨_, -, h⟩ := Run.bind_eq_ok.mp h
  obtain ⟨_, -, h⟩ := Run.bind_eq_ok.mp h
  refine ⟨?_, halloc⟩
  split at h
  · cases h
  · obtain ⟨_, -, h⟩ := Run.bind_eq_ok.mp h
    obtain ⟨s, -, h⟩ := Run.bind_eq_ok.mp h
    split at h
    · cases h
    · rename_i hfull
      cases h
      omega

/-! ## Two runs -/

/-- The value of a datum: its header and its data. -/
def varlenaValue (m : Mem) : Run Mem := return m.take (← sv.varsizeAny m)

/-- The value an extraction returns, or none for `NULL`. -/
def valueOutcome (r : Run (Option Mem)) : Run (Option Mem) := do
  match ← r with
  | none => return none
  | some m => return some (← sv.varlenaValue m)

/-- **An extraction does not depend on what its block held.** -/
def Independent (extract : Block → Run (Option Mem)) : Prop :=
  ∀ fresh fresh' : Block, sv.valueOutcome (extract fresh) = sv.valueOutcome (extract fresh')

/-- The value of a result is the plain datum of the bytes that landed. -/
theorem varlenaValue_resultDatum (fresh : Block) {len : ℕ} {w : List UInt8} (hlen : w.length ≤ len)
    (fits : w.length + 4 < 2 ^ 30) :
    sv.varlenaValue (sv.resultDatum fresh len w) = .ok (sv.plainDatum (sv.landed fresh w)) := by
  obtain ⟨rest, hrest⟩ := sv.exists_resultDatum_eq fresh hlen
  have hheader := sv.hasHeader_plainDatum
    (show (sv.landed fresh w).length + 4 < 2 ^ 30 by rw [landed_length]; exact fits) rest
  have hsize : (sv.plainDatum (sv.landed fresh w)).length = (sv.landed fresh w).length + 4 := by
    rw [plainDatum, List.length_append, setVarsize, wordBytes_length, Nat.add_comm]
  rw [varlenaValue, hrest, hheader.varsizeAny_eq, Run.ok_bind, ← hsize, List.take_left]
  rfl

theorem plainDatum_landed_inj (fresh fresh' : Block) (w : List UInt8) :
    sv.plainDatum (sv.landed fresh w) = sv.plainDatum (sv.landed fresh' w)
      ↔ sv.landed fresh w = sv.landed fresh' w := by
  rw [plainDatum, plainDatum, landed_length, landed_length, List.append_cancel_left_eq]

/-- **Bytes that are placed by chance land differently**: with a cleared block
they are read where they are stored, and with a block that has the mark of a
short header the last byte that is read is one of the block. -/
theorem exists_landed_ne {w : List UInt8} (hw : w ≠ []) :
    ∃ fresh fresh', sv.landed fresh w ≠ sv.landed fresh' w := by
  have hpos : 0 < w.length := List.length_pos_iff.mpr hw
  have hlast : w.length - 1 < w.length := by omega
  have hlong : sv.vardataAny 0 = 4 := by
    unfold vardataAny is1B
    cases sv.bigEndian <;> rfl
  have hshort : sv.vardataAny 0x81 = 1 := by
    unfold vardataAny is1B
    cases sv.bigEndian <;> rfl
  refine ⟨fun _ => 0, fun i => if i = 0 then 0x81 else w[w.length - 1] + 1, fun heq => ?_⟩
  have hget := congrArg (fun l => l[w.length - 1]?) heq
  simp only [sv.landed_getElem? _ w hlast, hlong, ↓reduceIte, hshort] at hget
  rw [if_neg (by decide), List.getElem?_eq_getElem hlast,
    List.getElem?_append_right (by omega), show w.length - 1 + 3 - w.length = 2 by omega] at hget
  simp at hget

/-- **An extraction is independent of its block exactly when it places no
bytes.** -/
theorem independent_iff {bytes : Run (Option (List UInt8))} {len : ℕ}
    (hlen : ∀ w, bytes = .ok (some w) → w.length ≤ len ∧ w.length + 4 < 2 ^ 30) :
    sv.Independent (fun fresh => Option.map (sv.resultDatum fresh len) <$> bytes)
      ↔ ∀ w, bytes = .ok (some w) → w = [] := by
  cases hbytes : bytes with
  | error e => exact iff_of_true (fun _ _ => rfl) (fun w h => by cases h)
  | ok o =>
    cases o with
    | none => exact iff_of_true (fun _ _ => rfl) (fun w h => by cases h)
    | some w =>
      obtain ⟨hle, hfits⟩ := hlen w hbytes
      have hvalue : ∀ fresh : Block, sv.valueOutcome
          (Option.map (sv.resultDatum fresh len) <$> (.ok (some w) : Run (Option (List UInt8))))
            = .ok (some (sv.plainDatum (sv.landed fresh w))) := by
        intro fresh
        show (do let v ← sv.varlenaValue (sv.resultDatum fresh len w); pure (some v)) = _
        rw [sv.varlenaValue_resultDatum fresh hle hfits]
        rfl
      unfold Independent
      simp only [hvalue, Except.ok.injEq, Option.some.injEq, plainDatum_landed_inj]
      constructor
      · rintro hsame w' rfl
        by_contra hw
        obtain ⟨fresh, fresh', hne⟩ := sv.exists_landed_ne hw
        exact hne (hsame fresh fresh')
      · intro hnil fresh fresh'
        rw [hnil w rfl]
        rfl

/-! ## Which bytes the plain function copies -/

theorem HasText.commonBytes_eq_some_iff {sv : Server} {m : Mem} {t : List UInt8}
    (h : sv.HasText m .plain t) {offset len : ℤ} (hoffset : -2 ^ 31 ≤ offset ∧ offset < 2 ^ 31)
    (hlen : -2 ^ 31 ≤ len ∧ len < 2 ^ 31) (collid : Oid) (w : List UInt8) :
    sv.commonBytes m offset len collid = .ok (some w)
      ↔ collid ≠ 0 ∧ (0 ≤ offset ∧ offset ≤ t.length) ∧ (0 ≤ len ∧ len + 14 ≤ maxAllocSize)
        ∧ w = (t.drop offset.toNat).take len.toNat := by
  have hfits := h.fits
  obtain ⟨b, hb, hoff⟩ := h.header.vardataAny_eq h.uncompressed
  obtain ⟨rest, hmap⟩ := h.mapped
  have hoff : sv.vardataAny b = 4 := hoff
  have hreads : sv.varsize4B m = .ok (4 + t.length) := h.header.reads
  have hexhdr := h.header.varsizeAnyExhdr_eq h.uncompressed (Nat.le_add_right _ _)
  rw [Nat.add_sub_cancel_left] at hexhdr
  unfold commonBytes
  rcases palloc_result_int hlen.1 hlen.2 with ⟨hge, hle, halloc⟩ | ⟨hnot, report, halloc⟩
  · by_cases hcol : collid = 0
    · rw [halloc, hb, Run.ok_bind, Run.ok_bind, hreads, Run.ok_bind, checkCollation,
        if_neg (not_not.mpr hcol)]
      exact iff_of_false (fun h => by cases h) (fun h => h.1 hcol)
    · rw [halloc, hb, Run.ok_bind, Run.ok_bind, hreads, Run.ok_bind, checkCollation_eq hcol,
        Run.ok_bind, hexhdr, Run.ok_bind, hoff]
      by_cases hpast : (offset % 2 ^ 64).toNat > t.length
      · rw [if_pos hpast]
        exact iff_of_false (fun h => by cases h) (fun h => by omega)
      · rw [if_neg hpast]
        generalize hres : (if ((4 + t.length : ℕ) : ℤ) - ((4 : ℕ) + offset) < len
          then ((4 + t.length : ℕ) : ℤ) - ((4 : ℕ) + offset) else len) = resultLen
        by_cases hneg : len < 0
        · have hlow : resultLen < 0 := by
            rw [← hres]
            split <;> omega
          simp only [if_pos hlow]
          exact iff_of_false (fun h => by cases h) (fun h => by omega)
        · obtain rfl : resultLen = (min (t.length - offset.toNat) len.toNat : ℕ) := by
            rw [← hres]
            split <;> omega
          have hdrop : m.drop (4 + offset.toNat)
              = (t.drop offset.toNat).take len.toNat ++ ((t.drop offset.toNat).drop len.toNat
                ++ rest) := by
            rw [← List.drop_drop, show m.drop 4 = _ from hmap,
              List.drop_append_of_le_length (by omega), ← List.append_assoc, List.take_append_drop]
          have hcopy := Mem.copy_of_drop hdrop
          rw [List.length_take, List.length_drop, Nat.min_comm] at hcopy
          rw [if_neg (by omega), Int.toNat_natCast,
            show (((4 : ℕ) : ℤ) + offset).toNat = 4 + offset.toNat by omega, hcopy]
          constructor
          · intro h
            cases h
            exact ⟨hcol, by omega, by omega, rfl⟩
          · rintro ⟨-, -, -, rfl⟩
            rfl
  · rw [halloc]
    exact iff_of_false (fun h => by cases h) (fun h => by omega)

/-! ## Which bytes the scan copies -/

section Scan

variable {rawsize cur : ℕ}

/-- Scanning the data of a token and a payload behind it ends with the payload. -/
theorem scansFrom_length_le {t : Token} {k : ℕ} {post : List Token} {rest : Mem} {w : List UInt8}
    (hpost : ∀ {cur : ℕ} {w' : List UInt8}, Scans true rawsize cur (encode post ++ rest) w' →
      cur + (expand post).length = rawsize → w'.length ≤ (expand post).length)
    (h : ScansFrom true rawsize cur (isRunToken t) (t.expand.length - k)
      (dataFrom t k ++ (encode post ++ rest)) w)
    (hraw : cur + (t.expand.length - k) + (expand post).length = rawsize) :
    w.length ≤ (t.expand.length - k) + (expand post).length := by
  obtain ⟨-, -, m', chunk, hnext⟩ := h
  by_cases hlong : t.expand.length - k < w.length
  · have hbehind : dataBehind t (k + w.length) = [] := by
      cases t with
      | lit bs fits =>
        simp only [Token.expand] at hlong
        exact List.drop_eq_nil_of_le (by omega)
      | run b c => rfl
    obtain ⟨-, hm'⟩ := (chunk_token_iff t k w _ m').mp chunk
    rw [hbehind, List.nil_append] at hm'
    rw [hm', Nat.min_eq_left (by omega)] at hnext
    have hle := hpost hnext hraw
    rw [List.length_drop] at hle
    omega
  · omega

/-- **Scanning a payload ends with it**, since no token starts at the end of the
text. -/
theorem scans_length_le {ts : List Token} {rest : Mem} : ∀ {cur : ℕ} {w : List UInt8},
    Scans true rawsize cur (encode ts ++ rest) w → cur + (expand ts).length = rawsize →
      w.length ≤ (expand ts).length := by
  induction ts with
  | nil =>
    intro cur w h hraw
    cases h with
    | done => exact Nat.le_refl _
    | token hw starts => exact absurd starts (by simp at hraw; omega)
  | cons t ts ih =>
    intro cur w h hraw
    rw [expand_cons, List.length_append] at hraw ⊢
    by_cases hw : w = []
    · rw [hw]
      exact Nat.zero_le _
    · rw [encode_cons, encode_eq_mark_cons, List.cons_append, List.cons_append, List.append_assoc,
        scans_cons_iff hw, markIsRun_tokenMark, markCount_tokenMark] at h
      exact @scansFrom_length_le rawsize cur t 0 ts rest w ih h (by omega)

theorem Scans.starts {clip : Bool} {m : Mem} {w : List UInt8} (h : Scans clip rawsize cur m w)
    (hw : w ≠ []) : cur < rawsize := by
  cases h with
  | done => exact absurd rfl hw
  | token _ starts => exact starts

/-- The byte at which the loop stands when it starts is skipped. -/
theorem scansFrom_zero_iff {clip : Bool} {m : Mem} {w : List UInt8} (hw : w ≠ []) :
    ScansFrom clip rawsize cur true 0 m w ↔ Scans clip rawsize cur (m.drop 1) w := by
  constructor
  · rintro ⟨-, -, m', ⟨b, rfl, -⟩, hscans⟩
    rwa [Nat.zero_min, Nat.add_zero] at hscans
  · intro h
    refine ⟨h.starts hw, Or.inr (Nat.zero_le _), ?_⟩
    cases m with
    | nil => cases h
    | cons b m =>
      exact ⟨m, ⟨b, rfl, by simp⟩, by rwa [Nat.zero_min, Nat.add_zero]⟩

variable {source : Mem} {offset len : ℤ}

/-- The walk to an offset copies nothing, and ends at the offset or behind it. -/
theorem locateLoop_inv {fuel : ℕ} {s s' : ExtractState}
    (h : locateLoop source offset fuel s = .ok s') : offset ≤ s'.curOffset ∧ s'.out = s.out := by
  induction fuel generalizing s with
  | zero => cases h
  | succ fuel ih =>
    rw [locateLoop_eq] at h
    split at h
    · obtain ⟨mark, -, h⟩ := Run.bind_eq_ok.mp h
      obtain ⟨hge, hout⟩ := ih h
      exact ⟨hge, hout⟩
    · cases h
      exact ⟨by omega, rfl⟩

end Scan

end Server

namespace RlePayload

variable {sv : Server} {x : RlePayload} {rest : Mem}

/-! ## Windows inside the text -/

/-- **A window inside the text is extracted as it should be**, wherever it starts
and ends, once the arguments pass the checks; but when it ends in a run that is
the last token, the loop reads a byte behind the datum. The fresh block is one in
which the data is placed behind a four-byte header. -/
theorem hocotextHocoExtract_interior_iff (sv : Server) (x : RlePayload) (rest : Mem)
    {fresh : Block} (hfresh : sv.vardataAny (fresh 0) = 4) {offset len : ℕ} (hoffset : 0 < offset)
    (hend : offset + len < x.text.length) (collid : Oid) :
    sv.textOutcome (sv.hocotextHocoExtract fresh (x.datum sv ++ rest) offset len collid)
        = .ok (some ((x.text.drop offset).take len))
      ↔ collid ≠ 0 ∧ len + 14 ≤ maxAllocSize
        ∧ (len = 0 ∨ rest ≠ [] ∨ Server.endsInLastRun x.tokens (offset + len) = false) := by
  have hraw : x.text.length < 2 ^ 30 := x.raw
  rcases @Server.palloc_result len (by omega) with ⟨hlen, halloc⟩ | ⟨hlen, report, halloc⟩
  · by_cases hcol : collid = 0
    · refine iff_of_false (fun h => ?_) (fun h => h.1 hcol)
      rw [Server.hocotextHocoExtract_eq_map, Server.hocoBytes_eq, halloc, x.extsize sv rest, checkCollation,
        if_neg (not_not.mpr hcol)] at h
      cases h
    · rcases Nat.eq_zero_or_pos len with hzero | hpos
      · rw [hocoOutcome_of_len_zero fresh hcol halloc hlen (by omega) hzero]
        exact iff_of_true (by omega) ⟨hcol, hlen, Or.inl hzero⟩
      · have hlands : sv.Lands fresh ((x.text.drop offset).take len)
            ((x.text.drop offset).take len) := ⟨rfl, by rw [if_pos hfresh]⟩
        rw [hocoOutcome_of_pos fresh hcol halloc hlen (by omega) hoffset hpos]
        constructor
        · rintro ⟨-, hahead, -⟩
          exact ⟨hcol, hlen, Or.inr hahead⟩
        · rintro ⟨-, -, hzero | hahead⟩
          · omega
          · exact ⟨hend, hahead, hlands⟩
  · refine iff_of_false (fun h => ?_) (fun h => hlen h.2.1)
    rw [Server.hocotextHocoExtract_eq_map, Server.hocoBytes_eq, halloc] at h
    cases h

/-- Two bytes out of the middle of a run of six, with a byte mapped behind. -/
theorem hocotextHocoExtract_interior_iff_run :
    Server.littleEndian.textOutcome (Server.littleEndian.hocotextHocoExtract (fun _ => 0)
        (datum .littleEndian ⟨[.run 97 3], by decide, by decide⟩ ++ [0]) (1 : ℕ) (2 : ℕ) 100)
      = .ok (some [97, 97]) :=
  (hocotextHocoExtract_interior_iff .littleEndian ⟨[.run 97 3], by decide, by decide⟩ [0]
    (by decide) (by decide) (by decide) 100).mpr ⟨by decide, by decide, Or.inr (Or.inl (by decide))⟩

/-- **The byte that is read ahead may be one behind the datum**: a window that
ends in the run of six bytes that is the whole payload, with nothing mapped
behind it. -/
theorem not_forall_hocotextHocoExtract_interior :
    ¬ ∀ (sv : Server) (x : RlePayload) (rest : Mem) (fresh : Block) (offset len : ℕ) (collid : Oid),
      AllNonempty x.tokens → sv.vardataAny (fresh 0) = 4 → 0 < offset →
      offset + len < x.text.length → collid ≠ 0 →
      sv.textOutcome (sv.hocotextHocoExtract fresh (x.datum sv ++ rest) offset len collid)
        = .ok (some ((x.text.drop offset).take len)) := by
  intro h
  have hbad := h .littleEndian ⟨[.run 97 3], by decide, by decide⟩ [] (fun _ => 0) 1 2 100
    (by decide) (by decide) (by decide) (by decide) (by decide)
  have hrun : Server.littleEndian.textOutcome (Server.littleEndian.hocotextHocoExtract (fun _ => 0)
      (datum .littleEndian ⟨[.run 97 3], by decide, by decide⟩ ++ []) (1 : ℕ) (2 : ℕ) 100)
        = .error .fault := by
    decide +kernel
  rw [hrun] at hbad
  cases hbad

/-! ## The bytes that the scan copies -/

section Copies

variable {offset len : ℤ} {collid : Oid}

/-- The end of the scan, from the state in which the offset is reached. -/
theorem hocoBytes_eq_some_iff {s : Server.ExtractState} (hcol : collid ≠ 0)
    (halloc : palloc (int32 (len + 14)) = .ok ()) (hlen : 0 ≤ len)
    (hloc : Server.locateLoop (x.datum sv ++ rest) offset ((x.datum sv ++ rest).length + 1) start
      = .ok s) (w : List UInt8) :
    sv.hocoBytes (x.datum sv ++ rest) offset len collid = .ok (some w)
      ↔ ∃ s', Server.copyLoop (x.datum sv ++ rest) offset len x.text.length
            ((x.datum sv ++ rest).length + 1) s = .ok s'
          ∧ s'.out = w ∧ (w.length : ℤ) = len ∧ s'.curOffset ≠ x.text.length := by
  rw [Server.hocoBytes_eq, halloc, Run.ok_bind, x.extsize sv rest, Run.ok_bind, Server.checkCollation_eq hcol,
    Run.ok_bind, if_neg (by omega), hloc, Run.ok_bind, Run.bind_eq_ok]
  constructor
  · rintro ⟨s', hcopy, h⟩
    split at h
    · cases h
    · rename_i hfull
      rw [not_or, not_not] at hfull
      cases h
      exact ⟨s', hcopy, rfl, hfull⟩
  · rintro ⟨s', hcopy, rfl, hfull, hcur⟩
    exact ⟨s', hcopy, if_neg (by rw [not_or, not_not]; exact ⟨hfull, hcur⟩)⟩

/-- **Bytes are copied when the payload is scanned** from that state on, and the
scan does not stop at the end of the text. -/
theorem exists_hocoBytes_iff_scans {clip : Bool} {goal len : ℕ} {s : Server.ExtractState}
    (hgoal : Server.Goal offset len clip goal) (hpos : 0 < len) (hcol : collid ≠ 0)
    (halloc : palloc (int32 (len + 14)) = .ok ())
    (hloc : Server.locateLoop (x.datum sv ++ rest) offset ((x.datum sv ++ rest).length + 1) start
      = .ok s) (hout : s.out = []) (hsp : 4 < s.sp) (hcount : s.count ≤ maxRepeatedSize)
    (hoff : offset ≤ s.curOffset) (hend : s.curOffset + len = goal) :
    (∃ w, w ≠ [] ∧ sv.hocoBytes (x.datum sv ++ rest) offset len collid = .ok (some w))
      ↔ goal ≠ x.text.length ∧ ∃ w, w.length = len ∧ Server.ScansFrom clip x.text.length
        s.curOffset s.repeated s.count ((x.datum sv ++ rest).drop s.sp) w := by
  have hraw : x.text.length < 2 ^ 30 := x.raw
  have hscans := fun {w : List UInt8} (hw : w ≠ []) (hlenw : w.length = len) =>
    Server.copyLoop_iff_scans hgoal (show x.text.length ≤ 2 ^ 30 by omega)
      ((x.datum sv ++ rest).length + 1) s hw hsp hcount hoff (by omega)
      (show (x.datum sv ++ rest).length < _ by omega)
  constructor
  · rintro ⟨w, hw, hbytes⟩
    obtain ⟨s', hcopy, rfl, hlenw, hne⟩ :=
      (hocoBytes_eq_some_iff hcol halloc (by omega) hloc w).mp hbytes
    obtain ⟨more, hmore, hcur⟩ := Server.copyLoop_out hcopy
    rw [hout, List.nil_append] at hmore
    rw [← hmore] at hcur
    refine ⟨by omega, s'.out, by omega, (hscans hw (by omega)).mp ⟨s', hcopy, ?_, hcur⟩⟩
    rw [hout, List.nil_append]
  · rintro ⟨hne, w, hlenw, hfrom⟩
    have hw : w ≠ [] := List.length_pos_iff.mp (by omega)
    obtain ⟨s', hcopy, hout', hcur⟩ := (hscans hw hlenw).mpr hfrom
    rw [hout, List.nil_append] at hout'
    exact ⟨w, hw, (hocoBytes_eq_some_iff hcol halloc (by omega) hloc _).mpr
      ⟨s', hcopy, hout', by omega, by omega⟩⟩

/-- **Behind the start of the text**, bytes are copied for a window that ends
before the end of the text, if there is a byte to read behind it. -/
theorem exists_hocoBytes_of_pos {offset len : ℕ} (hoffset : 0 < offset) (hpos : 0 < len)
    (hcol : collid ≠ 0) (hlen : len + 14 ≤ maxAllocSize)
    (halloc : palloc (int32 (len + 14)) = .ok ()) :
    (∃ w, w ≠ [] ∧ sv.hocoBytes (x.datum sv ++ rest) offset len collid = .ok (some w))
      ↔ offset + len < x.text.length
        ∧ (rest ≠ [] ∨ Server.endsInLastRun x.tokens (offset + len) = false) := by
  have hraw : x.text.length < 2 ^ 30 := x.raw
  simp only [maxAllocSize] at hlen
  rcases Nat.lt_or_ge x.text.length offset with hpast | hle
  · refine iff_of_false ?_ (by omega)
    rintro ⟨w, hw, hbytes⟩
    cases hloc : Server.locateLoop (x.datum sv ++ rest) offset
        ((x.datum sv ++ rest).length + 1) start with
    | error e =>
      rw [Server.hocoBytes_eq, halloc, Run.ok_bind, x.extsize sv rest, Run.ok_bind, Server.checkCollation_eq hcol,
        Run.ok_bind, if_neg (by omega), hloc] at hbytes
      cases hbytes
    | ok s =>
      obtain ⟨hcur, hout⟩ := Server.locateLoop_inv hloc
      obtain ⟨s', hcopy, rfl, -⟩ :=
        (hocoBytes_eq_some_iff hcol halloc (by omega) hloc w).mp hbytes
      rw [Server.copyLoop_stop (by omega)] at hcopy
      cases hcopy
      exact hw hout
  · obtain ⟨s, pre, t, post, k, hloc, htokens, hoff, hcur, hout, hsp, hinside⟩ :=
      x.exists_located sv rest hoffset hle (x.tokens_length_lt sv rest)
    have htotal := text_length_of_located htokens hoff hinside.within
    have hgoal : Server.Goal offset len true (offset + len) :=
      ⟨by omega, by omega, by omega, by omega, by omega⟩
    rw [exists_hocoBytes_iff_scans hgoal hpos hcol halloc hloc hout
      (Nat.lt_trans (by decide) hsp) hinside.count_le (by omega) (by omega)]
    constructor
    · rintro ⟨hne, w, hlenw, hfrom⟩
      have hw : w ≠ [] := List.length_pos_iff.mp (by omega)
      have hscans := hfrom
      rw [hinside.repeated, hinside.count, hinside.mapped] at hscans
      have hshort := Server.scansFrom_length_le Server.scans_length_le hscans (by omega)
      have hlt : offset + len < x.text.length := by omega
      rw [Server.scansFrom_iff_spellsFrom hw (by omega),
        spellsFrom_located_iff htokens hoff hinside hw (by omega), hlenw] at hfrom
      exact ⟨hlt, hfrom.2⟩
    · rintro ⟨hlt, hahead⟩
      have hlenw : ((x.text.drop offset).take len).length = len := by
        rw [List.length_take, List.length_drop]
        omega
      have hw : (x.text.drop offset).take len ≠ [] := List.length_pos_iff.mp (by omega)
      refine ⟨by omega, (x.text.drop offset).take len, hlenw, ?_⟩
      rw [Server.scansFrom_iff_spellsFrom hw (by omega),
        spellsFrom_located_iff htokens hoff hinside hw (by omega), hlenw]
      exact ⟨List.take_prefix _ _, hahead⟩

/-- **At the start of the text, and for the least integer**, bytes are copied when
the payload is scanned from its second byte on to a text of the right length. -/
theorem exists_hocoBytes_of_start {clip : Bool} (hoffset : offset ≤ 0) {len : ℕ}
    (hgoal : Server.Goal offset len clip len) (hpos : 0 < len) (hcol : collid ≠ 0)
    (halloc : palloc (int32 (len + 14)) = .ok ()) :
    (∃ w, w ≠ [] ∧ sv.hocoBytes (x.datum sv ++ rest) offset len collid = .ok (some w))
      ↔ len ≠ x.text.length ∧ ∃ w, w.length = len
        ∧ Server.Scans clip x.text.length 0 ((encode x.tokens ++ rest).drop 1) w := by
  have hloc : Server.locateLoop (x.datum sv ++ rest) offset ((x.datum sv ++ rest).length + 1) start
      = .ok start := by
    rw [Server.locateLoop_eq, if_neg (show ¬ ((0 : ℕ) : ℤ) < offset by omega)]
  rw [exists_hocoBytes_iff_scans hgoal hpos hcol halloc hloc rfl (by decide) (by decide) hoffset
    (Nat.zero_add len)]
  refine and_congr_right fun _ => exists_congr fun w => and_congr_right fun hlenw => ?_
  have hw : w ≠ [] := List.length_pos_iff.mp (by omega)
  exact (Server.scansFrom_zero_iff hw).trans (by rw [x.drop_datum sv rest])

/-- **With any other negative offset nothing is copied.** -/
theorem hocoBytes_eq_nil_of_neg (hoffset : -2 ^ 31 < offset ∧ offset < 0)
    (hlen : 0 ≤ len ∧ len + 14 ≤ maxAllocSize) (hcol : collid ≠ 0)
    (halloc : palloc (int32 (len + 14)) = .ok ()) {w : List UInt8}
    (h : sv.hocoBytes (x.datum sv ++ rest) offset len collid = .ok (some w)) : w = [] := by
  simp only [maxAllocSize] at hlen
  have hloc : Server.locateLoop (x.datum sv ++ rest) offset ((x.datum sv ++ rest).length + 1) start
      = .ok start := by
    rw [Server.locateLoop_eq, if_neg (show ¬ ((0 : ℕ) : ℤ) < offset by omega)]
  obtain ⟨s', hcopy, rfl, hlenw, -⟩ := (hocoBytes_eq_some_iff hcol halloc hlen.1 hloc w).mp h
  obtain ⟨more, hmore, hcur'⟩ := Server.copyLoop_out hcopy
  rw [List.nil_append] at hmore
  have hcur₀ : s'.curOffset = 0 + more.length := hcur'
  have hle := Server.copyLoop_le ⟨hoffset.1, by omega⟩ (by omega) (by decide) (by decide)
    (show offset ≤ ((0 : ℕ) : ℤ) by omega) (show ((0 : ℕ) : ℤ) ≤ _ by omega) hcopy
  rw [hmore] at hlenw ⊢
  exact List.length_eq_zero_iff.mp (by omega)

end Copies

/-! ## Leftover memory -/

/-- **The scan of the payload copies bytes.** The arguments pass the checks, there
is something to copy, and either the window lies behind the start and before the
end of the text, with a byte to read behind it, or the offset is zero or the least
integer and the payload, read from its second byte on, gives a text of the right
length. -/
def CopiesBytes (x : RlePayload) (rest : Mem) (offset len : ℤ) (collid : Oid) : Prop :=
  collid ≠ 0 ∧ (0 < len ∧ len + 14 ≤ maxAllocSize)
    ∧ (0 < offset ∧ offset + len < x.text.length
        ∧ (rest ≠ [] ∨ Server.endsInLastRun x.tokens (offset + len).toNat = false)
      ∨ (offset = 0 ∨ offset = -2 ^ 31) ∧ len ≠ x.text.length
        ∧ ∃ w : List UInt8, w.length = len
          ∧ Server.Scans (decide (offset = 0)) x.text.length 0 ((encode x.tokens ++ rest).drop 1) w)

/-- The condition says what it is meant to. -/
theorem exists_hocoBytes_iff (x : RlePayload) (rest : Mem) {offset len : ℤ}
    (hoffset : -2 ^ 31 ≤ offset ∧ offset < 2 ^ 31) (hlen : -2 ^ 31 ≤ len ∧ len < 2 ^ 31)
    (collid : Oid) :
    (∃ w, w ≠ [] ∧ sv.hocoBytes (x.datum sv ++ rest) offset len collid = .ok (some w))
      ↔ x.CopiesBytes rest offset len collid := by
  unfold CopiesBytes
  rcases Server.palloc_result_int hlen.1 hlen.2 with ⟨hge, hle, halloc⟩ | ⟨hnot, report, halloc⟩
  · by_cases hcol : collid = 0
    · refine iff_of_false ?_ (fun h => h.1 hcol)
      rintro ⟨w, -, hbytes⟩
      rw [Server.hocoBytes_eq, halloc, x.extsize sv rest, checkCollation,
        if_neg (not_not.mpr hcol)] at hbytes
      cases hbytes
    · by_cases hneg : len < 0
      · refine iff_of_false ?_ (by omega)
        rintro ⟨w, -, hbytes⟩
        rw [Server.hocoBytes_eq, halloc, Run.ok_bind, x.extsize sv rest, Run.ok_bind, Server.checkCollation_eq hcol,
          Run.ok_bind, if_pos hneg] at hbytes
        cases hbytes
      · obtain ⟨n, rfl⟩ := Int.eq_ofNat_of_zero_le (Int.not_lt.mp hneg)
        rcases Nat.eq_zero_or_pos n with rfl | hpos
        · refine iff_of_false ?_ (by omega)
          rintro ⟨w, hw, hbytes⟩
          have hlenw := (Server.hocoBytes_length hbytes).1
          exact hw (List.length_eq_zero_iff.mp (by omega))
        · have hchecks : collid ≠ 0 ∧ 0 < (n : ℤ) ∧ (n : ℤ) + 14 ≤ maxAllocSize :=
            ⟨hcol, by omega, hle⟩
          rcases Int.lt_trichotomy offset 0 with hlt | rfl | hgt
          · by_cases hmin : offset = -2 ^ 31
            · rw [exists_hocoBytes_of_start hlt.le
                (show Server.Goal offset n false n from ⟨by omega, by omega, hmin, rfl⟩) hpos hcol
                halloc, decide_eq_false (by omega)]
              constructor
              · rintro ⟨hne, w, hw, hscans⟩
                exact ⟨hcol, hchecks.2, Or.inr ⟨Or.inr hmin, by omega, w, by omega, hscans⟩⟩
              · rintro ⟨-, -, h | ⟨-, hne, w, hw, hscans⟩⟩
                · omega
                · exact ⟨by omega, w, by omega, hscans⟩
            · refine iff_of_false ?_ ?_
              · rintro ⟨w, hw, hbytes⟩
                exact hw (hocoBytes_eq_nil_of_neg ⟨by omega, hlt⟩ ⟨by omega, hle⟩ hcol halloc hbytes)
              · rintro ⟨-, -, h | ⟨h, -⟩⟩ <;> omega
          · rw [exists_hocoBytes_of_start (Int.le_refl 0)
              (show Server.Goal 0 n true n from ⟨by omega, by omega, by omega, by omega, by omega⟩)
              hpos hcol halloc, decide_eq_true rfl]
            constructor
            · rintro ⟨hne, w, hw, hscans⟩
              exact ⟨hcol, hchecks.2, Or.inr ⟨Or.inl rfl, by omega, w, by omega, hscans⟩⟩
            · rintro ⟨-, -, h | ⟨-, hne, w, hw, hscans⟩⟩
              · omega
              · exact ⟨by omega, w, by omega, hscans⟩
          · obtain ⟨k, rfl⟩ := Int.eq_ofNat_of_zero_le hgt.le
            rw [exists_hocoBytes_of_pos (by omega) hpos hcol (by omega) halloc,
              show ((k : ℤ) + (n : ℤ)).toNat = k + n by omega]
            constructor
            · rintro ⟨hlt, hahead⟩
              exact ⟨hcol, hchecks.2, Or.inl ⟨hgt, by omega, hahead⟩⟩
            · rintro ⟨-, -, ⟨-, hlt, hahead⟩ | ⟨h, -⟩⟩
              · exact ⟨by omega, hahead⟩
              · omega
  · refine iff_of_false ?_ (by omega)
    rintro ⟨w, -, hbytes⟩
    rw [Server.hocoBytes_eq, halloc] at hbytes
    cases hbytes

end RlePayload

/-- **The plain function copies bytes**: the arguments pass the checks, and the
window is neither empty nor behind the text. -/
def CopiesText (t : List UInt8) (offset len : ℤ) (collid : Oid) : Prop :=
  collid ≠ 0 ∧ (0 ≤ offset ∧ offset < t.length) ∧ 0 < len ∧ len + 14 ≤ maxAllocSize

namespace Server

variable (sv : Server)

/-- `hocotext_hoco_extract` on a payload. -/
theorem independent_hocotextHocoExtract_iff (x : RlePayload) (rest : Mem) (offset len : Int32)
    (collid : Oid) :
    sv.Independent (fun fresh =>
        sv.hocotextHocoExtract fresh (x.datum sv ++ rest) offset.toInt len.toInt collid)
      ↔ ¬ x.CopiesBytes rest offset.toInt len.toInt collid := by
  have hoffset := And.intro offset.le_toInt offset.toInt_lt
  have hlen := And.intro len.le_toInt len.toInt_lt
  simp only [hocotextHocoExtract_eq_map]
  rw [sv.independent_iff, ← RlePayload.exists_hocoBytes_iff x rest hoffset hlen]
  · constructor
    · rintro hnil ⟨w, hw, hbytes⟩
      exact hw (hnil w hbytes)
    · intro hno w hbytes
      by_contra hw
      exact hno ⟨w, hw, hbytes⟩
  · intro w hbytes
    obtain ⟨hlenw, hok⟩ := hocoBytes_length hbytes
    rcases palloc_result_int hlen.1 hlen.2 with ⟨-, hle, -⟩ | ⟨-, report, herror⟩
    · simp only [maxAllocSize] at hle
      omega
    · rw [hok] at herror
      cases herror

/-- `hocotext_common_extract` on a plain text. -/
theorem independent_hocotextCommonExtract_iff {t : List UInt8} (fits : t.length + 4 < 2 ^ 30)
    (rest : Mem) (offset len : Int32) (collid : Oid) :
    sv.Independent (fun fresh =>
        sv.hocotextCommonExtract fresh (sv.plainDatum t ++ rest) offset.toInt len.toInt collid)
      ↔ ¬ CopiesText t offset.toInt len.toInt collid := by
  have hoffset := And.intro offset.le_toInt offset.toInt_lt
  have hlen := And.intro len.le_toInt len.toInt_lt
  have hbytes := (sv.hasText_plainDatum fits rest).commonBytes_eq_some_iff hoffset hlen collid
  have hlength : ((t.drop offset.toInt.toNat).take len.toInt.toNat).length
      = min len.toInt.toNat (t.length - offset.toInt.toNat) := by
    rw [List.length_take, List.length_drop]
  unfold hocotextCommonExtract
  rw [sv.independent_iff]
  · constructor
    · rintro hnil ⟨hcol, hoff, hpos, hle⟩
      have h := congrArg List.length (hnil _ ((hbytes _).mpr ⟨hcol, by omega, by omega, rfl⟩))
      rw [hlength, List.length_nil] at h
      omega
    · intro hno w hw
      obtain ⟨hcol, hoff, hle, rfl⟩ := (hbytes w).mp hw
      refine List.length_eq_zero_iff.mp ?_
      rw [hlength]
      by_contra hpos
      exact hno ⟨hcol, by omega, by omega⟩
  · intro w hw
    obtain ⟨-, -, hle, rfl⟩ := (hbytes w).mp hw
    rw [hlength]
    simp only [maxAllocSize] at hle
    omega

/-- **Extraction depends on what its block held exactly when it copies any
bytes**, for a payload and for a plain text, and for all arguments. -/
theorem extract_independent_iff (x : RlePayload) (t : { t : List UInt8 // t.length + 4 < 2 ^ 30 })
    (restx restt : Mem) (offset len : Int32) (collid : Oid) :
    (sv.Independent (fun fresh =>
          sv.hocotextHocoExtract fresh (x.datum sv ++ restx) offset.toInt len.toInt collid)
        ∧ sv.Independent (fun fresh =>
          sv.hocotextCommonExtract fresh (sv.plainDatum t ++ restt) offset.toInt len.toInt collid))
      ↔ ¬ x.CopiesBytes restx offset.toInt len.toInt collid
        ∧ ¬ CopiesText t offset.toInt len.toInt collid := by
  rw [independent_hocotextHocoExtract_iff, independent_hocotextCommonExtract_iff sv t.property]

/-- **Extraction may depend on what its block held**: the first byte of a plain
text, with a block that was cleared and with one that was not. -/
theorem not_forall_extract_independent :
    ¬ ∀ (sv : Server) (t : { t : List UInt8 // t.length + 4 < 2 ^ 30 }) (offset len : Int32)
        (collid : Oid),
      sv.Independent (fun fresh =>
        sv.hocotextCommonExtract fresh (sv.plainDatum t) offset.toInt len.toInt collid) := by
  intro h
  have hsame := h .littleEndian ⟨[97, 98], by decide⟩ 0 1 100 (fun _ => 0) (fun _ => 0x81)
  have hzero : littleEndian.valueOutcome (littleEndian.hocotextCommonExtract (fun _ => 0)
      (littleEndian.plainDatum [97, 98]) 0 1 100) = .ok (some [20, 0, 0, 0, 97]) := by
    decide +kernel
  have hold : littleEndian.valueOutcome (littleEndian.hocotextCommonExtract (fun _ => 0x81)
      (littleEndian.plainDatum [97, 98]) 0 1 100) = .ok (some [20, 0, 0, 0, 0x81]) := by
    decide +kernel
  exact absurd (hzero.symm.trans (hsame.trans hold)) (by decide)

end Server
