import Hoco.HocotextExtract

/-!
# What the copying loop reads

The loop takes bytes to be tokens wherever it stands. `Spells m w` says that the
memory `m`, read as tokens from a mark on, gives the text `w`; the last token
may be cut short, and there is one more byte to read behind it, which the loop
takes for a mark before it stops.
-/

open Rle TextOrder

namespace Server

variable (sv : Server)

/-- The data of a token, of which the text takes at most `count` bytes. -/
def Chunk (repeated : Bool) (count : ℕ) (w : List UInt8) (m m' : Mem) : Prop :=
  if repeated then ∃ b, m = b :: m' ∧ w.take count = List.replicate (min count w.length) b
  else m = w.take count ++ m'

/-- **The memory spells the text.** -/
inductive Spells : Mem → List UInt8 → Prop
  | done (mark : UInt8) (m : Mem) : Spells (mark :: m) []
  | token {mark : UInt8} {m m' : Mem} {w : List UInt8} (hw : w ≠ [])
      (chunk : Chunk (markIsRun mark) (markCount mark) w m m')
      (next : Spells m' (w.drop (markCount mark))) : Spells (mark :: m) w

/-- What is left to spell once the data of a token is at hand. -/
def SpellsFrom (repeated : Bool) (count : ℕ) (m : Mem) (w : List UInt8) : Prop :=
  ∃ m', Chunk repeated count w m m' ∧ Spells m' (w.drop count)

theorem spells_cons_iff {mark : UInt8} {m : Mem} {w : List UInt8} (hw : w ≠ []) :
    Spells (mark :: m) w ↔ SpellsFrom (markIsRun mark) (markCount mark) m w := by
  constructor
  · intro h
    cases h with
    | done => exact absurd rfl hw
    | token _ chunk next => exact ⟨_, chunk, next⟩
  · rintro ⟨m', chunk, next⟩
    exact Spells.token hw chunk next

/-- A run of no bytes, in which the loop stands when the offset is zero: the
byte there is skipped. -/
theorem spellsFrom_zero_iff {m : Mem} {w : List UInt8} :
    SpellsFrom true 0 m w ↔ Spells (m.drop 1) w := by
  constructor
  · rintro ⟨m', ⟨b, rfl, -⟩, hspells⟩
    exact hspells
  · intro h
    cases m with
    | nil => cases h
    | cons b m => exact ⟨m, ⟨b, rfl, by simp⟩, h⟩

/-- There is a byte to read behind whatever is spelled. -/
theorem Spells.exists_cons {m : Mem} {w : List UInt8} (h : Spells m w) :
    ∃ mark m', m = mark :: m' := by
  cases h with
  | done mark m => exact ⟨mark, m, rfl⟩
  | token _ _ _ => exact ⟨_, _, rfl⟩

/-- A mark announces no more bytes than the longest run has. -/
theorem markCount_le (mark : UInt8) : markCount mark ≤ maxRepeatedSize := by
  have hand : (mark &&& 0x7F).toNat < 128 := by
    rw [UInt8.toNat_and, show (0x7F : UInt8).toNat = 2 ^ 7 - 1 from rfl,
      Nat.and_two_pow_sub_one_eq_mod]
    omega
  unfold markCount
  simp only [threshold, maxRepeatedSize]
  split <;> omega

/-- **The loop scans the text**, from a mark on and with `cur` bytes of the whole
text passed: every token starts before `rawsize`. With `clip` the last one may be
cut short, and otherwise the loop only stops behind `rawsize`. -/
inductive Scans (clip : Bool) (rawsize : ℕ) : ℕ → Mem → List UInt8 → Prop
  | done {cur : ℕ} (mark : UInt8) (m : Mem) (stops : clip = true ∨ rawsize ≤ cur) :
      Scans clip rawsize cur (mark :: m) []
  | token {cur : ℕ} {mark : UInt8} {m m' : Mem} {w : List UInt8} (hw : w ≠ [])
      (starts : cur < rawsize) (fits : clip = true ∨ markCount mark ≤ w.length)
      (chunk : Chunk (markIsRun mark) (markCount mark) w m m')
      (next : Scans clip rawsize (cur + min (markCount mark) w.length) m'
        (w.drop (markCount mark))) : Scans clip rawsize cur (mark :: m) w

/-- What is left to scan once the data of a token is at hand. -/
def ScansFrom (clip : Bool) (rawsize cur : ℕ) (repeated : Bool) (count : ℕ) (m : Mem)
    (w : List UInt8) : Prop :=
  cur < rawsize ∧ (clip = true ∨ count ≤ w.length)
    ∧ ∃ m', Chunk repeated count w m m'
      ∧ Scans clip rawsize (cur + min count w.length) m' (w.drop count)

section Scans

variable {clip : Bool} {rawsize cur : ℕ}

theorem scans_cons_iff {mark : UInt8} {m : Mem} {w : List UInt8} (hw : w ≠ []) :
    Scans clip rawsize cur (mark :: m) w
      ↔ ScansFrom clip rawsize cur (markIsRun mark) (markCount mark) m w := by
  constructor
  · intro h
    cases h with
    | done => exact absurd rfl hw
    | token _ starts fits chunk next => exact ⟨starts, fits, _, chunk, next⟩
  · rintro ⟨starts, fits, m', chunk, next⟩
    exact Scans.token hw starts fits chunk next

theorem Scans.exists_cons {m : Mem} {w : List UInt8} (h : Scans clip rawsize cur m w) :
    ∃ mark m', m = mark :: m' := by
  cases h with
  | done mark m _ => exact ⟨mark, m, rfl⟩
  | token _ _ _ _ _ => exact ⟨_, _, rfl⟩

theorem Scans.stops {m : Mem} (h : Scans clip rawsize cur m []) : clip = true ∨ rawsize ≤ cur := by
  cases h with
  | done _ _ stops => exact stops
  | token hw => exact absurd rfl hw

/-- Before the end of the whole text, scanning is spelling. -/
theorem scans_iff_spells {m : Mem} {w : List UInt8} (h : cur + w.length ≤ rawsize) :
    Scans true rawsize cur m w ↔ Spells m w := by
  constructor
  · intro hscans
    induction hscans with
    | done mark m _ => exact Spells.done mark m
    | token hw _ _ chunk _ ih =>
      exact Spells.token hw chunk (ih (by rw [List.length_drop]; omega))
  · intro hspells
    induction hspells generalizing cur with
    | done mark m => exact Scans.done mark m (Or.inl rfl)
    | token hw chunk _ ih =>
      have hpos := List.length_pos_iff.mpr hw
      exact Scans.token hw (by omega) (Or.inl rfl) chunk (ih (by rw [List.length_drop]; omega))

theorem scansFrom_iff_spellsFrom {repeated : Bool} {count : ℕ} {m : Mem} {w : List UInt8}
    (hw : w ≠ []) (h : cur + w.length ≤ rawsize) :
    ScansFrom true rawsize cur repeated count m w ↔ SpellsFrom repeated count m w := by
  have hpos := List.length_pos_iff.mpr hw
  have hnext : ∀ m' : Mem, Scans true rawsize (cur + min count w.length) m' (w.drop count)
      ↔ Spells m' (w.drop count) :=
    fun m' => scans_iff_spells (by rw [List.length_drop]; omega)
  unfold ScansFrom SpellsFrom
  simp only [hnext]
  exact ⟨fun h => h.2.2, fun h => ⟨by omega, Or.inl trivial, h⟩⟩

end Scans

section Copy

variable {source : Mem} {offset len : ℤ} {rawsize : ℕ}

/-- Reading the data of a token where it is mapped. -/
theorem readChunk_of_chunk {repeated : Bool} {count sp : ℕ} {w : List UInt8} {m' : Mem}
    (chunk : Chunk repeated count w (source.drop sp) m') :
    ∃ sp', readChunk source repeated (min count w.length) sp = .ok (w.take count, sp')
      ∧ source.drop sp' = m' ∧ sp ≤ sp' := by
  have htake : (w.take count).length = min count w.length := List.length_take
  unfold Chunk at chunk
  rw [readChunk_eq]
  cases repeated with
  | true =>
    obtain ⟨b, hm, hbytes⟩ := chunk
    refine ⟨sp + 1, ?_, @Mem.drop_add _ [b] _ _ hm, by omega⟩
    rw [if_pos rfl, Mem.load_of_drop hm, hbytes]
    by_cases hzero : min count w.length = 0
    · rw [if_pos hzero, hzero]
      rfl
    · rw [if_neg hzero]
      rfl
  | false =>
    refine ⟨sp + (w.take count).length, ?_, Mem.drop_add chunk, by omega⟩
    have hcopy := Mem.copy_of_drop chunk
    rw [htake] at hcopy ⊢
    rw [if_neg Bool.false_ne_true, hcopy]
    rfl

theorem readChunk_length {repeated : Bool} {count sp sp' : ℕ} {bytes : List UInt8}
    (hread : readChunk source repeated count sp = .ok (bytes, sp')) : bytes.length = count := by
  rw [readChunk_eq] at hread
  split at hread
  · split at hread
    · cases hread
      rw [List.length_nil]
      omega
    · obtain ⟨b, -, hb⟩ := Run.map_eq_ok.mp hread
      cases hb
      exact List.length_replicate
  · obtain ⟨bs, hcopy, hbs⟩ := Run.map_eq_ok.mp hread
    cases hbs
    exact (Mem.drop_of_copy hcopy).1

/-- Where the data of a token can be read, and one byte more, it is mapped. -/
theorem chunk_of_readChunk {repeated : Bool} {count sp sp' r : ℕ} {bytes : List UInt8}
    {mark : UInt8} (hread : readChunk source repeated (min count r) sp = .ok (bytes, sp'))
    (hmark : source.load sp' = .ok mark) {w : List UInt8} (hw : w.length = r)
    (htake : w.take count = bytes) :
    sp ≤ sp' ∧ Chunk repeated count w (source.drop sp) (source.drop sp') := by
  rw [readChunk_eq] at hread
  unfold Chunk
  cases repeated with
  | true =>
    rw [if_pos rfl] at hread
    rw [if_pos rfl, hw]
    split at hread
    · rename_i hzero
      cases hread
      -- the data byte is not read, but the mark behind it is
      have hlt : sp < source.length := by
        have h := congrArg List.length (Mem.drop_of_load hmark)
        rw [List.length_drop, List.length_cons] at h
        omega
      exact ⟨by omega, source[sp], List.drop_eq_getElem_cons hlt, by rw [htake, hzero]; rfl⟩
    · obtain ⟨b, hb, heq⟩ := Run.map_eq_ok.mp hread
      cases heq
      exact ⟨by omega, b, Mem.drop_of_load hb, htake⟩
  | false =>
    rw [if_neg Bool.false_ne_true] at hread ⊢
    obtain ⟨bs, hcopy, heq⟩ := Run.map_eq_ok.mp hread
    cases heq
    exact ⟨by omega, by rw [htake]; exact (Mem.drop_of_copy hcopy).2⟩

/-- The state after a turn that copied `bytes` and read `mark`. -/
def ExtractState.copied (s : ExtractState) (sp : ℕ) (bytes : List UInt8) (mark : UInt8) :
    ExtractState where
  sp := sp + 1
  curOffset := s.curOffset + bytes.length
  count := markCount mark
  repeated := markIsRun mark
  out := s.out ++ bytes

/-- **The text is complete at `goal`.** For a non-negative offset the loop cuts
the last token off where it is. The one offset for which it does not is the least
integer: the differences with it wrap around, and look small forever. -/
def Goal (offset len : ℤ) (clip : Bool) (goal : ℕ) : Prop :=
  0 ≤ len ∧ len < 2 ^ 31
    ∧ if clip then 0 ≤ offset ∧ offset < 2 ^ 31 ∧ (goal : ℤ) = offset + len
      else offset = -2 ^ 31 ∧ (goal : ℤ) = len

/-- **A turn of the copying loop**, with `r` bytes still to copy. -/
theorem copyLoop_succ {clip : Bool} {goal : ℕ} (hgoal : Goal offset len clip goal)
    (hsmall : rawsize ≤ 2 ^ 30) {s : ExtractState} (hsp : s.sp ≠ 4)
    (hcount : s.count ≤ maxRepeatedSize) (hoff : offset ≤ s.curOffset) {r : ℕ} (hr : 0 < r)
    (hlen : s.curOffset + r = goal) (hraw : s.curOffset < rawsize) (fuel : ℕ) :
    copyLoop source offset len rawsize (fuel + 1) s
      = (do
        let (bytes, sp) ← readChunk source s.repeated (if clip then min s.count r else s.count) s.sp
        let mark ← source.load sp
        copyLoop source offset len rawsize fuel
          { s.copied sp bytes mark with
            curOffset := s.curOffset + if clip then min s.count r else s.count }) := by
  obtain ⟨hlen₀, hlen₁, hcase⟩ := hgoal
  simp only [maxRepeatedSize] at hcount
  have htests : (int32 (s.curOffset - offset) < len ∧ s.curOffset < rawsize)
      ∧ (if int32 (s.count + s.curOffset - offset) > len
          then (int32 (len + offset - s.curOffset)).toNat else s.count)
        = if clip then min s.count r else s.count := by
    cases clip with
    | true =>
      obtain ⟨hoff₀, hoff₁, hgoal⟩ := hcase
      rw [int32_eq_self (by omega) (by omega), int32_eq_self (by omega) (by omega),
        int32_eq_self (by omega) (by omega)]
      refine ⟨by omega, ?_⟩
      rw [if_pos rfl]
      split <;> omega
    | false =>
      obtain ⟨hmin, hgoal⟩ := hcase
      rw [int32_eq_sub (by omega) (by omega), int32_eq_sub (by omega) (by omega)]
      refine ⟨by omega, ?_⟩
      rw [if_neg (by omega), if_neg Bool.false_ne_true]
  rw [copyLoop_eq, if_pos htests.1, result_currentToken hsp]
  simp only [Run.ok_bind, htests.2]
  rfl

/-- The loop only adds to what it has copied, and counts what it adds. -/
theorem copyLoop_out {fuel : ℕ} {s s' : ExtractState}
    (hrun : copyLoop source offset len rawsize fuel s = .ok s') :
    ∃ more, s'.out = s.out ++ more ∧ s'.curOffset = s.curOffset + more.length := by
  induction fuel generalizing s with
  | zero => cases hrun
  | succ fuel ih =>
    rw [copyLoop_eq] at hrun
    split at hrun
    · obtain ⟨⟨repeated, count⟩, -, hrun⟩ := Run.bind_eq_ok.mp hrun
      obtain ⟨⟨bytes, sp⟩, hread, hrun⟩ := Run.bind_eq_ok.mp hrun
      obtain ⟨mark, -, hrun⟩ := Run.bind_eq_ok.mp hrun
      obtain ⟨more, hout, hcur⟩ := ih hrun
      refine ⟨bytes ++ more, ?_, ?_⟩
      · rw [hout, List.append_assoc]
      · rw [hcur, List.length_append, readChunk_length hread, Nat.add_assoc]
    · cases hrun
      exact ⟨[], by simp, by simp⟩

theorem copyLoop_stop {fuel : ℕ} {s : ExtractState}
    (hstop : ¬ (int32 (s.curOffset - offset) < len ∧ s.curOffset < rawsize)) :
    copyLoop source offset len rawsize (fuel + 1) s = .ok s := by
  rw [copyLoop_eq, if_neg hstop]

/-- The loop stops where its test says so. -/
theorem copyLoop_exit {fuel : ℕ} {s s' : ExtractState}
    (hrun : copyLoop source offset len rawsize fuel s = .ok s') :
    ¬ (int32 (s'.curOffset - offset) < len ∧ s'.curOffset < rawsize) := by
  induction fuel generalizing s with
  | zero => cases hrun
  | succ fuel ih =>
    rw [copyLoop_eq] at hrun
    split at hrun
    · obtain ⟨_, -, hrun⟩ := Run.bind_eq_ok.mp hrun
      obtain ⟨_, -, hrun⟩ := Run.bind_eq_ok.mp hrun
      obtain ⟨_, -, hrun⟩ := Run.bind_eq_ok.mp hrun
      exact ih hrun
    · rename_i hstop
      cases hrun
      exact hstop

/-- **When the loop stops with a complete text.** -/
theorem stops_iff {clip : Bool} {goal : ℕ} (hgoal : Goal offset len clip goal) :
    ¬ (int32 (goal - offset) < len ∧ goal < rawsize) ↔ clip = true ∨ rawsize ≤ goal := by
  obtain ⟨hlen₀, hlen₁, hcase⟩ := hgoal
  cases clip with
  | true =>
    obtain ⟨hoff₀, hoff₁, hgoal⟩ := hcase
    rw [int32_eq_self (by omega) (by omega)]
    exact iff_of_true (by omega) (Or.inl rfl)
  | false =>
    obtain ⟨hmin, hgoal⟩ := hcase
    by_cases hlt : goal < rawsize
    · rw [int32_eq_sub (by omega) (by omega)]
      simp only [Bool.false_eq_true, false_or]
      omega
    · exact iff_of_true (fun h => hlt h.2) (Or.inr (Nat.not_lt.mp hlt))

theorem readChunk_le {repeated : Bool} {count sp sp' : ℕ} {bytes : List UInt8}
    (hread : readChunk source repeated count sp = .ok (bytes, sp')) : sp ≤ sp' := by
  rw [readChunk_eq] at hread
  split at hread
  · split at hread
    · cases hread
      omega
    · obtain ⟨b, -, hb⟩ := Run.map_eq_ok.mp hread
      cases hb
      omega
  · obtain ⟨bs, -, hbs⟩ := Run.map_eq_ok.mp hread
    cases hbs
    omega

/-- **The loop does not copy more than it is asked for**, for any offset but the least
integer. With a negative one it stops short of the length. -/
theorem copyLoop_le (hoffset : -2 ^ 31 < offset ∧ offset < 2 ^ 31) (hlen : len < 2 ^ 30) {fuel : ℕ}
    {s s' : ExtractState} (hcount : s.count ≤ maxRepeatedSize) (hsp : 4 < s.sp)
    (hoff : offset ≤ s.curOffset) (hcur : (s.curOffset : ℤ) ≤ max 0 (len + offset))
    (h : copyLoop source offset len rawsize fuel s = .ok s') :
    (s'.curOffset : ℤ) ≤ max 0 (len + offset) := by
  induction fuel generalizing s with
  | zero => cases h
  | succ fuel ih =>
    simp only [maxRepeatedSize] at hcount
    rw [copyLoop_eq] at h
    split at h
    · rename_i hgo
      rw [result_currentToken (by omega), Run.ok_bind] at h
      obtain ⟨⟨bytes, sp⟩, hread, h⟩ := Run.bind_eq_ok.mp h
      obtain ⟨mark, hmark, h⟩ := Run.bind_eq_ok.mp h
      have hle := readChunk_le hread
      -- the tests do not wrap, and the token is cut off at the length
      rw [int32_eq_self (by omega) (by omega)] at hgo
      rw [int32_eq_self (by omega) (by omega), int32_eq_self (by omega) (by omega)] at h
      refine ih (markCount_le mark) (show 4 < sp + 1 by omega) (Int.le_trans hoff ?_) ?_ h
      · exact Int.ofNat_le.mpr (Nat.le_add_right _ _)
      · show ((s.curOffset + (if (s.count : ℤ) + s.curOffset - offset > len
          then (len + offset - s.curOffset).toNat else s.count) : ℕ) : ℤ) ≤ _
        split <;> omega
    · cases h
      exact hcur

/-- The copying loop produces the text `w`, behind what has been copied before. -/
def Copies (source : Mem) (offset len : ℤ) (rawsize fuel : ℕ) (s : ExtractState)
    (w : List UInt8) : Prop :=
  ∃ s', copyLoop source offset len rawsize fuel s = .ok s' ∧ s'.out = s.out ++ w
    ∧ s'.curOffset = s.curOffset + w.length

/-- The first bytes to be copied are all the output. -/
theorem copies_iff_of_out_nil {fuel : ℕ} {s : ExtractState} (hout : s.out = [])
    {w : List UInt8} :
    Copies source offset len rawsize fuel s w
      ↔ ∃ s', copyLoop source offset len rawsize fuel s = .ok s' ∧ s'.out = w := by
  unfold Copies
  rw [hout, List.nil_append]
  constructor
  · rintro ⟨s', hrun, hw, -⟩
    exact ⟨s', hrun, hw⟩
  · rintro ⟨s', hrun, rfl⟩
    obtain ⟨more, hmore, hcur⟩ := copyLoop_out hrun
    rw [hout, List.nil_append] at hmore
    exact ⟨s', hrun, rfl, by rw [hcur, hmore]⟩

/-- **A turn copies the data of a token**, of which the text takes what it needs, and
reads a mark. -/
theorem copies_succ_iff {clip : Bool} {goal : ℕ} (hgoal : Goal offset len clip goal)
    (hsmall : rawsize ≤ 2 ^ 30) {s : ExtractState} (hsp : s.sp ≠ 4)
    (hcount : s.count ≤ maxRepeatedSize) (hoff : offset ≤ s.curOffset) {w : List UInt8}
    (hw : w ≠ []) (hlen : s.curOffset + w.length = goal) (hraw : s.curOffset < rawsize)
    (fuel : ℕ) :
    Copies source offset len rawsize (fuel + 1) s w
      ↔ (clip = true ∨ s.count ≤ w.length) ∧ ∃ sp mark, s.sp ≤ sp ∧ source.load sp = .ok mark
        ∧ Chunk s.repeated s.count w (source.drop s.sp) (source.drop sp)
        ∧ Copies source offset len rawsize fuel (s.copied sp (w.take s.count) mark)
          (w.drop s.count) := by
  have hpos : 0 < w.length := List.length_pos_iff.mpr hw
  have htake : (w.take s.count).length = min s.count w.length := List.length_take
  have hdrop : (w.drop s.count).length = w.length - s.count := List.length_drop
  unfold Copies
  rw [copyLoop_succ hgoal hsmall hsp hcount hoff hpos hlen hraw]
  constructor
  · rintro ⟨s', hrun, hout, hcur⟩
    obtain ⟨⟨bytes, sp⟩, hread, hrun⟩ := Run.bind_eq_ok.mp hrun
    obtain ⟨mark, hmark, hrun⟩ := Run.bind_eq_ok.mp hrun
    have hbytes := readChunk_length hread
    obtain ⟨more, hmore, -⟩ := copyLoop_out hrun
    have hsplit : w = bytes ++ more := by
      rw [hout] at hmore
      exact List.append_cancel_left (hmore.trans (List.append_assoc _ _ _))
    have hlenw : w.length = bytes.length + more.length := by rw [hsplit, List.length_append]
    -- a token that is not cut off was short enough
    obtain ⟨hfits, hmin⟩ : (clip = true ∨ s.count ≤ w.length)
        ∧ (if clip then min s.count w.length else s.count) = min s.count w.length := by
      cases clip with
      | true => exact ⟨Or.inl rfl, if_pos rfl⟩
      | false =>
        rw [if_neg Bool.false_ne_true] at hbytes ⊢
        exact ⟨Or.inr (by omega), by omega⟩
    rw [hmin] at hread hbytes hrun
    have hw' : w.take s.count = bytes := by
      rw [show w.take s.count = w.take bytes.length by
        rw [List.take_eq_take_iff, hbytes]; omega, hsplit, List.take_left]
    obtain ⟨hle, chunk⟩ := chunk_of_readChunk hread hmark rfl hw'
    refine ⟨hfits, sp, mark, hle, hmark, chunk, s', ?_, ?_, ?_⟩
    · rw [ExtractState.copied, htake, hw']
      exact hrun
    · show s'.out = s.out ++ w.take s.count ++ w.drop s.count
      rw [List.append_assoc, List.take_append_drop, hout]
    · show s'.curOffset = s.curOffset + (w.take s.count).length + (w.drop s.count).length
      omega
  · rintro ⟨hfits, sp, mark, hle, hmark, chunk, s', hrun, hout, hcur⟩
    have hmin : (if clip then min s.count w.length else s.count) = min s.count w.length := by
      cases clip with
      | true => exact if_pos rfl
      | false =>
        rw [if_neg Bool.false_ne_true]
        exact (Nat.min_eq_left (hfits.resolve_left Bool.false_ne_true)).symm
    obtain ⟨sp', hread, hsp', hle'⟩ := readChunk_of_chunk chunk
    obtain rfl : sp' = sp := by
      have h := congrArg List.length (hsp'.trans (Mem.drop_of_load hmark))
      have h' := congrArg List.length hsp'
      rw [List.length_drop, List.length_cons] at h
      rw [List.length_drop, List.length_drop] at h'
      omega
    rw [hmin]
    simp only [hread, hmark, Run.ok_bind]
    refine ⟨s', ?_, ?_, ?_⟩
    · rw [ExtractState.copied, htake] at hrun
      exact hrun
    · rw [hout]
      show s.out ++ w.take s.count ++ w.drop s.count = _
      rw [List.append_assoc, List.take_append_drop]
    · rw [hcur]
      show s.curOffset + (w.take s.count).length + (w.drop s.count).length = _
      omega

/-- Where nothing is left to copy, the loop must stop. -/
theorem copies_nil_iff {clip : Bool} {goal : ℕ} (hgoal : Goal offset len clip goal)
    {s : ExtractState} (hlen : s.curOffset = goal) (fuel : ℕ) :
    Copies source offset len rawsize (fuel + 1) s [] ↔ clip = true ∨ rawsize ≤ goal := by
  rw [← stops_iff hgoal]
  constructor
  · rintro ⟨s', hrun, -, hcur⟩
    have hexit := copyLoop_exit hrun
    rwa [hcur, hlen] at hexit
  · intro hstop
    rw [← hlen] at hstop
    exact ⟨s, copyLoop_stop hstop, (List.append_nil _).symm, rfl⟩

/-- **The copying loop produces a text exactly when it scans it.** -/
theorem copyLoop_iff_scans {clip : Bool} {goal : ℕ} (hgoal : Goal offset len clip goal)
    (hsmall : rawsize ≤ 2 ^ 30) (fuel : ℕ) (s : ExtractState) {w : List UInt8} (hw : w ≠ [])
    (hsp : 4 < s.sp) (hcount : s.count ≤ maxRepeatedSize) (hoff : offset ≤ s.curOffset)
    (hlen : s.curOffset + w.length = goal) (hfuel : source.length < s.sp + fuel) :
    Copies source offset len rawsize fuel s w
      ↔ ScansFrom clip rawsize s.curOffset s.repeated s.count (source.drop s.sp) w := by
  induction fuel generalizing s w with
  | zero =>
    -- nothing is mapped any more
    refine iff_of_false (by rintro ⟨s', hrun, -⟩; cases hrun) ?_
    rintro ⟨-, -, m', chunk, hscans⟩
    obtain ⟨mark, m'', hm'⟩ := hscans.exists_cons
    obtain ⟨sp', -, hsp', hle⟩ := readChunk_of_chunk chunk
    rw [hm', List.drop_eq_nil_of_le (by omega)] at hsp'
    cases hsp'
  | succ fuel ih =>
    by_cases hraw : s.curOffset < rawsize
    · have htake : (w.take s.count).length = min s.count w.length := List.length_take
      have hdrop : (w.drop s.count).length = w.length - s.count := List.length_drop
      -- what is left of the text behind a turn, from the mark on
      have hrest : ∀ {sp mark}, s.sp ≤ sp → source.drop sp = mark :: source.drop (sp + 1) →
          (Copies source offset len rawsize fuel (s.copied sp (w.take s.count) mark)
              (w.drop s.count)
            ↔ Scans clip rawsize (s.curOffset + min s.count w.length) (source.drop sp)
              (w.drop s.count)) := by
        intro sp mark hle hmark
        have hcur : (s.copied sp (w.take s.count) mark).curOffset
            = s.curOffset + min s.count w.length := by rw [← htake]; rfl
        have hmapped := congrArg List.length hmark
        rw [List.length_cons, List.length_drop, List.length_drop] at hmapped
        rw [hmark, ← hcur]
        by_cases hnil : w.drop s.count = []
        · obtain ⟨fuel, rfl⟩ : ∃ f, fuel = f + 1 := ⟨fuel - 1, by omega⟩
          rw [hnil, List.length_nil] at hdrop
          have hgoal' : (s.copied sp (w.take s.count) mark).curOffset = goal := by omega
          rw [hnil, copies_nil_iff hgoal hgoal', ← hgoal']
          exact ⟨fun h => .done mark _ h, Scans.stops⟩
        · rw [scans_cons_iff hnil]
          exact ih _ hnil (show 4 < sp + 1 by omega) (markCount_le mark) (by omega) (by omega)
            (show source.length < sp + 1 + fuel by omega)
      rw [copies_succ_iff hgoal hsmall (by omega) hcount hoff hw hlen hraw]
      constructor
      · rintro ⟨hfits, sp, mark, hle, hmark, chunk, hcopies⟩
        have hmark' := Mem.drop_of_load hmark
        exact ⟨hraw, hfits, source.drop sp, chunk, (hrest hle hmark').mp hcopies⟩
      · rintro ⟨-, hfits, m', chunk, hscans⟩
        obtain ⟨mark, m'', rfl⟩ := hscans.exists_cons
        obtain ⟨sp, hread, hsp', hle⟩ := readChunk_of_chunk chunk
        have hm'' : source.drop (sp + 1) = m'' := @Mem.drop_add _ [mark] _ _ hsp'
        rw [← hm''] at hsp'
        rw [← hm'', ← hsp'] at hscans chunk
        exact ⟨hfits, sp, mark, hle, Mem.load_of_drop hsp', chunk, (hrest hle hsp').mpr hscans⟩
    · unfold Copies
      rw [copyLoop_stop (fun h => hraw h.2)]
      refine iff_of_false ?_ (fun h => hraw h.1)
      rintro ⟨s', hrun, hout, -⟩
      cases hrun
      exact hw (List.self_eq_append_right.mp hout)

/-- **The copying loop produces a text exactly when the memory spells it**, as
long as the end of the text is not reached. -/
theorem copyLoop_iff {offset len : ℕ} (hoffset : offset < 2 ^ 31) (hlenlt : len < 2 ^ 31)
    (hsmall : rawsize ≤ 2 ^ 30) (fuel : ℕ) (s : ExtractState) {w : List UInt8} (hw : w ≠ [])
    (hsp : 4 < s.sp) (hcount : s.count ≤ maxRepeatedSize) (hoff : offset ≤ s.curOffset)
    (hlen : s.curOffset + w.length = offset + len) (hraw : s.curOffset + w.length < rawsize)
    (hfuel : source.length < s.sp + fuel) :
    Copies source offset len rawsize fuel s w
      ↔ SpellsFrom s.repeated s.count (source.drop s.sp) w := by
  have hgoal : Goal offset len true (offset + len) :=
    ⟨by omega, by omega, by omega, by omega, by omega⟩
  rw [copyLoop_iff_scans hgoal hsmall fuel s hw hsp hcount (by omega) hlen hfuel]
  exact scansFrom_iff_spellsFrom hw (by omega)

end Copy

end Server
