import Hoco.HocotextAccess
import Hoco.HocotextOutcome

/-!
# What an extraction touches

`hocotext_hoco_extract` has no pointer to the end of the datum. A turn of its copying
loop ends with reading the next mark, and so does the last turn, when all the bytes are
there. The byte it takes for a mark is one of the datum as long as a token follows, or
some bytes of a literal that is cut short. Otherwise it is the byte behind the datum.

A scan stays inside a datum exactly when it returns with the datum
being all that is mapped (`Walk.inside_scan_iff`): there it has to fault where it would
leave the datum otherwise. When the scan of a datum returns is a question about the bytes
that it copies, and `Spells` has the answer.

`RleDatum.StaysInside` is what is asked of the three functions together, and
`RleDatum.staysInside_iff` says when they do it. The comparisons always do.
-/

open Rle

namespace Server

namespace Walk

open Traced

/-! ## Nothing before the payload is read -/

section Behind

variable {inside : Side → ℕ → Prop} {lo : ℕ} (hin : ∀ i, lo ≤ i → inside .left i) {source : Mem}

include hin

theorem touches_repeatByte {sp : ℕ} (hsp : lo ≤ sp) (count : ℕ) :
    Touches (Admits inside) (repeatByte source sp count) fun _ => True := by
  induction count with
  | zero => exact touches_pure.mpr True.intro
  | succ count ih =>
    rw [repeatByte, touches_bind, touches_load]
    exact ⟨hin sp hsp, fun b _ => ih.bind fun _ _ => touches_pure.mpr True.intro⟩

theorem touches_readChunk {repeated : Bool} {count sp : ℕ} (hsp : lo ≤ sp) :
    Touches (Admits inside) (readChunk source repeated count sp) fun r => lo ≤ r.2 := by
  cases repeated with
  | true =>
    rw [readChunk, if_pos rfl]
    exact (touches_repeatByte hin hsp count).bind fun _ _ =>
      touches_pure.mpr (Nat.le_add_right_of_le hsp)
  | false =>
    rw [readChunk, if_neg Bool.false_ne_true, touches_bind, touches_copy]
    exact ⟨fun _ _ => hin _ (Nat.le_add_right_of_le hsp),
      fun _ _ => touches_pure.mpr (Nat.le_add_right_of_le hsp)⟩

theorem touches_currentToken {s : ExtractState} (hsp : lo ≤ s.sp) :
    Touches (Admits inside) (currentToken source s) fun _ => True := by
  unfold currentToken
  split
  · rw [touches_bind, touches_loadMark]
    exact ⟨hin _ hsp, fun _ _ => touches_pure.mpr True.intro⟩
  · exact touches_pure.mpr True.intro

theorem touches_locateLoop (offset : ℤ) (fuel : ℕ) {s : ExtractState} (hsp : lo ≤ s.sp) :
    Touches (Admits inside) (locateLoop source offset fuel s) fun s' => lo ≤ s'.sp := by
  induction fuel generalizing s with
  | zero => exact touches_lift.mpr fun _ h => by cases h
  | succ fuel ih =>
    rw [locateLoop]
    split
    · rw [touches_bind, touches_loadMark]
      exact ⟨hin _ hsp, fun mark _ => ih (Nat.le_add_right_of_le hsp)⟩
    · exact touches_pure.mpr hsp

theorem touches_copyLoop (offset len : ℤ) (rawsize fuel : ℕ) {s : ExtractState}
    (hsp : lo ≤ s.sp) :
    Touches (Admits inside) (copyLoop source offset len rawsize fuel s) fun _ => True := by
  induction fuel generalizing s with
  | zero => exact touches_lift.mpr fun _ h => by cases h
  | succ fuel ih =>
    rw [copyLoop]
    split
    · refine (touches_currentToken hin hsp).bind ?_
      rintro ⟨repeated, count⟩ -
      refine (touches_readChunk hin hsp).bind ?_
      rintro ⟨bytes, sp⟩ hle
      rw [touches_bind, touches_loadMark]
      exact ⟨hin sp hle, fun mark _ => ih (Nat.le_add_right_of_le hle)⟩
    · exact touches_pure.mpr True.intro

end Behind

theorem touches_scan {inside : Side → ℕ → Prop}
    (hin : ∀ i, varhdrszCompressed ≤ i → inside .left i) (source : Mem) (offset len : ℤ)
    (rawsize fuel : ℕ) :
    Touches (Admits inside) (scan source offset len rawsize fuel) fun _ => True :=
  (touches_locateLoop hin offset fuel (Nat.le_refl varhdrszCompressed)).bind fun _ hsp =>
    touches_copyLoop hin offset len rawsize fuel hsp

/-! ## The scan of a datum and of the memory behind it -/

/-- An access before a position. -/
def Before (size : ℕ) : Access → Prop := Admits fun _ i => i < size

section Ends

variable (d rest : Mem)

/-- A byte is read, and put down as some access to it. -/
theorem confines_touch_load {a : Access} {i : ℕ} (ha : Before d.length a ↔ i < d.length) :
    Confines (Before d.length) (touch [a] >>= fun _ => lift ((d ++ rest).load i) : Walk UInt8)
      (touch [a] >>= fun _ => lift (Mem.load d i)) := by
  refine confines_touch_lift (fun h => ?_) (Mem.exists_load_iff.trans ?_)
  · exact Mem.load_append_of_lt (ha.mp (h _ (List.mem_singleton_self _))) rest
  · rw [List.forall_mem_singleton, ha]

theorem confines_load (side : Side) (i : ℕ) :
    Confines (Before d.length) (load side (d ++ rest) i) (load side d i) :=
  confines_touch_load d rest Iff.rfl

theorem confines_loadMark (side : Side) (i : ℕ) :
    Confines (Before d.length) (loadMark side (d ++ rest) i) (loadMark side d i) :=
  confines_touch_load d rest Iff.rfl

theorem confines_copy (side : Side) (i k : ℕ) :
    Confines (Before d.length) (copy side (d ++ rest) i k) (copy side d i k) := by
  have hbytes : (∀ a ∈ (List.range k).map fun j => Access.byte side (i + j), Before d.length a)
      ↔ ∀ j < k, i + j < d.length := by
    rw [List.forall_mem_map]
    exact forall_congr' fun _ => imp_congr List.mem_range Iff.rfl
  refine confines_touch_lift (fun h => ?_) (Mem.exists_copy_iff.trans hbytes.symm)
  exact Mem.copy_append_of_lt (hbytes.mp h) rest

theorem confines_repeatByte (sp count : ℕ) :
    Confines (Before d.length) (repeatByte (d ++ rest) sp count) (repeatByte d sp count) := by
  induction count with
  | zero => exact confines_pure _
  | succ count ih =>
    exact (confines_load d rest .left sp).bind fun b _ => ih.bind fun _ _ => confines_pure _

theorem confines_readChunk (repeated : Bool) (count sp : ℕ) :
    Confines (Before d.length) (readChunk (d ++ rest) repeated count sp)
      (readChunk d repeated count sp) := by
  cases repeated with
  | true => exact (confines_repeatByte d rest sp count).bind fun _ _ => confines_pure _
  | false => exact (confines_copy d rest .left sp count).bind fun _ _ => confines_pure _

theorem confines_currentToken (s : ExtractState) :
    Confines (Before d.length) (currentToken (d ++ rest) s) (currentToken d s) := by
  unfold currentToken
  split
  · exact (confines_loadMark d rest .left s.sp).bind fun _ _ => confines_pure _
  · exact confines_pure _

/-- **The walk to the offset**: it reads a mark further on in every turn, so that on the
datum alone it ends by itself or in a fault, with fuel left. -/
theorem confines_locateLoop (offset : ℤ) {fuel : ℕ} {s : ExtractState}
    (hfuel : d.length ≤ s.sp + fuel) :
    Confines (Before d.length) (locateLoop (d ++ rest) offset (fuel + 1) s)
      (locateLoop d offset (fuel + 1) s) := by
  induction fuel generalizing s with
  | zero =>
    rw [locateLoop, locateLoop]
    split
    · refine (confines_loadMark d rest .left s.sp).bind fun mark hmark => ?_
      have hlt := Mem.exists_load_iff.mp ⟨mark, hmark⟩
      omega
    · exact confines_pure _
  | succ fuel ih =>
    rw [locateLoop, locateLoop]
    split
    · refine (confines_loadMark d rest .left s.sp).bind fun mark _ => ih ?_
      dsimp only
      split_ifs <;> omega
    · exact confines_pure _

/-- **The copying loop**, of which the same is true. -/
theorem confines_copyLoop (offset len : ℤ) (rawsize : ℕ) {fuel : ℕ} {s : ExtractState}
    (hfuel : d.length ≤ s.sp + fuel) :
    Confines (Before d.length) (copyLoop (d ++ rest) offset len rawsize (fuel + 1) s)
      (copyLoop d offset len rawsize (fuel + 1) s) := by
  -- the turn, up to the mark that is read in the end
  have hturn : ∀ {fuel : ℕ} {s : ExtractState},
      (∀ s' : ExtractState, s.sp < s'.sp → s'.sp ≤ d.length →
        Confines (Before d.length) (copyLoop (d ++ rest) offset len rawsize fuel s')
          (copyLoop d offset len rawsize fuel s')) →
      Confines (Before d.length) (copyLoop (d ++ rest) offset len rawsize (fuel + 1) s)
        (copyLoop d offset len rawsize (fuel + 1) s) := by
    intro fuel s hnext
    rw [copyLoop, copyLoop]
    split
    · refine (confines_currentToken d rest s).bind ?_
      rintro ⟨repeated, count⟩ -
      refine (confines_readChunk d rest repeated _ s.sp).bind ?_
      rintro ⟨bytes, sp⟩ hread
      refine (confines_loadMark d rest .left sp).bind fun mark hmark => ?_
      have hle := readChunk_le hread
      have hlt := Mem.exists_load_iff.mp ⟨mark, hmark⟩
      exact hnext _ (show s.sp < sp + 1 by omega) (show sp + 1 ≤ d.length by omega)
    · exact confines_pure _
  induction fuel generalizing s with
  | zero => exact hturn fun s' hlt hle => by omega
  | succ fuel ih => exact hturn fun s' hlt _ => ih (by omega)

/-- **A scan stays inside the datum exactly when it returns on the datum alone.** -/
theorem inside_scan_iff (offset len : ℤ) (rawsize : ℕ) {fuel : ℕ} (hfuel : d.length ≤ fuel) :
    (∀ a ∈ (scan (d ++ rest) offset len rawsize (fuel + 1)).trace, Inside .left d.length a)
      ↔ ∃ s, (scan d offset len rawsize (fuel + 1)).result = .ok s := by
  have hconfines : Confines (Before d.length) (scan (d ++ rest) offset len rawsize (fuel + 1))
      (scan d offset len rawsize (fuel + 1)) :=
    (confines_locateLoop d rest offset (Nat.le_add_left_of_le hfuel)).bind fun _ _ =>
      confines_copyLoop d rest offset len rawsize (Nat.le_add_left_of_le hfuel)
  rw [← hconfines.trace_iff]
  have hbehind : Touches (Admits fun side i => side = .left ∧ varhdrszCompressed ≤ i)
      (scan (d ++ rest) offset len rawsize (fuel + 1)) fun _ => True :=
    touches_scan (fun i hi => ⟨rfl, hi⟩) (d ++ rest) offset len rawsize (fuel + 1)
  refine forall₂_congr fun a ha => ?_
  have hok := hbehind.1 a ha
  cases a with
  | byte side i | mark side i => exact ⟨fun h => (h hok.1).2, fun h _ => ⟨hok.2, h⟩⟩
  | window side i => rfl

end Ends

variable {sv}

/-- **`hocotext_hoco_extract` leaves the datum exactly when its scan does**, once the
checks of the arguments are passed. -/
theorem inside_hocotextHocoExtract_iff {d rest : Mem} {rawsize len : ℕ}
    (hext : sv.vardataCompressedGetExtsize (d ++ rest) = .ok rawsize) (fresh : Block)
    (offset : ℤ) (collid : Oid) :
    (∀ a ∈ (hocotextHocoExtract sv fresh (d ++ rest) offset len collid).trace,
        Inside .left d.length a)
      ↔ (palloc (int32 (len + 14)) = .ok () → checkCollation collid = .ok () →
        ∃ s, (scan d offset len rawsize ((d ++ rest).length + 1)).result = .ok s) := by
  have hfuel : d.length ≤ (d ++ rest).length := by
    rw [List.length_append]
    omega
  rw [← inside_scan_iff d rest offset len rawsize hfuel, ← touches_true, ← touches_true,
    hocotextHocoExtract, hocoBytes]
  simp only [touches_bind, touches_lift, touches_pure, hext, Except.ok.injEq, forall_eq',
    if_neg (show ¬ (len : ℤ) < 0 by omega)]
  have hend : ∀ s : ExtractState, Touches (Inside .left d.length)
      (if (s.out.length : ℤ) ≠ len ∨ s.curOffset = rawsize then pure none
        else pure (some s.out) : Walk (Option (List UInt8))) fun _ => True := by
    intro s
    split <;> exact touches_pure.mpr True.intro
  simp only [hend]
  exact ⟨fun h halloc hcol => h () halloc () hcol, fun h _ halloc _ hcol => h halloc hcol⟩

end Walk

/-! ## When the scan of a datum returns -/

/-- **The copying loop returns exactly when the memory spells some text of the length
asked for.** -/
theorem exists_copyLoop_iff {source : Mem} {rawsize offset len : ℕ} (hsmall : rawsize < 2 ^ 30)
    (hlen : 0 < len) (hle : offset + len ≤ rawsize) {fuel : ℕ} {s : ExtractState}
    (hsp : 4 < s.sp) (hcount : s.count ≤ maxRepeatedSize) (hcur : s.curOffset = offset)
    (hfuel : source.length < s.sp + fuel) :
    (∃ s', copyLoop source offset len rawsize fuel s = .ok s')
      ↔ ∃ w : List UInt8, w.length = len
        ∧ SpellsFrom s.repeated s.count (source.drop s.sp) w := by
  have hgoal : Goal offset len true (offset + len) :=
    ⟨by omega, by omega, by omega, by omega, by omega⟩
  have hiff : ∀ {w : List UInt8}, w.length = len →
      (Copies source offset len rawsize fuel s w
        ↔ SpellsFrom s.repeated s.count (source.drop s.sp) w) := by
    intro w hw
    have hne : w ≠ [] := List.length_pos_iff.mp (by omega)
    rw [copyLoop_iff_scans hgoal (by omega) fuel s hne hsp hcount (by omega) (by omega) hfuel]
    exact scansFrom_iff_spellsFrom hne (by omega)
  constructor
  · rintro ⟨s', hrun⟩
    obtain ⟨more, hout, hcur'⟩ := copyLoop_out hrun
    have hexit := copyLoop_exit hrun
    have hmost := copyLoop_le ⟨by omega, by omega⟩ (by omega) hcount hsp (by omega) (by omega) hrun
    -- the loop stops neither early nor late
    have hmore : more.length = len := by
      rw [int32_eq_self (by omega) (by omega)] at hexit
      omega
    exact ⟨more, hmore, (hiff hmore).mp ⟨s', hrun, hout, hcur'⟩⟩
  · rintro ⟨w, hw, hspells⟩
    obtain ⟨s', hrun, -⟩ := (hiff hw).mpr hspells
    exact ⟨s', hrun⟩

/-- One token further on, with `k` bytes of it passed: the text that is spelled does not
reach the end. -/
theorem spellsFrom_token_lt (t : Token) (k : ℕ) (post : List Token) {w : List UInt8}
    (hk : k ≤ t.expand.length)
    (hspells : SpellsFrom (isRunToken t) (t.expand.length - k) (dataFrom t k ++ encode post) w)
    (hle : k + w.length ≤ t.expand.length + (expand post).length)
    (hpost : ∀ w' : List UInt8, Spells (encode post) w' → w'.length ≤ (expand post).length →
      w'.length < (expand post).length) :
    k + w.length < t.expand.length + (expand post).length := by
  obtain ⟨m', chunk, hspells⟩ := hspells
  obtain ⟨-, rfl⟩ := (chunk_token_iff t k w _ m').mp chunk
  rcases Nat.lt_or_ge (k + w.length) t.expand.length with hshort | hlong
  · omega
  · have hdata : dataBehind t (k + w.length) = [] := by
      cases t with
      | lit bs fits => exact List.drop_eq_nil_of_le hlong
      | run b c => rfl
    rw [hdata, List.nil_append] at hspells
    have hlt := hpost _ hspells (by rw [List.length_drop]; omega)
    rw [List.length_drop] at hlt
    omega

/-- **A payload alone does not spell the whole of its text**: there is no byte to read
behind it. -/
theorem spells_encode_lt {ts : List Token} (hne : AllNonempty ts) {w : List UInt8}
    (hspells : Spells (encode ts) w) (hle : w.length ≤ (expand ts).length) :
    w.length < (expand ts).length := by
  induction ts generalizing w with
  | nil =>
    obtain ⟨mark, m, hm⟩ := hspells.exists_cons
    cases hm
  | cons t ts ih =>
    obtain ⟨ht, hts⟩ := (allNonempty_cons t ts).mp hne
    rw [expand_cons, List.length_append] at hle ⊢
    by_cases hw : w = []
    · have hpos : 0 < t.expand.length := List.length_pos_iff.mpr ht
      rw [hw, List.length_nil]
      omega
    · rw [encode_cons, encode_eq_mark_cons, List.cons_append, spells_cons_iff hw,
        markIsRun_tokenMark, markCount_tokenMark] at hspells
      have hlt := spellsFrom_token_lt t 0 ts (Nat.zero_le _) hspells (by omega)
        fun w' hspells' hle' => ih hts hspells' hle'
      omega

end Server

namespace RlePayload

section Scan

variable {sv : Server} {x : RlePayload} {offset len fuel : ℕ}
  (hfuel : (x.datum sv).length < fuel)

include hfuel

/-- Nothing is read ahead where nothing is copied. -/
theorem exists_scan_of_len_zero (hle : offset ≤ x.text.length) :
    ∃ s, (Server.Walk.scan (x.datum sv) offset (0 : ℕ) x.text.length fuel).result = .ok s := by
  have htokens := x.tokens_length_lt sv []
  rw [List.append_nil] at htokens
  obtain ⟨s, hloc, hcur, -⟩ := x.exists_locateLoop_eq sv [] hle
    (show x.tokens.length < fuel by omega)
  obtain ⟨fuel, rfl⟩ : ∃ f, fuel = f + 1 := ⟨fuel - 1, by omega⟩
  rw [List.append_nil] at hloc
  have hhere : int32 ((s.curOffset : ℤ) - offset) = 0 := by
    rw [hcur, Int.sub_self]
    rfl
  rw [Server.result_scan, hloc, Run.ok_bind]
  exact ⟨s, Server.copyLoop_stop (by omega)⟩

/-- **At the start of the text** the scan returns when the payload, read from its second
byte on, spells something. -/
theorem exists_scan_zero_iff (hlen : 0 < len) (hle : len ≤ x.text.length) :
    (∃ s, (Server.Walk.scan (x.datum sv) (0 : ℕ) len x.text.length fuel).result = .ok s)
      ↔ ∃ w : List UInt8, w.length = len ∧ Server.Spells ((encode x.tokens).drop 1) w := by
  have hraw : x.text.length < 2 ^ 30 := x.raw
  have hdrop := x.drop_datum sv []
  rw [List.append_nil, List.append_nil] at hdrop
  obtain ⟨fuel, rfl⟩ : ∃ f, fuel = f + 1 := ⟨fuel - 1, by omega⟩
  have hiff := @Server.exists_copyLoop_iff (x.datum sv) x.text.length 0 len hraw hlen (by omega)
    (fuel + 1) start (by decide) (by decide) rfl (by omega)
  rw [Server.result_scan, Server.locateLoop_stop (Nat.zero_le _), Run.ok_bind, hiff, hdrop]
  exact exists_congr fun w => and_congr_right fun _ => Server.spellsFrom_zero_iff

/-- **Behind the start of the text** it returns when the window ends before the text does,
and not in a run that is the last token. -/
theorem exists_scan_pos_iff (hne : AllNonempty x.tokens) (hpos : 0 < offset) (hlen : 0 < len)
    (hle : offset + len ≤ x.text.length) :
    (∃ s, (Server.Walk.scan (x.datum sv) offset len x.text.length fuel).result = .ok s)
      ↔ offset + len < x.text.length
        ∧ Server.endsInLastRun x.tokens (offset + len) = false := by
  have hraw : x.text.length < 2 ^ 30 := x.raw
  have htokens := x.tokens_length_lt sv []
  rw [List.append_nil] at htokens
  obtain ⟨s, pre, t, post, k, hloc, hsplit, hoff, hcur, hout, hsp, hinside⟩ :=
    x.exists_located sv [] hpos (show offset ≤ x.text.length by omega)
      (show x.tokens.length < fuel by omega)
  rw [List.append_nil] at hloc hinside
  have hk := hinside.within
  have htotal := text_length_of_located hsplit hoff hk
  have hpost : AllNonempty post := by
    rw [hsplit] at hne
    exact fun u hu => hne u (List.mem_append_right _ (List.mem_cons_of_mem _ hu))
  rw [Server.result_scan, hloc, Run.ok_bind, Server.exists_copyLoop_iff hraw hlen hle
    (Nat.lt_trans (by decide) hsp) hinside.count_le hcur (by omega)]
  constructor
  · rintro ⟨w, hw, hspells⟩
    have hfrom := hspells
    rw [hinside.repeated, hinside.count, hinside.mapped, List.append_nil] at hfrom
    have hlt := Server.spellsFrom_token_lt t k post hk hfrom (by omega)
      fun w' h h' => Server.spells_encode_lt hpost h h'
    rw [spellsFrom_located_iff hsplit hoff hinside (List.length_pos_iff.mp (by omega)) (by omega),
      hw] at hspells
    exact ⟨by omega, hspells.2.resolve_left fun h => h rfl⟩
  · rintro ⟨hlt, hlast⟩
    have hw : ((x.text.drop offset).take len).length = len := by
      rw [List.length_take, List.length_drop]
      omega
    refine ⟨_, hw, ?_⟩
    rw [spellsFrom_located_iff hsplit hoff hinside (List.length_pos_iff.mp (by omega)) (by omega),
      hw]
    exact ⟨List.take_prefix _ _, Or.inr hlast⟩

/-- **When the scan of a datum returns**, for a window of the text. -/
theorem exists_scan_iff (hne : AllNonempty x.tokens) (hle : offset + len ≤ x.text.length) :
    (∃ s, (Server.Walk.scan (x.datum sv) offset len x.text.length fuel).result = .ok s)
      ↔ len = 0
        ∨ (0 < offset ∧ offset + len < x.text.length
          ∧ Server.endsInLastRun x.tokens (offset + len) = false)
        ∨ (offset = 0 ∧ ∃ w : List UInt8, w.length = len
          ∧ Server.Spells ((encode x.tokens).drop 1) w) := by
  rcases Nat.eq_zero_or_pos len with rfl | hlen
  · exact iff_of_true (exists_scan_of_len_zero hfuel hle) (Or.inl rfl)
  · rw [or_iff_right (Nat.ne_of_gt hlen)]
    rcases Nat.eq_zero_or_pos offset with rfl | hpos
    · rw [exists_scan_zero_iff hfuel hlen (by omega), or_iff_right fun h => Nat.lt_irrefl 0 h.1]
      exact (and_iff_right rfl).symm
    · rw [exists_scan_pos_iff hfuel hne hpos hlen hle,
        or_iff_left fun h => Nat.ne_of_gt hpos h.1]
      exact (and_iff_right hpos).symm

end Scan

end RlePayload

/-! ## The functions that walk over tokens -/

namespace RleDatum

variable (sv : Server) (x : RleDatum) (rest : Mem)

theorem datum_length :
    (x.datum sv).length = Server.varhdrszCompressed + (encode x.tokens).length :=
  sv.compressedDatum_length _ _ _

/-- **The token walkers stay inside the payload**: with a datum as either operand the
comparisons, and with it as the source the extraction, read of its bytes only those
between the header and the end, and do not leave the windows. The other operand of
`hocotext_hoco_cmp` can be any memory, and that of `hocotext_mixed_cmp` too, except that
it is not compressed when it is the left one. -/
structure StaysInside (offset len : ℕ) (collid : Oid) : Prop where
  hocoCmp_left (curLef curRigh : Block) (other : Mem) :
    ∀ a ∈ (Server.Walk.hocotextHocoCmp sv curLef curRigh (x.datum sv ++ rest) other
      collid).trace, Server.Walk.Inside .left (x.datum sv).length a
  hocoCmp_right (curLef curRigh : Block) (other : Mem) :
    ∀ a ∈ (Server.Walk.hocotextHocoCmp sv curLef curRigh other (x.datum sv ++ rest)
      collid).trace, Server.Walk.Inside .right (x.datum sv).length a
  mixedCmp_left (cur : Block) (other : Mem) :
    ∀ a ∈ (Server.Walk.hocotextMixedCmp sv cur (x.datum sv ++ rest) other collid).trace,
      Server.Walk.Inside .left (x.datum sv).length a
  mixedCmp_right (cur : Block) (other : Mem) (hother : sv.varattIsCompressed other ≠ .ok true) :
    ∀ a ∈ (Server.Walk.hocotextMixedCmp sv cur other (x.datum sv ++ rest) collid).trace,
      Server.Walk.Inside .right (x.datum sv).length a
  hocoExtract (fresh : Block) :
    ∀ a ∈ (Server.Walk.hocotextHocoExtract sv fresh (x.datum sv ++ rest) offset len
      collid).trace, Server.Walk.Inside .left (x.datum sv).length a

/-- With the comparisons there is nothing to ask for. -/
theorem staysInside_iff_hocoExtract (offset len : ℕ) (collid : Oid) :
    x.StaysInside sv rest offset len collid
      ↔ ∀ fresh : Block, ∀ a ∈ (Server.Walk.hocotextHocoExtract sv fresh (x.datum sv ++ rest)
          offset len collid).trace, Server.Walk.Inside .left (x.datum sv).length a := by
  have hpayload : sv.HasPayload (x.datum sv ++ rest) x.tokens :=
    sv.hasPayload_compressedDatum x.nonempty x.fits _ _ rest
  refine ⟨fun h => h.hocoExtract, fun h => ⟨?_, ?_, ?_, ?_, h⟩⟩
  all_goals rw [x.datum_length sv]
  · exact fun curLef curRigh other =>
      Server.Walk.inside_hocotextHocoCmp_left hpayload other collid curLef curRigh
  · exact fun curLef curRigh other =>
      Server.Walk.inside_hocotextHocoCmp_right hpayload other collid curLef curRigh
  · exact fun cur other => Server.Walk.inside_hocotextMixedCmp_left hpayload other collid cur
  · exact fun cur other hother =>
      Server.Walk.inside_hocotextMixedCmp_right hpayload other collid hother cur

/-- **When the token walkers stay inside the payload.** The comparisons do in any case.
The extraction does when it does not come to its scan, when it has nothing to copy, when
the window is neither at the start nor reaches the end of the text and does not end in a
run that is the last token, or when it is at the start and the payload, read from its
second byte on, happens to spell a text of the length. -/
theorem staysInside_iff (offset len : ℕ) (collid : Oid) (hle : offset + len ≤ x.text.length) :
    x.StaysInside sv rest offset len collid
      ↔ collid = 0 ∨ maxAllocSize < len + 14 ∨ len = 0
        ∨ (0 < offset ∧ offset + len < x.text.length
          ∧ Server.endsInLastRun x.tokens (offset + len) = false)
        ∨ (offset = 0 ∧ ∃ w : List UInt8, w.length = len
          ∧ Server.Spells ((encode x.tokens).drop 1) w) := by
  have hraw : x.text.length < 2 ^ 30 := x.raw
  have hfuel : (x.toPayload.datum sv).length < (x.datum sv ++ rest).length + 1 := by
    rw [List.length_append]
    exact Nat.lt_succ_of_le (Nat.le_add_right _ _)
  have hinside := fun fresh : Block => @Server.Walk.inside_hocotextHocoExtract_iff sv
    (x.toPayload.datum sv) rest x.text.length len (x.toPayload.extsize sv rest) fresh offset collid
  rw [staysInside_iff_hocoExtract]
  refine (forall_congr' hinside).trans ?_
  rw [forall_const]
  by_cases hcol : collid = 0
  · rw [hcol]
    exact iff_of_true (fun _ h => by cases h) (Or.inl rfl)
  · rcases Server.palloc_result (show len < 2 ^ 31 by omega) with
      ⟨hsmall, halloc⟩ | ⟨hlarge, report, halloc⟩
    · rw [halloc, Server.checkCollation_eq hcol, forall_prop_of_true rfl, forall_prop_of_true rfl,
        or_iff_right hcol, or_iff_right (Nat.not_lt.mpr hsmall)]
      exact RlePayload.exists_scan_iff hfuel x.nonempty hle
    · rw [halloc]
      exact iff_of_true (fun h => by cases h) (Or.inr (Or.inl (Nat.not_le.mp hlarge)))

/-- In the middle of a literal there is always a byte ahead. -/
theorem staysInside_literal :
    1 + 2 ≤ (text ⟨[.lit [97, 98, 99, 100] (by decide)], by decide, by decide, by decide⟩).length
    ∧ StaysInside .littleEndian
        ⟨[.lit [97, 98, 99, 100] (by decide)], by decide, by decide, by decide⟩ [] 1 2 100 :=
  ⟨by decide, (staysInside_iff _ _ _ 1 2 100 (by decide)).mpr
    (Or.inr (Or.inr (Or.inr (Or.inl ⟨by decide, by decide, by decide⟩))))⟩

/-- **The byte behind the datum is read.** The datum is a literal of two bytes, and the
second is extracted. -/
theorem not_forall_staysInside :
    ¬ ∀ (sv : Server) (x : RleDatum) (rest : Mem) (offset len : ℕ) (collid : Oid),
      offset + len ≤ x.text.length → x.StaysInside sv rest offset len collid := by
  intro h
  have hinside := (h .littleEndian ⟨[.lit [97, 98] (by decide)], by decide, by decide, by decide⟩
    [0] 1 1 100 (by decide)).hocoExtract (fun _ => 0)
  have htrace : (Server.Walk.hocotextHocoExtract .littleEndian (fun _ => 0)
      (datum .littleEndian ⟨[.lit [97, 98] (by decide)], by decide, by decide, by decide⟩ ++ [0])
      (1 : ℕ) (1 : ℕ) 100).trace = [.mark .left 8, .byte .left 10, .mark .left 11] := by
    decide +kernel
  rw [htrace] at hinside
  have hbehind := (hinside (.mark .left 11) (by decide) rfl).2
  exact absurd hbehind (by decide)

end RleDatum
