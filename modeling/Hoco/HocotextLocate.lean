import Hoco.HocotextScan

/-!
# The scan of a payload

What the two loops find when the memory is a payload of tokens, with other bytes behind it.
A payload spells every beginning of its text, provided there is a byte to read behind it, and
only a run that is the last token has none. The walk to the offset goes from mark to mark,
and stops inside the token that has the offset.
-/

open Rle TextOrder

namespace Server

variable (sv : Server)

/-! ## Tokens

A payload of tokens spells every beginning of its text, provided there is a
byte to read behind it. Only a run that is the last token has none: after a
literal that is cut short the loop reads one of the bytes left in it. -/

/-- A run token. -/
def isRunToken : Token → Bool
  | .lit _ _ => false
  | .run _ _ => true

/-- The data of a token, once `k` bytes of its text are passed. -/
def dataFrom : Token → ℕ → Mem
  | .lit bs _, k => bs.drop k
  | .run b _, _ => [b]

/-- The mark of a token. -/
def tokenMark : Token → UInt8
  | .lit bs _ => UInt8.ofNat bs.length
  | .run _ k => UInt8.ofNat (128 + k)

theorem encode_eq_mark_cons (t : Token) : t.encode = tokenMark t :: dataFrom t 0 := by
  cases t <;> rfl

theorem markIsRun_tokenMark (t : Token) : markIsRun (tokenMark t) = isRunToken t := by
  cases t with
  | lit bs fits =>
    simp only [markIsRun, tokenMark, lit_mark_toNat fits, isRunToken, decide_eq_false_iff_not]
    simp only [maxSingleStoreSize] at fits
    omega
  | run b k =>
    simp only [markIsRun, tokenMark, run_mark_toNat, isRunToken, decide_eq_true_eq]
    omega

theorem markCount_tokenMark (t : Token) : markCount (tokenMark t) = t.expand.length := by
  rw [markCount, markIsRun_tokenMark]
  cases t with
  | lit bs fits =>
    have hand : (UInt8.ofNat bs.length &&& 0x7F).toNat = bs.length := by
      rw [UInt8.toNat_and, lit_mark_toNat fits, show (0x7F : UInt8).toNat = 2 ^ 7 - 1 from rfl,
        Nat.and_two_pow_sub_one_eq_mod]
      simp only [maxSingleStoreSize] at fits
      omega
    exact hand
  | run b k =>
    rw [isRunToken, if_pos rfl, tokenMark, run_mark_and, Token.expand, List.length_replicate]

/-- **The window ends in the last token, and that is a run**: `n` bytes of the
text of the tokens reach behind the start of the last one. -/
def endsInLastRun : List Token → ℕ → Bool
  | [], _ => false
  | [t], n => isRunToken t && decide (0 < n)
  | t :: u :: ts, n => endsInLastRun (u :: ts) (n - t.expand.length)

theorem endsInLastRun_zero (ts : List Token) : endsInLastRun ts 0 = false := by
  induction ts with
  | nil => rfl
  | cons t ts ih =>
    cases ts with
    | nil => simp [endsInLastRun]
    | cons u ts => rw [endsInLastRun, Nat.zero_sub, ih]

theorem endsInLastRun_append (pre : List Token) (t : Token) (post : List Token) (n : ℕ) :
    endsInLastRun (pre ++ t :: post) ((expand pre).length + n)
      = endsInLastRun (t :: post) n := by
  induction pre with
  | nil => rw [List.nil_append, expand_nil, List.length_nil, Nat.zero_add]
  | cons u pre ih =>
    rw [← ih, expand_cons, List.length_append, Nat.add_assoc]
    cases pre with
    | nil => exact congrArg (endsInLastRun (t :: post)) (Nat.add_sub_cancel_left _ _)
    | cons v pre =>
      exact congrArg (endsInLastRun (v :: pre ++ t :: post)) (Nat.add_sub_cancel_left _ _)

/-- The data of a token that is left behind `k` bytes of its text, where the
loop stands once it has copied them. -/
def dataBehind : Token → ℕ → Mem
  | .lit bs _, k => bs.drop k
  | .run _ _, _ => []

theorem spells_nil_iff {m : Mem} : Spells m [] ↔ m ≠ [] := by
  constructor
  · intro h
    obtain ⟨mark, m', rfl⟩ := h.exists_cons
    exact List.cons_ne_nil mark m'
  · intro h
    obtain ⟨mark, m', rfl⟩ := List.exists_cons_of_ne_nil h
    exact Spells.done mark m'

/-- **The data of a token is a chunk of the texts it begins**, and of no
others. -/
theorem chunk_token_iff (t : Token) (k : ℕ) (w : List UInt8) (M m' : Mem) :
    Chunk (isRunToken t) (t.expand.length - k) w (dataFrom t k ++ M) m'
      ↔ w.take (t.expand.length - k) = (t.expand.drop k).take w.length
        ∧ m' = dataBehind t (k + w.length) ++ M := by
  unfold Chunk
  cases t with
  | lit bs fits =>
    rw [isRunToken, if_neg Bool.false_ne_true]
    show bs.drop k ++ M = w.take (bs.length - k) ++ m'
      ↔ w.take (bs.length - k) = (bs.drop k).take w.length ∧ m' = bs.drop (k + w.length) ++ M
    have hsplit : bs.drop k ++ M
        = (bs.drop k).take w.length ++ (bs.drop (k + w.length) ++ M) := by
      rw [← List.append_assoc, ← List.drop_drop, List.take_append_drop]
    rw [hsplit]
    constructor
    · intro h
      obtain ⟨h₁, h₂⟩ := List.append_inj h (by
        simp only [List.length_take, List.length_drop]
        omega)
      exact ⟨h₁.symm, h₂.symm⟩
    · rintro ⟨h₁, rfl⟩
      rw [h₁]
  | run b c =>
    have hrep : ((Token.run b c).expand.drop k).take w.length
        = List.replicate (min ((Token.run b c).expand.length - k) w.length) b := by
      simp only [Token.expand, List.drop_replicate, List.take_replicate, List.length_replicate]
      rw [Nat.min_comm]
    rw [isRunToken, if_pos rfl, hrep]
    show (∃ b', b :: M = b' :: m' ∧ _) ↔ _ ∧ m' = M
    constructor
    · rintro ⟨b', hm, hbytes⟩
      obtain ⟨rfl, rfl⟩ := List.cons.inj hm
      exact ⟨hbytes, rfl⟩
    · rintro ⟨hbytes, rfl⟩
      exact ⟨b, rfl, hbytes⟩

/-- A list at least as long as `d` that begins `d ++ e` is `d` and a beginning
of `e`. -/
theorem prefix_append_iff {w d e : List UInt8} (hle : d.length ≤ w.length) :
    w <+: d ++ e ↔ w.take d.length = d ∧ w.drop d.length <+: e := by
  constructor
  · rintro ⟨z, hz⟩
    have htake := congrArg (List.take d.length) hz
    have hdrop := congrArg (List.drop d.length) hz
    rw [List.take_append_of_le_length hle, List.take_left] at htake
    rw [List.drop_append_of_le_length hle, List.drop_left] at hdrop
    exact ⟨htake, z, hdrop⟩
  · rintro ⟨htake, z, hz⟩
    refine ⟨z, ?_⟩
    rw [← hz, ← List.append_assoc]
    conv_rhs => rw [← htake, List.length_take, Nat.min_eq_left hle, List.take_append_drop]

/-- One token further on, with `k` bytes of it passed. -/
theorem spellsFrom_token_iff (t : Token) (k : ℕ) (post : List Token) (rest : Mem)
    {w : List UInt8} (hw : w ≠ []) (hk : k ≤ t.expand.length)
    (hlt : k + w.length < t.expand.length + (expand post).length)
    (hpost : ∀ w' : List UInt8, w'.length < (expand post).length →
      (Spells (encode post ++ rest) w'
        ↔ w' <+: expand post ∧ (rest ≠ [] ∨ endsInLastRun post w'.length = false))) :
    SpellsFrom (isRunToken t) (t.expand.length - k) (dataFrom t k ++ (encode post ++ rest)) w
      ↔ w <+: t.expand.drop k ++ expand post
        ∧ (rest ≠ [] ∨ endsInLastRun (t :: post) (k + w.length) = false) := by
  have hpos : 0 < w.length := List.length_pos_iff.mpr hw
  have hd : (t.expand.drop k).length = t.expand.length - k := List.length_drop
  have hiff : SpellsFrom (isRunToken t) (t.expand.length - k)
      (dataFrom t k ++ (encode post ++ rest)) w
      ↔ w.take (t.expand.length - k) = (t.expand.drop k).take w.length
        ∧ Spells (dataBehind t (k + w.length) ++ (encode post ++ rest))
            (w.drop (t.expand.length - k)) := by
    constructor
    · rintro ⟨m', chunk, hspells⟩
      obtain ⟨htake, rfl⟩ := (chunk_token_iff t k w _ m').mp chunk
      exact ⟨htake, hspells⟩
    · rintro ⟨htake, hspells⟩
      exact ⟨_, (chunk_token_iff t k w _ _).mpr ⟨htake, rfl⟩, hspells⟩
  rw [hiff]
  rcases Nat.lt_or_ge t.expand.length (k + w.length) with hlong | hshort
  · -- the window goes on behind the token
    have hdata : dataBehind t (k + w.length) = [] := by
      cases t with
      | lit bs fits => exact List.drop_eq_nil_of_le (Nat.le_of_lt hlong)
      | run b c => rfl
    have hlen : (w.drop (t.expand.length - k)).length = k + w.length - t.expand.length := by
      rw [List.length_drop]
      omega
    have hends : endsInLastRun (t :: post) (k + w.length)
        = endsInLastRun post (k + w.length - t.expand.length) := by
      cases post with
      | nil => simp at hlt; omega
      | cons u us => rfl
    have hprefix : w <+: t.expand.drop k ++ expand post
        ↔ w.take (t.expand.length - k) = t.expand.drop k
          ∧ w.drop (t.expand.length - k) <+: expand post := by
      rw [← hd]
      exact prefix_append_iff (by omega)
    rw [hdata, List.nil_append, hpost _ (by omega), hlen, hends, hprefix,
      List.take_of_length_le (show (t.expand.drop k).length ≤ w.length by omega), and_assoc]
  · -- the window ends in the token
    have hprefix : w <+: t.expand.drop k ++ expand post
        ↔ w.take (t.expand.length - k) = (t.expand.drop k).take w.length := by
      rw [List.take_of_length_le (by omega), List.prefix_iff_eq_take,
        List.take_append_of_le_length (by omega)]
    rw [List.drop_eq_nil_of_le (show w.length ≤ t.expand.length - k by omega), spells_nil_iff,
      ← hprefix]
    refine and_congr_right fun _ => ?_
    cases post with
    | cons u us =>
      have hzero : endsInLastRun (t :: u :: us) (k + w.length) = false := by
        rw [endsInLastRun, Nat.sub_eq_zero_of_le hshort, endsInLastRun_zero]
      refine iff_of_true ?_ (Or.inr hzero)
      rw [encode_cons]
      simp [Token.encode_ne_nil]
    | nil =>
      rw [encode_nil, List.nil_append, endsInLastRun]
      cases t with
      | lit bs fits =>
        refine iff_of_true (fun hnil => ?_) (Or.inr rfl)
        have h := congrArg List.length (List.append_eq_nil_iff.mp hnil).1
        rw [dataBehind, List.length_drop, List.length_nil] at h
        simp only [Token.expand, expand_nil, List.length_nil] at hlt
        omega
      | run b c =>
        have hlast : (isRunToken (.run b c) && decide (0 < k + w.length)) = true := by
          simp only [isRunToken, Bool.true_and, decide_eq_true_eq]
          omega
        rw [hlast]
        simp [dataBehind]

/-- **A payload spells the proper beginnings of its text**, where there is a
byte to read behind them, and nothing else. -/
theorem spells_encode_iff (ts : List Token) (rest : Mem) {w : List UInt8}
    (hlt : w.length < (expand ts).length) :
    Spells (encode ts ++ rest) w
      ↔ w <+: expand ts ∧ (rest ≠ [] ∨ endsInLastRun ts w.length = false) := by
  induction ts generalizing w with
  | nil => simp at hlt
  | cons t ts ih =>
    rw [encode_cons, encode_eq_mark_cons, List.append_assoc, List.cons_append]
    by_cases hw : w = []
    · rw [hw, List.length_nil, endsInLastRun_zero]
      exact iff_of_true (Spells.done _ _) ⟨List.nil_prefix, Or.inr rfl⟩
    · rw [expand_cons] at hlt ⊢
      rw [List.length_append] at hlt
      rw [spells_cons_iff hw, markIsRun_tokenMark, markCount_tokenMark]
      have h := spellsFrom_token_iff t 0 ts rest hw (Nat.zero_le _) (by omega)
        (fun w' hlt' => ih hlt')
      rw [Nat.sub_zero, Nat.zero_add, List.drop_zero] at h
      exact h

/-! ## Walking to the offset -/

/-- The bytes a token takes in memory, by its mark. -/
def markSize (mark : UInt8) : ℕ := if markIsRun mark then 2 else markCount mark + 1

/-- **Going from mark to mark reaches `n` bytes of text**, without leaving the
memory. Only the marks are read. -/
inductive Hops : Mem → ℕ → Prop
  | reach {mark : UInt8} {m : Mem} {n : ℕ} (h : n ≤ markCount mark) : Hops (mark :: m) n
  | hop {mark : UInt8} {m : Mem} {n : ℕ} (h : markCount mark < n)
      (next : Hops ((mark :: m).drop (markSize mark)) (n - markCount mark)) : Hops (mark :: m) n

section Locate

variable {source : Mem} {offset : ℕ}

/-- The state after a turn that passed the whole token. -/
def ExtractState.hopped (s : ExtractState) (mark : UInt8) : ExtractState where
  sp := s.sp + markSize mark
  curOffset := s.curOffset + markCount mark
  count := markCount mark
  repeated := markIsRun mark
  out := s.out

/-- The state after a turn that found the offset in the token, `left` bytes
into it. -/
def ExtractState.reached (s : ExtractState) (mark : UInt8) (left : ℕ) : ExtractState where
  sp := s.sp + if markIsRun mark then 1 else left + 1
  curOffset := s.curOffset + left
  count := markCount mark - left
  repeated := markIsRun mark
  out := s.out

/-- **A turn of the walk.** -/
theorem locateLoop_succ {s : ExtractState} {left : ℕ} (hleft : 0 < left)
    (hoff : s.curOffset + left = offset) {mark : UInt8} (hmark : source.load s.sp = .ok mark)
    (fuel : ℕ) :
    locateLoop source offset (fuel + 1) s = locateLoop source offset fuel
      (if left ≤ markCount mark then s.reached mark left else s.hopped mark) := by
  have hgo : (s.curOffset : ℤ) < offset := by omega
  have htoNat : ((offset : ℤ) - s.curOffset).toNat = left := by omega
  rw [locateLoop_eq, if_pos hgo, hmark]
  simp only [Run.ok_bind, htoNat]
  by_cases hreach : left ≤ markCount mark
  · have h : (offset : ℤ) - (markCount mark + s.curOffset) ≤ 0 := by omega
    simp only [h, decide_true, ↓reduceIte, if_pos hreach]
    rfl
  · have h : ¬ (offset : ℤ) - (markCount mark + s.curOffset) ≤ 0 := by omega
    simp only [h, decide_false, Bool.false_eq_true, ↓reduceIte, if_neg hreach, Nat.sub_zero]
    rfl

theorem locateLoop_stop {s : ExtractState} (hoff : offset ≤ s.curOffset) (fuel : ℕ) :
    locateLoop source offset (fuel + 1) s = .ok s := by
  rw [locateLoop_eq, if_neg (by omega)]

/-- **The walk ends where there are marks to go by**, at the offset and with
nothing copied. -/
theorem locateLoop_of_hops {m : Mem} {left : ℕ} (hhops : Hops m left) (hleft : 0 < left)
    (fuel : ℕ) (s : ExtractState) (hm : source.drop s.sp = m) (hoff : s.curOffset + left = offset)
    (hfuel : source.length < s.sp + fuel) :
    ∃ s', locateLoop source offset fuel s = .ok s' ∧ s'.curOffset = offset ∧ s'.out = s.out := by
  have hmapped : ∀ {s : ExtractState} {mark : UInt8} {m : Mem},
      source.drop s.sp = mark :: m → s.sp < source.length := by
    intro s mark m h
    have hlen := congrArg List.length h
    rw [List.length_drop, List.length_cons] at hlen
    omega
  induction hhops generalizing fuel s with
  | @reach mark m n h =>
    have hlt := hmapped hm
    obtain ⟨fuel, rfl⟩ : ∃ f, fuel = f + 2 := ⟨fuel - 2, by omega⟩
    rw [locateLoop_succ hleft hoff (Mem.load_of_drop hm), if_pos h,
      locateLoop_stop (show offset ≤ s.curOffset + n by omega)]
    exact ⟨_, rfl, hoff, rfl⟩
  | @hop mark m n h next ih =>
    have hlt := hmapped hm
    obtain ⟨fuel, rfl⟩ : ∃ f, fuel = f + 1 := ⟨fuel - 1, by omega⟩
    have hsize : 0 < markSize mark := by
      unfold markSize
      split <;> omega
    rw [locateLoop_succ hleft hoff (Mem.load_of_drop hm), if_neg (by omega)]
    refine ih (by omega) fuel (s.hopped mark) ?_
      (show s.curOffset + markCount mark + _ = offset by omega)
      (show source.length < s.sp + markSize mark + fuel by omega)
    rw [← hm, List.drop_drop]
    rfl

/-- Without marks to go by the walk ends in a fault. -/
theorem locateLoop_of_not_hops (fuel : ℕ) (s : ExtractState) {left : ℕ} (hleft : 0 < left)
    (hoff : s.curOffset + left = offset) (hhops : ¬ Hops (source.drop s.sp) left) :
    locateLoop source offset fuel s = .error .fault := by
  induction fuel generalizing s left with
  | zero => rfl
  | succ fuel ih =>
    cases hm : source.drop s.sp with
    | nil => rw [locateLoop_eq, if_pos (by omega), Mem.load_of_drop_nil hm, Run.error_bind]
    | cons mark m =>
      rw [hm] at hhops
      have hcount : ¬ left ≤ markCount mark := fun h => hhops (Hops.reach h)
      rw [locateLoop_succ hleft hoff (Mem.load_of_drop hm), if_neg hcount]
      refine @ih (s.hopped mark) (left - markCount mark) (by omega)
        (show s.curOffset + markCount mark + _ = offset by omega) ?_
      intro next
      refine hhops (Hops.hop (by omega) ?_)
      rw [← hm, List.drop_drop]
      exact next

/-- What lies behind a token. -/
theorem drop_markSize {t : Token} {sp : ℕ} {M : Mem}
    (hm : source.drop sp = tokenMark t :: (dataFrom t 0 ++ M)) :
    source.drop (sp + markSize (tokenMark t)) = M := by
  rw [← List.drop_drop, hm, markSize, markIsRun_tokenMark, markCount_tokenMark]
  cases t with
  | lit bs fits => exact List.drop_left
  | run b c => rfl

/-- The loop stands in a token, with `k` bytes of its text passed. -/
structure ExtractState.Inside (source : Mem) (s : ExtractState) (t : Token) (k : ℕ)
    (post : List Token) (rest : Mem) : Prop where
  repeated : s.repeated = isRunToken t
  count : s.count = t.expand.length - k
  within : k ≤ t.expand.length
  mapped : source.drop s.sp = dataFrom t k ++ (encode post ++ rest)

theorem ExtractState.Inside.count_le {s : ExtractState} {t : Token} {k : ℕ} {post : List Token}
    {rest : Mem} (h : s.Inside source t k post rest) : s.count ≤ maxRepeatedSize := by
  rw [h.count]
  exact Nat.le_trans (Nat.sub_le _ _) t.expand_length_le

/-- **In a payload the walk ends in the token that has the offset.** -/
theorem locateLoop_encode (ts : List Token) (rest : Mem) (fuel : ℕ) (s : ExtractState) {left : ℕ}
    (hleft : 0 < left) (hle : left ≤ (expand ts).length) (hoff : s.curOffset + left = offset)
    (hm : source.drop s.sp = encode ts ++ rest) (hfuel : ts.length < fuel) :
    ∃ s' pre t post k, locateLoop source offset fuel s = .ok s' ∧ ts = pre ++ t :: post
      ∧ (expand pre).length + k = left ∧ s'.curOffset = offset ∧ s'.out = s.out ∧ s.sp < s'.sp
      ∧ s'.Inside source t k post rest := by
  induction ts generalizing fuel s left with
  | nil => simp at hle; omega
  | cons t ts ih =>
    obtain ⟨fuel, rfl⟩ : ∃ f, fuel = f + 1 := ⟨fuel - 1, by simp at hfuel; omega⟩
    rw [encode_cons, encode_eq_mark_cons, List.cons_append, List.cons_append,
      List.append_assoc] at hm
    rw [expand_cons, List.length_append] at hle
    rw [List.length_cons] at hfuel
    rw [locateLoop_succ hleft hoff (Mem.load_of_drop hm), markCount_tokenMark]
    by_cases hreach : left ≤ t.expand.length
    · rw [if_pos hreach]
      obtain ⟨fuel, rfl⟩ : ∃ f, fuel = f + 1 := ⟨fuel - 1, by omega⟩
      rw [locateLoop_stop (show offset ≤ s.curOffset + left by omega)]
      refine ⟨_, [], t, ts, left, rfl, rfl, by simp, hoff, rfl, ?_, markIsRun_tokenMark t, ?_,
        hreach, ?_⟩
      · show s.sp < s.sp + _
        split <;> omega
      · show markCount (tokenMark t) - left = _
        rw [markCount_tokenMark]
      · show source.drop (s.sp + if markIsRun (tokenMark t) then 1 else left + 1) = _
        rw [← List.drop_drop, hm, markIsRun_tokenMark]
        cases t with
        | lit bs fits => exact List.drop_append_of_le_length hreach
        | run b c => rfl
    · rw [if_neg hreach]
      obtain ⟨s', pre, u, post, k, hrun, hts, hk, hcur, hout, hsp, hinside⟩ :=
        @ih fuel (s.hopped (tokenMark t)) (left - t.expand.length) (by omega) (by omega)
          (show s.curOffset + markCount (tokenMark t) + _ = offset by
            rw [markCount_tokenMark]
            omega)
          (drop_markSize hm) (by omega)
      refine ⟨s', t :: pre, u, post, k, hrun, by rw [hts, List.cons_append], ?_, hcur, hout, ?_,
        hinside⟩
      · rw [expand_cons, List.length_append]
        omega
      · exact Nat.lt_of_le_of_lt (Nat.le_add_right _ _) hsp

end Locate

/-- **A payload is passed token by token.** -/
theorem hops_encode_append_iff (ts : List Token) (rest : Mem) {n : ℕ}
    (hn : (expand ts).length < n) :
    Hops (encode ts ++ rest) n ↔ Hops rest (n - (expand ts).length) := by
  induction ts generalizing n with
  | nil => rfl
  | cons t ts ih =>
    rw [expand_cons, List.length_append] at hn ⊢
    rw [encode_cons, encode_eq_mark_cons, List.append_assoc, List.cons_append]
    have hdrop := @drop_markSize (tokenMark t :: (dataFrom t 0 ++ (encode ts ++ rest))) t 0 _ rfl
    rw [Nat.zero_add] at hdrop
    have hcount := markCount_tokenMark t
    rw [← Nat.sub_sub, ← ih (by omega)]
    constructor
    · intro h
      cases h with
      | reach h => omega
      | hop h next =>
        rw [hdrop, hcount] at next
        exact next
    · intro h
      refine Hops.hop (by omega) ?_
      rw [hdrop, hcount]
      exact h

end Server
