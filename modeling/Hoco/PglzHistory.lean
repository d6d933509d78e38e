import Mathlib.Logic.Function.Basic
import Hoco.BackReference
import Hoco.RecencyLists
import Hoco.Varlena

/-!
# The history of the default compressor

The compressor looks for earlier occurrences of the bytes that come next. It
finds them through a history of the last `4096` positions: a hash of the four
bytes at a position selects a list, and the positions with the same hash are
linked in it, the newest first. The nodes lie in an array that is used in turn,
so that a node is taken out of its list when it is used again.

`pglzHistAdd` and `pglzFindMatch` follow the two operations on the history, with
links as they are in the source: pointers that can be null, and the node with
number `0` for the end of a list, on which the functions scribble freely. The two
arrays are static, and only the first is cleared when a compression starts.

That the links are right is one statement (`Holds`): each list is linked and has
just the positions among the last `4096` with its hash. Adding a position keeps
it (`Holds.pglzHistAdd`), from whatever the arrays held before, and the search
then is a search through a list of positions (`pglzFindMatch_eq`). There the
comparison with `memcmp`, which the source uses once a match is long enough to be
worth it, is gone: it makes no difference.
-/

open BackReference RecencyLists

namespace Pglz

/-- `PGLZ_MAX_HISTORY_LISTS`. -/
abbrev pglzMaxHistoryLists : ℕ := 8192

/-- `PGLZ_HISTORY_SIZE`. -/
abbrev pglzHistorySize : ℕ := 4096

/-- `PGLZ_MAX_MATCH`. -/
abbrev pglzMaxMatch : ℕ := 273

/-- An index into `hist_start`. -/
abbrev HIndex := Fin pglzMaxHistoryLists

/-- An index into `hist_entries`, and a pointer to an element of it. -/
abbrev EntryNo := Fin (pglzHistorySize + 1)

/-- `PGLZ_HistEntry`. The position is given by its distance from the source. -/
structure PglzHistEntry where
  next : Option EntryNo
  prev : Option EntryNo
  hindex : HIndex
  pos : ℕ

/-- The static arrays `hist_start` and `hist_entries`. -/
structure Work where
  histStart : HIndex → EntryNo
  histEntries : EntryNo → PglzHistEntry

/-- The static arrays when the program starts. -/
def Work.zero : Work := ⟨fun _ => 0, fun _ => ⟨none, none, 0, 0⟩⟩

/-- The arrays during a compression, with `hist_next` and `hist_recycle`. -/
structure History extends Work where
  histNext : EntryNo
  histRecycle : Bool

/-! ## The operations -/

/-- A `char`, promoted to `int`. -/
def promote (charSigned : Bool) (b : UInt8) : BitVec 32 :=
  if charSigned then b.toBitVec.signExtend 32 else b.toBitVec.setWidth 32

theorem and_mask_le (x : BitVec 32) (mask : HIndex) :
    (x &&& BitVec.ofNat 32 mask).toNat ≤ mask := by
  rw [BitVec.toNat_and, BitVec.toNat_ofNat]
  exact Nat.and_le_right.trans (Nat.mod_le _ _)

theorem and_mask_lt (x : BitVec 32) (mask : HIndex) :
    (x &&& BitVec.ofNat 32 mask).toNat < pglzMaxHistoryLists :=
  (and_mask_le x mask).trans_lt mask.isLt

/-- The bits of a hash that the mask keeps. -/
def maskBits (x : BitVec 32) (mask : HIndex) : HIndex :=
  ⟨(x &&& BitVec.ofNat 32 mask).toNat, and_mask_lt x mask⟩

section

variable (charSigned : Bool) (source : Mem) (slen : ℕ) (mask : HIndex)

/-- `pglz_hist_idx`. The last three positions of the source are hashed by their
first byte. -/
def pglzHistIdx (s : ℕ) : Run HIndex := do
  let c₀ := promote charSigned (← source.load s)
  if slen - s < 4 then return maskBits c₀ mask
  else
    let c₁ := promote charSigned (← source.load (s + 1))
    let c₂ := promote charSigned (← source.load (s + 2))
    let c₃ := promote charSigned (← source.load (s + 3))
    return maskBits ((c₀ <<< 6) ^^^ (c₁ <<< 4) ^^^ (c₂ <<< 2) ^^^ c₃) mask

/-- A change of one entry. -/
def Work.modify (w : Work) (e : EntryNo) (f : PglzHistEntry → PglzHistEntry) : Work :=
  { w with histEntries := Function.update w.histEntries e (f (w.histEntries e)) }

/-- The part of `pglz_hist_add` that takes a node out of its list. The distance
of a null pointer from the array is not a number. -/
def Work.delink (w : Work) (e : EntryNo) : Run Work := do
  let w ← match (w.histEntries e).prev, (w.histEntries e).next with
    | none, none => .error .fault
    | none, some next =>
      .ok { w with histStart := Function.update w.histStart (w.histEntries e).hindex next }
    | some prev, next => .ok (w.modify prev fun he => { he with next := next })
  match (w.histEntries e).next with
  | none => return w
  | some next => return w.modify next fun he => { he with prev := (w.histEntries e).prev }

/-- The part of `pglz_hist_add` that puts a node in front of a list. Where the
list was empty, the link back is written to entry `0`. -/
def Work.link (w : Work) (e : EntryNo) (hindex : HIndex) (s : ℕ) : Work :=
  let head := w.histStart hindex
  let w := w.modify e fun _ => { next := some head, prev := none, hindex := hindex, pos := s }
  let w := w.modify head fun he => { he with prev := some e }
  { w with histStart := Function.update w.histStart hindex e }

/-- The entry that is used next, taken out of its list if it is in one. -/
def History.freeNext (hist : History) : Run Work :=
  if hist.histRecycle then hist.delink hist.histNext else .ok hist.toWork

/-- **`pglz_hist_add`.** -/
def pglzHistAdd (hist : History) (s : ℕ) : Run History := do
  let hindex ← pglzHistIdx charSigned source slen mask s
  let w ← hist.freeNext
  let w := w.link hist.histNext hindex s
  if hist.histNext.val + 1 ≥ pglzHistorySize + 1 then
    return { w with histNext := 1, histRecycle := true }
  else return { w with histNext := hist.histNext + 1, histRecycle := hist.histRecycle }

/-- The loop that adds the positions of a match. -/
def histAddLoop : ℕ → History → ℕ → Run History
  | 0, hist, _ => .ok hist
  | matchLen + 1, hist, dp => do
    histAddLoop matchLen (← pglzHistAdd charSigned source slen mask hist dp) (dp + 1)

/-- The loop that compares byte by byte. -/
def matchLoop : ℕ → ℕ → ℕ → ℕ → Run ℕ
  | 0, _, _, _ => .error .fault
  | fuel + 1, ip, hp, thislen =>
    if ip < slen then do
      let a ← source.load ip
      let b ← source.load hp
      if a = b ∧ thislen < pglzMaxMatch then matchLoop fuel (ip + 1) (hp + 1) (thislen + 1)
      else return thislen
    else .ok thislen

/-- The length of the match at an entry, given the best length so far. From `16`
bytes on, an entry that does not agree on so many is ruled out with `memcmp`. -/
def thisLen (input hp len : ℕ) : Run ℕ := do
  if len ≥ 16 then
    let ahead ← source.copy input len
    let behind ← source.copy hp len
    if ahead = behind then matchLoop source slen (pglzMaxMatch + 1) (input + len) (hp + len) len
    else return 0
  else matchLoop source slen (pglzMaxMatch + 1) input hp 0

/-- The loop of `pglz_find_match` through a list. -/
def findLoop (w : Work) (input goodDrop : ℕ) : ℕ → Option EntryNo → ℕ → ℤ → ℕ → Run (ℕ × ℤ)
  | 0, _, _, _, _ => .error .fault
  | _ + 1, none, _, _, _ => .error .fault
  | fuel + 1, some hent, len, off, goodMatch =>
    if hent = 0 then .ok (len, off)
    else do
      let hp := (w.histEntries hent).pos
      let thisoff : ℤ := input - hp
      if thisoff ≥ 0x0fff then return (len, off)
      else
        let thislen ← thisLen source slen input hp len
        let (len, off) := if thislen > len then (thislen, thisoff) else (len, off)
        let next := (w.histEntries hent).next
        if next ≠ some 0 then
          if len ≥ goodMatch then return (len, off)
          else findLoop w input goodDrop fuel next len off (goodMatch - goodMatch * goodDrop / 100)
        else findLoop w input goodDrop fuel next len off goodMatch

/-- **`pglz_find_match`**: the length and the offset of a match, if there is one
that saves a byte. -/
def pglzFindMatch (w : Work) (input goodMatch goodDrop : ℕ) : Run (Option (ℕ × ℤ)) := do
  let hentno := w.histStart (← pglzHistIdx charSigned source slen mask input)
  let (len, off) ← findLoop source slen w input goodDrop (pglzHistorySize + 1) (some hentno) 0 0
    goodMatch
  return if len > 2 then some (len, off) else none

/-- The arrays as `pglz_compress` leaves them to its loop: `hist_start` is cleared
as far as the mask reaches, and `hist_entries` is not. -/
def History.start (w : Work) : History where
  histStart := fun h => if h ≤ mask then 0 else w.histStart h
  histEntries := w.histEntries
  histNext := 1
  histRecycle := false

end

/-! ## What the arrays hold -/

section

variable {w : Work} {e : EntryNo} {f : PglzHistEntry → PglzHistEntry}

theorem Work.modify_of_ne {e' : EntryNo} (h : e' ≠ e) :
    (w.modify e f).histEntries e' = w.histEntries e' :=
  Function.update_of_ne h _ _

theorem Work.modify_self : (w.modify e f).histEntries e = f (w.histEntries e) :=
  Function.update_self _ _ _

theorem Work.modify_histStart : (w.modify e f).histStart = w.histStart := rfl

/-- Taking out the first node of a list. -/
theorem Work.delink_first {j : EntryNo} (hprev : (w.histEntries e).prev = none)
    (hnext : (w.histEntries e).next = some j) :
    w.delink e = .ok
      (Work.modify { w with histStart := Function.update w.histStart (w.histEntries e).hindex j } j
        fun he => { he with prev := none }) := by
  rw [Work.delink]
  simp only [hprev, hnext, Run.ok_bind]
  rfl

/-- Taking out a node that another one links to. -/
theorem Work.delink_behind {y j : EntryNo} (hprev : (w.histEntries e).prev = some y)
    (hnext : (w.histEntries e).next = some j) (hne : e ≠ y) :
    w.delink e = .ok
      ((w.modify y fun he => { he with next := some j }).modify j
        fun he => { he with prev := some y }) := by
  have hsame := @Work.modify_of_ne w y (fun he => { he with next := some j }) e hne
  rw [Work.delink]
  simp only [hprev, hnext, Run.ok_bind, hsame]
  rfl

/-- The entries after a node was put in front of a list that it was not the first
of. -/
theorem Work.link_histEntries {hindex : HIndex} (hne : w.histStart hindex ≠ e) (s : ℕ)
    (z : EntryNo) :
    (w.link e hindex s).histEntries z
      = if z = e then ⟨some (w.histStart hindex), none, hindex, s⟩
        else if z = w.histStart hindex then { w.histEntries z with prev := some e }
        else w.histEntries z := by
  unfold Work.link
  dsimp only
  split
  · rename_i hz
    subst hz
    rw [Work.modify_of_ne hne.symm, Work.modify_self]
  · rename_i hz
    split
    · rename_i hhead
      subst hhead
      rw [Work.modify_self, Work.modify_of_ne hz]
    · rename_i hhead
      rw [Work.modify_of_ne hhead, Work.modify_of_ne hz]

end

/-- The entry that a position is kept in. -/
def entryNo (p : ℕ) : EntryNo := ⟨p % pglzHistorySize + 1, Nat.succ_lt_succ (Nat.mod_lt _ (by decide))⟩

theorem entryNo_ne_zero (p : ℕ) : entryNo p ≠ 0 := by
  intro h
  have := congrArg Fin.val h
  simp [entryNo] at this

/-- Positions that share an entry are `4096` apart, or more. -/
theorem entryNo_inj {p q : ℕ} (h : entryNo p = entryNo q) (hpq : p < q + pglzHistorySize)
    (hqp : q < p + pglzHistorySize) : p = q := by
  have hval : p % pglzHistorySize + 1 = q % pglzHistorySize + 1 := congrArg Fin.val h
  simp only [pglzHistorySize] at hval hpq hqp
  omega

/-- After the last entry comes the first one again, and all of them are in use. -/
theorem entryNo_succ_of_ge {n : ℕ} (h : pglzHistorySize + 1 ≤ (entryNo n).val + 1) :
    entryNo (n + 1) = 1 ∧ pglzHistorySize ≤ n + 1 := by
  simp only [entryNo, pglzHistorySize] at h ⊢
  refine ⟨Fin.ext ?_, by omega⟩
  show (n + 1) % 4096 + 1 = 1
  omega

theorem entryNo_succ_of_lt {n : ℕ} (h : (entryNo n).val + 1 < pglzHistorySize + 1) :
    entryNo (n + 1) = entryNo n + 1 ∧ (pglzHistorySize ≤ n ↔ pglzHistorySize ≤ n + 1) := by
  have hlast : entryNo n < Fin.last pglzHistorySize :=
    Fin.lt_def.mpr (by rw [Fin.val_last]; exact Nat.lt_of_succ_lt_succ h)
  have hlt : n % 4096 + 1 < 4096 := Nat.lt_of_succ_lt_succ h
  refine ⟨Fin.ext ?_, by simp only [pglzHistorySize]; omega⟩
  rw [Fin.val_add_one_of_lt hlast]
  show (n + 1) % 4096 + 1 = n % 4096 + 1 + 1
  omega

section

variable (key : ℕ → HIndex) (mask : HIndex)

/-- **The history of the last `size` of `n` positions.** Each list is linked and
has the positions with its hash, and their entries say where they are. -/
structure Holds (size n : ℕ) (w : Work) : Prop where
  entry : ∀ p, n - size ≤ p → p < n →
    (w.histEntries (entryNo p)).hindex = key p ∧ (w.histEntries (entryNo p)).pos = p
  lists : ∀ h ≤ mask, Linked (fun e => (w.histEntries e).next) (fun e => (w.histEntries e).prev) 0
    none (w.histStart h) ((recent key size n h).map entryNo)

end

namespace Holds

variable {key : ℕ → HIndex} {mask : HIndex} {size n : ℕ} {w : Work}

theorem nodup_map_entryNo (hsize : size ≤ pglzHistorySize) (h : HIndex) :
    ((recent key size n h).map entryNo).Nodup := by
  refine List.Nodup.map_on (fun p hp q hq heq => ?_) nodup_recent
  rw [mem_recent] at hp hq
  exact entryNo_inj heq (by omega) (by omega)

/-- **Nothing is held at the start**, whatever the arrays held before. -/
theorem start (w : Work) : Holds key mask size 0 (History.start mask w).toWork where
  entry := fun p _ hp => absurd hp (Nat.not_lt_zero p)
  lists := by
    intro h hh
    rw [recent_zero]
    exact if_pos hh

/-- As long as entries are left, nothing is taken out. -/
theorem of_le (h : Holds key mask (size + 1) n w) (hn : n ≤ size) : Holds key mask size n w where
  entry := fun p hp => h.entry p (by omega)
  lists := fun k hk => recent_of_le hn k ▸ h.lists k hk

/-- Nodes of different lists are different. -/
theorem ne_of_mem_map (hsize : size ≤ pglzHistorySize) {h k : HIndex} (hne : h ≠ k)
    {x y : EntryNo} (hx : x ∈ (recent key size n h).map entryNo)
    (hy : y ∈ (recent key size n k).map entryNo) : x ≠ y := by
  rintro rfl
  obtain ⟨p, hp, rfl⟩ := List.mem_map.mp hx
  obtain ⟨q, hq, heq⟩ := List.mem_map.mp hy
  rw [mem_recent] at hp hq
  have hpq := entryNo_inj heq (by omega) (by omega)
  exact hne (hp.2.symm.trans (hpq ▸ hq.2))

theorem ne_zero_of_mem_map {h : HIndex} {x : EntryNo}
    (hx : x ∈ (recent key size n h).map entryNo) : x ≠ 0 := by
  obtain ⟨p, -, rfl⟩ := List.mem_map.mp hx
  exact entryNo_ne_zero p

/-- **The oldest position leaves the history.** -/
theorem delink (h : Holds key mask (size + 1) n w) (hsize : size + 1 = pglzHistorySize)
    (hkey : ∀ p, key p ≤ mask) (hn : size < n) :
    ∃ w', w.delink (entryNo n) = .ok w' ∧ Holds key mask size n w' := by
  obtain ⟨q, rfl⟩ := Nat.exists_eq_add_of_le' hn
  have hentry : entryNo (q + (size + 1)) = entryNo q := by
    refine Fin.ext (congrArg (· + 1) ?_)
    rw [hsize, Nat.add_mod_right]
  have hrecent : ∀ k, recent key (size + 1) (q + (size + 1)) k
      = recent key size (q + (size + 1)) k ++ if key q = k then [q] else [] := by
    intro k
    rw [recent_of_lt hn, Nat.add_sub_cancel]
  have hlist := h.lists (key q) (hkey q)
  rw [hrecent, if_pos rfl, List.map_append] at hlist
  obtain ⟨hprev, hnext⟩ := hlist.links_last
  obtain ⟨hindex, -⟩ := h.entry q (by omega) (by omega)
  -- a list of another hash stays as it is
  have hothers : ∀ k ≤ mask, k ≠ key q → ∀ w' : Work, w'.histStart k = w.histStart k →
      (∀ x ∈ (recent key size (q + (size + 1)) k).map entryNo,
        w'.histEntries x = w.histEntries x) →
      Linked (fun e => (w'.histEntries e).next) (fun e => (w'.histEntries e).prev) 0 none
        (w'.histStart k) ((recent key size (q + (size + 1)) k).map entryNo) := by
    intro k hk hne w' hstart hsame
    have := h.lists k hk
    rw [hrecent, if_neg hne.symm, List.append_nil] at this
    rw [hstart]
    exact this.congr (fun z hz => by rw [hsame z hz]) (fun z hz => by rw [hsame z hz])
  rw [hentry]
  cases hxs : ((recent key size (q + (size + 1)) (key q)).map entryNo).getLast? with
  | none =>
    -- the node is alone in its list
    have hnil := List.getLast?_eq_none_iff.mp hxs
    rw [hxs] at hprev
    refine ⟨_, Work.delink_first hprev hnext, ⟨fun p hp hlt => ?_, fun k hk => ?_⟩⟩
    · rw [Work.modify_of_ne (entryNo_ne_zero p)]
      exact h.entry p (by omega) hlt
    · by_cases hkq : k = key q
      · subst hkq
        rw [hnil, Work.modify_histStart, hindex]
        exact Function.update_self _ _ _
      · refine hothers k hk hkq _ ?_ fun x hx => Work.modify_of_ne (ne_zero_of_mem_map hx)
        rw [Work.modify_histStart, hindex]
        exact Function.update_of_ne hkq _ _
  | some y =>
    -- the node before it becomes the last one
    have hy := List.mem_of_getLast? hxs
    have hnodup := @nodup_map_entryNo key (size + 1) (q + (size + 1)) hsize.le (key q)
    rw [hrecent, if_pos rfl, List.map_append] at hnodup
    have hne : entryNo q ≠ y := by
      rintro rfl
      exact (List.nodup_append.mp hnodup).2.2 _ hy _ (List.mem_singleton_self _) rfl
    rw [hxs] at hprev
    refine ⟨_, Work.delink_behind hprev hnext hne, ⟨fun p hp hlt => ?_, fun k hk => ?_⟩⟩
    · rw [Work.modify_of_ne (entryNo_ne_zero p)]
      have hold := h.entry p (by omega) hlt
      by_cases hpy : entryNo p = y
      · rw [hpy] at hold ⊢
        rw [Work.modify_self]
        exact hold
      · rwa [Work.modify_of_ne hpy]
    · by_cases hkq : k = key q
      · subst hkq
        refine hlist.unlink_last (List.ne_nil_of_mem hy) (List.nodup_append.mp hnodup).1
          (fun z hz => ?_) (fun z hz => ?_)
        · rw [Work.modify_of_ne (ne_zero_of_mem_map hz), hxs]
          by_cases hzy : z = y
          · subst hzy
            rw [Work.modify_self, if_pos rfl]
          · rw [Work.modify_of_ne hzy, if_neg (fun h => hzy (Option.some.inj h).symm)]
        · rw [Work.modify_of_ne (ne_zero_of_mem_map hz)]
          by_cases hzy : z = y
          · subst hzy
            rw [Work.modify_self]
          · rw [Work.modify_of_ne hzy]
      · refine hothers k hk hkq _ rfl fun x hx => ?_
        rw [Work.modify_of_ne (ne_zero_of_mem_map hx),
          Work.modify_of_ne (ne_of_mem_map (by omega) hkq hx hy)]

/-- **A position is put in front of the list of its hash.** -/
theorem link (h : Holds key mask size n w) (hsize : size + 1 = pglzHistorySize)
    (hkey : ∀ p, key p ≤ mask) :
    Holds key mask (size + 1) (n + 1) (w.link (entryNo n) (key n) n) := by
  have hnot : ∀ k, entryNo n ∉ (recent key size n k).map entryNo := by
    intro k hmem
    obtain ⟨p, hp, heq⟩ := List.mem_map.mp hmem
    rw [mem_recent] at hp
    have := entryNo_inj heq (by omega) (by omega)
    omega
  -- lists with other hashes, and where the first node of this one lies
  have hmask : key n ≤ mask := hkey n
  have hhead : w.histStart (key n) ≠ entryNo n := by
    rcases (h.lists (key n) hmask).start_cases with hzero | hmem
    · rw [hzero]
      exact (entryNo_ne_zero n).symm
    · exact fun heq => hnot (key n) (heq ▸ hmem)
  have hentries := Work.link_histEntries hhead n
  constructor
  · intro p hp hlt
    rw [hentries]
    by_cases hpn : p = n
    · subst hpn
      rw [if_pos rfl]
      exact ⟨rfl, rfl⟩
    · have hold := h.entry p (by omega) (by omega)
      have hmem : entryNo p ∈ (recent key size n (key p)).map entryNo :=
        List.mem_map_of_mem (mem_recent.mpr ⟨by omega, rfl⟩)
      rw [if_neg (show ¬ entryNo p = entryNo n from fun heq => hnot (key p) (heq ▸ hmem))]
      split
      · exact hold
      · exact hold
  · intro k hk
    have hold := h.lists k hk
    have hlinks : ∀ z ∈ (recent key size n k).map entryNo,
        (w.link (entryNo n) (key n) n).histEntries z
          = if z = w.histStart (key n) then { w.histEntries z with prev := some (entryNo n) }
            else w.histEntries z := by
      intro z hz
      rw [hentries, if_neg (show ¬ z = entryNo n from fun heq => hnot k (heq ▸ hz))]
    rw [recent_succ]
    by_cases hkn : key n = k
    · subst hkn
      rw [if_pos rfl, List.map_cons, show (w.link (entryNo n) (key n) n).histStart (key n) = entryNo n
        from Function.update_self _ _ _]
      refine hold.push (entryNo_ne_zero n) (nodup_map_entryNo (by omega) _) ?_ ?_
        (fun z hz => ?_) (fun z hz => ?_)
      · rw [hentries, if_pos rfl]
      · rw [hentries, if_pos rfl]
      · rw [hlinks z hz]
        split <;> rfl
      · rw [hlinks z hz]
        split <;> rfl
    · rw [if_neg hkn, show (w.link (entryNo n) (key n) n).histStart k = w.histStart k
        from Function.update_of_ne (Ne.symm hkn) _ _]
      -- the first node of the other list is not a node of this one
      have hsame : ∀ z ∈ (recent key size n k).map entryNo,
          (w.link (entryNo n) (key n) n).histEntries z = w.histEntries z := by
        intro z hz
        rw [hlinks z hz, if_neg]
        rintro rfl
        rcases (h.lists (key n) hmask).start_cases with hzero | hmem
        · exact ne_zero_of_mem_map hz hzero
        · exact ne_of_mem_map (by omega) hkn hmem hz rfl
      exact hold.congr (fun z hz => by rw [hsame z hz]) (fun z hz => by rw [hsame z hz])

end Holds

/-! ## Adding positions -/

section

variable (charSigned : Bool) (source : Mem) (slen : ℕ) (mask : HIndex)

/-- The hash of a position. -/
def keyAt (p : ℕ) : HIndex :=
  match pglzHistIdx charSigned source slen mask p with
  | .ok h => h
  | .error _ => 0

/-- **The history of the first `n` positions of a source.** -/
structure Tracks (n : ℕ) (hist : History) : Prop where
  holds : Holds (keyAt charSigned source slen mask) mask pglzHistorySize n hist.toWork
  next : hist.histNext = entryNo n
  recycle : hist.histRecycle = decide (pglzHistorySize ≤ n)

end

section

variable {charSigned : Bool} {source : Mem} {slen : ℕ} {mask : HIndex}

theorem maskBits_le (x : BitVec 32) : maskBits x mask ≤ mask := and_mask_le x mask

theorem keyAt_le (p : ℕ) : keyAt charSigned source slen mask p ≤ mask := by
  unfold keyAt
  split
  · rename_i h heq
    obtain ⟨c₀, -, heq⟩ := Run.bind_eq_ok.mp heq
    split at heq
    · rw [← Except.ok.inj heq]
      exact maskBits_le _
    · obtain ⟨c₁, -, heq⟩ := Run.bind_eq_ok.mp heq
      obtain ⟨c₂, -, heq⟩ := Run.bind_eq_ok.mp heq
      obtain ⟨c₃, -, heq⟩ := Run.bind_eq_ok.mp heq
      rw [← Except.ok.inj heq]
      exact maskBits_le _
  · exact Fin.zero_le _

/-- The hash of a position inside of the source is computed inside of it. -/
theorem pglzHistIdx_eq (hmapped : slen ≤ source.length) {p : ℕ} (hp : p < slen) :
    pglzHistIdx charSigned source slen mask p = .ok (keyAt charSigned source slen mask p) := by
  have hload : ∀ i < slen, ∃ b, source.load i = .ok b :=
    fun i hi => Mem.exists_load_iff.mpr (by omega)
  obtain ⟨h, hh⟩ : ∃ h, pglzHistIdx charSigned source slen mask p = .ok h := by
    obtain ⟨b₀, hb₀⟩ := hload p hp
    rw [pglzHistIdx, hb₀, Run.ok_bind]
    split
    · exact ⟨_, rfl⟩
    · obtain ⟨b₁, hb₁⟩ := hload (p + 1) (by omega)
      obtain ⟨b₂, hb₂⟩ := hload (p + 2) (by omega)
      obtain ⟨b₃, hb₃⟩ := hload (p + 3) (by omega)
      rw [hb₁, hb₂, hb₃]
      exact ⟨_, rfl⟩
  rw [keyAt, hh]

namespace Tracks

variable {n : ℕ} {hist : History}

theorem start (w : Work) : Tracks charSigned source slen mask 0 (History.start mask w) where
  holds := Holds.start w
  next := rfl
  recycle := rfl

/-- **Adding the next position.** -/
theorem pglzHistAdd (h : Tracks charSigned source slen mask n hist)
    (hmapped : slen ≤ source.length) (hn : n < slen) :
    ∃ hist', Pglz.pglzHistAdd charSigned source slen mask hist n = .ok hist'
      ∧ Tracks charSigned source slen mask (n + 1) hist' := by
  obtain ⟨size, hsize⟩ : ∃ size, size + 1 = pglzHistorySize := ⟨4095, rfl⟩
  have hholds := h.holds
  rw [← hsize] at hholds
  -- the entry that is used next is free, or is freed
  obtain ⟨w, hw, hfree⟩ : ∃ w, hist.freeNext = .ok w
      ∧ Holds (keyAt charSigned source slen mask) mask size n w := by
    have hrecycle := h.recycle
    rw [History.freeNext, h.next]
    split
    · rename_i htrue
      rw [htrue, eq_comm, decide_eq_true_eq] at hrecycle
      exact hholds.delink hsize keyAt_le (by omega)
    · rename_i hfalse
      rw [Bool.not_eq_true] at hfalse
      rw [hfalse, eq_comm, decide_eq_false_iff_not] at hrecycle
      exact ⟨_, rfl, hholds.of_le (by omega)⟩
  have hlink := hfree.link hsize keyAt_le
  rw [hsize] at hlink
  rw [Pglz.pglzHistAdd, pglzHistIdx_eq hmapped hn, Run.ok_bind, hw, Run.ok_bind, h.next]
  split
  · rename_i hwrap
    obtain ⟨hnext, hfull⟩ := entryNo_succ_of_ge hwrap
    exact ⟨_, rfl, hlink, hnext.symm, (decide_eq_true hfull).symm⟩
  · rename_i hwrap
    obtain ⟨hnext, hfull⟩ := entryNo_succ_of_lt (Nat.not_le.mp hwrap)
    refine ⟨_, rfl, hlink, hnext.symm, h.recycle.trans ?_⟩
    rw [decide_eq_decide, hfull]

/-- **Adding several positions**, one after the other. -/
theorem histAddLoop (h : Tracks charSigned source slen mask n hist)
    (hmapped : slen ≤ source.length) {k : ℕ} (hk : n + k ≤ slen) :
    ∃ hist', Pglz.histAddLoop charSigned source slen mask k hist n = .ok hist'
      ∧ Tracks charSigned source slen mask (n + k) hist' := by
  induction k generalizing n hist with
  | zero => exact ⟨hist, rfl, h⟩
  | succ k ih =>
    obtain ⟨hist₁, hadd, h₁⟩ := h.pglzHistAdd hmapped (by omega)
    obtain ⟨hist', hloop, h'⟩ := ih h₁ (by omega)
    refine ⟨hist', ?_, by rwa [Nat.add_right_comm, Nat.add_assoc] at h'⟩
    rw [Pglz.histAddLoop, hadd, Run.ok_bind, hloop]

end Tracks

end

/-! ## Looking for a match

The search of `pglz_find_match` without its pointers and without `memcmp`: for
each position of a list the bytes are compared one by one. -/

section

variable (text : List UInt8)

/-- The length of the match of the bytes at `input` with those at `p`. -/
def matchLen (input p : ℕ) : ℕ :=
  min pglzMaxMatch (commonLen (text.drop input) (text.drop p))

/-- The better one of a match and the match at a position. -/
def better (input : ℕ) (best : ℕ × ℕ) (p : ℕ) : ℕ × ℕ :=
  if best.1 < matchLen text input p then (matchLen text input p, input - p) else best

/-- The search through a list of positions, from the best match so far. -/
def search (input goodDrop : ℕ) : List ℕ → ℕ × ℕ → ℕ → ℕ × ℕ
  | [], best, _ => best
  | p :: ps, best, goodMatch =>
    if 0x0fff ≤ input - p then best
    else if ps ≠ [] ∧ goodMatch ≤ (better text input best p).1 then better text input best p
    else search input goodDrop ps (better text input best p) (goodMatch - goodMatch * goodDrop / 100)

/-- **A match**: the bytes at `input` are those `off` places before, over the given
length. -/
structure IsMatch (input len off : ℕ) : Prop where
  pos : 0 < off
  reach : off ≤ input
  fits : off < 0x0fff
  max : len ≤ pglzMaxMatch
  inside : input + len ≤ text.length
  agrees : ∀ k < len, text[input + k]? = text[input + k - off]?

end

section

variable {text : List UInt8} {input goodDrop : ℕ}

theorem isMatch_matchLen {p : ℕ} (hp : p < input) (hfits : ¬ 0x0fff ≤ input - p)
    (hinput : input ≤ text.length) : IsMatch text input (matchLen text input p) (input - p) where
  pos := by omega
  reach := by omega
  fits := by omega
  max := Nat.min_le_left _ _
  inside := by
    have := commonLen_le_length (text.drop input) (text.drop p)
    rw [List.length_drop] at this
    have := Nat.min_le_right pglzMaxMatch (commonLen (text.drop input) (text.drop p))
    rw [matchLen]
    omega
  agrees := by
    intro k hk
    have := getElem?_of_lt_commonLen (hk.trans_le (Nat.min_le_right _ _))
    rwa [List.getElem?_drop, List.getElem?_drop, show p + k = input + k - (input - p) by omega]
      at this

/-- The best match so far: none, or one that is a match. -/
def IsBest (text : List UInt8) (input : ℕ) (best : ℕ × ℕ) : Prop :=
  best.1 = 0 ∧ input ≤ text.length ∨ IsMatch text input best.1 best.2

theorem IsBest.inside {best : ℕ × ℕ} (h : IsBest text input best) :
    best.1 ≤ pglzMaxMatch ∧ input + best.1 ≤ text.length := by
  rcases h with ⟨h, hinput⟩ | h
  · exact ⟨h ▸ Nat.zero_le _, h ▸ hinput⟩
  · exact ⟨h.max, h.inside⟩

theorem IsBest.better {best : ℕ × ℕ} (h : IsBest text input best) {p : ℕ} (hp : p < input)
    (hfits : ¬ 0x0fff ≤ input - p) : IsBest text input (better text input best p) := by
  rw [Pglz.better]
  split
  · exact Or.inr (isMatch_matchLen hp hfits ((Nat.le_add_right _ _).trans h.inside.2))
  · exact h

/-- **What the search returns is a match**, or nothing. -/
theorem IsBest.search {ps : List ℕ} (hps : ∀ p ∈ ps, p < input) {best : ℕ × ℕ}
    (h : IsBest text input best) (goodMatch : ℕ) :
    IsBest text input (search text input goodDrop ps best goodMatch) := by
  induction ps generalizing best goodMatch with
  | nil => exact h
  | cons p ps ih =>
    rw [Pglz.search]
    split
    · exact h
    · rename_i hfits
      have hbetter := h.better (hps p List.mem_cons_self) hfits
      split
      · exact hbetter
      · exact ih (fun q hq => hps q (List.mem_cons_of_mem p hq)) hbetter _

end

section

variable {charSigned : Bool} {source : Mem} {slen : ℕ} {mask : HIndex}

/-- What is left of a source from a byte inside of it on. -/
theorem drop_take_eq_cons {i : ℕ} {b : UInt8} (hi : i < slen) (hb : source.load i = .ok b) :
    (source.take slen).drop i = b :: (source.take slen).drop (i + 1) := by
  have hdrop := Mem.drop_of_load hb
  rw [List.drop_take, hdrop, List.drop_take, show slen - i = slen - (i + 1) + 1 by omega,
    List.take_succ_cons]

/-- **The loop that compares byte by byte** finds how far the bytes agree. -/
theorem matchLoop_eq (hmapped : slen ≤ source.length) {fuel ip hp thislen : ℕ} (hhp : hp ≤ ip)
    (hlen : thislen ≤ pglzMaxMatch) (hfuel : pglzMaxMatch - thislen < fuel) :
    matchLoop source slen fuel ip hp thislen = .ok (min pglzMaxMatch
      (thislen + commonLen ((source.take slen).drop ip) ((source.take slen).drop hp))) := by
  induction fuel generalizing ip hp thislen with
  | zero => exact absurd hfuel (Nat.not_lt_zero _)
  | succ fuel ih =>
    rw [matchLoop]
    split
    · rename_i hip
      obtain ⟨a, ha⟩ := Mem.exists_load_iff.mpr (show ip < source.length by omega)
      obtain ⟨b, hb⟩ := Mem.exists_load_iff.mpr (show hp < source.length by omega)
      rw [ha, Run.ok_bind, hb, Run.ok_bind, drop_take_eq_cons hip ha,
        drop_take_eq_cons (by omega) hb, commonLen]
      by_cases hab : a = b
      · rw [if_pos hab]
        by_cases hmax : thislen < pglzMaxMatch
        · rw [if_pos ⟨hab, hmax⟩, ih (by omega) (by omega) (by omega)]
          congr 2
          omega
        · rw [if_neg (fun h => hmax h.2)]
          refine congrArg Except.ok ?_
          omega
      · rw [if_neg (fun h => hab h.1), if_neg hab]
        refine congrArg Except.ok ?_
        omega
    · rename_i hip
      rw [List.drop_eq_nil_of_le (by rw [List.length_take]; omega), commonLen]
      · refine congrArg Except.ok ?_
        omega
      · simp

/-- **The comparison with `memcmp` changes nothing but effort**: where it does not
return the length of the match, the match is not longer than the best so far. -/
theorem thisLen_eq (hmapped : slen ≤ source.length) {input hp len : ℕ} (hhp : hp < input)
    (hlen : len ≤ pglzMaxMatch) (hinput : input + len ≤ slen) :
    ∃ t, thisLen source slen input hp len = .ok t
      ∧ (t = matchLen (source.take slen) input hp
        ∨ t = 0 ∧ matchLen (source.take slen) input hp ≤ len) := by
  rw [thisLen]
  split
  · -- both stretches lie inside of the source
    obtain ⟨ahead, hahead⟩ :=
      Mem.exists_copy_iff.mpr (show ∀ j < len, input + j < source.length by omega)
    obtain ⟨behind, hbehind⟩ :=
      Mem.exists_copy_iff.mpr (show ∀ j < len, hp + j < source.length by omega)
    have htake : ∀ {i : ℕ} {bs : List UInt8}, i + len ≤ slen → source.copy i len = .ok bs →
        ((source.take slen).drop i).take len = bs := by
      intro i bs hi hbs
      obtain ⟨hblen, hdrop⟩ := Mem.drop_of_copy hbs
      rw [List.drop_take, List.take_take, Nat.min_eq_left (by omega), hdrop,
        List.take_left' hblen]
    have hlength : ∀ {i : ℕ}, i + len ≤ slen → len ≤ ((source.take slen).drop i).length := by
      intro i hi
      rw [List.length_drop, List.length_take]
      omega
    rw [hahead, Run.ok_bind, hbehind, Run.ok_bind]
    split
    · rename_i hsame
      refine ⟨_, matchLoop_eq hmapped (by omega) hlen (by omega), Or.inl ?_⟩
      rw [matchLen, commonLen_of_take_eq (hlength hinput) (hlength (by omega))
        ((htake hinput hahead).trans (hsame.trans (htake (by omega) hbehind).symm)),
        List.drop_drop, List.drop_drop]
    · rename_i hdiff
      refine ⟨0, rfl, Or.inr ⟨rfl, ?_⟩⟩
      have hlt := @commonLen_lt_of_take_ne _ _ ((source.take slen).drop input)
        ((source.take slen).drop hp) len
        (by rw [htake hinput hahead, htake (by omega) hbehind]; exact hdiff)
      exact (Nat.min_le_right _ _).trans hlt.le
  · refine ⟨_, matchLoop_eq hmapped (by omega) (by omega) (by omega), Or.inl ?_⟩
    rw [Nat.zero_add, matchLen]

/-- **The loop through a linked list** is the search through its positions. -/
theorem findLoop_eq (hmapped : slen ≤ source.length) {w : Work} {input goodDrop : ℕ} {ps : List ℕ}
    (hps : ∀ p ∈ ps, p < input ∧ (w.histEntries (entryNo p)).pos = p) {fuel : ℕ}
    (hfuel : ps.length < fuel) {before : Option EntryNo} {i : EntryNo}
    (hlinked : Linked (fun e => (w.histEntries e).next) (fun e => (w.histEntries e).prev) 0 before i
      (ps.map entryNo))
    {best : ℕ × ℕ} (hbest : IsBest (source.take slen) input best) (goodMatch : ℕ) :
    findLoop source slen w input goodDrop fuel (some i) best.1 best.2 goodMatch
      = .ok ((search (source.take slen) input goodDrop ps best goodMatch).1,
        ((search (source.take slen) input goodDrop ps best goodMatch).2 : ℤ)) := by
  induction ps generalizing fuel before i best goodMatch with
  | nil =>
    obtain ⟨fuel, rfl⟩ := Nat.exists_eq_add_of_lt hfuel
    rw [findLoop, if_pos (show i = 0 from hlinked)]
    rfl
  | cons p ps ih =>
    obtain ⟨fuel, rfl⟩ := Nat.exists_eq_add_of_lt hfuel
    obtain ⟨rfl, hne, -, j, hj, htail⟩ := hlinked
    obtain ⟨hp, hpos⟩ := hps p List.mem_cons_self
    have hinside := hbest.inside
    rw [List.length_take, Nat.min_eq_left hmapped] at hinside
    obtain ⟨t, ht, hcases⟩ := thisLen_eq hmapped hp hinside.1 hinside.2
    have hsearch : (if t > best.1 then (t, (input : ℤ) - p) else (best.1, (best.2 : ℤ)))
        = ((better (source.take slen) input best p).1,
          ((better (source.take slen) input best p).2 : ℤ)) := by
      rw [better]
      rcases hcases with rfl | ⟨rfl, hle⟩
      · split
        · rw [Nat.cast_sub hp.le]
        · rfl
      · rw [if_neg (Nat.not_lt_zero _), if_neg (Nat.not_lt.mpr hle)]
    rw [findLoop, if_neg hne, hpos, search]
    by_cases hfits : 0x0fff ≤ input - p
    · rw [if_pos (show (input : ℤ) - p ≥ 0x0fff by omega), if_pos hfits]
      rfl
    · rw [if_neg (show ¬ (input : ℤ) - p ≥ 0x0fff by omega), if_neg hfits, ht, Run.ok_bind]
      simp only [hsearch, show (w.histEntries (entryNo p)).next = some j from hj]
      have hbetter := hbest.better hp hfits
      have htail' := fun fuel (hfuel : ps.length < fuel) =>
        @ih (fun q hq => hps q (List.mem_cons_of_mem p hq)) fuel hfuel _ _ htail _ hbetter
      rw [List.length_cons] at hfuel ⊢
      cases ps with
      | nil =>
        have hj0 : j = 0 := htail
        rw [if_neg (fun h => h (congrArg some hj0)), if_neg (fun h => h.1 rfl),
          htail' _ (by omega)]
        rfl
      | cons q qs =>
        have hj0 : j ≠ 0 := by
          rw [show j = entryNo q from htail.1]
          exact entryNo_ne_zero q
        rw [if_pos (fun h => hj0 (Option.some.inj h))]
        by_cases hgood : goodMatch ≤ (better (source.take slen) input best p).1
        · rw [if_pos hgood, if_pos ⟨List.cons_ne_nil q qs, hgood⟩]
          rfl
        · rw [if_neg hgood, if_neg (fun h => hgood h.2), htail' _ (by omega)]

variable (charSigned source slen mask) in
/-- The match that is found for the bytes at a position. -/
def findAt (input goodMatch goodDrop : ℕ) : Option (ℕ × ℕ) :=
  let best := search (source.take slen) input goodDrop
    (recent (keyAt charSigned source slen mask) pglzHistorySize input
      (keyAt charSigned source slen mask input)) (0, 0) goodMatch
  if best.1 > 2 then some best else none

/-- **`pglz_find_match` looks through the recent positions with the same hash**, and
the history says which these are. -/
theorem Tracks.pglzFindMatch {n : ℕ} {hist : History}
    (h : Tracks charSigned source slen mask n hist) (hmapped : slen ≤ source.length) (hn : n < slen)
    (goodMatch goodDrop : ℕ) :
    Pglz.pglzFindMatch charSigned source slen mask hist.toWork n goodMatch goodDrop
      = .ok ((findAt charSigned source slen mask n goodMatch goodDrop).map
        fun best => (best.1, (best.2 : ℤ))) := by
  obtain ⟨h₀, hh₀⟩ : ∃ h₀, keyAt charSigned source slen mask n = h₀ := ⟨_, rfl⟩
  obtain ⟨size, hsize⟩ : ∃ size, pglzHistorySize = size := ⟨_, rfl⟩
  obtain ⟨ps, hps⟩ : ∃ ps, recent (keyAt charSigned source slen mask) size n h₀ = ps := ⟨_, rfl⟩
  have hholds := h.holds
  rw [hsize] at hholds
  have hle : h₀ ≤ mask := by
    rw [← hh₀]
    exact keyAt_le n
  have hlist := hholds.lists h₀ hle
  have hmem : ∀ p ∈ ps, p < n ∧ (hist.histEntries (entryNo p)).pos = p := by
    intro p hp
    rw [← hps, mem_recent] at hp
    exact ⟨hp.1.2, (hholds.entry p hp.1.1 hp.1.2).2⟩
  have hfuel : ps.length < size + 1 := hps ▸ Nat.lt_succ_of_le length_recent_le
  have hbest : IsBest (source.take slen) n (0, 0) :=
    Or.inl ⟨rfl, by rw [List.length_take]; omega⟩
  rw [hps] at hlist
  have hloop := @findLoop_eq source slen hmapped hist.toWork n goodDrop ps hmem _ hfuel _ _ hlist _
    hbest goodMatch
  rw [Pglz.pglzFindMatch, pglzHistIdx_eq hmapped hn, Run.ok_bind, findAt, hh₀, hsize, hps]
  simp only [Nat.cast_zero] at hloop
  simp only [hloop, Run.ok_bind]
  split <;> rfl

/-- **A match that is found is one**, of at least three bytes. -/
theorem isMatch_of_findAt (hmapped : slen ≤ source.length) {input goodMatch goodDrop : ℕ}
    (hinput : input < slen) {best : ℕ × ℕ}
    (h : findAt charSigned source slen mask input goodMatch goodDrop = some best) :
    2 < best.1 ∧ IsMatch (source.take slen) input best.1 best.2 := by
  rw [findAt] at h
  split at h
  · rename_i hlen
    rw [← Option.some.inj h]
    refine ⟨hlen, ?_⟩
    have hbest := @IsBest.search (source.take slen) input goodDrop
      (recent (keyAt charSigned source slen mask) pglzHistorySize input
        (keyAt charSigned source slen mask input))
      (fun p hp => (mem_recent.mp hp).1.2) (0, 0)
      (Or.inl ⟨rfl, by rw [List.length_take]; omega⟩) goodMatch
    rcases hbest with ⟨hzero, -⟩ | hmatch
    · omega
    · exact hmatch
  · cases h

/-- **The lists of the history.** After any number of positions, from whatever the
arrays held before, each list that the mask reaches is linked both ways, ends, and has the
positions with its hash among the last `4096`, the newest first. -/
theorem exists_linked_histAddLoop (hmapped : slen ≤ source.length) (w : Work) (n : ℕ)
    (hn : n ≤ slen) :
    ∃ hist, histAddLoop charSigned source slen mask n (.start mask w) 0 = .ok hist
      ∧ ∀ h ≤ mask, ∃ nodes,
        Linked (fun e => (hist.histEntries e).next) (fun e => (hist.histEntries e).prev) 0 none
          (hist.histStart h) nodes
        ∧ nodes.map (fun e => (hist.histEntries e).pos)
          = recent (keyAt charSigned source slen mask) pglzHistorySize n h := by
  obtain ⟨hist, hloop, h⟩ := (@Tracks.start charSigned source slen mask w).histAddLoop hmapped
    (show 0 + n ≤ slen by omega)
  obtain ⟨size, hsize⟩ : ∃ size, pglzHistorySize = size := ⟨_, rfl⟩
  have hholds := h.holds
  rw [hsize, Nat.zero_add] at hholds
  refine ⟨hist, hloop, fun k hk => ⟨_, hholds.lists k hk, ?_⟩⟩
  rw [List.map_map, hsize]
  refine (List.map_congr_left fun p hp => ?_).trans (List.map_id _)
  rw [mem_recent] at hp
  exact (hholds.entry p hp.1.1 hp.1.2).2

/-- The lists of the first five bytes of a text that repeats itself, with 1024 lists. -/
theorem exists_linked_histAddLoop_abcabcabc :
    ∃ hist, histAddLoop true [97, 98, 99, 97, 98, 99, 97, 98, 99] 9 1023 5 (.start 1023 .zero) 0
        = .ok hist
      ∧ ∀ h ≤ (1023 : HIndex), ∃ nodes,
        Linked (fun e => (hist.histEntries e).next) (fun e => (hist.histEntries e).prev) 0 none
          (hist.histStart h) nodes
        ∧ nodes.map (fun e => (hist.histEntries e).pos)
          = recent (keyAt true [97, 98, 99, 97, 98, 99, 97, 98, 99] 9 1023) pglzHistorySize 5 h :=
  exists_linked_histAddLoop (by decide) .zero 5 (by decide)

/-- **The search of `pglz_find_match` is the plain one.** After any number of positions it
returns what comparing byte by byte with each recent position of the same hash returns,
without its pointers and without `memcmp`; and a match that it returns is one: of at least
three bytes, inside of the source, and with an offset that a tag can hold. -/
theorem exists_pglzFindMatch_eq (hmapped : slen ≤ source.length) (w : Work) (n : ℕ)
    (hn : n < slen) (goodMatch goodDrop : ℕ) :
    ∃ hist, histAddLoop charSigned source slen mask n (.start mask w) 0 = .ok hist
      ∧ Pglz.pglzFindMatch charSigned source slen mask hist.toWork n goodMatch goodDrop
        = .ok ((findAt charSigned source slen mask n goodMatch goodDrop).map
          fun best => (best.1, (best.2 : ℤ)))
      ∧ ∀ best ∈ findAt charSigned source slen mask n goodMatch goodDrop,
        2 < best.1 ∧ IsMatch (source.take slen) n best.1 best.2 := by
  obtain ⟨hist, hloop, h⟩ := (@Tracks.start charSigned source slen mask w).histAddLoop hmapped
    (show 0 + n ≤ slen by omega)
  rw [Nat.zero_add] at h
  exact ⟨hist, hloop, h.pglzFindMatch hmapped hn goodMatch goodDrop,
    fun best hbest => isMatch_of_findAt hmapped hn hbest⟩

/-- The search at the second occurrence of a text that repeats itself. -/
theorem exists_pglzFindMatch_eq_abcabcabc :
    ∃ hist, histAddLoop true [97, 98, 99, 97, 98, 99, 97, 98, 99] 9 1023 3 (.start 1023 .zero) 0
        = .ok hist
      ∧ Pglz.pglzFindMatch true [97, 98, 99, 97, 98, 99, 97, 98, 99] 9 1023 hist.toWork 3 128 10
        = .ok ((findAt true [97, 98, 99, 97, 98, 99, 97, 98, 99] 9 1023 3 128 10).map
          fun best => (best.1, (best.2 : ℤ)))
      ∧ ∀ best ∈ findAt true [97, 98, 99, 97, 98, 99, 97, 98, 99] 9 1023 3 128 10,
        2 < best.1
          ∧ IsMatch (List.take 9 [97, 98, 99, 97, 98, 99, 97, 98, 99]) 3 best.1 best.2 :=
  exists_pglzFindMatch_eq (by decide) .zero 3 (by decide) 128 10

end

end Pglz
