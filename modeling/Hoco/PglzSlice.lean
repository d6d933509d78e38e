import Hoco.PglzStream

/-!
# Decompressing a part of a text

A reader that wants the first bytes of a text asks the decompressor for that many
(`check_complete` is false then), and need not have all of the compressed data:
`pglz_maximum_compressed_size` says how much of it is enough. Here both are shown for
*any* data that can be decompressed as a whole, written by the compressor or not: the
short run writes the beginning of what the long run writes.

The two runs go through the same states until the short one has its bytes, so that the
argument is a simulation (`items_short`, `decompressLoop_short`). What makes the short
data enough is a count: an item takes no more bytes than it stands for, each eight items
take one more for their control byte, and only the last item read can stand for more
bytes than are still wanted.
-/

open BackReference

namespace Pglz

/-- `pglz_maximum_compressed_size`. -/
def pglzMaximumCompressedSize (rawsize totalCompressedSize : ℤ) : ℤ :=
  min ((rawsize * 9 + 7).tdiv 8 + 2) totalCompressedSize

/-! ## One item -/

theorem itemBytes_length_le (item : Item UInt8) : (itemBytes item).length ≤ 3 := by
  cases item with
  | lit b => exact Nat.le_of_ble_eq_true rfl
  | ref off len =>
    rw [itemBytes]
    split <;> simp

section

variable {source source' : Mem} {slen m : ℤ} {N n : ℕ}

/-- Bytes that are read from a memory are read from one that agrees so far. -/
theorem exists_drop_eq {bs post : Mem} {i : ℕ} (h : source.drop i = bs ++ post)
    (hagree : ∀ j : ℕ, (j : ℤ) < m → source'.load j = source.load j)
    (hm : ((i + bs.length : ℕ) : ℤ) ≤ m) : ∃ post', source'.drop i = bs ++ post' := by
  induction bs generalizing i with
  | nil => exact ⟨source'.drop i, rfl⟩
  | cons b bs ih =>
    rw [List.length_cons] at hm
    have hload : source'.load i = .ok b := by
      rw [hagree i (by omega), Mem.load_of_drop h]
    obtain ⟨post', hpost'⟩ := ih (@Mem.drop_add source [b] _ i h)
      (by rw [List.length_singleton]; omega)
    exact ⟨post', by rw [Mem.drop_of_load hload]; exact congrArg _ hpost'⟩

/-- What a reference does, when it does something. -/
theorem repeats_of_putRef {off sp len sp' : ℕ} {out out' : List UInt8}
    (h : putRef slen N out off sp len = .ok (some (sp', out'))) :
    (sp' = sp ∧ (sp : ℤ) ≤ slen) ∧ Repeats off out out'
      ∧ out'.length = out.length + min len (N - out.length) := by
  rw [putRef] at h
  split at h
  · cases h
  · rename_i hcond
    obtain ⟨out₁, hcopy, h⟩ := Run.map_eq_ok.mp h
    obtain ⟨rfl, rfl⟩ := Prod.mk.inj (Option.some.inj h)
    have hreach : off ≤ out.length := by
      rw [copyMatch] at hcopy
      split at hcopy
      · cases hcopy
      · omega
    obtain ⟨out₂, hcopy₂, hrep, hlen⟩ :=
      copyMatch_eq (show 0 < off by omega) hreach (Nat.lt_succ_self (min len (N - out.length)))
    cases hcopy.symm.trans hcopy₂
    exact ⟨⟨rfl, by omega⟩, hrep, hlen⟩

/-- An item makes the output grow, up to the size asked for, and unless that is reached
by as much as the item takes at least. -/
theorem growth_of_putItem {item : Item UInt8} {sp sp' : ℕ} {out out' : List UInt8}
    (h : putItem slen N sp out item = .ok (some (sp', out'))) (hlt : out.length < N)
    (hitem : Storable item) :
    out <+: out' ∧ (out.length < out'.length ∧ out'.length ≤ N)
      ∧ (out'.length = N ∨ (itemBytes item).length ≤ out'.length - out.length) := by
  cases item with
  | lit b =>
    cases h
    refine ⟨List.prefix_append _ _, ?_⟩
    rw [List.length_append, List.length_singleton, itemBytes, List.length_singleton]
    omega
  | ref off len =>
    obtain ⟨-, hmin, -⟩ := hitem
    obtain ⟨-, hrep, hlen⟩ := repeats_of_putRef h
    have hsize : (itemBytes (.ref off len)).length ≤ len := by
      rw [itemBytes]
      split <;> simp only [List.length_cons, List.length_nil] <;> omega
    exact ⟨hrep.begins, by omega, by omega⟩

/-- **An item in the short run** writes what it writes in the long run, or the beginning
of that. -/
theorem putItem_short (hn : n ≤ N) {item : Item UInt8} {sp sp' : ℕ} {out out' : List UInt8}
    (h : putItem slen N sp out item = .ok (some (sp', out'))) (hlt : out.length < n)
    (hm : (sp' : ℤ) ≤ m) :
    putItem m n sp out item = .ok (some (sp', out'.take n)) := by
  cases item with
  | lit b =>
    cases h
    rw [List.take_of_length_le (by rw [List.length_append, List.length_singleton]; omega)]
    rfl
  | ref off len =>
    obtain ⟨⟨rfl, -⟩, hrep, hlen⟩ := repeats_of_putRef h
    obtain ⟨out₁, hput, hrep₁, hlen₁⟩ := @exists_putRef_eq m n out off _ len hrep.pos hrep.reach hm
    rw [putItem, hput, hrep₁.eq_of_length (hrep.take (Nat.le_of_lt hlt))
      (by rw [List.length_take]; omega)]

end

/-! ## The items of a control byte -/

section

variable {source source' : Mem} {slen m : ℤ} {N n : ℕ}

/-- The output only grows. -/
theorem prefix_of_items {left ctrl sp sp' : ℕ} {out out' : List UInt8}
    (h : items source slen N left ctrl sp out = .ok (some (sp', out'))) : out <+: out' := by
  induction left generalizing ctrl sp out with
  | zero =>
    cases h
    exact List.prefix_rfl
  | succ left ih =>
    rw [items_succ] at h
    split at h
    · rename_i hcond
      obtain ⟨r, hstep, h⟩ := Run.bind_eq_ok.mp h
      cases r with
      | none => cases h
      | some r =>
        obtain ⟨sp₁, out₁⟩ := r
        obtain ⟨item, hitem, -, -, -, hput⟩ := exists_of_itemStep hstep
        exact (growth_of_putItem hput hcond.2 hitem).1.trans (ih h)
    · cases h
      exact List.prefix_rfl

/-- The place to read only moves on. -/
theorem le_of_items {left ctrl sp sp' : ℕ} {out out' : List UInt8}
    (h : items source slen N left ctrl sp out = .ok (some (sp', out'))) : sp ≤ sp' := by
  induction left generalizing ctrl sp out with
  | zero =>
    cases h
    exact Nat.le_refl _
  | succ left ih =>
    rw [items_succ] at h
    split at h
    · obtain ⟨r, hstep, h⟩ := Run.bind_eq_ok.mp h
      cases r with
      | none => cases h
      | some r =>
        obtain ⟨sp₁, out₁⟩ := r
        obtain ⟨item, -, -, hsp₁, -⟩ := exists_of_itemStep hstep
        have := ih h
        omega
    · cases h
      exact Nat.le_refl _

/-- Reading stops when there is enough output. -/
theorem items_of_length {left ctrl sp : ℕ} {out : List UInt8} (h : n ≤ out.length) :
    items source slen n left ctrl sp out = .ok (some (sp, out)) := by
  cases left with
  | zero => rfl
  | succ left => rw [items_succ, if_neg (by omega)]

/-- **How the two runs are related after a control byte**: the short one has its bytes, or
they are in the same state, and then the data are at their end or the count of the bytes
read goes on. -/
def ShortOf (slen : ℤ) (n k : ℕ) (long short : ℕ × List UInt8) : Prop :=
  n ≤ long.2.length ∧ short.2 = long.2.take n
    ∨ (long.2.length < n ∧ short = long)
      ∧ (slen ≤ long.1 ∨ long.1 ≤ long.2.length + (k + 1) ∧ 8 * (k + 1) ≤ long.2.length)

/-- **The items of a control byte in the short run.** The control byte is the one with
number `k`, and `8 - left` of its items have been read. -/
theorem items_short (hn : n ≤ N) (hagree : ∀ j : ℕ, (j : ℤ) < m → source'.load j = source.load j)
    (hm : m ≤ slen) (henough : m = slen ∨ (n + (n + 7) / 8 + 2 : ℕ) ≤ m) {k left ctrl sp sp' : ℕ}
    {out out' : List UInt8} (hleft : left ≤ 8)
    (h : items source slen N left ctrl sp out = .ok (some (sp', out'))) (hlt : out.length < n)
    (hcount : sp ≤ out.length + (k + 1) ∧ 8 * k + (8 - left) ≤ out.length) :
    ∃ r, items source' m n left ctrl sp out = .ok (some r) ∧ ShortOf slen n k (sp', out') r := by
  induction left generalizing ctrl sp out with
  | zero =>
    cases h
    exact ⟨_, rfl, Or.inr ⟨⟨hlt, rfl⟩, Or.inr (by omega)⟩⟩
  | succ left ih =>
    rw [items_succ] at h
    rw [items_succ]
    by_cases hsp : (sp : ℤ) < slen
    · rw [if_pos ⟨hsp, by omega⟩] at h
      obtain ⟨r, hstep, h⟩ := Run.bind_eq_ok.mp h
      cases r with
      | none => cases h
      | some r =>
        obtain ⟨sp₁, out₁⟩ := r
        obtain ⟨item, hitem, hbit, hsp₁, hread, hput⟩ := exists_of_itemStep hstep
        obtain ⟨hpre, hgrow, hsize⟩ := growth_of_putItem hput (by omega) hitem
        have hle₁ : (sp₁ : ℤ) ≤ slen := by
          cases item with
          | lit b =>
            rw [itemBytes, List.length_singleton] at hsp₁
            omega
          | ref off len =>
            have := (repeats_of_putRef hput).1
            omega
        have hbytes := itemBytes_length_le item
        -- the item lies inside of the short data
        have hinside : (sp₁ : ℤ) ≤ m := by omega
        obtain ⟨post', hread'⟩ := exists_drop_eq hread hagree (by omega)
        have hshort := putItem_short hn hput hlt hinside
        rw [if_pos (by omega), itemStep_eq_putItem hitem hbit hread', hshort, Run.ok_bind]
        have hlong := prefix_of_items h
        by_cases hdone : n ≤ out₁.length
        · refine ⟨(sp₁, out₁.take n), ?_, Or.inl ⟨Nat.le_trans hdone hlong.length_le, ?_⟩⟩
          · exact items_of_length (by rw [List.length_take]; omega)
          · obtain ⟨t, ht⟩ := hlong
            dsimp only
            rw [← ht, List.take_append_of_le_length hdone]
        · rw [List.take_of_length_le (by omega)]
          exact ih (by omega) h (by omega) (by omega)
    · rw [if_neg (fun hc => hsp hc.1)] at h
      cases h
      rw [if_neg (by omega)]
      exact ⟨_, rfl, Or.inr ⟨⟨hlt, rfl⟩, Or.inl (by omega)⟩⟩

/-! ## The whole run -/

/-- The output only grows. -/
theorem prefix_of_decompressLoop {fuel sp sp' : ℕ} {out out' : List UInt8}
    (h : decompressLoop source slen N fuel sp out = .ok (some (sp', out'))) : out <+: out' := by
  induction fuel generalizing sp out with
  | zero =>
    cases h
    exact List.prefix_rfl
  | succ fuel ih =>
    rw [decompressLoop] at h
    split at h
    · obtain ⟨ctrl, -, h⟩ := Run.bind_eq_ok.mp h
      obtain ⟨r, hitems, h⟩ := Run.bind_eq_ok.mp h
      cases r with
      | none => cases h
      | some r => exact (prefix_of_items hitems).trans (ih h)
    · cases h
      exact List.prefix_rfl

/-- The loop stops when there is enough output. -/
theorem decompressLoop_of_length {fuel sp : ℕ} {out : List UInt8} (h : n ≤ out.length) :
    decompressLoop source slen n fuel sp out = .ok (some (sp, out)) := by
  cases fuel with
  | zero => rfl
  | succ fuel => rw [decompressLoop, if_neg (by omega)]

/-- The loop stops at the end of the data. -/
theorem decompressLoop_of_end {fuel sp : ℕ} {out : List UInt8} (h : slen ≤ sp) :
    decompressLoop source slen N fuel sp out = .ok (some (sp, out)) := by
  cases fuel with
  | zero => rfl
  | succ fuel => rw [decompressLoop, if_neg (by omega)]

/-- **The short run writes the beginning of what the long run writes.** In both, `k`
control bytes have been read with all their items. -/
theorem decompressLoop_short (hn : n ≤ N)
    (hagree : ∀ j : ℕ, (j : ℤ) < m → source'.load j = source.load j) (hm : m ≤ slen)
    (henough : m = slen ∨ (n + (n + 7) / 8 + 2 : ℕ) ≤ m) {k fuel fuel' sp sp' : ℕ}
    {out out' : List UInt8} (hfuel : slen ≤ (sp + fuel : ℕ)) (hfuel' : m ≤ (sp + fuel' : ℕ))
    (h : decompressLoop source slen N fuel sp out = .ok (some (sp', out'))) (hlt : out.length < n)
    (hcount : sp ≤ out.length + k ∧ 8 * k ≤ out.length) :
    ∃ sp'', decompressLoop source' m n fuel' sp out = .ok (some (sp'', out'.take n)) := by
  -- at the end of the data both runs stop
  have hstop : ∀ {f f' s : ℕ} {o : List UInt8}, slen ≤ s → o.length < n →
      decompressLoop source slen N f s o = .ok (some (sp', out')) →
      ∃ sp'', decompressLoop source' m n f' s o = .ok (some (sp'', out'.take n)) := by
    intro f f' s o hs ho hrun
    rw [decompressLoop_of_end hs] at hrun
    cases hrun
    refine ⟨sp', ?_⟩
    rw [decompressLoop_of_end (by omega), List.take_of_length_le (Nat.le_of_lt ho)]
  induction fuel generalizing fuel' k sp out with
  | zero => exact hstop (by omega) hlt h
  | succ fuel ih =>
    by_cases hsp : (sp : ℤ) < slen
    · -- the control byte lies inside of the short data
      have hinside : (sp : ℤ) < m := by omega
      obtain ⟨fuel', rfl⟩ := Nat.exists_eq_add_of_lt (show 0 < fuel' by omega)
      rw [decompressLoop, if_pos ⟨hsp, by omega⟩] at h
      obtain ⟨ctrl, hctrl, h⟩ := Run.bind_eq_ok.mp h
      obtain ⟨r, hitems, h⟩ := Run.bind_eq_ok.mp h
      cases r with
      | none => cases h
      | some r =>
        obtain ⟨sp₁, out₁⟩ := r
        dsimp only at h
        obtain ⟨⟨sp₂, out₂⟩, hitems', hshort⟩ := @items_short source source' slen m N n hn hagree hm
          henough k 8 ctrl.toNat (sp + 1) sp₁ out out₁ (Nat.le_refl 8) hitems hlt (by omega)
        have hlong := prefix_of_decompressLoop h
        rw [decompressLoop, if_pos ⟨hinside, hlt⟩, hagree sp hinside, hctrl, Run.ok_bind, hitems',
          Run.ok_bind]
        dsimp only
        rcases hshort with ⟨hdone, hout⟩ | ⟨⟨hlt₁, hsame⟩, hnext⟩
        · dsimp only at hdone hout
          refine ⟨sp₂, ?_⟩
          rw [decompressLoop_of_length (by rw [hout, List.length_take]; omega), hout]
          obtain ⟨t, ht⟩ := hlong
          rw [← ht, List.take_append_of_le_length hdone]
        · cases hsame
          dsimp only at hlt₁ hnext
          rcases hnext with hend | hcount₁
          · exact hstop hend hlt₁ h
          · have hgrow := le_of_items hitems
            exact @ih (k + 1) (0 + fuel') sp₁ out₁ (by omega) (by omega) h hlt₁ hcount₁
    · exact hstop (by omega) hlt h

/-- What a run that does not return `-1` has written. -/
theorem exists_decompressLoop_of_pglzDecompress {checkComplete : Bool} {v : ℤ} {full : List UInt8}
    (h : pglzDecompress source slen N checkComplete = .ok (v, full)) (hv : v ≠ -1) :
    ∃ sp, decompressLoop source slen N slen.toNat 0 [] = .ok (some (sp, full)) ∧ v = full.length
      ∧ (checkComplete = true → full.length = N ∧ (sp : ℤ) = slen) := by
  obtain ⟨r, hloop, h⟩ := Run.bind_eq_ok.mp h
  cases r with
  | none =>
    cases h
    exact absurd rfl hv
  | some r =>
    obtain ⟨sp, out⟩ := r
    dsimp only at h
    split at h
    · cases h
      exact absurd rfl hv
    · rename_i hcond
      cases h
      exact ⟨sp, hloop, rfl, fun hc => by
        constructor <;> by_contra hne <;> exact hcond ⟨hc, by simp [hne]⟩⟩

/-- A run that is not asked for everything returns what it has written. -/
theorem pglzDecompress_of_decompressLoop {sp : ℕ} {out : List UInt8}
    (h : decompressLoop source slen n slen.toNat 0 [] = .ok (some (sp, out))) :
    pglzDecompress source slen n false = .ok (out.length, out) := by
  rw [pglzDecompress, h, Run.ok_bind]
  exact if_neg (fun hc => Bool.false_ne_true hc.1)

/-- The short run, from the start. -/
theorem pglzDecompress_short (hn : n ≤ N)
    (hagree : ∀ j : ℕ, (j : ℤ) < m → source'.load j = source.load j) (hm : m ≤ slen)
    (henough : m = slen ∨ (n + (n + 7) / 8 + 2 : ℕ) ≤ m) {checkComplete : Bool} {v : ℤ}
    {full : List UInt8} (h : pglzDecompress source slen N checkComplete = .ok (v, full))
    (hv : v ≠ -1) :
    pglzDecompress source' m n false = .ok ((full.take n).length, full.take n) := by
  obtain ⟨sp, hloop, -⟩ := exists_decompressLoop_of_pglzDecompress h hv
  rcases Nat.eq_zero_or_pos n with rfl | hpos
  · rw [List.take_zero]
    exact pglzDecompress_of_decompressLoop (decompressLoop_of_length (Nat.zero_le _))
  · obtain ⟨sp'', hshort⟩ := @decompressLoop_short source source' slen m N n hn hagree hm henough 0
      slen.toNat m.toNat 0 sp [] full (by omega) (by omega) hloop hpos ⟨Nat.zero_le _, Nat.zero_le _⟩
    exact pglzDecompress_of_decompressLoop hshort

/-- **The front of a text is exactly what was asked for.** For any data and any size for
which the decompressor does not return `-1`: asked for fewer bytes, it returns so many, and
they are the first ones of the text. -/
theorem pglzDecompress_take {checkComplete : Bool} {v : ℤ} {full : List UInt8}
    (h : pglzDecompress source slen N checkComplete = .ok (v, full)) (hv : v ≠ -1) (hn : n ≤ N) :
    pglzDecompress source slen n false = .ok ((full.take n).length, full.take n) :=
  pglzDecompress_short hn (fun _ _ => rfl) (Int.le_refl _) (Or.inl rfl) h hv

end

/-! ## How much of the data is enough -/

section

variable {source source' : Mem} {slen : ℤ} {N n : ℕ}

theorem pglzMaximumCompressedSize_natCast (n : ℕ) (total : ℤ) :
    pglzMaximumCompressedSize n total = min ((n + (n + 7) / 8 + 2 : ℕ) : ℤ) total := by
  rw [pglzMaximumCompressedSize, Int.tdiv_eq_ediv_of_nonneg (by omega)]
  congr 1
  omega

/-- **`pglz_maximum_compressed_size` is enough.** For any data that can be decompressed, so
many of their bytes, with whatever behind them, give the first `n` bytes of the text. -/
theorem pglzDecompress_maximumCompressedSize {checkComplete : Bool} {v : ℤ} {full : List UInt8}
    (h : pglzDecompress source slen N checkComplete = .ok (v, full)) (hv : v ≠ -1) (hn : n ≤ N)
    (hagree : ∀ j : ℕ, (j : ℤ) < pglzMaximumCompressedSize n slen →
      source'.load j = source.load j) :
    pglzDecompress source' (pglzMaximumCompressedSize n slen) n false
      = .ok ((full.take n).length, full.take n) := by
  rw [pglzMaximumCompressedSize_natCast] at hagree ⊢
  refine pglzDecompress_short hn hagree (Int.min_le_right _ _) ?_ h hv
  omega

/-- For the first byte of a run of forty, four of its five bytes are read. -/
theorem pglzDecompress_maximumCompressedSize_one :
    pglzDecompress [0x02, 0x61, 0x0f, 0x01] (pglzMaximumCompressedSize (1 : ℕ) 5) 1 false
      = .ok (((List.replicate 40 (0x61 : UInt8)).take 1).length, (List.replicate 40 0x61).take 1) :=
  @pglzDecompress_maximumCompressedSize [0x02, 0x61, 0x0f, 0x01, 0x15] [0x02, 0x61, 0x0f, 0x01] 5
    40 1 true 40 (List.replicate 40 0x61) (by decide) (by decide) (by decide) (fun j hj => by
      rw [pglzMaximumCompressedSize_natCast] at hj
      have hlt : j < 4 := by omega
      clear hj
      revert j
      decide)

/-- The count of the bytes read, over the items of a control byte: it is bounded by the
output, also when the last item stands for more than is asked for. -/
theorem count_of_items {k left ctrl sp sp' : ℕ} {out out' : List UInt8} (hleft : left ≤ 8)
    (h : items source slen N left ctrl sp out = .ok (some (sp', out'))) (hle : out.length ≤ N)
    (hcount : sp ≤ out.length + (k + 1) ∧ 8 * k + (8 - left) ≤ out.length) :
    (sp' ≤ N + (N + 7) / 8 + 2 ∧ out'.length ≤ N)
      ∧ (out'.length = N ∨ slen ≤ sp'
        ∨ sp' ≤ out'.length + (k + 1) ∧ 8 * (k + 1) ≤ out'.length) := by
  induction left generalizing ctrl sp out with
  | zero =>
    cases h
    omega
  | succ left ih =>
    rw [items_succ] at h
    split at h
    · rename_i hcond
      obtain ⟨r, hstep, h⟩ := Run.bind_eq_ok.mp h
      cases r with
      | none => cases h
      | some r =>
        obtain ⟨sp₁, out₁⟩ := r
        obtain ⟨item, hitem, -, hsp₁, -, hput⟩ := exists_of_itemStep hstep
        obtain ⟨-, hgrow, hsize⟩ := growth_of_putItem hput hcond.2 hitem
        have hbytes := itemBytes_length_le item
        rcases hsize with hfull | hsize
        · -- the item fills the output
          have h : items source slen N left (ctrl / 2) sp₁ out₁ = .ok (some (sp', out')) := h
          rw [items_of_length (Nat.le_of_eq hfull.symm)] at h
          cases h
          omega
        · exact ih (by omega) h (by omega) (by omega)
    · cases h
      omega

/-- The same over the whole run. -/
theorem count_of_decompressLoop {k fuel sp sp' : ℕ} {out out' : List UInt8}
    (h : decompressLoop source slen N fuel sp out = .ok (some (sp', out'))) (hle : out.length ≤ N)
    (hcount : sp ≤ out.length + k ∧ 8 * k ≤ out.length) : sp' ≤ N + (N + 7) / 8 + 2 := by
  induction fuel generalizing k sp out with
  | zero =>
    cases h
    omega
  | succ fuel ih =>
    rw [decompressLoop] at h
    split at h
    · rename_i hcond
      obtain ⟨ctrl, -, h⟩ := Run.bind_eq_ok.mp h
      obtain ⟨r, hitems, h⟩ := Run.bind_eq_ok.mp h
      cases r with
      | none => cases h
      | some r =>
        obtain ⟨sp₁, out₁⟩ := r
        dsimp only at h
        obtain ⟨hbound, hnext⟩ := @count_of_items source slen N k 8 ctrl.toNat (sp + 1) sp₁ out out₁
          (Nat.le_refl 8) hitems hle (by omega)
        rcases hnext with hfull | hend | hcount₁
        · rw [decompressLoop_of_length (Nat.le_of_eq hfull.symm)] at h
          cases h
          exact hbound.1
        · rw [decompressLoop_of_end hend] at h
          cases h
          exact hbound.1
        · exact ih h hbound.2 hcount₁
    · cases h
      omega

/-- **Data that decompress to a text as a whole** are no longer than
`pglz_maximum_compressed_size` allows for it. -/
theorem pglzMaximumCompressedSize_eq_of_complete {v : ℤ} {full : List UInt8}
    (h : pglzDecompress source slen N true = .ok (v, full)) (hv : v ≠ -1) (hn : N ≤ n) :
    pglzMaximumCompressedSize n slen = slen := by
  obtain ⟨sp, hloop, -, hend⟩ := exists_decompressLoop_of_pglzDecompress h hv
  have hcount := @count_of_decompressLoop source slen N 0 slen.toNat 0 sp [] full hloop
    (Nat.zero_le _) ⟨Nat.zero_le _, Nat.zero_le _⟩
  have hsp := (hend rfl).2
  rw [pglzMaximumCompressedSize_natCast]
  omega

end

end Pglz
