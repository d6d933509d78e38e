import Hoco.PglzSlice

/-!
# The decompressor on any data

`pglz_decompress` is handed data that came from a disk, and it checks little of them.
`Pglz.pglzDecompress` collects the output in a list of its own and ends in a fault when
a tag reaches back before it. Here the function is taken as the code has it: it writes
into a memory in which its destination is one part, and a tag may reach what lies
before the destination.

The two levels are connected by `itemsInto_of_items` and `decompressLoopInto_of_loop`:
as long as the list version does not fault, the memory is at every point the output so
far laid over the memory as it was (`overlay`). With room for every offset before the
destination the list version does not fault at all, whatever the data are
(`exists_decompressLoop_eq`).
-/

open BackReference Mem

namespace Pglz

/-! ## The function -/

/-- The copy of a match, by `memcpy` from the memory into itself. -/
def copyMatchInto : ℕ → Mem → ℕ → ℕ → ℕ → Run (ℕ × Mem)
  | 0, _, _, _, _ => .error .fault
  | fuel + 1, mem, dp, off, len =>
    if dp < off then .error .fault
    else if off < len then do
      let stretch ← mem.copy (dp - off) off
      let mem ← mem.storeAll dp stretch
      copyMatchInto fuel mem (dp + off) (off + off) (len - off)
    else do
      let stretch ← mem.copy (dp - off) len
      let mem ← mem.storeAll dp stretch
      return (dp + len, mem)

/-- One item: the places to read and to write after it, or nothing where the function
returns `-1`, and the memory. -/
def itemInto (source : Mem) (slen : ℤ) (destend ctrl sp dp : ℕ) (mem : Mem) :
    Run (Option (ℕ × ℕ) × Mem) :=
  if ctrl % 2 = 1 then do
    let (off, sp, len) ← readTag source sp
    if (sp : ℤ) > slen ∨ off = 0 then return (none, mem)
    let len := min len (destend - dp)
    let (dp, mem) ← copyMatchInto (len + 1) mem dp off len
    return (some (sp, dp), mem)
  else do
    let b ← source.load sp
    let mem ← mem.store dp b
    return (some (sp + 1, dp + 1), mem)

/-- The items of one control byte. -/
def itemsInto (source : Mem) (slen : ℤ) (destend : ℕ) :
    ℕ → ℕ → ℕ → ℕ → Mem → Run (Option (ℕ × ℕ) × Mem)
  | 0, _, sp, dp, mem => .ok (some (sp, dp), mem)
  | left + 1, ctrl, sp, dp, mem =>
    if (sp : ℤ) < slen ∧ dp < destend then do
      match ← itemInto source slen destend ctrl sp dp mem with
      | (none, mem) => return (none, mem)
      | (some (sp, dp), mem) => itemsInto source slen destend left (ctrl / 2) sp dp mem
    else .ok (some (sp, dp), mem)

/-- The outer loop. -/
def decompressLoopInto (source : Mem) (slen : ℤ) (destend : ℕ) :
    ℕ → ℕ → ℕ → Mem → Run (Option (ℕ × ℕ) × Mem)
  | 0, sp, dp, mem => .ok (some (sp, dp), mem)
  | fuel + 1, sp, dp, mem =>
    if (sp : ℤ) < slen ∧ dp < destend then do
      let ctrl ← source.load sp
      match ← itemsInto source slen destend 8 ctrl.toNat (sp + 1) dp mem with
      | (none, mem) => return (none, mem)
      | (some (sp, dp), mem) => decompressLoopInto source slen destend fuel sp dp mem
    else .ok (some (sp, dp), mem)

/-- The return value, from the places at which the loop ends. -/
def returned (slen : ℤ) (dest rawsize : ℕ) (checkComplete : Bool) : Option (ℕ × ℕ) → ℤ
  | none => -1
  | some (sp, dp) =>
    if checkComplete ∧ (dp ≠ dest + rawsize ∨ (sp : ℤ) ≠ slen) then -1 else dp - dest

/-- **`pglz_decompress` in the memory `mem`**, in which the destination begins at `dest`:
the return value and the memory it leaves. -/
def pglzDecompressInto (source : Mem) (slen : ℤ) (mem : Mem) (dest rawsize : ℕ)
    (checkComplete : Bool) : Run (ℤ × Mem) := do
  let (places, mem) ← decompressLoopInto source slen (dest + rawsize) slen.toNat 0 dest mem
  return (returned slen dest rawsize checkComplete places, mem)

/-! ## The memory at every point -/

section

variable {source mem₀ : Mem} {slen : ℤ} {N : ℕ}

/-- **A copy in the memory** is the copy on the output, faults included. -/
theorem copyMatchInto_eq {fuel off len : ℕ} {out : List UInt8}
    (hroom : out.length + len ≤ mem₀.length) :
    copyMatchInto fuel (overlay mem₀ out) out.length off len
      = (fun out' => (out'.length, overlay mem₀ out')) <$> copyMatch fuel out off len := by
  induction fuel generalizing out off len with
  | zero => rfl
  | succ fuel ih =>
    rw [copyMatchInto, copyMatch]
    split
    · rfl
    · rename_i hreach
      dsimp only
      split
      · rename_i hlong
        have hstretch : (out.drop (out.length - off)).length = off := by
          rw [List.length_drop]
          omega
        rw [copy_overlay (by omega), Run.ok_bind, List.take_of_length_le (Nat.le_of_eq hstretch),
          storeAll_overlay (by omega), Run.ok_bind]
        have hnext := @ih (off + off) (len - off) (out ++ out.drop (out.length - off))
          (by rw [List.length_append]; omega)
        rw [List.length_append, hstretch] at hnext
        exact hnext
      · have hstretch : ((out.drop (out.length - off)).take len).length = len := by
          rw [List.length_take, List.length_drop]
          omega
        rw [copy_overlay (by omega), Run.ok_bind, storeAll_overlay (by omega), Run.ok_bind]
        refine congrArg Except.ok (Prod.ext ?_ rfl)
        dsimp only
        rw [List.length_append, hstretch]

/-- **How a state in the memory belongs to one on lists**: the places agree, and the memory
is an output within bounds over the memory as it was. Where the list version has stopped,
only that is left. -/
def Lies (mem₀ : Mem) (N : ℕ) (out : List UInt8) (r : Option (ℕ × List UInt8))
    (r' : Option (ℕ × ℕ) × Mem) : Prop :=
  ∃ out', (out <+: out' ∧ out'.length ≤ N) ∧ (∀ p ∈ r, p.2 = out')
    ∧ r' = (r.map (fun p => (p.1, p.2.length)), overlay mem₀ out')

/-- An item in the memory. -/
theorem itemInto_of_itemStep (hN : N ≤ mem₀.length) {ctrl sp : ℕ} {out : List UInt8}
    {r : Option (ℕ × List UInt8)} (hlt : out.length < N)
    (h : itemStep source slen N ctrl sp out = .ok r) :
    ∃ r', itemInto source slen N ctrl sp out.length (overlay mem₀ out) = .ok r'
      ∧ Lies mem₀ N out r r' := by
  rw [itemStep] at h
  rw [itemInto]
  split at h
  · rename_i hctrl
    rw [if_pos hctrl]
    obtain ⟨⟨off, sp₁, len⟩, htag, h⟩ := Run.bind_eq_ok.mp h
    rw [htag, Run.ok_bind]
    dsimp only
    rw [putRef] at h
    split at h
    · rename_i hbad
      cases h
      rw [if_pos hbad]
      exact ⟨_, rfl, out, ⟨List.prefix_rfl, Nat.le_of_lt hlt⟩, fun p hp => (by cases hp), rfl⟩
    · rename_i hgood
      rw [if_neg hgood]
      obtain ⟨out₁, hcopy, h⟩ := Run.map_eq_ok.mp h
      obtain ⟨-, hrep, hlen⟩ := @repeats_of_putRef slen N off sp₁ len sp₁ out out₁ (by
        rw [putRef, if_neg hgood, hcopy]
        rfl)
      subst h
      have hinto := @copyMatchInto_eq mem₀ (min len (N - out.length) + 1) off
        (min len (N - out.length)) out (by omega)
      rw [hcopy] at hinto
      refine ⟨(some (sp₁, out₁.length), overlay mem₀ out₁), ?_, out₁, ⟨hrep.begins, by omega⟩,
        fun p hp => (by cases hp; rfl), rfl⟩
      rw [hinto]
      rfl
  · rename_i hctrl
    rw [if_neg hctrl]
    obtain ⟨b, hb, h⟩ := Run.map_eq_ok.mp h
    subst h
    rw [hb, Run.ok_bind, store_overlay (by omega), Run.ok_bind]
    have hlen : (out ++ [b]).length = out.length + 1 := by
      rw [List.length_append, List.length_singleton]
    refine ⟨_, rfl, out ++ [b], ⟨List.prefix_append _ _, by omega⟩, fun p hp => (by cases hp; rfl), ?_⟩
    rw [← hlen]
    rfl

/-- **The items of a control byte in the memory.** -/
theorem itemsInto_of_items (hN : N ≤ mem₀.length) {left ctrl sp : ℕ} {out : List UInt8}
    {r : Option (ℕ × List UInt8)} (hle : out.length ≤ N)
    (h : items source slen N left ctrl sp out = .ok r) :
    ∃ r', itemsInto source slen N left ctrl sp out.length (overlay mem₀ out) = .ok r'
      ∧ Lies mem₀ N out r r' := by
  induction left generalizing ctrl sp out with
  | zero =>
    cases h
    exact ⟨_, rfl, out, ⟨List.prefix_rfl, hle⟩, fun p hp => (by cases hp; rfl), rfl⟩
  | succ left ih =>
    rw [items_succ] at h
    rw [itemsInto]
    split at h
    · rename_i hcond
      obtain ⟨r₁, hstep, h⟩ := Run.bind_eq_ok.mp h
      obtain ⟨-, hinto, out₁, hout₁, hp₁, rfl⟩ := itemInto_of_itemStep hN hcond.2 hstep
      rw [if_pos hcond, hinto, Run.ok_bind]
      cases r₁ with
      | none =>
        cases h
        exact ⟨_, rfl, out₁, hout₁, fun p hp => (by cases hp), rfl⟩
      | some p =>
        obtain ⟨sp₁, out₂⟩ := p
        obtain rfl : out₂ = out₁ := hp₁ _ rfl
        obtain ⟨r', hnext, out', hout', hp', hr'⟩ := ih hout₁.2 h
        exact ⟨r', hnext, out', ⟨hout₁.1.trans hout'.1, hout'.2⟩, hp', hr'⟩
    · rename_i hcond
      cases h
      rw [if_neg hcond]
      exact ⟨_, rfl, out, ⟨List.prefix_rfl, hle⟩, fun p hp => (by cases hp; rfl), rfl⟩

/-- **The whole run in the memory.** -/
theorem decompressLoopInto_of_loop (hN : N ≤ mem₀.length) {fuel sp : ℕ} {out : List UInt8}
    {r : Option (ℕ × List UInt8)} (hle : out.length ≤ N)
    (h : decompressLoop source slen N fuel sp out = .ok r) :
    ∃ r', decompressLoopInto source slen N fuel sp out.length (overlay mem₀ out) = .ok r'
      ∧ Lies mem₀ N out r r' := by
  induction fuel generalizing sp out with
  | zero =>
    cases h
    exact ⟨_, rfl, out, ⟨List.prefix_rfl, hle⟩, fun p hp => (by cases hp; rfl), rfl⟩
  | succ fuel ih =>
    rw [decompressLoop] at h
    rw [decompressLoopInto]
    split at h
    · rename_i hcond
      obtain ⟨ctrl, hctrl, h⟩ := Run.bind_eq_ok.mp h
      obtain ⟨r₁, hitems, h⟩ := Run.bind_eq_ok.mp h
      obtain ⟨-, hinto, out₁, hout₁, hp₁, rfl⟩ := itemsInto_of_items hN hle hitems
      rw [if_pos hcond, hctrl, Run.ok_bind, hinto, Run.ok_bind]
      cases r₁ with
      | none =>
        cases h
        exact ⟨_, rfl, out₁, hout₁, fun p hp => (by cases hp), rfl⟩
      | some p =>
        obtain ⟨sp₁, out₂⟩ := p
        obtain rfl : out₂ = out₁ := hp₁ _ rfl
        obtain ⟨r', hnext, out', hout', hp', hr'⟩ := ih hout₁.2 h
        exact ⟨r', hnext, out', ⟨hout₁.1.trans hout'.1, hout'.2⟩, hp', hr'⟩
    · rename_i hcond
      cases h
      rw [if_neg hcond]
      exact ⟨_, rfl, out, ⟨List.prefix_rfl, hle⟩, fun p hp => (by cases hp; rfl), rfl⟩

end

/-! ## Any data -/

section

variable {source : Mem} {slen : ℤ} {N : ℕ}

/-- With two bytes mapped behind the data a tag can be read at any place in them. -/
theorem exists_readTag_eq {sp : ℕ} (h : sp + 2 < source.length) :
    ∃ tag, readTag source sp = .ok tag := by
  obtain ⟨b₀, hb₀⟩ := Mem.exists_load_iff.mpr (show sp < source.length by omega)
  obtain ⟨b₁, hb₁⟩ := Mem.exists_load_iff.mpr (show sp + 1 < source.length by omega)
  obtain ⟨b₂, hb₂⟩ := Mem.exists_load_iff.mpr h
  rw [readTag, hb₀, Run.ok_bind, hb₁, Run.ok_bind, hb₂]
  split <;> exact ⟨_, rfl⟩

/-- **An item never faults** when every offset a tag can hold stays in the output. -/
theorem exists_itemStep_eq (hsource : slen + 2 ≤ source.length) {ctrl sp : ℕ} {out : List UInt8}
    (hreach : 4095 ≤ out.length) (hsp : (sp : ℤ) < slen) :
    ∃ r, itemStep source slen N ctrl sp out = .ok r := by
  rw [itemStep]
  split
  · obtain ⟨⟨off, sp₁, len⟩, htag⟩ := @exists_readTag_eq source sp (by omega)
    have hoff := (exists_of_readTag htag).1.1
    rw [htag, Run.ok_bind]
    dsimp only
    by_cases hbad : (sp₁ : ℤ) > slen ∨ off = 0
    · exact ⟨none, if_pos hbad⟩
    · obtain ⟨out', hput, -⟩ := @exists_putRef_eq slen N out off sp₁ len (by omega) (by omega)
        (by omega)
      exact ⟨_, hput⟩
  · obtain ⟨b, hb⟩ := Mem.exists_load_iff.mpr (show sp < source.length by omega)
    rw [hb]
    exact ⟨_, rfl⟩

/-- The items of a control byte never fault. -/
theorem exists_items_eq (hsource : slen + 2 ≤ source.length) {left ctrl sp : ℕ} {out : List UInt8}
    (hreach : 4095 ≤ out.length) : ∃ r, items source slen N left ctrl sp out = .ok r := by
  induction left generalizing ctrl sp out with
  | zero => exact ⟨_, rfl⟩
  | succ left ih =>
    rw [items_succ]
    split
    · rename_i hcond
      obtain ⟨r, hstep⟩ := @exists_itemStep_eq source slen N hsource ctrl sp out hreach hcond.1
      rw [hstep, Run.ok_bind]
      cases r with
      | none => exact ⟨none, rfl⟩
      | some p =>
        obtain ⟨item, hitem, -, -, -, hput⟩ := exists_of_itemStep hstep
        have hgrow := (growth_of_putItem hput hcond.2 hitem).2.1
        exact ih (by omega)
    · exact ⟨_, rfl⟩

/-- **The run never faults**, whatever the data are. -/
theorem exists_decompressLoop_eq (hsource : slen + 2 ≤ source.length) {fuel sp : ℕ}
    {out : List UInt8} (hreach : 4095 ≤ out.length) :
    ∃ r, decompressLoop source slen N fuel sp out = .ok r := by
  induction fuel generalizing sp out with
  | zero => exact ⟨_, rfl⟩
  | succ fuel ih =>
    rw [decompressLoop]
    split
    · obtain ⟨ctrl, hctrl⟩ := Mem.exists_load_iff.mpr (show sp < source.length by omega)
      obtain ⟨r, hitems⟩ := @exists_items_eq source slen N hsource 8 ctrl.toNat (sp + 1) out hreach
      rw [hctrl, Run.ok_bind, hitems, Run.ok_bind]
      cases r with
      | none => exact ⟨none, rfl⟩
      | some p =>
        have hgrow := (prefix_of_items hitems).length_le
        exact ih (by omega)
    · exact ⟨_, rfl⟩

end

section

variable {source before room after : Mem} {slen : ℤ} {checkComplete : Bool}

/-- **On any data the decompressor keeps to its destination.** Whatever the data are, when
two bytes behind them and the 4095 bytes before the destination are mapped it returns; it
writes into the destination only, from its front; and it returns `-1` or the number of the
bytes it wrote. -/
theorem exists_pglzDecompressInto_eq (hsource : slen + 2 ≤ source.length)
    (hbefore : 4095 ≤ before.length) (room after : Mem) (checkComplete : Bool) :
    ∃ v written, pglzDecompressInto source slen (before ++ room ++ after) before.length room.length
        checkComplete = .ok (v, before ++ written ++ room.drop written.length ++ after)
      ∧ written.length ≤ room.length
      ∧ (v = -1 ∨ v = written.length ∧ (checkComplete = true → written.length = room.length)) := by
  obtain ⟨r, hloop⟩ := @exists_decompressLoop_eq source slen (before.length + room.length) hsource
    slen.toNat 0 before hbefore
  obtain ⟨-, hinto, out, ⟨⟨written, rfl⟩, hout⟩, hplaces, rfl⟩ :=
    @decompressLoopInto_of_loop source (before ++ room ++ after) slen (before.length + room.length)
      (by simp only [List.length_append]; omega) slen.toNat 0 before r (by omega) hloop
  rw [List.length_append] at hout
  have hwritten : written.length ≤ room.length := by omega
  rw [overlay_front, overlay_append before room after written hwritten] at hinto
  refine ⟨_, written, by rw [pglzDecompressInto, hinto, Run.ok_bind]; rfl, hwritten, ?_⟩
  cases r with
  | none => exact Or.inl rfl
  | some p =>
    obtain ⟨sp, out⟩ := p
    obtain rfl : out = before ++ written := hplaces _ rfl
    rw [Option.map_some, returned, List.length_append]
    split
    · exact Or.inl rfl
    · rename_i hcomplete
      refine Or.inr ⟨by omega, fun hc => ?_⟩
      by_contra hne
      exact hcomplete ⟨hc, Or.inl (by omega)⟩

/-- A tag that reaches back as far as a tag can. -/
theorem exists_pglzDecompressInto_eq_reach :
    ∃ v written, pglzDecompressInto [0x01, 0xf0, 0xff, 0, 0] 3
        (List.replicate 4095 7 ++ [1, 2] ++ [9]) (List.replicate 4095 (7 : UInt8)).length
        ([1, 2] : Mem).length true
        = .ok (v, List.replicate 4095 7 ++ written ++ List.drop written.length [1, 2] ++ [9])
      ∧ written.length ≤ ([1, 2] : Mem).length
      ∧ (v = -1 ∨ v = written.length ∧ (true = true → written.length = ([1, 2] : Mem).length)) :=
  exists_pglzDecompressInto_eq (by decide) (Nat.le_of_eq List.length_replicate.symm) [1, 2] [9] true

end

/-! ## Data that keep to their own output -/

section

variable {source : Mem} {slen : ℤ} {N : ℕ}

/-- What lies before the output is carried along by a copy. -/
theorem copyMatch_append {before out out' : List UInt8} {fuel off len : ℕ}
    (h : copyMatch fuel out off len = .ok out') :
    copyMatch fuel (before ++ out) off len = .ok (before ++ out') := by
  induction fuel generalizing out off len with
  | zero => cases h
  | succ fuel ih =>
    rw [copyMatch] at h
    split at h
    · cases h
    · rename_i hreach
      have hstretch : (before ++ out).drop ((before ++ out).length - off)
          = out.drop (out.length - off) := by
        rw [List.length_append, Nat.add_sub_assoc (by omega), ← List.drop_drop, List.drop_left]
      rw [copyMatch, if_neg (by rw [List.length_append]; omega)]
      dsimp only at h ⊢
      rw [hstretch]
      split at h
      · rename_i hlong
        rw [if_pos hlong, List.append_assoc]
        exact ih h
      · rename_i hshort
        cases h
        rw [if_neg hshort, List.append_assoc]

/-- The same for an item. -/
theorem itemStep_append {before out : List UInt8} {ctrl sp : ℕ} {r : Option (ℕ × List UInt8)}
    (h : itemStep source slen N ctrl sp out = .ok r) :
    itemStep source slen (before.length + N) ctrl sp (before ++ out)
      = .ok (r.map (fun p => (p.1, before ++ p.2))) := by
  rw [itemStep] at h ⊢
  split at h
  · rename_i hctrl
    rw [if_pos hctrl]
    obtain ⟨tag, htag, h⟩ := Run.bind_eq_ok.mp h
    rw [htag, Run.ok_bind]
    rw [putRef] at h ⊢
    split at h
    · rename_i hbad
      cases h
      rw [if_pos hbad]
      rfl
    · rename_i hgood
      obtain ⟨out', hcopy, rfl⟩ := Run.map_eq_ok.mp h
      rw [if_neg hgood, List.length_append, Nat.add_sub_add_left, copyMatch_append hcopy]
      rfl
  · rename_i hctrl
    rw [if_neg hctrl]
    obtain ⟨b, hb, rfl⟩ := Run.map_eq_ok.mp h
    rw [hb]
    exact congrArg (fun o => Except.ok (some (sp + 1, o))) (List.append_assoc before out [b])

/-- The same for the items of a control byte. -/
theorem items_append {before out : List UInt8} {left ctrl sp : ℕ} {r : Option (ℕ × List UInt8)}
    (h : items source slen N left ctrl sp out = .ok r) :
    items source slen (before.length + N) left ctrl sp (before ++ out)
      = .ok (r.map (fun p => (p.1, before ++ p.2))) := by
  induction left generalizing ctrl sp out with
  | zero =>
    cases h
    rfl
  | succ left ih =>
    rw [items_succ] at h ⊢
    rw [List.length_append]
    split at h
    · rename_i hcond
      obtain ⟨r₁, hstep, h⟩ := Run.bind_eq_ok.mp h
      rw [if_pos (by omega), itemStep_append hstep, Run.ok_bind]
      cases r₁ with
      | none =>
        cases h
        rfl
      | some p => exact ih h
    · rename_i hcond
      cases h
      rw [if_neg (by omega)]
      rfl

/-- The same for the whole run. -/
theorem decompressLoop_append {before out : List UInt8} {fuel sp : ℕ}
    {r : Option (ℕ × List UInt8)} (h : decompressLoop source slen N fuel sp out = .ok r) :
    decompressLoop source slen (before.length + N) fuel sp (before ++ out)
      = .ok (r.map (fun p => (p.1, before ++ p.2))) := by
  induction fuel generalizing sp out with
  | zero =>
    cases h
    rfl
  | succ fuel ih =>
    rw [decompressLoop] at h ⊢
    rw [List.length_append]
    split at h
    · rename_i hcond
      obtain ⟨ctrl, hctrl, h⟩ := Run.bind_eq_ok.mp h
      obtain ⟨r₁, hitems, h⟩ := Run.bind_eq_ok.mp h
      rw [if_pos (by omega), hctrl, Run.ok_bind, items_append hitems, Run.ok_bind]
      cases r₁ with
      | none =>
        cases h
        rfl
      | some p => exact ih h
    · rename_i hcond
      cases h
      rw [if_neg (by omega)]
      rfl

/-- **The two levels agree.** Where the list version returns a text, the decompressor in
any memory returns the same value and leaves that text in its destination. -/
theorem pglzDecompressInto_of_pglzDecompress {room : Mem} {checkComplete : Bool} {v : ℤ}
    {text : List UInt8} (h : pglzDecompress source slen room.length checkComplete = .ok (v, text))
    (hv : v ≠ -1) (before after : Mem) :
    pglzDecompressInto source slen (before ++ room ++ after) before.length room.length checkComplete
      = .ok (v, before ++ text ++ room.drop text.length ++ after) := by
  obtain ⟨sp, hloop, rfl, hend⟩ := exists_decompressLoop_of_pglzDecompress h hv
  have hloop' := @decompressLoop_append source slen room.length before [] slen.toNat 0 _ hloop
  rw [List.append_nil] at hloop'
  obtain ⟨-, hinto, out, hout, hplaces, rfl⟩ :=
    @decompressLoopInto_of_loop source (before ++ room ++ after) slen (before.length + room.length)
      (by simp only [List.length_append]; omega) slen.toNat 0 before _ (by omega) hloop'
  obtain rfl : before ++ text = out := hplaces _ rfl
  have hle := hout.2
  rw [List.length_append] at hle
  rw [overlay_front, overlay_append before room after text (by omega)] at hinto
  rw [pglzDecompressInto, hinto, Run.ok_bind]
  refine congrArg Except.ok (Prod.ext ?_ rfl)
  dsimp only [Option.map_some, returned]
  rw [List.length_append, if_neg]
  · omega
  · rintro ⟨hc, hne⟩
    have := hend hc
    omega

/-- A text of four bytes, between two others. -/
theorem pglzDecompressInto_of_pglzDecompress_between :
    pglzDecompressInto [0x02, 0x61, 0x00, 0x01] 4 ([1, 2] ++ [0, 0, 0, 0] ++ [3]) 2 4 true
      = .ok (4, [1, 2] ++ [0x61, 0x61, 0x61, 0x61]
        ++ List.drop (List.length [0x61, 0x61, 0x61, 0x61]) [0, 0, 0, 0] ++ [3]) :=
  @pglzDecompressInto_of_pglzDecompress [0x02, 0x61, 0x00, 0x01] 4 [0, 0, 0, 0] true 4
    [0x61, 0x61, 0x61, 0x61] (by decide) (by decide) [1, 2] [3]

end

end Pglz
