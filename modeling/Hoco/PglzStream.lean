import Hoco.BackReference
import Hoco.Pglz

/-!
# The format of the default method

A compressed text is a sequence of items (`BackReference.Item`), each a literal
byte or a reference back. They are stored in groups of eight: a control byte with
one bit for each item of the group, the first item in the lowest bit, and then the
items. A literal is stored as it is. A reference takes two bytes, with four bits
for the length and twelve for the offset; from a length of `18` on the four bits
are all set and a third byte has the rest.

The decompressor reads a stored sequence back (`pglzDecompress_stream`). It does
not copy a reference byte by byte: it copies the whole stretch while there is room
for one, and doubles the offset, so that the stretch grows with what was copied.
That this is the repetition the reference stands for is `copyMatch_eq`.
-/

open BackReference

namespace Pglz

/-! ## Items and how they are stored -/

/-- A reference that a tag can hold. -/
def Storable : Item UInt8 → Prop
  | .lit _ => True
  | .ref off len => off < 4096 ∧ 3 ≤ len ∧ len ≤ 273

/-- The control bit of an item. -/
def controlBit : Item UInt8 → ℕ
  | .lit _ => 0
  | .ref _ _ => 1

/-- The bytes an item is stored as. -/
def itemBytes : Item UInt8 → List UInt8
  | .lit b => [b]
  | .ref off len =>
    if len > 17 then
      [UInt8.ofNat (off / 256 * 16 + 15), UInt8.ofNat off, UInt8.ofNat (len - 18)]
    else [UInt8.ofNat (off / 256 * 16 + (len - 3)), UInt8.ofNat off]

/-- The control byte of a group of items. -/
def control : List (Item UInt8) → ℕ
  | [] => 0
  | item :: items => controlBit item + 2 * control items

/-- The bytes of the items of a group. -/
def groupBytes (items : List (Item UInt8)) : List UInt8 := items.flatMap itemBytes

/-- The groups of a sequence of items, one after the other. -/
def streamFrom : ℕ → List (Item UInt8) → List UInt8
  | 0, _ => []
  | fuel + 1, items =>
    if items = [] then []
    else UInt8.ofNat (control (items.take 8)) ::
      (groupBytes (items.take 8) ++ streamFrom fuel (items.drop 8))

/-- **The bytes a sequence of items is stored as.** -/
def stream (items : List (Item UInt8)) : List UInt8 := streamFrom items.length items

theorem itemBytes_ne_nil (item : Item UInt8) : itemBytes item ≠ [] := by
  cases item with
  | lit b => exact List.cons_ne_nil _ _
  | ref off len =>
    rw [itemBytes]
    split <;> exact List.cons_ne_nil _ _

theorem control_lt (items : List (Item UInt8)) : control items < 2 ^ items.length := by
  induction items with
  | nil => exact Nat.one_pos
  | cons item items ih =>
    have hbit : controlBit item ≤ 1 := by cases item <;> simp [controlBit]
    rw [control, List.length_cons, Nat.pow_succ]
    omega

theorem control_concat (items : List (Item UInt8)) (item : Item UInt8) :
    control (items ++ [item]) = control items + controlBit item * 2 ^ items.length := by
  induction items with
  | nil => simp [control]
  | cons it items ih =>
    rw [List.cons_append, control, ih, control, List.length_cons, Nat.pow_succ, ← Nat.mul_assoc]
    omega

/-! ## Groups -/

theorem streamFrom_of_le {fuel : ℕ} {items : List (Item UInt8)} (h : items.length ≤ fuel) :
    streamFrom fuel items = stream items := by
  induction fuel using Nat.strong_induction_on generalizing items with
  | _ fuel ih =>
    cases items with
    | nil =>
      cases fuel with
      | zero => rfl
      | succ fuel => rfl
    | cons item items =>
      cases fuel with
      | zero => exact absurd h (Nat.not_succ_le_zero _)
      | succ fuel =>
        rw [List.length_cons] at h
        have hdrop : ((item :: items).drop 8).length ≤ items.length := by
          rw [List.length_drop, List.length_cons]
          omega
        rw [stream, List.length_cons, streamFrom, streamFrom, if_neg (List.cons_ne_nil _ _),
          if_neg (List.cons_ne_nil _ _), ih fuel (Nat.lt_succ_self _) (by omega),
          ih items.length (by omega) hdrop]

theorem stream_nil : stream [] = [] := rfl

/-- A group, and the groups behind it. -/
theorem stream_cons_group {group items : List (Item UInt8)} (hne : group ≠ [])
    (hgroup : group.length = 8 ∨ group.length ≤ 8 ∧ items = []) :
    stream (group ++ items)
      = UInt8.ofNat (control group) :: (groupBytes group ++ stream items) := by
  have htake : (group ++ items).take 8 = group := by
    rcases hgroup with hlen | ⟨hlen, rfl⟩
    · exact List.take_left' hlen
    · rw [List.append_nil, List.take_of_length_le hlen]
  have hdrop : (group ++ items).drop 8 = items := by
    rcases hgroup with hlen | ⟨hlen, rfl⟩
    · exact List.drop_left' hlen
    · rw [List.append_nil, List.drop_of_length_le hlen]
  obtain ⟨k, hk⟩ : ∃ k, (group ++ items).length = k + 1 :=
    Nat.exists_eq_succ_of_ne_zero (by simp [hne])
  have hpos := List.length_pos_iff.mpr hne
  rw [List.length_append] at hk
  rw [stream, List.length_append, hk, streamFrom, if_neg (by simp [hne]), htake, hdrop,
    streamFrom_of_le (by omega)]

/-- The first group of a sequence. -/
theorem exists_group {items : List (Item UInt8)} (hne : items ≠ []) :
    ∃ group rest, items = group ++ rest ∧ group ≠ []
      ∧ (group.length = 8 ∨ group.length ≤ 8 ∧ rest = []) := by
  refine ⟨items.take 8, items.drop 8, (List.take_append_drop 8 items).symm, ?_, ?_⟩
  · rw [ne_eq, List.take_eq_nil_iff]
    exact fun h => h.elim (by decide) hne
  · rw [List.length_take]
    rcases Nat.lt_or_ge items.length 8 with hlt | hge
    · exact Or.inr ⟨by omega, List.drop_eq_nil_of_le (by omega)⟩
    · exact Or.inl (by omega)

/-- **Items behind whole groups** start a group of their own. -/
theorem stream_append {full : List (Item UInt8)} (h : 8 ∣ full.length)
    (items : List (Item UInt8)) : stream (full ++ items) = stream full ++ stream items := by
  obtain ⟨k, hk⟩ := h
  induction k generalizing full with
  | zero =>
    rw [List.length_eq_zero_iff.mp hk]
    rfl
  | succ k ih =>
    have hlen : (full.take 8).length = 8 := by
      rw [List.length_take]
      omega
    have hne : full.take 8 ≠ [] := by
      intro h
      rw [h] at hlen
      exact absurd hlen (by decide)
    have hrest := @ih (full.drop 8) (by rw [List.length_drop]; omega)
    have hsplit := fun l => @stream_cons_group (full.take 8) l hne (Or.inl hlen)
    have h₁ := hsplit (full.drop 8 ++ items)
    have h₂ := hsplit (full.drop 8)
    rw [← List.append_assoc, List.take_append_drop] at h₁
    rw [List.take_append_drop] at h₂
    rw [h₁, h₂, hrest, List.cons_append, List.append_assoc]

theorem length_le_groupBytes_length (its : List (Item UInt8)) :
    its.length ≤ (groupBytes its).length := by
  induction its with
  | nil => exact Nat.le_refl 0
  | cons it its ih =>
    have hpos : 0 < (itemBytes it).length := List.length_pos_iff.mpr (itemBytes_ne_nil it)
    rw [groupBytes, List.flatMap_cons, List.length_append, List.length_cons]
    rw [groupBytes] at ih
    omega

/-- An item takes at least a byte. -/
theorem length_le_stream_length (its : List (Item UInt8)) : its.length ≤ (stream its).length := by
  induction hn : its.length using Nat.strong_induction_on generalizing its with
  | _ n ih =>
    subst hn
    by_cases hne : its = []
    · subst hne
      exact Nat.le_refl 0
    · obtain ⟨group, rest, rfl, hgne, hgroup⟩ := exists_group hne
      have hpos := List.length_pos_iff.mpr hgne
      have hitems := length_le_groupBytes_length group
      have hrest := ih rest.length (by rw [List.length_append]; omega) rest rfl
      rw [stream_cons_group hgne hgroup, List.length_cons, List.length_append, List.length_append]
      omega

/-! ## Copying a match -/

/-- **The copy of a match is the repetition it stands for**: whole stretches, each
twice as long as the one before, and the rest of one. -/
theorem copyMatch_eq {fuel off len : ℕ} {out : List UInt8} (hpos : 0 < off)
    (hreach : off ≤ out.length) (hfuel : len < fuel) :
    ∃ out', copyMatch fuel out off len = .ok out' ∧ Repeats off out out'
      ∧ out'.length = out.length + len := by
  induction fuel generalizing off len out with
  | zero => exact absurd hfuel (Nat.not_lt_zero _)
  | succ fuel ih =>
    rw [copyMatch, if_neg (Nat.not_lt.mpr hreach)]
    have hstretch : (out.drop (out.length - off)).length = off := by
      rw [List.length_drop]
      omega
    dsimp only
    split
    · rename_i hlt
      have hlen : (out ++ out.drop (out.length - off)).length = out.length + off := by
        rw [List.length_append, hstretch]
      obtain ⟨out', hrun, hrep, hout⟩ := @ih (off + off) (len - off)
        (out ++ out.drop (out.length - off)) (by omega) (by omega) (by omega)
      have hfirst := @Repeats.append_take _ off out hpos hreach off (Nat.le_refl _)
      rw [List.take_of_length_le (Nat.le_of_eq hstretch)] at hfirst
      exact ⟨out', hrun, hfirst.double hlen hrep, by omega⟩
    · rename_i hle
      refine ⟨_, rfl, Repeats.append_take hpos hreach (Nat.not_lt.mp hle), ?_⟩
      rw [List.length_append, List.length_take, hstretch]
      omega

/-! ## Reading an item -/

/-- Reading a tag: the offset, the place behind the tag, and the length. -/
def readTag (source : Mem) (sp : ℕ) : Run (ℕ × ℕ × ℕ) :=
  source.load sp >>= fun b₀ => source.load (sp + 1) >>= fun b₁ =>
    if b₀.toNat % 16 + 3 = 18 then
      (fun b₂ => (b₀.toNat / 16 * 256 + b₁.toNat, sp + 3, 18 + b₂.toNat)) <$> source.load (sp + 2)
    else .ok (b₀.toNat / 16 * 256 + b₁.toNat, sp + 2, b₀.toNat % 16 + 3)

/-- What a tag does to the output. -/
def putRef (slen : ℤ) (rawsize : ℕ) (out : List UInt8) (off sp len : ℕ) :
    Run (Option (ℕ × List UInt8)) :=
  if (sp : ℤ) > slen ∨ off = 0 then .ok none
  else (fun out' => some (sp, out'))
    <$> copyMatch (min len (rawsize - out.length) + 1) out off (min len (rawsize - out.length))

/-- One turn of the loop over the items of a control byte. -/
def itemStep (source : Mem) (slen : ℤ) (rawsize ctrl sp : ℕ) (out : List UInt8) :
    Run (Option (ℕ × List UInt8)) :=
  if ctrl % 2 = 1 then readTag source sp >>= fun tag => putRef slen rawsize out tag.1 tag.2.1 tag.2.2
  else (fun b => some (sp + 1, out ++ [b])) <$> source.load sp

/-- What is done after an item. -/
def resumeItems (source : Mem) (slen : ℤ) (rawsize left ctrl : ℕ) :
    Option (ℕ × List UInt8) → Run (Option (ℕ × List UInt8))
  | none => .ok none
  | some (sp, out) => items source slen rawsize left ctrl sp out

/-- The loop is made of its turns. -/
theorem items_succ (source : Mem) (slen : ℤ) (rawsize left ctrl sp : ℕ) (out : List UInt8) :
    items source slen rawsize (left + 1) ctrl sp out
      = if (sp : ℤ) < slen ∧ out.length < rawsize then
          itemStep source slen rawsize ctrl sp out
            >>= resumeItems source slen rawsize left (ctrl / 2)
        else .ok (some (sp, out)) := by
  -- what comes after a tag was read
  have htag : ∀ off sp len : ℕ,
      (if (sp : ℤ) > slen ∨ off = 0 then pure none
        else copyMatch (min len (rawsize - out.length) + 1) out off
            (min len (rawsize - out.length)) >>= fun out' =>
          items source slen rawsize left (ctrl / 2) sp out')
        = (putRef slen rawsize out off sp len
            >>= resumeItems source slen rawsize left (ctrl / 2)) := by
    intro off sp len
    rw [putRef]
    split
    · rfl
    · cases copyMatch (min len (rawsize - out.length) + 1) out off
        (min len (rawsize - out.length)) <;> rfl
  rw [items, itemStep]
  refine if_congr Iff.rfl ?_ rfl
  split
  · rw [readTag]
    cases source.load sp with
    | error e => rfl
    | ok b₀ =>
      cases source.load (sp + 1) with
      | error e => rfl
      | ok b₁ =>
        simp only [Run.ok_bind]
        split
        · cases source.load (sp + 2) with
          | error e => rfl
          | ok b₂ => exact htag _ _ _
        · exact htag _ _ _
  · cases source.load sp <;> rfl

/-- What an item does to the output. -/
def putItem (slen : ℤ) (rawsize : ℕ) (sp : ℕ) (out : List UInt8) :
    Item UInt8 → Run (Option (ℕ × List UInt8))
  | .lit b => .ok (some (sp + 1, out ++ [b]))
  | .ref off len => putRef slen rawsize out off (sp + (itemBytes (.ref off len)).length) len

section

variable {source : Mem} {slen : ℤ} {rawsize ctrl sp : ℕ} {out : List UInt8}

/-- **A stored tag is read as what it is.** -/
theorem readTag_eq {off len : ℕ} (hitem : Storable (.ref off len)) {post : Mem}
    (hread : source.drop sp = itemBytes (.ref off len) ++ post) :
    readTag source sp = .ok (off, sp + (itemBytes (.ref off len)).length, len) := by
  obtain ⟨hoff, hmin, hmax⟩ := hitem
  have h₁ : (UInt8.ofNat off).toNat = off % 256 := UInt8.toNat_ofNat'
  rw [itemBytes] at hread ⊢
  by_cases hlong : len > 17
  · rw [if_pos hlong] at hread ⊢
    have h₀ : (UInt8.ofNat (off / 256 * 16 + 15)).toNat = off / 256 * 16 + 15 := by
      rw [UInt8.toNat_ofNat']
      omega
    have h₂ : (UInt8.ofNat (len - 18)).toNat = len - 18 := by
      rw [UInt8.toNat_ofNat']
      omega
    have hdrop₁ := @Mem.drop_add source [_] _ sp hread
    have hload₁ : source.load (sp + 1) = .ok (UInt8.ofNat off) := Mem.load_of_drop hdrop₁
    have hload₂ : source.load (sp + 2) = .ok (UInt8.ofNat (len - 18)) :=
      Mem.load_of_drop (@Mem.drop_add source [_] _ _ hdrop₁)
    rw [readTag, Mem.load_of_drop hread, Run.ok_bind, hload₁, Run.ok_bind, h₀, h₁,
      if_pos (by omega), hload₂]
    refine congrArg Except.ok (Prod.ext ?_ (Prod.ext rfl ?_))
    · show (off / 256 * 16 + 15) / 16 * 256 + off % 256 = off
      omega
    · show 18 + (UInt8.ofNat (len - 18)).toNat = len
      omega
  · rw [if_neg hlong] at hread ⊢
    have h₀ : (UInt8.ofNat (off / 256 * 16 + (len - 3))).toNat = off / 256 * 16 + (len - 3) := by
      rw [UInt8.toNat_ofNat']
      omega
    have hload₁ : source.load (sp + 1) = .ok (UInt8.ofNat off) :=
      Mem.load_of_drop (@Mem.drop_add source [_] _ sp hread)
    rw [readTag, Mem.load_of_drop hread, Run.ok_bind, hload₁, Run.ok_bind, h₀, h₁,
      if_neg (by omega)]
    refine congrArg Except.ok (Prod.ext ?_ (Prod.ext rfl ?_))
    · show (off / 256 * 16 + (len - 3)) / 16 * 256 + off % 256 = off
      omega
    · show (off / 256 * 16 + (len - 3)) % 16 + 3 = len
      omega

/-- **What is read as a tag is a stored tag.** -/
theorem exists_of_readTag {off sp' len : ℕ} (h : readTag source sp = .ok (off, sp', len)) :
    Storable (.ref off len) ∧ sp' = sp + (itemBytes (.ref off len)).length
      ∧ source.drop sp = itemBytes (.ref off len) ++ source.drop sp' := by
  obtain ⟨b₀, hb₀, h⟩ := Run.bind_eq_ok.mp h
  obtain ⟨b₁, hb₁, h⟩ := Run.bind_eq_ok.mp h
  have h₀ := b₀.toNat_lt
  have h₁ := b₁.toNat_lt
  have hdrop : source.drop sp = b₀ :: b₁ :: source.drop (sp + 2) := by
    rw [Mem.drop_of_load hb₀, Mem.drop_of_load hb₁]
  have hbyte : ∀ {b : UInt8} {n : ℕ}, n % 256 = b.toNat → UInt8.ofNat n = b := by
    intro b n hn
    rw [← UInt8.toNat_inj, UInt8.toNat_ofNat']
    exact hn
  split at h
  · obtain ⟨b₂, hb₂, h⟩ := Run.map_eq_ok.mp h
    have h₂ := b₂.toNat_lt
    cases h
    refine ⟨⟨by omega, by omega, by omega⟩, ?_⟩
    rw [itemBytes, if_pos (by omega)]
    refine ⟨rfl, ?_⟩
    rw [hdrop, Mem.drop_of_load hb₂, hbyte (b := b₀) (by omega), hbyte (b := b₁) (by omega),
      hbyte (b := b₂) (by omega)]
    rfl
  · cases h
    refine ⟨⟨by omega, by omega, by omega⟩, ?_⟩
    rw [itemBytes, if_neg (by omega)]
    refine ⟨rfl, ?_⟩
    rw [hdrop, hbyte (b := b₀) (by omega), hbyte (b := b₁) (by omega)]
    rfl

/-- A stored item is read as what it is. -/
theorem itemStep_eq_putItem {item : Item UInt8} (hitem : Storable item)
    (hbit : ctrl % 2 = controlBit item) {post : Mem}
    (hread : source.drop sp = itemBytes item ++ post) :
    itemStep source slen rawsize ctrl sp out = putItem slen rawsize sp out item := by
  cases item with
  | lit b =>
    rw [itemStep, if_neg (by rw [hbit]; exact Nat.zero_ne_one), Mem.load_of_drop hread]
    rfl
  | ref off len =>
    rw [itemStep, if_pos (show ctrl % 2 = 1 from hbit), readTag_eq hitem hread]
    rfl

/-- **Whatever is read is a stored item**: where the loop goes on after an item, the
source has its bytes there. -/
theorem exists_of_itemStep {sp' : ℕ} {out' : List UInt8}
    (h : itemStep source slen rawsize ctrl sp out = .ok (some (sp', out'))) :
    ∃ item, Storable item ∧ ctrl % 2 = controlBit item ∧ sp' = sp + (itemBytes item).length
      ∧ source.drop sp = itemBytes item ++ source.drop sp'
      ∧ putItem slen rawsize sp out item = .ok (some (sp', out')) := by
  rw [itemStep] at h
  split at h
  · rename_i hbit
    obtain ⟨⟨off, sp₁, len⟩, htag, h⟩ := Run.bind_eq_ok.mp h
    obtain ⟨hitem, rfl, hdrop⟩ := exists_of_readTag htag
    have hsp : sp' = sp + (itemBytes (.ref off len)).length := by
      rw [putRef] at h
      split at h
      · cases h
      · obtain ⟨out₁, -, h⟩ := Run.map_eq_ok.mp h
        exact (Prod.mk.inj (Option.some.inj h)).1.symm
    refine ⟨.ref off len, hitem, hbit, hsp, hsp ▸ hdrop, h⟩
  · rename_i hbit
    obtain ⟨b, hb, h⟩ := Run.map_eq_ok.mp h
    obtain ⟨rfl, rfl⟩ := Prod.mk.inj (Option.some.inj h)
    refine ⟨.lit b, trivial, ?_, rfl, Mem.drop_of_load hb, rfl⟩
    rw [controlBit]
    omega

/-- **A reference that reaches back into the output** continues it, as far as there is
room. -/
theorem exists_putRef_eq {off sp len : ℕ} (hpos : 0 < off) (hreach : off ≤ out.length)
    (hend : (sp : ℤ) ≤ slen) :
    ∃ out', putRef slen rawsize out off sp len = .ok (some (sp, out')) ∧ Repeats off out out'
      ∧ out'.length = out.length + min len (rawsize - out.length) := by
  obtain ⟨out', hcopy, hrep, hlen⟩ :=
    copyMatch_eq hpos hreach (Nat.lt_succ_self (min len (rawsize - out.length)))
  refine ⟨out', ?_, hrep, hlen⟩
  rw [putRef, if_neg (by omega), hcopy]
  rfl

end

/-! ## Reading a stream -/

section

variable {source post : Mem} {slen : ℤ} {rawsize sp : ℕ} {its : List (Item UInt8)}
  {out out' : List UInt8}

/-- **Some items of a control byte**, and what is done after them. -/
theorem items_decodes (hdec : Decodes out its out') (hits : ∀ it ∈ its, Storable it)
    (hraw : out'.length ≤ rawsize) (hread : source.drop sp = groupBytes its ++ post)
    (hend : ((sp + (groupBytes its).length : ℕ) : ℤ) ≤ slen) (left c : ℕ) :
    items source slen rawsize (its.length + left) (control its + 2 ^ its.length * c) sp out
      = items source slen rawsize left c (sp + (groupBytes its).length) out' := by
  induction hdec generalizing sp with
  | nil out => simp [control, groupBytes]
  | @lit out out' its b hdec ih =>
    have hlen := hdec.length_le
    rw [List.length_append, List.length_singleton] at hlen
    have hgroup : groupBytes (.lit b :: its) = [b] ++ groupBytes its := rfl
    rw [hgroup, List.append_assoc] at hread
    rw [hgroup, List.length_append, List.length_singleton] at hend
    have hrest := ih (fun it hit => hits it (List.mem_cons_of_mem _ hit)) hraw
      (Mem.drop_add hread) (by rw [List.length_singleton]; omega)
    have hctrl : (control (.lit b :: its) + 2 ^ (its.length + 1) * c) % 2 = 0
        ∧ (control (.lit b :: its) + 2 ^ (its.length + 1) * c) / 2
          = control its + 2 ^ its.length * c := by
      rw [control, controlBit, Nat.pow_succ, Nat.mul_comm _ 2, Nat.mul_assoc]
      omega
    rw [List.length_cons, Nat.add_right_comm, items_succ, if_pos (by omega),
      itemStep_eq_putItem (show Storable (.lit b) from trivial) hctrl.1 hread, putItem, Run.ok_bind,
      resumeItems, hctrl.2, hgroup, List.length_append, ← Nat.add_assoc]
    exact hrest
  | @ref out out₁ out' its off len hrep hlen hdec ih =>
    have hle := hdec.length_le
    have hst := hits _ List.mem_cons_self
    have hgroup : groupBytes (.ref off len :: its) = itemBytes (.ref off len) ++ groupBytes its :=
      rfl
    have hpos : 0 < (itemBytes (.ref off len)).length :=
      List.length_pos_iff.mpr (itemBytes_ne_nil _)
    rw [hgroup, List.append_assoc] at hread
    rw [hgroup, List.length_append] at hend
    have hrest := ih (fun it hit => hits it (List.mem_cons_of_mem _ hit)) hraw
      (Mem.drop_add hread) (by omega)
    have hctrl : (control (.ref off len :: its) + 2 ^ (its.length + 1) * c) % 2 = 1
        ∧ (control (.ref off len :: its) + 2 ^ (its.length + 1) * c) / 2
          = control its + 2 ^ its.length * c := by
      rw [control, controlBit, Nat.pow_succ, Nat.mul_comm _ 2, Nat.mul_assoc]
      omega
    -- the copy is the one that the items speak of
    obtain ⟨out₂, hput, hrep₂, hlen₂⟩ := @exists_putRef_eq slen rawsize out off
      (sp + (itemBytes (.ref off len)).length) len hrep.pos hrep.reach (by omega)
    have hmin : 3 ≤ len := hst.2.1
    have hsame := hrep.eq_of_length hrep₂ (by omega)
    rw [List.length_cons, Nat.add_right_comm, items_succ, if_pos (by omega),
      itemStep_eq_putItem hst hctrl.1 hread, putItem, hput, Run.ok_bind, resumeItems, hctrl.2,
      hgroup, List.length_append, ← Nat.add_assoc, ← hsame]
    exact hrest

/-- The outer loop on a stream. -/
theorem decompressLoop_stream (hdec : Decodes out its out') (hits : ∀ it ∈ its, Storable it)
    (hraw : out'.length ≤ rawsize) (hread : source.drop sp = stream its ++ post) {fuel : ℕ}
    (hfuel : its.length ≤ fuel) (hend : slen = (sp + (stream its).length : ℕ)) :
    decompressLoop source slen rawsize fuel sp out
      = .ok (some (sp + (stream its).length, out')) := by
  induction hn : its.length using Nat.strong_induction_on generalizing its sp out fuel with
  | _ n ih =>
    subst hn
    by_cases hne : its = []
    · subst hne
      cases hdec
      rw [stream_nil, List.length_nil, Nat.add_zero] at hend ⊢
      cases fuel with
      | zero => rfl
      | succ fuel => rw [decompressLoop, if_neg (by omega)]
    · obtain ⟨group, rest, hsplit, hgne, hgroup⟩ := exists_group hne
      subst hsplit
      have hpos := List.length_pos_iff.mpr hgne
      have hstream := stream_cons_group hgne hgroup
      obtain ⟨mid, hdec₁, hdec₂⟩ := hdec.exists_of_append
      have hle₁ := hdec₁.length_le
      have hle₂ := hdec₂.length_le
      rw [hstream, List.cons_append, List.append_assoc] at hread
      rw [hstream, List.length_cons, List.length_append] at hend ⊢
      rw [List.length_append] at hfuel
      obtain ⟨fuel, rfl⟩ := Nat.exists_eq_add_of_lt (show 0 < fuel by omega)
      have hgrow : out.length < mid.length := hdec₁.length_lt hgne
        (fun off len hmem => by have := (hits _ (List.mem_append_left rest hmem)).2.1; omega)
      have hctrl : (UInt8.ofNat (control group)).toNat = control group := by
        rw [UInt8.toNat_ofNat']
        refine Nat.mod_eq_of_lt (Nat.lt_of_lt_of_le (control_lt group) ?_)
        exact Nat.pow_le_pow_right (by decide) (show group.length ≤ 8 by omega)
      -- the items of this control byte
      have hdrop := @Mem.drop_add source [_] _ sp hread
      have hitems := items_decodes hdec₁ (fun it hit => hits it (List.mem_append_left rest hit))
        (show mid.length ≤ rawsize by omega) hdrop
        (show ((sp + 1 + (groupBytes group).length : ℕ) : ℤ) ≤ slen by omega) (8 - group.length) 0
      rw [show group.length + (8 - group.length) = 8 by omega, Nat.mul_zero, Nat.add_zero,
        List.length_singleton] at hitems
      have hstop : items source slen rawsize (8 - group.length) 0
          (sp + 1 + (groupBytes group).length) mid
            = .ok (some (sp + 1 + (groupBytes group).length, mid)) := by
        rcases hgroup with hlen | ⟨hlen, rfl⟩
        · rw [hlen]
          rfl
        · rw [stream_nil, List.length_nil] at hend
          cases 8 - group.length with
          | zero => rfl
          | succ left => rw [items_succ, if_neg (by omega)]
      -- and the groups behind it
      have hrest := @ih rest.length (by rw [List.length_append]; omega)
        (sp + 1 + (groupBytes group).length) rest mid hdec₂
        (fun it hit => hits it (List.mem_append_right group hit))
        (by rw [List.length_singleton] at hdrop; exact Mem.drop_add hdrop) (0 + fuel) (by omega)
        (by omega) rfl
      rw [decompressLoop, if_pos (by omega), Mem.load_of_drop hread, Run.ok_bind, hctrl, hitems,
        hstop, Run.ok_bind]
      dsimp only
      rw [hrest, show sp + 1 + (groupBytes group).length + (stream rest).length
        = sp + ((groupBytes group).length + (stream rest).length + 1) by omega]

/-- **A stream decompresses to the text its items stand for**, whatever lies behind it. -/
theorem pglzDecompress_stream {text : List UInt8} (hdec : Decodes [] its text)
    (hits : ∀ it ∈ its, Storable it) (rest : Mem) (checkComplete : Bool) :
    pglzDecompress (stream its ++ rest) (stream its).length text.length checkComplete
      = .ok (text.length, text) := by
  have hfuel : its.length ≤ (stream its).length := length_le_stream_length its
  have hloop := @decompressLoop_stream (stream its ++ rest) rest (stream its).length text.length 0
    its [] text hdec hits (Nat.le_refl _) List.drop_zero (stream its).length hfuel
    (by rw [Nat.zero_add])
  rw [pglzDecompress, Int.toNat_natCast, hloop, Run.ok_bind]
  dsimp only
  rw [if_neg (by omega)]
  rfl

end

end Pglz
