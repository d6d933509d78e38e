import Hoco.HeapTuple

/-!
# Writing rows

What `heap_fill_tuple` writes is a concatenation, with zeros between (`Server.layout`), of
what is stored for each value (`Server.stored`): the value itself, or the value with a short
header, or the flat form of the object that it is a pointer to. `heap_compute_data_size`
goes through the same cases beforehand, and what it adds is what is taken
(`Server.addDataSize_eq`), so that a row is written without leaving its memory
(`Server.AllFit.exists_heapFillTuple_eq`).
-/

/-! ## What is written for a value, and where -/

namespace Server

variable (sv : Server)

/-- A datum that starts with a one-byte header. -/
def startsShort (m : Mem) : Bool := (m.head?.map sv.is1B).getD false

/-- A datum that is a pointer to an expanded object. -/
def startsExpanded (m : Mem) : Bool :=
  (m.head?.map sv.is1BE).getD false && (m[1]?.map fun tag => tag &&& 0xFE == 2).getD false

/-- A datum that is a pointer of another kind, and is written as it is. -/
def startsExternal (m : Mem) : Bool :=
  (m.head?.map sv.is1BE).getD false && !sv.startsExpanded m

/-- A datum that starts with the header of a plain one. -/
def startsPlain (m : Mem) : Bool := (m.head?.map sv.is4BU).getD false

/-- What the flat form of an object has to be: in place, not compressed, and with a header
of four bytes. -/
structure IsFlat (f : Mem) : Prop where
  plain : sv.startsPlain f = true
  size : sv.varsize4B f = .ok f.length

/-- The flat form of the object that a pointer is to. -/
def flatForm (m : Mem) : Mem := (sv.flatten m).toOption.getD m

/-- **The bytes of a value of a column**: as many as its type has, or as it tells. An object
has a flat form. -/
def Fits (att : Attribute) (m : Mem) : Prop :=
  match att.attlen with
  | .fixed n => m.length = n
  | .varlena => sv.varsizeAny m = .ok m.length
    ∧ (sv.startsExpanded m = true → sv.flatten m = .ok (sv.flatForm m) ∧ sv.IsFlat (sv.flatForm m))
  | .cstring => ∃ t, 0 ∉ t ∧ m = t ++ [0]

/-- What is stored for a value: the value, with a short header if it can have one, or the
flat form of an object. -/
def stored (att : Attribute) (m : Mem) : Mem :=
  if att.attlen = .varlena ∧ sv.startsExpanded m = true then sv.flatForm m
  else if att.isPackable && (sv.startsPlain m && m.length ≤ 130) then sv.shortDatum (m.drop 4)
  else m

/-- Where a value starts, behind others that end at `off`. -/
def start (att : Attribute) (m : Mem) (off : ℕ) : ℕ :=
  if att.attlen = .varlena ∧ sv.startsShort m = true then off else attAlignNominal off att.attalign

/-- A value behind others, and zeros between. -/
def place (att : Attribute) (data m : Mem) : Mem :=
  data ++ (List.replicate (sv.start att m data.length - data.length) 0 ++ m)

/-- The data of a row. -/
def layout : List (Attribute × Option Mem) → Mem → Mem
  | [], data => data
  | (_, none) :: cols, data => layout cols data
  | (att, some m) :: cols, data => layout cols (sv.place att data (sv.stored att m))

end Server

theorem le_attAlignNominal (off : ℕ) (al : Align) : off ≤ attAlignNominal off al := by
  unfold attAlignNominal
  cases al <;> simp only [Align.bytes] <;> omega

theorem attAlignNominal_le (off : ℕ) (al : Align) : attAlignNominal off al ≤ off + 7 := by
  unfold attAlignNominal
  cases al <;> simp only [Align.bytes] <;> omega

theorem attAlignNominal_char (off : ℕ) : attAlignNominal off .char = off := by
  rw [attAlignNominal, Align.bytes, Nat.mul_one, Nat.div_one, Nat.sub_self, Nat.add_zero]

namespace Server

variable {sv : Server} {att : Attribute} {m : Mem}

theorem le_start (att : Attribute) (m : Mem) (off : ℕ) : off ≤ sv.start att m off := by
  unfold start
  split
  · exact Nat.le_refl _
  · exact le_attAlignNominal _ _

theorem start_le (att : Attribute) (m : Mem) (off : ℕ) : sv.start att m off ≤ off + 7 := by
  unfold start
  split
  · omega
  · exact attAlignNominal_le _ _

theorem start_of_ne_varlena (h : att.attlen ≠ .varlena) (m : Mem) (off : ℕ) :
    sv.start att m off = attAlignNominal off att.attalign :=
  if_neg fun hh => h hh.1

theorem start_of_startsShort (hlen : att.attlen = .varlena) (h : sv.startsShort m = true) (off : ℕ) :
    sv.start att m off = off :=
  if_pos ⟨hlen, h⟩

theorem length_place (data m : Mem) :
    (sv.place att data m).length = sv.start att m data.length + m.length := by
  have := sv.le_start att m data.length
  rw [place, List.length_append, List.length_append, List.length_replicate]
  omega

/-- A pointer has a one-byte header. -/
theorem is1B_of_is1BE {b : UInt8} (h : sv.is1BE b = true) : sv.is1B b = true := by
  rw [is1BE_eq, decide_eq_true_eq] at h
  rw [is1B_eq, decide_eq_true_eq]
  split at h <;> rename_i hbe <;> simp only [hbe] <;> simp <;> omega

theorem startsShort_of_startsExternal (h : sv.startsExternal m = true) :
    sv.startsShort m = true := by
  rw [startsExternal, Bool.and_eq_true] at h
  cases m with
  | nil => cases h.1
  | cons b m' => exact is1B_of_is1BE h.1

theorem startsExpanded_of_startsExternal (h : sv.startsExternal m = true) :
    sv.startsExpanded m = false := by
  rw [startsExternal, Bool.and_eq_true, Bool.not_eq_true'] at h
  exact h.2

theorem not_object (h : sv.startsExpanded m = false) (att : Attribute) :
    ¬(att.attlen = .varlena ∧ sv.startsExpanded m = true) :=
  fun hboth => Bool.false_ne_true (h.symm.trans hboth.2)

/-- What is no pointer is none to an object. -/
theorem startsExpanded_cons {b : UInt8} (h : sv.is1BE b = false) (m' : Mem) :
    sv.startsExpanded (b :: m') = false := by
  rw [startsExpanded, List.head?_cons, Option.map_some, Option.getD_some, h, Bool.false_and]

theorem le_length_of_loadWord {i w : ℕ} (h : sv.loadWord m i = .ok w) : i + 4 ≤ m.length := by
  unfold loadWord at h
  obtain ⟨b₀, -, h⟩ := Run.bind_eq_ok.mp h
  obtain ⟨b₁, -, h⟩ := Run.bind_eq_ok.mp h
  obtain ⟨b₂, -, h⟩ := Run.bind_eq_ok.mp h
  obtain ⟨b₃, hb₃, -⟩ := Run.bind_eq_ok.mp h
  exact Mem.exists_load_iff.mp ⟨b₃, hb₃⟩

/-- **The three ways in which a datum tells its size.** -/
theorem varlena_cases (h : sv.varsizeAny m = .ok m.length) :
    ∃ b m', m = b :: m' ∧
      ((sv.is1BE b = true ∧ varsizeExternal m = .ok m.length)
        ∨ (sv.is1BE b = false ∧ sv.is1B b = true ∧ sv.varsize1B m = .ok m.length)
        ∨ (sv.is1BE b = false ∧ sv.is1B b = false ∧ sv.varsize4B m = .ok m.length
          ∧ 4 ≤ m.length)) := by
  obtain ⟨b, hb, hsize⟩ := Run.bind_eq_ok.mp h
  refine ⟨b, m.drop 1, by simpa using Mem.drop_of_load hb, ?_⟩
  cases h1BE : sv.is1BE b with
  | true =>
    rw [h1BE, if_pos rfl] at hsize
    exact Or.inl ⟨rfl, hsize⟩
  | false =>
    rw [h1BE, if_neg Bool.false_ne_true] at hsize
    cases h1B : sv.is1B b with
    | true =>
      rw [h1B, if_pos rfl] at hsize
      exact Or.inr (Or.inl ⟨rfl, rfl, hsize⟩)
    | false =>
      rw [h1B, if_neg Bool.false_ne_true] at hsize
      refine Or.inr (Or.inr ⟨rfl, rfl, hsize, ?_⟩)
      obtain ⟨w, hw, -⟩ := Run.bind_eq_ok.mp hsize
      exact le_length_of_loadWord hw

/-- The second byte of a pointer tells whether it is to an object. -/
theorem varattIsExternalExpanded_eq (h : sv.varsizeAny m = .ok m.length) :
    sv.varattIsExternalExpanded m = .ok (sv.startsExpanded m) := by
  obtain ⟨b, m', rfl, hcases⟩ := varlena_cases h
  rw [varattIsExternalExpanded, show sv.varattIsExternal (b :: m') = .ok (sv.is1BE b) from rfl,
    Run.ok_bind]
  cases h1BE : sv.is1BE b with
  | false => rw [if_neg Bool.false_ne_true, startsExpanded_cons h1BE]; rfl
  | true =>
    rcases hcases with ⟨-, hsize⟩ | ⟨hno, -⟩ | ⟨hno, -⟩
    · obtain ⟨tag, htag, -⟩ := Run.bind_eq_ok.mp hsize
      cases m' with
      | nil => cases htag
      | cons tag' m'' =>
        cases htag
        rw [if_pos rfl, startsExpanded, List.head?_cons, Option.map_some, Option.getD_some, h1BE,
          Bool.true_and]
        rfl
    · rw [h1BE] at hno
      cases hno
    · rw [h1BE] at hno
      cases hno

section

variable {f : Mem} (h : sv.IsFlat f)

include h

/-- The header of a flat form. -/
theorem IsFlat.exists_eq_cons :
    ∃ b f', f = b :: f' ∧ sv.is1BE b = false ∧ sv.is1B b = false := by
  cases f with
  | nil => cases h.plain
  | cons b f' =>
    have hplain : sv.is4BU b = true := h.plain
    rw [is4BU_eq, Bool.and_eq_true, Bool.not_eq_true', Bool.not_eq_true'] at hplain
    refine ⟨b, f', rfl, ?_, hplain.2⟩
    by_contra hexternal
    rw [Bool.not_eq_false] at hexternal
    rw [is1B_of_is1BE hexternal] at hplain
    cases hplain.2

theorem IsFlat.startsShort_eq : sv.startsShort f = false := by
  obtain ⟨b, f', rfl, -, h1B⟩ := h.exists_eq_cons
  exact h1B

theorem IsFlat.startsExpanded_eq : sv.startsExpanded f = false := by
  obtain ⟨b, f', rfl, h1BE, -⟩ := h.exists_eq_cons
  exact startsExpanded_cons h1BE f'

theorem IsFlat.varsizeAny_eq : sv.varsizeAny f = .ok f.length := by
  have hsize := h.size
  obtain ⟨b, f', rfl, h1BE, h1B⟩ := h.exists_eq_cons
  rw [varsizeAny, show Mem.load (b :: f') 0 = .ok b from rfl, Run.ok_bind, h1BE,
    if_neg Bool.false_ne_true, h1B, if_neg Bool.false_ne_true, hsize]

end

/-- Whether a value is flattened. -/
theorem Fits.flattens_eq (h : sv.Fits att m) :
    sv.flattens att m = .ok (decide (att.attlen = .varlena) && sv.startsExpanded m) := by
  unfold flattens
  by_cases hlen : att.attlen = .varlena
  · unfold Fits at h
    rw [hlen] at h
    rw [if_pos hlen, varattIsExternalExpanded_eq h.1, decide_eq_true hlen, Bool.true_and]
  · rw [if_neg hlen, decide_eq_false hlen, Bool.false_and]

theorem copy_self (m : Mem) : m.copy 0 m.length = .ok m := by
  have hcopy := @Mem.copy_of_drop m m [] 0 (by rw [List.drop_zero, List.append_nil])
  exact hcopy

/-- What `VARATT_CAN_MAKE_SHORT` says of a datum with a four-byte header. -/
theorem varattCanMakeShort_eq (hsize : sv.varsize4B m = .ok m.length) (hlen : 4 ≤ m.length) :
    sv.varattConvertedShortSize m = .ok (m.length - 3)
      ∧ sv.varattCanMakeShort m = .ok (sv.startsPlain m && m.length ≤ 130) := by
  have hlt : m.length < 2 ^ 30 := by
    obtain ⟨w, -, hw⟩ := Run.bind_eq_ok.mp hsize
    have hval := Except.ok.inj hw
    split at hval <;> omega
  have hconv : sv.varattConvertedShortSize m = .ok (m.length - 3) := by
    rw [varattConvertedShortSize, hsize, Run.ok_bind]
    refine congrArg Except.ok ?_
    omega
  refine ⟨hconv, ?_⟩
  cases m with
  | nil => cases hlen
  | cons b m' =>
    rw [varattCanMakeShort, show Mem.load (b :: m') 0 = .ok b from rfl, Run.ok_bind, hconv,
      show sv.startsPlain (b :: m') = sv.is4BU b from rfl]
    cases sv.is4BU b with
    | true =>
      rw [if_pos rfl, Bool.true_and]
      refine congrArg Except.ok (decide_eq_decide.mpr ?_)
      omega
    | false => rfl

theorem startsShort_eq {b : UInt8} (h : m.load 0 = .ok b) : sv.startsShort m = sv.is1B b := by
  have hdrop := Mem.drop_of_load h
  rw [List.drop_zero] at hdrop
  rw [startsShort, hdrop]
  rfl

/-- A datum in place is no object. -/
theorem startsExpanded_of_hasHeader {form : Form} {size : ℕ} (h : sv.HasHeader m form size) :
    sv.startsExpanded m = false := by
  obtain ⟨b, hb, -, -, hext⟩ := h.first
  have hdrop := Mem.drop_of_load hb
  rw [List.drop_zero] at hdrop
  rw [hdrop]
  exact startsExpanded_cons hext _

theorem startsShort_shortDatum {t : List UInt8} (fits : t.length ≤ 126) :
    sv.startsShort (sv.shortDatum t) = true := by
  have hheader := sv.hasHeader_shortDatum fits []
  rw [List.append_nil] at hheader
  obtain ⟨b, hb, -, hs, -⟩ := hheader.first
  rw [startsShort_eq hb, hs]
  rfl

/-- An object is stored flat. -/
theorem stored_of_expanded (hlen : att.attlen = .varlena) (h : sv.startsExpanded m = true) :
    sv.stored att m = sv.flatForm m := if_pos ⟨hlen, h⟩

/-- What is no object is stored with a short header, or as it is. -/
theorem stored_of_not_expanded (h : ¬(att.attlen = .varlena ∧ sv.startsExpanded m = true)) :
    sv.stored att m = if att.isPackable && (sv.startsPlain m && m.length ≤ 130) then
      sv.shortDatum (m.drop 4) else m := if_neg h

theorem stored_of_ne_varlena (hlen : att.attlen ≠ .varlena) : sv.stored att m = m := by
  rw [stored_of_not_expanded fun h => hlen h.1]
  exact if_neg (by simp [Attribute.isPackable, hlen])

/-- A datum without a four-byte header is stored as it is, if it is no object. -/
theorem stored_of_startsShort (h : sv.startsShort m = true) (hexp : sv.startsExpanded m = false) :
    sv.stored att m = m := by
  rw [stored_of_not_expanded (not_object hexp att)]
  refine if_neg ?_
  have hplain : sv.startsPlain m = false := by
    cases m with
    | nil => rfl
    | cons b m' =>
      have hb : sv.is1B b = true := h
      show sv.is4BU b = false
      rw [is4BU_eq, hb, Bool.not_true, Bool.and_false]
  rw [hplain, Bool.false_and, Bool.and_false]
  exact Bool.false_ne_true

theorem stored_of_startsExternal (h : sv.startsExternal m = true) : sv.stored att m = m :=
  stored_of_startsShort (startsShort_of_startsExternal h) (startsExpanded_of_startsExternal h)

/-- Whether a datum with a four-byte header gets a short one. -/
theorem packs_eq (hsize : sv.varsize4B m = .ok m.length) (hlen : 4 ≤ m.length) :
    sv.packs att m = .ok (att.isPackable && (sv.startsPlain m && m.length ≤ 130)) := by
  unfold packs
  cases att.isPackable with
  | true => exact (varattCanMakeShort_eq hsize hlen).2
  | false => rfl

/-- **What `fill_val` writes for a value, and where.** -/
theorem fillBytes_eq (h : sv.Fits att m) (data : ℕ) :
    sv.fillBytes att m data = .ok (sv.stored att m, sv.start att (sv.stored att m) data,
      decide (att.attlen = .varlena) && sv.startsExternal m) := by
  unfold Fits at h
  unfold fillBytes
  cases hlen : att.attlen with
  | fixed n =>
    rw [hlen] at h
    dsimp only at h ⊢
    rw [stored_of_ne_varlena (by rw [hlen]; nofun), start_of_ne_varlena (by rw [hlen]; nofun), ← h,
      copy_self]
    rfl
  | cstring =>
    rw [hlen] at h
    obtain ⟨t, hzero, rfl⟩ := h
    have hstrlen : strlen (t ++ [0]) = .ok t.length := by
      rw [strlen, if_pos (by simp), List.idxOf_append_of_notMem hzero]
      simp
    have hcopy := copy_self (t ++ [0])
    rw [List.length_append, List.length_singleton] at hcopy
    dsimp only
    rw [stored_of_ne_varlena (by rw [hlen]; nofun), start_of_ne_varlena (by rw [hlen]; nofun),
      att.cstring_align hlen,
      attAlignNominal_char, hstrlen, Run.ok_bind, hcopy]
    rfl
  | varlena =>
    rw [hlen] at h
    dsimp only at h ⊢
    have hexpanded := varattIsExternalExpanded_eq h.1
    obtain ⟨b, m', rfl, hcases⟩ := varlena_cases h.1
    have hexternal : sv.varattIsExternal (b :: m') = .ok (sv.is1BE b) := rfl
    have hshort : sv.varattIsShort (b :: m') = .ok (sv.is1B b) := rfl
    have hstarts : sv.startsShort (b :: m') = sv.is1B b := rfl
    rw [hexternal, Run.ok_bind, hshort, hexpanded, Run.ok_bind,
      show sv.startsExternal (b :: m') = (sv.is1BE b && !sv.startsExpanded (b :: m')) from rfl]
    rcases hcases with ⟨h1BE, hsize⟩ | ⟨h1BE, h1B, hsize⟩ | ⟨h1BE, h1B, hsize, hfour⟩
    · rw [h1BE, if_pos rfl]
      cases hexp : sv.startsExpanded (b :: m') with
      | true =>
        -- an object
        obtain ⟨hflat, hisflat⟩ := h.2 hexp
        rw [if_pos rfl, hflat, Run.ok_bind, stored_of_expanded hlen hexp, start,
          if_neg fun hh => by rw [hisflat.startsShort_eq] at hh; cases hh.2]
        rfl
      | false =>
        rw [is1B_of_is1BE h1BE] at hstarts
        rw [stored_of_startsShort hstarts hexp, start_of_startsShort hlen hstarts,
          if_neg Bool.false_ne_true, hsize, Run.ok_bind, copy_self]
        rfl
    · rw [h1B] at hstarts
      rw [stored_of_startsShort hstarts (startsExpanded_cons h1BE m'),
        start_of_startsShort hlen hstarts, h1BE, if_neg Bool.false_ne_true, Run.ok_bind, h1B,
        if_pos rfl, hsize, Run.ok_bind, copy_self]
      rfl
    · rw [h1B] at hstarts
      have hconv := (varattCanMakeShort_eq hsize hfour).1
      rw [h1BE, if_neg Bool.false_ne_true, Run.ok_bind, h1B, if_neg Bool.false_ne_true,
        packs_eq hsize hfour, Run.ok_bind,
        stored_of_not_expanded (not_object (startsExpanded_cons h1BE m') att)]
      by_cases hpack : (att.isPackable && (sv.startsPlain (b :: m')
          && decide ((b :: m').length ≤ 130))) = true
      · -- a short header
        have hcopy := @Mem.copy_of_drop (b :: m') ((b :: m').drop 4) [] 4 (List.append_nil _).symm
        rw [List.length_drop] at hcopy
        have hfirst : sv.startsShort (sv.shortDatum ((b :: m').drop 4)) = true := by
          simp only [Bool.and_eq_true, decide_eq_true_eq] at hpack
          exact startsShort_shortDatum (by rw [List.length_drop]; omega)
        rw [if_pos hpack, if_pos hpack, hconv, Run.ok_bind,
          show (b :: m').length - 3 - 1 = (b :: m').length - 4 by omega, hcopy, Run.ok_bind,
          start_of_startsShort hlen hfirst, shortDatum, List.length_drop,
          show (b :: m').length - 4 + 1 = (b :: m').length - 3 by omega]
        rfl
      · rw [if_neg hpack, if_neg hpack, hsize, Run.ok_bind, copy_self, Run.ok_bind, start,
          if_neg (fun hh => by rw [hstarts] at hh; cases hh.2)]
        rfl

/-- What is stored is a value of the column, and no object. -/
theorem Fits.stored (h : sv.Fits att m) : sv.Fits att (sv.stored att m) := by
  by_cases hexp : att.attlen = .varlena ∧ sv.startsExpanded m = true
  · rw [stored_of_expanded hexp.1 hexp.2]
    unfold Fits at h ⊢
    rw [hexp.1] at h ⊢
    have hflat := (h.2 hexp.2).2
    exact ⟨hflat.varsizeAny_eq, fun hno => by rw [hflat.startsExpanded_eq] at hno; cases hno⟩
  · rw [stored_of_not_expanded hexp]
    by_cases hpack : (att.isPackable && (sv.startsPlain m && m.length ≤ 130)) = true
    · rw [if_pos hpack]
      simp only [Attribute.isPackable, Bool.and_eq_true, decide_eq_true_eq] at hpack
      have hfits : (m.drop 4).length ≤ 126 := by
        rw [List.length_drop]
        omega
      have hheader := sv.hasHeader_shortDatum hfits []
      rw [List.append_nil] at hheader
      unfold Fits
      rw [hpack.1.1]
      refine ⟨hheader.varsizeAny_eq, fun hno => ?_⟩
      rw [startsExpanded_of_hasHeader hheader] at hno
      cases hno
    · rwa [if_neg hpack]

/-- Whether a value gets a short header. -/
theorem Fits.packs_eq (h : sv.Fits att m) :
    sv.packs att m = .ok (att.isPackable && (sv.startsPlain m && m.length ≤ 130)) := by
  by_cases hlen : att.attlen = .varlena
  · unfold Fits at h
    rw [hlen] at h
    obtain ⟨b, m', rfl, hcases⟩ := varlena_cases h.1
    have hshort : sv.is1B b = true → sv.packs att (b :: m')
        = .ok (att.isPackable && (sv.startsPlain (b :: m') && (b :: m').length ≤ 130)) := by
      intro h1B
      have hplain : sv.is4BU b = false := by
        rw [is4BU_eq, h1B, Bool.not_true, Bool.and_false]
      rw [show sv.startsPlain (b :: m') = sv.is4BU b from rfl, hplain, Bool.false_and,
        Bool.and_false, packs, varattCanMakeShort, show Mem.load (b :: m') 0 = .ok b from rfl,
        Run.ok_bind, hplain]
      cases att.isPackable <;> rfl
    rcases hcases with ⟨h1BE, -⟩ | ⟨-, h1B, -⟩ | ⟨-, -, hsize, hfour⟩
    · exact hshort (is1B_of_is1BE h1BE)
    · exact hshort h1B
    · exact Server.packs_eq hsize hfour
  · have hpackable : att.isPackable = false := by simp [Attribute.isPackable, hlen]
    rw [packs, hpackable]
    rfl

/-- Reading a word does not look at what is behind it. -/
theorem loadWord_append {i w : ℕ} (h : sv.loadWord m i = .ok w) (rest : Mem) :
    sv.loadWord (m ++ rest) i = .ok w := by
  have hlen := le_length_of_loadWord h
  rw [← h]
  unfold loadWord
  rw [Mem.load_append_of_lt (by omega), Mem.load_append_of_lt (by omega),
    Mem.load_append_of_lt (by omega), Mem.load_append_of_lt (by omega)]

/-- The size of a datum is told by its own bytes. -/
theorem varsizeAny_append (h : sv.varsizeAny m = .ok m.length) (rest : Mem) :
    sv.varsizeAny (m ++ rest) = .ok m.length := by
  obtain ⟨b, m', rfl, hcases⟩ := varlena_cases h
  rw [varsizeAny, show Mem.load (b :: m' ++ rest) 0 = .ok b from rfl, Run.ok_bind]
  rcases hcases with ⟨h1BE, hsize⟩ | ⟨h1BE, h1B, hsize⟩ | ⟨h1BE, h1B, hsize, -⟩
  · obtain ⟨tag, htag, hval⟩ := Run.bind_eq_ok.mp hsize
    have hlen := Mem.exists_load_iff.mp ⟨tag, htag⟩
    rw [h1BE, if_pos rfl, varsizeExternal, Mem.load_append_of_lt hlen, htag]
    exact hval
  · rw [h1BE, if_neg Bool.false_ne_true, h1B, if_pos rfl]
    exact hsize
  · obtain ⟨w, hw, hval⟩ := Run.bind_eq_ok.mp hsize
    rw [h1BE, if_neg Bool.false_ne_true, h1B, if_neg Bool.false_ne_true, varsize4B,
      loadWord_append hw]
    exact hval

/-- **The end of a value**, from its own bytes. -/
theorem Fits.attAddlengthPointer_eq (h : sv.Fits att m) (off : ℕ) (rest : Mem) :
    sv.attAddlengthPointer off att (m ++ rest) = .ok (off + m.length) := by
  unfold Fits at h
  unfold attAddlengthPointer
  cases hlen : att.attlen with
  | fixed n =>
    rw [hlen] at h
    exact congrArg (fun n => Except.ok (off + n)) h.symm
  | varlena =>
    rw [hlen] at h
    dsimp only
    rw [varsizeAny_append h.1]
    rfl
  | cstring =>
    rw [hlen] at h
    obtain ⟨t, hzero, rfl⟩ := h
    have hstrlen : strlen (t ++ [0] ++ rest) = .ok t.length := by
      rw [strlen, if_pos (by simp), List.append_assoc, List.idxOf_append_of_notMem hzero]
      simp
    dsimp only
    rw [hstrlen, List.length_append]
    rfl

/-- The start of a value that is stored as it is. -/
theorem Fits.attAlignDatum_eq (h : sv.Fits att m) (off : ℕ) :
    sv.attAlignDatum off att m = .ok (sv.start att m off) := by
  by_cases hlen : att.attlen = .varlena
  · unfold Fits at h
    rw [hlen] at h
    obtain ⟨b, m', rfl, -⟩ := varlena_cases h.1
    rw [attAlignDatum, if_pos hlen, show sv.varattIsShort (b :: m') = .ok (sv.is1B b) from rfl,
      Run.ok_bind, start, show sv.startsShort (b :: m') = sv.is1B b from rfl]
    cases sv.is1B b with
    | true => rw [if_pos rfl, if_pos ⟨hlen, rfl⟩]; rfl
    | false => rw [if_neg Bool.false_ne_true, if_neg (fun hh => by cases hh.2)]; rfl
  · rw [attAlignDatum, if_neg hlen, start_of_ne_varlena hlen]
    rfl

/-- What is packed is no object, and has a header of four bytes. -/
theorem Fits.of_packs (h : sv.Fits att m)
    (hpack : (att.isPackable && (sv.startsPlain m && m.length ≤ 130)) = true) :
    att.attlen = .varlena ∧ sv.startsExpanded m = false ∧ (m.drop 4).length ≤ 126
      ∧ sv.varattConvertedShortSize m = .ok (m.length - 3) ∧ 4 ≤ m.length := by
  simp only [Attribute.isPackable, Bool.and_eq_true, decide_eq_true_eq] at hpack
  have hlen := hpack.1.1
  unfold Fits at h
  rw [hlen] at h
  obtain ⟨b, m', rfl, hcases⟩ := varlena_cases h.1
  have hplain : sv.is4BU b = true := hpack.2.1
  rw [is4BU_eq, Bool.and_eq_true, Bool.not_eq_true', Bool.not_eq_true'] at hplain
  rcases hcases with ⟨h1BE, -⟩ | ⟨-, h1B, -⟩ | ⟨h1BE, -, hsize, hfour⟩
  · rw [is1B_of_is1BE h1BE] at hplain
    cases hplain.2
  · rw [h1B] at hplain
    cases hplain.2
  · refine ⟨hlen, startsExpanded_cons h1BE m', ?_, (varattCanMakeShort_eq hsize hfour).1, hfour⟩
    rw [List.length_drop]
    omega

/-- **What `heap_compute_data_size` adds is what `fill_val` takes.** -/
theorem addDataSize_eq (h : sv.Fits att m) (dataLength : ℕ) :
    sv.addDataSize att m dataLength
      = .ok (sv.start att (sv.stored att m) dataLength + (sv.stored att m).length) := by
  rw [addDataSize, h.packs_eq, Run.ok_bind]
  by_cases hpack : (att.isPackable && (sv.startsPlain m && m.length ≤ 130)) = true
  · obtain ⟨hlen, hexp, hshort, hconv, hfour⟩ := h.of_packs hpack
    have hlength : (sv.shortDatum (m.drop 4)).length = m.length - 3 := by
      rw [shortDatum, List.length_cons, List.length_drop]
      omega
    rw [if_pos hpack, stored_of_not_expanded (not_object hexp att), if_pos hpack, hconv, Run.ok_bind,
      start_of_startsShort hlen (startsShort_shortDatum hshort), hlength]
    rfl
  · rw [if_neg hpack, h.flattens_eq, Run.ok_bind]
    by_cases hexp : att.attlen = .varlena ∧ sv.startsExpanded m = true
    · have hobject := h
      unfold Fits at hobject
      rw [hexp.1] at hobject
      obtain ⟨hflat, hisflat⟩ := hobject.2 hexp.2
      rw [decide_eq_true hexp.1, hexp.2, Bool.and_self, if_pos rfl, hflat, Run.ok_bind,
        stored_of_expanded hexp.1 hexp.2, start,
        if_neg fun hh => by rw [hisflat.startsShort_eq] at hh; cases hh.2]
      rfl
    · have hend := h.attAddlengthPointer_eq (sv.start att m dataLength) []
      rw [List.append_nil] at hend
      have hno : (decide (att.attlen = .varlena) && sv.startsExpanded m) ≠ true := by
        rwa [ne_eq, Bool.and_eq_true, decide_eq_true_eq]
      rw [if_neg hno, stored_of_not_expanded hexp, if_neg hpack, h.attAlignDatum_eq, Run.ok_bind,
        hend]

/-! ## Writing a row -/

/-- Every value is one of its column. -/
def AllFit (sv : Server) (cols : List (Attribute × Option Mem)) : Prop :=
  ∀ col ∈ cols, ∀ m ∈ col.2, sv.Fits col.1 m

/-- Some value is a pointer to an out-of-line one. -/
def anyExternal (sv : Server) (cols : List (Attribute × Option Mem)) : Bool :=
  cols.any fun col => decide (col.1.attlen = .varlena) && col.2.any sv.startsExternal

section

variable {cols : List (Attribute × Option Mem)}

theorem AllFit.tail {col : Attribute × Option Mem} (h : sv.AllFit (col :: cols)) : sv.AllFit cols :=
  fun c hc => h c (List.mem_cons_of_mem _ hc)

/-- What is written first stays. -/
theorem exists_layout_eq (cols : List (Attribute × Option Mem)) (data : Mem) :
    ∃ rest, sv.layout cols data = data ++ rest := by
  induction cols generalizing data with
  | nil => exact ⟨[], (List.append_nil _).symm⟩
  | cons col cols ih =>
    obtain ⟨att, _ | m⟩ := col
    · exact ih data
    · obtain ⟨rest, hrest⟩ := ih (sv.place att data (sv.stored att m))
      rw [place, List.append_assoc] at hrest
      exact ⟨_, hrest⟩

theorem layout_append (cols cols' : List (Attribute × Option Mem)) (data : Mem) :
    sv.layout (cols ++ cols') data = sv.layout cols' (sv.layout cols data) := by
  induction cols generalizing data with
  | nil => rfl
  | cons col cols ih =>
    obtain ⟨att, _ | m⟩ := col
    · exact ih data
    · exact ih _

/-- **The size that is worked out first is the size of what is written.** -/
theorem AllFit.computeDataSizeFrom_eq (h : sv.AllFit cols) (data : Mem) :
    sv.computeDataSizeFrom cols data.length = .ok (sv.layout cols data).length := by
  induction cols generalizing data with
  | nil => rfl
  | cons col cols ih =>
    obtain ⟨att, _ | m⟩ := col
    · exact ih h.tail data
    · have hm : sv.Fits att m := h _ List.mem_cons_self m rfl
      rw [computeDataSizeFrom, addDataSize_eq hm, Run.ok_bind, ← length_place, ih h.tail]
      rfl

/-- In memory that is cleared, zeros are there already. -/
theorem overlay_zeros {N k : ℕ} {d : Mem} (h : d.length + k ≤ N) :
    Mem.overlay (List.replicate N 0) d
      = Mem.overlay (List.replicate N 0) (d ++ List.replicate k 0) := by
  unfold Mem.overlay
  rw [List.append_assoc, List.drop_replicate, List.drop_replicate, List.length_append,
    List.length_replicate, ← List.replicate_add]
  exact congrArg (fun n => d ++ List.replicate n 0) (by omega)

/-- **One value**: its bytes go behind the others, and the rest of the memory stays. -/
theorem storeAll_place {N : ℕ} {d : Mem} (hroom : (sv.place att d m).length ≤ N) :
    (Mem.overlay (List.replicate N 0) d).storeAll (sv.start att m d.length) m
      = .ok (Mem.overlay (List.replicate N 0) (sv.place att d m)) := by
  have hle := sv.le_start att m d.length
  rw [length_place] at hroom
  have hpad : (d ++ List.replicate (sv.start att m d.length - d.length) (0 : UInt8)).length
      = sv.start att m d.length := by
    rw [List.length_append, List.length_replicate]
    omega
  have hstore := @Mem.storeAll_overlay (List.replicate N 0)
    (d ++ List.replicate (sv.start att m d.length - d.length) 0) m
    (by rw [hpad, List.length_replicate]; exact hroom)
  rw [hpad, List.append_assoc] at hstore
  rw [overlay_zeros (show d.length + (sv.start att m d.length - d.length) ≤ N by omega), hstore]
  rfl

/-- The bitmap, if there is one, tells which of the values so far are null. -/
def NullsHold (nulls : Option NullBits) (isnull : List Bool) (size : ℕ) : Prop :=
  ∀ nb ∈ nulls, nb.Holds isnull size

/-- The bitmap goes along. -/
theorem exists_fill_nulls {nulls : Option NullBits} {isnull : List Bool} {size : ℕ}
    (h : NullsHold nulls isnull size) (hroom : isnull.length / 8 < size) (null : Bool) :
    ∃ nulls', (nulls.elim (.ok none) fun nb => some <$> nb.fill null : Run (Option NullBits))
        = .ok nulls' ∧ nulls'.isSome = nulls.isSome ∧ NullsHold nulls' (isnull ++ [null]) size := by
  cases nulls with
  | none => exact ⟨none, rfl, rfl, nofun⟩
  | some nb =>
    obtain ⟨nb', hfill, hholds⟩ := (h nb rfl).fill hroom null
    refine ⟨some nb', ?_, rfl, ?_⟩
    · rw [Option.elim_some, hfill]
      rfl
    · intro _ hmem
      cases hmem
      exact hholds

/-- A null has a bit and no bytes. -/
theorem fillVal_none {st : FillState} {nulls : Option NullBits}
    (hfill : (st.nulls.elim (.ok none) fun nb => some <$> nb.fill true) = .ok nulls)
    (hsome : nulls.isSome = true) (att : Attribute) :
    sv.fillVal st att none = .ok { st with nulls := nulls, hasnull := true } := by
  unfold fillVal
  rw [show (none : Option Mem).isNone = true from rfl, hfill, Run.ok_bind, hsome]
  rfl

/-- **One value**, into memory that has room for it. -/
theorem Fits.exists_fillVal_eq (hm : sv.Fits att m) {N : ℕ} {d : Mem} {st : FillState}
    {nulls : Option NullBits}
    (hfill : (st.nulls.elim (.ok none) fun nb => some <$> nb.fill false) = .ok nulls)
    (hmem : st.mem = Mem.overlay (List.replicate N 0) d) (hdata : st.data = d.length)
    (hroom : (sv.place att d (sv.stored att m)).length ≤ N) :
    ∃ st', sv.fillVal st att (some m) = .ok st' ∧ st'.nulls = nulls
      ∧ st'.mem = Mem.overlay (List.replicate N 0) (sv.place att d (sv.stored att m))
      ∧ st'.data = (sv.place att d (sv.stored att m)).length ∧ st'.hasnull = st.hasnull
      ∧ st'.hasexternal
        = (st.hasexternal || (decide (att.attlen = .varlena) && sv.startsExternal m)) := by
  unfold fillVal
  rw [show (some m).isNone = false from rfl, hfill, Run.ok_bind, Bool.and_false,
    if_neg Bool.false_ne_true, Option.elim_some, Run.ok_bind, hdata, fillBytes_eq hm, Run.ok_bind]
  dsimp only
  rw [hmem, storeAll_place hroom, Run.ok_bind, length_place]
  exact ⟨_, rfl, rfl, rfl, rfl, rfl, rfl⟩

/-- **The loop of `heap_fill_tuple`** writes the row, and its bitmap if it is to have one. It
must have one if a value is null. -/
theorem AllFit.exists_fillVals_eq (h : sv.AllFit cols) {N size : ℕ} {d : Mem} {isnull : List Bool}
    (hroom : (sv.layout cols d).length ≤ N) (hsize : isnull.length + cols.length ≤ size * 8)
    {st : FillState} (hmem : st.mem = Mem.overlay (List.replicate N 0) d)
    (hdata : st.data = d.length) (hnulls : NullsHold st.nulls isnull size)
    (hnone : st.nulls = none → ∀ col ∈ cols, col.2.isNone = false) :
    ∃ st', sv.fillVals st cols = .ok st'
      ∧ st'.mem = Mem.overlay (List.replicate N 0) (sv.layout cols d)
      ∧ NullsHold st'.nulls (isnull ++ cols.map fun col => col.2.isNone) size
      ∧ st'.nulls.isSome = st.nulls.isSome
      ∧ st'.hasnull = (st.hasnull || cols.any fun col => col.2.isNone)
      ∧ st'.hasexternal = (st.hasexternal || sv.anyExternal cols) := by
  induction cols generalizing st d isnull with
  | nil =>
    refine ⟨st, rfl, hmem, ?_, rfl, (Bool.or_false _).symm, (Bool.or_false _).symm⟩
    rwa [List.map_nil, List.append_nil]
  | cons col cols ih =>
    rw [List.length_cons] at hsize
    obtain ⟨nulls', hfill, hsome, hholds⟩ :=
      exists_fill_nulls hnulls (show isnull.length / 8 < size by omega) col.2.isNone
    have hlen : (isnull ++ [col.2.isNone]).length + cols.length ≤ size * 8 := by
      rw [List.length_append, List.length_singleton]
      omega
    obtain ⟨att, _ | m⟩ := col
    · have hbits : nulls'.isSome = true := by
        rw [hsome]
        cases hst : st.nulls with
        | some nb => rfl
        | none => cases hnone hst _ List.mem_cons_self
      obtain ⟨st', hrun, hmem', hholds', hsome', hhas, hext⟩ :=
        @ih h.tail d (isnull ++ [true]) hroom hlen { st with nulls := nulls', hasnull := true } hmem
          hdata hholds fun hno => by
            rw [show nulls' = none from hno] at hbits
            cases hbits
      refine ⟨st', ?_, hmem', ?_, hsome'.trans hsome, ?_, ?_⟩
      · rw [fillVals, fillVal_none hfill hbits]
        exact hrun
      · rwa [List.append_assoc] at hholds'
      · rw [hhas]
        simp
      · rw [hext]
        simp [anyExternal]
    · have hm : sv.Fits att m := h _ List.mem_cons_self m rfl
      have hplace : (sv.place att d (sv.stored att m)).length ≤ N := by
        obtain ⟨rest, hrest⟩ := @exists_layout_eq sv cols (sv.place att d (sv.stored att m))
        have hroom' : (sv.layout cols (sv.place att d (sv.stored att m))).length ≤ N := hroom
        rw [hrest, List.length_append] at hroom'
        omega
      obtain ⟨next, hstep, rfl, hnmem, hndata, hnhas, hnext⟩ :=
        hm.exists_fillVal_eq hfill hmem hdata hplace
      obtain ⟨st', hrun, hmem', hholds', hsome', hhas, hext⟩ :=
        @ih h.tail (sv.place att d (sv.stored att m)) (isnull ++ [false]) hroom hlen next hnmem hndata
          hholds fun hno col hcol => by
            rw [hno] at hsome
            refine hnone ?_ col (List.mem_cons_of_mem _ hcol)
            exact Option.not_isSome_iff_eq_none.mp (by rw [← hsome]; exact Bool.false_ne_true)
      refine ⟨st', ?_, hmem', ?_, hsome'.trans hsome, ?_, ?_⟩
      · rw [fillVals, hstep]
        exact hrun
      · rwa [List.append_assoc] at hholds'
      · rw [hhas, hnhas]
        simp
      · rw [hext, hnext]
        simp [anyExternal, Bool.or_assoc]

/-- **A row that holds values**: what is stored for them, and a bitmap that tells the nulls. -/
structure Holds (tup : HeapTuple) (cols : List (Attribute × Option Mem)) : Prop where
  natts_eq : tup.natts = cols.length
  hasnull_eq : tup.hasnull = cols.any fun col => col.2.isNone
  hasexternal_eq : tup.hasexternal = sv.anyExternal cols
  data_eq : tup.data = sv.layout cols []
  nulls : ∀ i null, (cols.map fun col => col.2.isNone)[i]? = some null →
    (if tup.hasnull then attIsnull i tup.bits else .ok false) = .ok null

theorem AllFit.heapComputeDataSize_eq (h : sv.AllFit cols) :
    sv.heapComputeDataSize cols = .ok (sv.layout cols []).length :=
  h.computeDataSizeFrom_eq []

/-- **A row is written without leaving its memory.** -/
theorem AllFit.exists_heapFillTuple_eq (h : sv.AllFit cols) :
    ∃ tup, sv.heapFillTuple (cols.any fun col => col.2.isNone) (sv.layout cols []).length cols
        = .ok tup ∧ sv.Holds tup cols := by
  have hcap : cols.length ≤ bitmaplen cols.length * 8 := by
    rw [bitmaplen]
    omega
  have hmem : Mem.overlay (List.replicate (sv.layout cols []).length 0) (sv.layout cols [])
      = sv.layout cols [] := Mem.overlay_of_length (Nat.le_of_eq List.length_replicate)
  rw [heapFillTuple]
  cases hany : cols.any fun col => col.2.isNone with
  | true =>
    have hstart : NullBits.Holds ⟨List.replicate (bitmaplen cols.length) 0, -1, highbit⟩ []
        (bitmaplen cols.length) :=
      ⟨List.length_replicate, rfl, rfl, nofun, fun i _ hlt => absurd hlt (Nat.not_lt_zero i)⟩
    obtain ⟨st', hrun, hmem', hholds, hsome, hhas, hext⟩ := @exists_fillVals_eq sv cols h
      (sv.layout cols []).length (bitmaplen cols.length) [] [] (Nat.le_refl _)
      (by rw [List.length_nil, Nat.zero_add]; exact hcap)
      ⟨some ⟨List.replicate (bitmaplen cols.length) 0, -1, highbit⟩,
        List.replicate (sv.layout cols []).length 0, 0, false, false, false⟩ rfl rfl
      (fun nb hnb => by cases hnb; exact hstart) nofun
    obtain ⟨nb, hnb⟩ := Option.isSome_iff_exists.mp hsome
    have hholds := hholds nb hnb
    rw [hany, Bool.false_or] at hhas
    rw [if_pos rfl, hrun, Run.ok_bind]
    refine ⟨_, rfl, rfl, hhas.trans hany.symm, hext, hmem'.trans hmem, fun i null hi => ?_⟩
    dsimp only
    rw [hhas, if_pos rfl, hnb]
    exact hholds.attIsnull_eq hi (by rw [List.nil_append, List.length_map]; exact hcap)
  | false =>
    have hall : ∀ col ∈ cols, col.2.isNone = false := fun col hcol =>
      Bool.eq_false_iff.mpr (List.any_eq_false.mp hany col hcol)
    obtain ⟨st', hrun, hmem', -, hsome, hhas, hext⟩ := @exists_fillVals_eq sv cols h
      (sv.layout cols []).length (bitmaplen cols.length) [] [] (Nat.le_refl _)
      (by rw [List.length_nil, Nat.zero_add]; exact hcap)
      ⟨none, List.replicate (sv.layout cols []).length 0, 0, false, false, false⟩ rfl rfl
      nofun (fun _ => hall)
    rw [hany, Bool.false_or] at hhas
    rw [if_neg Bool.false_ne_true, hrun, Run.ok_bind]
    refine ⟨_, rfl, rfl, hhas.trans hany.symm, hext, hmem'.trans hmem, fun i null hi => ?_⟩
    dsimp only
    rw [hhas, if_neg Bool.false_ne_true]
    rw [List.getElem?_map, Option.map_eq_some_iff] at hi
    obtain ⟨col, hcol, rfl⟩ := hi
    rw [hall col (List.mem_of_getElem? hcol)]

/-- What `heap_form_tuple` and the others ask for. -/
def allocSize (sv : Server) (extra : ℕ) (cols : List (Attribute × Option Mem)) : ℕ :=
  extra + (headerLen (cols.any fun col => col.2.isNone) cols.length + (sv.layout cols []).length)

theorem AllFit.buildTuple_eq (h : sv.AllFit cols) (extra : ℕ) :
    sv.buildTuple extra (cols.any fun col => col.2.isNone) cols
      = (palloc (sv.allocSize extra cols : ℕ) >>= fun _ =>
        sv.heapFillTuple (cols.any fun col => col.2.isNone) (sv.layout cols []).length cols) := by
  rw [buildTuple, h.heapComputeDataSize_eq, Run.ok_bind]
  rfl

/-- **A row is built if it is not too large.** -/
theorem AllFit.exists_buildTuple_eq (h : sv.AllFit cols) {extra : ℕ}
    (hsize : sv.allocSize extra cols ≤ maxAllocSize) :
    ∃ tup, sv.buildTuple extra (cols.any fun col => col.2.isNone) cols = .ok tup
      ∧ sv.Holds tup cols := by
  obtain ⟨tup, hfill, hholds⟩ := h.exists_heapFillTuple_eq
  refine ⟨tup, ?_, hholds⟩
  rw [h.buildTuple_eq, palloc_of_le (by omega) (by exact_mod_cast hsize), Run.ok_bind, hfill]

/-- And a row that was built holds its values. -/
theorem AllFit.holds_of_buildTuple_eq (h : sv.AllFit cols) {extra : ℕ} {tup : HeapTuple}
    (hrun : sv.buildTuple extra (cols.any fun col => col.2.isNone) cols = .ok tup) :
    sv.Holds tup cols := by
  obtain ⟨tup', hfill, hholds⟩ := h.exists_heapFillTuple_eq
  rw [h.buildTuple_eq] at hrun
  obtain ⟨-, -, hrun⟩ := Run.bind_eq_ok.mp hrun
  rw [hfill] at hrun
  cases hrun
  exact hholds

/-- **`heap_form_tuple`** succeeds within its two limits. -/
theorem AllFit.exists_heapFormTuple_eq (h : sv.AllFit cols)
    (hnatts : cols.length ≤ maxTupleAttributeNumber)
    (hsize : sv.allocSize heaptuplesize cols ≤ maxAllocSize) :
    ∃ tup, sv.heapFormTuple cols = .ok tup ∧ sv.Holds tup cols := by
  rw [heapFormTuple, if_neg (Nat.not_lt.mpr hnatts)]
  exact h.exists_buildTuple_eq hsize

theorem AllFit.holds_of_heapFormTuple_eq (h : sv.AllFit cols) {tup : HeapTuple}
    (hrun : sv.heapFormTuple cols = .ok tup) : sv.Holds tup cols := by
  rw [heapFormTuple] at hrun
  split at hrun
  · cases hrun
  · exact h.holds_of_buildTuple_eq hrun

/-- **The data of a row are not larger than its values**, and what is between them. -/
theorem length_layout_le (cols : List (Attribute × Option Mem)) (data : Mem) :
    (sv.layout cols data).length
      ≤ data.length
        + (cols.map fun col => col.2.elim 0 fun m => (sv.stored col.1 m).length + 7).sum := by
  induction cols generalizing data with
  | nil => exact Nat.le_refl _
  | cons col cols ih =>
    obtain ⟨att, _ | m⟩ := col
    · have := ih data
      simp only [layout, List.map_cons, List.sum_cons, Option.elim_none]
      omega
    · have hrest := ih (sv.place att data (sv.stored att m))
      have hpad := sv.start_le att (sv.stored att m) data.length
      rw [length_place] at hrest
      simp only [layout, List.map_cons, List.sum_cons, Option.elim_some]
      omega

end

end Server
