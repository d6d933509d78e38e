import Hoco.Memory

/-!
# Variable-length datums

A datum of a variable-length type starts with a header that gives its form and
its size. There are three inline forms:

* a plain datum has a four-byte header and then its data;
* a compressed datum has a four-byte header, a word with the raw size and the
  compression method, and then the compressed data;
* a short datum has a one-byte header and then its data.

The form is read off two bits, or one, of the *first* byte in memory. Which
bits these are, and in what order the bytes of the header word lie in memory,
depends on the byte order of the machine, which is a parameter throughout
(`Server`). The macros keep their names. `varsize4B` is the one to watch: it
reads four bytes as a header word and is meant for a datum that has one, and
on a short datum it reads three bytes of data, or of what lies behind the
datum, as if they were part of the size.
-/

/-- The functions of the LZ4 library, as the server calls them. A function that
writes returns its return value and the bytes it wrote. -/
structure Lz4 where
  compressBound : ℤ → ℤ
  compressDefault : List UInt8 → ℤ → ℤ × List UInt8
  decompressSafe : Mem → ℤ → ℤ → Run (ℤ × List UInt8)

/-- What the modelled functions take from their surroundings: two choices of
the platform, a setting, and the parts of the server that are not modelled. -/
structure Server where
  /-- Words are stored most significant byte first. -/
  bigEndian : Bool
  /-- `char` is a signed type. -/
  charSigned : Bool
  /-- `default_toast_compression`. -/
  defaultToastCompression : Char
  /-- What fetching an out-of-line datum returns. -/
  fetchExternal : Mem → Run Mem
  /-- What `EOH_flatten_into` writes for the expanded object that a pointer is to: as many
  bytes as `EOH_get_flat_size` returns. -/
  flatten : Mem → Run Mem
  /-- `pglz_compress` with its default strategy: the bytes written, or nothing
  for `-1`. -/
  pglzCompress : List UInt8 → Option (List UInt8)
  /-- The LZ4 library, if the server is built with it. -/
  lz4 : Option Lz4

namespace Server

/-- A little-endian server with signed characters and the default settings,
without out-of-line values, whose `pglz` gives up on every text and which is
built without LZ4. -/
def littleEndian : Server where
  bigEndian := false
  charSigned := true
  defaultToastCompression := 'p'
  fetchExternal := fun _ => .error .fault
  flatten := fun _ => .error .fault
  pglzCompress := fun _ => none
  lz4 := none

variable (sv : Server)

/-! ## Words in memory -/

/-- The value of a 32-bit word, from its bytes in memory order. -/
def word (b₀ b₁ b₂ b₃ : UInt8) : ℕ :=
  if sv.bigEndian then b₀.toNat * 2 ^ 24 + b₁.toNat * 2 ^ 16 + b₂.toNat * 2 ^ 8 + b₃.toNat
  else b₃.toNat * 2 ^ 24 + b₂.toNat * 2 ^ 16 + b₁.toNat * 2 ^ 8 + b₀.toNat

/-- The bytes of a 32-bit word, in memory order. -/
def wordBytes (w : ℕ) : List UInt8 :=
  let bytes := [UInt8.ofNat w, UInt8.ofNat (w / 2 ^ 8), UInt8.ofNat (w / 2 ^ 16),
    UInt8.ofNat (w / 2 ^ 24)]
  if sv.bigEndian then bytes.reverse else bytes

/-- Reading a 32-bit word. -/
def loadWord (m : Mem) (i : ℕ) : Run ℕ := do
  let b₀ ← m.load i
  let b₁ ← m.load (i + 1)
  let b₂ ← m.load (i + 2)
  let b₃ ← m.load (i + 3)
  return sv.word b₀ b₁ b₂ b₃

/-! ## The bits of the first byte -/

/-- The first byte of a compressed datum. -/
def is4BC (b : UInt8) : Bool :=
  if sv.bigEndian then b &&& 0xC0 == 0x40 else b &&& 0x03 == 0x02

/-- The first byte of a datum with a one-byte header. -/
def is1B (b : UInt8) : Bool :=
  if sv.bigEndian then b &&& 0x80 == 0x80 else b &&& 0x01 == 0x01

/-- The first byte of a pointer to an out-of-line datum. -/
def is1BE (b : UInt8) : Bool :=
  if sv.bigEndian then b == 0x80 else b == 0x01

/-! ## The macros -/

/-- `VARATT_IS_COMPRESSED`. -/
def varattIsCompressed (m : Mem) : Run Bool := return sv.is4BC (← m.load 0)

/-- `VARATT_IS_EXTERNAL`. -/
def varattIsExternal (m : Mem) : Run Bool := return sv.is1BE (← m.load 0)

/-- `VARATT_IS_SHORT`. -/
def varattIsShort (m : Mem) : Run Bool := return sv.is1B (← m.load 0)

/-- `VARSIZE_4B`, the size a four-byte header gives. -/
def varsize4B (m : Mem) : Run ℕ := do
  let w ← sv.loadWord m 0
  return if sv.bigEndian then w % 2 ^ 30 else w / 4 % 2 ^ 30

/-- `VARSIZE_1B`, the size a one-byte header gives. -/
def varsize1B (m : Mem) : Run ℕ := do
  let b ← m.load 0
  return if sv.bigEndian then b.toNat % 2 ^ 7 else b.toNat / 2 % 2 ^ 7

/-- `VARTAG_SIZE`: the size of the pointer struct behind a tag. -/
def vartagSize (tag : UInt8) : ℕ :=
  if tag = 1 then 8
  else if tag &&& 0xFE = 2 then 8
  else if tag = 18 then 16
  else 0

/-- `VARSIZE_EXTERNAL`. -/
def varsizeExternal (m : Mem) : Run ℕ := return 2 + vartagSize (← m.load 1)

/-- `VARSIZE_ANY`, the size of a datum in any form. -/
def varsizeAny (m : Mem) : Run ℕ := do
  let b ← m.load 0
  if sv.is1BE b then varsizeExternal m
  else if sv.is1B b then sv.varsize1B m
  else sv.varsize4B m

/-- `VARSIZE_ANY_EXHDR`, the size of the data of a datum in any form. The
subtractions are on unsigned words and wrap. -/
def varsizeAnyExhdr (m : Mem) : Run ℕ := do
  let b ← m.load 0
  if sv.is1BE b then return (← varsizeExternal m) - 2
  else if sv.is1B b then return ((← sv.varsize1B m) + 2 ^ 64 - 1) % 2 ^ 64
  else return ((← sv.varsize4B m) + 2 ^ 32 - 4) % 2 ^ 32

/-- `VARDATA_ANY`, as the distance of the data from the start of a datum whose
first byte is given. -/
def vardataAny (b : UInt8) : ℕ := if sv.is1B b then 1 else 4

/-- `VARHDRSZ_COMPRESSED`. -/
abbrev varhdrszCompressed : ℕ := 8

/-- `VARDATA_COMPRESSED_GET_EXTSIZE`, the raw size in the second word of a
compressed datum. -/
def vardataCompressedGetExtsize (m : Mem) : Run ℕ := return (← sv.loadWord m 4) % 2 ^ 30

/-- `TOAST_COMPRESS_METHOD`, the method in the second word of a compressed
datum. -/
def toastCompressMethod (m : Mem) : Run ℕ := return (← sv.loadWord m 4) / 2 ^ 30

/-- The bytes `SET_VARSIZE` stores. -/
def setVarsize (len : ℕ) : List UInt8 :=
  sv.wordBytes (if sv.bigEndian then len % 2 ^ 30 else len * 4)

/-- The bytes `SET_VARSIZE_COMPRESSED` stores. -/
def setVarsizeCompressed (len : ℕ) : List UInt8 :=
  sv.wordBytes (if sv.bigEndian then len % 2 ^ 30 + 2 ^ 30 else len * 4 + 2)

/-- The byte `SET_VARSIZE_SHORT` stores. -/
def setVarsizeShort (len : ℕ) : UInt8 :=
  UInt8.ofNat (if sv.bigEndian then len + 128 else len * 2 + 1)

/-! ## The three forms -/

/-- A plain datum with the given data. -/
def plainDatum (t : List UInt8) : Mem := sv.setVarsize (t.length + 4) ++ t

/-- A short datum with the given data. -/
def shortDatum (t : List UInt8) : Mem := sv.setVarsizeShort (t.length + 1) :: t

/-- A compressed datum with the given method, raw size and payload. -/
def compressedDatum (method rawsize : ℕ) (payload : List UInt8) : Mem :=
  sv.setVarsizeCompressed (payload.length + varhdrszCompressed)
    ++ sv.wordBytes (rawsize + method * 2 ^ 30) ++ payload

/-! ## Reading words and first bytes back -/

theorem wordBytes_length (w : ℕ) : (sv.wordBytes w).length = 4 := by
  unfold wordBytes
  split <;> rfl

/-- **A word reads back as it was stored**, in either byte order. -/
theorem loadWord_wordBytes {m post : Mem} {i w : ℕ}
    (h : m.drop i = sv.wordBytes w ++ post) (hw : w < 2 ^ 32) : sv.loadWord m i = .ok w := by
  have hload : ∀ {k : ℕ} {b : UInt8} {post' : Mem},
      (sv.wordBytes w ++ post).drop k = b :: post' → m.load (i + k) = .ok b := by
    intro k b post' hk
    exact Mem.load_of_drop (by rw [← List.drop_drop, h, hk])
  unfold loadWord
  unfold wordBytes at hload
  cases hbe : sv.bigEndian <;>
    simp only [hbe, Bool.false_eq_true, ↓reduceIte, List.reverse_cons, List.reverse_nil,
      List.nil_append, List.cons_append] at hload <;>
    rw [show m.load i = _ from @hload 0 _ _ rfl, @hload 1 _ _ rfl, @hload 2 _ _ rfl,
      @hload 3 _ _ rfl] <;>
    refine congrArg Except.ok ?_ <;>
    simp only [word, hbe, Bool.false_eq_true, ↓reduceIte, UInt8.toNat_ofNat'] <;>
    omega

/-- The four masks of the header macros, as arithmetic on the byte. -/
theorem toNat_and_masks (b : UInt8) :
    ((b &&& 0x03).toNat = b.toNat % 4 ∧ (b &&& 0x01).toNat = b.toNat % 2)
      ∧ (b &&& 0xC0).toNat = b.toNat / 64 * 64 ∧ (b &&& 0x80).toNat = b.toNat / 128 * 128 := by
  have h : ∀ c : Fin 256,
      ((UInt8.ofFin c &&& 0x03).toNat = c % 4 ∧ (UInt8.ofFin c &&& 0x01).toNat = c % 2)
        ∧ (UInt8.ofFin c &&& 0xC0).toNat = c / 64 * 64
        ∧ (UInt8.ofFin c &&& 0x80).toNat = c / 128 * 128 := by
    decide +kernel
  exact h b.toFin

theorem is4BC_eq (b : UInt8) : sv.is4BC b =
    decide (if sv.bigEndian then b.toNat / 64 = 1 else b.toNat % 4 = 2) := by
  obtain ⟨⟨h₁, -⟩, h₂, -⟩ := toNat_and_masks b
  rw [is4BC, Bool.eq_iff_iff]
  cases sv.bigEndian
  · simp only [Bool.false_eq_true, ↓reduceIte, beq_iff_eq, decide_eq_true_eq,
      ← UInt8.toNat_inj, h₁]
    rfl
  · simp only [↓reduceIte, beq_iff_eq, decide_eq_true_eq, ← UInt8.toNat_inj, h₂]
    show _ = 64 ↔ _
    omega

theorem is1B_eq (b : UInt8) : sv.is1B b =
    decide (if sv.bigEndian then b.toNat / 128 = 1 else b.toNat % 2 = 1) := by
  obtain ⟨⟨-, h₁⟩, -, h₂⟩ := toNat_and_masks b
  rw [is1B, Bool.eq_iff_iff]
  cases sv.bigEndian
  · simp only [Bool.false_eq_true, ↓reduceIte, beq_iff_eq, decide_eq_true_eq,
      ← UInt8.toNat_inj, h₁]
    rfl
  · simp only [↓reduceIte, beq_iff_eq, decide_eq_true_eq, ← UInt8.toNat_inj, h₂]
    show _ = 128 ↔ _
    omega

theorem is1BE_eq (b : UInt8) : sv.is1BE b =
    decide (b.toNat = if sv.bigEndian then 128 else 1) := by
  rw [is1BE, Bool.eq_iff_iff]
  cases sv.bigEndian <;>
    simp only [Bool.false_eq_true, ↓reduceIte, beq_iff_eq, decide_eq_true_eq,
      ← UInt8.toNat_inj] <;>
    rfl

/-- The first byte of a stored word. -/
theorem load_wordBytes_zero (w : ℕ) (post : Mem) :
    ∃ b, Mem.load (sv.wordBytes w ++ post) 0 = .ok b
      ∧ b.toNat = if sv.bigEndian then w / 2 ^ 24 % 256 else w % 256 := by
  unfold wordBytes
  cases sv.bigEndian
  · exact ⟨UInt8.ofNat w, rfl, UInt8.toNat_ofNat'⟩
  · exact ⟨UInt8.ofNat (w / 2 ^ 24), rfl, UInt8.toNat_ofNat'⟩

/-! ## What the macros read on each form

The first byte and the size are all the macros look at. `HasHeader` states
both, each form has one lemma that says what its header is, and every macro
has one lemma that says what it reads. -/

/-- The inline forms. -/
inductive Form where
  | plain
  | compressed
  | short
  deriving DecidableEq, Repr

/-- The distance of the data from the start of a datum. -/
def Form.dataOffset : Form → ℕ
  | plain => 4
  | compressed => 8
  | short => 1

/-- **What a header says**: the form, by the marks of the first byte, and the
size, by the macro that is meant for the form. -/
structure HasHeader (m : Mem) (form : Form) (size : ℕ) : Prop where
  first : ∃ b, m.load 0 = .ok b ∧ sv.is4BC b = decide (form = .compressed)
    ∧ sv.is1B b = decide (form = .short) ∧ sv.is1BE b = false
  reads : (if form = .short then sv.varsize1B m else sv.varsize4B m) = .ok size

theorem hasHeader_plainDatum {t : List UInt8} (fits : t.length + 4 < 2 ^ 30) (rest : Mem) :
    sv.HasHeader (sv.plainDatum t ++ rest) .plain (t.length + 4) := by
  unfold plainDatum setVarsize
  rw [List.append_assoc]
  constructor
  · obtain ⟨b, hb, hval⟩ := sv.load_wordBytes_zero
      (if sv.bigEndian then (t.length + 4) % 2 ^ 30 else (t.length + 4) * 4) (t ++ rest)
    refine ⟨b, hb, ?_⟩
    rw [is4BC_eq, is1B_eq, is1BE_eq]
    cases hbe : sv.bigEndian <;>
      simp only [hbe, Bool.false_eq_true, ↓reduceIte, decide_eq_decide, reduceCtorEq, iff_false,
        decide_eq_false_iff_not] at hval ⊢ <;>
      omega
  · rw [if_neg (by decide), varsize4B,
      sv.loadWord_wordBytes (by rw [List.drop_zero]) (by split <;> omega)]
    refine congrArg Except.ok ?_
    split <;> omega

/-- The header of a compressed datum, whatever lies behind its first word. -/
theorem hasHeader_setVarsizeCompressed {size : ℕ} (fits : size < 2 ^ 30) (rest : Mem) :
    sv.HasHeader (sv.setVarsizeCompressed size ++ rest) .compressed size := by
  unfold setVarsizeCompressed
  constructor
  · obtain ⟨b, hb, hval⟩ := sv.load_wordBytes_zero
      (if sv.bigEndian then size % 2 ^ 30 + 2 ^ 30 else size * 4 + 2) rest
    refine ⟨b, hb, ?_⟩
    rw [is4BC_eq, is1B_eq, is1BE_eq]
    cases hbe : sv.bigEndian <;>
      simp only [hbe, Bool.false_eq_true, ↓reduceIte, decide_eq_decide, reduceCtorEq, iff_false,
        iff_true, decide_eq_false_iff_not] at hval ⊢ <;>
      omega
  · rw [if_neg (by decide), varsize4B,
      sv.loadWord_wordBytes (by rw [List.drop_zero]) (by split <;> omega)]
    refine congrArg Except.ok ?_
    split <;> omega

theorem hasHeader_compressedDatum {payload : List UInt8} (fits : payload.length + 8 < 2 ^ 30)
    (method rawsize : ℕ) (rest : Mem) :
    sv.HasHeader (sv.compressedDatum method rawsize payload ++ rest) .compressed
      (payload.length + 8) := by
  rw [compressedDatum, List.append_assoc, List.append_assoc]
  exact sv.hasHeader_setVarsizeCompressed fits _

theorem hasHeader_shortDatum {t : List UInt8} (fits : t.length ≤ 126) (rest : Mem) :
    sv.HasHeader (sv.shortDatum t ++ rest) .short (t.length + 1) := by
  have hval : (sv.setVarsizeShort (t.length + 1)).toNat
      = if sv.bigEndian then t.length + 129 else t.length * 2 + 3 := by
    rw [setVarsizeShort, UInt8.toNat_ofNat']
    split <;> omega
  constructor
  · refine ⟨sv.setVarsizeShort (t.length + 1), rfl, ?_⟩
    rw [is4BC_eq, is1B_eq, is1BE_eq]
    cases hbe : sv.bigEndian <;>
      simp only [hbe, Bool.false_eq_true, ↓reduceIte, decide_eq_decide, reduceCtorEq, iff_false,
        iff_true, decide_eq_false_iff_not] at hval ⊢ <;>
      omega
  · rw [if_pos rfl]
    refine congrArg Except.ok ?_
    rw [hval]
    split <;> omega

namespace HasHeader

variable {sv} {m : Mem} {form : Form} {size : ℕ} (h : sv.HasHeader m form size)

include h

theorem varattIsCompressed_eq : sv.varattIsCompressed m = .ok (decide (form = .compressed)) := by
  obtain ⟨b, hb, hc, -, -⟩ := h.first
  rw [varattIsCompressed, hb, ← hc]
  rfl

theorem varattIsExternal_eq : sv.varattIsExternal m = .ok false := by
  obtain ⟨b, hb, -, -, he⟩ := h.first
  rw [varattIsExternal, hb, ← he]
  rfl

theorem varsizeAny_eq : sv.varsizeAny m = .ok size := by
  obtain ⟨b, hb, -, hs, he⟩ := h.first
  rw [← h.reads, varsizeAny, hb]
  show (if sv.is1BE b = true then _ else if sv.is1B b = true then _ else _) = _
  simp only [he, hs, Bool.false_eq_true, ↓reduceIte, decide_eq_true_eq]

/-- A size that was read from a header fits it. -/
theorem size_lt : size < 2 ^ 30 := by
  have hreads := h.reads
  split at hreads
  · obtain ⟨b, -, hb⟩ := Run.bind_eq_ok.mp hreads
    cases hb
    split <;> omega
  · obtain ⟨w, -, hw⟩ := Run.bind_eq_ok.mp hreads
    cases hw
    split <;> omega

theorem varsizeAnyExhdr_eq (hform : form ≠ .compressed) (hsize : form.dataOffset ≤ size) :
    sv.varsizeAnyExhdr m = .ok (size - form.dataOffset) := by
  obtain ⟨b, hb, -, hs, he⟩ := h.first
  have hlt := h.size_lt
  have hreads := h.reads
  rw [varsizeAnyExhdr, hb, Run.ok_bind, he, hs, if_neg Bool.false_ne_true]
  cases form with
  | plain =>
    rw [if_neg (by decide)] at hreads ⊢
    simp only [Form.dataOffset] at hsize ⊢
    rw [hreads]
    refine congrArg Except.ok ?_
    omega
  | compressed => exact absurd rfl hform
  | short =>
    rw [if_pos rfl] at hreads
    rw [if_pos (by decide)]
    simp only [Form.dataOffset] at hsize ⊢
    rw [hreads]
    refine congrArg Except.ok ?_
    omega

/-- `VARDATA_ANY` finds the data of a datum that is not compressed. -/
theorem vardataAny_eq (hform : form ≠ .compressed) :
    ∃ b, m.load 0 = .ok b ∧ sv.vardataAny b = form.dataOffset := by
  obtain ⟨b, hb, -, hs, -⟩ := h.first
  refine ⟨b, hb, ?_⟩
  rw [vardataAny, hs]
  cases form with
  | plain => rfl
  | compressed => exact absurd rfl hform
  | short => rfl

end HasHeader

/-! ## What the forms stand for -/

/-- **A datum that holds a text as it is**, with a header of either size. -/
structure HasText (m : Mem) (form : Form) (t : List UInt8) : Prop where
  header : sv.HasHeader m form (form.dataOffset + t.length)
  uncompressed : form ≠ .compressed
  mapped : ∃ rest, m.drop form.dataOffset = t ++ rest

/-- A text that fits a header of either size fits a long one. -/
theorem HasText.fits {sv : Server} {m : Mem} {form : Form} {t : List UInt8}
    (h : sv.HasText m form t) : t.length + 4 < 2 ^ 30 := by
  have hlt := h.header.size_lt
  have hreads := h.header.reads
  cases form with
  | plain => rwa [Nat.add_comm] at hlt
  | compressed => exact absurd rfl h.uncompressed
  | short =>
    obtain ⟨b, -, hb⟩ := Run.bind_eq_ok.mp hreads
    have hsize := Except.ok.inj hb
    simp only [Form.dataOffset] at hsize
    split at hsize <;> omega

theorem hasText_plainDatum {t : List UInt8} (fits : t.length + 4 < 2 ^ 30) (rest : Mem) :
    sv.HasText (sv.plainDatum t ++ rest) .plain t where
  header := by
    rw [Nat.add_comm]
    exact sv.hasHeader_plainDatum fits rest
  uncompressed := by decide
  mapped := by
    refine ⟨rest, ?_⟩
    rw [plainDatum, setVarsize, List.append_assoc]
    exact List.drop_left' (sv.wordBytes_length _)

theorem hasText_shortDatum {t : List UInt8} (fits : t.length ≤ 126) (rest : Mem) :
    sv.HasText (sv.shortDatum t ++ rest) .short t where
  header := by
    rw [Nat.add_comm]
    exact sv.hasHeader_shortDatum fits rest
  uncompressed := by decide
  mapped := ⟨rest, rfl⟩

theorem drop_compressedDatum (method rawsize : ℕ) (payload : List UInt8) (rest : Mem) :
    (sv.compressedDatum method rawsize payload ++ rest).drop varhdrszCompressed
      = payload ++ rest := by
  rw [compressedDatum, List.append_assoc]
  refine List.drop_left' ?_
  rw [List.length_append, setVarsizeCompressed, wordBytes_length, wordBytes_length]

theorem compressedDatum_length (method rawsize : ℕ) (payload : List UInt8) :
    (sv.compressedDatum method rawsize payload).length = varhdrszCompressed + payload.length := by
  simp only [compressedDatum, setVarsizeCompressed, List.length_append, wordBytes_length,
    varhdrszCompressed]

end Server
