import Mathlib.Data.List.Basic
import Mathlib.Algebra.Ring.Int.Defs
import Mathlib.Algebra.Ring.Nat

/-!
# The token format of run length encoding

A compressed byte string is a concatenation of **tokens**. The first byte of
a token is its mark: with the high bit clear the remaining seven bits count
the literal bytes that follow, with the high bit set they count the copies of
the single byte that follows, less three – a run of one or two bytes is never
worth a mark of its own, so the marks for them stand for longer runs instead.

A token is modelled with its bounds in its type, so that every token has an
encoding and no other byte sequence needs to be ruled out later: a literal
carries the proof that its length fits seven bits, and a run stores the
seven-bit count itself.

A literal of length zero is a token of the format – the decompressor reads
past it – but the compressor never writes one. `Token.Nonempty` is the
difference, and it is what the comparison functions rely on when they take
unread payload to mean a longer text.
-/

namespace Rle

/-- The shortest run worth a run token. -/
abbrev threshold : ℕ := 3

/-- The longest run one run token can stand for. -/
abbrev maxRepeatedSize : ℕ := 130

/-- The longest literal one token can carry, and the size of the staging
buffer of the compressor. -/
abbrev maxSingleStoreSize : ℕ := 127

/-- **A token**: a literal short enough for its mark, or a run given by the
byte and the seven-bit count of its mark. -/
inductive Token where
  /-- Literal bytes, stored as they are after a mark counting them. -/
  | lit (bs : List UInt8) (fits : bs.length ≤ maxSingleStoreSize)
  /-- `k + threshold` copies of one byte. -/
  | run (b : UInt8) (k : Fin 128)

namespace Token

/-- The bytes a token stands for. -/
def expand : Token → List UInt8
  | lit bs _ => bs
  | run b k => List.replicate (k + threshold) b

/-- The bytes a token is stored as: its mark, then its data. -/
def encode : Token → List UInt8
  | lit bs _ => UInt8.ofNat bs.length :: bs
  | run b k => [UInt8.ofNat (128 + k), b]

/-- A token that stands for at least one byte. -/
def Nonempty (t : Token) : Prop := t.expand ≠ []

instance : DecidablePred Nonempty := fun t => inferInstanceAs (Decidable (t.expand ≠ []))

/-- A run token is never empty: the shortest stands for three bytes. -/
theorem nonempty_run (b : UInt8) (k : Fin 128) : (run b k).Nonempty := by
  simp [Nonempty, expand, threshold]

theorem encode_ne_nil (t : Token) : t.encode ≠ [] := by
  cases t <;> simp [encode]

/-- A token stands for at most the longest run. -/
theorem expand_length_le (t : Token) : t.expand.length ≤ maxRepeatedSize := by
  cases t with
  | lit bs fits =>
    have h : bs.length ≤ 127 := fits
    show bs.length ≤ 130
    omega
  | run b k => simp only [expand, threshold, maxRepeatedSize, List.length_replicate]; omega

end Token

/-- The bytes a token sequence stands for. -/
def expand (ts : List Token) : List UInt8 := ts.flatMap Token.expand

/-- The bytes a token sequence is stored as. -/
def encode (ts : List Token) : List UInt8 := ts.flatMap Token.encode

@[simp] theorem expand_nil : expand [] = [] := rfl

@[simp] theorem expand_cons (t : Token) (ts : List Token) :
    expand (t :: ts) = t.expand ++ expand ts := rfl

theorem expand_append (ts us : List Token) : expand (ts ++ us) = expand ts ++ expand us :=
  List.flatMap_append

@[simp] theorem encode_nil : encode [] = [] := rfl

@[simp] theorem encode_cons (t : Token) (ts : List Token) :
    encode (t :: ts) = t.encode ++ encode ts := rfl

theorem encode_append (ts us : List Token) : encode (ts ++ us) = encode ts ++ encode us :=
  List.flatMap_append

/-- A token sequence none of whose tokens is empty, the sequences the
compressor writes. -/
def AllNonempty (ts : List Token) : Prop := ∀ t ∈ ts, t.Nonempty

instance (ts : List Token) : Decidable (AllNonempty ts) :=
  inferInstanceAs (Decidable (∀ t ∈ ts, t.Nonempty))

@[simp] theorem allNonempty_nil : AllNonempty [] := by simp [AllNonempty]

@[simp] theorem allNonempty_cons (t : Token) (ts : List Token) :
    AllNonempty (t :: ts) ↔ t.Nonempty ∧ AllNonempty ts := by
  simp [AllNonempty]

theorem allNonempty_append (ts us : List Token) :
    AllNonempty (ts ++ us) ↔ AllNonempty ts ∧ AllNonempty us := by
  simp only [AllNonempty, List.mem_append]
  constructor
  · intro h
    exact ⟨fun t ht => h t (Or.inl ht), fun t ht => h t (Or.inr ht)⟩
  · rintro ⟨h₁, h₂⟩ t (ht | ht)
    · exact h₁ t ht
    · exact h₂ t ht

/-- **A sequence of non-empty tokens stands for nothing only when it has no
token**, which is what makes unread payload the sign of a longer text. -/
theorem expand_eq_nil_iff {ts : List Token} (h : AllNonempty ts) :
    expand ts = [] ↔ ts = [] := by
  cases ts with
  | nil => simp
  | cons t ts =>
    rw [expand_cons, List.append_eq_nil_iff]
    constructor
    · rintro ⟨ht, -⟩
      exact absurd ht ((allNonempty_cons t ts).mp h).1
    · intro hnil
      exact absurd hnil (List.cons_ne_nil t ts)

theorem encode_eq_nil_iff {ts : List Token} : encode ts = [] ↔ ts = [] := by
  cases ts with
  | nil => simp
  | cons t ts => simp [Token.encode_ne_nil]

end Rle
