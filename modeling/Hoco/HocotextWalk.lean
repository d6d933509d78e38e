import Hoco.HocotextCompare
import Hoco.Traced

/-!
# Reading with a trace

The functions that walk over a payload are run with a trace of what they touch: the bytes
of their operands, by the distance from the start of the datum, and the bytes of their
windows, by index. A byte that is taken for the mark of a token is put down as that, so that
the trace also says what has been read as tokens.
-/

/-- The operands of a comparison. The source of an extraction is the left one. -/
inductive Side where
  | left
  | right
  deriving DecidableEq

/-- Something that is touched: a byte of an operand, by the distance from the start of its
datum, such a byte that is taken for the mark of a token, or a byte of the window for an
operand, by its index. -/
inductive Access where
  | byte (side : Side) (i : ℕ)
  | mark (side : Side) (i : ℕ)
  | window (side : Side) (i : ℕ)
  deriving DecidableEq

/-- A program that walks over operands. -/
abbrev Walk (α : Type) := Traced Access Trap α

namespace Server

namespace Walk

open Traced

/-- Reading a byte of an operand. -/
def load (side : Side) (m : Mem) (i : ℕ) : Walk UInt8 := do
  touch [.byte side i]
  lift (m.load i)

/-- Reading a byte of an operand as a mark. -/
def loadMark (side : Side) (m : Mem) (i : ℕ) : Walk UInt8 := do
  touch [.mark side i]
  lift (m.load i)

/-- Reading the source of a `memcpy`. -/
def copy (side : Side) (m : Mem) (i k : ℕ) : Walk (List UInt8) := do
  touch ((List.range k).map fun j => .byte side (i + j))
  lift (m.copy i k)

section Results

variable {m : Mem} {side : Side}

@[simp] theorem result_load (i : ℕ) : (load side m i).result = m.load i := rfl

@[simp] theorem result_loadMark (i : ℕ) : (loadMark side m i).result = m.load i := rfl

@[simp] theorem result_copy (i k : ℕ) : (copy side m i k).result = m.copy i k := rfl

end Results

end Walk

end Server
