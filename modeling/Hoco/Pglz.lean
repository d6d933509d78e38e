import Hoco.Memory

/-!
# The default decompressor

`pglzDecompress` follows `pglz_decompress`, the decompressor of the method that
a column gets when it names none. The source is a sequence of control bytes,
each followed by eight items: a literal byte for a clear bit, and for a set bit
a tag of two or three bytes that names a stretch of the output to repeat.

A tag that reaches back before the start of the output makes the function read
what lies before its destination. Such a source is corrupt, and the model ends
in a fault there.
-/

namespace Pglz

/-- The copy of a match: whole repetitions of the stretch while it is shorter
than what is left, then the rest of it. -/
def copyMatch : ℕ → List UInt8 → ℕ → ℕ → Run (List UInt8)
  | 0, _, _, _ => .error .fault
  | fuel + 1, out, off, len =>
    if out.length < off then .error .fault
    else
      let stretch := out.drop (out.length - off)
      if off < len then copyMatch fuel (out ++ stretch) (off + off) (len - off)
      else .ok (out ++ stretch.take len)

/-- The items of one control byte. Nothing is returned where the function
returns `-1`. -/
def items (source : Mem) (slen : ℤ) (rawsize : ℕ) :
    ℕ → ℕ → ℕ → List UInt8 → Run (Option (ℕ × List UInt8))
  | 0, _, sp, out => .ok (some (sp, out))
  | left + 1, ctrl, sp, out =>
    if (sp : ℤ) < slen ∧ out.length < rawsize then
      if ctrl % 2 = 1 then do
        let b₀ ← source.load sp
        let b₁ ← source.load (sp + 1)
        let off := b₀.toNat / 16 * 256 + b₁.toNat
        let (sp, len) ←
          if b₀.toNat % 16 + 3 = 18 then
            (fun b₂ => (sp + 3, 18 + b₂.toNat)) <$> source.load (sp + 2)
          else pure (sp + 2, b₀.toNat % 16 + 3)
        if (sp : ℤ) > slen ∨ off = 0 then return none
        let len := min len (rawsize - out.length)
        let out ← copyMatch (len + 1) out off len
        items source slen rawsize left (ctrl / 2) sp out
      else do
        let b ← source.load sp
        items source slen rawsize left (ctrl / 2) (sp + 1) (out ++ [b])
    else .ok (some (sp, out))

/-- The outer loop, one control byte a turn. -/
def decompressLoop (source : Mem) (slen : ℤ) (rawsize : ℕ) :
    ℕ → ℕ → List UInt8 → Run (Option (ℕ × List UInt8))
  | 0, sp, out => .ok (some (sp, out))
  | fuel + 1, sp, out =>
    if (sp : ℤ) < slen ∧ out.length < rawsize then do
      let ctrl ← source.load sp
      match ← items source slen rawsize 8 ctrl.toNat (sp + 1) out with
      | none => return none
      | some (sp, out) => decompressLoop source slen rawsize fuel sp out
    else .ok (some (sp, out))

/-- **`pglz_decompress`**: the return value and the bytes written. -/
def pglzDecompress (source : Mem) (slen : ℤ) (rawsize : ℕ) (checkComplete : Bool) :
    Run (ℤ × List UInt8) := do
  match ← decompressLoop source slen rawsize slen.toNat 0 [] with
  | none => return (-1, [])
  | some (sp, out) =>
    if checkComplete ∧ (out.length ≠ rawsize ∨ (sp : ℤ) ≠ slen) then return (-1, out)
    else return (out.length, out)

/-- A literal and one tag for the rest of a run. -/
example : pglzDecompress [0x02, 0x61, 0x0f, 0x01, 0x15] 5 40 true
    = .ok (40, List.replicate 40 0x61) := by decide

/-- Only the empty text comes out of an empty source. -/
theorem ne_nil_of_pglzDecompress {source t : List UInt8} (ht : t.length ≠ 0)
    (h : pglzDecompress source source.length t.length true = .ok (t.length, t)) : source ≠ [] := by
  rintro rfl
  have hret : (if (true = true) ∧ (0 ≠ t.length ∨ ((0 : ℕ) : ℤ) ≠ 0) then
      (.ok (-1, []) : Run (ℤ × List UInt8)) else .ok (0, [])) = .ok (t.length, t) := h
  rw [if_pos ⟨rfl, Or.inl ht.symm⟩] at hret
  cases hret

end Pglz
