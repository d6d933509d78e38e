import Hoco.Memory
import Hoco.RleToken

/-!
# The run length decompressor

`rleDecompress` follows `rle_decompress`. The loop tests only that a token may
start – that the read position is before the end of the source and the write
position before the end of the destination – and then reads and writes a whole
token. The model keeps every byte stored through `dp`, also those that land
past the end of the destination, and reads its source through `Mem.load`, so
that a token cut off by the end of the source reads whatever lies behind it.

`rleDecompress_encode` is the specification used by the callers: on a payload
of non-empty tokens, and asked for exactly the bytes they stand for, the
decompressor returns those bytes.
-/

namespace Rle

/-- The decompression loop, from read position `sp` and with `out` the bytes
stored so far. Every turn reads at least a mark, so the length of the source
bounds the turns. -/
def decompressLoop (source : Mem) (slen rawsize : ℤ) :
    ℕ → ℕ → List UInt8 → Run (ℕ × List UInt8)
  | 0, sp, out => .ok (sp, out)
  | fuel + 1, sp, out =>
    if (sp : ℤ) < slen ∧ (out.length : ℤ) < rawsize then do
      let mark ← source.load sp
      if 128 ≤ mark.toNat then
        let repeatCount := (mark &&& 0x7F).toNat + threshold
        let curData ← source.load (sp + 1)
        decompressLoop source slen rawsize fuel (sp + 2)
          (out ++ List.replicate repeatCount curData)
      else
        let singleCount := mark.toNat
        let bytes ← source.copy (sp + 1) singleCount
        decompressLoop source slen rawsize fuel (sp + 1 + singleCount) (out ++ bytes)
    else .ok (sp, out)

/-- **`rle_decompress`**: the return value and the bytes stored through `dp`
before the terminator. -/
def rleDecompress (source : Mem) (slen rawsize : ℤ) (checkComplete : Bool) :
    Run (ℤ × List UInt8) := do
  let (sp, out) ← decompressLoop source slen rawsize slen.toNat 0 []
  if checkComplete ∧ ((out.length : ℤ) ≠ rawsize ∨ (sp : ℤ) ≠ slen) then
    return (-1, out)
  else
    return (out.length, out)

/-! ## Reading one token -/

/-- The mark of a literal reads back as its length. -/
theorem lit_mark_toNat {bs : List UInt8} (h : bs.length ≤ maxSingleStoreSize) :
    (UInt8.ofNat bs.length).toNat = bs.length := by
  simp only [maxSingleStoreSize] at h
  rw [UInt8.toNat_ofNat']
  omega

/-- The mark of a run has the high bit set. -/
theorem run_mark_toNat (k : Fin 128) : (UInt8.ofNat (128 + k)).toNat = 128 + k := by
  rw [UInt8.toNat_ofNat']
  omega

/-- The low bits of the mark of a run are its count. -/
theorem run_mark_and (k : Fin 128) : (UInt8.ofNat (128 + k) &&& 0x7F).toNat = k := by
  rw [UInt8.toNat_and, run_mark_toNat, show (0x7F : UInt8).toNat = 2 ^ 7 - 1 from rfl,
    Nat.and_two_pow_sub_one_eq_mod]
  omega

/-- **One turn of the loop reads one token**, whatever surrounds it in
memory. -/
theorem decompressLoop_token (pre post : Mem) (t : Token) (slen rawsize : ℤ) (fuel : ℕ)
    (out : List UInt8) (hs : (pre.length : ℤ) < slen) (hr : (out.length : ℤ) < rawsize) :
    decompressLoop (pre ++ (t.encode ++ post)) slen rawsize (fuel + 1) pre.length out
      = decompressLoop (pre ++ (t.encode ++ post)) slen rawsize fuel
          (pre.length + t.encode.length) (out ++ t.expand) := by
  rw [decompressLoop, if_pos ⟨hs, hr⟩]
  cases t with
  | lit bs fits =>
    have hload : Mem.load (pre ++ ((Token.lit bs fits).encode ++ post)) pre.length
        = .ok (UInt8.ofNat bs.length) := Mem.load_append _ _ _
    have hcopy : Mem.copy (pre ++ ((Token.lit bs fits).encode ++ post)) (pre.length + 1)
        bs.length = .ok bs := by
      have h := Mem.copy_append (pre ++ [UInt8.ofNat bs.length]) bs post
      rw [List.length_append] at h
      simpa [Token.encode] using h
    have hlt : ¬ 128 ≤ (UInt8.ofNat bs.length).toNat := by
      rw [lit_mark_toNat fits]
      simp only [maxSingleStoreSize] at fits
      omega
    rw [hload]
    show (if 128 ≤ (UInt8.ofNat bs.length).toNat then _ else _) = _
    rw [if_neg hlt, lit_mark_toNat fits, hcopy,
      show pre.length + (Token.lit bs fits).encode.length = pre.length + 1 + bs.length by
        simp only [Token.encode, List.length_cons]; omega]
    rfl
  | run b k =>
    have hload : Mem.load (pre ++ ((Token.run b k).encode ++ post)) pre.length
        = .ok (UInt8.ofNat (128 + k)) := Mem.load_append _ _ _
    have hdata : Mem.load (pre ++ ((Token.run b k).encode ++ post)) (pre.length + 1)
        = .ok b := by
      have h := Mem.load_append (pre ++ [UInt8.ofNat (128 + k)]) b post
      rw [List.length_append] at h
      simpa [Token.encode] using h
    have hge : 128 ≤ (UInt8.ofNat (128 + k)).toNat := by
      rw [run_mark_toNat]
      omega
    rw [hload]
    show (if 128 ≤ (UInt8.ofNat (128 + k)).toNat then _ else _) = _
    rw [if_pos hge, run_mark_and, hdata]
    rfl

/-- **The loop reads a token sequence to its end**, provided it is asked for
all the bytes and no token is empty: an empty token at the end would not be
read, since the destination is already full. -/
theorem decompressLoop_encode :
    ∀ (ts : List Token) (pre post : Mem) (fuel : ℕ) (out : List UInt8),
      AllNonempty ts → ts.length ≤ fuel →
      decompressLoop (pre ++ (encode ts ++ post)) ((pre.length + (encode ts).length : ℕ))
          ((out.length + (expand ts).length : ℕ)) fuel pre.length out
        = .ok (pre.length + (encode ts).length, out ++ expand ts) := by
  intro ts
  induction ts with
  | nil =>
    intro pre post fuel out _ _
    cases fuel with
    | zero => simp [decompressLoop]
    | succ fuel => simp [decompressLoop]
  | cons t ts ih =>
    intro pre post fuel out hne hfuel
    obtain ⟨ht, hts⟩ := (allNonempty_cons t ts).mp hne
    obtain ⟨fuel, rfl⟩ : ∃ f, fuel = f + 1 := ⟨fuel - 1, by simp at hfuel; omega⟩
    have hmark : 0 < t.encode.length := List.length_pos_iff.mpr t.encode_ne_nil
    have hbytes : 0 < t.expand.length := List.length_pos_iff.mpr ht
    rw [encode_cons, expand_cons, List.append_assoc,
      decompressLoop_token pre (encode ts ++ post) t _ _ fuel out
        (by simp only [List.length_append]; omega)
        (by simp only [List.length_append]; omega)]
    have h := ih (pre ++ t.encode) post fuel (out ++ t.expand) hts (by simpa using hfuel)
    simp only [List.append_assoc, List.length_append, Nat.add_assoc] at h ⊢
    exact h

/-- Every token takes at least a mark. -/
theorem length_le_encode_length (ts : List Token) : ts.length ≤ (encode ts).length := by
  induction ts with
  | nil => simp
  | cons t ts ih =>
    have hmark : 0 < t.encode.length := List.length_pos_iff.mpr t.encode_ne_nil
    rw [encode_cons, List.length_append, List.length_cons]
    omega

/-- **The decompressor inverts the encoding** of non-empty tokens, and reads
nothing behind it. -/
theorem rleDecompress_encode {ts : List Token} (hne : AllNonempty ts) (post : Mem)
    (checkComplete : Bool) :
    rleDecompress (encode ts ++ post) (encode ts).length (expand ts).length checkComplete
      = .ok ((expand ts).length, expand ts) := by
  have h := decompressLoop_encode ts [] post (encode ts).length [] hne
    (length_le_encode_length ts)
  simp only [List.nil_append, List.length_nil, Nat.zero_add] at h
  unfold rleDecompress
  rw [Int.toNat_natCast, h]
  show (if _ then _ else _) = _
  rw [if_neg (by simp)]
  rfl

/-- Asked for more bytes than the tokens stand for, the loop reads all the
tokens and stops short. -/
theorem decompressLoop_encode_of_lt :
    ∀ (ts : List Token) (pre post : Mem) (fuel : ℕ) (out : List UInt8) (rawsize : ℤ),
      ts.length ≤ fuel → ((out.length + (expand ts).length : ℕ) : ℤ) < rawsize →
      decompressLoop (pre ++ (encode ts ++ post)) ((pre.length + (encode ts).length : ℕ))
          rawsize fuel pre.length out
        = .ok (pre.length + (encode ts).length, out ++ expand ts) := by
  intro ts
  induction ts with
  | nil =>
    intro pre post fuel out rawsize _ _
    cases fuel with
    | zero => simp [decompressLoop]
    | succ fuel => simp [decompressLoop]
  | cons t ts ih =>
    intro pre post fuel out rawsize hfuel hraw
    obtain ⟨fuel, rfl⟩ : ∃ f, fuel = f + 1 := ⟨fuel - 1, by simp at hfuel; omega⟩
    have hmark : 0 < t.encode.length := List.length_pos_iff.mpr t.encode_ne_nil
    rw [expand_cons, List.length_append] at hraw
    rw [encode_cons, expand_cons, List.append_assoc,
      decompressLoop_token pre (encode ts ++ post) t _ _ fuel out
        (by simp only [List.length_append]; omega) (by omega)]
    have h := ih (pre ++ t.encode) post fuel (out ++ t.expand) rawsize (by simpa using hfuel)
      (by rw [List.length_append]; omega)
    simp only [List.append_assoc, List.length_append, Nat.add_assoc] at h ⊢
    exact h

/-- **A payload that stands for too few bytes is rejected** when the caller
asks for completeness. -/
theorem rleDecompress_encode_of_lt {ts : List Token} (post : Mem) {rawsize : ℤ}
    (h : ((expand ts).length : ℤ) < rawsize) :
    rleDecompress (encode ts ++ post) (encode ts).length rawsize true
      = .ok (-1, expand ts) := by
  have hloop := decompressLoop_encode_of_lt ts [] post (encode ts).length [] rawsize
    (length_le_encode_length ts) (by simpa using h)
  simp only [List.nil_append, List.length_nil, Nat.zero_add] at hloop
  unfold rleDecompress
  rw [Int.toNat_natCast, hloop]
  show (if _ then _ else _) = _
  rw [if_pos ⟨rfl, Or.inl (by omega)⟩]
  rfl

end Rle
