import Hoco.Blocks
import Hoco.GrammarHeap

/-!
# The container of a grammar

The second half of `tadoc.c`: when the grammar is built, `discover` numbers its
rules and describes each in a record of its own, `writeCompressedData` lays the
records out in the destination, and `tadoc_decompress` reads the records back
and expands the first.

The records live in blocks of bytes, field by field at the offsets the structures
of the source have: a `RuleData` is the number of references to rules at `0`, the
table of these references at `8`, the characters at `16` and their number at `24`;
a `CompressedData` is the number of rules at `0`, the table of offsets at `8` and
the array of records at `16`; an entry of a table of references is the number of
the rule at `0` and its place among the characters at `4`. The grammar stays in the
memory it was built in.

Everything is read where the source reads it, also where it should not be: an
uninitialised field is read as what was found in its block, a block is as large
as what was asked for, and the file-scope variables – `rules`, `num_rules`,
`detectedRulesNum` and the digram table – are part of the state, which a call
finds as the call before has left it. What is printed is left out, but not what is
read to be printed.
-/

namespace Tadoc

open GrammarHeap (Stop)
open Blocks

/-! ## State -/

/-- The process: the grammar with the digram table and `num_rules`, the blocks,
the pointer `rules` and `detectedRulesNum`. -/
structure Process where
  heap : GrammarHeap.Store
  memory : Memory
  rules : ℕ
  detectedRulesNum : ℤ

/-- What a process finds on its machine: the addresses of its blocks, one after
the other, what the blocks hold at first, the same for a digram table, whether
`char` is signed, and how many nested calls the stack has room for. -/
structure Machine where
  address : ℕ → ℕ
  junk : ℕ → ℕ → UInt8
  table : ℕ → ℕ → ℕ
  charSigned : Bool
  stack : ℕ

/-- The machine as the grammar sees it. -/
def Machine.config (mc : Machine) : GrammarHeap.Config := ⟨.tadoc, mc.address, mc.charSigned⟩

/-- A process before any call: the file-scope variables are zero. -/
def Process.fresh : Process := ⟨GrammarHeap.Store.init fun _ => 0, [], 0, 0⟩

abbrev M := StateT Process (Except Stop)

/-- An operation on the grammar. -/
def grammar {α : Type} (c : GrammarHeap.M α) : M α := fun p =>
  match c p.heap with
  | .ok (a, heap) => .ok (a, { p with heap := heap })
  | .error e => .error e

/-! ## Memory -/

/-- An access that has a meaning only inside a block. -/
def orFault {α : Type} : Option α → M α
  | some a => pure a
  | none => throw .fault

def loadByte (a : ℕ) : M UInt8 := do
  orFault (load (← get).memory a)

def storeByte (a : ℕ) (v : UInt8) : M Unit := do
  let memory ← orFault (store (← get).memory a v)
  modify fun p => { p with memory := memory }

def loadBytes (a : ℕ) : ℕ → M (List UInt8)
  | 0 => return []
  | k + 1 => do
    let b ← loadByte a
    let bs ← loadBytes (a + 1) k
    return b :: bs

def storeBytes (a : ℕ) : List UInt8 → M Unit
  | [] => return ()
  | b :: bs => do
    storeByte a b
    storeBytes (a + 1) bs

/-- Reading an `int32_t`. -/
def loadInt (a : ℕ) : M ℤ := do return signed32 (ofBytes (← loadBytes a 4))

/-- Writing an `int32_t`. -/
def storeInt (a : ℕ) (v : ℤ) : M Unit := storeBytes a (toBytes 4 (unsigned64 v))

/-- Reading a pointer. -/
def loadPtr (a : ℕ) : M ℕ := do return ofBytes (← loadBytes a 8)

/-- Writing a pointer. -/
def storePtr (a v : ℕ) : M Unit := storeBytes a (toBytes 8 v)

/-- `memcpy`. -/
def memcpy (dest src len : ℕ) : M Unit := do storeBytes dest (← loadBytes src len)

/-- An element of an array of `size` bytes each. -/
def element (array size : ℕ) (i : ℤ) : ℕ := unsigned64 (array + size * i)

variable (mc : Machine)

/-- The address of the next block, and what is found there. -/
def nextBlock : M (ℕ × (ℕ → UInt8)) := do
  let p ← get
  set { p with heap := { p.heap with used := p.heap.used + 1 } }
  return (mc.address p.heap.used, mc.junk p.heap.used)

/-- `malloc`. -/
def malloc (size : ℕ) : M ℕ := do
  let (base, junk) ← nextBlock mc
  let p ← get
  let (a, memory) := Blocks.malloc p.memory base size junk
  set { p with memory := memory }
  return a

/-- `free`. -/
def free (a : ℕ) : M Unit := do
  let memory ← orFault (Blocks.free (← get).memory a)
  modify fun p => { p with memory := memory }

/-- An object of the caller. -/
def object (bytes : List UInt8) : M ℕ := do
  let (base, _) ← nextBlock mc
  match place (← get).memory base bytes with
  | some memory =>
    modify fun p => { p with memory := memory }
    return base
  | none => throw .memory

/-- How often an `int` can be counted up from zero. -/
abbrev intRange : ℕ := 2 ^ 31

/-- `for (int i = start; i < bound; i++)`, over further variables of the loop. The
bound is read again before every turn. -/
def forLoop {σ : Type} (bound : M ℤ) (body : ℤ → σ → M σ) : ℕ → ℤ → σ → M σ
  | 0, _, _ => throw .endless
  | fuel + 1, i, s => do
    if i < (← bound) then
      let s ← body i s
      forLoop bound body fuel (i + 1) s
    else return s

/-! ## The digram table -/

/-- `initHashTable`: the slots are what is found in the block. -/
def initHashTable : M Unit :=
  modify fun p => { p with heap :=
    { p.heap with hashTable := mc.table p.heap.used, used := p.heap.used + 1 } }

/-! ## Records -/

/-- The first loop of `discover`: the references to rules are counted in the record
and the symbols in a variable. A walk over more symbols than there are blocks does
not end. -/
def countSymbols (ruleData : ℕ) : ℕ → ℕ → ℤ → M ℤ
  | 0, _, _ => throw .endless
  | fuel + 1, s, numSymbols => do
    if ← grammar (GrammarHeap.isGuard s) then return numSymbols
    else
      let sym ← grammar (GrammarHeap.loadSymbol s)
      if GrammarHeap.nonTerminal sym then
        storeInt ruleData ((← loadInt ruleData) + 1)
        countSymbols ruleData fuel sym.n (numSymbols + 1)
      else countSymbols ruleData fuel sym.n (numSymbols + 1)

/-- The second loop: the characters are copied, with a placeholder for a rule, and
the rules are discovered. -/
def fillSymbols (discover : ℕ → M Unit) (ruleData : ℕ) : ℕ → ℕ → ℤ → ℤ → M Unit
  | 0, _, _, _ => throw .endless
  | fuel + 1, s, i, j => do
    if ← grammar (GrammarHeap.isGuard s) then return ()
    else
      let sym ← grammar (GrammarHeap.loadSymbol s)
      if GrammarHeap.nonTerminal sym then
        storeByte (element (← loadPtr (ruleData + 16)) 1 i) 36
        storeInt (element (← loadPtr (ruleData + 8)) 8 j + 4) i
        if (← grammar (GrammarHeap.loadRule sym.key)).index = 0 then discover sym.key
        else pure ()
        let rule ← grammar (GrammarHeap.loadRule sym.key)
        storeInt (element (← loadPtr (ruleData + 8)) 8 j) rule.index
        fillSymbols discover ruleData fuel sym.n (i + 1) (j + 1)
      else
        storeByte (element (← loadPtr (ruleData + 16)) 1 i) (UInt8.ofNat sym.value)
        fillSymbols discover ruleData fuel sym.n (i + 1) j

/-- `discover`, with a bound on the depth of its recursion. The record is asked for
with `sizeof(rule_data)`, the size of a pointer. -/
def discover (compressedData : ℕ) : ℕ → ℕ → M Unit
  | 0, _ => throw .depth
  | depth + 1, rule => do
    let detected := (← get).detectedRulesNum
    grammar (GrammarHeap.modifyRule rule fun R => { R with index := detected })
    storePtr (element (← get).rules 8 detected) rule
    modify fun p => { p with detectedRulesNum := detected + 1 }
    let ruleData ← malloc mc 8
    let blocks := (← get).heap.used
    let numSymbols ← countSymbols ruleData blocks (← grammar (GrammarHeap.first rule)) 0
    storeInt (ruleData + 24) numSymbols
    storePtr (ruleData + 16) (← malloc mc (unsigned64 numSymbols))
    let numSubrules ← loadInt ruleData
    storePtr (ruleData + 8) (← malloc mc (unsigned64 (8 * numSubrules)))
    fillSymbols (discover compressedData depth) ruleData blocks
      (← grammar (GrammarHeap.first rule)) 0 0
    let R ← grammar (GrammarHeap.loadRule rule)
    storePtr (element (← loadPtr (compressedData + 16)) 8 R.index) ruleData

/-- The references of a record are written from the start of the destination on,
and not behind the header. -/
def writeUnit (dest ruleData : ℕ) (i : ℤ) : M Unit := do
  storeBytes (element dest 8 i) (← loadBytes (element (← loadPtr (ruleData + 8)) 8 i) 8)

/-- `writeRuleData`. -/
def writeRuleData (dest ruleData : ℕ) : M ℤ := do
  storeInt dest (← loadInt ruleData)
  forLoop (loadInt ruleData) (fun i _ => writeUnit dest ruleData i) intRange 0 ()
  let symbolArrayStart := element dest 1 (unsigned64 (4 + 8 * (← loadInt ruleData)))
  memcpy symbolArrayStart (← loadPtr (ruleData + 16)) (unsigned64 (← loadInt (ruleData + 24)))
  return signed32 (4 + 8 * (← loadInt ruleData) + (← loadInt (ruleData + 24)))

/-- The references are copied to whatever the record holds for its table. -/
def readUnit (ruleData start : ℕ) (i : ℤ) : M Unit := do
  let unit ← loadBytes (element start 8 i) 8
  storeBytes (element (← loadPtr (ruleData + 8)) 8 i) unit

/-- `readRuleData`. -/
def readRuleData (src : ℕ) (len : ℤ) : M ℕ := do
  let ruleData ← malloc mc 32
  storeInt ruleData (← loadInt src)
  forLoop (loadInt ruleData) (fun i _ => readUnit ruleData (element src 4 1) i) intRange 0 ()
  let metadataLen := signed32 (4 + 8 * (← loadInt ruleData))
  storeInt (ruleData + 24) (len - metadataLen)
  storePtr (ruleData + 16) (← malloc mc (unsigned64 (← loadInt ruleData)))
  memcpy (← loadPtr (ruleData + 16)) (element src 1 metadataLen)
    (unsigned64 (← loadInt ruleData))
  return ruleData

/-! ## The container -/

/-- The record of a rule. -/
def recordAt (compressedData : ℕ) (i : ℤ) : M ℕ := do
  loadPtr (element (← loadPtr (compressedData + 16)) 8 i)

/-- A turn of the loop of `writeCompressedData`: the offset of a record is written to
the destination and to the table, and the record behind the one before. -/
def writeRecord (dest compressedData start : ℕ) (i : ℤ) (offset : ℕ) : M ℕ := do
  let distance : ℤ := (offset : ℤ) - start
  storeInt (element (← loadPtr (compressedData + 8)) 4 i) distance
  storeInt (element dest 4 (i + 1)) distance
  let writeBytes ← writeRuleData offset (← recordAt compressedData (i + 1))
  return element offset 1 writeBytes

/-- `writeCompressedData`. The records are not written behind the table of the
destination, but at the address that is the size of such a table. -/
def writeCompressedData (dest compressedData : ℕ) : M ℤ := do
  storeInt dest (← loadInt compressedData)
  let start := unsigned64 (4 * (← loadInt compressedData))
  let firstLen ← writeRuleData start (← recordAt compressedData 0)
  let offset ← forLoop (return (← loadInt compressedData) - 1)
    (writeRecord dest compressedData start) intRange 0 (element start 1 firstLen)
  return signed32 ((offset : ℤ) - dest)

/-- A turn of the inner loop of `displayCompressedData`. The next reference is looked
at for every character, also when there is none. -/
def displaySymbol (ruleData : ℕ) (j k : ℤ) : M ℤ := do
  let unit := element (← loadPtr (ruleData + 8)) 8 k
  if j = (← loadInt (unit + 4)) then
    let _ ← loadInt unit
    return k + 1
  else
    let _ ← loadByte (element (← loadPtr (ruleData + 16)) 1 j)
    return k

/-- A turn of the outer loop. -/
def displayRule (compressedData : ℕ) (i : ℤ) : M Unit := do
  let ruleData ← recordAt compressedData i
  let _ ← forLoop (loadInt (ruleData + 24)) (displaySymbol ruleData) intRange 0 0
  return ()

/-- `displayCompressedData`. -/
def displayCompressedData (compressedData : ℕ) : M Unit :=
  forLoop (loadInt compressedData) (fun i _ => displayRule compressedData i) intRange 0 ()

/-- `destroyCompressedData`. -/
def destroyCompressedData (compressedData : ℕ) : M Unit := do
  forLoop (loadInt compressedData) (fun i _ => do free (← recordAt compressedData i)) intRange 0 ()
  free (← loadPtr (compressedData + 8))

/-- A turn of the loop of `restore`, given what it does for another record. The
variables are the number of the next reference and the write pointer. -/
def restoreSymbol (restore : ℕ → ℕ → M ℤ) (ruleData compressedData : ℕ) (j : ℤ) (v : ℤ × ℕ) :
    M (ℤ × ℕ) := do
  let unit := element (← loadPtr (ruleData + 8)) 8 v.1
  if j = (← loadInt (unit + 4)) then
    let index ← loadInt unit
    let written ← restore v.2 (← recordAt compressedData index)
    return (v.1 + 1, element v.2 1 written)
  else
    storeByte v.2 (← loadByte (element (← loadPtr (ruleData + 16)) 1 j))
    return (v.1, element v.2 1 1)

/-- `restore`, with a bound on the depth of its recursion. -/
def restore (compressedData : ℕ) : ℕ → ℕ → ℕ → M ℤ
  | 0, _, _ => throw .depth
  | depth + 1, dest, ruleData => do
    let v ← forLoop (loadInt (ruleData + 24))
      (restoreSymbol (restore compressedData depth) ruleData compressedData) intRange 0 (0, dest)
    return signed32 ((v.2 : ℤ) - dest)

/-! ## The two functions -/

/-- A turn of the loop of `tadoc_compress` that frees the rules. -/
def destroyDetected (i : ℤ) : M Unit := do
  let rule ← loadPtr (element (← get).rules 8 i)
  grammar (GrammarHeap.destroyRule mc.config rule)

/-- **`tadoc_compress`.** The first character is read whatever the length is. There
are no more rules than blocks, which bounds the depth of `discover`. Behind the end
the digram table is freed; nothing reads it before the next call makes another. -/
def tadocCompress (source : ℕ) (slen : ℤ) (dest : ℕ) : M ℤ := do
  initHashTable mc
  let text ← loadBytes source (max slen 1).toNat
  let S ← grammar (GrammarHeap.tadocBuild mc.config text)
  let compressedData ← malloc mc 24
  storeInt compressedData (← get).heap.numRules
  storePtr (compressedData + 16) (← malloc mc (unsigned64 (8 * (← get).heap.numRules)))
  storePtr (compressedData + 8) (← malloc mc (unsigned64 (4 * ((← get).heap.numRules - 1))))
  discover mc compressedData (← get).heap.used S
  displayCompressedData compressedData
  let totalWriteBytes ← writeCompressedData dest compressedData
  forLoop (return (← get).detectedRulesNum) (fun i _ => destroyDetected mc i) intRange 0 ()
  destroyCompressedData compressedData
  return totalWriteBytes

/-- A turn of the loop of `tadoc_decompress` over the table of offsets. -/
def readOffset (compressedData source : ℕ) (i : ℤ) : M Unit := do
  let offset ← loadInt (element source 4 (i + 1))
  storeInt (element (← loadPtr (compressedData + 8)) 4 i) offset

/-- A turn of the loop over the records behind the first one. -/
def readRecord (compressedData start : ℕ) (i : ℤ) : M Unit := do
  let after ← loadInt (element (← loadPtr (compressedData + 8)) 4 i)
  let before ← loadInt (element (← loadPtr (compressedData + 8)) 4 (i - 1))
  let ruleData ← readRuleData mc (element start 1 before) (signed32 (after - before))
  storePtr (element (← loadPtr (compressedData + 16)) 8 i) ruleData

/-- **`tadoc_decompress`.** The table of offsets is asked for with the file-scope
`num_rules`, and one byte short; where the records start is the size of that table
divided by the size of a pointer. Neither the length of the source is looked at nor,
but for a message, the size that is asked for: the result is the number of bytes
written. -/
def tadocDecompress (source : ℕ) (_slen : ℤ) (dest : ℕ) (_rawsize _checkComplete : ℤ) : M ℤ := do
  let compressedData ← malloc mc 24
  storeInt compressedData (← loadInt source)
  storePtr (compressedData + 8) (← malloc mc (unsigned64 (4 * (← get).heap.numRules - 1)))
  forLoop (return (← loadInt compressedData) - 1) (fun i _ => readOffset compressedData source i)
    intRange 0 ()
  storePtr (compressedData + 16) (← malloc mc (unsigned64 (8 * (← loadInt compressedData))))
  let tableSize := unsigned64 (4 * (← loadInt compressedData))
  let start := element source 1 ((tableSize / 8 : ℕ) : ℤ)
  let firstLen ← loadInt (← loadPtr (compressedData + 8))
  let first ← readRuleData mc start firstLen
  storePtr (← loadPtr (compressedData + 16)) first
  forLoop (loadInt compressedData) (fun i _ => readRecord mc compressedData start i) intRange 1 ()
  displayCompressedData compressedData
  let writeBytes ← restore compressedData mc.stack dest (← recordAt compressedData 0)
  destroyCompressedData compressedData
  return writeBytes

end Tadoc
