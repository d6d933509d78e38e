import Hoco.Triple
import Mathlib.Logic.Function.Basic
import Mathlib.Algebra.Ring.Int.Defs
import Mathlib.Algebra.Ring.Nat

/-!
# Two programs that build a grammar

`tadoc.c` is a port of `sequitur.cc` from C++ to C. Both read characters and
build a context-free grammar whose only word is what has been read. A rule is a
doubly linked ring of symbols that is closed by a guard; a symbol is a character
or refers to a rule. A hash table records where a pair of neighbours, a digram,
has occurred, and a digram that occurs again is replaced by a rule.

The functions below follow `tadoc.c`, under its names. The two programs differ
in a few places only, and there the functions look at the program they are run
for: `Program` names it, and `Config` adds what the program finds on its machine.

* The number of references of a new rule starts from zero in both programs, but
  `tadoc.c` counts the guard and `sequitur.cc` does not (`genRule`).
* `tadoc.c` keeps half of a symbol's key in a field of its own, `sequitur.cc`
  computes it from the key (`Config.value`).
* When a rule is dissolved, `sequitur.cc` records the digram at its end, and
  `tadoc.c` marks the slot of that digram as deleted (`expand`).
* `sequitur.cc` checks after every character, `tadoc.c` from the second one on.

Memory is a map from addresses to symbols and one to rules, and an access to an
address that holds neither ends in a fault. The messages that `tadoc.c` prints on
the way are left out; they read nothing that is not read anyway.
-/

namespace GrammarHeap

/-! ## State -/

/-- The two programs. -/
inductive Program where
  | tadoc
  | sequitur
  deriving DecidableEq, Repr

/-- Ways not to return: an access outside the blocks in use, a loop that does not
end, a request that `malloc` does not meet with a new block, and a recursion
deeper than the bound the model gives it. -/
inductive Stop where
  | fault
  | endless
  | memory
  | depth
  deriving DecidableEq, Repr

/-- `struct Symbol`. -/
structure Symbol where
  n : ℕ
  p : ℕ
  key : ℕ
  value : ℕ
  deriving DecidableEq, Repr

/-- `struct Rule`. -/
structure Rule where
  guard : ℕ
  count : ℤ
  index : ℤ
  deriving DecidableEq, Repr

/-- The memory of a program, and the number of blocks it has asked for. An entry
of the hash table is the address of a symbol, `0` if the slot is empty, or `1` if
it is deleted. -/
structure Store where
  symbols : ℕ → Option Symbol
  rules : ℕ → Option Rule
  hashTable : ℕ → ℕ
  numRules : ℤ
  used : ℕ

/-- A program, the addresses of the blocks it is given, one after the other, and
whether `char` is signed. -/
structure Config where
  program : Program
  address : ℕ → ℕ
  charSigned : Bool

abbrev M := StateT Store (Except Stop)

/-! ## Memory -/

def loadSymbol (a : ℕ) : M Symbol := do
  match (← get).symbols a with
  | some s => return s
  | none => throw .fault

def storeSymbol (a : ℕ) (s : Symbol) : M Unit :=
  modify fun st => { st with symbols := Function.update st.symbols a (some s) }

def modifySymbol (a : ℕ) (f : Symbol → Symbol) : M Unit := do
  let s ← loadSymbol a
  storeSymbol a (f s)

def freeSymbol (a : ℕ) : M Unit :=
  modify fun st => { st with symbols := Function.update st.symbols a none }

def loadRule (r : ℕ) : M Rule := do
  match (← get).rules r with
  | some R => return R
  | none => throw .fault

def storeRule (r : ℕ) (R : Rule) : M Unit :=
  modify fun st => { st with rules := Function.update st.rules r (some R) }

def modifyRule (r : ℕ) (f : Rule → Rule) : M Unit := do
  let R ← loadRule r
  storeRule r (f R)

def freeRule (r : ℕ) : M Unit :=
  modify fun st => { st with rules := Function.update st.rules r none }

def loadSlot (i : ℕ) : M ℕ := return (← get).hashTable i

def storeSlot (i v : ℕ) : M Unit :=
  modify fun st => { st with hashTable := Function.update st.hashTable i v }

/-- An address that a block can have: aligned, not in the first page, and in the
half of the address space that programs have. -/
def userAddress (a : ℕ) : Bool := a % 8 = 0 ∧ 4096 ≤ a ∧ a < 2 ^ 47

/-- `malloc`: the next address, if it is one that a new block can have. -/
def malloc (cfg : Config) : M ℕ := do
  let st ← get
  let a := cfg.address st.used
  if userAddress a ∧ st.symbols a = none ∧ st.rules a = none then
    set { st with used := st.used + 1 }
    return a
  else throw .memory

/-! ## Rules and symbols -/

variable (cfg : Config)

/-- `first`. -/
def first (rule : ℕ) : M ℕ := do
  let R ← loadRule rule
  return (← loadSymbol R.guard).n

/-- `last`. -/
def last (rule : ℕ) : M ℕ := do
  let R ← loadRule rule
  return (← loadSymbol R.guard).p

/-- `reuse`. -/
def reuse (rule : ℕ) : M Unit := modifyRule rule fun R => { R with count := R.count + 1 }

/-- `deuse`. -/
def deuse (rule : ℕ) : M Unit := modifyRule rule fun R => { R with count := R.count - 1 }

/-- `genSymbol1`: a symbol for a character. -/
def genSymbol1 (sym : ℕ) : M ℕ := do
  let new ← malloc cfg
  let key := (sym * 2 + 1) % 2 ^ 64
  storeSymbol new ⟨0, 0, key, key / 2⟩
  return new

/-- `genSymbol2`: a symbol for a rule, which is counted as a reference to it. -/
def genSymbol2 (rule : ℕ) : M ℕ := do
  let new ← malloc cfg
  storeSymbol new ⟨0, 0, rule, rule / 2⟩
  reuse rule
  return new

/-- `nonTerminal`: an even key is the address of a rule. -/
def nonTerminal (s : Symbol) : Bool := s.key % 2 = 0 ∧ s.key ≠ 0

/-- `isGuard`: the symbol closes the rule that it refers to. -/
def isGuard (this : ℕ) : M Bool := do
  let s ← loadSymbol this
  if nonTerminal s then
    let rLast ← last s.key
    return (← loadSymbol rLast).n = this
  else return false

/-- Half the key: the field of `tadoc.c`, the function `value` of `sequitur.cc`. -/
def Config.value (s : Symbol) : ℕ :=
  match cfg.program with
  | .tadoc => s.value
  | .sequitur => s.key / 2

/-! ## The digram table -/

/-- `PRIME`, the number of slots. -/
abbrev prime : ℕ := 2265539

/-- `HASH`, the distance between two probes. -/
def hashJump (one : ℕ) : ℕ := 17 - one % 17

/-- `HASH2`, the first probe. -/
def hashStart (one two : ℕ) : ℕ := ((one <<< 16) % 2 ^ 64 ||| two) % prime

/-- The loop of `findDigram`. The sequence of probes has returned to its start
after `PRIME` steps; a search that is still going on then never ends. -/
def probe (one two jump : ℕ) : ℕ → ℕ → Option ℕ → M ℕ
  | 0, _, _ => throw .endless
  | fuel + 1, i, insert => do
    let m ← loadSlot i
    if m = 0 then return insert.getD i
    else if m = 1 then probe one two jump fuel ((i + jump) % prime) (some i)
    else
      let s ← loadSymbol m
      if s.key = one then
        if (← loadSymbol s.n).key = two then return i
        else probe one two jump fuel ((i + jump) % prime) insert
      else probe one two jump fuel ((i + jump) % prime) insert

/-- `findDigram`: the slot of the digram that starts with the symbol. -/
def findDigram (this : ℕ) : M ℕ := do
  let s ← loadSymbol this
  let t ← loadSymbol s.n
  probe s.key t.key (hashJump s.key) prime (hashStart s.key t.key) none

/-- `*findDigram(this) = this`. -/
def recordDigram (this : ℕ) : M Unit := do
  let i ← findDigram this
  storeSlot i this

/-- The symbol or the one behind it is a guard: there is no digram. -/
def atGuard (this : ℕ) : M Bool := do
  if ← isGuard this then return true
  else
    let s ← loadSymbol this
    isGuard s.n

/-- `deleteDigram`. -/
def deleteDigram (this : ℕ) : M Unit := do
  if ← atGuard this then return ()
  else
    let target ← findDigram this
    if (← loadSlot target) = this then storeSlot target 1
    else return ()

/-! ## Links -/

/-- The first triple that `join` looks after: the symbols around `right`. -/
def keepRight (right : ℕ) : M Unit := do
  let r ← loadSymbol right
  if r.p ≠ 0 ∧ r.n ≠ 0 then
    let rp ← loadSymbol r.p
    if cfg.value r = cfg.value rp then
      let rn ← loadSymbol r.n
      if cfg.value r = cfg.value rn then recordDigram right
      else return ()
    else return ()
  else return ()

/-- The second triple: the symbols around `left`. -/
def keepLeft (left : ℕ) : M Unit := do
  let l ← loadSymbol left
  if l.p ≠ 0 ∧ l.n ≠ 0 then
    let ln ← loadSymbol l.n
    if cfg.value l = cfg.value ln then
      let lp ← loadSymbol l.p
      if cfg.value l = cfg.value lp then recordDigram l.p
      else return ()
    else return ()
  else return ()

/-- What `join` does about the digrams that it breaks up. -/
def leave (left right : ℕ) : M Unit := do
  let l ← loadSymbol left
  if l.n ≠ 0 then
    deleteDigram left
    keepRight cfg right
    keepLeft cfg left
  else return ()

/-- `join`: link two symbols. -/
def join (left right : ℕ) : M Unit := do
  leave cfg left right
  modifySymbol left fun s => { s with n := right }
  modifySymbol right fun s => { s with p := left }

/-- `insertAfter`. -/
def insertAfter (this new : ℕ) : M Unit := do
  let s ← loadSymbol this
  join cfg new s.n
  join cfg this new

/-- `destroySymbol`. -/
def destroySymbol (this : ℕ) : M Unit := do
  let s ← loadSymbol this
  join cfg s.p s.n
  if ← isGuard this then freeSymbol this
  else
    deleteDigram this
    let s ← loadSymbol this
    if nonTerminal s then
      deuse s.key
      freeSymbol this
    else freeSymbol this

/-- `genRule`. In `tadoc.c` the count is cleared before the guard is made, in
`sequitur.cc` behind it. -/
def genRule : M ℕ := do
  let newRule ← malloc cfg
  modify fun st => { st with numRules := st.numRules + 1 }
  storeRule newRule ⟨0, 0, 0⟩
  let guard ← genSymbol2 cfg newRule
  modifyRule newRule fun R => { R with guard := guard }
  join cfg guard guard
  match cfg.program with
  | .tadoc => return newRule
  | .sequitur =>
    modifyRule newRule fun R => { R with count := 0, index := 0 }
    return newRule

/-- `destroyRule`. -/
def destroyRule (rule : ℕ) : M Unit := do
  modify fun st => { st with numRules := st.numRules - 1 }
  let R ← loadRule rule
  destroySymbol cfg R.guard
  freeRule rule

/-! ## Digrams that occur again -/

/-- `expand`: the symbol is the last reference to its rule, whose symbols take its
place. -/
def expand (this : ℕ) : M Unit := do
  let s ← loadSymbol this
  let left := s.p
  let right := s.n
  let firstSym ← first s.key
  let lastSym ← last s.key
  destroyRule cfg s.key
  let m ← findDigram this
  if (← loadSlot m) = this then storeSlot m 1
  else pure ()
  modifySymbol this fun s => { s with key := 0 }
  destroySymbol cfg this
  join cfg left firstSym
  join cfg lastSym right
  let m ← findDigram lastSym
  match cfg.program with
  | .tadoc => storeSlot m 1
  | .sequitur => storeSlot m lastSym

/-- A new symbol with the key of another one. -/
def copySymbol (this : ℕ) : M ℕ := do
  let s ← loadSymbol this
  if nonTerminal s then genSymbol2 cfg s.key
  else genSymbol1 cfg (cfg.value s)

/-- The digram at `oldS` is the whole of a rule. -/
def isWholeRule (oldS : ℕ) : M Bool := do
  let s ← loadSymbol oldS
  if ← isGuard s.p then
    let t ← loadSymbol s.n
    isGuard t.n
  else return false

section Recursive

variable (checkPut : ℕ → M Bool)

/-- `substitute`: the digram at `this` is replaced by a reference to the rule. -/
def substitute (this rule : ℕ) : M Unit := do
  let s ← loadSymbol this
  let q := s.p
  let t ← loadSymbol q
  destroySymbol cfg t.n
  let t ← loadSymbol q
  destroySymbol cfg t.n
  let new ← genSymbol2 cfg rule
  insertAfter cfg q new
  if ← checkPut q then return ()
  else
    let t ← loadSymbol q
    let _ ← checkPut t.n
    return ()

/-- The rule for a digram that occurs at `newS` and at `oldS`, put in the place of
both. -/
def ruleFor (newS oldS : ℕ) : M ℕ := do
  if ← isWholeRule oldS then
    let s ← loadSymbol oldS
    let g ← loadSymbol s.p
    substitute cfg checkPut newS g.key
    return g.key
  else
    let r ← genRule cfg
    insertAfter cfg (← last r) (← copySymbol cfg newS)
    let s ← loadSymbol newS
    insertAfter cfg (← last r) (← copySymbol cfg s.n)
    substitute cfg checkPut oldS r
    substitute cfg checkPut newS r
    recordDigram (← first r)
    return r

/-- `match`. Behind the replacement, a rule that has only one reference left is
dissolved, if it is the first symbol of the rule that has been used. -/
def matchDigram (newS oldS : ℕ) : M Unit := do
  let r ← ruleFor cfg checkPut newS oldS
  let firstSym ← first r
  let f ← loadSymbol firstSym
  if nonTerminal f then
    let R ← loadRule f.key
    if R.count = 1 then expand cfg firstSym
    else return ()
  else return ()

end Recursive

/-- `check_put`, with a bound on the depth of its recursion. The result says
whether the digram has been met before. -/
def checkPut : ℕ → ℕ → M Bool
  | 0, _ => throw .depth
  | depth + 1, this => do
    if ← atGuard this then return false
    else
      let i ← findDigram this
      let x ← loadSlot i
      if x ≤ 1 then
        storeSlot i this
        return false
      else
        let s ← loadSymbol x
        if s.n ≠ this then
          matchDigram cfg (checkPut depth) this x
          return true
        else return true

/-! ## Reading -/

/-- The value of a `char` as a 64-bit unsigned integer. -/
def Config.charCode (c : UInt8) : ℕ :=
  if cfg.charSigned ∧ 128 ≤ c.toNat then c.toNat + (2 ^ 64 - 256) else c.toNat

/-- A character is appended to the start rule. -/
def appendChar (S : ℕ) (c : UInt8) : M Unit := do
  insertAfter cfg (← last S) (← genSymbol1 cfg (cfg.charCode c))

/-- The last digram of the start rule is checked. There are no more symbols than
blocks, which bounds the depth of the recursion. -/
def checkLast (S : ℕ) : M Unit := do
  let l ← last S
  let s ← loadSymbol l
  let _ ← checkPut cfg (← get).used s.p
  return ()

/-- The loop of `tadoc_compress` over the characters behind the first one. -/
def tadocLoop (S : ℕ) : List UInt8 → M Unit
  | [] => return ()
  | c :: source => do
    appendChar cfg S c
    checkLast cfg S
    tadocLoop S source

/-- **The part of `tadoc_compress` that builds the grammar.** It returns the start
rule. -/
def tadocBuild : List UInt8 → M ℕ
  | [] => throw .fault
  | c :: source => do
    let S ← genRule cfg
    appendChar cfg S c
    tadocLoop cfg S source
    return S

/-- The loop of `main` in `sequitur.cc` over the bytes of the file. The end of the
file is told by a `char` that equals `EOF`, which an unsigned one never does, and
which a byte of the file may do as well. -/
def sequiturLoop (S : ℕ) : List UInt8 → M Unit
  | [] => if cfg.charSigned then return () else throw .endless
  | c :: file =>
    if cfg.charSigned ∧ c = 255 then return ()
    else do
      appendChar cfg S c
      checkLast cfg S
      sequiturLoop S file

/-- **The part of `sequitur.cc` that builds the grammar**, the start rule, which is
a global object, included. -/
def sequiturBuild (file : List UInt8) : M ℕ := do
  let S ← genRule cfg
  sequiturLoop cfg S file
  return S

/-- The memory at the start, the digram table in place. -/
def Store.init (table : ℕ → ℕ) : Store := ⟨fun _ => none, fun _ => none, table, 0, 0⟩

end GrammarHeap
