import Hoco.PairIndex
import Mathlib.Data.List.Count

/-!
# Grammars that grow by the replacement of repeated pairs

This is what the two programs of `Hoco.GrammarHeap` are for, without a heap and
without a hash table. A grammar is a start sequence of symbols and a list of
rules; an index names, for a pair of keys, a place where it occurs. Reading a
character appends it to the start sequence, and then the last pair is settled:

* a pair that is new is recorded in the index;
* a pair that overlaps the only other place where it occurs is left alone;
* a pair that is the body of a rule is replaced by the rule, and then the new
  last pair is settled;
* for any other pair a rule is made, which takes the place of both occurrences.

Symbols and rules have tags, by which the index can name them. They are numbers
that count the blocks the programs ask for, so that a symbol is where the block
with its number is. The start rule has the tag `0` and its guard the tag `1`.

The grammars in which a match was made, that is, a pair was replaced, are kept:
`Grammar.settle` returns them besides its result.
-/

open PairIndex

namespace Grammar

/-- What a symbol stands for: a character, or a rule. -/
inductive Key where
  | term (c : UInt8)
  | rule (r : ℕ)
  deriving DecidableEq, Repr

/-- The order in which keys come into being. -/
def Key.rank : Key → ℕ
  | term _ => 0
  | rule r => r

/-- A symbol in a sequence. -/
structure Sym where
  tag : ℕ
  key : Key
  deriving DecidableEq, Repr

/-- A rule: its tag, the tag of its guard, and its symbols. -/
structure Ring where
  rule : ℕ
  guard : ℕ
  body : List Sym
  deriving DecidableEq, Repr

end Grammar

/-- A grammar: the tags in use, the start sequence, the rules, and the index of
pairs. -/
structure Grammar where
  used : ℕ
  start : List Grammar.Sym
  rules : List Grammar.Ring
  index : Index Grammar.Key Grammar.Sym

namespace Grammar

/-! ## Growing -/

/-- Before anything is read. -/
def init : Grammar := ⟨2, [], [], fun _ => none⟩

variable (G : Grammar)

/-- The rules, the start rule included. -/
def rings : List Ring := ⟨0, 1, G.start⟩ :: G.rules

def bodies : List (List Sym) := G.rings.map Ring.body

/-- A character is appended. -/
def append (c : UInt8) : Grammar :=
  { G with used := G.used + 1, start := G.start ++ [⟨G.used, .term c⟩] }

/-- The edits of the index when `a` and `b` make way for one symbol, with what
stands before them, in reverse, and what stands behind them. -/
def edits (left : List Sym) (a b : Sym) (right : List Sym) : List (Edit Key Sym) :=
  replaceEdits Sym.key left.tail.head? left.head? a b right.head? right.tail.head?

/-- A pair of neighbours is recorded, if there are two. -/
def note : Option Sym → Option Sym → Grammar
  | some x, some y => { G with index := Function.update G.index (x.key, y.key) (some x) }
  | _, _ => G

/-- A symbol for a rule takes the place of `a` and `b` in the start sequence. -/
def substitute (left : List Sym) (a b : Sym) (right : List Sym) (r : ℕ) : Grammar :=
  { G with
    used := G.used + 1
    start := left.reverse ++ ⟨G.used, .rule r⟩ :: right
    index := runAll (edits left a b right) G.index }

/-- A rule is made for the pair of `a` and `b`. -/
def addRule (a b : Sym) : Grammar :=
  { G with
    used := G.used + 4
    rules := G.rules
      ++ [⟨G.used, G.used + 1, [⟨G.used + 2, a.key⟩, ⟨G.used + 3, b.key⟩]⟩] }

/-- The new rule takes the place of the old occurrence `o o'` of its pair, and the
two new pairs are recorded. -/
def replaceOld (pre : List Sym) (o o' : Sym) (right : List Sym) (a b : Sym) : Grammar :=
  let z : Sym := ⟨G.used + 4, .rule G.used⟩
  (((G.addRule a b).substitute pre o o' right G.used).note pre.head? (some z)).note (some z)
    right.head?

/-- **A rule for a pair** that stands at `o o'` and at the end. Behind the
replacement of both, the new last pair is recorded, and the body of the rule. -/
def fresh (pre : List Sym) (o o' : Sym) (mid : List Sym) (a b : Sym) : Grammar :=
  let left := mid.reverse ++ ⟨G.used + 4, .rule G.used⟩ :: pre
  (((G.replaceOld pre o o' (mid ++ [a, b]) a b).substitute left a b [] G.used).note left.head?
    (some ⟨G.used + 5, .rule G.used⟩)).note (some ⟨G.used + 2, a.key⟩)
      (some ⟨G.used + 3, b.key⟩)

/-- What stands before a symbol, in reverse, and behind it. -/
def locate (o : Sym) : List Sym → List Sym → Option (List Sym × Sym × List Sym)
  | left, x :: y :: l => if x = o then some (left, y, l) else locate o (x :: left) (y :: l)
  | _, _ => none

/-- **The last pair is settled.** Besides the result, the grammars are returned in
which a match was made. -/
def settle : ℕ → Grammar → List Grammar × Grammar
  | 0, G => ([], G)
  | fuel + 1, G =>
    match G.start.reverse with
    | b :: a :: left =>
      match G.index (a.key, b.key) with
      | none => ([], G.note (some a) (some b))
      | some o =>
        if left.head? = some o then ([], G)
        else match G.rules.find? fun R => R.body.head? = some o with
          | some R =>
            let (matches', G') := settle fuel (G.substitute left a b [] R.rule)
            (G :: matches', G')
          | none =>
            match locate o [] G.start with
            | some (pre, o', right) => ([G], G.fresh pre o o' right.dropLast.dropLast a b)
            | none => ([], G)
    | _ => ([], G)

/-- A character is read. -/
def step (c : UInt8) : List Grammar × Grammar :=
  (G.append c).settle (G.append c).start.length

/-- **The grammar of a text**, and the grammars in which a match was made on the
way. -/
def build (source : List UInt8) : List Grammar × Grammar :=
  source.foldl (fun p c => (p.1 ++ (p.2.step c).1, (p.2.step c).2)) ([], init)

end Grammar
