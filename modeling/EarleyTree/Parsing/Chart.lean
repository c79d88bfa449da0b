import EarleyTree.Language.Tables

/-!
The Earley chart: one set of dotted productions before the first input unit and one behind each.
-/
namespace EarleyTree

/-- A production of which the first `dot` steps are accounted for from set `origin` on. -/
structure Item where
  production : Nat
  dot : Nat
  origin : Nat
  deriving DecidableEq, Repr

namespace Item

variable (t : Tables) (item : Item)

def nextStep? : Option Step := (t.steps item.production)[item.dot]?

def next? : Option Symbol := (item.nextStep? t).map (·.symbol)

def lhs : Symbol := t.lhs item.production

def advance : Item := { item with dot := item.dot + 1 }

def isComplete : Bool := (item.nextStep? t).isNone

end Item

/-- Items in the order in which they came, without repetition. -/
structure ItemSet where
  items : Array Item := #[]
  deriving Repr

namespace ItemSet

variable (t : Tables) (set : ItemSet)

def contains (item : Item) : Bool := set.items.contains item

def add (item : Item) : ItemSet := if set.contains item then set else ⟨set.items.push item⟩

def addAll (items : List Item) : ItemSet := items.foldl add set

def waitingOn (s : Symbol) : List Item := set.items.toList.filter fun i => i.next? t == some s

def completed (s : Symbol) (origin : Nat) : List Nat :=
  (set.items.toList.filter fun i => i.origin == origin && i.isComplete t && i.lhs t == s).map
    (·.production)

def completes (s : Symbol) (origin : Nat) : Bool :=
  set.items.any fun i => i.origin == origin && i.isComplete t && i.lhs t == s

def completedPairs : List (Symbol × Nat) :=
  ((set.items.toList.filter (·.isComplete t)).map fun i => (i.lhs t, i.origin)).eraseDups

def nextSymbols : List Symbol := set.items.toList.filterMap (·.next? t)

def expectedTerminals : List Symbol := (set.nextSymbols t).filter fun s => !t.isNonterminal s

def expectedNonterminals : List Symbol := (set.nextSymbols t).filter t.isNonterminal

end ItemSet

structure Chart where
  earlier : Array ItemSet
  current : ItemSet
  deriving Repr

namespace Chart

variable (t : Tables) (c : Chart)

def initial : Chart :=
  ⟨#[], ({} : ItemSet).addAll ((t.productionsOf t.start).map fun p => ⟨p, 0, 0⟩)⟩

def index : Nat := c.earlier.size

def sets : Array ItemSet := c.earlier.push c.current

/-- What an item of the current set `set` brings with it: completion, prediction except of the
suppressed symbols, and a step over a nullable symbol. -/
def consequences (earlier : Array ItemSet) (suppressed : List Symbol) (set : ItemSet)
    (item : Item) : List Item :=
  match item.next? t with
  | none => (((earlier[item.origin]?).getD set).waitingOn t (item.lhs t)).map Item.advance
  | some s =>
    if t.isNonterminal s then
      (if suppressed.contains s then [] else
        (t.productionsOf s).map fun p => ⟨p, 0, earlier.size⟩) ++
      (if t.isNullable s then [item.advance] else [])
    else []

/-- Takes the items from `index` on one after the other, the new ones as well. -/
def closeFrom (earlier : Array ItemSet) (suppressed : List Symbol) :
    Nat → Nat → ItemSet → ItemSet
  | 0, _, set => set
  | fuel + 1, index, set =>
    match set.items[index]? with
    | none => set
    | some item =>
      closeFrom earlier suppressed fuel (index + 1)
        (set.addAll (consequences t earlier suppressed set item))

/-- An upper bound for the number of items in the current set. -/
def capacity : Nat := t.dottedCount * (c.index + 1)

def close (suppressed : List Symbol) : Chart :=
  { c with current := closeFrom t c.earlier suppressed (c.capacity t + 1) 0 c.current }

/-- The items that step over `s`; immediate steps do not go over a token behind extras. -/
def scanned (s : Symbol) (afterExtra : Bool) : List Item :=
  ((c.current.waitingOn t s).filter fun i =>
    !((i.nextStep? t).any (·.immediate) && afterExtra)).map Item.advance

/-- The chart with one more input unit, if some item can step over it. -/
def scan? (s : Symbol) (afterExtra : Bool) : Option Chart :=
  match c.scanned t s afterExtra with
  | [] => none
  | items => some ⟨c.sets, ({} : ItemSet).addAll items⟩

/-- The start symbol is complete from the first set to the current one. -/
def accepts : Bool := c.current.completes t t.start 0

end Chart

end EarleyTree
