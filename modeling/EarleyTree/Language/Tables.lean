import EarleyTree.Pattern.Matching

/-!
The tables that a grammar compiles to.
-/
namespace EarleyTree

abbrev Symbol := Nat

/-- Number of a field name, from 1. -/
abbrev FieldId := Nat

/-- The kind of error nodes; no table has an entry for it. -/
def errorSymbol : Symbol := 65535

inductive SymbolKind
  | endMarker
  | terminal
  | external
  | nonterminal
  /-- Made by compilation for a part of a rule. -/
  | auxiliary
  /-- A name that only renamed nodes bear. -/
  | nameOnly
  deriving DecidableEq, Repr

structure SymbolInfo where
  name : String
  kind : SymbolKind
  named : Bool
  visible : Bool
  deriving DecidableEq, Repr

def SymbolInfo.isTerminal (s : SymbolInfo) : Bool := s.kind == .terminal || s.kind == .external

def SymbolInfo.isNonterminal (s : SymbolInfo) : Bool :=
  s.kind == .nonterminal || s.kind == .auxiliary

structure Step where
  symbol : Symbol
  field : Option FieldId := none
  newKind : Option Symbol := none
  /-- No extras may stand before the token. -/
  immediate : Bool := false
  deriving DecidableEq, Repr

structure Production where
  lhs : Symbol
  steps : List Step
  priority : Int
  deriving DecidableEq, Repr

structure LexToken where
  symbol : Symbol
  regex : Pattern.Regex
  isString : Bool
  precedence : Int
  deriving Repr

structure Tables where
  name : String
  symbols : Array SymbolInfo
  fields : List String
  productions : Array Production
  productionsByLhs : Array (List Nat)
  nullable : Array Bool
  start : Symbol
  lexTokens : List LexToken
  /-- What is passed over in silence between tokens. -/
  skip : List Pattern.Regex
  /-- Terminals that may stand anywhere, with the visible rule that wraps them. -/
  extraTokens : List (Symbol × Option Symbol)
  externals : List Symbol
  keywords : List (String × Symbol)
  word : Option Symbol
  deriving Repr

namespace Tables

variable (t : Tables)

def isTerminal (s : Symbol) : Bool := t.symbols[s]?.any (·.isTerminal)

def isNonterminal (s : Symbol) : Bool := t.symbols[s]?.any (·.isNonterminal)

def isVisible (s : Symbol) : Bool := t.symbols[s]?.any (·.visible)

def isNullable (s : Symbol) : Bool := t.nullable.getD s false

def steps (production : Nat) : List Step := (t.productions[production]?.map (·.steps)).getD []

def lhs (production : Nat) : Symbol := (t.productions[production]?.map (·.lhs)).getD 0

def priority (production : Nat) : Int := (t.productions[production]?.map (·.priority)).getD 0

def productionsOf (s : Symbol) : List Nat := t.productionsByLhs.getD s []

def isExtra (s : Symbol) : Bool := (t.extraTokens.lookup s).isSome

/-- The visible rule that wraps an extra. -/
def wrapper? (s : Symbol) : Option Symbol := (t.extraTokens.lookup s).join

def dottedCount : Nat := t.productions.foldl (fun n p => n + p.steps.length + 1) 0

end Tables

end EarleyTree
