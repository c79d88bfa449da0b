/-!
Grammar rules: a tree of combinators over literals, patterns and names of other rules.
-/
namespace EarleyTree

inductive RuleKind
  | blank
  | string
  | pattern
  | symbol
  | choice
  | sequence
  | zeroOrMore
  | oneOrMore
  | precedence
  | precedenceLeft
  | precedenceRight
  | precedenceDynamic
  | field
  | renamed
  | token
  | immediateToken
  | reserved
  deriving DecidableEq, Repr

namespace RuleKind

/-- The tag by which grammar documents call the combinator. -/
def tag : RuleKind → String
  | blank => "BLANK"
  | string => "STRING"
  | pattern => "PATTERN"
  | symbol => "SYMBOL"
  | choice => "CHOICE"
  | sequence => "SEQ"
  | zeroOrMore => "REPEAT"
  | oneOrMore => "REPEAT1"
  | precedence => "PREC"
  | precedenceLeft => "PREC_LEFT"
  | precedenceRight => "PREC_RIGHT"
  | precedenceDynamic => "PREC_DYNAMIC"
  | field => "FIELD"
  | renamed => "ALIAS"
  | token => "TOKEN"
  | immediateToken => "IMMEDIATE_TOKEN"
  | reserved => "RESERVED"

def all : List RuleKind :=
  [blank, string, pattern, symbol, choice, sequence, zeroOrMore, oneOrMore, precedence,
    precedenceLeft, precedenceRight, precedenceDynamic, field, renamed, token, immediateToken,
    reserved]

def ofTag? (tag : String) : Option RuleKind := all.find? (·.tag == tag)

def isPrecedence : RuleKind → Bool
  | precedence | precedenceLeft | precedenceRight | precedenceDynamic => true
  | _ => false

end RuleKind

inductive RuleValue
  | text (s : String)
  | level (n : Int)
  deriving DecidableEq, Repr

/-- A rule as grammar documents hold it. Which of the parts mean something depends on the kind; a
document may fill in the others as well. -/
structure Rule where
  kind : RuleKind
  value : Option RuleValue := none
  name : Option String := none
  content : Option Rule := none
  members : List Rule := []
  named : Option Bool := none
  flags : Option String := none
  contextName : Option String := none
  deriving Repr

namespace Rule

/-- The rule describes a single token: a literal, a pattern, a token, or a precedence around one. -/
def isLexical : Rule → Bool
  | ⟨kind, _, _, content, _, _, _, _⟩ =>
    match kind with
    | .string | .pattern | .token | .immediateToken => true
    | .precedence | .precedenceLeft | .precedenceRight | .precedenceDynamic =>
      match content with
      | some inner => inner.isLexical
      | none => false
    | _ => false

variable (r : Rule)

def isTerminal : Bool := r.kind == .string || r.kind == .pattern

def isSymbol : Bool := r.kind == .symbol

def symbolName? : Option String := if r.isSymbol then r.name else none

def precedence? : Option Int :=
  match r.value with
  | some (.level n) => if r.kind.isPrecedence then some n else none
  | _ => none

def text? : Option String :=
  match r.value with
  | some (.text s) => some s
  | _ => none

def stringValue? : Option String := if r.kind = .string then r.text? else none

def patternValue? : Option String := if r.kind = .pattern then r.text? else none

mutual

/-- The rule and every rule inside it, the outer ones first. -/
def walk : Rule → List Rule
  | r@⟨_, _, _, content, members, _, _, _⟩ => r :: (walkContent content ++ walkMembers members)

def walkContent : Option Rule → List Rule
  | none => []
  | some r => r.walk

def walkMembers : List Rule → List Rule
  | [] => []
  | r :: rs => r.walk ++ walkMembers rs

end

def references : List String := r.walk.filterMap symbolName?

end Rule

/-- Names that begin with an underscore stand for no node. -/
def isHiddenName (name : String) : Bool := "_".toList.isPrefixOf name.toList

end EarleyTree
