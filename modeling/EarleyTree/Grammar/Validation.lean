import EarleyTree.Grammar.Basic

/-!
What a grammar must satisfy before it is compiled, and findings that do not stop it.
-/
namespace EarleyTree

inductive ValidationError
  | undefinedSymbol (name context : String)
  | undefinedWord (name : String)
  | undefinedInline (name : String)
  | noRules
  deriving DecidableEq, Repr

def ValidationError.message : ValidationError → String
  | undefinedSymbol name context => s!"undefined symbol '{name}' referenced in rule '{context}'"
  | undefinedWord name => s!"word token '{name}' is not a defined rule"
  | undefinedInline name => s!"inline rule '{name}' is not defined"
  | noRules => "grammar has no rules"

structure ValidationReport where
  unreachable : List String
  leftRecursive : List String
  mixedPrecedence : List (String × List Int)
  deriving DecidableEq, Repr

def ValidationReport.isClean (r : ValidationReport) : Bool :=
  r.unreachable.isEmpty && r.leftRecursive.isEmpty && r.mixedPrecedence.isEmpty

mutual

def Rule.beginsWith (target : String) : Rule → Bool
  | ⟨kind, _, name, content, members, _, _, _⟩ =>
    match kind with
    | .symbol => name == some target
    | .sequence => firstBeginsWith target members
    | .choice => anyBeginsWith target members
    | .precedence | .precedenceLeft | .precedenceRight | .precedenceDynamic | .field | .renamed
    | .zeroOrMore | .oneOrMore => contentBeginsWith target content
    | _ => false

def firstBeginsWith (target : String) : List Rule → Bool
  | [] => false
  | r :: _ => r.beginsWith target

def anyBeginsWith (target : String) : List Rule → Bool
  | [] => false
  | r :: rs => r.beginsWith target || anyBeginsWith target rs

def contentBeginsWith (target : String) : Option Rule → Bool
  | none => false
  | some r => r.beginsWith target

end

namespace Grammar

variable (g : Grammar)

def isDefined (name : String) : Bool := g.rules.contains name || g.externalNames.contains name

def checkReferences (context : String) (r : Rule) : Except ValidationError Unit :=
  match r.references.find? fun name => !g.isDefined name with
  | some name => .error (.undefinedSymbol name context)
  | none => .ok ()

def checkDeclarations : Except ValidationError Unit := do
  if let some word := g.word then
    if !g.rules.contains word then throw (.undefinedWord word)
  if let some name := (g.inlined.getD []).find? fun name => !g.rules.contains name then
    throw (.undefinedInline name)
  (g.extras.getD []).forM (g.checkReferences "extras")

/-- Follows references from the pending names; every name is followed once. -/
def reachFrom : Nat → List String → List String → List String
  | 0, _, reached => reached
  | _ + 1, [], reached => reached
  | fuel + 1, name :: pending, reached =>
    if reached.contains name then reachFrom fuel pending reached
    else
      let next := ((g.rules.find? name).map Rule.references).getD []
      reachFrom fuel (next ++ pending) (name :: reached)

def roots (start : String) : List String :=
  start :: (g.extras.getD []).flatMap Rule.references

/-- The names that can be reached from the start rule or from an extra. -/
def reachable (start : String) : List String :=
  let references := g.rules.entries.flatMap fun e => e.2.references
  g.reachFrom ((g.roots start).length + references.length + 1) (g.roots start) []

def unreachable (start : String) : List String :=
  let reached := g.reachable start
  g.orderedNames.filter fun name => !reached.contains name && !(g.inlined.getD []).contains name

def leftRecursive : List String :=
  (g.orderedRules.filter fun e => e.2.beginsWith e.1).map (·.1)

def mixedPrecedence : List (String × List Int) :=
  (sortNames g.rules.names).filterMap fun name =>
    let levels := (((g.rules.find? name).map Rule.walk).getD []).filterMap Rule.precedence?
    if 1 < levels.eraseDups.length then some (name, levels.eraseDups) else none

def validate : Except ValidationError ValidationReport := do
  g.orderedRules.forM fun e => g.checkReferences e.1 e.2
  g.checkDeclarations
  match g.startRule? with
  | none => throw .noRules
  | some start =>
    return {
      unreachable := g.unreachable start
      leftRecursive := g.leftRecursive
      mixedPrecedence := g.mixedPrecedence }

end Grammar

end EarleyTree
