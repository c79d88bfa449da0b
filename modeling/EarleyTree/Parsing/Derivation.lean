import EarleyTree.Lexing.Lexer
import EarleyTree.Parsing.Chart
import EarleyTree.Tree.Subtree

/-!
Trees out of a finished chart. Where there are several derivations the production of higher priority
is taken, then the one defined earlier, then the split that leaves least to the last child.
-/
namespace EarleyTree

open Text

/-- What the chart steps over: a token, or a subtree taken over from an earlier tree. -/
inductive InputUnit
  | token (t : Token)
  | reused (t : Subtree)
  deriving Repr

namespace InputUnit

def start : InputUnit → Nat
  | token t => t.start
  | reused t => t.start

def stop : InputUnit → Nat
  | token t => t.stop
  | reused t => t.stop

end InputUnit

/-- A symbol with the input units, from `start` up to `stop`, that it is to derive. -/
structure Stretch where
  symbol : Symbol
  start : Nat
  stop : Nat
  deriving DecidableEq, Repr

/-- What is known from earlier derivations: the children of stretches, how often a derivation came
back to a stretch it had begun with, and how many nodes were made. -/
structure Memory where
  memo : List (Stretch × Option (List Subtree)) := []
  cycles : Nat := 0
  nodes : Nat := 0

/-- Steps of a derivation; there is no result where it would go too deep. -/
abbrev Extract := StateT Memory Option

/-- An order in which the symbols complete at a place, each with its origin, are gone through. It is
any at all: none is left out, and none is added. -/
structure KeyOrder where
  arrange : Nat → List (Symbol × Nat) → List (Symbol × Nat)
  perm : ∀ place keys, (arrange place keys).Perm keys

/-- As the chart came to them. -/
def KeyOrder.entered : KeyOrder := ⟨fun _ keys => keys, fun _ keys => .refl keys⟩

structure Derivation where
  tables : Tables
  sets : Array ItemSet
  units : Array InputUnit
  lines : Lines
  era : Nat

namespace Derivation

variable (x : Derivation)

def setAt (k : Nat) : ItemSet := x.sets.getD k {}

def freshIdent : Extract Ident := do
  let m ← get
  set { m with nodes := m.nodes + 1 }
  return ⟨x.era, [m.nodes]⟩

/-- No units lie where the unit before ended, or at the very beginning where the first one starts. -/
def emptySpan (i : Nat) : Span :=
  let place := match (if i = 0 then none else x.units[i - 1]?) with
    | some before => before.stop
    | none => ((x.units[0]?).map (·.start)).getD 0
  x.lines.span place place

def span (i j : Nat) : Span :=
  match x.units[i]?, x.units[j - 1]? with
  | some first, some last =>
    if i < j then x.lines.span first.start last.stop else x.emptySpan i
  | _, _ => x.emptySpan i

/-- Lower numbers first among productions of the same priority. -/
def insertByRank (p : Nat) : List Nat → List Nat
  | [] => [p]
  | q :: qs =>
    if x.tables.priority q < x.tables.priority p ∨
        x.tables.priority q = x.tables.priority p ∧ p ≤ q then p :: q :: qs
    else q :: insertByRank p qs

def ranked (productions : List Nat) : List Nat := productions.foldr x.insertByRank []

def isShown (step : Step) : Bool := x.tables.isVisible step.symbol || step.newKind.isSome

/-- The nodes for a step over the units from `i` up to `j`. What a hidden symbol derives takes its
place. -/
def materialize (derive : Stretch → Extract (Option (List Subtree))) (step : Step) (i j : Nat) :
    Extract (Option (List Subtree)) := do
  let kind := step.newKind.getD step.symbol
  if x.tables.isTerminal step.symbol then
    if x.isShown step then
      let t := Subtree.leaf (← x.freshIdent) step.symbol kind (x.span i j)
      return some [t.setField step.field]
    else return some []
  else
    match ← derive ⟨step.symbol, i, j⟩ with
    | none => return none
    | some children =>
      if x.isShown step then
        let t := Subtree.node (← x.freshIdent) step.symbol kind (x.span i j) children
        return some [t.setField step.field]
      else return some (children.map (Subtree.label step.field))

/-- The first of the given places from which the step derives the units up to `stop`. -/
def firstSplit (derive : Stretch → Extract (Option (List Subtree))) (step : Step) (stop : Nat)
    (fits : Nat → Bool) : List Nat → Extract (Option (Nat × List Subtree))
  | [] => return none
  | k :: ks => do
    if fits k then
      match ← x.materialize derive step k stop with
      | some nodes => return some (k, nodes)
      | none => firstSplit derive step stop fits ks
    else firstSplit derive step stop fits ks

def placesDown (start stop : Nat) : List Nat := (List.range' start (stop + 1 - start)).reverse

/-- A subtree taken over that ends at `stop` and can stand for the step. -/
def reusedBefore (step : Step) (start stop : Nat) (fits : Nat → Bool) : Option Subtree :=
  if stop ≤ start then none
  else
    match x.units[stop - 1]? with
    | some (.reused t) => if t.symbol = step.symbol ∧ fits (stop - 1) then some t else none
    | _ => none

def tokenBefore (step : Step) (start stop : Nat) (fits : Nat → Bool) : Bool :=
  start < stop &&
    match x.units[stop - 1]? with
    | some (.token t) => t.symbol == step.symbol && fits (stop - 1)
    | _ => false

/-- A subtree taken over under another name is a new node. -/
def rename (kind : Symbol) (t : Subtree) : Extract Subtree := do
  if t.kind = kind then return t
  else return ⟨{ t.data with ident := ← x.freshIdent, kind := kind }, t.children⟩

/-- Accounts for the steps of a production from the last one to the first. -/
def deriveSteps (derive : Stretch → Extract (Option (List Subtree))) (production origin : Nat) :
    List Step → Nat → List Subtree → Extract (Option (List Subtree))
  | [], stop, after => return if stop = origin then some after else none
  | step :: before, stop, after => do
    let fits (k : Nat) := (x.setAt k).contains ⟨production, before.length, origin⟩
    if x.tables.isTerminal step.symbol then
      if x.tokenBefore step origin stop fits then
        match ← x.materialize derive step (stop - 1) stop with
        | some nodes => deriveSteps derive production origin before (stop - 1) (nodes ++ after)
        | none => return none
      else return none
    else
      match x.reusedBefore step origin stop fits with
      | some t =>
        let t ← x.rename (step.newKind.getD step.symbol) t
        deriveSteps derive production origin before (stop - 1) (t.setField step.field :: after)
      | none =>
        let fits (k : Nat) := (x.setAt stop).completes x.tables step.symbol k && fits k
        match ← x.firstSplit derive step stop fits (placesDown origin stop) with
        | some (k, nodes) => deriveSteps derive production origin before k (nodes ++ after)
        | none => return none

def firstProduction (derive : Stretch → Extract (Option (List Subtree))) (s : Stretch) :
    List Nat → Extract (Option (List Subtree))
  | [] => return none
  | p :: ps => do
    match ← x.deriveSteps derive p s.start (x.tables.steps p).reverse s.stop [] with
    | some children => return some children
    | none => firstProduction derive s ps

/-- The children of a node for the stretch. The active stretches are those whose derivation led
here; a failure is remembered only if it does not hang on them. -/
def derive : Nat → List Stretch → Stretch → Extract (Option (List Subtree))
  | 0, _, _ => failure
  | depth + 1, active, s => do
    let m ← get
    match m.memo.lookup s with
    | some known => return known
    | none =>
      if active.contains s then
        set { m with cycles := m.cycles + 1 }
        return none
      else
        let productions := x.ranked ((x.setAt s.stop).completed x.tables s.symbol s.start)
        let result ← x.firstProduction (derive depth (s :: active)) s productions
        let after ← get
        if result.isSome || after.cycles = m.cycles then
          set { after with memo := (s, result) :: after.memo }
        return result

/-- Derivations go at most one deeper than there are complete stretches. -/
def depthBound : Nat :=
  x.sets.toList.foldl (fun n set => n + (set.completedPairs x.tables).length) 1

def deriveStretch (s : Stretch) : Extract (Option (List Subtree)) := x.derive x.depthBound [] s

def rootIdent : Ident := ⟨x.era, []⟩

/-- The symbol that the start symbol stands for. -/
def startRule : Symbol :=
  (((x.tables.productionsOf x.tables.start).head?.bind fun p => (x.tables.steps p).head?).map
    (·.symbol)).getD 0

def acceptedRoot : Extract (Option Subtree) := do
  match ← x.deriveStretch ⟨x.tables.start, 0, x.units.size⟩ with
  | none => return none
  | some [t] =>
    if t.isExtra then
      return some (.node x.rootIdent x.startRule x.startRule (x.span 0 x.units.size) [t])
    else return some ((t.setIdent x.rootIdent).setField none)
  | some entries =>
    return some (.node x.rootIdent x.startRule x.startRule (x.span 0 x.units.size) entries)

def unitLeaf : InputUnit → Extract Subtree
  | .reused t => return t.setField none
  | .token t => return .leaf (← x.freshIdent) t.symbol t.symbol (x.lines.span t.start t.stop)

section

variable (order : KeyOrder)

/-- The farthest place up to which a visible symbol derives units from `origin` on. Of several such
symbols the first in the order is taken. -/
def longestFrom (origin : Nat) : Option (Nat × Symbol) :=
  (List.range x.sets.size).reverse.findSome? fun j =>
    if j ≤ origin then none
    else
      ((order.arrange j ((x.setAt j).completedPairs x.tables)).find? fun (s, i) =>
        i == origin && x.tables.isVisible s).map fun (s, _) => (j, s)

/-- What can be recognised from `k` on: the longest constituents, and single units between them. -/
def fragments : Nat → Nat → Extract (List Subtree)
  | 0, _ => return []
  | fuel + 1, k => do
    match x.units[k]? with
    | none => return []
    | some unit =>
      let constituent ← match x.longestFrom order k with
        | none => pure none
        | some (stop, s) =>
          pure ((← x.materialize x.deriveStretch { symbol := s } k stop).map (stop, ·))
      match constituent with
      | some (stop, t :: ts) => return (t :: ts) ++ (← fragments fuel stop)
      | _ => return (← x.unitLeaf unit) :: (← fragments fuel (k + 1))

def errorRoot : Extract Subtree := do
  let children ← x.fragments order x.units.size 0
  return .node x.rootIdent errorSymbol errorSymbol (x.span 0 x.units.size) children

end

end Derivation

end EarleyTree
