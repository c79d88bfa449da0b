import EarleyTree.Language.Tables
import EarleyTree.Text.Edit

/-!
Syntax trees as data. A subtree bears the label of the field that it fills in its parent.
-/
namespace EarleyTree

open Text

/-- The identity of a node. Nodes made at different times differ in their era, those made at the
same time in their trail; trees share a node if they hold the same identity. -/
structure Ident where
  era : Nat
  trail : List Nat
  deriving DecidableEq, Repr

structure NodeData where
  ident : Ident
  /-- The grammar symbol that the node was derived from. -/
  symbol : Symbol
  /-- What the node is shown as: the symbol, unless the node was renamed. -/
  kind : Symbol
  span : Span
  field : Option FieldId := none
  isExtra : Bool := false
  hasError : Bool
  hasChanges : Bool := false
  deriving DecidableEq, Repr

structure Subtree where
  data : NodeData
  children : List Subtree
  deriving Repr

namespace Subtree

abbrev ident (t : Subtree) : Ident := t.data.ident
abbrev symbol (t : Subtree) : Symbol := t.data.symbol
abbrev kind (t : Subtree) : Symbol := t.data.kind
abbrev span (t : Subtree) : Span := t.data.span
abbrev field (t : Subtree) : Option FieldId := t.data.field
abbrev isExtra (t : Subtree) : Bool := t.data.isExtra
abbrev hasError (t : Subtree) : Bool := t.data.hasError
abbrev hasChanges (t : Subtree) : Bool := t.data.hasChanges
abbrev start (t : Subtree) : Nat := t.data.span.startByte
abbrev stop (t : Subtree) : Nat := t.data.span.endByte

def leaf (ident : Ident) (symbol kind : Symbol) (span : Span) : Subtree :=
  ⟨{ ident, symbol, kind, span, hasError := symbol == errorSymbol }, []⟩

def node (ident : Ident) (symbol kind : Symbol) (span : Span) (children : List Subtree) : Subtree :=
  ⟨{ ident, symbol, kind, span, hasError := symbol == errorSymbol || children.any (·.hasError) },
    children⟩

def setField (field : Option FieldId) (t : Subtree) : Subtree :=
  { t with data := { t.data with field := field } }

def setIdent (ident : Ident) (t : Subtree) : Subtree :=
  { t with data := { t.data with ident := ident } }

/-- Labels a subtree that has no label yet. -/
def label (field : Option FieldId) (t : Subtree) : Subtree := t.setField (t.field.or field)

/-- The subtree may take in a node between its children. -/
def encloses (t floating : Subtree) : Bool :=
  !t.children.isEmpty && !t.isExtra && t.start < floating.start && floating.stop < t.stop

def insertAmong (floating : Subtree) (children : List Subtree) : List Subtree :=
  children.takeWhile (·.start < floating.start) ++
    floating :: children.dropWhile (·.start < floating.start)

mutual

/-- Puts a node that no production accounts for, an extra or an error, into the deepest subtree that
encloses it. The subtrees on the way down become new ones. -/
def insertFloating (floating : Subtree) (era : Nat) (trail : List Nat) : Subtree → Subtree
  | ⟨data, children⟩ =>
    ⟨{ data with hasError := data.hasError || floating.hasError },
      (insertInside floating era trail children).getD (insertAmong floating children)⟩

def insertInside (floating : Subtree) (era : Nat) (trail : List Nat) :
    List Subtree → Option (List Subtree)
  | [] => none
  | t :: ts =>
    if t.encloses floating then
      some ((insertFloating floating era (0 :: trail) t).setIdent ⟨era, trail⟩ :: ts)
    else (insertInside floating era trail ts).map (t :: ·)

end

/-- Widens the span to the first and the last child. -/
def coverChildren (t : Subtree) : Subtree :=
  let s := t.span
  let s := match t.children.head? with
    | some first =>
      if first.start < s.startByte ∨ s = .zero then
        { s with startByte := first.start, startPoint := first.span.startPoint }
      else s
    | none => s
  let s := match t.children.getLast? with
    | some last =>
      if s.endByte < last.stop then
        { s with endByte := last.stop, endPoint := last.span.endPoint }
      else s
    | none => s
  { t with data := { t.data with span := s } }

/-- An edit touches what it reaches, ends included. -/
def NodeData.edit (e : Edit) (ident : Ident) (data : NodeData) : NodeData :=
  { data with
    ident := ident
    span := e.shiftSpan data.span
    hasChanges := data.hasChanges || data.span.startByte ≤ e.oldEndByte }

mutual

/-- Moves the nodes that end at or behind the start of the edit; the others stay as they are. -/
def edit (e : Edit) (era : Nat) (trail : List Nat) : Subtree → Subtree
  | ⟨data, children⟩ =>
    if data.span.endByte < e.startByte then ⟨data, children⟩
    else ⟨NodeData.edit e ⟨era, trail⟩ data, editAll e era trail 0 children⟩

def editAll (e : Edit) (era : Nat) (trail : List Nat) : Nat → List Subtree → List Subtree
  | _, [] => []
  | i, t :: ts => t.edit e era (i :: trail) :: editAll e era trail (i + 1) ts

end

mutual

def leaves : Subtree → List Subtree
  | t@⟨_, children⟩ => if children.isEmpty then [t] else leavesAll children

def leavesAll : List Subtree → List Subtree
  | [] => []
  | t :: ts => t.leaves ++ leavesAll ts

end

mutual

/-- The error nodes that are in no other, from left to right. -/
def outermostErrors : Subtree → List Subtree
  | t@⟨data, children⟩ =>
    if data.kind = errorSymbol then [t]
    else if data.hasError then outermostErrorsAll children
    else []

def outermostErrorsAll : List Subtree → List Subtree
  | [] => []
  | t :: ts => t.outermostErrors ++ outermostErrorsAll ts

end

end Subtree

end EarleyTree
