import EarleyTree.Language.Basic
import EarleyTree.Tree.Subtree

/-!
Syntax trees: a subtree as the root, with the language that gives names to its kinds.
-/
namespace EarleyTree

open Text

structure Tree where
  language : Language
  root : Subtree

namespace Subtree

variable (l : Language)

def isNamed (t : Subtree) : Bool := l.isNamed t.kind

def kindName (t : Subtree) : String := (l.kindName? t.kind).getD "ERROR"

def fieldName? (t : Subtree) : Option String := t.field.bind l.fieldName?

/-- The kind between an opening parenthesis and the named children. -/
def sexpHead (t : Subtree) : List Char :=
  let kind := (t.kindName l).toList
  if t.isNamed l then '(' :: kind else '(' :: '"' :: kind.flatMap escapeAscii ++ ['"']

mutual

/-- Only named nodes are written, with what lies below them. -/
def sexp : Subtree → List Char
  | ⟨data, children⟩ => sexpHead l ⟨data, children⟩ ++ sexpAll children ++ [')']

def sexpAll : List Subtree → List Char
  | [] => []
  | t :: ts =>
    (if t.isNamed l then
      let field := match t.fieldName? l with
        | some name => name.toList ++ [':', ' ']
        | none => []
      ' ' :: field ++ t.sexp
    else []) ++ sexpAll ts

end

end Subtree

namespace Tree

/-- Moves the nodes for an edit of the text, and marks those that it touches. -/
def edit (e : Edit) (era : Nat) (t : Tree) : Tree := { t with root := t.root.edit e era [] }

def sexp (t : Tree) : String := String.ofList (t.root.sexp t.language)

def render (t : Tree) : String := "\x7bTree " ++ t.sexp ++ "\x7d"

end Tree

end EarleyTree
