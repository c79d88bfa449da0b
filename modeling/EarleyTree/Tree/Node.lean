import EarleyTree.Text.Utf8
import EarleyTree.Tree.Basic

/-!
Nodes: subtrees with their place in a tree, from which parents and siblings are found.
-/
namespace EarleyTree

open Text

structure Node where
  language : Language
  subtree : Subtree
  /-- The subtrees around it, the nearest first, and which of their children leads here. -/
  ancestors : List (Subtree × Nat)

def Tree.rootNode (t : Tree) : Node := ⟨t.language, t.root, []⟩

namespace Node

variable (n : Node)

def kindName : String := n.subtree.kindName n.language

def isNamed : Bool := n.subtree.isNamed n.language

def childCount : Nat := n.subtree.children.length

def below (t : Subtree) (i : Nat) : Node := ⟨n.language, t, (n.subtree, i) :: n.ancestors⟩

def child? (i : Nat) : Option Node := n.subtree.children[i]?.map (n.below · i)

def children : List Node := n.subtree.children.mapIdx fun i t => n.below t i

def namedChildren : List Node := n.children.filter isNamed

def childrenByField (name : String) : List Node :=
  match n.language.fieldId? name with
  | none => []
  | some id => n.children.filter (·.subtree.field == some id)

def childByField? (name : String) : Option Node := (n.childrenByField name).head?

def fieldNameOfChild? (i : Nat) : Option String :=
  n.subtree.children[i]?.bind (·.fieldName? n.language)

/-- The node that child indexes lead to. -/
def descend? : Node → List Nat → Option Node
  | n, [] => some n
  | n, i :: path => (n.child? i).bind (·.descend? path)

def index? : Option Nat := n.ancestors.head?.map (·.2)

def parent? : Option Node :=
  match n.ancestors with
  | [] => none
  | (t, _) :: ancestors => some ⟨n.language, t, ancestors⟩

def following : List Node :=
  match n.parent?, n.index? with
  | some parent, some i => parent.children.drop (i + 1)
  | _, _ => []

/-- The siblings before the node, the nearest first. -/
def preceding : List Node :=
  match n.parent?, n.index? with
  | some parent, some i => (parent.children.take i).reverse
  | _, _ => []

def nextSibling? : Option Node := n.following.head?

def prevSibling? : Option Node := n.preceding.head?

def nextNamedSibling? : Option Node := n.following.find? isNamed

def prevNamedSibling? : Option Node := n.preceding.find? isNamed

def fieldName? : Option String :=
  match n.parent?, n.index? with
  | some parent, some i => parent.fieldNameOfChild? i
  | _, _ => none

def spans (start stop : Nat) (t : Subtree) : Bool := t.start ≤ start && stop ≤ t.stop

mutual

/-- Goes down from `t` as long as some child spans the range; the result lists the subtrees on the
way, the last one first. -/
def narrow (start stop : Nat) (above : List (Subtree × Nat)) :
    Subtree → Subtree × List (Subtree × Nat)
  | ⟨data, children⟩ =>
    (narrowAmong start stop ⟨data, children⟩ above 0 children).getD (⟨data, children⟩, above)

def narrowAmong (start stop : Nat) (parent : Subtree) (above : List (Subtree × Nat)) :
    Nat → List Subtree → Option (Subtree × List (Subtree × Nat))
  | _, [] => none
  | i, t :: ts =>
    if spans start stop t then some (narrow start stop ((parent, i) :: above) t)
    else narrowAmong start stop parent above (i + 1) ts

end

/-- The deepest node around a range of bytes that is reached through the first children that span
it. -/
def descendantForByteRange? (start stop : Nat) : Option Node :=
  if spans start stop n.subtree then
    let (t, ancestors) := narrow start stop n.ancestors n.subtree
    some ⟨n.language, t, ancestors⟩
  else none

/-- The text of the node in the given bytes, as far as they reach; an error is the offset, counted
from the start of the node, at which the bytes are no text. -/
def text (source : List Nat) : Except Nat (List Char) :=
  let stop := min n.subtree.stop source.length
  let start := min n.subtree.start stop
  Utf8.decode ((source.drop start).take (stop - start))

def sexp : String := String.ofList (n.subtree.sexp n.language)

def render : String :=
  let span := n.subtree.span
  "\x7bNode " ++ s!"{n.kindName} {span.startPoint.render} - {span.endPoint.render}" ++ "\x7d"

/-- Two nodes are the same if they share a subtree at equal depth. -/
def isSame (m : Node) : Bool :=
  n.subtree.ident == m.subtree.ident && n.ancestors.length == m.ancestors.length

end Node

end EarleyTree
