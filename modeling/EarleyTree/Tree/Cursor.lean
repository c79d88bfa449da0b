import EarleyTree.Tree.Node

/-!
Cursors walk over the nodes at and below the one that they start from.
-/
namespace EarleyTree

structure Cursor where
  node : Node
  depth : Nat

def Node.walk (n : Node) : Cursor := ⟨n, 0⟩

namespace Cursor

variable (c : Cursor)

def fieldName? : Option String := c.node.fieldName?

def firstChild? : Option Cursor := (c.node.child? 0).map (⟨·, c.depth + 1⟩)

/-- The starting node has no siblings here. -/
def nextSibling? : Option Cursor :=
  if c.depth = 0 then none else c.node.nextSibling?.map (⟨·, c.depth⟩)

def parent? : Option Cursor :=
  if c.depth = 0 then none else c.node.parent?.map (⟨·, c.depth - 1⟩)

end Cursor

end EarleyTree
