import EarleyTree.Tree.Basic

/-!
The ranges in which the leaves of two trees differ.
-/
namespace EarleyTree

open Text

namespace Subtree

/-- An untouched leaf that is in the other tree too. -/
def agrees (old new : Subtree) : Bool :=
  old.kind == new.kind && old.start == new.start && old.stop == new.stop && !old.hasChanges

/-- Walks along both rows of leaves and lists the spans of those that do not agree. -/
def differences : Nat → List Subtree → List Subtree → List Span
  | 0, _, _ => []
  | _ + 1, [], new => new.map (·.span)
  | _ + 1, old, [] => old.map (·.span)
  | fuel + 1, a :: old, b :: new =>
    if a.agrees b then differences fuel old new
    else if a.stop ≤ b.start then a.span :: differences fuel old (b :: new)
    else if b.stop ≤ a.start then b.span :: differences fuel (a :: old) new
    else b.span :: differences fuel old new

end Subtree

/-- Adds a span to ranges in reverse order; what does not begin behind the last range is joined to
it. -/
def joinSpan (ranges : List Span) (s : Span) : List Span :=
  match ranges with
  | last :: before =>
    if s.startByte ≤ last.endByte then
      if last.endByte < s.endByte then
        { last with endByte := s.endByte, endPoint := s.endPoint } :: before
      else last :: before
    else s :: last :: before
  | [] => [s]

/-- Where the new tree differs from an old one that was edited to match its text. -/
def Tree.changedRanges (old new : Tree) : List Span :=
  let a := old.root.leaves
  let b := new.root.leaves
  ((Subtree.differences (a.length + b.length) a b).foldl joinSpan []).reverse

end EarleyTree
