import EarleyTree.Pattern.CharSet

/-!
Regular expressions with priorities: of two alternatives the left one is preferred, and a repetition
prefers more rounds or, if it is lazy, fewer.
-/
namespace EarleyTree.Pattern

/-- A condition on the characters around a place in the text. -/
inductive Boundary
  | textStart
  | textEnd
  | lineStart (crlf : Bool)
  | lineEnd (crlf : Bool)
  | word (ascii : Bool)
  | notWord (ascii : Bool)
  | wordStart (ascii : Bool)
  | wordEnd (ascii : Bool)
  | wordStartHalf (ascii : Bool)
  | wordEndHalf (ascii : Bool)
  deriving DecidableEq, Repr

def isAsciiWord (c : Char) : Bool := c.isAlphanum || c == '_'

def isWordAt (ascii : Bool) (c : Option Char) : Bool :=
  c.any fun c => if ascii then isAsciiWord c else isWord c

def Boundary.holds (b : Boundary) (before after : Option Char) : Bool :=
  match b with
  | textStart => before.isNone
  | textEnd => after.isNone
  | lineStart false => before.isNone || before == some '\n'
  | lineStart true =>
    before.isNone || before == some '\n' || before == some '\r' && after != some '\n'
  | lineEnd false => after.isNone || after == some '\n'
  | lineEnd true =>
    after.isNone || after == some '\r' || after == some '\n' && before != some '\r'
  | word ascii => isWordAt ascii before != isWordAt ascii after
  | notWord ascii => isWordAt ascii before == isWordAt ascii after
  | wordStart ascii => !isWordAt ascii before && isWordAt ascii after
  | wordEnd ascii => isWordAt ascii before && !isWordAt ascii after
  | wordStartHalf ascii => !isWordAt ascii before
  | wordEndHalf ascii => !isWordAt ascii after

inductive Regex
  | empty
  | set (s : CharSet)
  | test (b : Boundary)
  | cat (a b : Regex)
  | alt (a b : Regex)
  /-- At least `min` rounds of `r`, and at most `max` if there is a limit. -/
  | rep (min : Nat) (max : Option Nat) (greedy : Bool) (r : Regex)
  deriving DecidableEq, Repr

namespace Regex

def char (c : Char) : Regex := set (.char c)

/-- The members of a sequence, of which a single one stands for itself. -/
def catAll : List Regex → Regex
  | [] => empty
  | [r] => r
  | r :: rs => cat r (catAll rs)

def altAll : List Regex → Regex
  | [] => empty
  | [r] => r
  | r :: rs => alt r (altAll rs)

/-- No match of the expression can begin behind the start of the text. -/
def anchored : Regex → Bool
  | test .textStart => true
  | cat a _ => a.anchored
  | alt a b => a.anchored && b.anchored
  | _ => false

/-- The number of places inside the expression where a match can stand, with every counted
repetition written out. -/
def places : Regex → Nat
  | empty | set _ | test _ => 1
  | cat a b | alt a b => a.places + b.places + 1
  | rep min none _ r => (min + 1) * (r.places + 1) + 1
  | rep min (some max) _ r => (min + max) * (r.places + 1) + 1

end Regex

end EarleyTree.Pattern
