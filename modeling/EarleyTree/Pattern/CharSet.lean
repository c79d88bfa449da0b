import EarleyTree.Pattern.CaseFolding
import EarleyTree.Pattern.WordTables
import EarleyTree.Text.Category
import EarleyTree.Text.CodeRange

namespace EarleyTree.Pattern

/-- A set of characters as a pattern writes it down. -/
inductive CharSet
  | none
  | range (lo hi : Nat)
  | digit
  | blank
  | word
  | alphabetic
  | category (c : Text.Category)
  | union (a b : CharSet)
  | inter (a b : CharSet)
  | diff (a b : CharSet)
  | symmDiff (a b : CharSet)
  | compl (a : CharSet)
  /-- Everything that differs at most in case from a member of the set. -/
  | caseClosed (a : CharSet)
  /-- The same for the ASCII letters alone. -/
  | asciiCaseClosed (a : CharSet)
  deriving DecidableEq, Repr

namespace CharSet

def char (c : Char) : CharSet := range c.toNat c.toNat

def ofRanges (ranges : List (Nat × Nat)) : CharSet :=
  ranges.foldr (fun (lo, hi) s => union (range lo hi) s) none

def asciiCaseVariants (n : Nat) : List Nat :=
  if 65 ≤ n ∧ n ≤ 90 then [n, n + 32] else if 97 ≤ n ∧ n ≤ 122 then [n, n - 32] else [n]

def has : CharSet → Nat → Bool
  | none, _ => false
  | range lo hi, n => lo ≤ n && n ≤ hi
  | digit, n => digitRanges.contains n
  | blank, n => Text.blankRanges.contains n
  | word, n => alphabeticRanges.contains n || digitRanges.contains n || wordMarkRanges.contains n
  | alphabetic, n => alphabeticRanges.contains n
  | category c, n => Text.categoryOf n == c
  | union a b, n => a.has n || b.has n
  | inter a b, n => a.has n && b.has n
  | diff a b, n => a.has n && !b.has n
  | symmDiff a b, n => a.has n != b.has n
  | compl a, n => !a.has n
  | caseClosed a, n => (caseVariants n).any a.has
  | asciiCaseClosed a, n => (asciiCaseVariants n).any a.has

def contains (s : CharSet) (c : Char) : Bool := s.has c.toNat

end CharSet

end EarleyTree.Pattern
