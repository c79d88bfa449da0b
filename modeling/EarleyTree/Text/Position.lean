/-!
Places in a text: byte offsets of its UTF-8 form, and rows with byte columns.
-/
namespace EarleyTree.Text

/-- The number of bytes a text takes in UTF-8. -/
def byteLength : List Char → Nat
  | [] => 0
  | c :: text => c.utf8Size + byteLength text

/-- What follows byte `n`, unless that byte is inside a character or behind the end. -/
def suffix? : List Char → Nat → Option (List Char)
  | text, 0 => some text
  | [], _ + 1 => none
  | c :: text, n + 1 => if c.utf8Size ≤ n + 1 then suffix? text (n + 1 - c.utf8Size) else none

def takeBytes : List Char → Nat → List Char
  | _, 0 => []
  | [], _ + 1 => []
  | c :: text, n + 1 => if c.utf8Size ≤ n + 1 then c :: takeBytes text (n + 1 - c.utf8Size) else []

def isBoundary (text : List Char) (n : Nat) : Bool := (suffix? text n).isSome

structure Point where
  row : Nat
  column : Nat
  deriving DecidableEq, Repr, Inhabited

namespace Point

def zero : Point := ⟨0, 0⟩

instance : LT Point := ⟨fun p q => p.row < q.row ∨ p.row = q.row ∧ p.column < q.column⟩

instance : LE Point := ⟨fun p q => p.row < q.row ∨ p.row = q.row ∧ p.column ≤ q.column⟩

instance (p q : Point) : Decidable (p < q) :=
  inferInstanceAs (Decidable (p.row < q.row ∨ p.row = q.row ∧ p.column < q.column))

instance (p q : Point) : Decidable (p ≤ q) :=
  inferInstanceAs (Decidable (p.row < q.row ∨ p.row = q.row ∧ p.column ≤ q.column))

instance : Min Point := ⟨fun p q => if p ≤ q then p else q⟩

/-- Where a text that begins at `p` ends. -/
def advance (p : Point) (text : List Char) : Point :=
  text.foldl (fun p c => if c == '\n' then ⟨p.row + 1, 0⟩ else ⟨p.row, p.column + c.utf8Size⟩) p

def render (p : Point) : String := s!"({p.row}, {p.column})"

end Point

structure Span where
  startByte : Nat
  endByte : Nat
  startPoint : Point
  endPoint : Point
  deriving DecidableEq, Repr, Inhabited

def Span.zero : Span := ⟨0, 0, .zero, .zero⟩

/-- Where the lines after the first begin, in ascending order. -/
structure Lines where
  starts : List Nat

namespace Lines

def startsFrom : Nat → List Char → List Nat
  | _, [] => []
  | n, c :: text =>
    if c == '\n' then (n + 1) :: startsFrom (n + 1) text else startsFrom (n + c.utf8Size) text

def ofText (text : List Char) : Lines := ⟨startsFrom 0 text⟩

def pointFrom (byte : Nat) : Nat → Nat → List Nat → Point
  | row, start, [] => ⟨row, byte - start⟩
  | row, start, next :: starts =>
    if next ≤ byte then pointFrom byte (row + 1) next starts else ⟨row, byte - start⟩

/-- The row is that of the last line that begins at or before the byte. -/
def point (lines : Lines) (byte : Nat) : Point := pointFrom byte 0 0 lines.starts

def span (lines : Lines) (start stop : Nat) : Span :=
  ⟨start, stop, lines.point start, lines.point stop⟩

end Lines

end EarleyTree.Text
