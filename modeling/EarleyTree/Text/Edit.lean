import EarleyTree.Text.Position

/-!
A replacement in a text, and where places of the old text lie in the new one.
-/
namespace EarleyTree.Text

structure Edit where
  startByte : Nat
  oldEndByte : Nat
  newEndByte : Nat
  startPoint : Point
  oldEndPoint : Point
  newEndPoint : Point
  deriving DecidableEq, Repr

/-- The text with `inserted` in place of the bytes from `start` to `oldEnd`. -/
def splice (text : List Char) (start oldEnd : Nat) (inserted : List Char) : List Char :=
  takeBytes text start ++ inserted ++ (suffix? text oldEnd).getD []

namespace Edit

/-- The edit that puts `inserted` in place of the bytes from `start` to `oldEnd`, which must be the
bounds of a piece of the text. -/
def replace? (text : List Char) (start oldEnd : Nat) (inserted : List Char) : Option Edit :=
  if start ≤ oldEnd ∧ isBoundary text start ∧ isBoundary text oldEnd then
    let lines := Lines.ofText text
    some
      { startByte := start
        oldEndByte := oldEnd
        newEndByte := start + byteLength inserted
        startPoint := lines.point start
        oldEndPoint := lines.point oldEnd
        newEndPoint := (lines.point start).advance inserted }
  else none

variable (e : Edit)

/-- Places inside the replaced text move to the end of what replaces it, if they lie behind that. -/
def shiftByte (n : Nat) : Nat :=
  if e.oldEndByte ≤ n then n - e.oldEndByte + e.newEndByte
  else if e.startByte < n then min n e.newEndByte
  else n

def shiftPoint (p : Point) : Point :=
  if e.oldEndPoint ≤ p then
    if p.row = e.oldEndPoint.row then
      ⟨e.newEndPoint.row, p.column - e.oldEndPoint.column + e.newEndPoint.column⟩
    else ⟨p.row - e.oldEndPoint.row + e.newEndPoint.row, p.column⟩
  else if e.startPoint < p then min p e.newEndPoint
  else p

def shiftSpan (s : Span) : Span :=
  ⟨e.shiftByte s.startByte, e.shiftByte s.endByte, e.shiftPoint s.startPoint,
    e.shiftPoint s.endPoint⟩

end Edit

end EarleyTree.Text
