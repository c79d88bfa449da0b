import EarleyTree.Lexing.Scanner
import EarleyTree.Text.CodeRange

/-!
Block comments of Candid. They nest, and a line comment inside hides what stands in its line.
-/
namespace EarleyTree.Candid.BlockComment

/-- How the body of a comment ended: the depth then, and what follows. -/
structure Ending where
  closed : Bool
  depth : Nat
  rest : List Char
  deriving Repr, DecidableEq

/-- Reads on inside `depth` open comments, and in a line comment if `inLine`. -/
def readBody : Bool → Nat → List Char → Ending
  | true, depth, '\r' :: '\n' :: cs => readBody false depth cs
  | true, depth, c :: cs => readBody (c != '\n' && c != '\r') depth cs
  | false, depth, '/' :: '*' :: cs => readBody false (depth + 1) cs
  | false, depth, '/' :: '/' :: cs => readBody true depth cs
  | false, depth, '*' :: '/' :: cs =>
    if depth ≤ 1 then ⟨true, 0, cs⟩ else readBody false (depth - 1) cs
  | false, depth, _ :: cs => readBody false depth cs
  | _, depth, [] => ⟨false, depth, []⟩

/-- Scans for a comment behind leading blanks. The depth is that of the last scan that found the
beginning of a comment. -/
def scan (depth : Nat) (cursor : ScanCursor) (valid : List Bool) : Bool × ScanCursor × Nat :=
  if valid.head? != some true then (false, cursor, depth)
  else
    let cursor := ScanCursor.advanceTimes (cursor.rest.takeWhile Text.isBlank).length true cursor
    match cursor.rest with
    | '/' :: '*' :: body =>
      let ending := readBody false 1 body
      let cursor :=
        (ScanCursor.advanceTimes (cursor.rest.length - ending.rest.length) false cursor).markEnd
      if ending.closed then (true, cursor.setResult 0, ending.depth)
      else (false, cursor, ending.depth)
    | '/' :: _ => (false, cursor.advance false, depth)
    | _ => (false, cursor, depth)

/-- Four bytes, the lowest first. -/
def save (depth : Nat) : List UInt8 :=
  [depth, depth / 256, depth / 65536, depth / 16777216].map Nat.toUInt8

def restore : List UInt8 → Nat
  | [a, b, c, d] => a.toNat + b.toNat * 256 + c.toNat * 65536 + d.toNat * 16777216
  | _ => 0

def scanner : Scanner := .ofMachine restore save scan

end EarleyTree.Candid.BlockComment
