import EarleyTree.Text.Position

/-!
Hand-written scanners for tokens that no pattern describes, and the view of the text they work on.
-/
namespace EarleyTree

open Text

structure ScanCursor where
  /-- The characters not yet passed; none where the position is no place in the text. -/
  rest : List Char
  length : Nat
  position : Nat
  tokenStart : Nat
  markedEnd : Option Nat
  resultSymbol : Nat
  deriving Repr

namespace ScanCursor

def ofText (text : List Char) (position : Nat) : ScanCursor where
  rest := (suffix? text position).getD []
  length := byteLength text
  position := position
  tokenStart := position
  markedEnd := none
  resultSymbol := 0

variable (c : ScanCursor)

def lookahead : Option Char := c.rest.head?

/-- Passes the next character; a skipped one does not belong to the token. -/
def advance (skip : Bool) : ScanCursor :=
  let next := match c.rest with
    | [] => c
    | ch :: rest => { c with rest := rest, position := c.position + ch.utf8Size }
  if skip then { next with tokenStart := next.position } else next

def advanceTimes : Nat → Bool → ScanCursor → ScanCursor
  | 0, _, c => c
  | n + 1, skip, c => advanceTimes n skip (c.advance skip)

def markEnd : ScanCursor := { c with markedEnd := some c.position }

def setResult (index : Nat) : ScanCursor := { c with resultSymbol := index }

def isAtEnd : Bool := c.length ≤ c.position

/-- The token ends at the mark, or else where the cursor stands. -/
def tokenEnd : Nat := c.markedEnd.getD c.position

end ScanCursor

/-- A scanner is given the state it saved with its last token, empty at first, a cursor, and which
external symbols are welcome. If it finds a token it returns the moved cursor and its new state. -/
structure Scanner where
  scan : List UInt8 → ScanCursor → List Bool → Option (ScanCursor × List UInt8)

/-- A scanner given by a machine that can save and restore its state. -/
def Scanner.ofMachine {σ : Type} (restore : List UInt8 → σ) (save : σ → List UInt8)
    (scan : σ → ScanCursor → List Bool → Bool × ScanCursor × σ) : Scanner where
  scan saved cursor valid :=
    match scan (restore saved) cursor valid with
    | (true, cursor, state) => some (cursor, save state)
    | (false, _, _) => none

end EarleyTree
