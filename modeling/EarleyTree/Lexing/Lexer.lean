import EarleyTree.Language.Basic

/-!
Tokens on demand. Of the terminals that are welcome at a place the one with the longest match wins,
then a literal before a pattern, then the higher precedence, then the one defined first.
-/
namespace EarleyTree

open Text

structure Token where
  symbol : Symbol
  start : Nat
  stop : Nat
  afterExtra : Bool
  /-- For an extra, the visible rule that wraps it. -/
  wrapper : Option Symbol := none
  deriving DecidableEq, Repr

structure Candidate where
  symbol : Symbol
  length : Nat
  isString : Bool
  precedence : Int
  deriving DecidableEq, Repr

def Candidate.beats (a b : Candidate) : Bool :=
  if a.length ≠ b.length then b.length < a.length
  else if a.isString ≠ b.isString then a.isString
  else if a.precedence ≠ b.precedence then b.precedence < a.precedence
  else a.symbol < b.symbol

/-- What came before a token, and where the token may begin. -/
structure Leading where
  extras : List Token
  offset : Nat
  afterExtra : Bool
  deriving Repr

structure Lexer where
  tables : Tables
  scanner : Option Scanner
  text : List Char

/-- What the scanner saved with the last token it gave. -/
abbrev Saved := List UInt8

namespace Lexer

variable (lx : Lexer)

def candidate? (rest : List Char) (token : LexToken) : Option Candidate :=
  match token.regex.find? rest with
  | some (_, stop) =>
    if stop = 0 then none else some ⟨token.symbol, stop, token.isString, token.precedence⟩
  | none => none

def better (best : Option Candidate) (c : Candidate) : Option Candidate :=
  match best with
  | some b => if c.beats b then some c else some b
  | none => some c

def bestMatch (rest : List Char) (welcome : Symbol → Bool) : Option Candidate :=
  ((lx.tables.lexTokens.filter fun t => welcome t.symbol).filterMap (candidate? rest)).foldl
    better none

/-- Asks the scanner for a token at `position`. With `extrasOnly` it may only give extras. -/
def scanExternal (saved : Saved) (position : Nat) (welcome : Symbol → Bool) (extrasOnly : Bool) :
    Option (Token × Saved) := do
  let scanner ← lx.scanner
  let valid := lx.tables.externals.map fun s =>
    lx.tables.isExtra s || !extrasOnly && welcome s
  if !valid.any id then none
  let (cursor, saved) ← scanner.scan saved (.ofText lx.text position) valid
  let symbol ← lx.tables.externals[cursor.resultSymbol]?
  if cursor.tokenEnd ≤ cursor.tokenStart || !valid.getD cursor.resultSymbol false then none
  return ({
    symbol := symbol
    start := cursor.tokenStart
    stop := cursor.tokenEnd
    afterExtra := false
    wrapper := lx.tables.wrapper? symbol }, saved)

def skipLength (rest : List Char) : Nat :=
  (lx.tables.skip.filterMap fun r => (r.find? rest).map (·.2)).foldl max 0

/-- Passes over one piece of what may stand before a token; nothing if the token begins here. -/
def skipOne (saved : Saved) (position : Nat) (afterExtra : Bool) (welcome : Symbol → Bool) :
    Option (Option Token × Nat) × Saved :=
  match lx.scanExternal saved position welcome true with
  | some (token, saved) =>
    if token.wrapper.isSome || lx.tables.isExtra token.symbol then
      (some (some { token with afterExtra := true }, token.stop), saved)
    else (none, saved)
  | none =>
    match suffix? lx.text position with
    | none => (none, saved)
    | some rest =>
      let skip := lx.skipLength rest
      let extra := lx.bestMatch rest lx.tables.isExtra
      let wanted := ((lx.bestMatch rest welcome).map (·.length)).getD 0
      match extra with
      | some e =>
        if wanted < e.length ∧ skip ≤ e.length then
          let token : Token := {
            symbol := e.symbol
            start := position
            stop := position + e.length
            afterExtra := afterExtra
            wrapper := lx.tables.wrapper? e.symbol }
          (some (some token, token.stop), saved)
        else if wanted < skip then (some (none, position + skip), saved)
        else (none, saved)
      | none => if wanted < skip then (some (none, position + skip), saved) else (none, saved)

def skipFrom (welcome : Symbol → Bool) :
    Nat → Saved → Nat → Bool → Leading × Saved
  | 0, saved, position, afterExtra => (⟨[], position, afterExtra⟩, saved)
  | fuel + 1, saved, position, afterExtra =>
    if byteLength lx.text ≤ position then (⟨[], position, afterExtra⟩, saved)
    else
      match lx.skipOne saved position afterExtra welcome with
      | (none, saved) => (⟨[], position, afterExtra⟩, saved)
      | (some (token, next), saved) =>
        let (leading, saved) := skipFrom welcome fuel saved next true
        ({ leading with extras := token.toList ++ leading.extras }, saved)

/-- Passes over blanks and extras, but not where a welcome terminal matches at least as far. -/
def skipExtras (saved : Saved) (position : Nat) (welcome : Symbol → Bool) : Leading × Saved :=
  lx.skipFrom welcome (byteLength lx.text + 1) saved position false

/-- The keyword that takes the place of the word token, if it is welcome. -/
def keyword? (c : Candidate) (rest : List Char) (welcome : Symbol → Bool) : Option Symbol :=
  if lx.tables.word = some c.symbol then
    (lx.tables.keywords.lookup (String.ofList (takeBytes rest c.length))).filter welcome
  else none

/-- The token at `position`. If nothing is said to be expected, any terminal but an extra will do. -/
def token (saved : Saved) (position : Nat) (expected : Option (Symbol → Bool)) (afterExtra : Bool) :
    Option Token × Saved :=
  if byteLength lx.text ≤ position then (none, saved)
  else
    let accepts (s : Symbol) : Bool := expected.all (· s)
    let welcome (s : Symbol) : Bool := expected.elim (decide (s < lx.tables.symbols.size)) (· s)
    let (external, saved) :=
      match lx.scanExternal saved position welcome false with
      | some (token, saved) => (if accepts token.symbol then some token else none, saved)
      | none => (none, saved)
    match external with
    | some token => (some { token with afterExtra := afterExtra }, saved)
    | none =>
      let found : Option Token := do
        let rest ← suffix? lx.text position
        let best ← lx.bestMatch rest fun s =>
          accepts s && !(expected.isNone && lx.tables.isExtra s)
        return {
          symbol := (lx.keyword? best rest accepts).getD best.symbol
          start := position
          stop := position + best.length
          afterExtra := afterExtra }
      (found, saved)

/-- A single character that no terminal matches. -/
def errorToken (position : Nat) (afterExtra : Bool) : Option Token := do
  let rest ← suffix? lx.text position
  let c ← rest.head?
  return {
    symbol := errorSymbol
    start := position
    stop := position + c.utf8Size
    afterExtra := afterExtra }

end Lexer

/-- A token with its place in the text; the kind of an extra is that of the rule that wraps it. -/
structure LexedToken where
  kind : Symbol
  span : Span
  afterExtra : Bool
  isExtra : Bool
  deriving DecidableEq, Repr

def LexedToken.ofToken (lines : Lines) (isExtra : Bool) (t : Token) : LexedToken :=
  ⟨t.wrapper.getD t.symbol, lines.span t.start t.stop, t.afterExtra, isExtra⟩

def tokenizeFrom (lx : Lexer) (lines : Lines) : Nat → Saved → Nat → List LexedToken
  | 0, _, _ => []
  | fuel + 1, saved, position =>
    let (leading, saved) := lx.skipExtras saved position fun _ => false
    let extras := leading.extras.map (.ofToken lines true)
    let (token, saved) := lx.token saved leading.offset none leading.afterExtra
    match token.or (lx.errorToken leading.offset leading.afterExtra) with
    | none => extras
    | some token =>
      extras ++ .ofToken lines false { token with wrapper := none } ::
        tokenizeFrom lx lines fuel saved token.stop

/-- Splits a text into tokens without parsing it; all terminals compete everywhere. -/
def tokenize (l : Language) (text : List Char) : List LexedToken :=
  let lx : Lexer := ⟨l.tables, l.scanner, text⟩
  tokenizeFrom lx (.ofText text) (byteLength text + 1) [] 0

end EarleyTree
