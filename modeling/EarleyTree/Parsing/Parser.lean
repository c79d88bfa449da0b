import EarleyTree.Parsing.Derivation
import EarleyTree.Text.Utf8
import EarleyTree.Tree.Basic

/-!
Parsing: tokens are read as the chart asks for them, unchanged subtrees of an earlier tree are taken
over whole, and what fits nowhere is set aside as an error.
-/
namespace EarleyTree

open Text

inductive ParseError
  | noLanguage
  | cancelled
  | invalidUtf8 (validUpTo : Nat)
  deriving DecidableEq, Repr

def ParseError.message : ParseError → String
  | noLanguage => "no language has been set"
  | cancelled => "parsing was cancelled"
  | invalidUtf8 n => s!"input is not valid UTF-8 (at byte {n})"

namespace Subtree

def isReusable (t : Tables) (s : Subtree) : Bool :=
  !s.hasChanges && !s.hasError && !s.isExtra && !s.children.isEmpty &&
    t.symbols[s.symbol]?.any (·.kind == .nonterminal)

mutual

/-- The outermost reusable subtrees, from left to right. -/
def reusable (t : Tables) : Subtree → List Subtree
  | s@⟨_, children⟩ => if s.isReusable t then [s] else reusableAll t children

def reusableAll (t : Tables) : List Subtree → List Subtree
  | [] => []
  | s :: ss => s.reusable t ++ reusableAll t ss

end

end Subtree

structure ParseInput where
  language : Language
  text : List Char
  reusable : List Subtree
  era : Nat

namespace ParseInput

variable (p : ParseInput)

def tables : Tables := p.language.tables

def lexer : Lexer := ⟨p.tables, p.language.scanner, p.text⟩

def lines : Lines := .ofText p.text

end ParseInput

structure ParseState where
  saved : Saved
  chart : Chart
  units : Array InputUnit
  /-- Extras and errors, which belong to no derivation. -/
  floating : Array Subtree
  /-- Tokens that did not fit, since the last one that did. -/
  skipped : Array Token
  position : Nat

namespace ParseState

variable (p : ParseInput) (st : ParseState)

def initial : ParseState := ⟨[], .initial p.tables, #[], #[], #[], 0⟩

def tokenLeaf (trail : List Nat) (t : Token) : Subtree :=
  .leaf ⟨p.era, trail⟩ t.symbol t.symbol (p.lines.span t.start t.stop)

def pushExtra (t : Token) : ParseState :=
  let kind := t.wrapper.getD t.symbol
  let node := Subtree.leaf ⟨p.era, [st.floating.size, 1]⟩ kind kind (p.lines.span t.start t.stop)
  { st with floating := st.floating.push { node with data := { node.data with isExtra := true } } }

/-- Wraps the skipped tokens into one error node. -/
def flushSkipped : ParseState :=
  match st.skipped[0]?, st.skipped.back? with
  | some first, some last =>
    let n := st.floating.size
    let leaves := st.skipped.toList.mapIdx fun i t => tokenLeaf p [i, n, 1] t
    let node := Subtree.node ⟨p.era, [n, 1]⟩ errorSymbol errorSymbol
      (p.lines.span first.start last.stop) leaves
    { st with floating := st.floating.push node, skipped := #[] }
  | _, _ => st

def push (chart : Chart) (unit : InputUnit) : ParseState :=
  let st := st.flushSkipped p
  { st with chart := chart, units := st.units.push unit, position := unit.stop }

def skip (t : Token) : ParseState := { st with skipped := st.skipped.push t, position := t.stop }

/-- The subtrees that might be taken over at the next token, and the state of the scanner then. -/
def candidates : List Subtree × Saved :=
  if p.reusable.isEmpty then ([], st.saved)
  else
    let (leading, saved) := p.lexer.skipExtras st.saved st.position fun _ => false
    (p.reusable.filter (·.start == leading.offset), saved)

/-- The candidate that stands here and that the chart waits for, with the chart behind it. -/
def reuse? (candidates : List Subtree) : Option (Subtree × Chart) :=
  let waiting := st.chart.current.expectedNonterminals p.tables
  (candidates.find? fun t => t.start == st.position && waiting.contains t.symbol).bind fun t =>
    (st.chart.scan? p.tables t.symbol false).map (t, ·)

/-- The token here: one that the chart expects, or else any, or else a single character. -/
def nextToken (afterExtra : Bool) : Option Token × Saved :=
  let expected := st.chart.current.expectedTerminals p.tables
  let (token, saved) := p.lexer.token st.saved st.position (some expected.contains) afterExtra
  match token with
  | some token => (some token, saved)
  | none =>
    let (token, saved) := p.lexer.token saved st.position none afterExtra
    (token.or (p.lexer.errorToken st.position afterExtra), saved)

def passExtras (expected : List Symbol) : ParseState × Bool :=
  let (leading, saved) := p.lexer.skipExtras st.saved st.position expected.contains
  let st := leading.extras.foldl (pushExtra p) { st with saved := saved }
  ({ st with position := leading.offset }, leading.afterExtra)

def shift (t : Token) : ParseState :=
  match if t.symbol = errorSymbol then none else st.chart.scan? p.tables t.symbol t.afterExtra with
  | some chart => st.push p chart (.token t)
  | none => st.skip t

inductive Progress
  | more (st : ParseState)
  | finished (st : ParseState)

/-- Goes on by one input unit or one skipped token. -/
def step : Progress :=
  let (candidates, saved) := st.candidates p
  let suppressed := candidates.map (·.symbol)
  let st := { st with saved := saved, chart := st.chart.close p.tables suppressed }
  let (st, afterExtra) := st.passExtras p (st.chart.current.expectedTerminals p.tables)
  match st.reuse? p candidates with
  | some (t, chart) => .more (st.push p chart (.reused t))
  | none =>
    let st :=
      if suppressed.isEmpty then st else { st with chart := st.chart.close p.tables [] }
    let (token, saved) := st.nextToken p afterExtra
    let st := { st with saved := saved }
    match token with
    | some token => .more (st.shift p token)
    | none => .finished (st.flushSkipped p)

/-- Goes on to the end of the text. Where subtrees without text can be taken over again and again
there is no end, and no result. -/
def run (st : ParseState) : Option ParseState :=
  match st.step p with
  | .more st => st |>.run
  | .finished st => some st
partial_fixpoint

def derivation : Derivation := ⟨p.tables, st.chart.sets, st.units, p.lines, p.era⟩

def finish (root : Subtree) : Subtree :=
  (st.floating.toList.zipIdx.foldl (fun root (t, n) => Subtree.insertFloating t p.era [n, 2] root)
    root).coverChildren

def acceptedRoot? : Option (Option Subtree × Memory) :=
  if st.chart.accepts p.tables then (st.derivation p).acceptedRoot.run {} else some (none, {})

/-- The tree of a derivation of the whole text, if there is one. -/
def accepted? : Option Subtree := do
  let (root, _) ← st.acceptedRoot? p
  root.map (st.finish p)

/-- The tree of the text; where the grammar does not derive it, the root is an error node. -/
def tree (order : KeyOrder) : Subtree :=
  let (root, memory) := (st.acceptedRoot? p).getD (none, {})
  match root with
  | some root => st.finish p root
  | none =>
    let d := st.derivation p
    match (d.errorRoot order).run memory with
    | some (root, _) => st.finish p root
    | none => .node d.rootIdent errorSymbol errorSymbol (d.span 0 0) []

end ParseState

namespace ParseInput

variable (p : ParseInput)

/-- The state at the end of the text, if it is come to. -/
def final? : Option ParseState := (ParseState.initial p).run p

def accepted? : Option Subtree := p.final?.bind (·.accepted? p)

def tree (order : KeyOrder) : Subtree := (p.final?.getD (.initial p)).tree p order

end ParseInput

/-- Parses a text. Subtrees that no edit touched are taken over from the old tree, if it is of the
same language; if that leads to no derivation, the text is parsed afresh. The order decides between
constituents of an error root that go equally far. Where the loop has no end there is no tree, and the
value that stands here for it says nothing. -/
def Language.parse (l : Language) (text : List Char) (old : Option Tree) (era : Nat)
    (order : KeyOrder := .entered) : Tree :=
  let reusable := match old with
    | some old => if old.language.handle = l.handle then old.root.reusable l.tables else []
    | none => []
  let fresh : ParseInput := ⟨l, text, [], era⟩
  if reusable.isEmpty then ⟨l, fresh.tree order⟩
  else ⟨l, ({ fresh with reusable := reusable }.accepted?).getD (fresh.tree order)⟩

structure Parser where
  language : Option Language := none
  cancelFlag : Option Bool := none

namespace Parser

variable (p : Parser)

def setLanguage (l : Language) : Parser := { p with language := some l }

def setCancelFlag (flag : Option Bool) : Parser := { p with cancelFlag := flag }

/-- Only the flag is forgotten. -/
def reset : Parser := { p with cancelFlag := none }

def parse (text : List Char) (old : Option Tree) (era : Nat) (order : KeyOrder := .entered) :
    Except ParseError Tree :=
  match p.language with
  | none => .error .noLanguage
  | some l => if p.cancelFlag = some true then .error .cancelled else .ok (l.parse text old era order)

/-- Bytes that are no text are refused before all else. -/
def parseBytes (bytes : List Nat) (old : Option Tree) (era : Nat) (order : KeyOrder := .entered) :
    Except ParseError Tree :=
  match Utf8.decode bytes with
  | .error n => .error (.invalidUtf8 n)
  | .ok text => p.parse text old era order

end Parser

end EarleyTree
