import EarleyTree.Pattern.CharClass
import EarleyTree.Pattern.Matching

/-!
Reading a pattern: one pass over its text that keeps the groups still open on a stack. Reading a
complete expression adds one element to the innermost sequence, whatever surrounds it.
-/
namespace EarleyTree.Pattern

open Text

/-- An element of a sequence; an element that only sets flags cannot be repeated. -/
structure Piece where
  regex : Regex
  depth : Nat := 0
  repeatable : Bool := true
  deriving Repr

/-- What stood before a group, and the flags to return to after it. -/
structure OpenGroup where
  flags : Flags
  alternatives : List Piece
  sequence : List Piece
  deriving Repr

/-- Alternatives and elements are held in reverse. -/
structure Reading where
  groups : List OpenGroup := []
  flags : Flags := {}
  alternatives : List Piece := []
  sequence : List Piece := []
  names : List (List Char) := []
  deriving Repr

def deepest (pieces : List Piece) : Nat := pieces.foldl (fun n p => max n p.depth) 0

def Piece.join (combine : List Regex → Regex) (reversed : List Piece) : Piece :=
  match reversed with
  | [piece] => piece
  | _ => ⟨combine (reversed.reverse.map (·.regex)),
      if reversed.isEmpty then 0 else deepest reversed + 1, true⟩

def Piece.ofSequence (reversed : List Piece) : Piece := Piece.join Regex.catAll reversed

def Piece.ofAlternatives (reversed : List Piece) : Piece := Piece.join Regex.altAll reversed

namespace Reading

variable (st : Reading)

def push (piece : Piece) : Reading := { st with sequence := piece :: st.sequence }

def pushAtom (r : Regex) : Reading := st.push { regex := r }

/-- The expression read so far in the innermost group. -/
def body : Piece := Piece.ofAlternatives (Piece.ofSequence st.sequence :: st.alternatives)

def openGroup (flags : Flags) : Reading :=
  { st with
    groups := ⟨st.flags, st.alternatives, st.sequence⟩ :: st.groups
    flags := flags
    alternatives := []
    sequence := [] }

def closeGroup : Option Reading :=
  match st.groups with
  | [] => none
  | group :: groups =>
    some ({ st with
      groups := groups
      flags := group.flags
      alternatives := group.alternatives
      sequence := group.sequence }.push ⟨st.body.regex, st.body.depth + 1, true⟩)

def pushAlternative : Reading :=
  { st with alternatives := Piece.ofSequence st.sequence :: st.alternatives, sequence := [] }

def repeatLast (min : Nat) (max : Option Nat) (lazy : Bool) : Option Reading :=
  match st.sequence with
  | [] => none
  | last :: before =>
    if last.repeatable then
      let greedy := lazy == st.flags.swapGreed
      some { st with sequence := ⟨.rep min max greedy last.regex, last.depth + 1, true⟩ :: before }
    else none

def literal (c : Char) : Regex :=
  if st.flags.ignoreCase && (st.flags.unicode || c.toNat < 128) then
    .set (st.flags.closeCase (.char c))
  else .char c

/-- Any character, but for line ends unless the flags say so. -/
def anyChar? : Option Regex :=
  if ¬ st.flags.unicode then none
  else if st.flags.dotAll then some (.set (.compl .none))
  else if st.flags.crlf then some (.set (.compl (.union (.char '\n') (.char '\r'))))
  else some (.set (.compl (.char '\n')))

def boundary? (letter : Char) (name : Option (List Char)) : Option Boundary :=
  let ascii := !st.flags.unicode
  match letter, name.map String.ofList with
  | '^', _ => some (if st.flags.multiLine then .lineStart st.flags.crlf else .textStart)
  | '$', _ => some (if st.flags.multiLine then .lineEnd st.flags.crlf else .textEnd)
  | 'A', _ => some .textStart
  | 'z', _ => some .textEnd
  | 'b', none => some (.word ascii)
  | 'B', _ => some (.notWord ascii)
  | '<', _ | 'b', some "start" => some (.wordStart ascii)
  | '>', _ | 'b', some "end" => some (.wordEnd ascii)
  | 'b', some "start-half" => some (.wordStartHalf ascii)
  | 'b', some "end-half" => some (.wordEndHalf ascii)
  | _, _ => none

end Reading

def readDecimal (fl : Flags) (cs : List Char) : Option (Nat × List Char) :=
  let (run, rest) := fl.takeRun Char.isDigit cs.length (cs.dropWhile isBlank)
  let n := run.foldl (fun n c => n * 10 + (c.toNat - 48)) 0
  if run.isEmpty || 0x100000000 ≤ n then none else some (n, rest.dropWhile isBlank)

/-- `{2}`, `{2,}` or `{2,5}`, from behind the brace, with the `?` that makes it lazy. -/
def readCount (fl : Flags) (cs : List Char) : Option ((Nat × Option Nat) × Bool × List Char) := do
  let (min, rest) ← readDecimal fl (fl.skip cs)
  let (max, rest) ← match rest with
    | ',' :: rest =>
      match fl.skip rest with
      | '\x7d' :: rest => some (none, rest)
      | rest =>
        match readDecimal fl rest with
        | some (max, '\x7d' :: rest) => some (some max, rest)
        | _ => none
    | '\x7d' :: rest => some (some min, rest)
    | _ => none
  if max.any (· < min) then none
  match fl.skip rest with
  | '?' :: rest => return ((min, max), true, rest)
  | rest => return ((min, max), false, rest)

def readName (names : List (List Char)) (cs : List Char) : Option (List Char × List Char) :=
  let name := cs.takeWhile (· != '>')
  match name, cs.dropWhile (· != '>') with
  | first :: others, _ :: rest =>
    let startsName := first == '_' || isAlphabetic first
    let inName (c : Char) := "_.[]".toList.contains c || isAlphanumeric c
    if startsName && others.all inName && !names.contains name then some (name, rest) else none
  | _, _ => none

def Flags.set? (fl : Flags) (value : Bool) : Char → Option Flags
  | 'i' => some { fl with ignoreCase := value }
  | 'm' => some { fl with multiLine := value }
  | 's' => some { fl with dotAll := value }
  | 'U' => some { fl with swapGreed := value }
  | 'u' => some { fl with unicode := value }
  | 'R' => some { fl with crlf := value }
  | 'x' => some { fl with extended := value }
  | _ => none

/-- The letters before the hyphen are switched on and those behind it off, each at most once. -/
def Flags.setAll? (fl : Flags) (letters : List Char) : Option Flags :=
  let hyphens := letters.count '-'
  if letters.getLast? == some '-' || 1 < hyphens || letters.eraseDups.length != letters.length then
    none
  else
    let on := letters.takeWhile (· != '-')
    let off := (letters.dropWhile (· != '-')).drop 1
    do off.foldlM (·.set? false ·) (← on.foldlM (·.set? true ·) fl)

def isFlagEnd (c : Char) : Bool := c == ':' || c == ')'

/-- What an opening parenthesis begins, read from behind it. -/
def Reading.openParen (st : Reading) (cs : List Char) : Option (Reading × List Char) :=
  let named (rest : List Char) : Option (Reading × List Char) := do
    let (name, rest) ← readName st.names rest
    return ({ st with names := name :: st.names }.openGroup st.flags, rest)
  match st.flags.skip cs with
  | '?' :: '=' :: _ | '?' :: '!' :: _ | '?' :: '<' :: '=' :: _ | '?' :: '<' :: '!' :: _ => none
  | '?' :: 'P' :: '<' :: rest | '?' :: '<' :: rest => named rest
  | '?' :: rest =>
    let letters := rest.takeWhile (!isFlagEnd ·)
    do
      let flags ← st.flags.setAll? letters
      match rest.dropWhile (!isFlagEnd ·) with
      | ':' :: rest => return (st.openGroup flags, rest)
      | _ :: rest =>
        if letters.isEmpty then none
        else return ({ st with flags := flags }.push ⟨.empty, 0, false⟩, rest)
      | [] => none
  | rest => some (st.openGroup st.flags, rest)

def Reading.readQuantifier (st : Reading) (min : Nat) (max : Option Nat) (cs : List Char) :
    Option (Reading × List Char) :=
  match cs with
  | '?' :: rest => (st.repeatLast min max true).map (·, rest)
  | rest => (st.repeatLast min max false).map (·, rest)

def Reading.step (st : Reading) (c : Char) (cs : List Char) : Option (Reading × List Char) :=
  let fl := st.flags
  let blank := fl.skip (c :: cs)
  if blank.length ≤ cs.length then some (st, blank)
  else
    match c with
    | '(' => st.openParen cs
    | ')' => st.closeGroup.map (·, cs)
    | '|' => some (st.pushAlternative, cs)
    | '[' =>
      (fl.readClass cs).map fun (item, rest) => (st.push ⟨.set item.set, item.depth, true⟩, rest)
    | '?' => st.readQuantifier 0 (some 1) cs
    | '*' => st.readQuantifier 0 none cs
    | '+' => st.readQuantifier 1 none cs
    | '\x7b' => do
      let ((min, max), lazy, rest) ← readCount fl cs
      return (← st.repeatLast min max lazy, rest)
    | '.' => st.anyChar?.map fun r => (st.pushAtom r, cs)
    | '^' | '$' => (st.boundary? c none).map fun b => (st.pushAtom (.test b), cs)
    | '\\' =>
      match fl.readEscape cs with
      | none => none
      | some (.literal c raw, rest) =>
        if raw && !fl.unicode && 127 < c.toNat then none
        else some (st.pushAtom (st.literal c), rest)
      | some (.charSet s, rest) => some (st.pushAtom (.set s), rest)
      | some (.boundary letter name, rest) =>
        (st.boundary? letter name).map fun b => (st.pushAtom (.test b), rest)
    | c => some (st.pushAtom (st.literal c), cs)

/-- Reads the rest of the pattern; the number counts characters that are used up already. -/
def Reading.finish : List Char → Nat → Reading → Option Piece
  | [], _, st => if st.groups.isEmpty then some st.body else none
  | _ :: cs, n + 1, st => Reading.finish cs n st
  | c :: cs, 0, st =>
    match st.step c cs with
    | none => none
    | some (st, rest) => Reading.finish cs (cs.length - rest.length) st

/-- How deep groups, repetitions, classes, sequences and alternatives may nest. -/
def maxDepth : Nat := 250

/-- The bytes a compiled pattern may take. -/
def maxMemory : Nat := 10485760

/-- Roughly the bytes that tables for a set take. -/
def CharSet.memory : CharSet → Nat
  | none => 32
  | range _ hi => if hi < 128 then 32 else 96
  | digit => 4000
  | blank => 500
  | word | alphabetic => 70000
  | category _ => 20000
  | union a b | inter a b | diff a b | symmDiff a b => a.memory + b.memory
  | compl a => a.memory + 300
  | caseClosed a | asciiCaseClosed a => a.memory

def Regex.memory : Regex → Nat
  | empty | test _ => 32
  | set s => s.memory
  | cat a b | alt a b => a.memory + b.memory
  | rep min none _ r => max 1 min * r.memory + 32
  | rep _ (some max) _ r => max * r.memory + 32

/-- The expression that a pattern denotes, without regard to limits. -/
def parse? (source : List Char) : Option Piece := Reading.finish source 0 {}

/-- The expression that a pattern denotes; none if it is malformed, too deep or too large. -/
def compile? (source : List Char) : Option Regex := do
  let piece ← parse? source
  if piece.depth ≤ maxDepth ∧ piece.regex.memory ≤ maxMemory then some piece.regex else none

end EarleyTree.Pattern
