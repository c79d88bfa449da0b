import EarleyTree.Pattern.Properties

/-!
Bracketed character classes: `[a-z]`, `[^\s"]`, `[\w--\d]`, `[[:alpha:]_]`, and the escapes that
classes share with the rest of a pattern.
-/
namespace EarleyTree.Pattern

open Text

structure Flags where
  ignoreCase : Bool := false
  multiLine : Bool := false
  dotAll : Bool := false
  swapGreed : Bool := false
  unicode : Bool := true
  crlf : Bool := false
  extended : Bool := false
  deriving DecidableEq, Repr

namespace Flags

variable (fl : Flags)

/-- Drops blanks and comments, as extended patterns allow them between any two elements. -/
def dropBlank : Bool → List Char → List Char
  | _, [] => []
  | true, c :: cs => dropBlank (c != '\n') cs
  | false, c :: cs =>
    if isBlank c then dropBlank false cs else if c == '#' then dropBlank true cs else c :: cs

def skip (cs : List Char) : List Char := if fl.extended then dropBlank false cs else cs

/-- The longest run of characters in `p`, with what `skip` drops between them. -/
def takeRun (p : Char → Bool) : Nat → List Char → List Char × List Char
  | fuel + 1, c :: cs =>
    if p c then
      let (run, rest) := takeRun p fuel (fl.skip cs)
      (c :: run, rest)
    else ([], c :: cs)
  | _, cs => ([], cs)

/-- The character after the next one, where a blank or `#` before it does not count. -/
def peek (cs : List Char) : Option Char :=
  if fl.extended then
    let behind := cs.tail.dropWhile isBlank
    match behind with
    | '#' :: comment => ((comment.dropWhile isBlank).head?).or cs.tail.head?
    | c :: _ => some c
    | [] => cs.tail.head?
  else cs.tail.head?

end Flags

def hexDigit? (c : Char) : Option Nat :=
  if '0' ≤ c ∧ c ≤ '9' then some (c.toNat - 48)
  else if 'a' ≤ c ∧ c ≤ 'f' then some (c.toNat - 87)
  else if 'A' ≤ c ∧ c ≤ 'F' then some (c.toNat - 55)
  else none

def ofHexDigits (cs : List Char) : Nat := cs.foldl (fun n c => n * 16 + (hexDigit? c).getD 0) 0

/-- Only Unicode scalar values are characters. -/
def scalar? (n : Nat) : Option Char :=
  if n < 0xd800 ∨ 0xdfff < n ∧ n < 0x110000 then some (Char.ofNat n) else none

inductive Escape
  /-- `raw` marks the two digits of `\xNN`, which name a byte where the pattern is not Unicode. -/
  | literal (c : Char) (raw : Bool)
  | charSet (s : CharSet)
  | boundary (letter : Char) (name : Option (List Char))
  deriving Repr

def isMeta (c : Char) : Bool := "\\.+*?()|[]\x7b\x7d^$#&-~".toList.contains c

/-- Any ASCII character may be escaped but letters, digits and angle brackets. -/
def isEscapable (c : Char) : Bool := c.toNat < 128 && !c.isAlphanum && c != '<' && c != '>'

def asciiDigit : CharSet := .range 48 57
def asciiBlank : CharSet := .ofRanges [(9, 13), (32, 32)]
def asciiWord : CharSet := .ofRanges [(48, 57), (65, 90), (95, 95), (97, 122)]

def Flags.perlSet? (fl : Flags) (c : Char) : Option CharSet :=
  let positive := if fl.unicode then (CharSet.digit, CharSet.blank, CharSet.word)
    else (asciiDigit, asciiBlank, asciiWord)
  let negative (s : CharSet) := if fl.unicode then some (.compl s) else none
  match c with
  | 'd' => some positive.1
  | 's' => some positive.2.1
  | 'w' => some positive.2.2
  | 'D' => negative positive.1
  | 'S' => negative positive.2.1
  | 'W' => negative positive.2.2
  | _ => none

/-- `\x41`, `\u0041`, `\U00000041` and `\x{41}`, from behind the letter. -/
def Flags.readHex (fl : Flags) (digits : Nat) (cs : List Char) : Option (Escape × List Char) :=
  match fl.skip cs with
  | [] => none
  | '\x7b' :: cs =>
    let (run, rest) := fl.takeRun (· != '\x7d') cs.length (fl.skip cs)
    if run.isEmpty || run.any fun c => (hexDigit? c).isNone then none
    else
      match rest, scalar? (ofHexDigits run) with
      | _ :: rest, some c => some (.literal c false, fl.skip rest)
      | _, _ => none
  | cs =>
    let rec take : Nat → List Char → Option (List Char × List Char)
      | 0, cs => some ([], cs)
      | n + 1, c :: cs =>
        if (hexDigit? c).isSome then
          (take n (fl.skip cs)).map fun (run, rest) => (c :: run, rest)
        else none
      | _ + 1, [] => none
    do
      let (run, rest) ← take digits cs
      let c ← scalar? (ofHexDigits run)
      if digits = 2 ∧ ¬ fl.unicode ∧ 127 < c.toNat then none
      return (.literal c (digits == 2), rest)

/-- The name in braces after `\b`, when there is one: what follows may also be a repetition. -/
def Flags.readBoundaryName (fl : Flags) (cs : List Char) :
    Option (Option (List Char) × List Char) :=
  let isName (c : Char) := c.isAlpha || c == '-'
  match cs with
  | '\x7b' :: behind =>
    match fl.skip behind with
    | [] => none
    | c :: behind =>
      if isName c then
        let (run, rest) := fl.takeRun isName (behind.length + 1) (c :: behind)
        match rest with
        | '\x7d' :: rest => some (some run, rest)
        | _ => none
      else some (none, cs)
  | _ => some (none, cs)

def Flags.closeCase (fl : Flags) (s : CharSet) : CharSet :=
  if fl.ignoreCase then if fl.unicode then .caseClosed s else .asciiCaseClosed s else s

/-- `\pL` and `\p` with a property in braces, from behind the letter. -/
def Flags.readProperty (fl : Flags) (negated : Bool) (cs : List Char) :
    Option (CharSet × List Char) :=
  let found (negated : Bool) (s : CharSet) :=
    if negated then CharSet.compl (fl.closeCase s) else fl.closeCase s
  if fl.unicode then
    match fl.skip cs with
    | [] => none
    | '\x7b' :: cs =>
      let (run, rest) := fl.takeRun (· != '\x7d') cs.length (fl.skip cs)
      match Property.read? run, rest with
      | some (unequal, s), _ :: rest => some (found (negated != unequal) s, rest)
      | _, _ => none
    | c :: cs => (Property.named? [c]).map fun s => (found negated s, cs)
  else none

def Flags.readEscape (fl : Flags) : List Char → Option (Escape × List Char)
  | [] => none
  | c :: cs =>
    let literal (c : Char) := some (Escape.literal c false, cs)
    match c with
    | 'x' => fl.readHex 2 cs
    | 'u' => fl.readHex 4 cs
    | 'U' => fl.readHex 8 cs
    | 'd' | 's' | 'w' | 'D' | 'S' | 'W' => (fl.perlSet? c).map fun s => (.charSet s, cs)
    | 'p' => (fl.readProperty false cs).map fun (s, rest) => (.charSet s, rest)
    | 'P' => (fl.readProperty true cs).map fun (s, rest) => (.charSet s, rest)
    | 'a' => literal '\x07'
    | 'f' => literal '\x0c'
    | 't' => literal '\t'
    | 'n' => literal '\n'
    | 'r' => literal '\r'
    | 'v' => literal '\x0b'
    | 'b' => (fl.readBoundaryName cs).map fun (name, rest) => (.boundary 'b' name, rest)
    | 'A' | 'z' | 'B' | '<' | '>' => some (.boundary c none, cs)
    | _ => if isEscapable c then literal c else none

/-- A set together with the number of constructs that nest in it. -/
structure SetItem where
  set : CharSet
  depth : Nat
  deriving Repr

inductive SetOperator
  | inter
  | diff
  | symmDiff
  deriving DecidableEq, Repr

/-- What an open bracket or an operator waits with for its right-hand side. -/
inductive OpenSet
  | bracket (outer : List SetItem) (negated : Bool)
  | operator (op : SetOperator) (left : SetItem)
  deriving Repr

structure ClassReading where
  waiting : List OpenSet
  items : List SetItem
  deriving Repr

def SetItem.ofUnion (items : List SetItem) : SetItem :=
  match items with
  | [] => ⟨.none, 0⟩
  | [item] => item
  | items =>
    ⟨items.foldl (fun s item => .union item.set s) .none,
      items.foldl (fun n item => max n item.depth) 0 + 1⟩

/-- Where the pattern is not Unicode a complement would hold bytes that are no characters. -/
def Flags.negate (fl : Flags) (negated : Bool) (s : CharSet) : Option CharSet :=
  if negated then if fl.unicode then some (.compl s) else none else some s

def Flags.applyOperator (fl : Flags) (waiting : List OpenSet) (right : SetItem) :
    List OpenSet × SetItem :=
  match waiting with
  | .operator op left :: waiting =>
    let a := fl.closeCase left.set
    let b := fl.closeCase right.set
    let set := match op with
      | .inter => .inter a b
      | .diff => .diff a b
      | .symmDiff => .symmDiff a b
    (waiting, ⟨set, max left.depth right.depth + 1⟩)
  | _ => (waiting, right)

def ClassReading.pushSet (st : ClassReading) (s : CharSet) : ClassReading :=
  { st with items := ⟨s, 0⟩ :: st.items }

def ClassReading.pushOperator (fl : Flags) (st : ClassReading) (op : SetOperator) : ClassReading :=
  let (waiting, left) := fl.applyOperator st.waiting (.ofUnion st.items)
  ⟨.operator op left :: waiting, []⟩

/-- From behind a `[`: a `^`, then hyphens, or else a `]`, that stand for themselves. -/
def ClassReading.openBracket (fl : Flags) (st : ClassReading) (cs : List Char) :
    Option (ClassReading × List Char) :=
  let cs := fl.skip cs
  let (negated, cs) := match cs with
    | '^' :: rest => (true, fl.skip rest)
    | _ => (false, cs)
  let (hyphens, cs) := fl.takeRun (· == '-') cs.length cs
  let inner : ClassReading :=
    ⟨.bracket st.items negated :: st.waiting, hyphens.map fun c => ⟨.char c, 0⟩⟩
  match hyphens, cs with
  | _, [] => none
  | [], ']' :: rest =>
    match fl.skip rest with
    | [] => none
    | rest => some (inner.pushSet (.char ']'), rest)
  | _, cs => some (inner, cs)

def asciiClasses : List (String × List (Nat × Nat)) :=
  [("alnum", [(48, 57), (65, 90), (97, 122)]), ("alpha", [(65, 90), (97, 122)]),
    ("ascii", [(0, 127)]), ("blank", [(9, 9), (32, 32)]), ("cntrl", [(0, 31), (127, 127)]),
    ("digit", [(48, 57)]), ("graph", [(33, 126)]), ("lower", [(97, 122)]), ("print", [(32, 126)]),
    ("punct", [(33, 47), (58, 64), (91, 96), (123, 126)]), ("space", [(9, 13), (32, 32)]),
    ("upper", [(65, 90)]), ("word", [(48, 57), (65, 90), (95, 95), (97, 122)]),
    ("xdigit", [(48, 57), (65, 70), (97, 102)])]

/-- `:alpha:]` or `:^alpha:]`, from behind the bracket; anything else is an ordinary class. -/
def readAsciiClass (cs : List Char) : Option (Bool × CharSet × List Char) :=
  match cs with
  | ':' :: cs =>
    let (negated, cs) := match cs with
      | '^' :: rest => (true, rest)
      | _ => (false, cs)
    match cs.dropWhile (· != ':') with
    | ':' :: ']' :: rest =>
      (asciiClasses.lookup (String.ofList (cs.takeWhile (· != ':')))).map fun ranges =>
        (negated, .ofRanges ranges, rest)
    | _ => none
  | _ => none

inductive ClassMember
  | literal (c : Char)
  | set (s : CharSet)

def Flags.readMember (fl : Flags) (c : Char) (cs : List Char) : Option (ClassMember × List Char) :=
  let literal (c : Char) (rest : List Char) :=
    if ¬ fl.unicode ∧ 127 < c.toNat then none else some (ClassMember.literal c, rest)
  if c == '\\' then
    match fl.readEscape cs with
    | some (.literal c _, rest) => literal c rest
    | some (.charSet s, rest) => some (.set s, rest)
    | _ => none
  else literal c cs

/-- A member or a range. A hyphen before `]` or `-` does not make a range. -/
def ClassReading.readRange (fl : Flags) (st : ClassReading) (c : Char) (cs : List Char) :
    Option (ClassReading × List Char) := do
  let (first, rest) ← fl.readMember c cs
  let rest := fl.skip rest
  let single := match first with
    | .literal c => st.pushSet (.char c)
    | .set s => st.pushSet s
  match rest with
  | [] => none
  | '-' :: behind =>
    if fl.peek rest == some ']' || fl.peek rest == some '-' then return (single, rest)
    match fl.skip behind with
    | [] => none
    | c :: cs =>
      let (last, rest) ← fl.readMember c cs
      match first, last with
      | .literal lo, .literal hi =>
        if lo ≤ hi then return (st.pushSet (.range lo.toNat hi.toNat), rest) else none
      | _, _ => none
  | rest => return (single, rest)

inductive ClassStep
  | more (st : ClassReading) (rest : List Char)
  | closed (item : SetItem) (rest : List Char)

/-- The bracket that closes gives its class to the one around it, if there is one. -/
def ClassReading.close (fl : Flags) (st : ClassReading) (rest : List Char) : Option ClassStep :=
  let (waiting, item) := fl.applyOperator st.waiting (.ofUnion st.items)
  match waiting with
  | .bracket outer negated :: waiting => do
    let s ← fl.negate negated (fl.closeCase item.set)
    let item : SetItem := ⟨s, item.depth + 1⟩
    if waiting.isEmpty then return .closed item rest
    else return .more ⟨waiting, item :: outer⟩ rest
  | _ => none

def ClassReading.step (fl : Flags) (st : ClassReading) (c : Char) (cs : List Char) :
    Option ClassStep :=
  let blank := fl.skip (c :: cs)
  if blank.length ≤ cs.length then some (.more st blank)
  else
    let more (next : Option (ClassReading × List Char)) :=
      next.map fun (st, rest) => ClassStep.more st rest
    match c, cs with
    | '[', _ =>
      match readAsciiClass cs with
      | some (negated, s, rest) =>
        (fl.negate negated (fl.closeCase s)).map fun s => .more (st.pushSet s) rest
      | none => more (st.openBracket fl cs)
    | ']', _ => st.close fl cs
    | '&', '&' :: rest => some (.more (st.pushOperator fl .inter) rest)
    | '-', '-' :: rest => some (.more (st.pushOperator fl .diff) rest)
    | '~', '~' :: rest => some (.more (st.pushOperator fl .symmDiff) rest)
    | _, _ => more (st.readRange fl c cs)

/-- Reads on to the end of the class; the number counts characters that are used up already. -/
def ClassReading.finish (fl : Flags) : List Char → Nat → ClassReading → Option (SetItem × List Char)
  | [], _, _ => none
  | _ :: cs, n + 1, st => ClassReading.finish fl cs n st
  | c :: cs, 0, st =>
    match st.step fl c cs with
    | none => none
    | some (.closed item rest) => some (item, rest)
    | some (.more st rest) => ClassReading.finish fl cs (cs.length - rest.length) st

def Flags.readClass (fl : Flags) (cs : List Char) : Option (SetItem × List Char) := do
  let (st, rest) ← ClassReading.openBracket fl ⟨[], []⟩ cs
  ClassReading.finish fl rest 0 st

end EarleyTree.Pattern
