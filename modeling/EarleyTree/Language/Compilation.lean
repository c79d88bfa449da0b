import EarleyTree.Grammar.Validation
import EarleyTree.Language.Tables
import EarleyTree.Pattern.Reading

/-!
From grammars to tables. The body of a rule becomes a list of alternatives without structure; what
repeats, or would make too many alternatives, moves into productions of fresh auxiliary symbols.
-/
namespace EarleyTree

open Pattern

inductive CompileError
  | validation (e : ValidationError)
  | unsupportedRule (rule construct : String)
  | unknownSymbol (name : String)
  | invalidPattern (rule : String)
  | badExtra (name : String)
  | missingScanner (grammar : String)
  | tooManySymbols
  deriving DecidableEq, Repr

def CompileError.message : CompileError → String
  | validation e => s!"invalid grammar: {e.message}"
  | unsupportedRule rule construct => s!"rule '{rule}' uses unsupported {construct}"
  | unknownSymbol name => s!"unknown symbol '{name}'"
  | invalidPattern rule => s!"invalid pattern for '{rule}'"
  | badExtra name => s!"extra '{name}' must be a token or a choice of tokens"
  | missingScanner grammar =>
    s!"grammar '{grammar}' declares externals but no external scanner was provided"
  | tooManySymbols => "grammar has too many symbols"

namespace Rule

/-- The text of a literal, also inside a token or a precedence. -/
def literalText? : Rule → Option String
  | ⟨kind, value, _, content, _, _, _, _⟩ =>
    match kind with
    | .string =>
      match value with
      | some (.text s) => some s
      | _ => none
    | .token | .immediateToken | .precedence | .precedenceLeft | .precedenceRight
    | .precedenceDynamic =>
      match content with
      | some inner => inner.literalText?
      | none => none
    | _ => none

/-- The level of a precedence around or directly inside a token. -/
def lexicalPrecedence : Rule → Int
  | ⟨kind, value, _, content, _, _, _, _⟩ =>
    match kind with
    | .precedence | .precedenceLeft | .precedenceRight | .precedenceDynamic =>
      match value with
      | some (.level n) => n
      | _ => 0
    | .token | .immediateToken =>
      match content with
      | some inner => inner.lexicalPrecedence
      | none => 0
    | _ => 0

def withoutContent (owner : String) (kind : RuleKind) : CompileError :=
  .unsupportedRule owner s!"{kind.tag} without content"

end Rule

namespace Pattern

/-- The text with every character escaped that would mean something in a pattern. -/
def escape (text : List Char) : List Char :=
  text.flatMap fun c => if isMeta c then ['\\', c] else [c]

def group (opening : String) (source : List Char) (closing : String) : List Char :=
  opening.toList ++ source ++ closing.toList

def joinAlternatives : List (List Char) → List Char
  | [] => []
  | [source] => source
  | source :: sources => source ++ '|' :: joinAlternatives sources

end Pattern

mutual

def Rule.patternSource (owner : String) : Rule → Except CompileError (List Char)
  | ⟨kind, value, name, content, members, _, flags, _⟩ =>
    match kind with
    | .blank => .ok []
    | .string =>
      match value with
      | some (.text s) => .ok (escape s.toList)
      | _ => .ok []
    | .pattern =>
      let source := match value with
        | some (.text s) => s.toList
        | _ => []
      let letters := flags.getD ""
      .ok (if letters.isEmpty then Pattern.group "(?:" source ")"
        else Pattern.group "(?" letters.toList ":" ++ Pattern.group "" source ")")
    | .sequence => (sources owner members).map List.flatten
    | .choice =>
      (sources owner members).map fun ss => Pattern.group "(?:" (joinAlternatives ss) ")"
    | .zeroOrMore =>
      (contentSource owner kind content).map fun s => Pattern.group "(?:" s ")*"
    | .oneOrMore =>
      (contentSource owner kind content).map fun s => Pattern.group "(?:" s ")+"
    | .symbol => .error (.unsupportedRule owner ("symbol '" ++ name.getD "" ++ "' inside a token"))
    | .token | .immediateToken | .precedence | .precedenceLeft | .precedenceRight
    | .precedenceDynamic | .field | .renamed | .reserved => contentSource owner kind content

def contentSource (owner : String) (kind : RuleKind) :
    Option Rule → Except CompileError (List Char)
  | none => .error (Rule.withoutContent owner kind)
  | some r => r.patternSource owner

def sources (owner : String) : List Rule → Except CompileError (List (List Char))
  | [] => .ok []
  | r :: rs => do
    let source ← r.patternSource owner
    return source :: (← sources owner rs)

end

/-- The expression of a terminal, tied to the place where the lexer stands. -/
def anchoredRegex (rule : String) (source : List Char) : Except CompileError Regex :=
  match compile? (Pattern.group "^(?:" source ")") with
  | some r => .ok r
  | none => .error (.invalidPattern rule)

structure Alternative where
  steps : List Step := []
  priority : Int := 0
  deriving DecidableEq, Repr

def Alternative.single (s : Symbol) : Alternative := { steps := [{ symbol := s }] }

def Alternative.append (a b : Alternative) : Alternative :=
  ⟨a.steps ++ b.steps, max a.priority b.priority⟩

def Alternative.product (as bs : List Alternative) : List Alternative :=
  as.flatMap fun a => bs.map a.append

/-- With more alternatives than this in a sequence, its members become rules of their own. -/
def maxAlternatives : Nat := 32

structure Draft where
  symbols : Array SymbolInfo := #[]
  byName : List (String × Symbol) := []
  literals : List (String × Symbol) := []
  inlineTokens : List (List Char × Symbol) := []
  newKinds : List ((String × Bool) × Symbol) := []
  fields : List String := []
  productions : Array Production := #[]
  lexTokens : List LexToken := []
  auxiliaries : Nat := 0

abbrev Compile := StateT Draft (Except CompileError)

namespace Compile

def pushSymbol (name : String) (kind : SymbolKind) (named visible : Bool) : Compile Symbol := do
  let d ← get
  if errorSymbol ≤ d.symbols.size then throw .tooManySymbols
  set { d with symbols := d.symbols.push ⟨name, kind, named, visible⟩ }
  return d.symbols.size

def symbol (name : String) : Compile Symbol := do
  match (← get).byName.lookup name with
  | some s => return s
  | none => throw (.unknownSymbol name)

def bindName (name : String) (s : Symbol) : Compile Unit :=
  modify fun d => { d with byName := (name, s) :: d.byName }

def pushProduction (lhs : Symbol) (a : Alternative) : Compile Unit :=
  modify fun d => { d with productions := d.productions.push ⟨lhs, a.steps, a.priority⟩ }

def pushLexToken (token : LexToken) : Compile Unit :=
  modify fun d => { d with lexTokens := d.lexTokens ++ [token] }

def fieldId (name : String) : Compile FieldId := do
  let d ← get
  let index := d.fields.idxOf name
  if errorSymbol ≤ index then throw .tooManySymbols
  if d.fields.length ≤ index then set { d with fields := d.fields ++ [name] }
  return index + 1

def freshName (owner what : String) : Compile String := do
  let d ← get
  set { d with auxiliaries := d.auxiliaries + 1 }
  return s!"{owner}_{what}{d.auxiliaries + 1}"

/-- The terminal of a literal, made when the literal is first met. -/
def literal (text : String) : Compile Symbol := do
  if let some s := (← get).literals.lookup text then return s
  let s ← pushSymbol text .terminal false true
  modify fun d => { d with literals := (text, s) :: d.literals }
  let regex ← anchoredRegex text (escape text.toList)
  pushLexToken ⟨s, regex, true, 0⟩
  return s

/-- The hidden terminal of a token written inside a rule. Tokens with the same pattern share one. -/
def inlineToken (r : Rule) (owner : String) : Compile Symbol := do
  if let some text := r.literalText? then return ← literal text
  let source ← r.patternSource owner
  if let some s := (← get).inlineTokens.lookup source then return s
  let name ← freshName owner "token"
  let s ← pushSymbol name .terminal false false
  let regex ← anchoredRegex name source
  pushLexToken ⟨s, regex, false, r.lexicalPrecedence⟩
  modify fun d => { d with inlineTokens := (source, s) :: d.inlineTokens }
  return s

/-- The kind that renamed nodes take: an existing visible one of that name if there is one. -/
def newKind (name : String) (named : Bool) : Compile Symbol := do
  let d ← get
  if let some s := d.newKinds.lookup (name, named) then return s
  let existing := d.symbols.findIdx? fun s =>
    s.name == name && s.named == named && s.visible && s.kind != .endMarker
  let s ← match existing with
    | some index => pure index
    | none => pushSymbol name .nameOnly named true
  modify fun d => { d with newKinds := ((name, named), s) :: d.newKinds }
  return s

def auxiliary (body : Compile (List Alternative)) (owner what : String) : Compile Symbol := do
  let name ← freshName owner what
  let s ← pushSymbol name .auxiliary false false
  (← body).forM (pushProduction s)
  return s

/-- A fresh symbol `R` with `R → a` and `R → R a` for every alternative `a`, without `R → R`. -/
def repetition (body : Compile (List Alternative)) (owner : String) : Compile Symbol := do
  let name ← freshName owner "repeat"
  let s ← pushSymbol name .auxiliary false false
  (← body).forM fun a => do
    if !a.steps.isEmpty then
      pushProduction s ⟨{ symbol := s } :: a.steps, a.priority⟩
    pushProduction s a
  return s

def single (s : Symbol) : List Alternative := [.single s]

def raise (level : Int) (a : Alternative) : Alternative :=
  { a with priority := max a.priority level }

/-- A label reaches every step that has none. -/
def label (field : FieldId) (a : Alternative) : Alternative :=
  { a with steps := a.steps.map fun s => { s with field := s.field.or (some field) } }

end Compile

open Compile

mutual

def Rule.flatten (owner : String) : Rule → Compile (List Alternative)
  | r@⟨kind, _, name, content, members, named, _, _⟩ =>
    match kind with
    | .blank => return [{}]
    | .string => return single (← literal (r.stringValue?.getD ""))
    | .pattern | .token => return single (← inlineToken r owner)
    | .immediateToken => do
      let s ← inlineToken r owner
      return [{ steps := [{ symbol := s, immediate := true }] }]
    | .symbol => return single (← symbol (name.getD ""))
    | .sequence => flattenSequence owner [{}] members
    | .choice => flattenChoice owner members
    | .zeroOrMore =>
      return [{}, .single (← repetition (flattenContent owner kind content) owner)]
    | .oneOrMore => return single (← repetition (flattenContent owner kind content) owner)
    | .precedence | .precedenceLeft | .precedenceRight | .precedenceDynamic =>
      return (← flattenContent owner kind content).map (raise (r.precedence?.getD 0))
    | .field => do
      let id ← fieldId (name.getD "")
      return (← flattenContent owner kind content).map (label id)
    | .renamed => do
      let kindId ← newKind (name.getD "") (named.getD false)
      let target ← match content.bind Rule.symbolName? with
        | some name => symbol name
        | none => auxiliary (flattenContent owner kind content) owner "alias"
      return [{ steps := [{ symbol := target, newKind := some kindId }] }]
    | .reserved => flattenContent owner kind content

def flattenContent (owner : String) (kind : RuleKind) :
    Option Rule → Compile (List Alternative)
  | none => throw (Rule.withoutContent owner kind)
  | some r => r.flatten owner

/-- The alternatives of a sequence whose first members gave `before`. -/
def flattenSequence (owner : String) (before : List Alternative) :
    List Rule → Compile (List Alternative)
  | [] => return before
  | r :: rs => do
    let alternatives ← r.flatten owner
    if 1 < alternatives.length ∧ maxAlternatives < before.length * alternatives.length then
      let s ← auxiliary (r.flatten owner) owner "seq"
      flattenSequence owner (Alternative.product before (single s)) rs
    else flattenSequence owner (Alternative.product before alternatives) rs

def flattenChoice (owner : String) : List Rule → Compile (List Alternative)
  | [] => return []
  | r :: rs => do
    let alternatives ← r.flatten owner
    return alternatives ++ (← flattenChoice owner rs)

end

/-- One round over the productions: a left-hand side becomes nullable when all its steps are. -/
def nullableRound (productions : Array Production) (nullable : Array Bool) : Array Bool :=
  productions.foldl (fun nullable p =>
    if p.steps.all fun s => nullable.getD s.symbol false then nullable.setIfInBounds p.lhs true
    else nullable) nullable

def nullableFrom (productions : Array Production) : Nat → Array Bool → Array Bool
  | 0, nullable => nullable
  | rounds + 1, nullable =>
    let next := nullableRound productions nullable
    if next == nullable then nullable else nullableFrom productions rounds next

def nullableSymbols (symbolCount : Nat) (productions : Array Production) : Array Bool :=
  nullableFrom productions (symbolCount + 1) (Array.replicate symbolCount false)

def groupByLhs (symbolCount : Nat) (productions : Array Production) : Array (List Nat) :=
  (List.range symbolCount).map (fun s =>
    (List.range productions.size).filter fun i => (productions[i]?.any (·.lhs == s))) |>.toArray

namespace Grammar

variable (g : Grammar)

def declareExternals : Compile (List Symbol) :=
  g.externalNames.mapM fun name => do
    let s ← pushSymbol name .external (!isHiddenName name) (!isHiddenName name)
    bindName name s
    return s

/-- Gives every rule a symbol, unless an external already has its name. -/
def declareRules : Compile Unit :=
  g.orderedRules.forM fun (name, rule) => do
    if ((← get).byName.lookup name).isNone then
      let kind := if rule.isLexical then .terminal else .nonterminal
      bindName name (← pushSymbol name kind (!isHiddenName name) (!isHiddenName name))

def defineRules : Compile Unit :=
  g.orderedRules.forM fun (name, rule) => do
    let s ← symbol name
    match ((← get).symbols[s]?).map (·.kind) with
    | some SymbolKind.terminal =>
      let source ← rule.patternSource name
      let regex ← anchoredRegex name source
      pushLexToken ⟨s, regex, rule.literalText?.isSome, rule.lexicalPrecedence⟩
    | some SymbolKind.nonterminal => (← rule.flatten name).forM (pushProduction s)
    | _ => return

/-- Adds a symbol above the start rule that no rule can refer to. -/
def declareStart : Compile Symbol := do
  match g.startRule? with
  | none => throw (.unknownSymbol "<start>")
  | some name =>
    let rule ← symbol name
    let start ← pushSymbol "_start" .auxiliary false false
    pushProduction start (.single rule)
    return start

structure Extras where
  skip : List Regex := []
  tokens : List (Symbol × Option Symbol) := []

/-- The terminals that a rule among the extras stands for: it must be a choice of terminals. -/
def wrappedTokens (d : Draft) (name : String) (s : Symbol) :
    Except CompileError (List (Symbol × Option Symbol)) :=
  (d.productions.toList.filter (·.lhs == s)).mapM fun p =>
    match p.steps with
    | [step] =>
      if d.symbols[step.symbol]?.any (·.isTerminal) then .ok (step.symbol, some s)
      else .error (.badExtra name)
    | _ => .error (.badExtra name)

def addExtra (d : Draft) (extras : Extras) (r : Rule) : Except CompileError Extras :=
  match r.kind with
  | .pattern | .string | .token => do
    let regex ← anchoredRegex "extras" (← r.patternSource "extras")
    return { extras with skip := extras.skip ++ [regex] }
  | .symbol => do
    let name := r.name.getD ""
    match d.byName.lookup name with
    | none => throw (.unknownSymbol name)
    | some s =>
      if d.symbols[s]?.any (·.isTerminal) then
        return { extras with tokens := (s, none) :: extras.tokens }
      else
        return { extras with tokens := (← wrappedTokens d name s).reverse ++ extras.tokens }
  | kind => .error (.badExtra kind.tag)

/-- What may stand between tokens: blanks, unless the grammar says otherwise. -/
def compileExtras (d : Draft) : Except CompileError Extras :=
  match g.extras with
  | none => do return { skip := [← anchoredRegex "extras" "\\s".toList] }
  | some extras => extras.foldlM (addExtra d) {}

/-- The word token, with the literals that it matches in full. -/
def compileKeywords (d : Draft) : Except CompileError (Option Symbol × List (String × Symbol)) :=
  match g.word with
  | none => .ok (none, [])
  | some name =>
    match d.byName.lookup name with
    | none => .error (.unknownSymbol name)
    | some s =>
      match d.lexTokens.find? (·.symbol == s) with
      | none => .error (.unsupportedRule name "non-lexical word rule")
      | some token =>
        let isKeyword (text : String) :=
          (token.regex.find? text.toList).any fun m => m.2 == text.utf8ByteSize
        .ok (some s, d.literals.filter fun e => isKeyword e.1)

/-- The tables of a grammar; `hasScanner` says that its externals will be scanned for. -/
def tables (hasScanner : Bool) : Except CompileError Tables := do
  match g.validate with
  | .error e => throw (.validation e)
  | .ok _ => pure ()
  if !g.externalNames.isEmpty && !hasScanner then throw (.missingScanner g.name)
  let ((externals, start), d) ← (do
    let _ ← pushSymbol "end" .endMarker false false
    let externals ← g.declareExternals
    g.declareRules
    g.defineRules
    let start ← g.declareStart
    return (externals, start) : Compile (List Symbol × Symbol)).run {}
  let extras ← g.compileExtras d
  let (word, keywords) ← g.compileKeywords d
  return {
    name := g.name
    symbols := d.symbols
    fields := d.fields
    productions := d.productions
    productionsByLhs := groupByLhs d.symbols.size d.productions
    nullable := nullableSymbols d.symbols.size d.productions
    start := start
    lexTokens := d.lexTokens
    skip := extras.skip
    extraTokens := extras.tokens
    externals := externals
    keywords := keywords
    word := word }

end Grammar

end EarleyTree
