import EarleyTree.Grammar.Basic
import EarleyTree.Json.Basic
import EarleyTree.Text.CodeRange

/-!
Grammars as JSON documents. The payload of a rule is an integer or a string under the key `value`;
in the text it is first wrapped in an object that says which of the two it is.
-/
namespace EarleyTree

open Text

namespace Tagging

/-- The rest of a string token from behind its opening quote, and what follows it. -/
def stringRest : List Char → Option (List Char × List Char)
  | '"' :: cs => some (['"'], cs)
  | '\\' :: c :: cs =>
    if c == '\n' then none else (stringRest cs).map fun (s, rest) => ('\\' :: c :: s, rest)
  | c :: cs => if c == '\\' then none else (stringRest cs).map fun (s, rest) => (c :: s, rest)
  | [] => none

def stringToken? : List Char → Option (List Char × List Char)
  | '"' :: cs => (stringRest cs).map fun (s, rest) => ('"' :: s, rest)
  | _ => none

def integerToken? (cs : List Char) : Option (List Char × List Char) :=
  let (sign, digits) := match cs with
    | '-' :: digits => (['-'], digits)
    | _ => ([], cs)
  match digits.takeWhile Char.isDigit with
  | [] => none
  | run => some (sign ++ run, digits.dropWhile Char.isDigit)

def valueKey : List Char := "\"value\"".toList

def wrap (tag : String) (token : List Char) : List Char :=
  "\"value\": \x7b\"".toList ++ tag.toList ++ "\": ".toList ++ token ++ "\x7d".toList

/-- A key `value` with a string or an integer, wrapped, and what follows it. -/
def taggedValue? (cs : List Char) : Option (List Char × List Char) :=
  if valueKey.isPrefixOf cs then
    match (cs.drop valueKey.length).dropWhile isBlank with
    | ':' :: rest =>
      let rest := rest.dropWhile isBlank
      match stringToken? rest with
      | some (token, rest) => some (wrap "String" token, rest)
      | none => (integerToken? rest).map fun (token, rest) => (wrap "Integer" token, rest)
    | _ => none
  else none

/-- What replaces the token that begins here, if it is one to look at. -/
def token? (cs : List Char) : Option (List Char × List Char) :=
  (taggedValue? cs).or (stringToken? cs)

/-- Tags the rest of a text; the number counts characters that are used up already. -/
def tagFrom : List Char → Nat → List Char
  | [], _ => []
  | _ :: cs, n + 1 => tagFrom cs n
  | c :: cs, 0 =>
    match token? (c :: cs) with
    | some (out, rest) => out ++ tagFrom cs (cs.length - rest.length)
    | none => c :: tagFrom cs 0

/-- Wraps every value of a key `value` that is a string or an integer. -/
def tagValues (text : List Char) : List Char := tagFrom text 0

end Tagging

inductive GrammarError
  | malformed
  | noRules (name : String)
  deriving DecidableEq, Repr

def GrammarError.message : GrammarError → String
  | malformed => "JSON parse error"
  | noRules name => s!"validation error: grammar '{name}' has no rules"

namespace Document

/-- Where a text is due, `null` stands for the empty one. -/
def string? : Json → Option String
  | .str s => some s
  | .null => some ""
  | _ => none

def list? {α : Type} (item? : Json → Option α) : Json → Option (List α)
  | .arr items => items.mapM item?
  | .null => some []
  | _ => none

def bool? : Json → Option Bool
  | .bool b => some b
  | _ => none

def level? : Json → Option Int
  | .int n => if -0x80000000 ≤ n ∧ n < 0x80000000 then some n else none
  | .null => some 0
  | _ => none

def value? : Json → Option RuleValue
  | .obj [("String", v)] => (string? v).map .text
  | .obj [("Integer", v)] => (level? v).map .level
  | _ => none

/-- A part that may be absent or `null`. -/
def optional? {α : Type} (part? : Json → Option α) (fields : List (String × Json)) (key : String) :
    Option (Option α) :=
  match fields.lookup key with
  | none | some .null => some none
  | some v => (part? v).map some

def listOrEmpty? {α : Type} (item? : Json → Option α) (fields : List (String × Json))
    (key : String) : Option (List α) :=
  match fields.lookup key with
  | none => some []
  | some v => list? item? v

def kind? : Json → Option RuleKind
  | .str tag => RuleKind.ofTag? tag
  | _ => none

/-- Decodes a rule that nests less deep than the given number. -/
def rule? : Nat → Json → Option Rule
  | depth + 1, .obj fields => do
    let kind ← kind? (← fields.lookup "type")
    let value ← optional? value? fields "value"
    let name ← optional? string? fields "name"
    let content ← optional? (rule? depth) fields "content"
    let members ← listOrEmpty? (rule? depth) fields "members"
    let named ← optional? bool? fields "named"
    let flags ← optional? string? fields "flags"
    let contextName ← optional? string? fields "context_name"
    return { kind, value, name, content, members, named, flags, contextName }
  | _, _ => none

def rules? (depth : Nat) : Json → Option (List (String × Rule))
  | .obj fields => fields.mapM fun (name, v) => (rule? depth v).map (name, ·)
  | .null => some []
  | _ => none

def reserved? (depth : Nat) : Json → Option (List (String × List Rule))
  | .obj fields => fields.mapM fun (name, v) => (list? (rule? depth) v).map (name, ·)
  | _ => none

def grammar? (depth : Nat) : Json → Option Grammar
  | .obj fields => do
    let schema ← optional? string? fields "$schema"
    let name ← string? (← fields.lookup "name")
    let inherits ← optional? string? fields "inherits"
    let rules ← rules? depth (← fields.lookup "rules")
    let ruleOrder ← listOrEmpty? string? fields "rule_order"
    let extras ← optional? (list? (rule? depth)) fields "extras"
    let externals ← optional? (list? (rule? depth)) fields "externals"
    let inlined ← optional? (list? string?) fields "inline"
    let precedences ← optional? (list? (list? (rule? depth))) fields "precedences"
    let conflicts ← optional? (list? (list? string?)) fields "conflicts"
    let reserved ← optional? (reserved? depth) fields "reserved"
    let word ← optional? string? fields "word"
    let supertypes ← optional? (list? string?) fields "supertypes"
    return { schema, name, inherits, rules := .ofList rules, ruleOrder, extras, externals, inlined,
             precedences, conflicts, reserved, word, supertypes }
  | _ => none

end Document

def Grammar.read (text : List Char) : Except GrammarError Grammar :=
  match (Json.read? (Tagging.tagValues text)).bind (Document.grammar? (text.length + 1)) with
  | none => .error .malformed
  | some g => if g.rules.entries.isEmpty then .error (.noRules g.name) else .ok g

end EarleyTree
