import EarleyTree.Grammar.Combinators
import EarleyTree.Language.Basic
import EarleyTree.Candid.BlockComment

/-!
The grammar of Candid interface descriptions and values.
-/
namespace EarleyTree.Candid

open Rule

def decimalDigits : String := "[0-9](?:_?[0-9])*"

def hexDigits : String := "[0-9A-Fa-f](?:_?[0-9A-Fa-f])*"

def quotedText : String :=
  "\"(?:[^\"\\\\\\x00-\\x1f\\x7f]|\\\\[0-9A-Fa-f]\x7b2\x7d|\\\\[nrt\\\\\"']|" ++
    "\\\\u\\\x7b[0-9A-Fa-f](?:_?[0-9A-Fa-f])*\\\x7d)*\""

/-- Any number of `r`, with `separator` directly behind each but the last, where it may stand. -/
def separated (r : Rule) (separator : String) : Rule :=
  seq [many (seq [r, immediate (literal separator)]), optional r]

def sign : Rule := optional (oneOf [literal "+", literal "-"])

def signed (parts : List Rule) : Rule := seq (sign :: parts)

def literals (texts : List String) : Rule := oneOf (texts.map literal)

def labelledField (label name glue value : String) : Rule :=
  seq [labelled label (ref name), literal glue, ref value]

def recordField (glue value : String) : Rule :=
  oneOf [labelledField "index" "nat" glue value, labelledField "hasharg" "name" glue value,
    ref value]

def variantField (glue value : String) : Rule :=
  oneOf [labelledField "index" "nat" glue value, labelledField "hasharg" "name" glue value,
    ref "nat", ref "name"]

def fields (keyword element : String) (body : Rule → Rule) (name : String) : Rule :=
  seq [literal keyword, literal "\x7b", body (renamedTo (ref element) name true), literal "\x7d"]

def typeRules : List (String × Rule) :=
  [("prog", seq [separated (ref "def") ";", optional (ref "actor")]),
    ("def", oneOf [
      seq [literal "type", ref "id", literal "=", ref "datatype"],
      seq [literal "import", optional (literal "service"), ref "text"]]),
    ("actor", seq [
      literal "service",
      optional (labelled "name" (ref "id")),
      literal ":",
      optional (seq [labelled "type_parameters" (ref "tuptype"), literal "->"]),
      labelled "return_type" (oneOf [ref "actortype", ref "id"]),
      optional (literal ";")]),
    ("actortype", seq [literal "\x7b", separated (ref "methtype") ";", literal "\x7d"]),
    ("methtype", seq [
      labelled "name" (ref "name"),
      literal ":",
      labelled "type" (oneOf [ref "functype", ref "id"])]),
    ("functype", seq [
      labelled "type_parameters" (ref "tuptype"),
      literal "->",
      labelled "return_type" (ref "tuptype"),
      many (ref "funcann")]),
    ("funcann", literals ["oneway", "query", "composite_query"]),
    ("tuptype", seq [literal "(", separated (ref "argtype") ",", literal ")"]),
    ("argtype", oneOf [ref "datatype", ref "_argtype_short"]),
    ("_record_fieldtype", recordField ":" "datatype"),
    ("_variant_fieldtype", variantField ":" "datatype"),
    ("datatype", oneOf [ref "id", ref "primtype", ref "comptype"]),
    ("comptype", oneOf [ref "constype", ref "reftype"]),
    ("primtype", oneOf [
      ref "numtype",
      literals ["bool", "text", "null", "reserved", "empty", "principal"]]),
    ("numtype", literals [
      "nat", "nat8", "nat16", "nat32", "nat64", "int", "int8", "int16", "int32", "int64",
      "float32", "float64"]),
    ("constype", oneOf [
      seq [literal "opt", ref "datatype"],
      seq [literal "vec", ref "datatype"],
      fields "record" "_record_fieldtype" (separated · ";") "fieldtype",
      fields "variant" "_variant_fieldtype" (separated · ";") "fieldtype",
      ref "_constype_short"]),
    ("reftype", oneOf [
      seq [literal "func", ref "functype"],
      seq [literal "service", ref "actortype"]]),
    ("name", oneOf [ref "id", ref "text"]),
    ("_argtype_short", seq [labelled "name" (ref "name"), literal ":", ref "datatype"]),
    ("_constype_short", literal "blob")]

def commentRules : List (String × Rule) :=
  [("comment", oneOf [ref "_line_comment", ref "_block_comment"]),
    ("_line_comment", asToken (seq [literal "//", regex "[^\n]*"]))]

def interfaceRules : List (String × Rule) :=
  [("desc", seq [
      separated (ref "def") ";",
      optional (seq [ref "service", immediate (literal ";")])]),
    ("service", seq [
      literal "service",
      optional (labelled "name" (ref "id")),
      literal ":",
      labelled "return_type" (oneOf [ref "actortype", ref "id"])])]

def valueRules : List (String × Rule) :=
  [("val", oneOf [
      ref "primval", ref "consval", ref "refval",
      seq [literal "(", ref "annval", literal ")"]]),
    ("annval", oneOf [ref "val", seq [ref "val", literal ":", ref "datatype"]]),
    ("primval", oneOf [
      ref "nat", ref "int", ref "float", ref "text", ref "bool_literal", ref "null_literal"]),
    ("bool_literal", literals ["true", "false"]),
    ("null_literal", literal "null"),
    ("consval", oneOf [
      seq [literal "opt", ref "val"],
      seq [literal "vec", literal "\x7b", separated (ref "annval") ";", literal "\x7d"],
      fields "record" "_record_fieldval" (separated · ";") "fieldval",
      fields "variant" "_variant_fieldval" id "fieldval",
      ref "_consval_short"]),
    ("_record_fieldval", recordField "=" "annval"),
    ("_variant_fieldval", variantField "=" "annval"),
    ("refval", oneOf [
      seq [literal "service", ref "text"],
      seq [literal "func", ref "text", literal ".", ref "name"],
      seq [literal "principal", ref "text"]]),
    ("arg", seq [literal "(", separated (ref "annval") ",", literal ")"])]

def natToken : Rule := asToken (oneOf [seq [literal "0x", regex hexDigits], regex decimalDigits])

def intToken : Rule := asToken (signed [regex decimalDigits])

/-- With an exponent before without one, so that the longest form comes first. -/
def floatToken : Rule :=
  asToken (oneOf [
    signed [
      literal "0x", regex hexDigits,
      optional (seq [literal ".", optional (regex hexDigits)]),
      oneOf [literal "p", literal "P"], sign, regex decimalDigits],
    signed [literal "0x", regex hexDigits, literal ".", optional (regex hexDigits)],
    signed [
      regex decimalDigits,
      optional (seq [literal ".", optional (regex decimalDigits)]),
      oneOf [literal "e", literal "E"], sign, regex decimalDigits],
    signed [regex decimalDigits, literal ".", optional (regex decimalDigits)]])

def tokenRules : List (String × Rule) :=
  [("letter", regex "[A-Za-z]"),
    ("digit", regex "[0-9]"),
    ("id", regex "[A-Za-z_][A-Za-z0-9_]*"),
    ("nat", natToken),
    ("int", intToken),
    ("float", floatToken),
    ("text", regex quotedText),
    ("_consval_short", seq [literal "blob", ref "text"])]

def grammar : Grammar :=
  (typeRules ++ commentRules ++ interfaceRules ++ valueRules ++ tokenRules).foldl
    (fun g (name, rule) => g.define name rule)
    { name := "candid"
      word := some "id"
      extras := some [regex "\\s", ref "comment"]
      externals := some [ref "_block_comment"] }

def language : Except CompileError Language :=
  Language.compile grammar (some BlockComment.scanner) 0

end EarleyTree.Candid
