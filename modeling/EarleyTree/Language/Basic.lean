import EarleyTree.Language.Compilation
import EarleyTree.Lexing.Scanner
import EarleyTree.Text.Quoted

namespace EarleyTree

/-- A compiled grammar with its scanner. The handle tells apart what was compiled separately. -/
structure Language where
  tables : Tables
  scanner : Option Scanner
  handle : Nat := 0

namespace Language

def version : Nat := 14

def compile (g : Grammar) (scanner : Option Scanner) (handle : Nat) :
    Except CompileError Language :=
  (g.tables scanner.isSome).map fun tables => { tables, scanner, handle }

variable (l : Language)

def name : String := l.tables.name

def kindCount : Nat := l.tables.symbols.size

def kindName? (id : Symbol) : Option String :=
  if id = errorSymbol then some "ERROR" else l.tables.symbols[id]?.map (·.name)

def kindId? (name : String) (named : Bool) : Option Symbol :=
  if name = "ERROR" ∧ named then some errorSymbol
  else l.tables.symbols.findIdx? fun s => s.name == name && s.named == named && s.visible

def isNamed (id : Symbol) : Bool := id == errorSymbol || l.tables.symbols[id]?.any (·.named)

def isVisible (id : Symbol) : Bool := id == errorSymbol || l.tables.symbols[id]?.any (·.visible)

def fieldCount : Nat := l.tables.fields.length

def fieldName? (id : FieldId) : Option String := if id = 0 then none else l.tables.fields[id - 1]?

def fieldId? (name : String) : Option FieldId := (l.tables.fields.idxOf? name).map (· + 1)

def render : String :=
  "Language \x7b name: " ++ Text.quoted l.name ++
    s!", version: {version}, symbols: {l.kindCount}, " ++
    s!"productions: {l.tables.productions.size}, .. " ++ "\x7d"

end Language

end EarleyTree
