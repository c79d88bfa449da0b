import EarleyTree.Grammar.Basic

namespace EarleyTree.Rule

def empty : Rule := { kind := .blank }

def literal (text : String) : Rule := { kind := .string, value := some (.text text) }

def regex (source : String) : Rule := { kind := .pattern, value := some (.text source) }

def ref (name : String) : Rule := { kind := .symbol, name := some name }

def seq (members : List Rule) : Rule := { kind := .sequence, members := members }

def oneOf (members : List Rule) : Rule := { kind := .choice, members := members }

def optional (r : Rule) : Rule := oneOf [r, empty]

def many (r : Rule) : Rule := { kind := .zeroOrMore, content := some r }

def many1 (r : Rule) : Rule := { kind := .oneOrMore, content := some r }

def asToken (r : Rule) : Rule := { kind := .token, content := some r }

/-- A token before which no extras may stand. -/
def immediate (r : Rule) : Rule := { kind := .immediateToken, content := some r }

def labelled (name : String) (r : Rule) : Rule :=
  { kind := .field, name := some name, content := some r }

def renamedTo (r : Rule) (name : String) (named : Bool) : Rule :=
  { kind := .renamed, name := some name, content := some r, named := some named }

def ranked (level : Int) (r : Rule) : Rule :=
  { kind := .precedence, value := some (.level level), content := some r }

end EarleyTree.Rule
