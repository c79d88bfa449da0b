import EarleyTree.Grammar.Rule

namespace EarleyTree

/-- Rules by name, in the order in which the names came. -/
structure RuleTable where
  entries : List (String × Rule)
  nodup : (entries.map Prod.fst).Nodup

namespace RuleTable

def empty : RuleTable := ⟨[], List.nodup_nil⟩

variable (t : RuleTable)

def names : List String := t.entries.map Prod.fst

def find? (name : String) : Option Rule := t.entries.lookup name

def contains (name : String) : Bool := t.names.contains name

def setEntries (name : String) (rule : Rule) : List (String × Rule) → List (String × Rule)
  | [] => [(name, rule)]
  | e :: es => if e.1 = name then (name, rule) :: es else e :: setEntries name rule es

theorem map_fst_setEntries (name : String) (rule : Rule) (es : List (String × Rule)) :
    (setEntries name rule es).map Prod.fst =
      if name ∈ es.map Prod.fst then es.map Prod.fst else es.map Prod.fst ++ [name] := by
  induction es with
  | nil => simp [setEntries]
  | cons e es ih =>
    by_cases h : e.1 = name
    · simp [setEntries, h]
    · have h' : ¬ name = e.1 := fun he => h he.symm
      by_cases hm : name ∈ es.map Prod.fst
      · simp only [setEntries, if_neg h, List.map_cons, ih, if_pos hm,
          if_pos (List.mem_cons_of_mem _ hm)]
      · have hn : name ∉ e.1 :: es.map Prod.fst := by simp [h', hm]
        simp only [setEntries, if_neg h, List.map_cons, ih, if_neg hm, if_neg hn, List.cons_append]

/-- A name that is there already keeps its place. -/
def insert (name : String) (rule : Rule) : RuleTable where
  entries := setEntries name rule t.entries
  nodup := by
    rw [map_fst_setEntries]
    split
    · exact t.nodup
    · next h =>
      rw [List.nodup_append]
      refine ⟨t.nodup, by simp, ?_⟩
      intro a ha b hb hab
      rw [List.mem_singleton] at hb
      exact h (hb ▸ hab ▸ ha)

def ofList (es : List (String × Rule)) : RuleTable :=
  es.foldl (fun t e => t.insert e.1 e.2) empty

end RuleTable

/-- Names in ascending order of their characters. -/
def insertName (name : String) : List String → List String
  | [] => [name]
  | n :: ns => if name ≤ n then name :: n :: ns else n :: insertName name ns

def sortNames (names : List String) : List String := names.foldr insertName []

/-- The rules of a language with the declarations around them. Absent declarations are told apart
from empty ones. -/
structure Grammar where
  schema : Option String := none
  name : String
  inherits : Option String := none
  rules : RuleTable := .empty
  /-- The order of definition, as far as it is recorded. -/
  ruleOrder : List String := []
  extras : Option (List Rule) := none
  externals : Option (List Rule) := none
  inlined : Option (List String) := none
  precedences : Option (List (List Rule)) := none
  conflicts : Option (List (List String)) := none
  reserved : Option (List (String × List Rule)) := none
  word : Option String := none
  supertypes : Option (List String) := none

namespace Grammar

variable (g : Grammar)

def recordedNames : List String := (g.ruleOrder.filter g.rules.contains).eraseDups

/-- The recorded names first, then the others in ascending order. -/
def orderedNames : List String :=
  g.recordedNames ++ sortNames (g.rules.names.filter fun n => !g.recordedNames.contains n)

def orderedRules : List (String × Rule) :=
  g.orderedNames.filterMap fun name => (g.rules.find? name).map (name, ·)

def isReferenced (name : String) : Bool :=
  g.rules.entries.any fun e => e.1 != name && e.2.references.contains name

/-- The first recorded rule, or else the first visible rule that no other one refers to. -/
def startRule? : Option String :=
  match g.ruleOrder.find? g.rules.contains with
  | some first => some first
  | none =>
    (g.orderedNames.find? fun n => !g.isReferenced n && !isHiddenName n).or g.orderedNames.head?

def externalName? (r : Rule) : Option String :=
  match r.kind with
  | .symbol => r.name
  | .string => r.stringValue?
  | _ => none

def externalNames : List String := (g.externals.getD []).filterMap externalName?

/-- Adds a rule at the end, or replaces the rule of that name. -/
def define (name : String) (rule : Rule) : Grammar :=
  { g with
    rules := g.rules.insert name rule
    ruleOrder := if g.rules.contains name then g.ruleOrder else g.ruleOrder ++ [name] }

end Grammar

end EarleyTree
