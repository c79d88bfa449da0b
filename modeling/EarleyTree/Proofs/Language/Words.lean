import EarleyTree.Language.Compilation
import Mathlib.Data.List.Induction
import Mathlib.Data.Set.Insert
import Mathlib.Logic.Relation

/-!
Rules as sets of rows of symbols, and the rows that productions lead to when only auxiliary symbols
give way to their productions.
-/
namespace EarleyTree

/-- The symbols that names, literals and the patterns of other tokens stand for. -/
structure Vocabulary where
  name? : String → Option Symbol
  literal? : String → Option Symbol
  pattern? : List Char → Option Symbol

namespace Vocabulary

variable (v : Vocabulary)

/-- The terminal of a token. Only messages mention the rule that it is written in. -/
def token? (owner : String) (r : Rule) : Option Symbol :=
  match r.literalText? with
  | some text => v.literal? text
  | none =>
    match r.patternSource owner with
    | .ok source => v.pattern? source
    | .error _ => none

end Vocabulary

def letter (s : Option Symbol) : Set (List Symbol) := {w | ∃ a, s = some a ∧ w = [a]}

def concat (A B : Set (List Symbol)) : Set (List Symbol) := {w | ∃ x ∈ A, ∃ y ∈ B, w = x ++ y}

/-- One row of the set after the other, any number of times but not none. -/
def repeated (A : Set (List Symbol)) : Set (List Symbol) :=
  {w | ∃ rows, rows ≠ [] ∧ (∀ x ∈ rows, x ∈ A) ∧ w = List.flatten rows}

mutual

/-- The rows of symbols that a rule stands for. -/
def Rule.words (v : Vocabulary) (owner : String) : Rule → Set (List Symbol)
  | r@⟨kind, _, name, content, members, _, _, _⟩ =>
    match kind with
    | .blank => {[]}
    | .string => letter (v.literal? (r.stringValue?.getD ""))
    | .pattern | .token | .immediateToken => letter (v.token? owner r)
    | .symbol => letter (v.name? (name.getD ""))
    | .sequence => wordsSequence v owner members
    | .choice => wordsChoice v owner members
    | .zeroOrMore => {[]} ∪ repeated (wordsContent v owner content)
    | .oneOrMore => repeated (wordsContent v owner content)
    | .precedence | .precedenceLeft | .precedenceRight | .precedenceDynamic | .field | .renamed
    | .reserved => wordsContent v owner content

def wordsContent (v : Vocabulary) (owner : String) : Option Rule → Set (List Symbol)
  | none => ∅
  | some r => r.words v owner

def wordsSequence (v : Vocabulary) (owner : String) : List Rule → Set (List Symbol)
  | [] => {[]}
  | r :: rs => concat (r.words v owner) (wordsSequence v owner rs)

def wordsChoice (v : Vocabulary) (owner : String) : List Rule → Set (List Symbol)
  | [] => ∅
  | r :: rs => r.words v owner ∪ wordsChoice v owner rs

end

def Step.symbols (ss : List Step) : List Symbol := ss.map (·.symbol)

namespace Tables

variable (t : Tables)

def isAuxiliary (s : Symbol) : Bool := t.symbols[s]?.any (·.kind == .auxiliary)

/-- An auxiliary symbol of a row gives way to the steps of one of its productions. -/
def Rewrites (x y : List Symbol) : Prop :=
  ∃ p ∈ t.productions, t.isAuxiliary p.lhs = true ∧ ∃ before after,
    x = before ++ p.lhs :: after ∧ y = before ++ (Step.symbols p.steps ++ after)

/-- The rows without auxiliary symbols that the productions of a symbol lead to. -/
def rows (s : Symbol) : Set (List Symbol) :=
  {w | (∀ a ∈ w, t.isAuxiliary a = false) ∧
    ∃ p ∈ t.productions, p.lhs = s ∧ Relation.ReflTransGen t.Rewrites (Step.symbols p.steps) w}

variable {t} {ss ts : List Symbol}

theorem Rewrites.append_left (x : List Symbol) (hr : t.Rewrites ss ts) :
    t.Rewrites (x ++ ss) (x ++ ts) := by
  obtain ⟨p, hp, hs, before, after, rfl, rfl⟩ := hr
  exact ⟨p, hp, hs, x ++ before, after, by simp, by simp⟩

theorem Rewrites.append_right (x : List Symbol) (hr : t.Rewrites ss ts) :
    t.Rewrites (ss ++ x) (ts ++ x) := by
  obtain ⟨p, hp, hs, before, after, rfl, rfl⟩ := hr
  exact ⟨p, hp, hs, before, after ++ x, by simp, by simp⟩

end Tables

end EarleyTree
