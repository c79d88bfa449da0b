import EarleyTree.Parsing.Chart
import EarleyTree.Proofs.Language.Integrity
import EarleyTree.Proofs.Language.Nullable

/-!
Lookups that give a fault where there is nothing to be found, and what can be found in compiled tables.
-/
namespace EarleyTree

namespace Tables

variable {t : Tables}

/-- What the tables refer to is in them, and the tables by symbol have an entry for each. -/
structure Addressed (t : Tables) : Prop where
  step : ∀ p, ∀ step ∈ t.steps p, step.symbol < t.symbols.size
  lhs : ∀ p < t.productions.size, t.lhs p < t.symbols.size
  productionsOf : ∀ s, ∀ p ∈ t.productionsOf s, p < t.productions.size
  start : t.start < t.symbols.size
  productionsByLhs : t.productionsByLhs.size = t.symbols.size
  nullable : t.nullable.size = t.symbols.size

theorem Intact.addressed (hi : t.Intact) (ht : t.WellFormed) : t.Addressed where
  step := by
    intro p step hs
    rw [Tables.steps] at hs
    cases hp : t.productions[p]? with
    | none =>
        rw [hp] at hs
        cases hs
    | some production =>
        rw [hp] at hs
        exact hi.lt_size _ (.step (Array.mem_of_getElem? hp) hs)
  lhs _ hp := lt_size_of_any (ht.isNonterminal_lhs hp)
  productionsOf _ _ hp := (ht.mem_productionsOf.1 hp).1
  start := hi.lt_size _ .start
  productionsByLhs := hi.size_index
  nullable := ht.closed_round.1

end Tables

namespace Checked

/-- What is missing where it is asked for, or a loop that takes more rounds than it may. -/
inductive Fault
  | symbol
  | production
  | step
  | set
  | unit
  | constituent
  | text
  | endless
  deriving DecidableEq, Repr

def demand {α : Type} (fault : Fault) (found : Option α) : Except Fault α :=
  found.elim (.error fault) .ok

section

variable (t : Tables)

def symbolAt (s : Symbol) : Except Fault SymbolInfo := demand .symbol t.symbols[s]?

def productionAt (p : Nat) : Except Fault Production := demand .production t.productions[p]?

def stepAt (production : Production) (dot : Nat) : Except Fault Step :=
  demand .step production.steps[dot]?

def productionsAt (s : Symbol) : Except Fault (List Nat) := demand .symbol t.productionsByLhs[s]?

def nullableAt (s : Symbol) : Except Fault Bool := demand .symbol t.nullable[s]?

def setAt (sets : Array ItemSet) (k : Nat) : Except Fault ItemSet := demand .set sets[k]?

/-- Keeps what passes a test that may fail. -/
def select {α : Type} (test : α → Except Fault Bool) : List α → Except Fault (List α)
  | [] => return []
  | a :: as => do
    let keep ← test a
    let rest ← select test as
    return if keep then a :: rest else rest

def isNonterminal (s : Symbol) : Except Fault Bool := do
  let info ← symbolAt t s
  return info.isNonterminal

end

variable {t : Tables} {α β : Type}

@[simp] theorem demand_some (fault : Fault) (a : α) : demand fault (some a) = .ok a := rfl

@[simp] theorem ok_bind (a : α) (f : α → Except Fault β) : (Except.ok a >>= f) = f a := rfl

theorem exists_symbolAt {s : Symbol} (hs : s < t.symbols.size) :
    ∃ info, symbolAt t s = .ok info ∧ info.isTerminal = t.isTerminal s ∧
      info.isNonterminal = t.isNonterminal s ∧ info.visible = t.isVisible s := by
  refine ⟨t.symbols[s], ?_, ?_⟩
  · rw [symbolAt, Array.getElem?_eq_getElem hs, demand_some]
  · simp [Tables.isTerminal, Tables.isNonterminal, Tables.isVisible, hs]

theorem exists_productionAt {p : Nat} (hp : p < t.productions.size) :
    ∃ production, productionAt t p = .ok production ∧ production.lhs = t.lhs p ∧
      production.steps = t.steps p := by
  refine ⟨t.productions[p], ?_, ?_⟩
  · rw [productionAt, Array.getElem?_eq_getElem hp, demand_some]
  · simp [Tables.lhs, Tables.steps, hp]

theorem productionsAt_eq (ht : t.Addressed) {s : Symbol} (hs : s < t.symbols.size) :
    productionsAt t s = .ok (t.productionsOf s) := by
  have hs : s < t.productionsByLhs.size := ht.productionsByLhs ▸ hs
  simp [productionsAt, Tables.productionsOf, hs]

theorem nullableAt_eq (ht : t.Addressed) {s : Symbol} (hs : s < t.symbols.size) :
    nullableAt t s = .ok (t.isNullable s) := by
  have hs : s < t.nullable.size := ht.nullable ▸ hs
  simp [nullableAt, Tables.isNullable, hs]

theorem isNonterminal_eq {s : Symbol} (hs : s < t.symbols.size) :
    isNonterminal t s = .ok (t.isNonterminal s) := by
  obtain ⟨info, hinfo, -, hn, -⟩ := exists_symbolAt hs
  rw [isNonterminal, hinfo, ok_bind, hn]
  rfl

theorem select_eq {test : α → Except Fault Bool} {keep : α → Bool} {as : List α}
    (h : ∀ a ∈ as, test a = .ok (keep a)) : select test as = .ok (as.filter keep) := by
  induction as with
  | nil => rfl
  | cons a as ih =>
      obtain ⟨ha, has⟩ := List.forall_mem_cons.1 h
      rw [select, ha, ih has, List.filter_cons]
      rfl

end Checked

end EarleyTree
