import EarleyTree.Language.Compilation

/-!
The tokens written inside rules, and what can be said of an action that meets them in turn when a rule
is flattened.
-/
namespace EarleyTree

open Compile

mutual

/-- The tokens inside a syntactic rule from left to right, each with the name of that rule. -/
def Rule.inlineTokens (owner : String) : Rule → List (String × Rule)
  | r@⟨kind, _, _, content, members, _, _, _⟩ =>
    match kind with
    | .blank | .string | .symbol => []
    | .pattern | .token | .immediateToken => [(owner, r)]
    | .sequence | .choice => inlineTokensMembers owner members
    | .zeroOrMore | .oneOrMore | .precedence | .precedenceLeft | .precedenceRight
    | .precedenceDynamic | .field | .renamed | .reserved => inlineTokensContent owner content

def inlineTokensContent (owner : String) : Option Rule → List (String × Rule)
  | none => []
  | some r => r.inlineTokens owner

def inlineTokensMembers (owner : String) : List Rule → List (String × Rule)
  | [] => []
  | r :: rs => r.inlineTokens owner ++ inlineTokensMembers owner rs

end

theorem Rule.inlineTokens_of_symbolName? {owner name : String} {r : Rule}
    (h : r.symbolName? = some name) : r.inlineTokens owner = [] := by
  obtain ⟨kind, value, n, content, members, named, flags, context⟩ := r
  rw [Rule.symbolName?, Rule.isSymbol] at h
  split at h
  · next hk =>
      obtain rfl : kind = .symbol := by simpa using hk
      rw [Rule.inlineTokens]
  · cases h

/-- A judgement on actions with the tokens that were met before and those that have been met behind.
Tokens that were met before may be met again. -/
structure TokenLogic
    (J : {α : Type} → List (String × Rule) → Compile α → List (String × Rule) → Prop) : Prop where
  pure {α : Type} {met : List (String × Rule)} {a : α} : J met (Pure.pure a) met
  throw {α : Type} {met met' : List (String × Rule)} {e : CompileError} :
    J (α := α) met (throw e) met'
  bind {α β : Type} {met met' met'' : List (String × Rule)} {m : Compile α} {k : α → Compile β} :
    J met m met' → (∀ a, J met' (k a) met'') → J met (m >>= k) met''
  again {α : Type} {met more : List (String × Rule)} {m : Compile α} :
    more ⊆ met → J met m (met ++ more) → J met m met
  symbol {met : List (String × Rule)} (name : String) : J met (symbol name) met
  literal {met : List (String × Rule)} (text : String) : J met (literal text) met
  inlineToken {met : List (String × Rule)} (r : Rule) (owner : String) :
    J met (inlineToken r owner) (met ++ [(owner, r)])
  fieldId {met : List (String × Rule)} (name : String) : J met (fieldId name) met
  newKind {met : List (String × Rule)} (name : String) (named : Bool) : J met (newKind name named) met
  auxiliary {met met' : List (String × Rule)} {body : Compile (List Alternative)}
    (owner what : String) : J met body met' → J met (auxiliary body owner what) met'
  repetition {met met' : List (String × Rule)} {body : Compile (List Alternative)}
    (owner : String) : J met body met' → J met (repetition body owner) met'

namespace TokenLogic

variable {J : {α : Type} → List (String × Rule) → Compile α → List (String × Rule) → Prop}
  (h : TokenLogic J)

include h

theorem map {α β : Type} {met met' : List (String × Rule)} {m : Compile α} {f : α → β}
    (hm : J met m met') : J met (do return f (← m)) met' :=
  h.bind hm fun _ => h.pure

mutual

/-- The induction is on the rule. A member of a sequence that is flattened once more has no tokens but
those that have just been met. -/
theorem flatten (owner : String) (met : List (String × Rule)) :
    (r : Rule) → J met (r.flatten owner) (met ++ r.inlineTokens owner)
  | ⟨kind, value, name, content, members, named, flags, context⟩ => by
    have hc := flattenContent owner met kind content
    have hnone : ∀ {α : Type} {m : Compile α}, J met m met → J met m (met ++ []) := fun hm =>
      (List.append_nil met).symm ▸ hm
    cases kind with
    | blank => exact hnone h.pure
    | string => exact hnone (h.map (h.literal _))
    | pattern | token => exact h.map (h.inlineToken _ owner)
    | immediateToken => exact h.bind (h.inlineToken _ owner) fun _ => h.pure
    | symbol => exact hnone (h.map (h.symbol _))
    | sequence => exact flattenSequence owner met [{}] members
    | choice => exact flattenChoice owner met members
    | zeroOrMore => exact h.bind (h.repetition owner hc) fun _ => h.pure
    | oneOrMore => exact h.map (h.repetition owner hc)
    | precedence | precedenceLeft | precedenceRight | precedenceDynamic =>
        exact h.map hc
    | field => exact h.bind (h.fieldId _) fun id => h.map hc
    | renamed =>
        refine h.bind (h.newKind _ _) fun kindId => ?_
        dsimp only
        split
        · next name hname =>
            obtain ⟨r, rfl, hr⟩ := Option.bind_eq_some_iff.1 hname
            rw [Rule.inlineTokens, inlineTokensContent, Rule.inlineTokens_of_symbolName? hr]
            exact hnone (h.map (h.symbol name))
        · exact h.bind (h.auxiliary owner "alias" hc) fun _ => h.pure
    | reserved => exact hc

theorem flattenContent (owner : String) (met : List (String × Rule)) (kind : RuleKind) :
    (content : Option Rule) → J met (EarleyTree.flattenContent owner kind content)
      (met ++ inlineTokensContent owner content)
  | none => h.throw
  | some r => flatten owner met r

theorem flattenSequence (owner : String) (met : List (String × Rule)) (before : List Alternative) :
    (members : List Rule) → J met (EarleyTree.flattenSequence owner before members)
      (met ++ inlineTokensMembers owner members)
  | [] => (List.append_nil met).symm ▸ h.pure
  | r :: rs => by
    rw [inlineTokensMembers, ← List.append_assoc]
    refine h.bind (flatten owner met r) fun alternatives => ?_
    split
    · have hagain := h.again (List.subset_append_right met _)
        (h.auxiliary owner "seq" (flatten owner (met ++ r.inlineTokens owner) r))
      exact h.bind hagain fun s => flattenSequence owner _ _ rs
    · exact flattenSequence owner _ _ rs

theorem flattenChoice (owner : String) (met : List (String × Rule)) : (members : List Rule) →
    J met (EarleyTree.flattenChoice owner members) (met ++ inlineTokensMembers owner members)
  | [] => (List.append_nil met).symm ▸ h.pure
  | r :: rs => by
    rw [inlineTokensMembers, ← List.append_assoc]
    refine h.bind (flatten owner met r) fun alternatives => ?_
    exact h.map (flattenChoice owner _ rs)

end

end TokenLogic

end EarleyTree
