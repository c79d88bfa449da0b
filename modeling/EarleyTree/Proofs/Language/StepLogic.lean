import EarleyTree.Language.Compilation

/-!
What can be said of every step that a rule is flattened to, from what can be said of the symbols that
the steps are made with.
-/
namespace EarleyTree

open Compile

def Alternative.All (K : Step → Prop) (a : Alternative) : Prop := ∀ step ∈ a.steps, K step

namespace Alternative.All

variable {K : Step → Prop} {a : Alternative} {as bs : List Alternative}

theorem empty : Alternative.All K {} := fun _ hm => absurd hm List.not_mem_nil

theorem of_step {step : Step} (h : K step) : Alternative.All K { steps := [step] } :=
  List.forall_mem_singleton.2 h

theorem label {field : FieldId} (hf : ∀ step, K step → K { step with field := step.field.or (some field) })
    (h : a.All K) : (label field a).All K :=
  List.forall_mem_map.2 fun step hm => hf step (h step hm)

theorem product (ha : ∀ a ∈ as, a.All K) (hb : ∀ b ∈ bs, b.All K) :
    ∀ c ∈ Alternative.product as bs, c.All K := by
  intro c hc
  obtain ⟨a, ham, hc⟩ := List.mem_flatMap.1 hc
  obtain ⟨b, hbm, rfl⟩ := List.mem_map.1 hc
  exact List.forall_mem_append.2 ⟨ha a ham, hb b hbm⟩

end Alternative.All

/-- A judgement on what actions return that goes through sequences of actions, and by which steps
have the property if they are put together as flattening does it. -/
structure StepLogic (J : {α : Type} → Compile α → (α → Prop) → Prop) (K : Step → Prop) : Prop where
  pure {α : Type} {a : α} {Q : α → Prop} : Q a → J (Pure.pure a) Q
  throw {α : Type} {e : CompileError} {Q : α → Prop} : J (throw e) Q
  bind {α β : Type} {m : Compile α} {k : α → Compile β} {Q : α → Prop} {R : β → Prop} :
    J m Q → (∀ a, J (k a) fun b => Q a → R b) → J (m >>= k) R
  weaken {α : Type} {m : Compile α} {Q Q' : α → Prop} : J m Q → (∀ a, Q a → Q' a) → J m Q'
  symbol (name : String) : J (symbol name) fun s => K { symbol := s }
  literal (text : String) : J (literal text) fun s => K { symbol := s }
  inlineToken (r : Rule) (owner : String) :
    J (inlineToken r owner) fun s => ∀ immediate, K { symbol := s, immediate }
  fieldId (name : String) :
    J (fieldId name) fun id => ∀ step, K step → K { step with field := step.field.or (some id) }
  newKind (name : String) (named : Bool) :
    J (newKind name named) fun k => ∀ s, K { symbol := s } → K { symbol := s, newKind := some k }
  auxiliary {body : Compile (List Alternative)} (owner what : String) :
    J body (fun as => ∀ a ∈ as, a.All K) → J (auxiliary body owner what) fun s => K { symbol := s }
  repetition {body : Compile (List Alternative)} (owner : String) :
    J body (fun as => ∀ a ∈ as, a.All K) → J (repetition body owner) fun s => K { symbol := s }

namespace StepLogic

variable {J : {α : Type} → Compile α → (α → Prop) → Prop} {K : Step → Prop} (h : StepLogic J K)

include h

theorem map {α β : Type} {m : Compile α} {Q : α → Prop} {R : β → Prop} {f : α → β} (hm : J m Q)
    (hf : ∀ a, Q a → R (f a)) : J (do return f (← m)) R :=
  h.bind hm fun a => h.pure (hf a)

mutual

/-- The induction is on the rule; the members of a sequence come with what the members before them
were flattened to. -/
theorem flatten (owner : String) : (r : Rule) → J (r.flatten owner) fun as => ∀ a ∈ as, a.All K
  | ⟨kind, value, name, content, members, named, flags, context⟩ => by
    have hc := flattenContent owner kind content
    have hsingle {s : Symbol} (hs : K { symbol := s }) : ∀ a ∈ single s, a.All K :=
      List.forall_mem_singleton.2 (.of_step hs)
    cases kind with
    | blank => exact h.pure (List.forall_mem_singleton.2 .empty)
    | string => exact h.map (h.literal _) fun _ => hsingle
    | pattern | token => exact h.map (h.inlineToken _ owner) fun _ hs => hsingle (hs false)
    | immediateToken =>
        exact h.map (h.inlineToken _ owner) fun _ hs =>
          List.forall_mem_singleton.2 (.of_step (hs true))
    | symbol => exact h.map (h.symbol _) fun _ => hsingle
    | sequence =>
        exact h.weaken (flattenSequence owner [{}] members) fun as has =>
          has (List.forall_mem_singleton.2 .empty)
    | choice => exact flattenChoice owner members
    | zeroOrMore =>
        exact h.map (h.repetition owner hc) fun _ hs => List.forall_mem_cons.2 ⟨.empty, hsingle hs⟩
    | oneOrMore => exact h.map (h.repetition owner hc) fun _ => hsingle
    | precedence | precedenceLeft | precedenceRight | precedenceDynamic =>
        exact h.map hc fun as has => List.forall_mem_map.2 has
    | field =>
        refine h.bind (h.fieldId _) fun id => h.map hc fun as has hid => ?_
        exact List.forall_mem_map.2 fun a ha => (has a ha).label hid
    | renamed =>
        refine h.bind (h.newKind _ _) fun kindId => ?_
        have hrenamed {s : Symbol} (hs : K { symbol := s })
            (hk : ∀ s, K { symbol := s } → K { symbol := s, newKind := some kindId }) :
            ∀ a ∈ [({ steps := [{ symbol := s, newKind := some kindId }] } : Alternative)],
              a.All K :=
          List.forall_mem_singleton.2 (.of_step (hk s hs))
        dsimp only
        split
        · exact h.map (h.symbol _) fun _ => hrenamed
        · exact h.map (h.auxiliary owner "alias" hc) fun _ => hrenamed
    | reserved => exact hc

theorem flattenContent (owner : String) (kind : RuleKind) : (content : Option Rule) →
    J (EarleyTree.flattenContent owner kind content) fun as => ∀ a ∈ as, a.All K
  | none => h.throw
  | some r => flatten owner r

theorem flattenSequence (owner : String) (before : List Alternative) : (members : List Rule) →
    J (EarleyTree.flattenSequence owner before members) fun as =>
      (∀ a ∈ before, a.All K) → ∀ a ∈ as, a.All K
  | [] => h.pure fun hb => hb
  | r :: rs => by
    have hr := flatten owner r
    refine h.bind hr fun alternatives => ?_
    split
    · refine h.bind (h.auxiliary owner "seq" hr) fun s => ?_
      refine h.weaken (flattenSequence owner _ rs) fun as has hs _ hb => has ?_
      exact .product hb (List.forall_mem_singleton.2 (.of_step hs))
    · refine h.weaken (flattenSequence owner _ rs) fun as has halternatives hb => has ?_
      exact .product hb halternatives

theorem flattenChoice (owner : String) : (members : List Rule) →
    J (EarleyTree.flattenChoice owner members) fun as => ∀ a ∈ as, a.All K
  | [] => h.pure fun _ ha => absurd ha List.not_mem_nil
  | r :: rs => by
    refine h.bind (flatten owner r) fun alternatives => ?_
    refine h.map (flattenChoice owner rs) fun as has halternatives => ?_
    exact List.forall_mem_append.2 ⟨halternatives, has⟩

end

end StepLogic

end EarleyTree
