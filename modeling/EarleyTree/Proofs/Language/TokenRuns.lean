import EarleyTree.Proofs.Language.Integrity
import EarleyTree.Proofs.Language.RuleRows
import EarleyTree.Proofs.Language.TokenLogic

/-!
The rules of a grammar as they are defined one after the other: what can be said of the tokens met so
far and the terminals that were made for them.
-/
namespace EarleyTree

open Compile

/-- A statement on the tokens met and the draft. It is kept when a token is met, and nothing but what is
bound and the terminals matter to it. -/
structure TokenInvariant (R : List (String × Rule) → Draft → Prop) : Prop where
  forget {met more : List (String × Rule)} {d : Draft} (hm : more ⊆ met) (hd : R (met ++ more) d) : R met d
  same {met : List (String × Rule)} {d d' : Draft} (hd : R met d) (hn : d'.byName = d.byName)
    (hl : d'.literals = d.literals) (hi : d'.inlineTokens = d.inlineTokens)
    (ht : d'.lexTokens = d.lexTokens) : R met d'
  literal {met : List (String × Rule)} {d d' : Draft} {text : String} {s : Symbol} (hd : R met d)
    (h : literal text d = .ok (s, d')) : R met d'
  inlineToken {met : List (String × Rule)} {d d' : Draft} {r : Rule} {owner : String} {s : Symbol}
    (hd : R met d) (h : inlineToken r owner d = .ok (s, d')) : R (met ++ [(owner, r)]) d'

namespace Compile

variable {R : List (String × Rule) → Draft → Prop} {α β : Type} {met met' met'' : List (String × Rule)}
  {m : Compile α}

/-- If it succeeds, the action has met these tokens where those have been met before. -/
def Meets (R : List (String × Rule) → Draft → Prop) (met : List (String × Rule)) (m : Compile α)
    (met' : List (String × Rule)) : Prop :=
  ∀ d a d', m d = .ok (a, d') → R met d → R met' d'

namespace Meets

theorem pure {a : α} : Meets R met (Pure.pure a) met := by
  rintro d _ _ ⟨⟩ h
  exact h

theorem throw {e : CompileError} : Meets R met (throw e : Compile α) met' := by
  intro _ _ _ h
  cases h

theorem bind {k : α → Compile β} (hm : Meets R met m met') (hk : ∀ a, Meets R met' (k a) met'') :
    Meets R met (m >>= k) met'' := by
  intro d b d' h hd
  obtain ⟨a, d₁, h₁, h₂⟩ := bind_eq_ok h
  exact hk a d₁ b d' h₂ (hm d a d₁ h₁ hd)

end Meets

theorem symbol_meets (name : String) : Meets R met (symbol name) met := by
  intro d s d' h hd
  obtain ⟨-, rfl⟩ := symbol_lookup h
  exact hd

variable (hR : TokenInvariant R)

include hR

theorem fieldId_meets (name : String) : Meets R met (fieldId name) met := by
  intro d id d' h hd
  obtain ⟨-, rfl⟩ := fieldId_eq_ok h
  exact hR.same hd rfl rfl rfl rfl

theorem newKind_meets (name : String) (named : Bool) : Meets R met (newKind name named) met := by
  intro d k d' h hd
  obtain ⟨-, rfl⟩ | ⟨_, -, -, rfl⟩ | ⟨-, rfl⟩ := newKind_eq_ok h
  · exact hd
  · exact hR.same hd rfl rfl rfl rfl
  · exact hR.same hd rfl rfl rfl rfl

theorem declare_meets {body : Compile (List Alternative)} {f : Symbol → Alternative → Compile PUnit}
    (ps : Symbol → Alternative → List Production) (hbody : Meets R met body met')
    (hf : ∀ s a u d d', f s a d = .ok (u, d') →
      d' = { d with productions := d.productions ++ (ps s a).toArray }) (owner what : String) :
    Meets R met (do
      let name ← freshName owner what
      let s ← pushSymbol name .auxiliary false false
      (← body).forM (f s)
      return s) met' := by
  intro d s d' h hd
  obtain ⟨-, name, as, d₁, has, rfl⟩ := declare_eq_ok hf h
  have hd₁ := hbody (d.withAuxiliary name) as d₁ has (hR.same hd rfl rfl rfl rfl)
  exact hR.same hd₁ rfl rfl rfl rfl

theorem tokenLogic_meets : TokenLogic fun met m met' => Meets R met m met' where
  pure := .pure
  throw := .throw
  bind := .bind
  again hm h d a d' hr hd := hR.forget hm (h d a d' hr hd)
  symbol := symbol_meets
  literal _ _ _ _ h hd := hR.literal hd h
  inlineToken _ _ _ _ _ h hd := hR.inlineToken hd h
  fieldId := fieldId_meets hR
  newKind := newKind_meets hR
  auxiliary owner what hbody :=
    declare_meets hR (fun s a => [plainProduction s a]) hbody (fun _ _ _ _ _ => pushProduction_eq_ok)
      owner what
  repetition owner hbody :=
    declare_meets hR loopProductions hbody (fun _ _ _ _ _ => pushLoop_eq_ok) owner "repeat"

end Compile

namespace Grammar

variable (g : Grammar)

/-- The tokens inside a rule. A rule that is a token itself has none, nor has one that an external
takes the place of. -/
def tokensOf (e : String × Rule) : List (String × Rule) :=
  if e.2.isLexical || g.externalNames.contains e.1 then [] else e.2.inlineTokens e.1

def inlineTokens : List (String × Rule) := g.orderedRules.flatMap g.tokensOf

/-- The kind of the symbol that a name stands for. -/
def kindOf (e : String × Rule) : SymbolKind :=
  if g.externalNames.contains e.1 then .external
  else if e.2.isLexical then .terminal else .nonterminal

variable {g} {d d' : Draft} {e : String × Rule} {rules done met : List (String × Rule)} {u : PUnit}

theorem tokensOf_eq_nil (h : g.kindOf e ≠ .nonterminal) : g.tokensOf e = [] := by
  rw [kindOf] at h
  refine if_pos ?_
  by_contra hne
  simp_all

theorem tokensOf_eq (h : g.kindOf e = .nonterminal) : g.tokensOf e = e.2.inlineTokens e.1 := by
  rw [kindOf] at h
  refine if_neg ?_
  split at h <;> simp_all

/-- A named token is put among the tokens with its level. -/
theorem defineTerminal_eq_ok {name : String} {rule : Rule} {s : Symbol}
    (hl : d.byName.lookup name = some s) (hk : d.symbols[s]?.map (·.kind) = some .terminal)
    (h : defineRule (name, rule) d = .ok (u, d')) : ∃ source regex,
      rule.patternSource name = .ok source ∧ anchoredRegex name source = .ok regex ∧
        d' = { d with lexTokens :=
          d.lexTokens ++ [⟨s, regex, rule.literalText?.isSome, rule.lexicalPrecedence⟩] } := by
  obtain ⟨s', d₁, hs, h⟩ := bind_eq_ok h
  obtain ⟨hl', rfl⟩ := symbol_lookup hs
  obtain rfl : s = s' := Option.some.inj (hl.symm.trans hl')
  obtain ⟨_, _, hg, h⟩ := bind_eq_ok h
  cases hg
  rw [hk] at h
  obtain ⟨source, _, hr, h⟩ := bind_eq_ok h
  obtain ⟨hsource, rfl⟩ := lift_eq_ok hr
  obtain ⟨regex, _, hr, h⟩ := bind_eq_ok h
  obtain ⟨hregex, rfl⟩ := lift_eq_ok hr
  cases h
  exact ⟨source, regex, hsource, hregex, rfl⟩

/-- The name of a rule stands for a symbol of its kind. -/
def Binds (g : Grammar) (d : Draft) (e : String × Rule) : Prop :=
  ∃ s, d.byName.lookup e.1 = some s ∧ d.symbols[s]?.map (·.kind) = some (g.kindOf e)

theorem Binds.mono (h : g.Binds d e) (hs : d.Extends d') (hn : d'.byName = d.byName) :
    g.Binds d' e := by
  obtain ⟨s, hl, hk⟩ := h
  exact ⟨s, hn ▸ hl, hs.kind hk⟩

theorem defineRule_keeps (hb : g.Binds d e) (h : defineRule e d = .ok (u, d')) :
    d.Extends d' ∧ d'.byName = d.byName ∧ d.lexTokens ⊆ d'.lexTokens := by
  obtain ⟨s, hl, hk⟩ := hb
  obtain ⟨info, hi, -⟩ := Option.map_eq_some_iff.1 hk
  obtain ⟨hadds, -⟩ := defineRule_fills (f := d') hl hi h
  obtain ⟨new, hnew, -⟩ := hadds.tokens
  exact ⟨hadds.symbols, hadds.byName, hnew ▸ List.subset_append_left _ _⟩

/-- A rule that is a token makes a terminal of its own, and one that has productions meets the tokens
in it. -/
theorem defineRule_cases (hb : g.Binds d e) (h : defineRule e d = .ok (u, d')) :
    (g.kindOf e = .terminal ∧ ∃ s source regex, d.byName.lookup e.1 = some s ∧
      e.2.patternSource e.1 = .ok source ∧ anchoredRegex e.1 source = .ok regex ∧
      d' = { d with lexTokens :=
        d.lexTokens ++ [⟨s, regex, e.2.literalText?.isSome, e.2.lexicalPrecedence⟩] }) ∨
    (g.kindOf e = .external ∧ d' = d) ∨
    g.kindOf e = .nonterminal ∧ ∀ {R : List (String × Rule) → Draft → Prop} {met}, TokenInvariant R →
      R met d → R (met ++ g.tokensOf e) d' := by
  obtain ⟨name, rule⟩ := e
  obtain ⟨s, hl, hk⟩ := hb
  obtain ⟨s', hl', hcases⟩ := defineRule_eq_ok h
  obtain rfl : s = s' := Option.some.inj (hl.symm.trans hl')
  rw [hk] at hcases
  obtain ⟨hn, as, d₁, has, rfl⟩ | ⟨hn, tokens, htokens, rfl⟩ := hcases
  · have hn := Option.some.inj hn
    refine .inr (.inr ⟨hn, fun hR hd => ?_⟩)
    rw [tokensOf_eq hn]
    exact hR.same ((tokenLogic_meets hR).flatten name _ rule d as d₁ has hd) rfl rfl rfl rfl
  · by_cases ht : g.kindOf (name, rule) = .terminal
    · obtain ⟨source, regex, hsource, hregex, hd'⟩ := defineTerminal_eq_ok hl (ht ▸ hk) h
      exact .inl ⟨ht, s, source, regex, hl, hsource, hregex, hd'⟩
    · rw [if_neg fun h => ht (Option.some.inj h), List.map_eq_nil_iff] at htokens
      rw [htokens, List.append_nil]
      refine .inr (.inl ⟨?_, rfl⟩)
      rw [kindOf] at ht hn ⊢
      split <;> simp_all

/-- Externals are declared first, and a rule of one of their names gets no symbol of its own. -/
theorem binds_of_phases {d₁ d₂ d₃ : Draft} {names : List String} {ss : List Symbol}
    (hd₁ : Draft.Declares g [] d₁) (hempty : d₁.byName = []) (hd₃ : Draft.Declares g names d₃)
    (hnames : ∀ name, name ∈ g.externalNames ∨ (g.rules.find? name).isSome → name ∈ names)
    (h₂ : g.declareExternals d₁ = .ok (ss, d₂)) (h₃ : g.declareRules d₂ = .ok (u, d₃)) :
    d₁.Declared d₃ ∧ ∀ e ∈ g.orderedRules, g.Binds d₃ e := by
  rw [declareExternals_eq] at h₂
  rw [declareRules_eq] at h₃
  have hd₂ := declareExternals_declares hd₁ (List.Subset.refl _) h₂
  obtain ⟨hd₁₂, -, -, hx⟩ := declareExternals_declared h₂
  rw [hempty] at hx
  have hexternal {name : String} {s : Symbol} (hs : d₂.byName.lookup name = some s) :
      d₂.symbols[s]?.map (·.kind) = some .external :=
    (hx _ (mem_of_lookup hs)).resolve_left List.not_mem_nil
  obtain ⟨hd, hkeep, -⟩ :=
    declareRules_declared g.nodup_orderedRules (fun _ _ _ hs => hexternal hs) h₃
  refine ⟨hd₁₂.trans hd, fun ⟨name, rule⟩ he => ?_⟩
  rw [Binds, kindOf]
  by_cases hn : name ∈ g.externalNames
  · obtain ⟨s, hs⟩ := Option.isSome_iff_exists.1 (hd₂.bound name (List.mem_append_left [] hn))
    rw [if_pos (List.contains_iff_mem.2 hn)]
    exact ⟨s, hkeep hs, hd.symbols.kind (hexternal hs)⟩
  · have hr := g.mem_orderedRules.1 he
    obtain ⟨s, hs⟩ := Option.isSome_iff_exists.1 (hd₃.bound name (hnames name (.inr (by rw [hr]; rfl))))
    obtain ⟨info, hi, -, ⟨-, hm⟩ | ⟨rule', hr', hk⟩⟩ := hd₃.binds.names _ (mem_of_lookup hs)
    · exact absurd hm hn
    · obtain rfl : rule = rule' := Option.some.inj (hr.symm.trans hr')
      rw [if_neg fun h => hn (List.contains_iff_mem.1 h)]
      exact ⟨s, hs, by rw [hi, Option.map_some, hk]⟩

section

variable {P : List (String × Rule) → Draft → Prop}
  (hstep : ∀ done e d u d', g.Binds d e → P done d → defineRule e d = .ok (u, d') →
    P (done ++ [e]) d')

include hstep

/-- The rules are defined one after the other, and each that is defined is added to those before. -/
theorem defineRules_run (hb : ∀ e ∈ rules, g.Binds d e) (hd : P done d)
    (h : rules.forM defineRule d = .ok (u, d')) : P (done ++ rules) d' := by
  induction rules generalizing done d with
  | nil =>
      cases h
      rwa [List.append_nil]
  | cons e rules ih =>
      obtain ⟨_, d₁, h₁, h₂⟩ := bind_eq_ok h
      obtain ⟨hbe, hb⟩ := List.forall_mem_cons.1 hb
      obtain ⟨hs, hn, -⟩ := defineRule_keeps hbe h₁
      rw [← List.singleton_append, ← List.append_assoc]
      exact ih (fun e' he => (hb e' he).mono hs hn) (hstep done e d _ d₁ hbe hd h₁) h₂

/-- What holds before the rules are defined, and of each rule that is defined, holds of the tables. -/
theorem exists_run (hempty : ∀ d : Draft, d.inlineTokens = [] → d.lexTokens = [] → P [] d)
    {t : Tables} {hasScanner : Bool} (h : g.tables hasScanner = .ok t) : ∃ d : Draft, d.Binds g ∧
      g.Speaks d.vocabulary t ∧ t.Follows g d.vocabulary ∧ P g.orderedRules d ∧
      t.lexTokens = d.lexTokens := by
  obtain ⟨d₁, d₂, d₃, d₄, d₅, ⟨_, h₁⟩, h₂, ⟨_, h₃⟩, ⟨_, h₄⟩, h₅, hsymbols, hproductions, -, -,
    htokens, -⟩ := g.exists_phases h
  obtain ⟨names, hd₃, hnames⟩ := exists_declares h₁ h₂ h₃
  have hb := builds_of_phases hd₃ hnames h₄ h₅ hsymbols hproductions htokens
  obtain ⟨-, rfl⟩ := pushSymbol_eq_ok h₁
  obtain ⟨hd, hbinds⟩ := binds_of_phases declares_end rfl hd₃ hnames h₂ h₃
  rw [defineRules_eq] at h₄
  have hd₃ : P [] d₃ := hempty d₃ (congrArg Draft.inlineTokens hd.rest) (congrArg Draft.lexTokens hd.rest)
  exact ⟨d₄, hb.defines.binds, hb.speaks, hb.follows h, defineRules_run hstep hbinds hd₃ h₄, hb.tokens⟩

end

end Grammar

end EarleyTree
