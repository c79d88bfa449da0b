import EarleyTree.Proofs.Language.TokenRuns

/-!
The levels of tokens. A token with a name keeps its own level, but tokens inside rules share a
terminal with those of the same pattern, and that has the level of the first one of these.
-/
namespace EarleyTree

open Compile

/-- The pattern by which a token inside a rule is known. A literal is known by its text instead. -/
def Rule.sharedPattern? (owner : String) (r : Rule) : Option (List Char) :=
  if r.literalText?.isSome then none else (r.patternSource owner).toOption

/-- The first of the tokens that has the pattern. -/
def firstWith (tokens : List (String × Rule)) (source : List Char) : Option (String × Rule) :=
  tokens.find? fun e => e.2.sharedPattern? e.1 == some source

section

variable {owner : String} {r : Rule} {source source' : List Char} {met more : List (String × Rule)}

theorem Rule.sharedPattern?_literal {text : String} (h : r.literalText? = some text) :
    r.sharedPattern? owner = none := by
  rw [sharedPattern?, h]
  rfl

theorem Rule.sharedPattern?_pattern (h : r.literalText? = none)
    (hs : r.patternSource owner = .ok source) : r.sharedPattern? owner = some source := by
  rw [sharedPattern?, h, hs]
  rfl

theorem firstWith_append :
    firstWith (met ++ more) source = (firstWith met source).or (firstWith more source) :=
  List.find?_append

theorem firstWith_append_of_ne (h : r.sharedPattern? owner ≠ some source) :
    firstWith (met ++ [(owner, r)]) source = firstWith met source := by
  have hnone : firstWith [(owner, r)] source = none :=
    List.find?_eq_none.2 fun e he => by simpa [List.mem_singleton.1 he] using h
  rw [firstWith_append, hnone, Option.or_none]

theorem firstWith_append_of_subset (h : more ⊆ met) :
    firstWith (met ++ more) source = firstWith met source := by
  rw [firstWith_append]
  cases hm : firstWith met source with
  | some e => rfl
  | none => exact List.find?_eq_none.2 fun e he => List.find?_eq_none.1 hm e (h he)

end

namespace Draft

variable {d d' : Draft} {met more : List (String × Rule)}

/-- A terminal with a level of precedence. -/
def Levels (d : Draft) (s : Symbol) (literal : Bool) (level : Int) : Prop :=
  ∃ regex, ⟨s, regex, literal, level⟩ ∈ d.lexTokens

/-- The tokens that were met have their terminals, which have the levels of those met first. -/
structure Records (met : List (String × Rule)) (d : Draft) : Prop where
  known : ∀ e ∈ met, (∃ text, e.2.literalText? = some text ∧ (d.literals.lookup text).isSome) ∨
    ∃ source, e.2.literalText? = none ∧ e.2.patternSource e.1 = .ok source
  levels : ∀ source, Option.Rel (fun e s => d.Levels s false e.2.lexicalPrecedence)
    (firstWith met source) (d.inlineTokens.lookup source)

theorem Levels.mono {s : Symbol} {literal : Bool} {level : Int} (h : d.Levels s literal level)
    (ht : d.lexTokens ⊆ d'.lexTokens) : d'.Levels s literal level :=
  h.imp fun _ hm => ht hm

theorem Records.mono (h : d.Records met)
    (hl : ∀ {text s}, d.literals.lookup text = some s → d'.literals.lookup text = some s)
    (hi : d'.inlineTokens = d.inlineTokens) (ht : d.lexTokens ⊆ d'.lexTokens) : d'.Records met where
  known e he := (h.known e he).imp_left fun ⟨text, ht, hs⟩ => by
    obtain ⟨s, hs⟩ := Option.isSome_iff_exists.1 hs
    exact ⟨text, ht, by rw [hl hs]; rfl⟩
  levels source := by
    have hlevels := h.levels source
    rw [hi]
    generalize firstWith met source = first, d.inlineTokens.lookup source = s at hlevels ⊢
    cases hlevels with
    | some hs => exact .some (hs.mono ht)
    | none => exact .none

section

variable {owner : String} {r : Rule} {s : Symbol} {source : List Char} (h : d.Records met)

include h

theorem Records.meetLiteral {text : String} (ht : r.literalText? = some text)
    (hl : d.literals.lookup text = some s) : d.Records (met ++ [(owner, r)]) where
  known := List.forall_mem_append.2
    ⟨h.known, List.forall_mem_singleton.2 (.inl ⟨text, ht, by rw [hl]; rfl⟩)⟩
  levels source := by
    rw [firstWith_append_of_ne (by rw [Rule.sharedPattern?_literal ht]; nofun)]
    exact h.levels source

variable (ht : r.literalText? = none) (hs : r.patternSource owner = .ok source)

include ht hs

theorem Records.meetAgain (hl : d.inlineTokens.lookup source = some s) :
    d.Records (met ++ [(owner, r)]) where
  known := List.forall_mem_append.2
    ⟨h.known, List.forall_mem_singleton.2 (.inr ⟨source, ht, hs⟩)⟩
  levels source' := by
    have hlevels := h.levels source'
    cases hf : firstWith met source' with
    | some e => rwa [firstWith_append, hf, Option.some_or, ← hf]
    | none =>
        rw [hf] at hlevels
        rw [firstWith_append_of_ne, hf]
        · exact hlevels
        · rw [Rule.sharedPattern?_pattern ht hs]
          rintro ⟨⟩
          rw [hl] at hlevels
          cases hlevels

/-- A pattern that has not been met before gets a terminal of the level of this token. -/
theorem Records.meetFirst (hnew : d.inlineTokens.lookup source = none)
    (hlevel : d.Levels s false r.lexicalPrecedence) (hl : d'.literals = d.literals)
    (hi : d'.inlineTokens = (source, s) :: d.inlineTokens) (htokens : d'.lexTokens = d.lexTokens) :
    d'.Records (met ++ [(owner, r)]) where
  known := by
    rw [hl]
    exact List.forall_mem_append.2
      ⟨h.known, List.forall_mem_singleton.2 (.inr ⟨source, ht, hs⟩)⟩
  levels source' := by
    have hshared := Rule.sharedPattern?_pattern ht hs
    have hlevels := h.levels source'
    simp only [Levels, hi, htokens]
    by_cases he : source' = source
    · subst he
      have hfirst : firstWith (met ++ [(owner, r)]) source' = some (owner, r) := by
        rw [firstWith_append]
        rw [hnew] at hlevels
        cases hf : firstWith met source' with
        | some e => rw [hf] at hlevels; cases hlevels
        | none => simp [firstWith, hshared]
      rw [hfirst, List.lookup_cons_self]
      exact .some hlevel
    · rw [firstWith_append_of_ne, List.lookup_cons, beq_false_of_ne he]
      · exact hlevels
      · rw [hshared]
        exact fun h => he (Option.some.inj h).symm

end

theorem Records.forget (h : d.Records (met ++ more)) (hm : more ⊆ met) : d.Records met where
  known e he := h.known e (List.mem_append_left more he)
  levels source := firstWith_append_of_subset hm ▸ h.levels source

end Draft

theorem literal_lookup {text : String} {d d' : Draft} {s : Symbol}
    (h : literal text d = .ok (s, d')) : d'.literals.lookup text = some s := by
  obtain ⟨hl, rfl⟩ | ⟨-, rfl, regex, -, rfl⟩ := literal_eq_ok h
  · exact hl
  · exact List.lookup_cons_self

namespace Draft.Records

theorem literal {text : String} {s : Symbol} (hd : d.Records met) (h : literal text d = .ok (s, d')) :
    d'.Records met := by
  obtain ⟨-, rfl⟩ | ⟨hnew, rfl, regex, -, rfl⟩ := literal_eq_ok h
  · exact hd
  · exact hd.mono (lookup_cons_of_lookup hnew) rfl (List.subset_append_left _ _)

theorem inlineToken {r : Rule} {owner : String} {s : Symbol} (hd : d.Records met)
    (h : inlineToken r owner d = .ok (s, d')) : d'.Records (met ++ [(owner, r)]) := by
  obtain ⟨text, ht, h⟩ | ⟨ht, source, hsource, ⟨hl, rfl⟩ | ⟨hl, rfl, name, regex, -, rfl⟩⟩ :=
    inlineToken_eq_ok h
  · exact (hd.literal h).meetLiteral ht (literal_lookup h)
  · exact hd.meetAgain ht hsource hl
  · have hd₁ : Draft.Records met { d with
        lexTokens := d.lexTokens ++ [⟨d.symbols.size, regex, false, r.lexicalPrecedence⟩] } :=
      hd.mono (fun h => h) rfl (List.subset_append_left _ _)
    refine hd₁.meetFirst ht hsource hl ?_ rfl rfl rfl
    exact ⟨regex, List.mem_append_right _ (List.mem_singleton_self _)⟩

theorem invariant : TokenInvariant fun met d => d.Records met where
  forget hm hd := hd.forget hm
  same hd _ hl hi ht := hd.mono (fun hs => hl ▸ hs) hi (ht ▸ List.Subset.refl _)
  literal := literal
  inlineToken := inlineToken

end Draft.Records

namespace Grammar

variable (g : Grammar)

/-- The level of the terminal of a token inside a rule. -/
def sharedLevel (e : String × Rule) : Int :=
  match e.2.sharedPattern? e.1 with
  | none => 0
  | some source => ((firstWith g.inlineTokens source).map (·.2.lexicalPrecedence)).getD 0

/-- The level of a token is that of all tokens of its pattern, and it is zero if it is a literal. -/
def Agrees (e : String × Rule) : Prop :=
  match e.2.sharedPattern? e.1 with
  | none => e.2.lexicalPrecedence = 0
  | some source => ∀ e' ∈ g.inlineTokens, e'.2.sharedPattern? e'.1 = some source →
      e'.2.lexicalPrecedence = e.2.lexicalPrecedence

instance (e : String × Rule) : Decidable (g.Agrees e) :=
  match h : e.2.sharedPattern? e.1 with
  | none => decidable_of_iff (e.2.lexicalPrecedence = 0) (by rw [Agrees, h])
  | some source =>
    decidable_of_iff (∀ e' ∈ g.inlineTokens, e'.2.sharedPattern? e'.1 = some source →
      e'.2.lexicalPrecedence = e.2.lexicalPrecedence) (by rw [Agrees, h])

variable {g} {d d' : Draft} {e : String × Rule} {done met : List (String × Rule)} {u : PUnit}

/-- The rules up to here have been defined: what they are has its level. -/
structure Ranked (g : Grammar) (done : List (String × Rule)) (d : Draft) : Prop where
  named : ∀ e ∈ done, g.kindOf e = .terminal → ∃ s, d.byName.lookup e.1 = some s ∧
    d.Levels s e.2.literalText?.isSome e.2.lexicalPrecedence
  inline : d.Records (done.flatMap g.tokensOf)

theorem Ranked.nil (h : d.inlineTokens = []) : g.Ranked [] d :=
  ⟨by simp, ⟨by simp, fun source => by rw [h]; exact .none⟩⟩

theorem defineRule_records (hb : g.Binds d e) (hd : d.Records met)
    (h : defineRule e d = .ok (u, d')) : d'.Records (met ++ g.tokensOf e) := by
  obtain ⟨hk, _, _, _, -, -, -, rfl⟩ | ⟨hk, rfl⟩ | ⟨-, hmeets⟩ := defineRule_cases hb h
  · rw [tokensOf_eq_nil (by simp [hk]), List.append_nil]
    exact hd.mono (fun h => h) rfl (List.subset_append_left _ _)
  · rw [tokensOf_eq_nil (by simp [hk]), List.append_nil]
    exact hd
  · exact hmeets Draft.Records.invariant hd

theorem defineRule_named (hb : g.Binds d e) (hk : g.kindOf e = .terminal)
    (h : defineRule e d = .ok (u, d')) : ∃ s, d'.byName.lookup e.1 = some s ∧
      d'.Levels s e.2.literalText?.isSome e.2.lexicalPrecedence := by
  obtain ⟨-, s, _, regex, hl, -, -, rfl⟩ | ⟨hk', -⟩ | ⟨hk', -⟩ := defineRule_cases hb h
  · exact ⟨s, hl, regex, List.mem_append_right _ (List.mem_singleton_self _)⟩
  · cases hk.symm.trans hk'
  · cases hk.symm.trans hk'

theorem defineRule_ranked (hb : g.Binds d e) (hd : g.Ranked done d)
    (h : defineRule e d = .ok (u, d')) : g.Ranked (done ++ [e]) d' := by
  obtain ⟨-, hnames, htokens⟩ := defineRule_keeps hb h
  refine ⟨List.forall_mem_append.2 ⟨fun e' he hk' => ?_, ?_⟩, ?_⟩
  · obtain ⟨s', hs', hlevel⟩ := hd.named e' he hk'
    exact ⟨s', hnames ▸ hs', hlevel.mono htokens⟩
  · exact List.forall_mem_singleton.2 fun hk' => defineRule_named hb hk' h
  · rw [List.flatMap_append, List.flatMap_singleton]
    exact defineRule_records hb hd.inline h

end Grammar

/-- There is one terminal for the symbol, and it has this level. -/
def Tables.LexedAt (t : Tables) (s : Option Symbol) (level : Int) : Prop :=
  ∃ token ∈ t.lexTokens, s = some token.symbol ∧ token.precedence = level ∧
    ∀ other ∈ t.lexTokens, s = some other.symbol → other = token

namespace Grammar

variable {g : Grammar} {t : Tables} {hasScanner : Bool} {d : Draft} {e : String × Rule}

theorem lexedAt_of_levels (h : g.tables hasScanner = .ok t) (htokens : t.lexTokens = d.lexTokens)
    {s : Symbol} {literal : Bool} {level : Int} (hs : d.Levels s literal level) :
    t.LexedAt (some s) level := by
  obtain ⟨regex, hm⟩ := hs
  rw [← htokens] at hm
  refine ⟨_, hm, rfl, rfl, fun other ho he => ?_⟩
  exact List.inj_on_of_nodup_map (intact_of_tables h).nodup_lexTokens ho hm (Option.some.inj he).symm

theorem firstWith_isSome {met : List (String × Rule)} {source : List Char} (he : e ∈ met)
    (hs : e.2.sharedPattern? e.1 = some source) : ∃ e', firstWith met source = some e' := by
  refine Option.isSome_iff_exists.1 (List.find?_isSome.2 ⟨e, he, ?_⟩)
  rw [hs]
  exact beq_self_eq_true _

theorem sharedLevel_of_agrees (he : e ∈ g.inlineTokens) (h : g.Agrees e) :
    g.sharedLevel e = e.2.lexicalPrecedence := by
  rw [Agrees] at h
  rw [sharedLevel]
  cases hs : e.2.sharedPattern? e.1 with
  | none =>
      rw [hs] at h
      exact h.symm
  | some source =>
      rw [hs] at h
      obtain ⟨e', hf⟩ := firstWith_isSome he hs
      dsimp only
      rw [hf]
      exact h e' (List.mem_of_find?_eq_some hf) (by simpa using List.find?_some hf)

/-- A token inside a rule has a terminal, of the level that it shares. -/
theorem Ranked.level_of_mem (hd : g.Ranked g.orderedRules d) (hb : d.Binds g)
    (he : e ∈ g.inlineTokens) : ∃ s literal, d.vocabulary.token? e.1 e.2 = some s ∧
      d.Levels s literal (g.sharedLevel e) := by
  rw [Vocabulary.token?, sharedLevel]
  obtain ⟨text, ht, hl⟩ | ⟨source, ht, hs⟩ := hd.inline.known e he
  · obtain ⟨s, hs⟩ := Option.isSome_iff_exists.1 hl
    obtain ⟨-, regex, -, hm⟩ := hb.literals _ (mem_of_lookup hs)
    rw [ht, Rule.sharedPattern?_literal ht]
    exact ⟨s, true, hs, regex, hm⟩
  · have hshared := Rule.sharedPattern?_pattern ht hs
    obtain ⟨e', hf⟩ := firstWith_isSome he hshared
    have hlevels := hd.inline.levels source
    rw [ht, hs, hshared]
    dsimp only
    rw [hf]
    rw [show firstWith (g.orderedRules.flatMap g.tokensOf) source = some e' from hf] at hlevels
    generalize hl : d.inlineTokens.lookup source = s at hlevels
    cases hlevels with
    | some hlevel => exact ⟨_, false, hl, hlevel⟩

end Grammar

/-- A named token has its own level. A token inside a rule has the level of the first token of the
same pattern, or none if it is a literal, and thus its own if the others agree with it. -/
theorem Language.levels_of_tokens {g : Grammar} {scanner : Option Scanner} {handle : Nat}
    {l : Language} (h : Language.compile g scanner handle = .ok l) :
    ∃ v : Vocabulary, g.Speaks v l.tables ∧ l.tables.Follows g v ∧
      (∀ name rule, g.rules.find? name = some rule → rule.isLexical = true →
        name ∉ g.externalNames → l.tables.LexedAt (v.name? name) rule.lexicalPrecedence) ∧
      ∀ e ∈ g.inlineTokens, l.tables.LexedAt (v.token? e.1 e.2) (g.sharedLevel e) ∧
        (g.Agrees e → l.tables.LexedAt (v.token? e.1 e.2) e.2.lexicalPrecedence) := by
  have ht := Language.tables_of_compile h
  obtain ⟨d, hb, hv, hf, hd, htokens⟩ := Grammar.exists_run (P := g.Ranked)
    (fun _ _ _ _ _ => Grammar.defineRule_ranked) (fun _ hinline _ => .nil hinline) ht
  refine ⟨d.vocabulary, hv, hf, fun name rule hr hlexical hx => ?_, fun e he => ?_⟩
  · have hkind : g.kindOf (name, rule) = .terminal := by
      simp [Grammar.kindOf, hx, hlexical]
    obtain ⟨s, hs, hlevel⟩ := hd.named _ (g.mem_orderedRules.2 hr) hkind
    rw [show d.vocabulary.name? name = some s from hs]
    exact Grammar.lexedAt_of_levels ht htokens hlevel
  · obtain ⟨s, literal, hs, hlevel⟩ := hd.level_of_mem hb he
    have hshared := Grammar.lexedAt_of_levels ht htokens hlevel
    rw [← hs] at hshared
    exact ⟨hshared, fun ha => Grammar.sharedLevel_of_agrees he ha ▸ hshared⟩

def rankedLetter : Rule := .asToken (.ranked 1 (.regex "[a-z]"))

/-- Letters of one level, and digits beside them. -/
def rankedGrammar : Grammar :=
  ({ name := "ranked" } : Grammar).define "ranked"
    (.seq [rankedLetter, .many (.oneOf [rankedLetter, .regex "[0-9]"])])

theorem levels_of_tokens_ranked : ∃ l v, Language.compile rankedGrammar none 0 = .ok l ∧
    rankedGrammar.Speaks v l.tables ∧ l.tables.Follows rankedGrammar v ∧
    l.tables.LexedAt (v.token? "ranked" rankedLetter) 1 := by
  obtain ⟨l, hl, -⟩ := exists_of_compiles
    (show compiles rankedGrammar (fun _ => true) = true by decide +kernel)
  obtain ⟨v, hv, hf, -, h⟩ := Language.levels_of_tokens hl
  have hm : ("ranked", rankedLetter) ∈ rankedGrammar.inlineTokens := List.mem_cons_self
  exact ⟨l, v, hl, hv, hf, (h _ hm).2 (by decide +kernel)⟩

/-- A letter by itself, and in another rule a letter with a level; there are names of letters too. -/
def lettersGrammar : Grammar :=
  ({ name := "letters" } : Grammar).define "letters"
    (.oneOf [.seq [.literal "1", .regex "[a-z]"],
      .seq [.literal "2", .oneOf [.ref "k", .ref "w"]]]) |>.define "k" (.seq [.ref "kk"]) |>.define
    "kk" (.regex "[a-c]") |>.define "w" (.seq [rankedLetter])

/-- The letter with a level is read by the terminal of the one without. -/
theorem not_levels_letters : ∃ l s i token, Language.compile lettersGrammar none 0 = .ok l ∧
    l.kindId? "w" true = some s ∧ l.tables.productionsOf s = [i] ∧ token ∈ l.tables.lexTokens ∧
    l.tables.steps i = [{ symbol := token.symbol }] ∧ token.precedence = 0 ∧
    rankedLetter.lexicalPrecedence = 1 := by
  obtain ⟨l, hl, htest⟩ := exists_of_compiles
    (show compiles lettersGrammar (fun l =>
        (l.kindId? "w" true).any fun s => (l.tables.productionsOf s).any fun i =>
          l.tables.productionsOf s == [i] && l.tables.lexTokens.any fun token =>
            l.tables.steps i == [{ symbol := token.symbol }] && token.precedence == 0) = true
      by decide +kernel)
  obtain ⟨s, hs, htest⟩ := (Option.any_eq_true _ _).1 htest
  obtain ⟨i, -, htest⟩ := List.any_eq_true.1 htest
  obtain ⟨hi, htest⟩ := (Bool.and_eq_true _ _).mp htest
  obtain ⟨token, hm, ht⟩ := List.any_eq_true.1 htest
  rw [Bool.and_eq_true, beq_iff_eq, beq_iff_eq] at ht
  exact ⟨l, s, i, token, hl, hs, eq_of_beq hi, hm, ht.1, ht.2, rfl⟩

end EarleyTree
