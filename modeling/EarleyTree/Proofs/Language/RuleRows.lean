import EarleyTree.Grammar.Combinators
import EarleyTree.Proofs.Language.Flattening

/-!
The productions of a compiled rule lead to just the rows of places, and so of symbols, that the rule
stands for.
-/
namespace EarleyTree

open Compile

theorem insertName_perm (name : String) (ns : List String) :
    (insertName name ns).Perm (name :: ns) := by
  induction ns with
  | nil => exact .refl _
  | cons m ns ih =>
      rw [insertName]
      split
      · exact .refl _
      · exact (ih.cons m).trans (.swap name m ns)

theorem sortNames_perm (ns : List String) : (sortNames ns).Perm ns := by
  induction ns with
  | nil => exact .refl _
  | cons m ns ih => exact (insertName_perm m _).trans (ih.cons m)

namespace Grammar

variable (g : Grammar)

theorem mem_orderedNames {name : String} (h : name ∈ g.rules.names) : name ∈ g.orderedNames := by
  rw [orderedNames, List.mem_append, (sortNames_perm _).mem_iff, List.mem_filter]
  by_cases hr : name ∈ g.recordedNames
  · exact .inl hr
  · exact .inr ⟨h, by simpa using hr⟩

theorem mem_orderedRules {name : String} {rule : Rule} :
    (name, rule) ∈ g.orderedRules ↔ g.rules.find? name = some rule := by
  rw [orderedRules, List.mem_filterMap]
  constructor
  · rintro ⟨n, -, h⟩
    obtain ⟨r, hr, he⟩ := Option.map_eq_some_iff.1 h
    cases he
    exact hr
  · intro h
    refine ⟨name, g.mem_orderedNames ?_, by rw [h]; rfl⟩
    exact List.mem_map.2 ⟨(name, rule), mem_of_lookup h, rfl⟩

end Grammar

namespace Draft

variable {g : Grammar} {t : Tables} {v : Vocabulary} {d d₁ d₂ : Draft}
  {names names' : List String}

/-- The names are bound, and no production has been made yet. -/
structure Declares (g : Grammar) (names : List String) (d : Draft) : Prop where
  binds : d.Binds g
  productions : d.productions = #[]
  bound : ∀ name ∈ names, (d.byName.lookup name).isSome

theorem Declares.mono (h : Declares g names d) (hn : names' ⊆ names) : Declares g names' d :=
  ⟨h.binds, h.productions, fun name hm => h.bound name (hn hm)⟩

theorem Declares.bindName (h : Declares g names d) (info : SymbolInfo)
    (hi : (info.kind = .external ∧ info.name ∈ g.externalNames) ∨
      ∃ rule, g.rules.find? info.name = some rule ∧
        info.kind = if rule.isLexical then .terminal else .nonterminal) :
    Declares g (info.name :: names) { d with
      symbols := d.symbols.push info
      byName := (info.name, d.symbols.size) :: d.byName } := by
  refine ⟨h.binds.extend (extends_push d info) (List.Subset.refl _) ?_ ?_ ?_ ?_, h.productions, ?_⟩
  · exact fun _ hm => .inl hm
  · intro e hm
    obtain rfl | hm := List.mem_cons.1 hm
    · exact .inr ⟨info, Array.getElem?_push_size, rfl, hi⟩
    · exact .inl hm
  · exact fun _ hm => .inl hm
  · exact fun _ hm => .inl hm
  · intro name hm
    rw [List.lookup_cons]
    split
    · rfl
    · next hne =>
        obtain rfl | hm := List.mem_cons.1 hm
        · simp at hne
        · exact h.bound name hm

theorem Binds.name_eq (hb : d.Binds g) {name name' : String} {s : Symbol}
    (h : d.byName.lookup name = some s) (h' : d.byName.lookup name' = some s) : name = name' := by
  obtain ⟨info, hi, hname, -⟩ := hb.names _ (mem_of_lookup h)
  obtain ⟨info', hi', hname', -⟩ := hb.names _ (mem_of_lookup h')
  rw [hi] at hi'
  cases hi'
  exact hname.symm.trans hname'

theorem mem_pushProductions {s : Symbol} {as : List Alternative} {p : Production} :
    p ∈ d.productions ++ (as.map (plainProduction s)).toArray ↔
      p ∈ d.productions ∨ ∃ a ∈ as, p = plainProduction s a := by
  simp [eq_comm]

theorem lt_size_of_kind {s : Symbol} {kind : SymbolKind}
    (h : d.symbols[s]?.map (·.kind) = some kind) : s < d.symbols.size := by
  obtain ⟨info, hi, -⟩ := Option.map_eq_some_iff.1 h
  exact (Array.getElem?_eq_some_iff.1 hi).1

theorem Extends.kind {s : Symbol} {kind : SymbolKind} (he : d.Extends d₁)
    (h : d.symbols[s]?.map (·.kind) = some kind) : d₁.symbols[s]?.map (·.kind) = some kind := by
  obtain ⟨info, hi, hkind⟩ := Option.map_eq_some_iff.1 h
  rw [he s info hi, Option.map_some, hkind]

theorem later_pushProductions {s : Symbol} (as : List Alternative)
    (hs : d.symbols[s]?.map (·.kind) = some .nonterminal) :
    d.Later { d with productions := d.productions ++ (as.map (plainProduction s)).toArray } := by
  refine ⟨.refl d, rfl, fun h => h, fun h => h, fun p hp => mem_pushProductions.2 (.inl hp), ?_⟩
  intro p hp ha _
  obtain hp | ⟨a, -, rfl⟩ := mem_pushProductions.1 hp
  · exact hp
  · obtain ⟨info, hi, hkind⟩ := Option.map_eq_some_iff.1 hs
    simp [isAuxiliary, plainProduction, hi, hkind] at ha

/-- From the first draft to the second the rules were defined. What is new under the symbol of a
name leads to the rows of places that the rules of that name stand for. -/
structure Defines (g : Grammar) (t : Tables) (v : Vocabulary) (rules : List (String × Rule))
    (d d' : Draft) : Prop where
  binds : d'.Binds g
  later : d.Later d'
  named : ∀ p ∈ d'.productions, p ∈ d.productions ∨ d'.isAuxiliary p.lhs = true ∨
    ∃ e ∈ rules, d.byName.lookup e.1 = some p.lhs
  rows : ∀ {name : String} {s : Symbol}, t.Keeps v d d' → d.byName.lookup name = some s →
    d.symbols[s]?.map (·.kind) = some .nonterminal → ∃ as,
      (∀ p, p.lhs = s →
        (p ∈ d'.productions ↔ p ∈ d.productions ∨ ∃ a ∈ as, p = plainProduction s a)) ∧
      ∀ w, w ∈ t.expansions as ↔ ∃ rule, (name, rule) ∈ rules ∧ w ∈ rule.places v name

theorem Defines.nil (hb : d.Binds g) : Defines g t v [] d d := by
  refine ⟨hb, .refl d, fun _ hp => .inl hp, fun _ _ _ => ⟨[], ?_, ?_⟩⟩
  · simp
  · simp [Tables.expansions_nil, Language.notMem_zero]

theorem Defines.append {rules rules' : List (String × Rule)} (h : Defines g t v rules d d₁)
    (h' : Defines g t v rules' d₁ d₂) : Defines g t v (rules ++ rules') d d₂ := by
  refine ⟨h'.binds, h.later.trans h'.later, fun p hp => ?_, ?_⟩
  · obtain hp | ha | ⟨e, he, hl⟩ := h'.named p hp
    · refine (h.named p hp).imp_right (Or.imp h'.later.symbols.isAuxiliary ?_)
      exact fun ⟨e, he, hl⟩ => ⟨e, List.mem_append_left rules' he, hl⟩
    · exact .inr (.inl ha)
    · exact .inr (.inr ⟨e, List.mem_append_right rules he, h.later.byName ▸ hl⟩)
  · intro name s hk hl hs
    obtain ⟨as, hp, has⟩ := h.rows (hk.left h'.later) hl hs
    obtain ⟨as', hp', has'⟩ := h'.rows (hk.right h.later.symbols.size_le)
      (by rw [h.later.byName]; exact hl) (h.later.symbols.kind hs)
    refine ⟨as ++ as', fun p hlhs => ?_, ?_⟩
    · rw [hp' p hlhs, hp p hlhs]
      simp [or_and_right, exists_or, or_assoc]
    · intro w
      rw [Tables.expansions_append, Language.mem_add, has, has']
      simp [or_and_right, exists_or]

end Draft

namespace Grammar

variable (g : Grammar) {d d' : Draft}

def declareExternal (name : String) : Compile Symbol := do
  let s ← pushSymbol name .external (!isHiddenName name) (!isHiddenName name)
  bindName name s
  return s

def declareRule : String × Rule → Compile Unit
  | (name, rule) => do
    if ((← get).byName.lookup name).isNone then
      let kind := if rule.isLexical then .terminal else .nonterminal
      bindName name (← pushSymbol name kind (!isHiddenName name) (!isHiddenName name))

def defineRule : String × Rule → Compile Unit
  | (name, rule) => do
    let s ← symbol name
    match ((← get).symbols[s]?).map (·.kind) with
    | some SymbolKind.terminal =>
      let source ← rule.patternSource name
      let regex ← anchoredRegex name source
      pushLexToken ⟨s, regex, rule.literalText?.isSome, rule.lexicalPrecedence⟩
    | some SymbolKind.nonterminal => (← rule.flatten name).forM (pushProduction s)
    | _ => return

theorem declareExternals_eq : g.declareExternals = g.externalNames.mapM declareExternal := rfl

theorem declareRules_eq : g.declareRules = g.orderedRules.forM declareRule := rfl

theorem defineRules_eq : g.defineRules = g.orderedRules.forM defineRule := rfl

variable {g} {d d' : Draft} {names : List String}

theorem declareExternal_eq_ok {name : String} {s : Symbol}
    (h : declareExternal name d = .ok (s, d')) : s = d.symbols.size ∧ d' = { d with
      symbols := d.symbols.push ⟨name, .external, !isHiddenName name, !isHiddenName name⟩
      byName := (name, d.symbols.size) :: d.byName } := by
  obtain ⟨s, d₁, hs, h⟩ := bind_eq_ok h
  obtain ⟨rfl, rfl⟩ := pushSymbol_eq_ok hs
  cases h
  exact ⟨rfl, rfl⟩

/-- A rule whose name is bound already is left without a symbol. -/
theorem declareRule_eq_ok {name : String} {rule : Rule} {u : PUnit}
    (h : declareRule (name, rule) d = .ok (u, d')) :
    ((d.byName.lookup name).isSome ∧ d' = d) ∨
      (d.byName.lookup name = none ∧ d' = { d with
        symbols := d.symbols.push ⟨name, if rule.isLexical then .terminal else .nonterminal,
          !isHiddenName name, !isHiddenName name⟩
        byName := (name, d.symbols.size) :: d.byName }) := by
  obtain ⟨_, _, hg, h⟩ := bind_eq_ok h
  cases hg
  cases hl : d.byName.lookup name with
  | some s =>
      rw [hl] at h
      cases h
      exact .inl ⟨rfl, rfl⟩
  | none =>
      rw [hl] at h
      obtain ⟨s, d₁, hs, h⟩ := bind_eq_ok h
      obtain ⟨rfl, rfl⟩ := pushSymbol_eq_ok hs
      cases h
      exact .inr ⟨rfl, rfl⟩

theorem declareExternals_declares {externals : List String} {ss : List Symbol}
    (hd : Draft.Declares g names d) (hsub : externals ⊆ g.externalNames)
    (h : externals.mapM declareExternal d = .ok (ss, d')) :
    Draft.Declares g (externals ++ names) d' := by
  induction externals generalizing names d ss with
  | nil =>
      cases h
      exact hd
  | cons name externals ih =>
      rw [List.mapM_cons] at h
      obtain ⟨_, d₁, h₁, h⟩ := bind_eq_ok h
      obtain ⟨_, d₂, h₂, h⟩ := bind_eq_ok h
      cases h
      obtain ⟨-, rfl⟩ := declareExternal_eq_ok h₁
      have hd₁ := hd.bindName ⟨name, .external, !isHiddenName name, !isHiddenName name⟩
        (.inl ⟨rfl, hsub List.mem_cons_self⟩)
      refine (ih hd₁ (List.subset_of_cons_subset hsub) h₂).mono fun n hn => ?_
      simp only [List.mem_append, List.mem_cons] at hn ⊢
      tauto

theorem declareRules_declares {rules : List (String × Rule)} {u : PUnit}
    (hd : Draft.Declares g names d) (hsub : ∀ e ∈ rules, g.rules.find? e.1 = some e.2)
    (h : rules.forM declareRule d = .ok (u, d')) :
    Draft.Declares g (rules.map Prod.fst ++ names) d' := by
  induction rules generalizing names d with
  | nil =>
      cases h
      exact hd
  | cons e rules ih =>
      obtain ⟨name, rule⟩ := e
      obtain ⟨_, d₁, h₁, h⟩ := bind_eq_ok h
      have hd₁ : Draft.Declares g (name :: names) d₁ := by
        obtain ⟨hl, rfl⟩ | ⟨-, rfl⟩ := declareRule_eq_ok h₁
        · exact ⟨hd.binds, hd.productions, List.forall_mem_cons.2 ⟨hl, hd.bound⟩⟩
        · exact hd.bindName ⟨name, _, _, _⟩ (.inr ⟨rule, hsub _ List.mem_cons_self, rfl⟩)
      refine (ih hd₁ (fun e he => hsub e (List.mem_cons_of_mem _ he)) h).mono fun n hn => ?_
      simp only [List.map_cons, List.mem_append, List.mem_cons] at hn ⊢
      tauto

/-- A rule that has productions adds those, one that has a token the token, and an external neither. -/
theorem defineRule_eq_ok {name : String} {rule : Rule} {u : PUnit}
    (h : defineRule (name, rule) d = .ok (u, d')) : ∃ s, d.byName.lookup name = some s ∧
      ((d.symbols[s]?.map (·.kind) = some .nonterminal ∧ ∃ as d₁,
          rule.flatten name d = .ok (as, d₁) ∧ d' = { d₁ with
            productions := d₁.productions ++ (as.map (plainProduction s)).toArray }) ∨
        (d.symbols[s]?.map (·.kind) ≠ some .nonterminal ∧ ∃ tokens : List LexToken,
          tokens.map (·.symbol) =
            (if d.symbols[s]?.map (·.kind) = some .terminal then [s] else []) ∧
          d' = { d with lexTokens := d.lexTokens ++ tokens })) := by
  obtain ⟨s, d₁, hs, h⟩ := bind_eq_ok h
  obtain ⟨hl, rfl⟩ := symbol_lookup hs
  refine ⟨s, hl, ?_⟩
  obtain ⟨_, _, hg, h⟩ := bind_eq_ok h
  cases hg
  cases hk : d.symbols[s]?.map (·.kind) with
  | none =>
      rw [hk] at h
      cases h
      exact .inr ⟨nofun, [], rfl, by rw [List.append_nil]⟩
  | some kind =>
      rw [hk] at h
      cases kind with
      | nonterminal =>
          obtain ⟨as, d₂, has, h⟩ := bind_eq_ok h
          exact .inl ⟨rfl, as, d₂, has, pushProductions_eq_ok h⟩
      | terminal =>
          obtain ⟨source, _, hr, h⟩ := bind_eq_ok h
          obtain ⟨-, rfl⟩ := lift_eq_ok hr
          obtain ⟨regex, _, hr, h⟩ := bind_eq_ok h
          obtain ⟨-, rfl⟩ := lift_eq_ok hr
          cases h
          exact .inr ⟨nofun, _, rfl, rfl⟩
      | endMarker | external | auxiliary | nameOnly =>
          cases h
          exact .inr ⟨nofun, [], rfl, by rw [List.append_nil]⟩

variable {t : Tables} {v : Vocabulary}

theorem defineRule_defines {e : String × Rule} {u : PUnit} (hb : d.Binds g)
    (h : defineRule e d = .ok (u, d')) : Draft.Defines g t v [e] d d' := by
  obtain ⟨name, rule⟩ := e
  obtain ⟨s, hl, ⟨hs, as, d₁, has, rfl⟩ | ⟨hs, tokens, -, rfl⟩⟩ := defineRule_eq_ok h
  · obtain ⟨hb₁, hg₁, hq⟩ := Rule.flatten_makes g t v name rule d as d₁ hb has
    have hlater := Draft.later_pushProductions as (hg₁.symbols.kind hs)
    have hlt := Nat.lt_of_lt_of_le (Draft.lt_size_of_kind hs) hg₁.symbols.size_le
    refine ⟨?_, hg₁.toLater.trans hlater, fun p hp => ?_, ?_⟩
    · refine hb₁.extend (.refl d₁) (List.Subset.refl _) ?_ (fun _ h => .inl h) (fun _ h => .inl h)
        (fun _ h => .inl h)
      intro p hp
      obtain hp | ⟨a, -, rfl⟩ := Draft.mem_pushProductions.1 hp
      · exact .inl hp
      · exact .inr hlt
    · obtain hp | ⟨a, -, rfl⟩ := Draft.mem_pushProductions.1 hp
      · exact (hg₁.auxiliary p hp).imp_right .inl
      · exact .inr (.inr ⟨_, List.mem_singleton_self _, hl⟩)
    · intro n s' hk hl' hs'
      have hold {p : Production} (hp : p.lhs = s') : p ∈ d₁.productions ↔ p ∈ d.productions := by
        refine ⟨fun h => hg₁.fresh p h ?_, hg₁.productions p⟩
        rw [hp]
        exact Draft.lt_size_of_kind hs'
      by_cases hn : n = name
      · subst hn
        obtain rfl : s = s' := Option.some.inj (hl.symm.trans hl')
        refine ⟨as, fun p hp => ?_, ?_⟩
        · rw [Draft.mem_pushProductions, hold hp]
        · rw [hq (hk.left hlater)]
          simp
      · refine ⟨[], fun p hp => ?_, ?_⟩
        · rw [Draft.mem_pushProductions, hold hp]
          refine or_congr_right ⟨?_, by simp⟩
          rintro ⟨a, -, rfl⟩
          obtain rfl : s = s' := hp
          exact absurd (hb.name_eq hl' hl) hn
        · simp [Tables.expansions_nil, Language.notMem_zero, hn]
  · refine ⟨?_, ?_, fun _ hp => .inl hp, ?_⟩
    · exact hb.extend (.refl d) (List.subset_append_left _ _) (fun _ h => .inl h)
        (fun _ h => .inl h) (fun _ h => .inl h) (fun _ h => .inl h)
    · exact ⟨.refl d, rfl, fun h => h, fun h => h, fun _ h => h, fun _ h _ _ => h⟩
    · intro n s' _ hl' hs'
      have hn : n ≠ name := by
        rintro rfl
        obtain rfl : s = s' := Option.some.inj (hl.symm.trans hl')
        exact hs hs'
      exact ⟨[], by simp, by simp [Tables.expansions_nil, Language.notMem_zero, hn]⟩

theorem defineRules_defines {rules : List (String × Rule)} {u : PUnit} (hb : d.Binds g)
    (h : rules.forM defineRule d = .ok (u, d')) : Draft.Defines g t v rules d d' := by
  induction rules generalizing d with
  | nil =>
      cases h
      exact .nil hb
  | cons e rules ih =>
      obtain ⟨_, d₁, h₁, h⟩ := bind_eq_ok h
      have hd₁ : Draft.Defines g t v [e] d d₁ := defineRule_defines hb h₁
      exact hd₁.append (ih hd₁.binds h)

end Grammar

/-- The vocabulary has a symbol for each name of the grammar, and what its symbols stand for is in
the tables. -/
structure Grammar.Speaks (g : Grammar) (v : Vocabulary) (t : Tables) : Prop where
  names : ∀ {name s}, v.name? name = some s → g.Names t.symbols name s
  bound : ∀ {name}, name ∈ g.externalNames ∨ (g.rules.find? name).isSome → (v.name? name).isSome
  literals : ∀ {text s}, v.literal? text = some s → SpellsLiteral t.symbols t.lexTokens text s
  patterns : ∀ {source s}, v.pattern? source = some s →
    SpellsPattern t.symbols t.lexTokens source s

namespace Grammar

variable {g : Grammar} {t : Tables} {hasScanner : Bool}

theorem declares_end :
    Draft.Declares g [] { symbols := #[⟨"end", .endMarker, false, false⟩] } :=
  ⟨⟨by simp, by simp, by simp, by simp⟩, rfl, by simp⟩

/-- Before the rules are defined, all names of externals and rules have been declared. -/
theorem exists_declares {d₁ d₂ d₃ : Draft} {s : Symbol} {ss : List Symbol} {u : PUnit}
    (h₁ : pushSymbol "end" .endMarker false false {} = .ok (s, d₁))
    (h₂ : g.declareExternals d₁ = .ok (ss, d₂)) (h₃ : g.declareRules d₂ = .ok (u, d₃)) :
    ∃ names, Draft.Declares g names d₃ ∧
      ∀ name, name ∈ g.externalNames ∨ (g.rules.find? name).isSome → name ∈ names := by
  rw [declareExternals_eq] at h₂
  rw [declareRules_eq] at h₃
  obtain ⟨-, rfl⟩ := pushSymbol_eq_ok h₁
  have hd₂ := declareExternals_declares declares_end (List.Subset.refl _) h₂
  have hd₃ := declareRules_declares hd₂ (fun e he => g.mem_orderedRules.1 he) h₃
  refine ⟨_, hd₃, fun name hname => List.mem_append.2 ?_⟩
  obtain hname | hname := hname
  · exact .inr (List.mem_append_left _ hname)
  · obtain ⟨rule, hr⟩ := Option.isSome_iff_exists.1 hname
    exact .inl (List.mem_map.2 ⟨(name, rule), g.mem_orderedRules.2 hr, rfl⟩)

/-- Between the two drafts the rules are defined; beyond the second one the tables have a symbol to
start with, and a production of it. -/
structure Builds (g : Grammar) (t : Tables) (names : List String) (d d' : Draft) : Prop where
  declares : Draft.Declares g names d
  bound : ∀ name, name ∈ g.externalNames ∨ (g.rules.find? name).isSome → name ∈ names
  run : ∃ u, g.orderedRules.forM defineRule d = .ok (u, d')
  defines : Draft.Defines g t d'.vocabulary g.orderedRules d d'
  keeps : t.Keeps d'.vocabulary d d'
  tokens : t.lexTokens = d'.lexTokens
  start : t.start = d'.symbols.size
  isAuxiliary_start : t.isAuxiliary t.start = true
  productions : ∃ name rule, g.startRule? = some name ∧ d'.byName.lookup name = some rule ∧
    t.productions = d'.productions.push ⟨t.start, [{ symbol := rule }], 0⟩

theorem builds_of_phases {names : List String} {d d' d'' : Draft} {u : PUnit}
    (hd : Draft.Declares g names d)
    (hnames : ∀ name, name ∈ g.externalNames ∨ (g.rules.find? name).isSome → name ∈ names)
    (h : g.defineRules d = .ok (u, d')) (hs : g.declareStart d' = .ok (t.start, d''))
    (hsymbols : t.symbols = d''.symbols) (hproductions : t.productions = d''.productions)
    (htokens : t.lexTokens = d''.lexTokens) : g.Builds t names d d' := by
  rw [defineRules_eq] at h
  obtain ⟨-, name, rule, hname, hrule, hstart, rfl⟩ := g.declareStart_eq_ok hs
  have hk : t.Keeps d'.vocabulary d d' := by
    refine ⟨?_, fun h => h, fun h => h, fun h => h, ?_, fun p hm _ _ hlt => ?_⟩
    · intro s info hs
      rw [hsymbols]
      exact extends_push d' _ s info hs
    · exact fun p hm => hproductions ▸ Array.mem_push.2 (.inl hm)
    · rw [hproductions] at hm
      refine (Array.mem_push.1 hm).resolve_right ?_
      rintro rfl
      exact absurd (hstart ▸ hlt) (Nat.lt_irrefl _)
  refine ⟨hd, hnames, ⟨u, h⟩, defineRules_defines hd.binds h, hk, htokens, hstart, ?_,
    name, rule, hname, hrule, hproductions⟩
  rw [Tables.isAuxiliary, hsymbols, hstart, Array.getElem?_push_size]
  rfl

theorem exists_builds (h : g.tables hasScanner = .ok t) : ∃ names d d', g.Builds t names d d' := by
  obtain ⟨d₁, d₂, d₃, d₄, d₅, ⟨_, h₁⟩, h₂, ⟨_, h₃⟩, ⟨_, h₄⟩, h₅, hsymbols, hproductions, -, -,
    htokens, -⟩ := g.exists_phases h
  obtain ⟨names, hd₃, hnames⟩ := exists_declares h₁ h₂ h₃
  exact ⟨names, d₃, d₄, builds_of_phases hd₃ hnames h₄ h₅ hsymbols hproductions htokens⟩

end Grammar

/-- The text is to be derived from the rule that comes first; the productions are those of auxiliary
symbols and of rules, and they lead to the places that the rules stand for. -/
structure Tables.Follows (t : Tables) (g : Grammar) (v : Vocabulary) : Prop where
  start : ∃ name rule, g.startRule? = some name ∧ v.name? name = some rule ∧ t.StartsWith rule
  named : ∀ p ∈ t.productions, t.isAuxiliary p.lhs = true ∨
    ∃ name rule, g.rules.find? name = some rule ∧ v.name? name = some p.lhs
  places : ∀ {name rule s}, g.rules.find? name = some rule → v.name? name = some s →
    t.symbols[s]?.map (·.kind) = some .nonterminal → t.places s = rule.places v name

namespace Grammar

variable {g : Grammar} {t : Tables} {hasScanner : Bool}

section

variable {d d' : Draft} {names : List String} (hb : g.Builds t names d d')

include hb

/-- What the last draft of the rules has bound is a vocabulary for the tables. -/
theorem Builds.speaks : g.Speaks d'.vocabulary t where
  names hs := (hb.defines.binds.names _ (mem_of_lookup hs)).mono fun _ _ => hb.keeps.symbols
  bound := by
    intro name hname
    rw [Draft.vocabulary, hb.defines.later.byName]
    exact hb.declares.bound name (hb.bound name hname)
  literals hs := (hb.defines.binds.literals _ (mem_of_lookup hs)).mono
    (fun _ _ => hb.keeps.symbols) (hb.tokens ▸ List.Subset.refl _)
  patterns hs := (hb.defines.binds.patterns _ (mem_of_lookup hs)).mono
    (fun _ _ => hb.keeps.symbols) (hb.tokens ▸ List.Subset.refl _)

theorem Builds.follows (h : g.tables hasScanner = .ok t) : t.Follows g d'.vocabulary := by
  obtain ⟨hd, -, -, hdef, hk, -, hstart, hauxiliary, start, top, hs, htop, hproductions⟩ := hb
  have he : ∀ (s : Symbol) info, d'.symbols[s]? = some info → t.symbols[s]? = some info :=
    fun _ _ => hk.symbols
  have hp {p : Production} (hlt : p.lhs < d'.symbols.size) :
      p ∈ t.productions ↔ p ∈ d'.productions := by
    rw [hproductions]
    refine Array.mem_push.trans (or_iff_left ?_)
    rintro rfl
    exact absurd (hstart ▸ hlt) (Nat.lt_irrefl _)
  refine ⟨⟨start, top, hs, htop, ?_⟩, ?_, ?_⟩
  · obtain ⟨i, rule, hi, hsteps⟩ := (g.tables_wellFormed h).start
    obtain ⟨hlt, hl⟩ := (g.tables_wellFormed h).mem_productionsOf.1 (hi ▸ List.mem_singleton_self i)
    obtain ⟨p, hpi⟩ : ∃ p, t.productions[i]? = some p := ⟨_, Array.getElem?_eq_getElem hlt⟩
    have hm := Array.mem_of_getElem? hpi
    rw [Tables.lhs, hpi] at hl
    rw [hproductions] at hm
    obtain hm | rfl := Array.mem_push.1 hm
    · exact absurd (hl.trans hstart) (hdef.binds.productions p hm).ne
    · refine ⟨i, hi, ?_⟩
      rw [Tables.steps, hpi]
      rfl
  · intro p hm
    rw [hproductions] at hm
    obtain hm | rfl := Array.mem_push.1 hm
    · obtain hm | ha | ⟨⟨name, rule⟩, hr, hl⟩ := hdef.named p hm
      · exact absurd (hd.productions ▸ hm) (Array.not_mem_empty p)
      · obtain ⟨info, hi, hk'⟩ := (Option.any_eq_true _ _).1 ha
        exact .inl (by rw [Tables.isAuxiliary, he _ _ hi]; exact hk')
      · refine .inr ⟨name, rule, g.mem_orderedRules.1 hr, ?_⟩
        rw [Draft.vocabulary, hdef.later.byName]
        exact hl
    · exact .inl hauxiliary
  · intro name rule s hr hs hkind
    have hs' : d.byName.lookup name = some s := by
      rw [← hdef.later.byName]
      exact hs
    obtain ⟨info, hi, -⟩ := hd.binds.names _ (mem_of_lookup hs')
    have hi' := hdef.later.symbols s info hi
    have hlt : s < d'.symbols.size := (Array.getElem?_eq_some_iff.1 hi').1
    have hkind' : d.symbols[s]?.map (·.kind) = some .nonterminal := by
      rw [he s info hi'] at hkind
      rw [hi]
      exact hkind
    obtain ⟨as, hnew, has⟩ := hdef.rows hk hs' hkind'
    have hplaces : t.places s = t.expansions as := by
      refine Tables.places_eq_expansions fun p => ⟨?_, ?_⟩
      · rintro ⟨hm, rfl⟩
        simpa [hd.productions] using (hnew p rfl).1 ((hp hlt).1 hm)
      · rintro ⟨a, ha, rfl⟩
        exact ⟨(hp hlt).2 ((hnew _ rfl).2 (.inr ⟨a, ha, rfl⟩)), rfl⟩
    ext w
    rw [hplaces, has]
    simp [g.mem_orderedRules, hr]

end

theorem exists_follows (h : g.tables hasScanner = .ok t) :
    ∃ v : Vocabulary, g.Speaks v t ∧ t.Follows g v := by
  obtain ⟨names, d, d', hb⟩ := exists_builds h
  exact ⟨d'.vocabulary, hb.speaks, hb.follows h⟩

end Grammar

def compiles (g : Grammar) (test : Language → Bool) : Bool :=
  match Language.compile g none 0 with
  | .error _ => false
  | .ok l => test l

theorem exists_of_compiles {g : Grammar} {test : Language → Bool} (h : compiles g test = true) :
    ∃ l, Language.compile g none 0 = .ok l ∧ test l = true := by
  rw [compiles] at h
  split at h
  · cases h
  · next l hl => exact ⟨l, hl, h⟩

end EarleyTree
